/-
  A list cut into pieces of one size.

  `slice size k` is the piece number `k` of a list. `chunks` are all of them, the last one
  as short as it comes, and a list made of pieces of one size has those as its slices.
-/
import Mathlib

namespace BuckosDistro.Lib.Chunks

variable {α : Type*} {size : ℕ}

/-- `xs[k * size:(k + 1) * size]` -/
def slice (size k : ℕ) (xs : List α) : List α := (xs.drop (k * size)).take size

/-- `[xs[offset:offset + size] for offset in range(0, len(xs), size)]` -/
def chunks (size : ℕ) (xs : List α) : List (List α) :=
  (List.range (xs.length ⌈/⌉ size)).map fun k => slice size k xs

@[simp] theorem length_chunks (xs : List α) : (chunks size xs).length = xs.length ⌈/⌉ size := by
  unfold chunks
  rw [List.length_map, List.length_range]

theorem getElem?_chunks (xs : List α) {k : ℕ} (h : k < xs.length ⌈/⌉ size) :
    (chunks size xs)[k]? = some (slice size k xs) := by
  unfold chunks
  rw [List.getElem?_map, List.getElem?_range h]
  rfl

theorem mem_chunks {xs piece : List α} :
    piece ∈ chunks size xs ↔ ∃ k < xs.length ⌈/⌉ size, piece = slice size k xs := by
  unfold chunks
  rw [List.mem_map]
  simp only [List.mem_range, eq_comm]

/-- The entries of a piece are those of the list. -/
theorem getElem?_slice (xs : List α) (k : ℕ) {s : ℕ} (h : s < size) :
    (slice size k xs)[s]? = xs[k * size + s]? := by
  unfold slice
  rw [List.getElem?_take_of_lt h, List.getElem?_drop]

theorem length_slice (xs : List α) (k : ℕ) :
    (slice size k xs).length = min size (xs.length - k * size) := by
  unfold slice
  rw [List.length_take, List.length_drop]

/-- A piece before the end of a list of full pieces is full. -/
theorem length_slice_of_dvd {xs : List α} (hd : size ∣ xs.length) {k : ℕ}
    (h : k < xs.length ⌈/⌉ size) : (slice size k xs).length = size := by
  obtain ⟨m, hm⟩ := hd
  rcases Nat.eq_zero_or_pos size with rfl | hpos
  · rw [length_slice]
    exact Nat.min_eq_left (Nat.zero_le _)
  · have hk : k < m := by
      rw [hm] at h
      rwa [show size * m ⌈/⌉ size = m from smul_ceilDiv hpos m] at h
    rw [length_slice, hm]
    have : (k + 1) * size ≤ m * size := Nat.mul_le_mul_right _ hk
    rw [Nat.add_mul, Nat.one_mul] at this
    rw [Nat.mul_comm size m]
    omega

theorem ceilDiv_sub (hs : 0 < size) {n : ℕ} (hn : 0 < n) :
    n ⌈/⌉ size = (n - size) ⌈/⌉ size + 1 := by
  rw [Nat.ceilDiv_eq_add_pred_div, Nat.ceilDiv_eq_add_pred_div]
  rcases Nat.lt_or_ge n size with hlt | hge
  · rw [Nat.sub_eq_zero_of_le hlt.le, Nat.zero_add, Nat.div_eq_of_lt (a := size - 1) (by omega),
      show n + size - 1 = (n - 1) + size by omega, Nat.add_div_right _ hs,
      Nat.div_eq_of_lt (by omega)]
  · rw [show n + size - 1 = (n - size + size - 1) + size by omega, Nat.add_div_right _ hs]

/-- The pieces put together are the list. -/
theorem flatten_chunks (hs : 0 < size) (xs : List α) : (chunks size xs).flatten = xs := by
  induction hn : xs.length using Nat.strong_induction_on generalizing xs with
  | _ n ih =>
    rcases Nat.eq_zero_or_pos n with rfl | hpos
    · rw [List.length_eq_zero_iff.mp hn]
      unfold chunks
      simp
    · have hcons : chunks size xs = xs.take size :: chunks size (xs.drop size) := by
        unfold chunks
        rw [ceilDiv_sub hs (by omega), List.range_succ_eq_map, List.map_cons, List.map_map,
          List.length_drop]
        congr 1
        · unfold slice
          rw [Nat.zero_mul, List.drop_zero]
        · refine List.map_congr_left fun k _ => ?_
          show slice size (k + 1) xs = slice size k (xs.drop size)
          unfold slice
          rw [List.drop_drop, Nat.add_mul, Nat.one_mul, Nat.add_comm]
      rw [hcons, List.flatten_cons,
        ih (xs.drop size).length (by rw [List.length_drop]; omega) _ rfl, List.take_append_drop]

/-- The pieces a list is put together from are read back. -/
theorem slice_flatten {parts : List (List α)} (h : ∀ part ∈ parts, part.length = size) {k : ℕ}
    {part : List α} (hk : parts[k]? = some part) : slice size k parts.flatten = part := by
  induction parts generalizing k with
  | nil => cases hk
  | cons first parts ih =>
    have hfirst := h first (List.mem_cons_self ..)
    rw [List.flatten_cons]
    rcases k with _ | k
    · rw [List.getElem?_cons_zero] at hk
      rw [← Option.some.inj hk, ← hfirst]
      unfold slice
      rw [Nat.zero_mul, List.drop_zero, List.take_left]
    · rw [List.getElem?_cons_succ] at hk
      rw [← ih (fun part hp => h part (List.mem_cons_of_mem _ hp)) hk]
      unfold slice
      rw [Nat.add_mul, Nat.one_mul, Nat.add_comm, ← hfirst, ← List.drop_drop, List.drop_left]

theorem length_flatten {parts : List (List α)} (h : ∀ part ∈ parts, part.length = size) :
    parts.flatten.length = parts.length * size := by
  induction parts with
  | nil => rw [List.flatten_nil, List.length_nil, List.length_nil, Nat.zero_mul]
  | cons first parts ih =>
    rw [List.flatten_cons, List.length_append, h first (List.mem_cons_self ..),
      ih fun part hp => h part (List.mem_cons_of_mem _ hp), List.length_cons, Nat.succ_mul,
      Nat.add_comm]

/-- Pieces that were put together are taken apart again. -/
theorem chunks_flatten (hs : 0 < size) {parts : List (List α)}
    (h : ∀ part ∈ parts, part.length = size) : chunks size parts.flatten = parts := by
  have hlength : (chunks size parts.flatten).length = parts.length := by
    rw [length_chunks, length_flatten h, Nat.mul_comm]
    exact smul_ceilDiv (b := parts.length) hs
  refine List.ext_getElem? fun k => ?_
  by_cases hk : k < parts.length
  · have hpart := List.getElem?_eq_getElem hk
    rw [getElem?_chunks _ (by rwa [← length_chunks, hlength]), slice_flatten h hpart, hpart]
  · rw [List.getElem?_eq_none (by omega), List.getElem?_eq_none (by omega)]

/-- Rounding up twice is rounding up once. -/
theorem ceilDiv_ceilDiv {a b : ℕ} (ha : 0 < a) (hb : 0 < b) (n : ℕ) :
    n ⌈/⌉ a ⌈/⌉ b = n ⌈/⌉ (a * b) := by
  refine eq_of_forall_ge_iff fun c => ?_
  rw [ceilDiv_le_iff_le_mul hb, ceilDiv_le_iff_le_mul ha,
    ceilDiv_le_iff_le_mul (Nat.mul_pos ha hb), Nat.mul_assoc]

theorem div_lt_ceilDiv {a d n : ℕ} (ha : 0 < a) (h : d < n) : d / a < n ⌈/⌉ a := by
  by_contra hge
  have := (ceilDiv_le_iff_le_mul ha).mp (Nat.not_lt.mp hge)
  have := Nat.mul_div_le d a
  omega

end BuckosDistro.Lib.Chunks
