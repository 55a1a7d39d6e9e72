/-
  Packing a list into bins from the left: an item goes to the bin in hand, or opens the next
  one when it would fill that bin to the limit. Nothing here names a program.
-/
import Mathlib

namespace BuckosDistro.Lib.Packing

variable {α : Type} (size : List α → ℕ) (limit : ℕ)

/-- The bins that are closed, and the one in hand. -/
structure Bins (α : Type) where
  closed : List (List α)
  current : List α

/-- Where an item goes. -/
def place (bins : Bins α) (a : α) : Bins α :=
  if bins.current ≠ [] ∧ limit ≤ size (bins.current ++ [a]) then
    ⟨bins.closed ++ [bins.current], [a]⟩
  else ⟨bins.closed, bins.current ++ [a]⟩

/-- The bins in the end. -/
def finish (bins : Bins α) : List (List α) :=
  if bins.current ≠ [] then bins.closed ++ [bins.current] else bins.closed

/-- A bin that could not have taken the first item of the next. -/
def Full (bin next : List α) : Prop := ∀ first ∈ next.head?, limit ≤ size (bin ++ [first])

/-- Bins that hold the items in order, each below the limit and filled before the next. -/
structure Packed (items : List α) (bins : List (List α)) : Prop where
  flatten : bins.flatten = items
  nonempty : ∀ bin ∈ bins, bin ≠ []
  fits : ∀ bin ∈ bins, size bin < limit
  full : bins.IsChain (Full size limit)

variable {size limit} {items : List α} {closed : List (List α)} {current : List α} {a : α}

theorem packed_nil : Packed size limit [] [] :=
  ⟨rfl, fun _ h => (nomatch h), fun _ h => (nomatch h), .nil⟩

theorem packed_singleton (ha : size [a] < limit) : Packed size limit [a] [[a]] :=
  ⟨rfl, List.forall_mem_singleton.mpr (List.cons_ne_nil a []), List.forall_mem_singleton.mpr ha,
    .singleton [a]⟩

/-- An item that would fill the last bin opens the next. -/
theorem Packed.next (h : Packed size limit items (closed ++ [current]))
    (hfull : limit ≤ size (current ++ [a])) (ha : size [a] < limit) :
    Packed size limit (items ++ [a]) (closed ++ [current] ++ [[a]]) := by
  refine ⟨?_, ?_, ?_, ?_⟩
  · rw [List.flatten_append, h.flatten, List.flatten_singleton]
  · exact List.forall_mem_append.mpr ⟨h.nonempty,
      List.forall_mem_singleton.mpr (List.cons_ne_nil a [])⟩
  · exact List.forall_mem_append.mpr ⟨h.fits, List.forall_mem_singleton.mpr ha⟩
  · refine List.isChain_append.mpr ⟨h.full, .singleton [a], fun bin hbin next hnext => ?_⟩
    rw [List.getLast?_concat] at hbin
    obtain rfl : current = bin := Option.some.inj hbin
    obtain rfl : [a] = next := Option.some.inj hnext
    intro first hfirst
    obtain rfl : a = first := Option.some.inj hfirst
    exact hfull

/-- An item that leaves the last bin below the limit goes there. -/
theorem Packed.add (h : Packed size limit items (closed ++ [current])) (hne : current ≠ [])
    (ha : size (current ++ [a]) < limit) :
    Packed size limit (items ++ [a]) (closed ++ [current ++ [a]]) := by
  obtain ⟨hnonempty, _⟩ := List.forall_mem_append.mp h.nonempty
  obtain ⟨hfits, _⟩ := List.forall_mem_append.mp h.fits
  obtain ⟨hclosed, _, hlast⟩ := List.isChain_append.mp h.full
  have hflatten := h.flatten
  refine ⟨?_, ?_, ?_, ?_⟩
  · rw [List.flatten_append, List.flatten_singleton] at hflatten ⊢
    rw [← hflatten, List.append_assoc]
  · exact List.forall_mem_append.mpr ⟨hnonempty,
      List.forall_mem_singleton.mpr (List.append_ne_nil_of_left_ne_nil hne [a])⟩
  · exact List.forall_mem_append.mpr ⟨hfits, List.forall_mem_singleton.mpr ha⟩
  · refine List.isChain_append.mpr ⟨hclosed, .singleton _, fun bin hbin next hnext => ?_⟩
    obtain rfl : current ++ [a] = next := Option.some.inj hnext
    intro first hfirst
    have hhead : first ∈ current.head? := by rwa [List.head?_append_of_ne_nil _ hne] at hfirst
    exact hlast bin hbin current rfl first hhead

/-! ## The bins in hand -/

/-- Bins that hold the items so far: none, or one in hand. -/
inductive InHand (size : List α → ℕ) (limit : ℕ) : List α → Bins α → Prop where
  | start : InHand size limit [] ⟨[], []⟩
  | bin {items : List α} {closed : List (List α)} {current : List α} (hne : current ≠ [])
      (h : Packed size limit items (closed ++ [current])) :
      InHand size limit items ⟨closed, current⟩

theorem InHand.finish {bins : Bins α} (h : InHand size limit items bins) :
    Packed size limit items (finish bins) := by
  unfold Packing.finish
  cases h with
  | start => exact packed_nil
  | bin hne h =>
    rw [if_pos hne]
    exact h

/-- An item fits where it is put when it fits alone. -/
theorem size_place_lt (hmono : ∀ xs a, size [a] ≤ size (xs ++ [a])) (bins : Bins α) (a : α) :
    size (place size limit bins a).current < limit ↔ size [a] < limit := by
  unfold place
  split_ifs with h
  · exact Iff.rfl
  · obtain hnil | hne := eq_or_ne bins.current []
    · rw [hnil]
      exact Iff.rfl
    · have hlt : size (bins.current ++ [a]) < limit := by
        by_contra hle
        exact h ⟨hne, not_lt.mp hle⟩
      exact ⟨fun _ => (hmono bins.current a).trans_lt hlt, fun _ => hlt⟩

/-- An item that fits is packed. -/
theorem InHand.place {bins : Bins α} (h : InHand size limit items bins) (ha : size [a] < limit) :
    InHand size limit (items ++ [a]) (place size limit bins a) := by
  cases h with
  | start => exact .bin (List.cons_ne_nil a []) (packed_singleton ha)
  | @bin items closed current hne h =>
    unfold Packing.place
    split_ifs with hnew
    · exact .bin (List.cons_ne_nil a []) (h.next hnew.2 ha)
    · have hlt : size (current ++ [a]) < limit := by
        by_contra hle
        exact hnew ⟨hne, not_lt.mp hle⟩
      exact .bin (List.append_ne_nil_of_left_ne_nil hne [a]) (h.add hne hlt)

/-- Items that fit are packed, one after another. -/
theorem InHand.foldl {bins : Bins α} (h : InHand size limit items bins) {later : List α}
    (hlater : ∀ a ∈ later, size [a] < limit) :
    InHand size limit (items ++ later) (later.foldl (Packing.place size limit) bins) := by
  induction later generalizing items bins with
  | nil =>
    rw [List.append_nil]
    exact h
  | cons a later ih =>
    obtain ⟨ha, hrest⟩ := List.forall_mem_cons.mp hlater
    have hnext := ih (h.place ha) hrest
    rwa [List.append_assoc] at hnext

end BuckosDistro.Lib.Packing
