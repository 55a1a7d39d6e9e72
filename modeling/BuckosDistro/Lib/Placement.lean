/-
  Parts placed one behind another at aligned addresses. Nothing here names a format.
-/
import Mathlib

namespace BuckosDistro.Lib.Placement

/-! ## Alignment -/

/-- `(value + alignment - 1) & ~(alignment - 1)` -/
def alignUp (alignment value : ℕ) : ℕ := Nat.ldiff (value + alignment - 1) (alignment - 1)

/-- Taking off the low bits. -/
theorem ldiff_mask (n k : ℕ) : Nat.ldiff n (2 ^ k - 1) = 2 ^ k * (n / 2 ^ k) := by
  apply Nat.eq_of_testBit_eq
  intro i
  rw [Nat.testBit_ldiff, Nat.testBit_two_pow_sub_one, Nat.testBit_two_pow_mul,
    Nat.testBit_div_two_pow]
  by_cases hi : i < k
  · simp [hi]
  · have hle : k ≤ i := not_lt.mp hi
    simp [hi, hle]

theorem alignUp_eq (k value : ℕ) : alignUp (2 ^ k) value = 2 ^ k * (value ⌈/⌉ 2 ^ k) := by
  unfold alignUp
  rw [ldiff_mask, Nat.ceilDiv_eq_add_pred_div]

theorem dvd_alignUp (k value : ℕ) : 2 ^ k ∣ alignUp (2 ^ k) value :=
  ⟨_, alignUp_eq k value⟩

theorem le_alignUp (k value : ℕ) : value ≤ alignUp (2 ^ k) value := by
  rw [alignUp_eq]
  have hle := le_smul_ceilDiv (Nat.two_pow_pos k) (b := value)
  rwa [smul_eq_mul] at hle

/-- What is put at an aligned address takes whole units. -/
theorem alignUp_add {k address : ℕ} (h : 2 ^ k ∣ address) (size : ℕ) :
    alignUp (2 ^ k) (address + size) = address + 2 ^ k * (size ⌈/⌉ 2 ^ k) := by
  obtain ⟨q, rfl⟩ := h
  have hpos := Nat.two_pow_pos k
  rw [alignUp_eq, Nat.ceilDiv_eq_add_pred_div, Nat.ceilDiv_eq_add_pred_div]
  have hsum : 2 ^ k * q + size + 2 ^ k - 1 = size + 2 ^ k - 1 + 2 ^ k * q := by omega
  rw [hsum, Nat.add_mul_div_left _ _ hpos, Nat.mul_add, Nat.add_comm]

/-! ## Addresses -/

/-- Where parts of some sizes are, the first one at `address`. -/
def addresses (alignment : ℕ) : ℕ → List ℕ → List ℕ
  | _, [] => []
  | address, size :: sizes =>
    address :: addresses alignment (alignUp alignment (address + size)) sizes

theorem le_of_mem_addresses {k address a : ℕ} {sizes : List ℕ}
    (ha : a ∈ addresses (2 ^ k) address sizes) : address ≤ a := by
  induction sizes generalizing address with
  | nil => cases ha
  | cons size sizes ih =>
    obtain rfl | ha := List.mem_cons.mp ha
    · exact le_rfl
    · have hnext := ih ha
      have hup := le_alignUp k (address + size)
      omega

theorem dvd_of_mem_addresses {k address a : ℕ} {sizes : List ℕ} (h : 2 ^ k ∣ address)
    (ha : a ∈ addresses (2 ^ k) address sizes) : 2 ^ k ∣ a := by
  induction sizes generalizing address with
  | nil => cases ha
  | cons size sizes ih =>
    obtain rfl | ha := List.mem_cons.mp ha
    · exact h
    · exact ih (dvd_alignUp k _) ha

/-- A part ends before the next one starts. -/
theorem pairwise_addresses (k address : ℕ) (sizes : List ℕ) :
    ((addresses (2 ^ k) address sizes).zip sizes).Pairwise fun a b => a.1 + a.2 ≤ b.1 := by
  induction sizes generalizing address with
  | nil => exact .nil
  | cons size sizes ih =>
    refine List.pairwise_cons.mpr ⟨fun b hb => ?_, ih _⟩
    have hnext := le_of_mem_addresses (List.of_mem_zip hb).1
    have hup := le_alignUp k (address + size)
    omega

/-- Parts are at the same addresses when all but the last take as many units. -/
theorem addresses_eq_iff {k address : ℕ} (h : 2 ^ k ∣ address) {sizes sizes' : List ℕ}
    (hlength : sizes.length = sizes'.length) :
    addresses (2 ^ k) address sizes = addresses (2 ^ k) address sizes' ↔
      sizes.dropLast.map (· ⌈/⌉ 2 ^ k) = sizes'.dropLast.map (· ⌈/⌉ 2 ^ k) := by
  induction sizes generalizing address sizes' with
  | nil =>
    obtain rfl := List.eq_nil_of_length_eq_zero hlength.symm
    exact ⟨fun _ => rfl, fun _ => rfl⟩
  | cons size sizes ih =>
    cases sizes' with
    | nil => cases hlength
    | cons size' sizes' =>
      have hrest : sizes.length = sizes'.length := Nat.succ.inj hlength
      cases sizes with
      | nil =>
        obtain rfl := List.eq_nil_of_length_eq_zero hrest.symm
        exact ⟨fun _ => rfl, fun _ => rfl⟩
      | cons next sizes =>
        cases sizes' with
        | nil => cases hrest
        | cons next' sizes' =>
          have hunits : alignUp (2 ^ k) (address + size) = alignUp (2 ^ k) (address + size') ↔
              size ⌈/⌉ 2 ^ k = size' ⌈/⌉ 2 ^ k := by
            rw [alignUp_add h, alignUp_add h]
            constructor
            · intro he
              exact Nat.eq_of_mul_eq_mul_left (Nat.two_pow_pos k) (Nat.add_left_cancel he)
            · intro he
              rw [he]
          show address :: addresses _ (alignUp _ (address + size)) (next :: sizes) =
            address :: addresses _ (alignUp _ (address + size')) (next' :: sizes') ↔
              size ⌈/⌉ 2 ^ k :: (next :: sizes).dropLast.map (· ⌈/⌉ 2 ^ k) =
                size' ⌈/⌉ 2 ^ k :: (next' :: sizes').dropLast.map (· ⌈/⌉ 2 ^ k)
          rw [List.cons_inj_right, List.cons.injEq, ← hunits]
          constructor
          · intro he
            have hstart : alignUp (2 ^ k) (address + size) = alignUp (2 ^ k) (address + size') :=
              (List.cons.inj he).1
            rw [← hstart] at he
            exact ⟨hstart, (ih (dvd_alignUp k _) hrest).mp he⟩
          · intro ⟨hstart, hsizes⟩
            rw [← hstart]
            exact (ih (dvd_alignUp k _) hrest).mpr hsizes

end BuckosDistro.Lib.Placement
