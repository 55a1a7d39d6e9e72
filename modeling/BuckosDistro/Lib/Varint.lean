/-
  Variable-length integers: groups of seven bits, the least significant first, where every
  byte but the last has its high bit set. Nothing here names a format.
-/
import BuckosDistro.Lib.Reader

namespace BuckosDistro.Lib

/-- The groups of a number. -/
inductive Groups : List UInt8 → ℕ → Prop where
  | last {b : UInt8} (h : b.toNat < 128) : Groups [b] b.toNat
  | more {b : UInt8} {bs : List UInt8} {v : ℕ} (h : 128 ≤ b.toNat) (hs : Groups bs v) :
      Groups (b :: bs) (b.toNat % 128 + 128 * v)

/-- A number below 2^64 in at most ten bytes. -/
structure Varint (bytes : List UInt8) (value : ℕ) : Prop where
  groups : Groups bytes value
  short : bytes.length ≤ 10
  bounded : value < 2 ^ 64

theorem Groups.length_pos {bytes : List UInt8} {v : ℕ} (h : Groups bytes v) :
    0 < bytes.length := by
  cases h <;> exact Nat.succ_pos _

namespace Varint

/-! ## Bits -/

theorem and_low (n : ℕ) : n &&& 0x7F = n % 128 := Nat.and_two_pow_sub_one_eq_mod n 7

theorem and_high (b : UInt8) : b.toNat &&& 0x80 = 0 ↔ b.toNat < 128 := by
  have hall : ∀ n : Fin 256, (n : ℕ) &&& 0x80 = 0 ↔ (n : ℕ) < 128 := by
    decide +kernel
  exact hall ⟨b.toNat, b.toNat_lt⟩

theorem or_high {n : ℕ} (h : n < 128) : n ||| 0x80 = n + 128 := by
  have hor : 128 + n = 128 ||| n := Nat.two_pow_add_eq_or_of_lt (i := 7) h 1
  rw [Nat.or_comm, ← hor, Nat.add_comm]

theorem or_shiftLeft {value shift : ℕ} (h : value < 2 ^ shift) (n : ℕ) :
    value ||| (n <<< shift) = value + 2 ^ shift * n := by
  rw [Nat.or_comm, ← Nat.shiftLeft_add_eq_or_of_lt h, Nat.shiftLeft_eq, Nat.add_comm,
    Nat.mul_comm]

/-! ## Encoding -/

/-- The shortest groups of a number. -/
def encode (value : ℕ) : List UInt8 :=
  if 0x80 ≤ value then UInt8.ofNat ((value &&& 0x7F) ||| 0x80) :: encode (value >>> 7)
  else [UInt8.ofNat value]
termination_by value
decreasing_by
  rw [Nat.shiftRight_eq_div_pow]
  omega

theorem groups_encode (value : ℕ) : Groups (encode value) value := by
  induction value using Nat.strongRecOn with
  | ind value ih =>
    rw [encode]
    split_ifs with h
    · have hlow : (value &&& 0x7F) ||| 0x80 = value % 128 + 128 := by
        rw [and_low, or_high (Nat.mod_lt _ (by decide))]
      have hbyte : (UInt8.ofNat (value % 128 + 128)).toNat = value % 128 + 128 := by
        rw [UInt8.toNat_ofNat']
        omega
      have hshift : value >>> 7 = value / 128 := Nat.shiftRight_eq_div_pow value 7
      have hmore := Groups.more (b := UInt8.ofNat (value % 128 + 128)) (by omega)
        (ih (value / 128) (by omega))
      rw [hlow, hshift]
      rw [hbyte] at hmore
      have hvalue : (value % 128 + 128) % 128 + 128 * (value / 128) = value := by omega
      rwa [hvalue] at hmore
    · have hbyte : (UInt8.ofNat value).toNat = value := by
        rw [UInt8.toNat_ofNat']
        omega
      have hlast := Groups.last (b := UInt8.ofNat value) (by omega)
      rwa [hbyte] at hlast

theorem length_encode {value n : ℕ} (h : value < 128 ^ (n + 1)) :
    (encode value).length ≤ n + 1 := by
  induction n generalizing value with
  | zero =>
    rw [encode, if_neg (by omega)]
    exact le_rfl
  | succ n ih =>
    rw [encode]
    split_ifs with hlarge
    · have hshift : value >>> 7 = value / 128 := Nat.shiftRight_eq_div_pow value 7
      have hsmall : value / 128 < 128 ^ (n + 1) := by
        rw [pow_succ] at h
        exact Nat.div_lt_of_lt_mul (by rw [Nat.mul_comm]; exact h)
      rw [List.length_cons, hshift]
      have hle := ih hsmall
      omega
    · rw [List.length_singleton]
      omega

theorem varint_encode {value : ℕ} (h : value < 2 ^ 64) : Varint (encode value) value :=
  ⟨groups_encode value, length_encode (n := 9) (lt_of_lt_of_le h (by norm_num)), h⟩

end Varint

end BuckosDistro.Lib
