/-
  The dm-verity hash tree of an image (`tools/_verity.py`).

  `hashlib` is a parameter: what is used of it is that a digest has the size its algorithm
  states. A file is the list of its bytes, and what a function writes to one is part of what
  it returns. An error is the text of the `ValueError`.

  The loop of `build_hash_tree` takes a fuel, one unit for each level; a run that needs more
  has no result (`none`).
-/
import BuckosDistro.Lib.Chunks
import BuckosDistro.Lib.PyText

namespace BuckosDistro.Verity

open BuckosDistro.Lib
open BuckosDistro.Lib.Chunks

abbrev Bytes := List UInt8

/-! ## Digests -/

/-- `ALGORITHMS` -/
def algorithms : List String := ["sha256", "sha512"]

/-- `hashlib.new(algorithm).digest_size` -/
def digestSize (algorithm : String) : ℕ := if algorithm = "sha512" then 64 else 32

/-- `hashlib.new(algorithm)`, fed with some bytes. -/
structure Hashlib where
  new : String → Bytes → Bytes
  length_new : ∀ algorithm ∈ algorithms, ∀ data,
    (new algorithm data).length = digestSize algorithm

/-- `_digest` -/
def digest (H : Hashlib) (algorithm : String) (salt block : Bytes) : Bytes :=
  H.new algorithm (salt ++ block)

/-! ## Parameters -/

/-- `_validate_block_size` -/
def validateBlockSize (value : ℕ) (name : String) : Except String Unit :=
  if value < 512 ∨ value > 65536 ∨ value &&& (value - 1) ≠ 0 then
    .error (name ++ " must be a power of two from 512 through 65536")
  else .ok ()

/-- `validate_parameters`: the digests a hash block holds. -/
def validateParameters (algorithm : String) (dataBlockSize hashBlockSize : ℕ) (salt : Bytes) :
    Except String ℕ :=
  if algorithm ∉ algorithms then
    .error ("unsupported dm-verity hash algorithm " ++ PyText.repr algorithm)
  else
    match validateBlockSize dataBlockSize "data block size",
      validateBlockSize hashBlockSize "hash block size" with
    | .error text, _ => .error text
    | .ok _, .error text => .error text
    | .ok _, .ok _ =>
      let hashesPerBlock := hashBlockSize / digestSize algorithm
      if hashesPerBlock = 0 ∨ hashesPerBlock &&& (hashesPerBlock - 1) ≠ 0 then
        .error "hash block size divided by digest size must be a power of two"
      else if salt = [] then .error "dm-verity salt must not be empty"
      else if salt.length > 256 then
        .error "dm-verity salt exceeds the kernel's 256-byte limit"
      else .ok hashesPerBlock

/-- Parameters that are accepted. -/
structure Parameters where
  algorithm : String
  dataBlockSize : ℕ
  hashBlockSize : ℕ
  salt : Bytes
  hashesPerBlock : ℕ
  accepted : validateParameters algorithm dataBlockSize hashBlockSize salt = .ok hashesPerBlock

/-! ## The image -/

/-- `_copy_and_measure`: the size, the digest of the content and the padded copy. -/
def copyAndMeasure (H : Hashlib) (source : Bytes) (dataBlockSize : ℕ) :
    Except String (ℕ × Bytes × Bytes) :=
  if source = [] then .error "dm-verity data image is empty"
  else
    let padding := (-(source.length : ℤ) % dataBlockSize).toNat
    .ok (source.length, H.new "sha256" source, source ++ List.replicate padding 0)

/-- An image padded to full blocks. -/
structure PaddedImage (blockSize : ℕ) where
  bytes : Bytes
  nonempty : bytes ≠ []
  padded : blockSize ∣ bytes.length

/-- `_hash_data` -/
def hashData (H : Hashlib) (image : Bytes) (algorithm : String) (salt : Bytes)
    (blockSize : ℕ) : Except String (List Bytes) :=
  (chunks blockSize image).mapM fun block =>
    if block.length ≠ blockSize then .error "padded dm-verity image ends in a partial block"
    else .ok (digest H algorithm salt block)

/-! ## The tree -/

/-- `block.ljust(size, b"\0")` -/
def ljust (block : Bytes) (size : ℕ) : Bytes := block ++ List.replicate (size - block.length) 0

/-- `_level` -/
def level (digests : List Bytes) (hashBlockSize hashesPerBlock : ℕ) : List Bytes :=
  (chunks hashesPerBlock digests).map fun group => ljust group.flatten hashBlockSize

/-- What is returned, and the file that is written. -/
structure HashTree where
  rootHash : Bytes
  dataBlocks : ℕ
  treeSize : ℕ
  file : Bytes
deriving DecidableEq

/-- The loop over the levels: all of them, the leaves first, and the root hash. -/
def climb (H : Hashlib) (algorithm : String) (salt : Bytes) (hashBlockSize hashesPerBlock : ℕ) :
    ℕ → List Bytes → Option (List (List Bytes) × Bytes)
  | 0, _ => none
  | fuel + 1, digests =>
    match level digests hashBlockSize hashesPerBlock with
    | [top] => some ([[top]], digest H algorithm salt top)
    | blocks =>
      (climb H algorithm salt hashBlockSize hashesPerBlock fuel
        (blocks.map (digest H algorithm salt))).map fun above => (blocks :: above.1, above.2)

/-- `build_hash_tree` -/
def buildHashTree (H : Hashlib) (fuel : ℕ) (image : Bytes) (algorithm : String) (salt : Bytes)
    (dataBlockSize hashBlockSize : ℕ) : Option (Except String HashTree) :=
  match validateParameters algorithm dataBlockSize hashBlockSize salt with
  | .error text => some (.error text)
  | .ok hashesPerBlock =>
    match hashData H image algorithm salt dataBlockSize with
    | .error text => some (.error text)
    | .ok [] => some (.error "dm-verity data image is empty")
    -- a one-block device has no tree
    | .ok [root] => some (.ok ⟨root, 1, 0, []⟩)
    | .ok digests =>
      (climb H algorithm salt hashBlockSize hashesPerBlock fuel digests).map fun result =>
        .ok
          { rootHash := result.2
            dataBlocks := digests.length
            treeSize := (result.1.map List.length).sum * hashBlockSize
            file := result.1.reverse.flatten.flatten }

/-! ## What is accepted -/

theorem exists_pow_of_validate {value : ℕ} {name : String}
    (h : validateBlockSize value name = .ok ()) : ∃ k, 9 ≤ k ∧ value = 2 ^ k := by
  unfold validateBlockSize at h
  split_ifs at h with hbad
  rw [not_or, not_or, not_not] at hbad
  obtain ⟨hlow, _, hand⟩ := hbad
  obtain ⟨k, hk⟩ := (Nat.and_sub_one_eq_zero_iff_isPowerOfTwo (by omega)).mp hand
  refine ⟨k, ?_, hk⟩
  by_contra hlt
  have : 2 ^ k ≤ 2 ^ 8 := Nat.pow_le_pow_right (by decide) (by omega)
  omega

theorem digestSize_eq (algorithm : String) :
    ∃ k, 5 ≤ k ∧ k ≤ 6 ∧ digestSize algorithm = 2 ^ k := by
  unfold digestSize
  split_ifs
  · exact ⟨6, by decide, by decide, rfl⟩
  · exact ⟨5, by decide, by decide, rfl⟩

namespace Parameters

variable (p : Parameters)

/-- What the checks leave. -/
theorem checked : p.algorithm ∈ algorithms ∧ (∃ k, 9 ≤ k ∧ p.dataBlockSize = 2 ^ k) ∧
    (∃ k, 9 ≤ k ∧ p.hashBlockSize = 2 ^ k) ∧
    p.hashesPerBlock = p.hashBlockSize / digestSize p.algorithm := by
  have h := p.accepted
  unfold validateParameters at h
  by_cases halg : p.algorithm ∉ algorithms
  · rw [if_pos halg] at h
    cases h
  · rw [if_neg halg] at h
    cases hdata : validateBlockSize p.dataBlockSize "data block size" with
    | error text =>
      rw [hdata] at h
      cases h
    | ok =>
      cases hhash : validateBlockSize p.hashBlockSize "hash block size" with
      | error text =>
        rw [hdata, hhash] at h
        cases h
      | ok =>
        rw [hdata, hhash] at h
        dsimp only at h
        split_ifs at h
        exact ⟨not_not.mp halg, exists_pow_of_validate hdata, exists_pow_of_validate hhash,
          (Except.ok.inj h).symm⟩

theorem dataBlockSize_pos : 0 < p.dataBlockSize := by
  obtain ⟨_, ⟨k, _, hk⟩, _⟩ := p.checked
  rw [hk]
  exact Nat.two_pow_pos k

/-- The digests fill a hash block. -/
theorem hashBlockSize_eq : p.hashesPerBlock * digestSize p.algorithm = p.hashBlockSize := by
  obtain ⟨_, _, ⟨k, hk, hsize⟩, hper⟩ := p.checked
  obtain ⟨m, _, hm, hdigest⟩ := digestSize_eq p.algorithm
  rw [hper, hsize, hdigest]
  exact Nat.div_mul_cancel (Nat.pow_dvd_pow 2 (by omega))

/-- A hash block holds at least two digests. -/
theorem one_lt_hashesPerBlock : 1 < p.hashesPerBlock := by
  obtain ⟨_, _, ⟨k, hk, hsize⟩, _⟩ := p.checked
  obtain ⟨m, _, hm, hdigest⟩ := digestSize_eq p.algorithm
  have heq := p.hashBlockSize_eq
  rw [hsize, hdigest] at heq
  by_contra hle
  have hlt : 2 ^ m < 2 ^ k := Nat.pow_lt_pow_right (by decide) (by omega)
  have : p.hashesPerBlock * 2 ^ m ≤ 1 * 2 ^ m := Nat.mul_le_mul_right _ (Nat.not_lt.mp hle)
  omega

theorem digestSize_pos : 0 < digestSize p.algorithm := by
  obtain ⟨m, _, _, hdigest⟩ := digestSize_eq p.algorithm
  rw [hdigest]
  exact Nat.two_pow_pos m

theorem length_digest (H : Hashlib) (block : Bytes) :
    (digest H p.algorithm p.salt block).length = digestSize p.algorithm :=
  H.length_new _ p.checked.1 _

end Parameters

/-- The copy that is hashed is padded to full blocks. -/
theorem padded_copy (p : Parameters) {H : Hashlib} {source content copy : Bytes} {size : ℕ}
    (h : copyAndMeasure H source p.dataBlockSize = .ok (size, content, copy)) :
    ∃ image : PaddedImage p.dataBlockSize, image.bytes = copy := by
  unfold copyAndMeasure at h
  split_ifs at h with hempty
  cases h
  refine ⟨⟨_, List.append_ne_nil_of_left_ne_nil hempty _, ?_⟩, rfl⟩
  have hpos := p.dataBlockSize_pos
  have hnonneg : 0 ≤ -(source.length : ℤ) % p.dataBlockSize := Int.emod_nonneg _ (by omega)
  have hdvd : (p.dataBlockSize : ℤ) ∣ source.length + -(source.length : ℤ) % p.dataBlockSize := by
    have := Int.mul_ediv_add_emod (-(source.length : ℤ)) p.dataBlockSize
    exact ⟨-(-(source.length : ℤ) / p.dataBlockSize), by rw [mul_neg]; omega⟩
  rw [List.length_append, List.length_replicate, ← Int.natCast_dvd_natCast]
  push_cast
  rwa [Int.toNat_of_nonneg hnonneg]

end BuckosDistro.Verity
