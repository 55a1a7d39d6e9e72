/-
  The format of the hash tree: where its blocks stand and what they hold.

  Layer 0 are the data blocks, layer `i + 1` the hash blocks of level `i`. A layer has one
  block for every `hashesPerBlock` blocks of the one below it, the top layer has one, and the
  layers above the data stand in the file from the top down (`Layout`).
-/
import BuckosDistro.Lib.Lists
import BuckosDistro.Verity.HashTree

namespace BuckosDistro.Verity

open BuckosDistro.Lib
open BuckosDistro.Lib.Chunks

/-! ## The format -/

section Format

variable (p : Parameters) (image : PaddedImage p.dataBlockSize)

/-- The blocks of a layer over `n` data blocks. -/
def layerSize (n i : ℕ) : ℕ := n ⌈/⌉ p.hashesPerBlock ^ i

/-- The data blocks of an image. -/
def blockCount : ℕ := image.bytes.length ⌈/⌉ p.dataBlockSize

/-- The layers above the data. -/
def height : ℕ := Nat.clog p.hashesPerBlock (blockCount p image)

/-- The blocks of the file that stand before those of layer `i + 1`. -/
def blocksBefore (n h i : ℕ) : ℕ := ∑ j ∈ Finset.Ico (i + 1) h, layerSize p n (j + 1)

/-- Block number `k` of a layer. -/
def node (file : Bytes) : ℕ → ℕ → Bytes
  | 0, k => slice p.dataBlockSize k image.bytes
  | i + 1, k =>
    slice p.hashBlockSize (blocksBefore p (blockCount p image) (height p image) i + k) file

/-- Digest number `s` of a hash block. -/
def slot (block : Bytes) (s : ℕ) : Bytes := slice (digestSize p.algorithm) s block

/-- A tree that has the format. -/
structure Layout (H : Hashlib) (r : HashTree) : Prop where
  dataBlocks : r.dataBlocks = blockCount p image
  /-- The returned size is the length of the file. -/
  treeSize : r.treeSize = r.file.length
  /-- The file holds the layers above the data and nothing else. -/
  length : r.file.length =
    (∑ i ∈ Finset.range (height p image), layerSize p (blockCount p image) (i + 1)) *
      p.hashBlockSize
  /-- The top layer is the first with one block. -/
  top : ∀ i, layerSize p (blockCount p image) i = 1 ↔ height p image ≤ i
  /-- Slots fill a hash block without gaps. -/
  packed : p.hashesPerBlock * digestSize p.algorithm = p.hashBlockSize
  /-- The digest of a block is in its slot of the block above it. -/
  slots : ∀ i < height p image, ∀ d < blockCount p image,
    slot p (node p image r.file (i + 1) (d / p.hashesPerBlock ^ (i + 1)))
        (d / p.hashesPerBlock ^ i % p.hashesPerBlock) =
      H.new p.algorithm (p.salt ++ node p image r.file i (d / p.hashesPerBlock ^ i))
  /-- The slots after the last block of a layer are zero. -/
  padding : ∀ i < height p image, ∀ k < layerSize p (blockCount p image) (i + 1),
    ∀ s < p.hashesPerBlock,
      layerSize p (blockCount p image) i ≤ k * p.hashesPerBlock + s →
        slot p (node p image r.file (i + 1) k) s = List.replicate (digestSize p.algorithm) 0
  /-- The root hash is the digest of the top block. -/
  root : r.rootHash =
    H.new p.algorithm (p.salt ++ node p image r.file (height p image) 0)
  /-- One data block has no tree: it is the top block. -/
  single : blockCount p image = 1 →
    r.file = [] ∧ r.rootHash = H.new p.algorithm (p.salt ++ image.bytes)

end Format

/-! ## One level -/

section Level

variable (p : Parameters)

/-- The blocks above some digests. -/
abbrev Parameters.above (digests : List Bytes) : List Bytes :=
  level digests p.hashBlockSize p.hashesPerBlock

@[simp] theorem length_above (digests : List Bytes) :
    (p.above digests).length = digests.length ⌈/⌉ p.hashesPerBlock := by
  unfold Parameters.above level
  rw [List.length_map, length_chunks]

variable {p} {digests : List Bytes}
  (hsize : ∀ d ∈ digests, d.length = digestSize p.algorithm)

include hsize

theorem length_slice_digest (k : ℕ) :
    ∀ d ∈ slice p.hashesPerBlock k digests, d.length = digestSize p.algorithm :=
  fun d hd => hsize d ((List.take_sublist _ _).trans (List.drop_sublist _ _) |>.mem hd)

omit hsize in
theorem length_slice_le (k : ℕ) :
    (slice p.hashesPerBlock k digests).length ≤ p.hashesPerBlock := by
  rw [length_slice]
  exact min_le_left _ _

/-- The slots of a hash block: its digests, then zeros. -/
def slots (p : Parameters) (group : List Bytes) : List Bytes :=
  group ++ List.replicate (p.hashesPerBlock - group.length)
    (List.replicate (digestSize p.algorithm) 0)

omit hsize in
theorem length_mem_slots {group : List Bytes}
    (hgroup : ∀ d ∈ group, d.length = digestSize p.algorithm) :
    ∀ d ∈ slots p group, d.length = digestSize p.algorithm := by
  intro d hd
  rcases List.mem_append.mp hd with hd | hd
  · exact hgroup d hd
  · rw [List.eq_of_mem_replicate hd, List.length_replicate]

omit hsize in
/-- A hash block is its slots put together. -/
theorem ljust_flatten {group : List Bytes}
    (hgroup : ∀ d ∈ group, d.length = digestSize p.algorithm) :
    ljust group.flatten p.hashBlockSize = (slots p group).flatten := by
  unfold ljust slots
  rw [List.flatten_append, List.flatten_replicate_replicate, length_flatten hgroup,
    ← p.hashBlockSize_eq, Nat.sub_mul]

/-- The hash blocks, each as its slots. -/
theorem above_eq : p.above digests =
    (chunks p.hashesPerBlock digests).map fun group => (slots p group).flatten := by
  refine List.map_congr_left fun group hgroup => ?_
  obtain ⟨k, _, rfl⟩ := mem_chunks.mp hgroup
  exact ljust_flatten (length_slice_digest hsize k)

/-- Every hash block is full. -/
theorem length_mem_above : ∀ block ∈ p.above digests, block.length = p.hashBlockSize := by
  intro block hblock
  rw [above_eq hsize] at hblock
  obtain ⟨group, hgroup, rfl⟩ := List.mem_map.mp hblock
  obtain ⟨k, _, rfl⟩ := mem_chunks.mp hgroup
  have hle : (slice p.hashesPerBlock k digests).length ≤ p.hashesPerBlock := length_slice_le k
  rw [length_flatten (length_mem_slots (length_slice_digest hsize k)), ← p.hashBlockSize_eq]
  congr 1
  unfold slots
  rw [List.length_append, List.length_replicate]
  omega

/-- A slot of a hash block: a digest, or zeros after the last one. -/
theorem slot_above {k s : ℕ} {block : Bytes} (hblock : (p.above digests)[k]? = some block)
    (hs : s < p.hashesPerBlock) :
    (∀ d, digests[k * p.hashesPerBlock + s]? = some d → slot p block s = d) ∧
      (digests.length ≤ k * p.hashesPerBlock + s →
        slot p block s = List.replicate (digestSize p.algorithm) 0) := by
  obtain ⟨hk, _⟩ := List.getElem?_eq_some_iff.mp hblock
  rw [length_above] at hk
  rw [above_eq hsize, List.getElem?_map, getElem?_chunks _ hk] at hblock
  have hall := length_mem_slots (length_slice_digest hsize k)
  rw [← Option.some.inj hblock]
  constructor
  · intro d hd
    rw [← getElem?_slice digests k hs] at hd
    refine slice_flatten hall ?_
    unfold slots
    rw [List.getElem?_append_left (List.getElem?_eq_some_iff.mp hd).1, hd]
  · intro hend
    have hlen : (slice p.hashesPerBlock k digests).length ≤ s := by
      rw [length_slice]
      omega
    refine slice_flatten hall ?_
    unfold slots
    rw [List.getElem?_append_right hlen, List.getElem?_replicate, if_pos (by omega)]

end Level

/-! ## All levels -/

section Levels

variable (H : Hashlib) (p : Parameters)

/-- The digests of the blocks of a layer, `digests` being those of layer 0. -/
def digestsAt (digests : List Bytes) : ℕ → List Bytes
  | 0 => digests
  | i + 1 => (p.above (digestsAt digests i)).map (digest H p.algorithm p.salt)

variable {H p} {digests : List Bytes}

/-- The layers over the next level are the layers over this one, shifted. -/
theorem digestsAt_succ (i : ℕ) :
    digestsAt H p ((p.above digests).map (digest H p.algorithm p.salt)) i =
      digestsAt H p digests (i + 1) := by
  induction i with
  | zero => rfl
  | succ i ih =>
    rw [digestsAt, ih]
    rfl

theorem length_digestsAt (i : ℕ) :
    (digestsAt H p digests i).length = layerSize p digests.length i := by
  have hpos : 0 < p.hashesPerBlock := Nat.lt_of_succ_lt p.one_lt_hashesPerBlock
  unfold layerSize
  induction i with
  | zero => rw [digestsAt, Nat.pow_zero, ceilDiv_one]
  | succ i ih =>
    rw [digestsAt, List.length_map, length_above, ih,
      ceilDiv_ceilDiv (Nat.pow_pos hpos) hpos, Nat.pow_succ]

theorem length_mem_digestsAt (hsize : ∀ d ∈ digests, d.length = digestSize p.algorithm) (i : ℕ) :
    ∀ d ∈ digestsAt H p digests i, d.length = digestSize p.algorithm := by
  cases i with
  | zero => exact hsize
  | succ i =>
    intro d hd
    obtain ⟨block, _, rfl⟩ := List.mem_map.mp hd
    exact p.length_digest H block

theorem clog_above (h : 1 < digests.length) :
    Nat.clog p.hashesPerBlock digests.length =
      Nat.clog p.hashesPerBlock (p.above digests).length + 1 := by
  rw [length_above]
  exact Nat.clog_of_one_lt p.one_lt_hashesPerBlock h

/-- The loop takes one unit of fuel for each level, and returns the levels and the digest of
    the top block. -/
theorem climb_eq {fuel : ℕ} (h : 1 < digests.length)
    (hfuel : Nat.clog p.hashesPerBlock digests.length ≤ fuel) :
    ∃ root, digestsAt H p digests (Nat.clog p.hashesPerBlock digests.length) = [root] ∧
      climb H p.algorithm p.salt p.hashBlockSize p.hashesPerBlock fuel digests =
        some ((List.range (Nat.clog p.hashesPerBlock digests.length)).map
          fun i => p.above (digestsAt H p digests i), root) := by
  induction fuel generalizing digests with
  | zero =>
    have := Nat.clog_pos p.one_lt_hashesPerBlock h
    omega
  | succ fuel ih =>
    have hclog := clog_above (p := p) h
    rw [hclog] at hfuel ⊢
    by_cases htop : (p.above digests).length = 1
    · obtain ⟨top, htop⟩ := List.length_eq_one_iff.mp htop
      refine ⟨digest H p.algorithm p.salt top, ?_, ?_⟩
      · rw [htop, List.length_singleton, Nat.clog_one_right, digestsAt, digestsAt, htop]
        rfl
      · rw [climb, htop]
        simp [htop, digestsAt]
    · have hpos : 0 < p.hashesPerBlock := Nat.lt_of_succ_lt p.one_lt_hashesPerBlock
      have hone : 1 < (p.above digests).length := by
        have hlt : 0 / p.hashesPerBlock < (p.above digests).length := by
          rw [length_above]
          exact div_lt_ceilDiv hpos (Nat.lt_of_succ_lt h)
        rw [Nat.zero_div] at hlt
        omega
      obtain ⟨root, hroot, hclimb⟩ :=
        @ih ((p.above digests).map (digest H p.algorithm p.salt))
          (by rw [List.length_map]; exact hone) (by rw [List.length_map]; omega)
      rw [List.length_map] at hroot hclimb
      rw [digestsAt_succ] at hroot
      refine ⟨root, hroot, ?_⟩
      have hloop : climb H p.algorithm p.salt p.hashBlockSize p.hashesPerBlock (fuel + 1) digests =
          (climb H p.algorithm p.salt p.hashBlockSize p.hashesPerBlock fuel
            ((p.above digests).map (digest H p.algorithm p.salt))).map
              fun above => (p.above digests :: above.1, above.2) := by
        rw [climb]
        split
        · rename_i top heq
          have heq' : p.above digests = [top] := heq
          rw [heq'] at hone
          exact absurd hone (Nat.lt_irrefl 1)
        · rfl
      rw [hloop, hclimb, List.range_succ_eq_map, List.map_cons, List.map_map, Option.map_some]
      congr 3
      refine List.map_congr_left fun i _ => ?_
      show p.above (digestsAt H p _ i) = p.above (digestsAt H p digests (i + 1))
      rw [digestsAt_succ]

/-- The file of `h` levels: level `i` stands after those above it. -/
theorem getElem?_levels (f : ℕ → List Bytes) (h : ℕ) {i k : ℕ} (hi : i < h)
    (hk : k < (f i).length) :
    ((List.range h).map f).reverse.flatten[(∑ j ∈ Finset.Ico (i + 1) h, (f j).length) + k]? =
      (f i)[k]? := by
  induction h with
  | zero => exact absurd hi (Nat.not_lt_zero i)
  | succ h ih =>
    rw [List.range_succ, List.map_append, List.reverse_append, List.map_singleton,
      List.reverse_singleton, List.flatten_append, List.flatten_singleton]
    rcases Nat.lt_or_eq_of_le (Nat.le_of_lt_succ hi) with hlt | rfl
    · rw [Finset.sum_Ico_succ_top (by omega), List.getElem?_append_right (by omega), ← ih hlt]
      congr 1
      omega
    · rw [Finset.Ico_self, Finset.sum_empty, Nat.zero_add, List.getElem?_append_left hk]

theorem length_levels (f : ℕ → List Bytes) (h : ℕ) :
    ((List.range h).map f).reverse.flatten.length = ∑ j ∈ Finset.range h, (f j).length := by
  rw [List.length_flatten, List.map_reverse, List.sum_reverse, List.map_map]
  rfl

end Levels

/-! ## The tree of an image -/

section Tree

variable (H : Hashlib) (p : Parameters) (image : PaddedImage p.dataBlockSize)

/-- The digests of the data blocks. -/
def dataDigests : List Bytes :=
  (chunks p.dataBlockSize image.bytes).map (digest H p.algorithm p.salt)

/-- The hash blocks of level `i`. -/
def levelAt (i : ℕ) : List Bytes := p.above (digestsAt H p (dataDigests H p image) i)

theorem length_dataDigests : (dataDigests H p image).length = blockCount p image := by
  unfold dataDigests
  rw [List.length_map, length_chunks]
  rfl

theorem blockCount_pos : 0 < blockCount p image := by
  have hlt : 0 / p.dataBlockSize < blockCount p image :=
    div_lt_ceilDiv p.dataBlockSize_pos (List.length_pos_of_ne_nil image.nonempty)
  rwa [Nat.zero_div] at hlt

theorem length_mem_dataDigests :
    ∀ d ∈ dataDigests H p image, d.length = digestSize p.algorithm := by
  intro d hd
  obtain ⟨block, _, rfl⟩ := List.mem_map.mp hd
  exact p.length_digest H block

theorem length_mem_levelAt (i : ℕ) :
    ∀ block ∈ levelAt H p image i, block.length = p.hashBlockSize :=
  length_mem_above (length_mem_digestsAt (length_mem_dataDigests H p image) i)

theorem length_levelAt (i : ℕ) :
    (levelAt H p image i).length = layerSize p (blockCount p image) (i + 1) := by
  rw [← length_dataDigests H, ← @length_digestsAt H p, digestsAt, List.length_map]
  rfl

/-- Every block of a padded image is read in full. -/
theorem hashData_eq : hashData H image.bytes p.algorithm p.salt p.dataBlockSize =
    .ok (dataDigests H p image) := by
  refine Lists.mapM_ok_of_forall fun block hblock => ?_
  obtain ⟨k, hk, rfl⟩ := mem_chunks.mp hblock
  exact if_neg (not_not.mpr (length_slice_of_dvd image.padded hk))

/-- The tree that is written. -/
def treeOf (root : Bytes) : HashTree where
  rootHash := root
  dataBlocks := blockCount p image
  treeSize := (((List.range (height p image)).map (levelAt H p image)).map List.length).sum *
    p.hashBlockSize
  file := ((List.range (height p image)).map (levelAt H p image)).reverse.flatten.flatten

/-- With fuel for every level the run ends, and the root hash is the one digest of the top
    layer. -/
theorem build_eq : ∃ root,
    digestsAt H p (dataDigests H p image) (height p image) = [root] ∧
      ∀ fuel, height p image ≤ fuel →
        buildHashTree H fuel image.bytes p.algorithm p.salt p.dataBlockSize p.hashBlockSize =
          some (.ok (treeOf H p image root)) := by
  have hcount := blockCount_pos p image
  have hlen := length_dataDigests H p image
  by_cases hone : blockCount p image = 1
  · obtain ⟨root, hroot⟩ := List.length_eq_one_iff.mp (hlen.trans hone)
    have hheight : height p image = 0 := by
      unfold height
      rw [hone, Nat.clog_one_right]
    refine ⟨root, by rw [hheight, digestsAt, hroot], fun fuel _ => ?_⟩
    unfold buildHashTree treeOf
    rw [p.accepted, hashData_eq, hroot, hheight, hone]
    simp
  · obtain ⟨root, hroot, _⟩ := @climb_eq H p (dataDigests H p image) _
      (by rw [hlen]; omega) (Nat.le_refl _)
    rw [hlen] at hroot
    refine ⟨root, hroot, fun fuel hfuel => ?_⟩
    obtain ⟨root', hroot', hclimb⟩ := @climb_eq H p (dataDigests H p image) fuel
      (by rw [hlen]; omega) (by rw [hlen]; exact hfuel)
    rw [hlen] at hroot' hclimb
    obtain rfl := List.singleton_inj.mp (hroot.symm.trans hroot')
    obtain ⟨first, second, rest, hdata⟩ : ∃ first second rest,
        dataDigests H p image = first :: second :: rest := by
      rcases hd : dataDigests H p image with _ | ⟨first, _ | ⟨second, rest⟩⟩
      · rw [hd, List.length_nil] at hlen
        omega
      · rw [hd, List.length_singleton] at hlen
        omega
      · exact ⟨first, second, rest, rfl⟩
    unfold buildHashTree
    rw [p.accepted, hashData_eq, hdata]
    dsimp only
    rw [← hdata, hclimb, hlen]
    rfl

/-! ## The format is met -/

theorem blocksBefore_eq (i : ℕ) :
    blocksBefore p (blockCount p image) (height p image) i =
      ∑ j ∈ Finset.Ico (i + 1) (height p image), (levelAt H p image j).length := by
  unfold blocksBefore
  exact Finset.sum_congr rfl fun j _ => (length_levelAt H p image j).symm

variable {H p image}

theorem length_mem_file : ∀ block ∈
    ((List.range (height p image)).map (levelAt H p image)).reverse.flatten,
      block.length = p.hashBlockSize := by
  intro block hblock
  obtain ⟨blocks, hblocks, hmem⟩ := List.mem_flatten.mp hblock
  obtain ⟨i, _, rfl⟩ := List.mem_map.mp (List.mem_reverse.mp hblocks)
  exact length_mem_levelAt H p image i block hmem

theorem length_file (root : Bytes) : (treeOf H p image root).file.length =
    (∑ i ∈ Finset.range (height p image), (levelAt H p image i).length) * p.hashBlockSize := by
  show List.length (List.flatten _) = _
  rw [length_flatten length_mem_file, length_levels]

/-- The blocks of the file are those of the levels. -/
theorem node_succ {root : Bytes} {i k : ℕ} (hi : i < height p image)
    {block : Bytes} (hblock : (levelAt H p image i)[k]? = some block) :
    node p image (treeOf H p image root).file (i + 1) k = block := by
  have hk := (List.getElem?_eq_some_iff.mp hblock).1
  refine slice_flatten length_mem_file ?_
  rw [blocksBefore_eq H, getElem?_levels _ _ hi hk, hblock]

/-- A digest of a layer is that of the block it stands for. -/
theorem digest_node {root : Bytes} {i m : ℕ} (hi : i ≤ height p image)
    (hm : m < layerSize p (blockCount p image) i) :
    (digestsAt H p (dataDigests H p image) i)[m]? =
      some (digest H p.algorithm p.salt (node p image (treeOf H p image root).file i m)) := by
  cases i with
  | zero =>
    have hm' : m < image.bytes.length ⌈/⌉ p.dataBlockSize := by
      unfold layerSize at hm
      rwa [Nat.pow_zero, ceilDiv_one] at hm
    show (dataDigests H p image)[m]? = _
    unfold dataDigests
    rw [List.getElem?_map, getElem?_chunks _ hm']
    rfl
  | succ i =>
    have hk : m < (levelAt H p image i).length := by
      rw [length_levelAt]
      exact hm
    rw [digestsAt, List.getElem?_map]
    have hblock := List.getElem?_eq_getElem hk
    rw [node_succ hi hblock]
    show Option.map _ (levelAt H p image i)[m]? = _
    rw [hblock]
    rfl

theorem layout_treeOf {root : Bytes}
    (hroot : digestsAt H p (dataDigests H p image) (height p image) = [root]) :
    Layout p image H (treeOf H p image root) := by
  have hper := p.one_lt_hashesPerBlock
  have hpos : 0 < p.hashesPerBlock := Nat.lt_of_succ_lt hper
  have hsize := length_mem_dataDigests H p image
  have hn := blockCount_pos p image
  have hfile : (treeOf H p image root).file.length =
      (∑ i ∈ Finset.range (height p image), layerSize p (blockCount p image) (i + 1)) *
        p.hashBlockSize := by
    rw [length_file]
    congr 1
    exact Finset.sum_congr rfl fun i _ => length_levelAt H p image i
  have htop : ∀ i, layerSize p (blockCount p image) i = 1 ↔ height p image ≤ i := by
    intro i
    have hone : layerSize p (blockCount p image) i ≤ 1 ↔ height p image ≤ i := by
      unfold layerSize height
      rw [ceilDiv_le_iff_le_mul (Nat.pow_pos hpos), Nat.mul_one, Nat.clog_le_iff_le_pow hper]
    have hge : 0 / p.hashesPerBlock ^ i < layerSize p (blockCount p image) i :=
      div_lt_ceilDiv (Nat.pow_pos hpos) hn
    rw [Nat.zero_div] at hge
    omega
  refine ⟨rfl, ?_, hfile, htop, p.hashBlockSize_eq, ?_, ?_, ?_, ?_⟩
  · rw [length_file]
    show (((List.range (height p image)).map (levelAt H p image)).map List.length).sum * _ = _
    rw [List.map_map]
    rfl
  · intro i hi d hd
    have hk : d / p.hashesPerBlock ^ (i + 1) < (levelAt H p image i).length := by
      rw [length_levelAt]
      exact div_lt_ceilDiv (Nat.pow_pos hpos) hd
    have hblock := List.getElem?_eq_getElem hk
    rw [node_succ hi hblock]
    refine (slot_above (length_mem_digestsAt hsize i) hblock (Nat.mod_lt _ hpos)).1 _ ?_
    have hindex : d / p.hashesPerBlock ^ (i + 1) * p.hashesPerBlock +
        d / p.hashesPerBlock ^ i % p.hashesPerBlock = d / p.hashesPerBlock ^ i := by
      rw [Nat.pow_succ, ← Nat.div_div_eq_div_mul, Nat.mul_comm]
      exact Nat.div_add_mod _ _
    rw [hindex]
    exact digest_node (Nat.le_of_lt hi) (div_lt_ceilDiv (Nat.pow_pos hpos) hd)
  · intro i hi k hk s hs hend
    rw [← length_levelAt H] at hk
    have hblock := List.getElem?_eq_getElem hk
    rw [node_succ hi hblock]
    refine (slot_above (length_mem_digestsAt hsize i) hblock hs).2 ?_
    rwa [length_digestsAt, length_dataDigests]
  · have htopSize := (htop (height p image)).mpr (Nat.le_refl _)
    have hdigest := @digest_node H p image root _ 0 (Nat.le_refl _) (by rw [htopSize]; decide)
    rw [hroot] at hdigest
    exact Option.some.inj hdigest
  · intro hone
    have hheight : height p image = 0 := by
      unfold height
      rw [hone, Nat.clog_one_right]
    have hshort : image.bytes.length ≤ p.dataBlockSize := by
      have := (ceilDiv_le_iff_le_mul p.dataBlockSize_pos).mp (Nat.le_of_eq hone)
      rwa [Nat.mul_one] at this
    refine ⟨?_, ?_⟩
    · unfold treeOf
      rw [hheight]
      rfl
    · rw [hheight, digestsAt] at hroot
      show root = _
      have hmap : dataDigests H p image = [digest H p.algorithm p.salt image.bytes] := by
        unfold dataDigests chunks
        rw [show image.bytes.length ⌈/⌉ p.dataBlockSize = 1 from hone]
        show [digest H p.algorithm p.salt (slice p.dataBlockSize 0 image.bytes)] = _
        unfold slice
        rw [Nat.zero_mul, List.drop_zero, List.take_of_length_le hshort]
      rw [hmap] at hroot
      exact (List.singleton_inj.mp hroot).symm

end Tree

/-- **The tree has the format**: with fuel for every level the run ends, and what it returns
    and writes is the tree of the format. -/
theorem build_hash_tree_layout (H : Hashlib) (p : Parameters)
    (image : PaddedImage p.dataBlockSize) :
    ∃ r, (∀ fuel, height p image ≤ fuel →
        buildHashTree H fuel image.bytes p.algorithm p.salt p.dataBlockSize p.hashBlockSize =
          some (.ok r)) ∧ Layout p image H r := by
  obtain ⟨root, hroot, hbuild⟩ := build_eq H p image
  exact ⟨treeOf H p image root, hbuild, layout_treeOf hroot⟩

end BuckosDistro.Verity
