/-
  The root hash binds the image: two images of one size with one root hash are one image.

  The proof goes down the layers. Blocks of a layer with equal digests are equal, and a block
  holds the digests of the blocks below it.
-/
import BuckosDistro.Verity.Layout

namespace BuckosDistro.Verity

open BuckosDistro.Lib.Chunks

section Returns

variable (H : Hashlib) (p : Parameters) (image : PaddedImage p.dataBlockSize)

/-- The run ends, and returns and writes this. -/
def Returns (r : HashTree) : Prop :=
  ∃ fuel, buildHashTree H fuel image.bytes p.algorithm p.salt p.dataBlockSize p.hashBlockSize =
    some (.ok r)

/-- What a run digests: the salt with a data block, or with a hash block. -/
def digested (r : HashTree) : Set Bytes :=
  {input | ∃ block, (block ∈ chunks p.dataBlockSize image.bytes ∨
    block ∈ chunks p.hashBlockSize r.file) ∧ input = p.salt ++ block}

variable {H p image}

/-- More fuel does not change a result. -/
theorem climb_mono {algorithm : String} {salt : Bytes} {hashBlockSize hashesPerBlock fuel : ℕ}
    {digests : List Bytes} {result : List (List Bytes) × Bytes}
    (h : climb H algorithm salt hashBlockSize hashesPerBlock fuel digests = some result)
    {fuel' : ℕ} (hle : fuel ≤ fuel') :
    climb H algorithm salt hashBlockSize hashesPerBlock fuel' digests = some result := by
  induction fuel generalizing fuel' digests result with
  | zero => cases h
  | succ fuel ih =>
    obtain ⟨more, rfl⟩ := Nat.exists_eq_succ_of_ne_zero (n := fuel') (by omega)
    rw [climb] at h ⊢
    split at h
    · exact h
    · obtain ⟨above, habove, rfl⟩ := Option.map_eq_some_iff.mp h
      rw [ih habove (Nat.le_of_succ_le_succ hle), Option.map_some]

theorem buildHashTree_mono {algorithm : String} {bytes salt : Bytes}
    {dataBlockSize hashBlockSize fuel fuel' : ℕ} {result : Except String HashTree}
    (h : buildHashTree H fuel bytes algorithm salt dataBlockSize hashBlockSize = some result)
    (hle : fuel ≤ fuel') :
    buildHashTree H fuel' bytes algorithm salt dataBlockSize hashBlockSize = some result := by
  unfold buildHashTree at h ⊢
  split at h
  · exact h
  · split at h
    · exact h
    · exact h
    · exact h
    · obtain ⟨levels, hclimb, rfl⟩ := Option.map_eq_some_iff.mp h
      rw [climb_mono hclimb hle, Option.map_some]

/-- What a run returns is the tree of the image. -/
theorem Returns.eq_treeOf {r : HashTree} (h : Returns H p image r) :
    digestsAt H p (dataDigests H p image) (height p image) = [r.rootHash] ∧
      r = treeOf H p image r.rootHash := by
  obtain ⟨fuel, hfuel⟩ := h
  obtain ⟨root, hroot, hbuild⟩ := build_eq H p image
  have hmore := buildHashTree_mono hfuel (Nat.le_max_left fuel (height p image))
  rw [hbuild _ (Nat.le_max_right _ _)] at hmore
  obtain rfl := Except.ok.inj (Option.some.inj hmore)
  exact ⟨hroot, rfl⟩

end Returns

/-! ## Down the layers -/

section Layers

variable {H : Hashlib} {p : Parameters} {image image' : PaddedImage p.dataBlockSize}
  {r r' : HashTree}

/-- The blocks of the layers are digested. -/
theorem Layout.node_digested (h : Layout p image H r) {i k : ℕ} (hi : i ≤ height p image)
    (hk : k < layerSize p (blockCount p image) i) :
    p.salt ++ node p image r.file i k ∈ digested p image r := by
  refine ⟨_, ?_, rfl⟩
  cases i with
  | zero =>
    left
    unfold layerSize at hk
    rw [Nat.pow_zero, ceilDiv_one] at hk
    exact mem_chunks.mpr ⟨k, hk, rfl⟩
  | succ i =>
    right
    refine mem_chunks.mpr ⟨_, ?_, rfl⟩
    have hpos : 0 < p.hashBlockSize := by
      rw [← p.hashBlockSize_eq]
      exact Nat.mul_pos (Nat.lt_of_succ_lt p.one_lt_hashesPerBlock) p.digestSize_pos
    rw [h.length, Nat.mul_comm, show ∀ n, p.hashBlockSize * n ⌈/⌉ p.hashBlockSize = n from
      smul_ceilDiv hpos]
    have hsplit := Finset.sum_range_add_sum_Ico
      (fun j => layerSize p (blockCount p image) (j + 1)) hi
    rw [Finset.sum_range_succ] at hsplit
    unfold blocksBefore
    omega

/-- Equal digests of blocks of the two runs are digests of equal blocks. -/
theorem block_eq (hinj : Set.InjOn (H.new p.algorithm) (digested p image r ∪ digested p image' r'))
    {block block' : Bytes} (hb : p.salt ++ block ∈ digested p image r)
    (hb' : p.salt ++ block' ∈ digested p image' r')
    (he : H.new p.algorithm (p.salt ++ block) = H.new p.algorithm (p.salt ++ block')) :
    block = block' :=
  List.append_cancel_left (hinj (Or.inl hb) (Or.inr hb') he)

/-- From the top layer down, the layers are equal. -/
theorem nodes_eq (h : Layout p image H r) (h' : Layout p image' H r')
    (hinj : Set.InjOn (H.new p.algorithm) (digested p image r ∪ digested p image' r'))
    (hcount : blockCount p image = blockCount p image') (hroot : r.rootHash = r'.rootHash)
    {i : ℕ} (hi : i ≤ height p image) :
    ∀ k < layerSize p (blockCount p image) i,
      node p image r.file i k = node p image' r'.file i k := by
  have hheight : height p image = height p image' := by
    unfold height
    rw [hcount]
  induction hdepth : height p image - i generalizing i with
  | zero =>
    obtain rfl : i = height p image := by omega
    intro k hk
    have htop := (h.top _).mpr (Nat.le_refl (height p image))
    obtain rfl : k = 0 := by omega
    refine block_eq hinj (h.node_digested hi hk) ?_ ?_
    · rw [hheight]
      refine h'.node_digested (Nat.le_refl _) ?_
      rw [← hcount, ← hheight]
      exact hk
    · rw [← h.root, hroot, h'.root, hheight]
  | succ depth ih =>
    have hlt : i < height p image := by omega
    have habove := ih (i := i + 1) hlt (by omega)
    intro k hk
    have hpow : 0 < p.hashesPerBlock ^ i :=
      Nat.pow_pos (Nat.lt_of_succ_lt p.one_lt_hashesPerBlock)
    -- the block stands above the data block `d`
    have hd : k * p.hashesPerBlock ^ i < blockCount p image := by
      by_contra hge
      have := (ceilDiv_le_iff_le_mul hpow (b := blockCount p image) (c := k)).mpr
        (by rw [Nat.mul_comm]; exact Nat.not_lt.mp hge)
      unfold layerSize at hk
      omega
    have hslot := h.slots i hlt _ hd
    have hslot' := h'.slots i (hheight ▸ hlt) _ (hcount ▸ hd)
    rw [habove _ (div_lt_ceilDiv (Nat.pow_pos (Nat.lt_of_succ_lt p.one_lt_hashesPerBlock)) hd),
      hslot', Nat.mul_div_cancel _ hpow] at hslot
    refine (block_eq hinj (h.node_digested hi hk) (h'.node_digested ?_ ?_) hslot.symm)
    · rw [← hheight]
      exact hi
    · rw [← hcount]
      exact hk

end Layers

/-- **The root hash binds the image**: where no two inputs of the two runs have one digest,
    images of one block count with one root hash are equal, and so are their trees. -/
theorem root_hash_binds (H : Hashlib) (p : Parameters) (image image' : PaddedImage p.dataBlockSize)
    (r r' : HashTree) (hr : Returns H p image r) (hr' : Returns H p image' r')
    (hinj : Set.InjOn (H.new p.algorithm) (digested p image r ∪ digested p image' r'))
    (hcount : r.dataBlocks = r'.dataBlocks) (hroot : r.rootHash = r'.rootHash) :
    chunks p.dataBlockSize image.bytes = chunks p.dataBlockSize image'.bytes ∧
      r.file = r'.file := by
  obtain ⟨hone, heq⟩ := hr.eq_treeOf
  obtain ⟨hone', heq'⟩ := hr'.eq_treeOf
  have h : Layout p image H r := heq ▸ layout_treeOf hone
  have h' : Layout p image' H r' := heq' ▸ layout_treeOf hone'
  rw [h.dataBlocks, h'.dataBlocks] at hcount
  have hchunks : chunks p.dataBlockSize image.bytes = chunks p.dataBlockSize image'.bytes := by
    unfold chunks
    rw [show image.bytes.length ⌈/⌉ p.dataBlockSize = _ from hcount]
    refine List.map_congr_left fun k hk => ?_
    have hk' : k < layerSize p (blockCount p image) 0 := by
      unfold layerSize
      rw [Nat.pow_zero, ceilDiv_one, hcount]
      exact List.mem_range.mp hk
    exact nodes_eq h h' hinj hcount hroot (Nat.zero_le _) k hk'
  have himage : image = image' := by
    have hbytes : image.bytes = image'.bytes := by
      rw [← flatten_chunks p.dataBlockSize_pos image.bytes, hchunks,
        flatten_chunks p.dataBlockSize_pos]
    cases image
    cases image'
    congr
  refine ⟨hchunks, ?_⟩
  rw [heq, heq', hroot, himage]

/-! ## Two levels -/

/-- A digest that reads three bytes of what follows a salt of one byte: the first ones of its
    first three digests, if that is a hash block. -/
def sampleHash : Hashlib where
  new := fun algorithm data => [data.getD 1 0, data.getD 33 0, data.getD 65 0] ++
    List.replicate (digestSize algorithm - 3) 0
  length_new := fun algorithm _ _ => by
    have hsize : 3 ≤ digestSize algorithm := by
      unfold digestSize
      split_ifs <;> decide
    rw [List.length_append, List.length_replicate]
    exact Nat.add_sub_cancel' hsize

def smallBlocks : Parameters where
  algorithm := "sha256"
  dataBlockSize := 512
  hashBlockSize := 512
  salt := [1]
  hashesPerBlock := 16
  accepted := by decide

/-- A block of one byte over and over. -/
def stripe (byte : UInt8) : Bytes := List.replicate 512 byte

/-- Seventeen such blocks, one more than a hash block holds the digests of. -/
def stripes (one two : UInt8) : List UInt8 :=
  [one, two, 2, 3, 4, 5, 6, 7, 8, 9, 10, 11, 12, 13, 14, 15, 16]

theorem length_stripe {bytes : List UInt8} : ∀ block ∈ bytes.map stripe, block.length = 512 := by
  intro block hblock
  obtain ⟨byte, _, rfl⟩ := List.mem_map.mp hblock
  exact List.length_replicate

def stripedImage (one two : UInt8) : PaddedImage smallBlocks.dataBlockSize where
  bytes := ((stripes one two).map stripe).flatten
  nonempty h := by
    have hlength := congrArg List.length h
    rw [length_flatten length_stripe] at hlength
    cases hlength
  padded := by
    refine ⟨17, ?_⟩
    rw [length_flatten length_stripe, List.length_map]
    exact Nat.mul_comm 17 512

theorem chunks_stripedImage (one two : UInt8) :
    chunks 512 (stripedImage one two).bytes = (stripes one two).map stripe :=
  chunks_flatten (by decide) length_stripe

/-- The digests of a hash block, by the bytes they start with. -/
def hashBlock (digests : List (UInt8 × UInt8 × UInt8)) : Bytes :=
  ljust (digests.flatMap fun d => [d.1, d.2.1, d.2.2] ++ List.replicate 29 0) 512

/-- The hash blocks, the top one first: the last of each level is not full. -/
def hashBlocks (one two : UInt8) : List Bytes :=
  [hashBlock [(one, two, 2), (16, 0, 0)],
    hashBlock (((stripes one two).take 16).map fun byte => (byte, byte, byte)),
    hashBlock [(16, 16, 16)]]

def stripedTree (one two : UInt8) : HashTree where
  rootHash := [one, 16, 0] ++ List.replicate 29 0
  dataBlocks := 17
  treeSize := 3 * 512
  file := (hashBlocks one two).flatten

/-- A data block is sampled to its byte. -/
theorem dataDigests_stripedImage (one two : UInt8) :
    dataDigests sampleHash smallBlocks (stripedImage one two) =
      (stripes one two).map fun byte => [byte, byte, byte] ++ List.replicate 29 0 := by
  have hchunks : chunks smallBlocks.dataBlockSize (stripedImage one two).bytes =
      (stripes one two).map stripe := chunks_stripedImage one two
  have hget (byte : UInt8) {i : ℕ} (h : i < 512) : (1 :: stripe byte).getD (i + 1) 0 = byte := by
    unfold stripe
    rw [List.getD_cons_succ, List.getD_eq_getElem?_getD, List.getElem?_replicate, if_pos h]
    rfl
  unfold dataDigests
  rw [hchunks, List.map_map]
  refine List.map_congr_left fun byte _ => ?_
  show [(1 :: stripe byte).getD (0 + 1) 0, (1 :: stripe byte).getD (32 + 1) 0,
    (1 :: stripe byte).getD (64 + 1) 0] ++ List.replicate 29 0 = _
  rw [hget byte (by decide), hget byte (by decide), hget byte (by decide)]

theorem returns_stripedImage {one two : UInt8}
    (h : (climb sampleHash "sha256" [1] 512 16 2
        ((stripes one two).map fun byte => [byte, byte, byte] ++ List.replicate 29 0)).map
          (fun result => (result.1.reverse.flatten, result.1.map List.length, result.2)) =
      some (hashBlocks one two, [2, 1], (stripedTree one two).rootHash)) :
    Returns sampleHash smallBlocks (stripedImage one two) (stripedTree one two) := by
  obtain ⟨result, hclimb, hresult⟩ := Option.map_eq_some_iff.mp h
  obtain ⟨hblocks, hlengths, hroot⟩ := Prod.mk.inj hresult |>.imp_right Prod.mk.inj
  refine ⟨2, ?_⟩
  have hdata := dataDigests_stripedImage one two
  have hlength : (dataDigests sampleHash smallBlocks (stripedImage one two)).length = 17 := by
    rw [hdata, List.length_map]
    rfl
  rw [← hdata] at hclimb
  unfold buildHashTree
  rw [smallBlocks.accepted, hashData_eq]
  rcases hd : dataDigests sampleHash smallBlocks (stripedImage one two) with
    _ | ⟨first, _ | ⟨second, rest⟩⟩
  · rw [hd] at hlength
    cases hlength
  · rw [hd] at hlength
    cases hlength
  · rw [hd] at hclimb hlength
    dsimp only
    rw [show climb sampleHash smallBlocks.algorithm smallBlocks.salt smallBlocks.hashBlockSize
      smallBlocks.hashesPerBlock 2 (first :: second :: rest) = some result from hclimb,
      Option.map_some, hblocks, hlengths, hroot, hlength]
    rfl

theorem returns_ordered : Returns sampleHash smallBlocks (stripedImage 0 1) (stripedTree 0 1) :=
  returns_stripedImage (by decide +kernel)

theorem returns_exchanged : Returns sampleHash smallBlocks (stripedImage 1 0) (stripedTree 1 0) :=
  returns_stripedImage (by decide +kernel)

theorem length_hashBlock {digests : List (UInt8 × UInt8 × UInt8)} (h : digests.length ≤ 16) :
    (hashBlock digests).length = 512 := by
  have hsum : (digests.flatMap fun d => [d.1, d.2.1, d.2.2] ++ List.replicate 29 0).length =
      digests.length * 32 := by
    rw [List.length_flatMap]
    show (digests.map fun _ => 32).sum = _
    rw [List.map_const', List.sum_replicate, smul_eq_mul]
  unfold hashBlock ljust
  rw [List.length_append, List.length_replicate, hsum]
  omega

theorem chunks_stripedTree (one two : UInt8) :
    chunks 512 (stripedTree one two).file = hashBlocks one two :=
  chunks_flatten (by decide) fun block hblock => by
    simp only [hashBlocks, List.mem_cons, List.not_mem_nil, or_false] at hblock
    rcases hblock with rfl | rfl | rfl
    · exact length_hashBlock (by simp)
    · exact length_hashBlock (by simp [stripes])
    · exact length_hashBlock (by simp)

/-- The three bytes tell apart all that the two runs digest. -/
theorem injOn_stripes : Set.InjOn (sampleHash.new smallBlocks.algorithm)
    (digested smallBlocks (stripedImage 0 1) (stripedTree 0 1) ∪
      digested smallBlocks (stripedImage 1 0) (stripedTree 1 0)) := by
  let inputs := ((stripes 0 1).map stripe ++ hashBlocks 0 1 ++ (hashBlocks 1 0).take 2).map
    ([1] ++ ·)
  let sample (x : Bytes) := (x.getD 1 0, x.getD 33 0, x.getD 65 0)
  have hsamples : inputs.map sample =
      (stripes 0 1).map (fun byte => (byte, byte, byte)) ++
        [(0, 16, 0), (0, 1, 2), (16, 0, 0)] ++ [(1, 16, 0), (1, 0, 2)] := by
    decide +kernel
  have hall : ∀ x ∈ inputs, ∀ y ∈ inputs,
      sampleHash.new smallBlocks.algorithm x = sampleHash.new smallBlocks.algorithm y → x = y := by
    intro x hx y hy heq
    have hnodup : (inputs.map sample).Nodup := by
      rw [hsamples]
      decide
    obtain ⟨hfirst, hrest⟩ := List.cons.inj heq
    obtain ⟨hsecond, hrest⟩ := List.cons.inj hrest
    have hthird := (List.cons.inj hrest).1
    exact List.inj_on_of_nodup_map hnodup hx hy
      (Prod.ext hfirst (Prod.ext hsecond hthird))
  have hexchanged : (stripes 1 0).Perm (stripes 0 1) := List.Perm.swap ..
  have hdigested : digested smallBlocks (stripedImage 0 1) (stripedTree 0 1) ∪
      digested smallBlocks (stripedImage 1 0) (stripedTree 1 0) ⊆ {x | x ∈ inputs} := by
    have hmem {one two : UInt8} {block : Bytes}
        (h : block ∈ chunks smallBlocks.dataBlockSize (stripedImage one two).bytes ∨
          block ∈ chunks smallBlocks.hashBlockSize (stripedTree one two).file) :
        block ∈ (stripes one two).map stripe ∨ block ∈ hashBlocks one two := by
      rw [← chunks_stripedImage, ← chunks_stripedTree]
      exact h
    rintro input (⟨block, hblock, rfl⟩ | ⟨block, hblock, rfl⟩)
    · refine List.mem_map_of_mem (List.mem_append_left _ (List.mem_append.mpr (hmem hblock)))
    · refine List.mem_map_of_mem ?_
      rcases hmem hblock with hblock | hblock
      · exact List.mem_append_left _ (List.mem_append_left _
          ((hexchanged.map stripe).mem_iff.mp hblock))
      · simp only [hashBlocks, List.mem_cons, List.not_mem_nil, or_false] at hblock
        -- the last block is the one the two runs share
        rcases hblock with rfl | rfl | rfl
        · exact List.mem_append_right _ (List.mem_cons_self ..)
        · exact List.mem_append_right _ (List.mem_cons_of_mem _ (List.mem_cons_self ..))
        · exact List.mem_append_left _ (List.mem_append_right _
            (List.mem_cons_of_mem _ (List.mem_cons_of_mem _ (List.mem_cons_self ..))))
  exact fun x hx y hy => hall x (hdigested hx) y (hdigested hy)

/-- The seventeen blocks are bound by their root hash, and the exchange of two changes it. -/
theorem root_hash_binds_stripes :
    (chunks 512 (stripedImage 0 1).bytes = chunks 512 (stripedImage 0 1).bytes ∧
      (stripedTree 0 1).file = (stripedTree 0 1).file) ∧
    (stripedTree 0 1).rootHash ≠ (stripedTree 1 0).rootHash := by
  constructor
  · have hinj := injOn_stripes.mono Set.subset_union_left
    rw [← Set.union_self (digested smallBlocks (stripedImage 0 1) (stripedTree 0 1))] at hinj
    exact root_hash_binds sampleHash smallBlocks (stripedImage 0 1) (stripedImage 0 1)
      (stripedTree 0 1) (stripedTree 0 1) returns_ordered returns_ordered hinj rfl rfl
  · intro hroot
    obtain ⟨_, hfile⟩ := root_hash_binds sampleHash smallBlocks (stripedImage 0 1)
      (stripedImage 1 0) (stripedTree 0 1) (stripedTree 1 0) returns_ordered returns_exchanged
      injOn_stripes rfl hroot
    revert hfile
    decide +kernel

end BuckosDistro.Verity
