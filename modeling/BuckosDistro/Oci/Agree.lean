/-
  The archive that is written is accepted.

  The tar holds the blobs that were gathered under the names of their digests, and the two
  documents of the layout. What the validator asks beyond what was checked while gathering
  is only that there are not too many members, and that `index.json` is not too long.
-/
import BuckosDistro.Oci.Gathered
import BuckosDistro.Oci.Contract

namespace BuckosDistro.Oci

open BuckosDistro.Lib
open BuckosDistro.Lib.Raise

/-- `json.loads` reads the value back from what `json.dumps` wrote, but for the order of the
    keys. -/
def ReadsBack (py : Python) (data : Bytes) (value : Json) : Prop :=
  ∃ back, py.loads data = .ok back ∧ Json.Same back value

/-! ## The members -/

def fileMember (name : String) (data : Bytes) : Member := ⟨name, .file, data.length, data⟩

def directoryMember (name : String) : Member := ⟨name, .directory, 0, []⟩

/-- The file of a blob. -/
def blobFile (gathered : Gathered) (digest : String) : Member :=
  fileMember (blobName digest) ((gathered.blobs.get? digest).elim [] Stored.data)

/-- The members that are written, by name. -/
def writtenItems (py : Python) (contract : ArchiveContract) (gathered : Gathered) :
    List (String × Member) :=
  [("blobs", directoryMember "blobs"), ("blobs/sha256", directoryMember "blobs/sha256"),
    ("oci-layout", fileMember "oci-layout" layoutBytes),
    ("index.json", fileMember "index.json" (indexBytes py contract gathered))] ++
  (PyText.sortedSet gathered.blobs.keys).map fun digest =>
    (blobName digest, blobFile gathered digest)

theorem writeArchive_ok {py : Python} {contract : ArchiveContract} {gathered : Gathered}
    {members : List Member} (h : writeArchive py contract gathered = .ok members) :
    members = (writtenItems py contract gathered).map Prod.snd := by
  unfold writeArchive addFile at h
  simp only [bind_ok, raiseIf_ok, pure_ok, exists_const] at h
  obtain ⟨layout, ⟨_, rfl⟩, index, ⟨_, rfl⟩, blobs, hblobs, rfl⟩ := h
  have hmap : blobs = (PyText.sortedSet gathered.blobs.keys).map (blobFile gathered) := by
    refine Lists.map_of_mapM_ok (fun digest member hmember => ?_) hblobs
    simp only [bind_ok, raiseIf_ok, pure_ok, exists_const] at hmember
    exact hmember.2.symm
  rw [hmap]
  unfold writtenItems
  rw [List.map_append, List.map_map]
  rfl

/-- Files that are not too large for their headers are written. -/
theorem exists_writeArchive {py : Python} {contract : ArchiveContract} {gathered : Gathered}
    (hindex : (indexBytes py contract gathered).length < 8 ^ 11)
    (hblobs : ∀ digest, ((gathered.blobs.get? digest).elim [] Stored.data).length < 8 ^ 11) :
    writeArchive py contract gathered =
      .ok ((writtenItems py contract gathered).map Prod.snd) := by
  have hlayout : layoutBytes.length < 8 ^ 11 := by decide +kernel
  have hadd :
      ∀ name data, data.length < 8 ^ 11 → addFile name data = .ok (fileMember name data) := by
    intro name data hlen
    unfold addFile
    simp only [bind_ok, raiseIf_ok, pure_ok, exists_const, not_le]
    exact ⟨hlen, rfl⟩
  have hmap := @Lists.mapM_ok_of_forall _ _ _ _ (blobFile gathered)
    (PyText.sortedSet gathered.blobs.keys) fun digest _ =>
      hadd (blobName digest) _ (hblobs digest)
  unfold writeArchive
  rw [hadd _ _ hlayout, hadd _ _ hindex, hmap]
  unfold writtenItems
  rw [List.map_append, List.map_map]
  rfl

section Written

variable {py : Python} {contract : ArchiveContract} {gathered : Gathered}

/-- The name of a blob is longer than the fixed names. -/
theorem blobName_notMem {digest : String} (h : isDigest digest.toList = true) :
    blobName digest ∉ fixedNames := by
  obtain ⟨hex, rfl, hhex⟩ := digest_eq h
  intro hmem
  have hlong : (blobName (String.ofList (sha256Prefix.toList ++ hex))).length = 77 := by
    rw [blobName_ofList, String.length_ofList, List.length_append, hhex.length]
    rfl
  have hshort : ∀ name ∈ fixedNames, name.length ≤ 12 := by decide
  have := hshort _ hmem
  omega

theorem nodup_writtenItems (hdigests : ∀ digest ∈ gathered.blobs.keys, isDigest digest.toList) :
    ((writtenItems py contract gathered).map Prod.fst).Nodup := by
  unfold writtenItems
  rw [List.map_append, List.map_map]
  refine List.nodup_append.mpr ⟨?_, ?_, ?_⟩
  · show ["blobs", "blobs/sha256", "oci-layout", "index.json"].Nodup
    decide
  · refine List.Nodup.map_on (fun a ha b hb he => ?_) (PyText.nodup_sortedSet _)
    exact blobName_inj (hdigests a (PyText.mem_sortedSet.mp ha))
      (hdigests b (PyText.mem_sortedSet.mp hb)) he
  · rintro name hname other hother rfl
    obtain ⟨digest, hdigest, rfl⟩ := List.mem_map.mp hother
    have hfixed : ∀ name ∈ ["blobs", "blobs/sha256", "oci-layout", "index.json"],
        name ∈ fixedNames := by decide
    exact blobName_notMem (hdigests digest (PyText.mem_sortedSet.mp hdigest)) (hfixed _ hname)

theorem normalize_fixed : ∀ name ∈ fixedNames, normalizeMemberName name = .ok name := by
  decide +kernel

theorem listedAs_written (hdigests : ∀ digest ∈ gathered.blobs.keys, isDigest digest.toList) :
    ∀ item ∈ writtenItems py contract gathered, ListedAs item.2 item.1 := by
  intro item hitem
  unfold writtenItems at hitem
  rcases List.mem_append.mp hitem with hitem | hitem
  · simp only [List.mem_cons, List.not_mem_nil, or_false] at hitem
    rcases hitem with rfl | rfl | rfl | rfl
    · exact ⟨normalize_fixed _ (by decide), rfl⟩
    · exact ⟨normalize_fixed _ (by decide), rfl⟩
    · exact ⟨normalize_fixed "oci-layout" (by decide), rfl⟩
    · exact ⟨normalize_fixed "index.json" (by decide), rfl⟩
  · obtain ⟨digest, hdigest, rfl⟩ := List.mem_map.mp hitem
    have hd := hdigests digest (PyText.mem_sortedSet.mp hdigest)
    refine ⟨normalize_blobName hd, ?_⟩
    have hdir : blobName digest ∉ ["blobs", "blobs/sha256"] := fun hmem =>
      blobName_notMem hd (List.mem_cons_of_mem _ (List.mem_cons_of_mem _ hmem))
    unfold RightKind
    rw [if_neg hdir]
    rfl

/-- The members by name. -/
def writtenMembers (py : Python) (contract : ArchiveContract) (gathered : Gathered) :
    Dict String Member :=
  ⟨writtenItems py contract gathered⟩

theorem readMembers_written (hdigests : ∀ digest ∈ gathered.blobs.keys, isDigest digest.toList)
    (hcount : (writtenItems py contract gathered).length ≤ maxMembers) :
    readMembers ((writtenItems py contract gathered).map Prod.snd) =
      .ok (writtenMembers py contract gathered) := by
  refine readMembers_ok.mpr ⟨?_, (writtenItems py contract gathered).map Prod.fst, ?_,
    nodup_writtenItems hdigests, ?_⟩
  · rwa [List.length_map]
  · rw [List.forall₂_map_left_iff, List.forall₂_map_right_iff, List.forall₂_same]
    exact listedAs_written hdigests
  · rw [List.zip_map']
    exact (List.map_id _).symm

theorem get?_written (hdigests : ∀ digest ∈ gathered.blobs.keys, isDigest digest.toList)
    {name : String} {member : Member} (h : (name, member) ∈ writtenItems py contract gathered) :
    (writtenMembers py contract gathered).get? name = some member :=
  (Dict.mem_items_iff (nodup_writtenItems hdigests)).mp h

/-- A blob is found under the name of its digest. -/
theorem blob_written (hdigests : ∀ digest ∈ gathered.blobs.keys, isDigest digest.toList)
    (hsha : ∀ digest stored, gathered.blobs.get? digest = some stored →
      sha256Prefix ++ py.sha256 stored.data = digest)
    {descriptor : Descriptor} {stored : Stored}
    (hstored : gathered.blobs.get? descriptor.digest = some stored)
    (hsize : stored.data.length = descriptor.size) :
    Blob py (writtenMembers py contract gathered) descriptor
      (fileMember (blobName descriptor.digest) stored.data) := by
  have hkey : descriptor.digest ∈ gathered.blobs.keys := by
    rw [Dict.mem_keys_iff, hstored]
    rfl
  refine ⟨get?_written hdigests ?_, hsize, ?_, hsize⟩
  · refine List.mem_append_right _ (List.mem_map.mpr
      ⟨descriptor.digest, PyText.mem_sortedSet.mpr hkey, ?_⟩)
    unfold blobFile
    rw [hstored]
    rfl
  · rw [← hsha _ _ hstored]
    show py.sha256 stored.data = removePrefix sha256Prefix (sha256Prefix ++ py.sha256 stored.data)
    rw [← @String.ofList_toList (sha256Prefix ++ py.sha256 stored.data), String.toList_append,
      removePrefix_append, String.ofList_toList]

theorem mem_includedBlobs (hdigests : ∀ digest ∈ gathered.blobs.keys, isDigest digest.toList)
    (name : String) : name ∈ includedBlobs (writtenMembers py contract gathered) ↔
      ∃ digest ∈ gathered.blobs.keys, name = blobName digest := by
  unfold includedBlobs writtenMembers writtenItems
  simp only [List.mem_map, List.mem_filter, List.mem_append, decide_eq_true_eq]
  constructor
  · rintro ⟨item, ⟨hitem | ⟨digest, hdigest, rfl⟩, hblob, hfile⟩, rfl⟩
    · simp only [List.mem_cons, List.not_mem_nil, or_false] at hitem
      rcases hitem with rfl | rfl | rfl | rfl
      · cases hfile
      · cases hfile
      · exact absurd hblob (by decide)
      · exact absurd hblob (by show ¬ "blobs/".toList <+: "index.json".toList; decide)
    · exact ⟨digest, PyText.mem_sortedSet.mp hdigest, rfl⟩
  · rintro ⟨digest, hdigest, rfl⟩
    refine ⟨(blobName digest, blobFile gathered digest), ⟨Or.inr ⟨digest,
      PyText.mem_sortedSet.mpr hdigest, rfl⟩, ?_, rfl⟩, rfl⟩
    obtain ⟨hex, rfl, _⟩ := digest_eq (hdigests digest hdigest)
    show "blobs/".toList <+: (blobName (String.ofList (sha256Prefix.toList ++ hex))).toList
    have hsplit : "blobs/sha256/".toList = "blobs/".toList ++ "sha256/".toList := by decide
    rw [blobName_ofList, hsplit, List.append_assoc]
    exact ⟨"sha256/".toList ++ hex, String.toList_ofList.symm⟩

end Written

/-! ## The checks of the validator -/

theorem Describes.congr {record record' : Fields} {descriptor : Descriptor}
    (h : Describes record descriptor)
    (hsame : ∀ key, Json.Same (getKey record' key) (getKey record key)) :
    Describes record' descriptor where
  digest := (h.digest ▸ hsame "digest").str
  isDigest := h.isDigest
  size := (h.size ▸ hsame "size").int
  positive := h.positive
  mediaType := (h.mediaType ▸ hsame "mediaType").str
  nonempty := h.nonempty

theorem samePlatform_congr {record record' : Fields} {contract : ArchiveContract}
    (henforce : contract.enforceVariant = true) (h : samePlatform record contract = true)
    (hsame : ∀ key, Json.Same (getKey record' key) (getKey record key)) :
    samePlatform record' contract = true := by
  rw [samePlatform_iff henforce] at h ⊢
  intro key hkey
  have hk := hsame key
  rw [h key hkey] at hk
  cases htext : statedTexts contract key with
  | none =>
    rw [htext] at hk
    exact hk.null
  | some text =>
    rw [htext] at hk
    exact hk.str

/-- The selected record, as it is or read back. -/
theorem Tracked.congr {contract : ArchiveContract} {index index' : ℕ} {tracked : Descriptor}
    {record record' : Fields} (henforce : contract.enforceVariant = true)
    (h : Tracked contract (index, tracked, record))
    (hsame : ∀ key, Json.Same (getKey record' key) (getKey record key)) :
    Tracked contract (index', tracked, record') := by
  refine ⟨h.describes.congr hsame, ?_⟩
  obtain ⟨platform, hplatform, hmatch⟩ := h.platform
  have hp := hsame "platform"
  rw [hplatform] at hp
  obtain ⟨platform', hplatform', _, hkeys⟩ := hp.fields
  exact ⟨platform', hplatform', samePlatform_congr henforce hmatch hkeys⟩

theorem platformMatches_ok {platform : Fields} {contract : ArchiveContract} {label : String}
    (h : samePlatform platform contract = true) :
    platformMatches (.obj platform) contract label = .ok () := by
  unfold samePlatform at h
  unfold platformMatches
  simp only [Bool.and_eq_true, Bool.or_eq_true, Bool.not_eq_true'] at h
  obtain ⟨⟨hos, harch⟩, hvariant⟩ := h
  simp only [bind_ok, object_ok, raiseIf_ok, exists_const, not_not, Json.obj.injEq,
    exists_eq_left', not_and]
  refine ⟨hos, harch, fun he => hvariant.resolve_left fun hf => ?_⟩
  exact absurd (he.symm.trans hf) (by decide)

theorem checkRecord_ok {contract : ArchiveContract} {selected : Selected}
    (h : Tracked contract selected) : checkRecord selected.2.2 contract = .ok () := by
  obtain ⟨platform, hplatform, hmatch⟩ := h.platform
  unfold checkRecord
  split_ifs
  · rw [hplatform]
    exact platformMatches_ok hmatch
  · rfl

/-- The two variants are the one of the contract. -/
theorem exists_selectVariant {contract : ArchiveContract} {selected : Selected} {config : Fields}
    (henforce : contract.enforceVariant = true) (h : Tracked contract selected)
    (hconfig : samePlatform config contract = true) :
    ∃ variant, selectVariant selected.2.2 config = .ok variant := by
  obtain ⟨platform, hplatform, hmatch⟩ := h.platform
  have hvariant := (samePlatform_iff henforce).mp hmatch "variant" (by decide)
  have hvariant' := (samePlatform_iff henforce).mp hconfig "variant" (by decide)
  unfold selectVariant
  simp only [hplatform, bind_ok, raiseIf_ok, exists_const, pure_ok, exists_and_left]
  refine ⟨?_, _, rfl⟩
  rintro ⟨_, _, hdiffer⟩
  rw [hvariant, hvariant'] at hdiffer
  exact hdiffer (pyEq_text.mpr rfl)

/-! ## Acceptance -/

section Accepts

variable {py : Python} {contract : ArchiveContract} {tracked : Descriptor} {gathered : Gathered}
  {parent manifest config : Fields} {configDescriptor : Descriptor} {layers : List Descriptor}

theorem indexMediaType_ne : indexMediaType ≠ "" := by
  decide

theorem layersOf_digest (h : layersOf manifest = .ok layers) {layer : Descriptor}
    (hl : layer ∈ layers) : isDigest layer.digest.toList = true := by
  unfold layersOf at h
  obtain ⟨values, _, h⟩ := bind_ok.mp h
  obtain ⟨value, _, hvalue⟩ := Lists.exists_of_mapM_ok h hl
  obtain ⟨_, _, hdescribes⟩ := ociDescriptor_ok.mp hvalue
  exact hdescribes.isDigest

namespace Acquired

variable (h : Acquired py contract tracked gathered parent manifest config configDescriptor layers)

include h

theorem isDigest_of_mem : ∀ digest ∈ gathered.blobs.keys, isDigest digest.toList := by
  intro digest hd
  rcases h.keys digest hd with rfl | ⟨descriptor, hmem, rfl⟩
  · exact h.pinned
  · rcases List.mem_cons.mp hmem with rfl | hmem
    · obtain ⟨_, _, _, htracked⟩ := h.selected
      exact htracked.describes.isDigest
    · rcases List.mem_cons.mp hmem with rfl | hmem
      · obtain ⟨_, _, hdescribes⟩ := ociDescriptor_ok.mp h.configField
        exact hdescribes.isDigest
      · exact layersOf_digest h.layersField hmem

/-- The blob of the parent, of which the record in `index.json` states the size. -/
theorem parentBlob : Blob py (writtenMembers py contract gathered)
    ⟨referenceDigest contract.reference, gathered.parent.length, indexMediaType⟩
    (fileMember (blobName (referenceDigest contract.reference)) gathered.parent) :=
  @blob_written py contract gathered h.isDigest_of_mem h.digests
    ⟨referenceDigest contract.reference, gathered.parent.length, indexMediaType⟩
    (.document gathered.parent) h.parentStored rfl

theorem image : Image py (writtenMembers py contract gathered) tracked manifest config
    configDescriptor layers where
  manifestBlob := by
    obtain ⟨data, hdata, hsize, hsmall, hvalue⟩ := h.manifestStored
    exact ⟨_, blob_written h.isDigest_of_mem h.digests hdata hsize, rfl, hsmall, rfl, hvalue⟩
  schema := h.schema
  mediaType := Or.inr h.mediaType
  configField := h.configField
  layersField := h.layersField
  configBlob := by
    obtain ⟨data, hdata, hsize, hsmall, hvalue⟩ := h.configStored
    exact ⟨_, blob_written h.isDigest_of_mem h.digests hdata hsize, rfl, hsmall, rfl, hvalue⟩
  layerBlobs := by
    intro layer hlayer
    obtain ⟨data, hdata, hsize⟩ := h.layersStored layer hlayer
    exact ⟨_, blob_written h.isDigest_of_mem h.digests hdata hsize⟩

theorem readParent : ∃ verified,
    readParentIndex py (writtenMembers py contract gathered)
      ⟨referenceDigest contract.reference, gathered.parent.length, indexMediaType⟩ .empty =
        .ok (parent, verified) ∧
    Verified py (writtenMembers py contract gathered)
      [⟨referenceDigest contract.reference, gathered.parent.length, indexMediaType⟩]
      .empty verified := by
  have hempty := hashed_empty py (writtenMembers py contract gathered)
  refine ⟨_, (readParentIndex_ok hempty).mpr ⟨_, h.parentBlob, ?_, h.parentIndex, rfl⟩,
    Verified.one hempty h.parentBlob⟩
  exact ⟨rfl, h.parentSmall, rfl, h.parentValue⟩

/-- Either layout resolves to the manifest of the contract. -/
theorem exists_resolveRoot (hempty : ∀ value, py.loads [] ≠ .ok value)
    (henforce : contract.enforceVariant = true) {root : Json}
    (hroot : Json.Same root (.obj (rootRecord contract gathered))) :
    ∃ record verified index,
      resolveRoot py (writtenMembers py contract gathered) contract root =
        .ok (tracked, record, verified) ∧ Tracked contract (index, tracked, record) ∧
      Verified py (writtenMembers py contract gathered)
        [⟨referenceDigest contract.reference, gathered.parent.length, indexMediaType⟩]
        .empty verified := by
  obtain ⟨fields, rfl, _, hfields⟩ := hroot.fields
  obtain ⟨index, hselect, hfirst, htracked⟩ := h.selected
  obtain ⟨verified, hread, hverified⟩ := h.readParent
  have hsize : 0 < gathered.parent.length := by
    refine List.length_pos_iff.mpr fun hnil => ?_
    have hvalue := h.parentValue
    rw [hnil] at hvalue
    exact hempty _ hvalue
  unfold resolveRoot
  by_cases hx : contract.targetArchitecture = "x86_64"
  · -- the record of the parent
    have hrecord : rootRecord contract gathered =
        [("annotations", .obj [(referenceAnnotationKey, .str contract.reference)]),
          ("digest", .str (referenceDigest contract.reference)),
          ("mediaType", .str indexMediaType),
          ("size", .int gathered.parent.length)] := if_pos hx
    have hdescribes : Describes (rootRecord contract gathered)
        ⟨referenceDigest contract.reference, gathered.parent.length, indexMediaType⟩ := by
      rw [hrecord]
      exact ⟨rfl, h.pinned, rfl, hsize, rfl, indexMediaType_ne⟩
    have hann := hfields "annotations"
    rw [hrecord] at hann
    obtain ⟨annotations, hannotations, _, hkeys⟩ := hann.fields
    have hname : getKey annotations referenceAnnotationKey = .str contract.reference := by
      have hk := hkeys referenceAnnotationKey
      unfold getKey at hk
      rw [List.lookup_cons_self] at hk
      exact hk.str
    refine ⟨gathered.selectedRecord, verified, index, ?_, htracked, hverified⟩
    simp only [bind_ok, object_ok, Json.obj.injEq, exists_eq_left']
    refine ⟨_, ociDescriptor_ok.mpr ⟨_, rfl, hdescribes.congr hfields⟩, ?_⟩
    rw [if_pos rfl]
    unfold parentRoot
    simp only [bind_ok, object_ok, raiseIf_ok, pure_ok, exists_const, not_not, ne_eq,
      Prod.exists, Prod.mk.injEq]
    exact ⟨trivial, annotations, hannotations, pyEq_str.mpr hname, parent, verified, hread, index,
      tracked, gathered.selectedRecord, hselect, hfirst hx, rfl, rfl, rfl⟩
  · -- the record that was selected
    have hrecord : rootRecord contract gathered = gathered.selectedRecord := if_neg hx
    rw [hrecord] at hfields
    refine ⟨fields, verified, index, ?_, htracked.congr henforce hfields, hverified⟩
    simp only [bind_ok, object_ok, Json.obj.injEq, exists_eq_left']
    refine ⟨_, ociDescriptor_ok.mpr ⟨_, rfl, htracked.describes.congr hfields⟩, ?_⟩
    rw [if_neg h.apart.symm, h.parentBlob.found]
    unfold directRoot
    simp only [bind_ok, raiseIf_ok, pure_ok, exists_const, not_not, ne_eq, Prod.exists,
      Prod.mk.injEq]
    exact ⟨parent, verified, hread, index, tracked, gathered.selectedRecord, hselect, rfl, trivial,
      trivial, rfl⟩

theorem stored : ∀ descriptor ∈ tracked :: configDescriptor :: layers,
    descriptor.digest ∈ gathered.blobs.keys := by
  intro descriptor hmem
  rw [Dict.mem_keys_iff]
  rcases List.mem_cons.mp hmem with rfl | hmem
  · obtain ⟨data, hdata, _⟩ := h.manifestStored
    rw [hdata]
    rfl
  · rcases List.mem_cons.mp hmem with rfl | hmem
    · obtain ⟨data, hdata, _⟩ := h.configStored
      rw [hdata]
      rfl
    · obtain ⟨data, hdata, _⟩ := h.layersStored descriptor hmem
      rw [hdata]
      rfl

theorem exists_readRoot
    (hlayout : ReadsBack py layoutBytes (.obj [("imageLayoutVersion", .str "1.0.0")]))
    (hindex : ReadsBack py (indexBytes py contract gathered) (indexValue contract gathered))
    (hsmall : (indexBytes py contract gathered).length ≤ maxJsonSize) :
    ∃ root, readRoot py (writtenMembers py contract gathered) = .ok root ∧
      Json.Same root (.obj (rootRecord contract gathered)) := by
  have hlayoutFile : (writtenMembers py contract gathered).get? "oci-layout" =
      some (fileMember "oci-layout" layoutBytes) :=
    get?_written h.isDigest_of_mem (List.mem_append_left _ (by simp))
  have hindexFile : (writtenMembers py contract gathered).get? "index.json" =
      some (fileMember "index.json" (indexBytes py contract gathered)) :=
    get?_written h.isDigest_of_mem (List.mem_append_left _ (by simp))
  obtain ⟨layout, hlayoutValue, hlayoutSame⟩ := hlayout
  obtain ⟨layout, rfl, _, hversion⟩ := hlayoutSame.fields
  obtain ⟨index, hindexValue, hindexSame⟩ := hindex
  obtain ⟨index, rfl, _, hkeys⟩ := hindexSame.fields
  obtain ⟨root, hroot, hsame⟩ : ∃ root, getKey index "manifests" = .arr [root] ∧
      Json.Same root (.obj (rootRecord contract gathered)) := (hkeys "manifests").one
  refine ⟨root, ?_, hsame⟩
  have hindexOk : notAnIndex index = false := by
    have hschema : getKey index "schemaVersion" = .int 2 := (hkeys "schemaVersion").int
    have htype : getKey index "mediaType" = .str indexMediaType := (hkeys "mediaType").str
    unfold notAnIndex
    rw [hschema, htype, pyEq_str.mpr rfl]
    rfl
  have hversionOk : (getKey layout "imageLayoutVersion").pyEq (.str "1.0.0") = true :=
    pyEq_str.mpr (hversion "imageLayoutVersion").str
  unfold readRoot
  simp only [bind_ok, needed_ok, raiseIf_ok, exists_const, readObject_ok, hlayoutFile, hindexFile,
    not_not]
  refine ⟨_, rfl, _, rfl, layout, ⟨rfl, ?_, rfl, hlayoutValue⟩, hversionOk, index,
    ⟨rfl, hsmall, rfl, hindexValue⟩, ?_, ?_⟩
  · show layoutBytes.length ≤ maxJsonSize
    decide +kernel
  · rw [hindexOk]
    exact Bool.false_ne_true
  · rw [hroot]
    rfl

/-- The archive is accepted when it is not too large to be read. -/
theorem exists_inspect (hempty : ∀ value, py.loads [] ≠ .ok value)
    (henforce : contract.enforceVariant = true) (ht : contract.manifest = some tracked)
    (hmedia : tracked.mediaType ∈ manifestMediaTypes) (hconfig : samePlatform config contract)
    (hlayout : ReadsBack py layoutBytes (.obj [("imageLayoutVersion", .str "1.0.0")]))
    (hindex : ReadsBack py (indexBytes py contract gathered) (indexValue contract gathered))
    (hsmall : (indexBytes py contract gathered).length ≤ maxJsonSize)
    (hcount : (writtenItems py contract gathered).length ≤ maxMembers) {archive : Archive}
    (hfile : archive.regular = true) (hsteady : archive.unchanged = true)
    (hmembers : archive.members = .ok ((writtenItems py contract gathered).map Prod.snd)) :
    ∃ identity platform, inspectArchive py archive contract none =
      .ok (identity, tracked, platform) := by
  obtain ⟨root, hroot, hsame⟩ := h.exists_readRoot hlayout hindex hsmall
  obtain ⟨record, verified, i, hresolve, htracked, hverified⟩ :=
    h.exists_resolveRoot hempty henforce hsame
  obtain ⟨verified', himage, hverified'⟩ := exists_readImage hverified.hashed h.image
  obtain ⟨variant, hvariant⟩ := exists_selectVariant henforce htracked hconfig
  have hclosed : (includedBlobs (writtenMembers py contract gathered)).toFinset =
      verified'.keys.toFinset := by
    ext name
    rw [List.mem_toFinset, List.mem_toFinset, mem_includedBlobs h.isDigest_of_mem,
      hverified'.marked, hverified.marked]
    constructor
    · rintro ⟨digest, hdigest, rfl⟩
      rcases h.keys digest hdigest with rfl | ⟨descriptor, hmem, rfl⟩
      · exact Or.inl (Or.inr ⟨_, List.mem_singleton.mpr rfl, rfl⟩)
      · exact Or.inr ⟨descriptor, hmem, rfl⟩
    · rintro ((hnone | ⟨descriptor, hmem, rfl⟩) | ⟨descriptor, hmem, rfl⟩)
      · exact absurd hnone List.not_mem_nil
      · rw [List.mem_singleton.mp hmem]
        refine ⟨referenceDigest contract.reference, Dict.mem_keys_iff.mpr ?_, rfl⟩
        rw [h.parentStored]
        rfl
      · exact ⟨descriptor.digest, h.stored descriptor hmem, rfl⟩
  refine ⟨archive.identity, ⟨contract.ociArchitecture, contract.os, variant⟩, ?_⟩
  unfold inspectArchive checkFile
  simp only [bind_ok, raiseIf_ok, pure_ok, exists_const, hmembers, Except.ok.injEq,
    exists_eq_left', readMembers_written h.isDigest_of_mem hcount, hroot, hresolve, himage,
    platformMatches_ok hconfig, hvariant]
  exact ⟨⟨not_not.mpr hfile, trivial⟩, not_not.mpr hmedia, fun hne => hne.2 ht.symm, (),
    checkRecord_ok htracked, trivial, not_not.mpr hclosed, not_not.mpr hsteady, trivial⟩

end Acquired

end Accepts

end BuckosDistro.Oci
