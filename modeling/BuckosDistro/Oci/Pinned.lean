/-
  A contract with a tracked manifest pins the content of an archive.

  Every blob of an accepted archive is the parent index, the manifest, its config or one of
  its layers, found under the name of its digest. The reference gives the digest of the
  parent, the contract that of the manifest, and the manifest those of the rest.
-/
import BuckosDistro.Oci.Accepted

namespace BuckosDistro.Oci

open BuckosDistro.Lib
open BuckosDistro.Lib.Raise

/-! ## The content -/

/-- The digests of an image: of the parent index, the manifest, the config and the layers. -/
def imageDigests (contract : ArchiveContract) (tracked config : Descriptor)
    (layers : List Descriptor) : List String :=
  referenceDigest contract.reference :: tracked.digest :: config.digest ::
    layers.map Descriptor.digest

/-- The bytes with these digests, the manifest being the one that lists config and layers. -/
structure ImageBytes (py : Python) (contract : ArchiveContract) (tracked config : Descriptor)
    (layers : List Descriptor) (payload : String → Bytes) : Prop where
  digests : ∀ digest ∈ imageDigests contract tracked config layers,
    py.sha256 (payload digest) = removePrefix sha256Prefix digest
  manifest : ∃ manifest, py.loads (payload tracked.digest) = .ok (.obj manifest) ∧
    ociDescriptor (getKey manifest "config") "OCI image config" = .ok config ∧
    layersOf manifest = .ok layers

/-- The members of the archive are the fixed ones, and the blobs with these digests: each
    name is there once, no other is, and what is under the name of a digest is its bytes. -/
structure Holds (archive : Archive) (digests : List String) (payload : String → Bytes) :
    Prop where
  listed : ∃ members names, archive.members = .ok members ∧
    List.Forall₂ ListedAs members names ∧ names.Nodup ∧
    (∀ item ∈ names.zip members, item.1 ∈ fixedNames ∨
      ∃ digest ∈ digests, item.1 = blobName digest ∧ item.2.payload = payload digest) ∧
    ∀ digest ∈ digests, ∃ item ∈ names.zip members,
      item.1 = blobName digest ∧ item.2.payload = payload digest

/-- The bytes of the members. -/
def Archive.payloads (archive : Archive) : List Bytes :=
  match archive.members with
  | .ok members => members.map Member.payload
  | .error _ => []

/-! ## An accepted archive -/

section Accepted

variable {py : Python} {contract : ArchiveContract} {tracked : Descriptor}

theorem parentRoot_ok {members : Dict String Member} {rootRecord record : Fields}
    {rootDescriptor descriptor : Descriptor} {verified : Dict String ArchiveIdentity}
    (h : parentRoot py members contract rootRecord rootDescriptor =
      .ok (descriptor, record, verified)) :
    Verified py members [rootDescriptor] .empty verified := by
  have hempty := hashed_empty py members
  unfold parentRoot at h
  simp only [bind_ok, raiseIf_ok, pure_ok, object_ok, exists_const, Prod.exists,
    readParentIndex_ok hempty, Prod.mk.injEq] at h
  obtain ⟨_, _, _, _, _, _, ⟨_, hblob, _, _, rfl⟩, _, _, _, _, _, _, _, rfl⟩ := h
  exact Verified.one hempty hblob

theorem directRoot_ok {members : Dict String Member} {rootRecord record : Fields}
    {rootDescriptor descriptor : Descriptor} {verified : Dict String ArchiveIdentity}
    {parentMember : Member}
    (h : directRoot py members contract rootRecord rootDescriptor parentMember =
      .ok (descriptor, record, verified)) :
    Verified py members [⟨referenceDigest contract.reference, parentMember.size, indexMediaType⟩]
      .empty verified := by
  have hempty := hashed_empty py members
  unfold directRoot at h
  simp only [bind_ok, raiseIf_ok, pure_ok, exists_const, Prod.exists,
    readParentIndex_ok hempty, Prod.mk.injEq] at h
  obtain ⟨_, _, ⟨_, hblob, _, _, rfl⟩, _, _, _, _, _, _, _, rfl⟩ := h
  exact Verified.one hempty hblob

/-- With a tracked manifest both layouts verify the parent index of the reference. -/
theorem resolveRoot_parent {members : Dict String Member} {root : Json} {descriptor : Descriptor}
    {record : Fields} {verified : Dict String ArchiveIdentity}
    (ht : contract.manifest = some tracked)
    (h : resolveRoot py members contract root = .ok (descriptor, record, verified)) :
    ∃ parent, parent.digest = referenceDigest contract.reference ∧
      Verified py members [parent] .empty verified := by
  unfold resolveRoot at h
  simp only [bind_ok, object_ok] at h
  obtain ⟨_, _, rootDescriptor, _, h⟩ := h
  by_cases hdigest : rootDescriptor.digest = referenceDigest contract.reference
  · rw [if_pos hdigest] at h
    exact ⟨rootDescriptor, hdigest, parentRoot_ok h⟩
  · rw [if_neg hdigest] at h
    cases hmember : members.get? (blobName (referenceDigest contract.reference)) with
    | none =>
      rw [hmember, ht] at h
      cases h
    | some member =>
      rw [hmember] at h
      exact ⟨_, rfl, directRoot_ok h⟩

/-- What acceptance says of the members. -/
structure Content (py : Python) (contract : ArchiveContract) (tracked : Descriptor)
    (members : Dict String Member) (manifest config : Fields) (configDescriptor : Descriptor)
    (layers : List Descriptor) : Prop where
  image : Image py members tracked manifest config configDescriptor layers
  blobs : ∀ digest ∈ imageDigests contract tracked configDescriptor layers,
    ∃ descriptor member, descriptor.digest = digest ∧ Blob py members descriptor member
  closed : ∀ name, name ∈ includedBlobs members ↔
    ∃ digest ∈ imageDigests contract tracked configDescriptor layers, name = blobName digest

theorem content_of_accepted {archive : Archive} {expected : Option ArchiveIdentity}
    {result : ArchiveIdentity × Descriptor × SelectedPlatform}
    (ht : contract.manifest = some tracked)
    (h : inspectArchive py archive contract expected = .ok result) :
    ∃ listed members manifest config configDescriptor layers, archive.members = .ok listed ∧
      readMembers listed = .ok members ∧
      Content py contract tracked members manifest config configDescriptor layers := by
  unfold inspectArchive at h
  simp only [bind_ok, Prod.exists, raiseIf_ok, exists_const] at h
  obtain ⟨_, _, listed, hlisted, members, hmembers, root, _, descriptor, record, verified, hroot,
    _, htracked, _, _, config, verified', himage, _, _, _, _, hclosed, _, _⟩ := h
  obtain rfl : descriptor = tracked := by
    rw [ht] at htracked
    by_contra hne
    exact htracked ⟨rfl, fun he => hne (Option.some.inj he)⟩
  obtain ⟨parent, hparent, hverified⟩ := resolveRoot_parent ht hroot
  obtain ⟨manifest, cd, layers, hi, hverified'⟩ := readImage_ok hverified.hashed himage
  have hall := hverified.append hverified'
  have hdigests : imageDigests contract descriptor cd layers =
      ([parent] ++ descriptor :: cd :: layers).map Descriptor.digest := by
    unfold imageDigests
    rw [← hparent]
    rfl
  refine ⟨listed, members, manifest, config, cd, layers, hlisted, hmembers, hi, fun digest hd => ?_,
    fun name => ?_⟩
  · rw [hdigests] at hd
    obtain ⟨d, hmem, rfl⟩ := List.mem_map.mp hd
    obtain ⟨member, hblob⟩ := hall.there d hmem
    exact ⟨d, member, rfl, hblob⟩
  · rw [not_not] at hclosed
    rw [← List.mem_toFinset, hclosed, List.mem_toFinset, hall.marked, hdigests]
    simp only [List.mem_map, exists_exists_and_eq_and]
    exact ⟨fun h => h.resolve_left List.not_mem_nil, Or.inr⟩

/-- The bytes under the name of a digest. -/
def payloadAt (members : Dict String Member) (digest : String) : Bytes :=
  ((members.get? (blobName digest)).map Member.payload).getD []

/-- The digests of an image come with their bytes. -/
theorem Content.payload {members : Dict String Member} {manifest config : Fields}
    {configDescriptor : Descriptor} {layers : List Descriptor}
    (h : Content py contract tracked members manifest config configDescriptor layers)
    {digest : String} (hd : digest ∈ imageDigests contract tracked configDescriptor layers) :
    ∃ member, members.get? (blobName digest) = some member ∧
      member.payload = payloadAt members digest ∧
        py.sha256 member.payload = removePrefix sha256Prefix digest := by
  obtain ⟨descriptor, member, rfl, hblob⟩ := h.blobs digest hd
  refine ⟨member, hblob.found, ?_, hblob.digest⟩
  unfold payloadAt
  rw [hblob.found]
  rfl

/-- What the manifest lists is fixed by its bytes. -/
theorem Content.bytes {members : Dict String Member} {manifest config : Fields}
    {configDescriptor : Descriptor} {layers : List Descriptor}
    (h : Content py contract tracked members manifest config configDescriptor layers) :
    ImageBytes py contract tracked configDescriptor layers (payloadAt members) := by
  refine ⟨fun digest hd => ?_, manifest, ?_, h.image.configField, h.image.layersField⟩
  · obtain ⟨member, _, he, hsha⟩ := h.payload hd
    rw [← he, hsha]
  · obtain ⟨member, hblob, hreads⟩ := h.image.manifestBlob
    have htracked : tracked.digest ∈ imageDigests contract tracked configDescriptor layers :=
      List.mem_cons_of_mem _ (List.mem_cons_self ..)
    obtain ⟨member', hfound, he, _⟩ := h.payload htracked
    obtain rfl := Option.some.inj (hblob.found.symm.trans hfound)
    rw [← he]
    exact hreads.value

end Accepted

/-- The archive holds the blobs of its image. -/
theorem holds_of_content {py : Python} {contract : ArchiveContract} {tracked : Descriptor}
    {archive : Archive} {listed : List Member} {members : Dict String Member}
    {manifest config : Fields} {configDescriptor : Descriptor} {layers : List Descriptor}
    (hlisted : archive.members = .ok listed) (hmembers : readMembers listed = .ok members)
    (h : Content py contract tracked members manifest config configDescriptor layers) :
    Holds archive (imageDigests contract tracked configDescriptor layers) (payloadAt members) := by
  obtain ⟨_, names, hnames, hnodup, hitems⟩ := readMembers_ok.mp hmembers
  have hlen := hnames.length_eq
  have hkeys : members.keys = names := by
    unfold Dict.keys
    rw [hitems, List.map_fst_zip (by omega)]
  have hget : ∀ item, item ∈ names.zip listed ↔ members.get? item.1 = some item.2 := by
    intro item
    rw [← hitems]
    exact Dict.mem_items_iff (hkeys ▸ hnodup)
  refine ⟨listed, names, hlisted, hnames, hnodup, fun item hitem => ?_, fun digest hd => ?_⟩
  · by_cases hfixed : item.1 ∈ fixedNames
    · exact Or.inl hfixed
    · right
      obtain ⟨hname, hkind⟩ : ListedAs item.2 item.1 :=
        (List.forall₂_iff_zip.mp hnames.flip).2 hitem
      have hfile : item.2.kind = .file := by
        have hdir : item.1 ∉ ["blobs", "blobs/sha256"] :=
          fun hdir => hfixed (List.mem_cons_of_mem _ (List.mem_cons_of_mem _ hdir))
        unfold RightKind at hkind
        rwa [if_neg hdir] at hkind
      have hblob : item.1 ∈ includedBlobs members := by
        unfold includedBlobs
        refine List.mem_map.mpr ⟨item, List.mem_filter.mpr ⟨hitems ▸ hitem, ?_⟩, rfl⟩
        exact decide_eq_true ⟨(normalized_name hname).resolve_left hfixed, hfile⟩
      obtain ⟨digest, hd, hnamed⟩ := (h.closed item.1).mp hblob
      refine ⟨digest, hd, hnamed, ?_⟩
      unfold payloadAt
      rw [← hnamed, (hget item).mp hitem]
      rfl
  · obtain ⟨member, hfound, he, _⟩ := h.payload hd
    exact ⟨(blobName digest, member), (hget _).mpr hfound, rfl, he⟩

theorem Holds.congr {archive : Archive} {digests : List String} {payload payload' : String → Bytes}
    (h : Holds archive digests payload)
    (he : ∀ digest ∈ digests, payload digest = payload' digest) :
    Holds archive digests payload' := by
  obtain ⟨members, names, hmembers, hnames, hnodup, hitems, hblobs⟩ := h.listed
  refine ⟨members, names, hmembers, hnames, hnodup, fun item hitem => ?_, fun digest hd => ?_⟩
  · rcases hitems item hitem with hfixed | ⟨digest, hd, hname, hpayload⟩
    · exact Or.inl hfixed
    · exact Or.inr ⟨digest, hd, hname, by rw [hpayload, he digest hd]⟩
  · obtain ⟨item, hitem, hname, hpayload⟩ := hblobs digest hd
    exact ⟨item, hitem, hname, by rw [hpayload, he digest hd]⟩

theorem mem_payloads {archive : Archive} {listed : List Member} {members : Dict String Member}
    (hlisted : archive.members = .ok listed) (hmembers : readMembers listed = .ok members)
    {name : String} {member : Member} (h : members.get? name = some member) :
    member.payload ∈ archive.payloads := by
  obtain ⟨_, names, _, _, hitems⟩ := readMembers_ok.mp hmembers
  have hitem := Dict.mem_items_of_get? h
  rw [hitems] at hitem
  unfold Archive.payloads
  rw [hlisted]
  exact List.mem_map_of_mem (List.of_mem_zip hitem).2

/-- **The contract pins the content**: any two archives accepted under it hold the same
    blobs, which are the parent index, the manifest, its config and its layers, and no other
    member but the fixed ones. -/
theorem accepted_archives_agree (py : Python) (contract : ArchiveContract) (tracked : Descriptor)
    (archive archive' : Archive) (expected expected' : Option ArchiveIdentity)
    (result result' : ArchiveIdentity × Descriptor × SelectedPlatform)
    (ht : contract.manifest = some tracked)
    (h : inspectArchive py archive contract expected = .ok result)
    (h' : inspectArchive py archive' contract expected' = .ok result')
    (hcollision : ∀ data ∈ archive.payloads, ∀ data' ∈ archive'.payloads,
      py.sha256 data = py.sha256 data' → data = data') :
    ∃ config layers payload, ImageBytes py contract tracked config layers payload ∧
      Holds archive (imageDigests contract tracked config layers) payload ∧
      Holds archive' (imageDigests contract tracked config layers) payload := by
  obtain ⟨listed, members, manifest, config, cd, layers, hlisted, hmembers, hc⟩ :=
    content_of_accepted ht h
  obtain ⟨listed', members', manifest', config', cd', layers', hlisted', hmembers', hc'⟩ :=
    content_of_accepted ht h'
  have hsame : ∀ digest ∈ imageDigests contract tracked cd layers,
      digest ∈ imageDigests contract tracked cd' layers' →
        payloadAt members digest = payloadAt members' digest := by
    intro digest hd hd'
    obtain ⟨member, hfound, he, hsha⟩ := hc.payload hd
    obtain ⟨member', hfound', he', hsha'⟩ := hc'.payload hd'
    rw [← he, ← he']
    exact hcollision _ (mem_payloads hlisted hmembers hfound) _
      (mem_payloads hlisted' hmembers' hfound') (hsha.trans hsha'.symm)
  have htracked : ∀ config layers, tracked.digest ∈ imageDigests contract tracked config layers :=
    fun _ _ => List.mem_cons_of_mem _ (List.mem_cons_self ..)
  -- the two manifests are the same bytes, so they list the same config and layers
  obtain ⟨m, hm, hconfig, hlayers⟩ := hc.bytes.manifest
  obtain ⟨m', hm', hconfig', hlayers'⟩ := hc'.bytes.manifest
  rw [hsame _ (htracked _ _) (htracked _ _), hm'] at hm
  obtain rfl := Json.obj.inj (Except.ok.inj hm)
  obtain rfl := Except.ok.inj (hconfig.symm.trans hconfig')
  obtain rfl := Except.ok.inj (hlayers.symm.trans hlayers')
  refine ⟨cd, layers, payloadAt members, hc.bytes, holds_of_content hlisted hmembers hc, ?_⟩
  exact (holds_of_content hlisted' hmembers' hc').congr fun digest hd => (hsame digest hd hd).symm

/-! ## The order of the members -/

section Order

variable {py : Python} {contract : ArchiveContract} {members members' : Dict String Member}

/-- Members in another order are read as the same table. -/
theorem readMembers_perm {listed listed' : List Member} (hperm : listed'.Perm listed)
    (h : readMembers listed = .ok members) : ∃ members', readMembers listed' = .ok members' ∧
      members'.items.Perm members.items ∧ ∀ name, members'.get? name = members.get? name := by
  obtain ⟨hcount, names, hnames, hnodup, hitems⟩ := readMembers_ok.mp h
  -- each member goes with its name
  have hpairs : List.Forall₂ (fun member item => item.2 = member ∧ ListedAs member item.1) listed
      members.items := by
    rw [hitems]
    clear hitems hnodup h hperm hcount
    induction hnames with
    | nil => exact .nil
    | cons hname _ ih => exact .cons ⟨rfl, hname⟩ ih
  obtain ⟨items, hlisted, hitemsPerm⟩ := List.perm_comp_forall₂ hperm hpairs
  have hlisted' : items.map Prod.snd = listed' := by
    clear hitemsPerm hperm
    induction hlisted with
    | nil => rfl
    | cons hitem _ ih => rw [List.map_cons, hitem.1, ih]
  have hnames' : List.Forall₂ ListedAs listed' (items.map Prod.fst) := by
    rw [List.forall₂_map_right_iff]
    exact hlisted.imp fun _ _ h => h.2
  have hkeys : members.keys = names := by
    unfold Dict.keys
    rw [hitems, List.map_fst_zip hnames.length_eq.ge]
  rw [← hkeys] at hnodup
  have hnodup' : (items.map Prod.fst).Nodup := (hitemsPerm.map Prod.fst).nodup_iff.mpr hnodup
  refine ⟨⟨items⟩, readMembers_ok.mpr ⟨hperm.length_eq ▸ hcount, items.map Prod.fst, hnames',
    hnodup', ?_⟩, hitemsPerm, fun name => Option.ext fun member => ?_⟩
  · rw [← hlisted', ← List.zip_of_prod rfl rfl]
  · rw [← Dict.mem_items_iff (show (⟨items⟩ : Dict String Member).keys.Nodup from hnodup'),
      ← Dict.mem_items_iff hnodup, hitemsPerm.mem_iff]

theorem verifyBlob_congr (h : ∀ name, members'.get? name = members.get? name) :
    verifyBlob py members' = verifyBlob py members := by
  funext descriptor verified
  unfold verifyBlob
  simp only [h]

theorem readRoot_congr (h : ∀ name, members'.get? name = members.get? name) :
    readRoot py members' = readRoot py members := by
  unfold readRoot
  rw [h, h]

theorem resolveRoot_congr (h : ∀ name, members'.get? name = members.get? name) :
    resolveRoot py members' contract = resolveRoot py members contract := by
  have hparent : readParentIndex py members' = readParentIndex py members := by
    funext descriptor verified
    unfold readParentIndex
    rw [verifyBlob_congr h]
  funext root
  unfold resolveRoot parentRoot directRoot
  simp only [hparent, h]

theorem readImage_congr (h : ∀ name, members'.get? name = members.get? name) :
    readImage py members' = readImage py members := by
  funext descriptor verified
  unfold readImage verifyLayers
  rw [verifyBlob_congr h]

/-- **The order of the members is none of the validator's concern.** -/
theorem inspectArchive_perm {archive archive' : Archive} {listed listed' : List Member}
    {expected : Option ArchiveIdentity} {result : ArchiveIdentity × Descriptor × SelectedPlatform}
    (hlisted : archive.members = .ok listed) (hlisted' : archive'.members = .ok listed')
    (hperm : listed'.Perm listed) (hregular : archive'.regular = true)
    (hunchanged : archive'.unchanged = true)
    (h : inspectArchive py archive contract expected = .ok result) :
    inspectArchive py archive' contract none = .ok (archive'.identity, result.2) := by
  unfold inspectArchive at h ⊢
  simp only [bind_ok, Prod.exists, raiseIf_ok, exists_const] at h ⊢
  obtain ⟨_, _, _, hread, members, hmembers, root, hroot, descriptor, record, verified, hresolve,
    hmedia, htracked, _, hrecord, config, verified', himage, _, hplatform, variant, hvariant,
    hclosed, _, hresult⟩ := h
  obtain rfl := Except.ok.inj (hlisted.symm.trans hread)
  obtain ⟨members', hmembers', hitems, hget⟩ := readMembers_perm hperm hmembers
  rw [← readRoot_congr hget] at hroot
  rw [← resolveRoot_congr hget] at hresolve
  rw [← readImage_congr hget] at himage
  have hincluded : (includedBlobs members').toFinset = (includedBlobs members).toFinset :=
    List.toFinset_eq_of_perm _ _ ((hitems.filter _).map _)
  have hfile : checkFile archive' none = .ok () := by
    unfold checkFile
    rw [hregular]
    rfl
  refine ⟨(), hfile, listed', hlisted', members', hmembers', root, hroot, descriptor, record,
    verified, hresolve, hmedia, htracked, (), hrecord, config, verified', himage, (), hplatform,
    variant, hvariant, hincluded.symm ▸ hclosed, not_not.mpr hunchanged, ?_⟩
  rw [← pure_ok.mp hresult]
  rfl

end Order

/-- The bytes of the members of the sample. -/
def shortPayloads : List Bytes :=
  [[], layoutBytes, Sample.indexFile 0, Sample.parentBytes 0,
    Sample.compact (.obj Sample.manifest), Sample.compact (.obj Sample.config), Sample.layer]

theorem mem_shortPayloads {path : String} {identity : ArchiveIdentity} {data : Bytes}
    (h : data ∈ (archiveOf path identity ((writtenItems (Sample.python 0 Sample.shortDigest)
      (Sample.contract Sample.shortDigest) (Sample.gathered 0 Sample.shortDigest)).map
        Prod.snd)).payloads) : data ∈ shortPayloads := by
  obtain ⟨member, hmember, rfl⟩ := List.mem_map.mp h
  obtain ⟨item, hitem, rfl⟩ := List.mem_map.mp hmember
  unfold writtenItems at hitem
  rw [Sample.indexBytes_eq] at hitem
  rcases List.mem_append.mp hitem with hitem | hitem
  · simp only [List.mem_cons, List.not_mem_nil, or_false] at hitem
    rcases hitem with rfl | rfl | rfl | rfl <;>
      simp [shortPayloads, directoryMember, fileMember]
  · obtain ⟨digest, _, rfl⟩ := List.mem_map.mp hitem
    show ((Sample.gathered 0 Sample.shortDigest).blobs.get? digest).elim [] Stored.data ∈ _
    cases hget : (Sample.gathered 0 Sample.shortDigest).blobs.get? digest with
    | none => exact List.mem_cons_self ..
    | some stored =>
      have hmem := Dict.mem_items_of_get? hget
      simp only [Sample.gathered, List.mem_cons, List.not_mem_nil, or_false,
        Prod.mk.injEq] at hmem
      rcases hmem with ⟨_, rfl⟩ | ⟨_, rfl⟩ | ⟨_, rfl⟩ | ⟨_, rfl⟩ <;>
        simp [shortPayloads, Stored.data]

/-- The digests of the sample are those of the members, in their order. -/
theorem short_digests : shortPayloads.map (Sample.python 0 Sample.shortDigest).sha256 =
    ["e3b0c44298fc1c149afbf4c8996fb92427ae41e4649b934ca495991b7852b855",
      "561356159fc692da9a55978e206a495b7835abcc4778fa9d13138a0530304878",
      "c04d5572b60106e62fec16214c604f0f5d4489011a91bb2bdcf524c904822b02",
      "707c95122336b89d28876f1de60d51932fdf8923deaefa2ff558f317db3708a1",
      "a2b32d642a28b6d722f182406266bd101a0c88cb8d7ef3b3f1b9992be8af04b6",
      "d6f56bc20064075ce319ac2e6fcef5de9ea21773b0a8a4398c4405222971f9c0",
      "7ee4c3ec0b4ee3b9fd76755e03fc705c96866c89a610ccf10080a37899744a5b"] := by
  decide +kernel

/-- No two members of the sample collide. -/
theorem short_apart : ∀ data ∈ shortPayloads, ∀ data' ∈ shortPayloads,
    (Sample.python 0 Sample.shortDigest).sha256 data =
      (Sample.python 0 Sample.shortDigest).sha256 data' → data = data' := by
  have hnodup : (shortPayloads.map (Sample.python 0 Sample.shortDigest).sha256).Nodup := by
    rw [short_digests]
    decide
  intro data hdata data' hdata' he
  exact List.inj_on_of_nodup_map hnodup hdata hdata' he

/-- One image in two archives, of which the second lists the members the other way round. -/
theorem accepted_archives_agree_copy : ∃ members,
    writeArchive (Sample.python 0 Sample.shortDigest) (Sample.contract Sample.shortDigest)
      (Sample.gathered 0 Sample.shortDigest) = .ok members ∧
    ∃ config layers payload,
      ImageBytes (Sample.python 0 Sample.shortDigest) (Sample.contract Sample.shortDigest)
        Sample.tracked config layers payload ∧
      Holds (archiveOf "ubuntu.tar" ⟨"", 0⟩ members)
        (imageDigests (Sample.contract Sample.shortDigest) Sample.tracked config layers) payload ∧
      Holds (archiveOf "copy.tar" ⟨"ff", 9⟩ members.reverse)
        (imageDigests (Sample.contract Sample.shortDigest) Sample.tracked config layers)
          payload := by
  have hwritten := @Sample.written 0 Sample.shortDigest (by decide)
  have haccepted := (accepted_iff Sample.loaded_short
    (Sample.acquired Sample.fresh_short (by decide)) hwritten
    (Sample.faithful Sample.fresh_short) "ubuntu.tar" ⟨"", 0⟩).mpr ⟨?_, ?_⟩
  · obtain ⟨tracked, identity, platform, ht, h⟩ := haccepted
    have h' : inspectArchive (Sample.python 0 Sample.shortDigest)
        (archiveOf "copy.tar" ⟨"ff", 9⟩ _) (Sample.contract Sample.shortDigest) none = .ok _ :=
      inspectArchive_perm rfl rfl (List.reverse_perm _) rfl rfl h
    refine ⟨_, hwritten, accepted_archives_agree _ _ _ _ _ none none _ _ rfl h h'
      fun data hdata data' hdata' => short_apart data (mem_shortPayloads hdata) data'
        (@mem_shortPayloads "ubuntu.tar" ⟨"", 0⟩ data' ?_)⟩
    obtain ⟨member, hmember, hpayload⟩ := List.mem_map.mp hdata'
    exact List.mem_map.mpr ⟨member, List.mem_reverse.mp hmember, hpayload⟩
  · rw [List.length_map]
    exact Sample.length_writtenItems.trans (by decide)
  · rw [Sample.indexBytes_eq, Sample.length_indexFile]
    decide

end BuckosDistro.Oci
