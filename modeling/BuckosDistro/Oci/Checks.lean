/-
  What the checks of the validator let through, one lemma for each function.
-/
import BuckosDistro.Oci.Archive

namespace BuckosDistro.Oci

open BuckosDistro.Lib
open BuckosDistro.Lib.Raise

/-! ## Members -/

/-- The two namespace members are directories, all others are files. -/
def RightKind (name : String) (member : Member) : Prop :=
  if name ∈ ["blobs", "blobs/sha256"] then member.kind = .directory else member.kind = .file

/-- The member is listed under a name it may have. -/
def ListedAs (member : Member) (name : String) : Prop :=
  normalizeMemberName member.name = .ok name ∧ RightKind name member

theorem admitMember_ok {members members' : Dict String Member} {entry : Member × ℕ} :
    admitMember members entry = .ok members' ↔
      entry.2 ≤ maxMembers ∧ ∃ name, ListedAs entry.1 name ∧ members.get? name = none ∧
        members' = members.set name entry.1 := by
  unfold admitMember ListedAs RightKind
  simp only [bind_ok, raiseIf_ok, Nat.not_lt, exists_and_left, exists_const,
    Bool.not_eq_true, Option.isSome_eq_false_iff, Option.isNone_iff_eq_none]
  refine and_congr_right fun _ => exists_congr fun name => ?_
  split_ifs with hname
  · simp only [bind_ok, raiseIf_ok, pure_ok, not_not, exists_const, ne_eq]
    tauto
  · simp only [bind_ok, raiseIf_ok, pure_ok, not_not, exists_const, ne_eq]
    tauto

/-- The loop over the members goes through when there are not too many, and all are listed
    under names of their own. -/
theorem foldlM_admitMember {members : List Member} {first : ℕ} {d d' : Dict String Member}
    (hd : d.keys.Nodup) :
    (members.zipIdx first).foldlM admitMember d = .ok d' ↔
      (∀ i < members.length, first + i ≤ maxMembers) ∧ ∃ names,
        List.Forall₂ ListedAs members names ∧ (d.keys ++ names).Nodup ∧
          d'.items = d.items ++ names.zip members := by
  induction members generalizing first d with
  | nil =>
    constructor
    · intro h
      obtain rfl := Except.ok.inj h
      refine ⟨fun i hi => absurd hi (Nat.not_lt_zero i), [], .nil, ?_, ?_⟩
      · rwa [List.append_nil]
      · exact (List.append_nil _).symm
    · rintro ⟨_, names, hlisted, _, hitems⟩
      cases hlisted
      rw [List.zip_nil_left, List.append_nil] at hitems
      show Except.ok d = Except.ok d'
      rw [show d' = d from congrArg Dict.mk hitems]
  | cons member members ih =>
    rw [List.zipIdx_cons, List.foldlM_cons, bind_ok]
    have hkeys : ∀ name, d.get? name = none → (d.set name member).keys = d.keys ++ [name] := by
      intro name hn
      unfold Dict.keys
      rw [Dict.items_set_of_none hn, List.map_append]
      rfl
    constructor
    · rintro ⟨mid, hmid, hrest⟩
      obtain ⟨hfirst, name, hname, hn, rfl⟩ := admitMember_ok.mp hmid
      obtain ⟨hcount, names, hlisted, hnodup, hitems⟩ :=
        (ih (Dict.nodup_keys_set hd _ _)).mp hrest
      rw [hkeys name hn, List.append_assoc] at hnodup
      rw [Dict.items_set_of_none hn, List.append_assoc] at hitems
      refine ⟨fun i hi => ?_, name :: names, .cons hname hlisted, hnodup, hitems⟩
      rcases i with _ | i
      · exact hfirst
      · have := hcount i (Nat.lt_of_succ_lt_succ hi)
        omega
    · rintro ⟨hcount, names, hlisted, hnodup, hitems⟩
      cases hlisted with
      | @cons _ name _ names hname hlisted =>
        have hn : d.get? name = none := by
          by_contra hne
          have hmem : name ∈ d.keys :=
            Dict.mem_keys_iff.mpr (Option.ne_none_iff_isSome.mp hne)
          exact (List.nodup_append.mp hnodup).2.2 name hmem name (List.mem_cons_self ..) rfl
        refine ⟨d.set name member, admitMember_ok.mpr ⟨hcount 0 (Nat.zero_lt_succ _), name, hname,
          hn, rfl⟩, (ih (Dict.nodup_keys_set hd _ _)).mpr ⟨fun i hi => ?_, names, hlisted, ?_, ?_⟩⟩
        · have := hcount (i + 1) (Nat.succ_lt_succ hi)
          omega
        · rwa [hkeys name hn, List.append_assoc]
        · rw [Dict.items_set_of_none hn, List.append_assoc]
          exact hitems

theorem readMembers_ok {members : List Member} {d : Dict String Member} :
    readMembers members = .ok d ↔ members.length ≤ maxMembers ∧ ∃ names,
      List.Forall₂ ListedAs members names ∧ names.Nodup ∧ d.items = names.zip members := by
  have hempty : (Dict.empty : Dict String Member).keys.Nodup := List.nodup_nil
  unfold readMembers
  rw [foldlM_admitMember hempty]
  have hcount : (∀ i < members.length, 1 + i ≤ maxMembers) ↔ members.length ≤ maxMembers := by
    constructor
    · intro h
      by_contra hgt
      have := h (members.length - 1) (by omega)
      omega
    · intro h i hi
      omega
  rw [hcount]
  rfl

/-- The fixed members. -/
def fixedNames : List String := ["oci-layout", "index.json", "blobs", "blobs/sha256"]

theorem prefix_of_parts {name : List Char}
    (h : (name.splitOn '/').take 2 = ["blobs".toList, "sha256".toList]) :
    "blobs/".toList <+: name := by
  obtain ⟨rest, hrest⟩ : ∃ rest, name.splitOn '/' = "blobs".toList :: "sha256".toList :: rest :=
    ⟨(name.splitOn '/').drop 2, by
      conv_lhs => rw [← List.take_append_drop 2 (name.splitOn '/'), h]
      rfl⟩
  rw [← @List.intercalate_splitOn _ name _ _ '/', hrest]
  exact ⟨['/'].intercalate ("sha256".toList :: rest), by rw [List.intercalate_cons_cons]; rfl⟩

/-- The name of a member is one of the fixed ones, or that of a blob. -/
theorem normalized_name {text name : String} (h : normalizeMemberName text = .ok name) :
    name ∈ fixedNames ∨ "blobs/".toList <+: name.toList := by
  unfold normalizeMemberName at h
  simp only [bind_ok, raiseIf_ok, exists_const] at h
  obtain ⟨_, _, h⟩ := h
  split_ifs at h with _ hfixed hblob hfixed hblob
  · rw [← pure_ok.mp h]
    exact Or.inl hfixed
  · obtain ⟨rest, hrest⟩ := prefix_of_parts hblob.2.1
    rw [← pure_ok.mp h]
    exact Or.inr ⟨rest, hrest.trans String.toList_ofList.symm⟩
  · rw [← pure_ok.mp h]
    exact Or.inl hfixed
  · obtain ⟨rest, hrest⟩ := prefix_of_parts hblob.2.1
    rw [← pure_ok.mp h]
    exact Or.inr ⟨rest, hrest.trans String.toList_ofList.symm⟩

/-! ## Blobs -/

/-- Every identity recorded is that of the member of its name. -/
def Hashed (py : Python) (members : Dict String Member)
    (verified : Dict String ArchiveIdentity) : Prop :=
  ∀ name identity, verified.get? name = some identity →
    ∃ member, members.get? name = some member ∧ identity = hashMember py member

theorem hashed_empty (py : Python) (members : Dict String Member) :
    Hashed py members .empty := by
  intro name identity h
  cases h

/-- The blob of a descriptor: there, with its size and its digest. -/
structure Blob (py : Python) (members : Dict String Member) (descriptor : Descriptor)
    (member : Member) : Prop where
  found : members.get? (blobName descriptor.digest) = some member
  size : member.size = descriptor.size
  digest : py.sha256 member.payload = removePrefix sha256Prefix descriptor.digest
  length : member.payload.length = descriptor.size

theorem verifyBlob_ok {py : Python} {members : Dict String Member} {descriptor : Descriptor}
    {verified verified' : Dict String ArchiveIdentity} {member : Member}
    (hv : Hashed py members verified) :
    verifyBlob py members descriptor verified = .ok (member, verified') ↔
      Blob py members descriptor member ∧ verified' =
        verified.setDefault (blobName descriptor.digest) (hashMember py member) := by
  unfold verifyBlob
  simp only [bind_ok, needed_ok, raiseIf_ok, pure_ok, not_not, ne_eq, exists_const,
    Prod.mk.injEq]
  have hidentity : ∀ m, members.get? (blobName descriptor.digest) = some m →
      (verified.get? (blobName descriptor.digest)).getD (hashMember py m) = hashMember py m := by
    intro m hm
    cases hid : verified.get? (blobName descriptor.digest) with
    | none => rfl
    | some identity =>
      obtain ⟨m', hm', rfl⟩ := hv _ _ hid
      obtain rfl := Option.some.inj (hm.symm.trans hm')
      rfl
  constructor
  · rintro ⟨m, hm, hsize, hdigest, hlength, rfl, hv'⟩
    rw [hidentity m hm] at hdigest hlength hv'
    exact ⟨⟨hm, hsize, hdigest, hlength⟩, hv'.symm⟩
  · rintro ⟨h, rfl⟩
    refine ⟨member, h.found, h.size, ?_⟩
    rw [hidentity member h.found]
    exact ⟨h.digest, h.length, rfl, rfl⟩

theorem Hashed.setDefault {py : Python} {members : Dict String Member}
    {verified : Dict String ArchiveIdentity} (hv : Hashed py members verified) {name : String}
    {member : Member} (hm : members.get? name = some member) :
    Hashed py members (verified.setDefault name (hashMember py member)) := by
  intro other identity h
  rw [Dict.get?_setDefault] at h
  rcases Option.or_eq_some_iff.mp h with h | ⟨_, h⟩
  · exact hv other identity h
  · split_ifs at h with ho
    exact ⟨member, ho ▸ hm, (Option.some.inj h).symm⟩

theorem keys_setDefault {d : Dict String ArchiveIdentity} {name : String}
    {identity : ArchiveIdentity} (other : String) :
    other ∈ (d.setDefault name identity).keys ↔ other ∈ d.keys ∨ other = name := by
  rw [Dict.mem_keys_iff, Dict.mem_keys_iff, Dict.get?_setDefault, Option.isSome_or]
  split_ifs with h
  · simp [h]
  · simp [h]

/-! ## Documents -/

@[simp] theorem object_ok {value : Json} {label : String} {fields : Fields} :
    object value label = .ok fields ↔ value = .obj fields := by
  unfold object
  split
  · rename_i given
    constructor
    · intro h
      rw [Except.ok.inj h]
    · intro h
      rw [Json.obj.inj h]
  · rename_i hne
    constructor
    · intro h
      cases h
    · intro h
      exact absurd h (hne fields)

@[simp] theorem decodeJson_ok {py : Python} {data : Bytes} {label : String} {value : Json} :
    decodeJson py data label = .ok value ↔ py.loads data = .ok value := by
  unfold decodeJson
  split
  · rename_i given hgiven
    rw [hgiven]
    exact ⟨fun h => by rw [Except.ok.inj h], fun h => by rw [Except.ok.inj h]⟩
  · rename_i hgiven
    rw [hgiven]
    exact ⟨fun h => (nomatch h), fun h => (nomatch h)⟩
  · rename_i hgiven
    rw [hgiven]
    exact ⟨fun h => (nomatch h), fun h => (nomatch h)⟩

/-- A file that is read in full, and is a JSON object. -/
structure Reads (py : Python) (member : Member) (fields : Fields) : Prop where
  file : member.kind = .file
  small : member.size ≤ maxJsonSize
  whole : member.payload.length = member.size
  value : py.loads member.payload = .ok (.obj fields)

theorem readObject_ok {py : Python} {member : Member} {label : String} {fields : Fields} :
    readObject py member label = .ok fields ↔ Reads py member fields := by
  unfold readObject readMember
  simp only [bind_ok, raiseIf_ok, pure_ok, not_not, ne_eq, exists_const, decodeJson_ok,
    object_ok, Nat.not_lt]
  constructor
  · rintro ⟨data, ⟨hsmall, hfile, hlen, rfl⟩, value, hvalue, rfl⟩
    rw [List.length_take] at hlen
    have hwhole : member.payload.length = member.size := by omega
    rw [List.take_of_length_le (by omega)] at hvalue
    exact ⟨hfile, hsmall, hwhole, hvalue⟩
  · intro h
    have htake : member.payload.take (maxJsonSize + 1) = member.payload :=
      List.take_of_length_le (by rw [h.whole]; exact Nat.le_succ_of_le h.small)
    refine ⟨_, ⟨h.small, h.file, ?_, rfl⟩, _, ?_, rfl⟩
    · rw [htake, h.whole]
    · rw [htake, h.value]

theorem readParentIndex_ok {py : Python} {members : Dict String Member} {descriptor : Descriptor}
    {verified verified' : Dict String ArchiveIdentity} {parent : Fields}
    (hv : Hashed py members verified) :
    readParentIndex py members descriptor verified = .ok (parent, verified') ↔
      ∃ member, Blob py members descriptor member ∧ Reads py member parent ∧
        notAnIndex parent = false ∧
          verified' = verified.setDefault (blobName descriptor.digest) (hashMember py member) := by
  unfold readParentIndex
  simp only [bind_ok, raiseIf_ok, pure_ok, exists_const, Prod.exists, verifyBlob_ok hv,
    readObject_ok, Bool.not_eq_true, Prod.mk.injEq]
  constructor
  · rintro ⟨member, v, ⟨hblob, rfl⟩, fields, hreads, hindex, rfl, rfl⟩
    exact ⟨member, hblob, hreads, hindex, rfl⟩
  · rintro ⟨member, hblob, hreads, hindex, rfl⟩
    exact ⟨member, _, ⟨hblob, rfl⟩, parent, hreads, hindex, rfl, rfl⟩

/-! ## The image -/

/-- Every blob of the list is there, and is marked. -/
structure Verified (py : Python) (members : Dict String Member) (blobs : List Descriptor)
    (before verified : Dict String ArchiveIdentity) : Prop where
  hashed : Hashed py members verified
  there : ∀ descriptor ∈ blobs, ∃ member, Blob py members descriptor member
  marked : ∀ name, name ∈ verified.keys ↔
    name ∈ before.keys ∨ ∃ descriptor ∈ blobs, name = blobName descriptor.digest

theorem Verified.one {py : Python} {members : Dict String Member} {descriptor : Descriptor}
    {before : Dict String ArchiveIdentity} {member : Member} (hb : Hashed py members before)
    (h : Blob py members descriptor member) :
    Verified py members [descriptor] before
      (before.setDefault (blobName descriptor.digest) (hashMember py member)) := by
  refine ⟨hb.setDefault h.found, fun d hd => ?_, fun name => ?_⟩
  · rw [List.mem_singleton.mp hd]
    exact ⟨member, h⟩
  · rw [keys_setDefault]
    simp only [List.mem_singleton, exists_eq_left]

theorem Verified.append {py : Python} {members : Dict String Member} {xs ys : List Descriptor}
    {a b c : Dict String ArchiveIdentity} (h : Verified py members xs a b)
    (h' : Verified py members ys b c) : Verified py members (xs ++ ys) a c := by
  refine ⟨h'.hashed, fun d hd => ?_, fun name => ?_⟩
  · rcases List.mem_append.mp hd with hd | hd
    · exact h.there d hd
    · exact h'.there d hd
  · rw [h'.marked, h.marked]
    simp only [List.mem_append, or_and_right, exists_or, or_assoc]

/-- The layers are verified exactly when all their blobs are there. -/
theorem verifyLayers_ok {py : Python} {members : Dict String Member} {layers : List Descriptor}
    {verified verified' : Dict String ArchiveIdentity} (hv : Hashed py members verified)
    (h : verifyLayers py members layers verified = .ok verified') :
    Verified py members layers verified verified' := by
  unfold verifyLayers at h
  induction layers generalizing verified with
  | nil =>
    obtain rfl := Except.ok.inj h
    exact ⟨hv, fun d hd => absurd hd List.not_mem_nil, fun name => by simp⟩
  | cons layer layers ih =>
    rw [List.foldlM_cons] at h
    simp only [bind_ok, Prod.exists, pure_ok, verifyBlob_ok hv] at h
    obtain ⟨_, ⟨member, _, ⟨hblob, rfl⟩, rfl⟩, h⟩ := h
    have hone := Verified.one hv hblob
    exact hone.append (ih hone.hashed h)

theorem exists_verifyLayers {py : Python} {members : Dict String Member}
    {layers : List Descriptor} {verified : Dict String ArchiveIdentity}
    (hv : Hashed py members verified)
    (h : ∀ layer ∈ layers, ∃ member, Blob py members layer member) :
    ∃ verified', verifyLayers py members layers verified = .ok verified' := by
  unfold verifyLayers
  induction layers generalizing verified with
  | nil => exact ⟨verified, rfl⟩
  | cons layer layers ih =>
    obtain ⟨member, hblob⟩ := h layer (List.mem_cons_self ..)
    obtain ⟨verified', hrest⟩ := ih (hv.setDefault hblob.found)
      fun l hl => h l (List.mem_cons_of_mem _ hl)
    refine ⟨verified', ?_⟩
    rw [List.foldlM_cons]
    simp only [bind_ok, Prod.exists, pure_ok, verifyBlob_ok hv]
    exact ⟨_, ⟨member, _, ⟨hblob, rfl⟩, rfl⟩, hrest⟩

/-- The image a manifest describes. -/
structure Image (py : Python) (members : Dict String Member) (descriptor : Descriptor)
    (manifest config : Fields) (configDescriptor : Descriptor) (layers : List Descriptor) :
    Prop where
  manifestBlob : ∃ member, Blob py members descriptor member ∧ Reads py member manifest
  schema : (getKey manifest "schemaVersion").pyEq (.int 2) = true
  mediaType : (getKey manifest "mediaType").pyEq .null = true ∨
    (getKey manifest "mediaType").pyEq (.str descriptor.mediaType) = true
  configField :
    ociDescriptor (getKey manifest "config") "OCI image config" = .ok configDescriptor
  layersField : layersOf manifest = .ok layers
  configBlob : ∃ member, Blob py members configDescriptor member ∧ Reads py member config
  layerBlobs : ∀ layer ∈ layers, ∃ member, Blob py members layer member

theorem readImage_ok {py : Python} {members : Dict String Member} {descriptor : Descriptor}
    {verified verified' : Dict String ArchiveIdentity} {config : Fields}
    (hv : Hashed py members verified)
    (h : readImage py members descriptor verified = .ok (config, verified')) :
    ∃ manifest configDescriptor layers,
      Image py members descriptor manifest config configDescriptor layers ∧
        Verified py members (descriptor :: configDescriptor :: layers) verified verified' := by
  unfold readImage at h
  simp only [bind_ok, raiseIf_ok, pure_ok, exists_const, Prod.exists, verifyBlob_ok hv,
    readObject_ok, Prod.mk.injEq] at h
  obtain ⟨mm, _, ⟨hmblob, rfl⟩, manifest, hmreads, hschema, hmedia, cd, hcd, layers, hlayers,
    cm, v2, hconfig, v3, hlast, config', hcreads, rfl, rfl⟩ := h
  have hone := Verified.one hv hmblob
  obtain ⟨hcblob, rfl⟩ := (verifyBlob_ok hone.hashed).mp hconfig
  have htwo := Verified.one hone.hashed hcblob
  have hthree := verifyLayers_ok htwo.hashed hlast
  refine ⟨manifest, cd, layers, ⟨⟨mm, hmblob, hmreads⟩, not_not.mp hschema, ?_, hcd, hlayers,
    ⟨cm, hcblob, hcreads⟩, hthree.there⟩, hone.append (htwo.append hthree)⟩
  by_contra hnot
  rw [not_or] at hnot
  exact hmedia hnot

theorem exists_readImage {py : Python} {members : Dict String Member} {descriptor : Descriptor}
    {verified : Dict String ArchiveIdentity} {manifest config : Fields}
    {configDescriptor : Descriptor} {layers : List Descriptor} (hv : Hashed py members verified)
    (h : Image py members descriptor manifest config configDescriptor layers) :
    ∃ verified', readImage py members descriptor verified = .ok (config, verified') ∧
      Verified py members (descriptor :: configDescriptor :: layers) verified verified' := by
  obtain ⟨mm, hmblob, hmreads⟩ := h.manifestBlob
  obtain ⟨cm, hcblob, hcreads⟩ := h.configBlob
  have hone := Verified.one hv hmblob
  have htwo := Verified.one hone.hashed hcblob
  obtain ⟨v3, hlast⟩ := exists_verifyLayers htwo.hashed h.layerBlobs
  refine ⟨v3, ?_, hone.append (htwo.append (verifyLayers_ok htwo.hashed hlast))⟩
  unfold readImage
  simp only [bind_ok, raiseIf_ok, pure_ok, exists_const, Prod.exists, verifyBlob_ok hv,
    readObject_ok, Prod.mk.injEq]
  refine ⟨mm, _, ⟨hmblob, rfl⟩, manifest, hmreads, not_not.mpr h.schema, ?_, configDescriptor,
    h.configField, layers, h.layersField, cm, _, (verifyBlob_ok hone.hashed).mpr ⟨hcblob, rfl⟩,
    v3, hlast,
    config, hcreads, rfl, rfl⟩
  rintro ⟨h1, h2⟩
  exact h.mediaType.elim h1 h2

end BuckosDistro.Oci
