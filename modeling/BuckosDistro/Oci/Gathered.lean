/-
  What has been gathered when the archive is written.

  Each check of `_acquire_image` is turned into what the validator asks for: the platforms
  match for both or for neither, descriptors read alike, and every blob is stored with the
  digest and the size of its descriptors.
-/
import BuckosDistro.Oci.Names

namespace BuckosDistro.Oci

open BuckosDistro.Lib
open BuckosDistro.Lib.Raise

/-! ## Platforms -/

theorem pyEq_null {value : Json} : value.pyEq .null = true ↔ value = .null := by
  cases value <;> simp [Json.pyEq, Json.scalarEq, Json.numeric]

theorem pyEq_str {value : Json} {text : String} :
    value.pyEq (.str text) = true ↔ value = .str text := by
  cases value <;> simp [Json.pyEq, Json.scalarEq, Json.numeric]

theorem pyEq_text {value : Json} {text : Option String} :
    value.pyEq (text.elim .null .str) = true ↔ value = text.elim .null .str := by
  cases text with
  | none => exact pyEq_null
  | some text => exact pyEq_str

/-- The keys a platform may have. -/
def platformKeys : List String := ["os", "architecture", "variant"]

/-- The texts of a platform, in the order of the keys. -/
def listed (texts : String → Option String) : List (String × String) :=
  platformKeys.filterMap fun key => (texts key).map fun text => (key, text)

/-- The texts a contract states. -/
def statedTexts (contract : ArchiveContract) (key : String) : Option String :=
  if key = "os" then some contract.os
  else if key = "architecture" then some contract.ociArchitecture
  else contract.variant

theorem listed_statedTexts (contract : ArchiveContract) :
    listed (statedTexts contract) = expectedPlatform contract := by
  unfold listed platformKeys expectedPlatform statedTexts
  cases contract.variant <;> rfl

theorem listed_inj {texts texts' : String → Option String} (h : listed texts = listed texts')
    {key : String} (hk : key ∈ platformKeys) : texts key = texts' key := by
  have hlookup : ∀ t : String → Option String, (listed t).lookup key = t key :=
    fun t => Dict.get?_filterMap t fun hn => absurd hk hn
  rw [← hlookup texts, h, hlookup]

/-- The text of a key. -/
def textAt (record : Fields) (key : String) : Option String :=
  match getKey record key with
  | .str text => some text
  | _ => none

theorem getKey_of_not_hasKey {record : Fields} {key : String} (h : hasKey record key = false) :
    getKey record key = .null := by
  unfold hasKey at h
  unfold getKey
  rw [Option.isNone_iff_eq_none.mp (Option.isSome_eq_false_iff.mp h)]
  rfl

/-- One value of a platform. -/
def platformEntry (record : Fields) (label key : String) : Except String (String × String) :=
  match getKey record key with
  | .str text =>
    if text = "" then .error (label ++ " values must be non-empty strings")
    else .ok (key, text)
  | _ => .error (label ++ " values must be non-empty strings")

theorem platformEntry_ok {record : Fields} {label key : String} {entry : String × String} :
    platformEntry record label key = .ok entry ↔
      ∃ text, getKey record key = .str text ∧ text ≠ "" ∧ entry = (key, text) := by
  unfold platformEntry
  split
  · rename_i given hgiven
    split_ifs with hempty
    · refine ⟨fun h => (nomatch h), ?_⟩
      rintro ⟨text, htext, hne, _⟩
      exact absurd (Json.str.inj (hgiven.symm.trans htext) ▸ hempty) hne
    · constructor
      · intro h
        exact ⟨given, hgiven, hempty, (Except.ok.inj h).symm⟩
      · rintro ⟨text, htext, _, rfl⟩
        rw [Json.str.inj (hgiven.symm.trans htext)]
  · rename_i hne
    refine ⟨fun h => (nomatch h), ?_⟩
    rintro ⟨text, htext, _, _⟩
    exact absurd htext (hne text)

/-- A platform that is read has texts for its keys. -/
theorem platformOf_ok {value : Json} {label : String} {platform : List (String × String)}
    (h : platformOf value label = .ok platform) :
    ∃ record, value = .obj record ∧ platform = listed (textAt record) ∧
      ∀ key ∈ platformKeys, getKey record key = (textAt record key).elim .null .str := by
  unfold platformOf at h
  simp only [bind_ok, object_ok] at h
  obtain ⟨record, rfl, h⟩ := h
  have hkeys : ∀ (keys : List String) (platform : List (String × String)),
      (keys.filter (hasKey record)).mapM (platformEntry record label) = .ok platform →
        platform = (keys.filterMap fun key => (textAt record key).map fun text => (key, text)) ∧
          ∀ key ∈ keys, getKey record key = (textAt record key).elim .null .str := by
    intro keys
    induction keys with
    | nil =>
      intro platform h
      exact ⟨(Except.ok.inj h).symm, fun key hkey => absurd hkey List.not_mem_nil⟩
    | cons key keys ih =>
      intro platform h
      by_cases hkey : hasKey record key = true
      · rw [List.filter_cons_of_pos hkey, List.mapM_cons] at h
        simp only [bind_ok, pure_ok, platformEntry_ok] at h
        obtain ⟨_, ⟨text, htext, _, rfl⟩, rest, hrest, rfl⟩ := h
        obtain ⟨rfl, hall⟩ := ih rest hrest
        have hat : textAt record key = some text := by
          unfold textAt
          rw [htext]
        refine ⟨by rw [List.filterMap_cons, hat]; rfl, fun other hother => ?_⟩
        rcases List.mem_cons.mp hother with rfl | hother
        · rw [htext, hat]
          rfl
        · exact hall other hother
      · rw [List.filter_cons_of_neg hkey] at h
        obtain ⟨rfl, hall⟩ := ih platform h
        have hnull := getKey_of_not_hasKey (Bool.not_eq_true _ ▸ hkey)
        have hat : textAt record key = none := by
          unfold textAt
          rw [hnull]
        refine ⟨by rw [List.filterMap_cons, hat]; rfl, fun other hother => ?_⟩
        rcases List.mem_cons.mp hother with rfl | hother
        · rw [hnull, hat]
          rfl
        · exact hall other hother
  obtain ⟨hplatform, htexts⟩ := hkeys platformKeys platform h
  exact ⟨record, rfl, hplatform, htexts⟩

theorem samePlatform_iff {record : Fields} {contract : ArchiveContract}
    (henforce : contract.enforceVariant = true) :
    samePlatform record contract = true ↔ ∀ key ∈ platformKeys,
      getKey record key = (statedTexts contract key).elim .null .str := by
  unfold samePlatform platformKeys
  rw [henforce]
  simp only [Bool.and_eq_true, pyEq_str, Bool.not_true, Bool.false_or, pyEq_text,
    List.forall_mem_cons, List.not_mem_nil, false_imp_iff, forall_const, and_true]
  exact and_assoc

theorem elim_inj {text text' : Option String}
    (h : text.elim Json.null .str = text'.elim Json.null .str) : text = text' := by
  cases text with
  | none =>
    cases text' with
    | none => rfl
    | some t => cases h
  | some t =>
    cases text' with
    | none => cases h
    | some t' => exact congrArg some (Json.str.inj h)

/-- Both tools agree whether a platform is that of the contract. -/
theorem platformOf_matches {value : Json} {label : String} {contract : ArchiveContract}
    {platform : List (String × String)} (henforce : contract.enforceVariant = true)
    (h : platformOf value label = .ok platform) :
    ∃ record, value = .obj record ∧
      (platform = expectedPlatform contract ↔ samePlatform record contract = true) := by
  obtain ⟨record, rfl, rfl, htexts⟩ := platformOf_ok h
  refine ⟨record, rfl, ?_⟩
  rw [samePlatform_iff henforce, ← listed_statedTexts]
  constructor
  · intro he key hkey
    rw [htexts key hkey, listed_inj he hkey]
  · intro hall
    have hsame : ∀ key ∈ platformKeys, textAt record key = statedTexts contract key :=
      fun key hkey => elim_inj ((htexts key hkey).symm.trans (hall key hkey))
    unfold listed
    refine List.filterMap_congr fun key hkey => ?_
    rw [hsame key hkey]

/-! ## The manifest of the contract -/

/-- A record the parent index was searched for. -/
structure Tracked (contract : ArchiveContract) (selected : Selected) : Prop where
  describes : Describes selected.2.2 selected.2.1
  platform : ∃ platform, getKey selected.2.2 "platform" = .obj platform ∧
    samePlatform platform contract = true

theorem selectStep_ok {contract : ArchiveContract} {found found' : List Selected × List String}
    {child : Json × ℕ} (henforce : contract.enforceVariant = true)
    (h : matchStep contract found child = .ok found') :
    selectStep contract found child = .ok found' ∧
      ((∀ selected ∈ found.1, Tracked contract selected) →
        ∀ selected ∈ found'.1, Tracked contract selected) := by
  unfold matchStep at h
  simp only [bind_ok, object_ok, raiseIf_ok, exists_const, registryDescriptor_ok] at h
  obtain ⟨record, hrecord, descriptor, ⟨record', hrecord', hdescribes⟩, hnew, h⟩ := h
  obtain rfl := Json.obj.inj (hrecord.symm.trans hrecord')
  unfold selectStep
  simp only [bind_ok, object_ok, raiseIf_ok, exists_const, ociDescriptor_ok]
  by_cases hnull : (getKey record "platform").pyEq .null = true
  · rw [if_pos hnull] at h
    rw [← pure_ok.mp h]
    refine ⟨⟨record, hrecord, descriptor, ⟨record, hrecord, hdescribes⟩, hnew, ?_⟩, id⟩
    rw [pyEq_null.mp hnull]
    rfl
  · rw [if_neg hnull] at h
    obtain ⟨platform, hplatform, h⟩ := bind_ok.mp h
    obtain ⟨fields, hfields, hiff⟩ := platformOf_matches henforce hplatform
    by_cases hmatch : samePlatform fields contract = true
    · rw [if_pos (hiff.mpr hmatch)] at h
      rw [← pure_ok.mp h]
      refine ⟨⟨record, hrecord, descriptor, ⟨record, hrecord, hdescribes⟩, hnew, ?_⟩, ?_⟩
      · rw [hfields]
        exact if_pos hmatch
      · intro hall selected hmem
        rcases List.mem_append.mp hmem with hmem | hmem
        · exact hall selected hmem
        · rw [List.mem_singleton.mp hmem]
          exact ⟨hdescribes, fields, hfields, hmatch⟩
    · rw [if_neg fun he => hmatch (hiff.mp he)] at h
      rw [← pure_ok.mp h]
      refine ⟨⟨record, hrecord, descriptor, ⟨record, hrecord, hdescribes⟩, hnew, ?_⟩, id⟩
      rw [hfields]
      exact if_neg hmatch

@[simp] theorem itemsOf_ok {value : Json} {text : String} {items : List Json} :
    itemsOf value text = .ok items ↔ value = .arr items ∧ items ≠ [] := by
  unfold itemsOf
  split
  · constructor
    · intro h
      rw [← Except.ok.inj h]
      exact ⟨rfl, List.cons_ne_nil _ _⟩
    · intro h
      rw [Json.arr.inj h.1]
  · rename_i hne
    refine ⟨fun h => (nomatch h), fun h => ?_⟩
    obtain ⟨item, rest, rfl⟩ := List.exists_cons_of_ne_nil h.2
    exact absurd h.1 (hne item rest)

/-- What is selected here the validator selects. -/
theorem selectTracked_ok {contract : ArchiveContract} {parent record : Fields}
    {tracked : Descriptor} (henforce : contract.enforceVariant = true)
    (h : selectTracked parent contract tracked = .ok record) :
    ∃ index, selectParentManifest parent contract = .ok (index, tracked, record) ∧
      (contract.targetArchitecture = "x86_64" → index = 0) ∧
        Tracked contract (index, tracked, record) := by
  unfold selectTracked at h
  simp only [bind_ok, itemsOf_ok] at h
  obtain ⟨manifests, hmanifests, found, hfound, h⟩ := h
  have hselect := Lists.foldlM_ok_congr (fun b x b' hb => (selectStep_ok henforce hb).1) hfound
  have htracked : ∀ selected ∈ found.1, Tracked contract selected :=
    Lists.foldlM_invariant (fun _ found => ∀ selected ∈ found.1, Tracked contract selected)
      (fun _ x b b' hb hx => (selectStep_ok henforce hx).2 hb)
      (fun selected hmem => absurd hmem List.not_mem_nil) hfound
  split at h
  · rename_i index descriptor given hone
    simp only [bind_ok, raiseIf_ok, pure_ok, exists_const, not_not, ne_eq, not_and] at h
    obtain ⟨rfl, hfirst, rfl⟩ := h
    refine ⟨index, ?_, hfirst, htracked _ (by rw [hone]; exact List.mem_singleton.mpr rfl)⟩
    unfold selectParentManifest
    simp only [bind_ok, itemsOf_ok]
    refine ⟨manifests, hmanifests, found, hselect, ?_⟩
    rw [hone]
    rfl
  · cases h

/-- The layers are read alike. -/
theorem layersOf_ok {contract : ArchiveContract} {manifest : Fields} {layers : List Descriptor}
    (h : registryLayers manifest contract = .ok layers) : layersOf manifest = .ok layers := by
  unfold registryLayers at h
  unfold layersOf
  simp only [bind_ok, itemsOf_ok] at h ⊢
  obtain ⟨values, hvalues, h⟩ := h
  refine ⟨values, hvalues, Lists.mapM_ok_congr (fun x y hy => ?_) h⟩
  exact ociDescriptor_ok.mpr (registryDescriptor_ok.mp hy)

/-! ## The blobs -/

theorem fetchDocument_ok {py : Python} {answer : Except String Bytes} {digest label : String}
    {expected : Option ℕ} {data : Bytes} :
    fetchDocument py answer digest expected label = .ok data ↔ answer = .ok data ∧
      data.length ≤ maxJsonSize ∧ (∀ n, expected = some n → data.length = n) ∧
        sha256Prefix ++ py.sha256 data = digest := by
  unfold fetchDocument
  simp only [bind_ok, raiseIf_ok, pure_ok, exists_const, not_not, ne_eq, not_lt]
  cases expected with
  | none =>
    simp only [Option.getD_none, min_self, Option.any_none, Bool.false_eq_true, not_false_eq_true,
      reduceCtorEq, false_imp_iff, forall_const, true_and]
    constructor
    · rintro ⟨given, hanswer, hle, hsha, rfl⟩
      exact ⟨hanswer, hle, hsha⟩
    · rintro ⟨hanswer, hle, hsha⟩
      exact ⟨data, hanswer, hle, hsha, rfl⟩
  | some n =>
    simp only [Option.getD_some, Option.any_some, decide_eq_true_eq, not_not, Option.some.injEq,
      forall_eq']
    constructor
    · rintro ⟨given, hanswer, hle, hn, hsha, rfl⟩
      exact ⟨hanswer, by omega, hn.symm, hsha⟩
    · rintro ⟨hanswer, hle, hn, hsha⟩
      exact ⟨data, hanswer, by omega, hn.symm, hsha, rfl⟩

theorem downloadBlob_ok {py : Python} {answer : Except String Bytes} {descriptor : Descriptor}
    {label : String} {data : Bytes} :
    downloadBlob py answer descriptor label = .ok data ↔ answer = .ok data ∧
      data.length = descriptor.size ∧ sha256Prefix ++ py.sha256 data = descriptor.digest := by
  unfold downloadBlob
  simp only [bind_ok, raiseIf_ok, pure_ok, exists_const, not_not, ne_eq, not_lt]
  constructor
  · rintro ⟨given, hanswer, _, hsize, hsha, rfl⟩
    exact ⟨hanswer, hsize, hsha⟩
  · rintro ⟨hanswer, hsize, hsha⟩
    exact ⟨data, hanswer, by omega, hsize, hsha, rfl⟩

/-- The blobs by the time some descriptors were gone over. -/
structure Gathering (py : Python) (documents : Dict String Stored)
    (done : List (String × Descriptor)) (blobs : Dict String Stored) : Prop where
  nodup : blobs.keys.Nodup
  digests : ∀ digest stored, blobs.get? digest = some stored →
    sha256Prefix ++ py.sha256 stored.data = digest
  kept : ∀ digest stored, documents.get? digest = some stored →
    blobs.get? digest = some stored
  files : ∀ entry ∈ done, ∃ data, blobs.get? entry.2.digest = some (.file data) ∧
    data.length = entry.2.size
  keys : ∀ digest ∈ blobs.keys,
    digest ∈ documents.keys ∨ ∃ entry ∈ done, entry.2.digest = digest

theorem Gathering.start {py : Python} {documents : Dict String Stored}
    (hnodup : documents.keys.Nodup)
    (hdigests : ∀ digest stored, documents.get? digest = some stored →
      sha256Prefix ++ py.sha256 stored.data = digest) : Gathering py documents [] documents where
  nodup := hnodup
  digests := hdigests
  kept := fun _ _ h => h
  files := fun _ h => absurd h List.not_mem_nil
  keys := fun _ h => Or.inl h

theorem Gathering.step {py : Python} {registry : Registry} {reference : RegistryReference}
    {contract : ArchiveContract} {documents blobs blobs' : Dict String Stored}
    {done : List (String × Descriptor)} {entry : String × Descriptor}
    (h : Gathering py documents done blobs)
    (hstep : gatherStep py registry reference contract blobs entry = .ok blobs') :
    Gathering py documents (done ++ [entry]) blobs' := by
  unfold gatherStep at hstep
  have hkeys : ∀ digest, digest ∈ documents.keys ∨ (∃ e ∈ done, e.2.digest = digest) →
      digest ∈ documents.keys ∨ ∃ e ∈ done ++ [entry], e.2.digest = digest := by
    rintro digest (hd | ⟨e, he, hd⟩)
    · exact Or.inl hd
    · exact Or.inr ⟨e, List.mem_append_left _ he, hd⟩
  cases hget : blobs.get? entry.2.digest with
  | none =>
    rw [hget] at hstep
    simp only [bind_ok, pure_ok, downloadBlob_ok] at hstep
    obtain ⟨data, ⟨_, hsize, hsha⟩, rfl⟩ := hstep
    have hkeep : ∀ digest stored, blobs.get? digest = some stored →
        (blobs.set entry.2.digest (.file data)).get? digest = some stored := by
      intro digest stored hd
      have hne : digest ≠ entry.2.digest := by
        intro he
        rw [he, hget] at hd
        cases hd
      rw [Dict.get?_set, if_neg hne, hd]
    refine ⟨Dict.nodup_keys_set h.nodup _ _, fun digest stored hd => ?_,
      fun digest stored hd => hkeep _ _ (h.kept _ _ hd), fun e he => ?_, fun digest hd => ?_⟩
    · rw [Dict.get?_set] at hd
      split_ifs at hd with he
      · rw [he, ← Option.some.inj hd]
        exact hsha
      · exact h.digests digest stored hd
    · rcases List.mem_append.mp he with he | he
      · obtain ⟨data', hdata', hlen⟩ := h.files e he
        exact ⟨data', hkeep _ _ hdata', hlen⟩
      · rw [List.mem_singleton.mp he]
        exact ⟨data, by rw [Dict.get?_set, if_pos rfl], hsize⟩
    · rw [Dict.keys_set] at hd
      split_ifs at hd
      · exact hkeys digest (h.keys digest hd)
      · rcases List.mem_append.mp hd with hd | hd
        · exact hkeys digest (h.keys digest hd)
        · refine Or.inr ⟨entry, List.mem_append_right _ (List.mem_singleton.mpr rfl), ?_⟩
          exact (List.mem_singleton.mp hd).symm
  | some stored =>
    rw [hget] at hstep
    cases stored with
    | document data => cases hstep
    | file data =>
      simp only [bind_ok, raiseIf_ok, pure_ok, exists_const, not_not, ne_eq] at hstep
      obtain ⟨hsize, rfl⟩ := hstep
      refine ⟨h.nodup, h.digests, h.kept, fun e he => ?_, fun digest hd =>
        hkeys digest (h.keys digest hd)⟩
      rcases List.mem_append.mp he with he | he
      · exact h.files e he
      · rw [List.mem_singleton.mp he]
        exact ⟨data, hget, hsize⟩

/-! ## An image that was acquired -/

theorem referenceDigest_append {head digest : List Char} (h : '@' ∉ digest) :
    referenceDigest (String.ofList (head ++ '@' :: digest)) = String.ofList digest := by
  unfold referenceDigest
  rw [String.toList_ofList, List.reverse_append, List.reverse_cons, List.append_assoc,
    List.takeWhile_append_of_pos, List.singleton_append, List.takeWhile_cons_of_neg,
    List.append_nil, List.reverse_reverse]
  · simp
  · intro c hc
    rw [decide_eq_true_iff]
    exact fun he => h (he ▸ List.mem_reverse.mp hc)

theorem parseReference_ok {value : String} {reference : RegistryReference}
    (h : parseReference value = .ok reference) :
    reference.digest = referenceDigest value ∧ isDigest (referenceDigest value).toList = true := by
  unfold parseReference at h
  simp only at h
  by_cases hcond : isRegistryName (PyText.partition '/' (PyText.partition '@' value.toList).1).1 ∧
      (PyText.partition '/' (PyText.partition '@' value.toList).1).2.isSome ∧
      ((((PyText.partition '/' (PyText.partition '@' value.toList).1).2.getD []).splitOn '/').all
        fun part => part ≠ [] ∧ part.all (isNameChar ['.', '_', '-'])) ∧
      (PyText.partition '@' value.toList).2.any isDigest
  case neg =>
    rw [if_neg hcond] at h
    cases h
  rw [if_pos hcond] at h
  obtain ⟨_, _, _, hdigest⟩ := hcond
  obtain ⟨digest, hsome, hd⟩ := (Option.any_eq_true _ _).mp hdigest
  have htext := PyText.eq_append_of_partition hsome
  have hat : '@' ∉ digest := by
    obtain ⟨hex, rfl, hhex⟩ := isDigest_iff.mp hd
    have hstart : sha256Prefix.toList = ['s', 'h', 'a', '2', '5', '6', ':'] := String.toList_ofList
    rw [hstart, List.mem_append, not_or]
    refine ⟨by decide, fun hmem => ?_⟩
    exact absurd (List.all_eq_true.mp hhex.all _ hmem) (by decide)
  have href : referenceDigest value = String.ofList digest := by
    rw [← @referenceDigest_append (PyText.partition '@' value.toList).1 digest hat, ← htext,
      String.ofList_toList]
  rw [href, String.toList_ofList, ← Except.ok.inj h]
  exact ⟨by rw [hsome]; rfl, hd⟩

/-- What is known of the image when its archive is written. -/
structure Acquired (py : Python) (contract : ArchiveContract) (tracked : Descriptor)
    (gathered : Gathered) (parent manifest config : Fields) (configDescriptor : Descriptor)
    (layers : List Descriptor) : Prop where
  pinned : isDigest (referenceDigest contract.reference).toList = true
  parentSmall : gathered.parent.length ≤ maxJsonSize
  parentValue : py.loads gathered.parent = .ok (.obj parent)
  parentIndex : notAnIndex parent = false
  selected : ∃ index,
    selectParentManifest parent contract = .ok (index, tracked, gathered.selectedRecord) ∧
      (contract.targetArchitecture = "x86_64" → index = 0) ∧
        Tracked contract (index, tracked, gathered.selectedRecord)
  parentStored :
    gathered.blobs.get? (referenceDigest contract.reference) = some (.document gathered.parent)
  apart : referenceDigest contract.reference ≠ tracked.digest
  manifestStored : ∃ data, gathered.blobs.get? tracked.digest = some (.document data) ∧
    data.length = tracked.size ∧ data.length ≤ maxJsonSize ∧ py.loads data = .ok (.obj manifest)
  schema : (getKey manifest "schemaVersion").pyEq (.int 2) = true
  mediaType : (getKey manifest "mediaType").pyEq (.str tracked.mediaType) = true
  configField :
    ociDescriptor (getKey manifest "config") "OCI image config" = .ok configDescriptor
  layersField : layersOf manifest = .ok layers
  configStored : ∃ data, gathered.blobs.get? configDescriptor.digest = some (.file data) ∧
    data.length = configDescriptor.size ∧ data.length ≤ maxJsonSize ∧
      py.loads data = .ok (.obj config)
  configPlatform : samePlatform config contract = true
  layersStored : ∀ layer ∈ layers, ∃ data,
    gathered.blobs.get? layer.digest = some (.file data) ∧ data.length = layer.size
  nodup : gathered.blobs.keys.Nodup
  digests : ∀ digest stored, gathered.blobs.get? digest = some stored →
    sha256Prefix ++ py.sha256 stored.data = digest
  keys : ∀ digest ∈ gathered.blobs.keys, digest = referenceDigest contract.reference ∨
    ∃ descriptor ∈ tracked :: configDescriptor :: layers, descriptor.digest = digest

theorem checkConfig_ok {py : Python} {contract : ArchiveContract} {blobs : Dict String Stored}
    {descriptor : Descriptor} {u : Unit} (henforce : contract.enforceVariant = true)
    (h : checkConfig py contract blobs descriptor = .ok u) :
    ∃ data config, blobs.get? descriptor.digest = some (.file data) ∧
      data.length ≤ maxJsonSize ∧ py.loads data = .ok (.obj config) ∧
        samePlatform config contract = true := by
  unfold checkConfig at h
  split at h
  · rename_i data hdata
    simp only [bind_ok, raiseIf_ok, exists_const, decodeJson_ok, not_lt, not_not, ne_eq,
      Except.ok.injEq, exists_eq_left'] at h
    obtain ⟨_, hlen, value, hvalue, platform, hplatform, he⟩ := h
    obtain ⟨config, rfl, hiff⟩ := platformOf_matches henforce hplatform
    exact ⟨data, config, hdata, hlen, hvalue, hiff.mp he⟩
  · cases h

theorem get?_documents (a b : String) (x y : Stored) (key : String) :
    ((Dict.single a x).set b y).get? key =
      if key = b then some y else if key = a then some x else none := by
  rw [Dict.get?_set]
  split_ifs with hb ha
  · rfl
  · rw [ha]
    exact Dict.get?_single_self a x
  · exact Dict.get?_single_of_ne x ha

theorem acquireImage_ok {py : Python} {registry : Registry} {contract : ArchiveContract}
    {tracked : Descriptor} {gathered : Gathered} (ht : contract.manifest = some tracked)
    (henforce : contract.enforceVariant = true) (hmedia : tracked.mediaType ∈ manifestMediaTypes)
    (hcollision : ∀ reference digest digest' data data',
      registry.manifest reference digest = .ok data →
        registry.manifest reference digest' = .ok data' → py.sha256 data = py.sha256 data' →
          data = data')
    (h : acquireImage py registry contract = .ok gathered) :
    ∃ parent manifest config configDescriptor layers,
      Acquired py contract tracked gathered parent manifest config configDescriptor layers := by
  unfold acquireImage at h
  simp only [bind_ok, needed_ok, raiseIf_ok, pure_ok, exists_const, object_ok, decodeJson_ok,
    fetchDocument_ok, not_not, ht, Option.some.injEq, exists_eq_left'] at h
  obtain ⟨_, reference, hreference, parentData, ⟨hparent, hparentSmall, _, hparentSha⟩, _,
    hparentValue, parent, rfl, hindex, record, hrecord, manifestData,
    ⟨hmanifest, hmanifestSmall, hmanifestSize, hmanifestSha⟩, _, hmanifestValue, manifest, rfl,
    hschema, hmediaType, cd, hcd, layers, hlayers, blobs, hblobs, _, hconfig, rfl⟩ := h
  obtain ⟨hdigest, hpinned⟩ := parseReference_ok hreference
  obtain ⟨index, hselect, hfirst, htracked⟩ := selectTracked_ok henforce hrecord
  have hapart : reference.digest ≠ tracked.digest := by
    intro he
    have hsha : py.sha256 parentData = py.sha256 manifestData := by
      refine (String.append_right_inj sha256Prefix).mp ?_
      rw [hparentSha, hmanifestSha, he]
    obtain rfl := hcollision _ _ _ _ _ hparent hmanifest hsha
    obtain rfl := Json.obj.inj (Except.ok.inj (hparentValue.symm.trans hmanifestValue))
    -- one document cannot be the index and the manifest
    have htype : (getKey parent "mediaType").pyEq (.str indexMediaType) = true := by
      unfold notAnIndex at hindex
      simp only [Bool.or_eq_true, Bool.not_eq_true', not_or, Bool.not_eq_false] at hindex
      exact hindex.2
    have hsame := Json.str.inj ((pyEq_str.mp hmediaType).symm.trans (pyEq_str.mp htype))
    rw [hsame] at hmedia
    exact absurd hmedia (by decide)
  have hstart : Gathering py ((Dict.single reference.digest (.document parentData)).set
      tracked.digest (.document manifestData)) []
      ((Dict.single reference.digest (.document parentData)).set tracked.digest
        (.document manifestData)) := by
    have hnodup : (Dict.single reference.digest (Stored.document parentData)).keys.Nodup :=
      List.nodup_singleton _
    refine Gathering.start (Dict.nodup_keys_set hnodup _ _) ?_
    intro digest stored hget
    rw [get?_documents] at hget
    split_ifs at hget with hb ha
    · rw [hb, ← Option.some.inj hget]
      exact hmanifestSha
    · rw [ha, ← Option.some.inj hget]
      exact hparentSha
  have hgather := Lists.foldlM_invariant (Gathering py _) (fun done entry b b' hb hb' =>
    hb.step hb') hstart hblobs
  have hlayer : ∀ layer ∈ layers, ∃ data, blobs.get? layer.digest = some (.file data) ∧
      data.length = layer.size := by
    intro layer hlayer
    obtain ⟨i, hi, rfl⟩ := List.mem_iff_getElem.mp hlayer
    refine hgather.files ("layer " ++ toString i, layers[i]) (List.mem_cons_of_mem _ ?_)
    exact List.mem_map.mpr ⟨(layers[i], i), List.mk_mem_zipIdx_iff_getElem?.mpr
      (List.getElem?_eq_getElem hi), rfl⟩
  obtain ⟨configData, config, hconfigData, hconfigSmall, hconfigValue, hconfigPlatform⟩ :=
    checkConfig_ok henforce hconfig
  refine ⟨parent, manifest, config, cd, layers, ?_⟩
  exact
    { pinned := hpinned
      parentSmall := hparentSmall
      parentValue := hparentValue
      parentIndex := Bool.not_eq_true _ ▸ hindex
      selected := ⟨index, hselect, hfirst, htracked⟩
      parentStored := by
        rw [← hdigest]
        refine hgather.kept _ _ ?_
        rw [get?_documents, if_neg hapart, if_pos rfl]
      apart := hdigest ▸ hapart
      manifestStored := by
        refine ⟨manifestData, hgather.kept _ _ ?_, (hmanifestSize _ rfl), hmanifestSmall,
          hmanifestValue⟩
        rw [get?_documents, if_pos rfl]
      schema := hschema
      mediaType := hmediaType
      configField := ociDescriptor_ok.mpr (registryDescriptor_ok.mp hcd)
      layersField := layersOf_ok hlayers
      configStored := by
        obtain ⟨data, hdata, hsize⟩ := hgather.files ("config", cd) (List.mem_cons_self ..)
        obtain rfl := Stored.file.inj (Option.some.inj (hconfigData.symm.trans hdata))
        exact ⟨configData, hdata, hsize, hconfigSmall, hconfigValue⟩
      configPlatform := hconfigPlatform
      layersStored := hlayer
      nodup := hgather.nodup
      digests := hgather.digests
      keys := by
        intro digest hd
        rcases hgather.keys digest hd with hd | ⟨entry, hentry, rfl⟩
        · rw [Dict.mem_keys_iff, get?_documents] at hd
          split_ifs at hd with hb ha
          · exact Or.inr ⟨tracked, List.mem_cons_self .., hb.symm⟩
          · exact Or.inl (ha.trans hdigest)
          · cases hd
        · rcases List.mem_cons.mp hentry with rfl | hentry
          · exact Or.inr ⟨cd, List.mem_cons_of_mem _ (List.mem_cons_self ..), rfl⟩
          · obtain ⟨layer, hlayer, rfl⟩ := List.mem_map.mp hentry
            exact Or.inr ⟨layer.1, List.mem_cons_of_mem _ (List.mem_cons_of_mem _
              (List.fst_mem_of_mem_zipIdx hlayer)), rfl⟩ }

end BuckosDistro.Oci
