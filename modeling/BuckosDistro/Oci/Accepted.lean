/-
  Which archives that were written are accepted.

  Whatever was gathered is, once written, read back by the validator, unless the archive has
  too many members or its `index.json` is too long. Both happen: nothing bounds the number
  of layers, and an escape of `json.dumps` is longer than the character it stands for.
-/
import BuckosDistro.Oci.Agree

namespace BuckosDistro.Oci

open BuckosDistro.Lib
open BuckosDistro.Lib.Raise

/-! ## The writer and the validator -/

/-- A regular file that holds these members. -/
def archiveOf (path : String) (identity : ArchiveIdentity) (members : List Member) : Archive :=
  ⟨path, true, identity, .ok members, true⟩

/-- What is known of `json.loads` and of the answers of the registry. -/
structure Faithful (py : Python) (registry : Registry) (contract : ArchiveContract)
    (gathered : Gathered) : Prop where
  empty : ∀ value, py.loads [] ≠ .ok value
  layout : ReadsBack py layoutBytes (.obj [("imageLayoutVersion", .str "1.0.0")])
  index : ReadsBack py (indexBytes py contract gathered) (indexValue contract gathered)
  collision : ∀ reference digest digest' data data',
    registry.manifest reference digest = .ok data →
      registry.manifest reference digest' = .ok data' → py.sha256 data = py.sha256 data' →
        data = data'

theorem accepted_iff {py : Python} {registry : Registry} {metadata : Json}
    {imageName targetArchitecture reference : String} {allowMissing : Bool}
    {contract : ArchiveContract} {gathered : Gathered} {members : List Member}
    (hcontract : loadContract metadata imageName targetArchitecture reference allowMissing =
      .ok (some contract))
    (hacquired : acquireImage py registry contract = .ok gathered)
    (hwritten : writeArchive py contract gathered = .ok members)
    (hfaithful : Faithful py registry contract gathered) (path : String)
    (identity : ArchiveIdentity) :
    (∃ tracked identity' platform, contract.manifest = some tracked ∧
      inspectArchive py (archiveOf path identity members) contract none =
        .ok (identity', tracked, platform)) ↔
      members.length ≤ maxMembers ∧ (indexBytes py contract gathered).length ≤ maxJsonSize := by
  obtain ⟨henforce, tracked, ht, hmedia⟩ := loadContract_ok hcontract
  obtain ⟨parent, manifest, config, cd, layers, h⟩ :=
    acquireImage_ok ht henforce hmedia hfaithful.collision hacquired
  have hmembers := writeArchive_ok hwritten
  have hlength : members.length = (writtenItems py contract gathered).length := by
    rw [hmembers, List.length_map]
  constructor
  · rintro ⟨_, _, _, _, hinspect⟩
    unfold inspectArchive archiveOf at hinspect
    simp only [bind_ok] at hinspect
    obtain ⟨_, _, listed, hlisted, d, hd, root, hroot, _⟩ := hinspect
    obtain rfl := Except.ok.inj hlisted
    have hcount := (readMembers_ok.mp hd).1
    refine ⟨hcount, ?_⟩
    rw [hlength] at hcount
    rw [hmembers, readMembers_written h.isDigest_of_mem hcount] at hd
    obtain rfl := Except.ok.inj hd
    unfold readRoot at hroot
    simp only [bind_ok, needed_ok, readObject_ok] at hroot
    obtain ⟨_, _, file, hfile, _, _, _, _, index, hindex, _⟩ := hroot
    have hfound : (writtenMembers py contract gathered).get? "index.json" =
        some (fileMember "index.json" (indexBytes py contract gathered)) :=
      get?_written h.isDigest_of_mem (List.mem_append_left _ (by simp))
    rw [hfound] at hfile
    obtain rfl := Option.some.inj hfile
    exact hindex.small
  · rintro ⟨hcount, hsmall⟩
    rw [hlength] at hcount
    have hlisted : (archiveOf path identity members).members =
        .ok ((writtenItems py contract gathered).map Prod.snd) := congrArg Except.ok hmembers
    obtain ⟨identity', platform, hinspect⟩ := h.exists_inspect hfaithful.empty henforce ht hmedia
      h.configPlatform hfaithful.layout hfaithful.index hsmall hcount rfl rfl hlisted
    exact ⟨tracked, identity', platform, ht, hinspect⟩

namespace Sample

/-! ## An image whose manifest is annotated

  The note is a row of one character outside ASCII. The registry keeps it in two bytes, and
  `json.dumps` writes it as an escape of six, so the record is longer in `index.json`. -/

/-- `json.dumps(value, sort_keys=True, separators=(",", ":"))`, for a value without floats. -/
def compact (value : Json) : Bytes := Json.encode (Json.dumps (fun _ => []) ⟨[','], [':']⟩ value)

def descriptorFields (digest : String) (size : ℕ) (mediaType : String) : Fields :=
  [("digest", .str digest), ("mediaType", .str mediaType), ("size", .int size)]

def manifestType : String := "application/vnd.oci.image.manifest.v1+json"

def config : Fields := [("architecture", .str "arm64"), ("os", .str "linux")]

def configDigest : String :=
  "sha256:d6f56bc20064075ce319ac2e6fcef5de9ea21773b0a8a4398c4405222971f9c0"

def layer : Bytes := Json.encode "usr".toList

def layerDigest : String :=
  "sha256:7ee4c3ec0b4ee3b9fd76755e03fc705c96866c89a610ccf10080a37899744a5b"

def manifest : Fields :=
  [("config", .obj (descriptorFields configDigest 37 "config")),
    ("layers", .arr [.obj (descriptorFields layerDigest 3 "layer")]),
    ("mediaType", .str manifestType), ("schemaVersion", .int 2)]

def manifestDigest : String :=
  "sha256:a2b32d642a28b6d722f182406266bd101a0c88cb8d7ef3b3f1b9992be8af04b6"

def tracked : Descriptor := ⟨manifestDigest, 326, manifestType⟩

/-- The character of the note. -/
def acute : Char := Char.ofNat 233

/-- The record of the manifest in the parent index. -/
def record (n : ℕ) : Fields :=
  [("annotations", .obj [("note", .str (String.ofList (List.replicate n acute)))]),
    ("digest", .str manifestDigest), ("mediaType", .str manifestType),
    ("platform", .obj config), ("size", .int 326)]

/-- The value of the parent index, which is that of `index.json` too. -/
def index (n : ℕ) : Fields :=
  [("manifests", .arr [.obj (record n)]), ("mediaType", .str indexMediaType),
    ("schemaVersion", .int 2)]

/-- The parent index as the registry has it, the note in UTF-8. -/
def parentBytes (n : ℕ) : Bytes :=
  (compact (.obj (index 0))).take 38 ++ (List.replicate n [195, 169]).flatten ++
    (compact (.obj (index 0))).drop 38

def indexFile (n : ℕ) : Bytes := compact (.obj (index n)) ++ [10]

/-- What the documents read as, and their digests; each is known by its third byte. -/
def python (n : ℕ) (parentDigest : String) : Python where
  sha256 := fun data =>
    match (data.drop 2).head? with
    | some 97 => removePrefix sha256Prefix configDigest
    | some 99 => removePrefix sha256Prefix manifestDigest
    | some 105 => "561356159fc692da9a55978e206a495b7835abcc4778fa9d13138a0530304878"
    | some 114 => removePrefix sha256Prefix layerDigest
    | some 109 =>
      if data = parentBytes n then removePrefix sha256Prefix parentDigest
      else if n = 0 then "c04d5572b60106e62fec16214c604f0f5d4489011a91bb2bdcf524c904822b02"
      else "62cd230d9709f1eb5a01f74348904b23e146c0a4918f2e545b70146621f77ac2"
    | _ => "e3b0c44298fc1c149afbf4c8996fb92427ae41e4649b934ca495991b7852b855"
  loads := fun data =>
    match (data.drop 2).head? with
    | some 97 => .ok (.obj config)
    | some 99 => .ok (.obj manifest)
    | some 105 => .ok (.obj [("imageLayoutVersion", .str "1.0.0")])
    | some 109 => .ok (.obj (index n))
    | _ => .error (.invalid "Expecting value: line 1 column 1 (char 0)")
  floatRepr := fun _ => []

def reference (parentDigest : String) : String := "docker.io/ubuntu@" ++ parentDigest

def registry (n : ℕ) (parentDigest : String) : Registry where
  manifest := fun _ digest =>
    if digest = parentDigest then .ok (parentBytes n)
    else if digest = manifestDigest then .ok (compact (.obj manifest))
    else .error "registry request failed"
  blob := fun _ digest =>
    if digest = configDigest then .ok (compact (.obj config))
    else if digest = layerDigest then .ok layer
    else .error "registry request failed"

/-- The digest of the parent index without a note. -/
def shortDigest : String :=
  "sha256:707c95122336b89d28876f1de60d51932fdf8923deaefa2ff558f317db3708a1"

/-- The digest of the parent index with a note of three million characters. -/
def longDigest : String :=
  "sha256:f65a47f37d6cee338a2a06488338f7d740edee31197f98be8a4d8db45a0893ff"

/-- The metadata of the two images, both of which are this one. -/
def metadata (parentDigest : String) : Json :=
  let platform : Fields :=
    [("os", .str "linux"), ("architecture", .str "arm64"),
      ("manifest", .obj [("digest", .str manifestDigest), ("media_type", .str manifestType),
        ("size", .int 326)]),
      ("archive", .obj [("filename", .str "ubuntu.tar"),
        ("sha256", .str (removePrefix sha256Prefix layerDigest)), ("size", .int 10240)])]
  let image : Fields :=
    [("reference", .str (reference parentDigest)), ("platforms", .obj [("aarch64", .obj platform)])]
  .obj [("schema_version", .int 1),
    ("images", .obj [("ubuntu", .obj image), ("nativelink", .obj image)])]

def contract (parentDigest : String) : ArchiveContract where
  image := "ubuntu"
  reference := reference parentDigest
  targetArchitecture := "aarch64"
  os := "linux"
  ociArchitecture := "arm64"
  variant := none
  manifest := some tracked
  archiveFilename := some "ubuntu.tar"
  archiveSha256 := some (removePrefix sha256Prefix layerDigest)
  archiveSize := some 10240
  enforceVariant := true

def gathered (n : ℕ) (parentDigest : String) : Gathered where
  selectedRecord := record n
  parent := parentBytes n
  blobs := ⟨[(parentDigest, .document (parentBytes n)),
    (manifestDigest, .document (compact (.obj manifest))),
    (configDigest, .file (compact (.obj config))), (layerDigest, .file layer)]⟩

section Facts

variable {n : ℕ} {parentDigest : String}

theorem length_parent (n : ℕ) : (parentBytes n).length = 315 + 2 * n := by
  have hplain : (compact (.obj (index 0))).length = 315 := by decide +kernel
  have hnote : (List.replicate n [(195 : UInt8), 169]).flatten.length = 2 * n := by
    rw [List.length_flatten, List.map_replicate, List.sum_replicate]
    exact Nat.mul_comm n 2
  unfold parentBytes
  rw [List.length_append, List.length_append, List.length_take, List.length_drop, hplain, hnote]
  omega

theorem lengths : (compact (.obj config)).length = 37 ∧ (compact (.obj manifest)).length = 326 ∧
    layer.length = 3 ∧ layoutBytes.length = 31 := by
  decide +kernel

/-- A digest is told apart from those of the image by what the registry answers. -/
structure Fresh (parentDigest : String) : Prop where
  isDigest : isDigest parentDigest.toList = true
  parsed : parseReference (reference parentDigest) =
    .ok ⟨reference parentDigest, "registry-1.docker.io", "ubuntu", parentDigest⟩
  manifest : parentDigest ≠ manifestDigest
  config : parentDigest ≠ configDigest
  layer : parentDigest ≠ layerDigest

theorem sha256_parent : (python n parentDigest).sha256 (parentBytes n) =
    removePrefix sha256Prefix parentDigest :=
  if_pos rfl

theorem prefix_removePrefix {digest : String} (h : isDigest digest.toList = true) :
    sha256Prefix ++ removePrefix sha256Prefix digest = digest := by
  obtain ⟨hex, rfl, _⟩ := digest_eq h
  rw [removePrefix_append, String.ofList_append, String.ofList_toList]

theorem digests : isDigest configDigest.toList = true ∧ isDigest layerDigest.toList = true ∧
    isDigest manifestDigest.toList = true := by
  decide +kernel

theorem documents_eq (hD : Fresh parentDigest) :
    (Dict.single parentDigest (Stored.document (parentBytes n))).set manifestDigest
      (.document (compact (.obj Sample.manifest))) =
    ⟨[(parentDigest, .document (parentBytes n)),
      (manifestDigest, .document (compact (.obj Sample.manifest)))]⟩ :=
  congrArg Dict.mk (Dict.items_set_of_none (Dict.get?_single_of_ne _ hD.manifest.symm))

/-- A blob that is not there yet is downloaded. -/
theorem gatherStep_new {py : Python} {registry : Registry} {image : RegistryReference}
    {contract : ArchiveContract} {blobs : Dict String Stored} {entry : String × Descriptor}
    {data : Bytes} (hget : blobs.get? entry.2.digest = none)
    (hanswer : registry.blob image entry.2.digest = .ok data)
    (hsize : data.length = entry.2.size)
    (hsha : sha256Prefix ++ py.sha256 data = entry.2.digest) :
    gatherStep py registry image contract blobs entry =
      .ok ⟨blobs.items ++ [(entry.2.digest, .file data)]⟩ := by
  unfold gatherStep
  rw [hget]
  simp only [bind_ok, downloadBlob_ok, pure_ok]
  exact ⟨data, ⟨hanswer, hsize, hsha⟩, congrArg Dict.mk (Dict.items_set_of_none hget)⟩

/-- The config and the layer are downloaded. -/
theorem gathers (hD : Fresh parentDigest) (image : RegistryReference) :
    [("config", (⟨configDigest, 37, "config"⟩ : Descriptor)),
        ("layer 0", ⟨layerDigest, 3, "layer"⟩)].foldlM
      (gatherStep (python n parentDigest) (registry n parentDigest) image (contract parentDigest))
      ((Dict.single parentDigest (.document (parentBytes n))).set manifestDigest
        (.document (compact (.obj Sample.manifest)))) = .ok (gathered n parentDigest).blobs := by
  have hlookup : ∀ (digest : String) (rest : List (String × Stored)), parentDigest ≠ digest →
      (⟨(parentDigest, Stored.document (parentBytes n)) :: rest⟩ : Dict String Stored).get? digest =
        (⟨rest⟩ : Dict String Stored).get? digest := by
    intro digest rest hne
    show List.lookup digest (_ :: rest) = _
    rw [List.lookup_cons, beq_false_of_ne hne.symm]
    rfl
  rw [documents_eq hD, List.foldlM_cons, bind_ok]
  refine ⟨_, gatherStep_new ?_ rfl lengths.1 (prefix_removePrefix digests.1), ?_⟩
  · rw [hlookup _ _ hD.config]
    rfl
  · rw [List.foldlM_cons, bind_ok]
    refine ⟨_, gatherStep_new ?_ rfl lengths.2.2.1
      (prefix_removePrefix digests.2.1), rfl⟩
    show Dict.get? ⟨_ :: _⟩ _ = none
    rw [hlookup _ _ hD.layer]
    rfl

theorem acquired (hD : Fresh parentDigest) (hn : 315 + 2 * n ≤ maxJsonSize) :
    acquireImage (python n parentDigest) (registry n parentDigest) (contract parentDigest) =
      .ok (gathered n parentDigest) := by
  have hmanifestLength : (compact (.obj Sample.manifest)).length = 326 := lengths.2.1
  unfold acquireImage
  simp only [bind_ok, needed_ok, raiseIf_ok, pure_ok, exists_const, object_ok, decodeJson_ok,
    fetchDocument_ok, not_not]
  refine ⟨tracked, rfl, Bool.false_ne_true, _, hD.parsed, parentBytes n,
    ⟨if_pos rfl, ?_, fun _ h => absurd h.symm (Option.some_ne_none _), ?_⟩, _, rfl, index n, rfl,
    Bool.false_ne_true,
    record n, rfl, compact (.obj Sample.manifest), ⟨?_, ?_, ?_, ?_⟩, _, rfl, Sample.manifest, rfl,
    rfl, rfl, ⟨configDigest, 37, "config"⟩, rfl, [⟨layerDigest, 3, "layer"⟩], rfl,
    (gathered n parentDigest).blobs, ?_, (), ?_, rfl⟩
  · rw [length_parent]
    exact hn
  · rw [sha256_parent, prefix_removePrefix hD.isDigest]
  · exact (if_neg hD.manifest.symm).trans (if_pos rfl)
  · rw [hmanifestLength]
    decide
  · rintro _ h
    rw [hmanifestLength]
    exact Option.some.inj h
  · exact prefix_removePrefix digests.2.2
  · exact gathers hD _
  · unfold checkConfig
    have hconfig : (gathered n parentDigest).blobs.get? configDigest =
        some (.file (compact (.obj Sample.config))) := by
      show List.lookup configDigest (_ :: _) = _
      rw [List.lookup_cons, beq_false_of_ne hD.config.symm]
      rfl
    rw [hconfig]
    rfl

theorem length_note (n : ℕ) :
    (Json.quote (String.ofList (List.replicate n acute))).length = 2 + 6 * n := by
  have hescape : (Json.escapeChar acute).length = 6 := by decide
  unfold Json.quote
  rw [String.toList_ofList, List.length_append, List.length_cons, List.length_flatMap,
    List.map_replicate, List.sum_replicate, hescape, List.length_singleton, smul_eq_mul]
  omega

/-- An escape is six characters. -/
theorem length_indexFile (n : ℕ) : (indexFile n).length = 316 + 6 * n := by
  have hplain : (indexFile 0).length = 316 := by decide +kernel
  have hgrow : (indexFile n).length = (indexFile 0).length + 6 * n := by
    unfold indexFile compact Json.encode index record
    rw [List.length_append, List.length_append, List.length_map, List.length_map]
    simp only [Json.length_dumps_obj, Json.length_dumps_one, Json.dumps_str, length_note,
      List.map_cons, List.map_nil, List.sum_cons, List.sum_nil, List.length_cons, List.length_nil]
    omega
  rw [hgrow, hplain]

theorem indexBytes_eq : indexBytes (python n parentDigest) (contract parentDigest)
    (gathered n parentDigest) = indexFile n := by
  unfold indexBytes Json.encode
  rw [List.map_append]
  rfl

/-- What is written. -/
theorem written (hn : 316 + 6 * n < 8 ^ 11) :
    writeArchive (python n parentDigest) (contract parentDigest) (gathered n parentDigest) =
      .ok ((writtenItems (python n parentDigest) (contract parentDigest)
        (gathered n parentDigest)).map Prod.snd) := by
  refine exists_writeArchive ?_ fun digest => ?_
  · rw [indexBytes_eq, length_indexFile]
    exact hn
  · cases hget : (gathered n parentDigest).blobs.get? digest with
    | none => decide
    | some stored =>
      have hmem := Dict.mem_items_of_get? hget
      simp only [gathered, List.mem_cons, List.not_mem_nil, or_false, Prod.mk.injEq] at hmem
      rcases hmem with ⟨_, rfl⟩ | ⟨_, rfl⟩ | ⟨_, rfl⟩ | ⟨_, rfl⟩
      · show (parentBytes n).length < 8 ^ 11
        rw [length_parent]
        omega
      · show (compact (.obj Sample.manifest)).length < 8 ^ 11
        rw [lengths.2.1]
        decide
      · show (compact (.obj Sample.config)).length < 8 ^ 11
        rw [lengths.1]
        decide
      · show Sample.layer.length < 8 ^ 11
        rw [lengths.2.2.1]
        decide

theorem loads_layout : (python n parentDigest).loads layoutBytes =
    .ok (.obj [("imageLayoutVersion", .str "1.0.0")]) :=
  rfl

theorem sortFields_index (x y z : List Char) :
    Json.sortFields [("manifests", x), ("mediaType", y), ("schemaVersion", z)] =
      [("manifests", x), ("mediaType", y), ("schemaVersion", z)] := by
  have h : "manifests" ≤ "mediaType" ∧ "manifests" ≤ "schemaVersion" ∧
      "mediaType" ≤ "schemaVersion" := by decide
  refine List.Pairwise.insertionSort_eq ?_
  simp [h]

theorem third_index : ((indexFile n).drop 2).head? = some 109 := by
  have hquote : Json.quote "manifests" = PyText.doubleQuote :: 'm' :: "anifests".toList ++
      [PyText.doubleQuote] := by decide +kernel
  unfold indexFile compact index Json.encode Json.dumps Json.dumpsFields Json.dumpsFields
    Json.dumpsFields Json.dumpsFields
  rw [sortFields_index, List.map_cons, List.map_cons, List.intercalate_cons_cons, hquote]
  rfl

theorem loads_index : (python n parentDigest).loads (indexFile n) = .ok (.obj (index n)) := by
  unfold python
  dsimp only
  rw [third_index]
  rfl

theorem faithful (hD : Fresh parentDigest) :
    Faithful (python n parentDigest) (registry n parentDigest) (contract parentDigest)
      (gathered n parentDigest) where
  empty := by
    intro value h
    cases h
  layout := ⟨_, loads_layout, .refl _⟩
  index := ⟨_, indexBytes_eq ▸ loads_index, .refl _⟩
  collision := by
    have hmanifest : (python n parentDigest).sha256 (compact (.obj Sample.manifest)) =
        removePrefix sha256Prefix manifestDigest := rfl
    have hne : removePrefix sha256Prefix parentDigest ≠
        removePrefix sha256Prefix manifestDigest := by
      intro he
      apply hD.manifest
      rw [← prefix_removePrefix hD.isDigest, he, prefix_removePrefix digests.2.2]
    intro image digest digest' data data' h h' hsha
    unfold registry at h h'
    dsimp only at h h'
    split_ifs at h h'
    · exact Except.ok.inj (h.symm.trans h')
    · rw [← Except.ok.inj h, ← Except.ok.inj h', sha256_parent, hmanifest] at hsha
      exact absurd hsha hne
    · rw [← Except.ok.inj h, ← Except.ok.inj h', sha256_parent, hmanifest] at hsha
      exact absurd hsha.symm hne
    · exact Except.ok.inj (h.symm.trans h')

theorem length_writtenItems : (writtenItems (python n parentDigest) (contract parentDigest)
    (gathered n parentDigest)).length ≤ 8 := by
  unfold writtenItems PyText.sortedSet
  rw [List.length_append, List.length_map, List.length_insertionSort]
  have hle := (List.dedup_sublist (gathered n parentDigest).blobs.keys).length_le
  have hfour : (gathered n parentDigest).blobs.keys.length = 4 := rfl
  simp only [List.length_cons, List.length_nil]
  omega

end Facts

/-! ## A short note and a long one -/

theorem loaded_short : loadContract (metadata shortDigest) "ubuntu" "aarch64"
    (reference shortDigest) false = .ok (some (contract shortDigest)) := by
  decide +kernel

theorem loaded_long : loadContract (metadata longDigest) "ubuntu" "aarch64"
    (reference longDigest) false = .ok (some (contract longDigest)) := by
  decide +kernel

theorem fresh_short : Fresh shortDigest where
  isDigest := by decide +kernel
  parsed := by rfl
  manifest := by decide
  config := by decide
  layer := by decide

theorem fresh_long : Fresh longDigest where
  isDigest := by decide +kernel
  parsed := by rfl
  manifest := by decide
  config := by decide
  layer := by decide

end Sample

/-- **The writer and the validator agree** on every archive that is not too large to read. -/
theorem written_archive_accepted (py : Python) (registry : Registry) (metadata : Json)
    (imageName targetArchitecture reference : String) (allowMissing : Bool)
    (contract : ArchiveContract) (gathered : Gathered) (members : List Member)
    (hcontract : loadContract metadata imageName targetArchitecture reference allowMissing =
      .ok (some contract))
    (hacquired : acquireImage py registry contract = .ok gathered)
    (hwritten : writeArchive py contract gathered = .ok members)
    (hfaithful : Faithful py registry contract gathered) (path : String)
    (identity : ArchiveIdentity) :
    (∃ tracked identity' platform, contract.manifest = some tracked ∧
      inspectArchive py (archiveOf path identity members) contract none =
        .ok (identity', tracked, platform)) ↔
      members.length ≤ maxMembers ∧ (indexBytes py contract gathered).length ≤ maxJsonSize :=
  accepted_iff hcontract hacquired hwritten hfaithful path identity

/-- With a short note the archive is accepted. -/
theorem written_archive_accepted_short :
    ∃ members, writeArchive (Sample.python 0 Sample.shortDigest)
        (Sample.contract Sample.shortDigest) (Sample.gathered 0 Sample.shortDigest) =
          .ok members ∧
      ∃ tracked identity' platform,
        (Sample.contract Sample.shortDigest).manifest = some tracked ∧
        inspectArchive (Sample.python 0 Sample.shortDigest)
          (archiveOf "ubuntu.tar" ⟨"", 0⟩ members) (Sample.contract Sample.shortDigest) none =
            .ok (identity', tracked, platform) := by
  have hwritten := @Sample.written 0 Sample.shortDigest (by decide)
  refine ⟨_, hwritten, (written_archive_accepted (Sample.python 0 Sample.shortDigest)
    (Sample.registry 0 Sample.shortDigest) (Sample.metadata Sample.shortDigest) "ubuntu" "aarch64"
    (Sample.reference Sample.shortDigest) false _ _ _ Sample.loaded_short
    (Sample.acquired Sample.fresh_short (by decide)) hwritten (Sample.faithful Sample.fresh_short)
    "ubuntu.tar" ⟨"", 0⟩).mpr ⟨?_, ?_⟩⟩
  · rw [List.length_map]
    exact Sample.length_writtenItems.trans (by decide)
  · rw [Sample.indexBytes_eq, Sample.length_indexFile]
    decide

/-- With a long one it is acquired and written, and then rejected. -/
theorem long_note_rejected :
    loadContract (Sample.metadata Sample.longDigest) "ubuntu" "aarch64"
        (Sample.reference Sample.longDigest) false =
          .ok (some (Sample.contract Sample.longDigest)) ∧
      acquireImage (Sample.python 3000000 Sample.longDigest)
        (Sample.registry 3000000 Sample.longDigest) (Sample.contract Sample.longDigest) =
          .ok (Sample.gathered 3000000 Sample.longDigest) ∧
      Faithful (Sample.python 3000000 Sample.longDigest)
        (Sample.registry 3000000 Sample.longDigest) (Sample.contract Sample.longDigest)
        (Sample.gathered 3000000 Sample.longDigest) ∧
      ∃ members, writeArchive (Sample.python 3000000 Sample.longDigest)
          (Sample.contract Sample.longDigest) (Sample.gathered 3000000 Sample.longDigest) =
            .ok members ∧
        ∀ path identity, ¬ ∃ tracked identity' platform,
          (Sample.contract Sample.longDigest).manifest = some tracked ∧
          inspectArchive (Sample.python 3000000 Sample.longDigest)
            (archiveOf path identity members) (Sample.contract Sample.longDigest) none =
              .ok (identity', tracked, platform) := by
  have hacquired := @Sample.acquired 3000000 Sample.longDigest Sample.fresh_long (by decide)
  have hfaithful := @Sample.faithful 3000000 Sample.longDigest Sample.fresh_long
  have hwritten := @Sample.written 3000000 Sample.longDigest (by decide)
  refine ⟨Sample.loaded_long, hacquired, hfaithful, _, hwritten, fun path identity haccepted => ?_⟩
  have hsmall := ((accepted_iff Sample.loaded_long hacquired hwritten hfaithful path identity).mp
    haccepted).2
  rw [Sample.indexBytes_eq, Sample.length_indexFile] at hsmall
  exact absurd hsmall (by decide)

end BuckosDistro.Oci
