/-
  The contract of an archive, read from the trusted metadata (`load_contract`).
-/
import BuckosDistro.Oci.Names

namespace BuckosDistro.Oci

open BuckosDistro.Lib
open BuckosDistro.Lib.Raise

/-- `PLATFORMS`: the operating system and the architecture of a target. -/
def platforms : List (String × String × String) :=
  [("x86_64", "linux", "amd64"), ("aarch64", "linux", "arm64")]

/-- `IMAGE_NAMES` -/
def imageNames : List String := ["ubuntu", "nativelink"]

/-- `_exact_keys` -/
def exactKeys (value : Fields) (required optional : List String) (label : String) :
    Except String Unit := do
  let keys := value.map Prod.fst
  let missing := required.filter (· ∉ keys)
  let unknown := keys.filter (· ∉ required ++ optional)
  raiseIf (missing ≠ [])
    (label ++ " is missing keys: " ++ PyText.join ", " (PyText.sortedSet missing))
  raiseIf (unknown ≠ [])
    (label ++ " has unknown keys: " ++ PyText.join ", " (PyText.sortedSet unknown))

/-- `_descriptor` of the metadata. -/
def trackedDescriptor (value : Json) (label : String) : Except String Descriptor := do
  let record ← object value label
  exactKeys record ["digest", "media_type", "size"] [] label
  let digest ← sha256 (getKey record "digest") (label ++ ".digest") true
  let size ← positiveSize (getKey record "size") (label ++ ".size")
  let mediaType ← string (getKey record "media_type") (label ++ ".media_type")
  return ⟨digest, size, mediaType⟩

/-- `platform.get("variant")`, of a platform that passed. -/
def variantOf (platform : Fields) : Option String :=
  match getKey platform "variant" with
  | .str text => some text
  | _ => none

/-- The archive of a platform. -/
def validateArchiveRecord (value : Json) (label : String) : Except String Unit := do
  let archive ← object value label
  exactKeys archive ["filename", "sha256", "size"] [] label
  let filename ← string (getKey archive "filename") (label ++ ".filename")
  raiseIf ('/' ∈ filename.toList ∨ filename ∈ [".", ".."])
    (label ++ ".filename must be a basename")
  let _ ← sha256 (getKey archive "sha256") (label ++ ".sha256") false
  let _ ← positiveSize (getKey archive "size") (label ++ ".size")

/-- One trip of the loop over the platforms of an image. -/
def validatePlatform (imageLabel : String) (entry : String × Json) : Except String Unit := do
  let label := imageLabel ++ ".platforms." ++ entry.1
  let platform ← object entry.2 label
  exactKeys platform ["os", "architecture", "manifest", "archive"] ["variant"] label
  let expected ← needed (platforms.lookup entry.1) entry.1
  raiseIf (¬ (getKey platform "os").pyEq (.str expected.1))
    (label ++ ".os must be " ++ PyText.repr expected.1)
  raiseIf (¬ (getKey platform "architecture").pyEq (.str expected.2))
    (label ++ ".architecture must be " ++ PyText.repr expected.2)
  if ¬ (getKey platform "variant").pyEq .null then
    let _ ← string (getKey platform "variant") (label ++ ".variant")
  let manifest ← trackedDescriptor (getKey platform "manifest") (label ++ ".manifest")
  raiseIf (manifest.mediaType ∉ manifestMediaTypes)
    (label ++ ".manifest.media_type is unsupported")
  validateArchiveRecord (getKey platform "archive") (label ++ ".archive")

/-- One trip of the loop over the images. -/
def validateImage (entry : String × Json) : Except String Unit := do
  let label := "metadata.images." ++ entry.1
  let image ← object entry.2 label
  exactKeys image ["reference", "platforms"] [] label
  let reference ← string (getKey image "reference") (label ++ ".reference")
  raiseIf (PyText.find? "@sha256:".toList reference.toList).isNone
    (label ++ ".reference must be digest-pinned")
  let _ ← sha256 (.str (referenceDigest reference)) (label ++ ".reference digest") true
  let entries ← object (getKey image "platforms") (label ++ ".platforms")
  raiseIf (entries = [] ∨ ¬ entries.all fun entry => (platforms.lookup entry.1).isSome)
    (label ++ ".platforms must contain known target architectures")
  entries.forM (validatePlatform label)

/-- `_validate_metadata_document` -/
def validateMetadataDocument (value : Json) : Except String Fields := do
  let document ← object value "metadata"
  exactKeys document ["schema_version", "images"] [] "metadata"
  raiseIf (¬ (getKey document "schema_version").pyEq (.int 1)) "metadata schema_version must be 1"
  let images ← object (getKey document "images") "metadata.images"
  raiseIf ((images.map Prod.fst).toFinset ≠ imageNames.toFinset)
    ("metadata.images must contain exactly: " ++ PyText.join ", " (PyText.sortedSet imageNames))
  images.forM validateImage
  return document

/-- `load_contract`, from the metadata read. -/
def loadContract (metadata : Json) (imageName targetArchitecture expectedReference : String)
    (allowMissing : Bool) : Except String (Option ArchiveContract) := do
  let document ← validateMetadataDocument metadata
  raiseIf (imageName ∉ imageNames) ("unsupported image name: " ++ imageName)
  raiseIf (platforms.lookup targetArchitecture).isNone
    ("unsupported target architecture: " ++ targetArchitecture)
  let images ← object (getKey document "images") "metadata images"
  let image ← object (getKey images imageName) "metadata image"
  let reference ← string (getKey image "reference") "metadata image reference"
  raiseIf (reference ≠ expectedReference)
    (imageName ++ " image reference mismatch: expected " ++ PyText.repr expectedReference ++
      ", got " ++ PyText.repr reference)
  let entries ← object (getKey image "platforms") "metadata image platforms"
  if ¬ hasKey entries targetArchitecture then
    if allowMissing then return none
    else
      .error ("trusted offline archive metadata is unavailable for " ++ imageName ++ "/" ++
        targetArchitecture)
  else
    let platform ← object (getKey entries targetArchitecture) "metadata platform"
    let archive ← object (getKey platform "archive") "metadata archive"
    let os ← string (getKey platform "os") "metadata platform os"
    let architecture ← string (getKey platform "architecture") "metadata platform architecture"
    let manifest ← trackedDescriptor (getKey platform "manifest") "metadata platform manifest"
    let filename ← string (getKey archive "filename") "metadata archive filename"
    let archiveSha256 ← sha256 (getKey archive "sha256") "metadata archive sha256" false
    let archiveSize ← positiveSize (getKey archive "size") "metadata archive size"
    return some
      { image := imageName
        reference := reference
        targetArchitecture := targetArchitecture
        os := os
        ociArchitecture := architecture
        variant := variantOf platform
        manifest := some manifest
        archiveFilename := some filename
        archiveSha256 := some archiveSha256
        archiveSize := some archiveSize
        enforceVariant := true }

/-! ## What a contract states -/

theorem trackedDescriptor_media {value : Json} {label label' : String}
    {descriptor descriptor' : Descriptor} (h : trackedDescriptor value label = .ok descriptor)
    (h' : trackedDescriptor value label' = .ok descriptor') :
    descriptor'.mediaType = descriptor.mediaType := by
  unfold trackedDescriptor at h h'
  simp only [bind_ok, object_ok, string_ok, pure_ok] at h h'
  obtain ⟨record, rfl, _, _, _, _, _, _, media, ⟨hmedia, _⟩, rfl⟩ := h
  obtain ⟨record', hrecord, _, _, _, _, _, _, media', ⟨hmedia', _⟩, rfl⟩ := h'
  obtain rfl := Json.obj.inj hrecord
  exact Json.str.inj (hmedia'.symm.trans hmedia)

theorem forM_ok {α : Type} {f : α → Except String Unit} {xs : List α}
    (h : xs.forM f = .ok ()) {x : α} (hx : x ∈ xs) : f x = .ok () := by
  induction xs with
  | nil => exact absurd hx List.not_mem_nil
  | cons y ys ih =>
    obtain ⟨_, hy, hys⟩ := bind_ok.mp h
    rcases List.mem_cons.mp hx with rfl | hx
    · exact hy
    · exact ih hys hx

theorem mem_of_getKey {record : Fields} {key : String} {fields : Fields}
    (h : getKey record key = .obj fields) : (key, Json.obj fields) ∈ record := by
  unfold getKey at h
  cases hl : record.lookup key with
  | none =>
    rw [hl] at h
    cases h
  | some value =>
    rw [hl] at h
    exact Dict.mem_items_of_get? (d := ⟨record⟩) (hl.trans (congrArg some h))

/-- The manifest of a platform that passed is of a known kind. -/
theorem validatePlatform_media {label label' : String} {entry : String × Json} {record : Fields}
    {tracked : Descriptor} (h : validatePlatform label entry = .ok ())
    (hrecord : entry.2 = .obj record)
    (htracked : trackedDescriptor (getKey record "manifest") label' = .ok tracked) :
    tracked.mediaType ∈ manifestMediaTypes := by
  unfold validatePlatform at h
  simp only [bind_ok, object_ok, raiseIf_ok, exists_const] at h
  obtain ⟨record', hrecord', _, _, _, _, _, _, h⟩ := h
  obtain rfl := Json.obj.inj (hrecord.symm.trans hrecord')
  have hrest : ∃ manifest, trackedDescriptor (getKey record "manifest")
      (label ++ ".platforms." ++ entry.1 ++ ".manifest") = .ok manifest ∧
        manifest.mediaType ∈ manifestMediaTypes := by
    split_ifs at h
    · simp only [bind_ok, raiseIf_ok, exists_const, not_not] at h
      obtain ⟨manifest, hmanifest, hmedia, _⟩ := h
      exact ⟨manifest, hmanifest, hmedia⟩
    · simp only [bind_ok, raiseIf_ok, exists_const, not_not] at h
      obtain ⟨_, _, manifest, hmanifest, hmedia, _⟩ := h
      exact ⟨manifest, hmanifest, hmedia⟩
  obtain ⟨manifest, hmanifest, hmedia⟩ := hrest
  rw [trackedDescriptor_media hmanifest htracked]
  exact hmedia

/-- A contract of the metadata tracks a manifest of a known kind, and enforces its variant. -/
theorem loadContract_ok {metadata : Json} {imageName targetArchitecture reference : String}
    {allowMissing : Bool} {contract : ArchiveContract}
    (h : loadContract metadata imageName targetArchitecture reference allowMissing =
      .ok (some contract)) :
    contract.enforceVariant = true ∧
      ∃ tracked, contract.manifest = some tracked ∧ tracked.mediaType ∈ manifestMediaTypes := by
  unfold loadContract at h
  simp only [bind_ok, object_ok, raiseIf_ok, exists_const] at h
  obtain ⟨document, hdocument, _, _, images, himages, image, himage, name, _, _, entries,
    hentries, h⟩ := h
  by_cases hmissing : hasKey entries targetArchitecture = true
  · rw [if_neg (not_not.mpr hmissing)] at h
    simp only [bind_ok, object_ok, pure_ok] at h
    obtain ⟨platform, hplatform, _, _, _, _, _, _, tracked, htracked, _, _, _, _, _, _, he⟩ := h
    obtain rfl := Option.some.inj he
    refine ⟨rfl, tracked, rfl, ?_⟩
    -- the loop over the images came by this one, and its loop over the platforms by this one
    unfold validateMetadataDocument at hdocument
    simp only [bind_ok, object_ok, raiseIf_ok, exists_const, pure_ok] at hdocument
    obtain ⟨_, _, _, _, _, images', himages', _, _, hall, rfl⟩ := hdocument
    obtain rfl := Json.obj.inj (himages.symm.trans himages')
    have hone := forM_ok hall (mem_of_getKey himage)
    unfold validateImage at hone
    simp only [bind_ok, object_ok, raiseIf_ok, exists_const] at hone
    obtain ⟨image', himage', _, _, _, _, _, _, _, entries', hentries', _, hplatforms⟩ := hone
    obtain rfl := Json.obj.inj himage'
    obtain rfl := Json.obj.inj (hentries.symm.trans hentries')
    exact validatePlatform_media (forM_ok hplatforms (mem_of_getKey hplatform)) rfl htracked
  · rw [if_pos hmissing] at h
    split_ifs at h
    cases pure_ok.mp h

end BuckosDistro.Oci
