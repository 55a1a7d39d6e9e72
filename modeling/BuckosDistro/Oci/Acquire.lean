/-
  Reproducing an archive from a registry (`remote-execution/scripts/oci_acquire.py`).

  A registry answers with bytes. What `_acquire_image` has gathered when it calls
  `_write_archive` is a `Gathered`, and an archive is written as the list of its members.
  A blob that was downloaded is kept in a file, the documents in memory; the code tells the
  two apart, so they are the two constructors of `Stored`.
-/
import BuckosDistro.Oci.Archive

namespace BuckosDistro.Oci

open BuckosDistro.Lib

/-! ## The registry -/

structure RegistryReference where
  value : String
  apiRegistry : String
  repository : String
  digest : String

/-- What the registry answers for a digest. -/
structure Registry where
  manifest : RegistryReference → String → Except String Bytes
  blob : RegistryReference → String → Except String Bytes

/-- `[a-z0-9<extra>]` -/
def isNameChar (extra : List Char) (c : Char) : Bool :=
  c ∈ "abcdefghijklmnopqrstuvwxyz0123456789".toList ∨ c ∈ extra

/-- `sha256:[0-9a-f]{64}` -/
def isDigest (text : List Char) : Bool :=
  sha256Prefix.toList <+: text ∧ (text.drop sha256Prefix.toList.length).length = 64 ∧
    (text.drop sha256Prefix.toList.length).all isHex

/-- The part of `REFERENCE_PATTERN` before the first slash. -/
def isRegistryName (text : List Char) : Bool :=
  let (host, port) := PyText.partition ':' text
  host ≠ [] ∧ host.all (isNameChar ['.', '-']) ∧
    port.all fun digits => digits ≠ [] ∧ digits.all (· ∈ "0123456789".toList)

/-- `_parse_reference` -/
def parseReference (value : String) : Except String RegistryReference :=
  let (head, digest) := PyText.partition '@' value.toList
  let (registry, repository) := PyText.partition '/' head
  let parts := (repository.getD []).splitOn '/'
  if isRegistryName registry ∧ repository.isSome ∧
      (parts.all fun part => part ≠ [] ∧ part.all (isNameChar ['.', '_', '-'])) ∧
      digest.any isDigest then
    .ok
      { value := value
        apiRegistry :=
          if String.ofList registry = "docker.io" then "registry-1.docker.io"
          else String.ofList registry
        repository := String.ofList (repository.getD [])
        digest := String.ofList (digest.getD []) }
  else .error "image reference must be REGISTRY/REPOSITORY@sha256:DIGEST"

/-! ## Checked values -/

/-- `_digest` -/
def registryDigest (value : Json) (label : String) : Except String String :=
  match value with
  | .str text =>
    if isDigest text.toList then .ok text
    else .error (label ++ " must be sha256:<64 lowercase hexadecimal characters>")
  | _ => .error (label ++ " must be sha256:<64 lowercase hexadecimal characters>")

/-- `_positive_size` -/
def registrySize (value : Json) (label : String) : Except String ℕ :=
  match value with
  | .int n => if n ≤ 0 then .error (label ++ " must be a positive integer") else .ok n.toNat
  | _ => .error (label ++ " must be a positive integer")

/-- `_descriptor` -/
def registryDescriptor (value : Json) (label : String) : Except String Descriptor := do
  let record ← object value label
  let digest ← registryDigest (getKey record "digest") (label ++ ".digest")
  let size ← registrySize (getKey record "size") (label ++ ".size")
  let mediaType ← string (getKey record "mediaType") (label ++ ".mediaType")
  return ⟨digest, size, mediaType⟩

/-- `_expected_platform` -/
def expectedPlatform (contract : ArchiveContract) : List (String × String) :=
  [("os", contract.os), ("architecture", contract.ociArchitecture)] ++
    contract.variant.toList.map fun variant => ("variant", variant)

/-- `_platform`: the keys that are there, in the order they are looked up. -/
def platformOf (value : Json) (label : String) : Except String (List (String × String)) := do
  let record ← object value label
  (["os", "architecture", "variant"].filter (hasKey record)).mapM fun key =>
    match getKey record key with
    | .str text =>
      if text = "" then .error (label ++ " values must be non-empty strings")
      else .ok (key, text)
    | _ => .error (label ++ " values must be non-empty strings")

/-- `_fetch_document` -/
def fetchDocument (py : Python) (answer : Except String Bytes) (expectedDigest : String)
    (expectedSize : Option ℕ) (label : String) : Except String Bytes := do
  let data ← answer
  let limit := min maxJsonSize (expectedSize.getD maxJsonSize)
  raiseIf (data.length > limit) (label ++ " exceeds " ++ toString limit ++ " bytes")
  raiseIf (expectedSize.any (· ≠ data.length))
    (label ++ " size mismatch: expected " ++ toString (expectedSize.getD 0) ++ ", got " ++
      toString data.length)
  raiseIf (sha256Prefix ++ py.sha256 data ≠ expectedDigest)
    (label ++ " digest mismatch: expected " ++ expectedDigest ++ ", got " ++ sha256Prefix ++
      py.sha256 data)
  return data

/-- `_download_blob`: the content of the file. -/
def downloadBlob (py : Python) (answer : Except String Bytes) (descriptor : Descriptor)
    (label : String) : Except String Bytes := do
  let data ← answer
  raiseIf (data.length > descriptor.size)
    (label ++ " exceeds its declared size " ++ toString descriptor.size)
  raiseIf (data.length ≠ descriptor.size)
    (label ++ " size mismatch: expected " ++ toString descriptor.size ++ ", got " ++
      toString data.length)
  raiseIf (sha256Prefix ++ py.sha256 data ≠ descriptor.digest)
    (label ++ " digest mismatch: expected " ++ descriptor.digest ++ ", got " ++ sha256Prefix ++
      py.sha256 data)
  return data

/-! ## Gathering an image -/

/-- A blob of the image: a document in memory, or a file with what was downloaded. -/
inductive Stored where
  | document (data : Bytes)
  | file (data : Bytes)

def Stored.data : Stored → Bytes
  | document data | file data => data

/-- One trip of the loop over the manifests of the parent index. -/
def matchStep (contract : ArchiveContract) (found : List Selected × List String)
    (child : Json × ℕ) : Except String (List Selected × List String) := do
  let label := contract.image ++ " parent descriptor " ++ toString child.2
  let record ← object child.1 label
  let descriptor ← registryDescriptor child.1 label
  raiseIf (descriptor.digest ∈ found.2)
    (contract.image ++ " parent contains a duplicate manifest digest")
  let digests := found.2 ++ [descriptor.digest]
  let value := getKey record "platform"
  if value.pyEq .null then return (found.1, digests)
  else
    let platform ← platformOf value (contract.image ++ " parent platform " ++ toString child.2)
    if platform = expectedPlatform contract then
      return (found.1 ++ [(child.2, descriptor, record)], digests)
    else return (found.1, digests)

/-- The parent index, and the manifest in it that matches the contract. -/
def selectTracked (parentValue : Fields) (contract : ArchiveContract) (tracked : Descriptor) :
    Except String Fields := do
  let manifests ← itemsOf (getKey parentValue "manifests")
    (contract.image ++ " parent index has no manifests")
  let found ← manifests.zipIdx.foldlM (matchStep contract) ([], [])
  match found.1 with
  | [(index, descriptor, record)] =>
    raiseIf (descriptor ≠ tracked)
      (contract.image ++ " selected descriptor does not match tracked metadata")
    raiseIf (contract.targetArchitecture = "x86_64" ∧ index ≠ 0)
      (contract.image ++ " selected x86_64 descriptor is not first for SDME 0.18")
    return record
  | _ => .error (contract.image ++ " parent must select exactly one tracked platform")

/-- The descriptors of the layers, as the manifest is read here. -/
def registryLayers (manifest : Fields) (contract : ArchiveContract) :
    Except String (List Descriptor) := do
  let values ← itemsOf (getKey manifest "layers")
    (contract.image ++ " selected manifest has no layers")
  values.zipIdx.mapM fun layer =>
    registryDescriptor layer.1 (contract.image ++ " layer descriptor " ++ toString layer.2)

/-- One trip of the loop over the config and the layers. -/
def gatherStep (py : Python) (registry : Registry) (reference : RegistryReference)
    (contract : ArchiveContract) (blobs : Dict String Stored) (entry : String × Descriptor) :
    Except String (Dict String Stored) := do
  match blobs.get? entry.2.digest with
  | some (.document _) =>
    .error (contract.image ++ " " ++ entry.1 ++ " reuses an index or manifest digest")
  | some (.file data) =>
    raiseIf (data.length ≠ entry.2.size)
      (contract.image ++ " descriptors disagree about blob size")
    return blobs
  | none =>
    let data ← downloadBlob py (registry.blob reference entry.2.digest) entry.2
      (contract.image ++ " " ++ entry.1)
    return blobs.set entry.2.digest (.file data)

/-- What `_write_archive` is called with. -/
structure Gathered where
  selectedRecord : Fields
  parent : Bytes
  blobs : Dict String Stored

/-- The config of the image, once it is stored. -/
def checkConfig (py : Python) (contract : ArchiveContract) (blobs : Dict String Stored)
    (config : Descriptor) : Except String Unit := do
  let data ← match blobs.get? config.digest with
    | some (.file data) => .ok data
    | _ => .error (contract.image ++ " config digest collision")
  raiseIf (config.size > maxJsonSize) (contract.image ++ " config exceeds JSON size limit")
  raiseIf (data.length > maxJsonSize)
    (contract.image ++ " image config exceeds " ++ toString maxJsonSize ++ " bytes")
  let value ← decodeJson py data (contract.image ++ " image config")
  let platform ← platformOf value (contract.image ++ " image config")
  raiseIf (platform ≠ expectedPlatform contract) (contract.image ++ " config platform mismatch")

/-- `_acquire_image` up to the call of `_write_archive`. -/
def acquireImage (py : Python) (registry : Registry) (contract : ArchiveContract) :
    Except String Gathered := do
  let tracked ← needed contract.manifest "offline archive contract is incomplete"
  raiseIf contract.archiveFilename.isNone "offline archive contract is incomplete"
  let reference ← parseReference contract.reference
  let parent ← fetchDocument py (registry.manifest reference reference.digest) reference.digest
    none (contract.image ++ " parent index")
  let parentValue ← object (← decodeJson py parent (contract.image ++ " parent index"))
    (contract.image ++ " parent index")
  raiseIf (notAnIndex parentValue) (contract.image ++ " parent is not an OCI image index")
  let selectedRecord ← selectTracked parentValue contract tracked
  let manifest ← fetchDocument py (registry.manifest reference tracked.digest) tracked.digest
    (some tracked.size) (contract.image ++ " selected manifest")
  let manifestValue ← object
    (← decodeJson py manifest (contract.image ++ " selected manifest"))
    (contract.image ++ " selected manifest is invalid")
  raiseIf (¬ (getKey manifestValue "schemaVersion").pyEq (.int 2))
    (contract.image ++ " selected manifest is invalid")
  raiseIf (¬ (getKey manifestValue "mediaType").pyEq (.str tracked.mediaType))
    (contract.image ++ " selected manifest mediaType mismatch")
  let config ← registryDescriptor (getKey manifestValue "config")
    (contract.image ++ " config descriptor")
  let layers ← registryLayers manifestValue contract
  let documents := (Dict.single reference.digest (.document parent)).set tracked.digest
    (.document manifest)
  let blobs ← (("config", config) ::
      layers.zipIdx.map fun layer => ("layer " ++ toString layer.2, layer.1)).foldlM
    (gatherStep py registry reference contract) documents
  checkConfig py contract blobs config
  return ⟨selectedRecord, parent, blobs⟩

/-! ## Writing -/

/-- The record of the one image of `index.json`. -/
def rootRecord (contract : ArchiveContract) (gathered : Gathered) : Fields :=
  if contract.targetArchitecture = "x86_64" then
    [("annotations", .obj [(referenceAnnotationKey, .str contract.reference)]),
      ("digest", .str (referenceDigest contract.reference)),
      ("mediaType", .str indexMediaType),
      ("size", .int gathered.parent.length)]
  else gathered.selectedRecord

/-- The value of `index.json`. -/
def indexValue (contract : ArchiveContract) (gathered : Gathered) : Json :=
  .obj
    [("manifests", .arr [.obj (rootRecord contract gathered)]),
      ("mediaType", .str indexMediaType),
      ("schemaVersion", .int 2)]

/-- The content of `index.json`. -/
def indexBytes (py : Python) (contract : ArchiveContract) (gathered : Gathered) : Bytes :=
  Json.encode (Json.dumps py.floatRepr ⟨[','], [':']⟩ (indexValue contract gathered) ++
    [Char.ofNat 10])

/-- The content of `oci-layout`. -/
def layoutBytes : Bytes :=
  Json.encode (Json.dumps (fun _ => []) ⟨[','], [':']⟩
    (.obj [("imageLayoutVersion", .str "1.0.0")]) ++ [Char.ofNat 10])

/-- A file of the archive. A USTAR header has eleven octal digits for its size. -/
def addFile (name : String) (data : Bytes) : Except String Member := do
  raiseIf (data.length ≥ 8 ^ 11) "overflow in number field"
  return ⟨name, .file, data.length, data⟩

/-- `_write_archive` -/
def writeArchive (py : Python) (contract : ArchiveContract) (gathered : Gathered) :
    Except String (List Member) := do
  let layout ← addFile "oci-layout" layoutBytes
  let index ← addFile "index.json" (indexBytes py contract gathered)
  let blobs ← (PyText.sortedSet gathered.blobs.keys).mapM fun digest =>
    addFile (blobName digest) ((gathered.blobs.get? digest).elim [] Stored.data)
  return [⟨"blobs", .directory, 0, []⟩, ⟨"blobs/sha256", .directory, 0, []⟩, layout, index] ++
    blobs

end BuckosDistro.Oci
