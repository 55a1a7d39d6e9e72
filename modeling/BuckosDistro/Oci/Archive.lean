/-
  The validator of pinned OCI archives (`remote-execution/scripts/oci_archive.py`).

  An archive is what reading the file gives: the identity of the bytes and the members of
  the tar, each with the bytes `extractfile` yields. An error is the text of the
  `ArchiveValidationError`. `verified` travels through the checks as it does in the source:
  the identities of the blobs hashed so far, by name.
-/
import BuckosDistro.Lib.Dict
import BuckosDistro.Lib.Json
import BuckosDistro.Lib.Raise

namespace BuckosDistro.Oci

open BuckosDistro.Lib

/-! ## The standard library -/

abbrev Bytes := List UInt8

/-- Why `json.loads` with the hook that rejects duplicate keys raises. -/
inductive JsonError where
  | duplicateKey (key : String)
  | invalid (text : String)

/-- `hashlib.sha256(data).hexdigest()`, `json.loads` with the hook, and `float.__repr__`. -/
structure Python where
  sha256 : Bytes → String
  loads : Bytes → Except JsonError Json
  floatRepr : ℚ → List Char

/-! ## Constants -/

def maxJsonSize : ℕ := 16 * 1024 * 1024

def maxMembers : ℕ := 100000

def sha256Prefix : String := "sha256:"

/-- `MANIFEST_MEDIA_TYPES` -/
def manifestMediaTypes : List String :=
  ["application/vnd.oci.image.manifest.v1+json",
    "application/vnd.docker.distribution.manifest.v2+json"]

def indexMediaType : String := "application/vnd.oci.image.index.v1+json"

/-- `REFERENCE_ANNOTATION` -/
def referenceAnnotationKey : String := "org.opencontainers.image.ref.name"

/-! ## Records -/

structure Descriptor where
  digest : String
  size : ℕ
  mediaType : String
deriving DecidableEq, Repr

structure ArchiveContract where
  image : String
  reference : String
  targetArchitecture : String
  os : String
  ociArchitecture : String
  variant : Option String
  manifest : Option Descriptor
  archiveFilename : Option String
  archiveSha256 : Option String
  archiveSize : Option ℕ
  enforceVariant : Bool
deriving DecidableEq, Repr

structure ArchiveIdentity where
  sha256 : String
  size : ℕ
deriving DecidableEq, Repr

inductive MemberKind where
  | file | directory | other
deriving DecidableEq, Repr

/-- A member of a tar: what its header states, and the bytes it yields. -/
structure Member where
  name : String
  kind : MemberKind
  size : ℕ
  payload : Bytes
deriving DecidableEq, Repr

/-- What opening and reading an archive gives: whether it is a regular file, the identity of
    its bytes, the members unless it is no tar, and whether it stayed the same meanwhile. -/
structure Archive where
  path : String
  regular : Bool
  identity : ArchiveIdentity
  members : Except String (List Member)
  unchanged : Bool

/-! ## Checked values -/

/-- `_decode_json` -/
def decodeJson (py : Python) (data : Bytes) (label : String) : Except String Json :=
  match py.loads data with
  | .ok value => .ok value
  | .error (.duplicateKey key) => .error ("duplicate JSON key: " ++ PyText.repr key)
  | .error (.invalid text) => .error (label ++ " is not valid JSON: " ++ text)

/-- `_object` -/
def object (value : Json) (label : String) : Except String Fields :=
  match value with
  | .obj fields => .ok fields
  | _ => .error (label ++ " must be an object")

/-- `_string` -/
def string (value : Json) (label : String) : Except String String :=
  match value with
  | .str text => if text = "" then .error (label ++ " must be a non-empty string") else .ok text
  | _ => .error (label ++ " must be a non-empty string")

/-- `_size` -/
def size (value : Json) (label : String) : Except String ℕ :=
  match value with
  | .int n =>
    if n < 0 then .error (label ++ " must be a nonnegative integer") else .ok n.toNat
  | _ => .error (label ++ " must be a nonnegative integer")

/-- `_positive_size` -/
def positiveSize (value : Json) (label : String) : Except String ℕ := do
  let result ← size value label
  raiseIf (result = 0) (label ++ " must be positive")
  return result

/-- `text.removeprefix(prefix)` -/
def removePrefix (pre text : String) : String :=
  if pre.toList <+: text.toList then String.ofList (text.toList.drop pre.toList.length) else text

/-- `character in "0123456789abcdef"` -/
def isHex (c : Char) : Bool := c ∈ "0123456789abcdef".toList

/-- `_sha256` -/
def sha256 (value : Json) (label : String) (prefixed : Bool) : Except String String := do
  let text ← string value label
  let digest := if prefixed then removePrefix sha256Prefix text else text
  raiseIf (digest.length ≠ 64 ∨ ¬ digest.toList.all isHex)
    (label ++ " must be " ++
      if prefixed then "sha256:<64 lowercase hexadecimal characters>"
      else "64 lowercase hexadecimal characters")
  raiseIf (prefixed ∧ ¬ sha256Prefix.toList <+: text.toList) (label ++ " must use sha256")
  return text

/-- `_oci_descriptor` -/
def ociDescriptor (value : Json) (label : String) : Except String Descriptor := do
  let record ← object value label
  let digest ← sha256 (getKey record "digest") (label ++ ".digest") true
  let size ← positiveSize (getKey record "size") (label ++ ".size")
  let mediaType ← string (getKey record "mediaType") (label ++ ".mediaType")
  return ⟨digest, size, mediaType⟩

/-! ## Members -/

/-- The loop over leading `./`. -/
def dropDotSlash : List Char → List Char
  | '.' :: '/' :: rest => dropDotSlash rest
  | name => name

/-- `_normalize_member_name` -/
def normalizeMemberName (memberName : String) : Except String String := do
  let name := dropDotSlash memberName.toList
  raiseIf (name = [] ∨ name.head? = some '/' ∨ PyText.backslash ∈ name)
    ("unsafe OCI archive member path: " ++ PyText.repr (String.ofList name))
  let name := if name.getLast? = some '/' then name.dropLast else name
  let parts := name.splitOn '/'
  raiseIf (name = [] ∨ parts.any fun part =>
      part = [] ∨ part = ".".toList ∨ part = "..".toList)
    ("unsafe OCI archive member path: " ++ PyText.repr (String.ofList name))
  let normalized := String.ofList name
  if normalized ∈ ["oci-layout", "index.json", "blobs", "blobs/sha256"] then return normalized
  if parts.length = 3 ∧ parts.take 2 = ["blobs".toList, "sha256".toList] ∧
      (parts.drop 2).all fun part => part.length = 64 ∧ part.all isHex then
    return normalized
  .error ("unexpected OCI archive member: " ++ PyText.repr normalized)

/-- One trip of the loop over the members, which are counted from one. -/
def admitMember (members : Dict String Member) (entry : Member × ℕ) :
    Except String (Dict String Member) := do
  raiseIf (entry.2 > maxMembers) "OCI archive has too many members"
  let name ← normalizeMemberName entry.1.name
  raiseIf (members.get? name).isSome ("duplicate OCI archive member: " ++ name)
  if name ∈ ["blobs", "blobs/sha256"] then
    raiseIf (entry.1.kind ≠ .directory)
      ("OCI archive namespace member is not a directory: " ++ name)
  else
    raiseIf (entry.1.kind ≠ .file) ("OCI archive member is not a regular file: " ++ name)
  return members.set name entry.1

/-- The members of the archive by name. -/
def readMembers (members : List Member) : Except String (Dict String Member) :=
  (members.zipIdx 1).foldlM admitMember .empty

/-- `_read_member` -/
def readMember (member : Member) (label : String) : Except String Bytes := do
  raiseIf (member.size > maxJsonSize) (label ++ " exceeds the JSON size limit")
  raiseIf (member.kind ≠ .file) ("cannot read " ++ label)
  let data := member.payload.take (maxJsonSize + 1)
  raiseIf (data.length ≠ member.size) (label ++ " has a truncated payload")
  return data

/-- A member read as a JSON object. -/
def readObject (py : Python) (member : Member) (label : String) : Except String Fields := do
  let data ← readMember member label
  object (← decodeJson py data label) label

/-- `_hash_member` -/
def hashMember (py : Python) (member : Member) : ArchiveIdentity :=
  ⟨py.sha256 member.payload, member.payload.length⟩

/-- `_blob_name` -/
def blobName (digest : String) : String := "blobs/sha256/" ++ removePrefix sha256Prefix digest

/-- `_verify_blob`: the member, and the identities hashed by then. -/
def verifyBlob (py : Python) (members : Dict String Member) (descriptor : Descriptor)
    (verified : Dict String ArchiveIdentity) :
    Except String (Member × Dict String ArchiveIdentity) := do
  let name := blobName descriptor.digest
  let member ← needed (members.get? name) ("OCI blob is missing: " ++ descriptor.digest)
  raiseIf (member.size ≠ descriptor.size)
    ("OCI blob size mismatch for " ++ descriptor.digest ++ ": expected " ++
      toString descriptor.size ++ ", got " ++ toString member.size)
  let identity := (verified.get? name).getD (hashMember py member)
  raiseIf (identity.sha256 ≠ removePrefix sha256Prefix descriptor.digest)
    ("OCI blob digest mismatch for " ++ descriptor.digest ++ ": got sha256:" ++ identity.sha256)
  raiseIf (identity.size ≠ descriptor.size)
    ("OCI blob payload size mismatch for " ++ descriptor.digest ++ ": expected " ++
      toString descriptor.size ++ ", got " ++ toString identity.size)
  return (member, verified.setDefault name identity)

/-! ## The index and the manifest -/

/-- A platform is that of the contract, for the variant only where it is enforced. -/
def samePlatform (platform : Fields) (contract : ArchiveContract) : Bool :=
  (getKey platform "os").pyEq (.str contract.os) &&
    (getKey platform "architecture").pyEq (.str contract.ociArchitecture) &&
      (!contract.enforceVariant ||
        (getKey platform "variant").pyEq (contract.variant.elim .null .str))

/-- `_platform_matches` -/
def platformMatches (value : Json) (contract : ArchiveContract) (label : String) :
    Except String Unit := do
  let platform ← object value label
  raiseIf (¬ (getKey platform "os").pyEq (.str contract.os))
    (label ++ " has the wrong operating system")
  raiseIf (¬ (getKey platform "architecture").pyEq (.str contract.ociArchitecture))
    (label ++ " has the wrong architecture")
  raiseIf (contract.enforceVariant ∧
      ¬ (getKey platform "variant").pyEq (contract.variant.elim .null .str))
    (label ++ " has the wrong variant")

/-- `value.get("schemaVersion") != 2 or value.get("mediaType") != INDEX_MEDIA_TYPE` -/
def notAnIndex (value : Fields) : Bool :=
  !(getKey value "schemaVersion").pyEq (.int 2) ||
    !(getKey value "mediaType").pyEq (.str indexMediaType)

/-- `_read_parent_index` -/
def readParentIndex (py : Python) (members : Dict String Member) (descriptor : Descriptor)
    (verified : Dict String ArchiveIdentity) :
    Except String (Fields × Dict String ArchiveIdentity) := do
  let (parentMember, verified) ← verifyBlob py members descriptor verified
  let parent ← readObject py parentMember "OCI parent image index"
  raiseIf (notAnIndex parent) "OCI parent image index has an invalid schema or mediaType"
  return (parent, verified)

/-- A manifest of the parent index: its place, its descriptor and its record. -/
abbrev Selected := ℕ × Descriptor × Fields

/-- One trip of the loop over the manifests of the parent index. -/
def selectStep (contract : ArchiveContract) (found : List Selected × List String)
    (child : Json × ℕ) : Except String (List Selected × List String) := do
  let label := "OCI parent descriptor " ++ toString child.2
  let record ← object child.1 label
  let descriptor ← ociDescriptor child.1 label
  raiseIf (descriptor.digest ∈ found.2)
    "OCI parent image index contains a duplicate manifest digest"
  let digests := found.2 ++ [descriptor.digest]
  match getKey record "platform" with
  | .obj platform =>
    if samePlatform platform contract then
      return (found.1 ++ [(child.2, descriptor, record)], digests)
    else return (found.1, digests)
  | _ => return (found.1, digests)

/-- A list with something in it. -/
def itemsOf (value : Json) (text : String) : Except String (List Json) :=
  match value with
  | .arr (item :: items) => .ok (item :: items)
  | _ => .error text

/-- `_select_parent_manifest` -/
def selectParentManifest (parent : Fields) (contract : ArchiveContract) :
    Except String Selected := do
  let children ← itemsOf (getKey parent "manifests")
    "OCI parent image index contains no manifests"
  let found ← children.zipIdx.foldlM (selectStep contract) ([], [])
  match found.1 with
  | [selected] => return selected
  | _ => .error "OCI parent image index must select exactly one trusted platform"

/-! ## The archive -/

/-- `contract.reference.rsplit("@", 1)[1]` -/
def referenceDigest (reference : String) : String :=
  String.ofList (reference.toList.reverse.takeWhile (· ≠ '@')).reverse

/-- The checks before the tar is read. -/
def checkFile (archive : Archive) (expectedIdentity : Option ArchiveIdentity) :
    Except String Unit := do
  raiseIf (¬ archive.regular) ("OCI archive is not a regular file: " ++ archive.path)
  match expectedIdentity with
  | none => return ()
  | some expected =>
    raiseIf (archive.identity.sha256 ≠ expected.sha256)
      ("offline archive SHA-256 mismatch: expected sha256:" ++ expected.sha256 ++
        ", got sha256:" ++ archive.identity.sha256)
    raiseIf (archive.identity.size ≠ expected.size)
      ("offline archive size mismatch: expected " ++ toString expected.size ++ ", got " ++
        toString archive.identity.size)

/-- `oci-layout` and `index.json`: the record of the one image. -/
def readRoot (py : Python) (members : Dict String Member) : Except String Json := do
  let layoutMember ← needed ((members.get? "oci-layout").filter (·.kind = .file))
    "OCI archive lacks a regular oci-layout file"
  let indexMember ← needed ((members.get? "index.json").filter (·.kind = .file))
    "OCI archive lacks a regular index.json file"
  let layout ← readObject py layoutMember "oci-layout"
  raiseIf (¬ (getKey layout "imageLayoutVersion").pyEq (.str "1.0.0"))
    "OCI archive imageLayoutVersion must be 1.0.0"
  let index ← readObject py indexMember "index.json"
  raiseIf (notAnIndex index) "OCI archive index.json has an invalid schema or mediaType"
  match getKey index "manifests" with
  | .arr [root] => return root
  | _ => .error "OCI archive index.json must contain exactly one parent image index"

/-- What an archive resolves to: the manifest, its record, and the identities hashed. -/
abbrev Resolved := Descriptor × Fields × Dict String ArchiveIdentity

/-- The layout in which `index.json` names the parent index. -/
def parentRoot (py : Python) (members : Dict String Member) (contract : ArchiveContract)
    (rootRecord : Fields) (rootDescriptor : Descriptor) : Except String Resolved := do
  raiseIf (rootDescriptor.mediaType ≠ indexMediaType)
    "OCI archive parent is not an OCI image index"
  let annotations ← object (getKey rootRecord "annotations") "index.json annotations"
  raiseIf (¬ (getKey annotations referenceAnnotationKey).pyEq (.str contract.reference))
    "OCI archive parent annotation does not match the pinned image reference"
  let (parent, verified) ← readParentIndex py members rootDescriptor .empty
  let (selectedIndex, descriptor, record) ← selectParentManifest parent contract
  raiseIf (selectedIndex ≠ 0) "selected platform must be first for SDME 0.18 compatibility"
  return (descriptor, record, verified)

/-- The layout in which `index.json` names the manifest, the parent index being there. -/
def directRoot (py : Python) (members : Dict String Member) (contract : ArchiveContract)
    (rootRecord : Fields) (rootDescriptor : Descriptor) (parentMember : Member) :
    Except String Resolved := do
  let parentDigest := referenceDigest contract.reference
  let (parent, verified) ←
    readParentIndex py members ⟨parentDigest, parentMember.size, indexMediaType⟩ .empty
  let (_, parentManifest, _) ← selectParentManifest parent contract
  raiseIf (parentManifest ≠ rootDescriptor)
    "direct OCI archive parent does not bind the selected manifest"
  return (rootDescriptor, rootRecord, verified)

/-- The two layouts, told apart by the digest `index.json` names. -/
def resolveRoot (py : Python) (members : Dict String Member) (contract : ArchiveContract)
    (root : Json) : Except String Resolved := do
  let rootRecord ← object root "index.json image"
  let rootDescriptor ← ociDescriptor root "index.json image"
  let parentDigest := referenceDigest contract.reference
  if rootDescriptor.digest = parentDigest then
    parentRoot py members contract rootRecord rootDescriptor
  else
    match members.get? (blobName parentDigest) with
    | some parentMember =>
      directRoot py members contract rootRecord rootDescriptor parentMember
    | none =>
      if contract.manifest.isSome then
        .error "direct OCI archive lacks the pinned parent image index"
      else .ok (rootDescriptor, rootRecord, .empty)

/-- The layers of a manifest are hashed one after the other. -/
def verifyLayers (py : Python) (members : Dict String Member) (layers : List Descriptor)
    (verified : Dict String ArchiveIdentity) : Except String (Dict String ArchiveIdentity) :=
  layers.foldlM (fun verified layer => do
    let (_, verified) ← verifyBlob py members layer verified
    return verified) verified

/-- The descriptors of the layers of a manifest. -/
def layersOf (manifest : Fields) : Except String (List Descriptor) := do
  let values ← itemsOf (getKey manifest "layers")
    "OCI image manifest must contain at least one layer"
  values.zipIdx.mapM fun layer => ociDescriptor layer.1 ("OCI image layer " ++ toString layer.2)

/-- The manifest and what it lists: the config, and the identities hashed by then. -/
def readImage (py : Python) (members : Dict String Member) (descriptor : Descriptor)
    (verified : Dict String ArchiveIdentity) :
    Except String (Fields × Dict String ArchiveIdentity) := do
  let (manifestMember, verified) ← verifyBlob py members descriptor verified
  let manifest ← readObject py manifestMember "OCI image manifest"
  raiseIf (¬ (getKey manifest "schemaVersion").pyEq (.int 2))
    "OCI image manifest schemaVersion must be 2"
  let bodyMediaType := getKey manifest "mediaType"
  raiseIf (¬ bodyMediaType.pyEq .null ∧ ¬ bodyMediaType.pyEq (.str descriptor.mediaType))
    "OCI image manifest mediaType mismatch"
  let configDescriptor ← ociDescriptor (getKey manifest "config") "OCI image config"
  let layerDescriptors ← layersOf manifest
  let (configMember, verified) ← verifyBlob py members configDescriptor verified
  let verified ← verifyLayers py members layerDescriptors verified
  let config ← readObject py configMember "OCI image config"
  return (config, verified)

/-- `selected_platform` -/
structure SelectedPlatform where
  architecture : String
  os : String
  variant : Option Json

/-- The variant a descriptor and a config agree on. -/
def selectVariant (record config : Fields) : Except String (Option Json) := do
  let descriptorVariant :=
    match getKey record "platform" with
    | .obj platform => getKey platform "variant"
    | _ => .null
  let configVariant := getKey config "variant"
  raiseIf (¬ descriptorVariant.pyEq .null ∧ ¬ configVariant.pyEq .null ∧
      ¬ descriptorVariant.pyEq configVariant)
    "selected descriptor and OCI image config variants disagree"
  let selected := if descriptorVariant.truthy then descriptorVariant else configVariant
  return if selected.pyEq .null then none else some selected

/-- `included_blobs` -/
def includedBlobs (members : Dict String Member) : List String :=
  (members.items.filter fun item =>
    "blobs/".toList <+: item.1.toList ∧ item.2.kind = .file).map Prod.fst

/-- The text of the last check. -/
def closureText (included verified : List String) : String :=
  let extra := PyText.sortedSet (included.filter (· ∉ verified))
  let missing := PyText.sortedSet (verified.filter (· ∉ included))
  "OCI archive blob closure mismatch: extra=[" ++ PyText.join ", " (extra.map PyText.repr) ++
    "], missing=[" ++ PyText.join ", " (missing.map PyText.repr) ++ "]"

/-- A record that states a platform states that of the contract. -/
def checkRecord (record : Fields) (contract : ArchiveContract) : Except String Unit :=
  if hasKey record "platform" then
    platformMatches (getKey record "platform") contract "selected platform"
  else .ok ()

/-- `_inspect_archive` -/
def inspectArchive (py : Python) (archive : Archive) (contract : ArchiveContract)
    (expectedIdentity : Option ArchiveIdentity) :
    Except String (ArchiveIdentity × Descriptor × SelectedPlatform) := do
  checkFile archive expectedIdentity
  let members ← readMembers (← archive.members)
  let root ← readRoot py members
  let (descriptor, record, verified) ← resolveRoot py members contract root
  raiseIf (descriptor.mediaType ∉ manifestMediaTypes)
    "selected OCI image manifest mediaType is unsupported"
  raiseIf (contract.manifest.isSome ∧ some descriptor ≠ contract.manifest)
    "OCI archive root does not resolve to the trusted platform manifest"
  checkRecord record contract
  let (config, verified) ← readImage py members descriptor verified
  platformMatches (.obj config) contract "OCI image config"
  let variant ← selectVariant record config
  raiseIf ((includedBlobs members).toFinset ≠ verified.keys.toFinset)
    (closureText (includedBlobs members) verified.keys)
  raiseIf (¬ archive.unchanged) "OCI archive changed during validation"
  return (archive.identity, descriptor, ⟨contract.ociArchitecture, contract.os, variant⟩)

end BuckosDistro.Oci
