/-
  What a server says it can do (`infra/remote-execution/scripts/reapi_readiness.py`,
  `decode_capabilities`).

  The messages are those of the schema: a field of a message is its occurrences among the
  fields of the bytes, wherever they stand and whatever else the bytes hold. The digest
  functions of an execution are looked for under the number of its node properties, so that
  their text decides where the schema says it does not.
-/
import BuckosDistro.Reapi.Proto

namespace BuckosDistro.Reapi

open BuckosDistro.Lib

/-! ## Fields by number -/

/-- `if field.number != number: continue` -/
def fieldsOf (fields : List ProtoField) (number : ℕ) : List ProtoField :=
  fields.filter fun field => field.number = number

def wrongWireType (number : ℕ) : String :=
  "protobuf field " ++ toString number ++ " has the wrong wire type"

/-- What `_bytes_fields` takes from a field. -/
def bytesValue (field : ProtoField) : Except String (List UInt8) :=
  match field.wireType, field.value with
  | 2, .bytes value => .ok value
  | _, _ => .error (wrongWireType field.number)

/-- `_bytes_fields` -/
def bytesFields (fields : List ProtoField) (number : ℕ) : Except String (List (List UInt8)) :=
  (fieldsOf fields number).mapM bytesValue

/-- What `_int_fields` takes from a field. -/
def intValue (field : ProtoField) : Except String ℕ :=
  match field.wireType, field.value with
  | 0, .int value => .ok value
  | _, _ => .error (wrongWireType field.number)

/-- `_int_fields` -/
def intFields (fields : List ProtoField) (number : ℕ) : Except String (List ℕ) :=
  (fieldsOf fields number).mapM intValue

/-- `_one_bytes` -/
def oneBytes (fields : List ProtoField) (number : ℕ) (name : String) :
    Except String (List UInt8) := do
  let values ← bytesFields fields number
  match values with
  | [value] => .ok value
  | _ => .error (name ++ " must occur exactly once")

/-- `_optional_int`, with its default -/
def optionalInt (fields : List ProtoField) (number : ℕ) (name : String) : Except String ℕ := do
  let values ← intFields fields number
  match values with
  | [] => .ok 0
  | [value] => .ok value
  | _ => .error (name ++ " must not occur more than once")

theorem lt_of_decodeVarint {data : List UInt8} {offset value next : ℕ}
    (h : decodeVarint data offset = .ok (value, next)) : offset < next := by
  have hoffset : offset < data.length := by
    by_contra hend
    have hkey : decodeVarint data offset = .error "truncated protobuf varint" := by
      unfold decodeVarint
      rw [decodeVarintFrom, dif_pos (not_lt.mp hend)]
    rw [hkey] at h
    cases h
  obtain ⟨bytes, rest, hvarint, _, hnext⟩ :=
    (spells_decodeVarint data offset value next hoffset.le).mp h
  have hpos := hvarint.groups.length_pos
  omega

/-- `while offset < len(field.value)` over a packed field -/
def packedValues (data : List UInt8) : Except String (List ℕ) :=
  Reader.all ⟨decodeVarint, lt_of_decodeVarint⟩ data 0

/-- What `_enum_values` takes from a field. -/
def enumPart (field : ProtoField) : Except String (List ℕ) :=
  match field.wireType, field.value with
  | 0, .int value => .ok [value]
  | 2, .bytes value => packedValues value
  | _, _ =>
    .error ("protobuf enum field " ++ toString field.number ++ " has the wrong wire type")

/-- `_enum_values`; a set of the source, here with its elements in the order they come. -/
def enumValues (fields : List ProtoField) (number : ℕ) : Except String (List ℕ) := do
  let parts ← (fieldsOf fields number).mapM enumPart
  return parts.flatten

/-! ## Versions -/

structure Semver where
  major : ℕ
  minor : ℕ
  patch : ℕ
deriving DecidableEq, Repr

/-- Versions are compared as tuples are. -/
def Semver.key (v : Semver) : ℕ ×ₗ ℕ ×ₗ ℕ := toLex (v.major, toLex (v.minor, v.patch))

/-- `_decode_semver` -/
def decodeSemver (data : List UInt8) (name : String) : Except String Semver := do
  let fields ← parseFields data
  let major ← optionalInt fields 1 (name ++ " major")
  let minor ← optionalInt fields 2 (name ++ " minor")
  let patch ← optionalInt fields 3 (name ++ " patch")
  return ⟨major, minor, patch⟩

/-- `_format_semver` -/
def formatSemver (version : Semver) : String :=
  toString version.major ++ "." ++ toString version.minor ++ "." ++ toString version.patch

/-! ## The decoder -/

/-- `SHA256` -/
def sha256 : ℕ := 1

/-- What `decode_capabilities` returns. -/
structure Capabilities where
  apiHigh : String
  apiLow : String
  cacheUpdateEnabled : Bool
  digestFunction : String
  executionEnabled : Bool
  instanceName : String
deriving DecidableEq, Repr

/-- `decode_capabilities` -/
def decodeCapabilities (data : List UInt8) (instanceName : String) :
    Except String Capabilities := do
  let fields ← parseFields data
  let cacheData ← oneBytes fields 1 "cache capabilities"
  let executionData ← oneBytes fields 2 "execution capabilities"
  let lowData ← oneBytes fields 4 "low API version"
  let highData ← oneBytes fields 5 "high API version"
  let cacheFields ← parseFields cacheData
  let cacheDigests ← enumValues cacheFields 1
  raiseIf (sha256 ∉ cacheDigests) "GetCapabilities does not advertise SHA-256 cache digests"
  let updateData ← oneBytes cacheFields 2 "action-cache update capabilities"
  let updateFields ← parseFields updateData
  let updateEnabled ← optionalInt updateFields 1 "action-cache update flag"
  raiseIf (updateEnabled ≠ 1) "GetCapabilities disables action-cache updates"
  let executionFields ← parseFields executionData
  let execEnabled ← optionalInt executionFields 2 "remote execution enabled flag"
  raiseIf (execEnabled ≠ 1) "GetCapabilities disables remote execution"
  let legacyDigests ← enumValues executionFields 1
  let executionDigests ← enumValues executionFields 4
  raiseIf (sha256 ∉ legacyDigests ++ executionDigests)
    "GetCapabilities does not advertise SHA-256 execution digests"
  let low ← decodeSemver lowData "low API version"
  let high ← decodeSemver highData "high API version"
  raiseIf (high.key < low.key) "GetCapabilities returned an inverted API range"
  raiseIf (¬ (low.major ≤ 2 ∧ 2 ≤ high.major)) ("GetCapabilities API range " ++
    formatSemver low ++ ".." ++ formatSemver high ++ " excludes REAPI v2")
  return {
    apiHigh := formatSemver high
    apiLow := formatSemver low
    cacheUpdateEnabled := true
    digestFunction := "SHA256"
    executionEnabled := true
    instanceName := instanceName }

/-! ## The schema -/

/-- `CacheCapabilities`: `digest_functions` 1, and the flag of
    `action_cache_update_capabilities` 2 where that message is there. -/
structure CacheCapabilities where
  digestFunctions : List ℕ
  updateEnabled : Option Bool

/-- `ExecutionCapabilities`: `digest_function` 1, `exec_enabled` 2,
    `supported_node_properties` 4, `digest_functions` 5. -/
structure ExecutionCapabilities where
  digestFunction : ℕ
  execEnabled : Bool
  supportedNodeProperties : List (List UInt8)
  digestFunctions : List ℕ

/-- `ServerCapabilities`: `cache_capabilities` 1, `execution_capabilities` 2,
    `low_api_version` 4, `high_api_version` 5. -/
structure ServerCapabilities where
  cache : CacheCapabilities
  execution : ExecutionCapabilities
  lowApiVersion : Semver
  highApiVersion : Semver

/-- An integer field, left out where it is zero or written. -/
def IntField (fields : List ProtoField) (number value : ℕ) : Prop :=
  (fieldsOf fields number = [] ∧ value = 0) ∨
    fieldsOf fields number = [⟨number, 0, .int value⟩]

/-- A flag, an integer of the schema. -/
def BoolField (fields : List ProtoField) (number : ℕ) (value : Bool) : Prop :=
  IntField fields number value.toNat

/-- A repeated string or message field. -/
def BytesFields (fields : List ProtoField) (number : ℕ) (values : List (List UInt8)) : Prop :=
  fieldsOf fields number = values.map fun value => ⟨number, 2, .bytes value⟩

/-- One occurrence of a repeated enum: a value, or packed values. -/
inductive EnumPart (number : ℕ) : ProtoField → List ℕ → Prop where
  | single (value : ℕ) : EnumPart number ⟨number, 0, .int value⟩ [value]
  | packed {data : List UInt8} {values : List ℕ} (h : Spelling Varint data values) :
      EnumPart number ⟨number, 2, .bytes data⟩ values

/-- A repeated enum field, packed or not. -/
def EnumField (fields : List ProtoField) (number : ℕ) (values : List ℕ) : Prop :=
  ∃ parts, List.Forall₂ (EnumPart number) (fieldsOf fields number) parts ∧
    values = parts.flatten

/-- The bytes of a message whose fields are as `fields` says. -/
def MessageBytes (data : List UInt8) (contents : List ProtoField → Prop) : Prop :=
  ∃ fields, Spelling FieldBytes data fields ∧ contents fields

def EncodesSemver (data : List UInt8) (v : Semver) : Prop :=
  MessageBytes data fun fields =>
    IntField fields 1 v.major ∧ IntField fields 2 v.minor ∧ IntField fields 3 v.patch

def EncodesUpdate (data : List UInt8) (enabled : Bool) : Prop :=
  MessageBytes data fun fields => BoolField fields 1 enabled

def EncodesCache (data : List UInt8) (m : CacheCapabilities) : Prop :=
  MessageBytes data fun fields => EnumField fields 1 m.digestFunctions ∧
    ∃ updates, BytesFields fields 2 updates ∧ List.Forall₂ EncodesUpdate updates
      m.updateEnabled.toList

def EncodesExecution (data : List UInt8) (m : ExecutionCapabilities) : Prop :=
  MessageBytes data fun fields => IntField fields 1 m.digestFunction ∧
    BoolField fields 2 m.execEnabled ∧ BytesFields fields 4 m.supportedNodeProperties ∧
    EnumField fields 5 m.digestFunctions

/-- The bytes of a message that has its four submessages. -/
def EncodesServer (data : List UInt8) (m : ServerCapabilities) : Prop :=
  MessageBytes data fun fields =>
    (∃ cache, BytesFields fields 1 [cache] ∧ EncodesCache cache m.cache) ∧
    (∃ execution, BytesFields fields 2 [execution] ∧ EncodesExecution execution m.execution) ∧
    (∃ low, BytesFields fields 4 [low] ∧ EncodesSemver low m.lowApiVersion) ∧
    ∃ high, BytesFields fields 5 [high] ∧ EncodesSemver high m.highApiVersion

/-- What the server has to offer besides a digest function of execution. -/
def ServerCapabilities.Offers (m : ServerCapabilities) : Prop :=
  sha256 ∈ m.cache.digestFunctions ∧ m.cache.updateEnabled = some true ∧
    m.execution.execEnabled = true ∧ m.lowApiVersion.key ≤ m.highApiVersion.key ∧
    m.lowApiVersion.major ≤ 2 ∧ 2 ≤ m.highApiVersion.major

/-- SHA-256 is a digest function of execution, in the field or in the list of them. -/
def ExecutionCapabilities.Advertises (m : ExecutionCapabilities) : Prop :=
  m.digestFunction = sha256 ∨ sha256 ∈ m.digestFunctions

/-! ## What the helpers read -/

section Fields

variable {fields : List ProtoField} {number : ℕ} {data : List UInt8}

theorem bytesFields_ok {values : List (List UInt8)} (h : BytesFields fields number values) :
    bytesFields fields number = .ok values := by
  unfold bytesFields
  have hread : ∀ value ∈ values,
      (bytesValue ∘ fun value => ⟨number, 2, .bytes value⟩) value = .ok (id value) :=
    fun _ _ => rfl
  rw [h, List.mapM_map, Lists.mapM_ok_of_forall hread, List.map_id]

theorem oneBytes_ok {value : List UInt8} (h : BytesFields fields number [value]) (name : String) :
    oneBytes fields number name = .ok value := by
  unfold oneBytes
  rw [bytesFields_ok h]
  rfl

theorem optionalInt_ok {value : ℕ} (h : IntField fields number value) (name : String) :
    optionalInt fields number name = .ok value := by
  unfold optionalInt intFields
  obtain ⟨hnone, rfl⟩ | hone := h
  · rw [hnone]
    rfl
  · rw [hone]
    rfl

theorem packedValues_iff {values : List ℕ} :
    packedValues data = .ok values ↔ Spelling Varint data values := by
  unfold packedValues
  rw [Reader.all_iff _ spells_decodeVarint (Nat.zero_le _), List.drop_zero]

theorem enumValues_ok {values : List ℕ} (h : EnumField fields number values) :
    enumValues fields number = .ok values := by
  obtain ⟨parts, hparts, rfl⟩ := h
  unfold enumValues
  have hread : ∀ field part, EnumPart number field part → enumPart field = .ok part := by
    intro field part hpart
    cases hpart with
    | single value => rfl
    | packed h => exact packedValues_iff.mpr h
  rw [Lists.mapM_ok_iff.mpr (hparts.imp hread)]
  rfl

/-- A single integer read as an enum. -/
theorem enumValues_int {value : ℕ} (h : IntField fields number value) :
    ∃ values, enumValues fields number = .ok values ∧ (sha256 ∈ values ↔ value = sha256) := by
  unfold enumValues
  obtain ⟨hnone, rfl⟩ | hone := h
  · rw [hnone]
    exact ⟨[], rfl, by decide⟩
  · rw [hone]
    exact ⟨[value], rfl, by rw [List.mem_singleton, eq_comm]⟩

/-- Strings read as packed enums. -/
theorem enumValues_bytes {strings : List (List UInt8)} (h : BytesFields fields number strings)
    {values : List ℕ} :
    enumValues fields number = .ok values ↔
      ∃ parts, strings.mapM packedValues = .ok parts ∧ values = parts.flatten := by
  unfold enumValues
  rw [h, List.mapM_map]
  rw [Raise.bind_ok]
  simp only [Raise.pure_ok]
  constructor
  · rintro ⟨parts, hparts, hvalues⟩
    exact ⟨parts, hparts, hvalues.symm⟩
  · rintro ⟨parts, hparts, hvalues⟩
    exact ⟨parts, hparts, hvalues.symm⟩

theorem decodeSemver_ok {v : Semver} (h : EncodesSemver data v) (name : String) :
    decodeSemver data name = .ok v := by
  obtain ⟨fields, hspelled, hmajor, hminor, hpatch⟩ := h
  unfold decodeSemver
  rw [parseFields_iff.mpr hspelled]
  show (do
    let major ← optionalInt fields 1 (name ++ " major")
    let minor ← optionalInt fields 2 (name ++ " minor")
    let patch ← optionalInt fields 3 (name ++ " patch")
    return ⟨major, minor, patch⟩ : Except String Semver) = .ok v
  rw [optionalInt_ok hmajor, optionalInt_ok hminor, optionalInt_ok hpatch]
  rfl

end Fields

/-! ## What is accepted -/

section Accepted

variable {data : List UInt8} {m : ServerCapabilities}

/-- The bytes of the node properties read as packed enums, in which SHA-256 is looked for. -/
def ReadAsDigests (m : ExecutionCapabilities) : Prop :=
  ∃ parts, m.supportedNodeProperties.mapM packedValues = .ok parts ∧
    (m.digestFunction = sha256 ∨ sha256 ∈ parts.flatten)

/-- The update flag is read where its message is there. -/
theorem update_read_iff {cacheFields : List ProtoField} {updates : List (List UInt8)}
    {enabled : Option Bool} (hupdates : BytesFields cacheFields 2 updates)
    (h : List.Forall₂ EncodesUpdate updates enabled.toList) (name flag : String) :
    (∃ updateData, oneBytes cacheFields 2 name = .ok updateData ∧
      ∃ updateFields, parseFields updateData = .ok updateFields ∧
        ∃ value, optionalInt updateFields 1 flag = .ok value ∧ value = 1) ↔
      enabled = some true := by
  cases enabled with
  | none =>
    obtain rfl : updates = [] := List.forall₂_nil_right_iff.mp h
    unfold oneBytes
    rw [bytesFields_ok hupdates]
    constructor
    · intro ⟨_, hread, _⟩
      cases hread
    · intro he
      cases he
  | some enabled =>
    obtain ⟨updateData, rest, ⟨fields, hfields, hflag⟩, hrest, rfl⟩ :=
      List.forall₂_cons_right_iff.mp h
    obtain rfl : rest = [] := List.forall₂_nil_right_iff.mp hrest
    have hread := parseFields_iff.mpr hfields
    rw [oneBytes_ok hupdates]
    simp only [Except.ok.injEq, exists_eq_left', hread, optionalInt_ok hflag, Option.some.injEq]
    cases enabled <;> decide

theorem decodeCapabilities_ok_iff (h : EncodesServer data m) (instanceName : String) :
    (∃ result, decodeCapabilities data instanceName = .ok result) ↔
      m.Offers ∧ ReadAsDigests m.execution := by
  obtain ⟨fields, hfields, ⟨cacheData, hcacheData, cacheFields, hcacheFields, hcacheDigests,
    updates, hupdates, hupdate⟩, ⟨executionData, hexecutionData, executionFields,
    hexecutionFields, hlegacy, henabled, hproperties, _⟩, ⟨lowData, hlowData, hlow⟩,
    ⟨highData, hhighData, hhigh⟩⟩ := h
  obtain ⟨legacy, hlegacyRead, hlegacyMem⟩ := enumValues_int hlegacy
  unfold decodeCapabilities
  simp only [parseFields_iff.mpr hfields, oneBytes_ok hcacheData, oneBytes_ok hexecutionData,
    oneBytes_ok hlowData, oneBytes_ok hhighData, parseFields_iff.mpr hcacheFields,
    enumValues_ok hcacheDigests, parseFields_iff.mpr hexecutionFields,
    optionalInt_ok henabled, hlegacyRead, decodeSemver_ok hlow, decodeSemver_ok hhigh,
    Raise.bind_ok, Raise.raiseIf_ok, Raise.pure_ok, Except.ok.injEq, exists_eq_left',
    enumValues_bytes hproperties]
  have hupdateRead := update_read_iff hupdates hupdate "action-cache update capabilities"
    "action-cache update flag"
  have henabledRead : m.execution.execEnabled.toNat = 1 ↔ m.execution.execEnabled = true := by
    cases m.execution.execEnabled <;> decide
  constructor
  · rintro ⟨_, _, hcache, updateData, hupdateData, updateFields, hupdateFields, value, hvalue, _,
      hone, _, henable, _, ⟨parts, hparts, hflat⟩, _, hdigest, _, horder, _, hrange, _⟩
    rw [not_not] at hcache hone henable hdigest hrange
    rw [List.mem_append, hlegacyMem, hflat] at hdigest
    exact ⟨⟨hcache, hupdateRead.mp ⟨updateData, hupdateData, updateFields, hupdateFields, value,
      hvalue, hone⟩, henabledRead.mp henable, not_lt.mp horder, hrange⟩, parts, hparts, hdigest⟩
  · rintro ⟨⟨hcache, hupdated, henable, horder, hrange⟩, parts, hparts, hdigest⟩
    obtain ⟨updateData, hupdateData, updateFields, hupdateFields, value, hvalue, hone⟩ :=
      hupdateRead.mpr hupdated
    rw [← hlegacyMem, ← List.mem_append] at hdigest
    exact ⟨_, (), not_not.mpr hcache, updateData, hupdateData, updateFields, hupdateFields, value,
      hvalue, (), not_not.mpr hone, (), not_not.mpr (henabledRead.mpr henable), _,
      ⟨parts, hparts, rfl⟩, (), not_not.mpr hdigest, (), not_lt.mpr horder, (),
      not_not.mpr hrange, rfl⟩

/-- A string whose bytes are packed varints. -/
def ReadsAsVarints (string : List UInt8) : Prop := ∃ values, packedValues string = .ok values

/-- A string whose bytes are packed varints, SHA-256 among them. -/
def NamesSha256 (string : List UInt8) : Prop :=
  ∃ values, packedValues string = .ok values ∧ sha256 ∈ values

/-- What is looked for in the node properties is there when the schema has it elsewhere. -/
structure PropertiesAgree (m : ExecutionCapabilities) : Prop where
  legacy : m.digestFunction = sha256 → ∀ s ∈ m.supportedNodeProperties, ReadsAsVarints s
  listed : m.digestFunction ≠ sha256 → (sha256 ∈ m.digestFunctions ↔
    (∀ s ∈ m.supportedNodeProperties, ReadsAsVarints s) ∧
      ∃ s ∈ m.supportedNodeProperties, NamesSha256 s)

theorem exists_parts_iff {strings : List (List UInt8)} :
    (∃ parts, strings.mapM packedValues = .ok parts) ↔ ∀ s ∈ strings, ReadsAsVarints s := by
  constructor
  · intro ⟨parts, hparts⟩ s hs
    obtain ⟨values, _, hread⟩ := Lists.exists_of_mem_mapM_ok hparts hs
    exact ⟨values, hread⟩
  · intro h
    have hread : ∀ s ∈ strings, packedValues s = .ok
        (match packedValues s with | .ok values => values | .error _ => []) := by
      intro s hs
      obtain ⟨values, hvalues⟩ := h s hs
      rw [hvalues]
    exact ⟨_, Lists.mapM_ok_of_forall hread⟩

theorem readAsDigests_iff {m : ExecutionCapabilities} :
    ReadAsDigests m ↔ (∀ s ∈ m.supportedNodeProperties, ReadsAsVarints s) ∧
      (m.digestFunction = sha256 ∨ ∃ s ∈ m.supportedNodeProperties, NamesSha256 s) := by
  rw [← exists_parts_iff]
  constructor
  · intro ⟨parts, hparts, hdigest⟩
    refine ⟨⟨parts, hparts⟩, hdigest.imp_right fun hmem => ?_⟩
    obtain ⟨values, hvalues, hsha⟩ := List.mem_flatten.mp hmem
    obtain ⟨s, hs, hread⟩ := Lists.exists_of_mapM_ok hparts hvalues
    exact ⟨s, hs, values, hread, hsha⟩
  · intro ⟨⟨parts, hparts⟩, hdigest⟩
    refine ⟨parts, hparts, hdigest.imp_right fun ⟨s, hs, values, hread, hsha⟩ => ?_⟩
    obtain ⟨values', hvalues', hread'⟩ := Lists.exists_of_mem_mapM_ok hparts hs
    rw [hread] at hread'
    rw [List.mem_flatten]
    exact ⟨values', hvalues', Except.ok.inj hread' ▸ hsha⟩

theorem propertiesAgree_iff {m : ExecutionCapabilities} :
    PropertiesAgree m ↔ (ReadAsDigests m ↔ m.Advertises) := by
  rw [readAsDigests_iff]
  unfold ExecutionCapabilities.Advertises
  by_cases hlegacy : m.digestFunction = sha256
  · constructor
    · intro h
      exact ⟨fun _ => Or.inl hlegacy, fun _ => ⟨h.legacy hlegacy, Or.inl hlegacy⟩⟩
    · intro h
      exact ⟨fun _ => (h.mpr (Or.inl hlegacy)).1, fun hne => absurd hlegacy hne⟩
  · simp only [hlegacy, false_or]
    constructor
    · intro h
      exact (h.listed hlegacy).symm
    · intro h
      exact ⟨fun he => absurd he hlegacy, fun _ => h.symm⟩

end Accepted

/-! ## Servers on the wire -/

section Wire

theorem varint_byte {b : UInt8} (h : b.toNat < 128) : Varint [b] b.toNat :=
  ⟨.last h, by rw [List.length_singleton]; omega, by omega⟩

theorem fieldBytes_int {key b : UInt8} {number : ℕ} (hkey : key.toNat = 8 * number)
    (hpos : 0 < number) (hsmall : number < 16) (hb : b.toNat < 128) :
    FieldBytes [key, b] ⟨number, 0, .int b.toNat⟩ := by
  have hvarint : Varint [key] key.toNat := varint_byte (by omega)
  have hlimit : number < 2 ^ 29 := by omega
  rw [hkey] at hvarint
  exact ⟨[key], [b], rfl, hvarint, hpos, hlimit, .varint (varint_byte hb)⟩

theorem fieldBytes_bytes {key length : UInt8} {body : List UInt8} {number : ℕ}
    (hkey : key.toNat = 8 * number + 2) (hpos : 0 < number) (hsmall : number < 15)
    (hlength : length.toNat = body.length) (hshort : body.length < 128) :
    FieldBytes (key :: length :: body) ⟨number, 2, .bytes body⟩ := by
  have hvarint : Varint [key] key.toNat := varint_byte (by omega)
  have hbody : Varint [length] length.toNat := varint_byte (by omega)
  have hlimit : number < 2 ^ 29 := by omega
  rw [hkey] at hvarint
  rw [hlength] at hbody
  exact ⟨[key], length :: body, rfl, hvarint, hpos, hlimit, .delimited hbody⟩

/-- A server that offers what is asked for besides `execution`. -/
def serverOf (execution : ExecutionCapabilities) : ServerCapabilities :=
  ⟨⟨[1], some true⟩, execution, ⟨2, 0, 0⟩, ⟨2, 0, 0⟩⟩

/-- The bytes of `serverOf`, around those of its execution. -/
def serverBytes (execution : List UInt8) : List UInt8 :=
  [10, 6, 8, 1, 18, 2, 8, 1] ++ ([18, UInt8.ofNat execution.length] ++ execution) ++
    [34, 2, 8, 2, 42, 2, 8, 2]

theorem encodesServer_serverOf {data : List UInt8} {execution : ExecutionCapabilities}
    (h : EncodesExecution data execution) (hshort : data.length < 128) :
    EncodesServer (serverBytes data) (serverOf execution) := by
  have hversion : EncodesSemver [8, 2] ⟨2, 0, 0⟩ :=
    ⟨[⟨1, 0, .int 2⟩], .cons (fieldBytes_int rfl (by decide) (by decide) (by decide)) .nil,
      Or.inr rfl, Or.inl ⟨rfl, rfl⟩, Or.inl ⟨rfl, rfl⟩⟩
  have hupdate : EncodesUpdate [8, 1] true :=
    ⟨[⟨1, 0, .int 1⟩], .cons (fieldBytes_int rfl (by decide) (by decide) (by decide)) .nil,
      Or.inr rfl⟩
  have hupdates : FieldBytes [18, 2, 8, 1] ⟨2, 2, .bytes [8, 1]⟩ :=
    fieldBytes_bytes rfl (by decide) (by decide) rfl (by decide)
  have hcache : EncodesCache [8, 1, 18, 2, 8, 1] ⟨[1], some true⟩ :=
    ⟨[⟨1, 0, .int 1⟩, ⟨2, 2, .bytes [8, 1]⟩],
      .cons (fieldBytes_int rfl (by decide) (by decide) (by decide)) (.cons hupdates .nil),
      ⟨[[1]], .cons (.single 1) .nil, rfl⟩, [[8, 1]], rfl, .cons hupdate .nil⟩
  have hlength : (UInt8.ofNat data.length).toNat = data.length := by
    rw [UInt8.toNat_ofNat']
    omega
  have hfirst : FieldBytes [10, 6, 8, 1, 18, 2, 8, 1] ⟨1, 2, .bytes [8, 1, 18, 2, 8, 1]⟩ :=
    fieldBytes_bytes rfl (by decide) (by decide) rfl (by decide)
  have hsecond : FieldBytes ([18, UInt8.ofNat data.length] ++ data) ⟨2, 2, .bytes data⟩ :=
    fieldBytes_bytes rfl (by decide) (by decide) hlength hshort
  have hfourth : FieldBytes [34, 2, 8, 2] ⟨4, 2, .bytes [8, 2]⟩ :=
    fieldBytes_bytes rfl (by decide) (by decide) rfl (by decide)
  have hfifth : FieldBytes [42, 2, 8, 2] ⟨5, 2, .bytes [8, 2]⟩ :=
    fieldBytes_bytes rfl (by decide) (by decide) rfl (by decide)
  have hfields : Spelling FieldBytes (serverBytes data) [⟨1, 2, .bytes [8, 1, 18, 2, 8, 1]⟩,
      ⟨2, 2, .bytes data⟩, ⟨4, 2, .bytes [8, 2]⟩, ⟨5, 2, .bytes [8, 2]⟩] := by
    unfold serverBytes
    rw [List.append_assoc]
    exact .cons hfirst (.cons hsecond (.cons hfourth (.cons hfifth .nil)))
  exact ⟨_, hfields, ⟨_, rfl, hcache⟩, ⟨_, rfl, h⟩, ⟨_, rfl, hversion⟩, ⟨_, rfl, hversion⟩⟩

theorem offers_serverOf {execution : ExecutionCapabilities}
    (h : execution.execEnabled = true) : (serverOf execution).Offers :=
  ⟨List.mem_singleton.mpr rfl, rfl, h, le_rfl, le_rfl, le_rfl⟩

end Wire

/-- **When a server is taken for what it says.** A message of the schema is accepted just
    when it should be, exactly where the node properties of a server that offers the rest
    agree with its digest functions. -/
theorem accepted_as_advertised_iff (data : List UInt8) (m : ServerCapabilities)
    (instanceName : String) (h : EncodesServer data m) :
    ((∃ result, decodeCapabilities data instanceName = .ok result) ↔
      m.Offers ∧ m.execution.Advertises) ↔ (m.Offers → PropertiesAgree m.execution) := by
  rw [decodeCapabilities_ok_iff h, propertiesAgree_iff, and_congr_right_iff]

/-- A server with SHA-256 in the field of its digest function and no node properties. -/
theorem accepted_as_advertised_field :
    (∃ result, decodeCapabilities (serverBytes [8, 1, 16, 1]) "main" = .ok result) ↔
      (serverOf ⟨1, true, [], []⟩).Offers ∧
        (serverOf ⟨1, true, [], []⟩).execution.Advertises := by
  have hexecution : EncodesExecution [8, 1, 16, 1] ⟨1, true, [], []⟩ :=
    ⟨[⟨1, 0, .int 1⟩, ⟨2, 0, .int 1⟩],
      .cons (fieldBytes_int rfl (by decide) (by decide) (by decide))
        (.cons (fieldBytes_int rfl (by decide) (by decide) (by decide)) .nil),
      Or.inr rfl, Or.inr rfl, rfl, [], .nil, rfl⟩
  refine (accepted_as_advertised_iff (serverBytes [8, 1, 16, 1]) _ "main"
    (encodesServer_serverOf hexecution (by decide))).mpr fun _ => ?_
  exact ⟨fun _ s hs => (nomatch hs), fun hne => absurd rfl hne⟩

/-- A server that lists SHA-256 among its digest functions only is refused. -/
theorem listed_digest_refused :
    ¬ ∀ data m, EncodesServer data m → ((∃ result, decodeCapabilities data "main" = .ok result) ↔
      m.Offers ∧ m.execution.Advertises) := by
  intro hclaim
  have hpacked : Spelling Varint [1] [1] := .cons (varint_byte (by decide)) .nil
  have hlisted : FieldBytes [42, 1, 1] ⟨5, 2, .bytes [1]⟩ :=
    fieldBytes_bytes rfl (by decide) (by decide) rfl (by decide)
  have hexecution : EncodesExecution [16, 1, 42, 1, 1] ⟨0, true, [], [1]⟩ :=
    ⟨[⟨2, 0, .int 1⟩, ⟨5, 2, .bytes [1]⟩],
      .cons (fieldBytes_int rfl (by decide) (by decide) (by decide)) (.cons hlisted .nil),
      Or.inl ⟨rfl, rfl⟩, Or.inr rfl, rfl, [[1]], .cons (.packed hpacked) .nil, rfl⟩
  have hserver := encodesServer_serverOf hexecution (by decide)
  have hoffers : (serverOf ⟨0, true, [], [1]⟩).Offers := offers_serverOf rfl
  have haccepted := (hclaim _ _ hserver).mpr ⟨hoffers, Or.inr (List.mem_singleton.mpr rfl)⟩
  obtain ⟨_, parts, hparts, hdigest⟩ := (decodeCapabilities_ok_iff hserver "main").mp haccepted
  obtain rfl : [] = parts := Except.ok.inj hparts
  obtain hlegacy | hlisted := hdigest
  · exact absurd hlegacy (by decide)
  · exact absurd hlisted List.not_mem_nil

end BuckosDistro.Reapi
