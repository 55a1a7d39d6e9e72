/-
  The messages of the store (`infra/remote-execution/scripts/reapi_readiness.py`).

  What is encoded, of the client and of the server, is a sequence of fields on the wire
  (`Message`), so that the decoders find in it what was put there.
-/
import BuckosDistro.Reapi.Capabilities

namespace BuckosDistro.Reapi

open BuckosDistro.Lib

/-! ## Texts -/

/-- `value.encode("utf-8")` -/
def utf8 (value : String) : List UInt8 := value.toUTF8.data.toList

/-- `_encode_string` -/
def encodeString (number : ℕ) (value : String) : Except String (List UInt8) :=
  encodeBytes number (utf8 value)

/-- `_decode_text` -/
def decodeText (data : List UInt8) (name : String) : Except String String :=
  match String.fromUTF8? ⟨data.toArray⟩ with
  | none => .error (name ++ " is not UTF-8")
  | some text => .ok text

theorem decodeText_utf8 (value name : String) : decodeText (utf8 value) name = .ok value := by
  have hvalue : String.fromUTF8? value.toUTF8 = some value := by
    unfold String.fromUTF8?
    exact dif_pos value.isValidUTF8
  unfold decodeText utf8
  rw [Array.toArray_toList, hvalue]

theorem length_utf8_le (value : String) : (utf8 value).length ≤ 4 * value.length := by
  have hsize : ∀ cs : List Char, (String.ofList cs).utf8ByteSize ≤ 4 * cs.length := by
    intro cs
    induction cs with
    | nil => exact Nat.zero_le _
    | cons c cs ih =>
      have hc := c.utf8Size_le_four
      rw [List.length_cons, ← List.singleton_append, String.ofList_append,
        String.utf8ByteSize_append]
      have hone : (String.ofList [c]).utf8ByteSize = c.utf8Size := String.utf8ByteSize_singleton
      omega
  have hvalue := hsize value.toList
  rwa [String.ofList_toList, String.length_toList] at hvalue

/-! ## Digests -/

/-- `[0-9a-f]` -/
def isHexChar (c : Char) : Bool := c.isDigit || ('a' ≤ c && c ≤ 'f')

/-- `re.fullmatch(r"[0-9a-f]{n}", text)` -/
def isHex (n : ℕ) (text : String) : Bool := text.toList.length = n && text.toList.all isHexChar

/-- `_one_int` -/
def oneInt (fields : List ProtoField) (number : ℕ) (name : String) : Except String ℕ := do
  let values ← intFields fields number
  match values with
  | [value] => .ok value
  | _ => .error (name ++ " must occur exactly once")

/-- The parts of a message, one after another. -/
def joined (parts : List (Except String (List UInt8))) : Except String (List UInt8) := do
  let parts ← parts.mapM id
  return parts.flatten

/-- `_encode_digest` -/
def encodeDigest (digest : String) (size : ℕ) : Except String (List UInt8) :=
  joined [encodeString 1 digest, encodeInt 2 size]

/-- `_decode_digest` -/
def decodeDigest (data : List UInt8) : Except String (String × ℕ) := do
  let fields ← parseFields data
  let digest ← oneBytes fields 1 "digest hash"
  let digest ← decodeText digest "digest hash"
  let size ← oneInt fields 2 "digest size"
  raiseIf (isHex 64 digest = false) "server returned a malformed SHA-256 digest"
  return (digest, size)

/-! ## Requests and responses -/

/-- `encode_find_missing_request` -/
def encodeFindMissingRequest (instanceName digest : String) (size : ℕ) :
    Except String (List UInt8) := do
  let identity ← encodeDigest digest size
  joined [encodeString 1 instanceName, encodeBytes 2 identity]

/-- `decode_find_missing_response` -/
def decodeFindMissingResponse (data : List UInt8) : Except String (List (String × ℕ)) := do
  let fields ← parseFields data
  let digests ← bytesFields fields 2
  digests.mapM decodeDigest

/-- `encode_write_request` -/
def encodeWriteRequest (resourceName : String) (data : List UInt8) :
    Except String (List UInt8) :=
  joined [encodeString 1 resourceName, encodeInt 2 0, encodeInt 3 1, encodeBytes 10 data]

/-- `decode_write_response` -/
def decodeWriteResponse (data : List UInt8) : Except String ℕ := do
  let fields ← parseFields data
  oneInt fields 1 "committed size"

/-- `encode_read_request` -/
def encodeReadRequest (resourceName : String) (size : ℕ) : Except String (List UInt8) :=
  joined [encodeString 1 resourceName, encodeInt 2 0, encodeInt 3 size]

/-- `decode_read_response` -/
def decodeReadResponse (data : List UInt8) : Except String (List UInt8) := do
  let fields ← parseFields data
  let chunks ← bytesFields fields 10
  match chunks with
  | [chunk] => .ok chunk
  | _ => .error "ByteStream ReadResponse must contain one data field"

/-! ## What is encoded is decoded -/

/-- A part that is computed is passed on. -/
theorem ok_bind {α β : Type} (a : α) (f : α → Except String β) : (Except.ok a >>= f) = f a := rfl

/-- A field that holds bytes. -/
def bytesField (number : ℕ) (value : List UInt8) : ProtoField := ⟨number, 2, .bytes value⟩

/-- A field that holds a number. -/
def intField (number value : ℕ) : ProtoField := ⟨number, 0, .int value⟩

section Fields

variable {number : ℕ} {data : List UInt8} {fields : List ProtoField}

theorem valid_bytesField {value : List UInt8} (hpos : 0 < number) (hlimit : number < 2 ^ 29)
    (h : value.length < 2 ^ 64) : (bytesField number value).Valid :=
  ⟨hpos, hlimit, .delimited h⟩

theorem valid_intField {value : ℕ} (hpos : 0 < number) (hlimit : number < 2 ^ 29)
    (h : value < 2 ^ 64) : (intField number value).Valid :=
  ⟨hpos, hlimit, .varint h⟩

/-- The bytes a value takes on the wire, without its key and length. -/
def ProtoValue.size : ProtoValue → ℕ
  | .int _ => 0
  | .bytes value => value.length

@[simp] theorem ProtoValue.size_bytes (value : List UInt8) :
    (ProtoValue.bytes value).size = value.length := rfl

/-- A field adds two varints to its value at most. -/
theorem FieldBytes.length_le {field : ProtoField} (h : FieldBytes data field) :
    data.length ≤ 20 + field.value.size := by
  obtain ⟨key, body, rfl, hkey, _, _, hvalue⟩ := h
  have hshort := hkey.short
  rw [List.length_append]
  generalize field.wireType = wireType, field.value = value at hvalue
  cases hvalue with
  | varint h =>
    have hbody := h.short
    omega
  | fixed64 h =>
    rw [ProtoValue.size_bytes]
    omega
  | delimited h =>
    have hbody := h.short
    rw [List.length_append, ProtoValue.size_bytes]
    omega
  | fixed32 h =>
    rw [ProtoValue.size_bytes]
    omega

theorem length_le_of_spelling (h : Spelling FieldBytes data fields) :
    data.length ≤ (fields.map fun field => 20 + field.value.size).sum := by
  induction h with
  | nil => exact Nat.zero_le _
  | cons hfield _ ih =>
    have hlength := hfield.length_le
    rw [List.length_append, List.map_cons, List.sum_cons]
    omega

end Fields

/-- What is encoded is these fields on the wire. -/
def Message (encoded : Except String (List UInt8)) (fields : List ProtoField) : Prop :=
  ∃ data, encoded = .ok data ∧ Spelling FieldBytes data fields

section Message

variable {encoded : Except String (List UInt8)} {fields : List ProtoField}
  {instanceName digest resource : String} {size : ℕ} {data : List UInt8}

theorem message_of_encodeFields (h : ∀ field ∈ fields, field.Valid)
    (he : encoded = encodeFields fields) : Message encoded fields := by
  obtain ⟨data, hdata, hspelled⟩ := encodeFields_ok h
  exact ⟨data, he.trans hdata, hspelled⟩

/-- A message of one field. -/
theorem message_field {field : ProtoField} (h : field.Valid) :
    Message (encodeField field) [field] := by
  obtain ⟨data, hdata, hfield⟩ := encodeField_ok h
  have hspelled := Spelling.cons hfield .nil
  rw [List.append_nil] at hspelled
  exact ⟨data, hdata, hspelled⟩

theorem message_write (hresource : resource.length < 2 ^ 61) (hdata : data.length < 2 ^ 64) :
    Message (encodeWriteRequest resource data) [bytesField 1 (utf8 resource), intField 2 0,
      intField 3 1, bytesField 10 data] := by
  have hutf8 := length_utf8_le resource
  refine message_of_encodeFields ?_ rfl
  simp only [List.forall_mem_cons]
  refine ⟨valid_bytesField (by decide) (by decide) (by omega), valid_intField (by decide)
    (by decide) (by decide), valid_intField (by decide) (by decide) (by decide),
    valid_bytesField (by decide) (by decide) hdata, fun _ h => absurd h List.not_mem_nil⟩

theorem message_read (hresource : resource.length < 2 ^ 61) (hsize : size < 2 ^ 64) :
    Message (encodeReadRequest resource size) [bytesField 1 (utf8 resource), intField 2 0,
      intField 3 size] := by
  have hutf8 := length_utf8_le resource
  refine message_of_encodeFields ?_ rfl
  simp only [List.forall_mem_cons]
  exact ⟨valid_bytesField (by decide) (by decide) (by omega), valid_intField (by decide)
    (by decide) (by decide), valid_intField (by decide) (by decide) hsize,
    fun _ h => absurd h List.not_mem_nil⟩

theorem isHex_length {n : ℕ} {text : String} (h : isHex n text = true) : text.length = n := by
  unfold isHex at h
  rw [Bool.and_eq_true, decide_eq_true_eq, String.length_toList] at h
  exact h.1

/-- A digest is encoded in a few bytes, which decode to it. -/
theorem encodeDigest_ok (hdigest : isHex 64 digest = true) (hsize : size < 2 ^ 64) :
    ∃ data, encodeDigest digest size = .ok data ∧ data.length < 2 ^ 10 ∧
      decodeDigest data = .ok (digest, size) := by
  have hlength := isHex_length hdigest
  have hutf8 := length_utf8_le digest
  have hvalid : ∀ field ∈ [bytesField 1 (utf8 digest), intField 2 size], field.Valid := by
    simp only [List.forall_mem_cons]
    exact ⟨valid_bytesField (by decide) (by decide) (by omega), valid_intField (by decide)
      (by decide) hsize, fun _ h => absurd h List.not_mem_nil⟩
  obtain ⟨data, hdata, hspelled⟩ := encodeFields_ok hvalid
  refine ⟨data, hdata, ?_, ?_⟩
  · have hle := length_le_of_spelling hspelled
    have hsum : ([bytesField 1 (utf8 digest), intField 2 size].map
        fun field => 20 + field.value.size).sum = 40 + (utf8 digest).length := by
      show 20 + (utf8 digest).length + (20 + 0 + 0) = _
      omega
    omega
  · unfold decodeDigest
    rw [parseFields_iff.mpr hspelled]
    show (decodeText (utf8 digest) "digest hash" >>= _) = _
    rw [decodeText_utf8]
    show (raiseIf (isHex 64 digest = false) _ >>= _) = _
    rw [hdigest]
    rfl

theorem message_find (hname : instanceName.length < 2 ^ 61) (hdigest : isHex 64 digest = true)
    (hsize : size < 2 ^ 64) :
    ∃ identity, decodeDigest identity = .ok (digest, size) ∧
      Message (encodeFindMissingRequest instanceName digest size)
        [bytesField 1 (utf8 instanceName), bytesField 2 identity] := by
  obtain ⟨identity, hidentity, hshort, hdecode⟩ := encodeDigest_ok hdigest hsize
  have hutf8 := length_utf8_le instanceName
  refine ⟨identity, hdecode, message_of_encodeFields ?_ ?_⟩
  · simp only [List.forall_mem_cons]
    exact ⟨valid_bytesField (by decide) (by decide) (by omega), valid_bytesField (by decide)
      (by decide) (by omega), fun _ h => absurd h List.not_mem_nil⟩
  · unfold encodeFindMissingRequest
    rw [hidentity]
    rfl

end Message

end BuckosDistro.Reapi
