/-
  The protobuf codec of the readiness check (`infra/remote-execution/scripts/reapi_readiness.py`).

  `parse_fields` reads exactly the concatenations of fields on the wire
  (`parseFields_iff`): a key, and a body of the length its wire type says. Every error is a
  `CheckFailure` with the text of the source.
-/
import BuckosDistro.Lib.Varint

namespace BuckosDistro.Reapi

open BuckosDistro.Lib

/-- `value` of a `ProtoField`. -/
inductive ProtoValue where
  | int (value : ℕ)
  | bytes (value : List UInt8)
deriving DecidableEq, Repr

structure ProtoField where
  number : ℕ
  wireType : ℕ
  value : ProtoValue
deriving DecidableEq, Repr

/-! ## Encoding -/

/-- `_encode_varint` -/
def encodeVarint (value : ℕ) : List UInt8 := Varint.encode value

/-- `_encode_key` -/
def encodeKey (number wireType : ℕ) : Except String (List UInt8) := do
  raiseIf (number = 0) "protobuf field numbers must be positive"
  return encodeVarint ((number <<< 3) ||| wireType)

/-- `_encode_int` -/
def encodeInt (number value : ℕ) : Except String (List UInt8) := do
  let key ← encodeKey number 0
  return key ++ encodeVarint value

/-- `_encode_bytes` -/
def encodeBytes (number : ℕ) (value : List UInt8) : Except String (List UInt8) := do
  let key ← encodeKey number 2
  return key ++ encodeVarint value.length ++ value

/-- The standard encoding of a fixed-width field: its bytes behind the key. -/
def encodeFixed (number wireType : ℕ) (value : List UInt8) : Except String (List UInt8) := do
  let key ← encodeKey number wireType
  return key ++ value

/-- The standard encoding of a field. -/
def encodeField (field : ProtoField) : Except String (List UInt8) :=
  match field.wireType, field.value with
  | 0, .int value => encodeInt field.number value
  | 1, .bytes value => encodeFixed field.number 1 value
  | 2, .bytes value => encodeBytes field.number value
  | 5, .bytes value => encodeFixed field.number 5 value
  | _, _ => .error "no such field on the wire"

/-- A message: its fields, one after another. -/
def encodeFields (fields : List ProtoField) : Except String (List UInt8) := do
  let parts ← fields.mapM encodeField
  return parts.flatten

/-! ## Decoding -/

/-- The loop of `_decode_varint`, with at most `trips` trips left: the first is at shift 0,
    each is seven bits further, and `shift < 70` holds for ten. -/
def decodeVarintFrom (data : List UInt8) : ℕ → ℕ → ℕ → ℕ → Except String (ℕ × ℕ)
  | 0, _, _, _ => .error "protobuf varint exceeds 64 bits"
  | trips + 1, shift, value, offset =>
    if h : data.length ≤ offset then .error "truncated protobuf varint"
    else
      let byte := data[offset].toNat
      if shift = 63 ∧ 1 < byte then .error "protobuf varint exceeds 64 bits"
      else
        let value := value ||| ((byte &&& 0x7F) <<< shift)
        if byte &&& 0x80 = 0 then .ok (value, offset + 1)
        else decodeVarintFrom data trips (shift + 7) value (offset + 1)

/-- `_decode_varint` -/
def decodeVarint : ReadAt ℕ := fun data offset => decodeVarintFrom data 10 0 0 offset

/-- The branches of `parse_fields` on the wire type. -/
def parseValue (wireType : ℕ) : ReadAt ProtoValue := fun data offset =>
  match wireType with
  | 0 => do
    let (value, offset) ← decodeVarint data offset
    return (.int value, offset)
  | 1 => do
    let (value, offset) ← readSlice 8 "truncated protobuf fixed64 field" data offset
    return (.bytes value, offset)
  | 2 => do
    let (length, offset) ← decodeVarint data offset
    let (value, offset) ←
      readSlice length "truncated protobuf length-delimited field" data offset
    return (.bytes value, offset)
  | 5 => do
    let (value, offset) ← readSlice 4 "truncated protobuf fixed32 field" data offset
    return (.bytes value, offset)
  | _ => .error ("unsupported protobuf wire type " ++ toString wireType)

/-- One trip of the loop of `parse_fields`. -/
def parseField : ReadAt ProtoField := fun data offset => do
  let (key, offset) ← decodeVarint data offset
  let number := key >>> 3
  let wireType := key &&& 0x07
  raiseIf (number = 0) "protobuf field number zero is invalid"
  raiseIf (1 <<< 29 ≤ number) "protobuf field number exceeds the protocol limit"
  let (value, offset) ← parseValue wireType data offset
  return (⟨number, wireType, value⟩, offset)

/-! ## Varints -/

section Decode

variable {data : List UInt8}

theorem drop_eq_cons {offset : ℕ} (h : offset < data.length) :
    data.drop offset = data[offset] :: data.drop (offset + 1) :=
  List.drop_eq_getElem_cons h

/-- From ten trips on, `shift` and `value` are what the bytes read so far make them. -/
theorem decodeVarintFrom_iff {trips shift value offset result next : ℕ}
    (hshift : shift + 7 * trips = 70) (hvalue : value < 2 ^ shift) :
    decodeVarintFrom data trips shift value offset = .ok (result, next) ↔
      ∃ bytes rest v, Groups bytes v ∧ data.drop offset = bytes ++ rest ∧
        bytes.length ≤ trips ∧ result = value + 2 ^ shift * v ∧ result < 2 ^ 64 ∧
        next = offset + bytes.length := by
  induction trips generalizing shift value offset with
  | zero =>
    rw [decodeVarintFrom]
    constructor
    · intro h
      cases h
    · intro ⟨bytes, rest, v, hgroups, _, hlength, _⟩
      cases hgroups with
      | last => cases hlength
      | more => cases hlength
  | succ trips ih =>
    rw [decodeVarintFrom]
    by_cases hend : data.length ≤ offset
    · rw [dif_pos hend, List.drop_eq_nil_of_le hend]
      constructor
      · intro h
        cases h
      · intro ⟨bytes, rest, v, hgroups, hdata, _⟩
        obtain ⟨rfl, _⟩ := List.append_eq_nil_iff.mp hdata.symm
        cases hgroups
    · rw [dif_neg hend, drop_eq_cons (by omega)]
      dsimp only
      generalize data[offset] = b
      by_cases hover : shift = 63 ∧ 1 < b.toNat
      · rw [if_pos hover]
        obtain ⟨rfl, hb⟩ := hover
        constructor
        · intro h
          cases h
        · intro ⟨bytes, rest, v, hgroups, hdata, hlength, hresult, hbound, _⟩
          cases hgroups with
          | last =>
            obtain ⟨rfl, _⟩ := List.cons.inj hdata
            omega
          | more _ hs =>
            rw [List.length_cons] at hlength
            cases hs <;> simp at hlength <;> omega
      · have hvalue' : value ||| ((b.toNat &&& 0x7F) <<< shift) =
            value + 2 ^ shift * (b.toNat % 128) := by
          rw [Varint.or_shiftLeft hvalue, Varint.and_low]
        have hpow : 2 ^ (shift + 7) = 2 ^ shift * 128 := pow_add 2 shift 7
        have hlow : value + 2 ^ shift * (b.toNat % 128) < 2 ^ (shift + 7) := by
          have hle : 2 ^ shift * (b.toNat % 128) ≤ 2 ^ shift * 127 :=
            Nat.mul_le_mul_left _ (by omega)
          omega
        rw [if_neg hover, hvalue']
        by_cases hb : b.toNat < 128
        · rw [if_pos ((Varint.and_high b).mpr hb)]
          have hbound : value + 2 ^ shift * (b.toNat % 128) < 2 ^ 64 := by
            by_cases hlast : shift = 63
            · subst hlast
              have hone : b.toNat ≤ 1 := not_lt.mp fun h => hover ⟨rfl, h⟩
              omega
            · have hle : 2 ^ (shift + 7) ≤ 2 ^ 63 := Nat.pow_le_pow_right (by decide) (by omega)
              omega
          have hmod : b.toNat % 128 = b.toNat := Nat.mod_eq_of_lt hb
          rw [hmod] at hbound ⊢
          simp only [Except.ok.injEq, Prod.mk.injEq]
          constructor
          · intro ⟨hresult, hnext⟩
            exact ⟨[b], _, b.toNat, .last hb, rfl, by simp, hresult.symm,
              by rw [← hresult]; exact hbound, hnext.symm⟩
          · intro ⟨bytes, rest, v, hgroups, hdata, _, hresult, _, hnext⟩
            cases hgroups with
            | last =>
              obtain ⟨rfl, _⟩ := List.cons.inj hdata
              exact ⟨hresult.symm, hnext.symm⟩
            | more hmore =>
              obtain ⟨rfl, _⟩ := List.cons.inj hdata
              omega
        · rw [if_neg fun h => hb ((Varint.and_high b).mp h), ih (by omega) hlow]
          constructor
          · intro ⟨bytes, rest, v, hgroups, hdata, hlength, hresult, hbound, hnext⟩
            refine ⟨b :: bytes, rest, _, .more (by omega) hgroups, by rw [hdata]; rfl, ?_, ?_,
              hbound, ?_⟩
            · rw [List.length_cons]
              omega
            · rw [hresult, hpow, Nat.mul_add, Nat.mul_assoc, Nat.add_assoc]
            · rw [hnext, List.length_cons]
              omega
          · intro ⟨bytes, rest, v, hgroups, hdata, hlength, hresult, hbound, hnext⟩
            cases hgroups with
            | last hsmall =>
              obtain ⟨rfl, _⟩ := List.cons.inj hdata
              omega
            | more hmore hs =>
              obtain ⟨rfl, hrest⟩ := List.cons.inj hdata
              rw [List.length_cons] at hlength hnext
              refine ⟨_, rest, _, hs, hrest, by omega, ?_, hbound, by omega⟩
              rw [hresult, hpow, Nat.mul_add, Nat.mul_assoc, Nat.add_assoc]

theorem spells_decodeVarint : Spells decodeVarint Varint := by
  intro data offset result next _
  unfold decodeVarint
  rw [decodeVarintFrom_iff (by rfl) (by decide)]
  constructor
  · intro ⟨bytes, rest, v, hgroups, hdata, hlength, hresult, hbound, hnext⟩
    have hv : result = v := by omega
    exact ⟨bytes, rest, ⟨hv ▸ hgroups, hlength, hbound⟩, hdata, hnext⟩
  · intro ⟨bytes, rest, hvarint, hdata, hnext⟩
    exact ⟨bytes, rest, result, hvarint.groups, hdata, hvarint.short, by omega,
      hvarint.bounded, hnext⟩

end Decode

/-! ## Fields on the wire -/

/-- The bytes behind a key of a wire type. -/
inductive ValueBytes : ℕ → List UInt8 → ProtoValue → Prop where
  | varint {bytes : List UInt8} {value : ℕ} (h : Varint bytes value) :
      ValueBytes 0 bytes (.int value)
  | fixed64 {bytes : List UInt8} (h : bytes.length = 8) : ValueBytes 1 bytes (.bytes bytes)
  | delimited {length bytes : List UInt8} (h : Varint length bytes.length) :
      ValueBytes 2 (length ++ bytes) (.bytes bytes)
  | fixed32 {bytes : List UInt8} (h : bytes.length = 4) : ValueBytes 5 bytes (.bytes bytes)

/-- The bytes of a field: its key, with a number the protocol allows, and its value. -/
def FieldBytes (bytes : List UInt8) (field : ProtoField) : Prop :=
  ∃ key body, bytes = key ++ body ∧ Varint key (8 * field.number + field.wireType) ∧
    0 < field.number ∧ field.number < 2 ^ 29 ∧ ValueBytes field.wireType body field.value

section Spelled

variable {bytes data : List UInt8} {wireType : ℕ}

theorem ValueBytes.wireType_lt {value : ProtoValue} (h : ValueBytes wireType bytes value) :
    wireType < 8 := by
  cases h <;> decide

theorem spells_parseValue (wireType : ℕ) :
    Spells (parseValue wireType) (ValueBytes wireType) := by
  -- a fixed-width value is a slice of its width
  have hslice : ∀ width text, Spells
      (readThen (readSlice width text) fun value => readPure (ProtoValue.bytes value))
      fun bytes value => value = .bytes bytes ∧ bytes.length = width := by
    intro width text
    refine (spells_readThen (spells_readSlice width text) fun _ => spells_readPure _).congr ?_
    intro bytes value
    constructor
    · intro ⟨first, second, a, hbytes, ⟨ha, hlength⟩, hsecond, hvalue⟩
      rw [hsecond, List.append_nil] at hbytes
      rw [hbytes, hvalue, ha]
      exact ⟨rfl, ha ▸ hlength⟩
    · intro ⟨hvalue, hlength⟩
      exact ⟨bytes, [], bytes, (List.append_nil _).symm, ⟨rfl, hlength⟩, rfl, hvalue⟩
  have hnone : ∀ wireType text, (∀ bytes value, ¬ ValueBytes wireType bytes value) →
      Spells (fun _ _ => .error text) (ValueBytes wireType) := by
    intro wireType text hno data offset a next _
    constructor
    · intro h
      cases h
    · intro ⟨bytes, _, h, _⟩
      exact absurd h (hno bytes a)
  match wireType with
  | 0 =>
    have hread : parseValue 0 = readThen decodeVarint fun value => readPure (.int value) := rfl
    rw [hread]
    refine (spells_readThen spells_decodeVarint fun _ => spells_readPure _).congr ?_
    intro bytes value
    constructor
    · intro ⟨first, second, a, hbytes, ha, hsecond, hvalue⟩
      rw [hsecond, List.append_nil] at hbytes
      rw [hbytes, hvalue]
      exact .varint ha
    · intro h
      cases h with
      | varint h => exact ⟨bytes, [], _, (List.append_nil _).symm, h, rfl, rfl⟩
  | 1 =>
    have hread : parseValue 1 = readThen (readSlice 8 "truncated protobuf fixed64 field")
      fun value => readPure (.bytes value) := rfl
    rw [hread]
    refine (hslice 8 _).congr fun bytes value => ⟨fun ⟨hvalue, hlength⟩ => ?_, fun h => ?_⟩
    · rw [hvalue]
      exact .fixed64 hlength
    · cases h with
      | fixed64 hlength => exact ⟨rfl, hlength⟩
  | 2 =>
    have hread : parseValue 2 = readThen decodeVarint fun length =>
      readThen (readSlice length "truncated protobuf length-delimited field")
        fun value => readPure (.bytes value) := rfl
    rw [hread]
    refine (spells_readThen spells_decodeVarint fun length => hslice length _).congr ?_
    intro bytes value
    constructor
    · intro ⟨first, second, a, hbytes, ha, hvalue, hlength⟩
      rw [hbytes, hvalue]
      exact .delimited (hlength ▸ ha)
    · intro h
      cases h with
      | @delimited length body h => exact ⟨length, body, _, rfl, h, rfl, rfl⟩
  | 5 =>
    have hread : parseValue 5 = readThen (readSlice 4 "truncated protobuf fixed32 field")
      fun value => readPure (.bytes value) := rfl
    rw [hread]
    refine (hslice 4 _).congr fun bytes value => ⟨fun ⟨hvalue, hlength⟩ => ?_, fun h => ?_⟩
    · rw [hvalue]
      exact .fixed32 hlength
    · cases h with
      | fixed32 hlength => exact ⟨rfl, hlength⟩
  | 3 => exact hnone 3 _ fun _ _ h => nomatch h
  | 4 => exact hnone 4 _ fun _ _ h => nomatch h
  | n + 6 => exact hnone (n + 6) _ fun _ _ h => nomatch h

theorem spells_parseField : Spells parseField FieldBytes := by
  have hread : parseField = readThen decodeVarint fun key =>
      readUnless (key >>> 3 = 0) "protobuf field number zero is invalid"
        (readUnless (1 <<< 29 ≤ key >>> 3) "protobuf field number exceeds the protocol limit"
          (readThen (parseValue (key &&& 0x07)) fun value =>
            readPure ⟨key >>> 3, key &&& 0x07, value⟩)) := rfl
  rw [hread]
  refine (spells_readThen spells_decodeVarint fun key => spells_readUnless (spells_readUnless
    (spells_readThen (spells_parseValue _) fun value => spells_readPure _))).congr ?_
  have hnumber : ∀ key : ℕ, key >>> 3 = key / 8 := fun key => Nat.shiftRight_eq_div_pow key 3
  have htype : ∀ key : ℕ, key &&& 0x07 = key % 8 := fun key => Nat.and_two_pow_sub_one_eq_mod key 3
  intro bytes field
  simp only [hnumber, htype]
  constructor
  · intro ⟨key, rest, k, hbytes, hkey, hpos, hlimit, body, last, value, hrest, hbody, hlast,
      hfield⟩
    rw [hrest, hlast, List.append_nil] at hbytes
    rw [hfield]
    refine ⟨key, body, hbytes, ?_, Nat.pos_of_ne_zero hpos, not_le.mp hlimit, hbody⟩
    have hk : 8 * (k / 8) + k % 8 = k := Nat.div_add_mod k 8
    rw [hk]
    exact hkey
  · intro ⟨key, body, hbytes, hkey, hpos, hlimit, hbody⟩
    have hwire := hbody.wireType_lt
    have hdiv : (8 * field.number + field.wireType) / 8 = field.number := by omega
    have hmod : (8 * field.number + field.wireType) % 8 = field.wireType := by omega
    refine ⟨key, body, _, hbytes, hkey, ?_, ?_, body, [], field.value,
      (List.append_nil _).symm, ?_, rfl, ?_⟩
    · rw [hdiv]
      omega
    · rw [hdiv]
      exact not_le.mpr hlimit
    · rw [hmod]
      exact hbody
    · rw [hdiv, hmod]

/-- A reader that begins with a varint reads at least a byte. -/
theorem lt_of_parseField {offset : ℕ} {field : ProtoField} {next : ℕ}
    (h : parseField data offset = .ok (field, next)) : offset < next := by
  have hoffset : offset < data.length := by
    by_contra hend
    have hkey : decodeVarint data offset = .error "truncated protobuf varint" := by
      unfold decodeVarint
      rw [decodeVarintFrom, dif_pos (not_lt.mp hend)]
    unfold parseField at h
    rw [hkey] at h
    cases h
  obtain ⟨bytes, rest, ⟨key, body, hbytes, hkey, _⟩, _, hnext⟩ :=
    (spells_parseField data offset field next hoffset.le).mp h
  have hne := hkey.groups.length_pos
  rw [hnext, hbytes, List.length_append]
  omega

end Spelled

/-- `parse_fields` -/
def parseFields (data : List UInt8) : Except String (List ProtoField) :=
  Reader.all ⟨parseField, lt_of_parseField⟩ data 0

/-- **What is parsed** is exactly the fields on the wire. -/
theorem parseFields_iff {data : List UInt8} {fields : List ProtoField} :
    parseFields data = .ok fields ↔ Spelling FieldBytes data fields := by
  unfold parseFields
  rw [Reader.all_iff _ spells_parseField (Nat.zero_le _), List.drop_zero]

/-! ## The standard encoding -/

/-- A value its wire type can carry. -/
inductive ValidValue : ℕ → ProtoValue → Prop where
  | varint {value : ℕ} (h : value < 2 ^ 64) : ValidValue 0 (.int value)
  | fixed64 {bytes : List UInt8} (h : bytes.length = 8) : ValidValue 1 (.bytes bytes)
  | delimited {bytes : List UInt8} (h : bytes.length < 2 ^ 64) : ValidValue 2 (.bytes bytes)
  | fixed32 {bytes : List UInt8} (h : bytes.length = 4) : ValidValue 5 (.bytes bytes)

/-- A field of the protocol. -/
structure ProtoField.Valid (field : ProtoField) : Prop where
  positive : 0 < field.number
  limited : field.number < 2 ^ 29
  value : ValidValue field.wireType field.value

section Standard

variable {bytes : List UInt8} {field : ProtoField} {fields : List ProtoField}

theorem FieldBytes.valid (h : FieldBytes bytes field) : field.Valid := by
  obtain ⟨key, body, _, _, hpos, hlimit, hvalue⟩ := h
  refine ⟨hpos, hlimit, ?_⟩
  generalize field.wireType = wireType, field.value = value at hvalue ⊢
  cases hvalue with
  | varint h => exact .varint h.bounded
  | fixed64 h => exact .fixed64 h
  | delimited h => exact .delimited h.bounded
  | fixed32 h => exact .fixed32 h

theorem encodeKey_ok {number wireType : ℕ} (hpos : 0 < number) (hlimit : number < 2 ^ 29)
    (hwire : wireType < 8) :
    ∃ key, encodeKey number wireType = .ok key ∧ Varint key (8 * number + wireType) := by
  have hkey : (number <<< 3) ||| wireType = 8 * number + wireType := by
    rw [← Nat.shiftLeft_add_eq_or_of_lt (i := 3) hwire, Nat.shiftLeft_eq, Nat.mul_comm]
  refine ⟨encodeVarint (8 * number + wireType), ?_, Varint.varint_encode (by omega)⟩
  unfold encodeKey raiseIf
  rw [if_neg (by omega), hkey]
  rfl

/-- A field of the protocol is encoded as it is spelled on the wire. -/
theorem encodeField_ok (h : field.Valid) :
    ∃ bytes, encodeField field = .ok bytes ∧ FieldBytes bytes field := by
  obtain ⟨number, wireType, value⟩ := field
  obtain ⟨hpos, hlimit, hvalue⟩ := h
  dsimp only at hpos hlimit hvalue
  cases hvalue with
  | @varint value h =>
    obtain ⟨key, hkey, hv⟩ := encodeKey_ok hpos hlimit (by decide : 0 < 8)
    refine ⟨key ++ encodeVarint value, ?_, key, _, rfl, hv, hpos, hlimit,
      .varint (Varint.varint_encode h)⟩
    show encodeInt number value = _
    unfold encodeInt
    rw [hkey]
    rfl
  | @fixed64 body h =>
    obtain ⟨key, hkey, hv⟩ := encodeKey_ok hpos hlimit (by decide : 1 < 8)
    refine ⟨key ++ body, ?_, key, _, rfl, hv, hpos, hlimit, .fixed64 h⟩
    show encodeFixed number 1 body = _
    unfold encodeFixed
    rw [hkey]
    rfl
  | @delimited body h =>
    obtain ⟨key, hkey, hv⟩ := encodeKey_ok hpos hlimit (by decide : 2 < 8)
    refine ⟨key ++ (encodeVarint body.length ++ body), ?_, key, _, rfl, hv, hpos, hlimit,
      .delimited (Varint.varint_encode h)⟩
    show encodeBytes number body = _
    unfold encodeBytes
    rw [hkey, ← List.append_assoc]
    rfl
  | @fixed32 body h =>
    obtain ⟨key, hkey, hv⟩ := encodeKey_ok hpos hlimit (by decide : 5 < 8)
    refine ⟨key ++ body, ?_, key, _, rfl, hv, hpos, hlimit, .fixed32 h⟩
    show encodeFixed number 5 body = _
    unfold encodeFixed
    rw [hkey]
    rfl

theorem encodeFields_ok (h : ∀ field ∈ fields, field.Valid) :
    ∃ data, encodeFields fields = .ok data ∧ Spelling FieldBytes data fields := by
  induction fields with
  | nil => exact ⟨[], rfl, .nil⟩
  | cons field fields ih =>
    obtain ⟨bytes, hbytes, hspelled⟩ := encodeField_ok (h field List.mem_cons_self)
    obtain ⟨data, hdata, hrest⟩ := ih fun other ho => h other (List.mem_cons_of_mem _ ho)
    unfold encodeFields at hdata
    obtain ⟨parts, hparts, hflat⟩ := Lists.exists_of_bind hdata
    refine ⟨bytes ++ data, ?_, .cons hspelled hrest⟩
    unfold encodeFields
    rw [List.mapM_cons, hbytes]
    rw [← Except.ok.inj hflat]
    simp only [hparts]
    rfl

theorem valid_of_spelling {data : List UInt8} (h : Spelling FieldBytes data fields) :
    ∀ field ∈ fields, field.Valid := by
  induction h with
  | nil => exact fun _ hf => nomatch hf
  | cons hfield _ ih =>
    intro field hf
    obtain rfl | hf := List.mem_cons.mp hf
    · exact hfield.valid
    · exact ih field hf

end Standard

/-- **The codec is exact.** Fields of the protocol are encoded to bytes that parse to them;
    what parses is fields of the protocol, whose encoding parses to them again; and bytes
    parse only if they are fields on the wire from the first to the last. -/
theorem codec_exact :
    (∀ fields : List ProtoField, (∀ field ∈ fields, field.Valid) →
      ∃ data, encodeFields fields = .ok data ∧ parseFields data = .ok fields) ∧
    (∀ data fields, parseFields data = .ok fields → (∀ field ∈ fields, field.Valid) ∧
      ∃ data', encodeFields fields = .ok data' ∧ parseFields data' = .ok fields) ∧
    ∀ data fields, parseFields data = .ok fields ↔ Spelling FieldBytes data fields := by
  have hround : ∀ fields : List ProtoField, (∀ field ∈ fields, field.Valid) →
      ∃ data, encodeFields fields = .ok data ∧ parseFields data = .ok fields := by
    intro fields h
    obtain ⟨data, hdata, hspelled⟩ := encodeFields_ok h
    exact ⟨data, hdata, parseFields_iff.mpr hspelled⟩
  refine ⟨hround, fun data fields h => ?_, fun _ _ => parseFields_iff⟩
  have hvalid := valid_of_spelling (parseFields_iff.mp h)
  exact ⟨hvalid, hround fields hvalid⟩

/-- A varint of the largest value. -/
theorem codec_exact_largest :
    ∃ data, encodeFields [⟨1, 0, .int (2 ^ 64 - 1)⟩] = .ok data ∧
      parseFields data = .ok [⟨1, 0, .int (2 ^ 64 - 1)⟩] :=
  codec_exact.1 [⟨1, 0, .int (2 ^ 64 - 1)⟩] fun field hfield => by
    obtain rfl := List.mem_singleton.mp hfield
    exact ⟨by decide, by decide, .varint (by decide)⟩

end BuckosDistro.Reapi
