/-
  JSON values as Python holds them, and how `json.dumps` writes them.

  An object keeps its pairs in a list; looking up a key that is not there gives `null`, as
  `dict.get` gives `None`. A float is its value, and `repr` of one is a parameter of the
  printer. Texts are ASCII, as `ensure_ascii` has them, with the keys sorted.
-/
import BuckosDistro.Lib.Dict

namespace BuckosDistro.Lib

/-- A value `json.loads` returns. -/
inductive Json where
  | null
  | bool (b : Bool)
  | int (n : ℤ)
  | float (value : ℚ)
  | infinity (negative : Bool)
  | nan
  | str (text : String)
  | arr (items : List Json)
  | obj (fields : List (String × Json))

abbrev Fields := List (String × Json)

/-- `record.get(key)` -/
def getKey (record : Fields) (key : String) : Json := (record.lookup key).getD .null

/-- `key in record` -/
def hasKey (record : Fields) (key : String) : Bool := (record.lookup key).isSome

namespace Json

/-! ## Equality -/

/-- What `1 == 1.0 == True` compares. -/
def numeric : Json → Option ℚ
  | bool b => some (if b then 1 else 0)
  | int n => some n
  | float value => some value
  | _ => none

/-- `==` of two values of which one is no list and no dict. -/
def scalarEq : Json → Json → Bool
  | null, null => true
  | str a, str b => a == b
  | infinity a, infinity b => a == b
  | a, b =>
    match a.numeric, b.numeric with
    | some x, some y => x == y
    | _, _ => false

mutual

/-- `==` -/
def pyEq : Json → Json → Bool
  | arr xs, arr ys => pyEqList xs ys
  | obj xs, obj ys => xs.length == ys.length && pyEqFields xs ys
  | a, b => scalarEq a b

def pyEqList : List Json → List Json → Bool
  | [], [] => true
  | x :: xs, y :: ys => pyEq x y && pyEqList xs ys
  | _, _ => false

def pyEqFields : List (String × Json) → List (String × Json) → Bool
  | [], _ => true
  | (key, x) :: rest, ys =>
    (match ys.lookup key with
      | some y => pyEq x y
      | none => false) && pyEqFields rest ys

end

theorem pyEqList_self {xs : List Json} (h : ∀ x ∈ xs, x.pyEq x = true) :
    pyEqList xs xs = true := by
  induction xs with
  | nil => rfl
  | cons x xs ih =>
    unfold pyEqList
    rw [h x List.mem_cons_self, ih fun y hy => h y (List.mem_cons_of_mem x hy)]
    rfl

theorem pyEqFields_of_lookup {xs ys : List (String × Json)}
    (h : ∀ field ∈ xs, ys.lookup field.1 = some field.2 ∧ field.2.pyEq field.2 = true) :
    pyEqFields xs ys = true := by
  induction xs with
  | nil => rfl
  | cons x xs ih =>
    obtain ⟨hlookup, heq⟩ := h x List.mem_cons_self
    unfold pyEqFields
    rw [hlookup, ih fun field hf => h field (List.mem_cons_of_mem x hf)]
    exact Bool.and_eq_true_iff.mpr ⟨heq, rfl⟩

/-- A dict equals itself when its values do. -/
theorem pyEq_obj_self {fields : List (String × Json)} (hnodup : (fields.map Prod.fst).Nodup)
    (h : ∀ field ∈ fields, field.2.pyEq field.2 = true) :
    (obj fields).pyEq (obj fields) = true := by
  have hfields := @pyEqFields_of_lookup fields fields fun field hf =>
    ⟨(@Dict.mem_items_iff _ _ _ ⟨fields⟩ hnodup field.1 field.2).mp hf, h field hf⟩
  unfold pyEq
  rw [hfields, beq_self_eq_true]
  rfl

theorem pyEq_str_self (text : String) : (str text).pyEq (str text) = true := by
  unfold pyEq scalarEq
  exact beq_self_eq_true text

theorem pyEq_int_self (n : ℤ) : (int n).pyEq (int n) = true := by
  unfold pyEq scalarEq
  exact beq_self_eq_true (n : ℚ)

/-- `bool(value)` -/
def truthy : Json → Bool
  | null => false
  | bool b => b
  | int n => n ≠ 0
  | float value => value ≠ 0
  | infinity _ | nan => true
  | str text => text ≠ ""
  | arr items => !items.isEmpty
  | obj fields => !fields.isEmpty

/-! ## Order of keys -/

/-- The same value, but for the order of the keys of its objects. -/
inductive Same : Json → Json → Prop
  | refl (value : Json) : Same value value
  | arr {xs ys : List Json} : xs.length = ys.length →
      (∀ i (hx : i < xs.length) (hy : i < ys.length), Same xs[i] ys[i]) → Same (arr xs) (arr ys)
  | obj {xs ys : List (String × Json)} : (∀ key, hasKey xs key = hasKey ys key) →
      (∀ key, Same (getKey xs key) (getKey ys key)) → Same (obj xs) (obj ys)

theorem Same.str {value : Json} {text : String} (h : Same value (.str text)) :
    value = .str text := by
  cases h
  rfl

theorem Same.int {value : Json} {n : ℤ} (h : Same value (.int n)) : value = .int n := by
  cases h
  rfl

theorem Same.null {value : Json} (h : Same value .null) : value = .null := by
  cases h
  rfl

theorem Same.fields {value : Json} {ys : List (String × Json)} (h : Same value (.obj ys)) :
    ∃ xs, value = .obj xs ∧ (∀ key, hasKey xs key = hasKey ys key) ∧
      ∀ key, Same (getKey xs key) (getKey ys key) := by
  cases h with
  | refl => exact ⟨ys, rfl, fun _ => rfl, fun _ => .refl _⟩
  | @obj xs _ hkeys hvalues => exact ⟨xs, rfl, hkeys, hvalues⟩

theorem Same.one {value item : Json} (h : Same value (.arr [item])) :
    ∃ item', value = .arr [item'] ∧ Same item' item := by
  cases h with
  | refl => exact ⟨item, rfl, .refl _⟩
  | @arr xs _ hlen hitems =>
    obtain ⟨item', rfl⟩ := List.length_eq_one_iff.mp hlen
    exact ⟨item', rfl, hitems 0 Nat.zero_lt_one Nat.zero_lt_one⟩

/-! ## Printing -/

/-- `\uXXXX` -/
def unicodeEscape (code : ℕ) : List Char :=
  [PyText.backslash, 'u', PyText.hexDigit (code / 4096 % 16), PyText.hexDigit (code / 256 % 16),
    PyText.hexDigit (code / 16 % 16), PyText.hexDigit (code % 16)]

/-- A character of a string literal, as `ensure_ascii` writes it. -/
def escapeChar (c : Char) : List Char :=
  if c = PyText.doubleQuote ∨ c = PyText.backslash then [PyText.backslash, c]
  else if c = Char.ofNat 10 then [PyText.backslash, 'n']
  else if c = Char.ofNat 13 then [PyText.backslash, 'r']
  else if c = Char.ofNat 9 then [PyText.backslash, 't']
  else if c = Char.ofNat 12 then [PyText.backslash, 'f']
  else if c = Char.ofNat 8 then [PyText.backslash, 'b']
  else if 32 ≤ c.toNat ∧ c.toNat ≤ 126 then [c]
  else if c.toNat < 65536 then unicodeEscape c.toNat
  else
    -- a surrogate pair
    unicodeEscape (55296 + (c.toNat - 65536) / 1024) ++
      unicodeEscape (56320 + (c.toNat - 65536) % 1024)

/-- A string literal. -/
def quote (text : String) : List Char :=
  PyText.doubleQuote :: text.toList.flatMap escapeChar ++ [PyText.doubleQuote]

/-- The separators between items, and between a key and its value. -/
structure Separators where
  item : List Char
  key : List Char

/-- `sorted(value.items())`, the values already written. -/
def sortFields (fields : List (String × List Char)) : List (String × List Char) :=
  fields.insertionSort fun a b => a.1 ≤ b.1

mutual

/-- `json.dumps(value, sort_keys=True, separators=seps)` -/
def dumps (floatRepr : ℚ → List Char) (seps : Separators) : Json → List Char
  | null => "null".toList
  | bool b => if b then "true".toList else "false".toList
  | int n => n.repr.toList
  | float value => floatRepr value
  | infinity negative => if negative then "-Infinity".toList else "Infinity".toList
  | nan => "NaN".toList
  | str text => quote text
  | arr items => '[' :: seps.item.intercalate (dumpsItems floatRepr seps items) ++ [']']
  | obj fields =>
    '{' :: seps.item.intercalate ((sortFields (dumpsFields floatRepr seps fields)).map
      fun field => quote field.1 ++ seps.key ++ field.2) ++ ['}']

def dumpsItems (floatRepr : ℚ → List Char) (seps : Separators) : List Json → List (List Char)
  | [] => []
  | item :: items => dumps floatRepr seps item :: dumpsItems floatRepr seps items

def dumpsFields (floatRepr : ℚ → List Char) (seps : Separators) :
    List (String × Json) → List (String × List Char)
  | [] => []
  | (key, value) :: fields =>
    (key, dumps floatRepr seps value) :: dumpsFields floatRepr seps fields

end

/-- `text.encode()`, for a text in ASCII. -/
def encode (text : List Char) : List UInt8 := text.map fun c => UInt8.ofNat c.toNat

/-! ## Lengths -/

section Lengths

variable (floatRepr : ℚ → List Char) (seps : Separators)

theorem dumpsFields_eq (fields : List (String × Json)) : dumpsFields floatRepr seps fields =
    fields.map fun field => (field.1, dumps floatRepr seps field.2) := by
  induction fields with
  | nil =>
    unfold dumpsFields
    rfl
  | cons field fields ih =>
    unfold dumpsFields
    rw [ih]
    rfl

theorem dumps_obj (fields : List (String × Json)) : dumps floatRepr seps (.obj fields) =
    '{' :: seps.item.intercalate ((sortFields (dumpsFields floatRepr seps fields)).map
      fun field => quote field.1 ++ seps.key ++ field.2) ++ ['}'] := by
  rw [dumps]

theorem dumps_str (text : String) : dumps floatRepr seps (.str text) = quote text := by
  rw [dumps]

theorem dumps_arr_one (item : Json) : dumps floatRepr seps (.arr [item]) =
    '[' :: dumps floatRepr seps item ++ [']'] := by
  rw [dumps, dumpsItems, dumpsItems, List.intercalate_singleton]

theorem length_intercalate (sep : List Char) (parts : List (List Char)) :
    (sep.intercalate parts).length =
      (parts.map List.length).sum + (parts.length - 1) * sep.length := by
  induction parts with
  | nil => simp
  | cons part parts ih =>
    cases parts with
    | nil => simp
    | cons other parts =>
      rw [List.intercalate_cons_cons, List.length_append, List.length_append, ih]
      simp only [List.map_cons, List.sum_cons, List.length_cons, Nat.add_sub_cancel]
      ring

/-- The text of an object is as long as the texts of its fields and what stands between. -/
theorem length_dumps_obj (fields : List (String × Json)) :
    (dumps floatRepr seps (.obj fields)).length =
      (fields.map fun field => (quote field.1).length + seps.key.length +
        (dumps floatRepr seps field.2).length).sum + (fields.length - 1) *
          seps.item.length + 2 := by
  have hperm := List.perm_insertionSort (fun a b : String × List Char => a.1 ≤ b.1)
    (dumpsFields floatRepr seps fields)
  rw [dumps_obj]
  unfold sortFields
  rw [List.length_append, List.length_cons, length_intercalate, List.map_map, List.length_map,
    hperm.length_eq, (hperm.map _).sum_eq, dumpsFields_eq, List.map_map, List.length_map]
  simp only [Function.comp_def, List.length_append, List.length_singleton]

theorem length_dumps_one (item : Json) :
    (dumps floatRepr seps (.arr [item])).length = (dumps floatRepr seps item).length + 2 := by
  rw [dumps_arr_one, List.length_append, List.length_cons, List.length_singleton]

end Lengths

end Json

end BuckosDistro.Lib
