/-
  JSON values that were loaded twice, and whether Python finds them equal. Nothing here names a
  program.
-/
import BuckosDistro.Lib.Json

namespace BuckosDistro.Lib.Json

/-- A loaded value: no dict has a key twice. -/
inductive Distinct : Json → Prop
  | null : Distinct null
  | bool (b : Bool) : Distinct (bool b)
  | int (n : ℤ) : Distinct (int n)
  | float (value : ℚ) : Distinct (float value)
  | infinity (negative : Bool) : Distinct (infinity negative)
  | nan : Distinct nan
  | str (text : String) : Distinct (str text)
  | arr {items : List Json} : (∀ item ∈ items, Distinct item) → Distinct (arr items)
  | obj {fields : List (String × Json)} : (fields.map Prod.fst).Nodup →
      (∀ field ∈ fields, Distinct field.2) → Distinct (obj fields)

/-- The decoder has one `NaN`, and items that are the same object are equal. -/
def isNan : Json → Bool
  | nan => true
  | _ => false

mutual

/-- `==` of two values that were loaded. -/
def loadedEq : Json → Json → Bool
  | arr xs, arr ys => itemsEq xs ys
  | obj xs, obj ys => xs.length == ys.length && fieldsEq xs ys
  | a, b => scalarEq a b

def itemsEq : List Json → List Json → Bool
  | [], [] => true
  | x :: xs, y :: ys => (isNan x && isNan y || loadedEq x y) && itemsEq xs ys
  | _, _ => false

def fieldsEq : List (String × Json) → List (String × Json) → Bool
  | [], _ => true
  | (key, x) :: rest, ys =>
    (match ys.lookup key with
      | some y => isNan x && isNan y || loadedEq x y
      | none => false) && fieldsEq rest ys

end

/-- What the items of a list or dict are compared by. -/
def itemEq (x y : Json) : Bool := isNan x && isNan y || loadedEq x y

section Equal

theorem itemsEq_of_forall {xs ys : List Json} (hlen : xs.length = ys.length)
    (h : ∀ i (hx : i < xs.length) (hy : i < ys.length), itemEq xs[i] ys[i] = true) :
    itemsEq xs ys = true := by
  induction xs generalizing ys with
  | nil =>
    obtain rfl := List.length_eq_zero_iff.mp hlen.symm
    rw [itemsEq]
  | cons x xs ih =>
    obtain ⟨y, ys, rfl⟩ := List.exists_cons_of_length_pos (hlen ▸ Nat.succ_pos _ : 0 < ys.length)
    rw [itemsEq, ih (Nat.succ.inj hlen) fun i hx hy =>
      h (i + 1) (Nat.succ_lt_succ hx) (Nat.succ_lt_succ hy), Bool.and_true]
    exact h 0 (Nat.succ_pos _) (Nat.succ_pos _)

theorem fieldsEq_of_forall {xs ys : List (String × Json)}
    (h : ∀ field ∈ xs, ∃ y, ys.lookup field.1 = some y ∧ itemEq field.2 y = true) :
    fieldsEq xs ys = true := by
  induction xs with
  | nil => rw [fieldsEq]
  | cons field xs ih =>
    obtain ⟨y, hlookup, heq⟩ := h field List.mem_cons_self
    rw [fieldsEq, hlookup, ih fun other hother => h other (List.mem_cons_of_mem _ hother),
      Bool.and_true]
    exact heq

theorem lookup_of_mem {fields : List (String × Json)} (hnodup : (fields.map Prod.fst).Nodup)
    {field : String × Json} (h : field ∈ fields) : fields.lookup field.1 = some field.2 :=
  (@Dict.mem_items_iff _ _ _ ⟨fields⟩ hnodup field.1 field.2).mp h

theorem mem_keys_iff {fields : List (String × Json)} {key : String} :
    key ∈ fields.map Prod.fst ↔ hasKey fields key = true := by
  unfold hasKey
  induction fields with
  | nil => exact iff_of_false (fun h => nomatch h) Bool.false_ne_true
  | cons field fields ih =>
    rw [List.map_cons, List.mem_cons, List.lookup_cons]
    by_cases he : key = field.1
    · rw [he, beq_self_eq_true]
      exact iff_of_true (.inl rfl) rfl
    · rw [beq_eq_false_iff_ne.mpr he, or_iff_right he]
      exact ih

/-- Dicts with the same keys are as long. -/
theorem length_eq_of_keys {xs ys : List (String × Json)} (hx : (xs.map Prod.fst).Nodup)
    (hy : (ys.map Prod.fst).Nodup) (h : ∀ key, hasKey xs key = hasKey ys key) :
    xs.length = ys.length := by
  have hperm : (xs.map Prod.fst).Perm (ys.map Prod.fst) := by
    rw [List.perm_ext_iff_of_nodup hx hy]
    intro key
    rw [mem_keys_iff, mem_keys_iff, h key]
  have hlen := hperm.length_eq
  rwa [List.length_map, List.length_map] at hlen

theorem Same.items {xs : List Json} {value : Json} (h : Same (.arr xs) value) :
    ∃ ys, value = .arr ys ∧ xs.length = ys.length ∧
      ∀ i (hx : i < xs.length) (hy : i < ys.length), Same xs[i] ys[i] := by
  cases h with
  | refl => exact ⟨xs, rfl, rfl, fun _ _ _ => .refl _⟩
  | @arr _ ys hlen hitems => exact ⟨ys, rfl, hlen, hitems⟩

theorem Same.fieldsOf {xs : List (String × Json)} {value : Json} (h : Same (.obj xs) value) :
    ∃ ys, value = .obj ys ∧ (∀ key, hasKey xs key = hasKey ys key) ∧
      ∀ key, Same (getKey xs key) (getKey ys key) := by
  cases h with
  | refl => exact ⟨xs, rfl, fun _ => rfl, fun _ => .refl _⟩
  | @obj _ ys hkeys hvalues => exact ⟨ys, rfl, hkeys, hvalues⟩

/-- A value and its copy are equal as items of a list. -/
theorem itemEq_of_same {a b : Json} (h : Same a b) (ha : Distinct a) (hb : Distinct b) :
    itemEq a b = true := by
  -- by the size of the value
  induction hsize : sizeOf a using Nat.strong_induction_on generalizing a b with
  | _ size ih =>
    have hscalar (heq : scalarEq a a = true) (hab : b = a)
        (hrun : loadedEq a a = scalarEq a a) : itemEq a b = true := by
      unfold itemEq
      rw [hab, hrun, heq, Bool.or_true]
    match a with
    | .null =>
      obtain rfl : b = .null := by cases h; rfl
      rfl
    | .bool x =>
      obtain rfl : b = .bool x := by cases h; rfl
      exact hscalar (beq_self_eq_true _) rfl rfl
    | .int n =>
      obtain rfl : b = .int n := by cases h; rfl
      exact hscalar (beq_self_eq_true _) rfl rfl
    | .float value =>
      obtain rfl : b = .float value := by cases h; rfl
      exact hscalar (beq_self_eq_true _) rfl rfl
    | .infinity negative =>
      obtain rfl : b = .infinity negative := by cases h; rfl
      exact hscalar (beq_self_eq_true _) rfl rfl
    | .nan =>
      obtain rfl : b = .nan := by cases h; rfl
      rfl
    | .str text =>
      obtain rfl : b = .str text := by cases h; rfl
      exact hscalar (beq_self_eq_true _) rfl rfl
    | .arr xs =>
      obtain ⟨ys, rfl, hlen, hitems⟩ := h.items
      cases ha with
      | arr hx =>
      cases hb with
      | arr hy =>
      have heq : itemsEq xs ys = true := by
        apply itemsEq_of_forall hlen
        intro i hi hi'
        have hmem : xs[i] ∈ xs := List.getElem_mem hi
        apply ih (sizeOf xs[i]) ?_ (hitems i hi hi') (hx _ hmem) (hy _ (List.getElem_mem hi')) rfl
        have hlt := List.sizeOf_lt_of_mem hmem
        rw [← hsize, Json.arr.sizeOf_spec]
        omega
      unfold itemEq
      rw [loadedEq, heq, Bool.or_true]
    | .obj xs =>
      obtain ⟨ys, rfl, hkeys, hvalues⟩ := h.fieldsOf
      cases ha with
      | obj hnodup hx =>
      cases hb with
      | obj hnodup' hy =>
      have heq : fieldsEq xs ys = true := by
        apply fieldsEq_of_forall
        intro field hmem
        have hlookup := lookup_of_mem hnodup hmem
        have hthere : hasKey ys field.1 = true := by
          rw [← hkeys, ← mem_keys_iff]
          exact List.mem_map_of_mem hmem
        obtain ⟨y, hy'⟩ := Option.isSome_iff_exists.mp hthere
        have hsame := hvalues field.1
        unfold getKey at hsame
        rw [hlookup, hy', Option.getD_some, Option.getD_some] at hsame
        refine ⟨y, hy', ih (sizeOf field.2) ?_ hsame (hx field hmem) ?_ rfl⟩
        · have hlt := List.sizeOf_lt_of_mem hmem
          have hfield : sizeOf field = 1 + sizeOf field.1 + sizeOf field.2 := rfl
          rw [← hsize, Json.obj.sizeOf_spec]
          omega
        · exact hy (field.1, y) ((@Dict.mem_items_iff _ _ _ ⟨ys⟩ hnodup' field.1 y).mpr hy')
      unfold itemEq
      rw [loadedEq, length_eq_of_keys hnodup hnodup' hkeys, beq_self_eq_true, heq]
      exact Bool.or_true _

/-- A value is found equal to its copy unless it is `NaN`. -/
theorem loadedEq_iff {a b : Json} (h : Same a b) (ha : Distinct a) (hb : Distinct b) :
    loadedEq a b = true ↔ b ≠ .nan := by
  have hitem := itemEq_of_same h ha hb
  unfold itemEq at hitem
  refine ⟨fun heq hnan => ?_, fun hne => ?_⟩
  · obtain rfl : a = .nan := by
      rw [hnan] at h
      cases h
      rfl
    rw [hnan] at heq
    exact nomatch heq
  · rcases Bool.or_eq_true_iff.mp hitem with hnan | heq
    · have hb' := (Bool.and_eq_true_iff.mp hnan).2
      cases b with
      | nan => exact absurd rfl hne
      | null | bool _ | int _ | float _ | infinity _ | str _ | arr _ | obj _ => exact nomatch hb'
    · exact heq

end Equal

end BuckosDistro.Lib.Json
