/-
  Reading a value of a lock by pointer (`tools/lockfile.py`, `json_pointer`).

  A pointer of the RFC is read as the RFC has it. The function reads more: an escape it does
  not know stays as it is, and `int` takes signs, blanks, underscores, leading zeros and the
  digits of every script, with positions counted from the end when they are negative.
-/
import BuckosDistro.Lib.PyInt
import BuckosDistro.Lib.Rfc6901

namespace BuckosDistro.Lockfile

open BuckosDistro.Lib Rfc6901

/-! ## The function -/

/-- `text.replace(a + b, c)` -/
def replacePair (a b c : Char) : List Char → List Char
  | x :: y :: rest =>
    if x = a ∧ y = b then c :: replacePair a b c rest else x :: replacePair a b c (y :: rest)
  | rest => rest

/-- `raw.replace("~1", "/").replace("~0", "~")` -/
def unescape (raw : List Char) : List Char := replacePair '~' '0' '~' (replacePair '~' '1' '/' raw)

/-- `items[i]`, counted from the end when `i` is negative, `none` for an `IndexError`. -/
def itemAt (items : List Json) (i : ℤ) : Option Json :=
  if 0 ≤ i then items[i.toNat]?
  else if 0 ≤ items.length + i then items[(items.length + i).toNat]?
  else none

/-- `current[int(token)]` for a list and `current[token]` for the rest, `none` for the errors
    that are caught. -/
def subscript (current : Json) (token : List Char) : Option Json :=
  match current with
  | .arr items => (PyInt.int? token).bind (itemAt items)
  | .obj fields => fields.lookup (String.ofList token)
  | _ => none

/-- `for raw in pointer[1:].split("/")` -/
def walk (current : Json) : List (List Char) → Except String Json
  | [] => .ok current
  | raw :: raws =>
    match subscript current (unescape raw) with
    | some next => walk next raws
    | none =>
      .error ("JSON pointer component " ++ PyText.repr (String.ofList (unescape raw)) ++
        " does not exist")

/-- `json_pointer` -/
def jsonPointer (value : Json) (pointer : String) : Except String Json :=
  match pointer.toList with
  | [] => .ok value
  | '/' :: rest => walk value (rest.splitOn '/')
  | _ => .error "JSON pointer must be empty or start with /"

/-! ## What is read -/

/-- The components of a pointer that is empty or starts with a slash. -/
def components : List Char → Option (List (List Char))
  | [] => some []
  | '/' :: rest => some (rest.splitOn '/')
  | _ => none

/-- A component names a member, or a position that `int` reads. -/
inductive Step : Json → List Char → Json → Prop where
  | member {fields : Fields} {raw : List Char} {next : Json}
      (h : fields.lookup (String.ofList (unescape raw)) = some next) :
      Step (.obj fields) raw next
  | item {items : List Json} {raw : List Char} {i : ℤ} {next : Json}
      (hi : PyInt.int? (unescape raw) = some i) (h : itemAt items i = some next) :
      Step (.arr items) raw next

/-- Components that lead from a value to another. -/
inductive Reaches : Json → List (List Char) → Json → Prop where
  | here (value : Json) : Reaches value [] value
  | step {current next value : Json} {raw : List Char} {raws : List (List Char)}
      (h : Step current raw next) (hrest : Reaches next raws value) :
      Reaches current (raw :: raws) value

/-- What holds of every component, at the value it is met at. -/
def Throughout (p : Json → List Char → Prop) (document : Json) (raws : List (List Char)) : Prop :=
  ∀ before raw after current, raws = before ++ raw :: after → Reaches document before current →
    p current raw

/-- A component as the RFC writes one: its escapes are the two there are, and what it says to
    an array is an index. -/
structure Regular (current : Json) (raw : List Char) : Prop where
  escapes : ∃ token, Escaped raw token
  index : ∀ items, current = .arr items → ∃ i, ArrayIndex (unescape raw) i

/-- A component that `int` has to read is not too long for it. -/
def Readable (current : Json) (raw : List Char) : Prop :=
  ∀ items, current = .arr items → (unescape raw).length ≤ PyInt.maxStrDigits

section Read

variable {current next document value : Json} {raw : List Char} {raws : List (List Char)}

theorem subscript_iff : subscript current (unescape raw) = some next ↔ Step current raw next := by
  constructor
  · intro h
    cases current with
    | arr items =>
      obtain ⟨i, hi, hnext⟩ := Option.bind_eq_some_iff.mp h
      exact .item hi hnext
    | obj fields => exact .member h
    | null | bool | int | float | infinity | nan | str => cases h
  · intro h
    cases h with
    | member h => exact h
    | item hi h => exact Option.bind_eq_some_iff.mpr ⟨_, hi, h⟩

theorem Step.unique {next' : Json} (h : Step current raw next) (h' : Step current raw next') :
    next = next' := by
  rw [← subscript_iff] at h h'
  exact Option.some.inj (h.symm.trans h')

theorem walk_iff : walk document raws = .ok value ↔ Reaches document raws value := by
  induction raws generalizing document with
  | nil =>
    constructor
    · intro h
      rw [← Except.ok.inj h]
      exact .here document
    · intro h
      cases h
      rfl
  | cons raw raws ih =>
    unfold walk
    constructor
    · intro h
      split at h
      · next next hnext => exact .step (subscript_iff.mp hnext) (ih.mp h)
      · cases h
    · intro h
      cases h with
      | step hstep hrest =>
        rw [subscript_iff.mpr hstep]
        exact ih.mpr hrest

theorem jsonPointer_iff {pointer : String} :
    jsonPointer document pointer = .ok value ↔
      ∃ raws, components pointer.toList = some raws ∧ Reaches document raws value := by
  unfold jsonPointer components
  split
  · simp only [Option.some.injEq, exists_eq_left', ← walk_iff, walk]
  · simp only [Option.some.injEq, exists_eq_left', ← walk_iff]
  · simp

/-! ## The components of a pointer -/

theorem flatten_slash (hne : raws ≠ []) :
    (raws.map fun raw => '/' :: raw).flatten = '/' :: List.intercalate ['/'] raws := by
  induction raws with
  | nil => exact absurd rfl hne
  | cons raw raws ih =>
    cases raws with
    | nil => simp
    | cons next raws =>
      rw [List.map_cons, List.flatten_cons, ih (List.cons_ne_nil _ _), List.intercalate_cons_cons,
        List.append_assoc]
      rfl

theorem components_iff {pointer : List Char} (h : ∀ raw ∈ raws, '/' ∉ raw) :
    pointer = (raws.map fun raw => '/' :: raw).flatten ↔ components pointer = some raws := by
  cases raws with
  | nil =>
    constructor
    · intro hp
      rw [hp]
      rfl
    · intro hc
      unfold components at hc
      split at hc
      · rfl
      · exact absurd (Option.some.inj hc) (List.splitOnP_ne_nil _ _)
      · cases hc
  | cons raw raws =>
    rw [flatten_slash (List.cons_ne_nil raw raws)]
    constructor
    · intro hp
      rw [hp]
      exact congrArg some (List.splitOn_intercalate '/' h (List.cons_ne_nil raw raws))
    · intro hc
      unfold components at hc
      split at hc
      · cases hc
      · next rest =>
        rw [← Option.some.inj hc, List.intercalate_splitOn]
      · cases hc

theorem notMem_components {pointer : List Char} (h : components pointer = some raws) :
    ∀ raw ∈ raws, '/' ∉ raw := by
  unfold components at h
  split at h
  · rw [← Option.some.inj h]
    exact fun _ hraw => nomatch hraw
  · rw [← Option.some.inj h]
    exact fun raw hraw => PyText.notMem_of_mem_splitOn hraw
  · cases h

end Read

/-! ## Where the two readings meet -/

section Meet

variable {document value : Json} {raw : List Char} {raws : List (List Char)}
  {p : Json → List Char → Prop}

theorem replacePair_cons {a b c x : Char} (h : x ≠ a) (text : List Char) :
    replacePair a b c (x :: text) = x :: replacePair a b c text := by
  cases text with
  | nil => rfl
  | cons y rest => exact if_neg fun he => h he.1

theorem unescape_of_escaped {token : List Char} (h : Escaped raw token) :
    unescape raw = token := by
  unfold unescape
  induction h with
  | nil => rfl
  | unescaped htilde _ _ ih =>
    rw [replacePair_cons htilde, replacePair_cons htilde, ih]
  | @tilde raw token _ ih =>
    have hinner : replacePair '~' '1' '/' ('~' :: '0' :: raw) =
        '~' :: '0' :: replacePair '~' '1' '/' raw := by
      rw [← replacePair_cons (x := '0') (by decide)]
      exact if_neg (by decide)
    rw [hinner, ← ih]
    exact if_pos ⟨rfl, rfl⟩
  | @slash raw token _ ih =>
    have hinner : replacePair '~' '1' '/' ('~' :: '1' :: raw) =
        '/' :: replacePair '~' '1' '/' raw := if_pos ⟨rfl, rfl⟩
    rw [hinner, replacePair_cons (by decide), ih]

theorem itemAt_natCast (items : List Json) (i : ℕ) : itemAt items i = items[i]? := by
  unfold itemAt
  rw [if_pos (Int.natCast_nonneg i), Int.toNat_natCast]

/-- `int` reads an index for what it is, when it is not too long. -/
theorem int?_of_index {text : List Char} {i : ℕ} (h : ArrayIndex text i) :
    PyInt.int? text = if PyInt.maxStrDigits < text.length then none else some (i : ℤ) := by
  obtain ⟨hne, hdigits, rfl⟩ := h.numeral
  exact PyInt.int?_of_isDigit hne hdigits

/-- A step by an index goes to the element the RFC names. -/
theorem Step.of_index {items : List Json} {next : Json} {i : ℕ} (h : Step (.arr items) raw next)
    (hindex : ArrayIndex (unescape raw) i) :
    items[i]? = some next ∧ (unescape raw).length ≤ PyInt.maxStrDigits := by
  cases h with
  | item hi hnext =>
    rw [int?_of_index hindex] at hi
    split_ifs at hi with hlong
    rw [← Option.some.inj hi, itemAt_natCast] at hnext
    exact ⟨hnext, not_lt.mp hlong⟩

theorem Throughout.head (h : Throughout p document (raw :: raws)) : p document raw :=
  h [] raw raws document rfl (.here document)

theorem Throughout.tail {next : Json} (h : Throughout p document (raw :: raws))
    (hstep : Step document raw next) : Throughout p next raws := by
  intro before raw' after current hraws hreach
  exact h (raw :: before) raw' after current (congrArg (raw :: ·) hraws) (.step hstep hreach)

theorem Throughout.cons (hhead : p document raw)
    (htail : ∀ next, Step document raw next → Throughout p next raws) :
    Throughout p document (raw :: raws) := by
  intro before raw' after current hraws hreach
  cases before with
  | nil =>
    obtain ⟨rfl, _⟩ := List.cons.inj hraws
    cases hreach
    exact hhead
  | cons first before =>
    obtain ⟨rfl, hrest⟩ := List.cons.inj hraws
    cases hreach with
    | step hstep hreach => exact htail _ hstep before raw' after current hrest hreach

theorem Throughout.nil (p : Json → List Char → Prop) (document : Json) :
    Throughout p document [] := by
  intro before raw after current hraws
  exact absurd hraws.symm (by simp)

theorem follows_of_reaches (h : Reaches document raws value)
    (hregular : Throughout Regular document raws) : Follows document raws value := by
  induction h with
  | here value => exact .whole value
  | @step current next value raw raws hstep _ ih =>
    obtain ⟨⟨token, htoken⟩, hindex⟩ := hregular.head
    have hrest := ih (hregular.tail hstep)
    have hunescape := unescape_of_escaped htoken
    cases current with
    | arr items =>
      obtain ⟨i, hi⟩ := hindex items rfl
      have hnext := (hstep.of_index hi).1
      rw [hunescape] at hi
      exact .element htoken hi hnext hrest
    | obj fields =>
      cases hstep with
      | member h =>
        rw [hunescape] at h
        exact .member htoken h hrest
    | null | bool | int | float | infinity | nan | str => cases hstep

theorem reaches_of_follows (h : Follows document raws value)
    (hreadable : Throughout Readable document raws) : Reaches document raws value := by
  induction h with
  | whole value => exact .here value
  | @member fields raw name raws next value hname hnext _ ih =>
    have hstep : Step (.obj fields) raw next := .member (by rwa [unescape_of_escaped hname])
    exact .step hstep (ih (hreadable.tail hstep))
  | @element items raw text i raws next value htext hindex hnext _ ih =>
    have hunescape := unescape_of_escaped htext
    have hshort := hreadable.head items rfl
    rw [hunescape] at hshort
    have hi : PyInt.int? (unescape raw) = some (i : ℤ) := by
      rw [hunescape, int?_of_index hindex, if_neg (not_lt.mpr hshort)]
    have hstep : Step (.arr items) raw next := .item hi (by rwa [itemAt_natCast])
    exact .step hstep (ih (hreadable.tail hstep))

/-- Where the RFC has a value, the components are as it writes them. -/
theorem regular_of_follows (h : Follows document raws value) :
    Throughout Regular document raws := by
  induction h with
  | whole value => exact .nil Regular value
  | @member fields raw name raws next value hname hnext _ ih =>
    refine .cons ⟨⟨name, hname⟩, fun items he => nomatch he⟩ fun next' hstep => ?_
    cases hstep with
    | member h =>
      rw [unescape_of_escaped hname, hnext] at h
      rwa [← Option.some.inj h]
  | @element items raw text i raws next value htext hindex hnext _ ih =>
    have hi : ArrayIndex (unescape raw) i := by rwa [unescape_of_escaped htext]
    refine .cons ⟨⟨text, htext⟩, fun _ _ => ⟨i, hi⟩⟩ fun next' hstep => ?_
    obtain ⟨hnext', _⟩ := hstep.of_index hi
    rw [hnext] at hnext'
    rwa [← Option.some.inj hnext']

/-- Where both have a value, no index was too long. -/
theorem readable_of_reaches (h : Reaches document raws value)
    (hregular : Throughout Regular document raws) : Throughout Readable document raws := by
  induction h with
  | here value => exact .nil Readable value
  | @step current next value raw raws hstep _ ih =>
    refine .cons (fun items he => ?_) fun next' hstep' => ?_
    · obtain ⟨i, hi⟩ := hregular.head.index items he
      rw [he] at hstep
      exact (hstep.of_index hi).2
    · rw [← hstep.unique hstep']
      exact ih (hregular.tail hstep)

theorem evaluates_iff {pointer : String} :
    Evaluates pointer document value ↔
      ∃ raws, components pointer.toList = some raws ∧ Follows document raws value := by
  constructor
  · intro ⟨raws, hpointer, hfollows⟩
    exact ⟨raws, (components_iff hfollows.notMem).mp hpointer, hfollows⟩
  · intro ⟨raws, hraws, hfollows⟩
    exact ⟨raws, (components_iff (notMem_components hraws)).mpr hraws, hfollows⟩

end Meet

/-- **When a pointer is read as the RFC has it**: exactly when the components of a pointer
    that leads somewhere are written as the RFC writes them, and no index of it is too long
    for `int`. -/
theorem pointer_as_rfc_iff (document : Json) (pointer : String) :
    (∀ value, jsonPointer document pointer = .ok value ↔ Evaluates pointer document value) ↔
      ∀ raws, components pointer.toList = some raws →
        ((∃ value, Reaches document raws value) → Throughout Regular document raws) ∧
        ((∃ value, Follows document raws value) → Throughout Readable document raws) := by
  simp only [jsonPointer_iff, evaluates_iff]
  constructor
  · intro hsame raws hraws
    have hpath : ∀ value, Reaches document raws value ↔ Follows document raws value := by
      intro value
      have hvalue := hsame value
      simpa only [hraws, Option.some.injEq, exists_eq_left'] using hvalue
    refine ⟨fun ⟨value, hreach⟩ => ?_, fun ⟨value, hfollows⟩ => ?_⟩
    · exact regular_of_follows ((hpath value).mp hreach)
    · exact readable_of_reaches ((hpath value).mpr hfollows) (regular_of_follows hfollows)
  · intro h value
    constructor
    · intro ⟨raws, hraws, hreach⟩
      exact ⟨raws, hraws, follows_of_reaches hreach ((h raws hraws).1 ⟨value, hreach⟩)⟩
    · intro ⟨raws, hraws, hfollows⟩
      exact ⟨raws, hraws, reaches_of_follows hfollows ((h raws hraws).2 ⟨value, hfollows⟩)⟩

/-- A position with a leading zero is read, where the RFC names no element. -/
theorem pointer_leading_zero :
    ¬ ∀ value, jsonPointer (.arr [.int 7]) "/00" = .ok value ↔
      Evaluates "/00" (.arr [.int 7]) value := by
  intro hsame
  have hread : jsonPointer (.arr [.int 7]) "/00" = .ok (.int 7) := rfl
  obtain ⟨raws, hraws, hfollows⟩ := evaluates_iff.mp ((hsame (.int 7)).mp hread)
  have hcomponents : components "/00".toList = some [['0', '0']] := rfl
  rw [← Option.some.inj (hcomponents.symm.trans hraws)] at hfollows
  have hunescape : unescape ['0', '0'] = ['0', '0'] := rfl
  cases hfollows with
  | element hescaped hindex _ _ =>
    rw [← unescape_of_escaped hescaped, hunescape] at hindex
    cases hindex with
    | digits hc _ => exact absurd rfl hc

end BuckosDistro.Lockfile
