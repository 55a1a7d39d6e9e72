/-
  Command lines as Python's `argparse` reads them.

  Nothing here names the solver. A parser knows options that take one value and switches
  that take none, and no positional arguments. What it returns is the list of the options
  given, in their order, each with its value; the fields of the namespace are read off it
  (`given`). Left out are the texts of its errors: a command line that it refuses is `none`.

  An argument is text, or a value that is passed as text: those that are read as JSON are
  represented by what they are read as. Such a text starts with a brace or a blank, so it is
  never taken for an option.
-/
import BuckosDistro.Lib.PyInt
import BuckosDistro.Lib.PyText

namespace BuckosDistro.Lib.Argparse

inductive Argument (γ : Type) where
  | text (value : String)
  | json (value : γ)
deriving DecidableEq, Repr

namespace Argument

variable {γ : Type}

def text? : Argument γ → Option String
  | text value => some value
  | json _ => none

def json? : Argument γ → Option γ
  | text _ => none
  | json value => some value

end Argument

/-- The options of a parser. -/
structure Options where
  valued : List String
  switches : List String

namespace Options

variable {γ : Type}

/-- `_option_string_actions` -/
def all (o : Options) : List String := o.valued ++ o.switches

/-! ## What is taken for an option -/

/-- `_get_option_tuples`: the options an abbreviation may stand for, each with the value that
    is written in the same argument. -/
def abbreviated (o : Options) (arg : List Char) : List (String × Option String) :=
  match arg with
  | '-' :: '-' :: _ =>
    let (before, value) := PyText.partition '=' arg
    (o.all.filter fun option => before.isPrefixOf option.toList).map fun option =>
      (option, value.map String.ofList)
  | _ =>
    o.all.filterMap fun option =>
      if option.toList = arg.take 2 then some (option, some (String.ofList (arg.drop 2)))
      else if arg.isPrefixOf option.toList then some (option, none)
      else none

/-- The option before the equals sign, if the argument has one. -/
def assigned (o : Options) (arg : List Char) : Option (String × Option String) :=
  match PyText.partition '=' arg with
  | (before, some value) =>
    if String.ofList before ∈ o.all then some (String.ofList before, some (String.ofList value))
    else none
  | (_, none) => none

/-- `\d`: a decimal digit of any script. -/
def isDigit (c : Char) : Bool := (PyInt.decimal? c).isSome

/-- The text before one newline at its end, where `$` matches as well. -/
def chomp (cs : List Char) : List Char := if cs.getLast? = some '\n' then cs.dropLast else cs

/-- A minus, and digits that may have a point before the last of them. -/
def minusDigits : List Char → Bool
  | '-' :: cs =>
    let (whole, rest) := cs.span isDigit
    match rest with
    | [] => !whole.isEmpty
    | '.' :: fraction => !fraction.isEmpty && fraction.all isDigit
    | _ => false
  | _ => false

/-- `_negative_number_matcher` -/
def negativeNumber (arg : List Char) : Bool := minusDigits (chomp arg)

/-- A dash, and not alone. -/
def dashed : List Char → Bool
  | '-' :: _ :: _ => true
  | _ => false

/-- `_parse_optional`: the argument is not a value. It is an option, an abbreviation of one or
    of several, or looks like an option that does not exist. -/
def optionLike (o : Options) (arg : List Char) : Bool :=
  dashed arg &&
    (decide (String.ofList arg ∈ o.all) || (o.assigned arg).isSome ||
      !(o.abbreviated arg).isEmpty || (!negativeNumber arg && ' ' ∉ arg))

/-- The option an argument stands for, and the value written with it. -/
def find? (o : Options) (arg : List Char) : Option (String × Option String) :=
  if String.ofList arg ∈ o.all then some (String.ofList arg, none)
  else
    match o.assigned arg with
    | some option => some option
    | none =>
      match o.abbreviated arg with
      | [option] => some option
      | _ => none

/-- An argument that cannot be a value. -/
def takes (o : Options) : Argument γ → Bool
  | .text value => o.optionLike value.toList
  | .json _ => false

/-! ## Parsing -/

/-- `parse_args`, up to the conversion of the values: the options, each with its value. -/
def parse (o : Options) : List (Argument γ) → Option (List (String × Option (Argument γ)))
  | [] => some []
  | .json _ :: _ => none
  | .text arg :: rest =>
    if o.optionLike arg.toList then
      match o.find? arg.toList with
      | none => none
      | some (option, some value) =>
        if option ∈ o.switches then none
        else (o.parse rest).map ((option, some (.text value)) :: ·)
      | some (option, none) =>
        if option ∈ o.switches then (o.parse rest).map ((option, none) :: ·)
        else
          match rest with
          | [] => none
          | value :: rest =>
            if o.takes value then none
            else (o.parse rest).map ((option, some value) :: ·)
    else none

/-- An option with its value, as arguments of their own. -/
def arguments : String × Option (Argument γ) → List (Argument γ)
  | (option, none) => [.text option]
  | (option, some value) => [.text option, value]

/-- An entry that a command line of the parser can hold. -/
def Knows (o : Options) : String × Option (Argument γ) → Prop
  | (option, none) => option ∈ o.switches
  | (option, some _) => option ∈ o.valued

/-- Every option starts with a dash, and none is both valued and a switch. -/
structure WellFormed (o : Options) : Prop where
  dashes : ∀ option ∈ o.all, dashed option.toList = true
  disjoint : ∀ option ∈ o.valued, option ∉ o.switches

section Parse

variable {o : Options} {option : String}

theorem optionLike_of_mem (h : o.WellFormed) (hmem : option ∈ o.all) :
    o.optionLike option.toList = true := by
  unfold optionLike
  rw [h.dashes option hmem, String.ofList_toList, decide_eq_true hmem]
  rfl

theorem find?_of_mem (hmem : option ∈ o.all) : o.find? option.toList = some (option, none) := by
  unfold find?
  rw [String.ofList_toList, if_pos hmem]

theorem parse_switch (h : o.WellFormed) (hmem : option ∈ o.switches)
    (rest : List (Argument γ)) :
    o.parse (.text option :: rest) = (o.parse rest).map ((option, none) :: ·) := by
  have hall : option ∈ o.all := List.mem_append_right _ hmem
  simp [parse, optionLike_of_mem h hall, find?_of_mem hall, hmem]

theorem parse_valued (h : o.WellFormed) (hmem : option ∈ o.valued) (value : Argument γ)
    (rest : List (Argument γ)) :
    o.parse (.text option :: value :: rest) =
      if o.takes value then none
      else (o.parse rest).map ((option, some value) :: ·) := by
  have hall : option ∈ o.all := List.mem_append_left _ hmem
  simp [parse, optionLike_of_mem h hall, find?_of_mem hall, h.disjoint option hmem]

/-- The values of some entries. -/
def values (entries : List (String × Option (Argument γ))) : List (Argument γ) :=
  entries.filterMap Prod.snd

/-- **A command line in which every value follows its option** is read back, unless a value
    is taken for an option. -/
theorem parse_arguments (h : o.WellFormed) (entries : List (String × Option (Argument γ)))
    (hknown : ∀ entry ∈ entries, o.Knows entry) :
    o.parse (entries.flatMap arguments) =
      if ∀ value ∈ values entries, o.takes value = false then some entries else none := by
  induction entries with
  | nil => rfl
  | cons entry entries ih =>
    have hentry := hknown entry (List.mem_cons_self ..)
    have ih := ih fun e he => hknown e (List.mem_cons_of_mem _ he)
    obtain ⟨option, _ | value⟩ := entry
    · have hargs : (((option, none) : String × Option (Argument γ)) :: entries).flatMap arguments =
          .text option :: entries.flatMap arguments := rfl
      have hvalues : values (((option, none) : String × Option (Argument γ)) :: entries) =
          values entries := rfl
      rw [hargs, parse_switch h hentry, ih, hvalues]
      split_ifs <;> rfl
    · have hargs : ((option, some value) :: entries).flatMap arguments =
          .text option :: value :: entries.flatMap arguments := rfl
      have hvalues : values ((option, some value) :: entries) = value :: values entries := rfl
      rw [hargs, parse_valued h hentry, ih, hvalues]
      cases htaken : o.takes value with
      | true =>
        rw [if_pos rfl, if_neg]
        intro hall
        rw [hall value (List.mem_cons_self ..)] at htaken
        exact Bool.false_ne_true htaken
      | false =>
        rw [if_neg Bool.false_ne_true]
        by_cases hrest : ∀ value ∈ values entries, o.takes value = false
        · have hall : ∀ v ∈ value :: values entries, o.takes v = false :=
            List.forall_mem_cons.mpr ⟨htaken, hrest⟩
          rw [if_pos hrest, if_pos hall]
          rfl
        · rw [if_neg hrest, if_neg fun hall => hrest (List.forall_mem_cons.mp hall).2]
          rfl

end Parse

end Options

/-! ## The namespace -/

section Given

variable {γ : Type}

/-- The values an option was given, in their order: `action="append"`. -/
def given (option : String) (entries : List (String × Option (Argument γ))) :
    List (Argument γ) :=
  (entries.filter fun entry => entry.1 = option).filterMap Prod.snd

@[simp] theorem given_nil (option : String) :
    given option ([] : List (String × Option (Argument γ))) = [] := rfl

@[simp] theorem given_append (option : String)
    (entries entries' : List (String × Option (Argument γ))) :
    given option (entries ++ entries') = given option entries ++ given option entries' := by
  unfold given
  rw [List.filter_append, List.filterMap_append]

@[simp] theorem given_cons (option other : String) (value : Option (Argument γ))
    (entries : List (String × Option (Argument γ))) :
    given option ((other, value) :: entries) =
      if other = option then value.toList ++ given option entries else given option entries := by
  unfold given
  rw [List.filter_cons]
  by_cases h : other = option
  · cases value <;> simp [h]
  · simp [h]

/-- A loop that passes each value after the same option. -/
@[simp] theorem given_map {α : Type} (option other : String) (value : α → Argument γ)
    (items : List α) :
    given option (items.map fun item => (other, some (value item))) =
      if other = option then items.map value else [] := by
  induction items with
  | nil => simp
  | cons item items ih =>
    rw [List.map_cons, given_cons, ih]
    split_ifs <;> rfl

end Given

end BuckosDistro.Lib.Argparse
