/-
  Python's `int(text)`, over the digits and the blanks of Unicode.

  A decimal digit of any script counts, a single underscore may stand between two digits, and
  a decimal text of more than `maxStrDigits` digits is refused.
-/
import BuckosDistro.Lib.PyText

namespace BuckosDistro.Lib.PyInt

/-- Where the ten digits of each script begin. -/
def decimalZeros : List ℕ :=
  [0x30, 0x660, 0x6F0, 0x7C0, 0x966, 0x9E6, 0xA66, 0xAE6, 0xB66, 0xBE6, 0xC66, 0xCE6, 0xD66,
    0xDE6, 0xE50, 0xED0, 0xF20, 0x1040, 0x1090, 0x17E0, 0x1810, 0x1946, 0x19D0, 0x1A80, 0x1A90,
    0x1B50, 0x1BB0, 0x1C40, 0x1C50, 0xA620, 0xA8D0, 0xA900, 0xA9D0, 0xA9F0, 0xAA50, 0xABF0,
    0xFF10, 0x104A0, 0x10D30, 0x11066, 0x110F0, 0x11136, 0x111D0, 0x112F0, 0x11450, 0x114D0,
    0x11650, 0x116C0, 0x11730, 0x118E0, 0x11950, 0x11C50, 0x11D50, 0x11DA0, 0x16A60, 0x16AC0,
    0x16B50, 0x1D7CE, 0x1D7D8, 0x1D7E2, 0x1D7EC, 0x1D7F6, 0x1E140, 0x1E2F0, 0x1E950, 0x1FBF0]

/-- The value of a decimal digit. -/
def decimal? (c : Char) : Option ℕ :=
  (decimalZeros.find? fun first => first ≤ c.toNat ∧ c.toNat < first + 10).map fun first =>
    c.toNat - first

/-- What `int` passes over around a number: the separators of ASCII are not blank to it. -/
def isBlank (c : Char) : Bool := PyText.isSpace c && !(28 ≤ c.toNat && c.toNat ≤ 31)

def trim (text : List Char) : List Char :=
  ((text.dropWhile isBlank).reverse.dropWhile isBlank).reverse

/-- At least one digit, with single underscores between two. -/
def digits? (digit? : Char → Option ℕ) : List Char → Option (List ℕ)
  | [] => none
  | [c] => (digit? c).map fun d => [d]
  | c :: '_' :: cs => do
    let d ← digit? c
    let ds ← digits? digit? cs
    return d :: ds
  | c :: cs => do
    let d ← digit? c
    let ds ← digits? digit? cs
    return d :: ds

/-- The number of some digits. -/
def valueOf (base : ℕ) (ds : List ℕ) : ℕ := ds.foldl (fun acc d => base * acc + d) 0

/-- `sys.int_info.default_max_str_digits` -/
def maxStrDigits : ℕ := 4300

def natural? (text : List Char) : Option ℕ := do
  let ds ← digits? decimal? text
  if maxStrDigits < ds.length then none
  else return valueOf 10 ds

/-- `int(text)`, `none` where it raises `ValueError`. -/
def int? (text : List Char) : Option ℤ :=
  match trim text with
  | '-' :: cs => (natural? cs).map fun (n : ℕ) => -(n : ℤ)
  | '+' :: cs => (natural? cs).map fun (n : ℕ) => (n : ℤ)
  | cs => (natural? cs).map fun (n : ℕ) => (n : ℤ)

/-- The value of a hexadecimal digit. -/
def hexDigit? (c : Char) : Option ℕ :=
  match decimal? c with
  | some d => some d
  | none =>
    if 'a' ≤ c ∧ c ≤ 'f' then some (c.toNat - 87)
    else if 'A' ≤ c ∧ c ≤ 'F' then some (c.toNat - 55)
    else none

/-- A sign of the base in front of the digits, with the underscore that may follow it. -/
def dropHexMark : List Char → List Char
  | '0' :: x :: '_' :: cs => if x = 'x' ∨ x = 'X' then cs else '0' :: x :: '_' :: cs
  | '0' :: x :: cs => if x = 'x' ∨ x = 'X' then cs else '0' :: x :: cs
  | cs => cs

def hexNatural? (text : List Char) : Option ℕ :=
  (digits? hexDigit? (dropHexMark text)).map (valueOf 16)

/-- `int(text, 16)`, `none` where it raises `ValueError`. -/
def hexInt? (text : List Char) : Option ℤ :=
  match trim text with
  | '-' :: cs => (hexNatural? cs).map fun (n : ℕ) => -(n : ℤ)
  | '+' :: cs => (hexNatural? cs).map fun (n : ℕ) => (n : ℤ)
  | cs => (hexNatural? cs).map fun (n : ℕ) => (n : ℤ)

/-! ## What is read -/

/-- Digits, with single underscores between two. -/
inductive Digits : List Char → List ℕ → Prop where
  | one {c : Char} {d : ℕ} : decimal? c = some d → Digits [c] [d]
  | next {c : Char} {d : ℕ} {cs : List Char} {ds : List ℕ} :
      decimal? c = some d → Digits cs ds → Digits (c :: cs) (d :: ds)
  | grouped {c : Char} {d : ℕ} {cs : List Char} {ds : List ℕ} :
      decimal? c = some d → Digits cs ds → Digits (c :: '_' :: cs) (d :: ds)

/-- A numeral without a sign. -/
inductive Unsigned : List Char → ℕ → Prop where
  | digits {cs : List Char} {ds : List ℕ} :
      Digits cs ds → ds.length ≤ maxStrDigits → Unsigned cs (valueOf 10 ds)

/-- A numeral, and the number it writes. -/
inductive Signed : List Char → ℤ → Prop where
  | plain {cs : List Char} {n : ℕ} : Unsigned cs n → Signed cs n
  | plus {cs : List Char} {n : ℕ} : Unsigned cs n → Signed ('+' :: cs) n
  | minus {cs : List Char} {n : ℕ} : Unsigned cs n → Signed ('-' :: cs) (-n)

/-- A numeral with blanks around it. -/
def Numeral (text : List Char) (n : ℤ) : Prop :=
  ∃ before cs after, text = before ++ (cs ++ after) ∧ (∀ c ∈ before, isBlank c = true) ∧
    (∀ c ∈ after, isBlank c = true) ∧ Signed cs n

section Read

variable {c : Char} {d : ℕ} {cs text : List Char} {ds : List ℕ} {n : ℤ}

/-- A decimal digit is one of the ten of its script. -/
theorem mem_of_decimal? (h : decimal? c = some d) :
    ∃ first ∈ decimalZeros, d < 10 ∧ c.toNat = first + d := by
  unfold decimal? at h
  obtain ⟨first, hfind, rfl⟩ := Option.map_eq_some_iff.mp h
  have hbounds : first ≤ c.toNat ∧ c.toNat < first + 10 := by
    simpa using List.find?_some hfind
  exact ⟨first, List.mem_of_find?_eq_some hfind, by omega, by omega⟩

/-- No digit is blank. -/
theorem isBlank_of_decimal? (h : decimal? c = some d) : isBlank c = false := by
  obtain ⟨first, hfirst, hd, hc⟩ := mem_of_decimal? h
  have hall : ∀ first ∈ decimalZeros, first < 0x1680 ∧ 48 ≤ first ∧ first ≠ 0x85 ∧
      ¬ (first ≤ 0x85 ∧ 0x85 < first + 10) ∧ ¬ (first ≤ 0xA0 ∧ 0xA0 < first + 10) ∧
      ¬ (first ≤ 0x1680 ∧ 0x1680 < first + 10) ∨ 0x1680 < first ∧ first + 10 ≤ 0x2000 ∨
      0x3000 < first := by
    decide
  have hspace : PyText.isSpace c = false := by
    unfold PyText.isSpace
    simp only [Bool.or_eq_false_iff, Bool.and_eq_false_iff, decide_eq_false_iff_not,
      beq_eq_false_iff_ne]
    have hcase := hall first hfirst
    omega
  unfold isBlank
  rw [hspace]
  rfl

theorem decimal?_underscore : decimal? '_' = none := by
  decide

theorem digits?_iff : digits? decimal? cs = some ds ↔ Digits cs ds := by
  constructor
  · intro h
    induction cs using digits?.induct generalizing ds with
    | case1 => cases h
    | case2 c =>
      obtain ⟨d, hd, rfl⟩ := Option.map_eq_some_iff.mp h
      exact .one hd
    | case3 c cs ih =>
      unfold digits? at h
      obtain ⟨d, hd, h⟩ := Option.bind_eq_some_iff.mp h
      obtain ⟨rest, hrest, h⟩ := Option.bind_eq_some_iff.mp h
      rw [← Option.some.inj h]
      exact .grouped hd (ih hrest)
    | case4 c cs hne hunder ih =>
      rw [digits?.eq_4 _ _ _ hne hunder] at h
      obtain ⟨d, hd, h⟩ := Option.bind_eq_some_iff.mp h
      obtain ⟨rest, hrest, h⟩ := Option.bind_eq_some_iff.mp h
      rw [← Option.some.inj h]
      exact .next hd (ih hrest)
  · intro h
    induction h with
    | one hd =>
      unfold digits?
      rw [hd]
      rfl
    | @next c d cs ds hd hrest ih =>
      have hne : cs ≠ [] := by
        rintro rfl
        cases hrest
      have hunder : ∀ rest, cs ≠ '_' :: rest := by
        rintro rest rfl
        cases hrest with
        | one h => cases decimal?_underscore.symm.trans h
        | next h _ => cases decimal?_underscore.symm.trans h
        | grouped h _ => cases decimal?_underscore.symm.trans h
      rw [digits?.eq_4 _ _ _ (fun he => hne he) (fun rest he => hunder rest he), hd, ih]
      rfl
    | grouped hd _ ih =>
      rw [digits?.eq_3, hd, ih]
      rfl

theorem natural?_iff {n : ℕ} : natural? cs = some n ↔ Unsigned cs n := by
  unfold natural?
  constructor
  · intro h
    obtain ⟨ds, hds, h⟩ := Option.bind_eq_some_iff.mp h
    split_ifs at h with hlong
    rw [← Option.some.inj h]
    exact .digits (digits?_iff.mp hds) (not_lt.mp hlong)
  · intro h
    cases h with
    | digits hds hshort =>
      rw [digits?_iff.mpr hds]
      exact if_neg (not_lt.mpr hshort)

/-- Digits begin and end with one. -/
theorem Digits.ends (h : Digits cs ds) : cs ≠ [] ∧ (∀ c ∈ cs.head?, ∃ d, decimal? c = some d) ∧
    ∀ c ∈ cs.getLast?, ∃ d, decimal? c = some d := by
  have hlast {c c' : Char} {cs : List Char} (hne : cs ≠ []) (h : c' ∈ (c :: cs).getLast?) :
      c' ∈ cs.getLast? := by
    rwa [List.getLast?_cons_of_ne_nil hne] at h
  induction h with
  | one hd =>
    refine ⟨List.cons_ne_nil _ _, fun c hc => ⟨_, Option.some.inj hc ▸ hd⟩, fun c hc => ?_⟩
    obtain rfl := List.mem_singleton.mp (List.mem_of_getLast? hc)
    exact ⟨_, hd⟩
  | next hd _ ih =>
    refine ⟨List.cons_ne_nil _ _, fun c hc => ⟨_, Option.some.inj hc ▸ hd⟩, fun c hc => ?_⟩
    exact ih.2.2 c (hlast ih.1 hc)
  | grouped hd _ ih =>
    refine ⟨List.cons_ne_nil _ _, fun c hc => ⟨_, Option.some.inj hc ▸ hd⟩, fun c hc => ?_⟩
    exact ih.2.2 c (hlast ih.1 (hlast (List.cons_ne_nil _ _) hc))

theorem Unsigned.ends {n : ℕ} (h : Unsigned cs n) : cs ≠ [] ∧
    (∀ c ∈ cs.head?, ∃ d, decimal? c = some d) ∧ ∀ c ∈ cs.getLast?, ∃ d, decimal? c = some d := by
  cases h with
  | digits h _ => exact h.ends

/-- A numeral neither begins nor ends with a blank. -/
theorem Signed.ends (h : Signed cs n) : cs ≠ [] ∧ (∀ c ∈ cs.head?, isBlank c = false) ∧
    ∀ c ∈ cs.getLast?, isBlank c = false := by
  have hblank {c : Char} (hc : ∃ d, decimal? c = some d) : isBlank c = false := by
    obtain ⟨d, hd⟩ := hc
    exact isBlank_of_decimal? hd
  have hsign {sign : Char} {cs : List Char} {m : ℕ} (hs : isBlank sign = false)
      (h : Unsigned cs m) : sign :: cs ≠ [] ∧ (∀ c ∈ (sign :: cs).head?, isBlank c = false) ∧
        ∀ c ∈ (sign :: cs).getLast?, isBlank c = false := by
    refine ⟨List.cons_ne_nil _ _, fun c hc => Option.some.inj hc ▸ hs, fun c hc => ?_⟩
    rw [List.getLast?_cons_of_ne_nil h.ends.1] at hc
    exact hblank (h.ends.2.2 c hc)
  cases h with
  | plain h => exact ⟨h.ends.1, fun c hc => hblank (h.ends.2.1 c hc), fun c hc =>
      hblank (h.ends.2.2 c hc)⟩
  | plus h => exact hsign (by decide) h
  | minus h => exact hsign (by decide) h

/-- Blanks around a text are what is trimmed. -/
theorem trim_blank {before after : List Char} (hbefore : ∀ c ∈ before, isBlank c = true)
    (hafter : ∀ c ∈ after, isBlank c = true) (hne : cs ≠ [])
    (hhead : ∀ c ∈ cs.head?, isBlank c = false) (hlast : ∀ c ∈ cs.getLast?, isBlank c = false) :
    trim (before ++ (cs ++ after)) = cs := by
  have hdrop {cs rest : List Char} (hne : cs ≠ []) (hhead : ∀ c ∈ cs.head?, isBlank c = false) :
      (cs ++ rest).dropWhile isBlank = cs ++ rest := by
    cases cs with
    | nil => exact absurd rfl hne
    | cons c cs => exact List.dropWhile_cons_of_neg (by rw [hhead c rfl]; decide)
  have hleft : (before ++ (cs ++ after)).dropWhile isBlank = cs ++ after := by
    rw [List.dropWhile_append_of_pos hbefore]
    exact hdrop hne hhead
  have hright : (after.reverse ++ cs.reverse).dropWhile isBlank = cs.reverse := by
    rw [List.dropWhile_append_of_pos fun c hc => hafter c (List.mem_reverse.mp hc)]
    have h := @hdrop cs.reverse [] (List.reverse_ne_nil_iff.mpr hne)
      (by rwa [List.head?_reverse])
    rwa [List.append_nil] at h
  unfold trim
  rw [hleft, List.reverse_append, hright, List.reverse_reverse]

theorem exists_trim (text : List Char) : ∃ before after, text = before ++ (trim text ++ after) ∧
    (∀ c ∈ before, isBlank c = true) ∧ ∀ c ∈ after, isBlank c = true := by
  have hleft := (List.takeWhile_append_dropWhile (p := isBlank) (l := text)).symm
  have hright : text.dropWhile isBlank =
      trim text ++ ((text.dropWhile isBlank).reverse.takeWhile isBlank).reverse := by
    unfold trim
    rw [← List.reverse_append, List.takeWhile_append_dropWhile, List.reverse_reverse]
  refine ⟨text.takeWhile isBlank,
    ((text.dropWhile isBlank).reverse.takeWhile isBlank).reverse, ?_,
    fun c hc => List.mem_takeWhile_imp hc,
    fun c hc => List.mem_takeWhile_imp (List.mem_reverse.mp hc)⟩
  rw [← hright]
  exact hleft

/-- What is read once the blanks are off. -/
def signed? : List Char → Option ℤ
  | '-' :: cs => (natural? cs).map fun (n : ℕ) => -(n : ℤ)
  | '+' :: cs => (natural? cs).map fun (n : ℕ) => (n : ℤ)
  | cs => (natural? cs).map fun (n : ℕ) => (n : ℤ)

theorem signed?_iff : signed? cs = some n ↔ Signed cs n := by
  have hnot {sign : Char} {cs : List Char} {m : ℕ} (hs : decimal? sign = none) :
      ¬ Unsigned (sign :: cs) m := by
    intro h
    obtain ⟨d, hd⟩ := h.ends.2.1 sign rfl
    cases hs.symm.trans hd
  constructor
  · intro h
    unfold signed? at h
    split at h
    · obtain ⟨m, hm, rfl⟩ := Option.map_eq_some_iff.mp h
      exact .minus (natural?_iff.mp hm)
    · obtain ⟨m, hm, rfl⟩ := Option.map_eq_some_iff.mp h
      exact .plus (natural?_iff.mp hm)
    · obtain ⟨m, hm, rfl⟩ := Option.map_eq_some_iff.mp h
      exact .plain (natural?_iff.mp hm)
  · intro h
    cases h with
    | plain h =>
      unfold signed?
      split
      · exact absurd h (hnot (by decide))
      · exact absurd h (hnot (by decide))
      · rw [natural?_iff.mpr h]
        rfl
    | plus h =>
      show (natural? _).map _ = _
      rw [natural?_iff.mpr h]
      rfl
    | minus h =>
      show (natural? _).map _ = _
      rw [natural?_iff.mpr h]
      rfl

/-- **What `int` reads are the numerals**, and every one for its number. -/
theorem int?_iff : int? text = some n ↔ Numeral text n := by
  show signed? (trim text) = some n ↔ _
  rw [signed?_iff]
  constructor
  · intro h
    obtain ⟨before, after, htext, hbefore, hafter⟩ := exists_trim text
    exact ⟨before, trim text, after, htext, hbefore, hafter, h⟩
  · intro h
    obtain ⟨before, cs, after, rfl, hbefore, hafter, hcs⟩ := h
    obtain ⟨hne, hhead, hlast⟩ := hcs.ends
    rw [trim_blank hbefore hafter hne hhead hlast]
    exact hcs

/-- A text writes one number at most. -/
theorem Numeral.unique {m : ℤ} (h : Numeral text n) (h' : Numeral text m) : n = m := by
  rw [← int?_iff] at h h'
  exact Option.some.inj (h.symm.trans h')

end Read

/-! ## Numerals of ASCII digits -/

section Ascii

variable {c : Char} {cs : List Char}

theorem bounds_of_isDigit (h : c.isDigit = true) : 48 ≤ c.toNat ∧ c.toNat ≤ 57 := by
  simpa [Char.isDigit, Char.le_def, UInt32.le_iff_toNat_le] using h

theorem decimal?_of_isDigit (h : c.isDigit = true) : decimal? c = some (c.toNat - 48) := by
  have hbounds := bounds_of_isDigit h
  have hzeros : decimalZeros = 48 :: decimalZeros.tail := rfl
  have hfirst : 48 ≤ c.toNat ∧ c.toNat < 48 + 10 := by omega
  unfold decimal?
  rw [hzeros, List.find?_cons, decide_eq_true hfirst]
  rfl

theorem digits?_of_forall {digit? : Char → Option ℕ} {value : Char → ℕ} (hne : cs ≠ [])
    (h : ∀ c ∈ cs, digit? c = some (value c)) (hunderscore : '_' ∉ cs) :
    digits? digit? cs = some (cs.map value) := by
  induction cs with
  | nil => exact absurd rfl hne
  | cons c cs ih =>
    have hc := h c List.mem_cons_self
    cases cs with
    | nil =>
      unfold digits?
      rw [hc]
      rfl
    | cons next cs =>
      have hrest := ih (List.cons_ne_nil _ _) (fun d hd => h d (List.mem_cons_of_mem c hd))
        fun hd => hunderscore (List.mem_cons_of_mem c hd)
      have hnext : next ≠ '_' := fun he =>
        hunderscore (he ▸ List.mem_cons_of_mem c List.mem_cons_self)
      rw [digits?.eq_4 _ _ _ (fun he => List.cons_ne_nil _ _ he)
        fun _ he => hnext (List.cons.inj he).1, hc, hrest]
      rfl

/-- Around a numeral there is nothing to trim. -/
theorem trim_of_forall (h : ∀ c ∈ cs, isBlank c = false) : trim cs = cs := by
  have hdrop : ∀ ds : List Char, (∀ c ∈ ds, isBlank c = false) → ds.dropWhile isBlank = ds := by
    intro ds hds
    cases ds with
    | nil => rfl
    | cons d ds =>
      exact List.dropWhile_cons_of_neg (by rw [hds d List.mem_cons_self]; decide)
  unfold trim
  rw [hdrop cs h, hdrop cs.reverse fun c hc => h c (List.mem_reverse.mp hc), List.reverse_reverse]

theorem isBlank_of_isDigit (h : c.isDigit = true) : isBlank c = false := by
  unfold isBlank
  rw [PyText.isSpace_of_isDigit h]
  rfl

theorem natural?_of_isDigit (hne : cs ≠ []) (h : ∀ c ∈ cs, c.isDigit = true) :
    natural? cs = if maxStrDigits < cs.length then none else some (Nat.ofDigitChars 10 cs 0) := by
  have hvalue : ∀ acc, (cs.map fun c => c.toNat - 48).foldl (fun acc d => 10 * acc + d) acc =
      Nat.ofDigitChars 10 cs acc := by
    intro acc
    unfold Nat.ofDigitChars
    rw [List.foldl_map]
    rfl
  have hunderscore : '_' ∉ cs := fun hmem => absurd (h '_' hmem) (by decide)
  have hdigits := digits?_of_forall hne (fun c hc => decimal?_of_isDigit (h c hc)) hunderscore
  unfold natural?
  rw [hdigits]
  show (if maxStrDigits < (cs.map _).length then _ else some (valueOf 10 (cs.map _))) = _
  unfold valueOf
  rw [List.length_map, hvalue]

/-- A numeral of ASCII digits is read for its value, unless it is too long. -/
theorem int?_of_isDigit (hne : cs ≠ []) (h : ∀ c ∈ cs, c.isDigit = true) :
    int? cs = if maxStrDigits < cs.length then none else some (Nat.ofDigitChars 10 cs 0 : ℤ) := by
  unfold int?
  rw [trim_of_forall fun c hc => isBlank_of_isDigit (h c hc)]
  split
  · next ds _ => exact absurd (h '-' List.mem_cons_self) (by decide)
  · next ds _ => exact absurd (h '+' List.mem_cons_self) (by decide)
  · rw [natural?_of_isDigit hne h, apply_ite (Option.map _)]
    rfl

/-! ## Numbers written and read back -/

/-- A number of few enough digits to be written, and read. -/
def Legible (n : ℤ) : Prop := n.natAbs < 10 ^ maxStrDigits

theorem valueOf_lt {ds : List ℕ} (h : ∀ d ∈ ds, d < 10) : valueOf 10 ds < 10 ^ ds.length := by
  induction ds using List.reverseRecOn with
  | nil => decide
  | append_singleton ds d ih =>
    have hd := h d (List.mem_append_right _ (List.mem_singleton_self d))
    have hds := ih fun d hd => h d (List.mem_append_left _ hd)
    unfold valueOf at hds ⊢
    rw [List.foldl_append, List.length_append, List.length_singleton, pow_succ]
    show 10 * List.foldl _ 0 ds + d < _
    omega

theorem Digits.lt {ds : List ℕ} (h : Digits cs ds) : ∀ d ∈ ds, d < 10 := by
  have hlt {c : Char} {d : ℕ} (hd : decimal? c = some d) : d < 10 := by
    obtain ⟨_, _, hlt, _⟩ := mem_of_decimal? hd
    exact hlt
  induction h with
  | one hd => exact List.forall_mem_singleton.mpr (hlt hd)
  | next hd _ ih => exact List.forall_mem_cons.mpr ⟨hlt hd, ih⟩
  | grouped hd _ ih => exact List.forall_mem_cons.mpr ⟨hlt hd, ih⟩

/-- What is read can be written. -/
theorem legible_of_int? {n : ℤ} (h : int? cs = some n) : Legible n := by
  have hunsigned {cs : List Char} {m : ℕ} (h : Unsigned cs m) : m < 10 ^ maxStrDigits := by
    cases h with
    | digits hds hshort =>
      exact (valueOf_lt hds.lt).trans_le (Nat.pow_le_pow_right (by decide) hshort)
  obtain ⟨_, _, _, _, _, _, hsigned⟩ := int?_iff.mp h
  clear h
  unfold Legible
  cases hsigned with
  | plain h => exact hunsigned h
  | plus h => exact hunsigned h
  | minus h =>
    rw [Int.natAbs_neg]
    exact hunsigned h

theorem natural?_toDigits {n : ℕ} (h : n < 10 ^ maxStrDigits) :
    natural? (Nat.toDigits 10 n) = some n := by
  have hshort : (Nat.toDigits 10 n).length ≤ maxStrDigits :=
    (Nat.length_toDigits_le_iff (by decide) (by decide)).mpr h
  rw [natural?_of_isDigit Nat.toDigits_ne_nil fun c hc =>
    Nat.isDigit_of_mem_toDigits (by decide) (by decide) hc, if_neg (not_lt.mpr hshort),
    Nat.ofDigitChars_ten_toDigits]

/-- What `str` writes, `int` reads back. -/
theorem int?_repr {n : ℤ} (h : Legible n) : int? n.repr.toList = some n := by
  have hunsigned {m : ℕ} (hm : m < 10 ^ maxStrDigits) : Unsigned (Nat.toDigits 10 m) m :=
    natural?_iff.mp (natural?_toDigits hm)
  refine int?_iff.mpr ⟨[], n.repr.toList, [], (List.append_nil _).symm, by simp, by simp, ?_⟩
  cases n with
  | ofNat n =>
    have htext : (Int.ofNat n).repr.toList = Nat.toDigits 10 n := Nat.toList_repr
    rw [htext]
    exact .plain (hunsigned h)
  | negSucc n =>
    have htext : (Int.negSucc n).repr.toList = '-' :: Nat.toDigits 10 (n + 1) := by
      unfold Int.repr
      rw [String.toList_append, Nat.toList_repr]
      rfl
    rw [htext]
    exact .minus (hunsigned h)

/-- The numbers that have a text, and are read from one. -/
abbrev LegibleInt := {n : ℤ // Legible n}

/-- `int(text)`, of a number that can be written again. -/
def legible? (text : List Char) : Option LegibleInt :=
  match h : int? text with
  | some n => some ⟨n, legible_of_int? h⟩
  | none => none

theorem legible?_repr (n : LegibleInt) : legible? n.val.repr.toList = some n := by
  have h := int?_repr n.property
  unfold legible?
  split
  · next m hm => exact congrArg some (Subtype.ext (Option.some.inj (hm.symm.trans h)))
  · next hm => cases hm.symm.trans h

/-- A number of few digits. -/
theorem legible_of_small {n : ℤ} (h : n.natAbs < 10) : Legible n :=
  h.trans_le (Nat.le_self_pow (by decide) 10)

/-! ## Hexadecimal numerals -/

theorem valueOf_append (base : ℕ) (ds : List ℕ) (d : ℕ) :
    valueOf base (ds ++ [d]) = base * valueOf base ds + d := by
  unfold valueOf
  rw [List.foldl_append]
  rfl

/-- A digit of a hexadecimal numeral. -/
def hexValue (c : Char) : ℕ := (hexDigit? c).getD 0

theorem digitChar_hex {d : ℕ} (h : d < 16) :
    hexDigit? (Nat.digitChar d) = some d ∧ Nat.digitChar d ≠ 'x' ∧ Nat.digitChar d ≠ 'X' ∧
      Nat.digitChar d ≠ '_' ∧ Nat.digitChar d ≠ '-' ∧ Nat.digitChar d ≠ '+' ∧
      isBlank (Nat.digitChar d) = false := by
  have hall : ∀ d : Fin 16, hexDigit? (Nat.digitChar d) = some (d : ℕ) ∧
      Nat.digitChar d ≠ 'x' ∧ Nat.digitChar d ≠ 'X' ∧ Nat.digitChar d ≠ '_' ∧
      Nat.digitChar d ≠ '-' ∧ Nat.digitChar d ≠ '+' ∧ isBlank (Nat.digitChar d) = false := by
    decide +kernel
  exact hall ⟨d, h⟩

/-- What `{:x}` writes, with zeros in front of it. -/
def HexText (text : List Char) (n : ℕ) : Prop :=
  ∃ zeros, text = List.replicate zeros '0' ++ Nat.toDigits 16 n

theorem toDigits_hex (n : ℕ) : (∀ c ∈ Nat.toDigits 16 n, ∃ d < 16, c = Nat.digitChar d) ∧
    valueOf 16 ((Nat.toDigits 16 n).map hexValue) = n := by
  induction n using Nat.strongRecOn with
  | ind n ih =>
    have hvalue : ∀ d < 16, hexValue (Nat.digitChar d) = d := by
      intro d hd
      unfold hexValue
      rw [(digitChar_hex hd).1]
      rfl
    by_cases hn : n < 16
    · rw [Nat.toDigits_of_lt_base hn]
      refine ⟨fun c hc => ⟨n, hn, List.mem_singleton.mp hc⟩, ?_⟩
      rw [List.map_singleton, hvalue n hn]
      show 16 * 0 + n = n
      omega
    · obtain ⟨hchars, hrest⟩ := ih (n / 16) (by omega)
      have hmod : n % 16 < 16 := Nat.mod_lt n (by decide)
      rw [Nat.toDigits_of_base_le (by decide) (not_lt.mp hn)]
      refine ⟨fun c hc => ?_, ?_⟩
      · obtain hc | hc := List.mem_append.mp hc
        · exact hchars c hc
        · exact ⟨n % 16, hmod, List.mem_singleton.mp hc⟩
      · rw [List.map_append, List.map_singleton, valueOf_append, hrest, hvalue _ hmod]
        omega

theorem valueOf_zeros (zeros : ℕ) (ds : List ℕ) :
    valueOf 16 (List.replicate zeros 0 ++ ds) = valueOf 16 ds := by
  induction zeros with
  | zero => rfl
  | succ zeros ih => exact ih

theorem dropHexMark_of_forall {text : List Char} (h : 'x' ∉ text ∧ 'X' ∉ text) :
    dropHexMark text = text := by
  have hmark : ∀ {x : Char} {cs : List Char}, text = '0' :: x :: cs → ¬ (x = 'x' ∨ x = 'X') := by
    intro x cs he hx
    have hmem : x ∈ text := by
      rw [he]
      exact List.mem_cons_of_mem _ List.mem_cons_self
    obtain rfl | rfl := hx
    · exact h.1 hmem
    · exact h.2 hmem
  unfold dropHexMark
  split
  · exact if_neg (hmark rfl)
  · exact if_neg (hmark rfl)
  · rfl

/-- What is written in hexadecimal is read back. -/
theorem hexInt?_of_hexText {text : List Char} {n : ℕ} (h : HexText text n) :
    hexInt? text = some (n : ℤ) := by
  obtain ⟨zeros, rfl⟩ := h
  obtain ⟨hdigits, hvalue⟩ := toDigits_hex n
  have hall : ∀ c ∈ List.replicate zeros '0' ++ Nat.toDigits 16 n,
      ∃ d < 16, c = Nat.digitChar d := by
    intro c hc
    obtain hc | hc := List.mem_append.mp hc
    · exact ⟨0, by decide, (List.mem_replicate.mp hc).2⟩
    · exact hdigits c hc
  have hnot : ∀ c, (∀ d < 16, Nat.digitChar d ≠ c) →
      c ∉ List.replicate zeros '0' ++ Nat.toDigits 16 n := by
    intro c hc hmem
    obtain ⟨d, hd, he⟩ := hall c hmem
    exact hc d hd he.symm
  have hmark := dropHexMark_of_forall ⟨hnot 'x' fun d hd => (digitChar_hex hd).2.1,
    hnot 'X' fun d hd => (digitChar_hex hd).2.2.1⟩
  have hread := @digits?_of_forall _ hexDigit? hexValue
    (List.append_ne_nil_of_right_ne_nil (List.replicate zeros '0')
      (Nat.toDigits_ne_nil (n := n) (b := 16)))
    (fun c hc => by
      obtain ⟨d, hd, rfl⟩ := hall c hc
      unfold hexValue
      rw [(digitChar_hex hd).1]
      rfl)
    (hnot '_' fun d hd => (digitChar_hex hd).2.2.2.1)
  have hnatural : hexNatural? (List.replicate zeros '0' ++ Nat.toDigits 16 n) = some n := by
    unfold hexNatural?
    rw [hmark, hread, List.map_append, List.map_replicate]
    exact congrArg some ((valueOf_zeros zeros _).trans hvalue)
  unfold hexInt?
  rw [trim_of_forall fun c hc => by
    obtain ⟨d, hd, rfl⟩ := hall c hc
    exact (digitChar_hex hd).2.2.2.2.2.2]
  split
  · next cs he =>
    exact absurd (by rw [he]; exact List.mem_cons_self)
      (hnot '-' fun d hd => (digitChar_hex hd).2.2.2.2.1)
  · next cs he =>
    exact absurd (by rw [he]; exact List.mem_cons_self)
      (hnot '+' fun d hd => (digitChar_hex hd).2.2.2.2.2.1)
  · rw [hnatural]
    rfl

/-! ## Digits that are not decimal -/

/-- The superscripts, circled digits and the like that `str.isdigit` takes besides. -/
def otherDigits : List (ℕ × ℕ) :=
  [(0xB2, 0xB3), (0xB9, 0xB9), (0x1369, 0x1371), (0x19DA, 0x19DA), (0x2070, 0x2070),
    (0x2074, 0x2079), (0x2080, 0x2089), (0x2460, 0x2468), (0x2474, 0x247C), (0x2488, 0x2490),
    (0x24EA, 0x24EA), (0x24F5, 0x24FD), (0x24FF, 0x24FF), (0x2776, 0x277E), (0x2780, 0x2788),
    (0x278A, 0x2792), (0x10A40, 0x10A43), (0x10E60, 0x10E68), (0x11052, 0x1105A),
    (0x1F100, 0x1F10A)]

/-- `text.isdigit()` -/
def isDigits (text : List Char) : Bool :=
  !text.isEmpty && text.all fun c => (decimal? c).isSome ||
    otherDigits.any fun range => range.1 ≤ c.toNat && c.toNat ≤ range.2

end Ascii

end BuckosDistro.Lib.PyInt
