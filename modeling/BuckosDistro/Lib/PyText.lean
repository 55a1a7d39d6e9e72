/-
  Python string operations on lists of characters.

  Nothing here names the solver. Each operation is the one of `str` it is called
  after, on `List Char`; the callers convert with `String.toList` and
  `String.ofList`. Index arithmetic of the original (`text[i:]`, `find`) becomes
  `take` and `drop`.
-/
import Mathlib

namespace BuckosDistro.Lib.PyText

/-! ## Comparison

What definitions over texts and pairs of them ask for, each under one name. -/

instance lawfulBEqChars : LawfulBEq (List Char) := inferInstance

instance lawfulBEqPair : LawfulBEq (String × String) := inferInstance

instance isTransString : IsTrans String (· ≤ ·) := inferInstance

instance antisymmString : @Std.Antisymm String (· ≤ ·) := inferInstance

/-! ## White space -/

/-- `str.isspace` on one character. -/
def isSpace (c : Char) : Bool :=
  let n := c.toNat
  (9 ≤ n && n ≤ 13) || (28 ≤ n && n ≤ 32) || n == 0x85 || n == 0xA0 || n == 0x1680 ||
    (0x2000 ≤ n && n ≤ 0x200A) || n == 0x2028 || n == 0x2029 || n == 0x202F ||
    n == 0x205F || n == 0x3000

/-- `text.lstrip()`. -/
def lstrip (text : List Char) : List Char := text.dropWhile isSpace

/-- `text.rstrip()`. -/
def rstrip (text : List Char) : List Char := (text.reverse.dropWhile isSpace).reverse

/-- `text.strip()`. -/
def strip (text : List Char) : List Char := rstrip (lstrip text)

/-! ## Substrings -/

/-- `text.find(sub)`, `none` for -1. -/
def find? (sub : List Char) : List Char → Option Nat
  | [] => if sub.isEmpty then some 0 else none
  | c :: cs => if sub.isPrefixOf (c :: cs) then some 0 else (find? sub cs).map (· + 1)

/-- `text.partition(sep)` for a one-character separator: the text before the first
    separator, and the text after it when there is one. -/
def partition (sep : Char) : List Char → List Char × Option (List Char)
  | [] => ([], none)
  | c :: cs =>
    if c = sep then ([], some cs)
    else let (head, tail) := partition sep cs; (c :: head, tail)

/-- `sep.join(parts)`. -/
def join (sep : String) : List String → String
  | [] => ""
  | [part] => part
  | part :: parts => part ++ sep ++ join sep parts

/-! ## Quoting -/

/-- One hexadecimal digit, lower case. -/
def hexDigit (n : Nat) : Char := if n < 10 then Char.ofNat (48 + n) else Char.ofNat (87 + n)

def singleQuote : Char := Char.ofNat 39
def doubleQuote : Char := Char.ofNat 34
def backslash : Char := Char.ofNat 92

/-- One character inside `repr`, between quotes `q`. Beyond Latin-1 every character stands for
    itself: which of them are printable is a table of the Unicode version. -/
def reprChar (q c : Char) : List Char :=
  if c = backslash then [backslash, backslash]
  else if c = q then [backslash, q]
  else if c.toNat = 10 then [backslash, 'n']
  else if c.toNat = 13 then [backslash, 'r']
  else if c.toNat = 9 then [backslash, 't']
  else if c.toNat < 32 ∨ 127 ≤ c.toNat ∧ c.toNat ≤ 160 ∨ c.toNat = 173 then
    [backslash, 'x', hexDigit (c.toNat / 16), hexDigit (c.toNat % 16)]
  else [c]

/-- `repr(text)`: single quotes, double ones when the text holds only single ones. -/
def repr (text : String) : String :=
  let cs := text.toList
  let q := if singleQuote ∈ cs ∧ doubleQuote ∉ cs then doubleQuote else singleQuote
  String.ofList (q :: cs.flatMap (reprChar q) ++ [q])

/-! ## Sorted sets -/

/-- `sorted(set(names))`. -/
def sortedSet (names : List String) : List String := names.dedup.insertionSort (· ≤ ·)

@[simp] theorem mem_sortedSet {names : List String} {a : String} :
    a ∈ sortedSet names ↔ a ∈ names := by
  simp [sortedSet]

theorem nodup_sortedSet (names : List String) : (sortedSet names).Nodup :=
  (List.perm_insertionSort _ _).nodup_iff.mpr (List.nodup_dedup names)

theorem pairwise_sortedSet (names : List String) : (sortedSet names).Pairwise (· < ·) :=
  (List.sortedLE_insertionSort.sortedLT_of_nodup (nodup_sortedSet names)).pairwise

/-- The order of the names, and their repetitions, do not matter. -/
theorem sortedSet_congr {xs ys : List String} (h : ∀ a, a ∈ xs ↔ a ∈ ys) :
    sortedSet xs = sortedSet ys := by
  have hdedup : xs.dedup.Perm ys.dedup :=
    (List.perm_ext_iff_of_nodup (List.nodup_dedup _) (List.nodup_dedup _)).mpr
      fun a => by rw [List.mem_dedup, List.mem_dedup, h]
  refine List.Perm.eq_of_sortedLE List.sortedLE_insertionSort List.sortedLE_insertionSort ?_
  exact (List.perm_insertionSort _ _).trans
    (hdedup.trans (List.perm_insertionSort _ _).symm)

/-- `sorted(names)`, of a set. -/
def sorted (names : Finset String) : List String :=
  Quot.liftOn names.val (fun l => l.insertionSort (· ≤ ·)) fun _ _ h =>
    List.Perm.eq_of_sortedLE List.sortedLE_insertionSort List.sortedLE_insertionSort
      ((List.perm_insertionSort _ _).trans (h.trans (List.perm_insertionSort _ _).symm))

@[simp] theorem mem_sorted {names : Finset String} {a : String} :
    a ∈ sorted names ↔ a ∈ names := by
  obtain ⟨⟨l⟩, hl⟩ := names
  exact List.mem_insertionSort _

@[simp] theorem sorted_empty : sorted ∅ = [] := rfl

@[simp] theorem sorted_singleton (name : String) : sorted {name} = [name] := rfl

/-! ## What is left of a text -/

section Strip

variable {text : List Char} {c : Char}

theorem rstrip_append_of_not {c : Char} (h : isSpace c = false) (text : List Char) :
    rstrip (text ++ [c]) = text ++ [c] := by
  unfold rstrip
  rw [List.reverse_append, List.reverse_singleton, List.singleton_append,
    List.dropWhile_cons_of_neg (by rw [h]; exact Bool.false_ne_true), List.reverse_cons,
    List.reverse_reverse]

theorem rstrip_append_of_space {c : Char} (h : isSpace c = true) (text : List Char) :
    rstrip (text ++ [c]) = rstrip text := by
  unfold rstrip
  rw [List.reverse_append, List.reverse_singleton, List.singleton_append,
    List.dropWhile_cons_of_pos h]

/-- What is left of a text is a part of it. -/
theorem strip_sublist (text : List Char) : (strip text).Sublist text := by
  have hr : ∀ t : List Char, (rstrip t).Sublist t := by
    intro t
    have h := List.dropWhile_sublist isSpace (l := t.reverse)
    unfold rstrip
    rw [← List.reverse_reverse t] at h ⊢
    simpa using h.reverse
  exact (hr _).trans (List.dropWhile_sublist _)

theorem notMem_strip (h : c ∉ text) : c ∉ strip text :=
  fun hc => h ((strip_sublist text).subset hc)

/-- A text that neither starts nor ends with white space is left as it is. -/
theorem strip_of_ends (hhead : ∀ c ∈ text.head?, isSpace c = false)
    (hlast : ∀ c ∈ text.getLast?, isSpace c = false) : strip text = text := by
  have hl : lstrip text = text := by
    cases text with
    | nil => rfl
    | cons c cs =>
      have hc := hhead c rfl
      exact List.dropWhile_cons_of_neg (by rw [hc]; exact Bool.false_ne_true)
  unfold strip
  rw [hl]
  induction text using List.reverseRecOn with
  | nil => rfl
  | append_singleton cs c _ => exact rstrip_append_of_not (hlast c (by simp)) cs

theorem strip_ends (text : List Char) :
    (∀ c ∈ (strip text).head?, isSpace c = false) ∧
      ∀ c ∈ (strip text).getLast?, isSpace c = false := by
  have hhead : ∀ c ∈ (lstrip text).head?, isSpace c = false := by
    intro c hc
    unfold lstrip at hc
    have h := List.head?_dropWhile_not isSpace text
    rw [hc] at h
    simpa using h
  unfold strip
  generalize lstrip text = cs at hhead ⊢
  induction cs using List.reverseRecOn with
  | nil => exact ⟨fun _ hc => (nomatch hc), fun _ hc => nomatch hc⟩
  | append_singleton cs c ih =>
    by_cases hspace : isSpace c = true
    · rw [rstrip_append_of_space hspace]
      refine ih fun d hd => hhead d ?_
      rw [List.head?_append, hd]
      rfl
    · rw [Bool.not_eq_true] at hspace
      rw [rstrip_append_of_not hspace]
      refine ⟨hhead, fun d hd => ?_⟩
      obtain rfl : c = d := by simpa using hd
      exact hspace

theorem strip_strip (text : List Char) : strip (strip text) = strip text :=
  strip_of_ends (strip_ends text).1 (strip_ends text).2

/-- What stripping takes off is white space. -/
theorem exists_strip (text : List Char) :
    ∃ before after, text = before ++ (strip text ++ after) ∧
      (∀ c ∈ before, isSpace c = true) ∧ ∀ c ∈ after, isSpace c = true := by
  have hleft : text = text.takeWhile isSpace ++ lstrip text :=
    (List.takeWhile_append_dropWhile (p := isSpace) (l := text)).symm
  have hright : lstrip text =
      strip text ++ ((lstrip text).reverse.takeWhile isSpace).reverse := by
    unfold strip rstrip
    rw [← List.reverse_append, List.takeWhile_append_dropWhile, List.reverse_reverse]
  refine ⟨text.takeWhile isSpace, ((lstrip text).reverse.takeWhile isSpace).reverse, ?_,
    fun c hc => List.mem_takeWhile_imp hc,
    fun c hc => List.mem_takeWhile_imp (List.mem_reverse.mp hc)⟩
  rw [← hright]
  exact hleft

/-- White space around a trimmed text is what stripping takes off. -/
theorem strip_blank {before after : List Char} (hbefore : ∀ c ∈ before, isSpace c = true)
    (hafter : ∀ c ∈ after, isSpace c = true) (h : strip text = text) :
    strip (before ++ (text ++ after)) = text := by
  have hright : ∀ cs : List Char, rstrip (cs ++ after) = rstrip cs := by
    intro cs
    unfold rstrip
    rw [List.reverse_append, List.dropWhile_append_of_pos]
    exact fun c hc => hafter c (List.mem_reverse.mp hc)
  have hleft : lstrip (before ++ (text ++ after)) = lstrip (text ++ after) := by
    unfold lstrip
    rw [List.dropWhile_append_of_pos hbefore]
  unfold strip
  rw [hleft]
  cases text with
  | nil =>
    have hnil : lstrip after = [] := by
      unfold lstrip
      rw [List.dropWhile_eq_nil_iff]
      exact hafter
    rw [List.nil_append, hnil]
    rfl
  | cons c cs =>
    have hc : isSpace c = false := by
      have hends := (strip_ends (c :: cs)).1
      rw [h] at hends
      exact hends c rfl
    have hkeep : lstrip (c :: cs ++ after) = c :: cs ++ after := by
      unfold lstrip
      rw [List.cons_append, List.dropWhile_cons_of_neg (by rw [hc]; exact Bool.false_ne_true)]
    have hself : lstrip (c :: cs) = c :: cs :=
      List.dropWhile_cons_of_neg (by rw [hc]; exact Bool.false_ne_true)
    rw [hkeep, hright]
    unfold strip at h
    rwa [hself] at h

/-- Two trimmed texts and whatever stands between them. -/
theorem strip_between {head mid tail : List Char} (hne : head ≠ []) (hhead : strip head = head)
    (hne' : tail ≠ []) (htail : strip tail = tail) :
    strip (head ++ (mid ++ tail)) = head ++ (mid ++ tail) := by
  obtain ⟨hstart, -⟩ := strip_ends head
  obtain ⟨-, hend⟩ := strip_ends tail
  rw [hhead] at hstart
  rw [htail] at hend
  refine strip_of_ends ?_ ?_
  · rwa [List.head?_append_of_ne_nil _ hne]
  · rwa [← List.append_assoc, List.getLast?_append_of_ne_nil _ hne']

/-- A text is blank when it strips to nothing. -/
theorem strip_ne_nil (hc : c ∈ text) (h : isSpace c = false) : strip text ≠ [] := by
  intro hnil
  have hl : c ∈ lstrip text := by
    unfold lstrip
    rw [← List.takeWhile_append_dropWhile (p := isSpace) (l := text), List.mem_append] at hc
    refine hc.resolve_left fun ht => ?_
    rw [List.mem_takeWhile_imp ht] at h
    exact Bool.false_ne_true h.symm
  have hr : ∀ t : List Char, c ∈ t → rstrip t ≠ [] := by
    intro t ht hnil
    unfold rstrip at hnil
    rw [List.reverse_eq_nil_iff, List.dropWhile_eq_nil_iff] at hnil
    rw [hnil c (List.mem_reverse.mpr ht)] at h
    exact Bool.false_ne_true h.symm
  exact hr _ hl hnil

end Strip

/-! ## Where a text is found -/

section Find

variable {sub text : List Char}

theorem find?_eq_none : find? sub text = none ↔ ¬ sub <:+: text := by
  induction text with
  | nil =>
    unfold find?
    rw [List.infix_nil]
    cases sub <;> simp
  | cons c cs ih =>
    unfold find?
    rw [List.infix_cons_iff, not_or, ← ih, ← List.isPrefixOf_iff_prefix]
    by_cases h : sub.isPrefixOf (c :: cs) = true
    · rw [if_pos h]
      exact iff_of_false (Option.some_ne_none 0) fun hn => hn.1 h
    · rw [if_neg h, Option.map_eq_none_iff]
      exact ⟨fun hn => ⟨h, hn⟩, And.right⟩

/-- What is found stands where it is found. -/
theorem prefix_of_find? {i : ℕ} (h : find? sub text = some i) : sub <+: text.drop i := by
  induction text generalizing i with
  | nil =>
    unfold find? at h
    by_cases hs : sub.isEmpty = true
    · rw [List.isEmpty_iff.mp hs]
      exact List.nil_prefix
    · rw [if_neg hs] at h
      cases h
  | cons c cs ih =>
    unfold find? at h
    by_cases hs : sub.isPrefixOf (c :: cs) = true
    · rw [if_pos hs] at h
      rw [← Option.some.inj h]
      exact List.isPrefixOf_iff_prefix.mp hs
    · rw [if_neg hs] at h
      obtain ⟨j, hj, rfl⟩ := Option.map_eq_some_iff.mp h
      exact ih hj

/-- Nothing is found after the first place it stands at. -/
theorem find?_append_le (head : List Char) (h : sub <+: text) :
    ∃ i ≤ head.length, find? sub (head ++ text) = some i := by
  induction head with
  | nil =>
    refine ⟨0, le_rfl, ?_⟩
    cases text with
    | nil =>
      unfold find?
      rw [List.prefix_nil.mp h]
      rfl
    | cons c cs =>
      unfold find?
      exact if_pos (List.isPrefixOf_iff_prefix.mpr h)
  | cons c head ih =>
    obtain ⟨i, hi, hfind⟩ := ih
    rw [List.cons_append]
    unfold find?
    by_cases hs : sub.isPrefixOf (c :: (head ++ text)) = true
    · exact ⟨0, Nat.zero_le _, if_pos hs⟩
    · refine ⟨i + 1, Nat.succ_le_succ hi, ?_⟩
      rw [if_neg hs, hfind]
      rfl

end Find

/-! ## Words between blanks -/

section Words

variable {word : List Char}

/-- A word and the blanks on its two sides. -/
def between (word : List Char) : List Char := ' ' :: (word ++ [' '])

/-- A word that starts before a blank ends there. -/
theorem prefix_of_blank (hword : ' ' ∉ word) {head rest : List Char}
    (h : word ++ [' '] <+: head ++ ' ' :: rest) : word ++ [' '] <+: head ++ [' '] := by
  induction head generalizing word with
  | nil =>
    cases word with
    | nil => exact List.prefix_rfl
    | cons c cs =>
      obtain ⟨hc, -⟩ := List.cons_prefix_cons.mp h
      exact absurd (hc ▸ List.mem_cons_self) hword
  | cons d head ih =>
    cases word with
    | nil =>
      obtain ⟨hc, -⟩ := List.cons_prefix_cons.mp h
      exact List.cons_prefix_cons.mpr ⟨hc, List.nil_prefix⟩
    | cons c cs =>
      obtain ⟨hc, htail⟩ := List.cons_prefix_cons.mp h
      exact List.cons_prefix_cons.mpr ⟨hc, ih (List.not_mem_of_not_mem_cons hword) htail⟩

/-- Around a blank, a word stands before it, from it on, or after it. -/
theorem between_infix_iff (hword : ' ' ∉ word) {head rest : List Char} :
    between word <:+: head ++ ' ' :: rest ↔
      between word <:+: head ++ [' '] ∨ between word <:+: ' ' :: rest := by
  constructor
  · intro h
    induction head with
    | nil => exact Or.inr h
    | cons c head ih =>
      rw [List.cons_append, List.infix_cons_iff] at h
      refine h.elim (fun hp => Or.inl ?_) fun hi => (ih hi).imp_left List.infix_cons
      obtain ⟨hc, htail⟩ := List.cons_prefix_cons.mp hp
      exact (List.cons_prefix_cons.mpr ⟨hc, prefix_of_blank hword htail⟩).isInfix
  · intro h
    refine h.elim (fun hi => ?_) List.infix_append_of_infix_right
    have hsplit : head ++ ' ' :: rest = (head ++ [' ']) ++ rest := by
      rw [List.append_assoc]
      rfl
    rw [hsplit]
    exact List.infix_append_of_infix_left hi

/-- A word that starts at a blank is the one that stands there. -/
theorem eq_of_between_prefix (hword : ' ' ∉ word) {word' rest : List Char} (hword' : ' ' ∉ word')
    (h : between word <+: between word' ++ rest) : word = word' := by
  have htail : word ++ [' '] <+: word' ++ ' ' :: rest := by
    have hcons : word ++ [' '] <+: (word' ++ [' ']) ++ rest := (List.cons_prefix_cons.mp h).2
    rwa [List.append_assoc] at hcons
  clear h
  induction word' generalizing word with
  | nil =>
    cases word with
    | nil => rfl
    | cons c cs =>
      obtain ⟨hc, -⟩ := List.cons_prefix_cons.mp htail
      exact absurd (hc ▸ List.mem_cons_self) hword
  | cons d word' ih =>
    cases word with
    | nil =>
      obtain ⟨hc, -⟩ := List.cons_prefix_cons.mp htail
      exact absurd (hc ▸ List.mem_cons_self) hword'
    | cons c cs =>
      obtain ⟨hc, hrest⟩ := List.cons_prefix_cons.mp htail
      rw [hc, ih (List.not_mem_of_not_mem_cons hword) (List.not_mem_of_not_mem_cons hword') hrest]

/-- One blank is too few for a word with blanks on both sides. -/
theorem not_between_within (word : List Char) {text : List Char} (h : ' ' ∉ text) :
    ¬ between word <:+: text ++ [' '] := by
  intro hin
  have hcount := hin.sublist.count_le ' '
  rw [List.count_append, List.count_eq_zero.mpr h] at hcount
  have hbetween : (between word).count ' ' = word.count ' ' + 2 := by
    unfold between
    rw [List.count_cons_self, List.count_append]
    rfl
  rw [hbetween, List.count_singleton_self] at hcount
  omega

end Words

/-! ## Cutting and joining -/

section Partition

variable {sep : Char} {text : List Char}

theorem partition_fst (sep : Char) (text : List Char) : sep ∉ (partition sep text).1 := by
  induction text with
  | nil => exact List.not_mem_nil
  | cons c cs ih =>
    unfold partition
    by_cases hc : c = sep
    · rw [if_pos hc]
      exact List.not_mem_nil
    · rw [if_neg hc]
      exact List.mem_cons.not.mpr (not_or.mpr ⟨Ne.symm hc, ih⟩)

theorem partition_sublist (sep : Char) (text : List Char) :
    (partition sep text).1.Sublist text ∧
      ∀ tail ∈ (partition sep text).2, List.Sublist tail text := by
  induction text with
  | nil => exact ⟨List.Sublist.refl _, fun _ h => nomatch h⟩
  | cons c cs ih =>
    unfold partition
    by_cases hc : c = sep
    · rw [if_pos hc]
      refine ⟨List.nil_sublist _, fun tail h => ?_⟩
      obtain rfl : cs = tail := Option.some.inj h
      exact List.sublist_cons_self c cs
    · rw [if_neg hc]
      exact ⟨ih.1.cons_cons c, fun tail h => (ih.2 tail h).cons c⟩

theorem eq_append_of_partition {tail : List Char} (h : (partition sep text).2 = some tail) :
    text = (partition sep text).1 ++ sep :: tail := by
  induction text with
  | nil => cases h
  | cons c cs ih =>
    unfold partition at h ⊢
    by_cases hc : c = sep
    · rw [if_pos hc] at h ⊢
      rw [hc, ← Option.some.inj h]
      rfl
    · rw [if_neg hc] at h ⊢
      exact congrArg (c :: ·) (ih h)

theorem partition_of_notMem (h : sep ∉ text) : partition sep text = (text, none) := by
  induction text with
  | nil => rfl
  | cons c cs ih =>
    obtain ⟨hc, hcs⟩ := not_or.mp (List.mem_cons.not.mp h)
    unfold partition
    rw [if_neg (Ne.symm hc), ih hcs]

theorem partition_append (h : sep ∉ text) (tail : List Char) :
    partition sep (text ++ sep :: tail) = (text, some tail) := by
  induction text with
  | nil =>
    unfold partition
    exact if_pos rfl
  | cons c cs ih =>
    obtain ⟨hc, hcs⟩ := not_or.mp (List.mem_cons.not.mp h)
    rw [List.cons_append]
    unfold partition
    rw [if_neg (Ne.symm hc), ih hcs]

end Partition

section Join

theorem toList_join (sep : String) (parts : List String) :
    (join sep parts).toList = List.intercalate sep.toList (parts.map String.toList) := by
  induction parts with
  | nil => rfl
  | cons part parts ih =>
    cases parts with
    | nil => simp [join, List.intercalate]
    | cons next parts =>
      unfold join
      rw [String.toList_append, String.toList_append, ih]
      simp [List.intercalate]

/-- The parts of a split text do not hold the separator. -/
theorem notMem_of_mem_splitOn {sep : Char} {text part : List Char}
    (h : part ∈ text.splitOn sep) : sep ∉ part := by
  unfold List.splitOn at h
  induction text generalizing part with
  | nil =>
    rw [List.splitOnP_nil, List.mem_singleton] at h
    rw [h]
    exact List.not_mem_nil
  | cons c cs ih =>
    rw [List.splitOnP_cons_eq_if_modifyHead] at h
    split_ifs at h with hc
    · rcases List.mem_cons.mp h with rfl | h
      · exact List.not_mem_nil
      · exact ih h
    · cases hs : List.splitOnP (· == sep) cs with
      | nil => exact absurd hs (List.splitOnP_ne_nil _ _)
      | cons first rest =>
        rw [hs] at ih h
        rw [List.modifyHead_cons] at h
        rcases List.mem_cons.mp h with rfl | h
        · refine List.mem_cons.not.mpr (not_or.mpr ⟨?_, ih (List.mem_cons_self ..)⟩)
          intro he
          rw [he] at hc
          exact hc (beq_self_eq_true c)
        · exact ih (List.mem_cons_of_mem _ h)

end Join

/-! ## Digits -/

theorem isSpace_of_isDigit {c : Char} (h : c.isDigit = true) : isSpace c = false := by
  have hbounds : 48 ≤ c.toNat ∧ c.toNat ≤ 57 := by
    simpa [Char.isDigit, Char.le_def, UInt32.le_iff_toNat_le] using h
  unfold isSpace
  simp
  omega

end BuckosDistro.Lib.PyText
