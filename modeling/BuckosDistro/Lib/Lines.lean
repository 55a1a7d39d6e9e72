/-
  The lines of a text, as Python splits them: `str.splitlines`, with every line boundary of
  Unicode. Nothing here names a program.
-/
import BuckosDistro.Lib.PyText

namespace BuckosDistro.Lib.Lines

/-- A line boundary of `str.splitlines`. -/
def isBreak (c : Char) : Bool :=
  let n := c.toNat
  (10 ≤ n && n ≤ 13) || (28 ≤ n && n ≤ 30) || n == 0x85 || n == 0x2028 || n == 0x2029

/-- `text.splitlines()`; a carriage return before a line feed is one boundary with it. -/
def splitlines : List Char → List (List Char)
  | [] => []
  | c :: cs =>
    if c = '\r' ∧ cs.head? = some '\n' then splitlines cs
    else if isBreak c then [] :: splitlines cs
    else
      match splitlines cs with
      | [] => [[c]]
      | line :: lines => (c :: line) :: lines

/-- The lines of a file that is read as text, without their ends: a line feed, a carriage return,
    or both, end a line. -/
def textLines : List Char → List (List Char)
  | [] => []
  | c :: cs =>
    if c = '\r' ∧ cs.head? = some '\n' then textLines cs
    else if c = '\n' ∨ c = '\r' then [] :: textLines cs
    else
      match textLines cs with
      | [] => [[c]]
      | line :: lines => (c :: line) :: lines

/-- `text.split()` -/
def words : List Char → List (List Char)
  | [] => []
  | c :: cs =>
    if PyText.isSpace c then words cs
    else if cs.head?.any fun d => !PyText.isSpace d then
      match words cs with
      | [] => [[c]]
      | word :: rest => (c :: word) :: rest
    else [c] :: words cs

/-- Lines, each with its newline. -/
def unlines (lines : List (List Char)) : List Char := lines.flatMap fun line => line ++ ['\n']

/-- A line without boundaries. -/
def Unbroken (line : List Char) : Prop := ∀ c ∈ line, isBreak c = false

variable {line : List Char} {lines : List (List Char)}

theorem splitlines_append (h : Unbroken line) (rest : List Char) :
    splitlines (line ++ '\n' :: rest) = line :: splitlines rest := by
  induction line with
  | nil =>
    show splitlines ('\n' :: rest) = _
    rw [splitlines, if_neg fun he => absurd he.1 (by decide), if_pos (by decide)]
  | cons c cs ih =>
    obtain ⟨hc, hcs⟩ := List.forall_mem_cons.mp h
    have hreturn : c ≠ '\r' := by
      intro he
      rw [he] at hc
      exact absurd hc (by decide)
    rw [List.cons_append, splitlines, if_neg fun he => hreturn he.1, if_neg (by rw [hc]; decide),
      ih hcs]

theorem splitlines_unlines (h : ∀ line ∈ lines, Unbroken line) :
    splitlines (unlines lines) = lines := by
  induction lines with
  | nil => rfl
  | cons line lines ih =>
    obtain ⟨hline, hlines⟩ := List.forall_mem_cons.mp h
    have hcons : unlines (line :: lines) = line ++ '\n' :: unlines lines := by
      unfold unlines
      rw [List.flatMap_cons, List.append_assoc, List.singleton_append]
    rw [hcons, splitlines_append hline, ih hlines]

theorem unbroken_of_mem_splitlines {text : List Char} (h : line ∈ splitlines text) :
    Unbroken line := by
  induction text generalizing line with
  | nil => exact absurd h List.not_mem_nil
  | cons c cs ih =>
    rw [splitlines] at h
    split_ifs at h with hreturn hbreak
    · exact ih h
    · obtain rfl | h := List.mem_cons.mp h
      · exact fun _ hc => nomatch hc
      · exact ih h
    · have hc : isBreak c = false := Bool.not_eq_true _ ▸ hbreak
      split at h
      · rw [List.mem_singleton.mp h]
        exact List.forall_mem_singleton.mpr hc
      · next first lines hlines =>
        rw [hlines] at ih
        obtain rfl | h := List.mem_cons.mp h
        · exact List.forall_mem_cons.mpr ⟨hc, ih List.mem_cons_self⟩
        · exact ih (List.mem_cons_of_mem first h)

theorem unlines_eq_intercalate (h : lines ≠ []) :
    ['\n'].intercalate lines ++ ['\n'] = unlines lines := by
  induction lines with
  | nil => exact absurd rfl h
  | cons line lines ih =>
    cases lines with
    | nil =>
      unfold unlines
      rw [List.intercalate_singleton, List.flatMap_singleton]
    | cons next lines =>
      have hrest := ih (List.cons_ne_nil _ _)
      unfold unlines at hrest ⊢
      rw [List.intercalate_cons_cons, List.append_assoc, hrest]
      rfl

theorem splitOn_cons (sep c : Char) (cs : List Char) :
    (c :: cs).splitOn sep =
      if c = sep then [] :: cs.splitOn sep else (cs.splitOn sep).modifyHead (c :: ·) := by
  unfold List.splitOn
  rw [List.splitOnP_cons_eq_if_modifyHead]
  exact if_congr beq_iff_eq rfl rfl

theorem splitOn_of_notMem {sep : Char} {text : List Char} (h : sep ∉ text) :
    text.splitOn sep = [text] := by
  induction text with
  | nil => exact List.splitOnP_nil
  | cons c cs ih =>
    obtain ⟨hc, hcs⟩ := not_or.mp (List.mem_cons.not.mp h)
    rw [splitOn_cons, if_neg (Ne.symm hc), ih hcs]
    rfl

/-- A line that is written with its newline is read in the pieces between carriage returns. -/
theorem textLines_append {text : List Char} (h : '\n' ∉ text) (hend : text.getLast? ≠ some '\r')
    (rest : List Char) :
    textLines (text ++ '\n' :: rest) = text.splitOn '\r' ++ textLines rest := by
  induction text with
  | nil =>
    show textLines ('\n' :: rest) = _
    rw [textLines, if_neg fun he => absurd he.1 (by decide), if_pos (.inl rfl)]
    rfl
  | cons c cs ih =>
    obtain ⟨hc, hcs⟩ := not_or.mp (List.mem_cons.not.mp h)
    have hend' : cs.getLast? ≠ some '\r' := by
      intro he
      apply hend
      rw [List.getLast?_cons, he]
      rfl
    have hpair : ¬ (c = '\r' ∧ (cs ++ '\n' :: rest).head? = some '\n') := by
      intro ⟨hreturn, hhead⟩
      cases cs with
      | nil => exact hend (by rw [hreturn]; rfl)
      | cons d ds => exact hcs (Option.some.inj hhead ▸ List.mem_cons_self)
    rw [List.cons_append, textLines, if_neg hpair, splitOn_cons, ih hcs hend']
    by_cases hreturn : c = '\r'
    · rw [if_pos (.inr hreturn), if_pos hreturn]
      rfl
    · rw [if_neg (not_or.mpr ⟨Ne.symm hc, hreturn⟩), if_neg hreturn]
      obtain ⟨line, lines, heq⟩ :=
        List.exists_cons_of_ne_nil (List.splitOnP_ne_nil (· == '\r') cs)
      rw [show cs.splitOn '\r' = line :: lines from heq]
      rfl

end BuckosDistro.Lib.Lines
