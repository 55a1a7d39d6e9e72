/-
  SELinux labels of a squashfs image (`tools/squashfs_build.py`, `image_paths` and
  `write_pseudo`).

  The lookup prints a line for each path, `path TAB context`. Its output is read back as text,
  which ends a line at a carriage return too, and is cut at the first tab. What becomes of a path
  is in its own lines (`rowLines`), so that the labels are right where every path's lines are
  (`labels_iff`).
-/
import BuckosDistro.Lib.Lines

namespace BuckosDistro.Squashfs

open BuckosDistro.Lib Lines

abbrev Text := List Char

/-! ## The functions -/

/-- The name of a member as a path of the image. -/
def memberPath (name : Text) : Text :=
  if name = ".".toList ∨ name = "./".toList then "/".toList
  else if "./".toList.isPrefixOf name then name.drop 1
  else if ¬ "/".toList.isPrefixOf name then '/' :: name
  else name

/-- `image_paths`, from the names of the members. -/
def imagePaths (members : List Text) : List Text :=
  members.foldl (fun paths member =>
    let name := memberPath member
    if name ∉ ["/".toList, "/.".toList] ∧ name ∉ paths then paths ++ [name] else paths) []

/-- What the lookup has printed of a path. -/
structure Row where
  path : Text
  context : Text

def rowText (row : Row) : Text := row.path ++ '\t' :: row.context ++ ['\n']

/-- The output of the lookup. -/
def lookupText (rows : List Row) : Text := rows.flatMap rowText

/-- What `write_pseudo` has written, and its counters. -/
structure Pseudo where
  lines : List Text
  written : ℕ
  skipped : ℕ

/-- `char in " \t\\"` -/
def isSpecial (c : Char) : Bool := c = ' ' || c = '\t' || c = '\\'

/-- The body of the loop. -/
def writeLine (pseudo : Pseudo) (line : Text) : Pseudo :=
  let (path, behind) := PyText.partition '\t' line
  let context := behind.getD []
  if path = [] ∨ path ∈ [".".toList, "/".toList, "/.".toList] ∨ context = [] then pseudo
  else if path.any isSpecial then { pseudo with skipped := pseudo.skipped + 1 }
  else
    let pseudoPath := path.dropWhile (· = '/')
    if pseudoPath = [] then pseudo
    else
      { pseudo with
        lines := pseudo.lines ++ [pseudoPath ++ " x security.selinux=".toList ++ context]
        written := pseudo.written + 1 }

/-- `write_pseudo`, from the text of the file it opens. -/
def writePseudo (contexts : Text) : Pseudo := (textLines contexts).foldl writeLine ⟨[], 0, 0⟩

/-! ## The pseudo-file -/

/-- A character that goes on with the first field. -/
def intoFirst (c : Char) : List Text → List Text
  | [] => [[c]]
  | field :: fields => (c :: field) :: fields

/-- The fields of a line, split on spaces; a backslash takes the character behind it as it is. -/
def fields : Text → Option (List Text)
  | [] => some [[]]
  | '\\' :: [] => none
  | '\\' :: c :: cs => (fields cs).map (intoFirst c)
  | ' ' :: cs => (fields cs).map ([] :: ·)
  | c :: cs => (fields cs).map (intoFirst c)

/-- A line `path x security.selinux=context`, read by its fields. -/
def readPseudo (line : Text) : Option (Text × Text) :=
  match fields line with
  | some [path, ['x'], entry] =>
    if "security.selinux=".toList.isPrefixOf entry then some (path, entry.drop 17) else none
  | _ => none

/-- A path as it stands in the pseudo-file, relative to the root. -/
def relative (path : Text) : Text := path.dropWhile (· = '/')

/-- A name that the lookup's output and the pseudo-file both say as it is. -/
def Representable (path : Text) : Prop := ∀ c ∈ path, isSpecial c = false ∧ c ≠ '\r'

/-- What becomes of a path: a line names it and gives it its context; and a path that is not
    representable has no line, and counts as skipped. -/
structure Labelled (row : Row) (gained : List Text) (counted : ℕ) : Prop where
  named : ∀ line ∈ gained, readPseudo line = some (relative row.path, row.context)
  skipped : ¬ Representable row.path → gained = [] ∧ counted = 1
  uncounted : Representable row.path → counted = 0

/-- What is written of rows. -/
def output (rows : List Row) : Pseudo := writePseudo (lookupText rows)

/-- The labels are right: every line gives a representable path its context, and every path has
    done with the output what it should. -/
structure Labels (rows : List Row) : Prop where
  lines : ∀ line ∈ (output rows).lines, ∃ row ∈ rows, Representable row.path ∧
    readPseudo line = some (relative row.path, row.context)
  steps : ∀ before row after, rows = before ++ row :: after → ∃ gained counted,
    (output (before ++ [row])).lines = (output before).lines ++ gained ∧
    (output (before ++ [row])).skipped = (output before).skipped + counted ∧
    Labelled row gained counted

/-- A row as the lookup prints one. -/
structure Printed (row : Row) : Prop where
  path : '\n' ∉ row.path
  context : ∀ c ∈ row.context, c ≠ '\t' ∧ c ≠ '\n' ∧ c ≠ '\r'

/-! ## When the labels are right -/

/-- A name of the root. -/
def Root (path : Text) : Prop := path = ".".toList ∨ path = "/.".toList ∨ ∀ c ∈ path, c = '/'

instance (path : Text) : Decidable (Root path) :=
  decidable_of_iff (path = ".".toList ∨ path = "/.".toList ∨ path.all (· = '/') = true)
    (or_congr Iff.rfl (or_congr Iff.rfl (by rw [List.all_eq_true]; simp)))

/-- The lines that are read of a row. -/
def rowLines (row : Row) : List Text := (row.path ++ '\t' :: row.context).splitOn '\r'

/-- What a line says: it has a text behind its first tab. -/
def answer (line : Text) : Option Row :=
  match PyText.partition '\t' line with
  | (path, some (c :: cs)) => some ⟨path, c :: cs⟩
  | _ => none

/-- What the lines of a row say. -/
def answers (row : Row) : List Row := (rowLines row).filterMap answer

/-- A text that a field holds as it is. -/
def PlainContext (context : Text) : Prop := ∀ c ∈ context, c ≠ ' ' ∧ c ≠ '\\'

/-- A representable path is the root or has a plain context. Of what the lines of any other path
    say, one has a special character before its tab, and the others name the root. -/
structure Safe (row : Row) : Prop where
  plain : Representable row.path → Root row.path ∨ PlainContext row.context
  once : ¬ Representable row.path →
    (answers row).countP (·.path.any isSpecial) = 1 ∧
    ∀ said ∈ answers row, said.path.any isSpecial = true ∨ Root said.path

section Reader

variable {text path context : Text}

theorem fields_cons {c : Char} (hspace : c ≠ ' ') (hslash : c ≠ '\\') (cs : Text) :
    fields (c :: cs) = (fields cs).map (intoFirst c) := by
  rw [fields]
  · rintro rfl
    exact absurd rfl hslash
  · intro d ds he
    exact absurd he hslash
  · exact hspace

theorem fields_plain (h : PlainContext text) : fields text = some [text] := by
  induction text with
  | nil => rfl
  | cons c cs ih =>
    obtain ⟨hc, hcs⟩ := List.forall_mem_cons.mp h
    rw [fields_cons hc.1 hc.2, ih hcs]
    rfl

theorem fields_append (h : PlainContext text) (rest : Text) :
    fields (text ++ ' ' :: rest) = (fields rest).map (text :: ·) := by
  induction text with
  | nil => rw [List.nil_append, fields]
  | cons c cs ih =>
    obtain ⟨hc, hcs⟩ := List.forall_mem_cons.mp h
    rw [List.cons_append, fields_cons hc.1 hc.2, ih hcs, Option.map_map]
    rfl

theorem fields_ne_nil (text : Text) : fields text ≠ some [] := by
  have hinto (c : Char) (x : Option (List Text)) : x.map (intoFirst c) ≠ some [] := by
    intro h
    obtain ⟨fs, _, hfs⟩ := Option.map_eq_some_iff.mp h
    cases fs with
    | nil => exact List.cons_ne_nil _ _ hfs
    | cons field fs => exact List.cons_ne_nil _ _ hfs
  fun_cases fields text with
  | case1 => exact fun h => List.cons_ne_nil _ _ (Option.some.inj h)
  | case2 => exact fun h => nomatch h
  | case3 c cs => exact hinto c _
  | case4 cs =>
    intro h
    obtain ⟨fs, _, hfs⟩ := Option.map_eq_some_iff.mp h
    exact List.cons_ne_nil _ _ hfs
  | case5 c cs => exact hinto c _

theorem exists_of_intoFirst {c : Char} {field : Text} {rest : List Text}
    (h : (fields text).map (intoFirst c) = some (field :: rest)) :
    ∃ tail, field = c :: tail ∧ fields text = some (tail :: rest) := by
  obtain ⟨fs, hfields, hfs⟩ := Option.map_eq_some_iff.mp h
  cases fs with
  | nil => exact absurd hfields (fields_ne_nil text)
  | cons tail fs =>
    obtain ⟨hfield, hrest⟩ := List.cons.inj hfs
    exact ⟨tail, hfield.symm, hrest ▸ hfields⟩

/-- A field has no more characters than the text. -/
theorem length_fields {field : Text} {rest : List Text} (h : fields text = some (field :: rest)) :
    field.length ≤ text.length := by
  fun_induction fields text generalizing field rest with
  | case1 =>
    obtain ⟨rfl, _⟩ := List.cons.inj (Option.some.inj h)
    exact le_rfl
  | case2 => exact nomatch h
  | case3 c cs ih =>
    obtain ⟨tail, rfl, htail⟩ := exists_of_intoFirst h
    have hle := ih htail
    rw [List.length_cons, List.length_cons, List.length_cons]
    omega
  | case4 cs =>
    obtain ⟨fs, _, hfs⟩ := Option.map_eq_some_iff.mp h
    rw [← (List.cons.inj hfs).1]
    exact Nat.zero_le _
  | case5 c cs _ _ _ ih =>
    obtain ⟨tail, rfl, htail⟩ := exists_of_intoFirst h
    have hle := ih htail
    rw [List.length_cons, List.length_cons]
    omega

/-- A text that is read as it is has no character of the grammar. -/
theorem plain_of_fields (h : fields text = some [text]) : PlainContext text := by
  fun_induction fields text with
  | case1 => exact fun c hc => nomatch hc
  | case2 => exact nomatch h
  | case3 c cs _ =>
    obtain ⟨tail, htext, htail⟩ := exists_of_intoFirst h
    have hle := length_fields htail
    have hlen := congrArg List.length htext
    rw [List.length_cons, List.length_cons, List.length_cons] at hlen
    omega
  | case4 cs =>
    obtain ⟨fs, _, hfs⟩ := Option.map_eq_some_iff.mp h
    exact nomatch (List.cons.inj hfs).1
  | case5 c cs hend hpair hspace ih =>
    obtain ⟨tail, htext, htail⟩ := exists_of_intoFirst h
    obtain ⟨_, rfl⟩ := List.cons.inj htext
    refine List.forall_mem_cons.mpr ⟨⟨hspace, fun hslash => ?_⟩, ih htail⟩
    cases cs with
    | nil => exact hend hslash rfl
    | cons d ds => exact hpair d ds hslash rfl

/-- A line that is written is read back where its context is plain. -/
theorem readPseudo_iff (h : PlainContext path) :
    readPseudo (path ++ " x security.selinux=".toList ++ context) = some (path, context) ↔
      PlainContext context := by
  have hmark : PlainContext "security.selinux=".toList := by simp [PlainContext]
  have hfields : fields (path ++ " x security.selinux=".toList ++ context) =
      (fields ("security.selinux=".toList ++ context)).map fun fs => path :: ['x'] :: fs := by
    have hx : PlainContext ['x'] := by simp [PlainContext]
    have hline : path ++ " x security.selinux=".toList ++ context =
        path ++ ' ' :: (['x'] ++ ' ' :: ("security.selinux=".toList ++ context)) := by
      rw [List.append_assoc]
      rfl
    rw [hline, fields_append h, fields_append hx, Option.map_map]
    rfl
  unfold readPseudo
  rw [hfields]
  refine ⟨fun hread => ?_, fun hplain => ?_⟩
  · split at hread
    next path' entry heq =>
      obtain ⟨fs, hfs, hlist⟩ := Option.map_eq_some_iff.mp heq
      have hlist := (List.cons.inj hlist).2
      obtain rfl : fs = [entry] := (List.cons.inj hlist).2
      split_ifs at hread with hlead
      obtain ⟨tail, htail⟩ := List.isPrefixOf_iff_prefix.mp hlead
      have hentry : entry = "security.selinux=".toList ++ context := by
        have hdrop : entry.drop 17 = context := (Prod.mk.inj (Option.some.inj hread)).2
        rw [← hdrop, ← htail]
        rfl
      rw [hentry] at hfs
      exact fun c hc => plain_of_fields hfs c (List.mem_append_right _ hc)
    next => exact nomatch hread
  · have hentry : PlainContext ("security.selinux=".toList ++ context) := fun c hc =>
      (List.mem_append.mp hc).elim (hmark c) (hplain c)
    rw [fields_plain hentry]
    show (if "security.selinux=".toList.isPrefixOf ("security.selinux=".toList ++ context) then
      some (path, ("security.selinux=".toList ++ context).drop 17) else none) = _
    rw [if_pos <| List.isPrefixOf_iff_prefix.mpr (List.prefix_append _ _)]
    rfl

end Reader

/-! ## What a line adds -/

/-- The line that is written for what a line says. -/
def labelLine (said : Row) : List Text :=
  if Root said.path ∨ said.path.any isSpecial then []
  else [relative said.path ++ " x security.selinux=".toList ++ said.context]

/-- What a line adds to the output. -/
def Pseudo.add (pseudo : Pseudo) (said : Row) : Pseudo :=
  ⟨pseudo.lines ++ labelLine said, pseudo.written + (labelLine said).length,
    pseudo.skipped + if said.path.any isSpecial then 1 else 0⟩

section Line

variable {path context : Text}

theorem not_special_of_root (h : Root path) : path.any isSpecial = false := by
  rcases h with rfl | rfl | h
  · decide
  · decide
  · rw [List.any_eq_false]
    intro c hc
    rw [h c hc]
    decide

theorem relative_eq_nil : relative path = [] ↔ ∀ c ∈ path, c = '/' := by
  unfold relative
  rw [List.dropWhile_eq_nil_iff]
  exact forall₂_congr fun c _ => decide_eq_true_iff

/-- The body of the loop, by what the line says. -/
theorem writeLine_eq (pseudo : Pseudo) (line : Text) :
    writeLine pseudo line = (answer line).elim pseudo pseudo.add := by
  unfold writeLine answer
  rcases hcut : PyText.partition '\t' line with ⟨path, _ | _ | ⟨c, cs⟩⟩
  · exact if_pos (.inr (.inr rfl))
  · exact if_pos (.inr (.inr rfl))
  · show _ = pseudo.add ⟨path, c :: cs⟩
    unfold Pseudo.add labelLine
    dsimp only [Option.getD_some]
    by_cases hguard : path = [] ∨ path ∈ [".".toList, "/".toList, "/.".toList] ∨ c :: cs = []
    · have hroot : Root path := by
        rcases hguard with rfl | hmem | hnil
        · exact .inr (.inr fun c hc => nomatch hc)
        · rcases List.mem_cons.mp hmem with rfl | hmem
          · exact .inl rfl
          · rcases List.mem_cons.mp hmem with rfl | hmem
            · exact .inr (.inr fun c hc => List.mem_singleton.mp hc)
            · exact .inr (.inl (List.mem_singleton.mp hmem))
        · exact absurd hnil (List.cons_ne_nil c cs)
      rw [if_pos hguard, if_pos (.inl hroot), not_special_of_root hroot]
      simp
    · rw [if_neg hguard]
      by_cases hchars : path.any isSpecial = true
      · rw [if_pos hchars, if_pos (.inr hchars), if_pos hchars]
        simp
      · rw [if_neg hchars, if_neg hchars]
        by_cases hslashes : relative path = []
        · rw [if_pos (show path.dropWhile (· = '/') = [] from hslashes),
            if_pos (.inl (.inr (.inr (relative_eq_nil.mp hslashes))))]
          simp
        · have hroot : ¬ Root path := by
            rintro (rfl | rfl | hall)
            · exact hguard (.inr (.inl (by decide)))
            · exact hguard (.inr (.inl (by decide)))
            · exact hslashes (relative_eq_nil.mpr hall)
          rw [if_neg (show path.dropWhile (· = '/') ≠ [] from hslashes),
            if_neg (not_or.mpr ⟨hroot, hchars⟩)]
          rfl

/-- A run over lines adds what they say. -/
theorem foldl_writeLine (lines : List Text) (pseudo : Pseudo) :
    lines.foldl writeLine pseudo = ⟨pseudo.lines ++ (lines.filterMap answer).flatMap labelLine,
      pseudo.written + ((lines.filterMap answer).flatMap labelLine).length,
      pseudo.skipped + (lines.filterMap answer).countP (·.path.any isSpecial)⟩ := by
  induction lines generalizing pseudo with
  | nil =>
    rw [List.foldl_nil, List.filterMap_nil, List.flatMap_nil, List.append_nil]
    rfl
  | cons line lines ih =>
    rw [List.foldl_cons, ih, writeLine_eq]
    cases hsaid : answer line with
    | none =>
      rw [List.filterMap_cons_none hsaid]
      rfl
    | some said =>
      rw [List.filterMap_cons_some hsaid, List.flatMap_cons, List.countP_cons, List.length_append]
      unfold Pseudo.add
      dsimp only [Option.elim_some]
      rw [List.append_assoc, Nat.add_assoc, Nat.add_assoc, Nat.add_comm (List.countP _ _)]

end Line

/-! ## What a row adds -/

section Rows

variable {row : Row} {rows : List Row}

/-- The output is read in the lines of the rows. -/
theorem textLines_lookupText (h : ∀ row ∈ rows, Printed row) :
    textLines (lookupText rows) = rows.flatMap rowLines := by
  induction rows with
  | nil => rfl
  | cons row rows ih =>
    obtain ⟨hrow, hrows⟩ := List.forall_mem_cons.mp h
    have htext : '\n' ∉ row.path ++ '\t' :: row.context := by
      intro hmem
      rcases List.mem_append.mp hmem with hpath | hcontext
      · exact hrow.path hpath
      · rcases List.mem_cons.mp hcontext with he | hcontext
        · exact absurd he (by decide)
        · exact (hrow.context _ hcontext).2.1 rfl
    have hend : (row.path ++ '\t' :: row.context).getLast? ≠ some '\r' := by
      intro he
      rw [List.getLast?_append_cons] at he
      have hmem := List.mem_of_getLast? he
      rcases List.mem_cons.mp hmem with hc | hcontext
      · exact absurd hc (by decide)
      · exact (hrow.context _ hcontext).2.2 rfl
    have hcons : lookupText (row :: rows) =
        (row.path ++ '\t' :: row.context) ++ '\n' :: lookupText rows := by
      unfold lookupText rowText
      rw [List.flatMap_cons, List.append_assoc]
      rfl
    rw [hcons, textLines_append htext hend, ih hrows, List.flatMap_cons]
    rfl

/-- The output is what the rows add. -/
theorem output_eq (h : ∀ row ∈ rows, Printed row) :
    (output rows).lines = rows.flatMap (fun row => (answers row).flatMap labelLine) ∧
    (output rows).skipped =
      (rows.map fun row => (answers row).countP (·.path.any isSpecial)).sum := by
  have hanswers : (rows.flatMap rowLines).filterMap answer = rows.flatMap answers := by
    rw [List.filterMap_flatMap]
    rfl
  unfold output writePseudo
  rw [textLines_lookupText h, foldl_writeLine, hanswers]
  refine ⟨?_, ?_⟩
  · show [] ++ _ = _
    rw [List.nil_append, List.flatMap_assoc]
  · show 0 + _ = _
    rw [Nat.zero_add, List.countP_flatMap]
    rfl

theorem answers_of_representable (hrow : Printed row) (h : Representable row.path) :
    answers row = if row.context = [] then [] else [row] := by
  have hreturn : '\r' ∉ row.path ++ '\t' :: row.context := by
    intro hmem
    rcases List.mem_append.mp hmem with hpath | hcontext
    · exact (h _ hpath).2 rfl
    · rcases List.mem_cons.mp hcontext with he | hcontext
      · exact absurd he (by decide)
      · exact (hrow.context _ hcontext).2.2 rfl
  have htab : '\t' ∉ row.path := fun hmem => absurd (h _ hmem).1 (by decide)
  unfold answers rowLines
  rw [splitOn_of_notMem hreturn]
  obtain ⟨path, context⟩ := row
  have hanswer : answer (path ++ '\t' :: context) =
      if context = [] then none else some ⟨path, context⟩ := by
    unfold answer
    rw [PyText.partition_append htab]
    cases context <;> rfl
  cases context with
  | nil => rw [List.filterMap_cons_none hanswer]; rfl
  | cons c cs => rw [List.filterMap_cons_some hanswer]; rfl

/-- What a row adds is right where the row is safe. -/
theorem labelled_iff (hrow : Printed row) :
    Labelled row ((answers row).flatMap labelLine)
        ((answers row).countP (·.path.any isSpecial)) ↔ Safe row := by
  by_cases hrep : Representable row.path
  · have hchars : row.path.any isSpecial = false := by
      rw [List.any_eq_false]
      intro c hc
      rw [(hrep c hc).1]
      decide
    have hpath : PlainContext (relative row.path) := by
      intro c hc
      have hsafe := (hrep c ((List.dropWhile_suffix _).mem hc)).1
      refine ⟨?_, ?_⟩ <;>
      · rintro rfl
        exact absurd hsafe (by decide)
    rw [answers_of_representable hrow hrep]
    refine ⟨fun h => ⟨fun _ => ?_, fun hnot => absurd hrep hnot⟩,
      fun h => ⟨fun line hline => ?_, fun hnot => absurd hrep hnot, fun _ => ?_⟩⟩
    · by_cases hroot : Root row.path
      · exact .inl hroot
      · refine .inr ?_
        by_cases hcontext : row.context = []
        · rw [hcontext]
          exact fun c hc => nomatch hc
        · refine (readPseudo_iff hpath).mp (h.named _ ?_)
          rw [if_neg hcontext, List.flatMap_singleton, labelLine,
            if_neg (not_or.mpr ⟨hroot, by rw [hchars]; decide⟩)]
          exact List.mem_singleton_self _
    · by_cases hcontext : row.context = []
      · rw [if_pos hcontext] at hline
        exact nomatch hline
      · rw [if_neg hcontext, List.flatMap_singleton, labelLine] at hline
        split_ifs at hline with hnone
        · exact nomatch hline
        · rw [List.mem_singleton.mp hline]
          exact (readPseudo_iff hpath).mpr
            ((h.plain hrep).resolve_left fun hroot => hnone (.inl hroot))
    · split_ifs
      · rfl
      · rw [List.countP_singleton, hchars]
        rfl
  · have hnone : (answers row).flatMap labelLine = [] ↔
        ∀ said ∈ answers row, said.path.any isSpecial = true ∨ Root said.path := by
      rw [List.flatMap_eq_nil_iff]
      refine forall₂_congr fun said _ => ?_
      unfold labelLine
      split_ifs with h
      · exact ⟨fun _ => h.symm, fun _ => rfl⟩
      · exact ⟨fun he => (nomatch he), fun he => absurd he.symm h⟩
    refine ⟨fun h => ⟨fun hrep' => absurd hrep' hrep, fun _ => ?_⟩,
      fun h => ⟨fun line hline => ?_, fun _ => ?_, fun hrep' => absurd hrep' hrep⟩⟩
    · exact ⟨(h.skipped hrep).2, hnone.mp (h.skipped hrep).1⟩
    · rw [hnone.mpr (h.once hrep).2] at hline
      exact nomatch hline
    · exact ⟨hnone.mpr (h.once hrep).2, (h.once hrep).1⟩

/-- The labels are right where every row is safe. -/
theorem labels_iff (h : ∀ row ∈ rows, Printed row) : Labels rows ↔ ∀ row ∈ rows, Safe row := by
  have hstep (before : List Row) (row : Row) (after : List Row)
      (heq : rows = before ++ row :: after) :
      (output (before ++ [row])).lines =
        (output before).lines ++ (answers row).flatMap labelLine ∧
      (output (before ++ [row])).skipped = (output before).skipped +
        (answers row).countP (·.path.any isSpecial) := by
    have hbefore : ∀ other ∈ before, Printed other := fun other hother =>
      h other (heq ▸ List.mem_append_left _ hother)
    have hall : ∀ other ∈ before ++ [row], Printed other := fun other hother =>
      (List.mem_append.mp hother).elim (hbefore other) fun hmem =>
        h other (heq ▸ List.mem_append_right _ (List.mem_singleton.mp hmem ▸ List.mem_cons_self))
    rw [(output_eq hall).1, (output_eq hall).2, (output_eq hbefore).1, (output_eq hbefore).2,
      List.flatMap_append, List.flatMap_singleton, List.map_append, List.sum_append,
      List.map_singleton, List.sum_singleton]
    exact ⟨rfl, rfl⟩
  refine ⟨fun hlabels row hrow => ?_, fun hsafe => ⟨fun line hline => ?_,
    fun before row after heq =>
    ?_⟩⟩
  · obtain ⟨before, after, heq⟩ := List.append_of_mem hrow
    obtain ⟨gained, counted, hlines, hskipped, hlabelled⟩ := hlabels.steps before row after heq
    obtain ⟨hlines', hskipped'⟩ := hstep before row after heq
    obtain rfl := List.append_cancel_left (hlines.symm.trans hlines')
    obtain rfl := Nat.add_left_cancel (hskipped.symm.trans hskipped')
    exact (labelled_iff (h row hrow)).mp hlabelled
  · rw [(output_eq h).1] at hline
    obtain ⟨row, hrow, hmem⟩ := List.mem_flatMap.mp hline
    have hlabelled := (labelled_iff (h row hrow)).mpr (hsafe row hrow)
    refine ⟨row, hrow, ?_, hlabelled.named line hmem⟩
    by_contra hrep
    rw [(hlabelled.skipped hrep).1] at hmem
    exact nomatch hmem
  · have hrow : row ∈ rows := heq ▸ List.mem_append_right _ List.mem_cons_self
    obtain ⟨hlines, hskipped⟩ := hstep before row after heq
    exact ⟨_, _, hlines, hskipped, (labelled_iff (h row hrow)).mpr (hsafe row hrow)⟩

end Rows

/-- The file of the accounts, and two files that no field can name. -/
def accountRows : List Row :=
  [⟨"/etc/passwd".toList, "system_u:object_r:passwd_file_t:s0".toList⟩,
    ⟨"/srv/a b".toList, "u:r:t:s0".toList⟩, ⟨"/srv/a\\b".toList, "u:r:t:s0".toList⟩]

/-- The one gets its label, and the others are skipped. -/
theorem labels_passwd : Labels accountRows ∧ (output accountRows).lines.length = 1 ∧
    (output accountRows).skipped = 2 := by
  have hprinted : ∀ row ∈ accountRows, Printed row :=
    List.forall_mem_cons.mpr ⟨⟨by decide, by simp⟩, List.forall_mem_cons.mpr
      ⟨⟨by decide, by simp⟩, List.forall_mem_singleton.mpr ⟨by decide, by simp⟩⟩⟩
  have hplain : ∀ row ∈ accountRows, PlainContext row.context :=
    List.forall_mem_cons.mpr ⟨by simp [PlainContext], List.forall_mem_cons.mpr
      ⟨by simp [PlainContext], List.forall_mem_singleton.mpr (by simp [PlainContext])⟩⟩
  have hsafe : ∀ row ∈ accountRows, Safe row := by
    intro row hrow
    refine ⟨fun _ => .inr (hplain row hrow), ?_⟩
    revert row
    refine List.forall_mem_cons.mpr ⟨fun hrep => absurd (fun c hc => ?_) hrep,
      List.forall_mem_cons.mpr ⟨fun _ => by decide, List.forall_mem_singleton.mpr
        fun _ => by decide⟩⟩
    revert c
    simp [isSpecial]
  exact ⟨(labels_iff hprinted).mpr hsafe, by decide, by decide⟩

/-- A name with a tab is cut at it: the line names another path, and has the rest of the name in
    its context. -/
theorem tab_mislabels : ¬ ∀ rows : List Row, (∀ row ∈ rows, Printed row) → Labels rows := by
  intro h
  have hlabels := h [⟨"/srv/a\tb".toList, "u:r:t:s0".toList⟩]
    (List.forall_mem_singleton.mpr ⟨by decide, by simp⟩)
  obtain ⟨row, hrow, hrep, _⟩ := hlabels.lines "srv/a x security.selinux=b\tu:r:t:s0".toList
    (by decide)
  rw [List.mem_singleton.mp hrow] at hrep
  exact absurd (hrep '\t' (by decide)).1 (by decide)

/-! ## The paths of an image -/

/-- The paths that are looked up are distinct, start with a slash, and are none of the root's
    names. -/
theorem imagePaths_spec (members : List Text) :
    (imagePaths members).Nodup ∧ ∀ path ∈ imagePaths members,
      path.head? = some '/' ∧ path ∉ ["/".toList, "/.".toList] := by
  have hhead (name : Text) : (memberPath name).head? = some '/' := by
    unfold memberPath
    split_ifs with hroot hdot hslash
    · rfl
    · obtain ⟨rest, rfl⟩ := List.isPrefixOf_iff_prefix.mp hdot
      rfl
    · obtain ⟨rest, rfl⟩ := List.isPrefixOf_iff_prefix.mp hslash
      rfl
    · rfl
  unfold imagePaths
  induction members using List.reverseRecOn with
  | nil => exact ⟨List.nodup_nil, fun path hpath => nomatch hpath⟩
  | append_singleton members member ih =>
    rw [List.foldl_append, List.foldl_cons, List.foldl_nil]
    dsimp only
    split_ifs with hnew
    · refine ⟨List.nodup_append.mpr ⟨ih.1, List.nodup_singleton _, fun path hpath other hother he =>
        ?_⟩, fun path hpath => ?_⟩
      · exact hnew.2 (List.mem_singleton.mp hother ▸ he ▸ hpath)
      · rcases List.mem_append.mp hpath with hold | hlast
        · exact ih.2 path hold
        · rw [List.mem_singleton.mp hlast]
          exact ⟨hhead member, hnew.1⟩
    · exact ih

end BuckosDistro.Squashfs
