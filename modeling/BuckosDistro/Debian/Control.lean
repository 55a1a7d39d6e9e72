/-
  Debian control paragraphs (`tools/_deb.py`, `parse_control` and
  `parse_control_paragraphs`), and how `register_debs` writes one.

  Texts are lists of characters. A field map that was parsed says no more than its lines do
  (`Parsed`), and its lines say it again (`controlLines_fieldLines`).
-/
import BuckosDistro.Lib.Dict
import BuckosDistro.Lib.Lines
import BuckosDistro.Lib.Raise

namespace BuckosDistro.Debian

open BuckosDistro.Lib Lines

abbrev Text := List Char

/-- The fields of a paragraph, in order. -/
abbrev Paragraph := Dict Text Text

/-! ## Parsing -/

def marker : Text := "-----BEGIN PGP SIGNED MESSAGE-----".toList

/-- A line of a signed payload, without its dash escape. -/
def payloadLine (line : Text) : Text :=
  if "- ".toList.isPrefixOf line then line.drop 2 else line

/-- `clear_signed_payload` -/
def clearSignedPayload (text : Text) : Except String Text :=
  if ¬ marker.isPrefixOf text then .ok text
  else
    let lines := splitlines text
    -- `lines.index` raises when there is no such line
    match lines.dropWhile fun line => line ≠ [] with
    | [] => .error "malformed clearsigned control file"
    | _ :: rest =>
      if "-----BEGIN PGP SIGNATURE-----".toList ∉ rest then
        .error "malformed clearsigned control file"
      else
        let payload := rest.takeWhile fun line => line ≠ "-----BEGIN PGP SIGNATURE-----".toList
        .ok (['\n'].intercalate (payload.map payloadLine) ++ ['\n'])

/-- The loop variables of `parse_control`. -/
structure Cursor where
  fields : Paragraph
  current : Option Text

/-- The body of the loop, for a line that is not empty. -/
def controlLine (cursor : Cursor) : Text → Except String Cursor
  | [] => .ok cursor
  | c :: cs =>
    if PyText.isSpace c then
      match cursor.current with
      | none => .error "control continuation without a field"
      | some name =>
        .ok ⟨cursor.fields.set name (cursor.fields.getD name [] ++ '\n' :: cs), some name⟩
    else
      match PyText.partition ':' (c :: cs) with
      | (_, none) =>
        .error ("malformed control line: " ++ PyText.repr (String.ofList (c :: cs)))
      | (head, some value) =>
        let name := PyText.strip head
        .ok ⟨cursor.fields.set name (PyText.lstrip value), some name⟩

/-- The loop of `parse_control`, which an empty line behind a field ends. -/
def controlLines (cursor : Cursor) : List Text → Except String Paragraph
  | [] => .ok cursor.fields
  | line :: lines =>
    if line = [] then
      if cursor.fields.items ≠ [] then .ok cursor.fields else controlLines cursor lines
    else do
      let cursor ← controlLine cursor line
      controlLines cursor lines

/-- `parse_control` -/
def parseControl (text : Text) : Except String Paragraph := do
  let payload ← clearSignedPayload text
  controlLines ⟨Dict.empty, none⟩ (splitlines payload)

/-- `parse_control("\n".join(current) + "\n")` -/
def parseLines (current : List Text) : Except String Paragraph :=
  parseControl (['\n'].intercalate current ++ ['\n'])

/-- The loop of `parse_control_paragraphs`. -/
def paragraphLines (current : List Text) : List Text → Except String (List Paragraph)
  | [] => if current ≠ [] then do return [← parseLines current] else .ok []
  | line :: lines =>
    if line ≠ [] then paragraphLines (current ++ [line]) lines
    else if current ≠ [] then do
      let paragraph ← parseLines current
      let paragraphs ← paragraphLines [] lines
      return paragraph :: paragraphs
    else paragraphLines [] lines

/-- `parse_control_paragraphs` -/
def parseControlParagraphs (text : Text) : Except String (List Paragraph) :=
  paragraphLines [] (splitlines text)

/-! ## Writing -/

/-- `value.replace("\n", "\n ")` -/
def indentLines (value : Text) : Text :=
  value.flatMap fun c => if c = '\n' then ['\n', ' '] else [c]

/-- `"{}: {}".format(name, value.replace("\n", "\n "))` -/
def formatField (field : Text × Text) : Text := field.1 ++ ": ".toList ++ indentLines field.2

/-- A paragraph as `register_debs` writes one. -/
def formatParagraph (paragraph : Paragraph) : Text :=
  ['\n'].intercalate (paragraph.items.map formatField) ++ ['\n']

/-- The text of paragraphs, an empty line behind each. -/
def formatParagraphs (paragraphs : List Paragraph) : Text :=
  paragraphs.flatMap fun paragraph => formatParagraph paragraph ++ ['\n']

/-! ## What a parsed paragraph is -/

/-- A name as it stands before the colon. -/
structure NameText (name : Text) : Prop where
  stripped : PyText.strip name = name
  noColon : ':' ∉ name
  unbroken : Unbroken name

/-- A value: lines behind a first one that starts with no blank. -/
structure ValueText (value : Text) : Prop where
  breaks : ∀ c ∈ value, isBreak c = true → c = '\n'
  start : ∀ c ∈ value.head?, PyText.isSpace c = true → c = '\n'

/-- Fields that lines can say. -/
structure Stated (paragraph : Paragraph) : Prop where
  nodup : paragraph.keys.Nodup
  names : ∀ field ∈ paragraph.items, NameText field.1
  values : ∀ field ∈ paragraph.items, ValueText field.2

/-- A paragraph that was parsed: it has a field, and its first name begins no signature. -/
structure Parsed (paragraph : Paragraph) : Prop extends Stated paragraph where
  first : ∃ name ∈ paragraph.keys.head?, ¬ marker <+: name

/-- The lines of a field. -/
def fieldLines (field : Text × Text) : List Text :=
  match field.2.splitOn '\n' with
  | [] => []
  | first :: rest => (field.1 ++ ": ".toList ++ first) :: rest.map fun line => ' ' :: line

/-- The lines of a paragraph. -/
def paragraphText (paragraph : Paragraph) : List Text := paragraph.items.flatMap fieldLines

/-! ## Lines of a field -/

section Written

theorem indentLines_splitOn (head value : Text) {first : Text} {rest : List Text}
    (h : value.splitOn '\n' = first :: rest) :
    head ++ indentLines value ++ ['\n'] =
      unlines ((head ++ first) :: rest.map fun line => ' ' :: line) := by
  induction value generalizing head first rest with
  | nil =>
    obtain ⟨rfl, rfl⟩ := List.cons.inj (h.symm.trans (List.splitOnP_nil ..))
    simp [indentLines, unlines]
  | cons c cs ih =>
    obtain ⟨first', rest', hcs⟩ := List.exists_cons_of_ne_nil (List.splitOnP_ne_nil (· == '\n') cs)
    unfold List.splitOn at h ih
    rw [List.splitOnP_cons_eq_if_modifyHead, hcs] at h
    by_cases hc : c = '\n'
    · rw [if_pos (beq_iff_eq.mpr hc)] at h
      obtain ⟨rfl, rfl⟩ := List.cons.inj h
      have hrest : ' ' :: indentLines cs ++ ['\n'] =
          unlines ((' ' :: first') :: rest'.map fun line => ' ' :: line) := ih [' '] hcs
      have hindent : indentLines (c :: cs) = '\n' :: ' ' :: indentLines cs := by
        unfold indentLines
        rw [List.flatMap_cons, if_pos hc]
        rfl
      rw [hindent, List.append_nil]
      show head ++ '\n' :: ' ' :: indentLines cs ++ ['\n'] =
        (head ++ ['\n']) ++ unlines ((' ' :: first') :: rest'.map fun line => ' ' :: line)
      rw [← hrest]
      simp
    · rw [if_neg (by simpa using hc), List.modifyHead_cons] at h
      obtain ⟨rfl, rfl⟩ := List.cons.inj h
      have hrest := ih (head ++ [c]) hcs
      have hindent : indentLines (c :: cs) = c :: indentLines cs := by
        unfold indentLines
        rw [List.flatMap_cons, if_neg hc]
        rfl
      rw [hindent]
      simpa using hrest

theorem formatField_lines (field : Text × Text) :
    formatField field ++ ['\n'] = unlines (fieldLines field) := by
  obtain ⟨first, rest, hvalue⟩ :=
    List.exists_cons_of_ne_nil (List.splitOnP_ne_nil (· == '\n') field.2)
  unfold formatField fieldLines
  rw [show field.2.splitOn '\n' = first :: rest from hvalue]
  exact indentLines_splitOn _ _ hvalue

theorem formatParagraph_lines {paragraph : Paragraph} (h : paragraph.items ≠ []) :
    formatParagraph paragraph = unlines (paragraphText paragraph) := by
  have hne : paragraph.items.map formatField ≠ [] := by
    rwa [ne_eq, List.map_eq_nil_iff]
  unfold formatParagraph paragraphText
  rw [unlines_eq_intercalate hne]
  unfold unlines
  rw [List.flatMap_map, List.flatMap_assoc]
  exact List.flatMap_congr fun field _ => formatField_lines field

end Written

/-! ## A field read back -/

section Read

variable {fields : Paragraph} {name : Text}

/-- The continuation lines of a field add to its value. -/
theorem controlLines_continuation (fields : Paragraph) (name value : Text)
    (rest later : List Text) :
    controlLines ⟨fields.set name value, some name⟩
        ((rest.map fun line => ' ' :: line) ++ later) =
      controlLines ⟨fields.set name (value ++ rest.flatMap fun line => '\n' :: line), some name⟩
        later := by
  induction rest generalizing value with
  | nil => rw [List.map_nil, List.nil_append, List.flatMap_nil, List.append_nil]
  | cons line rest ih =>
    have hline : controlLine ⟨fields.set name value, some name⟩ (' ' :: line) =
        .ok ⟨fields.set name (value ++ '\n' :: line), some name⟩ := by
      rw [controlLine, if_pos (by decide)]
      dsimp only
      rw [Dict.getD_set_self, Dict.set_set]
    rw [List.map_cons, List.cons_append, controlLines, if_neg (List.cons_ne_nil _ _), hline]
    show controlLines _ _ = _
    rw [ih, List.flatMap_cons, List.append_assoc]

theorem splitOn_value {value first : Text} {rest : List Text}
    (h : value.splitOn '\n' = first :: rest) :
    value = first ++ rest.flatMap fun line => '\n' :: line := by
  have hjoin := @List.intercalate_splitOn _ value _ _ '\n'
  rw [h] at hjoin
  rw [← hjoin]
  clear hjoin h
  induction rest generalizing first with
  | nil => rw [List.intercalate_singleton, List.flatMap_nil, List.append_nil]
  | cons next rest ih =>
    rw [List.intercalate_cons_cons, ih, List.flatMap_cons]
    simp

/-- The lines of a field set it. -/
theorem controlLines_fieldLines {value : Text} (hname : NameText name) (hvalue : ValueText value)
    (fields : Paragraph) (current : Option Text) (later : List Text) :
    controlLines ⟨fields, current⟩ (fieldLines (name, value) ++ later) =
      controlLines ⟨fields.set name value, some name⟩ later := by
  obtain ⟨first, rest, hsplit⟩ :=
    List.exists_cons_of_ne_nil (List.splitOnP_ne_nil (· == '\n') value)
  have hlines : fieldLines (name, value) =
      (name ++ ": ".toList ++ first) :: rest.map fun line => ' ' :: line := by
    unfold fieldLines
    rw [show value.splitOn '\n' = first :: rest from hsplit]
  have hwhole := splitOn_value hsplit
  -- the first line starts with no blank, and what is behind the colon is stripped to it
  have hfirst : PyText.lstrip (' ' :: first) = first := by
    have hblank : PyText.lstrip (' ' :: first) = PyText.lstrip first :=
      List.dropWhile_cons_of_pos (by decide)
    rw [hblank]
    unfold PyText.lstrip
    cases first with
    | nil => rfl
    | cons c cs =>
      refine List.dropWhile_cons_of_neg fun hspace => ?_
      have hnewline : c = '\n' := hvalue.start c (by rw [hwhole]; rfl) hspace
      have hmem : c :: cs ∈ value.splitOn '\n' := by
        rw [show value.splitOn '\n' = _ from hsplit]
        exact List.mem_cons_self
      exact PyText.notMem_of_mem_splitOn hmem (hnewline ▸ List.mem_cons_self)
  have hpartition : PyText.partition ':' (name ++ ": ".toList ++ first) =
      (name, some (' ' :: first)) := by
    rw [List.append_assoc]
    exact PyText.partition_append hname.noColon (' ' :: first)
  have hline : controlLine ⟨fields, current⟩ (name ++ ": ".toList ++ first) =
      .ok ⟨fields.set name first, some name⟩ := by
    cases hwritten : name ++ ": ".toList ++ first with
    | nil => simp at hwritten
    | cons c cs =>
      have hc : PyText.isSpace c = false := by
        cases name with
        | nil =>
          obtain ⟨rfl, _⟩ := List.cons.inj hwritten
          decide
        | cons n ns =>
          obtain ⟨rfl, _⟩ := List.cons.inj hwritten
          have hends := (PyText.strip_ends (n :: ns)).1
          rw [hname.stripped] at hends
          exact hends n rfl
      rw [controlLine, if_neg (by rw [hc]; decide), ← hwritten, hpartition]
      dsimp only
      rw [hname.stripped, hfirst]
  have hne : name ++ ": ".toList ++ first ≠ [] := by simp
  rw [hlines, List.cons_append, controlLines, if_neg hne, hline]
  show controlLines _ _ = _
  rw [controlLines_continuation, ← hwhole]

/-- The lines of fields with names of their own set them, one after another. -/
theorem controlLines_written {items : List (Text × Text)}
    (h : (fields.keys ++ items.map Prod.fst).Nodup) (hnames : ∀ field ∈ items, NameText field.1)
    (hvalues : ∀ field ∈ items, ValueText field.2) (current : Option Text) :
    controlLines ⟨fields, current⟩ (items.flatMap fieldLines) = .ok ⟨fields.items ++ items⟩ := by
  induction items generalizing fields current with
  | nil =>
    rw [List.flatMap_nil, List.append_nil]
    rfl
  | cons field items ih =>
    obtain ⟨name, value⟩ := field
    obtain ⟨hname, hnames⟩ := List.forall_mem_cons.mp hnames
    obtain ⟨hvalue, hvalues⟩ := List.forall_mem_cons.mp hvalues
    have hnew : name ∉ fields.keys := fun hmem =>
      (List.nodup_append.mp h).2.2 name hmem name List.mem_cons_self rfl
    have hset : fields.set name value = ⟨fields.items ++ [(name, value)]⟩ := if_neg hnew
    have hkeys : ((fields.set name value).keys ++ items.map Prod.fst).Nodup := by
      rw [Dict.keys_set, if_neg hnew, List.append_assoc]
      exact h
    rw [List.flatMap_cons, controlLines_fieldLines hname hvalue, ih hkeys hnames hvalues, hset,
      List.append_assoc]
    rfl

end Read

/-! ## What the lines of a paragraph say -/

section Said

variable {cursor : Cursor} {line : Text} {lines : List Text}

/-- What a line says: more of the field in hand, or a field of its own. -/
inductive Says (cursor : Cursor) : Text → Text → Text → Prop where
  | continuation {name : Text} {c : Char} {cs : Text} (hname : cursor.current = some name) :
      Says cursor (c :: cs) name (cursor.fields.getD name [] ++ '\n' :: cs)
  | field {head value : Text} (hcolon : ':' ∉ head)
      (hblank : ∀ c ∈ head.head?, PyText.isSpace c = false) :
      Says cursor (head ++ ':' :: value) (PyText.strip head) (PyText.lstrip value)

theorem controlLine_cases {cursor' : Cursor} (hne : line ≠ [])
    (h : controlLine cursor line = .ok cursor') :
    ∃ name value, Says cursor line name value ∧
      cursor' = ⟨cursor.fields.set name value, some name⟩ := by
  obtain ⟨c, cs, rfl⟩ := List.exists_cons_of_ne_nil hne
  rw [controlLine] at h
  split_ifs at h with hspace
  · split at h
    · cases h
    · next name hname => exact ⟨name, _, .continuation hname, (Except.ok.inj h).symm⟩
  · split at h
    · cases h
    · next head value hpartition =>
      have hcut : c :: cs = head ++ ':' :: value := by
        have hwhole := @PyText.eq_append_of_partition ':' (c :: cs) value (by rw [hpartition])
        rwa [hpartition] at hwhole
      have hcolon : ':' ∉ head := by
        have hfst := PyText.partition_fst ':' (c :: cs)
        rwa [hpartition] at hfst
      have hblank : ∀ d ∈ head.head?, PyText.isSpace d = false := by
        intro d hd
        cases head with
        | nil => cases hd
        | cons e es =>
          obtain rfl : e = d := Option.some.inj hd
          rw [← (List.cons.inj hcut).1]
          exact Bool.not_eq_true _ ▸ hspace
      have hsays : Says cursor (head ++ ':' :: value) (PyText.strip head) (PyText.lstrip value) :=
        .field hcolon hblank
      rw [← hcut] at hsays
      exact ⟨_, _, hsays, (Except.ok.inj h).symm⟩

/-- What the loop keeps: the fields so far are what lines can say, and the field in hand is one
    of them. -/
structure Reading (cursor : Cursor) : Prop where
  stated : Stated cursor.fields
  current : ∀ name ∈ cursor.current, name ∈ cursor.fields.keys

theorem Stated.set {fields : Paragraph} {name value : Text} (h : Stated fields)
    (hname : NameText name) (hvalue : ValueText value) : Stated (fields.set name value) := by
  refine ⟨Dict.nodup_keys_set h.nodup name value, fun field hfield => ?_, fun field hfield => ?_⟩
  all_goals obtain rfl | hfield := Dict.mem_items_set hfield
  · exact hname
  · exact h.names field hfield
  · exact hvalue
  · exact h.values field hfield

theorem valueText_continuation {value line : Text} (h : ValueText value) (hline : Unbroken line) :
    ValueText (value ++ '\n' :: line) := by
  refine ⟨fun c hc hbreak => ?_, fun c hc hspace => ?_⟩
  · obtain hc | hc := List.mem_append.mp hc
    · exact h.breaks c hc hbreak
    · obtain rfl | hc := List.mem_cons.mp hc
      · rfl
      · exact absurd hbreak (by rw [hline c hc]; decide)
  · cases value with
    | nil => exact (Option.some.inj hc).symm
    | cons d ds => exact h.start c hc hspace

theorem valueText_lstrip {value : Text} (h : Unbroken value) : ValueText (PyText.lstrip value) := by
  refine ⟨fun c hc hbreak => ?_, fun c hc hspace => ?_⟩
  · have hmem := (List.dropWhile_sublist PyText.isSpace).subset hc
    exact absurd hbreak (by rw [h c hmem]; decide)
  · have hhead := List.head?_dropWhile_not PyText.isSpace value
    unfold PyText.lstrip at hc
    rw [hc] at hhead
    have hblank : PyText.isSpace c = false := hhead
    rw [hspace] at hblank
    cases hblank

/-- A name is a part of its line, from the start of it. -/
theorem strip_begins {head : Text} (h : ∀ c ∈ head.head?, PyText.isSpace c = false) :
    PyText.strip head <+: head := by
  obtain ⟨before, after, hhead, hbefore, _⟩ := PyText.exists_strip head
  cases before with
  | nil => exact ⟨after, hhead.symm⟩
  | cons c cs =>
    have hblank := h c (by rw [hhead]; rfl)
    rw [hbefore c List.mem_cons_self] at hblank
    cases hblank

theorem Says.texts {name value : Text} (h : Says cursor line name value) (hreading : Reading cursor)
    (hunbroken : Unbroken line) : NameText name ∧ ValueText value := by
  cases h with
  | continuation hname =>
    have hmem : name ∈ cursor.fields.keys := hreading.current name hname
    obtain ⟨value, hvalue⟩ := Option.isSome_iff_exists.mp (Dict.mem_keys_iff.mp hmem)
    have hfield := Dict.mem_items_of_get? hvalue
    rw [Dict.getD_eq_of_get? [] hvalue]
    exact ⟨hreading.stated.names _ hfield, valueText_continuation
      (hreading.stated.values _ hfield) (List.forall_mem_cons.mp hunbroken).2⟩
  | @field head value hcolon _ =>
    obtain ⟨hhead, hvalue⟩ := List.forall_mem_append.mp hunbroken
    have hsub := PyText.strip_sublist head
    exact ⟨⟨PyText.strip_strip head, PyText.notMem_strip hcolon,
      fun d hd => hhead d (hsub.subset hd)⟩, valueText_lstrip (List.forall_mem_cons.mp hvalue).2⟩

theorem mem_keys_set (fields : Paragraph) (name value : Text) :
    name ∈ (fields.set name value).keys := by
  rw [Dict.mem_keys_iff, Dict.get?_set, if_pos rfl]
  rfl

theorem Reading.step {cursor' : Cursor} (h : Reading cursor) (hne : line ≠ [])
    (hunbroken : Unbroken line) (hstep : controlLine cursor line = .ok cursor') :
    Reading cursor' := by
  obtain ⟨name, value, hsays, rfl⟩ := controlLine_cases hne hstep
  obtain ⟨hname, hvalue⟩ := hsays.texts h hunbroken
  refine ⟨h.stated.set hname hvalue, fun other hother => ?_⟩
  obtain rfl := Option.some.inj hother
  exact mem_keys_set _ _ _

/-- The first name is a part of the first line. -/
theorem first_name {cursor' : Cursor} (h : Reading cursor) (hne : line ≠ [])
    (hstep : controlLine cursor line = .ok cursor') :
    cursor'.fields.keys ≠ [] ∧ ∀ first ∈ cursor'.fields.keys.head?,
      first ∈ cursor.fields.keys.head? ∨ first <+: line := by
  obtain ⟨name, value, hsays, rfl⟩ := controlLine_cases hne hstep
  refine ⟨List.ne_nil_of_mem (mem_keys_set _ _ _), fun first hfirst => ?_⟩
  dsimp only at hfirst
  rw [Dict.keys_set] at hfirst
  split_ifs at hfirst with hmem
  · exact Or.inl hfirst
  · cases hkeys : cursor.fields.keys with
    | cons k ks =>
      rw [hkeys] at hfirst
      exact Or.inl hfirst
    | nil =>
      rw [hkeys] at hfirst
      obtain rfl : name = first := Option.some.inj hfirst
      cases hsays with
      | continuation hname =>
        exact absurd (h.current name hname) hmem
      | field _ hblank =>
        exact Or.inr ((strip_begins hblank).trans (List.prefix_append _ _))

theorem Reading.run {paragraph : Paragraph} (h : Reading cursor)
    (hunbroken : ∀ line ∈ lines, Unbroken line)
    (hrun : controlLines cursor lines = .ok paragraph) :
    Stated paragraph ∧ (cursor.fields.keys ≠ [] →
      paragraph.keys.head? = cursor.fields.keys.head?) := by
  induction lines generalizing cursor with
  | nil =>
    rw [← Except.ok.inj hrun]
    exact ⟨h.stated, fun _ => rfl⟩
  | cons line lines ih =>
    obtain ⟨hline, hlines⟩ := List.forall_mem_cons.mp hunbroken
    rw [controlLines] at hrun
    split_ifs at hrun with hempty hnone
    · rw [← Except.ok.inj hrun]
      exact ⟨h.stated, fun _ => rfl⟩
    · exact ih h hlines hrun
    · obtain ⟨cursor', hstep, hrest⟩ := Raise.bind_ok.mp hrun
      obtain ⟨hstated, hhead⟩ := ih (h.step hempty hline hstep) hlines hrest
      refine ⟨hstated, fun hkeys => ?_⟩
      obtain ⟨name, value, _, rfl⟩ := controlLine_cases hempty hstep
      rw [hhead (List.ne_nil_of_mem (mem_keys_set _ _ _)), Dict.keys_set]
      split_ifs
      · rfl
      · exact List.head?_append_of_ne_nil _ hkeys

theorem reading_start : Reading ⟨Dict.empty, none⟩ :=
  ⟨⟨List.nodup_nil, fun _ hf => (nomatch hf), fun _ hf => (nomatch hf)⟩,
    fun _ hf => (nomatch hf)⟩

/-- Whatever `parse_control` returns is what lines can say. -/
theorem stated_of_parseControl {text : Text} {paragraph : Paragraph}
    (h : parseControl text = .ok paragraph) : Stated paragraph := by
  obtain ⟨payload, _, hlines⟩ := Raise.bind_ok.mp h
  exact (reading_start.run (fun _ => unbroken_of_mem_splitlines) hlines).1

/-- Lines of one paragraph: there is one, none is empty, and they are lines. -/
structure ParagraphLines (lines : List Text) : Prop where
  some_line : lines ≠ []
  nonempty : ∀ line ∈ lines, line ≠ []
  unbroken : ∀ line ∈ lines, Unbroken line

/-- Where no line begins a signature, a paragraph is read from its lines. -/
theorem parseLines_eq (h : ParagraphLines lines) (hmarker : ¬ marker <+: unlines lines) :
    parseLines lines = controlLines ⟨Dict.empty, none⟩ lines := by
  have hbegins : ¬ marker.isPrefixOf (unlines lines) = true :=
    fun he => hmarker <| List.isPrefixOf_iff_prefix.mp he
  unfold parseLines parseControl clearSignedPayload
  rw [unlines_eq_intercalate h.some_line, if_pos hbegins]
  show controlLines _ (splitlines (unlines lines)) = _
  rw [splitlines_unlines h.unbroken]

/-- A signature in a paragraph has no empty line behind it. -/
theorem not_marker_of_parseLines {paragraph : Paragraph} (h : ParagraphLines lines)
    (hparse : parseLines lines = .ok paragraph) : ¬ marker <+: unlines lines := by
  intro hmarker
  have hnone : (lines.dropWhile fun line => line ≠ []) = [] :=
    List.dropWhile_eq_nil_iff.mpr fun line hline => decide_eq_true (h.nonempty line hline)
  have hsigned : clearSignedPayload (unlines lines) =
      .error "malformed clearsigned control file" := by
    unfold clearSignedPayload
    rw [if_neg <| not_not.mpr <| List.isPrefixOf_iff_prefix.mpr hmarker]
    dsimp only
    rw [splitlines_unlines h.unbroken, hnone]
  unfold parseLines parseControl at hparse
  rw [unlines_eq_intercalate h.some_line, hsigned] at hparse
  cases hparse

theorem parsed_of_parseLines {paragraph : Paragraph} (h : ParagraphLines lines)
    (hparse : parseLines lines = .ok paragraph) : Parsed paragraph := by
  have hmarker := not_marker_of_parseLines h hparse
  rw [parseLines_eq h hmarker] at hparse
  obtain ⟨line, later, rfl⟩ := List.exists_cons_of_ne_nil h.some_line
  obtain ⟨hline, hlater⟩ := List.forall_mem_cons.mp h.unbroken
  have hne := h.nonempty line List.mem_cons_self
  have hfirst : ¬ marker <+: line := by
    intro hbegins
    apply hmarker
    unfold unlines
    rw [List.flatMap_cons, List.append_assoc]
    exact hbegins.trans (List.prefix_append line _)
  rw [controlLines, if_neg hne] at hparse
  obtain ⟨cursor, hstep, hrest⟩ := Raise.bind_ok.mp hparse
  obtain ⟨hkeys, hname⟩ := first_name reading_start hne hstep
  obtain ⟨hstated, hhead⟩ := (reading_start.step hne hline hstep).run hlater hrest
  obtain ⟨name, others, hcons⟩ := List.exists_cons_of_ne_nil hkeys
  have hmem : name ∈ cursor.fields.keys.head? := by
    rw [hcons]
    rfl
  refine ⟨hstated, name, by rw [hhead hkeys]; exact hmem, fun hbegins => ?_⟩
  obtain hnone | hline := hname name hmem
  · cases hnone
  · exact hfirst (hbegins.trans hline)

end Said

/-! ## What is written is read back -/

section Back

variable {paragraph : Paragraph}

/-- The lines of a value have no breaks of their own. -/
theorem unbroken_of_splitOn {value part : Text} (h : ValueText value)
    (hpart : part ∈ value.splitOn '\n') : Unbroken part := by
  obtain ⟨first, rest, hsplit⟩ :=
    List.exists_cons_of_ne_nil (List.splitOnP_ne_nil (· == '\n') value)
  have hwhole := splitOn_value hsplit
  intro c hc
  by_contra hbreak
  have hmem : c ∈ value := by
    have hsplit' : value.splitOn '\n' = first :: rest := hsplit
    rw [hsplit'] at hpart
    rw [hwhole]
    obtain rfl | hpart := List.mem_cons.mp hpart
    · exact List.mem_append_left _ hc
    · exact List.mem_append_right _ (List.mem_flatMap.mpr ⟨part, hpart, List.mem_cons_of_mem _ hc⟩)
  have hnewline := h.breaks c hmem (Bool.not_eq_false _ ▸ hbreak)
  exact PyText.notMem_of_mem_splitOn hpart (hnewline ▸ hc)

theorem fieldLines_eq (name value : Text) : ∃ first rest, value.splitOn '\n' = first :: rest ∧
    fieldLines (name, value) =
      (name ++ ": ".toList ++ first) :: rest.map fun line => ' ' :: line := by
  obtain ⟨first, rest, hsplit⟩ :=
    List.exists_cons_of_ne_nil (List.splitOnP_ne_nil (· == '\n') value)
  refine ⟨first, rest, hsplit, ?_⟩
  unfold fieldLines
  rw [show value.splitOn '\n' = first :: rest from hsplit]

theorem fieldLines_lines {name value : Text} (hname : NameText name) (hvalue : ValueText value) :
    ∀ line ∈ fieldLines (name, value), line ≠ [] ∧ Unbroken line := by
  obtain ⟨first, rest, hsplit, hlines⟩ := fieldLines_eq name value
  have hpart : ∀ part ∈ first :: rest, Unbroken part := by
    intro part hpart
    apply unbroken_of_splitOn hvalue
    rw [hsplit]
    exact hpart
  obtain ⟨hfirst, hrest⟩ := List.forall_mem_cons.mp hpart
  have hcolon : Unbroken ": ".toList := by
    intro c hc
    obtain rfl | hc := List.mem_cons.mp hc
    · decide
    · rw [List.mem_singleton.mp hc]
      decide
  rw [hlines]
  refine List.forall_mem_cons.mpr ⟨⟨by simp, ?_⟩, fun line hline => ?_⟩
  · exact List.forall_mem_append.mpr
      ⟨List.forall_mem_append.mpr ⟨hname.unbroken, hcolon⟩, hfirst⟩
  · obtain ⟨part, hmem, rfl⟩ := List.mem_map.mp hline
    exact ⟨List.cons_ne_nil _ _, List.forall_mem_cons.mpr ⟨by decide, hrest part hmem⟩⟩

theorem Parsed.items_ne_nil (h : Parsed paragraph) : paragraph.items ≠ [] := by
  obtain ⟨name, hname, _⟩ := h.first
  intro hitems
  unfold Dict.keys at hname
  rw [hitems] at hname
  cases hname

theorem Parsed.lines (h : Parsed paragraph) : ParagraphLines (paragraphText paragraph) := by
  have hall : ∀ line ∈ paragraphText paragraph, line ≠ [] ∧ Unbroken line := by
    intro line hline
    obtain ⟨field, hfield, hmem⟩ := List.mem_flatMap.mp hline
    exact fieldLines_lines (h.names field hfield) (h.values field hfield) line hmem
  refine ⟨?_, fun line hline => (hall line hline).1, fun line hline => (hall line hline).2⟩
  obtain ⟨⟨name, value⟩, later, hitems⟩ := List.exists_cons_of_ne_nil h.items_ne_nil
  obtain ⟨first, rest, _, hlines⟩ := fieldLines_eq name value
  unfold paragraphText
  rw [hitems, List.flatMap_cons, hlines]
  exact List.cons_ne_nil _ _

/-- What begins a text before a character it does not hold begins what stands before it. -/
theorem prefix_of_notMem {word head rest : Text} {c : Char} (hc : c ∉ word)
    (h : word <+: head ++ c :: rest) : word <+: head := by
  have hcut : head ++ [c] <+: head ++ c :: rest := ⟨rest, List.append_assoc head [c] rest⟩
  obtain hshort | hlong := List.prefix_or_prefix_of_prefix h hcut
  · obtain rfl | hshort := List.prefix_concat_iff.mp hshort
    · exact absurd (List.mem_append_right _ (List.mem_singleton.mpr rfl)) hc
    · exact hshort
  · exact absurd (hlong.subset (List.mem_append_right _ (List.mem_singleton.mpr rfl))) hc

theorem Parsed.not_marker (h : Parsed paragraph) :
    ¬ marker <+: unlines (paragraphText paragraph) := by
  obtain ⟨first, hfirst, hmarker⟩ := h.first
  obtain ⟨⟨name, value⟩, later, hitems⟩ := List.exists_cons_of_ne_nil h.items_ne_nil
  unfold Dict.keys at hfirst
  rw [hitems] at hfirst
  obtain rfl : name = first := Option.some.inj hfirst
  obtain ⟨line, rest, _, hlines⟩ := fieldLines_eq name value
  intro hbegins
  apply hmarker
  unfold paragraphText unlines at hbegins
  rw [hitems, List.flatMap_cons, hlines] at hbegins
  rw [List.cons_append, List.flatMap_cons, List.append_assoc, List.append_assoc,
    List.append_assoc] at hbegins
  exact prefix_of_notMem (by decide) hbegins

theorem Parsed.parseLines (h : Parsed paragraph) :
    parseLines (paragraphText paragraph) = .ok paragraph := by
  rw [parseLines_eq h.lines h.not_marker]
  have hnodup : ((Dict.empty : Paragraph).keys ++ paragraph.items.map Prod.fst).Nodup := h.nodup
  exact controlLines_written hnodup h.names h.values none

/-- A paragraph, its lines and an empty one. -/
theorem paragraphLines_group {lines later : List Text} (h : ∀ line ∈ lines, line ≠ [])
    (hne : lines ≠ []) : paragraphLines [] (lines ++ [] :: later) = (do
      let paragraph ← Debian.parseLines lines
      let paragraphs ← paragraphLines [] later
      return paragraph :: paragraphs) := by
  have hgather : ∀ (current : List Text) (lines : List Text), (∀ line ∈ lines, line ≠ []) →
      paragraphLines current (lines ++ [] :: later) =
        paragraphLines (current ++ lines) ([] :: later) := by
    intro current lines
    induction lines generalizing current with
    | nil => intro _; rw [List.append_nil, List.nil_append]
    | cons line lines ih =>
      intro hlines
      obtain ⟨hline, hlines⟩ := List.forall_mem_cons.mp hlines
      rw [List.cons_append, paragraphLines, if_pos hline, ih _ hlines, List.append_assoc]
      rfl
  rw [hgather [] lines h, List.nil_append, paragraphLines, if_neg (not_not.mpr rfl), if_pos hne]

/-- Written paragraphs are read back. -/
theorem parse_formatParagraphs {paragraphs : List Paragraph}
    (h : ∀ paragraph ∈ paragraphs, Parsed paragraph) :
    parseControlParagraphs (formatParagraphs paragraphs) = .ok paragraphs := by
  have htext : formatParagraphs paragraphs =
      unlines (paragraphs.flatMap fun paragraph => paragraphText paragraph ++ [[]]) := by
    unfold formatParagraphs
    unfold unlines
    rw [List.flatMap_assoc]
    refine List.flatMap_congr fun paragraph hparagraph => ?_
    rw [formatParagraph_lines (h paragraph hparagraph).items_ne_nil, List.flatMap_append]
    rfl
  have hunbroken : ∀ line ∈ paragraphs.flatMap fun paragraph => paragraphText paragraph ++ [[]],
      Unbroken line := by
    intro line hline
    obtain ⟨paragraph, hparagraph, hmem⟩ := List.mem_flatMap.mp hline
    obtain hmem | hmem := List.mem_append.mp hmem
    · exact (h paragraph hparagraph).lines.unbroken line hmem
    · rw [List.mem_singleton.mp hmem]
      exact fun _ hc => nomatch hc
  unfold parseControlParagraphs
  rw [htext, splitlines_unlines hunbroken]
  clear htext hunbroken
  induction paragraphs with
  | nil => rfl
  | cons paragraph paragraphs ih =>
    obtain ⟨hparagraph, hparagraphs⟩ := List.forall_mem_cons.mp h
    have hlines := hparagraph.lines
    rw [List.flatMap_cons, List.append_assoc, List.singleton_append,
      paragraphLines_group hlines.nonempty hlines.some_line, hparagraph.parseLines, ih hparagraphs]
    rfl

theorem noLines : ∀ line ∈ ([] : List Text), line ≠ [] ∧ Unbroken line :=
  fun _ hline => (nomatch hline)

/-- What was parsed are parsed paragraphs. -/
theorem parsed_of_paragraphLines {current lines : List Text} {paragraphs : List Paragraph}
    (hcurrent : ∀ line ∈ current, line ≠ [] ∧ Unbroken line)
    (hlines : ∀ line ∈ lines, Unbroken line)
    (h : paragraphLines current lines = .ok paragraphs) :
    ∀ paragraph ∈ paragraphs, Parsed paragraph := by
  have hparse : ∀ {current : List Text} {paragraph : Paragraph}, current ≠ [] →
      (∀ line ∈ current, line ≠ [] ∧ Unbroken line) →
      Debian.parseLines current = .ok paragraph → Parsed paragraph := by
    intro current paragraph hne hcurrent hparagraph
    exact parsed_of_parseLines ⟨hne, fun line hline => (hcurrent line hline).1,
      fun line hline => (hcurrent line hline).2⟩ hparagraph
  induction lines generalizing current paragraphs with
  | nil =>
    rw [paragraphLines] at h
    split_ifs at h with hne
    · obtain ⟨paragraph, hparagraph, hresult⟩ := Raise.bind_ok.mp h
      rw [← Except.ok.inj hresult]
      exact List.forall_mem_singleton.mpr (hparse hne hcurrent hparagraph)
    · rw [← Except.ok.inj h]
      exact fun _ hp => nomatch hp
  | cons line lines ih =>
    obtain ⟨hline, hlines⟩ := List.forall_mem_cons.mp hlines
    rw [paragraphLines] at h
    split_ifs at h with hempty hne
    · exact ih (List.forall_mem_append.mpr
        ⟨hcurrent, List.forall_mem_singleton.mpr ⟨hempty, hline⟩⟩) hlines h
    · obtain ⟨paragraph, hparagraph, h⟩ := Raise.bind_ok.mp h
      obtain ⟨rest, hrest, hresult⟩ := Raise.bind_ok.mp h
      rw [← Except.ok.inj hresult]
      exact List.forall_mem_cons.mpr ⟨hparse hne hcurrent hparagraph,
        ih noLines hlines hrest⟩
    · exact ih noLines hlines h

theorem parsed_of_parseControlParagraphs {text : Text} {paragraphs : List Paragraph}
    (h : parseControlParagraphs text = .ok paragraphs) :
    ∀ paragraph ∈ paragraphs, Parsed paragraph :=
  parsed_of_paragraphLines noLines (fun _ => unbroken_of_mem_splitlines) h

end Back

end BuckosDistro.Debian
