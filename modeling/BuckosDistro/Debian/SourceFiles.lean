/-
  The files of a Debian source package (`tools/deb_lock.py`, `source_files_from_metadata`, and
  `tools/_deb.py`, `dsc_files`).

  What APT would download is checked against the `Checksums-Sha256` field of the source
  paragraph. The field is read to rows (`ChecksumField`), an entry is bound to the row of its
  base name (`Binds`), and both loops are characterised by what they let through.
-/
import BuckosDistro.Debian.Control
import BuckosDistro.Lib.PyInt

namespace BuckosDistro.Debian

open BuckosDistro.Lib Lines

/-! ## The functions -/

/-- `os.path.basename` -/
def basename (path : Text) : Text := (path.reverse.takeWhile (· ≠ '/')).reverse

/-- `c in "0123456789abcdefABCDEF"` -/
def isHex (c : Char) : Bool := c ∈ "0123456789abcdefABCDEF".toList

/-- The metadata of a source file by its name: `(digest.lower(), size)`. -/
abbrev Metadata := Dict Text (Text × ℤ)

/-- The body of the loop of `dsc_files`. -/
def dscLine (files : Metadata) (line : Text) : Except String Metadata :=
  if PyText.strip line = [] then .ok files
  else
    match words line with
    | [digest, sizeText, name] => do
      raiseIf (basename name ≠ name ∨ name = ".".toList ∨ name = "..".toList)
        ("unsafe source filename in .dsc: " ++ PyText.repr (String.ofList name))
      raiseIf (name ∈ files.keys)
        ("duplicate source filename in .dsc: " ++ PyText.repr (String.ofList name))
      raiseIf (digest.length ≠ 64 ∨ digest.any fun c => !isHex c)
        ("invalid SHA-256 for " ++ PyText.repr (String.ofList name))
      let size ← needed (PyInt.int? sizeText)
        ("invalid size for " ++ PyText.repr (String.ofList name))
      return files.set name (digest.map Char.toLower, size)
    | _ => .error ("malformed Checksums-Sha256 line: " ++ PyText.repr (String.ofList line))

/-- `dsc_files` -/
def dscFiles (fields : Paragraph) : Except String Metadata :=
  match fields.get? "Checksums-Sha256".toList with
  | none => .error ".dsc has no Checksums-Sha256 field"
  | some checksums => do
    raiseIf (checksums = []) ".dsc has no Checksums-Sha256 field"
    (splitlines checksums).foldlM dscLine Dict.empty

/-- A download of APT, as `apt_uri_lines` reads it. -/
structure UriEntry where
  url : Text
  filename : Text
  size : ℤ
  digestKind : Text
  digest : Text

/-- A source file of a lock record. -/
structure SourceFile where
  filename : Text
  sha256 : Text
  size : ℤ
  target : Text
  url : Text
deriving DecidableEq

/-- `[A-Za-z0-9_-]` -/
def isTargetChar (c : Char) : Bool := c.isAlphanum || c = '_' || c = '-'

/-- `TARGET_RE.sub("-", text)`: one hyphen for a run of other characters. -/
def targetText : Text → Text
  | [] => []
  | c :: cs =>
    if isTargetChar c then c :: targetText cs
    else if cs.head?.any fun d => !isTargetChar d then targetText cs
    else '-' :: targetText cs

/-- `target_name` -/
def targetName (parts : List Text) : Text :=
  (((targetText (['-'].intercalate parts)).dropWhile (· = '-')).reverse.dropWhile
    (· = '-')).reverse

/-- The loop variables of `source_files_from_metadata`. -/
structure Binding where
  files : List SourceFile
  seen : List Text

/-- The body of the loop. -/
def bindEntry (metadata : Metadata) (binding : Binding) (entry : UriEntry) :
    Except String Binding := do
  let filename := basename entry.filename
  raiseIf (filename ∈ binding.seen)
    ("duplicate source URI filename: " ++ PyText.repr (String.ofList filename))
  let (sha256, size) ← needed (metadata.get? filename)
    (String.ofList filename ++ " is missing from source Checksums-Sha256 metadata")
  raiseIf (entry.size ≠ size)
    (String.ofList filename ++ ": source size mismatch: URI reports " ++ toString entry.size ++
      ", metadata reports " ++ toString size)
  raiseIf (entry.digestKind = "sha256".toList ∧ entry.digest ≠ sha256)
    (String.ofList filename ++ ": source SHA-256 mismatch: URI reports " ++
      String.ofList entry.digest ++ ", metadata reports " ++ String.ofList sha256)
  let file := ⟨filename, sha256, size, targetName ["source".toList, filename], entry.url⟩
  return ⟨binding.files ++ [file], filename :: binding.seen⟩

/-- `raise ValueError("invalid source Checksums-Sha256 metadata: {}".format(error))` -/
def wrapMetadata {α : Type} (result : Except String α) : Except String α :=
  result.mapError fun error => "invalid source Checksums-Sha256 metadata: " ++ error

/-- `sorted(set(metadata) - seen)` -/
def unbound (metadata : Metadata) (seen : List Text) : List Text :=
  (metadata.keys.filter (· ∉ seen)).insertionSort (· ≤ ·)

/-- `source_files_from_metadata` -/
def sourceFilesFromMetadata (entries : List UriEntry) (fields : Paragraph) :
    Except String (List SourceFile) := do
  let metadata ← wrapMetadata (dscFiles fields)
  let binding ← entries.foldlM (bindEntry metadata) ⟨[], []⟩
  let missing := unbound metadata binding.seen
  raiseIf (missing ≠ []) ("APT produced no URI for source metadata file(s): " ++
    String.ofList (", ".toList.intercalate missing))
  return binding.files

/-! ## The checksum field -/

/-- What a line of the field says. -/
structure SourceRow where
  name : Text
  sha256 : Text
  size : ℤ

/-- The entry of the metadata for a row. -/
def SourceRow.item (row : SourceRow) : Text × Text × ℤ := (row.name, row.sha256, row.size)

/-- A file name without directories. -/
def PlainName (name : Text) : Prop := '/' ∉ name ∧ name ≠ ".".toList ∧ name ≠ "..".toList

/-- A line of three words: 64 hex digits, an integer, and a plain name. -/
structure RowLine (line : Text) (row : SourceRow) : Prop where
  plain : PlainName row.name
  said : ∃ digest sizeText, words line = [digest, sizeText, row.name] ∧
    digest.length = 64 ∧ (∀ c ∈ digest, c ∈ "0123456789abcdefABCDEF".toList) ∧
    row.sha256 = digest.map Char.toLower ∧ PyInt.Numeral sizeText row.size

/-- A well formed field, with the rows of its lines. -/
structure ChecksumField (fields : Paragraph) (rows : List SourceRow) : Prop where
  lines : ∃ checksums, fields.get? "Checksums-Sha256".toList = some checksums ∧ checksums ≠ [] ∧
    List.Forall₂ RowLine ((splitlines checksums).filter fun line => PyText.strip line ≠ []) rows
  nodup : (rows.map SourceRow.name).Nodup

/-- An entry against the row of its base name, and the file that is returned for it. -/
def Binds (rows : List SourceRow) (entry : UriEntry) (file : SourceFile) : Prop :=
  ∃ row ∈ rows, row.name = basename entry.filename ∧ entry.size = row.size ∧
    (entry.digestKind = "sha256".toList → entry.digest = row.sha256) ∧
    file = ⟨row.name, row.sha256, row.size, targetName ["source".toList, row.name], entry.url⟩

theorem basename_eq_self {name : Text} : basename name = name ↔ '/' ∉ name := by
  have hrev : basename name = name ↔ name.reverse.takeWhile (· ≠ '/') = name.reverse := by
    unfold basename
    exact ⟨fun h => by rw [← List.reverse_reverse (name.reverse.takeWhile _), h], fun h => by
      rw [h, List.reverse_reverse]⟩
  rw [hrev, List.takeWhile_eq_self_iff]
  refine ⟨fun h hmem => ?_, fun h c hc => ?_⟩
  · exact absurd (h '/' (List.mem_reverse.mpr hmem)) (by decide)
  · apply decide_eq_true
    intro he
    exact h (he ▸ List.mem_reverse.mp hc)

/-- The line of a row is let through where its name is new. -/
theorem dscLine_of_rowLine {files files' : Metadata} {line : Text}
    (hblank : PyText.strip line ≠ []) :
    dscLine files line = .ok files' ↔
      ∃ row, RowLine line row ∧ row.name ∉ files.keys ∧
        files' = files.set row.name (row.sha256, row.size) := by
  rw [dscLine, if_neg hblank]
  constructor
  · intro h
    split at h
    next digest sizeText name hwords =>
      simp only [Raise.bind_ok, Raise.raiseIf_ok, Raise.needed_ok, Raise.pure_ok] at h
      obtain ⟨_, hname, _, hnew, _, hdigest, size, hsize, heq⟩ := h
      have hplain : PlainName name :=
        ⟨basename_eq_self.mp (not_not.mp fun he => hname (.inl he)),
          fun he => hname (.inr (.inl he)), fun he => hname (.inr (.inr he))⟩
      have hhex : ∀ c ∈ digest, c ∈ "0123456789abcdefABCDEF".toList := by
        intro c hc
        by_contra hne
        refine hdigest (.inr (List.any_eq_true.mpr ⟨c, hc, ?_⟩))
        unfold isHex
        rw [decide_eq_false hne]
        rfl
      exact ⟨⟨name, digest.map Char.toLower, size⟩,
        ⟨hplain, digest, sizeText, hwords, not_not.mp fun he => hdigest (.inl he), hhex, rfl,
          PyInt.int?_iff.mp hsize⟩, hnew, heq.symm⟩
    next => cases h
  · rintro ⟨row, hrow, hnew, heq⟩
    obtain ⟨⟨hslash, hdot, hdots⟩, digest, sizeText, hwords, hlength, hhex, hsha, hsize⟩ := hrow
    rw [hwords]
    simp only [Raise.bind_ok, Raise.raiseIf_ok, Raise.needed_ok, Raise.pure_ok]
    refine ⟨(), ?_, (), hnew, (), ?_, row.size, PyInt.int?_iff.mpr hsize, by rw [heq, hsha]⟩
    · rintro (he | he | he)
      · exact he (basename_eq_self.mpr hslash)
      · exact hdot he
      · exact hdots he
    · rintro (he | he)
      · exact he hlength
      · obtain ⟨c, hc, hnot⟩ := List.any_eq_true.mp he
        unfold isHex at hnot
        rw [decide_eq_true (hhex c hc)] at hnot
        cases hnot

/-- What the loop makes of lines, with new names. -/
theorem dscLines_iff (lines : List Text) (files files' : Metadata) :
    lines.foldlM dscLine files = .ok files' ↔
      ∃ rows, List.Forall₂ RowLine (lines.filter fun line => PyText.strip line ≠ []) rows ∧
        (rows.map SourceRow.name).Nodup ∧ (∀ row ∈ rows, row.name ∉ files.keys) ∧
        files'.items = files.items ++ rows.map SourceRow.item := by
  induction lines generalizing files with
  | nil =>
    rw [List.foldlM_nil, Raise.pure_ok, List.filter_nil]
    refine ⟨fun h => ⟨[], .nil, List.nodup_nil, fun row hrow => (nomatch hrow), by
      rw [h]; exact (List.append_nil _).symm⟩, fun ⟨rows, hrows, _, _, heq⟩ => ?_⟩
    obtain rfl := List.forall₂_nil_left_iff.mp hrows
    obtain ⟨items⟩ := files
    obtain ⟨items'⟩ := files'
    rw [List.map_nil, List.append_nil] at heq
    exact congrArg Dict.mk heq.symm
  | cons line lines ih =>
    rw [List.foldlM_cons, Raise.bind_ok]
    by_cases hblank : PyText.strip line = []
    · rw [List.filter_cons_of_neg (by simpa using hblank), ← ih files]
      have hline : dscLine files line = .ok files := by rw [dscLine, if_pos hblank]
      rw [hline]
      exact ⟨fun ⟨mid, hmid, h⟩ => Except.ok.inj hmid ▸ h, fun h => ⟨files, rfl, h⟩⟩
    · rw [List.filter_cons_of_pos (by simpa using hblank)]
      refine ⟨fun ⟨mid, hmid, h⟩ => ?_, fun ⟨rows, hrows, hnodup, hnew, heq⟩ => ?_⟩
      · obtain ⟨row, hrow, hnew, rfl⟩ := (dscLine_of_rowLine hblank).mp hmid
        obtain ⟨rows, hrows, hnodup, hnews, heq⟩ := (ih _).mp h
        have hkeys : ∀ other ∈ rows, other.name ≠ row.name ∧ other.name ∉ files.keys := by
          intro other hother
          have hnot := hnews other hother
          rw [Dict.mem_keys_iff, Dict.get?_set] at hnot
          refine ⟨fun he => hnot (by rw [if_pos he]; rfl), fun hmem => ?_⟩
          by_cases he : other.name = row.name
          · exact hnot (by rw [if_pos he]; rfl)
          · exact hnot (by rw [if_neg he]; exact Dict.mem_keys_iff.mp hmem)
        have hnone : files.get? row.name = none := by
          rw [Dict.mem_keys_iff] at hnew
          exact Option.not_isSome_iff_eq_none.mp hnew
        refine ⟨row :: rows, .cons hrow hrows, ?_, ?_, ?_⟩
        · rw [List.map_cons, List.nodup_cons]
          refine ⟨fun hmem => ?_, hnodup⟩
          obtain ⟨other, hother, he⟩ := List.mem_map.mp hmem
          exact (hkeys other hother).1 he
        · exact List.forall_mem_cons.mpr ⟨hnew, fun other hother => (hkeys other hother).2⟩
        · rw [heq, Dict.items_set_of_none hnone, List.append_assoc]
          rfl
      · obtain ⟨row, rest, hrow, hrest, rfl⟩ := List.forall₂_cons_left_iff.mp hrows
        rw [List.map_cons, List.nodup_cons] at hnodup
        obtain ⟨hrownew, hrestnew⟩ := List.forall_mem_cons.mp hnew
        have hnone : files.get? row.name = none := by
          rw [Dict.mem_keys_iff] at hrownew
          exact Option.not_isSome_iff_eq_none.mp hrownew
        refine ⟨_, (dscLine_of_rowLine hblank).mpr ⟨row, hrow, hrownew, rfl⟩,
          (ih _).mpr ⟨rest, hrest, hnodup.2, ?_, ?_⟩⟩
        · intro other hother
          have hne : other.name ≠ row.name := fun he =>
            hnodup.1 (he ▸ List.mem_map.mpr ⟨other, hother, rfl⟩)
          rw [Dict.mem_keys_iff, Dict.get?_set, if_neg hne, ← Dict.mem_keys_iff]
          exact hrestnew other hother
        · rw [heq, Dict.items_set_of_none hnone, List.append_assoc]
          rfl

/-- The metadata that rows say. -/
def metadataOf (rows : List SourceRow) : Metadata := ⟨rows.map SourceRow.item⟩

theorem keys_metadataOf (rows : List SourceRow) :
    (metadataOf rows).keys = rows.map SourceRow.name := by
  show (rows.map SourceRow.item).map Prod.fst = _
  rw [List.map_map]
  rfl

/-- `dsc_files` returns the rows of a well formed field, and nothing else. -/
theorem dscFiles_iff (fields : Paragraph) (metadata : Metadata) :
    dscFiles fields = .ok metadata ↔
      ∃ rows, ChecksumField fields rows ∧ metadata = metadataOf rows := by
  unfold dscFiles
  constructor
  · intro h
    split at h
    next => cases h
    next checksums hfield =>
      simp only [Raise.bind_ok, Raise.raiseIf_ok] at h
      obtain ⟨_, hne, h⟩ := h
      obtain ⟨rows, hrows, hnodup, _, heq⟩ := (dscLines_iff _ _ _).mp h
      refine ⟨rows, ⟨⟨checksums, hfield, hne, hrows⟩, hnodup⟩, ?_⟩
      obtain ⟨items⟩ := metadata
      exact congrArg Dict.mk heq
  · rintro ⟨rows, ⟨⟨checksums, hfield, hne, hrows⟩, hnodup⟩, heq⟩
    rw [hfield]
    simp only [Raise.bind_ok, Raise.raiseIf_ok]
    exact ⟨(), hne, (dscLines_iff _ _ _).mpr
      ⟨rows, hrows, hnodup, fun row _ hmem => absurd hmem List.not_mem_nil, by rw [heq]; rfl⟩⟩

/-! ## The entries -/

/-- What the metadata answers for a name, as a row. -/
theorem get?_metadataOf {rows : List SourceRow} (h : (rows.map SourceRow.name).Nodup) {name : Text}
    {sha256 : Text} {size : ℤ} :
    (metadataOf rows).get? name = some (sha256, size) ↔ ⟨name, sha256, size⟩ ∈ rows := by
  have hitems : (name, sha256, size) ∈ (metadataOf rows).items ↔
      (metadataOf rows).get? name = some (sha256, size) :=
    Dict.mem_items_iff (by rw [keys_metadataOf]; exact h)
  rw [← hitems]
  refine ⟨fun hmem => ?_, fun hmem => List.mem_map.mpr ⟨_, hmem, rfl⟩⟩
  obtain ⟨row, hrow, heq⟩ := List.mem_map.mp hmem
  obtain ⟨name', sha', size'⟩ := row
  cases heq
  exact hrow

/-- An entry is let through where its name is new and it binds. -/
theorem bindEntry_iff {rows : List SourceRow} (h : (rows.map SourceRow.name).Nodup)
    (binding binding' : Binding) (entry : UriEntry) :
    bindEntry (metadataOf rows) binding entry = .ok binding' ↔
      basename entry.filename ∉ binding.seen ∧ ∃ file, Binds rows entry file ∧
        binding' = ⟨binding.files ++ [file], basename entry.filename :: binding.seen⟩ := by
  simp only [bindEntry, Raise.bind_ok, Raise.raiseIf_ok, Raise.needed_ok, Raise.pure_ok]
  constructor
  · rintro ⟨_, hseen, ⟨sha256, size⟩, hget, _, hsize, _, hsha, heq⟩
    refine ⟨hseen, _, ⟨_, (get?_metadataOf h).mp hget, rfl, not_not.mp hsize, fun hkind => ?_,
      rfl⟩, heq.symm⟩
    by_contra hne
    exact hsha ⟨hkind, hne⟩
  · rintro ⟨hseen, file, ⟨⟨name, sha256, size⟩, hrow, hname, hsize, hsha, hfile⟩, heq⟩
    obtain rfl : name = basename entry.filename := hname
    refine ⟨(), hseen, (sha256, size), (get?_metadataOf h).mpr hrow, (), not_not.mpr hsize, (),
      fun hbad => hbad.2 (hsha hbad.1), ?_⟩
    rw [heq, hfile]

/-- What the loop makes of entries. -/
theorem bindEntries_iff {rows : List SourceRow} (h : (rows.map SourceRow.name).Nodup)
    (entries : List UriEntry) (binding binding' : Binding) :
    entries.foldlM (bindEntry (metadataOf rows)) binding = .ok binding' ↔
      (entries.map fun entry => basename entry.filename).Nodup ∧
        (∀ entry ∈ entries, basename entry.filename ∉ binding.seen) ∧
        ∃ files, List.Forall₂ (Binds rows) entries files ∧
          binding' = ⟨binding.files ++ files,
            (entries.map fun entry => basename entry.filename).reverse ++ binding.seen⟩ := by
  induction entries generalizing binding with
  | nil =>
    rw [List.foldlM_nil, Raise.pure_ok]
    refine ⟨fun he => ⟨List.nodup_nil, fun entry hentry => (nomatch hentry), [], .nil, ?_⟩,
      fun ⟨_, _, files, hfiles, heq⟩ => ?_⟩
    · rw [← he, List.append_nil]
      rfl
    · obtain rfl := List.forall₂_nil_left_iff.mp hfiles
      rw [heq, List.append_nil]
      rfl
  | cons entry entries ih =>
    rw [List.foldlM_cons, Raise.bind_ok, List.map_cons, List.nodup_cons, List.reverse_cons,
      List.append_assoc, List.singleton_append]
    refine ⟨fun ⟨mid, hmid, hrest⟩ => ?_, fun ⟨⟨hnotin, hnodup⟩, hseen, files, hfiles, heq⟩ => ?_⟩
    · obtain ⟨hnew, file, hfile, rfl⟩ := (bindEntry_iff h _ _ _).mp hmid
      obtain ⟨hnodup, hnews, files, hfiles, heq⟩ := (ih _).mp hrest
      refine ⟨⟨fun hmem => ?_, hnodup⟩, List.forall_mem_cons.mpr ⟨hnew, fun other hother hmem =>
        hnews other hother (List.mem_cons_of_mem _ hmem)⟩, file :: files, .cons hfile hfiles, ?_⟩
      · obtain ⟨other, hother, he⟩ := List.mem_map.mp hmem
        exact hnews other hother (he ▸ List.mem_cons_self)
      · rw [heq, List.append_assoc, List.singleton_append]
    · obtain ⟨file, rest, hfile, hrest, rfl⟩ := List.forall₂_cons_left_iff.mp hfiles
      obtain ⟨hnew, hnews⟩ := List.forall_mem_cons.mp hseen
      refine ⟨_, (bindEntry_iff h _ _ _).mpr ⟨hnew, file, hfile, rfl⟩,
        (ih _).mpr ⟨hnodup, fun other hother hmem => ?_, rest, hrest, ?_⟩⟩
      · rcases List.mem_cons.mp hmem with he | hmem
        · exact hnotin (he ▸ List.mem_map.mpr ⟨other, hother, rfl⟩)
        · exact hnews other hother hmem
      · rw [heq, List.append_assoc, List.singleton_append]

theorem unbound_eq_nil {metadata : Metadata} {seen : List Text} :
    unbound metadata seen = [] ↔ ∀ name ∈ metadata.keys, name ∈ seen := by
  unfold unbound
  rw [← List.length_eq_zero_iff, List.length_insertionSort, List.length_eq_zero_iff,
    List.filter_eq_nil_iff]
  exact forall₂_congr fun name _ => by simp

theorem wrapMetadata_ok {α : Type} {result : Except String α} {a : α} :
    wrapMetadata result = .ok a ↔ result = .ok a := by
  cases result with
  | error error => exact ⟨fun h => (nomatch h), fun h => (nomatch h)⟩
  | ok b => rfl

/-- The function returns where the field is well formed and the entries are the rows, each once
    and in agreement; and then the files are the entries', in order. -/
theorem sourceFilesFromMetadata_iff (entries : List UriEntry) (fields : Paragraph)
    (files : List SourceFile) :
    sourceFilesFromMetadata entries fields = .ok files ↔
      ∃ rows, ChecksumField fields rows ∧
        (entries.map fun entry => basename entry.filename).Nodup ∧
        (∀ name, name ∈ (entries.map fun entry => basename entry.filename) ↔
          name ∈ rows.map SourceRow.name) ∧
        List.Forall₂ (Binds rows) entries files := by
  simp only [sourceFilesFromMetadata, Raise.bind_ok, Raise.raiseIf_ok, Raise.pure_ok,
    wrapMetadata_ok, not_not, unbound_eq_nil]
  constructor
  · rintro ⟨metadata, hmetadata, binding, hbinding, _, hall, heq⟩
    obtain ⟨rows, hrows, rfl⟩ := (dscFiles_iff _ _).mp hmetadata
    obtain ⟨hnodup, _, files', hfiles, rfl⟩ := (bindEntries_iff hrows.nodup _ _ _).mp hbinding
    obtain rfl : files' = files := by simpa using heq
    refine ⟨rows, hrows, hnodup, fun name => ⟨fun hmem => ?_, fun hmem => ?_⟩, hfiles⟩
    · obtain ⟨entry, hentry, rfl⟩ := List.mem_map.mp hmem
      obtain ⟨i, hi, hget⟩ := List.mem_iff_getElem.mp hentry
      obtain ⟨row, hrow, hname, _⟩ := hfiles.get hi (hfiles.length_eq ▸ hi)
      have hget' : entries.get ⟨i, hi⟩ = entry := hget
      rw [hget'] at hname
      exact hname ▸ List.mem_map.mpr ⟨row, hrow, rfl⟩
    · have hseen := hall name (by rw [keys_metadataOf]; exact hmem)
      simpa using hseen
  · rintro ⟨rows, hrows, hnodup, hnames, hfiles⟩
    refine ⟨_, (dscFiles_iff _ _).mpr ⟨rows, hrows, rfl⟩, _,
      (bindEntries_iff hrows.nodup _ _ _).mpr
        ⟨hnodup, fun entry _ hmem => absurd hmem List.not_mem_nil, files, hfiles, rfl⟩, (),
      fun name hname => ?_, List.nil_append _⟩
    rw [keys_metadataOf] at hname
    rw [List.append_nil, List.mem_reverse]
    exact (hnames name).mpr hname

end BuckosDistro.Debian
