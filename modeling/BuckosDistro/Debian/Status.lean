/-
  The status file of a buildroot (`tools/_deb.py`, `register_debs`).

  What a run registers is put over what it read, one paragraph for each package key. A run
  after another reads what the first wrote, so that of every key the last registration counts
  (`registerDebs_statusText`). A package is given by its control text, which is what `dpkg-deb`
  prints; its info files are no part of the status.
-/
import BuckosDistro.Debian.Control

namespace BuckosDistro.Debian

open BuckosDistro.Lib

/-! ## The functions -/

/-- `STATUS_FIELDS` -/
def statusNames : List Text :=
  ["Package", "Essential", "Status", "Priority", "Section", "Installed-Size", "Maintainer",
    "Architecture", "Multi-Arch", "Source", "Version", "Replaces", "Provides", "Pre-Depends",
    "Depends", "Conflicts", "Breaks", "Description"].map String.toList

/-- `fields[name]` -/
def field (fields : Paragraph) (name : String) : Except String Text :=
  needed (fields.get? name.toList) ("KeyError: " ++ PyText.repr name)

/-- `fields.get("Multi-Arch") == "same"` -/
def SameArch (fields : Paragraph) : Prop :=
  fields.get? "Multi-Arch".toList = some "same".toList

instance (fields : Paragraph) : Decidable (SameArch fields) := by
  unfold SameArch
  infer_instance

/-- `deb_fields`, from what `dpkg-deb --field` prints. -/
def debFields (deb : Text) : Except String Paragraph := parseControl deb

/-- `package_key` -/
def packageKey (fields : Paragraph) : Except String Text := do
  let package ← field fields "Package"
  let architecture ← field fields "Architecture"
  if SameArch fields then return package ++ ':' :: architecture
  else return package

/-- The key of a paragraph that is there already. -/
def installedKey (fields : Paragraph) : Except String Text := do
  let key ← field fields "Package"
  if SameArch fields then return key ++ ':' :: (← field fields "Architecture")
  else return key

/-- What `if value` keeps. -/
def statusValue (fields : Paragraph) (name : Text) : Option Text :=
  ((fields.set "Status".toList "install ok installed".toList).get? name).filter fun value =>
    value ≠ []

/-- `status_paragraph` -/
def statusParagraph (fields : Paragraph) : Text :=
  ['\n'].intercalate (statusNames.filterMap fun name =>
    (statusValue fields name).map fun value => formatField (name, value)) ++ ['\n']

/-- The body of the loop over what is there. -/
def registerExisting (paragraphs : Dict Text Text) (fields : Paragraph) :
    Except String (Dict Text Text) := do
  let key ← installedKey fields
  return paragraphs.set key (formatParagraph fields)

/-- The body of the loop over the packages. -/
def registerDeb (paragraphs : Dict Text Text) (deb : Text) : Except String (Dict Text Text) := do
  let fields ← debFields deb
  let key ← packageKey fields
  return paragraphs.set key (statusParagraph fields)

/-- `sorted(paragraphs)` -/
def sortedKeys {α : Type} (paragraphs : Dict Text α) : List Text :=
  paragraphs.keys.insertionSort (· ≤ ·)

/-- The paragraphs of the status file, where there is one. -/
def existingParagraphs (status : Option Text) : Except String (List Paragraph) :=
  match status with
  | none => .ok []
  | some text => parseControlParagraphs text

/-- `register_debs`: the text of the status file it writes. -/
def registerDebs (status : Option Text) (debs : List Text) : Except String Text := do
  let existing ← existingParagraphs status
  let paragraphs ← existing.foldlM registerExisting Dict.empty
  let paragraphs ← debs.foldlM registerDeb paragraphs
  return (sortedKeys paragraphs).flatMap fun key => paragraphs.getD key [] ++ ['\n']

/-- One run after another. -/
def registerRuns (status : Option Text) (runs : List (List Text)) : Except String (Option Text) :=
  runs.foldlM (fun status debs => some <$> registerDebs status debs) status

/-! ## Entries -/

/-- A paragraph under its key. -/
abbrev Entry := Text × Paragraph

def installedEntry (fields : Paragraph) : Except String Entry := do
  let key ← installedKey fields
  return (key, fields)

/-- The fields of a registered package: those of the status file that are not empty. -/
def statusFields (fields : Paragraph) : Paragraph :=
  ⟨statusNames.filterMap fun name => (statusValue fields name).map (Prod.mk name)⟩

def registeredEntry (deb : Text) : Except String Entry := do
  let fields ← debFields deb
  let key ← packageKey fields
  return (key, statusFields fields)

/-- The last paragraph of each key. -/
def record (entries : List Entry) : Dict Text Paragraph :=
  entries.foldl (fun store entry => store.set entry.1 entry.2) Dict.empty

/-- The paragraphs in the order of their keys. -/
def sorted (store : Dict Text Paragraph) : Dict Text Paragraph :=
  Dict.ofKeys (sortedKeys store) fun key => store.getD key Dict.empty

/-- The status file of some entries. -/
def statusText (entries : List Entry) : Text :=
  formatParagraphs ((sorted (record entries)).items.map Prod.snd)

/-- The texts of the paragraphs. -/
def texts (store : Dict Text Paragraph) : Dict Text Text := store.mapValues formatParagraph

section Store

variable {store store' : Dict Text Paragraph} {entries : List Entry} {key : Text}

theorem get?_record (entries : List Entry) (key : Text) :
    (record entries).get? key = (Dict.valuesAt entries key).getLast? := by
  unfold record
  rw [Dict.get?_foldl_pairs]
  exact Option.or_none

theorem nodup_record (entries : List Entry) : (record entries).keys.Nodup :=
  Dict.nodup_keys_foldl _ (fun _ _ h => Dict.nodup_keys_set h _ _) entries List.nodup_nil

theorem mem_sortedKeys {α : Type} (d : Dict Text α) : key ∈ sortedKeys d ↔ key ∈ d.keys :=
  (List.perm_insertionSort _ _).mem_iff

theorem nodup_sorted (h : store.keys.Nodup) : (sorted store).keys.Nodup := by
  have hkeys : (sorted store).keys = sortedKeys store := by
    unfold sorted Dict.ofKeys Dict.keys
    rw [List.map_map]
    exact List.map_id _
  rw [hkeys]
  exact (List.perm_insertionSort _ _).nodup_iff.mpr h

theorem get?_sorted (store : Dict Text Paragraph) (key : Text) :
    (sorted store).get? key = store.get? key := by
  unfold sorted
  by_cases hkey : key ∈ store.keys
  · rw [Dict.get?_ofKeys _ ((mem_sortedKeys store).mpr hkey)]
    obtain ⟨paragraph, hparagraph⟩ := Option.isSome_iff_exists.mp (Dict.mem_keys_iff.mp hkey)
    rw [Dict.getD_eq_of_get? _ hparagraph, hparagraph]
  · rw [Dict.get?_ofKeys_of_notMem _ fun h => hkey ((mem_sortedKeys store).mp h)]
    have hnone := mt Dict.mem_keys_iff.mpr hkey
    rw [Bool.not_eq_true, Option.isSome_eq_false_iff, Option.isNone_iff_eq_none] at hnone
    exact hnone.symm

/-- Stores that answer alike are written alike. -/
theorem sorted_congr (h : store.keys.Nodup) (h' : store'.keys.Nodup)
    (heq : ∀ key, store.get? key = store'.get? key) : sorted store = sorted store' := by
  have hperm : store.keys.Perm store'.keys := (Dict.items_perm h h' heq).map Prod.fst
  have hkeys : sortedKeys store = sortedKeys store' :=
    List.Perm.eq_of_pairwise' (List.pairwise_insertionSort _ _) (List.pairwise_insertionSort _ _)
      (((List.perm_insertionSort _ _).trans hperm).trans (List.perm_insertionSort _ _).symm)
  have hvalue : (fun key => store.getD key Dict.empty) = fun key => store'.getD key Dict.empty := by
    funext key
    unfold Dict.getD
    rw [heq]
  unfold sorted
  rw [hkeys, hvalue]

/-- What is written for a store. -/
theorem flatMap_texts (store : Dict Text Paragraph) :
    ((sortedKeys (texts store)).flatMap fun key => (texts store).getD key [] ++ ['\n']) =
      formatParagraphs ((sorted store).items.map Prod.snd) := by
  have hkeys : sortedKeys (texts store) = sortedKeys store := by
    unfold sortedKeys
    unfold texts
    rw [Dict.keys_mapValues]
  unfold formatParagraphs sorted Dict.ofKeys
  rw [hkeys, List.map_map, List.flatMap_map]
  refine List.flatMap_congr fun key hkey => ?_
  obtain ⟨paragraph, hparagraph⟩ :=
    Option.isSome_iff_exists.mp (Dict.mem_keys_iff.mp ((mem_sortedKeys store).mp hkey))
  have htext : (texts store).get? key = some (formatParagraph paragraph) := by
    unfold texts
    rw [Dict.get?_mapValues, hparagraph]
    rfl
  rw [Dict.getD_eq_of_get? [] htext]
  show _ = formatParagraph (store.getD key Dict.empty) ++ ['\n']
  rw [Dict.getD_eq_of_get? _ hparagraph]

end Store

/-! ## A run -/

section Run

variable {status : Option Text} {debs : List Text} {existing : List Paragraph}
  {entries originals registered : List Entry}

theorem formatParagraph_statusFields (fields : Paragraph) :
    formatParagraph (statusFields fields) = statusParagraph fields := by
  have hlines : (statusFields fields).items.map formatField = statusNames.filterMap fun name =>
      (statusValue fields name).map fun value => formatField (name, value) := by
    unfold statusFields
    rw [List.map_filterMap]
    refine List.filterMap_congr fun name _ => ?_
    rw [Option.map_map]
    rfl
  unfold formatParagraph statusParagraph
  rw [hlines]

/-- A loop that puts the text of an entry under its key. -/
theorem foldlM_texts {α : Type} {step : Dict Text Text → α → Except String (Dict Text Text)}
    {entry : α → Except String Entry}
    (hstep : ∀ paragraphs a, step paragraphs a = do
      let entry ← entry a
      return paragraphs.set entry.1 (formatParagraph entry.2))
    {xs : List α} (h : xs.mapM entry = .ok entries) (store : Dict Text Paragraph) :
    xs.foldlM step (texts store) =
      .ok (texts (entries.foldl (fun store entry => store.set entry.1 entry.2) store)) := by
  induction xs generalizing entries store with
  | nil =>
    obtain rfl : [] = entries := Except.ok.inj h
    rfl
  | cons x xs ih =>
    rw [List.mapM_cons] at h
    obtain ⟨first, hfirst, h⟩ := Raise.bind_ok.mp h
    obtain ⟨rest, hrest, hentries⟩ := Raise.bind_ok.mp h
    obtain rfl := Except.ok.inj hentries
    have hone : step (texts store) x = .ok (texts (store.set first.1 first.2)) := by
      unfold texts
      rw [hstep, hfirst, Dict.mapValues_set]
      rfl
    rw [List.foldlM_cons, hone, List.foldl_cons]
    exact ih hrest _

theorem registerExisting_eq (paragraphs : Dict Text Text) (fields : Paragraph) :
    registerExisting paragraphs fields = do
      let entry ← installedEntry fields
      return paragraphs.set entry.1 (formatParagraph entry.2) := by
  unfold registerExisting installedEntry
  rw [bind_assoc]
  rfl

theorem registerDeb_eq (paragraphs : Dict Text Text) (deb : Text) :
    registerDeb paragraphs deb = do
      let entry ← registeredEntry deb
      return paragraphs.set entry.1 (formatParagraph entry.2) := by
  unfold registerDeb registeredEntry
  simp only [bind_assoc, ← formatParagraph_statusFields]
  rfl

/-- A run writes what was there and, over it, what it registers. -/
theorem registerDebs_ok (hstatus : existingParagraphs status = .ok existing)
    (horiginals : existing.mapM installedEntry = .ok originals)
    (hregistered : debs.mapM registeredEntry = .ok registered) :
    registerDebs status debs = .ok (statusText (originals ++ registered)) := by
  have hexisting : existing.foldlM registerExisting Dict.empty = .ok (texts (record originals)) :=
    foldlM_texts registerExisting_eq horiginals Dict.empty
  have hdebs : debs.foldlM registerDeb (texts (record originals)) =
      .ok (texts (record (originals ++ registered))) := by
    rw [foldlM_texts registerDeb_eq hregistered]
    unfold record
    rw [List.foldl_append]
  unfold registerDebs
  rw [hstatus]
  show (existing.foldlM registerExisting Dict.empty >>= _) = _
  rw [hexisting]
  show (debs.foldlM registerDeb (texts (record originals)) >>= _) = _
  rw [hdebs]
  exact congrArg Except.ok (flatMap_texts _)

/-! ## What a run reads of another -/

/-- Paragraphs that are read back under the keys they are written under. -/
def Recorded (entries : List Entry) : Prop :=
  ∀ entry ∈ entries, Parsed entry.2 ∧ installedKey entry.2 = .ok entry.1

theorem mem_of_mem_sorted {entry : Entry} (h : entry ∈ (sorted (record entries)).items) :
    entry ∈ entries := by
  have hget := (Dict.mem_items_iff (nodup_sorted (nodup_record entries))).mp h
  rw [get?_sorted, get?_record] at hget
  exact Dict.mem_valuesAt.mp (List.mem_of_getLast? hget)

/-- The status file parses to the last paragraph of each key. -/
theorem parse_statusText (h : Recorded entries) :
    parseControlParagraphs (statusText entries) =
      .ok ((sorted (record entries)).items.map Prod.snd) := by
  apply parse_formatParagraphs
  intro paragraph hparagraph
  obtain ⟨entry, hentry, rfl⟩ := List.mem_map.mp hparagraph
  exact (h entry (mem_of_mem_sorted hentry)).1

/-- Paragraphs by their keys. -/
theorem mapM_installedEntry {entries : List Entry}
    (h : ∀ entry ∈ entries, installedKey entry.2 = .ok entry.1) :
    (entries.map Prod.snd).mapM installedEntry = .ok entries := by
  have hentry : ∀ entry ∈ entries, (installedEntry ∘ Prod.snd) entry = .ok (id entry) := by
    intro entry hentry
    show installedEntry entry.2 = _
    unfold installedEntry
    rw [h entry hentry]
    rfl
  rw [List.mapM_map, Lists.mapM_ok_of_forall hentry, List.map_id]

theorem Recorded.installedKey (h : Recorded entries) {entry : Entry}
    (hentry : entry ∈ (sorted (record entries)).items) : installedKey entry.2 = .ok entry.1 :=
  (h entry (mem_of_mem_sorted hentry)).2

/-- Recording what was recorded, and more, is recording it all. -/
theorem statusText_append (entries registered : List Entry) :
    statusText ((sorted (record entries)).items ++ registered) =
      statusText (entries ++ registered) := by
  have hget : ∀ key, (record ((sorted (record entries)).items ++ registered)).get? key =
      (record (entries ++ registered)).get? key := by
    intro key
    have hsorted : (Dict.valuesAt (sorted (record entries)).items key).getLast? =
        (Dict.valuesAt entries key).getLast? := by
      rw [← get?_record entries, ← get?_sorted]
      exact Dict.getLast?_valuesAt
        (fun _ => Dict.mem_items_iff (nodup_sorted (nodup_record entries))) key
    rw [get?_record, get?_record]
    unfold Dict.valuesAt at hsorted ⊢
    rw [List.filter_append, List.filter_append, List.map_append, List.map_append,
      List.getLast?_append, List.getLast?_append, hsorted]
  unfold statusText
  rw [sorted_congr (nodup_record _) (nodup_record _) hget]

/-- A run on what others wrote. -/
theorem registerDebs_statusText (h : Recorded entries)
    (hregistered : debs.mapM registeredEntry = .ok registered) :
    registerDebs (some (statusText entries)) debs = .ok (statusText (entries ++ registered)) := by
  have hstatus : existingParagraphs (some (statusText entries)) =
      .ok ((sorted (record entries)).items.map Prod.snd) := parse_statusText h
  rw [registerDebs_ok hstatus (mapM_installedEntry fun _ => h.installedKey) hregistered,
    statusText_append]

theorem recorded_originals (hstatus : existingParagraphs status = .ok existing)
    (horiginals : existing.mapM installedEntry = .ok originals) : Recorded originals := by
  have hparsed : ∀ paragraph ∈ existing, Parsed paragraph := by
    cases status with
    | none =>
      rw [← Except.ok.inj hstatus]
      exact fun _ hp => nomatch hp
    | some text => exact parsed_of_parseControlParagraphs hstatus
  intro entry hentry
  obtain ⟨paragraph, hparagraph, hread⟩ := Lists.exists_of_mapM_ok horiginals hentry
  obtain ⟨key, hkey, hpair⟩ := Raise.bind_ok.mp hread
  rw [← Except.ok.inj hpair]
  exact ⟨hparsed paragraph hparagraph, hkey⟩

end Run

/-! ## Registered packages -/

section Registered

variable {fields : Paragraph} {debs : List Text} {registered : List Entry}

/-- What `dpkg-deb` prints of any package: it has a name and an architecture. -/
structure Named (fields : Paragraph) : Prop where
  package : ∃ value ∈ fields.get? "Package".toList, value ≠ []
  architecture : ∃ value ∈ fields.get? "Architecture".toList, value ≠ []

/-- A word of letters and hyphens, as the names of the status file are. -/
def Word (name : Text) : Prop := ∀ c ∈ name, c.isAlpha = true ∨ c = '-'

theorem bounds_of_isAlpha {c : Char} (h : c.isAlpha = true) :
    (65 ≤ c.toNat ∧ c.toNat ≤ 90) ∨ (97 ≤ c.toNat ∧ c.toNat ≤ 122) := by
  simpa [Char.isAlpha, Char.isUpper, Char.isLower, Char.le_def, UInt32.le_iff_toNat_le] using h

theorem Word.nameText {name : Text} (h : Word name) : NameText name := by
  have hbounds : ∀ c ∈ name, 45 ≤ c.toNat ∧ c.toNat ≤ 122 ∧ c.toNat ≠ 58 := by
    intro c hc
    obtain halpha | rfl := h c hc
    · have hletter := bounds_of_isAlpha halpha
      omega
    · decide
  have hspace : ∀ c ∈ name, PyText.isSpace c = false := by
    intro c hc
    obtain ⟨hlow, hhigh, _⟩ := hbounds c hc
    unfold PyText.isSpace
    simp
    omega
  refine ⟨PyText.strip_of_ends (fun c hc => hspace c (List.mem_of_mem_head? hc))
    (fun c hc => hspace c (List.mem_of_mem_getLast? hc)), fun hcolon => ?_, fun c hc => ?_⟩
  · exact absurd rfl (hbounds ':' hcolon).2.2
  · obtain ⟨hlow, hhigh, _⟩ := hbounds c hc
    unfold Lines.isBreak
    simp
    omega

theorem nameText_of_mem {name : Text} (h : name ∈ statusNames) :
    NameText name ∧ ¬ marker <+: name := by
  have hwords : ∀ name ∈ statusNames, (name.all fun c => c.isAlpha || c == '-') = true := by
    decide
  have hheads : ∀ name ∈ statusNames, name.head? ≠ some '-' := by
    decide
  have hword : Word name := fun c hc => by
    simpa using List.all_eq_true.mp (hwords name h) c hc
  refine ⟨hword.nameText, fun hbegins => hheads name h ?_⟩
  obtain ⟨rest, hrest⟩ := hbegins
  rw [← hrest]
  rfl

theorem get?_statusFields {name : Text} (h : name ∈ statusNames) :
    (statusFields fields).get? name = statusValue fields name :=
  Dict.get?_filterMap _ fun hn => absurd h hn

theorem statusValue_of_ne {name value : Text} (hstatus : name ≠ "Status".toList)
    (h : fields.get? name = some value) (hvalue : value ≠ []) :
    statusValue fields name = some value := by
  unfold statusValue
  rw [Dict.get?_set, if_neg hstatus, h]
  exact if_pos (decide_eq_true hvalue)

theorem keys_statusFields (fields : Paragraph) : (statusFields fields).keys =
    statusNames.filter fun name => (statusValue fields name).isSome := by
  unfold statusFields Dict.keys
  induction statusNames with
  | nil => rfl
  | cons name names ih =>
    rw [List.filterMap_cons, List.filter_cons]
    cases hvalue : statusValue fields name with
    | none => exact ih
    | some value => exact congrArg (name :: ·) ih

/-- What is registered is a paragraph that is read back. -/
theorem parsed_statusFields (h : Stated fields) : Parsed (statusFields fields) := by
  have hinstalled : ValueText "install ok installed".toList := by
    have hall : ("install ok installed".toList.all fun c => !Lines.isBreak c) = true := by
      decide
    refine ⟨fun c hc hbreak => ?_, fun c hc hspace => ?_⟩
    · have hc := List.all_eq_true.mp hall c hc
      rw [hbreak] at hc
      cases hc
    · obtain rfl : 'i' = c := Option.some.inj hc
      exact absurd hspace (by decide)
  have hmem : "Status".toList ∈ statusNames := by decide
  have hstated : Stated (fields.set "Status".toList "install ok installed".toList) :=
    h.set (nameText_of_mem hmem).1 hinstalled
  have hitem : ∀ item ∈ (statusFields fields).items,
      item.1 ∈ statusNames ∧ statusValue fields item.1 = some item.2 := by
    intro item hitem
    obtain ⟨name, hname, hvalue⟩ := List.mem_filterMap.mp hitem
    obtain ⟨value, hsome, rfl⟩ := Option.map_eq_some_iff.mp hvalue
    exact ⟨hname, hsome⟩
  have hstatus : statusValue fields "Status".toList = some "install ok installed".toList := by
    unfold statusValue
    rw [Dict.get?_set, if_pos rfl]
    rfl
  have hkeys := keys_statusFields fields
  have hne : (statusFields fields).keys ≠ [] := by
    rw [hkeys]
    refine List.ne_nil_of_mem (List.mem_filter.mpr ⟨hmem, ?_⟩)
    rw [hstatus]
    rfl
  obtain ⟨first, rest, hcons⟩ := List.exists_cons_of_ne_nil hne
  have hfirst : first ∈ statusNames := by
    have hin : first ∈ (statusFields fields).keys := by
      rw [hcons]
      exact List.mem_cons_self
    rw [hkeys] at hin
    exact List.mem_of_mem_filter hin
  refine ⟨⟨?_, fun item hmem => (nameText_of_mem (hitem item hmem).1).1, fun item hmem => ?_⟩,
    first, by rw [hcons]; rfl, (nameText_of_mem hfirst).2⟩
  · rw [hkeys]
    exact List.Nodup.filter _ (by decide +kernel)
  · obtain ⟨hget, _⟩ := Option.filter_eq_some_iff.mp (hitem item hmem).2
    exact hstated.values _ (Dict.mem_items_of_get? hget)

/-- A registered package is found under the key it was registered under. -/
theorem packageKey_ok (h : Named fields) :
    ∃ key, packageKey fields = .ok key ∧ installedKey (statusFields fields) = .ok key := by
  obtain ⟨package, hpackage, hpackageNe⟩ := h.package
  obtain ⟨architecture, harchitecture, harchitectureNe⟩ := h.architecture
  have hfield : ∀ {name : String} {value : Text} {of : Paragraph},
      of.get? name.toList = some value → field of name = .ok value := by
    intro name value of hget
    unfold field
    rw [hget]
    rfl
  have hpackage' : (statusFields fields).get? "Package".toList = some package := by
    rw [get?_statusFields (by decide), statusValue_of_ne (by decide) hpackage hpackageNe]
  have harchitecture' : (statusFields fields).get? "Architecture".toList = some architecture := by
    rw [get?_statusFields (by decide),
      statusValue_of_ne (by decide) harchitecture harchitectureNe]
  have hsame : SameArch (statusFields fields) ↔ SameArch fields := by
    unfold SameArch
    rw [get?_statusFields (by decide)]
    constructor
    · intro he
      unfold statusValue at he
      obtain ⟨hget, _⟩ := Option.filter_eq_some_iff.mp he
      rwa [Dict.get?_set, if_neg (by decide)] at hget
    · intro hget
      exact statusValue_of_ne (by decide) hget (by decide)
  unfold packageKey installedKey
  rw [hfield hpackage, hfield harchitecture, hfield hpackage', hfield harchitecture']
  by_cases hs : SameArch fields
  · refine ⟨package ++ ':' :: architecture, ?_, ?_⟩
    · show (if SameArch fields then _ else _) = _
      rw [if_pos hs]
      rfl
    · show (if SameArch (statusFields fields) then _ else _) = _
      rw [if_pos (hsame.mpr hs)]
      rfl
  · refine ⟨package, ?_, ?_⟩
    · show (if SameArch fields then _ else _) = _
      rw [if_neg hs]
      rfl
    · show (if SameArch (statusFields fields) then _ else _) = _
      rw [if_neg (mt hsame.mp hs)]
      rfl

/-! ### What the entries are -/

/-- The key of a package is its name, and its architecture with it where it can be installed for
    several. -/
def HasKey (fields : Paragraph) (key : Text) : Prop :=
  ∃ package ∈ fields.get? "Package".toList,
    if fields.get? "Multi-Arch".toList = some "same".toList then
      ∃ architecture ∈ fields.get? "Architecture".toList,
        key = package ++ ":".toList ++ architecture
    else key = package

/-- The record of an installed package: of the fields that dpkg keeps those its control text gives
    and does not leave empty, each as it is given, and the status. -/
structure RecordOf (given fields : Paragraph) : Prop where
  nodup : fields.keys.Nodup
  fields : ∀ name value, fields.get? name = some value ↔
    name ∈ ["Package", "Essential", "Status", "Priority", "Section", "Installed-Size",
      "Maintainer", "Architecture", "Multi-Arch", "Source", "Version", "Replaces", "Provides",
      "Pre-Depends", "Depends", "Conflicts", "Breaks", "Description"].map String.toList ∧
    value ≠ [] ∧
    (if name = "Status".toList then value = "install ok installed".toList
      else given.get? name = some value)

/-- An entry that registers the package of a control text. -/
def Registers (deb : Text) (entry : Entry) : Prop :=
  ∃ given, parseControl deb = .ok given ∧ HasKey given entry.1 ∧ RecordOf given entry.2

theorem field_ok {name : String} {value : Text} :
    field fields name = .ok value ↔ value ∈ fields.get? name.toList := by
  unfold field needed
  cases fields.get? name.toList with
  | none => exact ⟨fun h => (nomatch h), fun h => (nomatch h)⟩
  | some other =>
    exact ⟨fun h => congrArg some (Except.ok.inj h), fun h => congrArg _ (Option.some.inj h)⟩

theorem installedKey_iff {key : Text} : installedKey fields = .ok key ↔ HasKey fields key := by
  have happend (package architecture : Text) :
      package ++ ":".toList ++ architecture = package ++ ':' :: architecture :=
    List.append_assoc _ _ _
  unfold installedKey HasKey
  rw [Raise.bind_ok]
  refine exists_congr fun package => and_congr field_ok ?_
  by_cases hsame : fields.get? "Multi-Arch".toList = some "same".toList
  · rw [if_pos (show SameArch fields from hsame), if_pos hsame, Raise.bind_ok]
    refine exists_congr fun architecture => and_congr field_ok ?_
    rw [happend]
    exact ⟨fun h => (Except.ok.inj h).symm, fun h => congrArg _ h.symm⟩
  · rw [if_neg (show ¬ SameArch fields from hsame), if_neg hsame]
    exact ⟨fun h => (Except.ok.inj h).symm, fun h => congrArg _ h.symm⟩

theorem hasKey_of_packageKey {key : Text} (h : packageKey fields = .ok key) :
    HasKey fields key := by
  obtain ⟨package, hpackage, h⟩ := Raise.bind_ok.mp h
  obtain ⟨architecture, harchitecture, h⟩ := Raise.bind_ok.mp h
  refine installedKey_iff.mp ?_
  unfold installedKey
  rw [hpackage]
  show (if SameArch fields then _ else _) = _
  rw [← h, harchitecture]
  rfl

theorem recordOf_statusFields (fields : Paragraph) : RecordOf fields (statusFields fields) where
  nodup := by
    rw [keys_statusFields]
    exact List.Nodup.filter _ (by decide +kernel)
  fields name value := by
    by_cases hname : name ∈ statusNames
    · rw [get?_statusFields hname]
      unfold statusValue
      rw [Option.filter_eq_some_iff, Dict.get?_set, decide_eq_true_iff]
      refine ⟨fun h => ⟨hname, h.2, ?_⟩, fun h => ⟨?_, h.2.1⟩⟩
      · have hget := h.1
        split_ifs at hget ⊢
        · exact (Option.some.inj hget).symm
        · exact hget
      · have hvalue := h.2.2
        split_ifs at hvalue ⊢
        · exact congrArg some hvalue.symm
        · exact hvalue
    · refine ⟨fun h => absurd ?_ hname, fun h => absurd h.1 hname⟩
      have hkey : name ∈ (statusFields fields).keys :=
        Dict.mem_keys_iff.mpr (Option.isSome_of_eq_some h)
      rw [keys_statusFields] at hkey
      exact List.mem_of_mem_filter hkey

/-- The control text of a package that can be registered. -/
def Registrable (deb : Text) : Prop := ∃ fields, debFields deb = .ok fields ∧ Named fields

theorem exists_registeredEntry {deb : Text} (h : Registrable deb) :
    ∃ entry, registeredEntry deb = .ok entry ∧ Registers deb entry ∧ Parsed entry.2 ∧
      installedKey entry.2 = .ok entry.1 := by
  obtain ⟨fields, hfields, hnamed⟩ := h
  obtain ⟨key, hkey, hinstalled⟩ := packageKey_ok hnamed
  refine ⟨(key, statusFields fields), ?_, ⟨fields, hfields, hasKey_of_packageKey hkey,
    recordOf_statusFields fields⟩, parsed_statusFields (stated_of_parseControl hfields),
    hinstalled⟩
  unfold registeredEntry
  rw [hfields]
  show (packageKey fields >>= _) = _
  rw [hkey]
  rfl

theorem exists_registered (h : ∀ deb ∈ debs, Registrable deb) :
    ∃ registered, debs.mapM registeredEntry = .ok registered ∧ Recorded registered ∧
      List.Forall₂ Registers debs registered := by
  obtain ⟨registered, hregistered, hall⟩ :=
    Lists.exists_mapM fun deb hdeb => exists_registeredEntry (h deb hdeb)
  refine ⟨registered, hregistered, fun entry hentry => ?_, hall.imp fun _ _ h => h.1⟩
  obtain ⟨deb, hdeb, hread⟩ := Lists.exists_of_mapM_ok hregistered hentry
  obtain ⟨_, hread', _, hrecorded⟩ := exists_registeredEntry (h deb hdeb)
  obtain rfl := Except.ok.inj (hread.symm.trans hread')
  exact hrecorded

end Registered

/-! ## Runs -/

/-- Runs on what others wrote, one after another. -/
theorem registerRuns_statusText {entries : List Entry} (h : Recorded entries)
    {runs : List (List Text)} (hruns : ∀ debs ∈ runs, ∀ deb ∈ debs, Registrable deb) :
    ∃ registered, Recorded registered ∧ List.Forall₂ Registers runs.flatten registered ∧
      registerRuns (some (statusText entries)) runs =
        .ok (some (statusText (entries ++ registered))) := by
  induction runs generalizing entries with
  | nil =>
    refine ⟨[], fun _ he => (nomatch he), .nil, ?_⟩
    rw [List.append_nil]
    rfl
  | cons debs runs ih =>
    obtain ⟨hdebs, hruns⟩ := List.forall_mem_cons.mp hruns
    obtain ⟨first, hfirst, hrecorded, hregisters⟩ := exists_registered hdebs
    have hboth : Recorded (entries ++ first) := List.forall_mem_append.mpr ⟨h, hrecorded⟩
    obtain ⟨rest, hrecordedRest, hregistersRest, hrun⟩ := ih hboth hruns
    refine ⟨first ++ rest, List.forall_mem_append.mpr ⟨hrecorded, hrecordedRest⟩,
      List.rel_append hregisters hregistersRest, ?_⟩
    unfold registerRuns at hrun ⊢
    rw [List.foldlM_cons, registerDebs_statusText h hfirst, ← List.append_assoc, ← hrun]
    rfl

/-- **Status records survive.** Paragraphs that were parsed and written are parsed to the same
    field maps; and after any runs the status file parses to one paragraph for each package
    key, which is the record of the last package registered under it, or else the last paragraph
    that was there. -/
theorem status_records_survive :
    (∀ text paragraphs, parseControlParagraphs text = .ok paragraphs →
      parseControlParagraphs (formatParagraphs paragraphs) = .ok paragraphs) ∧
    ∀ (status : Option Text) (originals : List Entry) (debs : List Text) (runs : List (List Text)),
      existingParagraphs status = .ok (originals.map Prod.snd) →
      (∀ entry ∈ originals, HasKey entry.2 entry.1) →
      (∀ deb ∈ (debs :: runs).flatten, Registrable deb) →
      ∃ registered text entries,
        List.Forall₂ Registers (debs :: runs).flatten registered ∧
        registerRuns status (debs :: runs) = .ok (some text) ∧
        parseControlParagraphs text = .ok (entries.map Prod.snd) ∧
        (∀ entry ∈ entries, HasKey entry.2 entry.1) ∧ (entries.map Prod.fst).Nodup ∧
        ∀ key, (⟨entries⟩ : Dict Text Paragraph).get? key =
          ((Dict.valuesAt registered key).getLast?).or (Dict.valuesAt originals key).getLast? := by
  refine ⟨fun text paragraphs h =>
    parse_formatParagraphs (parsed_of_parseControlParagraphs h), ?_⟩
  intro status originals debs runs hstatus hkeys hregistrable
  have hall : ∀ run ∈ debs :: runs, ∀ deb ∈ run, Registrable deb :=
    fun run hrun deb hdeb => hregistrable deb (List.mem_flatten.mpr ⟨run, hrun, hdeb⟩)
  obtain ⟨hdebs, hruns⟩ := List.forall_mem_cons.mp hall
  obtain ⟨first, hfirst, hrecordedFirst, hregisters⟩ := exists_registered hdebs
  have horiginals : (originals.map Prod.snd).mapM installedEntry = .ok originals :=
    mapM_installedEntry fun entry hentry => installedKey_iff.mpr (hkeys entry hentry)
  have hrecorded : Recorded (originals ++ first) :=
    List.forall_mem_append.mpr ⟨recorded_originals hstatus horiginals, hrecordedFirst⟩
  obtain ⟨rest, hrecordedRest, hregistersRest, hrun⟩ := registerRuns_statusText hrecorded hruns
  have hentries : Recorded (originals ++ first ++ rest) :=
    List.forall_mem_append.mpr ⟨hrecorded, hrecordedRest⟩
  refine ⟨first ++ rest, _, _, List.rel_append hregisters hregistersRest, ?_,
    parse_statusText hentries, fun entry hentry => installedKey_iff.mp
      (hentries.installedKey hentry), nodup_sorted (nodup_record _), fun key => ?_⟩
  · unfold registerRuns at hrun ⊢
    rw [List.foldlM_cons, registerDebs_ok hstatus horiginals hfirst, ← hrun]
    rfl
  · show (sorted (record (originals ++ first ++ rest))).get? key = _
    rw [get?_sorted, get?_record, List.append_assoc]
    unfold Dict.valuesAt
    rw [List.filter_append, List.map_append, List.getLast?_append]

def baseFields : Paragraph :=
  ⟨[("Package".toList, "base".toList), ("Multi-Arch".toList, "same".toList),
    ("Architecture".toList, "amd64".toList)]⟩

/-- A package registered twice, beside one that was there. -/
theorem status_records_survive_hello :
    ∃ registered text entries, List.Forall₂ Registers
        ["Package: hello\nArchitecture: all\n".toList,
          "Package: hello\nArchitecture: all\nDescription: a\n b\n".toList] registered ∧
      registerRuns (some "Package: base\nMulti-Arch: same\nArchitecture: amd64\n".toList)
        [["Package: hello\nArchitecture: all\n".toList],
          ["Package: hello\nArchitecture: all\nDescription: a\n b\n".toList]] = .ok (some text) ∧
      parseControlParagraphs text = .ok (entries.map Prod.snd) ∧
      (∀ entry ∈ entries, HasKey entry.2 entry.1) ∧ (entries.map Prod.fst).Nodup ∧
      ∀ key, (⟨entries⟩ : Dict Text Paragraph).get? key =
        ((Dict.valuesAt registered key).getLast?).or
          (Dict.valuesAt [("base:amd64".toList, baseFields)] key).getLast? := by
  have hregistrable : ∀ deb ∈ [["Package: hello\nArchitecture: all\n".toList],
      ["Package: hello\nArchitecture: all\nDescription: a\n b\n".toList]].flatten,
      Registrable deb := by
    refine List.forall_mem_cons.mpr ⟨?_, List.forall_mem_singleton.mpr ?_⟩
    · exact ⟨⟨[("Package".toList, "hello".toList), ("Architecture".toList, "all".toList)]⟩, rfl,
        ⟨_, rfl, by decide⟩, ⟨_, rfl, by decide⟩⟩
    · exact ⟨⟨[("Package".toList, "hello".toList), ("Architecture".toList, "all".toList),
        ("Description".toList, "a\nb".toList)]⟩, rfl, ⟨_, rfl, by decide⟩, ⟨_, rfl, by decide⟩⟩
  have hbase : HasKey baseFields "base:amd64".toList := by
    refine ⟨"base".toList, rfl, ?_⟩
    rw [if_pos (by decide)]
    exact ⟨"amd64".toList, rfl, rfl⟩
  exact status_records_survive.2 _ [("base:amd64".toList, baseFields)] _ _ rfl
    (List.forall_mem_singleton.mpr hbase) hregistrable

end BuckosDistro.Debian
