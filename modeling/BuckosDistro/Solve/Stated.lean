/-
  The Requires of a package, from the repodata to the text the solver reads.

  An entry of a `<rpm:requires>` holds a capability and, in attributes, the bound on its
  version. `_parse_package_elem` keeps the two in different lists, and `constrained_requires`
  puts them together again by the capability. A capability that is listed under two bounds,
  or once with a bound and once without, gets the first bound each time.
-/
import BuckosDistro.Depgraph.Spelled
import BuckosDistro.Solve.Records

namespace BuckosDistro.Solve

open BuckosDistro.Lib BuckosDistro.Depgraph

/-! ## Entries -/

/-- The attributes of a `<rpm:entry>`. -/
structure RequiresEntry where
  name : Option String
  flags : Option String
  epoch : Option String
  ver : Option String
  rel : Option String
deriving DecidableEq, Repr

/-- One pass of the loop over the entries of `_parse_package_elem`: `requires` and
    `require_ranges`. -/
def readEntry (sinks : List String × List (String × Option String × Evr))
    (entry : RequiresEntry) : List String × List (String × Option String × Evr) :=
  match entry.name with
  | none | some "" => sinks
  | some cap =>
    match entry.ver with
    | none => (sinks.1 ++ [cap], sinks.2)
    | some ver =>
      (sinks.1 ++ [cap], sinks.2 ++ [(cap, entry.flags, ⟨entry.epoch, some ver, entry.rel⟩)])

def requiresSinks (entries : List RequiresEntry) :
    List String × List (String × Option String × Evr) :=
  entries.foldl readEntry ([], [])

/-- The record of a package whose metadata lists these Requires. -/
def PackageRecord.withRequires (pkg : PackageRecord) (entries : List RequiresEntry) :
    PackageRecord :=
  { pkg with
    requires := (requiresSinks entries).1
    requireRanges := (requiresSinks entries).2 }

/-! ## What the entries state -/

/-- A capability, with the flags and the version of its bound when it has one. -/
structure Requirement where
  cap : String
  bound : Option (Option String × Evr)
deriving DecidableEq, Repr

/-- What an entry that names a capability states. -/
def RequiresEntry.states (entry : RequiresEntry) : Option Requirement :=
  match entry.name with
  | none | some "" => none
  | some cap =>
    some ⟨cap, entry.ver.map fun ver => (entry.flags, ⟨entry.epoch, some ver, entry.rel⟩)⟩

def requirements (entries : List RequiresEntry) : List Requirement :=
  entries.filterMap RequiresEntry.states

/-- The range of a requirement as `require_ranges` holds it. -/
def Requirement.range (r : Requirement) : Option (String × Option String × Evr) :=
  r.bound.map fun bound => (r.cap, bound)

theorem readEntry_eq (sinks : List String × List (String × Option String × Evr))
    (entry : RequiresEntry) :
    readEntry sinks entry =
      (sinks.1 ++ (entry.states.map Requirement.cap).toList,
        sinks.2 ++ (entry.states.bind Requirement.range).toList) := by
  obtain ⟨name, flags, epoch, ver, rel⟩ := entry
  unfold readEntry RequiresEntry.states
  dsimp only
  split
  · simp
  · simp
  · cases ver <;> simp [Requirement.range]

/-- The two lists, from what the entries state. -/
theorem requiresSinks_eq (entries : List RequiresEntry) :
    requiresSinks entries =
      ((requirements entries).map Requirement.cap,
        (requirements entries).filterMap Requirement.range) := by
  have hloop : ∀ (entries : List RequiresEntry) sinks, entries.foldl readEntry sinks =
      (sinks.1 ++ (requirements entries).map Requirement.cap,
        sinks.2 ++ (requirements entries).filterMap Requirement.range) := by
    intro entries
    induction entries with
    | nil => intro sinks; simp [requirements]
    | cons entry entries ih =>
      intro sinks
      rw [List.foldl_cons, ih, readEntry_eq]
      unfold requirements
      cases h : entry.states with
      | none => simp [h]
      | some r => cases hr : r.range <;> simp [h, hr]
  exact (hloop entries ([], [])).trans (by simp)

/-! ## Versions -/

/-- The parts of a version that mean something: epoch zero is no epoch, and an empty release
    is none. -/
def statedEvr (evr : Evr) : Evr :=
  ⟨evr.epoch.filter fun epoch => epoch ≠ "" ∧ epoch ≠ "0", evr.version, statedPart evr.release⟩

theorem statedEvr_version (evr : Evr) : (statedEvr evr).version = evr.version := rfl

/-- The epoch as the text shows it. -/
def epochText (evr : Evr) : String :=
  match (statedEvr evr).epoch with
  | none => ""
  | some epoch => epoch ++ ":"

/-- The release as the text shows it. -/
def releaseText (evr : Evr) : String :=
  match (statedEvr evr).release with
  | none => ""
  | some release => "-" ++ release

theorem releaseText_of_ne {release : String} (h : release ≠ "") (epoch version : Option String) :
    releaseText ⟨epoch, version, some release⟩ = "-" ++ release := by
  unfold releaseText statedEvr statedPart
  rw [Option.filter_some, if_pos (decide_eq_true h)]

theorem epochText_of_ne {epoch : String} (h : epoch ≠ "") (hzero : epoch ≠ "0")
    (version release : Option String) :
    epochText ⟨some epoch, version, release⟩ = epoch ++ ":" := by
  unfold epochText statedEvr
  rw [Option.filter_some, if_pos (decide_eq_true ⟨h, hzero⟩)]

/-- The text of a version, from its parts. -/
theorem rangeText_eq (evr : Evr) :
    rangeText evr = epochText evr ++ (evr.version.getD "None" ++ releaseText evr) := by
  obtain ⟨epoch, version, release⟩ := evr
  have hrelease : rangeText ⟨none, version, release⟩ =
      version.getD "None" ++ releaseText ⟨epoch, version, release⟩ := by
    unfold rangeText
    dsimp only
    split
    · exact String.append_empty.symm
    · exact String.append_empty.symm
    · rename_i text hne
      rw [releaseText_of_ne (fun he => hne he), String.append_assoc]
  show _ = _ ++ (version.getD "None" ++ _)
  rw [← hrelease]
  cases epoch with
  | none => exact String.empty_append.symm
  | some epoch =>
    by_cases he : epoch = ""
    · rw [he]
      exact String.empty_append.symm
    by_cases hzero : epoch = "0"
    · rw [hzero]
      exact String.empty_append.symm
    rw [epochText_of_ne he hzero]
    unfold rangeText
    simp only

theorem rangeText_congr {evr evr' : Evr} (h : statedEvr evr = statedEvr evr') :
    rangeText evr = rangeText evr' := by
  have hversion : evr.version = evr'.version := by
    rw [← statedEvr_version, h, statedEvr_version]
  rw [rangeText_eq, rangeText_eq, hversion]
  unfold epochText releaseText
  rw [h]

/-- A version that is read back from its text. -/
structure Legible (evr : Evr) (version : String) : Prop where
  trimmed : PyText.strip (rangeText evr).toList = (rangeText evr).toList
  epoch : ∀ epoch ∈ (statedEvr evr).epoch, ':' ∉ epoch.toList
  noEpoch : (statedEvr evr).epoch = none → ':' ∉ (rangeText evr).toList
  version : '-' ∉ version.toList

theorem epoch_of_stated {evr : Evr} {epoch : String} (h : (statedEvr evr).epoch = some epoch) :
    evr.epoch = some epoch :=
  (Option.eq_some_of_filter_eq_some h)

theorem release_of_stated {evr : Evr} {release : String}
    (h : (statedEvr evr).release = some release) : evr.release = some release :=
  (Option.eq_some_of_filter_eq_some h)

theorem statedEvr_statedEvr (evr : Evr) : statedEvr (statedEvr evr) = statedEvr evr := by
  unfold statedEvr statedPart
  dsimp only
  rw [Option.filter_filter, Option.filter_filter]
  simp only [Bool.and_self]

/-! ## Reading a version back -/

/-- The version and the release in the text behind the epoch. -/
def versionParts (epoch : Option String) (rest : List Char) : Evr :=
  ⟨epoch, some (String.ofList (PyText.partition '-' rest).1),
    (PyText.partition '-' rest).2.map String.ofList⟩

theorem evrParts_of_epoch {epoch : List Char} (h : ':' ∉ epoch) (rest : List Char) :
    evrParts (String.ofList (epoch ++ ':' :: rest)) =
      versionParts (some (String.ofList epoch)) rest := by
  unfold evrParts versionParts
  rw [String.toList_ofList, PyText.partition_append h]

theorem evrParts_of_noEpoch {text : List Char} (h : ':' ∉ text) :
    evrParts (String.ofList text) = versionParts none text := by
  unfold evrParts versionParts
  rw [String.toList_ofList, PyText.partition_of_notMem h]

theorem versionParts_append {version : List Char} (h : '-' ∉ version) (evr : Evr)
    (epoch : Option String) :
    versionParts epoch (version ++ (releaseText evr).toList) =
      ⟨epoch, some (String.ofList version), (statedEvr evr).release⟩ := by
  unfold versionParts
  cases hrelease : (statedEvr evr).release with
  | none =>
    have hnone : (releaseText evr).toList = [] := by
      unfold releaseText
      rw [hrelease]
      rfl
    rw [hnone, List.append_nil, PyText.partition_of_notMem h]
    rfl
  | some release =>
    have hdash : (releaseText evr).toList = '-' :: release.toList := by
      unfold releaseText
      rw [hrelease]
      exact String.toList_append
    rw [hdash, PyText.partition_append h, Option.map_some, String.ofList_toList]

/-- The text of a legible version has its parts. -/
theorem evrParts_rangeText {evr : Evr} {version : String} (hversion : evr.version = some version)
    (h : Legible evr version) : evrParts (rangeText evr) = statedEvr evr := by
  have hstated : statedEvr evr =
      ⟨(statedEvr evr).epoch, some (String.ofList version.toList), (statedEvr evr).release⟩ := by
    rw [String.ofList_toList, ← hversion]
    rfl
  have htext := rangeText_eq evr
  rw [hversion, Option.getD_some] at htext
  cases hepoch : (statedEvr evr).epoch with
  | none =>
    have hnone : epochText evr = "" := by
      unfold epochText
      rw [hepoch]
    have hlist : (rangeText evr).toList = version.toList ++ (releaseText evr).toList := by
      rw [htext, hnone, String.empty_append, String.toList_append]
    rw [← String.ofList_toList (s := rangeText evr), evrParts_of_noEpoch (h.noEpoch hepoch), hlist,
      versionParts_append h.version, hstated, hepoch]
  | some epoch =>
    have hsome : epochText evr = epoch ++ ":" := by
      unfold epochText
      rw [hepoch]
    have hlist : (rangeText evr).toList =
        epoch.toList ++ ':' :: (version.toList ++ (releaseText evr).toList) := by
      rw [htext, hsome]
      simp
    rw [← String.ofList_toList (s := rangeText evr), hlist,
      evrParts_of_epoch (h.epoch epoch hepoch),
      versionParts_append h.version, String.ofList_toList, hstated, hepoch]

/-! ## What a version that is read back says of its text -/

theorem length_releaseText_le (epoch version : Option String) (release : List Char) :
    (releaseText ⟨epoch, version, some (String.ofList release)⟩).length ≤ release.length + 1 := by
  unfold releaseText
  cases h : (statedEvr ⟨epoch, version, some (String.ofList release)⟩).release with
  | none => exact Nat.zero_le _
  | some text =>
    show ("-" ++ text).length ≤ _
    rw [← Option.some.inj (release_of_stated h), String.length_append]
    show 1 + (String.ofList release).length ≤ _
    rw [String.length_ofList, Nat.add_comm]

theorem length_versionParts_le (epoch : Option String) (rest : List Char) :
    ((versionParts epoch rest).version.getD "None" ++
      releaseText (versionParts epoch rest)).length ≤ rest.length := by
  unfold versionParts
  rw [String.length_append, Option.getD_some, String.length_ofList]
  cases htail : (PyText.partition '-' rest).2 with
  | none =>
    exact (PyText.partition_sublist '-' rest).1.length_le
  | some tail =>
    have hrest := congrArg List.length (PyText.eq_append_of_partition htail)
    have hrelease := length_releaseText_le epoch
      (some (String.ofList (PyText.partition '-' rest).1)) tail
    rw [List.length_append, List.length_cons] at hrest
    rw [Option.map_some]
    omega

theorem length_epochText_le (epoch : List Char) (version release : Option String) :
    (epochText ⟨some (String.ofList epoch), version, release⟩).length ≤ epoch.length + 1 := by
  unfold epochText
  cases h : (statedEvr ⟨some (String.ofList epoch), version, release⟩).epoch with
  | none => exact Nat.zero_le _
  | some text =>
    show (text ++ ":").length ≤ _
    rw [← Option.some.inj (epoch_of_stated h), String.length_append, String.length_ofList]
    exact le_rfl

/-- A text is no shorter than what is written for its parts, and longer when it states an
    epoch that means nothing. -/
theorem length_rangeText_evrParts (text : List Char) :
    (rangeText (evrParts (String.ofList text))).length ≤ text.length ∧
      (':' ∈ text → (statedEvr (evrParts (String.ofList text))).epoch = none →
        (rangeText (evrParts (String.ofList text))).length < text.length) := by
  by_cases hcolon : ':' ∈ text
  · obtain ⟨epoch, rest, hepoch, htext⟩ :
      ∃ epoch rest, ':' ∉ epoch ∧ text = epoch ++ ':' :: rest := by
      obtain ⟨epoch, rest, htext, hepoch⟩ := List.eq_append_cons_of_mem hcolon
      exact ⟨epoch, rest, hepoch, htext⟩
    have hparts := length_versionParts_le (some (String.ofList epoch)) rest
    rw [htext, evrParts_of_epoch hepoch, rangeText_eq, String.length_append, List.length_append,
      List.length_cons]
    have hlen : (epochText (versionParts (some (String.ofList epoch)) rest)).length ≤
        epoch.length + 1 := length_epochText_le epoch _ _
    refine ⟨by omega, fun _ hnone => ?_⟩
    have hempty : (epochText (versionParts (some (String.ofList epoch)) rest)).length = 0 := by
      unfold epochText
      rw [hnone]
      rfl
    omega
  · refine ⟨?_, fun h => absurd h hcolon⟩
    have hparts := length_versionParts_le none text
    rw [evrParts_of_noEpoch hcolon, rangeText_eq]
    have hempty : epochText (versionParts none text) = "" := rfl
    rw [hempty, String.empty_append]
    exact hparts

theorem version_of_evrParts {text version : String} (h : (evrParts text).version = some version) :
    '-' ∉ version.toList := by
  have hfst : ∃ rest, (evrParts text).version =
      some (String.ofList (PyText.partition '-' rest).1) := by
    unfold evrParts
    split
    exact ⟨_, rfl⟩
  obtain ⟨rest, hrest⟩ := hfst
  rw [hrest] at h
  rw [← Option.some.inj h, String.toList_ofList]
  exact PyText.partition_fst '-' rest

theorem epoch_of_evrParts {text epoch : String} (h : (evrParts text).epoch = some epoch) :
    ':' ∉ epoch.toList := by
  by_cases hcolon : ':' ∈ text.toList
  · obtain ⟨first, rest, htext, hfirst⟩ := List.eq_append_cons_of_mem hcolon
    rw [← String.ofList_toList (s := text), htext, evrParts_of_epoch hfirst] at h
    rw [← Option.some.inj h, String.toList_ofList]
    exact hfirst
  · rw [← String.ofList_toList (s := text), evrParts_of_noEpoch hcolon] at h
    cases h

/-- **A version reads back from its text** exactly when it is legible. -/
theorem statedEvr_evrParts_iff {evr : Evr} {version : String}
    (hversion : evr.version = some version) :
    statedEvr (evrParts (stripText (rangeText evr))) = statedEvr evr ↔ Legible evr version := by
  constructor
  · intro h
    have htext := rangeText_congr h
    have hread : String.ofList (PyText.strip (rangeText evr).toList) =
        stripText (rangeText evr) := rfl
    have hlen := length_rangeText_evrParts (PyText.strip (rangeText evr).toList)
    rw [hread, htext, h] at hlen
    have hstrip : PyText.strip (rangeText evr).toList = (rangeText evr).toList :=
      (PyText.strip_sublist (rangeText evr).toList).eq_of_length_le hlen.1
    refine ⟨hstrip, fun epoch he => ?_, fun hnone hcolon => ?_, ?_⟩
    · rw [← h] at he
      exact epoch_of_evrParts (epoch_of_stated he)
    · rw [hstrip] at hlen
      exact absurd (hlen.2 hcolon hnone) (Nat.lt_irrefl _)
    · have hv := congrArg Evr.version h
      rw [statedEvr_version, statedEvr_version, hversion] at hv
      exact version_of_evrParts hv
  · intro h
    have hstrip : stripText (rangeText evr) = rangeText evr := stripText_eq_iff.mpr h.trimmed
    rw [hstrip, evrParts_rangeText hversion h, statedEvr_statedEvr]

/-! ## The ranges of a package -/

/-- The text states the capability and the bound of a requirement: it splits into these, with
    a version that has the parts of the bound's. -/
def Gives (element : String) (r : Requirement) : Prop :=
  match r.bound with
  | none => splitConstraint element = (r.cap, none)
  | some (flags, evr) => ∃ op wanted, rpmFlagOp flags = some op ∧
      splitConstraint element = (r.cap, some (op, wanted)) ∧
      statedEvr (evrParts wanted) = statedEvr evr

/-- No stated range is lost: entry for entry, the Requires of the solver give back what the
    metadata states. -/
def RangesKept (pkg : PackageRecord) (entries : List RequiresEntry) : Prop :=
  List.Forall₂ Gives (constrainedRequires (pkg.withRequires entries)) (requirements entries)

/-- Two requirements with the same bound, for the comparison and the parts that mean
    something. -/
def SameBound (r r' : Requirement) : Prop :=
  (r.bound.map fun bound => (rpmFlagOp bound.1, statedEvr bound.2)) =
    r'.bound.map fun bound => (rpmFlagOp bound.1, statedEvr bound.2)

/-- A requirement whose text has nothing in it that the readers mistake for a separator, and
    whose flags name a comparison. -/
def Clear (r : Requirement) : Prop :=
  match r.bound with
  | none => PlainName r.cap
  | some (flags, evr) => ∃ op version, rpmFlagOp flags = some op ∧ evr.version = some version ∧
      Apart r.cap op (rangeText evr) ∧ Legible evr version

/-- No capability is listed under two bounds, and each requirement is clear. -/
structure RangesApart (entries : List RequiresEntry) : Prop where
  alike : ∀ r ∈ requirements entries, ∀ r' ∈ requirements entries, r.cap = r'.cap → SameBound r r'
  clear : ∀ r ∈ requirements entries, Clear r

section Ranges

variable {entries : List RequiresEntry}

/-- The text `constrained_requires` makes of a range. -/
def rangeItem (range : String × Option String × Evr) : Option (String × String) :=
  (rpmFlagOp range.2.1).map fun op => (range.1, spelled range.1 op (rangeText range.2.2))

theorem constrainedRanges_eq (pkg : PackageRecord) :
    constrainedRanges pkg =
      (pkg.requireRanges.filterMap rangeItem).foldl
        (fun ranges item => ranges.setDefault item.1 item.2) Dict.empty := by
  rw [List.foldl_filterMap]
  unfold constrainedRanges
  congr 1
  funext ranges range
  unfold rangeItem
  cases rpmFlagOp range.2.1 <;> rfl

/-- The text the solver reads for a capability. -/
def element (entries : List RequiresEntry) (cap : String) : String :=
  (((requirements entries).filterMap fun r => r.range.bind rangeItem).lookup cap).getD cap

theorem constrainedRequires_eq (pkg : PackageRecord) (entries : List RequiresEntry) :
    constrainedRequires (pkg.withRequires entries) =
      (requirements entries).map fun r => element entries r.cap := by
  have hget : ∀ cap, (constrainedRanges (pkg.withRequires entries)).getD cap cap =
      element entries cap := by
    intro cap
    unfold Dict.getD
    rw [constrainedRanges_eq, Dict.get?_foldl_setDefault]
    show ((((requiresSinks entries).2.filterMap rangeItem).lookup cap).getD cap) = _
    rw [requiresSinks_eq, List.filterMap_filterMap]
    rfl
  unfold constrainedRequires
  simp only [hget]
  show (requiresSinks entries).1.map _ = _
  rw [requiresSinks_eq, List.map_map]
  rfl

theorem rangesKept_iff_forall (pkg : PackageRecord) (entries : List RequiresEntry) :
    RangesKept pkg entries ↔
      ∀ r ∈ requirements entries, Gives (element entries r.cap) r := by
  unfold RangesKept
  rw [constrainedRequires_eq, List.forall₂_map_left_iff, List.forall₂_same]

/-- Every bound of the metadata states a version. -/
theorem exists_version {r : Requirement} (hr : r ∈ requirements entries) {flags : Option String}
    {evr : Evr} (hbound : r.bound = some (flags, evr)) : ∃ version, evr.version = some version := by
  obtain ⟨entry, -, hstates⟩ := List.mem_filterMap.mp hr
  unfold RequiresEntry.states at hstates
  split at hstates
  · cases hstates
  · cases hstates
  · obtain rfl := Option.some.inj hstates
    obtain ⟨ver, -, hver⟩ := Option.map_eq_some_iff.mp hbound
    exact ⟨ver, (congrArg (fun bound => bound.2.version) hver).symm⟩

/-- What the solver reads for a capability: the first of its ranges, or its name where it
    has none. -/
theorem element_cases (entries : List RequiresEntry) (cap : String) :
    (element entries cap = cap ∧
        ∀ r ∈ requirements entries, r.cap = cap → ∀ flags evr, r.bound = some (flags, evr) →
          rpmFlagOp flags = none) ∨
      ∃ r ∈ requirements entries, r.cap = cap ∧ ∃ flags evr op, r.bound = some (flags, evr) ∧
        rpmFlagOp flags = some op ∧ element entries cap = spelled cap op (rangeText evr) := by
  unfold element
  cases h : ((requirements entries).filterMap fun r => r.range.bind rangeItem).lookup cap with
  | none =>
    refine Or.inl ⟨rfl, fun r hr hcap flags evr hbound => ?_⟩
    cases hop : rpmFlagOp flags with
    | none => rfl
    | some op =>
      have hitem : r.range.bind rangeItem = some (cap, spelled cap op (rangeText evr)) := by
        unfold Requirement.range rangeItem
        rw [hbound, hcap]
        show (rpmFlagOp flags).map _ = _
        rw [hop]
        rfl
      have hne := List.lookup_eq_none_iff.mp h _ (List.mem_filterMap.mpr ⟨r, hr, hitem⟩)
      exact absurd rfl (bne_iff_ne.mp hne)
  | some text =>
    have hmem := @Dict.mem_items_of_get? _ _ _ ⟨_⟩ cap text h
    obtain ⟨r, hr, hitem⟩ := List.mem_filterMap.mp hmem
    obtain ⟨range, hrange, htext⟩ := Option.bind_eq_some_iff.mp hitem
    obtain ⟨⟨flags, evr⟩, hbound, rfl⟩ := Option.map_eq_some_iff.mp hrange
    obtain ⟨op, hop, hpair⟩ := Option.map_eq_some_iff.mp htext
    obtain ⟨rfl, rfl⟩ := Prod.mk.inj hpair
    exact Or.inr ⟨r, hr, rfl, flags, evr, op, hbound, hop, rfl⟩

/-- A bound gives itself back where its requirement is clear. -/
theorem gives_spelled_iff {r : Requirement} (hr : r ∈ requirements entries)
    {flags : Option String} {evr : Evr} {op : Op} (hbound : r.bound = some (flags, evr))
    (hop : rpmFlagOp flags = some op) :
    Gives (spelled r.cap op (rangeText evr)) r ↔ Clear r := by
  obtain ⟨version, hversion⟩ := exists_version hr hbound
  unfold Gives Clear
  rw [hbound]
  constructor
  · rintro ⟨op', wanted, hop', hsplit, hstated⟩
    obtain rfl := Option.some.inj (hop.symm.trans hop')
    obtain ⟨hapart, rfl⟩ := splitConstraint_spelled_iff.mp hsplit
    exact ⟨op, version, hop, hversion, hapart, (statedEvr_evrParts_iff hversion).mp hstated⟩
  · rintro ⟨op', version', hop', hversion', hapart, hlegible⟩
    obtain rfl := Option.some.inj (hop.symm.trans hop')
    exact ⟨op, _, hop, splitConstraint_spelled_iff.mpr ⟨hapart, rfl⟩,
      (statedEvr_evrParts_iff hversion').mpr hlegible⟩

/-- A text gives one bound for a capability. -/
theorem sameBound_of_gives {text : String} {r r' : Requirement} (h : Gives text r)
    (h' : Gives text r') : SameBound r r' := by
  unfold Gives at h h'
  unfold SameBound
  cases hbound : r.bound with
  | none =>
    cases hbound' : r'.bound with
    | none => rfl
    | some bound' =>
      rw [hbound] at h
      rw [hbound'] at h'
      obtain ⟨op, wanted, -, hsplit, -⟩ := h'
      rw [h] at hsplit
      cases (Prod.mk.inj hsplit).2
  | some bound =>
    rw [hbound] at h
    obtain ⟨op, wanted, hop, hsplit, hstated⟩ := h
    cases hbound' : r'.bound with
    | none =>
      rw [hbound'] at h'
      rw [h'] at hsplit
      cases (Prod.mk.inj hsplit).2
    | some bound' =>
      rw [hbound'] at h'
      obtain ⟨op', wanted', hop', hsplit', hstated'⟩ := h'
      rw [hsplit] at hsplit'
      obtain ⟨rfl, rfl⟩ := Prod.mk.inj (Option.some.inj (Prod.mk.inj hsplit').2)
      rw [Option.map_some, Option.map_some, hop, hop', ← hstated, hstated']

/-- Requirements of one capability with one bound are given by the same texts. -/
theorem Gives.congr {text : String} {r r' : Requirement} (h : Gives text r) (hcap : r.cap = r'.cap)
    (hsame : SameBound r r') : Gives text r' := by
  unfold SameBound at hsame
  unfold Gives at h ⊢
  rw [hcap] at h
  cases hbound : r.bound with
  | none =>
    rw [hbound] at h hsame
    rw [Option.map_eq_none_iff.mp hsame.symm]
    exact h
  | some bound =>
    rw [hbound] at h hsame
    obtain ⟨bound', hbound', hpair⟩ := Option.map_eq_some_iff.mp hsame.symm
    obtain ⟨hflags, hevr⟩ := Prod.mk.inj hpair
    obtain ⟨op, wanted, hop, hsplit, hstated⟩ := h
    rw [hbound']
    exact ⟨op, wanted, hflags.trans hop, hsplit, hstated.trans hevr.symm⟩

theorem clear_of_gives (h : ∀ r ∈ requirements entries, Gives (element entries r.cap) r)
    {r : Requirement} (hr : r ∈ requirements entries) : Clear r := by
  have hgives := h r hr
  rcases element_cases entries r.cap with ⟨helement, hnone⟩ |
    ⟨r', hr', hcap, flags', evr', op', hbound', hop', helement⟩
  · cases hbound : r.bound with
    | none =>
      unfold Gives at hgives
      rw [hbound, helement] at hgives
      unfold Clear
      rw [hbound]
      exact (unversioned_iff r.cap).mp hgives
    | some bound =>
      unfold Gives at hgives
      rw [hbound] at hgives
      obtain ⟨op, -, hop, -⟩ := hgives
      rw [hnone r hr rfl bound.1 bound.2 hbound] at hop
      cases hop
  · have hsame : SameBound r' r := sameBound_of_gives (hcap ▸ h r' hr') hgives
    unfold SameBound at hsame
    rw [hbound'] at hsame
    obtain ⟨⟨flags, evr⟩, hbound, hpair⟩ := Option.map_eq_some_iff.mp hsame.symm
    obtain ⟨hflags, hevr⟩ := Prod.mk.inj hpair
    rw [helement, rangeText_congr hevr.symm] at hgives
    exact (gives_spelled_iff hr hbound (hflags.trans hop')).mp hgives

/-- **No range is lost** exactly when no capability is listed under two bounds and each
    requirement is clear. -/
theorem ranges_kept_iff (pkg : PackageRecord) (entries : List RequiresEntry) :
    RangesKept pkg entries ↔ RangesApart entries := by
  rw [rangesKept_iff_forall]
  constructor
  · intro h
    refine ⟨fun r hr r' hr' hcap => ?_, fun r hr => clear_of_gives h hr⟩
    have hgives' := h r' hr'
    rw [← hcap] at hgives'
    exact sameBound_of_gives (h r hr) hgives'
  · intro h r hr
    rcases element_cases entries r.cap with ⟨helement, hnone⟩ |
      ⟨r', hr', hcap, flags', evr', op', hbound', hop', helement⟩
    · have hclear := h.clear r hr
      unfold Clear at hclear
      cases hbound : r.bound with
      | none =>
        rw [hbound] at hclear
        unfold Gives
        rw [hbound, helement]
        exact (unversioned_iff r.cap).mpr hclear
      | some bound =>
        rw [hbound] at hclear
        obtain ⟨op, -, hop, -⟩ := hclear
        rw [hnone r hr rfl bound.1 bound.2 hbound] at hop
        cases hop
    · have hgives := (gives_spelled_iff hr' hbound' hop').mpr (h.clear r' hr')
      rw [helement, ← hcap]
      exact hgives.congr hcap (h.alike r' hr' r hr hcap)

/-- `python3 >= 1` and `python3 < 2`: the second bound is nowhere in what the solver reads. -/
theorem second_bound_lost :
    ¬ RangesKept { name := "app" }
      [⟨some "python3", some "GE", some "0", some "1", none⟩,
        ⟨some "python3", some "LT", some "0", some "2", none⟩] := by
  intro h
  rw [rangesKept_iff_forall] at h
  obtain ⟨op, wanted, hop, hsplit, -⟩ := h ⟨"python3", some (some "LT", ⟨some "0", some "2", none⟩)⟩
    (by decide)
  have hread : splitConstraint (element
      [⟨some "python3", some "GE", some "0", some "1", none⟩,
        ⟨some "python3", some "LT", some "0", some "2", none⟩] "python3") =
      ("python3", some (.ge, "1")) := by decide +kernel
  rw [hread] at hsplit
  obtain rfl : Op.lt = op := Option.some.inj hop
  exact absurd (Prod.mk.inj (Option.some.inj (Prod.mk.inj hsplit).2)).1 (by decide)

end Ranges

end BuckosDistro.Solve
