/-
  Overlays over a base image set (`tools/upstream_lock.py`).

  The base pins an rpm under the name the solve knows it by, which for a second architecture
  is the qualified one; the overlay pins it under the name of its package. The two meet in
  `change_summary` and in `validate_requested`. Neither reads a qualified name
  (`overlay_understood_iff`).
-/
import BuckosDistro.Generate.Collect
import BuckosDistro.Lib.Raise
import BuckosDistro.Relock.Inputs
import BuckosDistro.Solve.PackageSet

namespace BuckosDistro.Upstream

open BuckosDistro.Lib BuckosDistro.Depgraph BuckosDistro.Solve BuckosDistro.Generate

/-! ## Overlay pins -/

/-- What `rpm_pin` returns. -/
structure RpmPin where
  arch : String
  evr : String
  location : Option String
  name : String
  repo : Option String
  sha256 : String
  target : String
deriving DecidableEq, Repr

/-- `rpm_pin` -/
def rpmPin (u : Universe) (name : String) : Except String RpmPin := do
  let package ← needed (u.binaryIndex.get? name) ("KeyError: " ++ PyText.repr name)
  let sha256 ← needed ((sha256Of package).filter (· ≠ ""))
    (name ++ " is not pinned by SHA-256 metadata")
  return {
    arch := package.arch
    evr := evrString package
    location := package.location
    name := package.name
    repo := package.repo
    sha256 := sha256
    target := targetName package.name (evrString package) package.arch }

/-! ## The solve of an overlay -/

/-- The `overrides` of the base. -/
def baseOverrides (items : List String) : Except String (Dict String String) :=
  items.foldlM (fun overrides item => do
    let entry ← Relock.parseOverride item "base override"
    return overrides.set entry.1 entry.2) Dict.empty

/-- The universe of an overlay: the repositories of the base and the additional ones. -/
def overlayUniverse (targetCpu : String) (groups : List (String × List PackageRecord)) :
    Universe :=
  buildUniverse ⟨targetCpu, []⟩ (mergePackages groups).packages []

/-- `"; ".join("{}: {}".format(who, detail) for _kind, detail, who in problems)` -/
def problemDetails (problems : List Problem) : String :=
  PyText.join "; " (problems.map fun problem => problem.who ++ ": " ++ problem.detail)

/-- `resolve_rpm`, from the repodata of its repositories on. -/
def resolveRpm (targetCpu : String) (groups : List (String × List PackageRecord))
    (overrideItems : List String) (baseEntries : List Pin) (packages : List String) :
    Except String (List RpmPin) := do
  let u := overlayUniverse targetCpu groups
  let overrides ← baseOverrides overrideItems
  let roots := PyText.sortedSet (baseEntries.map Pin.name ++ packages)
  let (closure, problems) := solvePackageSet u roots overrides "upstream overlay"
  raiseIf (problems ≠ []) ("RPM overlay solve failed: " ++ problemDetails problems)
  closure.mapM (rpmPin u)

/-! ## The changes -/

/-- What the summary reads of an entry, under the names its family gives the fields. -/
structure Entry where
  name : String
  arch : String
  version : String
  sha256 : Option String
deriving DecidableEq, Repr

/-- `package_key` -/
def packageKey (entry : Entry) : Key := (entry.name, entry.arch)

/-- An entry of the base; an unresolved one has no architecture to read. -/
def Entry.ofPin (pin : Pin) : Option Entry :=
  pin.build.map fun build => ⟨pin.name, build.arch, build.evr, build.sha256⟩

/-- An entry of the overlay. -/
def RpmPin.entry (pin : RpmPin) : Entry := ⟨pin.name, pin.arch, pin.evr, some pin.sha256⟩

/-- `{package_key(family, entry): entry for entry in entries}`: the last of a key counts. -/
def byKey (entries : List Entry) : Dict Key Entry :=
  Dict.collapse packageKey (fun _ _ => true) entries

/-- A pair of entries of one key with two digests. -/
structure VersionChange where
  architecture : String
  fromVersion : String
  name : String
  toVersion : String
deriving DecidableEq, Repr

/-- What `change_summary` returns. -/
structure Changes where
  additions : List String
  removals : List String
  replacements : List VersionChange
deriving DecidableEq, Repr

/-- The sorted names of the entries whose key the other side lacks. -/
def namesOutside (entries other : Dict Key Entry) : List String :=
  ((entries.items.filter fun item => item.1 ∉ other.keys).map fun item =>
    item.2.name).insertionSort (· ≤ ·)

/-- One trip of the loop over the keys of both sides. -/
def replacement (old new : Dict Key Entry) (key : Key) : Option VersionChange := do
  let before ← old.get? key
  let after ← new.get? key
  if before.sha256 = after.sha256 then none
  else some ⟨key.2, before.version, key.1, after.version⟩

def summarise (old new : Dict Key Entry) : Changes :=
  { additions := namesOutside new old
    removals := namesOutside old new
    replacements :=
      (sortKeys (old.keys.filter (· ∈ new.keys))).filterMap (replacement old new) }

/-- `change_summary` -/
def changeSummary (baseEntries : List Pin) (resolved : List RpmPin) : Option Changes := do
  let base ← baseEntries.mapM Entry.ofPin
  return summarise (byKey base) (byKey (resolved.map RpmPin.entry))

/-- `validate_requested` -/
def validateRequested (requested : List String) (resolved : List RpmPin) :
    Except String Unit :=
  let missing := PyText.sortedSet (requested.filter (· ∉ resolved.map RpmPin.name))
  raiseIf (missing ≠ [])
    ("requested package(s) absent from resolved closure: " ++ PyText.join ", " missing)

/-! ## Names and keys -/

section Keys

variable {t : Target} {P S : List PackageRecord} {u : Universe}

/-- The build a universe knows by a name is a package of that name, not a second
    architecture of another. -/
def KnownByName (u : Universe) (key : String) : Prop :=
  (u.binaryIndex.get? key).map PackageRecord.name = some key

instance (u : Universe) (key : String) : Decidable (KnownByName u key) :=
  inferInstanceAs (Decidable (_ = _))

/-- A plain name wins over a qualified one of the same spelling. -/
theorem knownByName_of_mem {pkg : PackageRecord} (h : pkg ∈ P) :
    KnownByName (buildUniverse t P S) pkg.name := by
  unfold KnownByName
  rw [get?_binaryIndex]
  cases hp : (t.plainIndex P).get? pkg.name with
  | none => exact absurd rfl (get?_plainIndex_eq_none.mp hp pkg h)
  | some winner =>
    rw [Option.some_or, Option.map_some, (plainIndex_mem hp).2]

/-- The build known by a name is of the repodata. -/
theorem mem_of_get?_binaryIndex {key : String} {pkg : PackageRecord}
    (h : (buildUniverse t P S).binaryIndex.get? key = some pkg) : pkg ∈ P := by
  rw [get?_binaryIndex, Option.or_eq_some_iff] at h
  obtain hplain | ⟨_, hforeign⟩ := h
  · exact (plainIndex_mem hplain).1
  · exact (get?_foreignIndex hforeign).1

/-- The package of a second architecture is known by its plain name, in another one. -/
theorem arch_ne_of_not_knownByName {key : String} {pkg winner : PackageRecord}
    (hkey : (buildUniverse t P S).binaryIndex.get? key = some pkg)
    (hnot : ¬ KnownByName (buildUniverse t P S) key)
    (hwinner : (buildUniverse t P S).binaryIndex.get? pkg.name = some winner) :
    winner.arch ≠ pkg.arch := by
  have hforeign : (t.foreignIndex P).get? key = some pkg := by
    have h := hkey
    rw [get?_binaryIndex, Option.or_eq_some_iff] at h
    obtain hplain | ⟨_, hforeign⟩ := h
    · refine absurd ?_ hnot
      unfold KnownByName
      rw [hkey, Option.map_some, (plainIndex_mem hplain).2]
    · exact hforeign
  obtain ⟨hmem, hisForeign, _⟩ := get?_foreignIndex hforeign
  have hplain : (t.plainIndex P).get? pkg.name = some winner := by
    rw [get?_binaryIndex] at hwinner
    cases hp : (t.plainIndex P).get? pkg.name with
    | none => exact absurd rfl (get?_plainIndex_eq_none.mp hp pkg hmem)
    | some plain =>
      rw [hp, Option.some_or] at hwinner
      exact hwinner
  unfold Target.isForeign at hisForeign
  simp only [hplain, Option.all_some, Bool.and_eq_true, decide_eq_true_eq] at hisForeign
  exact hisForeign.2

end Keys

/-! ## When a summary is empty -/

section Summary

variable {before after : List Entry}

/-- No changes. -/
def Changes.none : Changes := ⟨[], [], []⟩

theorem mem_keys_byKey {entries : List Entry} {key : Key} :
    key ∈ (byKey entries).keys ↔ ∃ entry ∈ entries, packageKey entry = key := by
  unfold byKey
  rw [Dict.mem_keys_iff, Option.isSome_iff_ne_none, ne_eq, Dict.get?_collapse,
    Dict.champion_eq_none, List.filter_eq_nil_iff]
  simp

theorem namesOutside_eq_nil {entries other : Dict Key Entry} :
    namesOutside entries other = [] ↔ ∀ key ∈ entries.keys, key ∈ other.keys := by
  unfold namesOutside
  rw [← List.length_eq_zero_iff, List.length_insertionSort, List.length_map,
    List.length_eq_zero_iff, List.filter_eq_nil_iff]
  constructor
  · intro h key hkey
    obtain ⟨item, hitem, rfl⟩ := List.mem_map.mp hkey
    simpa using h item hitem
  · intro h item hitem
    simpa using h item.1 (List.mem_map_of_mem hitem)

theorem replacement_eq_none {old new : Dict Key Entry} {key : Key} :
    replacement old new key = none ↔
      ∀ b a, old.get? key = some b → new.get? key = some a → b.sha256 = a.sha256 := by
  unfold replacement
  cases old.get? key with
  | none => simp
  | some b =>
    cases new.get? key with
    | none => simp
    | some a => simp

theorem mem_sortKeys {keys : List Key} {key : Key} : key ∈ sortKeys keys ↔ key ∈ keys :=
  (List.perm_insertionSort _ keys).mem_iff

/-- A summary is empty when the two sides have the same keys, with equal digests. -/
theorem summarise_eq_none :
    summarise (byKey before) (byKey after) = Changes.none ↔
      (∀ key, key ∈ (byKey before).keys ↔ key ∈ (byKey after).keys) ∧
      ∀ key b a, (byKey before).get? key = some b → (byKey after).get? key = some a →
        b.sha256 = a.sha256 := by
  unfold summarise Changes.none
  rw [Changes.mk.injEq, namesOutside_eq_nil, namesOutside_eq_nil, List.filterMap_eq_nil_iff]
  constructor
  · intro ⟨hadd, hremove, hreplace⟩
    refine ⟨fun key => ⟨hremove key, hadd key⟩, fun key b a hb ha => ?_⟩
    have hold : key ∈ (byKey before).keys := Dict.mem_keys_iff.mpr (by rw [hb]; rfl)
    have hboth : key ∈ sortKeys ((byKey before).keys.filter (· ∈ (byKey after).keys)) := by
      rw [mem_sortKeys, List.mem_filter]
      exact ⟨hold, by simpa using hremove key hold⟩
    exact replacement_eq_none.mp (hreplace key hboth) b a hb ha
  · intro ⟨hkeys, hsha⟩
    exact ⟨fun key => (hkeys key).mpr, fun key => (hkeys key).mp,
      fun key _ => replacement_eq_none.mpr (hsha key)⟩

end Summary

/-! ## What an overlay pins -/

section Resolved

variable {u : Universe} {name : String} {pin : RpmPin}

/-- What tells rpms apart: the package, the architecture and the digest. -/
structure Rpm where
  name : String
  arch : String
  sha256 : Option String
deriving DecidableEq, Repr

def rpmOf (pkg : PackageRecord) : Rpm := ⟨pkg.name, pkg.arch, sha256Of pkg⟩

/-- The rpm a universe knows by a name. -/
def rpmAt (u : Universe) (key : String) : Option Rpm := (u.binaryIndex.get? key).map rpmOf

def RpmPin.rpm (pin : RpmPin) : Rpm := ⟨pin.name, pin.arch, some pin.sha256⟩

/-- The base, pinned under these names, and the overlay pin the same rpms. -/
def SameRpms (u : Universe) (keys : List String) (resolved : List RpmPin) : Prop :=
  ∀ rpm, rpm ∈ keys.map (rpmAt u) ↔ rpm ∈ resolved.map fun pin => some pin.rpm

theorem rpmPin_ok (h : rpmPin u name = .ok pin) : rpmAt u name = some pin.rpm := by
  unfold rpmPin at h
  simp only [Raise.bind_ok, Raise.needed_ok, Raise.pure_ok, Option.filter_eq_some_iff] at h
  obtain ⟨pkg, hpkg, sha256, ⟨hsha, _⟩, rfl⟩ := h
  unfold rpmAt rpmOf RpmPin.rpm
  rw [hpkg, Option.map_some, hsha]

/-- An overlay is the pins of a closure that holds its roots, and the roots are known. -/
theorem resolveRpm_ok {targetCpu : String} {groups : List (String × List PackageRecord)}
    {overrideItems packages : List String} {baseEntries : List Pin} {resolved : List RpmPin}
    (h : resolveRpm targetCpu groups overrideItems baseEntries packages = .ok resolved) :
    ∃ closure : List String, closure.mapM (rpmPin (overlayUniverse targetCpu groups)) =
      .ok resolved ∧
      ∀ root ∈ baseEntries.map Pin.name ++ packages,
        root ∈ (overlayUniverse targetCpu groups).binaryIndex.keys ∧ root ∈ closure := by
  unfold resolveRpm at h
  dsimp only at h
  simp only [Raise.bind_ok, Raise.raiseIf_ok] at h
  obtain ⟨overrides, _, _, hproblems, h⟩ := h
  refine ⟨_, h, fun root hroot => ?_⟩
  rw [not_not] at hproblems
  have hknown : root ∈ (overlayUniverse targetCpu groups).binaryIndex.keys := by
    unfold solvePackageSet at hproblems
    have hmissing := (List.append_eq_nil_iff.mp hproblems).1
    rw [List.map_eq_nil_iff, List.filter_eq_nil_iff] at hmissing
    simpa using hmissing root (PyText.mem_sortedSet.mpr hroot)
  refine ⟨hknown, ?_⟩
  rw [solvePackageSet_fst, PyText.mem_sorted]
  refine root_mem_finalState ?_
  rw [List.mem_filter]
  exact ⟨PyText.mem_sortedSet.mpr hroot, by simpa using hknown⟩

end Resolved

/-! ## What the base pins -/

section Base

variable {t : Target} {P S : List PackageRecord} {keys : List String} {resolved : List RpmPin}

/-- An entry of the base, as the summary reads it. -/
def baseEntry (u : Universe) (key : String) : Option Entry :=
  (u.binaryIndex.get? key).map fun pkg => ⟨key, pkg.arch, evrString pkg, sha256Of pkg⟩

theorem ofPin_pinBinary (u : Universe) (key : String) :
    Entry.ofPin (pinBinary u key) = baseEntry u key := by
  unfold Entry.ofPin pinBinary baseEntry
  rw [Option.map_map]
  rfl

/-- An rpm of the base is one of the overlay, and the other way round. -/
theorem SameRpms.of_key {u : Universe} (h : SameRpms u keys resolved) {key : String}
    (hkey : key ∈ keys) :
    ∃ pkg, u.binaryIndex.get? key = some pkg ∧ ∃ pin ∈ resolved, pin.rpm = rpmOf pkg := by
  have hmem := (h (rpmAt u key)).mp (List.mem_map_of_mem hkey)
  obtain ⟨pin, hpin, he⟩ := List.mem_map.mp hmem
  obtain ⟨pkg, hpkg, hrpm⟩ := Option.map_eq_some_iff.mp he.symm
  exact ⟨pkg, hpkg, pin, hpin, hrpm.symm⟩

theorem SameRpms.of_pin {u : Universe} (h : SameRpms u keys resolved) {pin : RpmPin}
    (hpin : pin ∈ resolved) :
    ∃ key ∈ keys, ∃ pkg, u.binaryIndex.get? key = some pkg ∧ rpmOf pkg = pin.rpm := by
  have hmem := (h (some pin.rpm)).mpr (List.mem_map.mpr ⟨pin, hpin, rfl⟩)
  obtain ⟨key, hkey, he⟩ := List.mem_map.mp hmem
  obtain ⟨pkg, hpkg, hrpm⟩ := Option.map_eq_some_iff.mp he
  exact ⟨key, hkey, pkg, hpkg, hrpm⟩

/-- A base that pins rpms has an entry for each of its names. -/
theorem exists_baseEntries {u : Universe} (h : SameRpms u keys resolved) :
    ∃ base, (keys.map (pinBinary u)).mapM Entry.ofPin = some base ∧
      ∀ entry, entry ∈ base ↔ ∃ key ∈ keys, baseEntry u key = some entry := by
  have hsome : ∀ key ∈ keys, baseEntry u key =
      some ((baseEntry u key).getD ⟨"", "", "", none⟩) := by
    intro key hkey
    obtain ⟨pkg, hpkg, _⟩ := h.of_key hkey
    unfold baseEntry
    rw [hpkg]
    rfl
  refine ⟨keys.map fun key => (baseEntry u key).getD ⟨"", "", "", none⟩, ?_, fun entry => ?_⟩
  · rw [List.mapM_map]
    refine Lists.mapM_of_forall fun key hkey => ?_
    rw [← hsome key hkey]
    exact ofPin_pinBinary u key
  · rw [List.mem_map]
    constructor
    · intro ⟨key, hkey, he⟩
      exact ⟨key, hkey, he ▸ hsome key hkey⟩
    · intro ⟨key, hkey, he⟩
      exact ⟨key, hkey, by rw [he]; rfl⟩

/-- Of the same rpms the summary is empty when no name of the base is a qualified one. -/
theorem changeSummary_eq_none_iff
    (h : SameRpms (buildUniverse t P S) keys resolved) :
    changeSummary (keys.map (pinBinary (buildUniverse t P S))) resolved = some Changes.none ↔
      ∀ key ∈ keys, KnownByName (buildUniverse t P S) key := by
  obtain ⟨base, hbase, hmem⟩ := exists_baseEntries h
  have hsummary : changeSummary (keys.map (pinBinary (buildUniverse t P S))) resolved =
      some (summarise (byKey base) (byKey (resolved.map RpmPin.entry))) := by
    unfold changeSummary
    rw [hbase]
    rfl
  rw [hsummary, Option.some_inj, summarise_eq_none]
  simp only [mem_keys_byKey]
  constructor
  · rintro ⟨hkeys, _⟩ key hkey
    obtain ⟨pkg, hpkg, pin, hpin, hrpm⟩ := h.of_key hkey
    by_contra hnot
    -- the overlay's entry of this rpm has no entry of the base under its key
    obtain ⟨entry, hentry, he⟩ := (hkeys (packageKey pin.entry)).mpr
      ⟨_, List.mem_map_of_mem hpin, rfl⟩
    obtain ⟨key', _, hb⟩ := (hmem entry).mp hentry
    obtain ⟨winner, hwinner, rfl⟩ := Option.map_eq_some_iff.mp hb
    obtain ⟨hname, harch⟩ := Prod.mk.inj he
    have hpinName : pin.name = pkg.name := congrArg Rpm.name hrpm
    have hpinArch : pin.arch = pkg.arch := congrArg Rpm.arch hrpm
    have hkey' : key' = pkg.name := hname.trans hpinName
    rw [hkey'] at hwinner
    exact arch_ne_of_not_knownByName hpkg hnot hwinner (harch.trans hpinArch)
  · intro hplain
    have hnamed : ∀ key ∈ keys, ∀ pkg,
        (buildUniverse t P S).binaryIndex.get? key = some pkg → pkg.name = key := by
      intro key hkey pkg hpkg
      have hk := hplain key hkey
      unfold KnownByName at hk
      rw [hpkg, Option.map_some] at hk
      exact Option.some.inj hk
    refine ⟨fun key => ⟨?_, ?_⟩, fun key b a hb ha => ?_⟩
    · rintro ⟨entry, hentry, he⟩
      obtain ⟨name, hname, hb⟩ := (hmem entry).mp hentry
      obtain ⟨pkg, hpkg, pin, hpin, hrpm⟩ := h.of_key hname
      unfold baseEntry at hb
      rw [hpkg, Option.map_some, Option.some_inj] at hb
      refine ⟨pin.entry, List.mem_map_of_mem hpin, ?_⟩
      rw [← he, ← hb]
      have hpinName : pin.name = pkg.name := congrArg Rpm.name hrpm
      have hpinArch : pin.arch = pkg.arch := congrArg Rpm.arch hrpm
      show (pin.name, pin.arch) = (name, pkg.arch)
      rw [hpinName, hpinArch, hnamed name hname pkg hpkg]
    · rintro ⟨entry, hentry, he⟩
      obtain ⟨pin, hpin, rfl⟩ := List.mem_map.mp hentry
      obtain ⟨name, hname, pkg, hpkg, hrpm⟩ := h.of_pin hpin
      have hb : baseEntry (buildUniverse t P S) name =
          some ⟨name, pkg.arch, evrString pkg, sha256Of pkg⟩ := by
        unfold baseEntry
        rw [hpkg, Option.map_some]
      refine ⟨_, (hmem _).mpr ⟨name, hname, hb⟩, ?_⟩
      rw [← he]
      have hpinName : pkg.name = pin.name := congrArg Rpm.name hrpm
      have hpinArch : pkg.arch = pin.arch := congrArg Rpm.arch hrpm
      show (name, pkg.arch) = (pin.name, pin.arch)
      rw [← hpinName, ← hpinArch, hnamed name hname pkg hpkg]
    · -- both entries come from the one build known by the name of the key
      obtain ⟨hbmem, hbkey⟩ := Dict.collapse_mem hb
      obtain ⟨hamem, hakey⟩ := Dict.collapse_mem ha
      obtain ⟨name, hname, hbase'⟩ := (hmem b).mp hbmem
      obtain ⟨pkg, hpkg, rfl⟩ := Option.map_eq_some_iff.mp hbase'
      obtain ⟨pin, hpin, rfl⟩ := List.mem_map.mp hamem
      obtain ⟨name', hname', pkg', hpkg', hrpm⟩ := h.of_pin hpin
      have hsame : name' = name := by
        have hpinName : pkg'.name = pin.name := congrArg Rpm.name hrpm
        have hkeyName : name = pin.name := congrArg Prod.fst (hbkey.trans hakey.symm)
        rw [← hnamed name' hname' pkg' hpkg', hpinName, hkeyName]
      rw [hsame, hpkg] at hpkg'
      obtain rfl := Option.some.inj hpkg'
      exact congrArg Rpm.sha256 hrpm

end Base

/-! ## Requests -/

theorem validateRequested_ok_iff {requested : List String} {resolved : List RpmPin} :
    validateRequested requested resolved = .ok () ↔
      ∀ name ∈ requested, name ∈ resolved.map RpmPin.name := by
  have hnil : ∀ names : List String, PyText.sortedSet names = [] ↔ names = [] := by
    intro names
    simp only [List.eq_nil_iff_forall_not_mem, PyText.mem_sortedSet]
  unfold validateRequested
  dsimp only
  rw [Raise.raiseIf_ok, not_not, hnil, List.filter_eq_nil_iff]
  simp

/-- **What an overlay understands.** Of a base and an overlay of the same rpms the summary
    is empty, and every request that resolved is accepted, exactly when neither the names of
    the base nor the requests are qualified with an architecture. -/
theorem overlay_understood_iff (t : Target) (P S : List PackageRecord) (keys : List String)
    (targetCpu : String) (groups : List (String × List PackageRecord))
    (overrideItems packages : List String) (resolved : List RpmPin)
    (h : resolveRpm targetCpu groups overrideItems
      (keys.map (pinBinary (buildUniverse t P S))) packages = .ok resolved) :
    ((SameRpms (buildUniverse t P S) keys resolved →
        changeSummary (keys.map (pinBinary (buildUniverse t P S))) resolved =
          some Changes.none) ∧
      validateRequested packages resolved = .ok ()) ↔
    ((SameRpms (buildUniverse t P S) keys resolved →
        ∀ key ∈ keys, KnownByName (buildUniverse t P S) key) ∧
      ∀ name ∈ packages, KnownByName (overlayUniverse targetCpu groups) name) := by
  obtain ⟨closure, hpins, hroots⟩ := resolveRpm_ok h
  have hrequests : validateRequested packages resolved = .ok () ↔
      ∀ name ∈ packages, KnownByName (overlayUniverse targetCpu groups) name := by
    rw [validateRequested_ok_iff]
    refine forall₂_congr fun name hname => ?_
    obtain ⟨_, hclosure⟩ := hroots name (List.mem_append_right _ hname)
    constructor
    · intro hmem
      obtain ⟨pin, hpin, rfl⟩ := List.mem_map.mp hmem
      obtain ⟨key, _, hpinned⟩ := Lists.exists_of_mapM_ok hpins hpin
      obtain ⟨pkg, hpkg, hrpm⟩ := Option.map_eq_some_iff.mp (rpmPin_ok hpinned)
      have hpinName : pkg.name = pin.name := congrArg Rpm.name hrpm
      rw [← hpinName]
      exact knownByName_of_mem (mem_of_get?_binaryIndex hpkg)
    · intro hknown
      obtain ⟨pin, hpin, hpinned⟩ := Lists.exists_of_mem_mapM_ok hpins hclosure
      obtain ⟨pkg, hpkg, hrpm⟩ := Option.map_eq_some_iff.mp (rpmPin_ok hpinned)
      unfold KnownByName at hknown
      rw [hpkg, Option.map_some, Option.some_inj] at hknown
      have hpinName : pkg.name = pin.name := congrArg Rpm.name hrpm
      rw [← hknown, hpinName]
      exact List.mem_map_of_mem hpin
  rw [hrequests]
  exact and_congr_left' (forall_congr' fun hsame => changeSummary_eq_none_iff hsame)

/-! ## A library of two architectures -/

def glibcBuild (arch sha256 : String) : PackageRecord :=
  { name := "glibc", arch := arch, version := "2.42", release := "1",
    location := "Packages/g/glibc-2.42-1." ++ arch ++ ".rpm", checksum := sha256,
    checksumType := "sha256" }

def glibcBuilds : List PackageRecord := [glibcBuild "x86_64" "64ab", glibcBuild "i686" "32cd"]

def glibcRepodata : List (String × List PackageRecord) := [("fedora", glibcBuilds)]

def glibcPins : List RpmPin :=
  [{ arch := "x86_64", evr := "2.42-1", location := "Packages/g/glibc-2.42-1.x86_64.rpm",
     name := "glibc", repo := none, sha256 := "64ab", target := "rpm-glibc-2.42-1-x86_64" },
   { arch := "i686", evr := "2.42-1", location := "Packages/g/glibc-2.42-1.i686.rpm",
     name := "glibc", repo := none, sha256 := "32cd", target := "rpm-glibc-2.42-1-i686" }]

/-- The base has both builds, and the 32-bit one is asked for again. -/
theorem resolveRpm_glibc :
    resolveRpm "x86_64" glibcRepodata []
      (["glibc", "glibc.i686"].map (pinBinary (buildUniverse ⟨"x86_64", []⟩ glibcBuilds [])))
      ["glibc.i686"] = .ok glibcPins := by
  have hclosure : runtimeClosure
      ((overlayUniverse "x86_64" glibcRepodata).lookup Dict.empty)
      (overlayUniverse "x86_64" glibcRepodata).requires ["glibc", "glibc.i686"] [] =
      (["glibc.i686", "glibc"].toFinset, []) := by
    have hstart : start ((overlayUniverse "x86_64" glibcRepodata).lookup Dict.empty)
        ["glibc", "glibc.i686"] [] = ⟨∅, ["glibc.i686", "glibc"], [], [], [], false⟩ := rfl
    exact closure_inert hstart (by decide +kernel) (by simp)
  have hset : solvePackageSet (overlayUniverse "x86_64" glibcRepodata)
      ["glibc", "glibc.i686"] Dict.empty "upstream overlay" = (["glibc", "glibc.i686"], []) := by
    have hmissing : ["glibc", "glibc.i686"].filter
        (· ∉ (overlayUniverse "x86_64" glibcRepodata).binaryIndex.keys) = [] := by
      decide +kernel
    have hsort : PyText.sorted ["glibc.i686", "glibc"].toFinset = ["glibc", "glibc.i686"] := by
      decide +kernel
    unfold solvePackageSet
    simp only [hmissing, List.not_mem_nil, not_false_eq_true, decide_true, List.filter_true,
      hclosure, hsort, List.map_nil, List.append_nil]
  unfold resolveRpm
  have hroots : PyText.sortedSet ((["glibc", "glibc.i686"].map
      (pinBinary (buildUniverse ⟨"x86_64", []⟩ glibcBuilds []))).map Pin.name ++ ["glibc.i686"]) =
      ["glibc", "glibc.i686"] := by
    decide +kernel
  have hoverrides : baseOverrides [] = .ok Dict.empty := rfl
  have hbind : ∀ (a : Dict String String) (f : Dict String String → Except String (List RpmPin)),
      (Except.ok a >>= f) = f a := fun _ _ => rfl
  simp only [hroots, hoverrides, hbind, hset]
  decide +kernel

theorem overlay_understood_iff_glibc :
    ((SameRpms (buildUniverse ⟨"x86_64", []⟩ glibcBuilds []) ["glibc", "glibc.i686"] glibcPins →
        changeSummary (["glibc", "glibc.i686"].map
          (pinBinary (buildUniverse ⟨"x86_64", []⟩ glibcBuilds []))) glibcPins =
          some Changes.none) ∧
      validateRequested ["glibc.i686"] glibcPins = .ok ()) ↔
    ((SameRpms (buildUniverse ⟨"x86_64", []⟩ glibcBuilds []) ["glibc", "glibc.i686"] glibcPins →
        ∀ key ∈ ["glibc", "glibc.i686"],
          KnownByName (buildUniverse ⟨"x86_64", []⟩ glibcBuilds []) key) ∧
      ∀ name ∈ ["glibc.i686"], KnownByName (overlayUniverse "x86_64" glibcRepodata) name) :=
  overlay_understood_iff ⟨"x86_64", []⟩ glibcBuilds [] ["glibc", "glibc.i686"] "x86_64"
    glibcRepodata [] ["glibc.i686"] glibcPins resolveRpm_glibc

/-- The same two rpms are an addition and a removal, and the one that was asked for is said
    to be missing. -/
theorem glibc_not_understood :
    (resolveRpm "x86_64" glibcRepodata []
      (["glibc", "glibc.i686"].map (pinBinary (buildUniverse ⟨"x86_64", []⟩ glibcBuilds [])))
      ["glibc.i686"] = .ok glibcPins ∧
      SameRpms (buildUniverse ⟨"x86_64", []⟩ glibcBuilds []) ["glibc", "glibc.i686"] glibcPins) ∧
    changeSummary
      (["glibc", "glibc.i686"].map (pinBinary (buildUniverse ⟨"x86_64", []⟩ glibcBuilds [])))
      glibcPins = some ⟨["glibc"], ["glibc.i686"], []⟩ ∧
    validateRequested ["glibc.i686"] glibcPins =
      .error "requested package(s) absent from resolved closure: glibc.i686" := by
  have hsame : ["glibc", "glibc.i686"].map
      (rpmAt (buildUniverse ⟨"x86_64", []⟩ glibcBuilds [])) =
      glibcPins.map fun pin => some pin.rpm := by
    decide +kernel
  refine ⟨⟨resolveRpm_glibc, fun rpm => by rw [hsame]⟩, ?_, ?_⟩
  · decide +kernel
  · decide +kernel

end BuckosDistro.Upstream
