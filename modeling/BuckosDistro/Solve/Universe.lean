/-
  The universe of a solve (`tools/solve.py`, `build_universe` and
  `apply_probed_producers`).

  The collapse picks one build for each plain name; every map but `provides` is read off
  the collapsed builds alone. The builds of another architecture that lost get
  arch-qualified names, and answer only the capabilities that no collapsed build provides.

  The loops of the source fill several maps at once. Each map is written here as the loop
  that fills it alone, with the entries it gets one after another (`Dict.group`).
-/
import BuckosDistro.Solve.Merge

namespace BuckosDistro.Solve

open BuckosDistro.Lib BuckosDistro.Depgraph

/-! ## Names -/

/-- The text before the last dash, if there is one. -/
def beforeDash (text : List Char) : Option (List Char) :=
  match text.reverse.dropWhile (· ≠ '-') with
  | [] => none
  | _ :: before => some before.reverse

/-- Without the first of the suffixes the text ends with. -/
def stripSuffix (suffixes : List String) (text : List Char) : List Char :=
  match suffixes.find? fun suffix => suffix.toList.isSuffixOf text with
  | none => text
  | some suffix => text.take (text.length - suffix.toList.length)

/-- `source_name_from_sourcerpm` -/
def sourceNameFromSourcerpm (sourcerpm : Option String) : Option String :=
  match sourcerpm with
  | none | some "" => none
  | some text =>
    let base := stripSuffix [".src.rpm", ".nosrc.rpm"] text.toList
    some (String.ofList (((beforeDash base).bind beforeDash).getD base))

/-- The source a build is filed under; an empty name is none. -/
def sourceOfRecord (pkg : PackageRecord) : Option String :=
  match sourceNameFromSourcerpm pkg.sourcerpm with
  | some "" => none
  | source => source

/-- `arch_qualified` -/
def archQualified (name arch : String) : String := name ++ "." ++ arch

/-- `_FOREIGN_RANK` -/
def foreignRank : ℕ := 2

/-- `_arch_rank` -/
def archRank (arch targetCpu : String) : ℕ :=
  if arch = targetCpu then 0 else if arch ∈ ["noarch", "src"] then 1 else 2

/-! ## The collapse -/

/-- What decides the collapse besides the builds. -/
structure Target where
  targetCpu : String
  fallbackRepos : List String

namespace Target

/-- `pkg.get("repo") in fallback_repos` -/
def isFallback (t : Target) (pkg : PackageRecord) : Bool :=
  match pkg.repo with
  | none => false
  | some repo => repo ∈ t.fallbackRepos

/-- `better` -/
def better (t : Target) (candidate incumbent : PackageRecord) : Bool :=
  if t.isFallback candidate ≠ t.isFallback incumbent then !t.isFallback candidate
  else if archRank candidate.arch t.targetCpu ≠ archRank incumbent.arch t.targetCpu then
    archRank candidate.arch t.targetCpu < archRank incumbent.arch t.targetCpu
  else packageIsNewer candidate incumbent

/-- `binary_index` after its first loop, and `source_index`: the winner of each name. -/
def plainIndex (t : Target) (packages : List PackageRecord) : Dict String PackageRecord :=
  Dict.collapse PackageRecord.name t.better packages

end Target

/-! ## What the winners say -/

/-- The Requires of a build that are capabilities. -/
def readRequires (pkg : PackageRecord) : List String :=
  (constrainedRequires pkg).filter fun c => !isPseudoCapability c

/-- The capabilities a build is registered under, its own name last. -/
def readProvides (pkg : PackageRecord) : List String :=
  (pkg.provides.filter fun cap => !isPseudoCapability cap) ++ [pkg.name]

/-- The versions a build provides its capabilities at. -/
def readProvideEvr (pkg : PackageRecord) : List (String × Evr) :=
  pkg.provideEvr.filter fun entry => !isPseudoCapability entry.1

/-- `{k: sorted(set(v)) for k, v in lists.items()}` -/
def sortedSets (lists : Dict String (List String)) : Dict String (List String) :=
  lists.filterMap fun _ names => some (PyText.sortedSet names)

/-- `provides` of the winners, with each name in the order it was met. -/
def plainProvides (index : Dict String PackageRecord) : Dict String (List String) :=
  Dict.group (index.items.flatMap fun item =>
    (readProvides item.2).map fun cap => (cap, item.1))

/-- `provide_evr` -/
def plainProvideEvr (index : Dict String PackageRecord) :
    Dict String (Dict String (List Evr)) :=
  Dict.group₂ (index.items.flatMap fun item =>
    (readProvideEvr item.2).map fun entry => (entry.1, item.1, entry.2))

/-- `source_of`, and `foreign_source_of` over the foreign builds. -/
def sourcesOf (index : Dict String PackageRecord) : Dict String String :=
  index.filterMap fun _ pkg => sourceOfRecord pkg

/-- `subpackages` -/
def plainSubpackages (index : Dict String PackageRecord) : Dict String (List String) :=
  sortedSets (Dict.group ((sourcesOf index).items.map fun item => (item.2, item.1)))

/-! ## The builds the collapse discarded -/

/-- A build that gets an arch-qualified name: of a foreign architecture, or a fallback that
    lost its plain name, when its architecture is not the winner's. -/
def Target.isForeign (t : Target) (index : Dict String PackageRecord) (pkg : PackageRecord) :
    Bool :=
  let winner := index.get? pkg.name
  (archRank pkg.arch t.targetCpu = foreignRank || (t.isFallback pkg && winner ≠ some pkg)) &&
    winner.all fun winner => winner.arch ≠ pkg.arch

/-- `foreign_index` -/
def Target.foreignIndex (t : Target) (packages : List PackageRecord) :
    Dict String PackageRecord :=
  Dict.collapse (fun pkg => archQualified pkg.name pkg.arch) packageIsNewer
    (packages.filter (t.isForeign (t.plainIndex packages)))

/-- `foreign_provides`: for each architecture, the qualified names behind a capability. -/
def foreignProvides (foreign : Dict String PackageRecord) :
    Dict String (Dict String (List String)) :=
  Dict.group₂ (foreign.items.flatMap fun item =>
    (readProvides item.2).map fun cap => (item.2.arch, cap, item.1))

/-- The slots the foreign builds could fill, architecture by architecture and capability
    by capability. -/
def foreignSlots (foreign : Dict String (Dict String (List String))) :
    List (String × List String) :=
  (PyText.sortedSet foreign.keys).flatMap fun arch =>
    let caps := sortedSets (foreign.getD arch Dict.empty)
    (PyText.sortedSet caps.keys).map fun cap => (cap, caps.getD cap [])

/-- `if cap not in provides: provides[cap] = list(names)` for each slot. -/
def fillProvides (provides : Dict String (List String)) (slots : List (String × List String)) :
    Dict String (List String) :=
  slots.foldl (fun provides slot => provides.setDefault slot.1 slot.2) provides

/-! ## The universe -/

/-- `build_universe` -/
def buildUniverse (t : Target) (binaryPkgs sourcePkgs : List PackageRecord) : Universe :=
  let index := t.plainIndex binaryPkgs
  let foreign := t.foreignIndex binaryPkgs
  { provides := sortedSets (fillProvides (plainProvides index)
      (foreignSlots (foreignProvides foreign)))
    provideEvr := plainProvideEvr index
    requires := foreign.items.foldl (fun requires item =>
      requires.set item.1 (readRequires item.2))
      (index.filterMap fun _ pkg => some (readRequires pkg))
    sourceOf := sourcesOf index
    subpackages := plainSubpackages index
    binaryIndex := foreign.items.foldl (fun index item => index.setDefault item.1 item.2) index
    sourceIndex := t.plainIndex sourcePkgs
    foreignSourceOf := sourcesOf foreign }

/-! ## What the maps answer -/

section Maps

variable {t : Target} {P S : List PackageRecord}

theorem nodup_plainIndex : (t.plainIndex P).keys.Nodup := Dict.nodup_collapse _ _ P

theorem nodup_foreignIndex : (t.foreignIndex P).keys.Nodup := Dict.nodup_collapse _ _ _

theorem plainIndex_mem {name : String} {pkg : PackageRecord}
    (h : (t.plainIndex P).get? name = some pkg) : pkg ∈ P ∧ pkg.name = name :=
  Dict.collapse_mem h

theorem get?_plainIndex_eq_none {name : String} :
    (t.plainIndex P).get? name = none ↔ ∀ pkg ∈ P, pkg.name ≠ name := by
  unfold Target.plainIndex
  rw [Dict.get?_collapse, Dict.champion_eq_none, List.filter_eq_nil_iff]
  simp

theorem get?_foreignIndex {key : String} {pkg : PackageRecord}
    (h : (t.foreignIndex P).get? key = some pkg) :
    pkg ∈ P ∧ t.isForeign (t.plainIndex P) pkg = true ∧ archQualified pkg.name pkg.arch = key := by
  obtain ⟨hmem, hkey⟩ := Dict.collapse_mem h
  obtain ⟨hP, hforeign⟩ := List.mem_filter.mp hmem
  exact ⟨hP, hforeign, hkey⟩

/-- A foreign build is not the winner of its plain name. -/
theorem winner_ne_of_isForeign {index : Dict String PackageRecord} {pkg : PackageRecord}
    (h : t.isForeign index pkg = true) : index.get? pkg.name ≠ some pkg := by
  intro hw
  unfold Target.isForeign at h
  rw [hw] at h
  simp at h

theorem get?_sourcesOf {index : Dict String PackageRecord} (h : index.keys.Nodup)
    (name : String) : (sourcesOf index).get? name = (index.get? name).bind sourceOfRecord :=
  Dict.get?_filterMap_items h _ name

theorem nodup_sourcesOf {index : Dict String PackageRecord} (h : index.keys.Nodup) :
    (sourcesOf index).keys.Nodup := by
  unfold sourcesOf Dict.filterMap Dict.keys
  rw [List.map_filterMap]
  have hfst : (fun item : String × PackageRecord =>
      ((sourceOfRecord item.2).map (Prod.mk item.1)).map Prod.fst) =
      fun item => if (sourceOfRecord item.2).isSome then some item.1 else none := by
    funext item
    cases sourceOfRecord item.2 <;> rfl
  rw [hfst]
  refine List.Nodup.sublist ?_ h
  unfold Dict.keys
  induction index.items with
  | nil => exact List.Sublist.slnil
  | cons item items ih =>
    rw [List.filterMap_cons, List.map_cons]
    split_ifs
    · exact ih.cons_cons _
    · exact ih.cons _

theorem get?_sortedSets {lists : Dict String (List String)} (h : lists.keys.Nodup)
    (key : String) : (sortedSets lists).get? key = (lists.get? key).map PyText.sortedSet := by
  unfold sortedSets
  rw [Dict.get?_filterMap_items h]
  cases lists.get? key <;> rfl

/-- Sorted groups with the same members are the same. -/
theorem sortedGroup_congr {pairs pairs' : List (String × String)} {key : String}
    (h : ∀ name, (key, name) ∈ pairs ↔ (key, name) ∈ pairs') :
    ((Dict.group pairs).get? key).map PyText.sortedSet =
      ((Dict.group pairs').get? key).map PyText.sortedSet := by
  have hmem : ∀ name, name ∈ Dict.valuesAt pairs key ↔ name ∈ Dict.valuesAt pairs' key :=
    fun name => by rw [Dict.mem_valuesAt, Dict.mem_valuesAt, h]
  have hnil : Dict.valuesAt pairs key = [] ↔ Dict.valuesAt pairs' key = [] := by
    simp only [List.eq_nil_iff_forall_not_mem, hmem]
  rw [Dict.get?_group, Dict.get?_group]
  by_cases hn : Dict.valuesAt pairs key = []
  · rw [if_pos hn, if_pos (hnil.mp hn)]
  · rw [if_neg hn, if_neg (mt hnil.mpr hn), Option.map_some, Option.map_some,
      PyText.sortedSet_congr hmem]

theorem get?_plainSubpackages {index : Dict String PackageRecord} (src : String) :
    (plainSubpackages index).get? src =
      ((Dict.group ((sourcesOf index).items.map fun item => (item.2, item.1))).get? src).map
        PyText.sortedSet :=
  get?_sortedSets (Dict.nodup_group _) src

/-- The subpackages of a source are the builds filed under it. -/
theorem mem_plainSubpackages {index : Dict String PackageRecord} (h : index.keys.Nodup)
    {src name : String} :
    name ∈ (plainSubpackages index).getD src [] ↔ (sourcesOf index).get? name = some src := by
  unfold Dict.getD
  rw [get?_plainSubpackages, Dict.get?_group, ← Dict.mem_items_iff (nodup_sourcesOf h)]
  have hmem : name ∈ Dict.valuesAt ((sourcesOf index).items.map fun item => (item.2, item.1)) src ↔
      (name, src) ∈ (sourcesOf index).items := by
    rw [Dict.mem_valuesAt]
    simp
  rw [← hmem]
  split_ifs with hn
  · rw [hn]
    simp
  · rw [Option.map_some, Option.getD_some, PyText.mem_sortedSet]

theorem get?_requires (name : String) :
    (buildUniverse t P S).requires.get? name =
      match (t.foreignIndex P).get? name with
      | some pkg => some (readRequires pkg)
      | none => ((t.plainIndex P).get? name).map readRequires := by
  unfold buildUniverse
  dsimp only
  rw [Dict.get?_foldl_set (fun pkg _ => readRequires pkg) _ nodup_foreignIndex,
    Dict.get?_filterMap_items nodup_plainIndex]
  unfold Dict.get?
  cases (t.foreignIndex P).items.lookup name <;> cases (t.plainIndex P).items.lookup name <;> rfl

theorem get?_binaryIndex (name : String) :
    (buildUniverse t P S).binaryIndex.get? name =
      ((t.plainIndex P).get? name).or ((t.foreignIndex P).get? name) :=
  Dict.get?_foldl_setDefault _ _ name

theorem get?_provides (cap : String) :
    (buildUniverse t P S).provides.get? cap =
      (((plainProvides (t.plainIndex P)).get? cap).or
        ((⟨foreignSlots (foreignProvides (t.foreignIndex P))⟩ :
          Dict String (List String)).get? cap)).map PyText.sortedSet := by
  unfold buildUniverse
  dsimp only
  rw [get?_sortedSets]
  · unfold fillProvides
    rw [Dict.get?_foldl_setDefault]
  · exact Dict.nodup_keys_foldl _ (fun _ _ hd => Dict.nodup_keys_setDefault hd _ _) _
      (Dict.nodup_group _)

/-- The versions a build of the index provides a capability at. -/
theorem get?_plainProvideEvr {index : Dict String PackageRecord} (h : index.keys.Nodup)
    (cap name : String) :
    Dict.valuesAt (Dict.valuesAt (index.items.flatMap fun item =>
        (readProvideEvr item.2).map fun entry => (entry.1, item.1, entry.2)) cap) name =
      ((index.get? name).map fun pkg => Dict.valuesAt (readProvideEvr pkg) cap).getD [] := by
  rw [← Dict.valuesAt_flatMap_items h fun pkg => Dict.valuesAt (readProvideEvr pkg) cap]
  congr 1
  unfold Dict.valuesAt
  rw [List.filter_flatMap, List.map_flatMap]
  congr 1
  funext item
  rw [List.filter_map, List.map_map, List.map_map]
  rfl

end Maps

end BuckosDistro.Solve
