/-
  From a lockfile to the lists the macros read (`tools/generate.py`, `collect`).

  A generated file loads only when every rpm it lists has a digest and a location: an
  unresolved pin stops the generator, and a missing field is written as a `null` that
  Starlark does not know. `collect` is `none` then.
-/
import BuckosDistro.Lib.Lists
import BuckosDistro.Solve.Lockfile

namespace BuckosDistro.Generate

open BuckosDistro.Lib BuckosDistro.Depgraph BuckosDistro.Solve

/-! ## Target names -/

/-- `_TARGET_SAFE` -/
def isTargetSafe (c : Char) : Bool :=
  ('a' ≤ c && c ≤ 'z') || ('A' ≤ c && c ≤ 'Z') || ('0' ≤ c && c ≤ '9') ||
    ",.=-/~@!+$_".toList.contains c

/-- `target_safe` -/
def targetSafe (text : String) : String :=
  String.ofList (text.toList.map fun c => if isTargetSafe c then c else '_')

/-- `_target_name` -/
def targetName (name evr arch : String) : String :=
  targetSafe ("rpm-" ++ name ++ "-" ++ evr ++ "-" ++ arch)

/-! ## Records -/

/-- An entry of `SEED_RPMS`, `VARIANT_SEED_RPMS` or an image set. -/
structure RpmEntry where
  name : String
  evr : String
  arch : String
  location : String
  sha256 : String
  repo : String
  target : String
deriving DecidableEq, Repr

/-- An entry of `SOURCE_RPMS`. -/
structure SourceEntry where
  name : String
  evr : String
  location : String
  sha256 : String
  repo : String
  target : String
deriving DecidableEq, Repr

/-- An entry of `RECIPES`. -/
structure Recipe where
  name : String
  sourceName : String
  evr : String
  subpackages : List String
  buildDeps : List String
  seedDeps : List String
  variantOf : Option String
  depVariants : Dict String String
  variantSeed : Dict String String
deriving DecidableEq, Repr

/-- A generated module. -/
structure Generated where
  seedRpms : List RpmEntry
  baseSeed : List String
  imageSets : Dict String (List RpmEntry)
  sourceRpms : List SourceEntry
  recipes : List Recipe
  staged : List StageEntry
  variantSeedRpms : List RpmEntry
deriving DecidableEq, Repr

/-! ## Rpms -/

/-- `_entry_literal` -/
def entryOf (pin : Pin) : Option RpmEntry := do
  let build ← pin.build
  let location ← build.location
  let sha256 ← build.sha256
  return ⟨pin.name, build.evr, build.arch, location, sha256, build.repo.getD "",
    targetName pin.name build.evr build.arch⟩

/-- `_dedupe`: of the pins with one digest the first, in the order of the digests. -/
def dedupe (pins : List Pin) : Option (List RpmEntry) := do
  let keyed ← pins.mapM fun pin => (pin.build.bind PinnedBuild.sha256).map fun sha => (sha, pin)
  let bySha := keyed.foldl (fun d item => d.setDefault item.1 item.2) Dict.empty
  ((PyText.sortedSet bySha.keys).filterMap bySha.get?).mapM entryOf

/-- `_source_literal` -/
def sourceEntryOf (source : LockSource) : Option SourceEntry := do
  let location ← source.location
  let sha256 ← source.sha256
  return ⟨source.name, source.evr, location, sha256, source.repo.getD "",
    targetSafe ("srpm-" ++ source.name)⟩

/-! ## Recipes -/

/-- `if dep.get("variant")` -/
def isRouted (pin : Pin) : Bool :=
  match pin.variant with
  | none | some "" => false
  | some _ => true

/-- One entry of `recipes`. -/
def recipeOf (base : List String) (name : String) (pkg : LockPackage) : Option Recipe := do
  let routed := pkg.depsBuilt.filter isRouted
  let seeds ← routed.mapM fun pin => pin.build.map fun build =>
    (pin.name, targetName pin.name build.evr build.arch)
  return {
    name := name
    sourceName := if pkg.source.sourceName = "" then pkg.source.name else pkg.source.sourceName
    evr := pkg.source.evr
    subpackages := pkg.subpackages
    buildDeps := PyText.sortedSet (pkg.depsBuilt.map Pin.name)
    seedDeps := PyText.sortedSet ((pkg.depsSeed.map Pin.name).filter (· ∉ base))
    variantOf := pkg.variantOf
    depVariants := ⟨routed.map fun pin => (pin.name, pin.variant.getD "")⟩
    variantSeed := ⟨seeds⟩ }

/-! ## The split -/

/-- The order of `staged`: by stage, then by source. -/
def stagedLe (a b : StageEntry) : Prop := toLex (a.stage, a.source) ≤ toLex (b.stage, b.source)

instance : DecidableRel stagedLe := fun a b =>
  inferInstanceAs (Decidable (toLex (a.stage, a.source) ≤ toLex (b.stage, b.source)))

/-- `staged` -/
def sortedStaged (plan : Plan) : List StageEntry :=
  (plan.staged.insertionSort stagedLe).map fun entry =>
    { entry with cycleDeps := entry.cycleDeps.insertionSort (· ≤ ·) }

/-- `for name in sorted(packages)` -/
def sortedPackages (lock : Lock) : List (String × LockPackage) :=
  (PyText.sortedSet lock.packages.keys).filterMap fun name =>
    (lock.packages.get? name).map (Prod.mk name)

/-- `collect` -/
def collect (lock : Lock) : Option Generated := do
  let seed ← dedupe lock.buildrootSeed
  let variantSeed ← dedupe lock.variantSeed
  let base := lock.baseSeed.insertionSort (· ≤ ·)
  let imageSets ← lock.imageSets.items.mapM fun item => (dedupe item.2).map (Prod.mk item.1)
  let sources ← (sortedPackages lock).mapM fun item => sourceEntryOf item.2.source
  let recipes ← (sortedPackages lock).mapM fun item => recipeOf base item.1 item.2
  return {
    seedRpms := seed
    baseSeed := base
    imageSets := ⟨imageSets⟩
    sourceRpms := sources
    recipes := recipes
    staged := sortedStaged lock.plan
    variantSeedRpms := variantSeed }

/-! ## What a module holds -/

/-- The lists of a module that loads. -/
structure Loaded (lock : Lock) (data : Generated) : Prop where
  seedRpms : dedupe lock.buildrootSeed = some data.seedRpms
  variantSeedRpms : dedupe lock.variantSeed = some data.variantSeedRpms
  baseSeed : data.baseSeed = lock.baseSeed.insertionSort (· ≤ ·)
  imageSets : lock.imageSets.items.mapM (fun item => (dedupe item.2).map (Prod.mk item.1)) =
    some data.imageSets.items
  sourceRpms : (sortedPackages lock).mapM (fun item => sourceEntryOf item.2.source) =
    some data.sourceRpms
  recipes : (sortedPackages lock).mapM (fun item => recipeOf data.baseSeed item.1 item.2) =
    some data.recipes
  staged : data.staged = sortedStaged lock.plan

section Collect

variable {lock : Lock} {data : Generated}

theorem loaded_of_collect (h : collect lock = some data) : Loaded lock data := by
  unfold collect at h
  obtain ⟨seed, hseed, h⟩ := Option.bind_eq_some_iff.mp h
  obtain ⟨variantSeed, hvariant, h⟩ := Option.bind_eq_some_iff.mp h
  obtain ⟨imageSets, himages, h⟩ := Option.bind_eq_some_iff.mp h
  obtain ⟨sources, hsources, h⟩ := Option.bind_eq_some_iff.mp h
  obtain ⟨recipes, hrecipes, h⟩ := Option.bind_eq_some_iff.mp h
  obtain rfl := Option.some.inj h
  exact ⟨hseed, hvariant, rfl, himages, hsources, hrecipes, rfl⟩

theorem recipeOf_name {base : List String} {name : String} {pkg : LockPackage} {recipe : Recipe}
    (h : recipeOf base name pkg = some recipe) : recipe.name = name := by
  unfold recipeOf at h
  obtain ⟨seeds, _, h⟩ := Option.bind_eq_some_iff.mp h
  obtain rfl := Option.some.inj h
  rfl

theorem recipeOf_sourceName {base : List String} {name : String} {pkg : LockPackage}
    {recipe : Recipe} (h : recipeOf base name pkg = some recipe) :
    recipe.sourceName =
      if pkg.source.sourceName = "" then pkg.source.name else pkg.source.sourceName := by
  unfold recipeOf at h
  obtain ⟨seeds, _, h⟩ := Option.bind_eq_some_iff.mp h
  obtain rfl := Option.some.inj h
  rfl

theorem recipeOf_lists {base : List String} {name : String} {pkg : LockPackage} {recipe : Recipe}
    (h : recipeOf base name pkg = some recipe) :
    recipe.subpackages = pkg.subpackages ∧ recipe.variantOf = pkg.variantOf := by
  unfold recipeOf at h
  obtain ⟨seeds, _, h⟩ := Option.bind_eq_some_iff.mp h
  obtain rfl := Option.some.inj h
  exact ⟨rfl, rfl⟩

/-- One recipe for every package of the lock, under its name. -/
theorem Loaded.names (h : Loaded lock data) :
    data.recipes.map Recipe.name = (sortedPackages lock).map Prod.fst :=
  Lists.map_eq_of_mapM h.recipes fun _ _ hr => recipeOf_name hr

theorem mem_sortedPackages {name : String} {pkg : LockPackage} :
    (name, pkg) ∈ sortedPackages lock ↔ lock.packages.get? name = some pkg := by
  unfold sortedPackages
  simp only [List.mem_filterMap, PyText.mem_sortedSet, Option.map_eq_some_iff, Prod.mk.injEq]
  constructor
  · rintro ⟨_, _, _, hget, rfl, rfl⟩
    exact hget
  · intro hget
    exact ⟨name, Dict.mem_keys_iff.mpr (by rw [hget]; rfl), pkg, hget, rfl, rfl⟩

theorem Loaded.nodup (h : Loaded lock data) : (data.recipes.map Recipe.name).Nodup := by
  rw [h.names]
  unfold sortedPackages
  rw [List.map_filterMap]
  have hsorted := PyText.nodup_sortedSet lock.packages.keys
  have hself : ∀ name name' : String,
      ((lock.packages.get? name).map (Prod.mk name)).map Prod.fst = some name' → name = name' := by
    intro name name' heq
    cases hget : lock.packages.get? name with
    | none =>
      rw [hget] at heq
      cases heq
    | some pkg =>
      rw [hget] at heq
      exact Option.some.inj heq
  refine hsorted.filterMap fun a a' b hb hb' => ?_
  rw [hself a b hb, hself a' b hb']

/-- The recipe of a package of the lock. -/
theorem Loaded.recipe (h : Loaded lock data) {name : String} {pkg : LockPackage}
    (hget : lock.packages.get? name = some pkg) :
    ∃ recipe ∈ data.recipes, recipe.name = name ∧
      recipeOf data.baseSeed name pkg = some recipe := by
  obtain ⟨recipe, hmem, hr⟩ := Lists.exists_of_mem_mapM h.recipes (mem_sortedPackages.mpr hget)
  exact ⟨recipe, hmem, recipeOf_name hr, hr⟩

/-- The package behind a recipe. -/
theorem Loaded.package (h : Loaded lock data) {recipe : Recipe} (hr : recipe ∈ data.recipes) :
    ∃ pkg, lock.packages.get? recipe.name = some pkg ∧
      recipeOf data.baseSeed recipe.name pkg = some recipe := by
  obtain ⟨⟨name, pkg⟩, hmem, hrecipe⟩ := Lists.exists_of_mapM_mem h.recipes hr
  have hname : recipe.name = name := recipeOf_name hrecipe
  rw [hname]
  exact ⟨pkg, mem_sortedPackages.mp hmem, hrecipe⟩

end Collect

end BuckosDistro.Generate
