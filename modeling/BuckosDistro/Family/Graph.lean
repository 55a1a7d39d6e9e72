/-
  The rules of a release name each other without a gap and without a cycle.

  A package is given the trees and the rpms of what it is built against. What the planner wrote
  down decides them: the members of a cycle come from the stage before, everything else from
  what ships, and what is taken from no recipe is a pin with a tree of its own. So the rules can
  be put in an order in which each label is that of an earlier one.
-/
import BuckosDistro.Family.Provenance
import BuckosDistro.Family.Rules
import BuckosDistro.Family.Schedule
import BuckosDistro.Lib.Ordered
import BuckosDistro.Relock.SolveMain

namespace BuckosDistro.Family

open BuckosDistro.Lib BuckosDistro.Depgraph BuckosDistro.Generate BuckosDistro.Solve
open BuckosDistro.Relock

/-- Every label is known, or that of an earlier rule. -/
abbrev Grounded (known : List Label) (rules : List Rule) : Prop :=
  Ordered.Grounded Rule.label Rule.labels known rules

/-! ## The rules of a call -/

section Call

variable {call : PackageCall} {known : List Label}

/-- The targets of a call, in three parts. -/
theorem rules_eq (call : PackageCall) :
    let source := sourceOf call.name (some call.sourceName)
    let subs := subpackagesOf source (some call.subpackages)
    let topdir := label (call.name ++ "-topdir".toList)
    let build := label (call.name ++ "-build".toList)
    call.rules =
      [.package call (.srpmUnpack (call.name ++ "-topdir".toList) (source ++ ".spec".toList)),
        .package call (.srpmBuildrequires (call.name ++ "-buildrequires".toList) topdir source),
        .package call (.srpmBuild (call.name ++ "-build".toList) topdir source)] ++
      (subs.flatMap fun sub =>
        [.package call (.rpmSubpackage (subpackageTarget call.name source sub) build sub),
          .package call (.builtRpm (subpackageRpmTarget call.name source sub) build sub)]) ++
      [.package call (.alias call.name (aliasActual call.name source subs))] := by
  unfold PackageCall.rules rpmPackage
  dsimp only
  rw [List.map_append, List.map_append, List.map_flatMap]
  rfl

/-- A call is grounded over what it is given. -/
theorem grounded_rules (hsrpm : call.srpm ∈ known) (hroot : call.buildroot ∈ known)
    (hdeps : call.buildDeps ⊆ known) (hrpms : call.depRpms ⊆ known) :
    Grounded known call.rules := by
  rw [rules_eq]
  have hgiven : call.buildroot :: (call.buildDeps ++ call.depRpms) ⊆ known :=
    List.cons_subset.mpr ⟨hroot, List.append_subset.mpr ⟨hdeps, hrpms⟩⟩
  apply Ordered.grounded_append.mpr
  refine ⟨Ordered.grounded_append.mpr ⟨⟨?_, ?_, ?_, trivial⟩, ?_⟩, ?_, trivial⟩
  · exact List.cons_subset.mpr ⟨hsrpm, List.nil_subset _⟩
  · refine List.cons_subset.mpr ⟨List.mem_cons_self, ?_⟩
    exact List.Subset.trans hgiven (List.subset_cons_self _ _)
  · refine List.cons_subset.mpr ⟨List.mem_cons_of_mem _ List.mem_cons_self, ?_⟩
    intro l hl
    exact List.mem_cons_of_mem _ (List.mem_cons_of_mem _ (hgiven hl))
  · apply Ordered.grounded_of_known
    intro rule hrule
    obtain ⟨sub, _, hrule⟩ := List.mem_flatMap.mp hrule
    have hbuild : rule.labels = [label (call.name ++ "-build".toList)] := by
      rcases List.mem_cons.mp hrule with rfl | hrule
      · rfl
      · rw [List.mem_singleton.mp hrule]
        rfl
    rw [hbuild]
    refine List.cons_subset.mpr ⟨?_, List.nil_subset _⟩
    exact List.mem_append_left _ (by simp [Rule.label, Rule.name, Target.name])
  · -- the alias stands for the subpackage of the source's name, or for the build
    refine List.cons_subset.mpr ⟨?_, List.nil_subset _⟩
    apply List.mem_append_left
    unfold aliasActual
    split_ifs with hsource
    · rw [List.map_append]
      apply List.mem_append_right
      refine List.mem_map.mpr ⟨_, List.mem_flatMap.mpr ⟨_, hsource, List.mem_cons_self⟩, rfl⟩
    · rw [List.map_append]
      exact List.mem_append_left _ (by simp [Rule.label, Rule.name, Target.name, label])

/-- What a call makes: its probe and its own name. -/
theorem mem_labels_rules (call : PackageCall) :
    label (call.name ++ "-buildrequires".toList) ∈ call.rules.map Rule.label ∧
      label call.name ∈ call.rules.map Rule.label := by
  rw [rules_eq]
  constructor
  · rw [List.map_append, List.map_append]
    apply List.mem_append_left
    apply List.mem_append_left
    exact List.mem_cons_of_mem _ List.mem_cons_self
  · rw [List.map_append]
    apply List.mem_append_right
    exact List.mem_singleton.mpr rfl

/-- What a call makes of each subpackage. -/
theorem mem_labels_sub (hsource : call.sourceName ≠ []) {sub : List Char}
    (hsub : sub ∈ call.subpackages) :
    label (subpackageTarget call.name call.sourceName sub) ∈ call.rules.map Rule.label ∧
      label (subpackageRpmTarget call.name call.sourceName sub) ∈ call.rules.map Rule.label := by
  have hname : sourceOf call.name (some call.sourceName) = call.sourceName := if_neg hsource
  have hsubs : subpackagesOf call.sourceName (some call.subpackages) = call.subpackages :=
    if_neg (List.ne_nil_of_mem hsub)
  rw [rules_eq, hname, hsubs, List.map_append, List.map_append, List.map_flatMap]
  constructor
  · apply List.mem_append_left
    apply List.mem_append_right
    exact List.mem_flatMap.mpr ⟨sub, hsub, List.mem_cons_self⟩
  · apply List.mem_append_left
    apply List.mem_append_right
    exact List.mem_flatMap.mpr ⟨sub, hsub, List.mem_cons_of_mem _ List.mem_cons_self⟩

end Call

/-! ## Which variant of a source -/

section VariantMap

variable {defaultVariant stageTarget : Dict String String} {exclude fromStage : String}
  {cycleDeps : List String}

/-- What the map says of a source: its stage where it is on the cycle, else what ships. -/
def Chosen (defaultVariant : Dict String String) (exclude : String) (cycleDeps : List String)
    (fromStage : String) (stageTarget : Dict String String) (source chosen : String) : Prop :=
  source ≠ exclude ∧
    (source ∈ cycleDeps ∧ fromStage ≠ "seed" ∧
        stageTarget.get? (source ++ "/" ++ fromStage) = some chosen ∨
      source ∉ cycleDeps ∧ defaultVariant.get? source = some chosen)

/-- The map is made when every stage it asks for has a target. -/
theorem exists_variantMap (hnodup : defaultVariant.keys.Nodup)
    (hstaged : ∀ source ∈ cycleDeps, source ∈ defaultVariant.keys → fromStage ≠ "seed" →
      (stageTarget.get? (source ++ "/" ++ fromStage)).isSome) :
    ∃ variant, variantMap defaultVariant exclude cycleDeps fromStage stageTarget = .ok variant ∧
      ∀ source chosen, variant.get? source = some chosen →
        Chosen defaultVariant exclude cycleDeps fromStage stageTarget source chosen := by
  unfold variantMap
  apply Lists.exists_foldlM
  · intro variant item hitem hchosen
    have hset {value : String}
        (h : Chosen defaultVariant exclude cycleDeps fromStage stageTarget item.1 value) :
        ∀ source chosen, (variant.set item.1 value).get? source = some chosen →
          Chosen defaultVariant exclude cycleDeps fromStage stageTarget source chosen := by
      intro source chosen hget
      rw [Dict.get?_set] at hget
      split_ifs at hget with hsource
      · rw [hsource, ← Option.some.inj hget]
        exact h
      · exact hchosen source chosen hget
    unfold variantStep
    split_ifs with hown hcycle hseed
    · exact ⟨variant, rfl, hchosen⟩
    · exact ⟨variant, rfl, hchosen⟩
    · have hkey : item.1 ∈ defaultVariant.keys := List.mem_map_of_mem hitem
      obtain ⟨target, htarget⟩ :=
        Option.isSome_iff_exists.mp (hstaged item.1 hcycle hkey hseed)
      rw [htarget]
      exact ⟨_, rfl, hset ⟨hown, .inl ⟨hcycle, hseed, htarget⟩⟩⟩
    · exact ⟨_, rfl, hset ⟨hown, .inr ⟨hcycle, (Dict.mem_items_iff hnodup).mp hitem⟩⟩⟩
  · intro source chosen h
    exact absurd h.symm (Option.some_ne_none _)

end VariantMap

/-! ## A module of an emission -/

/-- The name a target of a plan is called by. -/
def PlanTarget.target : PlanTarget → String
  | .plain source => source
  | .stage source k => stageName source k

/-- A module that is generated from the lock of an emission. -/
structure FromEmission (e : Emission) (stages : ℕ) (lock : Lock) (data : Generated) : Prop where
  loaded : Loaded lock data
  packages : ∀ src pkg, lock.packages.get? src = some pkg ↔
    src ∈ e.added.buildSet ∧ pkg = e.package src
  plan : lock.plan = e.plan stages
  stages : 1 ≤ stages
  inverse : e.repodata.producers.Inverse
  stated : ∀ name spec, e.variants.get? name = some spec → spec.source ≠ ""
  named : "" ∉ e.added.buildSet
  pinned : ∀ recipe ∈ data.recipes, ∀ item ∈ recipe.variantSeed.items,
    item.2 ∈ data.variantSeedRpms.map RpmEntry.target

section Emission

variable {e : Emission} {stages : ℕ} {lock : Lock} {data : Generated} {recipe : Recipe}
  {config : LocalConfig}

theorem recipe_of_mem (h : FromEmission e stages lock data) (hr : recipe ∈ data.recipes) :
    recipe.name ∈ e.added.buildSet ∧
      recipeOf data.baseSeed recipe.name (e.package recipe.name) = some recipe := by
  obtain ⟨pkg, hpkg, hrecipe⟩ := h.loaded.package hr
  obtain ⟨hmem, rfl⟩ := (h.packages _ _).mp hpkg
  exact ⟨hmem, hrecipe⟩

theorem exists_recipe (h : FromEmission e stages lock data) {src : String}
    (hsrc : src ∈ e.added.buildSet) : ∃ recipe ∈ data.recipes, recipe.name = src := by
  obtain ⟨recipe, hr, hname, _⟩ := h.loaded.recipe ((h.packages _ _).mpr ⟨hsrc, rfl⟩)
  exact ⟨recipe, hr, hname⟩

/-- A recipe is known by its name. -/
theorem recipe_unique (h : FromEmission e stages lock data) {other : Recipe}
    (hr : recipe ∈ data.recipes) (ho : other ∈ data.recipes) (hname : recipe.name = other.name) :
    recipe = other := by
  exact List.inj_on_of_nodup_map h.loaded.nodup hr ho hname

/-- No recipe has a nameless spec. -/
theorem sourceName_ne (h : FromEmission e stages lock data) (hr : recipe ∈ data.recipes) :
    recipe.sourceName ≠ "" := by
  obtain ⟨hmem, hrecipe⟩ := recipe_of_mem h hr
  rw [recipeOf_sourceName hrecipe, source_name_package]
  intro hempty
  exact h.named (specName_eq_empty hempty ▸ hmem)

/-- Every recipe has a source rpm. -/
theorem exists_source (h : FromEmission e stages lock data) (hr : recipe ∈ data.recipes) :
    ∃ source ∈ data.sourceRpms,
      (tables config data).bySource.get? recipe.name = some source := by
  obtain ⟨hmem, _⟩ := recipe_of_mem h hr
  have hpkg := (h.packages _ _).mpr ⟨hmem, rfl⟩
  obtain ⟨entry, hentry, hof⟩ :=
    Lists.exists_of_mem_mapM h.loaded.sourceRpms (mem_sortedPackages.mpr hpkg)
  have hname : entry.name = recipe.name := by
    unfold sourceEntryOf at hof
    obtain ⟨location, _, hof⟩ := Option.bind_eq_some_iff.mp hof
    obtain ⟨sha256, _, hof⟩ := Option.bind_eq_some_iff.mp hof
    rw [← Option.some.inj hof]
    show (lockSource e.emitted e.variants recipe.name).name = recipe.name
    unfold lockSource
    cases e.emitted.sourceIndex.get? recipe.name <;> rfl
  obtain ⟨source, hsource⟩ := Dict.exists_get?_foldl SourceEntry.name id hentry
  rw [hname] at hsource
  obtain ⟨found, hfound, _, rfl⟩ := Dict.mem_of_get?_foldl hsource
  exact ⟨found, hfound, hsource⟩

/-! ### Stages -/

/-- A staged entry of the module, as the planner wrote it. -/
theorem plan_entry (h : FromEmission e stages lock data) {entry : StageEntry}
    (hentry : entry ∈ data.staged) : ∃ entry' ∈ (e.plan stages).staged,
      entry = { entry' with cycleDeps := entry'.cycleDeps.insertionSort (· ≤ ·) } := by
  rw [h.loaded.staged, h.plan] at hentry
  obtain ⟨entry', hmem, rfl⟩ := List.mem_map.mp hentry
  exact ⟨entry', (List.mem_insertionSort _).mp hmem, rfl⟩

theorem staged_of_plan (h : FromEmission e stages lock data) {entry : StageEntry}
    (hentry : entry ∈ (e.plan stages).staged) :
    { entry with cycleDeps := entry.cycleDeps.insertionSort (· ≤ ·) } ∈ data.staged := by
  rw [h.loaded.staged, h.plan]
  exact List.mem_map.mpr ⟨entry, (List.mem_insertionSort _).mpr hentry, rfl⟩

theorem target_of_staged (h : FromEmission e stages lock data) :
    ∀ entry ∈ data.staged, entry.target = stageName entry.source entry.stage := by
  intro entry hentry
  obtain ⟨entry', hmem, rfl⟩ := plan_entry h hentry
  exact (staged_stagedPlan _ _ _ _).named entry' hmem

/-- The stages of the module are those of the sources on a cycle. -/
theorem exists_stage_iff (h : FromEmission e stages lock data) {src : String} {k : ℕ} :
    (∃ entry ∈ data.staged, entry.source = src ∧ entry.stage = k) ↔
      (src ∈ e.added.buildSet ∧ OnCycle e.graph src) ∧ 1 ≤ k ∧ k ≤ stages := by
  have hplan : (∃ entry ∈ data.staged, entry.source = src ∧ entry.stage = k) ↔
      ∃ entry ∈ (e.plan stages).staged, entry.source = src ∧ entry.stage = k := by
    constructor
    · intro hex
      obtain ⟨entry, hentry, hsame⟩ := hex
      obtain ⟨entry', hmem, rfl⟩ := plan_entry h hentry
      exact ⟨entry', hmem, hsame⟩
    · intro hex
      obtain ⟨entry, hentry, hsame⟩ := hex
      exact ⟨_, staged_of_plan h hentry, hsame⟩
  rw [hplan]
  exact exists_staged_iff

theorem mem_sources_iff (h : FromEmission e stages lock data) {src : String} :
    src ∈ data.staged.map StageEntry.source ↔ src ∈ e.added.buildSet ∧ OnCycle e.graph src := by
  constructor
  · intro hsrc
    obtain ⟨entry, hentry, rfl⟩ := List.mem_map.mp hsrc
    exact ((exists_stage_iff h).mp ⟨entry, hentry, rfl, rfl⟩).1
  · intro hcycle
    obtain ⟨entry, hentry, rfl, _⟩ := (exists_stage_iff h).mpr ⟨hcycle, le_refl 1, h.stages⟩
    exact List.mem_map_of_mem hentry

/-- The target that is looked up for a source and a stage. -/
theorem get?_stageTarget (h : FromEmission e stages lock data) {src target : String} {k : ℕ} :
    (tables config data).stageTarget.get? (src ++ "/" ++ ("stage" ++ toString k)) = some target ↔
      ((src ∈ e.added.buildSet ∧ OnCycle e.graph src) ∧ 1 ≤ k ∧ k ≤ stages) ∧
        target = stageName src k := by
  have hkey : src ++ "/" ++ ("stage" ++ toString k) = stageKey src k := by
    unfold stageKey
    rw [← String.append_assoc, @String.append_assoc src]
    rfl
  rw [hkey]
  show (stageTargets data.staged).get? (stageKey src k) = some target ↔ _
  rw [get?_stageTargets (target_of_staged h), ← exists_stage_iff h]
  split_ifs with hstaged
  · rw [Option.some.injEq, and_iff_right hstaged, eq_comm]
  · constructor
    · intro hnone
      exact hnone.elim
    · intro hboth
      exact absurd hboth.1 hstaged

/-! ### What ships -/

theorem get?_ships (h : FromEmission e stages lock data) {src target : String} :
    (shipped data.staged).get? src = some target ↔
      (src ∈ e.added.buildSet ∧ OnCycle e.graph src) ∧ target = stageName src stages := by
  have hfilter : shipped data.staged = (data.staged.filter StageEntry.ships).foldl
      (fun ships entry => ships.set entry.source entry.target) Dict.empty := by
    unfold shipped
    rw [List.foldl_filter]
  have hlast {entry : StageEntry} (hentry : entry ∈ data.staged) :
      entry.ships = true ↔ entry.stage = stages := by
    obtain ⟨entry', hmem, rfl⟩ := plan_entry h hentry
    obtain ⟨cycle, _, source, _, i, _, rfl⟩ := mem_staged.mp hmem
    exact decide_eq_true_iff
  have hsome {target : String} (hget : (shipped data.staged).get? src = some target) :
      (src ∈ e.added.buildSet ∧ OnCycle e.graph src) ∧ target = stageName src stages := by
    rw [hfilter] at hget
    obtain ⟨entry, hentry, rfl, rfl⟩ := Dict.mem_of_get?_foldl hget
    obtain ⟨hentry, hships⟩ := List.mem_filter.mp hentry
    refine ⟨((exists_stage_iff h).mp ⟨entry, hentry, rfl, rfl⟩).1, ?_⟩
    rw [target_of_staged h entry hentry, (hlast hentry).mp hships]
  constructor
  · exact hsome
  · intro hcycle
    obtain ⟨hcycle, rfl⟩ := hcycle
    obtain ⟨entry, hentry, hsource, hstage⟩ :=
      (exists_stage_iff h).mpr ⟨hcycle, h.stages, le_refl stages⟩
    have hmem : entry ∈ data.staged.filter StageEntry.ships :=
      List.mem_filter.mpr ⟨hentry, (hlast hentry).mpr hstage⟩
    obtain ⟨target, htarget⟩ := Dict.exists_get?_foldl StageEntry.source StageEntry.target hmem
    rw [hsource, ← hfilter] at htarget
    rw [htarget, (hsome htarget).2]

/-- The default variant of a source is the target that ships it. -/
theorem ships_of_default (h : FromEmission e stages lock data) {src chosen : String}
    (hget : (tables config data).defaultVariant.get? src = some chosen) :
    ∃ t, Ships (e.plan stages) src t ∧ t.source = src ∧ t.target = chosen := by
  obtain ⟨recipe, hr, rfl, rfl⟩ := Dict.mem_of_get?_foldl hget
  obtain ⟨hmem, _⟩ := recipe_of_mem h hr
  show ∃ t : PlanTarget, _ ∧ _ ∧ t.target = (shipped data.staged).getD recipe.name recipe.name
  unfold Dict.getD
  cases hships : (shipped data.staged).get? recipe.name with
  | some target =>
    obtain ⟨⟨_, hcycle⟩, rfl⟩ := (get?_ships h).mp hships
    exact ⟨.stage recipe.name stages, (ships_iff h.stages).mpr ⟨hmem, .inr ⟨hcycle, rfl⟩⟩, rfl, rfl⟩
  | none =>
    have hnot : ¬ OnCycle e.graph recipe.name := by
      intro hcycle
      have hsome := (get?_ships h).mpr ⟨⟨hmem, hcycle⟩, rfl⟩
      rw [hships] at hsome
      exact absurd hsome.symm (Option.some_ne_none _)
    exact ⟨.plain recipe.name, (ships_iff h.stages).mpr ⟨hmem, .inl ⟨hnot, rfl⟩⟩, rfl, rfl⟩

theorem nodup_default : (tables config data).defaultVariant.keys.Nodup := by
  have hempty : (Dict.empty : Dict String String).keys.Nodup := List.nodup_nil
  apply Dict.nodup_keys_foldl _ _ data.recipes hempty
  intro d recipe hd
  exact Dict.nodup_keys_set hd _ _

/-! ### What a target is built against -/

/-- The map of a target leads to what it is built against. -/
def Leads (e : Emission) (stages : ℕ) (t : PlanTarget) (variant : Dict String String) : Prop :=
  ∀ dep chosen, variant.get? dep = some chosen → dep ≠ t.source ∧
    (dep ∈ e.graph.getD t.source ∅ → ∃ t', BuiltAgainst e.graph (e.plan stages) t t' ∧
      t'.source = dep ∧ t'.target = chosen)

theorem exists_plainVariant (h : FromEmission e stages lock data) (hr : recipe ∈ data.recipes)
    (hplain : recipe.name ∉ data.staged.map StageEntry.source) :
    ∃ variant, variantMap (tables config data).defaultVariant recipe.name [] "" Dict.empty =
      .ok variant ∧ Leads e stages (.plain recipe.name) variant := by
  have horder : recipe.name ∈ (e.plan stages).order := by
    obtain ⟨hmem, _⟩ := recipe_of_mem h hr
    apply mem_order.mpr
    exact ⟨hmem, fun hcycle => hplain ((mem_sources_iff h).mpr ⟨hmem, hcycle⟩)⟩
  obtain ⟨variant, hvariant, hchosen⟩ := @exists_variantMap
    (tables config data).defaultVariant Dict.empty recipe.name "" [] nodup_default
    fun source hsource => absurd hsource List.not_mem_nil
  refine ⟨variant, hvariant, fun dep chosen hget => ?_⟩
  obtain ⟨hne, ⟨hcycle, _⟩ | ⟨_, hdefault⟩⟩ := hchosen dep chosen hget
  · exact absurd hcycle List.not_mem_nil
  · refine ⟨hne, fun hedge => ?_⟩
    obtain ⟨t, hships, hsource, htarget⟩ := ships_of_default h hdefault
    exact ⟨t, .plain horder hedge hships, hsource, htarget⟩

theorem exists_stagedVariant (h : FromEmission e stages lock data) {entry : StageEntry}
    (hentry : entry ∈ data.staged) :
    ∃ variant, variantMap (tables config data).defaultVariant entry.source entry.cycleDeps
      entry.cycleDepsFrom (tables config data).stageTarget = .ok variant ∧
        Leads e stages (.stage entry.source entry.stage) variant := by
  obtain ⟨entry, hplan, rfl⟩ := plan_entry h hentry
  have hcycleDeps (dep : String) :
      dep ∈ entry.cycleDeps.insertionSort (· ≤ ·) ↔ dep ∈ entry.cycleDeps :=
    List.mem_insertionSort _
  -- past the first stage, a cycle is taken from the stage before
  have hstage : entry.cycleDepsFrom ≠ "seed" →
      entry.cycleDepsFrom = "stage" ++ toString (entry.stage - 1) ∧ 1 ≤ entry.stage - 1 ∧
        entry.stage - 1 ≤ stages := by
    obtain ⟨cycle, _, src, _, i, hi, rfl⟩ := mem_staged.mp hplan
    intro hne
    have hfirst : i + 1 ≠ 1 := fun hone => hne (if_pos hone)
    refine ⟨if_neg hfirst, ?_⟩
    show 1 ≤ i + 1 - 1 ∧ i + 1 - 1 ≤ stages
    omega
  have hbefore {dep : String} (hdep : dep ∈ entry.cycleDeps) :
      dep ∈ e.added.buildSet ∧ OnCycle e.graph dep := by
    obtain ⟨hedge, hback⟩ := (mem_cycleDeps_iff hplan).mp hdep
    exact ⟨mem_buildSet_of_edge hedge, Relation.TransGen.tail' hback hedge⟩
  have hstaged : ∀ source ∈ entry.cycleDeps.insertionSort (· ≤ ·),
      source ∈ (tables config data).defaultVariant.keys → entry.cycleDepsFrom ≠ "seed" →
        ((tables config data).stageTarget.get? (source ++ "/" ++ entry.cycleDepsFrom)).isSome := by
    intro dep hdep _ hseed
    obtain ⟨hfrom, hpos, hle⟩ := hstage hseed
    rw [hfrom, Option.isSome_iff_exists]
    rw [hcycleDeps] at hdep
    exact ⟨_, (get?_stageTarget h).mpr ⟨⟨hbefore hdep, hpos, hle⟩, rfl⟩⟩
  obtain ⟨variant, hvariant, hchosen⟩ :=
    @exists_variantMap _ _ entry.source _ _ nodup_default hstaged
  refine ⟨variant, hvariant, fun dep chosen hget => ?_⟩
  obtain ⟨hne, ⟨hcycle, hseed, htarget⟩ | ⟨hcycle, hdefault⟩⟩ := hchosen dep chosen hget
  · rw [hcycleDeps] at hcycle
    obtain ⟨hfrom, _⟩ := hstage hseed
    rw [hfrom] at htarget
    obtain ⟨_, rfl⟩ := (get?_stageTarget h).mp htarget
    refine ⟨hne, fun _ => ⟨.stage dep (entry.stage - 1), ?_, rfl, rfl⟩⟩
    exact @BuiltAgainst.before _ _ entry _ _ hplan hcycle hfrom
  · rw [hcycleDeps] at hcycle
    obtain ⟨t, hships, hsource, htarget⟩ := ships_of_default h hdefault
    refine ⟨hne, fun hedge => ⟨t, ?_, hsource, htarget⟩⟩
    exact @BuiltAgainst.outside _ _ entry _ _ hplan hedge hcycle hships

/-! ### Who builds a binary -/

theorem recipeOf_deps {base : List String} {name : String} {pkg : LockPackage}
    (h : recipeOf base name pkg = some recipe) :
    recipe.buildDeps = PyText.sortedSet (pkg.depsBuilt.map Pin.name) ∧
      recipe.depVariants =
        ⟨(pkg.depsBuilt.filter isRouted).map fun pin => (pin.name, pin.variant.getD "")⟩ := by
  unfold recipeOf at h
  obtain ⟨seeds, _, h⟩ := Option.bind_eq_some_iff.mp h
  obtain rfl := Option.some.inj h
  exact ⟨rfl, rfl⟩

/-- A binary that a recipe names is one its source is built with. -/
theorem used_of_mem (h : FromEmission e stages lock data) (hr : recipe ∈ data.recipes)
    {binary : String} (hb : binary ∈ recipe.buildDeps) :
    binary ∈ e.solution.buildDeps.getD recipe.name ∅ ∧
      routedBinary e.emitted e.args recipe.name binary ∈ (e.package recipe.name).depsBuilt := by
  obtain ⟨_, hrecipe⟩ := recipe_of_mem h hr
  rw [(recipeOf_deps hrecipe).1, PyText.mem_sortedSet] at hb
  obtain ⟨pin, hpin, rfl⟩ := List.mem_map.mp hb
  obtain ⟨dep, hdep, htaken, rfl⟩ := mem_depsBuilt.mp hpin
  rw [routedBinary_name]
  exact ⟨hdep, mem_depsBuilt.mpr ⟨dep, hdep, htaken, rfl⟩⟩

/-- A recipe routes what the routes say. -/
theorem route_of_depVariants (h : FromEmission e stages lock data) (hr : recipe ∈ data.recipes)
    {binary routed : String} (hroute : recipe.depVariants.get? binary = some routed) :
    e.added.routes.route recipe.name binary = some routed ∧ routed ≠ "" := by
  obtain ⟨_, hrecipe⟩ := recipe_of_mem h hr
  rw [(recipeOf_deps hrecipe).2] at hroute
  obtain ⟨pin, hpin, heq⟩ := List.mem_map.mp (Dict.mem_items_of_get? hroute)
  obtain ⟨rfl, rfl⟩ := Prod.mk.inj heq
  obtain ⟨hpin, hrouted⟩ := List.mem_filter.mp hpin
  obtain ⟨dep, _, _, rfl⟩ := mem_depsBuilt.mp hpin
  unfold isRouted at hrouted
  rw [routedBinary_variant] at hrouted ⊢
  rw [routedBinary_name]
  show e.added.routes.route recipe.name dep =
      some ((e.added.routes.route recipe.name dep).getD "") ∧
    (e.added.routes.route recipe.name dep).getD "" ≠ ""
  have hargs : e.args.routes = e.added.routes := rfl
  rw [hargs] at hrouted
  cases hvariant : e.added.routes.route recipe.name dep with
  | none =>
    rw [hvariant] at hrouted
    exact absurd hrouted Bool.false_ne_true
  | some variant =>
    refine ⟨rfl, fun hempty => ?_⟩
    rw [hvariant, show variant = "" from hempty] at hrouted
    exact absurd hrouted Bool.false_ne_true

/-- What a recipe does not route is taken from its source. -/
theorem dep_of_unrouted (h : FromEmission e stages lock data) (hr : recipe ∈ data.recipes)
    {binary : String} (hb : binary ∈ recipe.buildDeps)
    (hroute : recipe.depVariants.get? binary = none) :
    e.dep recipe.name binary = e.repodata.sourceOf.get? binary := by
  obtain ⟨_, hrecipe⟩ := recipe_of_mem h hr
  obtain ⟨_, hpin⟩ := used_of_mem h hr hb
  have hargs : e.args.routes = e.added.routes := rfl
  unfold Emission.dep
  cases hvariant : e.added.routes.route recipe.name binary with
  | none => exact depSource_of_unrouted hvariant
  | some variant =>
    by_cases hempty : variant = ""
    · rw [hempty] at hvariant
      exact depSource_of_empty hvariant
    · -- its pin would be routed
      exfalso
      have hrouted : isRouted (routedBinary e.emitted e.args recipe.name binary) = true := by
        unfold isRouted
        rw [routedBinary_variant, hargs, hvariant]
        split
        · next heq => exact absurd heq.symm (by simp)
        · next heq => exact absurd (Option.some.inj heq) hempty
        · rfl
      have hkey : binary ∈ recipe.depVariants.keys := by
        rw [(recipeOf_deps hrecipe).2]
        have hkept := List.mem_filter.mpr ⟨hpin, hrouted⟩
        refine List.mem_map.mpr ⟨_, List.mem_map.mpr ⟨_, hkept, rfl⟩, ?_⟩
        exact routedBinary_name _ _ _ _
      rw [Dict.mem_keys_iff, hroute] at hkey
      exact absurd hkey Bool.false_ne_true

theorem edge_of_dep {src binary dep : String} (hsrc : src ∈ e.added.buildSet)
    (hused : binary ∈ e.solution.buildDeps.getD src ∅) (hdep : e.dep src binary = some dep)
    (hbuilt : dep ∈ e.added.buildSet) (hne : dep ≠ src) : dep ∈ e.graph.getD src ∅ := by
  have hgraph : e.graph.getD src ∅ = (e.solution.buildDeps.getD src ∅).biUnion
      (edgeOf e.added.routes e.repodata.sourceOf e.added.buildSet src) :=
    Dict.getD_eq_of_get? ∅ (Dict.get?_ofKeys _ hsrc)
  have hsource : depSource e.added.routes e.repodata.sourceOf src binary = some dep := hdep
  rw [hgraph, Finset.mem_biUnion]
  refine ⟨binary, hused, ?_⟩
  unfold edgeOf
  rw [hsource]
  dsimp only
  rw [if_pos ⟨hbuilt, hne⟩]
  exact Finset.mem_singleton_self dep

/-- A provider is the recipe of the source the binary is filed under. -/
theorem provider_spec (h : FromEmission e stages lock data) {binary : String}
    {skip : List String} {producer : Recipe}
    (hget : (binaryProviders data.recipes skip).get? binary = some producer) :
    producer ∈ data.recipes ∧ binary ∈ producer.subpackages ∧
      e.repodata.sourceOf.get? binary = some producer.name := by
  have hskip : binaryProviders data.recipes skip =
      binaryProviders (data.recipes.filter fun recipe => recipe.name ∉ skip) [] := by
    unfold binaryProviders
    rw [List.filter_filter]
    congr 1
    apply List.filter_congr
    intro recipe _
    cases recipe.variantOf.any (· ≠ "") <;> simp
  rw [hskip] at hget
  obtain ⟨hmem, hvariant, hlists⟩ := get?_binaryProviders hget
  have hr := (List.mem_filter.mp hmem).1
  obtain ⟨_, hrecipe⟩ := recipe_of_mem h hr
  have hnone : e.variants.get? producer.name = none := by
    cases hv : e.variants.get? producer.name with
    | none => rfl
    | some spec =>
      have hof : producer.variantOf = some spec.source := by
        rw [(recipeOf_lists hrecipe).2]
        exact congrArg (Option.map SourceVariant.source) hv
      unfold isVariant at hvariant
      rw [hof, Option.any_some, decide_eq_false_iff_not] at hvariant
      exact absurd (h.stated _ _ hv) hvariant
  refine ⟨hr, hlists, ?_⟩
  rw [(recipeOf_lists hrecipe).1, subpackages_of_no_variant hnone] at hlists
  exact (h.inverse binary producer.name).mp hlists

/-- A route leads to the recipe of a variant, which lists the binary. -/
theorem variantRecipe_spec (h : FromEmission e stages lock data) {src binary routed : String}
    (hroute : e.added.routes.route src binary = some routed) :
    ∃ spec ∈ data.recipes, (tables config data).variantRecipe.get? routed = some spec ∧
      spec.name = routed ∧ binary ∈ spec.subpackages := by
  obtain ⟨variant, hacc, _, hlists, _⟩ :=
    (added_addSourceVariants e.buildSet).routed src binary routed hroute
  obtain ⟨recipe, hr, hname⟩ := exists_recipe h hacc.built
  obtain ⟨_, hrecipe⟩ := recipe_of_mem h hr
  have hkept : recipe ∈ data.recipes.filter fun recipe => recipe.variantOf.any (· ≠ "") := by
    rw [List.mem_filter, (recipeOf_lists hrecipe).2]
    refine ⟨hr, ?_⟩
    show ((e.variants.get? recipe.name).map SourceVariant.source).any (· ≠ "") = true
    rw [hname, hacc.stated, Option.map_some, Option.any_some, decide_eq_true_iff]
    exact h.stated _ _ hacc.stated
  obtain ⟨spec, hspec⟩ := Dict.exists_get?_foldl Recipe.name id hkept
  rw [hname] at hspec
  obtain ⟨found, hfound, hsame, rfl⟩ := Dict.mem_of_get?_foldl hspec
  have hmem := (List.mem_filter.mp hfound).1
  obtain rfl := recipe_unique h hmem hr (hsame.trans hname.symm)
  refine ⟨found, hr, hspec, hname, ?_⟩
  rw [(recipeOf_lists hrecipe).1, hname]
  exact mem_subpackages_of_accepted hacc hlists

/-! ### What a package is given -/

/-- A pin with a tree of its own. -/
def Overlaid (data : Generated) (entry : RpmEntry) : Prop :=
  entry.target ∈ (overlaid data).map RpmEntry.target ∧
    entry ∈ data.seedRpms ++ data.variantSeedRpms

/-- Where a dependency of a target comes from: a pin, or what the target is built against. -/
inductive Supplied (e : Emission) (stages : ℕ) (data : Generated) (suffix : List Char)
    (t : PlanTarget) : Dep → Prop
  | pinned {entry : RpmEntry} : Overlaid data entry →
      Supplied e stages data suffix t (.pinned suffix entry)
  | built {t' : PlanTarget} {spec : Recipe} {binary : String} :
      BuiltAgainst e.graph (e.plan stages) t t' → spec ∈ data.recipes → spec.name = t'.source →
      binary ∈ spec.subpackages →
      Supplied e stages data suffix t (.built suffix t'.target spec.sourceName binary)

theorem overlaid_of_seedRpm {binary : String} {entry : RpmEntry}
    (hget : (tables config data).seedRpm.get? binary = some entry) : Overlaid data entry := by
  obtain ⟨found, hfound, _, rfl⟩ := Dict.mem_of_get?_foldl hget
  have hseed := (List.mem_filter.mp hfound).1
  exact ⟨List.mem_map_of_mem (List.mem_append_left _ hfound), List.mem_append_left _ hseed⟩

theorem overlaid_of_variantSeed (h : FromEmission e stages lock data) (hr : recipe ∈ data.recipes)
    {binary : String} {entry : RpmEntry}
    (hget : (variantSeed data recipe).get? binary = some entry) : Overlaid data entry := by
  obtain ⟨item, hitem, hpair⟩ := List.mem_filterMap.mp (Dict.mem_items_of_get? hget)
  obtain ⟨found, hfound, heq⟩ := Option.map_eq_some_iff.mp hpair
  obtain ⟨_, rfl⟩ := Prod.mk.inj heq
  obtain ⟨entry, hentry, htarget, rfl⟩ := Dict.mem_of_get?_foldl hfound
  refine ⟨?_, hentry⟩
  show entry.target ∈ _
  rw [htarget]
  have hvariant := h.pinned recipe hr item hitem
  unfold overlaid
  rw [List.map_append]
  exact List.mem_append_right _ hvariant

/-- Every dependency of a recipe is found, and supplied. -/
theorem exists_buildDep (h : FromEmission e stages lock data) (hr : recipe ∈ data.recipes)
    {t : PlanTarget} (ht : t.source = recipe.name) {variant : Dict String String}
    (hleads : Leads e stages t variant) {suffix : List Char} {binary : String}
    (hb : binary ∈ recipe.buildDeps) :
    ∃ dep, buildDep data (tables config data) suffix recipe variant binary = .ok dep ∧
      ∀ d, dep = some d → Supplied e stages data suffix t d := by
  obtain ⟨hmem, _⟩ := recipe_of_mem h hr
  obtain ⟨hused, _⟩ := used_of_mem h hr hb
  have hseed : ∀ d, (((variantSeed data recipe).get? binary).or
      ((tables config data).seedRpm.get? binary)).map (Dep.pinned suffix) = some d →
        Supplied e stages data suffix t d := by
    intro d hd
    obtain ⟨entry, hentry, rfl⟩ := Option.map_eq_some_iff.mp hd
    rcases Option.or_eq_some_iff.mp hentry with hvariant | ⟨_, hplain⟩
    · exact .pinned (overlaid_of_variantSeed h hr hvariant)
    · exact .pinned (overlaid_of_seedRpm hplain)
  -- what the map leads to is built before, and its recipe lists the binary
  have hbuilt {spec : Recipe} {chosen : String} (hspec : spec ∈ data.recipes)
      (hlists : binary ∈ spec.subpackages) (hdep : e.dep recipe.name binary = some spec.name)
      (hget : variant.get? spec.name = some chosen) :
      ∀ d, some (Dep.built suffix chosen spec.sourceName binary) = some d →
        Supplied e stages data suffix t d := by
    intro d hd
    obtain rfl := Option.some.inj hd
    obtain ⟨hne, hled⟩ := hleads spec.name chosen hget
    rw [ht] at hne hled
    obtain ⟨t', hagainst, hsource, rfl⟩ :=
      hled (edge_of_dep hmem hused hdep (recipe_of_mem h hspec).1 hne)
    exact .built hagainst hspec hsource.symm hlists
  unfold buildDep
  cases hroute : recipe.depVariants.get? binary with
  | some routed =>
    obtain ⟨hrouted, hne⟩ := route_of_depVariants h hr hroute
    obtain ⟨spec, hspec, hget, rfl, hlists⟩ :=
      @variantRecipe_spec _ _ _ _ config h _ _ _ hrouted
    dsimp only
    rw [hget]
    dsimp only
    cases hchosen : variant.get? spec.name with
    | none => exact ⟨_, rfl, hseed⟩
    | some chosen =>
      exact ⟨_, rfl, hbuilt hspec hlists (depSource_of_routed hrouted hne) hchosen⟩
  | none =>
    dsimp only
    cases hget : (tables config data).provider.get? binary with
    | none =>
      refine ⟨_, rfl, fun d hd => ?_⟩
      split_ifs at hd with hdeps
      obtain ⟨entry, hentry, rfl⟩ := Option.map_eq_some_iff.mp hd
      exact .pinned (overlaid_of_seedRpm hentry)
    | some producer =>
      obtain ⟨hspec, hlists, hfiled⟩ := provider_spec h hget
      have hdep := (dep_of_unrouted h hr hb hroute).trans hfiled
      dsimp only
      cases hchosen : variant.get? producer.name with
      | none => exact ⟨_, rfl, hseed⟩
      | some chosen => exact ⟨_, rfl, hbuilt hspec hlists hdep hchosen⟩

end Emission

/-! ## The calls -/

/-- The call for a target of the plan. -/
structure CallOf (e : Emission) (stages : ℕ) (config : LocalConfig) (data : Generated)
    (suffix : List Char) (t : PlanTarget) (call : PackageCall) : Prop where
  recipe : ∃ recipe ∈ data.recipes, recipe.name = t.source ∧
    call.sourceName = recipe.sourceName.toList ∧
    call.subpackages = recipe.subpackages.map String.toList
  name : call.name = t.target.toList ++ suffix
  buildroot : call.buildroot = rpmBuildrootTarget config suffix
  srpm : ∃ source ∈ data.sourceRpms, call.srpm = downloadLabel suffix source.target
  supplied : ∀ l ∈ call.buildDeps ++ call.depRpms, ∃ dep,
    Supplied e stages data suffix t dep ∧ (l = dep.buildDep ∨ l = dep.rpm)

section Calls

variable {e : Emission} {stages : ℕ} {lock : Lock} {data : ReleaseData} {recipe : Recipe}
  {flavor : Flavor} {config : LocalConfig} {suffix : List Char}
  {bconds : Dict String (List String)}

theorem exists_rpmOnePackage (h : FromEmission e stages lock data.toGenerated)
    (hbconds : disabledBconds flavor config = .ok bconds) (hr : recipe ∈ data.recipes)
    {t : PlanTarget} (ht : t.source = recipe.name) {variant : Dict String String}
    (hleads : Leads e stages t variant) :
    ∃ call, rpmOnePackage flavor config data (tables config data.toGenerated) suffix recipe
      t.target variant = .ok call ∧ CallOf e stages config data.toGenerated suffix t call := by
  obtain ⟨source, hsource, hget⟩ := @exists_source _ _ _ _ _ config h hr
  have hfound {binary : String} (hb : binary ∈ recipe.buildDeps) :=
    @exists_buildDep _ _ _ _ _ config h hr t ht variant hleads suffix binary hb
  obtain ⟨built, hbuilt, _⟩ := Lists.exists_mapM fun binary hb => hfound hb
  unfold rpmOnePackage
  rw [hget]
  dsimp only
  rw [hbuilt, hbconds]
  refine ⟨_, rfl, ⟨recipe, hr, ht.symm, rfl, rfl⟩, rfl, rfl, ⟨source, hsource, rfl⟩, ?_⟩
  -- what the two lists are made of
  have hall : ∀ dep ∈ built.reduceOption ++
      (recipe.seedDeps.filterMap (tables config data.toGenerated).seedRpm.get?).map
        (Dep.pinned suffix), Supplied e stages data.toGenerated suffix t dep := by
    intro dep hdep
    rcases List.mem_append.mp hdep with hdep | hdep
    · rw [List.reduceOption_mem_iff] at hdep
      obtain ⟨binary, hb, hcase⟩ := Lists.exists_of_mapM_ok hbuilt hdep
      obtain ⟨found, hof, hsupplied⟩ := hfound hb
      rw [hcase] at hof
      exact hsupplied dep (Except.ok.inj hof).symm
    · obtain ⟨entry, hentry, rfl⟩ := List.mem_map.mp hdep
      obtain ⟨binary, _, hget⟩ := List.mem_filterMap.mp hentry
      exact .pinned (overlaid_of_seedRpm hget)
  intro l hl
  rcases List.mem_append.mp hl with hl | hl
  · obtain ⟨dep, hdep, rfl⟩ := List.mem_map.mp ((List.mem_insertionSort _).mp hl)
    exact ⟨dep, hall dep hdep, .inl rfl⟩
  · obtain ⟨dep, hdep, rfl⟩ := List.mem_map.mp ((List.mem_insertionSort _).mp hl)
    exact ⟨dep, hall dep hdep, .inr rfl⟩

theorem exists_plainCall (h : FromEmission e stages lock data.toGenerated)
    (hbconds : disabledBconds flavor config = .ok bconds) (hr : recipe ∈ data.recipes)
    (hplain : recipe.name ∉ data.staged.map StageEntry.source) :
    ∃ call, plainCall flavor config data suffix recipe = .ok call ∧
      CallOf e stages config data.toGenerated suffix (.plain recipe.name) call := by
  obtain ⟨variant, hvariant, hleads⟩ := @exists_plainVariant _ _ _ _ _ config h hr hplain
  obtain ⟨call, hcall, hof⟩ := exists_rpmOnePackage h hbconds hr rfl hleads
  refine ⟨call, ?_, hof⟩
  unfold plainCall
  dsimp only
  rw [hvariant]
  exact hcall

theorem exists_stagedCall (h : FromEmission e stages lock data.toGenerated)
    (hbconds : disabledBconds flavor config = .ok bconds) {entry : StageEntry}
    (hentry : entry ∈ data.staged) :
    ∃ call, stagedCall flavor config data suffix entry = .ok call ∧
      CallOf e stages config data.toGenerated suffix (.stage entry.source entry.stage) call := by
  have hmem := ((mem_sources_iff h).mp (List.mem_map_of_mem hentry)).1
  obtain ⟨recipe, hr, hname⟩ := exists_recipe h hmem
  obtain ⟨variant, hvariant, hleads⟩ := @exists_stagedVariant _ _ _ _ config h _ hentry
  obtain ⟨call, hcall, hof⟩ :=
    exists_rpmOnePackage h hbconds hr (t := .stage entry.source entry.stage) hname.symm hleads
  refine ⟨call, ?_, hof⟩
  have hnamed : recipeNamed data.recipes entry.source = some recipe := by
    rw [← hname]
    exact recipeNamed_eq h.loaded.nodup hr
  unfold stagedCall
  rw [hnamed]
  dsimp only
  rw [hvariant, target_of_staged h entry hentry]
  exact hcall

/-! ### The calls and the plan -/

/-- The targets that are called, in the order of the calls. -/
def planTargets (data : Generated) : List PlanTarget :=
  (data.recipes.filter fun recipe => recipe.name ∉ data.staged.map StageEntry.source).map
      (fun recipe => .plain recipe.name) ++
    data.staged.map fun entry => .stage entry.source entry.stage

/-- Every call succeeds, and is that of its target. -/
theorem exists_calls (h : FromEmission e stages lock data.toGenerated)
    (hbconds : disabledBconds flavor config = .ok bconds) :
    ∃ plain staged,
      (data.recipes.filter fun recipe => recipe.name ∉ data.staged.map StageEntry.source).mapM
        (plainCall flavor config data suffix) = .ok plain ∧
      data.staged.mapM (stagedCall flavor config data suffix) = .ok staged ∧
      List.Forall₂ (CallOf e stages config data.toGenerated suffix)
        (planTargets data.toGenerated) (plain ++ staged) := by
  obtain ⟨plain, hplain, hplains⟩ := Lists.exists_mapM fun recipe hmem =>
    @exists_plainCall _ _ _ _ recipe flavor config suffix _ h hbconds (List.mem_filter.mp hmem).1
      (of_decide_eq_true (List.mem_filter.mp hmem).2)
  obtain ⟨staged, hstaged, hstages⟩ := Lists.exists_mapM fun entry hmem =>
    @exists_stagedCall _ _ _ _ flavor config suffix _ h hbconds entry hmem
  refine ⟨plain, staged, hplain, hstaged, ?_⟩
  exact List.rel_append (List.forall₂_map_left_iff.mpr hplains)
    (List.forall₂_map_left_iff.mpr hstages)

theorem nodup_planTargets (h : FromEmission e stages lock data.toGenerated) :
    (planTargets data.toGenerated).Nodup := by
  have hplain : ((data.recipes.filter fun recipe =>
      recipe.name ∉ data.staged.map StageEntry.source).map
        fun recipe => PlanTarget.plain recipe.name).Nodup := by
    have hnames := h.loaded.nodup.sublist (List.Sublist.map Recipe.name
      (@List.filter_sublist _ (fun recipe =>
        decide (recipe.name ∉ data.staged.map StageEntry.source)) data.recipes))
    have hinj : Function.Injective PlanTarget.plain := fun v w heq => PlanTarget.plain.inj heq
    have hmap := hnames.map hinj
    rwa [List.map_map] at hmap
  have hstaged : (data.staged.map fun entry =>
      PlanTarget.stage entry.source entry.stage).Nodup := by
    have hsorted : (data.staged.map fun entry => (entry.source, entry.stage)).Nodup := by
      rw [h.loaded.staged, h.plan]
      unfold sortedStaged
      rw [List.map_map]
      have hperm := (List.perm_insertionSort stagedLe (e.plan stages).staged).map
        fun entry => (entry.source, entry.stage)
      exact hperm.nodup_iff.mpr nodup_staged
    have hinj : Function.Injective fun pair : String × ℕ =>
        PlanTarget.stage pair.1 pair.2 := by
      intro v w heq
      obtain ⟨hsource, hstage⟩ := PlanTarget.stage.inj heq
      exact Prod.ext hsource hstage
    have hmap := hsorted.map hinj
    rwa [List.map_map] at hmap
  refine hplain.append hstaged fun t hp hs => ?_
  obtain ⟨recipe, _, rfl⟩ := List.mem_map.mp hp
  obtain ⟨entry, _, heq⟩ := List.mem_map.mp hs
  cases heq

/-- The targets that are called are those of the schedule. -/
theorem planTargets_perm (h : FromEmission e stages lock data.toGenerated) :
    (planTargets data.toGenerated).Perm (schedule e.graph stages) := by
  refine (List.perm_ext_iff_of_nodup (nodup_planTargets h) nodup_schedule).mpr fun t => ?_
  have hmem : t ∈ planTargets data.toGenerated ↔
      (∃ recipe ∈ data.recipes, recipe.name ∉ data.staged.map StageEntry.source ∧
        PlanTarget.plain recipe.name = t) ∨
      ∃ entry ∈ data.staged, PlanTarget.stage entry.source entry.stage = t := by
    unfold planTargets
    rw [List.mem_append, List.mem_map, List.mem_map]
    refine or_congr (exists_congr fun recipe => ?_) Iff.rfl
    rw [List.mem_filter, decide_eq_true_iff, and_assoc]
  rw [hmem]
  cases t with
  | plain src =>
    unfold Emission.graph
    rw [mem_schedule_plain, mem_flatten_iff]
    constructor
    · intro hex
      obtain ⟨recipe, hr, hnot, heq⟩ | ⟨entry, _, heq⟩ := hex
      · obtain rfl := PlanTarget.plain.inj heq
        obtain ⟨hbuilt, _⟩ := recipe_of_mem h hr
        exact ⟨hbuilt, fun hcycle => hnot ((mem_sources_iff h).mpr ⟨hbuilt, hcycle⟩)⟩
      · cases heq
    · intro hsrc
      obtain ⟨recipe, hr, rfl⟩ := exists_recipe h hsrc.1
      exact .inl ⟨recipe, hr, fun hin => hsrc.2 ((mem_sources_iff h).mp hin).2, rfl⟩
  | stage src k =>
    unfold Emission.graph
    rw [mem_schedule_stage, mem_flatten_iff]
    constructor
    · intro hex
      obtain ⟨recipe, _, _, heq⟩ | ⟨entry, hentry, heq⟩ := hex
      · cases heq
      · obtain ⟨rfl, rfl⟩ := PlanTarget.stage.inj heq
        exact (exists_stage_iff h).mp ⟨entry, hentry, rfl, rfl⟩
    · intro hstage
      obtain ⟨entry, hentry, rfl, rfl⟩ := (exists_stage_iff h).mpr hstage
      exact .inr ⟨entry, hentry, rfl⟩

/-! ### What is there before the packages -/

/-- The labels that the packages of a release rely on. -/
structure Provides (config : LocalConfig) (data : Generated) (suffix : List Char)
    (known : List Label) : Prop where
  seeds : ∀ entry ∈ data.seedRpms ++ data.variantSeedRpms,
    downloadLabel suffix entry.target ∈ known
  sources : ∀ source ∈ data.sourceRpms, downloadLabel suffix source.target ∈ known
  trees : ∀ entry, Overlaid data entry → label (seedInstallrootTarget entry suffix) ∈ known
  buildroot : rpmBuildrootTarget config suffix ∈ known

theorem Provides.mono {known known' : List Label}
    (h : Provides config data.toGenerated suffix known) (hsub : known ⊆ known') :
    Provides config data.toGenerated suffix known' :=
  ⟨fun entry he => hsub (h.seeds entry he), fun source hs => hsub (h.sources source hs),
    fun entry he => hsub (h.trees entry he), hsub h.buildroot⟩

/-- A pin that is overlaid has a tree. -/
theorem label_of_overlaid {data : Generated} {entry : RpmEntry} (h : Overlaid data entry) :
    label (seedInstallrootTarget entry suffix) ∈
      (rpmSeedInstallroots data suffix).map Rule.label := by
  obtain ⟨found, hfound, htarget⟩ := List.mem_map.mp h.1
  obtain ⟨tree, htree⟩ := Dict.exists_get?_foldl RpmEntry.target id hfound
  have hget : (byTarget (overlaid data)).get? found.target = some tree := htree
  obtain ⟨same, _, hsame, rfl⟩ := Dict.mem_of_get?_foldl htree
  have hkey : found.target ∈ (byTarget (overlaid data)).keys := by
    rw [Dict.mem_keys_iff, hget]
    rfl
  refine List.mem_map.mpr ⟨_, List.mem_map.mpr ⟨same, List.mem_filterMap.mpr
    ⟨found.target, PyText.mem_sortedSet.mpr hkey, hget⟩, rfl⟩, ?_⟩
  show label (seedInstallrootTarget same suffix) = label (seedInstallrootTarget entry suffix)
  unfold seedInstallrootTarget
  rw [show same.target = entry.target from hsame.trans htarget]

/-- A tree is made of its download. -/
theorem grounded_installroots {data : Generated} {known : List Label}
    (h : ∀ entry ∈ data.seedRpms ++ data.variantSeedRpms,
      downloadLabel suffix entry.target ∈ known) :
    Grounded known (rpmSeedInstallroots data suffix) := by
  apply Ordered.grounded_of_known
  intro rule hrule
  obtain ⟨entry, hentry, rfl⟩ := List.mem_map.mp hrule
  obtain ⟨target, _, hget⟩ := List.mem_filterMap.mp hentry
  obtain ⟨found, hfound, _, rfl⟩ := Dict.mem_of_get?_foldl hget
  have hmem : found ∈ data.seedRpms ++ data.variantSeedRpms := by
    rcases List.mem_append.mp hfound with hseed | hvariant
    · exact List.mem_append_left _ (List.mem_filter.mp hseed).1
    · exact List.mem_append_right _ hvariant
  exact List.cons_subset.mpr ⟨h found hmem, List.nil_subset _⟩

/-! ### The packages in the order of the plan -/

/-- What a call makes of a binary its recipe lists. -/
theorem mem_labels_call (h : FromEmission e stages lock data.toGenerated) {t : PlanTarget}
    {call : PackageCall} (hcall : CallOf e stages config data.toGenerated suffix t call)
    (hr : recipe ∈ data.recipes) (hname : recipe.name = t.source) {binary : String}
    (hlists : binary ∈ recipe.subpackages) :
    label (subpackageTarget (t.target.toList ++ suffix) recipe.sourceName.toList binary.toList) ∈
        call.rules.map Rule.label ∧
      label (subpackageRpmTarget (t.target.toList ++ suffix) recipe.sourceName.toList
        binary.toList) ∈ call.rules.map Rule.label := by
  obtain ⟨recipe', hr', hname', hsource, hsubs⟩ := hcall.recipe
  obtain rfl := recipe_unique h hr hr' (hname.trans hname'.symm)
  have hne : call.sourceName ≠ [] := by
    rw [hsource]
    intro hempty
    exact sourceName_ne h hr (String.toList_inj.mp hempty)
  have hsub : binary.toList ∈ call.subpackages := by
    rw [hsubs]
    exact List.mem_map_of_mem hlists
  have hlabels := mem_labels_sub hne hsub
  rwa [hcall.name, hsource] at hlabels

/-- A call is grounded over what is there and the calls it is built against. -/
theorem grounded_call (h : FromEmission e stages lock data.toGenerated) {known : List Label}
    (hknown : Provides config data.toGenerated suffix known) {t : PlanTarget}
    {call : PackageCall} (hcall : CallOf e stages config data.toGenerated suffix t call)
    (hbefore : ∀ t', BuiltAgainst e.graph (e.plan stages) t t' → ∃ call',
      CallOf e stages config data.toGenerated suffix t' call' ∧
        call'.rules.map Rule.label ⊆ known) :
    Grounded known call.rules := by
  have hsupplied : call.buildDeps ++ call.depRpms ⊆ known := by
    intro l hl
    obtain ⟨dep, hdep, hlabel⟩ := hcall.supplied l hl
    cases hdep with
    | pinned hoverlaid =>
      rcases hlabel with rfl | rfl
      · exact hknown.trees _ hoverlaid
      · exact hknown.seeds _ hoverlaid.2
    | built hagainst hspec hname hlists =>
      obtain ⟨call', hcall', hsub⟩ := hbefore _ hagainst
      obtain ⟨htree, hrpm⟩ := mem_labels_call h hcall' hspec hname hlists
      rcases hlabel with rfl | rfl
      · exact hsub htree
      · exact hsub hrpm
  obtain ⟨source, hsource, hsrpm⟩ := hcall.srpm
  apply grounded_rules
  · rw [hsrpm]
    exact hknown.sources source hsource
  · rw [hcall.buildroot]
    exact hknown.buildroot
  · exact List.Subset.trans (List.subset_append_left _ _) hsupplied
  · exact List.Subset.trans (List.subset_append_right _ _) hsupplied

/-- The calls in the order of the schedule are grounded over what is there before them. -/
theorem grounded_calls (h : FromEmission e stages lock data.toGenerated) {known : List Label}
    (hknown : Provides config data.toGenerated suffix known) {calls : List PackageCall}
    (hcalls : List.Forall₂ (CallOf e stages config data.toGenerated suffix)
      (schedule e.graph stages) calls) : Grounded known (calls.flatMap PackageCall.rules) := by
  apply Ordered.grounded_flatMap
  intro before call after heq
  rw [heq] at hcalls
  obtain ⟨done, t, _, hschedule, hdone, hcall⟩ := Lists.exists_split hcalls
  apply grounded_call h (hknown.mono (List.subset_append_right _ _)) hcall
  intro t' hagainst
  obtain ⟨call', hmem, hcall'⟩ :=
    Lists.exists_related hdone (mem_of_builtAgainst h.stages hschedule hagainst)
  refine ⟨call', hcall', fun l hl => List.mem_append_left _ ?_⟩
  obtain ⟨rule, hrule, rfl⟩ := List.mem_map.mp hl
  exact List.mem_map_of_mem (List.mem_flatMap.mpr ⟨call', hmem, hrule⟩)

end Calls

end BuckosDistro.Family
