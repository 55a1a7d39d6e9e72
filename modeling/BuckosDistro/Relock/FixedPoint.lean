/-
  A refresh over the repodata of its lock (`tools/relock.py`, `tools/rpm_relock.py` and the
  solver they call).

  The replay reads the same inputs in another order. The solver does not see the order: it
  reads the overrides and the variants key by key, the build set by membership, and of the
  roots of an image what their closure depends on. So a strict solve is a fixed point of its
  refresh (`refresh_fixed_point`).
-/
import BuckosDistro.Policy.Validated
import BuckosDistro.Relock.Refresh
import BuckosDistro.Relock.Resolved
import BuckosDistro.Solve.Alike

namespace BuckosDistro.Relock

open BuckosDistro.Lib BuckosDistro.Lib.Argparse BuckosDistro.Depgraph BuckosDistro.Solve
  BuckosDistro.Policy

/-! ## Images -/

theorem nodup_readImageOverrides {imageRoots : Dict String (List String)} {items : List String}
    {imageOverrides : Dict String (Dict String String)}
    (h : readImageOverrides imageRoots items = .ok imageOverrides) (image : String) :
    (imageOverrides.getD image Dict.empty).keys.Nodup := by
  have hall : ∀ image, (imageOverrides.getD image Dict.empty).keys.Nodup := by
    refine Lists.foldlM_invariant (fun _ (tables : Dict String (Dict String String)) =>
      ∀ image, (tables.getD image Dict.empty).keys.Nodup) ?_ ?_ h
    swap
    · exact fun _ => List.nodup_nil
    intro _ item before after hbefore hstep image
    obtain ⟨entry, _, hstep⟩ := Lists.exists_of_bind hstep
    obtain rfl := Except.ok.inj hstep
    unfold Dict.getD
    rw [Dict.get?_set]
    split_ifs
    · exact Dict.nodup_keys_set (hbefore entry.1) _ _
    · exact hbefore image
  exact hall image

section SourceBuildSet

variable {imageSets : Dict String (List String)} {sourceOf : Dict String String}
  {selected selected' prebuilt prebuilt' : List String}

/-- The selection is read by membership. -/
theorem sourceBuildSet_congr (hselected : ∀ image, image ∈ selected' ↔ image ∈ selected)
    (hprebuilt : ∀ src, src ∈ prebuilt' ↔ src ∈ prebuilt) :
    sourceBuildSet imageSets sourceOf selected' prebuilt' =
      sourceBuildSet imageSets sourceOf selected prebuilt := by
  have hstale : ∀ sources : List String,
      PyText.sortedSet (prebuilt'.filter (· ∉ sources)) =
        PyText.sortedSet (prebuilt.filter (· ∉ sources)) := by
    intro sources
    apply PyText.sortedSet_congr
    intro src
    rw [List.mem_filter, List.mem_filter, hprebuilt]
  have hnil : prebuilt' = [] ↔ prebuilt = [] := nil_iff_of_mem hprebuilt
  unfold sourceBuildSet
  simp only [PyText.sortedSet_congr hselected, PyText.sortedSet_congr hprebuilt, hstale, hnil,
    hprebuilt]

end SourceBuildSet

/-! ## Variants -/

/-- The same, but for the order of the build set. -/
structure SameVariants (s s' : Variants) : Prop where
  sourceIndex : s'.sourceIndex = s.sourceIndex
  buildSet : ∀ src, src ∈ s'.buildSet ↔ src ∈ s.buildSet
  problems : s'.problems = s.problems
  subpackages : s'.subpackages = s.subpackages
  routes : s'.routes = s.routes

section Variants

variable {u : Universe} {sourceSuperseded binarySuperseded : Superseded}
  {variants variants' : Dict String SourceVariant}

theorem SameVariants.step (h : ∀ name, variants'.get? name = variants.get? name)
    {s s' : Variants} (hs : SameVariants s s') (name : String) :
    SameVariants (addVariant u sourceSuperseded binarySuperseded variants s name)
      (addVariant u sourceSuperseded binarySuperseded variants' s' name) := by
  unfold addVariant
  rw [h]
  cases variants.get? name with
  | none => exact hs
  | some variant =>
    dsimp only
    rw [hs.sourceIndex]
    cases s.sourceIndex.get? variant.source with
    | none =>
      exact ⟨rfl, hs.buildSet, congrArg (· ++ _) hs.problems, hs.subpackages, hs.routes⟩
    | some current =>
      dsimp only
      cases sourceSuperseded.build (variant.source, current.arch) variant.evr with
      | none =>
        exact ⟨rfl, hs.buildSet, congrArg (· ++ _) hs.problems, hs.subpackages, hs.routes⟩
      | some older =>
        refine ⟨rfl, fun src => ?_, hs.problems, ?_, ?_⟩
        · rw [List.mem_append, List.mem_append, hs.buildSet]
        · dsimp only
          rw [hs.subpackages]
        · dsimp only
          rw [hs.routes]

theorem addSourceVariants_congr (h : ∀ name, variants'.get? name = variants.get? name)
    {buildSet buildSet' : List String} (hbuild : ∀ src, src ∈ buildSet' ↔ src ∈ buildSet) :
    SameVariants (addSourceVariants variants u sourceSuperseded binarySuperseded buildSet)
      (addSourceVariants variants' u sourceSuperseded binarySuperseded buildSet') := by
  unfold addSourceVariants
  rw [PyText.sortedSet_congr (mem_keys_of_get? h)]
  generalize PyText.sortedSet variants.keys = names
  induction names using List.reverseRecOn with
  | nil => exact ⟨rfl, hbuild, rfl, rfl, rfl⟩
  | append_singleton names name ih =>
    rw [List.foldl_append, List.foldl_append]
    exact ih.step h name

end Variants

/-! ## One solve and its refresh -/

/-- Two solves over one repodata, of the same inputs. -/
structure SameSolver (s s' : Solver) : Prop where
  inputs : SameInputs s.args s'.args s.inputs s'.inputs
  repodata : s'.repodata = s.repodata

section Same

variable {s s' : Solver} {reports : Reports} {built : List String}

theorem SameSolver.probedUniverse (h : SameSolver s s') :
    s'.probedUniverse reports = s.probedUniverse reports := by
  unfold Solver.probedUniverse
  rw [h.repodata, h.inputs.targetCpu]

theorem SameSolver.compose (h : SameSolver s s') : s'.compose reports = s.compose reports := by
  unfold Solver.compose
  rw [h.probedUniverse, h.repodata, h.inputs.targetCpu]

theorem SameSolver.group (h : SameSolver s s') :
    s'.args.flavor.implicitGroup = s.args.flavor.implicitGroup := by
  rw [h.inputs.flavor]

theorem SameSolver.scoped (h : SameSolver s s') (image cap : String) :
    (scopedOverrides s'.inputs.overrides s'.inputs.imageOverrides image).get? cap =
      (scopedOverrides s.inputs.overrides s.inputs.imageOverrides image).get? cap := by
  have hnodup : ∀ s : Solver, (s.inputs.imageOverrides.getD image Dict.empty).keys.Nodup :=
    fun s => nodup_readImageOverrides (readInputs_eq_ok.mp s.reads).imageOverrides image
  unfold scopedOverrides
  rw [Dict.get?_update (hnodup s), Dict.get?_update (hnodup s'), h.inputs.overrides,
    h.inputs.imageOverrides]

/-- The set of an image that has no problem. -/
theorem SameSolver.packageSet (h : SameSolver s s') {image : String}
    (hnone : (solvePackageSet (s.compose reports) (s.inputs.imageRoots.getD image [])
      (scopedOverrides s.inputs.overrides s.inputs.imageOverrides image)
      ("image:" ++ image)).2 = []) :
    solvePackageSet (s'.compose reports) (s'.inputs.imageRoots.getD image [])
        (scopedOverrides s'.inputs.overrides s'.inputs.imageOverrides image) ("image:" ++ image) =
      solvePackageSet (s.compose reports) (s.inputs.imageRoots.getD image [])
        (scopedOverrides s.inputs.overrides s.inputs.imageOverrides image) ("image:" ++ image) := by
  have hroots := h.inputs.roots image
  have hdedup := sameRoots_iff.mp hroots
  obtain ⟨hbuilt, hclosure⟩ := solvePackageSet_snd.mp hnone
  rw [h.compose, solvePackageSet_congr (h.scoped image)]
  refine Prod.ext (hroots _ _ _).symm ?_
  rw [hnone, solvePackageSet_snd]
  constructor
  · intro root hroot
    apply hbuilt
    rwa [← List.mem_dedup, hdedup, List.mem_dedup]
  · rw [closure_dedup, ← hdedup, ← closure_dedup]
    exact hclosure

theorem SameSolver.images (h : SameSolver s s') (hnone : (s.images reports).2 = []) :
    s'.images reports = s.images reports := by
  unfold Solver.images at hnone ⊢
  rw [h.compose]
  refine solveImageSets_congr h.inputs.images h.inputs.imageOverrides fun image himage => ?_
  have hset := List.flatMap_eq_nil_iff.mp hnone image (PyText.mem_sortedSet.mpr himage)
  have hpackage := h.packageSet (List.append_eq_nil_iff.mp hset).2
  rwa [h.compose] at hpackage

theorem SameSolver.binarySuperseded (h : SameSolver s s') :
    s'.binarySuperseded = s.binarySuperseded := by
  unfold Solver.binarySuperseded
  rw [h.repodata]

/-- The variants join the build set alike. -/
theorem SameSolver.added (h : SameSolver s s') :
    SameVariants (s.requested reports built).added (s'.requested reports built).added := by
  have hbuild : ∀ src, src ∈ s'.inputs.explicitBuild ++ built ↔
      src ∈ s.inputs.explicitBuild ++ built := by
    intro src
    rw [List.mem_append, List.mem_append, h.inputs.build]
  have hsame := @addSourceVariants_congr (s.probedUniverse reports)
    (mergePackages s.repodata.source).superseded s.binarySuperseded _ _ h.inputs.variants _ _ hbuild
  unfold Emission.added Solver.requested
  dsimp only
  rw [h.probedUniverse, h.repodata, h.binarySuperseded]
  exact hsame

theorem SameSolver.emitted (h : SameSolver s s') :
    (s'.requested reports built).emitted = (s.requested reports built).emitted := by
  have hrepodata : (s'.requested reports built).repodata = (s.requested reports built).repodata :=
    h.probedUniverse
  unfold Emission.emitted
  rw [h.added.sourceIndex, hrepodata]

theorem SameSolver.solution (h : SameSolver s s') :
    (s'.solved reports built).solution = (s.solved reports built).solution := by
  have hprobe : Family.loadProbe reports (s'.requested reports built).added.buildSet =
      Family.loadProbe reports (s.requested reports built).added.buildSet := by
    unfold Family.loadProbe
    simp only [h.added.buildSet]
  unfold Solver.solved Emission.solved
  dsimp only
  rw [hprobe, h.emitted, h.group, solve_congr h.inputs.overrides _ h.added.buildSet]

theorem SameSolver.seed (h : SameSolver s s') : s'.seed reports built = s.seed reports built := by
  have hroots : PyText.sortedSet (s'.args.seedPackage ++
        if s'.args.seedOnly then s'.args.flavor.implicitGroup else []) =
      PyText.sortedSet (s.args.seedPackage ++
        if s.args.seedOnly then s.args.flavor.implicitGroup else []) := by
    rw [h.inputs.seedOnly, h.group]
    apply PyText.sortedSet_congr
    intro pkg
    rw [List.mem_append, List.mem_append, h.inputs.seedPackages]
  have hemitted : (s'.solved reports built).emitted = (s.solved reports built).emitted :=
    h.emitted
  unfold Solver.seed
  rw [hroots, hemitted, solvePackageSet_congr h.inputs.overrides]

theorem SameSolver.problems (h : SameSolver s s') (hnone : (s.images reports).2 = []) :
    s'.problems reports built = s.problems reports built := by
  unfold Solver.problems
  rw [h.solution, h.images hnone, h.seed]
  exact congrArg (fun added => _ ++ added ++ _ ++ _) h.added.problems

/-- The plan is returned for both, or for none. -/
theorem SameSolver.planned (h : SameSolver s s') :
    (s'.solved reports built).planned s'.args.stages =
      (s.solved reports built).planned s.args.stages := by
  have hadded : SameVariants (s.solved reports built).added (s'.solved reports built).added :=
    h.added
  have hrepodata : (s'.solved reports built).repodata = (s.solved reports built).repodata :=
    h.probedUniverse
  unfold Emission.planned
  rw [h.solution, hrepodata, h.inputs.stages, hadded.routes,
    (planBuildOrder_congr _ _ hadded.buildSet _).1]

/-- The lock is the same, in the same order. -/
theorem SameSolver.lock (h : SameSolver s s') (hnone : (s.images reports).2 = []) :
    s'.lock reports built = s.lock reports built := by
  have hadded : SameVariants (s.emission reports built).added (s'.emission reports built).added :=
    h.added
  have hrepodata : (s'.emission reports built).repodata = (s.emission reports built).repodata :=
    h.probedUniverse
  have hemitted : (s'.emission reports built).emitted = (s.emission reports built).emitted :=
    h.emitted
  have hsolution : (s'.emission reports built).solution = (s.emission reports built).solution := by
    unfold Solver.emission
    dsimp only
    rw [h.solution, h.problems hnone]
  have hvariants : ∀ name, (s'.emission reports built).args.sourceVariant.get? name =
      (s.emission reports built).args.sourceVariant.get? name := h.inputs.variants
  have hsuperseded : (s'.emission reports built).args.binarySuperseded =
      (s.emission reports built).args.binarySuperseded := h.binarySuperseded
  have hplan : (s'.emission reports built).plan s'.args.stages.val.toNat =
      (s.emission reports built).plan s.args.stages.val.toNat := by
    unfold Emission.plan
    rw [hsolution, hrepodata, h.inputs.stages, hadded.routes,
      (planBuildOrder_congr _ _ hadded.buildSet _).2]
  unfold Solver.lock Solver.lockOf Emission.lock
  rw [hplan, h.images hnone, h.seed, h.compose, hemitted, hsolution, hadded.subpackages]
  exact emitLockfile_congr hvariants hadded.routes hsuperseded hadded.buildSet _ _ _ _ _ _

end Same

/-! ## The policy and the record -/

section Record

variable {s s' : Solver} {reports : Reports} {lock : Lock}

theorem SameSolver.sourceImage (h : SameSolver s s') :
    s'.args.sourceImage = [] ↔ s.args.sourceImage = [] := nil_iff_of_mem h.inputs.sourceImages

/-- The policy reads the exceptions by the table they make. -/
theorem SameSolver.sourcePolicy (h : SameSolver s s') {policy : SourcePolicy}
    (hpolicy : s.sourcePolicy lock = .ok policy) : s'.sourcePolicy lock = .ok policy := by
  have himages : policyImages lock s'.args.sourceImage = policyImages lock s.args.sourceImage := by
    unfold policyImages
    rw [PyText.sortedSet_congr h.inputs.sourceImages]
  have hproducers : policyProducers lock s'.args.prebuiltSource =
      policyProducers lock s.args.prebuiltSource := by
    unfold policyProducers
    simp only [h.inputs.prebuilt]
  obtain ⟨exceptions, _, hindex, _⟩ := exceptionIndex_recorded hpolicy
  obtain ⟨exceptions', hindex', hsame⟩ := h.inputs.exceptions exceptions hindex
  unfold Solver.sourcePolicy at hpolicy ⊢
  rw [himages, hproducers, ← hpolicy]
  exact buildSourcePolicy_congr (PyText.sortedSet_congr h.inputs.sourceImages) hindex' hindex hsame

theorem policy_of_checkPolicy (h : s.checkPolicy lock = .ok ())
    (himages : s.args.sourceImage ≠ []) :
    ∃ policy, s.sourcePolicy lock = .ok policy := by
  unfold Solver.checkPolicy at h
  rw [if_neg himages] at h
  cases hpolicy : s.sourcePolicy lock with
  | error exc =>
    rw [hpolicy] at h
    cases h
  | ok policy => exact ⟨policy, rfl⟩

theorem SameSolver.checkPolicy (h : SameSolver s s') (hpolicy : s.checkPolicy lock = .ok ()) :
    s'.checkPolicy lock = .ok () := by
  unfold Solver.checkPolicy
  split_ifs with himages
  · rfl
  · obtain ⟨policy, hmade⟩ := policy_of_checkPolicy hpolicy (mt h.sourceImage.mpr himages)
    rw [h.sourcePolicy hmade]

/-- A strict solve that ends, ends the same. -/
theorem SameSolver.solveMain (h : SameSolver s s') (hsolve : s.solveMain reports true = .ok lock)
    (strict : Bool) : s'.solveMain reports strict = .ok lock := by
  obtain ⟨built, hsolved⟩ := solveMain_eq_ok.mp hsolve
  obtain ⟨himages, hproblems, hseed⟩ := hsolved.refused rfl
  have hlock := @SameSolver.lock s s' reports built h himages
  refine solveMain_eq_ok.mpr ⟨built, ?_, ?_, ?_, ?_, ?_⟩
  · rw [h.images himages, h.compose,
      sourceBuildSet_congr h.inputs.sourceImages h.inputs.prebuilt]
    exact hsolved.sources
  · rw [h.planned]
    exact hsolved.planned
  · rw [hlock]
    exact h.checkPolicy hsolved.policy
  · intro _
    rw [h.images himages, h.solution, h.seed]
    exact ⟨himages, hproblems, hseed⟩
  · rw [hlock]
    exact hsolved.written

/-- What a solve emits is its record. -/
theorem emits_of_solveMain {strict : Bool} (h : s.solveMain reports strict = .ok lock) :
    Emits s.args s.lines s.inputs (s.record lock) := by
  obtain ⟨built, hsolved⟩ := solveMain_eq_ok.mp h
  refine ⟨s.reads, _, rfl, ?_⟩
  by_cases himages : s.args.sourceImage = []
  · rw [if_pos himages, if_pos himages]
  · rw [if_neg himages, if_neg himages]
    have hpolicy := hsolved.policy
    rw [← hsolved.written] at hpolicy
    obtain ⟨policy, hmade⟩ := policy_of_checkPolicy hpolicy himages
    rw [hmade]
    exact ⟨_, _, policy, hmade, rfl⟩

theorem variantSpecs_congr {variants variants' : Dict String SourceVariant}
    (h : ∀ name, variants'.get? name = variants.get? name) :
    variantSpecs variants' = variantSpecs variants := by
  unfold variantSpecs
  rw [PyText.sortedSet_congr (mem_keys_of_get? h)]
  simp only [h]

theorem sorted_sorted (items : List String) : sorted (sorted items) = sorted items := by
  unfold sorted
  exact (List.pairwise_insertionSort (· ≤ ·) items).insertionSort_eq

/-- A release that is none is replayed as a text. -/
def Recorded.released (record : Recorded) : Recorded :=
  { record with release := some (record.release.getD "None") }

/-- The refresh records what it was handed. -/
theorem SameSolver.record {flavor : Flavor} {r : Replay} (h : SameSolver s s')
    (hargs : s'.args = replayArgs flavor (s.record lock) r)
    (hpolicy : s.checkPolicy lock = .ok ()) : s'.record lock = (s.record lock).released := by
  have hflavor : flavor = s.args.flavor := by
    rw [← h.inputs.flavor, hargs]
    rfl
  have hexceptions : (s'.record lock).sourceExceptions = (s.record lock).sourceExceptions := by
    unfold Solver.record recordInputs
    dsimp only
    by_cases himages : s.args.sourceImage = []
    · rw [if_pos himages, if_pos (h.sourceImage.mpr himages)]
    · obtain ⟨policy, hmade⟩ := policy_of_checkPolicy hpolicy himages
      rw [if_neg himages, if_neg (mt h.sourceImage.mp himages), hmade, h.sourcePolicy hmade]
  have hbuild := PyText.sortedSet_congr h.inputs.build
  have himages := PyText.sortedSet_congr h.inputs.sourceImages
  have hprebuilt := PyText.sortedSet_congr h.inputs.prebuilt
  have hvariants := variantSpecs_congr h.inputs.variants
  have hrecord : ∀ s : Solver, s.record lock =
      recordInputs s.args s.inputs (s.record lock).sourceExceptions := fun _ => rfl
  rw [hrecord s', hexceptions, hrecord s]
  unfold Recorded.released recordInputs
  rw [hbuild, himages, hprebuilt, hvariants, hargs, hflavor]
  unfold replayArgs Solver.record recordInputs
  dsimp only
  rw [sorted_sorted, sorted_sorted, sorted_sorted, sorted_sorted]

end Record

/-- **A strict solve is a fixed point of its refresh**: over the repodata and the probe it was
    made from, the replay of its lock is parsed, its solve ends in the same lock, whether strict
    or not, and that records the inputs again. -/
theorem refresh_fixed_point {s : Solver} {reports : Reports} {lock : Lock} {tool : Tool}
    {r : Replay} (h : s.solveMain reports true = .ok lock) (hr : Replays s.args tool r)
    (hok : Replayable s.args s.inputs r) (strict : Bool) :
    ∃ s' : Solver, s'.repodata = s.repodata ∧
      parseArgs (solveArgv tool (s.record lock) r) = some s'.args ∧
      s'.solveMain reports strict = .ok lock ∧ s'.record lock = (s.record lock).released := by
  have hemits := emits_of_solveMain h
  obtain ⟨inputs', hread⟩ := (reads_replay hemits hr).mpr hok.consumed
  have hinputs := (sameInputs_iff hemits (hread [])).mpr
    ⟨hok.overrides, hok.imageOverrides, hok.roots⟩
  have hvalues : ∀ text ∈ replayedTexts (s.record lock) r, takenForOption text = false :=
    passed_iff.mpr hok.values
  have hparse := @parse_solveArgv (s.record lock) r tool s.args.flavor rfl hr.tool hr.binary
  rw [if_pos hvalues] at hparse
  obtain ⟨s', hargs, hsame⟩ : ∃ s', s'.args = replayArgs s.args.flavor (s.record lock) r ∧
      SameSolver s s' := ⟨⟨_, [], inputs', hread [], s.repodata⟩, rfl, hinputs, rfl⟩
  obtain ⟨built, hsolved⟩ := solveMain_eq_ok.mp h
  have hpolicy := hsolved.policy
  rw [← hsolved.written] at hpolicy
  rw [← hargs] at hparse
  exact ⟨s', hsame.repodata, hparse, hsame.solveMain h strict, hsame.record hargs hpolicy⟩

def awkBuild (name : String) : PackageRecord where
  name := name
  arch := "x86_64"
  provides := ["awk"]

def shellSolver : Solver where
  args := shellArgs
  lines := []
  inputs := shellInputs
  reads := rfl
  repodata := ⟨[("fedora", [{ bashBuild with requires := ["(sh or dash)", "awk"] },
    awkBuild "gawk", awkBuild "mawk"])], [], []⟩

theorem shell_solved : Solved shellSolver Dict.empty true (shellSolver.lock Dict.empty []) [] := by
  refine ⟨rfl, ⟨_, rfl⟩, rfl, fun _ => ⟨?_, ?_, ?_⟩, rfl⟩
  · decide +kernel
  · decide +kernel
  · decide +kernel

theorem refresh_fixed_point_shell : ∃ s' : Solver, s'.repodata = shellSolver.repodata ∧
    parseArgs (solveArgv .rpm (shellSolver.record (shellSolver.lock Dict.empty [])) shellReplay) =
      some s'.args ∧
    s'.solveMain Dict.empty true = .ok (shellSolver.lock Dict.empty []) ∧
    s'.record (shellSolver.lock Dict.empty []) =
      (shellSolver.record (shellSolver.lock Dict.empty [])).released := by
  have hreplays : Replays shellSolver.args .rpm shellReplay :=
    ⟨fun h => absurd h (by decide), by decide, by decide⟩
  exact refresh_fixed_point (solveMain_eq_ok.mpr ⟨[], shell_solved⟩) hreplays shell_replayable true

end BuckosDistro.Relock
