/-
  What a solve makes of its inputs (`tools/solve.py`): the overrides and the variants are read
  key by key, and the build set by membership. Two solves whose inputs agree that far are the
  same solve.
-/
import BuckosDistro.Depgraph.Cycles
import BuckosDistro.Depgraph.Overridden
import BuckosDistro.Solve.Frame
import BuckosDistro.Solve.Lockfile
import BuckosDistro.Solve.PackageSet

namespace BuckosDistro.Solve

open BuckosDistro.Lib BuckosDistro.Depgraph

/-! ## Overrides -/

section Overrides

variable {overrides overrides' : Dict String String}

theorem mem_keys_of_get? {α : Type} {d d' : Dict String α} (h : ∀ key, d'.get? key = d.get? key)
    (key : String) : key ∈ d'.keys ↔ key ∈ d.keys := by
  rw [Dict.mem_keys_iff, Dict.mem_keys_iff, h]

theorem validateOverrides_congr (h : ∀ cap, overrides'.get? cap = overrides.get? cap)
    (provides : Dict String (List String)) (scope : String) :
    validateOverrides overrides' provides scope = validateOverrides overrides provides scope := by
  have hproblem : overrideProblem overrides' provides scope =
      overrideProblem overrides provides scope := by
    funext cap
    unfold overrideProblem Dict.getD
    rw [h]
  unfold validateOverrides
  rw [hproblem, PyText.sortedSet_congr (mem_keys_of_get? h)]

theorem solvePackageSet_congr (h : ∀ cap, overrides'.get? cap = overrides.get? cap)
    (u : Universe) (roots : List String) (scope : String) :
    solvePackageSet u roots overrides' scope = solvePackageSet u roots overrides scope := by
  have hclosure := @runtimeClosure_over (u.lookup overrides) overrides' h u.requires
  have hlookup : u.lookup overrides' = (u.lookup overrides).over overrides' := rfl
  unfold solvePackageSet
  dsimp only
  rw [hlookup, hclosure]

theorem solveSource_congr (h : ∀ cap, overrides'.get? cap = overrides.get? cap)
    (u : Universe) (probe : Dict String Report) (implicit : List String) (src : String) :
    solveSource u overrides' probe implicit src = solveSource u overrides probe implicit src := by
  have hlookup : u.lookup overrides' = (u.lookup overrides).over overrides' := rfl
  have hcollect : Collected.collect ((u.lookup overrides).over overrides') src =
      Collected.collect (u.lookup overrides) src := by
    funext s cap
    unfold Collected.collect
    rw [@resolveCapability_over (u.lookup overrides) overrides' h]
  unfold solveSource collectRequires
  dsimp only
  rw [hlookup, hcollect]
  simp only [@runtimeClosure_over (u.lookup overrides) overrides' h]

/-- The solve reads the overrides key by key, and the build set by membership. -/
theorem solve_congr (h : ∀ cap, overrides'.get? cap = overrides.get? cap) (u : Universe)
    {buildSet buildSet' : List String} (hbuild : ∀ src, src ∈ buildSet' ↔ src ∈ buildSet)
    (probe : Dict String Report) (implicit : List String) :
    solve u buildSet' overrides' probe implicit = solve u buildSet overrides probe implicit := by
  have hlookup : u.lookup overrides' = (u.lookup overrides).over overrides' := rfl
  have hsources : solveSource u overrides' probe implicit =
      solveSource u overrides probe implicit := by
    funext src
    exact solveSource_congr h u probe implicit src
  have hdirect : baseDirect ((u.lookup overrides).over overrides') implicit =
      baseDirect (u.lookup overrides) implicit := by
    have hresolve : resolveCapability { (u.lookup overrides).over overrides' with
        provideEvr := Dict.empty } = resolveCapability { u.lookup overrides with
        provideEvr := Dict.empty } :=
      @resolveCapability_over { u.lookup overrides with provideEvr := Dict.empty } overrides' h
    unfold baseDirect
    rw [hresolve]
  unfold solve
  dsimp only
  rw [hlookup, hdirect, hsources, PyText.sortedSet_congr hbuild, validateOverrides_congr h,
    @runtimeClosure_over (u.lookup overrides) overrides' h]

/-- The image sets, where each closes to the same set. -/
theorem solveImageSets_congr {imageRoots imageRoots' : Dict String (List String)}
    {imageOverrides imageOverrides' : Dict String (Dict String String)} {u : Universe}
    (hnames : ∀ image, image ∈ imageRoots'.keys ↔ image ∈ imageRoots.keys)
    (himages : ∀ image cap, (imageOverrides'.getD image Dict.empty).get? cap =
      (imageOverrides.getD image Dict.empty).get? cap)
    (hsets : ∀ image ∈ imageRoots.keys,
      solvePackageSet u (imageRoots'.getD image [])
        (scopedOverrides overrides' imageOverrides' image)
          ("image:" ++ image) =
        solvePackageSet u (imageRoots.getD image [])
          (scopedOverrides overrides imageOverrides image)
          ("image:" ++ image)) :
    solveImageSets u imageRoots' overrides' imageOverrides' =
      solveImageSets u imageRoots overrides imageOverrides := by
  have hset : ∀ image ∈ PyText.sortedSet imageRoots.keys, _ := fun image himage =>
    hsets image (PyText.mem_sortedSet.mp himage)
  unfold solveImageSets
  dsimp only
  rw [PyText.sortedSet_congr hnames]
  apply Prod.ext
  · refine congrArg Dict.mk (List.map_congr_left fun image himage => ?_)
    exact congrArg (Prod.mk image) (congrArg Prod.fst (hset image himage))
  · apply List.flatMap_congr
    intro image himage
    rw [hset image himage, validateOverrides_congr (himages image)]

end Overrides

/-! ## The plan -/

section Plan

/-- Two graphs with the same nodes and edges have the same components. -/
theorem components_congr {graph graph' : SourceGraph}
    (hkeys : ∀ src, src ∈ graph'.keys ↔ src ∈ graph.keys)
    (hedges : ∀ src, graph'.getD src ∅ = graph.getD src ∅) :
    stronglyConnectedComponents graph' = stronglyConnectedComponents graph := by
  have hneighbours : neighbours graph' = neighbours graph := by
    funext src
    unfold neighbours
    rw [hedges]
  have hnodes : graphNodes graph' = graphNodes graph := by
    ext src
    rw [mem_graphNodes, mem_graphNodes, hkeys]
    simp only [hedges]
  unfold stronglyConnectedComponents
  rw [hneighbours, hnodes, PyText.sortedSet_congr hkeys]

/-- Two graphs of the same edges have the same cycles, the same order and the same stages. -/
theorem cycles_congr {graph graph' : SourceGraph}
    (hkeys : ∀ src, src ∈ graph'.keys ↔ src ∈ graph.keys)
    (hedges : ∀ src, graph'.getD src ∅ = graph.getD src ∅) :
    findCycles graph' = findCycles graph ∧ topologicalOrder graph' = topologicalOrder graph ∧
      ∀ component stages, stageEntries component graph' stages =
        stageEntries component graph stages := by
  have hcomponents := components_congr hkeys hedges
  have hloop : hasSelfLoop graph' = hasSelfLoop graph := by
    funext src
    unfold hasSelfLoop
    rw [hedges]
  refine ⟨?_, ?_, fun component stages => ?_⟩
  · unfold findCycles
    rw [hcomponents, hloop]
  · unfold topologicalOrder
    rw [hcomponents]
  · unfold stageEntries stageEntry neighbours
    simp only [hedges]

/-- The graph of the sources reads the build set by membership. -/
theorem projectToSourceGraph_congr (buildDeps : Dict String (Finset String))
    (sourceOf : Dict String String) {buildSet buildSet' : List String}
    (hbuild : ∀ src, src ∈ buildSet' ↔ src ∈ buildSet) (routes : Routes) :
    let graph := projectToSourceGraph buildDeps sourceOf buildSet routes
    let graph' := projectToSourceGraph buildDeps sourceOf buildSet' routes
    (∀ src, src ∈ graph'.keys ↔ src ∈ graph.keys) ∧
      ∀ src, graph'.getD src ∅ = graph.getD src ∅ := by
  have hedge : edgeOf routes sourceOf buildSet' = edgeOf routes sourceOf buildSet := by
    funext src binary
    unfold edgeOf
    simp only [hbuild]
  have hkeys : ∀ names : List String, (projectToSourceGraph buildDeps sourceOf names routes).keys =
      names := by
    intro names
    unfold projectToSourceGraph Dict.ofKeys Dict.keys
    rw [List.map_map]
    exact List.map_id _
  constructor
  · intro src
    rw [hkeys, hkeys, hbuild]
  · intro src
    unfold projectToSourceGraph Dict.getD
    by_cases hsrc : src ∈ buildSet
    · rw [Dict.get?_ofKeys _ hsrc, Dict.get?_ofKeys _ ((hbuild src).mpr hsrc), hedge]
    · rw [Dict.get?_ofKeys_of_notMem _ hsrc,
        Dict.get?_ofKeys_of_notMem _ (mt (hbuild src).mp hsrc)]

/-- The plan reads the build set by membership. -/
theorem planBuildOrder_congr (buildDeps : Dict String (Finset String))
    (sourceOf : Dict String String) {buildSet buildSet' : List String}
    (hbuild : ∀ src, src ∈ buildSet' ↔ src ∈ buildSet) (routes : Routes) :
    (∀ stages, planBuildOrder buildDeps sourceOf buildSet' stages routes =
        planBuildOrder buildDeps sourceOf buildSet stages routes) ∧
      ∀ stages, stagedPlan buildDeps sourceOf buildSet' stages routes =
        stagedPlan buildDeps sourceOf buildSet stages routes := by
  obtain ⟨hkeys, hedges⟩ := projectToSourceGraph_congr buildDeps sourceOf hbuild routes
  obtain ⟨hcycles, horder, hstages⟩ := cycles_congr hkeys hedges
  constructor
  · intro stages
    unfold planBuildOrder stageCycle
    simp only [hcycles, horder, hstages]
  · intro stages
    unfold stagedPlan
    simp only [hcycles, horder, hstages]

end Plan

/-! ## The lock -/

section Lock

variable {u : Universe} {a a' : EmitArgs}

/-- What a recipe says is read from its own variant and its own routes. -/
theorem lockPackage_congr
    (hvariant : ∀ name, a'.sourceVariant.get? name = a.sourceVariant.get? name)
    (hroutes : a'.routes = a.routes) (hsuperseded : a'.binarySuperseded = a.binarySuperseded)
    {buildSet buildSet' : List String} (hbuild : ∀ src, src ∈ buildSet' ↔ src ∈ buildSet)
    (solution : Solution) (variantSubpackages : Dict String (List String)) :
    lockPackage u buildSet' solution a' variantSubpackages =
        lockPackage u buildSet solution a variantSubpackages ∧
      routedBinary u a' = routedBinary u a := by
  have hrouted : routedBinary u a' = routedBinary u a := by
    funext src name
    unfold routedBinary
    simp only [hroutes, hvariant, hsuperseded]
  have htaken : takenFromRecipe u buildSet' = takenFromRecipe u buildSet := by
    funext dep
    unfold takenFromRecipe
    simp only [hbuild]
  have hsource : lockSource u a'.sourceVariant = lockSource u a.sourceVariant := by
    funext src
    unfold lockSource specName
    simp only [hvariant]
  refine ⟨?_, hrouted⟩
  funext src
  unfold lockPackage
  rw [hrouted, htaken, hsource, hvariant]

/-- The emitter reads the variants key by key, and the build set by membership. -/
theorem emitLockfile_congr
    (hvariant : ∀ name, a'.sourceVariant.get? name = a.sourceVariant.get? name)
    (hroutes : a'.routes = a.routes) (hsuperseded : a'.binarySuperseded = a.binarySuperseded)
    {buildSet buildSet' : List String} (hbuild : ∀ src, src ∈ buildSet' ↔ src ∈ buildSet)
    (solution : Solution) (plan : Plan) (imageSets : Dict String (List String))
    (seedPackages : List String) (variantSubpackages : Dict String (List String))
    (imageUniverse : Universe) :
    emitLockfile u buildSet' solution plan imageSets seedPackages a' variantSubpackages
        imageUniverse =
      emitLockfile u buildSet solution plan imageSets seedPackages a variantSubpackages
        imageUniverse := by
  obtain ⟨hpackage, hrouted⟩ := @lockPackage_congr u a a' hvariant hroutes hsuperseded buildSet
    buildSet' hbuild solution variantSubpackages
  unfold emitLockfile
  rw [hpackage, hrouted, hroutes, PyText.sortedSet_congr hbuild]

end Lock

end BuckosDistro.Solve
