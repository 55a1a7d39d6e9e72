/-
  The build plan (`tools/depgraph.py`, the second half).

  A source graph has an edge for every build dependency that another source of the build
  set produces. Cycles of it are built several times over, stage by stage. Routes send the
  uses of one consumer to a version variant.
-/
import BuckosDistro.Lib.Dict
import BuckosDistro.Lib.Tarjan

namespace BuckosDistro.Depgraph

open BuckosDistro.Lib

/-! ## The source graph -/

/-- `{consumer: {binary: variant}}` -/
abbrev Routes := Dict String (Dict String String)

/-- `routes.get(src, {}).get(binary)` -/
def Routes.route (routes : Routes) (src binary : String) : Option String :=
  (routes.getD src Dict.empty).get? binary

/-- `routed.get(binary) or source_of.get(binary)` -/
def depSource (routes : Routes) (sourceOf : Dict String String) (src binary : String) :
    Option String :=
  match routes.route src binary with
  | none | some "" => sourceOf.get? binary
  | variant => variant

section DepSource

variable {routes : Routes} {sourceOf : Dict String String} {src binary : String}

theorem depSource_of_unrouted (h : routes.route src binary = none) :
    depSource routes sourceOf src binary = sourceOf.get? binary := by
  unfold depSource
  rw [h]

theorem depSource_of_routed {variant : String} (h : routes.route src binary = some variant)
    (hv : variant ≠ "") : depSource routes sourceOf src binary = some variant := by
  unfold depSource
  rw [h]
  split
  · next heq => cases heq
  · next heq => exact absurd (Option.some.inj heq) hv
  · rfl

theorem depSource_of_empty (h : routes.route src binary = some "") :
    depSource routes sourceOf src binary = sourceOf.get? binary := by
  unfold depSource
  rw [h]
  simp

end DepSource

abbrev SourceGraph := Dict String (Finset String)

/-- The edge of one use: none when it is satisfied from the seed or by the package itself. -/
def edgeOf (routes : Routes) (sourceOf : Dict String String) (buildSet : List String)
    (src binary : String) : Finset String :=
  match depSource routes sourceOf src binary with
  | none => ∅
  | some dep => if dep ∈ buildSet ∧ dep ≠ src then {dep} else ∅

/-- `project_to_source_graph` -/
def projectToSourceGraph (buildDeps : Dict String (Finset String))
    (sourceOf : Dict String String) (buildSet : List String) (routes : Routes) : SourceGraph :=
  Dict.ofKeys buildSet fun src =>
    (buildDeps.getD src ∅).biUnion (edgeOf routes sourceOf buildSet src)

/-! ## Cycles -/

/-- `sorted(graph.get(node, ()))` -/
def neighbours (graph : SourceGraph) (node : String) : List String :=
  PyText.sorted (graph.getD node ∅)

/-- The nodes of a graph: the keys and what their edges lead to. -/
def graphNodes (graph : SourceGraph) : Finset String :=
  graph.keys.toFinset ∪ graph.keys.toFinset.biUnion fun node => graph.getD node ∅

/-- `strongly_connected_components` -/
def stronglyConnectedComponents (graph : SourceGraph) : List (List String) :=
  (Tarjan.components (neighbours graph) (graphNodes graph) (PyText.sortedSet graph.keys)).map
    PyText.sortedSet

/-- `has_self_loop` -/
def hasSelfLoop (graph : SourceGraph) (node : String) : Bool := node ∈ graph.getD node ∅

/-- `find_cycles` -/
def findCycles (graph : SourceGraph) : List (List String) :=
  (stronglyConnectedComponents graph).filter fun component =>
    1 < component.length || component.head?.any (hasSelfLoop graph)

/-- `topological_order` -/
def topologicalOrder (graph : SourceGraph) : List String :=
  (stronglyConnectedComponents graph).flatten

/-! ## Stages -/

/-- One build of a cycle member. -/
structure StageEntry where
  source : String
  stage : ℕ
  target : String
  cycleDepsFrom : String
  cycleDeps : List String
  ships : Bool
deriving DecidableEq, Repr

/-- The record of one member at one stage. -/
def stageEntry (members : List String) (graph : SourceGraph) (stages stage : ℕ) (pkg : String) :
    StageEntry :=
  { source := pkg
    stage := stage
    target := pkg ++ "-stage" ++ toString stage
    cycleDepsFrom := if stage = 1 then "seed" else "stage" ++ toString (stage - 1)
    cycleDeps := (neighbours graph pkg).filter (· ∈ members)
    ships := stage = stages }

/-- The records of a cycle, stage after stage. -/
def stageEntries (component : List String) (graph : SourceGraph) (stages : ℕ) : List StageEntry :=
  let members := PyText.sortedSet component
  (List.range stages).flatMap fun i => members.map (stageEntry members graph stages (i + 1))

/-- `stage_cycle` -/
def stageCycle (component : List String) (graph : SourceGraph) (stages : ℤ) :
    Except String (List StageEntry) :=
  if stages < 1 then .error "stages must be >= 1"
  else .ok (stageEntries component graph stages.toNat)

/-- What `plan_build_order` returns. -/
structure Plan where
  order : List String
  cycles : List (List String)
  staged : List StageEntry
deriving DecidableEq, Repr

/-- `plan_build_order` -/
def planBuildOrder (buildDeps : Dict String (Finset String)) (sourceOf : Dict String String)
    (buildSet : List String) (stages : ℤ) (routes : Routes) : Except String Plan := do
  let graph := projectToSourceGraph buildDeps sourceOf buildSet routes
  let cycles := findCycles graph
  let staged ← cycles.mapM fun component => stageCycle component graph stages
  return {
    order := (topologicalOrder graph).filter (· ∉ cycles.flatten)
    cycles := cycles
    staged := staged.flatten }

/-- The plan that is returned, where one is. -/
def stagedPlan (buildDeps : Dict String (Finset String)) (sourceOf : Dict String String)
    (buildSet : List String) (stages : ℕ) (routes : Routes) : Plan :=
  let graph := projectToSourceGraph buildDeps sourceOf buildSet routes
  let cycles := findCycles graph
  { order := (topologicalOrder graph).filter (· ∉ cycles.flatten)
    cycles := cycles
    staged := cycles.flatMap fun component => stageEntries component graph stages }

section StageCycle

variable {graph : SourceGraph} {stages : ℤ} {cycles : List (List String)}

theorem mapM_stageCycle (h : 1 ≤ stages ∨ cycles = []) :
    (cycles.mapM fun component => stageCycle component graph stages) =
      .ok (cycles.map fun component => stageEntries component graph stages.toNat) := by
  induction cycles with
  | nil => rfl
  | cons component cycles ih =>
    have hstages : 1 ≤ stages := h.resolve_right (List.cons_ne_nil _ _)
    rw [List.mapM_cons, ih (.inl hstages)]
    unfold stageCycle
    rw [if_neg (not_lt.mpr hstages)]
    rfl

theorem mapM_stageCycle_error {component : List String} (h : stages < 1) :
    ((component :: cycles).mapM fun component => stageCycle component graph stages) =
      .error "stages must be >= 1" := by
  rw [List.mapM_cons]
  unfold stageCycle
  rw [if_pos h]
  rfl

/-- A plan is returned for at least one stage, and where nothing is staged. -/
theorem planBuildOrder_eq_ok {buildDeps : Dict String (Finset String)}
    {sourceOf : Dict String String} {buildSet : List String} {routes : Routes} {plan : Plan} :
    planBuildOrder buildDeps sourceOf buildSet stages routes = .ok plan ↔
      (1 ≤ stages ∨ findCycles (projectToSourceGraph buildDeps sourceOf buildSet routes) = []) ∧
        plan = stagedPlan buildDeps sourceOf buildSet stages.toNat routes := by
  unfold planBuildOrder stagedPlan
  dsimp only
  set graph := projectToSourceGraph buildDeps sourceOf buildSet routes
  by_cases h : 1 ≤ stages ∨ findCycles graph = []
  · rw [mapM_stageCycle h, List.flatMap_def]
    constructor
    · intro hplan
      exact ⟨h, (Except.ok.inj hplan).symm⟩
    · rintro ⟨_, rfl⟩
      rfl
  · obtain ⟨hstages, hcycles⟩ := not_or.mp h
    obtain ⟨component, cycles, hcons⟩ := List.exists_cons_of_ne_nil hcycles
    rw [hcons, mapM_stageCycle_error (not_le.mp hstages)]
    constructor
    · intro hplan
      cases hplan
    · rintro ⟨hone | hnil, _⟩
      · exact absurd hone hstages
      · cases hnil

end StageCycle

/-! ## Bootstrap depth -/

/-- What `bootstrap_depth` counts. -/
structure Depth where
  builtFromSource : ℕ
  fromSeed : ℕ
  sourcePackagesBuilt : ℕ
deriving DecidableEq, Repr

/-- The binaries some source of the build set uses, as built or as seeded. -/
def usedAs (buildDeps : Dict String (Finset String)) (sourceOf : Dict String String)
    (buildSet : List String) (routes : Routes) (built : Bool) : List String :=
  (buildDeps.items.flatMap fun item =>
    if item.1 ∈ buildSet then
      (PyText.sorted item.2).filter fun binary =>
        ((depSource routes sourceOf item.1 binary).any (· ∈ buildSet)) = built
    else []).dedup

/-- `bootstrap_depth` -/
def bootstrapDepth (buildDeps : Dict String (Finset String)) (sourceOf : Dict String String)
    (buildSet : List String) (routes : Routes) : Depth :=
  { builtFromSource := (usedAs buildDeps sourceOf buildSet routes true).length
    fromSeed := (usedAs buildDeps sourceOf buildSet routes false).length
    sourcePackagesBuilt := buildSet.dedup.length }

end BuckosDistro.Depgraph
