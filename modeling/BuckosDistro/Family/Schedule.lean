/-
  The targets of a build plan can be built one after the other.

  A source that is on no cycle is one target; a member of a cycle is one target for each stage.
  A target is built against the stage before its own for the members of its cycle, and against
  what is shipped for every other source. The components are in dependency order, and inside a
  cycle the stages are: put together they are a schedule (`exists_schedule`).
-/
import BuckosDistro.Depgraph.Cycles
import BuckosDistro.Family.Staged
import BuckosDistro.Lib.Lists

namespace BuckosDistro.Family

open BuckosDistro.Lib BuckosDistro.Depgraph

/-! ## The components -/

section Components

variable {graph : SourceGraph} {v w : String}

/-- The components before they are sorted. -/
def parts (graph : SourceGraph) : List (List String) :=
  Tarjan.components (neighbours graph) (graphNodes graph) (PyText.sortedSet graph.keys)

theorem mem_flatten_parts :
    v ∈ (stronglyConnectedComponents graph).flatten ↔ v ∈ (parts graph).flatten :=
  mem_flatten_sorted

/-- No source is in two components, or twice in one. -/
theorem nodup_flatten : (stronglyConnectedComponents graph).flatten.Nodup := by
  have hnodup : (parts graph).flatten.Nodup := Tarjan.components_nodup
  exact (flatten_map_sortedSet_perm (parts graph) hnodup).nodup_iff.mpr hnodup

/-- An edge that leaves a component goes to an earlier one. -/
theorem mem_or_earlier {earlier later : List (List String)} {component : List String}
    (h : stronglyConnectedComponents graph = earlier ++ component :: later) (hv : v ∈ component)
    (hw : w ∈ graph.getD v ∅) : w ∈ component ∨ w ∈ earlier.flatten := by
  obtain ⟨before, rest, hsplit, hbefore, hrest⟩ := List.map_eq_append_iff.mp h
  obtain ⟨part, after, rfl, hpart, _⟩ := List.map_eq_cons_iff.mp hrest
  rw [← hpart, PyText.mem_sortedSet] at hv ⊢
  rw [← hbefore, mem_flatten_sorted]
  exact Tarjan.components_ordered before part after hsplit v hv w (mem_neighbours.mpr hw)

/-- Every source of the graph is in a component. -/
theorem mem_flatten_of_key (h : v ∈ graph.keys) :
    v ∈ (stronglyConnectedComponents graph).flatten := by
  obtain ⟨hcover, _⟩ := @Tarjan.components_cover _ _ _ _ _ (@graphNodes_closed graph)
    keys_subset_graphNodes
  exact mem_flatten_parts.mpr (hcover v (PyText.mem_sortedSet.mpr h))

/-- What is in a component is a source of the graph, or the target of an edge. -/
theorem node_of_mem (h : v ∈ (stronglyConnectedComponents graph).flatten) :
    v ∈ graph.keys ∨ ∃ u, v ∈ graph.getD u ∅ := by
  obtain ⟨_, hwithin⟩ := @Tarjan.components_cover _ _ _ _ _ (@graphNodes_closed graph)
    keys_subset_graphNodes
  exact mem_graphNodes.mp (hwithin v (mem_flatten_parts.mp h))

/-- Two sources share a component when each leads to the other. -/
theorem share_component_iff (hv : v ∈ (stronglyConnectedComponents graph).flatten) :
    (∃ component ∈ stronglyConnectedComponents graph, v ∈ component ∧ w ∈ component) ↔
      LeadsTo graph v w ∧ LeadsTo graph w v := by
  rw [← reach_neighbours, ← Tarjan.share_component_iff (mem_flatten_parts.mp hv)]
  unfold stronglyConnectedComponents
  simp only [List.mem_map, exists_exists_and_eq_and, PyText.mem_sortedSet]

end Components

/-! ## Cycles -/

/-- Some edges lead from the source back to itself. -/
def OnCycle (graph : SourceGraph) (src : String) : Prop :=
  Relation.TransGen (fun v w => w ∈ graph.getD v ∅) src src

/-- The test of `find_cycles`. -/
def isCycle (graph : SourceGraph) (component : List String) : Bool :=
  1 < component.length || component.head?.any (hasSelfLoop graph)

theorem findCycles_eq (graph : SourceGraph) :
    findCycles graph = (stronglyConnectedComponents graph).filter (isCycle graph) := rfl

section Cycles

variable {graph : SourceGraph} {component : List String} {v w : String}

/-- The components that hold a source are one. -/
theorem component_unique {other : List String}
    (hc : component ∈ stronglyConnectedComponents graph)
    (ho : other ∈ stronglyConnectedComponents graph) (hv : v ∈ component) (hv' : v ∈ other) :
    component = other := by
  have hpairs := (List.nodup_flatten.mp (@nodup_flatten graph)).2
  by_contra hne
  have hsymm : Std.Symm (@List.Disjoint String) := ⟨fun _ _ h => List.disjoint_symm h⟩
  exact hpairs.forall hc ho hne hv hv'

theorem nodup_component (hc : component ∈ stronglyConnectedComponents graph) :
    component.Nodup := by
  exact (List.nodup_flatten.mp nodup_flatten).1 component hc

/-- The members of a component are those that lead there and back. -/
theorem mem_component_iff (hc : component ∈ stronglyConnectedComponents graph)
    (hv : v ∈ component) : w ∈ component ↔ LeadsTo graph v w ∧ LeadsTo graph w v := by
  rw [← share_component_iff (List.mem_flatten.mpr ⟨component, hc, hv⟩)]
  constructor
  · intro h
    exact ⟨component, hc, hv, h⟩
  · intro h
    obtain ⟨other, ho, hv', hw'⟩ := h
    rw [component_unique hc ho hv hv']
    exact hw'

/-- A component is a cycle when its members are on one. -/
theorem isCycle_iff (hc : component ∈ stronglyConnectedComponents graph) (hv : v ∈ component) :
    isCycle graph component = true ↔ OnCycle graph v := by
  have hnodup := nodup_component hc
  constructor
  · intro h
    -- two members lead there and back, and one member alone has an edge to itself
    have hpair {u : String} (hu : u ∈ component) (hne : u ≠ v) : OnCycle graph v := by
      obtain ⟨hto, hback⟩ := (mem_component_iff hc hv).mp hu
      have hstep := (Relation.reflTransGen_iff_eq_or_transGen.mp hto).resolve_left hne
      exact hstep.trans_left hback
    unfold isCycle at h
    rw [Bool.or_eq_true, decide_eq_true_eq] at h
    rcases component with _ | ⟨a, _ | ⟨b, rest⟩⟩
    · exact absurd hv List.not_mem_nil
    · have hloop := h.resolve_left (by simp)
      obtain rfl := List.mem_singleton.mp hv
      exact .single (of_decide_eq_true hloop)
    · by_cases ha : a = v
      · refine hpair (List.mem_cons_of_mem _ List.mem_cons_self) fun hb => ?_
        exact (List.nodup_cons.mp hnodup).1 (by rw [ha, hb]; exact List.mem_cons_self)
      · exact hpair List.mem_cons_self ha
  · intro h
    obtain ⟨u, hedge, hback⟩ := Relation.TransGen.head'_iff.mp h
    have hu : u ∈ component :=
      (mem_component_iff hc hv).mpr ⟨.single hedge, hback⟩
    unfold isCycle
    rw [Bool.or_eq_true, decide_eq_true_eq]
    by_cases hlong : 1 < component.length
    · exact .inl hlong
    · right
      obtain ⟨a, rfl⟩ : ∃ a, component = [a] := by
        have hpos := List.length_pos_of_mem hv
        exact List.length_eq_one_iff.mp (by omega)
      obtain rfl := List.mem_singleton.mp hv
      obtain rfl := List.mem_singleton.mp hu
      exact decide_eq_true hedge

theorem mem_findCycles_flatten :
    v ∈ (findCycles graph).flatten ↔
      v ∈ (stronglyConnectedComponents graph).flatten ∧ OnCycle graph v := by
  rw [findCycles_eq]
  simp only [List.mem_flatten, List.mem_filter]
  constructor
  · intro h
    obtain ⟨component, ⟨hc, hcycle⟩, hv⟩ := h
    exact ⟨⟨component, hc, hv⟩, (isCycle_iff hc hv).mp hcycle⟩
  · intro h
    obtain ⟨⟨component, hc, hv⟩, hcycle⟩ := h
    exact ⟨component, ⟨hc, (isCycle_iff hc hv).mpr hcycle⟩, hv⟩

end Cycles

/-! ## The targets of a plan -/

inductive PlanTarget where
  | plain (source : String)
  | stage (source : String) (stage : ℕ)
deriving DecidableEq

def PlanTarget.source : PlanTarget → String
  | .plain source => source
  | .stage source _ => source

/-- The targets that are registered for a plan. -/
inductive Registered (plan : Plan) : PlanTarget → Prop
  | plain {src : String} : src ∈ plan.order → Registered plan (.plain src)
  | stage {entry : StageEntry} : entry ∈ plan.staged →
      Registered plan (.stage entry.source entry.stage)

/-- The target whose build of a source is the one that ships. -/
inductive Ships (plan : Plan) : String → PlanTarget → Prop
  | plain {src : String} : src ∈ plan.order → Ships plan src (.plain src)
  | stage {entry : StageEntry} : entry ∈ plan.staged → entry.ships = true →
      Ships plan entry.source (.stage entry.source entry.stage)

/-- What a target is built against, by the records of the plan. -/
inductive BuiltAgainst (graph : SourceGraph) (plan : Plan) : PlanTarget → PlanTarget → Prop
  | plain {src dep : String} {t : PlanTarget} : src ∈ plan.order → dep ∈ graph.getD src ∅ →
      Ships plan dep t → BuiltAgainst graph plan (.plain src) t
  | before {entry : StageEntry} {dep : String} {k : ℕ} : entry ∈ plan.staged →
      dep ∈ entry.cycleDeps → entry.cycleDepsFrom = "stage" ++ toString k →
      BuiltAgainst graph plan (.stage entry.source entry.stage) (.stage dep k)
  | outside {entry : StageEntry} {dep : String} {t : PlanTarget} : entry ∈ plan.staged →
      dep ∈ graph.getD entry.source ∅ → dep ∉ entry.cycleDeps → Ships plan dep t →
      BuiltAgainst graph plan (.stage entry.source entry.stage) t

/-- The members of a component at every stage. -/
def stagesOf (stages : ℕ) (component : List String) : List (String × ℕ) :=
  (List.range stages).flatMap fun i => (PyText.sortedSet component).map fun src => (src, i + 1)

/-- The targets of a component. -/
def targetsOf (graph : SourceGraph) (stages : ℕ) (component : List String) : List PlanTarget :=
  if isCycle graph component then
    (stagesOf stages component).map fun member => .stage member.1 member.2
  else component.map .plain

/-- All targets, component by component and stage by stage. -/
def schedule (graph : SourceGraph) (stages : ℕ) : List PlanTarget :=
  (stronglyConnectedComponents graph).flatMap (targetsOf graph stages)

section Targets

variable {graph : SourceGraph} {stages : ℕ} {component : List String} {t : PlanTarget}

theorem mem_stagesOf {member : String × ℕ} :
    member ∈ stagesOf stages component ↔
      member.1 ∈ component ∧ ∃ i < stages, member.2 = i + 1 := by
  unfold stagesOf
  simp only [List.mem_flatMap, List.mem_range, List.mem_map, PyText.mem_sortedSet]
  constructor
  · intro h
    obtain ⟨i, hi, src, hsrc, rfl⟩ := h
    exact ⟨hsrc, i, hi, rfl⟩
  · intro h
    obtain ⟨hsrc, i, hi, hstage⟩ := h
    exact ⟨i, hi, member.1, hsrc, Prod.ext rfl hstage.symm⟩

theorem nodup_stagesOf (stages : ℕ) (component : List String) :
    (stagesOf stages component).Nodup := by
  unfold stagesOf
  rw [List.nodup_flatMap]
  constructor
  · intro i _
    refine (PyText.nodup_sortedSet component).map ?_
    intro v w h
    exact congrArg Prod.fst h
  · apply List.nodup_range.imp
    intro i j hne member hi hj
    obtain ⟨v, _, rfl⟩ := List.mem_map.mp hi
    obtain ⟨w, _, hw⟩ := List.mem_map.mp hj
    have hstage : j + 1 = i + 1 := congrArg Prod.snd hw
    omega

theorem mem_targetsOf :
    t ∈ targetsOf graph stages component ↔
      if isCycle graph component then ∃ src ∈ component, ∃ i < stages, t = .stage src (i + 1)
      else ∃ src ∈ component, t = .plain src := by
  unfold targetsOf
  split_ifs
  · rw [List.mem_map]
    constructor
    · intro h
      obtain ⟨member, hmember, rfl⟩ := h
      obtain ⟨hsrc, i, hi, hstage⟩ := mem_stagesOf.mp hmember
      exact ⟨member.1, hsrc, i, hi, by rw [hstage]⟩
    · intro h
      obtain ⟨src, hsrc, i, hi, rfl⟩ := h
      exact ⟨(src, i + 1), mem_stagesOf.mpr ⟨hsrc, i, hi, rfl⟩, rfl⟩
  · simp only [List.mem_map, eq_comm]

theorem source_mem_of_targetsOf (h : t ∈ targetsOf graph stages component) :
    t.source ∈ component := by
  rw [mem_targetsOf] at h
  split_ifs at h
  · obtain ⟨src, hsrc, i, _, rfl⟩ := h
    exact hsrc
  · obtain ⟨src, hsrc, rfl⟩ := h
    exact hsrc

theorem nodup_targetsOf (hc : component ∈ stronglyConnectedComponents graph) :
    (targetsOf graph stages component).Nodup := by
  unfold targetsOf
  split_ifs
  · refine (nodup_stagesOf stages component).map ?_
    intro v w h
    obtain ⟨hsrc, hstage⟩ := PlanTarget.stage.inj h
    exact Prod.ext hsrc hstage
  · refine (nodup_component hc).map ?_
    intro v w h
    exact PlanTarget.plain.inj h

theorem nodup_schedule : (schedule graph stages).Nodup := by
  apply Lists.nodup_flatMap_of_parts nodup_flatten (fun _ hc => nodup_targetsOf hc)
    PlanTarget.source
  intro part _ t ht
  exact source_mem_of_targetsOf ht

theorem mem_schedule_plain {src : String} :
    PlanTarget.plain src ∈ schedule graph stages ↔
      src ∈ (stronglyConnectedComponents graph).flatten ∧ ¬ OnCycle graph src := by
  unfold schedule
  rw [List.mem_flatMap, List.mem_flatten]
  constructor
  · intro h
    obtain ⟨component, hc, ht⟩ := h
    have hsrc := source_mem_of_targetsOf ht
    refine ⟨⟨component, hc, hsrc⟩, fun hcycle => ?_⟩
    rw [mem_targetsOf, if_pos ((isCycle_iff hc hsrc).mpr hcycle)] at ht
    obtain ⟨_, _, _, _, he⟩ := ht
    cases he
  · intro h
    obtain ⟨⟨component, hc, hsrc⟩, hnot⟩ := h
    refine ⟨component, hc, mem_targetsOf.mpr ?_⟩
    rw [if_neg fun hcycle => hnot ((isCycle_iff hc hsrc).mp hcycle)]
    exact ⟨src, hsrc, rfl⟩

theorem mem_schedule_stage {src : String} {k : ℕ} :
    PlanTarget.stage src k ∈ schedule graph stages ↔
      (src ∈ (stronglyConnectedComponents graph).flatten ∧ OnCycle graph src) ∧
        1 ≤ k ∧ k ≤ stages := by
  unfold schedule
  rw [List.mem_flatMap, List.mem_flatten]
  constructor
  · intro h
    obtain ⟨component, hc, ht⟩ := h
    have hsrc := source_mem_of_targetsOf ht
    rw [mem_targetsOf] at ht
    split_ifs at ht with hcycle
    · obtain ⟨_, _, i, hi, he⟩ := ht
      obtain ⟨_, rfl⟩ := PlanTarget.stage.inj he
      exact ⟨⟨⟨component, hc, hsrc⟩, (isCycle_iff hc hsrc).mp hcycle⟩, by omega, by omega⟩
    · obtain ⟨_, _, he⟩ := ht
      cases he
  · intro h
    obtain ⟨⟨⟨component, hc, hsrc⟩, hcycle⟩, hpos, hle⟩ := h
    refine ⟨component, hc, mem_targetsOf.mpr ?_⟩
    rw [if_pos ((isCycle_iff hc hsrc).mpr hcycle)]
    refine ⟨src, hsrc, k - 1, by omega, ?_⟩
    rw [Nat.sub_add_cancel hpos]

end Targets

section Plan

variable {buildDeps : Dict String (Finset String)} {sourceOf : Dict String String}
  {buildSet : List String} {stages : ℕ} {routes : Routes}

theorem mem_buildSet_of_edge {v w : String}
    (h : w ∈ (projectToSourceGraph buildDeps sourceOf buildSet routes).getD v ∅) :
    w ∈ buildSet := by
  unfold projectToSourceGraph Dict.getD at h
  by_cases hv : v ∈ buildSet
  · rw [Dict.get?_ofKeys _ hv, Option.getD_some, Finset.mem_biUnion] at h
    obtain ⟨binary, _, h⟩ := h
    unfold edgeOf at h
    cases hdep : depSource routes sourceOf v binary with
    | none =>
      rw [hdep] at h
      exact absurd h (Finset.notMem_empty w)
    | some dep =>
      rw [hdep] at h
      dsimp only at h
      split_ifs at h with hin
      · rw [Finset.mem_singleton.mp h]
        exact hin.1
      · exact absurd h (Finset.notMem_empty w)
  · rw [Dict.get?_ofKeys_of_notMem _ hv] at h
    exact absurd h (Finset.notMem_empty w)

/-- The nodes of the graph are the sources of the build set. -/
theorem mem_flatten_iff {src : String} :
    src ∈ (stronglyConnectedComponents
        (projectToSourceGraph buildDeps sourceOf buildSet routes)).flatten ↔ src ∈ buildSet := by
  have hkeys : (projectToSourceGraph buildDeps sourceOf buildSet routes).keys = buildSet := by
    unfold projectToSourceGraph Dict.ofKeys Dict.keys
    rw [List.map_map]
    exact List.map_id _
  constructor
  · intro h
    rcases node_of_mem h with hkey | ⟨u, hu⟩
    · exact hkeys ▸ hkey
    · exact mem_buildSet_of_edge hu
  · intro h
    exact mem_flatten_of_key (hkeys.symm ▸ h)

theorem mem_order {src : String} :
    src ∈ (stagedPlan buildDeps sourceOf buildSet stages routes).order ↔
      src ∈ buildSet ∧
        ¬ OnCycle (projectToSourceGraph buildDeps sourceOf buildSet routes) src := by
  have hflat := @mem_flatten_iff buildDeps sourceOf buildSet routes src
  unfold stagedPlan topologicalOrder
  dsimp only
  rw [List.mem_filter, decide_eq_true_eq, mem_findCycles_flatten, hflat]
  constructor
  · intro h
    exact ⟨h.1, fun hcycle => h.2 ⟨h.1, hcycle⟩⟩
  · intro h
    exact ⟨h.1, fun hcycle => h.2 hcycle.2⟩

/-- The stages that are planned. -/
theorem exists_staged_iff {src : String} {k : ℕ} :
    (∃ entry ∈ (stagedPlan buildDeps sourceOf buildSet stages routes).staged,
        entry.source = src ∧ entry.stage = k) ↔
      (src ∈ buildSet ∧ OnCycle (projectToSourceGraph buildDeps sourceOf buildSet routes) src) ∧
        1 ≤ k ∧ k ≤ stages := by
  have hflat := @mem_flatten_iff buildDeps sourceOf buildSet routes src
  rw [← hflat, ← mem_findCycles_flatten, List.mem_flatten]
  constructor
  · intro h
    obtain ⟨entry, hentry, rfl, rfl⟩ := h
    obtain ⟨cycle, hc, src, hsrc, i, hi, rfl⟩ := mem_staged.mp hentry
    refine ⟨⟨cycle, hc, hsrc⟩, ?_⟩
    show 1 ≤ i + 1 ∧ i + 1 ≤ stages
    omega
  · intro h
    obtain ⟨⟨cycle, hc, hsrc⟩, hpos, hle⟩ := h
    refine ⟨_, mem_staged.mpr ⟨cycle, hc, src, hsrc, k - 1, by omega, rfl⟩, rfl, ?_⟩
    exact Nat.sub_add_cancel hpos

/-- No source is planned twice at a stage. -/
theorem nodup_staged : ((stagedPlan buildDeps sourceOf buildSet stages routes).staged.map
    fun entry => (entry.source, entry.stage)).Nodup := by
  set graph := projectToSourceGraph buildDeps sourceOf buildSet routes
  set plan := stagedPlan buildDeps sourceOf buildSet stages routes
  have hcycles : (findCycles graph).flatten.Nodup :=
    nodup_flatten.sublist (List.Sublist.flatten List.filter_sublist)
  have hkeys : plan.staged.map (fun entry => (entry.source, entry.stage)) =
      (findCycles graph).flatMap (stagesOf stages) := by
    show ((findCycles graph).flatMap fun component => stageEntries component graph stages).map _ = _
    rw [List.map_flatMap]
    congr 1
    funext component
    unfold stageEntries stagesOf
    rw [List.map_flatMap]
    congr 1
    funext i
    rw [List.map_map]
    rfl
  rw [hkeys]
  apply Lists.nodup_flatMap_of_parts hcycles (fun _ _ => nodup_stagesOf stages _) Prod.fst
  intro part _ member hmember
  exact (mem_stagesOf.mp hmember).1

theorem registered_iff {t : PlanTarget} :
    Registered (stagedPlan buildDeps sourceOf buildSet stages routes) t ↔
      t ∈ schedule (projectToSourceGraph buildDeps sourceOf buildSet routes) stages := by
  cases t with
  | plain src =>
    rw [mem_schedule_plain, mem_flatten_iff, ← @mem_order _ _ _ stages]
    constructor
    · intro h
      cases h with
      | plain h => exact h
    · exact .plain
  | stage src k =>
    rw [mem_schedule_stage, mem_flatten_iff, ← exists_staged_iff]
    constructor
    · intro h
      cases h with
      | stage h => exact ⟨_, h, rfl, rfl⟩
    · intro h
      obtain ⟨entry, hentry, rfl, rfl⟩ := h
      exact .stage hentry

/-- What is shipped is the plain target, or the last stage. -/
theorem ships_iff (hstages : 1 ≤ stages) {src : String} {t : PlanTarget} :
    Ships (stagedPlan buildDeps sourceOf buildSet stages routes) src t ↔
      src ∈ buildSet ∧
        (¬ OnCycle (projectToSourceGraph buildDeps sourceOf buildSet routes) src ∧
            t = .plain src ∨
          OnCycle (projectToSourceGraph buildDeps sourceOf buildSet routes) src ∧
            t = .stage src stages) := by
  constructor
  · intro h
    cases h with
    | plain h =>
      obtain ⟨hin, hnot⟩ := mem_order.mp h
      exact ⟨hin, .inl ⟨hnot, rfl⟩⟩
    | @stage entry h hships =>
      obtain ⟨⟨hin, hcycle⟩, _⟩ := exists_staged_iff.mp ⟨entry, h, rfl, rfl⟩
      refine ⟨hin, .inr ⟨hcycle, ?_⟩⟩
      obtain ⟨cycle, _, src, _, i, _, rfl⟩ := mem_staged.mp h
      exact congrArg _ (of_decide_eq_true hships)
  · intro h
    obtain ⟨hin, ⟨hnot, rfl⟩ | ⟨hcycle, rfl⟩⟩ := h
    · exact .plain (mem_order.mpr ⟨hin, hnot⟩)
    · obtain ⟨entry, hentry, rfl, hstage⟩ :=
        exists_staged_iff.mpr ⟨⟨hin, hcycle⟩, hstages, le_refl stages⟩
      have hships : entry.ships = true := by
        obtain ⟨cycle, _, src, _, i, _, rfl⟩ := mem_staged.mp hentry
        exact decide_eq_true hstage
      have h := Ships.stage hentry hships
      rwa [hstage] at h

/-- A cycle's dependencies are those of the same component. -/
theorem mem_cycleDeps_iff {entry : StageEntry} {dep : String}
    (h : entry ∈ (stagedPlan buildDeps sourceOf buildSet stages routes).staged) :
    dep ∈ entry.cycleDeps ↔
      let graph := projectToSourceGraph buildDeps sourceOf buildSet routes
      dep ∈ graph.getD entry.source ∅ ∧ LeadsTo graph dep entry.source := by
  dsimp only
  obtain ⟨cycle, hc, src, hsrc, i, hi, rfl⟩ := mem_staged.mp h
  rw [findCycles_eq, List.mem_filter] at hc
  show dep ∈ (neighbours _ src).filter _ ↔ dep ∈ Dict.getD _ src ∅ ∧ LeadsTo _ dep src
  rw [List.mem_filter, mem_neighbours, decide_eq_true_eq, PyText.mem_sortedSet]
  refine and_congr_right fun hedge => ?_
  rw [mem_component_iff hc.1 hsrc]
  exact and_iff_right (.single hedge)

/-- The stage that a stage takes its cycle from is the one before. -/
theorem stage_of_cycleDepsFrom {entry : StageEntry} {n k : ℕ}
    (h : entry ∈ (stagedPlan buildDeps sourceOf buildSet stages routes).staged)
    (hstage : entry.stage = n + 1) (hfrom : entry.cycleDepsFrom = "stage" ++ toString k) :
    1 ≤ k ∧ n = k := by
  obtain ⟨cycle, _, src, _, i, _, rfl⟩ := mem_staged.mp h
  obtain rfl : i = n := Nat.succ.inj hstage
  have hfrom' : (if i + 1 = 1 then "seed" else "stage" ++ toString (i + 1 - 1)) =
      "stage" ++ toString k := hfrom
  have hlist := congrArg String.toList hfrom'
  split_ifs at hlist with hfirst
  · rw [String.toList_append] at hlist
    have hsecond := (List.cons.inj (List.cons.inj hlist).2).1
    exact absurd hsecond (by decide)
  · rw [String.toList_append, String.toList_append, Nat.add_sub_cancel] at hlist
    have heq : i = k := Nat.repr_inj.mp (String.toList_inj.mp (List.append_cancel_left hlist))
    omega

/-- In the schedule a target comes after everything it is built against. -/
theorem mem_of_builtAgainst (hstages : 1 ≤ stages) {before after : List PlanTarget}
    {t t' : PlanTarget}
    (heq : schedule (projectToSourceGraph buildDeps sourceOf buildSet routes) stages =
      before ++ t :: after)
    (hneeds : BuiltAgainst (projectToSourceGraph buildDeps sourceOf buildSet routes)
      (stagedPlan buildDeps sourceOf buildSet stages routes) t t') : t' ∈ before := by
  set graph := projectToSourceGraph buildDeps sourceOf buildSet routes with hgraph
  set plan := stagedPlan buildDeps sourceOf buildSet stages routes with hplan
  obtain ⟨earlier, component, later, i, j, hsplit, hcomponent, rfl⟩ :=
    Lists.flatMap_eq_append_cons heq
  have hc : component ∈ stronglyConnectedComponents graph := by
    rw [hsplit]
    exact List.mem_append_right _ List.mem_cons_self
  have ht : t ∈ targetsOf graph stages component := by
    rw [hcomponent]
    exact List.mem_append_right _ List.mem_cons_self
  have hsrc := source_mem_of_targetsOf ht
  -- what is shipped for a source of an earlier component is before
  have hshipped {dep : String} (hdep : dep ∈ earlier.flatten) (hships : Ships plan dep t') :
      t' ∈ earlier.flatMap (targetsOf graph stages) ++ i := by
    obtain ⟨other, hother, hdep'⟩ := List.mem_flatten.mp hdep
    have ho : other ∈ stronglyConnectedComponents graph := by
      rw [hsplit]
      exact List.mem_append_left _ hother
    refine List.mem_append_left _ (List.mem_flatMap.mpr ⟨other, hother, mem_targetsOf.mpr ?_⟩)
    obtain ⟨_, ⟨hnot, rfl⟩ | ⟨hon, rfl⟩⟩ := (ships_iff hstages).mp hships
    · rw [if_neg fun h => hnot ((isCycle_iff ho hdep').mp h)]
      exact ⟨dep, hdep', rfl⟩
    · rw [if_pos ((isCycle_iff ho hdep').mpr hon)]
      refine ⟨dep, hdep', stages - 1, by omega, ?_⟩
      rw [Nat.sub_add_cancel hstages]
  have hback {v dep : String} (hv : v ∈ component) (hedge : dep ∈ graph.getD v ∅)
      (hdep : dep ∈ component) : LeadsTo graph dep v :=
    ((mem_component_iff hc hv).mp hdep).2
  cases hneeds with
  | @plain src dep _ hsrcIn hedge hships =>
    rcases mem_or_earlier hsplit hsrc hedge with hin | hin
    · exact absurd (Relation.TransGen.head' hedge (hback hsrc hedge hin)) (mem_order.mp hsrcIn).2
    · exact hshipped hin hships
  | @outside entry dep _ hentry hedge hout hships =>
    rcases mem_or_earlier hsplit hsrc hedge with hin | hin
    · exact absurd ((mem_cycleDeps_iff hentry).mpr ⟨hedge, hback hsrc hedge hin⟩) hout
    · exact hshipped hin hships
  | @before entry dep k hentry hdep hfrom =>
    obtain ⟨hedge, hreturn⟩ := (mem_cycleDeps_iff hentry).mp hdep
    have hin : dep ∈ component :=
      (mem_component_iff hc hsrc).mpr ⟨.single hedge, hreturn⟩
    have hcycle : isCycle graph component = true :=
      (isCycle_iff hc hsrc).mpr (Relation.TransGen.head' hedge hreturn)
    unfold targetsOf stagesOf at hcomponent
    rw [if_pos hcycle, List.map_flatMap] at hcomponent
    obtain ⟨done, n, rest, i', j', hrange, hstage, rfl⟩ :=
      Lists.flatMap_eq_append_cons hcomponent
    -- the stages before this one are done
    have hn : entry.stage = n + 1 := by
      have hmem : PlanTarget.stage entry.source entry.stage ∈
          ((PyText.sortedSet component).map fun src => (src, n + 1)).map
            fun member => PlanTarget.stage member.1 member.2 := by
        rw [hstage]
        exact List.mem_append_right _ List.mem_cons_self
      rw [List.map_map] at hmem
      obtain ⟨src, _, he⟩ := List.mem_map.mp hmem
      exact (PlanTarget.stage.inj he).2.symm
    obtain ⟨hpos, rfl⟩ := stage_of_cycleDepsFrom hentry hn hfrom
    have hdone : n - 1 ∈ done := by
      have hlt : n < stages := by
        rw [← List.mem_range, hrange]
        exact List.mem_append_right _ List.mem_cons_self
      have hmem : n - 1 ∈ done ++ n :: rest := by
        rw [← hrange, List.mem_range]
        omega
      have hsorted : (done ++ n :: rest).Pairwise (· < ·) := hrange ▸ List.pairwise_lt_range
      have hafter := (List.pairwise_cons.mp (List.pairwise_append.mp hsorted).2.1).1
      rcases List.mem_append.mp hmem with hmem | hmem
      · exact hmem
      · rcases List.mem_cons.mp hmem with heq | hmem
        · omega
        · have hlater := hafter _ hmem
          omega
    refine List.mem_append_right _ (List.mem_append_left _ (List.mem_flatMap.mpr
      ⟨n - 1, hdone, List.mem_map.mpr ⟨(dep, n), List.mem_map.mpr ⟨dep, ?_, ?_⟩, rfl⟩⟩))
    · exact PyText.mem_sortedSet.mpr hin
    · rw [Nat.sub_add_cancel hpos]

/-! ## What a source depends on -/

/-- Where a source takes a binary from: the variant it is routed to, and the producer of the
    binary where it is routed to none. -/
def SuppliedBy (sourceOf : Dict String String) (routes : Routes) (src binary dep : String) :
    Prop :=
  (dep ≠ "" ∧ ∃ routed, routes.get? src = some routed ∧ routed.get? binary = some dep) ∨
    ((∀ routed, routes.get? src = some routed → ∀ variant, routed.get? binary = some variant →
        variant = "") ∧
      sourceOf.get? binary = some dep)

/-- A source of the build set uses a binary that another of them supplies. -/
def DependsOn (buildDeps : Dict String (Finset String)) (sourceOf : Dict String String)
    (buildSet : List String) (routes : Routes) (src dep : String) : Prop :=
  src ∈ buildSet ∧ dep ∈ buildSet ∧ dep ≠ src ∧
    ∃ uses, buildDeps.get? src = some uses ∧
      ∃ binary ∈ uses, SuppliedBy sourceOf routes src binary dep

theorem depSource_eq_some_iff {src binary dep : String} :
    depSource routes sourceOf src binary = some dep ↔
      SuppliedBy sourceOf routes src binary dep := by
  have hroute : routes.route src binary = (routes.get? src).bind fun routed =>
      routed.get? binary := by
    unfold Routes.route Dict.getD
    cases routes.get? src <;> rfl
  unfold SuppliedBy
  cases hr : routes.get? src with
  | none =>
    rw [hr] at hroute
    rw [depSource_of_unrouted hroute]
    simp
  | some routed =>
    rw [hr, Option.bind_some] at hroute
    simp only [Option.some.injEq, exists_eq_left', forall_eq']
    cases hb : routed.get? binary with
    | none =>
      rw [depSource_of_unrouted (hroute.trans hb)]
      simp
    | some variant =>
      simp only [Option.some.injEq, forall_eq']
      by_cases hv : variant = ""
      · rw [hv] at hb
        rw [depSource_of_empty (hroute.trans hb), hv]
        constructor
        · intro hsource
          exact .inr ⟨rfl, hsource⟩
        · rintro (⟨hne, heq⟩ | ⟨_, hsource⟩)
          · exact absurd heq.symm hne
          · exact hsource
      · rw [depSource_of_routed (hroute.trans hb) hv, Option.some.injEq]
        constructor
        · rintro rfl
          exact .inl ⟨hv, rfl⟩
        · rintro (⟨_, heq⟩ | ⟨heq, _⟩)
          · exact heq
          · exact absurd heq hv

/-- The edges of the graph are what the sources of the build set depend on. -/
theorem mem_edge_iff {src dep : String} :
    dep ∈ (projectToSourceGraph buildDeps sourceOf buildSet routes).getD src ∅ ↔
      DependsOn buildDeps sourceOf buildSet routes src dep := by
  have hedge : ∀ binary, dep ∈ edgeOf routes sourceOf buildSet src binary ↔
      (dep ∈ buildSet ∧ dep ≠ src) ∧ SuppliedBy sourceOf routes src binary dep := by
    intro binary
    rw [← depSource_eq_some_iff]
    unfold edgeOf
    cases depSource routes sourceOf src binary with
    | none => simp
    | some other =>
      dsimp only
      split_ifs with h
      · rw [Finset.mem_singleton]
        constructor
        · rintro rfl
          exact ⟨h, rfl⟩
        · rintro ⟨_, heq⟩
          exact (Option.some.inj heq).symm
      · refine iff_of_false (Finset.notMem_empty dep) fun hdep => h ?_
        rw [Option.some.inj hdep.2]
        exact hdep.1
  unfold projectToSourceGraph DependsOn Dict.getD
  by_cases hsrc : src ∈ buildSet
  · rw [Dict.get?_ofKeys _ hsrc, Option.getD_some, Finset.mem_biUnion]
    simp only [hedge, hsrc, true_and]
    cases buildDeps.get? src with
    | none => simp
    | some uses =>
      simp only [Option.getD_some, Option.some.injEq, exists_eq_left']
      constructor
      · rintro ⟨binary, hbinary, ⟨hdep, hne⟩, hsupplied⟩
        exact ⟨hdep, hne, binary, hbinary, hsupplied⟩
      · rintro ⟨hdep, hne, binary, hbinary, hsupplied⟩
        exact ⟨binary, hbinary, ⟨hdep, hne⟩, hsupplied⟩
  · rw [Dict.get?_ofKeys_of_notMem _ hsrc]
    exact iff_of_false (Finset.notMem_empty dep) fun h => hsrc h.1

theorem edge_eq_dependsOn :
    (fun v w => w ∈ (projectToSourceGraph buildDeps sourceOf buildSet routes).getD v ∅) =
      DependsOn buildDeps sourceOf buildSet routes := by
  funext v w
  exact propext mem_edge_iff

theorem onCycle_iff {src : String} :
    OnCycle (projectToSourceGraph buildDeps sourceOf buildSet routes) src ↔
      Relation.TransGen (DependsOn buildDeps sourceOf buildSet routes) src src := by
  unfold OnCycle
  rw [edge_eq_dependsOn]

theorem leadsTo_iff {v w : String} :
    LeadsTo (projectToSourceGraph buildDeps sourceOf buildSet routes) v w ↔
      Relation.ReflTransGen (DependsOn buildDeps sourceOf buildSet routes) v w := by
  unfold LeadsTo
  rw [edge_eq_dependsOn]

/-- No cycle is found where none is. -/
theorem findCycles_eq_nil :
    findCycles (projectToSourceGraph buildDeps sourceOf buildSet routes) = [] ↔
      ∀ src, ¬ OnCycle (projectToSourceGraph buildDeps sourceOf buildSet routes) src := by
  set graph := projectToSourceGraph buildDeps sourceOf buildSet routes with hgraph
  constructor
  · intro hnil src hcycle
    obtain ⟨dep, hdep, _⟩ := Relation.TransGen.head'_iff.mp hcycle
    have hsrc : src ∈ buildSet := (mem_edge_iff.mp hdep).1
    have hmem := mem_findCycles_flatten.mpr ⟨mem_flatten_iff.mpr hsrc, hcycle⟩
    rw [← hgraph, hnil] at hmem
    cases hmem
  · intro hnone
    rw [findCycles_eq, List.filter_eq_nil_iff]
    intro component hc hcycle
    obtain ⟨_, hne, _⟩ := strongly_connected_components_spec graph
    obtain ⟨src, hsrc⟩ := List.exists_mem_of_ne_nil component (hne component hc)
    exact hnone src ((isCycle_iff hc hsrc).mp hcycle)

/-- In the order, what a source depends on comes before it, unless it is on a cycle. -/
theorem before_of_order {before after : List String} {src dep : String}
    (heq : (stagedPlan buildDeps sourceOf buildSet stages routes).order = before ++ src :: after)
    (hdep : dep ∈ (projectToSourceGraph buildDeps sourceOf buildSet routes).getD src ∅)
    (hcycle : ¬ OnCycle (projectToSourceGraph buildDeps sourceOf buildSet routes) dep) :
    dep ∈ before := by
  set graph := projectToSourceGraph buildDeps sourceOf buildSet routes
  set plan := stagedPlan buildDeps sourceOf buildSet stages routes
  obtain ⟨_, hnot⟩ := mem_order.mp (heq ▸ List.mem_append_right _ List.mem_cons_self)
  obtain ⟨l₁, l₂, hflat, hbefore, hrest⟩ := List.filter_eq_append_iff.mp heq
  obtain ⟨m₁, m₂, rfl, hdropped, _, _⟩ := List.filter_eq_cons_iff.mp hrest
  rw [← List.append_assoc] at hflat
  obtain ⟨earlier, component, later, i, j, hsplit, hcomponent, hdone⟩ :=
    @Lists.flatMap_eq_append_cons _ _ (stronglyConnectedComponents graph) id _ _ _
      (List.flatMap_id.trans hflat)
  have hc : component ∈ stronglyConnectedComponents graph := by
    rw [hsplit]
    exact List.mem_append_right _ List.mem_cons_self
  have hsrc : src ∈ component := by
    rw [show component = i ++ src :: j from hcomponent]
    exact List.mem_append_right _ List.mem_cons_self
  rcases mem_or_earlier hsplit hsrc hdep with hin | hin
  · obtain ⟨_, hback⟩ := (mem_component_iff hc hsrc).mp hin
    exact absurd (Relation.TransGen.head' hdep hback) hnot
  · have hearly : dep ∈ l₁ ++ m₁ := by
      rw [hdone, List.flatMap_id]
      exact List.mem_append_left _ hin
    have hkept : dep ∈ plan.order := mem_order.mpr ⟨mem_buildSet_of_edge hdep, hcycle⟩
    have hkeep := (List.mem_filter.mp hkept).2
    rcases List.mem_append.mp hearly with hmem | hmem
    · rw [← hbefore]
      exact List.mem_filter.mpr ⟨hmem, hkeep⟩
    · exact absurd hkeep (hdropped dep hmem)

/-- **A plan is a partition of the build set**: the sources on no cycle, in an order that has
    what they depend on first, and every member of a cycle once for each stage, with what it
    depends on and leads back to it apart. A plan is returned for at least one stage, and where
    no source is on a cycle. -/
theorem planBuildOrder_partition (buildDeps : Dict String (Finset String))
    (sourceOf : Dict String String) (buildSet : List String) (stages : ℤ) (routes : Routes) :
    let depends := DependsOn buildDeps sourceOf buildSet routes
    let onCycle src := Relation.TransGen depends src src
    ((∃ plan, planBuildOrder buildDeps sourceOf buildSet stages routes = .ok plan) ↔
      1 ≤ stages ∨ ∀ src, ¬ onCycle src) ∧
    ∀ plan, planBuildOrder buildDeps sourceOf buildSet stages routes = .ok plan →
      plan.order.Nodup ∧ (∀ src, src ∈ plan.order ↔ src ∈ buildSet ∧ ¬ onCycle src) ∧
      (∀ before src after, plan.order = before ++ src :: after →
        ∀ dep, depends src dep → ¬ onCycle dep → dep ∈ before) ∧
      (plan.staged.map fun entry => (entry.source, entry.stage)).Nodup ∧
      (∀ src (stage : ℕ), (∃ entry ∈ plan.staged, entry.source = src ∧ entry.stage = stage) ↔
        (src ∈ buildSet ∧ onCycle src) ∧ 1 ≤ stage ∧ stage ≤ stages) ∧
      ∀ entry ∈ plan.staged, ∀ dep, dep ∈ entry.cycleDeps ↔
        depends entry.source dep ∧ Relation.ReflTransGen depends dep entry.source := by
  dsimp only
  constructor
  · simp only [planBuildOrder_eq_ok, exists_and_left, exists_eq, and_true, findCycles_eq_nil,
      onCycle_iff]
  · intro plan hplan
    obtain ⟨_, rfl⟩ := planBuildOrder_eq_ok.mp hplan
    refine ⟨nodup_flatten.filter _, fun _ => by rw [mem_order, onCycle_iff], ?_, nodup_staged,
      ?_, ?_⟩
    · intro before src after heq dep hdep hcycle
      exact before_of_order heq (mem_edge_iff.mpr hdep) (mt onCycle_iff.mp hcycle)
    · intro src stage
      rw [exists_staged_iff, onCycle_iff]
      refine and_congr_right fun _ => and_congr_right fun hpos => ?_
      omega
    · intro entry hentry dep
      rw [mem_cycleDeps_iff hentry, ← mem_edge_iff, ← leadsTo_iff]

/-- Two packages that need each other, and one that needs one of them and is routed to a variant
    of a fourth. -/
theorem planBuildOrder_partition_routed :
    let uses : Dict String (Finset String) :=
      ⟨[("a", {"b"}), ("b", {"a"}), ("c", {"a", "d"}), ("d", ∅), ("d-compat", ∅)]⟩
    let names := ["a", "b", "c", "d", "d-compat"]
    let depends := DependsOn uses (Dict.ofKeys names id) names ⟨[("c", ⟨[("d", "d-compat")]⟩)]⟩
    ∃ plan, planBuildOrder uses (Dict.ofKeys names id) names 2
        ⟨[("c", ⟨[("d", "d-compat")]⟩)]⟩ = .ok plan ∧
      plan.order = ["d-compat", "c", "d"] ∧
      (∀ dep, depends "c" dep → ¬ Relation.TransGen depends dep dep → dep ∈ ["d-compat"]) ∧
      ∀ src (stage : ℕ), (∃ entry ∈ plan.staged, entry.source = src ∧ entry.stage = stage) ↔
        (src ∈ names ∧ Relation.TransGen depends src src) ∧ 1 ≤ stage ∧ stage ≤ (2 : ℤ) := by
  intro uses names depends
  obtain ⟨hplans, hpartition⟩ := planBuildOrder_partition uses (Dict.ofKeys names id) names 2
    ⟨[("c", ⟨[("d", "d-compat")]⟩)]⟩
  obtain ⟨plan, hplan⟩ := hplans.mpr (.inl (by decide))
  have horder : plan.order = ["d-compat", "c", "d"] := by
    rw [(planBuildOrder_eq_ok.mp hplan).2]
    decide +kernel
  obtain ⟨_, _, hbefore, _, hstaged, _⟩ := hpartition plan hplan
  exact ⟨plan, hplan, horder, hbefore ["d-compat"] "c" ["d"] horder, hstaged⟩

/-- **A plan can be carried out**: for at least one stage there is one, with an order of all its
    targets, each once, in which a target comes after everything it is built against; and every
    source of the build set ships from exactly one of them. -/
theorem exists_schedule (buildDeps : Dict String (Finset String)) (sourceOf : Dict String String)
    (buildSet : List String) {stages : ℤ} (routes : Routes) (hstages : 1 ≤ stages) :
    let graph := projectToSourceGraph buildDeps sourceOf buildSet routes
    ∃ plan, planBuildOrder buildDeps sourceOf buildSet stages routes = .ok plan ∧
      ∃ targets : List PlanTarget, targets.Nodup ∧ (∀ t, t ∈ targets ↔ Registered plan t) ∧
        (∀ src ∈ buildSet, ∃! t, Ships plan src t) ∧ (∀ src t, Ships plan src t → t ∈ targets) ∧
        ∀ before t after, targets = before ++ t :: after →
          ∀ t', BuiltAgainst graph plan t t' → t' ∈ before := by
  intro graph
  refine ⟨_, planBuildOrder_eq_ok.mpr ⟨.inl hstages, rfl⟩, schedule graph stages.toNat,
    nodup_schedule, fun t => registered_iff.symm, ?_, ?_, ?_⟩
  · have hstages : 1 ≤ stages.toNat := by omega
    intro src hsrc
    by_cases hcycle : OnCycle graph src
    · refine ⟨.stage src stages.toNat, (ships_iff hstages).mpr ⟨hsrc, .inr ⟨hcycle, rfl⟩⟩, ?_⟩
      intro t ht
      obtain ⟨_, ⟨hnot, _⟩ | ⟨_, heq⟩⟩ := (ships_iff hstages).mp ht
      · exact absurd hcycle hnot
      · exact heq
    · refine ⟨.plain src, (ships_iff hstages).mpr ⟨hsrc, .inl ⟨hcycle, rfl⟩⟩, ?_⟩
      intro t ht
      obtain ⟨_, ⟨_, heq⟩ | ⟨hon, _⟩⟩ := (ships_iff hstages).mp ht
      · exact heq
      · exact absurd hon hcycle
  · intro src t h
    rw [← registered_iff]
    cases h with
    | plain h => exact .plain h
    | stage h _ => exact .stage h
  · intro before t after heq t' hneeds
    exact mem_of_builtAgainst (by omega) heq hneeds

/-- Two packages that need each other, and one that needs both. -/
theorem exists_schedule_of_pair :
    let graph := projectToSourceGraph (⟨[("a", {"b"}), ("b", {"a"}), ("c", {"a", "b"})]⟩)
      ⟨[("a", "a"), ("b", "b"), ("c", "c")]⟩ ["a", "b", "c"] Dict.empty
    ∃ plan, planBuildOrder (⟨[("a", {"b"}), ("b", {"a"}), ("c", {"a", "b"})]⟩)
      ⟨[("a", "a"), ("b", "b"), ("c", "c")]⟩ ["a", "b", "c"] 3 Dict.empty = .ok plan ∧
    ∃ targets : List PlanTarget, targets.Nodup ∧ (∀ t, t ∈ targets ↔ Registered plan t) ∧
      (∀ src ∈ ["a", "b", "c"], ∃! t, Ships plan src t) ∧
      (∀ src t, Ships plan src t → t ∈ targets) ∧
      ∀ before t after, targets = before ++ t :: after →
        ∀ t', BuiltAgainst graph plan t t' → t' ∈ before :=
  exists_schedule _ _ _ _ (by decide)

end Plan

end BuckosDistro.Family
