/-
  The components of a source graph, and what is read off them: cycles and the order.
-/
import BuckosDistro.Lib.Components
import BuckosDistro.Depgraph.Plan

namespace BuckosDistro.Depgraph

open BuckosDistro.Lib

/-- Some edges of the graph lead from the one node to the other. -/
def LeadsTo (graph : SourceGraph) : String → String → Prop :=
  Relation.ReflTransGen fun v w => w ∈ graph.getD v ∅

section Nodes

variable {graph : SourceGraph}

theorem mem_neighbours {v w : String} : w ∈ neighbours graph v ↔ w ∈ graph.getD v ∅ := by
  unfold neighbours
  exact PyText.mem_sorted

theorem mem_keys_of_edge {v w : String} (h : w ∈ graph.getD v ∅) : v ∈ graph.keys := by
  rw [Dict.mem_keys_iff]
  unfold Dict.getD at h
  cases hg : graph.get? v with
  | none =>
    rw [hg] at h
    exact absurd h (Finset.notMem_empty w)
  | some _ => rfl

theorem mem_graphNodes {v : String} :
    v ∈ graphNodes graph ↔ v ∈ graph.keys ∨ ∃ u, v ∈ graph.getD u ∅ := by
  unfold graphNodes
  rw [Finset.mem_union, List.mem_toFinset, Finset.mem_biUnion]
  refine or_congr_right ⟨fun ⟨u, _, hu⟩ => ⟨u, hu⟩, fun ⟨u, hu⟩ => ⟨u, ?_, hu⟩⟩
  exact List.mem_toFinset.mpr (mem_keys_of_edge hu)

theorem reach_neighbours : Tarjan.Reach (neighbours graph) = LeadsTo graph := by
  unfold Tarjan.Reach LeadsTo
  congr 1
  funext v w
  exact propext mem_neighbours

/-- Edges stay among the nodes. -/
theorem graphNodes_closed : ∀ v ∈ graphNodes graph, ∀ w ∈ neighbours graph v,
    w ∈ graphNodes graph :=
  fun v _ _ hw => mem_graphNodes.mpr (Or.inr ⟨v, mem_neighbours.mp hw⟩)

theorem keys_subset_graphNodes : ∀ v ∈ PyText.sortedSet graph.keys, v ∈ graphNodes graph :=
  fun _ hv => mem_graphNodes.mpr (Or.inl (PyText.mem_sortedSet.mp hv))

end Nodes

theorem mem_flatten_sorted {parts : List (List String)} {v : String} :
    v ∈ (parts.map PyText.sortedSet).flatten ↔ v ∈ parts.flatten := by
  simp only [List.mem_flatten, List.mem_map, exists_exists_and_eq_and, PyText.mem_sortedSet]

/-- Sorting the parts reorders each of them. -/
theorem flatten_map_sortedSet_perm (parts : List (List String)) (h : parts.flatten.Nodup) :
    (parts.map PyText.sortedSet).flatten.Perm parts.flatten := by
  induction parts with
  | nil => exact .nil
  | cons part parts ih =>
    rw [List.flatten_cons] at h
    obtain ⟨hpart, hparts, _⟩ := List.nodup_append.mp h
    rw [List.map_cons, List.flatten_cons, List.flatten_cons]
    refine List.Perm.append ?_ (ih hparts)
    unfold PyText.sortedSet
    rw [hpart.dedup]
    exact List.perm_insertionSort _ _

/-- **The components are the strongly connected components, dependencies first**: they hold
    every node and every target of an edge once, two nodes share one when each reaches the
    other, and an edge that leaves one goes to an earlier one. -/
theorem strongly_connected_components_spec (graph : SourceGraph) :
    let components := stronglyConnectedComponents graph
    components.flatten.Nodup ∧ (∀ component ∈ components, component ≠ []) ∧
      (∀ v, v ∈ components.flatten ↔ v ∈ graph.keys ∨ ∃ u, v ∈ graph.getD u ∅) ∧
      (∀ v ∈ components.flatten, ∀ w ∈ components.flatten,
        (∃ component ∈ components, v ∈ component ∧ w ∈ component) ↔
          LeadsTo graph v w ∧ LeadsTo graph w v) ∧
      ∀ earlier component later, components = earlier ++ component :: later →
        ∀ v ∈ component, ∀ w ∈ graph.getD v ∅, w ∈ component ∨ w ∈ earlier.flatten := by
  intro components
  let parts := Tarjan.components (neighbours graph) (graphNodes graph)
    (PyText.sortedSet graph.keys)
  have hnodup : parts.flatten.Nodup := Tarjan.components_nodup
  have hmem : ∀ v, v ∈ components.flatten ↔ v ∈ parts.flatten := fun _ => mem_flatten_sorted
  obtain ⟨hcover, hwithin⟩ := @Tarjan.components_cover _ _ _ _ _
    (@graphNodes_closed graph) keys_subset_graphNodes
  have hkeys : ∀ v ∈ graph.keys, v ∈ parts.flatten :=
    fun v hv => hcover v (PyText.mem_sortedSet.mpr hv)
  have hordered : ∀ earlier part later, parts = earlier ++ part :: later →
      ∀ v ∈ part, ∀ w ∈ graph.getD v ∅, w ∈ part ∨ w ∈ earlier.flatten :=
    fun earlier part later heq v hv w hw =>
      Tarjan.components_ordered earlier part later heq v hv w (mem_neighbours.mpr hw)
  refine ⟨(flatten_map_sortedSet_perm parts hnodup).nodup_iff.mpr hnodup, ?_, fun v => ?_,
    fun v hv w _ => ?_, fun earlier component later heq v hv w hw => ?_⟩
  · intro component hcomponent
    obtain ⟨part, hpart, rfl⟩ := List.mem_map.mp hcomponent
    obtain ⟨v, hv⟩ := List.exists_mem_of_ne_nil _ (Tarjan.components_nonempty part hpart)
    exact List.ne_nil_of_mem (PyText.mem_sortedSet.mpr hv)
  · rw [hmem]
    constructor
    · intro hv
      exact mem_graphNodes.mp (hwithin v hv)
    · rintro (hv | ⟨u, hu⟩)
      · exact hkeys v hv
      · -- the target of an edge is in the component of its source, or in an earlier one
        obtain ⟨part, hpart, hup⟩ := List.mem_flatten.mp (hkeys u (mem_keys_of_edge hu))
        obtain ⟨earlier, later, heq⟩ := List.append_of_mem hpart
        rw [heq, List.flatten_append, List.flatten_cons, List.mem_append, List.mem_append]
        rcases hordered earlier part later heq u hup v hu with hv | hv
        · exact Or.inr (Or.inl hv)
        · exact Or.inl hv
  · rw [← reach_neighbours, ← Tarjan.share_component_iff ((hmem v).mp hv)]
    constructor
    · rintro ⟨component, hcomponent, hvc, hwc⟩
      obtain ⟨part, hpart, rfl⟩ := List.mem_map.mp hcomponent
      exact ⟨part, hpart, PyText.mem_sortedSet.mp hvc, PyText.mem_sortedSet.mp hwc⟩
    · rintro ⟨part, hpart, hvp, hwp⟩
      exact ⟨_, List.mem_map_of_mem hpart, PyText.mem_sortedSet.mpr hvp,
        PyText.mem_sortedSet.mpr hwp⟩
  · obtain ⟨before, rest, hsplit, hbefore, hrest⟩ := List.map_eq_append_iff.mp heq
    obtain ⟨part, after, rfl, hpart, _⟩ := List.map_eq_cons_iff.mp hrest
    rw [← hpart, PyText.mem_sortedSet] at hv ⊢
    rw [← hbefore, mem_flatten_sorted]
    exact hordered before part after hsplit v hv w hw

end BuckosDistro.Depgraph
