/-
  What Tarjan's algorithm finds: the strongly connected components, dependencies first.

  A node is gray while it is on the work stack. Every node of the stack reaches the later
  ones and a gray node no later than itself, and the `low` of a gray node is the index of a
  node of the stack it reaches (`Core`). The edges out of the stack are the other half: an
  edge that is not still to be tried leads to a finished node, or to a node of the stack no
  earlier than the `low` of the gray node that answers for its source (`Edges`).
-/
import BuckosDistro.Lib.Tarjan

namespace BuckosDistro.Lib.Tarjan

open State

variable {α : Type*}

/-! ## The invariant -/

/-- There is a path from the one node to the other. -/
def Reach (succ : α → List α) : α → α → Prop := Relation.ReflTransGen fun v w => w ∈ succ v

/-- No edge leads from a list of `parts` to a later one. -/
def Ordered (succ : α → List α) (parts : List (List α)) : Prop :=
  ∀ earlier part later, parts = earlier ++ part :: later →
    ∀ v ∈ part, ∀ w ∈ succ v, w ∈ part ∨ w ∈ earlier.flatten

namespace State

/-- The nodes of the work stack. -/
def gray (s : State α) : List α := s.work.map Prod.fst

/-- The gray node that answers for `v`: the last one that is no later. -/
def Answers (s : State α) (g v : α) : Prop :=
  g ∈ s.gray ∧ s.index g ≤ s.index v ∧
    ∀ g' ∈ s.gray, s.index g' ≤ s.index v → s.index g' ≤ s.index g

/-- The edge is still to be tried. -/
def Waiting (s : State α) (v w : α) : Prop := ∃ rest, (v, rest) ∈ s.work ∧ w ∈ rest

/-- The edge is accounted for. -/
def Settled (s : State α) (v w : α) : Prop :=
  w ∈ s.result.flatten ∨ (w ∈ s.stack ∧ ∀ g, s.Answers g v → s.low g ≤ s.index w)

end State

/-- What holds of the stacks. -/
structure Core (succ : α → List α) (s : State α) : Prop where
  found : ∀ v, (s.indexOf v).isSome ↔ v ∈ s.stack ∨ v ∈ s.result.flatten
  onStack : ∀ v, s.onStack v = true ↔ v ∈ s.stack
  bound : ∀ v ∈ s.stack, s.index v < s.counter
  sorted : s.stack.Pairwise fun v w => s.index w < s.index v
  grayStack : ∀ g ∈ s.gray, g ∈ s.stack
  graySorted : s.gray.Pairwise fun v w => s.index w < s.index v
  apart : ∀ v ∈ s.stack, v ∉ s.result.flatten
  nodup : s.result.flatten.Nodup
  ordered : Ordered succ s.result
  nonempty : ∀ part ∈ s.result, part ≠ []
  connected : ∀ part ∈ s.result, ∀ v ∈ part, ∀ w ∈ part, Reach succ v w
  later : ∀ v ∈ s.stack, ∀ w ∈ s.stack, s.index v ≤ s.index w → Reach succ v w
  back : ∀ v ∈ s.stack, ∃ g ∈ s.gray, s.index g ≤ s.index v ∧ Reach succ v g
  lowLe : ∀ g ∈ s.gray, s.low g ≤ s.index g
  lowReach : ∀ g ∈ s.gray, ∃ w ∈ s.stack, s.index w = s.low g ∧ Reach succ g w

/-- Every edge out of the stack is to be tried, accounted for, or one of the `owed`. -/
def Edges (succ : α → List α) (owed : α → α → Prop) (s : State α) : Prop :=
  ∀ v ∈ s.stack, ∀ w ∈ succ v, s.Waiting v w ∨ s.Settled v w ∨ owed v w

/-- The invariant of a run that starts with `roots`. -/
structure Inv (succ : α → List α) (roots : List α) (s : State α) : Prop where
  core : Core succ s
  edges : Edges succ (fun _ _ => False) s
  real : ∀ q ∈ s.work, ∀ w ∈ q.2, w ∈ succ q.1
  covered : ∀ root ∈ roots, root ∈ s.roots ∨ (s.indexOf root).isSome

variable {succ : α → List α}

theorem Ordered.concat {parts : List (List α)} (h : Ordered succ parts) {part : List α}
    (hp : ∀ v ∈ part, ∀ w ∈ succ v, w ∈ part ∨ w ∈ parts.flatten) :
    Ordered succ (parts ++ [part]) := by
  intro earlier part' later heq
  rcases List.eq_nil_or_concat later with rfl | ⟨later', last, rfl⟩
  · obtain ⟨rfl, hlast⟩ := List.append_inj' heq rfl
    obtain rfl := List.singleton_inj.mp hlast
    exact hp
  · rw [List.concat_eq_append, ← List.cons_append, ← List.append_assoc] at heq
    exact h earlier part' later' (List.append_inj' heq rfl).1

/-- A path from a part leads to the same or an earlier one. -/
theorem Ordered.reach {parts earlier later : List (List α)} {part : List α}
    (h : Ordered succ parts) (heq : parts = earlier ++ part :: later) {v w : α}
    (hv : v ∈ part) (hr : Reach succ v w) : w ∈ part ∨ w ∈ earlier.flatten := by
  induction hr with
  | refl => exact Or.inl hv
  | @tail u w _ hedge ih =>
    rcases ih with hu | hu
    · exact h earlier part later heq u hu w hedge
    · obtain ⟨part', hpart', hmem⟩ := List.mem_flatten.mp hu
      obtain ⟨first, second, rfl⟩ := List.append_of_mem hpart'
      rw [List.append_assoc, List.cons_append] at heq
      have hw := h first part' _ heq u hmem w hedge
      right
      rw [List.flatten_append, List.flatten_cons]
      rcases hw with hw | hw
      · exact List.mem_append_right _ (List.mem_append_left _ hw)
      · exact List.mem_append_left _ hw

namespace Core

variable {s : State α}

theorem index_inj (h : Core succ s) {v w : α} (hv : v ∈ s.stack) (hw : w ∈ s.stack)
    (he : s.index v = s.index w) : v = w := by
  have hdiff : s.stack.Pairwise fun v w => s.index v = s.index w → v = w :=
    h.sorted.imp fun hlt heq => by omega
  have hflip : s.stack.Pairwise (flip fun v w => s.index v = s.index w → v = w) :=
    hdiff.imp fun hvw heq => (hvw heq.symm).symm
  exact hdiff.forall_of_forall_of_flip (fun _ _ _ => rfl) hflip hv hw he

/-- The top of the work stack is the last gray node. -/
theorem le_top (h : Core succ s) {v : α} {gs : List α} (hg : s.gray = v :: gs) :
    ∀ g ∈ s.gray, s.index g ≤ s.index v := by
  intro g hmem
  have hsorted := h.graySorted
  rw [hg] at hmem hsorted
  rcases List.mem_cons.mp hmem with rfl | hmem
  · exact Nat.le_refl _
  · exact Nat.le_of_lt ((List.pairwise_cons.mp hsorted).1 g hmem)

/-- The whole stack reaches the top of the work stack. -/
theorem reach_top (h : Core succ s) {v : α} {gs : List α} (hg : s.gray = v :: gs) :
    ∀ w ∈ s.stack, Reach succ w v := by
  intro w hw
  obtain ⟨g, hgray, _, hreach⟩ := h.back w hw
  have hv : v ∈ s.stack := h.grayStack v (by rw [hg]; exact List.mem_cons_self ..)
  exact hreach.trans (h.later g (h.grayStack g hgray) v hv (h.le_top hg g hgray))

/-- Without work there is no stack. -/
theorem stack_eq_nil (h : Core succ s) (hw : s.work = []) : s.stack = [] := by
  apply List.eq_nil_iff_forall_not_mem.mpr
  intro v hv
  obtain ⟨g, hg, _⟩ := h.back v hv
  rw [State.gray, hw] at hg
  cases hg

/-- The top of the work stack answers for everything after it. -/
theorem answers_top (h : Core succ s) {v w : α} {gs : List α} (hg : s.gray = v :: gs)
    (hle : s.index v ≤ s.index w) : s.Answers v w :=
  ⟨by rw [hg]; exact List.mem_cons_self .., hle, fun g' hg' _ => h.le_top hg g' hg'⟩

theorem notMem_of_none (h : Core succ s) {v : α} (hn : s.indexOf v = none) :
    v ∉ s.stack ∧ v ∉ s.result.flatten := by
  have hnot : ¬ (v ∈ s.stack ∨ v ∈ s.result.flatten) := by
    rw [← h.found v, hn]
    exact Bool.false_ne_true
  exact not_or.mp hnot

end Core

/-! ## A node met -/

variable [DecidableEq α]

theorem index_discover (s : State α) (v w : α) :
    (s.discover succ v).index w = if w = v then s.counter else s.index w := by
  show (Function.update s.indexOf v (some s.counter) w).getD 0 = _
  by_cases h : w = v
  · rw [if_pos h, h, Function.update_self, Option.getD_some]
  · rw [if_neg h, Function.update_of_ne h]
    rfl

/-- Every index of the stack stays what it was. -/
theorem Core.index_discover {s : State α} (h : Core succ s) {v : α} (hn : s.indexOf v = none)
    {w : α} (hw : w ∈ s.stack) : (s.discover succ v).index w = s.index w := by
  rw [Tarjan.index_discover, if_neg]
  rintro rfl
  exact (h.notMem_of_none hn).1 hw

theorem Core.discover {s : State α} (h : Core succ s) {v : α} (hn : s.indexOf v = none)
    (hreach : ∀ w ∈ s.stack, Reach succ w v) : Core succ (s.discover succ v) := by
  obtain ⟨hstack, hresult⟩ := h.notMem_of_none hn
  have hidx : ∀ w ∈ s.stack, (s.discover succ v).index w = s.index w :=
    fun w hw => h.index_discover hn hw
  have hv : (s.discover succ v).index v = s.counter := by
    rw [Tarjan.index_discover, if_pos rfl]
  have hlow : ∀ w ∈ s.stack, (s.discover succ v).low w = s.low w := by
    intro w hw
    refine Function.update_of_ne ?_ _ _
    rintro rfl
    exact hstack hw
  have hlowv : (s.discover succ v).low v = s.counter := Function.update_self ..
  have hgray : (s.discover succ v).gray = v :: s.gray := rfl
  refine
    { found := ?_, onStack := ?_, bound := ?_, sorted := ?_, grayStack := ?_, graySorted := ?_
      apart := ?_, nodup := h.nodup, ordered := h.ordered, nonempty := h.nonempty
      connected := h.connected, later := ?_, back := ?_, lowLe := ?_, lowReach := ?_ }
  · intro w
    show (Function.update s.indexOf v (some s.counter) w).isSome = true ↔ w ∈ v :: s.stack ∨ _
    by_cases hw : w = v
    · simp [hw]
    · rw [Function.update_of_ne hw, h.found w, List.mem_cons, or_iff_right hw]
      rfl
  · intro w
    show Function.update s.onStack v true w = true ↔ w ∈ v :: s.stack
    by_cases hw : w = v
    · simp [hw]
    · rw [Function.update_of_ne hw, h.onStack w, List.mem_cons, or_iff_right hw]
  · intro w hw
    show _ < s.counter + 1
    rcases List.mem_cons.mp hw with rfl | hw
    · omega
    · have := h.bound w hw
      rw [hidx w hw]
      omega
  · refine List.pairwise_cons.mpr ⟨fun w hw => ?_, ?_⟩
    · rw [hidx w hw, hv]
      exact h.bound w hw
    · refine h.sorted.imp_of_mem fun {a b} ha hb hlt => ?_
      rwa [hidx a ha, hidx b hb]
  · intro g hg
    rw [hgray] at hg
    rcases List.mem_cons.mp hg with rfl | hg
    · exact List.mem_cons_self ..
    · exact List.mem_cons_of_mem _ (h.grayStack g hg)
  · rw [hgray]
    refine List.pairwise_cons.mpr ⟨fun w hw => ?_, ?_⟩
    · rw [hidx w (h.grayStack w hw), hv]
      exact h.bound w (h.grayStack w hw)
    · refine h.graySorted.imp_of_mem fun {a b} ha hb hlt => ?_
      rwa [hidx a (h.grayStack a ha), hidx b (h.grayStack b hb)]
  · intro w hw
    rcases List.mem_cons.mp hw with rfl | hw
    · exact hresult
    · exact h.apart w hw
  · intro a ha b hb hle
    rcases List.mem_cons.mp ha with rfl | ha'
    · rcases List.mem_cons.mp hb with rfl | hb'
      · exact .refl
      · have := h.bound b hb'
        rw [hv, hidx b hb'] at hle
        omega
    · rcases List.mem_cons.mp hb with rfl | hb'
      · exact hreach a ha'
      · rw [hidx a ha', hidx b hb'] at hle
        exact h.later a ha' b hb' hle
  · intro w hw
    rw [hgray]
    rcases List.mem_cons.mp hw with rfl | hw
    · exact ⟨w, List.mem_cons_self .., Nat.le_refl _, .refl⟩
    · obtain ⟨g, hg, hle, hr⟩ := h.back w hw
      refine ⟨g, List.mem_cons_of_mem _ hg, ?_, hr⟩
      rwa [hidx g (h.grayStack g hg), hidx w hw]
  · intro g hg
    rw [hgray] at hg
    rcases List.mem_cons.mp hg with rfl | hg
    · rw [hlowv, hv]
    · rw [hlow g (h.grayStack g hg), hidx g (h.grayStack g hg)]
      exact h.lowLe g hg
  · intro g hg
    rw [hgray] at hg
    rcases List.mem_cons.mp hg with rfl | hg
    · exact ⟨g, List.mem_cons_self .., by rw [hv, hlowv], .refl⟩
    · obtain ⟨w, hw, he, hr⟩ := h.lowReach g hg
      refine ⟨w, List.mem_cons_of_mem _ hw, ?_, hr⟩
      rw [hidx w hw, hlow g (h.grayStack g hg), he]

/-- The edges of a node just met are all to be tried, and nothing else is answered for by it. -/
theorem Edges.discover {s : State α} (h : Core succ s) {owed : α → α → Prop}
    (he : Edges succ owed s) {v : α} (hn : s.indexOf v = none)
    (howed : ∀ u w, owed u w → w = v) :
    Edges succ (fun _ _ => False) (s.discover succ v) := by
  obtain ⟨hstack, _⟩ := h.notMem_of_none hn
  have hv : (s.discover succ v).index v = s.counter := by
    rw [Tarjan.index_discover, if_pos rfl]
  have hold : ∀ g, ∀ u ∈ s.stack, (s.discover succ v).Answers g u →
      g ∈ s.gray ∧ s.Answers g u ∧ (s.discover succ v).low g = s.low g := by
    rintro g u hu ⟨hg, hle, hlast⟩
    have hgv : g ≠ v := by
      rintro rfl
      have := h.bound u hu
      rw [hv, h.index_discover hn hu] at hle
      omega
    have hg' : g ∈ s.gray := (List.mem_cons.mp hg).resolve_left hgv
    refine ⟨hg', ⟨hg', ?_, fun g' hmem hle' => ?_⟩, Function.update_of_ne hgv _ _⟩
    · rwa [h.index_discover hn (h.grayStack g hg'), h.index_discover hn hu] at hle
    · have := hlast g' (List.mem_cons_of_mem _ hmem)
      rw [h.index_discover hn (h.grayStack g' hmem), h.index_discover hn hu,
        h.index_discover hn (h.grayStack g hg')] at this
      exact this hle'
  intro u hu w hw
  rcases List.mem_cons.mp hu with rfl | hu'
  · exact Or.inl ⟨succ u, List.mem_cons_self .., hw⟩
  · rcases he u hu' w hw with ⟨rest, hrest, hwait⟩ | hset | ho
    · exact Or.inl ⟨rest, List.mem_cons_of_mem _ hrest, hwait⟩
    · right; left
      rcases hset with hres | ⟨hws, hlow⟩
      · exact Or.inl hres
      · refine Or.inr ⟨List.mem_cons_of_mem _ hws, fun g hg => ?_⟩
        obtain ⟨_, ha, hl⟩ := hold g u hu' hg
        rw [hl, h.index_discover hn hws]
        exact hlow g ha
    · obtain rfl := howed u w ho
      right; left; right
      refine ⟨List.mem_cons_self .., fun g hg => ?_⟩
      obtain ⟨hgray, _, hl⟩ := hold g u hu' hg
      have h1 := h.lowLe g hgray
      have h2 := h.bound g (h.grayStack g hgray)
      rw [hl, hv]
      omega

/-! ## An edge to the stack -/

theorem low_lower (s : State α) (v : α) (bound : ℕ) (w : α) :
    (s.lower v bound).low w = if w = v then min (s.low v) bound else s.low w := by
  show Function.update s.low v (min (s.low v) bound) w = _
  by_cases h : w = v
  · rw [if_pos h, h, Function.update_self]
  · rw [if_neg h, Function.update_of_ne h]

theorem low_lower_le (s : State α) (v : α) (bound : ℕ) (w : α) :
    (s.lower v bound).low w ≤ s.low w := by
  rw [low_lower]
  split_ifs with h
  · rw [h]
    exact min_le_left _ _
  · exact Nat.le_refl _

/-- A `low` may be lowered to the index of a node that is reached. -/
theorem Core.lower {s : State α} (h : Core succ s) {v w : α} (hw : w ∈ s.stack)
    (hr : Reach succ v w) : Core succ (s.lower v (s.index w)) := by
  refine ⟨h.found, h.onStack, h.bound, h.sorted, h.grayStack, h.graySorted, h.apart, h.nodup,
    h.ordered, h.nonempty, h.connected, h.later, h.back, fun g hg => ?_, fun g hg => ?_⟩
  · exact Nat.le_trans (low_lower_le ..) (h.lowLe g hg)
  · obtain ⟨u, hu, he, hru⟩ := h.lowReach g hg
    rw [low_lower]
    split_ifs with hgv
    · rcases Nat.le_total (s.low v) (s.index w) with hle | hle
      · exact ⟨u, hu, by rw [Nat.min_eq_left hle, ← hgv]; exact he, hru⟩
      · exact ⟨w, hw, by rw [Nat.min_eq_right hle]; rfl, hgv ▸ hr⟩
    · exact ⟨u, hu, he, hru⟩

/-- The edge tried is recorded where it starts. -/
theorem Edges.lower {s : State α} (h : Core succ s) {v w : α} {gs : List α}
    (hg : s.gray = v :: gs) (hw : w ∈ s.stack)
    (he : Edges succ (fun a b => a = v ∧ b = w) s) :
    Edges succ (fun _ _ => False) (s.lower v (s.index w)) := by
  have hv : v ∈ s.gray := by
    rw [hg]
    exact List.mem_cons_self ..
  intro a ha b hb
  rcases he a ha b hb with hwait | hset | ⟨rfl, rfl⟩
  · exact Or.inl hwait
  · right; left
    rcases hset with hres | ⟨hbs, hlow⟩
    · exact Or.inl hres
    · exact Or.inr ⟨hbs, fun g hga => Nat.le_trans (low_lower_le ..) (hlow g hga)⟩
  · right; left; right
    refine ⟨hw, fun g hga => ?_⟩
    have hge : s.index a ≤ s.index g := hga.2.2 a hv (Nat.le_refl _)
    have hga' : g = a := h.index_inj (h.grayStack g hga.1) (h.grayStack a hv)
      (Nat.le_antisymm hga.2.1 hge)
    rw [hga', low_lower, if_pos rfl]
    exact min_le_right _ _

/-! ## A node finished -/

section Finish

variable {s : State α} {v : α} {work : List (α × List α)}

omit [DecidableEq α] in
/-- A node finished answers for nothing any more: its edges are all tried. -/
theorem notWaiting_top (h : Core succ s) (hw : s.work = (v, []) :: work) {a b : α}
    (hwait : s.Waiting a b) : ∃ rest, (a, rest) ∈ work ∧ b ∈ rest ∧ s.index a < s.index v := by
  obtain ⟨rest, hrest, hb⟩ := hwait
  rw [hw] at hrest
  rcases List.mem_cons.mp hrest with heq | hrest
  · rw [(Prod.mk.inj heq).2] at hb
    cases hb
  · have hsorted := h.graySorted
    rw [State.gray, hw, List.map_cons] at hsorted
    exact ⟨rest, hrest, hb, (List.pairwise_cons.mp hsorted).1 a (List.mem_map_of_mem hrest)⟩

omit [DecidableEq α] in
theorem gray_of_work (hw : s.work = (v, []) :: work) : s.gray = v :: work.map Prod.fst := by
  rw [State.gray, hw, List.map_cons]

omit [DecidableEq α] in
/-- Of two gray nodes only the top is no earlier than the top. -/
theorem Core.lt_top (h : Core succ s) (hw : s.work = (v, []) :: work) {g : α}
    (hg : g ∈ work.map Prod.fst) : s.index g < s.index v := by
  have hsorted := h.graySorted
  rw [gray_of_work hw] at hsorted
  exact (List.pairwise_cons.mp hsorted).1 g hg

omit [DecidableEq α] in
/-- What answers for a node before the one finished is not changed by that. -/
theorem answers_of_lt (hw : s.work = (v, []) :: work) {g a : α} (ha : s.index a < s.index v)
    {s' : State α} (hga : s'.Answers g a) (hgray : s'.gray = work.map Prod.fst)
    (hidx : ∀ b, s'.index b = s.index b) : s.Answers g a := by
  obtain ⟨hg, hle, hlast⟩ := hga
  simp only [hidx, hgray] at hg hle hlast
  refine ⟨by rw [gray_of_work hw]; exact List.mem_cons_of_mem _ hg, hle, fun g' hg' hle' => ?_⟩
  rw [gray_of_work hw] at hg'
  rcases List.mem_cons.mp hg' with rfl | hg'
  · omega
  · exact hlast g' hg' hle'

/-- The top of the work stack reaches what it has not reached yet through its parent. -/
theorem Core.merge (h : Core succ s) {p : α} {rest : List α} {work' : List (α × List α)}
    (hw : s.work = (v, []) :: (p, rest) :: work') (hlow : s.low v < s.index v) :
    Core succ ({ s with work := (p, rest) :: work' }.lower p (s.low v)) := by
  have hg := gray_of_work hw
  have hvgray : v ∈ s.gray := by
    rw [hg]
    exact List.mem_cons_self ..
  have hpgray : p ∈ s.gray := by
    rw [hg]
    exact List.mem_cons_of_mem _ (List.mem_cons_self ..)
  obtain ⟨w, hws, hwlow, hvw⟩ := h.lowReach v hvgray
  have hpop : Core succ { s with work := (p, rest) :: work' } := by
    refine ⟨h.found, h.onStack, h.bound, h.sorted, fun g hg' => ?_, ?_, h.apart, h.nodup,
      h.ordered, h.nonempty, h.connected, h.later, fun a ha => ?_, fun g hg' => ?_, fun g hg' => ?_⟩
    · exact h.grayStack g (by rw [hg]; exact List.mem_cons_of_mem _ hg')
    · have hsorted := h.graySorted
      rw [hg] at hsorted
      exact (List.pairwise_cons.mp hsorted).2
    · obtain ⟨g, hmem, hle, hr⟩ := h.back a ha
      rw [hg] at hmem
      rcases List.mem_cons.mp hmem with rfl | hmem
      · -- the top's `low` leads to a node that another gray node answers for
        obtain ⟨g', hmem', hle', hr'⟩ := h.back w hws
        rw [hg] at hmem'
        rcases List.mem_cons.mp hmem' with rfl | hmem'
        · omega
        · refine ⟨g', hmem', ?_, hr.trans (hvw.trans hr')⟩
          show s.index g' ≤ s.index a
          omega
      · exact ⟨g, hmem, hle, hr⟩
    · exact h.lowLe g (by rw [hg]; exact List.mem_cons_of_mem _ hg')
    · exact h.lowReach g (by rw [hg]; exact List.mem_cons_of_mem _ hg')
  have hpv : Reach succ p v := h.later p (h.grayStack p hpgray) v (h.grayStack v hvgray)
    (h.le_top hg p hpgray)
  rw [← hwlow]
  exact hpop.lower hws (hpv.trans hvw)

theorem Edges.merge (h : Core succ s) {p : α} {rest : List α} {work' : List (α × List α)}
    (hw : s.work = (v, []) :: (p, rest) :: work') (he : Edges succ (fun _ _ => False) s) :
    Edges succ (fun _ _ => False)
      ({ s with work := (p, rest) :: work' }.lower p (s.low v)) := by
  intro a ha b hb
  rcases he a ha b hb with hwait | hset | hfalse
  · obtain ⟨left, hmem, hb', _⟩ := notWaiting_top h hw hwait
    exact Or.inl ⟨left, hmem, hb'⟩
  · right; left
    rcases hset with hres | ⟨hbs, hlow⟩
    · exact Or.inl hres
    · refine Or.inr ⟨hbs, fun g hga => ?_⟩
      rcases Nat.lt_or_ge (s.index a) (s.index v) with hlt | hge
      · exact Nat.le_trans (low_lower_le ..) (hlow g (answers_of_lt hw hlt hga rfl fun _ => rfl))
      · -- what the node finished answered for, its parent answers for
        have hv : s.low v ≤ s.index b := hlow v (h.answers_top (gray_of_work hw) hge)
        have hp : s.index p < s.index v := h.lt_top hw (List.mem_cons_self ..)
        have hpg : s.index p ≤ s.index g :=
          hga.2.2 p (List.mem_cons_self ..) (Nat.le_trans (Nat.le_of_lt hp) hge)
        have hgmem : g ∈ p :: work'.map Prod.fst := hga.1
        have hgp : g = p := by
          rcases List.mem_cons.mp hgmem with rfl | hgw
          · rfl
          · have hsorted := h.graySorted
            rw [gray_of_work hw] at hsorted
            have : s.index g < s.index p :=
              (List.pairwise_cons.mp (List.pairwise_cons.mp hsorted).2).1 g hgw
            omega
        rw [hgp, low_lower, if_pos rfl]
        exact Nat.le_trans (min_le_right _ _) hv
  · exact hfalse.elim

/-- The stack is cut at the node: what comes off is no earlier than it, what stays is. -/
theorem Core.cut (h : Core succ s) {v : α} (hv : v ∈ s.stack) :
    (∀ w, w ∈ s.component v ↔ w ∈ s.stack ∧ s.index v ≤ s.index w) ∧
      (∀ w, w ∈ (s.emit v).stack ↔ w ∈ s.stack ∧ s.index w < s.index v) := by
  have hhead : (s.stack.dropWhile (· ≠ v)).head? = some v := by
    cases hd : s.stack.dropWhile (· ≠ v) with
    | nil => exact absurd (List.dropWhile_eq_nil_iff.mp hd v hv) (by simp)
    | cons w rest =>
      have hw := List.head_dropWhile_not (· ≠ v) (l := s.stack)
        (by rw [hd]; exact List.cons_ne_nil _ _)
      simp only [hd, List.head_cons] at hw
      rw [List.head?_cons, show w = v by simpa using hw]
  obtain ⟨rest, hrest⟩ := List.head?_eq_some_iff.mp hhead
  have hsplit : s.stack = s.stack.takeWhile (· ≠ v) ++ v :: rest := by
    rw [← hrest, List.takeWhile_append_dropWhile]
  have hstay : (s.emit v).stack = rest := by
    show (s.stack.dropWhile (· ≠ v)).tail = rest
    rw [hrest, List.tail_cons]
  have hsorted := h.sorted
  rw [hsplit] at hsorted
  obtain ⟨_, hbelow, habove⟩ := List.pairwise_append.mp hsorted
  have hlt : ∀ w ∈ rest, s.index w < s.index v := (List.pairwise_cons.mp hbelow).1
  have hgt : ∀ w ∈ s.stack.takeWhile (· ≠ v), s.index v < s.index w :=
    fun w hw => habove w hw v (List.mem_cons_self ..)
  have hmem : ∀ w, w ∈ s.stack ↔ w ∈ s.stack.takeWhile (· ≠ v) ∨ w = v ∨ w ∈ rest := by
    intro w
    conv_lhs => rw [hsplit]
    rw [List.mem_append, List.mem_cons]
  constructor
  · intro w
    show w ∈ s.stack.takeWhile (· ≠ v) ++ [v] ↔ _
    rw [List.mem_append, List.mem_singleton, hmem]
    constructor
    · rintro (hw | rfl)
      · exact ⟨Or.inl hw, Nat.le_of_lt (hgt w hw)⟩
      · exact ⟨Or.inr (Or.inl rfl), Nat.le_refl _⟩
    · rintro ⟨hw | hw | hw, hle⟩
      · exact Or.inl hw
      · exact Or.inr hw
      · have := hlt w hw
        omega
  · intro w
    rw [hstay, hmem]
    constructor
    · intro hw
      exact ⟨Or.inr (Or.inr hw), hlt w hw⟩
    · rintro ⟨hw | rfl | hw, hlt'⟩
      · have := hgt w hw
        omega
      · omega
      · exact hw

/-- What the edges out of the component lead to. -/
theorem edges_component (h : Core succ s) (hw : s.work = (v, []) :: work)
    (he : Edges succ (fun _ _ => False) s) (hlow : s.low v = s.index v) {a b : α}
    (ha : a ∈ s.component v) (hb : b ∈ succ a) :
    b ∈ s.component v ∨ b ∈ s.result.flatten := by
  have hv : v ∈ s.stack := h.grayStack v (by rw [gray_of_work hw]; exact List.mem_cons_self ..)
  obtain ⟨hstack, hle⟩ := ((h.cut hv).1 a).mp ha
  rcases he a hstack b hb with hwait | (hres | ⟨hbs, hlows⟩) | hfalse
  · obtain ⟨_, _, _, hlt⟩ := notWaiting_top h hw hwait
    omega
  · exact Or.inr hres
  · have hvb := hlows v (h.answers_top (gray_of_work hw) hle)
    exact Or.inl (((h.cut hv).1 b).mpr ⟨hbs, by omega⟩)
  · exact hfalse.elim

/-- A component comes off the stack. -/
theorem Core.emit (h : Core succ s) (hw : s.work = (v, []) :: work)
    (he : Edges succ (fun _ _ => False) s) (hlow : s.low v = s.index v) :
    Core succ ({ s with work := work }.emit v) := by
  have hg := gray_of_work hw
  have hv : v ∈ s.stack := h.grayStack v (by rw [hg]; exact List.mem_cons_self ..)
  obtain ⟨hcomp, hstay⟩ := h.cut hv
  have hstay' : ∀ w, w ∈ ({ s with work := work }.emit v).stack ↔
      w ∈ s.stack ∧ s.index w < s.index v := hstay
  have hres : ∀ w, w ∈ ({ s with work := work }.emit v).result.flatten ↔
      w ∈ s.result.flatten ∨ w ∈ s.component v := by
    intro w
    show w ∈ (s.result ++ [s.component v]).flatten ↔ _
    rw [List.flatten_append, List.mem_append, List.flatten_singleton]
  have hsub : ({ s with work := work }.emit v).stack.Sublist s.stack :=
    (List.tail_sublist _).trans (List.dropWhile_sublist _)
  refine
    { found := ?_, onStack := ?_, bound := fun w hw' => h.bound w ((hstay' w).mp hw').1
      sorted := h.sorted.sublist hsub, grayStack := ?_, graySorted := ?_, apart := ?_, nodup := ?_
      ordered := ?_, nonempty := ?_, connected := ?_, later := ?_, back := ?_, lowLe := ?_
      lowReach := ?_ }
  · intro w
    show (s.indexOf w).isSome = true ↔ _
    rw [h.found w, hres w, hstay' w, hcomp w]
    constructor
    · rintro (hw' | hw')
      · rcases Nat.lt_or_ge (s.index w) (s.index v) with hlt | hge
        · exact Or.inl ⟨hw', hlt⟩
        · exact Or.inr (Or.inr ⟨hw', hge⟩)
      · exact Or.inr (Or.inl hw')
    · rintro (⟨hw', _⟩ | hw' | ⟨hw', _⟩)
      · exact Or.inl hw'
      · exact Or.inr hw'
      · exact Or.inl hw'
  · intro w
    show (if w ∈ s.component v then false else s.onStack w) = true ↔ _
    rw [hstay' w]
    split_ifs with hmem
    · rw [hcomp w] at hmem
      constructor
      · intro hfalse
        cases hfalse
      · rintro ⟨_, hlt⟩
        omega
    · rw [h.onStack w]
      rw [hcomp w, not_and, Nat.not_le] at hmem
      exact ⟨fun hw' => ⟨hw', hmem hw'⟩, fun hw' => hw'.1⟩
  · intro g hg'
    exact (hstay' g).mpr ⟨h.grayStack g (by rw [hg]; exact List.mem_cons_of_mem _ hg'),
      h.lt_top hw hg'⟩
  · have hsorted := h.graySorted
    rw [hg] at hsorted
    exact (List.pairwise_cons.mp hsorted).2
  · intro w hw' hmem
    obtain ⟨hws, hlt⟩ := (hstay' w).mp hw'
    rcases (hres w).mp hmem with hmem | hmem
    · exact h.apart w hws hmem
    · have := ((hcomp w).mp hmem).2
      omega
  · show (s.result ++ [s.component v]).flatten.Nodup
    rw [List.flatten_append, List.flatten_singleton, List.nodup_append]
    refine ⟨h.nodup, ?_, fun a ha b hb hab => ?_⟩
    · have hnodup : s.stack.Nodup := h.sorted.imp fun hlt heq => by rw [heq] at hlt; omega
      refine List.nodup_append.mpr ⟨hnodup.sublist (List.takeWhile_sublist _),
        List.nodup_singleton v, fun a ha b hb => ?_⟩
      rw [List.mem_singleton.mp hb]
      simpa using List.mem_takeWhile_imp ha
    · rw [← hab] at hb
      exact h.apart a ((hcomp a).mp hb).1 ha
  · exact h.ordered.concat fun a ha b hb => edges_component h hw he hlow ha hb
  · intro part hpart
    rcases List.mem_append.mp hpart with hpart | hpart
    · exact h.nonempty part hpart
    · rw [List.mem_singleton.mp hpart]
      exact List.append_ne_nil_of_right_ne_nil _ (List.cons_ne_nil _ _)
  · intro part hpart a ha b hb
    rcases List.mem_append.mp hpart with hpart | hpart
    · exact h.connected part hpart a ha b hb
    · rw [List.mem_singleton.mp hpart] at ha hb
      obtain ⟨has, _⟩ := (hcomp a).mp ha
      obtain ⟨hbs, hle⟩ := (hcomp b).mp hb
      exact (h.reach_top hg a has).trans (h.later v hv b hbs hle)
  · intro a ha b hb hle
    exact h.later a ((hstay' a).mp ha).1 b ((hstay' b).mp hb).1 hle
  · intro a ha
    obtain ⟨has, hlt⟩ := (hstay' a).mp ha
    obtain ⟨g, hmem, hle, hr⟩ := h.back a has
    rw [hg] at hmem
    rcases List.mem_cons.mp hmem with rfl | hmem
    · omega
    · exact ⟨g, hmem, hle, hr⟩
  · intro g hg'
    exact h.lowLe g (by rw [hg]; exact List.mem_cons_of_mem _ hg')
  · intro g hg'
    have hgray : g ∈ s.gray := by
      rw [hg]
      exact List.mem_cons_of_mem _ hg'
    obtain ⟨w, hws, he', hr⟩ := h.lowReach g hgray
    have := h.lowLe g hgray
    have := h.lt_top hw hg'
    exact ⟨w, (hstay' w).mpr ⟨hws, by omega⟩, he', hr⟩

theorem Edges.emit (h : Core succ s) (hw : s.work = (v, []) :: work)
    (he : Edges succ (fun _ _ => False) s) :
    Edges succ (fun _ _ => False) ({ s with work := work }.emit v) := by
  have hv : v ∈ s.stack := h.grayStack v (by rw [gray_of_work hw]; exact List.mem_cons_self ..)
  obtain ⟨hcomp, hstay⟩ := h.cut hv
  intro a ha b hb
  obtain ⟨has, hlt⟩ := (hstay a).mp ha
  rcases he a has b hb with hwait | (hres | ⟨hbs, hlow⟩) | hfalse
  · obtain ⟨left, hmem, hb', _⟩ := notWaiting_top h hw hwait
    exact Or.inl ⟨left, hmem, hb'⟩
  · right; left; left
    show b ∈ (s.result ++ [s.component v]).flatten
    rw [List.flatten_append]
    exact List.mem_append_left _ hres
  · right; left
    rcases Nat.lt_or_ge (s.index b) (s.index v) with hbv | hbv
    · refine Or.inr ⟨(hstay b).mpr ⟨hbs, hbv⟩, fun g hga => ?_⟩
      exact hlow g (answers_of_lt hw hlt hga rfl fun _ => rfl)
    · left
      show b ∈ (s.result ++ [s.component v]).flatten
      rw [List.flatten_append, List.flatten_singleton]
      exact List.mem_append_right _ ((hcomp b).mpr ⟨hbs, hbv⟩)
  · exact hfalse.elim

/-- What finishing the top of the work stack does. -/
theorem finish_cases (h : Core succ s) (hw : s.work = (v, []) :: work) :
    (s.low v = s.index v ∧ { s with work := work }.finish v = { s with work := work }.emit v) ∨
      (s.low v < s.index v ∧ ∃ p rest work', work = (p, rest) :: work' ∧
        { s with work := work }.finish v = { s with work := work }.lower p (s.low v)) := by
  have hg := gray_of_work hw
  have hvgray : v ∈ s.gray := by
    rw [hg]
    exact List.mem_cons_self ..
  have hle := h.lowLe v hvgray
  rcases work with _ | ⟨⟨p, rest⟩, work'⟩
  · -- the last gray node is the bottom of the stack
    left
    obtain ⟨w, hws, hwlow, _⟩ := h.lowReach v hvgray
    obtain ⟨g, hmem, hgw, _⟩ := h.back w hws
    rw [hg] at hmem
    obtain rfl := List.mem_singleton.mp hmem
    have hlow : s.low g = s.index g := by omega
    exact ⟨hlow, if_pos hlow⟩
  · have hpv : s.index p < s.index v := h.lt_top hw (List.mem_cons_self ..)
    have hne : v ≠ p := by
      rintro rfl
      omega
    have hkeep : ({ s with work := (p, rest) :: work' }.lower p (s.low v)).low v = s.low v := by
      rw [low_lower, if_neg hne]
    rcases Nat.lt_or_ge (s.low v) (s.index v) with hlt | hge
    · right
      refine ⟨hlt, p, rest, work', rfl, if_neg ?_⟩
      rw [hkeep]
      exact Nat.ne_of_lt hlt
    · left
      have hlow : s.low v = s.index v := Nat.le_antisymm hle hge
      refine ⟨hlow, ?_⟩
      have hp := h.lowLe p (by rw [hg]; exact List.mem_cons_of_mem _ (List.mem_cons_self ..))
      have hsame : { s with work := (p, rest) :: work' }.lower p (s.low v) =
          { s with work := (p, rest) :: work' } := by
        have hfun : Function.update s.low p (min (s.low p) (s.low v)) = s.low := by
          rw [Nat.min_eq_left (by omega), Function.update_eq_self]
        show State.mk .. = State.mk ..
        rw [hfun]
      show (fun t : State α => if t.low v = t.index v then t.emit v else t)
        ({ s with work := (p, rest) :: work' }.lower p (s.low v)) = _
      rw [hsame]
      exact if_pos hlow

end Finish

/-! ## The run -/

variable {roots : List α}

omit [DecidableEq α] in
theorem inv_start : Inv succ roots (start roots) := by
  refine ⟨?_, fun v hv => (nomatch hv), fun q hq => (nomatch hq), fun root hroot => Or.inl hroot⟩
  refine
    { found := fun v => ?_, onStack := fun v => ?_, bound := fun v hv => (nomatch hv)
      sorted := List.Pairwise.nil, grayStack := fun v hv => (nomatch hv)
      graySorted := List.Pairwise.nil, apart := fun v hv => (nomatch hv), nodup := List.nodup_nil
      ordered := fun earlier part later heq => ?_, nonempty := fun part hp => (nomatch hp)
      connected := fun part hp => (nomatch hp)
      later := fun v hv => (nomatch hv), back := fun v hv => (nomatch hv)
      lowLe := fun v hv => (nomatch hv), lowReach := fun v hv => (nomatch hv) }
  · simp [start]
  · simp [start]
  · exact absurd heq.symm (List.append_ne_nil_of_right_ne_nil _ (List.cons_ne_nil _ _))

omit [DecidableEq α] in
/-- An edge is taken from the top of the work stack. -/
theorem Inv.pop {s : State α} (h : Inv succ roots s) {v w : α} {rest : List α}
    {work : List (α × List α)} (hw : s.work = (v, w :: rest) :: work) :
    Core succ { s with work := (v, rest) :: work } ∧
      Edges succ (fun a b => a = v ∧ b = w) { s with work := (v, rest) :: work } := by
  have hgray : ({ s with work := (v, rest) :: work } : State α).gray = s.gray := by
    rw [State.gray, State.gray, hw]
    rfl
  have hcore := h.core
  constructor
  · refine ⟨hcore.found, hcore.onStack, hcore.bound, hcore.sorted, ?_, ?_, hcore.apart,
      hcore.nodup, hcore.ordered, hcore.nonempty, hcore.connected, hcore.later,
      ?_, ?_, ?_⟩ <;> rw [hgray]
    · exact hcore.grayStack
    · exact hcore.graySorted
    · exact hcore.back
    · exact hcore.lowLe
    · exact hcore.lowReach
  · intro a ha b hb
    rcases h.edges a ha b hb with ⟨left, hmem, hb'⟩ | hset | hfalse
    · rw [hw] at hmem
      rcases List.mem_cons.mp hmem with heq | hmem
      · obtain ⟨rfl, rfl⟩ := Prod.mk.inj heq
        rcases List.mem_cons.mp hb' with rfl | hb'
        · exact Or.inr (Or.inr ⟨rfl, rfl⟩)
        · exact Or.inl ⟨rest, List.mem_cons_self .., hb'⟩
      · exact Or.inl ⟨left, List.mem_cons_of_mem _ hmem, hb'⟩
    · right; left
      unfold State.Settled State.Answers at hset ⊢
      rwa [hgray]
    · exact hfalse.elim

theorem real_discover {s : State α} (h : ∀ q ∈ s.work, ∀ w ∈ q.2, w ∈ succ q.1) (v : α) :
    ∀ q ∈ (s.discover succ v).work, ∀ w ∈ q.2, w ∈ succ q.1 := by
  intro q hq w hw
  rcases List.mem_cons.mp hq with rfl | hq
  · exact hw
  · exact h q hq w hw

/-- The invariant is kept. -/
theorem Inv.step {s : State α} (h : Inv succ roots s) :
    Inv succ roots (Tarjan.step succ s) := by
  have hcore := h.core
  have hdiscover : ∀ (t : State α) (v : α), t.indexOf = s.indexOf → s.indexOf v = none →
      (∀ root ∈ s.roots, root = v ∨ root ∈ t.roots) → ∀ root ∈ roots,
        root ∈ (t.discover succ v).roots ∨ ((t.discover succ v).indexOf root).isSome := by
    intro t v hidx _ hroots root hroot
    have hsome : ∀ w, (s.indexOf w).isSome ∨ w = v → ((t.discover succ v).indexOf w).isSome := by
      intro w hw
      show (Function.update t.indexOf v (some t.counter) w).isSome = true
      by_cases hwv : w = v
      · rw [hwv, Function.update_self, Option.isSome_some]
      · rw [Function.update_of_ne hwv, hidx]
        exact hw.resolve_right hwv
    rcases h.covered root hroot with hr | hr
    · rcases hroots root hr with hr | hr
      · exact Or.inr (hsome root (Or.inr hr))
      · exact Or.inl hr
    · exact Or.inr (hsome root (Or.inl hr))
  rcases hwork : s.work with _ | ⟨⟨v, rest⟩, work⟩
  · rcases hroots : s.roots with _ | ⟨root, later⟩
    · have hstep : Tarjan.step succ s = s := by
        unfold Tarjan.step
        rw [hwork, hroots]
      rwa [hstep]
    · have hstack := hcore.stack_eq_nil hwork
      have hcore' : Core succ { s with roots := later } := ⟨hcore.found, hcore.onStack,
        hcore.bound, hcore.sorted, hcore.grayStack, hcore.graySorted, hcore.apart, hcore.nodup,
        hcore.ordered, hcore.nonempty, hcore.connected, hcore.later, hcore.back,
        hcore.lowLe, hcore.lowReach⟩
      have hedges' : Edges succ (fun _ _ => False) { s with roots := later } := h.edges
      by_cases hsome : (s.indexOf root).isSome
      · have hstep : Tarjan.step succ s = { s with roots := later } := by
          unfold Tarjan.step
          rw [hwork, hroots]
          exact if_pos hsome
        rw [hstep]
        refine ⟨hcore', hedges', h.real, fun r hr => ?_⟩
        rcases h.covered r hr with hr' | hr'
        · rw [hroots] at hr'
          rcases List.mem_cons.mp hr' with rfl | hr'
          · exact Or.inr hsome
          · exact Or.inl hr'
        · exact Or.inr hr'
      · have hstep : Tarjan.step succ s = { s with roots := later }.discover succ root := by
          unfold Tarjan.step
          rw [hwork, hroots]
          exact if_neg hsome
        have hn : s.indexOf root = none := Option.not_isSome_iff_eq_none.mp hsome
        rw [hstep]
        refine ⟨hcore'.discover hn fun w hw => ?_, Edges.discover hcore' hedges' hn ?_,
          real_discover h.real root, hdiscover { s with roots := later } root rfl hn ?_⟩
        · have hw' : w ∈ s.stack := hw
          rw [hstack] at hw'
          cases hw'
        · exact fun _ _ hfalse => hfalse.elim
        · intro r hr
          rw [hroots] at hr
          exact List.mem_cons.mp hr
  · rcases rest with _ | ⟨w, rest⟩
    · have hstep : Tarjan.step succ s = { s with work := work }.finish v := by
        unfold Tarjan.step
        rw [hwork]
      rw [hstep]
      have hreal : ∀ q ∈ work, ∀ w ∈ q.2, w ∈ succ q.1 :=
        fun q hq => h.real q (by rw [hwork]; exact List.mem_cons_of_mem _ hq)
      rcases finish_cases hcore hwork with ⟨hlow, he⟩ | ⟨hlow, p, left, work', rfl, he⟩
      · rw [he]
        exact ⟨hcore.emit hwork h.edges hlow, Edges.emit hcore hwork h.edges, hreal, h.covered⟩
      · rw [he]
        exact ⟨hcore.merge hwork hlow, Edges.merge hcore hwork h.edges, hreal, h.covered⟩
    · obtain ⟨hcore', hedges'⟩ := h.pop hwork
      have hgray : ({ s with work := (v, rest) :: work } : State α).gray =
          v :: work.map Prod.fst := rfl
      have hedge : w ∈ succ v :=
        h.real (v, w :: rest) (by rw [hwork]; exact List.mem_cons_self ..) w
          (List.mem_cons_self ..)
      have hreal : ∀ q ∈ (v, rest) :: work, ∀ u ∈ q.2, u ∈ succ q.1 := by
        intro q hq u hu
        rcases List.mem_cons.mp hq with rfl | hq
        · exact h.real (v, w :: rest) (by rw [hwork]; exact List.mem_cons_self ..) u
            (List.mem_cons_of_mem _ hu)
        · exact h.real q (by rw [hwork]; exact List.mem_cons_of_mem _ hq) u hu
      by_cases hsome : (s.indexOf w).isNone
      · have hstep : Tarjan.step succ s = { s with work := (v, rest) :: work }.discover succ w := by
          unfold Tarjan.step
          rw [hwork]
          exact if_pos hsome
        have hn : s.indexOf w = none := Option.isNone_iff_eq_none.mp hsome
        rw [hstep]
        refine ⟨hcore'.discover hn fun u hu => (hcore'.reach_top hgray u hu).tail hedge,
          Edges.discover hcore' hedges' hn fun _ _ ho => ho.2, real_discover hreal w,
          hdiscover { s with work := (v, rest) :: work } w rfl hn fun r hr => Or.inr hr⟩
      · by_cases hon : s.onStack w
        · have hstep : Tarjan.step succ s =
              { s with work := (v, rest) :: work }.lower v (s.index w) := by
            unfold Tarjan.step
            rw [hwork]
            exact (if_neg hsome).trans (if_pos hon)
          have hws := (hcore.onStack w).mp hon
          rw [hstep]
          exact ⟨hcore'.lower hws (.single hedge), Edges.lower hcore' hgray hws hedges', hreal,
            h.covered⟩
        · have hstep : Tarjan.step succ s = { s with work := (v, rest) :: work } := by
            unfold Tarjan.step
            rw [hwork]
            exact (if_neg hsome).trans (if_neg hon)
          have hwr : w ∈ s.result.flatten := by
            have hfound : (s.indexOf w).isSome := by
              rwa [Option.isNone_iff_eq_none, ← ne_eq, Option.ne_none_iff_isSome] at hsome
            refine ((hcore.found w).mp hfound).resolve_left fun hws => ?_
            exact hon ((hcore.onStack w).mpr hws)
          rw [hstep]
          refine ⟨hcore', fun a ha b hb => ?_, hreal, h.covered⟩
          rcases hedges' a ha b hb with hwait | hset | ⟨_, rfl⟩
          · exact Or.inl hwait
          · exact Or.inr (Or.inl hset)
          · exact Or.inr (Or.inl (Or.inl hwr))

theorem inv_run (n : ℕ) : Inv succ roots ((Tarjan.step succ)^[n] (start roots)) := by
  induction n with
  | zero => exact inv_start
  | succ n ih =>
    rw [Function.iterate_succ_apply']
    exact ih.step

/-- The state the components are read from. -/
def final (succ : α → List α) (U : Finset α) (roots : List α) : State α :=
  (Tarjan.step succ)^[left succ U (start roots)] (start roots)

theorem inv_final (succ : α → List α) (U : Finset α) (roots : List α) :
    Inv succ roots (final succ U roots) := inv_run _

section Result

variable {U : Finset α}

theorem final_within (hU : ∀ v ∈ U, ∀ w ∈ succ v, w ∈ U) (hroots : ∀ v ∈ roots, v ∈ U) :
    Within succ U (final succ U roots) :=
  (within_start hU hroots).run _

theorem final_done (hU : ∀ v ∈ U, ∀ w ∈ succ v, w ∈ U) (hroots : ∀ v ∈ roots, v ∈ U) :
    (final succ U roots).done :=
  done_of_left (within_start hU hroots) (Nat.le_refl _)

/-- When nothing is left to do, what is met is in the components. -/
theorem mem_components_iff (hU : ∀ v ∈ U, ∀ w ∈ succ v, w ∈ U) (hroots : ∀ v ∈ roots, v ∈ U)
    (v : α) : v ∈ (components succ U roots).flatten ↔
      ((final succ U roots).indexOf v).isSome := by
  have hcore : Core succ (final succ U roots) := (inv_final _ _ _).core
  rw [hcore.found v, hcore.stack_eq_nil (final_done hU hroots).1]
  exact ⟨Or.inr, fun h => h.resolve_left (List.not_mem_nil)⟩

theorem components_nodup : (components succ U roots).flatten.Nodup :=
  (inv_final _ _ _).core.nodup

/-- The components hold every root, and nothing outside the nodes. -/
theorem components_cover (hU : ∀ v ∈ U, ∀ w ∈ succ v, w ∈ U) (hroots : ∀ v ∈ roots, v ∈ U) :
    (∀ v ∈ roots, v ∈ (components succ U roots).flatten) ∧
      ∀ v ∈ (components succ U roots).flatten, v ∈ U := by
  constructor
  · intro v hv
    rw [mem_components_iff hU hroots]
    refine ((inv_final succ U roots).covered v hv).resolve_left fun hr => ?_
    rw [(final_done hU hroots).2] at hr
    cases hr
  · intro v hv
    rw [mem_components_iff hU hroots] at hv
    exact (final_within hU hroots).found v hv

theorem components_nonempty : ∀ part ∈ components succ U roots, part ≠ [] :=
  (inv_final _ _ _).core.nonempty

/-- No edge leads from a component to a later one. -/
theorem components_ordered : Ordered succ (components succ U roots) :=
  (inv_final _ _ _).core.ordered

/-- Two nodes share a component when each reaches the other. -/
theorem share_component_iff {v w : α} (hv : v ∈ (components succ U roots).flatten) :
    (∃ part ∈ components succ U roots, v ∈ part ∧ w ∈ part) ↔
      Reach succ v w ∧ Reach succ w v := by
  have hcore : Core succ (final succ U roots) := (inv_final _ _ _).core
  constructor
  · rintro ⟨part, hpart, hvp, hwp⟩
    exact ⟨hcore.connected part hpart v hvp w hwp, hcore.connected part hpart w hwp v hvp⟩
  · rintro ⟨hvw, hwv⟩
    obtain ⟨part, hpart, hvp⟩ := List.mem_flatten.mp hv
    obtain ⟨earlier, later, heq⟩ := List.append_of_mem hpart
    refine ⟨part, hpart, hvp, ?_⟩
    rcases components_ordered.reach heq hvp hvw with hw | hw
    · exact hw
    · -- a path back from an earlier component ends there
      obtain ⟨part', hpart', hwp⟩ := List.mem_flatten.mp hw
      obtain ⟨first, second, rfl⟩ := List.append_of_mem hpart'
      have heq' : components succ U roots = first ++ part' :: (second ++ part :: later) := by
        rw [heq, List.append_assoc, List.cons_append]
      have hnodup : (components succ U roots).flatten.Nodup := components_nodup
      rw [heq, List.flatten_append, List.nodup_append] at hnodup
      have hvlater : v ∈ (part :: later).flatten := by
        rw [List.flatten_cons]
        exact List.mem_append_left _ hvp
      refine absurd rfl (hnodup.2.2 v ?_ v hvlater)
      rw [List.flatten_append, List.flatten_cons]
      rcases components_ordered.reach heq' hwp hwv with hv' | hv'
      · exact List.mem_append_right _ (List.mem_append_left _ hv')
      · exact List.mem_append_left _ hv'

end Result

end BuckosDistro.Lib.Tarjan
