/-
  Tarjan's algorithm with an explicit work stack.

  `succ v` lists the neighbours of a node in the order they are tried. A `State` holds the
  maps and stacks of the algorithm, and `step` is one trip: a neighbour tried, a node
  finished, or a root taken up when the work is done. A node is finished with a component
  when its `low` is its own index; the component is the part of the stack above it.

  Proved here is that the work is done after as many trips as `left` says there are.
-/
import BuckosDistro.Lib.Machine

namespace BuckosDistro.Lib.Tarjan

/-! ## The algorithm -/

/-- The local variables. The heads of `stack` and `work` are their tops; `roots` are the
    nodes the outer loop has not come to. -/
structure State (α : Type*) where
  indexOf : α → Option ℕ
  low : α → ℕ
  onStack : α → Bool
  stack : List α
  result : List (List α)
  counter : ℕ
  work : List (α × List α)
  roots : List α

variable {α : Type*} [DecidableEq α]

namespace State

/-- The index of a node that has one. -/
def index (s : State α) (v : α) : ℕ := (s.indexOf v).getD 0

/-- A node met for the first time. -/
def discover (succ : α → List α) (v : α) (s : State α) : State α :=
  { s with
    indexOf := Function.update s.indexOf v (some s.counter)
    low := Function.update s.low v s.counter
    onStack := Function.update s.onStack v true
    stack := v :: s.stack
    counter := s.counter + 1
    work := (v, succ v) :: s.work }

/-- An edge to a node of the stack. -/
def lower (v : α) (bound : ℕ) (s : State α) : State α :=
  { s with low := Function.update s.low v (min (s.low v) bound) }

/-- The component a node answers for: the stack down to it. -/
def component (s : State α) (v : α) : List α := s.stack.takeWhile (· ≠ v) ++ [v]

/-- The component taken off the stack. -/
def emit (v : α) (s : State α) : State α :=
  { s with
    onStack := fun w => if w ∈ s.component v then false else s.onStack w
    stack := (s.stack.dropWhile (· ≠ v)).tail
    result := s.result ++ [s.component v] }

/-- A node whose neighbours are all tried, just taken off the work stack. -/
def finish (v : α) (s : State α) : State α :=
  let s' :=
    match s.work with
    | (parent, _) :: _ => s.lower parent (s.low v)
    | [] => s
  if s'.low v = s'.index v then s'.emit v else s'

end State

open State

/-- One trip. -/
def step (succ : α → List α) (s : State α) : State α :=
  match s.work, s.roots with
  | [], [] => s
  | [], root :: roots =>
    if (s.indexOf root).isSome then { s with roots := roots }
    else { s with roots := roots }.discover succ root
  | (v, w :: rest) :: work, _ =>
    let s' := { s with work := (v, rest) :: work }
    if (s.indexOf w).isNone then s'.discover succ w
    else if s.onStack w then s'.lower v (s.index w) else s'
  | (v, []) :: work, _ => { s with work := work }.finish v

/-- Nothing left to do. -/
def State.done (s : State α) : Prop := s.work = [] ∧ s.roots = []

def start (roots : List α) : State α :=
  ⟨fun _ => none, fun _ => 0, fun _ => false, [], [], 0, [], roots⟩

/-- What is left to do: for every node of `U` not met its neighbours and itself, for every
    node of the work stack the neighbours left and itself, and the roots. -/
def left (succ : α → List α) (U : Finset α) (s : State α) : ℕ :=
  ∑ v ∈ U with (s.indexOf v).isNone, ((succ v).length + 1) +
    (s.work.map fun q => q.2.length + 1).sum + s.roots.length

/-- The components of what the roots reach inside `U`, in the order they are found. -/
def components (succ : α → List α) (U : Finset α) (roots : List α) : List (List α) :=
  ((step succ)^[left succ U (start roots)] (start roots)).result

/-! ## Termination -/

section Termination

variable {succ : α → List α} {U : Finset α}

/-- Everything met, and still to be met, is in `U`. -/
structure Within (succ : α → List α) (U : Finset α) (s : State α) : Prop where
  closed : ∀ v ∈ U, ∀ w ∈ succ v, w ∈ U
  roots : ∀ v ∈ s.roots, v ∈ U
  work : ∀ q ∈ s.work, ∀ w ∈ q.2, w ∈ U
  found : ∀ v, (s.indexOf v).isSome → v ∈ U

theorem left_discover {s : State α} {v : α} (hv : v ∈ U) (hn : s.indexOf v = none) :
    left succ U (s.discover succ v) = left succ U s := by
  have hsum : ∑ u ∈ U with (s.indexOf u).isNone, ((succ u).length + 1) =
      ((succ v).length + 1) +
        ∑ u ∈ U with ((s.discover succ v).indexOf u).isNone, ((succ u).length + 1) := by
    have hmem : v ∈ U.filter fun u => (s.indexOf u).isNone = true := by simp [hv, hn]
    rw [← Finset.add_sum_erase _ _ hmem]
    congr 1
    refine Finset.sum_congr ?_ fun _ _ => rfl
    ext u
    by_cases hu : u = v
    · simp [hu, discover]
    · simp [hu, discover]
  unfold left
  rw [hsum]
  simp only [discover, List.map_cons, List.sum_cons]
  omega

@[simp] theorem left_lower (s : State α) (v : α) (n : ℕ) :
    left succ U (s.lower v n) = left succ U s := rfl

@[simp] theorem left_emit (s : State α) (v : α) : left succ U (s.emit v) = left succ U s := rfl

theorem left_finish (s : State α) (v : α) : left succ U (s.finish v) = left succ U s := by
  unfold finish
  split <;> dsimp only <;> split_ifs <;> simp

theorem left_step {s : State α} (hU : Within succ U s) (hd : ¬ s.done) :
    left succ U (step succ s) < left succ U s := by
  obtain ⟨indexOf, low, onStack, stack, result, counter, work, roots⟩ := s
  rcases work with _ | ⟨⟨v, rest⟩, work⟩
  · rcases roots with _ | ⟨root, roots⟩
    · exact absurd ⟨rfl, rfl⟩ hd
    · simp only [step]
      split_ifs with h
      · simp [left]
      · have hn : indexOf root = none := by simpa using h
        rw [left_discover (hU.roots root (List.mem_cons_self ..)) hn]
        simp [left]
  · rcases rest with _ | ⟨w, rest⟩
    · simp only [step, left_finish]
      simp [left]
    · have hw : w ∈ U := hU.work _ (List.mem_cons_self ..) w (List.mem_cons_self ..)
      simp only [step]
      split_ifs with h1 h2
      · rw [left_discover hw (by simpa using h1)]
        simp [left]
      · rw [left_lower]
        simp [left]
      · simp [left]

theorem Within.discover {s : State α} (h : Within succ U s) {v : α} (hv : v ∈ U) :
    Within succ U (s.discover succ v) := by
  refine ⟨h.closed, h.roots, ?_, ?_⟩
  · intro q hq w hw
    rcases List.mem_cons.mp hq with rfl | hq
    · exact h.closed v hv w hw
    · exact h.work q hq w hw
  · intro u hu
    by_cases huv : u = v
    · exact huv ▸ hv
    · exact h.found u (by simpa [State.discover, huv] using hu)

theorem Within.finish {s : State α} (h : Within succ U s) (v : α) :
    Within succ U (s.finish v) := by
  unfold State.finish
  split <;> dsimp only <;> split_ifs <;> exact ⟨h.closed, h.roots, h.work, h.found⟩

theorem Within.step {s : State α} (h : Within succ U s) :
    Within succ U (Tarjan.step succ s) := by
  obtain ⟨indexOf, low, onStack, stack, result, counter, work, roots⟩ := s
  rcases work with _ | ⟨⟨v, rest⟩, work⟩
  · rcases roots with _ | ⟨root, roots⟩
    · exact h
    · have hr := h.roots root (List.mem_cons_self ..)
      have h' : Within succ U ⟨indexOf, low, onStack, stack, result, counter, [], roots⟩ :=
        ⟨h.closed, fun v hv => h.roots v (List.mem_cons_of_mem _ hv), h.work, h.found⟩
      simp only [Tarjan.step]
      split_ifs
      · exact h'
      · exact h'.discover hr
  · rcases rest with _ | ⟨w, rest⟩
    · simp only [Tarjan.step]
      have h' : Within succ U ⟨indexOf, low, onStack, stack, result, counter, work, roots⟩ :=
        ⟨h.closed, h.roots, fun q hq => h.work q (List.mem_cons_of_mem _ hq), h.found⟩
      exact h'.finish v
    · have hw : w ∈ U := h.work _ (List.mem_cons_self ..) w (List.mem_cons_self ..)
      have h' : Within succ U
          ⟨indexOf, low, onStack, stack, result, counter, (v, rest) :: work, roots⟩ := by
        refine ⟨h.closed, h.roots, fun q hq u hu => ?_, h.found⟩
        rcases List.mem_cons.mp hq with rfl | hq
        · exact h.work _ (List.mem_cons_self ..) u (List.mem_cons_of_mem _ hu)
        · exact h.work q (List.mem_cons_of_mem _ hq) u hu
      simp only [Tarjan.step]
      split_ifs
      · exact h'.discover hw
      · exact ⟨h'.closed, h'.roots, h'.work, h'.found⟩
      · exact h'

omit [DecidableEq α] in
theorem within_start {roots : List α} (hU : ∀ v ∈ U, ∀ w ∈ succ v, w ∈ U)
    (hroots : ∀ v ∈ roots, v ∈ U) : Within succ U (start roots) := by
  refine ⟨hU, hroots, fun q hq => ?_, fun v hv => ?_⟩
  · exact absurd hq List.not_mem_nil
  · exact absurd hv Bool.false_ne_true

theorem Within.run {s : State α} (h : Within succ U s) (n : ℕ) :
    Within succ U ((Tarjan.step succ)^[n] s) := by
  induction n with
  | zero => exact h
  | succ n ih =>
    rw [Function.iterate_succ_apply']
    exact ih.step

theorem step_of_done {s : State α} (h : s.done) : step succ s = s := by
  unfold step
  rw [h.1, h.2]

/-- As many trips as there is left to do are enough. -/
theorem done_of_left {s : State α} (h : Within succ U s) {n : ℕ} (hn : left succ U s ≤ n) :
    ((step succ)^[n] s).done := by
  induction n generalizing s with
  | zero =>
    by_contra hd
    have := left_step h hd
    omega
  | succ n ih =>
    rw [Function.iterate_succ_apply]
    by_cases hd : s.done
    · rw [step_of_done hd]
      by_cases hle : left succ U s ≤ n
      · exact ih h hle
      · rw [show (step succ)^[n] s = s from Function.iterate_fixed (step_of_done hd) n]
        exact hd
    · have := left_step h hd
      exact ih h.step (by omega)

end Termination

end BuckosDistro.Lib.Tarjan
