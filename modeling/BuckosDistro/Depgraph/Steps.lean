/-
  What one trip of the closure machine does.

  `step_cases` is the inversion lemma of the machine: a trip drops a package already seen,
  visits a new one (`Visits`), or passes once over the pending expressions and the choices
  (`Settles`). Each case says of every field what the new state holds, by membership. The
  invariants of the other modules are case analyses over it; none of them unfolds the
  machine.

  The scan of the pending list is described by `Scanned`: the expressions on the list, and
  those a scanned expression appends to it.
-/
import BuckosDistro.Depgraph.Require

namespace BuckosDistro.Depgraph

open BuckosDistro.Lib

/-! ## Absorbing outcomes -/

namespace State

@[simp] theorem push_seen (s : State) (ps : List String) : (s.push ps).seen = s.seen := rfl
@[simp] theorem push_pending (s : State) (ps : List String) :
    (s.push ps).pending = s.pending := rfl
@[simp] theorem push_choices (s : State) (ps : List String) :
    (s.push ps).choices = s.choices := rfl
@[simp] theorem push_problems (s : State) (ps : List String) :
    (s.push ps).problems = s.problems := rfl
@[simp] theorem push_done (s : State) (ps : List String) : (s.push ps).done = s.done := rfl

theorem mem_push_frontier {s : State} {ps : List String} {p : String} :
    p ∈ (s.push ps).frontier ↔ p ∈ s.frontier ∨ (p ∉ s.seen ∧ p ∈ ps) := by
  simp [push, and_comm, or_comm]

@[simp] theorem absorb_seen (s : State) (o : Outcome) : (s.absorb o).seen = s.seen := rfl
@[simp] theorem absorb_done (s : State) (o : Outcome) : (s.absorb o).done = s.done := rfl
@[simp] theorem absorb_pending (s : State) (o : Outcome) :
    (s.absorb o).pending = s.pending ++ o.pending := rfl
@[simp] theorem absorb_choices (s : State) (o : Outcome) :
    (s.absorb o).choices = s.choices ++ o.choices := rfl
@[simp] theorem absorb_problems (s : State) (o : Outcome) :
    (s.absorb o).problems = s.problems ++ o.problems := rfl

theorem mem_absorb_frontier {s : State} {o : Outcome} {p : String} :
    p ∈ (s.absorb o).frontier ↔ p ∈ s.frontier ∨ (p ∉ s.seen ∧ p ∈ o.pkgs) :=
  mem_push_frontier

/-- `s'` is `s` after the outcomes `os`, all of them read against the set of `s`. -/
structure Absorbs (s s' : State) (os : List Outcome) : Prop where
  seen : s'.seen = s.seen
  done : s'.done = s.done
  frontier : ∀ p, p ∈ s'.frontier ↔ p ∈ s.frontier ∨ (p ∉ s.seen ∧ ∃ o ∈ os, p ∈ o.pkgs)
  pending : ∀ q, q ∈ s'.pending ↔ q ∈ s.pending ∨ ∃ o ∈ os, q ∈ o.pending
  choices : ∀ c, c ∈ s'.choices ↔ c ∈ s.choices ∨ ∃ o ∈ os, c ∈ o.choices
  problems : ∀ e, e ∈ s'.problems ↔ e ∈ s.problems ∨ ∃ o ∈ os, e ∈ o.problems

/-- A loop that absorbs one outcome for each entry of a list. -/
theorem absorbs_foldl {α : Type} (f : Finset String → α → Outcome) (xs : List α)
    (s : State) :
    Absorbs s (xs.foldl (fun s x => s.absorb (f s.seen x)) s) (xs.map (f s.seen)) := by
  induction xs generalizing s with
  | nil => constructor <;> simp
  | cons x xs ih =>
    have h := ih (s.absorb (f s.seen x))
    simp only [absorb_seen] at h
    constructor
    · exact h.seen
    · exact h.done
    · intro p
      rw [List.foldl_cons, h.frontier, mem_absorb_frontier]
      simp only [absorb_seen, List.map_cons, List.mem_cons, exists_eq_or_imp]
      tauto
    · intro q
      rw [List.foldl_cons, h.pending]
      simp only [absorb_pending, List.mem_append, List.map_cons, List.mem_cons,
        exists_eq_or_imp, or_assoc]
    · intro c
      rw [List.foldl_cons, h.choices]
      simp only [absorb_choices, List.mem_append, List.map_cons, List.mem_cons,
        exists_eq_or_imp, or_assoc]
    · intro e
      rw [List.foldl_cons, h.problems]
      simp only [absorb_problems, List.mem_append, List.map_cons, List.mem_cons,
        exists_eq_or_imp, or_assoc]

end State

/-! ## The scan of the pending list -/

/-- The expressions a pass over `todo` evaluates. -/
inductive Scanned (L : Lookup) (seen : Finset String) (final : Bool)
    (todo : List (Node × String)) : Node × String → Prop
  | listed {q} : q ∈ todo → Scanned L seen final todo q
  | appended {q q'} : Scanned L seen final todo q →
      q' ∈ (require L seen q.2 final q.1).pending → Scanned L seen final todo q'

theorem Scanned.mono {L : Lookup} {seen : Finset String} {final : Bool}
    {todo todo' : List (Node × String)} (h : ∀ q ∈ todo, Scanned L seen final todo' q)
    {q : Node × String} (hq : Scanned L seen final todo q) : Scanned L seen final todo' q := by
  induction hq with
  | listed hq => exact h _ hq
  | appended _ hp ih => exact .appended ih hp

/-- Scanning the head and then the rest with what the head appends. -/
theorem scanned_cons {L : Lookup} {seen : Finset String} {final : Bool}
    {x : Node × String} {todo : List (Node × String)} {q : Node × String} :
    Scanned L seen final (x :: todo) q ↔
      q = x ∨ Scanned L seen final (todo ++ (require L seen x.2 final x.1).pending) q := by
  constructor
  · intro h
    induction h with
    | listed hq =>
      rcases List.mem_cons.mp hq with rfl | hq
      · exact .inl rfl
      · exact .inr (.listed (List.mem_append_left _ hq))
    | appended _ hp ih =>
      rcases ih with rfl | ih
      · exact .inr (.listed (List.mem_append_right _ hp))
      · exact .inr (.appended ih hp)
  · rintro (rfl | h)
    · exact .listed (List.mem_cons_self ..)
    · refine h.mono fun q hq => ?_
      rcases List.mem_append.mp hq with hq | hq
      · exact .listed (List.mem_cons_of_mem _ hq)
      · exact .appended (.listed (List.mem_cons_self ..)) hq

theorem Node.sizeEach_append (xs ys : List Node) :
    Node.sizeEach (xs ++ ys) = Node.sizeEach xs + Node.sizeEach ys := by
  induction xs with
  | nil => simp [Node.sizeEach]
  | cons x xs ih => simp [Node.sizeEach, ih]; omega

theorem Node.size_pos (n : Node) : 0 < n.size := by
  cases n with
  | «if» t c o => cases o <;> simp [Node.size]
  | «unless» t c o => cases o <;> simp [Node.size]
  | _ => simp [Node.size]

/-- The nodes on a pending list. -/
def pendingSize (ps : List (Node × String)) : Nat := Node.sizeEach (ps.map Prod.fst)

theorem pendingSize_append (ps qs : List (Node × String)) :
    pendingSize (ps ++ qs) = pendingSize ps + pendingSize qs := by
  simp [pendingSize, Node.sizeEach_append]

theorem pendingSize_requireEach {L : Lookup} {seen : Finset String} {who : String}
    {final : Bool} {cs : List Node}
    (ih : ∀ c ∈ cs, pendingSize (require L seen who final c).pending < c.size) :
    pendingSize (requireEach L seen who final cs).pending ≤ Node.sizeEach cs := by
  induction cs with
  | nil => simp [requireEach, pendingSize, Node.sizeEach]
  | cons c cs ihl =>
    have hc := ih c (List.mem_cons_self ..)
    have hcs := ihl fun d hd => ih d (List.mem_cons_of_mem _ hd)
    have hone : pendingSize ((require L seen who final c).orPending c who).pending ≤ c.size := by
      unfold Outcome.orPending
      cases hg : (require L seen who final c).got with
      | some _ => simpa [hg] using hc.le
      | none =>
        rw [require_later hg]
        simp [pendingSize, Node.sizeEach]
    simp only [requireEach, Outcome.pending_andThen, pendingSize_append, Node.sizeEach]
    omega

/-- What a call appends to the pending list is smaller than the expression itself. -/
theorem pendingSize_require_lt (L : Lookup) (seen : Finset String) (who : String)
    (final : Bool) (n : Node) :
    pendingSize (require L seen who final n).pending < n.size := by
  have prompt : ∀ (o : Outcome) (m : Node), o.Prompt → pendingSize o.pending < m.size := by
    intro o m h
    rw [h.2]
    exact m.size_pos
  induction n using Node.induct with
  | cap text => exact prompt _ _ (resolve_prompt L who _)
  | and cs ih =>
    simp only [require, Node.size]
    exact Nat.lt_succ_of_le (pendingSize_requireEach ih)
  | or cs _ =>
    simp only [require]
    split
    · exact Node.size_pos _
    · exact prompt _ _ (requireOneOf_prompt L who _)
  | with_ cs _ => exact prompt _ _ (requireTogether_prompt L who _)
  | without l r _ _ => exact prompt _ _ (requireTogether_prompt L who _)
  | if_ t c o iht _ iho =>
    cases o with
    | none =>
      simp only [require, Node.size]
      split
      · omega
      · simp [pendingSize, Node.sizeEach]
    | some e =>
      have := iho e rfl
      simp only [require, Node.size]
      split <;> omega
  | unless_ t c o iht _ iho =>
    cases o with
    | none =>
      simp only [require, Node.size]
      repeat' split
      · simp [pendingSize, Node.sizeEach]
      · omega
      · simp [pendingSize, Node.sizeEach]
    | some e =>
      have := iho e rfl
      simp only [require, Node.size]
      repeat' split
      · omega
      · omega
      · simp [pendingSize, Node.sizeEach]

/-- What a pass over the pending list leaves: the effects of every scanned expression, and
    the ones that said `None` as the new list. -/
structure Rescans (L : Lookup) (final : Bool) (todo still : List (Node × String))
    (s s' : State) : Prop where
  seen : s'.seen = s.seen
  done : s'.done = s.done
  frontier : ∀ p, p ∈ s'.frontier ↔ p ∈ s.frontier ∨
    (p ∉ s.seen ∧ ∃ q, Scanned L s.seen final todo q ∧
      p ∈ (require L s.seen q.2 final q.1).pkgs)
  pending : ∀ q, q ∈ s'.pending ↔ q ∈ still ∨
    (Scanned L s.seen final todo q ∧ (require L s.seen q.2 final q.1).got = none)
  choices : ∀ c, c ∈ s'.choices ↔ c ∈ s.choices ∨
    ∃ q, Scanned L s.seen final todo q ∧ c ∈ (require L s.seen q.2 final q.1).choices
  problems : ∀ e, e ∈ s'.problems ↔ e ∈ s.problems ∨
    ∃ q, Scanned L s.seen final todo q ∧ e ∈ (require L s.seen q.2 final q.1).problems

private theorem exists_scanned_cons {L : Lookup} {seen : Finset String} {final : Bool}
    {x : Node × String} {todo : List (Node × String)} {P : Node × String → Prop} :
    (∃ q, Scanned L seen final (x :: todo) q ∧ P q) ↔
      P x ∨ ∃ q, Scanned L seen final
        (todo ++ (require L seen x.2 final x.1).pending) q ∧ P q := by
  simp only [scanned_cons, or_and_right, exists_or, exists_eq_left]

theorem not_scanned_nil {L : Lookup} {seen : Finset String} {final : Bool}
    {q : Node × String} : ¬ Scanned L seen final [] q := by
  intro h
  induction h with
  | listed h => simp at h
  | appended _ _ ih => exact ih

theorem rescans_scanPending (L : Lookup) (final : Bool) (fuel : Nat)
    (todo still : List (Node × String)) (s : State) (hf : pendingSize todo < fuel) :
    Rescans L final todo still s (scanPending L final fuel todo still s) := by
  induction fuel generalizing todo still s with
  | zero => omega
  | succ fuel ih =>
    cases todo with
    | nil => constructor <;> simp [scanPending, not_scanned_nil]
    | cons x todo =>
      obtain ⟨node, who⟩ := x
      have hlt := pendingSize_require_lt L s.seen who final node
      have hsize : pendingSize (todo ++ (require L s.seen who final node).pending) < fuel := by
        rw [pendingSize_append]
        have hcons : pendingSize ((node, who) :: todo) = node.size + pendingSize todo := rfl
        omega
      -- The two branches differ only in what stays pending.
      have key : ∀ still' : List (Node × String),
          (∀ q, q ∈ still' ↔ q ∈ still ∨
            ((require L s.seen who final node).got = none ∧ q = (node, who))) →
          Rescans L final ((node, who) :: todo) still s
            (scanPending L final fuel (todo ++ (require L s.seen who final node).pending) still'
              { s.push (require L s.seen who final node).pkgs with
                choices := s.choices ++ (require L s.seen who final node).choices
                problems := s.problems ++ (require L s.seen who final node).problems }) := by
        intro still' hstill
        have h := ih _ still' { s.push (require L s.seen who final node).pkgs with
                choices := s.choices ++ (require L s.seen who final node).choices
                problems := s.problems ++ (require L s.seen who final node).problems } hsize
        constructor
        · exact h.seen
        · exact h.done
        · intro p
          rw [h.frontier, exists_scanned_cons]
          simp only [State.mem_push_frontier, State.push_seen]
          tauto
        · intro q
          rw [h.pending, hstill, scanned_cons]
          simp only [State.push_seen]
          constructor
          · rintro ((hq | ⟨hg, rfl⟩) | ⟨hq, hg⟩)
            · exact .inl hq
            · exact .inr ⟨.inl rfl, hg⟩
            · exact .inr ⟨.inr hq, hg⟩
          · rintro (hq | ⟨rfl | hq, hg⟩)
            · exact .inl (.inl hq)
            · exact .inl (.inr ⟨hg, rfl⟩)
            · exact .inr ⟨hq, hg⟩
        · intro c
          rw [h.choices, exists_scanned_cons]
          simp only [State.push_seen, List.mem_append, or_assoc]
        · intro e
          rw [h.problems, exists_scanned_cons]
          simp only [State.push_seen, List.mem_append, or_assoc]
      simp only [scanPending]
      cases hg : (require L s.seen who final node).got with
      | none => exact key _ fun q => by simp [hg]
      | some ps => exact key _ fun q => by simp [hg]

theorem rescans_settlePending (L : Lookup) (final : Bool) (s : State) :
    Rescans L final s.pending [] s (settlePending L final s) :=
  rescans_scanPending L final _ _ _ _ (Nat.lt_succ_self _)

/-! ## One trip -/

/-- The trip visits `pkg`, which was on top of the frontier and not seen before. -/
structure Visits (L : Lookup) (requires : Dict String (List String)) (pkg : String)
    (s s' : State) : Prop where
  popped : ∃ rest, s.frontier = pkg :: rest ∧ ∀ p, p ∈ s'.frontier ↔ p ∈ rest ∨
    (p ∉ s'.seen ∧ ∃ cap ∈ requires.getD pkg [], p ∈ (demand L s'.seen pkg cap).pkgs)
  fresh : pkg ∉ s.seen
  seen : s'.seen = insert pkg s.seen
  done : s'.done = false
  pending : ∀ q, q ∈ s'.pending ↔ q ∈ s.pending ∨
    ∃ cap ∈ requires.getD pkg [], q ∈ (demand L s'.seen pkg cap).pending
  choices : ∀ c, c ∈ s'.choices ↔ c ∈ s.choices ∨
    ∃ cap ∈ requires.getD pkg [], c ∈ (demand L s'.seen pkg cap).choices
  problems : ∀ e, e ∈ s'.problems ↔ e ∈ s.problems ∨
    ∃ cap ∈ requires.getD pkg [], e ∈ (demand L s'.seen pkg cap).problems

/-- The trip passes over the pending expressions and the choices. `mid` is the state
    between the passes: after the first scan and the choices, before the final scan, which
    runs only if the frontier is still empty then. -/
structure Settles (L : Lookup) (s mid s' : State) : Prop where
  drained : s.frontier = []
  midSeen : mid.seen = s.seen
  midFrontier : ∀ p, p ∈ mid.frontier ↔ p ∉ s.seen ∧
    ((∃ q, Scanned L s.seen false s.pending q ∧
        p ∈ (require L s.seen q.2 false q.1).pkgs) ∨
      ∃ c, (c ∈ s.choices ∨ ∃ q, Scanned L s.seen false s.pending q ∧
          c ∈ (require L s.seen q.2 false q.1).choices) ∧
        c.settledBy L s.seen = false ∧ L.overrides.get? c.expression = some p)
  midPending : ∀ q, q ∈ mid.pending ↔
    Scanned L s.seen false s.pending q ∧ (require L s.seen q.2 false q.1).got = none
  midChoices : ∀ c, c ∈ mid.choices ↔
    (c ∈ s.choices ∨ ∃ q, Scanned L s.seen false s.pending q ∧
      c ∈ (require L s.seen q.2 false q.1).choices) ∧
    c.settledBy L s.seen = false ∧ L.overrides.get? c.expression = none
  midProblems : ∀ e, e ∈ mid.problems ↔ e ∈ s.problems ∨
    ∃ q, Scanned L s.seen false s.pending q ∧
      e ∈ (require L s.seen q.2 false q.1).problems
  seen : s'.seen = s.seen
  done : s'.done = s'.frontier.isEmpty
  final : (mid.frontier ≠ [] ∧ s'.frontier = mid.frontier ∧ s'.pending = mid.pending ∧
      s'.choices = mid.choices ∧ s'.problems = mid.problems) ∨
    (mid.frontier = [] ∧
      (∀ p, p ∈ s'.frontier ↔ p ∉ s.seen ∧ ∃ q, Scanned L s.seen true mid.pending q ∧
        p ∈ (require L s.seen q.2 true q.1).pkgs) ∧
      (∀ q, q ∈ s'.pending ↔ Scanned L s.seen true mid.pending q ∧
        (require L s.seen q.2 true q.1).got = none) ∧
      (∀ c, c ∈ s'.choices ↔ c ∈ mid.choices ∨
        ∃ q, Scanned L s.seen true mid.pending q ∧
          c ∈ (require L s.seen q.2 true q.1).choices) ∧
      ∀ e, e ∈ s'.problems ↔ e ∈ mid.problems ∨
        ∃ q, Scanned L s.seen true mid.pending q ∧
          e ∈ (require L s.seen q.2 true q.1).problems)

theorem visits_visit {L : Lookup} {requires : Dict String (List String)} {s : State}
    {pkg : String} {rest : List String} (hd : s.done = false) (hf : s.frontier = pkg :: rest)
    (hp : pkg ∉ s.seen) :
    Visits L requires pkg s (visit L requires pkg { s with frontier := rest }) := by
  have h := State.absorbs_foldl (fun seen cap => demand L seen pkg cap)
    (requires.getD pkg []) { s with frontier := rest, seen := insert pkg s.seen }
  have hv : visit L requires pkg { s with frontier := rest } =
      (requires.getD pkg []).foldl (fun s cap => s.absorb (demand L s.seen pkg cap))
        { s with frontier := rest, seen := insert pkg s.seen } := by
    simp [visit, hp]
  have hseen : (visit L requires pkg { s with frontier := rest }).seen =
      insert pkg s.seen := by
    rw [hv]; exact h.seen
  constructor
  · refine ⟨rest, hf, fun p => ?_⟩
    rw [hseen, hv, h.frontier]
    simp
  · exact hp
  · exact hseen
  · rw [hv, h.done]; exact hd
  · intro q; rw [hseen, hv, h.pending]; simp
  · intro c; rw [hseen, hv, h.choices]; simp
  · intro e; rw [hseen, hv, h.problems]; simp

theorem mem_settleChoices_frontier {L : Lookup} {s : State} {p : String} :
    p ∈ (settleChoices L s).frontier ↔ p ∈ s.frontier ∨ (p ∉ s.seen ∧
      ∃ c ∈ s.choices, c.settledBy L s.seen = false ∧
        L.overrides.get? c.expression = some p) := by
  simp only [settleChoices, State.mem_push_frontier, List.mem_filterMap, List.mem_filter,
    Bool.not_eq_true', and_assoc]

theorem mem_settleChoices_choices {L : Lookup} {s : State} {c : Choice} :
    c ∈ (settleChoices L s).choices ↔ c ∈ s.choices ∧ c.settledBy L s.seen = false ∧
      L.overrides.get? c.expression = none := by
  simp only [settleChoices, List.mem_filter, Bool.not_eq_true', Option.isNone_iff_eq_none,
    and_assoc]

/-- The state between the two scans of `settle`. -/
def midSettle (L : Lookup) (s : State) : State := settleChoices L (settlePending L false s)

theorem settles_settle {L : Lookup} {s : State} (hf : s.frontier = []) :
    Settles L s (midSettle L s) (settle L s) := by
  have h1 := rescans_settlePending L false s
  have hmid : (midSettle L s).seen = s.seen := h1.seen
  have hproblems : (midSettle L s).problems = (settlePending L false s).problems := rfl
  have hpending : (midSettle L s).pending = (settlePending L false s).pending := rfl
  have h2 := rescans_settlePending L true (midSettle L s)
  have hsettle : settle L s = { (if (midSettle L s).frontier.isEmpty then
      settlePending L true (midSettle L s) else midSettle L s) with
      done := (if (midSettle L s).frontier.isEmpty then
        settlePending L true (midSettle L s) else midSettle L s).frontier.isEmpty } := rfl
  constructor
  · exact hf
  · exact hmid
  · intro p
    rw [midSettle, mem_settleChoices_frontier, h1.frontier, hf, h1.seen]
    simp only [List.not_mem_nil, false_or, ← and_or_left, h1.choices]
  · intro q
    rw [hpending, h1.pending]
    simp
  · intro c
    rw [midSettle, mem_settleChoices_choices, h1.choices, h1.seen]
  · intro e
    rw [hproblems, h1.problems]
  · rw [hsettle]
    by_cases he : (midSettle L s).frontier.isEmpty
    · simp only [he, if_true]; rw [h2.seen, hmid]
    · simp only [he]; exact hmid
  · rw [hsettle]
  · by_cases he : (midSettle L s).frontier = []
    · right
      have hs' : settle L s = { settlePending L true (midSettle L s) with
          done := (settlePending L true (midSettle L s)).frontier.isEmpty } := by
        rw [hsettle]; simp [he]
      refine ⟨he, fun p => ?_, fun q => ?_, fun c => ?_, fun e => ?_⟩
      · rw [hs', h2.frontier, he, hmid]; simp
      · rw [hs', h2.pending, hmid]; simp
      · rw [hs', h2.choices, hmid]
      · rw [hs', h2.problems, hmid]
    · left
      have hs' : settle L s = { midSettle L s with
          done := (midSettle L s).frontier.isEmpty } := by
        rw [hsettle]; simp [he]
      rw [hs']
      exact ⟨he, rfl, rfl, rfl, rfl⟩

/-- The trip that pops a package not seen before. -/
theorem step_visits {L : Lookup} {requires : Dict String (List String)} {s : State}
    {pkg : String} {rest : List String} (hd : s.done = false)
    (hf : s.frontier = pkg :: rest) (hp : pkg ∉ s.seen) :
    Visits L requires pkg s (step L requires s) := by
  have : step L requires s = visit L requires pkg { s with frontier := rest } := by
    simp [step, hd, hf]
  rw [this]
  exact visits_visit hd hf hp

/-- The trip that finds the frontier drained. -/
theorem step_settles {L : Lookup} {requires : Dict String (List String)} {s : State}
    (hd : s.done = false) (hf : s.frontier = []) :
    Settles L s (midSettle L s) (step L requires s) := by
  have : step L requires s = settle L s := by simp [step, hd, hf]
  rw [this]
  exact settles_settle hf

/-- **What one trip can do.** -/
theorem step_cases (L : Lookup) (requires : Dict String (List String)) {s : State}
    (hd : s.done = false) :
    (∃ pkg rest, s.frontier = pkg :: rest ∧ pkg ∈ s.seen ∧
        step L requires s = { s with frontier := rest }) ∨
      (∃ pkg, Visits L requires pkg s (step L requires s)) ∨
      Settles L s (midSettle L s) (step L requires s) := by
  cases hf : s.frontier with
  | nil => exact .inr (.inr (step_settles hd hf))
  | cons pkg rest =>
    by_cases hp : pkg ∈ s.seen
    · exact .inl ⟨pkg, rest, rfl, hp, by simp [step, hd, hf, visit, hp]⟩
    · exact .inr (.inl ⟨pkg, step_visits hd hf hp⟩)

/-- The machine rests once it is done. -/
theorem step_done {L : Lookup} {requires : Dict String (List String)} {s : State}
    (hd : s.done = true) : step L requires s = s := by
  simp [step, hd]

end BuckosDistro.Depgraph
