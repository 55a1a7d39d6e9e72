/-
  Universes in which one package has one requirement.

  The results that say exactly when the closure is right need, for the direction that
  finds a fault, a run that shows it. The runs here do: every other package is inert, so
  what the closure holds when the requirement is read, and what it holds in the end, can
  be chosen freely through the order of the roots (`soleClosure`,
  `closure_of_requirement`).
-/
import BuckosDistro.Depgraph.Tracked

namespace BuckosDistro.Depgraph

open BuckosDistro.Lib

section Inert

variable {L : Lookup} {requires : Dict String (List String)}

/-- Popping a package that is in the set or requires nothing only adds it. -/
theorem step_inert {s : State} {p : String} {rest : List String} (hd : s.done = false)
    (hf : s.frontier = p :: rest) (hp : p ∈ s.seen ∨ requires.getD p [] = []) :
    step L requires s = { s with seen := insert p s.seen, frontier := rest } := by
  by_cases hs : p ∈ s.seen
  · simp [step, hd, hf, visit, hs]
  · have hr : requires.getD p [] = [] := hp.resolve_left hs
    simp [step, hd, hf, visit, hs, hr]

theorem run_inert (fs rest : List String) {s : State} (hd : s.done = false)
    (hf : s.frontier = fs ++ rest)
    (hp : ∀ p ∈ fs, p ∈ s.seen ∨ requires.getD p [] = []) :
    run L requires fs.length s =
      { s with seen := s.seen ∪ fs.toFinset, frontier := rest } := by
  induction fs generalizing s with
  | nil =>
    obtain ⟨seen, frontier, pending, choices, problems, done⟩ := s
    simp only [List.nil_append] at hf
    simp [hf]
  | cons p fs ih =>
    have hstep := step_inert (L := L) hd hf (hp p (List.mem_cons_self ..))
    have hrun : run L requires (p :: fs).length s =
        run L requires fs.length (step L requires s) := rfl
    rw [hrun, hstep, ih]
    · simp [Finset.insert_union, Finset.union_insert]
    · exact hd
    · rfl
    · intro q hq
      rcases hp q (List.mem_cons_of_mem _ hq) with h | h
      · exact .inl (Finset.mem_insert_of_mem h)
      · exact .inr h

theorem settlePending_of_nil {s : State} (h : s.pending = []) (final : Bool) :
    settlePending L final s = s := by
  obtain ⟨seen, frontier, pending, choices, problems, done⟩ := s
  subst h
  rfl

/-- The settling pass that ends a run on which nothing waits and every choice is
    settled. -/
theorem step_settled {s : State} (hd : s.done = false) (hf : s.frontier = [])
    (hp : s.pending = []) (hc : ∀ c ∈ s.choices, c.settledBy L s.seen = true) :
    step L requires s = { s with choices := [], done := true } := by
  have hopen : (s.choices.filter fun c => !c.settledBy L s.seen) = [] := by
    rw [List.filter_eq_nil_iff]
    intro c hm
    simp [hc c hm]
  have hch : settleChoices L s = { s with choices := [] } := by
    simp [settleChoices, hopen, State.push]
  simp [step, hd, hf, settle, settlePending_of_nil, hp, hch]

/-- The run in which nothing on the frontier requires anything: the set is the frontier. -/
theorem closure_inert {roots fs : List String} {extra : List (String × String)}
    {choices : List Choice} (hs : start L roots extra = ⟨∅, fs, [], choices, [], false⟩)
    (hp : ∀ p ∈ fs, requires.getD p [] = [])
    (hc : ∀ c ∈ choices, c.settledBy L fs.toFinset = true) :
    runtimeClosure L requires roots extra = (fs.toFinset, []) := by
  have h1 : run L requires fs.length (start L roots extra) =
      ⟨fs.toFinset, [], [], choices, [], false⟩ := by
    rw [hs, run_inert fs [] rfl (List.append_nil fs).symm fun p h => .inr (hp p h)]
    simp
  have h2 : step L requires ⟨fs.toFinset, [], [], choices, [], false⟩ =
      ⟨fs.toFinset, [], [], [], [], true⟩ := step_settled rfl rfl rfl hc
  have hrun : run L requires (fs.length + 1) (start L roots extra) =
      ⟨fs.toFinset, [], [], [], [], true⟩ := by
    rw [run_succ, h1, h2]
  have hdone : (run L requires (fs.length + 1) (start L roots extra)).done = true := by
    rw [hrun]
  rw [runtimeClosure_eq _ hdone, hrun]
  rfl

end Inert

/-- The universe in which `pkg` requires `cap` and nothing else requires anything. -/
def soleRequirement (pkg cap : String) : Dict String (List String) := Dict.single pkg [cap]

theorem soleRequirement_self (pkg cap : String) :
    (soleRequirement pkg cap).getD pkg [] = [cap] := by
  simp [soleRequirement, Dict.getD]

theorem soleRequirement_of_ne {pkg cap p : String} (h : p ≠ pkg) :
    (soleRequirement pkg cap).getD p [] = [] := by
  simp [soleRequirement, Dict.getD, Dict.get?_single_of_ne _ h]

/-- What the set becomes once the packages pushed on a frontier are popped. -/
theorem union_pushed (t : Finset String) (pkgs after : List String) :
    t ∪ ((pkgs.filter (· ∉ t)).reverse ++ after).toFinset =
      t ∪ pkgs.toFinset ∪ after.toFinset := by
  ext p
  by_cases hp : p ∈ t <;> simp [hp]

/-- The run in which `before` enters the set, then `pkg` whose requirement is read, then
    what it demands and `after`. -/
theorem soleClosure (before after : List String) {L : Lookup} {pkg cap : String}
    (hb : pkg ∉ before) {t S : Finset String} (ht : t = insert pkg before.toFinset)
    (hS : S = t ∪ (demand L t pkg cap).pkgs.toFinset ∪ after.toFinset)
    (hpend : (demand L t pkg cap).pending = []) (hprob : (demand L t pkg cap).problems = [])
    (hch : ∀ c ∈ (demand L t pkg cap).choices, c.settledBy L S = true) :
    runtimeClosure L (soleRequirement pkg cap) (after.reverse ++ pkg :: before.reverse) [] =
      (S, []) := by
  -- The frontier is `before ++ pkg :: after`.
  have hstart : start L (after.reverse ++ pkg :: before.reverse) [] =
      ⟨∅, before ++ pkg :: after, [], [], [], false⟩ := by simp [start]
  have h1 : run L (soleRequirement pkg cap) before.length
      (start L (after.reverse ++ pkg :: before.reverse) []) =
      ⟨before.toFinset, pkg :: after, [], [], [], false⟩ := by
    rw [hstart]
    rw [run_inert before (pkg :: after) rfl rfl]
    · simp
    · intro p hp
      exact .inr (soleRequirement_of_ne fun h => hb (h ▸ hp))
  -- The requirement is read against `t`.
  have h2 : step L (soleRequirement pkg cap)
      ⟨before.toFinset, pkg :: after, [], [], [], false⟩ =
      ⟨t, ((demand L t pkg cap).pkgs.filter (· ∉ t)).reverse ++ after, [],
        (demand L t pkg cap).choices, [], false⟩ := by
    have hfresh : pkg ∉ before.toFinset := by simpa using hb
    simp [step, visit, hfresh, soleRequirement_self, State.absorb, State.push, ← ht, hpend,
      hprob]
  -- The rest of the frontier is inert.
  let rest := ((demand L t pkg cap).pkgs.filter (· ∉ t)).reverse ++ after
  have hinert : ∀ p ∈ rest, p ∈ t ∨ (soleRequirement pkg cap).getD p [] = [] := by
    intro p _
    by_cases hp : p = pkg
    · left
      simp [hp, ht]
    · exact .inr (soleRequirement_of_ne hp)
  have h3 : run L (soleRequirement pkg cap) rest.length
      ⟨t, rest, [], (demand L t pkg cap).choices, [], false⟩ =
      ⟨S, [], [], (demand L t pkg cap).choices, [], false⟩ := by
    rw [run_inert rest [] rfl (List.append_nil rest).symm hinert, union_pushed, ← hS]
  have h4 : step L (soleRequirement pkg cap)
      ⟨S, [], [], (demand L t pkg cap).choices, [], false⟩ = ⟨S, [], [], [], [], true⟩ :=
    step_settled rfl rfl rfl hch
  -- The four stages in a row.
  have hrun : run L (soleRequirement pkg cap) ((rest.length + 1) + (before.length + 1))
      (start L (after.reverse ++ pkg :: before.reverse) []) =
      ⟨S, [], [], [], [], true⟩ := by
    rw [run_add, run_succ before.length, h1, h2, run_succ rest.length, h3, h4]
  have hdone : (run L (soleRequirement pkg cap) ((rest.length + 1) + (before.length + 1))
      (start L (after.reverse ++ pkg :: before.reverse) [])).done = true := by rw [hrun]
  rw [runtimeClosure_eq _ hdone, hrun]
  rfl

/-- A run in which the expression a text reads as is first read against `t`, and whose set
    is `S`, if `S` keeps what the expression demands of `t` and settles its choices. -/
theorem closure_of_requirement {L : Lookup} {text pkg : String} {node : Node}
    (hn : richNode text = some node) {t S : Finset String} (hp : pkg ∈ t) (hsub : t ⊆ S)
    (hg : (require L t pkg false node).got.isSome)
    (hpend : (require L t pkg false node).pending = [])
    (hprob : (require L t pkg false node).problems = [])
    (hpkgs : ∀ p ∈ (require L t pkg false node).pkgs, p ∈ S)
    (hch : ∀ c ∈ (require L t pkg false node).choices, c.settledBy L S = true) :
    runtimeClosure L (soleRequirement pkg text)
      ((S \ t).toList.reverse ++ pkg :: (t.erase pkg).toList.reverse) [] = (S, []) := by
  have hd : demand L t pkg text = require L t pkg false node := by
    rw [demand_of_richNode hn]
    obtain ⟨ps, hps⟩ := Option.isSome_iff_exists.mp hg
    simp [Outcome.orPending, hps]
  refine soleClosure (t.erase pkg).toList (S \ t).toList (t := t) (by simp)
    (by simp [Finset.insert_erase hp]) ?_ ?_ ?_ ?_
  · rw [hd]
    ext p
    simp only [Finset.toList_toFinset, Finset.mem_union, List.mem_toFinset,
      Finset.mem_sdiff]
    constructor
    · intro h
      by_cases hpt : p ∈ t
      · exact .inl (.inl hpt)
      · exact .inr ⟨h, hpt⟩
    · rintro ((h | h) | h)
      · exact hsub h
      · exact hpkgs p h
      · exact h.1
  · rw [hd, hpend]
  · rw [hd, hprob]
  · rw [hd]
    exact hch

theorem Scanned.eq_of_forall {L : Lookup} {seen : Finset String} {final : Bool}
    {todo : List (Node × String)} {only q : Node × String} (h : Scanned L seen final todo q)
    (htodo : ∀ q ∈ todo, q = only)
    (hp : ∀ q ∈ (require L seen only.2 final only.1).pending, q = only) : q = only := by
  induction h with
  | listed hq => exact htodo _ hq
  | appended _ hq ih =>
    rw [ih] at hq
    exact hp _ hq

section Waits

variable {L : Lookup} {pkg cap : String} {node : Node} {roots : List String}

/-- In such a universe nothing but the requirement is ever pending, if no other expression is
    put off when it is read. -/
theorem pending_sole (hn : richNode cap = some node)
    (hp : ∀ t final, ∀ q ∈ (require L t pkg final node).pending, q = (node, pkg)) (n : ℕ) :
    ∀ q ∈ (run L (soleRequirement pkg cap) n (start L roots [])).pending, q = (node, pkg) := by
  induction n with
  | zero => exact fun q hq => nomatch hq
  | succ n ih =>
    rw [run_succ]
    cases hd : (run L (soleRequirement pkg cap) n (start L roots [])).done with
    | true => rwa [step_done hd]
    | false =>
      intro q hq
      rcases step_cases L (soleRequirement pkg cap) hd with ⟨_, _, _, _, he⟩ | ⟨p, hv⟩ | hs
      · rw [he] at hq
        exact ih q hq
      · rcases (hv.pending q).mp hq with hq | ⟨c, hc, hq⟩
        · exact ih q hq
        · by_cases hpp : p = pkg
          · subst hpp
            rw [soleRequirement_self] at hc
            rw [List.mem_singleton.mp hc, demand_of_richNode hn] at hq
            rcases Outcome.mem_pending_orPending.mp hq with hq | ⟨_, rfl⟩
            · exact hp _ _ q hq
            · rfl
          · rw [soleRequirement_of_ne hpp] at hc
            cases hc
      · have hmid : ∀ q ∈ (midSettle L (run L (soleRequirement pkg cap) n
            (start L roots []))).pending, q = (node, pkg) :=
          fun q hq => ((hs.midPending q).mp hq).1.eq_of_forall ih (hp _ _)
        rcases hs.final with ⟨_, _, hpe, _⟩ | ⟨_, _, hpe, _⟩
        · rw [hpe] at hq
          exact hmid q hq
        · exact ((hpe q).mp hq).1.eq_of_forall hmid (hp _ _)

/-- Its calls are those of the requirement. -/
theorem calls_sole (hn : richNode cap = some node)
    (hp : ∀ t final, ∀ q ∈ (require L t pkg final node).pending, q = (node, pkg)) {n : ℕ}
    {c : Call} (hc : Calls L (soleRequirement pkg cap) roots [] n c) :
    ∃ t final, Call.Within L ⟨node, pkg, t, final⟩ c := by
  cases hc with
  | extra he _ _ => cases he
  | @trip i c _ hd hin =>
    have hpend := @pending_sole _ _ _ _ roots hn hp i
    induction hin with
    | @visited p rest cap' node' hf _ hcap hn' =>
      by_cases hpp : p = pkg
      · subst hpp
        rw [soleRequirement_self] at hcap
        rw [List.mem_singleton.mp hcap, hn] at hn'
        cases hn'
        exact ⟨_, _, .self⟩
      · rw [soleRequirement_of_ne hpp] at hcap
        cases hcap
    | scanned _ hq =>
      obtain rfl := hq.eq_of_forall hpend (hp _ _)
      exact ⟨_, _, .self⟩
    | rescanned hf _ hq =>
      have hmid := fun q hq => (((settles_settle hf).midPending q).mp hq).1.eq_of_forall hpend
        (hp _ _)
      obtain rfl := hq.eq_of_forall hmid (hp _ _)
      exact ⟨_, _, .self⟩
    | inner _ hm ih =>
      obtain ⟨t, final, hw⟩ := ih
      exact ⟨t, final, hw.inner hm⟩

end Waits

end BuckosDistro.Depgraph
