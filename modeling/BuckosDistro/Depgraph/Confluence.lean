/-
  Order independence of the closure.

  For steady requirements the closure is described without an order: its set is the least
  one that is `Closed`, and what it reports is what that set is `Owed`. Two runs over the
  same requirements, in whatever order they are listed, therefore end alike
  (`closure_order_independent`).

  `Inside T` is the invariant that keeps a run inside a closed set `T`, with every
  postponed expression, choice and problem accounted for by the debts of `T`.
-/
import BuckosDistro.Depgraph.Steady
import BuckosDistro.Depgraph.Sole

namespace BuckosDistro.Depgraph

open BuckosDistro.Lib

/-! ## Closed sets -/

/-- What the requirements of the members of a set, and the `extra` entries, ask of it. -/
inductive Owed (L : Lookup) (requires : Dict String (List String))
    (extra : List (String × String)) (S : Finset String) (x : Effect) : Prop
  | requirement {pkg cap} : pkg ∈ S → cap ∈ requires.getD pkg [] →
      Owes L S (demand L S pkg cap) x → Owed L requires extra S x
  | extra {entry} : entry ∈ extra → Owes L S (demandExtra L S entry.1 entry.2) x →
      Owed L requires extra S x

/-- A set that contains the roots and is owed no package. -/
structure Closed (L : Lookup) (requires : Dict String (List String)) (roots : List String)
    (extra : List (String × String)) (S : Finset String) : Prop where
  roots : ∀ p ∈ roots, p ∈ S
  pkgs : ∀ p, ¬ Owed L requires extra S (.pkg p)

section Demands

variable {L : Lookup} {requires : Dict String (List String)} {extra : List (String × String)}
  {T : Finset String}

theorem richNode_eq_none {cap : String} (h : richNode cap = none)
    (hr : isRichDep (stripCapabilityVersion cap) = true) :
    parseBoolean (stripCapabilityVersion cap) = none := by
  unfold richNode at h
  simpa [hr] using h

/-- A requirement no expression is read from is demanded alike of every set. -/
theorem demand_of_not_rich {t u : Finset String} {pkg cap : String}
    (h : richNode cap = none) : demand L t pkg cap = demand L u pkg cap := by
  cases hr : isRichDep (stripCapabilityVersion cap) with
  | false => simp [demand, hr]
  | true => simp [demand, reduceRich, hr, richNode_eq_none h hr]

theorem demandExtra_of_not_rich {t u : Finset String} {who cap : String}
    (h : richNode cap = none) : demandExtra L t cap who = demandExtra L u cap who := by
  cases hr : isRichDep (stripCapabilityVersion cap) with
  | false => simp [demandExtra, hr]
  | true => simp [demandExtra, reduceRich, hr, richNode_eq_none h hr]

theorem demand_not_rich_choice {t : Finset String} {pkg cap : String} {c : Choice}
    (h : richNode cap = none) (hc : c ∈ (demand L t pkg cap).choices) :
    L.overrides.get? c.expression = none := by
  cases hr : isRichDep (stripCapabilityVersion cap) with
  | false =>
    simp only [demand, hr] at hc
    exact resolve_choice_override hc
  | true => simp [demand, reduceRich, hr, richNode_eq_none h hr] at hc

theorem demandExtra_not_rich_choice {t : Finset String} {who cap : String} {c : Choice}
    (h : richNode cap = none) (hc : c ∈ (demandExtra L t cap who).choices) :
    L.overrides.get? c.expression = none := by
  cases hr : isRichDep (stripCapabilityVersion cap) with
  | false =>
    simp only [demandExtra, hr] at hc
    exact resolve_choice_override hc
  | true => simp [demandExtra, reduceRich, hr, richNode_eq_none h hr] at hc

theorem demand_not_rich_pending {t : Finset String} {pkg cap : String}
    (h : richNode cap = none) : (demand L t pkg cap).pending = [] := by
  cases hr : isRichDep (stripCapabilityVersion cap) with
  | false => simp [demand, hr, (resolve_prompt L pkg cap).2]
  | true => simp [demand, reduceRich, hr, richNode_eq_none h hr]

theorem demandExtra_not_rich_pending {t : Finset String} {who cap : String}
    (h : richNode cap = none) : (demandExtra L t cap who).pending = [] := by
  cases hr : isRichDep (stripCapabilityVersion cap) with
  | false => simp [demandExtra, hr, (resolve_prompt L who _).2]
  | true => simp [demandExtra, reduceRich, hr, richNode_eq_none h hr]

end Demands

/-! ## Runs inside a closed set -/

/-- An expression on the pending list is steady, and asks nothing of `T` that is not owed. -/
def Accounted (L : Lookup) (requires : Dict String (List String))
    (extra : List (String × String)) (T seen : Finset String) (q : Node × String) : Prop :=
  ∃ base ⊆ seen, Steady L q.2 base q.1 ∧
    ∀ x, Owes L T (require L T q.2 false q.1) x → Owed L requires extra T x

/-- An outcome that fits into `T`: its packages are there, its choices are settled by
    presence or owed, its problems are owed, and what it puts off is accounted for. -/
structure Fits (L : Lookup) (requires : Dict String (List String))
    (extra : List (String × String)) (T seen : Finset String) (o : Outcome) : Prop where
  pkgs : ∀ p ∈ o.pkgs, p ∈ T
  choices : ∀ c ∈ o.choices, L.overrides.get? c.expression = none ∧
    (c.settledBy L T = true ∨ Owed L requires extra T (.choice c))
  problems : ∀ e ∈ o.problems, Owed L requires extra T (.problem e)
  pending : ∀ q ∈ o.pending, Accounted L requires extra T seen q

/-- The invariant: everything in the state fits into `T`. -/
structure Inside (L : Lookup) (requires : Dict String (List String))
    (extra : List (String × String)) (T : Finset String) (s : State) : Prop where
  seen : s.seen ⊆ T
  frontier : ∀ p ∈ s.frontier, p ∈ T
  choices : ∀ c ∈ s.choices, L.overrides.get? c.expression = none ∧
    (c.settledBy L T = true ∨ Owed L requires extra T (.choice c))
  problems : ∀ e ∈ s.problems, Owed L requires extra T (.problem e)
  pending : ∀ q ∈ s.pending, Accounted L requires extra T s.seen q

section Inside

variable {L : Lookup} {requires : Dict String (List String)} {roots : List String}
  {extra : List (String × String)} {T : Finset String}

theorem Accounted.mono {t t' : Finset String} (h : t ⊆ t') {q : Node × String}
    (hq : Accounted L requires extra T t q) : Accounted L requires extra T t' q := by
  obtain ⟨base, hb, hrest⟩ := hq
  exact ⟨base, Finset.Subset.trans hb h, hrest⟩

/-- An outcome whose demands on `T` are owed fits into it. -/
theorem fits_of_owed (hT : Closed L requires roots extra T) {seen : Finset String}
    {o : Outcome} (ho : ∀ c ∈ o.choices, L.overrides.get? c.expression = none)
    (h : ∀ x, Owes L T o x → Owed L requires extra T x)
    (hp : ∀ q ∈ o.pending, Accounted L requires extra T seen q) :
    Fits L requires extra T seen o := by
  refine ⟨fun p hpk => ?_, fun c hc => ⟨ho c hc, ?_⟩, fun e he => h (.problem e) he, hp⟩
  · by_contra hn
    exact hT.pkgs p (h (.pkg p) ⟨hpk, hn⟩)
  · cases hset : c.settledBy L T with
    | true => exact .inl rfl
    | false => exact .inr (h (.choice c) ⟨hc, hset⟩)

/-- A call on an expression that is accounted for fits. -/
theorem Accounted.fits (hT : Closed L requires roots extra T) {t : Finset String}
    (ht : t ⊆ T) {q : Node × String} (hq : Accounted L requires extra T t q)
    (final : Bool) : Fits L requires extra T t (require L t q.2 final q.1) := by
  obtain ⟨base, hb, hs, how⟩ := hq
  refine fits_of_owed hT (fun c hc => hs.choice_override hc)
    (fun x hx => how x (owes_of_owes hs hb ht hx)) fun q' hq' => ?_
  obtain ⟨hw, hs', how'⟩ := pending_steady hs hb ht hq'
  refine ⟨base, hb, by rwa [hw], fun x hx => ?_⟩
  rw [hw] at hx
  exact how x (how' x hx)

theorem Accounted.of_scanned (hT : Closed L requires roots extra T) {t : Finset String}
    (ht : t ⊆ T) {final : Bool} {todo : List (Node × String)}
    (h : ∀ q ∈ todo, Accounted L requires extra T t q) {q : Node × String}
    (hq : Scanned L t final todo q) : Accounted L requires extra T t q := by
  induction hq with
  | listed hq => exact h _ hq
  | appended _ hq' ih => exact (ih.fits hT ht final).pending _ hq'

/-- A requirement of a member fits, read against any part of `T` that holds the member. -/
theorem fits_demand (hs : SteadyInput L requires extra)
    (hT : Closed L requires roots extra T) {t : Finset String} (ht : t ⊆ T)
    {pkg cap : String} (hp : pkg ∈ t) (hc : cap ∈ requires.getD pkg []) :
    Fits L requires extra T t (demand L t pkg cap) := by
  have howed : ∀ x, Owes L T (demand L T pkg cap) x → Owed L requires extra T x :=
    fun x hx => .requirement (ht hp) hc hx
  cases hn : richNode cap with
  | none =>
    refine fits_of_owed hT (fun c => demand_not_rich_choice hn) (fun x hx => howed x ?_) ?_
    · rwa [demand_of_not_rich (u := T) hn] at hx
    · rw [demand_not_rich_pending hn]
      simp
  | some node =>
    have hacc : Accounted L requires extra T t (node, pkg) := by
      refine ⟨{pkg}, Finset.singleton_subset_iff.mpr hp, hs.requires pkg cap hc node hn,
        fun x hx => howed x ?_⟩
      rwa [demand_of_richNode hn, owes_orPending]
    have hfit := hacc.fits hT ht false
    rw [demand_of_richNode hn]
    refine ⟨by simpa using hfit.pkgs, by simpa using hfit.choices,
      by simpa using hfit.problems, fun q hq => ?_⟩
    rcases Outcome.mem_pending_orPending.mp hq with hq | ⟨_, rfl⟩
    · exact hfit.pending q hq
    · exact hacc

/-- An `extra` entry fits, read against any part of `T`. -/
theorem fits_demandExtra (hs : SteadyInput L requires extra)
    (hT : Closed L requires roots extra T) {t : Finset String} (ht : t ⊆ T)
    {entry : String × String} (he : entry ∈ extra) :
    Fits L requires extra T t (demandExtra L t entry.1 entry.2) := by
  have howed : ∀ x, Owes L T (demandExtra L T entry.1 entry.2) x →
      Owed L requires extra T x := fun x hx => .extra he hx
  cases hn : richNode entry.1 with
  | none =>
    refine fits_of_owed hT (fun c => demandExtra_not_rich_choice hn)
      (fun x hx => howed x ?_) ?_
    · rwa [demandExtra_of_not_rich (u := T) hn] at hx
    · rw [demandExtra_not_rich_pending hn]
      simp
  | some node =>
    have hacc : Accounted L requires extra T t (node, entry.2) := by
      refine ⟨∅, Finset.empty_subset _, hs.extra entry he node hn, fun x hx => howed x ?_⟩
      rwa [demandExtra_of_richNode hn, owes_orPending]
    have hfit := hacc.fits hT ht false
    rw [demandExtra_of_richNode hn]
    refine ⟨by simpa using hfit.pkgs, by simpa using hfit.choices,
      by simpa using hfit.problems, fun q hq => ?_⟩
    rcases Outcome.mem_pending_orPending.mp hq with hq | ⟨_, rfl⟩
    · exact hfit.pending q hq
    · exact hacc

theorem inside_start (hs : SteadyInput L requires extra)
    (hT : Closed L requires roots extra T) :
    Inside L requires extra T (start L roots extra) := by
  have ha := absorbs_start L roots extra
  have hfit : ∀ o ∈ extra.map fun entry => demandExtra L ∅ entry.1 entry.2,
      Fits L requires extra T ∅ o := by
    intro o ho
    obtain ⟨entry, he, rfl⟩ := List.mem_map.mp ho
    exact fits_demandExtra hs hT (Finset.empty_subset _) he
  refine ⟨by rw [start_seen]; exact Finset.empty_subset _, fun p hp => ?_, fun c hc => ?_,
    fun e he => ?_, fun q hq => ?_⟩
  · rcases (ha.frontier p).mp hp with h | ⟨_, o, ho, h⟩
    · exact hT.roots p (by simpa using h)
    · exact (hfit o ho).pkgs p h
  · rcases (ha.choices c).mp hc with h | ⟨o, ho, h⟩
    · cases h
    · exact (hfit o ho).choices c h
  · rcases (ha.problems e).mp he with h | ⟨o, ho, h⟩
    · cases h
    · exact (hfit o ho).problems e h
  · rcases (ha.pending q).mp hq with h | ⟨o, ho, h⟩
    · cases h
    · rw [start_seen]
      exact (hfit o ho).pending q h

/-- One visit stays inside. -/
theorem Visits.inside (hs : SteadyInput L requires extra)
    (hT : Closed L requires roots extra T) {pkg : String} {s s' : State}
    (hv : Visits L requires pkg s s') (h : Inside L requires extra T s) :
    Inside L requires extra T s' := by
  obtain ⟨rest, hf, hfr⟩ := hv.popped
  have hpkg : pkg ∈ T := h.frontier pkg (by rw [hf]; exact List.mem_cons_self ..)
  have hseen : s'.seen ⊆ T := by
    rw [hv.seen]
    exact Finset.insert_subset hpkg h.seen
  have hfit : ∀ cap ∈ requires.getD pkg [],
      Fits L requires extra T s'.seen (demand L s'.seen pkg cap) := fun cap hc =>
    fits_demand hs hT hseen (by rw [hv.seen]; exact Finset.mem_insert_self _ _) hc
  refine ⟨hseen, fun p hp => ?_, fun c hc => ?_, fun e he => ?_, fun q hq => ?_⟩
  · rcases (hfr p).mp hp with hp | ⟨_, cap, hc, hp⟩
    · exact h.frontier p (by rw [hf]; exact List.mem_cons_of_mem _ hp)
    · exact (hfit cap hc).pkgs p hp
  · rcases (hv.choices c).mp hc with hc | ⟨cap, hcap, hc⟩
    · exact h.choices c hc
    · exact (hfit cap hcap).choices c hc
  · rcases (hv.problems e).mp he with he | ⟨cap, hcap, he⟩
    · exact h.problems e he
    · exact (hfit cap hcap).problems e he
  · rcases (hv.pending q).mp hq with hq | ⟨cap, hcap, hq⟩
    · exact (h.pending q hq).mono (by rw [hv.seen]; exact Finset.subset_insert _ _)
    · exact (hfit cap hcap).pending q hq

/-- One settling pass stays inside: no choice is answered by an override. -/
theorem Settles.inside (hT : Closed L requires roots extra T) {s mid s' : State}
    (hst : Settles L s mid s') (h : Inside L requires extra T s) :
    Inside L requires extra T s' := by
  have hfit : ∀ final todo q, (∀ q ∈ todo, Accounted L requires extra T s.seen q) →
      Scanned L s.seen final todo q →
      Fits L requires extra T s.seen (require L s.seen q.2 final q.1) :=
    fun final todo q htodo hq =>
      (Accounted.of_scanned hT h.seen htodo hq).fits hT h.seen final
  have hchoices : ∀ c, (c ∈ s.choices ∨ ∃ q, Scanned L s.seen false s.pending q ∧
      c ∈ (require L s.seen q.2 false q.1).choices) →
      L.overrides.get? c.expression = none ∧
        (c.settledBy L T = true ∨ Owed L requires extra T (.choice c)) := by
    rintro c (hc | ⟨q, hq, hc⟩)
    · exact h.choices c hc
    · exact (hfit _ _ q h.pending hq).choices c hc
  have hmid : Inside L requires extra T mid := by
    refine ⟨by rw [hst.midSeen]; exact h.seen, fun p hp => ?_, fun c hc => ?_,
      fun e he => ?_, fun q hq => ?_⟩
    · rcases ((hst.midFrontier p).mp hp).2 with ⟨q, hq, hp⟩ | ⟨c, hc, _, ho⟩
      · exact (hfit _ _ q h.pending hq).pkgs p hp
      · rw [(hchoices c hc).1] at ho
        cases ho
    · exact hchoices c ((hst.midChoices c).mp hc).1
    · rcases (hst.midProblems e).mp he with he | ⟨q, hq, he⟩
      · exact h.problems e he
      · exact (hfit _ _ q h.pending hq).problems e he
    · rw [hst.midSeen]
      exact Accounted.of_scanned hT h.seen h.pending ((hst.midPending q).mp hq).1
  have hmidPending : ∀ q ∈ mid.pending, Accounted L requires extra T s.seen q := by
    intro q hq
    have := hmid.pending q hq
    rwa [hst.midSeen] at this
  rcases hst.final with ⟨_, hf, hp, hc, hpr⟩ | ⟨_, hf, hp, hc, hpr⟩
  · refine ⟨by rw [hst.seen]; exact h.seen, ?_, ?_, ?_, ?_⟩
    · rw [hf]
      exact hmid.frontier
    · rw [hc]
      exact hmid.choices
    · rw [hpr]
      exact hmid.problems
    · rw [hp, hst.seen]
      exact hmidPending
  · refine ⟨by rw [hst.seen]; exact h.seen, fun p hp' => ?_, fun c hc' => ?_,
      fun e he => ?_, fun q hq => ?_⟩
    · obtain ⟨_, q, hq, hp'⟩ := (hf p).mp hp'
      exact (hfit _ _ q hmidPending hq).pkgs p hp'
    · rcases (hc c).mp hc' with hc' | ⟨q, hq, hc'⟩
      · exact hmid.choices c hc'
      · exact (hfit _ _ q hmidPending hq).choices c hc'
    · rcases (hpr e).mp he with he | ⟨q, hq, he⟩
      · exact hmid.problems e he
      · exact (hfit _ _ q hmidPending hq).problems e he
    · rw [hst.seen]
      exact Accounted.of_scanned hT h.seen hmidPending ((hp q).mp hq).1

theorem inside_step (hs : SteadyInput L requires extra)
    (hT : Closed L requires roots extra T) {s : State} (h : Inside L requires extra T s) :
    Inside L requires extra T (step L requires s) := by
  cases hd : s.done with
  | true => rwa [step_done hd]
  | false =>
    rcases step_cases L requires hd with ⟨pkg, rest, hf, _, he⟩ | ⟨pkg, hv⟩ | hst
    · rw [he]
      exact ⟨h.seen, fun p hp => h.frontier p (by rw [hf]; exact List.mem_cons_of_mem _ hp),
        h.choices, h.problems, h.pending⟩
    · exact hv.inside hs hT h
    · exact hst.inside hT h

/-- **A run of steady requirements stays inside every closed set.** -/
theorem inside_run (hs : SteadyInput L requires extra)
    (hT : Closed L requires roots extra T) (n : ℕ) :
    Inside L requires extra T (run L requires n (start L roots extra)) := by
  induction n with
  | zero => exact inside_start hs hT
  | succ n ih =>
    rw [run_succ]
    exact inside_step hs hT ih

/-- The final pass over steady expressions says nothing: it reads them against the set the
    first pass read them against. -/
theorem final_scan_silent (hT : Closed L requires roots extra T) {s mid s' : State}
    (h : Inside L requires extra T s) (hst : Settles L s mid s') {q : Node × String}
    (hq : Scanned L s.seen true mid.pending q) :
    require L s.seen q.2 true q.1 = .later := by
  induction hq with
  | @listed q hq =>
    obtain ⟨hscan, hnone⟩ := (hst.midPending q).mp hq
    obtain ⟨base, _, hs, _⟩ := Accounted.of_scanned hT h.seen h.pending hscan
    rw [hs.require_final]
    exact require_later hnone
  | appended _ hq' ih =>
    rw [ih] at hq'
    cases hq'

theorem finalState_subset (hs : SteadyInput L requires extra)
    (hT : Closed L requires roots extra T) : (finalState L requires roots extra).seen ⊆ T :=
  (inside_run hs hT _).seen

end Inside

/-! ## What a run reports -/

/-- A final state reports an effect. -/
def State.Reports (s : State) : Effect → Prop
  | .pkg _ => False
  | .choice c => c ∈ s.choices
  | .problem e => e ∈ s.problems

section Reports

variable {L : Lookup} {requires : Dict String (List String)} {roots : List String}
  {extra : List (String × String)}

/-- What a kept outcome owes the final set is reported. -/
theorem reports_of_keeps {s : State} {o : Outcome} (hk : s.Keeps L o) (hf : s.frontier = [])
    (ho : ∀ c ∈ o.choices, L.overrides.get? c.expression = none) {x : Effect}
    (hx : Owes L s.seen o x) : s.Reports x := by
  cases x with
  | pkg p => exact hx.2 ((hk.pkgs p hx.1).resolve_right (by simp [hf]))
  | choice c =>
    rcases hk.choices c hx.1 with h | h | ⟨r, hr, _⟩
    · exact h
    · rw [hx.2] at h
      cases h
    · rw [ho c hx.1] at hr
      cases hr
  | problem e => exact hk.problems e hx

/-- What a steady expression owes the final set is reported, once a call has answered it
    and what the call put off is reported. -/
theorem reports_of_answered {s : State} (hf : s.frontier = []) {C : Call → Prop}
    (hinner : ∀ c d, C c → c.Makes L d → C d) (hsub : ∀ c, C c → c.seen ⊆ s.seen)
    (hkeeps : ∀ c, C c → s.Keeps L (c.outcome L)) {n : Node} {who : String}
    {base t : Finset String} {final : Bool} (hs : Steady L who base n) (hb : base ⊆ t)
    (hc : C ⟨n, who, t, final⟩) (hg : (require L t who final n).got.isSome)
    (hp : ∀ q ∈ (require L t who final n).pending, ∀ x,
      Owes L s.seen (require L s.seen q.2 false q.1) x → s.Reports x)
    {x : Effect} (hx : Owes L s.seen (require L s.seen who false n) x) : s.Reports x := by
  have ht : t ⊆ s.seen := hsub _ hc
  induction hs with
  | cap => exact reports_of_keeps (hkeeps _ hc) hf (fun _ h => resolve_choice_override h) hx
  | @and cs hcs ih =>
    obtain ⟨c, hm, hx⟩ := owes_requireEach.mp hx
    cases hgc : (require L t who final c).got with
    | none => exact hp _ (mem_requireEach_pending.mpr ⟨c, hm, .inr ⟨hgc, rfl⟩⟩) x hx
    | some _ =>
      refine ih c hm (hinner _ _ hc (.and hm)) (by rw [hgc]; rfl) (fun q hq => ?_) hx
      exact hp q (mem_requireEach_pending.mpr ⟨c, hm, .inl hq⟩)
  | @or cs hor =>
    simp only [require] at hx
    by_cases heq : anySatisfied L t cs = anySatisfied L s.seen cs
    · have hk := hkeeps _ hc
      have hs : Steady L who base (.or cs) := .or hor
      refine reports_of_keeps hk hf (fun _ h => hs.choice_override h) ?_
      simp only [Call.outcome, require]
      rwa [heq]
    · have hnot := not_owes_oneOf hor hb ht heq x
      cases hany : anySatisfied L s.seen cs with
      | true =>
        rw [hany] at hx
        exact absurd hx owes_found_nil
      | false =>
        rw [hany] at hx
        exact absurd hx hnot
  | «with» ho =>
    exact reports_of_keeps (hkeeps _ hc) hf
      (fun _ h => requireTogether_choice_override ho h) hx
  | without =>
    exact reports_of_keeps (hkeeps _ hc) hf
      (fun _ h => requireTogether_choice_override (by simp [rangeBounds]) h) hx
  | @ifThen th c hrise _ ih =>
    simp only [require] at hx hg hp
    cases hsat : satisfied L t c with
    | true =>
      rw [hrise t s.seen hb ht hsat] at hx
      rw [hsat] at hg hp
      exact ih (hinner _ _ hc (.ifTrue hsat)) hg hp hx
    | false => simp [hsat] at hg
  | @ifElse th c e hconst _ _ iht ihe =>
    simp only [require] at hx hg hp
    rw [← hconst t s.seen hb ht] at hx
    cases hsat : satisfied L t c with
    | true =>
      rw [hsat] at hx hg hp
      exact iht (hinner _ _ hc (.ifTrue hsat)) hg hp hx
    | false =>
      rw [hsat] at hx hg hp
      exact ihe (hinner _ _ hc (.ifFalse hsat)) hg hp hx

/-- What a tracked steady expression owes the final set is reported. -/
theorem reports_of_tracked {base : Finset String} {q : Node × String}
    (hs : Steady L q.2 base q.1)
    (hq : Tracked L (CallsFrom L requires roots extra (trips L requires roots extra) base)
      (finalState L requires roots extra).pending q) {x : Effect}
    (hx : Owes L (finalState L requires roots extra).seen
      (require L (finalState L requires roots extra).seen q.2 false q.1) x) :
    (finalState L requires roots extra).Reports x := by
  induction hq generalizing x with
  | @waits q hw =>
    have hlater := require_later (finalState_ended.pending q hw)
    rw [hs.require_final] at hlater
    rw [hlater] at hx
    exact absurd hx owes_later
  | @answered q t final hc hg _ ih =>
    refine reports_of_answered finalState_ended.frontier
      (C := CallsFrom L requires roots extra (trips L requires roots extra) base)
      (fun c d hc hm => ⟨hc.1.inner hm, by rw [hm.seen]; exact hc.2⟩)
      (fun c hc => hc.1.seen_subset) (fun c hc => hc.1.keeps) hs hc.2 hc hg
      (fun q' hq' y hy => ?_) hx
    have hst : Steady L q'.2 base q'.1 := by
      have := (pending_steady hs hc.2 hc.1.seen_subset hq')
      rw [this.1]
      exact this.2.1
    exact ih q' hq' hst hy

/-- **What the final set is owed is reported.** -/
theorem owed_reported (hs : SteadyInput L requires extra) {x : Effect}
    (hx : Owed L requires extra (finalState L requires roots extra).seen x) :
    (finalState L requires roots extra).Reports x := by
  cases hx with
  | @requirement pkg cap hp hc hx =>
    cases hn : richNode cap with
    | none =>
      obtain ⟨t, _, _, hk⟩ := demand_kept (n := trips L requires roots extra) hp hc
      refine reports_of_keeps hk finalState_ended.frontier
        (fun c => demand_not_rich_choice hn) ?_
      rwa [demand_of_not_rich hn]
    | some node =>
      rw [demand_of_richNode hn, owes_orPending] at hx
      have htracked := tracked_requirement (n := trips L requires roots extra) hp hc hn
      exact reports_of_tracked (q := (node, pkg)) (hs.requires pkg cap hc node hn) htracked hx
  | @extra entry he hx =>
    cases hn : richNode entry.1 with
    | none =>
      refine reports_of_keeps (extra_kept he) finalState_ended.frontier
        (fun c => demandExtra_not_rich_choice hn) ?_
      rwa [demandExtra_of_not_rich hn]
    | some node =>
      rw [demandExtra_of_richNode hn, owes_orPending] at hx
      exact reports_of_tracked (q := (node, entry.2)) (hs.extra entry he node hn)
        (tracked_extra _ he hn) hx

/-- The final set is closed. -/
theorem finalState_closed (hs : SteadyInput L requires extra) :
    Closed L requires roots extra (finalState L requires roots extra).seen :=
  ⟨fun _ hp => root_mem_finalState hp, fun _ hp => owed_reported hs hp⟩

theorem finalState_inside (hs : SteadyInput L requires extra) :
    Inside L requires extra (finalState L requires roots extra).seen
      (finalState L requires roots extra) :=
  inside_run hs (finalState_closed hs) _

/-- The choices a run of steady requirements ends with are settled by nothing: the final
    pass adds none. -/
theorem finalState_unsettled (hs : SteadyInput L requires extra) :
    ∀ c ∈ (finalState L requires roots extra).choices,
      c.settledBy L (finalState L requires roots extra).seen = false := by
  have hinside := inside_run hs (finalState_closed hs : Closed L requires roots extra _)
  have key : ∀ n, (run L requires n (start L roots extra)).done = true →
      ∀ c ∈ (run L requires n (start L roots extra)).choices,
        c.settledBy L (run L requires n (start L roots extra)).seen = false := by
    intro n
    induction n with
    | zero =>
      intro h
      simp [start_done] at h
    | succ n ih =>
      intro hdone
      cases hd : (run L requires n (start L roots extra)).done with
      | true =>
        rw [run_succ, step_done hd]
        exact ih hd
      | false =>
        rw [run_succ] at hdone ⊢
        rcases step_cases L requires hd with ⟨_, _, _, _, he⟩ | ⟨_, hv⟩ | hst
        · rw [he, hd] at hdone
          cases hdone
        · rw [hv.done] at hdone
          cases hdone
        · have hmid : ∀ c ∈ (midSettle L (run L requires n (start L roots extra))).choices,
              c.settledBy L (run L requires n (start L roots extra)).seen = false :=
            fun c hc => ((hst.midChoices c).mp hc).2.1
          rw [hst.seen]
          rcases hst.final with ⟨_, _, _, hch, _⟩ | ⟨_, _, _, hch, _⟩
          · rw [hch]
            exact hmid
          · intro c hc
            rcases (hch c).mp hc with hc | ⟨q, hq, hc⟩
            · exact hmid c hc
            · have := final_scan_silent (finalState_closed hs) (hinside n) hst hq
              rw [this] at hc
              cases hc
  exact key _ finalState_done

/-- **What a run of steady requirements reports is what its set is owed.** -/
theorem reports_iff_owed (hs : SteadyInput L requires extra) (x : Effect) :
    (finalState L requires roots extra).Reports x ↔
      Owed L requires extra (finalState L requires roots extra).seen x := by
  refine ⟨fun h => ?_, owed_reported hs⟩
  cases x with
  | pkg p => exact h.elim
  | choice c =>
    rcases ((finalState_inside hs).choices c h).2 with hset | ho
    · rw [finalState_unsettled hs c h] at hset
      cases hset
    · exact ho
  | problem e => exact (finalState_inside hs).problems e h

end Reports

/-! ## Order -/

/-- A choice some requirement, or some `extra` entry, can put off. -/
inductive MayChoose (L : Lookup) (requires : Dict String (List String))
    (extra : List (String × String)) (c : Choice) : Prop
  | requirement {t pkg cap} : cap ∈ requires.getD pkg [] →
      c ∈ (demand L t pkg cap).choices → MayChoose L requires extra c
  | extra {t entry} : entry ∈ extra → c ∈ (demandExtra L t entry.1 entry.2).choices →
      MayChoose L requires extra c

/-- Choices of one expression are between the same alternatives. -/
def Coherent (L : Lookup) (requires : Dict String (List String))
    (extra : List (String × String)) : Prop :=
  ∀ c c', MayChoose L requires extra c → MayChoose L requires extra c' →
    c.expression = c'.expression → c.alternatives = c'.alternatives

section Order

theorem choiceProblem_congr {cs cs' : List Choice} (h : ∀ c, c ∈ cs ↔ c ∈ cs')
    (hcoh : ∀ c ∈ cs, ∀ c' ∈ cs, c.expression = c'.expression →
      c.alternatives = c'.alternatives) (expression : String) :
    choiceProblem cs expression = choiceProblem cs' expression := by
  have hgroup : ∀ c, c ∈ cs.filter (fun c => c.expression = expression) ↔
      c ∈ cs'.filter (fun c => c.expression = expression) := by
    intro c
    rw [List.mem_filter, List.mem_filter, h]
  have hwho : PyText.sortedSet
      ((cs.filter fun c => c.expression = expression).map Choice.who) =
      PyText.sortedSet ((cs'.filter fun c => c.expression = expression).map Choice.who) := by
    refine PyText.sortedSet_congr fun w => ?_
    simp only [List.mem_map, hgroup]
  have halt : ((cs.filter fun c => c.expression = expression).head?.map
      Choice.alternatives).getD [] =
      ((cs'.filter fun c => c.expression = expression).head?.map
        Choice.alternatives).getD [] := by
    cases hc : cs.filter fun c => c.expression = expression with
    | nil =>
      cases hc' : cs'.filter fun c => c.expression = expression with
      | nil => rfl
      | cons d ds =>
        have := (hgroup d).mpr (by rw [hc']; exact List.mem_cons_self ..)
        rw [hc] at this
        cases this
    | cons c rest =>
      cases hc' : cs'.filter fun c => c.expression = expression with
      | nil =>
        have := (hgroup c).mp (by rw [hc]; exact List.mem_cons_self ..)
        rw [hc'] at this
        cases this
      | cons d ds =>
        have hm : c ∈ cs.filter fun c => c.expression = expression := by
          rw [hc]
          exact List.mem_cons_self ..
        have hm' : d ∈ cs.filter fun c => c.expression = expression :=
          (hgroup d).mpr (by rw [hc']; exact List.mem_cons_self ..)
        obtain ⟨h1, he1⟩ := List.mem_filter.mp hm
        obtain ⟨h2, he2⟩ := List.mem_filter.mp hm'
        have he : c.expression = d.expression :=
          (of_decide_eq_true he1).trans (of_decide_eq_true he2).symm
        rw [List.head?_cons, List.head?_cons, Option.map_some, Option.map_some,
          hcoh c h1 d h2 he]
  simp only [choiceProblem, hwho, halt]

/-- The report on the open choices depends on which they are alone. -/
theorem reportChoices_congr {cs cs' : List Choice} (h : ∀ c, c ∈ cs ↔ c ∈ cs')
    (hcoh : ∀ c ∈ cs, ∀ c' ∈ cs, c.expression = c'.expression →
      c.alternatives = c'.alternatives) : reportChoices cs = reportChoices cs' := by
  have hex : PyText.sortedSet (cs.map Choice.expression) =
      PyText.sortedSet (cs'.map Choice.expression) := by
    refine PyText.sortedSet_congr fun e => ?_
    simp only [List.mem_map, h]
  unfold reportChoices
  rw [hex]
  exact List.map_congr_left fun e _ => choiceProblem_congr h hcoh e

variable {L : Lookup} {requires requires' : Dict String (List String)}
  {roots roots' : List String} {extra extra' : List (String × String)}

theorem Owed.congr (hreq : ∀ pkg cap, cap ∈ requires.getD pkg [] → cap ∈ requires'.getD pkg [])
    (hext : ∀ entry ∈ extra, entry ∈ extra') {S : Finset String} {x : Effect}
    (h : Owed L requires extra S x) : Owed L requires' extra' S x := by
  cases h with
  | requirement hp hc hx => exact .requirement hp (hreq _ _ hc) hx
  | extra he hx => exact .extra (hext _ he) hx

theorem mayChoose_of_owed {S : Finset String} {c : Choice}
    (h : Owed L requires extra S (.choice c)) : MayChoose L requires extra c := by
  cases h with
  | requirement _ hc hx => exact .requirement hc hx.1
  | extra he hx => exact .extra he hx.1

/-- **When the closure does not depend on order.** If every requirement and every `extra`
    entry is steady, and choices of one expression agree on the alternatives, then listing
    the roots, the `extra` entries and each package's requirements in another order returns
    the same set and reports the same problems. -/
theorem closure_order_independent (L : Lookup)
    (requires requires' : Dict String (List String)) (roots roots' : List String)
    (extra extra' : List (String × String)) (hroots : roots.Perm roots')
    (hextra : extra.Perm extra')
    (hreq : ∀ pkg, (requires.getD pkg []).Perm (requires'.getD pkg []))
    (hsteady : SteadyInput L requires extra) (hcoh : Coherent L requires extra) :
    (runtimeClosure L requires roots extra).1 = (runtimeClosure L requires' roots' extra').1 ∧
      ∀ e, e ∈ (runtimeClosure L requires roots extra).2 ↔
        e ∈ (runtimeClosure L requires' roots' extra').2 := by
  have hreq' : ∀ pkg cap, cap ∈ requires'.getD pkg [] → cap ∈ requires.getD pkg [] :=
    fun pkg cap => (hreq pkg).mem_iff.mpr
  have hsteady' : SteadyInput L requires' extra' :=
    ⟨fun pkg cap hc => hsteady.requires pkg cap (hreq' pkg cap hc),
      fun entry he => hsteady.extra entry (hextra.mem_iff.mpr he)⟩
  have howed : ∀ S x, Owed L requires extra S x ↔ Owed L requires' extra' S x := fun S x =>
    ⟨fun h => h.congr (fun pkg cap => (hreq pkg).mem_iff.mp) fun _ => hextra.mem_iff.mp,
      fun h => h.congr hreq' fun _ => hextra.mem_iff.mpr⟩
  -- Each final set is closed for the other input.
  have hseen : (finalState L requires roots extra).seen =
      (finalState L requires' roots' extra').seen := by
    refine Finset.Subset.antisymm
      (finalState_subset hsteady ⟨fun p hp => ?_, fun p hp => ?_⟩)
      (finalState_subset hsteady' ⟨fun p hp => ?_, fun p hp => ?_⟩)
    · exact root_mem_finalState (hroots.mem_iff.mp hp)
    · exact (finalState_closed hsteady').pkgs p ((howed _ _).mp hp)
    · exact root_mem_finalState (hroots.mem_iff.mpr hp)
    · exact (finalState_closed hsteady).pkgs p ((howed _ _).mpr hp)
  have hreports : ∀ x, (finalState L requires roots extra).Reports x ↔
      (finalState L requires' roots' extra').Reports x := by
    intro x
    rw [reports_iff_owed hsteady, reports_iff_owed hsteady', hseen]
    exact howed _ x
  have hchoices := reportChoices_congr (fun c => hreports (.choice c)) fun c hc c' hc' =>
    hcoh c c' (mayChoose_of_owed ((reports_iff_owed hsteady (.choice c)).mp hc))
      (mayChoose_of_owed ((reports_iff_owed hsteady (.choice c')).mp hc'))
  refine ⟨hseen, fun e => ?_⟩
  have hproblems := hreports (.problem e)
  simp only [runtimeClosure, State.result, List.mem_append]
  rw [hchoices]
  exact or_congr_left hproblems

end Order

/-! ## Two orders -/

/-- `a` is provided by `a` and by `y`, `b` by nothing. -/
def ayLookup : Lookup where
  provides := ⟨[("a", ["a", "y"]), ("p", ["p"]), ("x", ["x"]), ("y", ["y"])]⟩
  provideEvr := .empty
  overrides := .empty

/-- `p` requires `(x if y)`, a steady requirement: the order of `p` and `y` among the roots
    does not matter. -/
theorem closure_order_independent_x_if_y :
    (runtimeClosure ayLookup (soleRequirement "p" "(x if y)") ["p", "y"] []).1 =
        (runtimeClosure ayLookup (soleRequirement "p" "(x if y)") ["y", "p"] []).1 ∧
      ∀ e, e ∈ (runtimeClosure ayLookup (soleRequirement "p" "(x if y)") ["p", "y"] []).2 ↔
        e ∈ (runtimeClosure ayLookup (soleRequirement "p" "(x if y)") ["y", "p"] []).2 := by
  have hn : richNode "(x if y)" = some (.if (.cap "x") (.cap "y") none) := by rfl
  have hx : ∀ who, resolve ayLookup who (stripCapabilityVersion "x") = .found ["x"] := by
    intro who
    have hr : resolveCapability ayLookup (stripCapabilityVersion "x") "" = .ok "x" := by decide
    simp only [resolve, resolveCapability_ok_who hr who]
  have hsole : ∀ pkg cap, cap ∈ (soleRequirement "p" "(x if y)").getD pkg [] →
      pkg = "p" ∧ cap = "(x if y)" := by
    intro pkg cap hc
    by_cases hp : pkg = "p"
    · rw [hp, soleRequirement_self] at hc
      exact ⟨hp, List.mem_singleton.mp hc⟩
    · rw [soleRequirement_of_ne hp] at hc
      cases hc
  refine closure_order_independent _ _ _ _ _ _ _ (.swap _ _ _) (.refl _) (fun _ => .refl _)
    ⟨fun pkg cap hc node hnode => ?_, by simp⟩ fun c c' hc _ _ => ?_
  · obtain ⟨rfl, rfl⟩ := hsole pkg cap hc
    cases hn.symm.trans hnode
    exact .ifThen (fun s S _ hsub h => capabilityPresent_mono hsub h) .cap
  · -- No choice is ever put off.
    cases hc with
    | extra he _ => cases he
    | @requirement t pkg cap hcap hch =>
      obtain ⟨rfl, rfl⟩ := hsole pkg cap hcap
      rw [demand_of_richNode hn, Outcome.choices_orPending] at hch
      simp only [require, hx] at hch
      split at hch <;> simp at hch

/-- `p` requires `(a or b)`. Popped after `y`, which provides `a`, it demands nothing;
    popped before `y`, it demands the package `a`. -/
theorem root_order_matters :
    validateOverrides ayLookup.overrides ayLookup.provides "" = [] ∧
      richNode "(a or b)" = some (.or [.cap "a", .cap "b"]) ∧
      ["p", "y"].Perm ["y", "p"] ∧
      runtimeClosure ayLookup (soleRequirement "p" "(a or b)") ["p", "y"] [] =
        ({"p", "y"}, []) ∧
      runtimeClosure ayLookup (soleRequirement "p" "(a or b)") ["y", "p"] [] =
        ({"p", "a", "y"}, []) ∧
      ({"p", "y"} : Finset String) ≠ {"p", "a", "y"} := by
  have hn : richNode "(a or b)" = some (.or [.cap "a", .cap "b"]) := by rfl
  have hlate : demand ayLookup {"p", "y"} "p" "(a or b)" = .found [] := by
    have hany : anySatisfied ayLookup {"p", "y"} [.cap "a", .cap "b"] = true := by decide
    have hreq : require ayLookup {"p", "y"} "p" false (.or [.cap "a", .cap "b"]) =
        .found [] := by simp [require, hany]
    rw [demand_of_richNode hn, hreq]
    rfl
  have hearly : demand ayLookup {"p"} "p" "(a or b)" = .found ["a"] := by
    have hany : anySatisfied ayLookup {"p"} [.cap "a", .cap "b"] = false := by decide
    have hnames : leafNames (.or [.cap "a", .cap "b"]) = some ["a", "b"] := by decide
    have ho : ayLookup.overrides.get? (unparseBoolean (.or [.cap "a", .cap "b"])) = none := rfl
    have hl : (live ayLookup "p" ["a", "b"]).map PyText.sortedSet = some ["a"] := by decide
    have hreq : require ayLookup {"p"} "p" false (.or [.cap "a", .cap "b"]) =
        .found ["a"] := by simp [require, hany, requireOneOf, hnames, ho, hl]
    rw [demand_of_richNode hn, hreq]
    rfl
  refine ⟨by decide, hn, .swap _ _ _, ?_, ?_, by decide⟩
  · refine soleClosure ["y"] [] (t := {"p", "y"}) (by decide) (by decide) ?_ ?_ ?_ ?_
    · rw [hlate]
      decide
    · rw [hlate]
      rfl
    · rw [hlate]
      rfl
    · rw [hlate]
      simp
  · refine soleClosure [] ["y"] (t := {"p"}) (by decide) (by decide) ?_ ?_ ?_ ?_
    · rw [hearly]
      decide
    · rw [hearly]
      rfl
    · rw [hearly]
      rfl
    · rw [hearly]
      simp

end BuckosDistro.Depgraph
