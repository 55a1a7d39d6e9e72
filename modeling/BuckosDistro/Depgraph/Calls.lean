/-
  The calls of `require` that a run makes, and what becomes of them.

  A `Call` is one evaluation of one expression. `CallsIn s` are the calls of one trip, and
  `Calls n` those of the first `n` trips of a run. Two facts hold of every run:

  - what a call returns and appends is not lost (`Calls.keeps`): its packages enter the
    set or wait on the frontier, its choices stay open until an alternative or an override
    settles them, its problems are reported;
  - an expression put to the machine is answered by some call, or still waits
    (`tracked_requirement`).

  At the end of a run without problems nothing waits on the frontier and no choice is
  open, which turns the first fact into `Outcome.Kept`.
-/
import BuckosDistro.Depgraph.Run

namespace BuckosDistro.Depgraph

open BuckosDistro.Lib

/-! ## Calls -/

/-- One call of `require`: the expression, who asks, the set it is read against, and
    whether this is the final pass. -/
structure Call where
  node : Node
  who : String
  seen : Finset String
  final : Bool

namespace Call

def outcome (L : Lookup) (c : Call) : Outcome := require L c.seen c.who c.final c.node

/-- The calls `require` makes of itself. -/
inductive Makes (L : Lookup) : Call → Call → Prop
  | and {cs child who seen final} : child ∈ cs →
      Makes L ⟨.and cs, who, seen, final⟩ ⟨child, who, seen, final⟩
  | ifTrue {t c o who seen final} : satisfied L seen c = true →
      Makes L ⟨.if t c o, who, seen, final⟩ ⟨t, who, seen, final⟩
  | ifFalse {t c e who seen final} : satisfied L seen c = false →
      Makes L ⟨.if t c (some e), who, seen, final⟩ ⟨e, who, seen, final⟩
  | unlessTrue {t c e who seen final} : satisfied L seen c = true →
      Makes L ⟨.unless t c (some e), who, seen, final⟩ ⟨e, who, seen, final⟩
  | unlessFalse {t c o who seen} : satisfied L seen c = false →
      Makes L ⟨.unless t c o, who, seen, true⟩ ⟨t, who, seen, true⟩

/-- The calls below a call, itself included. -/
inductive Within (L : Lookup) (c : Call) : Call → Prop
  | self : Within L c c
  | inner {d e} : Within L c d → d.Makes L e → Within L c e

end Call

/-- One outcome says no more than another. -/
structure Outcome.Le (o o' : Outcome) : Prop where
  pkgs : ∀ p ∈ o.pkgs, p ∈ o'.pkgs
  choices : ∀ c ∈ o.choices, c ∈ o'.choices
  problems : ∀ e ∈ o.problems, e ∈ o'.problems

theorem Outcome.Le.refl (o : Outcome) : o.Le o :=
  ⟨fun _ h => h, fun _ h => h, fun _ h => h⟩

theorem Outcome.Le.trans {o o' o'' : Outcome} (h : o.Le o') (h' : o'.Le o'') : o.Le o'' :=
  ⟨fun p hp => h'.pkgs p (h.pkgs p hp), fun c hc => h'.choices c (h.choices c hc),
    fun e he => h'.problems e (h.problems e he)⟩

theorem Outcome.Le.of_eq {o o' : Outcome} (h : o = o') : o.Le o' := h ▸ .refl o

/-- What an inner call says is part of what the outer one says. -/
theorem Call.Makes.le {L : Lookup} {c d : Call} (h : c.Makes L d) :
    (d.outcome L).Le (c.outcome L) := by
  cases h with
  | and hc =>
    exact ⟨fun _ hp => mem_requireEach_pkgs.mpr ⟨_, hc, hp⟩,
      fun _ hch => mem_requireEach_choices.mpr ⟨_, hc, hch⟩,
      fun _ he => mem_requireEach_problems.mpr ⟨_, hc, he⟩⟩
  | @ifTrue t c o who seen final hs =>
    refine .of_eq ?_
    cases o <;> simp [Call.outcome, require, hs]
  | ifFalse hs => exact .of_eq (by simp [Call.outcome, require, hs])
  | unlessTrue hs => exact .of_eq (by simp [Call.outcome, require, hs])
  | @unlessFalse t c o who seen hs =>
    refine .of_eq ?_
    cases o <;> simp [Call.outcome, require, hs]

theorem Call.Makes.seen {L : Lookup} {c d : Call} (h : c.Makes L d) : d.seen = c.seen := by
  cases h <;> rfl

theorem Call.Makes.who {L : Lookup} {c d : Call} (h : c.Makes L d) : d.who = c.who := by
  cases h <;> rfl

theorem Call.Within.le {L : Lookup} {c d : Call} (h : c.Within L d) :
    (d.outcome L).Le (c.outcome L) := by
  induction h with
  | self => exact .refl _
  | inner _ hm ih => exact hm.le.trans ih

/-- The expression a rich requirement is read as. -/
def richNode (cap : String) : Option Node :=
  let base := stripCapabilityVersion cap
  if isRichDep base then parseBoolean base else none

/-- The calls of `require` in one trip. -/
inductive CallsIn (L : Lookup) (requires : Dict String (List String)) (s : State) :
    Call → Prop
  | visited {pkg rest cap node} : s.frontier = pkg :: rest → pkg ∉ s.seen →
      cap ∈ requires.getD pkg [] → richNode cap = some node →
      CallsIn L requires s ⟨node, pkg, insert pkg s.seen, false⟩
  | scanned {q} : s.frontier = [] → Scanned L s.seen false s.pending q →
      CallsIn L requires s ⟨q.1, q.2, s.seen, false⟩
  | rescanned {q} : s.frontier = [] → (midSettle L s).frontier = [] →
      Scanned L s.seen true (midSettle L s).pending q →
      CallsIn L requires s ⟨q.1, q.2, s.seen, true⟩
  | inner {c d} : CallsIn L requires s c → c.Makes L d → CallsIn L requires s d

/-- The calls made for the `extra` entries and in the first `n` trips. -/
inductive Calls (L : Lookup) (requires : Dict String (List String)) (roots : List String)
    (extra : List (String × String)) (n : ℕ) : Call → Prop
  | extra {entry node c} : entry ∈ extra → richNode entry.1 = some node →
      Call.Within L ⟨node, entry.2, ∅, false⟩ c → Calls L requires roots extra n c
  | trip {i c} : i < n → (run L requires i (start L roots extra)).done = false →
      CallsIn L requires (run L requires i (start L roots extra)) c →
      Calls L requires roots extra n c

/-! ## What is kept -/

/-- A state in which the effects of an outcome are still felt. -/
structure State.Keeps (L : Lookup) (s : State) (o : Outcome) : Prop where
  pkgs : ∀ p ∈ o.pkgs, p ∈ s.seen ∨ p ∈ s.frontier
  choices : ∀ c ∈ o.choices, c ∈ s.choices ∨ c.settledBy L s.seen = true ∨
    ∃ r, L.overrides.get? c.expression = some r ∧ (r ∈ s.seen ∨ r ∈ s.frontier)
  problems : ∀ e ∈ o.problems, e ∈ s.problems

theorem State.Keeps.of_le {L : Lookup} {s : State} {o o' : Outcome} (h : s.Keeps L o')
    (hle : o.Le o') : s.Keeps L o :=
  ⟨fun p hp => h.pkgs p (hle.pkgs p hp), fun c hc => h.choices c (hle.choices c hc),
    fun e he => h.problems e (hle.problems e he)⟩

/-- The packages whose presence makes a capability count as present. -/
def Lookup.StandsFor (L : Lookup) (cap pkg : String) : Prop :=
  L.overrides.get? cap = some pkg ∨ (L.overrides.get? cap = none ∧ pkg ∈ L.providers cap)

instance (L : Lookup) (cap pkg : String) : Decidable (L.StandsFor cap pkg) :=
  inferInstanceAs (Decidable (_ ∨ _))

theorem capabilityPresent_iff {L : Lookup} {S : Finset String} {cap : String} :
    capabilityPresent L S cap = true ↔ ∃ p ∈ S, L.StandsFor cap p := by
  unfold capabilityPresent Lookup.StandsFor
  cases L.overrides.get? cap with
  | some r => simp
  | none => simp [and_comm]

theorem capabilityPresent_mono {L : Lookup} {t S : Finset String} (h : t ⊆ S) {cap : String}
    (hc : capabilityPresent L t cap = true) : capabilityPresent L S cap = true := by
  obtain ⟨p, hp, hs⟩ := capabilityPresent_iff.mp hc
  exact capabilityPresent_iff.mpr ⟨p, h hp, hs⟩

theorem Choice.settledBy_iff {L : Lookup} {S : Finset String} {c : Choice} :
    c.settledBy L S = true ↔ ∃ a ∈ c.alternatives, ∃ p ∈ S, L.StandsFor a p := by
  unfold Choice.settledBy
  simp only [List.any_eq_true, capabilityPresent_iff]

theorem Choice.settledBy_mono {L : Lookup} {t S : Finset String} (h : t ⊆ S) {c : Choice}
    (hc : c.settledBy L t = true) : c.settledBy L S = true := by
  obtain ⟨a, ha, p, hp, hs⟩ := settledBy_iff.mp hc
  exact settledBy_iff.mpr ⟨a, ha, p, h hp, hs⟩

section Trip

variable {L : Lookup} {requires : Dict String (List String)} {s : State}

theorem seen_subset_step : s.seen ⊆ (step L requires s).seen := by
  cases hd : s.done with
  | true => rw [step_done hd]
  | false =>
    rcases step_cases L requires hd with ⟨_, _, _, _, he⟩ | ⟨pkg, hv⟩ | h
    · rw [he]
    · rw [hv.seen]
      exact Finset.subset_insert _ _
    · rw [h.seen]

/-- Where the packages of a settling pass go. -/
theorem Settles.kept_pkg {mid s' : State} (h : Settles L s mid s') {p : String}
    (hp : p ∉ s.seen → p ∈ mid.frontier) : p ∈ s'.seen ∨ p ∈ s'.frontier := by
  by_cases hs : p ∈ s.seen
  · exact .inl (by rwa [h.seen])
  · have hm := hp hs
    rcases h.final with ⟨_, hf, _⟩ | ⟨hf, _⟩
    · exact .inr (by rwa [hf])
    · rw [hf] at hm
      cases hm

/-- Where the choices of a settling pass go. -/
theorem Settles.kept_choice {mid s' : State} (h : Settles L s mid s') {c : Choice}
    (hc : c ∈ s.choices ∨ ∃ q, Scanned L s.seen false s.pending q ∧
      c ∈ (require L s.seen q.2 false q.1).choices) :
    c ∈ s'.choices ∨ c.settledBy L s'.seen = true ∨
      ∃ r, L.overrides.get? c.expression = some r ∧ (r ∈ s'.seen ∨ r ∈ s'.frontier) := by
  cases hset : c.settledBy L s.seen with
  | true => exact .inr (.inl (by rwa [h.seen]))
  | false =>
    cases ho : L.overrides.get? c.expression with
    | some r =>
      refine .inr (.inr ⟨r, rfl, h.kept_pkg fun hr => ?_⟩)
      exact (h.midFrontier r).mpr ⟨hr, .inr ⟨c, hc, hset, ho⟩⟩
    | none =>
      have hm : c ∈ mid.choices := (h.midChoices c).mpr ⟨hc, hset, ho⟩
      rcases h.final with ⟨_, _, _, hch, _⟩ | ⟨_, _, _, hch, _⟩
      · exact .inl (by rwa [hch])
      · exact .inl ((hch c).mpr (.inl hm))

theorem Settles.kept_problem {mid s' : State} (h : Settles L s mid s') {e : Problem}
    (he : e ∈ mid.problems) : e ∈ s'.problems := by
  rcases h.final with ⟨_, _, _, _, hp⟩ | ⟨_, _, _, _, hp⟩
  · rwa [hp]
  · exact (hp e).mpr (.inl he)

/-- One trip loses nothing. -/
theorem keeps_step {o : Outcome} (h : s.Keeps L o) :
    (step L requires s).Keeps L o := by
  cases hd : s.done with
  | true => rwa [step_done hd]
  | false =>
    rcases step_cases L requires hd with ⟨pkg, rest, hf, hp, he⟩ | ⟨pkg, hv⟩ | hs
    · have hkeep : ∀ p, p ∈ s.seen ∨ p ∈ s.frontier → p ∈ s.seen ∨ p ∈ rest := by
        rintro p (h | h)
        · exact .inl h
        · rw [hf] at h
          rcases List.mem_cons.mp h with rfl | h
          · exact .inl hp
          · exact .inr h
      rw [he]
      refine ⟨fun p hp => hkeep p (h.pkgs p hp), fun c hc => ?_, h.problems⟩
      rcases h.choices c hc with h | h | ⟨r, hr, h⟩
      · exact .inl h
      · exact .inr (.inl h)
      · exact .inr (.inr ⟨r, hr, hkeep r h⟩)
    · obtain ⟨rest, hf, hfr⟩ := hv.popped
      have hsub : s.seen ⊆ (step L requires s).seen := seen_subset_step
      have hkeep : ∀ p, p ∈ s.seen ∨ p ∈ s.frontier →
          p ∈ (step L requires s).seen ∨
            p ∈ (step L requires s).frontier := by
        rintro p (h | h)
        · exact .inl (hsub h)
        · rw [hf] at h
          rcases List.mem_cons.mp h with rfl | h
          · exact .inl (by rw [hv.seen]; exact Finset.mem_insert_self _ _)
          · exact .inr ((hfr p).mpr (.inl h))
      refine ⟨fun p hp => hkeep p (h.pkgs p hp), fun c hc => ?_,
        fun e he => (hv.problems e).mpr (.inl (h.problems e he))⟩
      rcases h.choices c hc with h | h | ⟨r, hr, h⟩
      · exact .inl ((hv.choices c).mpr (.inl h))
      · exact .inr (.inl (c.settledBy_mono hsub h))
      · exact .inr (.inr ⟨r, hr, hkeep r h⟩)
    · have hkeep : ∀ p, p ∈ s.seen ∨ p ∈ s.frontier → p ∈ s.seen := by
        rintro p (h | h)
        · exact h
        · rw [hs.drained] at h
          cases h
      refine ⟨fun p hp => hs.kept_pkg fun hn => absurd (hkeep p (h.pkgs p hp)) hn,
        fun c hc => ?_,
        fun e he => hs.kept_problem ((hs.midProblems e).mpr (.inl (h.problems e he)))⟩
      rcases h.choices c hc with h | h | ⟨r, hr, h⟩
      · exact hs.kept_choice (.inl h)
      · exact .inr (.inl (by rwa [hs.seen]))
      · exact .inr (.inr ⟨r, hr, .inl (by rw [hs.seen]; exact hkeep r h)⟩)

/-- The trip that visits a package keeps what each of its requirements demands. -/
theorem Visits.keeps {pkg cap : String} {s' : State} (h : Visits L requires pkg s s')
    (hc : cap ∈ requires.getD pkg []) : s'.Keeps L (demand L s'.seen pkg cap) := by
  obtain ⟨rest, _, hfr⟩ := h.popped
  refine ⟨fun p hp => ?_, fun c hch => .inl ((h.choices c).mpr (.inr ⟨cap, hc, hch⟩)),
    fun e he => (h.problems e).mpr (.inr ⟨cap, hc, he⟩)⟩
  by_cases hs : p ∈ s'.seen
  · exact .inl hs
  · exact .inr ((hfr p).mpr (.inr ⟨hs, cap, hc, hp⟩))

/-- A settling pass keeps what the first scan is told. -/
theorem Settles.keeps {mid s' : State} (h : Settles L s mid s') {q : Node × String}
    (hq : Scanned L s.seen false s.pending q) :
    s'.Keeps L (require L s.seen q.2 false q.1) :=
  ⟨fun p hp => h.kept_pkg fun hs => (h.midFrontier p).mpr ⟨hs, .inl ⟨q, hq, hp⟩⟩,
    fun _ hc => h.kept_choice (.inr ⟨q, hq, hc⟩),
    fun e he => h.kept_problem ((h.midProblems e).mpr (.inr ⟨q, hq, he⟩))⟩

/-- A settling pass keeps what the final scan is told. -/
theorem Settles.keeps_final {mid s' : State} (h : Settles L s mid s')
    (hm : mid.frontier = []) {q : Node × String}
    (hq : Scanned L s.seen true mid.pending q) :
    s'.Keeps L (require L s.seen q.2 true q.1) := by
  rcases h.final with ⟨hne, _⟩ | ⟨_, hf, _, hc, hp⟩
  · exact absurd hm hne
  · refine ⟨fun p hpk => ?_, fun c hch => .inl ((hc c).mpr (.inr ⟨q, hq, hch⟩)),
      fun e he => (hp e).mpr (.inr ⟨q, hq, he⟩)⟩
    by_cases hs : p ∈ s.seen
    · exact .inl (by rwa [h.seen])
    · exact .inr ((hf p).mpr ⟨hs, q, hq, hpk⟩)

theorem demand_of_richNode {seen : Finset String} {pkg cap : String} {node : Node}
    (h : richNode cap = some node) :
    demand L seen pkg cap = (require L seen pkg false node).orPending node pkg := by
  unfold richNode at h
  dsimp only at h
  split at h
  · rename_i hr
    simp [demand, reduceRich, hr, h]
  · cases h

theorem demandExtra_of_richNode {seen : Finset String} {who cap : String} {node : Node}
    (h : richNode cap = some node) :
    demandExtra L seen cap who = (require L seen who false node).orPending node who := by
  unfold richNode at h
  dsimp only at h
  split at h
  · rename_i hr
    simp [demandExtra, reduceRich, hr, h]
  · cases h

theorem Outcome.le_orPending (o : Outcome) (n : Node) (w : String) : o.Le (o.orPending n w) :=
  ⟨fun p hp => by simpa using hp, fun c hc => by simpa using hc,
    fun e he => by simpa using he⟩

/-- What a call of a trip says is kept by the state after the trip. -/
theorem CallsIn.keeps {c : Call} (hd : s.done = false) (h : CallsIn L requires s c) :
    (step L requires s).Keeps L (c.outcome L) := by
  induction h with
  | @visited pkg rest cap node hf hp hc hn =>
    have hv : Visits L requires pkg s (step L requires s) := step_visits hd hf hp
    have := hv.keeps hc
    rw [demand_of_richNode hn, hv.seen] at this
    exact this.of_le (Outcome.le_orPending _ _ _)
  | scanned hf hq => exact (step_settles hd hf).keeps hq
  | rescanned hf hm hq => exact (step_settles hd hf).keeps_final hm hq
  | inner _ hm ih => exact ih.of_le hm.le

end Trip

end BuckosDistro.Depgraph
