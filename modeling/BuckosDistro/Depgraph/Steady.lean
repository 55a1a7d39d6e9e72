/-
  Requirements that may be read early.

  A call demands what its expression demands of the set so far. `Owes S o` is what an
  outcome `o` still asks of a set `S` once the set is complete: packages that are missing,
  choices that nothing settles, problems. An expression is `Steady` if reading it early
  asks the same of every later set as reading it against that set (`owes_of_owes`).

  From it follows what a run of steady requirements is. Its set is the least one that
  contains the roots and owes its members no package (`finalState_subset`,
  `finalState_closed`), and its problems are what that set owes (`owed_reported`,
  `finalState_inside`); none of this mentions an order.
-/
import BuckosDistro.Depgraph.Tracked

namespace BuckosDistro.Depgraph

open BuckosDistro.Lib

/-! ## Debts -/

/-- One thing an outcome can ask. -/
inductive Effect where
  | pkg (name : String)
  | choice (c : Choice)
  | problem (e : Problem)

/-- What an outcome asks of a set that it does not hold. -/
def Owes (L : Lookup) (S : Finset String) (o : Outcome) : Effect → Prop
  | .pkg p => p ∈ o.pkgs ∧ p ∉ S
  | .choice c => c ∈ o.choices ∧ c.settledBy L S = false
  | .problem e => e ∈ o.problems

section Owes

variable {L : Lookup} {S : Finset String}

theorem owes_found_nil {x : Effect} : ¬ Owes L S (.found []) x := by
  cases x <;> simp [Owes]

theorem owes_later {x : Effect} : ¬ Owes L S .later x := by
  cases x <;> simp [Owes]

@[simp] theorem owes_orPending {o : Outcome} {n : Node} {w : String} {x : Effect} :
    Owes L S (o.orPending n w) x ↔ Owes L S o x := by
  cases x <;> simp [Owes]

theorem owes_requireEach {t : Finset String} {who : String} {final : Bool} {cs : List Node}
    {x : Effect} : Owes L S (requireEach L t who final cs) x ↔
      ∃ c ∈ cs, Owes L S (require L t who final c) x := by
  cases x with
  | pkg p =>
    simp only [Owes, mem_requireEach_pkgs]
    exact ⟨fun ⟨⟨c, hc, hp⟩, hS⟩ => ⟨c, hc, hp, hS⟩, fun ⟨c, hc, hp, hS⟩ => ⟨⟨c, hc, hp⟩, hS⟩⟩
  | choice c =>
    simp only [Owes, mem_requireEach_choices]
    exact ⟨fun ⟨⟨c, hc, hp⟩, hS⟩ => ⟨c, hc, hp, hS⟩, fun ⟨c, hc, hp, hS⟩ => ⟨⟨c, hc, hp⟩, hS⟩⟩
  | problem e => exact mem_requireEach_problems

/-- A set that keeps an outcome owes it nothing, if no override answers its choices. -/
theorem not_owes_of_kept {o : Outcome} (hk : o.Kept L S)
    (ho : ∀ c ∈ o.choices, L.overrides.get? c.expression = none) (x : Effect) :
    ¬ Owes L S o x := by
  cases x with
  | pkg p => exact fun ⟨hp, hS⟩ => hS (hk.pkgs p hp)
  | choice c =>
    rintro ⟨hc, hset⟩
    rcases hk.choices c hc with h | ⟨r, _, h⟩
    · rw [h] at hset
      cases hset
    · rw [ho c hc] at h
      cases h
  | problem e =>
    intro he
    have : e ∈ o.problems := he
    rw [hk.problems] at this
    cases this

end Owes

/-! ## Steady expressions -/

/-- Expressions that ask the same of a set whenever they are read, from `base` on:

    - an `or` that demands nothing a later set does not hold, where the truth of its
      branches differs between the two;
    - an `if` without `else` whose condition stays true once it is;
    - an `if` with `else` whose condition does not change;
    - a range whose text no override answers. -/
inductive Steady (L : Lookup) (who : String) (base : Finset String) : Node → Prop
  | cap {text} : Steady L who base (.cap text)
  | and {cs} : (∀ c ∈ cs, Steady L who base c) → Steady L who base (.and cs)
  | or {cs} : (∀ t S, base ⊆ t → t ⊆ S → anySatisfied L t cs ≠ anySatisfied L S cs →
      (requireOneOf L who (.or cs)).Kept L S) → Steady L who base (.or cs)
  | with {cs} : (∀ caps, rangeBounds (.with cs) = some caps →
      L.overrides.get? (PyText.join " with " caps) = none) → Steady L who base (.with cs)
  | without {l r} : Steady L who base (.without l r)
  | ifThen {t c} : (∀ s S, base ⊆ s → s ⊆ S → satisfied L s c = true →
      satisfied L S c = true) → Steady L who base t → Steady L who base (.if t c none)
  | ifElse {t c e} : (∀ s S, base ⊆ s → s ⊆ S → satisfied L s c = satisfied L S c) →
      Steady L who base t → Steady L who base e → Steady L who base (.if t c (some e))

/-- Every requirement of the universe, and every `extra` entry, is steady from the package
    that requires it on. -/
structure SteadyInput (L : Lookup) (requires : Dict String (List String))
    (extra : List (String × String)) : Prop where
  requires : ∀ pkg, ∀ cap ∈ requires.getD pkg [], ∀ node, richNode cap = some node →
    Steady L pkg {pkg} node
  extra : ∀ entry ∈ extra, ∀ node, richNode entry.1 = some node →
    Steady L entry.2 ∅ node

section Choices

variable {L : Lookup} {who : String}

theorem resolve_choice_override {cap : String} {c : Choice}
    (h : c ∈ (resolve L who cap).choices) : L.overrides.get? c.expression = none := by
  cases hr : resolveCapability L cap who with
  | ok pkg => simp [resolve, hr] at h
  | error e =>
    cases e with
    | unresolvedCapability _ _ => simp [resolve, hr] at h
    | ambiguousProvider _ candidates =>
      have hc : c = ⟨cap, PyText.sortedSet candidates, who⟩ := by simpa [resolve, hr] using h
      have ho := (resolveCapability_ambiguous hr).1
      rw [hc]
      exact (Option.or_eq_none_iff.mp ho).1

theorem requireOneOf_choice_override {n : Node} {c : Choice}
    (h : c ∈ (requireOneOf L who n).choices) : L.overrides.get? c.expression = none := by
  unfold requireOneOf at h
  cases hn : leafNames n with
  | none => simp [hn] at h
  | some names =>
    cases ho : L.overrides.get? (unparseBoolean n) with
    | some r => simp [hn, ho] at h
    | none =>
      simp only [hn, ho] at h
      split at h
      · simp at h
      · rw [List.mem_singleton.mp h]
        exact ho

theorem resolveRange_choice_override {caps : List String} {c : Choice}
    (ho : L.overrides.get? (PyText.join " with " caps) = none)
    (h : c ∈ (resolveRange L who caps).choices) : L.overrides.get? c.expression = none := by
  rcases resolveRange_cases L caps with ⟨p, hp, _⟩ | ⟨alternatives, hc⟩ | hp
  · simp [hp] at h
  · rw [hc] at h
    rw [List.mem_singleton.mp h]
    exact ho
  · obtain ⟨d, hd⟩ := hp who
    simp [hd] at h

theorem requireTogether_choice_override {n : Node} {c : Choice}
    (ho : ∀ caps, rangeBounds n = some caps →
      L.overrides.get? (PyText.join " with " caps) = none)
    (h : c ∈ (requireTogether L who n).choices) : L.overrides.get? c.expression = none := by
  unfold requireTogether at h
  rcases hb : rangeBounds n with _ | _ | ⟨cap, caps⟩
  case some.cons =>
    simp only [hb] at h
    exact resolveRange_choice_override (ho _ hb) h
  all_goals
    simp only [hb] at h
    rcases hi : intersect L n with _ | _ | ⟨p, _ | ⟨q, ps⟩⟩
    · simp [hi] at h
    · cases hov : L.overrides.get? (unparseBoolean n) <;> simp [hi, hov] at h
    · simp [hi] at h
    · cases hov : L.overrides.get? (unparseBoolean n) <;> simp [hi, hov] at h

/-- No override answers a choice that a steady expression puts off. -/
theorem Steady.choice_override {base : Finset String} {n : Node} (hs : Steady L who base n)
    {t : Finset String} {final : Bool} {c : Choice}
    (h : c ∈ (require L t who final n).choices) : L.overrides.get? c.expression = none := by
  induction hs with
  | cap => exact resolve_choice_override h
  | and _ ih =>
    obtain ⟨d, hd, hc⟩ := mem_requireEach_choices.mp h
    exact ih d hd hc
  | @or cs _ =>
    simp only [require] at h
    cases hany : anySatisfied L t cs with
    | true => simp [hany] at h
    | false =>
      rw [hany] at h
      exact requireOneOf_choice_override h
  | «with» ho => exact requireTogether_choice_override ho h
  | without => exact requireTogether_choice_override (by simp [rangeBounds]) h
  | @ifThen th c _ _ ih =>
    simp only [require] at h
    cases hc : satisfied L t c with
    | true =>
      rw [hc] at h
      exact ih h
    | false => simp [hc] at h
  | @ifElse th c e _ _ _ iht ihe =>
    simp only [require] at h
    cases hc : satisfied L t c with
    | true =>
      rw [hc] at h
      exact iht h
    | false =>
      rw [hc] at h
      exact ihe h

end Choices

section Read

variable {L : Lookup} {who : String} {base : Finset String}

/-- The final pass reads a steady expression as the others do. -/
theorem Steady.require_final {n : Node} (hs : Steady L who base n) (t : Finset String)
    (w : String) (final : Bool) : require L t w final n = require L t w false n := by
  induction hs with
  | cap => rfl
  | @and cs _ ih =>
    simp only [require]
    have key : ∀ ds : List Node, (∀ d ∈ ds, require L t w final d = require L t w false d) →
        requireEach L t w final ds = requireEach L t w false ds := by
      intro ds
      induction ds with
      | nil => intro _; rfl
      | cons d ds ihd =>
        intro h
        simp only [requireEach]
        rw [h d (List.mem_cons_self ..), ihd fun e he => h e (List.mem_cons_of_mem _ he)]
    exact key cs ih
  | or _ => rfl
  | «with» _ => rfl
  | without => rfl
  | ifThen _ _ ih => simp only [require, ih]
  | ifElse _ _ _ iht ihe => simp only [require, iht, ihe]

/-- Where the truth of the branches differs between two sets, a steady `or` owes the later
    one nothing. -/
theorem not_owes_oneOf {cs : List Node} {t S : Finset String}
    (h : ∀ t S, base ⊆ t → t ⊆ S → anySatisfied L t cs ≠ anySatisfied L S cs →
      (requireOneOf L who (.or cs)).Kept L S)
    (hb : base ⊆ t) (ht : t ⊆ S) (hne : anySatisfied L t cs ≠ anySatisfied L S cs)
    (x : Effect) : ¬ Owes L S (requireOneOf L who (.or cs)) x :=
  not_owes_of_kept (h t S hb ht hne) (fun _ hc => requireOneOf_choice_override hc) x

/-- **Reading a steady expression early asks of the later set what reading it then does.** -/
theorem owes_of_owes {n : Node} (hs : Steady L who base n) {t S : Finset String}
    (hb : base ⊆ t) (ht : t ⊆ S) {final : Bool} {x : Effect}
    (h : Owes L S (require L t who final n) x) : Owes L S (require L S who false n) x := by
  induction hs with
  | cap => exact h
  | and _ ih =>
    obtain ⟨c, hc, h⟩ := owes_requireEach.mp h
    exact owes_requireEach.mpr ⟨c, hc, ih c hc h⟩
  | @or cs hor =>
    simp only [require] at h ⊢
    by_cases heq : anySatisfied L t cs = anySatisfied L S cs
    · rwa [heq] at h
    · have hnot := not_owes_oneOf hor hb ht heq x
      cases hany : anySatisfied L t cs with
      | true =>
        rw [hany] at h
        exact absurd h owes_found_nil
      | false =>
        rw [hany] at h
        exact absurd h hnot
  | «with» _ => exact h
  | without => exact h
  | @ifThen th c hc _ ih =>
    simp only [require] at h ⊢
    cases hsat : satisfied L t c with
    | true =>
      rw [hsat] at h
      rw [hc t S hb ht hsat]
      exact ih h
    | false =>
      rw [hsat] at h
      exact absurd h owes_later
  | @ifElse th c e hc _ _ iht ihe =>
    simp only [require] at h ⊢
    rw [← hc t S hb ht]
    cases hsat : satisfied L t c with
    | true =>
      rw [hsat] at h
      exact iht h
    | false =>
      rw [hsat] at h
      exact ihe h

/-- What a call on a steady expression puts off is steady, asked for by the same package,
    and asks no more of the later set than the whole. -/
theorem pending_steady {n : Node} (hs : Steady L who base n) {t S : Finset String}
    (hb : base ⊆ t) (ht : t ⊆ S) {final : Bool} {q : Node × String}
    (hq : q ∈ (require L t who final n).pending) :
    q.2 = who ∧ Steady L who base q.1 ∧ ∀ x, Owes L S (require L S who false q.1) x →
      Owes L S (require L S who false n) x := by
  induction hs with
  | cap => simp [require, (resolve_prompt L who _).2] at hq
  | and hcs ih =>
    obtain ⟨c, hc, h | ⟨_, rfl⟩⟩ := mem_requireEach_pending.mp hq
    · obtain ⟨hw, hst, how⟩ := ih c hc h
      exact ⟨hw, hst, fun x hx => owes_requireEach.mpr ⟨c, hc, how x hx⟩⟩
    · exact ⟨rfl, hcs c hc, fun x hx => owes_requireEach.mpr ⟨c, hc, hx⟩⟩
  | @or cs _ =>
    simp only [require] at hq
    cases hany : anySatisfied L t cs <;>
      simp [hany, (requireOneOf_prompt L who (.or cs)).2] at hq
  | «with» _ => simp [require, (requireTogether_prompt L who _).2] at hq
  | without => simp [require, (requireTogether_prompt L who _).2] at hq
  | @ifThen th c hc _ ih =>
    simp only [require] at hq ⊢
    cases hsat : satisfied L t c with
    | true =>
      rw [hsat] at hq
      rw [hc t S hb ht hsat]
      exact ih hq
    | false => simp [hsat] at hq
  | @ifElse th c e hc _ _ iht ihe =>
    simp only [require] at hq ⊢
    rw [← hc t S hb ht]
    cases hsat : satisfied L t c with
    | true =>
      rw [hsat] at hq
      exact iht hq
    | false =>
      rw [hsat] at hq
      exact ihe hq

end Read

end BuckosDistro.Depgraph
