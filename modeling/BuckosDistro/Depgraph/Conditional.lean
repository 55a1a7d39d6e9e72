/-
  `if` and `unless`: what the returned set says of conditions read on the way.

  A condition is read against the set so far, and the branch it selects is demanded for
  good. The requirement is still true of the returned set if no later package overturns a
  condition a call has acted on (`Undisturbed`), and if the expressions that select
  packages are made true by what answers them (`AnswersTrue`). Expressions that never got an
  answer are true of the set, because the final pass read them against it.
-/
import BuckosDistro.Depgraph.Sole

namespace BuckosDistro.Depgraph

open BuckosDistro.Lib

/-! ## Decisions -/

/-- The condition a call acts on: it is the condition of the expression, and the call does
    not say `None`. -/
inductive Call.Decides (L : Lookup) : Call → Node → Prop
  | if {t c o who seen final} : (require L seen who final (.if t c o)).got.isSome →
      Call.Decides L ⟨.if t c o, who, seen, final⟩ c
  | unless {t c o who seen final} : (require L seen who final (.unless t c o)).got.isSome →
      Call.Decides L ⟨.unless t c o, who, seen, final⟩ c

/-- In no state of the run does the package on top of the frontier change the truth of a
    condition that an earlier call has acted on. -/
def Undisturbed (L : Lookup) (requires : Dict String (List String)) (roots : List String)
    (extra : List (String × String)) : Prop :=
  ∀ n pkg rest, (run L requires n (start L roots extra)).done = false →
    (run L requires n (start L roots extra)).frontier = pkg :: rest →
    ∀ c cond, Calls L requires roots extra n c → c.Decides L cond →
      satisfied L (insert pkg (run L requires n (start L roots extra)).seen) cond =
        satisfied L (run L requires n (start L roots extra)).seen cond

/-- The expressions whose answer is a selection: leaves, `or`, `with` and `without`. -/
def Node.Selects : Node → Prop
  | .cap _ | .or _ | .with _ | .without _ _ => True
  | _ => False

/-- Whatever answers a call on such an expression makes it true: every set that contains
    the one it was read against and keeps its answer. -/
def AnswersTrue (L : Lookup) (requires : Dict String (List String)) (roots : List String)
    (extra : List (String × String)) : Prop :=
  ∀ c, CallsOf L requires roots extra c → c.node.Selects →
    ∀ S, c.seen ⊆ S → (c.outcome L).Kept L S → satisfied L S c.node = true

/-! ## Decisions last -/

section Run

variable {L : Lookup} {requires : Dict String (List String)} {roots : List String}
  {extra : List (String × String)}

/-- In an undisturbed run a condition keeps the truth it had when a call acted on it. -/
theorem decided_lasts (hu : Undisturbed L requires roots extra) {n : ℕ} {c : Call}
    {cond : Node} (hc : Calls L requires roots extra n c) (hd : c.Decides L cond) :
    satisfied L (run L requires n (start L roots extra)).seen cond =
      satisfied L c.seen cond := by
  induction n with
  | zero =>
    cases hc with
    | extra _ _ hw => rw [run_zero, start_seen, hw.seen]
    | trip hi _ _ => exact absurd hi (Nat.not_lt_zero _)
  | succ n ih =>
    -- Either the call was made before this trip, and the trip does not disturb it, or in it.
    have hstep : ∀ hold : Calls L requires roots extra n c,
        satisfied L (run L requires (n + 1) (start L roots extra)).seen cond =
          satisfied L c.seen cond := by
      intro hold
      rw [run_succ, ← ih hold]
      cases hdone : (run L requires n (start L roots extra)).done with
      | true => rw [step_done hdone]
      | false =>
        rcases step_cases L requires hdone with ⟨_, _, _, _, he⟩ | ⟨pkg, hv⟩ | hs
        · rw [he]
        · obtain ⟨rest, hf, _⟩ := hv.popped
          rw [hv.seen]
          exact hu n pkg rest hdone hf c cond hold hd
        · rw [hs.seen]
    cases hc with
    | extra he hn hw => exact hstep (.extra he hn hw)
    | @trip i _ hi hdone hin =>
      rcases Nat.lt_or_eq_of_le (Nat.le_of_lt_succ hi) with hlt | heq
      · exact hstep (.trip hlt hdone hin)
      · subst heq
        rw [run_succ, hin.seen_eq hdone]

/-! ## Truth at the end -/

variable {S : Finset String}

/-- An expression a call has answered is true of the returned set, if what the call put
    off is. -/
theorem satisfied_of_answered (hclean : runtimeClosure L requires roots extra = (S, []))
    (hu : Undisturbed L requires roots extra) (ha : AnswersTrue L requires roots extra)
    {n : Node} {who : String} {t : Finset String} {final : Bool}
    (hc : CallsOf L requires roots extra ⟨n, who, t, final⟩)
    (hg : (require L t who final n).got.isSome)
    (hp : ∀ q ∈ (require L t who final n).pending, satisfied L S q.1 = true) :
    satisfied L S n = true := by
  have hlast : ∀ c cond, CallsOf L requires roots extra c → c.Decides L cond →
      satisfied L S cond = satisfied L c.seen cond := by
    intro c cond hc hd
    rw [← (clean_finalState hclean).1]
    exact decided_lasts hu hc hd
  have hselect : ∀ m, CallsOf L requires roots extra ⟨m, who, t, final⟩ → m.Selects →
      satisfied L S m = true :=
    fun m hm hs => ha _ hm hs S (hm.seen_subset hclean) (hm.kept hclean)
  induction n using Node.induct with
  | cap text => exact hselect _ hc trivial
  | or cs _ => exact hselect _ hc trivial
  | with_ cs _ => exact hselect _ hc trivial
  | without l r _ _ => exact hselect _ hc trivial
  | and cs ih =>
    rw [satisfied, allSatisfied_eq, List.all_eq_true]
    intro c hcs
    cases hgc : (require L t who final c).got with
    | none => exact hp _ (mem_requireEach_pending.mpr ⟨c, hcs, .inr ⟨hgc, rfl⟩⟩)
    | some _ =>
      refine ih c hcs (Calls.inner hc (.and hcs)) (by rw [hgc]; rfl) fun q hq => ?_
      exact hp q (mem_requireEach_pending.mpr ⟨c, hcs, .inl hq⟩)
  | if_ th c o iht _ iho =>
    have hcond : satisfied L S c = satisfied L t c := hlast _ c hc (.if hg)
    cases hs : satisfied L t c with
    | true =>
      have hreq : require L t who final (.if th c o) = require L t who final th := by
        cases o <;> simp [require, hs]
      rw [hreq] at hg hp
      have := iht (Calls.inner hc (.ifTrue hs)) hg hp
      cases o <;> simp [satisfied, hcond, hs, this]
    | false =>
      cases o with
      | none => simp [satisfied, hcond, hs]
      | some e =>
        have hreq : require L t who final (.if th c (some e)) = require L t who final e := by
          simp [require, hs]
        rw [hreq] at hg hp
        have := iho e rfl (Calls.inner hc (.ifFalse hs)) hg hp
        simp [satisfied, hcond, hs, this]
  | unless_ th c o iht _ iho =>
    have hcond : satisfied L S c = satisfied L t c := hlast _ c hc (.unless hg)
    cases hs : satisfied L t c with
    | true =>
      cases o with
      | none => simp [satisfied, hcond, hs]
      | some e =>
        have hreq : require L t who final (.unless th c (some e)) =
            require L t who final e := by simp [require, hs]
        rw [hreq] at hg hp
        have := iho e rfl (Calls.inner hc (.unlessTrue hs)) hg hp
        simp [satisfied, hcond, hs, this]
    | false =>
      -- Only the final pass acts on a condition that is false.
      cases final with
      | false => cases o <;> simp [require, hs] at hg
      | true =>
        have hreq : require L t who true (.unless th c o) = require L t who true th := by
          cases o <;> simp [require, hs]
        rw [hreq] at hg hp
        have := iht (Calls.inner hc (.unlessFalse hs)) hg hp
        cases o <;> simp [satisfied, hcond, hs, this]

/-- **When conditional requirements hold of the returned set.** In every run without
    problems that no package disturbs, and whose selections are made true by their answers,
    every conditional requirement of a package of the set is true of the set, its
    conditions judged on the whole. -/
theorem conditional_holds (L : Lookup) (requires : Dict String (List String))
    (roots : List String) (extra : List (String × String)) (S : Finset String)
    (hclean : runtimeClosure L requires roots extra = (S, []))
    (hu : Undisturbed L requires roots extra) (ha : AnswersTrue L requires roots extra) :
    ∀ pkg ∈ S, ∀ cap ∈ requires.getD pkg [], ∀ node, richNode cap = some node →
      node.Conditional → satisfied L S node = true := by
  intro pkg hpkg cap hcap node hn _
  have hseen := (clean_finalState hclean).1
  have htracked := tracked_requirement (n := trips L requires roots extra)
    (hseen.symm ▸ hpkg) hcap hn
  have key : ∀ q : Node × String,
      Tracked L (CallsFrom L requires roots extra (trips L requires roots extra) {pkg})
        (finalState L requires roots extra).pending q → satisfied L S q.1 = true := by
    intro q hq
    induction hq with
    | @waits q hq =>
      have := finalState_ended.pending q hq
      rw [hseen] at this
      exact satisfied_of_require_later this
    | answered t final hc hg _ ih => exact satisfied_of_answered hclean hu ha hc.1 hg ih
  exact key _ htracked

end Run

/-! ## A condition that comes true later -/

/-- Three packages that provide their own names. -/
def xybLookup : Lookup where
  provides := ⟨[("b", ["b"]), ("p", ["p"]), ("x", ["x"]), ("y", ["y"])]⟩
  provideEvr := .empty
  overrides := .empty

/-- What the calls on `(x if b)` are: `x` is asked for where `b` is there. -/
theorem calls_x_if_b {n : ℕ} {c : Call}
    (hc : Calls xybLookup (soleRequirement "p" "(x if b)") ["b", "p"] [] n c) :
    c.node = .if (.cap "x") (.cap "b") none ∨ c.node = .cap "x" := by
  have hn : richNode "(x if b)" = some (.if (.cap "x") (.cap "b") none) := by rfl
  have hpending : ∀ t final, ∀ q ∈ (require xybLookup t "p" final
      (.if (.cap "x") (.cap "b") none)).pending, q = (.if (.cap "x") (.cap "b") none, "p") := by
    intro t final q hq
    have hx : resolveCapability xybLookup (stripCapabilityVersion "x") "p" = .ok "x" := by
      decide
    cases hb : satisfied xybLookup t (.cap "b") <;>
      simp [require, hb, resolve, hx, Outcome.later, Outcome.found] at hq
  obtain ⟨t, final, hw⟩ := calls_sole hn hpending hc
  clear hc
  induction hw with
  | self => exact .inl rfl
  | inner _ hm ih =>
    right
    rcases ih with h | h <;> cases hm <;> cases h
    rfl

/-- `p` requires `(x if b)` and is popped before `b`: the condition comes true later, and then
    `x` is asked for. -/
theorem conditional_holds_x_if_b :
    runtimeClosure xybLookup (soleRequirement "p" "(x if b)") ["b", "p"] [] =
      ({"p", "b", "x"}, []) ∧
    satisfied xybLookup {"p"} (.cap "b") = false ∧
      ∀ pkg ∈ ({"p", "b", "x"} : Finset String),
        ∀ cap ∈ (soleRequirement "p" "(x if b)").getD pkg [], ∀ node,
          richNode cap = some node → node.Conditional →
            satisfied xybLookup {"p", "b", "x"} node = true := by
  have hrun : runtimeClosure xybLookup (soleRequirement "p" "(x if b)") ["b", "p"] [] =
      ({"p", "b", "x"}, []) := by
    decide +kernel
  refine ⟨hrun, by decide, conditional_holds _ _ _ _ _ hrun ?_ ?_⟩
  -- A call acts on the condition only where it is true already.
  · intro n pkg rest _ _ c cond hc hd
    obtain ⟨rfl, hb⟩ : cond = .cap "b" ∧ satisfied xybLookup c.seen (.cap "b") = true := by
      rcases calls_x_if_b hc with h | h <;> cases hd <;> cases h
      rename_i who seen final hg
      refine ⟨rfl, ?_⟩
      by_contra hb
      simp [require, hb, Outcome.later] at hg
    have hlater : ∀ t, c.seen ⊆ t → satisfied xybLookup t (.cap "b") = true :=
      fun t ht => capabilityPresent_mono ht hb
    have hseen := Calls.seen_subset hc
    rw [hlater _ hseen, hlater _ (hseen.trans (Finset.subset_insert _ _))]
  -- `x` is the package it resolves to.
  · intro c hc hsel S hsub hk
    obtain ⟨node, who, t, final⟩ := c
    rcases calls_x_if_b hc with h | h
    · cases h
      exact hsel.elim
    · cases h
      have hr : resolveCapability xybLookup (stripCapabilityVersion "x") "" = .ok "x" := by
        decide
      have hx : "x" ∈ S := hk.pkgs "x" (by
        simp [Call.outcome, require, resolve, resolveCapability_ok_who hr who])
      exact capabilityPresent_iff.mpr ⟨"x", hx, by decide⟩

/-- `p` requires `(x if b else y)` and is popped before `b`: the closure has no problems,
    holds `b` and `y`, and not `x`. -/
theorem late_condition_fails :
    validateOverrides xybLookup.overrides xybLookup.provides "" = [] ∧
      richNode "(x if b else y)" =
        some (.if (.cap "x") (.cap "b") (some (.cap "y"))) ∧
      runtimeClosure xybLookup (soleRequirement "p" "(x if b else y)") ["b", "p"] [] =
        ({"p", "y", "b"}, []) ∧
      "(x if b else y)" ∈ (soleRequirement "p" "(x if b else y)").getD "p" [] ∧
      satisfied xybLookup {"p", "y", "b"}
        (.if (.cap "x") (.cap "b") (some (.cap "y"))) = false := by
  have hn : richNode "(x if b else y)" =
      some (.if (.cap "x") (.cap "b") (some (.cap "y"))) := by rfl
  have hd : demand xybLookup {"p"} "p" "(x if b else y)" = .found ["y"] := by
    have hb : satisfied xybLookup {"p"} (.cap "b") = false := by decide
    have hr : resolveCapability xybLookup (stripCapabilityVersion "y") "p" = .ok "y" := by
      decide
    have hreq : require xybLookup {"p"} "p" false
        (.if (.cap "x") (.cap "b") (some (.cap "y"))) = .found ["y"] := by
      simp [require, hb, resolve, hr]
    rw [demand_of_richNode hn, hreq]
    rfl
  refine ⟨by decide, hn, ?_, by decide, by decide⟩
  refine soleClosure [] ["b"] (t := {"p"}) (by simp) (by simp) ?_ ?_ ?_ ?_
  · rw [hd]
    decide
  · rw [hd]
    rfl
  · rw [hd]
    rfl
  · rw [hd]
    simp

end BuckosDistro.Depgraph
