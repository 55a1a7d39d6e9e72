/-
  `or`: what a closure without problems says about a choice between branches.

  An `or` takes three forms on its way. While some branch is true of the set it demands
  nothing. Otherwise it is flattened to the names of its leaves: an override of its text or
  a single live name answers it, else it becomes a choice between those names. The branch
  structure survives neither the first form, when a branch stops being true, nor the
  flattening, when one name of a longer branch is taken for the whole.

  `BranchTrue` says when this loses nothing, and `oneOf_sound` that it is enough for every
  `or` and needed for every `or` that can be written as a requirement.
-/
import BuckosDistro.Depgraph.Sole

namespace BuckosDistro.Depgraph

open BuckosDistro.Lib

/-! ## When an answer makes a branch true -/

/-- The only package the names of an `or` resolve to, if there is exactly one. -/
def soleLive (L : Lookup) (names : List String) : Option String :=
  match (live L "" names).map PyText.sortedSet with
  | some [pkg] => some pkg
  | _ => none

/-- Whatever answers the `or` of `cs` in an earlier set `t`, some branch is true of every
    later set `S` that keeps the answer. -/
structure BranchTrue (L : Lookup) (cs : List Node) : Prop where
  /-- A branch that was true is not lost. -/
  present : ∀ t S : Finset String, t.Nonempty → t ⊆ S → anySatisfied L t cs = true →
    anySatisfied L S cs = true
  /-- The package of an override of the whole text makes a branch true. -/
  overridden : ∀ names r, leafNames (.or cs) = some names →
    L.overrides.get? (unparseBoolean (.or cs)) = some r →
    ∀ t S : Finset String, t.Nonempty → t ⊆ S → anySatisfied L t cs = false → r ∈ S →
      anySatisfied L S cs = true
  /-- So does the only live package. -/
  sole : ∀ names pkg, leafNames (.or cs) = some names →
    L.overrides.get? (unparseBoolean (.or cs)) = none → soleLive L names = some pkg →
    ∀ t S : Finset String, t.Nonempty → t ⊆ S → anySatisfied L t cs = false → pkg ∈ S →
      anySatisfied L S cs = true
  /-- So does any one of the leaf names, when the choice between them is put off. -/
  chosen : ∀ names, leafNames (.or cs) = some names →
    L.overrides.get? (unparseBoolean (.or cs)) = none → soleLive L names = none →
    ∀ t S : Finset String, t.Nonempty → t ⊆ S → anySatisfied L t cs = false →
      names.any (capabilityPresent L S) = true → anySatisfied L S cs = true

/-! ## What a call says -/

/-- The live packages do not depend on who asks. -/
theorem live_who (L : Lookup) (who who' : String) (names : List String) :
    live L who names = live L who' names := by
  induction names with
  | nil => rfl
  | cons name names ih =>
    cases hr : resolveCapability { L with provideEvr := Dict.empty } name who with
    | ok pkg => simp only [live, hr, resolveCapability_ok_who hr who', ih]
    | error e =>
      cases e with
      | ambiguousProvider c cs =>
        simp only [live, hr, resolveCapability_ambiguous_who hr who']
      | unresolvedCapability c w =>
        simp only [live, hr, resolveCapability_unresolved_who hr who', ih]

section Call

variable {L : Lookup} {t : Finset String} {who : String} {final : Bool} {cs : List Node}

theorem require_or_present (h : anySatisfied L t cs = true) :
    require L t who final (.or cs) = .found [] := by
  simp [require, h]

theorem require_or_rich (h : anySatisfied L t cs = false)
    (hn : leafNames (.or cs) = none) :
    require L t who final (.or cs) = .problem "rich" (unparseBoolean (.or cs)) who := by
  simp [require, h, requireOneOf, hn]

theorem require_or_overridden {names : List String} {r : String}
    (h : anySatisfied L t cs = false) (hn : leafNames (.or cs) = some names)
    (ho : L.overrides.get? (unparseBoolean (.or cs)) = some r) :
    require L t who final (.or cs) = .found [r] := by
  simp [require, h, requireOneOf, hn, ho]

theorem require_or_sole {names : List String} {pkg : String}
    (h : anySatisfied L t cs = false) (hn : leafNames (.or cs) = some names)
    (ho : L.overrides.get? (unparseBoolean (.or cs)) = none)
    (hs : soleLive L names = some pkg) :
    require L t who final (.or cs) = .found [pkg] := by
  have hl : (live L who names).map PyText.sortedSet = some [pkg] := by
    rw [live_who L who ""]
    unfold soleLive at hs
    split at hs
    · rename_i p hp
      rw [hp, Option.some.inj hs]
    · cases hs
  simp [require, h, requireOneOf, hn, ho, hl]

theorem require_or_chosen {names : List String}
    (h : anySatisfied L t cs = false) (hn : leafNames (.or cs) = some names)
    (ho : L.overrides.get? (unparseBoolean (.or cs)) = none)
    (hs : soleLive L names = none) :
    require L t who final (.or cs) = .choice (unparseBoolean (.or cs)) names who := by
  have hl : ∀ pkg, (live L who names).map PyText.sortedSet ≠ some [pkg] := by
    intro pkg hp
    rw [live_who L who ""] at hp
    simp [soleLive, hp] at hs
  simp only [require, h, requireOneOf, hn, ho, Bool.false_eq_true, if_false]

/-- If the condition holds, a call that is answered leaves some branch true. -/
theorem anySatisfied_of_kept (hb : BranchTrue L cs) {S : Finset String} (ht : t.Nonempty)
    (hsub : t ⊆ S) (hk : (require L t who final (.or cs)).Kept L S) :
    anySatisfied L S cs = true := by
  cases hsat : anySatisfied L t cs with
  | true => exact hb.present t S ht hsub hsat
  | false =>
    cases hn : leafNames (.or cs) with
    | none =>
      rw [require_or_rich hsat hn] at hk
      cases hk.problems
    | some names =>
      cases ho : L.overrides.get? (unparseBoolean (.or cs)) with
      | some r =>
        rw [require_or_overridden hsat hn ho] at hk
        exact hb.overridden names r hn ho t S ht hsub hsat (hk.pkgs r (by simp))
      | none =>
        cases hs : soleLive L names with
        | some pkg =>
          rw [require_or_sole hsat hn ho hs] at hk
          exact hb.sole names pkg hn ho hs t S ht hsub hsat (hk.pkgs pkg (by simp))
        | none =>
          rw [require_or_chosen hsat hn ho hs] at hk
          refine hb.chosen names hn ho hs t S ht hsub hsat ?_
          rcases hk.choices _ (List.mem_singleton_self _) with h | ⟨r, _, hr⟩
          · exact h
          · rw [ho] at hr
            cases hr

end Call

/-! ## The result -/

/-- **When a demanded `or` has a true branch.** Every closure without problems makes some
    branch of the `or` true, for every member package that demands it, if `BranchTrue`
    holds of its branches; and only then, if the `or` is what some requirement reads as. -/
theorem oneOf_sound (L : Lookup) (cs : List Node) :
    (BranchTrue L cs →
      ∀ (requires : Dict String (List String)) (roots : List String)
        (extra : List (String × String)) (S : Finset String),
        runtimeClosure L requires roots extra = (S, []) →
        ∀ c, CallsOf L requires roots extra c → c.node = .or cs → c.who ∈ c.seen →
          satisfied L S (.or cs) = true) ∧
    (∀ text, richNode text = some (.or cs) →
      (∀ (requires : Dict String (List String)) (roots : List String)
        (extra : List (String × String)) (S : Finset String),
        runtimeClosure L requires roots extra = (S, []) →
        ∀ c, CallsOf L requires roots extra c → c.node = .or cs → c.who ∈ c.seen →
          satisfied L S (.or cs) = true) →
      BranchTrue L cs) := by
  constructor
  · intro hb requires roots extra S hclean c hc hnode hwho
    obtain ⟨node, who, t, final⟩ := c
    subst hnode
    have hk := hc.kept hclean
    have hsub := hc.seen_subset hclean
    exact anySatisfied_of_kept hb ⟨who, hwho⟩ hsub hk
  · intro text hn h
    -- Every answer the condition speaks of is the answer of a run.
    have key : ∀ (t S : Finset String), t.Nonempty → t ⊆ S →
        (∀ pkg, (require L t pkg false (.or cs)).got.isSome ∧
          (require L t pkg false (.or cs)).pending = [] ∧
          (require L t pkg false (.or cs)).problems = [] ∧
          (∀ p ∈ (require L t pkg false (.or cs)).pkgs, p ∈ S) ∧
          ∀ c ∈ (require L t pkg false (.or cs)).choices, c.settledBy L S = true) →
        anySatisfied L S cs = true := by
      intro t S ⟨pkg, hp⟩ hsub hans
      obtain ⟨hg, hpend, hprob, hpkgs, hch⟩ := hans pkg
      have hrun := closure_of_requirement hn hp hsub hg hpend hprob hpkgs hch
      obtain ⟨t', ht', hcall⟩ := called_of_clean hrun (hsub hp)
        (by simp [soleRequirement_self]) hn
      exact h _ _ _ _ hrun _ hcall rfl ht'
    constructor
    · intro t S ht hsub hsat
      refine key t S ht hsub fun pkg => ?_
      rw [require_or_present hsat]
      simp
    · intro names r hl ho t S ht hsub hsat hr
      refine key t S ht hsub fun pkg => ?_
      rw [require_or_overridden hsat hl ho]
      simpa using hr
    · intro names p hl ho hs t S ht hsub hsat hp
      refine key t S ht hsub fun pkg => ?_
      rw [require_or_sole hsat hl ho hs]
      simpa using hp
    · intro names hl ho hs t S ht hsub hsat hany
      refine key t S ht hsub fun pkg => ?_
      rw [require_or_chosen hsat hl ho hs]
      simpa [Choice.settledBy] using hany

/-! ## Half a branch -/

/-- Three packages that provide their own names. -/
def abcLookup : Lookup where
  provides := ⟨[("a", ["a"]), ("b", ["b"]), ("c", ["c"])]⟩
  provideEvr := .empty
  overrides := .empty

/-- `p` requires `((a and b) or c)` and `a` is there for another reason: the closure has no
    problems, and neither `b` nor `c`. -/
theorem half_branch_settles :
    validateOverrides abcLookup.overrides abcLookup.provides "" = [] ∧
      richNode "((a and b) or c)" =
        some (.or [.and [.cap "a", .cap "b"], .cap "c"]) ∧
      runtimeClosure abcLookup (soleRequirement "p" "((a and b) or c)") ["a", "p"] [] =
        ({"p", "a"}, []) ∧
      (∃ t, "p" ∈ t ∧ CallsOf abcLookup (soleRequirement "p" "((a and b) or c)") ["a", "p"] []
        ⟨.or [.and [.cap "a", .cap "b"], .cap "c"], "p", t, false⟩) ∧
      satisfied abcLookup {"p", "a"} (.or [.and [.cap "a", .cap "b"], .cap "c"]) = false := by
  have hn : richNode "((a and b) or c)" =
      some (.or [.and [.cap "a", .cap "b"], .cap "c"]) := by rfl
  have hd : demand abcLookup {"p"} "p" "((a and b) or c)" =
      .choice "((a and b) or c)" ["a", "b", "c"] "p" := by
    have htext : unparseBoolean (.or [.and [.cap "a", .cap "b"], .cap "c"]) =
        "((a and b) or c)" := by decide
    have hr : require abcLookup {"p"} "p" false
        (.or [.and [.cap "a", .cap "b"], .cap "c"]) =
        .choice (unparseBoolean (.or [.and [.cap "a", .cap "b"], .cap "c"]))
          ["a", "b", "c"] "p" :=
      require_or_chosen (by decide) (by decide) (by decide) (by decide)
    rw [demand_of_richNode hn, hr, htext]
    rfl
  have hrun : runtimeClosure abcLookup (soleRequirement "p" "((a and b) or c)") ["a", "p"] [] =
      ({"p", "a"}, []) := by
    refine soleClosure [] ["a"] (t := {"p"}) (by simp) (by simp) ?_ ?_ ?_ ?_
    · rw [hd]
      decide
    · rw [hd]
      rfl
    · rw [hd]
      rfl
    · intro c hc
      rw [hd] at hc
      rw [List.mem_singleton.mp hc]
      decide
  refine ⟨by decide, hn, hrun, ?_, by decide⟩
  exact called_of_clean hrun (by simp) (by simp [soleRequirement_self]) hn

end BuckosDistro.Depgraph
