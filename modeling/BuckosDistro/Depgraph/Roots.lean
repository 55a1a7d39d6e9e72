/-
  What the closure depends on in its list of roots.

  A root that was popped before is skipped, so only the last mention of each root counts
  (`closure_dedup`): the frontier is a stack. Nothing more can be left out, because the order
  of two roots matters: a conditional reads the set as it is when its package is popped
  (`closure_of_two_roots`).
-/
import BuckosDistro.Depgraph.Sole

namespace BuckosDistro.Depgraph

open BuckosDistro.Lib

/-! ## Roots mentioned twice -/

/-- `gs` is `fs` without packages that are in the set when their turn comes. -/
inductive Thinner : Finset String → List String → List String → Prop
  | nil (seen) : Thinner seen [] []
  | keep (p) {seen fs gs} : Thinner (insert p seen) fs gs → Thinner seen (p :: fs) (p :: gs)
  | skip (p) {seen fs gs} : p ∈ seen → Thinner seen fs gs → Thinner seen (p :: fs) gs

namespace Thinner

variable {seen seen' : Finset String} {fs gs : List String} {p : String}

theorem mono (h : Thinner seen fs gs) (hsub : seen ⊆ seen') : Thinner seen' fs gs := by
  induction h generalizing seen' with
  | nil => exact .nil _
  | keep p _ ih => exact .keep p (ih (Finset.insert_subset_insert p hsub))
  | skip p hp _ ih => exact .skip p (hsub hp) (ih hsub)

theorem refl (seen : Finset String) (fs : List String) : Thinner seen fs fs := by
  induction fs generalizing seen with
  | nil => exact .nil seen
  | cons p fs ih => exact .keep p (ih _)

theorem pushed (h : Thinner seen fs gs) (new : List String) :
    Thinner seen (new ++ fs) (new ++ gs) := by
  induction new generalizing seen with
  | nil => exact h
  | cons p new ih => exact .keep p (ih (h.mono (Finset.subset_insert p seen)))

theorem concat (h : Thinner seen fs gs) (p : String) : Thinner seen (fs ++ [p]) (gs ++ [p]) := by
  induction h with
  | nil => exact .keep p (.nil _)
  | keep q _ ih => exact .keep q ih
  | skip q hq _ ih => exact .skip q hq ih

theorem concat_skip (h : Thinner seen fs gs) (hp : p ∈ fs ∨ p ∈ seen) :
    Thinner seen (fs ++ [p]) gs := by
  induction h with
  | nil =>
    have hseen := hp.resolve_left fun h => nomatch h
    exact .skip p hseen (.nil _)
  | keep q _ ih =>
    refine .keep q (ih ?_)
    rcases hp with hp | hp
    · rcases List.mem_cons.mp hp with rfl | hp
      · exact Or.inr (Finset.mem_insert_self _ _)
      · exact Or.inl hp
    · exact Or.inr (Finset.mem_insert_of_mem hp)
  | skip q hq _ ih =>
    refine .skip q hq (ih ?_)
    rcases hp with hp | hp
    · rcases List.mem_cons.mp hp with rfl | hp
      · exact Or.inr hq
      · exact Or.inl hp
    · exact Or.inr hp

/-- Without the earlier mentions of each package. -/
theorem dedup (roots : List String) : Thinner ∅ roots.reverse roots.dedup.reverse := by
  induction roots with
  | nil => exact .nil _
  | cons p roots ih =>
    rw [List.reverse_cons]
    by_cases hp : p ∈ roots
    · rw [List.dedup_cons_of_mem hp]
      exact ih.concat_skip (Or.inl (List.mem_reverse.mpr hp))
    · rw [List.dedup_cons_of_notMem hp, List.reverse_cons]
      exact ih.concat p

end Thinner

/-- Two states that differ in such packages alone. -/
structure Thinned (s s' : State) : Prop where
  same : s' = { s with frontier := s'.frontier }
  frontier : Thinner s.seen s.frontier s'.frontier

section Thinned

variable {L : Lookup} {requires : Dict String (List String)} {s s' : State}

theorem Thinned.absorb (h : Thinned s s') (o : Outcome) : Thinned (s.absorb o) (s'.absorb o) := by
  rw [h.same]
  exact ⟨rfl, h.frontier.pushed (o.pkgs.filter (· ∉ s.seen)).reverse⟩

theorem Thinned.foldl {α : Type} (o : Finset String → α → Outcome) (xs : List α)
    (h : Thinned s s') :
    Thinned (xs.foldl (fun s x => s.absorb (o s.seen x)) s)
      (xs.foldl (fun s x => s.absorb (o s.seen x)) s') := by
  induction xs generalizing s s' with
  | nil => exact h
  | cons x xs ih =>
    have hseen : s'.seen = s.seen := by rw [h.same]
    have hcall : o s'.seen x = o s.seen x := by rw [hseen]
    rw [List.foldl_cons, List.foldl_cons, hcall]
    exact ih (h.absorb (o s.seen x))

/-- A package popped on both sides. -/
theorem Thinned.visit {p : String} {fs gs : List String}
    (hf : Thinner (insert p s.seen) fs gs) :
    Thinned (visit L requires p { s with frontier := fs })
      (visit L requires p { s with frontier := gs }) := by
  unfold Depgraph.visit
  dsimp only
  split_ifs with hp
  · rw [Finset.insert_eq_self.mpr hp] at hf
    exact ⟨rfl, hf⟩
  · exact Thinned.foldl (fun seen cap => demand L seen p cap) _ ⟨rfl, hf⟩

/-- A skipped package takes one trip on one side and none on the other. -/
theorem Thinned.step (h : Thinned s s') :
    ∃ k, Thinned (step L requires s) ((step L requires)^[k] s') := by
  cases hd : s.done with
  | true =>
    rw [step_done hd]
    exact ⟨0, h⟩
  | false =>
    have hf := h.frontier
    rw [h.same]
    generalize s'.frontier = gs at hf
    generalize hfs : s.frontier = fs at hf
    cases hf with
    | nil =>
      have hsame : { s with frontier := [] } = s := by rw [← hfs]
      rw [hsame]
      refine ⟨1, rfl, ?_⟩
      exact .refl _ _
    | @keep p _ fs gs hrest =>
      refine ⟨1, ?_⟩
      have hs : Depgraph.step L requires s =
          Depgraph.visit L requires p { s with frontier := fs } := by
        unfold Depgraph.step
        rw [hd, hfs]
        rfl
      have hs' : Depgraph.step L requires { s with frontier := p :: gs } =
          Depgraph.visit L requires p { s with frontier := gs } := by
        unfold Depgraph.step
        dsimp only
        rw [hd]
        rfl
      rw [hs, Function.iterate_one, hs']
      exact Thinned.visit hrest
    | @skip p _ fs gs hp hrest =>
      refine ⟨0, ?_⟩
      have hs : Depgraph.step L requires s = { s with frontier := fs } := by
        unfold Depgraph.step Depgraph.visit
        rw [hd, hfs]
        exact if_pos hp
      rw [hs]
      exact ⟨rfl, hrest⟩

end Thinned

/-- **Only the last mention of a root counts.** -/
theorem closure_dedup (L : Lookup) (requires : Dict String (List String)) (roots : List String)
    (extra : List (String × String)) :
    runtimeClosure L requires roots extra = runtimeClosure L requires roots.dedup extra := by
  have hstart : Thinned (start L roots extra) (start L roots.dedup extra) :=
    Thinned.foldl (fun seen (entry : String × String) => demandExtra L seen entry.1 entry.2)
      extra ⟨rfl, .dedup roots⟩
  obtain ⟨n, hn⟩ := run_terminates L requires roots extra
  obtain ⟨m, hm⟩ := Machine.follows (fun _ _ h => Thinned.step h) hstart n
  have hm' : Thinned (run L requires n (start L roots extra))
      (run L requires m (start L roots.dedup extra)) := hm
  have hdone : (run L requires m (start L roots.dedup extra)).done = true := by
    rw [hm'.same]
    exact hn
  rw [runtimeClosure_eq n hn, runtimeClosure_eq m hdone, hm'.same]
  rfl

/-! ## Roots in another order -/

section Order

/-- The first package of two requires `one` when the second is in the set, and itself when
    it is not. -/
def twoRoots (a b p : String) : Lookup :=
  { provides := ⟨[("flag", [b]), ("one", [p]), ("two", [a])]⟩
    provideEvr := Dict.empty
    overrides := Dict.empty }

variable {a b p : String}

theorem demand_twoRoots (t : Finset String) :
    demand (twoRoots a b p) t a "(one if flag else two)" =
      .found [if b ∈ t then p else a] := by
  have hn : richNode "(one if flag else two)" =
      some (.if (.cap "one") (.cap "flag") (some (.cap "two"))) := by rfl
  have hflag : satisfied (twoRoots a b p) t (.cap "flag") = decide (b ∈ t) := by
    have hpresent : satisfied (twoRoots a b p) t (.cap "flag") =
        ([b].any fun pkg => decide (pkg ∈ t)) := by rfl
    rw [hpresent]
    simp
  have hone : resolveCapability (twoRoots a b p) (stripCapabilityVersion "one") a = .ok p := by
    rfl
  have htwo : resolveCapability (twoRoots a b p) (stripCapabilityVersion "two") a = .ok a := by
    rfl
  have hreq : require (twoRoots a b p) t a false
      (.if (.cap "one") (.cap "flag") (some (.cap "two"))) = .found [if b ∈ t then p else a] := by
    simp only [require, hflag, resolve, hone, htwo]
    by_cases hb : b ∈ t <;> simp [hb]
  rw [demand_of_richNode hn, hreq]
  rfl

/-- The root popped first decides what the other one demands. -/
theorem closure_of_two_roots (hab : a ≠ b) :
    (runtimeClosure (twoRoots a b p) (soleRequirement a "(one if flag else two)") [a, b] []).1 =
        {a, b, p} ∧
      (runtimeClosure (twoRoots a b p) (soleRequirement a "(one if flag else two)") [b, a] []).1 =
        {a, b} := by
  constructor
  · have hrun := @soleClosure [b] [] (twoRoots a b p) a "(one if flag else two)"
      (by simpa using hab) {a, b} {a, b, p} (by simp) ?_ ?_ ?_ ?_
    · exact congrArg Prod.fst hrun
    all_goals rw [demand_twoRoots]
    · ext q
      simp
    · rfl
    · rfl
    · simp
  · have hrun := @soleClosure [] [b] (twoRoots a b p) a "(one if flag else two)"
      (by simp) {a} {a, b} (by simp) ?_ ?_ ?_ ?_
    · exact congrArg Prod.fst hrun
    all_goals rw [demand_twoRoots]
    · have hb : b ∉ ({a} : Finset String) := by simpa using Ne.symm hab
      rw [if_neg hb]
      ext q
      simp
    · rfl
    · rfl
    · simp

end Order

end BuckosDistro.Depgraph
