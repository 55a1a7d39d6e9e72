/-
  rpm's rule for a provided version against a bound.

  Epochs come first, then versions, and releases only when both sides state one. The code
  compares releases as soon as the bound states one, and reads a release the provider does
  not state as the empty text, which is older than nearly every other.
-/
import BuckosDistro.Depgraph.Capability
import BuckosDistro.Depgraph.VersionOrder

namespace BuckosDistro.Depgraph

open BuckosDistro.Lib

/-! ## The rule -/

/-- A component that is stated and not empty. -/
def statedPart (part : Option String) : Option String := part.filter (· ≠ "")

/-- The order of two releases, which are equal unless both are stated. -/
def releaseSign (one two : Option String) : Int :=
  match statedPart one, statedPart two with
  | some r, some r' => rpmvercmp r r'
  | _, _ => 0

/-- rpm's order of a provided version and a wanted one. -/
def rangeSign (provided wanted : Evr) : Int :=
  if epochNumber provided.epoch ≠ epochNumber wanted.epoch then
    if epochNumber provided.epoch > epochNumber wanted.epoch then 1 else -1
  else if rpmvercmp (provided.version.getD "") (wanted.version.getD "") ≠ 0 then
    rpmvercmp (provided.version.getD "") (wanted.version.getD "")
  else releaseSign provided.release wanted.release

/-- rpm's rule: the operator admits the order. -/
def inRange (provided : Evr) (op : Op) (wanted : String) : Bool :=
  op.admits (rangeSign provided (evrParts wanted))

/-! ## The code -/

theorem epochInt_epochOrZero (epoch : Option String) :
    epochInt (epochOrZero epoch) = epochNumber epoch := by
  rw [← epochInt_eq]
  have hzero : epochInt (some "0") = 0 := by decide
  cases epoch with
  | none => exact hzero
  | some text =>
    show epochInt (if text = "" then some "0" else some text) = epochInt (some text)
    by_cases h : text = ""
    · rw [h]
      exact hzero
    · rw [if_neg h]

/-- The order of the releases, as the code compares them. -/
def comparedRelease (provided wanted : Evr) : Int :=
  if wanted.release.isSome then
    rpmvercmp (provided.release.getD "") (wanted.release.getD "")
  else 0

/-- The code decides by the releases where epochs and versions tie. -/
theorem satisfiesConstraint_eq (provided : Evr) (op : Op) (wanted : String) :
    satisfiesConstraint provided op wanted =
      op.admits
        (if epochNumber provided.epoch ≠ epochNumber (evrParts wanted).epoch then
          if epochNumber provided.epoch > epochNumber (evrParts wanted).epoch then 1 else -1
        else if rpmvercmp (provided.version.getD "") ((evrParts wanted).version.getD "") ≠ 0 then
          rpmvercmp (provided.version.getD "") ((evrParts wanted).version.getD "")
        else comparedRelease provided (evrParts wanted)) := by
  have hrelease : rpmvercmp
      ((if (evrParts wanted).release.isSome then provided.release else none).getD "")
        ((evrParts wanted).release.getD "") = comparedRelease provided (evrParts wanted) := by
    unfold comparedRelease
    cases (evrParts wanted).release with
    | none => exact if_pos rfl
    | some release => rfl
  unfold satisfiesConstraint compareEvr
  simp only [epochInt_epochOrZero, hrelease]

/-- The operator does not tell the order of the releases from a tie. -/
def ReleaseImmaterial (provided : Evr) (op : Op) (wanted : Evr) : Prop :=
  op.admits (rpmvercmp (provided.release.getD "") (wanted.release.getD "")) = op.admits 0

/-- When the code follows the rule. -/
def ReleaseFair (provided : Evr) (op : Op) (wanted : Evr) : Prop :=
  wanted.release = none ∨ epochNumber provided.epoch ≠ epochNumber wanted.epoch ∨
    rpmvercmp (provided.version.getD "") (wanted.version.getD "") ≠ 0 ∨
    ((statedPart provided.release).isSome ∧ (statedPart wanted.release).isSome) ∨
    ReleaseImmaterial provided op wanted

theorem releaseSign_of_stated {one two : Option String} (h : (statedPart one).isSome)
    (h' : (statedPart two).isSome) :
    releaseSign one two = rpmvercmp (one.getD "") (two.getD "") := by
  have hget : ∀ {part : Option String}, (statedPart part).isSome →
      statedPart part = some (part.getD "") := by
    intro part hpart
    obtain ⟨text, htext⟩ := Option.isSome_iff_exists.mp hpart
    rw [htext, (Option.filter_eq_some_iff.mp htext).1]
    rfl
  unfold releaseSign
  rw [hget h, hget h']

theorem releaseSign_of_missing {one two : Option String}
    (h : ¬ ((statedPart one).isSome ∧ (statedPart two).isSome)) : releaseSign one two = 0 := by
  unfold releaseSign
  cases hone : statedPart one with
  | none => rfl
  | some r =>
    cases htwo : statedPart two with
    | none => rfl
    | some r' =>
      rw [hone, htwo] at h
      exact absurd ⟨rfl, rfl⟩ h

/-- On a tie the code and the rule are told apart by the releases alone. -/
theorem admits_release_iff (provided : Evr) (op : Op) (wanted : Evr) :
    op.admits (comparedRelease provided wanted) =
        op.admits (releaseSign provided.release wanted.release) ↔
      wanted.release = none ∨
        ((statedPart provided.release).isSome ∧ (statedPart wanted.release).isSome) ∨
        ReleaseImmaterial provided op wanted := by
  by_cases hnone : wanted.release = none
  · have hmissing : releaseSign provided.release wanted.release = 0 := by
      apply releaseSign_of_missing
      rw [hnone]
      exact fun h => absurd h.2 Bool.false_ne_true
    have hcompared : comparedRelease provided wanted = 0 := by
      unfold comparedRelease
      rw [hnone]
      rfl
    rw [hmissing, hcompared]
    exact iff_of_true rfl (Or.inl hnone)
  · have hcompared : comparedRelease provided wanted =
        rpmvercmp (provided.release.getD "") (wanted.release.getD "") :=
      if_pos (Option.isSome_iff_ne_none.mpr hnone)
    rw [hcompared]
    by_cases hboth : (statedPart provided.release).isSome ∧ (statedPart wanted.release).isSome
    · rw [releaseSign_of_stated hboth.1 hboth.2]
      exact iff_of_true rfl (Or.inr (Or.inl hboth))
    · rw [releaseSign_of_missing hboth]
      constructor
      · intro h
        exact Or.inr (Or.inr h)
      · rintro (h | h | h)
        · exact absurd h hnone
        · exact absurd h hboth
        · exact h

/-- **The code is rpm's rule** exactly when no missing release decides. -/
theorem satisfies_constraint_iff (provided : Evr) (op : Op) (wanted : String) :
    satisfiesConstraint provided op wanted = inRange provided op wanted ↔
      ReleaseFair provided op (evrParts wanted) := by
  rw [satisfiesConstraint_eq]
  unfold inRange rangeSign ReleaseFair
  by_cases hepoch : epochNumber provided.epoch ≠ epochNumber (evrParts wanted).epoch
  · rw [if_pos hepoch, if_pos hepoch]
    exact iff_of_true rfl (Or.inr (Or.inl hepoch))
  · rw [if_neg hepoch, if_neg hepoch]
    by_cases hversion :
        rpmvercmp (provided.version.getD "") ((evrParts wanted).version.getD "") ≠ 0
    · rw [if_pos hversion, if_pos hversion]
      exact iff_of_true rfl (Or.inr (Or.inr (Or.inl hversion)))
    · rw [if_neg hversion, if_neg hversion, admits_release_iff]
      constructor
      · rintro (h | h | h)
        · exact Or.inl h
        · exact Or.inr (Or.inr (Or.inr (Or.inl h)))
        · exact Or.inr (Or.inr (Or.inr (Or.inr h)))
      · rintro (h | h | h | h | h)
        · exact Or.inl h
        · exact absurd h hepoch
        · exact absurd h hversion
        · exact Or.inr (Or.inl h)
        · exact Or.inr (Or.inr h)

/-- A provider that states no release is refused by a bound that states one. -/
theorem release_decides : satisfiesConstraint ⟨none, some "1", none⟩ .eq "1-1" = false ∧
    inRange ⟨none, some "1", none⟩ .eq "1-1" = true := by
  decide

end BuckosDistro.Depgraph
