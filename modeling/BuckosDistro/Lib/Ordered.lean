/-
  Lists of steps in which what a step needs has been made before it.

  A step makes one thing and needs some. A list of steps is grounded over what is there at the
  start when every step finds what it needs there, or made by the steps before it; lists are put
  together, and steps are refined into lists, without going over them again.
-/
import Mathlib.Data.List.Basic
import Mathlib.Data.List.Induction

namespace BuckosDistro.Lib.Ordered

variable {σ τ ν : Type} {makes : σ → ν} {needs : σ → List ν}

/-- Every step of the list needs what is known, or made by a step before it. -/
def Grounded (makes : σ → ν) (needs : σ → List ν) : List ν → List σ → Prop
  | _, [] => True
  | known, step :: steps =>
      needs step ⊆ known ∧ Grounded makes needs (makes step :: known) steps

variable {known known' : List ν} {xs ys steps : List σ}

theorem Grounded.mono (h : Grounded makes needs known xs) (hsub : known ⊆ known') :
    Grounded makes needs known' xs := by
  induction xs generalizing known known' with
  | nil => trivial
  | cons x xs ih => exact ⟨List.Subset.trans h.1 hsub, ih h.2 (List.cons_subset_cons _ hsub)⟩

theorem grounded_append :
    Grounded makes needs known (xs ++ ys) ↔
      Grounded makes needs known xs ∧ Grounded makes needs (xs.map makes ++ known) ys := by
  induction xs generalizing known with
  | nil =>
    constructor
    · intro h
      exact ⟨trivial, h⟩
    · intro h
      exact h.2
  | cons x xs ih =>
    -- what the first step makes is known to the rest, in whichever place
    have hsame : Grounded makes needs (xs.map makes ++ makes x :: known) ys ↔
        Grounded makes needs ((x :: xs).map makes ++ known) ys :=
      ⟨fun h => h.mono List.perm_middle.subset, fun h => h.mono List.perm_middle.symm.subset⟩
    show _ ∧ Grounded makes needs _ (xs ++ ys) ↔ (_ ∧ Grounded makes needs _ xs) ∧ _
    rw [ih, hsame, and_assoc]

/-- Steps that need nothing of each other. -/
theorem grounded_of_known (h : ∀ step ∈ xs, needs step ⊆ known) :
    Grounded makes needs known xs := by
  induction xs generalizing known with
  | nil => trivial
  | cons x xs ih =>
    refine ⟨h x List.mem_cons_self, ih fun step hstep => ?_⟩
    exact List.Subset.trans (h step (List.mem_cons_of_mem _ hstep)) (List.subset_cons_self _ _)

/-- Parts that are each grounded over the parts before them. -/
theorem grounded_flatMap {parts : List τ} {f : τ → List σ}
    (h : ∀ before part after, parts = before ++ part :: after →
      Grounded makes needs ((before.flatMap f).map makes ++ known) (f part)) :
    Grounded makes needs known (parts.flatMap f) := by
  induction parts using List.reverseRecOn with
  | nil => trivial
  | append_singleton parts part ih =>
    rw [List.flatMap_append, List.flatMap_singleton, grounded_append]
    refine ⟨ih fun before p after heq => ?_, h parts part [] rfl⟩
    exact h before p (after ++ [part]) (by rw [heq, List.append_assoc, List.cons_append])

/-- In a grounded list every need is known, or made by an earlier step. -/
theorem grounded_iff :
    Grounded makes needs known steps ↔ ∀ before step after, steps = before ++ step :: after →
      ∀ n ∈ needs step, n ∈ known ∨ ∃ earlier ∈ before, makes earlier = n := by
  constructor
  · intro h before step after heq n hn
    rw [heq, grounded_append] at h
    rcases List.mem_append.mp (h.2.1 hn) with hmade | hknown
    · right
      exact List.mem_map.mp hmade
    · exact .inl hknown
  · intro h
    rw [← List.flatMap_singleton' steps]
    apply grounded_flatMap
    intro before step after heq
    refine ⟨fun n hn => ?_, trivial⟩
    rw [List.flatMap_singleton']
    rcases h before step after heq n hn with hknown | hmade
    · exact List.mem_append_right _ hknown
    · exact List.mem_append_left _ (List.mem_map.mpr hmade)

end BuckosDistro.Lib.Ordered
