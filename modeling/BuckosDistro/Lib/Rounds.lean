/-
  A process that goes on in rounds until its state is final, and is given up when the mark of a
  state comes back. What a round does may depend on its number: the world around the process
  need not answer twice alike. Nothing here names a program.
-/
import Mathlib

namespace BuckosDistro.Lib

/-- A round changes the state, and may fail after it did. -/
structure Rounds (σ μ ε : Type) where
  final : σ → Bool
  mark : σ → μ
  next : ℕ → σ → σ × Option ε

namespace Rounds

/-- How the rounds end. -/
inductive Stop (σ ε : Type) where
  | final (s : σ)
  | repeated (s : σ)
  | failed (e : ε) (s : σ)

variable {σ μ ε : Type}

/-- The rounds from number `n` on; `none` when they are not over after `fuel` of them. -/
def run [DecidableEq μ] (r : Rounds σ μ ε) : ℕ → ℕ → List μ → σ → Option (Stop σ ε)
  | 0, _, _, _ => none
  | fuel + 1, n, seen, s =>
    if r.final s then some (.final s)
    else if r.mark s ∈ seen then some (.repeated s)
    else
      match (r.next n s).2 with
      | some e => some (.failed e (r.next n s).1)
      | none => run r fuel (n + 1) (r.mark s :: seen) (r.next n s).1

/-- The state `k` rounds after `s`, where the next round has number `n`. -/
def after (r : Rounds σ μ ε) (n : ℕ) (s : σ) : ℕ → σ
  | 0 => s
  | k + 1 => (r.next (n + k) (after r n s k)).1

/-- The first `k` rounds go well, each from a state that is not final and has a new mark. -/
structure Went (r : Rounds σ μ ε) (n : ℕ) (seen : List μ) (s : σ) (k : ℕ) : Prop where
  goes : ∀ j < k, r.final (r.after n s j) = false
  ok : ∀ j < k, (r.next (n + j) (r.after n s j)).2 = none
  unseen : ∀ j < k, r.mark (r.after n s j) ∉ seen
  apart : ∀ j < k, ∀ i < j, r.mark (r.after n s i) ≠ r.mark (r.after n s j)

/-- A stop, and the rounds before it. -/
inductive Ended (r : Rounds σ μ ε) (n : ℕ) (seen : List μ) (s : σ) : Stop σ ε → Prop
  | final (k : ℕ) : r.Went n seen s k → r.final (r.after n s k) = true →
      Ended r n seen s (.final (r.after n s k))
  | repeated (k : ℕ) : r.Went n seen s k → r.final (r.after n s k) = false →
      (r.mark (r.after n s k) ∈ seen ∨ ∃ j < k, r.mark (r.after n s j) = r.mark (r.after n s k)) →
      Ended r n seen s (.repeated (r.after n s k))
  | failed (k : ℕ) (e : ε) : r.Went n seen s k → r.final (r.after n s k) = false →
      (r.next (n + k) (r.after n s k)).2 = some e →
      Ended r n seen s (.failed e (r.after n s (k + 1)))

section Run

variable {r : Rounds σ μ ε} {n : ℕ} {seen : List μ} {s : σ}

theorem after_succ (k : ℕ) : r.after n s (k + 1) = r.after (n + 1) (r.next n s).1 k := by
  induction k with
  | zero => rfl
  | succ k ih =>
    have hstep : r.after n s (k + 1 + 1) = (r.next (n + (k + 1)) (r.after n s (k + 1))).1 := rfl
    have hnumber : n + (k + 1) = n + 1 + k := by omega
    rw [hstep, ih, hnumber]
    rfl

theorem went_zero : r.Went n seen s 0 := by
  constructor <;> intro j hj <;> omega

theorem Went.before {j k : ℕ} (h : r.Went n seen s k) (hj : j ≤ k) : r.Went n seen s j where
  goes i hi := h.goes i (hi.trans_le hj)
  ok i hi := h.ok i (hi.trans_le hj)
  unseen i hi := h.unseen i (hi.trans_le hj)
  apart i hi := h.apart i (hi.trans_le hj)

/-- A round before the others. -/
theorem Went.first {k : ℕ} (hgoes : r.final s = false) (hok : (r.next n s).2 = none)
    (hseen : r.mark s ∉ seen) (h : r.Went (n + 1) (r.mark s :: seen) (r.next n s).1 k) :
    r.Went n seen s (k + 1) := by
  constructor
  · intro j hj
    cases j with
    | zero => exact hgoes
    | succ j =>
      rw [after_succ]
      exact h.goes j (by omega)
  · intro j hj
    cases j with
    | zero => exact hok
    | succ j =>
      have hnumber : n + (j + 1) = n + 1 + j := by omega
      rw [after_succ, hnumber]
      exact h.ok j (by omega)
  · intro j hj
    cases j with
    | zero => exact hseen
    | succ j =>
      rw [after_succ]
      exact fun hmem => h.unseen j (by omega) (List.mem_cons_of_mem _ hmem)
  · intro j hj i hi
    cases j with
    | zero => omega
    | succ j =>
      rw [after_succ]
      cases i with
      | zero =>
        intro heq
        refine h.unseen j (by omega) ?_
        rw [← heq]
        exact List.mem_cons_self
      | succ i =>
        rw [after_succ]
        exact h.apart j (by omega) i (by omega)

/-- A round before the others, up to their end. -/
theorem Ended.first {stop : Stop σ ε} (hgoes : r.final s = false) (hok : (r.next n s).2 = none)
    (hseen : r.mark s ∉ seen)
    (h : r.Ended (n + 1) (r.mark s :: seen) (r.next n s).1 stop) : r.Ended n seen s stop := by
  cases h with
  | final k hwent hfinal =>
    rw [← after_succ] at hfinal ⊢
    exact .final (k + 1) (hwent.first hgoes hok hseen) hfinal
  | repeated k hwent hfinal hmark =>
    rw [← after_succ] at hfinal hmark ⊢
    refine .repeated (k + 1) (hwent.first hgoes hok hseen) hfinal ?_
    rcases hmark with hmark | ⟨j, hj, hmark⟩
    · rcases List.mem_cons.mp hmark with heq | hmem
      · exact .inr ⟨0, by omega, heq.symm⟩
      · exact .inl hmem
    · rw [← after_succ] at hmark
      exact .inr ⟨j + 1, by omega, hmark⟩
  | failed k e hwent hfinal hfails =>
    have hnumber : n + 1 + k = n + (k + 1) := by omega
    rw [← after_succ, hnumber] at hfails
    rw [← after_succ] at hfinal ⊢
    exact .failed (k + 1) e (hwent.first hgoes hok hseen) hfinal hfails

variable [DecidableEq μ] {fuel : ℕ}

/-- **How the rounds end**: in a final state, in one whose mark came back, or in a round that
    fails; and the rounds before began in states of different marks. -/
theorem ended_of_run {stop : Stop σ ε} (h : r.run fuel n seen s = some stop) :
    r.Ended n seen s stop := by
  induction fuel generalizing n seen s with
  | zero => exact absurd h.symm (Option.some_ne_none _)
  | succ fuel ih =>
    rw [run] at h
    by_cases hfinal : r.final s = true
    · rw [if_pos hfinal] at h
      obtain rfl := Option.some.inj h
      exact .final 0 went_zero hfinal
    rw [if_neg hfinal] at h
    have hgoes : r.final s = false := Bool.eq_false_iff.mpr hfinal
    split_ifs at h with hseen
    · obtain rfl := Option.some.inj h
      exact .repeated 0 went_zero hgoes (.inl hseen)
    · cases he : (r.next n s).2 with
      | some e =>
        rw [he] at h
        obtain rfl := Option.some.inj h
        exact .failed 0 e went_zero hgoes he
      | none =>
        rw [he] at h
        exact (ih h).first hgoes he hseen

/-- Rounds that are not over went well, and none began in a state of a mark met before. -/
theorem went_of_run (h : r.run fuel n seen s = none) : r.Went n seen s fuel := by
  induction fuel generalizing n seen s with
  | zero => exact went_zero
  | succ fuel ih =>
    rw [run] at h
    split_ifs at h with hfinal hseen
    cases he : (r.next n s).2 with
    | some e =>
      rw [he] at h
      exact absurd h (Option.some_ne_none _)
    | none =>
      rw [he] at h
      exact (ih h).first (Bool.eq_false_iff.mpr hfinal) he hseen

/-- **The rounds are over when the marks run out.** -/
theorem exists_stop {marks : Finset μ}
    (hmarks : ∀ k, r.Went n seen s (k + 1) → r.mark (r.after n s k) ∈ marks)
    (hfuel : marks.card < fuel) : ∃ stop, r.run fuel n seen s = some stop := by
  by_contra hnot
  have hnone : r.run fuel n seen s = none := by
    rw [Option.eq_none_iff_forall_ne_some]
    exact fun stop hstop => hnot ⟨stop, hstop⟩
  have hwent := went_of_run hnone
  have hcard : (Finset.range fuel).card ≤ marks.card := by
    refine Finset.card_le_card_of_injOn (fun k => r.mark (r.after n s k))
      (fun k hk => hmarks k (hwent.before (Finset.mem_range.mp hk))) ?_
    intro i hi j hj heq
    rcases Nat.lt_trichotomy i j with hij | hij | hij
    · exact absurd heq (hwent.apart j (Finset.mem_range.mp hj) i hij)
    · exact hij
    · exact absurd heq.symm (hwent.apart i (Finset.mem_range.mp hi) j hij)
  rw [Finset.card_range] at hcard
  omega

end Run

end Rounds

end BuckosDistro.Lib
