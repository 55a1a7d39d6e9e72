/-
  Machines that take one step at a time and stop.

  A machine is a function `f : σ → σ` with a predicate `Done`; its runs are the iterates
  of `f`. Two rules are used by every loop of the development: an invariant holds along a
  run (Mathlib's `Function.Iterate.rec`), and a machine whose steps decrease a
  well-founded relation until it is done gets done. The third is for machines that stay
  where they are once done: what such a run ends in does not depend on how long one waits.
  The steps until then can be counted (`steps`). The last rule compares the runs of two
  machines.
-/
import Mathlib

namespace BuckosDistro.Lib.Machine

variable {σ : Type*} {f : σ → σ}

/-- Steps that decrease a well-founded relation as long as they do not end in a state that
    is done reach one. -/
theorem exists_done {r : σ → σ → Prop} (hwf : WellFounded r) (Inv Done : σ → Prop)
    (hinv : ∀ s, Inv s → Inv (f s))
    (hdec : ∀ s, Inv s → ¬ Done s → ¬ Done (f s) → r (f s) s)
    (s : σ) (hs : Inv s) : ∃ n, Done (f^[n] s) := by
  induction s using hwf.induction with
  | _ s ih =>
    by_cases hd : Done s
    · exact ⟨0, hd⟩
    by_cases hd' : Done (f s)
    · exact ⟨1, hd'⟩
    obtain ⟨n, hn⟩ := ih (f s) (hdec s hs hd hd') (hinv s hs)
    exact ⟨n + 1, hn⟩

/-- A relation that every step respects holds between a state and any later one. -/
theorem later_of_step {R : σ → σ → Prop} (hrefl : ∀ s, R s s)
    (htrans : ∀ a b c, R a b → R b c → R a c) (hstep : ∀ s, R s (f s)) (s : σ)
    {m n : ℕ} (h : m ≤ n) : R (f^[m] s) (f^[n] s) := by
  obtain ⟨k, rfl⟩ := Nat.exists_eq_add_of_le h
  induction k with
  | zero => exact hrefl _
  | succ k ih =>
    refine htrans _ _ _ (ih (Nat.le_add_right m k)) ?_
    rw [← Nat.add_assoc, Function.iterate_succ_apply']
    exact hstep _

/-- A machine that rests once done ends in one state, however long one waits. -/
theorem rest {Done : σ → Prop} (hrest : ∀ s, Done s → f s = s) (s : σ) {m n : ℕ}
    (h : m ≤ n) (hd : Done (f^[m] s)) : f^[n] s = f^[m] s := by
  obtain ⟨k, rfl⟩ := Nat.exists_eq_add_of_le h
  induction k with
  | zero => rfl
  | succ k ih =>
    rw [← Nat.add_assoc, Function.iterate_succ_apply', ih (Nat.le_add_right m k)]
    exact hrest _ hd

/-- Two ends of one run are the same state. -/
theorem end_unique (Done : σ → Prop) (hrest : ∀ s, Done s → f s = s) (s : σ) {m n : ℕ}
    (hm : Done (f^[m] s)) (hn : Done (f^[n] s)) : f^[m] s = f^[n] s := by
  rcases Nat.le_total m n with h | h
  · exact (rest hrest s h hm).symm
  · exact rest hrest s h hn

/-! ## Counting the steps -/

section Steps

variable {Done : σ → Prop}

/-- The states from which the machine gets done. -/
abbrev Ending (f : σ → σ) (Done : σ → Prop) := {s : σ // ∃ n, Done (f^[n] s)}

/-- The state after one that is not done. -/
def Ending.next (s : Ending f Done) (h : ¬ Done s.val) : Ending f Done :=
  ⟨f s.val, by
    obtain ⟨s, _ | n, hn⟩ := s
    · exact absurd hn h
    · exact ⟨n, hn⟩⟩

/-- The steps of a machine that is not done. -/
def Trip (t s : Ending f Done) : Prop := ∃ h : ¬ Done s.val, t = s.next h

theorem wellFounded_trip : WellFounded (Trip : Ending f Done → Ending f Done → Prop) := by
  refine ⟨fun ⟨s, n, hn⟩ => ?_⟩
  induction n generalizing s with
  | zero => exact ⟨_, fun _ ⟨h, _⟩ => absurd hn h⟩
  | succ n ih =>
    refine ⟨_, fun t ht => ?_⟩
    obtain ⟨_, rfl⟩ := ht
    exact ih (f s) hn

/-- A proof that steps end, of which the first `n` can be unfolded without the proof given. -/
theorem acc_open {α : Sort*} {r : α → α → Prop} (n : ℕ) : ∀ {a}, Acc r a → Acc r a := by
  induction n with
  | zero => exact fun h => h
  | succ n ih => exact fun h => ⟨_, fun b hb => ih (h.inv hb)⟩

variable [DecidablePred Done]

/-- The number of steps until the machine is done. Evaluated in a proof it counts some
    thousands. -/
def steps (s : Ending f Done) : ℕ :=
  WellFounded.fix ⟨fun s => acc_open 10000 (wellFounded_trip.apply s)⟩
    (fun (s : Ending f Done) next =>
      if h : Done s.val then 0 else next (s.next h) ⟨h, rfl⟩ + 1) s

theorem steps_eq (s : Ending f Done) :
    steps s = if h : Done s.val then 0 else steps (s.next h) + 1 := by
  unfold steps
  rw [WellFounded.fix_eq]

/-- After them it is done. -/
theorem steps_spec (s : Ending f Done) : Done (f^[steps s] s.val) := by
  obtain ⟨s, n, hn⟩ := s
  induction n generalizing s with
  | zero =>
    have hd : Done s := hn
    rw [steps_eq, dif_pos hd]
    exact hd
  | succ n ih =>
    rw [steps_eq]
    by_cases hd : Done s
    · rw [dif_pos hd]
      exact hd
    · rw [dif_neg hd]
      exact ih (f s) hn

end Steps

/-! ## Two machines -/

/-- A machine follows another when it can answer every step of it with some of its own. -/
theorem follows {τ : Type*} {g : τ → τ} {R : σ → τ → Prop}
    (hstep : ∀ s t, R s t → ∃ k, R (f s) (g^[k] t)) {s : σ} {t : τ} (h : R s t) (n : ℕ) :
    ∃ m, R (f^[n] s) (g^[m] t) := by
  induction n with
  | zero => exact ⟨0, h⟩
  | succ n ih =>
    obtain ⟨m, hm⟩ := ih
    obtain ⟨k, hk⟩ := hstep _ _ hm
    refine ⟨k + m, ?_⟩
    rw [Function.iterate_succ_apply', Function.iterate_add_apply]
    exact hk

end BuckosDistro.Lib.Machine
