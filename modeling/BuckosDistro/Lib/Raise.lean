/-
  Checks that raise: a function of the source that returns unless one of its checks fails is
  a chain in `Except`, and what it returns is characterised by what the checks let through.
-/
import BuckosDistro.Lib.Lists

namespace BuckosDistro.Lib

variable {ε α β σ : Type}

/-- `if bad: raise Error(text)` -/
def raiseIf (bad : Prop) [Decidable bad] (text : ε) : Except ε Unit :=
  if bad then .error text else .ok ()

/-- A value that has to be there. -/
def needed (value : Option α) (text : ε) : Except ε α :=
  match value with
  | some a => .ok a
  | none => .error text

namespace Raise

@[simp] theorem raiseIf_ok {bad : Prop} [Decidable bad] {text : ε} {u : Unit} :
    raiseIf bad text = .ok u ↔ ¬ bad := by
  unfold raiseIf
  split_ifs with h
  · exact ⟨fun he => (nomatch he), fun hn => absurd h hn⟩
  · exact ⟨fun _ => h, fun _ => rfl⟩

@[simp] theorem needed_ok {value : Option α} {text : ε} {a : α} :
    needed value text = .ok a ↔ value = some a := by
  cases value with
  | none => exact ⟨fun h => (nomatch h), fun h => (nomatch h)⟩
  | some b => exact ⟨fun h => congrArg some (Except.ok.inj h), fun h => by rw [h]; rfl⟩

/-- What comes after a computation that returned. -/
@[simp] theorem bind_ok {x : Except ε α} {f : α → Except ε β} {b : β} :
    (x >>= f) = .ok b ↔ ∃ a, x = .ok a ∧ f a = .ok b := by
  constructor
  · exact Lists.exists_of_bind
  · rintro ⟨a, rfl, h⟩
    exact h

@[simp] theorem pure_ok {a b : α} : (pure a : Except ε α) = .ok b ↔ a = b := by
  constructor
  · exact Except.ok.inj
  · intro h
    rw [h]
    rfl

end Raise

end BuckosDistro.Lib
