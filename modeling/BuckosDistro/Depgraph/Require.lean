/-
  What one call of `require` can do.

  `require` and `satisfied` recurse through lists of children. The lemmas here turn the
  recursion over a list into membership (`mem_requireEach_pkgs` and its kin), so that the
  proofs of the other modules argue by `Node.induct`: one case for each kind of node, with
  the induction hypothesis for every child.
-/
import BuckosDistro.Depgraph.Closure

namespace BuckosDistro.Depgraph

open BuckosDistro.Lib

/-! ## Induction over a tree -/

/-- Structural induction with the hypothesis stated for every member of a child list. -/
theorem Node.induct {motive : Node → Prop} (cap : ∀ text, motive (.cap text))
    (and : ∀ cs, (∀ c ∈ cs, motive c) → motive (.and cs))
    (or : ∀ cs, (∀ c ∈ cs, motive c) → motive (.or cs))
    (with_ : ∀ cs, (∀ c ∈ cs, motive c) → motive (.with cs))
    (without : ∀ l r, motive l → motive r → motive (.without l r))
    (if_ : ∀ t c o, motive t → motive c → (∀ e ∈ o, motive e) → motive (.if t c o))
    (unless_ : ∀ t c o, motive t → motive c → (∀ e ∈ o, motive e) → motive (.unless t c o))
    (n : Node) : motive n :=
  @Node.rec motive (fun cs => ∀ c ∈ cs, motive c) (fun o => ∀ e ∈ o, motive e)
    cap and or with_ without if_ unless_
    (fun _ h => absurd h List.not_mem_nil)
    (fun _ _ hc hcs c h => (List.mem_cons.mp h).elim (fun e => e ▸ hc) (hcs c))
    (fun _ h => absurd h (by simp))
    (fun _ hn e h => Option.some.inj h ▸ hn) n

/-! ## Outcomes -/

namespace Outcome

@[simp] theorem pkgs_found (ps : List String) : (found ps).pkgs = ps := rfl
@[simp] theorem got_found (ps : List String) : (found ps).got = some ps := rfl
@[simp] theorem pending_found (ps : List String) : (found ps).pending = [] := rfl
@[simp] theorem choices_found (ps : List String) : (found ps).choices = [] := rfl
@[simp] theorem problems_found (ps : List String) : (found ps).problems = [] := rfl

@[simp] theorem pkgs_later : later.pkgs = [] := rfl
@[simp] theorem got_later : later.got = none := rfl
@[simp] theorem pending_later : later.pending = [] := rfl
@[simp] theorem choices_later : later.choices = [] := rfl
@[simp] theorem problems_later : later.problems = [] := rfl

@[simp] theorem pkgs_problem (k d w : String) : (problem k d w).pkgs = [] := rfl
@[simp] theorem got_problem (k d w : String) : (problem k d w).got = some [] := rfl
@[simp] theorem pending_problem (k d w : String) : (problem k d w).pending = [] := rfl
@[simp] theorem choices_problem (k d w : String) : (problem k d w).choices = [] := rfl
@[simp] theorem problems_problem (k d w : String) : (problem k d w).problems = [⟨k, d, w⟩] := rfl

@[simp] theorem pkgs_choice (e : String) (as : List String) (w : String) :
    (choice e as w).pkgs = [] := rfl
@[simp] theorem got_choice (e : String) (as : List String) (w : String) :
    (choice e as w).got = some [] := rfl
@[simp] theorem pending_choice (e : String) (as : List String) (w : String) :
    (choice e as w).pending = [] := rfl
@[simp] theorem choices_choice (e : String) (as : List String) (w : String) :
    (choice e as w).choices = [⟨e, as, w⟩] := rfl
@[simp] theorem problems_choice (e : String) (as : List String) (w : String) :
    (choice e as w).problems = [] := rfl

@[simp] theorem pkgs_orPending (o : Outcome) (n : Node) (w : String) :
    (o.orPending n w).pkgs = o.pkgs := by
  unfold orPending; cases h : o.got <;> simp [pkgs, h]

@[simp] theorem choices_orPending (o : Outcome) (n : Node) (w : String) :
    (o.orPending n w).choices = o.choices := by
  unfold orPending; cases o.got <;> rfl

@[simp] theorem problems_orPending (o : Outcome) (n : Node) (w : String) :
    (o.orPending n w).problems = o.problems := by
  unfold orPending; cases o.got <;> rfl

theorem mem_pending_orPending {o : Outcome} {n : Node} {w : String} {q : Node × String} :
    q ∈ (o.orPending n w).pending ↔ q ∈ o.pending ∨ (o.got = none ∧ q = (n, w)) := by
  unfold orPending; cases o.got <;> simp

@[simp] theorem pkgs_andThen (o o' : Outcome) : (o.andThen o').pkgs = o.pkgs ++ o'.pkgs := rfl
@[simp] theorem got_andThen (o o' : Outcome) :
    (o.andThen o').got = some (o.pkgs ++ o'.pkgs) := rfl
@[simp] theorem pending_andThen (o o' : Outcome) :
    (o.andThen o').pending = o.pending ++ o'.pending := rfl
@[simp] theorem choices_andThen (o o' : Outcome) :
    (o.andThen o').choices = o.choices ++ o'.choices := rfl
@[simp] theorem problems_andThen (o o' : Outcome) :
    (o.andThen o').problems = o.problems ++ o'.problems := rfl

/-- An outcome that is neither a demand nor a postponement: no `None`, nothing pending. -/
def Prompt (o : Outcome) : Prop := o.got.isSome ∧ o.pending = []

end Outcome

/-! ## Lists of children -/

theorem anySatisfied_eq (L : Lookup) (seen : Finset String) (cs : List Node) :
    anySatisfied L seen cs = cs.any (satisfied L seen) := by
  induction cs with
  | nil => rfl
  | cons c cs ih => simp [anySatisfied, ih]

theorem allSatisfied_eq (L : Lookup) (seen : Finset String) (cs : List Node) :
    allSatisfied L seen cs = cs.all (satisfied L seen) := by
  induction cs with
  | nil => rfl
  | cons c cs ih => simp [allSatisfied, ih]

section RequireEach

variable {L : Lookup} {seen : Finset String} {who : String} {final : Bool}

theorem mem_requireEach_pkgs {cs : List Node} {p : String} :
    p ∈ (requireEach L seen who final cs).pkgs ↔
      ∃ c ∈ cs, p ∈ (require L seen who final c).pkgs := by
  induction cs with
  | nil => simp [requireEach]
  | cons c cs ih => simp [requireEach, ih]

theorem mem_requireEach_choices {cs : List Node} {ch : Choice} :
    ch ∈ (requireEach L seen who final cs).choices ↔
      ∃ c ∈ cs, ch ∈ (require L seen who final c).choices := by
  induction cs with
  | nil => simp [requireEach]
  | cons c cs ih => simp [requireEach, ih]

theorem mem_requireEach_problems {cs : List Node} {pr : Problem} :
    pr ∈ (requireEach L seen who final cs).problems ↔
      ∃ c ∈ cs, pr ∈ (require L seen who final c).problems := by
  induction cs with
  | nil => simp [requireEach]
  | cons c cs ih => simp [requireEach, ih]

theorem mem_requireEach_pending {cs : List Node} {q : Node × String} :
    q ∈ (requireEach L seen who final cs).pending ↔
      ∃ c ∈ cs, q ∈ (require L seen who final c).pending ∨
        ((require L seen who final c).got = none ∧ q = (c, who)) := by
  induction cs with
  | nil => simp [requireEach]
  | cons c cs ih => simp [requireEach, ih, Outcome.mem_pending_orPending]

theorem requireEach_got_isSome (cs : List Node) :
    (requireEach L seen who final cs).got.isSome := by
  cases cs <;> rfl

end RequireEach

/-! ## Leaves and selections -/

theorem resolve_prompt (L : Lookup) (who cap : String) : (resolve L who cap).Prompt := by
  unfold resolve
  split <;> exact ⟨rfl, rfl⟩

theorem resolveRange_prompt (L : Lookup) (who : String) (caps : List String) :
    (resolveRange L who caps).Prompt := by
  unfold resolveRange
  dsimp only
  repeat' split
  all_goals exact ⟨rfl, rfl⟩

theorem requireTogether_prompt (L : Lookup) (who : String) (node : Node) :
    (requireTogether L who node).Prompt := by
  unfold requireTogether
  split
  · exact resolveRange_prompt L who _
  · dsimp only
    repeat' split
    all_goals exact ⟨rfl, rfl⟩

theorem requireOneOf_prompt (L : Lookup) (who : String) (node : Node) :
    (requireOneOf L who node).Prompt := by
  unfold requireOneOf
  dsimp only
  repeat' split
  all_goals exact ⟨rfl, rfl⟩

/-! ## Postponement -/

/-- The two kinds of node that can say `None`. -/
def Node.Conditional : Node → Prop
  | .if _ _ _ | .unless _ _ _ => True
  | _ => False

theorem require_got_isSome {L : Lookup} {seen : Finset String} {who : String} {final : Bool}
    {n : Node} (h : ¬ n.Conditional) : (require L seen who final n).got.isSome := by
  cases n with
  | cap text => exact (resolve_prompt L who _).1
  | and cs => exact requireEach_got_isSome cs
  | or cs =>
    simp only [require]
    split
    · rfl
    · exact (requireOneOf_prompt L who _).1
  | «with» cs => exact (requireTogether_prompt L who _).1
  | without l r => exact (requireTogether_prompt L who _).1
  | «if» t c o => exact absurd trivial h
  | «unless» t c o => exact absurd trivial h

theorem conditional_of_later {L : Lookup} {seen : Finset String} {who : String}
    {final : Bool} {n : Node} (h : (require L seen who final n).got = none) :
    n.Conditional := by
  by_contra hn
  have : (require L seen who final n).got.isSome := require_got_isSome hn
  simp [h] at this

/-- Only a chain of conditionals says `None`, and it appends nothing then. -/
theorem require_later {L : Lookup} {seen : Finset String} {who : String} {final : Bool}
    {n : Node} (h : (require L seen who final n).got = none) :
    require L seen who final n = .later := by
  induction n using Node.induct with
  | cap _ | and _ _ | or _ _ | with_ _ _ | without _ _ _ _ =>
    exact (conditional_of_later h).elim
  | if_ t c o iht _ iho =>
    cases o with
    | none =>
      simp only [require] at h ⊢
      split at h
      · rename_i hc; rw [if_pos hc]; exact iht h
      · rename_i hc; rw [if_neg hc]
    | some e =>
      simp only [require] at h ⊢
      split at h
      · rename_i hc; rw [if_pos hc]; exact iht h
      · rename_i hc; rw [if_neg hc]; exact iho e rfl h
  | unless_ t c o iht _ iho =>
    cases o with
    | none =>
      simp only [require] at h ⊢
      split at h
      · simp at h
      · rename_i hc
        rw [if_neg hc]
        split at h
        · rename_i hf; rw [if_pos hf]; exact iht h
        · rename_i hf; rw [if_neg hf]
    | some e =>
      simp only [require] at h ⊢
      split at h
      · rename_i hc; rw [if_pos hc]; exact iho e rfl h
      · rename_i hc
        rw [if_neg hc]
        split at h
        · rename_i hf; rw [if_pos hf]; exact iht h
        · rename_i hf; rw [if_neg hf]

/-- An expression still postponed at a final pass is true of the set: every condition on
    the way down is false and its `else` missing, or leads to such an expression. -/
theorem satisfied_of_require_later {L : Lookup} {seen : Finset String} {who : String}
    {n : Node} (h : (require L seen who true n).got = none) : satisfied L seen n = true := by
  induction n using Node.induct with
  | cap _ | and _ _ | or _ _ | with_ _ _ | without _ _ _ _ =>
    exact (conditional_of_later h).elim
  | if_ t c o iht _ iho =>
    cases o with
    | none =>
      simp only [require] at h
      split at h
      · rename_i hc; simp [satisfied, hc, iht h]
      · rename_i hc; simp [satisfied, hc]
    | some e =>
      simp only [require] at h
      split at h
      · rename_i hc; simp [satisfied, hc, iht h]
      · rename_i hc; simp [satisfied, hc, iho e rfl h]
  | unless_ t c o iht _ iho =>
    cases o with
    | none =>
      simp only [require] at h
      split at h
      · simp at h
      · rename_i hc; simp at h; simp [satisfied, hc, iht h]
    | some e =>
      simp only [require] at h
      split at h
      · rename_i hc; simp [satisfied, hc, iho e rfl h]
      · rename_i hc; simp at h; simp [satisfied, hc, iht h]

end BuckosDistro.Depgraph
