/-
  Texts with parentheses: how deep a place of a text is, texts whose parentheses match, and
  what does not occur outside them. Nothing here names the solver.
-/
import BuckosDistro.Lib.PyText

namespace BuckosDistro.Lib.Parens

/-! ## Depth -/

/-- What a character adds to the depth. -/
def shift (c : Char) : ℤ := if c = '(' then 1 else if c = ')' then -1 else 0

/-- How many parentheses a text leaves open. -/
def depth (text : List Char) : ℤ := (text.map shift).sum

section Depth

variable {text : List Char}

@[simp] theorem depth_nil : depth [] = 0 := rfl

@[simp] theorem depth_cons (c : Char) (text : List Char) :
    depth (c :: text) = shift c + depth text := by
  unfold depth
  rw [List.map_cons, List.sum_cons]

@[simp] theorem depth_append (text rest : List Char) :
    depth (text ++ rest) = depth text + depth rest := by
  unfold depth
  rw [List.map_append, List.sum_append]

@[simp] theorem shift_opening : shift '(' = 1 := rfl

@[simp] theorem shift_closing : shift ')' = -1 := rfl

theorem shift_of_ne {c : Char} (ho : c ≠ '(') (hc : c ≠ ')') : shift c = 0 := by
  unfold shift
  rw [if_neg ho, if_neg hc]

theorem depth_of_plain (ho : '(' ∉ text) (hc : ')' ∉ text) : depth text = 0 := by
  induction text with
  | nil => rfl
  | cons c cs ih =>
    rw [List.mem_cons, not_or] at ho hc
    rw [depth_cons, shift_of_ne (Ne.symm ho.1) (Ne.symm hc.1), ih ho.2 hc.2]
    rfl

end Depth

/-! ## Matching parentheses -/

/-- Every parenthesis has its match. -/
structure Balanced (text : List Char) : Prop where
  closed : depth text = 0
  nonneg : ∀ before, before <+: text → 0 ≤ depth before

instance (text : List Char) : Decidable (Balanced text) :=
  decidable_of_iff (depth text = 0 ∧ ∀ before ∈ text.inits, 0 ≤ depth before)
    ⟨fun h => ⟨h.1, fun before hb => h.2 before (List.mem_inits before text |>.mpr hb)⟩,
      fun h => ⟨h.closed, fun before hb => h.nonneg before (List.mem_inits before text |>.mp hb)⟩⟩

/-- A text between a pair of parentheses. -/
def group (body : List Char) : List Char := '(' :: (body ++ [')'])

section Balanced

variable {text rest body before : List Char}

theorem balanced_of_plain (ho : '(' ∉ text) (hc : ')' ∉ text) : Balanced text := by
  refine ⟨depth_of_plain ho hc, fun before hb => ?_⟩
  have hsub := hb.subset
  rw [depth_of_plain (fun h => ho (hsub h)) fun h => hc (hsub h)]

/-- A text that starts two texts ends in the first or goes through it. -/
theorem prefix_of_append {before : List Char} (h : before <+: text ++ rest) :
    before <+: text ∨ ∃ tail, before = text ++ tail ∧ tail <+: rest := by
  obtain hin | ⟨tail, rfl⟩ := List.prefix_or_prefix_of_prefix h (List.prefix_append text rest)
  · exact Or.inl hin
  · exact Or.inr ⟨tail, rfl, (List.prefix_append_right_inj text).mp h⟩

theorem balanced_append (h : Balanced text) (hrest : Balanced rest) : Balanced (text ++ rest) := by
  refine ⟨by rw [depth_append, h.closed, hrest.closed]; rfl, fun before hb => ?_⟩
  obtain hb | ⟨tail, rfl, htail⟩ := prefix_of_append hb
  · exact h.nonneg before hb
  · rw [depth_append, h.closed, zero_add]
    exact hrest.nonneg tail htail

/-- A balanced text cut outside all parentheses is two balanced texts. -/
theorem balanced_of_cut (h : Balanced (text ++ rest)) (hcut : depth text = 0) :
    Balanced text ∧ Balanced rest := by
  have hclosed := h.closed
  rw [depth_append, hcut, zero_add] at hclosed
  refine ⟨⟨hcut, fun before hb => h.nonneg before (hb.trans (List.prefix_append _ _))⟩,
    ⟨hclosed, fun before hb => ?_⟩⟩
  have hnonneg := h.nonneg (text ++ before) (List.prefix_append_right_inj text |>.mpr hb)
  rwa [depth_append, hcut, zero_add] at hnonneg

theorem depth_group (h : Balanced body) : depth (group body) = 0 := by
  unfold group
  rw [depth_cons, depth_append, h.closed]
  rfl

/-- Inside a group the depth is positive. -/
theorem depth_in_group (h : Balanced body) (hb : before <+: group body) :
    before = [] ∨ 1 ≤ depth before ∨ before = group body := by
  unfold group at hb ⊢
  obtain rfl | ⟨inside, rfl, hinside⟩ := List.prefix_cons_iff.mp hb
  · exact Or.inl rfl
  · refine Or.inr ?_
    obtain rfl | hin := List.prefix_concat_iff.mp hinside
    · exact Or.inr rfl
    · left
      have hnonneg := h.nonneg inside hin
      rw [depth_cons, shift_opening]
      omega

theorem balanced_group (h : Balanced body) : Balanced (group body) := by
  refine ⟨depth_group h, fun before hb => ?_⟩
  obtain rfl | hpos | rfl := depth_in_group h hb
  · rfl
  · omega
  · rw [depth_group h]

end Balanced

/-! ## Outside the parentheses -/

/-- A token that does not occur outside all parentheses. -/
def Clear (token text : List Char) : Prop :=
  ∀ before after, text = before ++ token ++ after → depth before ≠ 0

instance (token text : List Char) : Decidable (Clear token text) :=
  decidable_of_iff
    (∀ n ≤ text.length, token <+: text.drop n → depth (text.take n) ≠ 0) (by
      constructor
      · intro h before after he
        have hle : before.length ≤ text.length := by
          rw [he, List.append_assoc, List.length_append]
          omega
        have hn := h before.length hle
        rw [he, List.append_assoc, List.drop_left, List.take_left] at hn
        exact hn (List.prefix_append _ _)
      · intro h n _ ⟨after, hafter⟩
        refine h (text.take n) after ?_
        rw [List.append_assoc, hafter, List.take_append_drop])

end BuckosDistro.Lib.Parens
