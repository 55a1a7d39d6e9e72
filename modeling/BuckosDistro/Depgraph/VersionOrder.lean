/-
  What rpm's version comparison means.

  A version is read as a list of marks: its digit runs, its letter runs, the operators `~`
  and `^`, and the end. `rpmvercmp` compares these lists at the first difference
  (`rpmvercmp_eq`), so it is the comparison of a linear order and everything about its
  order follows from that. `compare_evr` is the same for triples.
-/
import BuckosDistro.Depgraph.RpmVerCmp

namespace BuckosDistro.Depgraph

open BuckosDistro.Lib

/-! ## Signs -/

section Sign

variable {α β : Type*} [LinearOrder α] [LinearOrder β]

/-- -1, 0 or 1, as the first is less than, equal to or greater than the second. -/
def orderSign (a b : α) : Int := if a = b then 0 else if b < a then 1 else -1

@[simp] theorem orderSign_self (a : α) : orderSign a a = 0 := by simp [orderSign]

theorem orderSign_of_lt {a b : α} (h : a < b) : orderSign a b = -1 := by
  simp [orderSign, h.ne, h.le]

theorem orderSign_of_gt {a b : α} (h : b < a) : orderSign a b = 1 := by
  simp [orderSign, h.ne', h]

theorem orderSign_eq_zero {a b : α} : orderSign a b = 0 ↔ a = b := by
  unfold orderSign
  split_ifs with h <;> simp [h]

theorem orderSign_nonpos {a b : α} : orderSign a b ≤ 0 ↔ a ≤ b := by
  rcases lt_trichotomy a b with h | h | h
  · simp [orderSign_of_lt h, h.le]
  · simp [h]
  · simp [orderSign_of_gt h, not_le.mpr h]

theorem orderSign_swap (a b : α) : orderSign a b = -orderSign b a := by
  rcases lt_trichotomy a b with h | h | h
  · rw [orderSign_of_lt h, orderSign_of_gt h]
  · simp [h]
  · rw [orderSign_of_gt h, orderSign_of_lt h]
    rfl

/-- Two orders with the same strict part on two pairs give the same sign. -/
theorem orderSign_congr {a b : α} {c d : β} (hlt : a < b ↔ c < d) (hgt : b < a ↔ d < c) :
    orderSign a b = orderSign c d := by
  rcases lt_trichotomy a b with h | h | h
  · rw [orderSign_of_lt h, orderSign_of_lt (hlt.mp h)]
  · have hc : c = d := by
      refine le_antisymm (not_lt.mp fun h' => ?_) (not_lt.mp fun h' => ?_)
      · exact (hgt.mpr h').ne h.symm
      · exact (hlt.mpr h').ne h
    simp [h, hc]
  · rw [orderSign_of_gt h, orderSign_of_gt (hgt.mp h)]

/-- Lists are compared at the first difference. -/
theorem orderSign_cons (a b : α) (l m : List α) :
    orderSign (a :: l) (b :: m) = if a = b then orderSign l m else orderSign a b := by
  split_ifs with h
  · subst h
    exact orderSign_congr (by simp) (by simp)
  · exact orderSign_congr (by simp [List.cons_lt_cons_iff, h])
      (by simp [List.cons_lt_cons_iff, Ne.symm h])

end Sign

/-! ## Marks -/

/-- What a comparison sees of a version. -/
inductive Mark where
  | tilde
  | stop
  | caret
  | letters (run : List Char)
  | digits (value : ℕ)
deriving DecidableEq, Repr

namespace Mark

/-- `~` before the end, the end before `^`, `^` before letters, letters before digits. -/
def rank : Mark → ℕ
  | tilde => 0 | stop => 1 | caret => 2 | letters _ => 3 | digits _ => 4

/-- The number of a digit run. -/
def value : Mark → ℕ
  | digits n => n | _ => 0

/-- The text of a letter run. -/
def run : Mark → List Char
  | letters cs => cs | _ => []

/-- The order of the marks: by rank, then by number or by text. -/
def key (m : Mark) : ℕ ×ₗ ℕ ×ₗ List Char := toLex (m.rank, toLex (m.value, m.run))

theorem key_injective : Function.Injective key := by
  intro m m' h
  simp only [key, EmbeddingLike.apply_eq_iff_eq, Prod.mk.injEq] at h
  obtain ⟨h1, h2, h3⟩ := h
  cases m <;> cases m' <;> simp_all [rank, value, run]

instance : LinearOrder Mark := LinearOrder.lift' key key_injective

theorem lt_iff_key {m m' : Mark} : m < m' ↔ m.key < m'.key := Iff.rfl

theorem lt_of_rank {m m' : Mark} (h : m.rank < m'.rank) : m < m' :=
  lt_iff_key.mpr (Prod.Lex.toLex_lt_toLex.mpr (.inl h))

theorem orderSign_of_rank_lt {m m' : Mark} (h : m.rank < m'.rank) : orderSign m m' = -1 :=
  orderSign_of_lt (lt_of_rank h)

theorem orderSign_of_rank_gt {m m' : Mark} (h : m'.rank < m.rank) : orderSign m m' = 1 :=
  orderSign_of_gt (lt_of_rank h)

theorem orderSign_digits (n n' : ℕ) : orderSign (digits n) (digits n') = orderSign n n' := by
  refine orderSign_congr ?_ ?_ <;>
    simp [lt_iff_key, key, Prod.Lex.toLex_lt_toLex, rank, value, run]

theorem orderSign_letters (l l' : List Char) :
    orderSign (letters l) (letters l') = orderSign l l' := by
  refine orderSign_congr ?_ ?_ <;>
    simp [lt_iff_key, key, Prod.Lex.toLex_lt_toLex, rank, value, run]

end Mark

/-- The number a run of digits writes. -/
def runValue (run : List Char) : ℕ := run.foldl (fun n c => 10 * n + (c.toNat - 48)) 0

/-- The marks of a version: maximal runs of digits and of letters, the two operators, and
    the end; everything else is skipped. -/
def marks : List Char → List Mark
  | [] => [.stop]
  | c :: cs =>
    if c = '~' then .tilde :: marks cs
    else if c = '^' then .caret :: marks cs
    else if isDigit c then
      .digits (runValue (c :: cs.takeWhile isDigit)) :: marks (cs.dropWhile isDigit)
    else if isAlpha c then
      .letters (c :: cs.takeWhile isAlpha) :: marks (cs.dropWhile isAlpha)
    else marks cs
  termination_by cs => cs.length
  decreasing_by
    all_goals simp_wf
    all_goals have := List.length_dropWhile_le isDigit cs
    all_goals have := List.length_dropWhile_le isAlpha cs
    all_goals omega

/-! ## Characters of one kind -/

section Kinds

theorem isDigit_iff {c : Char} : isDigit c = true ↔ '0' ≤ c ∧ c ≤ '9' := by
  simp [isDigit]

theorem toNat_of_isDigit {c : Char} (h : isDigit c = true) : 48 ≤ c.toNat ∧ c.toNat ≤ 57 := by
  obtain ⟨h1, h2⟩ := isDigit_iff.mp h
  exact ⟨h1, h2⟩

theorem not_isDigit_of_isAlpha {c : Char} (h : isAlpha c = true) : isDigit c = false := by
  by_contra hd
  rw [Bool.not_eq_false] at hd
  have hn := toNat_of_isDigit hd
  simp only [isAlpha, Bool.or_eq_true, Bool.and_eq_true, decide_eq_true_eq] at h
  rcases h with ⟨h1, _⟩ | ⟨h1, _⟩
  · have : (97 : ℕ) ≤ c.toNat := h1
    omega
  · have : (65 : ℕ) ≤ c.toNat := h1
    omega

/-- Where a version goes on once the separators are skipped. -/
inductive Head : List Char → Prop
  | stop : Head []
  | tilde {cs} : Head ('~' :: cs)
  | caret {cs} : Head ('^' :: cs)
  | digit {c cs} : isDigit c = true → c ≠ '~' → c ≠ '^' → Head (c :: cs)
  | alpha {c cs} : isAlpha c = true → isDigit c = false → c ≠ '~' → c ≠ '^' → Head (c :: cs)

theorem head_dropWhile (cs : List Char) : Head (cs.dropWhile isSeparator) := by
  induction cs with
  | nil => exact .stop
  | cons c cs ih =>
    rw [List.dropWhile_cons]
    split_ifs with h
    · exact ih
    · have hs : isSeparator c = false := by simpa using h
      by_cases h1 : c = '~'
      · subst h1
        exact .tilde
      · by_cases h2 : c = '^'
        · subst h2
          exact .caret
        · have hn : isAlnum c = true := by simpa [isSeparator, h1, h2] using hs
          cases hd : isDigit c with
          | true => exact .digit hd h1 h2
          | false => exact .alpha (by simpa [isAlnum, hd] using hn) hd h1 h2

theorem marks_dropWhile (cs : List Char) : marks (cs.dropWhile isSeparator) = marks cs := by
  induction cs with
  | nil => rfl
  | cons c cs ih =>
    rw [List.dropWhile_cons]
    split_ifs with h
    · rw [ih]
      simp only [isSeparator, isAlnum, Bool.and_eq_true, Bool.not_eq_true', Bool.or_eq_false_iff,
        bne_iff_ne] at h
      simp [marks, h]
    · rfl

end Kinds

/-! ## Digit runs as numbers -/

section Numbers

theorem runValue_foldl (cs : List Char) (n : ℕ) :
    cs.foldl (fun n c => 10 * n + (c.toNat - 48)) n = n * 10 ^ cs.length + runValue cs := by
  unfold runValue
  induction cs generalizing n with
  | nil => simp
  | cons c cs ih =>
    rw [List.foldl_cons, List.foldl_cons, ih, ih (10 * 0 + (c.toNat - 48)), List.length_cons,
      pow_succ]
    ring

theorem runValue_cons (c : Char) (cs : List Char) :
    runValue (c :: cs) = (c.toNat - 48) * 10 ^ cs.length + runValue cs := by
  have h := runValue_foldl cs (10 * 0 + (c.toNat - 48))
  simpa [runValue] using h

theorem runValue_lt {cs : List Char} (h : ∀ c ∈ cs, isDigit c = true) :
    runValue cs < 10 ^ cs.length := by
  induction cs with
  | nil => simp [runValue]
  | cons c cs ih =>
    have hc := toNat_of_isDigit (h c (List.mem_cons_self ..))
    have hcs := ih fun d hd => h d (List.mem_cons_of_mem _ hd)
    rw [runValue_cons, List.length_cons, pow_succ]
    have : (c.toNat - 48) * 10 ^ cs.length ≤ 9 * 10 ^ cs.length :=
      Nat.mul_le_mul_right _ (by omega)
    omega

theorem runValue_dropWhile (cs : List Char) :
    runValue (cs.dropWhile (· == '0')) = runValue cs := by
  induction cs with
  | nil => rfl
  | cons c cs ih =>
    rw [List.dropWhile_cons]
    split_ifs with h
    · have hc : c = '0' := by simpa using h
      rw [ih, runValue_cons, hc]
      simp
    · rfl

/-- A run without leading zeros has the length its number needs. -/
theorem le_runValue {c : Char} {cs : List Char} (hc : isDigit c = true) (h0 : c ≠ '0') :
    10 ^ cs.length ≤ runValue (c :: cs) := by
  have hn := toNat_of_isDigit hc
  have h48 : c.toNat ≠ 48 := fun h => h0 (Char.toNat_inj.mp h)
  rw [runValue_cons]
  have : 1 * 10 ^ cs.length ≤ (c.toNat - 48) * 10 ^ cs.length :=
    Nat.mul_le_mul_right _ (by omega)
  omega

theorem lt_iff_toNat {c d : Char} : c < d ↔ c.toNat < d.toNat := Iff.rfl

/-- Runs of one length are in the order of their numbers. -/
theorem orderSign_runs {cs ds : List Char} (hc : ∀ c ∈ cs, isDigit c = true)
    (hd : ∀ d ∈ ds, isDigit d = true) (hl : cs.length = ds.length) :
    orderSign cs ds = orderSign (runValue cs) (runValue ds) := by
  induction cs generalizing ds with
  | nil =>
    rw [List.length_nil] at hl
    rw [List.eq_nil_of_length_eq_zero hl.symm]
    simp
  | cons c cs ih =>
    rcases ds with _ | ⟨d, ds⟩
    · simp at hl
    have hl' : cs.length = ds.length := by simpa using hl
    have hcs : ∀ x ∈ cs, isDigit x = true := fun x hx => hc x (List.mem_cons_of_mem _ hx)
    have hds : ∀ x ∈ ds, isDigit x = true := fun x hx => hd x (List.mem_cons_of_mem _ hx)
    have h1 := toNat_of_isDigit (hc c (List.mem_cons_self ..))
    have h2 := toNat_of_isDigit (hd d (List.mem_cons_self ..))
    have b1 := runValue_lt hcs
    have b2 := runValue_lt hds
    rw [← hl'] at b2
    rw [orderSign_cons, runValue_cons, runValue_cons, ← hl']
    split_ifs with h
    · subst h
      rw [ih hcs hds hl']
      exact orderSign_congr (by omega) (by omega)
    · have hstep : ∀ {a b x y : ℕ}, a < b → x < 10 ^ cs.length →
          a * 10 ^ cs.length + x < b * 10 ^ cs.length + y := by
        intro a b x y hab hx
        have : (a + 1) * 10 ^ cs.length ≤ b * 10 ^ cs.length := Nat.mul_le_mul_right _ hab
        rw [Nat.add_mul] at this
        omega
      rcases lt_or_gt_of_ne h with hlt | hgt
      · have hn := lt_iff_toNat.mp hlt
        rw [orderSign_of_lt hlt, orderSign_of_lt (hstep (by omega) b1)]
      · have hn := lt_iff_toNat.mp hgt
        rw [orderSign_of_gt hgt, orderSign_of_gt (hstep (by omega) b2)]

/-- Of two runs without leading zeros the longer one is the greater number. -/
theorem runValue_lt_of_length {cs ds : List Char} (hc : ∀ c ∈ cs, isDigit c = true)
    (hd : ∀ d ∈ ds, isDigit d = true) (h0 : ds.head? ≠ some '0') (hl : cs.length < ds.length) :
    runValue cs < runValue ds := by
  rcases ds with _ | ⟨d, ds⟩
  · simp at hl
  · have h1 := runValue_lt hc
    have h2 := @le_runValue d ds (hd d (List.mem_cons_self ..)) (by simpa using h0)
    have h3 : 10 ^ cs.length ≤ 10 ^ ds.length :=
      Nat.pow_le_pow_right (by omega) (by simpa [Nat.lt_succ_iff] using hl)
    omega

theorem sign_of_texts (one two : List Char) :
    (if one != two then if one > two then 1 else -1 else 0) = orderSign one two := by
  simp only [orderSign, bne_iff_ne, ite_not]
  congr

theorem compareSegments_digits {cs ds : List Char} (hc : ∀ c ∈ cs, isDigit c = true)
    (hd : ∀ d ∈ ds, isDigit d = true) :
    compareSegments true cs ds = orderSign (runValue cs) (runValue ds) := by
  rw [← runValue_dropWhile cs, ← runValue_dropWhile ds]
  have hc' : ∀ c ∈ cs.dropWhile (· == '0'), isDigit c = true := fun c h =>
    hc c (List.dropWhile_subset _ h)
  have hd' : ∀ d ∈ ds.dropWhile (· == '0'), isDigit d = true := fun d h =>
    hd d (List.dropWhile_subset _ h)
  have h0 : ∀ l : List Char, (l.dropWhile (· == '0')).head? ≠ some '0' := by
    intro l h
    have := List.head?_dropWhile_not (· == '0') l
    rw [h] at this
    simp at this
  unfold compareSegments
  simp only [if_true, Bool.true_and]
  generalize hx : cs.dropWhile (· == '0') = x at hc' ⊢
  generalize hy : ds.dropWhile (· == '0') = y at hd' ⊢
  have hx0 : x.head? ≠ some '0' := hx ▸ h0 cs
  have hy0 : y.head? ≠ some '0' := hy ▸ h0 ds
  rcases lt_trichotomy x.length y.length with h | h | h
  · rw [orderSign_of_lt (runValue_lt_of_length hc' hd' hy0 h)]
    simp [h.ne, h.le]
  · have hl : (x.length != y.length) = false := by simp [h]
    rw [hl, if_neg Bool.false_ne_true, ← orderSign_runs hc' hd' h]
    exact sign_of_texts x y
  · rw [orderSign_of_gt (runValue_lt_of_length hd' hc' hx0 h)]
    simp [h.ne', h]

theorem compareSegments_letters (cs ds : List Char) :
    compareSegments false cs ds = orderSign cs ds := sign_of_texts cs ds

end Numbers

/-! ## The loop -/

section Loop

@[simp] theorem marks_nil : marks [] = [.stop] := by simp [marks]

@[simp] theorem marks_tilde (cs : List Char) : marks ('~' :: cs) = .tilde :: marks cs := by
  simp [marks]

@[simp] theorem marks_caret (cs : List Char) : marks ('^' :: cs) = .caret :: marks cs := by
  simp [marks]

theorem marks_digit {c : Char} {cs : List Char} (h : isDigit c = true) (h1 : c ≠ '~')
    (h2 : c ≠ '^') : marks (c :: cs) = .digits (runValue ((c :: cs).takeWhile isDigit)) ::
      marks ((c :: cs).dropWhile isDigit) := by
  rw [marks]
  simp [h, h1, h2]

theorem marks_alpha {c : Char} {cs : List Char} (h : isAlpha c = true)
    (hd : isDigit c = false) (h1 : c ≠ '~') (h2 : c ≠ '^') :
    marks (c :: cs) = .letters ((c :: cs).takeWhile isAlpha) ::
      marks ((c :: cs).dropWhile isAlpha) := by
  rw [marks]
  simp [h, hd, h1, h2]

theorem heads_lt {m m' : Mark} (l l' : List Mark) (h : m.rank < m'.rank) :
    orderSign (m :: l) (m' :: l') = -1 := by
  rw [orderSign_cons, if_neg fun he => absurd (he ▸ h) (lt_irrefl _),
    Mark.orderSign_of_rank_lt h]

theorem heads_gt {m m' : Mark} (l l' : List Mark) (h : m'.rank < m.rank) :
    orderSign (m :: l) (m' :: l') = 1 := by
  rw [orderSign_cons, if_neg fun he => absurd (he ▸ h) (lt_irrefl _),
    Mark.orderSign_of_rank_gt h]

/-- Equal numbers leave the comparison to the marks after them. -/
theorem orderSign_digits_cons (n n' : ℕ) (l l' : List Mark) :
    orderSign (.digits n :: l) (.digits n' :: l') =
      if orderSign n n' ≠ 0 then orderSign n n' else orderSign l l' := by
  rw [orderSign_cons, Mark.orderSign_digits]
  by_cases h : n = n' <;> simp [h, orderSign_eq_zero]

theorem orderSign_letters_cons (r r' : List Char) (l l' : List Mark) :
    orderSign (.letters r :: l) (.letters r' :: l') =
      if orderSign r r' ≠ 0 then orderSign r r' else orderSign l l' := by
  rw [orderSign_cons, Mark.orderSign_letters]
  by_cases h : r = r' <;> simp [h, orderSign_eq_zero]

/-- The two remainders of one trip of the loop whose heads are runs of one kind. -/
theorem length_dropWhile_lt {p : Char → Bool} {c : Char} {cs : List Char} (h : p c = true) :
    ((c :: cs).dropWhile p).length < (c :: cs).length := by
  rw [List.dropWhile_cons, if_pos h, List.length_cons]
  exact Nat.lt_succ_of_le (List.length_dropWhile_le p cs)

/-- **The loop compares the marks at their first difference.** -/
theorem rpmvercmpLoop_eq (fuel : ℕ) (one two : List Char)
    (h : one.length + two.length < fuel) :
    rpmvercmpLoop fuel one two = orderSign (marks one) (marks two) := by
  induction fuel generalizing one two with
  | zero => omega
  | succ fuel ih =>
    rw [← marks_dropWhile one, ← marks_dropWhile two]
    have l1 := List.length_dropWhile_le isSeparator one
    have l2 := List.length_dropWhile_le isSeparator two
    unfold rpmvercmpLoop
    by_cases hboth : (one.isEmpty && two.isEmpty) = true
    · simp only [Bool.and_eq_true, List.isEmpty_iff] at hboth
      simp [hboth.1, hboth.2, exhausted]
    rw [if_neg hboth]
    have ho := head_dropWhile one
    have ht := head_dropWhile two
    have hrec : ∀ o t : List Char, o.length + t.length <
        (one.dropWhile isSeparator).length + (two.dropWhile isSeparator).length →
        rpmvercmpLoop fuel o t = orderSign (marks o) (marks t) :=
      fun o t hl => ih o t (by omega)
    generalize one.dropWhile isSeparator = o at ho hrec
    generalize two.dropWhile isSeparator = t at ht hrec
    dsimp only
    cases ho with
    | stop =>
      cases ht with
      | stop => simp [exhausted]
      | tilde =>
        rw [marks_nil, marks_tilde, heads_gt _ _ (by simp [Mark.rank])]
        simp
      | caret =>
        rw [marks_nil, marks_caret, heads_lt _ _ (by simp [Mark.rank])]
        simp
      | digit h h1 h2 =>
        rw [marks_nil, marks_digit h h1 h2, heads_lt _ _ (by simp [Mark.rank])]
        simp [h1, h2, exhausted]
      | alpha h hd h1 h2 =>
        rw [marks_nil, marks_alpha h hd h1 h2, heads_lt _ _ (by simp [Mark.rank])]
        simp [h1, h2, exhausted]
    | @tilde cs =>
      cases ht with
      | stop =>
        rw [marks_nil, marks_tilde, heads_lt _ _ (by simp [Mark.rank])]
        simp
      | @tilde ds => simp [orderSign_cons, hrec cs ds (by simp; omega)]
      | caret =>
        rw [marks_tilde, marks_caret, heads_lt _ _ (by simp [Mark.rank])]
        simp
      | digit h h1 h2 =>
        rw [marks_tilde, marks_digit h h1 h2, heads_lt _ _ (by simp [Mark.rank])]
        simp [h1]
      | alpha h hd h1 h2 =>
        rw [marks_tilde, marks_alpha h hd h1 h2, heads_lt _ _ (by simp [Mark.rank])]
        simp [h1]
    | @caret cs =>
      cases ht with
      | stop =>
        rw [marks_nil, marks_caret, heads_gt _ _ (by simp [Mark.rank])]
        simp
      | tilde =>
        rw [marks_tilde, marks_caret, heads_gt _ _ (by simp [Mark.rank])]
        simp
      | @caret ds => simp [orderSign_cons, hrec cs ds (by simp; omega)]
      | digit h h1 h2 =>
        rw [marks_caret, marks_digit h h1 h2, heads_lt _ _ (by simp [Mark.rank])]
        simp [h1, h2]
      | alpha h hd h1 h2 =>
        rw [marks_caret, marks_alpha h hd h1 h2, heads_lt _ _ (by simp [Mark.rank])]
        simp [h1, h2]
    | @digit c cs h h1 h2 =>
      rw [marks_digit h h1 h2]
      cases ht with
      | stop =>
        rw [marks_nil, heads_gt _ _ (by simp [Mark.rank])]
        simp [h1, h2, exhausted]
      | tilde =>
        rw [marks_tilde, heads_gt _ _ (by simp [Mark.rank])]
        simp [h1]
      | caret =>
        rw [marks_caret, heads_gt _ _ (by simp [Mark.rank])]
        simp [h1, h2]
      | @digit d ds h' h1' h2' =>
        have hl1 := @length_dropWhile_lt _ c cs h
        have hl2 := @length_dropWhile_lt _ d ds h'
        have hseg := compareSegments_digits
          (fun x hx => List.mem_takeWhile_imp hx : ∀ x ∈ (c :: cs).takeWhile isDigit, _)
          (fun x hx => List.mem_takeWhile_imp hx : ∀ x ∈ (d :: ds).takeWhile isDigit, _)
        have hne : ((d :: ds).takeWhile isDigit).isEmpty = false := by simp [h']
        have hnum : (((c :: cs).head?.map isDigit).getD false) = true := by simp [h]
        rw [marks_digit h' h1' h2', orderSign_digits_cons, ← hseg,
          ← hrec _ _ (Nat.add_lt_add hl1 hl2)]
        simp only [hnum, if_true, hne]
        simp [h1, h2, h1', h2']
      | alpha h' hd' h1' h2' =>
        rw [marks_alpha h' hd' h1' h2', heads_gt _ _ (by simp [Mark.rank])]
        simp [h1, h2, h1', h2', h, hd']
    | @alpha c cs h hd h1 h2 =>
      rw [marks_alpha h hd h1 h2]
      cases ht with
      | stop =>
        rw [marks_nil, heads_gt _ _ (by simp [Mark.rank])]
        simp [h1, h2, exhausted]
      | tilde =>
        rw [marks_tilde, heads_gt _ _ (by simp [Mark.rank])]
        simp [h1]
      | caret =>
        rw [marks_caret, heads_gt _ _ (by simp [Mark.rank])]
        simp [h1, h2]
      | @digit d ds h' h1' h2' =>
        have hn : isAlpha d = false := by
          by_contra ha
          rw [Bool.not_eq_false] at ha
          rw [not_isDigit_of_isAlpha ha] at h'
          cases h'
        rw [marks_digit h' h1' h2', heads_lt _ _ (by simp [Mark.rank])]
        simp [h1, h2, h1', h2', hd, hn]
      | @alpha d ds h' hd' h1' h2' =>
        have hl1 := @length_dropWhile_lt _ c cs h
        have hl2 := @length_dropWhile_lt _ d ds h'
        have hne : ((d :: ds).takeWhile isAlpha).isEmpty = false := by simp [h']
        have hnum : (((c :: cs).head?.map isDigit).getD false) = false := by simp [hd]
        rw [marks_alpha h' hd' h1' h2', orderSign_letters_cons,
          ← compareSegments_letters, ← hrec _ _ (Nat.add_lt_add hl1 hl2)]
        simp only [hnum, if_false, Bool.false_eq_true, hne]
        simp [h1, h2, h1', h2']

end Loop

/-! ## The two comparisons -/

/-- `rpmvercmp` compares what it sees of the two versions. -/
theorem rpmvercmp_eq (one two : String) :
    rpmvercmp one two = orderSign (marks one.toList) (marks two.toList) := by
  unfold rpmvercmp
  split_ifs with h
  · rw [h, orderSign_self]
  · exact rpmvercmpLoop_eq _ _ _ (Nat.lt_succ_self _)

/-- The number an epoch is: that of its numeral, and 0 where it is not stated, empty, or no
    numeral. -/
def EpochNumber (epoch : Option String) (n : ℤ) : Prop :=
  (∃ text, epoch = some text ∧ PyInt.Numeral text.toList n) ∨
    n = 0 ∧ ∀ text, epoch = some text → ∀ m, ¬ PyInt.Numeral text.toList m

/-- The numeral of an epoch, read. -/
def epochNumber (epoch : Option String) : ℤ :=
  (epoch.bind fun text => PyInt.int? text.toList).getD 0

theorem epochNumber_spec (epoch : Option String) : EpochNumber epoch (epochNumber epoch) := by
  unfold EpochNumber epochNumber
  cases epoch with
  | none => exact .inr ⟨rfl, fun text h => nomatch h⟩
  | some text =>
    rw [Option.bind_some]
    cases hread : PyInt.int? text.toList with
    | some n => exact .inl ⟨text, rfl, PyInt.int?_iff.mp hread⟩
    | none =>
      refine .inr ⟨rfl, fun text' h m hm => ?_⟩
      rw [← Option.some.inj h, ← PyInt.int?_iff, hread] at hm
      cases hm

/-- An epoch is one number. -/
theorem EpochNumber.unique {epoch : Option String} {n m : ℤ} (h : EpochNumber epoch n)
    (h' : EpochNumber epoch m) : n = m := by
  rcases h with ⟨text, htext, hn⟩ | ⟨rfl, hnone⟩
  · rcases h' with ⟨text', htext', hm⟩ | ⟨rfl, hnone'⟩
    · rw [← Option.some.inj (htext.symm.trans htext')] at hm
      exact hn.unique hm
    · exact absurd hn (hnone' text htext n)
  · rcases h' with ⟨text', htext', hm⟩ | ⟨rfl, _⟩
    · exact absurd hm (hnone text' htext' m)
    · rfl

/-- The two texts that the code takes for no epoch are no numerals. -/
theorem epochInt_eq (epoch : Option String) : epochInt epoch = epochNumber epoch := by
  unfold epochInt epochNumber
  cases epoch with
  | none => rfl
  | some text =>
    show (if text = "" ∨ text = "(none)" then 0 else _) = _
    split_ifs with h
    · rcases h with rfl | rfl
      · decide
      · decide
    · rfl

/-- What a comparison sees of an EVR: the epoch as a number, then the version, then the
    release, each by its marks. -/
def evrKey (evr : Evr) : ℤ ×ₗ List Mark ×ₗ List Mark :=
  toLex (epochNumber evr.epoch,
    toLex (marks (evr.version.getD "").toList, marks (evr.release.getD "").toList))

theorem orderSign_toLex {α β : Type*} [LinearOrder α] [LinearOrder β] (a a' : α) (b b' : β) :
    orderSign (toLex (a, b)) (toLex (a', b')) =
      if a ≠ a' then orderSign a a' else orderSign b b' := by
  split_ifs with h
  · exact orderSign_congr (by simp [Prod.Lex.toLex_lt_toLex, h])
      (by simp [Prod.Lex.toLex_lt_toLex, Ne.symm h])
  · rw [not_not] at h
    exact orderSign_congr (by simp [Prod.Lex.toLex_lt_toLex, h])
      (by simp [Prod.Lex.toLex_lt_toLex, h])

theorem compareEvr_eq (one two : Evr) :
    compareEvr one two = orderSign (evrKey one) (evrKey two) := by
  unfold compareEvr evrKey
  simp only [epochInt_eq]
  rw [orderSign_toLex, orderSign_toLex, rpmvercmp_eq, rpmvercmp_eq]
  split_ifs with h1 h2 h3 h4 h5
  · exact (orderSign_of_gt h2).symm
  · exact (orderSign_of_lt (lt_of_le_of_ne (not_lt.mp h2) h1)).symm
  · rfl
  · exact absurd (orderSign_eq_zero.mpr (not_not.mp h4)) h3
  · exact absurd (orderSign_eq_zero.mp (not_not.mp h3)) h5
  · rfl

/-- A comparison by signs of a linear order is a total preorder. -/
theorem preorder_of_sign {α β : Type*} [LinearOrder β] {f : α → α → Int} {key : α → β}
    (h : ∀ a b, f a b = orderSign (key a) (key b)) :
    IsPreorder α (fun a b => f a b ≤ 0) ∧ Std.Total (fun a b => f a b ≤ 0) := by
  have hle : ∀ a b, f a b ≤ 0 ↔ key a ≤ key b := fun a b => by rw [h, orderSign_nonpos]
  have hrefl : Std.Refl fun a b => f a b ≤ 0 := ⟨fun a => (hle a a).mpr le_rfl⟩
  have htrans : IsTrans α fun a b => f a b ≤ 0 :=
    ⟨fun a b c hab hbc => (hle a c).mpr (((hle a b).mp hab).trans ((hle b c).mp hbc))⟩
  refine ⟨⟨⟩, ⟨fun a b => ?_⟩⟩
  rw [hle, hle]
  exact le_total _ _

/-- **rpm's version comparison is the one its documentation describes.** `rpmvercmp` is the
    sign of the order of the marks, and `compareEvr` that of epoch, version and release in
    turn, with the epoch as the number it writes; both change sign when the sides are exchanged,
    and both are total preorders. -/
theorem version_order :
    ((∀ one two, rpmvercmp one two = orderSign (marks one.toList) (marks two.toList)) ∧
      (∀ one two, rpmvercmp one two = -rpmvercmp two one) ∧
      IsPreorder String (fun one two => rpmvercmp one two ≤ 0) ∧
      Std.Total (fun one two => rpmvercmp one two ≤ 0)) ∧
    ((∀ evr n, EpochNumber evr.epoch n ↔ (ofLex (evrKey evr)).1 = n) ∧
      (∀ one two, compareEvr one two = orderSign (evrKey one) (evrKey two)) ∧
      (∀ one two, compareEvr one two = -compareEvr two one) ∧
      IsPreorder Evr (fun one two => compareEvr one two ≤ 0) ∧
      Std.Total (fun one two => compareEvr one two ≤ 0)) := by
  refine ⟨⟨rpmvercmp_eq, fun one two => ?_, preorder_of_sign rpmvercmp_eq⟩,
    ⟨fun evr n => ?_, compareEvr_eq, fun one two => ?_, preorder_of_sign compareEvr_eq⟩⟩
  · rw [rpmvercmp_eq, rpmvercmp_eq, orderSign_swap]
  · have hspec := epochNumber_spec evr.epoch
    exact ⟨hspec.unique, fun h => h ▸ hspec⟩
  · rw [compareEvr_eq, compareEvr_eq, orderSign_swap]

/-- A pre-release is before its release, a snapshot after it and before the next part. -/
example : rpmvercmp "1.0~rc1" "1.0" = -1 ∧ rpmvercmp "1.0^git1" "1.0" = 1 ∧
    rpmvercmp "1.0^git1" "1.0.1" = -1 := by decide

end BuckosDistro.Depgraph
