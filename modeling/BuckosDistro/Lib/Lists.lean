/-
  Computations that may fail, over lists of entries; related lists, and lists cut at a mark.
-/
import Mathlib

namespace BuckosDistro.Lib.Lists

/-! ## Related lists -/

section Related

variable {α β : Type} {rel : α → β → Prop} {xs : List α} {ys : List β}

theorem exists_related (h : List.Forall₂ rel xs ys) {x : α} (hx : x ∈ xs) : ∃ y ∈ ys, rel x y := by
  induction h with
  | nil => exact absurd hx List.not_mem_nil
  | cons hrel _ ih =>
    rcases List.mem_cons.mp hx with rfl | hx
    · exact ⟨_, List.mem_cons_self, hrel⟩
    · obtain ⟨y, hy, hxy⟩ := ih hx
      exact ⟨y, List.mem_cons_of_mem _ hy, hxy⟩

/-- Related lists are cut in the same place. -/
theorem exists_split {before after : List β} {y : β}
    (h : List.Forall₂ rel xs (before ++ y :: after)) :
    ∃ xs₁ x xs₂, xs = xs₁ ++ x :: xs₂ ∧ List.Forall₂ rel xs₁ before ∧ rel x y := by
  induction before generalizing xs with
  | nil =>
    cases h with
    | cons hrel _ => exact ⟨[], _, _, rfl, .nil, hrel⟩
  | cons b before ih =>
    cases h with
    | cons hrel hrest =>
      obtain ⟨xs₁, x, xs₂, rfl, hall, hx⟩ := ih hrest
      exact ⟨_ :: xs₁, x, xs₂, rfl, .cons hrel hall, hx⟩

end Related

/-! ## All or nothing -/

section MapM

variable {α β : Type} {f : α → Option β} {xs : List α} {ys : List β}

/-- The entries are built one for one. -/
theorem forall₂_of_mapM (h : xs.mapM f = some ys) :
    List.Forall₂ (fun x y => f x = some y) xs ys := by
  induction xs generalizing ys with
  | nil =>
    obtain rfl : [] = ys := by simpa using h
    exact .nil
  | cons x xs ih =>
    rw [List.mapM_cons] at h
    obtain ⟨y, hy, h⟩ := Option.bind_eq_some_iff.mp h
    obtain ⟨ys', hys, h⟩ := Option.bind_eq_some_iff.mp h
    obtain rfl : y :: ys' = ys := by simpa using h
    exact .cons hy (ih hys)

theorem mapM_of_forall {g : α → β} (h : ∀ x ∈ xs, f x = some (g x)) :
    xs.mapM f = some (xs.map g) := by
  induction xs with
  | nil => rfl
  | cons x xs ih =>
    rw [List.mapM_cons, h x (List.mem_cons_self ..),
      ih fun y hy => h y (List.mem_cons_of_mem _ hy)]
    rfl

theorem exists_of_mem_mapM (h : xs.mapM f = some ys) {x : α} (hx : x ∈ xs) :
    ∃ y ∈ ys, f x = some y :=
  exists_related (forall₂_of_mapM h) hx

theorem exists_of_mapM_mem (h : xs.mapM f = some ys) {y : β} (hy : y ∈ ys) :
    ∃ x ∈ xs, f x = some y := by
  have hflip : List.Forall₂ (fun y x => f x = some y) ys xs := (forall₂_of_mapM h).flip
  exact exists_related hflip hy

/-- What `f` keeps of its argument is what the results hold of it. -/
theorem map_eq_of_mapM {γ : Type} {p : α → γ} {q : β → γ} (h : xs.mapM f = some ys)
    (hkeep : ∀ x y, f x = some y → q y = p x) : ys.map q = xs.map p := by
  have h₂ := forall₂_of_mapM h
  clear h
  induction h₂ with
  | nil => rfl
  | cons hx _ ih => rw [List.map_cons, List.map_cons, hkeep _ _ hx, ih]

end MapM

/-! ## Errors -/

section Errors

variable {ε α β : Type}

theorem mapM_ok_of_forall {f : α → Except ε β} {g : α → β} {xs : List α}
    (h : ∀ x ∈ xs, f x = .ok (g x)) : xs.mapM f = .ok (xs.map g) := by
  induction xs with
  | nil => rfl
  | cons x xs ih =>
    rw [List.mapM_cons, h x (List.mem_cons_self ..),
      ih fun y hy => h y (List.mem_cons_of_mem _ hy)]
    rfl

/-- What a computation that succeeds went through. -/
theorem exists_of_bind {x : Except ε α} {f : α → Except ε β} {b : β}
    (h : x >>= f = .ok b) : ∃ a, x = .ok a ∧ f a = .ok b := by
  cases x with
  | error e => cases h
  | ok a => exact ⟨a, rfl, h⟩

/-- A loop whose every step succeeds and keeps an invariant. -/
theorem exists_foldlM {step : β → α → Except ε β} {inv : β → Prop} {xs : List α}
    (hstep : ∀ b, ∀ x ∈ xs, inv b → ∃ b', step b x = .ok b' ∧ inv b') {b : β} (hb : inv b) :
    ∃ b', xs.foldlM step b = .ok b' ∧ inv b' := by
  induction xs generalizing b with
  | nil => exact ⟨b, rfl, hb⟩
  | cons x xs ih =>
    obtain ⟨b', hb', hinv⟩ := hstep b x List.mem_cons_self hb
    rw [List.foldlM_cons, hb']
    exact ih (fun b x hx => hstep b x (List.mem_cons_of_mem _ hx)) hinv

/-- A comprehension whose every item succeeds. -/
theorem exists_mapM {f : α → Except ε β} {rel : α → β → Prop} {xs : List α}
    (h : ∀ x ∈ xs, ∃ y, f x = .ok y ∧ rel x y) :
    ∃ ys, xs.mapM f = .ok ys ∧ List.Forall₂ rel xs ys := by
  induction xs with
  | nil => exact ⟨[], rfl, .nil⟩
  | cons x xs ih =>
    obtain ⟨y, hy, hrel⟩ := h x List.mem_cons_self
    obtain ⟨ys, hys, hall⟩ := ih fun x hx => h x (List.mem_cons_of_mem _ hx)
    rw [List.mapM_cons, hy, hys]
    exact ⟨y :: ys, rfl, .cons hrel hall⟩

/-- A loop whose every step keeps an invariant of what it has gone over. -/
theorem foldlM_invariant {step : β → α → Except ε β} (inv : List α → β → Prop)
    (hstep : ∀ done x b b', inv done b → step b x = .ok b' → inv (done ++ [x]) b')
    {xs : List α} {b b' : β} (hb : inv [] b) (h : xs.foldlM step b = .ok b') : inv xs b' := by
  induction xs using List.reverseRecOn generalizing b' with
  | nil =>
    obtain rfl := Except.ok.inj h
    exact hb
  | append_singleton xs x ih =>
    rw [List.foldlM_append] at h
    obtain ⟨c, hc, h⟩ := exists_of_bind h
    have hlast : step c x = .ok b' := by
      rw [List.foldlM_cons] at h
      obtain ⟨d, hd, h⟩ := exists_of_bind h
      obtain rfl := Except.ok.inj h
      exact hd
    exact hstep xs x c b' (ih hc) hlast

/-- What succeeds under one function succeeds alike under one that does the same. -/
theorem mapM_ok_congr {f g : α → Except ε β} {xs : List α} {ys : List β}
    (hfg : ∀ x y, f x = .ok y → g x = .ok y) (h : xs.mapM f = .ok ys) : xs.mapM g = .ok ys := by
  induction xs generalizing ys with
  | nil => exact h
  | cons x xs ih =>
    rw [List.mapM_cons] at h ⊢
    obtain ⟨y, hy, h⟩ := exists_of_bind h
    obtain ⟨rest, hrest, h⟩ := exists_of_bind h
    rw [hfg x y hy, ih hrest]
    exact h

theorem map_of_mapM_ok {f : α → Except ε β} {g : α → β} {xs : List α} {ys : List β}
    (hfg : ∀ x y, f x = .ok y → y = g x) (h : xs.mapM f = .ok ys) : ys = xs.map g := by
  induction xs generalizing ys with
  | nil => exact (Except.ok.inj h).symm
  | cons x xs ih =>
    rw [List.mapM_cons] at h
    obtain ⟨y, hy, h⟩ := exists_of_bind h
    obtain ⟨rest, hrest, h⟩ := exists_of_bind h
    rw [← Except.ok.inj h, List.map_cons, hfg x y hy, ih hrest]

theorem exists_of_mapM_ok {f : α → Except ε β} {xs : List α} {ys : List β}
    (h : xs.mapM f = .ok ys) {y : β} (hy : y ∈ ys) : ∃ x ∈ xs, f x = .ok y := by
  induction xs generalizing ys with
  | nil =>
    obtain rfl := Except.ok.inj h
    exact absurd hy List.not_mem_nil
  | cons x xs ih =>
    rw [List.mapM_cons] at h
    obtain ⟨z, hz, h⟩ := exists_of_bind h
    obtain ⟨rest, hrest, h⟩ := exists_of_bind h
    obtain rfl := Except.ok.inj h
    rcases List.mem_cons.mp hy with rfl | hy
    · exact ⟨x, List.mem_cons_self .., hz⟩
    · obtain ⟨x', hx', hfx⟩ := ih hrest hy
      exact ⟨x', List.mem_cons_of_mem _ hx', hfx⟩

theorem exists_of_mem_mapM_ok {f : α → Except ε β} {xs : List α} {ys : List β}
    (h : xs.mapM f = .ok ys) {x : α} (hx : x ∈ xs) : ∃ y ∈ ys, f x = .ok y := by
  induction xs generalizing ys with
  | nil => cases hx
  | cons z xs ih =>
    rw [List.mapM_cons] at h
    obtain ⟨y, hy, h⟩ := exists_of_bind h
    obtain ⟨rest, hrest, h⟩ := exists_of_bind h
    obtain rfl := Except.ok.inj h
    obtain rfl | hx := List.mem_cons.mp hx
    · exact ⟨y, List.mem_cons_self .., hy⟩
    · obtain ⟨y', hy', hfx⟩ := ih hrest hx
      exact ⟨y', List.mem_cons_of_mem _ hy', hfx⟩

theorem mapM_ok_iff {f : α → Except ε β} {xs : List α} {ys : List β} :
    xs.mapM f = .ok ys ↔ List.Forall₂ (fun x y => f x = .ok y) xs ys := by
  constructor
  · intro h
    induction xs generalizing ys with
    | nil =>
      obtain rfl := Except.ok.inj h
      exact .nil
    | cons x xs ih =>
      rw [List.mapM_cons] at h
      obtain ⟨y, hy, h⟩ := exists_of_bind h
      obtain ⟨rest, hrest, h⟩ := exists_of_bind h
      obtain rfl := Except.ok.inj h
      exact .cons hy (ih hrest)
  · intro h
    induction h with
    | nil => rfl
    | cons hxy _ ih =>
      rw [List.mapM_cons, hxy, ih]
      rfl

theorem foldlM_ok_congr {step step' : β → α → Except ε β} {xs : List α} {b r : β}
    (hstep : ∀ b x b', step b x = .ok b' → step' b x = .ok b') (h : xs.foldlM step b = .ok r) :
    xs.foldlM step' b = .ok r := by
  induction xs generalizing b with
  | nil => exact h
  | cons x xs ih =>
    rw [List.foldlM_cons] at h ⊢
    obtain ⟨c, hc, h⟩ := exists_of_bind h
    rw [hstep b x c hc]
    exact ih h

/-- What a loop reads off its entries, those that are read. -/
def readable (read : α → Except ε β) (xs : List α) : List β :=
  xs.filterMap fun x => (read x).toOption

/-- A loop that reads one entry after another succeeds when it can read each. -/
theorem exists_foldlM_iff {γ : Type} {read : α → Except ε β} {step : γ → β → γ} {xs : List α}
    {c : γ} :
    (∃ c', (xs.foldlM (fun c x => do let b ← read x; return step c b) c : Except ε γ) =
        .ok c') ↔ ∀ x ∈ xs, ∃ b, read x = .ok b := by
  induction xs generalizing c with
  | nil => exact ⟨fun _ _ hx => (nomatch hx), fun _ => ⟨c, rfl⟩⟩
  | cons x xs ih =>
    rw [List.forall_mem_cons, List.foldlM_cons]
    cases hx : read x with
    | error e => exact ⟨fun ⟨_, h⟩ => (nomatch h), fun ⟨⟨_, h⟩, _⟩ => (nomatch h)⟩
    | ok b =>
      refine Iff.trans ?_ (and_iff_right ⟨b, rfl⟩).symm
      exact @ih (step c b)

/-- Its result is the loop over what it reads. -/
theorem foldlM_eq_readable {γ : Type} {read : α → Except ε β} {step : γ → β → γ} {xs : List α}
    {c c' : γ}
    (h : (xs.foldlM (fun c x => do let b ← read x; return step c b) c : Except ε γ) = .ok c') :
    c' = (readable read xs).foldl step c := by
  induction xs generalizing c with
  | nil => exact (Except.ok.inj h).symm
  | cons x xs ih =>
    rw [List.foldlM_cons] at h
    obtain ⟨c₁, hc₁, h⟩ := exists_of_bind h
    obtain ⟨b, hb, hc₁⟩ := exists_of_bind hc₁
    obtain rfl := Except.ok.inj hc₁
    have hread : readable read (x :: xs) = b :: readable read xs := by
      unfold readable
      rw [List.filterMap_cons, hb]
      rfl
    rw [hread, List.foldl_cons]
    exact ih h

end Errors

/-! ## Orders of the same members -/

section Orders

variable {α : Type} [DecidableEq α]

theorem filter_pair {xs : List α} {a b : α} (h : xs.Nodup) (ha : a ∉ xs) (hb : b ∈ xs) :
    xs.filter (fun c => c = a ∨ c = b) = [b] := by
  have hone : xs.filter (fun c => c = a ∨ c = b) = xs.filter (· = b) := by
    refine List.filter_congr fun c hc => ?_
    have hca : c ≠ a := fun he => ha (he ▸ hc)
    simp [hca]
  rw [hone, List.filter_eq, List.count_eq_one_of_mem h hb]
  rfl

/-- Two orders of the same members disagree on a pair. -/
theorem exists_swapped {xs ys : List α} (h : xs.Perm ys) (hx : xs.Nodup) (hne : xs ≠ ys) :
    ∃ a b, a ≠ b ∧ xs.filter (fun c => c = a ∨ c = b) = [a, b] ∧
      ys.filter (fun c => c = a ∨ c = b) = [b, a] := by
  induction xs generalizing ys with
  | nil => exact absurd h.nil_eq hne
  | cons x xs ih =>
    cases ys with
    | nil => exact absurd h.symm.nil_eq hne.symm
    | cons y ys =>
      have hy : (y :: ys).Nodup := h.nodup_iff.mp hx
      obtain ⟨hxs, hndx⟩ := List.nodup_cons.mp hx
      obtain ⟨hys, hndy⟩ := List.nodup_cons.mp hy
      by_cases hxy : x = y
      · subst hxy
        have htail : xs ≠ ys := fun he => hne (by rw [he])
        obtain ⟨a, b, hab, hfx, hfy⟩ := ih h.cons_inv hndx htail
        have hmem : ∀ c, c ∈ [a, b] → c ≠ x := by
          intro c hc he
          rw [← hfx] at hc
          exact hxs (he ▸ List.mem_of_mem_filter hc)
        have hx' : ¬ (x = a ∨ x = b) := by
          rintro (he | he)
          · exact hmem a (by simp) he.symm
          · exact hmem b (by simp) he.symm
        refine ⟨a, b, hab, ?_, ?_⟩
        · rw [List.filter_cons_of_neg (by simpa using hx'), hfx]
        · rw [List.filter_cons_of_neg (by simpa using hx'), hfy]
      · have hyxs : y ∈ xs := by
          have hmem := h.mem_iff.mpr (List.mem_cons_self ..)
          exact (List.mem_cons.mp hmem).resolve_left (Ne.symm hxy)
        have hxys : x ∈ ys := by
          have hmem := h.mem_iff.mp (List.mem_cons_self ..)
          exact (List.mem_cons.mp hmem).resolve_left hxy
        refine ⟨x, y, hxy, ?_, ?_⟩
        · rw [List.filter_cons_of_pos (by simp), filter_pair hndx hxs hyxs]
        · have hswap : ys.filter (fun c => c = x ∨ c = y) =
              ys.filter (fun c => c = y ∨ c = x) := by
            refine List.filter_congr fun c _ => ?_
            rw [decide_eq_decide]
            exact or_comm
          rw [List.filter_cons_of_pos (by simp), hswap, filter_pair hndy hys hxys]

theorem dedup_filter (keep : α → Bool) (xs : List α) :
    (xs.filter keep).dedup = xs.dedup.filter keep := by
  induction xs with
  | nil => rfl
  | cons x xs ih =>
    by_cases hk : keep x = true
    · rw [List.filter_cons_of_pos hk]
      by_cases hx : x ∈ xs
      · have hx' : x ∈ xs.filter keep := List.mem_filter.mpr ⟨hx, hk⟩
        rw [List.dedup_cons_of_mem hx, List.dedup_cons_of_mem hx', ih]
      · have hx' : x ∉ xs.filter keep := fun hm => hx (List.mem_of_mem_filter hm)
        rw [List.dedup_cons_of_notMem hx, List.dedup_cons_of_notMem hx',
          List.filter_cons_of_pos hk, ih]
    · rw [List.filter_cons_of_neg hk, ih]
      by_cases hx : x ∈ xs
      · rw [List.dedup_cons_of_mem hx]
      · rw [List.dedup_cons_of_notMem hx, List.filter_cons_of_neg hk]

end Orders

/-! ## The last mark -/

/-- A list is cut at its last mark in one way. -/
theorem append_cons_inj {α : Type} {c : α} {xs ys us vs : List α} (hu : c ∉ us) (hv : c ∉ vs)
    (h : xs ++ c :: us = ys ++ c :: vs) : xs = ys ∧ us = vs := by
  rcases List.append_eq_append_iff.mp h with ⟨rest, hys, hrest⟩ | ⟨rest, hxs, hrest⟩
  · cases rest with
    | nil =>
      rw [List.nil_append] at hrest
      exact ⟨by rw [hys, List.append_nil], (List.cons.inj hrest).2⟩
    | cons a rest =>
      have hmem : c ∈ us := by
        rw [(List.cons.inj hrest).2]
        exact List.mem_append_right _ (List.mem_cons_self ..)
      exact absurd hmem hu
  · cases rest with
    | nil =>
      rw [List.nil_append] at hrest
      exact ⟨by rw [hxs, List.append_nil], (List.cons.inj hrest).2.symm⟩
    | cons a rest =>
      have hmem : c ∈ vs := by
        rw [(List.cons.inj hrest).2]
        exact List.mem_append_right _ (List.mem_cons_self ..)
      exact absurd hmem hv

/-! ## What comes before -/

section Before

variable {α β : Type} {xs before after : List α} {a b : α}

/-- An entry of lists put together is in one of them, after those before it. -/
theorem flatMap_eq_append_cons {f : α → List β} {done rest : List β} {y : β}
    (h : xs.flatMap f = done ++ y :: rest) :
    ∃ before x after i j, xs = before ++ x :: after ∧ f x = i ++ y :: j ∧
      done = before.flatMap f ++ i := by
  induction xs generalizing done with
  | nil => exact absurd h (by simp)
  | cons x xs ih =>
    rw [List.flatMap_cons] at h
    rcases List.append_eq_append_iff.mp h with ⟨done', rfl, hxs⟩ | ⟨i, hx, hrest⟩
    · obtain ⟨before, x', after, i, j, rfl, hx', rfl⟩ := ih hxs
      refine ⟨x :: before, x', after, i, j, rfl, hx', ?_⟩
      rw [List.flatMap_cons, List.append_assoc]
    · cases i with
      | nil =>
        obtain ⟨before, x', after, i, j, rfl, hx', hdone⟩ := @ih [] hrest.symm
        refine ⟨x :: before, x', after, i, j, rfl, hx', ?_⟩
        rw [List.flatMap_cons, List.append_assoc, ← hdone, hx, List.append_nil, List.append_nil]
      | cons y' i =>
        obtain ⟨rfl, -⟩ := List.cons.inj hrest
        exact ⟨[], x, xs, done, i, rfl, hx, rfl⟩

/-- Lists made of disjoint parts have no entry twice, when each entry is a part's own. -/
theorem nodup_flatMap_of_parts {parts : List (List α)} (h : parts.flatten.Nodup)
    {f : List α → List β} (hf : ∀ part ∈ parts, (f part).Nodup) (p : β → α)
    (hp : ∀ part ∈ parts, ∀ y ∈ f part, p y ∈ part) : (parts.flatMap f).Nodup := by
  rw [List.nodup_flatMap]
  refine ⟨hf, ?_⟩
  apply (List.nodup_flatten.mp h).2.imp_of_mem
  intro part other hpart hother hdisjoint y hy hy'
  exact hdisjoint (hp part hpart y hy) (hp other hother y hy')

/-- The first of two entries is before the second. -/
theorem mem_of_sublist_pair (hnodup : (before ++ b :: after).Nodup)
    (h : List.Sublist [a, b] (before ++ b :: after)) : a ∈ before := by
  by_contra ha
  induction before with
  | nil =>
    obtain ⟨hb, _⟩ := List.nodup_cons.mp hnodup
    rcases List.sublist_cons_iff.mp h with h | ⟨rest, hrest, h⟩
    · exact hb (h.subset (by simp))
    · rw [← (List.cons.inj hrest).2] at h
      exact hb (h.subset (by simp))
  | cons c before ih =>
    rw [List.cons_append] at h hnodup
    rcases List.sublist_cons_iff.mp h with h | ⟨rest, hrest, _⟩
    · exact ih (List.nodup_cons.mp hnodup).2 h fun hmem => ha (List.mem_cons_of_mem _ hmem)
    · exact ha ((List.cons.inj hrest).1 ▸ List.mem_cons_self)

end Before

end BuckosDistro.Lib.Lists
