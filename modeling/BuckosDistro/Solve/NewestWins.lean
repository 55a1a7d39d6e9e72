/-
  What the merge of the repositories keeps (`tools/solve.py`, `merge_packages`).

  Picking the newer of two builds is associative, so collapsing each repository first
  changes nothing: the winner of a key is the first newest of all its builds
  (`filter_packages`). From this come the independence of order, the earliest repository
  on ties, and the replacements.

  A build that loses inside its own repository never becomes a candidate. `superseded`
  therefore does not know it, unless another repository's newest build has its EVR string.
-/
import BuckosDistro.Solve.Merge

namespace BuckosDistro.Solve

open BuckosDistro.Lib BuckosDistro.Depgraph

/-! ## The newer of two -/

section Newer

/-- The newer of two builds, the first where neither is newer. -/
def newer (a b : Option PackageRecord) : Option PackageRecord :=
  match a, b with
  | none, b => b
  | a, none => a
  | some incumbent, some pkg => if packageIsNewer pkg incumbent then some pkg else some incumbent

@[simp] theorem newer_none_left (a : Option PackageRecord) : newer none a = a := by
  cases a <;> rfl

@[simp] theorem newer_none_right (a : Option PackageRecord) : newer a none = a := by
  cases a <;> rfl

theorem newer_assoc (a b c : Option PackageRecord) :
    newer a (newer b c) = newer (newer a b) c := by
  cases a with
  | none => simp
  | some a =>
    cases b with
    | none => simp
    | some b =>
      cases c with
      | none => simp
      | some c =>
        unfold newer
        have h1 := @packageIsNewer_iff b a
        have h2 := @packageIsNewer_iff c b
        have h3 := @packageIsNewer_iff c a
        grind

theorem newestOf_append (l l' : List PackageRecord) :
    newestOf (l ++ l') = newer (newestOf l) (newestOf l') := by
  induction l' using List.reverseRecOn with
  | nil =>
    have hnil : newestOf [] = none := rfl
    rw [List.append_nil, hnil, newer_none_right]
  | append_singleton l' pkg ih =>
    have hconcat : ∀ builds, newestOf (builds ++ [pkg]) = newer (newestOf builds) (some pkg) :=
      fun builds => by
        rw [newestOf_concat]
        cases newestOf builds <;> rfl
    rw [← List.append_assoc, hconcat, hconcat, ih, newer_assoc]

theorem newer_eq_some {a b : Option PackageRecord} {w : PackageRecord}
    (h : newer a b = some w) :
    a = some w ∨ (b = some w ∧ ∀ x, a = some x → ageKey x < ageKey w) := by
  unfold newer at h
  have hnew := fun x y => @packageIsNewer_iff x y
  grind

theorem newestOf_mem {builds : List PackageRecord} {w : PackageRecord}
    (h : newestOf builds = some w) : w ∈ builds :=
  List.argmax_mem h

theorem newestOf_le {builds : List PackageRecord} {w b : PackageRecord}
    (h : newestOf builds = some w) (hb : b ∈ builds) : ageKey b ≤ ageKey w :=
  List.le_of_mem_argmax hb h

theorem newestOf_eq_none {builds : List PackageRecord} : newestOf builds = none ↔ builds = [] :=
  List.argmax_eq_none

end Newer

/-! ## The winner of a key -/

section Winner

variable {groups : List (String × List PackageRecord)} {key : Key}

/-- Every build of a key, one repository after another. -/
def buildsOf (groups : List (String × List PackageRecord)) (key : Key) : List PackageRecord :=
  groups.flatMap fun group => ofKey key group.2

theorem mem_buildsOf {b : PackageRecord} :
    b ∈ buildsOf groups key ↔ ∃ group ∈ groups, b ∈ ofKey key group.2 := by
  simp [buildsOf]

theorem keyOf_of_mem_buildsOf {b : PackageRecord} (h : b ∈ buildsOf groups key) :
    keyOf b = key := by
  obtain ⟨group, _, hb⟩ := mem_buildsOf.mp h
  exact (mem_ofKey.mp hb).2

/-- Collapsing each repository first changes nothing. -/
theorem newestOf_bests (groups : List (String × List PackageRecord)) (key : Key) :
    newestOf (bests groups key) = newestOf (buildsOf groups key) := by
  induction groups with
  | nil => rfl
  | cons group groups ih =>
    have hbuilds : buildsOf (group :: groups) key =
        ofKey key group.2 ++ buildsOf groups key := by
      simp [buildsOf]
    have hbests : bests (group :: groups) key =
        (newestOf (ofKey key group.2)).toList ++ bests groups key := by
      unfold bests
      rw [List.filterMap_cons]
      cases newestOf (ofKey key group.2) <;> rfl
    have hsole : ∀ a : Option PackageRecord, newestOf a.toList = a := fun a => by
      cases a <;> rfl
    rw [hbuilds, hbests, newestOf_append, newestOf_append, hsole, ih]

theorem slot_best (groups : List (String × List PackageRecord)) (key : Key) :
    ((mergeSlots groups).get? key).map Slot.best = newestOf (buildsOf groups key) := by
  rw [get?_slots, ← newestOf_bests]
  cases h : slotOf (bests groups key) with
  | none =>
    have hn : bests groups key = [] := by
      have := mt slotOf_isSome.mpr (by rw [h]; exact Bool.false_ne_true)
      exact not_not.mp this
    rw [hn]
    rfl
  | some s => exact (slotOf_spec h).best.symm

theorem nodup_slots (groups : List (String × List PackageRecord)) :
    (mergeSlots groups).keys.Nodup := by
  refine Dict.nodup_keys_foldl _ (fun slots group hslots => ?_) groups List.nodup_nil
  exact Dict.nodup_keys_foldl _ (fun _ _ hd => Dict.nodup_keys_set hd _ _) _ hslots

theorem nodup_sortKeys (h : (mergeSlots groups).keys.Nodup) :
    (sortKeys (mergeSlots groups).keys).Nodup :=
  (List.perm_insertionSort _ _).nodup_iff.mpr h

theorem mem_sortKeys (keys : List Key) : key ∈ sortKeys keys ↔ key ∈ keys :=
  (List.perm_insertionSort _ _).mem_iff

/-- A list with at most one entry for each of some distinct keys has for each what its
    key gives. -/
theorem filter_keyed {keys : List Key} (hnodup : keys.Nodup) (f : Key → Option PackageRecord)
    (hf : ∀ k pkg, f k = some pkg → keyOf pkg = k) (hkey : key ∉ keys → f key = none) :
    (keys.filterMap f).filter (fun pkg => keyOf pkg = key) = (f key).toList := by
  induction keys with
  | nil => simp [hkey]
  | cons k ks ih =>
    rw [List.nodup_cons] at hnodup
    have hrest : ∀ k', k' ∉ ks → (ks.filterMap f).filter (fun pkg => keyOf pkg = k') = [] := by
      intro k' hk'
      rw [List.filter_eq_nil_iff]
      intro pkg hpkg
      obtain ⟨k'', hk'', hfk⟩ := List.mem_filterMap.mp hpkg
      rw [hf k'' pkg hfk, decide_eq_true_iff]
      rintro rfl
      exact hk' hk''
    by_cases hk : k = key
    · subst hk
      rw [List.filterMap_cons]
      cases hfk : f k with
      | none =>
        dsimp only
        rw [hrest k hnodup.1]
        rfl
      | some pkg =>
        dsimp only
        rw [List.filter_cons_of_pos (by simp [hf k pkg hfk]), hrest k hnodup.1]
        rfl
    · have hih := ih hnodup.2 (fun h => hkey fun h' => by
        rcases List.mem_cons.mp h' with h' | h'
        · exact hk h'.symm
        · exact h h')
      rw [List.filterMap_cons]
      cases hfk : f k with
      | none => exact hih
      | some pkg =>
        dsimp only
        rw [List.filter_cons_of_neg (by simpa [hf k pkg hfk] using hk)]
        exact hih

/-- The merged packages have of each key the first newest of all its builds. -/
theorem filter_packages (groups : List (String × List PackageRecord)) (key : Key) :
    (mergePackages groups).packages.filter (fun pkg => keyOf pkg = key) =
      (newestOf (buildsOf groups key)).toList := by
  rw [← slot_best]
  refine filter_keyed (nodup_sortKeys (nodup_slots groups)) _ (fun k pkg h => ?_) fun h => ?_
  · rw [slot_best] at h
    exact keyOf_of_mem_buildsOf (newestOf_mem h)
  · rw [mem_sortKeys, Dict.mem_keys_iff, Bool.not_eq_true, Option.isSome_eq_false_iff,
      Option.isNone_iff_eq_none] at h
    rw [h]
    rfl

/-- A build is a winner when it is the first newest of its key. -/
theorem mem_packages {w : PackageRecord} :
    w ∈ (mergePackages groups).packages ↔ newestOf (buildsOf groups (keyOf w)) = some w := by
  have h := filter_packages groups (keyOf w)
  rw [← Option.mem_toList, ← h, List.mem_filter]
  simp

/-- A first newest build comes from the first repository that has one as new. -/
theorem first_of_newestOf {w : PackageRecord} (h : newestOf (buildsOf groups key) = some w) :
    ∃ before group after, groups = before ++ group :: after ∧ w ∈ group.2 ∧
      ∀ group' ∈ before, ∀ b ∈ ofKey key group'.2, ageKey b < ageKey w := by
  induction groups with
  | nil => cases h
  | cons group groups ih =>
    have hbuilds : buildsOf (group :: groups) key =
        ofKey key group.2 ++ buildsOf groups key := by
      simp [buildsOf]
    rw [hbuilds, newestOf_append] at h
    rcases newer_eq_some h with hw | ⟨hw, hlt⟩
    · exact ⟨[], group, groups, rfl, (mem_ofKey.mp (newestOf_mem hw)).1, by simp⟩
    · obtain ⟨before, g, after, rfl, hg, hbefore⟩ := ih hw
      refine ⟨group :: before, g, after, rfl, hg, fun group' hg' b hb => ?_⟩
      rcases List.mem_cons.mp hg' with rfl | hg'
      · cases ho : newestOf (ofKey key group'.2) with
        | none =>
          rw [newestOf_eq_none.mp ho] at hb
          cases hb
        | some o => exact lt_of_le_of_lt (newestOf_le ho hb) (hlt o ho)
      · exact hbefore group' hg' b hb

/-- The same repositories in another order, the builds of each in another order. -/
def Rearranged (groups groups' : List (String × List PackageRecord)) : Prop :=
  ∃ mid, groups.Perm mid ∧
    List.Forall₂ (fun group group' => group.1 = group'.1 ∧ group.2.Perm group'.2) mid groups'

theorem buildsOf_perm {groups' : List (String × List PackageRecord)}
    (h : Rearranged groups groups') (key : Key) :
    (buildsOf groups key).Perm (buildsOf groups' key) := by
  obtain ⟨mid, hperm, hmid⟩ := h
  refine (hperm.flatMap_right _).trans ?_
  clear hperm
  induction hmid with
  | nil => exact List.Perm.refl _
  | cons hgroup _ ih =>
    unfold buildsOf
    rw [List.flatMap_cons, List.flatMap_cons]
    exact (hgroup.2.filter _).append ih

/-- The newest build of a list does not depend on its order, up to equal versions. -/
theorem newestOf_perm {l l' : List PackageRecord} (h : l.Perm l') :
    Option.Rel (fun w w' => compareEvr (evrOf w) (evrOf w') = 0) (newestOf l) (newestOf l') := by
  cases hw : newestOf l with
  | none =>
    rw [newestOf_eq_none.mp hw] at h
    rw [List.nil_perm.mp h]
    exact Option.Rel.none
  | some w =>
    cases hw' : newestOf l' with
    | none =>
      rw [newestOf_eq_none.mp hw', List.perm_nil] at h
      rw [h] at hw
      cases hw
    | some w' =>
      refine Option.Rel.some (compareEvr_eq_zero.mpr (le_antisymm ?_ ?_))
      · exact newestOf_le hw' (h.mem_iff.mp (newestOf_mem hw))
      · exact newestOf_le hw (h.mem_iff.mpr (newestOf_mem hw'))

end Winner

/-! ## Replacements -/

section Replacements

variable {groups : List (String × List PackageRecord)} {key : Key}

/-- `o` is the newest build of the first repository that carries the key. -/
def FirstCarried (groups : List (String × List PackageRecord)) (key : Key)
    (o : PackageRecord) : Prop :=
  ∃ before group after, groups = before ++ group :: after ∧
    (∀ group' ∈ before, ofKey key group'.2 = []) ∧ newestOf (ofKey key group.2) = some o

theorem head?_bests {o : PackageRecord} :
    (bests groups key).head? = some o ↔ FirstCarried groups key o := by
  induction groups with
  | nil =>
    constructor
    · intro h
      cases h
    · rintro ⟨before, group, after, h, _⟩
      cases before <;> cases h
  | cons group groups ih =>
    unfold bests
    rw [List.filterMap_cons]
    cases hn : newestOf (ofKey key group.2) with
    | none =>
      refine ih.trans ⟨?_, ?_⟩
      · rintro ⟨before, g, after, rfl, hbefore, ho⟩
        exact ⟨group :: before, g, after, rfl,
          List.forall_mem_cons.mpr ⟨newestOf_eq_none.mp hn, hbefore⟩, ho⟩
      · rintro ⟨before, g, after, h, hbefore, ho⟩
        cases before with
        | nil =>
          obtain ⟨rfl, _⟩ := List.cons.inj h
          rw [hn] at ho
          cases ho
        | cons b before =>
          obtain ⟨rfl, rfl⟩ := List.cons.inj h
          exact ⟨before, g, after, rfl, (List.forall_mem_cons.mp hbefore).2, ho⟩
    | some n =>
      refine ⟨fun h => ?_, ?_⟩
      · obtain rfl := Option.some.inj h
        exact ⟨[], group, groups, rfl, by simp, hn⟩
      · rintro ⟨before, g, after, h, hbefore, ho⟩
        cases before with
        | nil =>
          obtain ⟨rfl, _⟩ := List.cons.inj h
          rw [List.head?_cons, ← hn, ho]
        | cons b before =>
          obtain ⟨rfl, _⟩ := List.cons.inj h
          rw [newestOf_eq_none.mpr (hbefore group List.mem_cons_self)] at hn
          cases hn

/-- A replacement is reported when the winner is newer than what the first repository
    that carries the key had. -/
theorem mem_replacements {r : Replacement} :
    r ∈ (mergePackages groups).replacements ↔
      ∃ o w, newestOf (buildsOf groups (keyOf w)) = some w ∧ FirstCarried groups (keyOf w) o ∧
        packageIsNewer w o = true ∧
        r = ⟨w.name, w.arch, evrString o, o.repo, evrString w, w.repo⟩ := by
  have hmem : r ∈ (mergePackages groups).replacements ↔
      ∃ key s, slotOf (bests groups key) = some s ∧ s.replacement key = some r := by
    unfold mergePackages
    simp only [List.mem_filterMap, Option.bind_eq_some_iff, get?_slots, mem_sortKeys,
      Dict.mem_keys_iff]
    constructor
    · rintro ⟨key, _, s, hs, hr⟩
      exact ⟨key, s, hs, hr⟩
    · rintro ⟨key, s, hs, hr⟩
      exact ⟨key, by rw [hs]; rfl, s, hs, hr⟩
  rw [hmem]
  constructor
  · rintro ⟨key, s, hs, hr⟩
    have hspec := slotOf_spec hs
    have hbest : newestOf (buildsOf groups key) = some s.best := by
      rw [← newestOf_bests]
      exact hspec.best
    obtain rfl := keyOf_of_mem_buildsOf (newestOf_mem hbest)
    unfold Slot.replacement at hr
    split_ifs at hr with h0
    exact ⟨s.origin, s.best, hbest, head?_bests.mp hspec.origin,
      packageIsNewer_iff.mpr (hspec.moved.mp h0), (Option.some.inj hr).symm⟩
  · rintro ⟨o, w, hw, ho, hnew, rfl⟩
    have hs : (slotOf (bests groups (keyOf w))).isSome := by
      rw [slotOf_isSome]
      intro hnil
      rw [← head?_bests, hnil] at ho
      cases ho
    obtain ⟨s, hs⟩ := Option.isSome_iff_exists.mp hs
    have hspec := slotOf_spec hs
    have hbest := hspec.best
    have horigin := hspec.origin
    rw [newestOf_bests, hw, Option.some.injEq] at hbest
    rw [head?_bests.mpr ho, Option.some.injEq] at horigin
    refine ⟨keyOf w, s, hs, ?_⟩
    unfold Slot.replacement
    rw [if_neg (hspec.moved.mpr (by rw [← hbest, ← horigin]; exact packageIsNewer_iff.mp hnew)),
      ← hbest, ← horigin]
    rfl

end Replacements

/-! ## Newest wins -/

/-- **Newest wins.** A key some repository carries has one winner, one of its builds that
    no build of it is newer than, from the first repository that has one as new; nothing
    else is kept. Another order of the repositories or of the builds in them changes no
    winner's version, and a replacement is reported for the winners newer than what the
    first repository that carries the key had. -/
theorem newest_wins (groups : List (String × List PackageRecord)) :
    (∀ key, (buildsOf groups key = [] ∧
        (mergePackages groups).packages.filter (fun pkg => keyOf pkg = key) = []) ∨
      ∃ w ∈ buildsOf groups key,
        (mergePackages groups).packages.filter (fun pkg => keyOf pkg = key) = [w] ∧
        (∀ b ∈ buildsOf groups key, compareEvr (evrOf b) (evrOf w) ≤ 0) ∧
        ∃ before group after, groups = before ++ group :: after ∧ w ∈ group.2 ∧
          ∀ group' ∈ before, ∀ b ∈ ofKey key group'.2, compareEvr (evrOf b) (evrOf w) < 0) ∧
    (∀ groups', Rearranged groups groups' → ∀ key,
      Option.Rel (fun w w' => compareEvr (evrOf w) (evrOf w') = 0)
        ((mergePackages groups).packages.find? fun pkg => keyOf pkg = key)
        ((mergePackages groups').packages.find? fun pkg => keyOf pkg = key)) ∧
    ∀ r, r ∈ (mergePackages groups).replacements ↔
      ∃ o w, w ∈ (mergePackages groups).packages ∧ FirstCarried groups (keyOf w) o ∧
        packageIsNewer w o = true ∧
        r = ⟨w.name, w.arch, evrString o, o.repo, evrString w, w.repo⟩ := by
  have hlt : ∀ a b : PackageRecord, ageKey a < ageKey b → compareEvr (evrOf a) (evrOf b) < 0 := by
    intro a b h
    have h1 := compareEvr_nonpos.mpr h.le
    have h2 := mt compareEvr_eq_zero.mp h.ne
    exact lt_of_le_of_ne h1 h2
  refine ⟨fun key => ?_, fun groups' h key => ?_, fun r => ?_⟩
  · rw [filter_packages]
    cases hw : newestOf (buildsOf groups key) with
    | none => exact Or.inl ⟨newestOf_eq_none.mp hw, rfl⟩
    | some w =>
      obtain ⟨before, group, after, hgroups, hmem, hbefore⟩ := first_of_newestOf hw
      exact Or.inr ⟨w, newestOf_mem hw, rfl,
        fun b hb => compareEvr_nonpos.mpr (newestOf_le hw hb),
        before, group, after, hgroups, hmem, fun g hg b hb => hlt b w (hbefore g hg b hb)⟩
  · have hfind : ∀ groups : List (String × List PackageRecord),
        ((mergePackages groups).packages.find? fun pkg => keyOf pkg = key) =
          newestOf (buildsOf groups key) := fun groups => by
      rw [← List.head?_filter, filter_packages]
      cases newestOf (buildsOf groups key) <;> rfl
    rw [hfind, hfind]
    exact newestOf_perm (buildsOf_perm h key)
  · rw [mem_replacements]
    simp only [mem_packages]

end BuckosDistro.Solve
