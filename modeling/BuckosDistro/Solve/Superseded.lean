/-
  What the merge of the repositories loses (`tools/solve.py`, `merge_packages`).

  `candidates` is meant to hold every build seen for a key, winners and losers alike, but
  only the newest build of each repository gets there. A build is kept when nothing of its
  key is newer, or when some repository's newest build has its EVR string and loses.
-/
import BuckosDistro.Solve.NewestWins

namespace BuckosDistro.Solve

open BuckosDistro.Lib BuckosDistro.Depgraph

/-! ## The losers of a slot -/

section Losers

/-- `superseded[key][version]` -/
def supersededAt (groups : List (String × List PackageRecord)) (key : Key) (version : String) :
    Option PackageRecord :=
  ((mergePackages groups).superseded.get? key).bind fun versions => versions.get? version

theorem isSome_get?_foldl (items : List (PackageRecord × ℕ)) (bestAt : ℕ) (version : String) :
    ((items.foldl (fun losers (pkg, i) =>
        if i = bestAt then losers else losers.set (evrString pkg) pkg)
      (Dict.empty : Dict String PackageRecord)).get? version).isSome ↔
      ∃ pkg i, (pkg, i) ∈ items ∧ i ≠ bestAt ∧ evrString pkg = version := by
  induction items using List.reverseRecOn with
  | nil => simp
  | append_singleton items item ih =>
    obtain ⟨pkg, i⟩ := item
    rw [List.foldl_append, List.foldl_cons, List.foldl_nil]
    dsimp only
    have hsplit : (∃ p j, (p, j) ∈ items ++ [(pkg, i)] ∧ j ≠ bestAt ∧ evrString p = version) ↔
        (∃ p j, (p, j) ∈ items ∧ j ≠ bestAt ∧ evrString p = version) ∨
          (i ≠ bestAt ∧ evrString pkg = version) := by
      constructor
      · rintro ⟨p, j, hmem, hj, hp⟩
        rcases List.mem_append.mp hmem with hmem | hmem
        · exact Or.inl ⟨p, j, hmem, hj, hp⟩
        · obtain ⟨rfl, rfl⟩ := Prod.mk.inj (List.mem_singleton.mp hmem)
          exact Or.inr ⟨hj, hp⟩
      · rintro (⟨p, j, hmem, hj, hp⟩ | ⟨hj, hp⟩)
        · exact ⟨p, j, List.mem_append_left _ hmem, hj, hp⟩
        · exact ⟨pkg, i, List.mem_append_right _ (List.mem_singleton.mpr rfl), hj, hp⟩
    rw [hsplit, ← ih]
    split_ifs with hi
    · simp [hi]
    · rw [Dict.get?_set]
      split_ifs with hv
      · simp [hi, hv]
      · simp [Ne.symm hv]

theorem isSome_get?_losers {builds : List PackageRecord} {s : Slot} (h : SlotOf builds s)
    (version : String) :
    (s.losers.get? version).isSome ↔
      ∃ i pkg, builds[i]? = some pkg ∧ i ≠ s.bestAt ∧ evrString pkg = version := by
  unfold Slot.losers
  rw [isSome_get?_foldl, h.candidates]
  constructor
  · rintro ⟨pkg, i, hmem, hi, hv⟩
    exact ⟨i, pkg, List.mem_zipIdx_iff_getElem?.mp hmem, hi, hv⟩
  · rintro ⟨i, pkg, hget, hi, hv⟩
    exact ⟨pkg, i, List.mem_zipIdx_iff_getElem?.mpr hget, hi, hv⟩

/-- A key's superseded builds are the losers of its slot. -/
theorem supersededAt_eq (groups : List (String × List PackageRecord)) (key : Key)
    (version : String) :
    supersededAt groups key version =
      (slotOf (bests groups key)).bind fun s => s.losers.get? version := by
  have hsuperseded : (mergePackages groups).superseded =
      ⟨(sortKeys (mergeSlots groups).keys).filterMap fun k =>
        (((mergeSlots groups).get? k).bind fun s =>
          if s.losers.items.isEmpty then none else some s.losers).map (Prod.mk k)⟩ := by
    unfold mergePackages
    refine congrArg Dict.mk (List.filterMap_congr fun k _ => ?_)
    cases (mergeSlots groups).get? k with
    | none => rfl
    | some s =>
      simp only [Option.bind_some]
      split_ifs <;> rfl
  unfold supersededAt
  rw [hsuperseded, Dict.get?_filterMap, get?_slots]
  · cases slotOf (bests groups key) with
    | none => rfl
    | some s =>
      simp only [Option.bind_some]
      split_ifs with hempty
      · unfold Dict.get?
        rw [List.isEmpty_iff.mp hempty]
        rfl
      · rfl
  · intro h
    rw [mem_sortKeys, Dict.mem_keys_iff, Bool.not_eq_true, Option.isSome_eq_false_iff,
      Option.isNone_iff_eq_none] at h
    rw [h]
    rfl

end Losers

/-! ## Beaten between repositories -/

section Beaten

variable {groups : List (String × List PackageRecord)} {key : Key}

/-- `l` is the newest build of a key in one repository, and another repository's newest
    build beats it: a later one that is newer, or an earlier one that is as new. -/
def BeatenAcross (groups : List (String × List PackageRecord)) (key : Key)
    (l : PackageRecord) : Prop :=
  ∃ before group after, groups = before ++ group :: after ∧
    newestOf (ofKey key group.2) = some l ∧
    ((∃ group' ∈ before, ∃ b ∈ ofKey key group'.2, compareEvr (evrOf l) (evrOf b) ≤ 0) ∨
      ∃ group' ∈ after, ∃ b ∈ ofKey key group'.2, packageIsNewer b l = true)

theorem mem_bests {l : PackageRecord} :
    l ∈ bests groups key ↔ ∃ group ∈ groups, newestOf (ofKey key group.2) = some l := by
  simp [bests]

/-- The newest build of a repository that carries the key is a candidate at the place its
    repository gives it. -/
theorem bests_split (before after : List (String × List PackageRecord))
    (group : String × List PackageRecord) {l : PackageRecord}
    (h : newestOf (ofKey key group.2) = some l) :
    bests (before ++ group :: after) key = bests before key ++ l :: bests after key := by
  unfold bests
  rw [List.filterMap_append, List.filterMap_cons, h]

theorem exists_split_of_bests {cs cs' : List PackageRecord} {l : PackageRecord}
    (h : bests groups key = cs ++ l :: cs') :
    ∃ before group after, groups = before ++ group :: after ∧ bests before key = cs ∧
      newestOf (ofKey key group.2) = some l ∧ bests after key = cs' := by
  unfold bests at h
  obtain ⟨front, back, rfl, hfront, hback⟩ := List.filterMap_eq_append_iff.mp h
  obtain ⟨skipped, group, after, rfl, hskipped, hl, hafter⟩ := List.filterMap_eq_cons_iff.mp hback
  refine ⟨front ++ skipped, group, after, by simp, ?_, hl, hafter⟩
  unfold bests
  rw [List.filterMap_append, hfront, List.filterMap_eq_nil_iff.mpr hskipped, List.append_nil]

/-- A candidate loses when it is not at the winner's place. -/
theorem beatenAcross_iff {s : Slot} (h : SlotOf (bests groups key) s) (l : PackageRecord) :
    BeatenAcross groups key l ↔ ∃ i, (bests groups key)[i]? = some l ∧ i ≠ s.bestAt := by
  constructor
  · rintro ⟨before, group, after, rfl, hl, hbeaten⟩
    have hsplit := bests_split before after group hl
    refine ⟨(bests before key).length, by rw [hsplit]; simp, fun hi => ?_⟩
    have hbest : s.best = l := by
      have hat := h.bestAt
      rw [hsplit, ← hi] at hat
      simpa [eq_comm] using hat
    rcases hbeaten with ⟨group', hgroup', b, hb, hle⟩ | ⟨group', hgroup', b, hb, hnew⟩
    · cases hn : newestOf (ofKey key group'.2) with
      | none =>
        rw [newestOf_eq_none.mp hn] at hb
        cases hb
      | some n =>
        obtain ⟨j, hj, hget⟩ := List.getElem_of_mem (mem_bests.mpr ⟨group', hgroup', hn⟩)
        have hlt := h.before j n (hi ▸ hj) (by
          rw [hsplit, List.getElem?_append_left hj, List.getElem?_eq_getElem hj, hget])
        rw [hbest] at hlt
        exact absurd (compareEvr_nonpos.mp hle) (not_le.mpr ((newestOf_le hn hb).trans_lt hlt))
    · have hw : newestOf (buildsOf (before ++ group :: after) key) = some s.best := by
        rw [← newestOf_bests]
        exact h.best
      have hmem : b ∈ buildsOf (before ++ group :: after) key :=
        mem_buildsOf.mpr ⟨group', by simp [hgroup'], hb⟩
      have hle := newestOf_le hw hmem
      rw [hbest] at hle
      exact absurd hle (not_le.mpr (packageIsNewer_iff.mp hnew))
  · rintro ⟨i, hget, hi⟩
    obtain ⟨hlt, rfl⟩ := List.getElem?_eq_some_iff.mp hget
    have hcut : bests groups key =
        (bests groups key).take i ++ (bests groups key)[i] :: (bests groups key).drop (i + 1) := by
      rw [← List.drop_eq_getElem_cons hlt, List.take_append_drop]
    obtain ⟨before, group, after, hgroups, hbefore, hl, hafter⟩ := exists_split_of_bests hcut
    refine ⟨before, group, after, hgroups, hl, ?_⟩
    have hle : ageKey (bests groups key)[i] ≤ ageKey s.best :=
      newestOf_le h.best (List.getElem_mem hlt)
    rcases lt_or_gt_of_ne hi with hi | hi
    · have hmem : s.best ∈ bests after key := by
        rw [hafter]
        refine List.mem_of_getElem? (i := s.bestAt - (i + 1)) ?_
        rw [List.getElem?_drop, Nat.add_sub_cancel' hi]
        exact h.bestAt
      obtain ⟨group', hgroup', hn⟩ := mem_bests.mp hmem
      exact Or.inr ⟨group', hgroup', s.best, newestOf_mem hn,
        packageIsNewer_iff.mpr (h.before i _ hi hget)⟩
    · have hmem : s.best ∈ bests before key := by
        rw [hbefore]
        refine List.mem_of_getElem? (i := s.bestAt) ?_
        rw [List.getElem?_take_of_lt hi]
        exact h.bestAt
      obtain ⟨group', hgroup', hn⟩ := mem_bests.mp hmem
      exact Or.inl ⟨group', hgroup', s.best, newestOf_mem hn, compareEvr_nonpos.mpr hle⟩

end Beaten

/-! ## What is kept -/

/-- A build is kept: its version is the winner's, or it is reachable under its key and its
    EVR string. -/
def Kept (groups : List (String × List PackageRecord)) (b : PackageRecord) : Prop :=
  (∃ w ∈ (mergePackages groups).packages, keyOf w = keyOf b ∧
    compareEvr (evrOf b) (evrOf w) = 0) ∨
    (supersededAt groups (keyOf b) (evrString b)).isSome

/-- **What the merge keeps.** A build of some repository is kept exactly when nothing of
    its key is newer, or when a repository's newest build has its EVR string and is beaten
    by another repository. -/
theorem kept_iff (groups : List (String × List PackageRecord)) (b : PackageRecord)
    (hb : b ∈ buildsOf groups (keyOf b)) :
    Kept groups b ↔
      (∀ c ∈ buildsOf groups (keyOf b), packageIsNewer c b = false) ∨
        ∃ l, BeatenAcross groups (keyOf b) l ∧ evrString l = evrString b := by
  have hsome : (slotOf (bests groups (keyOf b))).isSome := by
    rw [slotOf_isSome, ne_eq, ← newestOf_eq_none, newestOf_bests, newestOf_eq_none]
    exact List.ne_nil_of_mem hb
  obtain ⟨s, hs⟩ := Option.isSome_iff_exists.mp hsome
  have hspec := slotOf_spec hs
  have hw : newestOf (buildsOf groups (keyOf b)) = some s.best := by
    rw [← newestOf_bests]
    exact hspec.best
  have hkey : keyOf s.best = keyOf b := keyOf_of_mem_buildsOf (newestOf_mem hw)
  unfold Kept
  refine or_congr ⟨?_, fun h => ?_⟩ ?_
  · rintro ⟨w, hmem, hk, heq⟩ c hc
    rw [mem_packages, hk, hw, Option.some.injEq] at hmem
    subst hmem
    rw [← Bool.not_eq_true, packageIsNewer_iff, not_lt, compareEvr_eq_zero.mp heq]
    exact newestOf_le hw hc
  · refine ⟨s.best, by rw [mem_packages, hkey, hw], hkey, compareEvr_eq_zero.mpr ?_⟩
    have hn := h s.best (newestOf_mem hw)
    rw [← Bool.not_eq_true, packageIsNewer_iff, not_lt] at hn
    exact le_antisymm (newestOf_le hw hb) hn
  · rw [supersededAt_eq, hs, Option.bind_some, isSome_get?_losers hspec]
    simp only [beatenAcross_iff hspec]
    constructor
    · rintro ⟨i, l, hget, hi, hv⟩
      exact ⟨l, ⟨i, hget, hi⟩, hv⟩
    · rintro ⟨l, ⟨i, hget, hi⟩, hv⟩
      exact ⟨i, l, hget, hi, hv⟩

/-- Two releases of one package. -/
def aclOld : PackageRecord := { name := "acl", arch := "x86_64", version := "1", release := "1" }

def aclNew : PackageRecord := { name := "acl", arch := "x86_64", version := "2", release := "1" }

/-- In two repositories the older one is kept. -/
theorem kept_iff_acl :
    Kept [("releases", [aclOld]), ("updates", [aclNew])] aclOld ↔
      (∀ c ∈ buildsOf [("releases", [aclOld]), ("updates", [aclNew])] (keyOf aclOld),
        packageIsNewer c aclOld = false) ∨
        ∃ l, BeatenAcross [("releases", [aclOld]), ("updates", [aclNew])] (keyOf aclOld) l ∧
          evrString l = evrString aclOld :=
  kept_iff _ _ (by decide)

/-- In one repository it is lost. -/
theorem lost_inside_repository :
    ¬ ∀ groups : List (String × List PackageRecord), ∀ group ∈ groups, ∀ b ∈ group.2,
      Kept groups b := by
  intro h
  have hkept := h [("releases", [aclOld, aclNew])] _ List.mem_cons_self aclOld
    List.mem_cons_self
  revert hkept
  unfold Kept
  decide

end BuckosDistro.Solve
