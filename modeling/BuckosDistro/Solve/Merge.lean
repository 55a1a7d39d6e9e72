/-
  Merging repositories (`tools/solve.py`, `merge_packages` and `merge_fallback_packages`).

  The three maps `index`, `origin` and `candidates` of the source have the same keys, so a
  `Slot` holds what they say of one key. The source asks of two records whether they are
  the same object: every entry of a repository is an object of its own, and a record is
  told apart by its place among the candidates (`bestAt`).

  What a key ends up with depends on its own builds alone (`get?_slots`): the newest build
  of each repository, and of these the first newest one.
-/
import BuckosDistro.Depgraph.VersionOrder
import BuckosDistro.Solve.Records

namespace BuckosDistro.Solve

open BuckosDistro.Lib BuckosDistro.Depgraph

/-! ## Builds -/

/-- The slot a build takes: its name and architecture. -/
abbrev Key := String × String

def keyOf (pkg : PackageRecord) : Key := (pkg.name, pkg.arch)

/-- The triple two builds are compared by. -/
def evrOf (pkg : PackageRecord) : Evr := ⟨pkg.epoch, pkg.version, pkg.release⟩

/-- `package_is_newer` -/
def packageIsNewer (candidate incumbent : PackageRecord) : Bool :=
  compareEvr (evrOf candidate) (evrOf incumbent) > 0

/-- `_evr_string` -/
def evrString (pkg : PackageRecord) : String :=
  let start :=
    match pkg.epoch with
    | none | some "" | some "0" => ""
    | some epoch => epoch ++ ":"
  start ++ pkg.version.getD "None" ++ "-" ++ pkg.release.getD "None"

/-! ## The merge -/

/-- `group_best`: of each key the newest build of one repository. -/
def groupBest (packages : List PackageRecord) : Dict Key PackageRecord :=
  packages.foldl (fun best pkg =>
    match best.get? (keyOf pkg) with
    | none => best.set (keyOf pkg) pkg
    | some incumbent =>
      if packageIsNewer pkg incumbent then best.set (keyOf pkg) pkg else best) Dict.empty

/-- What the maps hold for one key: `origin[key]`, `index[key]` with its place in the
    candidates, and `candidates[key]`. -/
structure Slot where
  origin : PackageRecord
  best : PackageRecord
  bestAt : ℕ
  candidates : List PackageRecord

/-- The body of the loop over `group_best`. -/
def Slot.add (pkg : PackageRecord) (slot : Option Slot) : Slot :=
  match slot with
  | none => ⟨pkg, pkg, 0, [pkg]⟩
  | some s =>
    if packageIsNewer pkg s.best then
      { s with best := pkg, bestAt := s.candidates.length, candidates := s.candidates ++ [pkg] }
    else { s with candidates := s.candidates ++ [pkg] }

/-- The loop over the repositories. -/
def mergeSlots (groups : List (String × List PackageRecord)) : Dict Key Slot :=
  groups.foldl (fun slots group => (groupBest group.2).items.foldl (fun slots item =>
    slots.set item.1 (Slot.add item.2 (slots.get? item.1))) slots) Dict.empty

/-- `sorted(keys)` -/
def sortKeys (keys : List Key) : List Key :=
  keys.insertionSort fun a b => toLex a ≤ toLex b

/-- A reported update: what won over what the first repository had. -/
structure Replacement where
  name : String
  arch : String
  fromEvr : String
  fromRepo : Option String
  toEvr : String
  toRepo : Option String
deriving DecidableEq, Repr

/-- The replacement of a key, if its winner is not the build it started with. -/
def Slot.replacement (key : Key) (s : Slot) : Option Replacement :=
  if s.bestAt = 0 then none
  else some ⟨key.1, key.2, evrString s.origin, s.origin.repo, evrString s.best, s.best.repo⟩

/-- `superseded[key]`: the candidates that lost, under their versions. -/
def Slot.losers (s : Slot) : Dict String PackageRecord :=
  s.candidates.zipIdx.foldl (fun losers (pkg, i) =>
    if i = s.bestAt then losers else losers.set (evrString pkg) pkg) Dict.empty

/-- What `merge_packages` returns. -/
structure Merged where
  packages : List PackageRecord
  replacements : List Replacement
  superseded : Dict Key (Dict String PackageRecord)

/-- `merge_packages` -/
def mergePackages (groups : List (String × List PackageRecord)) : Merged :=
  let slots := mergeSlots groups
  let keys := sortKeys slots.keys
  { packages := keys.filterMap fun key => (slots.get? key).map Slot.best
    replacements := keys.filterMap fun key => (slots.get? key).bind (Slot.replacement key)
    superseded := ⟨keys.filterMap fun key => (slots.get? key).bind fun s =>
      if s.losers.items.isEmpty then none else some (key, s.losers)⟩ }

/-- What `merge_fallback_packages` returns. -/
structure FallbackMerged where
  combined : List PackageRecord
  added : List PackageRecord
  shadowed : List PackageRecord
  superseded : Dict Key (Dict String PackageRecord)

/-- `merge_fallback_packages` -/
def mergeFallbackPackages (composePackages : List PackageRecord)
    (fallbackGroups : List (String × List PackageRecord)) : FallbackMerged :=
  let m := mergePackages fallbackGroups
  let composeKeys := composePackages.map keyOf
  let added := m.packages.filter fun pkg => keyOf pkg ∉ composeKeys
  { combined := (composePackages ++ added).insertionSort fun a b =>
      toLex (keyOf a) ≤ toLex (keyOf b)
    added := added
    shadowed := m.packages.filter fun pkg => keyOf pkg ∈ composeKeys
    superseded := ⟨m.superseded.items.filter fun item => item.1 ∈ added.map keyOf⟩ }

/-! ## The newest build -/

section Newest

/-- What the order of builds is by. -/
def ageKey (pkg : PackageRecord) : ℤ ×ₗ List Mark ×ₗ List Mark := evrKey (evrOf pkg)

theorem packageIsNewer_iff {candidate incumbent : PackageRecord} :
    packageIsNewer candidate incumbent = true ↔ ageKey incumbent < ageKey candidate := by
  unfold packageIsNewer ageKey
  rw [compareEvr_eq, decide_eq_true_iff, gt_iff_lt, ← not_le, orderSign_nonpos, not_le]

theorem compareEvr_nonpos {a b : PackageRecord} :
    compareEvr (evrOf a) (evrOf b) ≤ 0 ↔ ageKey a ≤ ageKey b := by
  rw [compareEvr_eq, orderSign_nonpos]
  rfl

theorem compareEvr_eq_zero {a b : PackageRecord} :
    compareEvr (evrOf a) (evrOf b) = 0 ↔ ageKey a = ageKey b := by
  rw [compareEvr_eq, orderSign_eq_zero]
  rfl

/-- The first of the newest builds of a list. -/
noncomputable def newestOf (builds : List PackageRecord) :
    Option PackageRecord := builds.argmax ageKey

/-- The builds of one key. -/
def ofKey (key : Key) (packages : List PackageRecord) : List PackageRecord :=
  packages.filter fun pkg => keyOf pkg = key

theorem mem_ofKey {key : Key} {packages : List PackageRecord} {pkg : PackageRecord} :
    pkg ∈ ofKey key packages ↔ pkg ∈ packages ∧ keyOf pkg = key := by
  simp [ofKey]

theorem newestOf_concat (builds : List PackageRecord) (pkg : PackageRecord) :
    newestOf (builds ++ [pkg]) = match newestOf builds with
      | none => some pkg
      | some incumbent => if packageIsNewer pkg incumbent then some pkg else some incumbent := by
  unfold newestOf
  rw [List.argmax_concat]
  cases builds.argmax ageKey with
  | none => rfl
  | some incumbent => simp only [packageIsNewer_iff]

theorem newestOf_eq_champion (builds : List PackageRecord) :
    newestOf builds = Dict.champion packageIsNewer builds := by
  induction builds using List.reverseRecOn with
  | nil => rfl
  | append_singleton builds pkg ih =>
    rw [newestOf_concat, Dict.champion_concat, ih]
    cases Dict.champion packageIsNewer builds <;> rfl

theorem groupBest_eq (packages : List PackageRecord) :
    groupBest packages = Dict.collapse keyOf packageIsNewer packages := by
  unfold groupBest Dict.collapse
  congr 1
  funext best pkg
  cases best.get? (keyOf pkg) <;> rfl

/-- Of a repository the merge keeps the newest build of each key. -/
theorem get?_groupBest (packages : List PackageRecord) (key : Key) :
    (groupBest packages).get? key = newestOf (ofKey key packages) := by
  rw [newestOf_eq_champion, groupBest_eq]
  exact Dict.get?_collapse keyOf packageIsNewer packages key

theorem nodup_groupBest (packages : List PackageRecord) :
    (groupBest packages).keys.Nodup := by
  rw [groupBest_eq]
  exact Dict.nodup_collapse keyOf packageIsNewer packages

end Newest

/-! ## One key -/

section Slots

/-- The newest build of a key in each repository that carries it, in order. -/
noncomputable def bests (groups : List (String × List PackageRecord)) (key : Key) :
    List PackageRecord :=
  groups.filterMap fun group => newestOf (ofKey key group.2)

/-- The slot of a key whose candidates come in this order. -/
def slotOf (candidates : List PackageRecord) : Option Slot :=
  candidates.foldl (fun slot pkg => some (Slot.add pkg slot)) none

theorem slotOf_concat (candidates : List PackageRecord) (pkg : PackageRecord) :
    slotOf (candidates ++ [pkg]) = some (Slot.add pkg (slotOf candidates)) := by
  unfold slotOf
  rw [List.foldl_append]
  rfl

/-- **The slot of a key is made of its own builds.** -/
theorem get?_slots (groups : List (String × List PackageRecord)) (key : Key) :
    (mergeSlots groups).get? key = slotOf (bests groups key) := by
  induction groups using List.reverseRecOn with
  | nil => rfl
  | append_singleton groups group ih =>
    have hstep : mergeSlots (groups ++ [group]) =
        (groupBest group.2).items.foldl (fun slots item =>
          slots.set item.1 (Slot.add item.2 (slots.get? item.1))) (mergeSlots groups) := by
      unfold mergeSlots
      rw [List.foldl_append]
      rfl
    have hbests : bests (groups ++ [group]) key =
        bests groups key ++ (newestOf (ofKey key group.2)).toList := by
      unfold bests
      rw [List.filterMap_append, List.filterMap_cons, List.filterMap_nil]
      cases newestOf (ofKey key group.2) <;> rfl
    have hget := get?_groupBest group.2 key
    unfold Dict.get? at hget
    rw [hstep, Dict.get?_foldl_set Slot.add _ (nodup_groupBest group.2), hget, hbests, ih]
    cases newestOf (ofKey key group.2) with
    | none => simp
    | some pkg => rw [Option.toList_some, slotOf_concat]

/-- What a slot says of its candidates. -/
structure SlotOf (builds : List PackageRecord) (s : Slot) : Prop where
  candidates : s.candidates = builds
  origin : builds.head? = some s.origin
  best : newestOf builds = some s.best
  bestAt : builds[s.bestAt]? = some s.best
  before : ∀ i pkg, i < s.bestAt → builds[i]? = some pkg → ageKey pkg < ageKey s.best
  moved : s.bestAt ≠ 0 ↔ ageKey s.origin < ageKey s.best

theorem slotOf_spec {candidates : List PackageRecord} {s : Slot}
    (h : slotOf candidates = some s) : SlotOf candidates s := by
  induction candidates using List.reverseRecOn generalizing s with
  | nil => cases h
  | append_singleton candidates pkg ih =>
    rw [slotOf_concat, Option.some.injEq] at h
    cases hs : slotOf candidates with
    | none =>
      have hnil : candidates = [] := by
        rcases List.eq_nil_or_concat candidates with h' | ⟨l, a, h'⟩
        · exact h'
        · rw [h', List.concat_eq_append, slotOf_concat] at hs
          cases hs
      rw [hs] at h
      subst h hnil
      exact ⟨rfl, rfl, rfl, rfl, fun i p hi => absurd hi (Nat.not_lt_zero i), by simp [Slot.add]⟩
    | some t =>
      obtain ⟨h1, h2, h3, h4, h5, h6⟩ := ih hs
      have hlt : t.bestAt < candidates.length := (List.getElem?_eq_some_iff.mp h4).1
      have hpos : 0 < candidates.length := Nat.zero_lt_of_lt hlt
      have hhead : (candidates ++ [pkg]).head? = some t.origin := by
        rw [List.head?_append, h2]
        rfl
      have hold : ∀ i q, i < candidates.length → (candidates ++ [pkg])[i]? = some q →
          candidates[i]? = some q := fun i q hi hq => by
        rwa [List.getElem?_append_left hi] at hq
      have hle : ageKey t.origin ≤ ageKey t.best :=
        List.le_of_mem_argmax (List.mem_of_mem_head? h2) h3
      have hnewest := newestOf_concat candidates pkg
      rw [h3] at hnewest
      dsimp only at hnewest
      rw [hs] at h
      unfold Slot.add at h
      dsimp only at h
      by_cases hn : packageIsNewer pkg t.best = true
      · rw [if_pos hn] at h hnewest
        subst h
        have hkey := packageIsNewer_iff.mp hn
        refine ⟨by rw [h1], hhead, hnewest, by simp [h1], fun i q hi hq => ?_, ?_⟩
        · rw [h1] at hi
          have hq' := hold i q hi hq
          exact lt_of_le_of_lt (List.le_of_mem_argmax (List.mem_of_getElem? hq') h3) hkey
        · rw [h1]
          exact ⟨fun _ => lt_of_le_of_lt hle hkey, fun _ => hpos.ne'⟩
      · rw [if_neg hn] at h hnewest
        subst h
        refine ⟨by rw [h1], hhead, hnewest, ?_, fun i q hi hq => ?_, h6⟩
        · rw [List.getElem?_append_left hlt]
          exact h4
        · exact h5 i q hi (hold i q (lt_trans hi hlt) hq)

theorem slotOf_isSome {candidates : List PackageRecord} :
    (slotOf candidates).isSome ↔ candidates ≠ [] := by
  rcases List.eq_nil_or_concat candidates with h | ⟨l, a, h⟩
  · simp [h, slotOf]
  · simp [h, slotOf_concat]

end Slots

end BuckosDistro.Solve
