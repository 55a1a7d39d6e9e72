/-
  Sets of packages closed over their Requires (`tools/solve.py`, `solve_package_set` and
  `solve_image_sets`).

  Two lists of roots give the same set over every repodata exactly when they agree on the
  last mentions of their packages, order included (`sameRoots_iff`).
-/
import BuckosDistro.Depgraph.Roots
import BuckosDistro.Lib.Lists
import BuckosDistro.Solve.Records

namespace BuckosDistro.Solve

open BuckosDistro.Lib BuckosDistro.Depgraph

/-! ## The functions -/

/-- `solve_package_set` -/
def solvePackageSet (u : Universe) (roots : List String) (overrides : Dict String String)
    (scope : String) : List String × List Problem :=
  let missing := roots.filter (· ∉ u.binaryIndex.keys)
  let (closure, closureProblems) := runtimeClosure (u.lookup overrides) u.requires
    (roots.filter (· ∉ missing)) []
  (PyText.sorted closure,
    missing.map (fun root => ⟨"missing-binary",
      "no binary package named " ++ PyText.repr root ++ " in repodata", scope⟩) ++
    closureProblems.map fun problem =>
      { problem with who := scope ++ " (" ++ problem.who ++ ")" })

/-- The overrides of an image set: its own, over those of the command line. -/
def scopedOverrides (overrides : Dict String String)
    (imageOverrides : Dict String (Dict String String)) (image : String) : Dict String String :=
  overrides.update (imageOverrides.getD image Dict.empty)

/-- `solve_image_sets` -/
def solveImageSets (u : Universe) (imageRoots : Dict String (List String))
    (overrides : Dict String String) (imageOverrides : Dict String (Dict String String)) :
    Dict String (List String) × List Problem :=
  let names := PyText.sortedSet imageRoots.keys
  let set (image : String) := solvePackageSet u (imageRoots.getD image [])
    (scopedOverrides overrides imageOverrides image) ("image:" ++ image)
  (Dict.ofKeys names fun image => (set image).1,
    names.flatMap fun image =>
      validateOverrides (imageOverrides.getD image Dict.empty) u.provides ("image:" ++ image) ++
        (set image).2)

/-! ## Roots -/

section Roots

variable {u : Universe} {roots roots' : List String} {overrides : Dict String String}
  {scope : String}

/-- The set is the closure of the roots that have a build. -/
theorem solvePackageSet_fst :
    (solvePackageSet u roots overrides scope).1 =
      PyText.sorted (runtimeClosure (u.lookup overrides) u.requires
        (roots.filter (· ∈ u.binaryIndex.keys)) []).1 := by
  have hkept : roots.filter (· ∉ roots.filter (· ∉ u.binaryIndex.keys)) =
      roots.filter (· ∈ u.binaryIndex.keys) := by
    refine List.filter_congr fun root hroot => ?_
    by_cases hk : root ∈ u.binaryIndex.keys <;> simp [hroot, hk]
  unfold solvePackageSet
  dsimp only
  rw [hkept]

/-- A set is without problems when its roots have builds and their closure has none. -/
theorem solvePackageSet_snd : (solvePackageSet u roots overrides scope).2 = [] ↔
    (∀ root ∈ roots, root ∈ u.binaryIndex.keys) ∧
      (runtimeClosure (u.lookup overrides) u.requires roots []).2 = [] := by
  have hmissing : roots.filter (· ∉ u.binaryIndex.keys) = [] ↔
      ∀ root ∈ roots, root ∈ u.binaryIndex.keys := by
    simp only [List.filter_eq_nil_iff, decide_eq_true_eq, not_not]
  have hkept : roots.filter (· ∉ ([] : List String)) = roots := by simp
  unfold solvePackageSet
  dsimp only
  rw [List.append_eq_nil_iff, List.map_eq_nil_iff, List.map_eq_nil_iff, hmissing]
  refine and_congr_right fun h => ?_
  rw [hmissing.mpr h, hkept]

/-- The same roots up to what a set depends on: over every repodata and all overrides they
    close to the same set. -/
def SameRoots (roots roots' : List String) : Prop :=
  ∀ (u : Universe) (overrides : Dict String String) (scope : String),
    (solvePackageSet u roots overrides scope).1 = (solvePackageSet u roots' overrides scope).1

theorem sameRoots_of_dedup (h : roots.dedup = roots'.dedup) : SameRoots roots roots' := by
  intro u overrides scope
  rw [solvePackageSet_fst, solvePackageSet_fst, closure_dedup,
    closure_dedup _ _ (roots'.filter (· ∈ u.binaryIndex.keys)), Lists.dedup_filter,
    Lists.dedup_filter, h]

/-- The builds a repodata carries, under these maps. -/
def repodataOf (names : List String) (L : Lookup) (requires : Dict String (List String)) :
    Universe :=
  { provides := L.provides
    provideEvr := L.provideEvr
    requires := requires
    sourceOf := Dict.empty
    subpackages := Dict.empty
    binaryIndex := Dict.ofKeys names fun name => { name := name }
    sourceIndex := Dict.empty
    foreignSourceOf := Dict.empty }

theorem keys_repodataOf (names : List String) (L : Lookup)
    (requires : Dict String (List String)) :
    (repodataOf names L requires).binaryIndex.keys = names := by
  have hkeys : (repodataOf names L requires).binaryIndex.keys = names.map id := by
    unfold repodataOf Dict.keys Dict.ofKeys
    rw [List.map_map]
    rfl
  rw [hkeys, List.map_id]

/-- A root that only one of them mentions makes a difference. -/
theorem mem_of_sameRoots (h : SameRoots roots roots') {root : String} (hroot : root ∈ roots) :
    root ∈ roots' := by
  by_contra hnot
  have hset := h (repodataOf [root] ⟨Dict.empty, Dict.empty, Dict.empty⟩ Dict.empty) Dict.empty ""
  rw [solvePackageSet_fst, solvePackageSet_fst, keys_repodataOf] at hset
  have hnone : roots'.filter (· ∈ [root]) = [] := by
    rw [List.filter_eq_nil_iff]
    intro other hother
    have hne : other ≠ root := fun he => hnot (he ▸ hother)
    simpa using hne
  have hclosure : ∀ fs : List String, (runtimeClosure
      ((repodataOf [root] ⟨Dict.empty, Dict.empty, Dict.empty⟩ Dict.empty).lookup Dict.empty)
      (Dict.empty : Dict String (List String)) fs []).1 = fs.reverse.toFinset := by
    intro fs
    have hrun := @closure_inert
      ((repodataOf [root] ⟨Dict.empty, Dict.empty, Dict.empty⟩ Dict.empty).lookup Dict.empty)
      Dict.empty fs fs.reverse [] [] rfl (fun _ _ => rfl) (fun _ hc => nomatch hc)
    exact congrArg Prod.fst hrun
  have hrequires : (repodataOf [root] ⟨Dict.empty, Dict.empty, Dict.empty⟩ Dict.empty).requires =
      Dict.empty := rfl
  rw [hrequires, hclosure, hclosure, hnone] at hset
  have hmem : root ∈ PyText.sorted (roots.filter (· ∈ [root])).reverse.toFinset := by
    simpa using hroot
  rw [hset] at hmem
  simp at hmem

/-- A name that is none of two. -/
theorem exists_fresh (a b : String) : ∃ p : String, p ≠ a ∧ p ≠ b := by
  obtain ⟨p, hp⟩ := Infinite.exists_notMem_finset ({a, b} : Finset String)
  simp only [Finset.mem_insert, Finset.mem_singleton, not_or] at hp
  exact ⟨p, hp⟩

/-- **When two lists of roots are the same** for every set closed from them. -/
theorem sameRoots_iff : SameRoots roots roots' ↔ roots.dedup = roots'.dedup := by
  refine ⟨fun h => ?_, sameRoots_of_dedup⟩
  by_contra hne
  have hsymm : SameRoots roots' roots := fun u overrides scope => (h u overrides scope).symm
  have hperm : roots.dedup.Perm roots'.dedup :=
    (List.perm_ext_iff_of_nodup (List.nodup_dedup _) (List.nodup_dedup _)).mpr fun root => by
      rw [List.mem_dedup, List.mem_dedup]
      exact ⟨mem_of_sameRoots h, mem_of_sameRoots hsymm⟩
  obtain ⟨a, b, hab, ha, hb⟩ := Lists.exists_swapped hperm (List.nodup_dedup _) hne
  obtain ⟨p, hpa, hpb⟩ := exists_fresh a b
  have hset := h (repodataOf [a, b] (twoRoots a b p) (soleRequirement a "(one if flag else two)"))
    Dict.empty ""
  have hpair : ∀ xs : List String, xs.filter (fun c => decide (c ∈ [a, b])) =
      xs.filter (fun c => decide (c = a ∨ c = b)) := by
    intro xs
    refine List.filter_congr fun c _ => ?_
    simp
  have hlookup : (repodataOf [a, b] (twoRoots a b p)
      (soleRequirement a "(one if flag else two)")).lookup Dict.empty = twoRoots a b p := rfl
  have hrequires : (repodataOf [a, b] (twoRoots a b p)
      (soleRequirement a "(one if flag else two)")).requires =
      soleRequirement a "(one if flag else two)" := rfl
  rw [solvePackageSet_fst, solvePackageSet_fst, keys_repodataOf, hlookup, hrequires,
    closure_dedup, closure_dedup _ _ (roots'.filter _), Lists.dedup_filter, Lists.dedup_filter,
    hpair, hpair, ha, hb, (closure_of_two_roots hab).1, (closure_of_two_roots hab).2] at hset
  have hmem : p ∈ PyText.sorted {a, b, p} := by simp
  rw [hset] at hmem
  simp [hpa, hpb] at hmem

end Roots

end BuckosDistro.Solve
