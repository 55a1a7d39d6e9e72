/-
  The targets of a release (`defs/rpm_family.bzl`, `rpm_packages`), as far as they say which
  recipe is behind a target.

  A recipe is built once under its own name, or once for every stage of its cycle under the
  names the solver chose. A probe of a recipe asks its first stage.
-/
import BuckosDistro.Generate.Collect

namespace BuckosDistro.Family

open BuckosDistro.Lib BuckosDistro.Depgraph BuckosDistro.Generate

/-! ## Providers -/

/-- `_binary_providers`: binary names to their normal recipes. -/
def binaryProviders (recipes : List Recipe) (skip : List String) : Dict String Recipe :=
  (recipes.filter fun recipe =>
    !(recipe.variantOf.any (· ≠ "") || recipe.name ∈ skip)).foldl (fun provider recipe =>
      recipe.subpackages.foldl (fun provider subpackage => provider.set subpackage recipe)
        provider) Dict.empty

/-! ## Stages -/

/-- `_stage_key` -/
def stageKey (source : String) (stage : ℕ) : String := source ++ "/stage" ++ toString stage

/-- `stage_target` -/
def stageTargets (staged : List StageEntry) : Dict String String :=
  staged.foldl (fun targets entry => targets.set (stageKey entry.source entry.stage) entry.target)
    Dict.empty

/-- `_recipe_named` -/
def recipeNamed (recipes : List Recipe) (name : String) : Option Recipe :=
  recipes.find? fun recipe => recipe.name = name

/-- The `_rpm_one_package` calls, in order: the target name and the recipe of each. `none`
    where a staged source has no recipe. -/
def packageCalls (data : Generated) : Option (List (String × Recipe)) := do
  let plain := data.recipes.filter fun recipe => recipe.name ∉ data.staged.map StageEntry.source
  let staged ← data.staged.mapM fun entry =>
    (recipeNamed data.recipes entry.source).map fun recipe => (entry.target, recipe)
  return plain.map (fun recipe => (recipe.name, recipe)) ++ staged

/-! ## Probes -/

/-- The target a probe alias stands for, without its suffixes. -/
def probeTarget (staged : List StageEntry) (source : String) : String :=
  (stageTargets staged).getD (stageKey source 1) source

/-! ## The calls -/

section Calls

variable {data : Generated} {calls : List (String × Recipe)}

theorem recipeNamed_eq {recipes : List Recipe} (hn : (recipes.map Recipe.name).Nodup)
    {recipe : Recipe} (h : recipe ∈ recipes) :
    recipeNamed recipes recipe.name = some recipe := by
  unfold recipeNamed
  induction recipes with
  | nil => cases h
  | cons head recipes ih =>
    rw [List.map_cons, List.nodup_cons] at hn
    rcases List.mem_cons.mp h with rfl | h
    · rw [List.find?_cons_of_pos (by simp)]
    · have hne : head.name ≠ recipe.name := by
        intro he
        exact hn.1 (he ▸ List.mem_map_of_mem h)
      rw [List.find?_cons_of_neg (by simpa using hne)]
      exact ih hn.2 h

/-- A recipe is called under its own name, or under the targets it is staged as. -/
theorem mem_packageCalls (h : packageCalls data = some calls) {target : String}
    {recipe : Recipe} :
    (target, recipe) ∈ calls ↔
      (recipe ∈ data.recipes ∧ recipe.name ∉ data.staged.map StageEntry.source ∧
        target = recipe.name) ∨
      ∃ entry ∈ data.staged, recipeNamed data.recipes entry.source = some recipe ∧
        target = entry.target := by
  unfold packageCalls at h
  obtain ⟨staged, hstaged, h⟩ := Option.bind_eq_some_iff.mp h
  obtain rfl := Option.some.inj h
  rw [List.mem_append]
  refine or_congr ?_ ?_
  · simp only [List.mem_map, List.mem_filter, decide_eq_true_eq, Prod.mk.injEq]
    constructor
    · rintro ⟨r, ⟨hr, hnot⟩, rfl, rfl⟩
      exact ⟨hr, hnot, rfl⟩
    · rintro ⟨hr, hnot, rfl⟩
      exact ⟨recipe, ⟨hr, hnot⟩, rfl, rfl⟩
  · constructor
    · intro hmem
      obtain ⟨entry, hentry, hcall⟩ := Lists.exists_of_mapM_mem hstaged hmem
      obtain ⟨r, hr, heq⟩ := Option.map_eq_some_iff.mp hcall
      obtain ⟨rfl, rfl⟩ := Prod.mk.inj heq
      exact ⟨entry, hentry, hr, rfl⟩
    · rintro ⟨entry, hentry, hr, rfl⟩
      obtain ⟨call, hmem, hcall⟩ := Lists.exists_of_mem_mapM hstaged hentry
      rw [hr] at hcall
      obtain rfl := Option.some.inj hcall
      exact hmem

theorem packageCalls_of_unstaged (h : data.staged = []) :
    packageCalls data = some (data.recipes.map fun recipe => (recipe.name, recipe)) := by
  unfold packageCalls
  rw [h]
  simp

/-- A target that is called once is called with its recipe. -/
theorem lookup_calls (hn : (calls.map Prod.fst).Nodup) {target : String} {recipe : Recipe}
    (h : (target, recipe) ∈ calls) : calls.lookup target = some recipe := by
  induction calls with
  | nil => cases h
  | cons call calls ih =>
    obtain ⟨t, r⟩ := call
    rw [List.map_cons, List.nodup_cons] at hn
    rcases List.mem_cons.mp h with heq | h
    · obtain ⟨rfl, rfl⟩ := Prod.mk.inj heq
      rw [List.lookup_cons_self]
    · have hne : target ≠ t := by
        intro he
        rw [he] at h
        exact hn.1 (List.mem_map.mpr ⟨(t, recipe), h, rfl⟩)
      rw [List.lookup_cons, beq_eq_false_iff_ne.mpr hne]
      exact ih hn.2 h

end Calls

end BuckosDistro.Family
