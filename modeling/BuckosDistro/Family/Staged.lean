/-
  The staged builds of a plan, and the targets they are looked up under.

  Every member of a cycle is built `stages` times, under names made of its own and the
  stage. The solver lists the builds and the macros look them up by source and stage; the
  key is unambiguous because nothing after its last slash is one.
-/
import BuckosDistro.Family.Recipes

namespace BuckosDistro.Family

open BuckosDistro.Lib BuckosDistro.Depgraph BuckosDistro.Generate

/-! ## Keys -/

theorem slash_notMem_digits (k : ℕ) : '/' ∉ (toString k).toList := by
  intro h
  have hdigits : '/' ∈ Nat.toDigits 10 k := by
    rw [← Nat.toList_repr]
    exact h
  have hdigit := Nat.isDigit_of_mem_toDigits (by decide) (by decide) hdigits
  revert hdigit
  decide

theorem toList_stageKey (s : String) (k : ℕ) :
    (stageKey s k).toList = s.toList ++ '/' :: ("stage".toList ++ (toString k).toList) := by
  unfold stageKey
  rw [String.toList_append, String.toList_append, List.append_assoc]
  rfl

/-- A key determines its source and its stage. -/
theorem stageKey_inj {s t : String} {j k : ℕ} (h : stageKey s j = stageKey t k) :
    s = t ∧ j = k := by
  have hlist := congrArg String.toList h
  rw [toList_stageKey, toList_stageKey] at hlist
  have hnot : ∀ n : ℕ, '/' ∉ "stage".toList ++ (toString n).toList := by
    intro n hmem
    rcases List.mem_append.mp hmem with hmem | hmem
    · revert hmem
      decide
    · exact slash_notMem_digits n hmem
  obtain ⟨hst, hjk⟩ := Lists.append_cons_inj (hnot j) (hnot k) hlist
  refine ⟨String.toList_inj.mp hst, ?_⟩
  exact Nat.repr_inj.mp (String.toList_inj.mp (List.append_cancel_left hjk))

/-! ## The builds of a plan -/

/-- The target of a source at a stage. -/
def stageName (source : String) (stage : ℕ) : String := source ++ "-stage" ++ toString stage

section Plan

variable {buildDeps : Dict String (Finset String)} {sourceOf : Dict String String}
  {buildSet : List String} {stages : ℕ} {routes : Routes} {entry : StageEntry}

/-- A plan stages the members of the cycles, each at every stage from the first on. -/
theorem mem_staged :
    entry ∈ (stagedPlan buildDeps sourceOf buildSet stages routes).staged ↔
      let graph := projectToSourceGraph buildDeps sourceOf buildSet routes
      ∃ cycle ∈ findCycles graph, ∃ src ∈ cycle, ∃ i < stages,
        entry = stageEntry (PyText.sortedSet cycle) graph stages (i + 1) src := by
  unfold stagedPlan stageEntries
  simp only [List.mem_flatMap, List.mem_range, List.mem_map, PyText.mem_sortedSet]
  constructor
  · rintro ⟨cycle, hc, i, hi, src, hs, rfl⟩
    exact ⟨cycle, hc, src, hs, i, hi, rfl⟩
  · rintro ⟨cycle, hc, src, hs, i, hi, rfl⟩
    exact ⟨cycle, hc, i, hi, src, hs, rfl⟩

end Plan

/-- What the macros rely on in a list of staged builds. -/
structure Staged (staged : List StageEntry) : Prop where
  named : ∀ entry ∈ staged, entry.target = stageName entry.source entry.stage
  first : ∀ entry ∈ staged, ∃ entry' ∈ staged, entry'.source = entry.source ∧ entry'.stage = 1

section Staged

variable {staged : List StageEntry}

theorem staged_stagedPlan (buildDeps : Dict String (Finset String))
    (sourceOf : Dict String String) (buildSet : List String) {stages : ℕ} (routes : Routes) :
    Staged (stagedPlan buildDeps sourceOf buildSet stages routes).staged := by
  constructor
  · intro entry hentry
    obtain ⟨cycle, _, src, _, i, _, rfl⟩ := mem_staged.mp hentry
    rfl
  · intro entry hentry
    obtain ⟨cycle, hc, src, hs, i, hi, rfl⟩ := mem_staged.mp hentry
    exact ⟨_, mem_staged.mpr ⟨cycle, hc, src, hs, 0, by omega, rfl⟩, rfl, rfl⟩

/-- The target recorded for a source at a stage. -/
theorem get?_stageTargets (h : ∀ entry ∈ staged, entry.target = stageName entry.source entry.stage)
    (source : String) (stage : ℕ) :
    (stageTargets staged).get? (stageKey source stage) =
      if ∃ entry ∈ staged, entry.source = source ∧ entry.stage = stage then
        some (stageName source stage)
      else none := by
  unfold stageTargets
  induction staged using List.reverseRecOn with
  | nil => simp
  | append_singleton staged entry ih =>
    have ih := ih fun e he => h e (List.mem_append_left _ he)
    have hentry := h entry (by simp)
    rw [List.foldl_append, List.foldl_cons, List.foldl_nil, Dict.get?_set, ih]
    by_cases hkey : stageKey source stage = stageKey entry.source entry.stage
    · obtain ⟨rfl, rfl⟩ := stageKey_inj hkey
      rw [if_pos rfl, if_pos ⟨entry, by simp, rfl, rfl⟩, hentry]
    · have hne : ¬ (entry.source = source ∧ entry.stage = stage) := by
        rintro ⟨rfl, rfl⟩
        exact hkey rfl
      rw [if_neg hkey]
      refine if_congr ?_ rfl rfl
      constructor
      · rintro ⟨e, he, hs⟩
        exact ⟨e, List.mem_append_left _ he, hs⟩
      · rintro ⟨e, he, hs⟩
        rcases List.mem_append.mp he with he | he
        · exact ⟨e, he, hs⟩
        · rw [List.mem_singleton.mp he] at hs
          exact absurd hs hne

/-- A probe asks the first stage of a source that is staged. -/
theorem probeTarget_eq (h : Staged staged) (source : String) :
    probeTarget staged source =
      if source ∈ staged.map StageEntry.source then stageName source 1 else source := by
  unfold probeTarget Dict.getD
  rw [get?_stageTargets h.named]
  by_cases hmem : source ∈ staged.map StageEntry.source
  · obtain ⟨entry, hentry, rfl⟩ := List.mem_map.mp hmem
    obtain ⟨first, hfirst, hsource, hstage⟩ := h.first entry hentry
    rw [if_pos hmem, if_pos ⟨first, hfirst, hsource, hstage⟩]
    rfl
  · rw [if_neg hmem, if_neg ?_]
    · rfl
    · rintro ⟨entry, hentry, rfl, _⟩
      exact hmem (List.mem_map_of_mem hentry)

end Staged

end BuckosDistro.Family
