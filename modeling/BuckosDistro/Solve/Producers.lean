/-
  Who produces what (`tools/solve.py`, `apply_probed_producers`).

  `subpackages` and `source_of` are the same relation read from its two sides
  (`Inverse`). A probe report with a `produces` list rules out the claims of its source
  that it does not list. One report takes exactly these out of both maps, so any order of
  the reports ends in the same maps, and a second time changes nothing.
-/
import BuckosDistro.Solve.Universe

namespace BuckosDistro.Solve

open BuckosDistro.Lib BuckosDistro.Depgraph

/-! ## The code -/

/-- The two maps of producers. -/
structure Producers where
  subpackages : Dict String (List String)
  sourceOf : Dict String String

namespace Producers

/-- `if source_of.get(binary) == src: del source_of[binary]` -/
def forget (src : String) (sourceOf : Dict String String) (binary : String) :
    Dict String String :=
  if sourceOf.get? binary = some src then sourceOf.erase binary else sourceOf

/-- The body of the loop over the reports. -/
def applyReport (probe : Dict String Report) (m : Producers) (src : String) : Producers :=
  match probe.get? src with
  | none => m
  | some report =>
    if report.produces.isEmpty then m
    else
      let keep := (m.subpackages.getD src []).filter (· ∈ report.produces)
      let gone := (m.subpackages.getD src []).filter (· ∉ report.produces)
      if gone.isEmpty then m
      else ⟨m.subpackages.set src keep, gone.foldl (forget src) m.sourceOf⟩

end Producers

/-- The maps of a universe. -/
def Universe.producers (u : Universe) : Producers := ⟨u.subpackages, u.sourceOf⟩

/-- `apply_probed_producers` -/
def applyProbedProducers (u : Universe) (probe : Dict String Report) : Universe :=
  let m := (PyText.sortedSet probe.keys).foldl (Producers.applyReport probe) u.producers
  { u with subpackages := m.subpackages, sourceOf := m.sourceOf }

/-! ## One relation, two sides -/

/-- A binary is listed under a source exactly when it is filed under it. -/
def Producers.Inverse (m : Producers) : Prop :=
  ∀ binary src, binary ∈ m.subpackages.getD src [] ↔ m.sourceOf.get? binary = some src

/-- `build_universe` fills both maps from the same builds. -/
theorem inverse_buildUniverse (t : Target) (P S : List PackageRecord) :
    (buildUniverse t P S).producers.Inverse :=
  fun _ _ => mem_plainSubpackages nodup_plainIndex

/-! ## What a report rules out -/

section Reports

variable {probe : Dict String Report}

/-- The report of `src` says what its spec builds, and not this binary. -/
def RuledOut (probe : Dict String Report) (src binary : String) : Bool :=
  match probe.get? src with
  | none => false
  | some report => !report.produces.isEmpty && !(binary ∈ report.produces)

theorem get?_foldl_forget (src : String) (gone : List String) (sourceOf : Dict String String)
    (binary : String) :
    (gone.foldl (Producers.forget src) sourceOf).get? binary =
      if binary ∈ gone ∧ sourceOf.get? binary = some src then none
      else sourceOf.get? binary := by
  induction gone generalizing sourceOf with
  | nil => simp
  | cons b gone ih =>
    rw [List.foldl_cons, ih]
    have hforget : (Producers.forget src sourceOf b).get? binary =
        if binary = b ∧ sourceOf.get? binary = some src then none
        else sourceOf.get? binary := by
      unfold Producers.forget
      by_cases hb : binary = b
      · subst hb
        split_ifs with h1 h2 h2
        · simp
        · exact absurd ⟨rfl, h1⟩ h2
        · exact absurd h2.2 h1
        · rfl
      · split_ifs with h1 h2 h2
        · exact absurd h2.1 hb
        · simp [hb]
        · exact absurd h2.1 hb
        · rfl
    rw [hforget]
    by_cases hb : binary = b <;> by_cases hs : sourceOf.get? binary = some src <;> simp [hb, hs]

/-- `m'` is `m` without the claims `drop` names. -/
structure Without (drop : String → String → Bool) (m m' : Producers) : Prop where
  subpackages : ∀ src, m'.subpackages.get? src = (m.subpackages.get? src).map fun binaries =>
    binaries.filter fun binary => !drop src binary
  sourceOf : ∀ binary, m'.sourceOf.get? binary =
    (m.sourceOf.get? binary).filter fun src => !drop src binary

theorem Without.inverse {drop : String → String → Bool} {m m' : Producers}
    (h : Without drop m m') (hm : m.Inverse) : m'.Inverse := by
  intro binary src
  have hmem := hm binary src
  unfold Dict.getD at hmem ⊢
  rw [h.subpackages, h.sourceOf, Option.filter_eq_some_iff, ← hmem]
  cases m.subpackages.get? src with
  | none => simp
  | some binaries =>
    rw [Option.map_some, Option.getD_some, Option.getD_some, List.mem_filter]

theorem Without.trans {drop drop' : String → String → Bool} {m m' m'' : Producers}
    (h : Without drop m m') (h' : Without drop' m' m'') :
    Without (fun src binary => drop src binary || drop' src binary) m m'' := by
  refine ⟨fun src => ?_, fun binary => ?_⟩
  · rw [h'.subpackages, h.subpackages, Option.map_map]
    congr 1
    funext binaries
    rw [Function.comp_apply, List.filter_filter]
    congr 1
    funext binary
    rw [Bool.not_or, Bool.and_comm]
  · rw [h'.sourceOf, h.sourceOf]
    cases m.sourceOf.get? binary with
    | none => rfl
    | some src => cases hd : drop src binary <;> simp [Option.filter, hd]

/-- One report takes out the claims it rules out. -/
theorem without_applyReport {m : Producers} (hm : m.Inverse) (src : String) :
    Without (fun s binary => s = src && RuledOut probe s binary) m (m.applyReport probe src) := by
  have hsame : (∀ binary ∈ m.subpackages.getD src [], RuledOut probe src binary = false) →
      Without (fun s binary => s = src && RuledOut probe s binary) m m := by
    intro hall
    refine ⟨fun s => ?_, fun binary => ?_⟩
    · cases hs : m.subpackages.get? s with
      | none => rfl
      | some binaries =>
        rw [Option.map_some, List.filter_eq_self.mpr]
        intro binary hb
        by_cases he : s = src
        · subst he
          rw [hall binary (by rw [Dict.getD_eq_of_get? [] hs]; exact hb)]
          simp
        · simp [he]
    · cases hs : m.sourceOf.get? binary with
      | none => rfl
      | some s =>
        by_cases he : s = src
        · subst he
          simp [Option.filter, hall binary ((hm binary s).mpr hs)]
        · simp [Option.filter, he]
  unfold Producers.applyReport
  cases hr : probe.get? src with
  | none => exact hsame fun binary _ => by simp [RuledOut, hr]
  | some report =>
    dsimp only
    have hruled : ∀ binary, RuledOut probe src binary =
        (!report.produces.isEmpty && !decide (binary ∈ report.produces)) := fun binary => by
      unfold RuledOut
      rw [hr]
    split_ifs with hempty hgone
    · exact hsame fun binary _ => by rw [hruled, hempty]; rfl
    · rw [List.isEmpty_iff, List.filter_eq_nil_iff] at hgone
      exact hsame fun binary hb => by
        have := hgone binary hb
        rw [hruled]
        simpa using fun _ => by simpa using this
    · rw [Bool.not_eq_true] at hempty
      have hruled' : ∀ binary, RuledOut probe src binary = !decide (binary ∈ report.produces) :=
        fun binary => by rw [hruled, hempty]; rfl
      refine ⟨fun s => ?_, fun binary => ?_⟩
      · dsimp only
        rw [Dict.get?_set]
        by_cases he : s = src
        · subst he
          rw [if_pos rfl]
          cases hs : m.subpackages.get? s with
          | none => simp [Dict.getD, hs] at hgone
          | some binaries =>
            rw [Dict.getD_eq_of_get? [] hs, Option.map_some]
            congr 2
            funext binary
            rw [hruled']
            simp
        · rw [if_neg he]
          cases m.subpackages.get? s with
          | none => rfl
          | some binaries => simp [he]
      · dsimp only
        rw [get?_foldl_forget]
        cases hs : m.sourceOf.get? binary with
        | none => simp
        | some s =>
          by_cases he : s = src
          · subst he
            have hmem := (hm binary s).mpr hs
            by_cases hp : binary ∈ report.produces <;> simp [Option.filter, hruled', hmem, hp]
          · simp [Option.filter, he]

/-- The reports, in any order, take out what they rule out. -/
theorem without_foldl {m : Producers} (hm : m.Inverse) (srcs : List String) :
    Without (fun src binary => src ∈ srcs && RuledOut probe src binary) m
      (srcs.foldl (Producers.applyReport probe) m) := by
  induction srcs using List.reverseRecOn with
  | nil =>
    refine ⟨fun src => ?_, fun binary => ?_⟩
    · rw [List.foldl_nil]
      cases m.subpackages.get? src with
      | none => rfl
      | some binaries => simp
    · rw [List.foldl_nil]
      cases m.sourceOf.get? binary with
      | none => rfl
      | some src => simp [Option.filter]
  | append_singleton srcs src ih =>
    rw [List.foldl_append, List.foldl_cons, List.foldl_nil]
    have h := ih.trans (@without_applyReport probe _ (ih.inverse hm) src)
    have hdrop : (fun s binary => (decide (s ∈ srcs) && RuledOut probe s binary) ||
        (decide (s = src) && RuledOut probe s binary)) =
        fun s binary => decide (s ∈ srcs ++ [src]) && RuledOut probe s binary := by
      funext s binary
      rw [← Bool.and_or_distrib_right]
      simp
    rw [hdrop] at h
    exact h

/-- A source without a report rules nothing out. -/
theorem without_reports {m : Producers} (hm : m.Inverse) {srcs : List String}
    (hsrcs : ∀ src, src ∈ probe.keys → src ∈ srcs) :
    Without (RuledOut probe) m (srcs.foldl (Producers.applyReport probe) m) := by
  have hdrop : (fun src binary => decide (src ∈ srcs) && RuledOut probe src binary) =
      RuledOut probe := by
    funext src binary
    by_cases hs : src ∈ srcs
    · simp [hs]
    · have hn : probe.get? src = none := by
        have := mt (hsrcs src) hs
        rwa [Dict.mem_keys_iff, Bool.not_eq_true, Option.isSome_eq_false_iff,
          Option.isNone_iff_eq_none] at this
      simp [RuledOut, hn]
  rw [← hdrop]
  exact without_foldl hm srcs

theorem without_applyProbedProducers {u : Universe} (hu : u.producers.Inverse) :
    Without (RuledOut probe) u.producers (applyProbedProducers u probe).producers :=
  without_reports hu fun _ => PyText.mem_sortedSet.mpr

/-- Two pairs of maps that answer alike. -/
structure SameProducers (m m' : Producers) : Prop where
  subpackages : ∀ src, m.subpackages.get? src = m'.subpackages.get? src
  sourceOf : ∀ binary, m.sourceOf.get? binary = m'.sourceOf.get? binary

/-- What is left out once stays left out. -/
theorem Without.idem {drop : String → String → Bool} {m m' m'' : Producers}
    (h : Without drop m m') (h' : Without drop m' m'') : SameProducers m'' m' := by
  refine ⟨fun src => ?_, fun binary => ?_⟩
  · rw [h'.subpackages, h.subpackages]
    cases m.subpackages.get? src <;> simp
  · rw [h'.sourceOf, h.sourceOf]
    cases m.sourceOf.get? binary with
    | none => rfl
    | some src => cases hd : drop src binary <;> simp [Option.filter, hd]

end Reports

end BuckosDistro.Solve
