/-
  The solve (`tools/solve.py`, `solve`).

  One source after another, in sorted order: its BuildRequires are resolved one by one
  into `direct`, what cannot be answered yet is handed to the closure as `extra`, and the
  closure is the source's build environment. The shared base is the closure of the
  implicit group alone. `strict` only prints the problems and exits, so it is left out.
-/
import BuckosDistro.Depgraph.Run
import BuckosDistro.Solve.Records

namespace BuckosDistro.Solve

open BuckosDistro.Lib BuckosDistro.Depgraph

/-! ## One source -/

/-- The local variables of the loop over the BuildRequires of one source. -/
structure Collected where
  direct : List String
  conditional : List (String × String)
  resolutions : Dict String String
  problems : List Problem

namespace Collected

/-- Before the first of them. -/
def start : Collected := ⟨[], [], Dict.empty, []⟩

/-- The body of the loop. Boolean expressions, and capabilities with several providers,
    are put off to the closure under their bare names. -/
def collect (L : Lookup) (src : String) (s : Collected) (cap : String) : Collected :=
  let base := stripCapabilityVersion cap
  if isRichDep base then { s with conditional := s.conditional ++ [(base, src)] }
  else
    match resolveCapability L cap src with
    | .ok provider =>
      { s with
        direct := s.direct ++ [provider]
        resolutions := s.resolutions.set base provider }
    | .error (.ambiguousProvider _ _) =>
      { s with conditional := s.conditional ++ [(base, src)] }
    | .error exc => { s with problems := s.problems ++ [⟨"unresolved", exc.message, src⟩] }

end Collected

/-- The loop over the BuildRequires. -/
def collectRequires (L : Lookup) (src : String) (requires : List String) : Collected :=
  requires.foldl (Collected.collect L src) Collected.start

/-- What the lockfile records about generated BuildRequires. -/
structure Dynamic where
  source : String
  capabilities : List String
  suspected : List String
  unmet : Bool
deriving DecidableEq, Repr

/-- The BuildRequires of a source: those of its report when it was probed, else those of
    its record. -/
def requiresFor (record : PackageRecord) (report : Option Report) (implicit : List String) :
    List String :=
  match report with
  | none => buildRequiresOf record implicit
  | some report => probedBuildrequires report implicit

def dynamicFor (record : PackageRecord) (report : Option Report) : Dynamic :=
  match report with
  | none => ⟨"repodata", [], detectDynamicBuildrequires record, false⟩
  | some report => ⟨"probe", report.dynamic.insertionSort (· ≤ ·), [], report.unmet⟩

/-- What one trip of the loop over the sources adds to each result. -/
structure SourceSolve where
  deps : Finset String
  resolutions : Dict String String
  dynamic : Option Dynamic
  problems : List Problem

/-- One trip of the loop over the sources. -/
def solveSource (u : Universe) (overrides : Dict String String) (probe : Dict String Report)
    (implicit : List String) (src : String) : SourceSolve :=
  let L := u.lookup overrides
  match u.sourceIndex.get? src with
  | none =>
    ⟨∅, Dict.empty, none, [⟨"missing-source",
      "no source package named " ++ PyText.repr src ++ " in repodata", src⟩]⟩
  | some record =>
    let s := collectRequires L src (requiresFor record (probe.get? src) implicit)
    let (closure, closureProblems) := runtimeClosure L u.requires s.direct s.conditional
    ⟨closure, s.resolutions, some (dynamicFor record (probe.get? src)),
      s.problems ++ closureProblems⟩

/-! ## The base -/

/-- The capabilities of the implicit group, resolved one by one with no versions at hand. -/
def baseDirect (L : Lookup) (implicit : List String) : List String × List Problem :=
  implicit.foldl (fun (direct, problems) capability =>
    match resolveCapability { L with provideEvr := Dict.empty } capability
        "@buildsys-build" with
    | .ok provider => (direct ++ [provider], problems)
    | .error exc => (direct, problems ++ [⟨"unresolved", exc.message, "@buildsys-build"⟩]))
    ([], [])

/-! ## The whole solve -/

/-- What `solve` returns. -/
structure Solution where
  buildDeps : Dict String (Finset String)
  resolutions : Dict String (Dict String String)
  problems : List Problem
  dynamic : Dict String Dynamic
  baseClosure : Finset String

/-- `solve` -/
def solve (u : Universe) (buildSet : List String) (overrides : Dict String String)
    (probe : Dict String Report) (implicit : List String) : Solution :=
  let L := u.lookup overrides
  let sources := PyText.sortedSet buildSet
  let solved := solveSource u overrides probe implicit
  let (direct, directProblems) := baseDirect L implicit
  let (baseClosure, baseProblems) := runtimeClosure L u.requires direct []
  { buildDeps := Dict.ofKeys sources fun src => (solved src).deps
    resolutions := Dict.ofKeys (sources.filter fun src => !(solved src).resolutions.items.isEmpty)
      fun src => (solved src).resolutions
    problems := validateOverrides overrides u.provides "" ++
      sources.flatMap (fun src => (solved src).problems) ++ directProblems ++ baseProblems
    dynamic := ⟨sources.filterMap fun src => (solved src).dynamic.map fun d => (src, d)⟩
    baseClosure := baseClosure }

section Solve

variable {u : Universe} {buildSet : List String} {overrides : Dict String String}
  {probe : Dict String Report} {implicit : List String} {src : String}

/-- The environment of a source is what its own trip computes. -/
theorem solve_buildDeps (h : src ∈ buildSet) :
    (solve u buildSet overrides probe implicit).buildDeps.get? src =
      some (solveSource u overrides probe implicit src).deps :=
  Dict.get?_ofKeys _ (PyText.mem_sortedSet.mpr h)

/-- A solve without problems had none for any source. -/
theorem problems_of_solve (hs : (solve u buildSet overrides probe implicit).problems = [])
    (h : src ∈ buildSet) : (solveSource u overrides probe implicit src).problems = [] := by
  simp only [solve, List.append_eq_nil_iff, List.flatMap_eq_nil_iff] at hs
  exact hs.1.1.2 src (PyText.mem_sortedSet.mpr h)

end Solve

/-! ## Where a BuildRequires goes -/

section Collect

variable {L : Lookup} {src : String}

/-- Nothing collected is dropped again. -/
structure Collected.Le (s s' : Collected) : Prop where
  direct : s.direct ⊆ s'.direct
  conditional : s.conditional ⊆ s'.conditional
  problems : s.problems ⊆ s'.problems

theorem Collected.Le.refl (s : Collected) : s.Le s :=
  ⟨List.Subset.refl _, List.Subset.refl _, List.Subset.refl _⟩

theorem Collected.Le.trans {s s' s'' : Collected} (h : s.Le s') (h' : s'.Le s'') : s.Le s'' :=
  ⟨List.Subset.trans h.direct h'.direct, List.Subset.trans h.conditional h'.conditional,
    List.Subset.trans h.problems h'.problems⟩

theorem Collected.le_collect (s : Collected) (cap : String) :
    s.Le (s.collect L src cap) := by
  unfold collect
  constructor <;> grind

/-- Where the entry `cap` ends up in `s`. -/
def Collected.Holds (L : Lookup) (src cap : String) (s : Collected) : Prop :=
  if isRichDep (stripCapabilityVersion cap) then
    (stripCapabilityVersion cap, src) ∈ s.conditional
  else
    match resolveCapability L cap src with
    | .ok provider => provider ∈ s.direct
    | .error (.ambiguousProvider _ _) => (stripCapabilityVersion cap, src) ∈ s.conditional
    | .error exc => ⟨"unresolved", exc.message, src⟩ ∈ s.problems

theorem Collected.Holds.mono {cap : String} {s s' : Collected} (h : s.Holds L src cap)
    (hle : s.Le s') : s'.Holds L src cap := by
  unfold Holds at h ⊢
  have h1 := hle.direct
  have h2 := hle.conditional
  have h3 := hle.problems
  grind

theorem Collected.holds_collect (s : Collected) (cap : String) :
    (s.collect L src cap).Holds L src cap := by
  unfold Holds collect
  grind

theorem foldl_collect_le (requires : List String) (s : Collected) :
    s.Le (requires.foldl (Collected.collect L src) s) := by
  induction requires generalizing s with
  | nil => exact .refl s
  | cons cap caps ih => exact (s.le_collect cap).trans (ih _)

/-- Every BuildRequires ends up somewhere. -/
theorem holds_collectRequires {requires : List String} {cap : String} (h : cap ∈ requires) :
    (collectRequires L src requires).Holds L src cap := by
  unfold collectRequires
  generalize Collected.start = s
  induction requires generalizing s with
  | nil => cases h
  | cons c cs ih =>
    rcases List.mem_cons.mp h with rfl | h
    · exact (s.holds_collect cap).mono (foldl_collect_le cs _)
    · exact ih h _

end Collect

end BuckosDistro.Solve
