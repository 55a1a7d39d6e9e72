/-
  The solve as a whole (`tools/solve.py`, `main`).

  What the flags and the repodata say goes through the whole of the solver, from the two
  universes to the lock. A strict solve refuses what any other reports in its lock, and
  changes nothing else (`solveMain_strict_iff`).
-/
import BuckosDistro.Family.Probe
import BuckosDistro.Lib.Raise
import BuckosDistro.Relock.Replay
import BuckosDistro.Solve.Fallback
import BuckosDistro.Solve.Frame
import BuckosDistro.Solve.PackageSet
import BuckosDistro.Solve.SourceImages

namespace BuckosDistro.Relock

open BuckosDistro.Lib BuckosDistro.Depgraph BuckosDistro.Solve BuckosDistro.Policy

/-! ## What is solved -/

/-- `BUILDSYS_BUILD` -/
def buildsysBuild : List String :=
  ["bash", "binutils", "bzip2", "coreutils", "cpio", "diffutils", "fedora-release-common",
    "findutils", "gawk", "gcc", "gcc-c++", "grep", "gzip", "info", "make", "patch",
    "redhat-rpm-config", "rpm-build", "sed", "shadow-utils", "tar", "unzip", "util-linux",
    "which", "xz"]

/-- `CENTOS_BUILDSYS_BUILD` -/
def centosBuildsysBuild : List String :=
  ["bash", "binutils", "bzip2", "centos-stream-release", "coreutils", "cpio", "diffutils",
    "findutils", "gawk", "gcc", "gcc-c++", "grep", "gzip", "info", "make", "patch",
    "redhat-rpm-config", "rpm-build", "sed", "shadow-utils", "tar", "unzip", "util-linux",
    "which", "xz"]

/-- `IMPLICIT_GROUPS[flavor]` -/
def Flavor.implicitGroup : Flavor → List String
  | centos => centosBuildsysBuild
  | centosHyperscale => centosBuildsysBuild
  | fedora => buildsysBuild

/-- The packages of the repositories of each kind, in the order they are layered. -/
structure Repodata where
  binary : List (String × List PackageRecord)
  buildroot : List (String × List PackageRecord)
  source : List (String × List PackageRecord)

abbrev Reports := Dict String Report

/-- What a solve is given, but for the probe reports and for `--strict`. -/
structure Solver where
  args : Args
  lines : List String
  inputs : Inputs
  reads : readInputs args lines = .ok inputs
  repodata : Repodata

/-- A strict solve stops at the first problems it has. -/
def refuse (strict : Bool) (what : String) (problems : List Problem) : Except String Unit :=
  if strict && !problems.isEmpty then
    .error ("solve failed with " ++ toString problems.length ++ " unresolved " ++ what)
  else .ok ()

namespace Solver

variable (s : Solver) (reports : Reports)

/-! ## Universes -/

/-- `combined_superseded` -/
def binarySuperseded : Superseded :=
  (mergePackages s.repodata.binary).superseded.update
    (mergeFallbackPackages (mergePackages s.repodata.binary).packages
      s.repodata.buildroot).superseded

/-- `universe` -/
def probedUniverse : Universe :=
  applyProbedProducers (combinedUniverse s.args.targetCpu s.repodata.binary s.repodata.buildroot
    (mergePackages s.repodata.source).packages) reports

/-- `compose_universe` -/
def compose : Universe :=
  if s.repodata.buildroot = [] then s.probedUniverse reports
  else applyProbedProducers (composeUniverse s.args.targetCpu s.repodata.binary
    (mergePackages s.repodata.source).packages) reports

/-! ## From the images to the lock -/

/-- `image_sets` and `image_problems` -/
def images : Dict String (List String) × List Problem :=
  solveImageSets (s.compose reports) s.inputs.imageRoots s.inputs.overrides
    s.inputs.imageOverrides

/-- The build set, and the variants that are to join it. -/
def requested (built : List String) : Emission where
  repodata := s.probedUniverse reports
  variants := s.inputs.sourceVariants
  sourceSuperseded := (mergePackages s.repodata.source).superseded
  binarySuperseded := s.binarySuperseded
  buildSet := s.inputs.explicitBuild ++ built
  solution := ⟨Dict.empty, Dict.empty, [], Dict.empty, ∅⟩

/-- `build_deps, resolutions, problems, dynamic, base_closure` -/
def solved (built : List String) : Emission :=
  (s.requested reports built).solved s.inputs.overrides
    (Family.loadProbe reports (s.requested reports built).added.buildSet)
    s.args.flavor.implicitGroup

/-- `seed_packages` and `seed_problems` -/
def seed (built : List String) : List String × List Problem :=
  solvePackageSet (s.solved reports built).emitted
    (PyText.sortedSet (s.args.seedPackage ++
      if s.args.seedOnly then s.args.flavor.implicitGroup else []))
    s.inputs.overrides "buildroot"

/-- The problems of every part of the solve. -/
def problems (built : List String) : List Problem :=
  (s.solved reports built).solution.problems ++ (s.solved reports built).added.problems ++
    (s.images reports).2 ++ (s.seed reports built).2

/-- What `emit_lockfile` is given. -/
def emission (built : List String) : Emission :=
  { s.solved reports built with
    solution := { (s.solved reports built).solution with problems := s.problems reports built } }

/-- `emit_lockfile`, but for its source policy. -/
def lockOf (built : List String) (plan : Plan) : Lock :=
  (s.emission reports built).lock plan (s.images reports).1 (s.seed reports built).1
    (s.compose reports)

/-- The lock of the plan that is returned. -/
def lock (built : List String) : Lock :=
  s.lockOf reports built ((s.emission reports built).plan s.args.stages.val.toNat)

/-- `lock["source_policy"]` -/
def sourcePolicy (lock : Lock) : Except String SourcePolicy :=
  buildSourcePolicy (policyImages lock s.args.sourceImage)
    (policyProducers lock s.args.prebuiltSource) s.args.sourceException s.args.sourceImage

/-- The source policy of a lock is made where images are built from source. -/
def checkPolicy (lock : Lock) : Except String Unit :=
  if s.args.sourceImage = [] then .ok ()
  else
    match s.sourcePolicy lock with
    | .error exc => .error ("source policy: " ++ exc)
    | .ok _ => .ok ()

/-- `lock["solve"]` -/
def record (lock : Lock) : Recorded :=
  recordInputs s.args s.inputs <|
    if s.args.sourceImage = [] then []
    else
      match s.sourcePolicy lock with
      | .error _ => []
      | .ok policy => policy.exceptions

/-- `main`, from what the flags and the repodata say to the lock that is written. -/
def solveMain (strict : Bool) : Except String Lock := do
  refuse strict "image item(s)" (s.images reports).2
  let built ← sourceBuildSet (s.images reports).1 (s.compose reports).sourceOf
    s.args.sourceImage s.args.prebuiltSource
  refuse strict "item(s)" (s.solved reports built).solution.problems
  let plan ← (s.solved reports built).planned s.args.stages
  refuse strict "buildroot item(s)" (s.seed reports built).2
  s.checkPolicy (s.lockOf reports built plan)
  return s.lockOf reports built plan

end Solver

/-! ## Strict and not -/

section Strict

variable {s : Solver} {reports : Reports} {strict : Bool} {lock : Lock}

theorem refuse_eq_ok {what : String} {problems : List Problem} :
    refuse strict what problems = .ok () ↔ (strict = true → problems = []) := by
  unfold refuse
  cases strict <;> cases problems <;> simp

/-- A solve that ends has written the lock of what it built, and it refused nothing. -/
structure Solved (s : Solver) (reports : Reports) (strict : Bool) (lock : Lock)
    (built : List String) : Prop where
  sources : sourceBuildSet (s.images reports).1 (s.compose reports).sourceOf s.args.sourceImage
    s.args.prebuiltSource = .ok built
  planned : ∃ plan, (s.solved reports built).planned s.args.stages = .ok plan
  policy : s.checkPolicy (s.lock reports built) = .ok ()
  refused : strict = true → (s.images reports).2 = [] ∧
    (s.solved reports built).solution.problems = [] ∧ (s.seed reports built).2 = []
  written : lock = s.lock reports built

/-- The plan that is returned is the plan of the lock. -/
theorem lockOf_of_planned {built : List String} {plan : Plan}
    (h : (s.solved reports built).planned s.args.stages = .ok plan) :
    s.lockOf reports built plan = s.lock reports built := by
  unfold Solver.lock
  rw [plan_of_planned h]
  rfl

theorem solveMain_eq_ok :
    s.solveMain reports strict = .ok lock ↔ ∃ built, Solved s reports strict lock built := by
  constructor
  · intro h
    unfold Solver.solveMain at h
    obtain ⟨_, himages, h⟩ := Lists.exists_of_bind h
    obtain ⟨built, hbuilt, h⟩ := Lists.exists_of_bind h
    obtain ⟨_, hsolved, h⟩ := Lists.exists_of_bind h
    obtain ⟨plan, hplan, h⟩ := Lists.exists_of_bind h
    obtain ⟨_, hseed, h⟩ := Lists.exists_of_bind h
    obtain ⟨_, hpolicy, h⟩ := Lists.exists_of_bind h
    rw [refuse_eq_ok] at himages hsolved hseed
    rw [lockOf_of_planned hplan] at hpolicy h
    exact ⟨built, hbuilt, ⟨plan, hplan⟩, hpolicy,
      fun hs => ⟨himages hs, hsolved hs, hseed hs⟩, (Except.ok.inj h).symm⟩
  · intro h
    obtain ⟨built, hbuilt, ⟨plan, hplan⟩, hpolicy, hstrict, rfl⟩ := h
    unfold Solver.solveMain
    refine Raise.bind_ok.mpr ⟨(), refuse_eq_ok.mpr fun hs => (hstrict hs).1, ?_⟩
    refine Raise.bind_ok.mpr ⟨built, hbuilt, ?_⟩
    refine Raise.bind_ok.mpr ⟨(), refuse_eq_ok.mpr fun hs => (hstrict hs).2.1, ?_⟩
    refine Raise.bind_ok.mpr ⟨plan, hplan, ?_⟩
    refine Raise.bind_ok.mpr ⟨(), refuse_eq_ok.mpr fun hs => (hstrict hs).2.2, ?_⟩
    rw [lockOf_of_planned hplan]
    exact Raise.bind_ok.mpr ⟨(), hpolicy, rfl⟩

theorem lock_problems (built : List String) :
    (s.lock reports built).problems = s.problems reports built := rfl

/-- **A strict solve is the same solve**, and refuses the problems of the sources, the images
    and the seed: it ends exactly where the other does with none but those of variants, and
    then in the same lock. -/
theorem solveMain_strict_iff :
    s.solveMain reports true = .ok lock ↔ s.solveMain reports false = .ok lock ∧
      ∃ built, Solved s reports false lock built ∧
        lock.problems = (s.solved reports built).added.problems := by
  constructor
  · intro h
    obtain ⟨built, hbuilt, hplan, hpolicy, hstrict, hlock⟩ := solveMain_eq_ok.mp h
    obtain ⟨himages, hsolved, hseed⟩ := hstrict rfl
    have hs : Solved s reports false lock built :=
      ⟨hbuilt, hplan, hpolicy, fun hs => absurd hs Bool.false_ne_true, hlock⟩
    refine ⟨solveMain_eq_ok.mpr ⟨built, hs⟩, built, hs, ?_⟩
    rw [hlock, lock_problems]
    unfold Solver.problems
    rw [hsolved, himages, hseed, List.nil_append, List.append_nil, List.append_nil]
  · intro h
    obtain ⟨_, built, hs, hproblems⟩ := h
    have hlength := congrArg List.length hproblems
    rw [hs.written, lock_problems] at hlength
    unfold Solver.problems at hlength
    simp only [List.length_append] at hlength
    refine solveMain_eq_ok.mpr ⟨built, hs.sources, hs.planned, hs.policy,
      fun _ => ⟨?_, ?_, ?_⟩, hs.written⟩
    · exact List.length_eq_zero_iff.mp (by omega)
    · exact List.length_eq_zero_iff.mp (by omega)
    · exact List.length_eq_zero_iff.mp (by omega)

/-- Nothing is refused of a solve without problems. -/
theorem solveMain_of_no_problems (h : s.solveMain reports false = .ok lock)
    (hproblems : lock.problems = []) : s.solveMain reports true = .ok lock := by
  obtain ⟨built, hs⟩ := solveMain_eq_ok.mp h
  have hnone := hs.written ▸ hproblems
  rw [lock_problems] at hnone
  unfold Solver.problems at hnone
  simp only [List.append_eq_nil_iff] at hnone
  exact solveMain_eq_ok.mpr ⟨built, hs.sources, hs.planned, hs.policy,
    fun _ => ⟨hnone.1.2, hnone.1.1.1, hnone.2⟩, hs.written⟩

end Strict

/-! ## What a lock says of its sources -/

/-- The record of a source, the variants included. -/
def Solver.sourceRecord (s : Solver) (reports : Reports) (built : List String) (src : String) :
    Option PackageRecord := (s.requested reports built).added.sourceIndex.get? src

section Sources

variable {s : Solver} {reports : Reports} {strict : Bool} {lock : Lock} {built : List String}
  {src : String} {pkg : LockPackage}

/-- The packages of a lock are its build set. -/
theorem Solved.mem_buildSet (h : Solved s reports strict lock built)
    (hpkg : lock.packages.get? src = some pkg) :
    src ∈ (s.requested reports built).added.buildSet ∧
      pkg = (s.emission reports built).package src := by
  rw [h.written] at hpkg
  exact package_of_get? hpkg

/-- What a lock records of the generated BuildRequires of a source: its report, and what its
    record looks like where it has none. -/
theorem Solved.dynamic (h : Solved s reports strict lock built)
    (hpkg : lock.packages.get? src = some pkg) {record : PackageRecord}
    (hrecord : s.sourceRecord reports built src = some record) :
    pkg.dynamicBuildrequires = dynamicFor record (reports.get? src) := by
  obtain ⟨hsrc, rfl⟩ := h.mem_buildSet hpkg
  have hprobe : (Family.loadProbe reports (s.requested reports built).added.buildSet).get? src =
      reports.get? src := by
    unfold Family.loadProbe
    rw [Dict.get?_restrict, if_pos (decide_eq_true hsrc)]
  have hdynamic := (@solve_at src (s.requested reports built).emitted
    (s.requested reports built).added.buildSet s.inputs.overrides
    (Family.loadProbe reports (s.requested reports built).added.buildSet)
    s.args.flavor.implicitGroup hsrc).2.2 ⟨"repodata", [], [], false⟩
  have hfound : (s.requested reports built).emitted.sourceIndex.get? src = some record := hrecord
  unfold solveSource at hdynamic
  dsimp only at hdynamic
  rw [hfound, hprobe] at hdynamic
  exact hdynamic

/-- Every source of a lock without problems has a record. -/
theorem Solved.exists_record (h : Solved s reports strict lock built)
    (hproblems : lock.problems = []) (hpkg : lock.packages.get? src = some pkg) :
    ∃ record, s.sourceRecord reports built src = some record := by
  obtain ⟨hsrc, _⟩ := h.mem_buildSet hpkg
  rw [h.written, lock_problems] at hproblems
  unfold Solver.problems at hproblems
  simp only [List.append_eq_nil_iff] at hproblems
  have hsource := problems_of_solve hproblems.1.1.1 hsrc
  cases hrecord : s.sourceRecord reports built src with
  | some record => exact ⟨record, rfl⟩
  | none =>
    have hnone : (s.requested reports built).emitted.sourceIndex.get? src = none := hrecord
    unfold solveSource at hsource
    dsimp only at hsource
    rw [hnone] at hsource
    cases hsource

end Sources

end BuckosDistro.Relock
