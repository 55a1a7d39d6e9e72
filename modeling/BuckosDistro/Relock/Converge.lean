/-
  The probe loop (`tools/rpm_relock.py`, `main`, with `write_probe_file` of `tools/probe.py`).

  A solve is followed by a probe of what it is to build, and the next solve reads the answers,
  until nothing is open. Every trip writes its answers over those there were, so that none is
  lost. The last solve is strict, and returns the lock there was: nothing is refused of a
  state without problems. A state that comes back stops the loop.
-/
import BuckosDistro.Family.Probe
import BuckosDistro.Lib.Rounds
import BuckosDistro.Relock.Resolved

namespace BuckosDistro.Relock

open BuckosDistro.Lib BuckosDistro.Depgraph BuckosDistro.Solve BuckosDistro.Policy

/-! ## The state of a solve -/

/-- What `convergence_state` returns. -/
structure ConvergenceState where
  problems : List Problem
  unprobed : List (String × Solve.Dynamic)
  unmet : List (String × Solve.Dynamic)
deriving DecidableEq

/-- `package["dynamic_buildrequires"]` of the packages, in the order of their names. -/
def dynamicOf (lock : Lock) : List (String × Solve.Dynamic) :=
  (PyText.sortedSet lock.packages.keys).filterMap fun name =>
    (lock.packages.get? name).map fun package => (name, package.dynamicBuildrequires)

/-- `convergence_state` -/
def convergenceState (lock : Lock) : ConvergenceState :=
  { problems := lock.problems
    unprobed := (dynamicOf lock).filter fun item => !item.2.suspected.isEmpty
    unmet := (dynamicOf lock).filter fun item => item.2.unmet }

/-- `converged` -/
def converged (state : ConvergenceState) : Bool :=
  state.problems.isEmpty && state.unprobed.isEmpty && state.unmet.isEmpty

/-- The probe file the next solve reads: none, the one the template records, or the one that
    is written beside the lock. -/
inductive CurrentProbe where
  | none
  | recorded (reports : Reports)
  | written

/-- `probe_path is None` -/
def CurrentProbe.isNone : CurrentProbe → Bool
  | none => true
  | recorded _ => false
  | written => false

/-- `probe_required` -/
def probeRequired (state : ConvergenceState) (current : CurrentProbe) : Bool :=
  current.isNone || !converged state

/-! ## The loop -/

/-- What the loop calls. The probes of one trip need not answer as those of another. -/
structure Tools where
  solver : Solver
  generate : Lock → Except String Unit
  probes : ℕ → Lock → Except String (List (String × Family.ProbeOutput))

/-- The lock at `--output`, the answers beside it, and where the next solve looks. -/
structure Loop where
  lock : Lock
  probe : Reports
  current : CurrentProbe

/-- `read_probe(current_probe)` -/
def Loop.reports (s : Loop) : Reports :=
  match s.current with
  | .none => Dict.empty
  | .recorded reports => reports
  | .written => s.probe

/-- How `main` stops early. -/
inductive Failure where
  | stopped (message : String)
  | notConverged
  | incomplete

section Loop

variable (tools : Tools)

/-- `solve_and_generate` -/
def solveAndGenerate (strict : Bool) (s : Loop) : Loop × Option String :=
  match tools.solver.solveMain s.reports strict with
  | .error e => (s, some e)
  | .ok lock =>
    match tools.generate lock with
    | .error e => ({ s with lock := lock }, some e)
    | .ok _ => ({ s with lock := lock }, none)

/-- The first label, in the order `collect` goes over them, whose report has no package name. -/
def unnamedTarget (outputs : List (String × Family.ProbeOutput)) : String :=
  (((outputs.insertionSort fun a b => a.1 ≤ b.1).find? fun output =>
    output.2.package = "").map Prod.fst).getD ""

/-- One trip: `write_probe_file`, and the solve that reads it. -/
def probePass (n : ℕ) (s : Loop) : Loop × Option String :=
  match tools.probes n s.lock with
  | .error e => (s, some e)
  | .ok outputs =>
    match Family.collectReports outputs with
    | none => (s, some (unnamedTarget outputs ++ " produced a report with no package name"))
    | some fresh => solveAndGenerate tools false ⟨s.lock, s.probe.update fresh, .written⟩

/-- The trips of the loop. The fingerprint of a state stands for the state. -/
def trips : Rounds Loop ConvergenceState String where
  final s := !probeRequired (convergenceState s.lock) s.current
  mark s := convergenceState s.lock
  next := probePass tools

/-- What is done when the loop is over. -/
def conclude : Rounds.Stop Loop String → Except Failure Unit × Loop
  | .repeated s => (.error .notConverged, s)
  | .failed e s => (.error (.stopped e), s)
  | .final s =>
    match solveAndGenerate tools true s with
    | (s, some e) => (.error (.stopped e), s)
    | (s, none) =>
      if converged (convergenceState s.lock) then (.ok (), s) else (.error .incomplete, s)

/-- `main` with `--probe`, from the first solve on; `none` when it is not over after so many
    trips. What stands at `--output` before the first solve is not read. -/
def relock (fuel : ℕ) (s : Loop) : Option (Except Failure Unit × Loop) :=
  match solveAndGenerate tools false s with
  | (s, some e) => some (.error (.stopped e), s)
  | (s, none) => ((trips tools).run fuel 0 [] s).map (conclude tools)

end Loop

/-! ## What a solve leaves -/

section Solves

variable {tools : Tools} {strict : Bool} {s : Loop}

@[simp] theorem solveAndGenerate_probe : (solveAndGenerate tools strict s).1.probe = s.probe := by
  unfold solveAndGenerate
  cases tools.solver.solveMain s.reports strict with
  | error e => rfl
  | ok lock =>
    dsimp only
    cases tools.generate lock <;> rfl

@[simp] theorem solveAndGenerate_current :
    (solveAndGenerate tools strict s).1.current = s.current := by
  unfold solveAndGenerate
  cases tools.solver.solveMain s.reports strict with
  | error e => rfl
  | ok lock =>
    dsimp only
    cases tools.generate lock <;> rfl

@[simp] theorem solveAndGenerate_reports :
    (solveAndGenerate tools strict s).1.reports = s.reports := by
  unfold Loop.reports
  rw [solveAndGenerate_probe, solveAndGenerate_current]

/-- The lock is what the solver returned for these reports, and is generated from. -/
def Loop.Fresh (tools : Tools) (s : Loop) : Prop :=
  tools.solver.solveMain s.reports false = .ok s.lock ∧ tools.generate s.lock = .ok ()

/-- A solve that did not fail wrote its lock and what is generated from it. -/
theorem solveAndGenerate_ok (h : (solveAndGenerate tools strict s).2 = none) :
    tools.solver.solveMain s.reports strict = .ok (solveAndGenerate tools strict s).1.lock ∧
      tools.generate (solveAndGenerate tools strict s).1.lock = .ok () := by
  unfold solveAndGenerate at h ⊢
  cases hsolve : tools.solver.solveMain s.reports strict with
  | error e =>
    rw [hsolve] at h
    exact absurd h (Option.some_ne_none e)
  | ok lock =>
    rw [hsolve] at h
    dsimp only at h ⊢
    cases hgenerate : tools.generate lock with
    | error e =>
      rw [hgenerate] at h
      exact absurd h (Option.some_ne_none e)
    | ok _ => exact ⟨rfl, hgenerate⟩

/-- A call of `solve_and_generate` that fails: the solver's over the probe file there is, or the
    generator's over the lock that the solver returns. -/
inductive SolveFails (tools : Tools) (strict : Bool) (s : Loop) (message : String) : Prop
  | solver : tools.solver.solveMain s.reports strict = .error message →
      SolveFails tools strict s message
  | generator (lock : Lock) : tools.solver.solveMain s.reports strict = .ok lock →
      tools.generate lock = .error message → SolveFails tools strict s message

/-- A solve stops by the call that failed. -/
theorem solveFails_of_some {message : String}
    (h : (solveAndGenerate tools strict s).2 = some message) :
    SolveFails tools strict s message := by
  unfold solveAndGenerate at h
  cases hsolve : tools.solver.solveMain s.reports strict with
  | error e =>
    rw [hsolve] at h
    obtain rfl := Option.some.inj h
    exact .solver hsolve
  | ok lock =>
    rw [hsolve] at h
    dsimp only at h
    cases hgenerate : tools.generate lock with
    | error e =>
      rw [hgenerate] at h
      obtain rfl := Option.some.inj h
      exact .generator lock hsolve hgenerate
    | ok _ =>
      rw [hgenerate] at h
      exact absurd h.symm (Option.some_ne_none _)

theorem fresh_of_ok (h : (solveAndGenerate tools false s).2 = none) :
    (solveAndGenerate tools false s).1.Fresh tools := by
  unfold Loop.Fresh
  rw [solveAndGenerate_reports]
  exact solveAndGenerate_ok h

/-- **The last solve changes nothing**: where nothing is open the strict solve returns the lock
    there was. -/
theorem solveAndGenerate_strict (hfresh : s.Fresh tools) (hproblems : s.lock.problems = []) :
    solveAndGenerate tools true s = (s, none) := by
  obtain ⟨hsolve, hgenerate⟩ := hfresh
  have hstrict := solveMain_of_no_problems hsolve hproblems
  unfold solveAndGenerate
  rw [hstrict]
  dsimp only
  rw [hgenerate]

end Solves

/-! ## The answers -/

/-- The newest of the answers to a name, or the one there was before them. -/
def newest (answers : List Reports) (before : Reports) (name : String) : Option Report :=
  (answers.reverse.findSome? fun fresh => fresh.get? name).or (before.get? name)

theorem newest_concat (answers : List Reports) (fresh before : Reports) (name : String) :
    newest (answers ++ [fresh]) before name =
      (fresh.get? name).or (newest answers before name) := by
  unfold newest
  rw [List.reverse_append, List.reverse_singleton, List.singleton_append, List.findSome?_cons]
  cases fresh.get? name <;> rfl

section Answers

variable (tools : Tools)

/-- What the probes of a trip answer. -/
def answer (n : ℕ) (s : Loop) : Option Reports :=
  match tools.probes n s.lock with
  | .error _ => none
  | .ok outputs => Family.collectReports outputs

/-- What the probes of the first trips answer, a trip after the other. -/
def answers (s : Loop) (k : ℕ) : List Reports :=
  (List.range k).filterMap fun j => answer tools j ((trips tools).after 0 s j)

variable {tools} {n : ℕ} {s : Loop}

theorem nodup_answer {fresh : Reports} (h : answer tools n s = some fresh) :
    fresh.keys.Nodup := by
  unfold answer at h
  cases hprobes : tools.probes n s.lock with
  | error e =>
    rw [hprobes] at h
    exact absurd h.symm (Option.some_ne_none _)
  | ok outputs =>
    rw [hprobes] at h
    exact Family.nodup_of_foldlM h

/-- A trip without an answer leaves everything as it is. -/
theorem probePass_of_none (h : answer tools n s = none) :
    (probePass tools n s).1 = s ∧ (probePass tools n s).2 ≠ none := by
  unfold answer at h
  unfold probePass
  cases hprobes : tools.probes n s.lock with
  | error e => exact ⟨rfl, Option.some_ne_none _⟩
  | ok outputs =>
    rw [hprobes] at h
    dsimp only at h ⊢
    rw [h]
    exact ⟨rfl, Option.some_ne_none _⟩

/-- A trip with an answer solves again, with the answer over those there were. -/
theorem probePass_of_some {fresh : Reports} (h : answer tools n s = some fresh) :
    probePass tools n s =
      solveAndGenerate tools false ⟨s.lock, s.probe.update fresh, .written⟩ := by
  unfold answer at h
  unfold probePass
  cases hprobes : tools.probes n s.lock with
  | error e =>
    rw [hprobes] at h
    exact absurd h.symm (Option.some_ne_none _)
  | ok outputs =>
    rw [hprobes] at h
    dsimp only at h ⊢
    rw [h]

/-- One trip: a fresh answer wins, and no other is lost, also where the trip fails. -/
theorem get?_probePass (name : String) : (probePass tools n s).1.probe.get? name =
    ((answer tools n s).bind fun fresh => fresh.get? name).or (s.probe.get? name) := by
  cases h : answer tools n s with
  | none =>
    rw [(probePass_of_none h).1]
    rfl
  | some fresh =>
    rw [probePass_of_some h, solveAndGenerate_probe, Dict.get?_update (nodup_answer h)]
    rfl

/-- **No answer is lost**: after any number of trips the file has the newest answer to every
    name, or the one that was recorded before them. -/
theorem get?_after (s : Loop) (k : ℕ) (name : String) :
    ((trips tools).after 0 s k).probe.get? name = newest (answers tools s k) s.probe name := by
  induction k with
  | zero => rfl
  | succ k ih =>
    have hstep : (trips tools).after 0 s (k + 1) =
        (probePass tools (0 + k) ((trips tools).after 0 s k)).1 := rfl
    have hanswers : answers tools s (k + 1) = answers tools s k ++
        (answer tools k ((trips tools).after 0 s k)).toList := by
      unfold answers
      rw [List.range_succ, List.filterMap_append]
      congr 1
    rw [hstep, get?_probePass, Nat.zero_add, ih, hanswers]
    cases answer tools k ((trips tools).after 0 s k) with
    | none =>
      rw [Option.toList_none, List.append_nil, Option.bind_none, Option.none_or]
    | some fresh =>
      rw [Option.toList_some, newest_concat, Option.bind_some]

/-- A trip that goes well leaves what it solved, and the next solve reads what it wrote. -/
theorem probePass_ok (h : (probePass tools n s).2 = none) :
    (probePass tools n s).1.Fresh tools ∧ (probePass tools n s).1.current = .written := by
  cases hanswer : answer tools n s with
  | none => exact absurd h (probePass_of_none hanswer).2
  | some fresh =>
    rw [probePass_of_some hanswer] at h ⊢
    exact ⟨fresh_of_ok h, solveAndGenerate_current⟩

/-- A trip that fails: no probe is built, a report has no package name, or the solve over the
    answers fails. -/
inductive TripFails (tools : Tools) (n : ℕ) (s : Loop) (message : String) : Prop
  | probes : tools.probes n s.lock = .error message → TripFails tools n s message
  | unnamed (outputs : List (String × Family.ProbeOutput)) (target : String)
      (output : Family.ProbeOutput) :
      tools.probes n s.lock = .ok outputs → (target, output) ∈ outputs → output.package = "" →
      message = target ++ " produced a report with no package name" → TripFails tools n s message
  | solve (fresh : Reports) : answer tools n s = some fresh →
      SolveFails tools false ⟨s.lock, s.probe.update fresh, .written⟩ message →
      TripFails tools n s message

theorem mem_of_unnamedTarget {outputs : List (String × Family.ProbeOutput)}
    (h : Family.collectReports outputs = none) :
    ∃ output, (unnamedTarget outputs, output) ∈ outputs ∧ output.package = "" := by
  obtain ⟨output, houtput, hunnamed⟩ := Family.exists_unnamed h
  obtain ⟨item, hitem, rfl⟩ := List.mem_map.mp houtput
  cases hfind : (outputs.insertionSort fun a b => a.1 ≤ b.1).find? fun output =>
      output.2.package = "" with
  | none => exact absurd hunnamed (by simpa using List.find?_eq_none.mp hfind item hitem)
  | some first =>
    have htarget : unnamedTarget outputs = first.1 := by
      unfold unnamedTarget
      rw [hfind]
      rfl
    rw [htarget]
    exact ⟨first.2, (List.perm_insertionSort _ _).mem_iff.mp (List.mem_of_find?_eq_some hfind),
      by simpa using List.find?_some hfind⟩

/-- A trip stops by the call that failed. -/
theorem tripFails_of_some {message : String} (h : (probePass tools n s).2 = some message) :
    TripFails tools n s message := by
  cases hanswer : answer tools n s with
  | some fresh =>
    rw [probePass_of_some hanswer] at h
    exact .solve fresh hanswer (solveFails_of_some h)
  | none =>
    unfold answer at hanswer
    unfold probePass at h
    cases hprobes : tools.probes n s.lock with
    | error e =>
      rw [hprobes] at h
      obtain rfl := Option.some.inj h
      exact .probes hprobes
    | ok outputs =>
      rw [hprobes] at h hanswer
      dsimp only at h hanswer
      rw [hanswer] at h
      obtain rfl := Option.some.inj h
      obtain ⟨output, houtput, hunnamed⟩ := mem_of_unnamedTarget hanswer
      exact .unnamed outputs _ output hprobes houtput hunnamed rfl

theorem fresh_after (hs : s.Fresh tools) {k : ℕ} {seen : List ConvergenceState}
    (h : (trips tools).Went 0 seen s k) : ((trips tools).after 0 s k).Fresh tools := by
  cases k with
  | zero => exact hs
  | succ k => exact (probePass_ok (h.ok k (Nat.lt_succ_self k))).1

end Answers

/-! ## How the loop ends -/

theorem mem_dynamicOf {lock : Lock} {item : String × Solve.Dynamic} :
    item ∈ dynamicOf lock ↔ ∃ package, lock.packages.get? item.1 = some package ∧
      package.dynamicBuildrequires = item.2 := by
  unfold dynamicOf
  rw [List.mem_filterMap]
  constructor
  · intro h
    obtain ⟨name, _, hitem⟩ := h
    obtain ⟨package, hpackage, rfl⟩ := Option.map_eq_some_iff.mp hitem
    exact ⟨package, hpackage, rfl⟩
  · intro h
    obtain ⟨package, hpackage, hdynamic⟩ := h
    refine ⟨item.1, ?_, ?_⟩
    · rw [PyText.mem_sortedSet, Dict.mem_keys_iff, hpackage]
      rfl
    · rw [hpackage, Option.map_some, hdynamic]

/-- Nothing is open: no problem, no generator that was not run, and none that wants more. -/
theorem converged_iff {lock : Lock} : converged (convergenceState lock) = true ↔
    lock.problems = [] ∧ ∀ src package, lock.packages.get? src = some package →
      package.dynamicBuildrequires.suspected = [] ∧
        package.dynamicBuildrequires.unmet = false := by
  unfold converged convergenceState
  simp only [Bool.and_eq_true, List.isEmpty_iff, List.filter_eq_nil_iff]
  constructor
  · intro h
    refine ⟨h.1.1, fun src package hpackage => ?_⟩
    have hitem : (src, package.dynamicBuildrequires) ∈ dynamicOf lock :=
      mem_dynamicOf.mpr ⟨package, hpackage, rfl⟩
    exact ⟨by simpa using h.1.2 _ hitem, by simpa using h.2 _ hitem⟩
  · intro h
    refine ⟨⟨h.1, fun item hitem => ?_⟩, fun item hitem => ?_⟩
    all_goals
      obtain ⟨package, hpackage, hdynamic⟩ := mem_dynamicOf.mp hitem
      obtain ⟨hsuspected, hunmet⟩ := h.2 item.1 package hpackage
      rw [hdynamic] at hsuspected hunmet
      simp [hsuspected, hunmet]

/-- What a lock that is done is: the strict solve of the answers, and nothing in it is open.
    Every source was probed and wants no more, or has no generator to be run. -/
structure Settled (tools : Tools) (s : Loop) : Prop where
  solved : tools.solver.solveMain s.reports true = .ok s.lock
  generated : tools.generate s.lock = .ok ()
  probed : s.current.isNone = false
  problems : s.lock.problems = []
  sources : ∃ built, Solved tools.solver s.reports true s.lock built ∧
    ∀ src ∈ s.lock.packages.keys, ∃ record,
      tools.solver.sourceRecord s.reports built src = some record ∧
      ((∃ report, s.reports.get? src = some report ∧ report.unmet = false) ∨
        s.reports.get? src = none ∧ detectDynamicBuildrequires record = [])

/-- Where the loop begins. -/
def firstSolve (tools : Tools) (s : Loop) : Loop := (solveAndGenerate tools false s).1

/-- The state after some trips. The file there has the newest answer of these trips to every
    name, or the one that was recorded before. -/
structure Reached (tools : Tools) (s : Loop) (k : ℕ) (s' : Loop) : Prop where
  state : s' = (trips tools).after 0 (firstSolve tools s) k
  kept : ∀ name, s'.probe.get? name = newest (answers tools (firstSolve tools s) k) s.probe name

/-- How a run ends: not yet, by a call that fails, because a state came back, or settled. All
    the trips before went well, each from a state that was open and unlike the others. -/
inductive Outcome (tools : Tools) (fuel : ℕ) (s : Loop) :
    Option (Except Failure Unit × Loop) → Prop
  | unsolved (message : String) (s' : Loop) : SolveFails tools false s message →
      Reached tools s 0 s' → Outcome tools fuel s (some (.error (.stopped message), s'))
  | unfinished : (trips tools).Went 0 [] (firstSolve tools s) fuel → Outcome tools fuel s none
  | stopped (k : ℕ) (message : String) (before s' : Loop) :
      (trips tools).Went 0 [] (firstSolve tools s) k → Reached tools s k before →
      TripFails tools k before message → Reached tools s (k + 1) s' →
      Outcome tools fuel s (some (.error (.stopped message), s'))
  | notConverged (j k : ℕ) (before s' : Loop) :
      (trips tools).Went 0 [] (firstSolve tools s) k → Reached tools s k s' →
      (s'.current.isNone = true ∨ converged (convergenceState s'.lock) = false) →
      j < k → Reached tools s j before →
      convergenceState before.lock = convergenceState s'.lock →
      Outcome tools fuel s (some (.error .notConverged, s'))
  | settled (k : ℕ) (s' : Loop) : (trips tools).Went 0 [] (firstSolve tools s) k →
      Reached tools s k s' → Settled tools s' → Outcome tools fuel s (some (.ok (), s'))

section Outcome

variable {tools : Tools} {s : Loop}

theorem reached_after (k : ℕ) :
    Reached tools s k ((trips tools).after 0 (firstSolve tools s) k) where
  state := rfl
  kept name := by
    rw [get?_after, firstSolve, solveAndGenerate_probe]

theorem final_iff (s : Loop) : (trips tools).final s = true ↔
    s.current.isNone = false ∧ converged (convergenceState s.lock) = true := by
  show (!probeRequired (convergenceState s.lock) s.current) = true ↔ _
  unfold probeRequired
  simp

theorem settled_of_final (hs : s.Fresh tools) (h : (trips tools).final s = true) :
    Settled tools s := by
  obtain ⟨hprobed, hconverged⟩ := (final_iff s).mp h
  obtain ⟨hproblems, hopen⟩ := converged_iff.mp hconverged
  have hstrict := solveMain_of_no_problems hs.1 hproblems
  obtain ⟨built, hsolved⟩ := solveMain_eq_ok.mp hstrict
  refine ⟨hstrict, hs.2, hprobed, hproblems, built, hsolved, fun src hsrc => ?_⟩
  obtain ⟨package, hpackage⟩ := Option.isSome_iff_exists.mp (Dict.mem_keys_iff.mp hsrc)
  obtain ⟨record, hrecord⟩ := hsolved.exists_record hproblems hpackage
  obtain ⟨hsuspected, hunmet⟩ := hopen src package hpackage
  rw [hsolved.dynamic hpackage hrecord] at hsuspected hunmet
  refine ⟨record, hrecord, ?_⟩
  cases hreport : s.reports.get? src with
  | some report =>
    rw [hreport] at hunmet
    exact .inl ⟨report, rfl, hunmet⟩
  | none =>
    rw [hreport] at hsuspected
    exact .inr ⟨rfl, hsuspected⟩

/-- The end of the loop, once it is over. -/
theorem outcome_of_ended (hs : (firstSolve tools s).Fresh tools)
    {stop : Rounds.Stop Loop String} (fuel : ℕ)
    (h : (trips tools).Ended 0 [] (firstSolve tools s) stop) :
    Outcome tools fuel s (some (conclude tools stop)) := by
  cases h with
  | final k hwent hfinal =>
    have hfresh := fresh_after hs hwent
    have hsettled := settled_of_final hfresh hfinal
    unfold conclude
    dsimp only
    rw [solveAndGenerate_strict hfresh hsettled.problems]
    dsimp only
    rw [if_pos ((final_iff _).mp hfinal).2]
    exact .settled k _ hwent (reached_after k) hsettled
  | repeated k hwent hfinal hmark =>
    obtain ⟨j, hj, hmark⟩ := hmark.resolve_left List.not_mem_nil
    have hrequired : (!(((trips tools).after 0 (firstSolve tools s) k).current.isNone ||
        !converged (convergenceState ((trips tools).after 0 (firstSolve tools s) k).lock))) =
        false := hfinal
    simp only [Bool.not_eq_false', Bool.or_eq_true, Bool.not_eq_true'] at hrequired
    exact .notConverged j k _ _ hwent (reached_after k) hrequired hj (reached_after j) hmark
  | failed k e hwent hfinal hfails =>
    rw [Nat.zero_add] at hfails
    exact .stopped k e _ _ hwent (reached_after k) (tripFails_of_some hfails)
      (reached_after (k + 1))

end Outcome

section Ends

variable {tools : Tools} {fuel : ℕ} {s : Loop}

theorem relock_of_failed {e : String} (h : (solveAndGenerate tools false s).2 = some e) :
    relock tools fuel s = some (.error (.stopped e), (solveAndGenerate tools false s).1) := by
  have hpair : solveAndGenerate tools false s = ((solveAndGenerate tools false s).1, some e) := by
    rw [← h]
  unfold relock
  rw [hpair]

theorem relock_of_ok (h : (solveAndGenerate tools false s).2 = none) :
    relock tools fuel s = ((trips tools).run fuel 0 [] (solveAndGenerate tools false s).1).map
      (conclude tools) := by
  have hpair : solveAndGenerate tools false s = ((solveAndGenerate tools false s).1, none) := by
    rw [← h]
  unfold relock
  rw [hpair]

/-- **The loop ends when the probe files run out.** With finitely many of them to solve over, one
    more trip than there are is enough. -/
theorem relock_ends {files : List Reports}
    (hfiles : ∀ k, (trips tools).Went 0 [] (solveAndGenerate tools false s).1 k →
      ((trips tools).after 0 (solveAndGenerate tools false s).1 k).reports ∈ files)
    (hfuel : files.length < fuel) : ∃ ended, relock tools fuel s = some ended := by
  cases hfirst : (solveAndGenerate tools false s).2 with
  | some e => exact ⟨_, relock_of_failed hfirst⟩
  | none =>
    have hfresh := fresh_of_ok hfirst
    -- a state is what the solve over its probe file comes to
    let stateOf (reports : Reports) : Option ConvergenceState :=
      (tools.solver.solveMain reports false).toOption.map convergenceState
    have hmarks : ∀ k, (trips tools).Went 0 [] (solveAndGenerate tools false s).1 (k + 1) →
        (trips tools).mark ((trips tools).after 0 (solveAndGenerate tools false s).1 k) ∈
          (files.filterMap stateOf).toFinset := by
      intro k hwent
      have hbefore := hwent.before (Nat.le_succ k)
      obtain ⟨hsolve, _⟩ := fresh_after hfresh hbefore
      rw [List.mem_toFinset, List.mem_filterMap]
      refine ⟨_, hfiles k hbefore, ?_⟩
      dsimp only [stateOf]
      rw [hsolve]
      rfl
    have hcard : (files.filterMap stateOf).toFinset.card < fuel :=
      ((List.toFinset_card_le _).trans (List.length_filterMap_le _ _)).trans_lt hfuel
    obtain ⟨stop, hstop⟩ := Rounds.exists_stop hmarks hcard
    rw [relock_of_ok hfirst, hstop]
    exact ⟨_, rfl⟩

end Ends

/-- **What solving and probing in turn comes to**, whatever the probes answer. It ends settled,
    or by a call that fails, or because a state came back; it does not go on but in states that
    are all different; and no answer is lost. The strict solve at the end of the loop does not
    fail, and it leaves the lock that nothing is open in. -/
theorem relock_outcome (tools : Tools) (fuel : ℕ) (s : Loop) :
    Outcome tools fuel s (relock tools fuel s) ∧
    ((solveAndGenerate tools false s).2 = none → ∀ s',
      (trips tools).run fuel 0 [] (firstSolve tools s) = some (.final s') →
      (∀ message, ¬ SolveFails tools true s' message) ∧
      solveAndGenerate tools true s' = (s', none) ∧
      converged (convergenceState s'.lock) = true) := by
  constructor
  · cases hfirst : (solveAndGenerate tools false s).2 with
    | some e =>
      rw [relock_of_failed hfirst]
      exact .unsolved e _ (solveFails_of_some hfirst) (reached_after 0)
    | none =>
      rw [relock_of_ok hfirst]
      cases hrun : (trips tools).run fuel 0 [] (solveAndGenerate tools false s).1 with
      | none => exact .unfinished (Rounds.went_of_run hrun)
      | some stop => exact outcome_of_ended (fresh_of_ok hfirst) fuel (Rounds.ended_of_run hrun)
  · intro hfirst s' hrun
    obtain ⟨k, hwent, hfinal⟩ : ∃ k, (trips tools).Went 0 [] (firstSolve tools s) k ∧
        (trips tools).final s' = true ∧ s' = (trips tools).after 0 (firstSolve tools s) k := by
      cases Rounds.ended_of_run hrun with
      | final k hwent hfinal => exact ⟨k, hwent, hfinal, rfl⟩
    obtain ⟨hfinal, rfl⟩ := hfinal
    have hfresh := fresh_after (fresh_of_ok hfirst) hwent
    have hsettled := settled_of_final hfresh hfinal
    refine ⟨fun message hfails => ?_, solveAndGenerate_strict hfresh hsettled.problems,
      ((final_iff _).mp hfinal).2⟩
    cases hfails with
    | solver hsolve => exact nomatch hsettled.solved.symm.trans hsolve
    | generator lock hsolve hgenerate =>
      obtain rfl := Except.ok.inj (hsettled.solved.symm.trans hsolve)
      exact nomatch hsettled.generated.symm.trans hgenerate

/-- A source with a generator, beside what it builds with. -/
def generatorSolver : Solver where
  args :=
    { bashArgs with
      sourcePrimary := ["source.xml"]
      build := ["ripgrep"]
      override := []
      image := [] }
  lines := []
  inputs := ⟨["ripgrep"], Dict.empty, Dict.empty, Dict.empty, Dict.empty⟩
  reads := rfl
  repodata :=
    { binary := [("fedora", [{ bashBuild with requires := [] },
          { bashBuild with
            name := "cargo"
            provides := ["cargo", "rust-packaging"]
            requires := [] }])]
      buildroot := []
      source := [("fedora-source", [{ bashBuild with
          name := "ripgrep"
          arch := "src"
          provides := []
          requires := ["rust-packaging"] }])] }

/-- The first probe asks for more than its buildroot has, the second is content. -/
def generatorTools : Tools where
  solver := generatorSolver
  generate _ := .ok ()
  probes n _ := .ok [("probe", ⟨"ripgrep", ["rust-packaging", "cargo"], ["cargo"], [], n = 0⟩)]

def generatorLoop : Loop := ⟨generatorSolver.lock Dict.empty [], Dict.empty, .none⟩

/-- The loop is over after two trips, with the second answer. -/
theorem relock_outcome_generator : ∃ s',
    relock generatorTools 3 generatorLoop = some (.ok (), s') ∧ Settled generatorTools s' ∧
      solveAndGenerate generatorTools true s' = (s', none) ∧
      (s'.probe.get? "ripgrep").map Report.unmet = some false := by
  obtain ⟨houtcome, hstrict⟩ := relock_outcome generatorTools 3 generatorLoop
  have hfirst : (solveAndGenerate generatorTools false generatorLoop).2 = none := by
    decide +kernel
  have hrun : ((trips generatorTools).run 3 0 [] (firstSolve generatorTools generatorLoop)).map
      (fun stop => match stop with
        | .final s => (s.probe.get? "ripgrep").map Report.unmet
        | _ => none) = some (some false) := by
    decide +kernel
  obtain ⟨stop, hstop, hanswer⟩ := Option.map_eq_some_iff.mp hrun
  cases stop with
  | repeated s' => cases hanswer
  | failed e s' => cases hanswer
  | final s' =>
    obtain ⟨_, hlast, hconverged⟩ := hstrict hfirst s' hstop
    have hended : relock generatorTools 3 generatorLoop = some (.ok (), s') := by
      rw [relock_of_ok hfirst]
      show ((trips generatorTools).run 3 0 [] (firstSolve generatorTools generatorLoop)).map
        (conclude generatorTools) = _
      rw [hstop, Option.map_some]
      unfold conclude
      dsimp only
      rw [hlast]
      dsimp only
      rw [if_pos hconverged]
    rw [hended] at houtcome
    cases houtcome with
    | settled k _ hwent hreached hsettled => exact ⟨s', hended, hsettled, hlast, hanswer⟩

end BuckosDistro.Relock
