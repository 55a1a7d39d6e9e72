/-
  Version ranges of BuildRequires.

  A record states the range of a BuildRequires beside its name, and `build_requires_of`
  reads the name alone. A report states it in the text, and the solve drops it where the
  capability is ambiguous and put off to the closure. `RangeSafe` says for which
  requirements the name answers as well as the range would.
-/
import BuckosDistro.Depgraph.Plain
import BuckosDistro.Solve.Solve

namespace BuckosDistro.Solve

open BuckosDistro.Lib BuckosDistro.Depgraph

/-! ## Stated ranges -/

/-- A BuildRequires `cap OP evr`: the text that reaches the solve, which is `cap` alone
    when a record states it, and the range. -/
structure BuildRange where
  text : String
  op : Op
  wanted : String
  plain : isRichDep (stripCapabilityVersion text) = false
  bare : Unversioned (stripCapabilityVersion text)

namespace BuildRange

variable (b : BuildRange)

/-- The capability. -/
def name : String := stripCapabilityVersion b.text

/-- A record states the range in its attributes. -/
def StatedByRecord (record : PackageRecord) : Prop :=
  b.text ∈ record.requires ∧ ∃ flags evr, (b.text, flags, evr) ∈ record.requireRanges ∧
    rpmFlagOp flags = some b.op ∧ rangeText evr = b.wanted

/-- A report states it in the text. -/
def StatedByReport (report : Report) : Prop :=
  b.text ∈ report.buildrequires ∧ (splitConstraint b.text).2 = some (b.op, b.wanted)

/-- The source states it: in its report when it was probed, else in its record. -/
def Stated (u : Universe) (probe : Dict String Report) (src : String) : Prop :=
  ∃ record, u.sourceIndex.get? src = some record ∧
    match probe.get? src with
    | none => b.StatedByRecord record
    | some report => b.StatedByReport report

/-- Some package of the set provides the capability at a version in the range. -/
def MetIn (L : Lookup) (S : Finset String) : Prop :=
  ∃ pkg ∈ S, L.Offers b.name (some (b.op, b.wanted)) pkg

instance (L : Lookup) (S : Finset String) : Decidable (b.MetIn L S) :=
  inferInstanceAs (Decidable (∃ pkg ∈ S, _))

end BuildRange

/-- Several packages answer the capability, and nothing settles which. -/
def Ambiguous (L : Lookup) (cap : String) (candidates : List String) : Prop :=
  ∃ who c, resolveCapability L cap who = .error (.ambiguousProvider c candidates)

/-- When the range makes no difference: the text is not filtered, what it resolves to is in
    the range, and where it is put off under its bare name, so is what that name resolves
    to and whatever can settle a choice between its providers. `Asked` are the packages
    considered. -/
structure RangeSafe (L : Lookup) (b : BuildRange) (Asked : String → Prop) : Prop where
  declared : isPseudoCapability b.text = false
  resolved : ∀ who pkg, resolveCapability L b.text who = .ok pkg →
    L.Offers b.name (some (b.op, b.wanted)) pkg
  deferred : ∀ cs, Ambiguous L b.text cs → ∀ who pkg,
    resolveCapability L b.name who = .ok pkg → L.Offers b.name (some (b.op, b.wanted)) pkg
  settled : ∀ cs, Ambiguous L b.text cs → ∀ candidates, Ambiguous L b.name candidates →
    ∀ name ∈ candidates, ∀ pkg, Asked pkg → L.StandsFor name pkg →
      L.Offers b.name (some (b.op, b.wanted)) pkg

/-- Every solve that reports nothing for a source that states the range meets it. -/
def RangeKept (L : Lookup) (b : BuildRange) : Prop :=
  ∀ (u : Universe) (buildSet : List String) (overrides : Dict String String)
    (probe : Dict String Report) (implicit : List String) (src : String)
    (deps : Finset String),
    u.lookup overrides = L → src ∈ buildSet → b.Stated u probe src →
    (solveSource u overrides probe implicit src).problems = [] →
    (solve u buildSet overrides probe implicit).buildDeps.get? src = some deps →
    b.MetIn L deps

/-- Some plain BuildRequires brings the package in. -/
def Askable (L : Lookup) (pkg : String) : Prop :=
  ∃ cap, isRichDep (stripCapabilityVersion cap) = false ∧ isPseudoCapability cap = false ∧
    ∀ who, resolveCapability L cap who = .ok pkg

/-! ## From a safe range to a met one -/

section Safe

variable {L : Lookup} {b : BuildRange}

theorem demandExtra_name (b : BuildRange) (L : Lookup) (who : String) :
    demandExtra L ∅ b.name who = resolve L who b.name := by
  have hbare : stripCapabilityVersion b.name = b.name := by
    rw [← splitConstraint_fst, BuildRange.name, b.bare]
  have hplain : isRichDep b.name = false := b.plain
  simp [demandExtra, hbare, hplain]

/-- A stated range is among the texts the loop reads. -/
theorem BuildRange.Stated.mem {u : Universe} {probe : Dict String Report} {src : String}
    {implicit : List String} (hd : isPseudoCapability b.text = false)
    (hs : b.Stated u probe src) :
    ∃ record, u.sourceIndex.get? src = some record ∧
      b.text ∈ requiresFor record (probe.get? src) implicit := by
  obtain ⟨record, hr, hs⟩ := hs
  refine ⟨record, hr, ?_⟩
  cases hp : probe.get? src with
  | none =>
    rw [hp] at hs
    simp [requiresFor, buildRequiresOf, hd, hs.1]
  | some report =>
    rw [hp] at hs
    simp [requiresFor, probedBuildrequires, hd, hs.1]

/-- The closure of a source without problems. -/
theorem clean_solveSource {u : Universe} {overrides : Dict String String}
    {probe : Dict String Report} {implicit : List String} {src : String}
    {record : PackageRecord} (hr : u.sourceIndex.get? src = some record)
    (hp : (solveSource u overrides probe implicit src).problems = []) :
    (collectRequires (u.lookup overrides) src
        (requiresFor record (probe.get? src) implicit)).problems = [] ∧
      runtimeClosure (u.lookup overrides) u.requires
        (collectRequires (u.lookup overrides) src
          (requiresFor record (probe.get? src) implicit)).direct
        (collectRequires (u.lookup overrides) src
          (requiresFor record (probe.get? src) implicit)).conditional =
        ((solveSource u overrides probe implicit src).deps, []) := by
  simp only [solveSource, hr] at hp ⊢
  rw [List.append_eq_nil_iff] at hp
  exact ⟨hp.1, Prod.ext rfl hp.2⟩

/-- An ambiguous range that the closure answers by its bare name. -/
theorem met_of_deferred (hs : RangeSafe L b fun _ => True) {cs : List String}
    (ha : Ambiguous L b.text cs)
    {S : Finset String} {who : String} (hk : (resolve L who b.name).Kept L S) :
    b.MetIn L S := by
  cases hr : resolveCapability L b.name who with
  | ok pkg =>
    have hS : pkg ∈ S := hk.pkgs pkg (by simp [resolve, hr])
    exact ⟨pkg, hS, hs.deferred cs ha who pkg hr⟩
  | error e =>
    cases e with
    | ambiguousProvider c candidates =>
      rw [resolve_of_ambiguous hr] at hk
      obtain ⟨ho', _, _⟩ := resolveCapability_ambiguous hr
      obtain ⟨a, hmem, p, hp, hst⟩ := settled_of_kept_choice ho' hk
      exact ⟨p, hp, hs.settled cs ha candidates ⟨who, c, hr⟩ a
        (PyText.mem_sortedSet.mp hmem) p trivial hst⟩
    | unresolvedCapability c w =>
      have := hk.problems
      simp [resolve, hr] at this

theorem rangeKept_of_safe (hs : RangeSafe L b fun _ => True) : RangeKept L b := by
  intro u buildSet overrides probe implicit src deps hL hsrc hst hp hdeps
  subst hL
  rw [solve_buildDeps hsrc, Option.some.injEq] at hdeps
  subst hdeps
  have hmem : ∃ record, u.sourceIndex.get? src = some record ∧
      b.text ∈ requiresFor record (probe.get? src) implicit := hst.mem hs.declared
  obtain ⟨record, hr, hmem⟩ := hmem
  obtain ⟨hprob, hclean⟩ := clean_solveSource hr hp
  have hplain : isRichDep (stripCapabilityVersion b.text) = false := b.plain
  have hheld := @holds_collectRequires (u.lookup overrides) src _ _ hmem
  unfold Collected.Holds at hheld
  rw [hplain, hprob] at hheld
  cases hres : resolveCapability (u.lookup overrides) b.text src with
  | ok pkg =>
    rw [hres] at hheld
    exact ⟨pkg, root_mem_of_clean hclean hheld, hs.resolved src pkg hres⟩
  | error e =>
    rw [hres] at hheld
    cases e with
    | unresolvedCapability c w => cases hheld
    | ambiguousProvider c cs =>
      have hk := kept_of_clean hclean (extra_kept hheld)
      rw [← BuildRange.name, demandExtra_name] at hk
      exact met_of_deferred hs ⟨src, c, hres⟩ hk

end Safe

/-! ## The runs that show an unsafe range -/

/-- The attribute an operator is written with in repodata. -/
def flagOf : Op → String
  | .eq => "EQ" | .ge => "GE" | .gt => "GT" | .le => "LE" | .lt => "LT"

theorem rpmFlagOp_flagOf (op : Op) : rpmFlagOp (some (flagOf op)) = some op := by
  cases op <;> rfl

/-- A source that states the range, and `caps` after it. -/
def soleRecord (b : BuildRange) (caps : List String) : PackageRecord where
  name := "s"
  requires := b.text :: caps
  requireRanges := [(b.text, some (flagOf b.op), ⟨none, some b.wanted, none⟩)]

/-- The universe of that source, in which no package requires anything. -/
def soleUniverse (L : Lookup) (b : BuildRange) (caps : List String) : Universe where
  provides := L.provides
  provideEvr := L.provideEvr
  requires := Dict.empty
  sourceOf := Dict.empty
  subpackages := Dict.empty
  binaryIndex := Dict.empty
  sourceIndex := Dict.single "s" (soleRecord b caps)
  foreignSourceOf := Dict.empty

section Unsafe

variable {L : Lookup} {b : BuildRange}

theorem stated_soleUniverse (caps : List String) :
    b.Stated (soleUniverse L b caps) Dict.empty "s" :=
  ⟨soleRecord b caps, Dict.get?_single_self _ _, List.mem_cons_self ..,
    some (flagOf b.op), ⟨none, some b.wanted, none⟩, List.mem_singleton_self _,
    rpmFlagOp_flagOf b.op, rfl⟩

/-- What the loop collects for that source, and the set its closure is. -/
theorem metIn_of_kept (hk : RangeKept L b) (caps : List String) {S : Finset String}
    {s : Collected} (hs : collectRequires L "s"
      ((b.text :: caps).filter fun c => !isPseudoCapability c) = s)
    (hp : s.problems = [])
    (hc : runtimeClosure L Dict.empty s.direct s.conditional = (S, [])) : b.MetIn L S := by
  have hsolve : solveSource (soleUniverse L b caps) L.overrides Dict.empty [] "s" =
      ⟨S, s.resolutions, some (dynamicFor (soleRecord b caps) none), []⟩ := by
    have hget : (soleUniverse L b caps).sourceIndex.get? "s" = some (soleRecord b caps) :=
      Dict.get?_single_self _ _
    have hL : (soleUniverse L b caps).lookup L.overrides = L := rfl
    have hrequires : requiresFor (soleRecord b caps) none [] =
        (b.text :: caps).filter fun c => !isPseudoCapability c := rfl
    have hreq : (soleUniverse L b caps).requires = Dict.empty := rfl
    simp only [solveSource, hget, hL, Dict.get?_empty, hrequires, hs, hreq, hc, hp,
      List.nil_append]
  have hsrc : "s" ∈ ["s"] := List.mem_singleton_self _
  refine hk (soleUniverse L b caps) ["s"] L.overrides Dict.empty [] "s" S rfl hsrc
    (stated_soleUniverse caps) ?_ ?_
  · rw [hsolve]
  · rw [solve_buildDeps hsrc, hsolve]

theorem offers_of_metIn_singleton {pkg : String} (h : b.MetIn L {pkg}) :
    L.Offers b.name (some (b.op, b.wanted)) pkg := by
  obtain ⟨p, hp, ho⟩ := h
  rwa [Finset.mem_singleton.mp hp] at ho

/-- The closure of nothing but an entry put off under the name. -/
theorem start_deferred (L : Lookup) (b : BuildRange) (roots : List String) :
    start L roots [(b.name, "s")] =
      State.absorb ⟨∅, roots.reverse, [], [], [], false⟩ (resolve L "s" b.name) := by
  simp only [start, List.foldl_cons, List.foldl_nil, demandExtra_name]

theorem safe_of_rangeKept (hk : RangeKept L b) : RangeSafe L b (Askable L) := by
  have hplain : isRichDep (stripCapabilityVersion b.text) = false := b.plain
  have hdeclared : isPseudoCapability b.text = false := by
    by_contra h
    rw [Bool.not_eq_false] at h
    have hstart : start L [] [] = ⟨∅, [], [], [], [], false⟩ := rfl
    have hclosure : runtimeClosure L Dict.empty [] [] = (∅, []) :=
      closure_inert hstart (by simp) (by simp)
    obtain ⟨p, hp, _⟩ := metIn_of_kept hk [] (s := Collected.start)
      (by simp [h, collectRequires]) rfl hclosure
    cases hp
  -- What is collected when the range is put off, and other requirements resolve to `pkgs`.
  have hdefer : ∀ cs, Ambiguous L b.text cs →
      Collected.start.collect L "s" b.text = ⟨[], [(b.name, "s")], Dict.empty, []⟩ := by
    rintro cs ⟨who, c, ha⟩
    have ha' := resolveCapability_ambiguous_who ha "s"
    simp [Collected.collect, hplain, ha', Collected.start, BuildRange.name]
  refine ⟨hdeclared, fun who pkg hr => ?_, fun cs ha who pkg hr => ?_,
    fun cs ha candidates hc name hname pkg hask hst => ?_⟩
  · have hr' := resolveCapability_ok_who hr "s"
    have hstart : start L [pkg] [] = ⟨∅, [pkg], [], [], [], false⟩ := rfl
    have hclosure : runtimeClosure L Dict.empty [pkg] [] = ({pkg}, []) :=
      closure_inert hstart (by simp [Dict.getD]) (by simp)
    refine offers_of_metIn_singleton (metIn_of_kept hk []
      (s := ⟨[pkg], [], Dict.empty.set (stripCapabilityVersion b.text) pkg, []⟩) ?_ rfl hclosure)
    simp [hdeclared, collectRequires, Collected.collect, Collected.start, hplain, hr']
  · have hr' := resolveCapability_ok_who hr "s"
    have hstart : start L [] [(b.name, "s")] = ⟨∅, [pkg], [], [], [], false⟩ := by
      rw [start_deferred]
      simp [resolve, hr', State.absorb, State.push]
    have hclosure : runtimeClosure L Dict.empty [] [(b.name, "s")] = ({pkg}, []) :=
      closure_inert hstart (by simp [Dict.getD]) (by simp)
    refine offers_of_metIn_singleton (metIn_of_kept hk []
      (s := ⟨[], [(b.name, "s")], Dict.empty, []⟩) ?_ rfl hclosure)
    simp [hdeclared, collectRequires, hdefer cs ha]
  · obtain ⟨cap, hcplain, hcdecl, hcok⟩ := hask
    obtain ⟨who, c, hc⟩ := hc
    have hc' := resolveCapability_ambiguous_who hc "s"
    have hstart : start L [pkg] [(b.name, "s")] =
        ⟨∅, [pkg], [], [⟨b.name, PyText.sortedSet candidates, "s"⟩], [], false⟩ := by
      rw [start_deferred, resolve_of_ambiguous hc']
      simp [State.absorb, State.push, Outcome.choice, Outcome.pkgs]
    have hclosure : runtimeClosure L Dict.empty [pkg] [(b.name, "s")] = ({pkg}, []) := by
      refine closure_inert hstart (by simp [Dict.getD]) fun ch hch => ?_
      rw [List.mem_singleton.mp hch]
      exact Choice.settledBy_iff.mpr ⟨name, PyText.mem_sortedSet.mpr hname, pkg, by simp, hst⟩
    refine offers_of_metIn_singleton (metIn_of_kept hk [cap]
      (s := ⟨[pkg], [(b.name, "s")], Dict.empty.set (stripCapabilityVersion cap) pkg, []⟩) ?_ rfl
      hclosure)
    simp [hdeclared, hcdecl, collectRequires, hdefer cs ha]
    simp [Collected.collect, hcplain, hcok]

end Unsafe

/-! ## The result -/

/-- **When the range of a BuildRequires is met.** Every solve that reports nothing for a
    source that states the range meets it, if the range is safe; and only then, as far as
    the packages that can settle a choice can be asked for. -/
theorem build_range_met (L : Lookup) (b : BuildRange) :
    ((RangeSafe L b fun _ => True) → RangeKept L b) ∧
      (RangeKept L b → RangeSafe L b (Askable L)) :=
  ⟨rangeKept_of_safe, safe_of_rangeKept⟩

/-! ## Ranges that are lost -/

/-- `a` is provided by `a` at version 1, and by `b` and `c` at no stated version. -/
def mixedLookup : Lookup where
  provides := ⟨[("a", ["a", "b", "c"]), ("b", ["b"]), ("c", ["c"])]⟩
  provideEvr := ⟨[("a", ⟨[("a", [⟨some "0", some "1", some "1"⟩])]⟩)]⟩
  overrides := .empty

/-- `a >= 2` as a record states it. -/
def recordRange : BuildRange where
  text := "a"
  op := .ge
  wanted := "2"
  plain := by decide
  bare := by decide

/-- `a >= 2` as a report states it. -/
def reportRange : BuildRange where
  text := "a >= 2"
  op := .ge
  wanted := "2"
  plain := by decide
  bare := by decide

/-- A report that asks for `a >= 2`. -/
def mixedReport : Dict String Report := .single "s" { buildrequires := ["a >= 2"] }

/-- A solve of one source and an empty implicit group reports what the source does. -/
theorem solve_alone_problems (u : Universe) (probe : Dict String Report) :
    (solve u ["s"] Dict.empty probe []).problems =
      (solveSource u Dict.empty probe [] "s").problems := by
  have hstart : start (u.lookup Dict.empty) [] [] = ⟨∅, [], [], [], [], false⟩ := rfl
  have hbase : runtimeClosure (u.lookup Dict.empty) u.requires [] [] = (∅, []) :=
    closure_inert hstart (by simp) (by simp)
  have hover : validateOverrides Dict.empty u.provides "" = [] := rfl
  have hsort : PyText.sortedSet ["s"] = ["s"] := by decide
  simp [solve, baseDirect, hbase, hover, hsort]

/-- `s` states `a >= 2`, once in its record and once in its report. Both solves report no
    problem, and the environment of `s` holds version 1 of `a` and nothing else. -/
theorem build_range_lost :
    let u := soleUniverse mixedLookup recordRange []
    (solve u ["s"] Dict.empty Dict.empty []).problems = [] ∧
      recordRange.Stated u Dict.empty "s" ∧
      (solve u ["s"] Dict.empty Dict.empty []).buildDeps.get? "s" = some {"a"} ∧
      ¬ recordRange.MetIn mixedLookup {"a"} ∧
      (solve u ["s"] Dict.empty mixedReport []).problems = [] ∧
      reportRange.Stated u mixedReport "s" ∧
      (solve u ["s"] Dict.empty mixedReport []).buildDeps.get? "s" = some {"a"} ∧
      ¬ reportRange.MetIn mixedLookup {"a"} := by
  intro u
  have hname : resolveCapability mixedLookup "a" "s" = .ok "a" := by decide
  have hrange : resolveCapability mixedLookup "a >= 2" "s" =
      .error (.ambiguousProvider "a >= 2" ["b", "c"]) := by decide
  have hlookup : u.lookup Dict.empty = mixedLookup := rfl
  have hindex : u.sourceIndex.get? "s" = some (soleRecord recordRange []) :=
    Dict.get?_single_self _ _
  -- The record: `a` is resolved by its name.
  have hrecord : (solveSource u Dict.empty Dict.empty [] "s").deps = {"a"} ∧
      (solveSource u Dict.empty Dict.empty [] "s").problems = [] := by
    have hs : collectRequires mixedLookup "s"
        (requiresFor (soleRecord recordRange []) none []) =
        ⟨["a"], [], Dict.single "a" "a", []⟩ := by
      have hreq : requiresFor (soleRecord recordRange []) none [] = ["a"] := by decide
      have hplain : isRichDep "a" = false := by decide
      have hbase : stripCapabilityVersion "a" = "a" := by decide
      simp [hreq, collectRequires, Collected.collect, Collected.start, hplain, hname, hbase,
        Dict.set, Dict.empty, Dict.keys, Dict.single]
    have hstart : start mixedLookup ["a"] [] = ⟨∅, ["a"], [], [], [], false⟩ := rfl
    have hclosure : runtimeClosure mixedLookup u.requires ["a"] [] = ({"a"}, []) :=
      closure_inert hstart (by simp [u, soleUniverse, Dict.getD]) (by simp)
    simp [solveSource, hindex, hlookup, hs, hclosure]
  -- The report: `a >= 2` is put off, and `a` is resolved by its name.
  have hreport : (solveSource u Dict.empty mixedReport [] "s").deps = {"a"} ∧
      (solveSource u Dict.empty mixedReport [] "s").problems = [] := by
    have hget : mixedReport.get? "s" = some { buildrequires := ["a >= 2"] } :=
      Dict.get?_single_self _ _
    have hs : collectRequires mixedLookup "s"
        (requiresFor (soleRecord recordRange []) (some { buildrequires := ["a >= 2"] }) []) =
        ⟨[], [("a", "s")], Dict.empty, []⟩ := by
      have hreq : requiresFor (soleRecord recordRange [])
          (some { buildrequires := ["a >= 2"] }) [] = ["a >= 2"] := by decide
      have hplain : isRichDep "a" = false := by decide
      have hbase : stripCapabilityVersion "a >= 2" = "a" := by decide
      simp [hreq, collectRequires, Collected.collect, Collected.start, hplain, hrange, hbase]
    have hstart : start mixedLookup [] [("a", "s")] = ⟨∅, ["a"], [], [], [], false⟩ := by
      have h := start_deferred mixedLookup reportRange []
      have hb : reportRange.name = "a" := by decide
      rw [hb] at h
      rw [h]
      simp [resolve, hname, State.absorb, State.push]
    have hclosure : runtimeClosure mixedLookup u.requires [] [("a", "s")] = ({"a"}, []) :=
      closure_inert hstart (by simp [u, soleUniverse, Dict.getD]) (by simp)
    simp [solveSource, hindex, hlookup, hget, hs, hclosure]
  have hsrc : "s" ∈ ["s"] := List.mem_singleton_self _
  refine ⟨?_, stated_soleUniverse [], ?_, by decide, ?_, ?_, ?_, by decide⟩
  · rw [solve_alone_problems, hrecord.2]
  · rw [solve_buildDeps hsrc, hrecord.1]
  · rw [solve_alone_problems, hreport.2]
  · exact ⟨_, hindex, by decide, by decide⟩
  · rw [solve_buildDeps hsrc, hreport.1]

end BuckosDistro.Solve
