/-
  Probe reports on their way back to the solver (`tools/probe.py`, with the macros of
  `defs/flavor.bzl` and `load_probe` of `tools/solve.py`).

  The driver names one target for every source of the build list. The target stands for the
  recipe of that name, or for its first stage; it reports under the name of its spec; and the
  solver looks a report up by the name on the build list. The two names are the same except
  for a version variant, whose spec is named after the source it varies.
-/
import BuckosDistro.Family.Staged
import BuckosDistro.Solve.Emitted

namespace BuckosDistro.Family

open BuckosDistro.Lib BuckosDistro.Depgraph BuckosDistro.Solve BuckosDistro.Generate

/-! ## The targets -/

/-- The release a lock is for. -/
structure Release where
  flavor : String
  release : String
  targetCpu : String
deriving DecidableEq, Repr

/-- What the targets of a release end with. -/
def Release.suffix (r : Release) : String := "-" ++ r.release ++ "-" ++ r.targetCpu

/-- The label `probe_targets` makes for a source. -/
def Release.probeLabel (r : Release) (src : String) : String :=
  "//flavors/" ++ r.flavor ++ ":probe-" ++ src ++ r.suffix

/-- The `package_name` a target is probed with: `source_name or name`. -/
def packageName (r : Release) (target : String) (recipe : Recipe) : String :=
  if recipe.sourceName = "" then target ++ r.suffix else recipe.sourceName

/-! ## One run -/

/-- The file a probe writes: its report, and the package it says the report is for. -/
structure ProbeOutput where
  package : String
  report : Report

/-- What the probe of `src` writes. `answers` is what `rpmbuild -br` says of the source rpm of
    each recipe. `none` where there is no such target. -/
def probeOutput (r : Release) (data : Generated) (calls : List (String × Recipe))
    (answers : String → Report) (src : String) : Option ProbeOutput := do
  let _ ← recipeNamed data.recipes src
  let target := probeTarget data.staged src
  let recipe ← calls.lookup target
  return ⟨packageName r target recipe, answers recipe.name⟩

/-- The body of the loop of `collect`: a report without a package name stops it. -/
def collectReport (packages : Dict String Report) (output : ProbeOutput) :
    Option (Dict String Report) :=
  if output.package = "" then none else some (packages.set output.package output.report)

/-- `collect`: the reports in the order of their labels. -/
def collectReports (outputs : List (String × ProbeOutput)) : Option (Dict String Report) :=
  ((outputs.insertionSort fun a b => a.1 ≤ b.1).map Prod.snd).foldlM collectReport Dict.empty

/-- `write_probe_file`, where every probe of the build list is built. `cell` is what stands
    before the labels that come back, and `previous` what an earlier run recorded. -/
def writeProbeFile (r : Release) (data : Generated) (build : List String) (cell : String)
    (answers : String → Report) (previous : Dict String Report) : Option (Dict String Report) := do
  let calls ← packageCalls data
  let outputs ← (PyText.sortedSet build).mapM fun src =>
    (probeOutput r data calls answers src).map (Prod.mk (cell ++ r.probeLabel src))
  let fresh ← collectReports outputs
  return previous.update fresh

/-- `load_probe`: the reports on the packages being solved. -/
def loadProbe (packages : Dict String Report) (buildSet : List String) : Dict String Report :=
  packages.restrict (· ∈ buildSet)

/-! ## What a file holds -/

section Reports

variable {outputs : List ProbeOutput} {packages : Dict String Report}

/-- The reports filed are those that were written. -/
theorem mem_of_foldlM (h : outputs.foldlM collectReport Dict.empty = some packages) {key : String}
    {report : Report} (hget : packages.get? key = some report) :
    key ≠ "" ∧ ⟨key, report⟩ ∈ outputs := by
  induction outputs using List.reverseRecOn generalizing packages with
  | nil =>
    obtain rfl := Option.some.inj h
    cases hget
  | append_singleton outputs output ih =>
    rw [List.foldlM_append] at h
    obtain ⟨before, hbefore, h⟩ := Option.bind_eq_some_iff.mp h
    have hstep : collectReport before output = some packages := by simpa using h
    unfold collectReport at hstep
    split_ifs at hstep with hempty
    obtain rfl := Option.some.inj hstep
    rw [Dict.get?_set] at hget
    split_ifs at hget with hkey
    · obtain rfl := Option.some.inj hget
      refine ⟨hkey ▸ hempty, ?_⟩
      rw [hkey]
      simp
    · obtain ⟨hne, hmem⟩ := ih hbefore hget
      exact ⟨hne, List.mem_append_left _ hmem⟩

/-- Where no package name is missing or used twice, every report is filed under its own. -/
theorem foldlM_collectReport (hempty : ∀ output ∈ outputs, output.package ≠ "")
    (hn : (outputs.map ProbeOutput.package).Nodup) :
    ∃ packages, outputs.foldlM collectReport Dict.empty = some packages ∧
      ∀ output ∈ outputs, packages.get? output.package = some output.report := by
  induction outputs using List.reverseRecOn with
  | nil => exact ⟨Dict.empty, rfl, fun _ h => nomatch h⟩
  | append_singleton outputs output ih =>
    rw [List.map_append, List.nodup_append] at hn
    obtain ⟨before, hbefore, hfiled⟩ :=
      ih (fun o ho => hempty o (List.mem_append_left _ ho)) hn.1
    refine ⟨before.set output.package output.report, ?_, fun o ho => ?_⟩
    · have hne := hempty output (by simp)
      rw [List.foldlM_append, hbefore]
      simp [collectReport, hne]
    · rw [Dict.get?_set]
      rcases List.mem_append.mp ho with ho | ho
      · have hne : o.package ≠ output.package :=
          hn.2.2 _ (List.mem_map_of_mem ho) _ (by simp)
        rw [if_neg hne]
        exact hfiled o ho
      · rw [List.mem_singleton.mp ho, if_pos rfl]

/-- Only a report without a package name stops the loop. -/
theorem exists_unnamed (h : outputs.foldlM collectReport packages = none) :
    ∃ output ∈ outputs, output.package = "" := by
  induction outputs generalizing packages with
  | nil => exact absurd h (Option.some_ne_none _)
  | cons output outputs ih =>
    by_cases hempty : output.package = ""
    · exact ⟨output, List.mem_cons_self, hempty⟩
    · rw [List.foldlM_cons, collectReport, if_neg hempty] at h
      obtain ⟨other, hother, hunnamed⟩ := ih h
      exact ⟨other, List.mem_cons_of_mem _ hother, hunnamed⟩

theorem nodup_of_foldlM (h : outputs.foldlM collectReport Dict.empty = some packages) :
    packages.keys.Nodup := by
  induction outputs using List.reverseRecOn generalizing packages with
  | nil =>
    obtain rfl := Option.some.inj h
    exact List.nodup_nil
  | append_singleton outputs output ih =>
    rw [List.foldlM_append] at h
    obtain ⟨before, hbefore, h⟩ := Option.bind_eq_some_iff.mp h
    have hstep : collectReport before output = some packages := by simpa using h
    unfold collectReport at hstep
    split_ifs at hstep with hempty
    obtain rfl := Option.some.inj hstep
    exact Dict.nodup_keys_set (ih hbefore) _ _

end Reports

/-! ## A lock's own probes -/

/-- A release whose targets can be built from a lock: the module loads, and no target is
    defined twice. -/
structure Builds (lock : Lock) (data : Generated) : Prop where
  collected : collect lock = some data
  called : ∃ calls, packageCalls data = some calls ∧ (calls.map Prod.fst).Nodup

/-- Every source of the build list gets its own report back. -/
structure Faithful (r : Release) (data : Generated) (build : List String) : Prop where
  /-- No two sources write one entry. -/
  apart : ∀ calls, packageCalls data = some calls → ∀ answers, ∀ src ∈ build, ∀ src' ∈ build,
    ∀ output output', probeOutput r data calls answers src = some output →
      probeOutput r data calls answers src' = some output' →
      output.package = output'.package → src = src'
  /-- The entry both readers find for a source is what was said of its own source rpm. -/
  own : ∀ cell answers previous, ∃ packages,
    writeProbeFile r data build cell answers previous = some packages ∧
      ∀ src ∈ build, packages.get? src = some (answers src) ∧
        ∀ buildSet, src ∈ buildSet → (loadProbe packages buildSet).get? src = some (answers src)

section Probes

variable {e : Emission} {stages : ℕ} {imageSets : Dict String (List String)}
  {seedPackages : List String} {imageUniverse : Universe} {data : Generated}
  {r : Release} {answers : String → Report} {src : String}

theorem staged_sortedStaged {plan : Plan} (h : Staged plan.staged) :
    Staged (sortedStaged plan) := by
  have hmem : ∀ entry, entry ∈ sortedStaged plan ↔ ∃ entry' ∈ plan.staged,
      { entry' with cycleDeps := entry'.cycleDeps.insertionSort (· ≤ ·) } = entry := by
    intro entry
    unfold sortedStaged
    rw [List.mem_map]
    simp only [List.mem_insertionSort]
  constructor
  · intro entry hentry
    obtain ⟨entry', hmem', rfl⟩ := (hmem entry).mp hentry
    exact h.named entry' hmem'
  · intro entry hentry
    obtain ⟨entry', hmem', rfl⟩ := (hmem entry).mp hentry
    obtain ⟨first, hfirst, hsource, hstage⟩ := h.first entry' hmem'
    exact ⟨_, (hmem _).mpr ⟨first, hfirst, rfl⟩, hsource, hstage⟩

/-- The probe of a source is that of its recipe, and reports under the name of its spec. -/
theorem probeOutput_eq
    (hb : Builds (e.lock (e.plan stages) imageSets seedPackages imageUniverse) data)
    {calls : List (String × Recipe)} (hcalls : packageCalls data = some calls)
    (hsrc : src ∈ e.added.buildSet) :
    probeOutput r data calls answers src =
      some ⟨if specName e.variants src = "" then probeTarget data.staged src ++ r.suffix
        else specName e.variants src, answers src⟩ := by
  have hloaded := loaded_of_collect hb.collected
  obtain ⟨_, hcalls', hn⟩ := hb.called
  rw [hcalls, Option.some.injEq] at hcalls'
  rw [← hcalls'] at hn
  have hstaged : Staged data.staged := by
    rw [hloaded.staged]
    exact staged_sortedStaged (staged_stagedPlan _ _ _ _)
  obtain ⟨recipe, hmem, hname, hrecipe⟩ := hloaded.recipe (get?_packages hsrc)
  have hspec : recipe.sourceName = specName e.variants src :=
    (recipeOf_sourceName hrecipe).trans (source_name_package src)
  have hnamed := recipeNamed_eq hloaded.nodup hmem
  have hcall : (probeTarget data.staged src, recipe) ∈ calls := by
    rw [mem_packageCalls hcalls, probeTarget_eq hstaged]
    by_cases hs : src ∈ data.staged.map StageEntry.source
    · obtain ⟨entry, hentry, rfl⟩ := List.mem_map.mp hs
      obtain ⟨first, hfirst, hsource, hstage⟩ := hstaged.first entry hentry
      refine Or.inr ⟨first, hfirst, ?_, ?_⟩
      · rw [hsource, ← hname]
        exact hnamed
      · rw [if_pos hs, hstaged.named first hfirst, hsource, hstage]
    · rw [if_neg hs]
      exact Or.inl ⟨hmem, hname ▸ hs, hname.symm⟩
  unfold probeOutput
  rw [← hname, hnamed, hname]
  simp only [Option.bind_eq_bind, Option.bind_some, lookup_calls hn hcall]
  unfold packageName
  rw [hspec, hname]
  rfl

/-- The outputs of a run, up to the order they are collected in. -/
theorem outputs_eq (r : Release) (answers : String → Report)
    (hb : Builds (e.lock (e.plan stages) imageSets seedPackages imageUniverse) data)
    {calls : List (String × Recipe)} (hcalls : packageCalls data = some calls) (cell : String) :
    ∃ outputs : List (String × ProbeOutput),
      (PyText.sortedSet e.added.buildSet).mapM (fun src =>
        (probeOutput r data calls answers src).map (Prod.mk (cell ++ r.probeLabel src))) =
        some outputs ∧
      (((outputs.insertionSort fun a b => a.1 ≤ b.1).map Prod.snd).Perm
        ((PyText.sortedSet e.added.buildSet).map fun src =>
          ⟨if specName e.variants src = "" then probeTarget data.staged src ++ r.suffix
            else specName e.variants src, answers src⟩)) := by
  refine ⟨_, Lists.mapM_of_forall (g := fun src => (cell ++ r.probeLabel src,
    ⟨if specName e.variants src = "" then probeTarget data.staged src ++ r.suffix
      else specName e.variants src, answers src⟩)) fun src hsrc => ?_, ?_⟩
  · rw [probeOutput_eq hb hcalls (PyText.mem_sortedSet.mp hsrc)]
    rfl
  · refine ((List.perm_insertionSort _ _).map _).trans ?_
    rw [List.map_map]
    exact List.Perm.refl _

/-- Every report is filed under the name of its source when every spec has that name. -/
theorem faithful_of_own_names
    (hb : Builds (e.lock (e.plan stages) imageSets seedPackages imageUniverse) data)
    (hnames : ∀ src ∈ e.added.buildSet, src ≠ "" ∧ specName e.variants src = src) :
    Faithful r data e.added.buildSet := by
  obtain ⟨calls, hcalls, _⟩ := hb.called
  have hname : ∀ src ∈ e.added.buildSet,
      (if specName e.variants src = "" then probeTarget data.staged src ++ r.suffix
        else specName e.variants src) = src := by
    intro src hsrc
    obtain ⟨hne, hspec⟩ := hnames src hsrc
    rw [hspec, if_neg hne]
  constructor
  · intro calls' hcalls' answers src hsrc src' hsrc' output output' ho ho' hpackage
    rw [probeOutput_eq hb hcalls' hsrc, Option.some.injEq] at ho
    rw [probeOutput_eq hb hcalls' hsrc', Option.some.injEq] at ho'
    rw [← ho, ← ho', hname src hsrc, hname src' hsrc'] at hpackage
    exact hpackage
  · intro cell answers previous
    obtain ⟨outputs, houtputs, hperm⟩ := outputs_eq r answers hb hcalls cell
    have hall : ∀ output ∈ (outputs.insertionSort fun a b => a.1 ≤ b.1).map Prod.snd,
        ∃ src ∈ e.added.buildSet, output = ⟨src, answers src⟩ := by
      intro output ho
      obtain ⟨src, hsrc, rfl⟩ := List.mem_map.mp (hperm.mem_iff.mp ho)
      have hmem := PyText.mem_sortedSet.mp hsrc
      exact ⟨src, hmem, by rw [hname src hmem]⟩
    have hempty : ∀ output ∈ (outputs.insertionSort fun a b => a.1 ≤ b.1).map Prod.snd,
        output.package ≠ "" := by
      intro output ho
      obtain ⟨src, hsrc, rfl⟩ := hall output ho
      exact (hnames src hsrc).1
    have hnodup : (((outputs.insertionSort fun a b => a.1 ≤ b.1).map Prod.snd).map
        ProbeOutput.package).Nodup := by
      rw [(hperm.map ProbeOutput.package).nodup_iff, List.map_map]
      have hself : (PyText.sortedSet e.added.buildSet).map (ProbeOutput.package ∘ fun src =>
          ⟨if specName e.variants src = "" then probeTarget data.staged src ++ r.suffix
            else specName e.variants src, answers src⟩) = PyText.sortedSet e.added.buildSet := by
        refine (List.map_congr_left fun src hsrc => ?_).trans (List.map_id _)
        exact hname src (PyText.mem_sortedSet.mp hsrc)
      rw [hself]
      exact (List.perm_insertionSort _ _).nodup_iff.mpr (List.nodup_dedup _)
    obtain ⟨fresh, hfresh, hfiled⟩ := foldlM_collectReport hempty hnodup
    refine ⟨previous.update fresh, ?_, fun src hsrc => ?_⟩
    · unfold writeProbeFile collectReports
      simp only [hcalls, houtputs, hfresh, Option.bind_eq_bind, Option.bind_some]
      rfl
    · have hmem : (⟨src, answers src⟩ : ProbeOutput) ∈
          (outputs.insertionSort fun a b => a.1 ≤ b.1).map Prod.snd := by
        refine hperm.mem_iff.mpr (List.mem_map.mpr ⟨src, PyText.mem_sortedSet.mpr hsrc, ?_⟩)
        rw [hname src hsrc]
      have hget : (previous.update fresh).get? src = some (answers src) := by
        rw [Dict.get?_update (nodup_of_foldlM hfresh), hfiled _ hmem]
        rfl
      refine ⟨hget, fun buildSet hbuild => ?_⟩
      unfold loadProbe
      rw [Dict.get?_restrict, if_pos (decide_eq_true hbuild), hget]

/-- A report that comes back under the name of its source was made by a spec of that name. -/
theorem own_name_of_faithful
    (hb : Builds (e.lock (e.plan stages) imageSets seedPackages imageUniverse) data)
    (h : Faithful r data e.added.buildSet) (hsrc : src ∈ e.added.buildSet) :
    src ≠ "" ∧ specName e.variants src = src := by
  obtain ⟨calls, hcalls, _⟩ := hb.called
  -- Answers that tell the source from all others, and no earlier file to fall back on.
  obtain ⟨packages, hwrite, hown⟩ :=
    h.own "" (fun s => { unmet := decide (s = src) }) Dict.empty
  obtain ⟨outputs, houtputs, hperm⟩ :=
    outputs_eq r (fun s => { unmet := decide (s = src) }) hb hcalls ""
  unfold writeProbeFile collectReports at hwrite
  rw [hcalls] at hwrite
  simp only [Option.bind_eq_bind, Option.bind_some, houtputs] at hwrite
  obtain ⟨fresh, hfresh, hwrite⟩ := Option.bind_eq_some_iff.mp hwrite
  obtain rfl := Option.some.inj hwrite
  have hget := (hown src hsrc).1
  rw [Dict.get?_update (nodup_of_foldlM hfresh), Dict.get?_empty, Option.or_none] at hget
  obtain ⟨hne, hmem⟩ := mem_of_foldlM hfresh hget
  obtain ⟨src', _, heq⟩ := List.mem_map.mp (hperm.mem_iff.mp hmem)
  obtain ⟨hpackage, hreport⟩ := ProbeOutput.mk.inj heq
  have hsame : src' = src := by
    have hunmet := congrArg Report.unmet hreport
    simpa using hunmet
  rw [hsame] at hpackage
  refine ⟨hne, ?_⟩
  split_ifs at hpackage with hempty
  · exact absurd (specName_eq_empty hempty) hne
  · exact hpackage

end Probes

/-- **Every build-list source gets back the report of its own source rpm** exactly when none
    of them is a version variant: each has a name, and it is the name of its spec. -/
theorem probes_faithful_iff (e : Emission) (stages : ℕ) (imageSets : Dict String (List String))
    (seedPackages : List String) (imageUniverse : Universe) (data : Generated) (r : Release) :
    let lock := e.lock (e.plan stages) imageSets seedPackages imageUniverse
    (Builds lock data → Faithful r data e.added.buildSet) ↔
      (Builds lock data →
        ∀ src ∈ e.added.buildSet, src ≠ "" ∧ specName e.variants src = src) :=
  forall_congr' fun hb =>
    ⟨fun h _ hsrc => own_name_of_faithful hb h hsrc, faithful_of_own_names hb⟩

/-- acl and attr, each built against the other. -/
def aclAttr : Emission :=
  { repodata :=
      { provides := Dict.empty, provideEvr := Dict.empty, requires := Dict.empty
        sourceOf := ⟨[("libacl", "acl"), ("libattr", "attr")]⟩
        subpackages := ⟨[("acl", ["libacl"]), ("attr", ["libattr"])]⟩
        binaryIndex := ⟨[
          ("libacl", { name := "libacl", arch := "x86_64", version := "2.4.0", release := "1"
                       location := "libacl-2.4.0.rpm", checksum := "b4"
                       checksumType := "sha256" }),
          ("libattr", { name := "libattr", arch := "x86_64", version := "2.5.2", release := "1"
                        location := "libattr-2.5.2.rpm", checksum := "b5"
                        checksumType := "sha256" })]⟩
        sourceIndex := ⟨[
          ("acl", { name := "acl", arch := "src", version := "2.4.0", release := "1"
                    location := "acl-2.4.0.src.rpm", checksum := "a4", checksumType := "sha256" }),
          ("attr", { name := "attr", arch := "src", version := "2.5.2", release := "1"
                     location := "attr-2.5.2.src.rpm", checksum := "a5"
                     checksumType := "sha256" })]⟩
        foreignSourceOf := Dict.empty }
    variants := Dict.empty
    sourceSuperseded := Dict.empty
    binarySuperseded := Dict.empty
    buildSet := ["acl", "attr"]
    solution :=
      { buildDeps := ⟨[("acl", {"libattr"}), ("attr", {"libacl"})]⟩, resolutions := Dict.empty
        problems := [], dynamic := Dict.empty, baseClosure := ∅ } }

/-- Both are staged, and both get back what was said of them. -/
theorem probes_faithful_acl_attr : ∃ data,
    Builds (aclAttr.lock (aclAttr.plan 3) Dict.empty [] aclAttr.repodata) data ∧
      data.staged.map StageEntry.source = ["acl", "attr", "acl", "attr", "acl", "attr"] ∧
      Faithful ⟨"fedora", "43", "x86_64"⟩ data ["acl", "attr"] := by
  have hcollect : (collect (aclAttr.lock (aclAttr.plan 3) Dict.empty [] aclAttr.repodata)).any
      (fun data => data.staged.map StageEntry.source =
          ["acl", "attr", "acl", "attr", "acl", "attr"] ∧
        (packageCalls data).any fun calls => (calls.map Prod.fst).Nodup) = true := by
    decide +kernel
  obtain ⟨data, hdata, hholds⟩ := (Option.any_eq_true _ _).mp hcollect
  obtain ⟨hstaged, hcalled⟩ := of_decide_eq_true hholds
  obtain ⟨calls, hcalls, hnodup⟩ := (Option.any_eq_true _ _).mp hcalled
  have hbuilds : Builds (aclAttr.lock (aclAttr.plan 3) Dict.empty [] aclAttr.repodata) data :=
    ⟨hdata, calls, hcalls, of_decide_eq_true hnodup⟩
  refine ⟨data, hbuilds, hstaged, (probes_faithful_iff aclAttr 3 Dict.empty [] aclAttr.repodata
    data ⟨"fedora", "43", "x86_64"⟩).mpr (fun _ => ?_) hbuilds⟩
  decide +kernel

/-- acl built at two versions, the older one for tar. -/
def aclTwice : Emission :=
  { repodata :=
      { provides := Dict.empty, provideEvr := Dict.empty, requires := Dict.empty
        sourceOf := Dict.single "libacl" "acl"
        subpackages := Dict.single "acl" ["libacl"]
        binaryIndex := Dict.single "libacl"
          { name := "libacl", arch := "x86_64", version := "2.4.0", release := "1"
            location := "libacl-2.4.0.rpm", checksum := "b4", checksumType := "sha256" }
        sourceIndex := Dict.single "acl"
          { name := "acl", arch := "src", version := "2.4.0", release := "1"
            location := "acl-2.4.0.src.rpm", checksum := "a4", checksumType := "sha256" }
        foreignSourceOf := Dict.empty }
    variants := Dict.single "acl-compat" ⟨"acl", "2.3.2-1", ["tar"]⟩
    sourceSuperseded := Dict.single ("acl", "src") (Dict.single "2.3.2-1"
      { name := "acl", arch := "src", version := "2.3.2", release := "1"
        location := "acl-2.3.2.src.rpm", checksum := "a3", checksumType := "sha256" })
    binarySuperseded := Dict.single ("libacl", "x86_64") (Dict.single "2.3.2-1"
      { name := "libacl", arch := "x86_64", version := "2.3.2", release := "1"
        location := "libacl-2.3.2.rpm", checksum := "b3", checksumType := "sha256" })
    buildSet := ["acl"]
    solution :=
      { buildDeps := Dict.empty, resolutions := Dict.empty, problems := []
        dynamic := Dict.empty, baseClosure := ∅ } }

theorem staged_aclTwice : (aclTwice.plan 3).staged = [] := by
  decide +kernel

/-- The targets of that solve can be built. -/
theorem builds_aclTwice : ∃ data,
    Builds (aclTwice.lock (aclTwice.plan 3) Dict.empty [] aclTwice.repodata) data := by
  have hpackage : aclTwice.package = fun src =>
      { source := lockSource aclTwice.emitted aclTwice.variants src
        subpackages := recipeSubpackages aclTwice.emitted aclTwice.added.subpackages src
        variantOf := (aclTwice.variants.get? src).map SourceVariant.source
        buildRequiresResolved := Dict.empty
        depsBuilt := []
        depsSeed := []
        dynamicBuildrequires := ⟨"repodata", [], [], false⟩ } := by
    funext src
    rfl
  have hlock : aclTwice.lock (aclTwice.plan 3) Dict.empty [] aclTwice.repodata =
      { buildrootSeed := []
        variantSeed := dedupePins [routedBinary aclTwice.emitted aclTwice.args "tar" "libacl"]
        baseSeed := []
        imageSets := Dict.empty
        plan := aclTwice.plan 3
        packages := Dict.ofKeys ["acl", "acl-compat"] aclTwice.package
        problems := [] } := by
    rfl
  have hcollect : ∃ data, collect (aclTwice.lock (aclTwice.plan 3) Dict.empty []
      aclTwice.repodata) = some data ∧ data.staged = [] ∧
        data.recipes.map Recipe.name = ["acl", "acl-compat"] := by
    rw [hlock, hpackage]
    unfold collect sortedStaged
    dsimp only
    rw [staged_aclTwice]
    exact ⟨_, rfl, rfl, rfl⟩
  obtain ⟨data, hdata, hstaged, hnames⟩ := hcollect
  refine ⟨data, hdata, _, packageCalls_of_unstaged hstaged, ?_⟩
  rw [List.map_map]
  have hself : data.recipes.map (Prod.fst ∘ fun recipe => (recipe.name, recipe)) =
      data.recipes.map Recipe.name := rfl
  rw [hself, hnames]
  decide

/-- The report on the variant is filed under the source it varies. -/
theorem variant_report_misfiled :
    ¬ ∀ (e : Emission) (stages : ℕ) (imageSets : Dict String (List String))
      (seedPackages : List String) (imageUniverse : Universe) (data : Generated) (r : Release),
      Builds (e.lock (e.plan stages) imageSets seedPackages imageUniverse) data →
        Faithful r data e.added.buildSet := by
  intro h
  obtain ⟨data, hb⟩ := builds_aclTwice
  have hown := own_name_of_faithful hb (h aclTwice 3 Dict.empty [] aclTwice.repodata data
    ⟨"fedora", "43", "x86_64"⟩ hb) (by decide : "acl-compat" ∈ aclTwice.added.buildSet)
  revert hown
  decide

end BuckosDistro.Family
