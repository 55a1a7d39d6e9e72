/-
  Every built dependency is something its recipe emits (`tools/solve.py`).

  The relation between binaries and sources is fixed when the universe is built, thinned by
  the probe reports and copied for the variants. The emitter reads one side of it to choose
  a recipe and the other to list what the recipe emits; both are still the same relation.
-/
import BuckosDistro.Solve.Routed

namespace BuckosDistro.Solve

open BuckosDistro.Lib BuckosDistro.Depgraph

/-! ## The lock of an emission -/

section Lock

/-- `plan_build_order`, of an emission. -/
def Emission.planned (e : Emission) (stages : ℤ) : Except String Plan :=
  planBuildOrder e.solution.buildDeps e.repodata.sourceOf e.added.buildSet stages e.added.routes

/-- The build plan of an emission. -/
def Emission.plan (e : Emission) (stages : ℕ) : Plan :=
  stagedPlan e.solution.buildDeps e.repodata.sourceOf e.added.buildSet stages e.added.routes

/-- The plan that is returned is the plan. -/
theorem plan_of_planned {e : Emission} {stages : ℤ} {plan : Plan}
    (h : e.planned stages = .ok plan) : plan = e.plan stages.toNat :=
  (planBuildOrder_eq_ok.mp h).2

/-- The lockfile, with what else it records. -/
def Emission.lock (e : Emission) (plan : Plan) (imageSets : Dict String (List String))
    (seedPackages : List String) (imageUniverse : Universe) : Lock :=
  emitLockfile e.emitted e.added.buildSet e.solution plan imageSets seedPackages e.args
    e.added.subpackages imageUniverse

variable {e : Emission} {plan : Plan} {imageSets : Dict String (List String)}
  {seedPackages : List String} {imageUniverse : Universe} {src : String}

theorem get?_packages (h : src ∈ e.added.buildSet) :
    (e.lock plan imageSets seedPackages imageUniverse).packages.get? src =
      some (e.package src) :=
  Dict.get?_ofKeys _ (PyText.mem_sortedSet.mpr h)

theorem package_of_get? {pkg : LockPackage}
    (h : (e.lock plan imageSets seedPackages imageUniverse).packages.get? src = some pkg) :
    src ∈ e.added.buildSet ∧ pkg = e.package src := by
  have hmem : src ∈ e.added.buildSet := by
    have hitem := Dict.mem_items_of_get? h
    obtain ⟨s, hs, he⟩ := List.mem_map.mp hitem
    obtain ⟨rfl, _⟩ := Prod.mk.inj he
    exact PyText.mem_sortedSet.mp hs
  rw [get?_packages hmem, Option.some.injEq] at h
  exact ⟨hmem, h.symm⟩

theorem specName_eq_empty {variants : Dict String SourceVariant}
    (h : specName variants src = "") : src = "" := by
  unfold specName at h
  split at h
  · exact h
  · exact h
  · next source hne _ => exact absurd h hne

/-- `source.get("source_name") or source["name"]` of a recipe is the name of its spec. -/
theorem source_name_package (src : String) :
    (if (e.package src).source.sourceName = "" then (e.package src).source.name
      else (e.package src).source.sourceName) = specName e.variants src := by
  have hfields : (e.package src).source.sourceName = specName e.variants src ∧
      (e.package src).source.name = src := by
    have hlock : (e.package src).source = lockSource e.emitted e.variants src := rfl
    rw [hlock]
    unfold lockSource
    cases e.emitted.sourceIndex.get? src <;> exact ⟨rfl, rfl⟩
  rw [hfields.1, hfields.2]
  split_ifs with hempty
  · rw [hempty, specName_eq_empty hempty]
  · rfl

/-- The image sets are pinned one by one. -/
theorem get?_imageSets (name : String) :
    (e.lock plan imageSets seedPackages imageUniverse).imageSets.get? name =
      (imageSets.get? name).map fun members => members.map (pinBinary imageUniverse) := by
  have hpairs : (fun name => (imageSets.get? name).map fun members =>
      (name, members.map (pinBinary imageUniverse))) = fun name =>
      ((imageSets.get? name).map fun members => members.map (pinBinary imageUniverse)).map
        (Prod.mk name) := by
    funext name
    rw [Option.map_map]
    rfl
  have hitems : (e.lock plan imageSets seedPackages imageUniverse).imageSets =
      ⟨(PyText.sortedSet imageSets.keys).filterMap fun name =>
        ((imageSets.get? name).map fun members => members.map (pinBinary imageUniverse)).map
          (Prod.mk name)⟩ := by
    rw [← hpairs]
    rfl
  rw [hitems, Dict.get?_filterMap]
  intro hk
  rw [PyText.mem_sortedSet, Dict.mem_keys_iff, Bool.not_eq_true, Option.isSome_eq_false_iff,
    Option.isNone_iff_eq_none] at hk
  rw [hk]
  rfl

/-- What the recipe of a source lists. -/
theorem package_subpackages :
    (e.package src).subpackages = recipeSubpackages e.repodata e.added.subpackages src := rfl

/-- A variant lists the binaries of the source it varies. -/
theorem mem_subpackages_of_accepted {binary variant : String} {spec : SourceVariant}
    (h : Accepted e.repodata e.variants e.added.buildSet e.added.subpackages variant spec)
    (hmem : binary ∈ e.repodata.subpackages.getD spec.source []) :
    binary ∈ (e.package variant).subpackages := by
  have hget : e.added.subpackages.getD variant [] =
      e.repodata.subpackages.getD spec.source [] :=
    Dict.getD_eq_of_get? [] h.subpackages
  rw [package_subpackages]
  unfold recipeSubpackages
  rw [hget]
  cases hs : e.repodata.subpackages.getD spec.source [] with
  | nil =>
    rw [hs] at hmem
    cases hmem
  | cons name names =>
    rw [hs] at hmem
    exact hmem

/-- A source that shares its name with no variant lists its own binaries. -/
theorem subpackages_of_no_variant (h : e.variants.get? src = none) :
    (e.package src).subpackages = e.repodata.subpackages.getD src [] := by
  have hget : e.added.subpackages.getD src [] = [] := by
    unfold Dict.getD
    cases hs : e.added.subpackages.get? src with
    | none => rfl
    | some names =>
      obtain ⟨spec, hacc⟩ := (added_addSourceVariants e.buildSet).listed src names hs
      have hstated := hacc.stated
      rw [h] at hstated
      cases hstated
  rw [package_subpackages]
  unfold recipeSubpackages
  rw [hget]

/-- The recipe of a built dependency lists it. -/
theorem recipe_lists (hinv : e.repodata.producers.Inverse)
    (hnames : ∀ binary s, e.repodata.sourceOf.get? binary = some s → e.variants.get? s = none)
    {pin : Pin} (hpin : pin ∈ (e.package src).depsBuilt) :
    ∃ recipe ∈ e.added.buildSet, e.producer pin = some recipe ∧
      pin.name ∈ (e.package recipe).subpackages := by
  obtain ⟨dep, _, htaken, rfl⟩ := mem_depsBuilt.mp hpin
  rw [producer_routedBinary, routedBinary_name]
  have hnormal : ∃ recipe ∈ e.added.buildSet, e.repodata.sourceOf.get? dep = some recipe ∧
      dep ∈ (e.package recipe).subpackages := by
    unfold takenFromRecipe at htaken
    obtain ⟨s, hs, hmem⟩ := (Option.any_eq_true _ _).mp htaken
    refine ⟨s, of_decide_eq_true hmem, hs, ?_⟩
    rw [subpackages_of_no_variant (hnames dep s hs)]
    exact (hinv dep s).mpr hs
  unfold Emission.dep
  cases hr : e.added.routes.route src dep with
  | none =>
    rw [depSource_of_unrouted hr]
    exact hnormal
  | some variant =>
    by_cases hempty : variant = ""
    · subst hempty
      rw [depSource_of_empty hr]
      exact hnormal
    · obtain ⟨spec, hacc, _, hmem, _⟩ :=
        (added_addSourceVariants e.buildSet).routed src dep variant hr
      rw [depSource_of_routed hr hempty]
      exact ⟨variant, hacc.built, rfl, mem_subpackages_of_accepted hacc hmem⟩

end Lock

/-! ## From the repodata to the lock -/

section Probed

variable {t : Target} {P S : List PackageRecord} {probe : Dict String Report}

theorem inverse_probed :
    (applyProbedProducers (buildUniverse t P S) probe).producers.Inverse :=
  (without_applyProbedProducers (inverse_buildUniverse t P S)).inverse
    (inverse_buildUniverse t P S)

/-- Every source a binary is filed under is named by some binary package. -/
theorem named_of_sourceOf {binary src : String}
    (h : (applyProbedProducers (buildUniverse t P S) probe).sourceOf.get? binary = some src) :
    ∃ pkg ∈ P, sourceOfRecord pkg = some src := by
  have hwithout := (@without_applyProbedProducers probe _
    (inverse_buildUniverse t P S)).sourceOf binary
  have hfiled := hwithout.symm.trans h
  rw [Option.filter_eq_some_iff] at hfiled
  have hget : (sourcesOf (t.plainIndex P)).get? binary = some src := hfiled.1
  rw [get?_sourcesOf nodup_plainIndex] at hget
  obtain ⟨pkg, hpkg, hsrc⟩ := Option.bind_eq_some_iff.mp hget
  exact ⟨pkg, (plainIndex_mem hpkg).1, hsrc⟩

/-- **Every built dependency is something its recipe emits.** The two maps of a universe are
    one relation; the reports, in any order and however often, take out of it exactly what
    they rule out; and in a lock emitted over it, with variants named like no source of a
    binary package, the recipe of every built dependency is a package that lists it. -/
theorem built_dependency_emitted (t : Target) (P S : List PackageRecord)
    (probe : Dict String Report) :
    let u := buildUniverse t P S
    let probed := applyProbedProducers u probe
    u.producers.Inverse ∧
    probed.producers.Inverse ∧
    (∀ binary src, probed.sourceOf.get? binary = some src ↔
      u.sourceOf.get? binary = some src ∧ RuledOut probe src binary = false) ∧
    (∀ order : List String, (∀ src, src ∈ order ↔ src ∈ probe.keys) →
      SameProducers (order.foldl (Producers.applyReport probe) u.producers) probed.producers) ∧
    SameProducers (applyProbedProducers probed probe).producers probed.producers ∧
    ∀ e : Emission, e.repodata = probed →
      (∀ name ∈ e.variants.keys, ∀ pkg ∈ P, sourceOfRecord pkg ≠ some name) →
      ∀ plan imageSets seedPackages imageUniverse,
        let lock := e.lock plan imageSets seedPackages imageUniverse
        ∀ src pkg, lock.packages.get? src = some pkg → ∀ pin ∈ pkg.depsBuilt,
          ∃ recipe recipePkg, e.producer pin = some recipe ∧
            lock.packages.get? recipe = some recipePkg ∧
            pin.name ∈ recipePkg.subpackages := by
  have hinv := inverse_buildUniverse t P S
  have hwithout := @without_applyProbedProducers probe _ hinv
  refine ⟨hinv, inverse_probed, fun binary src => ?_, fun order horder => ?_, ?_, ?_⟩
  · have hget : (applyProbedProducers (buildUniverse t P S) probe).sourceOf.get? binary =
        ((buildUniverse t P S).sourceOf.get? binary).filter
          (fun src => !RuledOut probe src binary) := hwithout.sourceOf binary
    rw [hget, Option.filter_eq_some_iff, Bool.not_eq_true']
  · have hany := without_reports hinv fun src hsrc => (horder src).mpr hsrc
    exact ⟨fun src => (hany.subpackages src).trans (hwithout.subpackages src).symm,
      fun binary => (hany.sourceOf binary).trans (hwithout.sourceOf binary).symm⟩
  · exact hwithout.idem (without_applyProbedProducers inverse_probed)
  · intro e he hnames plan imageSets seedPackages imageUniverse
    dsimp only
    intro src pkg hpkg pin hpin
    obtain ⟨_, rfl⟩ := package_of_get? hpkg
    have hinv' : e.repodata.producers.Inverse := by
      rw [he]
      exact inverse_probed
    have hapart : ∀ binary s, e.repodata.sourceOf.get? binary = some s →
        e.variants.get? s = none := by
      intro binary s hs
      rw [he] at hs
      obtain ⟨p, hp, hsrc⟩ := named_of_sourceOf hs
      cases hv : e.variants.get? s with
      | none => rfl
      | some spec =>
        exact absurd hsrc (hnames s (Dict.mem_keys_iff.mpr (by rw [hv]; rfl)) p hp)
    obtain ⟨recipe, hbuilt, hproducer, hlists⟩ := recipe_lists hinv' hapart hpin
    exact ⟨recipe, e.package recipe, hproducer, get?_packages hbuilt, hlists⟩

end Probed

/-- What acl and tar build, where acl turns out not to build its documentation. -/
def aclBinaries : List PackageRecord :=
  [{ name := "libacl", arch := "x86_64", version := "2.4.0", release := "1"
     sourcerpm := "acl-2.4.0-1.src.rpm" },
    { name := "acl-doc", arch := "noarch", version := "2.4.0", release := "1"
      sourcerpm := "acl-2.4.0-1.src.rpm" },
    { name := "tar", arch := "x86_64", version := "1.35", release := "1"
      sourcerpm := "tar-1.35-1.src.rpm" }]

def aclSources : List PackageRecord :=
  [{ name := "acl", arch := "src", version := "2.4.0", release := "1" },
    { name := "tar", arch := "src", version := "1.35", release := "1" }]

def aclProbe : Dict String Report := Dict.single "acl" { produces := ["libacl"] }

/-- A solve of both, with a compatibility build of acl for tar. -/
def aclTar : Emission :=
  { repodata := applyProbedProducers (buildUniverse ⟨"x86_64", []⟩ aclBinaries aclSources) aclProbe
    variants := Dict.single "acl-compat" ⟨"acl", "2.3.2-1", ["tar"]⟩
    sourceSuperseded := Dict.single ("acl", "src") (Dict.single "2.3.2-1"
      { name := "acl", arch := "src", version := "2.3.2", release := "1" })
    binarySuperseded := Dict.single ("libacl", "x86_64") (Dict.single "2.3.2-1"
      { name := "libacl", arch := "x86_64", version := "2.3.2", release := "1" })
    buildSet := ["acl", "tar"]
    solution :=
      { buildDeps := ⟨[("acl", {"tar"}), ("tar", {"libacl", "acl-doc"})]⟩
        resolutions := Dict.empty, problems := [], dynamic := Dict.empty, baseClosure := ∅ } }

/-- tar is built against the libacl of the variant, which lists it; the documentation is in the
    seed. -/
theorem built_dependency_emitted_tar : ∃ pkg,
    (aclTar.lock (aclTar.plan 3) Dict.empty [] aclTar.repodata).packages.get? "tar" = some pkg ∧
      pkg.depsBuilt.map Pin.name = ["libacl"] ∧ pkg.depsSeed.map Pin.name = ["acl-doc"] ∧
      ∀ pin ∈ pkg.depsBuilt, ∃ recipe recipePkg, aclTar.producer pin = some recipe ∧
        (aclTar.lock (aclTar.plan 3) Dict.empty [] aclTar.repodata).packages.get? recipe =
          some recipePkg ∧ pin.name ∈ recipePkg.subpackages := by
  have hemitted := (built_dependency_emitted ⟨"x86_64", []⟩ aclBinaries aclSources
    aclProbe).2.2.2.2.2 aclTar rfl (by decide +kernel) (aclTar.plan 3) Dict.empty [] aclTar.repodata
  have hbuilt : "tar" ∈ aclTar.added.buildSet := by
    decide +kernel
  exact ⟨_, get?_packages hbuilt, by decide +kernel, by decide +kernel,
    hemitted "tar" _ (get?_packages hbuilt)⟩

end BuckosDistro.Solve
