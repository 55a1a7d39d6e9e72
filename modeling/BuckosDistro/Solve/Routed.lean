/-
  Who a dependency is taken from (`tools/solve.py` and `tools/depgraph.py`).

  Three loops classify every use of a binary: the planner, the bootstrap summary and the
  emitter. The first two ask for the route and then for the normal producer. The emitter
  asks for the normal producer alone and looks at the route only when it writes a pin; so a
  routed binary whose normal producer is not built stays in the seed, at its current build,
  while the planner draws the edge to the variant.
-/
import BuckosDistro.Solve.Lockfile

namespace BuckosDistro.Solve

open BuckosDistro.Lib BuckosDistro.Depgraph

/-! ## A solve with variants -/

/-- What the planner and the emitter are given. -/
structure Emission where
  repodata : Universe
  variants : Dict String SourceVariant
  sourceSuperseded : Superseded
  binarySuperseded : Superseded
  buildSet : List String
  solution : Solution

namespace Emission

/-- The variants added to the build set. -/
def added (e : Emission) : Variants :=
  addSourceVariants e.variants e.repodata e.sourceSuperseded e.binarySuperseded e.buildSet

/-- The universe with the sources of the variants in it. -/
def emitted (e : Emission) : Universe := { e.repodata with sourceIndex := e.added.sourceIndex }

def args (e : Emission) : EmitArgs := ⟨e.variants, e.added.routes, e.binarySuperseded⟩

/-- The recipe of a source in the lockfile. -/
def package (e : Emission) (src : String) : LockPackage :=
  lockPackage e.emitted e.added.buildSet e.solution e.args e.added.subpackages src

/-- The graph the cycles are planned on. -/
def graph (e : Emission) : SourceGraph :=
  projectToSourceGraph e.solution.buildDeps e.repodata.sourceOf e.added.buildSet e.added.routes

/-- The recipe a use resolves to. -/
def dep (e : Emission) (src binary : String) : Option String :=
  depSource e.added.routes e.repodata.sourceOf src binary

/-- The producer of an entry: its variant if it has one, else the source it is filed under. -/
def producer (e : Emission) (pin : Pin) : Option String :=
  match pin.variant with
  | none | some "" => e.repodata.sourceOf.get? pin.name
  | variant => variant

end Emission

/-! ## The three classifications -/

section Classify

variable (e : Emission) (src binary : String)

/-- The planner draws an edge to the recipe the use resolves to. -/
def Emission.drawsEdge : Bool := (e.dep src binary).any (· ∈ e.graph.getD src ∅)

/-- The emitter lists the binary as built, by the recipe the use resolves to. -/
def Emission.listsBuilt : Bool :=
  (e.package src).depsBuilt.any fun pin =>
    pin.name = binary ∧ (e.dep src binary).isSome ∧ e.producer pin = e.dep src binary

/-- The bootstrap summary counts this use, taken alone, as built. -/
def Emission.countsBuilt : Bool :=
  (bootstrapDepth (Dict.single src {binary}) e.repodata.sourceOf e.added.buildSet
    e.added.routes).builtFromSource = 1

/-- A pin is the build of the variant, and says so. -/
def Emission.IsBuildOf (variant : String) (pin : Pin) : Prop :=
  ∃ spec older build, pin.variant = some variant ∧ e.variants.get? variant = some spec ∧
    olderBinary e.repodata e.binarySuperseded pin.name spec.evr = some older ∧
    pin.build = some build ∧ build.evr = evrString older ∧ build.arch = older.arch ∧
    build.location = older.location ∧ build.sha256 = sha256Of older ∧ build.repo = older.repo

/-- A binary that a source of the build set uses and does not produce itself. -/
structure Emission.Uses : Prop where
  built : src ∈ e.added.buildSet
  used : binary ∈ e.solution.buildDeps.getD src ∅
  other : e.dep src binary ≠ some src

/-- The three agree on one use, what is not built is in the seed, and a routed use is
    pinned at the variant's build. -/
structure Emission.Alike : Prop where
  planned : e.drawsEdge src binary = e.listsBuilt src binary
  counted : e.countsBuilt src binary = e.listsBuilt src binary
  seeded : e.listsBuilt src binary = false →
    binary ∈ (e.package src).depsSeed.map Pin.name
  pinned : ∀ variant, e.added.routes.route src binary = some variant →
    ∀ pin ∈ (e.package src).depsBuilt ++ (e.package src).depsSeed, pin.name = binary →
      e.IsBuildOf variant pin

end Classify

/-! ## Agreement -/

section Agree

variable {e : Emission} {src binary : String}

theorem drawsEdge_eq (h : e.Uses src binary) :
    e.drawsEdge src binary = (e.dep src binary).any (· ∈ e.added.buildSet) := by
  have hgraph : e.graph.getD src ∅ = (e.solution.buildDeps.getD src ∅).biUnion
      (edgeOf e.added.routes e.repodata.sourceOf e.added.buildSet src) :=
    Dict.getD_eq_of_get? ∅ (Dict.get?_ofKeys _ h.built)
  unfold Emission.drawsEdge
  rw [hgraph]
  cases hd : e.dep src binary with
  | none => rfl
  | some dep =>
    rw [Option.any_some, Option.any_some, decide_eq_decide, Finset.mem_biUnion]
    constructor
    · rintro ⟨b, _, hb⟩
      unfold edgeOf at hb
      cases hds : depSource e.added.routes e.repodata.sourceOf src b with
      | none => simp [hds] at hb
      | some d =>
        simp only [hds] at hb
        split_ifs at hb with hc
        · rw [Finset.mem_singleton.mp hb]
          exact hc.1
        · simp at hb
    · intro hmem
      refine ⟨binary, h.used, ?_⟩
      have hds : depSource e.added.routes e.repodata.sourceOf src binary = some dep := hd
      have hne : dep ≠ src := fun he => h.other (by rw [hd, he])
      unfold edgeOf
      simp [hds, hmem, hne]

theorem countsBuilt_eq (h : e.Uses src binary) :
    e.countsBuilt src binary = (e.dep src binary).any (· ∈ e.added.buildSet) := by
  have hused : usedAs (Dict.single src {binary}) e.repodata.sourceOf e.added.buildSet
      e.added.routes true =
      if (e.dep src binary).any (· ∈ e.added.buildSet) then [binary] else [] := by
    unfold usedAs Dict.single
    rw [List.flatMap_singleton, if_pos h.built, PyText.sorted_singleton, List.filter_singleton]
    unfold Emission.dep
    cases (depSource e.added.routes e.repodata.sourceOf src binary).any
      (· ∈ e.added.buildSet) <;> rfl
  have hdepth : (bootstrapDepth (Dict.single src {binary}) e.repodata.sourceOf e.added.buildSet
      e.added.routes).builtFromSource =
      if (e.dep src binary).any (· ∈ e.added.buildSet) then 1 else 0 := by
    unfold bootstrapDepth
    dsimp only
    rw [hused]
    split_ifs <;> rfl
  rw [Bool.eq_iff_iff]
  unfold Emission.countsBuilt
  rw [decide_eq_true_iff, hdepth]
  split_ifs with hc <;> simp [hc]

/-- The entries of the emitter for a binary. -/
theorem mem_depsBuilt {pin : Pin} :
    pin ∈ (e.package src).depsBuilt ↔ ∃ dep ∈ e.solution.buildDeps.getD src ∅,
      takenFromRecipe e.repodata e.added.buildSet dep = true ∧
        pin = routedBinary e.emitted e.args src dep := by
  unfold Emission.package lockPackage
  simp only [List.mem_map, List.mem_filter, PyText.mem_sorted]
  constructor
  · rintro ⟨dep, ⟨hmem, ht⟩, rfl⟩
    exact ⟨dep, hmem, ht, rfl⟩
  · rintro ⟨dep, hmem, ht, rfl⟩
    exact ⟨dep, ⟨hmem, ht⟩, rfl⟩

theorem mem_depsSeed {pin : Pin} :
    pin ∈ (e.package src).depsSeed ↔ ∃ dep ∈ e.solution.buildDeps.getD src ∅,
      takenFromRecipe e.repodata e.added.buildSet dep = false ∧
        pin = pinBinary e.emitted dep := by
  unfold Emission.package lockPackage
  simp only [List.mem_map, List.mem_filter, PyText.mem_sorted, Bool.not_eq_true']
  constructor
  · rintro ⟨dep, ⟨hmem, ht⟩, rfl⟩
    exact ⟨dep, hmem, ht, rfl⟩
  · rintro ⟨dep, hmem, ht, rfl⟩
    exact ⟨dep, ⟨hmem, ht⟩, rfl⟩

@[simp] theorem routedBinary_name (u : Universe) (a : EmitArgs) (src name : String) :
    (routedBinary u a src name).name = name := by
  unfold routedBinary
  cases a.routes.route src name <;> rfl

@[simp] theorem routedBinary_variant (u : Universe) (a : EmitArgs) (src name : String) :
    (routedBinary u a src name).variant = a.routes.route src name := by
  unfold routedBinary
  cases a.routes.route src name <;> rfl

/-- The producer of a routed entry is what the use resolves to. -/
theorem producer_routedBinary :
    e.producer (routedBinary e.emitted e.args src binary) = e.dep src binary := by
  unfold Emission.producer Emission.dep depSource
  rw [routedBinary_variant, routedBinary_name]
  rfl

theorem listsBuilt_eq (h : e.Uses src binary) :
    e.listsBuilt src binary = ((e.dep src binary).isSome &&
      takenFromRecipe e.repodata e.added.buildSet binary) := by
  rw [Bool.eq_iff_iff, Bool.and_eq_true]
  unfold Emission.listsBuilt
  simp only [List.any_eq_true, decide_eq_true_eq, mem_depsBuilt]
  constructor
  · rintro ⟨pin, ⟨dep, _, ht, rfl⟩, hname, hsome, _⟩
    rw [routedBinary_name] at hname
    exact ⟨hsome, hname ▸ ht⟩
  · rintro ⟨hsome, ht⟩
    exact ⟨_, ⟨binary, h.used, ht, rfl⟩, routedBinary_name _ _ _ _, hsome,
      producer_routedBinary⟩

/-- A routed entry is the variant's build. -/
theorem isBuildOf_routedBinary {variant : String}
    (hr : e.added.routes.route src binary = some variant) :
    e.IsBuildOf variant (routedBinary e.emitted e.args src binary) := by
  obtain ⟨spec, hacc, _, _, holder⟩ :=
    (added_addSourceVariants e.buildSet).routed src binary variant hr
  obtain ⟨older, ho⟩ := Option.isSome_iff_exists.mp holder
  have hindex : ∃ pkg, e.repodata.binaryIndex.get? binary = some pkg := by
    unfold olderBinary at ho
    obtain ⟨pkg, hpkg, _⟩ := Option.bind_eq_some_iff.mp ho
    exact ⟨pkg, hpkg⟩
  obtain ⟨pkg, hpkg⟩ := hindex
  have hr' : e.args.routes.route src binary = some variant := hr
  have hspec : e.args.sourceVariant.get? variant = some spec := hacc.stated
  have ho' : olderBinary e.emitted e.args.binarySuperseded binary spec.evr = some older := ho
  have hpkg' : e.emitted.binaryIndex.get? binary = some pkg := hpkg
  refine ⟨spec, older, ⟨evrString older, older.arch, older.location, sha256Of older,
    recordedSource e.emitted binary, older.repo⟩, ?_, hacc.stated, ?_, ?_, rfl, rfl, rfl, rfl,
    rfl⟩
  · rw [routedBinary_variant]
    exact hr
  · rw [routedBinary_name]
    exact ho
  · unfold routedBinary
    rw [hr']
    dsimp only
    rw [hspec, Option.bind_some, ho']
    unfold pinBinary
    rw [hpkg']
    rfl

end Agree

/-! ## The classification of one use -/

section Use

variable {e : Emission} {src binary : String}

/-- A use that is not routed resolves to the normal producer. -/
theorem any_dep_of_unrouted (hr : e.added.routes.route src binary = none) :
    (e.dep src binary).any (· ∈ e.added.buildSet) =
      takenFromRecipe e.repodata e.added.buildSet binary := by
  unfold Emission.dep takenFromRecipe
  rw [depSource_of_unrouted hr]

/-- A routed use whose normal producer is built resolves to a recipe that is built. -/
theorem any_dep_of_routed {variant : String} (hr : e.added.routes.route src binary = some variant)
    (ht : takenFromRecipe e.repodata e.added.buildSet binary = true) :
    (e.dep src binary).any (· ∈ e.added.buildSet) = true := by
  obtain ⟨spec, hacc, _⟩ := (added_addSourceVariants e.buildSet).routed src binary variant hr
  unfold Emission.dep
  by_cases hempty : variant = ""
  · subst hempty
    rw [depSource_of_empty hr]
    exact ht
  · rw [depSource_of_routed hr hempty, Option.any_some]
    exact decide_eq_true hacc.built

end Use

/-- **The planner, the summary and the emitter classify a use alike** exactly when the use is
    not routed or the normal producer of the binary is built too. -/
theorem classified_alike_iff (e : Emission) (src binary : String) :
    (e.Uses src binary → e.Alike src binary) ↔
      (e.Uses src binary → ∀ variant, e.added.routes.route src binary = some variant →
        ∃ producer ∈ e.added.buildSet, e.repodata.sourceOf.get? binary = some producer) := by
  have htaken : takenFromRecipe e.repodata e.added.buildSet binary = true ↔
      ∃ producer ∈ e.added.buildSet, e.repodata.sourceOf.get? binary = some producer := by
    unfold takenFromRecipe
    rw [Option.any_eq_true]
    simp only [decide_eq_true_eq]
    constructor
    · rintro ⟨p, hp, hmem⟩
      exact ⟨p, hmem, hp⟩
    · rintro ⟨p, hmem, hp⟩
      exact ⟨p, hp, hmem⟩
  refine forall_congr' fun h => ⟨fun ha variant hr => ?_, fun hc => ?_⟩
  · rw [← htaken]
    by_contra ht
    rw [Bool.not_eq_true] at ht
    -- The binary is in the seed, and its pin there names no variant.
    have hseed : pinBinary e.emitted binary ∈ (e.package src).depsSeed :=
      mem_depsSeed.mpr ⟨binary, h.used, ht, rfl⟩
    obtain ⟨_, _, _, hvariant, _⟩ :=
      ha.pinned variant hr _ (List.mem_append_right _ hseed) rfl
    cases hvariant
  · cases hr : e.added.routes.route src binary with
    | none =>
      have hdep := any_dep_of_unrouted hr
      have hlists : e.listsBuilt src binary =
          takenFromRecipe e.repodata e.added.buildSet binary := by
        rw [listsBuilt_eq h, ← hdep]
        cases e.dep src binary <;> simp
      refine ⟨?_, ?_, fun hl => ?_, fun variant hv => ?_⟩
      · rw [drawsEdge_eq h, hlists, hdep]
      · rw [countsBuilt_eq h, hlists, hdep]
      · rw [hlists] at hl
        exact List.mem_map.mpr ⟨_, mem_depsSeed.mpr ⟨binary, h.used, hl, rfl⟩, rfl⟩
      · rw [hr] at hv
        cases hv
    | some variant =>
      have ht := htaken.mpr (hc variant hr)
      have hdep := any_dep_of_routed hr ht
      have hlists : e.listsBuilt src binary = true := by
        rw [listsBuilt_eq h, ht, Bool.and_true]
        cases hd : e.dep src binary with
        | none =>
          rw [hd] at hdep
          cases hdep
        | some dep => rfl
      refine ⟨?_, ?_, fun hl => ?_, fun v hv pin hpin hname => ?_⟩
      · rw [drawsEdge_eq h, hlists, hdep]
      · rw [countsBuilt_eq h, hlists, hdep]
      · rw [hlists] at hl
        cases hl
      · rw [hr, Option.some.injEq] at hv
        subst hv
        rcases List.mem_append.mp hpin with hpin | hpin
        · obtain ⟨dep, _, _, rfl⟩ := mem_depsBuilt.mp hpin
          rw [routedBinary_name] at hname
          subst hname
          exact isBuildOf_routedBinary hr
        · obtain ⟨dep, _, hnot, rfl⟩ := mem_depsSeed.mp hpin
          obtain rfl : dep = binary := hname
          rw [ht] at hnot
          cases hnot

/-- A compatibility build of acl for tar, in a solve that does not build acl itself. -/
def aclCompat : Emission :=
  { repodata :=
      { provides := Dict.empty, provideEvr := Dict.empty, requires := Dict.empty
        sourceOf := Dict.single "libacl" "acl"
        subpackages := Dict.single "acl" ["libacl"]
        binaryIndex := Dict.single "libacl"
          { name := "libacl", arch := "x86_64", version := "2.4.0", release := "1" }
        sourceIndex := Dict.single "acl"
          { name := "acl", arch := "src", version := "2.4.0", release := "1" }
        foreignSourceOf := Dict.empty }
    variants := Dict.single "acl-compat" ⟨"acl", "2.3.2-1", ["tar"]⟩
    sourceSuperseded := Dict.single ("acl", "src") (Dict.single "2.3.2-1"
      { name := "acl", arch := "src", version := "2.3.2", release := "1" })
    binarySuperseded := Dict.single ("libacl", "x86_64") (Dict.single "2.3.2-1"
      { name := "libacl", arch := "x86_64", version := "2.3.2", release := "1" })
    buildSet := ["tar"]
    solution :=
      { buildDeps := Dict.single "tar" {"libacl"}, resolutions := Dict.empty, problems := []
        dynamic := Dict.empty, baseClosure := ∅ } }

/-- The same solve, with acl. -/
def aclBuilt : Emission := { aclCompat with buildSet := ["acl", "tar"] }

/-- The use of libacl is the variant's everywhere. -/
theorem classified_alike_tar :
    aclBuilt.added.routes.route "tar" "libacl" = some "acl-compat" ∧
      aclBuilt.Alike "tar" "libacl" := by
  have hused : aclBuilt.Uses "tar" "libacl" := ⟨by decide, by decide, by decide⟩
  exact ⟨by decide, (classified_alike_iff aclBuilt "tar" "libacl").mpr
    (fun _ _ _ => ⟨"acl", by decide, by decide⟩) hused⟩

/-- The planner draws an edge to the variant, and the emitter leaves the use in the seed. -/
theorem classified_differently :
    ¬ ∀ (e : Emission) (src binary : String), e.Uses src binary → e.Alike src binary := by
  intro h
  have hu : aclCompat.Uses "tar" "libacl" := ⟨by decide, by decide, by decide⟩
  have hplanned := (h aclCompat "tar" "libacl" hu).planned
  rw [drawsEdge_eq hu, listsBuilt_eq hu] at hplanned
  revert hplanned
  decide

end BuckosDistro.Solve
