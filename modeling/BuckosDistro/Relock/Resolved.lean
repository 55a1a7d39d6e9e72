/-
  The pins of a lock and the builds they name (`tools/solve.py`, `main`).

  Whatever a solve adds to a set is provided by something, or is the answer of an override.
  What provides something has a build; an override is checked to name a provider, but not one
  of a rich dependency, and one of the command line is checked against the repositories of the
  buildroot only. So these are the pins that can come out unresolved (`unresolved_pin`).
-/
import BuckosDistro.Relock.SolveMain

namespace BuckosDistro.Relock

open BuckosDistro.Lib BuckosDistro.Depgraph BuckosDistro.Solve

/-! ## Where the packages of a set come from -/

section Closure

variable {L : Lookup} {requires : Dict String (List String)} {roots : List String}
  {extra : List (String × String)} {U : Finset String} {s : State}

/-- What a closure has seen and has still to see belongs to `U`. -/
structure Inside (U : Finset String) (s : State) : Prop where
  frontier : FrontierIn U s
  seen : s.seen ⊆ U

theorem inside_step (hU : ∀ p ∈ L.offered, p ∈ U) (hs : Inside U s) :
    Inside U (step L requires s) := by
  refine ⟨frontierIn_step hU hs.frontier, ?_⟩
  cases hd : s.done with
  | true =>
    rw [step_done hd]
    exact hs.seen
  | false =>
    rcases step_cases L requires hd with ⟨pkg, rest, hf, _, he⟩ | ⟨pkg, hv⟩ | hs'
    · rw [he]
      exact hs.seen
    · obtain ⟨rest, hf, _⟩ := hv.popped
      have hpkg : pkg ∈ U := hs.frontier pkg (by rw [hf]; exact List.mem_cons_self ..)
      rw [hv.seen]
      exact Finset.insert_subset hpkg hs.seen
    · rw [hs'.seen]
      exact hs.seen

theorem inside_run (hU : ∀ p ∈ L.offered, p ∈ U) (n : ℕ) (hs : Inside U s) :
    Inside U (run L requires n s) := by
  induction n with
  | zero => exact hs
  | succ n ih =>
    unfold run
    rw [Function.iterate_succ_apply']
    exact inside_step hU ih

theorem inside_start : Inside (roots ++ L.offered).toFinset (start L roots extra) := by
  have hstart := absorbs_start L roots extra
  constructor
  · intro p hp
    rw [List.mem_toFinset, List.mem_append]
    rcases (hstart.frontier p).mp hp with hp | ⟨_, o, ho, hp⟩
    · exact .inl (List.mem_reverse.mp hp)
    · obtain ⟨entry, _, rfl⟩ := List.mem_map.mp ho
      exact .inr (mem_offered_demandExtra hp)
  · rw [hstart.seen]
    exact Finset.empty_subset _

/-- **Every package of a closure** is a root of it, or is offered by something. -/
theorem offered_of_mem {p : String} (h : p ∈ (runtimeClosure L requires roots extra).1) :
    p ∈ roots ∨ p ∈ L.offered := by
  have hoffered : ∀ p ∈ L.offered, p ∈ (roots ++ L.offered).toFinset := fun p hp =>
    List.mem_toFinset.mpr (List.mem_append_right roots hp)
  have hinside : Inside (roots ++ L.offered).toFinset
      (run L requires (Depgraph.trips L requires roots extra) (start L roots extra)) :=
    inside_run hoffered _ inside_start
  have hmem := List.mem_toFinset.mp (hinside.seen h)
  exact List.mem_append.mp hmem

end Closure

/-! ## What has a build -/

section Builds

variable {t : Target} {P S : List PackageRecord} {cap name : String}

theorem mem_plainProvides {index : Dict String PackageRecord}
    (h : name ∈ (plainProvides index).getD cap []) : (index.get? name).isSome := by
  unfold plainProvides Dict.getD at h
  rw [Dict.get?_group] at h
  split_ifs at h with hnil
  · exact absurd h List.not_mem_nil
  · obtain ⟨item, hitem, hpair⟩ := List.mem_flatMap.mp (Dict.mem_valuesAt.mp h)
    obtain ⟨_, _, heq⟩ := List.mem_map.mp hpair
    obtain ⟨_, rfl⟩ := Prod.mk.inj heq
    exact Dict.mem_keys_iff.mp (List.mem_map_of_mem hitem)

/-- The names a slot of the foreign builds holds. -/
theorem mem_foreignSlots {foreign : Dict String PackageRecord} {names : List String}
    (h : (cap, names) ∈ foreignSlots (foreignProvides foreign)) (hname : name ∈ names) :
    (foreign.get? name).isSome := by
  unfold foreignSlots at h
  obtain ⟨arch, _, h⟩ := List.mem_flatMap.mp h
  obtain ⟨c, _, heq⟩ := List.mem_map.mp h
  obtain ⟨rfl, rfl⟩ := Prod.mk.inj heq
  unfold Dict.getD at hname
  cases hcaps : (foreignProvides foreign).get? arch with
  | none =>
    rw [hcaps] at hname
    exact absurd hname List.not_mem_nil
  | some caps =>
    rw [hcaps, Option.getD_some] at hname
    unfold foreignProvides at hcaps
    rw [Dict.get?_group₂] at hcaps
    split_ifs at hcaps with hnil
    obtain rfl := Option.some.inj hcaps
    rw [get?_sortedSets (Dict.nodup_group _), Dict.get?_group] at hname
    split_ifs at hname with hempty
    · exact absurd hname List.not_mem_nil
    · have hvalue := Dict.mem_valuesAt.mp (PyText.mem_sortedSet.mp hname)
      obtain ⟨item, hitem, hentry⟩ := List.mem_flatMap.mp (Dict.mem_valuesAt.mp hvalue)
      obtain ⟨_, _, heq⟩ := List.mem_map.mp hentry
      obtain ⟨_, heq⟩ := Prod.mk.inj heq
      obtain ⟨_, rfl⟩ := Prod.mk.inj heq
      exact Dict.mem_keys_iff.mp (List.mem_map_of_mem hitem)

/-- Whatever provides something has a build. -/
theorem provider_built (h : name ∈ (buildUniverse t P S).provides.getD cap []) :
    ((buildUniverse t P S).binaryIndex.get? name).isSome := by
  rw [get?_binaryIndex]
  unfold Dict.getD at h
  rw [get?_provides] at h
  cases hplain : (plainProvides (t.plainIndex P)).get? cap with
  | some names =>
    rw [hplain] at h
    have hmem : name ∈ (plainProvides (t.plainIndex P)).getD cap [] := by
      rw [Dict.getD_eq_of_get? [] hplain]
      exact PyText.mem_sortedSet.mp h
    obtain ⟨pkg, hpkg⟩ := Option.isSome_iff_exists.mp (mem_plainProvides hmem)
    rw [hpkg]
    rfl
  | none =>
    rw [hplain, Option.none_or] at h
    cases hslot : (⟨foreignSlots (foreignProvides (t.foreignIndex P))⟩ :
        Dict String (List String)).get? cap with
    | none =>
      rw [hslot] at h
      exact absurd h List.not_mem_nil
    | some names =>
      rw [hslot] at h
      have hfound := mem_foreignSlots (Dict.mem_items_of_get? hslot) (PyText.mem_sortedSet.mp h)
      rw [Option.isSome_or, hfound, Bool.or_true]

theorem nodup_provides : (buildUniverse t P S).provides.keys.Nodup := by
  have hkeys : ∀ lists : Dict String (List String), (sortedSets lists).keys = lists.keys := by
    intro lists
    unfold sortedSets Dict.filterMap Dict.keys
    rw [List.map_filterMap]
    exact congrFun (@List.filterMap_eq_map (String × List String) String Prod.fst) lists.items
  unfold buildUniverse
  dsimp only
  rw [hkeys]
  exact Dict.nodup_keys_foldl _ (fun _ _ hd => Dict.nodup_keys_setDefault hd _ _) _
    (Dict.nodup_group _)

end Builds

/-- Whatever is provided is provided by a build. -/
structure Founded (u : Universe) : Prop where
  nodup : u.provides.keys.Nodup
  built : ∀ cap name, name ∈ u.provides.getD cap [] → (u.binaryIndex.get? name).isSome

theorem founded_buildUniverse (t : Target) (P S : List PackageRecord) :
    Founded (buildUniverse t P S) := ⟨nodup_provides, fun _ _ => provider_built⟩

theorem Founded.probed {u : Universe} (h : Founded u) (reports : Reports) :
    Founded (applyProbedProducers u reports) := ⟨h.nodup, h.built⟩

/-- A package has a build, or an override names it. -/
def Answered (u : Universe) (overrides : Dict String String) (name : String) : Prop :=
  (u.binaryIndex.get? name).isSome ∨ ∃ cap, (cap, name) ∈ overrides.items

section Answered

variable {u : Universe} {overrides : Dict String String} {name : String}

theorem answered_of_offered (h : Founded u) (hoffered : name ∈ (u.lookup overrides).offered) :
    Answered u overrides name := by
  rcases List.mem_append.mp hoffered with hmem | hmem
  · obtain ⟨item, hitem, rfl⟩ := List.mem_map.mp hmem
    exact .inr ⟨item.1, hitem⟩
  · obtain ⟨item, hitem, hname⟩ := List.mem_flatMap.mp hmem
    refine .inl (h.built item.1 name ?_)
    rw [Dict.getD_eq_of_get? [] ((Dict.mem_items_iff h.nodup).mp hitem)]
    exact hname

theorem answered_of_closure (h : Founded u) {requires : Dict String (List String)}
    {roots : List String} {extra : List (String × String)}
    (hroots : ∀ root ∈ roots, Answered u overrides root)
    (hmem : name ∈ (runtimeClosure (u.lookup overrides) requires roots extra).1) :
    Answered u overrides name := by
  rcases offered_of_mem hmem with hroot | hoffered
  · exact hroots name hroot
  · exact answered_of_offered h hoffered

theorem answered_of_packageSet (h : Founded u) {roots : List String} {scope : String}
    (hmem : name ∈ (solvePackageSet u roots overrides scope).1) :
    Answered u overrides name := by
  rw [solvePackageSet_fst, PyText.mem_sorted] at hmem
  refine answered_of_closure h (fun root hroot => ?_) hmem
  have hkey := (List.mem_filter.mp hroot).2
  exact .inl (Dict.mem_keys_iff.mp (of_decide_eq_true hkey))

/-- What a source asks for directly is offered. -/
theorem offered_of_collectRequires {L : Lookup} {src : String} (requires : List String) :
    ∀ p ∈ (collectRequires L src requires).direct, p ∈ L.offered := by
  induction requires using List.reverseRecOn with
  | nil => exact fun p hp => absurd hp List.not_mem_nil
  | append_singleton requires cap ih =>
    intro p hp
    have hstep : collectRequires L src (requires ++ [cap]) =
        (collectRequires L src requires).collect L src cap := by
      unfold collectRequires
      rw [List.foldl_append]
      rfl
    rw [hstep] at hp
    unfold Collected.collect at hp
    dsimp only at hp
    split_ifs at hp
    · exact ih p hp
    · cases hresolved : resolveCapability L cap src with
      | ok provider =>
        rw [hresolved] at hp
        rcases List.mem_append.mp hp with hp | hp
        · exact ih p hp
        · rw [List.mem_singleton.mp hp]
          exact resolveCapability_offered hresolved
      | error exc =>
        rw [hresolved] at hp
        cases exc <;> exact ih p hp

theorem answered_of_deps (h : Founded u) {probe : Dict String Report} {implicit : List String}
    {src : String} (hmem : name ∈ (solveSource u overrides probe implicit src).deps) :
    Answered u overrides name := by
  unfold solveSource at hmem
  dsimp only at hmem
  cases hrecord : u.sourceIndex.get? src with
  | none =>
    rw [hrecord] at hmem
    exact absurd hmem (Finset.notMem_empty name)
  | some record =>
    rw [hrecord] at hmem
    exact answered_of_closure h (fun root hroot =>
      answered_of_offered h (offered_of_collectRequires _ root hroot)) hmem

/-- The base is closed from what the implicit group resolves to. -/
theorem offered_of_baseDirect {L : Lookup} (implicit : List String) :
    ∀ p ∈ (baseDirect L implicit).1, p ∈ L.offered := by
  induction implicit using List.reverseRecOn with
  | nil => exact fun p hp => absurd hp List.not_mem_nil
  | append_singleton implicit cap ih =>
    intro p hp
    unfold baseDirect at hp ih
    rw [List.foldl_append, List.foldl_cons, List.foldl_nil] at hp
    dsimp only at hp
    cases hresolved : resolveCapability { L with provideEvr := Dict.empty } cap
        "@buildsys-build" with
    | ok provider =>
      rw [hresolved] at hp
      rcases List.mem_append.mp hp with hp | hp
      · exact ih p hp
      · have hoffered := resolveCapability_offered hresolved
        rw [List.mem_singleton.mp hp]
        exact hoffered
    | error exc =>
      rw [hresolved] at hp
      exact ih p hp

theorem answered_of_base (h : Founded u) {buildSet : List String} {probe : Dict String Report}
    {implicit : List String}
    (hmem : name ∈ (solve u buildSet overrides probe implicit).baseClosure) :
    Answered u overrides name :=
  answered_of_closure h (fun root hroot =>
    answered_of_offered h (offered_of_baseDirect implicit root hroot)) hmem

end Answered

/-! ## Overrides -/

/-- What `validate_overrides` does not look at: a rich dependency has no provider of its own. -/
def Unchecked (cap : String) : Prop :=
  isRichDep cap = true ∨ (parseOrDep cap).any (!·.isEmpty) = true

/-- An override that is checked names a build. -/
theorem built_of_validated {u : Universe} {overrides : Dict String String} {scope cap : String}
    {name : String} (h : Founded u) (hvalid : validateOverrides overrides u.provides scope = [])
    (hname : overrides.get? cap = some name) (hchecked : ¬ Unchecked cap) :
    (u.binaryIndex.get? name).isSome := by
  have hkey : cap ∈ PyText.sortedSet overrides.keys := by
    rw [PyText.mem_sortedSet, Dict.mem_keys_iff, hname]
    rfl
  have hnone := List.filterMap_eq_nil_iff.mp hvalid cap hkey
  unfold Unchecked at hchecked
  rw [not_or, Bool.not_eq_true, Bool.not_eq_true] at hchecked
  unfold overrideProblem at hnone
  dsimp only at hnone
  rw [hchecked.1, hchecked.2, Dict.getD_eq_of_get? "" hname] at hnone
  rw [if_neg (by decide)] at hnone
  cases hproviders : u.provides.getD cap [] with
  | nil =>
    rw [hproviders] at hnone
    exact absurd hnone (Option.some_ne_none _)
  | cons provider providers =>
    rw [hproviders] at hnone
    dsimp only at hnone
    split_ifs at hnone with hmem
    refine h.built cap name ?_
    rw [hproviders]
    exact hmem

theorem nodup_readOverrides {items : List String} {overrides : Dict String String}
    (h : readOverrides items = .ok overrides) : overrides.keys.Nodup := by
  refine Lists.foldlM_invariant (fun _ (overrides : Dict String String) => overrides.keys.Nodup)
    ?_ ?_ h
  swap
  · exact List.nodup_nil
  intro _ item before after hbefore hstep
  obtain ⟨entry, _, hstep⟩ := Lists.exists_of_bind hstep
  obtain rfl := Except.ok.inj hstep
  exact Dict.nodup_keys_set hbefore _ _

theorem nodup_scopedOverrides {overrides : Dict String String} (h : overrides.keys.Nodup)
    (imageOverrides : Dict String (Dict String String)) (image : String) :
    (scopedOverrides overrides imageOverrides image).keys.Nodup :=
  Dict.nodup_keys_foldl _ (fun _ _ hd => Dict.nodup_keys_set hd _ _) _ h

/-! ## The pins of a lock -/

/-- Every pin of a lock but those of its images. -/
def buildrootPins (lock : Lock) : List Pin :=
  lock.buildrootSeed ++ lock.variantSeed ++
    lock.packages.items.flatMap fun item => item.2.depsBuilt ++ item.2.depsSeed

section Pins

variable {u : Universe} {a : EmitArgs} {src name : String}

theorem pinBinary_resolved :
    (pinBinary u name).build.isSome = (u.binaryIndex.get? name).isSome := by
  unfold pinBinary
  rw [Option.isSome_map]

theorem routedBinary_resolved :
    (routedBinary u a src name).build.isSome = (u.binaryIndex.get? name).isSome := by
  unfold routedBinary
  cases a.routes.route src name with
  | none => exact pinBinary_resolved
  | some variant =>
    dsimp only
    cases (a.sourceVariant.get? variant).bind fun spec =>
        olderBinary u a.binarySuperseded name spec.evr with
    | none => exact pinBinary_resolved
    | some older =>
      dsimp only
      rw [Option.isSome_map]
      exact pinBinary_resolved

/-- A pin that its writer was told a name for is resolved where the name has a build. -/
def Names (u : Universe) (pin : Pin) : Prop :=
  pin.build.isSome = (u.binaryIndex.get? pin.name).isSome

theorem names_pinBinary (u : Universe) (name : String) : Names u (pinBinary u name) :=
  pinBinary_resolved

theorem names_routedBinary (u : Universe) (a : EmitArgs) (src name : String) :
    Names u (routedBinary u a src name) := by
  unfold Names
  rw [routedBinary_name]
  exact routedBinary_resolved

/-- The pins left are among those there were. -/
theorem mem_of_dedupePins {pins : List Pin} {pin : Pin} (h : pin ∈ dedupePins pins) :
    pin ∈ pins := by
  unfold dedupePins at h
  dsimp only at h
  obtain ⟨key, _, hget⟩ := List.mem_filterMap.mp h
  have hpairs : pins.foldl (fun d pin => d.setDefault (pinKey pin) pin) Dict.empty =
      (pins.map fun pin => (pinKey pin, pin)).foldl (fun d item => d.setDefault item.1 item.2)
        Dict.empty := by
    rw [List.foldl_map]
  rw [hpairs, Dict.get?_foldl_setDefault, Dict.get?_empty, Option.none_or] at hget
  obtain ⟨other, hother, heq⟩ := List.mem_map.mp (Dict.mem_items_of_get? hget)
  obtain ⟨_, rfl⟩ := Prod.mk.inj heq
  exact hother

end Pins

section Solved

variable {s : Solver} {reports : Reports} {strict : Bool} {lock : Lock} {built : List String}
  {pin : Pin}

theorem founded_emitted (s : Solver) (reports : Reports) (built : List String) :
    Founded (s.emission reports built).emitted :=
  have h := (founded_buildUniverse (withFallback s.args.targetCpu s.repodata.buildroot)
    (combinedPackages s.repodata.binary s.repodata.buildroot)
    (mergePackages s.repodata.source).packages).probed reports
  ⟨h.nodup, h.built⟩

theorem founded_compose (s : Solver) (reports : Reports) : Founded (s.compose reports) := by
  unfold Solver.compose
  split_ifs
  · exact (founded_buildUniverse _ _ _).probed reports
  · exact (founded_buildUniverse _ _ _).probed reports

theorem answered_of_buildDeps {u : Universe} {buildSet : List String}
    {overrides : Dict String String} {probe : Dict String Report} {implicit : List String}
    (h : Founded u) {item : String × Finset String}
    (hitem : item ∈ (solve u buildSet overrides probe implicit).buildDeps.items) {name : String}
    (hname : name ∈ item.2) : Answered u overrides name := by
  obtain ⟨src, _, rfl⟩ := List.mem_map.mp hitem
  exact answered_of_deps h hname

/-- What a package depends on. -/
theorem answered_of_package {src : String}
    (hpin : pin ∈ ((s.emission reports built).package src).depsBuilt ++
      ((s.emission reports built).package src).depsSeed) :
    Names (s.emission reports built).emitted pin ∧
      Answered (s.emission reports built).emitted s.inputs.overrides pin.name := by
  have hdeps : ∀ dep ∈ (s.emission reports built).solution.buildDeps.getD src ∅,
      Answered (s.emission reports built).emitted s.inputs.overrides dep := by
    intro dep hdep
    unfold Dict.getD at hdep
    cases hget : (s.emission reports built).solution.buildDeps.get? src with
    | none =>
      rw [hget] at hdep
      exact absurd hdep (Finset.notMem_empty dep)
    | some deps =>
      rw [hget] at hdep
      exact answered_of_buildDeps (founded_emitted s reports built)
        (Dict.mem_items_of_get? hget) hdep
  rcases List.mem_append.mp hpin with hpin | hpin
  · obtain ⟨dep, hdep, _, rfl⟩ := mem_depsBuilt.mp hpin
    rw [routedBinary_name]
    exact ⟨names_routedBinary _ _ _ _, hdeps dep hdep⟩
  · obtain ⟨dep, hdep, _, rfl⟩ := mem_depsSeed.mp hpin
    exact ⟨names_pinBinary _ _, hdeps dep hdep⟩

/-- A routed binary has a build, or there were none to route it to. -/
theorem answered_of_variantSeed
    (hpin : pin ∈ (s.lock reports built).variantSeed) :
    Names (s.emission reports built).emitted pin ∧
      Answered (s.emission reports built).emitted s.inputs.overrides pin.name := by
  have hmem := mem_of_dedupePins hpin
  obtain ⟨src, _, hmem⟩ := List.mem_flatMap.mp hmem
  obtain ⟨name, hname, rfl⟩ := List.mem_map.mp hmem
  rw [routedBinary_name]
  refine ⟨names_routedBinary _ _ _ _, .inl ?_⟩
  obtain ⟨variant, hroute⟩ := Option.isSome_iff_exists.mp
    (Dict.mem_keys_iff.mp (PyText.mem_sortedSet.mp hname))
  obtain ⟨spec, _, _, _, holder⟩ :=
    (added_addSourceVariants (s.emission reports built).buildSet).routed src name variant hroute
  unfold olderBinary at holder
  cases hindex : (s.emission reports built).repodata.binaryIndex.get? name with
  | none =>
    rw [hindex] at holder
    exact absurd holder Bool.false_ne_true
  | some pkg =>
    have hfound : (s.emission reports built).emitted.binaryIndex.get? name = some pkg := hindex
    rw [hfound]
    rfl

theorem answered_of_seed (hpin : pin ∈ (s.lock reports built).buildrootSeed) :
    Names (s.emission reports built).emitted pin ∧
      Answered (s.emission reports built).emitted s.inputs.overrides pin.name := by
  have hfounded := founded_emitted s reports built
  obtain ⟨name, hname, rfl⟩ := List.mem_map.mp hpin
  refine ⟨names_pinBinary _ _, ?_⟩
  rcases List.mem_append.mp (PyText.mem_sortedSet.mp hname) with hname | hname
  · rcases List.mem_append.mp hname with hname | hname
    · obtain ⟨item, hitem, hdep⟩ := List.mem_flatMap.mp hname
      exact answered_of_buildDeps hfounded hitem (PyText.mem_sorted.mp hdep)
    · exact answered_of_packageSet hfounded hname
  · have hbase : name ∈ (solve (s.emission reports built).emitted
        (s.emission reports built).added.buildSet s.inputs.overrides
        (Family.loadProbe reports (s.requested reports built).added.buildSet)
        s.args.flavor.implicitGroup).baseClosure := PyText.mem_sorted.mp hname
    exact answered_of_base hfounded hbase

/-- The seed is pinned. -/
theorem mem_buildrootPins {name : String} (h : name ∈ (s.seed reports built).1) :
    pinBinary (s.emission reports built).emitted name ∈ buildrootPins (s.lock reports built) :=
  List.mem_append_left _ (List.mem_append_left _ (List.mem_map_of_mem
    (PyText.mem_sortedSet.mpr (List.mem_append_left _ (List.mem_append_right _ h)))))

/-- Every pin of the buildroot names a build, or the answer of an override. -/
theorem Solved.answered (h : Solved s reports strict lock built) (hpin : pin ∈ buildrootPins lock) :
    Names (s.emission reports built).emitted pin ∧
      Answered (s.emission reports built).emitted s.inputs.overrides pin.name := by
  rw [h.written] at hpin
  rcases List.mem_append.mp hpin with hpin | hpin
  · rcases List.mem_append.mp hpin with hpin | hpin
    · exact answered_of_seed hpin
    · exact answered_of_variantSeed hpin
  · obtain ⟨item, hitem, hpin⟩ := List.mem_flatMap.mp hpin
    obtain ⟨src, _, rfl⟩ := List.mem_map.mp hitem
    exact answered_of_package hpin

/-- Every pin of an image does, of those that hold for the image. -/
theorem Solved.answered_image (h : Solved s reports strict lock built) {image : String}
    {pins : List Pin} (hpins : lock.imageSets.get? image = some pins) (hpin : pin ∈ pins) :
    image ∈ PyText.sortedSet s.inputs.imageRoots.keys ∧ Names (s.compose reports) pin ∧
      Answered (s.compose reports)
        (scopedOverrides s.inputs.overrides s.inputs.imageOverrides image) pin.name := by
  rw [h.written] at hpins
  unfold Solver.lock Solver.lockOf at hpins
  rw [get?_imageSets] at hpins
  obtain ⟨members, hmembers, rfl⟩ := Option.map_eq_some_iff.mp hpins
  obtain ⟨name, hname, rfl⟩ := List.mem_map.mp hpin
  obtain ⟨other, hother, heq⟩ := List.mem_map.mp (Dict.mem_items_of_get? hmembers)
  obtain ⟨rfl, rfl⟩ := Prod.mk.inj heq
  exact ⟨hother, names_pinBinary _ _, answered_of_packageSet (founded_compose s reports) hname⟩

theorem nodup_overrides (s : Solver) : s.inputs.overrides.keys.Nodup :=
  nodup_readOverrides (readInputs_eq_ok.mp s.reads).overrides

end Solved

/-- **The pins that can come out unresolved.** In a lock without problems, each names the
    answer of an override that was not checked where the pin is: of a rich dependency, or, in
    an image, of an override that is not the image's own. -/
theorem unresolved_pin {s : Solver} {reports : Reports} {strict : Bool} {lock : Lock}
    (h : s.solveMain reports strict = .ok lock) (hproblems : lock.problems = []) :
    (∀ pin ∈ buildrootPins lock, pin.build = none →
      ∃ cap, s.inputs.overrides.get? cap = some pin.name ∧ Unchecked cap) ∧
    ∀ image pins, lock.imageSets.get? image = some pins → ∀ pin ∈ pins, pin.build = none →
      ∃ cap, (scopedOverrides s.inputs.overrides s.inputs.imageOverrides image).get? cap =
          some pin.name ∧
        (Unchecked cap ∨
          (s.inputs.imageOverrides.getD image Dict.empty).get? cap ≠ some pin.name) := by
  obtain ⟨built, hs⟩ := solveMain_eq_ok.mp h
  have hnone := hs.written ▸ hproblems
  rw [lock_problems] at hnone
  unfold Solver.problems at hnone
  simp only [List.append_eq_nil_iff] at hnone
  obtain ⟨⟨⟨hsolved, _⟩, himages⟩, _⟩ := hnone
  constructor
  · intro pin hpin hbuild
    obtain ⟨hnames, hanswered⟩ := hs.answered hpin
    unfold Names at hnames
    rw [hbuild] at hnames
    rcases hanswered with hfound | ⟨cap, hitem⟩
    · rw [hfound] at hnames
      exact absurd hnames Bool.false_ne_true
    · have hget := (Dict.mem_items_iff (nodup_overrides s)).mp hitem
      refine ⟨cap, hget, ?_⟩
      by_contra hchecked
      have hvalid : validateOverrides s.inputs.overrides
          (s.emission reports built).emitted.provides "" = [] := by
        have hsolve : (solve (s.requested reports built).emitted _ _ _ _).problems = [] := hsolved
        unfold solve at hsolve
        simp only [List.append_eq_nil_iff] at hsolve
        exact hsolve.1.1.1
      have hfound := built_of_validated (founded_emitted s reports built) hvalid hget hchecked
      rw [hfound] at hnames
      exact Bool.false_ne_true hnames
  · intro image pins hpins pin hpin hbuild
    obtain ⟨himage, hnames, hanswered⟩ := hs.answered_image hpins hpin
    unfold Names at hnames
    rw [hbuild] at hnames
    rcases hanswered with hfound | ⟨cap, hitem⟩
    · rw [hfound] at hnames
      exact absurd hnames Bool.false_ne_true
    · have hget := (Dict.mem_items_iff (nodup_scopedOverrides (nodup_overrides s) _ _)).mp hitem
      refine ⟨cap, hget, ?_⟩
      by_contra hnot
      obtain ⟨hchecked, hown⟩ := not_or.mp hnot
      rw [not_not] at hown
      have hvalid : validateOverrides (s.inputs.imageOverrides.getD image Dict.empty)
          (s.compose reports).provides ("image:" ++ image) = [] := by
        have hset := List.flatMap_eq_nil_iff.mp himages image himage
        exact (List.append_eq_nil_iff.mp hset).1
      have hfound := built_of_validated (founded_compose s reports) hvalid hown hchecked
      rw [hfound] at hnames
      exact Bool.false_ne_true hnames

/-- A seed and an image of bash, which requires a shell that only an override answers. -/
def bashArgs : Args where
  sourcePrimary := []
  build := []
  buildList := none
  sourceImage := []
  prebuiltSource := []
  sourceException := []
  flavor := .fedora
  seedOnly := false
  seedPackage := ["bash"]
  override := ["(sh or dash)=ash"]
  sourceVariant := []
  image := ["base=bash"]
  imageOverride := []
  release := some "44"
  distTag := ".fc44"
  targetCpu := "x86_64"
  stages := defaultStages
  probe := none

def bashBuild : PackageRecord where
  name := "bash"
  arch := "x86_64"
  provides := buildsysBuild
  requires := ["(sh or dash)"]

def bashSolver : Solver where
  args := bashArgs
  lines := []
  inputs := ⟨[], Dict.single "(sh or dash)" "ash", Dict.empty, Dict.single "base" ["bash"],
    Dict.empty⟩
  reads := rfl
  repodata := ⟨[("fedora", [bashBuild])], [], []⟩

theorem bash_solved : Solved bashSolver Dict.empty true (bashSolver.lock Dict.empty []) [] := by
  refine ⟨rfl, ⟨_, rfl⟩, rfl, fun _ => ⟨?_, ?_, ?_⟩, rfl⟩
  · decide +kernel
  · decide +kernel
  · decide +kernel

/-- The answer has no build, and the lock has no problems. -/
theorem unresolved_pin_bash :
    (∃ pin ∈ buildrootPins (bashSolver.lock Dict.empty []), pin.build = none) ∧
    (∀ pin ∈ buildrootPins (bashSolver.lock Dict.empty []), pin.build = none →
      ∃ cap, bashSolver.inputs.overrides.get? cap = some pin.name ∧ Unchecked cap) ∧
    ∀ image pins, (bashSolver.lock Dict.empty []).imageSets.get? image = some pins →
      ∀ pin ∈ pins, pin.build = none →
        ∃ cap, (scopedOverrides bashSolver.inputs.overrides bashSolver.inputs.imageOverrides
            image).get? cap = some pin.name ∧
          (Unchecked cap ∨ (bashSolver.inputs.imageOverrides.getD image Dict.empty).get? cap ≠
            some pin.name) := by
  obtain ⟨himages, hsolved, hseed⟩ := bash_solved.refused rfl
  refine ⟨?_, unresolved_pin (solveMain_eq_ok.mpr ⟨[], bash_solved⟩) ?_⟩
  · have hash : "ash" ∈ (bashSolver.seed Dict.empty []).1 := by
      decide +kernel
    exact ⟨_, mem_buildrootPins hash, by decide +kernel⟩
  · rw [lock_problems]
    unfold Solver.problems
    rw [hsolved, himages, hseed]
    rfl

end BuckosDistro.Relock
