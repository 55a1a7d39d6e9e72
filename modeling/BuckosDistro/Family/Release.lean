/-
  Every rule of a release can be made.

  From the lock a solve ends in to the rules of the release: each label is that of a rule, and
  the rules can be made one after the other. The downloads and the buildroots come first, then
  the trees of the pins, the packages in the order of the plan, the names of what ships, and
  what is installed from all of them.
-/
import BuckosDistro.Family.Graph

namespace BuckosDistro.Family

open BuckosDistro.Lib BuckosDistro.Depgraph BuckosDistro.Generate BuckosDistro.Solve
open BuckosDistro.Relock

/-! ## What stands on the packages -/

section Release

variable {e : Emission} {stages : ℕ} {lock : Lock} {data : ReleaseData} {recipe : Recipe}
  {flavor : Flavor} {config : LocalConfig} {suffix : List Char} {calls : List PackageCall}
  {files : List HttpFile}

/-- The labels of the packages. -/
def packageLabels (calls : List PackageCall) : List Label :=
  (calls.flatMap PackageCall.rules).map Rule.label

theorem mem_packageLabels {call : PackageCall} {l : Label} (hcall : call ∈ calls)
    (hl : l ∈ call.rules.map Rule.label) : l ∈ packageLabels calls := by
  obtain ⟨rule, hrule, rfl⟩ := List.mem_map.mp hl
  exact List.mem_map_of_mem (List.mem_flatMap.mpr ⟨call, hcall, hrule⟩)

/-- The target that ships a recipe is in the schedule. -/
theorem shipped_mem_schedule (h : FromEmission e stages lock data.toGenerated)
    {shipping : String} (hget : (shipped data.staged).get? recipe.name = some shipping) :
    PlanTarget.stage recipe.name stages ∈ schedule e.graph stages ∧
      shipping = stageName recipe.name stages := by
  obtain ⟨⟨hmem, hcycle⟩, hname⟩ := (get?_ships h).mp hget
  refine ⟨?_, hname⟩
  unfold Emission.graph at hcycle ⊢
  rw [mem_schedule_stage, mem_flatten_iff]
  exact ⟨⟨hmem, hcycle⟩, h.stages, le_refl stages⟩

/-- The stable names stand for what ships. -/
theorem grounded_aliases (h : FromEmission e stages lock data.toGenerated)
    (hcalls : List.Forall₂ (CallOf e stages config data.toGenerated suffix)
      (schedule e.graph stages) calls) :
    Grounded (packageLabels calls)
      (data.recipes.flatMap (shipAliases (shipped data.staged) suffix)) := by
  apply Ordered.grounded_of_known
  intro rule hrule
  obtain ⟨recipe, hr, hrule⟩ := List.mem_flatMap.mp hrule
  unfold shipAliases at hrule
  cases hget : (shipped data.staged).get? recipe.name with
  | none =>
    rw [hget] at hrule
    exact absurd hrule List.not_mem_nil
  | some shipping =>
    rw [hget] at hrule
    obtain ⟨hscheduled, rfl⟩ := shipped_mem_schedule h hget
    obtain ⟨call, hmem, hcall⟩ := Lists.exists_related hcalls hscheduled
    rcases List.mem_cons.mp hrule with rfl | hrule
    · refine List.cons_subset.mpr ⟨mem_packageLabels hmem ?_, List.nil_subset _⟩
      have hown := (mem_labels_rules call).2
      rwa [hcall.name] at hown
    · obtain ⟨sub, hsub, hrule⟩ := List.mem_flatMap.mp hrule
      obtain ⟨htree, hrpm⟩ := mem_labels_call h hcall hr rfl hsub
      rcases List.mem_cons.mp hrule with rfl | hrule
      · exact List.cons_subset.mpr ⟨mem_packageLabels hmem htree, List.nil_subset _⟩
      · rw [List.mem_singleton.mp hrule]
        exact List.cons_subset.mpr ⟨mem_packageLabels hmem hrpm, List.nil_subset _⟩

theorem staged_of_emission (h : FromEmission e stages lock data.toGenerated) :
    Staged data.staged := by
  refine ⟨target_of_staged h, fun entry hentry => ?_⟩
  have hcycle := (mem_sources_iff h).mp (List.mem_map_of_mem hentry)
  obtain ⟨first, hfirst, hsource, hstage⟩ :=
    (exists_stage_iff h).mpr ⟨hcycle, le_refl 1, h.stages⟩
  exact ⟨first, hfirst, hsource, hstage⟩

/-- The probe of a recipe asks a package. -/
theorem grounded_probes (h : FromEmission e stages lock data.toGenerated)
    (hcalls : List.Forall₂ (CallOf e stages config data.toGenerated suffix)
      (schedule e.graph stages) calls) :
    Grounded (packageLabels calls) (data.recipes.map (probeAlias data.staged suffix)) := by
  apply Ordered.grounded_of_known
  intro rule hrule
  obtain ⟨recipe, hr, rfl⟩ := List.mem_map.mp hrule
  refine List.cons_subset.mpr ⟨?_, List.nil_subset _⟩
  obtain ⟨hbuilt, _⟩ := recipe_of_mem h hr
  -- the first stage of a source on a cycle, else its own target
  have hasked : ∃ t ∈ schedule e.graph stages,
      t.target = probeTarget data.staged recipe.name := by
    rw [probeTarget_eq (staged_of_emission h)]
    split_ifs with hstaged
    · refine ⟨.stage recipe.name 1, ?_, rfl⟩
      have hcycle := (mem_sources_iff h).mp hstaged
      unfold Emission.graph at hcycle ⊢
      rw [mem_schedule_stage, mem_flatten_iff]
      exact ⟨hcycle, le_refl 1, h.stages⟩
    · refine ⟨.plain recipe.name, ?_, rfl⟩
      have hnot := fun hcycle => hstaged ((mem_sources_iff h).mpr ⟨hbuilt, hcycle⟩)
      unfold Emission.graph at hnot ⊢
      rw [mem_schedule_plain, mem_flatten_iff]
      exact ⟨hbuilt, hnot⟩
  obtain ⟨t, ht, htarget⟩ := hasked
  obtain ⟨call, hmem, hcall⟩ := Lists.exists_related hcalls ht
  have hprobe := (mem_labels_rules call).1
  rw [hcall.name, htarget] at hprobe
  exact mem_packageLabels hmem hprobe

/-- The rpm of a binary of a recipe goes by the name of the recipe. -/
theorem mem_recipe_rpm (h : FromEmission e stages lock data.toGenerated)
    (hcalls : List.Forall₂ (CallOf e stages config data.toGenerated suffix)
      (schedule e.graph stages) calls) (hr : recipe ∈ data.recipes) {binary : String}
    (hlists : binary ∈ recipe.subpackages) :
    label (subpackageRpmTarget (recipe.name.toList ++ suffix) recipe.sourceName.toList
        binary.toList) ∈
      packageLabels calls ++
        (data.recipes.flatMap (shipAliases (shipped data.staged) suffix)).map Rule.label := by
  obtain ⟨hbuilt, _⟩ := recipe_of_mem h hr
  by_cases hcycle : OnCycle e.graph recipe.name
  · apply List.mem_append_right
    have hget := (get?_ships h).mpr ⟨⟨hbuilt, hcycle⟩, rfl⟩
    refine List.mem_map.mpr ⟨.alias (subpackageRpmTarget (recipe.name.toList ++ suffix)
      recipe.sourceName.toList binary.toList) (label (subpackageRpmTarget
        ((stageName recipe.name stages).toList ++ suffix) recipe.sourceName.toList
          binary.toList)), List.mem_flatMap.mpr ⟨recipe, hr, ?_⟩, rfl⟩
    unfold shipAliases
    rw [hget]
    apply List.mem_cons_of_mem
    exact List.mem_flatMap.mpr ⟨binary, hlists, List.mem_cons_of_mem _ List.mem_cons_self⟩
  · apply List.mem_append_left
    have hplain : PlanTarget.plain recipe.name ∈ schedule e.graph stages := by
      unfold Emission.graph at hcycle ⊢
      rw [mem_schedule_plain, mem_flatten_iff]
      exact ⟨hbuilt, hcycle⟩
    obtain ⟨call, hmem, hcall⟩ := Lists.exists_related hcalls hplain
    exact mem_packageLabels hmem (mem_labels_call h hcall hr rfl hlists).2

/-! ## What stands on the downloads -/

/-- The labels of the downloads. -/
def fileLabels (files : List HttpFile) : List Label := (files.map Rule.httpFile).map Rule.label

theorem mem_fileLabels (hfiles : rpmDownloads flavor config data suffix = .ok files)
    {entry : Download} (hentry : entry ∈ downloads data) :
    downloadLabel suffix entry.target ∈ fileLabels files := by
  obtain ⟨url, hfile⟩ := (downloaded_rpmDownloads hfiles).2 entry hentry
  exact List.mem_map.mpr ⟨_, List.mem_map_of_mem hfile, rfl⟩

theorem seed_mem_fileLabels (hfiles : rpmDownloads flavor config data suffix = .ok files)
    {entry : RpmEntry} (hentry : entry ∈ data.seedRpms ++ data.variantSeedRpms) :
    downloadLabel suffix entry.target ∈ fileLabels files := by
  have hmem : Download.ofRpm entry ∈ downloads data := by
    unfold downloads
    rw [← List.map_append]
    apply List.mem_append_left
    apply List.mem_append_left
    exact List.mem_map_of_mem hentry
  exact mem_fileLabels hfiles hmem

theorem source_mem_fileLabels (hfiles : rpmDownloads flavor config data suffix = .ok files)
    {source : SourceEntry} (hsource : source ∈ data.sourceRpms) :
    downloadLabel suffix source.target ∈ fileLabels files := by
  have hmem : Download.ofSource source ∈ downloads data :=
    List.mem_append_right _ (List.mem_map_of_mem hsource)
  exact mem_fileLabels hfiles hmem

theorem image_mem_fileLabels (hfiles : rpmDownloads flavor config data suffix = .ok files)
    {name : String} {entry : RpmEntry} (hentry : entry ∈ data.imageSets.getD name []) :
    downloadLabel suffix entry.target ∈ fileLabels files := by
  have hkey : name ∈ data.imageSets.keys := by
    rw [Dict.mem_keys_iff]
    unfold Dict.getD at hentry
    cases hget : data.imageSets.get? name with
    | none =>
      rw [hget] at hentry
      exact absurd hentry List.not_mem_nil
    | some members => rfl
  have hmem : Download.ofRpm entry ∈ downloads data := by
    unfold downloads
    apply List.mem_append_left
    apply List.mem_append_right
    exact List.mem_flatMap.mpr ⟨name, PyText.mem_sortedSet.mpr hkey, List.mem_map_of_mem hentry⟩
  exact mem_fileLabels hfiles hmem

theorem grounded_files : Grounded [] (files.map Rule.httpFile) := by
  apply Ordered.grounded_of_known
  intro rule hrule
  obtain ⟨file, _, rfl⟩ := List.mem_map.mp hrule
  exact List.nil_subset _

theorem grounded_buildroots (hfiles : rpmDownloads flavor config data suffix = .ok files) :
    Grounded (fileLabels files) (rpmBuildroots data suffix) := by
  have hseed (names : List String) : seedLabels data suffix names ⊆ fileLabels files := by
    intro l hl
    obtain ⟨entry, hentry, rfl⟩ := List.mem_map.mp hl
    exact seed_mem_fileLabels hfiles (List.mem_append_left _ (List.mem_filter.mp hentry).1)
  apply Ordered.grounded_of_known
  intro rule hrule
  rcases List.mem_cons.mp hrule with rfl | hrule
  · exact List.nil_subset _
  · rcases List.mem_cons.mp hrule with rfl | hrule
    · exact hseed _
    · rw [List.mem_singleton.mp hrule]
      exact List.append_subset.mpr ⟨hseed _, hseed _⟩

theorem grounded_tools (hfiles : rpmDownloads flavor config data suffix = .ok files) :
    Grounded (fileLabels files) (rpmImageTools data suffix) := by
  apply Ordered.grounded_of_known
  intro rule hrule
  obtain ⟨name, _, rfl⟩ := List.mem_map.mp hrule
  intro l hl
  obtain ⟨entry, hentry, rfl⟩ := List.mem_map.mp hl
  exact image_mem_fileLabels hfiles hentry

/-- The seed is installed from the downloads. -/
theorem grounded_rootfs (hfiles : rpmDownloads flavor config data suffix = .ok files)
    {known : List Label} (hknown : fileLabels files ⊆ known)
    (hroot : rpmBuildrootTarget config suffix ∈ known) :
    Grounded known [rpmRootfs config data suffix] := by
  refine ⟨List.cons_subset.mpr ⟨hroot, fun l hl => ?_⟩, trivial⟩
  obtain ⟨entry, hentry, rfl⟩ := List.mem_map.mp hl
  exact hknown (seed_mem_fileLabels hfiles (List.mem_append_left _ hentry))

/-- The entries of a set that is installed are those of a set of the lock. -/
theorem mem_rootfsSets {imageSets : Dict String (List RpmEntry)}
    (hsets : rootfsSets data.toGenerated = .ok imageSets) {name : String} {entry : RpmEntry}
    (hentry : entry ∈ imageSets.getD name []) :
    ∃ set, entry ∈ data.imageSets.getD set [] := by
  unfold rootfsSets at hsets
  split_ifs at hsets
  cases hlive : data.imageSets.get? baseSourceImageSet with
  | none =>
    rw [hlive] at hsets
    obtain rfl := Except.ok.inj hsets
    exact ⟨name, hentry⟩
  | some source =>
    rw [hlive] at hsets
    dsimp only at hsets
    split_ifs at hsets
    obtain rfl := Except.ok.inj hsets
    unfold Dict.getD at hentry
    rw [Dict.get?_set] at hentry
    split_ifs at hentry
    · refine ⟨baseSourceImageSet, ?_⟩
      rw [Dict.getD_eq_of_get? [] hlive]
      exact (List.mem_filter.mp hentry).1
    · exact ⟨name, hentry⟩

/-- An image is installed from what ships, or from the downloads. -/
theorem grounded_images (h : FromEmission e stages lock data.toGenerated)
    (hcalls : List.Forall₂ (CallOf e stages config data.toGenerated suffix)
      (schedule e.graph stages) calls)
    (hfiles : rpmDownloads flavor config data suffix = .ok files) {images : List Rule}
    (himages : rpmImageRootfs config data suffix = .ok images) {known : List Label}
    (hknown : fileLabels files ⊆ known) (hroot : rpmBuildrootTarget config suffix ∈ known)
    (hpackages : packageLabels calls ++
      (data.recipes.flatMap (shipAliases (shipped data.staged) suffix)).map Rule.label ⊆ known) :
    Grounded known images := by
  unfold rpmImageRootfs at himages
  dsimp only at himages
  obtain ⟨imageSets, hsets, himages⟩ := Lists.exists_of_bind himages
  obtain rfl := Except.ok.inj himages
  apply Ordered.grounded_of_known
  intro rule hrule
  obtain ⟨name, _, hrule⟩ := List.mem_flatMap.mp hrule
  obtain ⟨variant, _, rfl⟩ := List.mem_map.mp hrule
  refine List.cons_subset.mpr ⟨hroot, fun l hl => ?_⟩
  obtain ⟨entry, hentry, rfl⟩ := List.mem_map.mp hl
  obtain ⟨set, hset⟩ := mem_rootfsSets hsets hentry
  have hpinned := hknown (image_mem_fileLabels hfiles hset)
  unfold rootfsRpm
  split_ifs
  · cases hget : (binaryProviders data.recipes (prebuiltSources config)).get? entry.name with
    | none => exact hpinned
    | some producer =>
      obtain ⟨hr, hlists, _⟩ := provider_spec h hget
      exact hpackages (mem_recipe_rpm h hcalls hr hlists)
  · exact hpinned

end Release

/-! ## Pins that are written once -/

section Pins

variable {pins : List Pin} {pin other : Pin}

theorem get?_byKey (pins : List Pin) (key : String) :
    (pins.foldl (fun d pin => d.setDefault (pinKey pin) pin) Dict.empty).get? key =
      (⟨pins.map fun pin => (pinKey pin, pin)⟩ : Dict String Pin).get? key := by
  have hpairs : pins.foldl (fun d pin => d.setDefault (pinKey pin) pin) Dict.empty =
      (pins.map fun pin => (pinKey pin, pin)).foldl (fun d item => d.setDefault item.1 item.2)
        Dict.empty := by
    rw [List.foldl_map]
  rw [hpairs, Dict.get?_foldl_setDefault, Dict.get?_empty, Option.none_or]

/-- The pins that are left are found under their keys. -/
theorem mem_dedupePins : pin ∈ dedupePins pins ↔
    (⟨pins.map fun pin => (pinKey pin, pin)⟩ : Dict String Pin).get? (pinKey pin) = some pin := by
  unfold dedupePins
  dsimp only
  rw [List.mem_filterMap]
  constructor
  · intro h
    obtain ⟨key, _, hget⟩ := h
    rw [get?_byKey] at hget
    obtain ⟨found, _, heq⟩ := List.mem_map.mp (Dict.mem_items_of_get? hget)
    obtain ⟨rfl, rfl⟩ := Prod.mk.inj heq
    exact hget
  · intro hget
    rw [← get?_byKey] at hget
    refine ⟨pinKey pin, PyText.mem_sortedSet.mpr ?_, hget⟩
    rw [Dict.mem_keys_iff, hget]
    rfl

theorem exists_deduped (h : pin ∈ pins) : ∃ kept ∈ dedupePins pins, pinKey kept = pinKey pin := by
  have hkey : pinKey pin ∈
      (⟨pins.map fun pin => (pinKey pin, pin)⟩ : Dict String Pin).keys := by
    show pinKey pin ∈ (pins.map fun pin => (pinKey pin, pin)).map Prod.fst
    rw [List.map_map]
    exact List.mem_map.mpr ⟨pin, h, rfl⟩
  obtain ⟨kept, hkept⟩ := Option.isSome_iff_exists.mp (Dict.mem_keys_iff.mp hkey)
  obtain ⟨found, _, heq⟩ := List.mem_map.mp (Dict.mem_items_of_get? hkept)
  obtain ⟨hsame, rfl⟩ := Prod.mk.inj heq
  exact ⟨found, mem_dedupePins.mpr (hsame ▸ hkept), hsame⟩

theorem deduped_unique (h : pin ∈ dedupePins pins) (ho : other ∈ dedupePins pins)
    (hkey : pinKey pin = pinKey other) : pin = other := by
  rw [mem_dedupePins] at h ho
  rw [hkey, ho] at h
  exact (Option.some.inj h).symm

/-- The digest a pin is downloaded by. -/
def digestOf (pin : Pin) : Option String := pin.build.bind PinnedBuild.sha256

theorem pinKey_of_digest {sha256 : String} (h : digestOf pin = some sha256) (hne : sha256 ≠ "") :
    pinKey pin = sha256 := by
  unfold digestOf at h
  unfold pinKey
  rw [h]
  split
  · next heq => exact absurd heq.symm (Option.some_ne_none _).symm
  · next heq => exact absurd (Option.some.inj heq) hne
  · next heq => exact (Option.some.inj heq).symm

/-- A list is only written when every pin of it has a digest. -/
theorem exists_digest {entries : List RpmEntry} (h : dedupe pins = some entries)
    (hpin : pin ∈ pins) : ∃ sha256, digestOf pin = some sha256 := by
  unfold dedupe at h
  obtain ⟨keyed, hkeyed, _⟩ := Option.bind_eq_some_iff.mp h
  obtain ⟨item, _, hof⟩ := Lists.exists_of_mem_mapM hkeyed hpin
  obtain ⟨sha256, hdigest, _⟩ := Option.map_eq_some_iff.mp hof
  exact ⟨sha256, hdigest⟩

/-- A pin whose digest no other has is an entry of the module. -/
theorem exists_entry {entries : List RpmEntry} (h : dedupe pins = some entries) (hpin : pin ∈ pins)
    (hunique : ∀ other ∈ pins, digestOf other = digestOf pin → other = pin) :
    ∃ entry ∈ entries, entryOf pin = some entry := by
  unfold dedupe at h
  obtain ⟨keyed, hkeyed, h⟩ := Option.bind_eq_some_iff.mp h
  obtain ⟨item, hitem, hof⟩ := Lists.exists_of_mem_mapM hkeyed hpin
  obtain ⟨sha256, hdigest, rfl⟩ := Option.map_eq_some_iff.mp hof
  have hkey : sha256 ∈ (⟨keyed⟩ : Dict String Pin).keys := List.mem_map_of_mem hitem
  obtain ⟨found, hfound⟩ := Option.isSome_iff_exists.mp (Dict.mem_keys_iff.mp hkey)
  obtain ⟨other, hother, hof'⟩ := Lists.exists_of_mapM_mem hkeyed (Dict.mem_items_of_get? hfound)
  obtain ⟨key, hdigest', heq⟩ := Option.map_eq_some_iff.mp hof'
  obtain ⟨hsame, rfl⟩ := Prod.mk.inj heq
  rw [hsame] at hdigest'
  obtain rfl := hunique other hother (hdigest'.trans hdigest.symm)
  have hget : (keyed.foldl (fun d item => d.setDefault item.1 item.2) Dict.empty).get? sha256 =
      some other := by
    rw [Dict.get?_foldl_setDefault, Dict.get?_empty, Option.none_or, hfound]
  have hmem : other ∈ (PyText.sortedSet (keyed.foldl (fun d item => d.setDefault item.1 item.2)
      Dict.empty).keys).filterMap
        (keyed.foldl (fun d item => d.setDefault item.1 item.2) Dict.empty).get? := by
    refine List.mem_filterMap.mpr ⟨sha256, PyText.mem_sortedSet.mpr ?_, hget⟩
    rw [Dict.mem_keys_iff, hget]
    rfl
  obtain ⟨entry, hentry, hof⟩ := Lists.exists_of_mem_mapM h hmem
  exact ⟨entry, hentry, hof⟩

end Pins

/-! ## From the solve to the rules -/

/-- What is written once under a digest is one rpm. -/
structure DistinctRpms (lock : Lock) : Prop where
  digests : ∀ pin ∈ lock.variantSeed, digestOf pin ≠ some ""
  apart : ∀ pin ∈ lock.variantSeed, ∀ item ∈ lock.packages.items, ∀ used ∈ item.2.depsBuilt,
    pinKey pin = pinKey used → pin.name = used.name ∧ pin.build = used.build

section Solver

variable {s : Solver} {reports : Reports} {strict : Bool} {lock : Lock} {data : Generated}

/-- The build of a routed dependency is pinned for its own sake. -/
theorem pinned_of_distinct {e : Emission} {plan : Plan} {imageSets : Dict String (List String)}
    {seedPackages : List String} {imageUniverse : Universe}
    (hlock : lock = e.lock plan imageSets seedPackages imageUniverse)
    (hl : Loaded lock data) (hdistinct : DistinctRpms lock) :
    ∀ recipe ∈ data.recipes, ∀ item ∈ recipe.variantSeed.items,
      item.2 ∈ data.variantSeedRpms.map RpmEntry.target := by
  intro recipe hr item hitem
  obtain ⟨pkg, hpkg, hrecipe⟩ := hl.package hr
  have hentry := Dict.mem_items_of_get? hpkg
  rw [hlock] at hpkg
  obtain ⟨_, rfl⟩ := package_of_get? hpkg
  unfold recipeOf at hrecipe
  obtain ⟨seeds, hseeds, hrecipe⟩ := Option.bind_eq_some_iff.mp hrecipe
  rw [← Option.some.inj hrecipe] at hitem
  obtain ⟨pin, hpin, hof⟩ := Lists.exists_of_mapM_mem hseeds hitem
  obtain ⟨build, hbuild, rfl⟩ := Option.map_eq_some_iff.mp hof
  obtain ⟨hpin, hrouted⟩ := List.mem_filter.mp hpin
  obtain ⟨dep, _, _, hroutedPin⟩ := mem_depsBuilt.mp hpin
  -- a routed pin is in the list the emitter goes over
  have hlisted : pin ∈ (PyText.sortedSet e.added.routes.keys).flatMap fun src =>
      (PyText.sortedSet (e.added.routes.getD src Dict.empty).keys).map
        (routedBinary e.emitted e.args src) := by
    have hvariant : e.added.routes.route recipe.name dep ≠ none := by
      intro hnone
      have hargs : e.args.routes.route recipe.name dep = none := hnone
      unfold isRouted at hrouted
      rw [hroutedPin, routedBinary_variant, hargs] at hrouted
      exact absurd hrouted Bool.false_ne_true
    have hdep : dep ∈ (e.added.routes.getD recipe.name Dict.empty).keys := by
      rw [Dict.mem_keys_iff]
      exact Option.isSome_iff_ne_none.mpr hvariant
    have hsrc : recipe.name ∈ e.added.routes.keys := by
      rw [Dict.mem_keys_iff]
      unfold Dict.getD at hdep
      cases hget : e.added.routes.get? recipe.name with
      | none =>
        rw [hget] at hdep
        exact absurd hdep List.not_mem_nil
      | some _ => rfl
    rw [hroutedPin]
    exact List.mem_flatMap.mpr ⟨recipe.name, PyText.mem_sortedSet.mpr hsrc,
      List.mem_map_of_mem (PyText.mem_sortedSet.mpr hdep)⟩
  obtain ⟨kept, hkept, hkey⟩ := exists_deduped hlisted
  have hseed : kept ∈ lock.variantSeed := hlock ▸ hkept
  obtain ⟨hname, hsame⟩ := hdistinct.apart kept hseed _ hentry pin hpin hkey
  have hunique : ∀ other ∈ lock.variantSeed, digestOf other = digestOf kept → other = kept := by
    intro other hother hdigest
    obtain ⟨sha256, hsha⟩ := exists_digest hl.variantSeedRpms hseed
    have hne : sha256 ≠ "" := fun hempty => hdistinct.digests kept hseed (hempty ▸ hsha)
    have hkeys : pinKey other = pinKey kept :=
      (pinKey_of_digest (hdigest.trans hsha) hne).trans (pinKey_of_digest hsha hne).symm
    rw [hlock] at hother hseed
    exact deduped_unique hother hseed hkeys
  obtain ⟨entry, hmem, hof⟩ := exists_entry hl.variantSeedRpms hseed hunique
  refine List.mem_map.mpr ⟨entry, hmem, ?_⟩
  unfold entryOf at hof
  obtain ⟨build', hbuild', hof⟩ := Option.bind_eq_some_iff.mp hof
  obtain ⟨_, _, hof⟩ := Option.bind_eq_some_iff.mp hof
  obtain ⟨_, _, hof⟩ := Option.bind_eq_some_iff.mp hof
  rw [← Option.some.inj hof]
  rw [hsame, hbuild] at hbuild'
  rw [hname, Option.some.inj hbuild']

/-- What a solve writes is generated from an emission. -/
theorem fromEmission_of_solveMain (h : s.solveMain reports strict = .ok lock)
    (hdata : collect lock = some data) (hstages : 1 ≤ s.args.stages.val)
    (hnamed : "" ∉ lock.packages.keys) (hdistinct : DistinctRpms lock) :
    ∃ e, FromEmission e s.args.stages.val.toNat lock data := by
  obtain ⟨built, hsolved⟩ := solveMain_eq_ok.mp h
  have hlock : lock = (s.emission reports built).lock
      ((s.emission reports built).plan s.args.stages.val.toNat) (s.images reports).1
      (s.seed reports built).1 (s.compose reports) := hsolved.written
  have hloaded := loaded_of_collect hdata
  have hpackages (src : String) (pkg : LockPackage) : lock.packages.get? src = some pkg ↔
      src ∈ (s.emission reports built).added.buildSet ∧
        pkg = (s.emission reports built).package src := by
    rw [hlock]
    constructor
    · exact package_of_get?
    · intro hsrc
      obtain ⟨hmem, rfl⟩ := hsrc
      exact get?_packages hmem
  refine ⟨s.emission reports built, hloaded, hpackages, by rw [hlock]; rfl, by omega,
    inverse_probed, fun name spec hspec => ?_, fun hempty => ?_,
    pinned_of_distinct hlock hloaded hdistinct⟩
  · exact (parseSourceVariants_named (readInputs_eq_ok.mp s.reads).variants hspec).1
  · refine hnamed (Dict.mem_keys_iff.mpr ?_)
    rw [(hpackages "" _).mpr ⟨hempty, rfl⟩]
    rfl

end Solver

section Rules

variable {e : Emission} {stages : ℕ} {lock : Lock} {data : ReleaseData} {flavor : Flavor}
  {config : LocalConfig} {suffix : List Char} {files : List HttpFile} {images : List Rule}
  {bconds : Dict String (List String)}

theorem Grounded.append {xs ys : List Rule} (hx : Grounded [] xs)
    (hy : Grounded (xs.map Rule.label) ys) : Grounded [] (xs ++ ys) := by
  apply Ordered.grounded_append.mpr
  rw [List.append_nil]
  exact ⟨hx, hy⟩

theorem labels_subset {xs ys : List Rule} (h : ∀ rule ∈ xs, rule ∈ ys) :
    xs.map Rule.label ⊆ ys.map Rule.label := List.map_subset _ h

/-- The rules of a release, and an order in which they can be made. -/
theorem exists_order (h : FromEmission e stages lock data.toGenerated)
    (hfiles : rpmDownloads flavor config data suffix = .ok files)
    (hbconds : disabledBconds flavor config = .ok bconds)
    (himages : rpmImageRootfs config data suffix = .ok images)
    (hroot : rpmBuildrootTarget config suffix ∈ (rpmBuildroots data suffix).map Rule.label) :
    ∃ rules, releaseRules flavor config data suffix = .ok rules ∧
      ∃ order, order.Perm rules ∧ Grounded [] order := by
  obtain ⟨plain, staged, hplain, hstaged, hall⟩ := @exists_calls _ _ _ _ _ _ suffix _ h hbconds
  obtain ⟨calls, hcalls, hperm⟩ := List.perm_comp_forall₂ (planTargets_perm h).symm hall
  set roots := rpmBuildroots data suffix
  set trees := rpmSeedInstallroots data.toGenerated suffix
  set aliases := data.recipes.flatMap (shipAliases (shipped data.staged) suffix)
  set probes := data.recipes.map (probeAlias data.staged suffix)
  refine ⟨files.map .httpFile ++ roots ++
      (trees ++ (plain ++ staged).flatMap PackageCall.rules ++ aliases ++ probes) ++
      [rpmRootfs config data suffix] ++ images ++ rpmImageTools data suffix, ?_,
    files.map .httpFile ++ roots ++
      (trees ++ calls.flatMap PackageCall.rules ++ aliases ++ probes) ++
      [rpmRootfs config data suffix] ++ images ++ rpmImageTools data suffix, ?_, ?_⟩
  · unfold releaseRules rpmPackages
    rw [hfiles, hplain, hstaged, himages]
    rfl
  · have hrules := hperm.flatMap_right PackageCall.rules
    refine List.Perm.append_right _ (List.Perm.append_right _ (List.Perm.append_right _ ?_))
    apply List.Perm.append_left
    refine List.Perm.append_right _ (List.Perm.append_right _ ?_)
    exact hrules.append_left trees
  · -- what the later parts stand on
    have hfileLabels {known : List Rule} (hin : ∀ file ∈ files.map Rule.httpFile, file ∈ known) :
        fileLabels files ⊆ known.map Rule.label := labels_subset hin
    have hrootLabel {known : List Rule} (hin : ∀ root ∈ roots, root ∈ known) :
        rpmBuildrootTarget config suffix ∈ known.map Rule.label := labels_subset hin hroot
    have hprovides : Provides config data.toGenerated suffix
        ((files.map Rule.httpFile ++ roots ++ trees).map Rule.label) := by
      have hdownloads : fileLabels files ⊆
          (files.map Rule.httpFile ++ roots ++ trees).map Rule.label :=
        hfileLabels fun file hfile => by simp only [List.mem_append, hfile, true_or]
      exact ⟨fun entry he => hdownloads (seed_mem_fileLabels hfiles he),
        fun source hs => hdownloads (source_mem_fileLabels hfiles hs),
        fun entry he =>
          labels_subset (fun _ htree => List.mem_append_right _ htree) (label_of_overlaid he),
        hrootLabel fun root hin => by simp only [List.mem_append, hin, true_or, or_true]⟩
    rw [← List.append_assoc, ← List.append_assoc, ← List.append_assoc]
    refine .append (.append (.append (.append (.append (.append (.append (.append grounded_files
      (grounded_buildroots hfiles)) ?_) (grounded_calls h hprovides hcalls)) ?_) ?_) ?_) ?_) ?_
    · refine grounded_installroots fun entry he => ?_
      exact hfileLabels (fun file hfile => List.mem_append_left _ hfile)
        (seed_mem_fileLabels hfiles he)
    · refine (grounded_aliases h hcalls).mono ?_
      exact labels_subset fun rule hrule => List.mem_append_right _ hrule
    · refine (grounded_probes h hcalls).mono (labels_subset fun rule hrule => ?_)
      simp only [List.mem_append, hrule, true_or, or_true]
    · refine grounded_rootfs hfiles (hfileLabels fun file hfile => ?_)
        (hrootLabel fun root hin => ?_)
      · simp only [List.mem_append, hfile, true_or]
      · simp only [List.mem_append, hin, true_or, or_true]
    · refine grounded_images h hcalls hfiles himages (hfileLabels fun file hfile => ?_)
        (hrootLabel fun root hin => ?_) ?_
      · simp only [List.mem_append, hfile, true_or]
      · simp only [List.mem_append, hin, true_or, or_true]
      · show (calls.flatMap PackageCall.rules).map Rule.label ++ aliases.map Rule.label ⊆ _
        rw [← List.map_append]
        refine labels_subset fun rule hrule => ?_
        rcases List.mem_append.mp hrule with hrule | hrule
        · simp only [List.mem_append, hrule, true_or, or_true]
        · simp only [List.mem_append, hrule, true_or, or_true]
    · refine (grounded_tools hfiles).mono (hfileLabels fun file hfile => ?_)
      simp only [List.mem_append, hfile, true_or]

end Rules

/-- **The graph of a release has no gap and no cycle.** From whatever a solve ends in, the rules
    that the macros register can be made one after the other: each label of a rule is that of
    a rule before it. So every dependency, alias, probe and image names a target that exists,
    whichever sources are kept prebuilt. -/
theorem releaseRules_ordered {s : Solver} {reports : Reports} {strict : Bool} {lock : Lock}
    {data : ReleaseData} {flavor : Flavor} {config : LocalConfig} {suffix : List Char}
    {files : List HttpFile} {images : List Rule} {bconds : Dict String (List String)}
    (h : s.solveMain reports strict = .ok lock) (hdata : collect lock = some data.toGenerated)
    (hstages : 1 ≤ s.args.stages.val) (hnamed : "" ∉ lock.packages.keys)
    (hdistinct : DistinctRpms lock)
    (hfiles : rpmDownloads flavor config data suffix = .ok files)
    (hbconds : disabledBconds flavor config = .ok bconds)
    (himages : rpmImageRootfs config data suffix = .ok images)
    (hroot : rpmBuildrootTarget config suffix ∈ (rpmBuildroots data suffix).map Rule.label) :
    ∃ rules, releaseRules flavor config data suffix = .ok rules ∧
      ∃ order, order.Perm rules ∧ ∀ before rule after, order = before ++ rule :: after →
        ∀ l ∈ rule.labels, ∃ earlier ∈ before, earlier.label = l := by
  obtain ⟨e, hfrom⟩ := fromEmission_of_solveMain h hdata hstages hnamed hdistinct
  obtain ⟨rules, hrules, order, hperm, hgrounded⟩ :=
    exists_order hfrom hfiles hbconds himages hroot
  refine ⟨rules, hrules, order, hperm, fun before rule after heq l hl => ?_⟩
  rcases Ordered.grounded_iff.mp hgrounded before rule after heq l hl with hnil | hmade
  · exact absurd hnil List.not_mem_nil
  · exact hmade

/-! ## A release of acl, attr and tar -/

/-- acl and attr need each other, tar is built against the acl it was made for, and perl stays
    in the seed. -/
def aclArgs : Args where
  sourcePrimary := ["source.xml"]
  build := ["acl", "attr", "tar"]
  buildList := none
  sourceImage := []
  prebuiltSource := []
  sourceException := []
  flavor := .fedora
  seedOnly := false
  seedPackage := []
  override := []
  sourceVariant := ["acl-compat=acl@2.3.2-1:tar"]
  image := ["tools=libacl"]
  imageOverride := []
  release := some "44"
  distTag := ".fc44"
  targetCpu := "x86_64"
  stages := ⟨2, PyInt.legible_of_small (by decide)⟩
  probe := none

def aclBinary (name source version digest : String) (provides requires : List String) :
    PackageRecord where
  name := name
  arch := "x86_64"
  version := some version
  release := some "1"
  location := some (name ++ "-" ++ version ++ "-1.x86_64.rpm")
  checksum := some digest
  checksumType := some "sha256"
  provides := provides
  requires := requires
  sourcerpm := some (source ++ "-" ++ version ++ "-1.src.rpm")
  repo := some "fedora"

def aclSource (name version digest : String) (requires : List String) : PackageRecord where
  name := name
  arch := "src"
  version := some version
  release := some "1"
  location := some (name ++ "-" ++ version ++ "-1.src.rpm")
  checksum := some digest
  checksumType := some "sha256"
  requires := requires
  repo := some "fedora"

def aclSolver : Solver where
  args := aclArgs
  lines := []
  inputs := ⟨["acl", "attr", "tar"], Dict.empty,
    Dict.single "acl-compat" ⟨"acl", "2.3.2-1", ["tar"]⟩, Dict.single "tools" ["libacl"],
    Dict.empty⟩
  reads := rfl
  repodata :=
    { binary :=
        [("fedora", [aclBinary "bash" "bash" "5.3" "b0" buildsysBuild [],
            aclBinary "libacl" "acl" "2.3.2" "b1" ["libacl"] ["libattr"],
            aclBinary "libattr" "attr" "2.5.2" "b2" ["libattr"] [],
            aclBinary "perl" "perl" "5.42" "b3" ["perl"] []]),
          ("updates", [aclBinary "libacl" "acl" "2.4.0" "b4" ["libacl"] ["libattr"]])]
      buildroot := []
      source :=
        [("fedora", [aclSource "acl" "2.3.2" "a1" ["libattr"],
            aclSource "attr" "2.5.2" "a2" ["libacl", "perl"],
            aclSource "tar" "1.35" "a3" ["libacl"]]),
          ("updates", [aclSource "acl" "2.4.0" "a4" ["libattr"]])] }

theorem acl_solved : Solved aclSolver Dict.empty true (aclSolver.lock Dict.empty []) [] := by
  refine ⟨rfl, ⟨_, planBuildOrder_eq_ok.mpr ⟨.inl (by decide), rfl⟩⟩, rfl,
    fun _ => ⟨?_, ?_, ?_⟩, rfl⟩
  · decide +kernel
  · decide +kernel
  · decide +kernel

def aclSeed (name version sha256 : String) : RpmEntry where
  name := name
  evr := version ++ "-1"
  arch := "x86_64"
  location := name ++ "-" ++ version ++ "-1.x86_64.rpm"
  sha256 := sha256
  repo := "fedora"
  target := "rpm-" ++ name ++ "-" ++ version ++ "-1-x86_64"

def aclEntry (name source version sha256 : String) : SourceEntry where
  name := name
  evr := version ++ "-1"
  location := source ++ "-" ++ version ++ "-1.src.rpm"
  sha256 := sha256
  repo := "fedora"
  target := "srpm-" ++ name

/-- The module of that solve: the cycle is staged, and tar has the older libacl, from its
    recipe and from its pin. -/
def aclData : ReleaseData where
  seedRpms := [aclSeed "bash" "5.3" "b0", aclSeed "libattr" "2.5.2" "b2",
    aclSeed "perl" "5.42" "b3", aclSeed "libacl" "2.4.0" "b4"]
  baseSeed := ["bash"]
  imageSets := Dict.single "tools" [aclSeed "libattr" "2.5.2" "b2", aclSeed "libacl" "2.4.0" "b4"]
  sourceRpms := [aclEntry "acl" "acl" "2.4.0" "a4", aclEntry "acl-compat" "acl" "2.3.2" "a1",
    aclEntry "attr" "attr" "2.5.2" "a2", aclEntry "tar" "tar" "1.35" "a3"]
  recipes :=
    [⟨"acl", "acl", "2.4.0-1", ["libacl"], ["libattr"], [], none, Dict.empty, Dict.empty⟩,
      ⟨"acl-compat", "acl", "2.3.2-1", ["libacl"], ["libattr"], [], some "acl", Dict.empty,
        Dict.empty⟩,
      ⟨"attr", "attr", "2.5.2-1", ["libattr"], ["libacl", "libattr"], ["perl"], none, Dict.empty,
        Dict.empty⟩,
      ⟨"tar", "tar", "1.35-1", [], ["libacl", "libattr"], [], none,
        Dict.single "libacl" "acl-compat",
        Dict.single "libacl" "rpm-libacl-2.3.2-1-x86_64"⟩]
  staged :=
    [⟨"acl", 1, "acl-stage1", "seed", ["attr"], false⟩,
      ⟨"attr", 1, "attr-stage1", "seed", ["acl"], false⟩,
      ⟨"acl", 2, "acl-stage2", "stage1", ["attr"], true⟩,
      ⟨"attr", 2, "attr-stage2", "stage1", ["acl"], true⟩]
  variantSeedRpms := [aclSeed "libacl" "2.3.2" "b1"]
  release := "44".toList
  distTag := ".fc44"
  targetCpu := "x86_64"
  repoBase := Dict.single "fedora" "https://dl.fedoraproject.org/pub/fedora/linux/releases/44"

theorem acl_collected : collect (aclSolver.lock Dict.empty []) = some aclData.toGenerated := by
  decide +kernel

theorem exists_of_isOk {α : Type} {x : Except String α} (h : x.isOk = true) :
    ∃ a, x = .ok a := by
  cases x with
  | error exc => cases h
  | ok a => exact ⟨a, rfl⟩

/-- The rules of that release, and an order to make them in. -/
theorem releaseRules_ordered_acl :
    ∃ rules, releaseRules .fedora {} aclData "-44".toList = .ok rules ∧
      ∃ order, order.Perm rules ∧ ∀ before rule after, order = before ++ rule :: after →
        ∀ l ∈ rule.labels, ∃ earlier ∈ before, earlier.label = l := by
  have hnamed : "" ∉ (aclSolver.lock Dict.empty []).packages.keys := by
    decide +kernel
  have hdistinct : DistinctRpms (aclSolver.lock Dict.empty []) := by
    refine ⟨?_, ?_⟩
    · decide +kernel
    · decide +kernel
  have hfiles : (rpmDownloads .fedora {} aclData "-44".toList).isOk = true := by
    decide +kernel
  have himages : (rpmImageRootfs {} aclData "-44".toList).isOk = true := by
    decide +kernel
  obtain ⟨files, hfiles⟩ := exists_of_isOk hfiles
  obtain ⟨images, himages⟩ := exists_of_isOk himages
  exact releaseRules_ordered (solveMain_eq_ok.mpr ⟨[], acl_solved⟩) acl_collected (by decide)
    hnamed hdistinct hfiles rfl himages List.mem_cons_self

end BuckosDistro.Family
