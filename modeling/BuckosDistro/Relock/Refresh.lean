/-
  A refresh and the solve it repeats (`tools/relock.py`, `tools/rpm_relock.py`).

  The replay is the same command line but for the order of the repeated flags: they are
  recorded sorted. That is harmless where the flags make a set. It is not where the last
  override of a capability counts, nor for the roots of an image set, whose order the closure
  reads. A variant that names no consumer, and a value that looks like an option, do not
  survive the command line at all.
-/
import BuckosDistro.Relock.Replay
import BuckosDistro.Solve.PackageSet

namespace BuckosDistro.Relock

open BuckosDistro.Lib BuckosDistro.Lib.Argparse BuckosDistro.Solve BuckosDistro.Policy

/-! ## Two runs of the solver -/

/-- The solver emits a lock: its checks pass, and the exceptions that the policy approves are
    recorded. -/
structure Emits (args : Args) (lines : List String) (inputs : Inputs) (lock : Recorded) :
    Prop where
  reads : readInputs args lines = .ok inputs
  recorded : ∃ exceptions, lock = recordInputs args inputs exceptions ∧
    if args.sourceImage = [] then exceptions = []
    else ∃ images producers policy, buildSourcePolicy images producers args.sourceException
      args.sourceImage = .ok policy ∧ exceptions = policy.exceptions

/-- A lock is replayed by the tool of its flavor, over repositories of the same kinds. -/
structure Replays (args : Args) (tool : Tool) (r : Replay) : Prop where
  tool : tool = .fedora → args.flavor = .fedora
  binary : ∃ repo ∈ r.repos, repo.kind = .binary
  source : (∃ repo ∈ r.repos, repo.kind = .source) ↔ args.sourcePrimary ≠ []

/-- Two exceptions tables that say the same of every package. -/
def SameExceptions (raws raws' : List RawException) : Prop :=
  ∀ exceptions, exceptionIndex raws = .ok exceptions →
    ∃ exceptions', exceptionIndex raws' = .ok exceptions' ∧
      ∀ package, exceptions'.get? package = exceptions.get? package

/-- The same effective inputs. -/
structure SameInputs (args args' : Args) (inputs inputs' : Inputs) : Prop where
  build : ∀ src, src ∈ inputs'.explicitBuild ↔ src ∈ inputs.explicitBuild
  overrides : ∀ cap, inputs'.overrides.get? cap = inputs.overrides.get? cap
  imageOverrides : ∀ image cap, (inputs'.imageOverrides.getD image Dict.empty).get? cap =
    (inputs.imageOverrides.getD image Dict.empty).get? cap
  images : ∀ image, image ∈ inputs'.imageRoots.keys ↔ image ∈ inputs.imageRoots.keys
  roots : ∀ image,
    SameRoots (inputs.imageRoots.getD image []) (inputs'.imageRoots.getD image [])
  variants : ∀ name, inputs'.sourceVariants.get? name = inputs.sourceVariants.get? name
  seedPackages : ∀ pkg, pkg ∈ args'.seedPackage ↔ pkg ∈ args.seedPackage
  seedOnly : args'.seedOnly = args.seedOnly
  stages : args'.stages = args.stages
  exceptions : SameExceptions args.sourceException args'.sourceException
  sourceImages : ∀ image, image ∈ args'.sourceImage ↔ image ∈ args.sourceImage
  prebuilt : ∀ src, src ∈ args'.prebuiltSource ↔ src ∈ args.prebuiltSource
  flavor : args'.flavor = args.flavor
  targetCpu : args'.targetCpu = args.targetCpu

/-- The replay is parsed, its checks pass, and its inputs are those of the solve. -/
def Faithful (args : Args) (inputs : Inputs) (lock : Recorded) (tool : Tool) (r : Replay) :
    Prop :=
  ∃ args' inputs', parseArgs (solveArgv tool lock r) = some args' ∧
    (∀ lines, readInputs args' lines = .ok inputs') ∧ SameInputs args args' inputs inputs'

/-- What a solve passes to its replay, but for the order of the flags. -/
def passedTexts (args : Args) (inputs : Inputs) (r : Replay) : List String :=
  [args.release.getD "None", args.distTag, args.targetCpu, r.out] ++
    (r.probe.filter (· ≠ "")).toList ++
    r.repos.flatMap (fun repo => [repo.name, repo.base, repo.path]) ++
    inputs.explicitBuild ++ args.override ++ args.image ++ args.imageOverride ++
    args.seedPackage ++ variantSpecs inputs.sourceVariants ++ args.sourceImage ++
    args.prebuiltSource

/-- The package of the last entry for a key. -/
def lastOf {κ : Type} [DecidableEq κ] (entries : List (κ × String)) (key : κ) :
    Option String := (Dict.valuesAt entries key).getLast?

/-- When a lock can be replayed. -/
structure Replayable (args : Args) (inputs : Inputs) (r : Replay) : Prop where
  values : ∀ text ∈ passedTexts args inputs r, takenForOption text = false
  consumed : ∀ name variant, inputs.sourceVariants.get? name = some variant →
    variant.consumers ≠ []
  overrides : ∀ cap, lastOf (overrideEntries (sorted args.override)) cap =
    lastOf (overrideEntries args.override) cap
  imageOverrides : ∀ image cap,
    lastOf (Dict.valuesAt (imageOverrideEntries inputs.imageRoots (sorted args.imageOverride))
      image) cap =
    lastOf (Dict.valuesAt (imageOverrideEntries inputs.imageRoots args.imageOverride) image) cap
  roots : ∀ image, (rootsOf (sorted args.image) image).dedup = (rootsOf args.image image).dedup

/-! ## What the replay reads -/

section Replay

variable {args : Args} {lines : List String} {inputs : Inputs} {items : List String}

theorem mem_variantSpecs {variants : Dict String SourceVariant} {spec : String} :
    spec ∈ variantSpecs variants ↔
      ∃ name variant, variants.get? name = some variant ∧ variantSpec name variant = spec := by
  unfold variantSpecs
  simp only [List.mem_filterMap, PyText.mem_sortedSet, Dict.mem_keys_iff, Option.map_eq_some_iff]
  constructor
  · rintro ⟨name, _, variant, hget, rfl⟩
    exact ⟨name, variant, hget, rfl⟩
  · rintro ⟨name, variant, hget, rfl⟩
    exact ⟨name, by rw [hget]; rfl, variant, hget, rfl⟩

/-- Every variant of the table was parsed. -/
theorem parsed_of_parseSourceVariants {variants : Dict String SourceVariant}
    (h : parseSourceVariants items = .ok variants) {name : String} {variant : SourceVariant}
    (hget : variants.get? name = some variant) : Parsed name variant := by
  have hall : ∀ name variant, variants.get? name = some variant → Parsed name variant := by
    refine Lists.foldlM_invariant (fun _ (variants : Dict String SourceVariant) =>
      ∀ name variant, variants.get? name = some variant → Parsed name variant) ?_ ?_ h
    · intro _ spec variants variants' hinv hstep name variant hg
      obtain ⟨entry, hparse, hstep⟩ := Lists.exists_of_bind hstep
      obtain rfl := Except.ok.inj hstep
      rw [Dict.get?_set] at hg
      split_ifs at hg with hname
      · obtain rfl := Option.some.inj hg
        rw [hname]
        exact parsed_of_parseSourceVariant hparse
      · exact hinv name variant hg
    · intro name variant hg
      rw [Dict.get?_empty] at hg
      cases hg
  exact hall name variant hget

/-- The loop over the specifications, with the entries they stand for. -/
theorem parseSourceVariants_eq (specs : List String) :
    parseSourceVariants specs = specs.foldlM (fun variants spec => do
      let entry ← parseSourceVariant spec
      return variants.set entry.1 entry.2) Dict.empty := rfl

/-- The variants that are printed are read back when each names a consumer. -/
theorem parse_variantSpecs {variants : Dict String SourceVariant}
    (h : parseSourceVariants items = .ok variants) :
    (∃ variants', parseSourceVariants (variantSpecs variants) = .ok variants') ↔
      ∀ name variant, variants.get? name = some variant → variant.consumers ≠ [] := by
  rw [parseSourceVariants_eq, Lists.exists_foldlM_iff]
  constructor
  · intro hread name variant hget hnone
    obtain ⟨entry, hentry⟩ := hread _ (mem_variantSpecs.mpr ⟨name, variant, hget, rfl⟩)
    rw [parse_variantSpec (parsed_of_parseSourceVariants h hget), if_pos hnone] at hentry
    cases hentry
  · intro hconsumed spec hspec
    obtain ⟨name, variant, hget, rfl⟩ := mem_variantSpecs.mp hspec
    refine ⟨(name, variant), ?_⟩
    rw [parse_variantSpec (parsed_of_parseSourceVariants h hget),
      if_neg (hconsumed name variant hget)]

theorem get?_variantSpecs {variants variants' : Dict String SourceVariant}
    (h : parseSourceVariants items = .ok variants)
    (h' : parseSourceVariants (variantSpecs variants) = .ok variants') (name : String) :
    variants'.get? name = variants.get? name := by
  have hconsumed := (parse_variantSpecs h).mp ⟨variants', h'⟩
  rw [parseSourceVariants_eq] at h'
  have hloop := Lists.foldlM_eq_readable h'
  rw [hloop, Dict.get?_foldl_pairs, Dict.get?_empty, Option.or_none]
  have hentry : ∀ entry, entry ∈ Lists.readable parseSourceVariant (variantSpecs variants) ↔
      variants.get? entry.1 = some entry.2 := by
    intro entry
    unfold Lists.readable
    rw [List.mem_filterMap]
    constructor
    · rintro ⟨spec, hspec, hread⟩
      obtain ⟨name, variant, hget, rfl⟩ := mem_variantSpecs.mp hspec
      rw [parse_variantSpec (parsed_of_parseSourceVariants h hget),
        if_neg (hconsumed name variant hget)] at hread
      obtain rfl := Option.some.inj hread
      exact hget
    · intro hget
      refine ⟨variantSpec entry.1 entry.2, mem_variantSpecs.mpr ⟨_, _, hget, rfl⟩, ?_⟩
      rw [parse_variantSpec (parsed_of_parseSourceVariants h hget),
        if_neg (hconsumed _ _ hget)]
      rfl
  exact Dict.getLast?_valuesAt hentry name

theorem parse_sorted {β : Type} {read : String → Except String β} :
    (∀ item ∈ sorted items, ∃ b, read item = .ok b) ↔ ∀ item ∈ items, ∃ b, read item = .ok b := by
  simp only [mem_sorted]

theorem mem_imageEntries_sorted {entry : String × List String} :
    entry ∈ imageEntries (sorted items) ↔ entry ∈ imageEntries items := by
  unfold imageEntries Lists.readable
  simp only [List.mem_filterMap, mem_sorted]

/-- Sorted flags define the same image sets. -/
theorem mem_keys_sorted {imageRoots imageRoots' : Dict String (List String)}
    (h : readImages items = .ok imageRoots) (h' : readImages (sorted items) = .ok imageRoots')
    (image : String) : image ∈ imageRoots'.keys ↔ image ∈ imageRoots.keys := by
  have hkeys : ∀ (items : List String) (roots : Dict String (List String)),
      readImages items = .ok roots →
      (image ∈ roots.keys ↔ ∃ entry ∈ imageEntries items, entry.1 = image) := by
    intro items roots h
    rw [Dict.mem_keys_iff, get?_readImages h]
    constructor
    · intro hsome
      split_ifs at hsome with hnil
      · cases hsome
      · obtain ⟨roots, hroots⟩ := List.exists_mem_of_ne_nil _ hnil
        exact ⟨(image, roots), Dict.mem_valuesAt.mp hroots, rfl⟩
    · rintro ⟨entry, hentry, rfl⟩
      have hmem :
          entry.2 ∈ Dict.valuesAt (imageEntries items) entry.1 := Dict.mem_valuesAt.mpr hentry
      rw [if_neg (List.ne_nil_of_mem hmem)]
      rfl
  rw [hkeys _ _ h', hkeys _ _ h]
  simp only [mem_imageEntries_sorted]

/-- An image override is read by the names of the image sets alone. -/
theorem parseImageOverride_congr {imageRoots imageRoots' : Dict String (List String)}
    (h : ∀ image, image ∈ imageRoots'.keys ↔ image ∈ imageRoots.keys) :
    parseImageOverride imageRoots' = parseImageOverride imageRoots := by
  funext item
  unfold parseImageOverride
  simp only [h, PyText.sortedSet_congr h]

variable {lock : Recorded} {tool : Tool} {r : Replay}

theorem passed_iff {exceptions : List SourceException} :
    (∀ text ∈ replayedTexts (recordInputs args inputs exceptions) r, takenForOption text = false) ↔
      ∀ text ∈ passedTexts args inputs r, takenForOption text = false := by
  unfold replayedTexts passedTexts recordInputs
  simp only [List.forall_mem_append, PyText.mem_sortedSet, mem_sorted]

theorem nil_iff_of_mem {xs ys : List String} (h : ∀ x, x ∈ xs ↔ x ∈ ys) : xs = [] ↔ ys = [] := by
  simp only [List.eq_nil_iff_forall_not_mem, h]

/-- The checks pass again. -/
theorem checkBuild_replay (h : Emits args lines inputs lock) (hr : Replays args tool r) :
    checkBuild (replayArgs args.flavor lock r) (PyText.sortedSet inputs.explicitBuild) =
      .ok () := by
  obtain ⟨exceptions, rfl, hexceptions⟩ := h.recorded
  have hreads := readInputs_eq_ok.mp h.reads
  rw [← hreads.checked]
  refine checkBuild_congr (fun src => PyText.mem_sortedSet) ?_ rfl ?_ ?_
    (fun src => PyText.mem_sortedSet) ?_
  · exact nil_iff_of_mem fun image => PyText.mem_sortedSet
  · exact nil_iff_of_mem fun pkg => mem_sorted
  · show (r.repos.filter (·.kind = .source)).map Repo.path = [] ↔ args.sourcePrimary = []
    rw [List.map_eq_nil_iff, List.filter_eq_nil_iff, ← not_iff_not, ← ne_eq, ← hr.source]
    simp
  · intro hnone
    have hnone' : args.sourceImage = [] :=
      (@nil_iff_of_mem args.sourceImage _ fun image => PyText.mem_sortedSet.symm).mpr hnone
    rw [if_pos hnone'] at hexceptions
    have hunused := sourceException_of_checked hreads.checked hnone'
    show exceptions.map rawException = [] ↔ _
    rw [hexceptions, hunused]
    simp

/-- The replay is read when every variant can be printed. -/
theorem reads_replay (h : Emits args lines inputs lock) (hr : Replays args tool r) :
    (∃ inputs', ∀ lines, readInputs (replayArgs args.flavor lock r) lines = .ok inputs') ↔
      ∀ name variant, inputs.sourceVariants.get? name = some variant →
        variant.consumers ≠ [] := by
  have hchecked := checkBuild_replay h hr
  obtain ⟨exceptions, rfl, _⟩ := h.recorded
  have hreads := readInputs_eq_ok.mp h.reads
  rw [← parse_variantSpecs hreads.variants]
  constructor
  · rintro ⟨inputs', hread⟩
    exact ⟨inputs'.sourceVariants, (readInputs_eq_ok.mp (hread [])).variants⟩
  · rintro ⟨variants, hvariants⟩
    obtain ⟨overrides, hoverrides⟩ : ∃ overrides, readOverrides (sorted args.override) =
        .ok overrides :=
      Lists.exists_foldlM_iff.mpr (parse_sorted.mpr (Lists.exists_foldlM_iff.mp
        ⟨_, hreads.overrides⟩))
    obtain ⟨images, himages⟩ : ∃ images, readImages (sorted args.image) = .ok images :=
      Lists.exists_foldlM_iff.mpr (parse_sorted.mpr (Lists.exists_foldlM_iff.mp
        ⟨_, hreads.images⟩))
    obtain ⟨imageOverrides, himageOverrides⟩ : ∃ imageOverrides,
        readImageOverrides images (sorted args.imageOverride) = .ok imageOverrides := by
      refine Lists.exists_foldlM_iff.mpr (parse_sorted.mpr ?_)
      rw [parseImageOverride_congr (mem_keys_sorted hreads.images himages)]
      exact Lists.exists_foldlM_iff.mp ⟨_, hreads.imageOverrides⟩
    refine ⟨⟨PyText.sortedSet inputs.explicitBuild, overrides, variants, images, imageOverrides⟩,
      fun lines => readInputs_eq_ok.mpr ?_⟩
    refine ⟨?_, hchecked, hoverrides, hvariants, himages, himageOverrides⟩
    exact (List.append_nil _).symm

/-- What the order of the flags decides. -/
theorem sameInputs_iff (h : Emits args lines inputs lock) {inputs' : Inputs}
    (hread : readInputs (replayArgs args.flavor lock r) [] = .ok inputs') :
    SameInputs args (replayArgs args.flavor lock r) inputs inputs' ↔
      (∀ cap, lastOf (overrideEntries (sorted args.override)) cap =
        lastOf (overrideEntries args.override) cap) ∧
      (∀ image cap, lastOf (Dict.valuesAt (imageOverrideEntries inputs.imageRoots
          (sorted args.imageOverride)) image) cap =
        lastOf (Dict.valuesAt (imageOverrideEntries inputs.imageRoots args.imageOverride) image)
          cap) ∧
      ∀ image, (rootsOf (sorted args.image) image).dedup = (rootsOf args.image image).dedup := by
  obtain ⟨exceptions, rfl, hexceptions⟩ := h.recorded
  have hreads := readInputs_eq_ok.mp h.reads
  have hreads' := readInputs_eq_ok.mp hread
  have himages' : readImages (sorted args.image) = .ok inputs'.imageRoots := hreads'.images
  have hkeys := mem_keys_sorted hreads.images himages'
  have hoverrides : ∀ cap, (inputs'.overrides.get? cap = inputs.overrides.get? cap ↔
      lastOf (overrideEntries (sorted args.override)) cap =
        lastOf (overrideEntries args.override) cap) := by
    intro cap
    rw [get?_readOverrides hreads'.overrides, get?_readOverrides hreads.overrides]
    rfl
  have himageOverrides : ∀ image cap, ((inputs'.imageOverrides.getD image Dict.empty).get? cap =
      (inputs.imageOverrides.getD image Dict.empty).get? cap ↔
      lastOf (Dict.valuesAt (imageOverrideEntries inputs.imageRoots
          (sorted args.imageOverride)) image) cap =
        lastOf (Dict.valuesAt (imageOverrideEntries inputs.imageRoots args.imageOverride) image)
          cap) := by
    intro image cap
    rw [get?_readImageOverrides hreads'.imageOverrides,
      get?_readImageOverrides hreads.imageOverrides]
    unfold imageOverrideEntries
    rw [parseImageOverride_congr hkeys]
    rfl
  have hroots : ∀ image, (SameRoots (inputs.imageRoots.getD image [])
      (inputs'.imageRoots.getD image []) ↔
      (rootsOf (sorted args.image) image).dedup = (rootsOf args.image image).dedup) := by
    intro image
    rw [getD_readImages hreads.images, getD_readImages himages', sameRoots_iff]
    exact eq_comm
  constructor
  · intro hsame
    exact ⟨fun cap => (hoverrides cap).mp (hsame.overrides cap),
      fun image cap => (himageOverrides image cap).mp (hsame.imageOverrides image cap),
      fun image => (hroots image).mp (hsame.roots image)⟩
  · rintro ⟨hlast, himageLast, horder⟩
    refine ⟨?_, fun cap => (hoverrides cap).mpr (hlast cap),
      fun image cap => (himageOverrides image cap).mpr (himageLast image cap), hkeys,
      fun image => (hroots image).mpr (horder image),
      get?_variantSpecs hreads.variants hreads'.variants, fun pkg => mem_sorted, rfl, rfl, ?_,
      fun image => PyText.mem_sortedSet, fun src => PyText.mem_sortedSet, rfl, rfl⟩
    · intro src
      rw [hreads'.build]
      show src ∈ PyText.sortedSet inputs.explicitBuild ++ [] ↔ _
      rw [List.append_nil, PyText.mem_sortedSet]
    · intro table htable
      by_cases hnone : args.sourceImage = []
      · rw [if_pos hnone] at hexceptions
        rw [sourceException_of_checked hreads.checked hnone] at htable
        refine ⟨table, ?_, fun package => rfl⟩
        show exceptionIndex (exceptions.map rawException) = .ok table
        rw [hexceptions]
        exact htable
      · rw [if_neg hnone] at hexceptions
        obtain ⟨images, producers, policy, hpolicy, rfl⟩ := hexceptions
        obtain ⟨table₀, table', htable₀, htable', hsame⟩ := exceptionIndex_recorded hpolicy
        rw [htable] at htable₀
        obtain rfl := Except.ok.inj htable₀
        exact ⟨table', htable', hsame⟩

end Replay

/-- **When a refresh repeats its solve.** -/
theorem refresh_faithful_iff (args : Args) (lines : List String) (inputs : Inputs)
    (lock : Recorded) (tool : Tool) (r : Replay) :
    (Emits args lines inputs lock → Replays args tool r → Faithful args inputs lock tool r) ↔
      (Emits args lines inputs lock → Replays args tool r → Replayable args inputs r) := by
  refine forall_congr' fun h => forall_congr' fun hr => ?_
  have hflavor : lock.flavor = args.flavor.text := by
    obtain ⟨_, rfl, _⟩ := h.recorded
    rfl
  have hparse := parse_solveArgv tool args.flavor hflavor hr.tool hr.binary
  have hpassed : (∀ text ∈ replayedTexts lock r, takenForOption text = false) ↔
      ∀ text ∈ passedTexts args inputs r, takenForOption text = false := by
    obtain ⟨_, rfl, _⟩ := h.recorded
    exact passed_iff
  constructor
  · rintro ⟨args', inputs', hargs, hread, hsame⟩
    rw [hparse] at hargs
    split_ifs at hargs with hvalues
    obtain rfl := Option.some.inj hargs
    obtain ⟨hlast, himageLast, horder⟩ := (sameInputs_iff h (hread [])).mp hsame
    exact ⟨hpassed.mp hvalues, (reads_replay h hr).mp ⟨inputs', hread⟩, hlast, himageLast, horder⟩
  · intro hok
    obtain ⟨inputs', hread⟩ := (reads_replay h hr).mpr hok.consumed
    refine ⟨_, inputs', ?_, hread, (sameInputs_iff h (hread [])).mpr
      ⟨hok.overrides, hok.imageOverrides, hok.roots⟩⟩
    rw [hparse, if_pos (hpassed.mpr hok.values)]

/-- Two roots of the seed and of an image, and overrides of each awk and of a shell, given in
    another order than they are recorded in. -/
def shellArgs : Args where
  sourcePrimary := []
  build := []
  buildList := none
  sourceImage := []
  prebuiltSource := []
  sourceException := []
  flavor := .fedora
  seedOnly := false
  seedPackage := ["gawk", "bash"]
  override := ["awk=gawk", "(sh or dash)=ash"]
  sourceVariant := []
  image := ["live=bash", "base=bash", "base=mawk"]
  imageOverride := ["live:awk=gawk", "base:awk=mawk"]
  release := some "44"
  distTag := ".fc44"
  targetCpu := "x86_64"
  stages := defaultStages
  probe := none

def shellInputs : Inputs where
  explicitBuild := []
  overrides := ⟨[("awk", "gawk"), ("(sh or dash)", "ash")]⟩
  sourceVariants := Dict.empty
  imageRoots := ⟨[("live", ["bash"]), ("base", ["bash", "mawk"])]⟩
  imageOverrides := ⟨[("live", Dict.single "awk" "gawk"), ("base", Dict.single "awk" "mawk")]⟩

def shellReplay : Replay where
  repos := [⟨.binary, "fedora", "https://fedora.invalid", "primary.xml"⟩]
  out := "44.lock"
  probe := none
  strict := true

theorem shell_replayable : Replayable shellArgs shellInputs shellReplay := by
  have hconsumed : ∀ name variant, shellInputs.sourceVariants.get? name = some variant →
      variant.consumers ≠ [] := by
    intro name variant hget
    cases hget
  refine ⟨by decide +kernel, hconsumed, fun cap => ?_, fun image cap => ?_, fun image => ?_⟩
  · have hgiven : overrideEntries shellArgs.override =
        [("awk", "gawk"), ("(sh or dash)", "ash")] := by
      decide +kernel
    have hsorted : overrideEntries (sorted shellArgs.override) =
        [("(sh or dash)", "ash"), ("awk", "gawk")] := by
      decide +kernel
    rw [hgiven, hsorted]
    unfold lastOf
    simp only [Dict.valuesAt_cons]
    by_cases hcap : "awk" = cap
    · subst hcap
      rfl
    · rw [if_neg hcap, if_neg hcap]
  · have hgiven : imageOverrideEntries shellInputs.imageRoots
        shellArgs.imageOverride = [("live", "awk", "gawk"), ("base", "awk", "mawk")] := by
      decide +kernel
    have hsorted : imageOverrideEntries shellInputs.imageRoots
        (sorted shellArgs.imageOverride) =
        [("base", "awk", "mawk"), ("live", "awk", "gawk")] := by
      decide +kernel
    rw [hgiven, hsorted]
    simp only [Dict.valuesAt_cons]
    by_cases himage : "live" = image
    · subst himage
      rfl
    · rw [if_neg himage, if_neg himage]
  · have hgiven : imageEntries shellArgs.image =
        [("live", ["bash"]), ("base", ["bash"]), ("base", ["mawk"])] := by
      decide +kernel
    have hsorted : imageEntries (sorted shellArgs.image) =
        [("base", ["bash"]), ("base", ["mawk"]), ("live", ["bash"])] := by
      decide +kernel
    unfold rootsOf
    rw [hgiven, hsorted]
    simp only [Dict.valuesAt_cons]
    by_cases himage : "live" = image
    · subst himage
      rfl
    · rw [if_neg himage, if_neg himage]

/-- The refresh reads back every override and every root as the solve did. -/
theorem refresh_faithful_shell :
    Faithful shellArgs shellInputs (recordInputs shellArgs shellInputs []) .rpm shellReplay :=
  (refresh_faithful_iff shellArgs [] shellInputs (recordInputs shellArgs shellInputs []) .rpm
    shellReplay).mpr (fun _ _ => shell_replayable)
    ⟨rfl, [], rfl, (if_pos rfl).mpr rfl⟩
    ⟨fun h => absurd h (by decide), by decide, by decide⟩

/-- One capability with two overrides, the one that counts sorted first. -/
def twoShells : List (Argument RawException) :=
  ["--binary-primary", "primary.xml", "--source-primary", "source.xml", "--build", "acl",
    "--override", "/bin/sh=zsh", "--override", "/bin/sh=bash", "--release", "43",
    "--out", "43.lock"].map .text

def twoShellsArgs : Args where
  sourcePrimary := ["source.xml"]
  build := ["acl"]
  buildList := none
  sourceImage := []
  prebuiltSource := []
  sourceException := []
  flavor := .fedora
  seedOnly := false
  seedPackage := []
  override := ["/bin/sh=zsh", "/bin/sh=bash"]
  sourceVariant := []
  image := []
  imageOverride := []
  release := some "43"
  distTag := ""
  targetCpu := "x86_64"
  stages := defaultStages
  probe := none

def twoShellsInputs : Inputs where
  explicitBuild := ["acl"]
  overrides := Dict.single "/bin/sh" "bash"
  sourceVariants := Dict.empty
  imageRoots := Dict.empty
  imageOverrides := Dict.empty

def twoShellsReplay : Replay where
  repos := [⟨.binary, "releases", "https://dl.fedoraproject.org/os", "primary.xml"⟩,
    ⟨.source, "source", "https://dl.fedoraproject.org/source", "source.xml"⟩]
  out := "43.lock"
  probe := none
  strict := false

/-- The solve takes `bash`, and its refresh `zsh`. -/
theorem override_flipped_by_refresh :
    parseArgs twoShells = some twoShellsArgs ∧
      Emits twoShellsArgs [] twoShellsInputs (recordInputs twoShellsArgs twoShellsInputs []) ∧
      Replays twoShellsArgs .fedora twoShellsReplay ∧
      ¬ Faithful twoShellsArgs twoShellsInputs (recordInputs twoShellsArgs twoShellsInputs [])
        .fedora twoShellsReplay := by
  have hemits : Emits twoShellsArgs [] twoShellsInputs
      (recordInputs twoShellsArgs twoShellsInputs []) :=
    ⟨by rfl, [], rfl, (if_pos (by rfl)).mpr rfl⟩
  have hreplays : Replays twoShellsArgs .fedora twoShellsReplay :=
    ⟨fun _ => rfl, ⟨_, List.mem_cons_self .., rfl⟩, by decide⟩
  refine ⟨by decide +kernel, hemits, hreplays, ?_⟩
  rintro ⟨args', inputs', hargs, hread, hsame⟩
  rw [parse_solveArgv .fedora .fedora rfl (fun _ => rfl) hreplays.binary] at hargs
  split_ifs at hargs
  obtain rfl := Option.some.inj hargs
  have hlast := ((sameInputs_iff hemits (hread [])).mp hsame).1 "/bin/sh"
  exact absurd hlast (by decide +kernel)

end BuckosDistro.Relock
