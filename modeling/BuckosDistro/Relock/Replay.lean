/-
  The recorded inputs of a solve and their replay (`tools/solve.py`, `emit_lockfile`;
  `tools/relock.py` and `tools/rpm_relock.py`, `solve_argv`).

  Flags are recorded sorted and variants printed again; the replay passes each recorded
  value after its option. What the solver's parser makes of that is computed here for both
  replays at once (`parse_solveArgv`).
-/
import BuckosDistro.Policy.Recorded
import BuckosDistro.Relock.Inputs
import BuckosDistro.Relock.Reprint

namespace BuckosDistro.Relock

open BuckosDistro.Lib BuckosDistro.Lib.Argparse BuckosDistro.Solve BuckosDistro.Policy

/-! ## The record -/

/-- `sorted(items)` -/
def sorted (items : List String) : List String := items.insertionSort (· ≤ ·)

@[simp] theorem mem_sorted {items : List String} {item : String} :
    item ∈ sorted items ↔ item ∈ items := (List.perm_insertionSort _ items).mem_iff

/-- What a lock says of its solve: `solve`, and what else the replay reads. -/
structure Recorded where
  flavor : String
  release : Option String
  distTag : String
  targetCpu : String
  explicitBuild : List String
  sourceImageSets : List String
  prebuiltSources : List String
  overrides : List String
  seedOnly : Bool
  seedPackages : List String
  sourceVariants : List String
  stages : PyInt.LegibleInt
  images : List String
  imageOverrides : List String
  sourceExceptions : List SourceException

/-- The variants of a lock, printed. -/
def variantSpecs (variants : Dict String SourceVariant) : List String :=
  (PyText.sortedSet variants.keys).filterMap fun name =>
    (variants.get? name).map (variantSpec name)

/-- The solve inputs of `emit_lockfile`. -/
def recordInputs (args : Args) (inputs : Inputs) (exceptions : List SourceException) :
    Recorded where
  flavor := args.flavor.text
  release := args.release
  distTag := args.distTag
  targetCpu := args.targetCpu
  explicitBuild := PyText.sortedSet inputs.explicitBuild
  sourceImageSets := PyText.sortedSet args.sourceImage
  prebuiltSources := PyText.sortedSet args.prebuiltSource
  overrides := sorted args.override
  seedOnly := args.seedOnly
  seedPackages := sorted args.seedPackage
  sourceVariants := variantSpecs inputs.sourceVariants
  stages := args.stages
  images := sorted args.image
  imageOverrides := sorted args.imageOverride
  sourceExceptions := exceptions

/-! ## The replay -/

/-- A repository as the replay is handed it. -/
structure Repo where
  kind : Kind
  name : String
  base : String
  path : String
deriving DecidableEq, Repr

/-- What a replay is handed besides the lock. -/
structure Replay where
  repos : List Repo
  out : String
  probe : Option String
  strict : Bool

/-- An option with its value. -/
def option (flag value : String) : String × Option (Argument RawException) :=
  (flag, some (.text value))

/-- The options of one repository. -/
def repoOptions (repo : Repo) : Given :=
  [option ("--" ++ repo.kind.text ++ "-repo") repo.name,
    option ("--" ++ repo.kind.text ++ "-base") repo.base,
    option ("--" ++ repo.kind.text ++ "-primary") repo.path]

/-- `if probe: argv += ["--probe", probe]` -/
def probeOptions (probe : Option String) : Given :=
  (probe.filter (· ≠ "")).toList.map (option "--probe")

/-- `if on: argv.append(flag)` -/
def switchOptions (flag : String) (on : Bool) : Given := if on then [(flag, none)] else []

/-- Each exception as `json.dumps` writes its record. -/
def exceptionOptions (exceptions : List SourceException) : Given :=
  exceptions.map fun exception =>
    ("--source-exception", some (.json (rawException exception)))

/-- The options of `solve_argv` in `relock.py`. -/
def fedoraOptions (lock : Recorded) (r : Replay) : Given :=
  [option "--release" (lock.release.getD "None"), option "--dist-tag" lock.distTag,
    option "--target-cpu" lock.targetCpu, option "--stages" lock.stages.val.repr,
    option "--out" r.out] ++
  probeOptions r.probe ++
  r.repos.flatMap repoOptions ++
  switchOptions "--seed-only" lock.seedOnly ++
  lock.explicitBuild.map (option "--build") ++
  exceptionOptions lock.sourceExceptions ++
  lock.overrides.map (option "--override") ++
  lock.images.map (option "--image") ++
  lock.imageOverrides.map (option "--image-override") ++
  lock.seedPackages.map (option "--seed-package") ++
  lock.sourceVariants.map (option "--source-variant") ++
  lock.sourceImageSets.map (option "--source-image") ++
  lock.prebuiltSources.map (option "--prebuilt-source")

/-- The options of `solve_argv` in `rpm_relock.py`. -/
def rpmOptions (lock : Recorded) (r : Replay) : Given :=
  [option "--flavor" lock.flavor, option "--release" (lock.release.getD "None"),
    option "--dist-tag" lock.distTag, option "--target-cpu" lock.targetCpu,
    option "--stages" lock.stages.val.repr, option "--out" r.out] ++
  probeOptions r.probe ++
  switchOptions "--seed-only" lock.seedOnly ++
  r.repos.flatMap repoOptions ++
  lock.explicitBuild.map (option "--build") ++
  exceptionOptions lock.sourceExceptions ++
  lock.seedPackages.map (option "--seed-package") ++
  lock.overrides.map (option "--override") ++
  lock.images.map (option "--image") ++
  lock.imageOverrides.map (option "--image-override") ++
  lock.sourceVariants.map (option "--source-variant") ++
  lock.sourceImageSets.map (option "--source-image") ++
  lock.prebuiltSources.map (option "--prebuilt-source") ++
  switchOptions "--strict" r.strict

/-- The two tools that replay a lock. -/
inductive Tool
  | fedora
  | rpm
deriving DecidableEq, Repr

def Tool.options : Tool → Recorded → Replay → Given
  | fedora => fedoraOptions
  | rpm => rpmOptions

/-- `solve_argv` -/
def solveArgv (tool : Tool) (lock : Recorded) (r : Replay) : List (Argument RawException) :=
  (tool.options lock r).flatMap Options.arguments

/-! ## What the parser makes of it -/

/-- The namespace of a replay. -/
def replayArgs (flavor : Flavor) (lock : Recorded) (r : Replay) : Args where
  sourcePrimary := (r.repos.filter (·.kind = .source)).map Repo.path
  build := lock.explicitBuild
  buildList := none
  sourceImage := lock.sourceImageSets
  prebuiltSource := lock.prebuiltSources
  sourceException := lock.sourceExceptions.map rawException
  flavor := flavor
  seedOnly := lock.seedOnly
  seedPackage := lock.seedPackages
  override := lock.overrides
  sourceVariant := lock.sourceVariants
  image := lock.images
  imageOverride := lock.imageOverrides
  release := some (lock.release.getD "None")
  distTag := lock.distTag
  targetCpu := lock.targetCpu
  stages := lock.stages
  probe := r.probe.filter (· ≠ "")

namespace Given

@[simp] theorem texts_nil (flag : String) : texts flag [] = [] := rfl

@[simp] theorem texts_append (flag : String) (entries entries' : Given) :
    texts flag (entries ++ entries') = texts flag entries ++ texts flag entries' := by
  unfold texts
  rw [given_append, List.filterMap_append]

@[simp] theorem texts_cons (flag other : String) (value : Option (Argument RawException))
    (entries : Given) :
    texts flag ((other, value) :: entries) =
      if other = flag then (value.bind Argument.text?).toList ++ texts flag entries
      else texts flag entries := by
  unfold texts
  rw [given_cons]
  split_ifs
  · rw [List.filterMap_append]
    cases value with
    | none => rfl
    | some value => cases value <;> rfl
  · rfl

@[simp] theorem texts_map (flag other : String) (items : List String) :
    texts flag (items.map (option other)) = if other = flag then items else [] := by
  unfold texts option
  rw [given_map]
  split_ifs
  · rw [List.filterMap_map]
    exact List.filterMap_some
  · rfl

@[simp] theorem has_append (flag : String) (entries entries' : Given) :
    has flag (entries ++ entries') = (has flag entries || has flag entries') :=
  List.any_append

@[simp] theorem has_nil (flag : String) : has flag [] = false := rfl

@[simp] theorem has_cons (flag other : String) (value : Option (Argument RawException))
    (entries : Given) :
    has flag ((other, value) :: entries) = (decide (other = flag) || has flag entries) := rfl

@[simp] theorem has_map (flag other : String) (h : other ≠ flag) (items : List String) :
    has flag (items.map (option other)) = false := by
  unfold has option
  simp [h]

@[simp] theorem texts_option_cons (flag other value : String) (entries : Given) :
    texts flag (option other value :: entries) =
      if other = flag then value :: texts flag entries else texts flag entries :=
  texts_cons flag other (some (.text value)) entries

@[simp] theorem has_option_cons (flag other value : String) (entries : Given) :
    has flag (option other value :: entries) = (decide (other = flag) || has flag entries) := rfl

end Given

section Replay

variable {lock : Recorded} {r : Replay}

/-- The options a repository is passed with. -/
def repoFlags : List String :=
  ["--binary-repo", "--binary-base", "--binary-primary", "--source-repo", "--source-base",
    "--source-primary", "--buildroot-repo", "--buildroot-base", "--buildroot-primary"]

theorem texts_repoOptions (flag : String) (h : flag ∉ repoFlags) (repos : List Repo) :
    Given.texts flag (repos.flatMap repoOptions) = [] := by
  simp only [repoFlags, List.mem_cons, List.not_mem_nil, or_false, not_or] at h
  obtain ⟨h1, h2, h3, h4, h5, h6, h7, h8, h9⟩ := h
  induction repos with
  | nil => rfl
  | cons repo repos ih =>
    rw [List.flatMap_cons, Given.texts_append, ih, List.append_nil]
    unfold repoOptions
    cases repo.kind <;>
      simp [Kind.text, Ne.symm h1, Ne.symm h2, Ne.symm h3, Ne.symm h4, Ne.symm h5, Ne.symm h6,
        Ne.symm h7, Ne.symm h8, Ne.symm h9]

theorem has_repoOptions (flag : String) (repos : List Repo)
    (h : flag ∈ ["-h", "--help", "--seed-only"]) :
    Given.has flag (repos.flatMap repoOptions) = false := by
  induction repos with
  | nil => rfl
  | cons repo repos ih =>
    rw [List.flatMap_cons, Given.has_append, ih, Bool.or_false]
    unfold repoOptions option
    simp only [List.mem_cons, List.not_mem_nil, or_false] at h
    rcases h with rfl | rfl | rfl <;> cases repo.kind <;> rfl

theorem given_repoOptions (repos : List Repo) :
    given "--source-exception" (repos.flatMap repoOptions) = [] := by
  induction repos with
  | nil => rfl
  | cons repo repos ih =>
    rw [List.flatMap_cons, given_append, ih, List.append_nil]
    unfold repoOptions option
    cases repo.kind <;> rfl

/-- The paths of the repositories of a kind. -/
theorem texts_primary (kind : Kind) (repos : List Repo) :
    Given.texts ("--" ++ kind.text ++ "-primary") (repos.flatMap repoOptions) =
      (repos.filter (·.kind = kind)).map Repo.path := by
  induction repos with
  | nil => rfl
  | cons repo repos ih =>
    rw [List.flatMap_cons, Given.texts_append, ih, List.filter_cons]
    unfold repoOptions option
    obtain ⟨k, name, base, path⟩ := repo
    cases k <;> cases kind <;> rfl

@[simp] theorem texts_exceptionOptions (flag : String) (exceptions : List SourceException) :
    Given.texts flag (exceptionOptions exceptions) = [] := by
  unfold Given.texts exceptionOptions
  rw [given_map]
  split_ifs
  · induction exceptions with
    | nil => rfl
    | cons exception exceptions ih => exact ih
  · rfl

@[simp] theorem given_exceptionOptions (flag : String) (exceptions : List SourceException) :
    given flag (exceptionOptions exceptions) =
      if "--source-exception" = flag then
        exceptions.map fun exception => .json (rawException exception)
      else [] := by
  unfold exceptionOptions
  rw [given_map]

@[simp] theorem has_exceptionOptions (flag : String) (h : "--source-exception" ≠ flag)
    (exceptions : List SourceException) : Given.has flag (exceptionOptions exceptions) = false := by
  unfold Given.has exceptionOptions
  simp [h]

@[simp] theorem given_options (flag other : String) (h : other ≠ flag) (items : List String) :
    given flag (items.map (option other)) = [] := by
  unfold option
  rw [given_map, if_neg h]

@[simp] theorem given_option_cons (flag other value : String) (entries : Given) :
    given flag (option other value :: entries) =
      if other = flag then .text value :: given flag entries else given flag entries :=
  given_cons flag other (some (.text value)) entries

@[simp] theorem texts_probeOptions (flag : String) (probe : Option String) :
    Given.texts flag (probeOptions probe) =
      if "--probe" = flag then (probe.filter (· ≠ "")).toList else [] := Given.texts_map ..

@[simp] theorem given_probeOptions (flag : String) (h : "--probe" ≠ flag) (probe : Option String) :
    given flag (probeOptions probe) = [] := given_options flag "--probe" h _

@[simp] theorem has_probeOptions (flag : String) (h : "--probe" ≠ flag) (probe : Option String) :
    Given.has flag (probeOptions probe) = false := Given.has_map flag "--probe" h _

@[simp] theorem given_switchOptions (flag other : String) (on : Bool) :
    given flag (switchOptions other on) = [] := by
  unfold switchOptions
  cases on
  · rfl
  · show given flag [(other, none)] = []
    rw [given_cons]
    split_ifs <;> rfl

@[simp] theorem texts_switchOptions (flag other : String) (on : Bool) :
    Given.texts flag (switchOptions other on) = [] := by
  unfold Given.texts
  rw [given_switchOptions]
  rfl

@[simp] theorem has_switchOptions (flag other : String) (on : Bool) :
    Given.has flag (switchOptions other on) = (on && decide (other = flag)) := by
  unfold switchOptions
  cases on
  · rfl
  · show (decide (other = flag) || false) = (true && decide (other = flag))
    rw [Bool.or_false, Bool.true_and]

theorem filterMap_json (exceptions : List SourceException) :
    (exceptions.map fun exception => Argument.json (rawException exception)).filterMap
      Argument.json? = exceptions.map rawException := by
  induction exceptions with
  | nil => rfl
  | cons exception exceptions ih => exact congrArg (rawException exception :: ·) ih

/-- Both replays give the namespace of the recorded inputs; only one of them passes the
    flavor. -/
theorem readArgs_options (tool : Tool) (flavor : Flavor) (hflavor : lock.flavor = flavor.text)
    (htool : tool = .fedora → flavor = .fedora)
    (hbinary : ∃ repo ∈ r.repos, repo.kind = .binary) :
    readArgs (tool.options lock r) = some (replayArgs flavor lock r) := by
  have hsource := texts_primary .source r.repos
  have hb := texts_primary .binary r.repos
  have hne : (r.repos.filter (·.kind = .binary)).map Repo.path ≠ [] := by
    obtain ⟨repo, hrepo, hkind⟩ := hbinary
    intro hnil
    rw [List.map_eq_nil_iff, List.filter_eq_nil_iff] at hnil
    exact hnil repo hrepo (decide_eq_true hkind)
  have hofText : Flavor.ofText? flavor.text = some flavor := by cases flavor <;> rfl
  have hall : ∀ exceptions : List SourceException,
      (exceptions.map fun exception => Argument.json (rawException exception)).all
        (fun value => value.json?.isSome) = true := by
    intro exceptions
    rw [List.all_eq_true]
    intro value hvalue
    obtain ⟨exception, _, rfl⟩ := List.mem_map.mp hvalue
    rfl
  simp only [Kind.text, String.reduceAppend] at hsource hb
  unfold Tool.options readArgs replayArgs
  cases tool with
  | fedora =>
    obtain rfl := htool rfl
    unfold fedoraOptions
    simp [hsource, hb, hne, Given.last?, guard, -List.all_map, hall, texts_repoOptions, repoFlags,
      has_repoOptions, given_repoOptions, PyInt.legible?_repr, filterMap_json, -List.filterMap_map]
    cases Option.filter _ r.probe <;> rfl
  | rpm =>
    unfold rpmOptions
    simp [hsource, hb, hne, Given.last?, guard, hflavor, hofText, -List.all_map, hall,
      texts_repoOptions, repoFlags, has_repoOptions, given_repoOptions, PyInt.legible?_repr,
      filterMap_json, -List.filterMap_map]
    cases Option.filter _ r.probe <;> rfl

/-! ## What it refuses -/

/-- The values the replay passes, but the flavor and the number of stages. -/
def replayedTexts (lock : Recorded) (r : Replay) : List String :=
  [lock.release.getD "None", lock.distTag, lock.targetCpu, r.out] ++
    (r.probe.filter (· ≠ "")).toList ++
    r.repos.flatMap (fun repo => [repo.name, repo.base, repo.path]) ++
    lock.explicitBuild ++ lock.overrides ++ lock.images ++ lock.imageOverrides ++
    lock.seedPackages ++ lock.sourceVariants ++ lock.sourceImageSets ++ lock.prebuiltSources

/-- An argument that the solver's parser takes for an option. -/
def takenForOption (text : String) : Bool := solveOptions.optionLike text.toList

section Known

/-- Options of the solver, with values where they take one. -/
def Known (entries : Given) : Prop := ∀ entry ∈ entries, solveOptions.Knows entry

theorem Known.append {entries entries' : Given} (h : Known entries) (h' : Known entries') :
    Known (entries ++ entries') := List.forall_mem_append.mpr ⟨h, h'⟩

theorem known_map {flag : String} (h : flag ∈ solveOptions.valued) (items : List String) :
    Known (items.map (option flag)) := by
  intro entry hentry
  obtain ⟨item, _, rfl⟩ := List.mem_map.mp hentry
  exact h

theorem known_exceptions (exceptions : List SourceException) :
    Known (exceptionOptions exceptions) := by
  intro entry hentry
  obtain ⟨item, _, rfl⟩ := List.mem_map.mp hentry
  show "--source-exception" ∈ solveOptions.valued
  decide

theorem known_switch {flag : String} (h : flag ∈ solveOptions.switches) (on : Bool) :
    Known (switchOptions flag on) := by
  intro entry hentry
  unfold switchOptions at hentry
  split_ifs at hentry
  · obtain rfl := List.mem_singleton.mp hentry
    exact h
  · cases hentry

theorem known_repos (repos : List Repo) : Known (repos.flatMap repoOptions) := by
  intro entry hentry
  obtain ⟨repo, _, hentry⟩ := List.mem_flatMap.mp hentry
  have hflags : ∀ kind : Kind, ∀ what ∈ ["-repo", "-base", "-primary"],
      "--" ++ kind.text ++ what ∈ solveOptions.valued := by
    intro kind
    cases kind <;> decide
  unfold repoOptions at hentry
  simp only [List.mem_cons, List.not_mem_nil, or_false] at hentry
  rcases hentry with rfl | rfl | rfl
  · exact hflags repo.kind "-repo" (by simp)
  · exact hflags repo.kind "-base" (by simp)
  · exact hflags repo.kind "-primary" (by simp)

theorem known_cons {flag : String} (h : flag ∈ solveOptions.valued) (value : String)
    {entries : Given} (hrest : Known entries) : Known (option flag value :: entries) :=
  List.forall_mem_cons.mpr ⟨h, hrest⟩

theorem known_options (tool : Tool) : Known (tool.options lock r) := by
  have hnil : Known [] := fun _ h => nomatch h
  have hshared : Known [option "--release" (lock.release.getD "None"),
      option "--dist-tag" lock.distTag, option "--target-cpu" lock.targetCpu,
      option "--stages" lock.stages.val.repr, option "--out" r.out] :=
    known_cons (by decide) _ (known_cons (by decide) _ (known_cons (by decide) _
      (known_cons (by decide) _ (known_cons (by decide) _ hnil))))
  have hprobe : Known (probeOptions r.probe) := known_map (by decide) _
  cases tool with
  | fedora =>
    show Known (fedoraOptions lock r)
    unfold fedoraOptions
    repeat' apply Known.append
    all_goals first
      | exact hshared
      | exact hprobe
      | exact known_repos _
      | exact known_exceptions _
      | exact known_switch (by decide) _
      | exact known_map (by decide) _
  | rpm =>
    show Known (rpmOptions lock r)
    unfold rpmOptions
    repeat' apply Known.append
    all_goals first
      | exact known_cons (by decide) _ hshared
      | exact hprobe
      | exact known_repos _
      | exact known_exceptions _
      | exact known_switch (by decide) _
      | exact known_map (by decide) _

end Known

section Taken

theorem isDigit_digits {cs : List Char} (h : ∀ c ∈ cs, c.isDigit = true) :
    ∀ c ∈ cs, Options.isDigit c = true := by
  intro c hc
  unfold Options.isDigit
  rw [PyInt.decimal?_of_isDigit (h c hc)]
  rfl

/-- A minus and digits, as an argument. -/
theorem optionLike_negative {d : Char} {cs : List Char} (hd : d.isDigit = true)
    (h : ∀ c ∈ cs, c.isDigit = true) : solveOptions.optionLike ('-' :: d :: cs) = false := by
  have hall : ∀ c ∈ d :: cs, c.isDigit = true := List.forall_mem_cons.mpr ⟨hd, h⟩
  have hdash : d ≠ '-' := by
    rintro rfl
    cases hd
  have hh : d ≠ 'h' := by
    rintro rfl
    cases hd
  have hequals : '=' ∉ '-' :: d :: cs := by
    intro hmem
    rcases List.mem_cons.mp hmem with he | hmem
    · cases he
    · exact absurd (hall '=' hmem) (by decide)
  -- Every option goes on with another dash or an `h`.
  have hsecond : ∀ option ∈ solveOptions.all,
      option.toList[1]? = some '-' ∨ option.toList[1]? = some 'h' := by decide
  have hother : ∀ option ∈ solveOptions.all, ∀ rest, option.toList ≠ '-' :: d :: rest := by
    intro option hoption rest he
    have hs := hsecond option hoption
    rw [he] at hs
    rcases hs with hs | hs
    · exact hdash (Option.some.inj hs)
    · exact hh (Option.some.inj hs)
  have hmem : String.ofList ('-' :: d :: cs) ∉ solveOptions.all := fun hmem =>
    hother _ hmem cs (String.toList_ofList ..)
  have hassigned : solveOptions.assigned ('-' :: d :: cs) = none := by
    unfold Options.assigned
    rw [PyText.partition_of_notMem hequals]
  have habbreviated : solveOptions.abbreviated ('-' :: d :: cs) = [] := by
    unfold Options.abbreviated
    split
    · next rest he => exact absurd (List.cons.inj (List.cons.inj he).2).1 hdash
    · rw [List.filterMap_eq_nil_iff]
      intro option hoption
      have hshort : option.toList ≠ ('-' :: d :: cs).take 2 := hother option hoption []
      have hprefix : ¬ ('-' :: d :: cs).isPrefixOf option.toList = true := by
        intro hprefix
        obtain ⟨rest, hrest⟩ := List.isPrefixOf_iff_prefix.mp hprefix
        exact hother option hoption (cs ++ rest) hrest.symm
      rw [if_neg hshort, if_neg hprefix]
  have hnumber : Options.negativeNumber ('-' :: d :: cs) = true := by
    have hspan : (d :: cs).span Options.isDigit = (d :: cs, []) := by
      rw [List.span_eq_takeWhile_dropWhile, List.takeWhile_eq_self_iff.mpr (isDigit_digits hall),
        List.dropWhile_eq_nil_iff.mpr (isDigit_digits hall)]
    have hlast : ('-' :: d :: cs).getLast? ≠ some '\n' := by
      rw [List.getLast?_cons_cons]
      intro hnewline
      exact absurd (hall '\n' (List.mem_of_getLast? hnewline)) (by decide)
    unfold Options.negativeNumber Options.chomp
    rw [if_neg hlast]
    simp only [Options.minusDigits, hspan]
    rfl
  unfold Options.optionLike
  rw [decide_eq_false hmem, hassigned, habbreviated, hnumber]
  exact Bool.and_false _

/-- A number is a value, also a negative one. -/
theorem takenForOption_stages (n : ℤ) : takenForOption n.repr = false := by
  have hdigits : ∀ n : ℕ, ∃ d cs, Nat.toDigits 10 n = d :: cs ∧ d.isDigit = true ∧
      ∀ c ∈ cs, c.isDigit = true := by
    intro n
    have hall : ∀ c ∈ Nat.toDigits 10 n, c.isDigit = true := fun c hc =>
      Nat.isDigit_of_mem_toDigits (by decide) (by decide) hc
    cases hd : Nat.toDigits 10 n with
    | nil => exact absurd hd Nat.toDigits_ne_nil
    | cons d cs =>
      rw [hd] at hall
      exact ⟨d, cs, rfl, List.forall_mem_cons.mp hall⟩
  unfold takenForOption
  cases n with
  | ofNat n =>
    obtain ⟨d, cs, htext, hd, hcs⟩ := hdigits n
    have hrepr : (Int.ofNat n).repr.toList = d :: cs := Nat.toList_repr.trans htext
    have hdash : Options.dashed (d :: cs) = false := by
      unfold Options.dashed
      split
      · next rest he => rw [(List.cons.inj he).1] at hd; cases hd
      · rfl
    rw [hrepr]
    unfold Options.optionLike
    rw [hdash]
    rfl
  | negSucc n =>
    obtain ⟨d, cs, htext, hd, hcs⟩ := hdigits (n + 1)
    have hrepr : (Int.negSucc n).repr.toList = '-' :: d :: cs := by
      unfold Int.repr
      rw [String.toList_append, Nat.toList_repr, htext]
      rfl
    rw [hrepr]
    exact optionLike_negative hd hcs

theorem values_append (entries entries' : Given) :
    Options.values (entries ++ entries') = Options.values entries ++ Options.values entries' :=
  List.filterMap_append

theorem values_map (flag : String) (items : List String) :
    Options.values (items.map (option flag)) = items.map Argument.text := by
  unfold Options.values
  rw [List.filterMap_map]
  exact congrFun List.filterMap_eq_map' items

theorem values_repos (repos : List Repo) :
    Options.values (repos.flatMap repoOptions) =
      (repos.flatMap fun repo => [repo.name, repo.base, repo.path]).map Argument.text := by
  induction repos with
  | nil => rfl
  | cons repo repos ih =>
    rw [List.flatMap_cons, values_append, ih, List.flatMap_cons, List.map_append]
    rfl

theorem values_switch (flag : String) (on : Bool) :
    Options.values (switchOptions flag on) = [] := by
  cases on <;> rfl

theorem values_exceptions (exceptions : List SourceException) :
    Options.values (exceptionOptions exceptions) =
      exceptions.map fun exception => Argument.json (rawException exception) := by
  unfold Options.values exceptionOptions
  rw [List.filterMap_map]
  exact congrFun List.filterMap_eq_map' exceptions

/-- Which values a replay passes that are taken for options. -/
theorem takes_iff (tool : Tool) (flavor : Flavor) (hflavor : lock.flavor = flavor.text) :
    (∀ value ∈ Options.values (tool.options lock r), solveOptions.takes value = false) ↔
      ∀ text ∈ replayedTexts lock r, takenForOption text = false := by
  have htext : ∀ text : String, solveOptions.takes (.text text : Argument RawException) =
      takenForOption text := fun _ => rfl
  have hjson : ∀ raw : RawException, solveOptions.takes (.json raw) = false := fun _ => rfl
  have hstages := takenForOption_stages lock.stages.val
  have hflavorText : takenForOption lock.flavor = false := by
    rw [hflavor]
    cases flavor <;> decide
  have hprobe : Options.values (probeOptions r.probe) =
      (r.probe.filter (· ≠ "")).toList.map Argument.text := values_map ..
  have hcons : ∀ flag value (entries : Given),
      Options.values (option flag value :: entries) = .text value :: Options.values entries :=
    fun _ _ _ => rfl
  have hnil : Options.values ([] : Given) = [] := rfl
  unfold replayedTexts Tool.options
  cases tool with
  | fedora =>
    unfold fedoraOptions
    simp only [values_append, values_map, values_repos, values_switch, values_exceptions, hprobe,
      hcons, hnil, List.forall_mem_append, List.forall_mem_cons, List.forall_mem_map, htext, hjson,
      hstages, List.not_mem_nil, false_imp_iff, implies_true, and_true, true_and]
  | rpm =>
    unfold rpmOptions
    simp only [values_append, values_map, values_repos, values_switch, values_exceptions, hprobe,
      hcons, hnil, List.forall_mem_append, List.forall_mem_cons, List.forall_mem_map, htext, hjson,
      hstages, hflavorText, List.not_mem_nil, false_imp_iff, implies_true, and_true, true_and]
    tauto

end Taken

/-- **What the solver's parser makes of a replay**: the recorded inputs, unless a value is
    taken for an option. -/
theorem parse_solveArgv (tool : Tool) (flavor : Flavor) (hflavor : lock.flavor = flavor.text)
    (htool : tool = .fedora → flavor = .fedora)
    (hbinary : ∃ repo ∈ r.repos, repo.kind = .binary) :
    parseArgs (solveArgv tool lock r) =
      if ∀ text ∈ replayedTexts lock r, takenForOption text = false then
        some (replayArgs flavor lock r)
      else none := by
  unfold parseArgs solveArgv
  rw [Options.parse_arguments solveOptions_wellFormed _ (known_options tool)]
  by_cases hvalues : ∀ text ∈ replayedTexts lock r, takenForOption text = false
  · rw [if_pos hvalues, if_pos ((takes_iff tool flavor hflavor).mpr hvalues), Option.bind_some,
      readArgs_options tool flavor hflavor htool hbinary]
  · rw [if_neg hvalues, if_neg fun h => hvalues ((takes_iff tool flavor hflavor).mp h)]
    rfl

end Replay

end BuckosDistro.Relock
