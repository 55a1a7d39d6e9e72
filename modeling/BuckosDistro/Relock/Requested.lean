/-
  A superseded build asked for by a flag.

  `merge_packages` records a build that lost under its EVR text, and the error of
  `add_source_variants` offers these texts to the user. The flag ends its version at the
  first colon, which is where a stated epoch ends; so a build with an epoch cannot be asked
  for by the text it is recorded under.
-/
import BuckosDistro.Relock.Replay
import BuckosDistro.Solve.Superseded

namespace BuckosDistro.Relock

open BuckosDistro.Lib BuckosDistro.Solve

/-! ## The build that is recorded -/

section Recorded

variable {groups : List (String × List PackageRecord)} {key : Key} {version : String}
  {build : PackageRecord}

theorem mem_of_get?_losers {items : List (PackageRecord × ℕ)} {bestAt : ℕ}
    (h : (items.foldl (fun losers (pkg, i) =>
        if i = bestAt then losers else losers.set (evrString pkg) pkg)
      (Dict.empty : Dict String PackageRecord)).get? version = some build) :
    (∃ i, (build, i) ∈ items) ∧ evrString build = version := by
  induction items using List.reverseRecOn with
  | nil => cases h
  | append_singleton items item ih =>
    obtain ⟨pkg, i⟩ := item
    rw [List.foldl_append, List.foldl_cons, List.foldl_nil] at h
    dsimp only at h
    have hold : ∀ {n : ℕ}, (build, n) ∈ items → ∃ j, (build, j) ∈ items ++ [(pkg, i)] :=
      fun hmem => ⟨_, List.mem_append_left _ hmem⟩
    by_cases hi : i = bestAt
    · rw [if_pos hi] at h
      obtain ⟨⟨j, hmem⟩, hversion⟩ := ih h
      exact ⟨hold hmem, hversion⟩
    · rw [if_neg hi, Dict.get?_set] at h
      by_cases hv : version = evrString pkg
      · rw [if_pos hv] at h
        obtain rfl := Option.some.inj h
        exact ⟨⟨i, List.mem_append_right _ (List.mem_singleton_self _)⟩, hv.symm⟩
      · rw [if_neg hv] at h
        obtain ⟨⟨j, hmem⟩, hversion⟩ := ih h
        exact ⟨hold hmem, hversion⟩

/-- A superseded build is recorded under its key and its EVR text. -/
theorem recorded_under (h : supersededAt groups key version = some build) :
    keyOf build = key ∧ evrString build = version := by
  rw [supersededAt_eq] at h
  obtain ⟨s, hs, hlosers⟩ := Option.bind_eq_some_iff.mp h
  unfold Slot.losers at hlosers
  obtain ⟨⟨i, hmem⟩, hversion⟩ := mem_of_get?_losers hlosers
  have hcandidate := List.mem_of_getElem? (List.mem_zipIdx_iff_getElem?.mp hmem)
  rw [(slotOf_spec hs).candidates] at hcandidate
  obtain ⟨group, -, hbest⟩ := mem_bests.mp hcandidate
  exact ⟨(mem_ofKey.mp (newestOf_mem hbest)).2, hversion⟩

end Recorded

/-! ## The request -/

/-- The flag that asks for a build of a source at a version. -/
def requestFlag (name source version : String) (consumers : List String) : String :=
  variantSpec name ⟨source, version, consumers⟩

/-- The request of that flag. -/
def request (name source version : String) (consumers : List String) : Dict String SourceVariant :=
  Dict.single name ⟨source, version, PyText.sortedSet consumers⟩

/-- The request round-trips: the flag states it, `add_source_variants` finds the build, and what
    the lock records states it again. -/
structure RoundTrips (u : Universe) (sourceSuperseded binarySuperseded : Superseded)
    (buildSet : List String) (key : Key) (version : String) (build : PackageRecord)
    (name : String) (consumers : List String) : Prop where
  stated : parseSourceVariants [requestFlag name key.1 version consumers] =
    .ok (request name key.1 version consumers)
  problems : (addSourceVariants (request name key.1 version consumers) u sourceSuperseded
    binarySuperseded buildSet).problems = []
  found : (addSourceVariants (request name key.1 version consumers) u sourceSuperseded
    binarySuperseded buildSet).sourceIndex.get? name = some { build with name := name }
  again : parseSourceVariants (variantSpecs (request name key.1 version consumers)) =
    .ok (request name key.1 version consumers)

/-- What a request can ask for: each field can stand in the flag, somebody consumes it, and the
    source is known with the architecture of the build. -/
structure Requestable (u : Universe) (key : Key) (version name : String)
    (consumers : List String) : Prop where
  fields : Spellable name ⟨key.1, version, consumers⟩
  consumed : consumers ≠ []
  current : (u.sourceIndex.get? key.1).map PackageRecord.arch = some key.2

section Request

variable {name source version : String} {consumers : List String}

theorem parseSourceVariants_one {spec : String} {variant : SourceVariant} :
    parseSourceVariants [spec] = .ok (Dict.single name variant) ↔
      parseSourceVariant spec = .ok (name, variant) := by
  have hone : parseSourceVariants [spec] =
      (parseSourceVariant spec).map fun entry => Dict.single entry.1 entry.2 := by
    unfold parseSourceVariants
    rw [List.foldlM_cons]
    cases parseSourceVariant spec <;> rfl
  rw [hone]
  constructor
  · intro h
    cases hspec : parseSourceVariant spec with
    | error message =>
      rw [hspec] at h
      cases h
    | ok entry =>
      rw [hspec] at h
      have hitems := congrArg Dict.items (Except.ok.inj h)
      exact congrArg Except.ok (List.cons.inj hitems).1
  · intro h
    rw [h]
    rfl

theorem variantSpecs_request :
    variantSpecs (request name source version consumers) =
      [requestFlag name source version (PyText.sortedSet consumers)] := by
  have hkeys : PyText.sortedSet (request name source version consumers).keys = [name] := rfl
  unfold variantSpecs
  rw [hkeys]
  unfold request
  simp [requestFlag]

theorem sortedSet_eq_nil : PyText.sortedSet consumers = [] ↔ consumers = [] := by
  constructor
  · intro h
    refine List.eq_nil_iff_forall_not_mem.mpr fun consumer hc => ?_
    have hmem := PyText.mem_sortedSet.mpr hc
    rw [h] at hmem
    cases hmem
  · intro h
    rw [h]
    rfl

/-- The flag states its request exactly when its fields can stand in it. -/
theorem parse_requestFlag :
    parseSourceVariants [requestFlag name source version consumers] =
        .ok (request name source version consumers) ↔
      Spellable name ⟨source, version, consumers⟩ ∧ consumers ≠ [] := by
  unfold request requestFlag
  rw [parseSourceVariants_one]
  constructor
  · intro h
    have hparsed := parsed_of_parseSourceVariant h
    have hfields : Spellable name ⟨source, version, consumers⟩ :=
      ⟨hparsed.named, hparsed.sourced, hparsed.versioned, hparsed.own, fun consumer hc =>
        hparsed.consumers consumer (PyText.mem_sortedSet.mpr hc)⟩
    refine ⟨hfields, fun hnone => ?_⟩
    rw [parse_spellable hfields, if_pos hnone] at h
    cases h
  · intro h
    rw [parse_spellable h.1, if_neg h.2]

/-- What the lock records of a request states it again. -/
theorem parse_recorded (h : Spellable name ⟨source, version, consumers⟩) (hne : consumers ≠ []) :
    parseSourceVariants (variantSpecs (request name source version consumers)) =
      .ok (request name source version consumers) := by
  have hfields : Spellable name ⟨source, version, PyText.sortedSet consumers⟩ :=
    ⟨h.named, h.sourced, h.versioned, h.own, fun consumer hc =>
      h.consumers consumer (PyText.mem_sortedSet.mp hc)⟩
  have hsome : PyText.sortedSet consumers ≠ [] := sortedSet_eq_nil.not.mpr hne
  rw [variantSpecs_request]
  unfold requestFlag request
  rw [parseSourceVariants_one, parse_spellable hfields, if_neg hsome]
  exact congrArg (fun names => Except.ok (name, SourceVariant.mk source version names))
    (sortedSet_sortedSet consumers)

/-- What `add_source_variants` does with a request. -/
theorem addSourceVariants_request (u : Universe) (sourceSuperseded binarySuperseded : Superseded)
    (buildSet : List String) :
    addSourceVariants (request name source version consumers) u sourceSuperseded
        binarySuperseded buildSet =
      addVariant u sourceSuperseded binarySuperseded (request name source version consumers)
        ⟨u.sourceIndex, buildSet, [], Dict.empty, Dict.empty⟩ name := by
  have hkeys : PyText.sortedSet (request name source version consumers).keys = [name] := rfl
  unfold addSourceVariants
  rw [hkeys]
  rfl

end Request

theorem build_eq_supersededAt (groups : List (String × List PackageRecord)) (key : Key)
    (version : String) :
    Superseded.build (mergePackages groups).superseded key version =
      supersededAt groups key version := by
  unfold Superseded.build supersededAt Dict.getD
  cases (mergePackages groups).superseded.get? key <;> rfl

section Found

variable {u : Universe} {groups : List (String × List PackageRecord)}
  {binarySuperseded : Superseded} {buildSet : List String} {key : Key}
  {version name : String} {build : PackageRecord} {consumers : List String}

/-- A request is granted when the superseded builds of its source have the version. -/
theorem found_iff (h : supersededAt groups key version = some build) :
    ((addSourceVariants (request name key.1 version consumers) u (mergePackages groups).superseded
          binarySuperseded buildSet).problems = [] ∧
        (addSourceVariants (request name key.1 version consumers) u
          (mergePackages groups).superseded binarySuperseded buildSet).sourceIndex.get? name =
            some { build with name := name }) ↔
      (u.sourceIndex.get? key.1).map PackageRecord.arch = some key.2 := by
  have hkey := (recorded_under h).1
  have hget : (request name key.1 version consumers).get? name =
      some ⟨key.1, version, PyText.sortedSet consumers⟩ := Dict.get?_single_self name _
  rw [addSourceVariants_request]
  unfold addVariant
  rw [hget]
  dsimp only
  cases hcurrent : u.sourceIndex.get? key.1 with
  | none => exact iff_of_false (fun hp => List.cons_ne_nil _ _ hp.1) (Option.some_ne_none _).symm
  | some current =>
    dsimp only
    rw [build_eq_supersededAt, Option.map_some]
    cases holder : supersededAt groups (key.1, current.arch) version with
    | none =>
      refine iff_of_false (fun hp => List.cons_ne_nil _ _ hp.1) fun harch => ?_
      rw [Option.some.inj harch, h] at holder
      cases holder
    | some older =>
      dsimp only
      rw [Dict.get?_set, if_pos rfl, and_iff_right rfl, Option.some.injEq, Option.some.injEq]
      constructor
      · intro hsame
        have harch : older.arch = build.arch := by
          have hfield := congrArg PackageRecord.arch hsame
          exact hfield
        have hcurrentArch : older.arch = current.arch :=
          congrArg Prod.snd (recorded_under holder).1
        rw [← hcurrentArch, harch, ← hkey]
        rfl
      · intro harch
        rw [harch, h] at holder
        rw [Option.some.inj holder]

/-- **A superseded build can be asked for** exactly when its EVR text holds no colon, and the
    other fields hold none of the marks of the flag. -/
theorem variant_request_iff (u : Universe) (groups : List (String × List PackageRecord))
    (binarySuperseded : Superseded) (buildSet : List String) (key : Key) (version : String)
    (build : PackageRecord) (h : supersededAt groups key version = some build) (name : String)
    (consumers : List String) :
    RoundTrips u (mergePackages groups).superseded binarySuperseded buildSet key version build name
        consumers ↔
      Requestable u key version name consumers := by
  constructor
  · intro ht
    obtain ⟨hfields, hconsumed⟩ := parse_requestFlag.mp ht.stated
    exact ⟨hfields, hconsumed, (found_iff h).mp ⟨ht.problems, ht.found⟩⟩
  · intro hr
    obtain ⟨hproblems, hfound⟩ := (found_iff h).mpr hr.current
    exact ⟨parse_requestFlag.mpr ⟨hr.fields, hr.consumed⟩, hproblems, hfound,
      parse_recorded hr.fields hr.consumed⟩

end Found

/-! ## Two builds of one source -/

/-- A source build, as far as it matters here. -/
def sourceBuild (name : String) (epoch : Option String) (version : String) : PackageRecord :=
  { name := name, arch := "src", epoch := epoch, version := some version, release := some "1" }

/-- The older build in one repository and the newer one in the next. -/
def twoBuilds (name : String) (epoch : Option String) (older newer : String) :
    List (String × List PackageRecord) :=
  [("releases", [sourceBuild name epoch older]), ("updates", [sourceBuild name epoch newer])]

/-- The universe of the newer one. -/
def newerUniverse (name : String) (epoch : Option String) (newer : String) : Universe :=
  { provides := Dict.empty, provideEvr := Dict.empty, requires := Dict.empty
    sourceOf := Dict.empty, subpackages := Dict.empty, binaryIndex := Dict.empty
    sourceIndex := Dict.single name (sourceBuild name epoch newer)
    foreignSourceOf := Dict.empty }

/-- `acl` states no epoch, and its older build can be asked for. -/
theorem variant_request_iff_acl :
    RoundTrips (newerUniverse "acl" (some "0") "2.4.0")
        (mergePackages (twoBuilds "acl" (some "0") "2.3.2" "2.4.0")).superseded Dict.empty ["tar"]
        ("acl", "src") "2.3.2-1" (sourceBuild "acl" (some "0") "2.3.2") "acl-compat" ["tar"] ↔
      Requestable (newerUniverse "acl" (some "0") "2.4.0") ("acl", "src") "2.3.2-1" "acl-compat"
        ["tar"] :=
  variant_request_iff _ (twoBuilds "acl" (some "0") "2.3.2" "2.4.0") _ _ _ _ _ (by decide) _ _

/-- `shadow-utils` has epoch 2: its older build is recorded, and cannot be asked for. -/
theorem epoch_not_requested :
    supersededAt (twoBuilds "shadow-utils" (some "2") "4.17" "4.18") ("shadow-utils", "src")
        "2:4.17-1" = some (sourceBuild "shadow-utils" (some "2") "4.17") ∧
      ¬ RoundTrips (newerUniverse "shadow-utils" (some "2") "4.18")
        (mergePackages (twoBuilds "shadow-utils" (some "2") "4.17" "4.18")).superseded Dict.empty
        ["tar"] ("shadow-utils", "src") "2:4.17-1"
        (sourceBuild "shadow-utils" (some "2") "4.17") "shadow-utils-compat" ["tar"] := by
  refine ⟨by decide, fun ht => ?_⟩
  have hfields := (parse_requestFlag.mp ht.stated).1
  have hcolon : ':' ∈ "2:4.17-1".toList := by decide
  exact hfields.versioned.unmarked ':' (List.mem_singleton_self _) hcolon

end BuckosDistro.Relock
