/-
  What adding variants leaves as it was (`tools/solve.py`, `add_source_variants`).

  The loop writes a source record, a recipe and some routes for each request it grants. A
  request may be granted under the name of a source package the repodata has, and then that
  package is gone. Where no request is, nothing that was there before changes, and neither
  does the lock of a source that is no variant and consumes none.
-/
import BuckosDistro.Solve.Emitted

namespace BuckosDistro.Solve

open BuckosDistro.Lib BuckosDistro.Depgraph

/-! ## Granted requests -/

/-- The request of that name is granted, with that older build: its source is in the repodata,
    or is itself granted under an earlier name, and has a superseded build at the EVR. -/
inductive Granted (e : Emission) : String → PackageRecord → Prop
  | ofSource {name : String} {variant : SourceVariant} {current older : PackageRecord} :
      e.variants.get? name = some variant →
      e.repodata.sourceIndex.get? variant.source = some current →
      e.sourceSuperseded.build (variant.source, current.arch) variant.evr = some older →
      Granted e name older
  | ofVariant {name : String} {variant : SourceVariant} {current older : PackageRecord} :
      e.variants.get? name = some variant →
      e.repodata.sourceIndex.get? variant.source = none → variant.source < name →
      Granted e variant.source current →
      e.sourceSuperseded.build (variant.source, current.arch) variant.evr = some older →
      Granted e name older

/-- The repodata knows the source package: it has its record, or a binary that is filed under
    it. -/
def KnownSource (u : Universe) (name : String) : Prop :=
  (u.sourceIndex.get? name).isSome ∨ ∃ binary, u.sourceOf.get? binary = some name

/-! ## One trip of the loop -/

section Step

variable {e : Emission} {s : Variants} {name : String} {variant : SourceVariant}

/-- The body of the loop over the requests of an emission. -/
def Emission.step (e : Emission) : Variants → String → Variants :=
  addVariant e.repodata e.sourceSuperseded e.binarySuperseded e.variants

/-- The variables before the loop. -/
def Emission.start (e : Emission) : Variants :=
  ⟨e.repodata.sourceIndex, e.buildSet, [], Dict.empty, Dict.empty⟩

theorem Emission.added_eq (e : Emission) :
    e.added = (PyText.sortedSet e.variants.keys).foldl e.step e.start := rfl

/-- A request is granted, and writes its record, its recipe and its routes; or it is refused,
    and leaves one problem. -/
theorem step_cases (hv : e.variants.get? name = some variant) :
    (∃ current older, s.sourceIndex.get? variant.source = some current ∧
        e.sourceSuperseded.build (variant.source, current.arch) variant.evr = some older ∧
        e.step s name = { s with
          sourceIndex := s.sourceIndex.set name { older with name := name }
          subpackages := s.subpackages.set name (e.repodata.subpackages.getD variant.source [])
          buildSet := s.buildSet ++ [name]
          routes := addRoutes e.repodata e.binarySuperseded name variant s.routes }) ∨
      ((∀ current, s.sourceIndex.get? variant.source = some current →
          e.sourceSuperseded.build (variant.source, current.arch) variant.evr = none) ∧
        ∃ problem, problem.who = name ∧
          e.step s name = { s with problems := s.problems ++ [problem] }) := by
  unfold Emission.step addVariant
  rw [hv]
  dsimp only
  cases hcurrent : s.sourceIndex.get? variant.source with
  | none => exact Or.inr ⟨fun _ h => (nomatch h), _, rfl, rfl⟩
  | some current =>
    dsimp only
    cases holder : e.sourceSuperseded.build (variant.source, current.arch) variant.evr with
    | none =>
      refine Or.inr ⟨fun current' h => ?_, _, rfl, rfl⟩
      rw [← Option.some.inj h]
      exact holder
    | some older => exact Or.inl ⟨current, older, rfl, holder, rfl⟩

/-- A problem names the request of its trip. -/
theorem problems_foldl (names : List String) (s : Variants) :
    ∀ problem ∈ (names.foldl e.step s).problems, problem ∈ s.problems ∨ problem.who ∈ names := by
  induction names generalizing s with
  | nil => exact fun problem h => Or.inl h
  | cons name names ih =>
    intro problem h
    have htail := ih (e.step s name) problem h
    refine htail.elim (fun hp => ?_) fun hw => Or.inr (List.mem_cons_of_mem name hw)
    cases hv : e.variants.get? name with
    | none =>
      unfold Emission.step addVariant at hp
      rw [hv] at hp
      exact Or.inl hp
    | some variant =>
      obtain ⟨_, _, -, -, hstep⟩ | ⟨-, added, hwho, hstep⟩ := @step_cases e s name variant hv
      · rw [hstep] at hp
        exact Or.inl hp
      · rw [hstep] at hp
        refine (List.mem_append.mp hp).imp_right fun hlast => ?_
        rw [List.mem_singleton.mp hlast, hwho]
        exact List.mem_cons_self

end Step

/-! ## A run that overwrites nothing -/

/-- What is known after some of the requests, while none was granted under the name of a source
    record. -/
structure Clean (e : Emission) (done : List String) (s : Variants) : Prop where
  kept : ∀ src record, e.repodata.sourceIndex.get? src = some record →
    s.sourceIndex.get? src = some record
  granted : ∀ name ∈ done, ∀ older, Granted e name older →
    e.repodata.sourceIndex.get? name = none ∧
      s.sourceIndex.get? name = some { older with name := name } ∧
      ∀ problem ∈ s.problems, problem.who ≠ name
  refused : ∀ name ∈ done, (∀ older, ¬ Granted e name older) →
    ∃ problem ∈ s.problems, problem.who = name
  only : ∀ src record, s.sourceIndex.get? src = some record →
    e.repodata.sourceIndex.get? src = some record ∨
      src ∈ done ∧ ∃ older, Granted e src older ∧ record = { older with name := src }
  problems : ∀ problem ∈ s.problems, problem.who ∈ done
  built : ∀ name ∈ s.buildSet, name ∈ e.buildSet ∨ ∃ older, Granted e name older

section Clean

variable {e : Emission} {s : Variants} {name : String} {variant : SourceVariant}
  {done rest : List String}

theorem Granted.requested {older : PackageRecord} (h : Granted e name older) :
    name ∈ e.variants.keys := by
  rw [Dict.mem_keys_iff]
  cases h with
  | ofSource hv _ _ => exact Option.isSome_iff_exists.mpr ⟨_, hv⟩
  | ofVariant hv _ _ _ _ => exact Option.isSome_iff_exists.mpr ⟨_, hv⟩

/-- The requests before the one at hand are those under smaller names. -/
theorem mem_done_iff (hsplit : PyText.sortedSet e.variants.keys = done ++ name :: rest)
    {src : String} : src ∈ done ↔ src ∈ e.variants.keys ∧ src < name := by
  have hsorted := PyText.pairwise_sortedSet e.variants.keys
  rw [hsplit, List.pairwise_append, List.pairwise_cons] at hsorted
  obtain ⟨-, ⟨hrest, -⟩, hcross⟩ := hsorted
  constructor
  · intro hsrc
    refine ⟨?_, hcross src hsrc name List.mem_cons_self⟩
    rw [← PyText.mem_sortedSet, hsplit]
    exact List.mem_append_left _ hsrc
  · intro h
    have hmem := PyText.mem_sortedSet.mpr h.1
    rw [hsplit] at hmem
    refine (List.mem_append.mp hmem).resolve_right fun htail => ?_
    rcases List.mem_cons.mp htail with rfl | hlater
    · exact lt_irrefl _ h.2
    · exact lt_asymm h.2 (hrest src hlater)

/-- The source of a granted request is at hand when its turn comes. -/
theorem Clean.source_of_granted (h : Clean e done s)
    (hsplit : PyText.sortedSet e.variants.keys = done ++ name :: rest)
    (hv : e.variants.get? name = some variant) {older : PackageRecord}
    (hg : Granted e name older) :
    ∃ current, s.sourceIndex.get? variant.source = some current ∧
      e.sourceSuperseded.build (variant.source, current.arch) variant.evr = some older := by
  cases hg with
  | ofSource hv' hcurrent hbuild =>
    obtain rfl := Option.some.inj (hv.symm.trans hv')
    exact ⟨_, h.kept _ _ hcurrent, hbuild⟩
  | ofVariant hv' hnone hlt hsource hbuild =>
    obtain rfl := Option.some.inj (hv.symm.trans hv')
    have hdone := (mem_done_iff hsplit).mpr ⟨hsource.requested, hlt⟩
    exact ⟨_, (h.granted _ hdone _ hsource).2.1, hbuild⟩

/-- What a trip finds is granted. -/
theorem Clean.granted_of_source (h : Clean e done s)
    (hsplit : PyText.sortedSet e.variants.keys = done ++ name :: rest)
    (hv : e.variants.get? name = some variant) {current older : PackageRecord}
    (hcurrent : s.sourceIndex.get? variant.source = some current)
    (hbuild : e.sourceSuperseded.build (variant.source, current.arch) variant.evr = some older) :
    Granted e name older := by
  rcases h.only _ _ hcurrent with hsource | ⟨hdone, granted, hg, rfl⟩
  · exact .ofSource hv hsource hbuild
  · exact .ofVariant hv (h.granted _ hdone _ hg).1 ((mem_done_iff hsplit).mp hdone).2 hg hbuild

theorem clean_step (h : Clean e done s)
    (hsplit : PyText.sortedSet e.variants.keys = done ++ name :: rest)
    (hv : e.variants.get? name = some variant)
    (hfree : (∀ problem ∈ (e.step s name).problems, problem.who ≠ name) →
      e.repodata.sourceIndex.get? name = none) :
    Clean e (done ++ [name]) (e.step s name) := by
  have hnew : name ∉ done := fun hm => lt_irrefl _ ((mem_done_iff hsplit).mp hm).2
  have hclear : ∀ problem ∈ s.problems, problem.who ≠ name := fun problem hp he =>
    hnew (he ▸ h.problems problem hp)
  obtain ⟨current, older, hcurrent, hbuild, hstep⟩ | ⟨hnone, added, hwho, hstep⟩ :=
    @step_cases e s name variant hv
  · have hgranted := h.granted_of_source hsplit hv hcurrent hbuild
    have honly : ∀ older', Granted e name older' → older' = older := by
      intro older' hg
      obtain ⟨current', hcurrent', hbuild'⟩ := h.source_of_granted hsplit hv hg
      rw [hcurrent] at hcurrent'
      rw [← Option.some.inj hcurrent', hbuild] at hbuild'
      exact (Option.some.inj hbuild').symm
    rw [hstep] at hfree ⊢
    have hfresh := hfree hclear
    refine ⟨fun src record hsrc => ?_, fun src hsrc older' hg => ?_, fun src hsrc hno => ?_,
      fun src record hsrc => ?_, fun problem hp => List.mem_append_left _ (h.problems problem hp),
      fun src hsrc => ?_⟩
    · have hne : src ≠ name := by
        rintro rfl
        rw [hfresh] at hsrc
        cases hsrc
      rw [Dict.get?_set, if_neg hne]
      exact h.kept src record hsrc
    · dsimp only
      rw [Dict.get?_set]
      rcases List.mem_append.mp hsrc with hold | hlast
      · have hne : src ≠ name := fun he => hnew (he ▸ hold)
        rw [if_neg hne]
        exact h.granted src hold older' hg
      · obtain rfl := List.mem_singleton.mp hlast
        rw [if_pos rfl, honly older' hg]
        exact ⟨hfresh, rfl, hclear⟩
    · rcases List.mem_append.mp hsrc with hold | hlast
      · exact h.refused src hold hno
      · rw [List.mem_singleton.mp hlast] at hno
        exact absurd hgranted (hno older)
    · dsimp only at hsrc
      rw [Dict.get?_set] at hsrc
      by_cases he : src = name
      · rw [if_pos he] at hsrc
        refine Or.inr ⟨List.mem_append_right _ (List.mem_singleton.mpr he),
          older, he ▸ hgranted, ?_⟩
        rw [he]
        exact (Option.some.inj hsrc).symm
      · rw [if_neg he] at hsrc
        exact (h.only src record hsrc).imp_right fun ⟨hm, hrest⟩ =>
          ⟨List.mem_append_left _ hm, hrest⟩
    · refine (List.mem_append.mp hsrc).elim (h.built src) fun hlast => Or.inr ⟨older, ?_⟩
      rw [List.mem_singleton.mp hlast]
      exact hgranted
  · have hungranted : ∀ older, ¬ Granted e name older := by
      intro older hg
      obtain ⟨current, hcurrent, hbuild⟩ := h.source_of_granted hsplit hv hg
      rw [hnone current hcurrent] at hbuild
      cases hbuild
    rw [hstep]
    refine ⟨h.kept, fun src hsrc older hg => ?_, fun src hsrc hno => ?_, fun src record hsrc => ?_,
      fun problem hp => ?_, h.built⟩
    · rcases List.mem_append.mp hsrc with hold | hlast
      · obtain ⟨hfresh, hget, hclean⟩ := h.granted src hold older hg
        refine ⟨hfresh, hget, fun problem hp he => ?_⟩
        rcases List.mem_append.mp hp with hp | hp
        · exact hclean problem hp he
        · rw [List.mem_singleton.mp hp, hwho] at he
          exact hnew (he ▸ hold)
      · rw [List.mem_singleton.mp hlast] at hg
        exact absurd hg (hungranted older)
    · rcases List.mem_append.mp hsrc with hold | hlast
      · obtain ⟨problem, hp, he⟩ := h.refused src hold hno
        exact ⟨problem, List.mem_append_left _ hp, he⟩
      · rw [List.mem_singleton.mp hlast]
        exact ⟨added, List.mem_append_right _ (List.mem_singleton_self _), hwho⟩
    · exact (h.only src record hsrc).imp_right fun ⟨hm, hrest⟩ => ⟨List.mem_append_left _ hm, hrest⟩
    · refine (List.mem_append.mp hp).elim (fun hold => List.mem_append_left _
        (h.problems problem hold)) fun hlast => List.mem_append_right _ ?_
      rw [List.mem_singleton.mp hlast, hwho]
      exact List.mem_singleton_self _

/-- The run, while no trip grants a request under the name of a source record. -/
theorem clean_run (hfree : ∀ done name rest variant,
      PyText.sortedSet e.variants.keys = done ++ name :: rest →
      e.variants.get? name = some variant → Clean e done (done.foldl e.step e.start) →
      (∀ problem ∈ (e.step (done.foldl e.step e.start) name).problems, problem.who ≠ name) →
      e.repodata.sourceIndex.get? name = none) :
    Clean e (PyText.sortedSet e.variants.keys) e.added := by
  have hall : ∀ (done rest : List String), PyText.sortedSet e.variants.keys = done ++ rest →
      Clean e done (done.foldl e.step e.start) := by
    intro done
    induction done using List.reverseRecOn with
    | nil =>
      intro rest _
      exact ⟨fun _ _ h => h, fun _ h => (nomatch h), fun _ h => (nomatch h), fun _ _ h => Or.inl h,
        fun _ h => (nomatch h), fun _ h => Or.inl h⟩
    | append_singleton done name ih =>
      intro rest hsplit
      rw [List.append_assoc, List.singleton_append] at hsplit
      have hkey : name ∈ e.variants.keys := by
        rw [← PyText.mem_sortedSet, hsplit]
        exact List.mem_append_right _ List.mem_cons_self
      obtain ⟨variant, hv⟩ := Option.isSome_iff_exists.mp (Dict.mem_keys_iff.mp hkey)
      have hclean := ih (name :: rest) hsplit
      rw [List.foldl_append]
      exact clean_step hclean hsplit hv (hfree done name rest variant hsplit hv hclean)
  have hrun := hall (PyText.sortedSet e.variants.keys) [] (List.append_nil _).symm
  rwa [← Emission.added_eq] at hrun

/-- Every request under the name of a source record is refused. -/
theorem clean_of_refused (h : ∀ name ∈ e.variants.keys,
      (e.repodata.sourceIndex.get? name).isSome →
        ∃ problem ∈ e.added.problems, problem.who = name) :
    Clean e (PyText.sortedSet e.variants.keys) e.added := by
  apply clean_run
  intro done name rest variant hsplit hv _ hclear
  by_contra hsome
  have hkey : name ∈ e.variants.keys := Dict.mem_keys_iff.mpr (Option.isSome_iff_exists.mpr ⟨_, hv⟩)
  obtain ⟨problem, hp, hwho⟩ := h name hkey (Option.isSome_iff_ne_none.mpr hsome)
  rw [Emission.added_eq, hsplit, List.foldl_append, List.foldl_cons] at hp
  rcases problems_foldl rest _ problem hp with hp | hw
  · exact hclear problem hp hwho
  · have hsorted := PyText.pairwise_sortedSet e.variants.keys
    rw [hsplit, List.pairwise_append, List.pairwise_cons] at hsorted
    exact lt_irrefl name (hsorted.2.1.1 name (hwho ▸ hw))

/-- No request is granted under the name of a source record. -/
theorem clean_of_fresh (h : ∀ name older, Granted e name older →
      e.repodata.sourceIndex.get? name = none) :
    Clean e (PyText.sortedSet e.variants.keys) e.added := by
  apply clean_run
  intro done name rest variant hsplit hv hclean hclear
  obtain ⟨current, older, hcurrent, hbuild, -⟩ | ⟨-, added, hwho, hstep⟩ :=
    @step_cases e (done.foldl e.step e.start) name variant hv
  · exact h name older (hclean.granted_of_source hsplit hv hcurrent hbuild)
  · rw [hstep] at hclear
    exact absurd hwho (hclear added (List.mem_append_right _ (List.mem_singleton_self _)))

end Clean

/-! ## The lock of the others -/

/-- The emission with what a solve of its build set returns. -/
def Emission.solved (e : Emission) (overrides : Dict String String) (probe : Dict String Report)
    (implicit : List String) : Emission :=
  { e with solution := solve e.emitted e.added.buildSet overrides probe implicit }

/-- The emission without its variants. -/
def Emission.unvaried (e : Emission) : Emission := { e with variants := Dict.empty }

section Others

variable {e : Emission} {src : String}

/-- Every build that is added is one of the requests, and every recipe of a variant. -/
theorem mem_buildSet_of_unrequested (h : e.variants.get? src = none) :
    src ∈ e.added.buildSet ↔ src ∈ e.buildSet := by
  have hadded : Added e.repodata e.binarySuperseded e.variants e.buildSet e.added :=
    added_addSourceVariants e.buildSet
  refine ⟨fun hsrc => ?_, fun hsrc => hadded.kept hsrc⟩
  refine (hadded.new src hsrc).resolve_right fun ⟨variant, haccepted⟩ => ?_
  rw [haccepted.stated] at h
  cases h

/-- What a solve says of a source of the build set is what its own trip computes. -/
theorem solve_at {u : Universe} {buildSet : List String} {overrides : Dict String String}
    {probe : Dict String Report} {implicit : List String} (h : src ∈ buildSet) :
    (solve u buildSet overrides probe implicit).buildDeps.getD src ∅ =
        (solveSource u overrides probe implicit src).deps ∧
      (solve u buildSet overrides probe implicit).resolutions.getD src Dict.empty =
        (solveSource u overrides probe implicit src).resolutions ∧
      ∀ dynamic, (solve u buildSet overrides probe implicit).dynamic.getD src dynamic =
        (solveSource u overrides probe implicit src).dynamic.getD dynamic := by
  have hsrc : src ∈ PyText.sortedSet buildSet := PyText.mem_sortedSet.mpr h
  refine ⟨?_, ?_, fun dynamic => ?_⟩
  · exact Dict.getD_eq_of_get? ∅ (solve_buildDeps h)
  · unfold solve Dict.getD
    dsimp only
    cases hempty : (solveSource u overrides probe implicit src).resolutions.items with
    | nil =>
      rw [Dict.get?_ofKeys_of_notMem]
      · exact congrArg Dict.mk hempty.symm
      · intro hmem
        have hkept := (List.mem_filter.mp hmem).2
        rw [hempty] at hkept
        exact absurd hkept (by decide)
    | cons item items =>
      rw [Dict.get?_ofKeys]
      · rfl
      · refine List.mem_filter.mpr ⟨hsrc, ?_⟩
        rw [hempty]
        rfl
  · unfold solve Dict.getD
    dsimp only
    rw [Dict.get?_filterMap _ fun hnot => absurd hsrc hnot]

theorem solveSource_emitted (h : e.added.sourceIndex.get? src = e.repodata.sourceIndex.get? src)
    (overrides : Dict String String) (probe : Dict String Report) (implicit : List String) :
    solveSource e.emitted overrides probe implicit src =
      solveSource e.repodata overrides probe implicit src := by
  unfold solveSource Emission.emitted
  dsimp only
  rw [h]
  rfl

/-- What the recipe of a source is made of, where no variant has a part in it. -/
structure Untouched (e : Emission) (src : String) : Prop where
  record : e.added.sourceIndex.get? src = e.repodata.sourceIndex.get? src
  unrequested : e.variants.get? src = none
  unrouted : ∀ binary, e.added.routes.route src binary = none
  built : ∀ binary producer, e.repodata.sourceOf.get? binary = some producer →
    (producer ∈ e.added.buildSet ↔ producer ∈ e.buildSet)

/-- The recipe of an untouched source. -/
theorem package_untouched (h : Untouched e src) (hsrc : src ∈ e.buildSet)
    (overrides : Dict String String) (probe : Dict String Report) (implicit : List String) :
    (e.solved overrides probe implicit).package src =
      (e.unvaried.solved overrides probe implicit).package src := by
  have hadded : src ∈ e.added.buildSet := (mem_buildSet_of_unrequested h.unrequested).mpr hsrc
  obtain ⟨hdeps, hresolutions, hdynamic⟩ :=
    @solve_at src e.emitted e.added.buildSet overrides probe implicit hadded
  obtain ⟨hdeps', hresolutions', hdynamic'⟩ :=
    @solve_at src e.repodata e.buildSet overrides probe implicit hsrc
  have hsolve := solveSource_emitted h.record overrides probe implicit
  have htaken : ∀ dep, takenFromRecipe e.emitted e.added.buildSet dep =
      takenFromRecipe e.repodata e.buildSet dep := by
    intro dep
    unfold takenFromRecipe
    show (e.repodata.sourceOf.get? dep).any _ = _
    cases hproducer : e.repodata.sourceOf.get? dep with
    | none => rfl
    | some producer => exact decide_eq_decide.mpr (h.built dep producer hproducer)
  have hrouted : ∀ dep, routedBinary e.emitted e.args src dep = pinBinary e.repodata dep := by
    intro dep
    unfold routedBinary
    have hroute : e.args.routes.route src dep = none := h.unrouted dep
    rw [hroute]
    rfl
  have hsubpackages : e.added.subpackages.getD src [] = [] := by
    have hlisted : Added e.repodata e.binarySuperseded e.variants e.buildSet e.added :=
      added_addSourceVariants e.buildSet
    unfold Dict.getD
    cases hnames : e.added.subpackages.get? src with
    | none => rfl
    | some names =>
      obtain ⟨variant, haccepted⟩ := hlisted.listed src names hnames
      have hstated := haccepted.stated
      rw [h.unrequested] at hstated
      cases hstated
  have hsource : lockSource e.emitted e.args.sourceVariant src =
      lockSource e.repodata e.unvaried.args.sourceVariant src := by
    have hname :
        specName e.args.sourceVariant src = specName e.unvaried.args.sourceVariant src := by
      show specName e.variants src = specName Dict.empty src
      unfold specName
      rw [h.unrequested]
      rfl
    unfold lockSource
    rw [hname]
    have hindex : e.emitted.sourceIndex.get? src = e.repodata.sourceIndex.get? src := h.record
    rw [hindex]
  have hrecipe : recipeSubpackages e.emitted e.added.subpackages src =
      recipeSubpackages e.repodata Dict.empty src := by
    unfold recipeSubpackages
    rw [hsubpackages]
    rfl
  show lockPackage e.emitted e.added.buildSet
      (solve e.emitted e.added.buildSet overrides probe implicit) e.args e.added.subpackages src =
    lockPackage e.repodata e.buildSet (solve e.repodata e.buildSet overrides probe implicit)
      e.unvaried.args Dict.empty src
  unfold lockPackage
  dsimp only
  rw [hdeps, hdeps', hresolutions, hresolutions', hdynamic, hdynamic', hsolve, hsource, hrecipe,
    funext hrouted]
  simp only [htaken]
  congr 1
  show (e.variants.get? src).map SourceVariant.source = none
  rw [h.unrequested]
  rfl

/-- **The lock of an untouched source** is the lock of the solve without variants. -/
theorem lock_untouched (h : Untouched e src) (overrides : Dict String String)
    (probe : Dict String Report) (implicit : List String) (plan plan' : Plan)
    (imageSets : Dict String (List String)) (seedPackages : List String)
    (imageUniverse : Universe) :
    ((e.solved overrides probe implicit).lock plan imageSets seedPackages
        imageUniverse).packages.get? src =
      ((e.unvaried.solved overrides probe implicit).lock plan' imageSets seedPackages
        imageUniverse).packages.get? src := by
  by_cases hsrc : src ∈ e.buildSet
  · have hadded : src ∈ (e.solved overrides probe implicit).added.buildSet :=
      (mem_buildSet_of_unrequested h.unrequested).mpr hsrc
    have hstart : src ∈ (e.unvaried.solved overrides probe implicit).added.buildSet := hsrc
    rw [get?_packages hadded, get?_packages hstart, package_untouched h hsrc]
  · have hadded : src ∉ (e.solved overrides probe implicit).added.buildSet :=
      (mem_buildSet_of_unrequested h.unrequested).not.mpr hsrc
    have hstart : src ∉ (e.unvaried.solved overrides probe implicit).added.buildSet := hsrc
    have hnone : ∀ {e : Emission} {plan : Plan}, src ∉ e.added.buildSet →
        (e.lock plan imageSets seedPackages imageUniverse).packages.get? src = none := by
      intro e plan hnot
      exact Dict.get?_ofKeys_of_notMem _ (PyText.mem_sortedSet.not.mpr hnot)
    rw [hnone hadded, hnone hstart]

end Others

/-! ## The frame -/

/-- Adding the variants extends what was there: the records, the producers and the subpackages
    stay; a request adds its one record or leaves a problem, and under the name of a known
    source it leaves a problem; only named consumers are routed, for binaries that have the
    requested build; and the lock of every other source stays. -/
structure Extends (e : Emission) : Prop where
  records : ∀ src record, e.repodata.sourceIndex.get? src = some record →
    e.emitted.sourceIndex.get? src = some record
  producers : e.emitted.sourceOf = e.repodata.sourceOf ∧
    e.emitted.subpackages = e.repodata.subpackages
  requests : ∀ name variant, e.variants.get? name = some variant →
    (∃ current older, e.emitted.sourceIndex.get? variant.source = some current ∧
        e.sourceSuperseded.build (variant.source, current.arch) variant.evr = some older ∧
        e.repodata.sourceIndex.get? name = none ∧
        e.emitted.sourceIndex.get? name = some { older with name := name } ∧
        ∀ problem ∈ e.added.problems, problem.who ≠ name) ∨
      ((∃ problem ∈ e.added.problems, problem.who = name) ∧
        e.emitted.sourceIndex.get? name = e.repodata.sourceIndex.get? name)
  others : ∀ src, e.variants.get? src = none →
    e.emitted.sourceIndex.get? src = e.repodata.sourceIndex.get? src
  routes : ∀ src binary name, e.added.routes.route src binary = some name →
    ∃ variant, e.variants.get? name = some variant ∧ src ∈ variant.consumers ∧
      binary ∈ e.repodata.subpackages.getD variant.source [] ∧
      (olderBinary e.repodata e.binarySuperseded binary variant.evr).isSome
  redefined : ∀ name ∈ e.variants.keys, KnownSource e.repodata name →
    ∃ problem ∈ e.added.problems, problem.who = name
  locks : ∀ src, e.variants.get? src = none →
    (∀ name variant, e.variants.get? name = some variant → src ∉ variant.consumers) →
    ∀ overrides probe implicit plan plan' imageSets seedPackages imageUniverse,
      ((e.solved overrides probe implicit).lock plan imageSets seedPackages
          imageUniverse).packages.get? src =
        ((e.unvaried.solved overrides probe implicit).lock plan' imageSets seedPackages
          imageUniverse).packages.get? src

section Frame

variable {e : Emission}

theorem routes_of_added (e : Emission) (src binary name : String)
    (h : e.added.routes.route src binary = some name) :
    ∃ variant, e.variants.get? name = some variant ∧ src ∈ variant.consumers ∧
      binary ∈ e.repodata.subpackages.getD variant.source [] ∧
      (olderBinary e.repodata e.binarySuperseded binary variant.evr).isSome := by
  have hadded : Added e.repodata e.binarySuperseded e.variants e.buildSet e.added :=
    added_addSourceVariants e.buildSet
  obtain ⟨variant, haccepted, hrest⟩ := hadded.routed src binary name h
  exact ⟨variant, haccepted.stated, hrest⟩

/-- A record the run did not write for a request is the one that was there. -/
theorem Clean.get?_eq {done : List String} {s : Variants} (h : Clean e done s) {src : String}
    (hnot : src ∈ done → ∀ older, ¬ Granted e src older) :
    s.sourceIndex.get? src = e.repodata.sourceIndex.get? src := by
  cases hs : s.sourceIndex.get? src with
  | none =>
    cases hr : e.repodata.sourceIndex.get? src with
    | none => rfl
    | some record =>
      rw [h.kept src record hr] at hs
      cases hs
  | some record =>
    rcases h.only src record hs with hr | ⟨hdone, older, hg, -⟩
    · exact hr.symm
    · exact absurd hg (hnot hdone older)

/-- What a granted request leaves. -/
theorem Clean.exists_added (h : Clean e (PyText.sortedSet e.variants.keys) e.added)
    {name : String} {variant : SourceVariant} (hv : e.variants.get? name = some variant)
    {older : PackageRecord} (hg : Granted e name older) :
    ∃ current, e.added.sourceIndex.get? variant.source = some current ∧
      e.sourceSuperseded.build (variant.source, current.arch) variant.evr = some older := by
  cases hg with
  | ofSource hv' hcurrent hbuild =>
    obtain rfl := Option.some.inj (hv.symm.trans hv')
    exact ⟨_, h.kept _ _ hcurrent, hbuild⟩
  | ofVariant hv' hnone hlt hsource hbuild =>
    obtain rfl := Option.some.inj (hv.symm.trans hv')
    exact ⟨_, (h.granted _ (PyText.mem_sortedSet.mpr hsource.requested) _ hsource).2.1, hbuild⟩

/-- **Adding variants extends what was there** exactly when no request is granted under the name
    of a source package that the repodata knows. -/
theorem add_source_variants_extends_iff (e : Emission) :
    Extends e ↔ ∀ name older, Granted e name older → ¬ KnownSource e.repodata name := by
  constructor
  · intro h name older hg hknown
    have hclean := clean_of_refused fun name hname hsome => h.redefined name hname (Or.inl hsome)
    obtain ⟨problem, hp, hwho⟩ := h.redefined name hg.requested hknown
    exact (hclean.granted name (PyText.mem_sortedSet.mpr hg.requested) older hg).2.2 problem hp hwho
  · intro h
    have hfresh : ∀ name older, Granted e name older →
        e.repodata.sourceIndex.get? name = none := by
      intro name older hg
      by_contra hsome
      exact h name older hg (Or.inl (Option.isSome_iff_ne_none.mpr hsome))
    have hclean := clean_of_fresh hfresh
    have hothers : ∀ src, e.variants.get? src = none →
        e.added.sourceIndex.get? src = e.repodata.sourceIndex.get? src := by
      intro src hsrc
      refine hclean.get?_eq fun hdone => ?_
      rw [PyText.mem_sortedSet, Dict.mem_keys_iff, hsrc] at hdone
      cases hdone
    refine ⟨hclean.kept, ⟨rfl, rfl⟩, fun name variant hv => ?_, hothers, routes_of_added e,
      fun name hname hknown => ?_, fun src hsrc hconsumer => ?_⟩
    · have hdone : name ∈ PyText.sortedSet e.variants.keys := by
        rw [PyText.mem_sortedSet, Dict.mem_keys_iff, hv]
        rfl
      by_cases hg : ∃ older, Granted e name older
      · obtain ⟨older, hg⟩ := hg
        obtain ⟨hnone, hget, hclear⟩ := hclean.granted name hdone older hg
        obtain ⟨current, hcurrent, hbuild⟩ := hclean.exists_added hv hg
        exact Or.inl ⟨current, older, hcurrent, hbuild, hnone, hget, hclear⟩
      · have hno := not_exists.mp hg
        exact Or.inr ⟨hclean.refused name hdone hno, hclean.get?_eq fun _ => hno⟩
    · exact hclean.refused name (PyText.mem_sortedSet.mpr hname) fun older hg =>
        h name older hg hknown
    · intro overrides probe implicit plan plan' imageSets seedPackages imageUniverse
      apply lock_untouched
      refine ⟨hothers src hsrc, hsrc, fun binary => ?_, fun binary producer hproducer => ?_⟩
      · by_contra hroute
        obtain ⟨name, hroute⟩ := Option.ne_none_iff_exists'.mp hroute
        obtain ⟨variant, hv, hmem, -⟩ := routes_of_added e src binary name hroute
        exact hconsumer name variant hv hmem
      · have hadded : Added e.repodata e.binarySuperseded e.variants e.buildSet e.added :=
          added_addSourceVariants e.buildSet
        refine ⟨fun hb => ?_, fun hb => hadded.kept hb⟩
        refine (hclean.built producer hb).resolve_right fun ⟨older, hg⟩ => ?_
        exact h producer older hg (Or.inr ⟨binary, hproducer⟩)

/-- An older acl under the name of tar, for rsync. -/
def aclAsTar : Emission :=
  { repodata :=
      { provides := Dict.empty, provideEvr := Dict.empty, requires := Dict.empty
        sourceOf := Dict.single "tar" "tar"
        subpackages := Dict.single "tar" ["tar"]
        binaryIndex := Dict.empty
        sourceIndex := ⟨[("acl", { name := "acl", arch := "src", version := "2.4.0" }),
          ("tar", { name := "tar", arch := "src", version := "1.35" })]⟩
        foreignSourceOf := Dict.empty }
    variants := Dict.single "tar" ⟨"acl", "2.3.2-1", ["rsync"]⟩
    sourceSuperseded := Dict.single ("acl", "src") (Dict.single "2.3.2-1"
      { name := "acl", arch := "src", version := "2.3.2", release := "1" })
    binarySuperseded := Dict.empty
    buildSet := ["tar"]
    solution :=
      { buildDeps := Dict.empty, resolutions := Dict.empty, problems := []
        dynamic := Dict.empty, baseClosure := ∅ } }

/-- The record of tar is gone. -/
theorem acl_redefines_tar : ¬ Extends aclAsTar := by
  intro h
  have htar := h.records "tar" { name := "tar", arch := "src", version := "1.35" } rfl
  revert htar
  decide

end Frame

end BuckosDistro.Solve
