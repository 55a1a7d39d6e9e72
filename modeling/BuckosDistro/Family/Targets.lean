/-
  The targets of a package macro (`defs/flavor.bzl`, `_rpm_package` and `_deb_package`).

  Every name is the target name with a suffix: a word of the macro's own, or the short form of a
  subpackage, alone or with the suffix of a package file. Which subpackages come out under one
  name is said of the names that were given (`Meets`), and a call registers no name twice where
  none of its subpackages do (`RpmApart`, `DebApart`).
-/
import BuckosDistro.Lib.Dict

namespace BuckosDistro.Family

open BuckosDistro.Lib

/-! ## The macros -/

/-- A target as a macro registers it, with the labels and the package names it is given. -/
inductive Target
  | srpmUnpack (name expectSpec : List Char)
  | srpmBuildrequires (name topdir packageName : List Char)
  | srpmBuild (name topdir packageName : List Char)
  | rpmSubpackage (name srpm rpm : List Char)
  | builtRpm (name srpm rpm : List Char)
  | dscUnpack (name packageName : List Char)
  | debBuild (name source : List Char)
  | debSubpackage (name source packageName architecture sourceName sourceVersion : List Char)
  | builtDeb (name source packageName architecture sourceName sourceVersion : List Char)
  | alias (name actual : List Char)

/-- The name a target is registered under. -/
def Target.name : Target → List Char
  | .srpmUnpack name _ | .srpmBuildrequires name _ _ | .srpmBuild name _ _
  | .rpmSubpackage name _ _ | .builtRpm name _ _ | .dscUnpack name _ | .debBuild name _
  | .debSubpackage name _ _ _ _ _ | .builtDeb name _ _ _ _ _ | .alias name _ => name

/-- `_RESERVED_SUFFIXES` -/
def reservedSuffixes : List (List Char) :=
  ["topdir".toList, "buildrequires".toList, "build".toList]

/-- `_strip_prefix` -/
def stripLead (value lead : List Char) : List Char :=
  if lead.isPrefixOf value then value.drop lead.length else value

/-- `_subpackage_target` -/
def subpackageTarget (name source sub : List Char) : List Char :=
  if sub = source then name ++ "-main".toList
  else
    let tail := stripLead sub (source ++ "-".toList)
    let tail := if tail ∈ reservedSuffixes then sub else tail
    name ++ "-".toList ++ tail

/-- `subpackage_rpm_target` -/
def subpackageRpmTarget (name source sub : List Char) : List Char :=
  subpackageTarget name source sub ++ "-rpm".toList

/-- `subpackage_deb_target` -/
def subpackageDebTarget (name source sub : List Char) : List Char :=
  subpackageTarget name source sub ++ "-deb".toList

/-- `_subpackage_rpm_name` -/
def subpackageRpmName (_source sub : List Char) : List Char := sub

/-- `source_name or name` -/
def sourceOf (name : List Char) (sourceName : Option (List Char)) : List Char :=
  match sourceName with
  | none => name
  | some source => if source = [] then name else source

/-- `subpackages or [source_name]` -/
def subpackagesOf (source : List Char) (subpackages : Option (List (List Char))) :
    List (List Char) :=
  match subpackages with
  | none => [source]
  | some subs => if subs = [] then [source] else subs

/-- What `:name` stands for. -/
def aliasActual (name source : List Char) (subs : List (List Char)) : List Char :=
  if source ∈ subs then ':' :: subpackageTarget name source source
  else ':' :: name ++ "-build".toList

/-- `_rpm_package`, as the targets it registers, in order. -/
def rpmPackage (name : List Char) (sourceName : Option (List Char))
    (subpackages : Option (List (List Char))) : List Target :=
  let source := sourceOf name sourceName
  let subs := subpackagesOf source subpackages
  let topdir := ':' :: name ++ "-topdir".toList
  let build := ':' :: name ++ "-build".toList
  [.srpmUnpack (name ++ "-topdir".toList) (source ++ ".spec".toList),
    .srpmBuildrequires (name ++ "-buildrequires".toList) topdir source,
    .srpmBuild (name ++ "-build".toList) topdir source] ++
  (subs.flatMap fun sub =>
    [.rpmSubpackage (subpackageTarget name source sub) build (subpackageRpmName source sub),
      .builtRpm (subpackageRpmTarget name source sub) build (subpackageRpmName source sub)]) ++
  [.alias name (aliasActual name source subs)]

/-- What the lockfile knows of a binary package. -/
structure BinaryMetadata where
  architecture : Option (List Char)
  sourceVersion : Option (List Char)

/-- `version_full or version + ("-" + release if release else "")` -/
def fullVersion (version versionFull release : List Char) : List Char :=
  if versionFull ≠ [] then versionFull
  else version ++ if release ≠ [] then '-' :: release else []

/-- The targets of one subpackage. -/
def debTargets (name source full : List Char) (binaryMetadata : Dict (List Char) BinaryMetadata)
    (sub : List Char) : List Target :=
  let metadata := binaryMetadata.getD sub ⟨none, none⟩
  let architecture := metadata.architecture.getD []
  let sourceVersion := metadata.sourceVersion.getD full
  let build := ':' :: name ++ "-build".toList
  .debSubpackage (subpackageTarget name source sub) build sub architecture source sourceVersion ::
    if architecture ≠ [] ∧ sourceVersion ≠ [] then
      [.builtDeb (subpackageDebTarget name source sub) build sub architecture source sourceVersion]
    else []

/-- `_deb_package`, as the targets it registers, in order. -/
def debPackage (name : List Char) (sourceName : Option (List Char))
    (version versionFull release : List Char) (subpackages : Option (List (List Char)))
    (binaryMetadata : Dict (List Char) BinaryMetadata) : List Target :=
  let source := sourceOf name sourceName
  let subs := subpackagesOf source subpackages
  let full := fullVersion version versionFull release
  [.dscUnpack (name ++ "-source".toList) source,
    .debBuild (name ++ "-build".toList) (':' :: name ++ "-source".toList)] ++
  subs.flatMap (debTargets name source full binaryMetadata) ++
  [.alias name (aliasActual name source subs)]

/-! ## Short forms -/

/-- A subpackage that is known by what follows the source's name in its own. -/
def Shortened (source sub rest : List Char) : Prop :=
  sub = source ++ '-' :: rest ∧ rest ∉ reservedSuffixes

/-- A subpackage that is known by its own name. -/
def Verbatim (source sub : List Char) : Prop :=
  sub ≠ source ∧ ∀ rest, ¬ Shortened source sub rest

/-- The subpackage `u` is known as `v` is, with the suffix: two names that come to one where the
    source's name in front is dropped, and `main` stands for it. -/
inductive Meets (source suffix : List Char) : List Char → List Char → Prop
  | main (hu : Verbatim source ("main".toList ++ suffix)) : Meets source suffix
      ("main".toList ++ suffix) source
  | sourceMain {u : List Char} (hu : Shortened source u ("main".toList ++ suffix)) :
      Meets source suffix u source
  | verbatim {v : List Char} (hv : Verbatim source v) (hu : Verbatim source (v ++ suffix)) :
      Meets source suffix (v ++ suffix) v
  | shortened {u v rest : List Char} (hv : Shortened source v rest)
      (hu : Shortened source u (rest ++ suffix)) : Meets source suffix u v
  | longer {u v : List Char} (hv : Verbatim source v) (hu : Shortened source u (v ++ suffix)) :
      Meets source suffix u v
  | shorter {v rest : List Char} (hv : Shortened source v rest)
      (hu : Verbatim source (rest ++ suffix)) : Meets source suffix (rest ++ suffix) v

/-- What a subpackage is known as, behind the target name. -/
def shortForm (source sub : List Char) : List Char :=
  if sub = source then "main".toList
  else
    let tail := stripLead sub (source ++ "-".toList)
    if tail ∈ reservedSuffixes then sub else tail

theorem subpackageTarget_eq (name source sub : List Char) :
    subpackageTarget name source sub = name ++ '-' :: shortForm source sub := by
  unfold subpackageTarget shortForm
  split_ifs with h
  · rfl
  · exact List.append_assoc name "-".toList _

section ShortForm

variable {source sub rest suffix u v : List Char}

theorem shortened_ne (h : Shortened source sub rest) : sub ≠ source := by
  intro he
  have hlen := congrArg List.length (he.symm.trans h.1)
  rw [List.length_append, List.length_cons] at hlen
  omega

@[simp] theorem shortForm_source : shortForm source source = "main".toList := if_pos rfl

theorem shortForm_of_shortened (h : Shortened source sub rest) : shortForm source sub = rest := by
  have hlead : stripLead sub (source ++ "-".toList) = rest := by
    have heq : sub = (source ++ "-".toList) ++ rest := by
      rw [h.1, List.append_assoc]
      rfl
    unfold stripLead
    rw [if_pos <| List.isPrefixOf_iff_prefix.mpr ⟨rest, heq.symm⟩, heq, List.drop_left]
  unfold shortForm
  rw [if_neg (shortened_ne h), hlead]
  exact if_neg h.2

theorem shortForm_of_verbatim (h : Verbatim source sub) : shortForm source sub = sub := by
  unfold shortForm
  rw [if_neg h.1]
  dsimp only
  split_ifs with hmem
  · rfl
  · unfold stripLead at hmem ⊢
    split_ifs at hmem ⊢ with hlead
    · obtain ⟨rest, heq⟩ := List.isPrefixOf_iff_prefix.mp hlead
      have hsub : sub = source ++ '-' :: rest := by
        rw [← heq, List.append_assoc]
        rfl
      rw [← heq, List.drop_left] at hmem
      exact absurd ⟨hsub, hmem⟩ (h.2 rest)
    · rfl

/-- A subpackage is the source's own, or its name is shortened, or it stands as it is. -/
theorem shortForm_cases (source sub : List Char) :
    sub = source ∨ (∃ rest, Shortened source sub rest) ∨ Verbatim source sub := by
  by_cases hsource : sub = source
  · exact .inl hsource
  · by_cases hrest : ∃ rest, Shortened source sub rest
    · exact .inr (.inl hrest)
    · exact .inr (.inr ⟨hsource, fun rest h => hrest ⟨rest, h⟩⟩)

theorem shortForm_of_meets (h : Meets source suffix u v) :
    shortForm source u = shortForm source v ++ suffix := by
  cases h with
  | main hu => rw [shortForm_of_verbatim hu, shortForm_source]
  | sourceMain hu => rw [shortForm_of_shortened hu, shortForm_source]
  | verbatim hv hu => rw [shortForm_of_verbatim hu, shortForm_of_verbatim hv]
  | shortened hv hu => rw [shortForm_of_shortened hu, shortForm_of_shortened hv]
  | longer hv hu => rw [shortForm_of_shortened hu, shortForm_of_verbatim hv]
  | shorter hv hu => rw [shortForm_of_verbatim hu, shortForm_of_shortened hv]

theorem meets_of_shortForm (hu : u ≠ source)
    (h : shortForm source u = shortForm source v ++ suffix) : Meets source suffix u v := by
  rcases shortForm_cases source u with he | ⟨rest, hrest⟩ | hverb
  · exact absurd he hu
  · rw [shortForm_of_shortened hrest] at h
    rcases shortForm_cases source v with rfl | ⟨rest', hrest'⟩ | hverb'
    · rw [shortForm_source] at h
      exact .sourceMain (h ▸ hrest)
    · rw [shortForm_of_shortened hrest'] at h
      exact .shortened hrest' (h ▸ hrest)
    · rw [shortForm_of_verbatim hverb'] at h
      exact .longer hverb' (h ▸ hrest)
  · rw [shortForm_of_verbatim hverb] at h
    rcases shortForm_cases source v with rfl | ⟨rest', hrest'⟩ | hverb'
    · rw [shortForm_source] at h
      rw [h] at hverb ⊢
      exact .main hverb
    · rw [shortForm_of_shortened hrest'] at h
      rw [h] at hverb ⊢
      exact .shorter hrest' hverb
    · rw [shortForm_of_verbatim hverb'] at h
      rw [h] at hverb ⊢
      exact .verbatim hverb' hverb

/-- A suffix with a hyphen is behind no name that is `main`. -/
theorem shortForm_eq_append_iff (hsuffix : '-' ∈ suffix) :
    shortForm source u = shortForm source v ++ suffix ↔ Meets source suffix u v := by
  refine ⟨fun h => ?_, shortForm_of_meets⟩
  apply meets_of_shortForm _ h
  intro he
  rw [he, shortForm_source] at h
  have hmem : '-' ∈ "main".toList := by
    rw [h]
    exact List.mem_append_right _ hsuffix
  exact absurd hmem (by decide)

/-- A word of the macros that a subpackage comes out as. -/
theorem shortForm_eq_word_iff {word : List Char} (hhyphen : '-' ∉ word)
    (hmain : word ≠ "main".toList) :
    shortForm source u = word ↔
      u = word ∧ word ≠ source ∨ Shortened source u word := by
  refine ⟨fun h => ?_, fun h => ?_⟩
  · rcases shortForm_cases source u with rfl | ⟨rest, hrest⟩ | hverb
    · rw [shortForm_source] at h
      exact absurd h.symm hmain
    · rw [shortForm_of_shortened hrest] at h
      exact .inr (h ▸ hrest)
    · rw [shortForm_of_verbatim hverb] at h
      exact .inl ⟨h, h ▸ hverb.1⟩
  · rcases h with ⟨rfl, hne⟩ | h
    · apply shortForm_of_verbatim
      refine ⟨hne, fun rest hrest => hhyphen ?_⟩
      rw [hrest.1]
      exact List.mem_append_right _ List.mem_cons_self
    · exact shortForm_of_shortened h

end ShortForm

/-! ## Names that are apart -/

/-- The suffixes of one subpackage. -/
def subSuffixes (source file : List Char) (hasFile : List Char → Prop) [DecidablePred hasFile]
    (sub : List Char) : List (List Char) :=
  ('-' :: shortForm source sub) ::
    if hasFile sub then [('-' :: shortForm source sub) ++ file] else []

section Suffixes

variable {words : List (List Char)} {source file : List Char} {hasFile : List Char → Prop}
  [DecidablePred hasFile] {subs : List (List Char)}

theorem mem_subSuffixes {sub suffix : List Char} :
    suffix ∈ subSuffixes source file hasFile sub ↔
      suffix = '-' :: shortForm source sub ∨
        hasFile sub ∧ suffix = '-' :: (shortForm source sub ++ file) := by
  unfold subSuffixes
  rw [List.mem_cons]
  split_ifs with h
  · rw [List.mem_singleton, List.cons_append]
    exact or_congr Iff.rfl (by rw [and_iff_right h])
  · exact or_congr Iff.rfl ⟨fun hmem => (nomatch hmem), fun hmem => absurd hmem.1 h⟩

theorem nodup_subSuffixes (hfile : file ≠ []) (sub : List Char) :
    (subSuffixes source file hasFile sub).Nodup := by
  unfold subSuffixes
  split_ifs with h
  · rw [List.nodup_cons, List.mem_singleton]
    refine ⟨fun he => hfile ?_, List.nodup_singleton _⟩
    have hnil := congrArg List.length he
    rw [List.length_append] at hnil
    exact List.length_eq_zero_iff.mp (by omega)
  · exact List.nodup_singleton _

/-- What two subpackages have in common. -/
theorem disjoint_subSuffixes {u v : List Char} :
    List.Disjoint (subSuffixes source file hasFile u) (subSuffixes source file hasFile v) ↔
      shortForm source u ≠ shortForm source v ∧
        (hasFile v → shortForm source u ≠ shortForm source v ++ file) ∧
        (hasFile u → shortForm source v ≠ shortForm source u ++ file) := by
  rw [List.disjoint_left]
  refine ⟨fun h => ⟨fun he => ?_, fun hv he => ?_, fun hu he => ?_⟩,
    fun ⟨hne, hv, hu⟩ suffix hmem hmem' => ?_⟩
  · exact h (mem_subSuffixes.mpr (.inl rfl)) (mem_subSuffixes.mpr (.inl (by rw [he])))
  · exact h (mem_subSuffixes.mpr (.inl rfl)) (mem_subSuffixes.mpr (.inr ⟨hv, by rw [he]⟩))
  · exact h (mem_subSuffixes.mpr (.inr ⟨hu, by rw [he]⟩)) (mem_subSuffixes.mpr (.inl rfl))
  · rcases mem_subSuffixes.mp hmem with rfl | ⟨hfu, rfl⟩ <;>
      rcases mem_subSuffixes.mp hmem' with he | ⟨hfv, he⟩
    · exact hne (List.cons.inj he).2
    · exact hv hfv (List.cons.inj he).2
    · exact hu hfu (List.cons.inj he).2.symm
    · exact hne (List.append_cancel_right (List.cons.inj he).2)

/-- Suffixes are distinct where the short forms are, from the words and from the files too. -/
theorem nodup_suffixes_iff (hwords : words.Nodup) (hplain : ∀ word ∈ words, '-' ∉ word)
    (hfile : '-' ∈ file) (hsubs : subs.Nodup) :
    (words.map ('-' :: ·) ++ subs.flatMap (subSuffixes source file hasFile) ++ [[]]).Nodup ↔
      (∀ word ∈ words, ∀ u ∈ subs, shortForm source u ≠ word) ∧
      (∀ u ∈ subs, ∀ v ∈ subs, u ≠ v → shortForm source u ≠ shortForm source v) ∧
      (∀ u ∈ subs, ∀ v ∈ subs, hasFile v → shortForm source u ≠ shortForm source v ++ file) := by
  have hne : file ≠ [] := List.ne_nil_of_mem hfile
  have hself (u : List Char) : shortForm source u ≠ shortForm source u ++ file := by
    intro he
    have hnil := congrArg List.length he
    rw [List.length_append] at hnil
    exact hne (List.length_eq_zero_iff.mp (by omega))
  have hpairs : (subs.flatMap (subSuffixes source file hasFile)).Nodup ↔
      ∀ u ∈ subs, ∀ v ∈ subs, u ≠ v →
        List.Disjoint (subSuffixes source file hasFile u) (subSuffixes source file hasFile v) := by
    rw [List.nodup_flatMap, and_iff_right fun u _ => nodup_subSuffixes hne u]
    have hsymm : Std.Symm (Function.onFun List.Disjoint (subSuffixes source file hasFile)) :=
      ⟨fun _ _ hd => List.Disjoint.symm hd⟩
    refine ⟨fun h u hu v hv huv => ?_, fun h => ?_⟩
    · exact h.forall hu hv huv
    · exact hsubs.pairwise_of_forall_ne h
  have hapart : (∀ suffix ∈ words.map ('-' :: ·),
      ∀ other ∈ subs.flatMap (subSuffixes source file hasFile), suffix ≠ other) ↔
      ∀ word ∈ words, ∀ u ∈ subs, shortForm source u ≠ word := by
    refine ⟨fun h word hword u hu he => ?_, fun h suffix hsuffix other hother he => ?_⟩
    · exact h _ (List.mem_map.mpr ⟨word, hword, rfl⟩) _
        (List.mem_flatMap.mpr ⟨u, hu, mem_subSuffixes.mpr (.inl rfl)⟩) (by rw [he])
    · obtain ⟨word, hword, rfl⟩ := List.mem_map.mp hsuffix
      obtain ⟨u, hu, hmem⟩ := List.mem_flatMap.mp hother
      rcases mem_subSuffixes.mp hmem with hshort | ⟨_, hshort⟩
      · exact h word hword u hu (List.cons.inj (he.trans hshort)).2.symm
      · refine hplain word hword ?_
        rw [(List.cons.inj (he.trans hshort)).2]
        exact List.mem_append_right _ hfile
  have hempty : ∀ suffix ∈ words.map ('-' :: ·) ++ subs.flatMap (subSuffixes source file hasFile),
      suffix ≠ [] := by
    intro suffix hmem he
    rcases List.mem_append.mp hmem with hword | hsub
    · obtain ⟨word, _, hcons⟩ := List.mem_map.mp hword
      exact List.cons_ne_nil _ _ (hcons.trans he)
    · obtain ⟨u, _, hmem⟩ := List.mem_flatMap.mp hsub
      rcases mem_subSuffixes.mp hmem with hcons | ⟨_, hcons⟩ <;>
        exact List.cons_ne_nil _ _ (hcons.symm.trans he)
  rw [List.nodup_append, List.nodup_append, hpairs, hapart, List.nodup_map_iff List.cons_injective]
  refine ⟨fun ⟨⟨_, hdisjoint, happ⟩, _⟩ => ⟨happ, fun u hu v hv huv => ?_, fun u hu v hv hf => ?_⟩,
    fun ⟨happ, hproj, hfiles⟩ => ⟨⟨hwords, fun u hu v hv huv => ?_, happ⟩, List.nodup_singleton _,
      fun suffix hmem other hother => ?_⟩⟩
  · exact (disjoint_subSuffixes.mp (hdisjoint u hu v hv huv)).1
  · by_cases huv : u = v
    · rw [huv]
      exact hself v
    · exact (disjoint_subSuffixes.mp (hdisjoint u hu v hv huv)).2.1 hf
  · exact disjoint_subSuffixes.mpr ⟨hproj u hu v hv huv, hfiles u hu v hv, hfiles v hv u hu⟩
  · rw [List.mem_singleton.mp hother]
    exact hempty suffix hmem

end Suffixes

/-! ## Calls that register no name twice -/

/-- No subpackage but the source's own is called like a target of the macro, and no two meet. -/
structure RpmApart (source : List Char) (subs : List (List Char)) : Prop where
  machinery : ∀ word ∈ reservedSuffixes, word ∈ subs → word = source
  projections : ∀ u ∈ subs, ∀ v ∈ subs, u ≠ v → ¬ Meets source [] u v
  files : ∀ u ∈ subs, ∀ v ∈ subs, ¬ Meets source "-rpm".toList u v

/-- The lockfile knows the architecture of a binary package and the version of its source. -/
def HasDeb (full : List Char) (binaryMetadata : Dict (List Char) BinaryMetadata)
    (sub : List Char) : Prop :=
  let metadata := binaryMetadata.getD sub ⟨none, none⟩
  metadata.architecture.getD [] ≠ [] ∧ metadata.sourceVersion.getD full ≠ []

instance (full : List Char) (binaryMetadata : Dict (List Char) BinaryMetadata) :
    DecidablePred (HasDeb full binaryMetadata) := fun sub => by
  unfold HasDeb
  infer_instance

/-- As `RpmApart`, with the words of the Debian macro. `source` is no reserved suffix, so that
    `<source>-source` is shortened to it. -/
structure DebApart (source : List Char) (subs : List (List Char)) (hasDeb : List Char → Prop) :
    Prop where
  noBuild : "build".toList ∈ subs → "build".toList = source
  noSource : "source".toList ∈ subs → "source".toList = source
  noSourceSource : source ++ "-source".toList ∉ subs
  projections : ∀ u ∈ subs, ∀ v ∈ subs, u ≠ v → ¬ Meets source [] u v
  files : ∀ u ∈ subs, ∀ v ∈ subs, hasDeb v → ¬ Meets source "-deb".toList u v

section Apart

variable {source file word : List Char} {subs : List (List Char)}

/-- No two short forms are one where no two names meet. -/
theorem shortForm_apart_iff :
    (∀ u ∈ subs, ∀ v ∈ subs, u ≠ v → shortForm source u ≠ shortForm source v) ↔
      ∀ u ∈ subs, ∀ v ∈ subs, u ≠ v → ¬ Meets source [] u v := by
  refine ⟨fun h u hu v hv huv hmeets => ?_, fun h u hu v hv huv he => ?_⟩
  · apply h u hu v hv huv
    rw [shortForm_of_meets hmeets, List.append_nil]
  · by_cases hsource : u = source
    · have hv' : v ≠ source := fun hv' => huv (hsource.trans hv'.symm)
      exact h v hv u hu (Ne.symm huv) (meets_of_shortForm hv' (by rw [he, List.append_nil]))
    · exact h u hu v hv huv (meets_of_shortForm hsource (by rw [he, List.append_nil]))

/-- A reserved word comes out only where it is given. -/
theorem reserved_apart_iff (hword : word ∈ reservedSuffixes) :
    (∀ u ∈ subs, shortForm source u ≠ word) ↔ (word ∈ subs → word = source) := by
  have hplain : ∀ word ∈ reservedSuffixes, '-' ∉ word ∧ word ≠ "main".toList := by decide
  obtain ⟨hhyphen, hmain⟩ := hplain word hword
  refine ⟨fun h hmem => ?_, fun h u hu he => ?_⟩
  · by_contra hne
    exact h word hmem ((shortForm_eq_word_iff hhyphen hmain).mpr (.inl ⟨rfl, hne⟩))
  · rcases (shortForm_eq_word_iff hhyphen hmain).mp he with ⟨rfl, hne⟩ | hshort
    · exact hne (h hu)
    · exact hshort.2 hword

/-- `source` comes out where it is given, and behind the source's name. -/
theorem source_apart_iff :
    (∀ u ∈ subs, shortForm source u ≠ "source".toList) ↔
      ("source".toList ∈ subs → "source".toList = source) ∧ source ++ "-source".toList ∉ subs := by
  have hiff (u : List Char) : shortForm source u = "source".toList ↔
      u = "source".toList ∧ "source".toList ≠ source ∨ Shortened source u "source".toList :=
    shortForm_eq_word_iff (by decide) (by decide)
  refine ⟨fun h => ⟨fun hmem => ?_, fun hmem => ?_⟩, fun ⟨h, hlong⟩ u hu he => ?_⟩
  · by_contra hne
    exact h _ hmem ((hiff _).mpr (.inl ⟨rfl, hne⟩))
  · exact h _ hmem ((hiff _).mpr (.inr ⟨rfl, by decide⟩))
  · rcases (hiff u).mp he with ⟨rfl, hne⟩ | hshort
    · exact hne (h hu)
    · exact hlong (hshort.1 ▸ hu)

theorem rpmApart_iff :
    RpmApart source subs ↔
      (∀ word ∈ reservedSuffixes, ∀ u ∈ subs, shortForm source u ≠ word) ∧
      (∀ u ∈ subs, ∀ v ∈ subs, u ≠ v → shortForm source u ≠ shortForm source v) ∧
      (∀ u ∈ subs, ∀ v ∈ subs, True →
        shortForm source u ≠ shortForm source v ++ "-rpm".toList) := by
  rw [shortForm_apart_iff]
  have hfiles (u v : List Char) : shortForm source u = shortForm source v ++ "-rpm".toList ↔
      Meets source "-rpm".toList u v := shortForm_eq_append_iff (by decide)
  refine ⟨fun ⟨hwords, hproj, hfile⟩ => ⟨fun word hword => ?_, hproj, fun u hu v hv _ he => ?_⟩,
    fun ⟨hwords, hproj, hfile⟩ => ⟨fun word hword => ?_, hproj, fun u hu v hv hmeets => ?_⟩⟩
  · exact (reserved_apart_iff hword).mpr (hwords word hword)
  · exact hfile u hu v hv ((hfiles u v).mp he)
  · exact (reserved_apart_iff hword).mp (hwords word hword)
  · exact hfile u hu v hv trivial ((hfiles u v).mpr hmeets)

theorem debApart_iff {hasDeb : List Char → Prop} :
    DebApart source subs hasDeb ↔
      (∀ word ∈ ["source".toList, "build".toList], ∀ u ∈ subs, shortForm source u ≠ word) ∧
      (∀ u ∈ subs, ∀ v ∈ subs, u ≠ v → shortForm source u ≠ shortForm source v) ∧
      (∀ u ∈ subs, ∀ v ∈ subs, hasDeb v →
        shortForm source u ≠ shortForm source v ++ "-deb".toList) := by
  rw [shortForm_apart_iff, List.forall_mem_cons, List.forall_mem_singleton, source_apart_iff,
    reserved_apart_iff (by decide)]
  have hfiles (u v : List Char) : shortForm source u = shortForm source v ++ "-deb".toList ↔
      Meets source "-deb".toList u v := shortForm_eq_append_iff (by decide)
  refine ⟨fun ⟨hbuild, hsource, hlong, hproj, hfile⟩ => ⟨⟨⟨hsource, hlong⟩, hbuild⟩, hproj,
      fun u hu v hv hd he => hfile u hu v hv hd ((hfiles u v).mp he)⟩,
    fun ⟨⟨⟨hsource, hlong⟩, hbuild⟩, hproj, hfile⟩ => ⟨hbuild, hsource, hlong, hproj,
      fun u hu v hv hd hmeets => hfile u hu v hv hd ((hfiles u v).mpr hmeets)⟩⟩

end Apart

section Names

variable (name : List Char) (sourceName : Option (List Char))
  (subpackages : Option (List (List Char)))

/-- The names of `_rpm_package`, behind the target name. -/
theorem names_rpmPackage :
    (rpmPackage name sourceName subpackages).map Target.name =
      (reservedSuffixes.map ('-' :: ·) ++ (subpackagesOf (sourceOf name sourceName)
        subpackages).flatMap (subSuffixes (sourceOf name sourceName) "-rpm".toList fun _ => True) ++
        [[]]).map (name ++ ·) := by
  unfold rpmPackage
  simp only [List.map_append, List.map_flatMap, List.map_cons, List.map_nil, List.append_nil,
    subSuffixes, if_true, Target.name, subpackageRpmTarget, subpackageTarget_eq, List.append_assoc]
  rfl

/-- The names of one subpackage of `_deb_package`. -/
theorem names_debTargets (source full : List Char)
    (binaryMetadata : Dict (List Char) BinaryMetadata) (sub : List Char) :
    (debTargets name source full binaryMetadata sub).map Target.name =
      (subSuffixes source "-deb".toList (HasDeb full binaryMetadata) sub).map (name ++ ·) := by
  unfold debTargets subSuffixes
  rw [List.map_cons, List.map_cons, ← subpackageTarget_eq]
  by_cases h : HasDeb full binaryMetadata sub
  · rw [if_pos (show _ ∧ _ from h), if_pos h, List.map_singleton, List.map_singleton,
      ← List.append_assoc, ← subpackageTarget_eq]
    rfl
  · rw [if_neg (show ¬ (_ ∧ _) from h), if_neg h]
    rfl

/-- The names of `_deb_package`, behind the target name. -/
theorem names_debPackage (version versionFull release : List Char)
    (binaryMetadata : Dict (List Char) BinaryMetadata) :
    (debPackage name sourceName version versionFull release subpackages binaryMetadata).map
        Target.name =
      (["source".toList, "build".toList].map ('-' :: ·) ++ (subpackagesOf (sourceOf name sourceName)
        subpackages).flatMap (subSuffixes (sourceOf name sourceName) "-deb".toList
          (HasDeb (fullVersion version versionFull release) binaryMetadata)) ++
        [[]]).map (name ++ ·) := by
  unfold debPackage
  simp only [List.map_append, List.map_flatMap, names_debTargets, List.map_cons, List.map_nil,
    Target.name, List.append_nil]
  rfl

/-- A call registers no name twice where its subpackages are apart. -/
theorem names_nodup_iff (version versionFull release : List Char)
    (binaryMetadata : Dict (List Char) BinaryMetadata)
    (hsubs : (subpackagesOf (sourceOf name sourceName) subpackages).Nodup) :
    (((rpmPackage name sourceName subpackages).map Target.name).Nodup ↔
      RpmApart (sourceOf name sourceName)
        (subpackagesOf (sourceOf name sourceName) subpackages)) ∧
    (((debPackage name sourceName version versionFull release subpackages binaryMetadata).map
        Target.name).Nodup ↔
      DebApart (sourceOf name sourceName) (subpackagesOf (sourceOf name sourceName) subpackages)
        (HasDeb (fullVersion version versionFull release) binaryMetadata)) := by
  have hinj : Function.Injective (name ++ ·) := fun _ _ => List.append_cancel_left
  constructor
  · rw [names_rpmPackage, List.nodup_map_iff hinj, rpmApart_iff]
    exact nodup_suffixes_iff (by decide) (by decide) (by decide) hsubs
  · rw [names_debPackage, List.nodup_map_iff hinj, debApart_iff]
    exact nodup_suffixes_iff (by decide) (by decide) (by decide) hsubs

/-- The package of a compression library, with three binaries of its own. -/
theorem names_nodup_attr :
    let subs := ["attr".toList, "libattr".toList, "libattr-devel".toList]
    subs.Nodup ∧
      (((rpmPackage "attr-43".toList "attr".toList subs).map Target.name).Nodup ↔
        RpmApart "attr".toList subs) ∧
      (((debPackage "attr-43".toList "attr".toList [] "1:2.5".toList [] subs Dict.empty).map
        Target.name).Nodup ↔
        DebApart "attr".toList subs (HasDeb "1:2.5".toList Dict.empty)) :=
  ⟨by decide, names_nodup_iff _ _ _ _ _ _ _ (by decide)⟩

end Names

/-- A call that registers a name twice: the Debian kernel with its `linux-source`, of which no more
    than `source` is left. -/
theorem names_twice :
    ¬ ∀ (name : List Char) (sourceName : Option (List Char))
      (subpackages : Option (List (List Char))) (version versionFull release : List Char)
      (binaryMetadata : Dict (List Char) BinaryMetadata),
      (subpackagesOf (sourceOf name sourceName) subpackages).Nodup →
        ((rpmPackage name sourceName subpackages).map Target.name).Nodup ∧
        ((debPackage name sourceName version versionFull release subpackages
          binaryMetadata).map Target.name).Nodup := by
  intro h
  have hlinux := (h "linux-trixie".toList (some "linux".toList)
    (some ["linux-source".toList, "linux-doc".toList]) [] "6.12.9-1".toList [] Dict.empty
    (by decide)).2
  exact absurd hlinux (by decide)

end BuckosDistro.Family
