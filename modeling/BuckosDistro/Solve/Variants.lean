/-
  Version variants (`tools/solve.py`, `parse_source_variants` and `add_source_variants`).

  A variant is a second build of a source package at another version. It joins the build
  set under a name of its own; the binaries that differ between the two versions are routed
  to it for the consumers it names.
-/
import BuckosDistro.Depgraph.Plan
import BuckosDistro.Lib.Lists
import BuckosDistro.Solve.Producers

namespace BuckosDistro.Solve

open BuckosDistro.Lib BuckosDistro.Depgraph

/-! ## The flag -/

/-- A variant as `--source-variant` states it. -/
structure SourceVariant where
  source : String
  evr : String
  consumers : List String
deriving DecidableEq, Repr

/-- `text.split(",")` -/
def splitCommas (text : List Char) : List (List Char) := text.splitOn ','

/-- `[part.strip() for part in text.split(",") if part.strip()]` -/
def commaParts (text : List Char) : List String :=
  ((splitCommas text).map fun part => String.ofList (PyText.strip part)).filter (· ≠ "")

/-- One trip of the loop of `parse_source_variants`: the entry a specification adds. -/
def parseSourceVariant (spec : String) : Except String (String × SourceVariant) :=
  let (head, consumers) := PyText.partition ':' spec.toList
  let (name, origin) := PyText.partition '=' head
  let (source, evr) := PyText.partition '@' (origin.getD [])
  let name := String.ofList (PyText.strip name)
  let source := String.ofList (PyText.strip source)
  let evr := String.ofList (PyText.strip (evr.getD []))
  let consumers := consumers.getD []
  if name = "" ∨ source = "" ∨ evr = "" ∨ PyText.strip consumers = [] then
    .error ("--source-variant expects name=source@evr:consumer[,...], got " ++
      PyText.repr spec)
  else if name = source then
    .error ("--source-variant " ++ name ++ ": the variant needs a name of its own, " ++
      "distinct from the source package it is built from")
  else .ok (name, ⟨source, evr, PyText.sortedSet (commaParts consumers)⟩)

/-- `parse_source_variants` -/
def parseSourceVariants (specs : List String) : Except String (Dict String SourceVariant) :=
  specs.foldlM (fun variants spec => do
    let (name, variant) ← parseSourceVariant spec
    return variants.set name variant) Dict.empty

section Parse

variable {spec name : String} {variant : SourceVariant}

theorem parseSourceVariant_named (h : parseSourceVariant spec = .ok (name, variant)) :
    variant.source ≠ "" ∧ name ≠ variant.source := by
  unfold parseSourceVariant at h
  dsimp only at h
  split_ifs at h with hparts hown
  obtain ⟨rfl, rfl⟩ := Prod.mk.inj (Except.ok.inj h)
  exact ⟨fun he => hparts (Or.inr (Or.inl he)), hown⟩

/-- A variant has a name of its own, and the source it varies has one. -/
theorem parseSourceVariants_named {specs : List String} {variants : Dict String SourceVariant}
    (h : parseSourceVariants specs = .ok variants) (hv : variants.get? name = some variant) :
    variant.source ≠ "" ∧ name ≠ variant.source := by
  have hall : ∀ name variant, variants.get? name = some variant →
      variant.source ≠ "" ∧ name ≠ variant.source := by
    refine Lists.foldlM_invariant (fun _ (variants : Dict String SourceVariant) =>
      ∀ name variant, variants.get? name = some variant →
        variant.source ≠ "" ∧ name ≠ variant.source) ?_ ?_ h
    · intro _ spec variants variants' hinv hstep name variant hv
      obtain ⟨⟨n, v⟩, hparse, hstep⟩ := Lists.exists_of_bind hstep
      obtain rfl := Except.ok.inj hstep
      rw [Dict.get?_set] at hv
      split_ifs at hv with hn
      · obtain rfl := Option.some.inj hv
        rw [hn]
        exact parseSourceVariant_named hparse
      · exact hinv name variant hv
    · intro name variant hv
      rw [Dict.get?_empty] at hv
      cases hv
  exact hall name variant hv

end Parse

/-! ## Adding them -/

/-- `superseded` of a merge: the builds that lost, by key and version. -/
abbrev Superseded := Dict Key (Dict String PackageRecord)

/-- `superseded.get(key, {}).get(evr)` -/
def Superseded.build (superseded : Superseded) (key : Key) (evr : String) :
    Option PackageRecord :=
  (superseded.getD key Dict.empty).get? evr

/-- The variables of the loop over the variants: what it writes to the universe and the
    build set, and what it returns. -/
structure Variants where
  sourceIndex : Dict String PackageRecord
  buildSet : List String
  problems : List Problem
  subpackages : Dict String (List String)
  routes : Routes

/-- The older build of a binary, under the architecture it has now. -/
def olderBinary (u : Universe) (superseded : Superseded) (binary evr : String) :
    Option PackageRecord :=
  (u.binaryIndex.get? binary).bind fun pkg => superseded.build (binary, pkg.arch) evr

/-- The two loops that route a variant: `routes.setdefault(consumer, {})[binary] = name`. -/
def addRoutes (u : Universe) (binarySuperseded : Superseded) (name : String)
    (variant : SourceVariant) (routes : Routes) : Routes :=
  (variant.consumers.flatMap fun consumer =>
    ((u.subpackages.getD variant.source []).filter fun binary =>
      (olderBinary u binarySuperseded binary variant.evr).isSome).map fun binary =>
        (consumer, binary)).foldl
    (fun routes use => routes.set use.1 ((routes.getD use.1 Dict.empty).set use.2 name)) routes

/-- The body of the loop. -/
def addVariant (u : Universe) (sourceSuperseded binarySuperseded : Superseded)
    (variants : Dict String SourceVariant) (s : Variants) (name : String) : Variants :=
  match variants.get? name with
  | none => s
  | some variant =>
    match s.sourceIndex.get? variant.source with
    | none =>
      { s with problems := s.problems ++ [⟨"variant",
          "no source package named " ++ PyText.repr variant.source, name⟩] }
    | some current =>
      match sourceSuperseded.build (variant.source, current.arch) variant.evr with
      | none =>
        let known := PyText.join ", " (PyText.sortedSet
          (sourceSuperseded.getD (variant.source, current.arch) Dict.empty).keys)
        { s with problems := s.problems ++ [⟨"variant",
            name ++ " wants " ++ variant.source ++ " at " ++ variant.evr ++
              ", which this repodata does not carry (newest is " ++ evrString current ++
              "; superseded: " ++ (if known = "" then "none" else known) ++ ")", name⟩] }
      | some older =>
        { s with
          sourceIndex := s.sourceIndex.set name { older with name := name }
          subpackages := s.subpackages.set name (u.subpackages.getD variant.source [])
          buildSet := s.buildSet ++ [name]
          routes := addRoutes u binarySuperseded name variant s.routes }

/-- `add_source_variants` -/
def addSourceVariants (variants : Dict String SourceVariant) (u : Universe)
    (sourceSuperseded binarySuperseded : Superseded) (buildSet : List String) : Variants :=
  (PyText.sortedSet variants.keys).foldl
    (addVariant u sourceSuperseded binarySuperseded variants)
    ⟨u.sourceIndex, buildSet, [], Dict.empty, Dict.empty⟩

/-! ## What the loop leaves -/

section Added

variable {variants : Dict String SourceVariant} {u : Universe}
  {sourceSuperseded binarySuperseded : Superseded}

theorem route_foldl (uses : List (String × String)) (routes : Routes) (src binary name : String) :
    (uses.foldl (fun routes use =>
      routes.set use.1 ((routes.getD use.1 Dict.empty).set use.2 name)) routes).route src binary =
      if (src, binary) ∈ uses then some name else routes.route src binary := by
  induction uses generalizing routes with
  | nil => simp
  | cons use uses ih =>
    obtain ⟨s, b⟩ := use
    rw [List.foldl_cons, ih]
    have hset : Routes.route (routes.set s ((routes.getD s Dict.empty).set b name)) src binary =
        if src = s ∧ binary = b then some name else routes.route src binary := by
      unfold Routes.route Dict.getD
      rw [Dict.get?_set]
      by_cases hs : src = s
      · subst hs
        rw [if_pos rfl, Option.getD_some, Dict.get?_set]
        by_cases hb : binary = b <;> simp [hb]
      · rw [if_neg hs, if_neg fun h => hs h.1]
    rw [hset]
    by_cases hmem : (src, binary) ∈ uses <;> by_cases hs : src = s <;>
      by_cases hb : binary = b <;> simp [hmem, hs, hb]

/-- A use is routed to the variant added last that names its consumer and differs in it. -/
theorem route_addRoutes (name : String) (variant : SourceVariant) (routes : Routes)
    (src binary : String) :
    (addRoutes u binarySuperseded name variant routes).route src binary =
      if src ∈ variant.consumers ∧ binary ∈ u.subpackages.getD variant.source [] ∧
          (olderBinary u binarySuperseded binary variant.evr).isSome then some name
      else routes.route src binary := by
  unfold addRoutes
  rw [route_foldl]
  congr 1
  simp [List.mem_flatMap, List.mem_filter]

/-- A variant that was added: what its recipe lists, and that it is built. -/
structure Accepted (u : Universe) (variants : Dict String SourceVariant) (buildSet : List String)
    (subpackages : Dict String (List String)) (name : String) (variant : SourceVariant) :
    Prop where
  stated : variants.get? name = some variant
  built : name ∈ buildSet
  subpackages : subpackages.get? name = some (u.subpackages.getD variant.source [])

/-- What holds of the variables after some of the variants. -/
structure Added (u : Universe) (binarySuperseded : Superseded)
    (variants : Dict String SourceVariant) (buildSet : List String) (s : Variants) : Prop where
  kept : buildSet ⊆ s.buildSet
  new : ∀ name ∈ s.buildSet, name ∈ buildSet ∨
    ∃ variant, Accepted u variants s.buildSet s.subpackages name variant
  listed : ∀ name names, s.subpackages.get? name = some names →
    ∃ variant, Accepted u variants s.buildSet s.subpackages name variant
  routed : ∀ src binary name, s.routes.route src binary = some name →
    ∃ variant, Accepted u variants s.buildSet s.subpackages name variant ∧
      src ∈ variant.consumers ∧ binary ∈ u.subpackages.getD variant.source [] ∧
      (olderBinary u binarySuperseded binary variant.evr).isSome

theorem Accepted.set {buildSet : List String} {subpackages : Dict String (List String)}
    {n name : String} {w variant : SourceVariant} (hv : variants.get? name = some variant)
    (hw : Accepted u variants buildSet subpackages n w) :
    Accepted u variants (buildSet ++ [name])
      (subpackages.set name (u.subpackages.getD variant.source [])) n w := by
  refine ⟨hw.stated, List.mem_append_left _ hw.built, ?_⟩
  rw [Dict.get?_set]
  split_ifs with hn
  · have hs := hw.stated
    rw [hn, hv, Option.some.injEq] at hs
    rw [hs]
  · exact hw.subpackages

theorem added_addVariant {buildSet : List String} {s : Variants}
    (h : Added u binarySuperseded variants buildSet s) (name : String) :
    Added u binarySuperseded variants buildSet
      (addVariant u sourceSuperseded binarySuperseded variants s name) := by
  unfold addVariant
  cases hv : variants.get? name with
  | none => exact h
  | some variant =>
    dsimp only
    cases s.sourceIndex.get? variant.source with
    | none => exact ⟨h.kept, h.new, h.listed, h.routed⟩
    | some current =>
      dsimp only
      cases sourceSuperseded.build (variant.source, current.arch) variant.evr with
      | none => exact ⟨h.kept, h.new, h.listed, h.routed⟩
      | some older =>
        dsimp only
        have hname : Accepted u variants (s.buildSet ++ [name])
            (s.subpackages.set name (u.subpackages.getD variant.source [])) name variant :=
          ⟨hv, by simp, by simp⟩
        refine ⟨fun n hn => List.mem_append_left _ (h.kept hn), fun n hn => ?_,
          fun n names hn => ?_, fun src b n hr => ?_⟩
        · rcases List.mem_append.mp hn with hn | hn
          · exact (h.new n hn).imp_right (Exists.imp fun w hw => hw.set hv)
          · obtain rfl := List.mem_singleton.mp hn
            exact Or.inr ⟨variant, hname⟩
        · dsimp only at hn
          rw [Dict.get?_set] at hn
          split_ifs at hn with he
          · exact ⟨variant, he ▸ hname⟩
          · exact (h.listed n names hn).imp fun w hw => hw.set hv
        · dsimp only at hr
          rw [route_addRoutes] at hr
          split_ifs at hr with hc
          · obtain rfl := Option.some.inj hr
            exact ⟨variant, hname, hc⟩
          · exact (h.routed src b n hr).imp fun w hw => ⟨hw.1.set hv, hw.2⟩

/-- The loop over all variants. -/
theorem added_addSourceVariants (buildSet : List String) :
    Added u binarySuperseded variants buildSet
      (addSourceVariants variants u sourceSuperseded binarySuperseded buildSet) := by
  unfold addSourceVariants
  generalize PyText.sortedSet variants.keys = names
  induction names using List.reverseRecOn with
  | nil =>
    refine ⟨List.Subset.refl _, fun n hn => Or.inl hn, fun n names hn => ?_,
      fun src b n hr => ?_⟩
    · cases hn
    · cases hr
  | append_singleton names name ih =>
    rw [List.foldl_append]
    exact added_addVariant ih name

end Added

end BuckosDistro.Solve
