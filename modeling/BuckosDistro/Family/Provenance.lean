/-
  Where the packages of an image come from (`defs/rpm_family.bzl`, `rpm_image_rootfs`, with
  the source policy of `tools/solve.py`).

  The policy asks whether the source of a payload is the spec of some recipe. The image rule
  asks whether a recipe that is no variant lists the payload. A payload is listed by the
  recipe of its source alone, so the two agree as long as that recipe is the one that makes
  the spec a producer. It is not when a variant is named after the source and another variant
  is built from it.
-/
import BuckosDistro.Family.Recipes
import BuckosDistro.Solve.SourceImages
import BuckosDistro.Solve.Fallback

namespace BuckosDistro.Family

open BuckosDistro.Lib BuckosDistro.Depgraph BuckosDistro.Solve BuckosDistro.Generate
open BuckosDistro.Policy

/-! ## The rule -/

/-- `recipe.get("variant_of")` -/
def isVariant (recipe : Recipe) : Bool := recipe.variantOf.any (· ≠ "")

theorem get?_foldl_provider (names : List String) (recipe : Recipe)
    (provider : Dict String Recipe) (binary : String) :
    (names.foldl (fun provider name => provider.set name recipe) provider).get? binary =
      if binary ∈ names then some recipe else provider.get? binary := by
  induction names generalizing provider with
  | nil => simp
  | cons name names ih =>
    rw [List.foldl_cons, ih, Dict.get?_set]
    by_cases hmem : binary ∈ names <;> by_cases hn : binary = name <;> simp [hmem, hn]

/-- A provider is a recipe that lists the binary and is no variant. -/
theorem get?_binaryProviders {recipes : List Recipe} {binary : String} {recipe : Recipe}
    (h : (binaryProviders recipes []).get? binary = some recipe) :
    recipe ∈ recipes ∧ isVariant recipe = false ∧ binary ∈ recipe.subpackages := by
  unfold binaryProviders at h
  have hall : ∀ rs : List Recipe, (rs.foldl (fun provider recipe =>
      recipe.subpackages.foldl (fun provider subpackage => provider.set subpackage recipe)
        provider) Dict.empty).get? binary = some recipe →
      recipe ∈ rs ∧ binary ∈ recipe.subpackages := by
    intro rs
    induction rs using List.reverseRecOn with
    | nil => exact fun hg => nomatch hg
    | append_singleton rs r ih =>
      intro hg
      rw [List.foldl_append, List.foldl_cons, List.foldl_nil, get?_foldl_provider] at hg
      split_ifs at hg with hmem
      · obtain rfl := Option.some.inj hg
        exact ⟨by simp, hmem⟩
      · obtain ⟨hr, hsub⟩ := ih hg
        exact ⟨List.mem_append_left _ hr, hsub⟩
  obtain ⟨hmem, hsub⟩ := hall _ h
  rw [List.mem_filter] at hmem
  refine ⟨hmem.1, ?_, hsub⟩
  have hvariant := hmem.2
  unfold isVariant
  simpa using hvariant

/-- The inputs that decide which sources are built. -/
structure SourceImages where
  targetCpu : String
  composeGroups : List (String × List PackageRecord)
  fallbackGroups : List (String × List PackageRecord)
  sourcePkgs : List PackageRecord
  probe : Dict String Report
  explicitBuild : List String
  prebuiltSources : List String
  sourceImages : List String
  imageSets : Dict String (List String)
  sourceExceptions : List RawException

namespace SourceImages

/-- `universe`, after the probe reports. -/
def universe' (s : SourceImages) : Universe :=
  applyProbedProducers
    (combinedUniverse s.targetCpu s.composeGroups s.fallbackGroups s.sourcePkgs) s.probe

/-- `compose_universe`, after the probe reports: `universe` where there is no fallback. -/
def compose (s : SourceImages) : Universe :=
  if s.fallbackGroups.isEmpty then s.universe'
  else applyProbedProducers (composeUniverse s.targetCpu s.composeGroups s.sourcePkgs) s.probe

/-- The image sets are solved over the compose and pinned from it. -/
def lock (s : SourceImages) (e : Emission) (plan : Plan) (seedPackages : List String) : Lock :=
  e.lock plan s.imageSets seedPackages s.compose

/-- The solve emits a lock with a policy, and the lock a module that loads. -/
structure Emits (s : SourceImages) (e : Emission) (lock : Lock) (policy : SourcePolicy)
    (data : Generated) : Prop where
  layered : Layered s.composeGroups s.fallbackGroups
  apart : ∀ src ∈ s.explicitBuild, src ∉ s.prebuiltSources
  repodata : e.repodata = s.universe'
  stated : ∃ specs, parseSourceVariants specs = .ok e.variants
  built : ∃ sources, sourceBuildSet s.imageSets s.compose.sourceOf s.sourceImages
    s.prebuiltSources = .ok sources ∧ ∀ src, src ∈ e.buildSet ↔ src ∈ s.explicitBuild ∨
      src ∈ sources
  policy : buildSourcePolicy (policyImages lock s.sourceImages)
    (policyProducers lock s.prebuiltSources) s.sourceExceptions s.sourceImages = .ok policy
  collected : collect lock = some data

end SourceImages

section Agree

variable {s : SourceImages} {e : Emission} {plan : Plan} {seedPackages : List String}
  {policy : SourcePolicy} {data : Generated} {package src : String}

end Agree

end BuckosDistro.Family
