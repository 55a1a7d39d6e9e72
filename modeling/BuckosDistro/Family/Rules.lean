/-
  The rules of a release (`defs/rpm_family.bzl`).

  The macros register the downloads, the buildroots, one `package` call for every recipe and
  stage, the aliases of what ships, the probes and the root filesystems. Rules name each other
  by their labels: the lists that say who builds a binary decide which ones a package is given.
-/
import BuckosDistro.Family.Downloads
import BuckosDistro.Family.Staged
import BuckosDistro.Family.Targets

namespace BuckosDistro.Family

open BuckosDistro.Lib BuckosDistro.Depgraph BuckosDistro.Generate BuckosDistro.Solve
open BuckosDistro.Relock

/-! ## Rules -/

/-- The label of a target of the same package: a colon and its name. -/
abbrev Label := List Char

/-- `":" + name` -/
def label (name : List Char) : Label := ':' :: name

/-- A call of `package`. -/
structure PackageCall where
  name : List Char
  buildroot : Label
  srpm : Label
  sourceName : List Char
  version : List Char
  release : List Char
  buildDeps : List Label
  depRpms : List Label
  useBcond : List String
  subpackages : List (List Char)
  distroRelease : List Char
deriving Inhabited

/-- A rule as it is registered. -/
inductive Rule
  | httpFile (file : HttpFile)
  | hostBuildroot (name : List Char) (distTag targetCpu : String)
  | seededBuildroot (name : List Char) (distTag targetCpu : String) (seedRpms : List Label)
  | prebuiltRpm (name : List Char) (rpm : Label) (packageName : String)
  | package (call : PackageCall) (target : Target)
  | alias (name : List Char) (actual : Label)
  | rootfs (name : List Char) (buildroot : Label) (rpms : List Label)
      (packageProvenance role : String)

namespace Rule

def name : Rule → List Char
  | .httpFile file => file.name
  | .hostBuildroot name _ _ | .seededBuildroot name _ _ _ | .prebuiltRpm name _ _ | .alias name _
  | .rootfs name _ _ _ _ => name
  | .package _ target => target.name

/-- The label other rules know it by. -/
def label (rule : Rule) : Label := Family.label rule.name

/-- What a target of a call is given of the call, and what the macro gives it itself. -/
def callLabels (call : PackageCall) : Target → List Label
  | .srpmUnpack _ _ => [call.srpm]
  | .srpmBuildrequires _ topdir _ | .srpmBuild _ topdir _ =>
    topdir :: call.buildroot :: (call.buildDeps ++ call.depRpms)
  | .rpmSubpackage _ srpm _ | .builtRpm _ srpm _ => [srpm]
  | .alias _ actual => [actual]
  | .dscUnpack _ _ | .debBuild _ _ | .debSubpackage _ _ _ _ _ _ | .builtDeb _ _ _ _ _ _ => []

/-- The labels a rule is given, of targets of the same package. -/
def labels : Rule → List Label
  | .httpFile _ | .hostBuildroot _ _ _ => []
  | .seededBuildroot _ _ _ seedRpms => seedRpms
  | .prebuiltRpm _ rpm _ => [rpm]
  | .package call target => callLabels call target
  | .alias _ actual => [actual]
  | .rootfs _ buildroot rpms _ _ => buildroot :: rpms

end Rule

/-- The targets of a call. -/
def PackageCall.rules (call : PackageCall) : List Rule :=
  (rpmPackage call.name (some call.sourceName) (some call.subpackages)).map (Rule.package call)

/-- `":" + entry["target"] + suffix` -/
def downloadLabel (suffix : List Char) (target : String) : Label :=
  label (target.toList ++ suffix)

/-! ## Local configuration -/

/-- `rpm_buildroot_target` -/
def rpmBuildrootTarget (config : LocalConfig) (suffix : List Char) : Label :=
  label ("buildroot-".toList ++ config.buildroot ++ suffix)

/-- `prebuilt_sources` -/
def prebuiltSources (config : LocalConfig) : List String :=
  (commaParts config.prebuilt).insertionSort (· ≤ ·)

/-- `_disabled_bconds` -/
def disabledBconds (flavor : Flavor) (config : LocalConfig) :
    Except String (Dict String (List String)) :=
  (commaParts config.without).foldlM (fun out item =>
    match PyText.partition ':' item.toList with
    | (_, none) =>
      .error (sectionOf flavor ++ "without expects source:bcond entries, got " ++ item)
    | (source, some bcond) =>
      .ok (out.append (String.ofList (PyText.strip source)) (String.ofList (PyText.strip bcond))))
    Dict.empty

/-! ## Buildroots -/

/-- `_SQUASHFS_COMPILE_SEED` -/
def squashfsCompileSeed : List String := ["libzstd-devel"]

/-- The downloads of the seed that are named so. -/
def seedLabels (data : ReleaseData) (suffix : List Char) (names : List String) : List Label :=
  (data.seedRpms.filter fun entry => entry.name ∈ names).map fun entry =>
    downloadLabel suffix entry.target

/-- `rpm_buildroots` -/
def rpmBuildroots (data : ReleaseData) (suffix : List Char) : List Rule :=
  let seedRpms := seedLabels data suffix data.baseSeed
  [.hostBuildroot ("buildroot-host".toList ++ suffix) data.distTag data.targetCpu,
    .seededBuildroot ("buildroot-binary-seed".toList ++ suffix) data.distTag data.targetCpu
      seedRpms,
    .seededBuildroot ("buildroot-squashfs-tools".toList ++ suffix) data.distTag data.targetCpu
      (seedRpms ++ seedLabels data suffix squashfsCompileSeed)]

/-! ## Prebuilt trees -/

/-- `seed_installroot_target` -/
def seedInstallrootTarget (entry : RpmEntry) (suffix : List Char) : List Char :=
  "seedroot-".toList ++ entry.target.toList ++ suffix

/-- `by_target`, of the entries in their order. -/
def byTarget (entries : List RpmEntry) : Dict String RpmEntry :=
  entries.foldl (fun d entry => d.set entry.target entry) Dict.empty

/-- The pins that have a tree of their own. -/
def overlaid (data : Generated) : List RpmEntry :=
  data.seedRpms.filter (fun entry => entry.name ∉ data.baseSeed) ++ data.variantSeedRpms

/-- `rpm_seed_installroots` -/
def rpmSeedInstallroots (data : Generated) (suffix : List Char) : List Rule :=
  ((PyText.sortedSet (byTarget (overlaid data)).keys).filterMap
    (byTarget (overlaid data)).get?).map fun entry =>
      .prebuiltRpm (seedInstallrootTarget entry suffix) (downloadLabel suffix entry.target)
        entry.name

/-! ## One package -/

/-- What `rpm_packages` looks names up in. -/
structure Tables where
  bySource : Dict String SourceEntry
  seedRpm : Dict String RpmEntry
  provider : Dict String Recipe
  variantRecipe : Dict String Recipe
  ships : Dict String String
  stageTarget : Dict String String
  defaultVariant : Dict String String

/-- `ships` -/
def shipped (staged : List StageEntry) : Dict String String :=
  staged.foldl (fun ships entry =>
    if entry.ships then ships.set entry.source entry.target else ships) Dict.empty

/-- The tables of a release. -/
def tables (config : LocalConfig) (data : Generated) : Tables :=
  let ships := shipped data.staged
  { bySource := data.sourceRpms.foldl (fun d entry => d.set entry.name entry) Dict.empty
    seedRpm := (data.seedRpms.filter fun entry => entry.name ∉ data.baseSeed).foldl
      (fun d entry => d.set entry.name entry) Dict.empty
    provider := binaryProviders data.recipes (prebuiltSources config)
    variantRecipe := (data.recipes.filter fun recipe => recipe.variantOf.any (· ≠ "")).foldl
      (fun d recipe => d.set recipe.name recipe) Dict.empty
    ships := ships
    stageTarget := stageTargets data.staged
    defaultVariant := data.recipes.foldl
      (fun d recipe => d.set recipe.name (ships.getD recipe.name recipe.name)) Dict.empty }

/-- One trip of the loop of `_variant_map`. -/
def variantStep (exclude : String) (cycleDeps : List String) (fromStage : String)
    (stageTarget out : Dict String String) (item : String × String) :
    Except String (Dict String String) :=
  if item.1 = exclude then .ok out
  else if item.1 ∈ cycleDeps then
    if fromStage = "seed" then .ok out
    else
      match stageTarget.get? (item.1 ++ "/" ++ fromStage) with
      | some target => .ok (out.set item.1 target)
      | none => .error ("no staged target for " ++ item.1 ++ " at " ++ fromStage)
  else .ok (out.set item.1 item.2)

/-- `_variant_map` -/
def variantMap (defaultVariant : Dict String String) (exclude : String)
    (cycleDeps : List String) (fromStage : String) (stageTarget : Dict String String) :
    Except String (Dict String String) :=
  defaultVariant.items.foldlM (variantStep exclude cycleDeps fromStage stageTarget) Dict.empty

/-- `variant_seed` -/
def variantSeed (data : Generated) (recipe : Recipe) : Dict String RpmEntry :=
  recipe.variantSeed.filterMap fun _ target =>
    (byTarget (data.seedRpms ++ data.variantSeedRpms)).get? target

/-- A dependency as a package is given it: its tree, and the rpm behind it. -/
structure Dep where
  buildDep : Label
  rpm : Label

/-- A dependency that is taken from a pin. -/
def Dep.pinned (suffix : List Char) (entry : RpmEntry) : Dep :=
  ⟨label (seedInstallrootTarget entry suffix), downloadLabel suffix entry.target⟩

/-- A dependency that is taken from a recipe. -/
def Dep.built (suffix : List Char) (chosen sourceName binary : String) : Dep :=
  ⟨label (subpackageTarget (chosen.toList ++ suffix) sourceName.toList binary.toList),
    label (subpackageRpmTarget (chosen.toList ++ suffix) sourceName.toList binary.toList)⟩

/-- One trip of the loop over `recipe["build_deps"]`. -/
def buildDep (data : Generated) (tables : Tables) (suffix : List Char) (recipe : Recipe)
    (variant : Dict String String) (binary : String) : Except String (Option Dep) :=
  let seed := ((variantSeed data recipe).get? binary).or (tables.seedRpm.get? binary)
  match recipe.depVariants.get? binary with
  | some routed =>
    match tables.variantRecipe.get? routed with
    | none => .error (recipe.name ++ " routes " ++ binary ++ " to variant " ++ routed ++
        ", which no recipe defines")
    | some spec =>
      match variant.get? routed with
      | none => .ok (seed.map (Dep.pinned suffix))
      | some chosen => .ok (some (.built suffix chosen spec.sourceName binary))
  | none =>
    match tables.provider.get? binary with
    | none =>
      .ok (if binary ∈ recipe.seedDeps then none
        else (tables.seedRpm.get? binary).map (Dep.pinned suffix))
    | some producer =>
      match variant.get? producer.name with
      | none => .ok (seed.map (Dep.pinned suffix))
      | some chosen => .ok (some (.built suffix chosen producer.sourceName binary))

/-- `_rpm_one_package` -/
def rpmOnePackage (flavor : Flavor) (config : LocalConfig) (data : ReleaseData) (tables : Tables)
    (suffix : List Char) (recipe : Recipe) (targetName : String)
    (variant : Dict String String) : Except String PackageCall :=
  match tables.bySource.get? recipe.name with
  | none => .error ("key " ++ PyText.repr recipe.name ++ " not found in dictionary")
  | some source => do
    let (version, release) := rpartition '-' recipe.evr.toList
    let built ← recipe.buildDeps.mapM (buildDep data.toGenerated tables suffix recipe variant)
    let seeded := recipe.seedDeps.filterMap tables.seedRpm.get?
    let deps := built.reduceOption ++ seeded.map (Dep.pinned suffix)
    let bconds ← disabledBconds flavor config
    return {
      name := targetName.toList ++ suffix
      buildroot := rpmBuildrootTarget config suffix
      srpm := downloadLabel suffix source.target
      sourceName := recipe.sourceName.toList
      version := (rpartition ':' version).2
      release := release
      buildDeps := (deps.map Dep.buildDep).insertionSort (· ≤ ·)
      depRpms := (deps.map Dep.rpm).insertionSort (· ≤ ·)
      useBcond := bconds.getD recipe.sourceName []
      subpackages := recipe.subpackages.map String.toList
      distroRelease := data.release }

/-! ## All packages -/

/-- The call for a recipe that is not staged. -/
def plainCall (flavor : Flavor) (config : LocalConfig) (data : ReleaseData)
    (suffix : List Char) (recipe : Recipe) : Except String PackageCall := do
  let tables := tables config data.toGenerated
  let variant ← variantMap tables.defaultVariant recipe.name [] "" Dict.empty
  rpmOnePackage flavor config data tables suffix recipe recipe.name variant

/-- The call for one stage of a source. -/
def stagedCall (flavor : Flavor) (config : LocalConfig) (data : ReleaseData)
    (suffix : List Char) (entry : StageEntry) : Except String PackageCall :=
  let tables := tables config data.toGenerated
  match recipeNamed data.recipes entry.source with
  | none => .error ("STAGED names source package " ++ entry.source ++ ", which has no recipe")
  | some recipe => do
    let variant ← variantMap tables.defaultVariant entry.source entry.cycleDeps
      entry.cycleDepsFrom tables.stageTarget
    rpmOnePackage flavor config data tables suffix recipe entry.target variant

/-- The stable names of a recipe that is staged. -/
def shipAliases (ships : Dict String String) (suffix : List Char) (recipe : Recipe) : List Rule :=
  match ships.get? recipe.name with
  | none => []
  | some shipping =>
    let name := recipe.name.toList ++ suffix
    let actual := shipping.toList ++ suffix
    let source := recipe.sourceName.toList
    .alias name (label actual) :: recipe.subpackages.flatMap fun sub =>
      [.alias (subpackageTarget name source sub.toList)
          (label (subpackageTarget actual source sub.toList)),
        .alias (subpackageRpmTarget name source sub.toList)
          (label (subpackageRpmTarget actual source sub.toList))]

/-- The probe of a recipe. -/
def probeAlias (staged : List StageEntry) (suffix : List Char) (recipe : Recipe) : Rule :=
  .alias ("probe-".toList ++ recipe.name.toList ++ suffix)
    (label ((probeTarget staged recipe.name).toList ++ suffix ++ "-buildrequires".toList))

/-- `rpm_packages` -/
def rpmPackages (flavor : Flavor) (config : LocalConfig) (data : ReleaseData)
    (suffix : List Char) : Except String (List Rule) := do
  let plain ← (data.recipes.filter fun recipe =>
    recipe.name ∉ data.staged.map StageEntry.source).mapM (plainCall flavor config data suffix)
  let staged ← data.staged.mapM (stagedCall flavor config data suffix)
  return rpmSeedInstallroots data.toGenerated suffix ++
    (plain ++ staged).flatMap PackageCall.rules ++
    data.recipes.flatMap (shipAliases (shipped data.staged) suffix) ++
    data.recipes.map (probeAlias data.staged suffix)

/-! ## Root filesystems -/

/-- `rpm_rootfs` -/
def rpmRootfs (config : LocalConfig) (data : ReleaseData) (suffix : List Char) : Rule :=
  .rootfs ("rootfs-seed".toList ++ suffix) (rpmBuildrootTarget config suffix)
    (data.seedRpms.map fun entry => downloadLabel suffix entry.target) "upstream-binary"
    "buildroot-seed"

/-- `_TOOL_SETS` -/
def toolSets : List String := ["image-tools"]

/-- `_IMAGE_VARIANTS` -/
def imageVariants : List String := ["", "-prebuilt"]

/-- `_BASE_IMAGE_SET` -/
def baseImageSet : String := "base"

/-- `_BASE_SOURCE_IMAGE_SET` -/
def baseSourceImageSet : String := "live"

/-- `_is_kernel_payload` -/
def isKernelPayload (package : String) : Bool :=
  package = "kernel" || "kernel-".toList.isPrefixOf package.toList

/-- `image_sets`, with the base. -/
def rootfsSets (data : Generated) : Except String (Dict String (List RpmEntry)) :=
  if (data.imageSets.get? baseImageSet).isSome then
    .error (baseImageSet ++ " is reserved for the kernel-free " ++ baseSourceImageSet ++
      " rootfs")
  else
    match data.imageSets.get? baseSourceImageSet with
    | none => .ok data.imageSets
    | some source =>
      let base := source.filter fun entry => !isKernelPayload entry.name
      if base.length = source.length then
        .error (baseSourceImageSet ++ " image set has no recognized kernel payload")
      else .ok (data.imageSets.set baseImageSet base)

/-- The rpm of an image entry: that of its recipe where the variant takes those. -/
def rootfsRpm (provider : Dict String Recipe) (suffix : List Char) (variant : String)
    (entry : RpmEntry) : Label :=
  match if variant = "" then provider.get? entry.name else none with
  | some recipe => label (subpackageRpmTarget (recipe.name.toList ++ suffix)
      recipe.sourceName.toList entry.name.toList)
  | none => downloadLabel suffix entry.target

/-- `rpm_image_rootfs` -/
def rpmImageRootfs (config : LocalConfig) (data : ReleaseData) (suffix : List Char) :
    Except String (List Rule) := do
  let provider := binaryProviders data.recipes (prebuiltSources config)
  let imageSets ← rootfsSets data.toGenerated
  return ((PyText.sortedSet imageSets.keys).filter (· ∉ toolSets)).flatMap fun name =>
    imageVariants.map fun variant =>
      .rootfs ("rootfs-".toList ++ name.toList ++ variant.toList ++ suffix)
        (rpmBuildrootTarget config suffix)
        ((imageSets.getD name []).map (rootfsRpm provider suffix variant))
        (if variant = "" then "source-preferred" else "upstream-binary")
        (if name = baseImageSet then "base" else "live")

/-- `rpm_image_tools` -/
def rpmImageTools (data : ReleaseData) (suffix : List Char) : List Rule :=
  ((PyText.sortedSet data.imageSets.keys).filter (· ∈ toolSets)).map fun name =>
    .seededBuildroot ("buildroot-".toList ++ name.toList ++ suffix) "" data.targetCpu
      ((data.imageSets.getD name []).map fun entry => downloadLabel suffix entry.target)

/-! ## The release -/

/-- The rules of a release, in the order the macros register them. -/
def releaseRules (flavor : Flavor) (config : LocalConfig) (data : ReleaseData)
    (suffix : List Char) : Except String (List Rule) := do
  let files ← rpmDownloads flavor config data suffix
  let packages ← rpmPackages flavor config data suffix
  let images ← rpmImageRootfs config data suffix
  return files.map .httpFile ++ rpmBuildroots data suffix ++ packages ++
    [rpmRootfs config data suffix] ++ images ++ rpmImageTools data suffix

end BuckosDistro.Family
