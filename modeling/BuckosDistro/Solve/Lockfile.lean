/-
  The lockfile (`tools/solve.py`, `emit_lockfile`).

  Every dependency is written as a pin. A pin whose name the universe does not know is left
  unresolved (`build` is `none`); a routed one carries its variant and the variant's build.
  The record of the inputs and the image policy have modules of their own.
-/
import BuckosDistro.Solve.Solve
import BuckosDistro.Solve.Variants

namespace BuckosDistro.Solve

open BuckosDistro.Lib BuckosDistro.Depgraph

/-! ## Pins -/

/-- What a pin says of the rpm it names. -/
structure PinnedBuild where
  evr : String
  arch : String
  location : Option String
  sha256 : Option String
  source : Option String
  repo : Option String
deriving DecidableEq, Repr

/-- An entry of the lockfile that names a binary package. -/
structure Pin where
  name : String
  build : Option PinnedBuild
  variant : Option String
deriving DecidableEq, Repr

/-- `pkg["checksum"] if pkg["checksum_type"] == "sha256" else None` -/
def sha256Of (pkg : PackageRecord) : Option String :=
  if pkg.checksumType = some "sha256" then pkg.checksum else none

/-- `source_of.get(name) or foreign_source_of.get(name)` -/
def recordedSource (u : Universe) (name : String) : Option String :=
  match u.sourceOf.get? name with
  | none | some "" => u.foreignSourceOf.get? name
  | source => source

/-- `pin_binary` -/
def pinBinary (u : Universe) (name : String) : Pin :=
  { name := name
    build := (u.binaryIndex.get? name).map fun pkg =>
      ⟨evrString pkg, pkg.arch, pkg.location, sha256Of pkg, recordedSource u name, pkg.repo⟩
    variant := none }

/-- What of the command line the emitter reads. -/
structure EmitArgs where
  sourceVariant : Dict String SourceVariant
  routes : Routes
  binarySuperseded : Superseded

/-- `routed_binary` -/
def routedBinary (u : Universe) (a : EmitArgs) (src name : String) : Pin :=
  match a.routes.route src name with
  | none => pinBinary u name
  | some variant =>
    let older := (a.sourceVariant.get? variant).bind fun spec =>
      olderBinary u a.binarySuperseded name spec.evr
    let entry := pinBinary u name
    { entry with
      build :=
        match older with
        | none => entry.build
        | some older => entry.build.map fun build =>
          { build with
            evr := evrString older
            arch := older.arch
            location := older.location
            sha256 := sha256Of older
            repo := older.repo }
      variant := some variant }

/-! ## Packages -/

/-- The source rpm of a recipe. -/
structure LockSource where
  name : String
  sourceName : String
  evr : String
  location : Option String
  sha256 : Option String
  repo : Option String
deriving DecidableEq, Repr

/-- A recipe. -/
structure LockPackage where
  source : LockSource
  subpackages : List String
  variantOf : Option String
  buildRequiresResolved : Dict String String
  depsBuilt : List Pin
  depsSeed : List Pin
  dynamicBuildrequires : Dynamic

/-- The spec's own name: `(source_variant.get(src) or {}).get("source") or src`. -/
def specName (variants : Dict String SourceVariant) (src : String) : String :=
  match (variants.get? src).map SourceVariant.source with
  | none | some "" => src
  | some source => source

/-- `variant_subpackages.get(src) or universe["subpackages"].get(src, [])` -/
def recipeSubpackages (u : Universe) (variantSubpackages : Dict String (List String))
    (src : String) : List String :=
  match variantSubpackages.getD src [] with
  | [] => u.subpackages.getD src []
  | names => names

/-- `str(value)` of a field that may be missing. -/
def textOf (field : Option String) : String := field.getD "None"

/-- The source rpm of a recipe; nothing but its names when the repodata has none. -/
def lockSource (u : Universe) (variants : Dict String SourceVariant) (src : String) :
    LockSource :=
  match u.sourceIndex.get? src with
  | none => ⟨src, specName variants src, "None-None", none, none, none⟩
  | some record => ⟨src, specName variants src,
      textOf record.version ++ "-" ++ textOf record.release, record.location, sha256Of record,
      record.repo⟩

/-- Whether the emitter takes a dependency from a recipe. -/
def takenFromRecipe (u : Universe) (buildSet : List String) (dep : String) : Bool :=
  (u.sourceOf.get? dep).any (· ∈ buildSet)

/-- One trip of the loop over the build set. -/
def lockPackage (u : Universe) (buildSet : List String) (solution : Solution) (a : EmitArgs)
    (variantSubpackages : Dict String (List String)) (src : String) : LockPackage :=
  let deps := PyText.sorted (solution.buildDeps.getD src ∅)
  { source := lockSource u a.sourceVariant src
    subpackages := recipeSubpackages u variantSubpackages src
    variantOf := (a.sourceVariant.get? src).map SourceVariant.source
    buildRequiresResolved := solution.resolutions.getD src Dict.empty
    depsBuilt := (deps.filter fun dep => takenFromRecipe u buildSet dep).map
      (routedBinary u a src)
    depsSeed := (deps.filter fun dep => !takenFromRecipe u buildSet dep).map (pinBinary u)
    dynamicBuildrequires := solution.dynamic.getD src ⟨"repodata", [], [], false⟩ }

/-! ## The lock -/

/-- `repr` of a field that may be missing. -/
def reprField (field : Option String) : String :=
  match field with
  | none => "None"
  | some text => PyText.repr text

/-- `repr(entry)` of a pin. -/
def reprPin (pin : Pin) : String :=
  let item := fun key value => PyText.repr key ++ ": " ++ value
  let build :=
    match pin.build with
    | none => [item "unresolved" "True"]
    | some b => [item "evr" (PyText.repr b.evr), item "arch" (PyText.repr b.arch),
        item "location" (reprField b.location), item "sha256" (reprField b.sha256),
        item "source" (reprField b.source), item "repo" (reprField b.repo)]
  let variant :=
    match pin.variant with
    | none => []
    | some name => [item "variant" (PyText.repr name)]
  "\x7b" ++ PyText.join ", " (item "name" (PyText.repr pin.name) :: build ++ variant) ++ "\x7d"

/-- `entry.get("sha256") or repr(entry)` -/
def pinKey (pin : Pin) : String :=
  match pin.build.bind PinnedBuild.sha256 with
  | none | some "" => reprPin pin
  | some sha256 => sha256

/-- `_dedupe_pins`: of the pins with one key the first, in the order of the keys. -/
def dedupePins (pins : List Pin) : List Pin :=
  let bySha := pins.foldl (fun d pin => d.setDefault (pinKey pin) pin) Dict.empty
  (PyText.sortedSet bySha.keys).filterMap bySha.get?

/-- What a lockfile holds besides the record of the solve's inputs. -/
structure Lock where
  buildrootSeed : List Pin
  variantSeed : List Pin
  baseSeed : List String
  imageSets : Dict String (List Pin)
  plan : Plan
  packages : Dict String LockPackage
  problems : List Problem

/-- `emit_lockfile` -/
def emitLockfile (u : Universe) (buildSet : List String) (solution : Solution) (plan : Plan)
    (imageSets : Dict String (List String)) (seedPackages : List String) (a : EmitArgs)
    (variantSubpackages : Dict String (List String)) (imageUniverse : Universe) : Lock :=
  { buildrootSeed := (PyText.sortedSet
      (solution.buildDeps.items.flatMap (fun item => PyText.sorted item.2) ++ seedPackages ++
        PyText.sorted solution.baseClosure)).map (pinBinary u)
    variantSeed := dedupePins ((PyText.sortedSet a.routes.keys).flatMap fun src =>
      (PyText.sortedSet (a.routes.getD src Dict.empty).keys).map (routedBinary u a src))
    baseSeed := PyText.sorted solution.baseClosure
    imageSets := ⟨(PyText.sortedSet imageSets.keys).filterMap fun name =>
      (imageSets.get? name).map fun members => (name, members.map (pinBinary imageUniverse))⟩
    plan := plan
    packages := Dict.ofKeys (PyText.sortedSet buildSet)
      (lockPackage u buildSet solution a variantSubpackages)
    problems := solution.problems }

end BuckosDistro.Solve
