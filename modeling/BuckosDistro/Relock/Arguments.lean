/-
  The command line of the solver (`tools/solve.py`, `main`).

  What `main` reads off its arguments before it touches the repositories: the options, the
  namespace they become, and the checks and tables made of it. The names and base URLs of
  the repositories are paired up elsewhere and do not enter.
-/
import BuckosDistro.Lib.Argparse
import BuckosDistro.Policy.SourcePolicy
import BuckosDistro.Solve.Variants

namespace BuckosDistro.Relock

open BuckosDistro.Lib BuckosDistro.Lib.Argparse BuckosDistro.Solve BuckosDistro.Policy

/-! ## The options -/

/-- `IMPLICIT_GROUPS` -/
inductive Flavor
  | centos
  | centosHyperscale
  | fedora
deriving DecidableEq, Repr

def Flavor.text : Flavor → String
  | centos => "centos"
  | centosHyperscale => "centos-hyperscale"
  | fedora => "fedora"

/-- `choices=sorted(IMPLICIT_GROUPS)` -/
def Flavor.ofText? : String → Option Flavor
  | "centos" => some centos
  | "centos-hyperscale" => some centosHyperscale
  | "fedora" => some fedora
  | _ => none

/-- The kinds of repository. -/
inductive Kind
  | binary
  | source
  | buildroot
deriving DecidableEq, Repr

def Kind.text : Kind → String
  | binary => "binary"
  | source => "source"
  | buildroot => "buildroot"

/-- The options of `main`. -/
def solveOptions : Options where
  valued := ["--binary-primary", "--source-primary", "--buildroot-primary", "--binary-base",
    "--source-base", "--buildroot-base", "--binary-repo", "--source-repo", "--buildroot-repo",
    "--build", "--build-list", "--source-image", "--prebuilt-source", "--source-exception",
    "--flavor", "--seed-package", "--override", "--source-variant", "--image",
    "--image-override", "--release", "--dist-tag", "--target-cpu", "--stages", "--probe", "--out"]
  switches := ["-h", "--help", "--seed-only", "--strict"]

theorem solveOptions_wellFormed : solveOptions.WellFormed := ⟨by decide, by decide⟩

/-- What `main` reads off the namespace. -/
structure Args where
  sourcePrimary : List String
  build : List String
  buildList : Option String
  sourceImage : List String
  prebuiltSource : List String
  sourceException : List RawException
  flavor : Flavor
  seedOnly : Bool
  seedPackage : List String
  override : List String
  sourceVariant : List String
  image : List String
  imageOverride : List String
  release : Option String
  distTag : String
  targetCpu : String
  stages : PyInt.LegibleInt
  probe : Option String
deriving DecidableEq, Repr

theorem legible_three : PyInt.Legible 3 := PyInt.legible_of_small (by decide)

/-- `--stages` where it is not given. -/
def defaultStages : PyInt.LegibleInt := ⟨3, legible_three⟩

/-- The options given on a command line, in their order. -/
abbrev Given := List (String × Option (Argument RawException))

namespace Given

/-- `action="append"` -/
def texts (option : String) (entries : Given) : List String :=
  (given option entries).filterMap Argument.text?

/-- An option of which the last value counts. -/
def last? (option : String) (entries : Given) : Option String := (texts option entries).getLast?

/-- `action="store_true"` -/
def has (option : String) (entries : Given) : Bool := entries.any fun entry => entry.1 = option

end Given

/-- The namespace of `parse_args`, and `parse_source_exception` over it. -/
def readArgs (entries : Given) : Option Args := do
  guard (¬ entries.has "-h" ∧ ¬ entries.has "--help")
  guard ((given "--source-exception" entries).all fun value => value.json?.isSome)
  guard (entries.texts "--binary-primary" ≠ [])
  let _ ← entries.last? "--out"
  let flavors ← (entries.texts "--flavor").mapM Flavor.ofText?
  let stages ← (entries.texts "--stages").mapM fun text => PyInt.legible? text.toList
  return {
    sourcePrimary := entries.texts "--source-primary"
    build := entries.texts "--build"
    buildList := entries.last? "--build-list"
    sourceImage := entries.texts "--source-image"
    prebuiltSource := entries.texts "--prebuilt-source"
    sourceException := (given "--source-exception" entries).filterMap Argument.json?
    flavor := flavors.getLastD .fedora
    seedOnly := entries.has "--seed-only"
    seedPackage := entries.texts "--seed-package"
    override := entries.texts "--override"
    sourceVariant := entries.texts "--source-variant"
    image := entries.texts "--image"
    imageOverride := entries.texts "--image-override"
    release := entries.last? "--release"
    distTag := (entries.last? "--dist-tag").getD ""
    targetCpu := (entries.last? "--target-cpu").getD "x86_64"
    stages := stages.getLastD defaultStages
    probe := entries.last? "--probe" }

/-- `ap.parse_args(argv)` -/
def parseArgs (argv : List (Argument RawException)) : Option Args :=
  (solveOptions.parse argv).bind readArgs

end BuckosDistro.Relock
