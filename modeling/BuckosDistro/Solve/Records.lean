/-
  Package records and the universe (`tools/solve.py`).

  A `PackageRecord` is what `_parse_package_elem` returns for one package of a
  primary.xml; the fields it does not find are the ones left at their defaults. A
  `Universe` is what `build_universe` returns: the maps a solve reads. Here are the
  readings of one record: its Requires with their ranges spelled out, and its
  BuildRequires.
-/
import BuckosDistro.Depgraph.Closure

namespace BuckosDistro.Solve

open BuckosDistro.Lib BuckosDistro.Depgraph

/-! ## Records -/

/-- A package of the repodata, tagged with the repository it came from. `provideEvr` and
    `requireRanges` carry the attributes of the entries that state a version. -/
structure PackageRecord where
  name : String
  arch : String := ""
  epoch : Option String := none
  version : Option String := none
  release : Option String := none
  location : Option String := none
  checksum : Option String := none
  checksumType : Option String := none
  provides : List String := []
  provideEvr : List (String × Evr) := []
  requireRanges : List (String × Option String × Evr) := []
  requires : List String := []
  sourcerpm : Option String := none
  repo : Option String := none
deriving DecidableEq, Repr

/-- The maps of a solve. -/
structure Universe where
  provides : Dict String (List String)
  provideEvr : Dict String (Dict String (List Evr))
  requires : Dict String (List String)
  sourceOf : Dict String String
  subpackages : Dict String (List String)
  binaryIndex : Dict String PackageRecord
  sourceIndex : Dict String PackageRecord
  foreignSourceOf : Dict String String

/-- The maps `resolve_capability` is handed, with the overrides of the command line. -/
def Universe.lookup (u : Universe) (overrides : Dict String String) : Lookup :=
  ⟨u.provides, u.provideEvr, overrides⟩

/-- `PSEUDO_CAPABILITY_PREFIXES` -/
def pseudoCapabilityPrefixes : List String := ["rpmlib(", "config(", "rpmlib"]

/-- `is_pseudo_capability` -/
def isPseudoCapability (cap : String) : Bool :=
  pseudoCapabilityPrefixes.any fun start => start.toList.isPrefixOf cap.toList

/-! ## Version ranges of repodata -/

/-- `_RPM_FLAG_OPS.get(flags)` -/
def rpmFlagOp : Option String → Option Op
  | some "EQ" => some .eq
  | some "GE" => some .ge
  | some "GT" => some .gt
  | some "LE" => some .le
  | some "LT" => some .lt
  | _ => none

/-- The version of a range as text: the release and the epoch only where they are stated. -/
def rangeText (evr : Evr) : String :=
  let version := evr.version.getD "None"
  let text :=
    match evr.release with
    | none | some "" => version
    | some release => version ++ "-" ++ release
  match evr.epoch with
  | none | some "" | some "0" => text
  | some epoch => epoch ++ ":" ++ text

/-- The `ranges` of `constrained_requires`: for each capability, the first range stated. -/
def constrainedRanges (pkg : PackageRecord) : Dict String String :=
  pkg.requireRanges.foldl (fun ranges entry =>
    match rpmFlagOp entry.2.1 with
    | none => ranges
    | some op => ranges.setDefault entry.1
        (entry.1 ++ " " ++ op.text ++ " " ++ rangeText entry.2.2)) Dict.empty

/-- `constrained_requires` -/
def constrainedRequires (pkg : PackageRecord) : List String :=
  pkg.requires.map fun cap => (constrainedRanges pkg).getD cap cap

/-! ## BuildRequires -/

/-- `build_requires_of`: what the spec says. The ranges of the record are not read. -/
def buildRequiresOf (record : PackageRecord) (implicit : List String) : List String :=
  implicit ++ record.requires.filter fun c => !isPseudoCapability c

/-- A probe report: what `rpmbuild -br` said of one source. -/
structure Report where
  buildrequires : List String := []
  dynamic : List String := []
  produces : List String := []
  unmet : Bool := false
deriving Repr

/-- `probed_buildrequires`: what the spec does. -/
def probedBuildrequires (report : Report) (implicit : List String) : List String :=
  implicit ++ report.buildrequires.filter fun c => !isPseudoCapability c

/-- `detect_dynamic_buildrequires` -/
def detectDynamicBuildrequires (record : PackageRecord) : List String :=
  PyText.sortedSet
    (["rust-packaging", "go-rpm-macros", "pyproject-rpm-macros", "cargo-rpm-macros"].filter
      fun marker => marker ∈ buildRequiresOf record [])

end BuckosDistro.Solve
