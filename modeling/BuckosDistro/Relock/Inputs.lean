/-
  The inputs of a solve (`tools/solve.py`, `main`).

  The checks on the arguments, and the tables made of the flags that are given several times:
  the last override of a capability counts, while the roots of an image set add up.
-/
import BuckosDistro.Relock.Arguments

namespace BuckosDistro.Relock

open BuckosDistro.Lib BuckosDistro.Solve BuckosDistro.Policy

/-! ## One flag -/

/-- `item.rsplit("=", 1)` of a text that has an equals sign. -/
def rsplitEquals (item : List Char) : List Char × List Char :=
  let (pkg, cap) := PyText.partition '=' item.reverse
  ((cap.getD []).reverse, pkg.reverse)

/-- `parse_override` -/
def parseOverride (item flag : String) : Except String (String × String) :=
  if '=' ∉ item.toList then
    .error (flag ++ " expects capability=package, got " ++ PyText.repr item)
  else
    let (cap, pkg) := rsplitEquals item.toList
    .ok (String.ofList (PyText.strip cap), String.ofList (PyText.strip pkg))

/-- The body of the loop over `--image`: an image set and the roots it gets. -/
def parseImage (item : String) : Except String (String × List String) :=
  match PyText.partition '=' item.toList with
  | (_, none) => .error ("--image expects name=pkg[,pkg...], got " ++ PyText.repr item)
  | (name, some members) =>
    let roots := commaParts members
    if roots = [] then .error ("--image " ++ String.ofList name ++ " lists no packages")
    else .ok (String.ofList (PyText.strip name), roots)

/-- The body of the loop over `--image-override`: an image set, a capability of it and the
    package that provides it. -/
def parseImageOverride (imageRoots : Dict String (List String)) (item : String) :
    Except String (String × String × String) :=
  match PyText.partition ':' item.toList with
  | (_, none) =>
    .error ("--image-override expects name:capability=package, got " ++ PyText.repr item)
  | (name, some rest) => do
    let (cap, pkg) ← parseOverride (String.ofList rest) "--image-override"
    let name := String.ofList (PyText.strip name)
    if name ∉ imageRoots.keys then
      let names := PyText.join ", " (PyText.sortedSet imageRoots.keys)
      .error ("--image-override names image set " ++ PyText.repr name ++
        ", which no --image defines (have: " ++ (if names = "" then "none" else names) ++ ")")
    else return (name, cap, pkg)

/-! ## The tables -/

/-- `overrides` -/
def readOverrides (items : List String) : Except String (Dict String String) :=
  items.foldlM (fun overrides item => do
    let entry ← parseOverride item "--override"
    return overrides.set entry.1 entry.2) Dict.empty

/-- `image_roots` -/
def readImages (items : List String) : Except String (Dict String (List String)) :=
  items.foldlM (fun imageRoots item => do
    let entry ← parseImage item
    return imageRoots.set entry.1 (imageRoots.getD entry.1 [] ++ entry.2)) Dict.empty

/-- `image_overrides` -/
def readImageOverrides (imageRoots : Dict String (List String)) (items : List String) :
    Except String (Dict String (Dict String String)) :=
  items.foldlM (fun imageOverrides item => do
    let entry ← parseImageOverride imageRoots item
    return imageOverrides.set entry.1
      ((imageOverrides.getD entry.1 Dict.empty).set entry.2.1 entry.2.2)) Dict.empty

/-- The lines of `--build-list` that name a package. -/
def listedBuilds (lines : List String) : List String :=
  (lines.filter fun line =>
    PyText.strip line.toList ≠ [] ∧ line.toList.head? ≠ some '#').map fun line =>
    String.ofList (PyText.strip line.toList)

/-- `args.explicit_build`, given the lines of the `--build-list` file. -/
def explicitBuild (args : Args) (lines : List String) : List String :=
  args.build ++ if (args.buildList.filter (· ≠ "")).isSome then listedBuilds lines else []

/-- What `main` makes of its arguments. -/
structure Inputs where
  explicitBuild : List String
  overrides : Dict String String
  sourceVariants : Dict String SourceVariant
  imageRoots : Dict String (List String)
  imageOverrides : Dict String (Dict String String)

/-- The checks on the build set. -/
def checkBuild (args : Args) (build : List String) : Except String Unit :=
  if build = [] ∧ args.sourceImage = [] ∧ args.seedOnly = false ∧ args.seedPackage = [] then
    .error ("nothing to solve: pass --build, --build-list, --source-image, --seed-only, or " ++
      "--seed-package")
  else if (build ≠ [] ∨ args.sourceImage ≠ []) ∧ args.sourcePrimary = [] then
    .error "source builds require at least one --source-primary"
  else
    let overlap := PyText.sortedSet (build.filter (· ∈ args.prebuiltSource))
    if overlap ≠ [] then
      .error ("source packages cannot be both explicitly built and prebuilt: " ++
        PyText.join ", " overlap)
    else if args.sourceException ≠ [] ∧ args.sourceImage = [] then
      .error "--source-exception requires --source-image"
    else .ok ()

/-- `main`, from the arguments to the tables. -/
def readInputs (args : Args) (lines : List String) : Except String Inputs := do
  let build := explicitBuild args lines
  checkBuild args build
  let overrides ← readOverrides args.override
  let sourceVariants ← parseSourceVariants args.sourceVariant
  let imageRoots ← readImages args.image
  let imageOverrides ← readImageOverrides imageRoots args.imageOverride
  return ⟨build, overrides, sourceVariants, imageRoots, imageOverrides⟩

/-! ## What the tables say -/

/-- The overrides as they are written, in their order. -/
def overrideEntries (items : List String) : List (String × String) :=
  Lists.readable (fun item => parseOverride item "--override") items

/-- The image sets as they are written, in their order. -/
def imageEntries (items : List String) : List (String × List String) :=
  Lists.readable parseImage items

/-- The roots of an image set, in the order they are given. -/
def rootsOf (items : List String) (image : String) : List String :=
  (Dict.valuesAt (imageEntries items) image).flatten

/-- The image overrides as they are written, in their order. -/
def imageOverrideEntries (imageRoots : Dict String (List String)) (items : List String) :
    List (String × String × String) :=
  Lists.readable (parseImageOverride imageRoots) items

section Tables

variable {items : List String}

/-- The package the last override of a capability names. -/
theorem get?_readOverrides {overrides : Dict String String}
    (h : readOverrides items = .ok overrides) (cap : String) :
    overrides.get? cap = (Dict.valuesAt (overrideEntries items) cap).getLast? := by
  have hloop := Lists.foldlM_eq_readable h
  rw [hloop, Dict.get?_foldl_pairs, Dict.get?_empty, Option.or_none]
  rfl

theorem get?_readImages {imageRoots : Dict String (List String)}
    (h : readImages items = .ok imageRoots) (image : String) :
    imageRoots.get? image =
      if Dict.valuesAt (imageEntries items) image = [] then none
      else some (rootsOf items image) := by
  have hloop := Lists.foldlM_eq_readable h
  rw [hloop, Dict.get?_foldl_extend]
  rfl

/-- The roots of a set add up over its flags. -/
theorem getD_readImages {imageRoots : Dict String (List String)}
    (h : readImages items = .ok imageRoots) (image : String) :
    imageRoots.getD image [] = rootsOf items image := by
  unfold Dict.getD
  rw [get?_readImages h]
  split_ifs with hn
  · unfold rootsOf
    rw [hn]
    rfl
  · rfl

theorem get?_readImageOverrides {imageRoots : Dict String (List String)}
    {imageOverrides : Dict String (Dict String String)}
    (h : readImageOverrides imageRoots items = .ok imageOverrides) (image cap : String) :
    (imageOverrides.getD image Dict.empty).get? cap =
      (Dict.valuesAt (Dict.valuesAt (imageOverrideEntries imageRoots items) image)
        cap).getLast? := by
  have hloop := Lists.foldlM_eq_readable h
  rw [hloop, Dict.get?_foldl_inner]
  have hempty : ((Dict.empty : Dict String (Dict String String)).getD image Dict.empty).get? cap =
      none := rfl
  rw [hempty, Option.or_none]
  rfl

/-- What the checks on the build set look at. -/
theorem checkBuild_congr {args args' : Args} {build build' : List String}
    (hbuild : ∀ src, src ∈ build ↔ src ∈ build')
    (himage : args.sourceImage = [] ↔ args'.sourceImage = [])
    (hseedOnly : args.seedOnly = args'.seedOnly)
    (hseed : args.seedPackage = [] ↔ args'.seedPackage = [])
    (hprimary : args.sourcePrimary = [] ↔ args'.sourcePrimary = [])
    (hprebuilt : ∀ src, src ∈ args.prebuiltSource ↔ src ∈ args'.prebuiltSource)
    (hexception : args.sourceImage = [] →
      (args.sourceException = [] ↔ args'.sourceException = [])) :
    checkBuild args build = checkBuild args' build' := by
  have hnil : build = [] ↔ build' = [] := by
    simp only [List.eq_nil_iff_forall_not_mem, hbuild]
  have hoverlap : PyText.sortedSet (build.filter (· ∈ args.prebuiltSource)) =
      PyText.sortedSet (build'.filter (· ∈ args'.prebuiltSource)) := by
    refine PyText.sortedSet_congr fun src => ?_
    simp only [List.mem_filter, hbuild, hprebuilt]
  have hunused : (args.sourceException ≠ [] ∧ args.sourceImage = []) ↔
      (args'.sourceException ≠ [] ∧ args'.sourceImage = []) := by
    constructor
    · exact fun ⟨hexc, hnone⟩ => ⟨mt (hexception hnone).mpr hexc, himage.mp hnone⟩
    · exact fun ⟨hexc, hnone⟩ => ⟨mt (hexception (himage.mpr hnone)).mp hexc, himage.mpr hnone⟩
  unfold checkBuild
  simp only [hunused]
  simp only [hnil, himage, hseedOnly, hseed, hprimary, hoverlap, ne_eq]

/-- Exceptions are only given with an image. -/
theorem sourceException_of_checked {args : Args} {build : List String}
    (h : checkBuild args build = .ok ()) (hnone : args.sourceImage = []) :
    args.sourceException = [] := by
  by_contra hused
  unfold checkBuild at h
  dsimp only at h
  split_ifs at h with _ _ _ hunused
  exact hunused ⟨hused, hnone⟩

/-- The tables are read, and no check fails. -/
structure ReadsAs (args : Args) (lines : List String) (inputs : Inputs) : Prop where
  build : inputs.explicitBuild = explicitBuild args lines
  checked : checkBuild args inputs.explicitBuild = .ok ()
  overrides : readOverrides args.override = .ok inputs.overrides
  variants : parseSourceVariants args.sourceVariant = .ok inputs.sourceVariants
  images : readImages args.image = .ok inputs.imageRoots
  imageOverrides : readImageOverrides inputs.imageRoots args.imageOverride =
    .ok inputs.imageOverrides

theorem readInputs_eq_ok {args : Args} {lines : List String} {inputs : Inputs} :
    readInputs args lines = .ok inputs ↔ ReadsAs args lines inputs := by
  constructor
  · intro h
    unfold readInputs at h
    obtain ⟨_, hchecked, h⟩ := Lists.exists_of_bind h
    obtain ⟨overrides, hoverrides, h⟩ := Lists.exists_of_bind h
    obtain ⟨variants, hvariants, h⟩ := Lists.exists_of_bind h
    obtain ⟨images, himages, h⟩ := Lists.exists_of_bind h
    obtain ⟨imageOverrides, himageOverrides, h⟩ := Lists.exists_of_bind h
    obtain rfl := Except.ok.inj h
    exact ⟨rfl, hchecked, hoverrides, hvariants, himages, himageOverrides⟩
  · intro h
    obtain ⟨build, overrides, variants, images, imageOverrides⟩ := inputs
    obtain ⟨rfl, hchecked, hoverrides, hvariants, himages, himageOverrides⟩ := h
    dsimp only at hchecked hoverrides hvariants himages himageOverrides
    unfold readInputs
    dsimp only
    rw [hchecked, hoverrides, hvariants, himages]
    show (readImageOverrides images args.imageOverride >>= _) = _
    rw [himageOverrides]
    rfl

end Tables

end BuckosDistro.Relock
