/-
  Where the parts of a unified kernel image go (`tools/uki_assemble.py`, with `sandbox_path` of
  `tools/_isolation.py`).

  Placed directly, the parts stand behind the stub, aligned and apart
  (`assemble_sound`). In a sandbox a part has two names, and the layout measures it by
  the one that is there inside only.

  A path is the list of the parts of an absolute one, and a file system is what
  `os.path.getsize` says of it. The isolation is a resolved one.
-/
import BuckosDistro.Lib.Lines
import BuckosDistro.Lib.Placement
import BuckosDistro.Lib.PyInt
import BuckosDistro.Lib.Raise

namespace BuckosDistro.Uki

open BuckosDistro.Lib Lines Placement

/-! ## The stub -/

/-- `vma + size` of a line of `objdump -h`, where it is one of a section. -/
def lineEnd (line : List Char) : Option ℤ :=
  match words line with
  | index :: _ :: size :: vma :: _ =>
    if ¬ PyInt.isDigits index then none
    else do
      let size ← PyInt.hexInt? size
      let vma ← PyInt.hexInt? vma
      return vma + size
  | _ => none

/-- `maximum_section_end`; what it returns is positive. -/
def maximumSectionEnd (output : List Char) : Except String ℕ :=
  let last := (splitlines output).foldl (fun last line =>
    match lineEnd line with
    | some sectionEnd => max last sectionEnd
    | none => last) 0
  if last = 0 then .error "objdump reported no PE sections" else .ok last.toNat

/-! ## The layout -/

abbrev Path := List String

def pathText (path : Path) : String := "/" ++ PyText.join "/" path

/-- `os.path.getsize`, `none` for a `FileNotFoundError`. -/
abbrev Sizes := Path → Option ℕ

/-- An entry of the layout. -/
structure Placed where
  name : String
  path : Path
  address : ℕ
deriving DecidableEq, Repr

/-- The loop of `section_layout`. -/
def placeSections (getsize : Sizes) (alignment : ℕ) :
    ℕ → List (String × Option Path) → Except String (List Placed)
  | _, [] => .ok []
  | address, (_, none) :: sections => placeSections getsize alignment address sections
  | address, (name, some path) :: sections => do
    let size ← needed (getsize path)
      ("[Errno 2] No such file or directory: " ++ PyText.repr (pathText path))
    let layout ← placeSections getsize alignment (alignUp alignment (address + size)) sections
    return ⟨name, path, address⟩ :: layout

/-- `section_layout` -/
def sectionLayout (getsize : Sizes) (stubEnd : ℕ) (sections : List (String × Option Path))
    (alignment : ℕ) : Except String (List Placed) :=
  placeSections getsize alignment (alignUp alignment stubEnd) sections

/-- The alignment of a call that gives none. -/
def sectionAlignment : ℕ := 0x10000

/-- `_objcopy_command` -/
def objcopyCommand (objcopy : String) (stub output : Path) (layout : List Placed) : List String :=
  objcopy :: layout.flatMap (fun placed => [
    "--add-section", placed.name ++ "=" ++ pathText placed.path,
    "--change-section-vma",
    placed.name ++ "=0x" ++ String.ofList (Nat.toDigits 16 placed.address),
    "--set-section-flags", placed.name ++ "=contents,alloc,load,readonly,data"]) ++
    [pathText stub, pathText output]

/-! ## Assembling -/

/-- The parts that are put behind the stub. -/
inductive Part where
  | osrel
  | uname
  | cmdline
  | linux
  | initrd
deriving DecidableEq, Repr

namespace Part

/-- In the order of the layout. -/
def all : List Part := [osrel, uname, cmdline, linux, initrd]

/-- Its name among the inputs. -/
def input : Part → String
  | osrel => "osrel"
  | uname => "uname"
  | cmdline => "cmdline"
  | linux => "linux"
  | initrd => "initrd"

/-- Its section. -/
def sectionName (part : Part) : String := "." ++ part.input

end Part

/-- `assemble`, as far as the call of `objcopy`: the layout, and the command it is handed over
    in. -/
def assemble (getsize : Sizes) (objdump : List Char) (objcopy : String) (stub out : Path)
    (paths : Part → Path) : Except String (List Placed × List String) := do
  let stubEnd ← maximumSectionEnd objdump
  let layout ← sectionLayout getsize stubEnd
    (Part.all.map fun part => (part.sectionName, some (paths part))) sectionAlignment
  return (layout, objcopyCommand objcopy stub out layout)

/-- What `resolve_isolation` returns. -/
inductive Isolation where
  | bwrap
  | unshare
  | none
deriving DecidableEq, Repr

/-- `SANDBOX_WORK` -/
def sandboxWork : Path := ["build"]

/-- `sandbox_path` -/
def sandboxPath (path work : Path) (isolation : Isolation) : Except String Path :=
  if isolation = .none then .ok path
  else if path = work then .ok sandboxWork
  -- `root + os.sep` begins no path when the root is `/`
  else if work ≠ [] ∧ work.isPrefixOf path then .ok (sandboxWork ++ path.drop work.length)
  else
    .error (pathText path ++ " is not under the work area " ++ pathText work ++
      ", so it has no address inside the sandbox")

/-- The inputs of `assemble_in_buildroot`, in the order they are staged. -/
def inputNames : List String := ["stub", "linux", "initrd", "osrel", "uname", "cmdline"]

/-- `assemble_in_buildroot`, as far as the call of `objcopy`, on the file system it has staged
    its inputs in. -/
def assembleInBuildroot (getsize : Sizes) (objdump : List Char) (objcopy : String) (work : Path)
    (isolation : Isolation) : Except String (List Placed × List String) := do
  let inside (name : String) := sandboxPath (work ++ [name]) work isolation
  let _ ← inputNames.mapM inside
  let _ ← inside "sections.txt"
  let stubEnd ← maximumSectionEnd objdump
  let sections ← Part.all.mapM fun part => do
    return (part.sectionName, some (← inside part.input))
  let layout ← sectionLayout getsize stubEnd sections sectionAlignment
  return (layout, objcopyCommand objcopy (← inside "stub") (← inside "uki.efi") layout)

/-- The file system with the parts staged in the work area. -/
def staged (host : Sizes) (work : Path) (payload : Part → ℕ) : Sizes := fun path =>
  match Part.all.find? fun part => work ++ [part.input] = path with
  | some part => some (payload part)
  | none => host path

/-! ## What is asked of a layout -/

structure StubSection where
  size : ℕ
  vma : ℕ

def StubSection.last (s : StubSection) : ℕ := s.vma + s.size

/-- A line of the table: a numbered section with its size and address, or any other line. -/
inductive TableLine : List Char → Option StubSection → Prop where
  | numbered {line index name size vma : List Char} {rest : List (List Char)} {s : StubSection}
      (hwords : words line = index :: name :: size :: vma :: rest)
      (hindex : PyInt.isDigits index = true) (hsize : PyInt.HexText size s.size)
      (hvma : PyInt.HexText vma s.vma) : TableLine line (some s)
  | other {line : List Char} (h : ∀ index ∈ (words line).head?, PyInt.isDigits index = false) :
      TableLine line none

/-- The section table of a stub, as `objdump -h` prints it. -/
structure SectionTable (output : List Char) (table : List StubSection) : Prop where
  lines : ∃ entries, List.Forall₂ TableLine (splitlines output) entries ∧
    table = entries.reduceOption
  nonempty : ∃ s ∈ table, 0 < s.last

/-- The parts in order, at aligned addresses behind the stub, and apart from each other. -/
structure Sound (table : List StubSection) (payload : Part → ℕ) (layout : List Placed) : Prop where
  order : layout.map Placed.name = Part.all.map Part.sectionName
  aligned : ∀ address ∈ layout.map Placed.address, sectionAlignment ∣ address
  behind : ∀ address ∈ layout.map Placed.address, ∀ s ∈ table, s.last ≤ address
  apart : ((layout.map Placed.address).zip (Part.all.map payload)).Pairwise fun a b =>
    Disjoint (Set.Ico a.1 (a.1 + a.2)) (Set.Ico b.1 (b.1 + b.2))

/-! ## The end of the stub -/

section Stub

variable {output : List Char} {table : List StubSection}

theorem lineEnd_of_tableLine {line : List Char} {entry : Option StubSection}
    (h : TableLine line entry) : lineEnd line = entry.map fun s => (s.last : ℤ) := by
  unfold lineEnd
  cases h with
  | numbered hwords hindex hsize hvma =>
    rw [hwords]
    dsimp only
    rw [if_neg (not_not.mpr hindex), PyInt.hexInt?_of_hexText hsize,
      PyInt.hexInt?_of_hexText hvma]
    rfl
  | other h =>
    split
    · next index _ _ _ _ hwords =>
      have hindex := h index (by rw [hwords]; rfl)
      rw [if_pos (by rw [hindex]; decide)]
      rfl
    · rfl

/-- Where the last section of the stub ends. -/
def lastEnd (table : List StubSection) : ℕ := (table.map StubSection.last).foldl max 0

theorem le_foldl_max {ends : List ℕ} {start : ℕ} :
    start ≤ ends.foldl max start ∧ ∀ n ∈ ends, n ≤ ends.foldl max start := by
  induction ends generalizing start with
  | nil => exact ⟨le_rfl, fun _ hn => nomatch hn⟩
  | cons n ends ih =>
    obtain ⟨hstart, hends⟩ := @ih (max start n)
    exact ⟨(le_max_left start n).trans hstart,
      List.forall_mem_cons.mpr ⟨(le_max_right start n).trans hstart, hends⟩⟩

theorem le_lastEnd {s : StubSection} (h : s ∈ table) : s.last ≤ lastEnd table :=
  le_foldl_max.2 s.last (List.mem_map_of_mem h)

/-- What is computed from the table is where its last section ends. -/
theorem maximumSectionEnd_ok (h : SectionTable output table) :
    maximumSectionEnd output = .ok (lastEnd table) := by
  obtain ⟨⟨entries, hlines, rfl⟩, s, hs, hpos⟩ := h
  have hfold : ∀ (lines : List (List Char)) (entries : List (Option StubSection)) (start : ℕ),
      List.Forall₂ TableLine lines entries → lines.foldl (fun (last : ℤ) line =>
        match lineEnd line with
        | some sectionEnd => max last sectionEnd
        | none => last) start =
      (((entries.reduceOption.map StubSection.last).foldl max start : ℕ) : ℤ) := by
    intro lines entries start hlines
    induction hlines generalizing start with
    | nil => rfl
    | @cons line entry lines entries hline _ ih =>
      rw [List.foldl_cons, lineEnd_of_tableLine hline]
      cases entry with
      | none => exact ih start
      | some s =>
        have hmax : max (start : ℤ) (s.last : ℤ) = ((max start s.last : ℕ) : ℤ) :=
          (Nat.cast_max start s.last).symm
        have hrest := ih (max start s.last)
        rw [← hmax] at hrest
        exact hrest
  have hlast : (splitlines output).foldl (fun (last : ℤ) line =>
      match lineEnd line with
      | some sectionEnd => max last sectionEnd
      | none => last) 0 = (lastEnd entries.reduceOption : ℤ) := hfold _ _ 0 hlines
  have hne : (lastEnd entries.reduceOption : ℤ) ≠ 0 := by
    have hle := le_lastEnd hs
    omega
  unfold maximumSectionEnd
  rw [hlast]
  exact if_neg hne

end Stub

/-! ## Measured parts -/

section Measured

variable {getsize : Sizes} {paths : Part → Path} {sizes payload : Part → ℕ}
  {table : List StubSection} {stubEnd : ℕ}

/-- The layout of parts whose sizes are known. -/
def layoutOf (paths : Part → Path) (sizes : Part → ℕ) (alignment : ℕ) :
    ℕ → List Part → List Placed
  | _, [] => []
  | address, part :: parts =>
    ⟨part.sectionName, paths part, address⟩ ::
      layoutOf paths sizes alignment (alignUp alignment (address + sizes part)) parts

theorem placeSections_iff {alignment address : ℕ} {parts : List Part} {layout : List Placed} :
    placeSections getsize alignment address
        (parts.map fun part => (part.sectionName, some (paths part))) = .ok layout ↔
      ∃ sizes : Part → ℕ, (∀ part ∈ parts, getsize (paths part) = some (sizes part)) ∧
        layout = layoutOf paths sizes alignment address parts := by
  -- a part that is measured has the one size it is measured to have
  have hsame : ∀ (sizes : Part → ℕ) (parts : List Part) (address : ℕ),
      (∀ part ∈ parts, getsize (paths part) = some (sizes part)) →
      layoutOf paths (fun part => (getsize (paths part)).getD 0) alignment address parts =
        layoutOf paths sizes alignment address parts := by
    intro sizes parts
    induction parts with
    | nil => exact fun _ _ => rfl
    | cons part parts ih =>
      intro address h
      obtain ⟨hpart, hparts⟩ := List.forall_mem_cons.mp h
      unfold layoutOf
      rw [hpart, Option.getD_some, ih _ hparts]
  induction parts generalizing address layout with
  | nil =>
    constructor
    · intro h
      exact ⟨fun _ => 0, fun _ hp => absurd hp List.not_mem_nil, (Except.ok.inj h).symm⟩
    · rintro ⟨_, _, h⟩
      rw [h]
      rfl
  | cons part parts ih =>
    rw [List.map_cons, placeSections]
    simp only [Raise.bind_ok, Raise.needed_ok, Raise.pure_ok, ih]
    constructor
    · rintro ⟨size, hsize, rest, ⟨sizes, hsizes, hrest⟩, hlayout⟩
      have hknown : ∀ other ∈ part :: parts,
          getsize (paths other) = some ((getsize (paths other)).getD 0) := by
        intro other hother
        obtain rfl | hother := List.mem_cons.mp hother
        · rw [hsize]
          rfl
        · rw [hsizes other hother]
          rfl
      refine ⟨_, hknown, ?_⟩
      rw [← hlayout, hrest, layoutOf, hsize, hsame sizes parts _ hsizes]
      rfl
    · rintro ⟨sizes, hsizes, hlayout⟩
      obtain ⟨hpart, hparts⟩ := List.forall_mem_cons.mp hsizes
      exact ⟨sizes part, hpart, _, ⟨sizes, hparts, rfl⟩, hlayout.symm⟩

theorem placeSections_ok (h : ∀ part, getsize (paths part) = some (sizes part)) (address : ℕ) :
    placeSections getsize sectionAlignment address
        (Part.all.map fun part => (part.sectionName, some (paths part))) =
      .ok (layoutOf paths sizes sectionAlignment address Part.all) :=
  placeSections_iff.mpr ⟨sizes, fun part _ => h part, rfl⟩

theorem names_layoutOf (alignment address : ℕ) (parts : List Part) :
    (layoutOf paths sizes alignment address parts).map Placed.name =
      parts.map Part.sectionName := by
  induction parts generalizing address with
  | nil => rfl
  | cons part parts ih => exact congrArg (part.sectionName :: ·) (ih _)

theorem addresses_layoutOf (alignment address : ℕ) (parts : List Part) :
    (layoutOf paths sizes alignment address parts).map Placed.address =
      addresses alignment address (parts.map sizes) := by
  induction parts generalizing address with
  | nil => rfl
  | cons part parts ih => exact congrArg (address :: ·) (ih _)

theorem two_pow_sectionAlignment : sectionAlignment = 2 ^ 16 := rfl

/-- A layout by the sizes of the payloads is sound. -/
theorem sound_layoutOf (h : ∀ s ∈ table, s.last ≤ stubEnd) :
    Sound table payload
      (layoutOf paths payload sectionAlignment (alignUp sectionAlignment stubEnd) Part.all) := by
  have hstart := le_alignUp 16 stubEnd
  refine ⟨names_layoutOf _ _ _, ?_, ?_, ?_⟩
  all_goals rw [addresses_layoutOf, two_pow_sectionAlignment]
  · intro address haddress
    exact dvd_of_mem_addresses (dvd_alignUp 16 stubEnd) haddress
  · intro address haddress s hs
    have hlast := h s hs
    have hle := le_of_mem_addresses haddress
    omega
  · refine (pairwise_addresses 16 _ _).imp fun {a b} hab => ?_
    rw [Set.disjoint_left]
    intro x ⟨_, hx⟩ ⟨hx', _⟩
    omega

/-- Soundness is about names and addresses. -/
theorem Sound.congr {layout layout' : List Placed} (h : Sound table payload layout)
    (hnames : layout'.map Placed.name = layout.map Placed.name)
    (haddresses : layout'.map Placed.address = layout.map Placed.address) :
    Sound table payload layout' := by
  obtain ⟨horder, haligned, hbehind, hapart⟩ := h
  rw [← hnames] at horder
  rw [← haddresses] at haligned hbehind hapart
  exact ⟨horder, haligned, hbehind, hapart⟩

/-- A layout by other sizes has the same addresses when the parts before the last take as many
    units. -/
theorem addresses_layoutOf_pow {paths' : Part → Path} (k : ℕ) :
    (layoutOf paths' sizes (2 ^ k) (alignUp (2 ^ k) stubEnd) Part.all).map Placed.address =
      (layoutOf paths payload (2 ^ k) (alignUp (2 ^ k) stubEnd) Part.all).map Placed.address ↔
      ∀ part, part ≠ .initrd → sizes part ⌈/⌉ 2 ^ k = payload part ⌈/⌉ 2 ^ k := by
  have hlength : (Part.all.map sizes).length = (Part.all.map payload).length := rfl
  have hlast : ∀ f : Part → ℕ, (Part.all.map f).dropLast = Part.all.dropLast.map f :=
    fun _ => rfl
  rw [addresses_layoutOf, addresses_layoutOf, addresses_eq_iff (dvd_alignUp k stubEnd) hlength,
    hlast, hlast, List.map_map, List.map_map, List.map_inj_left]
  constructor
  · intro h part hpart
    refine h part ?_
    cases part with
    | initrd => exact absurd rfl hpart
    | osrel | uname | cmdline | linux => decide
  · intro h part hpart
    refine h part fun he => ?_
    rw [he] at hpart
    exact absurd hpart (by decide)

theorem addresses_layoutOf_iff {paths' : Part → Path} :
    (layoutOf paths' sizes sectionAlignment (alignUp sectionAlignment stubEnd)
        Part.all).map Placed.address =
      (layoutOf paths payload sectionAlignment (alignUp sectionAlignment stubEnd)
        Part.all).map Placed.address ↔
      ∀ part, part ≠ .initrd →
        sizes part ⌈/⌉ sectionAlignment = payload part ⌈/⌉ sectionAlignment := by
  rw [two_pow_sectionAlignment]
  exact addresses_layoutOf_pow 16

end Measured

/-! ## The two names of a part -/

section Sandbox

variable {work : Path} {isolation : Isolation}

/-- The path of an input in the sandbox. -/
def insidePath (work : Path) (isolation : Isolation) (name : String) : Path :=
  if isolation = .none then work ++ [name] else sandboxWork ++ [name]

theorem sandboxPath_ok (h : isolation = .none ∨ work ≠ []) (name : String) :
    sandboxPath (work ++ [name]) work isolation = .ok (insidePath work isolation name) := by
  unfold sandboxPath insidePath
  split_ifs with hnone hwork hbegins
  · rfl
  · exact absurd hwork (by simp)
  · rw [List.drop_left]
  · exact absurd ⟨h.resolve_left hnone, by simp⟩ hbegins

theorem sandboxPath_root (h : isolation ≠ .none) (name : String) :
    ∀ path, sandboxPath [name] [] isolation ≠ .ok path := by
  intro path hok
  unfold sandboxPath at hok
  rw [if_neg h, if_neg (List.cons_ne_nil _ _), if_neg fun he => he.1 rfl] at hok
  cases hok

theorem assembleInBuildroot_iff {getsize : Sizes} {objdump : List Char} {objcopy : String}
    {stubEnd : ℕ} (hend : maximumSectionEnd objdump = .ok stubEnd) {layout : List Placed} :
    (∃ command, assembleInBuildroot getsize objdump objcopy work isolation =
      .ok (layout, command)) ↔
      (isolation = .none ∨ work ≠ []) ∧
        placeSections getsize sectionAlignment (alignUp sectionAlignment stubEnd)
          (Part.all.map fun part =>
            (part.sectionName, some (insidePath work isolation part.input))) = .ok layout := by
  by_cases hwork : isolation = .none ∨ work ≠ []
  · have hinside := sandboxPath_ok hwork
    have hinputs : inputNames.mapM (fun name =>
        (.ok (insidePath work isolation name) : Except String Path)) =
        .ok (inputNames.map (insidePath work isolation)) := Lists.mapM_ok_of_forall fun _ _ => rfl
    have hsections : (Part.all.mapM fun part => do
        return (part.sectionName, some (← .ok (insidePath work isolation part.input))) :
          Except String (List (String × Option Path))) =
        .ok (Part.all.map fun part =>
          (part.sectionName, some (insidePath work isolation part.input))) :=
      Lists.mapM_ok_of_forall fun _ _ => rfl
    unfold assembleInBuildroot sectionLayout
    simp only [hinside, hinputs, hsections, hend, Raise.bind_ok, Raise.pure_ok, Except.ok.injEq,
      exists_eq_left', Prod.mk.injEq, hwork, true_and]
    constructor
    · rintro ⟨_, layout', hlayout, hsame, _⟩
      rwa [hsame] at hlayout
    · intro hlayout
      exact ⟨_, layout, hlayout, rfl, rfl⟩
  · obtain ⟨hisolation, hroot⟩ := not_or.mp hwork
    obtain rfl : work = [] := not_not.mp hroot
    constructor
    · rintro ⟨command, h⟩
      obtain ⟨paths, hpaths, _⟩ := Raise.bind_ok.mp h
      obtain ⟨path, _, hpath⟩ := Lists.exists_of_mem_mapM_ok hpaths
        (List.mem_cons_self : "stub" ∈ inputNames)
      exact absurd hpath (sandboxPath_root hisolation "stub" path)
    · rintro ⟨h, _⟩
      exact absurd h hwork

end Sandbox

/-! ## Direct and sandboxed -/

/-- The names of the sandbox are those of files outside that take as many units as the payloads
    do, all but the last part. -/
def SeenOutside (getsize : Sizes) (payload : Part → ℕ) : Prop :=
  ∃ sizes : Part → ℕ, (∀ part, getsize (sandboxWork ++ [part.input]) = some (sizes part)) ∧
    ∀ part, part ≠ .initrd →
      sizes part ⌈/⌉ sectionAlignment = payload part ⌈/⌉ sectionAlignment

theorem staged_part (host : Sizes) (work : Path) (payload : Part → ℕ) (part : Part) :
    staged host work payload (work ++ [part.input]) = some (payload part) := by
  unfold staged
  cases part <;> simp [Part.all, Part.input]

theorem Part.mem_all (part : Part) : part ∈ Part.all := by
  cases part <;> decide

/-- A direct assembly places what it measures. -/
theorem assemble_ok {host : Sizes} {output : List Char} {table : List StubSection}
    (htable : SectionTable output table) {payload : Part → ℕ} {paths : Part → Path}
    (hpaths : ∀ part, host (paths part) = some (payload part)) (objcopy : String)
    (stub out : Path) :
    ∃ layout, layout = layoutOf paths payload sectionAlignment
        (alignUp sectionAlignment (lastEnd table)) Part.all ∧
      assemble host output objcopy stub out paths =
        .ok (layout, objcopyCommand objcopy stub out layout) := by
  refine ⟨_, rfl, ?_⟩
  unfold assemble sectionLayout
  rw [maximumSectionEnd_ok htable]
  show (placeSections host sectionAlignment _ _ >>= _) = _
  rw [placeSections_ok hpaths]
  rfl

/-- **When a sandboxed assembly does as the direct one.** The direct one places the parts
    soundly; the other succeeds, soundly and at the same addresses, exactly without a sandbox
    or where the names of the sandbox happen to be those of files like the payloads. -/
theorem sandboxed_as_direct_iff (host : Sizes) (direct sandboxed : List Char)
    (table : List StubSection) (hdirect : SectionTable direct table)
    (hsandboxed : SectionTable sandboxed table) (payload : Part → ℕ) (paths : Part → Path)
    (hpaths : ∀ part, host (paths part) = some (payload part)) (objcopy : String)
    (stub out work : Path) (isolation : Isolation) :
    ∃ layout, assemble host direct objcopy stub out paths =
        .ok (layout, objcopyCommand objcopy stub out layout) ∧
      Sound table payload layout ∧
      ((∃ inside command, assembleInBuildroot (staged host work payload) sandboxed objcopy work
          isolation = .ok (inside, command) ∧ Sound table payload inside ∧
          inside.map Placed.address = layout.map Placed.address) ↔
        isolation = .none ∨ work ≠ [] ∧ SeenOutside (staged host work payload) payload) := by
  have hsound : ∀ paths : Part → Path, Sound table payload (layoutOf paths payload
      sectionAlignment (alignUp sectionAlignment (lastEnd table)) Part.all) :=
    fun _ => sound_layoutOf fun _ hs => le_lastEnd hs
  obtain ⟨layout, rfl, hassemble⟩ := assemble_ok hdirect hpaths objcopy stub out
  refine ⟨_, hassemble, hsound paths, ?_⟩
  have hend := maximumSectionEnd_ok hsandboxed
  constructor
  · intro ⟨inside, command, hok, _, haddresses⟩
    obtain ⟨hwork, hplaced⟩ := (assembleInBuildroot_iff hend).mp ⟨command, hok⟩
    obtain ⟨sizes, hsizes, rfl⟩ := placeSections_iff.mp hplaced
    by_cases hnone : isolation = .none
    · exact Or.inl hnone
    · refine Or.inr ⟨hwork.resolve_left hnone, sizes, fun part => ?_,
        addresses_layoutOf_iff.mp haddresses⟩
      have hsize := hsizes part part.mem_all
      unfold insidePath at hsize
      rwa [if_neg hnone] at hsize
  · intro hseen
    have hmeasured : ∃ sizes : Part → ℕ, (∀ part,
        staged host work payload (insidePath work isolation part.input) = some (sizes part)) ∧
        ∀ part, part ≠ .initrd →
          sizes part ⌈/⌉ sectionAlignment = payload part ⌈/⌉ sectionAlignment := by
      unfold insidePath
      split_ifs with hnone
      · exact ⟨payload, staged_part host work payload, fun _ _ => rfl⟩
      · exact (hseen.resolve_left hnone).2
    obtain ⟨sizes, hsizes, hunits⟩ := hmeasured
    obtain ⟨command, hok⟩ := (assembleInBuildroot_iff hend).mpr
      ⟨hseen.imp_right And.left, placeSections_ok hsizes _⟩
    have haddresses := (@addresses_layoutOf_iff paths sizes payload (lastEnd table) fun part =>
      insidePath work isolation part.input).mpr hunits
    refine ⟨_, command, hok, (hsound paths).congr ?_ haddresses, haddresses⟩
    rw [names_layoutOf, names_layoutOf]

/-- Five payloads of one byte on a host that has nothing else. -/
def bareHost : Sizes := fun path => if path.head? = some "parts" then some 1 else none

/-- The section table of a stub with one section. -/
def oneSection : List Char := "  0 .text 00001000 00010000 2**4".toList

theorem sectionTable_oneSection : SectionTable oneSection [⟨0x1000, 0x10000⟩] := by
  have hwords : words oneSection = ["0".toList, ".text".toList, "00001000".toList,
      "00010000".toList, "2**4".toList] := by
    decide
  have hsize : PyInt.HexText "00001000".toList 0x1000 := ⟨4, by decide⟩
  have hvma : PyInt.HexText "00010000".toList 0x10000 := ⟨3, by decide⟩
  have hlines : splitlines oneSection = [oneSection] := by
    decide
  refine ⟨⟨[some ⟨0x1000, 0x10000⟩], ?_, rfl⟩, _, List.mem_singleton.mpr rfl, by decide⟩
  rw [hlines]
  exact .cons (.numbered hwords (by decide) hsize hvma) .nil

/-- In a sandbox whose work area has the name it has inside, the two do the same. -/
theorem sandboxed_as_direct_build :
    ∃ layout, assemble bareHost oneSection "objcopy" ["stub"] ["out"]
        (fun part => ["parts", part.input]) =
        .ok (layout, objcopyCommand "objcopy" ["stub"] ["out"] layout) ∧
      ∃ inside command, assembleInBuildroot (staged bareHost ["build"] fun _ => 1) oneSection
        "objcopy" ["build"] .bwrap = .ok (inside, command) ∧
        inside.map Placed.address = layout.map Placed.address := by
  obtain ⟨layout, hdirect, _, hiff⟩ := sandboxed_as_direct_iff bareHost oneSection oneSection
    [⟨0x1000, 0x10000⟩] sectionTable_oneSection sectionTable_oneSection (fun _ => 1)
    (fun part => ["parts", part.input]) (fun _ => rfl) "objcopy" ["stub"] ["out"] ["build"] .bwrap
  have hseen : SeenOutside (staged bareHost ["build"] fun _ => 1) fun _ => 1 :=
    ⟨fun _ => 1, staged_part bareHost ["build"] _, fun _ _ => rfl⟩
  obtain ⟨inside, command, hok, _, haddresses⟩ := hiff.mpr (Or.inr ⟨by decide, hseen⟩)
  exact ⟨layout, hdirect, inside, command, hok, haddresses⟩

/-- In a sandbox the parts are looked for outside by the names they have inside. -/
theorem sandboxed_assembly_fails :
    (∃ result, assemble bareHost oneSection "objcopy" ["stub"] ["out"]
      (fun part => ["parts", part.input]) = .ok result) ∧
    ¬ ∃ result, assembleInBuildroot (staged bareHost ["tmp"] fun _ => 1) oneSection "objcopy"
      ["tmp"] .bwrap = .ok result := by
  have hend := maximumSectionEnd_ok sectionTable_oneSection
  constructor
  · obtain ⟨layout, _, hok⟩ := @assemble_ok bareHost oneSection _ sectionTable_oneSection
      (fun _ => 1) (fun part => ["parts", part.input]) (fun _ => rfl) "objcopy" ["stub"] ["out"]
    exact ⟨_, hok⟩
  · intro ⟨(layout, command), hok⟩
    obtain ⟨_, hlayout⟩ := (assembleInBuildroot_iff hend).mp ⟨command, hok⟩
    obtain ⟨sizes, hsizes, _⟩ := placeSections_iff.mp hlayout
    have hosrel : staged bareHost ["tmp"] (fun _ => 1) ["build", "osrel"] = none := by
      decide
    have hmeasured := hsizes .osrel (by decide)
    have hinside : insidePath ["tmp"] .bwrap Part.osrel.input = ["build", "osrel"] := rfl
    rw [hinside, hosrel] at hmeasured
    cases hmeasured

end BuckosDistro.Uki
