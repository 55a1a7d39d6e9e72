/-
  Layers of a buildroot (`tools/_rpm.py`, `overlay_tree`).

  The layer is put over the destination entry by entry, top-down, and a directory goes through a
  link that leads to a directory. The link is read on the host; the sandbox that the tree is for
  reads it from the destination as its root. A run whose steps follow only links that both read
  alike, and take away nothing that the layer went through, leaves the layer in the destination
  and nothing else changed (`overlayTree_overlaid`). Modes are left out, but for those of files,
  which belong to their content.
-/
import BuckosDistro.Lib.Links
import BuckosDistro.Lib.Lists
import BuckosDistro.Lib.Raise

namespace BuckosDistro.Payload

open BuckosDistro.Lib TreePath Links

variable {γ : Type}

/-! ## The functions -/

/-- An entry of the layer, with the directory it is in. -/
structure LayerEntry (γ : Type) where
  parent : TreePath
  name : List Char
  what : Node (Leaf γ)

def LayerEntry.path (entry : LayerEntry γ) : TreePath := entry.parent ++ [entry.name]

/-- The directory that `dest/rel` leads to on the host. -/
def directoryAt (t : LinkTree γ) (dest rel : TreePath) : Option TreePath :=
  ((resolve t [] maxLinks dest rel).filter fun found => t.isDir found.place).map Found.place

/-- `os.makedirs`, from the last component of the path up. -/
def makedirs (dest : TreePath) : List (List Char) → LinkTree γ → Except String (LinkTree γ)
  | [], _ => .error ("FileExistsError: " ++ text dest)
  | name :: above, t => do
    let t ← if (resolve t [] maxLinks dest above.reverse).isSome then .ok t
      else makedirs dest above t
    let p ← needed (directoryAt t dest above.reverse) ("OSError: " ++ text (dest ++ above.reverse))
    t.create p name .dir

/-- `_overlay_dir` -/
def overlayDir (dest : TreePath) (t : LinkTree γ) (parent : TreePath) (name : List Char) :
    Except String (LinkTree γ) :=
  match directoryAt t dest parent with
  | none => makedirs dest (name :: parent.reverse) t
  | some p =>
    match t.node (p ++ [name]) with
    | some .dir => .ok t
    | some (.leaf (.link _)) =>
      if (directoryAt t dest (parent ++ [name])).isSome then .ok t
      else makedirs dest (name :: parent.reverse) (t.clear p name)
    | _ => makedirs dest (name :: parent.reverse) (t.clear p name)

/-- `_overlay_entry` -/
def overlayEntry (dest : TreePath) (t : LinkTree γ) (parent : TreePath) (name : List Char)
    (x : Leaf γ) : Except String (LinkTree γ) := do
  let p ← needed (directoryAt t dest parent) ("FileNotFoundError: " ++ text (dest ++ parent))
  (t.clear p name).create p name (.leaf x)

/-- One step of the walk. -/
def overlay (dest : TreePath) (t : LinkTree γ) (entry : LayerEntry γ) :
    Except String (LinkTree γ) :=
  match entry.what with
  | .dir => overlayDir dest t entry.parent entry.name
  | .leaf x => overlayEntry dest t entry.parent entry.name x

/-- A directory of the layer, which for the root is there. -/
def ownEntry (rel : TreePath) : List (LayerEntry γ) :=
  match rel.getLast? with
  | none => []
  | some name => [⟨rel.dropLast, name, .dir⟩]

/-- The files and links of a directory of the layer. -/
def leafEntries (order : TreePath → List (List Char) → List (List Char)) (src : LinkTree γ)
    (rel : TreePath) : List (LayerEntry γ) :=
  (order rel (src.entries rel)).filterMap fun name =>
    match src.node (rel ++ [name]) with
    | some (.leaf x) => some ⟨rel, name, .leaf x⟩
    | _ => none

/-- The entries of the layer, in the order of the walk. -/
def layerEntries (order : TreePath → List (List Char) → List (List Char)) (src : LinkTree γ) :
    List (LayerEntry γ) :=
  (src.topDown order (src.height + 1) []).flatMap fun rel =>
    ownEntry rel ++ leafEntries order src rel

/-- `overlay_tree`, onto a directory that is there. -/
def overlayTree (order : TreePath → List (List Char) → List (List Char)) (src t : LinkTree γ)
    (dest : TreePath) : Except String (LinkTree γ) :=
  (layerEntries order src).foldlM (overlay dest) t

/-! ## What the sandbox finds -/

/-- The place of an entry, as the sandbox reads its path. -/
def placeAt (t : LinkTree γ) (dest parent : TreePath) (name : List Char) : Option TreePath :=
  (resolve t dest maxLinks dest parent).map fun found => found.place ++ [name]

/-- At the turn of a directory of the layer its path leads to no directory, so that one is made. -/
def Missing (done : List (LayerEntry γ)) (t : LinkTree γ) (dest rel : TreePath) : Prop :=
  ∃ before entry after t₁, done = before ++ entry :: after ∧ entry.what = .dir ∧
    entry.path = rel ∧ before.foldlM (overlay dest) t = .ok t₁ ∧ directoryAt t₁ dest rel = none

/-- The layer is over the destination, and nothing else has changed. A link that a directory of the
    layer went through is not where a directory was missing: it stays. -/
structure Overlaid (order : TreePath → List (List Char) → List (List Char))
    (src t t' : LinkTree γ) (dest : TreePath) : Prop where
  outside : ∀ p, ¬ dest <+: p → t'.node p = t.node p
  found : ∀ rel name x, src.node (rel ++ [name]) = some (.leaf x) →
    ∃ place, placeAt t' dest rel name = some place ∧ (t'.node place = some (.leaf x) ∨
      ∃ rel' name', rel' ++ [name'] ≠ rel ++ [name] ∧ src.node (rel' ++ [name']) ≠ none ∧
        placeAt t' dest rel' name' = some place)
  kept : ∀ p, t'.node p ≠ t.node p → ∃ rel name place,
    placeAt t' dest rel name = some place ∧
      ((∃ x, src.node (rel ++ [name]) = some (.leaf x)) ∧ place <+: p ∨
        src.node (rel ++ [name]) = some .dir ∧ place = p ∧ t'.node p = some .dir ∧
          Missing (layerEntries order src) t dest (rel ++ [name]))

/-! ## Steps that are safe -/

/-- The path goes through an entry, for the host or for the sandbox. -/
def Through (t : LinkTree γ) (dest rel e : TreePath) : Prop :=
  ∃ root found, (root = [] ∨ root = dest) ∧ resolve t root maxLinks dest rel = some found ∧
    e ∈ found.trail

/-- A link that is followed leads the sandbox to the place that it leads the host to; and what is
    replaced was not gone through by a directory of the layer. -/
structure SafeStep (t : LinkTree γ) (dest : TreePath) (done : List (LayerEntry γ))
    (entry : LayerEntry γ) : Prop where
  followed : entry.what = .dir → ∀ p target, directoryAt t dest entry.parent = some p →
    t.node (p ++ [entry.name]) = some (.leaf (.link target)) →
    ∀ place, directoryAt t dest entry.path = some place →
      (resolve t dest maxLinks dest entry.path).map Found.place = some place
  replaced : entry.what ≠ .dir ∨ directoryAt t dest entry.path = none →
    ∀ p, directoryAt t dest entry.parent = some p →
    ∀ other ∈ done, other.what = .dir →
    ∀ e, Through t dest other.path e → ¬ p ++ [entry.name] <+: e

/-- A run whose every step is safe. -/
def SafeRun (order : TreePath → List (List Char) → List (List Char)) (src t : LinkTree γ)
    (dest : TreePath) : Prop :=
  ∀ done entry rest, layerEntries order src = done ++ entry :: rest →
    ∀ t₁, done.foldlM (overlay dest) t = .ok t₁ → SafeStep t₁ dest done entry

/-- Where a directory of the layer is, for the host and for the sandbox. -/
structure Reached (t : LinkTree γ) (dest rel place : TreePath) : Prop where
  host : (resolve t [] maxLinks dest rel).map Found.place = some place
  sandbox : (resolve t dest maxLinks dest rel).map Found.place = some place
  dir : t.node place = some .dir

section Step

variable {t t' : LinkTree γ} {dest rel place : TreePath} {name : List Char}

theorem directoryAt_eq_some :
    directoryAt t dest rel = some place ↔
      (resolve t [] maxLinks dest rel).map Found.place = some place ∧ t.node place = some .dir := by
  unfold directoryAt
  cases resolve t [] maxLinks dest rel with
  | none => exact ⟨fun h => (nomatch h), fun h => nomatch h.1⟩
  | some found =>
    rw [Option.filter_some, Option.map_some, Option.some_inj, ← t.isDir_iff]
    split_ifs with hdir
    · exact ⟨fun h => ⟨Option.some.inj h, Option.some.inj h ▸ hdir⟩, fun h => congrArg some h.1⟩
    · exact ⟨fun h => (nomatch h), fun h => absurd (h.1 ▸ h.2) hdir⟩

theorem Reached.directoryAt (h : Reached t dest rel place) : directoryAt t dest rel = some place :=
  directoryAt_eq_some.mpr ⟨h.host, h.dir⟩

theorem Reached.placeAt (h : Reached t dest rel place) (name : List Char) :
    placeAt t dest rel name = some (place ++ [name]) := by
  obtain ⟨found, hfound, rfl⟩ := Option.map_eq_some_iff.mp h.sandbox
  unfold Payload.placeAt
  rw [hfound, Option.map_some]

theorem reached_root (hdest : t.node dest = some .dir) : Reached t dest [] dest := by
  refine ⟨?_, ?_, hdest⟩
  all_goals rw [resolve_nil, Option.map_some]

theorem not_through_root {e : TreePath} : ¬ Through t dest [] e := by
  rintro ⟨root, found, _, hfound, he⟩
  rw [resolve_nil] at hfound
  rw [← Option.some.inj hfound] at he
  exact nomatch he

theorem Reached.below (h : Reached t dest rel place) : dest <+: place := by
  obtain ⟨found, hfound, rfl⟩ := Option.map_eq_some_iff.mp h.sandbox
  exact (below_of_resolve hfound List.prefix_rfl).1

/-- The place of an entry is not above the destination. -/
theorem not_above (h : dest <+: place) : ¬ place ++ [name] <+: dest := by
  intro hpre
  have hlen := hpre.length_le
  have hle := h.length_le
  rw [List.length_append, List.length_singleton] at hlen
  omega

/-- One name below a directory that is reached. -/
theorem Reached.resolve_child {root : TreePath} (hdir : t.node place = some .dir)
    (hroot : (resolve t root maxLinks dest rel).map Found.place = some place)
    (hplain : Plain name)
    (hnot : ∀ target, t.node (place ++ [name]) ≠ some (.leaf (.link target))) :
    (resolve t root maxLinks dest (rel ++ [name])).map Found.place =
      if t.node (place ++ [name]) = none then none else some (place ++ [name]) := by
  obtain ⟨found, hfound, rfl⟩ := Option.map_eq_some_iff.mp hroot
  rw [resolve_append, hfound, Option.bind_some, Option.map_map, resolve_cons,
    if_neg (not_not.mpr (t.isDir_iff.mpr hdir)), if_neg hplain.1, if_neg hplain.2]
  cases hnode : t.node (found.place ++ [name]) with
  | none => rfl
  | some node =>
    rw [if_neg (Option.some_ne_none _)]
    split
    next he => exact nomatch he
    next target he => exact absurd (hnode.trans he) (hnot target)
    next => rw [resolve_nil]; rfl

/-- A directory in a directory that is reached. -/
theorem Reached.child (h : Reached t dest rel place) (hplain : Plain name)
    (hdir : t.node (place ++ [name]) = some .dir) :
    Reached t dest (rel ++ [name]) (place ++ [name]) := by
  have hnot (target : List Char) : t.node (place ++ [name]) ≠ some (.leaf (.link target)) := by
    rw [hdir]
    exact fun he => nomatch he
  have hthere : t.node (place ++ [name]) ≠ none := by
    rw [hdir]
    exact Option.some_ne_none _
  refine ⟨?_, ?_, hdir⟩
  · rw [resolve_child h.dir h.host hplain hnot, if_neg hthere]
  · rw [resolve_child h.dir h.sandbox hplain hnot, if_neg hthere]

/-- A tree after something was put in the place of what was under a name, if anything. -/
structure Replaced (t t' : LinkTree γ) (place : TreePath) (x : Option (Node (Leaf γ))) : Prop where
  at_place : t'.node place = x
  elsewhere : ∀ r, ¬ place <+: r → t'.node r = t.node r
  below : ∀ r, place <+: r → r ≠ place → t'.node r = none

/-- What is reached along other entries is reached after a replacement. -/
theorem Reached.replaced {p : TreePath} {x : Option (Node (Leaf γ))} (h : Reached t dest rel place)
    (hp : dest <+: p) (hreplaced : Replaced t t' (p ++ [name]) x)
    (hdest : t.node dest = some .dir) (hother : ∀ e, Through t dest rel e → ¬ p ++ [name] <+: e) :
    Reached t' dest rel place := by
  have hout : ¬ p ++ [name] <+: dest := not_above hp
  have hdest' : t'.node dest = some .dir := by
    rw [hreplaced.elsewhere dest hout, hdest]
  have hkeep (root : TreePath) (hroot : root = [] ∨ root = dest)
      (hat : (resolve t root maxLinks dest rel).map Found.place = some place) :
      (resolve t' root maxLinks dest rel).map Found.place = some place := by
    obtain ⟨found, hfound, hplace⟩ := Option.map_eq_some_iff.mp hat
    have hroot' : t'.node root = some .dir := by
      rcases hroot with rfl | rfl
      · exact t'.root
      · exact hdest'
    rw [resolve_congr hroot' hdest' hfound fun e he =>
      hreplaced.elsewhere e (hother e ⟨root, found, hroot, hfound, he⟩), Option.map_some, hplace]
  refine ⟨hkeep [] (.inl rfl) h.host, hkeep dest (.inr rfl) h.sandbox, ?_⟩
  rw [hreplaced.elsewhere _, h.dir]
  intro hpre
  obtain ⟨found, hfound, rfl⟩ := Option.map_eq_some_iff.mp h.sandbox
  rcases place_prefix hfound with hplace | hplace | ⟨e, he, hplace⟩
  · exact hout (hpre.trans hplace)
  · exact hout (hpre.trans hplace)
  · exact hother e ⟨dest, found, .inr rfl, hfound, he⟩ (hpre.trans hplace)

theorem replaced_clear (p : TreePath) (name : List Char) :
    Replaced t (t.clear p name) (p ++ [name]) none :=
  ⟨if_pos List.prefix_rfl, fun _ hr => if_neg hr, fun _ hr _ => if_pos hr⟩

/-- What is made under a name that was cleared. -/
theorem exists_create_clear (hdir : t.node place = some .dir) (hplain : Plain name)
    (x : Node (Leaf γ)) :
    ∃ t', (t.clear place name).create place name x = .ok t' ∧
      Replaced t t' (place ++ [name]) (some x) := by
  have hkeep : (t.clear place name).node place = some .dir := by
    rw [FileTree.node_clear, if_neg fun hpre => absurd hpre.length_le (by simp), hdir]
  obtain ⟨t', ht'⟩ := FileTree.exists_create (x := x) hkeep (if_pos List.prefix_rfl) hplain
  have hnode := FileTree.create_ok ht'
  refine ⟨t', ht', ?_, fun r hr => ?_, fun r hr hne => ?_⟩
  · rw [hnode, if_pos rfl]
  · have hne : r ≠ place ++ [name] := fun he => hr (he ▸ List.prefix_rfl)
    rw [hnode, if_neg hne, FileTree.node_clear, if_neg hr]
  · rw [hnode, if_neg hne, FileTree.node_clear, if_pos hr]

/-- The last component of a path is made where the rest of it is reached. -/
theorem makedirs_eq (h : Reached t dest rel place) (name : List Char) :
    makedirs dest (name :: rel.reverse) t = t.create place name .dir := by
  obtain ⟨found, hfound, _⟩ := Option.map_eq_some_iff.mp h.host
  unfold makedirs
  rw [List.reverse_reverse, hfound, Option.isSome_some, if_pos rfl]
  show (needed (Payload.directoryAt t dest rel) _ >>= _) = _
  rw [h.directoryAt]
  rfl

/-- What a safe step does: it finds the directory there is, or it replaces what is in its
    place. -/
theorem overlay_step {entry : LayerEntry γ} {done : List (LayerEntry γ)}
    (h : Reached t dest entry.parent place) (hplain : Plain entry.name)
    (hdest : t.node dest = some .dir)
    (hknown : entry.parent = [] ∨ ∃ other ∈ done, other.what = .dir ∧ other.path = entry.parent)
    (hsafe : SafeStep t dest done entry) :
    (entry.what = .dir ∧ overlay dest t entry = .ok t ∧
      ∃ place', Reached t dest entry.path place') ∨
    ((entry.what ≠ .dir ∨ directoryAt t dest entry.path = none) ∧
      (entry.what = .dir → t.node (place ++ [entry.name]) ≠ some .dir) ∧
      ∃ t', overlay dest t entry = .ok t' ∧
        Replaced t t' (place ++ [entry.name]) (some entry.what)) := by
  have hdirectory := h.directoryAt
  obtain ⟨parent, name, what⟩ := entry
  cases what with
  | leaf x =>
    obtain ⟨t', ht', hreplaced⟩ := exists_create_clear h.dir hplain (.leaf x)
    refine .inr ⟨.inl fun he => (nomatch he), fun he => (nomatch he), t', ?_, hreplaced⟩
    show (needed (directoryAt t dest parent) _ >>= _) = _
    rw [hdirectory]
    exact ht'
  | dir =>
    have hrun : overlay dest t ⟨parent, name, .dir⟩ = overlayDir dest t parent name := rfl
    have hmake (hnone : directoryAt t dest (parent ++ [name]) = none)
        (hnode : t.node (place ++ [name]) ≠ some .dir) :
        ∃ t', makedirs dest (name :: parent.reverse) (t.clear place name) = .ok t' ∧
          Replaced t t' (place ++ [name]) (some .dir) := by
      have hother : ∀ e, Through t dest parent e → ¬ place ++ [name] <+: e := by
        rcases hknown with hroot | ⟨other, hother, hdir, hpath⟩
        · obtain rfl : parent = [] := hroot
          exact fun e he => absurd he not_through_root
        · obtain rfl : other.path = parent := hpath
          exact hsafe.replaced (.inr hnone) _ hdirectory other hother hdir
      have hcleared := h.replaced h.below (replaced_clear place name) hdest hother
      rw [makedirs_eq hcleared]
      exact exists_create_clear h.dir hplain .dir
    rw [hrun]
    unfold overlayDir
    rw [hdirectory]
    dsimp only
    split
    next hnode => exact .inl ⟨rfl, rfl, _, h.child hplain hnode⟩
    next target hnode =>
      cases hat : directoryAt t dest (parent ++ [name]) with
      | none =>
        rw [Option.isSome_none, if_neg Bool.false_ne_true]
        have hnot : t.node (place ++ [name]) ≠ some .dir := by
          rw [hnode]
          exact fun he => nomatch he
        exact .inr ⟨.inr hat, fun _ => hnot, hmake hat hnot⟩
      | some place' =>
        rw [Option.isSome_some, if_pos rfl]
        obtain ⟨hhost, hdir⟩ := directoryAt_eq_some.mp hat
        exact .inl ⟨rfl, rfl, place', hhost,
          hsafe.followed rfl _ target hdirectory hnode place' hat, hdir⟩
    next hnotdir hnotlink =>
      have hnot : t.node (place ++ [name]) ≠ some .dir := hnotdir
      have hnone : directoryAt t dest (parent ++ [name]) = none := by
        cases hat : directoryAt t dest (parent ++ [name]) with
        | none => rfl
        | some place' =>
          obtain ⟨hhost, hdir⟩ := directoryAt_eq_some.mp hat
          rw [Reached.resolve_child h.dir h.host hplain hnotlink] at hhost
          split_ifs at hhost
          rw [← Option.some.inj hhost] at hdir
          exact absurd hdir hnot
      exact .inr ⟨.inr hnone, fun _ => hnot, hmake hnone hnot⟩

end Step

/-! ## What a run leaves -/

/-- A directory of the layer that was laid, or its root. -/
def Known (done : List (LayerEntry γ)) (rel : TreePath) : Prop :=
  rel = [] ∨ ∃ other ∈ done, other.what = .dir ∧ other.path = rel

section Known

variable {done : List (LayerEntry γ)} {entry : LayerEntry γ} {rel : TreePath}

theorem Known.append (h : Known done rel) (more : List (LayerEntry γ)) :
    Known (done ++ more) rel :=
  h.imp_right fun ⟨other, hother, hdir⟩ => ⟨other, List.mem_append_left _ hother, hdir⟩

theorem known_concat (h : Known (done ++ [entry]) rel) :
    Known done rel ∨ entry.what = .dir ∧ entry.path = rel := by
  rcases h with hroot | ⟨other, hother, hdir⟩
  · exact .inl (.inl hroot)
  · rcases List.mem_append.mp hother with hother | hother
    · exact .inl (.inr ⟨other, hother, hdir⟩)
    · rw [List.mem_singleton.mp hother] at hdir
      exact .inr hdir

/-- One entry more, in a directory that is known. -/
theorem known_parents (h : ∀ e ∈ done, Known done e.parent) (hparent : Known done entry.parent) :
    ∀ e ∈ done ++ [entry], Known (done ++ [entry]) e.parent := by
  intro e he
  rcases List.mem_append.mp he with he | he
  · exact (h e he).append _
  · rw [List.mem_singleton.mp he]
    exact hparent.append _

end Known

/-- The state of a run, with the entries that were laid. -/
structure Laid (t₀ t : LinkTree γ) (dest : TreePath) (done : List (LayerEntry γ)) : Prop where
  run : done.foldlM (overlay dest) t₀ = .ok t
  base : t.node dest = some .dir
  parents : ∀ e ∈ done, Known done e.parent
  reached : ∀ rel, Known done rel → ∃ place, Reached t dest rel place
  leaves : ∀ e ∈ done, ∀ x, e.what = .leaf x → ∀ place, Reached t dest e.parent place →
    t.node (place ++ [e.name]) = some (.leaf x) ∨ ∃ other ∈ done, other ≠ e ∧
      placeAt t dest other.parent other.name = some (place ++ [e.name])
  kept : ∀ p, t.node p ≠ t₀.node p → ∃ e ∈ done, ∃ place,
    placeAt t dest e.parent e.name = some place ∧
      (e.what ≠ .dir ∧ place <+: p ∨
        e.what = .dir ∧ place = p ∧ t.node p = some .dir ∧ Missing done t₀ dest e.path)

section Run

variable {t₀ t t' : LinkTree γ} {dest place : TreePath} {done : List (LayerEntry γ)}
  {entry : LayerEntry γ}

theorem laid_nil (hdest : t.node dest = some .dir) : Laid t t dest [] where
  run := rfl
  base := hdest
  parents _ he := nomatch he
  reached rel hrel := by
    rcases hrel with rfl | ⟨_, hother, _⟩
    · exact ⟨_, reached_root hdest⟩
    · exact nomatch hother
  leaves _ he := nomatch he
  kept _ hp := absurd rfl hp

theorem Reached.unique {rel place' : TreePath} (h : Reached t dest rel place)
    (h' : Reached t dest rel place') : place = place' :=
  Option.some.inj (h.sandbox.symm.trans h'.sandbox)

theorem foldlM_concat (h : done.foldlM (overlay dest) t₀ = .ok t)
    (hstep : overlay dest t entry = .ok t') :
    (done ++ [entry]).foldlM (overlay dest) t₀ = .ok t' := by
  rw [List.foldlM_append, h]
  show (overlay dest t entry >>= pure) = _
  rw [hstep]
  rfl

theorem Missing.append {rel : TreePath} (h : Missing done t₀ dest rel)
    (more : List (LayerEntry γ)) : Missing (done ++ more) t₀ dest rel := by
  obtain ⟨before, e, after, t₁, rfl, hrest⟩ := h
  exact ⟨before, e, after ++ more, t₁, by rw [List.append_assoc, List.cons_append], hrest⟩

/-- A step that finds the directory there is. -/
theorem Laid.keep (h : Laid t₀ t dest done) (hrun : overlay dest t entry = .ok t)
    (hparent : Known done entry.parent) (hdir : entry.what = .dir)
    (hentry : Reached t dest entry.path place) : Laid t₀ t dest (done ++ [entry]) where
  run := foldlM_concat h.run hrun
  base := h.base
  parents := known_parents h.parents hparent
  reached rel hrel := by
    rcases known_concat hrel with hold | ⟨_, rfl⟩
    · exact h.reached rel hold
    · exact ⟨place, hentry⟩
  leaves e he x hx place' hplace' := by
    rcases List.mem_append.mp he with he | he
    · exact (h.leaves e he x hx place' hplace').imp_right fun ⟨other, hother, hne⟩ =>
        ⟨other, List.mem_append_left _ hother, hne⟩
    · rw [List.mem_singleton.mp he, hdir] at hx
      exact nomatch hx
  kept p hp := by
    obtain ⟨e, he, place', hat, hcase⟩ := h.kept p hp
    refine ⟨e, List.mem_append_left _ he, place', hat, hcase.imp_right ?_⟩
    exact fun ⟨hwhat, hplace, hnode, hmissing⟩ => ⟨hwhat, hplace, hnode, hmissing.append _⟩

/-- A step that replaces what is in the entry's place. -/
theorem Laid.replace (h : Laid t₀ t dest done) (hrun : overlay dest t entry = .ok t')
    (hparent : Known done entry.parent) (hnew : entry ∉ done)
    (hplace : Reached t dest entry.parent place) (hplain : Plain entry.name)
    (hkind : entry.what ≠ .dir ∨ directoryAt t dest entry.path = none)
    (hnot : entry.what = .dir → t.node (place ++ [entry.name]) ≠ some .dir)
    (hreplaced : Replaced t t' (place ++ [entry.name]) (some entry.what))
    (hother : ∀ rel, Known done rel → ∀ e, Through t dest rel e →
      ¬ place ++ [entry.name] <+: e) :
    Laid t₀ t' dest (done ++ [entry]) := by
  -- what was reached still is, and every place is the one it was
  have hkeep (rel : TreePath) (hrel : Known done rel) :
      ∃ place', Reached t dest rel place' ∧ Reached t' dest rel place' := by
    obtain ⟨place', hplace'⟩ := h.reached rel hrel
    exact ⟨place', hplace', hplace'.replaced hplace.below hreplaced h.base (hother rel hrel)⟩
  have hsame (e : LayerEntry γ) (he : e ∈ done) :
      placeAt t' dest e.parent e.name = placeAt t dest e.parent e.name := by
    obtain ⟨place', hold, hnow⟩ := hkeep e.parent (h.parents e he)
    rw [hold.placeAt, hnow.placeAt]
  have hentry : Reached t' dest entry.parent place := by
    obtain ⟨place', hold, hnow⟩ := hkeep entry.parent hparent
    rwa [hplace.unique hold]
  have hat : placeAt t' dest entry.parent entry.name = some (place ++ [entry.name]) :=
    hentry.placeAt entry.name
  have hlast : entry ∈ done ++ [entry] := List.mem_append_right _ (List.mem_singleton_self _)
  refine ⟨foldlM_concat h.run hrun, ?_, known_parents h.parents hparent, fun rel hrel => ?_,
    fun e he x hx place' hplace' => ?_, fun p hp => ?_⟩
  · rw [hreplaced.elsewhere dest (not_above hplace.below), h.base]
  · rcases known_concat hrel with hold | ⟨hdir, rfl⟩
    · obtain ⟨place', _, hnow⟩ := hkeep rel hold
      exact ⟨place', hnow⟩
    · exact ⟨_, hentry.child hplain (by rw [hreplaced.at_place, hdir])⟩
  · rcases List.mem_append.mp he with he | he
    · obtain ⟨place'', hold, hnow⟩ := hkeep e.parent (h.parents e he)
      obtain rfl := hplace'.unique hnow
      by_cases heq : place' ++ [e.name] = place ++ [entry.name]
      · refine .inr ⟨entry, hlast, ?_, ?_⟩
        · intro heq
          exact hnew (heq ▸ he)
        · rw [hat, heq]
      · by_cases hbelow : place ++ [entry.name] <+: place' ++ [e.name]
        · -- the directory of the file would have been replaced
          have habove : place ++ [entry.name] <+: place' :=
            (List.prefix_concat_iff.mp hbelow).resolve_left (Ne.symm heq)
          have hown : place' = place ++ [entry.name] := by
            by_contra hne
            have hgone := hreplaced.below _ habove hne
            rw [hplace'.dir] at hgone
            exact nomatch hgone
          have hdir : entry.what = .dir := by
            have hmade := hreplaced.at_place
            rw [← hown, hplace'.dir] at hmade
            exact (Option.some.inj hmade).symm
          have hold_dir := hold.dir
          rw [hown] at hold_dir
          exact absurd hold_dir (hnot hdir)
        · rw [hreplaced.elsewhere _ hbelow]
          refine (h.leaves e he x hx place' hold).imp_right fun ⟨other, hin, hne, hat'⟩ =>
            ⟨other, List.mem_append_left _ hin, hne, ?_⟩
          rw [hsame other hin, hat']
    · obtain rfl := List.mem_singleton.mp he
      rw [hplace'.unique hentry, hreplaced.at_place, hx]
      exact .inl rfl
  · by_cases hleaf : entry.what ≠ .dir ∧ place ++ [entry.name] <+: p
    · exact ⟨entry, hlast, _, hat, .inl hleaf⟩
    by_cases hmade : entry.what = .dir ∧ place ++ [entry.name] = p
    · obtain ⟨hdir, rfl⟩ := hmade
      refine ⟨entry, hlast, _, hat, .inr ⟨hdir, rfl, ?_, done, entry, [], t, rfl, hdir, rfl, h.run,
        hkind.resolve_left (not_not.mpr hdir)⟩⟩
      rw [hreplaced.at_place, hdir]
    -- elsewhere nothing has changed, and below the new directory there was nothing
    have hsame' : t'.node p = t.node p := by
      by_cases hbelow : place ++ [entry.name] <+: p
      · have hdir : entry.what = .dir := by
          by_contra hwhat
          exact hleaf ⟨hwhat, hbelow⟩
        have hne : place ++ [entry.name] ≠ p := fun he => hmade ⟨hdir, he⟩
        have hgone : t.node p = none := by
          by_contra hthere
          exact hnot hdir (t.node_of_prefix hbelow hne hthere)
        rw [hreplaced.below p hbelow hne.symm, hgone]
      · exact hreplaced.elsewhere p hbelow
    rw [hsame'] at hp
    obtain ⟨e, he, place', hat', hcase⟩ := h.kept p hp
    refine ⟨e, List.mem_append_left _ he, place', by rw [hsame e he, hat'], hcase.imp_right ?_⟩
    rintro ⟨hwhat, rfl, hnode, hmissing⟩
    exact ⟨hwhat, rfl, by rw [hsame', hnode], hmissing.append _⟩

/-- A safe step lays its entry. -/
theorem Laid.step (h : Laid t₀ t dest done) (hparent : Known done entry.parent)
    (hnew : entry ∉ done) (hplain : Plain entry.name) (hsafe : SafeStep t dest done entry) :
    ∃ t', Laid t₀ t' dest (done ++ [entry]) := by
  obtain ⟨place, hplace⟩ := h.reached entry.parent hparent
  rcases overlay_step hplace hplain h.base hparent hsafe with
    ⟨hdir, hrun, place', hentry⟩ | ⟨hkind, hnot, t', hrun, hreplaced⟩
  · exact ⟨t, h.keep hrun hparent hdir hentry⟩
  · refine ⟨t', h.replace hrun hparent hnew hplace hplain hkind hnot hreplaced ?_⟩
    intro rel hrel e he
    rcases hrel with rfl | ⟨other, hother, hdir, rfl⟩
    · exact absurd he not_through_root
    · exact hsafe.replaced hkind _ hplace.directoryAt other hother hdir e he

end Run

/-! ## The layer -/

section Layer

variable {order : TreePath → List (List Char) → List (List Char)} {src : LinkTree γ}
  {entry : LayerEntry γ} {rel : TreePath}

/-- The directory of the layer at whose turn an entry is laid. -/
def LayerEntry.turn (entry : LayerEntry γ) : TreePath :=
  match entry.what with
  | .dir => entry.path
  | .leaf _ => entry.parent

theorem mem_ownEntry (h : entry ∈ (ownEntry rel : List (LayerEntry γ))) :
    entry.what = .dir ∧ entry.path = rel := by
  unfold ownEntry at h
  split at h
  next => exact nomatch h
  next name hname =>
    rw [List.mem_singleton.mp h]
    exact ⟨rfl, List.dropLast_append_getLast? name hname⟩

theorem ownEntry_concat (rel : TreePath) (name : List Char) :
    (ownEntry (rel ++ [name]) : List (LayerEntry γ)) = [⟨rel, name, .dir⟩] := by
  unfold ownEntry
  rw [List.getLast?_concat]
  dsimp only
  rw [List.dropLast_concat]

theorem mem_leafEntries (h : entry ∈ leafEntries order src rel) :
    (∃ x, entry.what = .leaf x) ∧ entry.parent = rel ∧
      src.node entry.path = some entry.what := by
  obtain ⟨name, _, hname⟩ := List.mem_filterMap.mp h
  split at hname
  next x hx =>
    rw [← Option.some.inj hname]
    exact ⟨⟨x, rfl⟩, rfl, hx⟩
  next => exact nomatch hname

theorem turn_of_mem (h : entry ∈ ownEntry rel ++ leafEntries order src rel) :
    entry.turn = rel := by
  unfold LayerEntry.turn
  rcases List.mem_append.mp h with h | h
  · obtain ⟨hdir, hpath⟩ := mem_ownEntry h
    rw [hdir]
    exact hpath
  · obtain ⟨⟨x, hx⟩, hparent, _⟩ := mem_leafEntries h
    rw [hx]
    exact hparent

theorem node_of_mem_layerEntries (h : entry ∈ layerEntries order src) :
    src.node entry.path = some entry.what := by
  obtain ⟨rel, hrel, h⟩ := List.mem_flatMap.mp h
  rcases List.mem_append.mp h with h | h
  · obtain ⟨hdir, hpath⟩ := mem_ownEntry h
    rw [hpath, hdir]
    exact src.isDir_of_mem_topDown src.root hrel
  · exact (mem_leafEntries h).2.2

/-- Every file and link of the layer is laid. -/
theorem mem_layerEntries (horder : ∀ p names, (order p names).Perm names) {name : List Char}
    {x : Leaf γ} (h : src.node (rel ++ [name]) = some (.leaf x)) :
    ⟨rel, name, .leaf x⟩ ∈ layerEntries order src := by
  have hthere : src.node (rel ++ [name]) ≠ none := by
    rw [h]
    exact Option.some_ne_none _
  have hrel := src.mem_topDown horder (src.closed rel name hthere) List.nil_prefix
    (Nat.le_add_right (src.height + 1) _)
  refine List.mem_flatMap.mpr ⟨rel, hrel, List.mem_append_right _ ?_⟩
  refine List.mem_filterMap.mpr ⟨name, (horder _ _).mem_iff.mpr (src.mem_entries.mpr hthere), ?_⟩
  rw [h]

theorem nodup_layerEntries (horder : ∀ p names, (order p names).Perm names) :
    (layerEntries order src).Nodup := by
  unfold layerEntries
  rw [List.nodup_flatMap]
  refine ⟨fun rel _ => ?_, ?_⟩
  · rw [List.nodup_append']
    refine ⟨?_, ?_, ?_⟩
    · unfold ownEntry
      split
      · exact List.nodup_nil
      · exact List.nodup_singleton _
    · unfold leafEntries
      refine ((horder rel _).nodup_iff.mpr (src.nodup_entries rel)).filterMap ?_
      intro a b e ha hb
      split at ha
      next =>
        split at hb
        next =>
          have hname := (Option.some.inj (ha : some _ = some e)).trans
            (Option.some.inj (hb : some _ = some e)).symm
          exact congrArg LayerEntry.name hname
        next => exact nomatch hb
      next => exact nomatch ha
    · apply List.disjoint_left.mpr
      intro e hown hleaf
      obtain ⟨⟨x, hx⟩, _⟩ := mem_leafEntries hleaf
      rw [(mem_ownEntry hown).1] at hx
      exact nomatch hx
  · refine (src.nodup_topDown horder).imp fun {a b} hab => ?_
    apply List.disjoint_left.mpr
    intro e ha hb
    exact hab ((turn_of_mem ha).symm.trans (turn_of_mem hb))

/-- The directory of an entry is laid before the entry. -/
theorem known_parent (horder : ∀ p names, (order p names).Perm names)
    {done rest : List (LayerEntry γ)} (h : layerEntries order src = done ++ entry :: rest) :
    Known done entry.parent := by
  obtain ⟨before, rel, after, i, j, hwalk, hturn, rfl⟩ := Lists.flatMap_eq_append_cons h
  have hbefore {q : TreePath} (hq : q ∈ before) : Known (before.flatMap (fun rel =>
      ownEntry rel ++ leafEntries order src rel) ++ i) q := by
    obtain rfl | ⟨init, name, rfl⟩ := List.eq_nil_or_concat' q
    · exact .inl rfl
    · refine .inr ⟨⟨init, name, .dir⟩, List.mem_append_left _ (List.mem_flatMap.mpr ⟨_, hq, ?_⟩),
        rfl, rfl⟩
      rw [ownEntry_concat]
      exact List.mem_append_left _ (List.mem_singleton_self _)
  have hmem : entry ∈ ownEntry rel ++ leafEntries order src rel := by
    rw [hturn]
    exact List.mem_append_right _ List.mem_cons_self
  by_cases hown : entry ∈ (ownEntry rel : List (LayerEntry γ))
  · obtain ⟨_, hpath⟩ := mem_ownEntry hown
    have hpair : List.Sublist [entry.parent, rel] (src.topDown order (src.height + 1) []) := by
      rw [← hpath]
      refine src.topDown_parent ?_ (by simp)
      show entry.path ∈ _
      rw [hpath, hwalk]
      exact List.mem_append_right _ List.mem_cons_self
    apply hbefore
    have hnodup : (src.topDown order (src.height + 1) []).Nodup := src.nodup_topDown horder
    rw [hwalk] at hpair hnodup
    exact Lists.mem_of_sublist_pair hnodup hpair
  · -- a file or a link comes after the directory it is in
    have hleaf := (List.mem_append.mp hmem).resolve_left hown
    rw [(mem_leafEntries hleaf).2.1]
    have hdone : (ownEntry rel : List (LayerEntry γ)) <+: i := by
      rcases List.append_eq_append_iff.mp hturn with ⟨leafs, rfl, _⟩ | ⟨own, heq, hrest⟩
      · exact List.prefix_append _ _
      · cases own with
        | nil => rw [heq, List.append_nil]
        | cons first own =>
          refine absurd ?_ hown
          rw [heq, (List.cons.inj hrest).1]
          exact List.mem_append_right _ List.mem_cons_self
    obtain rfl | ⟨init, name, rfl⟩ := List.eq_nil_or_concat' rel
    · exact .inl rfl
    · refine .inr ⟨⟨init, name, .dir⟩, List.mem_append_right _ (hdone.subset ?_), rfl, rfl⟩
      rw [ownEntry_concat]
      exact List.mem_singleton_self _

end Layer

/-! ## The whole -/

section Whole

variable {order : TreePath → List (List Char) → List (List Char)} {src t t' : LinkTree γ}
  {dest : TreePath}

/-- Every part of a safe run lays its entries. -/
theorem laid_of_safeRun (horder : ∀ p names, (order p names).Perm names)
    (hdest : t.node dest = some .dir) (hsafe : SafeRun order src t dest)
    (done rest : List (LayerEntry γ)) (h : layerEntries order src = done ++ rest) :
    ∃ t₁, Laid t t₁ dest done := by
  induction done using List.reverseRecOn generalizing rest with
  | nil => exact ⟨t, laid_nil hdest⟩
  | append_singleton done entry ih =>
    rw [List.append_assoc, List.singleton_append] at h
    obtain ⟨t₁, hlaid⟩ := ih (entry :: rest) h
    have hmem : entry ∈ layerEntries order src := by
      rw [h]
      exact List.mem_append_right _ List.mem_cons_self
    have hplain : Plain entry.name := by
      refine src.plain entry.parent entry.name ?_
      show src.node entry.path ≠ none
      rw [node_of_mem_layerEntries hmem]
      exact Option.some_ne_none _
    have hnew : entry ∉ done := by
      intro hin
      have hnodup : (layerEntries order src).Nodup := nodup_layerEntries horder
      rw [h, List.nodup_append'] at hnodup
      exact List.disjoint_left.mp hnodup.2.2 hin List.mem_cons_self
    exact hlaid.step (known_parent horder h) hnew hplain (hsafe done entry rest h t₁ hlaid.run)

theorem placeAt_below {rel : TreePath} {name : List Char} {place : TreePath}
    (h : placeAt t dest rel name = some place) : dest <+: place := by
  obtain ⟨found, hfound, rfl⟩ := Option.map_eq_some_iff.mp h
  exact (below_of_resolve hfound List.prefix_rfl).1.trans (List.prefix_append _ _)

theorem Laid.overlaid (horder : ∀ p names, (order p names).Perm names)
    (h : Laid t t' dest (layerEntries order src)) : Overlaid order src t t' dest where
  outside p hp := by
    by_contra hchanged
    obtain ⟨e, _, place, hplace, hcase⟩ := h.kept p hchanged
    have hbelow := placeAt_below hplace
    rcases hcase with ⟨_, hpre⟩ | ⟨_, rfl, _⟩
    · exact hp (hbelow.trans hpre)
    · exact hp hbelow
  found rel name x hx := by
    have hmem := mem_layerEntries horder hx
    obtain ⟨place, hreached⟩ := h.reached rel (h.parents _ hmem)
    refine ⟨_, hreached.placeAt name, ?_⟩
    refine (h.leaves _ hmem x rfl place hreached).imp_right fun ⟨other, hother, hne, hplace⟩ =>
      ⟨other.parent, other.name, fun he => hne ?_, ?_, hplace⟩
    · have hnode := node_of_mem_layerEntries hother
      obtain ⟨hparent, hname⟩ := List.append_inj' he rfl
      have hwhat : some other.what = some (.leaf x) := by
        rw [← hnode, ← hx]
        exact congrArg src.node he
      obtain ⟨parent, name', what⟩ := other
      obtain rfl : parent = rel := hparent
      obtain rfl : name' = name := List.singleton_inj.mp hname
      rw [show what = .leaf x from Option.some.inj hwhat]
    · show src.node other.path ≠ none
      rw [node_of_mem_layerEntries hother]
      exact Option.some_ne_none _
  kept p hp := by
    obtain ⟨e, he, place, hplace, hcase⟩ := h.kept p hp
    have hnode : src.node (e.parent ++ [e.name]) = some e.what := node_of_mem_layerEntries he
    refine ⟨e.parent, e.name, place, hplace, ?_⟩
    rw [hnode]
    refine hcase.imp (fun ⟨hleaf, hpre⟩ => ⟨?_, hpre⟩) fun ⟨hdir, hrest⟩ => ⟨by rw [hdir], hrest⟩
    cases hwhat : e.what with
    | dir => exact absurd hwhat hleaf
    | leaf x => exact ⟨x, rfl⟩

/-- A safe run returns, and leaves the layer over the destination. -/
theorem overlayTree_overlaid (horder : ∀ p names, (order p names).Perm names)
    (hdest : t.node dest = some .dir) (hsafe : SafeRun order src t dest) :
    ∃ t', overlayTree order src t dest = .ok t' ∧ Overlaid order src t t' dest := by
  obtain ⟨t', hlaid⟩ :=
    laid_of_safeRun horder hdest hsafe (layerEntries order src) [] (List.append_nil _).symm
  exact ⟨t', hlaid.run, hlaid.overlaid horder⟩

end Whole

section Examples

/-- A package that declares its library under `lib64`. -/
def libtirpc : LinkTree ℕ :=
  .ofEntries [([], "lib64".toList, .dir), (["lib64".toList], "x".toList, .leaf (.file 1))]

/-- A host with a library directory, and a buildroot whose `lib64` is a link. -/
def buildroot (target : String) : LinkTree ℕ :=
  .ofEntries [([], "usr".toList, .dir), (["usr".toList], "lib64".toList, .dir),
    ([], "out".toList, .dir), (["out".toList], "usr".toList, .dir),
    (["out".toList, "usr".toList], "lib64".toList, .dir),
    (["out".toList], "lib64".toList, .leaf (.link target.toList))]

theorem libtirpc_entries : layerEntries (fun _ names => names) libtirpc =
    [⟨[], "lib64".toList, .dir⟩, ⟨["lib64".toList], "x".toList, .leaf (.file 1)⟩] := rfl

/-- Where the link is relative, the run is safe. -/
theorem libtirpc_safe :
    SafeRun (fun _ names => names) libtirpc (buildroot "usr/lib64") ["out".toList] := by
  intro done entry rest h t₁ hrun
  rw [libtirpc_entries] at h
  have hplace : resolve (buildroot "usr/lib64") ["out".toList] maxLinks ["out".toList]
      ["lib64".toList] = some ⟨["out".toList, "usr".toList, "lib64".toList], 39,
        [["out".toList, "lib64".toList], ["out".toList, "usr".toList],
          ["out".toList, "usr".toList, "lib64".toList]]⟩ := rfl
  have hhost : resolve (buildroot "usr/lib64") [] maxLinks ["out".toList]
      ["lib64".toList] = some ⟨["out".toList, "usr".toList, "lib64".toList], 39,
        [["out".toList, "lib64".toList], ["out".toList, "usr".toList],
          ["out".toList, "usr".toList, "lib64".toList]]⟩ := rfl
  match done with
  | [] =>
    obtain ⟨rfl, rfl⟩ := List.cons.inj h
    obtain rfl := Except.ok.inj hrun
    refine ⟨fun _ p target _ _ place hat => ?_, fun _ p _ other hother => nomatch hother⟩
    rw [← (directoryAt_eq_some.mp hat).1]
    show (resolve _ _ _ _ ["lib64".toList]).map _ = (resolve _ _ _ _ ["lib64".toList]).map _
    rw [hplace, hhost]
  | [first] =>
    obtain ⟨rfl, hrest⟩ := List.cons.inj h
    obtain ⟨rfl, rfl⟩ := List.cons.inj hrest
    obtain rfl : buildroot "usr/lib64" = t₁ := Except.ok.inj hrun
    refine ⟨fun hdir => (nomatch hdir), fun _ p hp other hother _ e he => ?_⟩
    have hp' : directoryAt (buildroot "usr/lib64") ["out".toList] ["lib64".toList] =
        some ["out".toList, "usr".toList, "lib64".toList] := rfl
    obtain rfl := Option.some.inj (hp'.symm.trans hp)
    obtain ⟨root, found, hroot, hfound, he⟩ := he
    rw [List.mem_singleton.mp hother] at hfound
    have htrail : found.trail = [["out".toList, "lib64".toList], ["out".toList, "usr".toList],
        ["out".toList, "usr".toList, "lib64".toList]] := by
      rcases hroot with rfl | rfl
      · rw [← Option.some.inj (hhost.symm.trans hfound)]
      · rw [← Option.some.inj (hplace.symm.trans hfound)]
    rw [htrail] at he
    revert e
    decide
  | first :: second :: done =>
    have hlen := congrArg List.length h
    simp at hlen

theorem overlayTree_libtirpc :
    ∃ t', overlayTree (fun _ names => names) libtirpc (buildroot "usr/lib64") ["out".toList] =
      .ok t' ∧ Overlaid (fun _ names => names) libtirpc (buildroot "usr/lib64") t' ["out".toList] :=
  overlayTree_overlaid (fun _ names => .refl names) rfl libtirpc_safe

/-- Where the link is absolute, the library goes to the host. -/
theorem overlayTree_escapes :
    ¬ ∀ (order : TreePath → List (List Char) → List (List Char)) (src t : LinkTree ℕ)
      (dest : TreePath), (∀ p names, (order p names).Perm names) → t.node dest = some .dir →
      ∀ t', overlayTree order src t dest = .ok t' → Overlaid order src t t' dest := by
  intro h
  have hrun := h (fun _ names => names) libtirpc (buildroot "/usr/lib64") ["out".toList]
    (fun _ names => .refl names) rfl
  have hwritten : (overlayTree (fun _ names => names) libtirpc (buildroot "/usr/lib64")
      ["out".toList]).map (fun t' => (t'.node ["usr".toList, "lib64".toList, "x".toList]).isSome) =
      .ok true := rfl
  cases hresult : overlayTree (fun _ names => names) libtirpc (buildroot "/usr/lib64")
      ["out".toList] with
  | error e =>
    rw [hresult] at hwritten
    exact nomatch hwritten
  | ok t' =>
    rw [hresult] at hwritten
    have hsame := (hrun t' hresult).outside ["usr".toList, "lib64".toList, "x".toList] (by decide)
    have hthere : (t'.node ["usr".toList, "lib64".toList, "x".toList]).isSome = true :=
      Except.ok.inj hwritten
    rw [hsame] at hthere
    exact absurd hthere (by decide)

end Examples

end BuckosDistro.Payload
