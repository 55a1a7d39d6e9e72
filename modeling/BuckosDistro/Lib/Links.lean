/-
  Symbolic links in a directory tree: where a path leads, from a root that is that of the system
  or a directory in which a process is confined. Nothing here names a program.
-/
import BuckosDistro.Lib.FileTree

namespace BuckosDistro.Lib

open TreePath

/-- What holds no entries: a file, or a link with the path that is written in it. -/
inductive Leaf (γ : Type) where
  | file (content : γ)
  | link (target : List Char)

abbrev LinkTree (γ : Type) := FileTree (Leaf γ)

namespace Links

/-- The components of a path that is written out; a slash at its end asks for a directory, as `.`
    does. -/
def targetParts (target : List Char) : List (List Char) :=
  (target.splitOn '/').filter (· ≠ []) ++
    if (target.splitOn '/').getLast? = some [] then [dot] else []

def isAbsolute (target : List Char) : Bool := target.head? = some '/'

/-- Links that one path may lead through. -/
def maxLinks : ℕ := 40

/-- Where a path leads: the place, how many more links it may lead through, and the entries it has
    gone through. -/
structure Found where
  place : TreePath
  left : ℕ
  trail : List TreePath

def Found.after (found : Found) (trail : List TreePath) : Found :=
  { found with trail := trail ++ found.trail }

/-- The directory above one, which for the root is the root. -/
def upFrom (root cwd : TreePath) : TreePath := if cwd = root then root else cwd.dropLast

section Resolve

variable {γ : Type} (t : LinkTree γ) (root : TreePath)

/-- Goes through the components of a path; `follow` goes on where a link is met. -/
def resolveFrom (left : ℕ) (follow : TreePath → List (List Char) → Option Found) :
    TreePath → List (List Char) → Option Found
  | cwd, [] => some ⟨cwd, left, []⟩
  | cwd, part :: rest =>
    if ¬ t.isDir cwd then none
    else if part = dot then resolveFrom left follow cwd rest
    else if part = dotdot then
      resolveFrom left follow (upFrom root cwd) rest
    else
      match t.node (cwd ++ [part]) with
      | none => none
      | some (.leaf (.link target)) =>
        (follow (if isAbsolute target then root else cwd) (targetParts target ++ rest)).map
          (·.after [cwd ++ [part]])
      | some _ => (resolveFrom left follow (cwd ++ [part]) rest).map (·.after [cwd ++ [part]])

/-- Where a path leads from a directory, through at most so many links. -/
def resolve : ℕ → TreePath → List (List Char) → Option Found
  | 0, cwd, parts => resolveFrom t root 0 (fun _ _ => none) cwd parts
  | fuel + 1, cwd, parts => resolveFrom t root (fuel + 1) (resolve fuel) cwd parts

end Resolve

section Lemmas

variable {γ : Type} {t t' : LinkTree γ} {root : TreePath} {fuel : ℕ} {cwd : TreePath}
  {parts : List (List Char)} {found : Found}

@[simp] theorem after_nil (found : Found) : found.after [] = found := rfl

/-- Goes on with more fuel than a link takes. -/
def following (t : LinkTree γ) (root : TreePath) : ℕ → TreePath → List (List Char) → Option Found
  | 0 => fun _ _ => none
  | fuel + 1 => resolve t root fuel

theorem resolve_eq (fuel : ℕ) (cwd : TreePath) (parts : List (List Char)) :
    resolve t root fuel cwd parts = resolveFrom t root fuel (following t root fuel) cwd parts := by
  cases fuel with
  | zero => rfl
  | succ fuel => rfl

@[simp] theorem resolve_nil : resolve t root fuel cwd [] = some ⟨cwd, fuel, []⟩ := by
  rw [resolve_eq, resolveFrom]

/-- One component further. -/
theorem resolve_cons (part : List Char) (rest : List (List Char)) :
    resolve t root fuel cwd (part :: rest) =
      if ¬ t.isDir cwd then none
      else if part = dot then resolve t root fuel cwd rest
      else if part = dotdot then
        resolve t root fuel (upFrom root cwd) rest
      else
        match t.node (cwd ++ [part]) with
        | none => none
        | some (.leaf (.link target)) =>
          (following t root fuel (if isAbsolute target then root else cwd)
            (targetParts target ++ rest)).map (·.after [cwd ++ [part]])
        | some _ => (resolve t root fuel (cwd ++ [part]) rest).map (·.after [cwd ++ [part]]) := by
  simp only [resolve_eq]
  rw [resolveFrom]

/-- A rule for what holds of a path that leads somewhere, by its components and its links. -/
theorem resolve_induction {motive : ℕ → TreePath → List (List Char) → Found → Prop}
    (nil : ∀ fuel cwd, motive fuel cwd [] ⟨cwd, fuel, []⟩)
    (dots : ∀ fuel cwd rest found, t.node cwd = some .dir → motive fuel cwd rest found →
      motive fuel cwd (dot :: rest) found)
    (up : ∀ fuel cwd rest found, t.node cwd = some .dir →
      motive fuel (upFrom root cwd) rest found →
      motive fuel cwd (dotdot :: rest) found)
    (down : ∀ fuel cwd part rest found, t.node cwd = some .dir → Plain part →
      t.node (cwd ++ [part]) ≠ none →
      (∀ target, t.node (cwd ++ [part]) ≠ some (.leaf (.link target))) →
      motive fuel (cwd ++ [part]) rest found →
      motive fuel cwd (part :: rest) (found.after [cwd ++ [part]]))
    (link : ∀ fuel cwd part rest target found, t.node cwd = some .dir → Plain part →
      t.node (cwd ++ [part]) = some (.leaf (.link target)) →
      motive fuel (if isAbsolute target then root else cwd) (targetParts target ++ rest) found →
      motive (fuel + 1) cwd (part :: rest) (found.after [cwd ++ [part]]))
    (h : resolve t root fuel cwd parts = some found) : motive fuel cwd parts found := by
  induction fuel using Nat.strong_induction_on generalizing cwd parts found with
  | _ fuel ihfuel =>
    induction parts generalizing cwd found with
    | nil =>
      rw [resolve_nil] at h
      rw [← Option.some.inj h]
      exact nil fuel cwd
    | cons part rest ih =>
      rw [resolve_cons] at h
      split_ifs at h with hdir hdot hdotdot
      · have hcwd : t.node cwd = some .dir := t.isDir_iff.mp hdir
        rw [hdot]
        exact dots fuel cwd rest found hcwd (ih h)
      · have hcwd : t.node cwd = some .dir := t.isDir_iff.mp hdir
        rw [hdotdot]
        exact up fuel cwd rest found hcwd (ih h)
      · have hcwd : t.node cwd = some .dir := t.isDir_iff.mp hdir
        have hplain : Plain part := plain_of_ne hdot hdotdot
        split at h
        next => exact nomatch h
        next target hnode =>
          obtain ⟨found', hfound, rfl⟩ := Option.map_eq_some_iff.mp h
          cases fuel with
          | zero => exact nomatch hfound
          | succ fuel =>
            exact link fuel cwd part rest target found' hcwd hplain hnode
              (ihfuel fuel (Nat.lt_succ_self fuel) hfound)
        next node hlink hnode =>
          obtain ⟨found', hfound, rfl⟩ := Option.map_eq_some_iff.mp h
          refine down fuel cwd part rest found' hcwd hplain ?_ ?_ (ih hfound)
          · rw [hnode]
            exact Option.some_ne_none _
          · intro target he
            exact hlink target (Option.some.inj (hnode.symm.trans he))

/-- A path that leads on leads through what its beginning leads to. -/
theorem resolve_append (p q : List (List Char)) :
    resolve t root fuel cwd (p ++ q) = (resolve t root fuel cwd p).bind fun found =>
      (resolve t root found.left found.place q).map (·.after found.trail) := by
  induction fuel using Nat.strong_induction_on generalizing cwd p with
  | _ fuel ihfuel =>
    induction p generalizing cwd with
    | nil =>
      rw [resolve_nil, Option.bind_some, List.nil_append]
      cases resolve t root fuel cwd q <;> rfl
    | cons part rest ih =>
      rw [List.cons_append, resolve_cons, resolve_cons]
      split_ifs with hdir hdot hdotdot
      · exact ih
      · exact ih
      · split
        next => rfl
        next target hnode =>
          cases fuel with
          | zero => rfl
          | succ fuel =>
            show (resolve t root fuel _ (targetParts target ++ (rest ++ q))).map _ =
              ((resolve t root fuel _ (targetParts target ++ rest)).map _).bind _
            rw [← List.append_assoc, ihfuel fuel (Nat.lt_succ_self fuel)]
            cases resolve t root fuel _ (targetParts target ++ rest) with
            | none => rfl
            | some found =>
              rw [Option.bind_some, Option.map_some, Option.bind_some, Option.map_map]
              rfl
        next node hlink hnode =>
          rw [ih]
          cases resolve t root fuel (cwd ++ [part]) rest with
          | none => rfl
          | some found =>
            rw [Option.bind_some, Option.map_some, Option.bind_some, Option.map_map]
            rfl
      · rfl

theorem node_upFrom {t : LinkTree γ} (hroot : t.node root = some .dir)
    (hcwd : t.node cwd = some .dir) : t.node (upFrom root cwd) = some .dir := by
  unfold upFrom
  split_ifs with he
  · exact hroot
  · obtain rfl | ⟨init, last, rfl⟩ := List.eq_nil_or_concat' cwd
    · exact hcwd
    · rw [List.dropLast_concat]
      exact t.closed init last (by rw [hcwd]; exact Option.some_ne_none _)

/-- A path leads where it did in a tree that is the same along the way. -/
theorem resolve_congr (hroot : t'.node root = some .dir) (hcwd : t'.node cwd = some .dir)
    (h : resolve t root fuel cwd parts = some found)
    (hagree : ∀ p ∈ found.trail, t'.node p = t.node p) :
    resolve t' root fuel cwd parts = some found := by
  have hkeep : t.node cwd = some .dir → t'.node cwd = some .dir := fun _ => hcwd
  clear hcwd
  revert hkeep hagree
  refine resolve_induction (motive := fun fuel cwd parts found =>
    (∀ p ∈ found.trail, t'.node p = t.node p) → (t.node cwd = some .dir → t'.node cwd = some .dir) →
      resolve t' root fuel cwd parts = some found) ?_ ?_ ?_ ?_ ?_ h
  · intro fuel cwd _ _
    exact resolve_nil
  · intro fuel cwd rest found hdir ih hagree hkeep
    rw [resolve_cons, if_neg (not_not.mpr (t'.isDir_iff.mpr (hkeep hdir))), if_pos rfl]
    exact ih hagree hkeep
  · intro fuel cwd rest found hdir ih hagree hkeep
    rw [resolve_cons, if_neg (not_not.mpr (t'.isDir_iff.mpr (hkeep hdir))), if_neg (by decide),
      if_pos rfl]
    exact ih hagree fun _ => node_upFrom hroot (hkeep hdir)
  · intro fuel cwd part rest found hdir hplain hthere hlink ih hagree hkeep
    obtain ⟨hpart, hrest⟩ := List.forall_mem_cons.mp hagree
    rw [resolve_cons, if_neg (not_not.mpr (t'.isDir_iff.mpr (hkeep hdir))), if_neg hplain.1,
      if_neg hplain.2, hpart]
    split
    next hnone => exact absurd hnone hthere
    next target hnode => exact absurd hnode (hlink target)
    next => rw [ih hrest fun he => by rw [hpart, he], Option.map_some]
  · intro fuel cwd part rest target found hdir hplain hnode ih hagree hkeep
    obtain ⟨hpart, hrest⟩ := List.forall_mem_cons.mp hagree
    rw [resolve_cons, if_neg (not_not.mpr (t'.isDir_iff.mpr (hkeep hdir))), if_neg hplain.1,
      if_neg hplain.2, hpart, hnode]
    dsimp only
    show (resolve t' root fuel _ _).map _ = _
    rw [ih hrest, Option.map_some]
    intro _
    split_ifs
    · exact hroot
    · exact hkeep hdir

/-- A path that starts below a root stays below it. -/
theorem below_of_resolve (h : resolve t root fuel cwd parts = some found) (hcwd : root <+: cwd) :
    root <+: found.place ∧ ∀ p ∈ found.trail, root <+: p ∧ p ≠ root := by
  revert hcwd
  have hup (cwd : TreePath) (hcwd : root <+: cwd) : root <+: upFrom root cwd := by
    unfold upFrom
    split_ifs with he
    · exact List.prefix_rfl
    · obtain rfl | ⟨init, last, rfl⟩ := List.eq_nil_or_concat' cwd
      · exact hcwd
      · rw [List.dropLast_concat]
        exact (List.prefix_concat_iff.mp hcwd).resolve_left (Ne.symm he)
  have hdown (cwd : TreePath) (part : List Char) (hcwd : root <+: cwd) :
      root <+: cwd ++ [part] ∧ cwd ++ [part] ≠ root := by
    refine ⟨hcwd.trans (List.prefix_append _ _), fun he => ?_⟩
    have hlen := hcwd.length_le
    rw [← he, List.length_append, List.length_singleton] at hlen
    omega
  refine resolve_induction (motive := fun _ cwd _ found => root <+: cwd →
    root <+: found.place ∧ ∀ p ∈ found.trail, root <+: p ∧ p ≠ root) ?_ ?_ ?_ ?_ ?_ h
  · exact fun fuel cwd hcwd => ⟨hcwd, fun p hp => nomatch hp⟩
  · exact fun _ _ _ _ _ ih => ih
  · exact fun _ cwd _ _ _ ih hcwd => ih (hup cwd hcwd)
  · intro fuel cwd part rest found _ _ _ _ ih hcwd
    obtain ⟨hplace, htrail⟩ := ih (hdown cwd part hcwd).1
    exact ⟨hplace, List.forall_mem_cons.mpr ⟨hdown cwd part hcwd, htrail⟩⟩
  · intro fuel cwd part rest target found _ _ _ ih hcwd
    have hstart : root <+: if isAbsolute target then root else cwd := by
      split_ifs
      · exact List.prefix_rfl
      · exact hcwd
    obtain ⟨hplace, htrail⟩ := ih hstart
    exact ⟨hplace, List.forall_mem_cons.mpr ⟨hdown cwd part hcwd, htrail⟩⟩

/-- The place of a path is above where it starts, or above something it goes through. -/
theorem place_prefix (h : resolve t root fuel cwd parts = some found) :
    found.place <+: cwd ∨ found.place <+: root ∨ ∃ p ∈ found.trail, found.place <+: p := by
  refine resolve_induction (motive := fun _ cwd _ found =>
    found.place <+: cwd ∨ found.place <+: root ∨ ∃ p ∈ found.trail, found.place <+: p)
    ?_ ?_ ?_ ?_ ?_ h
  · exact fun _ _ => .inl List.prefix_rfl
  · exact fun _ _ _ _ _ ih => ih
  · intro _ cwd _ _ _ ih
    refine ih.imp (fun hcwd => ?_) id |>.elim id .inr
    unfold upFrom at hcwd
    split_ifs at hcwd with he
    · exact .inr (.inl hcwd)
    · exact .inl (hcwd.trans (List.dropLast_prefix cwd))
  · rintro _ cwd part _ found _ _ _ _ (hcwd | hroot | ⟨p, hp, hpre⟩)
    · exact .inr (.inr ⟨_, List.mem_cons_self, hcwd⟩)
    · exact .inr (.inl hroot)
    · exact .inr (.inr ⟨p, List.mem_cons_of_mem _ hp, hpre⟩)
  · rintro _ cwd part _ target found _ _ _ (hcwd | hroot | ⟨p, hp, hpre⟩)
    · split_ifs at hcwd
      · exact .inr (.inl hcwd)
      · exact .inl hcwd
    · exact .inr (.inl hroot)
    · exact .inr (.inr ⟨p, List.mem_cons_of_mem _ hp, hpre⟩)

end Lemmas

end Links

end BuckosDistro.Lib
