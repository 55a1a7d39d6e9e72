/-
  Directory trees: what stands at each path, and the operations of a file system that put
  something into a directory, take a tree away and move one. A tree carries its own
  well-formedness, so that every operation states what it needs. Nothing here names a program.
-/
import Mathlib

namespace BuckosDistro.Lib

/-- What stands at a path: a directory, or something that holds no entries. -/
inductive Node (α : Type) where
  | dir
  | leaf (a : α)

/-- The names from the root to an entry. -/
abbrev TreePath := List (List Char)

namespace TreePath

def dot : List Char := ['.']

def dotdot : List Char := ['.', '.']

/-- A name that an entry can have. -/
def Plain (name : List Char) : Prop := name ≠ dot ∧ name ≠ dotdot

instance (name : List Char) : Decidable (Plain name) :=
  inferInstanceAs (Decidable (name ≠ dot ∧ name ≠ dotdot))

theorem plain_of_ne {name : List Char} (h : ¬ name = dot) (h' : ¬ name = dotdot) : Plain name :=
  ⟨h, h'⟩

/-- A path as it is printed. -/
def text (p : TreePath) : String := String.ofList (p.flatMap fun name => '/' :: name)

end TreePath

open TreePath

/-- A finite tree: `paths` lists what is there. -/
structure FileTree (α : Type) where
  node : TreePath → Option (Node α)
  paths : List TreePath
  complete : ∀ p, node p ≠ none → p ∈ paths
  root : node [] = some .dir
  closed : ∀ p name, node (p ++ [name]) ≠ none → node p = some .dir
  plain : ∀ p name, node (p ++ [name]) ≠ none → Plain name

namespace FileTree

variable {α : Type} (t : FileTree α) {p q r : TreePath} {name : List Char}

def isDir (p : TreePath) : Bool :=
  match t.node p with
  | some .dir => true
  | _ => false

@[simp] theorem isDir_iff : t.isDir p = true ↔ t.node p = some .dir := by
  unfold isDir
  split
  · exact iff_of_true rfl (by assumption)
  · exact iff_of_false Bool.false_ne_true (by assumption)

/-- The names of a directory. -/
def entries (p : TreePath) : List (List Char) :=
  (t.paths.filterMap fun q =>
    if q.dropLast = p ∧ (t.node q).isSome then q.getLast? else none).dedup

theorem mem_entries : name ∈ t.entries p ↔ t.node (p ++ [name]) ≠ none := by
  unfold entries
  rw [List.mem_dedup, List.mem_filterMap]
  refine ⟨fun ⟨q, _, hq⟩ => ?_, fun h => ⟨p ++ [name], t.complete _ h, ?_⟩⟩
  · split_ifs at hq with hcond
    obtain ⟨hlast, hsome⟩ := hcond
    have heq : q = p ++ [name] := by
      rw [← hlast, List.dropLast_append_getLast? name hq]
    rw [← heq]
    exact Option.isSome_iff_ne_none.mp hsome
  · rw [List.dropLast_concat, if_pos ⟨rfl, Option.isSome_iff_ne_none.mpr h⟩,
      List.getLast?_concat]

theorem nodup_entries (p : TreePath) : (t.entries p).Nodup := List.nodup_dedup _

/-! ## Above and below -/

/-- What stands above an entry is a directory. -/
theorem node_of_prefix (h : p <+: q) (hne : p ≠ q) (hq : t.node q ≠ none) :
    t.node p = some .dir := by
  obtain ⟨rest, rfl⟩ := h
  induction rest using List.reverseRecOn with
  | nil => exact absurd (List.append_nil p).symm hne
  | append_singleton rest name ih =>
    rw [← List.append_assoc] at hq
    have hdir := t.closed _ _ hq
    by_cases hrest : rest = []
    · rw [hrest, List.append_nil] at hdir
      exact hdir
    · apply ih
      · intro he
        exact hrest (List.append_right_eq_self.mp he.symm)
      · rw [hdir]
        exact Option.some_ne_none _

theorem ne_none_of_prefix (h : p <+: q) (hq : t.node q ≠ none) : t.node p ≠ none := by
  by_cases hne : p = q
  · rwa [hne]
  · rw [t.node_of_prefix h hne hq]
    exact Option.some_ne_none _

/-- Nothing stands below what is not there. -/
theorem eq_none_of_prefix (h : p <+: q) (hp : t.node p = none) : t.node q = none := by
  by_contra hq
  exact t.ne_none_of_prefix h hq hp

theorem plain_of_mem (h : t.node p ≠ none) (hname : name ∈ p) : Plain name := by
  obtain ⟨before, after, rfl⟩ := List.append_of_mem hname
  have hpre : before ++ [name] <+: before ++ name :: after := ⟨after, by simp⟩
  exact t.plain before name (t.ne_none_of_prefix hpre h)

/-- Room for the longest path. -/
def height : ℕ := (t.paths.map List.length).sum

theorem length_le_height (h : t.node p ≠ none) : p.length ≤ t.height :=
  List.single_le_sum (fun _ _ => Nat.zero_le _) _ (List.mem_map.mpr ⟨p, t.complete p h, rfl⟩)

/-- Every entry is above a deepest one. -/
theorem exists_deepest (h : t.node p ≠ none) :
    ∃ q, p <+: q ∧ t.node q ≠ none ∧ ∀ name, t.node (q ++ [name]) = none := by
  -- by the room that is left below the path
  induction hroom : t.height - p.length using Nat.strong_induction_on generalizing p with
  | _ room ih =>
    by_cases hlast : ∀ name, t.node (p ++ [name]) = none
    · exact ⟨p, List.prefix_rfl, h, hlast⟩
    · obtain ⟨name, hname⟩ := not_forall.mp hlast
      have hle := t.length_le_height hname
      rw [List.length_append, List.length_singleton] at hle
      have hsmaller : t.height - (p ++ [name]).length < room := by
        rw [List.length_append, List.length_singleton]
        omega
      obtain ⟨q, hq, hthere, hnone⟩ := ih _ hsmaller hname rfl
      exact ⟨q, (List.prefix_append p [name]).trans hq, hthere, hnone⟩

/-! ## Operations -/

/-- A root with nothing in it. -/
def empty : FileTree α where
  node r := if r = [] then some .dir else none
  paths := [[]]
  complete r h := by
    split_ifs at h with hr
    · exact hr ▸ List.mem_cons_self
    · exact absurd rfl h
  root := if_pos rfl
  closed r other h := by
    rw [if_neg (by simp)] at h
    exact absurd rfl h
  plain r other h := by
    rw [if_neg (by simp)] at h
    exact absurd rfl h

/-- Puts something into a directory, under a name that is free. -/
def put (p : TreePath) (name : List Char) (x : Node α) (hdir : t.node p = some .dir)
    (hfree : t.node (p ++ [name]) = none) (hplain : Plain name) : FileTree α where
  node r := if r = p ++ [name] then some x else t.node r
  paths := (p ++ [name]) :: t.paths
  complete r h := by
    split_ifs at h with hr
    · exact hr ▸ List.mem_cons_self
    · exact List.mem_cons_of_mem _ (t.complete r h)
  root := by
    rw [if_neg (by simp)]
    exact t.root
  closed r other h := by
    have hne : r ≠ p ++ [name] := by
      rintro rfl
      split_ifs at h with he
      · have hlen := congrArg List.length he
        rw [List.length_append] at hlen
        exact absurd hlen (by simp)
      · exact h (t.eq_none_of_prefix (List.prefix_append _ _) hfree)
    rw [if_neg hne]
    split_ifs at h with he
    · rw [(List.append_inj' he rfl).1]
      exact hdir
    · exact t.closed r other h
  plain r other h := by
    split_ifs at h with he
    · rw [List.singleton_inj.mp (List.append_inj' he rfl).2]
      exact hplain
    · exact t.plain r other h

/-- Takes an entry away, with what is below it. -/
def remove (p : TreePath) (hp : p ≠ []) : FileTree α where
  node r := if p <+: r then none else t.node r
  paths := t.paths
  complete r h := by
    split_ifs at h with hr
    · exact absurd rfl h
    · exact t.complete r h
  root := by
    rw [if_neg fun h => hp (List.prefix_nil.mp h)]
    exact t.root
  closed r other h := by
    split_ifs at h with hr
    · exact absurd rfl h
    · rw [if_neg fun hr' => hr (hr'.trans (List.prefix_append r [other]))]
      exact t.closed r other h
  plain r other h := by
    split_ifs at h with hr
    · exact absurd rfl h
    · exact t.plain r other h

/-- Moves an entry into a directory that is not below it, under a name that is free. -/
def move (src p : TreePath) (name : List Char) (hdir : t.node p = some .dir) (hout : ¬ src <+: p)
    (_hfree : t.node (p ++ [name]) = none) (hplain : Plain name) : FileTree α where
  node r :=
    if p ++ [name] <+: r then t.node (src ++ r.drop (p ++ [name]).length)
    else if src <+: r then none else t.node r
  paths := t.paths ++ t.paths.map fun r => (p ++ [name]) ++ r.drop src.length
  complete r h := by
    split_ifs at h with hdst hsrc
    · obtain ⟨rest, rfl⟩ := hdst
      rw [List.drop_left] at h
      refine List.mem_append_right _ (List.mem_map.mpr ⟨src ++ rest, t.complete _ h, ?_⟩)
      rw [List.drop_left]
    · exact absurd rfl h
    · exact List.mem_append_left _ (t.complete r h)
  root := by
    have hsrc : ¬ src <+: [] := fun h => hout (h.trans List.nil_prefix)
    rw [if_neg (by simp), if_neg hsrc]
    exact t.root
  closed r other h := by
    by_cases hdst : p ++ [name] <+: r
    · rw [if_pos (hdst.trans (List.prefix_append r [other]))] at h
      rw [if_pos hdst]
      obtain ⟨rest, rfl⟩ := hdst
      rw [List.append_assoc, List.drop_left, ← List.append_assoc] at h
      rw [List.drop_left]
      exact t.closed _ other h
    · rw [if_neg hdst]
      by_cases hsrc : src <+: r
      · rw [if_pos hsrc]
        have hsrc' : src <+: r ++ [other] := hsrc.trans (List.prefix_append r [other])
        split_ifs at h with hlast
        · obtain he | hlast := List.prefix_concat_iff.mp hlast
          · rw [(List.append_inj' he rfl).1] at hout
            exact absurd hsrc hout
          · exact absurd hlast hdst
        · exact absurd rfl h
      · rw [if_neg hsrc]
        split_ifs at h with hlast hsrc'
        · obtain he | hlast := List.prefix_concat_iff.mp hlast
          · rw [← (List.append_inj' he rfl).1]
            exact hdir
          · exact absurd hlast hdst
        · exact absurd rfl h
        · exact t.closed r other h
  plain r other h := by
    split_ifs at h with hdst hsrc
    · obtain he | hdst := List.prefix_concat_iff.mp hdst
      · rw [← List.singleton_inj.mp (List.append_inj' he rfl).2]
        exact hplain
      · obtain ⟨rest, rfl⟩ := hdst
        rw [List.append_assoc, List.drop_left, ← List.append_assoc] at h
        exact t.plain _ other h
    · exact absurd rfl h
    · exact t.plain r other h

theorem node_put (x : Node α) (hdir hfree hplain) (r : TreePath) :
    (t.put p name x hdir hfree hplain).node r = if r = p ++ [name] then some x else t.node r := rfl

theorem node_remove (hp : p ≠ []) (r : TreePath) :
    (t.remove p hp).node r = if p <+: r then none else t.node r := rfl

theorem node_move (src : TreePath) (hdir hout hfree hplain) (r : TreePath) :
    (t.move src p name hdir hout hfree hplain).node r =
      if p ++ [name] <+: r then t.node (src ++ r.drop (p ++ [name]).length)
      else if src <+: r then none else t.node r := rfl

/-- Puts something under a name of a directory, where this can be done. -/
def create (p : TreePath) (name : List Char) (x : Node α) : Except String (FileTree α) :=
  if h : t.isDir p = true ∧ t.node (p ++ [name]) = none ∧ Plain name then
    .ok (t.put p name x (t.isDir_iff.mp h.1) h.2.1 h.2.2)
  else .error ("OSError: " ++ text (p ++ [name]))

theorem create_ok {x : Node α} {t t' : FileTree α} (h : t.create p name x = .ok t') :
    ∀ r, t'.node r = if r = p ++ [name] then some x else t.node r := by
  unfold create at h
  split_ifs at h with hcond
  rw [← Except.ok.inj h]
  exact fun r => rfl

theorem exists_create {x : Node α} {t : FileTree α} (hdir : t.node p = some .dir)
    (hfree : t.node (p ++ [name]) = none) (hplain : Plain name) :
    ∃ t', t.create p name x = .ok t' :=
  ⟨_, dif_pos ⟨t.isDir_iff.mpr hdir, hfree, hplain⟩⟩

/-- Takes away what is under a name, where there is something. -/
def clear (p : TreePath) (name : List Char) : FileTree α := t.remove (p ++ [name]) (by simp)

theorem node_clear (p : TreePath) (name : List Char) (r : TreePath) :
    (t.clear p name).node r = if p ++ [name] <+: r then none else t.node r := rfl

/-- The tree of some entries, each in a directory that is there when its turn comes. -/
def ofEntries (entries : List (TreePath × List Char × Node α)) : FileTree α :=
  entries.foldl (fun t entry => (t.create entry.1 entry.2.1 entry.2.2).toOption.getD t) empty

/-! ## Top-down -/

/-- The directories of `os.walk(top)`, a directory before those in it; `order` is the order in
    which a directory is listed. -/
def topDown (order : TreePath → List (List Char) → List (List Char)) : ℕ → TreePath → List TreePath
  | 0, _ => []
  | fuel + 1, p =>
    p :: ((order p (t.entries p)).filter fun name => t.isDir (p ++ [name])).flatMap fun name =>
      topDown order fuel (p ++ [name])

section TopDown

variable {order : TreePath → List (List Char) → List (List Char)} {fuel : ℕ}

theorem prefix_of_mem_topDown (h : q ∈ t.topDown order fuel p) : p <+: q := by
  induction fuel generalizing p with
  | zero => exact nomatch h
  | succ fuel ih =>
    rw [topDown] at h
    rcases List.mem_cons.mp h with rfl | h
    · exact List.prefix_rfl
    · obtain ⟨name, _, hq⟩ := List.mem_flatMap.mp h
      exact (List.prefix_append p [name]).trans (ih hq)

theorem isDir_of_mem_topDown (hp : t.node p = some .dir) (h : q ∈ t.topDown order fuel p) :
    t.node q = some .dir := by
  induction fuel generalizing p with
  | zero => exact nomatch h
  | succ fuel ih =>
    rw [topDown] at h
    rcases List.mem_cons.mp h with rfl | h
    · exact hp
    · obtain ⟨name, hname, hq⟩ := List.mem_flatMap.mp h
      exact ih (t.isDir_iff.mp (List.mem_filter.mp hname).2) hq

/-- With room for the height, every directory is walked through. -/
theorem mem_topDown (horder : ∀ p names, (order p names).Perm names) (hq : t.node q = some .dir)
    (hpre : p <+: q) (hfuel : t.height + 1 ≤ fuel + p.length) : q ∈ t.topDown order fuel p := by
  have hthere : t.node q ≠ none := by
    rw [hq]
    exact Option.some_ne_none _
  have hle := t.length_le_height hthere
  induction fuel generalizing p with
  | zero =>
    have hlen := hpre.length_le
    omega
  | succ fuel ih =>
    rw [topDown]
    obtain ⟨rest, rfl⟩ := hpre
    cases rest with
    | nil =>
      rw [List.append_nil]
      exact List.mem_cons_self
    | cons name rest =>
      have hpre : p ++ [name] <+: p ++ name :: rest := ⟨rest, by simp⟩
      have hdir : t.node (p ++ [name]) = some .dir := by
        by_cases he : p ++ [name] = p ++ name :: rest
        · rw [he, hq]
        · exact t.node_of_prefix hpre he hthere
      refine List.mem_cons_of_mem _ (List.mem_flatMap.mpr ⟨name, List.mem_filter.mpr ⟨?_, ?_⟩, ?_⟩)
      · rw [(horder _ _).mem_iff, mem_entries, hdir]
        exact Option.some_ne_none _
      · exact t.isDir_iff.mpr hdir
      · apply ih hpre
        rw [List.length_append, List.length_singleton]
        omega

theorem nodup_topDown (horder : ∀ p names, (order p names).Perm names) :
    (t.topDown order fuel p).Nodup := by
  induction fuel generalizing p with
  | zero => exact List.nodup_nil
  | succ fuel ih =>
    rw [topDown, List.nodup_cons, List.nodup_flatMap]
    refine ⟨fun hmem => ?_, fun _ _ => ih, ?_⟩
    · obtain ⟨name, _, hp⟩ := List.mem_flatMap.mp hmem
      have hlen := (t.prefix_of_mem_topDown hp).length_le
      rw [List.length_append, List.length_singleton] at hlen
      omega
    · have hnodup := ((horder p _).nodup_iff.mpr (t.nodup_entries p)).filter
        fun name => t.isDir (p ++ [name])
      refine hnodup.imp fun {a b} hab => ?_
      apply List.disjoint_left.mpr
      intro q hq hq'
      have hpre := List.prefix_of_prefix_length_le (t.prefix_of_mem_topDown hq)
        (t.prefix_of_mem_topDown hq') (by simp)
      exact hab (List.singleton_inj.mp (List.append_inj' (hpre.eq_of_length (by simp)) rfl).2)

/-- A directory comes after the one it is in. -/
theorem topDown_parent (h : q ++ [name] ∈ t.topDown order fuel p) (hne : q ++ [name] ≠ p) :
    List.Sublist [q, q ++ [name]] (t.topDown order fuel p) := by
  induction fuel generalizing p with
  | zero => exact nomatch h
  | succ fuel ih =>
    rw [topDown] at h ⊢
    obtain ⟨first, hfirst, hmem⟩ := List.mem_flatMap.mp ((List.mem_cons.mp h).resolve_left hne)
    have hbelow : List.Sublist (t.topDown order fuel (p ++ [first]))
        (((order p (t.entries p)).filter fun name => t.isDir (p ++ [name])).flatMap fun name =>
          t.topDown order fuel (p ++ [name])) := by
      obtain ⟨before, after, heq⟩ := List.append_of_mem hfirst
      rw [heq, List.flatMap_append, List.flatMap_cons]
      exact (List.sublist_append_left _ _).trans (List.sublist_append_right _ _)
    by_cases he : q ++ [name] = p ++ [first]
    · rw [(List.append_inj' he rfl).1] at hmem ⊢
      exact (List.singleton_sublist.mpr (hbelow.subset hmem)).cons_cons p
    · exact (ih hmem he).trans (hbelow.trans (List.sublist_cons_self _ _))

end TopDown

/-! ## System calls, where no link is met -/

/-- One component of a path, from a directory. -/
def enter (cwd : TreePath) (part : List Char) : Option TreePath :=
  if ¬ t.isDir cwd then none
  else if part = dot then some cwd
  else if part = dotdot then some cwd.dropLast
  else some (cwd ++ [part])

/-- `os.path.lexists` -/
def lexists (cwd : TreePath) (parts : List (List Char)) : Bool :=
  (parts.foldlM t.enter cwd).any fun q => (t.node q).isSome

/-- `os.makedirs` with `exist_ok=True`, and the directory that its path leads to. What is missing
    is made on the way, also before a `..`. -/
def makeDirs (t : FileTree α) (cwd : TreePath) :
    List (List Char) → Except String (FileTree α × TreePath)
  | [] => .ok (t, cwd)
  | part :: parts =>
    if hdir : ¬ t.isDir cwd then .error ("NotADirectoryError: " ++ text cwd)
    else if hdot : part = dot then t.makeDirs cwd parts
    else if hdotdot : part = dotdot then t.makeDirs cwd.dropLast parts
    else if hfree : t.node (cwd ++ [part]) = none then
      (t.put cwd part .dir (t.isDir_iff.mp (not_not.mp hdir)) hfree
        (plain_of_ne hdot hdotdot)).makeDirs (cwd ++ [part]) parts
    else if t.isDir (cwd ++ [part]) then t.makeDirs (cwd ++ [part]) parts
    else .error ("FileExistsError: " ++ text (cwd ++ [part]))

/-- `os.rename`, to a name in a directory. A file takes the place of a file, and a directory that
    of an empty directory. -/
def rename (src p : TreePath) (name : List Char) : Except String (FileTree α) :=
  if hdir : ¬ t.isDir p then .error ("NotADirectoryError: " ++ text p)
  else if hplain : ¬ Plain name then .error ("OSError: " ++ text (p ++ [name]))
  else if t.node src = none then .error ("FileNotFoundError: " ++ text src)
  else if hout : src <+: p then .error ("OSError: " ++ text src)
  else if p ++ [name] = src then .ok t
  else if hfree : t.node (p ++ [name]) = none then
    .ok (t.move src p name (t.isDir_iff.mp (not_not.mp hdir)) hout hfree (not_not.mp hplain))
  else if t.isDir src ≠ t.isDir (p ++ [name]) ∨
      t.isDir src = true ∧ t.entries (p ++ [name]) ≠ [] then
    .error ("OSError: " ++ text (p ++ [name]))
  else
    .ok ((t.remove (p ++ [name]) (by simp)).move src p name (by
      have hself : ¬ p ++ [name] <+: p := fun h => absurd h.length_le (by simp)
      exact (if_neg hself).trans (t.isDir_iff.mp (not_not.mp hdir)))
      hout (if_pos List.prefix_rfl) (not_not.mp hplain))

theorem lexists_iff {cwd : TreePath} {parts : List (List Char)} (hcwd : t.node cwd = some .dir)
    (hparts : ∀ part ∈ parts, Plain part) :
    t.lexists cwd parts = true ↔ t.node (cwd ++ parts) ≠ none := by
  unfold lexists
  induction parts generalizing cwd with
  | nil =>
    rw [List.append_nil, hcwd]
    exact iff_of_true (by simp [hcwd]) (Option.some_ne_none _)
  | cons part parts ih =>
    obtain ⟨hpart, hrest⟩ := List.forall_mem_cons.mp hparts
    have henter : t.enter cwd part = some (cwd ++ [part]) := by
      unfold enter
      rw [if_neg (not_not.mpr (t.isDir_iff.mpr hcwd)), if_neg hpart.1, if_neg hpart.2]
    rw [List.foldlM_cons, henter, Option.bind_eq_bind, Option.bind_some,
      List.append_cons cwd part parts]
    by_cases hdir : t.node (cwd ++ [part]) = some .dir
    · exact ih hdir hrest
    · cases parts with
      | nil => simp [Option.isSome_iff_ne_none]
      | cons next parts =>
        have hnone : t.enter (cwd ++ [part]) next = none :=
          if_pos fun h => hdir (t.isDir_iff.mp h)
        rw [List.foldlM_cons, hnone]
        refine iff_of_false Bool.false_ne_true fun hthere => hdir ?_
        exact t.node_of_prefix (List.prefix_append _ _) (by simp) hthere

section Made

variable {cwd cwd' : TreePath} {parts : List (List Char)} {t t' : FileTree α}

/-- Where no component is a dot, the directories above the path are made, and no more. -/
theorem makeDirs_plain (hcwd : t.node cwd = some .dir) (hparts : ∀ part ∈ parts, Plain part)
    (h : t.makeDirs cwd parts = .ok (t', cwd')) :
    cwd' = cwd ++ parts ∧ t'.node cwd' = some .dir ∧ ∀ r,
      (t.node r ≠ none → t'.node r = t.node r) ∧
      (t.node r = none → t'.node r = if r <+: cwd ++ parts then some .dir else none) := by
  induction parts generalizing t cwd with
  | nil =>
    obtain ⟨rfl, rfl⟩ := Prod.mk.inj (Except.ok.inj h)
    rw [List.append_nil]
    refine ⟨rfl, hcwd, fun r => ⟨fun _ => rfl, fun hnone => ?_⟩⟩
    rw [hnone, if_neg]
    intro hr
    rw [t.eq_none_of_prefix hr hnone] at hcwd
    exact absurd hcwd (Option.some_ne_none _).symm
  | cons part parts ih =>
    obtain ⟨hpart, hrest⟩ := List.forall_mem_cons.mp hparts
    rw [makeDirs] at h
    rw [List.append_cons cwd part parts]
    split_ifs at h with hdir hdot hdotdot hfree hthere
    · exact absurd hdot hpart.1
    · exact absurd hdotdot hpart.2
    · obtain ⟨rfl, hnode, heq⟩ := ih (by rw [node_put, if_pos rfl]) hrest h
      refine ⟨rfl, hnode, fun r => ?_⟩
      have hput := heq r
      rw [node_put] at hput
      by_cases hr : r = cwd ++ [part]
      · rw [if_pos hr] at hput
        have hmade : t'.node r = some .dir := hput.1 (Option.some_ne_none _)
        rw [hr] at hmade ⊢
        exact ⟨fun hthere => absurd hfree hthere, fun _ => by
          rw [hmade, if_pos (List.prefix_append _ _)]⟩
      · rwa [if_neg hr] at hput
    · exact ih (t.isDir_iff.mp hthere) hrest h

/-- What is made on the way is no heavier than the path, where its parts weigh one. -/
theorem makeDirs_weight (weight : List Char → ℕ) (hparts : ∀ part ∈ parts, weight part = 1)
    (h : t.makeDirs cwd parts = .ok (t', cwd')) :
    (cwd'.map weight).sum ≤ (cwd.map weight).sum + parts.length ∧
      ∀ r, t'.node r ≠ none →
        t.node r ≠ none ∨ (r.map weight).sum ≤ (cwd.map weight).sum + parts.length := by
  induction parts generalizing t cwd with
  | nil =>
    obtain ⟨rfl, rfl⟩ := Prod.mk.inj (Except.ok.inj h)
    exact ⟨le_rfl, fun r hr => .inl hr⟩
  | cons part parts ih =>
    obtain ⟨hpart, hrest⟩ := List.forall_mem_cons.mp hparts
    have hsum : ((cwd ++ [part]).map weight).sum = (cwd.map weight).sum + 1 := by
      rw [List.map_append, List.sum_append, List.map_singleton, List.sum_singleton, hpart]
    rw [List.length_cons]
    rw [makeDirs] at h
    split_ifs at h with hdir hdot hdotdot hfree hthere
    · obtain ⟨hle, hall⟩ := ih hrest h
      exact ⟨by omega, fun r hr => (hall r hr).imp_right fun hw => by omega⟩
    · obtain ⟨hle, hall⟩ := ih hrest h
      have hshorter : (cwd.dropLast.map weight).sum ≤ (cwd.map weight).sum :=
        ((List.dropLast_sublist cwd).map weight).sum_le_sum fun _ _ => Nat.zero_le _
      exact ⟨by omega, fun r hr => (hall r hr).imp_right fun hw => by omega⟩
    · obtain ⟨hle, hall⟩ := ih hrest h
      refine ⟨by omega, fun r hr => ?_⟩
      rcases hall r hr with hput | hw
      · rw [node_put] at hput
        split_ifs at hput with he
        · rw [he, hsum]
          exact .inr (by omega)
        · exact .inl hput
      · exact .inr (by omega)
    · obtain ⟨hle, hall⟩ := ih hrest h
      exact ⟨by omega, fun r hr => (hall r hr).imp_right fun hw => by omega⟩

end Made

section Renamed

variable {src : TreePath} {t t' : FileTree α}

/-- An entry of a renamed tree was there, or is below the new name. -/
theorem node_of_rename (h : t.rename src p name = .ok t') (hr : t'.node r ≠ none) :
    t.node r ≠ none ∨ ∃ rest, r = p ++ [name] ++ rest ∧ t.node (src ++ rest) ≠ none := by
  have hmove (u : FileTree α) (hu : ∀ q, u.node q ≠ none → t.node q ≠ none) (hdir hout hfree hplain)
      (hr : (u.move src p name hdir hout hfree hplain).node r ≠ none) :
      t.node r ≠ none ∨ ∃ rest, r = p ++ [name] ++ rest ∧ t.node (src ++ rest) ≠ none := by
    rw [node_move] at hr
    split_ifs at hr with hdst hsrc
    · obtain ⟨rest, rfl⟩ := hdst
      rw [List.drop_left] at hr
      exact .inr ⟨rest, rfl, hu _ hr⟩
    · exact absurd rfl hr
    · exact .inl (hu r hr)
  unfold rename at h
  split_ifs at h with hdir hplain hgone hout hsame hfree hkind
  · exact .inl (Except.ok.inj h ▸ hr)
  · exact hmove t (fun q hq => hq) _ _ _ _ (Except.ok.inj h ▸ hr)
  · refine hmove _ (fun q hq => ?_) _ _ _ _ (Except.ok.inj h ▸ hr)
    rw [node_remove] at hq
    split_ifs at hq with hbelow
    · exact absurd rfl hq
    · exact hq

theorem there_of_rename (h : t.rename src p name = .ok t') : t.node src ≠ none := by
  unfold rename at h
  split_ifs at h with hdir hplain hgone
  all_goals exact hgone

/-- A rename to a name that is free moves. -/
theorem rename_free (h : t.rename src p name = .ok t') (hfree : t.node (p ++ [name]) = none) :
    t.node src ≠ none ∧ ∀ r, t'.node r =
      if p ++ [name] <+: r then t.node (src ++ r.drop (p ++ [name]).length)
      else if src <+: r then none else t.node r := by
  unfold rename at h
  split_ifs at h with hdir hplain hgone hout hsame
  · rw [hsame] at hfree
    exact absurd hfree hgone
  · rw [← Except.ok.inj h]
    exact ⟨hgone, fun r => rfl⟩

end Renamed

end FileTree

end BuckosDistro.Lib
