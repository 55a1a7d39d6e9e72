/-
  Links of a bundle (`tools/rpm_bundle.py`, `relocate_symlinks`).

  The bundle is a directory of the host's tree. What its links meant when it was mounted is what a
  process finds that has it as its root; what they mean afterwards is what the host finds. A link
  is rewritten by the text of its target, so it keeps its meaning where the text agrees with the
  walk (`Straight`), and a walk through several such links does too (`goto_relocated`).
-/
import BuckosDistro.Lib.Lists
import BuckosDistro.Lib.Paths
import BuckosDistro.Lib.Raise

namespace BuckosDistro.Payload

open BuckosDistro.Lib TreePath Links

variable {γ : Type}

/-! ## The functions -/

/-- `inside` -/
def inside (root path : TreePath) : Bool := root.isPrefixOf path

/-- The entries of `os.walk(root, followlinks=False)`, with their directories. -/
def walked (order : TreePath → List (List Char) → List (List Char)) (t : LinkTree γ)
    (root : TreePath) : List (TreePath × List Char) :=
  (t.topDown order (t.height + 1) root).flatMap fun p =>
    (order p (t.entries p)).map fun name => (p, name)

/-- The target that a link in a directory is given. -/
def relocatedTarget (root p : TreePath) (target : List Char) : List Char :=
  if isAbsolute target then joined (relpath (normpath (root ++ targetParts target)) p) else target

/-- An absolute link is unlinked and made again. -/
def relink (t : LinkTree γ) (p : TreePath) (name target target' : List Char) :
    Except String (LinkTree γ) :=
  if isAbsolute target then (t.clear p name).create p name (.leaf (.link target')) else .ok t

/-- The body of the first loop. No directory is made or taken away, so that the walk is that of the
    tree as it was. -/
def relocateEntry (root : TreePath) (t : LinkTree γ) (entry : TreePath × List Char) :
    Except String (LinkTree γ) :=
  let (p, name) := entry
  match t.node (p ++ [name]) with
  | some (.leaf (.link target)) => do
    let target' := relocatedTarget root p target
    let t ← relink t p name target target'
    if inside root (normpath (p ++ targetParts target')) then .ok t
    else .error ("ValueError: symlink escapes payload: " ++ text (p ++ [name]) ++ " -> " ++
      String.ofList target')
  | _ => .ok t

/-- The body of the second loop. What is said of a loop is up to the version of `Path.resolve`. -/
def checkEntry (loop : TreePath → Except String Unit) (root : TreePath) (t : LinkTree γ)
    (entry : TreePath × List Char) : Except String Unit :=
  let path := entry.1 ++ [entry.2]
  match t.node path with
  | some (.leaf (.link _)) =>
    match realpath t path with
    | none => loop path
    | some place =>
      if inside root place then .ok ()
      else .error ("ValueError: symlink chain escapes payload: " ++ text path)
  | _ => .ok ()

/-- `relocate_symlinks` -/
def relocateSymlinks (order : TreePath → List (List Char) → List (List Char))
    (loop : TreePath → Except String Unit) (root : TreePath) (t : LinkTree γ) :
    Except String (LinkTree γ) := do
  let t ← (walked order t root).foldlM (relocateEntry root) t
  (walked order t root).forM (checkEntry loop root t)
  pure t

/-! ## What is kept -/

/-- Links end inside, and refer to the entries they did from the mounted root. -/
structure Keeps (t t' : LinkTree γ) (root : TreePath) : Prop where
  ends : ∀ p name target, root <+: p → t'.node (p ++ [name]) = some (.leaf (.link target)) →
    (∀ place, realpath t' (p ++ [name]) = some place → root <+: place) ∧
    ∀ found, resolve t' [] maxLinks p [name] = some found → root <+: found.place
  refers : ∀ p name target, root <+: p → t.node (p ++ [name]) = some (.leaf (.link target)) →
    (resolve t' [] maxLinks p [name]).map Found.place =
      (resolve t root maxLinks p [name]).map Found.place

/-- A path does not go up from the root. -/
def Grounded (t : LinkTree γ) (root : TreePath) (limit : ℕ) (cwd : TreePath)
    (parts : List (List Char)) : Prop :=
  ∀ before after, parts = before ++ dotdot :: after →
    ∀ place left, goto t root limit cwd before = some (place, left) → place ≠ root

/-- The links whose meaning is kept: what the text of an absolute target cancels is a directory;
    and a relative one does not go up from the root. -/
structure Straight (t : LinkTree γ) (root : TreePath) : Prop where
  absolute : ∀ p name target, root <+: p → t.node (p ++ [name]) = some (.leaf (.link target)) →
    isAbsolute target = true → Upright t root maxLinks (targetParts target)
  relative : ∀ p name target, root <+: p → t.node (p ++ [name]) = some (.leaf (.link target)) →
    isAbsolute target = false → Grounded t root maxLinks p (targetParts target)

/-! ## The first loop -/

/-- An entry after its turn. -/
def relocatedNode (root p : TreePath) : Node (Leaf γ) → Node (Leaf γ)
  | .leaf (.link target) => .leaf (.link (relocatedTarget root p target))
  | x => x

/-- A tree after the turns of some entries. -/
def RelocatedAt (t t' : LinkTree γ) (root : TreePath) (done : TreePath × List Char → Prop) : Prop :=
  ∀ p name, (done (p, name) → t'.node (p ++ [name]) =
      (t.node (p ++ [name])).map (relocatedNode root p)) ∧
    (¬ done (p, name) → t'.node (p ++ [name]) = t.node (p ++ [name]))

section First

variable {order : TreePath → List (List Char) → List (List Char)} {t t' : LinkTree γ}
  {root p : TreePath} {name : List Char}

theorem relocateEntry_ok {entry : TreePath × List Char}
    (h : relocateEntry root t entry = .ok t') :
    t'.node (entry.1 ++ [entry.2]) =
      (t.node (entry.1 ++ [entry.2])).map (relocatedNode root entry.1) ∧
    ∀ r, r ≠ entry.1 ++ [entry.2] → t'.node r = t.node r := by
  obtain ⟨p, name⟩ := entry
  unfold relocateEntry at h
  dsimp only at h ⊢
  split at h
  next target hlink =>
    obtain ⟨t₁, ht₁, h⟩ := Raise.bind_ok.mp h
    split_ifs at h with hinside
    obtain rfl := Except.ok.inj h
    rw [hlink, Option.map_some]
    unfold relink at ht₁
    split_ifs at ht₁ with habsolute
    · have hnode := FileTree.create_ok ht₁
      refine ⟨by rw [hnode, if_pos rfl]; rfl, fun r hr => ?_⟩
      rw [hnode, if_neg hr, FileTree.node_clear]
      split_ifs with hbelow
      · symm
        by_contra hthere
        have hdir := t.node_of_prefix hbelow hr.symm hthere
        rw [hlink] at hdir
        exact nomatch hdir
      · rfl
    · obtain rfl := Except.ok.inj ht₁
      refine ⟨?_, fun _ _ => rfl⟩
      show _ = some (Node.leaf (Leaf.link (relocatedTarget root p target)))
      unfold relocatedTarget
      rw [hlink, if_neg habsolute]
  next hnot =>
    obtain rfl := Except.ok.inj h
    refine ⟨?_, fun _ _ => rfl⟩
    match hnode : t.node (p ++ [name]), hnot with
    | none, _ => rfl
    | some .dir, _ => rfl
    | some (.leaf (.file _)), _ => rfl
    | some (.leaf (.link target)), hnot => exact absurd rfl (hnot target)

theorem mem_walked (horder : ∀ p names, (order p names).Perm names) :
    (p, name) ∈ walked order t root →
      root <+: p ∧ t.node (p ++ [name]) ≠ none := by
  intro h
  obtain ⟨q, hq, h⟩ := List.mem_flatMap.mp h
  obtain ⟨other, hother, he⟩ := List.mem_map.mp h
  obtain ⟨rfl, rfl⟩ := Prod.mk.inj he
  exact ⟨t.prefix_of_mem_topDown hq, t.mem_entries.mp ((horder _ _).mem_iff.mp hother)⟩

theorem walked_of_there (horder : ∀ p names, (order p names).Perm names) (hpre : root <+: p)
    (h : t.node (p ++ [name]) ≠ none) : (p, name) ∈ walked order t root := by
  have hp : p ∈ t.topDown order (t.height + 1) root :=
    t.mem_topDown horder (t.closed p name h) hpre (Nat.le_add_right _ _)
  exact List.mem_flatMap.mpr ⟨p, hp, List.mem_map.mpr
    ⟨name, (horder _ _).mem_iff.mpr (t.mem_entries.mpr h), rfl⟩⟩

theorem nodup_walked (horder : ∀ p names, (order p names).Perm names) (t : LinkTree γ)
    (root : TreePath) : (walked order t root).Nodup := by
  unfold walked
  rw [List.nodup_flatMap]
  refine ⟨fun p _ => ?_, ?_⟩
  · apply ((horder p _).nodup_iff.mpr (t.nodup_entries p)).map
    exact fun a b he => (Prod.mk.inj he).2
  · apply (t.nodup_topDown horder).imp
    intro a b hab
    apply List.disjoint_left.mpr
    intro e ha hb
    obtain ⟨_, _, rfl⟩ := List.mem_map.mp ha
    obtain ⟨_, _, he⟩ := List.mem_map.mp hb
    exact hab (Prod.mk.inj he).1.symm

/-- Every part of the loop relocates the entries whose turn it was. -/
theorem relocated_of_run {done rest : List (TreePath × List Char)}
    (hnodup : (done ++ rest).Nodup) (h : done.foldlM (relocateEntry root) t = .ok t') :
    RelocatedAt t t' root (· ∈ done) := by
  induction done using List.reverseRecOn generalizing rest t' with
  | nil =>
    obtain rfl := Except.ok.inj h
    exact fun p name => ⟨fun hmem => (nomatch hmem), fun _ => rfl⟩
  | append_singleton done entry ih =>
    rw [List.foldlM_append] at h
    obtain ⟨t₁, hdone, h⟩ := Raise.bind_ok.mp h
    rw [List.foldlM_cons] at h
    obtain ⟨t₂, hentry, h⟩ := Raise.bind_ok.mp h
    obtain rfl := Except.ok.inj h
    rw [List.append_assoc] at hnodup
    have hold := ih hnodup hdone
    obtain ⟨hat, helse⟩ := relocateEntry_ok hentry
    have hnew : entry ∉ done := fun hmem =>
      List.disjoint_left.mp (List.nodup_append'.mp hnodup).2.2 hmem
        (List.mem_append_left _ (List.mem_singleton_self _))
    intro p name
    by_cases he : (p, name) = entry
    · obtain rfl := he
      refine ⟨fun _ => ?_, fun hnot => ?_⟩
      · rw [hat, (hold p name).2 hnew]
      · exact absurd (List.mem_append_right _ (List.mem_singleton_self _)) hnot
    · have hne : p ++ [name] ≠ entry.1 ++ [entry.2] := by
        intro hpath
        obtain ⟨hp, hname⟩ := List.append_inj' hpath rfl
        exact he (Prod.ext hp (List.singleton_inj.mp hname))
      have hmem : (p, name) ∈ done ++ [entry] ↔ (p, name) ∈ done := by
        rw [List.mem_append, List.mem_singleton, or_iff_left he]
      rw [helse _ hne]
      exact ⟨fun h => (hold p name).1 (hmem.mp h),
        fun h => (hold p name).2 fun h' => h (hmem.mpr h')⟩

/-- The first loop relocates the links below the root. -/
theorem relocated_of_walk (horder : ∀ p names, (order p names).Perm names)
    (h : (walked order t root).foldlM (relocateEntry root) t = .ok t') :
    RelocatedAt t t' root fun entry => root <+: entry.1 := by
  have hrun : RelocatedAt t t' root (· ∈ walked order t root) := by
    refine @relocated_of_run _ t t' root _ [] ?_ h
    rw [List.append_nil]
    exact nodup_walked horder t root
  intro p name
  refine ⟨fun hpre => ?_, fun hnot => (hrun p name).2 fun hmem => hnot (mem_walked horder hmem).1⟩
  by_cases hthere : t.node (p ++ [name]) = none
  · rw [(hrun p name).2 fun hmem => (mem_walked horder hmem).2 hthere, hthere]
    rfl
  · exact (hrun p name).1 (walked_of_there horder hpre hthere)

end First

/-! ## Walks -/

section Walk

variable {t t' : LinkTree γ} {root cwd : TreePath} {parts : List (List Char)}

theorem Grounded.mono {fuel limit : ℕ} (h : Grounded t root limit cwd parts) (hle : fuel ≤ limit) :
    Grounded t root fuel cwd parts := by
  obtain ⟨k, rfl⟩ := Nat.exists_eq_add_of_le hle
  exact fun before after he place left hplace => h before after he place _ (goto_mono hplace k)

/-- What comes after a part of a path that leads somewhere. -/
theorem Grounded.rest {fuel left : ℕ} {place : TreePath} {first : List (List Char)}
    (h : Grounded t root fuel cwd (first ++ parts))
    (hfirst : goto t root fuel cwd first = some (place, left)) :
    Grounded t root left place parts := by
  intro before after he place' left' hplace'
  apply h (first ++ before) after (by rw [he, List.append_assoc]) place' left'
  rw [goto_append, hfirst, Option.bind_some]
  exact hplace'

theorem grounded_of_plain {fuel : ℕ} (h : ∀ part ∈ parts, Plain part) :
    Grounded t root fuel cwd parts := by
  intro before after he
  have hplain := h dotdot (by rw [he]; exact List.mem_append_right _ List.mem_cons_self)
  exact absurd rfl hplain.2

theorem RelocatedAt.dir_iff {done : TreePath × List Char → Prop} (h : RelocatedAt t t' root done)
    (p : TreePath) : t'.node p = some .dir ↔ t.node p = some .dir := by
  obtain rfl | ⟨init, name, rfl⟩ := List.eq_nil_or_concat' p
  · rw [t.root, t'.root]
  · by_cases hdone : done (init, name)
    · rw [(h init name).1 hdone]
      rcases t.node (init ++ [name]) with _ | _ | _ | target
      · exact Iff.rfl
      · exact Iff.rfl
      · exact Iff.rfl
      · exact iff_of_false (fun he => nomatch he) fun he => nomatch he
    · rw [(h init name).2 hdone]

/-- A link that is rewritten leads the host where its target led from the root. -/
theorem goto_relocatedTarget {fuel : ℕ} {target : List Char} (hfuel : fuel ≤ maxLinks)
    (hroot : t.node root = some .dir) (hcwd : t'.node cwd = some .dir) (hpre : root <+: cwd)
    (habsolute : isAbsolute target = true) (hup : Upright t root maxLinks (targetParts target))
    (hwalk : ∀ rest, (∀ part ∈ rest, Plain part) →
      goto t' [] fuel root rest = goto t root fuel root rest) :
    isAbsolute (relocatedTarget root cwd target) = false ∧
      goto t' [] fuel cwd (targetParts (relocatedTarget root cwd target)) =
        goto t root fuel root (targetParts target) := by
  obtain ⟨rest, htext, hmem, hgoto⟩ := goto_lexical hfuel hup
  have hplain : ∀ part ∈ root, Plain part := fun part hpart =>
    t.plain_of_mem (by rw [hroot]; exact Option.some_ne_none _) hpart
  have htarget : relocatedTarget root cwd target = joined (relpath (root ++ rest) cwd) := by
    unfold relocatedTarget
    rw [if_pos habsolute, normpath_append hplain, htext]
  obtain ⟨hne, hwritten⟩ := written_of_mem_relpath hpre fun part hpart =>
    written_of_mem_targetParts (hmem part hpart).1
  rw [htarget, targetParts_joined hne hwritten]
  refine ⟨not_isAbsolute_joined hne hwritten, ?_⟩
  rw [goto_relpath hcwd hpre, hwalk rest fun part hpart => (hmem part hpart).2, hgoto]

/-- A walk that does not go up from the root leads the host where it led from there. -/
theorem goto_relocated (hrelocated : RelocatedAt t t' root fun entry => root <+: entry.1)
    (hroot : t.node root = some .dir) (hstraight : Straight t root) {fuel : ℕ}
    (hfuel : fuel ≤ maxLinks) (hcwd : root <+: cwd)
    (hgrounded : Grounded t root fuel cwd parts) :
    goto t' [] fuel cwd parts = goto t root fuel cwd parts := by
  -- by the links that may be met, and then by the components
  induction fuel using Nat.strong_induction_on generalizing cwd parts with
  | _ fuel ihfuel =>
    induction parts generalizing cwd with
    | nil => rw [goto_nil, goto_nil]
    | cons part rest ih =>
      rw [goto_cons, goto_cons]
      have hisDir : t'.isDir cwd = t.isDir cwd := by
        rw [Bool.eq_iff_iff, FileTree.isDir_iff, FileTree.isDir_iff]
        exact hrelocated.dir_iff cwd
      rw [hisDir]
      by_cases hdir : t.isDir cwd
      · have hnode : t.node cwd = some .dir := t.isDir_iff.mp hdir
        rw [if_neg (not_not.mpr hdir), if_neg (not_not.mpr hdir)]
        have hone {place : TreePath} (hplace : goto t root fuel cwd [part] = some (place, fuel)) :
            Grounded t root fuel place rest :=
          Grounded.rest hgrounded hplace
        by_cases hdot : part = dot
        · rw [if_pos hdot, if_pos hdot]
          apply ih hcwd (hone ?_)
          rw [hdot]
          exact goto_dot hnode
        rw [if_neg hdot, if_neg hdot]
        by_cases hdotdot : part = dotdot
        · have hne : cwd ≠ root := hgrounded [] rest (by rw [hdotdot]; rfl) cwd fuel goto_nil
          have hup : upFrom root cwd = cwd.dropLast := if_neg hne
          have hup' : upFrom [] cwd = cwd.dropLast := by
            unfold upFrom
            split_ifs with he
            · rw [he]
              rfl
            · rfl
          rw [if_pos hdotdot, if_pos hdotdot, hup, hup']
          apply ih ?_ (hone ?_)
          · obtain rfl | ⟨init, last, rfl⟩ := List.eq_nil_or_concat' cwd
            · exact hcwd
            · rw [List.dropLast_concat]
              exact (List.prefix_concat_iff.mp hcwd).resolve_left hne.symm
          · rw [hdotdot, goto_dotdot hnode, hup]
        rw [if_neg hdotdot, if_neg hdotdot, (hrelocated cwd part).1 hcwd]
        have hthrough (x : Node (Leaf γ)) (hx : t.node (cwd ++ [part]) = some x)
            (hlink : ∀ target, x ≠ .leaf (.link target)) :
            goto t' [] fuel (cwd ++ [part]) rest = goto t root fuel (cwd ++ [part]) rest := by
          apply ih (hcwd.trans (List.prefix_append _ _)) (hone ?_)
          rw [goto_cons, if_neg (not_not.mpr hdir), if_neg hdot, if_neg hdotdot, hx]
          match x, hlink with
          | .dir, _ => exact goto_nil
          | .leaf (.file _), _ => exact goto_nil
          | .leaf (.link target), hlink => exact absurd rfl (hlink target)
        match hx : t.node (cwd ++ [part]) with
        | none => rfl
        | some .dir => exact hthrough _ hx fun _ he => nomatch he
        | some (.leaf (.file _)) => exact hthrough _ hx fun _ he => nomatch he
        | some (.leaf (.link target)) =>
          show gotoFollowing t' [] fuel _ _ = gotoFollowing t root fuel _ _
          cases fuel with
          | zero => rfl
          | succ fuel =>
            have hlt : fuel < fuel + 1 := Nat.lt_succ_self fuel
            have hfuel' : fuel ≤ maxLinks := by omega
            -- the target leads both to the same place
            have htarget : goto t' [] fuel
                (if isAbsolute (relocatedTarget root cwd target) then [] else cwd)
                (targetParts (relocatedTarget root cwd target)) =
                goto t root fuel (if isAbsolute target then root else cwd)
                  (targetParts target) := by
              cases habsolute : isAbsolute target with
              | true =>
                obtain ⟨hrelative, hgoto⟩ := goto_relocatedTarget hfuel' hroot
                  ((hrelocated.dir_iff cwd).mpr hnode) hcwd habsolute
                  (hstraight.absolute cwd part target hcwd hx habsolute)
                  fun rest hrest =>
                    ihfuel fuel hlt hfuel' List.prefix_rfl (grounded_of_plain hrest)
                rw [hrelative, if_neg Bool.false_ne_true, hgoto, if_pos rfl]
              | false =>
                have hsame : relocatedTarget root cwd target = target := by
                  unfold relocatedTarget
                  rw [habsolute, if_neg Bool.false_ne_true]
                rw [hsame, habsolute, if_neg Bool.false_ne_true]
                apply ihfuel fuel hlt hfuel' hcwd
                exact (hstraight.relative cwd part target hcwd hx habsolute).mono hfuel'
            show goto t' [] fuel _ _ = goto t root fuel _ _
            rw [goto_append, goto_append, htarget]
            cases hplace : goto t root fuel (if isAbsolute target then root else cwd)
                (targetParts target) with
            | none => rfl
            | some found =>
              obtain ⟨place, left⟩ := found
              have hleft := goto_left_le hplace
              have hstart : root <+: if isAbsolute target then root else cwd := by
                split_ifs
                · exact List.prefix_rfl
                · exact hcwd
              rw [Option.bind_some, Option.bind_some]
              apply ihfuel left (by omega) (by omega) (goto_below hplace hstart)
              refine @Grounded.rest _ _ _ _ _ _ _ _ [part] hgrounded ?_
              rw [goto_cons, if_neg (not_not.mpr hdir), if_neg hdot, if_neg hdotdot, hx]
              show goto t root fuel _ (targetParts target ++ []) = _
              rw [List.append_nil, hplace]
      · rw [if_pos hdir, if_pos hdir]

end Walk

/-! ## The whole -/

section Whole

variable {order : TreePath → List (List Char) → List (List Char)}
  {loop : TreePath → Except String Unit} {t t' : LinkTree γ} {root p : TreePath}
  {name : List Char}

theorem map_place (t : LinkTree γ) (root : TreePath) (cwd : TreePath) (parts : List (List Char)) :
    (resolve t root maxLinks cwd parts).map Found.place =
      (goto t root maxLinks cwd parts).map Prod.fst := by
  unfold goto
  rw [Option.map_map]
  rfl

/-- The second loop has found every link inside. -/
theorem inside_of_checked {place : TreePath} {entries : List (TreePath × List Char)}
    {written : List Char} (h : entries.forM (checkEntry loop root t) = .ok ())
    (hmem : (p, name) ∈ entries) (hlink : t.node (p ++ [name]) = some (.leaf (.link written)))
    (hplace : realpath t (p ++ [name]) = some place) : root <+: place := by
  induction entries with
  | nil => exact nomatch hmem
  | cons entry entries ih =>
    have hcons : (checkEntry loop root t entry >>= fun _ => entries.forM (checkEntry loop root t)) =
        .ok () := h
    obtain ⟨_, hentry, h⟩ := Raise.bind_ok.mp hcons
    rcases List.mem_cons.mp hmem with rfl | hmem
    · unfold checkEntry at hentry
      dsimp only at hentry
      rw [hlink] at hentry
      dsimp only at hentry
      rw [hplace] at hentry
      dsimp only at hentry
      split_ifs at hentry with hinside
      exact List.isPrefixOf_iff_prefix.mp hinside
    · exact ih h hmem

/-- Where the text of the targets agrees with the walk, the links of a payload that is accepted
    end inside, and refer to the entries they did. -/
theorem relocateSymlinks_keeps (horder : ∀ p names, (order p names).Perm names)
    (hroot : t.node root = some .dir) (hstraight : Straight t root)
    (h : relocateSymlinks order loop root t = .ok t') : Keeps t t' root := by
  obtain ⟨t₁, hfirst, h⟩ := Raise.bind_ok.mp h
  obtain ⟨_, hsecond, h⟩ := Raise.bind_ok.mp h
  obtain rfl := Except.ok.inj h
  have hrelocated := relocated_of_walk horder hfirst
  have hrefers (p : TreePath) (name : List Char) (hpre : root <+: p)
      (hthere : t.node (p ++ [name]) ≠ none) :
      (resolve t₁ [] maxLinks p [name]).map Found.place =
        (resolve t root maxLinks p [name]).map Found.place := by
    rw [map_place, map_place, goto_relocated hrelocated hroot hstraight le_rfl hpre]
    apply grounded_of_plain
    intro part hpart
    rw [List.mem_singleton.mp hpart]
    exact t.plain p name hthere
  refine ⟨fun p name target hpre hlink => ⟨fun place hplace => ?_, fun found hfound => ?_⟩,
    fun p name target hpre hlink => ?_⟩
  · have hthere : t₁.node (p ++ [name]) ≠ none := by
      rw [hlink]
      exact Option.some_ne_none _
    exact inside_of_checked hsecond (walked_of_there horder hpre hthere) hlink hplace
  · have hthere : t.node (p ++ [name]) ≠ none := by
      intro hnone
      rw [(hrelocated p name).1 hpre, hnone] at hlink
      exact nomatch hlink
    have hsame := hrefers p name hpre hthere
    rw [hfound, Option.map_some] at hsame
    obtain ⟨found', hfound', hplace⟩ := Option.map_eq_some_iff.mp hsame.symm
    rw [← hplace]
    exact (below_of_resolve hfound' hpre).1
  · apply hrefers p name hpre
    rw [hlink]
    exact Option.some_ne_none _

end Whole

section Examples

/-- A payload whose link is absolute. -/
def absoluteBundle : LinkTree ℕ :=
  .ofEntries [([], "out".toList, .dir), (["out".toList], "lib".toList, .dir),
    (["out".toList, "lib".toList], "libvendor.a".toList, .leaf (.file 0)),
    (["out".toList], "libalias.a".toList, .leaf (.link "/lib/libvendor.a".toList))]

theorem straight_absoluteBundle : Straight absoluteBundle ["out".toList] := by
  have honly (r : TreePath) (target : List Char)
      (h : absoluteBundle.node r = some (.leaf (.link target))) :
      target = "/lib/libvendor.a".toList := by
    have hnode : absoluteBundle.node r =
        if r = ["out".toList, "libalias.a".toList] then
          some (.leaf (.link "/lib/libvendor.a".toList))
        else if r = ["out".toList, "lib".toList, "libvendor.a".toList] then some (.leaf (.file 0))
        else if r = ["out".toList, "lib".toList] then some .dir
        else if r = ["out".toList] then some .dir
        else if r = [] then some .dir else none := rfl
    rw [hnode] at h
    split_ifs at h
    · exact (Leaf.link.inj (Node.leaf.inj (Option.some.inj h))).symm
    all_goals exact nomatch h
  have hparts : targetParts "/lib/libvendor.a".toList = ["lib".toList, "libvendor.a".toList] := rfl
  have hnot (part : List Char) (hpart : part = dot ∨ part = dotdot)
      (before after : List (List Char))
      (h : targetParts "/lib/libvendor.a".toList = before ++ part :: after) : False := by
    have hmem : part ∈ ["lib".toList, "libvendor.a".toList] := by
      rw [← hparts, h]
      exact List.mem_append_right _ List.mem_cons_self
    rcases hpart with rfl | rfl
    · exact absurd hmem (by decide)
    · exact absurd hmem (by decide)
  refine ⟨fun p name target _ h _ => ?_, fun p name target _ h habsolute => ?_⟩
  · rw [honly _ _ h]
    exact ⟨fun before after he => (hnot dotdot (.inr rfl) before after he).elim,
      fun before after he => (hnot dot (.inl rfl) before after he).elim⟩
  · rw [honly _ _ h] at habsolute
    exact absurd habsolute (by decide)

theorem relocateSymlinks_absoluteBundle :
    (relocateSymlinks (fun _ names => names) (fun _ => .ok ()) ["out".toList]
      absoluteBundle).isOk = true ∧
    ∀ t', relocateSymlinks (fun _ names => names) (fun _ => .ok ()) ["out".toList]
      absoluteBundle = .ok t' → Keeps absoluteBundle t' ["out".toList] :=
  ⟨rfl, fun _ h => relocateSymlinks_keeps (fun _ names => .refl names) rfl
    straight_absoluteBundle h⟩

/-- A payload with an absolute link that goes up from where another link leads. -/
def crookedBundle : LinkTree ℕ :=
  .ofEntries [([], "out".toList, .dir), (["out".toList], "f".toList, .leaf (.file 0)),
    (["out".toList], "d".toList, .dir), (["out".toList, "d".toList], "f".toList, .leaf (.file 1)),
    (["out".toList, "d".toList], "e".toList, .dir),
    (["out".toList], "s".toList, .leaf (.link "d/e".toList)),
    (["out".toList], "l".toList, .leaf (.link "/s/../f".toList))]

/-- It refers to another file afterwards. -/
theorem relocateSymlinks_crooked :
    ¬ ∀ (order : TreePath → List (List Char) → List (List Char))
      (loop : TreePath → Except String Unit) (root : TreePath) (t t' : LinkTree ℕ),
      (∀ p names, (order p names).Perm names) → t.node root = some .dir →
      relocateSymlinks order loop root t = .ok t' → Keeps t t' root := by
  intro h
  have hafter : (relocateSymlinks (fun _ names => names) (fun _ => .ok ()) ["out".toList]
      crookedBundle).map (fun t' => (resolve t' [] maxLinks ["out".toList] ["l".toList]).map
        Found.place) = .ok (some ["out".toList, "f".toList]) := rfl
  have hbefore : (resolve crookedBundle ["out".toList] maxLinks ["out".toList] ["l".toList]).map
      Found.place = some ["out".toList, "d".toList, "f".toList] := rfl
  cases hrun : relocateSymlinks (fun _ names => names) (fun _ => .ok ()) ["out".toList]
      crookedBundle with
  | error e =>
    rw [hrun] at hafter
    exact nomatch hafter
  | ok t' =>
    have hkeeps := h _ _ _ _ t' (fun _ names => .refl names) rfl hrun
    have hsame := hkeeps.refers ["out".toList] "l".toList "/s/../f".toList List.prefix_rfl rfl
    rw [hrun] at hafter
    have hplace : (resolve t' [] maxLinks ["out".toList] ["l".toList]).map Found.place =
        some ["out".toList, "f".toList] := Except.ok.inj hafter
    rw [hplace, hbefore] at hsame
    exact absurd hsame (by decide)

end Examples

end BuckosDistro.Payload
