/-
  Paths that are rewritten as text, and what they lead to: where the components that are cancelled
  are directories, the text of a path and its walk agree. Nothing here names a program.
-/
import BuckosDistro.Lib.Links
import BuckosDistro.Lib.PyText

namespace BuckosDistro.Lib.Links

open TreePath

variable {γ : Type} {t t' : LinkTree γ} {root : TreePath} {fuel : ℕ} {cwd : TreePath}
  {parts : List (List Char)}

/-! ## Where a path goes -/

/-- Where a path leads, with the links that are left. -/
def goto (t : LinkTree γ) (root : TreePath) (fuel : ℕ) (cwd : TreePath)
    (parts : List (List Char)) : Option (TreePath × ℕ) :=
  (resolve t root fuel cwd parts).map fun found => (found.place, found.left)

@[simp] theorem goto_nil : goto t root fuel cwd [] = some (cwd, fuel) := by
  unfold goto
  rw [resolve_nil]
  rfl

/-- Goes on where a link leads. -/
def gotoFollowing (t : LinkTree γ) (root : TreePath) :
    ℕ → TreePath → List (List Char) → Option (TreePath × ℕ)
  | 0 => fun _ _ => none
  | fuel + 1 => goto t root fuel

theorem map_after (found : Option Found) (trail : List TreePath) :
    (found.map (·.after trail)).map (fun found => (found.place, found.left)) =
      found.map fun found => (found.place, found.left) := by
  rw [Option.map_map]
  rfl

/-- One component further. -/
theorem goto_cons (part : List Char) (rest : List (List Char)) :
    goto t root fuel cwd (part :: rest) =
      if ¬ t.isDir cwd then none
      else if part = dot then goto t root fuel cwd rest
      else if part = dotdot then goto t root fuel (upFrom root cwd) rest
      else
        match t.node (cwd ++ [part]) with
        | none => none
        | some (.leaf (.link target)) =>
          gotoFollowing t root fuel (if isAbsolute target then root else cwd)
            (targetParts target ++ rest)
        | some _ => goto t root fuel (cwd ++ [part]) rest := by
  unfold goto
  rw [resolve_cons]
  split_ifs with hdir hdot hdotdot
  · rfl
  · rfl
  · rcases t.node (cwd ++ [part]) with _ | _ | _ | target
    · rfl
    · exact map_after _ _
    · exact map_after _ _
    · show Option.map _ (Option.map _ _) = _
      rw [map_after]
      cases fuel with
      | zero => rfl
      | succ fuel => rfl
  · rfl

theorem goto_append (p q : List (List Char)) :
    goto t root fuel cwd (p ++ q) =
      (goto t root fuel cwd p).bind fun (place, left) => goto t root left place q := by
  unfold goto
  rw [resolve_append, Option.map_bind, Option.bind_map]
  apply congrArg
  funext found
  exact map_after _ _

/-- A path leads on through no more links than there were. -/
theorem goto_left_le {place : TreePath} {left : ℕ}
    (h : goto t root fuel cwd parts = some (place, left)) : left ≤ fuel := by
  obtain ⟨found, hfound, he⟩ := Option.map_eq_some_iff.mp h
  obtain ⟨-, rfl⟩ := Prod.mk.inj he
  refine resolve_induction (motive := fun fuel _ _ found => found.left ≤ fuel) ?_ ?_ ?_ ?_ ?_ hfound
  · exact fun _ _ => le_rfl
  · exact fun _ _ _ _ _ ih => ih
  · exact fun _ _ _ _ _ ih => ih
  · exact fun _ _ _ _ _ _ _ _ _ ih => ih
  · intro fuel cwd part rest target found _ _ _ ih
    show found.left ≤ fuel + 1
    omega

theorem goto_below {place : TreePath} {left : ℕ}
    (h : goto t root fuel cwd parts = some (place, left)) (hcwd : root <+: cwd) :
    root <+: place := by
  obtain ⟨found, hfound, he⟩ := Option.map_eq_some_iff.mp h
  obtain ⟨rfl, -⟩ := Prod.mk.inj he
  exact (below_of_resolve hfound hcwd).1

/-- With more links to spare, a path leads to the same place. -/
theorem goto_mono {place : TreePath} {left : ℕ}
    (h : goto t root fuel cwd parts = some (place, left)) (k : ℕ) :
    goto t root (fuel + k) cwd parts = some (place, left + k) := by
  obtain ⟨found, hfound, he⟩ := Option.map_eq_some_iff.mp h
  obtain ⟨rfl, rfl⟩ := Prod.mk.inj he
  refine resolve_induction (motive := fun fuel cwd parts found =>
    goto t root (fuel + k) cwd parts = some (found.place, found.left + k)) ?_ ?_ ?_ ?_ ?_ hfound
  · exact fun _ _ => goto_nil
  · intro fuel cwd rest found hdir ih
    rw [goto_cons, if_neg (not_not.mpr (t.isDir_iff.mpr hdir)), if_pos rfl, ih]
  · intro fuel cwd rest found hdir ih
    rw [goto_cons, if_neg (not_not.mpr (t.isDir_iff.mpr hdir)), if_neg (by decide), if_pos rfl, ih]
  · intro fuel cwd part rest found hdir hplain hthere hlink ih
    rw [goto_cons, if_neg (not_not.mpr (t.isDir_iff.mpr hdir)), if_neg hplain.1, if_neg hplain.2]
    split
    next hnone => exact absurd hnone hthere
    next target hnode => exact absurd hnode (hlink target)
    next => exact ih
  · intro fuel cwd part rest target found hdir hplain hnode ih
    rw [goto_cons, if_neg (not_not.mpr (t.isDir_iff.mpr hdir)), if_neg hplain.1, if_neg hplain.2,
      hnode, Nat.add_right_comm]
    exact ih

/-- A path of directories leads down them. -/
theorem goto_dirs {rest : List (List Char)} (h : t.node (cwd ++ rest) = some .dir) :
    goto t root fuel cwd rest = some (cwd ++ rest, fuel) := by
  induction rest generalizing cwd with
  | nil => rw [goto_nil, List.append_nil]
  | cons name rest ih =>
    have hthere : t.node (cwd ++ name :: rest) ≠ none := by
      rw [h]
      exact Option.some_ne_none _
    have hcwd : t.node cwd = some .dir := t.node_of_prefix (List.prefix_append _ _) (by simp) hthere
    have hplain : Plain name := t.plain_of_mem hthere (by simp)
    rw [List.append_cons] at h
    have hname : t.node (cwd ++ [name]) = some .dir := by
      by_cases hrest : rest = []
      · rw [hrest, List.append_nil] at h
        exact h
      · refine t.node_of_prefix (List.prefix_append _ rest) (by simpa using hrest) ?_
        rw [h]
        exact Option.some_ne_none _
    rw [goto_cons, if_neg (not_not.mpr (t.isDir_iff.mpr hcwd)), if_neg hplain.1, if_neg hplain.2,
      hname]
    dsimp only
    rw [ih h, List.append_assoc, List.singleton_append]

/-! ## Paths as text -/

/-- One component of a path that is taken as text. -/
def push (p : TreePath) (part : List Char) : TreePath :=
  if part = dot then p
  else if part = dotdot then p.dropLast
  else p ++ [part]

/-- `os.path.normpath` of an absolute path. -/
def normpath (parts : List (List Char)) : TreePath := parts.foldl push []

/-- How many components two paths have in common. -/
def common : TreePath → TreePath → ℕ
  | a :: p, b :: q => if a = b then common p q + 1 else 0
  | _, _ => 0

/-- `os.path.relpath` of two absolute paths that are normal. -/
def relpath (path start : TreePath) : List (List Char) :=
  let parts := List.replicate (start.length - common start path) dotdot ++
    path.drop (common start path)
  if parts = [] then [dot] else parts

/-- A path as text. -/
def joined (parts : List (List Char)) : List Char := ['/'].intercalate parts

/-- A component that can be written. -/
def Written (part : List Char) : Prop := part ≠ [] ∧ '/' ∉ part

theorem targetParts_joined (hne : parts ≠ []) (h : ∀ part ∈ parts, Written part) :
    targetParts (joined parts) = parts := by
  unfold targetParts joined
  rw [List.splitOn_intercalate '/' (fun part hpart => (h part hpart).2) hne,
    List.getLast?_eq_some_getLast hne, if_neg, List.append_nil, List.filter_eq_self]
  · exact fun part hpart => decide_eq_true (h part hpart).1
  · intro he
    exact (h _ (List.getLast_mem hne)).1 (Option.some.inj he)

theorem not_isAbsolute_joined (hne : parts ≠ []) (h : ∀ part ∈ parts, Written part) :
    isAbsolute (joined parts) = false := by
  obtain ⟨first, rest, rfl⟩ := List.exists_cons_of_ne_nil hne
  obtain ⟨hfirst, hslash⟩ := h first List.mem_cons_self
  obtain ⟨c, cs, rfl⟩ := List.exists_cons_of_ne_nil hfirst
  have hc : c ≠ '/' := fun he => hslash (he ▸ List.mem_cons_self)
  unfold isAbsolute joined
  cases rest with
  | nil => simp [List.intercalate_singleton, hc]
  | cons next rest => simp [List.intercalate_cons_cons, hc]

theorem written_of_mem_targetParts {target part : List Char} (h : part ∈ targetParts target) :
    Written part := by
  unfold targetParts at h
  rcases List.mem_append.mp h with h | h
  · obtain ⟨hmem, hne⟩ := List.mem_filter.mp h
    exact ⟨of_decide_eq_true hne, PyText.notMem_of_mem_splitOn hmem⟩
  · split_ifs at h
    · rw [List.mem_singleton.mp h]
      exact ⟨by decide, by decide⟩
    · exact nomatch h

theorem take_common (p q : TreePath) : p.take (common p q) = q.take (common p q) := by
  induction p generalizing q with
  | nil =>
    unfold common
    rw [List.take_zero, List.take_zero]
  | cons a p ih =>
    cases q with
    | nil =>
      unfold common
      rw [List.take_zero, List.take_zero]
    | cons b q =>
      unfold common
      split_ifs with he
      · rw [List.take_succ_cons, List.take_succ_cons, he, ih]
      · rw [List.take_zero, List.take_zero]

theorem common_le (p q : TreePath) : common p q ≤ p.length := by
  induction p generalizing q with
  | nil =>
    unfold common
    exact Nat.zero_le _
  | cons a p ih =>
    cases q with
    | nil =>
      unfold common
      exact Nat.zero_le _
    | cons b q =>
      unfold common
      split_ifs
      · exact Nat.succ_le_succ (ih q)
      · exact Nat.zero_le _

theorem le_common {p q r : TreePath} (hp : r <+: p) (hq : r <+: q) : r.length ≤ common p q := by
  induction r generalizing p q with
  | nil => exact Nat.zero_le _
  | cons a r ih =>
    obtain ⟨p', rfl⟩ := hp
    obtain ⟨q', rfl⟩ := hq
    rw [List.cons_append, List.cons_append]
    unfold common
    rw [if_pos rfl]
    exact Nat.succ_le_succ (ih (List.prefix_append _ _) (List.prefix_append _ _))

theorem goto_dot (hcwd : t.node cwd = some .dir) :
    goto t root fuel cwd [dot] = some (cwd, fuel) := by
  rw [goto_cons, if_neg (not_not.mpr (t.isDir_iff.mpr hcwd)), if_pos rfl, goto_nil]

theorem goto_dotdot (hcwd : t.node cwd = some .dir) :
    goto t root fuel cwd [dotdot] = some (upFrom root cwd, fuel) := by
  rw [goto_cons, if_neg (not_not.mpr (t.isDir_iff.mpr hcwd)), if_neg (by decide), if_pos rfl,
    goto_nil]

/-- The way up from a directory. -/
theorem goto_up {k : ℕ} (hcwd : t.node cwd = some .dir) (hk : k ≤ cwd.length) :
    goto t [] fuel cwd (List.replicate k dotdot) = some (cwd.take (cwd.length - k), fuel) := by
  induction k with
  | zero => rw [List.replicate_zero, goto_nil, Nat.sub_zero, List.take_length]
  | succ k ih =>
    rw [List.replicate_succ', goto_append, ih (by omega), Option.bind_some]
    have hdir : t.node (cwd.take (cwd.length - k)) = some .dir := by
      by_cases hall : cwd.take (cwd.length - k) = cwd
      · rw [hall, hcwd]
      · apply t.node_of_prefix (List.take_prefix _ _) hall
        rw [hcwd]
        exact Option.some_ne_none _
    show goto t [] fuel (cwd.take (cwd.length - k)) [dotdot] = _
    rw [goto_dotdot hdir]
    have hup (p : TreePath) : upFrom [] p = p.dropLast := by
      unfold upFrom
      split_ifs with he
      · rw [he]
        rfl
      · rfl
    have hsub : cwd.length - k - 1 = cwd.length - (k + 1) := by omega
    rw [hup, List.dropLast_eq_take, List.take_take, List.length_take, Nat.min_eq_left (by omega),
      Nat.min_eq_left (by omega), hsub]

/-- A relative path to a place below a directory leads as the place does from there. -/
theorem goto_relpath {rest : List (List Char)} (hcwd : t.node cwd = some .dir)
    (hroot : root <+: cwd) :
    goto t [] fuel cwd (relpath (root ++ rest) cwd) = goto t [] fuel root rest := by
  have htake := take_common cwd (root ++ rest)
  have hle := common_le cwd (root ++ rest)
  have hge : root.length ≤ common cwd (root ++ rest) := le_common hroot (List.prefix_append _ _)
  generalize hi : common cwd (root ++ rest) = i at *
  have hdir : t.node (cwd.take i) = some .dir := by
    by_cases hall : cwd.take i = cwd
    · rw [hall, hcwd]
    · apply t.node_of_prefix (List.take_prefix _ _) hall
      rw [hcwd]
      exact Option.some_ne_none _
  have hbelow : cwd.take i = root ++ rest.take (i - root.length) := by
    rw [htake, List.take_append, List.take_of_length_le hge]
  have hdrop : (root ++ rest).drop i = rest.drop (i - root.length) := by
    rw [List.drop_append, List.drop_of_length_le hge, List.nil_append]
  have hparts :
      goto t [] fuel cwd (List.replicate (cwd.length - i) dotdot ++ (root ++ rest).drop i) =
      goto t [] fuel root rest := by
    have hup : cwd.length - (cwd.length - i) = i := by omega
    rw [goto_append, goto_up hcwd (Nat.sub_le _ _), Option.bind_some, hup, hdrop]
    have hmid : goto t [] fuel root (rest.take (i - root.length)) = some (cwd.take i, fuel) := by
      rw [hbelow] at hdir ⊢
      exact goto_dirs hdir
    calc goto t [] fuel (cwd.take i) (rest.drop (i - root.length))
        = goto t [] fuel root (rest.take (i - root.length) ++ rest.drop (i - root.length)) := by
          rw [goto_append, hmid, Option.bind_some]
      _ = goto t [] fuel root rest := by rw [List.take_append_drop]
  unfold relpath
  rw [hi]
  dsimp only
  split_ifs with hnil
  · rw [goto_dot hcwd, ← hparts, hnil, goto_nil]
  · exact hparts

/-! ## Text that agrees with the walk -/

/-- What the text of a path cancels is a directory: below the root, before `..`; and where the
    path leads, before `.`. -/
structure Upright (t : LinkTree γ) (root : TreePath) (limit : ℕ) (parts : List (List Char)) :
    Prop where
  up : ∀ before after, parts = before ++ dotdot :: after →
    t.node (before.foldl push root) = some .dir ∧ before.foldl push root ≠ root
  here : ∀ before after, parts = before ++ dot :: after →
    ∀ place left, goto t root limit root before = some (place, left) → t.node place = some .dir

theorem Upright.init {limit : ℕ} {part : List Char} (h : Upright t root limit (parts ++ [part])) :
    Upright t root limit parts where
  up before after he := h.up before (after ++ [part]) (by rw [he, List.append_assoc]; rfl)
  here before after he := h.here before (after ++ [part]) (by rw [he, List.append_assoc]; rfl)

/-- An upright path leads from the root where its text does. -/
theorem goto_lexical {limit : ℕ} (hfuel : fuel ≤ limit) (h : Upright t root limit parts) :
    ∃ rest, parts.foldl push root = root ++ rest ∧ (∀ part ∈ rest, part ∈ parts ∧ Plain part) ∧
      goto t root fuel root parts = goto t root fuel root rest := by
  induction parts using List.reverseRecOn with
  | nil => exact ⟨[], (List.append_nil root).symm, fun _ hpart => (nomatch hpart), rfl⟩
  | append_singleton parts part ih =>
    obtain ⟨rest, htext, hmem, hgoto⟩ := ih h.init
    have hmem' : ∀ part' ∈ rest, part' ∈ parts ++ [part] ∧ Plain part' := fun part' hpart' =>
      ⟨List.mem_append_left _ (hmem part' hpart').1, (hmem part' hpart').2⟩
    rw [List.foldl_append, List.foldl_cons, List.foldl_nil, htext, goto_append, hgoto]
    unfold push
    split_ifs with hdot hdotdot
    · refine ⟨rest, rfl, hmem', ?_⟩
      cases hplace : goto t root fuel root rest with
      | none => rfl
      | some found =>
        obtain ⟨place, left⟩ := found
        obtain ⟨k, rfl⟩ := Nat.exists_eq_add_of_le hfuel
        have hdir : t.node place = some .dir :=
          h.here parts [] (by rw [hdot]) place _ (goto_mono (hgoto.trans hplace) k)
        rw [Option.bind_some, hdot]
        exact goto_dot hdir
    · obtain ⟨hdir, hne⟩ := h.up parts [] (by rw [hdotdot])
      rw [htext] at hdir hne
      obtain rfl | ⟨init, last, rfl⟩ := List.eq_nil_or_concat' rest
      · exact absurd (List.append_nil root) hne
      · rw [← List.append_assoc] at hdir hne
        have hup : t.node (root ++ init) = some .dir := by
          apply t.closed _ last
          rw [hdir]
          exact Option.some_ne_none _
        refine ⟨init, ?_, fun part' hpart' => hmem' part' (List.mem_append_left _ hpart'), ?_⟩
        · rw [← List.append_assoc, List.dropLast_concat]
        · rw [goto_dirs (by rwa [← List.append_assoc]), goto_dirs hup, Option.bind_some, hdotdot,
            ← List.append_assoc]
          show goto t root fuel (root ++ init ++ [last]) [dotdot] = _
          rw [goto_dotdot hdir]
          unfold upFrom
          rw [if_neg hne, List.dropLast_concat]
    · refine ⟨rest ++ [part], ?_, fun part' hpart' => ?_, ?_⟩
      · rw [List.append_assoc]
      · rcases List.mem_append.mp hpart' with hpart' | hpart'
        · exact hmem' part' hpart'
        · rw [List.mem_singleton.mp hpart']
          exact ⟨List.mem_append_right _ (List.mem_singleton_self _), hdot, hdotdot⟩
      · rw [goto_append]

theorem normpath_append {p : TreePath} (hp : ∀ part ∈ p, Plain part) (parts : List (List Char)) :
    normpath (p ++ parts) = parts.foldl push p := by
  have hself : p.foldl push [] = p := by
    induction p using List.reverseRecOn with
    | nil => rfl
    | append_singleton p part ih =>
      obtain ⟨hdot, hdotdot⟩ := hp part (List.mem_append_right _ (List.mem_singleton_self _))
      rw [List.foldl_append, ih fun other hother => hp other (List.mem_append_left _ hother),
        List.foldl_cons, List.foldl_nil]
      unfold push
      rw [if_neg hdot, if_neg hdotdot]
  unfold normpath
  rw [List.foldl_append, hself]

theorem written_of_mem_relpath {rest : List (List Char)} (hroot : root <+: cwd)
    (hrest : ∀ part ∈ rest, Written part) :
    relpath (root ++ rest) cwd ≠ [] ∧ ∀ part ∈ relpath (root ++ rest) cwd, Written part := by
  have hge : root.length ≤ common cwd (root ++ rest) := le_common hroot (List.prefix_append _ _)
  unfold relpath
  dsimp only
  split_ifs with hnil
  · refine ⟨List.cons_ne_nil _ _, fun part hpart => ?_⟩
    rw [List.mem_singleton.mp hpart]
    exact ⟨by decide, by decide⟩
  · refine ⟨hnil, fun part hpart => ?_⟩
    rcases List.mem_append.mp hpart with hpart | hpart
    · rw [List.eq_of_mem_replicate hpart]
      exact ⟨by decide, by decide⟩
    · rw [List.drop_append, List.drop_of_length_le hge, List.nil_append] at hpart
      exact hrest part (List.mem_of_mem_drop hpart)

/-! ## Paths that are read without asking for directories -/

/-- The components of a path, where `follow` reads a link. -/
def realpathFrom (t : LinkTree γ)
    (follow : TreePath → TreePath → List (List Char) → Option TreePath) :
    TreePath → List (List Char) → Option TreePath
  | cwd, [] => some cwd
  | cwd, part :: rest =>
    if part = dot then realpathFrom t follow cwd rest
    else if part = dotdot then realpathFrom t follow cwd.dropLast rest
    else
      match t.node (cwd ++ [part]) with
      | some (.leaf (.link target)) =>
        match follow (cwd ++ [part]) (if isAbsolute target then [] else cwd)
          (targetParts target) with
        | none => none
        | some place => realpathFrom t follow place rest
      | _ => realpathFrom t follow (cwd ++ [part]) rest

/-- `os.path.realpath`; a link that is met while it is read is a loop. -/
def realpathSeen (t : LinkTree γ) :
    ℕ → List TreePath → TreePath → List (List Char) → Option TreePath
  | 0, _ => fun _ _ => none
  | fuel + 1, seen => realpathFrom t fun link cwd parts =>
    if link ∈ seen then none else realpathSeen t fuel (link :: seen) cwd parts

/-- No more links can be met than there are entries. -/
def realpath (t : LinkTree γ) (p : TreePath) : Option TreePath :=
  realpathSeen t (t.paths.length + 1) [] [] p

end BuckosDistro.Lib.Links
