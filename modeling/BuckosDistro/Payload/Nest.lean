/-
  Payload names with a backslash (`tools/_rpm.py`, `nest_unrepresentable`).

  A name is split at its backslashes, and the entry moved to the path of the parts, bottom-up.
  The state of a run is a tree, in which every original entry is tracked to where it is now
  (`Tracks`): a move keeps what a path says when its names are split. The directories' modes and
  the report of the moves are left out.
-/
import BuckosDistro.Lib.FileTree
import BuckosDistro.Lib.Lines
import BuckosDistro.Lib.Raise

namespace BuckosDistro.Payload

open BuckosDistro.Lib TreePath

variable {α : Type}

/-! ## The function -/

/-- How a run ends that does not return: it raises, or the recursion has not come to its end. -/
inductive Stop where
  | raised (text : String)
  | exhausted

/-- The body of the loop over the names of a directory. -/
def splitEntry (top : TreePath) (t : FileTree α) (name : List Char) : Except String (FileTree α) :=
  if '\\' ∉ name then .ok t
  else
    let parts := name.splitOn '\\'
    if [] ∈ parts then
      .error (text (top ++ [name]) ++ ": cannot split a name with an empty component")
    else if t.lexists top parts then
      .error (text (top ++ [name]) ++ ": splitting it collides with the existing " ++
        text (top ++ parts))
    else do
      let (t, parent) ← t.makeDirs top parts.dropLast
      t.rename (top ++ [name]) parent (parts.getLastD [])

/-- The loop over `os.walk(dest, topdown=False)`, from a directory down; `order` is the order in
    which a directory is listed. -/
def walk (order : TreePath → List (List Char) → List (List Char)) :
    ℕ → FileTree α → TreePath → Except Stop (FileTree α)
  | 0, _, _ => .error .exhausted
  | fuel + 1, t, top => do
    let names := order top (t.entries top)
    let dirs := names.filter fun name => t.isDir (top ++ [name])
    let files := names.filter fun name => !t.isDir (top ++ [name])
    let t ← dirs.foldlM (fun t name => walk order fuel t (top ++ [name])) t
    (dirs ++ files).foldlM (fun t name => (splitEntry top t name).mapError Stop.raised) t

/-- A path with each backslash read as a separator. -/
def splitPath (p : TreePath) : TreePath := p.flatMap fun name => name.splitOn '\\'

/-- How deep a tree can get. -/
def depth (t : FileTree α) : ℕ := (t.paths.map fun p => (splitPath p).length).foldr max 0

/-- `nest_unrepresentable` -/
def nestUnrepresentable (order : TreePath → List (List Char) → List (List Char))
    (t : FileTree α) (dest : TreePath) : Except Stop (FileTree α) :=
  walk order (depth t + 1) t dest

/-! ## What the tree becomes -/

/-- The files below `dest` are the original ones, with the backslashes of their paths read as
    separators; no two originals come to one path, and no empty directory is lost. -/
structure Lossless (t t' : FileTree α) (dest : TreePath) : Prop where
  files : ∀ rel a, t'.node (dest ++ rel) = some (.leaf a) ↔
    ∃ orig, t.node (dest ++ orig) = some (.leaf a) ∧ splitPath orig = rel
  apart : ∀ orig orig', t.node (dest ++ orig) ≠ none → t.node (dest ++ orig') ≠ none →
    splitPath orig = splitPath orig' → orig = orig'
  empty : ∀ orig, t.node (dest ++ orig) = some .dir →
    (∀ name, t.node (dest ++ orig ++ [name]) = none) →
    t'.node (dest ++ splitPath orig) = some .dir
  plain : ∀ rel, t'.node (dest ++ rel) ≠ none → ∀ name ∈ rel, '\\' ∉ name

/-- No name has `.` or `..` between its backslashes. -/
def Undotted (t : FileTree α) (dest : TreePath) : Prop :=
  ∀ rel, t.node (dest ++ rel) ≠ none → ∀ part ∈ splitPath rel, Plain part

/-! ## Paths that are split -/

section Split

variable {name part : List Char} {p q : TreePath}

theorem notMem_part (h : part ∈ name.splitOn '\\') : '\\' ∉ part := PyText.notMem_of_mem_splitOn h

theorem splitOn_ne_nil (name : List Char) : name.splitOn '\\' ≠ [] :=
  List.splitOnP_ne_nil (· == '\\') name

theorem splitPath_append (p q : TreePath) : splitPath (p ++ q) = splitPath p ++ splitPath q :=
  List.flatMap_append

theorem splitPath_plain (h : ∀ name ∈ p, '\\' ∉ name) : splitPath p = p := by
  induction p with
  | nil => rfl
  | cons name p ih =>
    obtain ⟨hname, hp⟩ := List.forall_mem_cons.mp h
    unfold splitPath at ih ⊢
    rw [List.flatMap_cons, Lines.splitOn_of_notMem hname, ih hp, List.singleton_append]

theorem splitPath_parts (name : List Char) :
    splitPath (name.splitOn '\\') = name.splitOn '\\' :=
  splitPath_plain fun _ => notMem_part

/-- What a name adds to a path that is split. -/
def weight (name : List Char) : ℕ := (name.splitOn '\\').length

theorem weight_pos (name : List Char) : 1 ≤ weight name :=
  List.length_pos_iff.mpr (splitOn_ne_nil name)

theorem weight_part (h : part ∈ name.splitOn '\\') : weight part = 1 := by
  unfold weight
  rw [Lines.splitOn_of_notMem (notMem_part h)]
  rfl

theorem length_splitPath (p : TreePath) : (splitPath p).length = (p.map weight).sum :=
  List.length_flatMap

theorem length_le_weight (p : TreePath) : p.length ≤ (p.map weight).sum := by
  induction p with
  | nil => exact le_rfl
  | cons name p ih =>
    have hname := weight_pos name
    rw [List.length_cons, List.map_cons, List.sum_cons]
    omega

/-- A name with a backslash is none of its parts, so that the paths lie apart. -/
theorem not_prefix_of_backslash {top rest : TreePath} (hname : '\\' ∈ name)
    (hrest : ∀ part ∈ rest, '\\' ∉ part) : ¬ top ++ [name] <+: top ++ rest := by
  intro h
  obtain ⟨tail, htail⟩ := (List.prefix_append_right_inj top).mp h
  exact hrest name (htail ▸ List.mem_cons_self) hname

end Split

/-! ## One entry -/

/-- A tree after an entry was moved, with the directories on the way to its place. -/
structure Moved (t t' : FileTree α) (src dst : TreePath) : Prop where
  there : t.node src ≠ none
  free : t.node dst = none
  above : ∀ r, r <+: dst → t.node r ≠ none → t.node r = some .dir
  below : ∀ rest, t'.node (dst ++ rest) = t.node (src ++ rest)
  gone : ∀ rest, t'.node (src ++ rest) = none
  made : ∀ r, r <+: dst → r ≠ dst → t'.node r = some .dir
  kept : ∀ r, ¬ dst <+: r → ¬ src <+: r → ¬ r <+: dst → t'.node r = t.node r

/-- Where its parts are plain, an entry moves to the path they make. -/
theorem moved_of_splitEntry {t t' : FileTree α} {top : TreePath} {name : List Char}
    (htop : t.node top = some .dir) (hname : '\\' ∈ name)
    (hplain : ∀ part ∈ name.splitOn '\\', Plain part) (h : splitEntry top t name = .ok t') :
    Moved t t' (top ++ [name]) (top ++ name.splitOn '\\') := by
  unfold splitEntry at h
  rw [if_neg (not_not.mpr hname)] at h
  dsimp only at h
  split_ifs at h with hempty hthere
  have hfree : t.node (top ++ name.splitOn '\\') = none := by
    by_contra hne
    exact hthere ((t.lexists_iff htop hplain).mpr hne)
  obtain ⟨⟨t₁, parent⟩, hmade, hrename⟩ := Raise.bind_ok.mp h
  have hparts : (name.splitOn '\\').dropLast ++ [(name.splitOn '\\').getLastD []] =
      name.splitOn '\\' := by
    have hlast := List.dropLast_append_getLast (splitOn_ne_nil name)
    rwa [List.getLastD_eq_getLast?, List.getLast?_eq_some_getLast (splitOn_ne_nil name)]
  have hinit : ∀ part ∈ (name.splitOn '\\').dropLast, part ∈ name.splitOn '\\' :=
    fun part hpart => List.mem_of_mem_dropLast hpart
  obtain ⟨rfl, hparent, hnode⟩ :=
    FileTree.makeDirs_plain htop (fun part hpart => hplain part (hinit part hpart)) hmade
  have hdst' : top ++ (name.splitOn '\\').dropLast ++ [(name.splitOn '\\').getLastD []] =
      top ++ name.splitOn '\\' := by
    rw [List.append_assoc, hparts]
  have hsrc (rest : TreePath) :
      t₁.node (top ++ [name] ++ rest) = t.node (top ++ [name] ++ rest) := by
    by_cases hnone : t.node (top ++ [name] ++ rest) = none
    · rw [hnone, (hnode _).2 hnone, if_neg]
      intro hpre
      exact not_prefix_of_backslash hname (fun part hpart => notMem_part (hinit part hpart))
        ((List.prefix_append _ rest).trans hpre)
    · exact (hnode _).1 hnone
  have hfree₁ : t₁.node (top ++ name.splitOn '\\') = none := by
    rw [(hnode _).2 hfree, if_neg]
    intro hpre
    have hlen := hpre.length_le
    rw [← hdst', List.length_append] at hlen
    exact absurd hlen (by simp)
  obtain ⟨hgone, hmoved⟩ := FileTree.rename_free hrename (hdst' ▸ hfree₁)
  rw [hdst'] at hmoved
  have habove (r : TreePath) (hr : r <+: top ++ name.splitOn '\\')
      (hne : r ≠ top ++ name.splitOn '\\') :
      r <+: top ++ (name.splitOn '\\').dropLast := by
    rw [← hdst'] at hr hne
    exact (List.prefix_concat_iff.mp hr).resolve_left hne
  have hdir (r : TreePath) (hr : r <+: top ++ (name.splitOn '\\').dropLast) :
      t₁.node r = some .dir := by
    by_cases he : r = top ++ (name.splitOn '\\').dropLast
    · rw [he]
      exact hparent
    · exact t₁.node_of_prefix hr he (by rw [hparent]; exact Option.some_ne_none _)
  have hapart (r : TreePath) (hr : r <+: top ++ name.splitOn '\\') : ¬ top ++ [name] <+: r :=
    fun hpre => not_prefix_of_backslash hname (fun _ => notMem_part) (hpre.trans hr)
  refine ⟨?_, hfree, fun r hr hthere => ?_, fun rest => ?_, fun rest => ?_, fun r hr hne => ?_,
    fun r hdst hsrc' hnot => ?_⟩
  · have h0 := hsrc []
    rw [List.append_nil] at h0
    rwa [← h0]
  · have hne : r ≠ top ++ name.splitOn '\\' := by
      rintro rfl
      exact hthere hfree
    rw [← (hnode r).1 hthere]
    exact hdir r (habove r hr hne)
  · rw [hmoved, if_pos (List.prefix_append _ _), List.drop_left, hsrc]
  · rw [hmoved, if_neg, if_pos (List.prefix_append _ _)]
    intro hpre
    rcases List.prefix_or_prefix_of_prefix hpre (List.prefix_append (top ++ [name]) rest) with
      hpre | hpre
    · obtain he | hlt := List.prefix_concat_iff.mp hpre
      · exact hapart _ List.prefix_rfl (he ▸ List.prefix_rfl)
      · have hlen := hlt.length_le
        rw [List.length_append] at hlen
        have hpos := List.length_pos_iff.mpr (splitOn_ne_nil name)
        omega
    · exact hapart _ List.prefix_rfl hpre
  · rw [hmoved, if_neg, if_neg (hapart r hr)]
    · exact hdir r (habove r hr hne)
    · exact fun hpre => hne (hr.eq_of_length (Nat.le_antisymm hr.length_le hpre.length_le))
  · rw [hmoved, if_neg hdst, if_neg hsrc']
    by_cases hnone : t.node r = none
    · rw [hnone, (hnode r).2 hnone, if_neg]
      exact fun hpre => hnot (hpre.trans ⟨[_], hdst'⟩)
    · exact (hnode r).1 hnone

/-! ## Where the entries are -/

/-- Every original entry below `dest` is somewhere, as it was, at a path that says the same, and
    nothing else is there but what is above one. -/
structure Tracks (t₀ t : FileTree α) (dest : TreePath) (loc : TreePath → TreePath) : Prop where
  split : ∀ r, t₀.node (dest ++ r) ≠ none → splitPath (loc r) = splitPath r
  inj : ∀ r r', t₀.node (dest ++ r) ≠ none → t₀.node (dest ++ r') ≠ none → loc r = loc r' → r = r'
  kept : ∀ r, t₀.node (dest ++ r) ≠ none → t.node (dest ++ loc r) = t₀.node (dest ++ r)
  only : ∀ rel, t.node (dest ++ rel) ≠ none → ∃ r, t₀.node (dest ++ r) ≠ none ∧ rel <+: loc r

section Tracking

variable {t₀ t t' : FileTree α} {dest trel parts : TreePath} {loc : TreePath → TreePath}
  {name : List Char}

theorem tracks_self (t₀ : FileTree α) (dest : TreePath) : Tracks t₀ t₀ dest id :=
  ⟨fun _ _ => rfl, fun _ _ _ _ h => h, fun _ _ => rfl, fun rel h => ⟨rel, h, List.prefix_rfl⟩⟩

/-- Where a path is after a move. -/
def reroute (src dst p : TreePath) : TreePath :=
  if src <+: p then dst ++ p.drop src.length else p

theorem reroute_append (src dst rest : TreePath) : reroute src dst (src ++ rest) = dst ++ rest := by
  unfold reroute
  rw [if_pos (List.prefix_append _ _), List.drop_left]

/-- What is above an entry is above where it is after a move, when it is not moved itself. -/
theorem prefix_reroute {rel p : TreePath} (h : rel <+: p) (hrel : ¬ trel ++ [name] <+: rel) :
    rel <+: reroute (trel ++ [name]) (trel ++ parts) p := by
  by_cases hsrc : trel ++ [name] <+: p
  · obtain ⟨rest, rfl⟩ := hsrc
    rw [reroute_append]
    have habove : rel <+: trel ++ [name] :=
      (List.prefix_or_prefix_of_prefix h (List.prefix_append _ rest)).resolve_right hrel
    obtain he | habove := List.prefix_concat_iff.mp habove
    · exact absurd (he ▸ List.prefix_rfl) hrel
    · rw [List.append_assoc]
      exact habove.trans (List.prefix_append _ _)
  · unfold reroute
    rwa [if_neg hsrc]

/-- A move keeps track. -/
theorem Tracks.moved (h : Tracks t₀ t dest loc)
    (hsplit : splitPath (trel ++ [name]) = splitPath (trel ++ parts))
    (hmoved : Moved t t' (dest ++ (trel ++ [name])) (dest ++ (trel ++ parts))) :
    Tracks t₀ t' dest fun r => reroute (trel ++ [name]) (trel ++ parts) (loc r) := by
  have hthere (r : TreePath) (hr : t₀.node (dest ++ r) ≠ none) : t.node (dest ++ loc r) ≠ none := by
    rwa [h.kept r hr]
  have hfree (r : TreePath) (hr : t₀.node (dest ++ r) ≠ none) : ¬ trel ++ parts <+: loc r :=
    fun hpre => hthere r hr (t.eq_none_of_prefix
      ((List.prefix_append_right_inj dest).mpr hpre) hmoved.free)
  refine ⟨fun r hr => ?_, fun r r' hr hr' he => ?_, fun r hr => ?_, fun rel hrel => ?_⟩
  · rw [← h.split r hr]
    by_cases hsrc : trel ++ [name] <+: loc r
    · obtain ⟨rest, hrest⟩ := hsrc
      rw [← hrest, reroute_append, splitPath_append, ← hsplit, ← splitPath_append]
    · unfold reroute
      rw [if_neg hsrc]
  · by_cases hsrc : trel ++ [name] <+: loc r <;> by_cases hsrc' : trel ++ [name] <+: loc r'
    · obtain ⟨rest, hrest⟩ := hsrc
      obtain ⟨rest', hrest'⟩ := hsrc'
      rw [← hrest, ← hrest', reroute_append, reroute_append] at he
      apply h.inj r r' hr hr'
      rw [← hrest, ← hrest', List.append_cancel_left he]
    · obtain ⟨rest, hrest⟩ := hsrc
      unfold reroute at he
      rw [if_neg hsrc', if_pos (hrest ▸ List.prefix_append _ _)] at he
      exact absurd (he ▸ List.prefix_append _ _) (hfree r' hr')
    · obtain ⟨rest, hrest⟩ := hsrc'
      unfold reroute at he
      rw [if_neg hsrc, if_pos (hrest ▸ List.prefix_append _ _)] at he
      exact absurd (he ▸ List.prefix_append _ _) (hfree r hr)
    · unfold reroute at he
      rw [if_neg hsrc, if_neg hsrc'] at he
      exact h.inj r r' hr hr' he
  · by_cases hsrc : trel ++ [name] <+: loc r
    · obtain ⟨rest, hrest⟩ := hsrc
      rw [← h.kept r hr, ← hrest, reroute_append, ← List.append_assoc, hmoved.below,
        List.append_assoc]
    · have hloc : reroute (trel ++ [name]) (trel ++ parts) (loc r) = loc r := if_neg hsrc
      rw [hloc, ← h.kept r hr]
      by_cases habove : loc r <+: trel ++ parts
      · have habove' := (List.prefix_append_right_inj dest).mpr habove
        rw [hmoved.above _ habove' (hthere r hr), hmoved.made _ habove']
        exact fun he => hthere r hr (he ▸ hmoved.free)
      · exact hmoved.kept _ (fun hpre => hfree r hr ((List.prefix_append_right_inj dest).mp hpre))
          (fun hpre => hsrc ((List.prefix_append_right_inj dest).mp hpre))
          (fun hpre => habove ((List.prefix_append_right_inj dest).mp hpre))
  · by_cases hdst : trel ++ parts <+: rel
    · obtain ⟨rest, rfl⟩ := hdst
      rw [← List.append_assoc, hmoved.below, List.append_assoc] at hrel
      obtain ⟨r, hr, tail, htail⟩ := h.only _ hrel
      refine ⟨r, hr, ?_⟩
      rw [← htail, List.append_assoc (trel ++ [name]), reroute_append]
      exact (List.prefix_append_right_inj _).mpr (List.prefix_append rest tail)
    · have hsrc : ¬ trel ++ [name] <+: rel := by
        rintro ⟨rest, rfl⟩
        rw [← List.append_assoc] at hrel
        exact hrel (hmoved.gone rest)
      by_cases habove : rel <+: trel ++ parts
      · obtain ⟨r, hr, tail, htail⟩ := h.only _ hmoved.there
        refine ⟨r, hr, ?_⟩
        rw [← htail, reroute_append]
        exact habove.trans (List.prefix_append _ _)
      · have hsame := hmoved.kept (dest ++ rel)
          (fun hpre => hdst ((List.prefix_append_right_inj dest).mp hpre))
          (fun hpre => hsrc ((List.prefix_append_right_inj dest).mp hpre))
          (fun hpre => habove ((List.prefix_append_right_inj dest).mp hpre))
        rw [hsame] at hrel
        obtain ⟨r, hr, hpre⟩ := h.only rel hrel
        exact ⟨r, hr, prefix_reroute hpre hsrc⟩

/-- A name that is there now says nothing that an original path does not. -/
theorem Tracks.parts_plain (h : Tracks t₀ t dest loc) (hplain : Undotted t₀ dest) {rel : TreePath}
    (hrel : t.node (dest ++ rel) ≠ none) : ∀ part ∈ splitPath rel, Plain part := by
  intro part hpart
  obtain ⟨r, hr, tail, htail⟩ := h.only rel hrel
  refine hplain r hr part ?_
  rw [← h.split r hr, ← htail, splitPath_append]
  exact List.mem_append_left _ hpart

/-- When no backslash is left, the tree is what it should be. -/
theorem Tracks.lossless (h : Tracks t₀ t dest loc)
    (hclean : ∀ rel, t.node (dest ++ rel) ≠ none → ∀ name ∈ rel, '\\' ∉ name) :
    Lossless t₀ t dest := by
  have hloc (r : TreePath) (hr : t₀.node (dest ++ r) ≠ none) : loc r = splitPath r := by
    rw [← h.split r hr, splitPath_plain]
    apply hclean
    rwa [h.kept r hr]
  refine ⟨fun rel a => ⟨fun hleaf => ?_, fun ⟨orig, horig, he⟩ => ?_⟩, fun r r' hr hr' he => ?_,
    fun orig hdir _ => ?_, hclean⟩
  · have hthere : t.node (dest ++ rel) ≠ none := by
      rw [hleaf]
      exact Option.some_ne_none _
    obtain ⟨r, hr, hpre⟩ := h.only rel hthere
    have hrel : rel = loc r := by
      by_contra hne
      have hdir := t.node_of_prefix ((List.prefix_append_right_inj dest).mpr hpre)
        (fun he => hne (List.append_cancel_left he)) (by rwa [h.kept r hr])
      rw [hleaf] at hdir
      exact nomatch hdir
    refine ⟨r, ?_, ?_⟩
    · rw [← h.kept r hr, ← hrel, hleaf]
    · rw [hrel, hloc r hr]
  · have hr : t₀.node (dest ++ orig) ≠ none := by
      rw [horig]
      exact Option.some_ne_none _
    rw [← he, ← hloc orig hr, h.kept orig hr, horig]
  · apply h.inj r r' hr hr'
    rw [hloc r hr, hloc r' hr', he]
  · have hr : t₀.node (dest ++ orig) ≠ none := by
      rw [hdir]
      exact Option.some_ne_none _
    rw [← hloc orig hr, h.kept orig hr, hdir]

end Tracking

/-! ## The walk, where no part is a dot -/

/-- No name with a backslash is below a path. -/
def Clean (t : FileTree α) (p : TreePath) : Prop :=
  ∀ rest, t.node (p ++ rest) ≠ none → ∀ name ∈ rest, '\\' ∉ name

/-- A tree after the walk has been through a directory. -/
structure Visited (t₀ t t' : FileTree α) (dest trel : TreePath) : Prop where
  tracks : ∃ loc, Tracks t₀ t' dest loc
  frame : ∀ r, (dest ++ trel <+: r → r = dest ++ trel) → t'.node r = t.node r
  clean : Clean t' (dest ++ trel)

section Walk

variable {t₀ t t' : FileTree α} {dest : TreePath}

/-- What is below a directory after one of its entries was moved. -/
theorem Moved.cases_below {top parts x : TreePath} {name : List Char}
    (h : Moved t t' (top ++ [name]) (top ++ parts)) (hx : t'.node (top ++ x) ≠ none) :
    (∃ rest, x = parts ++ rest ∧ t.node (top ++ [name] ++ rest) ≠ none) ∨ x <+: parts ∨
      ¬ [name] <+: x ∧ t.node (top ++ x) ≠ none := by
  by_cases hdst : parts <+: x
  · obtain ⟨rest, rfl⟩ := hdst
    rw [← List.append_assoc, h.below] at hx
    exact .inl ⟨rest, rfl, hx⟩
  · by_cases habove : x <+: parts
    · exact .inr (.inl habove)
    · have hsrc : ¬ [name] <+: x := by
        rintro ⟨rest, rfl⟩
        rw [← List.append_assoc] at hx
        exact hx (h.gone rest)
      refine .inr (.inr ⟨hsrc, ?_⟩)
      rwa [← h.kept (top ++ x) (fun hp => hdst ((List.prefix_append_right_inj top).mp hp))
        (fun hp => hsrc ((List.prefix_append_right_inj top).mp hp))
        (fun hp => habove ((List.prefix_append_right_inj top).mp hp))]

/-- Outside of the directory a move changes nothing. -/
theorem Moved.frame {top parts : TreePath} {name : List Char} (hparts : parts ≠ [])
    (h : Moved t t' (top ++ [name]) (top ++ parts)) (r : TreePath)
    (hr : top <+: r → r = top) : t'.node r = t.node r := by
  have htop : t.node top = some .dir := t.closed top name h.there
  have hne : top ≠ top ++ parts := fun he => hparts (List.append_right_eq_self.mp he.symm)
  by_cases he : r = top
  · rw [he, htop]
    exact h.made top (List.prefix_append _ _) hne
  · have hout : ¬ top <+: r := fun hp => he (hr hp)
    by_cases habove : r <+: top ++ parts
    · have hpre : r <+: top := (List.prefix_or_prefix_of_prefix habove
        (List.prefix_append top parts)).resolve_right hout
      have hlt : r ≠ top ++ parts := fun he' => hout (he' ▸ List.prefix_append _ _)
      rw [h.made r habove hlt, t.node_of_prefix hpre he (by rw [htop]; exact Option.some_ne_none _)]
    · exact h.kept r (fun hp => hout ((List.prefix_append _ _).trans hp))
        (fun hp => hout ((List.prefix_append _ _).trans hp)) habove

/-- The loop over the names of a directory, when the names below these are clean. -/
theorem visited_of_splitEntries (trel : TreePath) (names : List (List Char))
    {loc : TreePath → TreePath} (htracks : Tracks t₀ t dest loc)
    (hparts : ∀ name ∈ names, ∀ part ∈ name.splitOn '\\', Plain part)
    (htop : t.node (dest ++ trel) = some .dir)
    (hdeep : ∀ name, Clean t (dest ++ trel ++ [name]))
    (hnames : ∀ name, t.node (dest ++ trel ++ [name]) ≠ none → '\\' ∈ name → name ∈ names)
    (h : names.foldlM (splitEntry (dest ++ trel)) t = .ok t') : Visited t₀ t t' dest trel := by
  induction names generalizing t loc with
  | nil =>
    obtain rfl := Except.ok.inj h
    refine ⟨⟨loc, htracks⟩, fun _ _ => rfl, fun rest hrest name hname => ?_⟩
    cases rest with
    | nil => exact nomatch hname
    | cons first rest =>
      rw [List.append_cons] at hrest
      rcases List.mem_cons.mp hname with rfl | hname
      · intro hslash
        have hthere := t.ne_none_of_prefix (List.prefix_append _ _) hrest
        exact nomatch hnames name hthere hslash
      · exact hdeep first rest hrest name hname
  | cons name names ih =>
    rw [List.foldlM_cons] at h
    obtain ⟨t₁, hstep, h⟩ := Raise.bind_ok.mp h
    obtain ⟨hname, hrest⟩ := List.forall_mem_cons.mp hparts
    by_cases hslash : '\\' ∈ name
    · have hmoved := moved_of_splitEntry htop hslash hname hstep
      have hne := splitOn_ne_nil name
      have hsplit : splitPath (trel ++ [name]) = splitPath (trel ++ name.splitOn '\\') := by
        rw [splitPath_append, splitPath_append, splitPath_parts]
        exact congrArg _ (List.flatMap_singleton ..)
      have htracks₁ := htracks.moved hsplit (by rwa [← List.append_assoc, ← List.append_assoc])
      have hclean : ∀ part ∈ name.splitOn '\\', '\\' ∉ part := fun _ => notMem_part
      have hvisited := ih htracks₁ hrest (by rw [hmoved.frame hne _ fun _ => rfl, htop])
        (fun first rest hthere other hother => ?_) (fun first hthere hfirst => ?_) h
      · refine ⟨hvisited.tracks, fun r hr => ?_, hvisited.clean⟩
        rw [hvisited.frame r hr, hmoved.frame hne r hr]
      · rw [← List.append_cons] at hthere
        rcases hmoved.cases_below hthere with ⟨tail, heq, htail⟩ | hpre | ⟨_, hold⟩
        · have hmem : other ∈ name.splitOn '\\' ++ tail := heq ▸ List.mem_cons_of_mem _ hother
          exact (List.mem_append.mp hmem).elim (hclean other) (hdeep name tail htail other)
        · exact hclean other (hpre.subset (List.mem_cons_of_mem _ hother))
        · rw [List.append_cons] at hold
          exact hdeep first rest hold other hother
      · rcases hmoved.cases_below hthere with ⟨tail, heq, _⟩ | hpre | ⟨hnot, hold⟩
        · obtain ⟨part, parts, hsplit⟩ := List.exists_cons_of_ne_nil hne
          rw [hsplit, List.cons_append] at heq
          rw [(List.cons.inj heq).1] at hfirst
          exact absurd hfirst (hclean part (hsplit ▸ List.mem_cons_self))
        · exact absurd hfirst (hclean first (hpre.subset (List.mem_singleton_self _)))
        · rcases List.mem_cons.mp (hnames first hold hfirst) with rfl | hmem
          · exact absurd List.prefix_rfl hnot
          · exact hmem
    · have hsame : t = t₁ := by
        rw [splitEntry, if_pos hslash] at hstep
        exact Except.ok.inj hstep
      subst hsame
      refine ih htracks hrest htop hdeep (fun other hthere hother => ?_) h
      rcases List.mem_cons.mp (hnames other hthere hother) with rfl | hmem
      · exact absurd hother hslash
      · exact hmem

variable {order : TreePath → List (List Char) → List (List Char)} {fuel : ℕ}

/-- The loop over the directories of a directory. -/
theorem visited_dirs {trel : TreePath} {dirs : List (List Char)}
    (hwalk : ∀ (trel : TreePath) (t t' : FileTree α), (∃ loc, Tracks t₀ t dest loc) →
      walk order fuel t (dest ++ trel) = .ok t' → Visited t₀ t t' dest trel)
    (htracks : ∃ loc, Tracks t₀ t dest loc)
    (h : dirs.foldlM (fun t name => walk order fuel t (dest ++ trel ++ [name])) t = .ok t') :
    (∃ loc, Tracks t₀ t' dest loc) ∧
      (∀ r, (∀ d ∈ dirs, dest ++ trel ++ [d] <+: r → r = dest ++ trel ++ [d]) →
        t'.node r = t.node r) ∧
      ∀ d ∈ dirs, Clean t' (dest ++ trel ++ [d]) := by
  induction dirs generalizing t with
  | nil =>
    obtain rfl := Except.ok.inj h
    exact ⟨htracks, fun _ _ => rfl, fun d hd => nomatch hd⟩
  | cons d ds ih =>
    rw [List.foldlM_cons] at h
    obtain ⟨t₁, hstep, h⟩ := Raise.bind_ok.mp h
    rw [List.append_assoc] at hstep
    have hvisited := hwalk (trel ++ [d]) t t₁ htracks hstep
    have hcleaned := hvisited.clean
    have hkept := hvisited.frame
    rw [← List.append_assoc] at hcleaned hkept
    obtain ⟨htracks', hframe, hclean⟩ := ih hvisited.tracks h
    refine ⟨htracks', fun r hr => ?_, fun e he => ?_⟩
    · obtain ⟨hd, hds⟩ := List.forall_mem_cons.mp hr
      rw [hframe r hds, hkept r hd]
    · by_cases hmem : e ∈ ds
      · exact hclean e hmem
      · obtain rfl : e = d := (List.mem_cons.mp he).resolve_right hmem
        intro rest hrest
        rw [hframe] at hrest
        · exact hcleaned rest hrest
        · intro other hother hpre
          rw [List.append_assoc _ [e] rest] at hpre
          obtain ⟨tail, htail⟩ := (List.prefix_append_right_inj (dest ++ trel)).mp hpre
          exact absurd ((List.cons.inj htail).1 ▸ hother) hmem

theorem foldlM_of_mapError {ε ε' β γ : Type} {step : β → γ → Except ε β} {wrap : ε → ε'}
    {xs : List γ} {b b' : β}
    (h : xs.foldlM (fun b x => (step b x).mapError wrap) b = .ok b') :
    xs.foldlM step b = .ok b' := by
  induction xs generalizing b with
  | nil => exact congrArg Except.ok (Except.ok.inj h)
  | cons x xs ih =>
    rw [List.foldlM_cons] at h ⊢
    obtain ⟨c, hc, h⟩ := Raise.bind_ok.mp h
    refine Raise.bind_ok.mpr ⟨c, ?_, ih h⟩
    cases hstep : step b x with
    | error e =>
      rw [hstep] at hc
      exact nomatch hc
    | ok c' =>
      rw [hstep] at hc
      rw [← Except.ok.inj hc]

/-- The walk through a directory: nothing else changes, and no backslash is left in it. -/
theorem visited_of_walk (horder : ∀ p names, (order p names).Perm names)
    (hplain : Undotted t₀ dest) (trel : TreePath) (htracks : ∃ loc, Tracks t₀ t dest loc)
    (h : walk order fuel t (dest ++ trel) = .ok t') : Visited t₀ t t' dest trel := by
  induction fuel generalizing t t' trel with
  | zero => exact nomatch h
  | succ fuel ih =>
    rw [walk] at h
    obtain ⟨t₁, hdirs, h⟩ := Raise.bind_ok.mp h
    have hlisted (name : List Char) :
        name ∈ order (dest ++ trel) (t.entries (dest ++ trel)) ↔
          t.node (dest ++ trel ++ [name]) ≠ none := by
      rw [(horder _ _).mem_iff, FileTree.mem_entries]
    generalize hnames : order (dest ++ trel) (t.entries (dest ++ trel)) = names at *
    obtain ⟨⟨loc₁, htracks₁⟩, hframe₁, hclean₁⟩ :=
      visited_dirs (fun trel t t' htracks h => ih trel htracks h) htracks hdirs
    have hlevel (name : List Char) :
        t₁.node (dest ++ trel ++ [name]) = t.node (dest ++ trel ++ [name]) := by
      apply hframe₁
      intro d _ hpre
      exact (hpre.eq_of_length (by simp)).symm
    have hsame (r : TreePath) (hr : dest ++ trel <+: r → r = dest ++ trel) :
        t₁.node r = t.node r := by
      apply hframe₁
      intro d _ hpre
      have he := hr ((List.prefix_append _ _).trans hpre)
      rw [he] at hpre
      exact absurd hpre.length_le (by simp)
    by_cases htop : t.node (dest ++ trel) = some .dir
    · have hkind (name : List Char) (hmem : name ∈ names) :
          name ∈ names.filter (fun name => t.isDir (dest ++ trel ++ [name])) ++
            names.filter fun name => !t.isDir (dest ++ trel ++ [name]) := by
        rw [List.mem_append, List.mem_filter, List.mem_filter]
        cases t.isDir (dest ++ trel ++ [name])
        · exact .inr ⟨hmem, rfl⟩
        · exact .inl ⟨hmem, rfl⟩
      have hvisited := visited_of_splitEntries trel _ htracks₁ (fun name hmem part hpart => ?_)
        (by rw [hsame _ fun _ => rfl, htop]) (fun name rest hrest => ?_)
        (fun name hthere _ => hkind name ((hlisted name).mpr (by rwa [← hlevel])))
        (foldlM_of_mapError h)
      · exact ⟨hvisited.tracks, fun r hr => by rw [hvisited.frame r hr, hsame r hr],
          hvisited.clean⟩
      · have hmem' : name ∈ names := by
          rcases List.mem_append.mp hmem with hmem | hmem <;> exact (List.mem_filter.mp hmem).1
        have hthere := (hlisted name).mp hmem'
        rw [List.append_assoc] at hthere
        obtain ⟨loc, hloc⟩ := htracks
        refine hloc.parts_plain hplain hthere part ?_
        rw [splitPath_append]
        exact List.mem_append_right _ (List.mem_flatMap.mpr
          ⟨name, List.mem_singleton_self _, hpart⟩)
      · intro other hother
        have hdir : t₁.node (dest ++ trel ++ [name]) = some .dir := by
          refine t₁.node_of_prefix (List.prefix_append _ rest) (fun he => ?_) hrest
          rw [List.append_right_eq_self.mp he.symm] at hother
          exact nomatch hother
        rw [hlevel] at hdir
        refine hclean₁ name (List.mem_filter.mpr ⟨(hlisted name).mpr ?_, ?_⟩)
          rest hrest other hother
        · rw [hdir]
          exact Option.some_ne_none _
        · exact t.isDir_iff.mpr hdir
    · have hnone (name : List Char) : t.node (dest ++ trel ++ [name]) = none := by
        by_contra hne
        exact htop (t.closed _ _ hne)
      have hnil : names = [] := List.eq_nil_iff_forall_not_mem.mpr fun name hmem =>
        (hlisted name).mp hmem (hnone name)
      rw [hnil] at h hdirs
      obtain rfl := Except.ok.inj hdirs
      obtain rfl := Except.ok.inj h
      refine ⟨htracks, fun _ _ => rfl, fun rest hrest name hname => ?_⟩
      refine absurd (t.node_of_prefix (List.prefix_append _ rest) (fun he => ?_) hrest) htop
      rw [List.append_right_eq_self.mp he.symm] at hname
      exact nomatch hname

/-! ## The walk comes to its end -/

/-- No path of a tree is deeper than a bound, also when its names are split. -/
def Bounded (bound : ℕ) (t : FileTree α) : Prop :=
  ∀ r, t.node r ≠ none → (r.map weight).sum ≤ bound

theorem bounded_depth (t : FileTree α) : Bounded (depth t) t := by
  intro r hr
  have hmax (ns : List ℕ) : ∀ n ∈ ns, n ≤ ns.foldr max 0 := by
    intro n hn
    induction ns with
    | nil => exact nomatch hn
    | cons m ms ih =>
      rw [List.foldr_cons]
      rcases List.mem_cons.mp hn with rfl | hn
      · exact le_max_left _ _
      · exact (ih hn).trans (le_max_right _ _)
  rw [← length_splitPath]
  exact hmax _ _ (List.mem_map.mpr ⟨r, t.complete r hr, rfl⟩)

theorem bounded_of_splitEntry {bound : ℕ} {top : TreePath} {name : List Char}
    (hbound : Bounded bound t) (h : splitEntry top t name = .ok t') : Bounded bound t' := by
  unfold splitEntry at h
  dsimp only at h
  split_ifs at h with hslash hempty hthere
  · obtain ⟨⟨t₁, parent⟩, hmade, hrename⟩ := Raise.bind_ok.mp h
    have hne := splitOn_ne_nil name
    have hlen : (name.splitOn '\\').dropLast.length + 1 = weight name := by
      rw [List.length_dropLast]
      exact Nat.sub_add_cancel (List.length_pos_iff.mpr hne)
    obtain ⟨hparent, hnode⟩ := FileTree.makeDirs_weight weight
      (fun part hpart => weight_part (List.mem_of_mem_dropLast hpart)) hmade
    have hlast : weight ((name.splitOn '\\').getLastD []) = 1 := by
      rw [List.getLastD_eq_getLast?, List.getLast?_eq_some_getLast hne]
      exact weight_part (List.getLast_mem hne)
    have hsrc (rest : TreePath) (hrest : t₁.node (top ++ [name] ++ rest) ≠ none) :
        (top.map weight).sum + weight name + (rest.map weight).sum ≤ bound := by
      have hsum : ((top ++ [name] ++ rest).map weight).sum =
          (top.map weight).sum + weight name + (rest.map weight).sum := by
        simp [Nat.add_assoc]
      rcases hnode _ hrest with hold | hmade'
      · rw [← hsum]
        exact hbound _ hold
      · rw [hsum] at hmade'
        omega
    have hself := hsrc [] (by
      rw [List.append_nil]
      exact FileTree.there_of_rename hrename)
    intro r hr
    rcases FileTree.node_of_rename hrename hr with hold | ⟨rest, rfl, hrest⟩
    · rcases hnode r hold with hold | hmade'
      · exact hbound r hold
      · rw [List.map_nil, List.sum_nil] at hself
        omega
    · have hrest' := hsrc rest hrest
      have hsum : ((parent ++ [(name.splitOn '\\').getLastD []] ++ rest).map weight).sum =
          (parent.map weight).sum + weight ((name.splitOn '\\').getLastD []) +
            (rest.map weight).sum := by
        simp [Nat.add_assoc]
      rw [hsum, hlast]
      omega
  · exact Except.ok.inj h ▸ hbound

theorem bounded_of_walk {bound : ℕ} {top : TreePath} (hbound : Bounded bound t)
    (h : walk order fuel t top = .ok t') : Bounded bound t' := by
  induction fuel generalizing t t' top with
  | zero => exact nomatch h
  | succ fuel ih =>
    rw [walk] at h
    obtain ⟨t₁, hdirs, h⟩ := Raise.bind_ok.mp h
    have hbound₁ : Bounded bound t₁ :=
      Lists.foldlM_invariant (fun _ => Bounded bound) (fun _ _ _ _ hb hstep => ih hb hstep) hbound
        hdirs
    exact Lists.foldlM_invariant (fun _ => Bounded bound)
      (fun _ _ _ _ hb hstep => bounded_of_splitEntry hb hstep) hbound₁ (foldlM_of_mapError h)

/-- The error of a loop is that of a step, from a state that was reached. -/
theorem exists_of_foldlM_error {ε β γ : Type} {step : β → γ → Except ε β} {xs : List γ} {b : β}
    {e : ε} (h : xs.foldlM step b = .error e) :
    ∃ done x rest b', xs = done ++ x :: rest ∧ done.foldlM step b = .ok b' ∧
      step b' x = .error e := by
  induction xs generalizing b with
  | nil => exact nomatch h
  | cons x xs ih =>
    rw [List.foldlM_cons] at h
    cases hstep : step b x with
    | error e' =>
      rw [hstep] at h
      exact ⟨[], x, xs, b, rfl, rfl, by rw [hstep]; exact h⟩
    | ok c =>
      rw [hstep] at h
      obtain ⟨done, y, rest, b', rfl, hdone, herror⟩ := ih h
      refine ⟨x :: done, y, rest, b', rfl, ?_, herror⟩
      rw [List.foldlM_cons, hstep]
      exact hdone

/-- With room for the depth of the tree, the walk comes to its end. -/
theorem walk_not_exhausted (horder : ∀ p names, (order p names).Perm names) {bound : ℕ}
    {top : TreePath} (hbound : Bounded bound t) (htop : top.length ≤ bound)
    (hfuel : bound + 1 ≤ fuel + top.length) : walk order fuel t top ≠ .error .exhausted := by
  induction fuel generalizing t top with
  | zero => omega
  | succ fuel ih =>
    intro h
    rw [walk] at h
    generalize hnames : order top (t.entries top) = names at h
    cases hdirs : (names.filter fun name => t.isDir (top ++ [name])).foldlM
        (fun t name => walk order fuel t (top ++ [name])) t with
    | ok t₁ =>
      rw [hdirs] at h
      obtain ⟨_, name, _, t₂, _, _, hstep⟩ := exists_of_foldlM_error h
      cases hentry : splitEntry top t₂ name with
      | ok t₃ =>
        rw [hentry] at hstep
        exact nomatch hstep
      | error e =>
        rw [hentry] at hstep
        exact nomatch hstep
    | error e =>
      rw [hdirs] at h
      obtain rfl : e = .exhausted := Except.error.inj h
      obtain ⟨done, name, rest, t₁, hsplit, hdone, hstep⟩ := exists_of_foldlM_error hdirs
      have hbound₁ : Bounded bound t₁ :=
        Lists.foldlM_invariant (fun _ => Bounded bound)
          (fun _ _ _ _ hb hstep => bounded_of_walk hb hstep) hbound hdone
      have hmem : name ∈ names :=
        (List.mem_filter.mp (hsplit ▸ List.mem_append_right _ List.mem_cons_self)).1
      have hthere : t.node (top ++ [name]) ≠ none := by
        rw [← FileTree.mem_entries, ← (horder top _).mem_iff, hnames]
        exact hmem
      have hlen : (top ++ [name]).length ≤ bound :=
        (length_le_weight _).trans (hbound _ hthere)
      refine ih hbound₁ hlen ?_ hstep
      rw [List.length_append, List.length_singleton]
      omega

end Walk

/-! ## The whole -/

/-- The run comes to its end; and when it returns, nothing is lost just where no name has a dot
    or two between its backslashes. -/
theorem nestUnrepresentable_lossless
    {order : TreePath → List (List Char) → List (List Char)}
    (horder : ∀ p names, (order p names).Perm names) {t : FileTree α} {dest : TreePath}
    (hdest : t.node dest = some .dir) :
    match nestUnrepresentable order t dest with
    | .error stop => ∃ text, stop = .raised text
    | .ok t' => Lossless t t' dest ↔ Undotted t dest := by
  have hthere : t.node dest ≠ none := by
    rw [hdest]
    exact Option.some_ne_none _
  have hdepth : dest.length ≤ depth t :=
    (length_le_weight dest).trans (bounded_depth t dest hthere)
  cases hrun : nestUnrepresentable order t dest with
  | error stop =>
    cases stop with
    | raised text => exact ⟨text, rfl⟩
    | exhausted =>
      exact absurd hrun (walk_not_exhausted horder (bounded_depth t) hdepth (by omega))
  | ok t' =>
    refine ⟨fun hlossless rel hrel part hpart => ?_, fun hplain => ?_⟩
    · obtain ⟨deep, ⟨rest, hrest⟩, hdeep, hlast⟩ := t.exists_deepest hrel
      rw [← hrest, List.append_assoc] at hdeep hlast
      have hkept : t'.node (dest ++ splitPath (rel ++ rest)) ≠ none := by
        cases hnode : t.node (dest ++ (rel ++ rest)) with
        | none => exact absurd hnode hdeep
        | some node =>
          cases node with
          | dir =>
            rw [hlossless.empty _ hnode hlast]
            exact Option.some_ne_none _
          | leaf a =>
            rw [(hlossless.files _ a).mpr ⟨_, hnode, rfl⟩]
            exact Option.some_ne_none _
      refine t'.plain_of_mem hkept (List.mem_append_right _ ?_)
      rw [splitPath_append]
      exact List.mem_append_left _ hpart
    · have hrun' : walk order (depth t + 1) t (dest ++ []) = .ok t' := by
        rw [List.append_nil]
        exact hrun
      have hvisited := visited_of_walk horder hplain [] ⟨id, tracks_self t dest⟩ hrun'
      obtain ⟨loc, hloc⟩ := hvisited.tracks
      refine hloc.lossless fun rel hrel => hvisited.clean rel ?_
      rwa [List.append_nil]

section Examples

/-- The unit files of a package, one of which has an escaped name. -/
def slices : FileTree ℕ :=
  (((FileTree.empty.put [] "out".toList .dir rfl rfl (by decide)).put ["out".toList]
    "-.slice".toList (.leaf 0) rfl rfl (by decide)).put ["out".toList]
    "system-systemd\\x2dcryptsetup.slice".toList (.leaf 1) rfl rfl (by decide))

theorem nestUnrepresentable_slices :
    (∀ names : List (List Char), names.Perm names) ∧
    slices.node ["out".toList] = some .dir ∧
    match nestUnrepresentable (fun _ names => names) slices ["out".toList] with
    | .error stop => ∃ text, stop = .raised text
    | .ok t' => Lossless slices t' ["out".toList] ↔ Undotted slices ["out".toList] :=
  ⟨fun names => .refl names, rfl, @nestUnrepresentable_lossless ℕ (fun _ names => names)
    (fun _ names => .refl names) slices ["out".toList] rfl⟩

/-- A file whose name starts with two dots and a backslash leaves the tree. -/
theorem dotdot_lost :
    ¬ ∀ (order : TreePath → List (List Char) → List (List Char)) (t : FileTree ℕ)
      (dest : TreePath), (∀ p names, (order p names).Perm names) → t.node dest = some .dir →
      match nestUnrepresentable order t dest with
      | .error stop => ∃ text, stop = .raised text
      | .ok t' => Lossless t t' dest := by
  intro h
  let t : FileTree ℕ := (FileTree.empty.put [] "out".toList .dir rfl rfl (by decide)).put
    ["out".toList] "..\\x".toList (.leaf 0) rfl rfl (by decide)
  have hrun := h (fun _ names => names) t ["out".toList] (fun _ names => .refl names) rfl
  have hok : (nestUnrepresentable (fun _ names => names) t ["out".toList]).isOk = true := by
    decide
  cases hresult : nestUnrepresentable (fun _ names => names) t ["out".toList] with
  | error stop =>
    rw [hresult] at hok
    exact nomatch hok
  | ok t' =>
    rw [hresult] at hrun
    have hleaf : t'.node (["out".toList] ++ ["..".toList, "x".toList]) = some (.leaf 0) :=
      (hrun.files _ _).mpr ⟨["..\\x".toList], rfl, rfl⟩
    have hthere : t'.node (["out".toList] ++ ["..".toList, "x".toList]) ≠ none := by
      rw [hleaf]
      exact Option.some_ne_none _
    have hplain : Plain "..".toList := t'.plain_of_mem hthere (by decide)
    exact absurd hplain (by decide)

end Examples

end BuckosDistro.Payload
