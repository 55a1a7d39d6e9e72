/-
  Bundles of package payloads (`tools/rpm_bundle.py`, `merge_payload`).

  A payload is merged into a tree entry by entry, and never over what differs. What a merge does
  to a part of the tree (`Merges`) composes over parts that are apart, so that the recursion over
  directories is followed by it; the merge of all payloads is then their union, in any order.
-/
import BuckosDistro.Lib.Links
import BuckosDistro.Lib.Raise

namespace BuckosDistro.Payload

open BuckosDistro.Lib TreePath

/-- A file of a payload, with the bits of its mode that `chmod` sets. -/
structure PayloadFile (δ : Type) where
  content : δ
  mode : ℕ

abbrev PayloadTree (δ : Type) := LinkTree (PayloadFile δ)

variable {δ ε : Type}

/-! ## The functions -/

/-- `st_mode & 0o777` -/
def permissions (mode : ℕ) : ℕ := mode &&& 511

/-- `sorted(source.iterdir())` -/
def sortedEntries (source : PayloadTree δ) (p : TreePath) : List (List Char) :=
  (source.entries p).insertionSort (· ≤ ·)

section Merge

variable [DecidableEq ε] (digest : δ → ε) (out : String)

/-- The body of the loop over a directory; `merge` goes on in a directory. -/
def mergeEntry (merge : PayloadTree δ → TreePath → Except String (PayloadTree δ))
    (source : PayloadTree δ) (p : TreePath) (t : PayloadTree δ) (name : List Char) :
    Except String (PayloadTree δ) :=
  let dst := p ++ [name]
  match source.node dst with
  | some (.leaf (.link target)) =>
    match t.node dst with
    | none => t.create p name (.leaf (.link target))
    | some (.leaf (.link there)) =>
      if target = there then .ok t
      else .error ("ValueError: conflicting RPM payload: " ++ out ++ text dst)
    | some _ => .error ("ValueError: conflicting RPM payload: " ++ out ++ text dst)
  | some .dir =>
    match t.node dst with
    | none => do
      let t ← t.create p name .dir
      merge t dst
    | some .dir => merge t dst
    | some _ => .error ("ValueError: conflicting RPM directory: " ++ out ++ text dst)
  | some (.leaf (.file src)) =>
    match t.node dst with
    | none => t.create p name (.leaf (.file ⟨src.content, permissions src.mode⟩))
    | some (.leaf (.file there)) =>
      if digest src.content = digest there.content ∧ permissions src.mode = permissions there.mode
      then .ok t
      else .error ("ValueError: conflicting RPM payload: " ++ out ++ text dst)
    | some _ => .error ("ValueError: conflicting RPM payload: " ++ out ++ text dst)
  | none => .error ("FileNotFoundError: " ++ text dst)

/-- The recursion of `merge_payload`. -/
def mergeFrom (source : PayloadTree δ) :
    ℕ → PayloadTree δ → TreePath → Except String (PayloadTree δ)
  | 0, _, p => .error ("RecursionError: " ++ text p)
  | fuel + 1, t, p =>
    (sortedEntries source p).foldlM (mergeEntry digest out (mergeFrom source fuel) source p) t

/-- `merge_payload` -/
def mergePayload (source t : PayloadTree δ) : Except String (PayloadTree δ) :=
  mergeFrom digest out source (source.height + 1) t []

/-- The loop of `assemble`, into a directory that is empty. -/
def mergePayloads (payloads : List (PayloadTree δ)) : Except String (PayloadTree δ) :=
  payloads.foldlM (fun t source => mergePayload digest out source t) FileTree.empty

end Merge

/-! ## What a bundle says of an entry -/

/-- An entry as it is merged. -/
def merged : Node (Leaf (PayloadFile δ)) → Node (Leaf (PayloadFile δ))
  | .leaf (.file f) => .leaf (.file ⟨f.content, permissions f.mode⟩)
  | x => x

theorem permissions_permissions (mode : ℕ) : permissions (permissions mode) = permissions mode := by
  unfold permissions
  rw [Nat.and_assoc, Nat.and_self]

theorem merged_merged (x : Node (Leaf (PayloadFile δ))) : merged (merged x) = merged x := by
  match x with
  | .dir => rfl
  | .leaf (.link target) => rfl
  | .leaf (.file f) =>
    show Node.leaf (Leaf.file (PayloadFile.mk f.content (permissions (permissions f.mode)))) = _
    rw [permissions_permissions]
    rfl

/-- Two trees have nothing different at a path: another kind, another link target, or a file with
    other content or other permissions. -/
def Same (source t : PayloadTree δ) (q : TreePath) : Prop :=
  ∀ a b, source.node q = some a → t.node q = some b → merged a = merged b

/-- What stands at a path of one tree, or else of the other. -/
def union (source t : PayloadTree δ) (q : TreePath) : Option (Node (Leaf (PayloadFile δ))) :=
  (t.node q).or ((source.node q).map merged)

/-- What a merge of a part of the tree comes to. -/
def Merges (source t : PayloadTree δ) (part : TreePath → Prop) :
    Except String (PayloadTree δ) → Prop
  | .ok t' => (∀ q, part q → Same source t q) ∧ (∀ q, part q → t'.node q = union source t q) ∧
      ∀ q, ¬ part q → t'.node q = t.node q
  | .error _ => ∃ q, part q ∧ ¬ Same source t q

/-- The files that are compared have the same content where they have the same digest. -/
def Collisionless (digest : δ → ε) (source t : PayloadTree δ) (q : TreePath) : Prop :=
  ∀ a b, source.node q = some (.leaf (.file a)) → t.node q = some (.leaf (.file b)) →
    digest a.content = digest b.content → a.content = b.content

section Parts

variable {source t t' : PayloadTree δ} {part part' : TreePath → Prop} {p q : TreePath}
  {name : List Char}

theorem Same.of_node (h : t'.node q = t.node q) : Same source t' q ↔ Same source t q := by
  unfold Same
  rw [h]

theorem union_of_node (h : t'.node q = t.node q) : union source t' q = union source t q := by
  unfold union
  rw [h]

/-- Merges of parts that are apart compose. -/
theorem Merges.bind {r : Except String (PayloadTree δ)}
    {next : PayloadTree δ → Except String (PayloadTree δ)} (h : Merges source t part r)
    (happart : ∀ q, part q → ¬ part' q)
    (hnext : ∀ t', r = .ok t' → Merges source t' part' (next t')) :
    Merges source t (fun q => part q ∨ part' q) (r >>= next) := by
  cases r with
  | error e =>
    obtain ⟨q, hq, hdiffer⟩ := h
    exact ⟨q, .inl hq, hdiffer⟩
  | ok t₁ =>
    obtain ⟨hsame, hunion, hkeep⟩ := h
    have hold (q : TreePath) (hq : part' q) : t₁.node q = t.node q :=
      hkeep q fun hpart => happart q hpart hq
    have hrest := hnext t₁ rfl
    show Merges source t _ (next t₁)
    cases hresult : next t₁ with
    | error e =>
      rw [hresult] at hrest
      obtain ⟨q, hq, hdiffer⟩ := hrest
      exact ⟨q, .inr hq, fun hs => hdiffer ((Same.of_node (hold q hq)).mpr hs)⟩
    | ok t₂ =>
      rw [hresult] at hrest
      obtain ⟨hsame', hunion', hkeep'⟩ := hrest
      refine ⟨fun q hq => ?_, fun q hq => ?_, fun q hq => ?_⟩
      · rcases hq with hq | hq
        · exact hsame q hq
        · exact (Same.of_node (hold q hq)).mp (hsame' q hq)
      · rcases hq with hq | hq
        · rw [hkeep' q (happart q hq), hunion q hq]
        · rw [hunion' q hq, union_of_node (hold q hq)]
      · rw [hkeep' q fun h => hq (.inr h), hkeep q fun h => hq (.inl h)]

theorem Merges.congr {r : Except String (PayloadTree δ)} (h : Merges source t part r)
    (hpart : ∀ q, part q ↔ part' q) : Merges source t part' r := by
  rwa [show part' = part from funext fun q => propext (hpart q).symm]

/-- The same merge, seen from a tree that is the same to it. -/
theorem Merges.of_same {r : Except String (PayloadTree δ)} (h : Merges source t' part r)
    (hsame : ∀ q, part q → (Same source t' q ↔ Same source t q))
    (hunion : ∀ q, part q → union source t' q = union source t q)
    (hkeep : ∀ q, ¬ part q → t'.node q = t.node q) : Merges source t part r := by
  cases r with
  | error e =>
    obtain ⟨q, hq, hdiffer⟩ := h
    exact ⟨q, hq, fun hs => hdiffer ((hsame q hq).mpr hs)⟩
  | ok t₁ =>
    obtain ⟨hs, hu, hk⟩ := h
    refine ⟨fun q hq => (hsame q hq).mp (hs q hq), fun q hq => ?_, fun q hq => ?_⟩
    · rw [hu q hq, hunion q hq]
    · rw [hk q hq, hkeep q hq]

/-- Nothing stands below what is no directory. -/
theorem eq_none_below {t : PayloadTree δ} (h : t.node p ≠ some .dir) (hpre : p <+: q)
    (hne : q ≠ p) : t.node q = none := by
  by_contra hthere
  exact h (t.node_of_prefix hpre hne.symm hthere)

/-- A file or link that is there in both trees. -/
theorem merges_there {x : Leaf (PayloadFile δ)} {b : Node (Leaf (PayloadFile δ))}
    (hsource : source.node p = some (.leaf x)) (ht : t.node p = some b)
    (hsame : merged (.leaf x) = merged b) : Merges source t (p <+: ·) (.ok t) := by
  have hleaf : source.node p ≠ some .dir := by
    rw [hsource]
    exact fun he => nomatch he
  refine ⟨fun q hq a b' ha hb' => ?_, fun q hq => ?_, fun _ _ => rfl⟩
  · by_cases hne : q = p
    · rw [hne, hsource] at ha
      rw [hne, ht] at hb'
      rw [← Option.some.inj ha, ← Option.some.inj hb', hsame]
    · rw [eq_none_below hleaf hq hne] at ha
      exact nomatch ha
  · unfold union
    by_cases hne : q = p
    · rw [hne, ht, Option.some_or]
    · rw [eq_none_below hleaf hq hne, Option.map_none, Option.or_none]

theorem merges_conflict {a b : Node (Leaf (PayloadFile δ))} {e : String}
    (hsource : source.node p = some a) (ht : t.node p = some b) (hdiffer : merged a ≠ merged b) :
    Merges source t (p <+: ·) (.error e) :=
  ⟨p, List.prefix_rfl, fun hsame => hdiffer (hsame a b hsource ht)⟩

/-- A file or link that is new. -/
theorem merges_create {x : Leaf (PayloadFile δ)}
    (hsource : source.node (p ++ [name]) = some (.leaf x))
    (hdir : t.node p = some .dir) (hfree : t.node (p ++ [name]) = none) :
    ∀ y, merged (.leaf x) = .leaf y →
      Merges source t (p ++ [name] <+: ·) (t.create p name (.leaf y)) := by
  intro y hy
  have hthere : source.node (p ++ [name]) ≠ none := by
    rw [hsource]
    exact Option.some_ne_none _
  have hleaf : source.node (p ++ [name]) ≠ some .dir := by
    rw [hsource]
    exact fun he => nomatch he
  obtain ⟨t', ht'⟩ :=
    FileTree.exists_create (x := .leaf y) hdir hfree (source.plain p name hthere)
  have hnode := FileTree.create_ok ht'
  rw [ht']
  refine ⟨fun q hq a b _ hb => ?_, fun q hq => ?_, fun q hq => ?_⟩
  · rw [t.eq_none_of_prefix hq hfree] at hb
    exact nomatch hb
  · unfold union
    rw [hnode, t.eq_none_of_prefix hq hfree, Option.none_or]
    split_ifs with hne
    · rw [hne, hsource, Option.map_some, hy]
    · rw [eq_none_below hleaf hq hne, Option.map_none]
  · have hne : q ≠ p ++ [name] := fun he => hq (he ▸ List.prefix_rfl)
    rw [hnode, if_neg hne]

end Parts

/-! ## One payload -/

section Payload

variable [DecidableEq ε] {digest : δ → ε} {out : String} {source t : PayloadTree δ}

/-- One entry: below it the trees are united, or differ. -/
theorem merges_mergeEntry {merge : PayloadTree δ → TreePath → Except String (PayloadTree δ)}
    {p : TreePath} {name : List Char} (hthere : source.node (p ++ [name]) ≠ none)
    (hdir : t.node p = some .dir)
    (hdigest : ∀ q, p ++ [name] <+: q → Collisionless digest source t q)
    (hmerge : ∀ t₁, source.node (p ++ [name]) = some .dir → t₁.node (p ++ [name]) = some .dir →
      (∀ q, p ++ [name] <+: q → Collisionless digest source t₁ q) →
      Merges source t₁ (p ++ [name] <+: ·) (merge t₁ (p ++ [name]))) :
    Merges source t (p ++ [name] <+: ·) (mergeEntry digest out merge source p t name) := by
  unfold mergeEntry
  dsimp only
  split
  next target hsource =>
    split
    next hfree => exact merges_create hsource hdir hfree _ rfl
    next there ht =>
      split_ifs with he
      · exact merges_there hsource ht (by rw [he])
      · refine merges_conflict hsource ht fun hsame => he ?_
        exact Leaf.link.inj (Node.leaf.inj hsame)
    next x hlink ht =>
      refine merges_conflict hsource ht fun hsame => ?_
      match x, hlink, hsame with
      | .leaf (.link there), hlink, _ => exact hlink there rfl
  next hsource =>
    split
    next hfree =>
      obtain ⟨t₁, ht₁⟩ :=
        FileTree.exists_create (x := .dir) hdir hfree (source.plain p name hthere)
      have hnode := FileTree.create_ok ht₁
      have hmade : t₁.node (p ++ [name]) = some .dir := by rw [hnode, if_pos rfl]
      have hbelow (q : TreePath) (hne : q ≠ p ++ [name]) : t₁.node q = t.node q := by
        rw [hnode, if_neg hne]
      rw [ht₁]
      refine (hmerge t₁ hsource hmade fun q hq => ?_).of_same (fun q hq => ?_) (fun q hq => ?_)
        fun q hq => ?_
      · by_cases hne : q = p ++ [name]
        · intro a b _ hb
          rw [hne, hmade] at hb
          exact nomatch hb
        · unfold Collisionless
          rw [hbelow q hne]
          exact hdigest q hq
      · by_cases hne : q = p ++ [name]
        · rw [hne]
          refine iff_of_true (fun a b ha hb => ?_) (fun a b _ hb => ?_)
          · rw [hsource] at ha
            rw [hmade] at hb
            rw [← Option.some.inj ha, ← Option.some.inj hb]
          · rw [hfree] at hb
            exact nomatch hb
        · exact Same.of_node (hbelow q hne)
      · by_cases hne : q = p ++ [name]
        · unfold union
          rw [hne, hmade, hfree, hsource]
          rfl
        · exact union_of_node (hbelow q hne)
      · apply hbelow
        intro he
        exact hq (he ▸ List.prefix_rfl)
    next ht => exact hmerge t hsource ht hdigest
    next x hx ht =>
      refine merges_conflict hsource ht fun hsame => ?_
      match x, hx, hsame with
      | .dir, hx, _ => exact hx rfl
  next src hsource =>
    split
    next hfree => exact merges_create hsource hdir hfree _ rfl
    next there ht =>
      split_ifs with he
      · refine merges_there hsource ht ?_
        have hcontent := hdigest _ List.prefix_rfl src there hsource ht he.1
        unfold merged
        dsimp only
        rw [hcontent, he.2]
      · refine merges_conflict hsource ht fun hsame => he ?_
        have hfile := Leaf.file.inj (Node.leaf.inj hsame)
        exact ⟨congrArg (fun f => digest f.content) hfile, congrArg PayloadFile.mode hfile⟩
    next x hx ht =>
      refine merges_conflict hsource ht fun hsame => ?_
      match x, hx, hsame with
      | .leaf (.file there), hx, _ => exact hx there rfl
  next hnone => exact absurd hnone hthere

/-- The loop over a directory. -/
theorem merges_entries {merge : PayloadTree δ → TreePath → Except String (PayloadTree δ)}
    {p : TreePath} {names : List (List Char)} (hnodup : names.Nodup)
    (hthere : ∀ name ∈ names, source.node (p ++ [name]) ≠ none) (hdir : t.node p = some .dir)
    (hdigest : ∀ q, p <+: q → Collisionless digest source t q)
    (hmerge : ∀ t₁, ∀ name ∈ names, source.node (p ++ [name]) = some .dir →
      t₁.node (p ++ [name]) = some .dir →
      (∀ q, p ++ [name] <+: q → Collisionless digest source t₁ q) →
      Merges source t₁ (p ++ [name] <+: ·) (merge t₁ (p ++ [name]))) :
    Merges source t (fun q => ∃ name ∈ names, p ++ [name] <+: q)
      (names.foldlM (mergeEntry digest out merge source p) t) := by
  induction names generalizing t with
  | nil =>
    refine ⟨fun q hq => ?_, fun q hq => ?_, fun _ _ => rfl⟩
    · obtain ⟨_, hname, _⟩ := hq
      exact nomatch hname
    · obtain ⟨_, hname, _⟩ := hq
      exact nomatch hname
  | cons name names ih =>
    obtain ⟨hnew, hnodup⟩ := List.nodup_cons.mp hnodup
    rw [List.foldlM_cons]
    have hpre (name : List Char) {q : TreePath} (hq : p ++ [name] <+: q) : p <+: q :=
      (List.prefix_append p [name]).trans hq
    have hfirst : Merges source t (p ++ [name] <+: ·)
        (mergeEntry digest out merge source p t name) :=
      merges_mergeEntry (hthere name List.mem_cons_self) hdir (fun q hq => hdigest q (hpre name hq))
        fun t₁ => hmerge t₁ name List.mem_cons_self
    have happart (q : TreePath) (hq : p ++ [name] <+: q) :
        ¬ ∃ other ∈ names, p ++ [other] <+: q := by
      rintro ⟨other, hother, hq'⟩
      have he := List.prefix_of_prefix_length_le hq hq' (by simp)
      have heq : name = other :=
        List.singleton_inj.mp (List.append_inj' (he.eq_of_length (by simp)) rfl).2
      exact hnew (heq ▸ hother)
    refine (hfirst.bind happart fun t₁ ht₁ => ?_).congr fun q => ?_
    · rw [ht₁] at hfirst
      obtain ⟨_, hunion, hkeep⟩ := hfirst
      refine ih hnodup (fun other hother => hthere other (List.mem_cons_of_mem _ hother)) ?_
        (fun q hq => ?_) fun t₂ other hother => hmerge t₂ other (List.mem_cons_of_mem _ hother)
      · rw [hkeep p fun hq => absurd hq.length_le (by simp), hdir]
      · by_cases hbelow : p ++ [name] <+: q
        · intro a b ha hb hab
          rw [hunion q hbelow] at hb
          unfold union at hb
          cases hold : t.node q with
          | none =>
            rw [hold, Option.none_or, ha] at hb
            exact congrArg (fun f => f.content) (Leaf.file.inj (Node.leaf.inj (Option.some.inj hb)))
          | some b' =>
            rw [hold, Option.some_or] at hb
            rw [Option.some.inj hb] at hold
            exact hdigest q hq a b ha hold hab
        · unfold Collisionless
          rw [hkeep q hbelow]
          exact hdigest q hq
    · rw [List.exists_mem_cons_iff]

theorem mem_sortedEntries {p : TreePath} {name : List Char} :
    name ∈ sortedEntries source p ↔ source.node (p ++ [name]) ≠ none := by
  unfold sortedEntries
  rw [(List.perm_insertionSort _ _).mem_iff, FileTree.mem_entries]

theorem nodup_sortedEntries (p : TreePath) : (sortedEntries source p).Nodup :=
  (List.perm_insertionSort _ _).nodup_iff.mpr (source.nodup_entries p)

/-- A directory: with room for the height, the trees are united below it, or differ. -/
theorem merges_mergeFrom {fuel : ℕ} {p : TreePath} (hsource : source.node p = some .dir)
    (ht : t.node p = some .dir) (hfuel : source.height + 1 ≤ fuel + p.length)
    (hdigest : ∀ q, p <+: q → Collisionless digest source t q) :
    Merges source t (p <+: ·) (mergeFrom digest out source fuel t p) := by
  induction fuel generalizing p t with
  | zero =>
    have hlen := source.length_le_height (p := p) (by rw [hsource]; exact Option.some_ne_none _)
    omega
  | succ fuel ih =>
    rw [mergeFrom]
    have hentries : Merges source t (fun q => ∃ name ∈ sortedEntries source p, p ++ [name] <+: q)
        ((sortedEntries source p).foldlM
          (mergeEntry digest out (mergeFrom digest out source fuel) source p) t) := by
      apply merges_entries (nodup_sortedEntries p) (fun name hname => mem_sortedEntries.mp hname)
        ht hdigest
      intro t₁ name _ hdir ht₁ hdigest₁
      apply ih hdir ht₁ ?_ hdigest₁
      rw [List.length_append, List.length_singleton]
      omega
    have hrest (q : TreePath) (hq : p <+: q)
        (hnot : ¬ ∃ name ∈ sortedEntries source p, p ++ [name] <+: q) :
        Same source t q ∧ union source t q = t.node q := by
      obtain ⟨rest, rfl⟩ := hq
      cases rest with
      | nil =>
        rw [List.append_nil]
        refine ⟨fun a b ha hb => ?_, ?_⟩
        · rw [hsource] at ha
          rw [ht] at hb
          rw [← Option.some.inj ha, ← Option.some.inj hb]
        · unfold union
          rw [ht, Option.some_or]
      | cons name rest =>
        have hpre : p ++ [name] <+: p ++ name :: rest := ⟨rest, by simp⟩
        have hnone : source.node (p ++ name :: rest) = none := by
          by_contra hthere
          exact hnot ⟨name, mem_sortedEntries.mpr (source.ne_none_of_prefix hpre hthere), hpre⟩
        refine ⟨fun a b ha _ => ?_, ?_⟩
        · rw [hnone] at ha
          exact nomatch ha
        · unfold union
          rw [hnone, Option.map_none, Option.or_none]
    cases hresult : (sortedEntries source p).foldlM
        (mergeEntry digest out (mergeFrom digest out source fuel) source p) t with
    | error e =>
      rw [hresult] at hentries
      obtain ⟨q, ⟨name, _, hq⟩, hdiffer⟩ := hentries
      exact ⟨q, (List.prefix_append p [name]).trans hq, hdiffer⟩
    | ok t' =>
      rw [hresult] at hentries
      obtain ⟨hsame, hunion, hkeep⟩ := hentries
      refine ⟨fun q hq => ?_, fun q hq => ?_, fun q hq => ?_⟩
      · by_cases hin : ∃ name ∈ sortedEntries source p, p ++ [name] <+: q
        · exact hsame q hin
        · exact (hrest q hq hin).1
      · by_cases hin : ∃ name ∈ sortedEntries source p, p ++ [name] <+: q
        · exact hunion q hin
        · rw [hkeep q hin, (hrest q hq hin).2]
      · apply hkeep
        rintro ⟨name, _, hpre⟩
        exact hq ((List.prefix_append p [name]).trans hpre)

end Payload

/-! ## All payloads -/

/-- The contents of the files. -/
def contents (payloads : List (PayloadTree δ)) : Set δ :=
  {c | ∃ s ∈ payloads, ∃ q mode, s.node q = some (.leaf (.file ⟨c, mode⟩))}

/-- A tree is the union of payloads, in a directory. -/
structure Bundled (payloads : List (PayloadTree δ)) (t : PayloadTree δ) : Prop where
  origin : ∀ q b, t.node q = some b → q = [] ∨ ∃ s ∈ payloads, (s.node q).map merged = some b
  found : ∀ s ∈ payloads, ∀ q a, s.node q = some a → t.node q = some (merged a)

section Bundle

variable {payloads : List (PayloadTree δ)} {source t : PayloadTree δ}

theorem bundled_nil : Bundled [] (FileTree.empty : PayloadTree δ) where
  origin q b hq := by
    unfold FileTree.empty at hq
    dsimp only at hq
    split_ifs at hq with hroot
    exact .inl hroot
  found s hs := nomatch hs

theorem Bundled.same {other : PayloadTree δ} (h : Bundled payloads t) (hs : source ∈ payloads)
    (hother : other ∈ payloads) (q : TreePath) : Same source other q := by
  intro a b ha hb
  have hfound := h.found source hs q a ha
  rw [h.found other hother q b hb] at hfound
  exact (Option.some.inj hfound).symm

/-- What differs from the union differs from one of the payloads. -/
theorem Bundled.exists_differ {q : TreePath} (h : Bundled payloads t) (hq : ¬ Same source t q) :
    ∃ other ∈ payloads, ¬ Same source other q := by
  by_contra hall
  apply hq
  intro a b ha hb
  rcases h.origin q b hb with rfl | ⟨other, hother, hb'⟩
  · rw [source.root] at ha
    rw [t.root] at hb
    rw [← Option.some.inj ha, ← Option.some.inj hb]
  · obtain ⟨b', hnode, rfl⟩ := Option.map_eq_some_iff.mp hb'
    rw [merged_merged]
    by_contra hne
    exact hall ⟨other, hother, fun hsame => hne (hsame a b' ha hnode)⟩

theorem Bundled.collisionless {digest : δ → ε} (h : Bundled payloads t)
    (hdigest : Set.InjOn digest (contents (payloads ++ [source]))) (q : TreePath) :
    Collisionless digest source t q := by
  intro a b ha hb hab
  refine hdigest ⟨source, List.mem_append_right _ (List.mem_singleton_self _), q, a.mode, ha⟩ ?_ hab
  rcases h.origin q _ hb with rfl | ⟨other, hother, hb'⟩
  · rw [t.root] at hb
    exact nomatch hb
  · obtain ⟨b', hnode, hmerged⟩ := Option.map_eq_some_iff.mp hb'
    refine ⟨other, List.mem_append_left _ hother, q, ?_⟩
    match b', hmerged with
    | .leaf (.file f), hmerged =>
      refine ⟨f.mode, ?_⟩
      rw [hnode, ← Leaf.file.inj (Node.leaf.inj hmerged)]

/-- The union with one more payload. -/
theorem Bundled.append {t' : PayloadTree δ} (h : Bundled payloads t)
    (hsame : ∀ q, Same source t q) (hunion : ∀ q, t'.node q = union source t q) :
    Bundled (payloads ++ [source]) t' where
  origin q b hb := by
    rw [hunion q] at hb
    unfold union at hb
    cases hold : t.node q with
    | none =>
      rw [hold, Option.none_or] at hb
      exact .inr ⟨source, List.mem_append_right _ (List.mem_singleton_self _), hb⟩
    | some b' =>
      rw [hold, Option.some_or] at hb
      exact (h.origin q b (hb ▸ hold)).imp_right fun ⟨s, hs, hnode⟩ =>
        ⟨s, List.mem_append_left _ hs, hnode⟩
  found s hs q a ha := by
    rw [hunion q]
    unfold union
    rcases List.mem_append.mp hs with hs | hs
    · rw [h.found s hs q a ha, Option.some_or]
    · rw [List.mem_singleton.mp hs] at ha
      cases hold : t.node q with
      | none => rw [ha, Option.none_or, Option.map_some]
      | some b =>
        rw [Option.some_or]
        rcases h.origin q b hold with rfl | ⟨other, _, hb⟩
        · rw [source.root] at ha
          rw [t.root] at hold
          rw [← Option.some.inj ha, ← Option.some.inj hold]
          rfl
        · obtain ⟨b', _, rfl⟩ := Option.map_eq_some_iff.mp hb
          rw [hsame q a _ ha hold, merged_merged]

variable [DecidableEq ε] {digest : δ → ε} {out : String}

theorem mergePayloads_concat (payloads : List (PayloadTree δ)) (source : PayloadTree δ) :
    mergePayloads digest out (payloads ++ [source]) =
      mergePayloads digest out payloads >>= mergePayload digest out source := by
  unfold mergePayloads
  rw [List.foldlM_append]
  apply congrArg
  funext t
  rw [List.foldlM_cons]
  exact bind_pure _

/-- The payloads are united, or two of them differ. -/
theorem bundled_or_differ (out : String) (payloads : List (PayloadTree δ))
    (hdigest : Set.InjOn digest (contents payloads)) :
    (∃ t, mergePayloads digest out payloads = .ok t ∧ Bundled payloads t) ∨
    ((∃ e, mergePayloads digest out payloads = .error e) ∧
      ∃ s ∈ payloads, ∃ s' ∈ payloads, ∃ q, ¬ Same s s' q) := by
  induction payloads using List.reverseRecOn with
  | nil => exact .inl ⟨FileTree.empty, rfl, bundled_nil⟩
  | append_singleton payloads source ih =>
    have hsub : contents payloads ⊆ contents (payloads ++ [source]) := fun c ⟨s, hs, hc⟩ =>
      ⟨s, List.mem_append_left _ hs, hc⟩
    have hlast : source ∈ payloads ++ [source] :=
      List.mem_append_right _ (List.mem_singleton_self _)
    rw [mergePayloads_concat]
    rcases ih (hdigest.mono hsub) with ⟨t, hrun, hbundled⟩ | ⟨⟨e, hrun⟩, s, hs, s', hs', q, hq⟩
    · have hmerges : Merges source t ([] <+: ·) (mergePayload digest out source t) :=
        merges_mergeFrom source.root t.root (Nat.le_add_right _ _)
          fun q _ => hbundled.collisionless hdigest q
      have hnext : (mergePayloads digest out payloads >>= mergePayload digest out source) =
          mergePayload digest out source t := by
        rw [hrun]
        rfl
      rw [hnext]
      cases hresult : mergePayload digest out source t with
      | ok t' =>
        rw [hresult] at hmerges
        obtain ⟨hsame, hunion, _⟩ := hmerges
        exact .inl ⟨t', rfl, hbundled.append (fun q => hsame q List.nil_prefix)
          fun q => hunion q List.nil_prefix⟩
      | error e =>
        rw [hresult] at hmerges
        obtain ⟨q, _, hq⟩ := hmerges
        obtain ⟨other, hother, hdiffer⟩ := hbundled.exists_differ hq
        exact .inr ⟨⟨e, rfl⟩, source, hlast, other, List.mem_append_left _ hother, q, hdiffer⟩
    · rw [hrun]
      exact .inr ⟨⟨e, rfl⟩, s, List.mem_append_left _ hs, s', List.mem_append_left _ hs', q, hq⟩

theorem Bundled.unique {t' : PayloadTree δ} {other : List (PayloadTree δ)}
    (h : Bundled payloads t) (h' : Bundled other t') (hmem : ∀ s, s ∈ payloads ↔ s ∈ other) :
    t.node = t'.node := by
  funext q
  by_cases hroot : q = []
  · rw [hroot, t.root, t'.root]
  · have hof (u u' : PayloadTree δ) (xs ys : List (PayloadTree δ)) (hu : Bundled xs u)
        (hu' : Bundled ys u') (hsub : ∀ s ∈ xs, s ∈ ys) (b : Node (Leaf (PayloadFile δ)))
        (hb : u.node q = some b) : u'.node q = some b := by
      obtain ⟨s, hs, hnode⟩ := (hu.origin q b hb).resolve_left hroot
      obtain ⟨a, ha, rfl⟩ := Option.map_eq_some_iff.mp hnode
      exact hu'.found s (hsub s hs) q a ha
    cases ht : t.node q with
    | some b => exact (hof t t' _ _ h h' (fun s hs => (hmem s).mp hs) b ht).symm
    | none =>
      cases ht' : t'.node q with
      | none => rfl
      | some b =>
        rw [hof t' t _ _ h' h (fun s hs => (hmem s).mpr hs) b ht'] at ht
        exact nomatch ht

/-- Both merges raise, or both give the same tree. -/
def SameOutcome : Except String (PayloadTree δ) → Except String (PayloadTree δ) → Prop
  | .ok t, .ok t' => t.node = t'.node
  | .error _, .error _ => True
  | _, _ => False

/-- The bundle is the union of the payloads, in any order; and there is none just when two of
    them differ. -/
theorem mergePayloads_union {payloads : List (PayloadTree δ)}
    (hdigest : Set.InjOn digest (contents payloads)) :
    (∀ other : List (PayloadTree δ), other.Perm payloads →
      SameOutcome (mergePayloads digest out payloads) (mergePayloads digest out other)) ∧
    ((∃ e, mergePayloads digest out payloads = .error e) ↔
      ∃ s ∈ payloads, ∃ s' ∈ payloads, ∃ q, ¬ Same s s' q) ∧
    ∀ t, mergePayloads digest out payloads = .ok t → ∀ q,
      (t.node q ≠ none ↔ q = [] ∨ ∃ s ∈ payloads, s.node q ≠ none) ∧
      ∀ s ∈ payloads, ∀ a, s.node q = some a → t.node q = some (merged a) := by
  refine ⟨fun other hperm => ?_, ⟨fun ⟨e, he⟩ => ?_, fun ⟨s, hs, s', hs', q, hq⟩ => ?_⟩,
    fun t ht q => ?_⟩
  · have hcontents : contents other = contents payloads := by
      unfold contents
      simp only [hperm.mem_iff]
    rcases bundled_or_differ out payloads hdigest with
      ⟨t, hrun, hbundled⟩ | ⟨⟨e, hrun⟩, s, hs, s', hs', q, hq⟩ <;>
    rcases bundled_or_differ out other (hcontents ▸ hdigest) with
      ⟨t', hrun', hbundled'⟩ | ⟨⟨e', hrun'⟩, u, hu, u', hu', q', hq'⟩
    · rw [hrun, hrun']
      exact hbundled.unique hbundled' fun s => hperm.mem_iff.symm
    · exact absurd (hbundled.same (hperm.mem_iff.mp hu) (hperm.mem_iff.mp hu') q') hq'
    · exact absurd (hbundled'.same (hperm.mem_iff.mpr hs) (hperm.mem_iff.mpr hs') q) hq
    · rw [hrun, hrun']
      trivial
  · rcases bundled_or_differ out payloads hdigest with ⟨t, hrun, _⟩ | ⟨_, hdiffer⟩
    · rw [hrun] at he
      exact nomatch he
    · exact hdiffer
  · rcases bundled_or_differ out payloads hdigest with ⟨t, _, hbundled⟩ | ⟨hrun, _⟩
    · exact absurd (hbundled.same hs hs' q) hq
    · exact hrun
  · rcases bundled_or_differ out payloads hdigest with ⟨t', hrun, hbundled⟩ | ⟨⟨e, hrun⟩, _⟩
    · obtain rfl : t' = t := Except.ok.inj (hrun.symm.trans ht)
      refine ⟨⟨fun hthere => ?_, fun hthere => ?_⟩, fun s hs a => hbundled.found s hs q a⟩
      · obtain ⟨b, hb⟩ := Option.ne_none_iff_exists'.mp hthere
        refine (hbundled.origin q b hb).imp_right fun ⟨s, hs, hnode⟩ => ⟨s, hs, fun hnone => ?_⟩
        rw [hnone] at hnode
        exact nomatch hnode
      · rcases hthere with rfl | ⟨s, hs, hnode⟩
        · rw [t'.root]
          exact Option.some_ne_none _
        · obtain ⟨a, ha⟩ := Option.ne_none_iff_exists'.mp hnode
          rw [hbundled.found s hs q a ha]
          exact Option.some_ne_none _
    · rw [hrun] at ht
      exact nomatch ht

end Bundle

section Examples

/-- A payload with one library. -/
def libraryPayload (mode : ℕ) : PayloadTree ℕ :=
  .ofEntries [([], "lib".toList, .dir), (["lib".toList], "lib.a".toList, .leaf (.file ⟨0, mode⟩))]

/-- One with the same library, a link to it and a program. -/
def programPayload : PayloadTree ℕ :=
  .ofEntries [([], "bin".toList, .dir), (["bin".toList], "tool".toList, .leaf (.file ⟨1, 0o755⟩)),
    ([], "lib".toList, .dir), (["lib".toList], "lib.a".toList, .leaf (.file ⟨0, 0o644⟩)),
    (["lib".toList], "lib.so".toList, .leaf (.link "lib.a".toList))]

/-- Payloads that share a library are merged, in either order, and ones that give it different
    permissions are not. -/
theorem mergePayloads_libraries :
    (∃ t t', mergePayloads id "/out" [libraryPayload 0o644, programPayload] = .ok t ∧
      mergePayloads id "/out" [programPayload, libraryPayload 0o644] = .ok t' ∧
      t.node = t'.node ∧ ∀ q, t.node q ≠ none ↔
        q = [] ∨ ∃ s ∈ [libraryPayload 0o644, programPayload], s.node q ≠ none) ∧
    ∃ e, mergePayloads id "/out" [libraryPayload 0o600, programPayload] = .error e := by
  constructor
  · obtain ⟨horder, _, hunion⟩ := @mergePayloads_union ℕ ℕ _ id "/out"
      [libraryPayload 0o644, programPayload] (Set.injOn_id _)
    have hsame := horder [programPayload, libraryPayload 0o644] (List.Perm.swap ..)
    have hmerged : (mergePayloads id "/out" [libraryPayload 0o644, programPayload]).isOk = true :=
      rfl
    cases hrun : mergePayloads id "/out" [libraryPayload 0o644, programPayload] with
    | error e =>
      rw [hrun] at hmerged
      cases hmerged
    | ok t =>
      cases hrun' : mergePayloads id "/out" [programPayload, libraryPayload 0o644] with
      | error e =>
        rw [hrun, hrun'] at hsame
        exact hsame.elim
      | ok t' =>
        rw [hrun, hrun'] at hsame
        exact ⟨t, t', rfl, rfl, hsame, fun q => (hunion t hrun q).1⟩
  · obtain ⟨_, hraises, _⟩ := @mergePayloads_union ℕ ℕ _ id "/out"
      [libraryPayload 0o600, programPayload] (Set.injOn_id _)
    refine hraises.mpr ⟨libraryPayload 0o600, List.mem_cons_self, programPayload,
      List.mem_cons_of_mem _ List.mem_cons_self, ["lib".toList, "lib.a".toList], fun hsame => ?_⟩
    have hmodes := hsame (.leaf (.file ⟨0, 0o600⟩)) (.leaf (.file ⟨0, 0o644⟩)) rfl rfl
    have hfiles := Leaf.file.inj (Node.leaf.inj hmodes)
    exact absurd (congrArg PayloadFile.mode hfiles) (by decide)

/-- A program that is set-user-id is not in the bundle. -/
theorem mergePayloads_setuid :
    ¬ ∀ (payloads : List (PayloadTree ℕ)) (t : PayloadTree ℕ),
      mergePayloads id "/out" payloads = .ok t →
      ∀ s ∈ payloads, ∀ q a, s.node q = some a → t.node q = some a := by
  intro h
  have hmode : (mergePayloads id "/out" [libraryPayload 0o4755]).map
      (fun t => t.node ["lib".toList, "lib.a".toList]) =
      .ok (some (.leaf (.file ⟨0, 0o755⟩))) := rfl
  cases hrun : mergePayloads id "/out" [libraryPayload 0o4755] with
  | error e =>
    rw [hrun] at hmode
    exact nomatch hmode
  | ok t =>
    have hfile := h _ t hrun (libraryPayload 0o4755) (List.mem_singleton_self _)
      ["lib".toList, "lib.a".toList] (.leaf (.file ⟨0, 0o4755⟩)) rfl
    rw [hrun] at hmode
    have hmode' := Except.ok.inj hmode
    dsimp only at hmode'
    rw [hfile] at hmode'
    have hsame := Leaf.file.inj (Node.leaf.inj (Option.some.inj hmode'))
    exact absurd (congrArg PayloadFile.mode hsame) (by decide)

end Examples

end BuckosDistro.Payload
