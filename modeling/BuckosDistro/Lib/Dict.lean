/-
  Python dictionaries as association lists.

  The first binding of a key is the one in force, so a list with repeated keys stands
  for the dictionary that keeps the first of them. Lookups are all the solver's
  algorithms ask of a dictionary; `keys` is for the loops over one.
-/
import BuckosDistro.Lib.PyText

namespace BuckosDistro.Lib

/-- A dictionary from `α` to `β`. -/
structure Dict (α β : Type) where
  items : List (α × β)
deriving DecidableEq, Repr

namespace Dict

variable {α β : Type} [DecidableEq α]

/-- `d.get(key)` -/
def get? (d : Dict α β) (key : α) : Option β := d.items.lookup key

/-- `d.get(key, default)` -/
def getD (d : Dict α β) (key : α) (default : β) : β := (d.get? key).getD default

/-- The keys, in order. -/
def keys (d : Dict α β) : List α := d.items.map Prod.fst

/-- `{}` -/
def empty : Dict α β := ⟨[]⟩

/-- `{key: value}` -/
def single (key : α) (value : β) : Dict α β := ⟨[(key, value)]⟩

/-- `d[key] = value`: in place when the key is there, at the end when it is new. -/
def set (d : Dict α β) (key : α) (value : β) : Dict α β :=
  if key ∈ d.keys then
    ⟨d.items.map fun item => if item.1 = key then (key, value) else item⟩
  else ⟨d.items ++ [(key, value)]⟩

/-- `d.setdefault(key, value)` -/
def setDefault (d : Dict α β) (key : α) (value : β) : Dict α β :=
  if key ∈ d.keys then d else ⟨d.items ++ [(key, value)]⟩

/-- `d.setdefault(key, []).append(value)` -/
def append (d : Dict α (List β)) (key : α) (value : β) : Dict α (List β) :=
  d.set key (d.getD key [] ++ [value])

/-- `{key: f(key, value) for key, value in d.items()}`, without the entries `f` leaves out. -/
def filterMap {γ : Type} (f : α → β → Option γ) (d : Dict α β) : Dict α γ :=
  ⟨d.items.filterMap fun item => (f item.1 item.2).map (Prod.mk item.1)⟩

/-- `del d[key]` -/
def erase (d : Dict α β) (key : α) : Dict α β := ⟨d.items.filter fun item => item.1 ≠ key⟩

/-- `{key: value for key, value in d.items() if keep(key)}` -/
def restrict (d : Dict α β) (keep : α → Bool) : Dict α β :=
  ⟨d.items.filter fun item => keep item.1⟩

/-- `d.update(d')` -/
def update (d d' : Dict α β) : Dict α β :=
  d'.items.foldl (fun d item => d.set item.1 item.2) d

/-- `{key: value(key) for key in keys}` -/
def ofKeys (keys : List α) (value : α → β) : Dict α β := ⟨keys.map fun key => (key, value key)⟩

@[simp] theorem get?_empty (key : α) : (empty : Dict α β).get? key = none := rfl

@[simp] theorem get?_single_self (key : α) (value : β) :
    (single key value).get? key = some value := by
  simp [get?, single]

theorem get?_single_of_ne {key other : α} (value : β) (h : other ≠ key) :
    (single key value).get? other = none := by
  simp [get?, single, h]

theorem mem_items_of_get? {d : Dict α β} {key : α} {value : β}
    (h : d.get? key = some value) : (key, value) ∈ d.items := by
  obtain ⟨l₁, l₂, hl, _⟩ := List.lookup_eq_some_iff.mp h
  rw [hl]
  simp

theorem getD_eq_of_get? {d : Dict α β} {key : α} {value : β} (default : β)
    (h : d.get? key = some value) : d.getD key default = value := by
  simp [getD, h]

theorem get?_ofKeys {keys : List α} {key : α} (value : α → β) (h : key ∈ keys) :
    (ofKeys keys value).get? key = some (value key) := by
  unfold ofKeys get?
  induction keys with
  | nil => cases h
  | cons k ks ih =>
    by_cases hk : key = k
    · simp [hk]
    · rw [List.map_cons, List.lookup_cons, beq_false_of_ne hk]
      exact ih (List.mem_of_ne_of_mem hk h)

theorem get?_ofKeys_of_notMem {keys : List α} {key : α} (value : α → β) (h : key ∉ keys) :
    (ofKeys keys value).get? key = none := by
  unfold ofKeys get?
  rw [List.lookup_eq_none_iff]
  intro item hitem
  obtain ⟨k, hk, rfl⟩ := List.mem_map.mp hitem
  exact bne_iff_ne.mpr fun he => h (he ▸ hk)

theorem get?_filterMap {keys : List α} (f : α → Option β) {key : α}
    (h : key ∉ keys → f key = none) :
    (⟨keys.filterMap fun k => (f k).map (Prod.mk k)⟩ : Dict α β).get? key = f key := by
  unfold get?
  induction keys with
  | nil => simp [h]
  | cons k ks ih =>
    by_cases hk : key = k
    · subst hk
      rw [List.filterMap_cons]
      cases hf : f key with
      | none =>
        rw [Option.map_none, ← hf]
        exact ih fun _ => hf
      | some value => simp
    · have hih := ih fun hks => h fun hmem => by
        rcases List.mem_cons.mp hmem with hmem | hmem
        · exact hk hmem
        · exact hks hmem
      rw [List.filterMap_cons]
      cases f k with
      | none => exact hih
      | some value =>
        rw [Option.map_some]
        dsimp only
        rw [List.lookup_cons, beq_false_of_ne hk]
        exact hih

/-! ## Assignment -/

section Set

variable {γ : Type}

theorem lookup_map_set (items : List (α × β)) (key : α) (value : β) (other : α) :
    (items.map fun item => if item.1 = key then (key, value) else item).lookup other =
      if other = key ∧ key ∈ items.map Prod.fst then some value else items.lookup other := by
  induction items with
  | nil => simp
  | cons item items ih =>
    obtain ⟨k, v⟩ := item
    by_cases hk : k = key
    · subst hk
      by_cases ho : other = k
      · simp [ho]
      · simp [ho, List.lookup_cons, beq_false_of_ne ho, ih]
    · by_cases ho : other = k
      · subst ho
        simp [hk]
      · have hmem : other = key → (key ∈ List.map Prod.fst ((k, v) :: items) ↔
            key ∈ List.map Prod.fst items) := by simp [Ne.symm hk]
        simp only [List.map_cons, hk, if_false, List.lookup_cons, beq_false_of_ne ho, ih]
        grind

theorem mem_keys_iff {d : Dict α β} {key : α} : key ∈ d.keys ↔ (d.get? key).isSome := by
  unfold keys get?
  induction d.items with
  | nil => simp
  | cons item items ih =>
    obtain ⟨k, v⟩ := item
    by_cases hk : key = k
    · simp [hk]
    · simp [List.lookup_cons, beq_false_of_ne hk, ih, hk]

@[simp] theorem get?_set (d : Dict α β) (key : α) (value : β) (other : α) :
    (d.set key value).get? other = if other = key then some value else d.get? other := by
  unfold set
  split_ifs with h1 h2 h2
  · simp only [get?, lookup_map_set]
    rw [if_pos ⟨h2, h1⟩]
  · simp only [get?, lookup_map_set]
    rw [if_neg fun h => h2 h.1]
  · have hn : d.get? key = none := by
      have := mt mem_keys_iff.mpr h1
      rwa [Bool.not_eq_true, Option.isSome_eq_false_iff, Option.isNone_iff_eq_none] at this
    unfold get? at hn
    simp [get?, List.lookup_append, hn, h2]
  · simp [get?, List.lookup_append, List.lookup_cons, beq_false_of_ne h2]

theorem get?_restrict (d : Dict α β) (keep : α → Bool) (key : α) :
    (d.restrict keep).get? key = if keep key then d.get? key else none := by
  unfold restrict get?
  induction d.items with
  | nil => simp
  | cons item items ih =>
    obtain ⟨k, v⟩ := item
    by_cases hkey : key = k
    · subst hkey
      cases hk : keep key with
      | true => rw [List.filter_cons_of_pos (by exact hk)]; simp
      | false => rw [List.filter_cons_of_neg (by simp [hk]), ih, hk]; simp
    · have hskip : ∀ rest : List (α × β), List.lookup key ((k, v) :: rest) = rest.lookup key := by
        intro rest
        rw [List.lookup_cons, beq_false_of_ne hkey]
      rw [hskip, ← ih, List.filter_cons]
      dsimp only
      split_ifs
      · rw [hskip]
      · rfl

@[simp] theorem get?_erase (d : Dict α β) (key other : α) :
    (d.erase key).get? other = if other = key then none else d.get? other := by
  have herase : d.erase key = d.restrict fun k => k ≠ key := rfl
  rw [herase, get?_restrict]
  by_cases h : other = key <;> simp [h]

theorem keys_set (d : Dict α β) (key : α) (value : β) :
    (d.set key value).keys = if key ∈ d.keys then d.keys else d.keys ++ [key] := by
  unfold set
  split_ifs with h
  · simp only [keys, List.map_map]
    refine List.map_congr_left fun item _ => ?_
    by_cases hk : item.1 = key <;> simp [hk]
  · simp [keys]

theorem items_set_of_none {d : Dict α β} {key : α} {value : β} (h : d.get? key = none) :
    (d.set key value).items = d.items ++ [(key, value)] := by
  have hn : key ∉ d.keys := by
    rw [mem_keys_iff, h]
    exact Bool.false_ne_true
  unfold set
  rw [if_neg hn]

theorem nodup_keys_set {d : Dict α β} (h : d.keys.Nodup) (key : α) (value : β) :
    (d.set key value).keys.Nodup := by
  rw [keys_set]
  split_ifs with hk
  · exact h
  · simpa [List.nodup_append, h] using fun k hm (he : k = key) => hk (he ▸ hm)

theorem mem_items_set {d : Dict α β} {key : α} {value : β} {item : α × β}
    (h : item ∈ (d.set key value).items) : item = (key, value) ∨ item ∈ d.items := by
  unfold set at h
  split_ifs at h
  · obtain ⟨old, hold, rfl⟩ := List.mem_map.mp h
    split_ifs
    · exact Or.inl rfl
    · exact Or.inr hold
  · obtain h | h := List.mem_append.mp h
    · exact Or.inr h
    · exact Or.inl (List.mem_singleton.mp h)

/-- A key that is set twice has the second value, in its place. -/
theorem set_set (d : Dict α β) (key : α) (value value' : β) :
    (d.set key value).set key value' = d.set key value' := by
  have hmem : key ∈ (d.set key value).keys := by
    rw [keys_set]
    split_ifs with h
    · exact h
    · exact List.mem_append_right _ (List.mem_singleton.mpr rfl)
  rw [set, if_pos hmem, set, set]
  split_ifs with h
  · rw [List.map_map]
    refine congrArg mk (List.map_congr_left fun item _ => ?_)
    by_cases hk : item.1 = key <;> simp [hk]
  · have hkeep : ∀ item ∈ d.items,
        (if item.1 = key then (key, value') else item) = id item := by
      intro item hitem
      refine if_neg fun he : item.1 = key => h ?_
      rw [← he]
      exact List.mem_map_of_mem hitem
    rw [List.map_append, List.map_congr_left hkeep, List.map_id, List.map_singleton, if_pos rfl]

theorem getD_set_self (d : Dict α β) (key : α) (value default : β) :
    (d.set key value).getD key default = value := by
  apply getD_eq_of_get?
  rw [get?_set, if_pos rfl]

/-- `{key: f(value) for key, value in d.items()}` -/
def mapValues (f : β → γ) (d : Dict α β) : Dict α γ := ⟨d.items.map fun item => (item.1, f item.2)⟩

omit [DecidableEq α] in
theorem keys_mapValues (f : β → γ) (d : Dict α β) : (d.mapValues f).keys = d.keys := by
  unfold mapValues keys
  rw [List.map_map]
  rfl

theorem get?_mapValues (f : β → γ) (d : Dict α β) (key : α) :
    (d.mapValues f).get? key = (d.get? key).map f := by
  unfold mapValues get?
  induction d.items with
  | nil => rfl
  | cons item items ih =>
    rw [List.map_cons, List.lookup_cons, List.lookup_cons, ih]
    split <;> rfl

theorem mapValues_set (f : β → γ) (d : Dict α β) (key : α) (value : β) :
    (d.set key value).mapValues f = (d.mapValues f).set key (f value) := by
  unfold set
  rw [keys_mapValues]
  unfold mapValues
  split_ifs with h
  · rw [List.map_map, List.map_map]
    refine congrArg mk (List.map_congr_left fun item _ => ?_)
    by_cases hk : item.1 = key <;> simp [hk]
  · rw [List.map_append]
    rfl

/-- A loop over distinct keys that assigns each one from what is there. -/
theorem get?_foldl_set (f : β → Option γ → γ) (items : List (α × β))
    (h : (items.map Prod.fst).Nodup) (d : Dict α γ) (key : α) :
    (items.foldl (fun d item => d.set item.1 (f item.2 (d.get? item.1))) d).get? key =
      match items.lookup key with
      | none => d.get? key
      | some value => some (f value (d.get? key)) := by
  induction items generalizing d with
  | nil => rfl
  | cons item items ih =>
    obtain ⟨k, v⟩ := item
    rw [List.map_cons, List.nodup_cons] at h
    rw [List.foldl_cons, ih h.2, get?_set]
    by_cases hk : key = k
    · have hn : items.lookup key = none := by
        rw [List.lookup_eq_none_iff]
        intro p hp
        simp only [bne_iff_ne]
        intro he
        exact h.1 (List.mem_map.mpr ⟨p, hp, by rw [← he, hk]⟩)
      rw [hn, List.lookup_cons, beq_iff_eq.mpr hk]
      simp [hk]
    · rw [List.lookup_cons, beq_false_of_ne hk, if_neg hk]

/-- What is updated wins. -/
theorem get?_update {d' : Dict α β} (h : d'.keys.Nodup) (d : Dict α β) (key : α) :
    (d.update d').get? key = (d'.get? key).or (d.get? key) := by
  unfold update
  rw [get?_foldl_set (fun value _ => value) d'.items h d key]
  unfold get?
  cases d'.items.lookup key <;> rfl

theorem get?_setDefault (d : Dict α β) (key : α) (value : β) (other : α) :
    (d.setDefault key value).get? other =
      (d.get? other).or (if other = key then some value else none) := by
  have hset : (d.setDefault key value).get? other =
      if key ∈ d.keys then d.get? other else (d.set key value).get? other := by
    unfold setDefault set
    split_ifs <;> rfl
  rw [hset, get?_set]
  split_ifs with hk ho ho
  · subst ho
    obtain ⟨v, hv⟩ := Option.isSome_iff_exists.mp (mem_keys_iff.mp hk)
    rw [hv]
    rfl
  · rw [Option.or_none]
  · subst ho
    rw [mem_keys_iff, Bool.not_eq_true, Option.isSome_eq_false_iff,
      Option.isNone_iff_eq_none] at hk
    rw [hk]
    rfl
  · rw [Option.or_none]

theorem nodup_keys_setDefault {d : Dict α β} (h : d.keys.Nodup) (key : α) (value : β) :
    (d.setDefault key value).keys.Nodup := by
  unfold setDefault
  split_ifs with hk
  · exact h
  · have hkeys : (⟨d.items ++ [(key, value)]⟩ : Dict α β).keys = d.keys ++ [key] := by
      simp [keys]
    rw [hkeys]
    exact List.nodup_append.mpr ⟨h, List.nodup_singleton key, fun k hm k' hm' he =>
      hk (by rwa [← List.mem_singleton.mp hm', ← he])⟩

/-- A loop of `setdefault` fills only the empty slots. -/
theorem get?_foldl_setDefault (items : List (α × β)) (d : Dict α β) (key : α) :
    (items.foldl (fun d item => d.setDefault item.1 item.2) d).get? key =
      (d.get? key).or ((⟨items⟩ : Dict α β).get? key) := by
  induction items generalizing d with
  | nil => exact (Option.or_none).symm
  | cons item items ih =>
    obtain ⟨k, v⟩ := item
    rw [List.foldl_cons, ih, get?_setDefault, Option.or_assoc]
    unfold get?
    rw [List.lookup_cons]
    by_cases hk : key = k
    · rw [if_pos hk, beq_iff_eq.mpr hk]
      rfl
    · rw [if_neg hk, beq_false_of_ne hk]
      rfl

omit [DecidableEq α] in
theorem nodup_keys_foldl {δ : Type} (step : Dict α β → δ → Dict α β)
    (hstep : ∀ d x, d.keys.Nodup → (step d x).keys.Nodup) (xs : List δ) {d : Dict α β}
    (h : d.keys.Nodup) : (xs.foldl step d).keys.Nodup := by
  induction xs generalizing d with
  | nil => exact h
  | cons x xs ih => exact ih (hstep d x h)

end Set

/-! ## Distinct keys -/

section Nodup

variable {γ : Type}

theorem get?_filterMap_items {d : Dict α β} (h : d.keys.Nodup) (f : α → β → Option γ) (key : α) :
    (d.filterMap f).get? key = (d.get? key).bind (f key) := by
  obtain ⟨items⟩ := d
  unfold filterMap get?
  unfold keys at h
  dsimp only at h ⊢
  induction items with
  | nil => rfl
  | cons item items ih =>
    obtain ⟨k, v⟩ := item
    rw [List.map_cons, List.nodup_cons] at h
    have hih := ih h.2
    rw [List.filterMap_cons]
    by_cases hk : key = k
    · subst hk
      have hn : items.lookup key = none := by
        rw [List.lookup_eq_none_iff]
        intro p hp
        rw [bne_iff_ne]
        intro he
        exact h.1 (List.mem_map.mpr ⟨p, hp, he.symm⟩)
      rw [hn, Option.bind_none] at hih
      dsimp only
      rw [List.lookup_cons_self, Option.bind_some]
      cases hf : f key v with
      | none => exact hih
      | some w =>
        rw [Option.map_some]
        exact List.lookup_cons_self
    · rw [List.lookup_cons, beq_false_of_ne hk]
      dsimp only
      cases f k v with
      | none => exact hih
      | some w =>
        rw [Option.map_some]
        dsimp only
        rw [List.lookup_cons, beq_false_of_ne hk]
        exact hih

theorem mem_items_iff {d : Dict α β} (h : d.keys.Nodup) {key : α} {value : β} :
    (key, value) ∈ d.items ↔ d.get? key = some value := by
  refine ⟨fun hmem => ?_, mem_items_of_get?⟩
  obtain ⟨items⟩ := d
  unfold keys at h
  unfold get?
  dsimp only at h hmem ⊢
  induction items with
  | nil => cases hmem
  | cons item items ih =>
    obtain ⟨k, v⟩ := item
    rw [List.map_cons, List.nodup_cons] at h
    rcases List.mem_cons.mp hmem with heq | hrest
    · obtain ⟨rfl, rfl⟩ := Prod.mk.inj heq
      exact List.lookup_cons_self
    · have hne : key ≠ k := fun he => h.1 (he ▸ List.mem_map.mpr ⟨_, hrest, rfl⟩)
      rw [List.lookup_cons, beq_false_of_ne hne]
      exact ih h.2 hrest

/-- Dictionaries that answer alike have the same entries. -/
theorem items_perm {d d' : Dict α β} (h : d.keys.Nodup) (h' : d'.keys.Nodup)
    (heq : ∀ key, d.get? key = d'.get? key) : d.items.Perm d'.items := by
  refine (List.perm_ext_iff_of_nodup (List.Nodup.of_map _ h) (List.Nodup.of_map _ h')).mpr ?_
  rintro ⟨key, value⟩
  rw [mem_items_iff h, mem_items_iff h', heq]

end Nodup

/-! ## Grouping -/

section Group

/-- The lists a loop of `append` builds. -/
def group (pairs : List (α × β)) : Dict α (List β) :=
  pairs.foldl (fun d pair => d.append pair.1 pair.2) empty

/-- The values a list of pairs has for a key. -/
def valuesAt (pairs : List (α × β)) (key : α) : List β :=
  (pairs.filter fun pair => pair.1 = key).map Prod.snd

theorem mem_valuesAt {pairs : List (α × β)} {key : α} {value : β} :
    value ∈ valuesAt pairs key ↔ (key, value) ∈ pairs := by
  simp [valuesAt]

theorem get?_foldl_append (pairs : List (α × β)) (d : Dict α (List β)) (key : α) :
    (pairs.foldl (fun d pair => d.append pair.1 pair.2) d).get? key =
      if valuesAt pairs key = [] then d.get? key
      else some (d.getD key [] ++ valuesAt pairs key) := by
  induction pairs generalizing d with
  | nil => rfl
  | cons pair pairs ih =>
    obtain ⟨k, v⟩ := pair
    rw [List.foldl_cons, ih]
    by_cases hk : key = k
    · subst hk
      have hcons : valuesAt ((key, v) :: pairs) key = v :: valuesAt pairs key := by
        simp [valuesAt]
      have hd : (d.append key v).get? key = some (d.getD key [] ++ [v]) := by
        simp [append]
      rw [hcons, getD_eq_of_get? [] hd, hd, if_neg (List.cons_ne_nil _ _)]
      split_ifs with hn
      · rw [hn]
      · rw [List.append_assoc, List.singleton_append]
    · have hcons : valuesAt ((k, v) :: pairs) key = valuesAt pairs key := by
        simp [valuesAt, Ne.symm hk]
      have hd : (d.append k v).get? key = d.get? key := by
        simp [append, hk]
      unfold getD
      rw [hcons, hd]

theorem get?_group (pairs : List (α × β)) (key : α) :
    (group pairs).get? key =
      if valuesAt pairs key = [] then none else some (valuesAt pairs key) := by
  unfold group
  rw [get?_foldl_append]
  rfl

theorem nodup_group (pairs : List (α × β)) : (group pairs).keys.Nodup :=
  nodup_keys_foldl _ (fun _ _ h => nodup_keys_set h _ _) pairs List.nodup_nil

theorem valuesAt_cons (pair : α × β) (pairs : List (α × β)) (key : α) :
    valuesAt (pair :: pairs) key =
      if pair.1 = key then pair.2 :: valuesAt pairs key else valuesAt pairs key := by
  unfold valuesAt
  rw [List.filter_cons]
  by_cases hk : pair.1 = key <;> simp [hk]

/-- Pairs that are the entries of a dictionary. -/
theorem getLast?_valuesAt {pairs : List (α × β)} {d : Dict α β}
    (h : ∀ pair, pair ∈ pairs ↔ d.get? pair.1 = some pair.2) (key : α) :
    (valuesAt pairs key).getLast? = d.get? key := by
  cases hlast : (valuesAt pairs key).getLast? with
  | some value => exact ((h (key, value)).mp (mem_valuesAt.mp (List.mem_of_getLast? hlast))).symm
  | none =>
    cases hget : d.get? key with
    | none => rfl
    | some value =>
      have hmem : value ∈ valuesAt pairs key := mem_valuesAt.mpr ((h (key, value)).mpr hget)
      rw [List.getLast?_eq_none_iff.mp hlast] at hmem
      cases hmem

/-- A loop that assigns each pair: the last one with a key counts. -/
theorem get?_foldl_pairs (pairs : List (α × β)) (d : Dict α β) (key : α) :
    (pairs.foldl (fun d pair => d.set pair.1 pair.2) d).get? key =
      (valuesAt pairs key).getLast?.or (d.get? key) := by
  induction pairs generalizing d with
  | nil => rfl
  | cons pair pairs ih =>
    rw [List.foldl_cons, ih, get?_set, valuesAt_cons]
    by_cases hk : pair.1 = key
    · rw [if_pos hk.symm, if_pos hk, List.getLast?_cons]
      cases (valuesAt pairs key).getLast? <;> rfl
    · rw [if_neg (Ne.symm hk), if_neg hk]

/-- A table of entries by a key of theirs: the last one with a key counts. -/
theorem get?_foldl_entries {δ : Type} (key : δ → α) (value : δ → β) (entries : List δ) (k : α) :
    (entries.foldl (fun d entry => d.set (key entry) (value entry)) empty).get? k =
      (valuesAt (entries.map fun entry => (key entry, value entry)) k).getLast? := by
  have hpairs : entries.foldl (fun d entry => d.set (key entry) (value entry)) empty =
      (entries.map fun entry => (key entry, value entry)).foldl
        (fun d pair => d.set pair.1 pair.2) empty := by
    rw [List.foldl_map]
  rw [hpairs, get?_foldl_pairs, get?_empty, Option.or_none]

/-- What a table of entries finds is one of them. -/
theorem mem_of_get?_foldl {δ : Type} {key : δ → α} {value : δ → β} {entries : List δ} {k : α}
    {v : β} (h : (entries.foldl (fun d entry => d.set (key entry) (value entry)) empty).get? k =
      some v) : ∃ entry ∈ entries, key entry = k ∧ value entry = v := by
  rw [get?_foldl_entries] at h
  obtain ⟨entry, hentry, heq⟩ := List.mem_map.mp (mem_valuesAt.mp (List.mem_of_getLast? h))
  obtain ⟨hkey, hvalue⟩ := Prod.mk.inj heq
  exact ⟨entry, hentry, hkey, hvalue⟩

/-- A table of entries finds something for each of them. -/
theorem exists_get?_foldl {δ : Type} (key : δ → α) (value : δ → β) {entries : List δ} {entry : δ}
    (h : entry ∈ entries) :
    ∃ v, (entries.foldl (fun d entry => d.set (key entry) (value entry)) empty).get?
      (key entry) = some v := by
  rw [get?_foldl_entries, ← Option.isSome_iff_exists, List.getLast?_isSome]
  exact List.ne_nil_of_mem (mem_valuesAt.mpr (List.mem_map.mpr ⟨entry, h, rfl⟩))

/-- A loop of `d.setdefault(key, {})[inner] = value`. -/
theorem get?_foldl_inner {ι : Type} [DecidableEq ι] (entries : List (α × ι × β))
    (d : Dict α (Dict ι β)) (key : α) (inner : ι) :
    ((entries.foldl (fun d entry => d.set entry.1
      ((d.getD entry.1 empty).set entry.2.1 entry.2.2)) d).getD key empty).get? inner =
      (valuesAt (valuesAt entries key) inner).getLast?.or ((d.getD key empty).get? inner) := by
  induction entries generalizing d with
  | nil => rfl
  | cons entry entries ih =>
    rw [List.foldl_cons, ih, valuesAt_cons]
    unfold getD
    rw [get?_set]
    by_cases hk : entry.1 = key
    · rw [if_pos hk.symm, if_pos hk, Option.getD_some, valuesAt_cons, get?_set, ← hk]
      by_cases hi : entry.2.1 = inner
      · rw [if_pos hi.symm, if_pos hi, List.getLast?_cons]
        cases (valuesAt (valuesAt entries entry.1) inner).getLast? <;> rfl
      · rw [if_neg (Ne.symm hi), if_neg hi]
    · rw [if_neg (Ne.symm hk), if_neg hk]

/-- A loop of `d.setdefault(key, [])` and `d[key] += values`. -/
theorem get?_foldl_extend (pairs : List (α × List β)) (d : Dict α (List β)) (key : α) :
    (pairs.foldl (fun d pair => d.set pair.1 (d.getD pair.1 [] ++ pair.2)) d).get? key =
      if valuesAt pairs key = [] then d.get? key
      else some (d.getD key [] ++ (valuesAt pairs key).flatten) := by
  induction pairs generalizing d with
  | nil => rfl
  | cons pair pairs ih =>
    rw [List.foldl_cons, ih, valuesAt_cons]
    unfold getD
    rw [get?_set]
    by_cases hk : pair.1 = key
    · rw [if_pos hk.symm, if_pos hk, if_neg (List.cons_ne_nil _ _), hk, Option.getD_some,
        List.flatten_cons, ← List.append_assoc]
      split_ifs with hn
      · rw [hn, List.flatten_nil, List.append_nil]
      · rfl
    · rw [if_neg (Ne.symm hk), if_neg hk]

/-- The lists of lists a loop of `d.setdefault(key, {}).setdefault(inner, []).append(value)`
    builds. -/
def group₂ {γ : Type} [DecidableEq β] (entries : List (α × β × γ)) : Dict α (Dict β (List γ)) :=
  entries.foldl (fun d entry =>
    d.set entry.1 ((d.getD entry.1 empty).append entry.2.1 entry.2.2)) empty

theorem get?_group₂ {γ : Type} [DecidableEq β] (entries : List (α × β × γ)) (key : α) :
    (group₂ entries).get? key =
      if valuesAt entries key = [] then none else some (group (valuesAt entries key)) := by
  induction entries using List.reverseRecOn with
  | nil => rfl
  | append_singleton entries entry ih =>
    obtain ⟨k, inner, value⟩ := entry
    have hstep : group₂ (entries ++ [(k, inner, value)]) = (group₂ entries).set k
        (((group₂ entries).getD k empty).append inner value) := by
      unfold group₂
      rw [List.foldl_append]
      rfl
    rw [hstep, get?_set]
    by_cases hk : key = k
    · subst hk
      have hvalues : valuesAt (entries ++ [(key, inner, value)]) key =
          valuesAt entries key ++ [(inner, value)] := by
        simp [valuesAt]
      have hgroup : ∀ pairs : List (β × γ), group (pairs ++ [(inner, value)]) =
          (group pairs).append inner value := fun pairs => by
        unfold group
        rw [List.foldl_append]
        rfl
      rw [if_pos rfl, hvalues, if_neg (by simp), hgroup]
      unfold getD
      rw [ih]
      split_ifs with hn
      · rw [hn]
        rfl
      · rfl
    · have hvalues : valuesAt (entries ++ [(k, inner, value)]) key = valuesAt entries key := by
        simp [valuesAt, Ne.symm hk]
      rw [if_neg hk, hvalues, ih]

/-- What a loop over the entries of a dictionary says under one of its keys. -/
theorem valuesAt_flatMap_items {γ : Type} {d : Dict α β} (h : d.keys.Nodup) (f : β → List γ)
    (key : α) :
    valuesAt (d.items.flatMap fun item => (f item.2).map (Prod.mk item.1)) key =
      ((d.get? key).map f).getD [] := by
  obtain ⟨items⟩ := d
  unfold keys at h
  unfold get?
  dsimp only at h ⊢
  induction items with
  | nil => rfl
  | cons item items ih =>
    obtain ⟨k, v⟩ := item
    rw [List.map_cons, List.nodup_cons] at h
    have hih := ih h.2
    have happend : ∀ pairs pairs' : List (α × γ),
        valuesAt (pairs ++ pairs') key = valuesAt pairs key ++ valuesAt pairs' key :=
      fun pairs pairs' => by simp [valuesAt]
    rw [List.flatMap_cons, happend]
    by_cases hk : key = k
    · subst hk
      have hn : items.lookup key = none := by
        rw [List.lookup_eq_none_iff]
        intro p hp
        rw [bne_iff_ne]
        intro he
        exact h.1 (List.mem_map.mpr ⟨p, hp, he.symm⟩)
      have hall : valuesAt ((f v).map (Prod.mk key)) key = f v := by
        unfold valuesAt
        rw [List.filter_eq_self.mpr (by simp), List.map_map]
        exact List.map_id _
      rw [hih, hn, List.lookup_cons_self, hall]
      exact List.append_nil _
    · have hnil : valuesAt ((f v).map (Prod.mk k)) key = [] := by
        simp [valuesAt, Ne.symm hk]
      rw [hih, List.lookup_cons, beq_false_of_ne hk, hnil]
      rfl

end Group

/-! ## One entry a key -/

section Collapse

variable {δ : Type}

/-- The entry that wins over all others, met in order. -/
def champion (wins : δ → δ → Bool) (xs : List δ) : Option δ :=
  xs.foldl (fun best x =>
    match best with
    | none => some x
    | some incumbent => if wins x incumbent then some x else some incumbent) none

/-- Of each key the entry that wins over the others of that key. -/
def collapse (key : δ → α) (wins : δ → δ → Bool) (xs : List δ) : Dict α δ :=
  xs.foldl (fun index x =>
    match index.get? (key x) with
    | none => index.set (key x) x
    | some incumbent => if wins x incumbent then index.set (key x) x else index) empty

omit [DecidableEq α] in
theorem champion_concat (wins : δ → δ → Bool) (xs : List δ) (x : δ) :
    champion wins (xs ++ [x]) = match champion wins xs with
      | none => some x
      | some incumbent => if wins x incumbent then some x else some incumbent := by
  unfold champion
  rw [List.foldl_append]
  rfl

omit [DecidableEq α] in
theorem champion_mem {wins : δ → δ → Bool} {xs : List δ} {x : δ}
    (h : champion wins xs = some x) : x ∈ xs := by
  induction xs using List.reverseRecOn generalizing x with
  | nil => cases h
  | append_singleton xs y ih =>
    rw [champion_concat] at h
    cases hc : champion wins xs with
    | none =>
      rw [hc] at h
      obtain rfl := Option.some.inj h
      simp
    | some incumbent =>
      rw [hc] at h
      dsimp only at h
      split_ifs at h with hw
      · obtain rfl := Option.some.inj h
        simp
      · obtain rfl := Option.some.inj h
        exact List.mem_append_left _ (ih hc)

omit [DecidableEq α] in
theorem champion_eq_none {wins : δ → δ → Bool} {xs : List δ} :
    champion wins xs = none ↔ xs = [] := by
  refine ⟨fun h => ?_, fun h => by rw [h]; rfl⟩
  rcases List.eq_nil_or_concat xs with hxs | ⟨ys, y, hxs⟩
  · exact hxs
  · rw [hxs, List.concat_eq_append, champion_concat] at h
    cases hc : champion wins ys with
    | none =>
      rw [hc] at h
      cases h
    | some incumbent =>
      rw [hc] at h
      dsimp only at h
      split_ifs at h

omit [DecidableEq α] in
theorem champion_congr {wins wins' : δ → δ → Bool} {xs : List δ}
    (h : ∀ x ∈ xs, ∀ y ∈ xs, wins x y = wins' x y) : champion wins xs = champion wins' xs := by
  induction xs using List.reverseRecOn with
  | nil => rfl
  | append_singleton xs x ih =>
    have hih := ih fun y hy z hz =>
      h y (List.mem_append_left _ hy) z (List.mem_append_left _ hz)
    rw [champion_concat, champion_concat, hih]
    cases hc : champion wins' xs with
    | none => rfl
    | some incumbent =>
      have hmem : incumbent ∈ xs ++ [x] := List.mem_append_left _ (champion_mem hc)
      dsimp only
      rw [h x (by simp) incumbent hmem]

omit [DecidableEq α] in
/-- Where every entry of a kind wins over every other, and is won over by none of them, the
    others count only when there is none of that kind. -/
theorem champion_split {wins : δ → δ → Bool} (kind : δ → Bool)
    (hwin : ∀ x y, kind x = true → kind y = false → wins x y = true)
    (hlose : ∀ x y, kind x = false → kind y = true → wins x y = false) (xs : List δ) :
    champion wins xs =
      (champion wins (xs.filter kind)).or (champion wins (xs.filter fun x => !kind x)) := by
  induction xs using List.reverseRecOn with
  | nil => rfl
  | append_singleton xs x ih =>
    rw [champion_concat, ih, List.filter_append, List.filter_append, List.filter_singleton,
      List.filter_singleton]
    cases hk : kind x with
    | true =>
      rw [Bool.not_true, cond_true, cond_false, List.append_nil, champion_concat]
      cases hc : champion wins (xs.filter kind) with
      | some incumbent =>
        dsimp only [Option.some_or]
        split_ifs <;> rfl
      | none =>
        cases hc' : champion wins (xs.filter fun x => !kind x) with
        | none => rfl
        | some incumbent =>
          have hincumbent : kind incumbent = false := by
            have := (List.mem_filter.mp (champion_mem hc')).2
            simpa using this
          dsimp only [Option.none_or, Option.some_or]
          rw [if_pos (hwin x incumbent hk hincumbent)]
    | false =>
      rw [Bool.not_false, cond_true, cond_false, List.append_nil, champion_concat]
      cases hc : champion wins (xs.filter kind) with
      | some incumbent =>
        have hincumbent := (List.mem_filter.mp (champion_mem hc)).2
        dsimp only [Option.some_or]
        rw [hlose x incumbent hk hincumbent]
        rfl
      | none =>
        dsimp only [Option.none_or]

theorem get?_collapse (key : δ → α) (wins : δ → δ → Bool) (xs : List δ) (k : α) :
    (collapse key wins xs).get? k = champion wins (xs.filter fun x => key x = k) := by
  induction xs using List.reverseRecOn with
  | nil => rfl
  | append_singleton xs x ih =>
    have hstep : collapse key wins (xs ++ [x]) =
        match (collapse key wins xs).get? (key x) with
        | none => (collapse key wins xs).set (key x) x
        | some incumbent =>
          if wins x incumbent then (collapse key wins xs).set (key x) x
          else collapse key wins xs := by
      unfold collapse
      rw [List.foldl_append]
      rfl
    rw [List.filter_append, hstep]
    by_cases hk : key x = k
    · rw [List.filter_singleton, decide_eq_true hk, cond_true, champion_concat, ← ih, hk]
      cases hg : (collapse key wins xs).get? k with
      | none => simp
      | some incumbent =>
        dsimp only
        split_ifs
        · simp
        · exact hg
    · rw [List.filter_singleton, decide_eq_false hk, cond_false, List.append_nil, ← ih]
      cases (collapse key wins xs).get? (key x) with
      | none => simp [Ne.symm hk]
      | some incumbent =>
        dsimp only
        split_ifs
        · simp [Ne.symm hk]
        · rfl

theorem nodup_collapse (key : δ → α) (wins : δ → δ → Bool) (xs : List δ) :
    (collapse key wins xs).keys.Nodup := by
  refine nodup_keys_foldl _ (fun d x hd => ?_) xs List.nodup_nil
  cases d.get? (key x) with
  | none => exact nodup_keys_set hd _ _
  | some incumbent =>
    dsimp only
    split_ifs
    · exact nodup_keys_set hd _ _
    · exact hd

theorem collapse_mem {key : δ → α} {wins : δ → δ → Bool} {xs : List δ} {k : α} {x : δ}
    (h : (collapse key wins xs).get? k = some x) : x ∈ xs ∧ key x = k := by
  rw [get?_collapse] at h
  simpa using champion_mem h

end Collapse

end Dict

end BuckosDistro.Lib
