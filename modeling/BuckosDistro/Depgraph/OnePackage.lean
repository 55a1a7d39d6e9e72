/-
  `with` and `without`: tests that one package has to pass.

  The source reads such an expression in two places. `intersect` and `resolve_range` select
  the packages that may answer it (`selectable`); `satisfied` says whether a set makes it
  true. Both are meant to ask one question of one package (`meetsAlone`).

  `meetsAlone` is the value of the expression at the names the package provides, and
  `satisfied` its value at the names the set provides (`satisfied_eq_value`), so the two
  differ wherever a set provides names that no member provides together.
  `one_package_iff` lists the expressions on which nothing differs.
-/
import BuckosDistro.Depgraph.Calls

namespace BuckosDistro.Depgraph

open BuckosDistro.Lib

/-! ## The expressions -/

/-- Expressions built from unversioned leaves by `with`, `without` and `or`. -/
inductive Selection : Node → Prop
  | cap {text} : Unversioned text → Selection (.cap text)
  | with {cs} : cs ≠ [] → (∀ c ∈ cs, Selection c) → Selection (.with cs)
  | or {cs} : cs ≠ [] → (∀ c ∈ cs, Selection c) → Selection (.or cs)
  | without {l r} : Selection l → Selection r → Selection (.without l r)

mutual

/-- The value of an expression when `present` says which names are there. -/
def value (present : String → Bool) : Node → Bool
  | .cap text => present (stripCapabilityVersion text)
  | .with cs => allValue present cs
  | .or cs => anyValue present cs
  | .without l r => value present l && !value present r
  | _ => false

def allValue (present : String → Bool) : List Node → Bool
  | [] => true
  | c :: cs => value present c && allValue present cs

def anyValue (present : String → Bool) : List Node → Bool
  | [] => false
  | c :: cs => value present c || anyValue present cs

end

/-- Does the package alone meet the expression? -/
def meetsAlone (L : Lookup) (pkg : String) (node : Node) : Bool :=
  value (fun name => pkg ∈ L.providers name) node

/-- The packages that may be selected for an expression: the candidates of `resolve_range`
    where it is a range, else those of `intersect`. -/
def selectable (L : Lookup) (node : Node) : List String :=
  match rangeBounds node with
  | some (cap :: caps) => rangeCandidates L (stripCapabilityVersion cap) (cap :: caps)
  | _ => (intersect L node).getD []

mutual

/-- The names of the leaves of a selection. -/
def names : Node → List String
  | .cap text => [stripCapabilityVersion text]
  | .with cs | .or cs => namesEach cs
  | .without l r => names l ++ names r
  | _ => []

def namesEach : List Node → List String
  | [] => []
  | c :: cs => names c ++ namesEach cs

end

/-- No override answers the expression or a name in it. -/
def NoOverride (L : Lookup) (node : Node) : Prop :=
  L.overrides.get? (unparseBoolean node) = none ∧
    ∀ name ∈ names node, L.overrides.get? name = none

/-- Both readings of the expression are tests of one package, in every universe. -/
def OnePackage (node : Node) : Prop :=
  ∀ (L : Lookup) (S : Finset String), NoOverride L node →
    (∀ p, p ∈ selectable L node ↔ meetsAlone L p node = true) ∧
    (satisfied L S node = true ↔ ∃ p ∈ S, meetsAlone L p node = true)

/-! ## Values -/

theorem allValue_eq (present : String → Bool) (cs : List Node) :
    allValue present cs = cs.all (value present) := by
  induction cs with
  | nil => rfl
  | cons c cs ih => simp [allValue, ih]

theorem anyValue_eq (present : String → Bool) (cs : List Node) :
    anyValue present cs = cs.any (value present) := by
  induction cs with
  | nil => rfl
  | cons c cs ih => simp [anyValue, ih]

theorem mem_namesEach {cs : List Node} {name : String} :
    name ∈ namesEach cs ↔ ∃ c ∈ cs, name ∈ names c := by
  induction cs with
  | nil => simp [namesEach]
  | cons c cs ih => simp [namesEach, ih]

theorem all_congr_mem {α : Type} {f g : α → Bool} {xs : List α} (h : ∀ x ∈ xs, f x = g x) :
    xs.all f = xs.all g := by
  induction xs with
  | nil => rfl
  | cons x xs ih =>
    rw [List.all_cons, List.all_cons, h x (List.mem_cons_self ..),
      ih fun y hy => h y (List.mem_cons_of_mem _ hy)]

theorem any_congr_mem {α : Type} {f g : α → Bool} {xs : List α} (h : ∀ x ∈ xs, f x = g x) :
    xs.any f = xs.any g := by
  induction xs with
  | nil => rfl
  | cons x xs ih =>
    rw [List.any_cons, List.any_cons, h x (List.mem_cons_self ..),
      ih fun y hy => h y (List.mem_cons_of_mem _ hy)]

/-- The value depends on the names of the expression alone. -/
theorem value_congr {present present' : String → Bool} {node : Node} (hs : Selection node)
    (h : ∀ name ∈ names node, present name = present' name) :
    value present node = value present' node := by
  induction hs with
  | cap _ => exact h _ (by simp [names])
  | «with» _ _ ih =>
    simp only [value, allValue_eq]
    exact all_congr_mem fun c hc =>
      ih c hc fun name hn => h name (mem_namesEach.mpr ⟨c, hc, hn⟩)
  | or _ _ ih =>
    simp only [value, anyValue_eq]
    exact any_congr_mem fun c hc =>
      ih c hc fun name hn => h name (mem_namesEach.mpr ⟨c, hc, hn⟩)
  | without _ _ ihl ihr =>
    simp only [value]
    rw [ihl fun name hn => h name (by simp [names, hn]),
      ihr fun name hn => h name (by simp [names, hn])]

/-- `satisfied` is the value at the names the set provides. -/
theorem satisfied_eq_value {L : Lookup} {S : Finset String} {node : Node}
    (hs : Selection node) (ho : ∀ name ∈ names node, L.overrides.get? name = none) :
    satisfied L S node = value (fun name => (L.providers name).any (· ∈ S)) node := by
  induction hs with
  | @cap text _ =>
    have := ho (stripCapabilityVersion text) (by simp [names])
    simp only [satisfied, value, capabilityPresent, this]
  | «with» _ _ ih =>
    simp only [satisfied, value, allSatisfied_eq, allValue_eq]
    exact all_congr_mem fun c hc =>
      ih c hc fun name hn => ho name (mem_namesEach.mpr ⟨c, hc, hn⟩)
  | or _ _ ih =>
    simp only [satisfied, value, anySatisfied_eq, anyValue_eq]
    exact any_congr_mem fun c hc =>
      ih c hc fun name hn => ho name (mem_namesEach.mpr ⟨c, hc, hn⟩)
  | without _ _ ihl ihr =>
    simp only [satisfied, value]
    rw [ihl fun name hn => ho name (by simp [names, hn]),
      ihr fun name hn => ho name (by simp [names, hn])]

theorem names_ne_nil {node : Node} (hs : Selection node) : names node ≠ [] := by
  induction hs with
  | cap _ => simp [names]
  | @«with» cs hne _ ih | @or cs hne _ ih =>
    obtain ⟨c, hc⟩ := List.exists_mem_of_ne_nil _ hne
    obtain ⟨name, hn⟩ := List.exists_mem_of_ne_nil _ (ih c hc)
    exact List.ne_nil_of_mem (mem_namesEach.mpr ⟨c, hc, hn⟩)
  | without _ _ ihl _ => simp [names, ihl]

/-! ## Leaves as the source reads them -/

theorem leafNamesEach_eq_some {cs : List Node} {ns : List String}
    (h : leafNamesEach cs = some ns) :
    ∀ c ∈ cs, ∃ ms, leafNames c = some ms := by
  induction cs generalizing ns with
  | nil => simp
  | cons c cs ih =>
    simp only [leafNamesEach] at h
    split at h
    · rename_i ms rest hc hcs
      intro d hd
      rcases List.mem_cons.mp hd with rfl | hd
      · exact ⟨ms, hc⟩
      · exact ih hcs d hd
    · cases h

/-- Where `_leaf_names` reads an expression, it reads the names of all its leaves. -/
theorem leafNames_eq_names {node : Node} {ns : List String} (hs : Selection node)
    (h : leafNames node = some ns) : ns = names node := by
  have key : ∀ (cs : List Node) (ns : List String),
      (∀ c ∈ cs, ∀ ms, leafNames c = some ms → ms = names c) →
      leafNamesEach cs = some ns → ns = namesEach cs := by
    intro cs
    induction cs with
    | nil =>
      intro ns _ h
      simpa [leafNamesEach, namesEach, eq_comm] using h
    | cons c cs ihl =>
      intro ns ih h
      simp only [leafNamesEach] at h
      split at h
      · rename_i ms rest hc hcs
        rw [← Option.some.inj h, ih c (List.mem_cons_self ..) ms hc,
          ihl rest (fun d hd => ih d (List.mem_cons_of_mem _ hd)) hcs]
        rfl
      · cases h
  induction hs generalizing ns with
  | cap _ => simpa [leafNames, names, eq_comm] using h
  | «with» _ _ ih => exact key _ _ (fun c hc ms hm => ih c hc hm) h
  | or _ _ ih => exact key _ _ (fun c hc ms hm => ih c hc hm) h
  | without _ _ _ _ => cases h

/-- An expression `_leaf_names` reads has no `without`, and takes any value its names
    agree on. -/
theorem value_const {node : Node} {ns : List String} (hs : Selection node)
    (h : leafNames node = some ns) {present : String → Bool} {b : Bool}
    (hb : ∀ name ∈ names node, present name = b) : value present node = b := by
  induction hs generalizing ns with
  | cap _ => exact hb _ (by simp [names])
  | @«with» cs hne _ ih =>
    have hc : ∀ c ∈ cs, value present c = b := by
      intro c hc
      obtain ⟨ms, hm⟩ := leafNamesEach_eq_some h c hc
      exact ih c hc hm fun name hn => hb name (mem_namesEach.mpr ⟨c, hc, hn⟩)
    obtain ⟨d, hd⟩ := List.exists_mem_of_ne_nil _ hne
    simp only [value, allValue_eq]
    cases b with
    | true => exact List.all_eq_true.mpr hc
    | false => exact List.all_eq_false.mpr ⟨d, hd, by simp [hc d hd]⟩
  | @or cs hne _ ih =>
    have hc : ∀ c ∈ cs, value present c = b := by
      intro c hc
      obtain ⟨ms, hm⟩ := leafNamesEach_eq_some h c hc
      exact ih c hc hm fun name hn => hb name (mem_namesEach.mpr ⟨c, hc, hn⟩)
    obtain ⟨d, hd⟩ := List.exists_mem_of_ne_nil _ hne
    simp only [value, anyValue_eq]
    cases b with
    | true => exact List.any_eq_true.mpr ⟨d, hd, hc d hd⟩
    | false => exact List.any_eq_false.mpr fun c hm => by simp [hc c hm]
  | without _ _ _ _ => cases h

/-- The bounds of a range are leaves of it. -/
theorem mem_leafCaps {node : Node} {caps : List String} (hs : Selection node)
    (h : leafCaps node = some caps) :
    ∀ cap ∈ caps, Unversioned cap ∧ stripCapabilityVersion cap ∈ names node := by
  have key : ∀ (cs : List Node) (caps : List String),
      (∀ c ∈ cs, ∀ ms, leafCaps c = some ms →
        ∀ cap ∈ ms, Unversioned cap ∧ stripCapabilityVersion cap ∈ names c) →
      leafCapsEach cs = some caps →
      ∀ cap ∈ caps, Unversioned cap ∧ stripCapabilityVersion cap ∈ namesEach cs := by
    intro cs
    induction cs with
    | nil =>
      intro caps _ h
      simp only [leafCapsEach, Option.some.injEq] at h
      simp [← h]
    | cons c cs ihl =>
      intro caps ih h
      simp only [leafCapsEach] at h
      split at h
      · rename_i ms rest hc hcs
        intro cap hcap
        rw [← Option.some.inj h] at hcap
        rcases List.mem_append.mp hcap with hcap | hcap
        · obtain ⟨hu, hn⟩ := ih c (List.mem_cons_self ..) ms hc cap hcap
          exact ⟨hu, List.mem_append_left _ hn⟩
        · obtain ⟨hu, hn⟩ := ihl rest (fun d hd => ih d (List.mem_cons_of_mem _ hd)) hcs
            cap hcap
          exact ⟨hu, List.mem_append_right _ hn⟩
      · cases h
  induction hs generalizing caps with
  | @cap text hu =>
    simp only [leafCaps, Option.some.injEq] at h
    intro cap hcap
    rw [← h] at hcap
    rw [List.mem_singleton.mp hcap]
    exact ⟨hu, by simp [names]⟩
  | «with» _ _ ih => exact key _ _ (fun c hc ms hm => ih c hc hm) h
  | or _ _ _ => cases h
  | without _ _ _ _ => cases h

/-! ## Selection -/

/-- What a `with` that `_leaf_names` reads selects: the packages that provide every name. -/
theorem mem_selectable_with {L : Lookup} {cs : List Node} {ns : List String}
    (hs : Selection (.with cs)) (h : leafNames (.with cs) = some ns) {p : String} :
    p ∈ selectable L (.with cs) ↔ ∀ name ∈ names (.with cs), p ∈ L.providers name := by
  have hns := leafNames_eq_names hs h
  have hcommon : p ∈ (intersect L (.with cs)).getD [] ↔
      ∀ name ∈ names (.with cs), p ∈ L.providers name := by
    rw [← hns]
    cases hc : commonProviders L ns with
    | none =>
      cases ns with
      | nil => exact absurd hns.symm (names_ne_nil hs)
      | cons _ _ => simp [commonProviders] at hc
    | some ps =>
      simp only [intersect, h, Option.bind_some, hc, Option.getD_some]
      exact mem_commonProviders hc
  unfold selectable
  split
  · rename_i cap caps hr
    -- A range: every leaf names one capability, and no leaf states a bound.
    simp only [rangeBounds, h] at hr
    split at hr
    · rename_i hone
      have hcaps := mem_leafCaps hs hr
      obtain ⟨name, hname⟩ := List.length_eq_one_iff.mp hone
      have hall : ∀ n ∈ names (.with cs), n = name := by
        intro n hn
        rw [← hns] at hn
        have := List.mem_dedup.mpr hn
        rw [hname] at this
        exact List.mem_singleton.mp this
      have hcap : stripCapabilityVersion cap = name :=
        hall _ (hcaps cap (List.mem_cons_self ..)).2
      rw [mem_rangeCandidates, hcap]
      constructor
      · rintro ⟨hp, _⟩ n hn
        rwa [hall n hn]
      · intro hp
        refine ⟨hcap ▸ hp _ (hcaps cap (List.mem_cons_self ..)).2, fun c hc => ?_⟩
        rw [(hcaps c hc).1]
        exact anyVersionSatisfies_none _
    · cases hr
  · exact hcommon

theorem selectable_with_of_none {L : Lookup} {cs : List Node}
    (h : leafNames (.with cs) = none) : selectable L (.with cs) = [] := by
  simp [selectable, rangeBounds, intersect, h]

/-- The first name of each side, where `_leaf_names` reads both. -/
def firstNames (l r : Node) : Option (String × String) :=
  match leafNames l, leafNames r with
  | some (a :: _), some (b :: _) => some (a, b)
  | _, _ => none

theorem firstNames_eq_some {l r : Node} {a b : String} (h : firstNames l r = some (a, b)) :
    ∃ as bs, leafNames l = some (a :: as) ∧ leafNames r = some (b :: bs) := by
  unfold firstNames at h
  rcases hl : leafNames l with _ | _ | ⟨a', as⟩
  · simp [hl] at h
  · simp [hl] at h
  · rcases hr : leafNames r with _ | _ | ⟨b', bs⟩
    · simp [hl, hr] at h
    · simp [hl, hr] at h
    · simp only [hl, hr, Option.some.injEq, Prod.mk.injEq] at h
      exact ⟨as, bs, by rw [h.1], by rw [h.2]⟩

/-- What a `without` selects: only the first name of each side counts. -/
theorem mem_selectable_without {L : Lookup} {l r : Node} {p : String} :
    p ∈ selectable L (.without l r) ↔
      ∃ a b, firstNames l r = some (a, b) ∧ p ∈ L.providers a ∧ p ∉ L.providers b := by
  have hsel : selectable L (.without l r) = (intersect L (.without l r)).getD [] := rfl
  rw [hsel]
  rcases hl : leafNames l with _ | _ | ⟨a, as⟩
  · simp [intersect, firstNames, hl]
  · simp [intersect, firstNames, hl]
  · rcases hr : leafNames r with _ | _ | ⟨b, bs⟩
    · simp [intersect, firstNames, hl, hr]
    · simp [intersect, firstNames, hl, hr]
    · simp [intersect, firstNames, hl, hr]

/-! ## Where the readings agree -/

/-- A `with` whose leaves all name one capability. -/
def OneName (node : Node) : Prop :=
  ∃ cs name, node = .with cs ∧ (leafNames node).isSome ∧ ∀ n ∈ names node, n = name

/-- No package could meet the expression, whatever it provides. -/
def NeverMet (node : Node) : Prop := ∀ present, value present node = false

/-- Nothing is selected: a `with` that is not read, or a `without` whose sides are not both
    read or begin with one name. -/
def NothingSelected : Node → Prop
  | .without l r => ∀ a b, firstNames l r = some (a, b) → a = b
  | node => leafNames node = none

/-- The universe in which the packages `providers name` provide each name of a list. -/
def universeOf (ns : List String) (providers : String → List String) : Lookup where
  provides := ⟨ns.map fun name => (name, providers name)⟩
  provideEvr := .empty
  overrides := .empty

theorem providers_universeOf {ns : List String} {providers : String → List String}
    {name : String} (h : name ∈ ns) :
    (universeOf ns providers).providers name = providers name := by
  have key : (ns.map fun name => (name, providers name)).lookup name =
      some (providers name) := by
    induction ns with
    | nil => cases h
    | cons n ns ih =>
      by_cases hn : name = n
      · subst hn
        simp
      · have : (name == n) = false := by simpa using hn
        rw [List.map_cons, List.lookup_cons, this]
        exact ih ((List.mem_cons.mp h).resolve_left hn)
  simp [Lookup.providers, Dict.getD, Dict.get?, universeOf, key]

theorem noOverride_universeOf (ns : List String) (providers : String → List String)
    (node : Node) : NoOverride (universeOf ns providers) node :=
  ⟨rfl, fun _ _ => rfl⟩

theorem meetsAlone_universeOf {node : Node} (hs : Selection node)
    {providers : String → List String} {pkg : String} :
    meetsAlone (universeOf (names node) providers) pkg node =
      value (fun name => pkg ∈ providers name) node :=
  value_congr hs fun name hn => by rw [providers_universeOf hn]

theorem satisfied_universeOf {node : Node} (hs : Selection node)
    {providers : String → List String} {S : Finset String} :
    satisfied (universeOf (names node) providers) S node =
      value (fun name => (providers name).any (· ∈ S)) node := by
  rw [satisfied_eq_value hs fun _ _ => rfl]
  exact value_congr hs fun name hn => by rw [providers_universeOf hn]

/-- Both readings of a range over one name ask whether a provider of it is there. -/
theorem onePackage_of_oneName {node : Node} (hs : Selection node) (h : OneName node) :
    OnePackage node := by
  obtain ⟨cs, name, rfl, hread, hone⟩ := h
  obtain ⟨ns, hns⟩ := Option.isSome_iff_exists.mp hread
  obtain ⟨n, hn⟩ := List.exists_mem_of_ne_nil _ (names_ne_nil hs)
  have hname : name ∈ names (.with cs) := hone n hn ▸ hn
  have hval : ∀ present : String → Bool,
      value present (.with cs) = present name := fun present =>
    value_const hs hns fun m hm => by rw [hone m hm]
  intro L S ho
  have hmeets : ∀ p, meetsAlone L p (.with cs) = true ↔ p ∈ L.providers name := by
    intro p
    rw [meetsAlone, hval, decide_eq_true_eq]
  refine ⟨fun p => ?_, ?_⟩
  · rw [mem_selectable_with hs hns, hmeets]
    exact ⟨fun h => h name hname, fun h m hm => by rwa [hone m hm]⟩
  · rw [satisfied_eq_value hs ho.2, hval]
    simp only [List.any_eq_true, decide_eq_true_eq, hmeets]
    exact ⟨fun ⟨p, hp, hS⟩ => ⟨p, hS, hp⟩, fun ⟨p, hS, hp⟩ => ⟨p, hp, hS⟩⟩

/-- Both readings of an expression that is never met and never read say no. -/
theorem onePackage_of_never {node : Node} (hs : Selection node)
    (hroot : (∃ cs, node = .with cs) ∨ ∃ l r, node = .without l r)
    (h : NeverMet node) (hn : NothingSelected node) : OnePackage node := by
  intro L S ho
  have hmeets : ∀ p, meetsAlone L p node = false := fun p => h _
  have hsat : satisfied L S node = false := by
    rw [satisfied_eq_value hs ho.2]
    exact h _
  refine ⟨fun p => ?_, by simp [hmeets, hsat]⟩
  rw [hmeets]
  simp only [Bool.false_eq_true, iff_false]
  rcases hroot with ⟨cs, rfl⟩ | ⟨l, r, rfl⟩
  · rw [selectable_with_of_none hn]
    exact List.not_mem_nil
  · rw [mem_selectable_without]
    rintro ⟨a, b, hab, ha, hb⟩
    exact hb (hn a b hab ▸ ha)

/-- A `with` on which the readings agree is a range over one name, or is never met and
    never read: two packages that share the names between them tell the readings apart. -/
theorem of_onePackage_with {cs : List Node} (hs : Selection (.with cs))
    (h : OnePackage (.with cs)) :
    OneName (.with cs) ∨ (NeverMet (.with cs) ∧ NothingSelected (.with cs)) := by
  cases hr : leafNames (.with cs) with
  | none =>
    refine .inr ⟨fun present => ?_, hr⟩
    by_contra hval
    have hp := (h (universeOf (names (.with cs))
      fun name => if present name then ["p"] else []) ∅ (noOverride_universeOf _ _ _)).1 "p"
    rw [selectable_with_of_none hr, meetsAlone_universeOf hs] at hp
    have hc : value (fun name => decide ("p" ∈ if present name then ["p"] else [])) (.with cs) =
        value present (.with cs) := value_congr hs fun name _ => by
      cases present name <;> simp
    rw [hc] at hp
    exact List.not_mem_nil (hp.mpr (by simpa using hval))
  | some ns =>
    left
    obtain ⟨a, ha⟩ := List.exists_mem_of_ne_nil _ (names_ne_nil hs)
    refine ⟨cs, a, rfl, by rw [hr]; rfl, fun b hb => ?_⟩
    by_contra hne
    -- `p` provides `a`, `q` everything else.
    have hU := h (universeOf (names (.with cs)) fun name => if name = a then ["p"] else ["q"])
      {"p", "q"} (noOverride_universeOf _ _ _)
    have hsat : satisfied (universeOf (names (.with cs))
        fun name => if name = a then ["p"] else ["q"]) {"p", "q"} (.with cs) = true := by
      rw [satisfied_universeOf hs]
      refine value_const hs hr fun name _ => ?_
      by_cases hn : name = a <;> simp [hn]
    obtain ⟨x, _, hx⟩ := hU.2.mp hsat
    have hall := (mem_selectable_with hs hr).mp ((hU.1 x).mpr hx)
    have hxa := hall a ha
    have hxb := hall b hb
    rw [providers_universeOf ha] at hxa
    rw [providers_universeOf hb] at hxb
    simp only [if_true, List.mem_singleton] at hxa
    simp [hne, hxa] at hxb

/-- A `without` on which the readings agree is never met, and selects nothing. -/
theorem of_onePackage_without {l r : Node} (hs : Selection (.without l r))
    (h : OnePackage (.without l r)) :
    NeverMet (.without l r) ∧ NothingSelected (.without l r) := by
  have hsl : Selection l := by cases hs with | without hl _ => exact hl
  have hsr : Selection r := by cases hs with | without _ hr => exact hr
  have hnever : NeverMet (.without l r) := by
    intro present
    by_contra hval
    -- `p` provides what is present, `q` everything.
    have hU := h (universeOf (names (.without l r))
      fun name => if present name then ["p", "q"] else ["q"]) {"p", "q"}
      (noOverride_universeOf _ _ _)
    have hp : meetsAlone (universeOf (names (.without l r))
        fun name => if present name then ["p", "q"] else ["q"]) "p" (.without l r) = true := by
      rw [meetsAlone_universeOf hs]
      have hc : value (fun name => decide ("p" ∈ if present name then ["p", "q"] else ["q"]))
          (.without l r) = value present (.without l r) := value_congr hs fun name _ => by
        cases present name <;> simp
      rw [hc]
      simpa using hval
    obtain ⟨a, b, hab, _⟩ := mem_selectable_without.mp ((hU.1 "p").mpr hp)
    obtain ⟨_, _, _, hnr⟩ := firstNames_eq_some hab
    have hsat := hU.2.mpr ⟨"p", by simp, hp⟩
    rw [satisfied_universeOf hs] at hsat
    have hright : ∀ pr : String → Bool, value pr (.without l r) = true →
        value pr r = false := by
      intro pr hv
      simp only [value, Bool.and_eq_true, Bool.not_eq_true'] at hv
      exact hv.2
    have hr := hright _ hsat
    rw [value_const hsr hnr (b := true) fun name _ => by cases present name <;> simp] at hr
    cases hr
  refine ⟨hnever, fun a b hab => ?_⟩
  by_contra hne
  have hmem : a ∈ names (.without l r) ∧ b ∈ names (.without l r) := by
    obtain ⟨as, bs, hl, hr⟩ := firstNames_eq_some hab
    simp [names, ← leafNames_eq_names hsl hl, ← leafNames_eq_names hsr hr]
  -- `p` provides the first name on the left alone.
  have hU := h (universeOf (names (.without l r)) fun name => if name = a then ["p"] else [])
    ∅ (noOverride_universeOf _ _ _)
  have hp : "p" ∈ selectable (universeOf (names (.without l r))
      fun name => if name = a then ["p"] else []) (.without l r) := by
    refine mem_selectable_without.mpr ⟨a, b, hab, ?_, ?_⟩
    · rw [providers_universeOf hmem.1]
      simp
    · rw [providers_universeOf hmem.2]
      simp [Ne.symm hne]
  have hm := (hU.1 "p").mp hp
  rw [meetsAlone_universeOf hs, hnever] at hm
  cases hm

/-- **Where `with` and `without` are tests of one package.** In every universe without an
    override for the expression the packages selected for it are those that alone meet it,
    and a set makes it true exactly if it holds one of them, for these expressions only: a
    `with` whose leaves all name one capability, and expressions that can never be met and
    for which nothing is ever selected. -/
theorem one_package_iff (node : Node) (hs : Selection node)
    (hroot : (∃ cs, node = .with cs) ∨ ∃ l r, node = .without l r) :
    OnePackage node ↔ OneName node ∨ (NeverMet node ∧ NothingSelected node) := by
  constructor
  · intro h
    rcases hroot with ⟨cs, rfl⟩ | ⟨l, r, rfl⟩
    · exact of_onePackage_with hs h
    · exact .inr (of_onePackage_without hs h)
  · rintro (h | ⟨h, hn⟩)
    · exact onePackage_of_oneName hs h
    · exact onePackage_of_never hs hroot h hn

/-! ## Two members between them -/

theorem selection_a_with_b : Selection (.with [.cap "a", .cap "b"]) := by
  refine .with (by simp) fun c hc => ?_
  rcases List.mem_pair.mp hc with rfl | rfl
  · exact .cap (by decide)
  · exact .cap (by decide)

/-- `(a with b)`: not a range, and met by a package that provides both. -/
theorem one_package_iff_a_with_b :
    OnePackage (.with [.cap "a", .cap "b"]) ↔
      OneName (.with [.cap "a", .cap "b"]) ∨
        (NeverMet (.with [.cap "a", .cap "b"]) ∧
          NothingSelected (.with [.cap "a", .cap "b"])) :=
  one_package_iff _ selection_a_with_b (.inl ⟨_, rfl⟩)

/-- `p` provides `a` and `q` provides `b`: the set of both makes `(a with b)` true, and no
    package meets it. -/
theorem two_members_satisfy_with :
    Selection (.with [.cap "a", .cap "b"]) ∧
      NoOverride (universeOf ["a", "b"] fun name => if name = "a" then ["p"] else ["q"])
        (.with [.cap "a", .cap "b"]) ∧
      satisfied (universeOf ["a", "b"] fun name => if name = "a" then ["p"] else ["q"])
        {"p", "q"} (.with [.cap "a", .cap "b"]) = true ∧
      ∀ p ∈ ({"p", "q"} : Finset String),
        meetsAlone (universeOf ["a", "b"] fun name => if name = "a" then ["p"] else ["q"]) p
          (.with [.cap "a", .cap "b"]) = false :=
  ⟨selection_a_with_b, ⟨rfl, fun _ _ => rfl⟩, by decide, by decide⟩

end BuckosDistro.Depgraph
