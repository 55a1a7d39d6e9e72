/-
  Resolving one capability (`tools/depgraph.py`, "Capability resolution").

  A capability is the text one package Provides and others Require. The three maps it is
  looked up in travel together as a `Lookup`; what a package Requires is kept apart from
  them, because resolving a capability never reads it.

  `resolve_capability` raises where it has no answer. Here it returns the exception as a
  value of `ResolveError`, with the arguments the source gives it.
-/
import BuckosDistro.Lib.Dict
import BuckosDistro.Depgraph.RpmVerCmp

namespace BuckosDistro.Depgraph

open BuckosDistro.Lib

/-! ## Texts with a constraint -/

/-- True for rpm boolean dependencies: `capability.lstrip().startswith("(")`. -/
def isRichDep (capability : String) : Bool :=
  (PyText.lstrip capability.toList).head? == some '('

/-- The comparison operators a constraint is written with. -/
inductive Op where
  | ge | le | eq | gt | lt
deriving DecidableEq, Repr

namespace Op

def text : Op → String
  | ge => ">=" | le => "<=" | eq => "=" | gt => ">" | lt => "<"

/-- The order the source tries them in. -/
def all : List Op := [ge, le, eq, gt, lt]

/-- The operator between its two spaces. -/
def token (op : Op) : List Char := (" " ++ op.text ++ " ").toList

/-- The entry of the verdict table `satisfies_constraint` ends with. -/
def admits (op : Op) (result : Int) : Bool :=
  match op with
  | eq => result == 0
  | gt => result > 0
  | ge => result ≥ 0
  | lt => result < 0
  | le => result ≤ 0

end Op

/-- Where the first operator of `ops` that occurs at all cuts the text: what stands before
    it, the operator, and what stands after it. -/
def cutAtOp (text : List Char) : List Op → Option (List Char × Op × List Char)
  | [] => none
  | op :: ops =>
    match PyText.find? op.token text with
    | some idx => some (text.take idx, op, text.drop (idx + op.token.length))
    | none => cutAtOp text ops

/-- `capability.strip()` -/
def stripText (capability : String) : String := String.ofList (PyText.strip capability.toList)

/-- `split_constraint`: the name, and the operator and version when there are any. -/
def splitConstraint (capability : String) : String × Option (Op × String) :=
  if isRichDep capability then (stripText capability, none)
  else
    match cutAtOp capability.toList Op.all with
    | some (name, op, wanted) =>
      (String.ofList (PyText.strip name), some (op, String.ofList (PyText.strip wanted)))
    | none => (stripText capability, none)

/-- `strip_capability_version` -/
def stripCapabilityVersion (capability : String) : String :=
  if isRichDep capability then stripText capability
  else
    match cutAtOp capability.toList Op.all with
    | some (name, _, _) => String.ofList (PyText.strip name)
    | none => stripText capability

theorem splitConstraint_fst (capability : String) :
    (splitConstraint capability).1 = stripCapabilityVersion capability := by
  unfold splitConstraint stripCapabilityVersion
  split
  · rfl
  · split <;> rfl

/-- A text that states no constraint: it is its own name. -/
def Unversioned (cap : String) : Prop := splitConstraint cap = (cap, none)

instance (cap : String) : Decidable (Unversioned cap) := inferInstanceAs (Decidable (_ = _))

/-! ## Versions -/

/-- `_evr_parts`: an EVR text with unstated components left out. -/
def evrParts (text : String) : Evr :=
  let (epoch, rest) :=
    match PyText.partition ':' text.toList with
    | (head, some tail) => (some (String.ofList head), tail)
    | (_, none) => (none, text.toList)
  let (version, release) := PyText.partition '-' rest
  ⟨epoch, some (String.ofList version), release.map String.ofList⟩

/-- `epoch or "0"` -/
def epochOrZero (epoch : Option String) : Option String :=
  match epoch with
  | none => some "0"
  | some text => if text = "" then some "0" else some text

/-- `satisfies_constraint(provided, op, wanted)` for a stated version and a stated operator.
    Compared at the precision of the constraint: a release it does not state is not read. -/
def satisfiesConstraint (provided : Evr) (op : Op) (wanted : String) : Bool :=
  let w := evrParts wanted
  let left : Evr :=
    ⟨epochOrZero provided.epoch, provided.version,
      if w.release.isSome then provided.release else none⟩
  let right : Evr := ⟨epochOrZero w.epoch, w.version, w.release⟩
  op.admits (compareEvr left right)

/-- `_any_version_satisfies`: no stated version satisfies anything, and so does any version
    when the requirement states no operator. -/
def anyVersionSatisfies (provided : Option (List Evr)) (bound : Option (Op × String)) : Bool :=
  match provided.getD [], bound with
  | [], _ => true
  | _ :: _, none => true
  | evr :: evrs, some (op, wanted) =>
    (evr :: evrs).any fun evr => satisfiesConstraint evr op wanted

theorem anyVersionSatisfies_none (provided : Option (List Evr)) :
    anyVersionSatisfies provided none = true := by
  unfold anyVersionSatisfies
  cases provided.getD [] <;> rfl

/-! ## Resolution -/

/-- The maps a capability is looked up in: who provides it, at what versions, and what the
    flavor's configuration overrides. -/
structure Lookup where
  provides : Dict String (List String)
  provideEvr : Dict String (Dict String (List Evr))
  overrides : Dict String String
deriving Repr

namespace Lookup

/-- `provides.get(name, ())` -/
def providers (L : Lookup) (name : String) : List String := L.provides.getD name []

/-- `provide_evr.get(name, {}).get(pkg)` -/
def versions (L : Lookup) (name pkg : String) : Option (List Evr) :=
  (L.provideEvr.getD name Dict.empty).get? pkg

/-- `provide_evr.get(name, {}).get(pkg, ())` -/
def versionList (L : Lookup) (name pkg : String) : List Evr := (L.versions name pkg).getD []

end Lookup

/-- The two exceptions of the module, with their arguments. -/
inductive ResolveError where
  | ambiguousProvider (capability : String) (candidates : List String)
  | unresolvedCapability (capability requiredBy : String)
deriving DecidableEq, Repr

/-- `str(exc)` -/
def ResolveError.message : ResolveError → String
  | ambiguousProvider capability candidates =>
    "capability " ++ PyText.repr capability ++ " is provided by " ++
      toString candidates.length ++ " packages: " ++
      PyText.join ", " (PyText.sortedSet candidates)
  | unresolvedCapability capability requiredBy =>
    "capability " ++ PyText.repr capability ++ " (required by " ++ requiredBy ++
      ") has no provider"

/-- A fold step of the newest-version loops: the incumbent stays on a tie. -/
def newer (best : Option (String × Evr)) (offer : String × Evr) : Option (String × Evr) :=
  match best with
  | none => some offer
  | some (pkg, evr) => if compareEvr offer.2 evr > 0 then some offer else some (pkg, evr)

/-- The package with the newest of the listed versions, the first one on a tie. -/
def newest (offers : List (String × Evr)) : Option String :=
  (offers.foldl newer none).map Prod.fst

/-- `"-".join(x for x in (evr[1], evr[2]) if x)` -/
def shownEvr (evr : Evr) : String :=
  PyText.join "-" ([evr.version, evr.release].filterMap fun part =>
    part.bind fun text => if text = "" then none else some text)

/-- The text of the error for a name whose providers all have the wrong version. -/
def wrongVersionText (L : Lookup) (capability name : String) : String :=
  let candidates := PyText.sortedSet (L.providers name)
  let offered := PyText.sortedSet
    ((candidates.flatMap (L.versionList name)).map shownEvr)
  let shown := PyText.join ", " offered
  capability ++ " (provided by " ++ PyText.join ", " candidates ++ ", at " ++
    (if shown = "" then "no version" else shown) ++ ")"

/-- `matching`: the providers of the name that can satisfy the bound. -/
def matching (L : Lookup) (name : String) (bound : Option (Op × String)) : List String :=
  (PyText.sortedSet (L.providers name)).filter fun pkg =>
    anyVersionSatisfies (L.versions name pkg) bound

/-- The (package, version) pairs the newest-version rule chooses from. -/
def satisfyingOffers (L : Lookup) (name : String) (op : Op) (wanted : String)
    (pkgs : List String) : List (String × Evr) :=
  pkgs.flatMap fun pkg => ((L.versionList name pkg).filter fun evr =>
    satisfiesConstraint evr op wanted).map fun evr => (pkg, evr)

/-- `resolve_capability` -/
def resolveCapability (L : Lookup) (capability requiredBy : String) :
    Except ResolveError String :=
  match L.overrides.get? capability with
  | some pkg => .ok pkg
  | none =>
    let (name, bound) := splitConstraint capability
    match L.overrides.get? name with
    | some pkg => .ok pkg
    | none =>
      if (L.providers name).isEmpty then
        .error (.unresolvedCapability capability requiredBy)
      else
        match matching L name bound with
        | [] => .error (.unresolvedCapability (wrongVersionText L capability name) requiredBy)
        | [pkg] => .ok pkg
        | pkgs =>
          if name ∈ pkgs then .ok name
          else
            match bound with
            | none => .error (.ambiguousProvider capability pkgs)
            | some (op, wanted) =>
              match newest (satisfyingOffers L name op wanted pkgs) with
              | some pkg => .ok pkg
              | none => .error (.ambiguousProvider capability pkgs)

/-! ## What resolution promises -/

/-- A package provides `name` at a version the bound admits. -/
def Lookup.Offers (L : Lookup) (name : String) (bound : Option (Op × String)) (pkg : String) :
    Prop :=
  pkg ∈ L.providers name ∧ anyVersionSatisfies (L.versions name pkg) bound = true

instance (L : Lookup) (name : String) (bound : Option (Op × String)) (pkg : String) :
    Decidable (L.Offers name bound pkg) :=
  inferInstanceAs (Decidable (_ ∧ _))

/-- The override that answers a capability: its own text first, then its name. -/
def Lookup.overrideFor (L : Lookup) (capability : String) : Option String :=
  (L.overrides.get? capability).or (L.overrides.get? (splitConstraint capability).1)

theorem newest_mem {offers : List (String × Evr)} {pkg : String}
    (h : newest offers = some pkg) : ∃ evr, (pkg, evr) ∈ offers := by
  have key : ∀ (xs : List (String × Evr)) (best : Option (String × Evr)) (x : String × Evr),
      xs.foldl newer best = some x → some x = best ∨ x ∈ xs := by
    intro xs
    induction xs with
    | nil => intro best x h; exact .inl h.symm
    | cons y ys ih =>
      intro best x h
      rcases ih _ _ h with h | h
      · cases best with
        | none =>
          right
          have : x = y := by simpa [newer] using h
          simp [this]
        | some b =>
          obtain ⟨q, e⟩ := b
          simp only [newer] at h
          split at h
          · right; simp [Option.some.inj h]
          · exact .inl h
      · exact .inr (List.mem_cons_of_mem _ h)
  unfold newest at h
  obtain ⟨x, hx, rfl⟩ := Option.map_eq_some_iff.mp h
  rcases key offers none x hx with h | h
  · cases h
  · exact ⟨x.2, h⟩

theorem mem_matching {L : Lookup} {name pkg : String} {bound : Option (Op × String)} :
    pkg ∈ matching L name bound ↔ L.Offers name bound pkg := by
  simp [matching, Lookup.Offers]

theorem newest_satisfyingOffers_mem {L : Lookup} {name wanted pkg : String} {op : Op}
    {pkgs : List String} (h : newest (satisfyingOffers L name op wanted pkgs) = some pkg) :
    pkg ∈ pkgs := by
  obtain ⟨evr, he⟩ := newest_mem h
  simp only [satisfyingOffers, List.mem_flatMap, List.mem_map, Prod.mk.injEq] at he
  obtain ⟨q, hq, _, _, rfl, _⟩ := he
  exact hq

/-- A resolved capability: an override, or a package that offers it. -/
theorem resolveCapability_ok {L : Lookup} {capability requiredBy pkg : String}
    (h : resolveCapability L capability requiredBy = .ok pkg) :
    L.overrideFor capability = some pkg ∨
      (L.overrideFor capability = none ∧
        L.Offers (splitConstraint capability).1 (splitConstraint capability).2 pkg) := by
  unfold resolveCapability at h
  cases hc : L.overrides.get? capability with
  | some q => left; simpa [Lookup.overrideFor, hc] using h
  | none =>
    cases hn : L.overrides.get? (splitConstraint capability).1 with
    | some q => left; simpa [Lookup.overrideFor, hc, hn] using h
    | none =>
      right
      refine ⟨by simp [Lookup.overrideFor, hc, hn], ?_⟩
      simp only [hc, hn] at h
      rw [← mem_matching]
      split at h
      · cases h
      · split at h
        · cases h
        · rename_i q heq
          cases h
          simp [heq]
        · split at h
          · rename_i hmem
            cases h
            exact hmem
          · split at h
            · cases h
            · split at h
              · rename_i hr
                cases h
                exact newest_satisfyingOffers_mem hr
              · cases h

/-- An ambiguous capability: no override applies, and the candidates are the packages that
    offer it. -/
theorem resolveCapability_ambiguous {L : Lookup} {capability requiredBy c : String}
    {candidates : List String}
    (h : resolveCapability L capability requiredBy = .error (.ambiguousProvider c candidates)) :
    L.overrideFor capability = none ∧ c = capability ∧
      candidates = matching L (splitConstraint capability).1 (splitConstraint capability).2 := by
  unfold resolveCapability at h
  cases hc : L.overrides.get? capability with
  | some q => simp [hc] at h
  | none =>
    cases hn : L.overrides.get? (splitConstraint capability).1 with
    | some q => simp [hc, hn] at h
    | none =>
      refine ⟨by simp [Lookup.overrideFor, hc, hn], ?_⟩
      simp only [hc, hn] at h
      split at h
      · cases h
      · split at h
        · cases h
        · cases h
        · split at h
          · cases h
          · split at h
            · cases h
              exact ⟨rfl, rfl⟩
            · split at h
              · cases h
              · cases h
                exact ⟨rfl, rfl⟩

/-! ## Who asks -/

/-- The answer does not depend on who asks; only the text of an error names them. -/
theorem resolveCapability_ok_who {L : Lookup} {cap who pkg : String}
    (h : resolveCapability L cap who = .ok pkg) (who' : String) :
    resolveCapability L cap who' = .ok pkg := by
  unfold resolveCapability at h ⊢
  grind

theorem resolveCapability_ambiguous_who {L : Lookup} {cap who c : String}
    {candidates : List String}
    (h : resolveCapability L cap who = .error (.ambiguousProvider c candidates))
    (who' : String) :
    resolveCapability L cap who' = .error (.ambiguousProvider c candidates) := by
  unfold resolveCapability at h ⊢
  grind

theorem resolveCapability_unresolved_who {L : Lookup} {cap who c w : String}
    (h : resolveCapability L cap who = .error (.unresolvedCapability c w)) (who' : String) :
    resolveCapability L cap who' = .error (.unresolvedCapability c who') := by
  unfold resolveCapability at h ⊢
  grind

/-! ## Where packages come from -/

/-- Every package an answer can name: the values of the overrides and the providers. -/
def Lookup.offered (L : Lookup) : List String :=
  L.overrides.items.map Prod.snd ++ L.provides.items.flatMap Prod.snd

theorem Lookup.override_offered {L : Lookup} {key pkg : String}
    (h : L.overrides.get? key = some pkg) : pkg ∈ L.offered :=
  List.mem_append_left _ (List.mem_map_of_mem (f := Prod.snd) (Dict.mem_items_of_get? h))

theorem Lookup.provider_offered {L : Lookup} {name pkg : String}
    (h : pkg ∈ L.providers name) : pkg ∈ L.offered := by
  unfold Lookup.providers Dict.getD at h
  cases hg : L.provides.get? name with
  | none => simp [hg] at h
  | some pkgs =>
    rw [hg] at h
    exact List.mem_append_right _ (List.mem_flatMap.mpr ⟨_, Dict.mem_items_of_get? hg, h⟩)

theorem Lookup.overrideFor_offered {L : Lookup} {capability pkg : String}
    (h : L.overrideFor capability = some pkg) : pkg ∈ L.offered := by
  unfold Lookup.overrideFor at h
  rcases Option.or_eq_some_iff.mp h with h | ⟨_, h⟩ <;> exact L.override_offered h

theorem resolveCapability_offered {L : Lookup} {capability requiredBy pkg : String}
    (h : resolveCapability L capability requiredBy = .ok pkg) : pkg ∈ L.offered := by
  rcases resolveCapability_ok h with h | ⟨_, h⟩
  · exact Lookup.overrideFor_offered h
  · exact Lookup.provider_offered h.1

end BuckosDistro.Depgraph
