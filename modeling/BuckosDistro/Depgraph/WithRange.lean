/-
  A range written with `with`, against the policy of a single bound.

  `resolve_range` and `resolve_capability` both narrow the providers of a name to those
  that meet the bounds. Of several, the policy takes the package of that very name, and else
  the one that states the newest version within the bounds. The range takes the one that
  states the newest version, within the bounds or not.
-/
import BuckosDistro.Depgraph.Closure
import BuckosDistro.Depgraph.VersionOrder

namespace BuckosDistro.Depgraph

open BuckosDistro.Lib

/-! ## Picks -/

/-- How a requirement ends: a package, no provider that will do, or too many. -/
inductive Pick where
  | chosen (pkg : String)
  | unresolved
  | ambiguous
deriving DecidableEq, Repr

def Pick.ofOption : Option String → Pick
  | some pkg => chosen pkg
  | none => ambiguous

/-- A call that returns a package, reports a choice, or reports a problem. -/
def Outcome.pick (o : Outcome) : Pick :=
  match o.got with
  | some (pkg :: _) => .chosen pkg
  | _ => if o.choices.isEmpty then .unresolved else .ambiguous

/-! ## Chains of bounds -/

/-- A chain of versioned bounds on one capability. -/
structure RangeChain where
  name : String
  first : String
  rest : List String
  named : ∀ cap ∈ first :: rest, (splitConstraint cap).1 = name
  bounded : ∀ cap ∈ first :: rest, (splitConstraint cap).2.isSome = true

namespace RangeChain

variable (C : RangeChain)

def caps : List String := C.first :: C.rest

/-- One bound of the chain on its own, twice. -/
def twice (cap : String) (h : cap ∈ C.caps) : RangeChain where
  name := C.name
  first := cap
  rest := [cap]
  named := by
    intro c hc
    rcases List.mem_cons.mp hc with rfl | hc
    · exact C.named c h
    · rw [List.mem_singleton.mp hc]
      exact C.named cap h
  bounded := by
    intro c hc
    rcases List.mem_cons.mp hc with rfl | hc
    · exact C.bounded c h
    · rw [List.mem_singleton.mp hc]
      exact C.bounded cap h

end RangeChain

/-- A version within a bound. -/
def withinBound (cap : String) (evr : Evr) : Bool :=
  match (splitConstraint cap).2 with
  | none => true
  | some (op, wanted) => satisfiesConstraint evr op wanted

/-- The versions some packages state, in the order of the packages. -/
def statedOffers (L : Lookup) (name : String) (pkgs : List String) : List (String × Evr) :=
  pkgs.flatMap fun pkg => (L.versionList name pkg).map fun evr => (pkg, evr)

/-- The package of the first of the newest versions. -/
noncomputable def firstNewest (offers : List (String × Evr)) : Option String :=
  (offers.argmax fun offer => evrKey offer.2).map Prod.fst

theorem newest_eq (offers : List (String × Evr)) : newest offers = firstNewest offers := by
  unfold newest firstNewest
  congr 1
  induction offers using List.reverseRecOn with
  | nil => rfl
  | append_singleton offers offer ih =>
    rw [List.foldl_append, ih, List.argmax_concat]
    cases hbest : offers.argmax fun offer => evrKey offer.2 with
    | none => rfl
    | some best =>
      have hiff : compareEvr offer.2 best.2 > 0 ↔ evrKey best.2 < evrKey offer.2 := by
        rw [compareEvr_eq, gt_iff_lt, ← not_le, orderSign_nonpos, not_le]
      show newer (some best) offer =
        if evrKey best.2 < evrKey offer.2 then some offer else some best
      unfold newer
      simp only [hiff]

/-- The versions within every bound of the chain. -/
def meetingOffers (L : Lookup) (C : RangeChain) (pkgs : List String) : List (String × Evr) :=
  (statedOffers L C.name pkgs).filter fun offer => C.caps.all fun cap => withinBound cap offer.2

/-- The policy of a single bound, over the packages that meet every bound. -/
def rangePolicy (L : Lookup) (C : RangeChain) : Pick :=
  match L.overrides.get? C.name with
  | some pkg => .chosen pkg
  | none =>
    match rangeCandidates L C.name C.caps with
    | [] => .unresolved
    | [pkg] => .chosen pkg
    | pkgs =>
      if C.name ∈ pkgs then .chosen C.name
      else .ofOption (newest (meetingOffers L C pkgs))

/-! ## The range -/

/-- Of several packages that meet the bounds, the one of the name states the newest version;
    where there is none of the name, the newest version within the bounds decides alike. -/
def FairRange (L : Lookup) (C : RangeChain) : Prop :=
  (L.overrides.get? C.name).isSome ∨ (rangeCandidates L C.name C.caps).length ≤ 1 ∨
    if C.name ∈ rangeCandidates L C.name C.caps then
      firstNewest (statedOffers L C.name (rangeCandidates L C.name C.caps)) = some C.name
    else
      firstNewest (statedOffers L C.name (rangeCandidates L C.name C.caps)) =
        firstNewest (meetingOffers L C (rangeCandidates L C.name C.caps))

theorem stripCapabilityVersion_first (C : RangeChain) :
    stripCapabilityVersion (C.caps.headD "") = C.name := by
  rw [← splitConstraint_fst]
  exact C.named C.first (List.mem_cons_self ..)

theorem foldl_filter_nil {α β : Type} (keep : β → α → Bool) (bs : List β) :
    bs.foldl (fun (as : List α) b => as.filter (keep b)) [] = [] := by
  induction bs with
  | nil => rfl
  | cons b bs ih => exact ih

theorem rangeCandidates_of_isEmpty {L : Lookup} {name : String} {caps : List String}
    (h : (L.providers name).isEmpty = true) : rangeCandidates L name caps = [] := by
  have hnil := List.isEmpty_iff.mp h
  unfold rangeCandidates
  rw [hnil]
  exact foldl_filter_nil _ caps

/-- What the range picks, in the words of the policy. -/
theorem pick_resolveRange (L : Lookup) (who : String) (C : RangeChain) :
    (resolveRange L who C.caps).pick =
      match L.overrides.get? C.name with
      | some pkg => .chosen pkg
      | none =>
        match rangeCandidates L C.name C.caps with
        | [] => .unresolved
        | [pkg] => .chosen pkg
        | pkgs => .ofOption (firstNewest (statedOffers L C.name pkgs)) := by
  unfold resolveRange
  simp only [stripCapabilityVersion_first]
  cases L.overrides.get? C.name with
  | some pkg => rfl
  | none =>
    dsimp only
    by_cases hempty : (L.providers C.name).isEmpty = true
    · rw [if_pos hempty, rangeCandidates_of_isEmpty hempty]
      rfl
    · rw [if_neg hempty]
      rcases rangeCandidates L C.name C.caps with _ | ⟨p, _ | ⟨q, pkgs⟩⟩
      · rfl
      · rfl
      · dsimp only
        rw [← newest_eq]
        show (match newest (statedOffers L C.name (p :: q :: pkgs)) with
          | some pkg => Outcome.found [pkg]
          | none => Outcome.choice _ _ who).pick = _
        cases newest (statedOffers L C.name (p :: q :: pkgs)) <;> rfl

theorem ofOption_inj {a b : Option String} : Pick.ofOption a = Pick.ofOption b ↔ a = b := by
  cases a <;> cases b <;> simp [Pick.ofOption]

/-- The range follows the policy exactly when it is fair. -/
theorem range_follows_iff (L : Lookup) (who : String) (C : RangeChain) :
    (resolveRange L who C.caps).pick = rangePolicy L C ↔ FairRange L C := by
  rw [pick_resolveRange]
  unfold rangePolicy FairRange
  cases L.overrides.get? C.name with
  | some pkg => exact iff_of_true rfl (Or.inl rfl)
  | none =>
    dsimp only
    match rangeCandidates L C.name C.caps with
    | [] => exact iff_of_true rfl (Or.inr (Or.inl (by simp)))
    | [pkg] => exact iff_of_true rfl (Or.inr (Or.inl (by simp)))
    | p :: q :: pkgs =>
      have hmany : ¬ (p :: q :: pkgs).length ≤ 1 := by
        simp only [List.length_cons]
        omega
      have hnone : ¬ (none : Option String).isSome = true := Bool.false_ne_true
      rw [or_iff_right hnone, or_iff_right hmany]
      dsimp only
      by_cases hname : C.name ∈ p :: q :: pkgs
      · rw [if_pos hname, if_pos hname]
        exact @ofOption_inj _ (some C.name)
      · rw [if_neg hname, if_neg hname, newest_eq, ofOption_inj]

/-! ## A bound on its own -/

section Alone

variable (L : Lookup) (C : RangeChain)

theorem rangeCandidates_twice (name cap : String) :
    rangeCandidates L name [cap, cap] = matching L name (splitConstraint cap).2 := by
  unfold rangeCandidates matching
  rw [List.foldl_cons, List.foldl_cons, List.foldl_nil, List.filter_filter]
  simp only [Bool.and_self]

/-- Within a bound written twice are the versions within it. -/
theorem meetingOffers_twice {cap : String} (h : cap ∈ C.caps) {op : Op} {wanted : String}
    (hcap : (splitConstraint cap).2 = some (op, wanted)) (pkgs : List String) :
    meetingOffers L (C.twice cap h) pkgs = satisfyingOffers L C.name op wanted pkgs := by
  have hwithin : withinBound cap = fun evr => satisfiesConstraint evr op wanted := by
    funext evr
    unfold withinBound
    rw [hcap]
  unfold meetingOffers satisfyingOffers statedOffers
  rw [List.filter_flatMap]
  congr 1
  funext pkg
  rw [List.filter_map]
  congr 1
  refine List.filter_congr fun evr _ => ?_
  show (withinBound cap evr && (withinBound cap evr && true)) = _
  rw [Bool.and_true, Bool.and_self, hwithin]

/-- With no override for its text, a bound follows the policy of the bound written twice. -/
theorem pick_resolve (who : String) {cap : String} (h : cap ∈ C.caps)
    (hover : L.overrides.get? cap = none) :
    (resolve L who cap).pick = rangePolicy L (C.twice cap h) := by
  obtain ⟨⟨op, wanted⟩, hcap⟩ := Option.isSome_iff_exists.mp (C.bounded cap h)
  have hname : (splitConstraint cap).1 = C.name := C.named cap h
  have hmatching : rangeCandidates L C.name (C.twice cap h).caps =
      matching L C.name (some (op, wanted)) := by
    rw [← hcap]
    exact rangeCandidates_twice L C.name cap
  unfold resolve resolveCapability rangePolicy
  simp only [hover, hname, hcap]
  show _ = match L.overrides.get? C.name with
    | some pkg => Pick.chosen pkg
    | none => match rangeCandidates L C.name (C.twice cap h).caps with
      | [] => .unresolved
      | [pkg] => .chosen pkg
      | pkgs =>
        if C.name ∈ pkgs then .chosen C.name
        else .ofOption (newest (meetingOffers L (C.twice cap h) pkgs))
  cases L.overrides.get? C.name with
  | some pkg => rfl
  | none =>
    dsimp only
    by_cases hempty : (L.providers C.name).isEmpty = true
    · rw [if_pos hempty, rangeCandidates_of_isEmpty hempty]
      rfl
    · rw [if_neg hempty, hmatching]
      rcases matching L C.name (some (op, wanted)) with _ | ⟨p, _ | ⟨q, pkgs⟩⟩
      · rfl
      · rfl
      · dsimp only
        by_cases hin : C.name ∈ p :: q :: pkgs
        · rw [if_pos hin, if_pos hin]
          rfl
        · rw [if_neg hin, if_neg hin, meetingOffers_twice L C h hcap]
          cases newest (satisfyingOffers L C.name op wanted (p :: q :: pkgs)) <;> rfl

/-- A bound on its own ends as the range of the bound twice: the range is fair, or an
    override for the text of the bound names what the range takes. -/
def FairAlone (cap : String) (h : cap ∈ C.caps) : Prop :=
  match L.overrides.get? cap with
  | none => FairRange L (C.twice cap h)
  | some pkg =>
    L.overrides.get? C.name = some pkg ∨ (L.overrides.get? C.name = none ∧
      (rangeCandidates L C.name [cap, cap] = [pkg] ∨
        (2 ≤ (rangeCandidates L C.name [cap, cap]).length ∧
          firstNewest (statedOffers L C.name (rangeCandidates L C.name [cap, cap])) = some pkg)))

theorem alone_follows_iff (who : String) (cap : String) (h : cap ∈ C.caps) :
    (resolveRange L who (C.twice cap h).caps).pick = (resolve L who cap).pick ↔
      FairAlone L C cap h := by
  unfold FairAlone
  cases hover : L.overrides.get? cap with
  | none =>
    rw [pick_resolve L C who h hover]
    exact range_follows_iff L who (C.twice cap h)
  | some pkg =>
    have hresolve : (resolve L who cap).pick = .chosen pkg := by
      unfold resolve resolveCapability
      rw [hover]
      rfl
    rw [hresolve, pick_resolveRange]
    show (match L.overrides.get? C.name with
      | some pkg => Pick.chosen pkg
      | none => match rangeCandidates L C.name [cap, cap] with
        | [] => .unresolved
        | [pkg] => .chosen pkg
        | pkgs => .ofOption (firstNewest (statedOffers L C.name pkgs))) = _ ↔ _
    cases L.overrides.get? C.name with
    | some q => simp
    | none =>
      match rangeCandidates L C.name [cap, cap] with
      | [] => simp
      | [q] => simp
      | p :: q :: pkgs =>
        show Pick.ofOption _ = Pick.ofOption (some pkg) ↔ _
        rw [ofOption_inj]
        simp

end Alone

/-- **A range follows the policy of a single bound**, and a bound written twice ends as the
    bound alone, exactly when the range and its bounds are fair. -/
theorem with_range_iff (L : Lookup) (who : String) (C : RangeChain) :
    ((resolveRange L who C.caps).pick = rangePolicy L C ∧
      ∀ cap (h : cap ∈ C.caps),
        (resolveRange L who (C.twice cap h).caps).pick = (resolve L who cap).pick) ↔
    FairRange L C ∧ ∀ cap h, FairAlone L C cap h := by
  rw [range_follows_iff]
  exact and_congr_right fun _ => forall_congr' fun cap => forall_congr' fun h =>
    alone_follows_iff L C who cap h

/-- Two crates, of which the second has the newest version of all and the first the newest
    within the bounds. -/
def crateLookup : Lookup where
  provides := ⟨[("crate", ["rust-crate", "rust-crate_2"])]⟩
  provideEvr := ⟨[("crate",
    ⟨[("rust-crate", [⟨none, some "1.5", none⟩]),
      ("rust-crate_2", [⟨none, some "1.2", none⟩, ⟨none, some "2.0", none⟩])]⟩)]⟩
  overrides := .empty

/-- The bounds `>= 1` and `< 2` on `crate`. -/
def crateRange : RangeChain where
  name := "crate"
  first := "crate >= 1"
  rest := ["crate < 2"]
  named := by decide
  bounded := by decide

/-- A version that fails a bound makes its package win. -/
theorem outside_wins :
    (resolveRange crateLookup "app" crateRange.caps).pick = .chosen "rust-crate_2" ∧
      rangePolicy crateLookup crateRange = .chosen "rust-crate" := by
  decide +kernel

end BuckosDistro.Depgraph
