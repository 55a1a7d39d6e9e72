/-
  Overrides are read key by key: two maps that answer every key alike close the same roots to
  the same set, with the same problems.
-/
import BuckosDistro.Depgraph.Require
import BuckosDistro.Depgraph.Run

namespace BuckosDistro.Depgraph

open BuckosDistro.Lib

/-- The same maps, with other overrides. -/
def Lookup.over (L : Lookup) (overrides : Dict String String) : Lookup :=
  { L with overrides := overrides }

section Over

variable {L : Lookup} {o : Dict String String}

theorem resolveCapability_over (h : ∀ key, o.get? key = L.overrides.get? key) :
    resolveCapability (L.over o) = resolveCapability L := by
  have hover : ∀ key, (L.over o).overrides.get? key = L.overrides.get? key := h
  funext cap who
  unfold resolveCapability
  simp only [hover]
  rfl

theorem resolve_over (h : ∀ key, o.get? key = L.overrides.get? key) :
    resolve (L.over o) = resolve L := by
  funext who cap
  unfold resolve
  rw [resolveCapability_over h]

theorem resolveRange_over (h : ∀ key, o.get? key = L.overrides.get? key) :
    resolveRange (L.over o) = resolveRange L := by
  have hover : ∀ key, (L.over o).overrides.get? key = L.overrides.get? key := h
  funext who caps
  unfold resolveRange
  simp only [hover]
  rfl

theorem capabilityPresent_over (h : ∀ key, o.get? key = L.overrides.get? key) :
    capabilityPresent (L.over o) = capabilityPresent L := by
  have hover : ∀ key, (L.over o).overrides.get? key = L.overrides.get? key := h
  funext seen cap
  unfold capabilityPresent
  rw [hover]
  rfl

theorem anySatisfied_congr {L' : Lookup} {seen : Finset String} {cs : List Node}
    (h : ∀ c ∈ cs, satisfied L' seen c = satisfied L seen c) :
    anySatisfied L' seen cs = anySatisfied L seen cs := by
  induction cs with
  | nil => rfl
  | cons c cs ih =>
    unfold anySatisfied
    rw [h c List.mem_cons_self, ih fun c hc => h c (List.mem_cons_of_mem _ hc)]

theorem allSatisfied_congr {L' : Lookup} {seen : Finset String} {cs : List Node}
    (h : ∀ c ∈ cs, satisfied L' seen c = satisfied L seen c) :
    allSatisfied L' seen cs = allSatisfied L seen cs := by
  induction cs with
  | nil => rfl
  | cons c cs ih =>
    unfold allSatisfied
    rw [h c List.mem_cons_self, ih fun c hc => h c (List.mem_cons_of_mem _ hc)]

/-- By induction on the tree: only the leaves ask for an override. -/
theorem satisfied_over (h : ∀ key, o.get? key = L.overrides.get? key) (seen : Finset String)
    (node : Node) : satisfied (L.over o) seen node = satisfied L seen node := by
  induction node using Node.induct with
  | cap text =>
    unfold satisfied
    rw [capabilityPresent_over h]
  | and cs ih =>
    unfold satisfied
    exact allSatisfied_congr ih
  | or cs ih =>
    unfold satisfied
    exact anySatisfied_congr ih
  | with_ cs ih =>
    unfold satisfied
    exact allSatisfied_congr ih
  | without l r hl hr =>
    unfold satisfied
    rw [hl, hr]
  | if_ t c e ht hc he =>
    cases e with
    | none =>
      unfold satisfied
      rw [hc, ht]
    | some e =>
      unfold satisfied
      rw [hc, ht, he e rfl]
  | unless_ t c e ht hc he =>
    cases e with
    | none =>
      unfold satisfied
      rw [hc, ht]
    | some e =>
      unfold satisfied
      rw [hc, ht, he e rfl]

theorem requireTogether_over (h : ∀ key, o.get? key = L.overrides.get? key) :
    requireTogether (L.over o) = requireTogether L := by
  have hover : ∀ key, (L.over o).overrides.get? key = L.overrides.get? key := h
  have hcommon : commonProviders (L.over o) = commonProviders L := by
    funext names
    cases names <;> rfl
  have hintersect : intersect (L.over o) = intersect L := by
    funext node
    unfold intersect
    rw [hcommon]
    rfl
  funext who node
  unfold requireTogether
  rw [resolveRange_over h, hintersect]
  simp only [hover]

theorem live_over (h : ∀ key, o.get? key = L.overrides.get? key) (who : String)
    (names : List String) : live (L.over o) who names = live L who names := by
  have hplain : resolveCapability { L.over o with provideEvr := Dict.empty } =
      resolveCapability { L with provideEvr := Dict.empty } :=
    @resolveCapability_over { L with provideEvr := Dict.empty } o h
  induction names with
  | nil => rfl
  | cons name names ih =>
    unfold live
    rw [hplain, ih]

theorem requireOneOf_over (h : ∀ key, o.get? key = L.overrides.get? key) :
    requireOneOf (L.over o) = requireOneOf L := by
  have hover : ∀ key, (L.over o).overrides.get? key = L.overrides.get? key := h
  funext who node
  unfold requireOneOf
  simp only [hover, live_over h]

theorem requireEach_congr {L' : Lookup} {seen : Finset String} {who : String} {final : Bool}
    {cs : List Node}
    (h : ∀ c ∈ cs, require L' seen who final c = require L seen who final c) :
    requireEach L' seen who final cs = requireEach L seen who final cs := by
  induction cs with
  | nil => rfl
  | cons c cs ih =>
    unfold requireEach
    rw [h c List.mem_cons_self, ih fun c hc => h c (List.mem_cons_of_mem _ hc)]

/-- One case for each kind of node. -/
theorem require_over (h : ∀ key, o.get? key = L.overrides.get? key) (seen : Finset String)
    (who : String) (final : Bool) (node : Node) :
    require (L.over o) seen who final node = require L seen who final node := by
  have hsat := satisfied_over h seen
  induction node using Node.induct with
  | cap text =>
    unfold require
    rw [resolve_over h]
  | and cs ih =>
    unfold require
    exact requireEach_congr ih
  | or cs ih =>
    have hany : anySatisfied (L.over o) seen cs = anySatisfied L seen cs :=
      anySatisfied_congr fun c _ => hsat c
    unfold require
    rw [hany, requireOneOf_over h]
  | with_ cs ih =>
    unfold require
    rw [requireTogether_over h]
  | without l r hl hr =>
    unfold require
    rw [requireTogether_over h]
  | if_ t c e ht hc he =>
    cases e with
    | none =>
      unfold require
      rw [hsat, ht]
    | some e =>
      unfold require
      rw [hsat, ht, he e rfl]
  | unless_ t c e ht hc he =>
    cases e with
    | none =>
      unfold require
      rw [hsat, ht]
    | some e =>
      unfold require
      rw [hsat, ht, he e rfl]

theorem reduceRich_over (h : ∀ key, o.get? key = L.overrides.get? key) :
    reduceRich (L.over o) = reduceRich L := by
  funext seen base pkg
  unfold reduceRich
  simp only [require_over h]

theorem demand_over (h : ∀ key, o.get? key = L.overrides.get? key) :
    demand (L.over o) = demand L := by
  funext seen pkg cap
  unfold demand
  rw [reduceRich_over h, resolve_over h]

theorem demandExtra_over (h : ∀ key, o.get? key = L.overrides.get? key) :
    demandExtra (L.over o) = demandExtra L := by
  funext seen cap who
  unfold demandExtra
  rw [reduceRich_over h, resolve_over h]

theorem scanPending_over (h : ∀ key, o.get? key = L.overrides.get? key) (final : Bool)
    (fuel : ℕ) (todo still : List (Node × String)) (s : State) :
    scanPending (L.over o) final fuel todo still s = scanPending L final fuel todo still s := by
  induction fuel generalizing todo still s with
  | zero => rfl
  | succ fuel ih =>
    cases todo with
    | nil => rfl
    | cons entry todo =>
      unfold scanPending
      simp only [require_over h, ih]

theorem settle_over (h : ∀ key, o.get? key = L.overrides.get? key) :
    settle (L.over o) = settle L := by
  have hover : ∀ key, (L.over o).overrides.get? key = L.overrides.get? key := h
  have hpending : settlePending (L.over o) = settlePending L := by
    funext final s
    unfold settlePending
    rw [scanPending_over h]
  have hchoices : settleChoices (L.over o) = settleChoices L := by
    funext s
    unfold settleChoices Choice.settledBy
    rw [capabilityPresent_over h]
    simp only [hover]
  funext s
  unfold settle
  rw [hpending, hchoices]

theorem step_over (h : ∀ key, o.get? key = L.overrides.get? key)
    (requires : Dict String (List String)) : step (L.over o) requires = step L requires := by
  funext s
  unfold step visit
  rw [demand_over h, settle_over h]

/-- **The closure reads the overrides key by key.** -/
theorem runtimeClosure_over (h : ∀ key, o.get? key = L.overrides.get? key)
    (requires : Dict String (List String)) (roots : List String)
    (extra : List (String × String)) :
    runtimeClosure (L.over o) requires roots extra = runtimeClosure L requires roots extra := by
  have hstart : start (L.over o) roots extra = start L roots extra := by
    unfold start
    rw [demandExtra_over h]
  have hrun : ∀ n, run (L.over o) requires n (start (L.over o) roots extra) =
      run L requires n (start L roots extra) := by
    intro n
    unfold run
    rw [step_over h, hstart]
  obtain ⟨n, hdone⟩ := run_terminates L requires roots extra
  have hdone' : (run (L.over o) requires n (start (L.over o) roots extra)).done = true := by
    rw [hrun n]
    exact hdone
  rw [runtimeClosure_eq n hdone, runtimeClosure_eq n hdone', hrun n]

end Over

end BuckosDistro.Depgraph
