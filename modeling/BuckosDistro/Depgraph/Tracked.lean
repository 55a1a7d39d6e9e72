/-
  What a whole run does with the calls of its trips.

  The step lemmas of `Calls` are iterated here: `Calls.keeps` for the calls, `demand_kept`
  for the requirements of a package in the set, `tracked_requirement` for the expressions.
  `Outcome.Kept` is what is left of `State.Keeps` when a run has ended without problems.
-/
import BuckosDistro.Depgraph.Calls

namespace BuckosDistro.Depgraph

open BuckosDistro.Lib

/-! ## From a trip to a run -/

section Run

variable {L : Lookup} {requires : Dict String (List String)}

@[simp] theorem run_zero (s : State) : run L requires 0 s = s := rfl

theorem run_succ (n : ℕ) (s : State) :
    run L requires (n + 1) s = step L requires (run L requires n s) :=
  Function.iterate_succ_apply' _ _ _

theorem run_add (m n : ℕ) (s : State) :
    run L requires (m + n) s = run L requires m (run L requires n s) :=
  Function.iterate_add_apply _ _ _ _

theorem seen_subset_run {m n : ℕ} (h : m ≤ n) (s : State) :
    (run L requires m s).seen ⊆ (run L requires n s).seen :=
  Machine.later_of_step (R := fun s s' : State => s.seen ⊆ s'.seen) (fun _ => subset_rfl)
    (fun _ _ _ => Finset.Subset.trans) (fun _ => seen_subset_step) s h

theorem keeps_run {o : Outcome} {m n : ℕ} {s : State} (h : m ≤ n)
    (hk : (run L requires m s).Keeps L o) :
    (run L requires n s).Keeps L o :=
  Machine.later_of_step (R := fun s s' : State => s.Keeps L o → s'.Keeps L o) (fun _ => id)
    (fun _ _ _ h h' => h' ∘ h) (fun _ h => keeps_step h) s h hk

/-- The calls of a trip are read against the set after it. -/
theorem CallsIn.seen_eq {s : State} {c : Call} (hd : s.done = false)
    (h : CallsIn L requires s c) : c.seen = (step L requires s).seen := by
  induction h with
  | @visited pkg rest cap node hf hp _ _ =>
    have hv : Visits L requires pkg s (step L requires s) := step_visits hd hf hp
    rw [hv.seen]
  | scanned hf _ => rw [(step_settles hd hf).seen]
  | rescanned hf _ _ => rw [(step_settles hd hf).seen]
  | inner _ hm ih => rwa [hm.seen]

theorem Call.Within.seen {c d : Call} (h : c.Within L d) : d.seen = c.seen := by
  induction h with
  | self => rfl
  | inner _ hm ih => rw [hm.seen, ih]

variable {roots : List String} {extra : List (String × String)}

theorem start_seen : (start L roots extra).seen = ∅ := (absorbs_start L roots extra).seen

theorem start_done : (start L roots extra).done = false := (absorbs_start L roots extra).done

/-- The state before the first trip keeps what the `extra` entries demand. -/
theorem start_keeps {entry : String × String} (h : entry ∈ extra) :
    (start L roots extra).Keeps L (demandExtra L ∅ entry.1 entry.2) := by
  have ha := absorbs_start L roots extra
  have hm : demandExtra L ∅ entry.1 entry.2 ∈
      extra.map fun entry => demandExtra L ∅ entry.1 entry.2 := List.mem_map_of_mem h
  exact ⟨fun p hp => .inr ((ha.frontier p).mpr (.inr ⟨by simp, _, hm, hp⟩)),
    fun c hc => .inl ((ha.choices c).mpr (.inr ⟨_, hm, hc⟩)),
    fun e he => (ha.problems e).mpr (.inr ⟨_, hm, he⟩)⟩

theorem Calls.mono {m n : ℕ} (h : m ≤ n) {c : Call}
    (hc : Calls L requires roots extra m c) : Calls L requires roots extra n c := by
  cases hc with
  | extra he hn hw => exact .extra he hn hw
  | trip hi hd hc => exact .trip (Nat.lt_of_lt_of_le hi h) hd hc

theorem Calls.inner {n : ℕ} {c d : Call} (hc : Calls L requires roots extra n c)
    (h : c.Makes L d) : Calls L requires roots extra n d := by
  cases hc with
  | extra he hn hw => exact .extra he hn (hw.inner h)
  | trip hi hd hc => exact .trip hi hd (hc.inner h)

/-- **Nothing a call says is lost.** -/
theorem Calls.keeps {n : ℕ} {c : Call} (h : Calls L requires roots extra n c) :
    (run L requires n (start L roots extra)).Keeps L (c.outcome L) := by
  cases h with
  | @extra entry node c he hn hw =>
    have hk : (start L roots extra).Keeps L (demandExtra L ∅ entry.1 entry.2) :=
      start_keeps he
    rw [demandExtra_of_richNode hn] at hk
    have : (start L roots extra).Keeps L (c.outcome L) :=
      hk.of_le (hw.le.trans (Outcome.le_orPending _ _ _))
    exact keeps_run (m := 0) (Nat.zero_le n) this
  | @trip i c hi hd hc =>
    refine keeps_run (m := i + 1) hi ?_
    rw [run_succ]
    exact hc.keeps hd

theorem Calls.seen_subset {n : ℕ} {c : Call} (h : Calls L requires roots extra n c) :
    c.seen ⊆ (run L requires n (start L roots extra)).seen := by
  cases h with
  | extra _ _ hw =>
    rw [hw.seen]
    exact Finset.empty_subset _
  | trip hi hd hc =>
    rw [hc.seen_eq hd, ← run_succ]
    exact seen_subset_run hi _

/-- Every requirement of a package in the set was evaluated after the package entered it,
    and what that demanded is kept. -/
theorem demand_kept {n : ℕ} {pkg cap : String}
    (hp : pkg ∈ (run L requires n (start L roots extra)).seen)
    (hc : cap ∈ requires.getD pkg []) :
    ∃ t, pkg ∈ t ∧ t ⊆ (run L requires n (start L roots extra)).seen ∧
      (run L requires n (start L roots extra)).Keeps L (demand L t pkg cap) := by
  induction n with
  | zero => simp [start_seen] at hp
  | succ n ih =>
    rw [run_succ] at hp ⊢
    by_cases hold : pkg ∈ (run L requires n (start L roots extra)).seen
    · obtain ⟨t, ht, hsub, hk⟩ := ih hold
      exact ⟨t, ht, Finset.Subset.trans hsub seen_subset_step, keeps_step hk⟩
    · have hd : (run L requires n (start L roots extra)).done = false := by
        cases hd : (run L requires n (start L roots extra)).done with
        | false => rfl
        | true => exact absurd (by rwa [step_done hd] at hp) hold
      rcases step_cases L requires hd with ⟨_, _, _, _, he⟩ | ⟨pkg', hv⟩ | hs
      · rw [he] at hp
        exact absurd hp hold
      · rw [hv.seen, Finset.mem_insert] at hp
        rcases hp with rfl | hp
        · exact ⟨_, by rw [hv.seen]; exact Finset.mem_insert_self _ _, subset_rfl,
            hv.keeps hc⟩
        · exact absurd hp hold
      · rw [hs.seen] at hp
        exact absurd hp hold

end Run

/-! ## Expressions -/

/-- What became of an expression put to the machine: it waits on the pending list, or one
    of the calls `C` answered it and what that call appended is tracked in turn. -/
inductive Tracked (L : Lookup) (C : Call → Prop) (pending : List (Node × String)) :
    Node × String → Prop
  | waits {q} : q ∈ pending → Tracked L C pending q
  | answered {q} (t : Finset String) (final : Bool) : C ⟨q.1, q.2, t, final⟩ →
      (require L t q.2 final q.1).got.isSome →
      (∀ q' ∈ (require L t q.2 final q.1).pending, Tracked L C pending q') →
      Tracked L C pending q

theorem Tracked.mono {L : Lookup} {C C' : Call → Prop} {ps ps' : List (Node × String)}
    (hC : ∀ c, C c → C' c) (hp : ∀ q ∈ ps, Tracked L C' ps' q) {q : Node × String}
    (h : Tracked L C ps q) : Tracked L C' ps' q := by
  induction h with
  | waits hq => exact hp _ hq
  | answered t final hc hg _ ih => exact .answered t final (hC _ hc) hg ih

theorem size_le_pendingSize {q : Node × String} {ps : List (Node × String)} (h : q ∈ ps) :
    q.1.size ≤ pendingSize ps := by
  obtain ⟨l, r, rfl⟩ := List.append_of_mem h
  rw [pendingSize_append]
  have : pendingSize (q :: r) = q.1.size + pendingSize r := rfl
  omega

/-- A scan tracks what it scans, if the expressions that said `None` are the new list. The
    induction is on size: what a call appends is smaller than its expression. -/
theorem tracked_of_scanned {L : Lookup} {C : Call → Prop} {t : Finset String} {final : Bool}
    {todo ps : List (Node × String)}
    (hC : ∀ q, Scanned L t final todo q → C ⟨q.1, q.2, t, final⟩)
    (hps : ∀ q, Scanned L t final todo q → (require L t q.2 final q.1).got = none → q ∈ ps)
    {q : Node × String} (h : Scanned L t final todo q) : Tracked L C ps q := by
  induction hn : q.1.size using Nat.strong_induction_on generalizing q with
  | _ n ih =>
    cases hg : (require L t q.2 final q.1).got with
    | none => exact .waits (hps q h hg)
    | some ps' =>
      refine .answered t final (hC q h) (by rw [hg]; rfl) fun q' hq' => ?_
      have hlt := pendingSize_require_lt L t q.2 final q.1
      have hle := size_le_pendingSize hq'
      exact ih q'.1.size (by omega) (.appended h hq') rfl

/-- One trip loses track of no expression. -/
theorem tracked_step {L : Lookup} {requires : Dict String (List String)} {C : Call → Prop}
    {s : State} (hC : ∀ c, CallsIn L requires s c → C c) (hd : s.done = false)
    {q : Node × String} (h : q ∈ s.pending) : Tracked L C (step L requires s).pending q := by
  rcases step_cases L requires hd with ⟨_, _, _, _, he⟩ | ⟨pkg, hv⟩ | hs
  · rw [he]
    exact .waits h
  · exact .waits ((hv.pending q).mpr (.inl h))
  · have hmid : Tracked L C (midSettle L s).pending q :=
      tracked_of_scanned (fun q hq => hC _ (.scanned hs.drained hq))
        (fun q hq hg => (hs.midPending q).mpr ⟨hq, hg⟩) (.listed h)
    rcases hs.final with ⟨_, _, hp, _⟩ | ⟨hf, _, hp, _⟩
    · rwa [hp]
    · refine hmid.mono (fun _ hc => hc) fun q hq => ?_
      exact tracked_of_scanned (fun q hq => hC _ (.rescanned hs.drained hf hq))
        (fun q hq hg => (hp q).mpr ⟨hq, hg⟩) (.listed hq)

/-- An expression a call answered or put on the pending list is tracked. -/
theorem tracked_orPending {L : Lookup} {C : Call → Prop} {ps : List (Node × String)}
    {node : Node} {who : String} {t : Finset String} {final : Bool}
    (hC : C ⟨node, who, t, final⟩)
    (hps : ∀ q ∈ ((require L t who final node).orPending node who).pending, q ∈ ps) :
    Tracked L C ps (node, who) := by
  cases hg : (require L t who final node).got with
  | none => exact .waits (hps _ (Outcome.mem_pending_orPending.mpr (.inr ⟨hg, rfl⟩)))
  | some got =>
    refine .answered t final hC (by rw [hg]; rfl) fun q hq => ?_
    exact .waits (hps q (Outcome.mem_pending_orPending.mpr (.inl hq)))

section Run

variable {L : Lookup} {requires : Dict String (List String)} {roots : List String}
  {extra : List (String × String)}

/-- The calls of the first `n` trips that are read against a set containing `base`. -/
def CallsFrom (L : Lookup) (requires : Dict String (List String)) (roots : List String)
    (extra : List (String × String)) (n : ℕ) (base : Finset String) (c : Call) : Prop :=
  Calls L requires roots extra n c ∧ base ⊆ c.seen

theorem callsFrom_trip {n : ℕ} {base : Finset String}
    (hb : base ⊆ (run L requires (n + 1) (start L roots extra)).seen)
    (hd : (run L requires n (start L roots extra)).done = false) (c : Call)
    (hc : CallsIn L requires (run L requires n (start L roots extra)) c) :
    CallsFrom L requires roots extra (n + 1) base c := by
  refine ⟨.trip (Nat.lt_succ_self n) hd hc, ?_⟩
  rw [hc.seen_eq hd, ← run_succ]
  exact hb

theorem Tracked.succ {n : ℕ} {base : Finset String} {q : Node × String}
    (hb : base ⊆ (run L requires n (start L roots extra)).seen)
    (h : Tracked L (CallsFrom L requires roots extra n base)
      (run L requires n (start L roots extra)).pending q) :
    Tracked L (CallsFrom L requires roots extra (n + 1) base)
      (run L requires (n + 1) (start L roots extra)).pending q := by
  refine h.mono (fun c hc => ⟨hc.1.mono (Nat.le_succ n), hc.2⟩) fun q hq => ?_
  have hb' := Finset.Subset.trans hb
    (seen_subset_run (L := L) (Nat.le_succ n) (start L roots extra))
  cases hd : (run L requires n (start L roots extra)).done with
  | true =>
    rw [run_succ, step_done hd]
    exact .waits hq
  | false =>
    have := tracked_step (callsFrom_trip hb' hd) hd hq
    rwa [← run_succ] at this

/-- Every expression a package of the set requires is tracked, through calls read against
    sets that contain the package. -/
theorem tracked_requirement {n : ℕ} {pkg cap : String} {node : Node}
    (hp : pkg ∈ (run L requires n (start L roots extra)).seen)
    (hc : cap ∈ requires.getD pkg []) (hn : richNode cap = some node) :
    Tracked L (CallsFrom L requires roots extra n {pkg})
      (run L requires n (start L roots extra)).pending (node, pkg) := by
  induction n with
  | zero => simp [start_seen] at hp
  | succ n ih =>
    by_cases hold : pkg ∈ (run L requires n (start L roots extra)).seen
    · exact (ih hold).succ (Finset.singleton_subset_iff.mpr hold)
    cases hd : (run L requires n (start L roots extra)).done with
    | true =>
      rw [run_succ, step_done hd] at hp
      exact absurd hp hold
    | false =>
      have hcalls := callsFrom_trip (Finset.singleton_subset_iff.mpr hp) hd
      rw [run_succ] at hp ⊢
      rcases step_cases L requires hd with ⟨_, _, _, _, he⟩ | ⟨pkg', hv⟩ | hs
      · rw [he] at hp
        exact absurd hp hold
      · obtain ⟨rest, hf, _⟩ := hv.popped
        have hpe : pkg = pkg' := by
          rw [hv.seen, Finset.mem_insert] at hp
          exact hp.resolve_right hold
        subst hpe
        refine tracked_orPending (hcalls _ (.visited hf hv.fresh hc hn)) fun q hq => ?_
        refine (hv.pending q).mpr (.inr ⟨cap, hc, ?_⟩)
        rwa [demand_of_richNode hn, hv.seen]
      · rw [hs.seen] at hp
        exact absurd hp hold

/-- Every expression of an `extra` entry is tracked. -/
theorem tracked_extra (n : ℕ) {entry : String × String} {node : Node} (he : entry ∈ extra)
    (hn : richNode entry.1 = some node) :
    Tracked L (CallsFrom L requires roots extra n ∅)
      (run L requires n (start L roots extra)).pending (node, entry.2) := by
  induction n with
  | zero =>
    have hcall : CallsFrom L requires roots extra 0 ∅ ⟨node, entry.2, ∅, false⟩ :=
      ⟨.extra he hn .self, subset_rfl⟩
    refine tracked_orPending hcall fun q hq => ?_
    have ha := absorbs_start L roots extra
    refine (ha.pending q).mpr (.inr ⟨_, List.mem_map_of_mem he, ?_⟩)
    rwa [demandExtra_of_richNode hn]
  | succ n ih => exact ih.succ (Finset.empty_subset _)

/-- Every expression a package of the set requires was read when the package entered. -/
theorem called_requirement {n : ℕ} {pkg cap : String} {node : Node}
    (hp : pkg ∈ (run L requires n (start L roots extra)).seen)
    (hc : cap ∈ requires.getD pkg []) (hn : richNode cap = some node) :
    ∃ t, pkg ∈ t ∧ Calls L requires roots extra n ⟨node, pkg, t, false⟩ := by
  induction n with
  | zero => simp [start_seen] at hp
  | succ n ih =>
    by_cases hold : pkg ∈ (run L requires n (start L roots extra)).seen
    · obtain ⟨t, ht, hcall⟩ := ih hold
      exact ⟨t, ht, hcall.mono (Nat.le_succ n)⟩
    rw [run_succ] at hp
    cases hd : (run L requires n (start L roots extra)).done with
    | true =>
      rw [step_done hd] at hp
      exact absurd hp hold
    | false =>
      rcases step_cases L requires hd with ⟨_, _, _, _, he⟩ | ⟨pkg', hv⟩ | hs
      · rw [he] at hp
        exact absurd hp hold
      · obtain ⟨rest, hf, _⟩ := hv.popped
        rw [hv.seen, Finset.mem_insert] at hp
        have hpe : pkg = pkg' := hp.resolve_right hold
        subst hpe
        exact ⟨_, Finset.mem_insert_self _ _,
          .trip (Nat.lt_succ_self n) hd (.visited hf hold hc hn)⟩
      · rw [hs.seen] at hp
        exact absurd hp hold

/-! ## The end of a run -/

/-- What is true of the state a run ends in: the frontier is empty, and what still waits
    said `None` to the final pass. -/
structure Ended (L : Lookup) (s : State) : Prop where
  frontier : s.frontier = []
  pending : ∀ q ∈ s.pending, (require L s.seen q.2 true q.1).got = none

theorem ended_run {n : ℕ}
    (h : (run L requires n (start L roots extra)).done = true) :
    Ended L (run L requires n (start L roots extra)) := by
  induction n with
  | zero => simp [start_done] at h
  | succ n ih =>
    cases hd : (run L requires n (start L roots extra)).done with
    | true =>
      rw [run_succ, step_done hd]
      exact ih hd
    | false =>
      rw [run_succ] at h ⊢
      rcases step_cases L requires hd with ⟨_, _, _, _, he⟩ | ⟨pkg, hv⟩ | hs
      · rw [he] at h
        exact absurd h (by simp [hd])
      · rw [hv.done] at h
        cases h
      · have hf : (step L requires
            (run L requires n (start L roots extra))).frontier = [] := by
          rw [hs.done] at h
          exact List.isEmpty_iff.mp h
        refine ⟨hf, fun q hq => ?_⟩
        rcases hs.final with ⟨hne, hm, _⟩ | ⟨_, _, hp, _⟩
        · exact absurd (hm ▸ hf) hne
        · rw [hs.seen]
          exact ((hp q).mp hq).2

theorem finalState_ended : Ended L (finalState L requires roots extra) :=
  ended_run finalState_done

/-- What an `extra` entry demands is kept to the end. -/
theorem extra_kept {entry : String × String} (h : entry ∈ extra) :
    (finalState L requires roots extra).Keeps L (demandExtra L ∅ entry.1 entry.2) := by
  have hk : (start L roots extra).Keeps L (demandExtra L ∅ entry.1 entry.2) := start_keeps h
  exact keeps_run (m := 0) (Nat.zero_le _) hk

/-- The roots are in the set. -/
theorem root_mem_finalState {p : String} (h : p ∈ roots) :
    p ∈ (finalState L requires roots extra).seen := by
  have hk : (start L roots extra).Keeps L (.found [p]) := by
    refine ⟨fun p' hp' => .inr ?_, by simp, by simp⟩
    have : p' = p := by simpa using hp'
    exact ((absorbs_start L roots extra).frontier p').mpr (.inl (by simp [this, h]))
  have hend : (finalState L requires roots extra).Keeps L (.found [p]) :=
    keeps_run (m := 0) (Nat.zero_le _) hk
  simpa [finalState_ended.frontier] using hend.pkgs p (by simp)

end Run

/-! ## Runs without problems -/

/-- The effects of an outcome on a set that is complete and on which nothing is reported. -/
structure Outcome.Kept (L : Lookup) (S : Finset String) (o : Outcome) : Prop where
  pkgs : ∀ p ∈ o.pkgs, p ∈ S
  choices : ∀ c ∈ o.choices, c.settledBy L S = true ∨
    ∃ r ∈ S, L.overrides.get? c.expression = some r
  problems : o.problems = []

theorem reportChoices_eq_nil {choices : List Choice} (h : reportChoices choices = []) :
    choices = [] := by
  cases choices with
  | nil => rfl
  | cons c cs =>
    have hm : c.expression ∈ PyText.sortedSet ((c :: cs).map Choice.expression) := by simp
    rw [reportChoices, List.map_eq_nil_iff] at h
    rw [h] at hm
    cases hm

section Clean

variable {L : Lookup} {requires : Dict String (List String)} {roots : List String}
  {extra : List (String × String)} {S : Finset String}

/-- The calls of a whole run. -/
def CallsOf (L : Lookup) (requires : Dict String (List String)) (roots : List String)
    (extra : List (String × String)) : Call → Prop :=
  Calls L requires roots extra (trips L requires roots extra)

theorem State.Keeps.kept {s : State} {o : Outcome} (h : s.Keeps L o) (hf : s.frontier = [])
    (hc : s.choices = []) (hp : s.problems = []) : o.Kept L s.seen := by
  refine ⟨fun p hpk => ?_, fun c hch => ?_, ?_⟩
  · simpa [hf] using h.pkgs p hpk
  · rcases h.choices c hch with h | h | ⟨r, hr, h⟩
    · rw [hc] at h
      cases h
    · exact .inl h
    · exact .inr ⟨r, by simpa [hf] using h, hr⟩
  · refine List.eq_nil_iff_forall_not_mem.mpr fun e he => ?_
    have := h.problems e he
    rw [hp] at this
    cases this

theorem clean_finalState (h : runtimeClosure L requires roots extra = (S, [])) :
    (finalState L requires roots extra).seen = S ∧
      (finalState L requires roots extra).choices = [] ∧
      (finalState L requires roots extra).problems = [] := by
  simp only [runtimeClosure, State.result, Prod.mk.injEq, List.append_eq_nil_iff] at h
  exact ⟨h.1, reportChoices_eq_nil h.2.2, h.2.1⟩

theorem kept_of_clean (h : runtimeClosure L requires roots extra = (S, [])) {o : Outcome}
    (hk : (finalState L requires roots extra).Keeps L o) : o.Kept L S := by
  obtain ⟨hs, hc, hp⟩ := clean_finalState h
  exact hs ▸ hk.kept finalState_ended.frontier hc hp

/-- **In a run without problems every call is answered by the returned set.** -/
theorem CallsOf.kept (h : runtimeClosure L requires roots extra = (S, [])) {c : Call}
    (hc : CallsOf L requires roots extra c) : (c.outcome L).Kept L S :=
  kept_of_clean h hc.keeps

theorem CallsOf.seen_subset (h : runtimeClosure L requires roots extra = (S, [])) {c : Call}
    (hc : CallsOf L requires roots extra c) : c.seen ⊆ S := by
  rw [← (clean_finalState h).1]
  exact Calls.seen_subset hc

/-- In a run without problems every requirement of a package of the set was evaluated
    against a part of it, and is answered by the whole. -/
theorem demand_kept_of_clean (h : runtimeClosure L requires roots extra = (S, []))
    {pkg cap : String} (hp : pkg ∈ S) (hc : cap ∈ requires.getD pkg []) :
    ∃ t, pkg ∈ t ∧ t ⊆ S ∧ (demand L t pkg cap).Kept L S := by
  have hs := (clean_finalState h).1
  rw [← hs] at hp
  obtain ⟨t, ht, hsub, hk⟩ := demand_kept hp hc
  exact ⟨t, ht, hs ▸ hsub, kept_of_clean h hk⟩

theorem called_of_clean (h : runtimeClosure L requires roots extra = (S, []))
    {pkg cap : String} {node : Node} (hp : pkg ∈ S) (hc : cap ∈ requires.getD pkg [])
    (hn : richNode cap = some node) :
    ∃ t, pkg ∈ t ∧ CallsOf L requires roots extra ⟨node, pkg, t, false⟩ :=
  called_requirement ((clean_finalState h).1.symm ▸ hp) hc hn

theorem root_mem_of_clean (h : runtimeClosure L requires roots extra = (S, [])) {p : String}
    (hp : p ∈ roots) : p ∈ S :=
  (clean_finalState h).1 ▸ root_mem_finalState hp

end Clean

end BuckosDistro.Depgraph
