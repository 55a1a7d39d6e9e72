/-
  Runs of the closure machine: they end, and what they end in is `runtimeClosure`.

  Termination. Every package a run can name is a root, a provider or the value of an
  override (`mem_offered_require` and its kin), so the packages not yet seen are finitely
  many. A trip that visits a new package lowers their number. Between two such trips the
  frontier only shrinks, except when a settling pass refills it, and then only with
  packages not yet seen, so the next trip visits a new one.
-/
import BuckosDistro.Lib.Machine
import BuckosDistro.Depgraph.Steps

namespace BuckosDistro.Depgraph

open BuckosDistro.Lib

/-! ## The packages a call can return -/

theorem mem_offered_resolve {L : Lookup} {who cap p : String}
    (h : p ∈ (resolve L who cap).pkgs) : p ∈ L.offered := by
  unfold resolve at h
  split at h
  · rename_i pkg hr
    have : p = pkg := by simpa using h
    exact this ▸ resolveCapability_offered hr
  · simp at h
  · simp at h

theorem mem_rangeCandidates {L : Lookup} {name p : String} {caps : List String} :
    p ∈ rangeCandidates L name caps ↔ p ∈ L.providers name ∧
      ∀ cap ∈ caps, anyVersionSatisfies (L.versions name p) (splitConstraint cap).2 = true := by
  have key : ∀ candidates : List String,
      p ∈ caps.foldl (fun candidates cap => candidates.filter fun pkg =>
        anyVersionSatisfies (L.versions name pkg) (splitConstraint cap).2) candidates ↔
      p ∈ candidates ∧ ∀ cap ∈ caps,
        anyVersionSatisfies (L.versions name p) (splitConstraint cap).2 = true := by
    induction caps with
    | nil => simp
    | cons cap caps ih =>
      intro candidates
      simp [ih, and_assoc]
  rw [rangeCandidates, key, PyText.mem_sortedSet]

/-- What `resolve_range` can return: an override of the name, or a package that meets every
    bound. -/
theorem mem_resolveRange {L : Lookup} {who p : String} {caps : List String}
    (h : p ∈ (resolveRange L who caps).pkgs) :
    L.overrides.get? (stripCapabilityVersion (caps.headD "")) = some p ∨
      p ∈ rangeCandidates L (stripCapabilityVersion (caps.headD "")) caps := by
  unfold resolveRange at h
  dsimp only at h
  split at h
  · rename_i pkg ho
    left
    have : p = pkg := by simpa using h
    rw [this, ho]
  · right
    split at h
    · simp at h
    · split at h
      · simp at h
      · rename_i pkg hr
        have : p = pkg := by simpa using h
        rw [hr, this]
        exact List.mem_singleton_self _
      · split at h
        · rename_i pkg hn
          have hp : p = pkg := by simpa using h
          obtain ⟨evr, he⟩ := newest_mem hn
          simp only [List.mem_flatMap, List.mem_map, Prod.mk.injEq] at he
          obtain ⟨q, hq, _, _, rfl, _⟩ := he
          exact hp ▸ hq
        · simp at h

/-- What `resolve_range` says, whoever asks: one package, a choice between candidates, or a
    problem. -/
theorem resolveRange_cases (L : Lookup) (caps : List String) :
    (∃ p, (∀ who, resolveRange L who caps = .found [p]) ∧
        (L.overrides.get? (stripCapabilityVersion (caps.headD "")) = some p ∨
          p ∈ rangeCandidates L (stripCapabilityVersion (caps.headD "")) caps)) ∨
      (∃ alternatives, ∀ who,
        resolveRange L who caps = .choice (PyText.join " with " caps) alternatives who) ∨
      ∀ who, ∃ d, resolveRange L who caps = .problem "unresolved" d who := by
  cases ho : L.overrides.get? (stripCapabilityVersion (caps.headD "")) with
  | some r => exact .inl ⟨r, fun who => by simp only [resolveRange, ho], .inl rfl⟩
  | none =>
    by_cases he : (L.providers (stripCapabilityVersion (caps.headD ""))).isEmpty = true
    · exact .inr (.inr fun who => ⟨_, by simp only [resolveRange, ho, he, if_true]; rfl⟩)
    · rcases hr : rangeCandidates L (stripCapabilityVersion (caps.headD "")) caps
        with _ | ⟨p, _ | ⟨q, ps⟩⟩
      · exact .inr (.inr fun who => ⟨_, by simp only [resolveRange, ho, he, hr]; rfl⟩)
      · exact .inl ⟨p, fun who => by simp only [resolveRange, ho, he, hr]; rfl, .inr (by simp)⟩
      · cases hn : newest ((p :: q :: ps).flatMap fun pkg =>
            (L.versionList (stripCapabilityVersion (caps.headD "")) pkg).map
              fun evr => (pkg, evr)) with
        | none =>
          refine .inr (.inl ⟨p :: q :: ps, fun who => ?_⟩)
          simp only [resolveRange, ho, he, hr, hn]
          rfl
        | some best =>
          have hf : ∀ who, resolveRange L who caps = .found [best] := by
            intro who
            simp only [resolveRange, ho, he, hr, hn]
            rfl
          refine .inl ⟨best, hf, .inr ?_⟩
          have hm : best ∈ (resolveRange L "" caps).pkgs := by simp [hf]
          have hbest := mem_resolveRange hm
          rw [ho] at hbest
          exact hr ▸ hbest.resolve_left (by simp)

theorem resolveRange_choice_who {L : Lookup} {who expression : String} {caps : List String}
    {alternatives : List String}
    (h : resolveRange L who caps = .choice expression alternatives who) (who' : String) :
    resolveRange L who' caps = .choice expression alternatives who' := by
  rcases resolveRange_cases L caps with ⟨p, hp, _⟩ | ⟨A, hc⟩ | hp
  · rw [hp] at h
    cases h
  · rw [hc] at h
    cases h
    exact hc who'
  · obtain ⟨d, hd⟩ := hp who
    rw [hd] at h
    cases h

theorem mem_commonProviders {L : Lookup} {names ps : List String} {p : String}
    (hc : commonProviders L names = some ps) :
    p ∈ ps ↔ ∀ name ∈ names, p ∈ L.providers name := by
  cases names with
  | nil => simp [commonProviders] at hc
  | cons name names =>
    have key : ∀ candidates : List String,
        p ∈ names.foldl (fun candidates name => candidates.filter (· ∈ L.providers name))
          candidates ↔ p ∈ candidates ∧ ∀ name ∈ names, p ∈ L.providers name := by
      clear hc
      induction names with
      | nil => simp
      | cons n ns ih => intro candidates; simp [ih, and_assoc]
    simp only [commonProviders, Option.some.injEq] at hc
    rw [← hc, key, PyText.mem_sortedSet]
    simp

theorem mem_offered_intersect {L : Lookup} {node : Node} {ps : List String} {p : String}
    (hi : intersect L node = some ps) (h : p ∈ ps) : p ∈ L.offered := by
  unfold intersect at hi
  split at hi
  · obtain ⟨names, _, hc⟩ := Option.bind_eq_some_iff.mp hi
    cases names with
    | nil => simp [commonProviders] at hc
    | cons name names =>
      exact L.provider_offered ((mem_commonProviders hc).mp h name (List.mem_cons_self ..))
  · split at hi
    · simp only [Option.some.injEq] at hi
      rw [← hi] at h
      simp only [List.mem_filter, PyText.mem_sortedSet] at h
      exact L.provider_offered h.1
    · cases hi
  · cases hi

theorem mem_offered_requireTogether {L : Lookup} {who p : String} {node : Node}
    (h : p ∈ (requireTogether L who node).pkgs) : p ∈ L.offered := by
  unfold requireTogether at h
  split at h
  · rcases mem_resolveRange h with h | h
    · exact L.override_offered h
    · exact L.provider_offered (mem_rangeCandidates.mp h).1
  · dsimp only at h
    split at h
    · simp at h
    · rename_i pkg hi
      have : p = pkg := by simpa using h
      exact mem_offered_intersect hi (by simp [this])
    · split at h
      · rename_i pkg ho
        have : p = pkg := by simpa using h
        exact this ▸ L.override_offered ho
      · simp at h

theorem mem_offered_live {L : Lookup} {who p : String} {names ps : List String}
    (hl : live L who names = some ps) (h : p ∈ ps) : p ∈ L.offered := by
  induction names generalizing ps with
  | nil =>
    simp only [live, Option.some.injEq] at hl
    simp [← hl] at h
  | cons name names ih =>
    simp only [live] at hl
    split at hl
    · rename_i pkg hr
      obtain ⟨qs, hq, rfl⟩ := Option.map_eq_some_iff.mp hl
      rcases List.mem_cons.mp h with rfl | h
      · exact resolveCapability_offered (L := { L with provideEvr := Dict.empty }) hr
      · exact ih hq h
    · exact ih hl h
    · cases hl

theorem mem_offered_requireOneOf {L : Lookup} {who p : String} {node : Node}
    (h : p ∈ (requireOneOf L who node).pkgs) : p ∈ L.offered := by
  unfold requireOneOf at h
  dsimp only at h
  split at h
  · simp at h
  · split at h
    · rename_i pkg ho
      have : p = pkg := by simpa using h
      exact this ▸ L.override_offered ho
    · split at h
      · rename_i alternatives _ _ pkg hl
        obtain ⟨ps, hps, hs⟩ := Option.map_eq_some_iff.mp hl
        have hp : p = pkg := by simpa using h
        have hm : p ∈ PyText.sortedSet ps := by rw [hs, hp]; simp
        exact mem_offered_live hps (PyText.mem_sortedSet.mp hm)
      · simp at h

theorem mem_offered_require {L : Lookup} {seen : Finset String} {who : String}
    {final : Bool} {n : Node} {p : String} (h : p ∈ (require L seen who final n).pkgs) :
    p ∈ L.offered := by
  induction n using Node.induct with
  | cap text => exact mem_offered_resolve h
  | and cs ih =>
    obtain ⟨c, hc, hp⟩ := mem_requireEach_pkgs.mp h
    exact ih c hc hp
  | or cs _ =>
    simp only [require] at h
    split at h
    · simp at h
    · exact mem_offered_requireOneOf h
  | with_ cs _ => exact mem_offered_requireTogether h
  | without l r _ _ => exact mem_offered_requireTogether h
  | if_ t c o iht _ iho =>
    cases o with
    | none =>
      simp only [require] at h
      split at h
      · exact iht h
      · simp at h
    | some e =>
      simp only [require] at h
      split at h
      · exact iht h
      · exact iho e rfl h
  | unless_ t c o iht _ iho =>
    cases o with
    | none =>
      simp only [require] at h
      repeat' split at h
      · simp at h
      · exact iht h
      · simp at h
    | some e =>
      simp only [require] at h
      repeat' split at h
      · exact iho e rfl h
      · exact iht h
      · simp at h

theorem mem_offered_reduceRich {L : Lookup} {seen : Finset String} {base pkg p : String}
    (h : p ∈ (reduceRich L seen base pkg).pkgs) : p ∈ L.offered := by
  unfold reduceRich at h
  split at h
  · simp at h
  · exact mem_offered_require (by simpa using h)

theorem mem_offered_demand {L : Lookup} {seen : Finset String} {pkg cap p : String}
    (h : p ∈ (demand L seen pkg cap).pkgs) : p ∈ L.offered := by
  simp only [demand] at h
  split at h
  · exact mem_offered_reduceRich h
  · exact mem_offered_resolve h

theorem mem_offered_demandExtra {L : Lookup} {seen : Finset String} {cap who p : String}
    (h : p ∈ (demandExtra L seen cap who).pkgs) : p ∈ L.offered := by
  simp only [demandExtra] at h
  split at h
  · exact mem_offered_reduceRich h
  · exact mem_offered_resolve h

/-! ## Termination -/

/-- The state the machine starts in absorbs one outcome for each `extra` entry. -/
theorem absorbs_start (L : Lookup) (roots : List String) (extra : List (String × String)) :
    State.Absorbs ⟨∅, roots.reverse, [], [], [], false⟩ (start L roots extra)
      (extra.map fun entry => demandExtra L ∅ entry.1 entry.2) := by
  unfold start
  exact State.absorbs_foldl (fun seen (entry : String × String) =>
    demandExtra L seen entry.1 entry.2) extra _

/-- Packages still to come, whether the frontier holds none of them, and its length. -/
def ticks (U : Finset String) (s : State) : ℕ ×ₗ ℕ ×ₗ ℕ :=
  toLex ((U \ s.seen).card,
    toLex (if s.frontier.any (· ∉ s.seen) then 0 else 1, s.frontier.length))

/-- Everything on the frontier belongs to `U`. -/
def FrontierIn (U : Finset String) (s : State) : Prop := ∀ p ∈ s.frontier, p ∈ U

theorem frontierIn_step {L : Lookup} {requires : Dict String (List String)}
    {U : Finset String} (hU : ∀ p ∈ L.offered, p ∈ U) {s : State} (hs : FrontierIn U s) :
    FrontierIn U (step L requires s) := by
  cases hd : s.done with
  | true => rwa [step_done hd]
  | false =>
    rcases step_cases L requires hd with ⟨pkg, rest, hf, _, he⟩ | ⟨pkg, hv⟩ | hs'
    · rw [he]
      exact fun p hp => hs p (by rw [hf]; exact List.mem_cons_of_mem _ hp)
    · obtain ⟨rest, hf, hfr⟩ := hv.popped
      intro p hp
      rcases (hfr p).mp hp with hp | ⟨_, cap, _, hp⟩
      · exact hs p (by rw [hf]; exact List.mem_cons_of_mem _ hp)
      · exact hU p (mem_offered_demand hp)
    · intro p hp
      rcases hs'.final with ⟨_, hfr, _⟩ | ⟨_, hfr, _⟩
      · rw [hfr] at hp
        rcases ((hs'.midFrontier p).mp hp).2 with ⟨_, _, hp⟩ | ⟨_, _, _, hp⟩
        · exact hU p (mem_offered_require hp)
        · exact hU p (L.override_offered hp)
      · obtain ⟨_, _, _, hp⟩ := (hfr p).mp hp
        exact hU p (mem_offered_require hp)

/-- A settling pass refills the frontier with packages not yet seen. -/
theorem Settles.unseen {L : Lookup} {s mid s' : State} (h : Settles L s mid s') {p : String}
    (hp : p ∈ s'.frontier) : p ∉ s.seen := by
  rcases h.final with ⟨_, hf, _⟩ | ⟨_, hf, _⟩
  · exact ((h.midFrontier p).mp (hf ▸ hp)).1
  · exact ((hf p).mp hp).1

theorem ticks_step_lt {L : Lookup} {requires : Dict String (List String)}
    {U : Finset String} {s : State} (hs : FrontierIn U s) (hd : ¬ s.done = true)
    (hd' : ¬ (step L requires s).done = true) :
    ticks U (step L requires s) < ticks U s := by
  have hd : s.done = false := by simpa using hd
  unfold ticks
  rcases step_cases L requires hd with ⟨pkg, rest, hf, hp, he⟩ | ⟨pkg, hv⟩ | h
  · -- A package seen before: the frontier is shorter and holds the same news.
    rw [he]
    refine Prod.Lex.toLex_lt_toLex.mpr (.inr ⟨rfl, Prod.Lex.toLex_lt_toLex.mpr (.inr ⟨?_, ?_⟩)⟩)
    · simp [hf, hp]
    · simp [hf]
  · -- A new package leaves the ones still to come.
    refine Prod.Lex.toLex_lt_toLex.mpr (.inl ?_)
    obtain ⟨rest, hf, _⟩ := hv.popped
    have hpU : pkg ∈ U := hs pkg (by rw [hf]; exact List.mem_cons_self ..)
    refine Finset.card_lt_card ?_
    rw [hv.seen, Finset.ssubset_iff_of_subset]
    · exact ⟨pkg, by simp [hpU, hv.fresh], by simp⟩
    · intro p hp
      simp only [Finset.mem_sdiff, Finset.mem_insert, not_or] at hp ⊢
      exact ⟨hp.1, hp.2.2⟩
  · -- A settling pass that does not end the run: the frontier held no news, and does now.
    rw [h.seen]
    refine Prod.Lex.toLex_lt_toLex.mpr (.inr ⟨rfl, Prod.Lex.toLex_lt_toLex.mpr (.inl ?_)⟩)
    have hne : (step L requires s).frontier ≠ [] := by
      intro he
      rw [h.done, he] at hd'
      exact hd' rfl
    obtain ⟨p, hp⟩ := List.exists_mem_of_ne_nil _ hne
    have hany : ((step L requires s).frontier.any fun p => decide (p ∉ s.seen)) = true :=
      List.any_eq_true.mpr ⟨p, hp, by simpa using h.unseen hp⟩
    have hnone : (s.frontier.any fun p => decide (p ∉ s.seen)) = false := by
      rw [h.drained]; rfl
    simp only [hany, hnone]
    decide

/-- **Every run ends.** -/
theorem run_terminates (L : Lookup) (requires : Dict String (List String))
    (roots : List String) (extra : List (String × String)) :
    ∃ n, (run L requires n (start L roots extra)).done = true := by
  refine Machine.exists_done (f := step L requires)
    (r := InvImage (· < ·) (ticks (roots ++ L.offered).toFinset))
    (InvImage.wf _ wellFounded_lt) (FrontierIn (roots ++ L.offered).toFinset)
    (fun s => s.done = true) ?_ ?_ _ ?_
  · exact fun s hs => frontierIn_step (fun p hp => by simp [hp]) hs
  · exact fun s hs hd hd' => ticks_step_lt hs hd hd'
  · intro p hp
    rcases ((absorbs_start L roots extra).frontier p).mp hp with hp | ⟨_, o, ho, hp⟩
    · have : p ∈ roots := by simpa using hp
      simp [this]
    · obtain ⟨entry, _, rfl⟩ := List.mem_map.mp ho
      simp [mem_offered_demandExtra hp]

/-! ## The function -/

/-- The number of trips of a run. -/
def trips (L : Lookup) (requires : Dict String (List String)) (roots : List String)
    (extra : List (String × String)) : ℕ :=
  @Machine.steps _ (step L requires) (fun s => s.done = true) _
    ⟨start L roots extra, run_terminates L requires roots extra⟩

/-- The state a run ends in. -/
def finalState (L : Lookup) (requires : Dict String (List String)) (roots : List String)
    (extra : List (String × String)) : State :=
  run L requires (trips L requires roots extra) (start L roots extra)

/-- `runtime_closure(roots, requires, provides, overrides, extra, provide_evr)`. -/
def runtimeClosure (L : Lookup) (requires : Dict String (List String))
    (roots : List String) (extra : List (String × String)) : Finset String × List Problem :=
  (finalState L requires roots extra).result

section Function

variable {L : Lookup} {requires : Dict String (List String)} {roots : List String}
  {extra : List (String × String)}

theorem finalState_done : (finalState L requires roots extra).done = true :=
  @Machine.steps_spec _ (step L requires) (fun s => s.done = true) _
    ⟨start L roots extra, run_terminates L requires roots extra⟩

/-- Any finished run ends in the final state. -/
theorem finalState_eq (n : ℕ) (h : (run L requires n (start L roots extra)).done = true) :
    finalState L requires roots extra = run L requires n (start L roots extra) :=
  Machine.end_unique (f := step L requires) (fun s => s.done = true)
    (fun _ hs => step_done hs) (start L roots extra) finalState_done h

/-- The function returns what any finished run ends in. -/
theorem runtimeClosure_eq (n : ℕ)
    (h : (run L requires n (start L roots extra)).done = true) :
    runtimeClosure L requires roots extra = (run L requires n (start L roots extra)).result :=
  congrArg State.result (finalState_eq n h)

end Function

end BuckosDistro.Depgraph
