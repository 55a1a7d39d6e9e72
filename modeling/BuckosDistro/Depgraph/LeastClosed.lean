/-
  Plain requirements without ambiguity: the closure is a least fixed point.

  Where every requirement has one answer or none, nothing waits and nothing is chosen, so
  the settling passes find nothing to do and the set is what the roots reach.
-/
import BuckosDistro.Depgraph.Plain

namespace BuckosDistro.Depgraph

open BuckosDistro.Lib

/-! ## The fixed point -/

/-- Every requirement is plain, and no answer to one is ambiguous. -/
structure Unambiguous (L : Lookup) (requires : Dict String (List String)) : Prop where
  plain : PlainRequires requires
  single : ∀ pkg, ∀ cap ∈ requires.getD pkg [], ∀ c candidates,
    resolveCapability L cap pkg ≠ .error (.ambiguousProvider c candidates)

/-- A requirement of the one package is resolved to the other. -/
def Pulls (L : Lookup) (requires : Dict String (List String)) (pkg dep : String) : Prop :=
  ∃ cap ∈ requires.getD pkg [], resolveCapability L cap pkg = .ok dep

/-- The sets that hold the roots and what their members pull in. -/
def closedSets (L : Lookup) (requires : Dict String (List String)) (roots : List String) :
    Set (Set String) :=
  {S | (∀ root ∈ roots, root ∈ S) ∧ ∀ pkg ∈ S, ∀ dep, Pulls L requires pkg dep → dep ∈ S}

/-- What a chain of requirements reaches from the roots. -/
def Reached (L : Lookup) (requires : Dict String (List String)) (roots : List String)
    (pkg : String) : Prop := ∃ root ∈ roots, Relation.ReflTransGen (Pulls L requires) root pkg

/-- The report of a requirement without an answer. -/
def Unresolved (L : Lookup) (requires : Dict String (List String)) (S : Finset String)
    (e : Problem) : Prop :=
  ∃ pkg ∈ S, ∃ cap ∈ requires.getD pkg [], ∃ exc,
    resolveCapability L cap pkg = .error exc ∧ e = ⟨"unresolved", exc.message, pkg⟩

section Least

variable {L : Lookup} {requires : Dict String (List String)} {roots : List String}

/-- What a chain reaches is the least closed set. -/
theorem isLeast_reached :
    IsLeast (closedSets L requires roots) {p | Reached L requires roots p} := by
  refine ⟨⟨fun root hroot => ⟨root, hroot, .refl⟩, ?_⟩, ?_⟩
  · rintro pkg ⟨root, hroot, hchain⟩ dep hdep
    exact ⟨root, hroot, hchain.tail hdep⟩
  · rintro S ⟨hroots, hclosed⟩ p ⟨root, hroot, hchain⟩
    induction hchain with
    | refl => exact hroots root hroot
    | tail _ hdep ih => exact hclosed _ ih _ hdep

/-! ## The run -/

/-- What one requirement asks for: a package, or a report. -/
theorem demand_unambiguous (h : Unambiguous L requires) (seen : Finset String) {pkg cap : String}
    (hcap : cap ∈ requires.getD pkg []) :
    (∃ dep, resolveCapability L cap pkg = .ok dep ∧ demand L seen pkg cap = .found [dep]) ∨
      ∃ exc, resolveCapability L cap pkg = .error exc ∧
        demand L seen pkg cap = .problem "unresolved" exc.message pkg := by
  rw [demand_plain (h.plain pkg cap hcap)]
  unfold resolve
  cases hr : resolveCapability L cap pkg with
  | ok dep => exact Or.inl ⟨dep, rfl, rfl⟩
  | error exc =>
    cases exc with
    | unresolvedCapability c who => exact Or.inr ⟨_, rfl, rfl⟩
    | ambiguousProvider c candidates => exact absurd hr (h.single pkg cap hcap c candidates)

/-- What holds of every state of a run. -/
structure Sound (L : Lookup) (requires : Dict String (List String)) (roots : List String)
    (s : State) : Prop where
  pending : s.pending = []
  choices : s.choices = []
  held : ∀ root ∈ roots, root ∈ s.seen ∨ root ∈ s.frontier
  seen : ∀ pkg ∈ s.seen, Reached L requires roots pkg
  frontier : ∀ pkg ∈ s.frontier, Reached L requires roots pkg
  closed : ∀ pkg ∈ s.seen, ∀ dep, Pulls L requires pkg dep → dep ∈ s.seen ∨ dep ∈ s.frontier
  problems : ∀ e, e ∈ s.problems ↔ Unresolved L requires s.seen e

theorem sound_start : Sound L requires roots (start L roots []) := by
  refine ⟨rfl, rfl, fun root hroot => Or.inr (List.mem_reverse.mpr hroot), fun pkg hpkg => ?_,
    fun pkg hpkg => ⟨pkg, List.mem_reverse.mp hpkg, .refl⟩, fun pkg hpkg => ?_, fun e => ?_⟩
  · exact absurd hpkg (Finset.notMem_empty pkg)
  · exact absurd hpkg (Finset.notMem_empty pkg)
  · constructor
    · intro he
      cases he
    · rintro ⟨pkg, hpkg, _⟩
      exact absurd hpkg (Finset.notMem_empty pkg)

/-- A package is visited. -/
theorem Sound.visits (h : Unambiguous L requires) {s s' : State} {pkg : String}
    (hs : Sound L requires roots s) (hv : Visits L requires pkg s s') :
    Sound L requires roots s' := by
  obtain ⟨rest, hf, hfrontier⟩ := hv.popped
  have hpkg :
      Reached L requires roots pkg := hs.frontier pkg (by rw [hf]; exact List.mem_cons_self ..)
  have hnone : ∀ cap ∈ requires.getD pkg [], (demand L s'.seen pkg cap).pending = [] ∧
      (demand L s'.seen pkg cap).choices = [] := by
    intro cap hcap
    rcases demand_unambiguous h s'.seen hcap with ⟨dep, _, hd⟩ | ⟨exc, _, hd⟩ <;>
      rw [hd] <;> exact ⟨rfl, rfl⟩
  have hpulled : ∀ dep, (∃ cap ∈ requires.getD pkg [], dep ∈ (demand L s'.seen pkg cap).pkgs) ↔
      Pulls L requires pkg dep := by
    intro dep
    constructor
    · rintro ⟨cap, hcap, hdep⟩
      rcases demand_unambiguous h s'.seen hcap with ⟨d, hr, hd⟩ | ⟨exc, _, hd⟩
      · rw [hd] at hdep
        obtain rfl := List.mem_singleton.mp hdep
        exact ⟨cap, hcap, hr⟩
      · rw [hd] at hdep
        cases hdep
    · rintro ⟨cap, hcap, hr⟩
      refine ⟨cap, hcap, ?_⟩
      rcases demand_unambiguous h s'.seen hcap with ⟨d, hr', hd⟩ | ⟨exc, hr', hd⟩
      · rw [hr] at hr'
        rw [hd, Except.ok.inj hr']
        exact List.mem_singleton_self d
      · rw [hr] at hr'
        cases hr'
  have hkept : ∀ p, p ∈ s.seen ∨ p ∈ s.frontier → p ∈ s'.seen ∨ p ∈ s'.frontier := by
    rintro p (hp | hp)
    · rw [hv.seen]
      exact Or.inl (Finset.mem_insert_of_mem hp)
    · rw [hf] at hp
      rcases List.mem_cons.mp hp with rfl | hp
      · rw [hv.seen]
        exact Or.inl (Finset.mem_insert_self _ _)
      · exact Or.inr ((hfrontier p).mpr (Or.inl hp))
  refine ⟨?_, ?_, fun root hroot => hkept root (hs.held root hroot), fun p hp => ?_,
    fun p hp => ?_, fun p hp dep hdep => ?_, fun e => ?_⟩
  · refine List.eq_nil_iff_forall_not_mem.mpr fun q hq => ?_
    rcases (hv.pending q).mp hq with hq | ⟨cap, hcap, hq⟩
    · rw [hs.pending] at hq
      cases hq
    · rw [(hnone cap hcap).1] at hq
      cases hq
  · refine List.eq_nil_iff_forall_not_mem.mpr fun c hc => ?_
    rcases (hv.choices c).mp hc with hc | ⟨cap, hcap, hc⟩
    · rw [hs.choices] at hc
      cases hc
    · rw [(hnone cap hcap).2] at hc
      cases hc
  · rw [hv.seen] at hp
    rcases Finset.mem_insert.mp hp with rfl | hp
    · exact hpkg
    · exact hs.seen p hp
  · rcases (hfrontier p).mp hp with hp | ⟨_, hp⟩
    · exact hs.frontier p (by rw [hf]; exact List.mem_cons_of_mem _ hp)
    · obtain ⟨root, hroot, hchain⟩ := hpkg
      exact ⟨root, hroot, hchain.tail ((hpulled p).mp hp)⟩
  · rw [hv.seen] at hp
    rcases Finset.mem_insert.mp hp with rfl | hp
    · by_cases hseen : dep ∈ s'.seen
      · exact Or.inl hseen
      · exact Or.inr ((hfrontier dep).mpr (Or.inr ⟨hseen, (hpulled dep).mpr hdep⟩))
    · exact hkept dep (hs.closed p hp dep hdep)
  · rw [hv.problems, hs.problems]
    constructor
    · rintro (⟨p, hp, hrest⟩ | ⟨cap, hcap, he⟩)
      · exact ⟨p, by rw [hv.seen]; exact Finset.mem_insert_of_mem hp, hrest⟩
      · rcases demand_unambiguous h s'.seen hcap with ⟨dep, _, hd⟩ | ⟨exc, hr, hd⟩
        · rw [hd] at he
          cases he
        · rw [hd] at he
          exact ⟨pkg, by rw [hv.seen]; exact Finset.mem_insert_self _ _, cap, hcap, exc, hr,
            List.mem_singleton.mp he⟩
    · rintro ⟨p, hp, cap, hcap, exc, hr, he⟩
      rw [hv.seen] at hp
      rcases Finset.mem_insert.mp hp with rfl | hp
      · refine Or.inr ⟨cap, hcap, ?_⟩
        rcases demand_unambiguous h s'.seen hcap with ⟨dep, hr', _⟩ | ⟨exc', hr', hd⟩
        · rw [hr] at hr'
          cases hr'
        · rw [hr] at hr'
          rw [hd, he, Except.error.inj hr']
          exact List.mem_singleton_self _
      · exact Or.inl ⟨p, hp, cap, hcap, exc, hr, he⟩

/-- The passes of a state in which nothing waits. -/
theorem Sound.settles {s mid s' : State} (hs : Sound L requires roots s)
    (h : Settles L s mid s') : Sound L requires roots s' ∧ s'.frontier = [] := by
  have hscan : ∀ final q, ¬ Scanned L s.seen final s.pending q := by
    intro final q hq
    rw [hs.pending] at hq
    exact not_scanned_nil hq
  have hmidFrontier : mid.frontier = [] := by
    refine List.eq_nil_iff_forall_not_mem.mpr fun p hp => ?_
    rcases ((h.midFrontier p).mp hp).2 with ⟨q, hq, _⟩ | ⟨c, hc | ⟨q, hq, _⟩, _⟩
    · exact hscan _ q hq
    · rw [hs.choices] at hc
      cases hc
    · exact hscan _ q hq
  have hmidPending : mid.pending = [] :=
    List.eq_nil_iff_forall_not_mem.mpr fun q hq => hscan _ q ((h.midPending q).mp hq).1
  have hfinal : ∀ q, ¬ Scanned L s.seen true mid.pending q := by
    intro q hq
    rw [hmidPending] at hq
    exact not_scanned_nil hq
  rcases h.final with ⟨hne, _⟩ | ⟨_, hfrontier, hpending, hchoices, hproblems⟩
  · exact absurd hmidFrontier hne
  · have hempty : s'.frontier = [] :=
      List.eq_nil_iff_forall_not_mem.mpr fun p hp => by
        obtain ⟨_, q, hq, _⟩ := (hfrontier p).mp hp
        exact hfinal q hq
    have hdrained : ∀ p, p ∈ s.seen ∨ p ∈ s.frontier → p ∈ s'.seen ∨ p ∈ s'.frontier := by
      rintro p (hp | hp)
      · exact Or.inl (h.seen ▸ hp)
      · rw [h.drained] at hp
        cases hp
    refine ⟨⟨?_, ?_, fun root hroot => hdrained root (hs.held root hroot), ?_, ?_, ?_, ?_⟩, hempty⟩
    · exact List.eq_nil_iff_forall_not_mem.mpr fun q hq => hfinal q ((hpending q).mp hq).1
    · refine List.eq_nil_iff_forall_not_mem.mpr fun c hc => ?_
      rcases (hchoices c).mp hc with hc | ⟨q, hq, _⟩
      · rcases ((h.midChoices c).mp hc).1 with hc | ⟨q, hq, _⟩
        · rw [hs.choices] at hc
          cases hc
        · exact hscan _ q hq
      · exact hfinal q hq
    · rw [h.seen]
      exact hs.seen
    · rw [hempty]
      exact fun p hp => nomatch hp
    · intro p hp dep hdep
      rw [h.seen] at hp
      exact hdrained dep (hs.closed p hp dep hdep)
    · intro e
      rw [hproblems, h.midProblems, hs.problems, h.seen]
      constructor
      · rintro ((he | ⟨q, hq, _⟩) | ⟨q, hq, _⟩)
        · exact he
        · exact absurd hq (hscan _ q)
        · exact absurd hq (hfinal q)
      · exact fun he => Or.inl (Or.inl he)

theorem sound_step (h : Unambiguous L requires) {s : State} (hs : Sound L requires roots s) :
    Sound L requires roots (step L requires s) := by
  cases hd : s.done with
  | true => rwa [step_done hd]
  | false =>
    rcases step_cases L requires hd with ⟨pkg, rest, hf, hp, he⟩ | ⟨pkg, hv⟩ | hsettles
    · rw [he]
      have hkept : ∀ p, p ∈ s.seen ∨ p ∈ s.frontier → p ∈ s.seen ∨ p ∈ rest := by
        rintro p (hseen | hfr)
        · exact Or.inl hseen
        · rw [hf] at hfr
          rcases List.mem_cons.mp hfr with rfl | hfr
          · exact Or.inl hp
          · exact Or.inr hfr
      exact ⟨hs.pending, hs.choices, fun root hroot => hkept root (hs.held root hroot), hs.seen,
        fun p hfr => hs.frontier p (by rw [hf]; exact List.mem_cons_of_mem _ hfr),
        fun p hseen dep hdep => hkept dep (hs.closed p hseen dep hdep), hs.problems⟩
    · exact hs.visits h hv
    · exact (hs.settles hsettles).1

theorem sound_run (h : Unambiguous L requires) (n : ℕ) :
    Sound L requires roots (run L requires n (start L roots [])) := by
  induction n with
  | zero => exact sound_start
  | succ n ih =>
    rw [run_succ]
    exact sound_step h ih

/-- **The closure is the least fixed point**: the least set that holds the roots and what its
    members pull in, which is what the chains of requirements reach; and its problems are the
    requirements of its members without an answer. -/
theorem closure_least_fixed_point (h : Unambiguous L requires) :
    (∀ pkg, pkg ∈ (runtimeClosure L requires roots []).1 ↔ Reached L requires roots pkg) ∧
      IsLeast (closedSets L requires roots) ↑(runtimeClosure L requires roots []).1 ∧
      ∀ e, e ∈ (runtimeClosure L requires roots []).2 ↔
        Unresolved L requires (runtimeClosure L requires roots []).1 e := by
  have hs : Sound L requires roots (finalState L requires roots []) := sound_run h _
  have hfrontier : (finalState L requires roots []).frontier = [] := finalState_ended.frontier
  have hseen : ∀ pkg, pkg ∈ (finalState L requires roots []).seen ↔
      Reached L requires roots pkg := by
    intro pkg
    refine ⟨hs.seen pkg, ?_⟩
    rintro ⟨root, hroot, hchain⟩
    have hdrained : ∀ p, p ∈ (finalState L requires roots []).seen ∨
        p ∈ (finalState L requires roots []).frontier →
        p ∈ (finalState L requires roots []).seen := by
      rintro p (hp | hp)
      · exact hp
      · rw [hfrontier] at hp
        cases hp
    induction hchain with
    | refl => exact hdrained root (hs.held root hroot)
    | tail _ hdep ih => exact hdrained _ (hs.closed _ ih _ hdep)
  refine ⟨hseen, ?_, fun e => ?_⟩
  · have hset : (↑(finalState L requires roots []).seen : Set String) =
        {p | Reached L requires roots p} := by
      ext pkg
      exact hseen pkg
    show IsLeast _ (↑(finalState L requires roots []).seen : Set String)
    rw [hset]
    exact isLeast_reached
  · have hnone : reportChoices (finalState L requires roots []).choices = [] := by
      rw [hs.choices]
      rfl
    show e ∈ (finalState L requires roots []).problems ++
      reportChoices (finalState L requires roots []).choices ↔ _
    rw [hnone, List.append_nil]
    exact hs.problems e

end Least

/-- `glibc` provides the library `bash` asks for. -/
def libcLookup : Lookup where
  provides := ⟨[("bash", ["bash"]), ("libc.so.6", ["glibc"])]⟩
  provideEvr := .empty
  overrides := .empty

theorem unambiguous_libc : Unambiguous libcLookup (soleRequirement "bash" "libc.so.6") := by
  refine ⟨plainRequires_sole _ (by decide), fun pkg cap hcap c candidates h => ?_⟩
  by_cases hp : pkg = "bash"
  · rw [hp, soleRequirement_self] at hcap
    rw [List.mem_singleton.mp hcap] at h
    have hr : resolveCapability libcLookup "libc.so.6" "bash" = .ok "glibc" := by decide
    rw [resolveCapability_ok_who hr pkg] at h
    cases h
  · rw [soleRequirement_of_ne hp] at hcap
    cases hcap

/-- The library is in the closure of `bash`. -/
theorem closure_least_fixed_point_libc :
    Unambiguous libcLookup (soleRequirement "bash" "libc.so.6") ∧
      "glibc" ∈ (runtimeClosure libcLookup (soleRequirement "bash" "libc.so.6") ["bash"] []).1 := by
  refine ⟨unambiguous_libc, ((closure_least_fixed_point unambiguous_libc).1 "glibc").mpr ?_⟩
  refine ⟨"bash", List.mem_singleton_self _, .single ⟨"libc.so.6", ?_, by decide⟩⟩
  rw [soleRequirement_self]
  exact List.mem_singleton_self _

end BuckosDistro.Depgraph
