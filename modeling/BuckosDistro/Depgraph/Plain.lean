/-
  Plain requirements: what a closure without problems says about them.

  A plain requirement with one answer puts it into the set. An ambiguous one is put off,
  and dropped once one of its candidates is present. The candidates are package names, and
  present is asked of them as capabilities: a package that provides the *name* of a
  candidate, or that an override names for it, counts. `plain_met_iff` says for which
  capabilities this makes no difference.
-/
import BuckosDistro.Depgraph.Sole

namespace BuckosDistro.Depgraph

open BuckosDistro.Lib

/-! ## What a requirement asks -/

/-- A set meets a plain requirement: the package an override names for it is there, or a
    package that provides the name at a version its constraint admits. -/
def Lookup.Meets (L : Lookup) (S : Finset String) (cap : String) : Prop :=
  (∃ r ∈ S, L.overrideFor cap = some r) ∨
    ∃ p ∈ S, L.Offers (splitConstraint cap).1 (splitConstraint cap).2 p

instance (L : Lookup) (S : Finset String) (cap : String) : Decidable (L.Meets S cap) :=
  inferInstanceAs (Decidable (_ ∨ _))

/-- Every requirement of the universe is a plain capability. -/
def PlainRequires (requires : Dict String (List String)) : Prop :=
  ∀ pkg, ∀ cap ∈ requires.getD pkg [], isRichDep (stripCapabilityVersion cap) = false

/-- Where a capability is ambiguous, looking the names of its candidates up as
    capabilities finds only packages that offer it. -/
def Lookup.CandidatesOffer (L : Lookup) (cap : String) : Prop :=
  ∀ who c candidates, resolveCapability L cap who = .error (.ambiguousProvider c candidates) →
    ∀ name ∈ candidates, ∀ pkg, L.StandsFor name pkg →
      L.Offers (splitConstraint cap).1 (splitConstraint cap).2 pkg

theorem plainRequires_sole (pkg : String) {cap : String}
    (h : isRichDep (stripCapabilityVersion cap) = false) :
    PlainRequires (soleRequirement pkg cap) := by
  intro p cap' hc
  by_cases hp : p = pkg
  · rw [hp, soleRequirement_self] at hc
    rw [List.mem_singleton.mp hc]
    exact h
  · rw [soleRequirement_of_ne hp] at hc
    cases hc

theorem demand_plain {L : Lookup} {t : Finset String} {pkg cap : String}
    (h : isRichDep (stripCapabilityVersion cap) = false) :
    demand L t pkg cap = resolve L pkg cap := by
  simp [demand, h]

/-- What `resolve` says of an ambiguous capability: a choice between its candidates. -/
theorem resolve_of_ambiguous {L : Lookup} {who cap c : String} {candidates : List String}
    (h : resolveCapability L cap who = .error (.ambiguousProvider c candidates)) :
    resolve L who cap = .choice cap (PyText.sortedSet candidates) who := by
  simp [resolve, h]

/-- A choice put off for a capability no override answers is closed by presence alone. -/
theorem settled_of_kept_choice {L : Lookup} {S : Finset String} {cap who : String}
    {alternatives : List String} (ho : L.overrideFor cap = none)
    (h : (Outcome.choice cap alternatives who).Kept L S) :
    ∃ a ∈ alternatives, ∃ p ∈ S, L.StandsFor a p := by
  rcases h.choices _ (List.mem_singleton_self _) with h | ⟨r, _, h⟩
  · exact Choice.settledBy_iff.mp h
  · rw [Lookup.overrideFor, h] at ho
    simp at ho

/-- A plain requirement that is answered is met, if its candidates offer it. -/
theorem meets_of_kept {L : Lookup} {S : Finset String} {who cap : String}
    (hc : L.CandidatesOffer cap) (h : (resolve L who cap).Kept L S) : L.Meets S cap := by
  cases hr : resolveCapability L cap who with
  | ok pkg =>
    have hS : pkg ∈ S := h.pkgs pkg (by simp [resolve, hr])
    rcases resolveCapability_ok hr with ho | ⟨_, ho⟩
    · exact .inl ⟨pkg, hS, ho⟩
    · exact .inr ⟨pkg, hS, ho⟩
  | error e =>
    cases e with
    | ambiguousProvider c candidates =>
      rw [resolve_of_ambiguous hr] at h
      obtain ⟨ho, _, _⟩ := resolveCapability_ambiguous hr
      obtain ⟨a, ha, p, hp, hs⟩ := settled_of_kept_choice ho h
      exact .inr ⟨p, hp, hc _ _ _ hr a (PyText.mem_sortedSet.mp ha) p hs⟩
    | unresolvedCapability c w =>
      have := h.problems
      simp [resolve, hr] at this

/-- The run that shows the fault: the package that requires an ambiguous capability is
    itself what one candidate's name stands for. -/
theorem closure_of_standsFor {L : Lookup} {cap c name pkg : String}
    {candidates : List String} (hplain : isRichDep (stripCapabilityVersion cap) = false)
    (hr : resolveCapability L cap pkg = .error (.ambiguousProvider c candidates))
    (hname : name ∈ candidates) (hs : L.StandsFor name pkg) :
    runtimeClosure L (soleRequirement pkg cap) [pkg] [] = ({pkg}, []) := by
  have hd : ∀ t, demand L t pkg cap = .choice cap (PyText.sortedSet candidates) pkg :=
    fun t => by rw [demand_plain hplain, resolve_of_ambiguous hr]
  refine soleClosure [] [] (t := {pkg}) (by simp) (by simp) ?_ ?_ ?_ ?_
  · rw [hd]
    simp
  · rw [hd]
    rfl
  · rw [hd]
    rfl
  · intro ch hch
    rw [hd] at hch
    rw [List.mem_singleton.mp hch]
    exact Choice.settledBy_iff.mpr
      ⟨name, PyText.mem_sortedSet.mpr hname, pkg, Finset.mem_singleton_self _, hs⟩

/-- **When a plain requirement is met.** For one capability: every closure without
    problems of a universe of plain requirements meets it, for every package of the set
    that requires it, exactly if the names of its candidates stand only for packages that
    offer it. -/
theorem plain_met_iff (L : Lookup) (cap : String)
    (hplain : isRichDep (stripCapabilityVersion cap) = false) :
    (∀ (requires : Dict String (List String)) (roots : List String)
      (extra : List (String × String)) (S : Finset String),
      PlainRequires requires → runtimeClosure L requires roots extra = (S, []) →
      ∀ pkg ∈ S, cap ∈ requires.getD pkg [] → L.Meets S cap) ↔
    L.CandidatesOffer cap := by
  constructor
  · intro h who c candidates hr name hname pkg hs
    have hr' := resolveCapability_ambiguous_who hr pkg
    have hm := h _ _ _ _ (plainRequires_sole pkg hplain)
      (closure_of_standsFor hplain hr' hname hs) pkg
      (Finset.mem_singleton_self _) (by simp [soleRequirement_self])
    rcases hm with ⟨r, _, ho⟩ | ⟨p, hp, ho⟩
    · rw [(resolveCapability_ambiguous hr).1] at ho
      cases ho
    · rwa [Finset.mem_singleton.mp hp] at ho
  · intro hc requires roots extra S _ hclean pkg hpkg hcap
    obtain ⟨t, _, _, hk⟩ := demand_kept_of_clean hclean hpkg hcap
    rw [demand_plain hplain] at hk
    exact meets_of_kept hc hk

/-! ## A package that provides the name of a candidate -/

/-- `gawk` and `mawk` provide `/bin/awk`; `busybox` provides `mawk`, but not the path. -/
def awkLookup : Lookup where
  provides := ⟨[("/bin/awk", ["gawk", "mawk"]), ("gawk", ["gawk"]), ("mawk", ["mawk", "busybox"])]⟩
  provideEvr := .empty
  overrides := .empty

/-- For a capability with two providers of which nothing else takes the name, the
    equivalence is about a capability that is really ambiguous. -/
theorem plain_met_iff_awk :
    (∀ (requires : Dict String (List String)) (roots : List String)
      (extra : List (String × String)) (S : Finset String),
      PlainRequires requires → runtimeClosure awkLookup requires roots extra = (S, []) →
      ∀ pkg ∈ S, "/bin/awk" ∈ requires.getD pkg [] → awkLookup.Meets S "/bin/awk") ↔
    awkLookup.CandidatesOffer "/bin/awk" :=
  plain_met_iff awkLookup "/bin/awk" (by decide)

/-- `busybox` requires `/bin/awk`: the closure of it alone has no problems and no package
    that provides the path. -/
theorem busybox_settles_awk :
    validateOverrides awkLookup.overrides awkLookup.provides "" = [] ∧
      PlainRequires (soleRequirement "busybox" "/bin/awk") ∧
      runtimeClosure awkLookup (soleRequirement "busybox" "/bin/awk") ["busybox"] [] =
        ({"busybox"}, []) ∧
      "/bin/awk" ∈ (soleRequirement "busybox" "/bin/awk").getD "busybox" [] ∧
      ¬ awkLookup.Meets {"busybox"} "/bin/awk" := by
  refine ⟨by decide, plainRequires_sole _ (by decide), ?_, by decide, by decide⟩
  have hr : resolveCapability awkLookup "/bin/awk" "busybox" =
      .error (.ambiguousProvider "/bin/awk" ["gawk", "mawk"]) := by decide
  have hm : "mawk" ∈ ["gawk", "mawk"] := by decide
  exact closure_of_standsFor (by decide) hr hm (by decide)

end BuckosDistro.Depgraph
