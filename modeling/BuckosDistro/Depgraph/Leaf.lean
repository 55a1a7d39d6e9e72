/-
  Version constraints on the leaves of an expression.

  A leaf `cap OP evr` is resolved by its bare name: the constraint is kept by the range
  form of `with` alone. `LeafSafe` says when the bare name answers as well as the
  constraint would, for every way a leaf can be demanded (`LeafDemanded`).
-/
import BuckosDistro.Depgraph.Plain

namespace BuckosDistro.Depgraph

open BuckosDistro.Lib

/-! ## Demanded leaves -/

/-- The leaves on which the truth of an expression rests. -/
inductive Rests (L : Lookup) (S : Finset String) (text : String) : Node → Prop
  | cap : Rests L S text (.cap text)
  | and {cs c} : c ∈ cs → Rests L S text c → Rests L S text (.and cs)
  | with {cs c} : c ∈ cs → Rests L S text c → Rests L S text (.with cs)
  | or {cs c} : c ∈ cs → satisfied L S c = true → Rests L S text c → Rests L S text (.or cs)
  | without {l r} : Rests L S text l → Rests L S text (.without l r)
  | ifTrue {t c o} : satisfied L S c = true → Rests L S text t → Rests L S text (.if t c o)
  | ifFalse {t c e} : satisfied L S c = false → Rests L S text e →
      Rests L S text (.if t c (some e))
  | unlessTrue {t c e} : satisfied L S c = true → Rests L S text e →
      Rests L S text (.unless t c (some e))
  | unlessFalse {t c o} : satisfied L S c = false → Rests L S text t →
      Rests L S text (.unless t c o)

/-- The leaves a run with the set `S` demands: those `require` is called on (in an `and`,
    in a branch taken), those of a `with` no override of its text answers, those of the
    branches of an `or` that are true of the set, and the plain `extra` entries. -/
inductive LeafDemanded (L : Lookup) (requires : Dict String (List String))
    (roots : List String) (extra : List (String × String)) (S : Finset String)
    (text : String) : Prop
  | called {c} : CallsOf L requires roots extra c → c.node = .cap text →
      LeafDemanded L requires roots extra S text
  | together {c cs} : CallsOf L requires roots extra c → c.node = .with cs →
      Rests L S text (.with cs) → L.overrides.get? (unparseBoolean (.with cs)) = none →
      (∀ caps, rangeBounds (.with cs) = some caps →
        L.overrides.get? (PyText.join " with " caps) = none) →
      LeafDemanded L requires roots extra S text
  | branch {c cs b} : CallsOf L requires roots extra c → c.node = .or cs → b ∈ cs →
      satisfied L S b = true → Rests L S text b → LeafDemanded L requires roots extra S text
  | extra {who} : (text, who) ∈ extra → isRichDep (stripCapabilityVersion text) = false →
      LeafDemanded L requires roots extra S text

/-- When the bare name of a leaf answers as well as the leaf: every provider of the name
    offers it, and every choice a call on the leaf can put off is settled by an offer only.
    `Chain` are the `with` expressions considered. -/
structure LeafSafe (L : Lookup) (text : String) (Chain : List Node → Prop) : Prop where
  offers : ∀ p ∈ L.providers (stripCapabilityVersion text),
    L.Offers (stripCapabilityVersion text) (splitConstraint text).2 p
  alone : L.CandidatesOffer (stripCapabilityVersion text)
  range : ∀ cs caps who alternatives, Chain cs → rangeBounds (.with cs) = some caps →
    text ∈ caps → L.overrides.get? (unparseBoolean (.with cs)) = none →
    L.overrides.get? (PyText.join " with " caps) = none →
    resolveRange L who caps = .choice (PyText.join " with " caps) alternatives who →
    ∀ name ∈ alternatives, ∀ p, L.StandsFor name p →
      L.Offers (stripCapabilityVersion text) (splitConstraint text).2 p

/-- The leaf can be written as a requirement of its own, and as a branch of an `or`. -/
def Writable (text : String) : Prop :=
  (∃ cap, richNode cap = some (.cap text)) ∧
    ∃ cap cs, richNode cap = some (.or cs) ∧ .cap text ∈ cs

/-! ## What the truth of an expression says about its leaves -/

theorem present_of_rests {L : Lookup} {S : Finset String} {text : String} {n : Node}
    (hr : Rests L S text n) (hs : satisfied L S n = true) :
    capabilityPresent L S (stripCapabilityVersion text) = true := by
  induction hr with
  | cap => exact hs
  | and hc _ ih =>
    rw [satisfied, allSatisfied_eq, List.all_eq_true] at hs
    exact ih (hs _ hc)
  | «with» hc _ ih =>
    rw [satisfied, allSatisfied_eq, List.all_eq_true] at hs
    exact ih (hs _ hc)
  | or _ hb _ ih => exact ih hb
  | without _ ih =>
    rw [satisfied, Bool.and_eq_true] at hs
    exact ih hs.1
  | @ifTrue t c o hc _ ih =>
    refine ih ?_
    cases o <;> simpa [satisfied, hc] using hs
  | ifFalse hc _ ih => exact ih (by simpa [satisfied, hc] using hs)
  | unlessTrue hc _ ih => exact ih (by simpa [satisfied, hc] using hs)
  | @unlessFalse t c o hc _ ih =>
    refine ih ?_
    cases o <;> simpa [satisfied, hc] using hs

theorem mem_leafNamesEach {cs : List Node} {ns : List String}
    (h : leafNamesEach cs = some ns) {c : Node} (hc : c ∈ cs) :
    ∃ ms, leafNames c = some ms ∧ ∀ n ∈ ms, n ∈ ns := by
  induction cs generalizing ns with
  | nil => cases hc
  | cons d ds ih =>
    simp only [leafNamesEach] at h
    cases hd : leafNames d with
    | none => simp [hd] at h
    | some ms =>
      cases hds : leafNamesEach ds with
      | none => simp [hd, hds] at h
      | some rest =>
        simp only [hd, hds, Option.some.injEq] at h
        rcases List.mem_cons.mp hc with rfl | hc
        · exact ⟨ms, hd, fun n hn => h ▸ List.mem_append_left _ hn⟩
        · obtain ⟨ms', hm, hsub⟩ := ih hds hc
          exact ⟨ms', hm, fun n hn => h ▸ List.mem_append_right _ (hsub n hn)⟩

/-- Where `_leaf_names` reads an expression, it reads the leaves it rests on. -/
theorem mem_leafNames_of_rests {L : Lookup} {S : Finset String} {text : String} {n : Node}
    (hr : Rests L S text n) {ns : List String} (h : leafNames n = some ns) :
    stripCapabilityVersion text ∈ ns := by
  induction hr generalizing ns with
  | cap =>
    simp only [leafNames, Option.some.injEq] at h
    simp [← h]
  | and hc _ ih | «with» hc _ ih | or hc _ _ ih =>
    obtain ⟨ms, hm, hsub⟩ := mem_leafNamesEach h hc
    exact hsub _ (ih hm)
  | without _ _ | ifTrue _ _ _ | ifFalse _ _ _ | unlessTrue _ _ _ | unlessFalse _ _ _ =>
    cases h

theorem mem_leafCapsEach {cs : List Node} {ns : List String}
    (h : leafCapsEach cs = some ns) {c : Node} (hc : c ∈ cs) :
    ∃ ms, leafCaps c = some ms ∧ ∀ n ∈ ms, n ∈ ns := by
  induction cs generalizing ns with
  | nil => cases hc
  | cons d ds ih =>
    simp only [leafCapsEach] at h
    cases hd : leafCaps d with
    | none => simp [hd] at h
    | some ms =>
      cases hds : leafCapsEach ds with
      | none => simp [hd, hds] at h
      | some rest =>
        simp only [hd, hds, Option.some.injEq] at h
        rcases List.mem_cons.mp hc with rfl | hc
        · exact ⟨ms, hd, fun n hn => h ▸ List.mem_append_left _ hn⟩
        · obtain ⟨ms', hm, hsub⟩ := ih hds hc
          exact ⟨ms', hm, fun n hn => h ▸ List.mem_append_right _ (hsub n hn)⟩

/-- Where `_leaf_caps` reads an expression, it reads the leaves it rests on. -/
theorem mem_leafCaps_of_rests {L : Lookup} {S : Finset String} {text : String} {n : Node}
    (hr : Rests L S text n) {caps : List String} (h : leafCaps n = some caps) :
    text ∈ caps := by
  induction hr generalizing caps with
  | cap =>
    simp only [leafCaps, Option.some.injEq] at h
    simp [← h]
  | «with» hc _ ih =>
    obtain ⟨ms, hm, hsub⟩ := mem_leafCapsEach h hc
    exact hsub _ (ih hm)
  | and _ _ _ | or _ _ _ _ | without _ _ | ifTrue _ _ _ | ifFalse _ _ _
  | unlessTrue _ _ _ | unlessFalse _ _ _ => cases h

/-- A bound `_leaf_caps` reads is a leaf the expression rests on. -/
theorem rests_of_mem_leafCaps {L : Lookup} {S : Finset String} {text : String} {n : Node}
    {caps : List String} (h : leafCaps n = some caps) (ht : text ∈ caps) :
    Rests L S text n := by
  have key : ∀ (cs : List Node) (caps : List String),
      (∀ c ∈ cs, ∀ ms, leafCaps c = some ms → text ∈ ms → Rests L S text c) →
      leafCapsEach cs = some caps → text ∈ caps → ∃ c ∈ cs, Rests L S text c := by
    intro cs
    induction cs with
    | nil =>
      intro caps _ h ht
      simp only [leafCapsEach, Option.some.injEq] at h
      simp [← h] at ht
    | cons d ds ihl =>
      intro caps ih h ht
      simp only [leafCapsEach] at h
      cases hd : leafCaps d with
      | none => simp [hd] at h
      | some ms =>
        cases hds : leafCapsEach ds with
        | none => simp [hd, hds] at h
        | some rest =>
          simp only [hd, hds, Option.some.injEq] at h
          rw [← h] at ht
          rcases List.mem_append.mp ht with ht | ht
          · exact ⟨d, List.mem_cons_self .., ih d (List.mem_cons_self ..) ms hd ht⟩
          · obtain ⟨c, hc, hr⟩ :=
              ihl rest (fun c hc => ih c (List.mem_cons_of_mem _ hc)) hds ht
            exact ⟨c, List.mem_cons_of_mem _ hc, hr⟩
  induction n using Node.induct generalizing caps with
  | cap t =>
    simp only [leafCaps, Option.some.injEq] at h
    rw [← h] at ht
    rw [List.mem_singleton.mp ht]
    exact .cap
  | with_ cs ih =>
    obtain ⟨c, hc, hr⟩ := key cs caps (fun c hc ms hm hs => ih c hc hm hs) h ht
    exact .with hc hr
  | and _ _ | or _ _ | without _ _ _ _ | if_ _ _ _ _ _ _ | unless_ _ _ _ _ _ _ => cases h

/-! ## What a call on a leaf says -/

/-- A bare name that is answered is provided by a package of the set. -/
theorem offered_of_kept_resolve {L : Lookup} {S : Finset String} {who name : String}
    (hbare : Unversioned name) (ho : L.overrides.get? name = none)
    (hc : L.CandidatesOffer name) (hk : (resolve L who name).Kept L S) :
    ∃ p ∈ S, p ∈ L.providers name := by
  rcases meets_of_kept hc hk with ⟨r, _, hr⟩ | ⟨p, hp, hoff⟩
  · rw [Lookup.overrideFor, hbare, ho] at hr
    cases hr
  · rw [hbare] at hoff
    exact ⟨p, hp, hoff.1⟩

/-- The names of a chain of `with` are those of its bounds. -/
theorem leafNames_of_leafCaps {n : Node} {caps : List String} (h : leafCaps n = some caps) :
    leafNames n = some (caps.map stripCapabilityVersion) := by
  have key : ∀ (cs : List Node) (caps : List String),
      (∀ c ∈ cs, ∀ ms, leafCaps c = some ms →
        leafNames c = some (ms.map stripCapabilityVersion)) →
      leafCapsEach cs = some caps →
      leafNamesEach cs = some (caps.map stripCapabilityVersion) := by
    intro cs
    induction cs with
    | nil =>
      intro caps _ h
      simp only [leafCapsEach, Option.some.injEq] at h
      simp [← h, leafNamesEach]
    | cons d ds ihl =>
      intro caps ih h
      simp only [leafCapsEach] at h
      cases hd : leafCaps d with
      | none => simp [hd] at h
      | some ms =>
        cases hds : leafCapsEach ds with
        | none => simp [hd, hds] at h
        | some rest =>
          simp only [hd, hds, Option.some.injEq] at h
          have h1 := ih d (List.mem_cons_self ..) ms hd
          have h2 := ihl rest (fun c hc => ih c (List.mem_cons_of_mem _ hc)) hds
          simp [leafNamesEach, h1, h2, ← h]
  induction n using Node.induct generalizing caps with
  | cap t =>
    simp only [leafCaps, Option.some.injEq] at h
    simp [leafNames, ← h]
  | with_ cs ih => exact key cs caps (fun c hc ms hm => ih c hc hm) h
  | and _ _ | or _ _ | without _ _ _ _ | if_ _ _ _ _ _ _ | unless_ _ _ _ _ _ _ => cases h

/-- The bounds of a range are its leaves, and name one capability. -/
theorem rangeBounds_eq_some {cs : List Node} {caps : List String}
    (h : rangeBounds (.with cs) = some caps) :
    leafCaps (.with cs) = some caps ∧
      ∃ name, ∀ cap ∈ caps, stripCapabilityVersion cap = name := by
  unfold rangeBounds at h
  dsimp only at h
  cases hn : leafNames (.with cs) with
  | none => simp [hn] at h
  | some ns =>
    simp only [hn] at h
    by_cases hone : ns.dedup.length = 1
    · rw [if_pos hone] at h
      obtain ⟨name, hname⟩ := List.length_eq_one_iff.mp hone
      refine ⟨h, name, fun cap hcap => ?_⟩
      have hns : ns = caps.map stripCapabilityVersion :=
        Option.some.inj (hn.symm.trans (leafNames_of_leafCaps h))
      have hm : stripCapabilityVersion cap ∈ ns.dedup :=
        List.mem_dedup.mpr (hns ▸ List.mem_map_of_mem hcap)
      rw [hname] at hm
      exact List.mem_singleton.mp hm
    · rw [if_neg hone] at h
      cases h

section Together

variable {L : Lookup} {S : Finset String} {who text : String} {cs : List Node}

/-- A range that is answered is answered by a package that meets the bound of each leaf. -/
theorem offers_of_kept_range {Chain : List Node → Prop} (hs : LeafSafe L text Chain)
    (hchain : Chain cs) {caps : List String}
    (ho : L.overrides.get? (stripCapabilityVersion text) = none)
    (hb : rangeBounds (.with cs) = some caps) (ht : text ∈ caps)
    (htext : L.overrides.get? (unparseBoolean (.with cs)) = none)
    (hjoin : L.overrides.get? (PyText.join " with " caps) = none)
    (hk : (resolveRange L who caps).Kept L S) :
    ∃ p ∈ S, L.Offers (stripCapabilityVersion text) (splitConstraint text).2 p := by
  obtain ⟨_, name, hname⟩ := rangeBounds_eq_some hb
  have hhead : stripCapabilityVersion (caps.headD "") = stripCapabilityVersion text := by
    cases caps with
    | nil => cases ht
    | cons cap caps => rw [List.headD_cons, hname cap (List.mem_cons_self ..), hname text ht]
  rcases resolveRange_cases L caps with ⟨p, hp, hfrom⟩ | ⟨alternatives, hc⟩ | hp
  · rw [hp] at hk
    rw [hhead, ho] at hfrom
    have hcand := mem_rangeCandidates.mp (hfrom.resolve_left (by simp))
    exact ⟨p, hk.pkgs p (by simp), hcand.1, hcand.2 text ht⟩
  · have hcall := hc who
    rw [hcall] at hk
    rcases hk.choices _ (List.mem_singleton_self _) with h | ⟨r, _, hr⟩
    · obtain ⟨a, ha, p, hp, hst⟩ := Choice.settledBy_iff.mp h
      exact ⟨p, hp, hs.range cs caps who alternatives hchain hb ht htext hjoin hcall a ha p hst⟩
    · rw [hjoin] at hr
      cases hr
  · obtain ⟨d, hd⟩ := hp who
    rw [hd] at hk
    cases hk.problems

/-- A `with` over several names that is answered is answered by a package that provides
    every one of them. -/
theorem offers_of_kept_intersect
    (hs : ∀ p ∈ L.providers (stripCapabilityVersion text),
      L.Offers (stripCapabilityVersion text) (splitConstraint text).2 p)
    (hr : Rests L S text (.with cs))
    (hb : ∀ cap caps, rangeBounds (.with cs) ≠ some (cap :: caps))
    (htext : L.overrides.get? (unparseBoolean (.with cs)) = none)
    (hk : (requireTogether L who (.with cs)).Kept L S) :
    ∃ p ∈ S, L.Offers (stripCapabilityVersion text) (splitConstraint text).2 p := by
  unfold requireTogether at hk
  split at hk
  · rename_i cap caps hcaps
    exact absurd hcaps (hb cap caps)
  · dsimp only at hk
    split at hk
    · cases hk.problems
    · rename_i pkg hi
      obtain ⟨ns, hns, hcommon⟩ := Option.bind_eq_some_iff.mp hi
      have hname := mem_leafNames_of_rests hr hns
      have hp := (mem_commonProviders hcommon).mp (List.mem_singleton_self pkg)
      exact ⟨pkg, hk.pkgs pkg (by simp), hs pkg (hp _ hname)⟩
    · rw [htext] at hk
      cases hk.problems

/-- A `with` no override answers: some package of the set offers each leaf it rests on. -/
theorem offers_of_kept_together (hs : LeafSafe L text fun _ => True)
    (ho : L.overrides.get? (stripCapabilityVersion text) = none)
    (hr : Rests L S text (.with cs))
    (htext : L.overrides.get? (unparseBoolean (.with cs)) = none)
    (hjoin : ∀ caps, rangeBounds (.with cs) = some caps →
      L.overrides.get? (PyText.join " with " caps) = none)
    (hk : (requireTogether L who (.with cs)).Kept L S) :
    ∃ p ∈ S, L.Offers (stripCapabilityVersion text) (splitConstraint text).2 p := by
  rcases hb : rangeBounds (.with cs) with _ | _ | ⟨cap, caps⟩
  · exact offers_of_kept_intersect hs.offers hr (by simp [hb]) htext hk
  · exact offers_of_kept_intersect hs.offers hr (by simp [hb]) htext hk
  · have ht := mem_leafCaps_of_rests hr (rangeBounds_eq_some hb).1
    have hk' : (resolveRange L who (cap :: caps)).Kept L S := by
      simpa only [requireTogether, hb] using hk
    exact offers_of_kept_range hs trivial ho hb ht htext (hjoin _ hb) hk'

end Together

/-! ## The result -/

/-- Every problem-free closure holds a package that offers the leaf, wherever it demands
    it. -/
def LeafKept (L : Lookup) (text : String) : Prop :=
  ∀ (requires : Dict String (List String)) (roots : List String)
    (extra : List (String × String)) (S : Finset String),
    runtimeClosure L requires roots extra = (S, []) →
    LeafDemanded L requires roots extra S text →
    ∃ p ∈ S, L.Offers (stripCapabilityVersion text) (splitConstraint text).2 p

theorem leafKept_of_safe {L : Lookup} {text : String}
    (hbare : Unversioned (stripCapabilityVersion text))
    (ho : L.overrides.get? (stripCapabilityVersion text) = none)
    (hs : LeafSafe L text fun _ => True) : LeafKept L text := by
  intro requires roots extra S hclean hd
  have hname : ∀ who, (resolve L who (stripCapabilityVersion text)).Kept L S →
      ∃ p ∈ S, L.Offers (stripCapabilityVersion text) (splitConstraint text).2 p := by
    intro who hk
    obtain ⟨p, hp, hprov⟩ := offered_of_kept_resolve hbare ho hs.alone hk
    exact ⟨p, hp, hs.offers p hprov⟩
  cases hd with
  | @called c hc hn =>
    obtain ⟨node, who, t, final⟩ := c
    subst hn
    exact hname who (hc.kept hclean)
  | @together c cs hc hn hr htext hjoin =>
    obtain ⟨node, who, t, final⟩ := c
    subst hn
    exact offers_of_kept_together hs ho hr htext hjoin (hc.kept hclean)
  | branch hc hn hb hsat hr =>
    obtain ⟨p, hp, hst⟩ := capabilityPresent_iff.mp (present_of_rests hr hsat)
    rcases hst with h | ⟨_, hprov⟩
    · rw [ho] at h
      cases h
    · exact ⟨p, hp, hs.offers p hprov⟩
  | @extra who he hplain =>
    have hk := kept_of_clean hclean (extra_kept he)
    have hd : demandExtra L ∅ text who = resolve L who (stripCapabilityVersion text) := by
      simp [demandExtra, hplain]
    rw [hd] at hk
    exact hname who hk

/-- The runs that show an unsafe leaf: one whose `or` a provider with the wrong version
    makes true, and two that put a choice off. -/
theorem safe_of_leafKept {L : Lookup} {text : String}
    (hbare : Unversioned (stripCapabilityVersion text))
    (ho : L.overrides.get? (stripCapabilityVersion text) = none)
    (hw : Writable text) (hk : LeafKept L text) :
    LeafSafe L text fun cs => ∃ cap, richNode cap = some (.with cs) := by
  obtain ⟨⟨leaf, hleaf⟩, oneOf, bs, hor, hmem⟩ := hw
  refine ⟨fun p hp => ?_, ?_, ?_⟩
  · -- `p` is there when `pkg`, which provides nothing of the name, demands the `or`.
    obtain ⟨pkg, hpkg⟩ := Infinite.exists_notMem_finset (p :: L.providers
      (stripCapabilityVersion text)).toFinset
    simp only [List.mem_toFinset, List.mem_cons, not_or] at hpkg
    have hsat : satisfied L {p, pkg} (.cap text) = true :=
      capabilityPresent_iff.mpr ⟨p, by simp, .inr ⟨ho, hp⟩⟩
    have hany : anySatisfied L {p, pkg} bs = true := by
      rw [anySatisfied_eq]
      exact List.any_eq_true.mpr ⟨_, hmem, hsat⟩
    have hreq : require L {p, pkg} pkg false (.or bs) = .found [] := by
      simp [require, hany]
    have hin : pkg ∈ ({p, pkg} : Finset String) := by simp
    have hrun := closure_of_requirement (S := {p, pkg}) hor hin subset_rfl
      (by rw [hreq]; rfl) (by rw [hreq]; rfl) (by rw [hreq]; rfl) (by simp [hreq])
      (by simp [hreq])
    obtain ⟨t, _, hcall⟩ := called_of_clean hrun hin (by simp [soleRequirement_self]) hor
    obtain ⟨x, hx, hoff⟩ := hk _ _ _ _ hrun (.branch hcall rfl hmem hsat .cap)
    rcases Finset.mem_insert.mp hx with rfl | hx
    · exact hoff
    · rw [Finset.mem_singleton.mp hx] at hoff
      exact absurd hoff.1 hpkg.2
  · intro who c candidates hr name hname p hst
    have hreq : require L {p} p false (.cap text) =
        .choice (stripCapabilityVersion text) (PyText.sortedSet candidates) p :=
      resolve_of_ambiguous (resolveCapability_ambiguous_who hr p)
    have hrun := closure_of_requirement (S := {p}) hleaf (Finset.mem_singleton_self p) subset_rfl
      (by rw [hreq]; rfl) (by rw [hreq]; rfl) (by rw [hreq]; rfl) (by simp [hreq]) (by
        intro ch hch
        rw [hreq] at hch
        rw [List.mem_singleton.mp hch]
        exact Choice.settledBy_iff.mpr
          ⟨name, PyText.mem_sortedSet.mpr hname, p, by simp, hst⟩)
    obtain ⟨t, _, hcall⟩ := called_of_clean hrun (Finset.mem_singleton_self p)
      (by simp [soleRequirement_self]) hleaf
    obtain ⟨x, hx, hoff⟩ := hk _ _ _ _ hrun (.called hcall rfl)
    rw [Finset.mem_singleton.mp hx] at hoff
    rw [hbare]
    exact ⟨hoff.1, anyVersionSatisfies_none _⟩
  · rintro cs caps who alternatives ⟨chain, hchain⟩ hb ht htext hjoin hres name hname p hst
    obtain ⟨cap, rest, rfl⟩ : ∃ cap rest, caps = cap :: rest := by
      cases caps with
      | nil => cases ht
      | cons cap rest => exact ⟨cap, rest, rfl⟩
    have hreq : ∃ k, require L {p} p false (.with cs) = .choice k alternatives p :=
      ⟨_, by simpa only [require, requireTogether, hb] using resolveRange_choice_who hres p⟩
    obtain ⟨k, hreq⟩ := hreq
    have hrun := closure_of_requirement (S := {p}) hchain (Finset.mem_singleton_self p) subset_rfl
      (by rw [hreq]; rfl) (by rw [hreq]; rfl) (by rw [hreq]; rfl) (by simp [hreq]) (by
        intro ch hch
        rw [hreq] at hch
        rw [List.mem_singleton.mp hch]
        exact Choice.settledBy_iff.mpr ⟨name, hname, p, by simp, hst⟩)
    obtain ⟨t, _, hcall⟩ := called_of_clean hrun (Finset.mem_singleton_self p)
      (by simp [soleRequirement_self]) hchain
    have hrests : Rests L {p} text (.with cs) :=
      rests_of_mem_leafCaps (rangeBounds_eq_some hb).1 ht
    obtain ⟨x, hx, hoff⟩ := hk _ _ _ _ hrun (.together hcall rfl hrests htext
      fun caps' hb' => by rw [hb] at hb'; rw [← Option.some.inj hb']; exact hjoin)
    rwa [Finset.mem_singleton.mp hx] at hoff

/-- **When the constraint of a leaf is met.** For a leaf whose name no override answers:
    every problem-free closure that demands it holds a package that offers it, if the leaf
    is safe; and only then, as far as the leaf and the chains it occurs in can be
    written. -/
theorem leaf_version (L : Lookup) (text : String)
    (hbare : Unversioned (stripCapabilityVersion text))
    (ho : L.overrides.get? (stripCapabilityVersion text) = none) :
    ((LeafSafe L text fun _ => True) → LeafKept L text) ∧
      (Writable text → LeafKept L text →
        LeafSafe L text fun cs => ∃ cap, richNode cap = some (.with cs)) :=
  ⟨leafKept_of_safe hbare ho, safe_of_leafKept hbare ho⟩

/-! ## An old provider -/

/-- `old` provides `a` at version 1. -/
def oldLookup : Lookup where
  provides := ⟨[("a", ["old"])]⟩
  provideEvr := ⟨[("a", ⟨[("old", [⟨none, some "1", none⟩])]⟩)]⟩
  overrides := .empty

theorem leaf_version_old :
    ((LeafSafe oldLookup "a >= 2" fun _ => True) → LeafKept oldLookup "a >= 2") ∧
      (Writable "a >= 2" → LeafKept oldLookup "a >= 2" →
        LeafSafe oldLookup "a >= 2" fun cs => ∃ cap, richNode cap = some (.with cs)) :=
  leaf_version oldLookup "a >= 2" (by decide) (by decide)

/-- `p` requires `(a >= 2)`: the closure has no problems and holds version 1 only. -/
theorem old_discharges_leaf :
    validateOverrides oldLookup.overrides oldLookup.provides "" = [] ∧
      runtimeClosure oldLookup (soleRequirement "p" "(a >= 2)") ["p"] [] =
        ({"p", "old"}, []) ∧
      LeafDemanded oldLookup (soleRequirement "p" "(a >= 2)") ["p"] [] {"p", "old"} "a >= 2" ∧
      splitConstraint "a >= 2" = ("a", some (.ge, "2")) ∧
      ¬ ∃ p ∈ ({"p", "old"} : Finset String), oldLookup.Offers "a" (some (.ge, "2")) p := by
  have hn : richNode "(a >= 2)" = some (.cap "a >= 2") := by rfl
  have hr : resolveCapability oldLookup "a" "p" = .ok "old" := by decide
  have hd : demand oldLookup {"p"} "p" "(a >= 2)" = .found ["old"] := by
    have hname : stripCapabilityVersion "a >= 2" = "a" := by decide
    have hreq : require oldLookup {"p"} "p" false (.cap "a >= 2") = .found ["old"] := by
      simp only [require, hname, resolve, hr]
    rw [demand_of_richNode hn, hreq]
    rfl
  have hrun : runtimeClosure oldLookup (soleRequirement "p" "(a >= 2)") ["p"] [] =
      ({"p", "old"}, []) := by
    refine soleClosure [] [] (t := {"p"}) (by simp) (by simp) ?_ ?_ ?_ ?_
    · rw [hd]
      decide
    · rw [hd]
      rfl
    · rw [hd]
      rfl
    · rw [hd]
      simp
  have hp : "p" ∈ ({"p", "old"} : Finset String) := by decide
  obtain ⟨t, _, hcall⟩ := called_of_clean hrun hp (by simp [soleRequirement_self]) hn
  exact ⟨by decide, hrun, .called hcall rfl, by decide, by decide⟩

end BuckosDistro.Depgraph
