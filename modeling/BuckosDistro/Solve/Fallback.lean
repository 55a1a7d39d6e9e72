/-
  Fallback repositories and the compose (`tools/solve.py`, `merge_fallback_packages` and
  `build_universe`).

  Three steps keep a fallback build off what the compose has. The merge adds it only under
  a name and architecture the compose lacks; `better` ranks every compose build over it;
  and an arch-qualified name goes to the builds of that name and architecture. A package
  may still be called what the compose calls a build of another architecture
  (`glibc.i686`). Its plain name then stands, as `setdefault` in the source means it to.
-/
import BuckosDistro.Solve.NewestWins
import BuckosDistro.Solve.Multilib

namespace BuckosDistro.Solve

open BuckosDistro.Lib BuckosDistro.Depgraph

/-! ## Compose and fallback -/

section Combined

/-- Every package carries the name of the repository it was read from. -/
def Tagged (groups : List (String × List PackageRecord)) : Prop :=
  ∀ group ∈ groups, ∀ pkg ∈ group.2, pkg.repo = some group.1

/-- The universe of the compose alone. -/
def composeUniverse (targetCpu : String) (composeGroups : List (String × List PackageRecord))
    (sourcePkgs : List PackageRecord) : Universe :=
  buildUniverse ⟨targetCpu, []⟩ (mergePackages composeGroups).packages sourcePkgs

/-- What the compose and the fallback repositories merge to. -/
def combinedPackages (composeGroups fallbackGroups : List (String × List PackageRecord)) :
    List PackageRecord :=
  (mergeFallbackPackages (mergePackages composeGroups).packages fallbackGroups).combined

/-- The collapse that knows the fallback repositories. -/
def withFallback (targetCpu : String) (fallbackGroups : List (String × List PackageRecord)) :
    Target :=
  ⟨targetCpu, fallbackGroups.map Prod.fst⟩

/-- The universe of the compose with the fallback repositories behind it. -/
def combinedUniverse (targetCpu : String)
    (composeGroups fallbackGroups : List (String × List PackageRecord))
    (sourcePkgs : List PackageRecord) : Universe :=
  buildUniverse (withFallback targetCpu fallbackGroups)
    (combinedPackages composeGroups fallbackGroups) sourcePkgs

/-- Two lists of repositories that are told apart by their names. -/
structure Layered (composeGroups fallbackGroups : List (String × List PackageRecord)) : Prop where
  compose : Tagged composeGroups
  fallback : Tagged fallbackGroups
  apart : ∀ name ∈ composeGroups.map Prod.fst, name ∉ fallbackGroups.map Prod.fst

instance (groups : List (String × List PackageRecord)) : Decidable (Tagged groups) :=
  inferInstanceAs (Decidable (∀ group ∈ groups, _))

/-- The packages the fallback repositories add. -/
def addedPackages (composeGroups fallbackGroups : List (String × List PackageRecord)) :
    List PackageRecord :=
  (mergeFallbackPackages (mergePackages composeGroups).packages fallbackGroups).added

variable {targetCpu : String} {cg fg : List (String × List PackageRecord)}

theorem isFallback_of_mem {groups : List (String × List PackageRecord)} {t : Target}
    (htag : Tagged groups) {pkg : PackageRecord} (h : pkg ∈ (mergePackages groups).packages) :
    ∃ name ∈ groups.map Prod.fst, (t.isFallback pkg = true ↔ name ∈ t.fallbackRepos) := by
  obtain ⟨group, hgroup, hmem⟩ := mem_buildsOf.mp (newestOf_mem (mem_packages.mp h))
  refine ⟨group.1, List.mem_map_of_mem hgroup, ?_⟩
  unfold Target.isFallback
  rw [htag group hgroup pkg (mem_ofKey.mp hmem).1]
  exact decide_eq_true_iff

theorem isFallback_compose (h : Layered cg fg) {pkg : PackageRecord}
    (hpkg : pkg ∈ (mergePackages cg).packages) :
    (withFallback targetCpu fg).isFallback pkg = false := by
  obtain ⟨name, hname, hiff⟩ :=
    @isFallback_of_mem cg (withFallback targetCpu fg) h.compose pkg hpkg
  rw [← Bool.not_eq_true, hiff]
  exact h.apart name hname

theorem mem_added {pkg : PackageRecord} (h : pkg ∈ addedPackages cg fg) :
    pkg ∈ (mergePackages fg).packages ∧
      keyOf pkg ∉ (mergePackages cg).packages.map keyOf := by
  obtain ⟨hmem, hkey⟩ := List.mem_filter.mp h
  exact ⟨hmem, of_decide_eq_true hkey⟩

theorem isFallback_added (h : Layered cg fg) {pkg : PackageRecord}
    (hpkg : pkg ∈ addedPackages cg fg) :
    (withFallback targetCpu fg).isFallback pkg = true := by
  obtain ⟨name, hname, hiff⟩ :=
    @isFallback_of_mem fg (withFallback targetCpu fg) h.fallback pkg (mem_added hpkg).1
  exact hiff.mpr hname

theorem combined_perm :
    (combinedPackages cg fg).Perm ((mergePackages cg).packages ++ addedPackages cg fg) :=
  List.perm_insertionSort _ _

theorem mem_combined {pkg : PackageRecord} :
    pkg ∈ combinedPackages cg fg ↔
      pkg ∈ (mergePackages cg).packages ∨ pkg ∈ addedPackages cg fg := by
  rw [combined_perm.mem_iff, List.mem_append]

/-- The merge returns its packages in the order of their keys. -/
theorem sorted_packages (groups : List (String × List PackageRecord)) :
    (mergePackages groups).packages.Pairwise fun a b => toLex (keyOf a) ≤ toLex (keyOf b) := by
  have hkey : ∀ key pkg, ((mergeSlots groups).get? key).map Slot.best = some pkg →
      keyOf pkg = key := fun key pkg h => by
    rw [slot_best] at h
    exact keyOf_of_mem_buildsOf (newestOf_mem h)
  refine List.Pairwise.filterMap _ (fun key key' hle pkg hpkg pkg' hpkg' => ?_)
    (List.pairwise_insertionSort (fun a b : Key => toLex a ≤ toLex b) _)
  rw [hkey key pkg hpkg, hkey key' pkg' hpkg']
  exact hle

/-- The compose is what is left of the combined list without the fallback builds, in its
    old order. -/
theorem filter_combined (h : Layered cg fg) :
    (combinedPackages cg fg).filter (fun pkg => !(withFallback targetCpu fg).isFallback pkg) =
      (mergePackages cg).packages := by
  have hcompose : (mergePackages cg).packages.filter
      (fun pkg => !(withFallback targetCpu fg).isFallback pkg) = (mergePackages cg).packages := by
    rw [List.filter_eq_self]
    intro pkg hpkg
    rw [isFallback_compose h hpkg]
    rfl
  have hadded : (addedPackages cg fg).filter
      (fun pkg => !(withFallback targetCpu fg).isFallback pkg) = [] := by
    rw [List.filter_eq_nil_iff]
    intro pkg hpkg
    rw [isFallback_added h hpkg]
    exact Bool.false_ne_true
  have hsub : (mergePackages cg).packages.Sublist (combinedPackages cg fg) :=
    List.sublist_insertionSort (sorted_packages cg) (List.sublist_append_left _ _)
  have hlen := (@combined_perm cg fg).filter
    (fun pkg => !(withFallback targetCpu fg).isFallback pkg)
  rw [List.filter_append, hcompose, hadded, List.append_nil] at hlen
  have hfilter := hsub.filter fun pkg => !(withFallback targetCpu fg).isFallback pkg
  rw [hcompose] at hfilter
  exact (hfilter.eq_of_length hlen.length_eq.symm).symm

end Combined

/-! ## The two universes -/

section Universes

variable {targetCpu : String} {cg fg : List (String × List PackageRecord)}

theorem better_compose (h : Layered cg fg) {a b : PackageRecord}
    (ha : a ∈ (mergePackages cg).packages) (hb : b ∈ (mergePackages cg).packages) :
    (withFallback targetCpu fg).better a b = Target.better ⟨targetCpu, []⟩ a b := by
  have hnone : ∀ pkg, Target.isFallback ⟨targetCpu, []⟩ pkg = false := fun pkg => by
    unfold Target.isFallback
    cases pkg.repo <;> rfl
  unfold Target.better
  rw [isFallback_compose h ha, isFallback_compose h hb, hnone, hnone]
  rfl

/-- A plain name goes to the compose where it has one. -/
theorem plainIndex_combined (h : Layered cg fg) (name : String) :
    ((withFallback targetCpu fg).plainIndex (combinedPackages cg fg)).get? name =
      ((Target.plainIndex ⟨targetCpu, []⟩ (mergePackages cg).packages).get? name).or
        (Dict.champion (withFallback targetCpu fg).better
          ((combinedPackages cg fg).filter fun pkg => pkg.name = name ∧
            (withFallback targetCpu fg).isFallback pkg = true)) := by
  unfold Target.plainIndex
  rw [Dict.get?_collapse, Dict.get?_collapse,
    Dict.champion_split fun pkg => !(withFallback targetCpu fg).isFallback pkg]
  · congr 1
    · rw [List.filter_comm, filter_combined h]
      refine Dict.champion_congr fun x hx y hy => ?_
      exact better_compose h (List.mem_filter.mp hx).1 (List.mem_filter.mp hy).1
    · rw [List.filter_filter]
      congr 2
      funext pkg
      cases (withFallback targetCpu fg).isFallback pkg <;> simp
  · intro x y hx hy
    unfold Target.better
    rw [Bool.not_eq_true'] at hx
    rw [Bool.not_eq_false'] at hy
    rw [hx, hy]
    rfl
  · intro x y hx hy
    unfold Target.better
    rw [Bool.not_eq_false'] at hx
    rw [Bool.not_eq_true'] at hy
    rw [hx, hy]
    rfl

theorem plainIndex_compose (h : Layered cg fg) {name : String}
    (hname : name ∈ plainNames (mergePackages cg).packages) :
    ((withFallback targetCpu fg).plainIndex (combinedPackages cg fg)).get? name =
      (Target.plainIndex ⟨targetCpu, []⟩ (mergePackages cg).packages).get? name := by
  rw [plainIndex_combined h]
  cases hp : (Target.plainIndex ⟨targetCpu, []⟩ (mergePackages cg).packages).get? name with
  | some pkg => rfl
  | none =>
    obtain ⟨pkg, hpkg, hn⟩ := List.mem_map.mp hname
    exact absurd hn (get?_plainIndex_eq_none.mp hp pkg hpkg)

theorem isForeign_compose (h : Layered cg fg) {pkg : PackageRecord}
    (hpkg : pkg ∈ (mergePackages cg).packages) :
    (withFallback targetCpu fg).isForeign
        ((withFallback targetCpu fg).plainIndex (combinedPackages cg fg)) pkg =
      Target.isForeign ⟨targetCpu, []⟩
        (Target.plainIndex ⟨targetCpu, []⟩ (mergePackages cg).packages) pkg := by
  have hnone : Target.isFallback ⟨targetCpu, []⟩ pkg = false := by
    unfold Target.isFallback
    cases pkg.repo <;> rfl
  unfold Target.isForeign
  rw [isFallback_compose h hpkg, hnone, plainIndex_compose h (List.mem_map_of_mem hpkg)]
  rfl

/-- An arch-qualified name of the compose that no fallback build shares goes to the
    compose. -/
theorem foreignIndex_compose (h : Layered cg fg) {key : String}
    (hkey : ∀ f ∈ addedPackages cg fg, archQualified f.name f.arch ≠ key) :
    ((withFallback targetCpu fg).foreignIndex (combinedPackages cg fg)).get? key =
      (Target.foreignIndex ⟨targetCpu, []⟩ (mergePackages cg).packages).get? key := by
  unfold Target.foreignIndex
  rw [Dict.get?_collapse, Dict.get?_collapse]
  congr 1
  have hdrop : ∀ p : PackageRecord → Bool,
      ((combinedPackages cg fg).filter p).filter (fun pkg =>
        archQualified pkg.name pkg.arch = key) =
      ((mergePackages cg).packages.filter p).filter (fun pkg =>
        archQualified pkg.name pkg.arch = key) := by
    intro p
    rw [← @filter_combined targetCpu cg fg h, List.filter_filter, List.filter_filter,
      List.filter_filter]
    refine List.filter_congr fun pkg hpkg => ?_
    rcases mem_combined.mp hpkg with hc | ha
    · rw [isFallback_compose h hc]
      simp
    · rw [decide_eq_false (hkey pkg ha)]
      simp
  rw [hdrop]
  congr 1
  exact List.filter_congr fun pkg hpkg => isForeign_compose h hpkg

end Universes

/-! ## The compose stands -/

/-- Nothing of the compose is displaced: not the record of a name it has, plain or
    arch-qualified, not the source of a plain name, and a fallback build has a plain name
    only where the compose has no package of that name. -/
structure Undisplaced (targetCpu : String)
    (composeGroups fallbackGroups : List (String × List PackageRecord))
    (sourcePkgs : List PackageRecord) : Prop where
  binary : ∀ name pkg,
    (composeUniverse targetCpu composeGroups sourcePkgs).binaryIndex.get? name = some pkg →
    (combinedUniverse targetCpu composeGroups fallbackGroups sourcePkgs).binaryIndex.get? name =
      some pkg
  source : ∀ name ∈ plainNames (mergePackages composeGroups).packages,
    (combinedUniverse targetCpu composeGroups fallbackGroups sourcePkgs).sourceOf.get? name =
      (composeUniverse targetCpu composeGroups sourcePkgs).sourceOf.get? name
  plain : ∀ pkg,
    (combinedUniverse targetCpu composeGroups fallbackGroups sourcePkgs).binaryIndex.get?
      pkg.name = some pkg →
    (withFallback targetCpu fallbackGroups).isFallback pkg = true →
    pkg.name ∉ plainNames (mergePackages composeGroups).packages

/-- No fallback package goes by an arch-qualified name of the compose, as its plain name or
    as the qualified name of another name and architecture. -/
def NoClash (composeGroups fallbackGroups : List (String × List PackageRecord)) : Prop :=
  ∀ f ∈ (mergePackages fallbackGroups).packages, ∀ c ∈ (mergePackages composeGroups).packages,
    f.name ≠ archQualified c.name c.arch ∧
      (archQualified f.name f.arch = archQualified c.name c.arch → keyOf f = keyOf c)

/-- **Fallback repositories never displace the compose**, when no fallback package goes by an
    arch-qualified name of the compose. -/
theorem fallback_undisplaced (targetCpu : String)
    (composeGroups fallbackGroups : List (String × List PackageRecord))
    (sourcePkgs : List PackageRecord) (h : Layered composeGroups fallbackGroups)
    (hclash : NoClash composeGroups fallbackGroups) :
    Undisplaced targetCpu composeGroups fallbackGroups sourcePkgs := by
  refine ⟨fun name pkg hpkg => ?_, fun name hname => ?_, fun pkg hpkg hfallback hname => ?_⟩
  · unfold composeUniverse at hpkg
    unfold combinedUniverse
    rw [get?_binaryIndex] at hpkg ⊢
    rw [plainIndex_combined h]
    cases hp : (Target.plainIndex ⟨targetCpu, []⟩
        (mergePackages composeGroups).packages).get? name with
    | some winner =>
      rw [hp] at hpkg
      exact hpkg
    | none =>
      rw [hp, Option.none_or] at hpkg
      obtain ⟨hmem, _, rfl⟩ := get?_foreignIndex hpkg
      have hplain : (combinedPackages composeGroups fallbackGroups).filter (fun f =>
          f.name = archQualified pkg.name pkg.arch ∧
            (withFallback targetCpu fallbackGroups).isFallback f = true) = [] := by
        rw [List.filter_eq_nil_iff]
        intro f hf
        rw [decide_eq_true_iff]
        rintro ⟨hn, hfb⟩
        rcases mem_combined.mp hf with hc | ha
        · rw [isFallback_compose h hc] at hfb
          cases hfb
        · exact (hclash f (mem_added ha).1 pkg hmem).1 hn
      have hqualified : ∀ f ∈ addedPackages composeGroups fallbackGroups,
          archQualified f.name f.arch ≠ archQualified pkg.name pkg.arch := by
        intro f hf hq
        obtain ⟨hfm, hfk⟩ := mem_added hf
        rw [(hclash f hfm pkg hmem).2 hq] at hfk
        exact hfk (List.mem_map_of_mem hmem)
      rw [hplain, foreignIndex_compose h hqualified, hpkg]
      rfl
  · unfold composeUniverse combinedUniverse buildUniverse
    dsimp only
    rw [get?_sourcesOf nodup_plainIndex, get?_sourcesOf nodup_plainIndex,
      plainIndex_compose h hname]
  · unfold combinedUniverse at hpkg
    rw [get?_binaryIndex, plainIndex_compose h hname] at hpkg
    cases hp : (Target.plainIndex ⟨targetCpu, []⟩
        (mergePackages composeGroups).packages).get? pkg.name with
    | none =>
      obtain ⟨c, hc, hn⟩ := List.mem_map.mp hname
      exact get?_plainIndex_eq_none.mp hp c hc hn
    | some winner =>
      rw [hp, Option.some_or, Option.some.injEq] at hpkg
      subst hpkg
      rw [isFallback_compose h (plainIndex_mem hp).1] at hfallback
      cases hfallback

/-- A compose with a 32-bit build, and a newer build of it in a fallback repository. -/
def composeGlibc : List (String × List PackageRecord) :=
  [("baseos", [{ glibc with repo := "baseos" }, { glibc32 with repo := "baseos" }])]

def fallbackGlibc (name : String) : List (String × List PackageRecord) :=
  [("buildroot", [{ glibc with name := name, version := "2.43", repo := "buildroot" }])]

theorem fallback_undisplaced_glibc :
    Undisplaced "x86_64" composeGlibc (fallbackGlibc "glibc") [] :=
  fallback_undisplaced "x86_64" composeGlibc (fallbackGlibc "glibc") []
    ⟨by decide, by decide, by decide⟩ (by unfold NoClash; decide)

/-- A fallback package named like the 32-bit build takes its name. -/
theorem fallback_displaces_qualified_name :
    ¬ ∀ (targetCpu : String) (composeGroups fallbackGroups : List (String × List PackageRecord))
      (sourcePkgs : List PackageRecord), Layered composeGroups fallbackGroups →
      Undisplaced targetCpu composeGroups fallbackGroups sourcePkgs := by
  intro h
  have hbinary := (h "x86_64" composeGlibc (fallbackGlibc "glibc.i686") []
    ⟨by decide, by decide, by decide⟩).binary "glibc.i686" { glibc32 with repo := "baseos" }
    (by decide)
  revert hbinary
  decide

end BuckosDistro.Solve
