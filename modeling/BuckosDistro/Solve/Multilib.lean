/-
  Multilib builds do not interfere (`tools/solve.py`, `build_universe`).

  Two universes are compared: of all builds, and of those the collapse keeps under their
  plain names. The second collapse finds the same winners in whatever order it meets them
  and leaves no foreign build over. So the maps read off the winners agree, and the first
  universe has more only under arch-qualified names and in slots nothing kept provides.
-/
import BuckosDistro.Solve.Universe

namespace BuckosDistro.Solve

open BuckosDistro.Lib BuckosDistro.Depgraph

/-! ## Foreign slots -/

section Slots

variable {foreign : Dict String PackageRecord}

theorem mem_foreign_of_valuesAt {arch cap name : String}
    (h : (cap, name) ∈ Dict.valuesAt (foreign.items.flatMap fun item =>
      (readProvides item.2).map fun cap => (item.2.arch, cap, item.1)) arch) :
    ∃ pkg, (name, pkg) ∈ foreign.items ∧ cap ∈ readProvides pkg := by
  rw [Dict.mem_valuesAt, List.mem_flatMap] at h
  obtain ⟨⟨key, pkg⟩, hitem, hmem⟩ := h
  obtain ⟨c, hc, he⟩ := List.mem_map.mp hmem
  obtain ⟨_, rfl, rfl⟩ := he
  exact ⟨pkg, hitem, hc⟩

/-- A slot holds names of foreign builds that provide its capability, at least one. -/
theorem mem_foreignSlots {cap : String} {names : List String}
    (h : (cap, names) ∈ foreignSlots (foreignProvides foreign)) :
    names ≠ [] ∧ ∀ name ∈ names, ∃ pkg, (name, pkg) ∈ foreign.items ∧ cap ∈ readProvides pkg := by
  obtain ⟨arch, _, hslot⟩ := List.mem_flatMap.mp h
  obtain ⟨c, hc, he⟩ := List.mem_map.mp hslot
  obtain ⟨rfl, hnames⟩ := Prod.mk.inj he
  have hcaps : ∀ lists, (foreignProvides foreign).get? arch = some lists →
      lists = Dict.group (Dict.valuesAt (foreign.items.flatMap fun item =>
        (readProvides item.2).map fun cap => (item.2.arch, cap, item.1)) arch) := by
    intro lists hl
    unfold foreignProvides at hl
    rw [Dict.get?_group₂] at hl
    split_ifs at hl
    exact (Option.some.inj hl).symm
  unfold Dict.getD at hc hnames
  rw [PyText.mem_sortedSet, Dict.mem_keys_iff] at hc
  cases hl : (foreignProvides foreign).get? arch with
  | none =>
    rw [hl] at hc
    cases hc
  | some lists =>
    obtain rfl := hcaps lists hl
    rw [hl, Option.getD_some, get?_sortedSets (Dict.nodup_group _), Dict.get?_group] at hc hnames
    split_ifs at hc hnames with hn
    · cases hc
    · rw [Option.map_some, Option.getD_some] at hnames
      subst hnames
      refine ⟨fun hnil => hn ?_, fun name hname => ?_⟩
      · rw [List.eq_nil_iff_forall_not_mem] at hnil ⊢
        exact fun a ha => hnil a (PyText.mem_sortedSet.mpr ha)
      · rw [PyText.mem_sortedSet, Dict.mem_valuesAt] at hname
        exact mem_foreign_of_valuesAt hname

end Slots

/-! ## The builds kept -/

section Winners

variable {t : Target} {P W : List PackageRecord}

/-- `W` are the builds of `P` kept under their plain names, in any order. -/
def Target.Winners (t : Target) (P W : List PackageRecord) : Prop :=
  W.Perm ((t.plainIndex P).items.map Prod.snd)

instance : Decidable (t.Winners P W) := inferInstanceAs (Decidable (List.Perm _ _))

theorem Target.Winners.mem_iff (hW : t.Winners P W) {pkg : PackageRecord} :
    pkg ∈ W ↔ (t.plainIndex P).get? pkg.name = some pkg := by
  rw [List.Perm.mem_iff hW, List.mem_map]
  constructor
  · rintro ⟨⟨name, pkg'⟩, hitem, rfl⟩
    have hget := (Dict.mem_items_iff nodup_plainIndex).mp hitem
    rw [(plainIndex_mem hget).2]
    exact hget
  · intro hget
    exact ⟨_, Dict.mem_items_of_get? hget, rfl⟩

/-- Collapsing the builds kept keeps them all. -/
theorem Target.Winners.get?_plainIndex (hW : t.Winners P W) (name : String) :
    (t.plainIndex W).get? name = (t.plainIndex P).get? name := by
  cases hp : (t.plainIndex P).get? name with
  | none =>
    rw [get?_plainIndex_eq_none] at hp ⊢
    exact fun pkg hpkg => hp pkg (plainIndex_mem (hW.mem_iff.mp hpkg)).1
  | some pkg =>
    have hmem : pkg ∈ W := by
      rw [hW.mem_iff, (plainIndex_mem hp).2]
      exact hp
    cases hw : (t.plainIndex W).get? name with
    | none => exact absurd (plainIndex_mem hp).2 (get?_plainIndex_eq_none.mp hw pkg hmem)
    | some pkg' =>
      obtain ⟨hmem', hname'⟩ := plainIndex_mem hw
      have hget := hW.mem_iff.mp hmem'
      rw [hname', hp] at hget
      exact hget.symm

theorem Target.Winners.items_perm (hW : t.Winners P W) :
    (t.plainIndex W).items.Perm (t.plainIndex P).items :=
  Dict.items_perm nodup_plainIndex nodup_plainIndex hW.get?_plainIndex

/-- No build kept is foreign. -/
theorem Target.Winners.foreignIndex (hW : t.Winners P W) : t.foreignIndex W = Dict.empty := by
  have hnone : W.filter (t.isForeign (t.plainIndex W)) = [] := by
    rw [List.filter_eq_nil_iff]
    intro pkg hpkg hforeign
    refine winner_ne_of_isForeign hforeign ?_
    rw [hW.get?_plainIndex]
    exact hW.mem_iff.mp hpkg
  unfold Target.foreignIndex
  rw [hnone]
  rfl

theorem Target.Winners.get?_sourcesOf (hW : t.Winners P W) (name : String) :
    (sourcesOf (t.plainIndex P)).get? name = (sourcesOf (t.plainIndex W)).get? name := by
  rw [Solve.get?_sourcesOf nodup_plainIndex, Solve.get?_sourcesOf nodup_plainIndex,
    hW.get?_plainIndex]

theorem Target.Winners.get?_plainSubpackages (hW : t.Winners P W) (src : String) :
    (plainSubpackages (t.plainIndex P)).get? src =
      (plainSubpackages (t.plainIndex W)).get? src := by
  have hitems := Dict.items_perm (nodup_sourcesOf (@nodup_plainIndex t P))
    (nodup_sourcesOf (@nodup_plainIndex t W)) hW.get?_sourcesOf
  rw [Solve.get?_plainSubpackages, Solve.get?_plainSubpackages]
  exact sortedGroup_congr fun name => (hitems.map _).mem_iff

theorem Target.Winners.plainProvides (hW : t.Winners P W) (cap : String) :
    ((plainProvides (t.plainIndex P)).get? cap).map PyText.sortedSet =
      ((plainProvides (t.plainIndex W)).get? cap).map PyText.sortedSet :=
  sortedGroup_congr fun _ => (hW.items_perm.symm.flatMap_right _).mem_iff

theorem Target.Winners.plainProvideEvr (hW : t.Winners P W) (cap : String) :
    Option.Rel (fun evrs evrs' => ∀ name, evrs.get? name = evrs'.get? name)
      ((plainProvideEvr (t.plainIndex P)).get? cap)
      ((plainProvideEvr (t.plainIndex W)).get? cap) := by
  have hvalues := hW.items_perm.symm.flatMap_right fun item : String × PackageRecord =>
    (readProvideEvr item.2).map fun entry => (entry.1, item.1, entry.2)
  have hcap := (hvalues.filter fun entry => entry.1 = cap).map Prod.snd
  have hname := get?_plainProvideEvr (@nodup_plainIndex t P) cap
  have hname' := get?_plainProvideEvr (@nodup_plainIndex t W) cap
  unfold Solve.plainProvideEvr
  rw [Dict.get?_group₂, Dict.get?_group₂]
  split_ifs with hn hn' hn'
  · exact Option.Rel.none
  · rw [Dict.valuesAt] at hn
    rw [hn, List.nil_perm] at hcap
    exact absurd hcap hn'
  · rw [Dict.valuesAt] at hn'
    rw [hn', List.perm_nil] at hcap
    exact absurd hcap hn
  · refine Option.Rel.some fun name => ?_
    rw [Dict.get?_group, Dict.get?_group, hname, hname', hW.get?_plainIndex]

/-- What a build kept provides is registered, unless it is no capability. -/
theorem Target.Winners.isSome_plainProvides (hW : t.Winners P W) {pkg : PackageRecord}
    (hpkg : pkg ∈ W) {cap : String} (hcap : cap ∈ readProvides pkg) :
    ((Solve.plainProvides (t.plainIndex P)).get? cap).isSome := by
  have hitem := Dict.mem_items_of_get? (hW.mem_iff.mp hpkg)
  have hmem : pkg.name ∈ Dict.valuesAt ((t.plainIndex P).items.flatMap fun item =>
      (readProvides item.2).map fun cap => (cap, item.1)) cap := by
    rw [Dict.mem_valuesAt, List.mem_flatMap]
    exact ⟨_, hitem, List.mem_map.mpr ⟨cap, hcap, rfl⟩⟩
  unfold Solve.plainProvides
  rw [Dict.get?_group, if_neg (List.ne_nil_of_mem hmem)]
  rfl

end Winners

/-! ## Non-interference -/

section Universes

variable {t : Target} {P W S : List PackageRecord}

/-- The names of the packages. -/
def plainNames (packages : List PackageRecord) : List String := packages.map PackageRecord.name

theorem foreign_of_get? {key : String} {pkg : PackageRecord} (hW : t.Winners P W)
    (h : (t.foreignIndex P).get? key = some pkg) :
    pkg ∈ P ∧ pkg ∉ W ∧ key = archQualified pkg.name pkg.arch := by
  obtain ⟨hP, hforeign, hkey⟩ := get?_foreignIndex h
  exact ⟨hP, fun hw => winner_ne_of_isForeign hforeign (hW.mem_iff.mp hw), hkey.symm⟩

/-- A slot that nothing kept provides is filled with discarded builds alone. -/
theorem foreign_of_filled (hW : t.Winners P W) {cap : String} {names : List String}
    (hslot : (⟨foreignSlots (foreignProvides (t.foreignIndex P))⟩ :
      Dict String (List String)).get? cap = some names) :
    ∀ name ∈ names, ∃ pkg ∈ P, pkg ∉ W ∧ name = archQualified pkg.name pkg.arch ∧
      cap ∈ readProvides pkg := by
  intro name hname
  obtain ⟨pkg, hitem, hcap⟩ := (mem_foreignSlots (Dict.mem_items_of_get? hslot)).2 name hname
  obtain ⟨hP, hnW, hkey⟩ :=
    foreign_of_get? hW ((Dict.mem_items_iff nodup_foreignIndex).mp hitem)
  exact ⟨pkg, hP, hnW, hkey, hcap⟩

/-- **Multilib non-interference.** When no package is named like an arch-qualified name,
    the universe of all builds and that of the builds kept under their plain names agree on
    everything said of plain names and on the providers of all that a build kept provides;
    what the first has more of are arch-qualified names and slots that were empty. -/
theorem multilib_noninterference (t : Target) (P W S : List PackageRecord)
    (hW : t.Winners P W)
    (hnames : ∀ p ∈ P, ∀ q ∈ P, p.name ≠ archQualified q.name q.arch) :
    let u := buildUniverse t P S
    let w := buildUniverse t W S
    (∀ name ∈ plainNames P, u.requires.get? name = w.requires.get? name ∧
      u.binaryIndex.get? name = w.binaryIndex.get? name) ∧
    (∀ name, u.sourceOf.get? name = w.sourceOf.get? name) ∧
    (∀ src, u.subpackages.get? src = w.subpackages.get? src) ∧
    (∀ cap, Option.Rel (fun evrs evrs' => ∀ name, evrs.get? name = evrs'.get? name)
      (u.provideEvr.get? cap) (w.provideEvr.get? cap)) ∧
    (∀ cap, (∃ b ∈ W, cap ∈ b.provides ∨ cap = b.name) →
      u.provides.get? cap = w.provides.get? cap) ∧
    (∀ name ∉ plainNames P, w.binaryIndex.get? name = none ∧ w.requires.get? name = none ∧
      ∀ pkg, u.binaryIndex.get? name = some pkg →
        pkg ∈ P ∧ pkg ∉ W ∧ name = archQualified pkg.name pkg.arch ∧
          u.requires.get? name = some (readRequires pkg)) ∧
    (∀ cap, w.provides.get? cap = none → ∀ names, u.provides.get? cap = some names →
      ∀ name ∈ names, ∃ pkg ∈ P, pkg ∉ W ∧ name = archQualified pkg.name pkg.arch ∧
        cap ∈ readProvides pkg) := by
  have hplain : ∀ name ∈ plainNames P, (t.foreignIndex P).get? name = none := by
    intro name hname
    obtain ⟨p, hp, rfl⟩ := List.mem_map.mp hname
    cases hf : (t.foreignIndex P).get? p.name with
    | none => rfl
    | some q =>
      obtain ⟨hq, _, hkey⟩ := foreign_of_get? hW hf
      exact absurd hkey (hnames p hp q hq)
  have hnone : ∀ key, (t.foreignIndex W).get? key = none := fun key => by
    rw [hW.foreignIndex]
    rfl
  have hslots : ∀ cap, (⟨foreignSlots (foreignProvides (t.foreignIndex W))⟩ :
      Dict String (List String)).get? cap = none := fun cap => by
    rw [hW.foreignIndex]
    rfl
  refine ⟨fun name hname => ⟨?_, ?_⟩, fun name => hW.get?_sourcesOf name,
    fun src => hW.get?_plainSubpackages src, fun cap => hW.plainProvideEvr cap, ?_, ?_, ?_⟩
  · rw [get?_requires, get?_requires, hnone, hplain name hname, hW.get?_plainIndex]
  · rw [get?_binaryIndex, get?_binaryIndex, hnone, hplain name hname, hW.get?_plainIndex]
  · rintro cap ⟨b, hb, hcap⟩
    rw [get?_provides, get?_provides, hslots, Option.or_none, ← hW.plainProvides]
    by_cases hread : cap ∈ readProvides b
    · obtain ⟨names, hn⟩ := Option.isSome_iff_exists.mp (hW.isSome_plainProvides hb hread)
      rw [hn]
      rfl
    · -- A pseudo-capability fills no slot: a slot under such a name is that of a package.
      have hpseudo : isPseudoCapability cap = true := by
        by_contra hc
        refine hread ?_
        unfold readProvides
        rcases hcap with hcap | hcap
        · exact List.mem_append_left _ (List.mem_filter.mpr ⟨hcap, by simpa using hc⟩)
        · exact List.mem_append_right _ (List.mem_singleton.mpr hcap)
      cases hslot : (⟨foreignSlots (foreignProvides (t.foreignIndex P))⟩ :
          Dict String (List String)).get? cap with
      | none => rw [Option.or_none]
      | some names =>
        obtain ⟨hne, hmem⟩ := mem_foreignSlots (Dict.mem_items_of_get? hslot)
        obtain ⟨name, hname⟩ := List.exists_mem_of_ne_nil names hne
        obtain ⟨pkg, hitem, hprov⟩ := hmem name hname
        obtain ⟨hP, _, _⟩ :=
          foreign_of_get? hW ((Dict.mem_items_iff nodup_foreignIndex).mp hitem)
        have hcapname : cap = pkg.name := by
          rcases List.mem_append.mp hprov with h | h
          · rw [List.mem_filter, hpseudo] at h
            exact absurd h.2 (by decide)
          · exact List.mem_singleton.mp h
        cases hw : (t.plainIndex P).get? pkg.name with
        | none => exact absurd rfl (get?_plainIndex_eq_none.mp hw pkg hP)
        | some winner =>
          obtain ⟨_, hwname⟩ := plainIndex_mem hw
          have hwW : winner ∈ W := by
            rw [hW.mem_iff, hwname]
            exact hw
          have hwread : cap ∈ readProvides winner := by
            rw [hcapname, ← hwname]
            exact List.mem_append_right _ (List.mem_singleton.mpr rfl)
          obtain ⟨ns, hns⟩ := Option.isSome_iff_exists.mp (hW.isSome_plainProvides hwW hwread)
          rw [hns]
          rfl
  · intro name hname
    have hp : (t.plainIndex P).get? name = none := by
      rw [get?_plainIndex_eq_none]
      exact fun pkg hpkg he => hname (List.mem_map.mpr ⟨pkg, hpkg, he⟩)
    refine ⟨?_, ?_, fun pkg hpkg => ?_⟩
    · rw [get?_binaryIndex, hnone, hW.get?_plainIndex, hp]
      rfl
    · rw [get?_requires, hnone, hW.get?_plainIndex, hp]
      rfl
    · rw [get?_binaryIndex, hp, Option.none_or] at hpkg
      obtain ⟨hP, hnW, hkey⟩ := foreign_of_get? hW hpkg
      refine ⟨hP, hnW, hkey, ?_⟩
      rw [get?_requires, hpkg]
  · intro cap hw names hu
    rw [get?_provides, hslots, Option.or_none, ← hW.plainProvides, Option.map_eq_none_iff] at hw
    rw [get?_provides, hw, Option.none_or, Option.map_eq_some_iff] at hu
    obtain ⟨slot, hslot, rfl⟩ := hu
    intro name hname
    exact foreign_of_filled hW hslot name (PyText.mem_sortedSet.mp hname)

/-- A package and its 32-bit build. -/
def glibc : PackageRecord :=
  { name := "glibc", arch := "x86_64", version := "2.42", release := "1", requires := ["bash"] }

def glibc32 : PackageRecord :=
  { name := "glibc", arch := "i686", version := "2.42", release := "1", requires := ["ld.so"] }

/-- The 32-bit build does not touch what the plain name requires. -/
theorem multilib_noninterference_glibc :
    (buildUniverse ⟨"x86_64", []⟩ [glibc32, glibc] []).requires.get? "glibc" =
      (buildUniverse ⟨"x86_64", []⟩ [glibc] []).requires.get? "glibc" :=
  ((multilib_noninterference ⟨"x86_64", []⟩ [glibc32, glibc] [glibc] [] (by decide)
    (by decide)).1 "glibc" (by decide)).1

end Universes

end BuckosDistro.Solve
