/-
  Exceptions as a policy records them.

  An exception that was indexed passes the checks of the index again, so the exceptions a
  policy records index to the table that approved them.
-/
import BuckosDistro.Policy.SourcePolicy

namespace BuckosDistro.Policy

open BuckosDistro.Lib

/-- The record of an exception. -/
def rawException (exception : SourceException) : RawException where
  package := .text exception.package
  kind := .text exception.kind
  reason := .text exception.reason
  source := match exception.source with
    | none => .missing
    | some source => .text source

/-- What the index checks of an exception. -/
structure Sound (exception : SourceException) : Prop where
  package : PyText.strip exception.package.toList ≠ []
  kind : exception.kind ∈ sourceExceptionKinds
  reason : PyText.strip exception.reason.toList ≠ []
  source : ∀ source ∈ exception.source, PyText.strip source.toList ≠ []

section Index

variable {exceptions : Dict String SourceException} {raws : List RawException}

theorem text?_eq_some {value : Field} {text : String} (h : value.text? = some text) :
    value = .text text ∧ PyText.strip text.toList ≠ [] := by
  cases value with
  | missing => cases h
  | other => cases h
  | text value =>
    unfold Field.text? at h
    dsimp only at h
    split_ifs at h with hblank
    obtain rfl := Option.some.inj h
    exact ⟨rfl, hblank⟩

theorem requireText_eq_ok {value : Field} {field subject text : String}
    (h : requireText value field subject = .ok text) :
    value = .text text ∧ PyText.strip text.toList ≠ [] := by
  unfold requireText at h
  cases hv : value.text? with
  | none =>
    rw [hv] at h
    cases h
  | some found =>
    rw [hv] at h
    obtain rfl := Except.ok.inj h
    exact text?_eq_some hv

theorem requireText_text {field subject text : String} (h : PyText.strip text.toList ≠ []) :
    requireText (.text text) field subject = .ok text := by
  unfold requireText Field.text?
  simp only [if_neg h]

theorem exceptionSource_eq_ok {value : Field} {package : String} {source : Option String}
    (h : exceptionSource value package = .ok source) :
    value = source.elim .missing .text ∧ ∀ text ∈ source, PyText.strip text.toList ≠ [] := by
  unfold exceptionSource at h
  split at h
  · obtain rfl := Except.ok.inj h
    exact ⟨rfl, fun _ ht => nomatch ht⟩
  · cases hv : value.text? with
    | none =>
      rw [hv] at h
      cases h
    | some found =>
      rw [hv] at h
      obtain rfl := Except.ok.inj h
      obtain ⟨hvalue, hblank⟩ := text?_eq_some hv
      exact ⟨hvalue, fun text ht => Option.some.inj ht ▸ hblank⟩

/-- What one entry adds to the index. -/
theorem indexException_eq_ok {exceptions' : Dict String SourceException} {raw : RawException}
    (h : indexException exceptions raw = .ok exceptions') :
    ∃ exception, raw = rawException exception ∧ Sound exception ∧
      exception.package ∉ exceptions.keys ∧
      exceptions' = exceptions.set exception.package exception := by
  unfold indexException at h
  obtain ⟨package, hpackage, h⟩ := Lists.exists_of_bind h
  split_ifs at h with hnew
  obtain ⟨kind, hkind, h⟩ := Lists.exists_of_bind h
  split_ifs at h with hkinds
  obtain ⟨reason, hreason, h⟩ := Lists.exists_of_bind h
  obtain ⟨source, hsource, h⟩ := Lists.exists_of_bind h
  obtain rfl := Except.ok.inj h
  have hfield := exceptionSource_eq_ok hsource
  obtain ⟨rawPackage, rawKind, rawReason, rawSource⟩ := raw
  dsimp only at hpackage hkind hreason hfield
  refine ⟨⟨package, kind, reason, source⟩, ?_, ⟨(requireText_eq_ok hpackage).2, hkinds,
    (requireText_eq_ok hreason).2, hfield.2⟩, hnew, rfl⟩
  rw [(requireText_eq_ok hpackage).1, (requireText_eq_ok hkind).1, (requireText_eq_ok hreason).1,
    hfield.1]
  unfold rawException
  cases source <;> rfl

/-- A sound exception is indexed from its record. -/
theorem indexException_raw {exception : SourceException} (h : Sound exception)
    (hnew : exception.package ∉ exceptions.keys) :
    indexException exceptions (rawException exception) =
      .ok (exceptions.set exception.package exception) := by
  have hkind : PyText.strip exception.kind.toList ≠ [] := by
    have hall : ∀ kind ∈ sourceExceptionKinds, PyText.strip kind.toList ≠ [] := by decide
    exact hall _ h.kind
  have hsource : exceptionSource (rawException exception).source exception.package =
      .ok exception.source := by
    unfold rawException exceptionSource
    cases hs : exception.source with
    | none => rfl
    | some source =>
      have hblank := h.source source hs
      unfold Field.text?
      simp only [if_neg hblank]
  unfold indexException
  show (requireText (.text exception.package) _ _ >>= _) = _
  rw [requireText_text h.package]
  show (if exception.package ∈ exceptions.keys then _ else _) = _
  rw [if_neg hnew]
  show (requireText (.text exception.kind) _ _ >>= _) = _
  rw [requireText_text hkind]
  show (if exception.kind ∉ sourceExceptionKinds then _ else _) = _
  rw [if_neg (not_not.mpr h.kind)]
  show (requireText (.text exception.reason) _ _ >>= _) = _
  rw [requireText_text h.reason]
  show (exceptionSource (rawException exception).source exception.package >>= _) = _
  rw [hsource]
  rfl

theorem sound_of_exceptionIndex (h : exceptionIndex raws = .ok exceptions) {package : String}
    {exception : SourceException} (hget : exceptions.get? package = some exception) :
    Sound exception := by
  have hall : ∀ package exception, exceptions.get? package = some exception → Sound exception := by
    refine Lists.foldlM_invariant (fun _ (indexed : Dict String SourceException) =>
      ∀ package exception, indexed.get? package = some exception → Sound exception) ?_ ?_ h
    · intro _ raw indexed indexed' hinv hstep package exception hg
      obtain ⟨added, _, hsound, _, rfl⟩ := indexException_eq_ok hstep
      rw [Dict.get?_set] at hg
      split_ifs at hg
      · obtain rfl := Option.some.inj hg
        exact hsound
      · exact hinv package exception hg
    · intro package exception hg
      rw [Dict.get?_empty] at hg
      cases hg
  exact hall package exception hget

/-- The table that sound exceptions are indexed to. -/
def tableOf (found : List SourceException) : Dict String SourceException :=
  found.foldl (fun indexed e => indexed.set e.package e) Dict.empty

/-- Sound exceptions of different packages are indexed one after another. -/
theorem exceptionIndex_raws {found : List SourceException} (h : ∀ e ∈ found, Sound e)
    (hnodup : (found.map SourceException.package).Nodup) :
    exceptionIndex (found.map rawException) = .ok (tableOf found) := by
  have hrun : ∀ indexed : Dict String SourceException,
      (∀ e ∈ found, e.package ∉ indexed.keys) →
      (found.map rawException).foldlM indexException indexed =
        .ok (found.foldl (fun indexed e => indexed.set e.package e) indexed) := by
    induction found with
    | nil => exact fun _ _ => rfl
    | cons e found ih =>
      intro indexed hnew
      rw [List.map_cons, List.nodup_cons] at hnodup
      rw [List.map_cons, List.foldlM_cons,
        indexException_raw (h e (List.mem_cons_self ..)) (hnew e (List.mem_cons_self ..))]
      refine ih (fun e' he' => h e' (List.mem_cons_of_mem _ he')) hnodup.2 _ fun e' he' => ?_
      rw [Dict.keys_set, if_neg (hnew e (List.mem_cons_self ..)), List.mem_append,
        List.mem_singleton]
      rintro (hmem | heq)
      · exact hnew e' (List.mem_cons_of_mem _ he') hmem
      · exact hnodup.1 (heq ▸ List.mem_map_of_mem he')
  exact hrun Dict.empty fun _ _ hk => nomatch hk

theorem get?_tableOf {found : List SourceException}
    (hnodup : (found.map SourceException.package).Nodup) {package : String}
    {exception : SourceException} :
    (tableOf found).get? package = some exception ↔
      exception ∈ found ∧ exception.package = package := by
  have hpairs : tableOf found =
      (found.map fun e => (e.package, e)).foldl (fun d pair => d.set pair.1 pair.2) Dict.empty := by
    unfold tableOf
    rw [List.foldl_map]
  have hkeys : (⟨found.map fun e => (e.package, e)⟩ : Dict String SourceException).keys.Nodup := by
    unfold Dict.keys
    rw [List.map_map]
    exact hnodup
  have hget := Dict.get?_update hkeys Dict.empty package
  rw [Dict.get?_empty, Option.or_none] at hget
  have htable : (tableOf found).get? package =
      (⟨found.map fun e => (e.package, e)⟩ : Dict String SourceException).get? package := by
    rw [hpairs]
    exact hget
  rw [htable, ← Dict.mem_items_iff hkeys, List.mem_map]
  constructor
  · rintro ⟨e, he, hpair⟩
    obtain ⟨hpackage, rfl⟩ := Prod.mk.inj hpair
    exact ⟨he, hpackage⟩
  · rintro ⟨he, rfl⟩
    exact ⟨exception, he, rfl⟩

/-- What is indexed is a list of sound exceptions, one for a package. -/
theorem exists_of_exceptionIndex (h : exceptionIndex raws = .ok exceptions) :
    ∃ found : List SourceException, raws = found.map rawException ∧ (∀ e ∈ found, Sound e) ∧
      (found.map SourceException.package).Nodup ∧ exceptions = tableOf found := by
  refine Lists.foldlM_invariant (fun raws (indexed : Dict String SourceException) =>
    ∃ found : List SourceException, raws = found.map rawException ∧ (∀ e ∈ found, Sound e) ∧
      (found.map SourceException.package).Nodup ∧ indexed = tableOf found) ?_
    ⟨[], rfl, fun _ he => (nomatch he), List.nodup_nil, rfl⟩ h
  intro done raw indexed indexed' hinv hstep
  obtain ⟨found, rfl, hsound, hnodup, rfl⟩ := hinv
  obtain ⟨added, rfl, hadded, hnew, rfl⟩ := indexException_eq_ok hstep
  refine ⟨found ++ [added], by rw [List.map_append]; rfl, fun e he => ?_, ?_, ?_⟩
  · exact (List.mem_append.mp he).elim (hsound e) fun hlast =>
      List.mem_singleton.mp hlast ▸ hadded
  · rw [List.map_append]
    refine List.nodup_append.mpr ⟨hnodup, List.nodup_singleton _, fun a ha b hb hab => hnew ?_⟩
    obtain ⟨e, he, rfl⟩ := List.mem_map.mp ha
    obtain rfl := List.mem_singleton.mp hb
    rw [Dict.mem_keys_iff, (get?_tableOf hnodup).mpr ⟨he, hab⟩]
    rfl
  · unfold tableOf
    rw [List.foldl_append]
    rfl

/-- **The recorded exceptions index to the table of the policy.** -/
theorem exceptionIndex_recorded {imageSets : Dict String (List Payload)} {producers : List String}
    {selected : List String} {policy : SourcePolicy}
    (h : buildSourcePolicy imageSets producers raws selected = .ok policy) :
    ∃ exceptions exceptions', exceptionIndex raws = .ok exceptions ∧
      exceptionIndex (policy.exceptions.map rawException) = .ok exceptions' ∧
      ∀ package, exceptions'.get? package = exceptions.get? package := by
  unfold buildSourcePolicy at h
  dsimp only at h
  split_ifs at h
  obtain ⟨exceptions, hindex, h⟩ := Lists.exists_of_bind h
  obtain ⟨⟨used, summary⟩, _, h⟩ := Lists.exists_of_bind h
  dsimp only at h
  split_ifs at h with hstale
  obtain rfl := Except.ok.inj h
  dsimp only
  have hused : ∀ package ∈ exceptions.keys, package ∈ used := by
    intro package hpackage
    by_contra hnot
    have hmem : package ∈ PyText.sortedSet (exceptions.keys.filter (· ∉ used)) := by
      rw [PyText.mem_sortedSet, List.mem_filter]
      exact ⟨hpackage, decide_eq_true hnot⟩
    rw [not_not.mp hstale] at hmem
    cases hmem
  have hmem : ∀ e, e ∈ (PyText.sortedSet used).filterMap exceptions.get? ↔
      exceptions.get? e.package = some e := by
    intro e
    rw [List.mem_filterMap]
    constructor
    · rintro ⟨package, _, hget⟩
      rw [package_of_exceptionIndex hindex hget]
      exact hget
    · intro hget
      refine ⟨e.package, PyText.mem_sortedSet.mpr (hused _ ?_), hget⟩
      rw [Dict.mem_keys_iff, hget]
      rfl
  have hnodup : (((PyText.sortedSet used).filterMap exceptions.get?).map
      SourceException.package).Nodup := by
    refine List.Nodup.sublist ?_ (PyText.nodup_sortedSet used)
    generalize PyText.sortedSet used = names
    induction names with
    | nil => exact List.Sublist.slnil
    | cons name names ih =>
      rw [List.filterMap_cons]
      cases hget : exceptions.get? name with
      | none => exact ih.cons name
      | some e =>
        have hname := package_of_exceptionIndex hindex hget
        rw [List.map_cons, hname]
        exact ih.cons_cons name
  refine ⟨exceptions, _, hindex, exceptionIndex_raws (fun e he =>
    sound_of_exceptionIndex hindex ((hmem e).mp he)) hnodup, fun package => ?_⟩
  refine Option.ext fun e => ?_
  rw [get?_tableOf hnodup, hmem]
  constructor
  · rintro ⟨hget, rfl⟩
    exact hget
  · intro hget
    have hpackage := package_of_exceptionIndex hindex hget
    exact ⟨by rw [hpackage, hget], hpackage⟩

end Index

end BuckosDistro.Policy
