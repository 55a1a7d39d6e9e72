/-
  The source policy of image payloads (`tools/source_policy.py`).

  Every payload of a selected image set is either built from source or approved as an
  exception. `build_source_policy` goes over the payloads once and refuses a set with a
  payload that is neither, or with an exception for one that is built; so what it returns
  says of each payload which of the two it is (`Covers`).
-/
import BuckosDistro.Lib.Dict
import BuckosDistro.Lib.Lists

namespace BuckosDistro.Policy

open BuckosDistro.Lib

/-! ## Exceptions -/

/-- A field of a JSON record, as far as the checks tell its values apart. -/
inductive Field
  | missing
  | text (value : String)
  | other
deriving DecidableEq, Repr

/-- `isinstance(value, str) and value.strip()` -/
def Field.text? : Field → Option String
  | .text value => if PyText.strip value.toList = [] then none else some value
  | _ => none

/-- `_require_text` -/
def requireText (value : Field) (field subject : String) : Except String String :=
  match value.text? with
  | none => .error (subject ++ " has no non-empty " ++ field)
  | some text => .ok text

/-- An exception as it is written. -/
structure RawException where
  package : Field
  kind : Field
  reason : Field
  source : Field
deriving DecidableEq, Repr

structure SourceException where
  package : String
  kind : String
  reason : String
  source : Option String
deriving DecidableEq, Repr

/-- `SOURCE_POLICY_SCHEMA` -/
def sourcePolicySchema : ℕ := 1

/-- `SOURCE_EXCEPTION_KINDS`, sorted. -/
def sourceExceptionKinds : List String :=
  ["fedora-45-tar-incompatibility", "firmware", "host-kernel-capability", "host-kernel-input",
    "signed-artifact"]

/-- The source an exception names, if it names one. -/
def exceptionSource (value : Field) (package : String) : Except String (Option String) :=
  match value with
  | .missing => .ok none
  | value =>
    match value.text? with
    | none => .error ("source exception " ++ package ++ " has an invalid source")
    | some text => .ok (some text)

/-- The body of the loop of `_exception_index`. -/
def indexException (indexed : Dict String SourceException) (raw : RawException) :
    Except String (Dict String SourceException) := do
  let package ← requireText raw.package "package" "source exception"
  if package ∈ indexed.keys then
    .error ("duplicate source exception for " ++ package)
  else
    let kind ← requireText raw.kind "kind" ("source exception " ++ package)
    if kind ∉ sourceExceptionKinds then
      .error ("source exception " ++ package ++ " has unsupported kind " ++ PyText.repr kind ++
        "; expected one of " ++ PyText.join ", " sourceExceptionKinds)
    else
      let reason ← requireText raw.reason "reason" ("source exception " ++ package)
      let source ← exceptionSource raw.source package
      return indexed.set package ⟨package, kind, reason, source⟩

/-- `_exception_index` -/
def exceptionIndex (exceptions : List RawException) : Except String (Dict String SourceException) :=
  exceptions.foldlM indexException Dict.empty

/-! ## Coverage -/

/-- An image payload: a binary package, and the source it is recorded under (`none` where it is
    no text). -/
structure Payload where
  package : String
  source : Option String
deriving DecidableEq, Repr

/-- `isinstance(source, str) and source in producers` -/
def Payload.isSource (producers : List String) (payload : Payload) : Bool :=
  payload.source.any (· ∈ producers)

/-- The variables of the loop over the payloads of an image. -/
structure Tally where
  seen : List String
  source : ℕ
  pinned : ℕ
  missing : List String
  used : List String

/-- The body of that loop. -/
def tally (producers : List String) (exceptions : Dict String SourceException) (image : String)
    (t : Tally) (payload : Payload) : Except String Tally := do
  let package ← requireText (.text payload.package) "package" (image ++ " image payload")
  if package ∈ t.seen then
    .error (image ++ " image set contains duplicate package " ++ package)
  else
    let t := { t with seen := package :: t.seen }
    if payload.isSource producers then
      if package ∈ exceptions.keys then
        .error ("source exception for " ++ package ++ " is stale: producer " ++
          payload.source.getD "None" ++ " is selected")
      else return { t with source := t.source + 1 }
    else
      match exceptions.get? package with
      | none => return { t with missing := t.missing ++ [package] }
      | some exception =>
        if exception.source.isSome ∧ exception.source ≠ payload.source then
          .error ("source exception for " ++ package ++ " names " ++
            exception.source.getD "None" ++ ", payload names " ++ payload.source.getD "None")
        else return { t with pinned := t.pinned + 1, used := package :: t.used }

/-- An entry of `summary`. -/
structure Counts where
  pinned : ℕ
  source : ℕ
  total : ℕ
deriving DecidableEq, Repr

/-- The body of the loop over the selected images. -/
def coverImage (imageSets : Dict String (List Payload)) (producers : List String)
    (exceptions : Dict String SourceException) (covered : List String × Dict String Counts)
    (image : String) : Except String (List String × Dict String Counts) :=
  match imageSets.get? image with
  | none => .error ("source policy selects missing image set " ++ PyText.repr image)
  | some payloads => do
    let t ← payloads.foldlM (tally producers exceptions image) ⟨[], 0, 0, [], covered.1⟩
    if t.missing ≠ [] then
      .error (image ++ " image payloads have no source producer or approved exception: " ++
        PyText.join ", " (t.missing.insertionSort (· ≤ ·)))
    else return (t.used, covered.2.set image ⟨t.pinned, t.source, t.source + t.pinned⟩)

/-- What `build_source_policy` returns. -/
structure SourcePolicy where
  exceptions : List SourceException
  imageSets : List String
  schema : ℕ
  summary : Dict String Counts

/-- `build_source_policy` -/
def buildSourcePolicy (imageSets : Dict String (List Payload)) (producers : List String)
    (exceptions : List RawException) (selectedImageSets : List String) :
    Except String SourcePolicy := do
  let selected := PyText.sortedSet selectedImageSets
  if selected = [] then .error "source policy selects no image sets"
  else
    let byPackage ← exceptionIndex exceptions
    let (used, summary) ← selected.foldlM (coverImage imageSets producers byPackage)
      ([], Dict.empty)
    let stale := PyText.sortedSet (byPackage.keys.filter (· ∉ used))
    if stale ≠ [] then
      .error ("source exceptions do not cover a selected pinned payload: " ++
        PyText.join ", " stale)
    else return ⟨(PyText.sortedSet used).filterMap byPackage.get?, selected, sourcePolicySchema,
      summary⟩

/-! ## What a policy says -/

section Covers

variable {producers : List String} {exceptions : Dict String SourceException} {image : String}

/-- Every exception is indexed under the package it names. -/
theorem package_of_exceptionIndex {raws : List RawException}
    (h : exceptionIndex raws = .ok exceptions) {package : String} {exc : SourceException}
    (hget : exceptions.get? package = some exc) : exc.package = package := by
  have hall : ∀ package exc, exceptions.get? package = some exc → exc.package = package := by
    refine Lists.foldlM_invariant (fun _ indexed => ∀ package exc,
      indexed.get? package = some exc → exc.package = package) ?_ ?_ h
    swap
    · intro _ _ hg
      rw [Dict.get?_empty] at hg
      cases hg
    intro _ raw indexed indexed' hinv hstep package exc hg
    unfold indexException at hstep
    obtain ⟨name, _, hstep⟩ := Lists.exists_of_bind hstep
    split_ifs at hstep
    obtain ⟨kind, _, hstep⟩ := Lists.exists_of_bind hstep
    split_ifs at hstep
    obtain ⟨reason, _, hstep⟩ := Lists.exists_of_bind hstep
    obtain ⟨source, _, hstep⟩ := Lists.exists_of_bind hstep
    obtain rfl := Except.ok.inj hstep
    rw [Dict.get?_set] at hg
    split_ifs at hg with hp
    · obtain rfl := Option.some.inj hg
      exact hp.symm
    · exact hinv package exc hg
  exact hall package exc hget

/-- What is known of a tally after some payloads. -/
structure Tallied (producers : List String) (exceptions : Dict String SourceException)
    (before : List String) (payloads : List Payload) (t : Tally) : Prop where
  source : t.source = (payloads.filter (Payload.isSource producers)).length
  rest : t.pinned + t.missing.length =
    (payloads.filter fun payload => !payload.isSource producers).length
  kept : before ⊆ t.used
  new : ∀ package ∈ t.used, package ∈ before ∨
    ∃ payload ∈ payloads, payload.package = package ∧ payload.isSource producers = false
  plain : ∀ payload ∈ payloads, payload.isSource producers = true →
    exceptions.get? payload.package = none
  excepted : ∀ payload ∈ payloads, payload.isSource producers = false →
    payload.package ∈ t.missing ∨
      payload.package ∈ t.used ∧ (exceptions.get? payload.package).isSome

theorem requireText_eq {value field subject text : String}
    (h : requireText (.text value) field subject = .ok text) : text = value := by
  unfold requireText Field.text? at h
  by_cases hblank : PyText.strip value.toList = []
  · simp only [if_pos hblank] at h
    cases h
  · simp only [if_neg hblank] at h
    exact (Except.ok.inj h).symm

/-- What a payload does to the tally: it is built, or nothing approves it yet, or an exception
    that fits its source does. -/
theorem tally_cases {payload : Payload} {t t' : Tally}
    (h : tally producers exceptions image t payload = .ok t') :
    payload.package ∉ t.seen ∧
      ((payload.isSource producers = true ∧ exceptions.get? payload.package = none ∧
          t' = { t with seen := payload.package :: t.seen, source := t.source + 1 }) ∨
        (payload.isSource producers = false ∧ exceptions.get? payload.package = none ∧
          t' = { t with
            seen := payload.package :: t.seen, missing := t.missing ++ [payload.package] }) ∨
        (payload.isSource producers = false ∧ ∃ exc, exceptions.get? payload.package = some exc ∧
          (exc.source = none ∨ exc.source = payload.source) ∧
          t' = { t with
            seen := payload.package :: t.seen
            pinned := t.pinned + 1
            used := payload.package :: t.used })) := by
  unfold tally at h
  obtain ⟨package, hpackage, h⟩ := Lists.exists_of_bind h
  obtain rfl := requireText_eq hpackage
  split_ifs at h with hseen hsource hstale
  · obtain rfl := Except.ok.inj h
    rw [Dict.mem_keys_iff, Bool.not_eq_true, Option.isSome_eq_false_iff,
      Option.isNone_iff_eq_none] at hstale
    exact ⟨hseen, Or.inl ⟨hsource, hstale, rfl⟩⟩
  · rw [Bool.not_eq_true] at hsource
    refine ⟨hseen, Or.inr ?_⟩
    cases hexc : exceptions.get? payload.package with
    | none =>
      rw [hexc] at h
      exact Or.inl ⟨hsource, rfl, (Except.ok.inj h).symm⟩
    | some exc =>
      rw [hexc] at h
      dsimp only at h
      split_ifs at h with hnames
      refine Or.inr ⟨hsource, exc, rfl, ?_, (Except.ok.inj h).symm⟩
      by_cases hnone : exc.source = none
      · exact Or.inl hnone
      · exact Or.inr (by_contra fun hne => hnames ⟨Option.isSome_iff_ne_none.mpr hnone, hne⟩)

theorem tallied_step {before : List String} {payloads : List Payload} {payload : Payload}
    {t t' : Tally} (h : Tallied producers exceptions before payloads t)
    (hstep : tally producers exceptions image t payload = .ok t') :
    Tallied producers exceptions before (payloads ++ [payload]) t' := by
  have hall : ∀ {P : Payload → Prop}, (∀ p ∈ payloads, P p) → P payload →
      ∀ p ∈ payloads ++ [payload], P p := by
    intro P hold hlast p hp
    exact (List.mem_append.mp hp).elim (hold p) fun hp => List.mem_singleton.mp hp ▸ hlast
  have hnew : ∀ package ∈ t.used, package ∈ before ∨ ∃ p ∈ payloads ++ [payload],
      p.package = package ∧ p.isSource producers = false := by
    intro package hp
    exact (h.new package hp).imp_right fun ⟨p, hp, hrest⟩ => ⟨p, List.mem_append_left _ hp, hrest⟩
  have hrest := h.rest
  obtain ⟨-, ⟨hsource, hnone, rfl⟩ | ⟨hsource, hnone, rfl⟩ | ⟨hsource, exc, hexc, -, rfl⟩⟩ :=
    tally_cases hstep
  · refine ⟨?_, ?_, h.kept, hnew, hall h.plain fun _ => hnone, hall h.excepted fun hs => ?_⟩
    · simp [h.source, hsource]
    · simpa [hsource] using h.rest
    · rw [hsource] at hs
      cases hs
  · refine ⟨?_, ?_, h.kept, hnew, hall h.plain fun hs => ?_,
      hall (fun p hp hs => (h.excepted p hp hs).imp_left (List.mem_append_left _))
        fun _ => Or.inl (List.mem_append_right _ (List.mem_singleton_self _))⟩
    · simp [h.source, hsource]
    · simp only [List.filter_append, List.length_append, List.filter_singleton, hsource]
      simp
      omega
    · rw [hsource] at hs
      cases hs
  · refine ⟨?_, ?_, fun p hp => List.mem_cons_of_mem _ (h.kept hp), fun p hp => ?_,
      hall h.plain fun hs => ?_,
      hall (fun p hp hs => (h.excepted p hp hs).imp_right fun hu =>
        ⟨List.mem_cons_of_mem _ hu.1, hu.2⟩)
        fun _ => Or.inr ⟨List.mem_cons_self, by rw [hexc]; rfl⟩⟩
    · simp [h.source, hsource]
    · simp only [List.filter_append, List.length_append, List.filter_singleton, hsource]
      simp
      omega
    · rcases List.mem_cons.mp hp with rfl | hp
      · exact Or.inr ⟨payload, List.mem_append_right _ (List.mem_singleton_self _), rfl, hsource⟩
      · exact hnew p hp
    · rw [hsource] at hs
      cases hs

theorem tallied_run {before : List String} {payloads : List Payload} {t : Tally}
    (h : payloads.foldlM (tally producers exceptions image) ⟨[], 0, 0, [], before⟩ = .ok t) :
    Tallied producers exceptions before payloads t := by
  refine Lists.foldlM_invariant (Tallied producers exceptions before)
    (fun _ _ _ _ => tallied_step) ?_ h
  refine ⟨rfl, rfl, List.Subset.refl _, fun p hp => Or.inl hp, ?_, ?_⟩ <;>
    exact fun p hp => nomatch hp

/-- What a policy says of the payloads of an image: how many are built and how many are not,
    and an exception for each that is not, and for no other. -/
structure Covers (policy : SourcePolicy) (producers : List String) (image : String)
    (payloads : List Payload) : Prop where
  counts : policy.summary.get? image = some
    ⟨(payloads.filter fun payload => !payload.isSource producers).length,
      (payloads.filter (Payload.isSource producers)).length, payloads.length⟩
  excepted : ∀ payload ∈ payloads, payload.isSource producers = false ↔
    ∃ exc ∈ policy.exceptions, exc.package = payload.package

/-- What is known of an image the loop has gone over. -/
structure Covered (imageSets : Dict String (List Payload)) (producers : List String)
    (exceptions : Dict String SourceException) (image : String) (used : List String)
    (summary : Dict String Counts) (payloads : List Payload) : Prop where
  set : imageSets.get? image = some payloads
  counts : summary.get? image = some
    ⟨(payloads.filter fun payload => !payload.isSource producers).length,
      (payloads.filter (Payload.isSource producers)).length, payloads.length⟩
  plain : ∀ payload ∈ payloads, payload.isSource producers = true →
    exceptions.get? payload.package = none
  excepted : ∀ payload ∈ payloads, payload.isSource producers = false →
    payload.package ∈ used ∧ (exceptions.get? payload.package).isSome

theorem covered_step {imageSets : Dict String (List Payload)} {done : List String}
    {s s' : List String × Dict String Counts}
    (h : ∀ image ∈ done, ∃ payloads,
      Covered imageSets producers exceptions image s.1 s.2 payloads)
    (hstep : coverImage imageSets producers exceptions s image = .ok s') :
    ∀ image' ∈ done ++ [image], ∃ payloads,
      Covered imageSets producers exceptions image' s'.1 s'.2 payloads := by
  unfold coverImage at hstep
  cases hset : imageSets.get? image with
  | none =>
    rw [hset] at hstep
    cases hstep
  | some payloads =>
    rw [hset] at hstep
    obtain ⟨t, ht, hstep⟩ := Lists.exists_of_bind hstep
    split_ifs at hstep with hmissing
    obtain rfl := Except.ok.inj hstep
    rw [not_not] at hmissing
    have htally := tallied_run ht
    have hlast : Covered imageSets producers exceptions image t.used
        (s.2.set image ⟨t.pinned, t.source, t.source + t.pinned⟩) payloads := by
      have hrest := htally.rest
      rw [hmissing, List.length_nil, Nat.add_zero] at hrest
      refine ⟨hset, ?_, htally.plain, fun payload hp hs => ?_⟩
      · have hlength := List.length_eq_length_filter_add
          (l := payloads) (Payload.isSource producers)
        rw [Dict.get?_set, if_pos rfl, hrest, htally.source, hlength]
      · rcases htally.excepted payload hp hs with hm | hu
        · rw [hmissing] at hm
          cases hm
        · exact hu
    intro image' himage
    rcases List.mem_append.mp himage with himage | himage
    · by_cases he : image' = image
      · exact ⟨payloads, he ▸ hlast⟩
      · obtain ⟨payloads', hold⟩ := h image' himage
        refine ⟨payloads', hold.set, ?_, hold.plain, fun payload hp hs => ?_⟩
        · rw [Dict.get?_set, if_neg he]
          exact hold.counts
        · obtain ⟨hu, hsome⟩ := hold.excepted payload hp hs
          exact ⟨htally.kept hu, hsome⟩
    · rw [List.mem_singleton.mp himage]
      exact ⟨payloads, hlast⟩

/-- A policy covers every image set it was asked for. -/
theorem covers_of_policy {imageSets : Dict String (List Payload)} {raws : List RawException}
    {selected : List String} {policy : SourcePolicy}
    (h : buildSourcePolicy imageSets producers raws selected = .ok policy)
    (himage : image ∈ selected) :
    ∃ payloads, imageSets.get? image = some payloads ∧
      Covers policy producers image payloads := by
  unfold buildSourcePolicy at h
  dsimp only at h
  split_ifs at h with hempty
  obtain ⟨exceptions, hindex, h⟩ := Lists.exists_of_bind h
  obtain ⟨⟨used, summary⟩, hrun, h⟩ := Lists.exists_of_bind h
  dsimp only at h
  split_ifs at h with hstale
  obtain rfl := Except.ok.inj h
  have hall : ∀ image ∈ PyText.sortedSet selected, ∃ payloads,
      Covered imageSets producers exceptions image used summary payloads :=
    Lists.foldlM_invariant (fun done s => ∀ image ∈ done, ∃ payloads,
      Covered imageSets producers exceptions image s.1 s.2 payloads)
      (fun _ _ _ _ => covered_step) (fun _ hi => absurd hi List.not_mem_nil) hrun
  obtain ⟨payloads, hcovered⟩ := hall image (PyText.mem_sortedSet.mpr himage)
  refine ⟨payloads, hcovered.set, hcovered.counts, fun payload hp => ⟨fun hs => ?_, ?_⟩⟩
  · obtain ⟨hu, hsome⟩ := hcovered.excepted payload hp hs
    obtain ⟨exc, hexc⟩ := Option.isSome_iff_exists.mp hsome
    exact ⟨exc, List.mem_filterMap.mpr ⟨_, PyText.mem_sortedSet.mpr hu, hexc⟩,
      package_of_exceptionIndex hindex hexc⟩
  · rintro ⟨exc, hexc, hname⟩
    obtain ⟨package, _, hget⟩ := List.mem_filterMap.mp hexc
    have hpackage := package_of_exceptionIndex hindex hget
    rw [← Bool.not_eq_true]
    intro hs
    have hnone := hcovered.plain payload hp hs
    rw [← hname, hpackage, hget] at hnone
    cases hnone

end Covers

end BuckosDistro.Policy
