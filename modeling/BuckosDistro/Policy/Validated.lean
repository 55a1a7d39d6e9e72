/-
  A recorded policy against the lock it was made from (`validate_source_policy`).

  The validator makes the policy again, from the exceptions and the image sets that the
  record states, and compares. What `build_source_policy` returns is a fixed point of it:
  the exceptions it records index to the table they came from. Beside that, what it counts
  and what it refuses.
-/
import BuckosDistro.Lib.Json
import BuckosDistro.Policy.Recorded

namespace BuckosDistro.Policy

open BuckosDistro.Lib

/-! ## The record -/

/-- A value as `raw.get` returns it. -/
def fieldOf : Json → Field
  | .null => .missing
  | .str text => .text text
  | _ => .other

/-- An exception of a record; `none` where it is no mapping. -/
def readException : Json → Option RawException
  | .obj fields =>
    some ⟨fieldOf (getKey fields "package"), fieldOf (getKey fields "kind"),
      fieldOf (getKey fields "reason"), fieldOf (getKey fields "source")⟩
  | _ => none

/-- The name of an image set. -/
def readName : Json → Option String
  | .str name => some name
  | _ => none

/-- `recorded.get(key, ())`, each item read; `none` where Python raises `TypeError` or
    `AttributeError`. -/
def readItems {α : Type} (read : Json → Option α) (recorded : Fields) (key : String) :
    Option (List α) :=
  if hasKey recorded key then
    match getKey recorded key with
    | .arr items => items.mapM read
    | _ => none
  else some []

/-- An entry of `exceptions`, as `_exception_index` makes it. -/
def exceptionJson (exception : SourceException) : Json :=
  .obj ([("kind", .str exception.kind), ("package", .str exception.package),
      ("reason", .str exception.reason)] ++
    (exception.source.map fun source => ("source", Json.str source)).toList)

/-- An entry of `summary`. -/
def countsJson (counts : Counts) : Json :=
  .obj [("pinned", .int counts.pinned), ("source", .int counts.source),
    ("total", .int counts.total)]

/-- The mapping `build_source_policy` returns. -/
def policyFields (policy : SourcePolicy) : Fields :=
  [("exceptions", .arr (policy.exceptions.map exceptionJson)),
    ("image_sets", .arr (policy.imageSets.map .str)),
    ("schema", .int policy.schema),
    ("summary", .obj (policy.summary.items.map fun item => (item.1, countsJson item.2)))]

/-- Why a record is refused. -/
inductive Refusal
  | schema (found : Json)
  | unreadable
  | policy (message : String)
  | mismatch

/-- `validate_source_policy` -/
def validateSourcePolicy (recorded : Fields) (imageSets : Dict String (List Payload))
    (producers : List String) : Except Refusal Unit :=
  if (getKey recorded "schema").pyEq (.int sourcePolicySchema) = false then
    .error (.schema (getKey recorded "schema"))
  else
    match readItems readException recorded "exceptions",
      readItems readName recorded "image_sets" with
    | some exceptions, some selected =>
      match buildSourcePolicy imageSets producers exceptions selected with
      | .error message => .error (.policy message)
      | .ok expected =>
        if (Json.obj recorded).pyEq (.obj (policyFields expected)) = false then .error .mismatch
        else .ok ()
    | _, _ => .error .unreadable

/-! ## The same table -/

section Table

variable {producers : List String} {exceptions exceptions' : Dict String SourceException}

theorem mem_keys_congr (h : ∀ package, exceptions.get? package = exceptions'.get? package)
    (package : String) : package ∈ exceptions.keys ↔ package ∈ exceptions'.keys := by
  rw [Dict.mem_keys_iff, Dict.mem_keys_iff, h]

/-- The table is read by `get` and `in` alone. -/
theorem tally_congr (h : ∀ package, exceptions.get? package = exceptions'.get? package)
    (image : String) : tally producers exceptions image = tally producers exceptions' image := by
  funext t payload
  unfold tally
  simp only [mem_keys_congr h, h]

theorem coverImage_congr (h : ∀ package, exceptions.get? package = exceptions'.get? package)
    (imageSets : Dict String (List Payload)) :
    coverImage imageSets producers exceptions = coverImage imageSets producers exceptions' := by
  funext covered image
  unfold coverImage
  rw [tally_congr h]

theorem buildSourcePolicy_congr {raws raws' : List RawException}
    {imageSets : Dict String (List Payload)} {selected selected' : List String}
    (hselected : PyText.sortedSet selected = PyText.sortedSet selected')
    (hindex : exceptionIndex raws = .ok exceptions)
    (hindex' : exceptionIndex raws' = .ok exceptions')
    (h : ∀ package, exceptions.get? package = exceptions'.get? package) :
    buildSourcePolicy imageSets producers raws selected =
      buildSourcePolicy imageSets producers raws' selected' := by
  have hget : exceptions.get? = exceptions'.get? := funext h
  have hstale : ∀ used : List String,
      PyText.sortedSet (exceptions.keys.filter (· ∉ used)) =
        PyText.sortedSet (exceptions'.keys.filter (· ∉ used)) := by
    intro used
    apply PyText.sortedSet_congr
    intro package
    rw [List.mem_filter, List.mem_filter, mem_keys_congr h]
  have hbind : ∀ {α β : Type} (a : α) (f : α → Except String β), (Except.ok a >>= f) = f a :=
    fun _ _ => rfl
  unfold buildSourcePolicy
  simp only [hselected, hindex, hindex', hbind, coverImage_congr h, hstale, hget]

end Table

/-! ## What is recorded reads back -/

theorem readException_exceptionJson (exception : SourceException) :
    readException (exceptionJson exception) = some (rawException exception) := by
  obtain ⟨package, kind, reason, source⟩ := exception
  cases source <;> rfl

theorem mapM_map_some {α β : Type} {read : Json → Option β} {write : α → Json} {value : α → β}
    (h : ∀ x, read (write x) = some (value x)) (xs : List α) :
    (xs.map write).mapM read = some (xs.map value) := by
  induction xs with
  | nil => rfl
  | cons x xs ih =>
    rw [List.map_cons, List.mapM_cons, h, ih]
    rfl

theorem readItems_exceptions (policy : SourcePolicy) :
    readItems readException (policyFields policy) "exceptions" =
      some (policy.exceptions.map rawException) :=
  mapM_map_some readException_exceptionJson policy.exceptions

theorem readItems_imageSets (policy : SourcePolicy) :
    readItems readName (policyFields policy) "image_sets" = some policy.imageSets := by
  have hread : ∀ name, readName (.str name) = some (id name) := fun _ => rfl
  have hitems := mapM_map_some hread policy.imageSets
  rw [List.map_id] at hitems
  exact hitems

theorem pyEq_exceptionJson (exception : SourceException) :
    (exceptionJson exception).pyEq (exceptionJson exception) = true := by
  have hstr := Json.pyEq_str_self
  unfold exceptionJson
  cases exception.source with
  | none =>
    have hkeys : ["kind", "package", "reason"].Nodup := by decide
    exact Json.pyEq_obj_self hkeys (by simp [hstr])
  | some source =>
    have hkeys : ["kind", "package", "reason", "source"].Nodup := by decide
    exact Json.pyEq_obj_self hkeys (by simp [hstr])

theorem pyEq_countsJson (counts : Counts) :
    (countsJson counts).pyEq (countsJson counts) = true := by
  have hint := Json.pyEq_int_self
  have hkeys : ["pinned", "source", "total"].Nodup := by decide
  exact Json.pyEq_obj_self hkeys (by simp [hint])

theorem pyEq_policyFields {policy : SourcePolicy} (h : policy.summary.keys.Nodup) :
    (Json.obj (policyFields policy)).pyEq (.obj (policyFields policy)) = true := by
  have harr : ∀ xs : List Json, (∀ x ∈ xs, x.pyEq x = true) →
      (Json.arr xs).pyEq (.arr xs) = true := by
    intro xs hxs
    unfold Json.pyEq
    exact Json.pyEqList_self hxs
  have hkeys : ((policy.summary.items.map fun item => (item.1, countsJson item.2)).map
      Prod.fst).Nodup := by
    rw [List.map_map]
    exact h
  have hsummary := Json.pyEq_obj_self hkeys fun field hf => by
    obtain ⟨item, -, rfl⟩ := List.mem_map.mp hf
    exact pyEq_countsJson item.2
  have hnames : ["exceptions", "image_sets", "schema", "summary"].Nodup := by decide
  refine Json.pyEq_obj_self hnames fun field hf => ?_
  simp only [policyFields, List.mem_cons, List.not_mem_nil, or_false] at hf
  obtain rfl | rfl | rfl | rfl := hf
  · exact harr _ fun x hx => by
      obtain ⟨exception, -, rfl⟩ := List.mem_map.mp hx
      exact pyEq_exceptionJson exception
  · exact harr _ fun x hx => by
      obtain ⟨name, -, rfl⟩ := List.mem_map.mp hx
      exact Json.pyEq_str_self name
  · exact Json.pyEq_int_self _
  · exact hsummary

/-! ## Every selected payload -/

/-- A payload of a selected image set. -/
def SelectedPayload (imageSets : Dict String (List Payload)) (selected : List String)
    (payload : Payload) : Prop :=
  ∃ image ∈ selected, ∃ payloads, imageSets.get? image = some payloads ∧ payload ∈ payloads

/-- The payload uses the exception: it is not built, and the exception is for it and names no
    other source. -/
structure SourceException.Approves (exc : SourceException) (producers : List String)
    (payload : Payload) : Prop where
  pinned : payload.isSource producers = false
  package : exc.package = payload.package
  source : exc.source = none ∨ exc.source = payload.source

/-- What is known of the payloads of an image, as far as the loop has gone over them. -/
structure Audited (producers : List String) (exceptions : Dict String SourceException)
    (before : List String) (payloads : List Payload) (t : Tally) : Prop where
  seen : ∀ payload ∈ payloads, payload.package ∈ t.seen
  once : (payloads.map Payload.package).Nodup
  approved : ∀ payload ∈ payloads, payload.isSource producers = false →
    payload.package ∈ t.missing ∨ ∃ exc, exceptions.get? payload.package = some exc ∧
      (exc.source = none ∨ exc.source = payload.source)
  used : ∀ package ∈ t.used, package ∈ before ∨ ∃ payload ∈ payloads,
    payload.package = package ∧ payload.isSource producers = false ∧
      ∃ exc, exceptions.get? package = some exc ∧
        (exc.source = none ∨ exc.source = payload.source)

section Run

variable {producers : List String} {exceptions : Dict String SourceException} {image : String}

theorem audited_step {before : List String} {payloads : List Payload} {payload : Payload}
    {t t' : Tally} (h : Audited producers exceptions before payloads t)
    (hstep : tally producers exceptions image t payload = .ok t') :
    Audited producers exceptions before (payloads ++ [payload]) t' := by
  obtain ⟨hfresh, hcases⟩ := tally_cases hstep
  have hseen : t'.seen = payload.package :: t.seen := by
    obtain ⟨-, -, rfl⟩ | ⟨-, -, rfl⟩ | ⟨-, -, -, -, rfl⟩ := hcases <;> rfl
  have honce : ((payloads ++ [payload]).map Payload.package).Nodup := by
    rw [List.map_append]
    refine List.nodup_append.mpr ⟨h.once, List.nodup_singleton _, fun a ha b hb hab => hfresh ?_⟩
    obtain ⟨p, hp, rfl⟩ := List.mem_map.mp ha
    have hpackage : p.package = payload.package := hab.trans (List.mem_singleton.mp hb)
    exact hpackage ▸ h.seen p hp
  have hall : ∀ {P : Payload → Prop}, (∀ p ∈ payloads, P p) → P payload →
      ∀ p ∈ payloads ++ [payload], P p := by
    intro P hp hlast p hmem
    exact (List.mem_append.mp hmem).elim (hp p) fun he => List.mem_singleton.mp he ▸ hlast
  have hseenAll : ∀ p ∈ payloads ++ [payload], p.package ∈ t'.seen := by
    rw [hseen]
    exact hall (fun p hp => List.mem_cons_of_mem _ (h.seen p hp)) List.mem_cons_self
  have hused : ∀ package ∈ t.used, package ∈ before ∨ ∃ p ∈ payloads ++ [payload],
      p.package = package ∧ p.isSource producers = false ∧
        ∃ exc, exceptions.get? package = some exc ∧
          (exc.source = none ∨ exc.source = p.source) := by
    intro package hp
    exact (h.used package hp).imp_right fun ⟨p, hmem, hrest⟩ =>
      ⟨p, List.mem_append_left _ hmem, hrest⟩
  obtain ⟨hsource, -, rfl⟩ | ⟨hsource, -, rfl⟩ | ⟨hsource, exc, hexc, hfits, rfl⟩ := hcases
  · refine ⟨hseenAll, honce, hall h.approved fun hs => ?_, hused⟩
    rw [hsource] at hs
    cases hs
  · refine ⟨hseenAll, honce, hall (fun p hp hs => ?_) fun _ => ?_, hused⟩
    · exact (h.approved p hp hs).imp_left (List.mem_append_left _)
    · exact Or.inl (List.mem_append_right _ (List.mem_singleton_self _))
  · refine ⟨hseenAll, honce, hall h.approved fun _ => Or.inr ⟨exc, hexc, hfits⟩, fun p hp => ?_⟩
    rcases List.mem_cons.mp hp with rfl | hp
    · exact Or.inr ⟨payload, List.mem_append_right _ (List.mem_singleton_self _), rfl, hsource, exc,
        hexc, hfits⟩
    · exact hused p hp

theorem audited_run {before : List String} {payloads : List Payload} {t : Tally}
    (h : payloads.foldlM (tally producers exceptions image) ⟨[], 0, 0, [], before⟩ = .ok t) :
    Audited producers exceptions before payloads t := by
  refine Lists.foldlM_invariant (Audited producers exceptions before)
    (fun _ _ _ _ => audited_step) ?_ h
  exact ⟨fun _ hp => (nomatch hp), List.nodup_nil, fun _ hp => (nomatch hp), fun _ hp => Or.inl hp⟩

/-- What is known of the images the loop has gone over. -/
structure AuditedImages (imageSets : Dict String (List Payload)) (producers : List String)
    (exceptions : Dict String SourceException) (done : List String) (used : List String)
    (summary : Dict String Counts) : Prop where
  once : ∀ image ∈ done, ∀ payloads, imageSets.get? image = some payloads →
    (payloads.map Payload.package).Nodup
  approved : ∀ payload, SelectedPayload imageSets done payload →
    payload.isSource producers = false → ∃ exc, exceptions.get? payload.package = some exc ∧
      (exc.source = none ∨ exc.source = payload.source)
  plain : ∀ payload, SelectedPayload imageSets done payload →
    payload.isSource producers = true → exceptions.get? payload.package = none
  used : ∀ package ∈ used, ∃ payload, SelectedPayload imageSets done payload ∧
    payload.package = package ∧ payload.isSource producers = false ∧
      ∃ exc, exceptions.get? package = some exc ∧
        (exc.source = none ∨ exc.source = payload.source)
  keys : summary.keys.Nodup

theorem SelectedPayload.mono {imageSets : Dict String (List Payload)} {done done' : List String}
    {payload : Payload} (hsub : done ⊆ done') (h : SelectedPayload imageSets done payload) :
    SelectedPayload imageSets done' payload := by
  obtain ⟨image, himage, rest⟩ := h
  exact ⟨image, hsub himage, rest⟩

theorem auditedImages_step {imageSets : Dict String (List Payload)} {done : List String}
    {s s' : List String × Dict String Counts}
    (h : AuditedImages imageSets producers exceptions done s.1 s.2)
    (hstep : coverImage imageSets producers exceptions s image = .ok s') :
    AuditedImages imageSets producers exceptions (done ++ [image]) s'.1 s'.2 := by
  unfold coverImage at hstep
  cases hset : imageSets.get? image with
  | none =>
    rw [hset] at hstep
    cases hstep
  | some payloads =>
    rw [hset] at hstep
    obtain ⟨t, ht, hstep⟩ := Lists.exists_of_bind hstep
    split_ifs at hstep with hmissing
    obtain rfl := Except.ok.inj hstep
    have haudit := audited_run ht
    have hsub : done ⊆ done ++ [image] := List.subset_append_left done [image]
    have hsplit : ∀ {payload}, SelectedPayload imageSets (done ++ [image]) payload →
        SelectedPayload imageSets done payload ∨ payload ∈ payloads := by
      intro payload hpayload
      obtain ⟨image', himage, payloads', hset', hmem⟩ := hpayload
      rcases List.mem_append.mp himage with hold | hlast
      · exact Or.inl ⟨image', hold, payloads', hset', hmem⟩
      · rw [List.mem_singleton.mp hlast, hset] at hset'
        exact Or.inr (Option.some.inj hset' ▸ hmem)
    refine ⟨fun image' himage payloads' hset' => ?_, fun payload hpayload hs => ?_,
      fun payload hpayload hs => ?_, fun package hp => ?_, Dict.nodup_keys_set h.keys image _⟩
    · rcases List.mem_append.mp himage with hold | hlast
      · exact h.once image' hold payloads' hset'
      · rw [List.mem_singleton.mp hlast, hset] at hset'
        exact Option.some.inj hset' ▸ haudit.once
    · refine (hsplit hpayload).elim (fun hold => h.approved payload hold hs) fun hmem => ?_
      refine (haudit.approved payload hmem hs).resolve_left fun hm => ?_
      rw [not_not.mp hmissing] at hm
      cases hm
    · exact (hsplit hpayload).elim (fun hold => h.plain payload hold hs) fun hmem =>
        (tallied_run ht).plain payload hmem hs
    · rcases haudit.used package hp with hold | ⟨payload, hmem, hrest⟩
      · obtain ⟨payload, hpayload, hrest⟩ := h.used package hold
        exact ⟨payload, hpayload.mono hsub, hrest⟩
      · exact ⟨payload, ⟨image, List.mem_append_right _ (List.mem_singleton_self _), payloads, hset,
          hmem⟩, hrest⟩

/-- What an accepted policy was made from. -/
structure Accepted (imageSets : Dict String (List Payload)) (producers : List String)
    (raws : List RawException) (selected : List String) (policy : SourcePolicy)
    (found : List SourceException) : Prop where
  raws : raws = found.map rawException
  once : (found.map SourceException.package).Nodup
  audited : ∃ used, AuditedImages imageSets producers (tableOf found)
    (PyText.sortedSet selected) used policy.summary ∧ ∀ exc ∈ found, exc.package ∈ used
  recorded : ∀ exc, exc ∈ policy.exceptions ↔ exc ∈ found
  imageSets : policy.imageSets = PyText.sortedSet selected
  schema : policy.schema = sourcePolicySchema

theorem accepted_of_policy {imageSets : Dict String (List Payload)} {raws : List RawException}
    {selected : List String} {policy : SourcePolicy}
    (h : buildSourcePolicy imageSets producers raws selected = .ok policy) :
    ∃ found, Accepted imageSets producers raws selected policy found := by
  unfold buildSourcePolicy at h
  dsimp only at h
  split_ifs at h
  obtain ⟨exceptions, hindex, h⟩ := Lists.exists_of_bind h
  obtain ⟨⟨used, summary⟩, hrun, h⟩ := Lists.exists_of_bind h
  dsimp only at h
  split_ifs at h with hstale
  obtain rfl := Except.ok.inj h
  obtain ⟨found, hraws, -, hnodup, rfl⟩ := exists_of_exceptionIndex hindex
  have hstart : AuditedImages imageSets producers (tableOf found) [] [] Dict.empty := by
    have hnone : ∀ payload, ¬ SelectedPayload imageSets [] payload := by
      intro payload hpayload
      obtain ⟨_, hi, -⟩ := hpayload
      cases hi
    exact ⟨fun _ hi => absurd hi List.not_mem_nil, fun payload hp => absurd hp (hnone payload),
      fun payload hp => absurd hp (hnone payload),
      fun _ hp => absurd hp List.not_mem_nil, List.nodup_nil⟩
  have haudit : AuditedImages imageSets producers (tableOf found) (PyText.sortedSet selected) used
      summary :=
    Lists.foldlM_invariant (fun done s =>
      AuditedImages imageSets producers (tableOf found) done s.1 s.2)
      (fun _ _ _ _ => auditedImages_step) hstart hrun
  have hused : ∀ exc ∈ found, exc.package ∈ used := by
    intro exc hexc
    by_contra hnot
    have hmem : exc.package ∈ PyText.sortedSet ((tableOf found).keys.filter (· ∉ used)) := by
      rw [PyText.mem_sortedSet, List.mem_filter, Dict.mem_keys_iff,
        (get?_tableOf hnodup).mpr ⟨hexc, rfl⟩]
      exact ⟨rfl, decide_eq_true hnot⟩
    rw [not_not.mp hstale] at hmem
    cases hmem
  refine ⟨found, hraws, hnodup, ⟨used, haudit, hused⟩, fun exc => ?_, rfl, rfl⟩
  rw [List.mem_filterMap]
  constructor
  · rintro ⟨package, -, hget⟩
    exact ((get?_tableOf hnodup).mp hget).1
  · intro hexc
    exact ⟨exc.package, PyText.mem_sortedSet.mpr (hused exc hexc),
      (get?_tableOf hnodup).mpr ⟨hexc, rfl⟩⟩

/-- **The validator accepts what was built**, against the same inputs. -/
theorem validate_of_policy {imageSets : Dict String (List Payload)} {raws : List RawException}
    {selected : List String} {policy : SourcePolicy}
    (h : buildSourcePolicy imageSets producers raws selected = .ok policy) :
    validateSourcePolicy (policyFields policy) imageSets producers = .ok () := by
  obtain ⟨found, haccepted⟩ := accepted_of_policy h
  obtain ⟨used, haudit, -⟩ := haccepted.audited
  obtain ⟨table, table', hindex, hindex', hsame⟩ := exceptionIndex_recorded h
  have hselected : PyText.sortedSet policy.imageSets = PyText.sortedSet selected := by
    apply PyText.sortedSet_congr
    intro image
    rw [haccepted.imageSets, PyText.mem_sortedSet]
  have hagain := @buildSourcePolicy_congr producers table' table _ _ imageSets _ _ hselected
    hindex' hindex hsame
  have hschema : (getKey (policyFields policy) "schema").pyEq (.int sourcePolicySchema) = true := by
    show (Json.int policy.schema).pyEq _ = true
    rw [haccepted.schema]
    exact Json.pyEq_int_self _
  unfold validateSourcePolicy
  rw [hschema, if_neg Bool.true_eq_false.mp, readItems_exceptions, readItems_imageSets]
  show (match buildSourcePolicy imageSets producers (policy.exceptions.map rawException)
    policy.imageSets with | _ => _) = _
  rw [hagain, h]
  show (if (Json.obj (policyFields policy)).pyEq (.obj (policyFields policy)) = false then _
    else _) = _
  rw [pyEq_policyFields haudit.keys, if_neg Bool.true_eq_false.mp]

/-- What a policy says: per image what is built and what is pinned, an exception for each
    pinned payload, and no exception beside those that are used. -/
structure Partitions (imageSets : Dict String (List Payload)) (producers : List String)
    (raws : List RawException) (selected : List String) (policy : SourcePolicy) : Prop where
  counts : ∀ image ∈ selected, ∃ payloads, imageSets.get? image = some payloads ∧
    policy.summary.get? image = some
      ⟨(payloads.filter fun payload => !payload.isSource producers).length,
        (payloads.filter (Payload.isSource producers)).length, payloads.length⟩
  pinned : ∀ payload, SelectedPayload imageSets selected payload →
    payload.isSource producers = false → ∃ exc ∈ policy.exceptions, exc.Approves producers payload
  recorded : ∀ exc, exc ∈ policy.exceptions ↔ rawException exc ∈ raws ∧
    ∃ payload, SelectedPayload imageSets selected payload ∧ exc.Approves producers payload

/-- What is asked of the inputs: every selected payload is built or approved, and not both;
    every exception is used; and no package is listed twice, in an image or in the
    exceptions. -/
structure Conforms (imageSets : Dict String (List Payload)) (producers : List String)
    (raws : List RawException) (selected : List String) : Prop where
  covered : ∀ payload, SelectedPayload imageSets selected payload →
    payload.isSource producers = true ∨
      ∃ exc, rawException exc ∈ raws ∧ exc.Approves producers payload
  fresh : ∀ payload, SelectedPayload imageSets selected payload →
    payload.isSource producers = true → ∀ raw ∈ raws, raw.package ≠ .text payload.package
  used : ∀ raw ∈ raws, ∃ exc payload, raw = rawException exc ∧
    SelectedPayload imageSets selected payload ∧ exc.Approves producers payload
  once : ∀ image ∈ selected, ∀ payloads, imageSets.get? image = some payloads →
    (payloads.map Payload.package).Nodup
  listed : (raws.map RawException.package).Nodup

section Accepted

variable {imageSets : Dict String (List Payload)} {raws : List RawException}
  {selected : List String} {policy : SourcePolicy} {found : List SourceException}

theorem rawException_inj {exc exc' : SourceException} (h : rawException exc = rawException exc') :
    exc = exc' := by
  obtain ⟨package, kind, reason, source⟩ := exc
  obtain ⟨package', kind', reason', source'⟩ := exc'
  cases source <;> cases source' <;> simp_all [rawException]

theorem Accepted.mem_raws (h : Accepted imageSets producers raws selected policy found)
    {exc : SourceException} : rawException exc ∈ raws ↔ exc ∈ found := by
  rw [h.raws]
  exact List.mem_map_of_injective fun _ _ => rawException_inj

theorem selectedPayload_sorted {payload : Payload} :
    SelectedPayload imageSets (PyText.sortedSet selected) payload ↔
      SelectedPayload imageSets selected payload :=
  ⟨fun h => h.mono fun _ hi => PyText.mem_sortedSet.mp hi,
    fun h => h.mono fun _ hi => PyText.mem_sortedSet.mpr hi⟩

/-- A pinned payload has an exception that it uses. -/
theorem Accepted.approved (h : Accepted imageSets producers raws selected policy found)
    {payload : Payload} (hpayload : SelectedPayload imageSets selected payload)
    (hs : payload.isSource producers = false) : ∃ exc ∈ found, exc.Approves producers payload := by
  obtain ⟨used, haudit, -⟩ := h.audited
  obtain ⟨exc, hget, hfits⟩ := haudit.approved payload (selectedPayload_sorted.mpr hpayload) hs
  obtain ⟨hexc, hpackage⟩ := (get?_tableOf h.once).mp hget
  exact ⟨exc, hexc, hs, hpackage, hfits⟩

/-- Every exception is used. -/
theorem Accepted.exists_used (h : Accepted imageSets producers raws selected policy found)
    {exc : SourceException} (hexc : exc ∈ found) :
    ∃ payload, SelectedPayload imageSets selected payload ∧ exc.Approves producers payload := by
  obtain ⟨used, haudit, hused⟩ := h.audited
  obtain ⟨payload, hpayload, hpackage, hs, exc', hget, hfits⟩ :=
    haudit.used exc.package (hused exc hexc)
  rw [(get?_tableOf h.once).mpr ⟨hexc, rfl⟩] at hget
  obtain rfl := Option.some.inj hget
  exact ⟨payload, selectedPayload_sorted.mp hpayload, hs, hpackage.symm, hfits⟩

theorem Accepted.conforms (h : Accepted imageSets producers raws selected policy found) :
    Conforms imageSets producers raws selected := by
  have hraw : ∀ raw ∈ raws, ∃ exc ∈ found, raw = rawException exc := by
    intro raw hraw
    rw [h.raws] at hraw
    obtain ⟨exc, hexc, he⟩ := List.mem_map.mp hraw
    exact ⟨exc, hexc, he.symm⟩
  refine ⟨fun payload hpayload => ?_, fun payload hpayload hs raw hmem hname => ?_,
    fun raw hmem => ?_, fun image himage payloads hset => ?_, ?_⟩
  · cases hs : payload.isSource producers with
    | true => exact Or.inl rfl
    | false =>
      obtain ⟨exc, hexc, happroves⟩ := h.approved hpayload hs
      exact Or.inr ⟨exc, h.mem_raws.mpr hexc, happroves⟩
  · obtain ⟨exc, hexc, rfl⟩ := hraw raw hmem
    obtain ⟨used, haudit, -⟩ := h.audited
    have hnone := haudit.plain payload (selectedPayload_sorted.mpr hpayload) hs
    rw [(get?_tableOf h.once).mpr ⟨hexc, Field.text.inj hname⟩] at hnone
    cases hnone
  · obtain ⟨exc, hexc, he⟩ := hraw raw hmem
    obtain ⟨payload, hpayload, happroves⟩ := h.exists_used hexc
    exact ⟨exc, payload, he, hpayload, happroves⟩
  · obtain ⟨used, haudit, -⟩ := h.audited
    exact haudit.once image (PyText.mem_sortedSet.mpr himage) payloads hset
  · have hfield : (raws.map RawException.package) =
        (found.map SourceException.package).map Field.text := by
      rw [h.raws, List.map_map, List.map_map]
      rfl
    rw [hfield]
    exact h.once.map fun _ _ he => Field.text.inj he

end Accepted

/-- **The policy is a fixed point and a partition**, and whatever does not conform is
    refused. -/
theorem source_policy_partitions (imageSets : Dict String (List Payload))
    (producers : List String) (raws : List RawException) (selected : List String) :
    (∀ policy, buildSourcePolicy imageSets producers raws selected = .ok policy →
      validateSourcePolicy (policyFields policy) imageSets producers = .ok () ∧
        Partitions imageSets producers raws selected policy) ∧
      (¬ Conforms imageSets producers raws selected →
        ∃ message, buildSourcePolicy imageSets producers raws selected = .error message) := by
  constructor
  · intro policy h
    obtain ⟨found, haccepted⟩ := accepted_of_policy h
    refine ⟨validate_of_policy h, fun image himage => ?_, fun payload hpayload hs => ?_,
      fun exc => ?_⟩
    · obtain ⟨payloads, hset, hcovers⟩ := covers_of_policy h himage
      exact ⟨payloads, hset, hcovers.counts⟩
    · obtain ⟨exc, hexc, happroves⟩ := haccepted.approved hpayload hs
      exact ⟨exc, (haccepted.recorded exc).mpr hexc, happroves⟩
    · rw [haccepted.recorded, haccepted.mem_raws]
      exact ⟨fun hexc => ⟨hexc, haccepted.exists_used hexc⟩, And.left⟩
  · intro hnot
    cases hbuild : buildSourcePolicy imageSets producers raws selected with
    | error message => exact ⟨message, rfl⟩
    | ok policy =>
      obtain ⟨found, haccepted⟩ := accepted_of_policy hbuild
      exact absurd haccepted.conforms hnot

/-- `bash` is built and the firmware is signed elsewhere: the policy stands. -/
theorem source_policy_partitions_live :
    validateSourcePolicy
        [("exceptions", .arr [.obj [("kind", .str "firmware"), ("package", .str "linux-firmware"),
          ("reason", .str "signed blobs")]]),
          ("image_sets", .arr [.str "live"]), ("schema", .int 1),
          ("summary", .obj [("live", .obj [("pinned", .int 1), ("source", .int 1),
            ("total", .int 2)])])]
        ⟨[("live", [⟨"bash", some "bash"⟩, ⟨"linux-firmware", none⟩])]⟩ ["bash"] = .ok () :=
  ((source_policy_partitions ⟨[("live", [⟨"bash", some "bash"⟩, ⟨"linux-firmware", none⟩])]⟩
    ["bash"] [⟨.text "linux-firmware", .text "firmware", .text "signed blobs", .missing⟩]
    ["live"]).1 ⟨[⟨"linux-firmware", "firmware", "signed blobs", none⟩], ["live"], 1,
      ⟨[("live", ⟨1, 1, 2⟩)]⟩⟩ (by rfl)).1

end Run

end BuckosDistro.Policy
