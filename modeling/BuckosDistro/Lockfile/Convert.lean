/-
  Changing the encoding of a lock (`tools/_lockfile.py`, `convert_lockfile`).

  The new encoding is written, read back and compared before the old one is removed. A step that
  fails before the new file is in place leaves all as it was; one that fails after it leaves both
  (`convertLockfile_iff`).
-/
import BuckosDistro.Lib.Raise
import BuckosDistro.Lib.Reloaded

namespace BuckosDistro.Lockfile

open BuckosDistro.Lib

/-! ## The functions -/

abbrev Path := List Char

abbrev Bytes := List UInt8

/-- The files there are. -/
abbrev Files := Path → Option Bytes

def plainSuffix : Path := ".lock.json".toList

def gzipSuffix : Path := plainSuffix ++ ".gz".toList

def compressions : List String := ["none", "gzip"]

/-- `json.dump(value, stream, indent=2, sort_keys=True)` with the newline, `json.load`, and the
    `gzip` module. -/
structure Codec where
  dumps : Json → Bytes
  loads : Bytes → Except String Json
  compress : Bytes → Bytes
  decompress : Bytes → Except String Bytes

/-- The steps that the system may refuse. -/
inductive FileStep where
  | read
  | dump
  | replace
  | reread
  | unlink

/-- `strip_lockfile_suffix` -/
def stripLockfileSuffix (path : Path) : Except String Path :=
  match [gzipSuffix, plainSuffix].find? fun suffix => suffix.isSuffixOf path with
  | some suffix => .ok (path.take (path.length - suffix.length))
  | none => .error ("ValueError: lockfile must end in " ++ String.ofList plainSuffix ++ " or " ++
      String.ofList gzipSuffix ++ ": " ++ String.ofList path)

/-- The suffix of an encoding. -/
def suffixOf (compression : String) : Path :=
  if compression = "gzip" then gzipSuffix else plainSuffix

section Convert

variable (c : Codec)

/-- What `load_lockfile` reads in a file of that name. -/
def decode (path : Path) (bytes : Bytes) : Except String Json :=
  if gzipSuffix.isSuffixOf path then c.decompress bytes >>= c.loads else c.loads bytes

/-- What `dump_lockfile` writes to a file of that name. -/
def encode (path : Path) (value : Json) : Bytes :=
  if gzipSuffix.isSuffixOf path then c.compress (c.dumps value) else c.dumps value

/-- `load_lockfile` -/
def loadLockfile (refused : Bool) (files : Files) (path : Path) : Except String Json := do
  let bytes ← needed (files path) ("FileNotFoundError: " ++ String.ofList path)
  if refused then .error ("OSError: " ++ String.ofList path) else decode c path bytes

/-- `atomic_dump_lockfile`, with the name that `mkstemp` makes of a stem; a file that is left of
    it is removed. -/
def atomicDumpLockfile (refuses : FileStep → Bool) (stem : Path) (value : Json) (path : Path)
    (files : Files) : Except String Unit × Files :=
  let temporary := stem ++ if gzipSuffix.isSuffixOf path then gzipSuffix else plainSuffix
  let files := Function.update files temporary (some [])
  if refuses .dump then
    (.error ("OSError: " ++ String.ofList temporary), Function.update files temporary none)
  else
    let files := Function.update files temporary (some (encode c temporary value))
    if refuses .replace then
      (.error ("OSError: " ++ String.ofList path), Function.update files temporary none)
    else (.ok (), Function.update (Function.update files path (files temporary)) temporary none)

/-- `convert_lockfile`, of an absolute path. -/
def convertLockfile (refuses : FileStep → Bool) (stem source : Path) (compression : String)
    (files : Files) : Except String Path × Files :=
  if compression ∉ compressions then
    (.error ("ValueError: unsupported lockfile compression " ++ PyText.repr compression), files)
  else
    match stripLockfileSuffix source with
    | .error e => (.error e, files)
    | .ok base =>
      let destination := base ++ suffixOf compression
      if source ≠ destination ∧ (files destination).isSome then
        (.error ("ValueError: destination already exists: " ++ String.ofList destination), files)
      else
        match loadLockfile c (refuses .read) files source with
        | .error e => (.error e, files)
        | .ok value =>
          match atomicDumpLockfile c refuses stem value destination files with
          | (.error e, files) => (.error e, files)
          | (.ok _, files) =>
            match loadLockfile c (refuses .reread) files destination with
            | .error e => (.error e, files)
            | .ok copy =>
              if copy.loadedEq value = false then
                (.error "ValueError: converted lockfile did not round trip", files)
              else if source ≠ destination then
                if refuses .unlink then (.error ("OSError: " ++ String.ofList source), files)
                else (.ok destination, Function.update files source none)
              else (.ok destination, files)

/-! ## All or nothing -/

/-- The value of a lock that can be read. -/
def decoded (files : Files) (path : Path) : Option Json :=
  (loadLockfile c false files path).toOption

/-- One encoding with the value is left, or the locks are those there were; and there are never
    both. -/
structure AllOrNothing (base : Path) (value : Json) (files : Files)
    (run : Except String Path × Files) : Prop where
  returned : ∀ destination, run.1 = .ok destination →
    ∃ suffix other, (suffix = plainSuffix ∧ other = gzipSuffix ∨
        suffix = gzipSuffix ∧ other = plainSuffix) ∧
      run.2 (base ++ other) = none ∧
      ∃ kept, decoded c run.2 (base ++ suffix) = some kept ∧ Json.Same kept value
  raised : ∀ e, run.1 = .error e → ∀ suffix, suffix = plainSuffix ∨ suffix = gzipSuffix →
    ((run.2 (base ++ suffix)).isSome ↔ (files (base ++ suffix)).isSome) ∧
    ∀ old, decoded c files (base ++ suffix) = some old →
      ∃ kept, decoded c run.2 (base ++ suffix) = some kept ∧ Json.Same kept old
  single : run.2 (base ++ plainSuffix) = none ∨ run.2 (base ++ gzipSuffix) = none

/-- What the modules promise: a loaded value has no key twice, what is dumped loads as the value,
    and what is compressed decompresses. -/
structure Codec.Lawful : Prop where
  distinct : ∀ bytes value, c.loads bytes = .ok value → value.Distinct
  reload : ∀ bytes value, c.loads bytes = .ok value →
    ∃ copy, c.loads (c.dumps value) = .ok copy ∧ Json.Same copy value
  unpack : ∀ bytes, c.decompress (c.compress bytes) = .ok bytes

end Convert

/-! ## Names -/

theorem plainSuffix_ne : plainSuffix ≠ gzipSuffix := by decide

theorem gzip_isSuffixOf (base : Path) : gzipSuffix.isSuffixOf (base ++ gzipSuffix) = true :=
  List.isSuffixOf_iff_suffix.mpr (List.suffix_append _ _)

theorem not_gzip_isSuffixOf (base : Path) :
    gzipSuffix.isSuffixOf (base ++ plainSuffix) = false := by
  rw [Bool.eq_false_iff]
  intro h
  obtain ⟨before, heq⟩ := List.isSuffixOf_iff_suffix.mp h
  have hlast := congrArg List.getLast? heq
  rw [List.getLast?_append, List.getLast?_append] at hlast
  have hz : gzipSuffix.getLast? = some 'z' := by decide
  have hn : plainSuffix.getLast? = some 'n' := by decide
  rw [hz, hn] at hlast
  exact absurd (Option.some.inj hlast) (by decide)

theorem take_append_sub (base suffix : Path) :
    (base ++ suffix).take ((base ++ suffix).length - suffix.length) = base := by
  rw [List.length_append, Nat.add_sub_cancel, List.take_left]

theorem stripLockfileSuffix_append {suffix : Path}
    (h : suffix = plainSuffix ∨ suffix = gzipSuffix) (base : Path) :
    stripLockfileSuffix (base ++ suffix) = .ok base := by
  unfold stripLockfileSuffix
  rcases h with rfl | rfl
  · have hplain : plainSuffix.isSuffixOf (base ++ plainSuffix) = true :=
      List.isSuffixOf_iff_suffix.mpr (List.suffix_append _ _)
    simp only [List.find?, not_gzip_isSuffixOf, hplain]
    exact congrArg Except.ok (take_append_sub _ _)
  · simp only [List.find?, gzip_isSuffixOf]
    exact congrArg Except.ok (take_append_sub _ _)

theorem suffixOf_cases (compression : String) :
    suffixOf compression = plainSuffix ∨ suffixOf compression = gzipSuffix := by
  unfold suffixOf
  split_ifs
  · exact .inr rfl
  · exact .inl rfl

/-- The name of a temporary file ends as that of the file. -/
theorem temporarySuffix_append {suffix : Path} (h : suffix = plainSuffix ∨ suffix = gzipSuffix)
    (base : Path) :
    (if gzipSuffix.isSuffixOf (base ++ suffix) then gzipSuffix else plainSuffix) = suffix := by
  rcases h with rfl | rfl
  · rw [not_gzip_isSuffixOf, if_neg Bool.false_ne_true]
  · rw [gzip_isSuffixOf, if_pos rfl]

/-! ## The steps -/

section Steps

variable {c : Codec} {files : Files} {base stem suffix : Path} {value : Json}

theorem encode_append (hsuffix : suffix = plainSuffix ∨ suffix = gzipSuffix) (value : Json) :
    encode c (stem ++ suffix) value = encode c (base ++ suffix) value := by
  unfold encode
  rcases hsuffix with rfl | rfl
  · rw [not_gzip_isSuffixOf, not_gzip_isSuffixOf]
  · rw [gzip_isSuffixOf, gzip_isSuffixOf]

/-- What was read is what the codec loads. -/
theorem exists_loads {path : Path} {refused : Bool}
    (h : loadLockfile c refused files path = .ok value) : ∃ bytes, c.loads bytes = .ok value := by
  obtain ⟨bytes, _, h⟩ := Raise.bind_ok.mp h
  split_ifs at h
  unfold decode at h
  split_ifs at h
  · obtain ⟨text, _, h⟩ := Raise.bind_ok.mp h
    exact ⟨text, h⟩
  · exact ⟨bytes, h⟩

/-- A value that was loaded is read back from what is written. -/
theorem exists_reload (hc : c.Lawful) {bytes : Bytes} (hloads : c.loads bytes = .ok value)
    (path : Path) : ∃ copy, decode c path (encode c path value) = .ok copy ∧
      Json.Same copy value ∧ copy.Distinct := by
  obtain ⟨copy, hcopy, hsame⟩ := hc.reload bytes value hloads
  refine ⟨copy, ?_, hsame, hc.distinct _ _ hcopy⟩
  unfold decode encode
  split_ifs
  · rw [hc.unpack]
    exact hcopy
  · exact hcopy

/-- What was written is read, unless the read is refused. -/
theorem loadLockfile_update {path : Path} {bytes : Bytes} {copy : Json}
    (h : decode c path bytes = .ok copy) :
    loadLockfile c false (Function.update files path (some bytes)) path = .ok copy := by
  unfold loadLockfile
  rw [Function.update_self]
  exact h

theorem decoded_update {path : Path} {bytes : Bytes} {copy : Json}
    (h : decode c path bytes = .ok copy) :
    decoded c (Function.update files path (some bytes)) path = some copy := by
  unfold decoded
  rw [loadLockfile_update h]
  rfl

theorem loadLockfile_cases {path : Path} (hread : loadLockfile c false files path = .ok value)
    (refused : Bool) :
    (refused = true ∧ ∃ e, loadLockfile c refused files path = .error e) ∨
      refused = false ∧ loadLockfile c refused files path = .ok value := by
  cases refused with
  | false => exact .inr ⟨rfl, hread⟩
  | true =>
    obtain ⟨bytes, hbytes, _⟩ := Raise.bind_ok.mp hread
    refine .inl ⟨rfl, "OSError: " ++ String.ofList path, ?_⟩
    unfold loadLockfile
    rw [hbytes]
    rfl

theorem decoded_congr {files' : Files} {path : Path} (h : files' path = files path) :
    decoded c files' path = decoded c files path := by
  unfold decoded loadLockfile
  rw [h]

theorem loadLockfile_missing (c : Codec) {path : Path} (h : files path = none) (refused : Bool) :
    loadLockfile c refused files path =
      .error ("FileNotFoundError: " ++ String.ofList path) := by
  unfold loadLockfile
  rw [h]
  rfl

/-- The new file is in place, or all is as it was. -/
theorem atomicDumpLockfile_eq {refuses : FileStep → Bool}
    (hsuffix : suffix = plainSuffix ∨ suffix = gzipSuffix) (hstem : stem ≠ base)
    (hfresh : files (stem ++ suffix) = none) :
    (∃ e, (refuses .dump = true ∨ refuses .replace = true) ∧
      atomicDumpLockfile c refuses stem value (base ++ suffix) files = (.error e, files)) ∨
    refuses .dump = false ∧ refuses .replace = false ∧
      atomicDumpLockfile c refuses stem value (base ++ suffix) files =
        (.ok (), Function.update files (base ++ suffix)
          (some (encode c (base ++ suffix) value))) := by
  have hne : stem ++ suffix ≠ base ++ suffix := fun he => hstem (List.append_cancel_right he)
  have hremoved (f : Files) (hf : ∀ p, p ≠ stem ++ suffix → f p = files p) :
      Function.update f (stem ++ suffix) none = files := by
    funext p
    by_cases hp : p = stem ++ suffix
    · rw [hp, Function.update_self, hfresh]
    · rw [Function.update_of_ne hp, hf p hp]
  unfold atomicDumpLockfile
  rw [temporarySuffix_append hsuffix]
  dsimp only
  split_ifs with hdump hreplace
  · refine .inl ⟨_, .inl hdump, Prod.ext rfl ?_⟩
    exact hremoved _ fun p hp => Function.update_of_ne hp _ _
  · refine .inl ⟨_, .inr hreplace, Prod.ext rfl ?_⟩
    apply hremoved
    intro p hp
    rw [Function.update_of_ne hp, Function.update_of_ne hp]
  · refine .inr ⟨Bool.eq_false_iff.mpr hdump, Bool.eq_false_iff.mpr hreplace, Prod.ext rfl ?_⟩
    funext p
    dsimp only
    by_cases hp : p = stem ++ suffix
    · rw [hp, Function.update_self, Function.update_of_ne hne, hfresh]
    · rw [Function.update_of_ne hp, Function.update_self, encode_append hsuffix]
      by_cases hp' : p = base ++ suffix
      · rw [hp', Function.update_self, Function.update_self]
      · rw [Function.update_of_ne hp', Function.update_of_ne hp', Function.update_of_ne hp,
          Function.update_of_ne hp]

/-- A temporary file under the name of the file itself is removed with it. -/
theorem atomicDumpLockfile_self {refuses : FileStep → Bool}
    (hsuffix : suffix = plainSuffix ∨ suffix = gzipSuffix)
    (hfresh : files (base ++ suffix) = none) :
    ∃ result, atomicDumpLockfile c refuses base value (base ++ suffix) files = (result, files) := by
  have hremoved (f : Files) (hf : ∀ p, p ≠ base ++ suffix → f p = files p) :
      Function.update f (base ++ suffix) none = files := by
    funext p
    by_cases hp : p = base ++ suffix
    · rw [hp, Function.update_self, hfresh]
    · rw [Function.update_of_ne hp, hf p hp]
  unfold atomicDumpLockfile
  rw [temporarySuffix_append hsuffix]
  dsimp only
  split_ifs
  · refine ⟨_, Prod.ext rfl (hremoved _ fun p hp => ?_)⟩
    rw [Function.update_of_ne hp]
  · refine ⟨_, Prod.ext rfl (hremoved _ fun p hp => ?_)⟩
    rw [Function.update_of_ne hp, Function.update_of_ne hp]
  · refine ⟨_, Prod.ext rfl (hremoved _ fun p hp => ?_)⟩
    rw [Function.update_of_ne hp, Function.update_of_ne hp, Function.update_of_ne hp]

end Steps

/-! ## The whole -/

section Whole

variable {c : Codec} {files : Files} {base stem suffix other : Path} {value : Json}

/-- The two encodings. -/
def Encodings (suffix other : Path) : Prop :=
  suffix = plainSuffix ∧ other = gzipSuffix ∨ suffix = gzipSuffix ∧ other = plainSuffix

theorem Encodings.ne (h : Encodings suffix other) : suffix ≠ other := by
  rcases h with ⟨rfl, rfl⟩ | ⟨rfl, rfl⟩
  · exact plainSuffix_ne
  · exact plainSuffix_ne.symm

theorem Encodings.mem (h : Encodings suffix other) {s : Path} :
    (s = plainSuffix ∨ s = gzipSuffix) ↔ s = suffix ∨ s = other := by
  rcases h with ⟨rfl, rfl⟩ | ⟨rfl, rfl⟩
  · exact Iff.rfl
  · exact or_comm

theorem Encodings.single (h : Encodings suffix other) {f : Files} :
    (f (base ++ plainSuffix) = none ∨ f (base ++ gzipSuffix) = none) ↔
      f (base ++ suffix) = none ∨ f (base ++ other) = none := by
  rcases h with ⟨rfl, rfl⟩ | ⟨rfl, rfl⟩
  · exact Iff.rfl
  · exact or_comm

theorem there_of_decoded {f : Files} {path : Path} {kept : Json}
    (h : decoded c f path = some kept) : f path ≠ none := by
  intro hnone
  unfold decoded loadLockfile at h
  rw [hnone] at h
  exact nomatch h

/-- Where the lock still has its value, all is well just when there was no other. -/
theorem allOrNothing_kept {run : Except String Path × Files} (hpair : Encodings suffix other)
    (hread : decoded c files (base ++ suffix) = some value)
    (hkept : ∃ kept, decoded c run.2 (base ++ suffix) = some kept ∧ Json.Same kept value)
    (hother : run.2 (base ++ other) = files (base ++ other)) :
    AllOrNothing c base value files run ↔ files (base ++ other) = none := by
  obtain ⟨kept, hdecoded, hsame⟩ := hkept
  refine ⟨fun h => ?_, fun hnone => ⟨fun _ _ => ?_, fun e _ s hs => ?_, ?_⟩⟩
  · rw [← hother]
    exact (hpair.single.mp h.single).resolve_left (there_of_decoded hdecoded)
  · exact ⟨suffix, other, hpair, by rw [hother, hnone], kept, hdecoded, hsame⟩
  · rcases hpair.mem.mp hs with rfl | rfl
    · refine ⟨iff_of_true ?_ ?_, fun old hold => ⟨kept, hdecoded, ?_⟩⟩
      · exact Option.isSome_iff_ne_none.mpr (there_of_decoded hdecoded)
      · exact Option.isSome_iff_ne_none.mpr (there_of_decoded hread)
      · obtain rfl : value = old := Option.some.inj (hread.symm.trans hold)
        exact hsame
    · refine ⟨by rw [hother], fun old hold => ⟨old, ?_, .refl old⟩⟩
      rw [decoded_congr hother, hold]
  · exact hpair.single.mpr (.inr (by rw [hother, hnone]))

/-- Two encodings are one too many. -/
theorem not_allOrNothing {run : Except String Path × Files} (hpair : Encodings suffix other)
    (hsource : run.2 (base ++ suffix) ≠ none) (hother : run.2 (base ++ other) ≠ none) :
    ¬ AllOrNothing c base value files run := by
  intro h
  rcases hpair.single.mp h.single with hnone | hnone
  · exact hsource hnone
  · exact hother hnone

/-- The other encoding in place of the one. -/
theorem allOrNothing_moved {f : Files} {destination : Path} (hpair : Encodings suffix other)
    (hkept : ∃ kept, decoded c f (base ++ other) = some kept ∧ Json.Same kept value) :
    AllOrNothing c base value files
      (.ok destination, Function.update f (base ++ suffix) none) := by
  have hne : base ++ other ≠ base ++ suffix := fun he =>
    hpair.ne (List.append_cancel_left he).symm
  obtain ⟨kept, hdecoded, hsame⟩ := hkept
  refine ⟨fun _ _ => ⟨other, suffix, ?_, Function.update_self _ _ _, kept, ?_, hsame⟩,
    fun e he => (nomatch he), hpair.single.mpr (.inl (Function.update_self _ _ _))⟩
  · exact hpair.symm.imp id id |>.imp (fun h => ⟨h.2, h.1⟩) fun h => ⟨h.2, h.1⟩
  · rw [decoded_congr (Function.update_of_ne hne _ _), hdecoded]

/-- The new file is never in place, or no step fails after that and the value is not a bare
    `NaN`. -/
def Undisturbed (refuses : FileStep → Bool) (stem base : Path) (value : Json) : Prop :=
  refuses .read = true ∨ refuses .dump = true ∨ refuses .replace = true ∨ stem = base ∨
    refuses .reread = false ∧ refuses .unlink = false ∧ value ≠ .nan

/-- A conversion is all or nothing just when there is one encoding before and, where it is to be
    changed, nothing goes wrong once both are there. -/
theorem convertLockfile_iff {refuses : FileStep → Bool} {compression : String} (hc : c.Lawful)
    (hpair : Encodings suffix other) (hfresh : files (stem ++ suffixOf compression) = none)
    (hread : loadLockfile c false files (base ++ suffix) = .ok value) :
    AllOrNothing c base value files
      (convertLockfile c refuses stem (base ++ suffix) compression files) ↔
    files (base ++ other) = none ∧ (compression ∈ compressions → suffixOf compression = other →
      Undisturbed refuses stem base value) := by
  have hdecoded : decoded c files (base ++ suffix) = some value := by
    unfold decoded
    rw [hread]
    rfl
  have hsource : files (base ++ suffix) ≠ none := there_of_decoded hdecoded
  obtain ⟨bytes, hloads⟩ := exists_loads hread
  have hsuffix : suffix = plainSuffix ∨ suffix = gzipSuffix := hpair.mem.mpr (.inl rfl)
  have hunchanged (e : String) (hearly : compression ∈ compressions → suffixOf compression = other →
      files (base ++ other) = none → Undisturbed refuses stem base value) :
      AllOrNothing c base value files (.error e, files) ↔
      files (base ++ other) = none ∧ (compression ∈ compressions → suffixOf compression = other →
        Undisturbed refuses stem base value) := by
    rw [allOrNothing_kept hpair hdecoded ⟨value, hdecoded, .refl value⟩ rfl]
    exact ⟨fun hnone => ⟨hnone, fun hin hto => hearly hin hto hnone⟩, fun h => h.1⟩
  unfold convertLockfile
  by_cases hin : compression ∈ compressions
  swap
  · rw [if_pos hin]
    exact hunchanged _ fun h => absurd h hin
  rw [if_neg (not_not_intro hin), stripLockfileSuffix_append hsuffix]
  dsimp only
  have hto : suffixOf compression = suffix ∨ suffixOf compression = other :=
    hpair.mem.mp (suffixOf_cases compression)
  by_cases hexists : base ++ suffix ≠ base ++ suffixOf compression ∧
      (files (base ++ suffixOf compression)).isSome = true
  · rw [if_pos hexists]
    refine hunchanged _ fun _ hto hnone => ?_
    rw [hto, hnone] at hexists
    exact nomatch hexists.2
  rw [if_neg hexists]
  obtain ⟨hrefused, e, hload⟩ | ⟨hallowed, hload⟩ := loadLockfile_cases hread (refuses .read)
  · rw [hload]
    exact hunchanged e fun _ _ _ => .inl hrefused
  rw [hload]
  dsimp only
  by_cases hstem : stem = base
  · -- the temporary file is the destination, and goes when it is removed
    obtain ⟨result, hdump⟩ := @atomicDumpLockfile_self c files base (suffixOf compression) value
      refuses (suffixOf_cases compression) (hstem ▸ hfresh)
    rw [hstem, hdump]
    have hspared : Undisturbed refuses base base value := .inr (.inr (.inr (.inl rfl)))
    cases result with
    | error e => exact hstem ▸ hunchanged e fun _ _ _ => hstem ▸ hspared
    | ok _ =>
      have hgone : files (base ++ suffixOf compression) = none := hstem ▸ hfresh
      have hmissing := loadLockfile_missing c hgone (refuses .reread)
      dsimp only
      rw [hmissing]
      exact hstem ▸ hunchanged _ fun _ _ _ => hstem ▸ hspared
  obtain ⟨e, hrefused, hdump⟩ | ⟨hdump', hreplace, hdump⟩ :=
    @atomicDumpLockfile_eq c files base stem (suffixOf compression) value refuses
      (suffixOf_cases compression) hstem hfresh
  · rw [hdump]
    exact hunchanged e fun _ _ _ => .inr (hrefused.imp id .inl)
  rw [hdump]
  dsimp only
  obtain ⟨copy, hcopy, hsame, hdistinct⟩ := exists_reload hc hloads (base ++ suffixOf compression)
  have hloaded := @loadLockfile_update c files _ _ copy hcopy
  have hequal := Json.loadedEq_iff hsame hdistinct (hc.distinct _ _ hloads)
  rcases hto with hto | hto
  · -- the lock is written over itself, and no step after that changes a file
    rw [hto] at hcopy hloaded ⊢
    have hkept (run : Except String Path × Files)
        (hrun : run.2 = Function.update files (base ++ suffix)
          (some (encode c (base ++ suffix) value))) :
        AllOrNothing c base value files run ↔ files (base ++ other) = none ∧
          (compression ∈ compressions → suffix = other → Undisturbed refuses stem base value) := by
      have hne : base ++ other ≠ base ++ suffix := fun he =>
        hpair.ne (List.append_cancel_left he).symm
      rw [allOrNothing_kept hpair hdecoded]
      · exact (and_iff_left fun _ he => absurd he hpair.ne).symm
      · exact ⟨copy, by rw [hrun, decoded_update hcopy], hsame⟩
      · rw [hrun, Function.update_of_ne hne]
    obtain ⟨_, e, hagain⟩ | ⟨_, hagain⟩ := loadLockfile_cases hloaded (refuses .reread)
    · rw [hagain]
      exact hkept _ rfl
    · rw [hagain]
      dsimp only
      rw [if_neg (not_not_intro rfl)]
      split_ifs
      · exact hkept _ rfl
      · exact hkept _ rfl
  · -- until the old file is removed there are both
    rw [hto] at hexists hcopy hloaded ⊢
    have hne : base ++ suffix ≠ base ++ other := fun he =>
      hpair.ne (List.append_cancel_left he)
    have hnone : files (base ++ other) = none :=
      Option.not_isSome_iff_eq_none.mp fun h => hexists ⟨hne, h⟩
    have hcondition : (files (base ++ other) = none ∧ (compression ∈ compressions → other = other →
        Undisturbed refuses stem base value)) ↔
        refuses .reread = false ∧ refuses .unlink = false ∧ value ≠ .nan := by
      unfold Undisturbed
      rw [hallowed, hdump', hreplace]
      refine ⟨fun h => ?_, fun h => ⟨hnone, fun _ _ => .inr (.inr (.inr (.inr h)))⟩⟩
      rcases h.2 hin rfl with h | h | h | h | h
      · exact nomatch h
      · exact nomatch h
      · exact nomatch h
      · exact absurd h hstem
      · exact h
    rw [hcondition]
    have hboth (run : Except String Path × Files)
        (hrun : run.2 = Function.update files (base ++ other)
          (some (encode c (base ++ other) value))) :
        ¬ AllOrNothing c base value files run := by
      apply not_allOrNothing hpair
      · rw [hrun, Function.update_of_ne hne]
        exact hsource
      · rw [hrun, Function.update_self]
        exact Option.some_ne_none _
    obtain ⟨hagain', e, hagain⟩ | ⟨hagain', hagain⟩ :=
      loadLockfile_cases hloaded (refuses .reread)
    · rw [hagain]
      refine iff_of_false (hboth _ rfl) fun h => ?_
      rw [h.1] at hagain'
      exact nomatch hagain'
    · rw [hagain]
      dsimp only
      rw [if_pos hne]
      split_ifs with hround hunlink
      · refine iff_of_false (hboth _ rfl) fun h => ?_
        rw [hequal.mpr h.2.2] at hround
        exact nomatch hround
      · refine iff_of_false (hboth _ rfl) fun h => ?_
        rw [h.2.1] at hunlink
        exact nomatch hunlink
      · refine iff_of_true (allOrNothing_moved hpair ⟨copy, decoded_update hcopy, hsame⟩) ?_
        refine ⟨hagain', Bool.eq_false_iff.mpr hunlink, hequal.mp ?_⟩
        exact Bool.not_eq_false _ ▸ hround

end Whole

namespace Sample

def ascii (text : String) : Bytes := text.toList.map fun c => UInt8.ofNat c.toNat

def nan : Bytes := ascii "NaN\n"

/-- A lock as someone wrote it, and as `json.dump` does, which sorts the keys. -/
def lockText : Bytes := ascii "\x7b\"release\": \"43\", \"packages\": \x7b\"acl\": NaN\x7d\x7d"

def lockDump : Bytes := ascii
  "\x7b\n  \"packages\": \x7b\n    \"acl\": NaN\n  \x7d,\n  \"release\": \"43\"\n\x7d\n"

def lock : Json := .obj [("release", .str "43"), ("packages", .obj [("acl", .nan)])]

def sortedLock : Json := .obj [("packages", .obj [("acl", .nan)]), ("release", .str "43")]

/-- A codec of that lock and of a bare `NaN`. -/
def codec : Codec where
  dumps value := if value.isNan then nan else lockDump
  loads bytes :=
    if bytes = nan then .ok .nan
    else if bytes = lockText then .ok lock
    else if bytes = lockDump then .ok sortedLock else .error "JSONDecodeError"
  compress bytes := 31 :: bytes
  decompress
    | [] => .error "EOFError"
    | magic :: bytes => if magic = 31 then .ok bytes else .error "BadGzipFile"

theorem same_lock : Json.Same sortedLock lock := by
  have hlookup (packages release : Json) (key : String) :
      [("packages", packages), ("release", release)].lookup key =
        [("release", release), ("packages", packages)].lookup key := by
    by_cases hpackages : key = "packages"
    · subst hpackages
      rfl
    by_cases hrelease : key = "release"
    · subst hrelease
      rfl
    · simp only [List.lookup_cons, beq_false_of_ne hpackages, beq_false_of_ne hrelease]
  refine .obj (fun key => ?_) fun key => ?_
  · exact congrArg Option.isSome (hlookup _ _ key)
  · rw [getKey, hlookup, ← getKey]
    exact .refl _

theorem loads_ok {bytes : Bytes} {value : Json} (h : codec.loads bytes = .ok value) :
    value = .nan ∨ value = lock ∨ value = sortedLock := by
  change (if bytes = nan then _ else if bytes = lockText then _ else
    if bytes = lockDump then _ else _) = _ at h
  split_ifs at h
  · exact .inl (Except.ok.inj h).symm
  · exact .inr (.inl (Except.ok.inj h).symm)
  · exact .inr (.inr (Except.ok.inj h).symm)

theorem codec_lawful : codec.Lawful where
  distinct bytes value h := by
    have hpackages : (Json.obj [("acl", .nan)]).Distinct :=
      .obj (by decide) (List.forall_mem_singleton.mpr .nan)
    rcases loads_ok h with rfl | rfl | rfl
    · exact .nan
    · exact .obj (by decide) (List.forall_mem_cons.mpr
        ⟨.str "43", List.forall_mem_singleton.mpr hpackages⟩)
    · exact .obj (by decide) (List.forall_mem_cons.mpr
        ⟨hpackages, List.forall_mem_singleton.mpr (.str "43")⟩)
  reload bytes value h := by
    rcases loads_ok h with rfl | rfl | rfl
    · exact ⟨.nan, rfl, .refl _⟩
    · exact ⟨sortedLock, rfl, same_lock⟩
    · exact ⟨sortedLock, rfl, .refl _⟩
  unpack _ := rfl

/-- The one lock, with a text. -/
def files (text : Bytes) : Files :=
  Function.update (fun _ => none) ("/a".toList ++ plainSuffix) (some text)

end Sample

/-- The keys come out sorted, and the `NaN` inside is the one there was. -/
theorem convertLockfile_lock :
    AllOrNothing Sample.codec "/a".toList Sample.lock (Sample.files Sample.lockText)
      (convertLockfile Sample.codec (fun _ => false) "/t".toList ("/a".toList ++ plainSuffix) "gzip"
        (Sample.files Sample.lockText)) ∧
    (convertLockfile Sample.codec (fun _ => false) "/t".toList ("/a".toList ++ plainSuffix) "gzip"
      (Sample.files Sample.lockText)).2 ("/a".toList ++ gzipSuffix) =
        some (31 :: Sample.lockDump) := by
  refine ⟨(convertLockfile_iff Sample.codec_lawful (.inl ⟨rfl, rfl⟩) (by decide) rfl).mpr
    ⟨by decide, fun _ _ => .inr (.inr (.inr (.inr ⟨rfl, rfl, fun h => nomatch h⟩)))⟩, ?_⟩
  decide +kernel

/-- A bare `NaN` is not equal to its copy, and both encodings are left. -/
theorem convertLockfile_nan :
    let files := Sample.files Sample.nan
    let source := "/a".toList ++ plainSuffix
    let run := convertLockfile Sample.codec (fun _ => false) "/t".toList source "gzip" files
    loadLockfile Sample.codec false files source = .ok .nan ∧
      files ("/a".toList ++ gzipSuffix) = none ∧
      run.1 = .error "ValueError: converted lockfile did not round trip" ∧
      run.2 source = some Sample.nan ∧
      run.2 ("/a".toList ++ gzipSuffix) = some (31 :: Sample.nan) ∧
      ¬ AllOrNothing Sample.codec "/a".toList .nan files run := by
  refine ⟨rfl, by decide, rfl, by decide, by decide, ?_⟩
  apply not_allOrNothing (.inl ⟨rfl, rfl⟩)
  · decide
  · decide

end BuckosDistro.Lockfile
