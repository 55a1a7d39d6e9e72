/-
  The downloads of a release (`defs/rpm_family.bzl`, `rpm_downloads` and `_download_url`).

  Every pin is one rule, under the name of its target, with the one URL it comes from. A target
  that several lists name is defined once; two pins for it stop the evaluation.
-/
import BuckosDistro.Generate.Collect
import BuckosDistro.Relock.Arguments

namespace BuckosDistro.Family

open BuckosDistro.Lib BuckosDistro.Generate BuckosDistro.Relock

/-! ## What a release is evaluated with -/

/-- The options of `[buckos.<flavor>]`, with their defaults where they are not set. -/
structure LocalConfig where
  blobBase : List Char := []
  mirrorBase : List Char := []
  packageUrlTemplate : List Char := []
  buildroot : List Char := "host".toList
  prebuilt : List Char := []
  without : List Char := []

/-- The generated module of a release, with what else of it the macros read. -/
structure ReleaseData extends Generated where
  release : List Char
  distTag : String
  targetCpu : String
  repoBase : Dict String String

/-- `_RPM_FLAVORS[flavor]["mirror_from"]` -/
def mirrorFrom : Flavor → List Char
  | .centos | .centosHyperscale => "https://mirror.stream.centos.org".toList
  | .fedora => "https://dl.fedoraproject.org/pub/fedora/linux".toList

/-! ## Where an rpm is fetched from -/

/-- `_PATH_ESCAPES` -/
def pathEscapes : Dict Char (List Char) :=
  ⟨[('^', "%5E".toList), (' ', "%20".toList), ('%', "%25".toList), ('#', "%23".toList),
    ('?', "%3F".toList)]⟩

/-- `_QUERY_ESCAPES` -/
def queryEscapes : Dict Char (List Char) :=
  ⟨pathEscapes.items ++ [('+', "%2B".toList), ('&', "%26".toList), ('=', "%3D".toList)]⟩

/-- `_escape` -/
def escape (text : List Char) (table : Dict Char (List Char)) : List Char :=
  text.flatMap fun char => table.getD char [char]

/-- `text.rpartition(sep)`, without the separator. -/
def rpartition (sep : Char) (text : List Char) : List Char × List Char :=
  let (tail, head) := PyText.partition sep text.reverse
  ((head.getD []).reverse, tail.reverse)

/-- `_filename_parts` -/
def filenameParts (filename : List Char) : List Char × List Char :=
  let source := ".src.rpm".toList
  if source.isSuffixOf filename then (filename.take (filename.length - source.length), source)
  else if '.' ∈ filename then
    let (stem, extension) := rpartition '.' filename
    (stem, '.' :: extension)
  else (filename, [])

/-- What `text.replace(old, new)` leaves of a text, some characters of which belong to the
    last occurrence. -/
def replaceFrom (old new : List Char) : ℕ → List Char → List Char
  | _, [] => []
  | skip + 1, _ :: text => replaceFrom old new skip text
  | 0, char :: text =>
    if old.isPrefixOf (char :: text) then new ++ replaceFrom old new (old.length - 1) text
    else char :: replaceFrom old new 0 text

/-- `text.replace(old, new)` -/
def replace (old new text : List Char) : List Char := replaceFrom old new 0 text

/-- `"\x7b" + name + "\x7d"` -/
def placeholder (name : String) : List Char :=
  Char.ofNat 123 :: (name.toList ++ [Char.ofNat 125])

/-- What a rule fetches: a file under a digest. -/
structure Download where
  target : String
  location : String
  sha256 : String
  repo : String

def Download.ofRpm (entry : RpmEntry) : Download :=
  ⟨entry.target, entry.location, entry.sha256, entry.repo⟩

def Download.ofSource (entry : SourceEntry) : Download :=
  ⟨entry.target, entry.location, entry.sha256, entry.repo⟩

/-- `entry["location"].split("/")[-1]` -/
def filenameOf (location : List Char) : List Char := ((location.splitOn '/').getLast?).getD []

/-- `"[buckos." + flavor + "] "` -/
def sectionOf (flavor : Flavor) : String := "[buckos." ++ flavor.text ++ "] "

/-- `_render_package_url` -/
def renderPackageUrl (flavor : Flavor) (template : List Char) (data : ReleaseData)
    (entry : Download) : Except String (List Char) :=
  if PyText.find? (placeholder "sha256") template = none then
    .error (sectionOf flavor ++ "package_url_template must contain " ++
      String.ofList (placeholder "sha256"))
  else
    let filename := filenameOf entry.location.toList
    let (stem, extension) := filenameParts filename
    let replacements : List (List Char × List Char) :=
      [(placeholder "ext", escape extension pathEscapes),
        (placeholder "filename", escape filename pathEscapes),
        (placeholder "release", escape data.release pathEscapes),
        (placeholder "sha256", entry.sha256.toList),
        (placeholder "sha256_12", entry.sha256.toList.take 12),
        (placeholder "stem", escape stem pathEscapes)]
    let remaining := replacements.foldl (fun text item => replace item.1 [] text) template
    if Char.ofNat 123 ∈ remaining ∨ Char.ofNat 125 ∈ remaining then
      .error (sectionOf flavor ++ "package_url_template contains an unsupported placeholder: " ++
        String.ofList template)
    else .ok (replacements.foldl (fun text item => replace item.1 item.2 text) template)

/-- `_download_url` -/
def downloadUrl (flavor : Flavor) (config : LocalConfig) (data : ReleaseData)
    (entry : Download) : Except String (List Char) :=
  if config.packageUrlTemplate ≠ [] then
    if config.blobBase ≠ [] ∨ config.mirrorBase ≠ [] then
      .error (sectionOf flavor ++
        "package_url_template cannot be combined with blob_base or mirror_base")
    else renderPackageUrl flavor config.packageUrlTemplate data entry
  else if config.blobBase ≠ [] then
    .ok (config.blobBase ++ '/' :: entry.sha256.toList ++
      '/' :: escape (filenameOf entry.location.toList) pathEscapes ++ "?release=".toList ++
      data.release ++ "&location=".toList ++ escape entry.location.toList queryEscapes)
  else
    let base := (data.repoBase.getD entry.repo "").toList
    if base = [] then
      .error (flavor.text ++ " " ++ String.ofList data.release ++
        ": lockfile records no base URL for repo " ++
        (if entry.repo = "" then "(unattributed)" else entry.repo) ++
        ", so there is nowhere to fetch " ++ entry.location ++
        " from. Re-solve with --binary-base/--source-base, or set " ++ sectionOf flavor ++
        "package_url_template or blob_base.")
    else
      let lead := mirrorFrom flavor
      let base :=
        if config.mirrorBase ≠ [] ∧ lead.isPrefixOf base then
          config.mirrorBase ++ base.drop lead.length
        else base
      .ok (base ++ '/' :: escape entry.location.toList pathEscapes)

/-! ## One rule for every pin -/

/-- An `http_file` rule. -/
structure HttpFile where
  name : List Char
  url : List Char
  sha256 : String

/-- The rules that are defined, in order, and `defined`. -/
structure Defined where
  files : List HttpFile := []
  sha256 : Dict (List Char) String := Dict.empty

/-- `_rpm_download` -/
def rpmDownload (flavor : Flavor) (config : LocalConfig) (data : ReleaseData)
    (suffix : List Char) (defined : Defined) (entry : Download) : Except String Defined :=
  let name := entry.target.toList ++ suffix
  match defined.sha256.get? name with
  | some sha256 =>
    if sha256 ≠ entry.sha256 then
      .error (String.ofList name ++ ": two different pins for the same rpm (" ++ sha256 ++
        " and " ++ entry.sha256 ++ ")")
    else .ok defined
  | none => do
    let url ← downloadUrl flavor config data entry
    return ⟨defined.files ++ [⟨name, url, entry.sha256⟩], defined.sha256.set name entry.sha256⟩

/-- The pins of a release, in the order they are gone over. -/
def downloads (data : ReleaseData) : List Download :=
  data.seedRpms.map Download.ofRpm ++ data.variantSeedRpms.map Download.ofRpm ++
    (PyText.sortedSet data.imageSets.keys).flatMap (fun name =>
      (data.imageSets.getD name []).map Download.ofRpm) ++
    data.sourceRpms.map Download.ofSource

/-- `rpm_downloads` -/
def rpmDownloads (flavor : Flavor) (config : LocalConfig) (data : ReleaseData)
    (suffix : List Char) : Except String (List HttpFile) :=
  ((downloads data).foldlM (rpmDownload flavor config data suffix) {}).map Defined.files

/-! ## What is defined -/

/-- The rules after some of the pins: one for each target, at its digest. -/
structure Downloaded (suffix : List Char) (done : List Download) (defined : Defined) : Prop where
  recorded : ∀ name sha256, defined.sha256.get? name = some sha256 ↔
    ∃ url, ⟨name, url, sha256⟩ ∈ defined.files
  nodup : (defined.files.map HttpFile.name).Nodup
  pinned : ∀ entry ∈ done,
    defined.sha256.get? (entry.target.toList ++ suffix) = some entry.sha256

section Downloaded

variable {flavor : Flavor} {config : LocalConfig} {data : ReleaseData} {suffix : List Char}
  {files : List HttpFile}

theorem downloaded_step {done : List Download} {entry : Download} {defined defined' : Defined}
    (h : Downloaded suffix done defined)
    (hstep : rpmDownload flavor config data suffix defined entry = .ok defined') :
    Downloaded suffix (done ++ [entry]) defined' := by
  unfold rpmDownload at hstep
  dsimp only at hstep
  cases hget : defined.sha256.get? (entry.target.toList ++ suffix) with
  | some sha256 =>
    rw [hget] at hstep
    dsimp only at hstep
    split_ifs at hstep with hsame
    obtain rfl := Except.ok.inj hstep
    refine ⟨h.recorded, h.nodup, fun e he => ?_⟩
    rcases List.mem_append.mp he with he | he
    · exact h.pinned e he
    · rw [List.mem_singleton.mp he, hget, not_not.mp hsame]
  | none =>
    rw [hget] at hstep
    obtain ⟨url, _, hstep⟩ := Lists.exists_of_bind hstep
    obtain rfl := Except.ok.inj hstep
    have hnew : entry.target.toList ++ suffix ∉ defined.files.map HttpFile.name := by
      intro hmem
      obtain ⟨file, hfile, hname⟩ := List.mem_map.mp hmem
      have hrecorded := (h.recorded file.name file.sha256).mpr ⟨file.url, hfile⟩
      rw [hname, hget] at hrecorded
      exact absurd hrecorded.symm (Option.some_ne_none _)
    refine ⟨fun name sha256 => ?_, ?_, fun e he => ?_⟩
    · dsimp only
      rw [Dict.get?_set]
      simp only [List.mem_append, List.mem_singleton, HttpFile.mk.injEq]
      split_ifs with hname
      · rw [Option.some.injEq]
        constructor
        · intro heq
          exact ⟨url, .inr ⟨hname, rfl, heq.symm⟩⟩
        · intro hex
          obtain ⟨url', hfile | ⟨_, _, heq⟩⟩ := hex
          · exact absurd (List.mem_map.mpr ⟨_, hfile, hname⟩) hnew
          · exact heq.symm
      · rw [h.recorded]
        constructor
        · intro hex
          obtain ⟨url', hfile⟩ := hex
          exact ⟨url', .inl hfile⟩
        · intro hex
          obtain ⟨url', hfile | ⟨heq, _⟩⟩ := hex
          · exact ⟨url', hfile⟩
          · exact absurd heq hname
    · dsimp only
      rw [List.map_append, List.map_singleton]
      exact h.nodup.append (List.nodup_singleton _) (List.disjoint_singleton.mpr hnew)
    · dsimp only
      rw [Dict.get?_set]
      split_ifs with hname
      · rcases List.mem_append.mp he with he | he
        · have hpinned := h.pinned e he
          rw [hname, hget] at hpinned
          exact absurd hpinned.symm (Option.some_ne_none _)
        · rw [List.mem_singleton.mp he]
      · rcases List.mem_append.mp he with he | he
        · exact h.pinned e he
        · exact absurd (by rw [List.mem_singleton.mp he]) hname

/-- Every pin is fetched by the one rule of its name, which checks its digest. -/
theorem downloaded_rpmDownloads (h : rpmDownloads flavor config data suffix = .ok files) :
    (files.map HttpFile.name).Nodup ∧ ∀ entry ∈ downloads data,
      ∃ url, ⟨entry.target.toList ++ suffix, url, entry.sha256⟩ ∈ files := by
  unfold rpmDownloads at h
  cases hloop : (downloads data).foldlM (rpmDownload flavor config data suffix) {} with
  | error exc =>
    rw [hloop] at h
    exact absurd h (by intro h; cases h)
  | ok defined =>
    rw [hloop] at h
    obtain rfl := Except.ok.inj h
    have hdone : Downloaded suffix (downloads data) defined := by
      apply Lists.foldlM_invariant (Downloaded suffix) _ _ hloop
      · intro done entry defined defined' hinv hstep
        exact downloaded_step hinv hstep
      · refine ⟨fun name sha256 => ⟨fun hget => ?_, fun hex => ?_⟩, List.nodup_nil,
          fun entry he => absurd he List.not_mem_nil⟩
        · exact absurd hget.symm (Option.some_ne_none _)
        · obtain ⟨_, hfile⟩ := hex
          exact absurd hfile List.not_mem_nil
    exact ⟨hdone.nodup, fun entry he => (hdone.recorded _ _).mp (hdone.pinned entry he)⟩

end Downloaded

end BuckosDistro.Family
