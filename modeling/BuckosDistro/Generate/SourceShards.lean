/-
  Source records in files of bounded size (`tools/deb_generate.py`, `bzl_literal` and
  `_source_shards`).

  A shard is measured by the text that is written for it. `repr` of a float is a parameter, as
  it is in `json.dumps`.
-/
import BuckosDistro.Lib.Json
import BuckosDistro.Lib.Packing
import BuckosDistro.Lib.Raise

namespace BuckosDistro.Generate

open BuckosDistro.Lib

/-! ## Literals -/

/-- The separators of `json.dumps` without arguments. -/
def defaultSeparators : Json.Separators := ⟨", ".toList, ": ".toList⟩

def spaces (n : ℕ) : List Char := List.replicate n ' '

/-- A bracket, one line for each part, and the closing bracket. -/
def block (opening closing : Char) (indent : ℕ) (lines : List (List Char)) : List Char :=
  [opening, '\n'] ++ ['\n'].intercalate lines ++ ['\n'] ++ spaces indent ++ [closing]

mutual

/-- `bzl_literal` -/
def bzlLiteral (floatRepr : ℚ → List Char) : Json → ℕ → List Char
  | .bool b, _ => if b then "True".toList else "False".toList
  | .null, _ => "None".toList
  | .obj fields, indent =>
    if fields.isEmpty then "{}".toList
    else block (Char.ofNat 123) (Char.ofNat 125) indent
      ((Json.sortFields (bzlFields floatRepr fields (indent + 4))).map fun field =>
        spaces (indent + 4) ++ Json.quote field.1 ++ ": ".toList ++ field.2 ++ [','])
  | .arr items, indent =>
    if items.isEmpty then "[]".toList
    else block '[' ']' indent ((bzlItems floatRepr items (indent + 4)).map fun item =>
      spaces (indent + 4) ++ item ++ [','])
  | value, _ => Json.dumps floatRepr defaultSeparators value

def bzlItems (floatRepr : ℚ → List Char) : List Json → ℕ → List (List Char)
  | [], _ => []
  | item :: items, indent => bzlLiteral floatRepr item indent :: bzlItems floatRepr items indent

def bzlFields (floatRepr : ℚ → List Char) :
    List (String × Json) → ℕ → List (String × List Char)
  | [], _ => []
  | (key, value) :: fields, indent =>
    (key, bzlLiteral floatRepr value indent) :: bzlFields floatRepr fields indent

end

/-! ## Shards -/

/-- `_source_shard_content` -/
def sourceShardContent (floatRepr : ℚ → List Char) (sources : List Json) : List Char :=
  ['\n'].intercalate [
    "# @generated by tools/deb_generate.py. Do not edit by hand.".toList,
    [],
    "SOURCES = ".toList ++ bzlLiteral floatRepr (.arr sources) 0,
    []]

/-- `len(_source_shard_content(sources).encode("utf-8"))` -/
def sourceShardSize (floatRepr : ℚ → List Char) (sources : List Json) : ℕ :=
  (String.ofList (sourceShardContent floatRepr sources)).utf8ByteSize

/-- `GENERATED_SHARD_LIMIT` -/
def generatedShardLimit : ℕ := 4000000

/-- `limit or GENERATED_SHARD_LIMIT` -/
def shardLimit (limit : Option ℕ) : ℕ :=
  match limit with
  | none | some 0 => generatedShardLimit
  | some limit => limit

/-- The body of the loop over the sources. -/
def shardStep (floatRepr : ℚ → List Char) (limit : ℕ) (bins : Packing.Bins Json)
    (source : Json) : Except String (Packing.Bins Json) := do
  let bins := Packing.place (sourceShardSize floatRepr) limit bins source
  let size := sourceShardSize floatRepr bins.current
  raiseIf (limit ≤ size) ("one source record generates " ++ toString size ++
    " bytes, exceeding the " ++ toString limit ++ " byte shard limit")
  return bins

/-- `_source_shards` -/
def sourceShards (floatRepr : ℚ → List Char) (sources : List Json) (limit : Option ℕ) :
    Except String (List (List Json)) := do
  let bins ← sources.foldlM (shardStep floatRepr (shardLimit limit)) ⟨[], []⟩
  return Packing.finish bins

/-! ## What a shard measures -/

section Size

variable (floatRepr : ℚ → List Char)

def utf8Size (text : List Char) : ℕ := (String.ofList text).utf8ByteSize

theorem utf8Size_append (xs ys : List Char) : utf8Size (xs ++ ys) = utf8Size xs + utf8Size ys := by
  unfold utf8Size
  rw [String.ofList_append, String.utf8ByteSize_append]

theorem utf8Size_intercalate_last (sep : List Char) (parts : List (List Char)) (last : List Char) :
    utf8Size last ≤ utf8Size (sep.intercalate (parts ++ [last])) := by
  induction parts with
  | nil => rw [List.nil_append, List.intercalate_singleton]
  | cons part parts ih =>
    have hne : parts ++ [last] ≠ [] := List.append_ne_nil_of_right_ne_nil _ (List.cons_ne_nil _ _)
    obtain ⟨next, rest, hrest⟩ := List.exists_cons_of_ne_nil hne
    rw [hrest] at ih
    rw [List.cons_append, hrest, List.intercalate_cons_cons, utf8Size_append, utf8Size_append]
    omega

theorem bzlItems_append (xs ys : List Json) (indent : ℕ) : bzlItems floatRepr (xs ++ ys) indent =
    bzlItems floatRepr xs indent ++ bzlItems floatRepr ys indent := by
  induction xs with
  | nil => simp [bzlItems]
  | cons x xs ih => simp [bzlItems, ih]

theorem bzlLiteral_arr {items : List Json} (hne : items ≠ []) (indent : ℕ) :
    bzlLiteral floatRepr (.arr items) indent =
      block '[' ']' indent ((bzlItems floatRepr items (indent + 4)).map fun item =>
        spaces (indent + 4) ++ item ++ [',']) := by
  rw [bzlLiteral, if_neg (by simpa using hne)]

/-- A shard is no smaller than its last record alone. -/
theorem sourceShardSize_last (sources : List Json) (source : Json) :
    sourceShardSize floatRepr [source] ≤ sourceShardSize floatRepr (sources ++ [source]) := by
  have hne : sources ++ [source] ≠ [] := List.append_ne_nil_of_right_ne_nil _ (List.cons_ne_nil _ _)
  show utf8Size (sourceShardContent floatRepr [source]) ≤
    utf8Size (sourceShardContent floatRepr (sources ++ [source]))
  unfold sourceShardContent
  rw [bzlLiteral_arr floatRepr (List.cons_ne_nil source []), bzlLiteral_arr floatRepr hne,
    bzlItems_append, List.map_append]
  have hone : bzlItems floatRepr [source] (0 + 4) = [bzlLiteral floatRepr source (0 + 4)] := by
    rw [bzlItems, bzlItems]
  rw [hone, List.map_singleton]
  have hlines := utf8Size_intercalate_last ['\n']
    ((bzlItems floatRepr sources (0 + 4)).map fun item => spaces (0 + 4) ++ item ++ [','])
    (spaces (0 + 4) ++ bzlLiteral floatRepr source (0 + 4) ++ [','])
  simp only [List.intercalate_cons_cons, List.intercalate_singleton, utf8Size_append, block]
    at hlines ⊢
  omega

end Size

/-! ## The partition -/

section Partition

variable {floatRepr : ℚ → List Char} {limit : ℕ} {sources taken : List Json}
  {bins bins' : Packing.Bins Json}

theorem shardStep_ok_iff {source : Json} : shardStep floatRepr limit bins source = .ok bins' ↔
    sourceShardSize floatRepr [source] < limit ∧
      Packing.place (sourceShardSize floatRepr) limit bins source = bins' := by
  have hsize := @Packing.size_place_lt _ _ limit (sourceShardSize_last floatRepr) bins source
  unfold shardStep
  simp only [Raise.bind_ok, Raise.raiseIf_ok, Raise.pure_ok, exists_const, not_le, hsize]

theorem foldlM_shardStep_iff : sources.foldlM (shardStep floatRepr limit) bins = .ok bins' ↔
    (∀ source ∈ sources, sourceShardSize floatRepr [source] < limit) ∧
      sources.foldl (Packing.place (sourceShardSize floatRepr) limit) bins = bins' := by
  induction sources generalizing bins with
  | nil => simp [Raise.pure_ok]
  | cons source sources ih =>
    rw [List.foldlM_cons, Raise.bind_ok]
    simp only [shardStep_ok_iff, ih, List.forall_mem_cons, List.foldl_cons]
    constructor
    · rintro ⟨_, ⟨hsource, hplace⟩, hsources, hfold⟩
      exact ⟨⟨hsource, hsources⟩, by rw [hplace, hfold]⟩
    · rintro ⟨⟨hsource, hsources⟩, hfold⟩
      exact ⟨_, ⟨hsource, rfl⟩, hsources, hfold⟩

theorem sourceShards_ok_iff {shards : List (List Json)} {given : Option ℕ} :
    sourceShards floatRepr sources given = .ok shards ↔
      (∀ source ∈ sources, sourceShardSize floatRepr [source] < shardLimit given) ∧
        Packing.finish (sources.foldl (Packing.place (sourceShardSize floatRepr)
          (shardLimit given)) ⟨[], []⟩) = shards := by
  unfold sourceShards
  simp only [Raise.bind_ok, Raise.pure_ok, foldlM_shardStep_iff]
  constructor
  · rintro ⟨_, ⟨hsources, hfold⟩, hshards⟩
    exact ⟨hsources, by rw [hfold, hshards]⟩
  · rintro ⟨hsources, hshards⟩
    exact ⟨_, ⟨hsources, rfl⟩, hshards⟩

end Partition

/-- **Shards partition the sources.** A record that alone reaches the limit is refused, and
    nothing else is; otherwise the shards hold the sources in order, none empty, each below
    the limit, and none with room for the first record of the next. -/
theorem sourceShards_partition (floatRepr : ℚ → List Char) (sources : List Json) (limit : ℕ)
    (hlimit : 0 < limit) :
    ((∃ text, sourceShards floatRepr sources (some limit) = .error text) ↔
      ∃ source ∈ sources, limit ≤ sourceShardSize floatRepr [source]) ∧
    ∀ shards, sourceShards floatRepr sources (some limit) = .ok shards →
      shards.flatten = sources ∧ (∀ shard ∈ shards, shard ≠ []) ∧
      (∀ shard ∈ shards, sourceShardSize floatRepr shard < limit) ∧
      shards.IsChain fun shard next => ∀ first ∈ next.head?,
        limit ≤ sourceShardSize floatRepr (shard ++ [first]) := by
  have hgiven : shardLimit (some limit) = limit := by
    obtain ⟨n, rfl⟩ := Nat.exists_eq_succ_of_ne_zero hlimit.ne'
    rfl
  have hok := @sourceShards_ok_iff floatRepr sources
  constructor
  · constructor
    · intro ⟨text, htext⟩
      by_contra hsmall
      have hfits : ∀ source ∈ sources, sourceShardSize floatRepr [source] < limit :=
        fun source hsource => not_le.mp fun hle => hsmall ⟨source, hsource, hle⟩
      have hshards := hok.mpr ⟨by rwa [hgiven], rfl⟩
      rw [htext] at hshards
      cases hshards
    · intro ⟨source, hsource, hle⟩
      cases hresult : sourceShards floatRepr sources (some limit) with
      | error text => exact ⟨text, rfl⟩
      | ok shards =>
        have hlt := (hok.mp hresult).1 source hsource
        rw [hgiven] at hlt
        omega
  · intro shards hresult
    obtain ⟨hfits, hshards⟩ := hok.mp hresult
    rw [hgiven] at hfits hshards
    have hpacked := (Packing.InHand.start.foldl hfits).finish
    rw [List.nil_append, hshards] at hpacked
    exact ⟨hpacked.flatten, hpacked.nonempty, hpacked.fits, hpacked.full⟩

/-- A source record of which only the name is given. -/
def namedSource (name : String) : Json := .obj [("name", .str name)]

/-- Two records fill a shard, and the third gets its own. -/
theorem sourceShards_partition_hello : ∃ shards,
    sourceShards (fun _ => []) (["hello", "sed", "tar"].map namedSource) (some 160) = .ok shards ∧
      shards.length = 2 ∧ shards.flatten = ["hello", "sed", "tar"].map namedSource ∧
      (∀ shard ∈ shards, sourceShardSize (fun _ => []) shard < 160) ∧
      shards.IsChain fun shard next => ∀ first ∈ next.head?,
        160 ≤ sourceShardSize (fun _ => []) (shard ++ [first]) := by
  obtain ⟨_, hpartition⟩ := sourceShards_partition (fun _ => [])
    (["hello", "sed", "tar"].map namedSource) 160 (by decide)
  have hlength : (sourceShards (fun _ => []) (["hello", "sed", "tar"].map namedSource)
      (some 160)).map List.length = .ok 2 := by
    decide +kernel
  cases hresult : sourceShards (fun _ => []) (["hello", "sed", "tar"].map namedSource)
      (some 160) with
  | error text =>
    rw [hresult] at hlength
    cases hlength
  | ok shards =>
    rw [hresult] at hlength
    obtain ⟨hflatten, _, hfits, hfull⟩ := hpartition shards hresult
    exact ⟨shards, rfl, Except.ok.inj hlength, hflatten, hfits, hfull⟩

end BuckosDistro.Generate
