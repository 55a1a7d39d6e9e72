/-
  Digests, and the names of the blobs they give.

  The validator reads a digest as `_sha256` does, the other tool by a pattern. Both mean the
  prefix `sha256:` with 64 hexadecimal characters after it.
-/
import BuckosDistro.Oci.Acquire
import BuckosDistro.Oci.Checks

namespace BuckosDistro.Oci

open BuckosDistro.Lib
open BuckosDistro.Lib.Raise

/-- What stands after the prefix of a digest. -/
structure Hex (hex : List Char) : Prop where
  length : hex.length = 64
  all : hex.all isHex = true

theorem isDigest_iff {text : List Char} :
    isDigest text = true ↔ ∃ hex, text = sha256Prefix.toList ++ hex ∧ Hex hex := by
  unfold isDigest
  rw [decide_eq_true_iff]
  constructor
  · rintro ⟨⟨hex, rfl⟩, hlength, hall⟩
    rw [List.drop_left] at hlength hall
    exact ⟨hex, rfl, hlength, hall⟩
  · rintro ⟨hex, rfl, h⟩
    rw [List.drop_left]
    exact ⟨List.prefix_append _ _, h.length, h.all⟩

theorem removePrefix_append (pre : String) (rest : List Char) :
    removePrefix pre (String.ofList (pre.toList ++ rest)) = String.ofList rest := by
  unfold removePrefix
  rw [String.toList_ofList, if_pos (List.prefix_append _ _), List.drop_left]

/-- The text of a digest. -/
theorem digest_eq {text : String} (h : isDigest text.toList = true) :
    ∃ hex, text = String.ofList (sha256Prefix.toList ++ hex) ∧ Hex hex := by
  obtain ⟨hex, htext, hhex⟩ := isDigest_iff.mp h
  exact ⟨hex, by rw [← htext, String.ofList_toList], hhex⟩

/-! ## Descriptors -/

@[simp] theorem string_ok {value : Json} {label text : String} :
    string value label = .ok text ↔ value = .str text ∧ text ≠ "" := by
  unfold string
  split
  · rename_i given
    split_ifs with hempty
    · refine ⟨fun h => (nomatch h), fun h => ?_⟩
      exact absurd (Json.str.inj h.1 ▸ hempty) h.2
    · constructor
      · intro h
        rw [← Except.ok.inj h]
        exact ⟨rfl, hempty⟩
      · intro h
        rw [Json.str.inj h.1]
  · rename_i hne
    exact ⟨fun h => (nomatch h), fun h => absurd h.1 (hne text)⟩

theorem sha256_ok {value : Json} {label text : String} :
    sha256 value label true = .ok text ↔ value = .str text ∧ isDigest text.toList = true := by
  unfold sha256
  simp only [bind_ok, string_ok, raiseIf_ok, pure_ok, exists_const, if_true, true_and, not_not,
    not_or]
  constructor
  · rintro ⟨given, ⟨rfl, _⟩, ⟨hlength, hall⟩, ⟨hex, hhex⟩, rfl⟩
    refine ⟨rfl, isDigest_iff.mpr ⟨hex, hhex.symm, ?_⟩⟩
    rw [← String.ofList_toList (s := given), ← hhex, removePrefix_append] at hlength hall
    rw [String.length_ofList] at hlength
    rw [String.toList_ofList] at hall
    exact ⟨hlength, hall⟩
  · rintro ⟨rfl, h⟩
    obtain ⟨hex, rfl, hhex⟩ := digest_eq h
    refine ⟨_, ⟨rfl, fun hempty => ?_⟩, ⟨?_, ?_⟩, ?_, rfl⟩
    · rw [hempty] at h
      cases h
    · rw [removePrefix_append, String.length_ofList]
      exact hhex.length
    · rw [removePrefix_append, String.toList_ofList]
      exact hhex.all
    · rw [String.toList_ofList]
      exact List.prefix_append _ _

theorem positiveSize_ok {value : Json} {label : String} {n : ℕ} :
    positiveSize value label = .ok n ↔ value = .int n ∧ 0 < n := by
  unfold positiveSize size
  simp only [bind_ok, raiseIf_ok, pure_ok, exists_const]
  constructor
  · rintro ⟨m, hm, hpos, rfl⟩
    split at hm
    · rename_i k
      split_ifs at hm with hneg
      have hk : ((k.toNat : ℕ) : ℤ) = k := Int.toNat_of_nonneg (not_lt.mp hneg)
      rw [← Except.ok.inj hm, hk]
      refine ⟨rfl, ?_⟩
      have := Except.ok.inj hm
      omega
    · cases hm
  · rintro ⟨rfl, hpos⟩
    refine ⟨n, ?_, by omega, rfl⟩
    show (if (n : ℤ) < 0 then _ else Except.ok (n : ℤ).toNat) = .ok n
    rw [if_neg (by omega), Int.toNat_natCast]

/-- The record of a descriptor. -/
structure Describes (record : Fields) (descriptor : Descriptor) : Prop where
  digest : getKey record "digest" = .str descriptor.digest
  isDigest : isDigest descriptor.digest.toList = true
  size : getKey record "size" = .int descriptor.size
  positive : 0 < descriptor.size
  mediaType : getKey record "mediaType" = .str descriptor.mediaType
  nonempty : descriptor.mediaType ≠ ""

theorem ociDescriptor_ok {value : Json} {label : String} {descriptor : Descriptor} :
    ociDescriptor value label = .ok descriptor ↔
      ∃ record, value = .obj record ∧ Describes record descriptor := by
  unfold ociDescriptor
  simp only [bind_ok, object_ok, sha256_ok, positiveSize_ok, string_ok, pure_ok]
  constructor
  · rintro ⟨record, rfl, digest, ⟨h1, h2⟩, size, ⟨h3, h4⟩, mediaType, ⟨h5, h6⟩, rfl⟩
    exact ⟨record, rfl, h1, h2, h3, h4, h5, h6⟩
  · rintro ⟨record, rfl, h⟩
    exact ⟨record, rfl, _, ⟨h.digest, h.isDigest⟩, _, ⟨h.size, h.positive⟩, _,
      ⟨h.mediaType, h.nonempty⟩, rfl⟩

theorem registryDigest_ok {value : Json} {label text : String} :
    registryDigest value label = .ok text ↔ value = .str text ∧ isDigest text.toList = true := by
  unfold registryDigest
  split
  · rename_i given
    split_ifs with hdigest
    · constructor
      · intro h
        rw [← Except.ok.inj h]
        exact ⟨rfl, hdigest⟩
      · intro h
        rw [Json.str.inj h.1]
    · exact ⟨fun h => (nomatch h), fun h => absurd (Json.str.inj h.1 ▸ h.2) hdigest⟩
  · rename_i hne
    exact ⟨fun h => (nomatch h), fun h => absurd h.1 (hne text)⟩

theorem registrySize_ok {value : Json} {label : String} {n : ℕ} :
    registrySize value label = .ok n ↔ value = .int n ∧ 0 < n := by
  unfold registrySize
  split
  · rename_i k
    split_ifs with hk
    · refine ⟨fun h => (nomatch h), fun h => ?_⟩
      have := Json.int.inj h.1
      omega
    · have hcast : ((k.toNat : ℕ) : ℤ) = k := Int.toNat_of_nonneg (by omega)
      constructor
      · intro h
        rw [← Except.ok.inj h, hcast]
        exact ⟨rfl, by omega⟩
      · intro h
        rw [Json.int.inj h.1, Int.toNat_natCast]
  · rename_i hne
    exact ⟨fun h => (nomatch h), fun h => absurd h.1 (hne n)⟩

/-- Both tools read a descriptor alike. -/
theorem registryDescriptor_ok {value : Json} {label : String} {descriptor : Descriptor} :
    registryDescriptor value label = .ok descriptor ↔
      ∃ record, value = .obj record ∧ Describes record descriptor := by
  unfold registryDescriptor
  simp only [bind_ok, object_ok, registryDigest_ok, registrySize_ok, string_ok, pure_ok]
  constructor
  · rintro ⟨record, rfl, digest, ⟨h1, h2⟩, size, ⟨h3, h4⟩, mediaType, ⟨h5, h6⟩, rfl⟩
    exact ⟨record, rfl, h1, h2, h3, h4, h5, h6⟩
  · rintro ⟨record, rfl, h⟩
    exact ⟨record, rfl, _, ⟨h.digest, h.isDigest⟩, _, ⟨h.size, h.positive⟩, _,
      ⟨h.mediaType, h.nonempty⟩, rfl⟩

/-! ## Blobs -/

theorem blobName_ofList (hex : List Char) :
    blobName (String.ofList (sha256Prefix.toList ++ hex)) =
      String.ofList ("blobs/sha256/".toList ++ hex) := by
  unfold blobName
  rw [removePrefix_append, String.ofList_append, String.ofList_toList]

/-- Digests with the same blob are the same. -/
theorem blobName_inj {digest digest' : String} (h : isDigest digest.toList = true)
    (h' : isDigest digest'.toList = true) (he : blobName digest = blobName digest') :
    digest = digest' := by
  obtain ⟨hex, rfl, _⟩ := digest_eq h
  obtain ⟨hex', rfl, _⟩ := digest_eq h'
  rw [blobName_ofList, blobName_ofList] at he
  rw [List.append_cancel_left (String.ofList_injective he)]

/-- The name of a blob is its own normal form. -/
theorem normalize_blobName {digest : String} (h : isDigest digest.toList = true) :
    normalizeMemberName (blobName digest) = .ok (blobName digest) := by
  obtain ⟨hex, rfl, hhex⟩ := digest_eq h
  rw [blobName_ofList]
  have hne : hex ≠ [] := List.ne_nil_of_length_pos (by rw [hhex.length]; omega)
  have hchar : ∀ c ∈ hex, isHex c = true := List.all_eq_true.mp hhex.all
  have hslash : '/' ∉ hex := fun hmem => absurd (hchar _ hmem) (by decide)
  have hback : PyText.backslash ∉ hex := fun hmem => absurd (hchar _ hmem) (by decide)
  have hstart : "blobs/sha256/".toList = ['b', 'l', 'o', 'b', 's', '/', 's', 'h', 'a', '2', '5',
      '6', '/'] := String.toList_ofList
  have hblobs : "blobs".toList = ['b', 'l', 'o', 'b', 's'] := String.toList_ofList
  have hsha : "sha256".toList = ['s', 'h', 'a', '2', '5', '6'] := String.toList_ofList
  have hparts : ("blobs/sha256/".toList ++ hex).splitOn '/' =
      ["blobs".toList, "sha256".toList, hex] := by
    have hjoin : "blobs/sha256/".toList ++ hex =
        ['/'].intercalate ["blobs".toList, "sha256".toList, hex] := by
      rw [hstart, hblobs, hsha, List.intercalate_cons_cons, List.intercalate_cons_cons,
        List.intercalate_singleton]
      rfl
    rw [hjoin]
    refine List.splitOn_intercalate '/' (fun part hpart => ?_) (List.cons_ne_nil _ _)
    rcases List.mem_cons.mp hpart with hp | hpart
    · rw [hp]
      decide
    · rcases List.mem_cons.mp hpart with hp | hpart
      · rw [hp]
        decide
      · rw [List.mem_singleton.mp hpart]
        exact hslash
  have hlast : ("blobs/sha256/".toList ++ hex).getLast? ≠ some '/' := by
    rw [List.getLast?_append_of_ne_nil _ hne]
    exact fun h => hslash (List.mem_of_getLast? h)
  have hdrop : dropDotSlash ("blobs/sha256/".toList ++ hex) = "blobs/sha256/".toList ++ hex := by
    rw [hstart]
    rfl
  unfold normalizeMemberName
  simp only [String.toList_ofList, hdrop, if_neg hlast, hparts, bind_ok, raiseIf_ok, exists_const]
  refine ⟨?_, ?_, ?_⟩
  · rintro (hempty | hhead | hmem)
    · exact hne (List.append_eq_nil_iff.mp hempty).2
    · rw [hstart] at hhead
      cases hhead
    · rcases List.mem_append.mp hmem with hmem | hmem
      · rw [hstart] at hmem
        exact absurd hmem (by decide)
      · exact hback hmem
  · rintro (hempty | hpart)
    · exact hne (List.append_eq_nil_iff.mp hempty).2
    · obtain ⟨part, hmem, hcond⟩ := List.any_eq_true.mp hpart
      have hlong : 5 ≤ part.length := by
        rcases List.mem_cons.mp hmem with hp | hmem
        · rw [hp, hblobs]
          decide
        · rcases List.mem_cons.mp hmem with hp | hmem
          · rw [hp, hsha]
            decide
          · rw [List.mem_singleton.mp hmem, hhex.length]
            omega
      have hshort : part.length ≤ 2 := by
        rcases of_decide_eq_true hcond with hp | hp | hp
        · rw [hp]
          decide
        · rw [hp]
          decide
        · rw [hp]
          decide
      omega
  · by_cases hfixed : String.ofList ("blobs/sha256/".toList ++ hex) ∈
        ["oci-layout", "index.json", "blobs", "blobs/sha256"]
    · rw [if_pos hfixed]
      rfl
    · rw [if_neg hfixed, if_pos]
      · rfl
      · refine ⟨rfl, rfl, ?_⟩
        show (decide (hex.length = 64 ∧ hex.all isHex = true) && true) = true
        rw [decide_eq_true ⟨hhex.length, hhex.all⟩]
        rfl

end BuckosDistro.Oci
