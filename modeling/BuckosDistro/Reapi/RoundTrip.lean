/-
  The round trip through a store (`infra/remote-execution/scripts/reapi_readiness.py`,
  `check_cas_round_trip`, and the server of `reapi_readiness_test.py`).

  A fresh blob is asked for, written, asked for again and read back. Other clients may come
  between any two calls. The check passes on a server that did not have the blob and reads
  back what it was sent, and on no other (`checkCasRoundTrip_fake`).
-/
import BuckosDistro.Lib.Chunks
import BuckosDistro.Lib.Dict
import BuckosDistro.Lib.PyInt
import BuckosDistro.Reapi.Messages

namespace BuckosDistro.Reapi

open BuckosDistro.Lib

/-! ## Calls -/

/-- A call of a server in some state. The server has changed even if the call fails. -/
abbrev Call (σ α : Type) := ExceptT String (StateM σ) α

/-- `Transport`; an item of a stream may be an error, where the stream breaks off. -/
structure Transport (σ : Type) where
  unaryUnary : String → List UInt8 → Call σ (List UInt8)
  streamUnary : String → List (List UInt8) → Call σ (List UInt8)
  unaryStream : String → List UInt8 → Call σ (List (Except String (List UInt8)))

section Call

variable {σ α β : Type} {s s' : σ}

theorem Call.bind_ok {x : Call σ α} {a : α} (h : x s = (.ok a, s')) (f : α → Call σ β) :
    (x >>= f) s = f a s' := by
  show ExceptT.bindCont f (x s).1 (x s).2 = _
  rw [h]
  rfl

theorem Call.bind_error {x : Call σ α} {e : String} (h : x s = (.error e, s'))
    (f : α → Call σ β) : (x >>= f) s = (.error e, s') := by
  show ExceptT.bindCont f (x s).1 (x s).2 = _
  rw [h]
  rfl

end Call

/-- The calls of a client among others, which do what they do between any two of its own. -/
def Transport.among {σ : Type} (T : Transport σ) (others : ℕ → σ → σ) : Transport (σ × ℕ) where
  unaryUnary method request := fun s =>
    let (response, server) := T.unaryUnary method request (others s.2 s.1)
    (response, (server, s.2 + 1))
  streamUnary method requests := fun s =>
    let (response, server) := T.streamUnary method requests (others s.2 s.1)
    (response, (server, s.2 + 1))
  unaryStream method request := fun s =>
    let (responses, server) := T.unaryStream method request (others s.2 s.1)
    (responses, (server, s.2 + 1))

/-! ## The check -/

/-- `CAPABILITIES_METHOD` -/
def capabilitiesMethod : String := "/build.bazel.remote.execution.v2.Capabilities/GetCapabilities"

/-- `FIND_MISSING_METHOD` -/
def findMissingMethod : String :=
  "/build.bazel.remote.execution.v2.ContentAddressableStorage/FindMissingBlobs"

/-- `WRITE_METHOD` -/
def writeMethod : String := "/google.bytestream.ByteStream/Write"

/-- `READ_METHOD` -/
def readMethod : String := "/google.bytestream.ByteStream/Read"

/-- `MAX_BLOB_BYTES` -/
def maxBlobBytes : ℕ := 1024 * 1024

/-- What the check takes from the standard library: `secrets.token_bytes`,
    `hashlib.sha256(...).hexdigest` and `uuid.uuid4().hex`. -/
structure Library where
  tokenBytes : ℕ → List UInt8
  length_tokenBytes : ∀ n, (tokenBytes n).length = n
  hexdigest : List UInt8 → String
  isHex_hexdigest : ∀ data, isHex 64 (hexdigest data) = true
  uuid : String
  isHex_uuid : isHex 32 uuid = true

/-- What `check_cas_round_trip` returns. -/
structure RoundTrip where
  bytes : ℕ
  digest : String
  findMissingAfter : ℕ
  findMissingBefore : ℕ
  instanceName : String
deriving DecidableEq, Repr

/-- `_resource_prefix` -/
def resourcePrefix (instanceName : String) : String :=
  if instanceName = "" then "" else instanceName ++ "/"

/-- `write_resource` -/
def writeResource (instanceName uploadId digest : String) (size : ℕ) : String :=
  resourcePrefix instanceName ++ "uploads/" ++ uploadId ++ "/blobs/" ++ digest ++ "/" ++
    toString size

/-- `read_resource` -/
def readResource (instanceName digest : String) (size : ℕ) : String :=
  resourcePrefix instanceName ++ "blobs/" ++ digest ++ "/" ++ toString size

section Check

variable {σ : Type} (T : Transport σ) (library : Library)

/-- `_find_missing` -/
def findMissing (instanceName digest : String) (size : ℕ) : Call σ (List (String × ℕ)) := do
  let request ← encodeFindMissingRequest instanceName digest size
  let response ← T.unaryUnary findMissingMethod request
  decodeFindMissingResponse response

/-- The loop over the responses. -/
def download (size : ℕ) (responses : List (Except String (List UInt8))) :
    Except String (List UInt8) :=
  responses.foldlM (fun downloaded response => do
    let response ← response
    let chunk ← decodeReadResponse response
    let downloaded := downloaded ++ chunk
    raiseIf (size < downloaded.length) "ByteStream returned more data than requested"
    return downloaded) []

/-- `check_cas_round_trip` -/
def checkCasRoundTrip (instanceName : String) (blobBytes : ℤ) : Call σ RoundTrip := do
  raiseIf (blobBytes ≤ 0 ∨ maxBlobBytes < blobBytes)
    ("blob size must be between 1 and " ++ toString maxBlobBytes ++ " bytes")
  let blob := library.tokenBytes blobBytes.toNat
  let digest := library.hexdigest blob
  let identity := (digest, blob.length)
  let missingBefore ← findMissing T instanceName digest blob.length
  raiseIf (missingBefore ≠ [identity])
    "FindMissingBlobs did not report the fresh random blob as missing"
  let writeRequest ← encodeWriteRequest
    (writeResource instanceName library.uuid digest blob.length) blob
  let writeResponse ← T.streamUnary writeMethod [writeRequest]
  let committedSize ← decodeWriteResponse writeResponse
  raiseIf (committedSize ≠ blob.length)
    ("ByteStream committed " ++ toString committedSize ++ " bytes, expected " ++
      toString blob.length)
  let missingAfter ← findMissing T instanceName digest blob.length
  raiseIf (missingAfter ≠ []) "FindMissingBlobs still reports the uploaded blob missing"
  let readRequest ← encodeReadRequest (readResource instanceName digest blob.length) blob.length
  let responses ← T.unaryStream readMethod readRequest
  let downloaded ← download blob.length responses
  raiseIf (library.hexdigest downloaded ≠ digest ∨ downloaded ≠ blob)
    "ByteStream read-back content or digest differs"
  return ⟨blob.length, digest, 0, 1, instanceName⟩

end Check

/-! ## The server -/

structure FakeReapiServer where
  capabilities : List UInt8
  blobs : Dict (String × ℤ) (List UInt8)
  calls : List String
  corruptReads : Bool

/-- `_resource_identity` -/
def resourceIdentity (resourceName : String) : Except String (String × ℤ) :=
  match (resourceName.toList.splitOn '/').dropWhile (· ≠ "blobs".toList) with
  | _ :: digest :: size :: _ => do
    let size ← needed (PyInt.int? size) "malformed resource name"
    return (String.ofList digest, size)
  | _ => .error "malformed resource name"

namespace FakeReapiServer

variable (server : FakeReapiServer)

/-- `self.calls.append(method)` -/
def called (method : String) : FakeReapiServer := { server with calls := server.calls ++ [method] }

/-- What `unary_unary` answers. -/
def answer (method : String) (request : List UInt8) : Except String (List UInt8) := do
  let fields ← parseFields request
  if method = capabilitiesMethod then do
    let name ← oneBytes fields 1 "instance"
    let name ← decodeText name "instance"
    raiseIf (name ≠ "main") "wrong capabilities instance"
    return server.capabilities
  else if method = findMissingMethod then do
    let name ← oneBytes fields 1 "instance"
    let name ← decodeText name "instance"
    raiseIf (name ≠ "main") "wrong CAS instance"
    let digest ← oneBytes fields 2 "blob digest"
    let digest ← decodeDigest digest
    if (digest.1, (digest.2 : ℤ)) ∈ server.blobs.keys then return []
    else
      let identity ← encodeDigest digest.1 digest.2
      encodeBytes 2 identity
  else .error ("unexpected unary method: " ++ method)

/-- What `stream_unary` answers, and the blobs there are then. -/
def write (method : String) (messages : List (List UInt8)) :
    Except String (List UInt8 × Dict (String × ℤ) (List UInt8)) := do
  raiseIf (method ≠ writeMethod) "unexpected client-streaming method"
  match messages with
  | [message] => do
    let fields ← parseFields message
    let resource ← oneBytes fields 1 "resource name"
    let resource ← decodeText resource "resource name"
    let offset ← oneInt fields 2 "write offset"
    raiseIf (offset ≠ 0) "write offset is not zero"
    let finish ← oneInt fields 3 "finish write"
    raiseIf (finish ≠ 1) "write was not finished"
    let data ← oneBytes fields 10 "write data"
    let identity ← resourceIdentity resource
    raiseIf (identity.2 ≠ data.length) "resource size differs from data"
    let response ← encodeInt 1 data.length
    return (response, server.blobs.set identity data)
  | _ => .error "expected one bounded write request"

/-- What is read of a blob. -/
def readBack (data : List UInt8) : Except String (List UInt8) :=
  if server.corruptReads then
    match data with
    | [] => .error "index out of range"
    | byte :: rest => .ok ((byte ^^^ 0xFF) :: rest)
  else .ok data

/-- What `unary_stream` answers. -/
def read (method : String) (request : List UInt8) :
    Except String (List (Except String (List UInt8))) := do
  raiseIf (method ≠ readMethod) "unexpected server-streaming method"
  let fields ← parseFields request
  let resource ← oneBytes fields 1 "resource name"
  let resource ← decodeText resource "resource name"
  let identity ← resourceIdentity resource
  let data ← needed (server.blobs.get? identity) "no such blob"
  let data ← server.readBack data
  return (Chunks.chunks 17 data).map (encodeBytes 10)

end FakeReapiServer

/-- The methods of `FakeReapiServer`. -/
def fakeReapiServer : Transport FakeReapiServer where
  unaryUnary method request := fun server => (server.answer method request, server.called method)
  streamUnary method requests := fun server =>
    match server.write method requests with
    | .error e => (.error e, server.called method)
    | .ok (response, blobs) => (.ok response, { server.called method with blobs := blobs })
  unaryStream method request := fun server => (server.read method request, server.called method)

/-! ## Names of blobs -/

section Resource

variable {uploadId digest : String} {size : ℕ}

theorem slash_notMem_isHex {n : ℕ} {text : String} (h : isHex n text = true) :
    '/' ∉ text.toList := by
  intro hmem
  unfold isHex at h
  rw [Bool.and_eq_true, List.all_eq_true] at h
  exact absurd (h.2 '/' hmem) (by decide)

theorem slash_notMem_digits (size : ℕ) : '/' ∉ (toString size).toList := by
  intro hmem
  rw [show toString size = size.repr from rfl, Nat.toList_repr] at hmem
  exact absurd (Nat.isDigit_of_mem_toDigits (by decide) (by decide) hmem) (by decide)

theorem length_digits (h : size ≤ maxBlobBytes) : (toString size).length ≤ 20 := by
  rw [← String.length_toList, show toString size = size.repr from rfl, Nat.toList_repr,
    Nat.length_toDigits_le_iff (by decide) (by decide)]
  unfold maxBlobBytes at h
  omega

/-- A size is read back. -/
theorem int?_size (h : size ≤ maxBlobBytes) :
    PyInt.int? (toString size).toList = some (size : ℤ) := by
  have hlength := length_digits h
  rw [← String.length_toList, show toString size = size.repr from rfl, Nat.toList_repr] at hlength
  rw [show toString size = size.repr from rfl, Nat.toList_repr,
    PyInt.int?_of_isDigit Nat.toDigits_ne_nil fun c hc =>
      Nat.isDigit_of_mem_toDigits (by decide) (by decide) hc,
    if_neg (by unfold PyInt.maxStrDigits; omega), Nat.ofDigitChars_ten_toDigits]

/-- The name of a blob is found behind the first `blobs`. -/
theorem resourceIdentity_of_parts {resourceName : String} {before : List (List Char)}
    (hname : resourceName.toList = ['/'].intercalate (before ++ ["blobs".toList, digest.toList,
      (toString size).toList]))
    (hbefore : ∀ part ∈ before, '/' ∉ part ∧ part ≠ "blobs".toList)
    (hdigest : isHex 64 digest = true) (hsize : size ≤ maxBlobBytes) :
    resourceIdentity resourceName = .ok (digest, (size : ℤ)) := by
  have hsplit : resourceName.toList.splitOn '/' = before ++ ["blobs".toList, digest.toList,
      (toString size).toList] := by
    rw [hname]
    refine List.splitOn_intercalate '/' (fun part hpart => ?_) (by simp)
    simp only [List.mem_append, List.mem_cons, List.not_mem_nil, or_false] at hpart
    rcases hpart with hpart | rfl | rfl | rfl
    · exact (hbefore part hpart).1
    · decide
    · exact slash_notMem_isHex hdigest
    · exact slash_notMem_digits size
  have hdrop : (before ++ ["blobs".toList, digest.toList, (toString size).toList]).dropWhile
      (· ≠ "blobs".toList) = ["blobs".toList, digest.toList, (toString size).toList] := by
    rw [List.dropWhile_append_of_pos fun part hpart =>
      decide_eq_true (hbefore part hpart).2]
    rfl
  unfold resourceIdentity
  rw [hsplit, hdrop]
  dsimp only
  rw [int?_size hsize, String.ofList_toList]
  rfl

theorem resourceIdentity_write (hupload : isHex 32 uploadId = true)
    (hdigest : isHex 64 digest = true) (hsize : size ≤ maxBlobBytes) :
    resourceIdentity (writeResource "main" uploadId digest size) = .ok (digest, (size : ℤ)) := by
  refine @resourceIdentity_of_parts digest size _ ["main".toList, "uploads".toList, uploadId.toList]
    ?_ ?_ hdigest hsize
  · unfold writeResource resourcePrefix
    simp [List.intercalate]
  · intro part hpart
    simp only [List.mem_cons, List.not_mem_nil, or_false] at hpart
    rcases hpart with rfl | rfl | rfl
    · decide
    · decide
    · refine ⟨slash_notMem_isHex hupload, fun hblobs => ?_⟩
      have hlength := isHex_length hupload
      rw [← String.length_toList, hblobs] at hlength
      cases hlength

theorem resourceIdentity_read (hdigest : isHex 64 digest = true) (hsize : size ≤ maxBlobBytes) :
    resourceIdentity (readResource "main" digest size) = .ok (digest, (size : ℤ)) := by
  refine @resourceIdentity_of_parts digest size _ ["main".toList] ?_ ?_ hdigest hsize
  · unfold readResource resourcePrefix
    simp [List.intercalate]
  · intro part hpart
    obtain rfl := List.mem_singleton.mp hpart
    decide

/-- The names of blobs are short. -/
theorem length_resource (hupload : isHex 32 uploadId = true) (hdigest : isHex 64 digest = true)
    (hsize : size ≤ maxBlobBytes) : (writeResource "main" uploadId digest size).length < 2 ^ 61 ∧
      (readResource "main" digest size).length < 2 ^ 61 := by
  have hd := isHex_length hdigest
  have hu := isHex_length hupload
  have hs := length_digits hsize
  have hname : (resourcePrefix "main").length = 5 := by decide
  have huploads : "uploads/".length = 8 := by decide
  have hblobs : "/blobs/".length = 7 := by decide
  have hblobs' : "blobs/".length = 6 := by decide
  have hslash : "/".length = 1 := by decide
  unfold writeResource readResource
  simp only [String.length_append, hd, hu, hname, huploads, hblobs, hblobs', hslash]
  omega

end Resource

/-! ## Runs -/

section Run

variable {σ α β : Type} {s : σ}

/-- What is computed beside the calls. -/
theorem Call.lift_ok {x : Except String α} {a : α} (h : x = .ok a) (f : α → Call σ β) :
    (liftM x >>= f : Call σ β) s = f a s := Call.bind_ok (congrArg (fun x => (x, s)) h) f

theorem Call.lift_error {x : Except String α} {e : String} (h : x = .error e)
    (f : α → Call σ β) : (liftM x >>= f : Call σ β) s = (.error e, s) :=
  Call.bind_error (congrArg (fun x => (x, s)) h) f

/-- A check that passes. -/
theorem Call.check {bad : Prop} [Decidable bad] (h : ¬ bad) (text : String)
    (f : Unit → Call σ β) : (liftM (raiseIf bad text) >>= f : Call σ β) s = f () s :=
  Call.lift_ok (if_neg h) f

theorem Call.refuse {bad : Prop} [Decidable bad] (h : bad) (text : String)
    (f : Unit → Call σ β) : (liftM (raiseIf bad text) >>= f : Call σ β) s = (.error text, s) :=
  Call.lift_error (if_pos h) f

variable {T : Transport σ} {library : Library} {instanceName : String} {blobBytes : ℤ}
  {s₁ s₂ s₃ s₄ : σ}

/-- A blob that is not reported missing is not written. -/
theorem checkCasRoundTrip_of_held (hpos : 0 < blobBytes) (hmax : blobBytes ≤ maxBlobBytes)
    {missing : List (String × ℕ)}
    (hfind : findMissing T instanceName (library.hexdigest (library.tokenBytes blobBytes.toNat))
      blobBytes.toNat s = (.ok missing, s₁))
    (hmissing : missing ≠ [(library.hexdigest (library.tokenBytes blobBytes.toNat),
      blobBytes.toNat)]) :
    checkCasRoundTrip T library instanceName blobBytes s =
      (.error "FindMissingBlobs did not report the fresh random blob as missing", s₁) := by
  unfold checkCasRoundTrip
  rw [Call.check (by omega), library.length_tokenBytes, Call.bind_ok hfind]
  exact Call.refuse hmissing _ _

/-- A run whose calls are all answered as a store would is decided by what is read back. -/
theorem checkCasRoundTrip_of_answers (hpos : 0 < blobBytes) (hmax : blobBytes ≤ maxBlobBytes)
    {blob back writeRequest writeResponse readRequest : List UInt8} {digest : String}
    {responses : List (Except String (List UInt8))}
    (hblob : blob = library.tokenBytes blobBytes.toNat) (hdigest : digest = library.hexdigest blob)
    (hfind : findMissing T instanceName digest blobBytes.toNat s =
      (.ok [(digest, blobBytes.toNat)], s₁))
    (hwriteRequest : encodeWriteRequest
      (writeResource instanceName library.uuid digest blobBytes.toNat) blob = .ok writeRequest)
    (hwrite : T.streamUnary writeMethod [writeRequest] s₁ = (.ok writeResponse, s₂))
    (hcommitted : decodeWriteResponse writeResponse = .ok blobBytes.toNat)
    (hfound : findMissing T instanceName digest blobBytes.toNat s₂ = (.ok [], s₃))
    (hreadRequest : encodeReadRequest (readResource instanceName digest blobBytes.toNat)
      blobBytes.toNat = .ok readRequest)
    (hread : T.unaryStream readMethod readRequest s₃ = (.ok responses, s₄))
    (hdownload : download blobBytes.toNat responses = .ok back) :
    checkCasRoundTrip T library instanceName blobBytes s =
      (if back = blob then .ok ⟨blobBytes.toNat, digest, 0, 1, instanceName⟩
        else .error "ByteStream read-back content or digest differs", s₄) := by
  unfold checkCasRoundTrip
  rw [Call.check (by omega), library.length_tokenBytes, ← hblob, ← hdigest, Call.bind_ok hfind,
    Call.check (by simp), Call.lift_ok hwriteRequest, Call.bind_ok hwrite, Call.lift_ok hcommitted,
    Call.check (by simp), Call.bind_ok hfound, Call.check (by simp), Call.lift_ok hreadRequest,
    Call.bind_ok hread, Call.lift_ok hdownload]
  split_ifs with hback
  · rw [hback, Call.check (by simp [hdigest])]
    rfl
  · exact Call.refuse (Or.inr hback) _ _

end Run

section Parts

variable {server : FakeReapiServer} {n : ℕ} {others : ℕ → FakeReapiServer → FakeReapiServer}
  {digest : String} {size : ℕ}

/-- A blob is reported missing when the server has none of its name. -/
theorem answer_find {request identity : List UInt8}
    (hrequest : Spelling FieldBytes request [bytesField 1 (utf8 "main"), bytesField 2 identity])
    (hidentity : decodeDigest identity = .ok (digest, size)) (hdigest : isHex 64 digest = true)
    (hsize : size < 2 ^ 64) :
    ∃ response, server.answer findMissingMethod request = .ok response ∧
      decodeFindMissingResponse response =
        .ok (if (digest, (size : ℤ)) ∈ server.blobs.keys then [] else [(digest, size)]) := by
  have hanswer : server.answer findMissingMethod request =
      if (digest, (size : ℤ)) ∈ server.blobs.keys then .ok []
      else encodeDigest digest size >>= encodeBytes 2 := by
    have hother : findMissingMethod ≠ capabilitiesMethod := by decide
    have hname : oneBytes [bytesField 1 (utf8 "main"), bytesField 2 identity] 1 "instance" =
        .ok (utf8 "main") := rfl
    have hdigest : oneBytes [bytesField 1 (utf8 "main"), bytesField 2 identity] 2 "blob digest" =
        .ok identity := rfl
    unfold FakeReapiServer.answer
    simp only [hother, parseFields_iff.mpr hrequest, ok_bind, hname, decodeText_utf8, hdigest,
      hidentity, if_false, if_true]
    rfl
  rw [hanswer]
  split_ifs with hheld
  · refine ⟨[], rfl, ?_⟩
    unfold decodeFindMissingResponse
    rw [parseFields_iff.mpr .nil]
    rfl
  · obtain ⟨encoded, hencoded, hshort, hdecode⟩ := encodeDigest_ok hdigest hsize
    obtain ⟨response, hresponse, hspelled⟩ := message_field
      (valid_bytesField (by decide) (by decide) (by omega) : (bytesField 2 encoded).Valid)
    refine ⟨response, ?_, ?_⟩
    · rw [hencoded]
      exact hresponse
    · unfold decodeFindMissingResponse
      rw [parseFields_iff.mpr hspelled]
      show (do let digests ← [encoded].mapM decodeDigest; pure digests) = _
      rw [List.mapM_cons, hdecode]
      rfl

theorem findMissing_fake (hdigest : isHex 64 digest = true) (hsize : size < 2 ^ 64) :
    findMissing (fakeReapiServer.among others) "main" digest size (server, n) =
      (.ok (if (digest, (size : ℤ)) ∈ (others n server).blobs.keys then [] else [(digest, size)]),
        ((others n server).called findMissingMethod, n + 1)) := by
  obtain ⟨identity, hidentity, request, hrequest, hspelled⟩ :=
    @message_find "main" digest size (by decide) hdigest hsize
  obtain ⟨response, hanswer, hdecode⟩ :=
    @answer_find (others n server) digest size request identity hspelled hidentity hdigest hsize
  have hcall : (fakeReapiServer.among others).unaryUnary findMissingMethod request (server, n) =
      (.ok response, ((others n server).called findMissingMethod, n + 1)) := by
    rw [← hanswer]
    rfl
  unfold findMissing
  rw [Call.lift_ok hrequest, Call.bind_ok hcall]
  exact congrArg (fun x => (x, _)) hdecode

/-- A blob is written under the name it says. -/
theorem write_fake {uploadId : String} {data : List UInt8} (hupload : isHex 32 uploadId = true)
    (hdigest : isHex 64 digest = true) (hdata : data.length ≤ maxBlobBytes) :
    ∃ request response,
      encodeWriteRequest (writeResource "main" uploadId digest data.length) data = .ok request ∧
      server.write writeMethod [request] =
        .ok (response, server.blobs.set (digest, (data.length : ℤ)) data) ∧
      decodeWriteResponse response = .ok data.length := by
  have hshort : data.length < 2 ^ 64 := by
    unfold maxBlobBytes at hdata
    omega
  obtain ⟨hresource, _⟩ := length_resource hupload hdigest hdata
  obtain ⟨request, hrequest, hspelled⟩ := message_write hresource hshort
  obtain ⟨response, hresponse, hspelled'⟩ := message_field
    (valid_intField (by decide) (by decide) hshort : (intField 1 data.length).Valid)
  refine ⟨request, response, hrequest, ?_, ?_⟩
  · have hname : oneBytes [bytesField 1 (utf8 (writeResource "main" uploadId digest data.length)),
        intField 2 0, intField 3 1, bytesField 10 data] 1 "resource name" =
        .ok (utf8 (writeResource "main" uploadId digest data.length)) := rfl
    have hoffset : oneInt [bytesField 1 (utf8 (writeResource "main" uploadId digest data.length)),
        intField 2 0, intField 3 1, bytesField 10 data] 2 "write offset" = .ok 0 := rfl
    have hfinish : oneInt [bytesField 1 (utf8 (writeResource "main" uploadId digest data.length)),
        intField 2 0, intField 3 1, bytesField 10 data] 3 "finish write" = .ok 1 := rfl
    have hbytes : oneBytes [bytesField 1 (utf8 (writeResource "main" uploadId digest data.length)),
        intField 2 0, intField 3 1, bytesField 10 data] 10 "write data" = .ok data := rfl
    have hcommitted : encodeInt 1 data.length = .ok response := hresponse
    unfold FakeReapiServer.write raiseIf
    simp only [ne_eq, not_true_eq_false, if_false, ok_bind, parseFields_iff.mpr hspelled, hname,
      decodeText_utf8, hoffset, hfinish, hbytes, resourceIdentity_write hupload hdigest hdata,
      hcommitted]
    rfl
  · unfold decodeWriteResponse
    rw [parseFields_iff.mpr hspelled']
    rfl

/-- The chunks of a blob, put together. -/
theorem download_chunks {chunks : List (List UInt8)} (hchunks : chunks.flatten.length < 2 ^ 64) :
    ∀ downloaded : List UInt8, (downloaded ++ chunks.flatten).length ≤ size →
      (chunks.map (encodeBytes 10)).foldlM (fun downloaded response => do
          let response ← response
          let chunk ← decodeReadResponse response
          let downloaded := downloaded ++ chunk
          raiseIf (size < downloaded.length) "ByteStream returned more data than requested"
          return downloaded) downloaded = .ok (downloaded ++ chunks.flatten) := by
  induction chunks with
  | nil =>
    intro downloaded _
    rw [List.flatten_nil, List.append_nil]
    rfl
  | cons chunk chunks ih =>
    intro downloaded hsize
    rw [List.flatten_cons, List.length_append] at hchunks
    rw [List.flatten_cons, ← List.append_assoc] at hsize ⊢
    obtain ⟨response, hresponse, hspelled⟩ := message_field
      (valid_bytesField (by decide) (by decide) (by omega) : (bytesField 10 chunk).Valid)
    have hencoded : encodeBytes 10 chunk = .ok response := hresponse
    have hdecoded : decodeReadResponse response = .ok chunk := by
      unfold decodeReadResponse
      rw [parseFields_iff.mpr hspelled]
      rfl
    have hfits : ¬ size < (downloaded ++ chunk).length := by
      rw [List.length_append] at hsize
      omega
    rw [List.map_cons, List.foldlM_cons]
    unfold raiseIf
    simp only [hencoded, ok_bind, hdecoded, hfits, if_false]
    exact ih (by omega) (downloaded ++ chunk) hsize

/-- What is read of a blob, in the order of its chunks. -/
theorem read_fake {data back : List UInt8} (hdigest : isHex 64 digest = true)
    (hsize : size ≤ maxBlobBytes) (hheld : server.blobs.get? (digest, (size : ℤ)) = some data)
    (hback : server.readBack data = .ok back) :
    ∃ request, encodeReadRequest (readResource "main" digest size) size = .ok request ∧
      server.read readMethod request = .ok ((Chunks.chunks 17 back).map (encodeBytes 10)) := by
  have hshort : size < 2 ^ 64 := by
    unfold maxBlobBytes at hsize
    omega
  have hresource := (@length_resource (String.ofList (List.replicate 32 '0')) digest size
    (by decide) hdigest hsize).2
  obtain ⟨request, hrequest, hspelled⟩ := message_read hresource hshort
  have hname : oneBytes [bytesField 1 (utf8 (readResource "main" digest size)), intField 2 0,
      intField 3 size] 1 "resource name" = .ok (utf8 (readResource "main" digest size)) := rfl
  have hfound : needed (server.blobs.get? (digest, (size : ℤ))) "no such blob" = .ok data :=
    Raise.needed_ok.mpr hheld
  refine ⟨request, hrequest, ?_⟩
  unfold FakeReapiServer.read raiseIf
  simp only [ne_eq, not_true_eq_false, if_false, ok_bind, parseFields_iff.mpr hspelled, hname,
    decodeText_utf8, resourceIdentity_read hdigest hsize, hfound, hback]
  rfl

/-- A corrupt read gives other bytes, as many. -/
theorem readBack_cases {data : List UInt8} (hne : data ≠ []) :
    ∃ back, server.readBack data = .ok back ∧ back.length = data.length ∧
      (back = data ↔ server.corruptReads = false) := by
  obtain ⟨byte, rest, rfl⟩ := List.exists_cons_of_ne_nil hne
  unfold FakeReapiServer.readBack
  cases hcorrupt : server.corruptReads with
  | false => exact ⟨byte :: rest, rfl, rfl, by simp⟩
  | true =>
    have hflipped : byte ^^^ 0xFF ≠ byte := by
      intro he
      have hzero : (0xFF : UInt8) = 0 := by
        rw [← @UInt8.zero_xor 0xFF, ← @UInt8.xor_self byte, UInt8.xor_assoc, he]
      exact absurd hzero (by decide)
    refine ⟨(byte ^^^ 0xFF) :: rest, rfl, rfl, ?_⟩
    simp [hflipped]

end Parts

/-! ## Among other clients -/

/-- Clients that leave a blob alone. -/
structure Others (key : String × ℤ) where
  act : ℕ → FakeReapiServer → FakeReapiServer
  held : ∀ n server, (act n server).blobs.get? key = server.blobs.get? key
  corruptReads : ∀ n server, (act n server).corruptReads = server.corruptReads

section Among

variable {digest : String} {size : ℕ} (others : Others (digest, (size : ℤ)))
  (server : FakeReapiServer) (n : ℕ)

theorem find_among (hdigest : isHex 64 digest = true) (hsize : size < 2 ^ 64) :
    ∃ server', findMissing (fakeReapiServer.among others.act) "main" digest size (server, n) =
        (.ok (if (server.blobs.get? (digest, (size : ℤ))).isSome then [] else [(digest, size)]),
          (server', n + 1)) ∧
      server'.blobs.get? (digest, (size : ℤ)) = server.blobs.get? (digest, (size : ℤ)) ∧
      server'.corruptReads = server.corruptReads := by
  have hfind := @findMissing_fake server n others.act digest size hdigest hsize
  simp only [Dict.mem_keys_iff, others.held] at hfind
  exact ⟨_, hfind, others.held n server, others.corruptReads n server⟩

theorem write_among {uploadId : String} {blob : List UInt8} (hupload : isHex 32 uploadId = true)
    (hdigest : isHex 64 digest = true) (hblob : blob.length = size) (hsize : size ≤ maxBlobBytes) :
    ∃ request response server',
      encodeWriteRequest (writeResource "main" uploadId digest size) blob = .ok request ∧
      (fakeReapiServer.among others.act).streamUnary writeMethod [request] (server, n) =
        (.ok response, (server', n + 1)) ∧
      decodeWriteResponse response = .ok size ∧
      server'.blobs.get? (digest, (size : ℤ)) = some blob ∧
      server'.corruptReads = server.corruptReads := by
  obtain ⟨request, response, hrequest, hwritten, hcommitted⟩ :=
    @write_fake (others.act n server) digest uploadId blob hupload hdigest (by omega)
  rw [hblob] at hrequest hwritten hcommitted
  refine ⟨request, response, { (others.act n server).called writeMethod with
    blobs := (others.act n server).blobs.set (digest, (size : ℤ)) blob }, hrequest, ?_, hcommitted,
    ?_, others.corruptReads n server⟩
  · unfold Transport.among fakeReapiServer
    dsimp only
    rw [hwritten]
  · rw [Dict.get?_set, if_pos rfl]

theorem read_among {blob : List UInt8} (hdigest : isHex 64 digest = true) (hne : blob ≠ [])
    (hblob : blob.length = size) (hsize : size ≤ maxBlobBytes)
    (hheld : server.blobs.get? (digest, (size : ℤ)) = some blob) :
    ∃ request responses back server',
      encodeReadRequest (readResource "main" digest size) size = .ok request ∧
      (fakeReapiServer.among others.act).unaryStream readMethod request (server, n) =
        (.ok responses, (server', n + 1)) ∧
      download size responses = .ok back ∧ (back = blob ↔ server.corruptReads = false) ∧
      server'.blobs.get? (digest, (size : ℤ)) = some blob := by
  have hheld' := (others.held n server).trans hheld
  obtain ⟨back, hback, hlength, hsame⟩ := @readBack_cases (others.act n server) blob hne
  obtain ⟨request, hrequest, hread⟩ :=
    @read_fake (others.act n server) digest size blob back hdigest hsize hheld' hback
  have hflatten : (Chunks.chunks 17 back).flatten = back := Chunks.flatten_chunks (by decide) back
  have hdownload := @download_chunks size (Chunks.chunks 17 back)
    (by rw [hflatten]; unfold maxBlobBytes at hsize; omega) [] (by
      rw [List.nil_append, hflatten]
      omega)
  rw [List.nil_append, hflatten] at hdownload
  rw [others.corruptReads] at hsame
  refine ⟨request, _, back, (others.act n server).called readMethod, hrequest, ?_, hdownload, hsame,
    hheld'⟩
  rw [← hread]
  rfl

end Among

section Verdict

variable (library : Library) (server : FakeReapiServer) (blobBytes : ℤ)

/-- The name the server has for the blob that is drawn. -/
def blobKey : String × ℤ :=
  (library.hexdigest (library.tokenBytes blobBytes.toNat), (blobBytes.toNat : ℤ))

/-- What the check is to say of a server. -/
def verdict : Except String RoundTrip :=
  if blobBytes ≤ 0 ∨ maxBlobBytes < blobBytes then
    .error ("blob size must be between 1 and " ++ toString maxBlobBytes ++ " bytes")
  else if (server.blobs.get? (blobKey library blobBytes)).isSome then
    .error "FindMissingBlobs did not report the fresh random blob as missing"
  else if server.corruptReads then .error "ByteStream read-back content or digest differs"
  else .ok ⟨blobBytes.toNat, (blobKey library blobBytes).1, 0, 1, "main"⟩

/-- How many calls the check is to make. -/
def callsMade : ℕ :=
  if blobBytes ≤ 0 ∨ maxBlobBytes < blobBytes then 0
  else if (server.blobs.get? (blobKey library blobBytes)).isSome then 1 else 4

/-- The blob the server is to hold afterwards. -/
def heldAfter : Option (List UInt8) :=
  if blobBytes ≤ 0 ∨ maxBlobBytes < blobBytes then server.blobs.get? (blobKey library blobBytes)
  else some ((server.blobs.get? (blobKey library blobBytes)).getD
    (library.tokenBytes blobBytes.toNat))

end Verdict

/-- **The round trip tells a server that stores from one that does not.** Whatever other clients
    do to the server in between, as long as they leave the fresh blob alone, the check passes
    if the server had no such blob and reads back what it holds; else it fails with the message
    for what it found. The server then holds the blob; and where the size is refused it is not
    called at all. -/
theorem checkCasRoundTrip_fake (library : Library) (blobBytes : ℤ)
    (others : Others (blobKey library blobBytes)) (server : FakeReapiServer) (n : ℕ) :
    ∃ server', checkCasRoundTrip (fakeReapiServer.among others.act) library "main" blobBytes
        (server, n) = (verdict library server blobBytes,
          (server', n + callsMade library server blobBytes)) ∧
      server'.blobs.get? (blobKey library blobBytes) = heldAfter library server blobBytes ∧
      (blobBytes ≤ 0 ∨ maxBlobBytes < blobBytes → server' = server) := by
  unfold verdict heldAfter callsMade
  by_cases hbounds : blobBytes ≤ 0 ∨ maxBlobBytes < blobBytes
  · rw [if_pos hbounds, if_pos hbounds, if_pos hbounds]
    refine ⟨server, ?_, rfl, fun _ => rfl⟩
    unfold checkCasRoundTrip
    exact Call.refuse hbounds _ _
  rw [if_neg hbounds, if_neg hbounds, if_neg hbounds]
  have hpos : 0 < blobBytes := by omega
  have hmax : blobBytes ≤ maxBlobBytes := by omega
  have hsize : blobBytes.toNat ≤ maxBlobBytes := by omega
  have hshort : blobBytes.toNat < 2 ^ 64 := by
    unfold maxBlobBytes at hsize
    omega
  have hdigest := library.isHex_hexdigest (library.tokenBytes blobBytes.toNat)
  have hlength := library.length_tokenBytes blobBytes.toNat
  have hne : library.tokenBytes blobBytes.toNat ≠ [] := by
    intro hnil
    rw [hnil, List.length_nil] at hlength
    omega
  obtain ⟨server₁, hfind, hheld₁, hcorrupt₁⟩ := find_among others server n hdigest hshort
  unfold blobKey
  cases hheld : (server.blobs.get? (library.hexdigest (library.tokenBytes blobBytes.toNat),
      (blobBytes.toNat : ℤ))) with
  | some data =>
    rw [hheld] at hfind hheld₁
    exact ⟨server₁, checkCasRoundTrip_of_held hpos hmax hfind (by simp), hheld₁,
      fun h => absurd h hbounds⟩
  | none =>
    rw [hheld] at hfind
    obtain ⟨writeRequest, writeResponse, server₂, hwriteRequest, hwrite, hcommitted, hheld₂,
      hcorrupt₂⟩ := write_among others server₁ (n + 1) library.isHex_uuid hdigest hlength hsize
    obtain ⟨server₃, hfound, hheld₃, hcorrupt₃⟩ := find_among others server₂ (n + 2) hdigest hshort
    rw [hheld₂] at hfound hheld₃
    obtain ⟨readRequest, responses, back, server₄, hreadRequest, hread, hdownload, hsame, hheld₄⟩ :=
      read_among others server₃ (n + 3) hdigest hne hlength hsize hheld₃
    refine ⟨server₄, ?_, hheld₄, fun h => absurd h hbounds⟩
    rw [checkCasRoundTrip_of_answers hpos hmax rfl rfl hfind hwriteRequest hwrite hcommitted hfound
      hreadRequest hread hdownload]
    rw [hcorrupt₃, hcorrupt₂, hcorrupt₁] at hsame
    cases hcorrupt : server.corruptReads with
    | false =>
      rw [if_pos (hsame.mpr hcorrupt)]
      rfl
    | true =>
      rw [if_neg fun he => Bool.false_ne_true ((hsame.mp he).symm.trans hcorrupt)]
      rfl

/-! ## Twenty bytes -/

/-- The bytes from zero on, and their SHA-256; of any others, that of none. -/
def countingLibrary : Library where
  tokenBytes n := (List.range n).map UInt8.ofNat
  length_tokenBytes n := by
    rw [List.length_map, List.length_range]
  hexdigest data :=
    if data = (List.range 20).map UInt8.ofNat then
      "e7aebf577f60412f0312d442c70a1fa6148c090bf5bab404caec29482ae779e8"
    else "e3b0c44298fc1c149afbf4c8996fb92427ae41e4649b934ca495991b7852b855"
  isHex_hexdigest data := by
    split_ifs <;> decide +kernel
  uuid := "00112233445566778899aabbccddeeff"
  isHex_uuid := by decide +kernel

/-- Another client, which writes blobs of its own. -/
def neighbour (blobBytes : ℤ) : Others (blobKey countingLibrary blobBytes) where
  act n server := { server with
    blobs := server.blobs.set ("", n) [1, 2, 3]
    calls := server.calls ++ [writeMethod] }
  held n server := by
    have hne : blobKey countingLibrary blobBytes ≠ ("", (n : ℤ)) := by
      intro heq
      have hlength := isHex_length (countingLibrary.isHex_hexdigest
        (countingLibrary.tokenBytes blobBytes.toNat))
      rw [show countingLibrary.hexdigest _ = "" from congrArg Prod.fst heq] at hlength
      cases hlength
    rw [Dict.get?_set, if_neg hne]
  corruptReads _ _ := rfl

/-- A server with a blob of the neighbour's. -/
def smallServer (corruptReads : Bool) : FakeReapiServer :=
  ⟨[], Dict.single ("", 7) [1, 2, 3], [], corruptReads⟩

/-- The bytes go there and back in two chunks, are not those of a server that corrupts them, and
    no bytes at all are not sent. -/
theorem checkCasRoundTrip_fake_twenty :
    (∃ server', checkCasRoundTrip (fakeReapiServer.among (neighbour 20).act) countingLibrary "main"
        20 (smallServer false, 7) =
          (.ok ⟨20, "e7aebf577f60412f0312d442c70a1fa6148c090bf5bab404caec29482ae779e8",
            0, 1, "main"⟩,
            (server', 11)) ∧
      server'.blobs.get? (blobKey countingLibrary 20) = some (countingLibrary.tokenBytes 20)) ∧
    (∃ server', checkCasRoundTrip (fakeReapiServer.among (neighbour 20).act) countingLibrary "main"
        20 (smallServer true, 7) =
          (.error "ByteStream read-back content or digest differs", (server', 11))) ∧
    checkCasRoundTrip (fakeReapiServer.among (neighbour 0).act) countingLibrary "main" 0
        (smallServer false, 7) =
      (.error "blob size must be between 1 and 1048576 bytes", (smallServer false, 7)) := by
  obtain ⟨server₁, hpasses, hheld, _⟩ :=
    checkCasRoundTrip_fake countingLibrary 20 (neighbour 20) (smallServer false) 7
  obtain ⟨server₂, hfails, _, _⟩ :=
    checkCasRoundTrip_fake countingLibrary 20 (neighbour 20) (smallServer true) 7
  obtain ⟨server₃, hrefused, _, huntouched⟩ :=
    checkCasRoundTrip_fake countingLibrary 0 (neighbour 0) (smallServer false) 7
  obtain rfl := huntouched (.inl le_rfl)
  exact ⟨⟨server₁, hpasses, hheld⟩, ⟨server₂, hfails⟩, hrefused⟩

end BuckosDistro.Reapi
