import S3Kinetic.Race

/-!
# The handler of part uploads

`PutObjectPartHandler` defers `abortMultipartIfError` on one variable `err` as soon as it knows the
object's name. Nearly every exit after that sets `err`, the exits in front of the authorisation and
those of the authorisation itself included, so a request that is turned away aborts the upload it
names.
-/

namespace S3Kinetic

open ByteString Decimal OrdMap

/-! ## Requests -/

inductive APIErrorCode where
  | errServerNotInitialized | errNotImplemented | errInvalidCopySource | errInvalidDigest
  | errMissingContentLength | errEntityTooLarge | errInvalidPart | errInvalidMaxParts
  | errAccessDenied
  | errSignatureDoesNotMatch | errMethodNotAllowed | errSSEMultipartEncrypted
  | errInvalidAccessKeyID
  | errInvalidRequest | errObjectLocked | errUnknownWORMModeDirective | errObjectLockInvalidHeaders
  | errInvalidRetentionDate | errPastObjectLockRetainDate | errInvalidBucketObjectLockConfiguration
  /-- What `toAPIError` makes of an error. -/
  | toAPIError (e : Err)
  deriving DecidableEq

inductive AuthType where
  | unknown | anonymous | presigned | presignedV2 | postPolicy | streamingSigned | signed | signedV2
  | jwt | sts
  deriving DecidableEq

/-- The parts of a `PutObjectPart` request that the handler looks at. -/
structure PartRequest where
  bucket : Bytes
  /-- The object as the router found it in the path. -/
  object : Bytes
  uploadID : Bytes
  partNumber : Bytes
  s3KMSRequested : Bool
  cryptoRequested : Bool
  amzCopySource : Bool
  contentMD5 : Option Bytes
  contentLength : Int
  amzDecodedContentLength : Option Bytes
  authType : AuthType

/-- What the authorisation says of a request; `none` is `ErrNone`. -/
structure AuthResults where
  isPutActionAllowed : Option APIErrorCode
  newSignV4ChunkedReader : Option APIErrorCode
  isReqAuthenticatedV2 : Option APIErrorCode
  reqSignatureV4Verify : Option APIErrorCode

/-- What the handler meets after the authorisation. -/
structure PartBody where
  putOpts : Option Err
  listObjectParts : Option Err
  /-- For a compressed upload, the result of the reader around the body. -/
  compressReader : Option (Option Err)
  newReader : Option Err
  /-- WORM is enabled and the object exists. -/
  wormDenies : Bool
  encryption : Option APIErrorCode
  reader : PutObjReader
  now : Nat

/-- `url.PathUnescape`. -/
def pathUnescape : Bytes → Option Bytes
  | [] => some []
  | 37 :: a :: b :: t =>
    match fromHexChar a, fromHexChar b with
    | some h, some l => (pathUnescape t).map (UInt8.ofNat (16 * h + l) :: ·)
    | _, _ => none
  | [37] | [37, _] => none
  | c :: t => (pathUnescape t).map (c :: ·)

def base64Value (c : UInt8) : Option Nat :=
  if 65 ≤ c && c ≤ 90 then some (c.toNat - 65)
  else if 97 ≤ c && c ≤ 122 then some (c.toNat - 71)
  else if 48 ≤ c && c ≤ 57 then some (c.toNat + 4)
  else if c = 43 then some 62
  else if c = 47 then some 63
  else none

/-- `base64.StdEncoding.Strict()` on a text without line breaks: the bits behind the last byte are
zero. -/
def base64Groups : Bytes → Option Bytes
  | [] => some []
  | a :: b :: c :: d :: t =>
    match base64Value a, base64Value b with
    | some x, some y =>
      if c = 61 then if d = 61 ∧ t = [] ∧ y % 16 = 0 then some [UInt8.ofNat (4 * x + y / 16)]
        else none
      else
        match base64Value c with
        | none => none
        | some z =>
          if d = 61 then
            if t = [] ∧ z % 4 = 0 then
              some [UInt8.ofNat (4 * x + y / 16), UInt8.ofNat (16 * (y % 16) + z / 4)]
            else none
          else
            match base64Value d, base64Groups t with
            | some w, some bs =>
              some (UInt8.ofNat (4 * x + y / 16) :: UInt8.ofNat (16 * (y % 16) + z / 4) ::
                UInt8.ofNat (64 * (z % 4) + w) :: bs)
            | _, _ => none
    | _, _ => none
  | _ => none

/-- `checkValidMD5`. -/
def checkValidMD5 : Option Bytes → Option Bytes
  | none => some []
  | some [] => none
  | some md5B64 => base64Groups (md5B64.filter fun c => c ≠ 10 && c ≠ 13)

/-- `globalMaxPartSize`. -/
def globalMaxPartSize : Int := 5 * 1024 * 1024

/-- `globalMaxPartID`. -/
def globalMaxPartID : Int := 10000

/-! ## The handler -/

/-- The size of the part: a streaming request carries it in a header of its own. -/
def partSize (req : PartRequest) : Except APIErrorCode Int :=
  if req.authType = .streamingSigned then
    match req.amzDecodedContentLength with
    | none => .ok req.contentLength
    | some [] => .error .errMissingContentLength
    | some sizeStr =>
      match parseInt64 sizeStr with
      | (_, some _) => .error (.toAPIError (.errorf (lit "strconv.ParseInt")))
      | (size, none) => .ok size
  else .ok req.contentLength

/-- The checks in front of the authorisation. All of them leave `err` set. -/
def checkPartRequest (encryptionEnabled : Bool) (req : PartRequest) : Except APIErrorCode Int :=
  if req.s3KMSRequested then .error .errNotImplemented
  else if !encryptionEnabled && req.cryptoRequested then .error .errNotImplemented
  else if req.amzCopySource then .error .errInvalidCopySource
  else
    match checkValidMD5 req.contentMD5 with
    | none => .error .errInvalidDigest
    | some _ =>
      match partSize req with
      | .error e => .error e
      | .ok size =>
        if size = -1 then .error .errMissingContentLength
        else if size > globalMaxPartSize then .error .errEntityTooLarge
        else
          match parseInt64 req.partNumber with
          | (_, some _) => .error .errInvalidPart
          | (partID, none) =>
            if partID > globalMaxPartID then .error .errInvalidMaxParts else .ok partID

/-- The authorisation: `isPutActionAllowed`, and the signature that belongs to the type of the
request. -/
def AuthResults.verify (auth : AuthResults) (t : AuthType) : Option APIErrorCode :=
  match auth.isPutActionAllowed with
  | some e => some e
  | none =>
    match t with
    | .streamingSigned => auth.newSignV4ChunkedReader
    | .signedV2 | .presignedV2 => auth.isReqAuthenticatedV2
    | .presigned | .signed => auth.reqSignatureV4Verify
    | _ => none

variable (K : Kineticd)

/-- The handler after the authorisation, with the value of `err` at its return. -/
def storePart (s : Store) (bucket object uploadID : Bytes) (partID : Int) (body : PartBody) :
    Store × Except APIErrorCode PartInfo × Bool :=
  match body.putOpts.or body.listObjectParts with
  | some e => (s, .error (.toAPIError e), true)
  | none =>
    match body.compressReader with
    -- an `err` of the inner block
    | some (some e) => (s, .error (.toAPIError e), false)
    | _ =>
      match body.newReader with
      | some e => (s, .error (.toAPIError e), true)
      | none =>
        if body.wormDenies then (s, .error .errMethodNotAllowed, false)
        else
          match body.encryption with
          | some e => (s, .error e, true)
          | none =>
            match putObjectPart K s bucket object uploadID partID body.reader body.now with
            | (s, .error e) => (s, .error (.toAPIError e), true)
            | (s, .ok partInfo) => (s, .ok partInfo, false)

/-- The handler from the deferred clean-up on. -/
def handlePart (s : Store) (encryptionEnabled : Bool) (object : Bytes) (req : PartRequest)
    (auth : AuthResults) (body : PartBody) : Store × Except APIErrorCode PartInfo × Bool :=
  match checkPartRequest encryptionEnabled req with
  | .error e => (s, .error e, true)
  | .ok partID =>
    match auth.verify req.authType with
    | some e => (s, .error e, true)
    | none => storePart K s req.bucket object req.uploadID partID body

/-- `abortMultipartIfError`. -/
def abortMultipartIfError (s : Store) (err : Bool) (bucket object uploadID : Bytes) : Store :=
  if err then (abortMultipartUpload K s bucket object uploadID).1 else s

/-- `PutObjectPartHandler`. -/
def putObjectPartHandler (s : Store) (objectAPI encryptionEnabled : Bool) (req : PartRequest)
    (auth : AuthResults) (body : PartBody) : Store × Except APIErrorCode PartInfo :=
  if !objectAPI then (s, .error .errServerNotInitialized)
  else
    match pathUnescape req.object with
    | none => (s, .error (.toAPIError (.errorf (lit "invalid URL escape"))))
    | some object =>
      match handlePart K s encryptionEnabled object req auth body with
      | (s, res, err) => (abortMultipartIfError K s err req.bucket object req.uploadID, res)

/-! ## What an abort deletes -/

/-- Deleting `keys` one by one until an error reaches a stored key. -/
def deletesSome (s : Store) : List Bytes → Bool
  | [] => false
  | key :: keys => (s.get? key).isSome || K.deleteStatus s key = .success && deletesSome s keys

/-- An abort finds neither the record of the upload nor a key of the next version. -/
def nothingToAbort (s : Store) (objKey uploadID : Bytes) : Bool :=
  (s.get? (jsonKey objKey uploadID)).isNone &&
    match currentVersion K s objKey with
    | .error _ => true
    | .ok objVer => !deletesSome K s (partKeyRange K s objKey (newVersion objVer))

variable {K} {s : Store} {k v b o u : Bytes}

theorem delete_of_not_mem (h : s.get? k = none) : (delete K s k).1 = s := by
  rcases delete_eq (K := K) s k with ⟨h', -⟩ | ⟨e, h'⟩ <;> rw [h']
  exact erase_of_not_mem ((not_mem_iff s).2 h)

theorem deleteKeys_onlyDeletes (keys : List Bytes) : OnlyDeletes s (deleteKeys K s keys).1 :=
  deleteKeys_evolves fun _ _ => trivial

theorem deleteKeys_of_deletesSome {keys : List Bytes} (h : deletesSome K s keys = false) :
    (deleteKeys K s keys).1 = s := by
  induction keys with
  | nil => rfl
  | cons x keys ih =>
    simp only [deletesSome, Bool.or_eq_false_iff, Option.isSome_eq_false_iff,
      Option.isNone_iff_eq_none] at h
    have hx := delete_of_not_mem (K := K) h.1
    unfold deleteKeys
    rcases delete_eq (K := K) s x with ⟨hd, hst⟩ | ⟨e, hd⟩
    · rw [hd] at hx ⊢
      dsimp only at hx ⊢
      rw [hx]
      exact ih (by simpa [hst] using h.2)
    · rw [hd]

theorem exists_deleted_of_deletesSome (hK : K.Healthy) {keys : List Bytes}
    (h : deletesSome K s keys = true) :
    ∃ x ∈ s, x ∉ (deleteKeys K s keys).1 := by
  induction keys with
  | nil => cases h
  | cons x keys ih =>
    by_cases hx : x ∈ s
    · refine ⟨x, hx, fun hmem => ?_⟩
      unfold deleteKeys at hmem
      rw [delete_of_healthy hK hx] at hmem
      exact (mem_erase.1 ((deleteKeys_onlyDeletes keys).mem hmem)).1 rfl
    · have hnone : s.get? x = none := (not_mem_iff s).1 hx
      simp only [deletesSome, hnone, Option.isSome_none, Bool.false_or, Bool.and_eq_true,
        decide_eq_true_eq] at h
      have hd : delete K s x = (s, none) := by
        rw [delete, h.1]
        exact Prod.ext (erase_of_not_mem hx) rfl
      rw [deleteKeys, hd]
      exact ih h.2

theorem deleteParts_secondRound :
    OnlyDeletes (deleteKeys K s (partKeyRange K s k v)).1 (deleteParts K s k v).1 := by
  unfold deleteParts
  rcases deleteKeys K s (partKeyRange K s k v) with ⟨s', _ | e⟩
  · exact deleteKeys_onlyDeletes _
  · exact .refl _

theorem deleteParts_onlyDeletes : OnlyDeletes s (deleteParts K s k v).1 :=
  (deleteKeys_onlyDeletes _).trans deleteParts_secondRound

theorem deleteParts_eq_self_iff (hK : K.Healthy) :
    (deleteParts K s k v).1 = s ↔ deletesSome K s (partKeyRange K s k v) = false := by
  constructor
  · intro h
    by_contra hd
    obtain ⟨x, hx, hgone⟩ := exists_deleted_of_deletesSome hK (by simpa using hd)
    rw [← h] at hx
    exact hgone (deleteParts_secondRound.mem hx)
  · intro h
    have hfirst := deleteKeys_of_deletesSome h
    unfold deleteParts
    rcases hd : deleteKeys K s (partKeyRange K s k v) with ⟨s', _ | e⟩ <;> rw [hd] at hfirst <;>
      obtain rfl : s' = s := hfirst
    · exact deleteKeys_of_deletesSome h
    · rfl

theorem abortMultipartUpload_eq_self_iff (hK : K.Healthy) :
    (abortMultipartUpload K s b o u).1 = s ↔ nothingToAbort K s (makeKey b o) u = true := by
  unfold nothingToAbort
  by_cases hj : jsonKey (makeKey b o) u ∈ s
  · obtain ⟨r, hr⟩ := (mem_iff s).1 hj
    refine iff_of_false (fun h => ?_) (by simp [hr])
    have hdel : OnlyDeletes (delete K s (jsonKey (makeKey b o) u)).1
        (abortMultipartUpload K s b o u).1 := by
      unfold abortMultipartUpload
      dsimp only
      cases currentVersion K (delete K s (jsonKey (makeKey b o) u)).1 (makeKey b o) with
      | error e => exact .refl _
      | ok w => exact deleteParts_onlyDeletes
    have hmem := hdel.mem (h.symm ▸ hj)
    rw [delete_of_healthy hK hj] at hmem
    exact (mem_erase.1 hmem).1 rfl
  · have hnone : s.get? (jsonKey (makeKey b o) u) = none := (not_mem_iff s).1 hj
    unfold abortMultipartUpload
    simp only [delete_of_not_mem hnone, hnone, Option.isNone_none, Bool.true_and]
    cases hv : currentVersion K s (makeKey b o) with
    | error e => simp
    | ok w => simpa using deleteParts_eq_self_iff hK

/-! ## Requests that are turned away -/

theorem handlePart_of_verify (enc : Bool) (object : Bytes) {req : PartRequest} {auth : AuthResults}
    (body : PartBody) (h : auth.verify req.authType ≠ none) :
    ∃ e, handlePart K s enc object req auth body = (s, .error e, true) := by
  unfold handlePart
  cases checkPartRequest enc req with
  | error e => exact ⟨e, rfl⟩
  | ok partID =>
    cases hv : auth.verify req.authType with
    | none => exact absurd hv h
    | some e => exact ⟨e, rfl⟩

/-- The names of the request get to the drive whole. -/
def PartRequest.CNames (req : PartRequest) : Prop :=
  CString req.bucket ∧ CString req.uploadID ∧ ∀ object ∈ pathUnescape req.object, CString object

/-- A request that is not authorised leaves the store alone exactly when it does not get as far as
the deferred clean-up, or when there is nothing to abort. -/
theorem putObjectPartHandler_unauthorized_iff (hK : K.Healthy) (objectAPI enc : Bool)
    {req : PartRequest} {auth : AuthResults} (body : PartBody) (h : auth.verify req.authType ≠ none)
    (_hnames : req.CNames) :
    (putObjectPartHandler K s objectAPI enc req auth body).1 = s ↔
      objectAPI = false ∨ ∀ object, pathUnescape req.object = some object →
        nothingToAbort K s (makeKey req.bucket object) req.uploadID = true := by
  unfold putObjectPartHandler
  cases objectAPI with
  | false => simp
  | true =>
    cases hobj : pathUnescape req.object with
    | none => simp
    | some object =>
      obtain ⟨e, he⟩ := handlePart_of_verify (K := K) (s := s) enc object body h
      simp [he, abortMultipartIfError, abortMultipartUpload_eq_self_iff hK]

/-- An anonymous `PutObjectPart` request for the upload `u1`. -/
def anonymousPart (object : Bytes) : PartRequest where
  bucket := lit "bkt"
  object := object
  uploadID := lit "u1"
  partNumber := lit "2"
  s3KMSRequested := false
  cryptoRequested := false
  amzCopySource := false
  contentMD5 := none
  contentLength := 4
  amzDecodedContentLength := none
  authType := .anonymous

def accessDenied : AuthResults := ⟨some .errAccessDenied, none, none, none⟩

def plainBody : PartBody := ⟨none, none, none, none, false, none, onlyPart.r, 5⟩

theorem putObjectPartHandler_denied_emptyBucket :
    accessDenied.verify (anonymousPart (lit "a")).authType ≠ none ∧
      (putObjectPartHandler (uploadDrive (lit "a")) (emptyBucket (lit "a")) true false
        (anonymousPart (lit "a")) accessDenied plainBody).1 = emptyBucket (lit "a") := by
  have ha : pathUnescape (anonymousPart (lit "a")).object = some (lit "a") := by decide
  have hnames : (anonymousPart (lit "a")).CNames := by
    refine ⟨by decide, by decide, fun object hobj => ?_⟩
    rw [ha] at hobj
    cases hobj
    decide
  refine ⟨by decide, ?_⟩
  refine (putObjectPartHandler_unauthorized_iff (memoryDrive_healthy _) true false plainBody
    (by decide) hnames).2
    (.inr fun object hobj => ?_)
  rw [ha] at hobj
  cases hobj
  decide

/-- An anonymous request that is denied deletes the record and the only part of an upload in
progress. -/
theorem putObjectPartHandler_denied_aborts :
    Reachable (uploadDrive (lit "a")) (onePartStore (lit "a")) ∧
      accessDenied.verify (anonymousPart (lit "a")).authType ≠ none ∧
      (putObjectPartHandler (uploadDrive (lit "a")) (onePartStore (lit "a")) true false
        (anonymousPart (lit "a")) accessDenied plainBody).2 = .error .errAccessDenied ∧
      onlyPart.key (makeKey (lit "bkt") (lit "a")) (newVersion []) ∈ onePartStore (lit "a") ∧
      onlyPart.key (makeKey (lit "bkt") (lit "a")) (newVersion []) ∉
        (putObjectPartHandler (uploadDrive (lit "a")) (onePartStore (lit "a")) true false
          (anonymousPart (lit "a")) accessDenied plainBody).1 ∧
      (putObjectPartHandler (uploadDrive (lit "a")) (onePartStore (lit "a")) true false
        (anonymousPart (lit "a")) accessDenied plainBody).1 ≠ onePartStore (lit "a") := by
  have hin : ((onePartStore (lit "a")).get?
      (onlyPart.key (makeKey (lit "bkt") (lit "a")) (newVersion []))).isSome =
        true := by decide +kernel
  have hout : ((putObjectPartHandler (uploadDrive (lit "a")) (onePartStore (lit "a")) true false
      (anonymousPart (lit "a")) accessDenied plainBody).1.get?
        (onlyPart.key (makeKey (lit "bkt") (lit "a")) (newVersion []))).isSome =
          false := by decide +kernel
  have hreach : Reachable (uploadDrive (lit "a")) (emptyBucket (lit "a")) := ⟨id, _, rfl⟩
  refine ⟨hreach.run _, by decide, by decide, hin, fun h => ?_, fun h => ?_⟩
  · exact absurd (hout.symm.trans h) (by decide)
  · rw [h, hin] at hout
    cases hout

end S3Kinetic
