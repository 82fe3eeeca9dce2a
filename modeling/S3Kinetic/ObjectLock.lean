import S3Kinetic.PartHandler

/-!
# Object lock

Two functions enforce the lock of an object: `checkPutObjectLockAllowed` in front of everything that
writes and `enforceRetentionBypassForDelete` in front of everything that deletes. Each handler is
modelled up to the calls it makes of the object layer (`Request.calls`); what it does besides the
lock, before and after the check, is an input of the request.

`lockedObject_kept` says in which runs of requests a locked object is kept. Form uploads and the
lifecycle round never look at the lock, a failed lookup of the object counts as "no object" when it
is overwritten, and a malformed legal hold header ends the check early, without an error.
-/

namespace S3Kinetic

open ByteString OrdMap

/-! ## Lock metadata -/

inductive Mode where
  | invalid | governance | compliance
  deriving DecidableEq

inductive LegalHoldStatus where
  | empty | on | off
  deriving DecidableEq

def Mode.text : Mode → Bytes
  | .invalid => []
  | .governance => lit "GOVERNANCE"
  | .compliance => lit "COMPLIANCE"

def LegalHoldStatus.text : LegalHoldStatus → Bytes
  | .empty => []
  | .on => lit "ON"
  | .off => lit "OFF"

/-- `strings.ToUpper`, for comparisons with ASCII words: besides the ASCII letters, `ı` and `ſ` are
the only ones with an upper case in ASCII. -/
def toUpper : Bytes → Bytes
  | 0xC4 :: 0xB1 :: s => 73 :: toUpper s
  | 0xC5 :: 0xBF :: s => 83 :: toUpper s
  | c :: s => (if 97 ≤ c && c ≤ 122 then c - 32 else c) :: toUpper s
  | [] => []

/-- `strings.ToLower`, for comparisons with ASCII words without `i` and `k`. -/
def toLower (s : Bytes) : Bytes := s.map fun c => if 65 ≤ c && c ≤ 90 then c + 32 else c

def parseMode (modeStr : Bytes) : Mode :=
  if toUpper modeStr = lit "GOVERNANCE" then .governance
  else if toUpper modeStr = lit "COMPLIANCE" then .compliance
  else .invalid

def parseLegalHoldStatus (holdStr : Bytes) : LegalHoldStatus :=
  if toUpper holdStr = lit "ON" then .on
  else if toUpper holdStr = lit "OFF" then .off
  else .empty

structure Retention where
  mode : Mode
  validity : Int
  deriving DecidableEq

def Retention.isEmpty (r : Retention) : Bool := r.mode = .invalid || r.validity = 0

/-- The settings of the server that the lock depends on, and `time.Parse` and `Format` for RFC 3339.
Times are counted from the zero time. -/
structure LockConfig where
  globalWORMEnabled : Bool
  globalBucketObjectLockConfig : OrdMap Bytes Retention
  parseTime : Bytes → Option Int
  formatTime : Int → Bytes

structure ObjectRetention where
  mode : Mode
  retainUntilDate : Int
  deriving DecidableEq

/-- `GetObjectRetentionMeta`. -/
def getObjectRetentionMeta (E : LockConfig) (entries : OrdMap Bytes Bytes) : ObjectRetention where
  mode := ((entries.get? (lit "x-amz-object-lock-mode")).map parseMode).getD .invalid
  retainUntilDate :=
    ((entries.get? (lit "x-amz-object-lock-retain-until-date")).bind E.parseTime).getD 0

/-- `GetObjectLegalHoldMeta`, for its status. -/
def getObjectLegalHoldMeta (entries : OrdMap Bytes Bytes) : LegalHoldStatus :=
  ((entries.get? (lit "x-amz-object-lock-legal-hold")).map parseLegalHoldStatus).getD .empty

/-! ## Lock headers -/

/-- `http.Header`, by canonical names. -/
abbrev Header := OrdMap Bytes (List Bytes)

/-- `Header.Get`. -/
def headerGet (h : Header) (k : Bytes) : Bytes := ((h.get? k).getD []).headD []

def amzObjectLockMode : Bytes := lit "X-Amz-Object-Lock-Mode"
def amzObjectLockRetainUntilDate : Bytes := lit "X-Amz-Object-Lock-Retain-Until-Date"
def amzObjectLockLegalHold : Bytes := lit "X-Amz-Object-Lock-Legal-Hold"
def amzObjectLockBypassGovernance : Bytes := lit "X-Amz-Bypass-Governance-Retention"

def isObjectLockRetentionRequested (h : Header) : Bool :=
  (h.get? amzObjectLockMode).isSome || (h.get? amzObjectLockRetainUntilDate).isSome

def isObjectLockLegalHoldRequested (h : Header) : Bool := (h.get? amzObjectLockLegalHold).isSome

def isObjectLockGovernanceBypassSet (h : Header) : Bool :=
  toLower (headerGet h amzObjectLockBypassGovernance) = lit "true"

def isObjectLockRequested (h : Header) : Bool :=
  isObjectLockLegalHoldRequested h || isObjectLockRetentionRequested h

/-- `ParseObjectLockLegalHoldHeaders`. -/
def parseObjectLockLegalHoldHeaders (h : Header) : Except APIErrorCode LegalHoldStatus :=
  match h.get? amzObjectLockLegalHold with
  | none => .ok .empty
  | some holdStatus =>
    match parseLegalHoldStatus holdStatus.flatten with
    | .empty => .error .errUnknownWORMModeDirective
    | lh => .ok lh

/-- `ParseObjectLockRetentionHeaders`, with the reading of its clock. -/
def parseObjectLockRetentionHeaders (E : LockConfig) (h : Header) (now : Option Int) :
    Except APIErrorCode (Mode × Int) :=
  let retMode := headerGet h amzObjectLockMode
  let dateStr := headerGet h amzObjectLockRetainUntilDate
  if retMode.length = 0 ∨ dateStr.length = 0 then .error .errObjectLockInvalidHeaders
  else if parseMode retMode = .invalid then .error .errUnknownWORMModeDirective
  else
    match E.parseTime dateStr, now with
    | none, _ => .error .errInvalidRetentionDate
    | some _, none => .error .errPastObjectLockRetainDate
    | some retDate, some t =>
      if retDate < t then .error .errPastObjectLockRetainDate else .ok (parseMode retMode, retDate)

/-! ## The lookup -/

/-- What one lock check takes from outside: the result of `getOpts`, an error of the lookup that is
not about the object (a lock that times out, a drive that fails), and the numbered readings of the
clock, which fail when the time server does. -/
structure Lookup where
  getOpts : Option Err
  fault : Option Err
  utcNowNTP : Nat → Option Int

variable (K : Kineticd) (E : LockConfig)

/-- The metadata `getObjectInfo` reads, as its `UserDefined`; the entries that `cleanMetadata` takes
out are no lock entries. -/
def userDefined (s : Store) (bucket object : Bytes) : Except Err (OrdMap Bytes Bytes) :=
  match cGetMeta s (if bucket = [] then object else makeKey bucket object) with
  | .error _ => .error .errFileNotFound
  | .ok blob => (unmarshalMeta K blob).map FsMetaV1.entries

/-- `GetObjectInfo`, for its `UserDefined`. -/
def Lookup.getObjectInfo (l : Lookup) (s : Store) (bucket object : Bytes) :
    Except Err (OrdMap Bytes Bytes) :=
  let res : Except Err (OrdMap Bytes Bytes) :=
    match (l.fault.or (checkBucketAndObjectNames K bucket object)).or (statBucketDir K s bucket)
        with
    | some e => .error e
    | none => userDefined K s bucket object
  res.mapError fun e => toObjectErr e [bucket, object]

/-- The error code of `toAPIError` is `NoSuchKey`. -/
def isNoSuchKey : Err → Bool
  | .objectNotFound _ _ => true
  | _ => false

/-! ## The checks -/

/-- What `checkPutObjectLockAllowed` returns: the lock of the new object, and the error. -/
structure PutLock where
  mode : Mode
  retainDate : Int
  legalHold : LegalHoldStatus
  err : Option APIErrorCode
  deriving DecidableEq

/-- The end of `checkPutObjectLockAllowed`, from the retention headers on. `old` is what is known
of the object that is there. -/
def checkPutRetention (l : Lookup) (h : Header) (bucket : Bytes) (objExists : Bool)
    (retentionPermErr : Option APIErrorCode) (old : PutLock) : PutLock :=
  if isObjectLockRetentionRequested h then
    match E.globalBucketObjectLockConfig.get? bucket with
    | none => { old with err := some .errInvalidBucketObjectLockConfiguration }
    | some _ =>
      match parseObjectLockLegalHoldHeaders h with
      | .error e => { old with legalHold := .empty, err := some e }
      | .ok legalHold =>
        let old := { old with legalHold }
        match parseObjectLockRetentionHeaders E h (l.utcNowNTP 0) with
        | .error e => { old with err := some e }
        | .ok (rMode, rDate) =>
          match l.utcNowNTP 1 with
          | none => { old with err := some .errObjectLocked }
          | some t =>
            if objExists ∧ old.retainDate > t then { old with err := some .errObjectLocked }
            else if rMode = .invalid then { old with err := some .errObjectLockInvalidHeaders }
            else
              match retentionPermErr with
              | some e => { old with err := some e }
              | none => ⟨rMode, rDate, legalHold, none⟩
  else
    match E.globalBucketObjectLockConfig.get? bucket with
    | none => old
    | some retention =>
      if retention.isEmpty ∧ (old.mode = .compliance ∨ old.mode = .governance) then
        { old with err := some .errObjectLocked }
      else
        match retentionPermErr with
        | some e => { old with err := some e }
        | none =>
          match l.utcNowNTP 0 with
          | none => { old with err := some .errObjectLocked }
          | some t =>
            if objExists ∧ old.retainDate > t then { old with err := some .errObjectLocked }
            else if !isObjectLockLegalHoldRequested h then
              ⟨retention.mode, t + retention.validity, old.legalHold, none⟩
            else old

/-- `checkPutObjectLockAllowed` behind the lookup. -/
def checkPutHeaders (l : Lookup) (h : Header) (bucket : Bytes) (objExists : Bool)
    (retentionPermErr : Option APIErrorCode) (old : PutLock) : PutLock :=
  if isObjectLockLegalHoldRequested h then
    match E.globalBucketObjectLockConfig.get? bucket with
    | none => { old with err := some .errInvalidBucketObjectLockConfiguration }
    | some _ =>
      match parseObjectLockLegalHoldHeaders h with
      -- the code of `err`, which is nil here, in place of the error of the header
      | .error _ => { old with legalHold := .empty }
      | .ok legalHold =>
        checkPutRetention E l h bucket objExists retentionPermErr { old with legalHold }
  else checkPutRetention E l h bucket objExists retentionPermErr old

/-- `checkPutObjectLockAllowed`; the permission for legal holds is not looked at. -/
def checkPutObjectLockAllowed (s : Store) (l : Lookup) (h : Header) (bucket object : Bytes)
    (retentionPermErr _legalHoldPermErr : Option APIErrorCode) : PutLock :=
  match l.getOpts with
  | some e => ⟨.invalid, 0, .empty, some (.toAPIError e)⟩
  | none =>
    match l.getObjectInfo K s bucket object with
    | .error .panic => ⟨.invalid, 0, .empty, some (.toAPIError .panic)⟩
    | .error _ => checkPutHeaders E l h bucket false retentionPermErr ⟨.invalid, 0, .empty, none⟩
    | .ok entries =>
      let r := getObjectRetentionMeta E entries
      if E.globalWORMEnabled ∨ r.mode = .compliance then
        ⟨.invalid, 0, .empty, some .errObjectLocked⟩
      else
        let legalHold := getObjectLegalHoldMeta entries
        if legalHold = .on then ⟨r.mode, r.retainUntilDate, legalHold, some .errObjectLocked⟩
        else
          checkPutHeaders E l h bucket true retentionPermErr ⟨r.mode, r.retainUntilDate,
            legalHold, none⟩

/-- `enforceRetentionBypassForDelete`, for its error. -/
def enforceRetentionBypassForDelete (s : Store) (l : Lookup) (h : Header) (bucket object : Bytes)
    (govBypassPerm : Option APIErrorCode) : Option APIErrorCode :=
  if E.globalWORMEnabled then some .errObjectLocked
  else
    match l.getOpts with
    | some e => some (.toAPIError e)
    | none =>
      match l.getObjectInfo K s bucket object with
      | .error e => if isNoSuchKey e then none else some (.toAPIError e)
      | .ok entries =>
        let ret := getObjectRetentionMeta E entries
        if getObjectLegalHoldMeta entries = .on then some .errObjectLocked
        else if ret.mode = .invalid then none
        else
          match l.utcNowNTP 0 with
          | none => some .errObjectLocked
          | some t =>
            if ret.retainUntilDate < t then none
            else if isObjectLockGovernanceBypassSet h ∧ ret.mode = .governance ∧
              govBypassPerm = none then
              none
            else some .errObjectLocked

/-! ## Handlers -/

/-- A request that writes an object. `earlier` and `later` are the errors the handler has for the
request in front of the lock check and behind it. -/
structure PutRequest where
  bucket : Bytes
  object : Bytes
  header : Header
  lookup : Lookup
  retPerms : Option APIErrorCode
  holdPerms : Option APIErrorCode
  earlier : Option APIErrorCode
  later : Option APIErrorCode

structure DeleteRequest where
  bucket : Bytes
  object : Bytes
  header : Header
  lookup : Lookup
  govBypassPerms : Option APIErrorCode
  earlier : Option APIErrorCode
  later : Option APIErrorCode

structure DeleteTarget where
  objectName : Bytes
  lookup : Lookup
  checkRequestAuthType : Option APIErrorCode
  govBypassPerms : Option APIErrorCode

structure MapOrder where
  order : List Bytes → List Bytes
  isPerm : ∀ l, (order l).Perm l

inductive Request where
  | putObject (req : PutRequest) (r : PutObjReader) (metadata : OrdMap Bytes Bytes) (now : Nat)
  | copyObject (req : PutRequest) (srcBucket srcObject : Bytes) (src : CopySource) (now : Nat)
  | completeMultipartUpload (req : PutRequest) (uploadID : Bytes) (parts : List CompletePart)
  | postPolicyBucket (bucket object : Bytes) (earlier : Option APIErrorCode) (r : PutObjReader)
      (metadata : OrdMap Bytes Bytes) (now : Nat)
  | deleteObject (req : DeleteRequest)
  | deleteMultipleObjects (bucket : Bytes) (header : Header) (earlier : Option APIErrorCode)
      (objects : List DeleteTarget) (order : MapOrder)
  /-- A round, by what the walks of its buckets deliver and what the rules of a bucket say. -/
  | lifecycleRound (walked : List (Bytes × List ObjectInfo)) (isDeleteAction : Bytes →
    ObjectInfo → Bool)

/-- The lock entries of a new object. -/
def setLock (keyMode keyDate keyHold : Bytes) (lock : PutLock) (metadata : OrdMap Bytes Bytes) :
    OrdMap Bytes Bytes :=
  let metadata :=
    if lock.mode = .invalid then metadata
    else (metadata.insert keyMode lock.mode.text).insert keyDate (E.formatTime lock.retainDate)
  if lock.legalHold = .empty then metadata else metadata.insert keyHold lock.legalHold.text

/-- `FilterObjectLockMetadata` with both filters on. -/
def filterObjectLockMetadata (metadata : OrdMap Bytes Bytes) : OrdMap Bytes Bytes :=
  ((metadata.erase amzObjectLockLegalHold).erase amzObjectLockMode).erase
    amzObjectLockRetainUntilDate

/-- A handler that writes: the lock check, and the call for the lock it gives. -/
def PutRequest.handle (s : Store) (req : PutRequest) (call : PutLock → Op) :
    Except APIErrorCode (List Op) :=
  match req.earlier with
  | some e => .error e
  | none =>
    let lock := checkPutObjectLockAllowed K E s req.lookup req.header req.bucket req.object
      req.retPerms req.holdPerms
    match lock.err.or req.later with
    | some e => .error e
    | none => .ok [call lock]

/-- The names that a bulk delete may delete; a signature that does not match ends the request. -/
def deletableNames (s : Store) (bucket : Bytes) (header : Header) :
    List DeleteTarget → Except APIErrorCode (List Bytes)
  | [] => .ok []
  | t :: ts =>
    match t.checkRequestAuthType with
    | some e =>
      if e = .errSignatureDoesNotMatch ∨ e = .errInvalidAccessKeyID then .error e
      else deletableNames s bucket header ts
    | none =>
      match enforceRetentionBypassForDelete K E s t.lookup header bucket t.objectName
          t.govBypassPerms with
      | some (.toAPIError .panic) => .error (.toAPIError .panic)
      | some _ => deletableNames s bucket header ts
      | none => (deletableNames s bucket header ts).map (t.objectName :: ·)

/-- The calls of the object layer that a request leads to, or the answer it gets without one. -/
def Request.calls (s : Store) : Request → Except APIErrorCode (List Op)
  | .putObject req r metadata now =>
    req.handle K E s fun lock => .putObject req.bucket req.object r
      (setLock E (lit "x-amz-object-lock-mode") (lit "x-amz-object-lock-retain-until-date")
        (lit "x-amz-object-lock-legal-hold") lock metadata) now
  | .copyObject req srcBucket srcObject src now =>
    req.handle K E s fun lock =>
      let userDefined := setLock E amzObjectLockMode amzObjectLockRetainUntilDate
        amzObjectLockLegalHold
        lock (filterObjectLockMetadata src.userDefined)
      .copyObject srcBucket srcObject req.bucket req.object { src with userDefined } now
  | .completeMultipartUpload req uploadID parts =>
    match req.earlier with
    | some e => .error e
    | none =>
      if isObjectLockRequested req.header ∨ isObjectLockGovernanceBypassSet req.header then
        .error .errInvalidRequest
      else req.handle K E s fun _ => .completeMultipartUpload req.bucket req.object uploadID parts
  | .postPolicyBucket bucket object earlier r metadata now =>
    match earlier with
    | some e => .error e
    | none => .ok [.putObject bucket object r metadata now]
  | .deleteObject req =>
    match req.earlier.or <| (enforceRetentionBypassForDelete K E s req.lookup req.header req.bucket
        req.object req.govBypassPerms).or req.later with
    | some e => .error e
    | none => .ok [.deleteObject req.bucket req.object]
  | .deleteMultipleObjects bucket header earlier objects order =>
    match earlier with
    | some e => .error e
    | none =>
      (deletableNames K E s bucket header objects).map fun names =>
        (order.order names.dedup).map (.deleteObject bucket ·)
  | .lifecycleRound walked isDeleteAction =>
    .ok <| walked.flatMap fun w =>
      (w.2.filter (isDeleteAction w.1)).map fun obj => .deleteObject w.1 obj.name

def Request.exec (s : Store) (req : Request) : Store :=
  match req.calls K E s with
  | .error _ => s
  | .ok ops => run K s ops

/-! ## The law -/

/-- The lock entries have a legal hold, or a compliance date that every reading of the clock is
before. -/
def Held (entries : OrdMap Bytes Bytes) (clock : Nat → Option Int) : Prop :=
  getObjectLegalHoldMeta entries = .on ∨
    (getObjectRetentionMeta E entries).mode = .compliance ∧
      ∀ i t, clock i = some t → t < (getObjectRetentionMeta E entries).retainUntilDate

/-- The lock entries have a governance date that every reading of the clock is before. -/
def Governed (entries : OrdMap Bytes Bytes) (clock : Nat → Option Int) : Prop :=
  (getObjectRetentionMeta E entries).mode = .governance ∧
    ∀ i t, clock i = some t → t < (getObjectRetentionMeta E entries).retainUntilDate

/-- The lookup of a request that writes finds the object; an object under governance is in a bucket
with object lock, and the request has no malformed legal hold header. -/
def PutRequest.Guarded (s : Store) (entries : OrdMap Bytes Bytes) (req : PutRequest) : Prop :=
  (∃ found, req.lookup.getObjectInfo K s req.bucket req.object = .ok found) ∧
    (Held E entries req.lookup.utcNowNTP ∨
      Governed E entries req.lookup.utcNowNTP ∧
        (∃ retention, E.globalBucketObjectLockConfig.get? req.bucket = some retention) ∧
        ∃ hold, parseObjectLockLegalHoldHeaders req.header = .ok hold)

/-- The lookup of a delete does not fail with "not found", and an object under governance is not
deleted with the bypass header and the permission to bypass. -/
def DeleteGuarded (s : Store) (entries : OrdMap Bytes Bytes) (l : Lookup) (h : Header)
    (bucket object : Bytes) (govBypassPerm : Option APIErrorCode) : Prop :=
  (∀ e, l.getObjectInfo K s bucket object = .error e → isNoSuchKey e = false) ∧
    (Held E entries l.utcNowNTP ∨
      Governed E entries l.utcNowNTP ∧
        ¬ (isObjectLockGovernanceBypassSet h = true ∧ govBypassPerm = none))

/-- What a request that is about the object has to keep to: the checks see the lock, and the paths
without a check do not get to the object. -/
def Request.Guarded (s : Store) (b o : Bytes) (entries : OrdMap Bytes Bytes) : Request → Prop
  | .putObject req _ _ _ | .copyObject req _ _ _ _ | .completeMultipartUpload req _ _ =>
    req.bucket = b → req.object = o → req.Guarded K E s entries
  | .postPolicyBucket bucket object earlier _ _ _ => bucket = b → object = o → earlier ≠ none
  | .deleteObject req =>
    req.bucket = b → req.object = o →
      DeleteGuarded K E s entries req.lookup req.header req.bucket req.object req.govBypassPerms
  | .deleteMultipleObjects bucket header _ objects _ =>
    bucket = b → ∀ t ∈ objects, t.objectName = o →
      DeleteGuarded K E s entries t.lookup header bucket t.objectName t.govBypassPerms
  | .lifecycleRound walked isDeleteAction =>
    ∀ w ∈ walked, w.1 = b → ∀ obj ∈ w.2, obj.name = o → isDeleteAction w.1 obj = false

/-- The calls of a request on other objects are plain, and those objects are apart from this one. -/
def Request.Elsewhere (s : Store) (b o : Bytes) (req : Request) : Prop :=
  ∀ ops, req.calls K E s = .ok ops → ∀ op ∈ ops, op.target ≠ some (b, o) →
    op.ApartFrom (makeKey b o)

/-- A sequence of requests that are guarded where they stand. -/
def GuardedRun (b o : Bytes) (entries : OrdMap Bytes Bytes) : Store → List Request → Prop
  | _, [] => True
  | s, req :: reqs =>
    req.Guarded K E s b o entries ∧ req.Elsewhere K E s b o ∧
      GuardedRun b o entries (req.exec K E s) reqs

variable {K E} {s : Store} {b o : Bytes} {m : FsMetaV1} {v : Bytes}

variable {l : Lookup}

theorem Lookup.getObjectInfo_ok {found : OrdMap Bytes Bytes} (hb : b ≠ [])
    (hr : s.get? (makeKey b o) = some ⟨.json m, v⟩) (h : l.getObjectInfo K s b o = .ok found) :
    found = m.entries := by
  have huser : userDefined K s b o = .ok found := by
    unfold Lookup.getObjectInfo at h
    split at h
    · cases h
    · cases hu : userDefined K s b o with
      | error e => rw [hu] at h; cases h
      | ok f => rw [hu] at h; cases h; rfl
  unfold userDefined at huser
  rw [if_neg hb, cGetMeta, hr] at huser
  simp only [unmarshalMeta] at huser
  split at huser
  · cases huser
    rfl
  · cases huser

variable {h : Header}

theorem checkPutRetention_err {retention : Retention}
    (hworm : E.globalBucketObjectLockConfig.get? b = some retention) {old : PutLock}
    (hdate : ∀ i t, l.utcNowNTP i = some t → t < old.retainDate) (perm : Option APIErrorCode) :
    (checkPutRetention E l h b true perm old).err ≠ none := by
  unfold checkPutRetention
  rw [hworm]
  split
  · dsimp only
    split
    · simp
    split
    · simp
    split
    · simp
    · next t ht => simp [hdate 1 t ht]
  · dsimp only
    split
    · simp
    split
    · simp
    split
    · simp
    · next t ht => simp [hdate 0 t ht]

theorem checkPutObjectLockAllowed_err (perm hold : Option APIErrorCode)
    (hfound : l.getObjectInfo K s b o = .ok m.entries)
    (hlock : Held E m.entries l.utcNowNTP ∨ Governed E m.entries l.utcNowNTP ∧
      (∃ retention, E.globalBucketObjectLockConfig.get? b = some retention) ∧
      ∃ hold, parseObjectLockLegalHoldHeaders h = .ok hold) :
    (checkPutObjectLockAllowed K E s l h b o perm hold).err ≠ none := by
  unfold checkPutObjectLockAllowed
  rw [hfound]
  split
  · simp
  dsimp only
  split
  · simp
  · next hmode =>
    rw [not_or] at hmode
    split
    · simp
    · next hhold =>
      -- neither a legal hold nor compliance, so the object is under governance
      rcases hlock with (hon | ⟨hc, -⟩) | ⟨⟨-, hdate⟩, ⟨retention, hworm⟩, lh, hlh⟩
      · exact absurd hon hhold
      · exact absurd hc hmode.2
      · unfold checkPutHeaders
        rw [hworm, hlh]
        split
        · exact checkPutRetention_err hworm hdate perm
        · exact checkPutRetention_err hworm hdate perm

theorem PutRequest.Guarded.handle_error {req : PutRequest} (hb : req.bucket ≠ [])
    (hr : s.get? (makeKey req.bucket req.object) = some ⟨.json m, v⟩)
    (hg : req.Guarded K E s m.entries) (call : PutLock → Op) :
    ∃ e, req.handle K E s call = .error e := by
  obtain ⟨⟨found, hfound⟩, hlock⟩ := hg
  rw [Lookup.getObjectInfo_ok hb hr hfound] at hfound
  have herr := checkPutObjectLockAllowed_err req.retPerms req.holdPerms hfound hlock
  unfold PutRequest.handle
  split
  · exact ⟨_, rfl⟩
  · dsimp only
    obtain ⟨e, he⟩ := Option.ne_none_iff_exists'.1 herr
    exact ⟨e, by rw [he]; rfl⟩

theorem DeleteGuarded.err {perm : Option APIErrorCode} (hb : b ≠ [])
    (hr : s.get? (makeKey b o) = some ⟨.json m, v⟩)
    (hg : DeleteGuarded K E s m.entries l h b o perm) :
    enforceRetentionBypassForDelete K E s l h b o perm ≠ none := by
  obtain ⟨hmiss, hlock⟩ := hg
  unfold enforceRetentionBypassForDelete
  split
  · simp
  split
  · simp
  cases hinfo : l.getObjectInfo K s b o with
  | error e => simp [hmiss e hinfo]
  | ok found =>
    rw [Lookup.getObjectInfo_ok hb hr hinfo]
    dsimp only
    split
    · simp
    next hhold =>
    rcases hlock with (hon | ⟨hmode, hdate⟩) | ⟨⟨hmode, hdate⟩, hbypass⟩
    · exact absurd hon hhold
    · rw [if_neg (by simp [hmode])]
      split
      · simp
      · next t ht =>
        rw [if_neg (by have := hdate 0 t ht; omega), if_neg (by simp [hmode])]
        simp
    · rw [if_neg (by simp [hmode])]
      split
      · simp
      · next t ht =>
        rw [if_neg (by have := hdate 0 t ht; omega), if_neg (by simpa [hmode] using hbypass)]
        simp

theorem exists_of_mem_deletableNames {ts : List DeleteTarget} {names : List Bytes}
    (hn : deletableNames K E s b h ts = .ok names) (ho : o ∈ names) :
    ∃ t ∈ ts, t.objectName = o ∧
      enforceRetentionBypassForDelete K E s t.lookup h b t.objectName t.govBypassPerms = none := by
  induction ts generalizing names with
  | nil => cases hn; cases ho
  | cons t ts ih =>
    have hrest {names : List Bytes} (hn : deletableNames K E s b h ts = .ok names)
      (ho : o ∈ names) :
        ∃ t' ∈ t :: ts, t'.objectName = o ∧
          enforceRetentionBypassForDelete K E s t'.lookup h b t'.objectName t'.govBypassPerms =
              none := by
      obtain ⟨t', ht', h'⟩ := ih hn ho
      exact ⟨t', List.mem_cons_of_mem _ ht', h'⟩
    unfold deletableNames at hn
    split at hn
    · split at hn
      · cases hn
      · exact hrest hn ho
    · split at hn
      · cases hn
      · exact hrest hn ho
      · next hnone =>
        cases hd : deletableNames K E s b h ts with
        | error e => rw [hd] at hn; cases hn
        | ok ns =>
          rw [hd] at hn
          cases hn
          rcases List.mem_cons.1 ho with rfl | ho
          · exact ⟨t, List.mem_cons_self, rfl, hnone⟩
          · exact hrest hd ho

theorem Request.Guarded.target_ne {req : Request} (hb : b ≠ [])
    (hr : s.get? (makeKey b o) = some ⟨.json m, v⟩) (hg : req.Guarded K E s b o m.entries)
    {ops : List Op} (hops : req.calls K E s = .ok ops) : ∀ op ∈ ops, op.target ≠ some (b, o) := by
  have hput {req : PutRequest} {call : PutLock → Op} {ops : List Op}
      (hcall : ∀ lock, (call lock).target = some (req.bucket, req.object))
      (hg : req.bucket = b → req.object = o → req.Guarded K E s m.entries)
      (hops : req.handle K E s call = .ok ops) : ∀ op ∈ ops, op.target ≠ some (b, o) := by
    intro op hop ht
    have hone : ∃ lock, op = call lock := by
      unfold PutRequest.handle at hops
      split at hops
      · cases hops
      · dsimp only at hops
        split at hops
        · cases hops
        · cases hops
          exact ⟨_, List.mem_singleton.1 hop⟩
    obtain ⟨lock, rfl⟩ := hone
    rw [hcall] at ht
    cases ht
    obtain ⟨e, he⟩ := (hg rfl rfl).handle_error hb hr call
    rw [he] at hops
    cases hops
  cases req with
  | putObject req r metadata now =>
    rw [Request.calls] at hops
    refine hput ?_ hg hops
    exact fun _ => rfl
  | copyObject req sb so src now =>
    rw [Request.calls] at hops
    refine hput ?_ hg hops
    exact fun _ => rfl
  | completeMultipartUpload req u parts =>
    rw [Request.calls] at hops
    split at hops
    · cases hops
    · split at hops
      · cases hops
      · refine hput ?_ hg hops
        exact fun _ => rfl
  | postPolicyBucket b' o' earlier r metadata now =>
    cases earlier with
    | some e => cases hops
    | none =>
      cases hops
      rintro op hop ht
      rw [List.mem_singleton.1 hop] at ht
      cases ht
      exact hg rfl rfl rfl
  | deleteObject req =>
    rw [Request.calls] at hops
    split at hops
    · cases hops
    · next hnone =>
      cases hops
      rintro op hop ht
      rw [List.mem_singleton.1 hop] at ht
      cases ht
      have hn := (Option.or_eq_none_iff.1 (Option.or_eq_none_iff.1 hnone).2).1
      exact (hg rfl rfl).err hb hr hn
  | deleteMultipleObjects b' h earlier objects order =>
    cases earlier with
    | some e => cases hops
    | none =>
      simp only [Request.calls] at hops
      cases hn : deletableNames K E s b' h objects with
      | error e => rw [hn] at hops; cases hops
      | ok names =>
        rw [hn] at hops
        cases hops
        rintro op hop ht
        obtain ⟨name, hname, rfl⟩ := List.mem_map.1 hop
        cases ht
        have hmem := List.mem_dedup.1 ((order.isPerm _).mem_iff.1 hname)
        obtain ⟨t, htm, rfl, hnone⟩ := exists_of_mem_deletableNames hn hmem
        exact (hg rfl t htm rfl).err hb hr hnone
  | lifecycleRound walked act =>
    cases hops
    rintro op hop ht
    obtain ⟨w, hw, hop⟩ := List.mem_flatMap.1 hop
    obtain ⟨obj, hobj, rfl⟩ := List.mem_map.1 hop
    cases ht
    obtain ⟨hmem, hact⟩ := List.mem_filter.1 hobj
    rw [hg w hw rfl obj hmem rfl] at hact
    cases hact

theorem Request.Guarded.exec {req : Request} (hb : b ≠ []) (hs : PlainStore s)
    (hr : s.get? (makeKey b o) = some ⟨.json m, v⟩) (hg : req.Guarded K E s b o m.entries)
    (he : req.Elsewhere K E s b o) :
    PlainStore (req.exec K E s) ∧
      objectView (req.exec K E s) (makeKey b o) = objectView s (makeKey b o) := by
  unfold Request.exec
  cases hops : req.calls K E s with
  | error e => exact ⟨hs, rfl⟩
  | ok ops =>
    have hne := hg.target_ne hb hr hops
    have hapart : ∀ op ∈ ops, op.ApartFrom (makeKey b o) :=
      fun op hop => he ops hops op hop (hne op hop)
    exact ⟨run_plainStore hs fun op hop => (hapart op hop).2.1, run_objectView_of_apart hs hapart⟩

/-- A locked object survives every sequence of requests that are guarded where they stand. -/
theorem lockedObject_kept {reqs : List Request} (hb : b ≠ []) (hs : PlainStore s)
    (hr : s.get? (makeKey b o) = some ⟨.json m, v⟩) (hrun : GuardedRun K E b o m.entries s reqs) :
    objectView (reqs.foldl (Request.exec K E) s) (makeKey b o) = objectView s (makeKey b o) := by
  induction reqs generalizing s with
  | nil => rfl
  | cons req reqs ih =>
    obtain ⟨hg, he, hrest⟩ := hrun
    obtain ⟨hs', hview⟩ := hg.exec hb hs hr he
    have hr' : (req.exec K E s).get? (makeKey b o) = some ⟨.json m, v⟩ := by
      cases hget : (req.exec K E s).get? (makeKey b o) with
      | none => simp [objectView, hget, hr] at hview
      | some r =>
        simp only [objectView, hget, hr, Option.map_some, Option.some.injEq, Prod.mk.injEq] at hview
        rw [hview.1]
    exact (ih hs' hr' hrest).trans hview

/-! ## Locked objects on a drive in memory -/

/-- A server with object lock for one bucket; every date is 100. -/
def lockServer : LockConfig where
  globalWORMEnabled := false
  globalBucketObjectLockConfig := (∅ : OrdMap Bytes Retention).insert (lit "bkt") ⟨.invalid, 0⟩
  parseTime _ := some 100
  formatTime _ := lit "2099-01-01T00:00:00Z"

/-- Lock entries of a mode, with a date. -/
def lockedUntil (mode : Mode) : OrdMap Bytes Bytes :=
  ((∅ : OrdMap Bytes Bytes).insert (lit "x-amz-object-lock-mode") mode.text).insert
    (lit "x-amz-object-lock-retain-until-date") (lit "2099-01-01T00:00:00Z")

/-- A bucket with one object of these lock entries. -/
def lockedStore (entries : OrdMap Bytes Bytes) : Store :=
  run (memoryDrive []) (initStore (memoryDrive []) fun _ => 0)
    [.makeBucket (lit "bkt") 1,
      .putObject (lit "bkt") (lit "a") (bodyReader (lit "data") (List.replicate 16 7)) entries 2]

def lockedView (s : Store) : Option (Record × List (Option Bytes)) :=
  objectView s (makeKey (lit "bkt") (lit "a"))

/-- A write of the object at time 1, with a header and a lookup that may fail. -/
def overwrite (header : Header) (fault : Option Err) : Request :=
  .putObject ⟨lit "bkt", lit "a", header, ⟨none, fault, fun _ => some 1⟩, none, none, none, none⟩
    (bodyReader (lit "new") (List.replicate 16 8)) ∅ 3

/-- A delete of the object at time 1, by a caller who may bypass governance. -/
def bypassDelete : Request :=
  .deleteObject ⟨lit "bkt", lit "a",
    (∅ : Header).insert amzObjectLockBypassGovernance [lit "true"],
      ⟨none, none, fun _ => some 1⟩, none, none, none⟩

def storedRetention (r : Record) : Option ObjectRetention :=
  match r.blob with
  | .json m => some (getObjectRetentionMeta lockServer m.entries)
  | .gob _ => none

/-- Neither an overwrite nor a delete with the bypass header gets to an object under compliance. -/
theorem lockedObject_kept_compliance :
    lockedView ([overwrite ∅ none, bypassDelete].foldl (Request.exec (memoryDrive []) lockServer)
        (lockedStore (lockedUntil .compliance))) =
          lockedView (lockedStore (lockedUntil .compliance)) := by
  obtain ⟨m, v, hr, hret⟩ : ∃ m v,
      (lockedStore (lockedUntil .compliance)).get? (makeKey (lit "bkt") (lit "a")) =
        some ⟨.json m, v⟩ ∧
      getObjectRetentionMeta lockServer m.entries = ⟨.compliance, 100⟩ := by
    have hlock : ((lockedStore (lockedUntil .compliance)).get? (makeKey (lit "bkt") (lit "a"))).bind
        storedRetention = some ⟨.compliance, 100⟩ := by decide
    obtain ⟨⟨_ | _, v⟩, hr, hret⟩ := Option.bind_eq_some_iff.1 hlock
    · exact ⟨_, v, hr, Option.some.inj hret⟩
    · cases hret
  have hheld : Held lockServer m.entries fun _ => some 1 := by
    refine .inr ⟨by rw [hret], fun i t h => ?_⟩
    cases h
    rw [hret]
    decide
  have hlookup : ∃ found, Lookup.getObjectInfo (memoryDrive []) ⟨none, none, fun _ => some 1⟩
      (lockedStore (lockedUntil .compliance)) (lit "bkt") (lit "a") = .ok found := by
    have hok : (Lookup.getObjectInfo (memoryDrive []) ⟨none, none, fun _ => some 1⟩
        (lockedStore (lockedUntil .compliance)) (lit "bkt") (lit "a")).toOption.isSome =
          true := by decide +kernel
    cases h : Lookup.getObjectInfo (memoryDrive []) ⟨none, none, fun _ => some 1⟩
        (lockedStore (lockedUntil .compliance)) (lit "bkt") (lit "a") with
    | error e => rw [h] at hok; cases hok
    | ok found => exact ⟨found, rfl⟩
  have hput : (overwrite ∅ none).calls (memoryDrive []) lockServer
      (lockedStore (lockedUntil .compliance)) = .error .errObjectLocked := by
    have hchk : (checkPutObjectLockAllowed (memoryDrive []) lockServer
        (lockedStore (lockedUntil .compliance)) ⟨none, none, fun _ => some 1⟩ ∅
          (lit "bkt") (lit "a")
        none none).err = some .errObjectLocked := by decide +kernel
    simp [overwrite, Request.calls, PutRequest.handle, hchk]
  have hdel : bypassDelete.calls (memoryDrive []) lockServer
    (lockedStore (lockedUntil .compliance)) =
      .error .errObjectLocked := by
    have hchk : enforceRetentionBypassForDelete (memoryDrive []) lockServer
        (lockedStore (lockedUntil .compliance)) ⟨none, none, fun _ => some 1⟩
        ((∅ : Header).insert amzObjectLockBypassGovernance [lit "true"]) (lit "bkt")
          (lit "a") none =
        some .errObjectLocked := by decide +kernel
    simp [bypassDelete, Request.calls, hchk]
  have hexec : (overwrite ∅ none).exec (memoryDrive []) lockServer
    (lockedStore (lockedUntil .compliance)) =
      lockedStore (lockedUntil .compliance) := by rw [Request.exec, hput]
  have hplain : PlainStore (lockedStore (lockedUntil .compliance)) := by
    refine run_plainStore (initStore_plainStore _ _) ?_
    rintro op (_ | ⟨_, _ | ⟨_, ⟨⟩⟩⟩)
    · exact ⟨by decide, show colon ∉ lit "bkt" by decide⟩
    · exact ⟨by decide, show colon ∉ lit "bkt" ∧ colon ∉ lit "a" by decide⟩
  refine lockedObject_kept (by decide) hplain hr ⟨fun _ _ => ⟨hlookup, .inl hheld⟩,
    fun ops hops => ?_, fun _ _ => ⟨fun e he => ?_, .inl hheld⟩, fun ops hops => ?_, trivial⟩
  · rw [hput] at hops
    cases hops
  · obtain ⟨found, hfound⟩ := hlookup
    rw [hexec] at he
    exact absurd (hfound.symm.trans he) (by simp)
  · rw [hexec, hdel] at hops
    cases hops

/-- A form upload and a lifecycle round get to an object under compliance, and so does a write whose
lookup fails; a write with a malformed legal hold header gets to an object under governance, without
the bypass header. -/
theorem lockedObject_lost :
    ((lockedStore (lockedUntil .compliance)).get? (makeKey (lit "bkt") (lit "a"))).bind
      storedRetention =
        some ⟨.compliance, 100⟩ ∧
      lockedView (Request.exec (memoryDrive []) lockServer (lockedStore (lockedUntil .compliance))
          (.postPolicyBucket (lit "bkt") (lit "a") none
            (bodyReader (lit "new") (List.replicate 16 8)) ∅ 3)) ≠
        lockedView (lockedStore (lockedUntil .compliance)) ∧
      lockedView (Request.exec (memoryDrive []) lockServer (lockedStore (lockedUntil .compliance))
          (.lifecycleRound [(lit "bkt", [⟨lit "bkt", lit "a", 2, 4, false, false, [], []⟩])]
            fun _ _ => true)) =
        none ∧
      lockedView (Request.exec (memoryDrive []) lockServer (lockedStore (lockedUntil .compliance))
          (overwrite ∅ (some (.errorf (lit "Operation timed out"))))) ≠
        lockedView (lockedStore (lockedUntil .compliance)) ∧
      ((lockedStore (lockedUntil .governance)).get? (makeKey (lit "bkt") (lit "a"))).bind
        storedRetention =
        some ⟨.governance, 100⟩ ∧
      lockedView (Request.exec (memoryDrive []) lockServer (lockedStore (lockedUntil .governance))
          (overwrite ((∅ : Header).insert amzObjectLockLegalHold [lit "MAYBE"]) none)) ≠
        lockedView (lockedStore (lockedUntil .governance)) := by
  refine ⟨by decide, ?_, ?_, ?_, by decide, ?_⟩ <;> decide +kernel

end S3Kinetic
