import S3Kinetic.System

/-!
# Reading objects

`GetObjectNInfo` resolves the range of a request, points a pooled connection at the object and hands
out an `io.LimitReader` over it. Every `Client.Read` fetches the metadata again and then one value:
the object's own, or that of the part whose index the connection keeps in `NextPartNumber`. The
offset of a read is the connection's `DataOffset`, which no read changes.

Readers of encrypted and of compressed objects are left out: `getObjectNInfo` has no result for
them.
-/

namespace S3Kinetic

open ByteString Decimal

/-! ## Range specifications -/

structure HTTPRangeSpec where
  isSuffixLength : Bool
  start : Int
  endPos : Int
  deriving DecidableEq

def byteRangePrefix : Bytes := lit "bytes="

/-- One byte position of a range, `-1` if it is left out. `Which` and `which` name it in errors. -/
def parseBytePos (rangeString : Bytes) (Which which : String) (offsetString : Bytes) :
    Except Err Int :=
  if offsetString = [] then .ok (-1)
  else if hasPrefix offsetString (lit "+") then
    .error (.errorf (lit "Byte position ('" ++ offsetString ++ lit "') must not have a sign"))
  else
    match parseInt64 offsetString with
    | (_, some _) =>
      .error (.errorf (lit "'" ++ rangeString ++ lit "' does not have a valid " ++ lit which ++
        lit " byte position value"))
    | (offset, none) =>
      if offset < 0 then
        .error (.errorf (lit Which ++ lit " byte position is negative ('" ++
          formatInt offset ++ lit "')"))
      else .ok offset

/-- `parseRequestRangeSpec`. -/
def parseRequestRangeSpec (rangeString : Bytes) : Except Err HTTPRangeSpec :=
  if !hasPrefix rangeString byteRangePrefix then
    .error (.errorf (lit "'" ++ rangeString ++ lit "' does not start with '" ++
      byteRangePrefix ++ lit "'"))
  else
    match (rangeString.drop byteRangePrefix.length).span (· ≠ 45) with
    | (_, []) =>
      .error (.errorf (lit "'" ++ rangeString ++ lit "' does not have a valid range value"))
    | (offsetBeginString, _ :: offsetEndString) =>
      match parseBytePos rangeString "First" "first" offsetBeginString with
      | .error e => .error e
      | .ok offsetBegin =>
        match parseBytePos rangeString "Last" "last" offsetEndString with
        | .error e => .error e
        | .ok offsetEnd =>
          if offsetBegin > -1 ∧ offsetEnd > -1 then
            if offsetBegin > offsetEnd then .error .errInvalidRange
            else .ok ⟨false, offsetBegin, offsetEnd⟩
          else if offsetBegin > -1 then .ok ⟨false, offsetBegin, -1⟩
          else if offsetEnd > -1 then
            if offsetEnd = 0 then .error .errInvalidRange else .ok ⟨true, -offsetEnd, -1⟩
          else .error (.errorf (lit "'" ++ rangeString ++ lit "' does not have valid range value"))

/-- `GetLength`; no specification means the whole resource. -/
def getLength (h : Option HTTPRangeSpec) (resourceSize : Int) : Except Err Int :=
  if resourceSize < 0 then .error (.errorf (lit "Resource size cannot be negative"))
  else
    match h with
    | none => .ok resourceSize
    | some h =>
      if h.isSuffixLength then .ok (if -h.start > resourceSize then resourceSize else -h.start)
      else if h.start ≥ resourceSize then .error .errInvalidRange
      else if h.endPos > -1 then
        .ok ((if resourceSize ≤ h.endPos then resourceSize - 1 else h.endPos) - h.start + 1)
      else if h.endPos = -1 then .ok (resourceSize - h.start)
      else .error (.errorf (lit "Unexpected range specification case"))

/-- `GetOffsetLength`. -/
def getOffsetLength (h : Option HTTPRangeSpec) (resourceSize : Int) : Except Err (Int × Int) :=
  match h with
  | none => .ok (0, resourceSize)
  | some h =>
    match getLength (some h) resourceSize with
    | .error e => .error e
    | .ok length =>
      .ok (if h.isSuffixLength then
          if resourceSize + h.start < 0 then 0 else resourceSize + h.start
        else h.start, length)

/-! ## Connections -/

structure Client where
  key : Bytes
  nextPartNumber : Nat
  dataOffset : Nat
  deriving DecidableEq

def freshClient : Client := ⟨[], 0, 0⟩

variable (K : Kineticd)

/-- The loop of `Client.Read` over the parts, which acts only at the index `NextPartNumber`. -/
def Client.readPart (s : Store) (c : Client) (m : FsMetaV1) (requestSize : Nat) :
    Client × Except Err Bytes :=
  match m.parts[c.nextPartNumber]? with
  | none => (c, .ok [])
  | some part =>
    if requestSize = 0 then (c, .ok [])
    else
      let partReqSize := if (requestSize : Int) > part.size then part.size else requestSize
      match cGet K s (partKey c.key (m.get keyVersion) part.number part.etag part.actualSize)
        part.size
          c.dataOffset partReqSize with
      | .error e => (c, .error e)
      | .ok value =>
        ({ c with nextPartNumber :=
            if c.nextPartNumber = m.parts.length - 1 then 0 else c.nextPartNumber + 1 }, .ok value)

/-- `Client.Read` into a buffer of `requestSize` bytes: the bytes it reports. Metadata that is no
JSON reads as the zero value. -/
def Client.read (s : Store) (c : Client) (requestSize : Nat) : Client × Except Err Bytes :=
  match cGetMeta s c.key with
  | .error _ => (c, .error .errFileNotFound)
  | .ok blob =>
    match unmarshalMeta K blob with
    | .error .panic => (c, .error .panic)
    | .error _ => (c, cGet K s c.key 0 c.dataOffset requestSize)
    | .ok m =>
      if m.parts = [] then
        (c, cGet K s c.key (parseInt64 (m.get keySize)).1 c.dataOffset requestSize)
      else c.readPart K s m requestSize

/-! ## Object readers -/

/-- What `GetObjectNInfo` returns: an empty reader for names that end in a slash, otherwise an
`io.LimitReader` that has `limit` bytes to go. -/
inductive GetObjectReader where
  | empty
  | limited (kc : Client) (limit : Nat)
  deriving DecidableEq

/-- `GetObjectReader.Read` into a buffer of `len` bytes; `none` is the end of the data. A read that
reports more bytes than its buffer has makes the consumer slice out of bounds. -/
def GetObjectReader.read (s : Store) :
    GetObjectReader → Nat → GetObjectReader × Except Err (Option Bytes)
  | .empty, _ => (.empty, .ok none)
  | .limited kc limit, len =>
    if limit = 0 then (.limited kc limit, .ok none)
    else
      match kc.read K s (min len limit) with
      | (kc, .error e) => (.limited kc limit, .error e)
      | (kc, .ok value) =>
        if min len limit < value.length then (.limited kc limit, .error .panic)
        else (.limited kc (limit - value.length), .ok (some value))

/-- The entries that mark encrypted and compressed objects. -/
def transformKeys : List Bytes :=
  [lit "X-Minio-Internal-Server-Side-Encryption-Iv",
    lit "X-Minio-Internal-Server-Side-Encryption-Seal-Algorithm",
    lit "X-Minio-Internal-Encrypted-Multipart",
    lit "X-Minio-Internal-Server-Side-Encryption-S3-Sealed-Key",
    lit "X-Minio-Internal-Server-Side-Encryption-S3-Kms-Key-Id",
    lit "X-Minio-Internal-Server-Side-Encryption-S3-Kms-Sealed-Key",
    lit "X-Minio-Internal-Server-Side-Encryption-Sealed-Key",
    lit "X-Minio-Internal-compression"]

/-- `crypto.IsEncrypted` or `IsCompressed`. -/
def transformed (entries : OrdMap Bytes Bytes) : Bool :=
  transformKeys.any fun k => (entries.get? k).isSome

/-- The metadata behind `getObjectInfo`. -/
def getObjectMeta (s : Store) (bucket object : Bytes) : Except Err FsMetaV1 :=
  match cGetMeta s (if bucket = [] then object else makeKey bucket object) with
  | .error _ => .error .errFileNotFound
  | .ok blob => unmarshalMeta K blob

theorem getObjectInfo_eq_getObjectMeta (s : Store) (bucket object : Bytes) :
    getObjectInfo K s bucket object =
      (getObjectMeta K s bucket object).map fun m => m.toObjectInfo bucket object := by
  unfold getObjectInfo getObjectMeta
  dsimp only
  cases cGetMeta s (if bucket = [] then object else makeKey bucket object) with
  | error e => rfl
  | ok blob =>
    dsimp only
    cases unmarshalMeta K blob <;> rfl

/-- `GetObjectNInfo` on the free connection `kc`. The connection keeps its `NextPartNumber`. -/
def getObjectNInfo (s : Store) (kc : Client) (bucket object : Bytes) (rs : Option HTTPRangeSpec) :
    Option (Except Err GetObjectReader) :=
  match checkBucketAndObjectNames K bucket object with
  | some e => some (.error e)
  | none =>
    match getObjectMeta K s bucket object with
    | .error e => some (.error (toObjectErr e [bucket, object]))
    | .ok m =>
      let size := (m.toObjectInfo bucket object).size
      if hasSuffix object [slash] then some (.ok .empty)
      else if transformed m.entries then none
      else
        match getOffsetLength rs size with
        | .error e => some (.error e)
        | .ok (off, length) =>
          if off > size ∨ off + length > size then some (.error (.invalidRange off length size))
          else
            some (.ok (.limited
              { kc with key := bucket ++ slash :: object, dataOffset := off.toNat } length.toNat))

/-- Draining a reader with buffers of the given sizes, up to the end of the data. -/
inductive Drains (s : Store) : GetObjectReader → (Nat → Nat) → Bytes → Prop
  | eof {gr gr' : GetObjectReader} {sizes : Nat → Nat}
      (h : gr.read K s (sizes 0) = (gr', .ok none)) : Drains s gr sizes []
  | read {gr gr' : GetObjectReader} {sizes : Nat → Nat} {value rest : Bytes}
      (h : gr.read K s (sizes 0) = (gr', .ok (some value)))
      (hrest : Drains s gr' (fun i => sizes (i + 1)) rest) : Drains s gr sizes (value ++ rest)

/-- A GET on the connection `kc`, drained with buffers of the given sizes, returns exactly
`data`. -/
def GetReturns (s : Store) (kc : Client) (bucket object : Bytes) (rs : Option HTTPRangeSpec)
    (sizes : Nat → Nat) (data : Bytes) : Prop :=
  ∃ gr, getObjectNInfo K s kc bucket object rs = some (.ok gr) ∧ Drains K s gr sizes data

def byteRange (data : Bytes) (off len : Int) : Bytes := (data.drop off.toNat).take len.toNat

def Accepted (rs : Option HTTPRangeSpec) : Prop :=
  ∀ h ∈ rs, ∃ rangeString, parseRequestRangeSpec rangeString = .ok h

variable {K} {s : Store}

/-! ## Ranges inside the resource -/

theorem parseRequestRangeSpec_ok {rangeString : Bytes} {h : HTTPRangeSpec}
    (hp : parseRequestRangeSpec rangeString = .ok h) :
    if h.isSuffixLength then h.start < 0
    else 0 ≤ h.start ∧ (h.endPos = -1 ∨ h.start ≤ h.endPos) := by
  unfold parseRequestRangeSpec at hp
  split_ifs at hp
  rcases hs : (rangeString.drop byteRangePrefix.length).span (· ≠ 45) with ⟨first, _ | ⟨c, last⟩⟩
  · simp only [hs] at hp
    cases hp
  · simp only [hs] at hp
    rcases hf : parseBytePos rangeString "First" "first" first with e | offsetBegin
    · simp [hf] at hp
    rcases hl : parseBytePos rangeString "Last" "last" last with e | offsetEnd
    · simp [hf, hl] at hp
    simp only [hf, hl] at hp
    split_ifs at hp <;> cases hp <;> simp <;> omega

theorem accepted_none : Accepted none := by
  intro h hh
  cases hh

variable {rs : Option HTTPRangeSpec}

theorem Accepted.bounds (h : Accepted rs) {size off len : Int}
    (h0 : 0 ≤ size) (hr : getOffsetLength rs size = .ok (off, len)) :
    0 ≤ off ∧ 0 ≤ len ∧ off + len ≤ size ∧ (0 < size → 0 < len) := by
  cases rs with
  | none =>
    cases hr
    omega
  | some h' =>
    obtain ⟨t, ht⟩ := h h' rfl
    have hspec := parseRequestRangeSpec_ok ht
    unfold getOffsetLength getLength at hr
    dsimp only at hr
    split_ifs at hr hspec <;> cases hr <;> omega

/-! ## Opening an object -/

theorem readable_eq_true_iff {k : Bytes} :
    readable K s k = true ↔ ∃ m v, s.get? k = some ⟨.json m, v⟩ ∧
      (K.marshal m).length ≤ maxMetaBytes := by
  unfold readable
  rcases s.get? k with _ | ⟨m | _, v⟩ <;> simp

variable {b o : Bytes}

theorem getObjectMeta_of_fits {v : Bytes} {m : FsMetaV1} (hb : b ≠ [])
    (hrec : s.get? (makeKey b o) = some ⟨.json m, v⟩)
    (hfits : (K.marshal m).length ≤ maxMetaBytes) :
    getObjectMeta K s b o = .ok m := by
  simp [getObjectMeta, if_neg hb, cGetMeta, hrec, unmarshalMeta, hfits]

variable {kc : Client} {gr : GetObjectReader}

theorem readable_of_getObjectNInfo
    (hb : b ≠ []) (h : getObjectNInfo K s kc b o rs = some (.ok gr)) :
    readable K s (makeKey b o) = true := by
  have hmeta : ∃ m, getObjectMeta K s b o = .ok m := by
    unfold getObjectNInfo at h
    cases hc : checkBucketAndObjectNames K b o with
    | some e => simp [hc] at h
    | none =>
      cases hm : getObjectMeta K s b o with
      | error e => simp [hc, hm] at h
      | ok m => exact ⟨m, rfl⟩
  rw [← getObjectInfo_eq_ok_iff hb, getObjectInfo_eq_getObjectMeta]
  obtain ⟨m, hm⟩ := hmeta
  exact ⟨m.toObjectInfo b o, by rw [hm]; rfl⟩

/-- An accepted range of an object that can be read opens a reader on the connection. -/
theorem getObjectNInfo_eq (kc : Client) {v : Bytes} {m : FsMetaV1}
    {size off len : Int} (hb : b ≠ []) (hargs : checkBucketAndObjectNames K b o = none)
    (hslash : hasSuffix o [slash] = false) (hrec : s.get? (makeKey b o) = some ⟨.json m, v⟩)
    (hfits : (K.marshal m).length ≤ maxMetaBytes) (hplain : transformed m.entries = false)
    (hsize : parseInt64 (m.get keySize) = (size, none)) (h0 : 0 ≤ size) (hrs : Accepted rs)
    (hres : getOffsetLength rs size = .ok (off, len)) :
    getObjectNInfo K s kc b o rs =
      some (.ok (.limited ⟨makeKey b o, kc.nextPartNumber, off.toNat⟩ len.toNat)) := by
  have hbounds := hrs.bounds h0 hres
  have hinfo : (m.toObjectInfo b o).size = size := by
    show (parseInt64 (m.get keySize)).1 = size
    rw [hsize]
  unfold getObjectNInfo
  simp only [hargs, getObjectMeta_of_fits hb hrec hfits, hslash, hplain, hinfo, hres]
  rw [if_neg Bool.false_ne_true, if_neg Bool.false_ne_true, if_neg (by omega)]
  rfl

/-! ## Draining -/

variable {sizes : Nat → Nat} {data : Bytes}

theorem Drains.unique {data' : Bytes}
    (h : Drains K s gr sizes data) (h' : Drains K s gr sizes data') : data = data' := by
  induction h generalizing data' with
  | eof h =>
    cases h' with
    | eof _ => rfl
    | read h1 _ => rw [h] at h1; cases h1
  | read h _ ih =>
    cases h' with
    | eof h1 => rw [h] at h1; cases h1
    | read h1 hrest =>
      rw [h] at h1
      cases h1
      rw [ih hrest]

theorem GetReturns.unique
    {data' : Bytes} (h : GetReturns K s kc b o rs sizes data)
    (h' : GetReturns K s kc b o rs sizes data') : data = data' := by
  obtain ⟨gr, hgr, hd⟩ := h
  obtain ⟨gr', hgr', hd'⟩ := h'
  rw [hgr] at hgr'
  cases hgr'
  exact hd.unique hd'

theorem drains_empty_iff :
    Drains K s .empty sizes data ↔ data = [] := by
  constructor
  · intro h
    cases h with
    | eof _ => rfl
    | read h _ => cases h
  · rintro rfl
    exact .eof rfl

theorem drains_limit_zero_iff :
    Drains K s (.limited kc 0) sizes data ↔ data = [] := by
  constructor
  · intro h
    cases h with
    | eof _ => rfl
    | read h _ => simp [GetObjectReader.read] at h
  · rintro rfl
    have hread : (GetObjectReader.limited kc 0).read K s (sizes 0) = (.limited kc 0, .ok none) := by
      simp [GetObjectReader.read]
    exact .eof hread

variable {limit : Nat}

theorem read_limited_some_iff {len : Nat} {value : Bytes} :
    (GetObjectReader.limited kc limit).read K s len = (gr, .ok (some value)) ↔
      0 < limit ∧ value.length ≤ min len limit ∧ ∃ kc', kc.read K s (min len limit) =
        (kc', .ok value) ∧
        gr = .limited kc' (limit - value.length) := by
  rw [GetObjectReader.read]
  rcases Nat.eq_zero_or_pos limit with rfl | h0
  · simp
  rw [if_neg (by omega)]
  rcases hr : kc.read K s (min len limit) with ⟨kc', e | v⟩
  · simp
  dsimp only
  split_ifs with hle
  · refine iff_of_false (fun h => ?_) ?_
    · cases h
    · rintro ⟨-, hlen, kc'', heq, -⟩
      cases heq
      omega
  · constructor
    · intro h
      cases h
      exact ⟨h0, by omega, kc', rfl, rfl⟩
    · rintro ⟨-, -, kc'', heq, rfl⟩
      cases heq
      rfl

theorem read_limited_ne_none {len : Nat} (h0 : 0 < limit) :
    (GetObjectReader.limited kc limit).read K s len ≠ (gr, .ok none) := by
  rw [GetObjectReader.read, if_neg (by omega)]
  rcases kc.read K s (min len limit) with ⟨kc', e | v⟩
  · simp
  · dsimp only
    split_ifs <;> simp

theorem drains_limited_iff
    (h0 : 0 < limit) :
    Drains K s (.limited kc limit) sizes data ↔
      ∃ kc' value rest, kc.read K s (min (sizes 0) limit) = (kc', .ok value) ∧
        value.length ≤ min (sizes 0) limit ∧ data = value ++ rest ∧
        Drains K s (.limited kc' (limit - value.length)) (fun i => sizes (i + 1)) rest := by
  constructor
  · intro h
    cases h with
    | eof h => exact absurd h (read_limited_ne_none h0)
    | read h hrest =>
      obtain ⟨-, hle, kc', hr, rfl⟩ := read_limited_some_iff.1 h
      exact ⟨kc', _, _, hr, hle, rfl, hrest⟩
  · rintro ⟨kc', v, rest, hr, hle, rfl, hrest⟩
    exact .read (read_limited_some_iff.2 ⟨h0, hle, kc', hr, rfl⟩) hrest

end S3Kinetic
