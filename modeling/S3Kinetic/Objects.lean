import S3Kinetic.Names

/-!
# Objects

`PutObject`, `DeleteObject` and the metadata reads they share with listing and multipart uploads.
Functions that write return the new store next to their result; a Go panic is `Err.panic`.
Namespace locks are left out: each function here is one call that runs alone.
-/

namespace S3Kinetic

open ByteString Decimal

/-! ## Request bodies -/

/-- An `io.Reader` that delivers `data` and then ends, or fails with `fin`. `early` readers report
the end together with the last bytes. -/
structure Stream where
  data : Bytes
  fin : Option Err
  early : Bool
  deriving DecidableEq

/-- `io.ReadFull` into a buffer of `n` bytes: what was read, the error, the rest of the stream. -/
def Stream.readFull (st : Stream) (n : Nat) : Bytes × Option Err × Stream :=
  if n = 0 then ([], none, st)
  else if n < st.data.length ∨ (n = st.data.length ∧ (st.early = false ∨ st.fin = none)) then
    (st.data.take n, none, { st with data := st.data.drop n })
  else
    let err := match st.fin with
      | some e => e
      | none => if st.data = [] then .errEOF else .errUnexpectedEOF
    (st.data, some err, { st with data := [] })

def hexDigit (n : Nat) : UInt8 := if n < 10 then digit n else UInt8.ofNat (87 + n)

/-- `hex.EncodeToString`. -/
def hexEncode (s : Bytes) : Bytes :=
  s.flatMap fun c => [hexDigit (c.toNat / 16), hexDigit (c.toNat % 16)]

/-- `PutObjReader`: a body of declared size, the outcome `verify` of its checksum test at the end,
and the sources of its etags. Each call of `MD5CurrentHexString` reads the hash state or fresh
random bytes, and sealing draws a nonce, so calls are numbered. -/
structure PutObjReader where
  size : Int
  actualSize : Int
  src : Stream
  verify : Option Err
  md5Current : Nat → Bytes
  rand : Nat → Bytes
  sealMD5Fn : Nat → Bytes → Bytes
  uuid : Bytes

/-- The stream behind a `hash.Reader`, which stops after `size` bytes. -/
def PutObjReader.stream (r : PutObjReader) : Stream :=
  if 0 ≤ r.size ∧ r.size ≤ r.src.data.length then
    { r.src with data := r.src.data.take r.size.toNat, fin := r.verify }
  else { r.src with fin := r.src.fin.or r.verify }

/-- `MD5CurrentHexString`, call number `i`. -/
def PutObjReader.md5CurrentHexString (r : PutObjReader) (i : Nat) : Bytes :=
  if r.md5Current i = [] then (hexEncode (r.sealMD5Fn i (r.rand i))).take 32 ++ lit "-1"
  else hexEncode (r.sealMD5Fn i (r.md5Current i))

/-- `blockSizeV1`. -/
def blockSizeV1 : Int := 10 * 1024 * 1024

/-! ## Metadata entries -/

def newFSMetaV1 : FsMetaV1 := ⟨lit "1.0.2", ∅, [], ⟨[], 0, 0⟩⟩

def keyVersion : Bytes := lit "version"
def keySize : Bytes := lit "size"
def keyEtag : Bytes := lit "etag"
def keyHidden : Bytes := lit "hidden"

/-- Whether listings skip an object: its `hidden` entry is set and not `0`. -/
def FsMetaV1.hidden (m : FsMetaV1) : Bool := m.get keyHidden ≠ [] && m.get keyHidden ≠ lit "0"

structure ObjectInfo where
  bucket : Bytes
  name : Bytes
  modTime : Nat
  size : Int
  isDir : Bool
  hidden : Bool
  etag : Bytes
  parts : List ObjectPartInfo
  deriving DecidableEq

def emptyETag : Bytes := lit "d41d8cd98f00b204e9800998ecf8427e"

/-- `extractETag`. -/
def extractETag (entries : OrdMap Bytes Bytes) : Bytes :=
  (entries.get? (lit "md5Sum")).getD ((entries.get? keyEtag).getD [])

/-- `KVInfoToObjectInfo` on the metadata `getObjectInfo` read. -/
def FsMetaV1.toObjectInfo (m : FsMetaV1) (bucket object : Bytes) : ObjectInfo where
  bucket := bucket
  name := object
  modTime := m.koInfo.createdTime
  size := (parseInt64 (m.get keySize)).1
  isDir := false
  hidden := m.hidden
  etag := extractETag (if hasSuffix object [slash] then m.entries.insert keyEtag emptyETag
    else m.entries)
  parts := m.parts

variable (K : Kineticd)

/-! ## Reading metadata -/

def readable (s : Store) (k : Bytes) : Bool :=
  match s.get? k with
  | some ⟨.json m, _⟩ => (K.marshal m).length ≤ maxMetaBytes
  | _ => false

/-- `getObjectInfo`. -/
def getObjectInfo (s : Store) (bucket object : Bytes) : Except Err ObjectInfo :=
  let key := if bucket = [] then object else makeKey bucket object
  match cGetMeta s key with
  | .error _ => .error .errFileNotFound
  | .ok blob =>
    match unmarshalMeta K blob with
    | .error e => .error e
    | .ok m => .ok (m.toObjectInfo bucket object)

/-- `currentVersion`; the error the callers drop is dropped here, a panic is not. -/
def currentVersion (s : Store) (key : Bytes) : Except Err Bytes :=
  match cGetMeta s key with
  | .error _ => .ok []
  | .ok blob =>
    match unmarshalMeta K blob with
    | .ok m => .ok (m.get keyVersion)
    | .error .panic => .error .panic
    | .error _ => .ok []

/-- `GetBucketInfo`; what `gob` cannot decode leaves the zero value. -/
def getBucketInfo (s : Store) (bucket : Bytes) : Except Err BucketInfo :=
  match cGetMeta s (bucketKey bucket) with
  | .error _ => .error (toObjectErr .errVolumeNotFound [bucket])
  | .ok (.gob bi) => .ok bi
  | .ok (.json m) => if (K.marshal m).length ≤ maxMetaBytes then .ok ⟨[], 0⟩ else .error .panic

/-! ## Argument checks -/

/-- `checkBucketExist`. -/
def checkBucketExist (s : Store) (bucket : Bytes) : Option Err :=
  match getBucketInfo K s bucket with
  | .error e => some e
  | .ok _ => none

/-- `checkObjectNameForLengthAndSlash`. -/
def checkObjectNameForLengthAndSlash (bucket object : Bytes) : Option Err :=
  if object.length > 1024 then some (.objectNameTooLong bucket object)
  else if hasPrefix object [slash] then some (.objectNamePrefixAsSlash bucket object)
  else none

/-- `checkObjectArgs`. -/
def checkObjectArgs (s : Store) (bucket object : Bytes) : Option Err :=
  (checkBucketExist K s bucket).or <|
  (checkObjectNameForLengthAndSlash bucket object).or <|
  if isValidObjectName object then none else some (.objectNameInvalid bucket object)

/-- `checkPutObjectArgs`. -/
def checkPutObjectArgs (s : Store) (bucket object : Bytes) (size : Int) : Option Err :=
  (checkBucketExist K s bucket).or <|
  (checkObjectNameForLengthAndSlash bucket object).or <|
  if object.length = 0 || (hasSuffix object [slash] && size ≠ 0) || !isValidObjectPrefix object then
    some (.objectNameInvalid bucket object)
  else none

/-- `checkDelObjArgs` and `checkGetObjArgs`. -/
def checkBucketAndObjectNames (bucket object : Bytes) : Option Err :=
  if !isMinioMetaBucketName bucket && !K.checkValidBucketName bucket then some
    (.bucketNameInvalid bucket)
  else if object.length = 0 then some (.objectNameInvalid bucket object)
  else if !isValidObjectPrefix object then some (.objectNameInvalid bucket object)
  else none

/-! ## Writing -/

/-- The metadata `putObject` writes. -/
def putObjectMeta (object : Bytes) (r : PutObjReader) (userDefined : OrdMap Bytes Bytes)
    (nxtVer : Bytes) (now : Nat) : FsMetaV1 :=
  { (((({ newFSMetaV1 with entries := userDefined }).set keyVersion nxtVer).set keyEtag
      (r.md5CurrentHexString 0)).set keySize (formatInt r.size)) with
    koInfo := ⟨object, r.size, now⟩ }

/-- `putObject`. -/
def putObjectBody (s : Store) (bucket object : Bytes) (r : PutObjReader)
    (userDefined : OrdMap Bytes Bytes) (now : Nat) : Store × Except Err ObjectInfo :=
  if r.size < -1 then (s, .error .errInvalidArgument)
  else if r.size > blockSizeV1 then (s, .error .errInvalidArgument)
  else
    let key := makeKey bucket object
    match currentVersion K s key with
    | .error e => (s, .error e)
    | .ok objVer =>
      -- a buffer of size -1 cannot be sliced
      if r.size < 0 then (s, .error .panic)
      else
        match r.stream.readFull r.size.toNat with
        | (_, some e, _) => (s, .error e)
        | (goBuf, none, _) =>
          match cPut K s key ⟨.json (putObjectMeta object r userDefined (newVersion objVer) now),
              goBuf⟩ with
          | (s, some e) => (s, .error e)
          | (s, none) =>
            (s, .ok ⟨bucket, object, now, r.size, false, false, r.md5CurrentHexString 1, []⟩)

/-- `PutObject`. -/
def putObject (s : Store) (bucket object : Bytes) (r : PutObjReader)
    (userDefined : OrdMap Bytes Bytes) (now : Nat) : Store × Except Err ObjectInfo :=
  match checkPutObjectArgs K s bucket object r.size with
  | some e => (s, .error e)
  | none => putObjectBody K s bucket object r userDefined now

/-- The part keys that metadata of an object names, as `Client.Read` and `DeleteObject` rebuild
them. -/
def FsMetaV1.partKeys (m : FsMetaV1) (objKey : Bytes) : List Bytes :=
  m.parts.map fun p => partKey objKey (m.get keyVersion) p.number p.etag p.actualSize

/-- Deletes of `keys` whose errors are ignored. -/
def deleteIgnoring (s : Store) : List Bytes → Store
  | [] => s
  | key :: keys => deleteIgnoring (delete K s key).1 keys

def Blob.partKeys (objKey : Bytes) : Blob → List Bytes
  | .json m => m.partKeys objKey
  | .gob _ => []

/-- The deletes of `DeleteObject`: without parts the object's key twice, otherwise the parts and
then the object's key. -/
def deleteRecord (s : Store) (key : Bytes) (parts : List Bytes) : Store × Option Err :=
  if parts = [] then
    match delete K s key with
    | (s, some e) => (s, some e)
    | (s, none) => delete K s key
  else delete K (deleteIgnoring K s parts) key

/-- `DeleteObject`. -/
def deleteObject (s : Store) (bucket object : Bytes) : Store × Option Err :=
  match checkBucketAndObjectNames K bucket object with
  | some e => (s, some e)
  | none =>
    match cGetMeta s (makeKey bucket object) with
    | .error _ => (s, some .errFileNotFound)
    | .ok blob =>
      match unmarshalMeta K blob with
      | .error .panic => (s, some .panic)
      | _ => deleteRecord K s (makeKey bucket object) (blob.partKeys (makeKey bucket object))

/-- `deleteKeys`: stops at the first error. -/
def deleteKeys (s : Store) : List Bytes → Store × Option Err
  | [] => (s, none)
  | key :: keys =>
    match delete K s key with
    | (s, some e) => (s, some e)
    | (s, none) => deleteKeys s keys

def partKeyRange (s : Store) (objKey version : Bytes) : List Bytes :=
  cGetKeyRange K s (partsKey objKey version) (incStr (partsKey objKey version)) true false 800

/-- `deleteParts`: two rounds of at most 800 keys. The error of the second round is assigned to a
shadowed variable and lost. -/
def deleteParts (s : Store) (objKey version : Bytes) : Store × Option Err :=
  match deleteKeys K s (partKeyRange K s objKey version) with
  | (s, some e) => (s, some e)
  | (s, none) => ((deleteKeys K s (partKeyRange K s objKey version)).1, none)

/-! ## What the reads return -/

variable {K} {s : Store} {b : Bytes}

theorem getObjectInfo_makeKey (hb : b ≠ []) (o : Bytes) :
    getObjectInfo K s b o =
      match s.get? (makeKey b o) with
      | none => .error .errFileNotFound
      | some r =>
        match unmarshalMeta K r.blob with
        | .error e => .error e
        | .ok m => .ok (m.toObjectInfo b o) := by
  simp only [getObjectInfo, cGetMeta, if_neg hb]
  cases s.get? (makeKey b o) <;> rfl

theorem getObjectInfo_eq_ok_iff (hb : b ≠ []) {o : Bytes} :
    (∃ i, getObjectInfo K s b o = .ok i) ↔ readable K s (makeKey b o) = true := by
  rw [getObjectInfo_makeKey hb]
  unfold readable
  rcases s.get? (makeKey b o) with _ | ⟨_ | _, v⟩
  · simp
  · simp only [unmarshalMeta, decide_eq_true_eq]
    split_ifs with hlen <;> simp [hlen]
  · simp [unmarshalMeta]

theorem FsMetaV1.get_set (m : FsMetaV1) (k k' v : Bytes) :
    (m.set k v).get k' = if k' = k then v else m.get k' := by
  unfold FsMetaV1.get FsMetaV1.set
  rw [OrdMap.get?_insert]
  split <;> rfl

theorem FsMetaV1.get_set_self (m : FsMetaV1) (k v : Bytes) : (m.set k v).get k = v := by
  rw [FsMetaV1.get_set, if_pos rfl]

theorem FsMetaV1.get_set_of_ne (m : FsMetaV1) {k k' : Bytes} (v : Bytes) (h : k' ≠ k) :
    (m.set k v).get k' = m.get k' := by
  rw [FsMetaV1.get_set, if_neg h]

theorem keyVersion_ne_keyEtag : keyVersion ≠ keyEtag := by decide
theorem keyVersion_ne_keySize : keyVersion ≠ keySize := by decide
theorem keyVersion_ne_keyHidden : keyVersion ≠ keyHidden := by decide

theorem putObjectMeta_version (o : Bytes) (r : PutObjReader) (ud : OrdMap Bytes Bytes) (v : Bytes)
    (now : Nat) : (putObjectMeta o r ud v now).get keyVersion = v := by
  show FsMetaV1.get (FsMetaV1.set _ keySize _) keyVersion = v
  rw [FsMetaV1.get_set_of_ne _ _ keyVersion_ne_keySize,
    FsMetaV1.get_set_of_ne _ _ keyVersion_ne_keyEtag, FsMetaV1.get_set_self]

/-- The characters of an etag: lower-case hexadecimal digits and `-`. -/
def isEtagChar (c : UInt8) : Bool := isDigit c || (97 ≤ c && c ≤ 102) || c == 45

theorem isEtagChar_hexDigit {n : Nat} (h : n < 16) : isEtagChar (hexDigit n) = true := by
  have hall : ∀ n < 16, isEtagChar (hexDigit n) = true := by decide
  exact hall n h

theorem isEtagChar_hexEncode {d : Bytes} {c : UInt8} (h : c ∈ hexEncode d) :
    isEtagChar c = true := by
  obtain ⟨x, -, hx⟩ := List.mem_flatMap.1 h
  have hlt : x.toNat < 256 := x.toNat_lt
  rcases List.mem_cons.1 hx with rfl | hx
  · exact isEtagChar_hexDigit (by omega)
  · rw [List.mem_singleton.1 hx]
    exact isEtagChar_hexDigit (by omega)

theorem isEtagChar_md5CurrentHexString {r : PutObjReader} {i : Nat} {c : UInt8}
    (h : c ∈ r.md5CurrentHexString i) : isEtagChar c = true := by
  unfold PutObjReader.md5CurrentHexString at h
  split at h
  · rcases List.mem_append.1 h with h | h
    · exact isEtagChar_hexEncode (List.mem_of_mem_take h)
    · have hall : ∀ c ∈ lit "-1", isEtagChar c = true := by decide +kernel
      exact hall c h
  · exact isEtagChar_hexEncode h

theorem readFull_ok {st st' : Stream} {n : Nat} {buf : Bytes}
    (h : st.readFull n = (buf, none, st')) :
    n ≤ st.data.length ∧ buf = st.data.take n := by
  unfold Stream.readFull at h
  split at h
  · next h0 =>
    cases h
    simp [h0]
  · split at h
    · next hle =>
      cases h
      exact ⟨by omega, rfl⟩
    · cases h

/-- `putObject` writes nothing and fails, or writes the object record. -/
theorem putObjectBody_cases (s : Store) (b o : Bytes) (r : PutObjReader) (ud : OrdMap Bytes Bytes)
    (now : Nat) :
    (∃ e, putObjectBody K s b o r ud now = (s, .error e)) ∨
      ∃ v buf st, 0 ≤ r.size ∧ r.size ≤ blockSizeV1 ∧ currentVersion K s (makeKey b o) = .ok v ∧
        r.stream.readFull r.size.toNat = (buf, none, st) ∧
        putObjectBody K s b o r ud now =
          (s.insert (makeKey b o) ⟨.json (putObjectMeta o r ud (newVersion v) now), buf⟩,
            .ok ⟨b, o, now, r.size, false, false, r.md5CurrentHexString 1, []⟩) := by
  unfold putObjectBody
  split
  · exact .inl ⟨_, rfl⟩
  split
  · exact .inl ⟨_, rfl⟩
  next hle =>
  cases hv : currentVersion K s (makeKey b o) with
  | error e => exact .inl ⟨e, by simp only [hv]⟩
  | ok v =>
    simp only [hv]
    split
    · exact .inl ⟨_, rfl⟩
    next hge =>
    rcases hr : r.stream.readFull r.size.toNat with ⟨buf, _ | e, st⟩
    · dsimp only
      rcases cPut_eq (K := K) s (makeKey b o)
        ⟨.json (putObjectMeta o r ud (newVersion v) now), buf⟩ with ⟨hp, -⟩ | ⟨e, hp⟩
      · refine .inr ⟨v, buf, st, by omega, by omega, rfl, rfl, ?_⟩
        rw [hp]
      · exact .inl ⟨e, by rw [hp]⟩
    · exact .inl ⟨e, rfl⟩

theorem putObject_cases (s : Store) (b o : Bytes) (r : PutObjReader) (ud : OrdMap Bytes Bytes)
    (now : Nat) :
    (∃ e, putObject K s b o r ud now = (s, .error e)) ∨
      putObject K s b o r ud now = putObjectBody K s b o r ud now := by
  unfold putObject
  split
  · exact .inl ⟨_, rfl⟩
  · exact .inr rfl

theorem deleteObject_cases (s : Store) (b o : Bytes) :
    (∃ e, e ≠ .errBucketNotEmpty ∧ deleteObject K s b o = (s, some e)) ∨
      ∃ r, s.get? (makeKey b o) = some r ∧
        deleteObject K s b o = deleteRecord K s (makeKey b o) (r.blob.partKeys (makeKey b o)) := by
  unfold deleteObject
  cases hc : checkBucketAndObjectNames K b o with
  | some e =>
    refine .inl ⟨e, ?_, rfl⟩
    rintro rfl
    unfold checkBucketAndObjectNames at hc
    split_ifs at hc <;> simp at hc
  | none =>
    unfold cGetMeta
    cases hg : s.get? (makeKey b o) with
    | none => exact .inl ⟨_, by decide, rfl⟩
    | some r =>
      dsimp only
      split
      · exact .inl ⟨_, by decide, rfl⟩
      · exact .inr ⟨r, rfl, rfl⟩

end S3Kinetic
