import S3Kinetic.Objects

/-!
# Multipart uploads and copies

A part is stored under the object's next version, not under the upload it belongs to.
`CompleteMultipartUpload` looks its parts up by number and etag among the first 800 part keys of
that version, writes the object record that lists them, and deletes the parts of the version before.
-/

namespace S3Kinetic

open ByteString Decimal

variable (K : Kineticd)

/-! ## Etags -/

def quote : UInt8 := 34

/-- `canonicalizeETag`: the replacement of `"*?([^"]*?)"*?$` by its group. -/
def canonicalizeETag : Bytes → Bytes
  | [] => []
  | c :: s =>
    let body := (c :: s).dropWhile (· = quote)
    if (body.dropWhile (· ≠ quote)).all (· = quote) then body.takeWhile (· ≠ quote)
    else c :: canonicalizeETag s

/-- The value of a hexadecimal digit of either case. -/
def fromHexChar (c : UInt8) : Option Nat :=
  if 48 ≤ c && c ≤ 57 then some (c.toNat - 48)
  else if 97 ≤ c && c ≤ 102 then some (c.toNat - 87)
  else if 65 ≤ c && c ≤ 70 then some (c.toNat - 55)
  else none

/-- `hex.DecodeString`. -/
def hexDecode : Bytes → Option Bytes
  | [] => some []
  | [_] => none
  | c :: d :: s =>
    match fromHexChar c, fromHexChar d, hexDecode s with
    | some h, some l, some t => some (UInt8.ofNat (16 * h + l) :: t)
    | _, _, _ => none

/-- `getMD5Hash`. -/
def getMD5Hash (data : Bytes) : Bytes := hexEncode (K.getMD5Sum data)

/-- `ToS3ETag`. -/
def toS3ETag (etag : Bytes) : Bytes :=
  let etag := canonicalizeETag etag
  if hasSuffix etag (lit "-1") then etag else etag ++ lit "-1"

structure CompletePart where
  partNumber : Int
  etag : Bytes
  deriving DecidableEq

/-- `getCompleteMultipartMD5`. -/
def getCompleteMultipartMD5 (parts : List CompletePart) : Bytes :=
  let finalMD5Bytes := parts.flatMap fun part =>
    (hexDecode (canonicalizeETag part.etag)).getD part.etag
  getMD5Hash K finalMD5Bytes ++ lit "-" ++ formatNat parts.length

/-! ## Uploads -/

/-- The metadata of a pending upload. -/
def uploadMeta (object : Bytes) (userDefined : OrdMap Bytes Bytes) (now : Nat) : FsMetaV1 :=
  { ({ newFSMetaV1 with entries := userDefined }).set keySize (formatInt 0) with
    koInfo := ⟨object, 0, now⟩ }

/-- `NewMultipartUpload`; `uploadID` is the fresh UUID. -/
def newMultipartUpload (s : Store) (bucket object : Bytes) (userDefined : OrdMap Bytes Bytes)
    (uploadID : Bytes) (now : Nat) : Store × Except Err Bytes :=
  match checkObjectArgs K s bucket object with
  | some e => (s, .error (toObjectErr e [bucket]))
  | none =>
    let fsMeta := uploadMeta object userDefined now
    match cPut K s (jsonKey (makeKey bucket object) uploadID) ⟨.json fsMeta, K.marshal fsMeta⟩ with
    | (s, some e) => (s, .error e)
    | (s, none) => (s, .ok uploadID)

structure PartInfo where
  partNumber : Int
  lastModified : Nat
  etag : Bytes
  size : Int
  actualSize : Int
  deriving DecidableEq

/-- The metadata of a part. -/
def partMeta (object etag : Bytes) (size : Int) (now : Nat) : FsMetaV1 :=
  { ((newFSMetaV1.set keyEtag etag).set keySize (formatInt size)).set keyHidden (lit "1") with
    koInfo := ⟨object, size, now⟩ }

def partBufSize (size : Int) : Int := if size > 0 ∧ blockSizeV1 > size then size else blockSizeV1

def partETag (r : PutObjReader) : Bytes :=
  if r.md5CurrentHexString 0 = [] then toS3ETag (getMD5Hash K r.uuid) else r.md5CurrentHexString 0

/-- `PutObjectPart`. The upload ID is not looked at. -/
def putObjectPart (s : Store) (bucket object _uploadID : Bytes) (partID : Int) (r : PutObjReader)
    (now : Nat) : Store × Except Err PartInfo :=
  match checkObjectArgs K s bucket object with
  | some e => (s, .error (toObjectErr e [bucket]))
  | none =>
    if r.size < -1 then (s, .error .errInvalidArgument)
    else
      let bufSize := partBufSize r.size
      match r.stream.readFull bufSize.toNat with
      | (_, some e, _) => (s, .error e)
      | (goBuf, none, _) =>
        let etag := partETag K r
        let objKey := makeKey bucket object
        match currentVersion K s objKey with
        | .error e => (s, .error e)
        | .ok objVer =>
          let key := partKey objKey (newVersion objVer) partID etag r.actualSize
          match cPut K s key ⟨.json (partMeta object (r.md5CurrentHexString 1) r.size now), goBuf⟩
              with
          | (s, some e) => (s, .error e)
          | (s, none) => (s, .ok ⟨partID, now, etag, bufSize, r.actualSize⟩)

/-- The end of `koStat`, which frees the text of the record and then decodes it. -/
def unmarshalFreed (s : Store) (key : Bytes) (blob : Blob) : Except Err FsMetaV1 :=
  match unmarshalMeta K blob, K.afterFree s key blob with
  | .error .panic, _ => .error .panic
  | _, none => .error .errUnmarshal
  | _, some m => .ok m

/-- `koStat`: the size entry of a stored part. -/
def koStat (s : Store) (key : Bytes) : Except Err KOInfo :=
  match cGetMeta s key with
  | .error _ => .error .errFileNotFound
  | .ok blob =>
    match unmarshalFreed K s key blob with
    | .error e => .error e
    | .ok m => .ok m.koInfo

/-! ## Completion -/

/-- `globalMinPartSize`. -/
def globalMinPartSize : Int := 1024 * 1024

/-- The part file names behind the keys of the query. -/
def stripKeys (startKey : Bytes) : List Bytes → Except Err (List Bytes)
  | [] => .ok []
  | key :: keys =>
    if key.length < startKey.length then .error .panic
    else
      match stripKeys startKey keys with
      | .error e => .error e
      | .ok ks => .ok (key.drop startKey.length :: ks)

/-- The part file of a listed part and the size its name ends in. -/
def findPart (keys : List Bytes) (part : CompletePart) : Except Err (Bytes × Int) :=
  let partFile := getPartKO keys part.partNumber part.etag
  if partFile = [] then .error (.invalidPart part.partNumber part.etag)
  else
    match parseInt64 ((partFile.splitOn dot).getLastD []) with
    | (_, some _) => .error (.invalidPart part.partNumber part.etag)
    | (actualSize, none) => .ok (partFile, actualSize)

/-- One turn of the validation loop, up to the size check. -/
def completePart (s : Store) (startKey : Bytes) (keys : List Bytes) (part : CompletePart) :
    Except Err ObjectPartInfo :=
  match findPart keys part with
  | .error e => .error e
  | .ok (partFile, actualSize) =>
    match koStat K s (startKey ++ partFile) with
    | .error .errFileNotFound => .error (.invalidPart 0 [])
    | .error e => .error e
    | .ok fi => .ok ⟨part.etag, part.partNumber, fi.size, actualSize⟩

/-- All parts but the last have to be of the minimum size. -/
def checkPartSize (last : Bool) (p : ObjectPartInfo) : Option Err :=
  if last || globalMinPartSize ≤ p.actualSize then none
  else some (.partTooSmall p.number p.actualSize p.etag)

/-- The validation loop. -/
def completeParts (s : Store) (startKey : Bytes) (keys : List Bytes) :
    List CompletePart → Except Err (List ObjectPartInfo)
  | [] => .ok []
  | part :: parts =>
    match completePart K s startKey keys part with
    | .error e => .error e
    | .ok p =>
      match checkPartSize parts.isEmpty p with
      | some e => .error e
      | none =>
        match completeParts s startKey keys parts with
        | .error e => .error e
        | .ok ps => .ok (p :: ps)

def totalActualSize (ps : List ObjectPartInfo) : Int :=
  ps.foldl (fun n p => wrap64 (n + p.actualSize)) 0

def keyActualSize : Bytes := lit "X-Minio-Internal-actual-size"

/-- The entries `CompleteMultipartUpload` adds to the metadata of the upload. -/
def completeMeta (m : FsMetaV1) (nxtVer s3MD5 : Bytes) (size : Int) : FsMetaV1 :=
  (((m.set keyVersion nxtVer).set keySize (formatInt size)).set keyEtag s3MD5).set keyActualSize
    (formatInt size)

/-- `ToObjectKVInfo` on what completion and copy return. -/
def FsMetaV1.toObjectKVInfo (m : FsMetaV1) (bucket object : Bytes) (size : Int) : ObjectInfo where
  bucket := bucket
  name := object
  modTime := 0
  size := size
  isDir := false
  hidden := false
  etag := extractETag (if hasSuffix object [slash] then m.entries.insert keyEtag emptyETag
    else m.entries)
  parts := m.parts

/-- The critical section of completion: from the read of the upload's record to the put of the
object record, all under `kineticMutex`. -/
def commitUpload (s : Store) (objKey uploadID nxtVer s3MD5 : Bytes) (ps : List ObjectPartInfo) :
    Store × Except Err FsMetaV1 :=
  let key := jsonKey objKey uploadID
  match cGet K s key (-1) 0 (-1) with
  | .error _ => (s, .error .errFileNotFound)
  | .ok value =>
    let s := (delete K s key).1
    match K.unmarshal ⟨[], ∅, ps, ⟨[], 0, 0⟩⟩ value with
    | none => (s, .error .errUnmarshal)
    | some m =>
      let fsMeta := completeMeta m nxtVer s3MD5 (totalActualSize ps)
      match cPut K s objKey ⟨.json fsMeta, []⟩ with
      | (s, some e) => (s, .error e)
      | (s, none) => (s, .ok fsMeta)

/-- `CompleteMultipartUpload`. -/
def completeMultipartUpload (s : Store) (bucket object uploadID : Bytes)
    (parts : List CompletePart) :
    Store × Except Err ObjectInfo :=
  let s3MD5 := getCompleteMultipartMD5 K parts
  let objKey := makeKey bucket object
  match currentVersion K s objKey with
  | .error e => (s, .error e)
  | .ok objVer =>
    let nxtVer := newVersion objVer
    let startKey := partsKey objKey nxtVer
    match stripKeys startKey (partKeyRange K s objKey nxtVer) with
    | .error e => (s, .error e)
    | .ok keys =>
      match completeParts K s startKey keys parts with
      | .error e => (s, .error e)
      | .ok ps =>
        match commitUpload K s objKey uploadID nxtVer s3MD5 ps with
        | (s, .error e) => (s, .error e)
        | (s, .ok fsMeta) =>
          let s := if objVer ≠ [] then (deleteParts K s objKey objVer).1 else s
          (s, .ok (fsMeta.toObjectKVInfo bucket object (totalActualSize ps)))

/-- `AbortMultipartUpload`. -/
def abortMultipartUpload (s : Store) (bucket object uploadID : Bytes) : Store × Option Err :=
  let objKey := makeKey bucket object
  let s := (delete K s (jsonKey objKey uploadID)).1
  match currentVersion K s objKey with
  | .error e => (s, some e)
  | .ok objVer => deleteParts K s objKey (newVersion objVer)

/-! ## Copies -/

/-- What `CopyObject` is told about its source. -/
structure CopySource where
  parts : List ObjectPartInfo
  etag : Bytes
  size : Int
  userDefined : OrdMap Bytes Bytes
  metadataOnly : Bool
  reader : PutObjReader

/-- The parts of the source, put one after the other under the next version of the destination. A
short read is not noticed: its error is overwritten by the error of the put. -/
def copyParts (s : Store) (dstObjKey dstObjNxtVers dstObj : Bytes) (now : Nat) :
    List ObjectPartInfo → Stream → Store × Option Err
  | [], _ => (s, none)
  | part :: parts, st =>
    if part.size < 0 then (s, some .panic)
    else
      let (read, _, st) := st.readFull part.size.toNat
      let valBuf := read ++ (K.allocateBuffer part.size.toNat).drop read.length
      match cPut K s (partKey dstObjKey dstObjNxtVers part.number part.etag part.size)
          ⟨.json (partMeta dstObj part.etag part.size now), valBuf⟩ with
      | (s, some e) => (s, some e)
      | (s, none) => copyParts s dstObjKey dstObjNxtVers dstObj now parts st

/-- The metadata of a copied multipart object. -/
def copyMeta (src : CopySource) (dstObj nxtVers : Bytes) (now : Nat) : FsMetaV1 :=
  { (((newFSMetaV1.set keyVersion nxtVers).set keyEtag src.etag).set keySize
    (formatInt src.size)).set
      keyActualSize (formatInt src.size) with
    parts := src.parts.map fun p => { p with actualSize := p.size }
    koInfo := ⟨dstObj, 0, now⟩ }

/-- `copyMultipartObject`. -/
def copyMultipartObject (s : Store) (src : CopySource) (dstBucket dstObj : Bytes) (now : Nat) :
    Store × Except Err ObjectInfo :=
  let dstObjKey := makeKey dstBucket dstObj
  match currentVersion K s dstObjKey with
  | .error e => (s, .error e)
  | .ok dstObjVers =>
    let dstObjNxtVers := newVersion dstObjVers
    match copyParts K s dstObjKey dstObjNxtVers dstObj now src.parts src.reader.stream with
    | (s, some .panic) => (s, .error .panic)
    | (s, some e) => ((deleteParts K s dstObjKey dstObjNxtVers).1, .error e)
    | (s, none) =>
      let objMeta := copyMeta src dstObj dstObjNxtVers now
      match cPut K s dstObjKey ⟨.json objMeta, []⟩ with
      | (s, some e) => ((deleteParts K s dstObjKey dstObjNxtVers).1, .error e)
      -- a fresh destination has the empty version here, and `key..` is deleted
      | (s, none) =>
        ((deleteParts K s dstObjKey dstObjVers).1,
          .ok (objMeta.toObjectKVInfo dstBucket dstObj src.size))

/-- The components of `path.Clean`; `out` is reversed. -/
def cleanParts (rooted : Bool) : List Bytes → List Bytes → List Bytes
  | [], out => out.reverse
  | p :: ps, out =>
    if p = [] ∨ p = lit "." then cleanParts rooted ps out
    else if p = lit ".." then
      match out with
      | [] => cleanParts rooted ps (if rooted then [] else [p])
      | q :: qs => if q = lit ".." then cleanParts rooted ps (p :: out) else cleanParts rooted ps qs
    else cleanParts rooted ps (p :: out)

/-- `pathJoin` of a bucket and an object. -/
def pathJoin (bucket object : Bytes) : Bytes :=
  let joined :=
    if bucket = [] then object else if object = [] then bucket else bucket ++ slash :: object
  let rooted := hasPrefix joined [slash]
  let clean := [slash].intercalate (cleanParts rooted (joined.splitOn slash) [])
  let path := if joined = [] then [] else if rooted then slash :: clean
    else if clean = [] then lit "." else clean
  path ++ if hasSuffix object [slash] then [slash] else []

def defaultEtag : Bytes := lit "00000000000000000000000000000000-1"

/-- `statBucketDir`, for its error. -/
def statBucketDir (s : Store) (bucket : Bytes) : Option Err :=
  match cGetMeta s (bucketKey bucket) with
  | .error _ => some .errFileNotFound
  | .ok (.gob _) => none
  | .ok (.json m) => if (K.marshal m).length ≤ maxMetaBytes then none else some .panic

/-- `CopyObject`. -/
def copyObject (s : Store) (srcBucket srcObject dstBucket dstObject : Bytes) (src : CopySource)
    (now : Nat) : Store × Except Err ObjectInfo :=
  match statBucketDir K s srcBucket with
  | some e => (s, .error (toObjectErr e [srcBucket]))
  | none =>
    if pathJoin srcBucket srcObject = pathJoin dstBucket dstObject ∧ src.metadataOnly then
      match cGetMeta s (makeKey srcBucket srcObject) with
      | .error _ =>
        (s, .ok ((newFSMetaV1.set keyEtag defaultEtag).toObjectInfo srcBucket srcObject))
      | .ok blob =>
        match unmarshalMeta K blob with
        | .error e => (s, .error (toObjectErr e [srcBucket, srcObject]))
        | .ok m => (s, .ok { m.toObjectInfo srcBucket srcObject with hidden := false })
    else
      match checkPutObjectArgs K s dstBucket dstObject src.reader.size with
      | some e => (s, .error e)
      | none =>
        let (s, res) :=
          if src.parts = [] then putObjectBody K s dstBucket dstObject src.reader
            src.userDefined now
          else copyMultipartObject K s src dstBucket dstObject now
        match res with
        | .error e => (s, .error (toObjectErr e [dstBucket, dstObject]))
        | .ok objInfo => (s, .ok objInfo)

/-! ## What the calls do -/

variable {K}

theorem keyVersion_ne_keyActualSize : keyVersion ≠ keyActualSize := by decide

theorem uploadMeta_version (o : Bytes) (ud : OrdMap Bytes Bytes) (now : Nat) :
    (uploadMeta o ud now).get keyVersion = (ud.get? keyVersion).getD [] := by
  show FsMetaV1.get (FsMetaV1.set _ keySize _) keyVersion = _
  rw [FsMetaV1.get_set_of_ne _ _ keyVersion_ne_keySize]
  rfl

theorem partMeta_version (o e : Bytes) (size : Int) (now : Nat) :
    (partMeta o e size now).get keyVersion = [] := by
  show FsMetaV1.get (FsMetaV1.set _ keyHidden _) keyVersion = _
  rw [FsMetaV1.get_set_of_ne _ _ keyVersion_ne_keyHidden,
    FsMetaV1.get_set_of_ne _ _ keyVersion_ne_keySize,
      FsMetaV1.get_set_of_ne _ _ keyVersion_ne_keyEtag]
  rfl

theorem completeMeta_version (m : FsMetaV1) (v md5 : Bytes) (size : Int) :
    (completeMeta m v md5 size).get keyVersion = v := by
  unfold completeMeta
  rw [FsMetaV1.get_set_of_ne _ _ keyVersion_ne_keyActualSize,
    FsMetaV1.get_set_of_ne _ _ keyVersion_ne_keyEtag,
    FsMetaV1.get_set_of_ne _ _ keyVersion_ne_keySize, FsMetaV1.get_set_self]

theorem copyMeta_version (src : CopySource) (o v : Bytes) (now : Nat) :
    (copyMeta src o v now).get keyVersion = v := by
  show FsMetaV1.get (FsMetaV1.set _ keyActualSize _) keyVersion = _
  rw [FsMetaV1.get_set_of_ne _ _ keyVersion_ne_keyActualSize,
    FsMetaV1.get_set_of_ne _ _ keyVersion_ne_keySize,
    FsMetaV1.get_set_of_ne _ _ keyVersion_ne_keyEtag, FsMetaV1.get_set_self]

theorem mem_of_mem_canonicalizeETag {s : Bytes} {c : UInt8} (h : c ∈ canonicalizeETag s) :
    c ∈ s := by
  induction s with
  | nil => exact h
  | cons x s ih =>
    unfold canonicalizeETag at h
    dsimp only at h
    split at h
    · exact (List.dropWhile_suffix _).subset ((List.takeWhile_prefix _).subset h)
    · rcases List.mem_cons.1 h with rfl | h
      · exact List.mem_cons_self
      · exact List.mem_cons_of_mem _ (ih h)

theorem isEtagChar_partETag {r : PutObjReader} {c : UInt8} (h : c ∈ partETag K r) :
    isEtagChar c = true := by
  unfold partETag at h
  split at h
  · unfold toS3ETag at h
    dsimp only at h
    split at h
    · exact isEtagChar_hexEncode (mem_of_mem_canonicalizeETag h)
    · rcases List.mem_append.1 h with h | h
      · exact isEtagChar_hexEncode (mem_of_mem_canonicalizeETag h)
      · have hall : ∀ c ∈ lit "-1", isEtagChar c = true := by decide +kernel
        exact hall c h
  · exact isEtagChar_md5CurrentHexString h

theorem newMultipartUpload_cases (s : Store) (b o : Bytes) (ud : OrdMap Bytes Bytes) (u : Bytes)
    (now : Nat) :
    (∃ e, newMultipartUpload K s b o ud u now = (s, .error e)) ∨
      newMultipartUpload K s b o ud u now =
        (s.insert (jsonKey (makeKey b o) u)
          ⟨.json (uploadMeta o ud now), K.marshal (uploadMeta o ud now)⟩, .ok u) := by
  unfold newMultipartUpload
  split
  · exact .inl ⟨_, rfl⟩
  · dsimp only
    rcases cPut_eq (K := K) s (jsonKey (makeKey b o) u)
      ⟨.json (uploadMeta o ud now), K.marshal (uploadMeta o ud now)⟩ with ⟨hp, -⟩ | ⟨e, hp⟩
    · exact .inr (by rw [hp])
    · exact .inl ⟨e, by rw [hp]⟩

/-- `PutObjectPart` writes nothing and fails, or writes the part under the next version. -/
theorem putObjectPart_cases (s : Store) (b o u : Bytes) (n : Int) (r : PutObjReader) (now : Nat) :
    (∃ e, putObjectPart K s b o u n r now = (s, .error e)) ∨
      ∃ v buf st, currentVersion K s (makeKey b o) = .ok v ∧
        r.stream.readFull (partBufSize r.size).toNat = (buf, none, st) ∧
        putObjectPart K s b o u n r now =
          (s.insert (partKey (makeKey b o) (newVersion v) n (partETag K r) r.actualSize)
              ⟨.json (partMeta o (r.md5CurrentHexString 1) r.size now), buf⟩,
            .ok ⟨n, now, partETag K r, partBufSize r.size, r.actualSize⟩) := by
  unfold putObjectPart
  split
  · exact .inl ⟨_, rfl⟩
  split
  · exact .inl ⟨_, rfl⟩
  dsimp only
  rcases hr : r.stream.readFull (partBufSize r.size).toNat with ⟨buf, _ | e, st⟩
  · dsimp only
    cases hv : currentVersion K s (makeKey b o) with
    | error e => exact .inl ⟨e, rfl⟩
    | ok v =>
      dsimp only
      rcases cPut_eq (K := K) s (partKey (makeKey b o) (newVersion v) n (partETag K r) r.actualSize)
        ⟨.json (partMeta o (r.md5CurrentHexString 1) r.size now), buf⟩ with ⟨hp, -⟩ | ⟨e, hp⟩
      · exact .inr ⟨v, buf, st, rfl, rfl, by rw [hp]⟩
      · exact .inl ⟨e, by rw [hp]⟩
  · exact .inl ⟨e, rfl⟩

/-- The critical section of completion fails and leaves at most the upload's record missing, or
replaces the upload's record by the object record. -/
theorem commitUpload_cases (s : Store) (k u v md5 : Bytes) (ps : List ObjectPartInfo) :
    (∃ e, commitUpload K s k u v md5 ps = (s, .error e) ∧ s.get? (jsonKey k u) = none) ∨
      (∃ e, commitUpload K s k u v md5 ps = ((delete K s (jsonKey k u)).1, .error e) ∧
        jsonKey k u ∈ s) ∨
      ∃ rec m, s.get? (jsonKey k u) = some rec ∧
        K.unmarshal ⟨[], ∅, ps, ⟨[], 0, 0⟩⟩ rec.value = some m ∧
        commitUpload K s k u v md5 ps =
          ((delete K s (jsonKey k u)).1.insert k
              ⟨.json (completeMeta m v md5 (totalActualSize ps)), []⟩,
            .ok (completeMeta m v md5 (totalActualSize ps))) := by
  unfold commitUpload
  simp only [cGet_unknown]
  cases hg : s.get? (jsonKey k u) with
  | none => exact .inl ⟨_, rfl, rfl⟩
  | some rec =>
    have hmem : jsonKey k u ∈ s := (OrdMap.mem_iff s).2 ⟨rec, hg⟩
    refine .inr ?_
    dsimp only
    cases hm : K.unmarshal ⟨[], ∅, ps, ⟨[], 0, 0⟩⟩ rec.value with
    | none => exact .inl ⟨_, rfl, hmem⟩
    | some m =>
      dsimp only
      rcases cPut_eq (K := K) (delete K s (jsonKey k u)).1 k
        ⟨.json (completeMeta m v md5 (totalActualSize ps)), []⟩ with ⟨hp, -⟩ | ⟨e, hp⟩
      · exact .inr ⟨rec, m, rfl, hm, by rw [hp]⟩
      · exact .inl ⟨e, by rw [hp], hmem⟩

/-- `CompleteMultipartUpload` fails before its critical section, in it, or after it commits deletes
the parts of the version before. -/
theorem completeMultipartUpload_cases (s : Store) (b o u : Bytes) (parts : List CompletePart) :
    (∃ e, completeMultipartUpload K s b o u parts = (s, .error e)) ∨
      ∃ v keys ps, currentVersion K s (makeKey b o) = .ok v ∧
        stripKeys (partsKey (makeKey b o) (newVersion v))
          (partKeyRange K s (makeKey b o) (newVersion v)) = .ok keys ∧
        completeParts K s (partsKey (makeKey b o) (newVersion v)) keys parts = .ok ps ∧
        ((∃ s' e, commitUpload K s (makeKey b o) u (newVersion v) (getCompleteMultipartMD5 K parts)
          ps =
              (s', .error e) ∧
            completeMultipartUpload K s b o u parts = (s', .error e)) ∨
          ∃ s' m, commitUpload K s (makeKey b o) u (newVersion v) (getCompleteMultipartMD5 K parts)
            ps =
              (s', .ok m) ∧
            completeMultipartUpload K s b o u parts =
              (if v ≠ [] then (deleteParts K s' (makeKey b o) v).1 else s',
                .ok (m.toObjectKVInfo b o (totalActualSize ps)))) := by
  unfold completeMultipartUpload
  dsimp only
  cases hv : currentVersion K s (makeKey b o) with
  | error e => exact .inl ⟨e, rfl⟩
  | ok v =>
    dsimp only
    cases hk : stripKeys (partsKey (makeKey b o) (newVersion v))
        (partKeyRange K s (makeKey b o) (newVersion v)) with
    | error e => exact .inl ⟨e, rfl⟩
    | ok keys =>
      dsimp only
      cases hp : completeParts K s (partsKey (makeKey b o) (newVersion v)) keys parts with
      | error e => exact .inl ⟨e, rfl⟩
      | ok ps =>
        refine .inr ⟨v, keys, ps, rfl, hk, hp, ?_⟩
        rcases hc : commitUpload K s (makeKey b o) u (newVersion v)
          (getCompleteMultipartMD5 K parts) ps
          with ⟨s', e | m⟩
        · exact .inl ⟨s', e, rfl, by simp only [hc]⟩
        · exact .inr ⟨s', m, rfl, by simp only [hc]⟩

end S3Kinetic
