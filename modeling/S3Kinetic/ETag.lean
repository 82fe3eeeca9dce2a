import S3Kinetic.BucketRecords
import S3Kinetic.Integrity
import S3Kinetic.ObjectReads

/-!
# Etags of objects

`putObject` asks its reader for an etag twice: before the body is read, for the metadata it stores,
and afterwards, for the answer. The MD5 hash has seen nothing at the first call, and without a hash
each call draws its own random bytes. So the two agree for an empty body, or by chance
(`etag_agreement_iff`).
-/

namespace S3Kinetic

open ByteString Decimal OrdMap

section Model

variable (K : Kineticd)

/-- `getObjectInfoWithLock`. -/
def getObjectInfoWithLock (s : Store) (bucket object : Bytes) : Except Err ObjectInfo :=
  match (checkBucketAndObjectNames K bucket object).or (statBucketDir K s bucket) with
  | some e => .error e
  | none => getObjectInfo K s bucket object

/-- `GetObjectInfo`. The errors on which it writes default metadata come from none of its calls. -/
def KineticObjects.getObjectInfo (s : Store) (bucket object : Bytes) : Except Err ObjectInfo :=
  (getObjectInfoWithLock K s bucket object).mapError fun e => toObjectErr e [bucket, object]

namespace HashedBody

variable (h : HashedBody) (sha256 : Bytes → Bytes) (strict : Bool) (rand : Nat → Bytes)

/-- Whether `NewReader` makes an MD5 hash. -/
def hashes : Bool := strict || h.md5sum ≠ []

/-- `NewPutObjReader(rawReader, nil, nil)`. The hash has seen nothing before the body is read, and
all of it afterwards; `r` gives what depends on neither. -/
def newPutObjReader (r : PutObjReader) : PutObjReader :=
  { h.putObjReader K sha256 r with
    md5Current := fun i =>
      if h.hashes strict then K.getMD5Sum (if i = 0 then [] else h.body) else []
    rand
    sealMD5Fn := fun _ => id }

/-- The etag that `PutObject` returns for the body. -/
def returnedETag : Bytes :=
  if h.hashes strict then hexEncode (K.getMD5Sum h.body) else hexEncode (rand 1) ++ lit "-1"

/-- The etag in the metadata of the object is the returned one. An entry `md5Sum` of the request
comes first, and a name that ends in a slash has the etag of an empty body. -/
def ETagsAgree (o : Bytes) (ud : OrdMap Bytes Bytes) : Prop :=
  match ud.get? (lit "md5Sum") with
  | some e => e = h.returnedETag K strict rand
  | none =>
    if hasSuffix o [slash] then emptyETag = h.returnedETag K strict rand
    else if h.hashes strict then K.getMD5Sum [] = K.getMD5Sum h.body
    else rand 0 = rand 1

end HashedBody

/-- As long as the record of the object is that of `s'`, its etag is reported as `e`. -/
structure ReportsETag (s' : Store) (b o e : Bytes) : Prop where
  info : ∀ t : Store, t.get? (makeKey b o) = s'.get? (makeKey b o) → statBucketDir K t b = none →
    ∃ i, KineticObjects.getObjectInfo K t b o = .ok i ∧ i.etag = e
  listed : ∀ t : Store, t.get? (makeKey b o) = s'.get? (makeKey b o) →
    ∀ fuel pfx marker delimiter maxKeys res, listObjects K t fuel b pfx marker delimiter maxKeys =
      some (.ok res) →
      ∀ i ∈ res.objects, i.name = o → i.etag = e

/-- The metadata of the object that `PutObject` is about to store fits the buffer of the readers. -/
def MetaFits (s : Store) (b o : Bytes) (r : PutObjReader) (ud : OrdMap Bytes Bytes) (now : Nat) :
    Prop :=
  ∃ v, currentVersion K s (makeKey b o) = .ok v ∧
    (K.marshal (putObjectMeta o r ud (newVersion v) now)).length ≤ maxMetaBytes

end Model

variable {K : Kineticd} {s s' : Store} {b o : Bytes} {ud : OrdMap Bytes Bytes} {now : Nat}
    {info : ObjectInfo}

/-! ## Hexadecimal texts -/

theorem hexDigit_inj {m n : Nat} (hm : m < 16) (hn : n < 16) (h : hexDigit m = hexDigit n) :
    m = n := by
  have hall : ∀ m < 16, ∀ n < 16, hexDigit m = hexDigit n → m = n := by decide
  exact hall m hm n hn h

theorem hexEncode_injective : Function.Injective hexEncode := by
  intro x
  induction x with
  | nil =>
    intro y h
    cases y with
    | nil => rfl
    | cons d y => simp [hexEncode] at h
  | cons c x ih =>
    intro y h
    cases y with
    | nil => simp [hexEncode] at h
    | cons d y =>
      simp only [hexEncode, List.flatMap_cons, List.cons_append, List.nil_append,
        List.cons.injEq] at h
      have hc := c.toNat_lt
      have hd := d.toNat_lt
      have h1 := hexDigit_inj (by omega) (by omega) h.1
      have h2 := hexDigit_inj (by omega) (by omega) h.2.1
      rw [UInt8.toNat_inj.1 (show c.toNat = d.toNat by omega), ih h.2.2]

theorem length_hexEncode (x : Bytes) : (hexEncode x).length = 2 * x.length := by
  induction x with
  | nil => rfl
  | cons c x ih =>
    simp only [hexEncode, List.flatMap_cons, List.length_append, List.length_cons] at ih ⊢
    rw [ih]
    simp
    omega

/-! ## What is reported -/

/-- The etag that `KVInfoToObjectInfo` makes of metadata with the etag `stored`. -/
def reportedETag (o : Bytes) (ud : OrdMap Bytes Bytes) (stored : Bytes) : Bytes :=
  (ud.get? (lit "md5Sum")).getD (if hasSuffix o [slash] then emptyETag else stored)

theorem etag_putObjectMeta (r : PutObjReader) (v : Bytes) :
    ((putObjectMeta o r ud v now).toObjectInfo b o).etag =
      reportedETag o ud (r.md5CurrentHexString 0) := by
  have hentries : (putObjectMeta o r ud v now).entries =
      ((ud.insert keyVersion v).insert keyEtag (r.md5CurrentHexString 0)).insert keySize
        (formatInt r.size) := rfl
  have hne : lit "md5Sum" ≠ keyVersion ∧ lit "md5Sum" ≠ keyEtag ∧ lit "md5Sum" ≠ keySize ∧
      keyEtag ≠ keySize := by
    decide
  simp only [FsMetaV1.toObjectInfo, extractETag, reportedETag, hentries]
  split
  · rw [get?_insert_of_ne hne.2.1, get?_insert_of_ne hne.2.2.1, get?_insert_of_ne hne.2.1,
      get?_insert_of_ne hne.1, get?_insert_self, Option.getD_some]
  · rw [get?_insert_of_ne hne.2.2.1, get?_insert_of_ne hne.2.1, get?_insert_of_ne hne.1,
      get?_insert_of_ne hne.2.2.2, get?_insert_self, Option.getD_some]

theorem statBucketDir_of_checkBucketExist (h : checkBucketExist K s b = none) :
    statBucketDir K s b = none := by
  unfold checkBucketExist getBucketInfo at h
  unfold statBucketDir
  rcases hm : cGetMeta s (bucketKey b) with e | (m | bi)
  · simp [hm] at h
  · by_cases hlen : (K.marshal m).length ≤ maxMetaBytes
    · exact if_pos hlen
    · simp [hm, hlen] at h
  · rfl

/-- The etag of any reader is reported as it was returned exactly if the metadata can be read and
the first etag of the reader is the second one. -/
theorem reportsETag_iff {r : PutObjReader} (hv : isValidBucketName b = true)
    (hbucket : isMinioMetaBucketName b = true ∨ K.checkValidBucketName b = true)
    (hput : putObject K s b o r ud now = (s', .ok info)) :
    ReportsETag K s' b o info.etag ↔
      MetaFits K s b o r ud now ∧ reportedETag o ud (r.md5CurrentHexString 0) =
        r.md5CurrentHexString 1 := by
  obtain ⟨v, hver, rfl, rfl, -, -, hargs⟩ := putObject_ok hput
  obtain ⟨hnames, -⟩ := checkBucketAndObjectNames_of_put hbucket hargs
  have hb : b ≠ [] := bucket_ne_nil hv
  -- what both calls read, in a store that still has the record
  have hread {t : Store} (ht : t.get? (makeKey b o) = (s.insert (makeKey b o)
      ⟨.json (putObjectMeta o r ud (newVersion v) now), r.stream.data⟩).get? (makeKey b o)) :
      getObjectInfo K t b o = if (K.marshal (putObjectMeta o r ud (newVersion v) now)).length ≤
        maxMetaBytes
        then .ok ((putObjectMeta o r ud (newVersion v) now).toObjectInfo b o)
            else .error .panic := by
    rw [getObjectInfo_makeKey hb, ht, get?_insert_self]
    dsimp only [unmarshalMeta]
    split_ifs <;> rfl
  constructor
  · intro h
    -- the bucket is still there after the put
    have hstat : statBucketDir K (s.insert (makeKey b o)
        ⟨.json (putObjectMeta o r ud (newVersion v) now), r.stream.data⟩) b = none := by
      have hexist : checkBucketExist K s b = none := by
        unfold checkPutObjectArgs at hargs
        exact (Option.or_eq_none_iff.1 hargs).1
      have hbefore := statBucketDir_of_checkBucketExist hexist
      unfold statBucketDir cGetMeta at hbefore ⊢
      rwa [get?_insert_of_ne (makeKey_ne_bucketKey hv hv o).symm]
    obtain ⟨i, hi, hetag⟩ := h.info _ rfl hstat
    unfold KineticObjects.getObjectInfo getObjectInfoWithLock at hi
    rw [hnames, hstat, Option.or_none] at hi
    simp only [hread rfl] at hi
    split_ifs at hi with hlen
    · cases hi
      rw [etag_putObjectMeta] at hetag
      exact ⟨⟨v, hver, hlen⟩, hetag⟩
    · cases hi
  · rintro ⟨⟨v', hver', hlen⟩, hsame⟩
    cases hver.symm.trans hver'
    constructor
    · intro t ht hstat
      refine ⟨(putObjectMeta o r ud (newVersion v) now).toObjectInfo b o, ?_,
        (etag_putObjectMeta r (newVersion v)).trans hsame⟩
      unfold KineticObjects.getObjectInfo getObjectInfoWithLock
      rw [hnames, hstat, Option.or_none]
      simp only [hread ht, if_pos hlen]
      rfl
    · intro t ht fuel pfx marker delimiter maxKeys res hlist i hi hname
      have hinfo := listObjects_faithful hlist i hi
      rw [hname, hread ht, if_pos hlen] at hinfo
      cases hinfo
      exact (etag_putObjectMeta r (newVersion v)).trans hsame

/-! ## Readers of request bodies -/

section Reader

variable {h : HashedBody} {sha256 : Bytes → Bytes} {strict : Bool} {rand : Nat → Bytes}
    {r : PutObjReader}

theorem md5CurrentHexString_hashed (hmd5 : ∀ d, (K.getMD5Sum d).length = 16)
    (hh : h.hashes strict = true) (i : Nat) :
    (h.newPutObjReader K sha256 strict rand r).md5CurrentHexString i =
      hexEncode (K.getMD5Sum (if i = 0 then [] else h.body)) := by
  have hne : K.getMD5Sum (if i = 0 then [] else h.body) ≠ [] := by
    rw [← List.length_pos_iff, hmd5]
    omega
  simp only [PutObjReader.md5CurrentHexString, HashedBody.newPutObjReader, if_pos hh,
    if_neg hne, id]

theorem md5CurrentHexString_random (hrand : ∀ i, (rand i).length = 16)
    (hh : h.hashes strict = false) (i : Nat) :
    (h.newPutObjReader K sha256 strict rand r).md5CurrentHexString i = hexEncode (rand i) ++
      lit "-1" := by
  have hlen : (hexEncode (rand i)).take 32 = hexEncode (rand i) := by
    rw [List.take_of_length_le]
    rw [length_hexEncode, hrand]
  simp [PutObjReader.md5CurrentHexString, HashedBody.newPutObjReader, hh, hlen]

theorem md5CurrentHexString_returned (hmd5 : ∀ d, (K.getMD5Sum d).length = 16)
    (hrand : ∀ i, (rand i).length = 16) :
    (h.newPutObjReader K sha256 strict rand r).md5CurrentHexString 1 =
      h.returnedETag K strict rand := by
  unfold HashedBody.returnedETag
  cases hh : h.hashes strict with
  | true => rw [md5CurrentHexString_hashed hmd5 hh, if_pos rfl, if_neg one_ne_zero]
  | false => rw [md5CurrentHexString_random hrand hh, if_neg Bool.false_ne_true]

theorem reportedETag_eq_iff (hmd5 : ∀ d, (K.getMD5Sum d).length = 16)
    (hrand : ∀ i, (rand i).length = 16) :
    reportedETag o ud ((h.newPutObjReader K sha256 strict rand r).md5CurrentHexString 0) =
        (h.newPutObjReader K sha256 strict rand r).md5CurrentHexString 1 ↔
      h.ETagsAgree K strict rand o ud := by
  unfold reportedETag HashedBody.ETagsAgree
  cases ud.get? (lit "md5Sum") with
  | some e => rw [md5CurrentHexString_returned hmd5 hrand, Option.getD_some]
  | none =>
    rw [Option.getD_none]
    split_ifs with hslash hh
    · rw [md5CurrentHexString_returned hmd5 hrand]
    · rw [md5CurrentHexString_hashed hmd5 hh, md5CurrentHexString_hashed hmd5 hh,
        hexEncode_injective.eq_iff, if_pos rfl, if_neg one_ne_zero]
    · have hh' : h.hashes strict = false := Bool.eq_false_iff.2 hh
      rw [md5CurrentHexString_random hrand hh', md5CurrentHexString_random hrand hh',
        List.append_left_inj, hexEncode_injective.eq_iff]

/-- `PutObject` returns the etag that is reported later, and the MD5 of the content in strict mode,
exactly if the metadata can be read and both etags of the reader agree: for a body whose MD5 is that
of nothing, or where two draws of random bytes are the same. -/
theorem etag_agreement_iff (hmd5 : ∀ d, (K.getMD5Sum d).length = 16)
    (hrand : ∀ i, (rand i).length = 16)
    (hv : isValidBucketName b = true) (hbucket : isMinioMetaBucketName b = true ∨
      K.checkValidBucketName b = true)
    (hput : putObject K s b o (h.newPutObjReader K sha256 strict rand r) ud now = (s', .ok info)) :
    (ReportsETag K s' b o info.etag ∧
      (strict = true → ∃ rec, s'.get? (makeKey b o) = some rec ∧
        info.etag = hexEncode (K.getMD5Sum rec.value))) ↔
    MetaFits K s b o (h.newPutObjReader K sha256 strict rand r) ud now ∧
      h.ETagsAgree K strict rand o ud := by
  rw [reportsETag_iff hv hbucket hput, reportedETag_eq_iff hmd5 hrand, and_iff_left]
  intro hstrict
  obtain ⟨v, -, rfl, rfl, -⟩ := putObject_ok hput
  have hh : h.hashes strict = true := by rw [HashedBody.hashes, hstrict, Bool.true_or]
  have hdata : (h.newPutObjReader K sha256 strict rand r).stream.data = h.body := by
    show (h.putObjReader K sha256 r).stream.data = h.body
    rw [HashedBody.stream_putObjReader]
  refine ⟨_, get?_insert_self _ _ _, ?_⟩
  rw [md5CurrentHexString_hashed hmd5 hh, hdata, if_neg one_ne_zero]

/-- A drive whose MD5 is right for no bytes and for `data`. -/
def digestDrive : Kineticd :=
  { memoryDrive [] with
    getMD5Sum := fun d =>
      if d = [] then [0xd4, 0x1d, 0x8c, 0xd9, 0x8f, 0x00, 0xb2, 0x04, 0xe9, 0x80, 0x09, 0x98, 0xec,
        0xf8, 0x42, 0x7e]
      else [0x8d, 0x77, 0x7f, 0x38, 0x5d, 0x3d, 0xfe, 0xc8, 0x81, 0x5d, 0x20, 0xf7, 0x49,
        0x60, 0x26, 0xdc] }

theorem length_getMD5Sum_digestDrive (d : Bytes) : (digestDrive.getMD5Sum d).length = 16 := by
  show (if d = [] then _ else _ : Bytes).length = 16
  split_ifs <;> rfl

def digestBucket : Store := run digestDrive (initStore digestDrive id) [.makeBucket (lit "bkt") 1]

/-- The reader of a body without declared digests, in strict mode. -/
def strictReader (body : Bytes) : PutObjReader :=
  (⟨body, [], true, [], []⟩ : HashedBody).newPutObjReader digestDrive id true (fun _ =>
    List.replicate 16 0)
    (bodyReader body [])

def strictPut (body : Bytes) : Store × Except Err ObjectInfo :=
  putObject digestDrive digestBucket (lit "bkt") (lit "a") (strictReader body) ∅ 2

theorem etag_agreement_empty :
    ReportsETag digestDrive (strictPut []).1 (lit "bkt") (lit "a") emptyETag := by
  have hput : putObject digestDrive digestBucket (lit "bkt") (lit "a") (strictReader []) ∅ 2 =
      ((strictPut []).1, .ok ⟨lit "bkt", lit "a", 2, 0, false, false, emptyETag, []⟩) := by
        decide +kernel
  refine ((etag_agreement_iff length_getMD5Sum_digestDrive (fun _ => List.length_replicate)
    (by decide +kernel)
    (.inr (by decide +kernel)) hput).2 ⟨⟨[], ?_, ?_⟩, rfl⟩).1
  · decide +kernel
  · decide +kernel

/-- In strict mode the object `data` is reported with the etag of an empty body. -/
theorem putObject_stores_emptyETag :
    Reachable digestDrive digestBucket ∧
      (strictPut (lit "data")).2.map ObjectInfo.etag =
        .ok (lit "8d777f385d3dfec8815d20f7496026dc") ∧
      (KineticObjects.getObjectInfo digestDrive (strictPut (lit "data")).1 (lit "bkt")
        (lit "a")).map ObjectInfo.etag =
        .ok emptyETag ∧
      ¬ ReportsETag digestDrive (strictPut (lit "data")).1 (lit "bkt") (lit "a")
        (lit "8d777f385d3dfec8815d20f7496026dc") := by
  have hinfo : (KineticObjects.getObjectInfo digestDrive (strictPut (lit "data")).1 (lit "bkt")
    (lit "a")).map
      ObjectInfo.etag = .ok emptyETag := by decide +kernel
  refine ⟨⟨id, _, rfl⟩, by decide +kernel, hinfo, fun h => ?_⟩
  obtain ⟨i, hi, hetag⟩ := h.info _ rfl (by decide +kernel)
  rw [hi, Except.map, hetag] at hinfo
  exact absurd hinfo (by decide)

end Reader

end S3Kinetic
