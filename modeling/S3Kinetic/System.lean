import S3Kinetic.Buckets
import S3Kinetic.Multipart

/-!
# Runs of the object layer

An `Op` is one call of the object layer together with everything it takes from outside: the clock,
fresh upload IDs, the request body and the schedule of `DeleteBucket`'s walker. A store is reachable
when a sequence of calls leads to it from a freshly initialised drive.
-/

namespace S3Kinetic

open ByteString

inductive Op where
  | makeBucket (bucket : Bytes) (now : Nat)
  | deleteBucket (bucket : Bytes) (sched : List Bool)
  | putObject (bucket object : Bytes) (r : PutObjReader) (userDefined :
    OrdMap Bytes Bytes) (now : Nat)
  | deleteObject (bucket object : Bytes)
  | newMultipartUpload (bucket object : Bytes) (userDefined : OrdMap Bytes Bytes) (uploadID : Bytes)
      (now : Nat)
  | putObjectPart (bucket object uploadID : Bytes) (partID : Int) (r : PutObjReader) (now : Nat)
  | completeMultipartUpload (bucket object uploadID : Bytes) (parts : List CompletePart)
  | abortMultipartUpload (bucket object uploadID : Bytes)
  | copyObject (srcBucket srcObject dstBucket dstObject : Bytes) (src : CopySource) (now : Nat)

variable (K : Kineticd)

/-- The store after a call. -/
def Op.exec (s : Store) : Op → Store
  | .makeBucket bucket now => (S3Kinetic.makeBucketWithLocation K s bucket now).1
  | .deleteBucket bucket sched => (S3Kinetic.deleteBucket K s bucket sched).store
  | .putObject bucket object r userDefined now =>
    (S3Kinetic.putObject K s bucket object r userDefined now).1
  | .deleteObject bucket object => (S3Kinetic.deleteObject K s bucket object).1
  | .newMultipartUpload bucket object userDefined uploadID now =>
    (S3Kinetic.newMultipartUpload K s bucket object userDefined uploadID now).1
  | .putObjectPart bucket object uploadID partID r now =>
    (S3Kinetic.putObjectPart K s bucket object uploadID partID r now).1
  | .completeMultipartUpload bucket object uploadID parts =>
    (S3Kinetic.completeMultipartUpload K s bucket object uploadID parts).1
  | .abortMultipartUpload bucket object uploadID =>
    (S3Kinetic.abortMultipartUpload K s bucket object uploadID).1
  | .copyObject srcBucket srcObject dstBucket dstObject src now =>
    (S3Kinetic.copyObject K s srcBucket srcObject dstBucket dstObject src now).1

def run (s : Store) (ops : List Op) : Store := ops.foldl (Op.exec K) s

/-- One record of `initKineticMeta`. -/
def initBucket (s : Store) (bucket : Bytes) (now : Nat) : Store × Option Err :=
  match cGetMeta s (bucketKey bucket) with
  | .ok _ => (s, none)
  | .error _ => cPut K s (bucketKey bucket) ⟨.gob ⟨bucketKey bucket, now⟩, []⟩

/-- `initKineticMeta`: the records of the internal buckets. -/
def initKineticMeta (s : Store) (clock : Nat → Nat) : Store × Option Err :=
  match initBucket K s (lit ".minio.sys") (clock 0) with
  | (s, some e) => (s, some e)
  | (s, none) =>
    match initBucket K s (lit ".minio.sys/tmp") (clock 1) with
    | (s, some e) => (s, some e)
    | (s, none) => initBucket K s (lit ".minio.sys/multipart") (clock 2)

def initStore (clock : Nat → Nat) : Store := (initKineticMeta K ∅ clock).1

def Reachable (s : Store) : Prop := ∃ clock ops, s = run K (initStore K clock) ops

variable {K}

theorem run_append (s : Store) (a b : List Op) : run K s (a ++ b) = run K (run K s a) b :=
  List.foldl_append

theorem Reachable.run {s : Store} (h : Reachable K s) (ops : List Op) :
    Reachable K (run K s ops) := by
  obtain ⟨clock, ops', rfl⟩ := h
  exact ⟨clock, ops' ++ ops, (run_append _ _ _).symm⟩

/-- What holds of a fresh drive and is kept by every call of a kind `P` holds after every sequence
of such calls. -/
theorem run_invariant {P : Op → Prop} {I : Store → Prop} {s : Store} {ops : List Op}
    (h0 : I s) (hstep : ∀ s op, P op → I s → I (op.exec K s)) (hP : ∀ op ∈ ops, P op) :
    I (run K s ops) := by
  induction ops generalizing s with
  | nil => exact h0
  | cons op ops ih =>
    exact ih (hstep s op (hP op List.mem_cons_self) h0) fun o ho => hP o (List.mem_cons_of_mem _ ho)

/-! ## A drive in memory -/

/-- The characters `encoding/json` writes for one byte of a text. -/
def jsonChar (c : UInt8) : Bytes :=
  if c = 34 then lit "\\\"" else if c = 92 then lit "\\\\"
  else if c < 32 then lit "\\u00" ++ hexEncode [c] else [c]

def jsonString (s : Bytes) : Bytes := 34 :: s.flatMap jsonChar ++ [34]

/-- A JSON object of fields that are already written. -/
def jsonObject (fields : List (Bytes × Bytes)) : Bytes :=
  lit "\x7b" ++ (lit ",").intercalate (fields.map fun f => jsonString f.1 ++ lit ":" ++ f.2) ++
    lit "\x7d"

def jsonPart (p : ObjectPartInfo) : Bytes :=
  jsonObject [(lit "etag", jsonString p.etag), (lit "number", Decimal.formatInt p.number),
    (lit "size", Decimal.formatInt p.size), (lit "actualSize", Decimal.formatInt p.actualSize)]

/-- The JSON text of metadata; times are written as numbers. -/
def jsonMeta (m : FsMetaV1) : Bytes :=
  jsonObject <|
    [(lit "version", jsonString m.version)] ++
    (if m.entries = ∅ then []
      else [(lit "meta", jsonObject (m.entries.entries.map fun e => (e.1, jsonString e.2)))]) ++
    (if m.parts = [] then []
      else [(lit "parts", lit "[" ++ (lit ",").intercalate (m.parts.map jsonPart) ++ lit "]")]) ++
    [(lit "koInfo", jsonObject [(lit "Name", jsonString m.koInfo.name),
      (lit "SiZe", Decimal.formatInt m.koInfo.size),
      (lit "CreatedTime", Decimal.formatNat m.koInfo.createdTime)])]

/-- Unmarshalling overwrites what the text has and keeps the rest. -/
def FsMetaV1.overwrite (base m : FsMetaV1) : FsMetaV1 where
  version := m.version
  entries := m.entries.entries.foldl (fun es e => es.insert e.1 e.2) base.entries
  parts := if m.parts = [] then base.parts else m.parts
  koInfo := m.koInfo

/-- A drive that takes everything and whose partial gets stop at the end of the value. It can
decode the texts of the metadata in `texts`. Memory that has been freed stays as it was. -/
def memoryDrive (texts : List FsMetaV1) : Kineticd where
  putStatus _ _ _ := .success
  deleteStatus _ _ := .success
  partialGet value offset size := some ((value.drop offset).take size.toNat)
  emptyEndOpen := true
  marshal := jsonMeta
  unmarshal base text := (texts.find? fun m => jsonMeta m = text).map base.overwrite
  afterFree _ _ blob :=
    match blob with
    | .json m => some m
    | .gob _ => none
  getMD5Sum data := List.replicate 16 (UInt8.ofNat data.length)
  allocateBuffer n := List.replicate n 0
  checkValidBucketName := isValidBucketName
  checkValidBucketNameStrict := isValidBucketName
  regexpMatchString _ _ := false
  byteCap := id
  le_byteCap _ := le_rfl

theorem memoryDrive_healthy (texts : List FsMetaV1) : (memoryDrive texts).Healthy :=
  ⟨fun _ _ _ => rfl, fun _ _ _ => rfl⟩

theorem memoryDrive_partialGetInside (texts : List FsMetaV1) :
    (memoryDrive texts).PartialGetInside :=
  fun _ _ _ _ => rfl

theorem memoryDrive_partialGetClips (texts : List FsMetaV1) : (memoryDrive texts).PartialGetClips :=
  fun _ _ _ => .inr rfl

/-- A request body with a known hash. -/
def bodyReader (data : Bytes) (md5 : Bytes) : PutObjReader where
  size := data.length
  actualSize := data.length
  src := ⟨data, none, true⟩
  verify := none
  md5Current _ := md5
  rand _ := []
  sealMD5Fn _ := id
  uuid := []

def onlyObject (name : Bytes) : List Op :=
  [.makeBucket (lit "bkt") 1,
    .putObject (lit "bkt") name (bodyReader (lit "data") (List.replicate 16 7)) ∅ 2]

/-- The store after operations on a new drive in memory. -/
def memoryRun (ops : List Op) : Store := run (memoryDrive []) (initStore (memoryDrive []) id) ops

end S3Kinetic
