import S3Kinetic.Lib.OrdMap
import S3Kinetic.Lib.Decimal

/-!
# The kineticd store and its client

kineticd keeps an ordered map from byte-string keys to a metadata blob and a value. The blobs the
object layer writes are JSON (`fsMetaV1`, for objects, parts and upload records) and gob
(`BucketInfo`, for bucket records); they are kept decoded here, and `Kineticd.marshal` gives the
JSON text where its bytes or its length matter.

`Kineticd` collects what is decided outside the repository: the status of each put and delete, what
a partial get outside the value returns, and the codec.
-/

namespace S3Kinetic

open ByteString

/-! ## Records -/

structure ObjectPartInfo where
  etag : Bytes
  number : Int
  size : Int
  actualSize : Int
  deriving DecidableEq

structure KOInfo where
  name : Bytes
  size : Int
  createdTime : Nat
  deriving DecidableEq

structure FsMetaV1 where
  version : Bytes
  entries : OrdMap Bytes Bytes
  parts : List ObjectPartInfo
  koInfo : KOInfo
  deriving DecidableEq

/-- `m.Meta[k]`: a missing entry reads as the empty text. -/
def FsMetaV1.get (m : FsMetaV1) (k : Bytes) : Bytes := (m.entries.get? k).getD []

/-- `m.Meta[k] = v`. -/
def FsMetaV1.set (m : FsMetaV1) (k v : Bytes) : FsMetaV1 :=
  { m with entries := m.entries.insert k v }

structure BucketInfo where
  name : Bytes
  created : Nat
  deriving DecidableEq

inductive Blob where
  | json (m : FsMetaV1)
  | gob (b : BucketInfo)
  deriving DecidableEq

structure Record where
  blob : Blob
  value : Bytes
  deriving DecidableEq

abbrev Store := OrdMap Bytes Record

/-! ## Statuses and errors -/

/-- `StoreOperationStatus`; `failure` stands for the codes without an error of their own. -/
inductive KineticStatus where
  | success | notFound | versionMismatch | authorizationFailure | noSpace | frozen | mediaFault
  | failure
  deriving DecidableEq, Repr

/-- The errors the modelled functions return. `errorf` is an error that is only a text, `panic` a Go
run-time panic. -/
inductive Err where
  | errKineticNotFound | errKineticVersionMismatch | errKineticAuthorizationFailure
  | errKineticNoSpace | errKineticFrozen | errKineticMediaFault | errKineticInvalidError
  | errVolumeNotFound | errVolumeExists | errBucketNotEmpty | errFileNotFound | errInvalidArgument
  | errUnexpectedEOF | errEOF | errUnmarshal | errReader | errUnexpected
  | bucketNotFound (bucket : Bytes)
  | bucketExists (bucket : Bytes)
  | bucketNameInvalid (bucket : Bytes)
  | objectNotFound (bucket object : Bytes)
  | objectNameInvalid (bucket object : Bytes)
  | objectNameTooLong (bucket object : Bytes)
  | objectNamePrefixAsSlash (bucket object : Bytes)
  | incompleteBody
  | invalidPart (partNumber : Int) (gotETag : Bytes)
  | partTooSmall (partNumber partSize : Int) (partETag : Bytes)
  | invalidRange (offset length size : Int)
  | errInvalidRange
  | errorf (text : Bytes)
  | panic
  deriving DecidableEq

/-- `toKineticError`. -/
def toKineticError : KineticStatus → Option Err
  | .success => none
  | .notFound => some .errKineticNotFound
  | .versionMismatch => some .errKineticVersionMismatch
  | .authorizationFailure => some .errKineticAuthorizationFailure
  | .noSpace => some .errKineticNoSpace
  | .frozen => some .errKineticFrozen
  | .mediaFault => some .errKineticMediaFault
  | .failure => some .errKineticInvalidError

theorem toKineticError_eq_none_iff {st : KineticStatus} : toKineticError st = none ↔
    st = .success := by
  cases st <;> simp [toKineticError]

/-- `toObjectErr` with the one or two names its callers here pass. -/
def toObjectErr (e : Err) (params : List Bytes) : Err :=
  match e, params with
  | .errVolumeNotFound, bucket :: _ => .bucketNotFound bucket
  | .errVolumeExists, bucket :: _ => .bucketExists bucket
  | .errFileNotFound, [bucket, object] => .objectNotFound bucket object
  | .errUnexpectedEOF, _ => .incompleteBody
  | e, _ => e

/-! ## The daemon -/

/-- What the repository's code relies on and does not contain. -/
structure Kineticd where
  putStatus : Store → Bytes → Record → KineticStatus
  deleteStatus : Store → Bytes → KineticStatus
  /-- `PartialGet` of a value at an offset, for a number of bytes. -/
  partialGet : Bytes → Nat → Int → Option Bytes
  /-- Whether a key range with an empty end key has no upper end. -/
  emptyEndOpen : Bool
  /-- `json.Marshal`. -/
  marshal : FsMetaV1 → Bytes
  /-- `json.Unmarshal` into a value that is already filled in. -/
  unmarshal : FsMetaV1 → Bytes → Option FsMetaV1
  /-- What `json.Unmarshal` makes of the text of a record after `C.free`, when the memory may hold
  anything. -/
  afterFree : Store → Bytes → Blob → Option FsMetaV1
  getMD5Sum : Bytes → Bytes
  /-- What a fresh buffer of some size holds. -/
  allocateBuffer : Nat → Bytes
  checkValidBucketName : Bytes → Bool
  checkValidBucketNameStrict : Bytes → Bool
  regexpMatchString : Bytes → Bytes → Bool
  /-- The capacity of a byte slice made from a text of some length; the bytes behind the text are
  zero. -/
  byteCap : Nat → Nat
  le_byteCap : ∀ n, n ≤ byteCap n

def colon : UInt8 := 58

variable (K : Kineticd)

structure Kineticd.Healthy : Prop where
  put : ∀ s k r, K.putStatus s k r = .success
  delete : ∀ (s : Store) (k : Bytes), k ∈ s → K.deleteStatus s k = .success

/-- Inside a value, a partial get returns the bytes it is asked for. -/
def Kineticd.PartialGetInside : Prop :=
  ∀ (value : Bytes) (offset size : Nat), offset + size ≤ value.length →
    K.partialGet value offset size = some ((value.drop offset).take size)

/-- Over the end of a value, a partial get fails or stops at the end. -/
def Kineticd.PartialGetClips : Prop :=
  ∀ (value : Bytes) (offset size : Nat), K.partialGet value offset size = none ∨
    K.partialGet value offset size = some ((value.drop offset).take size)

/-! ## Client operations

The keys go to the daemon as C strings, up to their first NUL. The functions here take a key as it
is, which is what the client does for a `CString`.
-/

/-- The C functions get the whole key. -/
def CString (key : Bytes) : Prop := 0 ∉ key

instance instDecidablePredCString : DecidablePred CString :=
  fun key => inferInstanceAs (Decidable (0 ∉ key))

/-- `CGetMeta`. -/
def cGetMeta (s : Store) (key : Bytes) : Except Err Blob :=
  match s.get? key with
  | none => .error .errKineticNotFound
  | some r => .ok r.blob

/-- `CGet` of a value whose size is believed to be `objSize`; `-1` is "unknown" for both sizes. -/
def cGet (s : Store) (key : Bytes) (objSize : Int) (offset : Nat) (requestSize : Int) :
    Except Err Bytes :=
  let requestSize := if requestSize = -1 ∨ requestSize > objSize then objSize else requestSize
  match s.get? key with
  | none => .error .errKineticNotFound
  | some r =>
    if offset = 0 ∧ requestSize = objSize then .ok r.value
    else
      match K.partialGet r.value offset requestSize with
      | none => .error .errKineticNotFound
      | some v => .ok v

/-- `CPut`. -/
def cPut (s : Store) (key : Bytes) (r : Record) : Store × Option Err :=
  match toKineticError (K.putStatus s key r) with
  | none => (s.insert key r, none)
  | some e => (s, some e)

/-- `Delete`, through the skinny-waist interface. -/
def delete (s : Store) (key : Bytes) : Store × Option Err :=
  match toKineticError (K.deleteStatus s key) with
  | none => (s.erase key, none)
  | some e => (s, some e)

/-- The bounds of a key range query. -/
def inRange (startKey endKey : Bytes) (startKeyInclusive endKeyInclusive : Bool) (k : Bytes) :
    Bool :=
  (if startKeyInclusive then startKey ≤ k else startKey < k) &&
    (if endKey = [] ∧ K.emptyEndOpen then true else if endKeyInclusive then k ≤ endKey
      else k < endKey)

/-- `GetKeyRange` of the daemon: the first `maxReturned` keys of the range, in byte order. -/
def getKeyRange (s : Store) (startKey endKey : Bytes) (startKeyInclusive endKeyInclusive : Bool)
    (maxReturned : Nat) : List Bytes :=
  (s.keysWhere (inRange K startKey endKey startKeyInclusive endKeyInclusive)).take maxReturned

/-- `CGetKeyRange`: the daemon's answer is one text with `:` between the keys, which the client
cuts again, dropping empty pieces. A key that contains `:` comes out in several pieces. -/
def cGetKeyRange (s : Store) (startKey endKey : Bytes) (startKeyInclusive endKeyInclusive : Bool)
    (maxReturned : Nat) : List Bytes :=
  pieces colon
    ([colon].intercalate (getKeyRange K s startKey endKey startKeyInclusive
      endKeyInclusive maxReturned))

/-- The cast `(*[1 << 16]byte)` in front of `json.Unmarshal`. -/
def maxMetaBytes : Nat := 2 ^ 16

/-- Decodes a metadata blob as JSON; a text over 64 KiB does not fit the cast. -/
def unmarshalMeta : Blob → Except Err FsMetaV1
  | .gob _ => .error .errUnmarshal
  | .json m => if (K.marshal m).length ≤ maxMetaBytes then .ok m else .error .panic

/-! ## What the operations do -/

variable {K} {s : Store} {k k' : Bytes} {r : Record}

theorem cPut_eq (s : Store) (k : Bytes) (r : Record) :
    (cPut K s k r = (s.insert k r, none) ∧ K.putStatus s k r = .success) ∨
      ∃ e, cPut K s k r = (s, some e) := by
  rw [cPut]
  cases h : toKineticError (K.putStatus s k r) with
  | none => exact .inl ⟨rfl, toKineticError_eq_none_iff.1 h⟩
  | some e => exact .inr ⟨e, rfl⟩

theorem delete_eq (s : Store) (k : Bytes) :
    (delete K s k = (s.erase k, none) ∧ K.deleteStatus s k = .success) ∨
      ∃ e, delete K s k = (s, some e) := by
  rw [delete]
  cases h : toKineticError (K.deleteStatus s k) with
  | none => exact .inl ⟨rfl, toKineticError_eq_none_iff.1 h⟩
  | some e => exact .inr ⟨e, rfl⟩

theorem cPut_of_healthy (hK : K.Healthy) (s : Store) (k : Bytes) (r : Record) :
    cPut K s k r = (s.insert k r, none) := by
  simp [cPut, hK.put, toKineticError]

theorem delete_of_healthy (hK : K.Healthy) (h : k ∈ s) : delete K s k = (s.erase k, none) := by
  simp [delete, hK.delete s k h, toKineticError]

theorem delete_get?_of_ne (h : k' ≠ k) : (delete K s k).1.get? k' = s.get? k' := by
  rcases delete_eq (K := K) s k with ⟨h', -⟩ | ⟨e, h'⟩ <;> rw [h']
  exact OrdMap.get?_erase_of_ne h

theorem delete_mem_of_mem (h : k' ∈ (delete K s k).1) : k' ∈ s := by
  rcases delete_eq (K := K) s k with ⟨h', -⟩ | ⟨e, h'⟩ <;> rw [h'] at h
  · exact (OrdMap.mem_erase.1 h).2
  · exact h

theorem cPut_get?_of_ne (h : k' ≠ k) : (cPut K s k r).1.get? k' = s.get? k' := by
  rcases cPut_eq (K := K) s k r with ⟨h', -⟩ | ⟨e, h'⟩ <;> rw [h']
  exact OrdMap.get?_insert_of_ne h

theorem cGet_unknown (s : Store) (k : Bytes) :
    cGet K s k (-1) 0 (-1) =
      match s.get? k with
      | none => .error .errKineticNotFound
      | some r => .ok r.value := by
  unfold cGet
  cases s.get? k <;> simp

theorem cGet_inside (hin : K.PartialGetInside) (hr : s.get? k = some r) {offset size : Nat}
    (h : offset + size ≤ r.value.length) :
    cGet K s k r.value.length offset size = .ok ((r.value.drop offset).take size) := by
  unfold cGet
  dsimp only
  have hreq : (if (size : Int) = -1 ∨ (size : Int) > r.value.length then (r.value.length : Int)
      else size) = size := if_neg (by omega)
  rw [hr, hreq]
  dsimp only
  split_ifs with hwhole
  · rw [hwhole.1, List.drop_zero, List.take_of_length_le (by omega)]
  · rw [hin r.value offset size h]

theorem cGet_clipped (hclip : K.PartialGetClips) (hr : s.get? k = some r) {offset size : Nat}
    (h : size ≤ r.value.length) (hoff : 0 < offset) {v : Bytes}
    (hv : cGet K s k r.value.length offset size = .ok v) : v = (r.value.drop offset).take size := by
  unfold cGet at hv
  dsimp only at hv
  have hreq : (if (size : Int) = -1 ∨ (size : Int) > r.value.length then (r.value.length : Int)
      else size) = size := if_neg (by omega)
  rw [hr, hreq] at hv
  dsimp only at hv
  rw [if_neg (by omega)] at hv
  rcases hclip r.value offset size with hp | hp <;> rw [hp] at hv <;> cases hv
  rfl

theorem cGetKeyRange_eq {startKey endKey : Bytes} {si ei : Bool} {n : Nat}
    (h : ∀ k ∈ getKeyRange K s startKey endKey si ei n, colon ∉ k ∧ k ≠ []) :
    cGetKeyRange K s startKey endKey si ei n = getKeyRange K s startKey endKey si ei n :=
  pieces_intercalate h

end S3Kinetic
