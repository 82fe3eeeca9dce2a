import S3Kinetic.Listing

/-!
# Buckets

`DeleteBucket` asks `ListObjects` for one entry; when the answer is empty it starts a goroutine that
walks the bucket and sends its visible objects over an unbuffered channel, and deletes what it
receives in batches. Walker and consumer are two threads over one store, and a schedule says which
of them moves next.
-/

namespace S3Kinetic

open ByteString

variable (K : Kineticd)

/-- `MakeBucketWithLocation`; the status of the put is not looked at. -/
def makeBucketWithLocation (s : Store) (bucket : Bytes) (now : Nat) : Store × Option Err :=
  if !K.checkValidBucketNameStrict bucket then (s, some (.bucketNameInvalid bucket))
  else
    match cGetMeta s (bucketKey bucket) with
    | .ok _ => (s, some (toObjectErr .errVolumeExists [bucket]))
    | .error _ =>
      ((cPut K s (bucketKey bucket) ⟨.gob ⟨bucketKey bucket, now⟩, []⟩).1, none)

/-- `isBucketEmpty`: a listing of at most one entry. -/
def isBucketEmpty (s : Store) (bucket : Bytes) : Option (Except Err Bool) :=
  (listObjects K s 2 bucket [] [] [] 1).map fun res =>
    res.map fun objLst => objLst.objects.length = 0 && objLst.prefixes.length = 0

/-! ## The walker -/

/-- A goroutine of `Walk`: about to query, part-way through a window (whose last query came back
full or not), blocked on a send, or done. -/
inductive Walker where
  | fetch (startKey endKey : Bytes)
  | scan (keys : List Bytes) (full : Bool) (lastKey : Bytes)
  | send (objInfo : ObjectInfo) (keys : List Bytes) (full : Bool) (lastKey : Bytes)
  | closed
  | crashed
  deriving DecidableEq

/-- `maxKeyRange` of the private `listObjects`. -/
def walkKeyRange : Nat := 800

/-- `key[len(bucket)+1 : len(bucket)+1+len(prefix)]`, with the zeros behind a short key. -/
def prefixSlice (bucket pfx key : Bytes) : Bytes :=
  ((key ++ List.replicate (bucket.length + 1 + pfx.length) 0).drop (bucket.length + 1)).take
    pfx.length

/-- One key of a window: nothing to send, an object to send, or the end of the walk. A slice may
reach over the end of the key up to its capacity. -/
def walkKey (s : Store) (bucket pfx delimiter key : Bytes) : Except Err (Option ObjectInfo) :=
  if K.byteCap key.length < bucket.length + 1 + pfx.length then .error .panic
  else if pfx ≠ prefixSlice bucket pfx key then .ok none
  else if key.length < bucket.length + 1 then .error .panic
  else
    match getObjectInfo K s bucket (key.drop (bucket.length + 1)) with
    | .error e => .error e
    | .ok objInfo =>
      if objInfo.hidden then .ok none
      else if delimiter ≠ [slash] then .ok (some objInfo)
      else if pfx ≠ [] ∧ !hasSuffix pfx [slash] then
        .ok (some { objInfo with isDir := true, name := pfx ++ [slash] })
      else
        match (key.drop (bucket.length + 1 + pfx.length)).splitOn slash with
        | first :: _ :: _ =>
          .ok (some { objInfo with isDir := true, name := pfx ++ first ++ [slash] })
        | _ => .ok (some objInfo)

/-- A move of the walker that needs no partner. -/
def Walker.step (s : Store) (bucket pfx delimiter : Bytes) : Walker → Walker
  | .fetch startKey endKey =>
    let keys := cGetKeyRange K s startKey endKey false true walkKeyRange
    .scan keys (walkKeyRange ≤ keys.length) startKey
  | .scan [] full lastKey => if full then .fetch lastKey [] else .closed
  | .scan (key :: keys) full _ =>
    match walkKey K s bucket pfx delimiter key with
    | .error .panic => .crashed
    | .error _ => .closed
    | .ok none => .scan keys full key
    | .ok (some objInfo) => .send objInfo keys full key
  | w => w

/-! ## Deleting a bucket -/

/-- `maxObjectList`. -/
def maxObjectList : Nat := 10000

/-- The loop of `DeleteBucket`: gathering a batch, deleting it, or at the bucket record. -/
inductive Consumer where
  | gather (objects : List Bytes) (lastErr : Option Err)
  | deleting (objects : List Bytes) (lastErr : Option Err)
  | finish (lastErr : Option Err)
  deriving DecidableEq

inductive BucketRun where
  | running (w : Walker) (c : Consumer) (s : Store)
  | returned (err : Option Err) (s : Store)
  deriving DecidableEq

/-- The last statements of `DeleteBucket`. -/
def finishBucket (s : Store) (bucket : Bytes) : Option Err → BucketRun
  | some e => .returned (some e) s
  | none =>
    match delete K s (bucketKey bucket) with
    | (s, some e) => .returned (some e) s
    | (s, none) =>
      let (s, e) := delete K s (lit "bucketKey")
      .returned e s

/-- A move of the loop of `DeleteBucket`; without a sender, or the end of the walk, it waits. -/
def Consumer.step (bucket : Bytes) (w : Walker) (s : Store) : Consumer → BucketRun
  | .gather objects lastErr =>
    match w with
    | .send objInfo keys full lastKey =>
      let objects := objects ++ [objInfo.name]
      .running (.scan keys full lastKey)
        (if objects.length = maxObjectList then .deleting objects lastErr
          else .gather objects lastErr) s
    | .closed =>
      .running w (if objects.length = 0 then .finish lastErr else .deleting objects lastErr) s
    | _ => .running w (.gather objects lastErr) s
  | .deleting (object :: objects) lastErr =>
    match deleteObject K s bucket object with
    | (s, some .panic) => .returned (some .panic) s
    | (s, e) => .running w (.deleting objects (e.or lastErr)) s
  | .deleting [] lastErr => .running w (.gather [] lastErr) s
  | .finish lastErr => finishBucket K s bucket lastErr

/-- A move of `DeleteBucket`: of its walker (`true`) or of its own loop (`false`). -/
def BucketRun.step (bucket : Bytes) : BucketRun → Bool → BucketRun
  | .returned e s, _ => .returned e s
  | .running .crashed _ s, true => .returned (some .panic) s
  | .running w c s, true => .running (w.step K s bucket [] []) c s
  | .running w c s, false => c.step K bucket w s

/-- `DeleteBucket` under a schedule. -/
def deleteBucket (s : Store) (bucket : Bytes) (sched : List Bool) : BucketRun :=
  match isBucketEmpty K s bucket with
  | none => .running .closed (.finish none) s
  | some (.error e) => .returned (some e) s
  | some (.ok false) => .returned (some .errBucketNotEmpty) s
  | some (.ok true) =>
    sched.foldl (BucketRun.step K bucket)
      (.running (.fetch (makeKey bucket []) (bucket ++ lit "0")) (.gather [] none) s)

def BucketRun.store : BucketRun → Store
  | .running _ _ s => s
  | .returned _ s => s

end S3Kinetic
