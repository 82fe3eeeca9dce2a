import S3Kinetic.System

/-!
# Cutting the answer of a key range query

kineticd writes the keys of a range into one text with `:` between them, and `CGetKeyRange` cuts
that text at every `:`. Bucket names have no `:`, but object names may. `keyRange_exact_iff` says
that a query of keys of the layer returns them exactly when none has a `:`.
-/

namespace S3Kinetic

open ByteString

/-- The keys that the layer stores. -/
inductive LayerKey : Bytes → Prop
  | bucket {b : Bytes} (hb : isValidBucketName b = true) : LayerKey (bucketKey b)
  | object {b o : Bytes} (hb : isValidBucketName b = true) (ho : isValidObjectName o = true) :
    LayerKey (makeKey b o)
  | part {b o : Bytes} (hb : isValidBucketName b = true) (ho : isValidObjectName o = true)
    (version : Bytes) (number : Int)
      (etag : Bytes) (size : Int) : LayerKey (partKey (makeKey b o) version number etag size)
  | upload {b o : Bytes} (hb : isValidBucketName b = true) (ho : isValidObjectName o = true)
    (uploadID : Bytes) :
      LayerKey (jsonKey (makeKey b o) uploadID)

def writtenKeys (keys : List Bytes) : Bytes := [colon].intercalate keys

/-- The keys that `CGetKeyRange` reads out of a text. -/
def decodeKeys (text : Bytes) : List Bytes := pieces colon text

theorem cGetKeyRange_eq_decodeKeys (K : Kineticd) (s : Store) (startKey endKey : Bytes)
    (si ei : Bool) (n : Nat) :
    cGetKeyRange K s startKey endKey si ei n =
      decodeKeys (writtenKeys (getKeyRange K s startKey endKey si ei n)) := rfl

theorem LayerKey.ne_nil {k : Bytes} (h : LayerKey k) : k ≠ [] := by
  cases h with
  | bucket hb => simp [bucketKey, bucket_ne_nil hb]
  | object hb ho => simp [makeKey]
  | part hb ho => simp [partKey, partsKey, makeKey]
  | upload hb ho => simp [jsonKey, makeKey]

theorem decodeKeys_eq_iff {keys : List Bytes} (h : ∀ k ∈ keys, LayerKey k) :
    decodeKeys (writtenKeys keys) = keys ↔ ∀ k ∈ keys, colon ∉ k := by
  constructor
  · intro heq k hk
    rw [← heq] at hk
    exact sep_not_mem_of_mem_pieces hk
  · exact fun hcolon => pieces_intercalate fun k hk => ⟨hcolon k hk, (h k hk).ne_nil⟩

theorem decodeKeys_injective {keys keys' : List Bytes} (h : ∀ k ∈ keys, LayerKey k ∧ colon ∉ k)
    (h' : ∀ k ∈ keys', LayerKey k ∧ colon ∉ k)
    (heq : decodeKeys (writtenKeys keys) = decodeKeys (writtenKeys keys')) :
    keys = keys' := by
  rw [(decodeKeys_eq_iff fun k hk => (h k hk).1).2 fun k hk => (h k hk).2,
    (decodeKeys_eq_iff fun k hk => (h' k hk).1).2 fun k hk => (h' k hk).2] at heq
  exact heq

theorem keyRange_exact_iff {K : Kineticd} {s : Store} {startKey endKey : Bytes}
    {si ei : Bool} {n : Nat} (h : ∀ k ∈ getKeyRange K s startKey endKey si ei n, LayerKey k) :
    (cGetKeyRange K s startKey endKey si ei n = getKeyRange K s startKey endKey si ei n ↔
      ∀ k ∈ getKeyRange K s startKey endKey si ei n, colon ∉ k) ∧
    ∀ keys keys', (∀ k ∈ keys, LayerKey k ∧ colon ∉ k) → (∀ k ∈ keys', LayerKey k ∧ colon ∉ k) →
      decodeKeys (writtenKeys keys) = decodeKeys (writtenKeys keys') → keys = keys' := by
  rw [cGetKeyRange_eq_decodeKeys]
  exact ⟨decodeKeys_eq_iff h, fun _ _ => decodeKeys_injective⟩

/-- The keys of a bucket with the object `z` and an upload. -/
theorem keyRange_objectAndUpload :
    let s := run (memoryDrive []) (initStore (memoryDrive []) id) (onlyObject (lit "z") ++
      [.newMultipartUpload (lit "bkt") (lit "a") ∅ (lit "u1") 3])
    cGetKeyRange (memoryDrive []) s (lit "bkt/") (lit "bkt0") true true 800 =
      [lit "bkt/a.fs.json.u1", lit "bkt/z"] := by
  intro s
  have hrange : getKeyRange (memoryDrive []) s (lit "bkt/") (lit "bkt0") true true 800 =
      [jsonKey (makeKey (lit "bkt") (lit "a")) (lit "u1"), makeKey (lit "bkt") (lit "z")] := by
    decide +kernel
  have hlayer : ∀ k ∈ [jsonKey (makeKey (lit "bkt") (lit "a")) (lit "u1"),
      makeKey (lit "bkt") (lit "z")], LayerKey k :=
    List.forall_mem_cons.2 ⟨.upload (by decide +kernel) (by decide +kernel) _,
      List.forall_mem_singleton.2 (.object (by decide +kernel) (by decide +kernel))⟩
  have hexact := (keyRange_exact_iff (hrange ▸ hlayer)).1.2
  rw [hrange] at hexact
  exact hexact (by decide)

/-- The object `a:bkt/b` comes out as two keys, and two lists of keys are written as the same
text. -/
theorem keyRange_splits_name :
    cGetKeyRange (memoryDrive []) (run (memoryDrive []) (initStore (memoryDrive []) id)
      (onlyObject (lit "a:bkt/b")))
        (lit "bkt/") (lit "bkt0") true true 800 = [lit "bkt/a", lit "bkt/b"] ∧
      getKeyRange (memoryDrive []) (run (memoryDrive []) (initStore (memoryDrive []) id)
        (onlyObject (lit "a:bkt/b")))
        (lit "bkt/") (lit "bkt0") true true 800 = [makeKey (lit "bkt") (lit "a:bkt/b")] ∧
      LayerKey (makeKey (lit "bkt") (lit "a:bkt/b")) ∧
      LayerKey (makeKey (lit "bkt") (lit "a")) ∧ LayerKey (makeKey (lit "bkt") (lit "b")) ∧
      decodeKeys (writtenKeys [makeKey (lit "bkt") (lit "a:bkt/b")]) =
        decodeKeys (writtenKeys [makeKey (lit "bkt") (lit "a"),
          makeKey (lit "bkt") (lit "b")]) := by
  refine ⟨by decide +kernel, by decide +kernel, ?_, ?_, ?_, by decide +kernel⟩ <;>
    exact .object (by decide +kernel) (by decide +kernel)

end S3Kinetic
