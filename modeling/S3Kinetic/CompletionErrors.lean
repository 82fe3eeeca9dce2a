import S3Kinetic.EndToEnd

/-!
# A completion that fails

`CompleteMultipartUpload` validates the parts without a write. Then it reads the record of the
upload, deletes it, decodes what it has read and puts the object. So a call that fails changes the
store exactly when the record is gone and the decoding or the put fails
(`completeMultipartUpload_atomic_iff`). Reads may fail too: a read that fails sees an empty drive.
-/

namespace S3Kinetic

open ByteString OrdMap

section Model

variable (K : Kineticd) (fails : Nat → Bool)

/-- What read number `i` of a call sees of the store. -/
def seen (i : Nat) (s : Store) : Store := if fails i then ∅ else s

/-- The validation loop, whose first read has number `i`. -/
def completePartsReading (s : Store) (startKey : Bytes) (keys : List Bytes) :
    Nat → List CompletePart → Except Err (List ObjectPartInfo)
  | _, [] => .ok []
  | i, part :: parts =>
    match completePart K (seen fails i s) startKey keys part with
    | .error e => .error e
    | .ok p =>
      match checkPartSize parts.isEmpty p with
      | some e => .error e
      | none =>
        match completePartsReading s startKey keys (i + 1) parts with
        | .error e => .error e
        | .ok ps => .ok (p :: ps)

/-- `CompleteMultipartUpload` up to the read of the upload's record: the version of the object and
its parts. -/
def validateUpload (s : Store) (bucket object : Bytes) (parts : List CompletePart) :
    Except Err (Bytes × List ObjectPartInfo) :=
  let objKey := makeKey bucket object
  match currentVersion K (seen fails 0 s) objKey with
  | .error e => .error e
  | .ok objVer =>
    let startKey := partsKey objKey (newVersion objVer)
    match stripKeys startKey (partKeyRange K (seen fails 1 s) objKey (newVersion objVer)) with
    | .error e => .error e
    | .ok keys =>
      match completePartsReading K fails s startKey keys 2 parts with
      | .error e => .error e
      | .ok ps => .ok (objVer, ps)

/-- `CompleteMultipartUpload`, when the reads with the given numbers fail. -/
def completeMultipartUploadReading (s : Store) (bucket object uploadID : Bytes)
    (parts : List CompletePart) :
    Store × Except Err ObjectInfo :=
  let objKey := makeKey bucket object
  match validateUpload K fails s bucket object parts with
  | .error e => (s, .error e)
  | .ok (objVer, ps) =>
    if fails (parts.length + 2) then (s, .error .errFileNotFound)
    else
      match commitUpload K s objKey uploadID (newVersion objVer) (getCompleteMultipartMD5 K parts)
          ps with
      | (s, .error e) => (s, .error e)
      | (s, .ok fsMeta) =>
        let s := if objVer ≠ [] then (deleteParts K s objKey objVer).1 else s
        (s, .ok (fsMeta.toObjectKVInfo bucket object (totalActualSize ps)))

end Model

variable {K : Kineticd} {fails : Nat → Bool} {s : Store} {b o u : Bytes} {parts : List CompletePart}

/-! ## Reads that do not fail -/

theorem completePartsReading_eq (hf : ∀ i, fails i = false) (startKey : Bytes)
    (keys : List Bytes) (i : Nat) :
    completePartsReading K fails s startKey keys i parts =
      completeParts K s startKey keys parts := by
  induction parts generalizing i with
  | nil => rfl
  | cons part parts ih =>
    rw [completePartsReading, seen, hf, if_neg Bool.false_ne_true, ih]
    rfl

theorem completeMultipartUploadReading_eq (hf : ∀ i, fails i = false) :
    completeMultipartUploadReading K fails s b o u parts =
      completeMultipartUpload K s b o u parts := by
  unfold completeMultipartUploadReading completeMultipartUpload validateUpload seen
  simp only [hf, Bool.false_eq_true, if_false, completePartsReading_eq hf]
  cases currentVersion K s (makeKey b o) with
  | error e => rfl
  | ok v =>
    dsimp only
    cases stripKeys (partsKey (makeKey b o) (newVersion v))
        (partKeyRange K s (makeKey b o) (newVersion v)) with
    | error e => rfl
    | ok keys =>
      dsimp only
      cases completeParts K s (partsKey (makeKey b o) (newVersion v)) keys parts <;> rfl

/-! ## The commit -/

/-- The record of the object that completion commits, from the record of its upload. -/
def committedRecord (K : Kineticd) (nxtVer s3MD5 : Bytes) (ps : List ObjectPartInfo)
    (value : Bytes) : Option Record :=
  (K.unmarshal ⟨[], ∅, ps, ⟨[], 0, 0⟩⟩ value).map fun m =>
    ⟨.json (completeMeta m nxtVer s3MD5 (totalActualSize ps)), []⟩

/-- Once the record of the upload is gone, the object has to be put. -/
def Commits (K : Kineticd) (s : Store) (objKey uploadID nxtVer s3MD5 : Bytes)
    (ps : List ObjectPartInfo) : Prop :=
  ∀ r, s.get? (jsonKey objKey uploadID) = some r →
    K.deleteStatus s (jsonKey objKey uploadID) = .success →
    ∃ rec, committedRecord K nxtVer s3MD5 ps r.value = some rec ∧
      K.putStatus (s.erase (jsonKey objKey uploadID)) objKey rec = .success

theorem erase_ne_self {k : Bytes} {r : Record} (h : s.get? k = some r) : s.erase k ≠ s := by
  intro he
  have hk : k ∉ s.erase k := fun hmem => (mem_erase.1 hmem).1 rfl
  rw [he] at hk
  exact hk ((mem_iff s).2 ⟨r, h⟩)

theorem commitUpload_atomic_iff {objKey nxtVer s3MD5 : Bytes} {ps : List ObjectPartInfo} :
    (∀ e, (commitUpload K s objKey u nxtVer s3MD5 ps).2 = .error e →
      (commitUpload K s objKey u nxtVer s3MD5 ps).1 = s) ↔
      Commits K s objKey u nxtVer s3MD5 ps := by
  unfold commitUpload Commits committedRecord
  simp only [cGet_unknown]
  cases hget : s.get? (jsonKey objKey u) with
  | none => simp
  | some r =>
    simp only [Option.some.injEq, forall_eq']
    rcases delete_eq (K := K) s (jsonKey objKey u) with ⟨hd, hst⟩ | ⟨e, hd⟩
    · -- the record is gone
      have hne := erase_ne_self hget
      rw [hd, hst]
      cases K.unmarshal ⟨[], ∅, ps, ⟨[], 0, 0⟩⟩ r.value with
      | none => simp [hne]
      | some m =>
        simp only [Option.map_some, Option.some.injEq, exists_eq_left', true_imp_iff]
        rcases cPut_eq (K := K) (s.erase (jsonKey objKey u)) objKey
          ⟨.json (completeMeta m nxtVer s3MD5 (totalActualSize ps)), []⟩ with ⟨hp, hput⟩ | ⟨e, hp⟩
        · rw [hp]
          simp [hput]
        · have hput : K.putStatus (s.erase (jsonKey objKey u)) objKey
              ⟨.json (completeMeta m nxtVer s3MD5 (totalActualSize ps)), []⟩ ≠ .success := by
            intro hsucc
            simp [cPut, hsucc, toKineticError] at hp
          rw [hp]
          simp [hput, hne]
    · -- the delete is refused, and the record stays
      have hst : K.deleteStatus s (jsonKey objKey u) ≠ .success := by
        intro hsucc
        simp [delete, hsucc, toKineticError] at hd
      rw [hd]
      simp only [hst, false_imp_iff, iff_true]
      intro e' he
      cases hm : K.unmarshal ⟨[], ∅, ps, ⟨[], 0, 0⟩⟩ r.value with
      | none => rfl
      | some m =>
        simp only [hm] at he ⊢
        rcases cPut_eq (K := K) s objKey ⟨.json (completeMeta m nxtVer s3MD5 (totalActualSize ps)),
            []⟩ with
          ⟨hp, -⟩ | ⟨e, hp⟩
        · rw [hp] at he
          cases he
        · rw [hp]

/-- A completion that fails leaves the store as it was exactly if no validated upload can lose its
record to a failure of the decoding or of the put behind it. -/
theorem completeMultipartUpload_atomic_iff (K : Kineticd) (fails : Nat → Bool) (s : Store)
    (b o u : Bytes) (parts : List CompletePart) :
    (∀ e, (completeMultipartUploadReading K fails s b o u parts).2 = .error e →
        ∀ k, (completeMultipartUploadReading K fails s b o u parts).1.get? k = s.get? k) ↔
      ∀ objVer ps, validateUpload K fails s b o parts = .ok (objVer, ps) →
        fails (parts.length + 2) = false →
        Commits K s (makeKey b o) u (newVersion objVer) (getCompleteMultipartMD5 K parts) ps := by
  unfold completeMultipartUploadReading
  cases hval : validateUpload K fails s b o parts with
  | error e => simp
  | ok r =>
    obtain ⟨objVer, ps⟩ := r
    cases hread : fails (parts.length + 2) with
    | true => simp
    | false =>
      have hcond : (∀ v qs, (Except.ok (objVer, ps) : Except Err _) = .ok (v, qs) → false = false →
          Commits K s (makeKey b o) u (newVersion v) (getCompleteMultipartMD5 K parts) qs) ↔
          Commits K s (makeKey b o) u (newVersion objVer) (getCompleteMultipartMD5 K parts) ps := by
        refine ⟨fun h => h _ _ rfl rfl, ?_⟩
        rintro h _ _ ⟨⟩ -
        exact h
      rw [hcond, ← commitUpload_atomic_iff]
      simp only [Bool.false_eq_true, if_false]
      rcases commitUpload K s (makeKey b o) u (newVersion objVer) (getCompleteMultipartMD5 K parts)
        ps with ⟨t, e | m⟩
      · simp only [Except.error.injEq, forall_eq']
        exact ⟨OrdMap.ext_get?, fun h k => by rw [h]⟩
      · simp

def refusingDrive : Kineticd :=
  { uploadDrive (lit "a") with
    putStatus := fun _ k _ => if k = makeKey (lit "bkt") (lit "a") then .noSpace else .success }

/-- A part of an upload on that drive. -/
def refusedStore : Store :=
  run refusingDrive (initStore refusingDrive id) [.makeBucket (lit "bkt") 1,
    .newMultipartUpload (lit "bkt") (lit "a") ∅ (lit "u1") 3,
      .putObjectPart (lit "bkt") (lit "a") (lit "u1") 1 onlyPart.r 4]

/-- The put is refused, and the upload has lost its record. -/
theorem complete_loses_upload :
    Reachable refusingDrive refusedStore ∧
      (completeMultipartUpload refusingDrive refusedStore (lit "bkt") (lit "a") (lit "u1")
        [onlyPart.listed]).2 =
        .error .errKineticNoSpace ∧
      (completeMultipartUploadReading refusingDrive (fun _ => false) refusedStore (lit "bkt")
        (lit "a") (lit "u1")
        [onlyPart.listed]).2 = .error .errKineticNoSpace ∧
      jsonKey (makeKey (lit "bkt") (lit "a")) (lit "u1") ∈ refusedStore ∧
      jsonKey (makeKey (lit "bkt") (lit "a")) (lit "u1") ∉
        (completeMultipartUploadReading refusingDrive (fun _ => false) refusedStore (lit "bkt")
          (lit "a") (lit "u1")
          [onlyPart.listed]).1 :=
  ⟨⟨id, _, rfl⟩, by decide +kernel, by decide +kernel, by decide +kernel, by decide +kernel⟩

end S3Kinetic
