import S3Kinetic.System

/-!
# When `DeleteBucket` refuses

`DeleteBucket` must refuse a bucket that holds a visible object. It asks for a listing of one entry,
and the first key of the bucket uses up that entry whether or not it is listed. So it refuses
exactly when the first key is a visible object that can be read (`firstKeyVisible`); otherwise no
schedule of its walker makes it refuse (`deleteBucket_refuses_iff`).
-/

namespace S3Kinetic

open ByteString

def HasVisible (s : Store) (bucket : Bytes) : Prop :=
  ∃ object m v, s.get? (makeKey bucket object) = some ⟨.json m, v⟩ ∧ m.hidden = false

def bucketKeys (s : Store) (bucket : Bytes) : List Bytes :=
  s.keysWhere fun k => hasPrefix k (makeKey bucket [])

/-- The object under a key is read by listings and is not hidden. -/
def readsVisible (K : Kineticd) (s : Store) (k : Bytes) : Bool :=
  match s.get? k with
  | some ⟨.json m, _⟩ => (K.marshal m).length ≤ maxMetaBytes && !m.hidden
  | _ => false

def firstKeyVisible (K : Kineticd) (s : Store) (bucket : Bytes) : Bool :=
  (bucketKeys s bucket).head?.any fun k => k.all (· ≠ colon) && readsVisible K s k

variable {K : Kineticd} {s : Store} {b : Bytes}

/-! ## The emptiness test -/

theorem getKeyRange_firstKey {k : Bytes} (hk : (bucketKeys s b).head? = some k) :
    getKeyRange K s (makeKey b []) (incStr (makeKey b [])) true true 1 = [k] := by
  obtain ⟨hmem, hp, hleast⟩ := OrdMap.head?_keysWhere_eq_some_iff.1 hk
  have hinc : incStr (makeKey b []) = b ++ [slash + 1] := incStr_concat b (by decide)
  have hkle : k < b ++ [slash + 1] := by
    rw [hasPrefix, List.isPrefixOf_iff_prefix] at hp
    exact lt_snoc_of_lt (by decide) hp
  have hhead : (s.keysWhere (inRange K (makeKey b []) (incStr (makeKey b [])) true true)).head? =
      some k := by
    refine OrdMap.head?_keysWhere_eq_some_iff.2 ⟨hmem, ?_, fun k' hk' hr => ?_⟩
    · rw [hasPrefix, List.isPrefixOf_iff_prefix] at hp
      simp only [inRange, hinc, if_true, Bool.and_eq_true, decide_eq_true_eq]
      exact ⟨prefix_le hp, by simp [hkle.le]⟩
    · -- a key of the range is below the end key, and then starts like the bucket, or is the end key
      simp only [inRange, hinc, if_true, Bool.and_eq_true, decide_eq_true_eq] at hr
      rcases lt_or_ge k' (b ++ [slash + 1]) with hlt | hge
      · refine hleast k' hk' ?_
        rw [hasPrefix, List.isPrefixOf_iff_prefix]
        exact (snoc_prefix_iff (covBy_add_one (by decide)) b k').2 ⟨hr.1, hlt⟩
      · exact hkle.le.trans hge
  unfold getKeyRange
  obtain ⟨l, hl⟩ := List.head?_eq_some_iff.1 hhead
  rw [hl]
  rfl

theorem isBucketEmpty_eq (K : Kineticd) (s : Store) (b : Bytes) :
    isBucketEmpty K s b =
      some ((visibleInfos K s b
        (cGetKeyRange K s (makeKey b []) (incStr (makeKey b [])) true true 1)).map
          fun objs => decide (objs.length = 0)) := by
  unfold isBucketEmpty
  rw [listObjects_recursive (by omega) (by simp) (by decide) (by decide)]
  unfold listPage
  simp only [if_true, Option.map_some, show (min 1 maxKeyRange).toNat = 1 from rfl]
  cases visibleInfos K s b (cGetKeyRange K s (makeKey b []) (incStr (makeKey b [])) true true 1)
      with
  | error e => rfl
  | ok objs => simp [Except.map, maxKeyRange]

theorem visibleInfos_cut {k : Bytes} (hb : isValidBucketName b = true)
    (hk : (bucketKeys s b).head? = some k) (hc : colon ∈ k) :
    ∃ e, e ≠ .errBucketNotEmpty ∧ visibleInfos K s b (pieces colon ([colon].intercalate [k])) =
      .error e := by
  obtain ⟨hmem, hp, hleast⟩ := OrdMap.head?_keysWhere_eq_some_iff.1 hk
  obtain ⟨u, t, rfl, hu⟩ := List.eq_append_cons_of_mem hc
  obtain ⟨o, ho⟩ := hasPrefix_makeKey_nil.1 hp
  -- the bucket's part of the key has no `:`, so the first piece keeps it
  have hpu : makeKey b [] <+: u := by
    have h1 : makeKey b [] <+: u ++ colon :: t := List.isPrefixOf_iff_prefix.1 hp
    have hcb : colon ∉ makeKey b [] := by
      simp only [makeKey, List.mem_append, List.mem_singleton, not_or]
      exact ⟨colon_not_mem_bucket hb, by decide⟩
    exact prefix_of_prefix_append_cons h1 hcb
  obtain ⟨x, rfl⟩ := hasPrefix_makeKey_nil.1 (List.isPrefixOf_iff_prefix.2 hpu)
  have hnot : makeKey b x ∉ s := fun hx => by
    have hle := hleast _ hx (hasPrefix_makeKey_nil.2 ⟨x, rfl⟩)
    have hlt : makeKey b x < makeKey b x ++ colon :: t :=
      prefix_lt (List.prefix_append _ _) (by simp)
    exact absurd hlt hle.not_gt
  refine ⟨.errFileNotFound, by decide, ?_⟩
  rw [show [colon].intercalate [makeKey b x ++ colon :: t] = makeKey b x ++ colon :: t by
      simp [List.intercalate], pieces_append_cons hu (by simp [makeKey])]
  rw [visibleInfos, if_neg (by simp [makeKey]), makeKey_drop,
    getObjectInfo_makeKey (bucket_ne_nil hb), (OrdMap.not_mem_iff s).1 hnot]

/-! ## After the test -/

/-- The error the loop of `DeleteBucket` has noted. -/
def Consumer.lastErr : Consumer → Option Err
  | .gather _ e | .deleting _ e | .finish e => e

/-- The error a run of `DeleteBucket` would return if the rest went well. -/
def BucketRun.lastErr : BucketRun → Option Err
  | .running _ c _ => c.lastErr
  | .returned e _ => e

theorem delete_err_ne (s : Store) (k : Bytes) : (delete K s k).2 ≠ some .errBucketNotEmpty := by
  unfold delete
  cases h : K.deleteStatus s k <;> simp [toKineticError]

theorem deleteRecord_err_ne (s : Store) (k : Bytes) (parts : List Bytes) :
    (deleteRecord K s k parts).2 ≠ some .errBucketNotEmpty := by
  unfold deleteRecord
  split
  · have hne := delete_err_ne (K := K) s k
    rcases hd : delete K s k with ⟨s', _ | e⟩
    · exact delete_err_ne s' k
    · rw [hd] at hne
      exact hne
  · exact delete_err_ne _ k

theorem deleteObject_err_ne (s : Store) (b o : Bytes) :
    (deleteObject K s b o).2 ≠ some .errBucketNotEmpty := by
  rcases deleteObject_cases (K := K) s b o with ⟨e, he, h⟩ | ⟨r, -, h⟩
  · simpa [h] using he
  · rw [h]
    exact deleteRecord_err_ne s _ _

theorem finishBucket_lastErr_ne {e : Option Err} (h : e ≠ some .errBucketNotEmpty) :
    (finishBucket K s b e).lastErr ≠ some .errBucketNotEmpty := by
  cases e with
  | some e => exact h
  | none =>
    unfold finishBucket
    have hne := delete_err_ne (K := K) s (bucketKey b)
    rcases hd : delete K s (bucketKey b) with ⟨s', _ | e⟩
    · exact delete_err_ne s' _
    · rw [hd] at hne
      exact hne

theorem consumer_lastErr_ne {c : Consumer} (h : c.lastErr ≠ some .errBucketNotEmpty) (w : Walker) :
    (c.step K b w s).lastErr ≠ some .errBucketNotEmpty := by
  rcases c with ⟨objects, e⟩ | ⟨_ | ⟨object, objects⟩, e⟩ | e
  · unfold Consumer.step
    cases w <;> dsimp only
    case send => split <;> exact h
    case closed => split <;> exact h
    all_goals exact h
  · exact h
  · have hne := deleteObject_err_ne (K := K) s b object
    rw [Consumer.step]
    split
    · simp [BucketRun.lastErr]
    · next s' e' _ hd =>
      rw [hd] at hne
      cases e' with
      | none => exact h
      | some e' => exact hne
  · exact finishBucket_lastErr_ne h

theorem step_lastErr_ne {st : BucketRun} (h : st.lastErr ≠ some .errBucketNotEmpty) (who : Bool) :
    (st.step K b who).lastErr ≠ some .errBucketNotEmpty := by
  rcases st with ⟨w, c, s⟩ | ⟨e, s⟩
  · cases who with
    | true => cases w <;> first | exact h | simp [BucketRun.step, BucketRun.lastErr]
    | false =>
      rw [BucketRun.step]
      exact consumer_lastErr_ne h w
  · exact h

theorem run_lastErr_ne (st : BucketRun) (h : st.lastErr ≠ some .errBucketNotEmpty)
    (sched : List Bool) :
    (sched.foldl (BucketRun.step K b) st).lastErr ≠ some .errBucketNotEmpty := by
  induction sched generalizing st with
  | nil => exact h
  | cons who sched ih => exact ih _ (step_lastErr_ne h who)

theorem deleteBucket_ne_of_isBucketEmpty {r : Except Err Bool}
    (h : isBucketEmpty K s b = some r) (hr : r ≠ .ok false) (hr' : r ≠ .error .errBucketNotEmpty)
    (sched : List Bool) (s' : Store) :
    deleteBucket K s b sched ≠ .returned (some .errBucketNotEmpty) s' := by
  unfold deleteBucket
  rw [h]
  rcases r with e | (_ | _)
  · simpa using fun he => absurd (by rw [he]) hr'
  · exact absurd rfl hr
  · intro he
    have hne := run_lastErr_ne (K := K) (b := b)
      (.running (.fetch (makeKey b []) (b ++ lit "0")) (.gather [] none) s)
      (by simp [BucketRun.lastErr, Consumer.lastErr]) sched
    simp only at he
    rw [he] at hne
    exact hne rfl

/-! ## The result -/

theorem exists_firstKey (hv : HasVisible s b) : ∃ k, (bucketKeys s b).head? = some k := by
  obtain ⟨o, m, v, hg, -⟩ := hv
  have hmem : makeKey b o ∈ bucketKeys s b :=
    OrdMap.mem_keysWhere.2 ⟨(OrdMap.mem_iff s).2 ⟨_, hg⟩, hasPrefix_makeKey_nil.2 ⟨o, rfl⟩⟩
  cases hl : bucketKeys s b with
  | nil => simp [hl] at hmem
  | cons k l => exact ⟨k, rfl⟩

theorem isBucketEmpty_firstKey_eq {k : Bytes} (hb : isValidBucketName b = true)
    (hk : (bucketKeys s b).head? = some k) (hc : colon ∉ k) :
    isBucketEmpty K s b = some (match s.get? k with
      | some ⟨.json m, _⟩ => if (K.marshal m).length ≤ maxMetaBytes then .ok m.hidden
        else .error .panic
      | _ => .error .errUnmarshal) := by
  obtain ⟨hmem, hp, -⟩ := OrdMap.head?_keysWhere_eq_some_iff.1 hk
  obtain ⟨o, rfl⟩ := hasPrefix_makeKey_nil.1 hp
  obtain ⟨⟨blob, v⟩, hg⟩ := (OrdMap.mem_iff s).1 hmem
  have hrange := getKeyRange_firstKey (K := K) hk
  have hkeys : cGetKeyRange K s (makeKey b []) (incStr (makeKey b [])) true true 1 =
      [makeKey b o] := by
    rw [cGetKeyRange_eq, hrange]
    rw [hrange]
    simpa using ⟨hc, by simp [makeKey]⟩
  rw [isBucketEmpty_eq, hkeys]
  rw [visibleInfos, if_neg (by simp [makeKey]), makeKey_drop,
    getObjectInfo_makeKey (bucket_ne_nil hb), hg]
  cases blob with
  | gob bi => simp [unmarshalMeta, Except.map]
  | json m =>
    by_cases hlen : (K.marshal m).length ≤ maxMetaBytes
    · cases hh : m.hidden <;>
        simp [unmarshalMeta, visibleInfos, Except.map, hlen, FsMetaV1.toObjectInfo, hh]
    · simp [unmarshalMeta, Except.map, hlen]

theorem isBucketEmpty_firstKey {k : Bytes} (hb : isValidBucketName b = true)
    (hk : (bucketKeys s b).head? = some k) (hc : colon ∉ k) :
    ∃ r, isBucketEmpty K s b = some r ∧ r ≠ .error .errBucketNotEmpty ∧
      (r = .ok false ↔ readsVisible K s k = true) := by
  refine ⟨_, isBucketEmpty_firstKey_eq hb hk hc, ?_⟩
  unfold readsVisible
  rcases s.get? k with _ | ⟨_ | _, v⟩
  · simp
  · dsimp only
    split_ifs with hlen <;> simp [hlen]
  · simp

theorem deleteBucket_refuses_iff (hb : isValidBucketName b = true) (hv : HasVisible s b) :
    ((∀ sched, deleteBucket K s b sched = .returned (some .errBucketNotEmpty) s) ↔
        firstKeyVisible K s b = true) ∧
      (firstKeyVisible K s b = false →
        ∀ sched s', deleteBucket K s b sched ≠ .returned (some .errBucketNotEmpty) s') := by
  obtain ⟨k, hk⟩ := exists_firstKey hv
  -- the answer of the emptiness test, in the words of the first key
  obtain ⟨r, hr, hne, hiff⟩ : ∃ r, isBucketEmpty K s b = some r ∧ r ≠ .error .errBucketNotEmpty ∧
      (r = .ok false ↔ firstKeyVisible K s b = true) := by
    by_cases hc : colon ∈ k
    · obtain ⟨e, he, hvi⟩ := visibleInfos_cut (K := K) hb hk hc
      refine ⟨.error e, ?_, by simpa using he, ?_⟩
      · rw [isBucketEmpty_eq, cGetKeyRange, getKeyRange_firstKey hk, hvi]
        rfl
      · simp only [reduceCtorEq, false_iff, Bool.not_eq_true]
        rw [firstKeyVisible, hk]
        simp only [Option.any_some, Bool.and_eq_false_iff]
        exact .inl (List.all_eq_false.2 ⟨colon, hc, by simp⟩)
    · obtain ⟨r, hr, hne, hiff⟩ := isBucketEmpty_firstKey (K := K) hb hk hc
      refine ⟨r, hr, hne, hiff.trans ?_⟩
      have hall : (k.all fun c => decide (c ≠ colon)) = true :=
        List.all_eq_true.2 fun c hcm => decide_eq_true fun e => hc (e ▸ hcm)
      rw [firstKeyVisible, hk, Option.any_some, hall, Bool.true_and]
  have hrefuse : r ≠ .ok false →
      ∀ sched s', deleteBucket K s b sched ≠ .returned (some .errBucketNotEmpty) s' :=
    fun h => deleteBucket_ne_of_isBucketEmpty hr h hne
  refine ⟨⟨fun h => ?_, fun h sched => ?_⟩, fun h => hrefuse fun e => ?_⟩
  · by_contra hf
    exact hrefuse (fun e => hf (hiff.1 e)) [] s (h [])
  · unfold deleteBucket
    rw [hr, hiff.2 h]
  · rw [hiff.1 e] at h
    exact absurd h (by decide)

theorem hasVisible_onlyObject :
    HasVisible (run (memoryDrive []) (initStore (memoryDrive []) id) (onlyObject (lit "z")))
      (lit "bkt") :=
  ⟨lit "z", putObjectMeta (lit "z") (bodyReader (lit "data") (List.replicate 16 7)) ∅
    (lit "00001") 2, lit "data", by decide, by decide⟩

theorem deleteBucket_refuses_onlyObject :
    HasVisible (run (memoryDrive []) (initStore (memoryDrive []) id) (onlyObject (lit "z")))
      (lit "bkt") ∧
      deleteBucket (memoryDrive [])
        (run (memoryDrive []) (initStore (memoryDrive []) id) (onlyObject (lit "z"))) (lit "bkt")
        [true, false, true] =
          .returned (some .errBucketNotEmpty)
            (run (memoryDrive []) (initStore (memoryDrive []) id) (onlyObject (lit "z"))) :=
  ⟨hasVisible_onlyObject,
    (deleteBucket_refuses_iff (by decide +kernel) hasVisible_onlyObject).1.2 (by decide +kernel) _⟩

/-- The same bucket while a multipart upload of an object that sorts first is pending. -/
def pendingFirst : List Op :=
  (onlyObject (lit "z")) ++
    [.newMultipartUpload (lit "bkt") (lit "a") ∅ (lit "u1") 3,
      .putObjectPart (lit "bkt") (lit "a") (lit "u1") 1
        (bodyReader (lit "part") (List.replicate 16 9)) 4]

/-- The hidden part key comes first, the bucket counts as empty, and its object is deleted. -/
theorem deleteBucket_destroys_visible :
    ∃ s, Reachable (memoryDrive []) s ∧ HasVisible s (lit "bkt") ∧
      ∃ sched s', deleteBucket (memoryDrive []) s (lit "bkt") sched = .returned none s' ∧
        makeKey (lit "bkt") (lit "z") ∈ s ∧ makeKey (lit "bkt") (lit "z") ∉ s' := by
  refine ⟨run (memoryDrive []) (initStore (memoryDrive []) id) pendingFirst,
    ⟨id, pendingFirst, rfl⟩,
    ⟨lit "z", putObjectMeta (lit "z") (bodyReader (lit "data") (List.replicate 16 7)) ∅
      (lit "00001") 2, lit "data", by decide, by decide⟩,
    -- the walker fetches, skips the part, sends the upload's record and the object, and ends
    [true, true, true, false, true, false, true, false, false, false, false, false, false],
    (deleteBucket (memoryDrive [])
      (run (memoryDrive []) (initStore (memoryDrive []) id) pendingFirst)
      (lit "bkt")
      [true, true, true, false, true, false, true, false, false, false, false, false, false]).store,
        ?_⟩
  decide +kernel

end S3Kinetic
