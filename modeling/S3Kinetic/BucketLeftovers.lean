import S3Kinetic.BucketDeletion
import S3Kinetic.BucketRecords

/-!
# What `DeleteBucket` leaves behind

When `DeleteBucket` goes on after its emptiness test, the bucket has no key at all or its first key
is hidden. The walker sends visible objects only, and deleting one reaches its own key and part
keys, which all sort behind it. So a hidden first key outlives every run, and `DeleteBucket` that
returns without an error leaves a clean bucket exactly if there was nothing in it
(`deleteBucket_complete_iff`).
-/

namespace S3Kinetic

open ByteString OrdMap List

variable {K : Kineticd} {s : Store} {b : Bytes}

/-- The record or a key of another bucket. -/
def KeyOfOther (b k : Bytes) : Prop :=
  ∃ c, isValidBucketName c = true ∧ c ≠ b ∧ (k = bucketKey c ∨ (∃ o, k = makeKey c o) ∧
    hasPrefix k (makeKey b []) = false)

/-- Nothing is left of the bucket, the other buckets are as they were, and the bucket can start
anew. -/
structure BucketGone (K : Kineticd) (s s' : Store) (b : Bytes) : Prop where
  keys : bucketKeys s' b = []
  record : bucketKey b ∉ s'
  others : ∀ k, KeyOfOther b k → s'.get? k = s.get? k
  again : ∀ now, bucketKeys (makeBucketWithLocation K s' b now).1 b = []

/-! ## Names -/

theorem makeKey_ne_lit_bucketKey (b o : Bytes) : makeKey b o ≠ lit "bucketKey" := by
  intro h
  have hmem : slash ∈ lit "bucketKey" := h ▸ (by simp [makeKey])
  exact absurd hmem (by decide)

theorem bucketKey_ne_lit_bucketKey (c : Bytes) : bucketKey c ≠ lit "bucketKey" := by
  intro h
  have htake := congrArg (List.take 7) h
  rw [bucketKey, take_left' (by decide)] at htake
  exact absurd htake (by decide)

/-! ## The first key -/

theorem visible_of_walkKey (hb : b ≠ []) {p key : Bytes} {i : ObjectInfo}
    (h : walkKey K s b p [] key = .ok (some i)) :
    ∃ m v, s.get? (makeKey b i.name) = some ⟨.json m, v⟩ ∧ m.hidden = false := by
  unfold walkKey at h
  split at h
  · cases h
  split at h
  · cases h
  split at h
  · cases h
  rw [getObjectInfo_makeKey hb] at h
  cases hget : s.get? (makeKey b (key.drop (b.length + 1))) with
  | none => simp [hget] at h
  | some r =>
    obtain ⟨_ | _, v⟩ := r
    · next m =>
      by_cases hlen : (K.marshal m).length ≤ maxMetaBytes
      · cases hh : m.hidden with
        | true => simp [hget, unmarshalMeta, hlen, FsMetaV1.toObjectInfo, hh] at h
        | false =>
          have hi : m.toObjectInfo b (key.drop (b.length + 1)) = i := by
            simpa [hget, unmarshalMeta, hlen, FsMetaV1.toObjectInfo, hh] using h
          rw [← hi]
          exact ⟨m, v, hget, hh⟩
      · simp [hget, unmarshalMeta, hlen] at h
    · simp [hget, unmarshalMeta] at h

/-- The objects that a run of `DeleteBucket` has still to delete. -/
def Consumer.objects : Consumer → List Bytes
  | .gather objects _ | .deleting objects _ => objects
  | .finish _ => []

def Walker.sending : Walker → List Bytes
  | .send objInfo _ _ _ => [objInfo.name]
  | _ => []

def BucketRun.underWay : BucketRun → List Bytes
  | .running w c _ => w.sending ++ c.objects
  | .returned _ _ => []

/-- A hidden key `k₁` that sorts before the bucket's other keys. -/
structure HiddenFirst (s : Store) (b k₁ : Bytes) : Prop where
  hidden : ∃ m v, s.get? k₁ = some ⟨.json m, v⟩ ∧ m.hidden = true
  first : ∀ o, makeKey b o ∈ s → k₁ ≤ makeKey b o
  inBucket : ∃ o, k₁ = makeKey b o

/-- A run that has not touched `k₁` and is not about to. -/
structure Spares (s : Store) (b k₁ : Bytes) (st : BucketRun) : Prop where
  erases : Evolves (fun _ _ => False) (· ≠ k₁) s st.store
  underWay : ∀ o ∈ st.underWay, makeKey b o ≠ k₁

variable {k₁ : Bytes} {st : BucketRun}

theorem Spares.get? (h : Spares s b k₁ st) : st.store.get? k₁ = s.get? k₁ :=
  h.erases.get?_eq (fun _ => id) (fun hne => hne rfl)

variable {t : Store}

theorem deleteObject_spares {o : Bytes} (hf : HiddenFirst s b k₁)
    (ht : Evolves (fun _ _ => False) (· ≠ k₁) s t) (ho : makeKey b o ≠ k₁) :
    Evolves (fun _ _ => False) (· ≠ k₁) s (deleteObject K t b o).1 := by
  rcases deleteObject_cases (K := K) t b o with ⟨e, -, h⟩ | ⟨r, hr, h⟩ <;> rw [h]
  · exact ht
  · refine ht.trans (deleteRecord_evolves ho fun x hx heq => ?_)
    -- a part key extends the object's key, which is not before `k₁`
    have hmem : makeKey b o ∈ s :=
      (ht.mem_of_mem ((OrdMap.mem_iff t).2 ⟨r, hr⟩)).resolve_right fun ⟨_, hf⟩ => hf
    have hle := hf.first o hmem
    have hlt : makeKey b o < x := by
      cases hblob : r.blob with
      | gob bi => simp [hblob, Blob.partKeys] at hx
      | json m =>
        rw [hblob, Blob.partKeys, FsMetaV1.partKeys] at hx
        obtain ⟨p, -, rfl⟩ := mem_map.1 hx
        rw [partKey, partsKey]
        exact prefix_lt ⟨_, by simp only [append_assoc]; rfl⟩ (by simp)
    exact absurd (heq ▸ hlt) (not_lt.2 hle)

theorem Spares.walker {w : Walker} {c : Consumer} (hb : b ≠ []) (hf : HiddenFirst s b k₁)
    (h : Spares s b k₁ (.running w c t)) : Spares s b k₁ (.running (w.step K t b [] []) c t) := by
  refine ⟨h.erases, fun o ho => ?_⟩
  rcases mem_append.1 ho with ho | ho
  · -- the walker has moved to an object of the store
    cases w with
    | fetch => simp [Walker.step, Walker.sending] at ho
    | send => exact h.underWay o (mem_append_left _ ho)
    | closed => simp [Walker.step, Walker.sending] at ho
    | crashed => simp [Walker.step, Walker.sending] at ho
    | scan keys full lastKey =>
      cases keys with
      | nil => cases full <;> simp [Walker.step, Walker.sending] at ho
      | cons key keys =>
        rw [Walker.step] at ho
        split at ho
        · simp [Walker.sending] at ho
        · simp [Walker.sending] at ho
        · simp [Walker.sending] at ho
        · next i hkey =>
          rw [Walker.sending, mem_singleton] at ho
          subst ho
          obtain ⟨m, v, hget, hvisible⟩ := visible_of_walkKey hb hkey
          obtain ⟨m₁, v₁, hget₁, hhidden⟩ := hf.hidden
          intro heq
          rw [heq, show t.get? k₁ = _ from h.get?, hget₁] at hget
          simp only [Option.some.injEq, Record.mk.injEq, Blob.json.injEq] at hget
          rw [← hget.1, hhidden] at hvisible
          cases hvisible
  · exact h.underWay o (mem_append_right _ ho)

theorem Spares.consumer {w : Walker} {c : Consumer} (hv : isValidBucketName b = true)
    (hf : HiddenFirst s b k₁) (h : Spares s b k₁ (.running w c t)) :
    Spares s b k₁ (c.step K b w t) := by
  have hunder : ∀ o, o ∈ w.sending ∨ o ∈ c.objects → makeKey b o ≠ k₁ :=
    fun o ho => h.underWay o (mem_append.2 ho)
  rcases c with ⟨objects, e⟩ | ⟨_ | ⟨object, objects⟩, e⟩ | e
  · unfold Consumer.step
    cases w with
    | send i keys full lastKey =>
      refine ⟨h.erases, fun o ho => hunder o ?_⟩
      dsimp only [BucketRun.underWay, Walker.sending, nil_append] at ho
      have ho' : o ∈ objects ++ [i.name] := by
        split at ho <;> exact ho
      exact (mem_append.1 ho').symm
    | closed =>
      refine ⟨h.erases, fun o ho => hunder o ?_⟩
      dsimp only [BucketRun.underWay, Walker.sending, nil_append] at ho
      split at ho
      · cases ho
      · exact .inr ho
    | _ => exact h
  · exact ⟨h.erases, fun o ho => hunder o (mem_append.1 ho)⟩
  · have hdel : Evolves _ _ s (deleteObject K t b object).1 :=
      deleteObject_spares hf h.erases (hunder object (.inr mem_cons_self))
    rw [Consumer.step]
    split
    · next hd =>
      rw [hd] at hdel
      exact ⟨hdel, fun o ho => by cases ho⟩
    · next hd =>
      rw [hd] at hdel
      exact ⟨hdel, fun o ho => hunder o ((mem_append.1 ho).imp_right (mem_cons_of_mem _))⟩
  · obtain ⟨o₁, rfl⟩ := hf.inBucket
    cases e with
    | some e => exact ⟨h.erases, fun o ho => by cases ho⟩
    | none =>
      have hdel : Evolves (fun _ _ => False) (· ≠ makeKey b o₁) t (delete K t (bucketKey b)).1 :=
        delete_evolves (makeKey_ne_bucketKey hv hv o₁).symm
      rw [Consumer.step, finishBucket]
      split
      · next hd =>
        rw [hd] at hdel
        exact ⟨h.erases.trans hdel, fun o ho => by cases ho⟩
      · next t' hd =>
        rw [hd] at hdel
        have hdel' : Evolves (fun _ _ => False) (· ≠ makeKey b o₁) t'
            (delete K t' (lit "bucketKey")).1 :=
          delete_evolves (makeKey_ne_lit_bucketKey b o₁).symm
        exact ⟨(h.erases.trans hdel).trans hdel', fun o ho => by cases ho⟩

theorem Spares.step (hv : isValidBucketName b = true) (hf : HiddenFirst s b k₁)
    (h : Spares s b k₁ st) (who : Bool) : Spares s b k₁ (st.step K b who) := by
  rcases st with ⟨w, c, t⟩ | ⟨e, t⟩
  · cases who with
    | true =>
      cases w with
      | crashed => exact ⟨h.erases, fun o ho => by cases ho⟩
      | _ => exact h.walker (bucket_ne_nil hv) hf
    | false =>
      rw [BucketRun.step]
      exact h.consumer hv hf
  · exact h

theorem hiddenFirst_survives (hv : isValidBucketName b = true) (hf : HiddenFirst s b k₁)
    (sched : List Bool) :
    (deleteBucket K s b sched).store.get? k₁ = s.get? k₁ := by
  have hrun (st : BucketRun) (h : Spares s b k₁ st) :
      Spares s b k₁ (sched.foldl (BucketRun.step K b) st) := by
    induction sched generalizing st with
    | nil => exact h
    | cons who sched ih => exact ih _ (h.step hv hf who)
  unfold deleteBucket
  split
  · rfl
  · rfl
  · rfl
  · exact (hrun _ ⟨.refl s, fun o ho => by simp [BucketRun.underWay, Walker.sending,
      Consumer.objects] at ho⟩).get?

theorem hiddenFirst_of_isBucketEmpty (hv : isValidBucketName b = true)
    (h : isBucketEmpty K s b = some (.ok true)) :
    bucketKeys s b = [] ∨ ∃ k₁, HiddenFirst s b k₁ := by
  cases hkeys : bucketKeys s b with
  | nil => exact .inl rfl
  | cons k₁ ks =>
    have hk : (bucketKeys s b).head? = some k₁ := by rw [hkeys, List.head?_cons]
    obtain ⟨hmem, hp, hleast⟩ := OrdMap.head?_keysWhere_eq_some_iff.1 hk
    have hcolon : colon ∉ k₁ := by
      intro hc
      obtain ⟨e, he, hvi⟩ := visibleInfos_cut (K := K) hv hk hc
      rw [isBucketEmpty_eq, cGetKeyRange, getKeyRange_firstKey hk, hvi] at h
      cases h
    rw [isBucketEmpty_firstKey_eq hv hk hcolon, Option.some.injEq] at h
    refine .inr ⟨k₁, ?_, fun o ho => hleast _ ho (hasPrefix_makeKey_nil.2 ⟨o, rfl⟩),
      hasPrefix_makeKey_nil.1 hp⟩
    split at h
    · next m v hget =>
      split_ifs at h
      exact ⟨m, v, hget, Except.ok.inj h⟩
    · cases h

/-! ## A bucket without keys -/

/-- A run that has found nothing to delete. -/
def Idle (K : Kineticd) (s : Store) (b : Bytes) : BucketRun → Prop
  | .running w c t => t = s ∧ w.sending = [] ∧ (c = .gather [] none ∨ c = .finish none)
  | .returned e t => e = none → finishBucket K s b none = .returned none t

theorem not_mem_of_bucketKeys (h : bucketKeys s b = []) (o : Bytes) : makeKey b o ∉ s := by
  intro ho
  have hmem : makeKey b o ∈ bucketKeys s b := mem_keysWhere.2 ⟨ho, hasPrefix_makeKey_nil.2 ⟨o, rfl⟩⟩
  simp [h] at hmem

theorem finishBucket_eq : ∃ e s', finishBucket K s b none = .returned e s' := by
  unfold finishBucket
  rcases delete K s (bucketKey b) with ⟨s', _ | e⟩
  · exact ⟨_, _, rfl⟩
  · exact ⟨_, _, rfl⟩

theorem finishBucket_returns {s' : Store} (h : finishBucket K s b none = .returned none s') :
    s' = (s.erase (bucketKey b)).erase (lit "bucketKey") := by
  unfold finishBucket at h
  rcases delete_eq (K := K) s (bucketKey b) with ⟨hd, -⟩ | ⟨e, hd⟩
  · rcases delete_eq (K := K) (s.erase (bucketKey b)) (lit "bucketKey") with ⟨hd', -⟩ | ⟨e, hd'⟩
    · simpa [hd, hd', eq_comm] using h
    · simp [hd, hd'] at h
  · simp [hd] at h

theorem Idle.step (hb : b ≠ []) (hempty : bucketKeys s b = []) (h : Idle K s b st) (who : Bool) :
    Idle K s b (st.step K b who) := by
  rcases st with ⟨w, c, t⟩ | ⟨e, t⟩
  · obtain ⟨rfl, hsending, hc⟩ := h
    cases who with
    | true =>
      cases w with
      | crashed => exact fun he => by cases he
      | fetch => exact ⟨rfl, rfl, hc⟩
      | send => cases hsending
      | closed => exact ⟨rfl, rfl, hc⟩
      | scan keys full lastKey =>
        refine ⟨rfl, ?_, hc⟩
        cases keys with
        | nil => cases full <;> rfl
        | cons key keys =>
          rw [Walker.step]
          split
          · rfl
          · rfl
          · rfl
          · next i hkey =>
            obtain ⟨m, v, hget, -⟩ := visible_of_walkKey hb hkey
            exact absurd ((OrdMap.mem_iff t).2 ⟨_, hget⟩) (not_mem_of_bucketKeys hempty _)
    | false =>
      rw [BucketRun.step]
      rcases hc with rfl | rfl
      · cases w with
        | send => cases hsending
        | closed => exact ⟨rfl, rfl, .inr rfl⟩
        | _ => exact ⟨rfl, hsending, .inl rfl⟩
      · rw [Consumer.step]
        obtain ⟨e, t', hfin⟩ := finishBucket_eq (K := K) (s := t) (b := b)
        rw [hfin]
        exact fun he => he ▸ hfin
  · exact h

theorem bucketGone_erase (hv : isValidBucketName b = true) (hempty : bucketKeys s b = []) :
    BucketGone K s ((s.erase (bucketKey b)).erase (lit "bucketKey")) b := by
  have hnone {t : Store} (h : ∀ o, makeKey b o ∉ t) : bucketKeys t b = [] := by
    refine eq_nil_iff_forall_not_mem.2 fun k hk => ?_
    obtain ⟨hmem, hp⟩ := mem_keysWhere.1 hk
    obtain ⟨o, rfl⟩ := hasPrefix_makeKey_nil.1 hp
    exact h o hmem
  have hkeys (o : Bytes) : makeKey b o ∉ (s.erase (bucketKey b)).erase (lit "bucketKey") :=
    fun ho =>
    not_mem_of_bucketKeys hempty o (mem_erase.1 (mem_erase.1 ho).2).2
  refine ⟨hnone hkeys, fun h => (mem_erase.1 (mem_erase.1 h).2).1 rfl, fun k hk => ?_,
    fun now => hnone fun o ho => ?_⟩
  · have hne : k ≠ bucketKey b ∧ k ≠ lit "bucketKey" := by
      obtain ⟨c, hc, hcb, rfl | ⟨⟨o, rfl⟩, -⟩⟩ := hk
      · exact ⟨fun heq => hcb (by simpa [bucketKey] using heq), bucketKey_ne_lit_bucketKey c⟩
      · exact ⟨makeKey_ne_bucketKey hc hv o, makeKey_ne_lit_bucketKey c o⟩
    rw [get?_erase_of_ne hne.2, get?_erase_of_ne hne.1]
  · -- `MakeBucket` writes the record of the bucket only
    have hevolves : Evolves (fun k _ => k = bucketKey b) (fun _ => False)
        ((s.erase (bucketKey b)).erase (lit "bucketKey"))
        (makeBucketWithLocation K ((s.erase (bucketKey b)).erase (lit "bucketKey")) b now).1 := by
      unfold makeBucketWithLocation
      split
      · exact .refl _
      split
      · exact .refl _
      · exact cPut_evolves rfl
    rcases hevolves.mem_of_mem ho with h | ⟨_, h⟩
    · exact hkeys o h
    · exact makeKey_ne_bucketKey hv hv o h

/-- `DeleteBucket` that returns without an error has cleared the bucket exactly if there was nothing
to clear. -/
theorem deleteBucket_complete_iff (hv : isValidBucketName b = true) (sched : List Bool) {s' : Store}
    (h : deleteBucket K s b sched = .returned none s') :
    BucketGone K s s' b ↔ bucketKeys s b = [] := by
  have hstore : (deleteBucket K s b sched).store = s' := by rw [h, BucketRun.store]
  have hempty : isBucketEmpty K s b = some (.ok true) := by
    unfold deleteBucket at h
    split at h
    · cases h
    · cases h
    · cases h
    · next hempty => exact hempty
  constructor
  · intro hgone
    rcases hiddenFirst_of_isBucketEmpty hv hempty with hnil | ⟨k₁, hf⟩
    · exact hnil
    · -- the first key is still there
      obtain ⟨m, v, hget, -⟩ := hf.hidden
      obtain ⟨o, rfl⟩ := hf.inBucket
      have hkept := hiddenFirst_survives (K := K) hv hf sched
      rw [hstore, hget] at hkept
      exact absurd ((OrdMap.mem_iff s').2 ⟨_, hkept⟩) (not_mem_of_bucketKeys hgone.keys o)
  · intro hnil
    have hrun (st : BucketRun) (hst : Idle K s b st) :
        Idle K s b (sched.foldl (BucketRun.step K b) st) := by
      clear h hstore
      induction sched generalizing st with
      | nil => exact hst
      | cons who sched ih => exact ih _ (hst.step (bucket_ne_nil hv) hnil who)
    have hidle := hrun (.running (.fetch (makeKey b []) (b ++ lit "0")) (.gather [] none) s) ⟨rfl,
      rfl, .inl rfl⟩
    simp only [deleteBucket, hempty] at h
    rw [h] at hidle
    rw [finishBucket_returns (hidle rfl)]
    exact bucketGone_erase hv hnil

theorem deleteBucket_complete_noKeys :
    BucketGone (memoryDrive []) (run (memoryDrive []) (initStore (memoryDrive []) id)
      [.makeBucket (lit "bkt") 1])
      (deleteBucket (memoryDrive []) (run (memoryDrive []) (initStore (memoryDrive []) id)
        [.makeBucket (lit "bkt") 1])
        (lit "bkt") [true, true, false, false]).store (lit "bkt") :=
  (deleteBucket_complete_iff (by decide +kernel) [true, true, false, false] (by decide +kernel)).2
    (by decide +kernel)

/-- A bucket in which an upload has sent a part. -/
def pendingPart : List Op :=
  [.makeBucket (lit "bkt") 1, .newMultipartUpload (lit "bkt") (lit "a") ∅ (lit "u1") 2,
    .putObjectPart (lit "bkt") (lit "a") (lit "u1") 1
      (bodyReader (lit "part") (List.replicate 16 9)) 3]

/-- The part of a pending upload is still there after the bucket was deleted. -/
theorem deleteBucket_leaves_part :
    ∃ s, Reachable (memoryDrive []) s ∧ ∃ sched s', deleteBucket (memoryDrive []) s (lit "bkt")
      sched = .returned none s' ∧
      bucketKey (lit "bkt") ∉ s' ∧ ∃ k ∈ s', hasPrefix k (makeKey (lit "bkt") []) = true := by
  refine ⟨run (memoryDrive []) (initStore (memoryDrive []) id) pendingPart, ⟨id, pendingPart, rfl⟩,
    -- the walker skips the part and sends the upload's record, which is deleted
    [true, true, true, false, true, false, false, false, false, false],
    (deleteBucket (memoryDrive []) (run (memoryDrive []) (initStore (memoryDrive []) id)
      pendingPart) (lit "bkt")
      [true, true, true, false, true, false, false, false, false, false]).store, ?_⟩
  refine ⟨by decide +kernel, by decide +kernel,
    partKey (makeKey (lit "bkt") (lit "a")) (lit "00001") 1 (hexEncode (List.replicate 16 9)) 4, ?_⟩
  decide +kernel

end S3Kinetic
