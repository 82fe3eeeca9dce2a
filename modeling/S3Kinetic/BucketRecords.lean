import S3Kinetic.Frame

/-!
# Bucket records among object keys

A key of an object starts with the name of its bucket and a slash, so it is never that of a bucket
record, also for the internal buckets (`makeKey_ne_bucketKey`).
-/

namespace S3Kinetic

open ByteString OrdMap List

variable {k : Bytes}

/-! ## Names -/

theorem lit_bucketDot : lit "bucket." = [98, 117, 99, 107, 101, 116, dot] := by decide

theorem slash_not_mem_bucketDot : slash ∉ lit "bucket." := by
  rw [lit_bucketDot]
  decide

theorem label_of_isValidBucketName {b : Bytes} (h : isValidBucketName b = true)
    (hm : isMinioMetaBucketName b = false) :
    slash ∉ b ∧ ¬ [dot, dot] <:+: b ∧ ¬ [dot] <+: b := by
  unfold isValidBucketName at h
  rw [if_neg (by simp [hm])] at h
  split at h
  · cases h
  simp only [Bool.and_eq_true, all_eq_true] at h
  have hlabel := h.1
  have hne : [] ∉ b.splitOn dot := fun hnil => absurd (hlabel [] hnil) (by decide)
  refine ⟨fun hs => ?_, fun hd => hne (nil_mem_splitOn_of_adjacent hd), ?_⟩
  · obtain ⟨p, hp, hsp⟩ := exists_mem_splitOn hs (by decide : slash ≠ dot)
    have hl := hlabel p hp
    simp only [isBucketLabel, Bool.and_eq_true, all_eq_true] at hl
    exact absurd (hl.2 _ hsp) (by decide)
  · rintro ⟨t, rfl⟩
    exact hne (by simp [splitOn_cons_eq_if_modifyHead])

def Segment (b : Bytes) : Prop := slash ∉ b ∧ colon ∉ b ∧ ¬ [dot, dot] <:+: b

def InBucket (k : Bytes) : Prop := ∃ b o, k = makeKey b o ∧ Segment b

theorem inBucket_of_isValidBucketName {b : Bytes} (h : isValidBucketName b = true) (o : Bytes) :
    InBucket (makeKey b o) := by
  cases hm : isMinioMetaBucketName b with
  | false =>
    obtain ⟨h1, h2, -⟩ := label_of_isValidBucketName h hm
    exact ⟨b, o, rfl, h1, colon_not_mem_bucket h, h2⟩
  | true =>
    have hsys : Segment (lit ".minio.sys") := by
      unfold Segment
      decide
    have hrest : ∃ t, makeKey b o = makeKey (lit ".minio.sys") t := by
      simp only [isMinioMetaBucketName, Bool.or_eq_true, decide_eq_true_eq] at hm
      rcases hm with ((rfl | rfl) | rfl) | rfl
      · exact ⟨o, rfl⟩
      · exact ⟨lit "multipart" ++ slash :: o, rfl⟩
      · exact ⟨lit "tmp" ++ slash :: o, rfl⟩
      · exact ⟨lit "background-ops" ++ slash :: o, rfl⟩
    obtain ⟨t, ht⟩ := hrest
    exact ⟨_, t, ht, hsys⟩

theorem makeKey_ne_bucketKey {b c : Bytes} (hc : isValidBucketName c = true)
    (hb : isValidBucketName b = true) (o : Bytes) : makeKey c o ≠ bucketKey b := by
  intro h
  obtain ⟨c, o, hk, hslash, -, hdots⟩ := inBucket_of_isValidBucketName hc o
  rw [h] at hk
  cases hm : isMinioMetaBucketName b with
  | true =>
    -- the record of an internal bucket has two dots before its first slash
    have hpre : lit "bucket.." <+: makeKey c o := by
      rw [← hk]
      simp only [isMinioMetaBucketName, Bool.or_eq_true, decide_eq_true_eq] at hm
      rcases hm with ((rfl | rfl) | rfl) | rfl <;> decide
    have hpre' : lit "bucket.." <+: c := prefix_of_prefix_append_cons hpre (by decide)
    exact hdots (List.IsInfix.trans (by decide) hpre'.isInfix)
  | false =>
    have hmem : slash ∈ bucketKey b := hk ▸ (by simp [makeKey])
    rw [bucketKey, mem_append] at hmem
    exact hmem.elim slash_not_mem_bucketDot (label_of_isValidBucketName hb hm).1

end S3Kinetic
