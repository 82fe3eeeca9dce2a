import S3Kinetic.PartListing

/-!
# Names of part files (`encodePartFile`, `decodePartFile`, `getPartKO`)

A part file is named by its number, its etag and its size, separated by dots. The lookup tests a
prefix of the name. Both are read off the pieces of the name: the prefix ends in a dot, so it fixes
the first two of them.
-/

namespace S3Kinetic

open ByteString Decimal List

theorem partCodec (files : List PartId) (hvalid : ∀ p ∈ files, p.Valid)
    (hdistinct : (files.map fun p => (p.number, p.etag)).Nodup) (n : Int)
    (hn : 1 ≤ n ∧ n ≤ 10000) (e : Bytes) (he : dot ∉ e) :
    (∀ p ∈ files, decodePartFile p.name = some p) ∧
      (∀ p ∈ files, p.number = n → p.etag = e → getPartKO (files.map PartId.name) n e = p.name) ∧
      ((∀ p ∈ files, ¬ (p.number = n ∧ p.etag = e)) →
        getPartKO (files.map PartId.name) n e = []) := by
  have hfind : getPartKO (files.map PartId.name) n e =
      ((files.find? fun p => p.number = n ∧ p.etag = e).map PartId.name).getD [] := by
    rw [getPartKO, find?_map]
    congr 2
    refine find?_congr fun p hp => ?_
    rw [Bool.eq_iff_iff, Function.comp_apply, (hvalid p hp).hasPrefix_iff hn he, decide_eq_true_iff]
  refine ⟨fun p hp => (hvalid p hp).decode, fun p hp hpn hpe => ?_, fun hnone => ?_⟩
  · cases hq : files.find? fun p => p.number = n ∧ p.etag = e with
    | none => exact absurd (find?_eq_none.1 hq p hp) (by simp [hpn, hpe])
    | some q =>
      have hqn : q.number = n ∧ q.etag = e := by simpa using find?_some hq
      have heq : q = p := inj_on_of_nodup_map hdistinct (mem_of_find?_eq_some hq) hp
        (by simp [hqn, hpn, hpe])
      rw [hfind, hq, heq]
      rfl
  · rw [hfind, find?_eq_none.2 fun p hp => by simpa using hnone p hp]
    rfl

/-- Two files of the first part and one of the second. -/
theorem partCodec_threeFiles :
    getPartKO ([⟨1, lit "a", 5⟩, ⟨1, lit "ab", 7⟩, ⟨2, lit "a", 0⟩].map PartId.name) 1 (lit "ab") =
      lit "00001.ab.7" := by
  refine ((partCodec [⟨1, lit "a", 5⟩, ⟨1, lit "ab", 7⟩, ⟨2, lit "a", 0⟩] ?_ (by decide) 1
    (by decide) (lit "ab") (by decide)).2.1
    ⟨1, lit "ab", 7⟩ (by simp) rfl rfl).trans (by decide +kernel)
  intro p hp
  simp only [mem_cons, not_mem_nil, or_false] at hp
  rcases hp with rfl | rfl | rfl <;> exact ⟨by decide, by decide, by decide⟩

end S3Kinetic
