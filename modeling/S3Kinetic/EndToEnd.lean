import S3Kinetic.Completion

/-!
# An upload from its creation to the object

An upload of parts `1..n` that nothing else interferes with is completed, and the object's metadata
lead to the uploaded contents, exactly when the search for the parts sees all of them: no `:` in the
object's name, and the last part among the first 800 keys of the version. The contents have to fit
the buffer of `PutObjectPart`, the metadata the 64 KiB cast of their readers, and the metadata of a
part have to be there still when `koStat` decodes them in memory that it has freed.
-/

namespace S3Kinetic

open ByteString Decimal OrdMap List

/-- A `PutObjectPart` call and what it returned. -/
structure PartUpload where
  partID : Int
  r : PutObjReader
  now : Nat
  info : PartInfo

namespace PartUpload

def content (p : PartUpload) : Bytes := p.r.stream.data

def listed (p : PartUpload) : CompletePart := ⟨p.info.partNumber, p.info.etag⟩

def stored (p : PartUpload) : ObjectPartInfo := ⟨p.info.etag, p.partID, p.r.size, p.r.actualSize⟩

def key (k v : Bytes) (p : PartUpload) : Bytes := partKey k v p.partID p.info.etag p.r.actualSize

def fsMeta (o : Bytes) (p : PartUpload) : FsMetaV1 :=
  partMeta o (p.r.md5CurrentHexString 1) p.r.size p.now

end PartUpload

variable (K : Kineticd)

/-- Uploads of parts, in order; between them other calls change what is not near the object. -/
inductive Uploads (b o u : Bytes) : Store → List PartUpload → Store → Prop
  | nil (s : Store) : Uploads b o u s [] s
  | other {s s' s'' : Store} {ps : List PartUpload}
      (hsame : ∀ x, Near (makeKey b o) x → s'.get? x = s.get? x) (hrest : Uploads b o u s' ps s'') :
      Uploads b o u s ps s''
  | put {s s' s'' : Store} {p : PartUpload} {ps : List PartUpload}
      (hput : putObjectPart K s b o u p.partID p.r p.now = (s', .ok p.info))
      (hrest : Uploads b o u s' ps s'') : Uploads b o u s (p :: ps) s''

/-- An upload of the parts `1..n`, in any order, that starts in `s` and has its last part in
`s'`. -/
structure UploadedParts (s : Store) (b o : Bytes) (ud : OrdMap Bytes Bytes) (u : Bytes) (now : Nat)
    (ps : List PartUpload) (s' : Store) : Prop where
  bucket : isValidBucketName b = true
  uploads : ∃ s1 ups, newMultipartUpload K s b o ud u now = (s1, .ok u) ∧ ups.Perm ps ∧
    Uploads K b o u s1 ups s'
  numbers : ps.map PartUpload.partID = (List.range ps.length).map fun i : Nat => (i : Int) + 1
  count : 1 ≤ ps.length ∧ ps.length ≤ 10000
  minSize : ∀ p ∈ ps.dropLast, globalMinPartSize ≤ p.r.actualSize
  int64 : ∀ p ∈ ps, -2 ^ 63 ≤ p.r.actualSize ∧ p.r.actualSize < 2 ^ 63

/-- What the store may hold near the object when the upload starts: versions and keys of other
uploads, but no key that a listed part could be mistaken for. -/
structure OldKeys (s : Store) (k v : Bytes) (ps : List PartUpload) : Prop where
  current : currentVersion K s k = .ok v
  version : versionOrEmpty v = true
  plain : ∀ x ∈ s, k ++ [dot] <+: x → colon ∉ x.drop k.length
  parts : ∀ x ∈ s, ∀ p ∈ ps,
    partsKey k (newVersion v) ++ partFilePrefix p.partID p.info.etag <+: x →
      x = p.key k (newVersion v)

/-- What `koStat` decodes of a part, in the memory it has freed, still has the size of the part. -/
def PartUpload.SurvivesFree (s : Store) (k v o : Bytes) (p : PartUpload) : Prop :=
  ∃ m, K.afterFree s (p.key k v) (.json (p.fsMeta o)) = some m ∧ m.koInfo.size = p.r.size

/-- The metadata completion writes for the upload, with the parts as it has found them. -/
def committedMeta (o : Bytes) (ud : OrdMap Bytes Bytes) (now : Nat) (v : Bytes)
    (ps : List PartUpload) (qs : List ObjectPartInfo) : FsMetaV1 :=
  completeMeta { uploadMeta o ud now with parts := qs } v
    (getCompleteMultipartMD5 K (ps.map PartUpload.listed)) (totalActualSize qs)

/-- The values under the part keys that `Client.Read` rebuilds from the metadata of an object. -/
def readParts (s : Store) (k : Bytes) (m : FsMetaV1) : List (Option Bytes) :=
  (m.partKeys k).map fun x => (s.get? x).map Record.value

/-- Completion succeeds, the object's metadata can be read and list the parts in order, and the
values under their keys are the contents of the upload. -/
def Completes (s : Store) (b o u : Bytes) (ps : List PartUpload) : Prop :=
  ∃ (s' : Store) (info : ObjectInfo) (rec : Record) (m : FsMetaV1) (values : List Bytes),
    completeMultipartUpload K s b o u (ps.map PartUpload.listed) = (s', .ok info) ∧
    s'.get? (makeKey b o) = some rec ∧ unmarshalMeta K rec.blob = .ok m ∧
    m.parts = ps.map PartUpload.stored ∧
    readParts s' (makeKey b o) m = values.map some ∧
    values.flatten = (ps.map PartUpload.content).flatten

/-- The keys of earlier uploads that come before the last part in the answer to the part query. -/
def staleKeys (s : Store) (k v : Bytes) (ps : List PartUpload) : List Bytes :=
  s.keysWhere fun x => hasPrefix x (partsKey k v) && ps.any (fun p => x < p.key k v) &&
    !(ps.map (PartUpload.key k v)).contains x

variable {K} {s s' : Store} {b o u k v : Bytes} {ud : OrdMap Bytes Bytes} {now : Nat}
  {ps ups : List PartUpload}

/-! ## Keys of an object and a version -/

theorem currentVersion_congr (h : s'.get? k = s.get? k) :
    currentVersion K s' k = currentVersion K s k := by
  unfold currentVersion cGetMeta
  rw [h]

theorem get_keyVersion_of_currentVersion {m : FsMetaV1} {value : Bytes}
    (hv : currentVersion K s k = .ok v) (hget : s.get? k = some ⟨.json m, value⟩) :
    m.get keyVersion = v := by
  unfold currentVersion cGetMeta unmarshalMeta at hv
  rw [hget] at hv
  dsimp only at hv
  split_ifs at hv
  exact Except.ok.inj hv

theorem ne_of_partsKey {x : Bytes} (h : partsKey k v <+: x) : x ≠ k := by
  rintro rfl
  have := h.length_le
  simp [partsKey] at this

theorem not_partsKey_prefix_jsonKey (hv : versionOrEmpty v = true) :
    ¬ partsKey k v <+: jsonKey k u := by
  intro h
  have h' : v ++ [dot] <+: lit "fs" ++ [dot] ++ (lit "json." ++ u) := by
    have hs : jsonKey k u = k ++ [dot] ++ (lit "fs" ++ [dot] ++ (lit "json." ++ u)) := by
      have : metaJSONFile ++ [dot] = lit "fs" ++ [dot] ++ lit "json." := by decide
      rw [jsonKey, ← append_assoc _ _ u, ← this]
      simp
    rw [hs, show partsKey k v = k ++ [dot] ++ (v ++ [dot]) by simp [partsKey]] at h
    exact (prefix_append_right_inj _).1 h
  have h1 := takeWhile_of_segment (dot_not_mem_of_versionOrEmpty hv) h'
  rw [takeWhile_of_segment (v := lit "fs") (by decide) (prefix_append _ _)] at h1
  rw [← h1] at hv
  exact absurd hv (by decide)

theorem version_eq_of_partsKey {w x : Bytes} (hv : versionOrEmpty v = true)
    (hw : versionOrEmpty w = true) (h : partsKey k v <+: x) (h' : partsKey k w <+: x) : v = w := by
  obtain ⟨t, rfl⟩ := h
  have hpre : w ++ [dot] <+: v ++ [dot] ++ t := by
    have : k ++ [dot] ++ (w ++ [dot]) <+: k ++ [dot] ++ (v ++ [dot] ++ t) := by
      simpa [partsKey] using h'
    exact (prefix_append_right_inj _).1 this
  rw [← takeWhile_of_segment (dot_not_mem_of_versionOrEmpty hw) hpre,
    takeWhile_of_segment (dot_not_mem_of_versionOrEmpty hv) (prefix_append _ _)]

/-! ## Part numbers -/

theorem partID_eq_of_file {m n : Int} {e t : Bytes} (hm : 0 ≤ m ∧ m < 100000)
    (hn : 0 ≤ n ∧ n < 100000) (h : partFilePrefix m e <+: padInt 5 n ++ t) : m = n := by
  obtain ⟨m, rfl⟩ := Int.eq_ofNat_of_zero_le hm.1
  obtain ⟨n, rfl⟩ := Int.eq_ofNat_of_zero_le hn.1
  have hlen (i : Nat) (hi : i < 100000) : (padNat 5 i).length = 5 :=
    padNat_length (by omega) (by omega)
  have h1 : padNat 5 m <+: padNat 5 n ++ t := (prefix_append _ _).trans h
  have h2 : padNat 5 m = padNat 5 n := by
    have := prefix_of_prefix_length_le h1 (prefix_append (padNat 5 n) t)
      (by rw [hlen m (by omega), hlen n (by omega)])
    exact this.eq_of_length (by rw [hlen m (by omega), hlen n (by omega)])
  rw [padNat_inj (by omega) (by omega) h2]

theorem partKey_lt {m n : Int} {e f : Bytes} {i j : Int} (hm : 0 ≤ m) (hlt : m < n)
    (hn : n < 100000) :
    partKey k v m e i < partKey k v n f j := by
  obtain ⟨m, rfl⟩ := Int.eq_ofNat_of_zero_le hm
  obtain ⟨n, rfl⟩ := Int.eq_ofNat_of_zero_le (hm.trans hlt.le)
  unfold partKey encodePartFile
  rw [append_lt_append_iff]
  refine append_lt_append_of_lt (padNat_lt (by omega) (by omega)) ?_ _ _
  show (padNat 5 m).length = (padNat 5 n).length
  rw [padNat_length (by omega) (by omega), padNat_length (by omega) (by omega)]

/-! ## The store after the uploads -/

/-- What a successful `PutObjectPart` call wrote and returned. -/
structure PartUpload.Written (K : Kineticd) (o : Bytes) (p : PartUpload) : Prop where
  number : p.info.partNumber = p.partID
  etag : p.info.etag = partETag K p.r
  enough : (partBufSize p.r.size).toNat ≤ p.content.length

def PartUpload.value (p : PartUpload) : Bytes := p.content.take (partBufSize p.r.size).toNat

theorem putObjectPart_ok {p : PartUpload} (hv : currentVersion K s (makeKey b o) = .ok v)
    (h : putObjectPart K s b o u p.partID p.r p.now = (s', .ok p.info)) :
    p.Written K o ∧ s' = s.insert (p.key (makeKey b o) (newVersion v)) ⟨.json (p.fsMeta o),
      p.value⟩ := by
  rcases putObjectPart_cases (K := K) s b o u p.partID p.r p.now with ⟨e, h'⟩ |
    ⟨w, buf, st, hw, hr, h'⟩
  · rw [h'] at h
    cases h
  · rw [hv] at hw
    cases hw
    rw [h'] at h
    obtain ⟨hle, rfl⟩ := readFull_ok hr
    have hs : _ = s' := congrArg Prod.fst h
    have hinfo : _ = p.info := Except.ok.inj (congrArg Prod.snd h)
    have hn : p.info.partNumber = p.partID := by rw [← hinfo]
    have he : p.info.etag = partETag K p.r := by rw [← hinfo]
    refine ⟨⟨hn, he, hle⟩, ?_⟩
    rw [← hs, PartUpload.key, he]
    rfl

/-- The uploads write the parts and nothing else near the object. -/
theorem Uploads.spec (h : Uploads K b o u s ups s') (hv : currentVersion K s (makeKey b o) = .ok v)
    (hver : versionOrEmpty v = true)
    (hne : ups.Pairwise fun p q => p.key (makeKey b o) (newVersion v) ≠ q.key (makeKey b o)
      (newVersion v)) :
    (∀ p ∈ ups, p.Written K o ∧
      s'.get? (p.key (makeKey b o) (newVersion v)) = some ⟨.json (p.fsMeta o), p.value⟩) ∧
    ∀ x, Near (makeKey b o) x → (∀ p ∈ ups, x ≠ p.key (makeKey b o) (newVersion v)) →
      s'.get? x = s.get? x := by
  have hnear (p : PartUpload) : Near (makeKey b o) (p.key (makeKey b o) (newVersion v)) :=
    near_partKey (versionOrEmpty_newVersion hver) _ _ _ _
  induction h with
  | nil s => exact ⟨fun p hp => absurd hp not_mem_nil, fun x _ _ => rfl⟩
  | other hsame hrest ih =>
    obtain ⟨h1, h2⟩ := ih (by rwa [currentVersion_congr (hsame _ (.inl rfl))]) hne
    exact ⟨h1, fun x hx hxp => (h2 x hx hxp).trans (hsame x hx)⟩
  | @put s s' s'' p ps hput hrest ih =>
    obtain ⟨hw, rfl⟩ := putObjectPart_ok hv hput
    rw [pairwise_cons] at hne
    have hk : p.key (makeKey b o) (newVersion v) ≠ makeKey b o :=
      ne_of_partsKey (prefix_append _ _)
    obtain ⟨h1, h2⟩ := ih (by rwa [currentVersion_congr (get?_insert_of_ne hk.symm)]) hne.2
    refine ⟨?_, fun x hx hxp => ?_⟩
    · intro q hq
      rcases mem_cons.1 hq with rfl | hq
      · refine ⟨hw, ?_⟩
        rw [h2 _ (hnear q) hne.1, get?_insert_self]
      · exact h1 q hq
    · rw [h2 x hx fun q hq => hxp q (mem_cons_of_mem _ hq),
        get?_insert_of_ne (hxp p mem_cons_self)]

section Uploaded

variable (hup : UploadedParts K s b o ud u now ps s') (hold : OldKeys K s (makeKey b o) v ps)
include hup

variable {p : PartUpload}

theorem UploadedParts.partID_bounds (hp : p ∈ ps) : 0 ≤ p.partID ∧ p.partID < 100000 := by
  have hmem : p.partID ∈ (List.range ps.length).map fun i : Nat => (i : Int) + 1 :=
    hup.numbers ▸ mem_map_of_mem hp
  obtain ⟨i, hi, he⟩ := mem_map.1 hmem
  have := List.mem_range.1 hi
  have := hup.count
  omega

theorem UploadedParts.key_sorted (v : Bytes) :
    ps.Pairwise fun p q => p.key (makeKey b o) v < q.key (makeKey b o) v := by
  have hids : (ps.map PartUpload.partID).Pairwise (· < ·) := by
    rw [hup.numbers, pairwise_map]
    exact pairwise_lt_range.imp fun h => by omega
  refine (pairwise_map.1 hids).imp_of_mem fun hp hq hlt => ?_
  exact partKey_lt (hup.partID_bounds hp).1 hlt (hup.partID_bounds hq).2

/-- The parts, the upload's record and the old keys are what is near the object. -/
theorem UploadedParts.near (hold : OldKeys K s (makeKey b o) v ps) :
    (∀ p ∈ ps, p.Written K o ∧
      s'.get? (p.key (makeKey b o) (newVersion v)) = some ⟨.json (p.fsMeta o), p.value⟩) ∧
    s'.get? (jsonKey (makeKey b o) u) =
      some ⟨.json (uploadMeta o ud now), K.marshal (uploadMeta o ud now)⟩ ∧
    ∀ x, Near (makeKey b o) x → x ≠ jsonKey (makeKey b o) u →
      (∀ p ∈ ps, x ≠ p.key (makeKey b o) (newVersion v)) → s'.get? x = s.get? x := by
  obtain ⟨s1, ups, hnew, hperm, hups⟩ := hup.uploads
  have hs1 : s1 = s.insert (jsonKey (makeKey b o) u)
      ⟨.json (uploadMeta o ud now), K.marshal (uploadMeta o ud now)⟩ := by
    rcases newMultipartUpload_cases (K := K) s b o ud u now with ⟨e, h⟩ | h
    · rw [h] at hnew
      cases hnew
    · rw [h] at hnew
      exact (congrArg Prod.fst hnew).symm
  have hjk : makeKey b o ≠ jsonKey (makeKey b o) u := fun h => by
    have := congrArg List.length h
    simp [jsonKey] at this
  have hne := ((hup.key_sorted (newVersion v)).imp fun h => h.ne).perm hperm.symm fun h => h.symm
  obtain ⟨h1, h2⟩ := hups.spec
    (by rw [hs1, currentVersion_congr (get?_insert_of_ne hjk)]; exact hold.current)
    hold.version hne
  have hj : ∀ p ∈ ups, jsonKey (makeKey b o) u ≠ p.key (makeKey b o) (newVersion v) := by
    intro p _ h
    refine not_partsKey_prefix_jsonKey (versionOrEmpty_newVersion hold.version) (u := u)
      (k := makeKey b o) ?_
    rw [h]
    exact prefix_append _ _
  refine ⟨fun p hp => h1 p (hperm.mem_iff.2 hp), ?_, fun x hx hxj hxp => ?_⟩
  · rw [h2 _ (near_jsonKey _ _) hj, hs1, get?_insert_self]
  · rw [h2 x hx fun p hp => hxp p (hperm.mem_iff.1 hp), hs1, get?_insert_of_ne hxj]

include hold

variable {x : Bytes}

theorem UploadedParts.mem_range :
    (x ∈ s' ∧ partsKey (makeKey b o) (newVersion v) <+: x) ↔
      (∃ p ∈ ps, x = p.key (makeKey b o) (newVersion v)) ∨
        (x ∈ s ∧ partsKey (makeKey b o) (newVersion v) <+: x) := by
  obtain ⟨h1, -, h2⟩ := hup.near hold
  have hver := versionOrEmpty_newVersion hold.version
  by_cases hx : ∃ p ∈ ps, x = p.key (makeKey b o) (newVersion v)
  · refine ⟨fun _ => .inl hx, fun _ => ?_⟩
    obtain ⟨p, hp, rfl⟩ := hx
    exact ⟨(mem_iff s').2 ⟨_, (h1 p hp).2⟩, prefix_append _ _⟩
  · have hsame (hpre : partsKey (makeKey b o) (newVersion v) <+: x) : s'.get? x = s.get? x :=
      h2 x (.inr (.inr ⟨_, hver, hpre⟩)) (fun h => not_partsKey_prefix_jsonKey hver (h ▸ hpre))
        fun p hp h => hx ⟨p, hp, h⟩
    simp only [hx, false_or]
    refine and_congr_left fun hpre => ?_
    rw [mem_iff, mem_iff, hsame hpre]

theorem UploadedParts.colon_not_mem {w : Bytes} (ho : colon ∉ o) (hx : x ∈ s')
    (hw : versionOrEmpty w = true) (hpre : partsKey (makeKey b o) w <+: x) : colon ∉ x := by
  obtain ⟨h1, -, h2⟩ := hup.near hold
  have hk : colon ∉ makeKey b o := colon_not_mem_makeKey (colon_not_mem_bucket hup.bucket) ho
  by_cases hxp : ∃ p ∈ ps, x = p.key (makeKey b o) (newVersion v)
  · obtain ⟨p, hp, rfl⟩ := hxp
    refine colon_not_mem_partKey hk (colon_not_mem_newVersion v) ?_
    rw [(h1 p hp).1.etag]
    exact colon_not_mem_partETag
  · have hxs : x ∈ s := by
      have hsame := h2 x (.inr (.inr ⟨w, hw, hpre⟩))
        (fun h => not_partsKey_prefix_jsonKey hw (h ▸ hpre)) fun p hp h => hxp ⟨p, hp, h⟩
      rwa [mem_iff, ← hsame, ← mem_iff]
    have hdot : makeKey b o ++ [dot] <+: x :=
      List.IsPrefix.trans ⟨w ++ [dot], by simp [partsKey]⟩ hpre
    have hrest := hold.plain x hxs hdot
    obtain ⟨t, rfl⟩ := hdot
    rw [append_assoc] at hrest ⊢
    rw [drop_left] at hrest
    exact fun hc => (mem_append.1 hc).elim hk hrest

/-! ## The 800 keys of the query -/

theorem UploadedParts.mem_window_iff :
    (∀ p ∈ ps, p.key (makeKey b o) (newVersion v) ∈
      partWindow s' (makeKey b o) (newVersion v)) ↔
      (staleKeys s (makeKey b o) (newVersion v) ps).length + ps.length ≤ 800 := by
  unfold partWindow
  set L := s'.keysWhere fun x => hasPrefix x (partsKey (makeKey b o) (newVersion v)) with hL
  have hsorted : L.Pairwise (· < ·) := keysWhere_sorted
  have hmemL (x : Bytes) : x ∈ L ↔ (∃ p ∈ ps, x = p.key (makeKey b o) (newVersion v)) ∨
      (x ∈ s ∧ partsKey (makeKey b o) (newVersion v) <+: x) := by
    rw [hL, mem_keysWhere, hasPrefix, isPrefixOf_iff_prefix, hup.mem_range hold]
  have hpL (p : PartUpload) (hp : p ∈ ps) : p.key (makeKey b o) (newVersion v) ∈ L :=
    (hmemL _).2 (.inl ⟨p, hp, rfl⟩)
  have hne : ps ≠ [] := by
    rintro rfl
    have := hup.count
    simp at this
  -- the last part has the largest key
  set last := ps.getLast hne
  have hlast : last ∈ ps := getLast_mem hne
  have happ : ps.dropLast ++ [last] = ps := dropLast_append_getLast hne
  have hkeys := hup.key_sorted (newVersion v)
  rw [← happ, pairwise_append] at hkeys
  have hlt (p : PartUpload) (hp : p ∈ ps.dropLast) :
      p.key (makeKey b o) (newVersion v) < last.key (makeKey b o) (newVersion v) :=
    hkeys.2.2 p hp last (by simp)
  have hcase (p : PartUpload) (hp : p ∈ ps) : p ∈ ps.dropLast ∨ p = last := by
    rw [← happ] at hp
    simpa using hp
  have hle (p : PartUpload) (hp : p ∈ ps) :
      p.key (makeKey b o) (newVersion v) ≤ last.key (makeKey b o) (newVersion v) := by
    rcases hcase p hp with h | rfl
    · exact (hlt p h).le
    · exact le_rfl
  -- below it are the old keys and the other parts
  have hperm : (L.filter (· < last.key (makeKey b o) (newVersion v))).Perm
      (staleKeys s (makeKey b o) (newVersion v) ps ++
        ps.dropLast.map (PartUpload.key (makeKey b o) (newVersion v))) := by
    refine (perm_ext_iff_of_nodup ((hsorted.imp ne_of_lt).filter _) ?_).2 fun x => ?_
    · refine nodup_append.2 ⟨keysWhere_sorted.imp ne_of_lt, ?_, ?_⟩
      · exact pairwise_map.2 (hkeys.1.imp ne_of_lt)
      · rintro x hx y hy rfl
        obtain ⟨p, hp, rfl⟩ := mem_map.1 hy
        have := (mem_keysWhere.1 hx).2
        simp only [Bool.and_eq_true, Bool.not_eq_true', contains_eq_mem,
          decide_eq_false_iff_not] at this
        exact this.2 (mem_map_of_mem (dropLast_subset _ hp))
    · simp only [mem_filter, decide_eq_true_eq, mem_append, mem_map, hmemL, staleKeys,
        mem_keysWhere, Bool.and_eq_true, Bool.not_eq_true', contains_eq_mem,
        decide_eq_false_iff_not, any_eq_true, hasPrefix, isPrefixOf_iff_prefix]
      constructor
      · rintro ⟨⟨p, hp, rfl⟩ | ⟨hxs, hpre⟩, hx⟩
        · rcases hcase p hp with h | rfl
          · exact .inr ⟨p, h, rfl⟩
          · exact absurd hx (lt_irrefl _)
        · by_cases hxp : ∃ p ∈ ps, p.key (makeKey b o) (newVersion v) = x
          · obtain ⟨p, hp, rfl⟩ := hxp
            rcases hcase p hp with h | rfl
            · exact .inr ⟨p, h, rfl⟩
            · exact absurd hx (lt_irrefl _)
          · exact .inl ⟨hxs, ⟨hpre, last, hlast, hx⟩, hxp⟩
      · rintro (⟨hxs, ⟨hpre, p, hp, hx⟩, -⟩ | ⟨p, hp, rfl⟩)
        · exact ⟨.inr ⟨hxs, hpre⟩, hx.trans_le (hle p hp)⟩
        · exact ⟨.inl ⟨p, dropLast_subset _ hp, rfl⟩, hlt p hp⟩
  have hcount : (L.filter (· < last.key (makeKey b o) (newVersion v))).length + 1 =
      (staleKeys s (makeKey b o) (newVersion v) ps).length + ps.length := by
    have hlen := congrArg List.length happ
    rw [length_append, length_singleton] at hlen
    rw [hperm.length_eq, length_append, length_map, ← hlen]
    omega
  constructor
  · intro h
    have := (mem_take_iff_of_sorted hsorted (hpL last hlast) (fun _ => decide_eq_true_iff) 800).1
      (h last hlast)
    omega
  · intro h p hp
    rw [mem_take_iff_of_sorted hsorted (hpL p hp) fun _ => decide_eq_true_iff]
    have hmono : (L.filter (· < p.key (makeKey b o) (newVersion v))).length ≤
        (L.filter (· < last.key (makeKey b o) (newVersion v))).length := by
      rw [← countP_eq_length_filter, ← countP_eq_length_filter]
      exact countP_mono_left fun x _ hx => by
        simpa using (show x < _ by simpa using hx).trans_le (hle p hp)
    omega

/-! ## The search and the commit -/

omit hold in
theorem UploadedParts.eq_of_partID {q : PartUpload} (hp : p ∈ ps) (hq : q ∈ ps)
    (h : p.partID = q.partID) :
    p = q := by
  have hnodup : (ps.map PartUpload.partID).Nodup := by
    rw [hup.numbers]
    exact nodup_range.map fun i j h => by simpa using h
  exact inj_on_of_nodup_map hnodup hp hq h

theorem UploadedParts.eq_key (hp : p ∈ ps) (hx : x ∈ s')
    (hpre : partsKey (makeKey b o) (newVersion v) ++ partFilePrefix p.partID p.info.etag <+: x) :
    x = p.key (makeKey b o) (newVersion v) := by
  have hpre' : partsKey (makeKey b o) (newVersion v) <+: x := (prefix_append _ _).trans hpre
  rcases (hup.mem_range hold).1 ⟨hx, hpre'⟩ with ⟨q, hq, rfl⟩ | ⟨hxs, -⟩
  · rw [hup.eq_of_partID hp hq (partID_eq_of_file (hup.partID_bounds hp) (hup.partID_bounds hq)
      ((prefix_append_right_inj _).1 hpre))]
  · exact hold.parts x hxs p hp hpre

theorem UploadedParts.completePart_eq (hp : p ∈ ps)
    (hwin : p.key (makeKey b o) (newVersion v) ∈ partWindow s' (makeKey b o) (newVersion v))
    (hfit : (K.marshal (p.fsMeta o)).length ≤ maxMetaBytes)
    (hfree : p.SurvivesFree K s' (makeKey b o) (newVersion v) o) :
    completePart K s' (partsKey (makeKey b o) (newVersion v))
      (partFiles s' (makeKey b o) (newVersion v))
      p.listed = .ok p.stored := by
  obtain ⟨hw, hget⟩ := (hup.near hold).1 p hp
  have hlisted : p.listed = ⟨p.partID, p.info.etag⟩ := by rw [PartUpload.listed, hw.number]
  have hpre : partFilePrefix p.partID p.info.etag <+:
      encodePartFile p.partID p.info.etag p.r.actualSize :=
    ⟨formatInt p.r.actualSize, by simp [partFilePrefix, encodePartFile]⟩
  have hsize : parseInt64 (((encodePartFile p.partID p.info.etag p.r.actualSize).splitOn
    dot).getLastD []) =
      (p.r.actualSize, none) := by
    rw [getLastD_splitOn_encodePartFile]
    exact parseInt64_formatInt (hup.int64 p hp).1 (hup.int64 p hp).2
  obtain ⟨m, hm, hmsize⟩ := hfree
  rw [hlisted, PartUpload.stored, ← hmsize]
  refine S3Kinetic.completePart_eq (mem_partFiles.2 hwin) hpre ?_ hsize hget
    (unmarshalFreed_json_iff.2 ⟨hfit, hm⟩)
  -- no other file of the answer has the number and the etag
  intro g hg hgp
  obtain ⟨hxs, -⟩ := mem_partWindow (mem_partFiles.1 hg)
  exact append_cancel_left (hup.eq_key hold hp hxs ((prefix_append_right_inj _).2 hgp))

theorem UploadedParts.of_completePart {q : ObjectPartInfo} (hp : p ∈ ps)
    (hq : q ∈ ps.map PartUpload.stored)
    (h : completePart K s' (partsKey (makeKey b o) (newVersion v))
      (partFiles s' (makeKey b o) (newVersion v)) p.listed = .ok q) :
    p.key (makeKey b o) (newVersion v) ∈ partWindow s' (makeKey b o) (newVersion v) ∧
      (K.marshal (p.fsMeta o)).length ≤ maxMetaBytes ∧
      p.SurvivesFree K s' (makeKey b o) (newVersion v) o := by
  obtain ⟨hw, hget⟩ := (hup.near hold).1 p hp
  obtain ⟨f, hf, hpre, -, r, m, hr, hm, hinfo⟩ := completePart_ok h
  obtain ⟨p', hp', hstored⟩ := mem_map.1 hq
  -- the number tells which of the parts it is
  have hnumber : p'.partID = p.partID := by
    have hnum := congrArg ObjectPartInfo.number (hstored.trans hinfo)
    rwa [PartUpload.listed, hw.number] at hnum
  have hsize : m.koInfo.size = p.r.size := by
    have := congrArg ObjectPartInfo.size (hstored.trans hinfo)
    rw [hup.eq_of_partID hp' hp hnumber] at this
    exact this.symm
  have hwin := mem_partFiles.1 hf
  rw [PartUpload.listed, hw.number] at hpre
  have hkey := hup.eq_key hold hp (mem_partWindow hwin).1 ((prefix_append_right_inj _).2 hpre)
  rw [hkey] at hwin hr hm
  rw [hget] at hr
  cases hr
  obtain ⟨hfit, hfree⟩ := unmarshalFreed_json_iff.1 hm
  exact ⟨hwin, hfit, m, hfree, hsize⟩

theorem UploadedParts.currentVersion_eq : currentVersion K s' (makeKey b o) = .ok v := by
  obtain ⟨-, -, hsame⟩ := hup.near hold
  rw [currentVersion_congr (s := s), hold.current]
  refine hsame _ (.inl rfl) (fun h => ?_) fun p _ => ?_
  · have := congrArg List.length h
    simp [jsonKey] at this
  · exact (ne_of_partsKey (prefix_append _ _)).symm

theorem UploadedParts.of_complete {s'' : Store} {info : ObjectInfo}
    (h : completeMultipartUpload K s' b o u (ps.map PartUpload.listed) = (s'', .ok info)) :
    colon ∉ o ∧ ∃ qs, completeParts K s' (partsKey (makeKey b o) (newVersion v))
      (partFiles s' (makeKey b o) (newVersion v)) (ps.map PartUpload.listed) = .ok qs := by
  obtain ⟨hparts, -, -⟩ := hup.near hold
  rcases completeMultipartUpload_cases (K := K) s' b o u (ps.map PartUpload.listed) with
    ⟨e, h'⟩ | ⟨w, keys, qs, hw, hkeys, hqs, -⟩
  · rw [h'] at h
    cases h
  rw [hup.currentVersion_eq hold] at hw
  cases hw
  have ho : colon ∉ o := by
    intro ho
    obtain ⟨p, hp⟩ := exists_mem_of_length_pos hup.count.1
    have hne : (makeKey b o).head? ≠ some colon := by
      rw [makeKey, List.head?_append_of_ne_nil _ (bucket_ne_nil hup.bucket)]
      exact fun h => colon_not_mem_bucket hup.bucket (mem_of_mem_head? h)
    rw [stripKeys_colon (by simp [makeKey, ho]) hne ((mem_iff s').2 ⟨_, (hparts p hp).2⟩)
      (prefix_append _ _)] at hkeys
    cases hkeys
  rw [stripKeys_partKeyRange fun x hx hpre =>
    hup.colon_not_mem hold ho hx (versionOrEmpty_newVersion hold.version) hpre] at hkeys
  cases hkeys
  exact ⟨ho, qs, hqs⟩

theorem UploadedParts.complete (hK : K.Healthy)
    (hjson : ∀ qs, K.unmarshal ⟨[], ∅, qs, ⟨[], 0, 0⟩⟩ (K.marshal (uploadMeta o ud now)) =
      some { uploadMeta o ud now with parts := qs })
    (ho : colon ∉ o) {qs : List ObjectPartInfo}
    (hps : completeParts K s' (partsKey (makeKey b o) (newVersion v))
      (partFiles s' (makeKey b o) (newVersion v))
      (ps.map PartUpload.listed) = .ok qs) :
    ∃ s'' info, completeMultipartUpload K s' b o u (ps.map PartUpload.listed) = (s'', .ok info) ∧
      s''.get? (makeKey b o) = some ⟨.json (committedMeta K o ud now (newVersion v) ps qs), []⟩ ∧
      ∀ p ∈ ps, s''.get? (p.key (makeKey b o) (newVersion v)) = some ⟨.json (p.fsMeta o),
        p.value⟩ := by
  obtain ⟨hparts, hrec, -⟩ := hup.near hold
  have hver := versionOrEmpty_newVersion hold.version
  have hstrip := stripKeys_partKeyRange (K := K) fun x hx hpre =>
    hup.colon_not_mem hold ho hx hver hpre
  have hcommit := commitUpload_of_healthy hK (newVersion v)
    (getCompleteMultipartMD5 K (ps.map PartUpload.listed)) hrec (hjson qs)
  -- the commit touches the upload's record and the object's key
  set s1 := (delete K s' (jsonKey (makeKey b o) u)).1.insert (makeKey b o)
    ⟨.json (committedMeta K o ud now (newVersion v) ps qs), []⟩ with hs1
  have hk1 : s1.get? (makeKey b o) = some ⟨.json (committedMeta K o ud now (newVersion v) ps qs),
      []⟩ :=
    get?_insert_self ..
  have hparts1 (x : Bytes) (hx : partsKey (makeKey b o) (newVersion v) <+: x) : s1.get? x =
      s'.get? x := by
    rw [hs1, get?_insert_of_ne (ne_of_partsKey hx), delete_get?_of_ne]
    rintro rfl
    exact not_partsKey_prefix_jsonKey hver hx
  -- and the parts of the old version are not those of the new one
  have hdel : Evolves (fun _ _ => False) (fun x => partsKey (makeKey b o) v <+: x) s1
      (deleteParts K s1 (makeKey b o) v).1 := by
    refine deleteParts_evolves fun x hx hpre => ?_
    rcases mem_insert.1 hx with rfl | hx
    · exact absurd rfl (ne_of_partsKey hpre)
    · exact hup.colon_not_mem hold ho (delete_mem_of_mem hx) hold.version hpre
  have hdelparts (x : Bytes) (hx : partsKey (makeKey b o) (newVersion v) <+: x) :
      (deleteParts K s1 (makeKey b o) v).1.get? x = s1.get? x :=
    hdel.get?_eq (fun _ h => h) fun h =>
      newVersion_ne (by simpa [versionOrEmpty] using hold.version)
      (version_eq_of_partsKey hver hold.version hx h)
  have hdelkey : (deleteParts K s1 (makeKey b o) v).1.get? (makeKey b o) = s1.get? (makeKey b o) :=
    hdel.get?_eq (fun _ h => h) fun h => ne_of_partsKey h rfl
  have hres : completeMultipartUpload K s' b o u (ps.map PartUpload.listed) =
      (if v ≠ [] then (deleteParts K s1 (makeKey b o) v).1 else s1,
        .ok ((committedMeta K o ud now (newVersion v) ps qs).toObjectKVInfo b o
            (totalActualSize qs))) := by
    unfold completeMultipartUpload
    simp only [hup.currentVersion_eq hold, hstrip, hps, hcommit]
    rfl
  refine ⟨_, _, hres, ?_, fun p hp => ?_⟩
  · split
    · rw [hdelkey, hk1]
    · exact hk1
  · have hpre : partsKey (makeKey b o) (newVersion v) <+: p.key (makeKey b o) (newVersion v) :=
      prefix_append _ _
    split
    · rw [hdelparts _ hpre, hparts1 _ hpre, (hparts p hp).2]
    · rw [hparts1 _ hpre, (hparts p hp).2]

end Uploaded

/-! ## The contents -/

theorem content_length_le {p : PartUpload} (h : 0 < p.r.size) :
    (p.content.length : Int) ≤ p.r.size := by
  unfold PartUpload.content PutObjReader.stream
  split
  · simp only [length_take]
    omega
  · dsimp only
    omega

theorem content_fits_iff (p : PartUpload) :
    p.content.length ≤ (partBufSize p.r.size).toNat ↔ (p.content.length : Int) ≤ blockSizeV1 := by
  unfold partBufSize
  split
  · next h =>
    have := content_length_le (p := p) h.1
    omega
  · have : 0 ≤ blockSizeV1 := by decide
    omega

theorem readParts_committedMeta {s'' : Store}
    (h : ∀ p ∈ ps, s''.get? (p.key k v) = some ⟨.json (p.fsMeta o), p.value⟩) :
    readParts s'' k (committedMeta K o ud now v ps (ps.map PartUpload.stored)) =
      (ps.map PartUpload.value).map some := by
  have hver : (committedMeta K o ud now v ps (ps.map PartUpload.stored)).get keyVersion = v :=
    completeMeta_version ..
  have hkeys : (committedMeta K o ud now v ps (ps.map PartUpload.stored)).partKeys k =
      ps.map (PartUpload.key k v) := by
    unfold FsMetaV1.partKeys
    rw [hver]
    show (ps.map PartUpload.stored).map _ = _
    rw [map_map]
    rfl
  rw [readParts, hkeys, map_map, map_map]
  refine map_congr_left fun p hp => ?_
  simp [h p hp]

/-- **The upload law**: when an undisturbed upload of parts `1..n` gives an object with the uploaded
contents. -/
theorem completes_iff (hK : K.Healthy) (_hnames : CString b ∧ CString o ∧ CString u)
    (hjson : ∀ qs, K.unmarshal ⟨[], ∅, qs, ⟨[], 0, 0⟩⟩ (K.marshal (uploadMeta o ud now)) =
      some { uploadMeta o ud now with parts := qs })
    (hup : UploadedParts K s b o ud u now ps s') (hold : OldKeys K s (makeKey b o) v ps) :
    Completes K s' b o u ps ↔
      colon ∉ o ∧ (staleKeys s (makeKey b o) (newVersion v) ps).length + ps.length ≤ 800 ∧
        (∀ p ∈ ps, (p.content.length : Int) ≤ blockSizeV1) ∧
        (∀ p ∈ ps, (K.marshal (p.fsMeta o)).length ≤ maxMetaBytes) ∧
        (∀ p ∈ ps, p.SurvivesFree K s' (makeKey b o) (newVersion v) o) ∧
        (K.marshal (committedMeta K o ud now (newVersion v) ps (ps.map PartUpload.stored))).length ≤
          maxMetaBytes := by
  have hcontents : (ps.map PartUpload.value).flatten = (ps.map PartUpload.content).flatten ↔
      ∀ p ∈ ps, (p.content.length : Int) ≤ blockSizeV1 := by
    have := flatten_map_take_eq_iff PartUpload.content (fun p => (partBufSize p.r.size).toNat) ps
    exact this.trans (forall₂_congr fun p _ => content_fits_iff p)
  constructor
  · rintro ⟨s'', info, rec, m, values, hc, hrec, hm, hlisted, hread, hvalues⟩
    obtain ⟨ho, qs, hqs⟩ := hup.of_complete hold hc
    obtain ⟨s3, info', hc', hk, hstay⟩ := hup.complete hold hK hjson ho hqs
    -- completion is a function: both runs are the same
    rw [hc] at hc'
    cases hc'
    rw [hk] at hrec
    cases hrec
    have hfit : (K.marshal (committedMeta K o ud now (newVersion v) ps qs)).length ≤
        maxMetaBytes := by
      by_contra hlen
      rw [unmarshalMeta, if_neg hlen] at hm
      cases hm
    rw [unmarshalMeta, if_pos hfit] at hm
    cases hm
    obtain rfl : qs = ps.map PartUpload.stored := hlisted
    have hparts : ∀ p ∈ ps, p.key (makeKey b o) (newVersion v) ∈ partWindow s' (makeKey b o)
      (newVersion v) ∧
        (K.marshal (p.fsMeta o)).length ≤ maxMetaBytes ∧
        p.SurvivesFree K s' (makeKey b o) (newVersion v) o := by
      intro p hp
      obtain ⟨q, hq, hpart⟩ := (completeParts_ok hqs).1 p.listed (mem_map_of_mem hp)
      exact hup.of_completePart hold hp hq hpart
    rw [readParts_committedMeta hstay] at hread
    rw [← map_injective_iff.2 (Option.some_injective _) hread] at hvalues
    exact ⟨ho, (hup.mem_window_iff hold).1 fun p hp => (hparts p hp).1, hcontents.1 hvalues,
      fun p hp => (hparts p hp).2.1, fun p hp => (hparts p hp).2.2, hfit⟩
  · rintro ⟨ho, hcount, hlen, hfits, hfree, hfit⟩
    have hwin := (hup.mem_window_iff hold).2 hcount
    obtain ⟨s'', info, hc, hk, hstay⟩ := hup.complete hold hK hjson ho (completeParts_eq
      (fun p hp => hup.completePart_eq hold hp (hwin p hp) (hfits p hp) (hfree p hp)) hup.minSize)
    exact ⟨s'', info, _, _, _, hc, hk, if_pos hfit, rfl, readParts_committedMeta hstay,
      hcontents.2 hlen⟩

/-- A drive with an empty bucket that can decode the record of an upload of `object`. -/
def uploadDrive (object : Bytes) : Kineticd := memoryDrive [uploadMeta object ∅ 3]

def emptyBucket (object : Bytes) : Store :=
  run (uploadDrive object) (initStore (uploadDrive object) id) [.makeBucket (lit "bkt") 1]

/-- The only part of an upload, and the store it leaves. -/
def onlyPart : PartUpload where
  partID := 1
  r := bodyReader (lit "part") (List.replicate 16 9)
  now := 4
  info := ⟨1, 4, hexEncode (List.replicate 16 9), 4, 4⟩

def onePartStore (object : Bytes) : Store :=
  run (uploadDrive object) (emptyBucket object)
    [.newMultipartUpload (lit "bkt") object ∅ (lit "u1") 3,
      .putObjectPart (lit "bkt") object (lit "u1") 1 onlyPart.r 4]

theorem uploadedParts_onePartStore {object : Bytes}
    (hnew : (newMultipartUpload (uploadDrive object) (emptyBucket object) (lit "bkt")
      object ∅ (lit "u1")
      3).2 = .ok (lit "u1"))
    (hput : (putObjectPart (uploadDrive object) (newMultipartUpload (uploadDrive object)
      (emptyBucket object) (lit "bkt") object ∅ (lit "u1") 3).1 (lit "bkt") object
        (lit "u1") 1 onlyPart.r
      4).2 = .ok onlyPart.info) :
    UploadedParts (uploadDrive object) (emptyBucket object) (lit "bkt") object ∅
      (lit "u1") 3 [onlyPart]
      (onePartStore object) where
  bucket := by decide
  uploads := ⟨_, [onlyPart], Prod.ext rfl hnew, .refl _, .put (Prod.ext rfl hput) (.nil _)⟩
  numbers := rfl
  count := by decide
  minSize := by simp
  int64 := by
    intro p hp
    rw [mem_singleton.1 hp]
    decide

theorem uploadDrive_unmarshal {object : Bytes} (qs : List ObjectPartInfo) :
    (uploadDrive object).unmarshal ⟨[], ∅, qs, ⟨[], 0, 0⟩⟩
      ((uploadDrive object).marshal (uploadMeta object ∅ 3)) =
      some { uploadMeta object ∅ 3 with parts := qs } := by
  show ([uploadMeta object ∅ 3].find? fun m => jsonMeta m = jsonMeta (uploadMeta object ∅ 3)).map
    _ = _
  rw [List.find?_cons_of_pos (by simp)]
  rfl

theorem oldKeys_emptyBucket (ps : List PartUpload) :
    OldKeys (uploadDrive (lit "a")) (emptyBucket (lit "a")) (makeKey (lit "bkt") (lit "a")) []
      ps := by
  have hnone : ∀ x ∈ (emptyBucket (lit "a")).keys, ¬ makeKey (lit "bkt") (lit "a") ++
      [dot] <+: x := by
    decide
  refine ⟨by decide, rfl, fun x hx h => absurd h (hnone x (mem_keys.2 hx)), ?_⟩
  intro x hx p _ h
  refine absurd (List.IsPrefix.trans ?_ h) (hnone x (mem_keys.2 hx))
  exact ⟨_, by rw [partsKey, append_assoc, append_assoc]; rfl⟩

theorem completes_onlyPart :
    Completes (uploadDrive (lit "a")) (onePartStore (lit "a")) (lit "bkt") (lit "a") (lit "u1")
      [onlyPart] := by
  refine (completes_iff (memoryDrive_healthy _) (by decide) uploadDrive_unmarshal
    (uploadedParts_onePartStore (by decide) (by decide)) (oldKeys_emptyBucket _)).2 ?_
  refine ⟨by decide +kernel, by decide +kernel, ?_, ?_, ?_, by decide +kernel⟩
  all_goals
    intro p hp
    rw [mem_singleton.1 hp]
  · decide +kernel
  · decide +kernel
  · exact ⟨_, rfl, rfl⟩

/-- The part of an object with a `:` in its name is not found: completion panics. -/
theorem complete_panics_on_colon :
    isValidObjectName (lit "a:b") = true ∧
      Reachable (uploadDrive (lit "a:b")) (emptyBucket (lit "a:b")) ∧
      UploadedParts (uploadDrive (lit "a:b")) (emptyBucket (lit "a:b")) (lit "bkt")
        (lit "a:b") ∅ (lit "u1")
        3 [onlyPart] (onePartStore (lit "a:b")) ∧
      (completeMultipartUpload (uploadDrive (lit "a:b")) (onePartStore (lit "a:b")) (lit "bkt")
        (lit "a:b") (lit "u1") [onlyPart.listed]).2 = .error .panic ∧
      ¬ Completes (uploadDrive (lit "a:b")) (onePartStore (lit "a:b")) (lit "bkt")
        (lit "a:b") (lit "u1")
        [onlyPart] := by
  have herr : (completeMultipartUpload (uploadDrive (lit "a:b"))
    (onePartStore (lit "a:b")) (lit "bkt")
      (lit "a:b") (lit "u1") [onlyPart.listed]).2 = .error .panic := by decide
  refine ⟨by decide, ⟨id, _, rfl⟩, uploadedParts_onePartStore (by decide) (by decide),
    herr, ?_⟩
  rintro ⟨s', info, rec, m, values, hc, -⟩
  rw [map_singleton] at hc
  rw [hc] at herr
  cases herr

end S3Kinetic
