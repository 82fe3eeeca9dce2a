import S3Kinetic.Reading

/-!
# Reading an object that one put stored

A connection keeps its offset from one read to the next, so every read of an object without parts
starts at the beginning of the range again. `rangeRead_iff` says which draining loops do not notice:
those whose every chunk of the range is also its beginning, such as a single buffer for all of it.
-/

namespace S3Kinetic

open ByteString Decimal List

variable {K : Kineticd} {s : Store}

/-- An object without parts whose content is `data`. -/
structure PlainObject (K : Kineticd) (s : Store) (k : Bytes) (m : FsMetaV1) (data : Bytes) :
    Prop where
  record : s.get? k = some ⟨.json m, data⟩
  parts : m.parts = []
  size : parseInt64 (m.get keySize) = ((data.length : Int), none)
  fits : (K.marshal m).length ≤ maxMetaBytes

/-! ## One read -/

theorem PlainObject.read {c : Client} {m : FsMetaV1} {data : Bytes}
    (h : PlainObject K s c.key m data) (hin : K.PartialGetInside) {n : Nat}
    (hn : c.dataOffset + n ≤ data.length) :
    c.read K s n = (c, .ok ((data.drop c.dataOffset).take n)) := by
  have hget : cGet K s c.key data.length c.dataOffset n = .ok ((data.drop c.dataOffset).take n) :=
    cGet_inside hin h.record hn
  simp only [Client.read, cGetMeta, h.record, unmarshalMeta, h.fits, h.parts, h.size, hget, if_true]

/-! ## The draining loop -/

theorem drop_eq_append_iff {α : Type*} (l v rest : List α) (p : Nat) :
    l.drop p = v ++ rest ↔ v = (l.drop p).take v.length ∧ rest = l.drop (p + v.length) := by
  constructor
  · intro h
    constructor
    · rw [h, take_left]
    · rw [← drop_drop, h, drop_left]
  · rintro ⟨hv', rfl⟩
    conv_lhs => rw [← take_append_drop v.length (l.drop p), ← hv', drop_drop]

/-- What the rest of the range has to look like when the reader has delivered `p` bytes: the
induction goes over the bytes that are left. -/
theorem PlainObject.drains_iff (kc : Client) {m : FsMetaV1} {data range : Bytes} {len : Nat}
    (h : PlainObject K s kc.key m data) (hin : K.PartialGetInside)
    (hlen : kc.dataOffset + len ≤ data.length) (hrange : range = (data.drop kc.dataOffset).take len)
    {sizes : Nat → Nat} (hs : ∀ i, 0 < sizes i) {p : Nat} (hp : p ≤ len) :
    Drains K s (.limited kc (len - p)) sizes (range.drop p) ↔
      ∀ i, (range.drop (p + ∑ j ∈ Finset.range i, sizes j)).take (sizes i) <+: range := by
  have hrlen : range.length = len := by
    rw [hrange, length_take, length_drop]
    omega
  induction hn : len - p using Nat.strong_induction_on generalizing p sizes with
  | _ n ih =>
    subst hn
    rcases Nat.eq_zero_or_pos (len - p) with h0 | h0
    · rw [h0, drains_limit_zero_iff, drop_eq_nil_of_le (by omega)]
      refine iff_of_true rfl fun i => ?_
      rw [drop_eq_nil_of_le (by omega), take_nil]
      exact nil_prefix
    have hq0 := hs 0
    obtain ⟨q, hq⟩ : ∃ q, q = min (sizes 0) (len - p) := ⟨_, rfl⟩
    -- the read starts at the beginning of the range again
    have hread : kc.read K s (min (sizes 0) (len - p)) = (kc, .ok (range.take q)) := by
      have hmin : min q len = q := min_eq_left (by omega)
      rw [← hq, h.read hin (by omega), hrange, take_take, hmin]
    have hvlen : (range.take q).length = q := by rw [length_take]; omega
    have hstep : Drains K s (.limited kc (len - p)) sizes (range.drop p) ↔
        range.take q = (range.drop p).take q ∧
          Drains K s (.limited kc (len - (p + q))) (fun i => sizes (i + 1))
              (range.drop (p + q)) := by
      rw [drains_limited_iff h0, hread]
      have hsplit (rest : Bytes) := drop_eq_append_iff range (range.take q) rest p
      simp only [hvlen] at hsplit
      constructor
      · rintro ⟨kc', v, rest, heq, -, hdata, hrest⟩
        cases heq
        obtain ⟨hv, rfl⟩ := (hsplit rest).1 hdata
        rw [hvlen, Nat.sub_sub] at hrest
        exact ⟨hv, hrest⟩
      · rintro ⟨hv, hrest⟩
        refine ⟨kc, _, _, rfl, by omega, (hsplit _).2 ⟨hv, rfl⟩, ?_⟩
        rw [hvlen, Nat.sub_sub]
        exact hrest
    have hfirst : range.take q = (range.drop p).take q ↔
        (range.drop p).take (sizes 0) <+: range := by
      have htake : (range.drop p).take (sizes 0) = (range.drop p).take q := by
        rw [take_eq_take_iff, length_drop]
        omega
      rw [htake, prefix_iff_eq_take, length_take, length_drop, min_eq_left (by omega)]
      exact eq_comm
    have hpos (i : Nat) : range.drop (p + q + ∑ j ∈ Finset.range i, sizes (j + 1)) =
        range.drop (p + ∑ j ∈ Finset.range (i + 1), sizes j) := by
      rw [Finset.sum_range_succ']
      rcases le_total (sizes 0) (len - p) with hle | hle
      · congr 1
        omega
      · rw [drop_eq_nil_of_le (by omega), drop_eq_nil_of_le (by omega)]
    have hrest := ih (len - (p + q)) (by omega) (fun i => hs (i + 1)) (p := p + q) (by omega) rfl
    refine (hstep.trans (and_congr hfirst hrest)).trans ?_
    constructor
    · rintro ⟨h1, h2⟩ i
      cases i with
      | zero => simpa using h1
      | succ i => rw [← hpos]; exact h2 i
    · intro hall
      exact ⟨by simpa using hall 0, fun i => by rw [hpos]; exact hall (i + 1)⟩

/-! ## Objects that a put stored -/

variable {r : PutObjReader}

theorem stream_length_le (h : r.size.toNat ≤ r.stream.data.length) (h0 : 0 ≤ r.size) :
    (r.stream.data.length : Int) = r.size := by
  unfold PutObjReader.stream at h ⊢
  split_ifs at h ⊢ with hle
  · rw [length_take]
    omega
  · dsimp only at h ⊢
    omega

theorem transformed_putObjectMeta (o : Bytes) (r : PutObjReader)
    (ud : OrdMap Bytes Bytes) (v : Bytes)
    (now : Nat) : transformed (putObjectMeta o r ud v now).entries = transformed ud := by
  have hne : ∀ k ∈ transformKeys, k ≠ keyVersion ∧ k ≠ keyEtag ∧ k ≠ keySize := by decide
  unfold transformed
  rw [Bool.eq_iff_iff, any_eq_true, any_eq_true]
  refine exists_congr fun k => and_congr_right fun hk => ?_
  obtain ⟨hver, hetag, hsize⟩ := hne k hk
  show ((OrdMap.get? (OrdMap.insert (OrdMap.insert (OrdMap.insert ud _ _) _ _) _ _) k).isSome =
    true) ↔ _
  rw [OrdMap.get?_insert_of_ne hsize, OrdMap.get?_insert_of_ne hetag, OrdMap.get?_insert_of_ne hver]

variable {b o : Bytes}

/-- What a put that succeeds has stored and returned. -/
theorem putObject_ok {s s' : Store} {ud : OrdMap Bytes Bytes} {now : Nat}
    {info : ObjectInfo} (h : putObject K s b o r ud now = (s', .ok info)) :
    ∃ v, currentVersion K s (makeKey b o) = .ok v ∧
      s' = s.insert (makeKey b o) ⟨.json (putObjectMeta o r ud (newVersion v) now), r.stream.data⟩ ∧
      info = ⟨b, o, now, r.size, false, false, r.md5CurrentHexString 1, []⟩ ∧
      r.size = r.stream.data.length ∧ r.size ≤ blockSizeV1 ∧
        checkPutObjectArgs K s b o r.size = none := by
  unfold putObject at h
  cases hargs : checkPutObjectArgs K s b o r.size with
  | some e => simp [hargs] at h
  | none =>
    simp only [hargs] at h
    rcases putObjectBody_cases (K := K) s b o r ud now with ⟨e, he⟩ |
      ⟨v, buf, st, h0, hmax, hv, hbuf, heq⟩
    · rw [he] at h
      cases h
    · obtain ⟨hle, rfl⟩ := readFull_ok hbuf
      have hlen := stream_length_le hle h0
      rw [take_of_length_le (by omega)] at heq
      rw [heq] at h
      cases h
      exact ⟨v, hv, rfl, rfl, hlen.symm, hmax, rfl⟩

theorem putObject_record {s s' : Store} {ud : OrdMap Bytes Bytes}
    {now : Nat} {info : ObjectInfo} (h : putObject K s b o r ud now = (s', .ok info)) :
    ∃ v, s'.get? (makeKey b o) =
        some ⟨.json (putObjectMeta o r ud (newVersion v) now), r.stream.data⟩ ∧
      r.size = r.stream.data.length ∧ r.size ≤ blockSizeV1 ∧
      checkPutObjectArgs K s b o r.size = none := by
  obtain ⟨v, -, rfl, -, hsize, hmax, hargs⟩ := putObject_ok h
  exact ⟨v, OrdMap.get?_insert_self _ _ _, hsize, hmax, hargs⟩

theorem putObjectMeta_size (o : Bytes) (r : PutObjReader) (ud : OrdMap Bytes Bytes) (v : Bytes)
    (now : Nat) : (putObjectMeta o r ud v now).get keySize = formatInt r.size :=
  FsMetaV1.get_set_self _ keySize _

theorem checkBucketAndObjectNames_of_put {s : Store} {size : Int}
    (hbucket : isMinioMetaBucketName b = true ∨ K.checkValidBucketName b = true)
    (h : checkPutObjectArgs K s b o size = none) :
    checkBucketAndObjectNames K b o = none ∧ (hasSuffix o [slash] = true → size = 0) := by
  unfold checkPutObjectArgs at h
  simp only [Option.or_eq_none_iff] at h
  obtain ⟨-, -, h⟩ := h
  split_ifs at h with hbad
  simp only [Bool.or_eq_true, Bool.and_eq_true, decide_eq_true_eq, Bool.not_eq_true',
    not_or, not_and] at hbad
  obtain ⟨⟨hlen, hsize⟩, hpre⟩ := hbad
  constructor
  · unfold checkBucketAndObjectNames
    rw [if_neg (by rcases hbucket with h | h <;> simp [h]), if_neg hlen,
      if_neg (by simpa using hpre)]
  · intro hslash
    simpa using hsize hslash

/-- A GET of what `PutObject` stored returns the bytes of its range for exactly those sequences of
buffers whose every chunk of the range is also a beginning of the range, and only if the metadata
fits 64 KiB. -/
theorem rangeRead_iff {s s' s'' : Store} {b o : Bytes} {r : PutObjReader} {ud : OrdMap Bytes Bytes}
    {now : Nat} {info : ObjectInfo} {rs : Option HTTPRangeSpec} {off len : Int} {sizes : Nat → Nat}
    (kc : Client) (hin : K.PartialGetInside) (hb : b ≠ [])
    (hbucket : isMinioMetaBucketName b = true ∨ K.checkValidBucketName b = true)
    (hud : transformed ud = false) (hput : putObject K s b o r ud now = (s', .ok info))
    (hsame : s''.get? (makeKey b o) = s'.get? (makeKey b o)) (hrs : Accepted rs)
    (hres : getOffsetLength rs r.stream.data.length = .ok (off, len)) (hsizes : ∀ i, 0 < sizes i) :
    GetReturns K s'' kc b o rs sizes (byteRange r.stream.data off len) ↔
      readable K s'' (makeKey b o) = true ∧
        ∀ i, ((byteRange r.stream.data off len).drop (∑ j ∈ Finset.range i, sizes j)).take
          (sizes i) <+:
          byteRange r.stream.data off len := by
  obtain ⟨v, hrec, hsize, hmax, hargs⟩ := putObject_record hput
  obtain ⟨hnames, hslash⟩ := checkBucketAndObjectNames_of_put hbucket hargs
  rw [← hsame] at hrec
  have hbounds := hrs.bounds (by omega) hres
  have hfits : readable K s'' (makeKey b o) = true ↔
      (K.marshal (putObjectMeta o r ud (newVersion v) now)).length ≤ maxMetaBytes := by
    simp [readable, hrec]
  have hparse : parseInt64 ((putObjectMeta o r ud (newVersion v) now).get keySize) =
      ((r.stream.data.length : Int), none) := by
    rw [putObjectMeta_size, hsize]
    unfold blockSizeV1 at hmax
    exact parseInt64_formatInt (by omega) (by omega)
  by_cases hread : readable K s'' (makeKey b o) = true
  swap
  · exact iff_of_false (fun ⟨gr, hgr, _⟩ => hread (readable_of_getObjectNInfo hb hgr)) fun h =>
      hread h.1
  cases hdir : hasSuffix o [slash] with
  | true =>
    -- a name that ends in a slash has no bytes
    have hnil : r.stream.data = [] := length_eq_zero_iff.1 (by have := hslash hdir; omega)
    have hempty : getObjectNInfo K s'' kc b o rs = some (.ok .empty) := by
      unfold getObjectNInfo
      simp [hnames, getObjectMeta_of_fits hb hrec (hfits.1 hread), hdir]
    refine iff_of_true ⟨.empty, hempty, drains_empty_iff.2 (by simp [byteRange, hnil])⟩
      ⟨hread, fun i => ?_⟩
    simp [byteRange, hnil]
  | false =>
    have hopen := getObjectNInfo_eq kc hb hnames hdir hrec (hfits.1 hread)
      (by rw [transformed_putObjectMeta]; exact hud) hparse (by omega) hrs hres
    have hplain : PlainObject K s'' (makeKey b o) (putObjectMeta o r ud (newVersion v) now)
        r.stream.data :=
      ⟨hrec, rfl, hparse, hfits.1 hread⟩
    have hdrain := PlainObject.drains_iff ⟨makeKey b o, kc.nextPartNumber, off.toNat⟩ hplain hin
      (show off.toNat + len.toNat ≤ r.stream.data.length by omega)
      (rfl : byteRange r.stream.data off len = _) hsizes (Nat.zero_le len.toNat)
    simp only [Nat.sub_zero, drop_zero, Nat.zero_add] at hdrain
    unfold GetReturns
    rw [hopen, ← hdrain]
    constructor
    · rintro ⟨gr, heq, hd⟩
      cases heq
      exact ⟨hread, hd⟩
    · rintro ⟨-, hd⟩
      exact ⟨_, rfl, hd⟩

def dataStore : Store := run (memoryDrive []) (initStore (memoryDrive []) id) (onlyObject (lit "o"))

/-- One buffer for all four bytes. -/
theorem rangeRead_dataStore :
    GetReturns (memoryDrive []) dataStore freshClient (lit "bkt") (lit "o") none (fun _ => 4)
      (lit "data") := by
  have hput : putObject (memoryDrive []) (run (memoryDrive []) (initStore (memoryDrive []) id)
      [.makeBucket (lit "bkt") 1]) (lit "bkt") (lit "o")
        (bodyReader (lit "data") (List.replicate 16 7)) ∅ 2 =
      (dataStore, .ok ⟨lit "bkt", lit "o", 2, 4, false, false,
          hexEncode (List.replicate 16 7), []⟩) := by
    refine Prod.ext rfl ?_
    decide
  refine (rangeRead_iff freshClient (memoryDrive_partialGetInside _) (by decide)
    (.inr (by decide)) (by decide) hput rfl accepted_none rfl (fun _ => Nat.succ_pos 3)).2
    ⟨by decide +kernel, ?_⟩
  intro i
  cases i with
  | zero => decide
  | succ i =>
    rw [drop_eq_nil_of_le, take_nil]
    · exact nil_prefix
    · rw [Finset.sum_const, Finset.card_range, smul_eq_mul]
      show 4 ≤ (i + 1) * 4
      omega

/-- With a buffer of two bytes the first two come twice. -/
theorem rangeRead_repeats :
    GetReturns (memoryDrive []) dataStore freshClient (lit "bkt") (lit "o") none (fun _ => 2)
      (lit "dada") ∧
      ¬ GetReturns (memoryDrive []) dataStore freshClient (lit "bkt") (lit "o") none (fun _ => 2)
        (lit "data") := by
  have hread (limit : Nat) (h : limit = 2 ∨ limit = 4) :
      (GetObjectReader.limited ⟨lit "bkt/o", 0, 0⟩ limit).read (memoryDrive []) dataStore 2 =
        (.limited ⟨lit "bkt/o", 0, 0⟩ (limit - 2), .ok (some (lit "da"))) := by
    rcases h with rfl | rfl <;> decide +kernel
  have hget : GetReturns (memoryDrive []) dataStore freshClient (lit "bkt") (lit "o")
    none (fun _ => 2)
      (lit "dada") := by
    have hdata : lit "dada" = lit "da" ++ (lit "da" ++ []) := by decide
    refine ⟨.limited ⟨lit "bkt/o", 0, 0⟩ 4, by decide +kernel, ?_⟩
    rw [hdata]
    exact .read (hread 4 (.inr rfl)) (.read (hread 2 (.inl rfl)) (drains_limit_zero_iff.2 rfl))
  refine ⟨hget, fun h => ?_⟩
  have hne : lit "dada" ≠ lit "data" := by decide
  exact hne (hget.unique h)

end S3Kinetic
