import S3Kinetic.PartReads

/-!
# `GetObject`

`getObject` tests its range against the value under the object's key and then writes the whole
value. So it serves the range `[0, size)` of an object without parts, and of an object with parts,
whose own value is empty, the empty range at the start (`getObject_slice_iff`). The sum of offset
and length wraps, and the value is read into a buffer of fixed size.
-/

namespace S3Kinetic

open ByteString

section Model

variable (K : Kineticd) (s : Store)

/-- The buffer that `CGet` makes for a value of unknown size. -/
def getBufSize : Nat := 5 * 1024 * 1024 + 2 * 4096

/-- `getObject`: what it writes, and its error. There is no result when the value runs over the end
of its buffer. -/
def getObject (bucket object : Bytes) (offset length : Int) : Option (Bytes × Option Err) :=
  match statBucketDir K s bucket with
  | some e => some ([], some (toObjectErr e [bucket]))
  | none =>
    if offset < 0 then some ([], some (toObjectErr .errUnexpected [bucket, object]))
    else if hasSuffix object [slash] then some ([], none)
    else
      match cGet K s (makeKey bucket object) (-1) 0 (-1) with
      | .error _ => some ([], some (toObjectErr .errFileNotFound [bucket, object]))
      | .ok value =>
        if getBufSize < value.length then none
        else
          let length := if length < 0 then (value.length : Int) - offset else length
          if offset > value.length ∨ wrap64 (offset + length) > value.length then
            some ([], some (.invalidRange offset length value.length))
          else some (value, none)

/-- `GetObject`. -/
def KineticObjects.getObject (bucket object : Bytes) (offset length : Int) :
    Option (Bytes × Option Err) :=
  match checkBucketAndObjectNames K bucket object with
  | some e => some ([], some e)
  | none => S3Kinetic.getObject K s bucket object offset length

end Model

/-! ## What is asked for -/

def requested (size offset length : Int) : Int := if length < 0 then size - offset else length

def RangeInside (size offset length : Int) : Prop :=
  offset ≤ size ∧ offset + requested size offset length ≤ size

/-- `GetObject` on an object with content `d` writes the bytes of a range inside the content, and
refuses any other range. -/
def GetObjectLaw (K : Kineticd) (s : Store) (b o d : Bytes) (offset length : Int) : Prop :=
  (RangeInside d.length offset length →
    KineticObjects.getObject K s b o offset length =
      some (byteRange d offset (requested d.length offset length), none)) ∧
  (¬ RangeInside d.length offset length →
    ∃ off len size, KineticObjects.getObject K s b o offset length =
      some ([], some (.invalidRange off len size)))

variable {K : Kineticd} {s : Store} {b o d : Bytes} {m : FsMetaV1} {offset length : Int}

theorem byteRange_eq_self_iff {n : Int} (hoff : 0 ≤ offset) (hn : 0 ≤ n)
    (hin : offset + n ≤ d.length) :
    byteRange d offset n = d ↔ offset = 0 ∧ n = d.length := by
  unfold byteRange
  constructor
  · intro h
    have hlen := congrArg List.length h
    rw [List.length_take, List.length_drop] at hlen
    omega
  · rintro ⟨rfl, rfl⟩
    simp

theorem byteRange_eq_nil_iff {n : Int} (hoff : 0 ≤ offset) (hn : 0 ≤ n)
    (hin : offset + n ≤ d.length) :
    byteRange d offset n = [] ↔ n = 0 := by
  unfold byteRange
  rw [← List.length_eq_zero_iff, List.length_take, List.length_drop]
  omega

theorem requested_nonneg {size : Int} (hin : RangeInside size offset length) :
    0 ≤ requested size offset length := by
  obtain ⟨hle, -⟩ := hin
  unfold requested
  split_ifs <;> omega

theorem wrap64_add (h0 : 0 ≤ offset) (h63 : offset < 2 ^ 63) (hlen : -2 ^ 63 ≤ length)
    (hlen' : length < 2 ^ 63) :
    wrap64 (offset + length) = if offset + length < 2 ^ 63 then offset + length
      else offset + length - 2 ^ 64 := by
  unfold wrap64
  split_ifs with hlt
  · exact Int.bmod_eq_of_le (by omega) (by omega)
  · rw [← Int.sub_bmod_right]
    exact Int.bmod_eq_of_le (by omega) (by omega)

theorem refused_iff {size : Int} (h0 : 0 ≤ offset) (h63 : offset < 2 ^ 63) (hlen : length < 2 ^ 63)
    (hsize : size < 2 ^ 63) :
    (offset > size ∨ wrap64 (offset + requested size offset length) > size) ↔
      offset > size ∨ 0 ≤ length ∧ offset + length > size ∧ offset + length < 2 ^ 63 := by
  unfold requested
  by_cases hneg : length < 0
  · rw [if_pos hneg]
    refine or_congr_right' fun hle => ?_
    rw [wrap64_add h0 h63 (by omega) (by omega)]
    split_ifs <;> omega
  · rw [if_neg hneg, wrap64_add h0 h63 (by omega) hlen]
    split_ifs <;> omega

theorem MultipartObject.flatten_length_pos {k : Bytes} {contents : List Bytes}
    (h : MultipartObject s k m contents) :
    0 < contents.flatten.length := by
  obtain ⟨c, rest, rfl⟩ := List.exists_cons_of_ne_nil h.nonempty
  obtain ⟨p, -, -, -, hne⟩ := Forall₂.getElem?_right h.parts (j := 0) rfl
  rw [List.flatten_cons, List.length_append]
  have := List.length_pos_iff.2 hne
  omega

/-! ## One call -/

section Call

variable (hnames : checkBucketAndObjectNames K b o = none) (hstat : statBucketDir K s b = none)
    (hoff : 0 ≤ offset)

include hnames hstat hoff

theorem getObject_dir (hdir : hasSuffix o [slash] = true) :
    KineticObjects.getObject K s b o offset length = some ([], none) := by
  unfold KineticObjects.getObject getObject
  simp only [hnames, hstat, if_neg (show ¬ offset < 0 by omega), if_pos hdir]

/-- Against the value under its key, a range is refused, or the whole value is written. -/
theorem getObject_value {value : Bytes} (hdir : hasSuffix o [slash] = false)
    (hrec : s.get? (makeKey b o) = some ⟨.json m, value⟩) :
    KineticObjects.getObject K s b o offset length =
      if getBufSize < value.length then none
      else if offset > value.length ∨ wrap64 (offset + requested value.length offset length) >
        value.length then
        some ([], some (.invalidRange offset (requested value.length offset length) value.length))
      else some (value, none) := by
  unfold KineticObjects.getObject getObject requested
  simp only [hnames, hstat, if_neg (show ¬ offset < 0 by omega), hdir, Bool.false_eq_true, if_false,
    cGet_unknown, hrec]

theorem getObjectLaw_dir_iff (hdir : hasSuffix o [slash] = true) :
    GetObjectLaw K s b o d offset length ↔
      RangeInside d.length offset length ∧ requested d.length offset length = 0 := by
  unfold GetObjectLaw
  rw [getObject_dir hnames hstat hoff hdir]
  by_cases hin : RangeInside d.length offset length
  · have hnil := byteRange_eq_nil_iff hoff (requested_nonneg hin) hin.2
    simp only [hin, true_imp_iff, not_true, false_imp_iff, and_true, true_and, Option.some.injEq,
      Prod.mk.injEq, eq_comm (a := ([] : Bytes)), hnil]
  · simp [hin]

theorem getObjectLaw_value_iff {value : Bytes} (hdir : hasSuffix o [slash] = false)
    (hrec : s.get? (makeKey b o) = some ⟨.json m, value⟩) :
    GetObjectLaw K s b o d offset length ↔
      value.length ≤ getBufSize ∧
      (RangeInside d.length offset length →
        ¬ (offset > value.length ∨ wrap64 (offset + requested value.length offset length) >
          value.length) ∧
          value = byteRange d offset (requested d.length offset length)) ∧
      (¬ RangeInside d.length offset length →
        offset > value.length ∨ wrap64 (offset + requested value.length offset length) >
          value.length) := by
  unfold GetObjectLaw
  rw [getObject_value hnames hstat hoff hdir hrec]
  by_cases hbuf : getBufSize < value.length
  · by_cases hin : RangeInside d.length offset length <;> simp [hbuf, hin]
  · rw [if_neg hbuf]
    split_ifs with hrej
    · by_cases hin : RangeInside d.length offset length <;> simp [hin, hrej, not_lt.1 hbuf]
    · by_cases hin : RangeInside d.length offset length <;> simp [hin, hrej, not_lt.1 hbuf]

end Call

/-- `GetObject` obeys the law on an object without parts exactly for the range of all bytes and for
ranges that it can tell to be outside, and on an object with parts exactly for the empty range at
the start and for all ranges outside. -/
theorem getObject_slice_iff (hnames : checkBucketAndObjectNames K b o = none)
    (hstat : statBucketDir K s b = none)
    (hoff : 0 ≤ offset) (hoff' : offset < 2 ^ 63) (hlen : -2 ^ 63 ≤ length)
    (hlen' : length < 2 ^ 63) :
    (∀ m d, s.get? (makeKey b o) = some ⟨.json m, d⟩ → m.parts = [] →
      (GetObjectLaw K s b o d offset length ↔
        if hasSuffix o [slash] then RangeInside d.length offset length ∧
          requested d.length offset length = 0
        else d.length ≤ getBufSize ∧
          (offset = 0 ∧ (length < 0 ∨ length = d.length) ∨ offset > d.length ∨
            0 ≤ length ∧ offset + length > d.length ∧ offset + length < 2 ^ 63))) ∧
    (∀ m contents, MultipartObject s (makeKey b o) m contents →
      s.get? (makeKey b o) = some ⟨.json m, []⟩ →
      (GetObjectLaw K s b o contents.flatten offset length ↔
        if hasSuffix o [slash] then
          RangeInside contents.flatten.length offset length ∧
            requested contents.flatten.length offset length = 0
        else RangeInside contents.flatten.length offset length → offset = 0 ∧ length = 0)) := by
  cases hdir : hasSuffix o [slash] with
  | true =>
    exact ⟨fun m d _ _ => getObjectLaw_dir_iff hnames hstat hoff hdir,
      fun m contents _ _ => getObjectLaw_dir_iff hnames hstat hoff hdir⟩
  | false =>
    simp only [Bool.false_eq_true, if_false]
    constructor
    · intro m d hrec _
      rw [getObjectLaw_value_iff hnames hstat hoff hdir hrec]
      refine and_congr_right fun hbuf => ?_
      have hsmall : (d.length : Int) < 2 ^ 63 := by
        unfold getBufSize at hbuf
        omega
      rw [refused_iff hoff hoff' hlen' hsmall]
      by_cases hin : RangeInside d.length offset length
      · have hself := byteRange_eq_self_iff hoff (requested_nonneg hin) hin.2
        simp only [hin, true_imp_iff, not_true, false_imp_iff, and_true, eq_comm (a := d), hself]
        unfold RangeInside requested at hin
        unfold requested
        split_ifs at hin ⊢ <;> omega
      · simp only [hin, false_imp_iff, not_false_eq_true, true_imp_iff, true_and]
        unfold RangeInside requested at hin
        split_ifs at hin <;> omega
    · intro m contents hobj hrec
      rw [getObjectLaw_value_iff hnames hstat hoff hdir hrec, List.length_nil,
        and_iff_right (Nat.zero_le _)]
      have hpos := hobj.flatten_length_pos
      rw [show ((0 : Nat) : Int) = 0 from rfl, refused_iff hoff hoff' hlen' (by omega)]
      by_cases hin : RangeInside contents.flatten.length offset length
      · have hnil := byteRange_eq_nil_iff hoff (requested_nonneg hin) hin.2
        simp only [hin, true_imp_iff, not_true, false_imp_iff, and_true,
          eq_comm (a := ([] : Bytes)), hnil]
        unfold RangeInside requested at hin
        unfold requested
        split_ifs at hin ⊢ <;> omega
      · simp only [hin, false_imp_iff, not_false_eq_true, true_imp_iff, true_and, iff_true]
        unfold RangeInside requested at hin
        split_ifs at hin <;> omega

/-- A bucket with the object `data`. -/
def slicedStore : Store :=
  run (memoryDrive []) (initStore (memoryDrive []) id) (onlyObject (lit "a"))

theorem getObject_slice_whole :
    GetObjectLaw (memoryDrive []) slicedStore (lit "bkt") (lit "a") (lit "data") 0 (-1) := by
  obtain ⟨m, hrec, hparts⟩ : ∃ m, slicedStore.get? (makeKey (lit "bkt") (lit "a")) = some ⟨.json m,
      lit "data"⟩ ∧ m.parts = [] :=
    ⟨putObjectMeta (lit "a") (bodyReader (lit "data") (List.replicate 16 7)) ∅ (newVersion [])
      2, by decide +kernel, by decide +kernel⟩
  refine ((getObject_slice_iff (by decide +kernel) (by decide +kernel) le_rfl (by decide)
    (by decide) (by decide)).1 m
    (lit "data") hrec hparts).2 ?_
  rw [if_neg (by decide)]
  exact ⟨by decide, .inl ⟨rfl, .inl (by decide)⟩⟩

/-- The second byte of an object is asked for, and the whole object is written. -/
theorem getObject_writes_whole :
    Reachable (memoryDrive []) slicedStore ∧
      KineticObjects.getObject (memoryDrive []) slicedStore (lit "bkt") (lit "a") 1 1 =
        some (lit "data", none) ∧
      byteRange (lit "data") 1 1 = lit "a" ∧
      ¬ GetObjectLaw (memoryDrive []) slicedStore (lit "bkt") (lit "a") (lit "data") 1 1 := by
  have hget : KineticObjects.getObject (memoryDrive []) slicedStore (lit "bkt") (lit "a") 1 1 =
      some (lit "data", none) := by
    decide +kernel
  refine ⟨⟨id, _, rfl⟩, hget, by decide, fun hlaw => ?_⟩
  have hslice := hlaw.1 ⟨by decide, by decide⟩
  rw [hget] at hslice
  exact absurd hslice (by decide)

end S3Kinetic
