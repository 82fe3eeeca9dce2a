import S3Kinetic.Reading

/-!
# Range headers

RFC 7233 gives `bytes=a-b`, `bytes=a-` and `bytes=-n` their meaning, with numerals of digits only.
`parseRequestRangeSpec` keeps a suffix as a negative start and a missing end as `-1`, and
`GetOffsetLength` resolves that encoding against a size. The parser refuses a plus sign and negative
positions, but reads `-0` as the position zero. `rangeHeader_iff`: apart from headers of that form,
an accepted header selects exactly the bytes of the RFC, for every size and without overflow.
-/

namespace S3Kinetic

open ByteString Decimal List

/-! ## RFC 7233 -/

/-- A byte range of the grammar: `a-b`, `a-` or `-n`. -/
inductive ByteRange where
  | fromTo (a b : Nat)
  | fromOn (a : Nat)
  | suffix (n : Nat)
  deriving DecidableEq

/-- The headers that the grammar derives for a range; a range whose last position is before its
first is not valid. -/
inductive Spells : ByteRange → Bytes → Prop
  | fromTo {a b : Nat} {x y : Bytes} (hx : numeral x = some a) (hy : numeral y = some b)
    (hab : a ≤ b) :
      Spells (.fromTo a b) (byteRangePrefix ++ (x ++ 45 :: y))
  | fromOn {a : Nat} {x : Bytes} (hx : numeral x = some a) :
    Spells (.fromOn a) (byteRangePrefix ++ (x ++ [45]))
  | suffix {n : Nat} {y : Bytes} (hy : numeral y = some n) :
    Spells (.suffix n) (byteRangePrefix ++ 45 :: y)

/-- The byte at position `i` of a resource belongs to the range. -/
def ByteRange.Selects (size i : Nat) : ByteRange → Prop
  | .fromTo a b => a ≤ i ∧ i ≤ b ∧ i < size
  | .fromOn a => a ≤ i ∧ i < size
  | .suffix n => size ≤ i + n ∧ i < size

def ByteRange.Beyond (size : Nat) : ByteRange → Prop
  | .fromTo a _ => size ≤ a
  | .fromOn a => size ≤ a
  | .suffix _ => False

/-! ## 64-bit arithmetic -/

def int64 (n : Int) : Option Int :=
  if -2 ^ 63 ≤ n ∧ n < 2 ^ 63 then some n else none

/-- `GetLength` with every operation checked for overflow. -/
def getLength64 (h : HTTPRangeSpec) (resourceSize : Int) : Option (Except Err Int) :=
  if resourceSize < 0 then some (.error (.errorf (lit "Resource size cannot be negative")))
  else if h.isSuffixLength then do
    let specifiedLen ← int64 (-h.start)
    return .ok (if specifiedLen > resourceSize then resourceSize else specifiedLen)
  else if h.start ≥ resourceSize then some (.error .errInvalidRange)
  else if h.endPos > -1 then do
    let endPos ← if resourceSize ≤ h.endPos then int64 (resourceSize - 1) else some h.endPos
    let distance ← int64 (endPos - h.start)
    let rangeLength ← int64 (distance + 1)
    return .ok rangeLength
  else if h.endPos = -1 then do
    let rangeLength ← int64 (resourceSize - h.start)
    return .ok rangeLength
  else some (.error (.errorf (lit "Unexpected range specification case")))

/-- `GetOffsetLength` with every operation checked for overflow. -/
def getOffsetLength64 (h : HTTPRangeSpec) (resourceSize : Int) : Option (Except Err (Int × Int)) :=
  do
  match ← getLength64 h resourceSize with
  | .error e => return .error e
  | .ok length =>
    if h.isSuffixLength then
      let start ← int64 (resourceSize + h.start)
      return .ok (if start < 0 then 0 else start, length)
    else return .ok (h.start, length)

/-! ## The law -/

/-- The specification resolves as the range does, and nothing overflows on the way. -/
structure Resolves (h : HTTPRangeSpec) (r : ByteRange) (size : Nat) : Prop where
  noOverflow : getOffsetLength64 h size = some (getOffsetLength (some h) size)
  fails : (∃ e, getOffsetLength (some h) size = .error e) ↔ r.Beyond size
  selects : ∀ off len, getOffsetLength (some h) size = .ok (off, len) →
    0 ≤ off ∧ 0 ≤ len ∧ off + len ≤ size ∧ int64 (off + len) = some (off + len) ∧
      ∀ i : Nat, r.Selects size i ↔ off ≤ i ∧ i < off + len

/-- The header is refused, or its specification resolves as the RFC says for every size. -/
def RangeLaw (rangeString : Bytes) : Prop :=
  ∀ h, parseRequestRangeSpec rangeString = .ok h →
    (-2 ^ 63 ≤ h.start ∧ h.start < 2 ^ 63 ∧ -2 ^ 63 ≤ h.endPos ∧ h.endPos < 2 ^ 63) ∧
      ∃ r, Spells r rangeString ∧ ∀ size : Nat, size < 2 ^ 63 → Resolves h r size

/-- The header `bytes=0--0`, with any number of zeros. -/
def minusZero (j k : Nat) : Bytes :=
  byteRangePrefix ++ (List.replicate (j + 1) (digit 0) ++ 45 :: 45 ::
    List.replicate (k + 1) (digit 0))

/-- How the parser keeps a range. -/
def Encodes (h : HTTPRangeSpec) : ByteRange → Prop
  | .fromTo a b => h = ⟨false, a, b⟩ ∧ a ≤ b ∧ b < 2 ^ 63
  | .fromOn a => h = ⟨false, a, -1⟩ ∧ a < 2 ^ 63
  | .suffix n => h = ⟨true, -n, -1⟩ ∧ 0 < n ∧ n < 2 ^ 63

/-! ## The resolver -/

theorem int64_eq {n : Int} (h : -2 ^ 63 ≤ n) (h' : n < 2 ^ 63) : int64 n = some n :=
  if_pos ⟨h, h'⟩

/-- What the resolver returns for a range. -/
def ByteRange.resolved (size : Nat) : ByteRange → Except Err (Int × Int)
  | .fromTo a b =>
    if size ≤ a then .error .errInvalidRange
      else .ok (a, (if size ≤ b then (size : Int) - 1 else b) - a + 1)
  | .fromOn a => if size ≤ a then .error .errInvalidRange else .ok (a, (size : Int) - a)
  | .suffix n => .ok (if size < n then 0 else (size : Int) - n, if size < n then size else n)

variable {h : HTTPRangeSpec} {r : ByteRange}

theorem Encodes.getOffsetLength_eq (henc : Encodes h r) (size : Nat) :
    getOffsetLength (some h) size = r.resolved size := by
  have hneg : ¬ (size : Int) < 0 := by omega
  cases r with
  | fromTo a b =>
    obtain ⟨rfl, -, -⟩ := henc
    have hb : (b : Int) > -1 := by omega
    simp only [getOffsetLength, getLength, ByteRange.resolved, hneg, hb, if_true, if_false,
      Bool.false_eq_true, ge_iff_le, Nat.cast_le]
    by_cases ha : size ≤ a
    · simp only [ha, if_true]
    · simp only [ha, if_false]
  | fromOn a =>
    obtain ⟨rfl, -⟩ := henc
    simp only [getOffsetLength, getLength, ByteRange.resolved, hneg, if_false, Bool.false_eq_true,
      ge_iff_le, Nat.cast_le, gt_iff_lt, lt_irrefl, if_true]
    by_cases ha : size ≤ a
    · simp only [ha, if_true]
    · simp only [ha, if_false]
  | suffix n =>
    obtain ⟨rfl, -, -⟩ := henc
    have hstart : (size : Int) - n < 0 ↔ size < n := by omega
    simp only [getOffsetLength, getLength, ByteRange.resolved, hneg, if_true, if_false, neg_neg,
      gt_iff_lt, Nat.cast_lt, ← Int.sub_eq_add_neg, hstart]

theorem Encodes.getOffsetLength64_eq (henc : Encodes h r) {size : Nat}
    (hsize : size < 2 ^ 63) : getOffsetLength64 h size = some (r.resolved size) := by
  have hneg : ¬ (size : Int) < 0 := by omega
  cases r with
  | fromTo a b =>
    obtain ⟨rfl, hab, hb⟩ := henc
    have hpos : (b : Int) > -1 := by omega
    simp only [getOffsetLength64, getLength64, ByteRange.resolved, hneg, hpos, if_true, if_false,
      Bool.false_eq_true, ge_iff_le, Nat.cast_le]
    by_cases ha : size ≤ a
    · simp [ha]
    · have hlen (e : Int) (hae : a ≤ e) (he : e < 2 ^ 63 - 1) :
          int64 (e - a) = some (e - a) ∧ int64 (e - a + 1) = some (e - a + 1) :=
        ⟨int64_eq (by omega) (by omega), int64_eq (by omega) (by omega)⟩
      -- the end is cut to the last byte, so the length is at most the size
      by_cases hcut : size ≤ b
      · have hend : int64 ((size : Int) - 1) = some ((size : Int) - 1) :=
          int64_eq (by omega) (by omega)
        obtain ⟨hdistance, hlength⟩ := hlen (size - 1) (by omega) (by omega)
        simp [ha, hcut, hend, hdistance, hlength]
      · obtain ⟨hdistance, hlength⟩ := hlen b (by omega) (by omega)
        simp [ha, hcut, hdistance, hlength]
  | fromOn a =>
    obtain ⟨rfl, ha63⟩ := henc
    have hlen : int64 ((size : Int) - a) = some ((size : Int) - a) := int64_eq (by omega) (by omega)
    simp only [getOffsetLength64, getLength64, ByteRange.resolved, hneg, hlen, if_false,
      Bool.false_eq_true, ge_iff_le, Nat.cast_le, gt_iff_lt, lt_irrefl, if_true]
    by_cases ha : size ≤ a
    · simp [ha]
    · simp [ha]
  | suffix n =>
    obtain ⟨rfl, hn, hn63⟩ := henc
    have hlen : int64 (n : Int) = some (n : Int) := int64_eq (by omega) (by omega)
    have hstart : int64 ((size : Int) + -n) = some ((size : Int) - n) := by
      rw [← Int.sub_eq_add_neg]
      exact int64_eq (by omega) (by omega)
    simp [getOffsetLength64, getLength64, ByteRange.resolved, hneg, hlen, hstart]

theorem Encodes.resolves (henc : Encodes h r) {size : Nat} (hsize : size < 2 ^ 63) :
    Resolves h r size := by
  have heq := henc.getOffsetLength_eq size
  refine ⟨heq ▸ henc.getOffsetLength64_eq hsize, ?_, fun off len hres => ?_⟩
  · rw [heq]
    cases r <;> simp only [ByteRange.resolved, ByteRange.Beyond]
    · split_ifs with ha <;> simp [ha]
    · split_ifs with ha <;> simp [ha]
    · simp
  · rw [heq] at hres
    suffices hin : 0 ≤ off ∧ 0 ≤ len ∧ off + len ≤ size ∧ ∀ i : Nat, r.Selects size i ↔
      off ≤ i ∧ i < off + len from
      ⟨hin.1, hin.2.1, hin.2.2.1, int64_eq (by omega) (by omega), hin.2.2.2⟩
    cases r with
    | fromTo a b =>
      obtain ⟨-, hab, -⟩ := henc
      simp only [ByteRange.resolved] at hres
      split_ifs at hres with ha hb <;> cases hres
      · refine ⟨by omega, by omega, by omega, fun i => ?_⟩
        simp only [ByteRange.Selects]
        omega
      · refine ⟨by omega, by omega, by omega, fun i => ?_⟩
        simp only [ByteRange.Selects]
        omega
    | fromOn a =>
      simp only [ByteRange.resolved] at hres
      split_ifs at hres with ha
      cases hres
      refine ⟨by omega, by omega, by omega, fun i => ?_⟩
      simp only [ByteRange.Selects]
      omega
    | suffix n =>
      simp only [ByteRange.resolved] at hres
      split_ifs at hres with hn <;> cases hres
      · refine ⟨by omega, by omega, by omega, fun i => ?_⟩
        simp only [ByteRange.Selects]
        omega
      · refine ⟨by omega, by omega, by omega, fun i => ?_⟩
        simp only [ByteRange.Selects]
        omega

/-! ## The parser -/

variable {rangeString : Bytes}

theorem parseBytePos_ok {offsetString : Bytes} {Which which : String} {n : Int}
    (h : parseBytePos rangeString Which which offsetString = .ok n) :
    (offsetString = [] ∧ n = -1) ∨ (∃ m : Nat, numeral offsetString = some m ∧ n = m ∧ m < 2 ^ 63) ∨
      ∃ k, offsetString = 45 :: List.replicate (k + 1) (digit 0) ∧ n = 0 := by
  unfold parseBytePos at h
  split_ifs at h with hnil hplus
  · cases h
    exact .inl ⟨hnil, rfl⟩
  · right
    have hhead : offsetString.head? ≠ some 43 := by
      intro hhead
      obtain ⟨c, rest, rfl⟩ := exists_cons_of_ne_nil hnil
      rw [List.head?_cons] at hhead
      cases hhead
      exact hplus rfl
    rcases hp : parseInt64 offsetString with ⟨m, _ | e⟩
    · simp only [hp] at h
      split_ifs at h with hneg
      cases h
      have hlt := parseInt64_lt hp
      rcases parseInt64_nonneg hp (by omega) hhead with ⟨m, hm, rfl⟩ | ⟨k, hk, hzero⟩
      · exact .inl ⟨m, hm, rfl, by omega⟩
      · exact .inr ⟨k, hk, hzero⟩
    · simp [hp] at h

variable {s : Bytes}

theorem numeral_some {m : Nat} (h : numeral s = some m) :
    s ≠ [] ∧ (∀ c ∈ s, isDigit c = true) ∧ digitsVal 0 s = m := by
  unfold numeral at h
  split_ifs at h with hs
  exact ⟨hs.1, hs.2, Option.some.inj h⟩

theorem minus_not_mem {m : Nat} (h : numeral s = some m) : (45 : UInt8) ∉ s :=
  fun hmem => absurd ((numeral_some h).2.1 45 hmem) (by decide)

theorem eq_zeros_of_numeral (h : numeral s = some 0) :
    ∃ j, s = List.replicate (j + 1) (digit 0) := by
  obtain ⟨hne, hd, hval⟩ := numeral_some h
  obtain ⟨j, hj⟩ : ∃ j, s.length = j + 1 := Nat.exists_eq_succ_of_ne_zero (by simpa using hne)
  exact ⟨j, hj ▸ eq_zeros_of_digitsVal hd hval⟩

/-- The texts of the two positions. -/
theorem parse_split (hp : parseRequestRangeSpec rangeString = .ok h) :
    ∃ first last, rangeString = byteRangePrefix ++ (first ++ 45 :: last) ∧ 45 ∉ first ∧
      ∃ offsetBegin offsetEnd, parseBytePos rangeString "First" "first" first = .ok offsetBegin ∧
        parseBytePos rangeString "Last" "last" last = .ok offsetEnd ∧
        if offsetBegin > -1 ∧ offsetEnd > -1 then offsetBegin ≤ offsetEnd ∧
          h = ⟨false, offsetBegin, offsetEnd⟩
        else if offsetBegin > -1 then h = ⟨false, offsetBegin, -1⟩
        else offsetEnd > 0 ∧ h = ⟨true, -offsetEnd, -1⟩ := by
  unfold parseRequestRangeSpec at hp
  split_ifs at hp with hpre
  obtain ⟨rest, rfl⟩ : byteRangePrefix <+: rangeString :=
    isPrefixOf_iff_prefix.1 (by simpa [hasPrefix] using hpre)
  rw [drop_left, span_eq_takeWhile_dropWhile] at hp
  have hcut := takeWhile_append_dropWhile (p := fun c : UInt8 => decide (c ≠ 45)) (l := rest)
  have hfirst : ∀ c ∈ rest.takeWhile (· ≠ 45), c ≠ 45 :=
    fun c hc => by simpa using mem_takeWhile_imp hc
  cases hdrop : rest.dropWhile (· ≠ 45) with
  | nil =>
    simp only [hdrop] at hp
    cases hp
  | cons c last =>
    have hc : c = 45 := by
      have hne : rest.dropWhile (· ≠ 45) ≠ [] := by rw [hdrop]; exact cons_ne_nil c last
      have hhead := head_dropWhile_not (fun c : UInt8 => decide (c ≠ 45)) hne
      simp only [hdrop, head_cons] at hhead
      simpa using hhead
    subst hc
    simp only [hdrop] at hp hcut
    refine ⟨rest.takeWhile (· ≠ 45), last, by rw [hcut], fun hmem => hfirst 45 hmem rfl, ?_⟩
    cases hf : parseBytePos (byteRangePrefix ++ rest) "First" "first" (rest.takeWhile (· ≠ 45)) with
    | error e =>
      simp only [hf] at hp
      cases hp
    | ok offsetBegin =>
      cases hl : parseBytePos (byteRangePrefix ++ rest) "Last" "last" last with
      | error e =>
        simp only [hf, hl] at hp
        cases hp
      | ok offsetEnd =>
        simp only [hf, hl] at hp
        refine ⟨offsetBegin, offsetEnd, rfl, rfl, ?_⟩
        split_ifs at hp ⊢ <;> cases hp <;> simp <;> omega

theorem parseRequestRangeSpec_cases
    (hp : parseRequestRangeSpec rangeString = .ok h) :
    (∃ r, Spells r rangeString ∧ Encodes h r) ∨ ∃ j k, rangeString = minusZero j k := by
  obtain ⟨first, last, rfl, hfirst, offsetBegin, offsetEnd, hf, hl, hcase⟩ := parse_split hp
  rcases parseBytePos_ok hf with ⟨rfl, rfl⟩ | ⟨a, ha, rfl, ha63⟩ | ⟨k, rfl, -⟩
  · -- a suffix
    rw [if_neg (by omega), if_neg (by omega)] at hcase
    obtain ⟨hpos, rfl⟩ := hcase
    rcases parseBytePos_ok hl with ⟨rfl, rfl⟩ | ⟨n, hn, rfl, hn63⟩ | ⟨k, rfl, rfl⟩
    · omega
    · exact .inl ⟨.suffix n, .suffix hn, rfl, by omega, hn63⟩
    · omega
  · rcases parseBytePos_ok hl with ⟨rfl, rfl⟩ | ⟨b, hb, rfl, hb63⟩ | ⟨k, rfl, rfl⟩
    · rw [if_neg (by omega), if_pos (by omega)] at hcase
      exact .inl ⟨.fromOn a, .fromOn ha, hcase, ha63⟩
    · rw [if_pos (by omega)] at hcase
      exact .inl ⟨.fromTo a b, .fromTo ha hb (by omega), hcase.2, by omega, hb63⟩
    · rw [if_pos (by omega)] at hcase
      obtain rfl : a = 0 := by omega
      obtain ⟨j, rfl⟩ := eq_zeros_of_numeral ha
      exact .inr ⟨j, k, rfl⟩
  · exact absurd mem_cons_self hfirst

/-! ## A minus sign in front of a zero -/

theorem parseUint_onlyZeros (k : Nat) : parseUint 0 (List.replicate k (digit 0)) = (0, none) := by
  have h := parseUint_zeros k []
  rw [append_nil] at h
  rw [h, parseUint]

theorem parseInt64_zeros (k : Nat) : parseInt64 (List.replicate (k + 1) (digit 0)) = (0, none) :=
  parseInt64_of_parseUint (fun c hc => eq_of_mem_replicate hc ▸ isDigit_digit (by omega)) (by simp)
    (parseUint_onlyZeros (k + 1)) (by decide)

theorem parseInt64_minusZeros (k : Nat) : parseInt64 (45 :: List.replicate (k + 1) (digit 0)) =
    (0, none) := by
  have hu := parseUint_onlyZeros (k + 1)
  have hs : splitSign (45 :: List.replicate (k + 1) (digit 0)) =
    (true, List.replicate (k + 1) (digit 0)) := rfl
  rw [parseInt64, hs]
  simp [hu]

theorem parseRequestRangeSpec_minusZero (j k : Nat) :
    parseRequestRangeSpec (minusZero j k) = .ok ⟨false, 0, 0⟩ := by
  have hdigit : ∀ c ∈ List.replicate (j + 1) (digit 0), decide (c ≠ 45) = true := by
    intro c hc
    rw [eq_of_mem_replicate hc]
    decide
  have hspan : ((minusZero j k).drop byteRangePrefix.length).span (· ≠ 45) =
      (List.replicate (j + 1) (digit 0), 45 :: 45 :: List.replicate (k + 1) (digit 0)) := by
    rw [minusZero, drop_left, span_eq_takeWhile_dropWhile, takeWhile_append_of_pos hdigit,
      dropWhile_append_of_pos hdigit]
    simp
  have hpre : hasPrefix (minusZero j k) byteRangePrefix = true :=
    isPrefixOf_iff_prefix.2 (prefix_append _ _)
  have hfirst : parseBytePos (minusZero j k) "First" "first" (List.replicate (j + 1) (digit 0)) =
      .ok 0 := by
    have hplus : hasPrefix (List.replicate (j + 1) (digit 0)) (lit "+") = false := by
      rw [replicate_succ]
      rfl
    simp [parseBytePos, hplus, parseInt64_zeros]
  have hlast : parseBytePos (minusZero j k) "Last" "last" (45 :: List.replicate (k + 1) (digit 0)) =
      .ok 0 := by
    have hplus : hasPrefix (45 :: List.replicate (k + 1) (digit 0)) (lit "+") = false := rfl
    simp [parseBytePos, hplus, parseInt64_minusZeros]
  rw [parseRequestRangeSpec, hpre]
  simp only [hspan, hfirst, hlast]
  rfl

theorem not_spells_minusZero (j k : Nat) (r : ByteRange) : ¬ Spells r (minusZero j k) := by
  have hcut {x y : Bytes} (hx : (45 : UInt8) ∉ x)
      (h : x ++ 45 :: y = List.replicate (j + 1) (digit 0) ++ 45 :: 45 ::
        List.replicate (k + 1) (digit 0)) :
      y = 45 :: List.replicate (k + 1) (digit 0) := by
    have hz : (45 : UInt8) ∉ List.replicate (j + 1) (digit 0) := fun hmem =>
      absurd (eq_of_mem_replicate hmem) (by decide)
    have hsplit := congrArg (List.splitOn 45) h
    rw [splitOn_append_cons_self_of_not_mem hx, splitOn_append_cons_self_of_not_mem hz] at hsplit
    obtain ⟨rfl, -⟩ := List.cons.inj hsplit
    exact (List.cons.inj (append_cancel_left h)).2
  intro h
  generalize hs : minusZero j k = s at h
  unfold minusZero at hs
  cases h with
  | fromTo hx hy hab =>
    have hy' := hcut (minus_not_mem hx) (append_cancel_left hs).symm
    exact minus_not_mem hy (hy' ▸ mem_cons_self)
  | fromOn hx =>
    have hy' := hcut (minus_not_mem hx) (append_cancel_left hs).symm
    cases hy'
  | suffix hy =>
    have hy' := hcut (x := []) (by simp) (append_cancel_left hs).symm
    exact minus_not_mem hy (hy' ▸ mem_cons_self)

/-! ## The theorem -/

theorem rangeLaw_iff (rangeString : Bytes) :
    RangeLaw rangeString ↔ ¬ ∃ j k, rangeString = minusZero j k := by
  constructor
  · rintro hlaw ⟨j, k, rfl⟩
    obtain ⟨-, r, hr, -⟩ := hlaw _ (parseRequestRangeSpec_minusZero j k)
    exact not_spells_minusZero j k r hr
  · intro hnot h hp
    rcases parseRequestRangeSpec_cases hp with ⟨r, hr, henc⟩ | hodd
    · refine ⟨?_, r, hr, fun size hsize => henc.resolves hsize⟩
      cases r with
      | fromTo a b =>
        obtain ⟨rfl, hab, hb⟩ := henc
        dsimp only
        omega
      | fromOn a =>
        obtain ⟨rfl, ha⟩ := henc
        dsimp only
        omega
      | suffix n =>
        obtain ⟨rfl, hn, hn63⟩ := henc
        dsimp only
        omega
    · exact absurd hodd hnot

theorem getObjectNInfo_ne_invalidRange {K : Kineticd} {s : Store} {kc : Client} {b o : Bytes}
    (hp : parseRequestRangeSpec rangeString = .ok h) (off len size : Int) :
    getObjectNInfo K s kc b o (some h) ≠ some (.error (.invalidRange off len size)) := by
  have haccepted : Accepted (some h) := by
    intro h' hh'
    cases hh'
    exact ⟨rangeString, hp⟩
  unfold getObjectNInfo
  cases hcheck : checkBucketAndObjectNames K b o with
  | some e =>
    unfold checkBucketAndObjectNames at hcheck
    split_ifs at hcheck <;> cases hcheck <;> simp
  | none =>
    cases hmeta : getObjectMeta K s b o with
    | error e =>
      unfold getObjectMeta unmarshalMeta at hmeta
      split at hmeta
      · cases hmeta
        simp [toObjectErr]
      · split at hmeta
        · cases hmeta
          simp [toObjectErr]
        · split_ifs at hmeta
          cases hmeta
          simp [toObjectErr]
    | ok m =>
      dsimp only
      split_ifs with hslash htransformed
      · simp
      · simp
      · cases hres : getOffsetLength (some h) (m.toObjectInfo b o).size with
        | error e =>
          unfold getOffsetLength at hres
          cases hlen : getLength (some h) (m.toObjectInfo b o).size with
          | error e' =>
            simp only [hlen] at hres
            cases hres
            unfold getLength at hlen
            dsimp only at hlen
            split_ifs at hlen <;> cases hlen <;> simp
          | ok length =>
            simp only [hlen] at hres
            cases hres
        | ok range =>
          obtain ⟨off', len'⟩ := range
          have h0 : 0 ≤ (m.toObjectInfo b o).size := by
            by_contra hneg
            simp [getOffsetLength, getLength, not_le.1 hneg] at hres
          have hbounds := haccepted.bounds h0 hres
          dsimp only
          rw [if_neg (by omega)]
          simp

/-- A header selects the bytes of the RFC, for every size and with no overflow, exactly if it is not
`0--0`; and no accepted header brings a read of a plain object to the branch that returns with the
lock held. -/
theorem rangeHeader_iff (rangeString : Bytes) :
    (RangeLaw rangeString ↔ ¬ ∃ j k, rangeString = minusZero j k) ∧
      ∀ h, parseRequestRangeSpec rangeString = .ok h →
        ∀ (K : Kineticd) (s : Store) (kc : Client) (b o : Bytes)
        (off len size : Int), getObjectNInfo K s kc b o (some h) ≠ some
          (.error (.invalidRange off len size)) :=
  ⟨rangeLaw_iff rangeString, fun _ hp _ _ _ _ _ off len size => getObjectNInfo_ne_invalidRange
    hp off len size⟩

/-- `-0` is read as the last position zero. -/
theorem rangeHeader_minusZero :
    parseRequestRangeSpec (lit "bytes=0--0") = .ok ⟨false, 0, 0⟩ ∧
      ¬ RangeLaw (lit "bytes=0--0") := by
  have hodd : lit "bytes=0--0" = minusZero 0 0 := by decide
  rw [hodd, rangeLaw_iff]
  exact ⟨parseRequestRangeSpec_minusZero 0 0, fun h => h ⟨0, 0, rfl⟩⟩

end S3Kinetic
