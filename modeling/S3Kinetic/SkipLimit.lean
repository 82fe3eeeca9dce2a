import S3Kinetic.Names

/-!
# Skipping and limiting (`pkg/ioutil/ioutil.go`)

A `LimitWriter` passes on the bytes of its writes from a position on and up to a number of them. A
`SkipReader` reads over the first bytes of a reader into the buffer of the caller. Both count over
the calls, so neither sees how the data are cut.
-/

namespace S3Kinetic.SkipLimit

open List

/-! ## The writer -/

section Writer

variable {σ ε : Type}

structure LimitWriter (σ : Type) where
  writer : σ
  skipBytes : Int
  wLimit : Int

variable (inner : σ → Bytes → (Nat × Option ε) × σ)

/-- A write of the bytes to the writer, in answer to one of `n` bytes. -/
def LimitWriter.pass (w : LimitWriter σ) (n : Nat) (p : Bytes) : (Nat × Option ε) × LimitWriter σ :=
  ((n, (inner w.writer p).1.2), ⟨(inner w.writer p).2, w.skipBytes,
    w.wLimit - (inner w.writer p).1.1⟩)

/-- The part of `Write` behind the skipped bytes; `none` is a slice out of range. -/
def LimitWriter.forward (w : LimitWriter σ) (n : Nat) (p : Bytes) :
    Option ((Nat × Option ε) × LimitWriter σ) :=
  if w.wLimit = 0 then some ((n, none), w)
  else if w.wLimit < p.length then
    if w.wLimit < 0 then none else some (w.pass inner n (p.take w.wLimit.toNat))
  else some (w.pass inner n p)

/-- `LimitWriter.Write`. -/
def LimitWriter.write (w : LimitWriter σ) (p : Bytes) : Option ((Nat × Option ε) × LimitWriter σ) :=
  if 0 < w.skipBytes then
    if (p.length : Int) ≤ w.skipBytes then some ((p.length, none),
      { w with skipBytes := w.skipBytes - p.length })
    else LimitWriter.forward inner { w with skipBytes := 0 } p.length (p.drop w.skipBytes.toNat)
  else w.forward inner p.length p

def LimitWriter.writes (w : LimitWriter σ) :
    List Bytes → Option (List (Nat × Option ε) × LimitWriter σ)
  | [] => some ([], w)
  | p :: ps => do
    let (r, w) ← w.write inner p
    let (rs, w) ← LimitWriter.writes w ps
    return (r :: rs, w)

def NeverFails : Prop := ∀ s p, (inner s p).1 = (p.length, none)

def got (s : σ) (pieces : List Bytes) : σ := pieces.foldl (fun s p => (inner s p).2) s

variable {inner}

theorem LimitWriter.pass_eq (hinner : NeverFails inner) (w : LimitWriter σ) (n : Nat) (p : Bytes) :
    w.pass inner n p = ((n, none), ⟨(inner w.writer p).2, w.skipBytes, w.wLimit - p.length⟩) := by
  rw [LimitWriter.pass, hinner w.writer p]

theorem LimitWriter.forward_spec (hinner : NeverFails inner) (w : LimitWriter σ) (n : Nat)
    (p : Bytes) (hskip : w.skipBytes ≤ 0) (hlimit : 0 ≤ w.wLimit) :
    ∃ pieces w', w.forward inner n p = some ((n, none), w') ∧
      w'.writer = got inner w.writer pieces ∧ 0 ≤ w'.wLimit ∧
      ∀ rest, (p ++ rest).take w.wLimit.toNat = pieces.flatten ++
        (rest.drop w'.skipBytes.toNat).take w'.wLimit.toNat := by
  unfold LimitWriter.forward
  split_ifs with h0 hlt hneg
  · exact ⟨[], w, rfl, rfl, hlimit, by simp [h0]⟩
  · omega
  · -- the limit is reached within the bytes
    have hlen : ((p.take w.wLimit.toNat).length : Int) = w.wLimit := by
      rw [length_take]
      omega
    refine ⟨[p.take w.wLimit.toNat], _, congrArg some (pass_eq hinner ..), rfl, ?_, fun rest => ?_⟩
    · simp only
      omega
    · simp only
      rw [hlen, sub_self, Int.toNat_zero, take_zero, append_nil, flatten_singleton,
        take_append_of_le_length (by omega)]
  · refine ⟨[p], _, congrArg some (pass_eq hinner ..), rfl, ?_, fun rest => ?_⟩
    · simp only
      omega
    · simp only
      rw [Int.toNat_of_nonpos hskip, drop_zero, flatten_singleton, take_append,
        take_of_length_le (by omega)]
      congr 2
      omega

theorem LimitWriter.write_spec (hinner : NeverFails inner) (w : LimitWriter σ)
    (hlimit : 0 ≤ w.wLimit) (p : Bytes) :
    ∃ pieces w', w.write inner p = some ((p.length, none), w') ∧
      w'.writer = got inner w.writer pieces ∧ 0 ≤ w'.wLimit ∧
      ∀ rest, ((p ++ rest).drop w.skipBytes.toNat).take w.wLimit.toNat =
        pieces.flatten ++ (rest.drop w'.skipBytes.toNat).take w'.wLimit.toNat := by
  unfold LimitWriter.write
  split_ifs with hpos hall
  · -- all of it is skipped
    refine ⟨[], _, rfl, rfl, hlimit, fun rest => ?_⟩
    simp only [flatten_nil, nil_append]
    rw [drop_append, drop_eq_nil_of_le (by omega), nil_append]
    congr 2
    omega
  · obtain ⟨pieces, w', hw, hgot, hl, hrange⟩ :=
      forward_spec hinner { w with skipBytes := 0 } p.length (p.drop w.skipBytes.toNat) le_rfl
        hlimit
    refine ⟨pieces, w', hw, hgot, hl, fun rest => ?_⟩
    rw [drop_append_of_le_length (by omega)]
    exact hrange rest
  · have hnone : w.skipBytes ≤ 0 := not_lt.1 hpos
    obtain ⟨pieces, w', hw, hgot, hl, hrange⟩ := forward_spec hinner w p.length p hnone hlimit
    refine ⟨pieces, w', hw, hgot, hl, fun rest => ?_⟩
    rw [Int.toNat_of_nonpos hnone, drop_zero]
    exact hrange rest

theorem LimitWriter.writes_spec (hinner : NeverFails inner) (ps : List Bytes) (w : LimitWriter σ)
    (hlimit : 0 ≤ w.wLimit) :
    ∃ pieces w', w.writes inner ps = some (ps.map fun p => (p.length, none), w') ∧
      w'.writer = got inner w.writer pieces ∧
      pieces.flatten = (ps.flatten.drop w.skipBytes.toNat).take w.wLimit.toNat := by
  induction ps generalizing w with
  | nil => exact ⟨[], w, rfl, rfl, by simp⟩
  | cons p ps ih =>
    obtain ⟨first, w₁, hw, hgot, hl, hrange⟩ := w.write_spec hinner hlimit p
    obtain ⟨later, w₂, hws, hgots, hflat⟩ := ih w₁ hl
    refine ⟨first ++ later, w₂, by simp [LimitWriter.writes, hw, hws], ?_, ?_⟩
    · rw [hgots, hgot, got, got, got, foldl_append]
    · rw [flatten_append, hflat, flatten_cons, hrange]

end Writer

/-! ## The reader -/

/-- A reader of a text. Its next calls return at most as many bytes as `sizes` says, the later ones
as much as fits. The end comes with the last bytes if it is early, or else once the sizes have run
out. -/
structure Source where
  data : Bytes
  sizes : List Nat
  early : Bool

/-- The bytes, whether the end is reported, and the reader after the call. -/
def Source.read (src : Source) (cap : Nat) : Bytes × Bool × Source :=
  match src.sizes with
  | [] => (src.data.take cap, src.data.isEmpty || (src.early && (src.data.drop cap).isEmpty),
    ⟨src.data.drop cap, [], src.early⟩)
  | size :: sizes =>
    (src.data.take (min size cap), src.early && (src.data.drop (min size cap)).isEmpty,
      ⟨src.data.drop (min size cap), sizes, src.early⟩)

def Source.pending (src : Source) : Nat := src.sizes.length + src.data.length

theorem Source.read_spec (src : Source) (cap : Nat) :
    src.data = (src.read cap).1 ++ (src.read cap).2.2.data ∧ (src.read cap).1.length ≤ cap ∧
      ((src.read cap).2.1 = true → (src.read cap).2.2.data = []) := by
  unfold Source.read
  split
  · refine ⟨(take_append_drop ..).symm, length_take_le .., fun h => ?_⟩
    rcases Bool.or_eq_true_iff.1 h with h | h
    · simp [isEmpty_iff.1 h]
    · exact isEmpty_iff.1 (Bool.and_eq_true_iff.1 h).2
  · refine ⟨(take_append_drop ..).symm, (length_take_le ..).trans (min_le_right ..), fun h => ?_⟩
    exact isEmpty_iff.1 (Bool.and_eq_true_iff.1 h).2

theorem Source.pending_read {src : Source} {cap : Nat} (hcap : 0 < cap)
    (h : (src.read cap).2.1 = false) :
    (src.read cap).2.2.pending < src.pending := by
  unfold Source.read at h ⊢
  split at h
  · next hs =>
    have hne : src.data ≠ [] := fun hnil => by simp [hnil] at h
    have := length_pos_iff.2 hne
    simp only [hs, Source.pending, length_drop]
    omega
  · next hs =>
    simp only [hs, Source.pending, length_drop, length_cons]
    omega

structure SkipReader where
  reader : Source
  skipCount : Int

/-- The loop of `SkipReader.Read`: whether the end was met, the bytes left to skip and the
reader. -/
def skipping (src : Source) (skipCount : Int) (l : Nat) (hl : 0 < l) : Bool × Int × Source :=
  if hskip : skipCount ≤ 0 then (false, skipCount, src)
  else
    if h : (src.read (min l skipCount.toNat)).2.1 = true then (true, skipCount,
      (src.read (min l skipCount.toNat)).2.2)
    else
      skipping (src.read (min l skipCount.toNat)).2.2
        (skipCount - (src.read (min l skipCount.toNat)).1.length)
        (min l skipCount.toNat) (by omega)
termination_by src.pending
decreasing_by exact Source.pending_read (by omega) (Bool.eq_false_iff.2 h)

/-- `SkipReader.Read`. -/
def SkipReader.read (r : SkipReader) (cap : Nat) : (Bytes × Bool) × SkipReader :=
  if h : cap = 0 then (([], false), r)
  else
    match skipping r.reader r.skipCount cap (Nat.pos_of_ne_zero h) with
    | (true, skipCount, src) => (([], true), ⟨src, skipCount⟩)
    | (false, skipCount, src) =>
      (((src.read cap).1, (src.read cap).2.1), ⟨(src.read cap).2.2, skipCount⟩)

def SkipReader.reads (r : SkipReader) : List Nat → List (Bytes × Bool)
  | [] => []
  | cap :: caps => (r.read cap).1 :: (r.read cap).2.reads caps

def SkipReader.ahead (r : SkipReader) : Bytes := r.reader.data.drop r.skipCount.toNat

/-- The loop stops behind the skipped bytes, or at the end if there is nothing behind them. -/
theorem skipping_spec (src : Source) (skipCount : Int) (l : Nat) (hl : 0 < l) :
    if (skipping src skipCount l hl).1 then
      src.data.drop skipCount.toNat = [] ∧ (skipping src skipCount l hl).2.2.data = []
    else
      src.data.drop skipCount.toNat = (skipping src skipCount l hl).2.2.data ∧
        (skipping src skipCount l hl).2.1 ≤ 0 ∧
        (skipping src skipCount l hl).2.2.pending ≤ src.pending := by
  fun_induction skipping src skipCount l hl with
  | case1 src skipCount l hl hskip => simp [hskip, Int.toNat_of_nonpos hskip]
  | case2 src skipCount l hl hskip h =>
    obtain ⟨hdata, hlen, hend⟩ := src.read_spec (min l skipCount.toNat)
    have hnil := hend h
    rw [hnil, append_nil] at hdata
    refine ⟨?_, hnil⟩
    rw [hdata]
    exact drop_eq_nil_of_le (hlen.trans (min_le_right ..))
  | case3 src skipCount l hl hskip h ih =>
    obtain ⟨hdata, hlen, -⟩ := src.read_spec (min l skipCount.toNat)
    have hless := Source.pending_read (show 0 < min l skipCount.toNat by omega)
      (Bool.eq_false_iff.2 h)
    have hdrop : src.data.drop skipCount.toNat = (src.read (min l skipCount.toNat)).2.2.data.drop
        (skipCount - ((src.read (min l skipCount.toNat)).1.length : Int)).toNat := by
      conv_lhs => rw [hdata]
      rw [drop_append, drop_eq_nil_of_le (by omega), nil_append]
      congr 1
      omega
    rw [hdrop]
    split_ifs at ih ⊢ with hmet
    · exact ih
    · exact ⟨ih.1, ih.2.1, ih.2.2.trans hless.le⟩

theorem SkipReader.read_spec (r : SkipReader) (cap : Nat) :
    r.ahead = (r.read cap).1.1 ++ (r.read cap).2.ahead ∧
      ((r.read cap).1.2 = true → (r.read cap).2.ahead = []) ∧
      (0 < cap → (r.read cap).1.2 = false → (r.read cap).2.reader.pending < r.reader.pending) := by
  unfold SkipReader.read
  split_ifs with hcap
  · exact ⟨rfl, (fun h => nomatch h), fun h => absurd hcap (Nat.ne_of_gt h)⟩
  have hpos := Nat.pos_of_ne_zero hcap
  have hspec := skipping_spec r.reader r.skipCount cap hpos
  split
  · next skipCount src hs =>
    rw [hs] at hspec
    obtain ⟨hnil, hend⟩ : _ ∧ src.data = [] := hspec
    have hahead : SkipReader.ahead ⟨src, skipCount⟩ = [] := by simp [SkipReader.ahead, hend]
    exact ⟨by rw [hahead]; exact hnil, fun _ => hahead, fun _ h => nomatch h⟩
  · next skipCount src hs =>
    rw [hs] at hspec
    obtain ⟨hdata, hdone, hless⟩ : _ ∧ skipCount ≤ 0 ∧ src.pending ≤ _ := hspec
    obtain ⟨hread, -, hend⟩ := src.read_spec cap
    have hahead : SkipReader.ahead ⟨(src.read cap).2.2, skipCount⟩ = (src.read cap).2.2.data := by
      rw [SkipReader.ahead, Int.toNat_of_nonpos hdone, drop_zero]
    refine ⟨?_, fun h => hahead.trans (hend h),
      fun _ h => (Source.pending_read hpos h).trans_le hless⟩
    rw [hahead]
    exact hdata.trans hread

theorem SkipReader.reads_spec (caps : List Nat) (r : SkipReader) :
    ((r.reads caps).flatMap Prod.fst) <+: r.ahead ∧ ((∃ o ∈ r.reads caps, o.2 = true) →
      (r.reads caps).flatMap Prod.fst = r.ahead) ∧
      ((∀ cap ∈ caps, 0 < cap) → r.reader.pending < caps.length →
        ∃ o ∈ r.reads caps, o.2 = true) := by
  induction caps generalizing r with
  | nil =>
    refine ⟨?_, by simp [SkipReader.reads], by simp⟩
    exact List.nil_prefix
  | cons cap caps ih =>
    obtain ⟨hahead, hend, hless⟩ := r.read_spec cap
    obtain ⟨hpre, hall, hsome⟩ := ih (r.read cap).2
    rw [SkipReader.reads, flatMap_cons]
    refine ⟨?_, fun hex => ?_, fun hpos hlen => ?_⟩
    · rw [hahead]
      exact (prefix_append_right_inj _).2 hpre
    · rw [hahead, append_right_inj]
      rcases (exists_mem_cons_iff ..).1 hex with h | h
      · have hnil := hend h
        rw [hnil] at hpre ⊢
        exact prefix_nil.1 hpre
      · exact hall h
    · obtain ⟨hcap, hcaps⟩ := forall_mem_cons.1 hpos
      rw [exists_mem_cons_iff]
      by_cases h : (r.read cap).1.2 = true
      · exact .inl h
      · have := hless hcap (Bool.eq_false_iff.2 h)
        rw [length_cons] at hlen
        exact .inr (hsome hcaps (by omega))

/-! ## Both -/

theorem skipLimit {σ ε : Type} (inner : σ → Bytes → (Nat × Option ε) × σ)
    (hinner : NeverFails inner) (skip : Int) :
    (∀ limit : Int, 0 ≤ limit → ∀ (s : σ) (ps : List Bytes), ∃ pieces w',
      LimitWriter.writes inner ⟨s, skip, limit⟩ ps = some (ps.map fun p => (p.length, none), w') ∧
        w'.writer = got inner s pieces ∧
        pieces.flatten = (ps.flatten.drop skip.toNat).take limit.toNat) ∧
      ∀ (src : Source) (caps : List Nat),
        ((SkipReader.reads ⟨src, skip⟩ caps).flatMap Prod.fst) <+: src.data.drop skip.toNat ∧
        ((∃ o ∈ SkipReader.reads ⟨src, skip⟩ caps, o.2 = true) →
          (SkipReader.reads ⟨src, skip⟩ caps).flatMap Prod.fst = src.data.drop skip.toNat) ∧
        ((∀ cap ∈ caps, 0 < cap) → src.pending < caps.length →
          ∃ o ∈ SkipReader.reads ⟨src, skip⟩ caps, o.2 = true) :=
  ⟨fun limit hlimit s ps => LimitWriter.writes_spec hinner ps ⟨s, skip, limit⟩ hlimit,
    fun src caps => SkipReader.reads_spec caps ⟨src, skip⟩⟩

def keeping (s p : Bytes) : (Nat × Option Unit) × Bytes := ((p.length, none), s ++ p)

/-- Two writes cut in the middle, and a reader that pauses and reports the end with its last
bytes. -/
theorem skipLimit_middle :
    (∃ pieces w', LimitWriter.writes keeping ⟨[], 2, 3⟩ [ByteString.lit "abc",
      ByteString.lit "def"] = some ([(3, none), (3, none)], w') ∧
      w'.writer = got keeping [] pieces ∧ pieces.flatten = ByteString.lit "cde") ∧
      (SkipReader.reads ⟨⟨ByteString.lit "abcd", [1, 0, 2], true⟩, 2⟩ (replicate 8 3)).flatMap
        Prod.fst = ByteString.lit "cd" := by
  obtain ⟨hwrite, hread⟩ := skipLimit keeping (fun _ _ => rfl) 2
  obtain ⟨-, hall, hend⟩ := hread ⟨ByteString.lit "abcd", [1, 0, 2], true⟩ (replicate 8 3)
  exact ⟨hwrite 3 (by decide) [] [ByteString.lit "abc", ByteString.lit "def"],
    hall (hend (by decide) (by decide))⟩

end S3Kinetic.SkipLimit
