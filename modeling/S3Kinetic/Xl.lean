import S3Kinetic.Lib.ByteString
import S3Kinetic.Lib.Quorum
import S3Kinetic.QuorumErrs

/-!
# Erasure coded objects: which metadata a read takes

Every disk keeps an `xl.json` with the modification time of its object. A read collects them all,
checks that enough disks answered, takes the most frequent modification time, and returns one of the
metadata that have it. Errors and times are reduced as in `QuorumErrs`, and all times are UTC. A
range over a Go map visits the keys in any order; `MapOrder` gives that order.
-/

namespace S3Kinetic.Xl

open ByteString Counts Quorum List

/-! ## Errors -/

inductive StorageErr where
  | errDiskNotFound | errFaultyDisk | errFaultyRemoteDisk | errDiskAccessDenied | errFileNotFound
  | errVolumeNotFound | errFileAccessDenied | errCorruptedFormat
  | other (code : Nat)
  deriving DecidableEq

def objectOpIgnoredErrs : List StorageErr :=
  [.errDiskNotFound, .errFaultyDisk, .errFaultyRemoteDisk, .errDiskAccessDenied]

instance storageErrGoError : QuorumErrs.GoError StorageErr := ⟨fun err target => err = target⟩

abbrev Time := QuorumErrs.Time

/-- The orders in which maps are ranged over. -/
structure MapOrder where
  errs : List (Option StorageErr) → List (Option StorageErr)
  times : List Time → List Time
  hashes : List Bytes → List Bytes
  errs_perm : ∀ l, (errs l).Perm l
  times_perm : ∀ l, (times l).Perm l
  hashes_perm : ∀ l, (hashes l).Perm l

def plainOrder : MapOrder := ⟨id, id, id, fun _ => .refl _, fun _ => .refl _, fun _ => .refl _⟩

def countedErrs (errs : List (Option StorageErr)) (ignored : List StorageErr) :
    List (Option StorageErr) :=
  QuorumErrs.counted errs (ignored.map some)

def reduceErrs (R : MapOrder) (errs : List (Option StorageErr)) (ignored : List StorageErr) :
    Nat × Option StorageErr :=
  QuorumErrs.reduceErrs errs (ignored.map some)
    (.ofOrder (R.errs_perm (countedErrs errs ignored).dedup))

inductive Reduced where
  | nil
  | err (e : StorageErr)
  | quorumErr
  deriving DecidableEq

/-- `reduceReadQuorumErrs` and `reduceWriteQuorumErrs`. -/
def reduceQuorumErrs (R : MapOrder) (errs : List (Option StorageErr)) (ignored : List StorageErr)
    (quorum : Nat) : Reduced :=
  match reduceErrs R errs ignored with
  | (maxCount, maxErr) => if quorum ≤ maxCount then maxErr.elim .nil .err else .quorumErr

/-! ## Metadata -/

def timeSentinel : Int := QuorumErrs.timeSentinel.instant

def zeroTime : Int := QuorumErrs.zeroTime.instant

structure XlMeta where
  modTime : Int
  dataBlocks : Nat
  parityBlocks : Nat
  index : Nat
  parts : List Nat
  deriving DecidableEq

def XlMeta.zero : XlMeta := ⟨zeroTime, 0, 0, 0, []⟩

def XlMeta.isValid (m : XlMeta) : Bool :=
  m.parityBlocks ≤ m.dataBlocks ∧ m.dataBlocks ≠ 0 ∧ m.parityBlocks ≠ 0

section Reads

variable {n : Nat} (R : MapOrder) (metaArr : Fin n → XlMeta) (errs : Fin n → Option StorageErr)

def slice {α : Type} (a : Fin n → α) : List α := (List.finRange n).map a

def listObjectModtimes : Fin n → Int := fun i => if errs i = none then (metaArr i).modTime
    else timeSentinel

def utc (t : Int) : Time := ⟨t, 0⟩

/-- The most frequent time, the latest of them if there are several, and how often it occurs. -/
def commonTime (R : MapOrder) (modTimes : List Int) : Int × Nat :=
  let r := QuorumErrs.commonTime (modTimes.map utc)
    (.ofOrder (R.times_perm (QuorumErrs.found (modTimes.map utc)).dedup))
  (r.1.instant, r.2)

/-- `listOnlineDisks`: which disks are online, and the time. -/
def listOnlineDisks : (Fin n → Bool) × Int :=
  let modTimes := listObjectModtimes metaArr errs
  let modTime := (commonTime R (slice modTimes)).1
  (fun i => modTimes i = modTime, modTime)

inductive ReadErr where
  | storage (e : StorageErr)
  | errXLReadQuorum
  deriving DecidableEq

def getLatestXLMeta : Except ReadErr XlMeta :=
  match reduceQuorumErrs R (slice errs) objectOpIgnoredErrs (n / 2) with
  | .err e => .error (.storage e)
  | .quorumErr => .error .errXLReadQuorum
  | .nil =>
    let modTimes := listObjectModtimes metaArr errs
    let modTime := (commonTime R (slice modTimes)).1
    let latest := (List.finRange n).filter fun i => modTimes i = modTime ∧ (metaArr i).isValid
    if latest.length < n / 2 then .error .errXLReadQuorum
    else .ok ((latest.getLast?.map metaArr).getD .zero)

def objectQuorumFromMeta : Except ReadErr (Nat × Nat) :=
  (getLatestXLMeta R metaArr errs).map fun latest => (latest.dataBlocks, latest.dataBlocks + 1)

/-- `getXLMetaInQuorum`; `hash` is the digest of a list of part numbers, and `none` stands for the
empty string of a disk that does not count. -/
def pickValidXLMeta (hash : List Nat → Bytes) (modTime : Int) (quorum : Nat) :
    Except ReadErr XlMeta :=
  let metaHashes : Fin n → Option Bytes := fun i =>
    if (metaArr i).isValid ∧ (metaArr i).modTime = modTime then some (hash (metaArr i).parts)
      else none
  let counted := (List.finRange n).filterMap metaHashes
  let (maxHash, maxCount) := (R.hashes counted.dedup).foldl
    (fun (maxHash, maxCount) h => if maxCount < counted.count h then (some h, counted.count h)
      else (maxHash, maxCount))
    ((none : Option Bytes), 0)
  if maxCount < quorum then .error .errXLReadQuorum
  else
    match (List.finRange n).find? fun i => metaHashes i = maxHash with
    | some i => .ok (metaArr i)
    | none => .error .errXLReadQuorum

end Reads

/-! ## Reductions -/

section Reduce

variable (R : MapOrder) {errs : List (Option StorageErr)} {ignored : List StorageErr} {quorum : Nat}

theorem reduceQuorumErrs_def : reduceQuorumErrs R errs ignored quorum =
    if quorum ≤ (reduceErrs R errs ignored).1 then (reduceErrs R errs ignored).2.elim .nil .err
      else .quorumErr := rfl

theorem reduceQuorumErrs_eq_nil (hq : 0 < quorum) :
    reduceQuorumErrs R errs ignored quorum = .nil ↔
      quorum ≤ (countedErrs errs ignored).count none ∧
        ∀ e, (countedErrs errs ignored).count e ≤ (countedErrs errs ignored).count none := by
  have hle : ∀ e, (countedErrs errs ignored).count e ≤ (reduceErrs R errs ignored).1 :=
    QuorumErrs.count_le_reduceErrs (.ofOrder (R.errs_perm _))
  rw [reduceQuorumErrs_def]
  split_ifs with hmax
  · have hpos := hq.trans_le hmax
    have hnil : (reduceErrs R errs ignored).2 = none ↔ _ :=
      QuorumErrs.reduceErrs_eq_none_iff (.ofOrder (R.errs_perm _)) hpos
    have hcount : (countedErrs errs ignored).count (reduceErrs R errs ignored).2 =
        (reduceErrs R errs ignored).1 :=
      QuorumErrs.count_reduceErrs (.ofOrder (R.errs_perm _)) hpos
    cases he : (reduceErrs R errs ignored).2 with
    | none =>
      rw [he] at hcount
      exact iff_of_true rfl ⟨hcount ▸ hmax, hnil.1 he⟩
    | some e =>
      refine iff_of_false nofun fun h => ?_
      rw [hnil.2 h.2] at he
      cases he
  · exact iff_of_false nofun fun h => hmax (h.1.trans (hle none))

/-- With a majority for a quorum. -/
theorem reduceQuorumErrs_of_majority (ignored : List StorageErr) (hq : errs.length < 2 * quorum) :
    (reduceQuorumErrs R errs ignored quorum = .nil ↔
      quorum ≤ (countedErrs errs ignored).count none) ∧
      (reduceQuorumErrs R errs ignored quorum = .quorumErr ↔
        ∀ e, (countedErrs errs ignored).count e < quorum) := by
  have hlen : (countedErrs errs ignored).length < 2 * quorum := (length_filter_le _ _).trans_lt hq
  have hle : ∀ e, (countedErrs errs ignored).count e ≤ (reduceErrs R errs ignored).1 :=
    QuorumErrs.count_le_reduceErrs (.ofOrder (R.errs_perm _))
  have hpos : 0 < quorum := by omega
  constructor
  · rw [reduceQuorumErrs_eq_nil R hpos]
    refine and_iff_left_of_imp fun h e => ?_
    by_contra hlt
    have he : quorum ≤ (countedErrs errs ignored).count e := by omega
    exact hlt (by rw [eq_of_majority hlen he h])
  · rw [reduceQuorumErrs_def]
    split_ifs with hmax
    · have hcount : (countedErrs errs ignored).count (reduceErrs R errs ignored).2 =
          (reduceErrs R errs ignored).1 :=
        QuorumErrs.count_reduceErrs (.ofOrder (R.errs_perm _)) (hpos.trans_le hmax)
      refine iff_of_false ?_ fun h => absurd (h (reduceErrs R errs ignored).2) (by omega)
      cases (reduceErrs R errs ignored).2 <;> nofun
    · exact iff_of_true rfl fun e => (hle e).trans_lt (not_le.1 hmax)

end Reduce

/-! ## The most frequent time -/

/-- `t` occurs more often than every other element, or as often as later ones do not. -/
def IsCommon (l : List Int) (t : Int) : Prop :=
  t ∈ l ∧ ∀ t' ∈ l, l.count t' < l.count t ∨ (l.count t' = l.count t ∧ t' ≤ t)

theorem IsCommon.unique {l : List Int} {t t' : Int} (h : IsCommon l t) (h' : IsCommon l t') :
    t = t' := by
  rcases h.2 t' h'.1 with h1 | ⟨h1, h2⟩ <;> rcases h'.2 t h.1 with h3 | ⟨h3, h4⟩ <;> omega

section CommonTime

variable {n : Nat} (R : MapOrder)

def countedTimes (modTimes : List Int) : List Int := modTimes.filter fun t => t ≠ timeSentinel

theorem utc_injective : Function.Injective utc := fun _ _ h => congrArg QuorumErrs.Time.instant h

theorem found_map_utc (modTimes : List Int) :
    QuorumErrs.found (modTimes.map utc) = (countedTimes modTimes).map utc := by
  rw [QuorumErrs.found, countedTimes, filter_map]
  congr 1
  refine filter_congr fun t _ => decide_eq_decide.2 (not_congr ?_)
  exact utc_injective.eq_iff (b := timeSentinel)

theorem commonTime_spec (modTimes : List Int) :
    (countedTimes modTimes = [] ∧ commonTime R modTimes = (zeroTime, 0)) ∨
      IsCommon (countedTimes modTimes) (commonTime R modTimes).1 := by
  let it : Iteration (QuorumErrs.timeOccurenceMap (modTimes.map utc)) := .ofOrder (R.times_perm _)
  have hdef : commonTime R modTimes =
      ((QuorumErrs.commonTime (modTimes.map utc) it).1.instant,
        (QuorumErrs.commonTime (modTimes.map utc) it).2) := rfl
  by_cases hnil : countedTimes modTimes = []
  · have hfound : QuorumErrs.found (modTimes.map utc) = [] := by rw [found_map_utc, hnil, map_nil]
    exact .inl ⟨hnil, by rw [hdef, QuorumErrs.commonTime_of_nil it hfound]; rfl⟩
  · have h := QuorumErrs.commonTime_isCommon it (by simpa [found_map_utc] using hnil)
    have hcount : ∀ t, (QuorumErrs.found (modTimes.map utc)).count (utc t) =
        (countedTimes modTimes).count t := fun t => by
      rw [found_map_utc, count_map_of_injective _ _ utc_injective]
    have hmem := h.mem
    rw [found_map_utc] at hmem
    obtain ⟨t, ht, heq⟩ := mem_map.1 hmem
    rw [hdef, ← heq]
    refine .inr ⟨ht, fun t' _ => ?_⟩
    have hmost := h.most (utc t')
    have hlatest := h.latest (utc t')
    rw [← h.count, ← heq, hcount, hcount] at hmost hlatest
    exact hmost.lt_or_eq.imp id fun he => ⟨he, hlatest he⟩

theorem commonTime_ne_sentinel (modTimes : List Int) :
    (commonTime R modTimes).1 ≠ timeSentinel := by
  rcases commonTime_spec R modTimes with ⟨-, h⟩ | h
  · rw [h]
    decide
  · simpa using (mem_filter.1 h.1).2

theorem commonTime_order (R R' : MapOrder) (modTimes : List Int) :
    (commonTime R modTimes).1 = (commonTime R' modTimes).1 := by
  rcases commonTime_spec R modTimes with ⟨h0, h⟩ | h <;> rcases commonTime_spec R' modTimes
    with ⟨h0', h'⟩ | h'
  · rw [h, h']
  · rw [h0] at h'
    cases h'.1
  · rw [h0'] at h
    cases h.1
  · exact h.unique h'

end CommonTime

/-! ## Counts over the disks -/

section Counts

variable {n : Nat}

theorem count_slice {α : Type} [DecidableEq α] [BEq α] [LawfulBEq α] (a : Fin n → α) (x : α) :
    (slice a).count x = tally fun i => a i = x := by
  rw [slice, List.count, countP_map]
  exact countP_congr fun i _ => by simp

theorem count_countedErrs {errs : Fin n → Option StorageErr} {ignored : List StorageErr}
    {e : Option StorageErr} (he : QuorumErrs.isErrIgnored e (ignored.map some) = false) :
    (countedErrs (slice errs) ignored).count e = tally fun i => errs i = e := by
  rw [countedErrs, QuorumErrs.counted, count_filter (by simpa using he), count_slice]

theorem isErrIgnored_some {ignored : List StorageErr} {e : StorageErr} :
    QuorumErrs.isErrIgnored (some e) (ignored.map some) = true ↔ e ∈ ignored := by
  simp [QuorumErrs.isErrIgnored, QuorumErrs.isErr, QuorumErrs.errorsIs, QuorumErrs.GoError.is]

theorem count_countedErrs_some {ignored : List StorageErr} {e : StorageErr}
    (errs : Fin n → Option StorageErr) :
    (countedErrs (slice errs) ignored).count (some e) = if e ∈ ignored then 0
      else tally fun i => errs i = some e := by
  split_ifs with he
  · refine count_eq_zero.2 fun hmem => ?_
    have := (mem_filter.1 hmem).2
    rw [isErrIgnored_some.2 he] at this
    cases this
  · exact count_countedErrs (Bool.eq_false_iff.2 (mt isErrIgnored_some.1 he))

theorem count_countedErrs_le (errs : Fin n → Option StorageErr) (ignored : List StorageErr)
    (e : Option StorageErr) :
    (countedErrs (slice errs) ignored).count e ≤ tally fun i => errs i = e := by
  rw [← count_slice]
  exact filter_sublist.count_le e

theorem count_countedTimes {times : Fin n → Int} {t : Int} (ht : t ≠ timeSentinel) :
    (countedTimes (slice times)).count t = tally fun i => times i = t := by
  rw [countedTimes, count_filter (by simpa using ht), count_slice]

end Counts

/-! ## What the reads return -/

section ReadSpec

variable {n : Nat} {R : MapOrder} {metaArr : Fin n → XlMeta} {errs : Fin n → Option StorageErr}

/-- The time a read goes by. -/
def readTime (R : MapOrder) (metaArr : Fin n → XlMeta) (errs : Fin n → Option StorageErr) : Int :=
  (commonTime R (slice (listObjectModtimes metaArr errs))).1

theorem listObjectModtimes_eq_readTime {i : Fin n} :
    listObjectModtimes metaArr errs i = readTime R metaArr errs ↔
      errs i = none ∧ (metaArr i).modTime = readTime R metaArr errs := by
  unfold listObjectModtimes
  split_ifs with h
  · simp [h]
  · simpa [h, readTime] using (commonTime_ne_sentinel R _).symm

theorem getLatestXLMeta_cases (R : MapOrder) (metaArr : Fin n → XlMeta)
    (errs : Fin n → Option StorageErr) (hpos : 0 < n / 2) :
    let agree := fun i => errs i = none ∧ (metaArr i).modTime = readTime R metaArr errs ∧
      (metaArr i).isValid
    ((∃ e, getLatestXLMeta R metaArr errs = .error e) ∧
        (reduceQuorumErrs R (slice errs) objectOpIgnoredErrs (n / 2) ≠ .nil ∨
          tally agree < n / 2)) ∨
      (reduceQuorumErrs R (slice errs) objectOpIgnoredErrs (n / 2) = .nil ∧ n / 2 ≤ tally agree ∧
        ∃ i, getLatestXLMeta R metaArr errs = .ok (metaArr i) ∧ agree i) := by
  intro agree
  unfold getLatestXLMeta
  cases hr : reduceQuorumErrs R (slice errs) objectOpIgnoredErrs (n / 2) with
  | err e => exact .inl ⟨⟨_, rfl⟩, .inl nofun⟩
  | quorumErr => exact .inl ⟨⟨_, rfl⟩, .inl nofun⟩
  | nil =>
    have hlen : ((List.finRange n).filter fun i =>
        listObjectModtimes metaArr errs i = readTime R metaArr errs ∧ (metaArr i).isValid).length =
            tally agree := by
      rw [← countP_eq_length_filter]
      exact tally_congr fun i => by rw [listObjectModtimes_eq_readTime, and_assoc]
    have htime : (commonTime R (slice (listObjectModtimes metaArr errs))).1 =
      readTime R metaArr errs := rfl
    simp only [htime, hlen]
    by_cases hlt : tally agree < n / 2
    · exact .inl ⟨⟨_, if_pos hlt⟩, .inr hlt⟩
    · rw [if_neg hlt]
      refine .inr ⟨trivial, not_lt.1 hlt, ?_⟩
      cases hl : ((List.finRange n).filter fun i =>
          listObjectModtimes metaArr errs i = readTime R metaArr errs ∧
              (metaArr i).isValid).getLast? with
      | none =>
        rw [List.getLast?_eq_none_iff.1 hl] at hlen
        simp only [length_nil] at hlen
        omega
      | some i =>
        have hi := mem_of_getLast? hl
        simp only [mem_filter, decide_eq_true_eq, listObjectModtimes_eq_readTime] at hi
        exact ⟨i, rfl, hi.2.1.1, hi.2.1.2, hi.2.2⟩

private theorem foldl_candidate {κ σ : Type} {f : σ → κ → σ} {s₀ : σ} {l : List κ}
    (Best : List κ → σ → Prop) (hfirst : ∀ k ∈ l, Best [k] (f s₀ k))
    (hstep : ∀ ks s, ∀ k ∈ l, Best ks s → Best (ks ++ [k]) (f s k)) (ks : List κ)
    (hks : ∀ k ∈ ks, k ∈ l) : (ks = [] ∧ ks.foldl f s₀ = s₀) ∨ Best ks (ks.foldl f s₀) := by
  induction ks using List.reverseRecOn with
  | nil => exact .inl ⟨rfl, rfl⟩
  | append_singleton ks k ih =>
    have hk : k ∈ l := hks k (by simp)
    rw [foldl_concat]
    rcases ih fun e he => hks e (by simp [he]) with ⟨rfl, h⟩ | h
    · exact .inr (hfirst k hk)
    · exact .inr (hstep ks _ k hk h)

private theorem maxHash_fold (l ks : List Bytes) (hks : ∀ h ∈ ks, h ∈ l) :
    let r := ks.foldl
      (fun (maxHash, maxCount) h => if maxCount < l.count h then (some h, l.count h)
        else (maxHash, maxCount))
      ((none : Option Bytes), 0)
    (ks = [] ∧ r = (none, 0)) ∨ ∃ h ∈ l, r = (some h, l.count h) ∧ ∀ h' ∈ ks, l.count h' ≤
        l.count h := by
  refine foldl_candidate (fun ks (r : Option Bytes × Nat) => ∃ h ∈ l, r = (some h, l.count h) ∧
    ∀ h' ∈ ks, l.count h' ≤ l.count h)
    (fun k hk => ?_) (fun ks r k hk hbest => ?_) ks hks
  · simp only [count_pos_iff.2 hk, if_true]
    exact ⟨k, hk, rfl, fun h' hh => by simp [mem_singleton.1 hh]⟩
  · obtain ⟨h, hm, rfl, hall⟩ := hbest
    by_cases hlt : l.count h < l.count k
    · simp only [hlt, if_true]
      refine ⟨k, hk, rfl, fun h' hh => ?_⟩
      rcases mem_append.1 hh with hh | hh
      · exact (hall h' hh).trans hlt.le
      · simp [mem_singleton.1 hh]
    · simp only [hlt, if_false]
      refine ⟨h, hm, rfl, fun h' hh => ?_⟩
      rcases mem_append.1 hh with hh | hh
      · exact hall h' hh
      · rw [mem_singleton.1 hh]
        exact not_lt.1 hlt

/-- The digest that a disk counts for. -/
def metaHash (metaArr : Fin n → XlMeta) (hash : List Nat → Bytes) (modTime : Int) (i : Fin n) :
    Option Bytes :=
  if (metaArr i).isValid ∧ (metaArr i).modTime = modTime then some (hash (metaArr i).parts)
    else none

theorem metaHash_eq_some {hash : List Nat → Bytes} {modTime : Int} {i : Fin n} {h : Bytes} :
    metaHash metaArr hash modTime i = some h ↔
      (metaArr i).isValid = true ∧ (metaArr i).modTime = modTime ∧ hash (metaArr i).parts = h := by
  unfold metaHash
  split_ifs with hc
  · simp [hc]
  · simp only [false_iff]
    exact fun h => hc ⟨h.1, h.2.1⟩

theorem pickValidXLMeta_eq (R : MapOrder) (metaArr : Fin n → XlMeta) (hash : List Nat → Bytes)
    (modTime : Int) {quorum : Nat} (hq : 0 < quorum) :
    let l := (List.finRange n).filterMap (metaHash metaArr hash modTime)
    (pickValidXLMeta R metaArr hash modTime quorum = .error .errXLReadQuorum ∧
      ∀ h, l.count h < quorum) ∨
      ∃ i h, pickValidXLMeta R metaArr hash modTime quorum = .ok (metaArr i) ∧
        metaHash metaArr hash modTime i = some h ∧ quorum ≤ l.count h := by
  intro l
  have hmem : ∀ h, h ∈ R.hashes l.dedup ↔ h ∈ l := fun h => by
    rw [(R.hashes_perm _).mem_iff, mem_dedup]
  have hzero : ∀ h, h ∉ l → l.count h = 0 := fun h hh => count_eq_zero.2 hh
  have hpick : pickValidXLMeta R metaArr hash modTime quorum =
      if ((R.hashes l.dedup).foldl
        (fun (maxHash, maxCount) h => if maxCount < l.count h then (some h, l.count h)
          else (maxHash, maxCount))
        ((none : Option Bytes), 0)).2 < quorum then .error .errXLReadQuorum
      else
        match (List.finRange n).find? fun i => metaHash metaArr hash modTime i =
          ((R.hashes l.dedup).foldl
          (fun (maxHash, maxCount) h => if maxCount < l.count h then (some h, l.count h)
            else (maxHash, maxCount))
          ((none : Option Bytes), 0)).1 with
        | some i => .ok (metaArr i)
        | none => .error .errXLReadQuorum := rfl
  rcases maxHash_fold l _ fun h hh => (hmem h).1 hh with ⟨h0, h⟩ | ⟨h, hm, hr, hall⟩
  · refine .inl ⟨by rw [hpick, h]; exact if_pos hq, fun h => ?_⟩
    rw [hzero h fun hh => by have := (hmem h).2 hh; rw [h0] at this; cases this]
    exact hq
  · rw [hpick, hr]
    by_cases hlt : l.count h < quorum
    · refine .inl ⟨if_pos hlt, fun h' => ?_⟩
      by_cases hh : h' ∈ l
      · exact (hall h' ((hmem h').2 hh)).trans_lt hlt
      · rw [hzero h' hh]
        exact hq
    · obtain ⟨j, -, hj⟩ := mem_filterMap.1 hm
      simp only [if_neg hlt]
      cases hf : (List.finRange n).find? fun i => metaHash metaArr hash modTime i = some h with
      | none =>
        have := List.find?_eq_none.1 hf j (mem_finRange j)
        exact absurd hj (by simpa using this)
      | some i => exact .inr ⟨i, h, rfl, by simpa using List.find?_some hf, not_lt.1 hlt⟩

theorem pickValidXLMeta_ok {hash : List Nat → Bytes} {modTime : Int} {quorum : Nat} {m : XlMeta}
    (h : pickValidXLMeta R metaArr hash modTime quorum = .ok m) (hq : 0 < quorum) :
    ∃ i, m = metaArr i ∧ (metaArr i).isValid = true ∧ (metaArr i).modTime = modTime := by
  rcases pickValidXLMeta_eq R metaArr hash modTime hq with ⟨he, -⟩ | ⟨i, d, he, hd, -⟩
  · rw [h] at he
    cases he
  · rw [h] at he
    obtain ⟨hv, ht, -⟩ := metaHash_eq_some.1 hd
    exact ⟨i, Except.ok.inj he, hv, ht⟩

end ReadSpec

end S3Kinetic.Xl
