import S3Kinetic.Lib.Counts

/-!
# Reducing the answers of the disks (`xl-v1-utils.go`, `xl-v1-healing-common.go`)

`reduceQuorumErrs` returns the error that a quorum of the disks has returned, `nil` included, and
`commonTime` the time that most of them have. Both count in a map and search its entries in the
order in which Go visits them, which is any order. `quorumReduction` says that the order plays no
role.
-/

namespace S3Kinetic.QuorumErrs

open Counts

/-! ## Errors -/

/-- Values of type `error` other than `nil`, with `errors.Is`. -/
class GoError (ε : Type) where
  is : ε → ε → Bool

/-- The errors that matter to the quorum. A wrapped error is a value of its own. -/
inductive Err where
  | diskNotFound
  | faultyDisk
  | faultyRemoteDisk
  | diskAccessDenied
  | xlReadQuorum
  | xlWriteQuorum
  | other (id : Nat)
  | wrap (id : Nat) (err : Err)
  deriving DecidableEq

def Err.is : Err → Err → Bool
  | .wrap id err, target => Err.wrap id err == target || err.is target
  | err, target => err == target

instance errGoError : GoError Err := ⟨Err.is⟩

section Reduce

variable {ε : Type} [GoError ε] [DecidableEq ε]

def errorsIs : Option ε → Option ε → Bool
  | none, none => true
  | some err, some target => GoError.is err target
  | _, _ => false

def isErr (err : Option ε) (errs : List (Option ε)) : Bool :=
  errs.any fun exactErr => errorsIs err exactErr

def isErrIgnored (err : Option ε) (ignoredErrs : List (Option ε)) : Bool := isErr err ignoredErrs

def counted (errs ignoredErrs : List (Option ε)) : List (Option ε) :=
  errs.filter fun err => !isErrIgnored err ignoredErrs

/-- The counting map of `reduceErrs`. -/
def errorCounts (errs ignoredErrs : List (Option ε)) : Option ε → Nat :=
  counts (counted errs ignoredErrs)

def reduceErrs (errs ignoredErrs : List (Option ε))
    (it : Iteration (errorCounts errs ignoredErrs)) : Nat × Option ε :=
  it.entries.foldl (fun (max, maxErr) (err, count) =>
    if max < count then (count, err)
    else if max = count ∧ err = none then (max, err)
    else (max, maxErr)) (0, none)

def reduceQuorumErrs (errs ignoredErrs : List (Option ε)) (quorum : Nat) (quorumErr : Option ε)
    (it : Iteration (errorCounts errs ignoredErrs)) : Option ε :=
  let (maxCount, maxErr) := reduceErrs errs ignoredErrs it
  if quorum ≤ maxCount then maxErr else quorumErr

end Reduce

/-! ## Times -/

/-- A `time.Time` as it is read from the metadata: an instant in nanoseconds since 1970, and the
zone it was written in (`0` is UTC). Two times are the same key only if both agree. -/
structure Time where
  instant : Int
  loc : Nat
  deriving DecidableEq

/-- `Time.After` compares the instants. -/
def Time.after (t u : Time) : Bool := u.instant < t.instant

/-- `Time.Equal` compares them too, whatever the zones. -/
def Time.equal (t u : Time) : Bool := t.instant = u.instant

theorem after_irrefl (t : Time) : t.after t = false := by simp [Time.after]

theorem after_trans {t u v : Time} (h : t.after u = true) (h' : u.after v = true) :
    t.after v = true := by
  simp only [Time.after, decide_eq_true_eq] at h h' ⊢
  omega

def timeSentinel : Time := ⟨0, 0⟩

/-- The zero value of `time.Time`, the first of January of the year 1. -/
def zeroTime : Time := ⟨-62135596800 * 10 ^ 9, 0⟩

def found (modTimes : List Time) : List Time := modTimes.filter fun time => time ≠ timeSentinel

def timeOccurenceMap (modTimes : List Time) : Time → Nat := counts (found modTimes)

def commonTime (modTimes : List Time) (it : Iteration (timeOccurenceMap modTimes)) : Time × Nat :=
  it.entries.foldl (fun (modTime, maxima) (time, count) =>
    if maxima < count ∨ count = maxima ∧ time.after modTime then (time, count)
      else (modTime, maxima)) (zeroTime, 0)

/-! ## The search -/

/-- `nil` wins over an error that occurs as often. -/
def nilFirst {ε : Type} (err cur : Option ε) : Bool := err.isNone && cur.isSome

theorem reduceErrs_eq {ε : Type} [GoError ε] [DecidableEq ε] (errs ignoredErrs : List (Option ε))
    (it : Iteration (errorCounts errs ignoredErrs)) :
    reduceErrs errs ignoredErrs it = (best nilFirst none it.entries).swap := by
  have hstep : ∀ (entries : List (Option ε × Nat)) (cur : Option ε × Nat),
      entries.foldl (fun (p : Nat × Option ε) (e : Option ε × Nat) =>
        if p.1 < e.2 then (e.2, e.1) else if p.1 = e.2 ∧ e.1 = none then (p.1, e.1)
          else (p.1, p.2)) cur.swap =
      (entries.foldl (pick nilFirst) cur).swap := by
    intro entries
    induction entries with
    | nil => exact fun _ => rfl
    | cons e entries ih =>
      rintro ⟨cur, max⟩
      obtain ⟨err, count⟩ := e
      rw [List.foldl_cons, List.foldl_cons, ← ih]
      congr 1
      by_cases hlt : max < count
      · simp [pick, hlt, Prod.swap]
      · by_cases heq : max = count
        · cases err <;> cases cur <;> simp [pick, nilFirst, heq, Prod.swap]
        · simp [pick, hlt, heq, Prod.swap]
  exact hstep it.entries (none, 0)

theorem commonTime_eq (modTimes : List Time) (it : Iteration (timeOccurenceMap modTimes)) :
    commonTime modTimes it = best Time.after zeroTime it.entries := by
  rw [commonTime, best]
  congr 1
  funext cur e
  obtain ⟨modTime, maxima⟩ := cur
  obtain ⟨time, count⟩ := e
  simp only [pick, eq_comm]

/-! ## Results in every order -/

section Quorum

variable {ε : Type} [GoError ε] [DecidableEq ε] {errs ignoredErrs : List (Option ε)}
  (it : Iteration (errorCounts errs ignoredErrs))

theorem mem_entries_iff (err : Option ε) :
    (err, (counted errs ignoredErrs).count err) ∈ it.entries ↔ err ∈ counted errs ignoredErrs := by
  rw [it.mem, errorCounts, counts_apply, List.count_pos_iff]
  exact and_iff_left rfl

theorem count_reduceErrs (hpos : 0 < (reduceErrs errs ignoredErrs it).1) :
    (counted errs ignoredErrs).count (reduceErrs errs ignoredErrs it).2 =
      (reduceErrs errs ignoredErrs it).1 := by
  rw [reduceErrs_eq] at hpos ⊢
  have hmem : best nilFirst none it.entries ∈ it.entries := by
    refine best_mem _ (fun e he => ((it.mem e).1 he).1) fun hnil => ?_
    rw [hnil] at hpos
    exact Nat.lt_irrefl 0 hpos
  rw [← counts_apply]
  exact ((it.mem _).1 hmem).2

theorem count_le_reduceErrs (err : Option ε) :
    (counted errs ignoredErrs).count err ≤ (reduceErrs errs ignoredErrs it).1 := by
  by_cases herr : err ∈ counted errs ignoredErrs
  · rw [reduceErrs_eq]
    exact le_best _ ((mem_entries_iff it err).2 herr)
  · rw [List.count_eq_zero_of_not_mem herr]
    exact Nat.zero_le _

/-- No error is returned just when `nil` occurs at least as often as every error. -/
theorem reduceErrs_eq_none_iff (hpos : 0 < (reduceErrs errs ignoredErrs it).1) :
    (reduceErrs errs ignoredErrs it).2 = none ↔
      ∀ err, (counted errs ignoredErrs).count err ≤ (counted errs ignoredErrs).count none := by
  have hcount := count_reduceErrs it hpos
  constructor
  · intro h err
    rw [h] at hcount
    exact hcount ▸ count_le_reduceErrs it err
  · intro h
    have hmax : (counted errs ignoredErrs).count none = (reduceErrs errs ignoredErrs it).1 :=
      le_antisymm (count_le_reduceErrs it none) (hcount ▸ h _)
    have hmem := (mem_entries_iff it none).2 (List.count_pos_iff.1 (hmax ▸ hpos))
    rw [reduceErrs_eq] at hmax ⊢
    have hnot : nilFirst none _ = false :=
      not_prefer_best (fun k => by cases k <;> rfl)
        (fun a b c hab hbc => by cases b <;> simp [nilFirst] at hab hbc) hmem hmax
    simpa [nilFirst] using hnot

theorem reduceQuorumErrs_eq_iff {quorum : Nat} {quorumErr : Option ε}
    (hquorum : errs.length < 2 * quorum) (err : Option ε) :
    reduceQuorumErrs errs ignoredErrs quorum quorumErr it = err ↔
      quorum ≤ (counted errs ignoredErrs).count err ∨
        err = quorumErr ∧ ∀ err', (counted errs ignoredErrs).count err' < quorum := by
  have hlen : (counted errs ignoredErrs).length < 2 * quorum :=
    Nat.lt_of_le_of_lt (List.length_filter_le _ _) hquorum
  rw [reduceQuorumErrs]
  by_cases hmax : quorum ≤ (reduceErrs errs ignoredErrs it).1
  · -- At most one error occurs that often.
    have hcount := count_reduceErrs it (by omega)
    simp only [hmax, if_true]
    constructor
    · rintro rfl
      exact .inl (hcount ▸ hmax)
    · rintro (hq | ⟨-, hall⟩)
      · exact eq_of_majority hlen (hcount ▸ hmax) hq
      · have := hall (reduceErrs errs ignoredErrs it).2
        omega
  · have hlt : ∀ err', (counted errs ignoredErrs).count err' < quorum := fun err' =>
      Nat.lt_of_le_of_lt (count_le_reduceErrs it err') (Nat.lt_of_not_le hmax)
    simp only [hmax, if_false]
    constructor
    · rintro rfl
      exact .inr ⟨rfl, hlt⟩
    · rintro (hq | ⟨rfl, -⟩)
      · have := hlt err
        omega
      · rfl

end Quorum

section Common

variable {modTimes : List Time} (it : Iteration (timeOccurenceMap modTimes))

/-- A latest one of the most frequent times, with its count. -/
structure IsCommon (modTimes : List Time) (res : Time × Nat) : Prop where
  mem : res.1 ∈ found modTimes
  count : (found modTimes).count res.1 = res.2
  most : ∀ time, (found modTimes).count time ≤ res.2
  latest : ∀ time, (found modTimes).count time = res.2 → time.instant ≤ res.1.instant

theorem commonTime_isCommon (hne : found modTimes ≠ []) :
    IsCommon modTimes (commonTime modTimes it) := by
  have hentry : ∀ time ∈ found modTimes, (time, (found modTimes).count time) ∈ it.entries :=
    fun time htime =>
    (it.mem _).2 ⟨List.count_pos_iff.2 htime, counts_apply _ _⟩
  obtain ⟨time₀, htime₀⟩ := List.exists_mem_of_ne_nil _ hne
  rw [commonTime_eq]
  have hmem : best Time.after zeroTime it.entries ∈ it.entries :=
    best_mem _ (fun e he => ((it.mem e).1 he).1) (List.ne_nil_of_mem (hentry time₀ htime₀))
  obtain ⟨hpos, hentry'⟩ := (it.mem _).1 hmem
  have hcount := (counts_apply _ _).symm.trans hentry'
  have hin : ∀ time, 0 < (found modTimes).count time → (time, (found modTimes).count time) ∈
      it.entries := fun time h =>
    hentry time (List.count_pos_iff.1 h)
  refine ⟨List.count_pos_iff.1 (hcount ▸ hpos), hcount, fun time => ?_, fun time heq => ?_⟩
  · rcases Nat.eq_zero_or_pos ((found modTimes).count time) with hzero | hpos
    · omega
    · exact le_best _ (hin time hpos)
  · have hnot := not_prefer_best after_irrefl (fun _ _ _ => after_trans) (hin time (by omega)) heq
    simpa [Time.after] using hnot

theorem IsCommon.unique {res res' : Time × Nat} (h : IsCommon modTimes res)
    (h' : IsCommon modTimes res') :
    res.2 = res'.2 ∧ res.1.instant = res'.1.instant := by
  have hcount : res.2 = res'.2 := by
    have h₁ := h.most res'.1
    have h₂ := h'.most res.1
    rw [h.count] at h₂
    rw [h'.count] at h₁
    omega
  refine ⟨hcount, le_antisymm ?_ ?_⟩
  · exact h'.latest _ (h.count.trans hcount)
  · exact h.latest _ (h'.count.trans hcount.symm)

theorem commonTime_of_nil (h : found modTimes = []) : commonTime modTimes it = (zeroTime, 0) := by
  have hnil : it.entries = [] := by
    refine List.eq_nil_iff_forall_not_mem.2 fun e he => ?_
    obtain ⟨hpos, hcount⟩ := (it.mem e).1 he
    rw [timeOccurenceMap, h] at hcount
    exact absurd hpos (hcount ▸ Nat.lt_irrefl 0)
  rw [commonTime, hnil]
  rfl

end Common

/-- In every order of the map `reduceQuorumErrs` returns the error that occurs a quorum of times,
and `quorumErr` if none does; and `commonTime` returns a latest one of the most frequent times, of
the same instant and with the same count in every other order. -/
theorem quorumReduction (errs ignoredErrs : List (Option Err)) (quorum : Nat)
    (hquorum : errs.length < 2 * quorum)
    (quorumErr : Option Err) (it : Iteration (errorCounts errs ignoredErrs)) (modTimes : List Time)
    (times times' : Iteration (timeOccurenceMap modTimes)) :
    (∀ err, reduceQuorumErrs errs ignoredErrs quorum quorumErr it = err ↔
      quorum ≤ (errs.filter fun e => !isErrIgnored e ignoredErrs).count err ∨
        err = quorumErr ∧ ∀ err', (errs.filter fun e => !isErrIgnored e ignoredErrs).count
          err' < quorum) ∧
      (found modTimes ≠ [] → IsCommon modTimes (commonTime modTimes times)) ∧
      (found modTimes = [] → commonTime modTimes times = (zeroTime, 0)) ∧
      (commonTime modTimes times').2 = (commonTime modTimes times).2 ∧
      (commonTime modTimes times').1.instant = (commonTime modTimes times).1.instant := by
  refine ⟨reduceQuorumErrs_eq_iff it hquorum, commonTime_isCommon times,
    commonTime_of_nil times, ?_⟩
  by_cases hnil : found modTimes = []
  · rw [commonTime_of_nil times hnil, commonTime_of_nil times' hnil]
    exact ⟨rfl, rfl⟩
  · exact (commonTime_isCommon times' hnil).unique (commonTime_isCommon times hnil)

/-- Of five disks three have no error, one is offline and one has a wrapped error. -/
theorem quorumReduction_five :
    reduceQuorumErrs [none, some Err.diskNotFound, none, some (.wrap 0 .faultyDisk),
      none] [some .faultyDisk] 3
      (some .xlWriteQuorum) (.ofKeys _) = none :=
  ((quorumReduction [none, some .diskNotFound, none, some (.wrap 0 .faultyDisk),
    none] [some .faultyDisk] 3 (by decide)
    (some .xlWriteQuorum) (.ofKeys _) [] (.ofKeys _) (.ofKeys _)).1 none).2 (.inl (by decide))

end S3Kinetic.QuorumErrs
