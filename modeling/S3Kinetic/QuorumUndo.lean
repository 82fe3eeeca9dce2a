import S3Kinetic.QuorumErrs

/-!
# Operations on all disks and on all sets that are undone (`xl-v1-object.go`, `xl-sets.go`)

`rename` renames an entry on every disk and renames it back if no write quorum of the disks agrees;
`DeleteBucket` deletes a bucket on every erasure set and creates it again if a set has no write
quorum. Neither is undone when the call fails with another error. `rename_iff` and
`deleteBucket_iff` say when a call that fails leaves everything as it was.
-/

namespace S3Kinetic.QuorumUndo

open Counts QuorumErrs List

abbrev Err := QuorumErrs.Err

/-! ## Renaming on the disks of a set -/

section Rename

variable {α : Type*}

structure Entries (α : Type*) where
  src : Option α
  dst : Option α
  deriving DecidableEq

/-- A disk with the error that its `RenameFile` returns. A rename that succeeds has something to
move. -/
structure Disk (α : Type*) where
  entries : Entries α
  renameErr : Option Err
  found : renameErr = none → entries.src.isSome = true

/-- The entries after `RenameFile` from the source to the destination. -/
def Disk.renamed (disk : Disk α) : Entries α :=
  match disk.renameErr with
  | none => ⟨none, disk.entries.src⟩
  | some _ => disk.entries

/-- The entries after `RenameFile` from the destination to the source, which succeeds if there is
something to move. -/
def Entries.back (e : Entries α) : Entries α := if e.dst.isSome then ⟨e.dst, none⟩ else e

def objectOpIgnoredErrs : List (Option Err) :=
  [some .diskNotFound, some .faultyDisk, some .faultyRemoteDisk, some .diskAccessDenied]

/-- What the rename of one disk adds to `errs`. -/
def diskErr (ignoredErr : List (Option Err)) : Option (Disk α) → Option Err
  | none => some .diskNotFound
  | some disk =>
    match disk.renameErr with
    | none => none
    | some err => if isErrIgnored (some err) ignoredErr then none else some err

def renameErrs (disks : List (Option (Disk α))) (ignoredErr : List (Option Err)) :
    List (Option Err) :=
  disks.map (diskErr ignoredErr)

/-- The entries of one disk after `undoRename`. -/
def undoRename (ignoredErr : List (Option Err)) (disk : Disk α) : Entries α :=
  if diskErr ignoredErr (some disk) = none then disk.renamed.back else disk.renamed

/-- The disks that are still used. -/
def evalDisks (disks : List (Option (Disk α))) (errs : List (Option Err)) :
    List (Option (Disk α)) :=
  List.zipWith (fun disk err => if err = none then disk else none) disks errs

def reduceWriteQuorumErrs (errs ignoredErrs : List (Option Err)) (writeQuorum : Nat)
    (it : Iteration (errorCounts errs ignoredErrs)) : Option Err :=
  reduceQuorumErrs errs ignoredErrs writeQuorum (some .xlWriteQuorum) it

/-- The result of `rename`. -/
structure Renamed (α : Type*) where
  disks : List (Option (Disk α))
  err : Option Err
  /-- What the disks have afterwards. -/
  entries : List (Option (Entries α))

def rename (disks : List (Option (Disk α))) (writeQuorum : Nat) (ignoredErr : List (Option Err))
    (it : Iteration (errorCounts (renameErrs disks ignoredErr) objectOpIgnoredErrs)) : Renamed α :=
  let errs := renameErrs disks ignoredErr
  let err := reduceWriteQuorumErrs errs objectOpIgnoredErrs writeQuorum it
  ⟨evalDisks disks errs, err,
    disks.map fun disk => disk.map fun disk =>
      if err = some .xlWriteQuorum then undoRename ignoredErr disk else disk.renamed⟩

/-- A failed call changes no entry, and a successful one has renamed on a write quorum of the disks,
ignored errors included. -/
structure AllOrNothing (disks : List (Option (Disk α))) (writeQuorum : Nat)
    (ignoredErr : List (Option Err)) (res : Renamed α) :
    Prop where
  failed : res.err ≠ none → res.entries = disks.map fun disk => disk.map Disk.entries
  succeeded : res.err = none → writeQuorum ≤ disks.countP fun disk => diskErr ignoredErr disk = none

/-- How often an error of the disks counts. -/
def votes (disks : List (Option (Disk α))) (ignoredErr : List (Option Err)) (err : Option Err) :
    Nat :=
  (counted (renameErrs disks ignoredErr) objectOpIgnoredErrs).count err

/-- If a write quorum of the disks agrees on an error, no disk has renamed; if it agrees on nothing,
there was no destination where a disk has renamed or its error was ignored. -/
structure Undoable (disks : List (Option (Disk α))) (writeQuorum : Nat)
    (ignoredErr : List (Option Err)) : Prop where
  agreed : ∀ err, err ≠ .xlWriteQuorum → writeQuorum ≤ votes disks ignoredErr (some err) →
    ∀ disk, some disk ∈ disks → disk.renameErr ≠ none
  undone : votes disks ignoredErr none < writeQuorum →
    (∀ err, err ≠ .xlWriteQuorum → votes disks ignoredErr (some err) < writeQuorum) →
    ∀ disk, some disk ∈ disks → diskErr ignoredErr (some disk) = none → disk.entries.dst = none

theorem renamed_eq_iff (disk : Disk α) : disk.renamed = disk.entries ↔ disk.renameErr ≠ none := by
  rw [Disk.renamed]
  cases herr : disk.renameErr with
  | none =>
    have hsrc := disk.found herr
    simp only [ne_eq, not_true, iff_false]
    intro heq
    rw [← heq] at hsrc
    cases hsrc
  | some err => simp

theorem undoRename_eq_iff (ignoredErr : List (Option Err)) (disk : Disk α) :
    undoRename ignoredErr disk = disk.entries ↔
      (diskErr ignoredErr (some disk) = none → disk.entries.dst = none) := by
  obtain ⟨⟨src, dst⟩, renameErr, found⟩ := disk
  rw [undoRename]
  split_ifs with hnil
  · simp only [hnil, forall_true_left]
    cases renameErr with
    | none =>
      obtain ⟨a, rfl⟩ := Option.isSome_iff_exists.1 (found rfl)
      simp [Disk.renamed, Entries.back, eq_comm]
    | some err =>
      cases dst with
      | none => simp [Disk.renamed, Entries.back]
      | some b => simp [Disk.renamed, Entries.back]
  · cases renameErr with
    | none => simp [diskErr] at hnil
    | some err => simp [hnil, Disk.renamed]

theorem map_entries_iff {disks : List (Option (Disk α))} {f : Disk α → Entries α} :
    (disks.map fun disk => disk.map f) = (disks.map fun disk => disk.map Disk.entries) ↔
      ∀ disk, some disk ∈ disks → f disk = disk.entries := by
  rw [map_inj_left]
  constructor
  · intro h disk hdisk
    exact Option.some.inj (h _ hdisk)
  · rintro h (_ | disk) hdisk
    · rfl
    · exact congrArg some (h disk hdisk)

theorem length_renameErrs (disks : List (Option (Disk α))) (ignoredErr : List (Option Err)) :
    (renameErrs disks ignoredErr).length = disks.length := length_map _

theorem votes_none_le (disks : List (Option (Disk α))) (ignoredErr : List (Option Err)) :
    votes disks ignoredErr none ≤ disks.countP fun disk => diskErr ignoredErr disk = none := by
  rw [votes, counted, renameErrs]
  refine (List.Sublist.count_le _ filter_sublist).trans ?_
  rw [List.count, countP_map]
  refine countP_mono_left fun disk _ h => ?_
  simpa using h

section Reduced

variable {disks : List (Option (Disk α))} {writeQuorum : Nat} {ignoredErr : List (Option Err)}
  (it : Iteration (errorCounts (renameErrs disks ignoredErr) objectOpIgnoredErrs))

theorem rename_err_iff (hquorum : disks.length < 2 * writeQuorum) (err : Option Err) :
    (rename disks writeQuorum ignoredErr it).err = err ↔ writeQuorum ≤ votes disks ignoredErr err ∨
      err = some .xlWriteQuorum ∧ ∀ err', votes disks ignoredErr err' < writeQuorum :=
  reduceQuorumErrs_eq_iff it (by rwa [length_renameErrs]) err

theorem rename_err_writeQuorum_iff (hquorum : disks.length < 2 * writeQuorum) :
    (rename disks writeQuorum ignoredErr it).err = some .xlWriteQuorum ↔
      votes disks ignoredErr none < writeQuorum ∧
      ∀ err, err ≠ .xlWriteQuorum → votes disks ignoredErr (some err) < writeQuorum := by
  constructor
  · intro hres
    have hlt : ∀ err, err ≠ some .xlWriteQuorum → votes disks ignoredErr err < writeQuorum := by
      intro err hne
      by_contra hge
      have := (rename_err_iff it hquorum err).2 (.inl (Nat.le_of_not_lt hge))
      exact hne (this.symm.trans hres)
    exact ⟨hlt none (by simp), fun err hne => hlt (some err) (by simpa using hne)⟩
  · rintro ⟨hnone, hsome⟩
    rcases (rename_err_iff it hquorum _).1 rfl with hvotes | ⟨h, -⟩
    · rcases hres : (rename disks writeQuorum ignoredErr it).err with _ | err
      · rw [hres] at hvotes
        omega
      · rw [hres] at hvotes
        by_contra hne
        have := hsome err (by simpa using hne)
        omega
    · exact h

theorem rename_entries_iff :
    (rename disks writeQuorum ignoredErr it).entries =
      (disks.map fun disk => disk.map Disk.entries) ↔
      ∀ disk, some disk ∈ disks →
        (if (rename disks writeQuorum ignoredErr it).err = some .xlWriteQuorum
        then undoRename ignoredErr disk else disk.renamed) = disk.entries := map_entries_iff

end Reduced

end Rename

/-- A failed call leaves the entries as they were exactly if `Undoable`. -/
theorem rename_iff {α : Type*} (disks : List (Option (Disk α))) (writeQuorum : Nat)
    (hquorum : disks.length < 2 * writeQuorum) (ignoredErr : List (Option Err))
    (it : Iteration (errorCounts (renameErrs disks ignoredErr) objectOpIgnoredErrs)) :
    AllOrNothing disks writeQuorum ignoredErr (rename disks writeQuorum ignoredErr it) ↔
      Undoable disks writeQuorum ignoredErr := by
  constructor
  · rintro ⟨hfailed, -⟩
    rw [rename_entries_iff] at hfailed
    constructor
    · intro err hne hvotes disk hdisk
      have herr := (rename_err_iff it hquorum (some err)).2 (.inl hvotes)
      have h := hfailed (by simp [herr]) disk hdisk
      rw [herr, if_neg (by simpa using hne)] at h
      exact (renamed_eq_iff disk).1 h
    · intro hnone hsome disk hdisk
      have herr := (rename_err_writeQuorum_iff it hquorum).2 ⟨hnone, hsome⟩
      have h := hfailed (by simp [herr]) disk hdisk
      rw [herr, if_pos rfl] at h
      exact (undoRename_eq_iff ignoredErr disk).1 h
  · rintro ⟨hagreed, hundone⟩
    refine ⟨fun hne => (rename_entries_iff it).2 fun disk hdisk => ?_, fun hnil => ?_⟩
    · split_ifs with herr
      · obtain ⟨hnone, hsome⟩ := (rename_err_writeQuorum_iff it hquorum).1 herr
        exact (undoRename_eq_iff ignoredErr disk).2 (hundone hnone hsome disk hdisk)
      · obtain ⟨err, hres⟩ := Option.ne_none_iff_exists'.1 hne
        rw [hres] at herr
        rcases (rename_err_iff it hquorum (some err)).1 hres with hvotes | ⟨h, -⟩
        · exact (renamed_eq_iff disk).2 (hagreed err (by simpa using herr) hvotes disk hdisk)
        · exact absurd h herr
    · rcases (rename_err_iff it hquorum none).1 hnil with hvotes | ⟨hcontra, -⟩
      · exact hvotes.trans (votes_none_le disks ignoredErr)
      · cases hcontra

def freshDisk (err : Option Err) : Option (Disk Nat) := some ⟨⟨some 1, none⟩, err, fun _ => rfl⟩

/-- Two disks rename, one is offline and one is full: no quorum of three, and the two are renamed
back. -/
theorem rename_undone :
    AllOrNothing [freshDisk none, freshDisk none, none, freshDisk (some (.other 28))] 3 []
      (rename [freshDisk none, freshDisk none, none, freshDisk (some (.other 28))] 3 []
        (.ofKeys _)) :=
  (rename_iff [freshDisk none, freshDisk none, none, freshDisk (some (.other 28))] 3 (by decide) []
    (.ofKeys _)).2 {
    agreed := by
      intro err _ hvotes
      have hle : votes [freshDisk none, freshDisk none, none, freshDisk (some (.other 28))] []
          (some err) ≤ 1 := by
        have hcounted : counted (renameErrs [freshDisk none, freshDisk none, none,
          freshDisk (some (.other 28))] [])
            objectOpIgnoredErrs = [none, none, some (.other 28)] := by decide
        rw [votes, hcounted, count_cons_of_ne (by simp), count_cons_of_ne (by simp)]
        exact count_le_length
      omega
    undone := by
      intro _ _ disk hdisk _
      simp only [freshDisk, mem_cons, Option.some.injEq, reduceCtorEq, not_mem_nil, or_false,
        false_or] at hdisk
      rcases hdisk with rfl | rfl | rfl <;> rfl }

/-- Three of four disks are full, so the error is theirs, and the fourth stays renamed. -/
theorem rename_kept :
    (rename [freshDisk none, freshDisk (some (.other 28)), freshDisk (some (.other 28)),
      freshDisk (some (.other 28))] 3 []
        (.ofKeys _)).err = some (.other 28) ∧
      (rename [freshDisk none, freshDisk (some (.other 28)), freshDisk (some (.other 28)),
        freshDisk (some (.other 28))] 3 []
        (.ofKeys _)).entries = [some ⟨none, some 1⟩, some ⟨some 1, none⟩, some ⟨some 1, none⟩,
          some ⟨some 1, none⟩] ∧
      ¬ AllOrNothing [freshDisk none, freshDisk (some (.other 28)), freshDisk (some (.other 28)),
        freshDisk (some (.other 28))] 3
        [] (rename [freshDisk none, freshDisk (some (.other 28)), freshDisk (some (.other 28)),
          freshDisk (some (.other 28))]
          3 [] (.ofKeys _)) := by
  refine ⟨by decide, by decide, fun h => ?_⟩
  have hfailed := h.failed (by decide)
  revert hfailed
  decide

/-! ## Deleting a bucket on the sets -/

/-- The errors of a set's `DeleteBucket`. -/
inductive SetErr where
  | bucketNotEmpty
  | insufficientWriteQuorum
  | other (id : Nat)
  deriving DecidableEq

/-- A set with the error of its `DeleteBucket`, and whether the bucket was there before that call
and is there after it. -/
structure ErasureSet where
  had : Bool
  err : Option SetErr
  has : Bool
  gone : err = none → has = false

/-- Whether the bucket is on a set after `undoDeleteBucketSets`. -/
def undoDeleteBucketSets (set : ErasureSet) : Bool := if set.err = none then true else set.has

def firstErr (sets : List ErasureSet) : Option SetErr := sets.findSome? ErasureSet.err

/-- `DeleteBucket`: its error, and whether the bucket is on each set. -/
def deleteBucket (sets : List ErasureSet) : Option SetErr × List Bool :=
  match firstErr sets with
  | none => (none, sets.map ErasureSet.has)
  | some .insufficientWriteQuorum => (some .insufficientWriteQuorum, sets.map undoDeleteBucketSets)
  | some err => (some err, sets.map ErasureSet.has)

def Kept (sets : List ErasureSet) : Prop :=
  (deleteBucket sets).1 ≠ none → ∀ p ∈ sets.zip (deleteBucket sets).2, p.1.had = true → p.2 = true

/-- The sets that fail keep the bucket, and the first error is a missing write quorum or no other
set had the bucket. -/
structure Restored (sets : List ErasureSet) : Prop where
  failing : ∀ set ∈ sets, set.err ≠ none → set.had = true → set.has = true
  deleted : firstErr sets = some .insufficientWriteQuorum ∨ ∀ set ∈ sets, set.err = none →
    set.had = false

theorem kept_map_iff (sets : List ErasureSet) (after : ErasureSet → Bool) :
    (∀ p ∈ sets.zip (sets.map after), p.1.had = true → p.2 = true) ↔ ∀ set ∈ sets, set.had = true →
      after set = true := by
  induction sets with
  | nil => simp
  | cons set sets ih => simp only [map_cons, zip_cons_cons, forall_mem_cons, ih]

theorem firstErr_ne_none_iff {sets : List ErasureSet} :
    firstErr sets ≠ none ↔ ∃ set ∈ sets, set.err ≠ none := by
  rw [firstErr, ne_eq, List.findSome?_eq_none_iff]
  simp

theorem deleteBucket_fst (sets : List ErasureSet) : (deleteBucket sets).1 = firstErr sets := by
  rw [deleteBucket]
  rcases firstErr sets with _ | _ | _ | id <;> rfl

theorem deleteBucket_snd (sets : List ErasureSet) : (deleteBucket sets).2 =
    sets.map (if firstErr sets = some .insufficientWriteQuorum then undoDeleteBucketSets
      else ErasureSet.has) := by
  rw [deleteBucket]
  rcases firstErr sets with _ | _ | _ | id <;> rfl

/-- A failed `DeleteBucket` leaves the bucket on the sets that had it exactly if `Restored`. -/
theorem deleteBucket_iff (sets : List ErasureSet) :
    Kept sets ↔ ((∃ set ∈ sets, set.err ≠ none) → Restored sets) := by
  rw [Kept, deleteBucket_fst, firstErr_ne_none_iff, deleteBucket_snd, kept_map_iff]
  refine imp_congr_right fun _ => ?_
  split_ifs with hfirst
  · constructor
    · intro h
      refine ⟨fun set hset herr hhad => ?_, .inl hfirst⟩
      have := h set hset hhad
      rwa [undoDeleteBucketSets, if_neg herr] at this
    · intro h set hset hhad
      rw [undoDeleteBucketSets]
      split_ifs with herr
      · rfl
      · exact h.failing set hset herr hhad
  · constructor
    · intro h
      refine ⟨fun set hset _ => h set hset, .inr fun set hset herr => ?_⟩
      have hgone := set.gone herr
      by_contra hhad
      rw [h set hset (by simpa using hhad)] at hgone
      cases hgone
    · intro h set hset hhad
      have hdeleted := h.deleted.resolve_left hfirst
      refine h.failing set hset (fun herr => ?_) hhad
      rw [hdeleted set hset herr] at hhad
      cases hhad

/-- The first of two sets deletes the bucket, and the second is not empty. -/
theorem deleteBucket_lost :
    deleteBucket [⟨true, none, false, fun _ => rfl⟩,
      ⟨true, some .bucketNotEmpty, true, fun h => by cases h⟩] =
        (some .bucketNotEmpty, [false, true]) ∧
      ¬ Kept [⟨true, none, false, fun _ => rfl⟩,
        ⟨true, some .bucketNotEmpty, true, fun h => by cases h⟩] := by
  refine ⟨rfl, fun h => ?_⟩
  have := h (by decide) _ mem_cons_self rfl
  cases this

end S3Kinetic.QuorumUndo
