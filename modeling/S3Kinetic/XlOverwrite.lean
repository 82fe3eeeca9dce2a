import S3Kinetic.Xl

/-!
# Overwriting an object

`PutObject` and `CompleteMultipartUpload` first move the old object of every disk to a temporary
place, where it is deleted when the call ends, and then publish the new one by a second rename. The
calls are modelled with an outcome for every rename and every metadata write of every disk; what
they leave at the object's place is read back with all disks online. `overwrite_iff` says for which
failures the old object survives a call that fails.
-/

namespace S3Kinetic.Xl

open ByteString Quorum

/-! ## Versions -/

/-- What a disk has of an object: its metadata, and the content that its shard belongs to. -/
structure Version where
  modTime : Int
  dataBlocks : Nat
  parityBlocks : Nat
  parts : List Nat
  content : Bytes
  valid : parityBlocks ≤ dataBlocks ∧ parityBlocks ≠ 0
  modTime_ne : modTime ≠ timeSentinel
  deriving DecidableEq

variable {n : Nat}

abbrev Disks (n : Nat) := Fin n → Option Version

/-- The `xl.json` of disk `i`. -/
def Version.xlMeta (v : Version) (i : Fin n) : XlMeta :=
  ⟨v.modTime, v.dataBlocks, v.parityBlocks, i + 1, v.parts⟩

def diskMetas (s : Disks n) (i : Fin n) : XlMeta := (s i).elim .zero fun v => v.xlMeta i

def diskErrs (s : Disks n) (i : Fin n) : Option StorageErr :=
  if s i = none then some .errFileNotFound else none

structure ReadOrder where
  latest : MapOrder
  errs : MapOrder
  online : MapOrder
  pick : MapOrder

/-- `GetObject` with all disks online: the version that is read. Decoding needs as many shards as
there are data blocks. -/
def getObject (O : ReadOrder) (hash : List Nat → Bytes) (s : Disks n) : Except ReadErr Version :=
  match objectQuorumFromMeta O.latest (diskMetas s) (diskErrs s) with
  | .error e => .error e
  | .ok (readQuorum, _) =>
    match reduceQuorumErrs O.errs (slice (diskErrs s)) objectOpIgnoredErrs readQuorum with
    | .err e => .error (.storage e)
    | .quorumErr => .error .errXLReadQuorum
    | .nil =>
      let (onlineDisks, modTime) := listOnlineDisks O.online (diskMetas s) (diskErrs s)
      match pickValidXLMeta O.pick (diskMetas s) hash modTime readQuorum with
      | .error e => .error e
      | .ok xlMeta =>
        let shards := (List.finRange n).filterMap fun i => if onlineDisks i then s i else none
        if shards.length < xlMeta.dataBlocks then .error .errXLReadQuorum
        else
          match shards with
          | v :: _ => .ok v
          | [] => .error .errXLReadQuorum

/-! ## Calls -/

/-- The drives of an erasure set. -/
structure Layout (n : Nat) where
  dataDrives : Nat
  parityDrives : Nat
  sum : dataDrives + parityDrives = n
  le : parityDrives ≤ dataDrives
  pos : 1 ≤ parityDrives

def Layout.writeQuorum (L : Layout n) : Nat := L.dataDrives + 1

structure Faults (n : Nat) where
  err : Fin n → Option StorageErr
  honest : ∀ i, err i ≠ some .errFileNotFound

/-- What a call meets on its way. -/
structure CallFaults (n : Nat) where
  /-- It ends before it has touched anything: bad arguments, a failed upload of the data. -/
  early : Bool
  /-- The disks that have the new data. -/
  wrote : Fin n → Bool
  stat : Faults n
  /-- The bucket may not be overwritten. -/
  worm : Bool
  move : Faults n
  undoMove : Faults n
  writeMeta : Faults n
  commitMeta : Faults n
  publish : Faults n
  undoPublish : Faults n

structure CallOrder where
  stat : MapOrder
  move : MapOrder
  writeMeta : MapOrder
  commitMeta : MapOrder
  publish : MapOrder

/-- How a call ends: with an error or not, and what is at the object's place. -/
structure Outcome (n : Nat) where
  err : Bool
  disks : Disks n

section Calls

variable (L : Layout n)

def isObject (R : MapOrder) (s : Disks n) (f : Faults n) : Bool :=
  let errs : Fin n → Option StorageErr := fun i =>
    match f.err i with
    | some e => some e
    | none => if s i = none then some .errFileNotFound else none
  reduceQuorumErrs R (slice errs) objectOpIgnoredErrs (n / 2) = .nil

def movedDisk (s : Disks n) (f : Faults n) (i : Fin n) : Bool := f.err i = none ∧ (s i).isSome

/-- `rename` of the old object to a temporary place, with the renames undone if there is no quorum.
A disk without the object counts as a success. -/
def moveAway (R : MapOrder) (s : Disks n) (f undo : Faults n) : Reduced × Disks n :=
  match reduceQuorumErrs R (slice f.err) objectOpIgnoredErrs L.writeQuorum with
  | .quorumErr => (.quorumErr, fun i => if movedDisk s f i ∧ undo.err i ≠ none then none else s i)
  | r => (r, fun i => if movedDisk s f i then none else s i)

def onOnline (online : Fin n → Bool) (f : Faults n) (i : Fin n) : Option StorageErr :=
  if online i then f.err i else some .errDiskNotFound

/-- `writeUniqueXLMetadata` and `commitXLMetadata`: the outcome and the disks that are still
online. -/
def writeMetadata (R : MapOrder) (online : Fin n → Bool) (f : Faults n) :
    Reduced × (Fin n → Bool) :=
  (reduceQuorumErrs R (slice (onOnline online f)) objectOpIgnoredErrs L.writeQuorum,
    fun i => onOnline online f i = none)

/-- The errors of the rename that publishes: the place must be empty. -/
def publishErrs (s : Disks n) (online : Fin n → Bool) (f : Faults n) (i : Fin n) :
    Option StorageErr :=
  match onOnline online f i with
  | some e => some e
  | none => if (s i).isSome then some .errFileAccessDenied else none

def publish (R : MapOrder) (s : Disks n) (new : Version) (online : Fin n → Bool)
    (f undo : Faults n) : Reduced × Disks n :=
  match reduceQuorumErrs R (slice (publishErrs s online f)) objectOpIgnoredErrs L.writeQuorum with
  | .quorumErr =>
    (.quorumErr, fun i => if publishErrs s online f i = none ∧ undo.err i ≠ none then some new
      else s i)
  | r => (r, fun i => if publishErrs s online f i = none then some new else s i)

/-- The old object out of the way: `none` if the call ends here. -/
def makeRoom (O : CallOrder) (s : Disks n) (F : CallFaults n) : Except (Disks n) (Disks n) :=
  if isObject O.stat s F.stat then
    if F.worm then .error s
    else
      match moveAway L O.move s F.move F.undoMove with
      | (.nil, s') => .ok s'
      | (_, s') => .error s'
  else .ok s

def finish (O : CallOrder) (s : Disks n) (new : Version) (online : Fin n → Bool)
    (F : CallFaults n) : Outcome n :=
  match publish L O.publish s new online F.publish F.undoPublish with
  | (.nil, s') => ⟨false, s'⟩
  | (_, s') => ⟨true, s'⟩

def withRoom (room : Except (Disks n) (Disks n)) (rest : Disks n → Outcome n) : Outcome n :=
  match room with
  | .error s => ⟨true, s⟩
  | .ok s => rest s

def withMetadata (written : Reduced × (Fin n → Bool)) (s : Disks n)
    (rest : (Fin n → Bool) → Outcome n) : Outcome n :=
  match written with
  | (.nil, online) => rest online
  | _ => ⟨true, s⟩

def putObject (O : CallOrder) (s : Disks n) (new : Version) (F : CallFaults n) : Outcome n :=
  if F.early then ⟨true, s⟩
  else
    withRoom (makeRoom L O s F) fun s =>
      withMetadata (writeMetadata L O.writeMeta F.wrote F.writeMeta) s fun online =>
        finish L O s new online F

def completeMultipartUpload (O : CallOrder) (s : Disks n) (new : Version) (F : CallFaults n) :
    Outcome n :=
  if F.early then ⟨true, s⟩
  else
    withMetadata (writeMetadata L O.writeMeta F.wrote F.writeMeta) s fun online =>
      withMetadata (writeMetadata L O.commitMeta online F.commitMeta) s fun online =>
        withRoom (makeRoom L O s F) fun s =>
          finish L O s new online F

end Calls

/-- After an error the old version is read, after success the new one. -/
def Keeps (O : ReadOrder) (hash : List Nat → Bytes) (old new : Version) (r : Outcome n) : Prop :=
  getObject O hash r.disks = .ok (if r.err then old else new)

/-! ## Readable versions -/

def Coherent (s : Disks n) : Prop :=
  ∀ i j v w, s i = some v → s j = some w → v.modTime = w.modTime → v = w

/-- A version that a read returns: half of the disks and as many as there are data blocks have it,
no other version is more frequent, and at least half of the disks have one. -/
structure Readable (s : Disks n) (v : Version) : Prop where
  half : n / 2 ≤ tally fun i => s i = some v
  data : v.dataBlocks ≤ tally fun i => s i = some v
  common : ∀ i w, s i = some w → w ≠ v →
    (tally fun i => s i = some w) < (tally fun i => s i = some v) ∨
      ((tally fun i => s i = some w) = (tally fun i => s i = some v) ∧ w.modTime < v.modTime)
  answered : (tally fun i => s i = none) ≤ tally fun i => s i ≠ none

/-! ## What the failures amount to -/

section Failures

variable (L : Layout n) (s : Disks n) (F : CallFaults n)

/-- A write quorum of the disks. -/
def Quorate (P : Fin n → Prop) [DecidablePred P] : Prop := L.writeQuorum ≤ tally P

instance (P : Fin n → Prop) [DecidablePred P] : Decidable (Quorate L P) :=
  inferInstanceAs (Decidable (_ ≤ _))

/-- A write quorum fails with one error, and not with one that is ignored. -/
def SameErr (errs : Fin n → Option StorageErr) : Prop :=
  ∃ e ∉ objectOpIgnoredErrs, Quorate L fun i => errs i = some e

/-- The object is found on half of the disks, and no other answer is more frequent. -/
structure Found (f : Faults n) : Prop where
  half : n / 2 ≤ tally fun i => f.err i = none ∧ s i ≠ none
  absent : (tally fun i => f.err i = none ∧ s i = none) ≤ tally fun i => f.err i = none ∧ s i ≠ none
  failed : ∀ e ∉ objectOpIgnoredErrs, (tally fun i => f.err i = some e) ≤ tally fun i => f.err i =
    none ∧ s i ≠ none

/-- The disks with the old object moved away where that works. -/
def taken : Disks n := fun i => if F.move.err i = none then none else s i

/-- The disks with the old object moved away and back, where that works. -/
def undone : Disks n := fun i => if F.move.err i = none ∧ F.undoMove.err i ≠ none then none else s i

/-- The disks that are online and do not fail. -/
def still (online : Fin n → Bool) (f : Faults n) (i : Fin n) : Bool := online i && (f.err i).isNone

/-- A disk that takes the new version when it is published. -/
def Takes (online : Fin n → Bool) (i : Fin n) : Prop := still online F.publish i = true ∧ s i = none

instance (online : Fin n → Bool) : DecidablePred (Takes s F online) :=
  fun _ => inferInstanceAs (Decidable (_ ∧ _))

/-- What is left of the new version when it is not published is on fewer disks than the old one. -/
def FewerLeft (online : Fin n → Bool) (old : Version) : Prop :=
  (SameErr L (publishErrs s online F.publish) →
      tally (Takes s F online) < tally fun i => s i = some old) ∧
    (¬ SameErr L (publishErrs s online F.publish) →
      (tally fun i => Takes s F online i ∧ F.undoPublish.err i ≠ none) <
        tally fun i => s i = some old)

/-- The failures, and the disks with the new metadata, of a call after which the right version is
read. An object that is found must be protected, or moved away and replaced, or stay readable where
it could not be moved; where it is not found, the new version may not be left on as many disks as
have the old one. -/
structure Safe (online : Fin n → Bool) (old : Version) : Prop where
  found : Found s F.stat → F.worm = true ∨
    (Quorate L (fun i => F.move.err i = none) ∧ Quorate L (Takes (taken s F) F online)) ∨
    (¬ Quorate L (fun i => F.move.err i = none) ∧
      (SameErr L F.move.err → Readable (taken s F) old) ∧
      (¬ SameErr L F.move.err → Readable (undone s F) old))
  unfound : ¬ Found s F.stat →
    ¬ Quorate L (fun i => online i = true) ∨ FewerLeft L s F online old

end Failures

section Readable

variable {s : Disks n} {v : Version}

theorem diskErrs_eq_none {i : Fin n} : diskErrs s i = none ↔ s i ≠ none := by
  unfold diskErrs
  split_ifs with h <;> simp [h]

theorem diskErrs_eq_notFound {i : Fin n} : diskErrs s i = some .errFileNotFound ↔ s i = none := by
  unfold diskErrs
  split_ifs with h <;> simp [h]

theorem reduce_diskErrs (R : MapOrder) {quorum : Nat} (hq : 0 < quorum) :
    reduceQuorumErrs R (slice (diskErrs s)) objectOpIgnoredErrs quorum = .nil ↔
      quorum ≤ (tally fun i => s i ≠ none) ∧ (tally fun i => s i = none) ≤ tally fun i =>
        s i ≠ none := by
  have hnil : (countedErrs (slice (diskErrs s)) objectOpIgnoredErrs).count none = tally fun i =>
      s i ≠ none := by
    rw [count_countedErrs rfl]
    exact tally_congr fun i => diskErrs_eq_none
  have hnot : (countedErrs (slice (diskErrs s)) objectOpIgnoredErrs).count (some .errFileNotFound) =
      tally fun i => s i = none := by
    rw [count_countedErrs rfl]
    exact tally_congr fun i => diskErrs_eq_notFound
  rw [reduceQuorumErrs_eq_nil R hq, hnil]
  refine and_congr_right fun _ => ⟨fun h => hnot ▸ h _, fun h e => ?_⟩
  by_cases he : e = none
  · rw [he, hnil]
  by_cases he' : e = some .errFileNotFound
  · rw [he', hnot]
    exact h
  · refine (count_countedErrs_le _ _ e).trans ?_
    rw [tally_eq_zero]
    · exact Nat.zero_le _
    · intro i hi
      unfold diskErrs at hi
      split_ifs at hi
      · exact he' hi.symm
      · exact he hi.symm

theorem listObjectModtimes_disk {i : Fin n} {t : Int} (ht : t ≠ timeSentinel) :
    listObjectModtimes (diskMetas s) (diskErrs s) i = t ↔ ∃ v, s i = some v ∧ v.modTime = t := by
  unfold listObjectModtimes diskErrs diskMetas
  cases h : s i with
  | none => simp [ht.symm]
  | some v => simp [Version.xlMeta]

variable (hs : Coherent s) {j : Fin n} (hv : s j = some v)

include hs hv

theorem Coherent.time_iff (i : Fin n) : (∃ w, s i = some w ∧ w.modTime = v.modTime) ↔
    s i = some v := by
  constructor
  · rintro ⟨w, hw, ht⟩
    rw [hw, hs i j w v hw hv ht]
  · exact fun h => ⟨v, h, rfl⟩

theorem count_times_disk :
    (countedTimes (slice (listObjectModtimes (diskMetas s) (diskErrs s)))).count v.modTime =
      tally fun i => s i = some v := by
  rw [count_countedTimes v.modTime_ne]
  exact tally_congr fun i => (listObjectModtimes_disk v.modTime_ne).trans (hs.time_iff hv i)

theorem readTime_iff (R : MapOrder) :
    readTime R (diskMetas s) (diskErrs s) = v.modTime ↔
      ∀ i w, s i = some w → w ≠ v →
        (tally fun i => s i = some w) < (tally fun i => s i = some v) ∨
          ((tally fun i => s i = some w) = (tally fun i => s i = some v) ∧
            w.modTime < v.modTime) := by
  have hmem : ∀ t, t ∈ countedTimes (slice (listObjectModtimes (diskMetas s) (diskErrs s))) ↔
      ∃ i w, s i = some w ∧ w.modTime = t := fun t => by
    simp only [countedTimes, slice, List.mem_filter, List.mem_map, List.mem_finRange, true_and,
      decide_eq_true_eq]
    constructor
    · rintro ⟨⟨i, hi⟩, ht⟩
      exact ⟨i, (listObjectModtimes_disk ht).1 hi⟩
    · rintro ⟨i, w, hw, rfl⟩
      exact ⟨⟨i, (listObjectModtimes_disk w.modTime_ne).2 ⟨w, hw, rfl⟩⟩, w.modTime_ne⟩
  have hcommon : IsCommon (countedTimes (slice (listObjectModtimes (diskMetas s) (diskErrs s))))
    v.modTime ↔
      ∀ i w, s i = some w → w ≠ v →
        (tally fun i => s i = some w) < (tally fun i => s i = some v) ∨
          ((tally fun i => s i = some w) = (tally fun i => s i = some v) ∧
              w.modTime < v.modTime) := by
    refine ⟨fun h i w hw hne => ?_, fun h => ⟨(hmem _).2 ⟨j, v, hv, rfl⟩, fun t ht => ?_⟩⟩
    · have := h.2 w.modTime ((hmem _).2 ⟨i, w, hw, rfl⟩)
      rw [count_times_disk hs hw, count_times_disk hs hv] at this
      refine this.imp id fun h => ⟨h.1, lt_of_le_of_ne h.2 fun he => hne (hs i j w v hw hv he)⟩
    · obtain ⟨i, w, hw, rfl⟩ := (hmem t).1 ht
      rw [count_times_disk hs hw, count_times_disk hs hv]
      by_cases hne : w = v
      · exact .inr ⟨by rw [hne], by rw [hne]⟩
      · exact (h i w hw hne).imp id fun h => ⟨h.1, h.2.le⟩
  rw [← hcommon, readTime]
  rcases commonTime_spec R (slice (listObjectModtimes (diskMetas s) (diskErrs s))) with ⟨h0, -⟩ | h
  · have := (hmem v.modTime).2 ⟨j, v, hv, rfl⟩
    rw [h0] at this
    cases this
  · exact ⟨fun he => he ▸ h, fun h' => h.unique h'⟩

theorem online_iff {R : MapOrder} (ht : readTime R (diskMetas s) (diskErrs s) = v.modTime)
    (i : Fin n) :
    listObjectModtimes (diskMetas s) (diskErrs s) i = readTime R (diskMetas s) (diskErrs s) ↔
      s i = some v := by
  rw [ht, listObjectModtimes_disk v.modTime_ne]
  exact hs.time_iff hv i

omit hs hv in
theorem xlMeta_isValid (v : Version) (i : Fin n) : (v.xlMeta i).isValid = true := by
  have := v.valid
  simp only [XlMeta.isValid, Version.xlMeta, ne_eq]
  exact decide_eq_true (by omega)

theorem valid_iff {R : MapOrder} (ht : readTime R (diskMetas s) (diskErrs s) = v.modTime)
    (i : Fin n) :
    ((diskMetas s i).isValid = true ∧ (diskMetas s i).modTime = readTime R (diskMetas s)
      (diskErrs s)) ↔ s i = some v := by
  rw [ht, ← hs.time_iff hv i, diskMetas]
  cases h : s i with
  | none => simp [XlMeta.isValid, XlMeta.zero]
  | some w =>
    simp only [Option.elim_some, xlMeta_isValid, true_and, Option.some.injEq, exists_eq_left']
    exact Iff.rfl

omit hs in
theorem diskMetas_of_eq : diskMetas s j = v.xlMeta j := by simp [diskMetas, hv]

omit hs hv in
theorem count_filterMap_finRange {α : Type} [DecidableEq α] [BEq α] [LawfulBEq α]
    (f : Fin n → Option α) (x : α) :
    ((List.finRange n).filterMap f).count x = tally fun i => f i = some x := by
  rw [List.count_filterMap]
  exact List.countP_congr fun i _ => by simp

omit hs hv in
theorem shards_eq {online : Fin n → Bool} (hon : ∀ i, online i = true ↔ s i = some v) :
    ((List.finRange n).filterMap fun i => if online i then s i else none) =
      List.replicate (tally fun i => s i = some v) v := by
  refine List.eq_replicate_iff.2 ⟨?_, fun w hw => ?_⟩
  · rw [List.length_filterMap_eq_countP]
    refine List.countP_congr fun i _ => ?_
    by_cases h : s i = some v
    · simp [(hon i).2 h, h]
    · simp [mt (hon i).1 h, h]
  · obtain ⟨i, -, hi⟩ := List.mem_filterMap.1 hw
    split_ifs at hi with h
    exact Option.some.inj (hi.symm.trans ((hon i).1 h))

theorem pick_eq (R R' : MapOrder) (hash : List Nat → Bytes)
    (ht : readTime R (diskMetas s) (diskErrs s) = v.modTime) :
    let N := tally fun i => s i = some v
    (pickValidXLMeta R' (diskMetas s) hash v.modTime v.dataBlocks = .error .errXLReadQuorum ∧
      N < v.dataBlocks) ∨
      ∃ i : Fin n, pickValidXLMeta R' (diskMetas s) hash v.modTime v.dataBlocks = .ok (v.xlMeta i) ∧
          v.dataBlocks ≤ N := by
  intro N
  have hd : 0 < v.dataBlocks := by have := v.valid; omega
  have hhash : ∀ i, metaHash (diskMetas s) hash v.modTime i = some (hash v.parts) ↔
      s i = some v := fun i => by
    rw [metaHash_eq_some, ← valid_iff hs hv ht i, ht, ← and_assoc]
    refine and_iff_left_of_imp fun h => ?_
    rw [← ht, valid_iff hs hv ht] at h
    rw [diskMetas_of_eq h]
    rfl
  have hcount : ((List.finRange n).filterMap (metaHash (diskMetas s) hash v.modTime)).count
      (hash v.parts) = N := by
    rw [count_filterMap_finRange]
    exact tally_congr hhash
  rcases pickValidXLMeta_eq R' (diskMetas s) hash v.modTime hd with ⟨he, hlt⟩ | ⟨i, h, he, hi, hle⟩
  · exact .inl ⟨he, hcount ▸ hlt _⟩
  · have hsi : s i = some v := by
      obtain ⟨h1, h2, -⟩ := metaHash_eq_some.1 hi
      exact (valid_iff hs hv ht i).1 ⟨h1, h2.trans ht.symm⟩
    obtain rfl : h = hash v.parts := Option.some.inj (hi.symm.trans ((hhash i).2 hsi))
    rw [diskMetas_of_eq hsi] at he
    exact .inr ⟨i, he, hcount ▸ hle⟩

theorem agrees_iff {R : MapOrder} (ht : readTime R (diskMetas s) (diskErrs s) = v.modTime)
    (i : Fin n) : (diskErrs s i = none ∧
      (diskMetas s i).modTime = readTime R (diskMetas s) (diskErrs s) ∧
        (diskMetas s i).isValid = true) ↔ s i = some v := by
  rw [← valid_iff hs hv ht i, diskErrs_eq_none]
  refine ⟨fun h => ⟨h.2.2, h.2.1⟩, fun h => ⟨?_, h.2, h.1⟩⟩
  rw [(valid_iff hs hv ht i).1 h]
  simp

theorem getObject_eq (O : ReadOrder) (hash : List Nat → Bytes) (hn : 2 ≤ n)
    (ht : readTime O.latest (diskMetas s) (diskErrs s) = v.modTime) :
    let enough := n / 2 ≤ (tally fun i => s i = some v) ∧
      v.dataBlocks ≤ (tally fun i => s i = some v) ∧
      (tally fun i => s i = none) ≤ tally fun i => s i ≠ none
    ((∃ e, getObject O hash s = .error e) ∧ ¬ enough) ∨ (getObject O hash s = .ok v ∧ enough) := by
  intro enough
  have hpos : 0 < n / 2 := by omega
  have hd : 0 < v.dataBlocks := by have := v.valid; omega
  have hpresent : (tally fun i => s i = some v) ≤ tally fun i => s i ≠ none :=
    tally_mono fun i hi => by simp [hi]
  have hagree := agrees_iff hs hv ht
  rcases getLatestXLMeta_cases O.latest (diskMetas s) (diskErrs s) hpos with ⟨⟨e, he⟩, hno⟩ |
    ⟨hr, hq, i, hi, hag⟩
  · refine .inl ⟨⟨e, by simp [getObject, objectQuorumFromMeta, he, Except.map]⟩,
      fun ⟨h1, _, h3⟩ => ?_⟩
    rw [tally_congr hagree, Ne, reduce_diskErrs O.latest hpos] at hno
    rcases hno with h | h
    · exact h ⟨h1.trans hpresent, h3⟩
    · omega
  · rw [tally_congr hagree] at hq
    have hquorum : objectQuorumFromMeta O.latest (diskMetas s) (diskErrs s) =
        .ok (v.dataBlocks, v.dataBlocks + 1) := by
      rw [objectQuorumFromMeta, hi, diskMetas_of_eq ((hagree i).1 hag)]
      rfl
    have htime : (listOnlineDisks O.online (diskMetas s) (diskErrs s)).2 = v.modTime :=
      (commonTime_order O.online O.latest _).trans ht
    have hanswered := ((reduce_diskErrs O.latest hpos).1 hr).2
    simp only [getObject, hquorum]
    have hnil (h : enough) := (reduce_diskErrs O.errs hd).2 ⟨h.2.1.trans hpresent, h.2.2⟩
    cases hr' : reduceQuorumErrs O.errs (slice (diskErrs s)) objectOpIgnoredErrs v.dataBlocks with
    | err e => exact .inl ⟨⟨_, rfl⟩, fun h => by cases hr'.symm.trans (hnil h)⟩
    | quorumErr => exact .inl ⟨⟨_, rfl⟩, fun h => by cases hr'.symm.trans (hnil h)⟩
    | nil =>
      simp only [htime]
      rcases pick_eq hs hv O.latest O.pick hash ht with ⟨he, hlt⟩ | ⟨k, he, hle⟩
      · exact .inl ⟨⟨_, by rw [he]⟩, fun h => by have := h.2.1; omega⟩
      · have hon : ∀ i, (listOnlineDisks O.online (diskMetas s) (diskErrs s)).1 i = true ↔
            s i = some v := fun i => by
          rw [← online_iff hs hv (R := O.online) htime i, listOnlineDisks]
          exact decide_eq_true_iff
        refine .inr ⟨?_, hq, hle, hanswered⟩
        rw [he]
        simp only [shards_eq hon, List.length_replicate]
        rw [if_neg (show ¬ _ < (v.xlMeta k).dataBlocks from not_lt.2 hle)]
        cases hN : tally fun i => s i = some v with
        | zero => omega
        | succ N => rfl

end Readable

theorem getObject_eq_ok_iff {s : Disks n} (hs : Coherent s) (hn : 2 ≤ n) (O : ReadOrder)
    (hash : List Nat → Bytes) (v : Version) : getObject O hash s = .ok v ↔ Readable s v := by
  constructor
  · intro h
    rcases getLatestXLMeta_cases O.latest (diskMetas s) (diskErrs s) (by omega) with ⟨⟨e, he⟩, -⟩ |
      ⟨-, -, i, -, he, ht, -⟩
    · simp [getObject, objectQuorumFromMeta, he, Except.map] at h
    · obtain ⟨w, hw⟩ := Option.ne_none_iff_exists'.1 (diskErrs_eq_none.1 he)
      rw [diskMetas_of_eq hw] at ht
      rcases getObject_eq hs hw O hash hn ht.symm with ⟨⟨e, he⟩, -⟩ | ⟨hok, h1, h2, h3⟩
      · rw [h] at he
        cases he
      · obtain rfl := Except.ok.inj (h.symm.trans hok)
        exact ⟨h1, h2, (readTime_iff hs hw O.latest).1 ht.symm, h3⟩
  · rintro ⟨h1, h2, h3, h4⟩
    obtain ⟨j, hj⟩ := tally_pos.1 (show 0 < tally fun i => s i = some v by omega)
    have ht := (readTime_iff hs hj O.latest).2 h3
    rcases getObject_eq hs hj O hash hn ht with ⟨-, hno⟩ | ⟨h, -⟩
    · exact absurd ⟨h1, h2, h4⟩ hno
    · exact h

/-! ## Quorums of a call -/

section Quorums

variable {L : Layout n} {s : Disks n} {new : Version} {F : CallFaults n} {online : Fin n → Bool}

theorem Layout.majority (L : Layout n) : n < 2 * L.writeQuorum := by
  have := L.sum
  have := L.le
  unfold Layout.writeQuorum
  omega

theorem reduce_writeQuorum (R : MapOrder) (errs : Fin n → Option StorageErr) :
    (reduceQuorumErrs R (slice errs) objectOpIgnoredErrs L.writeQuorum = .nil ↔
      Quorate L fun i => errs i = none) ∧
      (reduceQuorumErrs R (slice errs) objectOpIgnoredErrs L.writeQuorum = .quorumErr ↔
        ¬ Quorate L (fun i => errs i = none) ∧ ¬ SameErr L errs) := by
  have hlen : (slice errs).length < 2 * L.writeQuorum := by simpa [slice] using L.majority
  obtain ⟨hnil, hquorum⟩ := reduceQuorumErrs_of_majority R objectOpIgnoredErrs hlen
  rw [hnil, hquorum, count_countedErrs rfl]
  refine ⟨Iff.rfl, fun h => ⟨?_, ?_⟩, ?_⟩
  · have := h none
    rw [count_countedErrs rfl] at this
    exact not_le.2 this
  · rintro ⟨e, he, hq⟩
    have := h (some e)
    rw [count_countedErrs_some, if_neg he] at this
    exact absurd hq (not_le.2 this)
  · rintro ⟨hn, hs⟩ e
    cases e with
    | none =>
      rw [count_countedErrs rfl]
      exact not_le.1 hn
    | some e =>
      rw [count_countedErrs_some]
      split_ifs with he
      · exact Nat.succ_pos _
      · exact not_le.1 fun hq => hs ⟨e, he, hq⟩

/-- What is undone without a quorum stays if all fail alike. -/
theorem undo_spec (R : MapOrder) (errs : Fin n → Option StorageErr) (a b : Disks n) :
    let out := match reduceQuorumErrs R (slice errs) objectOpIgnoredErrs L.writeQuorum with
      | .quorumErr => (Reduced.quorumErr, a)
      | r => (r, b)
    (Quorate L (fun i => errs i = none) → out = (.nil, b)) ∧
      (¬ Quorate L (fun i => errs i = none) → out.1 ≠ .nil ∧ (SameErr L errs → out.2 = b) ∧
          (¬ SameErr L errs → out.2 = a)) := by
  obtain ⟨hnil, hquorum⟩ := reduce_writeQuorum (L := L) R errs
  cases h : reduceQuorumErrs R (slice errs) objectOpIgnoredErrs L.writeQuorum with
  | nil => exact ⟨fun _ => rfl, fun hn => absurd (hnil.1 h) hn⟩
  | err e =>
    refine ⟨fun hq => ?_, fun hn => ⟨nofun, fun _ => rfl, fun hs => ?_⟩⟩
    · rw [hnil.2 hq] at h
      cases h
    · rw [hquorum.2 ⟨hn, hs⟩] at h
      cases h
  | quorumErr =>
    obtain ⟨hn, hs⟩ := hquorum.1 h
    exact ⟨fun hq => absurd hq hn, fun _ => ⟨nofun, fun hs' => absurd hs' hs, fun _ => rfl⟩⟩

theorem moveAway_spec (R : MapOrder) :
    (Quorate L (fun i => F.move.err i = none) → moveAway L R s F.move F.undoMove =
      (.nil, taken s F)) ∧
      (¬ Quorate L (fun i => F.move.err i = none) → (moveAway L R s F.move F.undoMove).1 ≠ .nil ∧
        (SameErr L F.move.err → (moveAway L R s F.move F.undoMove).2 = taken s F) ∧
        (¬ SameErr L F.move.err → (moveAway L R s F.move F.undoMove).2 = undone s F)) := by
  have htaken : (fun i => if movedDisk s F.move i then none else s i) = taken s F := by
    funext i
    by_cases h : F.move.err i = none <;> cases hi : s i <;> simp [movedDisk, taken, h, hi]
  have hundone : (fun i => if movedDisk s F.move i ∧ F.undoMove.err i ≠ none then none else s i) =
      undone s F := by
    funext i
    by_cases h : F.move.err i = none <;> cases hi : s i <;> simp [movedDisk, undone, h, hi]
  rw [← htaken, ← hundone]
  exact undo_spec R F.move.err _ _

theorem publishErrs_eq_none {i : Fin n} : publishErrs s online F.publish i = none ↔
    Takes s F online i := by
  unfold publishErrs onOnline Takes still
  cases online i <;> cases F.publish.err i <;> cases s i <;> simp

theorem publish_spec (R : MapOrder) (L : Layout n) (s : Disks n) (new : Version) (F : CallFaults n)
    (online : Fin n → Bool) :
    (Quorate L (Takes s F online) → publish L R s new online F.publish F.undoPublish =
      (.nil, fun i => if Takes s F online i then some new else s i)) ∧
      (¬ Quorate L (Takes s F online) →
        (publish L R s new online F.publish F.undoPublish).1 ≠ .nil ∧
        (SameErr L (publishErrs s online F.publish) →
          (publish L R s new online F.publish F.undoPublish).2 = fun i =>
            if Takes s F online i then some new else s i) ∧
        (¬ SameErr L (publishErrs s online F.publish) →
          (publish L R s new online F.publish F.undoPublish).2 =
          fun i => if Takes s F online i ∧ F.undoPublish.err i ≠ none then some new else s i)) := by
  have h := undo_spec (L := L) R (publishErrs s online F.publish)
    (fun i => if publishErrs s online F.publish i = none ∧ F.undoPublish.err i ≠ none then some new
      else s i)
    (fun i => if publishErrs s online F.publish i = none then some new else s i)
  simp only [publishErrs_eq_none] at h
  simpa only [publish, publishErrs_eq_none] using h

theorem finish_of_err {O : CallOrder}
    (h : (publish L O.publish s new online F.publish F.undoPublish).1 ≠ .nil) :
    finish L O s new online F =
      ⟨true, (publish L O.publish s new online F.publish F.undoPublish).2⟩ := by
  unfold finish
  split
  · rename_i hp
    rw [hp] at h
    exact absurd rfl h
  · rename_i hp
    rw [hp]

theorem withMetadata_eq (R : MapOrder) (f : Faults n) (rest : (Fin n → Bool) → Outcome n) :
    withMetadata (writeMetadata L R online f) s rest =
      if Quorate L fun i => still online f i = true then rest (still online f) else ⟨true, s⟩ := by
  have hstill : ∀ i, onOnline online f i = none ↔ still online f i = true := fun i => by
    unfold onOnline still
    cases online i <;> cases f.err i <;> simp
  have honline : (fun i => decide (onOnline online f i = none)) = still online f :=
    funext fun i => by
    rw [Bool.eq_iff_iff, ← hstill i, decide_eq_true_iff]
  have hnil : reduceQuorumErrs R (slice (onOnline online f)) objectOpIgnoredErrs L.writeQuorum =
    .nil ↔
      Quorate L fun i => still online f i = true := by
    rw [(reduce_writeQuorum R _).1, Quorate, Quorate, tally_congr hstill]
  rw [writeMetadata, honline]
  cases h : reduceQuorumErrs R (slice (onOnline online f)) objectOpIgnoredErrs L.writeQuorum with
  | nil => exact (if_pos (hnil.1 h)).symm
  | err | quorumErr => exact (if_neg fun hq => by rw [hnil.2 hq] at h; cases h).symm

theorem isObject_iff (hn : 2 ≤ n) (R : MapOrder) (f : Faults n) :
    isObject R s f = true ↔ Found s f := by
  let errs : Fin n → Option StorageErr := fun i =>
    match f.err i with
    | some e => some e
    | none => if s i = none then some .errFileNotFound else none
  have hnone : ∀ i, errs i = none ↔ f.err i = none ∧ s i ≠ none := fun i => by
    simp only [errs]
    cases f.err i <;> by_cases h : s i = none <;> simp [h]
  have habsent : ∀ i, errs i = some .errFileNotFound ↔ f.err i = none ∧ s i = none := fun i => by
    have := f.honest i
    simp only [errs]
    cases he : f.err i with
    | none => by_cases h : s i = none <;> simp [h]
    | some e => simpa [he] using this
  have hfailed : ∀ e ≠ .errFileNotFound, ∀ i, errs i = some e ↔ f.err i = some e := fun e he i => by
    simp only [errs]
    cases f.err i <;> by_cases h : s i = none <;> simp [h, he.symm]
  have hiff : isObject R s f = true ↔
      reduceQuorumErrs R (slice errs) objectOpIgnoredErrs (n / 2) = .nil :=
    decide_eq_true_iff
  rw [hiff, reduceQuorumErrs_eq_nil R (by omega), count_countedErrs rfl, tally_congr hnone]
  constructor
  · rintro ⟨hhalf, hall⟩
    refine ⟨hhalf, ?_, fun e he => ?_⟩
    · have := hall (some .errFileNotFound)
      rwa [count_countedErrs rfl, tally_congr habsent] at this
    · by_cases hf : e = .errFileNotFound
      · rw [tally_eq_zero fun i => hf ▸ f.honest i]
        exact Nat.zero_le _
      · have := hall (some e)
        rwa [count_countedErrs_some, if_neg he, tally_congr (hfailed e hf)] at this
  · rintro ⟨hhalf, habs, hfail⟩
    refine ⟨hhalf, fun e => ?_⟩
    cases e with
    | none => rw [count_countedErrs rfl, tally_congr hnone]
    | some e =>
      rw [count_countedErrs_some]
      split_ifs with he
      · exact Nat.zero_le _
      · by_cases hf : e = .errFileNotFound
        · rwa [hf, tally_congr habsent]
        · rw [tally_congr (hfailed e hf)]
          exact hfail e he

end Quorums

/-! ## What calls leave -/

section Outcomes

variable {L : Layout n} {s : Disks n} {old new : Version} {F : CallFaults n} {O : CallOrder}
    {online : Fin n → Bool}

theorem Coherent.of_left (hs : Coherent s) (hlater : ∀ i w, s i = some w → w.modTime < new.modTime)
    {r : Disks n} (hleft : ∀ i w, r i = some w → w = new ∨ s i = some w) : Coherent r := by
  intro i j v w hv hw ht
  rcases hleft i v hv with rfl | hv <;> rcases hleft j w hw with rfl | hw
  · rfl
  · exact absurd ht (hlater j w hw).ne'
  · exact absurd ht (hlater i v hv).ne
  · exact hs i j v w hv hw ht

theorem readable_of_quorate {r : Disks n} (hnew : new.dataBlocks = L.dataDrives)
    (h : Quorate L fun i => r i = some new) : Readable r new := by
  have hsum := L.sum
  have hle := L.le
  unfold Quorate Layout.writeQuorum at h
  refine ⟨by omega, by omega, fun i w _ hne => .inl ?_, ?_⟩
  · have := tally_add_le (P := fun i => r i = some new) (Q := fun i => r i = some w) fun i h1 h2 =>
      hne (Option.some.inj (h2.symm.trans h1))
    omega
  · have h1 := tally_add_le (P := fun i => r i = some new) (Q := fun i => r i = none)
      fun i h1 h2 => by simp [h1] at h2
    have h2 : (tally fun i => r i = some new) ≤ tally fun i => r i ≠ none :=
      tally_mono fun i hi => by simp [hi]
    omega

theorem Readable.exists_eq (h : Readable s old) : ∃ i, s i = some old := by
  have := h.data
  have := old.valid
  exact tally_pos.1 (by omega)

theorem taken_eq_some {i : Fin n} {w : Version} (h : taken s F i = some w) :
    s i = some w ∧ F.move.err i ≠ none := by
  unfold taken at h
  split_ifs at h with hm
  exact ⟨h, hm⟩

theorem not_readable_of_moved (hmoved : Quorate L fun i => F.move.err i = none) {r : Disks n}
    (hgone : ∀ i, r i = some old → F.move.err i ≠ none) : ¬ Readable r old := by
  intro h
  have hhalf := h.half
  have hleft : (tally fun i => r i = some old) ≤ tally fun i => ¬ F.move.err i = none :=
    tally_mono hgone
  have := tally_add_tally_not fun i => F.move.err i = none
  have := L.sum
  have := L.le
  unfold Quorate Layout.writeQuorum at hmoved
  omega

/-- New versions on some empty places hide the old one when they are as many. -/
theorem readable_left_iff (hread : Readable s old)
    (hlater : ∀ i w, s i = some w → w.modTime < new.modTime)
    {P : Fin n → Prop} [DecidablePred P] (hP : ∀ i, P i → s i = none) :
    Readable (fun i => if P i then some new else s i) old ↔
      tally P < tally fun i => s i = some old := by
  obtain ⟨j, hj⟩ := hread.exists_eq
  have hsame : ∀ w ≠ new, ∀ i, (if P i then some new else s i) = some w ↔ s i = some w :=
    fun w hw i => by
    split_ifs with h
    · simp [hP i h, hw.symm]
    · rfl
  have hnew : ∀ i, (if P i then some new else s i) = some new ↔ P i := fun i => by
    split_ifs with h
    · simp [h]
    · exact iff_of_false (fun hi => (hlater i new hi).false) h
  have hne : old ≠ new := fun h => (hlater j old hj).ne (by rw [h])
  have hcount : ∀ w ≠ new, (tally fun i => (if P i then some new else s i) = some w) =
      tally fun i => s i = some w :=
    fun w hw => tally_congr (hsame w hw)
  constructor
  · intro h
    rcases Nat.eq_zero_or_pos (tally P) with h0 | hpos
    · rw [h0]
      exact tally_pos.2 ⟨j, hj⟩
    · obtain ⟨i, hi⟩ := tally_pos.1 hpos
      have := h.common i new ((hnew i).2 hi) hne.symm
      rw [hcount old hne, tally_congr hnew] at this
      exact this.resolve_right fun h => absurd h.2 (not_lt.2 (hlater j old hj).le)
  · intro hlt
    refine ⟨?_, ?_, fun i w hi hw => ?_, ?_⟩
    · rw [hcount old hne]
      exact hread.half
    · rw [hcount old hne]
      exact hread.data
    · rw [hcount old hne]
      by_cases hwn : w = new
      · rw [hwn, tally_congr hnew]
        exact .inl hlt
      · rw [hcount w hwn]
        exact hread.common i w ((hsame w hwn i).1 hi) hw
    · have h1 : (tally fun i => (if P i then some new else s i) = none) ≤
          tally fun i => s i = none :=
        tally_mono fun i hi => by
          split_ifs at hi
          exact hi
      have h2 : (tally fun i => s i ≠ none) ≤ tally fun i => (if P i then some new
          else s i) ≠ none :=
        tally_mono fun i hi => by
          split_ifs
          · simp
          · exact hi
      exact h1.trans (hread.answered.trans h2)

variable {D : ReadOrder} {hash : List Nat → Bytes} (hs : Coherent s)
  (hlater : ∀ i w, s i = some w → w.modTime < new.modTime) (hnew : new.dataBlocks = L.dataDrives)
  (hread : Readable s old)

theorem Layout.two_le (L : Layout n) : 2 ≤ n := by
  have := L.sum
  have := L.le
  have := L.pos
  omega

include L hs hlater

theorem keeps_err_iff {r : Disks n} (hleft : ∀ i w, r i = some w → w = new ∨ s i = some w) :
    Keeps D hash old new ⟨true, r⟩ ↔ Readable r old :=
  getObject_eq_ok_iff (hs.of_left hlater hleft) L.two_le D hash old

include hnew in
theorem keeps_ok {r : Disks n} (hleft : ∀ i w, r i = some w → w = new ∨ s i = some w)
    (hq : Quorate L fun i => r i = some new) : Keeps D hash old new ⟨false, r⟩ :=
  (getObject_eq_ok_iff (hs.of_left hlater hleft) L.two_le D hash new).2
    (readable_of_quorate hnew hq)

include hread

include hnew in
theorem keeps_finish_taken (hmoved : Quorate L fun i => F.move.err i = none) :
    Keeps D hash old new (finish L O (taken s F) new online F) ↔
      Quorate L (Takes (taken s F) F online) := by
  have hput : ∀ (P : Fin n → Prop) [DecidablePred P] i w, (if P i then some new else taken s F i) =
    some w →
      w = new ∨ s i = some w := fun P _ i w h => by
    split_ifs at h
    · exact .inl (Option.some.inj h).symm
    · exact .inr (taken_eq_some h).1
  obtain ⟨j, hj⟩ := hread.exists_eq
  have hne : old ≠ new := fun h => (hlater j old hj).ne (by rw [h])
  have hgone : ∀ (P : Fin n → Prop) [DecidablePred P], ¬ Readable (fun i => if P i then some new
      else taken s F i) old :=
    fun P _ => not_readable_of_moved hmoved fun i h => by
      split_ifs at h
      · exact absurd (Option.some.inj h).symm hne
      · exact (taken_eq_some h).2
  obtain ⟨hok, herr⟩ := publish_spec O.publish L (taken s F) new F online
  by_cases hq : Quorate L (Takes (taken s F) F online)
  · refine iff_of_true ?_ hq
    rw [finish, hok hq]
    refine keeps_ok hs hlater hnew (hput _) (hq.trans (tally_mono fun i hi => ?_))
    rw [if_pos hi]
  · refine iff_of_false ?_ hq
    obtain ⟨hnil, hsame, hdiff⟩ := herr hq
    rw [finish_of_err hnil]
    by_cases hs' : SameErr L (publishErrs (taken s F) online F.publish)
    · rw [hsame hs', keeps_err_iff (L := L) hs hlater (hput _)]
      exact hgone _
    · rw [hdiff hs', keeps_err_iff (L := L) hs hlater (hput _)]
      exact hgone _

theorem keeps_finish_unmoved :
    Keeps D hash old new (finish L O s new online F) ↔ FewerLeft L s F online old := by
  have hput : ∀ (P : Fin n → Prop) [DecidablePred P] i w, (if P i then some new else s i) = some w →
      w = new ∨ s i = some w := fun P _ i w h => by
    split_ifs at h
    · exact .inl (Option.some.inj h).symm
    · exact .inr h
  -- the old version stands on too many disks for a quorum
  have hq : ¬ Quorate L (Takes s F online) := fun hq => by
    have hhalf := hread.half
    have := tally_add_le (P := Takes s F online) (Q := fun i => s i = some old) fun i h h' => by
      simp [h.2] at h'
    have := L.sum
    have := L.le
    unfold Quorate Layout.writeQuorum at hq
    omega
  obtain ⟨hnil, hsame, hdiff⟩ := (publish_spec O.publish L s new F online).2 hq
  rw [finish_of_err hnil]
  by_cases hs' : SameErr L (publishErrs s online F.publish)
  · rw [hsame hs', keeps_err_iff (L := L) hs hlater (hput _),
      readable_left_iff hread hlater fun i h => h.2]
    simp [FewerLeft, hs']
  · rw [hdiff hs', keeps_err_iff (L := L) hs hlater (hput _),
      readable_left_iff hread hlater fun i h => h.1.2]
    simp [FewerLeft, hs']

/-- Whatever the rest of the call is, if it does what it should with the old object moved away or
not found. -/
theorem keeps_withRoom_iff {rest : Disks n → Outcome n}
    (htaken : Quorate L (fun i => F.move.err i = none) →
      (Keeps D hash old new (rest (taken s F)) ↔ Quorate L (Takes (taken s F) F online)))
    (hunmoved : Keeps D hash old new (rest s) ↔
      ¬ Quorate L (fun i => online i = true) ∨ FewerLeft L s F online old) :
    Keeps D hash old new (withRoom (makeRoom L O s F) rest) ↔ Safe L s F online old := by
  by_cases hf : Found s F.stat
  · have hobj : isObject O.stat s F.stat = true := (isObject_iff L.two_le _ _).2 hf
    have hsafe : Safe L s F online old ↔ _ :=
      ⟨fun h => h.found hf, fun h => ⟨fun _ => h, fun h => absurd hf h⟩⟩
    rw [hsafe, makeRoom, if_pos hobj]
    by_cases hw : F.worm = true
    · rw [if_pos hw]
      exact iff_of_true ((keeps_err_iff (L := L) hs hlater fun _ _ h => .inr h).2 hread) (.inl hw)
    · rw [if_neg hw]
      obtain ⟨hok, herr⟩ := moveAway_spec (L := L) (s := s) (F := F) O.move
      by_cases hq : Quorate L fun i => F.move.err i = none
      · rw [hok hq]
        have hrest := htaken hq
        simpa [hw, hq, withRoom] using hrest
      · obtain ⟨hnil, hsame, hdiff⟩ := herr hq
        rcases hm : moveAway L O.move s F.move F.undoMove with ⟨r, s'⟩
        rw [hm] at hnil hsame hdiff
        have hstop : withRoom (match (r, s') with | (.nil, s') => .ok s' | (_, s') => .error s')
            rest = ⟨true, s'⟩ := by
          cases r with
          | nil => exact absurd rfl hnil
          | err | quorumErr => rfl
        rw [hstop]
        by_cases hs' : SameErr L F.move.err
        · obtain rfl := hsame hs'
          rw [keeps_err_iff (L := L) hs hlater fun i w h => .inr (taken_eq_some h).1]
          simp [hw, hq, hs']
        · obtain rfl := hdiff hs'
          rw [keeps_err_iff (L := L) hs hlater
            fun i w h => by unfold undone at h; split_ifs at h; exact .inr h]
          simp [hw, hq, hs']
  · have hobj : ¬ isObject O.stat s F.stat = true := mt (isObject_iff L.two_le _ _).1 hf
    have hsafe : Safe L s F online old ↔ _ :=
      ⟨fun h => h.unfound hf, fun h => ⟨fun h => absurd h hf, fun _ => h⟩⟩
    rw [hsafe, makeRoom, if_neg hobj]
    exact hunmoved

include hnew

theorem keeps_putObject_iff :
    Keeps D hash old new (putObject L O s new F) ↔ F.early = true ∨
      Safe L s F (still F.wrote F.writeMeta) old := by
  have hsame : Keeps D hash old new ⟨true, s⟩ :=
    (keeps_err_iff (L := L) hs hlater fun _ _ h => .inr h).2 hread
  unfold putObject
  by_cases he : F.early = true
  · rw [if_pos he]
    exact iff_of_true hsame (.inl he)
  rw [if_neg he, or_iff_right he]
  simp only [withMetadata_eq]
  by_cases hq : Quorate L fun i => still F.wrote F.writeMeta i = true
  · simp only [if_pos hq]
    refine keeps_withRoom_iff hs hlater hread (fun hmoved => keeps_finish_taken hs hlater hnew
      hread hmoved) ?_
    rw [keeps_finish_unmoved hs hlater hread, or_iff_right (not_not.2 hq)]
  · simp only [if_neg hq]
    refine keeps_withRoom_iff hs hlater hread (fun hmoved => iff_of_false ?_ fun ht => ?_)
      (iff_of_true hsame (.inl hq))
    · rw [keeps_err_iff (L := L) hs hlater fun i w h => .inr (taken_eq_some h).1]
      exact not_readable_of_moved hmoved fun i h => (taken_eq_some h).2
    · refine hq (ht.trans (tally_mono fun i hi => ?_))
      have := hi.1
      rw [still, Bool.and_eq_true] at this
      exact this.1

theorem keeps_completeMultipartUpload_iff :
    Keeps D hash old new (completeMultipartUpload L O s new F) ↔
      F.early = true ∨ ¬ Quorate L (fun i => still (still F.wrote F.writeMeta) F.commitMeta i =
        true) ∨
        Safe L s F (still (still F.wrote F.writeMeta) F.commitMeta) old := by
  have hsame : Keeps D hash old new ⟨true, s⟩ :=
    (keeps_err_iff (L := L) hs hlater fun _ _ h => .inr h).2 hread
  unfold completeMultipartUpload
  by_cases he : F.early = true
  · rw [if_pos he]
    exact iff_of_true hsame (.inl he)
  rw [if_neg he, or_iff_right he]
  simp only [withMetadata_eq]
  by_cases hq : Quorate L fun i => still (still F.wrote F.writeMeta) F.commitMeta i = true
  · have hq' : Quorate L fun i => still F.wrote F.writeMeta i = true :=
      hq.trans (tally_mono fun i hi => by
      rw [still, Bool.and_eq_true] at hi
      exact hi.1)
    rw [if_pos hq', if_pos hq, or_iff_right (not_not.2 hq)]
    refine keeps_withRoom_iff hs hlater hread (fun hmoved => keeps_finish_taken hs hlater hnew
      hread hmoved) ?_
    rw [keeps_finish_unmoved hs hlater hread, or_iff_right (not_not.2 hq)]
  · refine iff_of_true ?_ (.inl hq)
    rw [if_neg hq, ite_self]
    exact hsame

end Outcomes

/-- After `PutObject` and `CompleteMultipartUpload` the right version is read exactly if the call
ended early, had no write quorum for the metadata before anything was moved, or met failures that
are safe. -/
theorem overwrite_iff (L : Layout n) (s : Disks n) (old new : Version) (F : CallFaults n)
    (O : CallOrder) (D : ReadOrder) (hash : List Nat → Bytes) (hs : Coherent s)
    (hlater : ∀ i w, s i = some w → w.modTime < new.modTime)
    (hnew : new.dataBlocks = L.dataDrives) (hold : getObject D hash s = .ok old) :
    (Keeps D hash old new (putObject L O s new F) ↔
      F.early = true ∨ Safe L s F (still F.wrote F.writeMeta) old) ∧
    (Keeps D hash old new (completeMultipartUpload L O s new F) ↔
      F.early = true ∨ ¬ Quorate L (fun i => still (still F.wrote F.writeMeta) F.commitMeta i =
        true) ∨
        Safe L s F (still (still F.wrote F.writeMeta) F.commitMeta) old) := by
  have hread := (getObject_eq_ok_iff hs L.two_le D hash old).1 hold
  exact ⟨keeps_putObject_iff hs hlater hnew hread,
    keeps_completeMultipartUpload_iff hs hlater hnew hread⟩

/-! ## Four disks -/

def fourDrives : Layout 4 := ⟨2, 2, rfl, by decide, by decide⟩

def oldVersion : Version := ⟨1, 2, 2, [1], lit "old", by decide, by decide⟩

def newVersion : Version := ⟨2, 2, 2, [1], lit "new", by decide, by decide⟩

def oldEverywhere : Disks 4 := fun _ => some oldVersion

def noFaults : Faults 4 := ⟨fun _ => none, fun _ => nofun⟩

def twoFaults : Faults 4 := ⟨fun i => if i.val < 2 then some .errFaultyDisk else none, by decide⟩

def fineCall : CallFaults 4 where
  early := false
  wrote := fun _ => true
  stat := noFaults
  worm := false
  move := noFaults
  undoMove := noFaults
  writeMeta := noFaults
  commitMeta := noFaults
  publish := noFaults
  undoPublish := noFaults

def plainCallOrder : CallOrder := ⟨plainOrder, plainOrder, plainOrder, plainOrder, plainOrder⟩

def plainReadOrder : ReadOrder := ⟨plainOrder, plainOrder, plainOrder, plainOrder⟩

theorem coherent_oldEverywhere : Coherent oldEverywhere :=
  fun _ _ _ _ hv hw _ => Option.some.inj (hv.symm.trans hw)

/-- A put that moves the old object on two disks only, and back. -/
theorem overwrite_iff_undone :
    Keeps plainReadOrder (fun _ => []) oldVersion newVersion
      (putObject fourDrives plainCallOrder oldEverywhere newVersion
        { fineCall with move := twoFaults }) := by
  have hread : Readable (undone oldEverywhere { fineCall with move := twoFaults }) oldVersion := by
    have hsame : undone oldEverywhere { fineCall with move := twoFaults } = oldEverywhere := by
      funext i
      simp [undone, fineCall, noFaults]
    rw [hsame]
    exact (getObject_eq_ok_iff coherent_oldEverywhere (by decide) plainReadOrder (fun _ => [])
      oldVersion).1 (by decide)
  have hfaulty : ¬ SameErr fourDrives twoFaults.err := by
    rintro ⟨e, he, hq⟩
    obtain ⟨i, hi⟩ := tally_pos.1 (Nat.lt_of_lt_of_le (by decide) hq)
    simp only [twoFaults] at hi
    split_ifs at hi
    obtain rfl := Option.some.inj hi
    exact he (by decide)
  have hfound : Found oldEverywhere fineCall.stat := ⟨by decide, by decide, fun e _ => by
    rw [tally_eq_zero fun i => by simp [fineCall, noFaults]]
    exact Nat.zero_le _⟩
  exact ((overwrite_iff fourDrives oldEverywhere oldVersion newVersion
    { fineCall with move := twoFaults } plainCallOrder
    plainReadOrder (fun _ => []) coherent_oldEverywhere (fun _ w hw => by cases hw; decide)
      rfl (by decide)).1).2
    (.inr ⟨fun _ => .inr (.inr ⟨by decide, fun h => absurd h hfaulty, fun _ => hread⟩),
      fun h => absurd hfound h⟩)

/-- A put whose metadata cannot be written on two disks, and a completion that cannot be published
on two: both fail, and the object is gone. -/
theorem overwrite_loses_object :
    getObject plainReadOrder (fun _ => []) oldEverywhere = .ok oldVersion ∧
    (putObject fourDrives plainCallOrder oldEverywhere newVersion
      { fineCall with writeMeta := twoFaults }).err = true ∧
    getObject plainReadOrder (fun _ => [])
      (putObject fourDrives plainCallOrder oldEverywhere newVersion
        { fineCall with writeMeta := twoFaults }).disks =
        .error (.storage .errFileNotFound) ∧
    (completeMultipartUpload fourDrives plainCallOrder oldEverywhere newVersion
      { fineCall with publish := twoFaults }).err =
      true ∧
    getObject plainReadOrder (fun _ => [])
      (completeMultipartUpload fourDrives plainCallOrder oldEverywhere newVersion
        { fineCall with publish := twoFaults }).disks =
        .error (.storage .errFileNotFound) := by
  decide

end S3Kinetic.Xl
