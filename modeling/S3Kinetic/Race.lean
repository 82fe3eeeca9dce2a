import S3Kinetic.EndToEnd
import Mathlib.Logic.Relation

/-!
# Completion against abort

`CompleteMultipartUpload` and `AbortMultipartUpload` of one upload run side by side, one store
operation a step. Every operation but the `koStat` of a listed part is made under `kineticMutex`,
which completion keeps from the read of the upload's record to the put of the object, and
`deleteKeys` for all of its deletes.

The record of the upload decides the race: abort deletes it first, completion needs it for the put.
So either the object is never put, or abort starts after the put and works on the version after that
(`Race.inv_run`).
-/

namespace S3Kinetic

open ByteString Decimal OrdMap

inductive Party where
  | completer
  | aborter
  deriving DecidableEq

/-- `deleteParts` between two operations: about to ask for keys, for the first or the second time,
about to delete keys, or at its end. -/
inductive DeletePC where
  | query (first : Bool)
  | deleting (first : Bool) (keys : List Bytes)
  | finished (err : Option Err)

/-- `CompleteMultipartUpload` between two operations. -/
inductive CompletePC where
  | start
  | query (objVer : Bytes)
  | validate (objVer : Bytes) (keys : List Bytes) (todo : List CompletePart)
    (ps : List ObjectPartInfo)
  | getJson (objVer : Bytes) (ps : List ObjectPartInfo)
  | deleteJson (objVer : Bytes) (ps : List ObjectPartInfo) (value : Bytes)
  | putObject (objVer : Bytes) (ps : List ObjectPartInfo) (value : Bytes)
  | cleanup (objVer : Bytes) (info : ObjectInfo) (pc : DeletePC)
  | done (res : Except Err ObjectInfo)

/-- `AbortMultipartUpload` between two operations. -/
inductive AbortPC where
  | start
  | version
  | deleteParts (nxtVer : Bytes) (pc : DeletePC)
  | done (err : Option Err)

/-! ## The steps -/

abbrev Stepped (α : Type) := Store × α × Bool

variable (K : Kineticd)

def DeletePC.step (s : Store) (objKey version : Bytes) : DeletePC → Stepped DeletePC
  | .query first => (s, .deleting first (partKeyRange K s objKey version), false)
  | .deleting first [] => (s, if first then .query false else .finished none, false)
  | .deleting first (key :: keys) =>
    match delete K s key with
    | (s, none) => (s, .deleting first keys, true)
    -- the error of the second round is assigned to a shadowed variable
    | (s, some e) => (s, .finished (if first then some e else none), false)
  | .finished err => (s, .finished err, false)

section

variable (bucket object uploadID : Bytes) (parts : List CompletePart)

def CompletePC.step (s : Store) : CompletePC → Stepped CompletePC
  | .start =>
    match currentVersion K s (makeKey bucket object) with
    | .error e => (s, .done (.error e), false)
    | .ok objVer => (s, .query objVer, false)
  | .query objVer =>
    let startKey := partsKey (makeKey bucket object) (newVersion objVer)
    match stripKeys startKey (partKeyRange K s (makeKey bucket object) (newVersion objVer)) with
    | .error e => (s, .done (.error e), false)
    | .ok keys => (s, .validate objVer keys parts [], false)
  | .validate objVer _ [] ps => (s, .getJson objVer ps, false)
  | .validate objVer keys (part :: todo) ps =>
    match completePart K s (partsKey (makeKey bucket object) (newVersion objVer)) keys part with
    | .error e => (s, .done (.error e), false)
    | .ok p =>
      match checkPartSize todo.isEmpty p with
      | some e => (s, .done (.error e), false)
      | none => (s, .validate objVer keys todo (ps ++ [p]), false)
  | .getJson objVer ps =>
    match cGet K s (jsonKey (makeKey bucket object) uploadID) (-1) 0 (-1) with
    | .error _ => (s, .done (.error .errFileNotFound), false)
    | .ok value => (s, .deleteJson objVer ps value, true)
  | .deleteJson objVer ps value =>
    ((delete K s (jsonKey (makeKey bucket object) uploadID)).1, .putObject objVer ps value, true)
  | .putObject objVer ps value =>
    match K.unmarshal ⟨[], ∅, ps, ⟨[], 0, 0⟩⟩ value with
    | none => (s, .done (.error .errUnmarshal), false)
    | some m =>
      let fsMeta := completeMeta m (newVersion objVer) (getCompleteMultipartMD5 K parts)
        (totalActualSize ps)
      let info := fsMeta.toObjectKVInfo bucket object (totalActualSize ps)
      match cPut K s (makeKey bucket object) ⟨.json fsMeta, []⟩ with
      | (s, some e) => (s, .done (.error e), false)
      | (s, none) =>
        (s, if objVer ≠ [] then .cleanup objVer info (.query true) else .done (.ok info), false)
  | .cleanup _ info (.finished _) => (s, .done (.ok info), false)
  | .cleanup objVer info pc =>
    let (s, pc, keep) := pc.step K s (makeKey bucket object) objVer
    (s, .cleanup objVer info pc, keep)
  | .done res => (s, .done res, false)

def AbortPC.step (s : Store) : AbortPC → Stepped AbortPC
  | .start => ((delete K s (jsonKey (makeKey bucket object) uploadID)).1, .version, false)
  | .version =>
    match currentVersion K s (makeKey bucket object) with
    | .error e => (s, .done (some e), false)
    | .ok objVer => (s, .deleteParts (newVersion objVer) (.query true), false)
  | .deleteParts _ (.finished err) => (s, .done err, false)
  | .deleteParts nxtVer pc =>
    let (s, pc, keep) := pc.step K s (makeKey bucket object) nxtVer
    (s, .deleteParts nxtVer pc, keep)
  | .done err => (s, .done err, false)

end

/-- Only the `koStat` of a part is made without the mutex. -/
def CompletePC.locks : CompletePC → Bool
  | .validate .. => false
  | .done _ => false
  | _ => true

def AbortPC.locks : AbortPC → Bool
  | .done _ => false
  | _ => true

structure Race where
  store : Store
  lock : Option Party
  complete : CompletePC
  abort : AbortPC

/-- The holder of the mutex after a step of `p`. -/
def lockAfter (lock : Option Party) (p : Party) (keep : Bool) : Option Party :=
  if keep then some p else if lock = some p then none else lock

section

variable (bucket object uploadID : Bytes) (parts : List CompletePart)

/-- One step of a party; it waits for a mutex that the other one holds. -/
def Race.step (R : Race) : Party → Race
  | .completer =>
    if R.complete.locks ∧ R.lock = some .aborter then R
    else
      let (s, pc, keep) := R.complete.step K bucket object uploadID parts R.store
      ⟨s, lockAfter R.lock .completer keep, pc, R.abort⟩
  | .aborter =>
    if R.abort.locks ∧ R.lock = some .completer then R
    else
      let (s, pc, keep) := R.abort.step K bucket object uploadID R.store
      ⟨s, lockAfter R.lock .aborter keep, R.complete, pc⟩

def Race.init (s : Store) : Race := ⟨s, none, .start, .start⟩

def Race.run (R : Race) (sched : List Party) : Race :=
  sched.foldl (Race.step K bucket object uploadID parts) R

end

/-! ## One call alone -/

/-- Steps of one call without the other. -/
def Solo {α : Type} (step : Store → α → Stepped α) : Store × α → Store × α → Prop :=
  Relation.ReflTransGen fun a c => c = ((step a.1 a.2).1, (step a.1 a.2).2.1)

section

variable {α : Type} {step : Store → α → Stepped α}

variable {a c : Store × α}

theorem Solo.head {d : Store × α} (h : ((step a.1 a.2).1, (step a.1 a.2).2.1) = c)
    (hd : Solo step c d) : Solo step a d :=
  Relation.ReflTransGen.head h.symm hd

theorem Solo.refl (a : Store × α) : Solo step a a := Relation.ReflTransGen.refl

theorem Solo.last (h : ((step a.1 a.2).1, (step a.1 a.2).2.1) = c) : Solo step a c :=
  .head h (.refl _)

theorem Solo.trans {d : Store × α} (h : Solo step a c) (h' : Solo step c d) : Solo step a d :=
  Relation.ReflTransGen.trans h h'

end

variable {K} {s : Store} {k v b o u : Bytes} {parts : List CompletePart}

theorem solo_deleteKeys (first : Bool) (keys : List Bytes) :
    Solo (fun s pc => DeletePC.step K s k v pc) (s, .deleting first keys)
      ((deleteKeys K s keys).1, match (deleteKeys K s keys).2 with
        | none => .deleting first []
        | some e => .finished (if first then some e else none)) := by
  induction keys generalizing s with
  | nil => exact .refl _
  | cons x keys ih =>
    unfold deleteKeys
    rcases hd : delete K s x with ⟨s', _ | e⟩
    · exact Solo.head (by simp only [DeletePC.step, hd]) ih
    · exact Solo.last (by simp only [DeletePC.step, hd])

theorem solo_deleteParts (s : Store) (k v : Bytes) :
    Solo (fun s pc => DeletePC.step K s k v pc) (s, .query true)
      ((deleteParts K s k v).1, .finished (deleteParts K s k v).2) := by
  refine Solo.head (rfl : _ = (s, DeletePC.deleting true (partKeyRange K s k v))) ?_
  refine (solo_deleteKeys true _).trans ?_
  unfold deleteParts
  rcases deleteKeys K s (partKeyRange K s k v) with ⟨s1, _ | e⟩
  · dsimp only
    refine Solo.head (rfl : _ = (s1, DeletePC.query false)) ?_
    refine Solo.head (rfl : _ = (s1, DeletePC.deleting false (partKeyRange K s1 k v))) ?_
    refine (solo_deleteKeys false _).trans ?_
    rcases deleteKeys K s1 (partKeyRange K s1 k v) with ⟨s2, _ | e⟩
    · exact Solo.last (rfl : _ = (s2, DeletePC.finished none))
    · exact .refl _
  · exact .refl _

/-- A call that goes on as `deleteParts` until that is finished. -/
theorem Solo.lift {α : Type} {step : Store → α → Stepped α} (wrap : DeletePC → α)
    (hstep : ∀ s pc, (∀ err, pc ≠ .finished err) →
      ((step s (wrap pc)).1, (step s (wrap pc)).2.1) =
        ((DeletePC.step K s k v pc).1, wrap (DeletePC.step K s k v pc).2.1))
    {a c : Store × DeletePC} (h : Solo (fun s pc => DeletePC.step K s k v pc) a c) :
    Solo step (a.1, wrap a.2) (c.1, wrap c.2) := by
  induction h with
  | refl => exact .refl _
  | @tail c d _ hcd ih =>
    subst hcd
    obtain ⟨s, pc⟩ := c
    by_cases hfin : ∃ err, pc = .finished err
    · obtain ⟨err, rfl⟩ := hfin
      exact ih
    · refine ih.trans (Relation.ReflTransGen.single ?_)
      exact (hstep s pc fun err he => hfin ⟨err, he⟩).symm

theorem solo_abort (s : Store) :
    Solo (fun s pc => AbortPC.step K b o u s pc) (s, .start)
      ((abortMultipartUpload K s b o u).1, .done (abortMultipartUpload K s b o u).2) := by
  unfold abortMultipartUpload
  refine Solo.head (rfl : _ = ((delete K s (jsonKey (makeKey b o) u)).1, AbortPC.version)) ?_
  dsimp only
  generalize (delete K s (jsonKey (makeKey b o) u)).1 = s1
  cases hv : currentVersion K s1 (makeKey b o) with
  | error e =>
    exact Solo.last (by simp only [AbortPC.step, hv])
  | ok v =>
    refine Solo.head (by simp only [AbortPC.step, hv])
      ((Solo.lift (AbortPC.deleteParts (newVersion v)) ?_
      (solo_deleteParts (K := K) s1 (makeKey b o) (newVersion v))).trans ?_)
    · intro s pc hpc
      cases pc with
      | finished err => exact absurd rfl (hpc err)
      | query first => rfl
      | deleting first keys => rfl
    · exact Solo.last (rfl : _ = (_, AbortPC.done _))

theorem solo_validate (v : Bytes) (keys : List Bytes) (todo : List CompletePart)
    (ps : List ObjectPartInfo) :
    Solo (fun s pc => CompletePC.step K b o u parts s pc) (s, .validate v keys todo ps)
      (s, match completeParts K s (partsKey (makeKey b o) (newVersion v)) keys todo with
        | .error e => .done (.error e)
        | .ok qs => .getJson v (ps ++ qs)) := by
  induction todo generalizing ps with
  | nil =>
    refine Solo.head (rfl : _ = (s, CompletePC.getJson v ps)) ?_
    simp only [completeParts, List.append_nil]
    exact .refl _
  | cons part todo ih =>
    rw [completeParts]
    cases hp : completePart K s (partsKey (makeKey b o) (newVersion v)) keys part with
    | error e =>
      exact Solo.last (by simp only [CompletePC.step, hp])
    | ok p =>
      cases hc : checkPartSize todo.isEmpty p with
      | some e =>
        simp only [hc]
        exact Solo.last (by simp only [CompletePC.step, hp, hc])
      | none =>
        have hrest := ih (ps ++ [p])
        simp only [hc]
        refine Solo.head (by simp only [CompletePC.step, hp, hc])
          (c := (s, .validate v keys todo (ps ++ [p]))) ?_
        cases hq : completeParts K s (partsKey (makeKey b o) (newVersion v)) keys todo with
        | error e => simpa only [hq] using hrest
        | ok qs => simpa only [hq, List.append_assoc, List.singleton_append] using hrest

/-- The commit and the deletes after it. -/
theorem solo_commit (v : Bytes) (ps : List ObjectPartInfo) :
    Solo (fun s pc => CompletePC.step K b o u parts s pc) (s, .getJson v ps)
      (match commitUpload K s (makeKey b o) u (newVersion v) (getCompleteMultipartMD5 K parts)
        ps with
        | (s, .error e) => (s, .done (.error e))
        | (s, .ok fsMeta) => (if v ≠ [] then (deleteParts K s (makeKey b o) v).1 else s,
            .done (.ok (fsMeta.toObjectKVInfo b o (totalActualSize ps))))) := by
  unfold commitUpload
  dsimp only
  cases hg : cGet K s (jsonKey (makeKey b o) u) (-1) 0 (-1) with
  | error e =>
    exact Solo.last (by simp only [CompletePC.step, hg])
  | ok value =>
    refine Solo.head (by simp only [CompletePC.step, hg]) (c := (s, .deleteJson v ps value)) ?_
    refine Solo.head (rfl : _ = ((delete K s (jsonKey (makeKey b o) u)).1,
      CompletePC.putObject v ps value)) ?_
    dsimp only
    generalize (delete K s (jsonKey (makeKey b o) u)).1 = s1
    cases hm : K.unmarshal ⟨[], ∅, ps, ⟨[], 0, 0⟩⟩ value with
    | none =>
      exact Solo.last (by simp only [CompletePC.step, hm])
    | some m =>
      dsimp only
      rcases hput : cPut K s1 (makeKey b o) ⟨.json (completeMeta m (newVersion v)
        (getCompleteMultipartMD5 K parts) (totalActualSize ps)), []⟩ with ⟨s2, _ | e⟩
      · by_cases hv : v = []
        · simp only [if_neg (not_not.2 hv)]
          exact Solo.last (by simp only [CompletePC.step, hm, hput, if_neg (not_not.2 hv)])
        · simp only [ne_eq, if_pos hv]
          refine Solo.head ?_ ((Solo.lift (CompletePC.cleanup v ?info) ?_
            (solo_deleteParts (K := K) s2 (makeKey b o) v)).trans ?_)
          · simp only [CompletePC.step, hm, hput, ne_eq, if_pos hv]
            rfl
          · intro s pc hpc
            cases pc with
            | finished err => exact absurd rfl (hpc err)
            | query first => rfl
            | deleting first keys => rfl
          · exact Solo.last (rfl : _ = (_, CompletePC.done _))
      · exact Solo.last (by simp only [CompletePC.step, hm, hput])

theorem solo_complete (s : Store) :
    Solo (fun s pc => CompletePC.step K b o u parts s pc) (s, .start)
      ((completeMultipartUpload K s b o u parts).1,
        .done (completeMultipartUpload K s b o u parts).2) := by
  unfold completeMultipartUpload
  dsimp only
  cases hv : currentVersion K s (makeKey b o) with
  | error e =>
    exact Solo.last (by simp only [CompletePC.step, hv])
  | ok v =>
    refine Solo.head (by simp only [CompletePC.step, hv]) (c := (s, .query v)) ?_
    dsimp only
    cases hk : stripKeys (partsKey (makeKey b o) (newVersion v))
      (partKeyRange K s (makeKey b o) (newVersion v)) with
    | error e =>
      exact Solo.last (by simp only [CompletePC.step, hk])
    | ok keys =>
      refine Solo.head (by simp only [CompletePC.step, hk])
        ((solo_validate (s := s) v keys parts []).trans ?_)
      cases hp : completeParts K s (partsKey (makeKey b o) (newVersion v)) keys parts with
      | error e =>
        simp only [hp]
        exact .refl _
      | ok ps =>
        refine (solo_commit v ps).trans ?_
        rcases hc : commitUpload K s (makeKey b o) u (newVersion v)
            (getCompleteMultipartMD5 K parts) ps with
          ⟨s', e | m⟩ <;> simp only [hp, hc] <;> exact .refl _

theorem Race.run_completer {a c : Store × CompletePC}
    (h : Solo (fun s pc => CompletePC.step K b o u parts s pc) a c) (pc : AbortPC) :
    ∃ n lock, lock ≠ some .aborter ∧
      Race.run K b o u parts ⟨a.1, none, a.2, pc⟩ (List.replicate n .completer) =
        ⟨c.1, lock, c.2, pc⟩ := by
  induction h with
  | refl => exact ⟨0, none, by simp, rfl⟩
  | @tail c d _ hcd ih =>
    obtain ⟨n, lock, hlock, hrun⟩ := ih
    refine ⟨n + 1, lockAfter lock .completer (CompletePC.step K b o u parts c.1 c.2).2.2, ?_, ?_⟩
    · unfold lockAfter
      split_ifs <;> simp [hlock]
    · subst hcd
      rw [Race.run] at hrun
      rw [Race.run, List.replicate_succ', List.foldl_append, hrun]
      simp [Race.step, hlock]

theorem Race.run_aborter {a c : Store × AbortPC}
    (h : Solo (fun s pc => AbortPC.step K b o u s pc) a c) (pc : CompletePC) :
    ∃ n lock, lock ≠ some .completer ∧
      Race.run K b o u parts ⟨a.1, none, pc, a.2⟩ (List.replicate n .aborter) =
        ⟨c.1, lock, pc, c.2⟩ := by
  induction h with
  | refl => exact ⟨0, none, by simp, rfl⟩
  | @tail c d _ hcd ih =>
    obtain ⟨n, lock, hlock, hrun⟩ := ih
    refine ⟨n + 1, lockAfter lock .aborter (AbortPC.step K b o u c.1 c.2).2.2, ?_, ?_⟩
    · unfold lockAfter
      split_ifs <;> simp [hlock]
    · subst hcd
      rw [Race.run] at hrun
      rw [Race.run, List.replicate_succ', List.foldl_append, hrun]
      simp [Race.step, hlock]

theorem Race.exists_run_complete_abort (s : Store) :
    ∃ sched lock, (Race.init s).run K b o u parts sched =
      ⟨(abortMultipartUpload K (completeMultipartUpload K s b o u parts).1 b o u).1, lock,
        .done (completeMultipartUpload K s b o u parts).2,
        .done (abortMultipartUpload K (completeMultipartUpload K s b o u parts).1 b o u).2⟩ := by
  obtain ⟨n, lock, hlock, hrun⟩ := Race.run_completer (@solo_complete K b o u parts s) .start
  obtain ⟨n', lock', -, hrun'⟩ := @Race.run_aborter K b o u parts _ _
    (solo_abort (completeMultipartUpload K s b o u parts).1)
      (.done (completeMultipartUpload K s b o u parts).2)
  refine ⟨List.replicate n .completer ++ .completer :: List.replicate n' .aborter, lock', ?_⟩
  rw [Race.run] at hrun hrun' ⊢
  rw [List.foldl_append, Race.init, hrun, List.foldl_cons]
  -- a last step of completion gives the mutex back
  have hfree : lockAfter lock .completer false = none := by
    rcases lock with _ | _ | _
    · rfl
    · rfl
    · exact absurd rfl hlock
  have hstep : Race.step K b o u parts ⟨(completeMultipartUpload K s b o u parts).1, lock,
      .done (completeMultipartUpload K s b o u parts).2, .start⟩ .completer =
      ⟨(completeMultipartUpload K s b o u parts).1, none,
        .done (completeMultipartUpload K s b o u parts).2, .start⟩ := by
    simp [Race.step, CompletePC.locks, CompletePC.step, hfree]
  rw [hstep, hrun']

/-! ## Where the race can be -/

/-- The metadata of the object do not name the version, or every part they list is in the store. -/
def Agreement (s : Store) (k version : Bytes) : Prop :=
  ∀ m value, s.get? k = some ⟨.json m, value⟩ → m.get keyVersion = version →
    ∀ x ∈ m.partKeys k, x ∈ s

variable {x : Bytes}

theorem not_agreement {m : FsMetaV1} {value : Bytes} (hget : s.get? k = some ⟨.json m, value⟩)
    (hver : m.get keyVersion = v) (hx : x ∈ m.partKeys k) (hlost : s.get? x = none) :
    ¬ Agreement s k v :=
  fun h => (not_mem_iff s).2 hlost (h m value hget hver x hx)

/-- What the store has to be like before the race: no `:` in the keys of the object's parts, no key
that the search takes for a listed part without being one, and a record of the upload that names no
parts and that the drive deletes. -/
structure RaceStart (K : Kineticd) (s : Store) (k u v : Bytes) (parts : List CompletePart) :
    Prop where
  current : currentVersion K s k = .ok v
  version : versionOrEmpty v = true
  plain : ∀ x ∈ s, k ++ [dot] <+: x → colon ∉ x
  listed : ∀ x ∈ s, ∀ part ∈ parts,
    partsKey k (newVersion v) ++ partFilePrefix part.partNumber part.etag <+: x →
      ∃ size : Int, -2 ^ 63 ≤ size ∧ size < 2 ^ 63 ∧
        x = partKey k (newVersion v) part.partNumber part.etag size
  record : ∀ r, s.get? (jsonKey k u) = some r → K.deleteStatus s (jsonKey k u) = .success ∧
    ∀ ps m, K.unmarshal ⟨[], ∅, ps, ⟨[], 0, 0⟩⟩ r.value = some m → m.parts = ps

/-- The keys `deleteParts` still has in hand. -/
def DeletePC.Pending (P : Bytes → Prop) : DeletePC → Prop
  | .deleting _ keys => ∀ x ∈ keys, P x
  | _ => True

/-- Completion before its critical section, in a store that did not change. -/
def CompletePC.Searching (s : Store) (k v : Bytes) (parts : List CompletePart) : CompletePC → Prop
  | .start => True
  | .query objVer => objVer = v
  | .validate objVer keys todo ps => objVer = v ∧ keys = partFiles s k (newVersion v) ∧
      todo ⊆ parts ∧ ∀ p ∈ ps, partKey k (newVersion v) p.number p.etag p.actualSize ∈ s
  | .getJson objVer ps => objVer = v ∧
      ∀ p ∈ ps, partKey k (newVersion v) p.number p.etag p.actualSize ∈ s
  | _ => False

def CompletePC.Quiet : CompletePC → Prop
  | .deleteJson .. | .putObject .. | .cleanup .. | .done (.ok _) => False
  | _ => True

def CompletePC.Cleaning (k v : Bytes) : CompletePC → Prop
  | .cleanup objVer _ pc => objVer = v ∧ pc.Pending (partsKey k v <+: ·)
  | .done _ => True
  | _ => False

/-- Abort of an object whose version is `v`. -/
def AbortPC.Aborting (k v : Bytes) : AbortPC → Prop
  | .deleteParts nxtVer pc => nxtVer = newVersion v ∧ pc.Pending (partsKey k (newVersion v) <+: ·)
  | _ => True

/-- The object is put: its parts are there, and neither call has one of them in hand. -/
structure Committed (s : Store) (k v : Bytes) (R : Race) : Prop where
  record : ∃ m value, R.store.get? k = some ⟨.json m, value⟩ ∧ m.get keyVersion = newVersion v ∧
    ∀ x ∈ m.partKeys k, x ∈ R.store
  old : ∀ x ∈ R.store, x ∈ s ∨ x = k
  complete : R.complete.Cleaning k v
  abort : R.abort.Aborting k (newVersion v)

def OnlyDeletes (s s' : Store) : Prop := Evolves (fun _ _ => False) (fun _ => True) s s'

/-- The states of the race that starts in `s`. -/
inductive RaceInv (s : Store) (k u v : Bytes) (parts : List CompletePart) : Race → Prop
  | searching {pc : CompletePC} (hpc : pc.Searching s k v parts) : RaceInv s k u v parts ⟨s,
    none, pc, .start⟩
  | deleteJson {ps : List ObjectPartInfo} {r : Record} (hr : s.get? (jsonKey k u) = some r)
      (hps : ∀ p ∈ ps, partKey k (newVersion v) p.number p.etag p.actualSize ∈ s) :
      RaceInv s k u v parts ⟨s, some .completer, .deleteJson v ps r.value, .start⟩
  | putObject {s' : Store} {ps : List ObjectPartInfo} {r : Record} (hr : s.get? (jsonKey k u) =
    some r)
      (hs : ∀ x, x ≠ jsonKey k u → s'.get? x = s.get? x) (hj : OnlyDeletes s s')
      (hps : ∀ p ∈ ps, partKey k (newVersion v) p.number p.etag p.actualSize ∈ s) :
      RaceInv s k u v parts ⟨s', some .completer, .putObject v ps r.value, .start⟩
  | never {R : Race} (hs : OnlyDeletes s R.store) (hq : R.complete.Quiet)
      (hj : jsonKey k u ∉ R.store ∨ ∃ e, R.complete = .done (.error e)) : RaceInv s k u v parts R
  | committed {R : Race} (hR : Committed s k v R) : RaceInv s k u v parts R

/-! ## What one step does -/

theorem Race.step_completer (R : Race) :
    R.step K b o u parts .completer = R ∨ ∃ lock, R.step K b o u parts .completer =
      ⟨(R.complete.step K b o u parts R.store).1, lock, (R.complete.step K b o u parts R.store).2.1,
        R.abort⟩ := by
  simp only [Race.step]
  split_ifs
  · exact .inl rfl
  · exact .inr ⟨_, rfl⟩

theorem Race.step_aborter (R : Race) :
    R.step K b o u parts .aborter = R ∨ ∃ lock, R.step K b o u parts .aborter =
      ⟨(R.abort.step K b o u R.store).1, lock, R.complete, (R.abort.step K b o u R.store).2.1⟩ := by
  simp only [Race.step]
  split_ifs
  · exact .inl rfl
  · exact .inr ⟨_, rfl⟩

theorem OnlyDeletes.get? {s s' : Store} (h : OnlyDeletes s s') {r : Record}
    (hr : s'.get? x = some r) : s.get? x = some r :=
  Evolves.invariant (I := fun x r => s.get? x = some r) h (fun _ _ h => h.elim)
    (fun _ _ h => h) x r hr

theorem OnlyDeletes.mem {s s' : Store} (h : OnlyDeletes s s') (hx : x ∈ s') : x ∈ s := by
  obtain ⟨r, hr⟩ := (mem_iff s').1 hx
  exact (mem_iff s).2 ⟨r, h.get? hr⟩

theorem DeletePC.step_evolves {pc : DeletePC} {P : Bytes → Prop}
    (hP : ∀ x ∈ partKeyRange K s k v, P x) (hpc : pc.Pending P) :
    (pc.step K s k v).2.1.Pending P ∧ Evolves (fun _ _ => False) P s (pc.step K s k v).1 := by
  cases pc with
  | query first => exact ⟨hP, .refl s⟩
  | finished err => exact ⟨trivial, .refl s⟩
  | deleting first keys =>
    cases keys with
    | nil => cases first <;> exact ⟨trivial, .refl s⟩
    | cons x keys =>
      have hx : Evolves (fun _ _ => False) P s (delete K s x).1 :=
        delete_evolves (hpc x List.mem_cons_self)
      rcases hd : delete K s x with ⟨s', _ | e⟩ <;> rw [hd] at hx <;> simp only [DeletePC.step, hd]
      · exact ⟨fun y hy => hpc y (List.mem_cons_of_mem _ hy), hx⟩
      · exact ⟨trivial, hx⟩

theorem DeletePC.step_onlyDeletes (pc : DeletePC) : OnlyDeletes s (pc.step K s k v).1 :=
  (DeletePC.step_evolves (P := fun _ => True) (fun _ _ => trivial)
    (by cases pc <;> simp [Pending])).2

theorem AbortPC.step_onlyDeletes (pc : AbortPC) : OnlyDeletes s (pc.step K b o u s).1 := by
  cases pc with
  | start => exact delete_evolves trivial
  | version =>
    unfold AbortPC.step
    cases currentVersion K s (makeKey b o) <;> exact .refl s
  | deleteParts w pc =>
    cases pc with
    | finished err => exact .refl s
    | query first => exact .refl s
    | deleting first keys =>
      exact DeletePC.step_onlyDeletes (K := K) (k := makeKey b o) (v := w) (.deleting first keys)
  | done err => exact .refl s

theorem CompletePC.step_quiet {pc : CompletePC} (hpc : pc.Quiet)
    (hj : jsonKey (makeKey b o) u ∉ s ∨ ∃ e, pc = .done (.error e)) :
    (pc.step K b o u parts s).1 = s ∧ (pc.step K b o u parts s).2.1.Quiet ∧
      (jsonKey (makeKey b o) u ∉ s ∨ ∃ e, (pc.step K b o u parts s).2.1 = .done (.error e)) := by
  rcases hj with hj | ⟨e, rfl⟩
  · cases pc with
    | start =>
      unfold CompletePC.step
      cases currentVersion K s (makeKey b o) <;> exact ⟨rfl, trivial, .inl hj⟩
    | query w =>
      unfold CompletePC.step
      dsimp only
      cases stripKeys (partsKey (makeKey b o) (newVersion w))
        (partKeyRange K s (makeKey b o) (newVersion w)) <;>
        exact ⟨rfl, trivial, .inl hj⟩
    | validate w keys todo ps =>
      cases todo with
      | nil => exact ⟨rfl, trivial, .inl hj⟩
      | cons part todo =>
        cases hp : completePart K s (partsKey (makeKey b o) (newVersion w)) keys part with
        | error e =>
          simp only [CompletePC.step, hp]
          exact ⟨trivial, trivial, .inl hj⟩
        | ok p =>
          cases hc : checkPartSize todo.isEmpty p <;> simp only [CompletePC.step, hp, hc] <;>
            exact ⟨trivial, trivial, .inl hj⟩
    | getJson w ps =>
      simp only [CompletePC.step, cGet_unknown, (not_mem_iff s).1 hj]
      exact ⟨trivial, trivial, .inl hj⟩
    | deleteJson => exact hpc.elim
    | putObject => exact hpc.elim
    | cleanup => exact hpc.elim
    | done res =>
      cases res with
      | error e => exact ⟨rfl, trivial, .inl hj⟩
      | ok info => exact hpc.elim
  · exact ⟨rfl, trivial, .inr ⟨e, rfl⟩⟩

/-! ## The search of a race -/

section Start

variable {s0 : Store} (h0 : RaceStart K s0 (makeKey b o) u v parts)
include h0

variable {w x : Bytes}

theorem RaceStart.not_colon (hx : x ∈ s0) (hp : partsKey (makeKey b o) w <+: x) : colon ∉ x := by
  refine h0.plain x hx (List.IsPrefix.trans ?_ hp)
  exact ⟨w ++ [dot], by simp [partsKey]⟩

theorem RaceStart.partKey_mem {part : CompletePart} {p : ObjectPartInfo} (hpart : part ∈ parts)
    (h : completePart K s0 (partsKey (makeKey b o) (newVersion v))
      (partFiles s0 (makeKey b o) (newVersion v)) part = .ok p) :
    partKey (makeKey b o) (newVersion v) p.number p.etag p.actualSize ∈ s0 := by
  obtain ⟨f, -, hpre, hsize, r, m, hr, -, hp⟩ := completePart_ok h
  have hmem : partsKey (makeKey b o) (newVersion v) ++ f ∈ s0 := (mem_iff s0).2 ⟨r, hr⟩
  obtain ⟨size, h1, h2, hx⟩ := h0.listed _ hmem part hpart ((List.prefix_append_right_inj _).2 hpre)
  have hf : f = encodePartFile part.partNumber part.etag size := List.append_cancel_left hx
  have hread : p.actualSize = size := by
    rw [hf, getLastD_splitOn_encodePartFile, parseInt64_formatInt h1 h2] at hsize
    exact (congrArg Prod.fst hsize).symm
  rw [hp, hread]
  exact hx ▸ hmem

/-- A step of the search goes on searching, fails, or enters the critical section. -/
theorem RaceStart.step_searching {pc : CompletePC} (hpc : pc.Searching s0 (makeKey b o) v parts) :
    (∃ pc', pc.step K b o u parts s0 = (s0, pc', false) ∧
      (pc'.Searching s0 (makeKey b o) v parts ∨ ∃ e, pc' = .done (.error e))) ∨
    ∃ ps r, s0.get? (jsonKey (makeKey b o) u) = some r ∧
      (∀ p ∈ ps, partKey (makeKey b o) (newVersion v) p.number p.etag p.actualSize ∈ s0) ∧
      pc.step K b o u parts s0 = (s0, .deleteJson v ps r.value, true) := by
  cases pc with
  | start => exact .inl ⟨.query v, by simp only [CompletePC.step, h0.current], .inl rfl⟩
  | query w =>
    obtain rfl : w = v := hpc
    have hstrip := stripKeys_partKeyRange (K := K) fun x hx hp =>
      h0.not_colon (w := newVersion w) hx hp
    refine .inl ⟨.validate w (partFiles s0 (makeKey b o) (newVersion w)) parts [], ?_, .inl ?_⟩
    · simp only [CompletePC.step, hstrip]
    · exact ⟨rfl, rfl, List.Subset.refl _, by simp⟩
  | validate w keys todo ps =>
    obtain ⟨rfl, rfl, htodo, hps⟩ := hpc
    cases todo with
    | nil => exact .inl ⟨.getJson w ps, rfl, .inl ⟨rfl, hps⟩⟩
    | cons part todo =>
      cases hp : completePart K s0 (partsKey (makeKey b o) (newVersion w))
          (partFiles s0 (makeKey b o) (newVersion w)) part with
      | error e => exact .inl ⟨.done (.error e), by simp only [CompletePC.step, hp], .inr ⟨e, rfl⟩⟩
      | ok p =>
        cases hc : checkPartSize todo.isEmpty p with
        | some e =>
          exact .inl ⟨.done (.error e), by simp only [CompletePC.step, hp, hc], .inr ⟨e, rfl⟩⟩
        | none =>
          refine .inl ⟨.validate w (partFiles s0 (makeKey b o) (newVersion w)) todo (ps ++ [p]),
            by simp only [CompletePC.step, hp, hc], .inl ?_⟩
          refine ⟨rfl, rfl, fun x hx => htodo (List.mem_cons_of_mem _ hx), fun q hq => ?_⟩
          rcases List.mem_append.1 hq with hq | hq
          · exact hps q hq
          · rw [List.mem_singleton.1 hq]
            exact h0.partKey_mem (htodo List.mem_cons_self) hp
  | getJson w ps =>
    obtain ⟨rfl, hps⟩ := hpc
    cases hr : s0.get? (jsonKey (makeKey b o) u) with
    | none =>
      exact .inl ⟨.done (.error .errFileNotFound), by simp only [CompletePC.step, cGet_unknown, hr],
        .inr ⟨_, rfl⟩⟩
    | some r => exact .inr ⟨ps, r, rfl, hps, by simp only [CompletePC.step, cGet_unknown, hr]⟩
  | deleteJson => exact hpc.elim
  | putObject => exact hpc.elim
  | cleanup => exact hpc.elim
  | done res => exact hpc.elim

/-- The put of the object either fails or leads to all parts. -/
theorem RaceStart.step_putObject {s' : Store} {ps : List ObjectPartInfo} {r : Record}
    (hr : s0.get? (jsonKey (makeKey b o) u) = some r)
    (hs : ∀ x, x ≠ jsonKey (makeKey b o) u → s'.get? x = s0.get? x)
    (hj : OnlyDeletes s0 s')
    (hps : ∀ p ∈ ps, partKey (makeKey b o) (newVersion v) p.number p.etag p.actualSize ∈ s0) :
    (∃ e, CompletePC.step K b o u parts s' (.putObject v ps r.value) =
      (s', .done (.error e), false)) ∨
    ∃ s'' pc m, CompletePC.step K b o u parts s' (.putObject v ps r.value) = (s'', pc, false) ∧
      pc.Cleaning (makeKey b o) v ∧ s''.get? (makeKey b o) = some ⟨.json m, []⟩ ∧
      m.get keyVersion = newVersion v ∧ (∀ x ∈ m.partKeys (makeKey b o), x ∈ s'') ∧
      ∀ x ∈ s'', x ∈ s0 ∨ x = makeKey b o := by
  cases hm : K.unmarshal ⟨[], ∅, ps, ⟨[], 0, 0⟩⟩ r.value with
  | none => exact .inl ⟨.errUnmarshal, by simp only [CompletePC.step, hm]⟩
  | some m =>
    set fsMeta := completeMeta m (newVersion v) (getCompleteMultipartMD5 K parts)
      (totalActualSize ps)
      with hfs
    rcases cPut_eq (K := K) s' (makeKey b o) ⟨.json fsMeta, []⟩ with ⟨hput, -⟩ | ⟨e, hput⟩
    · refine .inr ⟨s'.insert (makeKey b o) ⟨.json fsMeta, []⟩,
        if v ≠ [] then .cleanup v (fsMeta.toObjectKVInfo b o (totalActualSize ps)) (.query true)
          else .done (.ok (fsMeta.toObjectKVInfo b o (totalActualSize ps))), fsMeta, ?_, ?_,
        get?_insert_self _ _ _, completeMeta_version _ _ _ _, ?_, ?_⟩
      · simp only [CompletePC.step, hm, ← hfs, hput]
      · split
        · exact ⟨rfl, trivial⟩
        · trivial
      · intro x hx
        rw [FsMetaV1.partKeys, show fsMeta.get keyVersion = _ from completeMeta_version _ _ _ _]
          at hx
        obtain ⟨p, hp, rfl⟩ := List.mem_map.1 hx
        have hparts : fsMeta.parts = ps := (h0.record r hr).2 ps m hm
        rw [hparts] at hp
        have hne : partKey (makeKey b o) (newVersion v) p.number p.etag p.actualSize ≠
            jsonKey (makeKey b o) u := by
          intro he
          refine not_partsKey_prefix_jsonKey (k := makeKey b o) (u := u)
            (versionOrEmpty_newVersion h0.version) ?_
          rw [← he]
          exact List.prefix_append _ _
        refine mem_insert.2 (.inr ?_)
        obtain ⟨r', hr'⟩ := (mem_iff s0).1 (hps p hp)
        exact (mem_iff s').2 ⟨r', (hs _ hne).trans hr'⟩
      · intro x hx
        rcases mem_insert.1 hx with rfl | hx
        · exact .inr rfl
        · exact .inl (hj.mem hx)
    · exact .inl ⟨e, by simp only [CompletePC.step, hm, ← hfs, hput]⟩

/-! ## After the put -/

variable {R : Race}

omit h0 in
theorem Committed.of_evolves {R' : Race} (hR : Committed s0 (makeKey b o) v R) {D : Bytes → Prop}
    (hev : Evolves (fun _ _ => False) D R.store R'.store) (hk : ¬ D (makeKey b o))
    (hparts : ∀ x, partsKey (makeKey b o) (newVersion v) <+: x → ¬ D x)
    (hc : R'.complete.Cleaning (makeKey b o) v)
    (ha : R'.abort.Aborting (makeKey b o) (newVersion v)) :
    Committed s0 (makeKey b o) v R' := by
  obtain ⟨m, value, hget, hver, hmem⟩ := hR.record
  refine ⟨⟨m, value, ?_, hver, fun x hx => ?_⟩, fun x hx => ?_, hc, ha⟩
  · rw [hev.get?_eq (fun _ h => h) hk, hget]
  · obtain ⟨r, hr⟩ := (mem_iff _).1 (hmem x hx)
    refine (mem_iff _).2 ⟨r, ?_⟩
    obtain ⟨p, -, rfl⟩ := List.mem_map.1 hx
    rw [hev.get?_eq (fun _ h => h) (hparts _ ?_), hr]
    rw [hver]
    exact List.prefix_append _ _
  · exact hR.old x ((hev.mem_of_mem hx).elim id fun ⟨_, h⟩ => h.elim)

theorem RaceStart.mem_partKeyRange (hR : Committed s0 (makeKey b o) v R)
    (hx : x ∈ partKeyRange K R.store (makeKey b o) w) : partsKey (makeKey b o) w <+: x := by
  refine (S3Kinetic.mem_partKeyRange (fun y hy hp => ?_) hx).2
  rcases hR.old y hy with h | rfl
  · exact h0.not_colon h hp
  · exact absurd rfl (ne_of_partsKey hp)

theorem RaceStart.version_ne : newVersion v ≠ v :=
  newVersion_ne (by simpa [versionOrEmpty] using h0.version)

theorem RaceStart.not_partsKey (hw : versionOrEmpty w = true) (hne : newVersion v ≠ w)
    (hx : partsKey (makeKey b o) (newVersion v) <+: x) : ¬ partsKey (makeKey b o) w <+: x :=
  fun h =>
  hne (version_eq_of_partsKey (versionOrEmpty_newVersion h0.version) hw hx h)

theorem RaceStart.step_complete (hR : Committed s0 (makeKey b o) v R) (lock : Option Party) :
    Committed s0 (makeKey b o) v
      ⟨(R.complete.step K b o u parts R.store).1, lock, (R.complete.step K b o u parts R.store).2.1,
        R.abort⟩ := by
  have hdel (w : Bytes) (info : ObjectInfo) (pc : DeletePC) (hw : w = v)
      (hpc : pc.Pending (partsKey (makeKey b o) v <+: ·)) :
      Committed s0 (makeKey b o) v ⟨(pc.step K R.store (makeKey b o) w).1, lock,
        .cleanup w info (pc.step K R.store (makeKey b o) w).2.1, R.abort⟩ := by
    subst hw
    obtain ⟨hpend, hev⟩ := DeletePC.step_evolves (fun x hx => h0.mem_partKeyRange hR hx) hpc
    refine hR.of_evolves hev (fun h => ne_of_partsKey h rfl) ?_ ⟨rfl, hpend⟩ hR.abort
    exact fun x hx => h0.not_partsKey h0.version h0.version_ne hx
  have hpc := hR.complete
  cases hc : R.complete with
  | cleanup w info pc =>
    rw [hc] at hpc
    cases pc with
    | finished err => exact ⟨hR.record, hR.old, trivial, hR.abort⟩
    | query first => exact hdel w info _ hpc.1 hpc.2
    | deleting first keys => exact hdel w info _ hpc.1 hpc.2
  | done res => exact ⟨hR.record, hR.old, trivial, hR.abort⟩
  | _ =>
    rw [hc] at hpc
    exact hpc.elim

theorem RaceStart.step_abort (hR : Committed s0 (makeKey b o) v R) (lock : Option Party) :
    Committed s0 (makeKey b o) v
      ⟨(R.abort.step K b o u R.store).1, lock, R.complete, (R.abort.step K b o u R.store).2.1⟩ := by
  have hdel (w : Bytes) (pc : DeletePC) (hw : w = newVersion (newVersion v))
      (hpc : pc.Pending (partsKey (makeKey b o) (newVersion (newVersion v)) <+: ·)) :
      Committed s0 (makeKey b o) v ⟨(pc.step K R.store (makeKey b o) w).1, lock, R.complete,
        .deleteParts w (pc.step K R.store (makeKey b o) w).2.1⟩ := by
    subst hw
    obtain ⟨hpend, hev⟩ := DeletePC.step_evolves (fun x hx => h0.mem_partKeyRange hR hx) hpc
    refine hR.of_evolves hev (fun h => ne_of_partsKey h rfl) ?_ hR.complete ⟨rfl, hpend⟩
    have hver := versionOrEmpty_newVersion h0.version
    refine fun x hx => h0.not_partsKey (versionOrEmpty_newVersion hver) (newVersion_ne ?_).symm hx
    simpa [versionOrEmpty] using hver
  have hpc := hR.abort
  cases hc : R.abort with
  | start =>
    refine hR.of_evolves (D := (· = jsonKey (makeKey b o) u)) (delete_evolves rfl) ?_ ?_
      hR.complete trivial
    · exact fun h => absurd (congrArg List.length h) (by simp [jsonKey])
    · rintro x hx rfl
      exact not_partsKey_prefix_jsonKey (versionOrEmpty_newVersion h0.version) hx
  | version =>
    obtain ⟨m, value, hget, hver, -⟩ := hR.record
    have hcur : currentVersion K R.store (makeKey b o) = .ok (newVersion v) ∨
        ∃ e, currentVersion K R.store (makeKey b o) = .error e := by
      unfold currentVersion cGetMeta unmarshalMeta
      rw [hget]
      dsimp only
      split_ifs
      · exact .inl (congrArg _ hver)
      · exact .inr ⟨_, rfl⟩
    rcases hcur with hcur | ⟨e, hcur⟩ <;> simp only [AbortPC.step, hcur]
    · exact ⟨hR.record, hR.old, hR.complete, rfl, trivial⟩
    · exact ⟨hR.record, hR.old, hR.complete, trivial⟩
  | deleteParts w pc =>
    rw [hc] at hpc
    cases pc with
    | finished err => exact ⟨hR.record, hR.old, hR.complete, trivial⟩
    | query first => exact hdel w _ hpc.1 hpc.2
    | deleting first keys => exact hdel w _ hpc.1 hpc.2
  | done err => exact ⟨hR.record, hR.old, hR.complete, trivial⟩

/-! ## Every schedule -/

theorem RaceStart.inv_step (hR : RaceInv s0 (makeKey b o) u v parts R) (p : Party) :
    RaceInv s0 (makeKey b o) u v parts (R.step K b o u parts p) := by
  cases hR with
  | @searching pc hpc =>
    cases p with
    | completer =>
      have hfree : ¬ (pc.locks ∧ (none : Option Party) = some .aborter) := by simp
      simp only [Race.step, if_neg hfree]
      rcases h0.step_searching hpc with ⟨pc', hstep, hpc' | ⟨e, rfl⟩⟩ | ⟨ps, r, hr, hps, hstep⟩ <;>
        rw [hstep]
      · exact .searching hpc'
      · exact .never (.refl s0) trivial (.inr ⟨e, rfl⟩)
      · exact .deleteJson hr hps
    | aborter =>
      have hfree : ¬ (AbortPC.start.locks ∧ (none : Option Party) = some .completer) := by simp
      simp only [Race.step, if_neg hfree]
      -- the record is gone before completion reads it
      refine .never (delete_evolves trivial) ?_ (.inl ?_)
      · cases pc <;> trivial
      · show jsonKey (makeKey b o) u ∉ (delete K s0 (jsonKey (makeKey b o) u)).1
        intro hmem
        obtain ⟨r, hr⟩ := (mem_iff s0).1 (delete_mem_of_mem hmem)
        rw [delete, (h0.record r hr).1] at hmem
        exact (mem_erase.1 hmem).1 rfl
  | @deleteJson ps r hr hps =>
    cases p with
    | completer =>
      refine .putObject hr (fun x hx => ?_) ?_ hps
      · exact delete_get?_of_ne hx
      · exact delete_evolves trivial
    | aborter => exact .deleteJson hr hps
  | @putObject s' ps r hr hs hj hps =>
    cases p with
    | completer =>
      have hfree : ¬ ((CompletePC.putObject v ps r.value).locks ∧
          some Party.completer = some .aborter) := by
        simp
      simp only [Race.step, if_neg hfree]
      rcases h0.step_putObject hr hs hj hps with
        ⟨e, hstep⟩ | ⟨s'', pc, m, hstep, hpc, hget, hver, hmem, hold⟩ <;> rw [hstep]
      · exact .never hj trivial (.inr ⟨e, rfl⟩)
      · exact .committed ⟨⟨m, [], hget, hver, hmem⟩, hold, hpc, trivial⟩
    | aborter => exact .putObject hr hs hj hps
  | never hs hq hj =>
    cases p with
    | completer =>
      rcases R.step_completer with h | ⟨lock, h⟩ <;> rw [h]
      · exact .never hs hq hj
      · obtain ⟨h1, h2, h3⟩ := @CompletePC.step_quiet K R.store b o u parts _ hq hj
        refine .never ?_ h2 ?_
        · rwa [h1]
        · rwa [h1]
    | aborter =>
      rcases R.step_aborter with h | ⟨lock, h⟩ <;> rw [h]
      · exact .never hs hq hj
      · have hdel := AbortPC.step_onlyDeletes (K := K) (s := R.store) (b := b) (o := o)
          (u := u) R.abort
        exact .never (hs.trans hdel) hq (hj.imp_left fun hn hm => hn (hdel.mem hm))
  | committed hC =>
    cases p with
    | completer =>
      rcases R.step_completer with h | ⟨lock, h⟩ <;> rw [h]
      · exact .committed hC
      · exact .committed (h0.step_complete hC lock)
    | aborter =>
      rcases R.step_aborter with h | ⟨lock, h⟩ <;> rw [h]
      · exact .committed hC
      · exact .committed (h0.step_abort hC lock)

theorem RaceStart.inv_run (sched : List Party) (hR : RaceInv s0 (makeKey b o) u v parts R) :
    RaceInv s0 (makeKey b o) u v parts (R.run K b o u parts sched) := by
  induction sched generalizing R with
  | nil => exact hR
  | cons p sched ih => exact ih (h0.inv_step hR p)

theorem RaceStart.version_of_get {m : FsMetaV1} {value : Bytes}
    (hget : s0.get? (makeKey b o) = some ⟨.json m, value⟩) : m.get keyVersion = v :=
  get_keyVersion_of_currentVersion h0.current hget

theorem RaceStart.agreement_of_inv (hR : RaceInv s0 (makeKey b o) u v parts R) :
    Agreement R.store (makeKey b o) (newVersion v) := by
  -- without a put the record is the one of the start, which names another version
  have hdel {s' : Store} (hs : OnlyDeletes s0 s') : Agreement s' (makeKey b o) (newVersion v) := by
    intro m value hget hver
    exact absurd (hver.symm.trans (h0.version_of_get (hs.get? hget))) h0.version_ne
  cases hR with
  | searching hpc => exact hdel (.refl s0)
  | deleteJson hr hps => exact hdel (.refl s0)
  | putObject hr hs hj hps => exact hdel hj
  | never hs hq hj => exact hdel hs
  | committed hC =>
    obtain ⟨m, value, hget, -, hmem⟩ := hC.record
    intro m' value' hget' _
    rw [hget] at hget'
    cases hget'
    exact hmem

end Start

/-- Under every schedule the object's metadata name another version than the one of the upload, or
every part they list is in the store. -/
theorem race_agreement (h0 : RaceStart K s (makeKey b o) u v parts) (sched : List Party) :
    Agreement ((Race.init s).run K b o u parts sched).store (makeKey b o) (newVersion v) :=
  h0.agreement_of_inv (h0.inv_run sched (.searching trivial))

theorem raceStart_onePartStore :
    RaceStart (uploadDrive (lit "a")) (onePartStore (lit "a"))
      (makeKey (lit "bkt") (lit "a")) (lit "u1") []
      [onlyPart.listed] := by
  have hkeys : ∀ x ∈ (onePartStore (lit "a")).keys, makeKey (lit "bkt") (lit "a") ++ [dot] <+: x →
      x = jsonKey (makeKey (lit "bkt") (lit "a")) (lit "u1") ∨
        x = onlyPart.key (makeKey (lit "bkt") (lit "a")) (newVersion []) := by decide
  refine ⟨by decide, rfl, fun x hx hp => ?_, fun x hx part hpart hp => ?_, fun r hr => ⟨rfl, ?_⟩⟩
  · rcases hkeys x (mem_keys.2 hx) hp with rfl | rfl <;> decide
  · obtain rfl := List.mem_singleton.1 hpart
    have hdot : makeKey (lit "bkt") (lit "a") ++ [dot] <+: x := by
      refine List.IsPrefix.trans ?_ hp
      exact ⟨_, by rw [partsKey, List.append_assoc, List.append_assoc]; rfl⟩
    rcases hkeys x (mem_keys.2 hx) hdot with rfl | rfl
    · exact absurd ((List.prefix_append _ _).trans hp)
        (not_partsKey_prefix_jsonKey (versionOrEmpty_newVersion rfl))
    · exact ⟨4, by decide, by decide, rfl⟩
  · have hrec : (onePartStore (lit "a")).get? (jsonKey (makeKey (lit "bkt") (lit "a")) (lit "u1")) =
        some ⟨.json (uploadMeta (lit "a") ∅ 3),
            (uploadDrive (lit "a")).marshal (uploadMeta (lit "a") ∅ 3)⟩ := by
      decide
    rw [hrec] at hr
    cases hr
    intro ps m hm
    rw [uploadDrive_unmarshal] at hm
    cases hm
    rfl

theorem race_agreement_onePart :
    RaceStart (uploadDrive (lit "a")) (onePartStore (lit "a"))
      (makeKey (lit "bkt") (lit "a")) (lit "u1") []
        [onlyPart.listed] ∧
      ∀ sched, Agreement ((Race.init (onePartStore (lit "a"))).run
        (uploadDrive (lit "a")) (lit "bkt")
        (lit "a") (lit "u1") [onlyPart.listed] sched).store (makeKey (lit "bkt") (lit "a"))
          (newVersion []) :=
  ⟨raceStart_onePartStore, fun sched => race_agreement raceStart_onePartStore sched⟩

/-- An object whose key begins like a part of the version after and has, behind a `:`, the key of
the uploaded part. -/
def shadowObject : Bytes :=
  lit "a.00002.x:" ++ onlyPart.key (makeKey (lit "bkt") (lit "a")) (newVersion [])

/-- The upload of one part, and two more objects. -/
def shadowStore : Store :=
  run (uploadDrive (lit "a")) (onePartStore (lit "a"))
    [.putObject (lit "bkt") (lit "a.00002.x") (bodyReader (lit "data") (List.replicate 16 7)) ∅ 5,
      .putObject (lit "bkt") shadowObject (bodyReader (lit "data") (List.replicate 16 7)) ∅ 6]

/-- Abort after completion deletes the part of the completed object: the answer to its key query is
cut at the `:`. -/
theorem race_deletes_live_part :
    isValidObjectName shadowObject = true ∧
      Reachable (uploadDrive (lit "a")) shadowStore ∧
      currentVersion (uploadDrive (lit "a")) shadowStore (makeKey (lit "bkt") (lit "a")) = .ok [] ∧
      ∃ sched R info, (Race.init shadowStore).run (uploadDrive (lit "a")) (lit "bkt")
        (lit "a") (lit "u1")
          [onlyPart.listed] sched = R ∧
        R.complete = .done (.ok info) ∧ R.abort = .done none ∧
          ¬ Agreement R.store (makeKey (lit "bkt") (lit "a")) (newVersion []) := by
  have hreach : Reachable (uploadDrive (lit "a")) (emptyBucket (lit "a")) := ⟨id, _, rfl⟩
  refine ⟨by decide, (hreach.run _).run _, by decide, ?_⟩
  obtain ⟨sched, lock, hrun⟩ := @Race.exists_run_complete_abort (uploadDrive (lit "a")) (lit "bkt")
    (lit "a") (lit "u1") [onlyPart.listed] shadowStore
  set m := committedMeta (uploadDrive (lit "a")) (lit "a") ∅ 3 (newVersion []) [onlyPart]
    [onlyPart.stored] with hm
  refine ⟨sched, _, m.toObjectKVInfo (lit "bkt") (lit "a") 4, hrun, ?_⟩
  have hres : (completeMultipartUpload (uploadDrive (lit "a")) shadowStore (lit "bkt")
    (lit "a") (lit "u1")
      [onlyPart.listed]).2 = .ok (m.toObjectKVInfo (lit "bkt") (lit "a") 4) := by decide +kernel
  have herr : (abortMultipartUpload (uploadDrive (lit "a"))
    (completeMultipartUpload (uploadDrive (lit "a"))
      shadowStore (lit "bkt") (lit "a") (lit "u1") [onlyPart.listed]).1 (lit "bkt") (lit "a")
        (lit "u1")).2 =
      none := by decide +kernel
  have hget : (abortMultipartUpload (uploadDrive (lit "a"))
    (completeMultipartUpload (uploadDrive (lit "a"))
      shadowStore (lit "bkt") (lit "a") (lit "u1") [onlyPart.listed]).1 (lit "bkt") (lit "a")
      (lit "u1")).1.get? (makeKey (lit "bkt") (lit "a")) = some ⟨.json m, []⟩ := by decide +kernel
  have hlost : (abortMultipartUpload (uploadDrive (lit "a"))
    (completeMultipartUpload (uploadDrive (lit "a"))
      shadowStore (lit "bkt") (lit "a") (lit "u1") [onlyPart.listed]).1 (lit "bkt") (lit "a")
      (lit "u1")).1.get? (onlyPart.key (makeKey (lit "bkt") (lit "a")) (newVersion [])) = none := by
    decide +kernel
  dsimp only
  refine ⟨congrArg CompletePC.done hres, congrArg AbortPC.done herr, ?_⟩
  exact not_agreement hget (by decide) (by decide) hlost

end S3Kinetic
