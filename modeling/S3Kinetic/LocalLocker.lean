import S3Kinetic.Lib.ByteString

/-!
# Lock servers

A lock server keeps, for every locked resource, who holds it: one writer or any number of readers. A
write lock is taken on all resources of a request at once. A read lock is taken on the first one
only: `rLock` answers for a request with several resources without looking at the others.

`localLocker_exclusion`: the map always has one writer or only readers on a resource; while a
granted write lock is not released, no other request for one of its resources is granted; for read
locks that is so just when the request names no resource but the first.
-/

namespace S3Kinetic.LocalLocker

open ByteString List

structure LockRequesterInfo where
  writer : Bool
  uid : Bytes
  timestamp : Int
  timeLastCheck : Int
  source : Bytes
  deriving DecidableEq

def isWriteLock (lri : List LockRequesterInfo) : Bool :=
  match lri with
  | [e] => e.writer
  | _ => false

abbrev LockMap := AList fun _ : Bytes => List LockRequesterInfo

structure LockArgs where
  uid : Bytes
  resources : List Bytes
  source : Bytes
  nonempty : resources ≠ []

def LockArgs.first (args : LockArgs) : Bytes := args.resources.head args.nonempty

inductive LockErr where
  | unlockReadLocked (resources : List Bytes)
  | unlockNotFound (uid resource : Bytes)
  | rUnlockUnlocked (resource : Bytes)
  | rUnlockWriteLocked (resource : Bytes)
  | rUnlockNotFound (uid : Bytes)
  deriving DecidableEq

def LockErr.text : LockErr → Bytes
  | unlockReadLocked resources =>
    lit "Unlock attempted on a read locked entity: [" ++ (lit " ").intercalate resources ++ lit "]"
  | unlockNotFound uid resource =>
    lit "Unlock unable to find corresponding lock for uid: " ++ uid ++
      lit " on resource " ++ resource
  | rUnlockUnlocked resource => lit "RUnlock attempted on an unlocked entity: " ++ resource
  | rUnlockWriteLocked resource => lit "RUnlock attempted on a write locked entity: " ++ resource
  | rUnlockNotFound uid => lit "RUnlock unable to find corresponding read lock for uid: " ++ uid

/-- `lockMap[resource]`, empty if there is none. -/
def entries (m : LockMap) (resource : Bytes) : List LockRequesterInfo := (m.lookup resource).getD []

def canTakeUnlock (m : LockMap) (resources : List Bytes) : Bool :=
  (resources.countP fun r => isWriteLock (entries m r)) = resources.length

def canTakeLock (m : LockMap) (resources : List Bytes) : Bool :=
  (resources.countP fun r => (m.lookup r).isNone) = resources.length

def lock (now : Int) (args : LockArgs) (m : LockMap) : Bool × LockMap :=
  if !canTakeLock m args.resources then (false, m)
  else (true, args.resources.foldl (fun m r => m.insert r [⟨true, args.uid, now, now, args.source⟩])
    m)

/-- `removeEntry`; there is no result if the entry is not found. -/
def removeEntry (name uid : Bytes) (lri : List LockRequesterInfo) (m : LockMap) : Option LockMap :=
  if lri.any fun e => e.uid = uid then
    if lri.length = 1 then some (m.erase name)
      else some (m.insert name (lri.eraseP fun e => e.uid = uid))
  else none

/-- The loop of `Unlock`, which stops at the first resource without an entry. -/
def unlockAll (uid : Bytes) : List Bytes → LockMap → (Bool × Option LockErr) × LockMap
  | [], m => ((true, none), m)
  | r :: resources, m =>
    match removeEntry r uid (entries m r) m with
    | none => ((false, some (.unlockNotFound uid r)), m)
    | some m => unlockAll uid resources m

def unlock (args : LockArgs) (m : LockMap) : (Bool × Option LockErr) × LockMap :=
  if !canTakeUnlock m args.resources then ((false, some (.unlockReadLocked args.resources)), m)
  else unlockAll args.uid args.resources m

def rLock (now : Int) (args : LockArgs) (m : LockMap) : Bool × LockMap :=
  let lrInfo : LockRequesterInfo := ⟨false, args.uid, now, now, args.source⟩
  match m.lookup args.first with
  | some lri =>
    if isWriteLock lri then (false, m) else (true, m.insert args.first (lri ++ [lrInfo]))
  | none => (true, m.insert args.first [lrInfo])

def rUnlock (args : LockArgs) (m : LockMap) : (Bool × Option LockErr) × LockMap :=
  match m.lookup args.first with
  | none => ((false, some (.rUnlockUnlocked args.first)), m)
  | some lri =>
    if isWriteLock lri then ((false, some (.rUnlockWriteLocked args.first)), m)
    else
      match removeEntry args.first args.uid lri m with
      | none => ((false, some (.rUnlockNotFound args.uid)), m)
      | some m => ((true, none), m)

def removeEntryIfExists (name uid : Bytes) (m : LockMap) : LockMap :=
  match m.lookup name with
  | some lri => (removeEntry name uid lri m).getD m
  | none => m

def expired (m : LockMap) (uid : Bytes) (resources : List Bytes) : Bool :=
  !resources.any fun r => (entries m r).any fun e => e.uid = uid

/-! ## Runs -/

inductive Call where
  | lock (args : LockArgs)
  | rLock (args : LockArgs)
  | unlock (args : LockArgs)
  | rUnlock (args : LockArgs)
  | removeEntryIfExists (name uid : Bytes)

/-- The call takes locks away from the uid. -/
def Call.Releases (uid : Bytes) : Call → Prop
  | .lock _ | .rLock _ => False
  | .unlock args | .rUnlock args => args.uid = uid
  | .removeEntryIfExists _ uid' => uid' = uid

def call (m : LockMap) (c : Int × Call) : LockMap :=
  match c.2 with
  | .lock args => (lock c.1 args m).2
  | .rLock args => (rLock c.1 args m).2
  | .unlock args => (unlock args m).2
  | .rUnlock args => (rUnlock args m).2
  | .removeEntryIfExists name uid => removeEntryIfExists name uid m

def run (calls : List (Int × Call)) : LockMap := calls.foldl call ∅

/-! ## What the map holds -/

def Shaped (lri : List LockRequesterInfo) : Prop :=
  (∃ e, lri = [e] ∧ e.writer = true) ∨ (lri ≠ [] ∧ ∀ e ∈ lri, e.writer = false)

def Sound (m : LockMap) : Prop := ∀ r lri, m.lookup r = some lri → Shaped lri

def Holds (m : LockMap) (uid r : Bytes) : Prop := ∃ e ∈ entries m r, e.uid = uid

section Maps

variable {m m' : LockMap} {r name uid : Bytes} {lri : List LockRequesterInfo}

theorem entries_insert (m : LockMap) (r name : Bytes) (lri : List LockRequesterInfo) :
    entries (m.insert name lri) r = if r = name then lri else entries m r := by
  unfold entries
  split_ifs with h
  · rw [h, AList.lookup_insert, Option.getD_some]
  · rw [AList.lookup_insert_ne h]

theorem entries_erase (m : LockMap) (r name : Bytes) :
    entries (m.erase name) r = if r = name then [] else entries m r := by
  unfold entries
  split_ifs with h
  · rw [h, AList.lookup_erase, Option.getD_none]
  · rw [AList.lookup_erase_ne h]

theorem Sound.insert (h : Sound m) (hlri : Shaped lri) : Sound (m.insert name lri) := by
  intro r lri' hr
  by_cases hname : r = name
  · subst hname
    rw [AList.lookup_insert] at hr
    exact Option.some.inj hr ▸ hlri
  · rw [AList.lookup_insert_ne hname] at hr
    exact h r lri' hr

theorem Sound.erase (h : Sound m) : Sound (m.erase name) := by
  intro r lri hr
  by_cases hname : r = name
  · subst hname
    rw [AList.lookup_erase] at hr
    cases hr
  · rw [AList.lookup_erase_ne hname] at hr
    exact h r lri hr

theorem shaped_singleton (e : LockRequesterInfo) : Shaped [e] := by
  cases he : e.writer with
  | true => exact .inl ⟨e, rfl, he⟩
  | false => exact .inr ⟨by simp, by simpa using he⟩

theorem Shaped.readers (h : Shaped lri) (hw : isWriteLock lri = false) :
    lri ≠ [] ∧ ∀ e ∈ lri, e.writer = false := by
  rcases h with ⟨e, rfl, he⟩ | h
  · simp [isWriteLock, he] at hw
  · exact h

theorem isWriteLock_iff : isWriteLock lri = true ↔ ∃ e, lri = [e] ∧ e.writer = true := by
  match lri with
  | [] => simp [isWriteLock]
  | [e] => simp [isWriteLock]
  | e :: e' :: lri => simp [isWriteLock]

theorem Shaped.eraseP (h : Shaped lri) (hlen : lri.length ≠ 1) (p : LockRequesterInfo → Bool) :
    Shaped (lri.eraseP p) := by
  rcases h with ⟨e, rfl, he⟩ | ⟨hne, h⟩
  · exact absurd rfl hlen
  · refine .inr ⟨fun hnil => ?_, fun e he => h e (mem_of_mem_eraseP he)⟩
    rcases eraseP_eq_nil_iff.1 hnil with hnil | ⟨e, -, rfl⟩
    · exact hne hnil
    · exact hlen rfl

end Maps

/-! ## What one call does -/

section Calls

variable {m m' : LockMap} {r name uid : Bytes} {lri : List LockRequesterInfo} {now : Int}
    {args : LockArgs}

theorem removeEntry_spec (h : removeEntry name uid (entries m name) m = some m') :
    (∃ e ∈ entries m name, e.uid = uid) ∧
      ∀ r, entries m' r = if r = name then (entries m name).eraseP fun e => e.uid = uid
        else entries m r := by
  unfold removeEntry at h
  split_ifs at h with hany hlen
  · obtain ⟨e, he⟩ := length_eq_one_iff.1 hlen
    rw [he, any_cons, any_nil, Bool.or_false, decide_eq_true_iff] at hany
    cases h
    refine ⟨⟨e, by simp [he], hany⟩, fun r => ?_⟩
    rw [entries_erase, he, eraseP_cons_of_pos (by simpa using hany)]
  · cases h
    refine ⟨by simpa using hany, fun r => entries_insert m r name _⟩

theorem removeEntry_sound (hm : Sound m) (h : removeEntry name uid (entries m name) m = some m') :
    Sound m' := by
  unfold removeEntry at h
  split_ifs at h with hany hlen
  · cases h
    exact hm.erase
  · cases h
    cases hlri : m.lookup name with
    | none => simp [entries, hlri] at hany
    | some lri =>
      rw [entries, hlri, Option.getD_some] at hlen ⊢
      exact hm.insert ((hm name lri hlri).eraseP hlen _)

theorem removeEntry_holds {uid' : Bytes} (h : removeEntry name uid' (entries m name) m = some m')
    (hne : uid' ≠ uid) (hr : Holds m uid r) : Holds m' uid r := by
  obtain ⟨e, he, huid⟩ := hr
  rw [Holds, (removeEntry_spec h).2]
  refine ⟨e, ?_, huid⟩
  split_ifs with hname
  · exact (mem_eraseP_of_neg (by simpa [huid] using hne.symm)).2 (hname ▸ he)
  · exact he

theorem canTakeLock_iff : canTakeLock m args.resources = true ↔
    ∀ r ∈ args.resources, m.lookup r = none := by
  simp [canTakeLock, countP_eq_length]

theorem lookup_foldl_insert (resources : List Bytes) (m : LockMap)
    (lri : List LockRequesterInfo) (r : Bytes) :
    (resources.foldl (fun m r => m.insert r lri) m).lookup r = if r ∈ resources then some lri
      else m.lookup r := by
  induction resources generalizing m with
  | nil => simp
  | cons r' resources ih =>
    rw [foldl_cons, ih]
    by_cases hr : r ∈ resources
    · simp [hr]
    · by_cases hr' : r = r'
      · subst hr'
        rw [if_neg hr, AList.lookup_insert, if_pos mem_cons_self]
      · rw [if_neg hr, AList.lookup_insert_ne hr', if_neg (by simp [hr, hr'])]

theorem lock_granted (h : (lock now args m).1 = true) :
    (∀ r ∈ args.resources, m.lookup r = none) ∧
      ∀ r, (lock now args m).2.lookup r =
        if r ∈ args.resources then some [⟨true, args.uid, now, now, args.source⟩]
          else m.lookup r := by
  unfold lock at h ⊢
  cases hcan : canTakeLock m args.resources with
  | false => simp [hcan] at h
  | true =>
    simp only [Bool.not_true, Bool.false_eq_true, if_false]
    exact ⟨canTakeLock_iff.1 hcan, lookup_foldl_insert args.resources m _⟩

theorem lock_granted_of_free (h : ∀ r ∈ args.resources, m.lookup r = none) :
    (lock now args m).1 = true := by
  rw [lock, canTakeLock_iff.2 h]
  rfl

theorem lock_refused (h : (lock now args m).1 = false) : (lock now args m).2 = m := by
  unfold lock at h ⊢
  cases hcan : canTakeLock m args.resources with
  | false => simp
  | true => simp [hcan] at h

theorem lock_sound (hm : Sound m) : Sound (lock now args m).2 := by
  cases h : (lock now args m).1 with
  | false => rwa [lock_refused h]
  | true =>
    intro r lri hr
    rw [(lock_granted h).2] at hr
    split_ifs at hr
    · exact Option.some.inj hr ▸ shaped_singleton _
    · exact hm r lri hr

theorem lock_holds (hr : Holds m uid r) : Holds (lock now args m).2 uid r := by
  cases h : (lock now args m).1 with
  | false => rwa [lock_refused h]
  | true =>
    obtain ⟨hfree, hlookup⟩ := lock_granted h
    have hr' : r ∉ args.resources := by
      intro hmem
      simp [Holds, entries, hfree r hmem] at hr
    rwa [Holds, entries, hlookup, if_neg hr']

theorem rLock_eq : rLock now args m =
    if isWriteLock (entries m args.first) then (false, m)
    else (true, m.insert args.first (entries m args.first ++
      [⟨false, args.uid, now, now, args.source⟩])) := by
  unfold rLock entries
  cases h : m.lookup args.first <;> simp [isWriteLock]

theorem rLock_sound (hm : Sound m) : Sound (rLock now args m).2 := by
  rw [rLock_eq]
  split_ifs with hw
  · exact hm
  · refine hm.insert (.inr ⟨by simp, fun e he => ?_⟩)
    rcases mem_append.1 he with he | he
    · cases hlri : m.lookup args.first with
      | none => simp [entries, hlri] at he
      | some lri =>
        rw [entries, hlri, Option.getD_some] at he hw
        exact ((hm _ _ hlri).readers (by simpa using hw)).2 e he
    · rw [mem_singleton.1 he]

theorem rLock_holds (hr : Holds m uid r) : Holds (rLock now args m).2 uid r := by
  rw [rLock_eq]
  split_ifs with hw
  · exact hr
  · obtain ⟨e, he, huid⟩ := hr
    refine ⟨e, ?_, huid⟩
    rw [entries_insert]
    split_ifs with hname
    · exact mem_append_left _ (hname ▸ he)
    · exact he

variable {P : LockMap → Prop}

theorem unlockAll_keeps {uid : Bytes}
    (hP : ∀ name m m', P m → removeEntry name uid (entries m name) m = some m' → P m')
    (resources : List Bytes) (h : P m) : P (unlockAll uid resources m).2 := by
  induction resources generalizing m with
  | nil => exact h
  | cons r resources ih =>
    rw [unlockAll]
    cases hr : removeEntry r uid (entries m r) m with
    | none => exact h
    | some m' => exact ih (hP r m m' h hr)

theorem unlock_keeps
    (hP : ∀ name m m', P m → removeEntry name args.uid (entries m name) m = some m' → P m')
    (h : P m) :
    P (unlock args m).2 := by
  unfold unlock
  split_ifs
  · exact h
  · exact unlockAll_keeps hP _ h

theorem rUnlock_keeps
    (hP : ∀ name m m', P m → removeEntry name args.uid (entries m name) m = some m' → P m')
    (h : P m) :
    P (rUnlock args m).2 := by
  unfold rUnlock
  cases hlri : m.lookup args.first with
  | none => exact h
  | some lri =>
    have hentries : entries m args.first = lri := by rw [entries, hlri, Option.getD_some]
    cases hw : isWriteLock lri with
    | true => simpa [hw] using h
    | false =>
      cases hrem : removeEntry args.first args.uid lri m with
      | none => simpa [hw, hrem] using h
      | some m' => simpa [hw, hrem] using hP args.first m m' h (hentries ▸ hrem)

theorem rUnlock_of_removed (hlri : m.lookup args.first = some lri) (hw : isWriteLock lri = false)
    (hrem : removeEntry args.first args.uid lri m = some m') :
    rUnlock args m = ((true, none), m') := by
  unfold rUnlock
  cases h : m.lookup args.first with
  | none => simp [hlri] at h
  | some lri' =>
    rw [hlri] at h
    cases h
    simp [hw, hrem]

theorem removeEntryIfExists_keeps
    (hP : ∀ name m m', P m → removeEntry name uid (entries m name) m = some m' → P m') (h : P m) :
    P (removeEntryIfExists name uid m) := by
  unfold removeEntryIfExists
  cases hlri : m.lookup name with
  | none => exact h
  | some lri =>
    have hentries : entries m name = lri := by rw [entries, hlri, Option.getD_some]
    cases hrem : removeEntry name uid lri m with
    | none => simpa [hrem] using h
    | some m' => simpa [hrem] using hP name m m' h (hentries ▸ hrem)

theorem call_sound (hm : Sound m) (c : Int × Call) : Sound (call m c) := by
  obtain ⟨now, c⟩ := c
  have hremove : ∀ uid name m m', Sound m → removeEntry name uid (entries m name) m = some m' →
      Sound m' :=
    fun _ _ _ _ => removeEntry_sound
  cases c with
  | lock args => exact lock_sound hm
  | rLock args => exact rLock_sound hm
  | unlock args => exact unlock_keeps (hremove _) hm
  | rUnlock args => exact rUnlock_keeps (hremove _) hm
  | removeEntryIfExists name uid => exact removeEntryIfExists_keeps (hremove _) hm

theorem call_holds {c : Int × Call} (hc : ¬ c.2.Releases uid) (hr : Holds m uid r) :
    Holds (call m c) uid r := by
  obtain ⟨now, c⟩ := c
  have hremove : ∀ uid', uid' ≠ uid → ∀ name m m', Holds m uid r →
      removeEntry name uid' (entries m name) m = some m' → Holds m' uid r :=
    fun _ hne _ _ _ hr h => removeEntry_holds h hne hr
  cases c with
  | lock args => exact lock_holds hr
  | rLock args => exact rLock_holds hr
  | unlock args => exact unlock_keeps (hremove _ hc) hr
  | rUnlock args => exact rUnlock_keeps (hremove _ hc) hr
  | removeEntryIfExists name uid => exact removeEntryIfExists_keeps (hremove _ hc) hr

end Calls

/-! ## Runs of calls -/

section Runs

variable {m : LockMap} {uid r : Bytes} {now : Int} {args : LockArgs}

theorem calls_sound (calls : List (Int × Call)) (hm : Sound m) : Sound (calls.foldl call m) := by
  induction calls generalizing m with
  | nil => exact hm
  | cons c calls ih => exact ih (call_sound hm c)

theorem run_sound (calls : List (Int × Call)) : Sound (run calls) :=
  calls_sound calls fun r lri h => by simp [AList.lookup_empty] at h

theorem calls_holds (calls : List (Int × Call)) (hcalls : ∀ c ∈ calls, ¬ c.2.Releases uid)
    (hr : Holds m uid r) :
    Holds (calls.foldl call m) uid r := by
  induction calls generalizing m with
  | nil => exact hr
  | cons c calls ih =>
    rw [forall_mem_cons] at hcalls
    exact ih hcalls.2 (call_holds hcalls.1 hr)

theorem lock_refused_of_holds (hr : Holds m uid r) (hmem : r ∈ args.resources) :
    (lock now args m).1 = false := by
  by_contra h
  have hfree := (lock_granted (eq_true_of_ne_false h)).1 r hmem
  simp [Holds, entries, hfree] at hr

/-- While what `take` granted for the request is not released, no other uid is granted a write lock
on a resource of the request. -/
def Excludes (take : Int → LockArgs → LockMap → Bool × LockMap) (args : LockArgs) : Prop :=
  ∀ (before after : List (Int × Call)) (now now' : Int) (args' : LockArgs),
    (take now args (run before)).1 = true → (∀ c ∈ after, ¬ c.2.Releases args.uid) →
      args'.uid ≠ args.uid →
    (∃ r ∈ args.resources, r ∈ args'.resources) →
    (lock now' args' (after.foldl call (take now args (run before)).2)).1 = false

theorem Excludes.of_holds {take : Int → LockArgs → LockMap → Bool × LockMap}
    (h : ∀ now m, (take now args m).1 = true →
      ∀ r ∈ args.resources, Holds (take now args m).2 args.uid r) :
    Excludes take args := by
  rintro before after now now' args' hgranted hafter - ⟨r, hr, hr'⟩
  exact lock_refused_of_holds (calls_holds after hafter (h now _ hgranted r hr)) hr'

theorem lock_takes (h : (lock now args m).1 = true) (hr : r ∈ args.resources) :
    Holds (lock now args m).2 args.uid r := by
  rw [Holds, entries, (lock_granted h).2, if_pos hr]
  exact ⟨_, mem_singleton_self _, rfl⟩

theorem rLock_takes (h : (rLock now args m).1 = true) :
    Holds (rLock now args m).2 args.uid args.first := by
  rw [rLock_eq] at h ⊢
  split_ifs at h ⊢
  rw [Holds, entries_insert, if_pos rfl]
  exact ⟨_, mem_append_right _ (mem_singleton_self _), rfl⟩

theorem excludes_lock (args : LockArgs) : Excludes lock args :=
  .of_holds fun _ _ h _ hr => lock_takes h hr

theorem excludes_rLock_iff (args : LockArgs) :
    Excludes rLock args ↔ ∀ r ∈ args.resources, r = args.first := by
  constructor
  · intro h r hr
    by_contra hne
    let args' : LockArgs := ⟨0 :: args.uid, [r], [], by simp⟩
    have hgranted : rLock 0 args (run []) = (true, AList.insert args.first _ ∅) := rLock_eq
    have hfree : ∀ r' ∈ args'.resources, (rLock 0 args (run [])).2.lookup r' = none := by
      intro r' hr'
      rw [hgranted, mem_singleton.1 hr', AList.lookup_insert_ne hne, AList.lookup_empty]
    have hrefused := h [] [] 0 0 args' (by rw [hgranted]) (by simp) (by simp [args']) ⟨r, hr,
      mem_singleton_self r⟩
    exact absurd (lock_granted_of_free hfree) (by simpa using hrefused)
  · intro h
    refine .of_holds fun now m hgranted r hr => ?_
    rw [h r hr]
    exact rLock_takes hgranted

end Runs

theorem localLocker_exclusion (calls : List (Int × Call)) (args : LockArgs) :
    Sound (run calls) ∧ Excludes lock args ∧
      (Excludes rLock args ↔ ∀ r ∈ args.resources, r = args.first) :=
  ⟨run_sound calls, excludes_lock args, excludes_rLock_iff args⟩

/-- A reader of `a` and `b`, granted both, and a writer of `b` who is granted it too. -/
theorem rLock_secondResource_unlocked :
    ∃ reader writer : LockArgs, reader.uid ≠ writer.uid ∧
      (∃ r ∈ reader.resources, r ∈ writer.resources) ∧
      (rLock 0 reader (run [])).1 = true ∧ (lock 1 writer (rLock 0 reader (run [])).2).1 = true :=
  ⟨⟨lit "1", [lit "a", lit "b"], [], by decide⟩, ⟨lit "2", [lit "b"], [], by decide⟩, by decide,
    ⟨lit "b", by decide, by decide⟩, by decide, by decide⟩

end S3Kinetic.LocalLocker
