import S3Kinetic.DRWMutex

/-!
# Lock maintenance

Every process looks from time to time at the entries that its own lock servers have had for long,
and asks all other servers whether they know them. One server that does not know an entry is enough
for it to be removed: a lock that its client has on a quorum only, and not on all servers, is taken
away while it is held.

`lockMaintenance_keeps_iff`: of a lock held on a quorum, no entry is ever removed just when every
server has one.
-/

namespace S3Kinetic.LockMaintenance

open ByteString Quorum LocalLocker Dsync List

variable {n : Nat} {P : Type*}

/-- The entries that are old enough, with the map in which they are marked as checked. -/
def longLived (interval now : Int) (m : LockMap) : List (Bytes × LockRequesterInfo) × LockMap :=
  let old (e : LockRequesterInfo) : Bool := interval ≤ now - e.timeLastCheck
  let touch (lri : List LockRequesterInfo) :=
    lri.map fun e => if old e then { e with timeLastCheck := now } else e
  (m.entries.flatMap fun entry => (entry.2.filter old).map fun e => (entry.1, e),
    ⟨m.entries.map (.map id fun _ => touch), m.nodupKeys.map₂ _⟩)

/-- `getLongLivedLocks`, for the lock servers of one process. -/
def getLongLivedLocks (interval now : Int) (locals : List (Fin n)) (s : Fin n → LockMap) :
    List (Fin n × Bytes × LockRequesterInfo) × (Fin n → LockMap) :=
  (locals.flatMap fun k => (longLived interval now (s k)).1.map fun nlrip => (k, nlrip),
    fun k => if k ∈ locals then (longLived interval now (s k)).2 else s k)

/-- Asking one server about an entry of the server `lendpoint`; without an answer nothing happens.
The name is one that REST takes to the server as it is (`Dsync.Sendable`). -/
def ask (answers : Fin n → Bool) (lendpoint : Fin n) (name uid : Bytes) (s : Fin n → LockMap)
    (endpoint : Fin n) :
    Fin n → LockMap :=
  if endpoint = lendpoint then s
  else if !answers endpoint then s
  else if expired (s endpoint) uid [name] then Function.update s lendpoint
    (removeEntryIfExists name uid (s lendpoint))
  else s

/-- The inner loop of `lockMaintenance`, over all servers. -/
def check (answers : Fin n → Bool) (s : Fin n → LockMap)
    (nlrip : Fin n × Bytes × LockRequesterInfo) : Fin n → LockMap :=
  (List.finRange n).foldl (ask answers nlrip.1 nlrip.2.1 nlrip.2.2.uid) s

structure Cluster (n : Nat) (P : Type*) where
  locals : P → List (Fin n)
  covers : ∀ k, ∃ p, k ∈ locals p

/-- A round of `lockMaintenance` in which all servers answer. The loops over maps have any order. -/
def Round (cluster : Cluster n P) (interval : Int) (s s' : Fin n → LockMap) : Prop :=
  ∃ (p : P) (now : Int) (nlrips : List (Fin n × Bytes × LockRequesterInfo)),
    nlrips.Perm (getLongLivedLocks interval now (cluster.locals p) s).1 ∧
      s' = nlrips.foldl (check fun _ => true)
        (getLongLivedLocks interval now (cluster.locals p) s).2

/-- The client of the uid has locked the resource on enough servers. -/
def QuorumHeld (s : Fin n → LockMap) (uid r : Bytes) (isReadLock : Bool) : Prop :=
  (if isReadLock then dquorumReads n else dquorum n) ≤
    tally fun k => ∃ e ∈ entries (s k) r, e.uid = uid ∧ e.writer = !isReadLock

def entriesOf (m : LockMap) (uid r : Bytes) : Nat := ((entries m r).map (·.uid)).count uid

/-! ## What rounds do to the entries of one uid -/

section Entries

variable {m m' : LockMap} {uid r name : Bytes} {s s' : Fin n → LockMap}

theorem entriesOf_pos : 0 < entriesOf m uid r ↔ Holds m uid r := by
  simp [entriesOf, Holds, count_pos_iff]

theorem expired_iff : expired m uid [name] = true ↔ entriesOf m uid name = 0 := by
  simp [expired, entriesOf, count_eq_zero]

theorem map_uid_eraseP (lri : List LockRequesterInfo) (uid : Bytes) :
    (lri.eraseP fun e => e.uid = uid).map (·.uid) = (lri.map (·.uid)).erase uid := by
  induction lri with
  | nil => rfl
  | cons e lri ih =>
    by_cases huid : e.uid = uid
    · simp [huid]
    · rw [eraseP_cons_of_neg (by simpa using huid), map_cons, map_cons,
        erase_cons_tail (by simpa using huid), ih]

theorem entries_removeEntryIfExists (m : LockMap) (name uid r : Bytes) :
    entries (removeEntryIfExists name uid m) r =
      if r = name then (entries m name).eraseP fun e => e.uid = uid else entries m r := by
  have hkept : (∀ e ∈ entries m name, e.uid ≠ uid) →
      entries m r = if r = name then (entries m name).eraseP fun e => e.uid = uid
          else entries m r := by
    intro hno
    rw [eraseP_of_forall_not (by simpa using hno)]
    split_ifs with h
    · rw [h]
    · rfl
  unfold removeEntryIfExists
  cases hlri : m.lookup name with
  | none => exact hkept (by simp [entries, hlri])
  | some lri =>
    have hentries : entries m name = lri := by rw [entries, hlri, Option.getD_some]
    cases hrem : removeEntry name uid lri m with
    | none =>
      simp only [hrem, Option.getD_none]
      refine hkept fun e he huid => ?_
      have hany : (lri.any fun e => e.uid = uid) = true :=
        any_eq_true.2 ⟨e, hentries ▸ he, by simpa using huid⟩
      rw [removeEntry, if_pos hany] at hrem
      split_ifs at hrem
    | some m' =>
      simp only [hrem, Option.getD_some]
      exact (removeEntry_spec (hentries ▸ hrem)).2 r

theorem entriesOf_removeEntryIfExists (m : LockMap) (name uid' uid r : Bytes) :
    entriesOf (removeEntryIfExists name uid' m) uid r =
      if name = r ∧ uid' = uid then entriesOf m uid r - 1 else entriesOf m uid r := by
  rw [entriesOf, entries_removeEntryIfExists]
  by_cases hname : name = r
  · rw [if_pos hname.symm, map_uid_eraseP, count_erase, hname]
    by_cases huid : uid' = uid
    · simp [huid, entriesOf]
    · simp [huid, entriesOf]
  · rw [if_neg (Ne.symm hname), if_neg fun h => hname h.1]
    rfl

theorem entriesOf_longLived (interval now : Int) (m : LockMap) (uid r : Bytes) :
    entriesOf (longLived interval now m).2 uid r = entriesOf m uid r := by
  have huids : ∀ lri : List LockRequesterInfo, (lri.map fun e =>
      if decide (interval ≤ now - e.timeLastCheck) = true then { e with timeLastCheck := now }
        else e).map (·.uid) =
        lri.map (·.uid) := by
    intro lri
    rw [map_map]
    refine map_congr_left fun e _ => ?_
    simp only [Function.comp_apply]
    split_ifs <;> rfl
  unfold entriesOf entries AList.lookup longLived
  rw [dlookup_map₂]
  cases m.entries.dlookup r with
  | none => rfl
  | some lri => exact congrArg (List.count uid) (huids lri)

theorem entriesOf_getLongLivedLocks (interval now : Int) (locals : List (Fin n))
    (s : Fin n → LockMap) (k : Fin n)
    (uid r : Bytes) : entriesOf ((getLongLivedLocks interval now locals s).2 k) uid r =
      entriesOf (s k) uid r := by
  unfold getLongLivedLocks
  dsimp only
  split_ifs
  · exact entriesOf_longLived interval now (s k) uid r
  · rfl

theorem ask_cases (answers : Fin n → Bool) (lendpoint : Fin n) (name uid : Bytes)
    (s : Fin n → LockMap) (j : Fin n) :
    ask answers lendpoint name uid s j = s ∨
      (j ≠ lendpoint ∧ entriesOf (s j) uid name = 0 ∧
        ask answers lendpoint name uid s j =
          Function.update s lendpoint (removeEntryIfExists name uid (s lendpoint))) := by
  unfold ask
  split_ifs with hj hanswer hexpired
  · exact .inl rfl
  · exact .inl rfl
  · exact .inr ⟨hj, expired_iff.1 hexpired, rfl⟩
  · exact .inl rfl

def Shrinks (uid r : Bytes) (s s' : Fin n → LockMap) : Prop :=
  ∀ k, entriesOf (s' k) uid r ≤ entriesOf (s k) uid r

theorem Shrinks.refl (uid r : Bytes) (s : Fin n → LockMap) : Shrinks uid r s s := fun _ => le_rfl

theorem Shrinks.trans {s₁ s₂ s₃ : Fin n → LockMap} (h₁ : Shrinks uid r s₁ s₂)
    (h₂ : Shrinks uid r s₂ s₃) :
    Shrinks uid r s₁ s₃ := fun k => (h₂ k).trans (h₁ k)

theorem ask_shrinks (answers : Fin n → Bool) (lendpoint : Fin n) (name uid' : Bytes)
    (s : Fin n → LockMap) (j : Fin n) :
    Shrinks uid r s (ask answers lendpoint name uid' s j) := by
  rcases ask_cases answers lendpoint name uid' s j with h | ⟨-, -, h⟩
  · rw [h]
    exact .refl uid r s
  · intro k
    rw [h]
    by_cases hk : k = lendpoint
    · subst hk
      rw [Function.update_self, entriesOf_removeEntryIfExists]
      split_ifs
      · exact Nat.sub_le _ _
      · exact le_rfl
    · rw [Function.update_of_ne hk]

theorem foldl_shrinks {α : Type*} {f : (Fin n → LockMap) → α → Fin n → LockMap}
    (hf : ∀ s x, Shrinks uid r s (f s x))
    (l : List α) (s : Fin n → LockMap) : Shrinks uid r s (l.foldl f s) := by
  induction l generalizing s with
  | nil => exact .refl uid r s
  | cons x l ih => exact (hf s x).trans (ih _)

theorem check_shrinks (answers : Fin n → Bool) (s : Fin n → LockMap)
    (nlrip : Fin n × Bytes × LockRequesterInfo) :
    Shrinks uid r s (check answers s nlrip) :=
  foldl_shrinks (fun s j => ask_shrinks answers _ _ _ s j) _ s

/-! ## Locks that every server has -/

/-- Every server has as many entries of the uid as in `s₀`, and at least one. -/
def Kept (uid r : Bytes) (s₀ s : Fin n → LockMap) : Prop :=
  ∀ k, 0 < entriesOf (s k) uid r ∧ entriesOf (s k) uid r = entriesOf (s₀ k) uid r

variable {s₀ : Fin n → LockMap}

theorem Kept.ask (h : Kept uid r s₀ s) (answers : Fin n → Bool) (lendpoint : Fin n)
    (name uid' : Bytes) (j : Fin n) :
    Kept uid r s₀ (ask answers lendpoint name uid' s j) := by
  rcases ask_cases answers lendpoint name uid' s j with heq | ⟨-, hexpired, heq⟩
  · rwa [heq]
  · -- the question is not about this lock, which server `j` has too
    have hother : ¬ (name = r ∧ uid' = uid) := by
      rintro ⟨rfl, rfl⟩
      exact (h j).1.ne' hexpired
    rw [heq]
    intro k
    by_cases hk : k = lendpoint
    · subst hk
      rw [Function.update_self, entriesOf_removeEntryIfExists, if_neg hother]
      exact h k
    · rw [Function.update_of_ne hk]
      exact h k

theorem Kept.foldl {α : Type*} {f : (Fin n → LockMap) → α → Fin n → LockMap}
    (hf : ∀ s x, Kept uid r s₀ s → Kept uid r s₀ (f s x)) (l : List α) (h : Kept uid r s₀ s) :
    Kept uid r s₀ (l.foldl f s) := by
  induction l generalizing s with
  | nil => exact h
  | cons x l ih => exact ih (hf s x h)

theorem Kept.round {cluster : Cluster n P} {interval : Int} (h : Kept uid r s₀ s)
    (hround : Round cluster interval s s') :
    Kept uid r s₀ s' := by
  obtain ⟨p, now, nlrips, -, rfl⟩ := hround
  have htouched : Kept uid r s₀ (getLongLivedLocks interval now (cluster.locals p) s).2 := by
    intro k
    rw [entriesOf_getLongLivedLocks]
    exact h k
  exact htouched.foldl (fun s nlrip h => h.foldl (fun s j h => h.ask _ _ _ _ j) _) nlrips

theorem Kept.rounds {cluster : Cluster n P} {interval : Int} (h : Kept uid r s₀ s)
    (hrounds : Relation.ReflTransGen (Round cluster interval) s s') : Kept uid r s₀ s' := by
  induction hrounds with
  | refl => exact h
  | tail _ hround ih => exact ih.round hround

/-! ## Locks that some server does not have -/

theorem ask_lt {lendpoint j : Fin n} {c : Nat} (hc : 0 < c)
    (hle : entriesOf (s lendpoint) uid r ≤ c) (hj : j ≠ lendpoint)
    (hnone : entriesOf (s j) uid r = 0) :
    entriesOf (ask (fun _ => true) lendpoint r uid s j lendpoint) uid r < c := by
  have hask : ask (fun _ => true) lendpoint r uid s j =
      Function.update s lendpoint (removeEntryIfExists r uid (s lendpoint)) := by
    simp [ask, hj, expired_iff.2 hnone]
  rw [hask, Function.update_self, entriesOf_removeEntryIfExists, if_pos ⟨rfl, rfl⟩]
  omega

theorem check_lt {lendpoint j : Fin n} {c : Nat} {e : LockRequesterInfo} (hc : 0 < c)
    (hle : entriesOf (s lendpoint) e.uid r ≤ c) (hj : j ≠ lendpoint)
    (hnone : entriesOf (s j) e.uid r = 0) :
    entriesOf (check (fun _ => true) s (lendpoint, r, e) lendpoint) e.uid r < c := by
  obtain ⟨before, after, hsplit⟩ := append_of_mem (mem_finRange j)
  rw [check, hsplit, foldl_append, foldl_cons]
  have hbefore : Shrinks e.uid r s (before.foldl (ask (fun _ => true) lendpoint r e.uid) s) :=
    foldl_shrinks (ask_shrinks (fun _ => true) lendpoint r e.uid) before s
  refine (foldl_shrinks (ask_shrinks (fun _ => true) lendpoint r e.uid) after _ lendpoint).trans_lt
    ?_
  exact ask_lt hc ((hbefore lendpoint).trans hle) hj (Nat.le_zero.1 (hnone ▸ hbefore j))

theorem mem_longLived {interval now : Int} {e : LockRequesterInfo} (he : e ∈ entries m r)
    (hold : interval ≤ now - e.timeLastCheck) : (r, e) ∈ (longLived interval now m).1 := by
  cases hlri : m.lookup r with
  | none => simp [entries, hlri] at he
  | some lri =>
    have hmem : ⟨r, lri⟩ ∈ m.entries := AList.mem_lookup_iff.1 hlri
    rw [entries, hlri, Option.getD_some] at he
    exact mem_flatMap.2 ⟨⟨r, lri⟩, hmem, mem_map.2 ⟨e, mem_filter.2 ⟨he, by simpa using hold⟩, rfl⟩⟩

theorem exists_round_lt (cluster : Cluster n P) (interval : Int) {j k : Fin n}
    (hk : Holds (s k) uid r) (hj : ¬ Holds (s j) uid r) :
    ∃ s', Round cluster interval s s' ∧ entriesOf (s' k) uid r < entriesOf (s k) uid r := by
  have hpos := entriesOf_pos.2 hk
  obtain ⟨e, he, rfl⟩ := hk
  obtain ⟨p, hp⟩ := cluster.covers k
  have hnone : entriesOf (s j) e.uid r = 0 := Nat.eq_zero_of_not_pos fun h => hj (entriesOf_pos.1 h)
  have hjk : j ≠ k := by
    rintro rfl
    exact hpos.ne' hnone
  let now := e.timeLastCheck + interval
  have hmem : (k, r, e) ∈ (getLongLivedLocks interval now (cluster.locals p) s).1 :=
    mem_flatMap.2 ⟨k, hp, mem_map.2 ⟨(r, e), mem_longLived he (by simp [now]), rfl⟩⟩
  refine ⟨_, ⟨p, now, _, .refl _, rfl⟩, ?_⟩
  obtain ⟨before, after, hsplit⟩ := append_of_mem hmem
  rw [hsplit, foldl_append, foldl_cons]
  have hshrinks : ∀ (l : List (Fin n × Bytes × LockRequesterInfo)) (s : Fin n → LockMap),
      Shrinks e.uid r s (l.foldl (check fun _ => true) s) :=
    foldl_shrinks (check_shrinks fun _ => true)
  refine (hshrinks after _ k).trans_lt (check_lt hpos ?_ hjk ?_)
  · exact (hshrinks before _ k).trans (entriesOf_getLongLivedLocks ..).le
  · exact Nat.le_zero.1 ((hshrinks before _ j).trans
      ((entriesOf_getLongLivedLocks ..).le.trans hnone.le))

end Entries

theorem QuorumHeld.exists_holds {s : Fin n → LockMap} {uid r : Bytes} {isReadLock : Bool}
    (h : QuorumHeld s uid r isReadLock) (j : Fin n) : ∃ k, Holds (s k) uid r := by
  have hn : 0 < n := j.pos
  have hpos : 0 < tally fun k => ∃ e ∈ entries (s k) r, e.uid = uid ∧ e.writer = !isReadLock := by
    refine lt_of_lt_of_le ?_ h
    unfold dquorum dquorumReads
    split_ifs <;> omega
  obtain ⟨k, e, he, huid, -⟩ := tally_pos.1 hpos
  exact ⟨k, e, he, huid⟩

theorem lockMaintenance_keeps_iff (cluster : Cluster n P) (interval : Int) (s : Fin n → LockMap)
    (uid r : Bytes) (isReadLock : Bool) (hquorum : QuorumHeld s uid r isReadLock) :
    (∀ s', Relation.ReflTransGen (Round cluster interval) s s' →
      ∀ k, entriesOf (s' k) uid r = entriesOf (s k) uid r) ↔ ∀ k, Holds (s k) uid r := by
  constructor
  · intro hkept j
    by_contra hj
    obtain ⟨k, hk⟩ := hquorum.exists_holds j
    obtain ⟨s', hround, hlt⟩ := exists_round_lt cluster interval hk hj
    exact hlt.ne (hkept s' (.single hround) k)
  · intro hall s' hrounds k
    have hkept : Kept uid r s s := fun k => ⟨entriesOf_pos.2 (hall k), rfl⟩
    exact (hkept.rounds hrounds k).2

def threeProcesses : Cluster 3 (Fin 3) := ⟨fun p => [p], fun k => ⟨k, mem_singleton_self k⟩⟩

def writeLocked (granted : List (Fin 3)) (k : Fin 3) : LockMap :=
  if k ∈ granted then (LocalLocker.lock 0 (lockArgs true (lit "a") (lit "u") []) ∅).2 else ∅

theorem lockMaintenance_keeps_iff_allServers :
    QuorumHeld (writeLocked [0, 1, 2]) (lit "u") (lit "a") false ∧
    ∀ s', Relation.ReflTransGen (Round threeProcesses 30) (writeLocked [0, 1, 2]) s' →
      ∀ k, entriesOf (s' k) (lit "u") (lit "a") = entriesOf (writeLocked [0, 1, 2] k) (lit "u")
        (lit "a") := by
  have hquorum : QuorumHeld (writeLocked [0, 1, 2]) (lit "u") (lit "a") false := by
    unfold QuorumHeld
    decide
  refine ⟨hquorum, (lockMaintenance_keeps_iff threeProcesses 30 _ _ _ false hquorum).2 fun k => ?_⟩
  rw [← entriesOf_pos]
  revert k
  decide

/-- Two of three servers have the write lock of a client. A round of the first removes its entry,
and the client has its quorum no longer. -/
theorem lockMaintenance_breaks_quorum :
    ∃ s', Round threeProcesses 30 (writeLocked [0, 1]) s' ∧
      QuorumHeld (writeLocked [0, 1]) (lit "u") (lit "a") false ∧
        ¬ QuorumHeld s' (lit "u") (lit "a") false := by
  refine ⟨_, ⟨0, 30, _, .refl _, rfl⟩, ?_, ?_⟩
  · unfold QuorumHeld
    decide
  · unfold QuorumHeld
    decide

end S3Kinetic.LockMaintenance
