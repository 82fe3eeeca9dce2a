import S3Kinetic.Lib.Schedule
import S3Kinetic.Lib.ByteString

/-!
# Pools of walks (`tree-walk-pool.go`, `merge-walk-pool.go`)

A listing that is truncated leaves its walk in a pool with `Set`, and the request for the next page
takes it out with `Release`. `Set` starts a goroutine that waits for a timeout or for a signal from
`Release`. When the timeout comes first it takes the lock of the pool, removes its walk and closes
the walk's `endWalkCh`, also if the walk is no longer there. `walkPool_safe`: while every goroutine
that gets the lock still finds its own entry, no walk that a caller has is closed and none twice.
-/

namespace S3Kinetic.WalkPool

open ByteString List

/-! ## The pool -/

structure ListParams where
  bucket : Bytes
  recursive : Bool
  marker : Bytes
  pfx : Bytes
  deriving DecidableEq

/-- `treeWalk` and `mergeWalk`; channels are numbers. -/
structure Walk (β : Type*) where
  /-- `resultCh` of a `treeWalk`, `entryChs` of a `mergeWalk`. -/
  results : β
  endWalkCh : Nat
  endTimerCh : Nat
  deriving DecidableEq

inductive Phase where
  /-- In the `select`. -/
  | waiting
  /-- In the case of the timeout, without the lock. -/
  | expired
  | ended
  deriving DecidableEq

/-- The goroutine that a `Set` has started. -/
structure Timer (β : Type*) where
  params : ListParams
  walkInfo : Walk β
  /-- Whether something is in `endTimerCh`. -/
  signalled : Bool
  phase : Phase

inductive Event where
  | set (endWalkCh : Nat)
  | released (endWalkCh : Nat)
  | closed (endWalkCh : Nat)
  deriving DecidableEq

/-- The pool with its timers, numbered by their `endTimerCh`, and the events so far, the last one
first. A key that is not in the map reads as the empty list. -/
structure Pool (β : Type*) where
  pool : ListParams → List (Walk β)
  timers : List (Timer β)
  log : List Event

/-- The entry channel of a disk; `prev` stands for its cached entry. -/
structure FileInfoCh where
  ch : Nat
  prev : Nat
  valid : Bool
  deriving DecidableEq

/-- The pool of `tree-walk-pool.go`, with one result channel for each walk. -/
abbrev TreeWalkPool := Pool Nat

/-- The pool of `merge-walk-pool.go`, with the entry channels of all disks for each walk. -/
abbrev MergeWalkPool := Pool (List FileInfoCh)

def newPool (β : Type*) : Pool β := ⟨fun _ => [], [], []⟩

def lastOf (w : Nat) (log : List Event) : Option Event :=
  log.find? fun e => e = .set w ∨ e = .released w

inductive Action (β : Type*) where
  | set (params : ListParams) (results : β) (endWalkCh : Nat)
  | release (params : ListParams)
  /-- The `select` takes the case of the timeout. -/
  | timeout (t : Nat)
  /-- The `select` takes the case of `endTimerCh`. -/
  | stop (t : Nat)
  /-- What the goroutine does with the lock. -/
  | expire (t : Nat)

section Step

variable {β : Type*} [DecidableEq β]

/-- `Set`, for a walk that is new or that the caller has from `Release`. -/
def Pool.set (s : Pool β) (params : ListParams) (results : β) (endWalkCh : Nat) : Option (Pool β) :=
  if lastOf endWalkCh s.log = some (.set endWalkCh) then none
  else
    let walkInfo : Walk β := ⟨results, endWalkCh, s.timers.length⟩
    some {
      pool := Function.update s.pool params (s.pool params ++ [walkInfo])
      timers := s.timers ++ [⟨params, walkInfo, false, .waiting⟩]
      log := .set endWalkCh :: s.log }

def Pool.release (s : Pool β) (params : ListParams) : Pool β :=
  match s.pool params with
  | [] => s
  | walk :: walks =>
    { pool := Function.update s.pool params walks
      timers := s.timers.modify walk.endTimerCh fun timer => { timer with signalled := true }
      log := .released walk.endWalkCh :: s.log }

/-- The goroutine with the lock: it removes its walk and closes the channel in any case. -/
def Pool.expire (s : Pool β) (t : Nat) (timer : Timer β) : Pool β where
  pool := Function.update s.pool timer.params ((s.pool timer.params).filter fun walk =>
    walk ≠ timer.walkInfo)
  timers := s.timers.modify t fun timer => { timer with phase := .ended }
  log := .closed timer.walkInfo.endWalkCh :: s.log

/-- One critical section or one channel operation; `none` if it cannot happen now. -/
def step (s : Pool β) : Action β → Option (Pool β)
  | .set params results endWalkCh => s.set params results endWalkCh
  | .release params => some (s.release params)
  | .timeout t =>
    match s.timers[t]? with
    | some timer =>
      if timer.phase = .waiting then
        some { s with timers := s.timers.modify t fun timer => { timer with phase := .expired } }
      else none
    | none => none
  | .stop t =>
    match s.timers[t]? with
    | some timer =>
      if timer.phase = .waiting ∧ timer.signalled = true then
        some { s with timers := s.timers.modify t fun timer => { timer with phase := .ended } }
      else none
    | none => none
  | .expire t =>
    match s.timers[t]? with
    | some timer => if timer.phase = .expired then some (s.expire t timer) else none
    | none => none

end Step

def InPool {β : Type*} (s : Pool β) (w : Nat) : Prop :=
  ∃ params, ∃ walk ∈ s.pool params, walk.endWalkCh = w

/-- A walk that was released is closed only after it was put back, and no walk is closed twice. -/
structure Safe (log : List Event) : Prop where
  released : ∀ l₃ l₂ l₁ w, log = l₃ ++ .closed w :: (l₂ ++ .released w :: l₁) → .set w ∈ l₂
  once : ∀ w, log.count (.closed w) ≤ 1

/-- A goroutine that gets the lock after its timeout finds the entry that its own `Set` has made. -/
def OwnsEntry {β : Type*} (s : Pool β) : Action β → Prop
  | .expire t => ∀ timer, s.timers[t]? = some timer → timer.walkInfo ∈ s.pool timer.params
  | _ => True

def Timely {β : Type*} [DecidableEq β] (schedule : List (Action β)) : Prop :=
  Schedule.Guarded step OwnsEntry (newPool β) schedule

/-! ## Events -/

theorem lastOf_cons (w : Nat) (e : Event) (log : List Event) :
    lastOf w (e :: log) = if e = .set w ∨ e = .released w then some e else lastOf w log := by
  rw [lastOf, List.find?_cons]
  by_cases h : e = .set w ∨ e = .released w
  · simp [h]
  · simp only [h, decide_false, if_false]
    rfl

@[simp] theorem lastOf_closed (w w' : Nat) (log : List Event) :
    lastOf w (.closed w' :: log) = lastOf w log := by
  simp [lastOf_cons]

variable {w : Nat}

theorem lastOf_set_ne {w' : Nat} (h : w ≠ w') (log : List Event) :
    lastOf w (.set w' :: log) = lastOf w log := by
  simp [lastOf_cons, h.symm]

theorem lastOf_released_ne {w' : Nat} (h : w ≠ w') (log : List Event) :
    lastOf w (.released w' :: log) = lastOf w log := by
  simp [lastOf_cons, h.symm]

variable {log : List Event}

theorem lastOf_eq_released_iff :
    lastOf w log = some (.released w) ↔ ∃ l₂ l₁, log = l₂ ++ .released w :: l₁ ∧ .set w ∉ l₂ := by
  induction log with
  | nil => simp [lastOf]
  | cons e log ih =>
    rw [lastOf_cons]
    split_ifs with h
    · rcases h with rfl | rfl
      · simp only [Option.some.injEq, reduceCtorEq, false_iff, not_exists, not_and, not_not]
        rintro (_ | ⟨e, l₂⟩) l₁ hlog
        · cases hlog
        · obtain ⟨rfl, -⟩ := List.cons.inj hlog
          exact mem_cons_self
      · exact ⟨fun _ => ⟨[], log, rfl, not_mem_nil⟩, fun _ => rfl⟩
    · rw [not_or] at h
      rw [ih]
      constructor
      · rintro ⟨l₂, l₁, rfl, hset⟩
        exact ⟨e :: l₂, l₁, rfl, fun hmem => (mem_cons.1 hmem).elim (fun heq => h.1 heq.symm) hset⟩
      · rintro ⟨_ | ⟨e', l₂⟩, l₁, hlog, hset⟩
        · exact absurd (List.cons.inj hlog).1 h.2
        · obtain ⟨rfl, rfl⟩ := List.cons.inj hlog
          exact ⟨l₂, l₁, rfl, fun hmem => hset (mem_cons_of_mem _ hmem)⟩

theorem safe_cons_iff {e : Event} :
    Safe (e :: log) ↔ Safe log ∧ ∀ w, e = .closed w → lastOf w log ≠ some (.released w) ∧
      .closed w ∉ log := by
  constructor
  · rintro ⟨hreleased, honce⟩
    refine ⟨⟨fun l₃ l₂ l₁ w hlog => ?_, fun w => ?_⟩, ?_⟩
    · exact hreleased (e :: l₃) l₂ l₁ w (by rw [hlog, cons_append])
    · exact (count_le_count_cons).trans (honce w)
    · rintro w rfl
      constructor
      · rw [ne_eq, lastOf_eq_released_iff]
        rintro ⟨l₂, l₁, hlog, hset⟩
        exact hset (hreleased [] l₂ l₁ w (by rw [hlog, nil_append]))
      · have := honce w
        rw [count_cons_self] at this
        exact count_eq_zero.1 (by omega)
  · rintro ⟨hsafe, hclosed⟩
    constructor
    · rintro (_ | ⟨e', l₃⟩) l₂ l₁ w hlog
      · obtain ⟨rfl, rfl⟩ := List.cons.inj hlog
        by_contra hset
        exact (hclosed w rfl).1 (lastOf_eq_released_iff.2 ⟨l₂, l₁, rfl, hset⟩)
      · obtain ⟨rfl, rfl⟩ := List.cons.inj hlog
        exact hsafe.released l₃ l₂ l₁ w rfl
    · intro w
      by_cases he : e = .closed w
      · subst he
        rw [count_cons_self, count_eq_zero.2 (hclosed w rfl).2]
      · rw [count_cons_of_ne he]
        exact hsafe.once w

/-! ## Steps -/

section Inv

variable {β : Type*} {s s' : Pool β} {a : Action β}

/-- How the pool and the events agree: the walks of the pool have been set last, each is there once,
and one that has been closed cannot come back. -/
structure Inv (s : Pool β) : Prop where
  pooled : ∀ params, ∀ walk ∈ s.pool params, lastOf walk.endWalkCh s.log =
    some (.set walk.endWalkCh)
  unique : ∀ p q, ∀ walk ∈ s.pool p, ∀ walk' ∈ s.pool q, walk.endWalkCh = walk'.endWalkCh →
    p = q ∧ walk = walk'
  nodup : ∀ params, (s.pool params).Nodup
  closed : ∀ w, .closed w ∈ s.log → lastOf w s.log = some (.set w) ∧ ¬ InPool s w
  safe : Safe s.log

theorem inv_newPool : Inv (newPool β) where
  pooled := fun _ _ h => by cases h
  unique := fun _ _ _ h => by cases h
  nodup := fun _ => nodup_nil
  closed := fun _ h => by cases h
  safe := ⟨fun _ _ _ _ h => by simp [newPool] at h, fun _ => Nat.zero_le _⟩

variable {pool : ListParams → List (Walk β)} {params : ListParams}

theorem sublist_update {walks : List (Walk β)}
    (h : walks.Sublist (pool params)) (p : ListParams) :
    (Function.update pool params walks p).Sublist (pool p) := by
  by_cases hp : p = params
  · subst hp
    rwa [Function.update_self]
  · rw [Function.update_of_ne hp]

theorem mem_update_append {p : ListParams} {x walk : Walk β} :
    walk ∈ Function.update pool params (pool params ++ [x]) p ↔ walk ∈ pool p ∨ p = params ∧
      walk = x := by
  by_cases hp : p = params
  · subst hp
    simp
  · simp [hp]

theorem Inv.set (h : Inv s) {results : β} {w : Nat} (hlast : lastOf w s.log ≠ some (.set w)) :
    Inv ⟨Function.update s.pool params (s.pool params ++ [⟨results, w, s.timers.length⟩]),
      s.timers ++ [⟨params, ⟨results, w, s.timers.length⟩, false, .waiting⟩], .set w :: s.log⟩ := by
  have hfree : ∀ p, ∀ walk ∈ s.pool p, walk.endWalkCh ≠ w := by
    rintro p walk hwalk rfl
    exact hlast (h.pooled p walk hwalk)
  refine ⟨fun p walk hwalk => ?_, fun p q walk hwalk walk' hwalk' heq => ?_, fun p => ?_,
    fun w' hw' => ?_, safe_cons_iff.2 ⟨h.safe, by simp⟩⟩
  · rcases mem_update_append.1 hwalk with hold | ⟨-, rfl⟩
    · rw [lastOf_set_ne (hfree p walk hold)]
      exact h.pooled p walk hold
    · simp [lastOf_cons]
  · rcases mem_update_append.1 hwalk with hold | ⟨rfl, rfl⟩ <;> rcases mem_update_append.1 hwalk'
      with hold' | ⟨rfl, rfl⟩
    · exact h.unique p q walk hold walk' hold' heq
    · exact absurd heq (hfree p walk hold)
    · exact absurd heq.symm (hfree q walk' hold')
    · exact ⟨rfl, rfl⟩
  · by_cases hp : p = params
    · subst hp
      simp only [Function.update_self]
      refine (h.nodup p).append (nodup_singleton _) ?_
      rw [disjoint_singleton]
      exact fun hmem => hfree p _ hmem rfl
    · simp only [Function.update_of_ne hp]
      exact h.nodup p
  · -- a closed walk was set last, so this is another one
    obtain ⟨hset, hout⟩ := h.closed w' (by simpa using hw')
    have hww : w' ≠ w := fun heq => hlast (heq ▸ hset)
    refine ⟨by rwa [lastOf_set_ne hww], ?_⟩
    rintro ⟨p, walk, hwalk, rfl⟩
    rcases mem_update_append.1 hwalk with hold | ⟨-, rfl⟩
    · exact hout ⟨p, walk, hold, rfl⟩
    · exact hww rfl

/-- A step that takes one walk out of the pool. -/
theorem Inv.of_removed (h : Inv s) {walk : Walk β} (hwalk : walk ∈ s.pool params)
    {pool' : ListParams → List (Walk β)}
    (hsub : ∀ p, (pool' p).Sublist (s.pool p)) (hgone : walk ∉ pool' params)
    {timers' : List (Timer β)} {e : Event}
    (hlast : ∀ w, w ≠ walk.endWalkCh → lastOf w (e :: s.log) = lastOf w s.log)
    (hclosed : ∀ w, e = .closed w → w = walk.endWalkCh) : Inv ⟨pool', timers', e :: s.log⟩ := by
  have hne : ∀ p, ∀ x ∈ pool' p, x.endWalkCh ≠ walk.endWalkCh := by
    intro p x hx heq
    obtain ⟨rfl, rfl⟩ := h.unique p params x ((hsub p).subset hx) walk hwalk heq
    exact hgone hx
  have hopen : .closed walk.endWalkCh ∉ s.log :=
    fun hmem => (h.closed _ hmem).2 ⟨params, walk, hwalk, rfl⟩
  refine ⟨fun p x hx => ?_, fun p q x hx y hy => h.unique p q x ((hsub p).subset hx) y
    ((hsub q).subset hy),
    fun p => (h.nodup p).sublist (hsub p), fun w hw => ?_, safe_cons_iff.2 ⟨h.safe, fun w hw => ?_⟩⟩
  · rw [hlast _ (hne p x hx)]
    exact h.pooled p x ((hsub p).subset hx)
  · have hout : ¬ InPool ⟨pool', timers', e :: s.log⟩ w ∨ w ≠ walk.endWalkCh := by
      by_cases hww : w = walk.endWalkCh
      · exact .inl fun ⟨p, x, hx, heq⟩ => hne p x hx (heq.trans hww)
      · exact .inr hww
    rcases mem_cons.1 hw with heq | hold
    · obtain rfl := hclosed w heq.symm
      refine ⟨?_, hout.resolve_right fun h => h rfl⟩
      rw [← heq, lastOf_closed]
      exact h.pooled params walk hwalk
    · have hww : w ≠ walk.endWalkCh := fun heq => hopen (heq ▸ hold)
      obtain ⟨hset, hnot⟩ := h.closed w hold
      exact ⟨(hlast w hww).trans hset, fun ⟨p, x, hx, heq⟩ => hnot ⟨p, x, (hsub p).subset hx, heq⟩⟩
  · obtain rfl := hclosed w hw
    rw [h.pooled params walk hwalk]
    exact ⟨by simp, hopen⟩

theorem Inv.release (h : Inv s) (params : ListParams) : Inv (s.release params) := by
  rw [Pool.release]
  rcases hwalks : s.pool params with _ | ⟨walk, walks⟩
  · exact h
  · have hnodup := h.nodup params
    rw [hwalks] at hnodup
    have hwalk : walk ∈ s.pool params := by simp [hwalks]
    refine h.of_removed hwalk
      (sublist_update (hwalks ▸ sublist_cons_self _ _)) ?_ (fun w hw =>
        lastOf_released_ne hw _) (by simp)
    rw [Function.update_self]
    exact (nodup_cons.1 hnodup).1

variable [DecidableEq β]

theorem Inv.expire (h : Inv s) (t : Nat) {timer : Timer β}
    (hown : timer.walkInfo ∈ s.pool timer.params) :
    Inv (s.expire t timer) := by
  refine h.of_removed hown (sublist_update filter_sublist) ?_ (fun w _ => lastOf_closed _ _ _)
    fun w hw => (Event.closed.inj hw).symm
  simp [mem_filter]

theorem inv_step (h : Inv s) (hown : OwnsEntry s a) (hstep : step s a = some s') : Inv s' := by
  have htimers (timers : List (Timer β)) : Inv { s with timers := timers } :=
    ⟨h.pooled, h.unique, h.nodup, h.closed, h.safe⟩
  cases a with
  | set params results w =>
    simp only [step, Pool.set] at hstep
    split_ifs at hstep with hlast
    exact Option.some.inj hstep ▸ h.set hlast
  | release params => exact Option.some.inj hstep ▸ h.release params
  | timeout t =>
    simp only [step] at hstep
    split at hstep
    · split_ifs at hstep
      exact Option.some.inj hstep ▸ htimers _
    · cases hstep
  | stop t =>
    simp only [step] at hstep
    split at hstep
    · split_ifs at hstep
      exact Option.some.inj hstep ▸ htimers _
    · cases hstep
  | expire t =>
    simp only [step] at hstep
    split at hstep
    · next timer htimer =>
      split_ifs at hstep
      exact Option.some.inj hstep ▸ h.expire t (hown timer htimer)
    · cases hstep

end Inv

/-- In a schedule in which every goroutine that has timed out still finds its own entry, no released
walk is closed before it is put back, and no walk is closed twice. -/
theorem walkPool_safe {β : Type*} [DecidableEq β] (schedule : List (Action β)) (s : Pool β)
    (hexec : Schedule.exec step (newPool β) schedule = some s) (htimely : Timely schedule) :
    Safe s.log :=
  (Schedule.inv_exec (fun _ _ _ => inv_step) inv_newPool htimely hexec).safe

def firstPage : ListParams := ⟨[], true, [], []⟩

/-- A walk is taken out and its goroutine stops; it is put back and expires. -/
theorem walkPool_putBack :
    Timely [.set firstPage (3 : Nat) 7, .release firstPage, .stop 0, .set firstPage 3 7,
      .timeout 1, .expire 1] ∧
      Safe [.closed 7, .set 7, .released 7, .set 7] := by
  have htimely : Timely [.set firstPage (3 : Nat) 7, .release firstPage, .stop 0,
    .set firstPage 3 7, .timeout 1, .expire 1] := by
    refine ⟨trivial, fun s₁ h₁ =>
        ⟨trivial, fun s₂ h₂ => ⟨trivial, fun s₃ h₃ => ⟨trivial, fun s₄ h₄ =>
      ⟨trivial, fun s₅ h₅ => ⟨?_, fun _ _ => trivial⟩⟩⟩⟩⟩⟩
    obtain rfl := Option.some.inj h₁
    obtain rfl := Option.some.inj h₂
    obtain rfl := Option.some.inj h₃
    obtain rfl := Option.some.inj h₄
    obtain rfl := Option.some.inj h₅
    rintro timer htimer
    obtain rfl := Option.some.inj htimer
    decide
  exact ⟨htimely, walkPool_safe _ _ rfl htimely⟩

/-- The goroutine of a walk has timed out when the walk is released, and closes it. If the walk is
put back in between, it is closed a second time. -/
theorem walkPool_closed :
    (((Schedule.exec step (newPool Nat : TreeWalkPool)
        [.set firstPage 3 7, .timeout 0, .release firstPage, .expire 0]).map Pool.log =
          some [.closed 7, .released 7, .set 7]) ∧
      ¬ Safe [.closed 7, .released 7, .set 7]) ∧
    (((Schedule.exec step (newPool _ : MergeWalkPool)
        [.set firstPage [⟨3, 0, false⟩] 7, .timeout 0, .release firstPage,
          .set firstPage [⟨3, 0, false⟩] 7, .expire 0,
          .timeout 1, .expire 1]).map Pool.log = some [.closed 7, .closed 7, .set 7,
            .released 7, .set 7]) ∧
      ¬ Safe [.closed 7, .closed 7, .set 7, .released 7, .set 7]) := by
  refine ⟨⟨rfl, fun h => ?_⟩, rfl, fun h => ?_⟩
  · have hset := h.released [] [] [.set 7] 7 rfl
    cases hset
  · have honce := h.once 7
    revert honce
    decide

end S3Kinetic.WalkPool
