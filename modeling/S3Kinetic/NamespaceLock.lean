import S3Kinetic.Lib.ByteString
import S3Kinetic.Lib.Update

/-!
# The namespace lock map

One process keeps a reader-writer lock for every resource that is locked or waited for. `lock` finds
or makes the resource's instance and counts itself in its `ref`, all in one critical section, and
only then waits for the instance's mutex. `unlock` releases the mutex before its last critical
section, in which it takes itself out of `ref` and drops the instance if nobody is left; a call that
timed out does the same.

A call and its unlock are followed together, as a `Call`, so that any number of goroutines, each
holding any number of resources, is a list of calls. The mutex of an instance is its abstract state:
a writer or a number of readers.

`nsLockMap_exclusive`: after any interleaving, the instances in the map are those that calls refer
to, `ref` counts these calls, and calls that hold a resource hold the same instance.
-/

namespace S3Kinetic.NamespaceLock

open List

open ByteString Update

structure NsLock where
  ref : Nat
  writer : Bool
  readers : Nat

/-- A call of `lock` and its matching `unlock`, by what it has done last. The resource is the
`pathJoin` of volume and path, which both compute. -/
inductive Call where
  | waiting (resource : Bytes) (readLock : Bool) (nsLk : Nat)
  /-- The mutex was not acquired in time. -/
  | timedOut (resource : Bytes) (nsLk : Nat)
  | holding (resource : Bytes) (readLock : Bool) (nsLk : Nat)
  /-- `unlock` has found an instance in the map. -/
  | unlocking (resource : Bytes) (readLock : Bool) (nsLk found : Nat)
  /-- `unlock` has released the mutex of the instance that it found. -/
  | released (resource : Bytes) (found : Nat)
  | done
  deriving DecidableEq

structure State where
  /-- The instances, and how many have been made. -/
  heap : Nat → NsLock
  next : Nat
  lockMap : Bytes → Option Nat
  calls : List Call

/-- The first critical section of `lock`. -/
def State.lock (s : State) (resource : Bytes) (readLock : Bool) : State :=
  match s.lockMap resource with
  | none =>
    { heap := Function.update s.heap s.next ⟨1, false, 0⟩
      next := s.next + 1
      lockMap := Function.update s.lockMap resource (some s.next)
      calls := s.calls ++ [.waiting resource readLock s.next] }
  | some nsLk =>
    { s with
      heap := Function.update s.heap nsLk { s.heap nsLk with ref := (s.heap nsLk).ref + 1 }
      calls := s.calls ++ [.waiting resource readLock nsLk] }

/-- The mutex of an instance, acquired if it is free for the caller. -/
def NsLock.acquire (nsLk : NsLock) (readLock : Bool) : Option NsLock :=
  if readLock then if nsLk.writer then none else some { nsLk with readers := nsLk.readers + 1 }
  else if nsLk.writer ∨ 0 < nsLk.readers then none else some { nsLk with writer := true }

def NsLock.release (nsLk : NsLock) (readLock : Bool) : NsLock :=
  if readLock then { nsLk with readers := nsLk.readers - 1 } else { nsLk with writer := false }

/-- The critical section that drops a reference. -/
def State.drop (s : State) (resource : Bytes) (nsLk : Nat) : State :=
  let ref := (s.heap nsLk).ref - 1
  { s with
    heap := Function.update s.heap nsLk { s.heap nsLk with ref := ref }
    lockMap := if ref = 0 then Function.update s.lockMap resource none else s.lockMap }

inductive Event where
  | lock (resource : Bytes) (readLock : Bool)
  /-- `GetLock` or `GetRLock` of the mutex returns true. -/
  | acquire (i : Nat)
  /-- `GetLock` or `GetRLock` of the mutex returns false. -/
  | timeout (i : Nat)
  /-- The last critical section of `lock`, after a timeout. -/
  | giveUp (i : Nat)
  /-- The first critical section of `unlock`. -/
  | find (i : Nat)
  | release (i : Nat)
  /-- The last critical section of `unlock`. -/
  | forget (i : Nat)

def State.set (s : State) (i : Nat) (c : Call) : State := { s with calls := s.calls.set i c }

def step (s : State) : Event → Option State
  | .lock resource readLock => some (s.lock resource readLock)
  | .acquire i =>
    match s.calls[i]? with
    | some (.waiting resource readLock nsLk) =>
      ((s.heap nsLk).acquire readLock).map fun lk =>
        { s with heap := Function.update s.heap nsLk lk }.set i (.holding resource readLock nsLk)
    | _ => none
  | .timeout i =>
    match s.calls[i]? with
    | some (.waiting resource _ nsLk) => some (s.set i (.timedOut resource nsLk))
    | _ => none
  | .giveUp i =>
    match s.calls[i]? with
    | some (.timedOut resource nsLk) => some ((s.drop resource nsLk).set i .done)
    | _ => none
  | .find i =>
    match s.calls[i]? with
    | some (.holding resource readLock nsLk) =>
      match s.lockMap resource with
      | some found => some (s.set i (.unlocking resource readLock nsLk found))
      | none => some (s.set i .done)
    | _ => none
  | .release i =>
    match s.calls[i]? with
    | some (.unlocking resource readLock _ found) =>
      some ({ s with heap := Function.update s.heap found ((s.heap found).release readLock) }.set i
        (.released resource found))
    | _ => none
  | .forget i =>
    match s.calls[i]? with
    | some (.released resource found) =>
      -- a reference count of zero would be logged
      if (s.heap found).ref = 0 then some (s.set i .done)
        else some ((s.drop resource found).set i .done)
    | _ => none

def init : State := ⟨fun _ => ⟨0, false, 0⟩, 0, fun _ => none, []⟩

def run (s : State) (events : List Event) : Option State := events.foldlM step s

/-! ## What calls refer to and hold -/

namespace Call

/-- The resource and instance of a call whose reference has not been dropped. -/
def refers : Call → Option (Bytes × Nat)
  | waiting resource _ nsLk | timedOut resource nsLk | holding resource _ nsLk | unlocking
    resource _ nsLk _
  | released resource nsLk => some (resource, nsLk)
  | done => none

/-- How the call holds the mutex, with its resource and instance. -/
def holds : Call → Option (Bool × Bytes × Nat)
  | holding resource readLock nsLk | unlocking resource readLock nsLk _ =>
    some (readLock, resource, nsLk)
  | _ => none

def refersTo (nsLk : Nat) (c : Call) : Bool := c.refers.any fun x => x.2 = nsLk

def isOn (resource : Bytes) (c : Call) : Bool := c.refers.any fun x => x.1 = resource

def holdsAs (readLock : Bool) (nsLk : Nat) (c : Call) : Bool :=
  c.holds.any fun x => x.1 = readLock ∧ x.2.2 = nsLk

theorem refers_of_holds {c : Call} {readLock : Bool} {resource : Bytes} {nsLk : Nat}
    (h : c.holds = some (readLock, resource, nsLk)) : c.refers = some (resource, nsLk) := by
  cases c <;> simp_all [holds, refers]

end Call

section Drop

variable (s : State) (r : Bytes) (p q : Nat)

theorem drop_ref : ((s.drop r p).heap q).ref = (s.heap q).ref - if p = q then 1 else 0 := by
  by_cases hq : q = p
  · subst hq
    simp [State.drop]
  · simp [State.drop, Function.update_of_ne hq, Ne.symm hq]

theorem drop_writer : ((s.drop r p).heap q).writer = (s.heap q).writer := by
  by_cases hq : q = p
  · subst hq
    simp [State.drop]
  · simp [State.drop, Function.update_of_ne hq]

theorem drop_readers : ((s.drop r p).heap q).readers = (s.heap q).readers := by
  by_cases hq : q = p
  · subst hq
    simp [State.drop]
  · simp [State.drop, Function.update_of_ne hq]

end Drop

structure Core (s : State) : Prop where
  fresh : ∀ r p, s.lockMap r = some p → p < s.next
  inj : ∀ r r' p, s.lockMap r = some p → s.lockMap r' = some p → r = r'
  mapped : ∀ c ∈ s.calls, ∀ r p, c.refers = some (r, p) → s.lockMap r = some p
  found : ∀ r b p q, Call.unlocking r b p q ∈ s.calls → p = q
  ref : ∀ p, (s.heap p).ref = s.calls.countP (Call.refersTo p)
  writer : ∀ p, s.calls.countP (Call.holdsAs false p) = (s.heap p).writer.toNat
  readers : ∀ p, (s.heap p).readers = s.calls.countP (Call.holdsAs true p)
  alone : ∀ p, (s.heap p).writer = true → (s.heap p).readers = 0

structure Inv (s : State) : Prop extends Core s where
  live : ∀ r p, s.lockMap r = some p → 0 < (s.heap p).ref

namespace Inv

variable {s s' : State} {i : Nat} {c : Call} {r : Bytes} {p : Nat} {b : Bool}

theorem init : Inv init where
  fresh _ _ h := by simp [NamespaceLock.init] at h
  inj _ _ _ h := by simp [NamespaceLock.init] at h
  mapped c hc := by simp [NamespaceLock.init] at hc
  found _ _ _ _ h := by simp [NamespaceLock.init] at h
  ref p := rfl
  live _ _ h := by simp [NamespaceLock.init] at h
  writer p := rfl
  readers p := rfl
  alone _ _ := rfl

theorem mem_calls (hi : s.calls[i]? = some c) : c ∈ s.calls := mem_of_getElem? hi

theorem relabel (h : Inv s) (hi : s.calls[i]? = some c) (c' : Call) (hrefers : c'.refers = c.refers)
    (hholds : c'.holds = c.holds)
    (hfound : ∀ r b p q, c' = .unlocking r b p q → p = q) : Inv (s.set i c') := by
  obtain ⟨rest, hcount⟩ := countP_set hi
  have hsame : ∀ q : Call → Bool, q c' = q c → (s.calls.set i c').countP q = s.calls.countP q := by
    intro q hq
    rw [(hcount q).2, (hcount q).1, hq]
  refine ⟨⟨h.fresh, h.inj, fun c₁ hc₁ r p hr => ?_, fun r b p q hmem => ?_, fun p => ?_,
    fun p => ?_, fun p => ?_, h.alone⟩, h.live⟩
  · rcases mem_or_eq_of_mem_set hc₁ with hc₁ | rfl
    · exact h.mapped c₁ hc₁ r p hr
    · exact h.mapped c (mem_calls hi) r p (hrefers ▸ hr)
  · rcases mem_or_eq_of_mem_set hmem with hmem | heq
    · exact h.found r b p q hmem
    · exact hfound r b p q heq.symm
  · exact (h.ref p).trans (hsame _ (by simp [Call.refersTo, hrefers])).symm
  · exact (hsame _ (by simp [Call.holdsAs, hholds])).trans (h.writer p)
  · exact (h.readers p).trans (hsame _ (by simp [Call.holdsAs, hholds])).symm

/-- A call changes how it holds the mutex of its instance, and the mutex with it. -/
theorem mutex (h : Inv s) (hi : s.calls[i]? = some c) (c' : Call) (hrefers : c'.refers = c.refers)
    (hfound : ∀ r b p q, c' = .unlocking r b p q → p = q)
    (hother : ∀ b q, q ≠ p → c'.holdsAs b q = c.holdsAs b q)
    {lk : NsLock} (href : lk.ref = (s.heap p).ref)
    (hwriter : (s.calls.set i c').countP (Call.holdsAs false p) = lk.writer.toNat)
    (hreaders : lk.readers = (s.calls.set i c').countP (Call.holdsAs true p))
    (halone : lk.writer = true → lk.readers = 0) :
    Inv ({ s with heap := Function.update s.heap p lk }.set i c') := by
  obtain ⟨rest, hcount⟩ := countP_set hi
  have hsame : ∀ q : Call → Bool, q c' = q c → (s.calls.set i c').countP q = s.calls.countP q := by
    intro q hq
    rw [(hcount q).2, (hcount q).1, hq]
  have hrefs : ∀ q, (Function.update s.heap p lk q).ref = (s.heap q).ref := by
    intro q
    by_cases hq : q = p
    · subst hq
      rw [Function.update_self, href]
    · rw [Function.update_of_ne hq]
  refine ⟨⟨h.fresh, h.inj, fun c₁ hc₁ r q hr => ?_, fun r b q q' hmem => ?_, fun q => ?_,
    fun q => ?_, fun q => ?_, fun q => ?_⟩, fun r q hr => (hrefs q).symm ▸ h.live r q hr⟩
  · rcases mem_or_eq_of_mem_set hc₁ with hc₁ | rfl
    · exact h.mapped c₁ hc₁ r q hr
    · exact h.mapped c (mem_calls hi) r q (hrefers ▸ hr)
  · rcases mem_or_eq_of_mem_set hmem with hmem | heq
    · exact h.found r b q q' hmem
    · exact hfound r b q q' heq.symm
  · exact (hrefs q).trans ((h.ref q).trans (hsame _ (by simp [Call.refersTo, hrefers])).symm)
  · by_cases hq : q = p
    · subst hq
      simpa [State.set] using hwriter
    · simpa [State.set, Function.update_of_ne hq]
        using (hsame _ (hother false q hq)).trans (h.writer q)
  · by_cases hq : q = p
    · subst hq
      simpa [State.set] using hreaders
    · simpa [State.set, Function.update_of_ne hq]
        using (h.readers q).trans (hsame _ (hother true q hq)).symm
  · by_cases hq : q = p
    · subst hq
      simpa [State.set] using halone
    · simpa [State.set, Function.update_of_ne hq] using h.alone q

theorem acquire {lk : NsLock} (h : Inv s) (hi : s.calls[i]? = some (.waiting r b p))
    (hlk : (s.heap p).acquire b = some lk) :
    Inv ({ s with heap := Function.update s.heap p lk }.set i (.holding r b p)) := by
  obtain ⟨rest, hcount⟩ := countP_set hi
  have hw := (h.writer p).symm.trans (hcount (Call.holdsAs false p)).1
  have hr := (h.readers p).trans (hcount (Call.holdsAs true p)).1
  have hother : ∀ b' q, q ≠ p → (Call.holding r b p).holdsAs b' q =
      (Call.waiting r b p).holdsAs b' q := by
    intro b' q hq
    simp [Call.holdsAs, Call.holds, Ne.symm hq]
  unfold NsLock.acquire at hlk
  cases b with
  | true =>
    simp only [if_true, Option.ite_none_left_eq_some, Option.some.injEq] at hlk
    obtain ⟨hfree, rfl⟩ := hlk
    refine h.mutex hi (.holding r _ p) rfl (by simp) hother rfl ?_ ?_ (by simp [hfree])
    · rw [(hcount _).2]
      simpa [Call.holdsAs, Call.holds, hfree] using hw.symm
    · rw [(hcount _).2]
      simpa [Call.holdsAs, Call.holds] using hr
  | false =>
    simp only [Bool.false_eq_true, if_false, Option.ite_none_left_eq_some, Option.some.injEq,
      not_or, not_lt, Nat.le_zero] at hlk
    obtain ⟨⟨hfree, hnone⟩, rfl⟩ := hlk
    refine h.mutex hi (.holding r _ p) rfl (by simp) hother rfl ?_ ?_ (by simp [hnone])
    · rw [(hcount _).2]
      simpa [Call.holdsAs, Call.holds, hfree] using hw.symm
    · rw [(hcount _).2]
      simpa [Call.holdsAs, Call.holds] using hr

theorem release (h : Inv s) (hi : s.calls[i]? = some (.unlocking r b p p)) :
    Inv ({ s with heap := Function.update s.heap p ((s.heap p).release b) }.set i
      (.released r p)) := by
  obtain ⟨rest, hcount⟩ := countP_set hi
  have hw := (h.writer p).symm.trans (hcount (Call.holdsAs false p)).1
  have hr := (h.readers p).trans (hcount (Call.holdsAs true p)).1
  have hother : ∀ b' q, q ≠ p → (Call.released r p).holdsAs b' q =
      (Call.unlocking r b p p).holdsAs b' q := by
    intro b' q hq
    simp [Call.holdsAs, Call.holds, Ne.symm hq]
  unfold NsLock.release
  cases b with
  | true =>
    simp only [Call.holdsAs, Call.holds] at hw hr
    refine h.mutex hi (.released r p) rfl (by simp) hother rfl ?_ ?_ fun hwriter => ?_
    · rw [(hcount _).2]
      simpa [Call.holdsAs, Call.holds] using hw.symm
    · have hone : (s.heap p).readers = rest (Call.holdsAs true p) + 1 := by
        simpa [Call.holdsAs, Call.holds] using hr
      rw [(hcount _).2]
      simp [hone, Call.holdsAs, Call.holds]
    · have hnone := h.alone p hwriter
      simp [hnone]
  | false =>
    simp only [Call.holdsAs, Call.holds] at hw hr
    refine h.mutex hi (.released r p) rfl (by simp) hother rfl ?_ ?_ (by simp)
    · rw [(hcount _).2]
      have hle := Bool.toNat_le (s.heap p).writer
      simp [Call.holdsAs, Call.holds] at hw ⊢
      omega
    · rw [(hcount _).2]
      simpa [Call.holdsAs, Call.holds] using hr

theorem drop (h : Inv s) (hi : s.calls[i]? = some c) (hrefers : c.refers = some (r, p))
    (hholds : c.holds = none) :
    Inv ((s.drop r p).set i .done) := by
  obtain ⟨rest, hcount⟩ := countP_set hi
  have hmap := h.mapped c (mem_calls hi) r p hrefers
  have hfree : ∀ b q, c.holdsAs b q = false := fun b q => by simp [Call.holdsAs, hholds]
  have hsame : ∀ b q, (s.calls.set i .done).countP (Call.holdsAs b q) =
      s.calls.countP (Call.holdsAs b q) := by
    intro b q
    rw [(hcount _).2, (hcount _).1, hfree]
    rfl
  have hafter : ∀ q, (s.calls.set i .done).countP (Call.refersTo q) =
      (s.heap q).ref - if p = q then 1 else 0 := by
    intro q
    have hc : c.refersTo q = decide (p = q) := by simp [Call.refersTo, hrefers]
    have hdone : Call.done.refersTo q = false := rfl
    rw [(hcount _).2, h.ref, (hcount _).1, hc, hdone]
    simp
  have hmapped : ∀ c₁ ∈ s.calls.set i .done, ∀ r₁ q, c₁.refers = some (r₁, q) →
      s.lockMap r₁ = some q := by
    intro c₁ hc₁ r₁ q hr₁
    rcases mem_or_eq_of_mem_set hc₁ with hc₁ | rfl
    · exact h.mapped c₁ hc₁ r₁ q hr₁
    · simp [Call.refers] at hr₁
  have hle : ∀ r₁ q, (s.drop r p).lockMap r₁ = some q → s.lockMap r₁ = some q := by
    intro r₁ q hr₁
    simp only [State.drop] at hr₁
    split_ifs at hr₁
    · by_cases heq : r₁ = r
      · simp [heq] at hr₁
      · rwa [Function.update_of_ne heq] at hr₁
    · exact hr₁
  refine ⟨⟨fun r₁ q hr₁ => h.fresh r₁ q (hle r₁ q hr₁), fun r₁ r₂ q h₁ h₂ =>
    h.inj r₁ r₂ q (hle r₁ q h₁) (hle r₂ q h₂),
    fun c₁ hc₁ r₁ q hr₁ => ?_, fun r₁ b q q' hmem => ?_, fun q => ?_, fun q => ?_,
      fun q => ?_, fun q => ?_⟩, fun r₁ q hr₁ => ?_⟩
  · have hold := hmapped c₁ hc₁ r₁ q hr₁
    simp only [State.set, State.drop]
    split_ifs with hlast
    · -- no call is left that refers to the instance
      have hne : r₁ ≠ r := by
        rintro rfl
        have hq : q = p := Option.some.inj (hold.symm.trans hmap)
        have hzero := hafter p
        rw [if_pos rfl, hlast, countP_eq_zero] at hzero
        exact hzero c₁ hc₁ (by simp [Call.refersTo, hr₁, hq])
      rw [Function.update_of_ne hne]
      exact hold
    · exact hold
  · rcases mem_or_eq_of_mem_set hmem with hmem | heq
    · exact h.found r₁ b q q' hmem
    · cases heq
  · exact (drop_ref s r p q).trans (hafter q).symm
  · rw [State.set, drop_writer]
    exact (hsame false q).trans (h.writer q)
  · rw [State.set, drop_readers]
    exact (h.readers q).trans (hsame true q).symm
  · rw [State.set, drop_writer, drop_readers]
    exact h.alone q
  · have hold := hle r₁ q hr₁
    refine Nat.pos_of_ne_zero fun hzero => ?_
    rw [State.set, drop_ref] at hzero
    have hlive := h.live r₁ q hold
    split_ifs at hzero with hq
    · subst hq
      have heq := h.inj r₁ r p hold hmap
      subst heq
      simp [State.set, State.drop, hzero] at hr₁
    · omega

end Inv

theorem Call.refersTo_of_holdsAs {c : Call} {b : Bool} {p : Nat} (h : c.holdsAs b p = true) :
    c.refersTo p = true := by
  rw [holdsAs, Option.any_eq_true] at h
  obtain ⟨⟨b', r, q⟩, hc, hq⟩ := h
  simp only [Bool.decide_and, Bool.and_eq_true, decide_eq_true_eq] at hq
  simp [refersTo, refers_of_holds hc, hq.2]

namespace Core

variable {s : State} {c : Call} {r : Bytes} {p : Nat} {b : Bool}

theorem refersTo_next (h : Core s) (hc : c ∈ s.calls) : c.refersTo s.next = false := by
  by_contra hrefers
  rw [Bool.not_eq_false, Call.refersTo, Option.any_eq_true] at hrefers
  obtain ⟨⟨r, q⟩, hc', hq⟩ := hrefers
  have hlt := h.fresh r q (h.mapped c hc r q hc')
  simp only [decide_eq_true_eq] at hq
  omega

theorem holdsAs_next (h : Core s) (hc : c ∈ s.calls) (b : Bool) : c.holdsAs b s.next = false := by
  by_contra hholds
  have hrefers := Call.refersTo_of_holdsAs (eq_true_of_ne_false hholds)
  rw [h.refersTo_next hc] at hrefers
  cases hrefers

theorem alloc (h : Core s) (hnone : s.lockMap r = none) :
    Core { s with
      heap := Function.update s.heap s.next ⟨0, false, 0⟩
      next := s.next + 1
      lockMap := Function.update s.lockMap r (some s.next) } := by
  have hmap : ∀ r' q, Function.update s.lockMap r (some s.next) r' = some q →
      (r' = r ∧ q = s.next) ∨ s.lockMap r' = some q := by
    intro r' q hq
    by_cases hr : r' = r
    · subst hr
      rw [Function.update_self, Option.some.injEq] at hq
      exact .inl ⟨rfl, hq.symm⟩
    · rw [Function.update_of_ne hr] at hq
      exact .inr hq
  have hzero : ∀ b, s.calls.countP (Call.holdsAs b s.next) = 0 := fun b =>
    countP_eq_zero.2 fun c hc => by simp [h.holdsAs_next hc]
  refine ⟨fun r' q hq => ?_, fun r₁ r₂ q h₁ h₂ => ?_, fun c hc r' q hr' => ?_, h.found,
    fun q => ?_, fun q => ?_, fun q => ?_, fun q => ?_⟩
  · rcases hmap r' q hq with ⟨-, rfl⟩ | hq
    · exact Nat.lt_succ_self _
    · exact Nat.lt_succ_of_lt (h.fresh r' q hq)
  · rcases hmap r₁ q h₁ with ⟨hr₁, hq₁⟩ | hold₁
    · rcases hmap r₂ q h₂ with ⟨hr₂, -⟩ | hold₂
      · rw [hr₁, hr₂]
      · exact absurd (h.fresh r₂ q hold₂) (hq₁ ▸ lt_irrefl _)
    · rcases hmap r₂ q h₂ with ⟨-, hq₂⟩ | hold₂
      · exact absurd (h.fresh r₁ q hold₁) (hq₂ ▸ lt_irrefl _)
      · exact h.inj r₁ r₂ q hold₁ hold₂
  · have hold := h.mapped c hc r' q hr'
    dsimp only
    rwa [Function.update_of_ne]
    rintro rfl
    rw [hnone] at hold
    cases hold
  all_goals
    dsimp only
    by_cases hq : q = s.next
  · rw [hq, Function.update_self]
    exact (countP_eq_zero.2 fun c hc => by simp [h.refersTo_next hc]).symm
  · rw [Function.update_of_ne hq]
    exact h.ref q
  · rw [hq, Function.update_self]
    exact hzero false
  · rw [Function.update_of_ne hq]
    exact h.writer q
  · rw [hq, Function.update_self]
    exact (hzero true).symm
  · rw [Function.update_of_ne hq]
    exact h.readers q
  · simp [hq]
  · rw [Function.update_of_ne hq]
    exact h.alone q

theorem wait (h : Core s) (hmap : s.lockMap r = some p) (b : Bool)
    (hlive : ∀ r' q, r' ≠ r → s.lockMap r' = some q → 0 < (s.heap q).ref) :
    Inv { s with
      heap := Function.update s.heap p { s.heap p with ref := (s.heap p).ref + 1 }
      calls := s.calls ++ [.waiting r b p] } := by
  have hcount : ∀ q : Call → Bool, (s.calls ++ [Call.waiting r b p]).countP q =
      s.calls.countP q + if q (.waiting r b p) then 1 else 0 := by simp
  refine ⟨⟨h.fresh, h.inj, fun c hc r' q hr' => ?_, fun r' b' q q' hmem => ?_, fun q => ?_,
    fun q => ?_, fun q => ?_, fun q => ?_⟩, fun r' q hr' => ?_⟩
  · rcases mem_append.1 hc with hc | hc
    · exact h.mapped c hc r' q hr'
    · rw [mem_singleton.1 hc] at hr'
      cases hr'
      exact hmap
  · rcases mem_append.1 hmem with hmem | hmem
    · exact h.found r' b' q q' hmem
    · cases mem_singleton.1 hmem
  · dsimp only
    rw [hcount, ← h.ref]
    by_cases hq : q = p
    · subst hq
      simp [Call.refersTo, Call.refers]
    · simp [Function.update_of_ne hq, Call.refersTo, Call.refers, Ne.symm hq]
  · dsimp only
    rw [hcount, h.writer]
    by_cases hq : q = p
    · subst hq
      simp [Call.holdsAs, Call.holds]
    · simp [Function.update_of_ne hq, Call.holdsAs, Call.holds]
  · dsimp only
    rw [hcount, ← h.readers]
    by_cases hq : q = p
    · subst hq
      simp [Call.holdsAs, Call.holds]
    · simp [Function.update_of_ne hq, Call.holdsAs, Call.holds]
  · have halone := h.alone q
    by_cases hq : q = p
    · subst hq
      simpa using halone
    · simpa [Function.update_of_ne hq] using halone
  · by_cases hq : q = p
    · subst hq
      simp
    · dsimp only
      rw [Function.update_of_ne hq]
      refine hlive r' q ?_ hr'
      rintro rfl
      exact hq (Option.some.inj (hr'.symm.trans hmap))

end Core

/-! ## Runs -/

theorem Inv.lock {s : State} (h : Inv s) (r : Bytes) (b : Bool) : Inv (s.lock r b) := by
  unfold State.lock
  cases hmap : s.lockMap r with
  | some p => exact h.toCore.wait hmap b fun r' q _ hr' => h.live r' q hr'
  | none =>
    have hwait := (h.toCore.alloc hmap).wait (r := r) (p := s.next) (by simp) b ?_
    · simpa using hwait
    · intro r' q hne hr'
      simp only [Function.update_of_ne hne] at hr'
      have hlt := h.fresh r' q hr'
      simpa [Function.update_of_ne hlt.ne] using h.live r' q hr'

theorem inv_step {s s' : State} {e : Event} (h : Inv s) (hstep : step s e = some s') : Inv s' := by
  cases e with
  | lock r b =>
    cases hstep
    exact h.lock r b
  | acquire i =>
    rcases hi : s.calls[i]? with _ | (⟨r, b, p⟩ | _ | _ | _ | _ | _) <;> simp [step, hi] at hstep
    obtain ⟨lk, hlk, rfl⟩ := hstep
    exact h.acquire hi hlk
  | timeout i =>
    rcases hi : s.calls[i]? with _ | (⟨r, b, p⟩ | _ | _ | _ | _ | _) <;> simp [step, hi] at hstep
    subst hstep
    exact h.relabel hi _ rfl rfl (by simp)
  | giveUp i =>
    rcases hi : s.calls[i]? with _ | (_ | ⟨r, p⟩ | _ | _ | _ | _) <;> simp [step, hi] at hstep
    subst hstep
    exact h.drop hi rfl rfl
  | find i =>
    rcases hi : s.calls[i]? with _ | (_ | _ | ⟨r, b, p⟩ | _ | _ | _) <;> simp [step, hi] at hstep
    rw [h.mapped _ (mem_of_getElem? hi) r p rfl] at hstep
    cases hstep
    refine h.relabel hi _ rfl rfl ?_
    rintro r' b' p' q' heq
    cases heq
    rfl
  | release i =>
    rcases hi : s.calls[i]? with _ | (_ | _ | _ | ⟨r, b, p, q⟩ | _ | _) <;> simp [step, hi] at hstep
    subst hstep
    have hfound := h.found r b p q (mem_of_getElem? hi)
    subst hfound
    exact h.release hi
  | forget i =>
    rcases hi : s.calls[i]? with _ | (_ | _ | _ | _ | ⟨r, p⟩ | _) <;> simp [step, hi] at hstep
    have hlive := h.live r p (h.mapped _ (mem_of_getElem? hi) r p rfl)
    rw [if_neg hlive.ne'] at hstep
    cases hstep
    exact h.drop hi rfl rfl

theorem inv_run {s s' : State} (events : List Event) (h : Inv s) (hrun : run s events = some s') :
    Inv s' := by
  induction events generalizing s with
  | nil =>
    cases hrun
    exact h
  | cons e events ih =>
    rw [run, foldlM_cons, Option.bind_eq_bind, Option.bind_eq_some_iff] at hrun
    obtain ⟨s₁, hstep, hrun⟩ := hrun
    exact ih (inv_step h hstep) hrun

/-! ## Exclusion -/

/-- The calls of `lock` on a resource whose reference has not been dropped. -/
def State.pending (s : State) (r : Bytes) : Nat := s.calls.countP (Call.isOn r)

section Exclusion

variable {s : State} {r : Bytes} {p : Nat} {i j : Nat} {c₁ c₂ : Call}

theorem Inv.refersTo_iff_isOn (h : Inv s) (hmap : s.lockMap r = some p) {c : Call}
    (hc : c ∈ s.calls) :
    c.refersTo p = true ↔ c.isOn r = true := by
  simp only [Call.refersTo, Call.isOn, Option.any_eq_true, decide_eq_true_eq, Prod.exists]
  constructor
  · rintro ⟨r', q, hrefers, rfl⟩
    exact ⟨r', q, hrefers, h.inj r' r q (h.mapped c hc r' q hrefers) hmap⟩
  · rintro ⟨r', q, hrefers, rfl⟩
    exact ⟨r', q, hrefers, Option.some.inj ((h.mapped c hc r' q hrefers).symm.trans hmap)⟩

theorem Inv.ref_eq_pending (h : Inv s) (hmap : s.lockMap r = some p) :
    (s.heap p).ref = s.pending r := by
  rw [h.ref, State.pending]
  exact countP_congr fun c hc => h.refersTo_iff_isOn hmap hc

theorem Inv.mapped_iff (h : Inv s) : (s.lockMap r).isSome = true ↔ 0 < s.pending r := by
  rw [Option.isSome_iff_exists]
  constructor
  · rintro ⟨p, hmap⟩
    rw [← h.ref_eq_pending hmap]
    exact h.live r p hmap
  · intro hpos
    obtain ⟨c, hc, hon⟩ := countP_pos_iff.1 hpos
    obtain ⟨⟨r', p⟩, hrefers, hr⟩ := (Option.any_eq_true ..).1 hon
    simp only [decide_eq_true_eq] at hr
    exact ⟨p, hr ▸ h.mapped c hc r' p hrefers⟩

theorem Inv.ref_pos_iff (h : Inv s) : 0 < (s.heap p).ref ↔ ∃ r, s.lockMap r = some p := by
  constructor
  · intro hpos
    rw [h.ref] at hpos
    obtain ⟨c, hc, hrefers⟩ := countP_pos_iff.1 hpos
    obtain ⟨⟨r, q⟩, hc', hq⟩ := (Option.any_eq_true ..).1 hrefers
    simp only [decide_eq_true_eq] at hq
    exact ⟨r, hq ▸ h.mapped c hc r q hc'⟩
  · rintro ⟨r, hmap⟩
    exact h.live r p hmap

theorem Call.holdsAs_of_holds {c : Call} {b : Bool} (h : c.holds = some (b, r, p)) :
    c.holdsAs b p = true := by
  simp [holdsAs, h]

theorem Inv.reader_of_two (h : Inv s) (hij : i ≠ j) (hi : s.calls[i]? = some c₁)
    (hj : s.calls[j]? = some c₂) {b₁ b₂ : Bool} {r₁ r₂ : Bytes} (h₁ : c₁.holds = some (b₁, r₁, p))
    (h₂ : c₂.holds = some (b₂, r₂, p)) : b₁ = true := by
  by_contra hb
  rw [Bool.not_eq_true] at hb
  subst hb
  obtain ⟨rest, hcount⟩ := countP_set hi
  -- the second call is among the others, and the mutex has no room for it
  have hothers : 0 < rest (Call.holdsAs b₂ p) := by
    have hj' : c₂ ∈ s.calls.set i .done := mem_of_getElem? (by rw [List.getElem?_set_ne hij, hj])
    have hpos := countP_pos_iff.2 ⟨c₂, hj', Call.holdsAs_of_holds h₂⟩
    rwa [(hcount _).2] at hpos
  have hwriter := (hcount (Call.holdsAs false p)).1
  rw [h.writer, Call.holdsAs_of_holds h₁, if_pos rfl] at hwriter
  have hle := Bool.toNat_le (s.heap p).writer
  cases b₂ with
  | false => omega
  | true =>
    have htrue : (s.heap p).writer = true := by
      cases hw : (s.heap p).writer with
      | true => rfl
      | false => simp [hw] at hwriter
    have hnone := h.alone p htrue
    rw [h.readers, (hcount _).1] at hnone
    omega

end Exclusion

theorem nsLockMap_exclusive (events : List Event) (s : State) (hrun : run init events = some s) :
    (∀ p, 0 < (s.heap p).ref ↔ ∃ r, s.lockMap r = some p) ∧
    (∀ r, (s.lockMap r).isSome = true ↔ 0 < s.pending r) ∧
    (∀ r p, s.lockMap r = some p → (s.heap p).ref = s.pending r) ∧
    ∀ (i j : Nat) (c₁ c₂ : Call) (b₁ b₂ : Bool) (r : Bytes) (p q : Nat), i ≠ j →
      s.calls[i]? = some c₁ →
      s.calls[j]? = some c₂ → c₁.holds = some (b₁, r, p) → c₂.holds = some (b₂, r, q) →
        p = q ∧ b₁ = true ∧ b₂ = true := by
  have h := inv_run events Inv.init hrun
  refine ⟨fun p => h.ref_pos_iff, fun r => h.mapped_iff, fun r p => h.ref_eq_pending, ?_⟩
  intro i j c₁ c₂ b₁ b₂ r p q hij hi hj h₁ h₂
  have hp := h.mapped c₁ (mem_of_getElem? hi) r p (Call.refers_of_holds h₁)
  have hq := h.mapped c₂ (mem_of_getElem? hj) r q (Call.refers_of_holds h₂)
  obtain rfl : p = q := Option.some.inj (hp.symm.trans hq)
  exact ⟨rfl, h.reader_of_two hij hi hj h₁ h₂, h.reader_of_two hij.symm hj hi h₂ h₁⟩

def readerAfterWriter : List Event :=
  [.lock (lit "a") false, .acquire 0, .lock (lit "a") true, .find 0, .release 0,
    .acquire 1, .forget 0]

theorem nsLockMap_exclusive_readerAfterWriter : ∃ s p, run init readerAfterWriter = some s ∧
    s.lockMap (lit "a") = some p ∧ (s.heap p).ref = s.pending (lit "a") ∧
      s.pending (lit "a") = 1 := by
  obtain ⟨s, p, hrun, hmap, hone⟩ : ∃ s p, run init readerAfterWriter = some s ∧
    s.lockMap (lit "a") = some p ∧
      s.pending (lit "a") = 1 := ⟨_, 0, rfl, rfl, rfl⟩
  exact ⟨s, p, hrun, hmap, (nsLockMap_exclusive readerAfterWriter s hrun).2.2.1 _ p hmap, hone⟩

end S3Kinetic.NamespaceLock
