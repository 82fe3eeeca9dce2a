import S3Kinetic.Lib.Quorum
import S3Kinetic.Lib.Update
import S3Kinetic.LocalLocker

/-!
# Distributed locks

A `DRWMutex` asks all lock servers for a lock on its name and holds the lock when a quorum of them
has granted it. Requests, replies and releases take any time, arrive in any order or are lost; a
client that gives up on a reply counts the server as failed, although its request may be granted
later. Grants that come after an attempt is decided are released again.

A *ticket* is a right to remove one entry from a lock server: a granted reply on its way, a grant in
the channel of an attempt, a slot of a lock array, a release on its way. No step makes a ticket but
a server that grants a lock, and it makes an entry with it. So the tickets at a server are always
covered by its entries (`Inv.covered`), and the server's one writer or many readers are those of the
clients that hold its tickets.

A server of the client's own process is called directly, any other one over REST: the name goes
there as a line of the request's body, and the server splits the body at newlines. So a name with a
newline, or with a carriage return at its end, is not the same name on all servers.

`drwMutex_safe_iff`: two clients never both hold a write lock, or one a write lock and the other a
read lock, in any run, just when the name gets to every server as it is.
-/

namespace S3Kinetic.Dsync

open ByteString Quorum Update LocalLocker List

variable {n : Nat}

/-! ## One attempt to take a lock -/

def isLocked (uid : Bytes) : Bool := 0 < uid.length

structure Granted (n : Nat) where
  index : Fin n
  lockUID : Bytes

def dquorum (n : Nat) : Nat := n / 2 + 1

def dquorumReads (n : Nat) : Nat := (n + 1) / 2

def quorumMet (locks : Fin n → Bytes) (isReadLock : Bool) : Bool :=
  let count := tally fun k => isLocked (locks k) = true
  if isReadLock then dquorumReads n ≤ count else dquorum n ≤ count

/-- A call of a server's `Lock` or `RLock`, with the messages it has on their way. -/
inductive Rpc where
  /-- The caller waits and the request is on its way. -/
  | requested
  /-- The caller waits and the reply is on its way. -/
  | answered (locked : Bool)
  /-- The caller has got an error, and the request is still on its way. -/
  | abandoned
  | done
  deriving DecidableEq

/-- Where the goroutine that collects the grants, and the `lock` that waits for it, are. -/
inductive Phase where
  | collecting
  | decided (quorum : Bool)
  /-- `lock` has returned; what is left in the channel is released. -/
  | returned
  deriving DecidableEq

/-- A call of `lock`, with its goroutines. -/
structure Attempt (n : Nat) where
  id : Bytes
  source : Bytes
  isReadLock : Bool
  rpcs : Fin n → Rpc
  ch : List (Granted n)
  i : Nat
  locksFailed : Nat
  locks : Fin n → Bytes
  phase : Phase

structure Ticket where
  isReadLock : Bool
  uid : Bytes
  deriving DecidableEq

abbrev Sent (n : Nat) := Fin n → Multiset Ticket

def slot (isReadLock : Bool) (uid : Bytes) : Multiset Ticket :=
  if isLocked uid then {⟨isReadLock, uid⟩} else 0

namespace Attempt

/-- `ch <- g` of the goroutine that calls a server, at the end of the call. -/
def put (a : Attempt n) (index : Fin n) (rpc : Rpc) (lockUID : Bytes) : Attempt n :=
  { a with rpcs := Function.update a.rpcs index rpc, ch := a.ch ++ [⟨index, lockUID⟩] }

def releaseAll (a : Attempt n) : Attempt n × Sent n :=
  ({ a with locks := fun _ => [] }, fun k => slot a.isReadLock (a.locks k))

def decided (a : Attempt n) : Attempt n :=
  { a with phase := .decided (quorumMet a.locks a.isReadLock) }

/-- A round of the collector's loop that gets a grant. -/
def receive (a : Attempt n) (grant : Granted n) : Attempt n × Sent n :=
  if isLocked grant.lockUID then
    ({ a with i := a.i + 1, locks := Function.update a.locks grant.index grant.lockUID }, 0)
  else
    let a := { a with i := a.i + 1, locksFailed := a.locksFailed + 1 }
    if !a.isReadLock && n - dquorum n < a.locksFailed || a.isReadLock &&
      n - dquorumReads n < a.locksFailed then
      (a.releaseAll.1.decided, a.releaseAll.2)
    else (a, 0)

def timeout (a : Attempt n) : Attempt n × Sent n :=
  if quorumMet a.locks a.isReadLock then (a.decided, 0)
    else (a.releaseAll.1.decided, a.releaseAll.2)

/-- A grant that came too late for the loop. -/
def drain (a : Attempt n) (grant : Granted n) : Attempt n × Sent n :=
  ({ a with i := a.i + 1 }, fun k => if grant.index = k then slot a.isReadLock grant.lockUID else 0)

inductive Event (n : Nat) where
  /-- A reply reaches its caller. -/
  | respond (k : Fin n)
  /-- A caller gets an error, or has no client for the server to call. -/
  | fail (k : Fin n)
  | receive
  | timeout
  | allReceived
  | drain

def step (a : Attempt n) : Event n → Option (Attempt n × Sent n)
  | .respond k =>
    match a.rpcs k with
    | .answered locked => some (a.put k .done (if locked then a.id else []), 0)
    | _ => none
  | .fail k =>
    match a.rpcs k with
    | .requested => some (a.put k .abandoned [], 0)
    | .answered _ => some (a.put k .done [], 0)
    | _ => none
  | .receive =>
    match a.ch with
    | grant :: ch =>
      if a.phase = .collecting ∧ a.i < n then some ({ a with ch := ch }.receive grant) else none
    | [] => none
  | .timeout => if a.phase = .collecting ∧ a.i < n then some a.timeout else none
  | .allReceived => if a.phase = .collecting ∧ n ≤ a.i then some (a.decided, 0) else none
  | .drain =>
    match a.ch with
    | grant :: ch =>
      if a.phase ≠ .collecting ∧ a.i < n then some ({ a with ch := ch }.drain grant) else none
    | [] => none

/-- `wg.Wait` of `lock` returns: the collector has decided and no caller waits for a reply. -/
def waited (a : Attempt n) : Option Bool :=
  match a.phase with
  | .decided quorum => if ∀ k, a.rpcs k = .abandoned ∨ a.rpcs k = .done then some quorum else none
  | _ => none

end Attempt

/-! ## Clients -/

/-- A call of `lockBlocking` between two attempts. -/
structure Blocking where
  id : Bytes
  source : Bytes
  isReadLock : Bool

def Blocking.attempt (n : Nat) (b : Blocking) : Attempt n where
  id := b.id
  source := b.source
  isReadLock := b.isReadLock
  rpcs _ := .requested
  ch := []
  i := 0
  locksFailed := 0
  locks _ := []
  phase := .collecting

/-- A `DRWMutex`, with the calls of `lockBlocking` and `lock` made on it. -/
structure Client (n : Nat) where
  /-- `newLockAPI`: the lock servers that the client calls directly. -/
  isLocal : Fin n → Bool
  writeLocks : Fin n → Bytes
  readersLocks : List (Fin n → Bytes)
  blocking : List Blocking
  attempts : List (Attempt n)

namespace Client

def new (isLocal : Fin n → Bool) : Client n := ⟨isLocal, fun _ => [], [], [], []⟩

/-- The check of `Unlock`. -/
def lockFound (c : Client n) : Bool := (List.finRange n).any fun k => isLocked (c.writeLocks k)

inductive Event (n : Nat) where
  | getLock (id source : Bytes)
  | getRLock (id source : Bytes)
  /-- A waiting call makes an attempt. -/
  | lock (b : Nat)
  /-- A waiting call returns false: its time is over or its context is done. -/
  | giveUp (b : Nat)
  | attempt (j : Nat) (e : Attempt.Event n)
  /-- `lock` returns to `lockBlocking`. -/
  | waited (j : Nat)
  | unlock
  | rUnlock

/-- What `lockBlocking` does with the result of `lock`. -/
def lockReturned (c : Client n) (a : Attempt n) (quorum : Bool) : Client n :=
  if quorum then
    if a.isReadLock then { c with readersLocks := c.readersLocks ++ [a.locks] }
      else { c with writeLocks := a.locks }
  else { c with blocking := c.blocking ++ [⟨a.id, a.source, a.isReadLock⟩] }

def step (c : Client n) : Event n → Option (Client n × Sent n)
  | .getLock id source => some ({ c with blocking := c.blocking ++ [⟨id, source, false⟩] }, 0)
  | .getRLock id source => some ({ c with blocking := c.blocking ++ [⟨id, source, true⟩] }, 0)
  | .lock b =>
    match c.blocking[b]? with
    | some call =>
      some ({ c with
        blocking := c.blocking.eraseIdx b
        attempts := c.attempts ++ [call.attempt n] }, 0)
    | none => none
  | .giveUp b =>
    match c.blocking[b]? with
    | some _ => some ({ c with blocking := c.blocking.eraseIdx b }, 0)
    | none => none
  | .attempt j e =>
    match c.attempts[j]? with
    | some a => (a.step e).map fun (a', sent) => ({ c with attempts := c.attempts.set j a' }, sent)
    | none => none
  | .waited j =>
    match c.attempts[j]? with
    | some a =>
      a.waited.map fun quorum =>
        ({ c with attempts := c.attempts.set j { a with phase := .returned } }.lockReturned a
          quorum, 0)
    | none => none
  | .unlock =>
    if c.lockFound then some ({ c with writeLocks := fun _ => [] },
      fun k => slot false (c.writeLocks k)) else none
  | .rUnlock =>
    match c.readersLocks with
    | locks :: readersLocks =>
      some ({ c with readersLocks := readersLocks }, fun k => slot true (locks k))
    | [] => none

end Client

/-! ## The whole system -/

structure System (n : Nat) where
  servers : Fin n → LockMap
  clients : List (Client n)
  /-- The releases on their way, and whether they are direct calls. -/
  releases : Fin n → Multiset (Bool × Ticket)

def newline : UInt8 := 10

def carriageReturn : UInt8 := 13

/-- `dropCR` of `bufio.ScanLines`. -/
def dropCR (line : Bytes) : Bytes :=
  if line.getLast? = some carriageReturn then line.dropLast else line

/-- The resources of a lock request over REST: `restCall` writes the name and a newline,
`getLockArgs` scans the lines and sorts them. A name is far shorter than the longest line that the
scanner takes. -/
def restResources (name : Bytes) : List Bytes :=
  ((name.splitOn newline).map dropCR).insertionSort (· ≤ ·)

/-- The arguments as the server gets them. -/
def lockArgs (isLocal : Bool) (name uid source : Bytes) : LockArgs where
  uid := uid
  resources := if isLocal then [name] else restResources name
  source := source
  nonempty := by
    cases isLocal
    · have hpieces : name.splitOn newline ≠ [] := splitOnP_ne_nil _ _
      simpa [restResources, ← length_eq_zero_iff] using hpieces
    · simp

/-- A server's answer to a request. -/
def serve (isLocal : Bool) (name : Bytes) (now : Int) (a : Attempt n) (m : LockMap) :
    Bool × LockMap :=
  if a.isReadLock then rLock now (lockArgs isLocal name a.id a.source) m
  else LocalLocker.lock now (lockArgs isLocal name a.id a.source) m

/-- A server's handling of a release. -/
def serveRelease (isLocal : Bool) (name : Bytes) (t : Ticket) (m : LockMap) : LockMap :=
  if t.isReadLock then (rUnlock (lockArgs isLocal name t.uid []) m).2
  else (unlock (lockArgs isLocal name t.uid []) m).2

/-- The releases that a client sends. -/
def Client.posted (client : Client n) (sent : Sent n) : Fin n → Multiset (Bool × Ticket) :=
  fun k => (sent k).map fun t => (client.isLocal k, t)

/-- The attempt once the server has answered its request. -/
def Attempt.served (a : Attempt n) (k : Fin n) (locked : Bool) : Option (Attempt n) :=
  match a.rpcs k with
  | .requested => some { a with rpcs := Function.update a.rpcs k (.answered locked) }
  | .abandoned => some { a with rpcs := Function.update a.rpcs k .done }
  | _ => none

namespace System

inductive Event (n : Nat) where
  /-- A process, with lock servers of its own, makes a `DRWMutex`. -/
  | newDRWMutex (isLocal : Fin n → Bool)
  | client (c : Nat) (e : Client.Event n)
  /-- The request of an attempt reaches a server. -/
  | request (c j : Nat) (k : Fin n) (now : Int)
  /-- A release reaches a server. -/
  | release (k : Fin n) (isLocal : Bool) (t : Ticket)

def step (name : Bytes) (s : System n) : Event n → Option (System n)
  | .newDRWMutex isLocal => some { s with clients := s.clients ++ [Client.new isLocal] }
  | .client c e =>
    match s.clients[c]? with
    | some client =>
      (client.step e).map fun (client', sent) =>
        { s with clients := s.clients.set c client', releases := s.releases + client.posted sent }
    | none => none
  | .request c j k now =>
    match s.clients[c]? with
    | some client =>
      match client.attempts[j]? with
      | some a =>
        let answer := serve (client.isLocal k) name now a (s.servers k)
        (a.served k answer.1).map fun a' =>
          { s with
            servers := Function.update s.servers k answer.2
            clients := s.clients.set c { client with attempts := client.attempts.set j a' } }
      | none => none
    | none => none
  | .release k isLocal t =>
    if (isLocal, t) ∈ s.releases k then
      some { s with
        servers := Function.update s.servers k (serveRelease isLocal name t (s.servers k))
        releases := Function.update s.releases k ((s.releases k).erase (isLocal, t)) }
    else none

def init (n : Nat) : System n := ⟨fun _ => ∅, [], 0⟩

def run (name : Bytes) (s : System n) (events : List (Event n)) : Option (System n) :=
  events.foldlM (step name) s

end System

/-! ## Tickets -/

/-- The tickets of a reply and of the grants in the channel. -/
def Attempt.underway (a : Attempt n) (k : Fin n) : Multiset Ticket :=
  (if a.rpcs k = .answered true then slot a.isReadLock a.id else 0) +
    (a.ch.map fun g => if g.index = k then slot a.isReadLock g.lockUID else 0).sum

/-- The tickets of an attempt at a server. The lock array is the client's once `lock` has
returned. -/
def Attempt.tickets (a : Attempt n) (k : Fin n) : Multiset Ticket :=
  a.underway k + if a.phase = .returned then 0 else slot a.isReadLock (a.locks k)

def Client.tickets (c : Client n) (k : Fin n) : Multiset Ticket :=
  (c.attempts.map (·.tickets k)).sum + slot false (c.writeLocks k) +
    (c.readersLocks.map fun locks => slot true (locks k)).sum

def System.tickets (s : System n) (k : Fin n) : Multiset Ticket :=
  (s.clients.map (·.tickets k)).sum + (s.releases k).map Prod.snd

def ticket (e : LockRequesterInfo) : Ticket := ⟨!e.writer, e.uid⟩

def held (name : Bytes) (m : LockMap) : Multiset Ticket := (entries m name).map ticket

@[simp] theorem slot_nil (isReadLock : Bool) : slot isReadLock [] = 0 := rfl

namespace Attempt

variable {a a' : Attempt n} {sent : Sent n} {e : Event n} {k : Fin n}

theorem tickets_of_open (h : a.phase ≠ .returned) (k : Fin n) :
    a.tickets k = a.underway k + slot a.isReadLock (a.locks k) := by
  rw [tickets, if_neg h]

theorem put_tickets_le {j : Fin n} {rpc : Rpc} {lockUID : Bytes} (hrpc : rpc ≠ .answered true)
    (huid : slot a.isReadLock lockUID ≤ if a.rpcs j = .answered true then slot a.isReadLock a.id
      else 0) (k : Fin n) :
    (a.put j rpc lockUID).tickets k ≤ a.tickets k := by
  refine add_le_add ?_ le_rfl
  unfold underway put
  simp only [map_append, map_cons, map_nil, sum_append, sum_cons, sum_nil, add_zero]
  by_cases hk : j = k
  · subst hk
    rw [Function.update_self, if_neg hrpc, if_pos rfl, zero_add, add_comm]
    exact add_le_add huid le_rfl
  · rw [Function.update_of_ne (Ne.symm hk), if_neg hk, add_zero]

theorem tickets_of_ch {grant : Granted n} {ch : List (Granted n)}
    (h : a.ch = grant :: ch) (k : Fin n) :
    a.tickets k = { a with ch := ch }.tickets k + if grant.index = k then slot a.isReadLock
      grant.lockUID else 0 := by
  simp only [tickets, underway, h, map_cons, sum_cons]
  abel

theorem releaseAll_tickets (h : a.phase ≠ .returned) (k : Fin n) :
    a.releaseAll.1.tickets k + a.releaseAll.2 k = a.tickets k := by
  rw [tickets_of_open h, tickets_of_open (by exact h)]
  exact congrArg (· + _) (add_zero _)

theorem decided_tickets (h : a.phase ≠ .returned) (k : Fin n) :
    a.decided.tickets k = a.tickets k := by
  rw [tickets_of_open h, tickets_of_open (by simp [decided])]
  rfl

theorem releaseAll_decided_tickets (h : a.phase ≠ .returned) (k : Fin n) :
    a.releaseAll.1.decided.tickets k + a.releaseAll.2 k = a.tickets k := by
  rw [decided_tickets (by exact h), releaseAll_tickets h]

theorem receive_tickets_le (h : a.phase ≠ .returned) (grant : Granted n) (k : Fin n) :
    (a.receive grant).1.tickets k + (a.receive grant).2 k ≤
      a.tickets k + if grant.index = k then slot a.isReadLock grant.lockUID else 0 := by
  unfold receive
  by_cases hlocked : isLocked grant.lockUID = true
  · rw [if_pos hlocked]
    rw [tickets_of_open h, tickets_of_open (by exact h)]
    change a.underway k + slot a.isReadLock (Function.update a.locks grant.index grant.lockUID k) +
      0 ≤ _
    rw [add_zero]
    by_cases hk : grant.index = k
    · subst hk
      rw [Function.update_self, if_pos rfl, add_assoc _ (slot _ _)]
      exact add_le_add le_rfl (Multiset.le_add_left _ _)
    · rw [Function.update_of_ne (Ne.symm hk), if_neg hk, add_zero]
  · rw [if_neg hlocked]
    refine le_trans ?_ (Multiset.le_add_right _ _)
    dsimp only
    split_ifs
    · exact (releaseAll_decided_tickets (by exact h) k).le
    · exact (add_zero _).le

theorem timeout_tickets (h : a.phase ≠ .returned) (k : Fin n) :
    a.timeout.1.tickets k + a.timeout.2 k = a.tickets k := by
  unfold timeout
  split_ifs
  · exact (add_zero _).trans (decided_tickets h k)
  · exact releaseAll_decided_tickets h k

theorem drain_tickets (grant : Granted n) (k : Fin n) :
    (a.drain grant).1.tickets k + (a.drain grant).2 k =
      a.tickets k + if grant.index = k then slot a.isReadLock grant.lockUID else 0 := rfl

/-- What a step of an attempt can do. -/
theorem step_cases (h : a.step e = some (a', sent)) :
    (∃ (j : Fin n) (rpc : Rpc) (lockUID : Bytes), rpc ≠ .answered true ∧
      (slot a.isReadLock lockUID ≤ if a.rpcs j = .answered true then slot a.isReadLock a.id
        else 0) ∧
      a.put j rpc lockUID = a' ∧ 0 = sent) ∨
    (∃ grant ch, a.ch = grant :: ch ∧ a.phase = .collecting ∧
      { a with ch := ch }.receive grant = (a', sent)) ∨
    (a.phase = .collecting ∧ (a.timeout = (a', sent) ∨ (a.decided, 0) = (a', sent))) ∨
    ∃ grant ch, a.ch = grant :: ch ∧ { a with ch := ch }.drain grant = (a', sent) := by
  cases e with
  | respond j =>
    cases hrpc : a.rpcs j with
    | answered locked =>
      simp only [step, hrpc, Option.some.injEq, Prod.mk.injEq] at h
      refine .inl ⟨j, _, _, by simp, ?_, h⟩
      cases locked <;> simp [hrpc]
    | _ => simp [step, hrpc] at h
  | fail j =>
    cases hrpc : a.rpcs j with
    | requested | answered locked =>
      simp only [step, hrpc, Option.some.injEq, Prod.mk.injEq] at h
      exact .inl ⟨j, _, [], by simp, Multiset.zero_le _, h⟩
    | _ => simp [step, hrpc] at h
  | receive =>
    cases hch : a.ch with
    | nil => simp [step, hch] at h
    | cons grant ch =>
      simp only [step, hch, Option.ite_none_right_eq_some, Option.some.injEq] at h
      exact .inr (.inl ⟨grant, ch, rfl, h.1.1, h.2⟩)
  | timeout =>
    simp only [step, Option.ite_none_right_eq_some, Option.some.injEq] at h
    exact .inr (.inr (.inl ⟨h.1.1, .inl h.2⟩))
  | allReceived =>
    simp only [step, Option.ite_none_right_eq_some, Option.some.injEq] at h
    exact .inr (.inr (.inl ⟨h.1.1, .inr h.2⟩))
  | drain =>
    cases hch : a.ch with
    | nil => simp [step, hch] at h
    | cons grant ch =>
      simp only [step, hch, Option.ite_none_right_eq_some, Option.some.injEq] at h
      exact .inr (.inr (.inr ⟨grant, ch, rfl, h.2⟩))

theorem step_tickets_le (h : a.step e = some (a', sent)) (k : Fin n) :
    a'.tickets k + sent k ≤ a.tickets k := by
  rcases step_cases h with ⟨j, rpc, lockUID, hrpc, huid, rfl, rfl⟩ | ⟨grant, ch, hch, hphase, h⟩ |
    ⟨hphase, h | h⟩ | ⟨grant, ch, hch, h⟩
  · rw [Pi.zero_apply, add_zero]
    exact put_tickets_le hrpc huid k
  · obtain ⟨rfl, rfl⟩ := Prod.mk.inj h
    rw [tickets_of_ch hch]
    exact receive_tickets_le (by simp [hphase]) grant k
  · obtain ⟨rfl, rfl⟩ := Prod.mk.inj h
    exact (timeout_tickets (by simp [hphase]) k).le
  · obtain ⟨rfl, rfl⟩ := Prod.mk.inj h
    rw [Pi.zero_apply, add_zero, decided_tickets (by simp [hphase])]
  · obtain ⟨rfl, rfl⟩ := Prod.mk.inj h
    rw [tickets_of_ch hch]
    exact (drain_tickets grant k).le

def Wf (a : Attempt n) : Prop := a.phase = .decided true → quorumMet a.locks a.isReadLock = true

theorem Wf.of_collecting (h : a.phase = .collecting) : a.Wf := by simp [Wf, h]

theorem Wf.put (h : a.Wf) (j : Fin n) (rpc : Rpc) (lockUID : Bytes) : (a.put j rpc lockUID).Wf := h

theorem decided_wf (a : Attempt n) : a.decided.Wf := by simp [Wf, decided]

theorem receive_wf (h : a.phase = .collecting) (grant : Granted n) : (a.receive grant).1.Wf := by
  unfold receive
  dsimp only
  split_ifs
  · exact .of_collecting h
  · exact decided_wf _
  · exact .of_collecting h

theorem timeout_wf (a : Attempt n) : a.timeout.1.Wf := by
  unfold timeout
  split_ifs
  · exact decided_wf _
  · exact decided_wf _

theorem step_wf (hwf : a.Wf) (h : a.step e = some (a', sent)) : a'.Wf := by
  rcases step_cases h with ⟨j, rpc, lockUID, -, -, rfl, -⟩ | ⟨grant, ch, -, hphase, h⟩ |
    ⟨-, h | h⟩ | ⟨grant, ch, -, h⟩
  · exact hwf.put j rpc lockUID
  · exact (Prod.mk.inj h).1 ▸ receive_wf (by exact hphase) grant
  · exact (Prod.mk.inj h).1 ▸ timeout_wf a
  · exact (Prod.mk.inj h).1 ▸ decided_wf a
  · exact (Prod.mk.inj h).1 ▸ hwf

end Attempt

namespace Client

variable {c c' : Client n} {sent : Sent n} {e : Event n}

/-- A lock array that a client keeps is one of a quorum. -/
structure Wf (c : Client n) : Prop where
  attempts : ∀ a ∈ c.attempts, a.Wf
  writeLocks : c.lockFound = true → quorumMet c.writeLocks false = true
  readersLocks : ∀ locks ∈ c.readersLocks, quorumMet locks true = true

theorem waited_eq_some {a : Attempt n} {quorum : Bool} (h : a.waited = some quorum) :
    a.phase = .decided quorum := by
  unfold Attempt.waited at h
  cases hphase : a.phase with
  | decided q =>
    simp only [hphase, Option.ite_none_right_eq_some, Option.some.injEq] at h
    rw [h.2]
  | _ => simp [hphase] at h

/-- What a step of a client can do. -/
theorem step_cases (h : c.step e = some (c', sent)) :
    (c'.attempts = c.attempts ∧ c'.writeLocks = c.writeLocks ∧ c'.readersLocks = c.readersLocks ∧
      sent = 0) ∨
    (∃ b : Blocking, c'.attempts = c.attempts ++ [b.attempt n] ∧ c'.writeLocks = c.writeLocks ∧
      c'.readersLocks = c.readersLocks ∧ sent = 0) ∨
    (∃ (j : Nat) (a : Attempt n) (e' : Attempt.Event n) (a' : Attempt n), c.attempts[j]? = some a ∧
      a.step e' = some (a', sent) ∧
      c' = { c with attempts := c.attempts.set j a' }) ∨
    (∃ (j : Nat) (a : Attempt n) (quorum : Bool), c.attempts[j]? = some a ∧
      a.phase = .decided quorum ∧ sent = 0 ∧
      c' = { c with attempts := c.attempts.set j { a with phase := .returned } }.lockReturned a
        quorum) ∨
    (c' = { c with writeLocks := fun _ => [] } ∧ sent = fun k => slot false (c.writeLocks k)) ∨
    (∃ locks readersLocks, c.readersLocks = locks :: readersLocks ∧
      c' = { c with readersLocks := readersLocks } ∧
      sent = fun k => slot true (locks k)) := by
  cases e with
  | getLock id source | getRLock id source =>
    simp only [step, Option.some.injEq, Prod.mk.injEq] at h
    obtain ⟨rfl, rfl⟩ := h
    exact .inl ⟨rfl, rfl, rfl, rfl⟩
  | lock b =>
    cases hb : c.blocking[b]? with
    | none => simp [step, hb] at h
    | some call =>
      simp only [step, hb, Option.some.injEq, Prod.mk.injEq] at h
      obtain ⟨rfl, rfl⟩ := h
      exact .inr (.inl ⟨call, rfl, rfl, rfl, rfl⟩)
  | giveUp b =>
    cases hb : c.blocking[b]? with
    | none => simp [step, hb] at h
    | some call =>
      simp only [step, hb, Option.some.injEq, Prod.mk.injEq] at h
      obtain ⟨rfl, rfl⟩ := h
      exact .inl ⟨rfl, rfl, rfl, rfl⟩
  | attempt j e' =>
    cases hj : c.attempts[j]? with
    | none => simp [step, hj] at h
    | some a =>
      simp only [step, hj, Option.map_eq_some_iff, Prod.mk.injEq, Prod.exists] at h
      obtain ⟨a', sent', ha, rfl, rfl⟩ := h
      exact .inr (.inr (.inl ⟨j, a, e', a', hj, ha, rfl⟩))
  | waited j =>
    cases hj : c.attempts[j]? with
    | none => simp [step, hj] at h
    | some a =>
      simp only [step, hj, Option.map_eq_some_iff, Prod.mk.injEq] at h
      obtain ⟨quorum, ha, rfl, rfl⟩ := h
      exact .inr (.inr (.inr (.inl ⟨j, a, quorum, hj, waited_eq_some ha, rfl, rfl⟩)))
  | unlock =>
    simp only [step, Option.ite_none_right_eq_some, Option.some.injEq, Prod.mk.injEq] at h
    exact .inr (.inr (.inr (.inr (.inl ⟨h.2.1.symm, h.2.2.symm⟩))))
  | rUnlock =>
    cases hr : c.readersLocks with
    | nil => simp [step, hr] at h
    | cons locks readersLocks =>
      simp only [step, hr, Option.some.injEq, Prod.mk.injEq] at h
      exact .inr (.inr (.inr (.inr (.inr ⟨locks, readersLocks, rfl, h.1.symm, h.2.symm⟩))))

theorem lockReturned_tickets_le (c : Client n) (a : Attempt n) (quorum : Bool) (k : Fin n) :
    (c.lockReturned a quorum).tickets k ≤ c.tickets k + slot a.isReadLock (a.locks k) := by
  unfold lockReturned
  cases quorum with
  | false => exact Multiset.le_add_right _ _
  | true =>
    cases hr : a.isReadLock with
    | false =>
      simp only [tickets, Bool.false_eq_true, if_true, if_false]
      rw [add_right_comm _ _ (slot false (a.locks k)), add_right_comm _ _ (slot false (a.locks k))]
      exact add_le_add (Multiset.le_add_right _ _) le_rfl
    | true =>
      simp only [tickets, if_true, map_append, map_cons, map_nil, sum_append, sum_cons,
        sum_nil, add_zero]
      rw [← add_assoc]

theorem tickets_congr (hattempts : c'.attempts = c.attempts) (hw : c'.writeLocks = c.writeLocks)
    (hr : c'.readersLocks = c.readersLocks) (k : Fin n) : c'.tickets k = c.tickets k := by
  rw [tickets, tickets, hattempts, hw, hr]

theorem tickets_attempt (b : Blocking) (k : Fin n) : (b.attempt n).tickets k = 0 := by
  simp [Attempt.tickets, Attempt.underway, Blocking.attempt]

theorem tickets_set {j : Nat} {a : Attempt n} (h : c.attempts[j]? = some a) (k : Fin n) :
    ∃ rest, c.tickets k = a.tickets k + rest ∧
      ∀ a', { c with attempts := c.attempts.set j a' }.tickets k = a'.tickets k + rest := by
  obtain ⟨rest, hsum, hset⟩ := sum_map_set (fun a : Attempt n => a.tickets k) h
  refine ⟨rest + slot false (c.writeLocks k) + (c.readersLocks.map fun locks =>
    slot true (locks k)).sum, ?_, fun a' => ?_⟩
  · rw [tickets, hsum, add_assoc, add_assoc, add_assoc]
  · rw [tickets, hset, add_assoc, add_assoc, add_assoc]

theorem step_tickets_le (h : c.step e = some (c', sent)) (k : Fin n) :
    c'.tickets k + sent k ≤ c.tickets k := by
  rcases step_cases h with ⟨hattempts, hw, hr, rfl⟩ | ⟨b, hattempts, hw, hr, rfl⟩ |
    ⟨j, a, e', a', hj, ha, rfl⟩ |
    ⟨j, a, quorum, hj, hphase, rfl, rfl⟩ | ⟨rfl, rfl⟩ | ⟨locks, readersLocks, hr, rfl, rfl⟩
  · rw [tickets_congr hattempts hw hr, Pi.zero_apply, add_zero]
  · rw [tickets, tickets, hattempts, hw, hr, map_append, sum_append, map_singleton, sum_singleton,
      tickets_attempt, Pi.zero_apply, add_zero, add_zero]
  · obtain ⟨rest, hc, hset⟩ := tickets_set hj k
    rw [hc, hset, add_right_comm]
    exact add_le_add (Attempt.step_tickets_le ha k) le_rfl
  · obtain ⟨rest, hc, hset⟩ := tickets_set hj k
    refine (add_zero _).le.trans ((lockReturned_tickets_le _ a quorum k).trans ?_)
    rw [hc, hset, add_right_comm, Attempt.tickets_of_open (a := a) (by simp [hphase]),
      Attempt.tickets, if_pos rfl, add_zero]
    rfl
  · rw [tickets, tickets, slot_nil, add_zero, add_right_comm]
  · rw [tickets, tickets, hr, map_cons, sum_cons, add_comm (slot true (locks k)), ← add_assoc]

theorem Wf.lockReturned {a : Attempt n} {quorum : Bool} (hc : c.Wf) (ha : a.Wf)
    (hphase : a.phase = .decided quorum) :
    (c.lockReturned a quorum).Wf := by
  unfold Client.lockReturned
  cases quorum with
  | false => exact ⟨hc.attempts, hc.writeLocks, hc.readersLocks⟩
  | true =>
    have hquorum := ha hphase
    cases hr : a.isReadLock with
    | false =>
      rw [hr] at hquorum
      exact ⟨hc.attempts, fun _ => hquorum, hc.readersLocks⟩
    | true =>
      rw [hr] at hquorum
      refine ⟨hc.attempts, hc.writeLocks, fun locks hlocks => ?_⟩
      rcases mem_append.1 hlocks with h | h
      · exact hc.readersLocks locks h
      · rw [mem_singleton.1 h]
        exact hquorum

theorem Wf.set {j : Nat} {a : Attempt n} (hc : c.Wf) (ha : a.Wf) :
    { c with attempts := c.attempts.set j a }.Wf :=
  ⟨fun a' ha' => (mem_or_eq_of_mem_set ha').elim (hc.attempts a') fun h => h ▸ ha, hc.writeLocks,
    hc.readersLocks⟩

theorem step_wf (hc : c.Wf) (h : c.step e = some (c', sent)) : c'.Wf := by
  rcases step_cases h with ⟨hattempts, hw, hr, -⟩ | ⟨b, hattempts, hw, hr, -⟩ |
    ⟨j, a, e', a', hj, ha, rfl⟩ |
    ⟨j, a, quorum, hj, hphase, -, rfl⟩ | ⟨rfl, -⟩ | ⟨locks, readersLocks, hr, rfl, -⟩
  · exact ⟨hattempts ▸ hc.attempts, by rw [lockFound, hw]; exact hc.writeLocks,
      hr ▸ hc.readersLocks⟩
  · refine ⟨fun a ha => ?_, by rw [lockFound, hw]; exact hc.writeLocks, hr ▸ hc.readersLocks⟩
    rw [hattempts] at ha
    rcases mem_append.1 ha with ha | ha
    · exact hc.attempts a ha
    · exact .of_collecting (by rw [mem_singleton.1 ha]; rfl)
  · exact hc.set (Attempt.step_wf (hc.attempts a (mem_of_getElem? hj)) ha)
  · refine Wf.lockReturned (hc.set ?_) (hc.attempts a (mem_of_getElem? hj)) hphase
    simp [Attempt.Wf]
  · exact ⟨hc.attempts, by simp [lockFound, isLocked], hc.readersLocks⟩
  · exact ⟨hc.attempts, hc.writeLocks,
      fun locks' h => hc.readersLocks locks' (hr ▸ mem_cons_of_mem _ h)⟩

end Client

/-! ## Servers -/

section Servers

variable {name : Bytes} {now : Int} {m : LockMap} {t : Ticket}

/-- The name gets to every server as it is. -/
def Sendable (name : Bytes) : Prop := newline ∉ name ∧ name.getLast? ≠ some carriageReturn

theorem restResources_eq (h : Sendable name) : restResources name = [name] := by
  rw [restResources, splitOn_eq_singleton h.1, map_singleton, dropCR, if_neg h.2]
  rfl

theorem lockArgs_eq (h : Sendable name) (isLocal : Bool) (uid source : Bytes) :
    lockArgs isLocal name uid source = lockArgs true name uid source := by
  cases isLocal with
  | true => rfl
  | false => simp only [lockArgs, restResources_eq h, if_true, Bool.false_eq_true, if_false]

theorem lock_held (uid source : Bytes) :
    held name (LocalLocker.lock now (lockArgs true name uid source) m).2 =
    held name m + if (LocalLocker.lock now (lockArgs true name uid source) m).1 then {⟨false, uid⟩}
      else 0 := by
  cases h : (LocalLocker.lock now (lockArgs true name uid source) m).1 with
  | false => simp [lock_refused h]
  | true =>
    obtain ⟨hfree, hlookup⟩ := lock_granted h
    have hname : name ∈ (lockArgs true name uid source).resources := mem_singleton_self name
    rw [held, held, entries, entries, hlookup, if_pos hname, hfree name hname]
    rfl

theorem rLock_held (uid source : Bytes) :
    held name (rLock now (lockArgs true name uid source) m).2 =
    held name m + if (rLock now (lockArgs true name uid source) m).1 then {⟨true, uid⟩} else 0 := by
  have hfirst : (lockArgs true name uid source).first = name := rfl
  rw [rLock_eq, hfirst]
  cases hw : isWriteLock (entries m name) with
  | true => exact (add_zero _).symm
  | false => simp [held, entries_insert, ticket, lockArgs, ← Multiset.coe_add]

theorem serve_held (hname : Sendable name) (isLocal : Bool) (a : Attempt n) :
    held name (serve isLocal name now a m).2 =
      held name m + if (serve isLocal name now a m).1 then {⟨a.isReadLock, a.id⟩} else 0 := by
  unfold serve
  rw [lockArgs_eq hname]
  cases a.isReadLock with
  | false => exact lock_held a.id a.source
  | true => exact rLock_held a.id a.source

theorem serve_sound (hm : Sound m) (isLocal : Bool) (a : Attempt n) :
    Sound (serve isLocal name now a m).2 := by
  unfold serve
  split_ifs
  · exact rLock_sound hm
  · exact lock_sound hm

theorem serveRelease_sound (hm : Sound m) (isLocal : Bool) (t : Ticket) :
    Sound (serveRelease isLocal name t m) := by
  unfold serveRelease
  split_ifs
  · exact rUnlock_keeps (fun _ _ _ => removeEntry_sound) hm
  · exact unlock_keeps (fun _ _ _ => removeEntry_sound) hm

theorem mem_held : t ∈ held name m ↔ ∃ e ∈ entries m name, ticket e = t := by simp [held]

theorem map_eraseP_ticket {lri : List LockRequesterInfo} (h : ∀ e ∈ lri, e.writer = false)
    (uid : Bytes) :
    (lri.eraseP fun e => e.uid = uid).map ticket = (lri.map ticket).erase ⟨true, uid⟩ := by
  induction lri with
  | nil => rfl
  | cons e lri ih =>
    rw [forall_mem_cons] at h
    have hticket : ticket e = ⟨true, e.uid⟩ := by simp [ticket, h.1]
    by_cases huid : e.uid = uid
    · simp [huid, hticket]
    · rw [eraseP_cons_of_neg (by simpa using huid), map_cons, map_cons, hticket,
        erase_cons_tail (by simpa using huid), ih h.2]

theorem unlock_held {e : LockRequesterInfo} (he : entries m name = [e])
    (hwriter : e.writer = true) :
    held name (unlock (lockArgs true name e.uid []) m).2 = 0 := by
  have hcan : canTakeUnlock m (lockArgs true name e.uid []).resources = true := by
    simp [canTakeUnlock, lockArgs, he, isWriteLock, hwriter]
  have hrem : removeEntry name e.uid (entries m name) m = some (m.erase name) := by
    simp [removeEntry, he]
  have hall : (unlock (lockArgs true name e.uid []) m).2 = m.erase name := by
    rw [unlock, hcan]
    simp [unlockAll, lockArgs, hrem]
  rw [hall, held, entries_erase, if_pos rfl]
  rfl

theorem rUnlock_held {lri : List LockRequesterInfo} {e : LockRequesterInfo}
    (hlri : m.lookup name = some lri) (hreaders : ∀ e ∈ lri, e.writer = false) (he : e ∈ lri) :
    held name (rUnlock (lockArgs true name e.uid []) m).2 = (held name m).erase ⟨true, e.uid⟩ := by
  have hentries : entries m name = lri := by rw [entries, hlri, Option.getD_some]
  have hw : isWriteLock lri = false := by
    by_contra hw
    obtain ⟨w, rfl, hwriter⟩ := isWriteLock_iff.1 (eq_true_of_ne_false hw)
    rw [hreaders w (mem_singleton_self w)] at hwriter
    cases hwriter
  cases hrem : removeEntry name e.uid lri m with
  | none =>
    have hany : (lri.any fun e' => e'.uid = e.uid) = true := any_eq_true.2 ⟨e, he, by simp⟩
    rw [removeEntry, if_pos hany] at hrem
    split_ifs at hrem
  | some m' =>
    have hrun : rUnlock (lockArgs true name e.uid []) m = ((true, none), m') :=
      rUnlock_of_removed hlri hw hrem
    rw [hrun, held, (removeEntry_spec (hentries ▸ hrem)).2, if_pos rfl, held, hentries,
      map_eraseP_ticket hreaders]
    rfl

theorem serveRelease_held (hname : Sendable name) (isLocal : Bool) (hm : Sound m)
    (ht : t ∈ held name m) :
    held name (serveRelease isLocal name t m) = (held name m).erase t := by
  obtain ⟨e, he, rfl⟩ := mem_held.1 ht
  cases hlri : m.lookup name with
  | none => simp [entries, hlri] at he
  | some lri =>
    have hentries : entries m name = lri := by rw [entries, hlri, Option.getD_some]
    rw [hentries] at he
    unfold serveRelease
    rw [lockArgs_eq hname]
    rcases hm name lri hlri with ⟨w, rfl, hwriter⟩ | ⟨-, hreaders⟩
    · rw [mem_singleton.1 he, if_neg (by simp [ticket, hwriter])]
      refine (unlock_held hentries hwriter).trans ?_
      simp [held, hentries]
    · have hticket : ticket e = ⟨true, e.uid⟩ := by simp [ticket, hreaders e he]
      rw [hticket, if_pos rfl]
      exact rUnlock_held hlri hreaders he

end Servers

/-! ## Runs -/

theorem slot_le (isReadLock : Bool) (uid : Bytes) : slot isReadLock uid ≤ {⟨isReadLock, uid⟩} := by
  unfold slot
  split_ifs
  · exact le_rfl
  · exact Multiset.zero_le _

theorem Attempt.update_tickets_le (a : Attempt n) (k : Fin n) (rpc : Rpc) (k' : Fin n) :
    { a with rpcs := Function.update a.rpcs k rpc }.tickets k' ≤
      a.tickets k' + if k = k' ∧ rpc = .answered true then {⟨a.isReadLock, a.id⟩} else 0 := by
  have hreply : (if Function.update a.rpcs k rpc k' = .answered true then slot a.isReadLock a.id
    else 0) ≤
      (if a.rpcs k' = .answered true then slot a.isReadLock a.id else 0) +
        if k = k' ∧ rpc = .answered true then {⟨a.isReadLock, a.id⟩} else 0 := by
    by_cases hk : k = k'
    · subst hk
      by_cases hrpc : rpc = .answered true
      · simp only [Function.update_self, hrpc, if_true, and_self]
        exact (slot_le _ _).trans (Multiset.le_add_left _ _)
      · simp [hrpc]
    · simp [Function.update_of_ne (Ne.symm hk), hk]
  have hunderway : { a with rpcs := Function.update a.rpcs k rpc }.underway k' ≤
      a.underway k' + if k = k' ∧ rpc = .answered true then {⟨a.isReadLock, a.id⟩} else 0 :=
    (add_le_add hreply le_rfl).trans (add_right_comm _ _ _).le
  exact (add_le_add hunderway le_rfl).trans (add_right_comm _ _ _).le

theorem Attempt.served_eq {a a' : Attempt n} {k : Fin n} {locked : Bool}
    (h : a.served k locked = some a') :
    ∃ rpc, a' = { a with rpcs := Function.update a.rpcs k rpc } ∧
      (rpc = .answered true → locked = true) := by
  unfold served at h
  cases hrpc : a.rpcs k with
  | requested =>
    simp only [hrpc, Option.some.injEq] at h
    exact ⟨_, h.symm, by simp⟩
  | abandoned =>
    simp only [hrpc, Option.some.injEq] at h
    exact ⟨_, h.symm, by simp⟩
  | _ => simp [hrpc] at h

/-- Every ticket has an entry, and every lock that is held has its quorum of tickets. -/
structure Inv (name : Bytes) (s : System n) : Prop where
  sound : ∀ k, Sound (s.servers k)
  covered : ∀ k, s.tickets k ≤ held name (s.servers k)
  clients : ∀ c ∈ s.clients, c.Wf

namespace System

variable {name : Bytes} {s s' : System n}

theorem inv_init (name : Bytes) : Inv name (init n) where
  sound _ r lri h := by simp [init] at h
  covered k := by simp [init, tickets]
  clients c hc := by simp [init] at hc

theorem tickets_set {c : Nat} {client : Client n} (h : s.clients[c]? = some client) (k : Fin n) :
    ∃ rest, (s.clients.map (·.tickets k)).sum = client.tickets k + rest ∧
      ∀ client', ((s.clients.set c client').map (·.tickets k)).sum = client'.tickets k + rest :=
  sum_map_set (fun client : Client n => client.tickets k) h

theorem wf_set {c : Nat} {client : Client n} (h : Inv name s) (hclient : client.Wf) :
    ∀ c' ∈ s.clients.set c client, c'.Wf :=
  fun c' hc' => (mem_or_eq_of_mem_set hc').elim (h.clients c') fun h => h ▸ hclient

theorem inv_newDRWMutex (h : Inv name s) (isLocal : Fin n → Bool) :
    Inv name { s with clients := s.clients ++ [Client.new isLocal] } where
  sound := h.sound
  covered k := by
    have hnew : (Client.new isLocal).tickets k = 0 := by simp [Client.tickets, Client.new]
    simpa [tickets, hnew] using h.covered k
  clients c hc := by
    rcases mem_append.1 hc with hc | hc
    · exact h.clients c hc
    · rw [mem_singleton.1 hc]
      exact ⟨by simp [Client.new], by simp [Client.new, Client.lockFound, isLocked],
        by simp [Client.new]⟩

theorem inv_client {c : Nat} {client client' : Client n} {e : Client.Event n} {sent : Sent n}
    (h : Inv name s)
    (hc : s.clients[c]? = some client) (hstep : client.step e = some (client', sent)) :
    Inv name { s with
      clients := s.clients.set c client'
      releases := s.releases + client.posted sent } where
  sound := h.sound
  covered k := by
    obtain ⟨rest, hsum, hset⟩ := tickets_set hc k
    refine le_trans ?_ (h.covered k)
    have hposted : (client.posted sent k).map Prod.snd = sent k := by simp [Client.posted]
    simp only [tickets, hsum, hset, Pi.add_apply, Multiset.map_add, hposted]
    calc client'.tickets k + rest + ((s.releases k).map Prod.snd + sent k)
        = client'.tickets k + sent k + (rest + (s.releases k).map Prod.snd) := by abel
      _ ≤ client.tickets k + (rest + (s.releases k).map Prod.snd) :=
        add_le_add (Client.step_tickets_le hstep k) le_rfl
      _ = client.tickets k + rest + (s.releases k).map Prod.snd := (add_assoc _ _ _).symm
  clients := wf_set h (Client.step_wf (h.clients client (mem_of_getElem? hc)) hstep)

theorem inv_request (hname : Sendable name) {c j : Nat} {client : Client n} {a a' : Attempt n}
    {k : Fin n} {now : Int}
    (h : Inv name s) (hc : s.clients[c]? = some client) (hj : client.attempts[j]? = some a)
    (hserved : a.served k (serve (client.isLocal k) name now a (s.servers k)).1 = some a') :
    Inv name { s with
      servers := Function.update s.servers k (serve (client.isLocal k) name now a (s.servers k)).2
      clients := s.clients.set c { client with attempts := client.attempts.set j a' } } where
  sound k' := by
    by_cases hk : k' = k
    · subst hk
      simpa using serve_sound (h.sound k') (client.isLocal k') a
    · simpa [Function.update_of_ne hk] using h.sound k'
  covered k' := by
    obtain ⟨rest, hsum, hset⟩ := tickets_set hc k'
    obtain ⟨rest', hclient, hset'⟩ := Client.tickets_set hj k'
    obtain ⟨rpc, rfl, hrpc⟩ := Attempt.served_eq hserved
    have hle := h.covered k'
    simp only [tickets, hsum, hset, hclient, hset'] at hle ⊢
    have hmore : { a with rpcs := Function.update a.rpcs k rpc }.tickets k' + rest' + rest +
        (s.releases k').map Prod.snd ≤ held name (s.servers k') + if k = k' ∧ rpc = .answered true
            then {⟨a.isReadLock, a.id⟩} else 0 := by
      refine le_trans ?_ (add_le_add hle le_rfl)
      calc _ ≤ a.tickets k' + _ + rest' + rest + (s.releases k').map Prod.snd := by
            gcongr
            exact a.update_tickets_le k rpc k'
        _ = _ := by abel
    refine hmore.trans ?_
    by_cases hk : k = k'
    · subst hk
      rw [Function.update_self, serve_held hname]
      refine add_le_add le_rfl ?_
      by_cases hanswered : rpc = .answered true
      · rw [if_pos ⟨rfl, hanswered⟩, if_pos (hrpc hanswered)]
      · rw [if_neg fun h => hanswered h.2]
        exact Multiset.zero_le _
    · rw [Function.update_of_ne (Ne.symm hk), if_neg fun h => hk h.1, add_zero]
  clients := by
    refine wf_set h (Client.Wf.set (h.clients client (mem_of_getElem? hc)) ?_)
    obtain ⟨rpc, rfl, -⟩ := Attempt.served_eq hserved
    exact (h.clients client (mem_of_getElem? hc)).attempts a (mem_of_getElem? hj)

theorem inv_release (hname : Sendable name) {k : Fin n} {isLocal : Bool} {t : Ticket}
    (h : Inv name s) (ht : (isLocal, t) ∈ s.releases k) :
    Inv name { s with
      servers := Function.update s.servers k (serveRelease isLocal name t (s.servers k))
      releases := Function.update s.releases k ((s.releases k).erase (isLocal, t)) } where
  sound k' := by
    by_cases hk : k' = k
    · subst hk
      simpa using serveRelease_sound (h.sound k') isLocal t
    · simpa [Function.update_of_ne hk] using h.sound k'
  covered k' := by
    by_cases hk : k' = k
    · subst hk
      have hticket : t ∈ (s.releases k').map Prod.snd := Multiset.mem_map_of_mem Prod.snd ht
      have hheld : t ∈ held name (s.servers k') :=
        Multiset.mem_of_le ((Multiset.le_add_left _ _).trans (h.covered k')) hticket
      simp only [tickets, Function.update_self]
      rw [serveRelease_held hname isLocal (h.sound k') hheld,
        Multiset.map_erase_of_mem Prod.snd _ ht, ← Multiset.erase_add_right_pos _ hticket]
      exact Multiset.erase_le_erase t (h.covered k')
    · simpa [tickets, Function.update_of_ne hk] using h.covered k'
  clients := h.clients

theorem inv_step (hname : Sendable name) {e : Event n} (h : Inv name s)
    (hstep : step name s e = some s') :
    Inv name s' := by
  cases e with
  | newDRWMutex isLocal =>
    cases hstep
    exact inv_newDRWMutex h isLocal
  | client c e =>
    cases hc : s.clients[c]? with
    | none => simp [step, hc] at hstep
    | some client =>
      simp only [step, hc, Option.map_eq_some_iff, Prod.exists] at hstep
      obtain ⟨client', sent, hclient, rfl⟩ := hstep
      exact inv_client h hc hclient
  | request c j k now =>
    cases hc : s.clients[c]? with
    | none => simp [step, hc] at hstep
    | some client =>
      cases hj : client.attempts[j]? with
      | none => simp [step, hc, hj] at hstep
      | some a =>
        simp only [step, hc, hj, Option.map_eq_some_iff] at hstep
        obtain ⟨a', hserved, rfl⟩ := hstep
        exact inv_request hname h hc hj hserved
  | release k isLocal t =>
    simp only [step, Option.ite_none_right_eq_some, Option.some.injEq] at hstep
    obtain ⟨ht, rfl⟩ := hstep
    exact inv_release hname h ht

theorem inv_run (hname : Sendable name) (events : List (Event n)) (h : Inv name s)
    (hrun : run name s events = some s') : Inv name s' := by
  induction events generalizing s with
  | nil =>
    cases hrun
    exact h
  | cons e events ih =>
    rw [run, foldlM_cons, Option.bind_eq_bind, Option.bind_eq_some_iff] at hrun
    obtain ⟨s₁, hstep, hrun⟩ := hrun
    exact ih (inv_step hname h hstep) hrun

end System

/-! ## Exclusion -/

section Exclusion

variable {name : Bytes} {s : System n} {i j : Nat} {c c₁ c₂ : Client n}

/-- A `GetLock` has returned true, and `Unlock` has not been called since. -/
def Client.HoldsWrite (c : Client n) : Prop := c.lockFound = true

def Client.HoldsRead (c : Client n) : Prop := c.readersLocks ≠ []

theorem Client.slot_le_tickets_write (c : Client n) (k : Fin n) :
    slot false (c.writeLocks k) ≤ c.tickets k :=
  (Multiset.le_add_left _ _).trans (Multiset.le_add_right _ _)

theorem Client.slot_le_tickets_read {locks : Fin n → Bytes}
    (h : locks ∈ c.readersLocks) (k : Fin n) :
    slot true (locks k) ≤ c.tickets k := by
  have hslot : slot true (locks k) ∈ c.readersLocks.map fun locks => slot true (locks k) :=
    mem_map.2 ⟨locks, h, rfl⟩
  exact (single_le_sum (fun _ _ => Multiset.zero_le _) _ hslot).trans (Multiset.le_add_left _ _)

theorem Inv.two_le (h : Inv name s) (hi : s.clients[i]? = some c₁)
    (hj : s.clients[j]? = some c₂) (hij : i ≠ j)
    (k : Fin n) : c₁.tickets k + c₂.tickets k ≤ held name (s.servers k) := by
  obtain ⟨rest, hsum, hset⟩ := System.tickets_set hi k
  have hnew : (Client.new c₁.isLocal).tickets k = 0 := by simp [Client.tickets, Client.new]
  have hj' : (s.clients.set i (Client.new c₁.isLocal))[j]? = some c₂ := by
    rw [List.getElem?_set_ne hij, hj]
  have hmem : c₂.tickets k ∈ (s.clients.set i (Client.new c₁.isLocal)).map (·.tickets k) :=
    mem_map.2 ⟨c₂, mem_of_getElem? hj', rfl⟩
  have hrest : c₂.tickets k ≤ rest := by
    have hle := single_le_sum (fun _ _ => Multiset.zero_le _) _ hmem
    rwa [hset, hnew, zero_add] at hle
  refine le_trans ?_ (h.covered k)
  rw [System.tickets, hsum, add_assoc]
  exact add_le_add le_rfl (hrest.trans (Multiset.le_add_right _ _))

theorem not_pair_le_held {m : LockMap} (hm : Sound m) (uid : Bytes) (t : Ticket) :
    ¬ ({⟨false, uid⟩} + {t} ≤ held name m) := by
  intro hle
  have hmem : ⟨false, uid⟩ ∈ held name m := Multiset.mem_of_le hle (by simp)
  have hcard := Multiset.card_le_card hle
  obtain ⟨e, he, hticket⟩ := mem_held.1 hmem
  cases hlri : m.lookup name with
  | none => simp [entries, hlri] at he
  | some lri =>
    have hentries : entries m name = lri := by rw [entries, hlri, Option.getD_some]
    rcases hm name lri hlri with ⟨w, rfl, -⟩ | ⟨-, hreaders⟩
    · simp [held, hentries] at hcard
    · simp [ticket, hreaders e (hentries ▸ he)] at hticket

theorem Inv.not_both_locked (h : Inv name s) (hi : s.clients[i]? = some c₁)
    (hj : s.clients[j]? = some c₂) (hij : i ≠ j) {isReadLock : Bool} {locks : Fin n → Bytes}
    (hlocks : ∀ k, slot isReadLock (locks k) ≤ c₂.tickets k) (k : Fin n) :
    ¬ (isLocked (c₁.writeLocks k) = true ∧ isLocked (locks k) = true) := by
  rintro ⟨h₁, h₂⟩
  have hle := (add_le_add (c₁.slot_le_tickets_write k) (hlocks k)).trans (h.two_le hi hj hij k)
  rw [slot, slot, if_pos h₁, if_pos h₂] at hle
  exact not_pair_le_held (h.sound k) _ _ hle

theorem quorumMet_overlap {locks₁ locks₂ : Fin n → Bytes} {isReadLock : Bool}
    (h₁ : quorumMet locks₁ false = true) (h₂ : quorumMet locks₂ isReadLock = true) :
    ∃ k, isLocked (locks₁ k) = true ∧ isLocked (locks₂ k) = true := by
  apply exists_of_tally
  have hw : dquorum n ≤ tally fun k => isLocked (locks₁ k) = true := by simpa [quorumMet] using h₁
  cases isReadLock with
  | false =>
    have hw₂ : dquorum n ≤ tally fun k => isLocked (locks₂ k) = true := by
      simpa [quorumMet] using h₂
    unfold dquorum at hw hw₂
    omega
  | true =>
    have hr : dquorumReads n ≤ tally fun k => isLocked (locks₂ k) = true := by
      simpa [quorumMet] using h₂
    unfold dquorum at hw
    unfold dquorumReads at hr
    omega

end Exclusion

/-- No client holds a write lock while another holds a lock. -/
def System.Exclusive (s : System n) : Prop :=
  ∀ (i j : Nat) (c₁ c₂ : Client n), i ≠ j → s.clients[i]? = some c₁ → s.clients[j]? = some c₂ →
    ¬ (c₁.HoldsWrite ∧ c₂.HoldsWrite) ∧ ¬ (c₁.HoldsWrite ∧ c₂.HoldsRead)

theorem System.exclusive_of_run {name : Bytes} (hname : Sendable name)
    {events : List (System.Event n)} {s : System n}
    (hrun : System.run name (System.init n) events = some s) : s.Exclusive := by
  intro i j c₁ c₂ hij hi hj
  have h := System.inv_run hname events (System.inv_init name) hrun
  have hwf₁ := h.clients c₁ (mem_of_getElem? hi)
  have hwf₂ := h.clients c₂ (mem_of_getElem? hj)
  constructor
  · rintro ⟨h₁, h₂⟩
    obtain ⟨k, hk⟩ := quorumMet_overlap (hwf₁.writeLocks h₁) (hwf₂.writeLocks h₂)
    exact h.not_both_locked hi hj hij c₂.slot_le_tickets_write k hk
  · rintro ⟨h₁, h₂⟩
    obtain ⟨locks, hlocks⟩ := exists_mem_of_ne_nil _ h₂
    obtain ⟨k, hk⟩ := quorumMet_overlap (hwf₁.writeLocks h₁) (hwf₂.readersLocks locks hlocks)
    exact h.not_both_locked hi hj hij (Client.slot_le_tickets_read hlocks) k hk

/-! ## Names that are not the same on all servers -/

theorem not_mem_restResources {name : Bytes} (h : ¬ Sendable name) : name ∉ restResources name := by
  intro hmem
  rw [restResources, mem_insertionSort, mem_map] at hmem
  obtain ⟨line, hline, hdrop⟩ := hmem
  have hsub : ∀ c ∈ dropCR line, c ∈ line := by
    unfold dropCR
    split_ifs
    · exact fun c hc => mem_of_mem_dropLast hc
    · exact fun c hc => hc
  by_cases hnewline : newline ∈ name
  · exact sep_not_mem_of_mem_splitOn hline (hsub _ (hdrop ▸ hnewline))
  · have hlast : name.getLast? = some carriageReturn := by
      by_contra hlast
      exact h ⟨hnewline, hlast⟩
    rw [splitOn_eq_singleton hnewline, mem_singleton] at hline
    rw [hline, dropCR, if_pos hlast] at hdrop
    have hlen := congrArg length hdrop
    have hpos : name ≠ [] := by
      rintro rfl
      cases hlast
    rw [length_dropLast] at hlen
    have := length_pos_of_ne_nil hpos
    omega

/-- A call of `GetLock` up to the request to its first server. -/
def asks {n : Nat} (c : Nat) (uid : Bytes) : List (System.Event n) :=
  [.client c (.getLock uid []), .client c (.lock 0)]

/-- The call takes the answer of a server. -/
def takes {n : Nat} (c : Nat) (k : Fin n) : List (System.Event n) :=
  [.client c (.attempt 0 (.respond k)), .client c (.attempt 0 .receive)]

def returns {n : Nat} (c : Nat) : List (System.Event n) :=
  [.client c (.attempt 0 .allReceived), .client c (.waited 0)]

/-- A server, a client of its own process that takes the lock, and one of another process that asks
for it. -/
def secondAsks : List (System.Event 1) :=
  [.newDRWMutex fun _ => true, .newDRWMutex fun _ => false] ++ asks 0 (lit "u") ++
    [.request 0 0 (.last 0) 7] ++
    takes 0 (.last 0) ++ returns 0 ++ asks 1 (lit "v")

/-- The client of the other process before its request is served. -/
def asking : Client 1 := { Client.new fun _ =>
    false with attempts := [Blocking.attempt 1 ⟨lit "v", [], false⟩] }

theorem exists_run_not_exclusive {name : Bytes} (h : ¬ Sendable name) :
    ∃ (events : List (System.Event 1)) (s : System 1),
      System.run name (System.init 1) events = some s ∧ ¬ s.Exclusive := by
  let first : LockMap := (LocalLocker.lock 7 (lockArgs true name (lit "u") []) ∅).2
  let answered : Attempt 1 :=
    { Blocking.attempt 1 ⟨lit "v", [], false⟩ with
      rpcs := Function.update (fun _ => .requested) (.last 0) (.answered true) }
  obtain ⟨s₁, c₁, hrun, hclients, hholds, hserver⟩ :
    ∃ s₁ c₁, System.run name (System.init 1) secondAsks = some s₁ ∧
      s₁.clients = [c₁, asking] ∧ c₁.HoldsWrite ∧ s₁.servers (.last 0) = first :=
        ⟨_, _, rfl, rfl, rfl, rfl⟩
  -- the server has the name, and the second request is for its lines
  have hgranted : (serve false name 9 (Blocking.attempt 1 ⟨lit "v", [], false⟩) first).1 =
      true := by
    have hfree : ∀ r ∈ (lockArgs false name (lit "v") []).resources, first.lookup r = none := by
      intro r hr
      have hne : r ≠ name := fun hrn => not_mem_restResources h (hrn ▸ hr)
      exact AList.lookup_insert_ne hne
    exact lock_granted_of_free hfree
  obtain ⟨s₂, hstep, hclients₂⟩ : ∃ s₂, System.step name s₁ (.request 1 0 (.last 0) 9) = some s₂ ∧
      s₂.clients = [c₁, { asking with attempts := [answered] }] := by
    rw [← hserver] at hgranted
    have hattempt : asking.attempts[0]? = some (Blocking.attempt 1 ⟨lit "v", [], false⟩) := rfl
    have hserved : (Blocking.attempt 1 ⟨lit "v", [], false⟩).served (.last 0) true =
      some answered := rfl
    have hlocal : asking.isLocal (.last 0) = false := rfl
    refine ⟨{ s₁ with
      servers := Function.update s₁.servers (.last 0)
        (serve false name 9 (Blocking.attempt 1 ⟨lit "v", [], false⟩)
        (s₁.servers (.last 0))).2
      clients := [c₁, { asking with attempts := [answered] }] }, ?_, rfl⟩
    simp only [System.step, hclients, getElem?_cons_succ, getElem?_cons_zero, hattempt, hlocal,
      hgranted, hserved]
    rfl
  obtain ⟨servers, clients, releases⟩ := s₂
  subst hclients₂
  obtain ⟨s₃, c₂, hrun₃, hclients₃, hholds₂⟩ : ∃ s₃ c₂,
      System.run name ⟨servers, [c₁, { asking with attempts := [answered] }], releases⟩
        (takes 1 (.last 0) ++ returns 1) = some s₃ ∧ s₃.clients = [c₁, c₂] ∧ c₂.HoldsWrite := by
    refine ⟨_, _, rfl, rfl, ?_⟩
    rfl
  refine ⟨secondAsks ++ .request 1 0 (.last 0) 9 :: (takes 1 (.last 0) ++ returns 1), s₃, ?_,
    fun hex => ?_⟩
  · rw [System.run, foldlM_append, ← System.run, hrun]
    simp only [Option.bind_eq_bind, Option.bind_some, foldlM_cons, hstep]
    exact hrun₃
  · exact (hex 0 1 c₁ c₂ (by decide) (by rw [hclients₃]; rfl) (by rw [hclients₃]; rfl)).1
      ⟨hholds, hholds₂⟩

/-- For a name that REST does not take apart, no two clients hold locks that exclude each other, in
any run, with any number of servers. For any other name there is a run in which two clients hold the
write lock. -/
theorem drwMutex_safe_iff (name : Bytes) :
    (∀ (n : Nat) (events : List (System.Event n)) (s : System n),
      System.run name (System.init n) events = some s → s.Exclusive) ↔ Sendable name := by
  constructor
  · intro hsafe
    by_contra h
    obtain ⟨events, s, hrun, hnot⟩ := exists_run_not_exclusive h
    exact hnot (hsafe 1 events s hrun)
  · intro hname n events s hrun
    exact System.exclusive_of_run hname hrun

/-- Both servers answer the `GetLock` of a client. -/
def locksBoth (c : Nat) (uid : Bytes) : List (System.Event 2) :=
  let first : Fin 2 := (Fin.last 0).castSucc
  asks c uid ++ [.request c 0 first 7, .request c 0 (.last 1) 7] ++ takes c first ++
    takes c (.last 1) ++ returns c

/-- Two processes with a lock server each, and a client in each of them. -/
def crossRun : List (System.Event 2) :=
  [.newDRWMutex fun k => k.val == 0, .newDRWMutex fun k => k.val == 1] ++ locksBoth 0 (lit "u") ++
    locksBoth 1 (lit "v")

/-- Each server has the name with the newline for its own process and the two lines for the other
one. -/
theorem drwMutex_unsafe_newline :
    ∃ s, System.run (lit "a\nb") (System.init 2) crossRun = some s ∧ ¬ s.Exclusive := by
  obtain ⟨s, c₁, c₂, hrun, hi, hj, h₁, h₂⟩ : ∃ s c₁ c₂, System.run (lit "a\nb") (System.init 2)
    crossRun = some s ∧
      s.clients[0]? = some c₁ ∧ s.clients[1]? = some c₂ ∧ c₁.HoldsWrite ∧ c₂.HoldsWrite :=
    ⟨_, _, _, rfl, rfl, rfl, rfl, rfl⟩
  exact ⟨s, hrun, fun hex => (hex 0 1 c₁ c₂ (by decide) hi hj).1 ⟨h₁, h₂⟩⟩

end S3Kinetic.Dsync
