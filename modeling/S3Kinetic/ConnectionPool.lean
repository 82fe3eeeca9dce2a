import S3Kinetic.Lib.Quorum

/-!
# Taking and releasing connections

`GetKineticConnection` and `ReleaseConnection` work on a map of the connections in use and a
counter, under one mutex. A turn of the loop of `GetKineticConnection` takes the first free
connection, or waits when the counter is at its limit; a release of a connection in use frees it and
wakes all that wait, and any other release does nothing. `connectionPool_safe` is about all orders
of these critical sections.
-/

namespace S3Kinetic.ConnectionPool

open Quorum List

/-- `KConnsPool`, with the goroutines that are in `cond.Wait`. A key that is not in the map reads as
`false`. -/
structure KConnsPool where
  inUsed : Int → Bool
  totalInUsed : Int
  totalInUsedMax : Int
  waiting : List Nat

/-- The pool that `NewKineticObjectLayer` makes. -/
def newPool : KConnsPool := ⟨fun _ => false, 0, 0, []⟩

/-- `ReleaseConnection`; `none` is its panic. -/
def releaseConnection (pool : KConnsPool) (ix : Int) : Option KConnsPool :=
  if pool.inUsed ix = true then
    if pool.totalInUsed - 1 < 0 then none
    else some { pool with
      inUsed := Function.update pool.inUsed ix false
      totalInUsed := pool.totalInUsed - 1
      -- `cond.Broadcast`
      waiting := [] }
  else some pool

section

variable (maxQueue : Nat)

def freeConn (pool : KConnsPool) : Option Nat :=
  if pool.totalInUsed < maxQueue then (List.range maxQueue).find? fun i => pool.inUsed i =
    false else none

/-- A turn of the loop of `GetKineticConnection` by goroutine `g`, to its `Wait` or to the `Unlock`
behind the loop. -/
def getTurn (pool : KConnsPool) (g : Nat) : KConnsPool × Option Nat :=
  match freeConn maxQueue pool with
  | none => ({ pool with waiting := g :: pool.waiting }, none)
  | some i =>
    let totalInUsed := pool.totalInUsed + 1
    ({ pool with
      inUsed := Function.update pool.inUsed i true
      totalInUsed := totalInUsed
      totalInUsedMax := if totalInUsed > pool.totalInUsedMax then totalInUsed
        else pool.totalInUsedMax }, some i)

inductive Event where
  | returns (g i : Nat)
  | waits (g : Nat)
  | releases (ix : Int)

inductive Step : KConnsPool → Event → KConnsPool → Prop
  | get {pool pool' : KConnsPool} {g i : Nat} (hawake : g ∉ pool.waiting)
      (h : getTurn maxQueue pool g = (pool', some i)) : Step pool (.returns g i) pool'
  | wait {pool pool' : KConnsPool} {g : Nat} (hawake : g ∉ pool.waiting)
      (h : getTurn maxQueue pool g = (pool', none)) : Step pool (.waits g) pool'
  | release {pool pool' : KConnsPool} {ix : Int} (h : releaseConnection pool ix = some pool') :
    Step pool (.releases ix) pool'

/-- The pool after the critical sections of a history, by any goroutines. -/
inductive Run : List Event → KConnsPool → Prop
  | start : Run [] newPool
  | step {hist : List Event} {pool pool' : KConnsPool} {e : Event} (hrun : Run hist pool)
      (hstep : Step maxQueue pool e pool') : Run (hist ++ [e]) pool'

def inUse (pool : KConnsPool) : Nat := tally fun i : Fin maxQueue => pool.inUsed i = true

structure Inv (pool : KConnsPool) : Prop where
  count : pool.totalInUsed = inUse maxQueue pool
  range : ∀ ix, pool.inUsed ix = true → ∃ i : Fin maxQueue, ix = i
  /-- Nobody waits while there is a free connection. -/
  waits : pool.waiting ≠ [] → pool.totalInUsed = maxQueue

end

variable {maxQueue : Nat} {pool pool' : KConnsPool} {hist : List Event} {e : Event}

/-! ## One connection -/

theorem inUse_update (pool : KConnsPool) (i : Fin maxQueue) :
    ∃ rest, inUse maxQueue pool = rest + (pool.inUsed i).toNat ∧
    ∀ (b : Bool) (p : KConnsPool), p.inUsed = Function.update pool.inUsed (i : Int) b →
      inUse maxQueue p = rest + b.toNat := by
  have hnat : ∀ b : Bool, (if b = true then 1 else 0) = b.toNat := by decide
  obtain ⟨rest, h, hupdate⟩ := tally_update (fun j : Fin maxQueue => pool.inUsed j) i fun b => b =
    true
  refine ⟨rest, by rw [inUse, h, hnat], fun b p hp => ?_⟩
  have hfun : (fun j : Fin maxQueue => p.inUsed j) =
      Function.update (fun j : Fin maxQueue => pool.inUsed j) i b := by
    funext j
    rw [hp]
    by_cases hj : j = i
    · subst hj
      simp
    · have hne : ((j : Nat) : Int) ≠ ((i : Nat) : Int) :=
        fun heq => hj (Fin.ext (Int.ofNat.inj heq))
      rw [Function.update_of_ne hne, Function.update_of_ne hj]
  have hcount := hupdate b
  rw [← hfun, hnat] at hcount
  exact hcount

theorem inUse_le (pool : KConnsPool) : inUse maxQueue pool ≤ maxQueue := tally_le _

theorem Inv.freeConn (h : Inv maxQueue pool) (hlt : pool.totalInUsed < maxQueue) :
    ∃ i, ConnectionPool.freeConn maxQueue pool = some i := by
  rw [ConnectionPool.freeConn, if_pos hlt]
  by_contra hnone
  have hall : ∀ i ∈ List.range maxQueue, ¬ pool.inUsed i = false := by
    have := Option.eq_none_iff_forall_ne_some.2 fun i hi => hnone ⟨i, hi⟩
    simpa [List.find?_eq_none] using this
  have hfull : inUse maxQueue pool = maxQueue :=
    tally_eq_of_forall fun i => by simpa using hall i (List.mem_range.2 i.isLt)
  have := h.count
  omega

theorem freeConn_eq_some {i : Nat} (h : freeConn maxQueue pool = some i) :
    pool.totalInUsed < maxQueue ∧ i < maxQueue ∧ pool.inUsed i = false := by
  unfold freeConn at h
  split_ifs at h with hlt
  exact ⟨hlt, List.mem_range.1 (mem_of_find?_eq_some h), by simpa using List.find?_some h⟩

/-! ## Steps -/

theorem getTurn_eq_some {g i : Nat} (h : getTurn maxQueue pool g = (pool', some i)) :
    freeConn maxQueue pool = some i ∧ pool'.inUsed = Function.update pool.inUsed (i : Int) true ∧
      pool'.totalInUsed = pool.totalInUsed + 1 ∧ pool'.waiting = pool.waiting := by
  unfold getTurn at h
  split at h
  · cases h
  · next hfree =>
    cases h
    exact ⟨hfree, rfl, rfl, rfl⟩

theorem getTurn_eq_none {g : Nat} (h : getTurn maxQueue pool g = (pool', none)) :
    freeConn maxQueue pool = none ∧ pool' = { pool with waiting := g :: pool.waiting } := by
  unfold getTurn at h
  split at h
  · next hfree =>
    cases h
    exact ⟨hfree, rfl⟩
  · cases h

theorem releaseConnection_cases {ix : Int} (h : releaseConnection pool ix = some pool') :
    (pool.inUsed ix = true ∧ pool' = { pool with
      inUsed := Function.update pool.inUsed ix false
      totalInUsed := pool.totalInUsed - 1, waiting := [] }) ∨
      (pool.inUsed ix = false ∧ pool' = pool) := by
  unfold releaseConnection at h
  split_ifs at h with hused hneg
  · exact .inl ⟨hused, (Option.some.inj h).symm⟩
  · exact .inr ⟨by simpa using hused, (Option.some.inj h).symm⟩

theorem inv_newPool : Inv maxQueue newPool := by
  refine ⟨?_, fun ix h => ?_, fun h => absurd rfl h⟩
  · have : inUse maxQueue newPool = 0 := tally_eq_zero fun _ => by simp [newPool]
    rw [this]
    rfl
  · cases h

theorem Inv.step (h : Inv maxQueue pool) (hstep : Step maxQueue pool e pool') :
    Inv maxQueue pool' := by
  cases hstep with
  | get hawake hget =>
    rename_i g i
    obtain ⟨hfree, hused, htotal, hwaiting⟩ := getTurn_eq_some hget
    obtain ⟨hlt, hi, hfalse⟩ := freeConn_eq_some hfree
    obtain ⟨rest, hbefore, hafter⟩ := inUse_update pool ⟨i, hi⟩
    have hcount := h.count
    have hnew := hafter true pool' hused
    rw [hfalse] at hbefore
    refine ⟨?_, fun ix hix => ?_, fun hw => ?_⟩
    · simp only [Bool.toNat_true, Bool.toNat_false] at hbefore hnew
      omega
    · rw [hused] at hix
      by_cases heq : ix = i
      · exact ⟨⟨i, hi⟩, heq⟩
      · rw [Function.update_of_ne heq] at hix
        exact h.range ix hix
    · rw [hwaiting] at hw
      have := h.waits hw
      omega
  | wait hawake hget =>
    obtain ⟨hfree, rfl⟩ := getTurn_eq_none hget
    refine ⟨h.count, h.range, fun _ => ?_⟩
    have hle : inUse maxQueue pool ≤ maxQueue := inUse_le pool
    have hcount := h.count
    by_contra hne
    obtain ⟨i, hi⟩ := h.freeConn (by dsimp only at hne; omega)
    rw [hfree] at hi
    cases hi
  | release hrel =>
    rename_i ix
    rcases releaseConnection_cases hrel with ⟨hused, rfl⟩ | ⟨-, rfl⟩
    · obtain ⟨i, rfl⟩ := h.range ix hused
      obtain ⟨rest, hbefore, hafter⟩ := inUse_update pool i
      have hcount := h.count
      rw [hused] at hbefore
      refine ⟨?_, fun ix hix => ?_, fun hw => absurd rfl hw⟩
      · rw [hafter false _ rfl]
        simp only [Bool.toNat_true, Bool.toNat_false] at hbefore ⊢
        omega
      · dsimp only at hix
        by_cases heq : ix = i
        · exact ⟨i, heq⟩
        · rw [Function.update_of_ne heq] at hix
          exact h.range ix hix
    · exact h

theorem Run.inv (h : Run maxQueue hist pool) : Inv maxQueue pool := by
  induction h with
  | start => exact inv_newPool
  | step _ hstep ih => exact ih.step hstep

theorem Inv.releaseConnection_ne_none (h : Inv maxQueue pool) (ix : Int) :
    releaseConnection pool ix ≠ none := by
  unfold releaseConnection
  split_ifs with hused hneg
  · obtain ⟨i, rfl⟩ := h.range ix hused
    have hpos : 0 < inUse maxQueue pool := tally_pos.2 ⟨i, hused⟩
    have := h.count
    omega
  · simp
  · simp

/-! ## The connections that have been returned -/

theorem Step.keeps {ix : Int} (hstep : Step maxQueue pool e pool') (he : e ≠ .releases ix)
    (h : pool.inUsed ix = true) :
    pool'.inUsed ix = true := by
  cases hstep with
  | get hawake hget =>
    rw [(getTurn_eq_some hget).2.1, Function.update_apply]
    split_ifs
    · rfl
    · exact h
  | wait hawake hget =>
    rw [(getTurn_eq_none hget).2]
    exact h
  | release hrel =>
    rcases releaseConnection_cases hrel with ⟨-, rfl⟩ | ⟨-, rfl⟩
    · have hne : ix ≠ _ := fun heq => he (congrArg Event.releases heq.symm)
      dsimp only
      rwa [Function.update_of_ne hne]
    · exact h

theorem Run.held (h : Run maxQueue hist pool) {pre mid : List Event} {g i : Nat}
    (hhist : hist = pre ++ .returns g i :: mid)
    (hmid : .releases (i : Int) ∉ mid) : pool.inUsed i = true := by
  induction h generalizing mid with
  | start => simp at hhist
  | step hrun hstep ih =>
    rename_i hist pool pool' e
    rcases eq_nil_or_concat' mid with rfl | ⟨mid, e', rfl⟩
    · obtain ⟨-, rfl⟩ := append_inj' hhist rfl |>.imp_right fun h => (List.cons.inj h).1
      cases hstep with
      | get hawake hget => rw [(getTurn_eq_some hget).2.1, Function.update_self]
    · rw [← cons_append, ← append_assoc] at hhist
      obtain ⟨rfl, heq⟩ := append_inj' hhist rfl
      obtain ⟨rfl, -⟩ := List.cons.inj heq
      have hnot : e ≠ .releases (i : Int) ∧ .releases (i : Int) ∉ mid := by
        simp only [mem_append, mem_singleton, not_or] at hmid
        exact ⟨fun h => hmid.2 h.symm, hmid.1⟩
      exact hstep.keeps hnot.1 (ih rfl hnot.2)

theorem Run.released (h : Run maxQueue hist pool) {pre mid post : List Event} {g g' i : Nat}
    (hhist : hist = pre ++ .returns g i :: (mid ++ .returns g' i :: post)) :
    .releases (i : Int) ∈ mid := by
  induction h generalizing post with
  | start => simp at hhist
  | step hrun hstep ih =>
    rename_i hist pool pool' e
    rcases eq_nil_or_concat' post with rfl | ⟨post, e', rfl⟩
    · rw [← cons_append, ← append_assoc] at hhist
      obtain ⟨rfl, heq⟩ := append_inj' hhist rfl
      obtain ⟨rfl, -⟩ := List.cons.inj heq
      by_contra hmid
      have hused := hrun.held rfl hmid
      cases hstep with
      | get hawake hget =>
        rw [(freeConn_eq_some (getTurn_eq_some hget).1).2.2] at hused
        cases hused
    · rw [← cons_append, ← append_assoc, ← cons_append, ← append_assoc] at hhist
      obtain ⟨rfl, -⟩ := append_inj' hhist rfl
      exact ih (append_assoc pre _ _)

theorem connectionPool_safe (h : Run maxQueue hist pool) :
    pool.totalInUsed = inUse maxQueue pool ∧ (∀ ix, pool.inUsed ix = true → 0 ≤ ix ∧
      ix < maxQueue) ∧
      0 ≤ pool.totalInUsed ∧ pool.totalInUsed ≤ maxQueue ∧
        (∀ ix, releaseConnection pool ix ≠ none) ∧
      (pool.totalInUsed < maxQueue → ∀ g, ∃ pool' i, getTurn maxQueue pool g = (pool', some i)) ∧
      ∀ pre mid post g g' i, hist = pre ++ .returns g i :: (mid ++ .returns g' i :: post) →
        .releases (i : Int) ∈ mid := by
  have hinv := h.inv
  have hle : inUse maxQueue pool ≤ maxQueue := inUse_le pool
  have hcount := hinv.count
  refine ⟨hcount, fun ix hix => ?_, by omega, by omega, hinv.releaseConnection_ne_none,
    fun hlt g => ?_, fun pre mid post g g' i hhist => h.released hhist⟩
  · obtain ⟨i, rfl⟩ := hinv.range ix hix
    have := i.isLt
    omega
  · obtain ⟨i, hi⟩ := hinv.freeConn hlt
    rw [getTurn, hi]
    exact ⟨_, i, rfl⟩

/-- One connection, taken, released twice and taken again while another goroutine waits for it. -/
theorem connectionPool_safe_one : ∃ pool,
    Run 1 [.returns 1 0, .waits 2, .releases 0, .releases 0, .returns 2 0] pool ∧
      pool.totalInUsed = inUse 1 pool := by
  have hrun : Run 1 [.returns 1 0, .waits 2, .releases 0, .releases 0, .returns 2 0] _ :=
    .step (.step (.step (.step (.step .start (.get (by decide) rfl)) (.wait (by decide) rfl))
      (.release rfl)) (.release rfl))
      (.get (by decide) rfl)
  exact ⟨_, hrun, (connectionPool_safe hrun).1⟩

end S3Kinetic.ConnectionPool
