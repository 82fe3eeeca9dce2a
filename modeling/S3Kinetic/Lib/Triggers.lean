import S3Kinetic.Lib.Quorum
import S3Kinetic.Lib.Schedule

/-!
# As many results as are needed

A coordinator wants `need` results out of `n` tasks, each of which may fail. It starts one task for
every trigger that it takes from a channel, in order, and puts `need` triggers there at the
beginning. A task that fails sends a trigger for another one; a task that succeeds sends a `false`,
which starts nothing. The coordinator leaves its loop when it sees enough results or has no task
left to start, and then waits for the tasks that run.

`run` takes the steps of coordinator and tasks in any order. It always ends, and with enough results
if enough tasks have one (`finished_run`, `Inv.enough`).
-/

namespace Triggers

open Quorum List

variable {n : Nat} {β : Type*}

inductive Task (β : Type*) where
  | idle
  | started
  /-- The result is known and its trigger not yet sent. -/
  | sending (result : Option β)
  | done (result : Option β)

namespace Task

def result : Task β → Option β
  | sending r | done r => r
  | _ => none

def isStarted : Task β → Bool
  | started => true
  | _ => false

def isSending : Task β → Bool
  | sending _ => true
  | _ => false

end Task

structure State (n : Nat) (β : Type*) where
  ch : List Bool
  next : Nat
  task : Fin n → Task β
  left : Bool

def State.got (s : State n β) : Nat := tally fun i => (s.task i).result.isSome = true

def State.started (s : State n β) : Nat := tally fun i => (s.task i).isStarted = true

def State.sending (s : State n β) : Nat := tally fun i => (s.task i).isSending = true

inductive Event (n : Nat) where
  | receive
  | finish (i : Fin n)
  | send (i : Fin n)

/-- The coordinator's loop at a trigger. -/
def receive (need : Nat) (s : State n β) (trigger : Bool) : State n β :=
  if need ≤ s.got then { s with left := true }
  else if h : s.next < n then
    if trigger then
      { s with next := s.next + 1, task := Function.update s.task ⟨s.next, h⟩ .started }
    else s
  else { s with left := true }

def step (outcome : Fin n → Option β) (need : Nat) (s : State n β) : Event n → Option (State n β)
  | .receive =>
    match s.left, s.ch with
    | false, trigger :: ch => some (receive need { s with ch := ch } trigger)
    | _, _ => none
  | .finish i =>
    match s.task i with
    | .started => some { s with task := Function.update s.task i (.sending (outcome i)) }
    | _ => none
  | .send i =>
    match s.task i with
    | .sending r =>
      some { s with ch := s.ch ++ [r.isNone], task := Function.update s.task i (.done r) }
    | _ => none

def init (n : Nat) (β : Type*) (need : Nat) : State n β :=
  ⟨List.replicate need true, 0, fun _ => .idle, false⟩

def events (n : Nat) : List (Event n) :=
  .receive :: (List.finRange n).map .finish ++ (List.finRange n).map .send

/-- Coordinator and tasks in the order that `pick` chooses. -/
def run (outcome : Fin n → Option β) (need : Nat) (pick : Nat → Nat) :
    Nat → State n β → State n β :=
  Schedule.run (step outcome need) (events n) pick

def State.measure (s : State n β) : Nat :=
  4 * (n - s.next) + 3 * s.started + 2 * s.sending + s.ch.length + s.left.not.toNat

def State.Finished (s : State n β) : Prop :=
  s.left = true ∧ ∀ i, (s.task i).isStarted = false ∧ (s.task i).isSending = false

def State.sendingResult (s : State n β) : Nat :=
  tally fun i => (s.task i).isSending = true ∧ (s.task i).result.isSome = true

structure Inv (outcome : Fin n → Option β) (need : Nat) (s : State n β) : Prop where
  idle : ∀ i : Fin n, s.task i = .idle ↔ s.next ≤ i
  result : ∀ i r, s.task i = .sending r ∨ s.task i = .done r → r = outcome i
  /-- Every trigger is in the channel or will be sent by a task, but for those of results taken from
  the channel. -/
  triggers : s.left = false →
    s.ch.length + s.started + s.sending + s.got = need + (s.ch.count false + s.sendingResult)
  /-- The coordinator has not taken as many results from the channel as it needs. -/
  wanting : s.left = false → s.got < need + (s.ch.count false + s.sendingResult)
  left : s.left = true → need ≤ s.got ∨ n ≤ s.next

structure Counts where
  started : Nat
  sending : Nat
  got : Nat
  sendingResult : Nat

def Task.counts (t : Task β) : Counts where
  started := t.isStarted.toNat
  sending := t.isSending.toNat
  got := t.result.isSome.toNat
  sendingResult := (t.isSending && t.result.isSome).toNat

@[simp] theorem counts_idle : (Task.idle : Task β).counts = ⟨0, 0, 0, 0⟩ := rfl

@[simp] theorem counts_started : (Task.started : Task β).counts = ⟨1, 0, 0, 0⟩ := rfl

@[simp] theorem counts_sending (r : Option β) :
    (Task.sending r).counts = ⟨0, 1, r.isSome.toNat, r.isSome.toNat⟩ := rfl

@[simp] theorem counts_done (r : Option β) : (Task.done r).counts = ⟨0, 0, r.isSome.toNat, 0⟩ := rfl

section Steps

variable {outcome : Fin n → Option β} {need : Nat} {s s' : State n β} {i : Fin n}

/-- The counts of a state in which one task is replaced. -/
theorem counts_update (s : State n β) (i : Fin n) : ∃ rest : Counts,
    (s.started = rest.started + (s.task i).counts.started ∧
      s.sending = rest.sending + (s.task i).counts.sending ∧
      s.got = rest.got + (s.task i).counts.got ∧ s.sendingResult = rest.sendingResult +
        (s.task i).counts.sendingResult) ∧
    ∀ s' : State n β, ∀ t, s'.task = Function.update s.task i t →
      s'.started = rest.started + t.counts.started ∧ s'.sending = rest.sending + t.counts.sending ∧
      s'.got = rest.got + t.counts.got ∧ s'.sendingResult = rest.sendingResult +
        t.counts.sendingResult := by
  have hnat : ∀ b : Bool, (if b = true then 1 else 0) = b.toNat := by decide
  have hand : ∀ b c : Bool, (if b = true ∧ c = true then 1 else 0) = (b && c).toNat := by decide
  obtain ⟨a, ha, ha'⟩ := tally_update s.task i fun t => t.isStarted = true
  obtain ⟨b, hb, hb'⟩ := tally_update s.task i fun t => t.isSending = true
  obtain ⟨c, hc, hc'⟩ := tally_update s.task i fun t => t.result.isSome = true
  obtain ⟨d, hd, hd'⟩ := tally_update s.task i fun t => t.isSending = true ∧ t.result.isSome = true
  refine ⟨⟨a, b, c, d⟩, ⟨?_, ?_, ?_, ?_⟩, fun s' t hs' => ⟨?_, ?_, ?_, ?_⟩⟩
  · rw [State.started, ha, hnat]
    rfl
  · rw [State.sending, hb, hnat]
    rfl
  · rw [State.got, hc, hnat]
    rfl
  · rw [State.sendingResult, hd, hand]
    rfl
  · rw [State.started, hs', ha', hnat]
    rfl
  · rw [State.sending, hs', hb', hnat]
    rfl
  · rw [State.got, hs', hc', hnat]
    rfl
  · rw [State.sendingResult, hs', hd', hand]
    rfl

theorem inv_init (hneed : 0 < need) : Inv outcome need (init n β need) := by
  have hstarted : (init n β need).started = 0 :=
    tally_eq_zero fun _ => by simp [init, Task.isStarted]
  have hsending : (init n β need).sending = 0 :=
    tally_eq_zero fun _ => by simp [init, Task.isSending]
  have hgot : (init n β need).got = 0 := tally_eq_zero fun _ => by simp [init, Task.result]
  have hresult : (init n β need).sendingResult = 0 :=
    tally_eq_zero fun _ => by simp [init, Task.result]
  have hlen : (init n β need).ch.length = need := length_replicate
  have hcount : (init n β need).ch.count false = 0 := by simp [init, count_replicate]
  refine ⟨fun i => by simp [init], fun i r h => by simp [init] at h, fun _ => ?_, fun _ => ?_,
    fun h => by simp [init] at h⟩
  · omega
  · omega

theorem Inv.finish (h : Inv outcome need s) (hi : s.task i = .started) :
    Inv outcome need { s with task := Function.update s.task i (.sending (outcome i)) } := by
  obtain ⟨rest, ⟨h₁, h₂, h₃, h₄⟩, hupdate⟩ := counts_update s i
  obtain ⟨h₁', h₂', h₃', h₄'⟩ :=
    hupdate { s with task := Function.update s.task i (.sending (outcome i)) } _ rfl
  rw [hi] at h₁ h₂ h₃ h₄
  simp only [counts_started, counts_sending] at h₁ h₂ h₃ h₄ h₁' h₂' h₃' h₄'
  refine ⟨fun j => ?_, fun j r hr => ?_, fun hleft => ?_, fun hleft => ?_, fun hleft => ?_⟩
  · by_cases hj : j = i
    · subst hj
      have hidle := h.idle j
      simp [hi] at hidle
      simpa using hidle
    · simpa [Function.update_of_ne hj] using h.idle j
  · by_cases hj : j = i
    · subst hj
      simpa [eq_comm] using hr
    · simp only [Function.update_of_ne hj] at hr
      exact h.result j r hr
  · have := h.triggers hleft
    dsimp only
    omega
  · have := h.wanting hleft
    dsimp only
    omega
  · have := h.left hleft
    dsimp only
    omega

theorem Inv.send {r : Option β} (h : Inv outcome need s) (hi : s.task i = .sending r) :
    Inv outcome need
      { s with ch := s.ch ++ [r.isNone], task := Function.update s.task i (.done r) } := by
  obtain ⟨rest, ⟨h₁, h₂, h₃, h₄⟩, hupdate⟩ := counts_update s i
  obtain ⟨h₁', h₂', h₃', h₄'⟩ :=
    hupdate { s with ch := s.ch ++ [r.isNone], task := Function.update s.task i (.done r) } _ rfl
  rw [hi] at h₁ h₂ h₃ h₄
  simp only [counts_sending, counts_done] at h₁ h₂ h₃ h₄ h₁' h₂' h₃' h₄'
  have hcount : (s.ch ++ [r.isNone]).count false = s.ch.count false + r.isSome.toNat := by
    cases r <;> simp
  have hlen : (s.ch ++ [r.isNone]).length = s.ch.length + 1 := by simp
  refine ⟨fun j => ?_, fun j r' hr => ?_, fun hleft => ?_, fun hleft => ?_, fun hleft => ?_⟩
  · by_cases hj : j = i
    · subst hj
      have hidle := h.idle j
      simp [hi] at hidle
      simpa using hidle
    · simpa [Function.update_of_ne hj] using h.idle j
  · by_cases hj : j = i
    · subst hj
      have hr' : r = r' := by simpa using hr
      exact hr' ▸ h.result j r (.inl hi)
    · simp only [Function.update_of_ne hj] at hr
      exact h.result j r' hr
  · have := h.triggers hleft
    dsimp only
    omega
  · have := h.wanting hleft
    dsimp only
    omega
  · have := h.left hleft
    dsimp only
    omega

theorem Inv.receive {trigger : Bool} {ch : List Bool} (h : Inv outcome need s)
    (hleft : s.left = false)
    (hch : s.ch = trigger :: ch) : Inv outcome need (receive need { s with ch := ch } trigger) := by
  have htriggers := h.triggers hleft
  have hwanting := h.wanting hleft
  have hcount : (trigger :: ch).count false = ch.count false + trigger.not.toNat := by
    cases trigger <;> simp
  rw [hch, length_cons, hcount] at htriggers
  rw [hch, hcount] at hwanting
  unfold Triggers.receive
  by_cases henough : need ≤ ({ s with ch := ch } : State n β).got
  · rw [if_pos henough]
    exact ⟨h.idle, h.result, by simp, by simp, fun _ => .inl henough⟩
  rw [if_neg henough]
  have hgot : s.got < need := Nat.lt_of_not_le henough
  by_cases hnext : s.next < n
  · rw [dif_pos hnext]
    cases trigger with
    | false =>
      rw [if_neg Bool.false_ne_true]
      refine ⟨h.idle, h.result, fun _ => ?_, fun _ => ?_, fun hl => by simp [hleft] at hl⟩
      · change ch.length + s.started + s.sending + s.got = need + (ch.count false + s.sendingResult)
        simp only [Bool.not_false, Bool.toNat_true] at htriggers
        omega
      · change s.got < need + (ch.count false + s.sendingResult)
        omega
    | true =>
      rw [if_pos rfl]
      have hidle := (h.idle ⟨s.next, hnext⟩).2 le_rfl
      obtain ⟨rest, ⟨h₁, h₂, h₃, h₄⟩, hupdate⟩ := counts_update s ⟨s.next, hnext⟩
      obtain ⟨h₁', h₂', h₃', h₄'⟩ := hupdate
        { s with
          ch := ch, next := s.next + 1
          task := Function.update s.task ⟨s.next, hnext⟩ .started } _ rfl
      rw [hidle] at h₁ h₂ h₃ h₄
      simp only [counts_idle, counts_started] at h₁ h₂ h₃ h₄ h₁' h₂' h₃' h₄'
      refine ⟨fun j => ?_, fun j r hr => ?_, fun _ => ?_, fun _ => ?_,
        fun hl => by simp [hleft] at hl⟩
      · dsimp only
        by_cases hj : j = ⟨s.next, hnext⟩
        · subst hj
          simp
        · have hne : (j : Nat) ≠ s.next := fun heq => hj (Fin.ext heq)
          rw [Function.update_of_ne hj, h.idle]
          omega
      · by_cases hj : j = ⟨s.next, hnext⟩
        · subst hj
          simp at hr
        · simp only [Function.update_of_ne hj] at hr
          exact h.result j r hr
      · simp only [Bool.not_true, Bool.toNat_false] at htriggers
        dsimp only
        omega
      · simp only [Bool.not_true, Bool.toNat_false] at hwanting
        dsimp only
        omega
  · rw [dif_neg hnext]
    exact ⟨h.idle, h.result, by simp, by simp, fun _ => .inr (Nat.le_of_not_lt hnext)⟩

variable {e : Event n}

theorem step_cases (hstep : step outcome need s e = some s') :
    (∃ trigger ch, s.left = false ∧ s.ch = trigger :: ch ∧
      s' = receive need { s with ch := ch } trigger) ∨
    (∃ i, s.task i = .started ∧
      s' = { s with task := Function.update s.task i (.sending (outcome i)) }) ∨
    ∃ i r, s.task i = .sending r ∧
      s' = { s with ch := s.ch ++ [r.isNone], task := Function.update s.task i (.done r) } := by
  cases e with
  | receive =>
    cases hleft : s.left with
    | true => simp [step, hleft] at hstep
    | false =>
      cases hch : s.ch with
      | nil => simp [step, hleft, hch] at hstep
      | cons trigger ch =>
        simp only [step, hleft, hch, Option.some.injEq] at hstep
        exact .inl ⟨trigger, ch, rfl, rfl, hstep.symm⟩
  | finish i =>
    cases hi : s.task i with
    | started =>
      simp only [step, hi, Option.some.injEq] at hstep
      exact .inr (.inl ⟨i, hi, hstep.symm⟩)
    | _ => simp [step, hi] at hstep
  | send i =>
    cases hi : s.task i with
    | sending r =>
      simp only [step, hi, Option.some.injEq] at hstep
      exact .inr (.inr ⟨i, r, hi, hstep.symm⟩)
    | _ => simp [step, hi] at hstep

theorem Inv.step (h : Inv outcome need s) (hstep : step outcome need s e = some s') :
    Inv outcome need s' := by
  rcases step_cases hstep with ⟨trigger, ch, hleft, hch, rfl⟩ | ⟨i, hi, rfl⟩ | ⟨i, r, hi, rfl⟩
  · exact h.receive hleft hch
  · exact h.finish hi
  · exact h.send hi

theorem step_measure_lt (h : Inv outcome need s) (hstep : step outcome need s e = some s') :
    s'.measure < s.measure := by
  rcases step_cases hstep with ⟨trigger, ch, hleft, hch, rfl⟩ | ⟨i, hi, rfl⟩ | ⟨i, r, hi, rfl⟩
  · have hlen : s.ch.length = ch.length + 1 := by rw [hch, length_cons]
    have hmeasure : s.measure = 4 * (n - s.next) + 3 * s.started + 2 * s.sending +
        s.ch.length + 1 := by
      rw [State.measure, hleft]
      rfl
    unfold receive
    split_ifs with henough hnext htrigger
    · change 4 * (n - s.next) + 3 * s.started + 2 * s.sending + ch.length + 0 < _
      omega
    · have hidle := (h.idle ⟨s.next, hnext⟩).2 le_rfl
      obtain ⟨rest, ⟨h₁, h₂, -⟩, hupdate⟩ := counts_update s ⟨s.next, hnext⟩
      obtain ⟨h₁', h₂', -⟩ := hupdate
        { s with
          ch := ch, next := s.next + 1
          task := Function.update s.task ⟨s.next, hnext⟩ .started } _ rfl
      rw [hidle] at h₁ h₂
      simp only [counts_idle, counts_started] at h₁ h₂ h₁' h₂'
      have hnext' : s.next < n := hnext
      change 4 * (n - (s.next + 1)) + 3 * _ + 2 * _ + ch.length + s.left.not.toNat < _
      rw [h₁', h₂', hleft, hmeasure]
      simp only [Bool.not_false, Bool.toNat_true]
      omega
    · rw [hmeasure, State.measure, hleft]
      change 4 * (n - s.next) + 3 * s.started + 2 * s.sending + ch.length + 1 < _
      omega
    · change 4 * (n - s.next) + 3 * s.started + 2 * s.sending + ch.length + 0 < _
      omega
  · obtain ⟨rest, ⟨h₁, h₂, -⟩, hupdate⟩ := counts_update s i
    obtain ⟨h₁', h₂', -⟩ := hupdate
      { s with task := Function.update s.task i (.sending (outcome i)) } _ rfl
    rw [hi] at h₁ h₂
    simp only [counts_started, counts_sending] at h₁ h₂ h₁' h₂'
    rw [State.measure, State.measure, h₁', h₂', h₁, h₂]
    dsimp only
    omega
  · obtain ⟨rest, ⟨h₁, h₂, -⟩, hupdate⟩ := counts_update s i
    obtain ⟨h₁', h₂', -⟩ := hupdate
      { s with ch := s.ch ++ [r.isNone], task := Function.update s.task i (.done r) } _ rfl
    rw [hi] at h₁ h₂
    simp only [counts_sending, counts_done] at h₁ h₂ h₁' h₂'
    rw [State.measure, State.measure, h₁', h₂', h₁, h₂]
    simp only [length_append, length_cons, length_nil]
    omega

theorem Inv.enabled_ne_nil (h : Inv outcome need s) (hs : ¬ s.Finished) :
    Schedule.enabled (Triggers.step outcome need) (events n) s ≠ [] := by
  by_cases hrun : ∃ i, s.task i = .started ∨ ∃ r, s.task i = .sending r
  · obtain ⟨i, hi | ⟨r, hi⟩⟩ := hrun
    · exact Schedule.enabled_ne_nil (e := .finish i) (by simp [events])
        (by simp [Triggers.step, hi])
    · exact Schedule.enabled_ne_nil (e := .send i) (by simp [events]) (by simp [Triggers.step, hi])
  · push Not at hrun
    have hquiet : ∀ i, (s.task i).isStarted = false ∧ (s.task i).isSending = false := by
      intro i
      cases hi : s.task i with
      | started => exact absurd hi (hrun i).1
      | sending r => exact absurd hi ((hrun i).2 r)
      | _ => exact ⟨rfl, rfl⟩
    have hleft : s.left = false := by
      by_contra hleft
      exact hs ⟨eq_true_of_ne_false hleft, hquiet⟩
    have hstarted : s.started = 0 := tally_eq_zero fun i => by simp [(hquiet i).1]
    have hsending : s.sending = 0 := tally_eq_zero fun i => by simp [(hquiet i).2]
    have htriggers := h.triggers hleft
    have hwanting := h.wanting hleft
    cases hch : s.ch with
    | nil =>
      rw [hch] at htriggers hwanting
      simp only [length_nil, count_nil] at htriggers hwanting
      omega
    | cons trigger ch =>
      exact Schedule.enabled_ne_nil (e := .receive) (by simp [events])
        (by simp [Triggers.step, hleft, hch])

variable {pick : Nat → Nat} {fuel : Nat}

theorem inv_run (h : Inv outcome need s) : Inv outcome need (run outcome need pick fuel s) :=
  Schedule.inv_run (fun _ _ _ => Inv.step) pick fuel h

theorem finished_run (h : Inv outcome need s) (hfuel : s.measure ≤ fuel) :
    (run outcome need pick fuel s).Finished :=
  Schedule.finished_run (fun _ _ _ => Inv.step) (fun _ _ _ => step_measure_lt) (fun _ =>
    Inv.enabled_ne_nil) h hfuel

theorem Inv.result_eq (h : Inv outcome need s) {b : β} (hb : (s.task i).result = some b) :
    outcome i = some b := by
  cases hi : s.task i with
  | sending r =>
    rw [hi] at hb
    exact (h.result i r (.inl hi)).symm.trans hb
  | done r =>
    rw [hi] at hb
    exact (h.result i r (.inr hi)).symm.trans hb
  | _ => simp [hi, Task.result] at hb

theorem Inv.enough (h : Inv outcome need s) (hs : s.Finished)
    (hneed : need ≤ tally fun i => (outcome i).isSome = true) :
    need ≤ s.got := by
  rcases h.left hs.1 with hgot | hnext
  · exact hgot
  · refine hneed.trans (tally_mono fun i hi => ?_)
    obtain ⟨hstarted, hsending⟩ := hs.2 i
    cases htask : s.task i with
    | idle =>
      have := (h.idle i).1 htask
      omega
    | started => simp [htask, Task.isStarted] at hstarted
    | sending r => simp [htask, Task.isSending] at hsending
    | done r =>
      rw [h.result i r (.inr htask)]
      exact hi

/-! ## A channel with a limit -/

variable {cap : Nat} {es : List (Event n)}

/-- A step when the channel has `cap` places: a task whose trigger finds no room waits. -/
def stepWithin (cap : Nat) (outcome : Fin n → Option β) (need : Nat) (s : State n β) (e : Event n) :
    Option (State n β) :=
  match e with
  | .send i => if s.ch.length < cap then step outcome need s (.send i) else none
  | e => step outcome need s e

/-- The events `es` lead from one state to another. -/
inductive Runs (cap : Nat) (outcome : Fin n → Option β) (need : Nat) :
    State n β → List (Event n) → State n β → Prop where
  | refl (s : State n β) : Runs cap outcome need s [] s
  | cons {s s₁ s' : State n β} {e : Event n} {es : List (Event n)}
    (hstep : stepWithin cap outcome need s e = some s₁)
      (hrun : Runs cap outcome need s₁ es s') : Runs cap outcome need s (e :: es) s'

def starting (s s' : State n β) : List (Fin n) :=
  (List.finRange n).filter fun i => !(s.task i).isStarted && (s'.task i).isStarted

/-- The tasks that are started by the events, in order. -/
def starts (cap : Nat) (outcome : Fin n → Option β) (need : Nat) :
    State n β → List (Event n) → List (Fin n)
  | _, [] => []
  | s, e :: es =>
    match stepWithin cap outcome need s e with
    | none => []
    | some s' => starting s s' ++ starts cap outcome need s' es

def Room (need : Nat) (s : State n β) : Prop := s.ch.length + s.started + s.sending ≤ need

theorem room_init : Room need (init n β need) := by
  have hstarted : (init n β need).started = 0 :=
    tally_eq_zero fun _ => by simp [init, Task.isStarted]
  have hsending : (init n β need).sending = 0 :=
    tally_eq_zero fun _ => by simp [init, Task.isSending]
  rw [Room, hstarted, hsending]
  simp [init]

theorem Room.step (h : Room need s) (hstep : step outcome need s e = some s') : Room need s' := by
  unfold Room at h ⊢
  rcases step_cases hstep with ⟨trigger, ch, hleft, hch, rfl⟩ | ⟨i, hi, rfl⟩ | ⟨i, r, hi, rfl⟩
  · have hlen : s.ch.length = ch.length + 1 := by rw [hch, length_cons]
    unfold receive
    split_ifs with henough hnext htrigger
    · change ch.length + s.started + s.sending ≤ need
      omega
    · obtain ⟨rest, ⟨h₁, h₂, -⟩, hupdate⟩ := counts_update s ⟨s.next, hnext⟩
      obtain ⟨h₁', h₂', -⟩ := hupdate
        { s with
          ch := ch, next := s.next + 1
          task := Function.update s.task ⟨s.next, hnext⟩ .started } _ rfl
      simp only [counts_started] at h₁' h₂'
      dsimp only
      omega
    · change ch.length + s.started + s.sending ≤ need
      omega
    · change ch.length + s.started + s.sending ≤ need
      omega
  · obtain ⟨rest, ⟨h₁, h₂, -⟩, hupdate⟩ := counts_update s i
    obtain ⟨h₁', h₂', -⟩ := hupdate
      { s with task := Function.update s.task i (.sending (outcome i)) } _ rfl
    rw [hi] at h₁ h₂
    simp only [counts_started, counts_sending] at h₁ h₂ h₁' h₂'
    dsimp only
    omega
  · obtain ⟨rest, ⟨h₁, h₂, -⟩, hupdate⟩ := counts_update s i
    obtain ⟨h₁', h₂', -⟩ := hupdate
      { s with ch := s.ch ++ [r.isNone], task := Function.update s.task i (.done r) } _ rfl
    rw [hi] at h₁ h₂
    simp only [counts_sending, counts_done] at h₁ h₂ h₁' h₂'
    simp only [length_append, length_cons, length_nil]
    omega

theorem Room.lt (h : Room need s) {r : Option β} (hi : s.task i = .sending r) :
    s.ch.length < need := by
  obtain ⟨rest, ⟨-, h₂, -⟩, -⟩ := counts_update s i
  rw [hi] at h₂
  simp only [counts_sending] at h₂
  unfold Room at h
  omega

theorem stepWithin_eq (h : Room need s) (hcap : need ≤ cap) (e : Event n) :
    stepWithin cap outcome need s e = step outcome need s e := by
  cases e with
  | receive => rfl
  | finish i => rfl
  | send i =>
    rw [stepWithin]
    split_ifs with hroom
    · rfl
    · cases hi : s.task i with
      | sending r => exact absurd ((h.lt hi).trans_le hcap) hroom
      | _ => simp [step, hi]

theorem Runs.inv (h : Runs cap outcome need s es s') (hcap : need ≤ cap) (hinv : Inv outcome need s)
    (hroom : Room need s) :
    Inv outcome need s' ∧ Room need s' ∧ es.length + s'.measure ≤ s.measure := by
  induction h with
  | refl s => exact ⟨hinv, hroom, by simp⟩
  | cons hstep _ ih =>
    rw [stepWithin_eq hroom hcap] at hstep
    obtain ⟨hinv', hroom', hlen⟩ := ih (hinv.step hstep) (hroom.step hstep)
    have hlt := step_measure_lt hinv hstep
    refine ⟨hinv', hroom', ?_⟩
    rw [length_cons]
    omega

theorem starting_cases (h : Inv outcome need s) (hstep : step outcome need s e = some s') :
    starting s s' = [] ∧ s.next ≤ s'.next ∨ ∃ i : Fin n, starting s s' = [i] ∧ i.val = s.next ∧
      s'.next = s.next + 1 := by
  have hsame : ∀ {t : Task β} {i : Fin n} {s'}, t.isStarted = false →
    s'.task = Function.update s.task i t →
      starting s s' = [] := by
    intro t i s' ht hs'
    refine filter_eq_nil_iff.2 fun j _ => ?_
    rw [hs']
    by_cases hj : j = i
    · subst hj
      simp [ht]
    · simp [Function.update_of_ne hj]
  have hself : ∀ s' : State n β, s'.task = s.task → starting s s' = [] := by
    intro s' hs'
    refine filter_eq_nil_iff.2 fun j _ => ?_
    simp [hs']
  rcases step_cases hstep with ⟨trigger, ch, hleft, hch, rfl⟩ | ⟨i, hi, rfl⟩ | ⟨i, r, hi, rfl⟩
  · unfold receive
    split_ifs with henough hnext htrigger
    · exact .inl ⟨hself _ rfl, le_rfl⟩
    · have hidle := (h.idle ⟨s.next, hnext⟩).2 le_rfl
      refine .inr ⟨⟨s.next, hnext⟩, ?_, rfl, rfl⟩
      have hone : ∀ j : Fin n, (!(s.task j).isStarted &&
        (Function.update s.task ⟨s.next, hnext⟩ .started j).isStarted) =
          decide (j = ⟨s.next, hnext⟩) := by
        intro j
        by_cases hj : j = ⟨s.next, hnext⟩
        · subst hj
          simp [hidle, Task.isStarted]
        · simp [hj]
      change (List.finRange n).filter (fun j => !(s.task j).isStarted &&
        (Function.update s.task ⟨s.next, hnext⟩ .started j).isStarted) = _
      simp only [hone]
      rw [filter_eq, count_eq_one_of_mem (nodup_finRange n) (mem_finRange _)]
      rfl
    · exact .inl ⟨hself _ rfl, le_rfl⟩
    · exact .inl ⟨hself _ rfl, le_rfl⟩
  · exact .inl ⟨hsame rfl rfl, le_rfl⟩
  · exact .inl ⟨hsame rfl rfl, le_rfl⟩

theorem nodup_starts (hcap : need ≤ cap) (h : Inv outcome need s) (hroom : Room need s)
    (es : List (Event n)) :
    (starts cap outcome need s es).Nodup ∧ ∀ i ∈ starts cap outcome need s es, s.next ≤ i.val := by
  induction es generalizing s with
  | nil => exact ⟨nodup_nil, by simp [starts]⟩
  | cons e es ih =>
    rw [starts]
    cases hstep : stepWithin cap outcome need s e with
    | none => exact ⟨nodup_nil, by simp⟩
    | some s' =>
      rw [stepWithin_eq hroom hcap] at hstep
      obtain ⟨hnodup, hlater⟩ := ih (h.step hstep) (hroom.step hstep)
      rcases starting_cases h hstep with ⟨hnone, hnext⟩ | ⟨i, hone, hi, hnext⟩
      · simp only [hnone, nil_append]
        exact ⟨hnodup, fun j hj => hnext.trans (hlater j hj)⟩
      · simp only [hone, singleton_append, nodup_cons, forall_mem_cons]
        refine ⟨⟨fun hmem => ?_, hnodup⟩, hi.ge, fun j hj => ?_⟩
        · have := hlater i hmem
          omega
        · have := hlater j hj
          omega

theorem Inv.finished_of_stuck (h : Inv outcome need s) (hroom : Room need s) (hcap : need ≤ cap)
    (hstuck : ∀ e, stepWithin cap outcome need s e = none) : s.Finished := by
  by_contra hs
  obtain ⟨e, he⟩ := exists_mem_of_ne_nil _ (h.enabled_ne_nil hs)
  obtain ⟨s', hs'⟩ := Schedule.exists_step he
  rw [← stepWithin_eq hroom hcap, hstuck e] at hs'
  cases hs'

theorem exists_runs (hcap : need ≤ cap) (h : Inv outcome need s) (hroom : Room need s)
    (pick : Nat → Nat) (fuel : Nat) :
    ∃ es, Runs cap outcome need s es (run outcome need pick fuel s) := by
  induction fuel generalizing s with
  | zero => exact ⟨[], .refl s⟩
  | succ fuel ih =>
    rw [run, Schedule.run]
    cases hpick : (Schedule.enabled (Triggers.step outcome need) (events n) s)[
        pick fuel % (Schedule.enabled (Triggers.step outcome need) (events n) s).length]? with
    | none => exact ⟨[], .refl s⟩
    | some e =>
      obtain ⟨s', hs'⟩ := Schedule.exists_step (mem_of_getElem? hpick)
      obtain ⟨es, hes⟩ := ih (h.step hs') (hroom.step hs')
      simp only [hs', Option.getD_some]
      exact ⟨e :: es, .cons ((stepWithin_eq hroom hcap e).trans hs') hes⟩

theorem Inv.got_le (h : Inv outcome need s) : s.got ≤ tally fun i => (outcome i).isSome = true := by
  refine tally_mono fun i hi => ?_
  obtain ⟨b, hb⟩ := Option.isSome_iff_exists.1 hi
  rw [h.result_eq hb]
  rfl

end Steps

end Triggers
