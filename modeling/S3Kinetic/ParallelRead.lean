import S3Kinetic.ErasureDecode

/-!
# Reading shards in parallel

`Read` starts a read for every trigger in a channel with as many places as there are readers. A read
that fails, or finds no reader, puts another trigger there; one that succeeds puts a `false`.
`parallelRead_safe` is about all executions, that is all orders in which the loop and the goroutines
take their steps: no send waits for room, no reader is read twice, the execution ends, and with
enough shards exactly if there are enough readers to give them.
-/

namespace S3Kinetic.Erasure

open Quorum Triggers

variable {n : Nat}

namespace ParallelReader

/-- The end of `Read`, when all goroutines are through. -/
def finish (r : ParallelReader n) (dataBlocks : Nat) (s : State n Bytes) :
    Option (Fin n → Option Bytes) × ParallelReader n :=
  let r' := { r with readers := r.readersAfter s, shardSize := r.nextSize }
  if dataBlocks ≤ s.got then
    (some fun i => (s.task i).result, { r' with offset := r.offset + r.nextSize })
  else (none, r')

theorem read_eq_finish (r : ParallelReader n) (dataBlocks : Nat) (pick : Nat → Nat) :
    r.read dataBlocks pick =
      r.finish dataBlocks (run r.outcome dataBlocks pick (4 * n + dataBlocks + 1)
        (init n Bytes dataBlocks)) := rfl

def good (r : ParallelReader n) : Nat := tally fun i => (r.outcome i).isSome = true

/-- An execution of `Read` from its first trigger on. -/
def Execution (r : ParallelReader n) (dataBlocks : Nat) (es : List (Event n)) (s : State n Bytes) :
    Prop :=
  Runs n r.outcome dataBlocks (init n Bytes dataBlocks) es s

end ParallelReader

open ParallelReader

variable {r : ParallelReader n} {d : Nat} {es : List (Event n)} {s : State n Bytes}

/-! ## The law -/

theorem Execution.inv (hd : 1 ≤ d) (hdn : d ≤ n) (h : r.Execution d es s) :
    Inv r.outcome d s ∧ Room d s ∧ es.length ≤ 4 * n + d + 1 := by
  obtain ⟨hinv, hroom, hlen⟩ := Runs.inv h hdn (inv_init hd) room_init
  have hmeasure := measure_init n d
  exact ⟨hinv, hroom, by omega⟩

theorem read_execution (hd : 1 ≤ d) (hdn : d ≤ n) (r : ParallelReader n) (pick : Nat → Nat) :
    ∃ es s, r.Execution d es s ∧ s.Finished ∧ r.read d pick = r.finish d s := by
  obtain ⟨es, hes⟩ : ∃ es, r.Execution d es (run r.outcome d pick (4 * n + d + 1)
      (init n Bytes d)) :=
    exists_runs hdn (inv_init hd) room_init pick (4 * n + d + 1)
  exact ⟨es, _, hes, finished_run (inv_init hd) (measure_init n d), read_eq_finish r d pick⟩

theorem got_finish (hinv : Inv r.outcome d s) (hs : s.Finished) : d ≤ s.got ↔ d ≤ r.good :=
  ⟨fun h => h.trans hinv.got_le, fun h => hinv.enough hs h⟩

theorem parallelRead_safe (hd : 1 ≤ d) (hdn : d ≤ n) (h : r.Execution d es s) :
    (∀ i result, s.task i = .sending result → s.ch.length < n) ∧
      (starts n r.outcome d (init n Bytes d) es).Nodup ∧
      es.length ≤ 4 * n + d + 1 ∧
      ((∀ e, stepWithin n r.outcome d s e = none) → s.Finished) ∧
      (s.Finished → d ≤ r.good → ∃ bufs r', r.finish d s = (some bufs, r') ∧ d ≤ tally fun i =>
        (bufs i).isSome = true) ∧
      (s.Finished → r.good < d → ∃ r', r.finish d s = (none, r') ∧ r'.offset = r.offset) := by
  obtain ⟨hinv, hroom, hlen⟩ := Execution.inv hd hdn h
  refine ⟨fun i result hi => (hroom.lt hi).trans_le hdn,
    (nodup_starts hdn (inv_init hd) room_init es).1, hlen,
    fun hstuck => hinv.finished_of_stuck hroom hdn hstuck, fun hs hgood => ?_, fun hs hgood => ?_⟩
  · have hgot := (got_finish hinv hs).2 hgood
    exact ⟨_, _, by rw [ParallelReader.finish, if_pos hgot], hgot⟩
  · have hgot : ¬ d ≤ s.got := fun hgot => absurd ((got_finish hinv hs).1 hgot) (Nat.not_le.2 hgood)
    rw [ParallelReader.finish, if_neg hgot]
    exact ⟨_, rfl, rfl⟩

/-- The read of the first disk fails. -/
def oneOfTwo : ParallelReader 2 := ⟨fun i => some ⟨[7], fun _ => i.val = 0⟩, 0, 1, 1⟩

theorem parallelRead_safe_oneOfTwo :
    ∃ s, oneOfTwo.Execution 1
        [.receive, .finish 0, .send 0, .receive, .finish 1, .send 1, .receive] s ∧
      s.Finished ∧ 1 ≤ oneOfTwo.good ∧
      ∃ bufs r', oneOfTwo.finish 1 s = (some bufs, r') ∧
        1 ≤ tally fun i => (bufs i).isSome = true := by
  have hrun : oneOfTwo.Execution 1
      [.receive, .finish 0, .send 0, .receive, .finish 1, .send 1, .receive] _ :=
    .cons rfl (.cons rfl (.cons rfl (.cons rfl (.cons rfl (.cons rfl (.cons rfl (.refl _)))))))
  have hgood : 1 ≤ oneOfTwo.good := by decide
  refine ⟨_, hrun, ⟨rfl, by decide⟩, hgood, ?_⟩
  exact (parallelRead_safe (by decide) (by decide) hrun).2.2.2.2.1 ⟨rfl, by decide⟩ hgood

end S3Kinetic.Erasure
