import Mathlib

/-!
# Threads with footprints

Threads with a local state each take turns on one memory. If every thread writes only inside a
footprint of its own and what it does depends only on cells that no other thread writes, its local
state under any schedule is the one it would have alone.
-/

namespace Interleave

variable {A V L : Type*}

structure State (A V L : Type*) where
  mem : A → V
  loc : Nat → L

section Run

variable (step : Nat → (A → V) → L → (A → V) × L)

/-- Thread `t` takes a step. -/
def stepAt (s : State A V L) (t : Nat) : State A V L :=
  let r := step t s.mem (s.loc t)
  ⟨r.1, Function.update s.loc t r.2⟩

def run (s : State A V L) (sched : List Nat) : State A V L := sched.foldl (stepAt step) s

theorem run_concat (s : State A V L) (sched : List Nat) (t : Nat) :
    run step s (sched ++ [t]) = stepAt step (run step s sched) t := by
  simp [run]

theorem run_replicate_rest {step : Nat → (A → V) → L → (A → V) × L} (μ : L → Nat) {t : Nat}
    (hstep : ∀ m l, μ (step t m l).2 ≤ μ l - 1) (s : State A V L) (k : Nat) :
    μ ((run step s (List.replicate k t)).loc t) ≤ μ (s.loc t) - k := by
  induction k with
  | zero => exact Nat.le_refl _
  | succ k ih =>
    rw [List.replicate_succ', run_concat, stepAt]
    have h := hstep (run step s (List.replicate k t)).mem ((run step s (List.replicate k t)).loc t)
    simp only [Function.update_self]
    omega

end Run

/-- What isolates threads from each other: `Inv` is kept by each thread's steps, `W t` holds the
cells that thread `t` writes and `R t` those it depends on. -/
structure Footprint (step : Nat → (A → V) → L → (A → V) × L) (Inv : Nat → L → Prop)
    (W R : Nat → Set A) :
    Prop where
  inv : ∀ t m l, Inv t l → Inv t (step t m l).2
  frame : ∀ t m l, Inv t l → ∀ a ∉ W t, (step t m l).1 a = m a
  loc : ∀ t m m' l, Inv t l → (∀ a ∈ R t, m a = m' a) → (step t m l).2 = (step t m' l).2
  mem : ∀ t m m' l, Inv t l → (∀ a ∈ R t, m a = m' a) → ∀ a ∈ R t, (step t m l).1 a =
    (step t m' l).1 a
  apart : ∀ t t', t ≠ t' → ∀ a ∈ R t, a ∉ W t'

section

variable {step : Nat → (A → V) → L → (A → V) × L} {Inv : Nat → L → Prop} {W R : Nat → Set A}
  (F : Footprint step Inv W R) {s : State A V L} (h0 : ∀ t, Inv t (s.loc t))

include F h0

theorem Footprint.inv_run (sched : List Nat) (t : Nat) : Inv t ((run step s sched).loc t) := by
  induction sched using List.reverseRecOn with
  | nil => exact h0 t
  | append_singleton sched u ih =>
    rw [run_concat, stepAt]
    by_cases htu : t = u
    · subst htu
      simpa using F.inv t _ _ ih
    · simpa [htu] using ih

theorem Footprint.mem_run {a : A} (ha : ∀ t, a ∉ W t) (sched : List Nat) :
    (run step s sched).mem a = s.mem a := by
  induction sched using List.reverseRecOn with
  | nil => rfl
  | append_singleton sched u ih =>
    rw [run_concat, stepAt]
    exact (F.frame u _ _ (F.inv_run h0 sched u) a (ha u)).trans ih

theorem Footprint.alone (sched : List Nat) (t : Nat) :
    (run step s sched).loc t = (run step s (List.replicate (sched.count t) t)).loc t ∧
      ∀ a ∈ R t, (run step s sched).mem a =
        (run step s (List.replicate (sched.count t) t)).mem a := by
  induction sched using List.reverseRecOn with
  | nil => exact ⟨rfl, fun _ _ => rfl⟩
  | append_singleton sched u ih =>
    obtain ⟨ihl, ihm⟩ := ih
    rw [run_concat, List.count_append]
    by_cases htu : t = u
    · subst htu
      have hone : List.replicate (sched.count t + [t].count t) t =
          List.replicate (sched.count t) t ++ [t] := by
        rw [List.count_singleton_self, List.replicate_succ']
      rw [hone, run_concat, stepAt, stepAt]
      have hinv := F.inv_run h0 sched t
      simp only [Function.update_self]
      rw [← ihl]
      exact ⟨F.loc t _ _ _ hinv ihm, F.mem t _ _ _ hinv ihm⟩
    · have hzero : sched.count t + [u].count t = sched.count t := by
        simp [Ne.symm htu]
      rw [hzero, stepAt]
      refine ⟨by simpa [htu] using ihl, fun a ha => ?_⟩
      rw [← ihm a ha]
      exact F.frame u _ _ (F.inv_run h0 sched u) a (F.apart t u htu a ha)

end

end Interleave
