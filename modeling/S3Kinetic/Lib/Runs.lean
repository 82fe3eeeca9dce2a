import Mathlib

/-!
# Properties of every call of a run

`Along step P s ops`: each call of the sequence `ops`, started in `s`, has the property `P` of the
state before it, the call and the state after it. Two properties that agree in every state of an
invariant, which the second one carries over a call, agree along runs.
-/

namespace Runs

variable {S O : Type*} {step : S → O → S} {P Q : S → O → S → Prop}

def Along (step : S → O → S) (P : S → O → S → Prop) : S → List O → Prop
  | _, [] => True
  | s, op :: ops => P s op (step s op) ∧ Along step P (step s op) ops

theorem along_iff {Inv : S → Prop}
    (hiff : ∀ s op, Inv s → (P s op (step s op) ↔ Q s op (step s op)))
    (hinv : ∀ s op, Inv s → Q s op (step s op) → Inv (step s op)) {s : S} (h : Inv s)
    (ops : List O) :
    Along step P s ops ↔ Along step Q s ops := by
  induction ops generalizing s with
  | nil => exact Iff.rfl
  | cons op ops ih =>
    constructor
    · rintro ⟨hp, hrest⟩
      have hq := (hiff s op h).1 hp
      exact ⟨hq, (ih (hinv s op h hq)).1 hrest⟩
    · rintro ⟨hq, hrest⟩
      exact ⟨(hiff s op h).2 hq, (ih (hinv s op h hq)).2 hrest⟩

end Runs
