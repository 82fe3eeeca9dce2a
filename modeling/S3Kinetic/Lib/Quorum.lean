import Mathlib

/-!
# Counting members of a cluster

`tally P` is the number of members with a property. Two properties whose tallies exceed the size of
the cluster share a member.
-/

namespace Quorum

variable {n : Nat}

/-- The number of members with property `P`. -/
def tally (P : Fin n → Prop) [DecidablePred P] : Nat := (List.finRange n).countP fun i => P i

section

variable {P Q : Fin n → Prop} [DecidablePred P] [DecidablePred Q]

theorem tally_eq_card (P : Fin n → Prop) [DecidablePred P] :
    tally P = (Finset.univ.filter P).card := by
  rw [tally, List.countP_eq_length_filter,
    ← List.toFinset_card_of_nodup ((List.nodup_finRange n).filter _)]
  congr 1
  ext i
  simp

theorem tally_congr (h : ∀ i, P i ↔ Q i) : tally P = tally Q :=
  List.countP_congr fun i _ => by simp [h i]

theorem tally_mono (h : ∀ i, P i → Q i) : tally P ≤ tally Q :=
  List.countP_mono_left fun i _ => by simpa using h i

theorem tally_add_tally_not (P : Fin n → Prop) [DecidablePred P] :
    tally P + tally (fun i => ¬ P i) = n := by
  rw [tally_eq_card, tally_eq_card, Finset.card_filter_add_card_filter_not, Finset.card_univ,
    Fintype.card_fin]

theorem tally_le (P : Fin n → Prop) [DecidablePred P] : tally P ≤ n := by
  have := tally_add_tally_not P
  omega

theorem tally_pos : 0 < tally P ↔ ∃ i, P i := by
  simp [tally]

theorem tally_eq_zero (h : ∀ i, ¬ P i) : tally P = 0 := by
  simpa [tally] using h

theorem tally_eq_of_forall (h : ∀ i, P i) : tally P = n := by
  have := tally_add_tally_not P
  have h0 : tally (fun i => ¬ P i) = 0 := tally_eq_zero fun i hn => hn (h i)
  omega

theorem tally_add_le (h : ∀ i, P i → ¬ Q i) : tally P + tally Q ≤ n := by
  have h1 := tally_add_tally_not P
  have h2 : tally Q ≤ tally fun i => ¬ P i := tally_mono fun i hq hp => h i hp hq
  omega

theorem exists_of_tally (h : n < tally P + tally Q) : ∃ i, P i ∧ Q i := by
  by_contra hno
  push Not at hno
  have := tally_add_le hno
  omega

end

theorem tally_update {β : Type*} (f : Fin n → β) (j : Fin n) (Q : β → Prop) [DecidablePred Q] :
    ∃ rest, tally (fun i => Q (f i)) = rest + (if Q (f j) then 1 else 0) ∧
      ∀ x, tally (fun i => Q (Function.update f j x i)) = rest + if Q x then 1 else 0 := by
  have hsum : ∀ g : Fin n → β, tally (fun i => Q (g i)) =
      (∑ i ∈ Finset.univ.erase j, if Q (g i) then 1 else 0) + if Q (g j) then 1 else 0 := by
    intro g
    rw [tally_eq_card, Finset.card_filter, Finset.sum_erase_add _ _ (Finset.mem_univ j)]
  refine ⟨∑ i ∈ Finset.univ.erase j, if Q (f i) then 1 else 0, hsum f, fun x => ?_⟩
  rw [hsum, Function.update_self]
  refine congrArg (· + _) (Finset.sum_congr rfl fun i hi => ?_)
  rw [Function.update_of_ne (Finset.ne_of_mem_erase hi)]

end Quorum
