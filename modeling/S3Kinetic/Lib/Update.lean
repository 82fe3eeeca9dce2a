import Mathlib

/-!
# Lists with one element replaced

Sums and counts over `l.set i a'` differ from those over `l` in one term.
-/

namespace Update

open List

variable {α : Type*} {l : List α} {i : Nat} {a : α}

theorem exists_split (h : l[i]? = some a) :
    ∃ l₁ l₂, l = l₁ ++ a :: l₂ ∧ l₁.length = i ∧ ∀ a', l.set i a' = l₁ ++ a' :: l₂ := by
  obtain ⟨hi, rfl⟩ := List.getElem?_eq_some_iff.1 h
  refine ⟨l.take i, l.drop (i + 1), ?_, by simp; omega, fun a' => ?_⟩
  · rw [← drop_eq_getElem_cons hi, take_append_drop]
  · rw [set_eq_take_append_cons_drop, if_pos hi]

theorem sum_map_set {M : Type*} [AddCommMonoid M] (f : α → M) (h : l[i]? = some a) :
    ∃ rest : M, (l.map f).sum = f a + rest ∧ ∀ a', ((l.set i a').map f).sum = f a' + rest := by
  obtain ⟨l₁, l₂, hl, -, hset⟩ := exists_split h
  refine ⟨(l₁.map f).sum + (l₂.map f).sum, ?_, fun a' => ?_⟩
  · rw [hl, map_append, sum_append, map_cons, sum_cons, add_left_comm]
  · rw [hset, map_append, sum_append, map_cons, sum_cons, add_left_comm]

theorem countP_set (h : l[i]? = some a) :
    ∃ rest : (α → Bool) → Nat, ∀ q, l.countP q = rest q + (if q a then 1 else 0) ∧
      ∀ a', (l.set i a').countP q = rest q + if q a' then 1 else 0 := by
  obtain ⟨l₁, l₂, hl, -, hset⟩ := exists_split h
  refine ⟨fun q => l₁.countP q + l₂.countP q, fun q => ⟨?_, fun a' => ?_⟩⟩
  · rw [hl, countP_append, countP_cons, add_assoc]
  · rw [hset, countP_append, countP_cons, add_assoc]

end Update
