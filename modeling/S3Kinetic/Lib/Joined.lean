import Mathlib

/-!
# Texts joined with a separator

Words without a separator are joined into one text. A joined text occurs inside another exactly if
its words stand one after the other among the words of the other, where the first may be the end and
the last the beginning of a longer word, and a single word may lie anywhere inside one.
-/

namespace Joined

open List

variable {α : Type*} {sep : α}

/-- The words `ws` joined. -/
def join (sep : α) (ws : List (List α)) : List α := [sep].intercalate ws

/-- The words `xs` in a row among the words `ys`, the outer ones possibly cut out of longer
words. -/
def Run (xs ys : List (List α)) : Prop :=
  (∃ x A p s B, xs = [x] ∧ ys = A ++ (p ++ x ++ s) :: B) ∨
    ∃ x m l A p s B, xs = x :: (m ++ [l]) ∧ ys = A ++ (p ++ x) :: (m ++ (l ++ s) :: B)

theorem join_cons_cons (w w' : List α) (ws : List (List α)) :
    join sep (w :: w' :: ws) = w ++ sep :: join sep (w' :: ws) := by
  simp [join, List.intercalate]

theorem join_cons {ws : List (List α)} (h : ws ≠ []) (w : List α) :
    join sep (w :: ws) = w ++ sep :: join sep ws := by
  obtain ⟨w', ws, rfl⟩ := exists_cons_of_ne_nil h
  exact join_cons_cons w w' ws

theorem join_append_left (p x : List α) (ws : List (List α)) :
    join sep ((p ++ x) :: ws) = p ++ join sep (x :: ws) := by
  cases ws with
  | nil => simp [join, List.intercalate]
  | cons w ws => simp [join_cons_cons]

theorem join_concat_append (ws : List (List α)) (l s : List α) :
    join sep (ws ++ [l ++ s]) = join sep (ws ++ [l]) ++ s := by
  induction ws with
  | nil => simp [join, List.intercalate]
  | cons w ws ih =>
    rw [cons_append, join_cons (by simp), ih, cons_append, join_cons (by simp)]; simp

theorem join_starts {ws : List (List α)} (h : ws ≠ []) (B : List (List α)) :
    join sep ws <+: join sep (ws ++ B) := by
  induction ws with
  | nil => exact absurd rfl h
  | cons w ws ih =>
    by_cases hws : ws = []
    · subst hws
      cases B with
      | nil => simp
      | cons b B => exact ⟨sep :: join sep (b :: B), by simp [join, List.intercalate]⟩
    · obtain ⟨t, ht⟩ := ih hws
      exact ⟨t, by rw [cons_append, join_cons hws, join_cons (by simp [hws]), ← ht]; simp⟩

theorem join_inside (sep : α) (ws : List (List α)) (h : ws ≠ []) (A B : List (List α)) :
    join sep ws <:+: join sep (A ++ (ws ++ B)) := by
  induction A with
  | nil => exact (join_starts h B).isInfix
  | cons a A ih =>
    obtain ⟨u, v, huv⟩ := ih
    refine ⟨a ++ sep :: u, v, ?_⟩
    rw [cons_append, join_cons (by simp [h]), ← huv]
    simp

section

variable [DecidableEq α]

theorem splitOn_append {a b : List α} {A B : List (List α)} {x y : List α}
    (ha : a.splitOn sep = A ++ [x])
    (hb : b.splitOn sep = y :: B) : (a ++ b).splitOn sep = A ++ (x ++ y) :: B := by
  induction a generalizing A x with
  | nil =>
    obtain ⟨rfl, rfl⟩ : A = [] ∧ x = [] := by
      cases A with
      | nil => simpa using ha.symm
      | cons c A => simp at ha
    simpa using hb
  | cons c a ih =>
    rw [splitOn_cons_eq_if_modifyHead] at ha
    rw [cons_append, splitOn_cons_eq_if_modifyHead]
    split_ifs at ha ⊢ with hc
    · cases A with
      | nil => simp at ha
      | cons q A =>
        simp only [cons_append, List.cons.injEq] at ha
        obtain ⟨rfl, ha⟩ := ha
        rw [ih ha]
        rfl
    · cases hs : a.splitOn sep with
      | nil => simp at hs
      | cons q Q =>
        rw [hs] at ha
        simp only [modifyHead_cons] at ha
        cases A with
        | nil =>
          simp only [nil_append, List.cons.injEq] at ha
          obtain ⟨rfl, rfl⟩ := ha
          rw [ih (A := []) (x := q) (by simpa using hs)]
          simp
        | cons q' A =>
          simp only [cons_append, List.cons.injEq] at ha
          obtain ⟨rfl, rfl⟩ := ha
          rw [ih (A := q :: A) (x := x) (by simpa using hs)]
          simp

theorem infix_join_iff {xs ys : List (List α)} (hx : ∀ x ∈ xs, sep ∉ x) (hy : ∀ y ∈ ys, sep ∉ y)
    (hxs : xs ≠ []) (hys : ys ≠ []) : join sep xs <:+: join sep ys ↔ Run xs ys := by
  constructor
  · rintro ⟨a, b, hab⟩
    obtain ⟨A, p, ha⟩ : ∃ A p, a.splitOn sep = A ++ [p] := by
      refine ⟨_, _, (dropLast_append_getLast ?_).symm⟩
      simp
    obtain ⟨s, B, hb⟩ : ∃ s B, b.splitOn sep = s :: B := exists_cons_of_ne_nil (by simp)
    obtain ⟨x, xs, rfl⟩ := exists_cons_of_ne_nil hxs
    have hsplit : (join sep ys).splitOn sep = ys := splitOn_intercalate sep hy hys
    have hmid : (a ++ join sep (x :: xs)).splitOn sep = A ++ (p ++ x) :: xs :=
      splitOn_append ha (splitOn_intercalate sep hx hxs)
    rw [← hab] at hsplit
    rcases eq_nil_or_concat' xs with rfl | ⟨m, l, rfl⟩
    · rw [splitOn_append hmid hb] at hsplit
      exact .inl ⟨x, A, p, s, B, rfl, hsplit.symm⟩
    · have hmid' : (a ++ join sep (x :: (m ++ [l]))).splitOn sep = (A ++ (p ++ x) :: m) ++ [l] := by
        rw [hmid]
        simp
      rw [splitOn_append hmid' hb] at hsplit
      exact .inr ⟨x, m, l, A, p, s, B, rfl, by rw [← hsplit]; simp⟩
  · rintro (⟨x, A, p, s, B, rfl, rfl⟩ | ⟨x, m, l, A, p, s, B, rfl, rfl⟩)
    · refine List.IsInfix.trans ?_ (join_inside sep [p ++ x ++ s] (by simp) A B)
      exact ⟨p, s, by simp [join, List.intercalate]⟩
    · have h := join_inside sep ((p ++ x) :: (m ++ [l ++ s])) (by simp) A B
      rw [join_append_left, ← cons_append, join_concat_append] at h
      refine List.IsInfix.trans ⟨p, s, ?_⟩ (by simpa using h)
      simp

end

end Joined
