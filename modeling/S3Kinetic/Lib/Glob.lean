import Mathlib

/-!
# Glob patterns

A pattern is a list of tokens: a letter that matches itself, a token for exactly one letter and a
token for any number of letters.
-/

inductive Tok (α : Type*) where
  | lit (a : α)
  | one
  | many
  deriving DecidableEq, Repr

namespace Glob

open List

variable {α : Type*}

inductive Matches : List (Tok α) → List α → Prop where
  | nil : Matches [] []
  | lit {p s} (a : α) (h : Matches p s) : Matches (.lit a :: p) (a :: s)
  | one {p s} (a : α) (h : Matches p s) : Matches (.one :: p) (a :: s)
  | skip {p s} (h : Matches p s) : Matches (.many :: p) s
  | take {p s} (a : α) (h : Matches (.many :: p) s) : Matches (.many :: p) (a :: s)

variable {s : List α}

@[simp] theorem matches_nil : Matches [] s ↔ s = [] :=
  ⟨fun h => by cases h; rfl, fun h => h ▸ .nil⟩

variable {a : α} {p : List (Tok α)}

theorem matches_lit :
    Matches (.lit a :: p) s ↔ ∃ t, s = a :: t ∧ Matches p t := by
  constructor
  · rintro ⟨⟩
    exact ⟨_, rfl, by assumption⟩
  · rintro ⟨t, rfl, h⟩
    exact .lit a h

theorem matches_one :
    Matches (.one :: p) s ↔ ∃ a t, s = a :: t ∧ Matches p t := by
  constructor
  · rintro ⟨⟩
    exact ⟨_, _, rfl, by assumption⟩
  · rintro ⟨a, t, rfl, h⟩
    exact .one a h

theorem matches_many :
    Matches (.many :: p) s ↔ ∃ u t, s = u ++ t ∧ Matches p t := by
  constructor
  · intro h
    generalize hq : Tok.many :: p = q at h
    induction h with
    | nil => cases hq
    | lit a h ih => cases hq
    | one a h ih => cases hq
    | skip h ih =>
      obtain ⟨-, rfl⟩ := List.cons.inj hq
      exact ⟨[], _, rfl, h⟩
    | take a h ih =>
      obtain ⟨u, t, rfl, ht⟩ := ih hq
      exact ⟨a :: u, t, rfl, ht⟩
  · rintro ⟨u, t, rfl, h⟩
    induction u with
    | nil => exact .skip h
    | cons a u ih => exact .take a ih

theorem matches_many_cons :
    Matches (.many :: p) (a :: s) ↔ Matches p (a :: s) ∨ Matches (.many :: p) s := by
  constructor
  · rintro (_ | _)
    · exact .inl (by assumption)
    · exact .inr (by assumption)
  · rintro (h | h)
    · exact .skip h
    · exact .take a h

theorem matches_map_lit {w : List α} : Matches (w.map .lit) s ↔ s = w := by
  induction w generalizing s with
  | nil => simp
  | cons a w ih => simp [matches_lit, ih]

theorem matches_lits_append {w : List α} : Matches (w.map .lit ++ p) s ↔ ∃ t, s = w ++ t ∧
    Matches p t := by
  induction w generalizing s with
  | nil => simp
  | cons a w ih =>
    rw [map_cons, cons_append, matches_lit]
    constructor
    · rintro ⟨_, rfl, h⟩
      obtain ⟨t, rfl, ht⟩ := ih.1 h
      exact ⟨t, rfl, ht⟩
    · rintro ⟨t, rfl, ht⟩
      exact ⟨w ++ t, rfl, ih.2 ⟨t, rfl, ht⟩⟩

end Glob
