import Mathlib

/-!
# Readers that deliver a text

A reader is called with buffers of given sizes, one call after the other, also when it has reported
an error. `Delivers` says that the calls return a text piece by piece and report the end when all of
it is out.
-/

namespace Delivery

open List

variable {α ε σ : Type*}

structure ReadOut (α ε : Type*) where
  /-- The letters written at the start of the buffer. -/
  filled : List α
  n : Nat
  err : Option ε
  deriving DecidableEq

/-- Calls with buffers of the given sizes. -/
def calls (read : σ → Nat → ReadOut α ε × σ) : σ → List Nat → List (ReadOut α ε)
  | _, [] => []
  | s, len :: lens => (read s len).1 :: calls read (read s len).2 lens

/-- The calls return the text piece by piece. Each writes the next letters of the text to its
buffer, says how many they are, and reports the end if it has come and nothing else. -/
def Delivers (eof : ε) : List α → List Nat → List (ReadOut α ε) → Prop
  | _, [], [] => True
  | text, len :: lens, r :: outs =>
    (r.filled = text.take len ∧ r.n = r.filled.length ∧
      (r.err = none ∧ len ≤ text.length ∨ r.err = some eof ∧ text.length ≤ len)) ∧
    Delivers eof (text.drop len) lens outs
  | _, _, _ => False

variable {read : σ → Nat → ReadOut α ε × σ} {s s' : σ} {a text : List α} {len : Nat} {eof : ε}
  {outs : List (ReadOut α ε)} {r : ReadOut α ε}

theorem calls_cons (h : read s len = (r, s')) (lens : List Nat) :
    calls read s (len :: lens) = r :: calls read s' lens := by
  rw [calls, h]

theorem delivers_cons (ha : a.length = len) (lens : List Nat) :
    Delivers eof (a ++ text) (len :: lens) (⟨a, len, none⟩ :: outs) ↔
      Delivers eof text lens outs := by
  subst ha
  simp [Delivers]

theorem delivers_last (hlen : text.length ≤ len) (lens : List Nat) :
    Delivers eof text (len :: lens) (⟨text, text.length, some eof⟩ :: outs) ↔
      Delivers eof [] lens outs := by
  simp [Delivers, hlen, take_of_length_le hlen, drop_of_length_le hlen]

end Delivery
