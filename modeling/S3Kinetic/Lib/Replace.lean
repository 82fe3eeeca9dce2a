import Mathlib

/-!
# Replacing and splitting text

Replacing every occurrence of a non-empty text, found from the left and without overlaps, and
splitting at these occurrences.
-/

namespace Replace

open List

variable {α : Type*} [DecidableEq α]

/-- The replacement in what follows the next `k` letters, which an occurrence has taken. -/
def replaceFrom (old new : List α) : Nat → List α → List α
  | _, [] => []
  | k + 1, _ :: s => replaceFrom old new k s
  | 0, c :: s =>
    if old <+: c :: s then new ++ replaceFrom old new (old.length - 1) s
    else c :: replaceFrom old new 0 s

/-- `strings.Replace(s, old, new, -1)` for a non-empty `old`. -/
def replaceAll (s old new : List α) : List α := replaceFrom old new 0 s

/-- The pieces of what follows the next `k` letters, which an occurrence has taken. -/
def splitFrom (sep : List α) : Nat → List α → List (List α)
  | _, [] => [[]]
  | k + 1, _ :: s => splitFrom sep k s
  | 0, c :: s =>
    if sep <+: c :: s then [] :: splitFrom sep (sep.length - 1) s
    else (splitFrom sep 0 s).modifyHead (c :: ·)

/-- `strings.Split(s, sep)` for a non-empty `sep`. -/
def split (s sep : List α) : List (List α) := splitFrom sep 0 s

end Replace
