import S3Kinetic.Lib.Utf8
import S3Kinetic.Lib.Glob

/-!
# Wildcards of policies (`pkg/wildcard`)

`deepMatchRune` backtracks over the runes of a pattern and a name. `none` is the panic of slicing
past the end of the name, which only the mode without `?` can reach: there a `?` still takes a rune,
without asking whether one is left.
-/

namespace S3Kinetic

open ByteString Utf8 Glob

/-- `*` and `?`. -/
def starRune : Nat := 42
def questionRune : Nat := 63

/-- The `*` case: the rest of the pattern is tried here, then behind one more rune of the name. -/
def deepMatchStar (rest : List Nat → Option Bool) : List Nat → Option Bool
  | [] => rest []
  | c :: str =>
    match rest (c :: str) with
    | some false => deepMatchStar rest str
    | answer => answer

def deepMatchRune (simple : Bool) : List Nat → List Nat → Option Bool
  | [], str => some str.isEmpty
  | p :: pattern, str =>
    if p = questionRune then
      match str with
      | [] => if simple then none else some false
      | _ :: str => deepMatchRune simple pattern str
    else if p = starRune then deepMatchStar (deepMatchRune simple pattern) str
    else
      match str with
      | [] => some false
      | c :: str => if c = p then deepMatchRune simple pattern str else some false

def matchSimple (pattern name : Bytes) : Option Bool :=
  if pattern = [] then some (name = pattern)
  else if pattern = lit "*" then some true
  else deepMatchRune true (runes pattern) (runes name)

/-- `wildcard.Match`, which never panics (`deepMatchRune_isSome`). -/
def wildcardMatch (pattern name : Bytes) : Bool :=
  if pattern = [] then name = pattern
  else if pattern = lit "*" then true
  else (deepMatchRune false (runes pattern) (runes name)).getD false

/-! ## What the matcher decides -/

def tok (r : Nat) : Tok Nat :=
  if r = questionRune then .one else if r = starRune then .many else .lit r

theorem deepMatchStar_isSome {rest : List Nat → Option Bool} (h : ∀ str, (rest str).isSome = true)
    (str : List Nat) : (deepMatchStar rest str).isSome = true := by
  induction str with
  | nil => exact h []
  | cons c str ih =>
    rw [deepMatchStar]
    split
    · exact ih
    · exact h _

theorem deepMatchRune_isSome (pattern str : List Nat) :
    (deepMatchRune false pattern str).isSome = true := by
  induction pattern generalizing str with
  | nil => rfl
  | cons p pattern ih =>
    have hstar := deepMatchStar_isSome ih str
    cases str with
    | nil =>
      simp only [deepMatchRune, Bool.false_eq_true, if_false]
      split_ifs
      · rfl
      · exact hstar
      · rfl
    | cons c str =>
      simp only [deepMatchRune]
      split_ifs
      · exact ih str
      · exact hstar
      · exact ih str
      · rfl

theorem deepMatchStar_eq_some_true {rest : List Nat → Option Bool} {p : List (Tok Nat)}
    (hsome : ∀ str, (rest str).isSome = true) (h : ∀ str, rest str = some true ↔ Matches p str)
    (str : List Nat) : deepMatchStar rest str = some true ↔ Matches (.many :: p) str := by
  induction str with
  | nil =>
    rw [deepMatchStar, h, matches_many]
    constructor
    · exact fun hm => ⟨[], [], rfl, hm⟩
    · rintro ⟨u, t, ht, hm⟩
      obtain ⟨-, rfl⟩ := List.append_eq_nil_iff.1 ht.symm
      exact hm
  | cons c str ih =>
    rw [deepMatchStar, matches_many_cons, ← h, ← ih]
    obtain ⟨b, hb⟩ := Option.isSome_iff_exists.1 (hsome (c :: str))
    cases b <;> simp [hb]

theorem deepMatchRune_eq_some_true (pattern str : List Nat) :
    deepMatchRune false pattern str = some true ↔ Matches (pattern.map tok) str := by
  induction pattern generalizing str with
  | nil => simp [deepMatchRune]
  | cons p pattern ih =>
    have hstar := deepMatchStar_eq_some_true (deepMatchRune_isSome pattern) ih str
    rw [List.map_cons, tok]
    cases str with
    | nil =>
      simp only [deepMatchRune, Bool.false_eq_true, if_false]
      split_ifs
      · simp [matches_one]
      · exact hstar
      · simp [matches_lit]
    | cons c str =>
      simp only [deepMatchRune]
      split_ifs with h1 h2 h3
      · simp [matches_one, ih]
      · exact hstar
      · simp [matches_lit, h3, ih]
      · simp [matches_lit, h3]

theorem runes_eq_nil {s : Bytes} : runes s = [] ↔ s = [] := by
  cases s with
  | nil => simp
  | cons b s => simp [runes, runesFrom]

theorem wildcardMatch_iff (pattern name : Bytes) :
    wildcardMatch pattern name = true ↔ Matches ((runes pattern).map tok) (runes name) := by
  unfold wildcardMatch
  split_ifs with h1 h2
  · subst h1
    simp [runes_eq_nil]
  · subst h2
    have : (runes (lit "*")).map tok = [.many] := by decide
    rw [this, matches_many]
    exact ⟨fun _ => ⟨runes name, [], by simp, .nil⟩, fun _ => rfl⟩
  · rw [← deepMatchRune_eq_some_true]
    obtain ⟨b, hb⟩ := Option.isSome_iff_exists.1 (deepMatchRune_isSome (runes pattern) (runes name))
    simp [hb]

end S3Kinetic
