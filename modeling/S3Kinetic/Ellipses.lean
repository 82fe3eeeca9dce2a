import S3Kinetic.Lib.Numerals
import S3Kinetic.Lib.Replace

/-!
# Ellipses (`pkg/ellipses`)

`FindEllipsesPatterns` takes ranges `{a...b}` off the right end of an argument with a greedy regular
expression, and `Expand` combines their values again. `argExpander_isSome` says that the recursion
over the labels always returns.
-/

namespace S3Kinetic.Ellipses

open ByteString Numerals Replace List
open Decimal (NumError)

/-! ## Ranges -/

def openBraces : UInt8 := 123

def closeBraces : UInt8 := 125

def ellipses : Bytes := lit "..."

inductive Err where
  /-- `Invalid argument` -/
  | invalidArgument
  /-- `strconv.ParseUint: parsing "num": ...` -/
  | numError (num : Bytes) (err : NumError)
  /-- `Incorrect range start %d cannot be bigger than end %d` -/
  | incorrectRange (start stop : Nat)
  /-- `ErrInvalidEllipsesFormatFn(arg)` -/
  | invalidEllipsesFormat (arg : Bytes)
  deriving DecidableEq

def trimPrefix (c : UInt8) (s : Bytes) : Bytes := if s.head? = some c then s.tail else s

def trimSuffix (c : UInt8) (s : Bytes) : Bytes := if s.getLast? = some c then s.dropLast else s

/-- A bound is read in base ten, or else in base sixteen. -/
def readBound (s : Bytes) : Except Err (Nat × Bool) :=
  match parseUint 10 s with
  | .ok n => .ok (n, false)
  | .error _ =>
    match parseUint 16 s with
    | .ok n => .ok (n, true)
    | .error e => .error (.numError s e)

structure Bounds where
  first : Bytes
  last : Bytes
  start : Nat
  stop : Nat
  hexadecimal : Bool
  deriving DecidableEq

/-- `parseEllipsesRange` up to its loop. -/
def readBounds (pattern : Bytes) : Except Err Bounds :=
  if openBraces ∉ pattern then .error .invalidArgument
  else if closeBraces ∉ pattern then .error .invalidArgument
  else
    match split (trimSuffix closeBraces (trimPrefix openBraces pattern)) ellipses with
    | [first, last] =>
      match readBound first with
      | .error e => .error e
      | .ok (start, hexStart) =>
        match readBound last with
        | .error e => .error e
        | .ok (stop, hexStop) =>
          if start > stop then .error (.incorrectRange start stop)
          else .ok ⟨first, last, start, stop, hexStart || hexStop⟩
    | _ => .error .invalidArgument

def zeroPadded (first last : Bytes) : Bool :=
  first.head? = some 48 && 1 < first.length || last.head? = some 48

/-- The widths that `fmt` takes: it stops reading a width once what it has read is above a
million. -/
def widthRead (w : Nat) : Bool := w / 10 ≤ 1000000

/-- `fmt.Sprintf` with the verb `%0wd` or `%0wx`. -/
def sprintfWidth (base w i : Nat) : Bytes :=
  if widthRead w then pad w (format base i)
  else lit "%!(NOVERB)%!(EXTRA uint64=" ++ format 10 i ++ lit ")"

/-- One element of the sequence. -/
def Bounds.label (b : Bounds) (i : Nat) : Bytes :=
  let base := if b.hexadecimal then 16 else 10
  if zeroPadded b.first b.last then sprintfWidth base b.last.length i else format base i

/-- `for i := start; i <= end; i++` over 64-bit numbers; `none` if it needs more than `fuel`
tests. -/
def rangeLoop (label : Nat → Bytes) (stop : Nat) : Nat → Nat → Option (List Bytes)
  | 0, _ => none
  | fuel + 1, i =>
    if i ≤ stop then (rangeLoop label stop fuel ((i + 1) % 2 ^ 64)).map (label i :: ·) else some []

def parseEllipsesRange (fuel : Nat) (pattern : Bytes) : Option (Except Err (List Bytes)) :=
  match readBounds pattern with
  | .error e => some (.error e)
  | .ok b => (rangeLoop b.label b.stop fuel b.start).map .ok

/-! ## Patterns -/

structure Pattern where
  pfx : Bytes
  sfx : Bytes
  seq : List Bytes
  deriving DecidableEq

abbrev ArgPattern := List Pattern

def Pattern.expand (p : Pattern) : List Bytes :=
  p.seq.map fun v =>
    if p.pfx ≠ [] ∧ p.sfx = [] then p.pfx ++ v
    else if p.sfx ≠ [] ∧ p.pfx = [] then v ++ p.sfx
    else if p.sfx = [] ∧ p.pfx = [] then v
    else p.pfx ++ v ++ p.sfx

/-- `argExpander`; it has no first element to look at without labels. -/
def argExpander : List (List Bytes) → Option (List (List Bytes))
  | [] => none
  | [label] => some (label.map fun v => [v])
  | label :: labels =>
    label.foldlM (fun out lbl => (argExpander labels).map fun rs => out ++ rs.map (· ++ [lbl])) []

def ArgPattern.expand (a : ArgPattern) : Option (List (List Bytes)) :=
  argExpander (a.map Pattern.expand)

def hasEllipses (args : List Bytes) : Bool :=
  args.all fun arg => ellipses <:+: arg || openBraces ∈ arg && closeBraces ∈ arg

/-! ## The regular expression

`(.*)({[0-9a-z]*\.\.\.[0-9a-z]*})(.*)`: a dot is no newline, so that the match lies in the first
line that has a range, and the first group takes what is in front of the last range there. -/

structure Submatch where
  pfx : Bytes
  range : Bytes
  sfx : Bytes
  deriving DecidableEq

/-- `[0-9a-z]` -/
def rangeChar (c : UInt8) : Bool := 48 ≤ c && c ≤ 57 || 97 ≤ c && c ≤ 122

def rangeText (first last : Bytes) : Bytes :=
  openBraces :: (first ++ (ellipses ++ (last ++ [closeBraces])))

/-- The range at the beginning of a text, and what follows it. -/
def matchRange : Bytes → Option (Bytes × Bytes)
  | [] => none
  | c :: s =>
    let afterFirst := s.dropWhile rangeChar
    let afterDots := afterFirst.drop ellipses.length
    let afterLast := afterDots.dropWhile rangeChar
    if c = openBraces ∧ ellipses <+: afterFirst ∧ afterLast.head? = some closeBraces then
      some (rangeText (s.takeWhile rangeChar) (afterDots.takeWhile rangeChar), afterLast.tail)
    else none

/-- The last range of a line. -/
def lastRange : Bytes → Option Submatch
  | [] => none
  | c :: s =>
    match lastRange s with
    | some m => some { m with pfx := c :: m.pfx }
    | none => (matchRange (c :: s)).map fun (range, sfx) => ⟨[], range, sfx⟩

def findStringSubmatch (s : Bytes) : Option Submatch := (s.splitOn 10).findSome? lastRange

def matchString (s : Bytes) : Bool := (findStringSubmatch s).isSome

/-! ## Finding the patterns -/

/-- The loop of `FindEllipsesPatterns` and the range that is left when it ends. -/
def peel (fuel : Nat) : Nat → Bool → Submatch → List Pattern → Option (Except Err (List Pattern))
  | _, false, parts, patterns =>
    match parseEllipsesRange fuel parts.range with
    | none => none
    | some (.error e) => some (.error e)
    | some (.ok seq) => some (.ok (patterns ++ [⟨parts.pfx, parts.sfx, seq⟩]))
  | 0, true, _, _ => none
  | n + 1, true, parts, patterns =>
    match parseEllipsesRange fuel parts.range with
    | none => none
    | some (.error e) => some (.error e)
    | some (.ok seq) =>
      match findStringSubmatch parts.pfx with
      | some parts' =>
        peel fuel n (hasEllipses [parts'.pfx]) parts' (patterns ++ [⟨[], parts.sfx, seq⟩])
      | none => some (.ok (patterns ++ [⟨[], parts.sfx, seq⟩]))

def hasBraces (s : Bytes) : Bool := openBraces ∈ s || closeBraces ∈ s

def findEllipsesPatterns (fuel : Nat) (arg : Bytes) : Option (Except Err ArgPattern) :=
  match findStringSubmatch arg with
  | none => some (.error (.invalidEllipsesFormat arg))
  | some parts =>
    match peel fuel fuel (matchString parts.pfx) parts [] with
    | none => none
    | some (.error e) => some (.error e)
    | some (.ok patterns) =>
      if patterns.any fun p => hasBraces p.pfx || hasBraces p.sfx then some
        (.error (.invalidEllipsesFormat arg))
      else some (.ok patterns)

def joined (a : ArgPattern) : Option (List Bytes) := a.expand.map fun out => out.map List.flatten

/-! ## Expanding -/

theorem Pattern.expand_eq (p : Pattern) : p.expand = p.seq.map fun v => p.pfx ++ v ++ p.sfx := by
  rw [Pattern.expand]
  refine map_congr_left fun v _ => ?_
  by_cases hp : p.pfx = []
  · by_cases hs : p.sfx = [] <;> simp [hp, hs]
  · by_cases hs : p.sfx = [] <;> simp [hp, hs]

theorem foldlM_append (label : List Bytes) (f : Bytes → List (List Bytes))
    (out : List (List Bytes)) :
    label.foldlM (fun out lbl => some (out ++ f lbl)) out = some (out ++ label.flatMap f) := by
  induction label generalizing out with
  | nil => simp
  | cons lbl label ih => simp [ih]

theorem argExpander_cons {label : List Bytes} {labels rs : List (List Bytes)}
    (h : argExpander labels = some rs) :
    argExpander (label :: labels) = some (label.flatMap fun lbl => rs.map (· ++ [lbl])) := by
  cases labels with
  | nil => cases h
  | cons l labels =>
    rw [argExpander]
    · simp only [h, Option.map_some]
      rw [foldlM_append, nil_append]
    · nofun

theorem argExpander_isSome {labels : List (List Bytes)} (h : labels ≠ []) :
    ∃ out, argExpander labels = some out := by
  induction labels with
  | nil => exact absurd rfl h
  | cons label labels ih =>
    cases labels with
    | nil => exact ⟨_, rfl⟩
    | cons l labels =>
      obtain ⟨rs, hrs⟩ := ih (by simp)
      exact ⟨_, argExpander_cons hrs⟩

end S3Kinetic.Ellipses
