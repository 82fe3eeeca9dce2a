import S3Kinetic.Lib.Decimal

/-!
# Numerals in a base up to thirty-six

`parseUint` reads a 64-bit numeral as `strconv.ParseUint` does, from the left until a character that
is no digit of the base or an overflow. `format` writes a number with the digits `0` to `9` and `a`
to `z`, and `pad` puts zeros in front of it.
-/

namespace Numerals

open List

open Decimal (NumError)

/-! ## Digits -/

/-- The value of a decimal digit or of a letter of either case. -/
def digitVal (c : UInt8) : Option Nat :=
  if 48 ≤ c ∧ c ≤ 57 then some (c.toNat - 48)
  else if 97 ≤ c ||| 32 ∧ c ||| 32 ≤ 122 then some ((c ||| 32).toNat - 97 + 10)
  else none

def digitChar (d : Nat) : UInt8 := if d < 10 then UInt8.ofNat (48 + d) else UInt8.ofNat (87 + d)

/-! ## Reading -/

/-- Reads the remaining digits of a 64-bit numeral. -/
def parseFrom (base a : Nat) : Bytes → Except NumError Nat
  | [] => .ok a
  | c :: s =>
    match digitVal c with
    | none => .error .errSyntax
    | some d =>
      if base ≤ d then .error .errSyntax
      else if base * a + d < 2 ^ 64 then parseFrom base (base * a + d) s
      else .error .errRange

/-- `strconv.ParseUint(s, base, 64)`. -/
def parseUint (base : Nat) (s : Bytes) : Except NumError Nat :=
  if s = [] then .error .errSyntax else parseFrom base 0 s

/-! ## Writing -/

/-- The numeral of a number, as `%d` and `%x` print it. -/
def format (base n : Nat) : Bytes :=
  if n = 0 then [digitChar 0] else ((Nat.digits base n).map digitChar).reverse

/-- A numeral with zeros in front, up to `w` characters. -/
def pad (w : Nat) (s : Bytes) : Bytes := List.replicate (w - s.length) (digitChar 0) ++ s

end Numerals
