import S3Kinetic.Lib.ByteString

/-!
# Network addresses as text

Reading IP addresses and networks' membership test, as the standard library of the source's language
does it. An address is its list of bytes, sixteen for both kinds.
-/

namespace Net

def big : Nat := 0xFFFFFF

def hexDigit (c : UInt8) : Option Nat :=
  if 48 ≤ c ∧ c ≤ 57 then some (c.toNat - 48)
  else if 97 ≤ c ∧ c ≤ 102 then some (c.toNat - 87)
  else if 65 ≤ c ∧ c ≤ 70 then some (c.toNat - 55)
  else none

/-- The leading number of a text in a base up to sixteen, and how many bytes it takes. -/
def readNumber (base : Nat) (s : Bytes) : Option (Nat × Nat) :=
  let digits := (s.map hexDigit).takeWhile fun d => d.any (· < base)
  let n := digits.foldl (fun n d => n * base + d.getD 0) 0
  if digits = [] ∨ big ≤ n then none else some (n, digits.length)

def dtoi : Bytes → Option (Nat × Nat) := readNumber 10
def xtoi : Bytes → Option (Nat × Nat) := readNumber 16

/-- The octets left to read; all but the first follow a dot, and none has a leading zero. -/
def readOctets : Nat → Bool → Bytes → Option (List Nat)
  | 0, _, s => if s = [] then some [] else none
  | k + 1, first, s =>
    match (if first then some s else if s.head? = some 46 then some s.tail else none) with
    | none => none
    | some s =>
      match dtoi s with
      | none => none
      | some (n, c) =>
        if 0xFF < n ∨ (1 < c ∧ s.head? = some 48) then none
        else (readOctets k false (s.drop c)).map (n :: ·)

def parseIPv4 (s : Bytes) : Option (List Nat) := readOctets 4 true s

/-- The groups of an IPv6 text: the bytes read, where the ellipsis stands, and the text left. -/
def readGroups : Nat → List Nat → Option Nat → Bytes → Option (List Nat × Option Nat × Bytes)
  | 0, ip, ellipsis, s => some (ip, ellipsis, s)
  | k + 1, ip, ellipsis, s =>
    match xtoi s with
    | none => none
    | some (n, c) =>
      if 0xFFFF < n then none
      else if (s.drop c).head? = some 46 then
        -- a trailing IPv4 address
        if (ellipsis = none ∧ ip.length ≠ 12) ∨ 16 < ip.length + 4 then none
        else (parseIPv4 s).map fun q => (ip ++ q, ellipsis, [])
      else
        match s.drop c with
        | [] => some (ip ++ [n / 256, n % 256], ellipsis, [])
        | x :: s =>
          if x ≠ 58 ∨ s = [] then none
          else if s.head? = some 58 then
            if ellipsis.isSome then none
            else if s.tail = [] then some (ip ++ [n / 256, n % 256], some (ip.length + 2), [])
            else readGroups k (ip ++ [n / 256, n % 256]) (some (ip.length + 2)) s.tail
          else readGroups k (ip ++ [n / 256, n % 256]) ellipsis s

def parseIPv6 (s : Bytes) : Option (List Nat) :=
  let leading := s.take 2 = [58, 58]
  let rest := if leading then s.drop 2 else s
  if leading ∧ rest = [] then some (List.replicate 16 0)
  else
    match readGroups 8 [] (if leading then some 0 else none) rest with
    | some (ip, ellipsis, []) =>
      if ip.length < 16 then
        ellipsis.map fun e => ip.take e ++ List.replicate (16 - ip.length) 0 ++ ip.drop e
      else if ellipsis.isSome then none
      else some ip
    | _ => none

/-- `net.ParseIP`. -/
def parseIP (s : Bytes) : Option (List Nat) :=
  match s.find? fun c => c = 46 || c = 58 with
  | some 46 => (parseIPv4 s).map fun q => List.replicate 10 0 ++ [0xFF, 0xFF] ++ q
  | some _ => parseIPv6 s
  | none => none

def to4 (ip : List Nat) : Option (List Nat) :=
  if ip.length = 4 then some ip
  else if ip.length = 16 ∧ ip.take 12 = List.replicate 10 0 ++ [0xFF, 0xFF] then some (ip.drop 12)
  else none

structure IPNet where
  ip : List Nat
  mask : List Nat
  deriving DecidableEq

/-- The network number and mask in the shorter form, both empty for an ill-formed network. -/
def IPNet.numberAndMask (n : IPNet) : List Nat × List Nat :=
  let ip := (to4 n.ip).getD n.ip
  if ip.length ≠ 4 ∧ ip.length ≠ 16 then ([], [])
  else if n.mask.length = 4 then if ip.length = 4 then (ip, n.mask) else ([], [])
  else if n.mask.length = 16 then (ip, if ip.length = 4 then n.mask.drop 12 else n.mask)
  else ([], [])

/-- `IPNet.Contains`. -/
def IPNet.contains (n : IPNet) (ip : List Nat) : Bool :=
  let (number, mask) := n.numberAndMask
  let ip := (to4 ip).getD ip
  ip.length = number.length && (List.zip mask (List.zip number ip)).all fun x =>
    x.2.1 &&& x.1 = x.2.2 &&& x.1

example : (parseIP (ByteString.lit "192.168.1.10")).bind to4 = some [192, 168, 1, 10] := by decide
example : parseIP (ByteString.lit "fe80::1") = some [254, 128, 0, 0, 0, 0, 0, 0, 0, 0, 0, 0, 0,
    0, 0, 1] := by
  decide
example : parseIP (ByteString.lit "fe80::1%eth0") = none := by decide

end Net
