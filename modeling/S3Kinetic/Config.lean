import S3Kinetic.Names
import S3Kinetic.Lib.Slices

/-!
# Configuration lines (`cmd/config/config.go`, `madmin/parse-kv.go`)

A line `sub-system:target key=value key="some words"` is cut at its first blank, its words at white
space. A word with `=` begins a pair, one without is glued to the value before it. The pairs then
update the list of the target.
-/

namespace S3Kinetic.Config

open List Slices

abbrev KV := Bytes × Bytes
abbrev KVS := List KV

def enableKey : Bytes := ByteString.lit "enable"
def enableOn : Bytes := ByteString.lit "on"
def commentKey : Bytes := ByteString.lit "comment"

def defaultTarget : Bytes := ByteString.lit "_"

inductive ConfigErr
  | emptyInput
  | arguments (s : Bytes)
  | unknownSubSystem (s : Bytes)
  | singleTarget (subSys : Bytes)
  | emptyValue (key : Bytes)
  | notOptional (key subSys : Bytes)

/-- `KVS.Set` as an edit of the list: the first pair with the key, or a new one. -/
def setEditor {α β : Type} [DecidableEq α] : Editor (α × β) (α × β) where
  edit kv kvs :=
    match kvs.findIdx? (·.1 = kv.1) with
    | some i => .set i kv
    | none => .push kv
  set_lt kv kvs i x h := by
    cases hf : kvs.findIdx? (·.1 = kv.1) with
    | none => simp [hf] at h
    | some j =>
      simp only [hf, Edit.set.injEq] at h
      exact h.1 ▸ (findIdx?_eq_some_iff_findIdx_eq.1 hf).1

def KVS.set (kvs : KVS) (key value : Bytes) : KVS := (setEditor.edit (key, value) kvs).apply kvs

/-- `KVS.Get`. -/
def KVS.get (kvs : KVS) (key : Bytes) : Bytes := (kvs.lookup key).getD []

structure Registry where
  subSystems : List Bytes
  singleTargets : List Bytes
  help : Bytes → List (Bytes × Bool)

/-! ## Words -/

/-- How many bytes the white space at the beginning of a text has, in UTF-8. -/
def spaceWidth : Bytes → Nat
  | 0xC2 :: 0x85 :: _ => 2
  | 0xC2 :: 0xA0 :: _ => 2
  | 0xE1 :: 0x9A :: 0x80 :: _ => 3
  | 0xE2 :: 0x80 :: c :: _ =>
    if (0x80 ≤ c && c ≤ 0x8A) || c == 0xA8 || c == 0xA9 || c == 0xAF then 3 else 0
  | 0xE2 :: 0x81 :: 0x9F :: _ => 3
  | 0xE3 :: 0x80 :: 0x80 :: _ => 3
  | c :: _ => if isAsciiSpace c then 1 else 0
  | [] => 0

/-- The words of what follows `skip` bytes of white space and the beginning `word` of a word. -/
def fieldsFrom : Nat → Bytes → Bytes → List Bytes
  | _, word, [] => if word = [] then [] else [word]
  | skip + 1, word, _ :: s => fieldsFrom skip word s
  | 0, word, c :: s =>
    match spaceWidth (c :: s) with
    | 0 => fieldsFrom 0 (word ++ [c]) s
    | w + 1 => (if word = [] then [] else [word]) ++ fieldsFrom w [] s

/-- `strings.Fields`. -/
def fields (s : Bytes) : List Bytes := fieldsFrom 0 [] s

/-- `strings.SplitN(s, sep, 2)`. -/
def splitTwo (sep : UInt8) : Bytes → Bytes × Option Bytes
  | [] => ([], none)
  | c :: s => if c = sep then ([], some s) else (c :: (splitTwo sep s).1, (splitTwo sep s).2)

def trimQuote (q : UInt8) (v : Bytes) : Bytes :=
  let v := if v.head? = some q then v.tail else v
  if v.getLast? = some q then v.dropLast else v

/-- `SanitizeValue`. -/
def sanitizeValue (v : Bytes) : Bytes := trimQuote 39 (trimQuote 34 (trimSpace v))

/-! ## A line -/

/-- One word, with the pairs so far and the key of the last one. -/
def parseWord (acc : KVS × Bytes) (v : Bytes) : Except ConfigErr (KVS × Bytes) :=
  match splitTwo 61 v with
  | (key, some value) => .ok (acc.1.set key (sanitizeValue value), key)
  | (word, none) =>
    if acc.2 ≠ [] then .ok (acc.1.set acc.2 (acc.1.get acc.2 ++ 32 :: sanitizeValue word), acc.2)
      else .error (.emptyValue word)

def parseWords (words : List Bytes) : Except ConfigErr KVS :=
  (words.foldlM parseWord ([], [])).map Prod.fst

/-- The sub-system, the target and the pairs of a line. -/
def parseLine (reg : Registry) (s : Bytes) : Except ConfigErr (Bytes × Bytes × KVS) :=
  if s = [] then .error .emptyInput
  else
    match splitTwo 32 s with
    | (_, none) => .error (.arguments s)
    | (head, some rest) =>
      match splitTwo 58 head with
      | (subSys, target) =>
        if subSys ∉ reg.subSystems then .error (.unknownSubSystem s)
        else if subSys ∈ reg.singleTargets ∧ target.isSome then .error (.singleTarget subSys)
        else (parseWords (fields rest)).map fun kvs => (subSys, target.getD defaultTarget, kvs)

/-- The state is `on` if it is not given and the sub-system has one. -/
def withEnable (defaults kvs : KVS) : KVS :=
  if kvs.lookup enableKey = none ∧ (defaults.lookup enableKey).isSome then kvs.set enableKey
    enableOn else kvs

def updates (kvs : KVS) : List KV :=
  kvs.filter (·.1 ≠ commentKey) ++ ((kvs.lookup commentKey).map fun v => (commentKey, v)).toList

/-- The check of the updated list: keys that are not optional have a value, if the sub-system is
enabled. -/
def checkRequired (reg : Registry) (defaults : KVS) (subSys : Bytes) (curr : KVS) :
    Option ConfigErr :=
  if (defaults.lookup enableKey).isSome ∧ curr.get enableKey ≠ enableOn then none
  else ((reg.help subSys).find? fun h => curr.get h.1 = [] ∧ h.2 = false).map fun h =>
    .notOptional h.1 subSys

end S3Kinetic.Config
