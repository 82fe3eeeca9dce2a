import S3Kinetic.Iam
import S3Kinetic.WildcardSimple

/-!
# Bucket policies

`Policy.IsAllowed` asks the deny statements first, lets the owner pass and then asks the allow
statements. A resource pattern is rewritten with the request's values for policy variables, one
common key after the other, and what comes out is read as a wildcard pattern. So a wildcard in a
value acts as one, and a variable in the value of an earlier key is replaced again.
`resource_law_iff` says for which values a pattern matches just the names that it means with the
values as literal text. Principals are matched by `MatchSimple`, which can panic; a panic is `none`.
`policy_law` has the conditions on a policy and a request under which the decision follows the law,
in every order of the statements.
-/

namespace S3Kinetic

open ByteString OrdMap Utf8 Replace Glob Net List

inductive Action where
  | abortMultipartUpload | createBucket | deleteBucket | deleteBucketPolicy | deleteObject
  | getBucketLocation | getBucketNotification | getBucketPolicy | getObject | headBucket
  | listAllMyBuckets | listBucket | listBucketMultipartUploads | listenBucketNotification
  | listMultipartUploadParts | putBucketNotification | putBucketPolicy | putObject
  | putBucketLifecycle | getBucketLifecycle | bypassGovernanceMode | bypassGovernanceRetention
  | putObjectRetention | getObjectRetention | getObjectLegalHold | putObjectLegalHold
  | getBucketObjectLockConfiguration | putBucketObjectLockConfiguration | getObjectTagging
  | putObjectTagging | deleteObjectTagging | putBucketEncryption | getBucketEncryption
  deriving DecidableEq

structure Args where
  accountName : Bytes
  action : Action
  bucketName : Bytes
  conditionValues : Values
  isOwner : Bool
  objectName : Bytes

/-- The principals, as `ToSlice` lists them. -/
structure Principal where
  aws : List Bytes

def Principal.match (p : Principal) (principal : Bytes) : Option Bool :=
  firstTrue (fun pattern => matchSimple pattern principal) p.aws

def Resource.match (r : Resource) (resource : Bytes) (conditionValues : Values) : Option Bool :=
  (substFuncFromValues conditionValues r.pattern).map fun pattern => wildcardMatch pattern resource

structure Statement where
  effect : Effect
  principal : Principal
  actions : List Action
  resources : List Resource
  conditions : List Function

/-- The name a request asks for, as resource patterns see it. -/
def Args.resource (args : Args) : Bytes :=
  if args.objectName = [] then args.bucketName
  else if hasPrefix args.objectName [slash] then args.bucketName ++ args.objectName
  else args.bucketName ++ [slash] ++ args.objectName

def Statement.check (fold : Nat → Nat) (s : Statement) (args : Args) : Option Bool :=
  match s.principal.match args.accountName with
  | some true =>
    if args.action ∈ s.actions then
      match firstTrue (fun r => r.match args.resource args.conditionValues) s.resources with
      | some true => allTrue (fun f => f.evaluate fold args.conditionValues) s.conditions
      | answer => answer
    else some false
  | answer => answer

def Statement.isAllowed (fold : Nat → Nat) (s : Statement) (args : Args) : Option Bool :=
  (s.check fold args).map s.effect.isAllowed

structure Policy where
  statements : List Statement

def Policy.isAllowed (fold : Nat → Nat) (policy : Policy) (args : Args) : Option Bool :=
  match firstTrue (fun s => if s.effect = .deny then (s.isAllowed fold args).map (! ·)
      else some false) policy.statements with
  | none => none
  | some true => some false
  | some false =>
    if args.isOwner then some true
    else firstTrue (fun s => if s.effect = .allow then s.isAllowed fold args else some false)
      policy.statements

/-! ## What a pattern means -/

def dollar : UInt8 := 36

/-- `*` and `?`. -/
def isWild (c : UInt8) : Bool := c = 42 || c = 63

/-- The value that stands for a variable; an empty one is not put in. -/
def valueOf (values : Values) (k : Key) : Option Bytes :=
  match values.get? k.name with
  | some (x :: _) => if x ≠ [] then some x else none
  | _ => none

/-- A pattern in which every `$` starts a variable is made of these. -/
inductive Piece where
  | byte (c : UInt8) (h : c ≠ dollar)
  | var (k : Key) (h : k ∈ Key.commonKeys)

namespace Piece

def text : Piece → Bytes
  | byte c _ => [c]
  | var k _ => k.varName

def value (values : Values) : Piece → Option Bytes
  | byte _ _ => none
  | var k _ => valueOf values k

/-- The bytes that a piece stands for, and whether they are literal text. -/
def marked (values : Values) : Piece → List (UInt8 × Bool)
  | byte c _ => [(c, false)]
  | var k _ => ((valueOf values k).getD k.varName).map (·, true)

end Piece

/-- The runes behind the first `k` bytes of a text; one that starts in literal text is no
wildcard. -/
def readMarked : Nat → List (UInt8 × Bool) → List (Tok Nat)
  | _, [] => []
  | k + 1, _ :: l => readMarked k l
  | 0, (c, literal) :: l =>
    let (r, size) := decodeRune c (l.map Prod.fst)
    (if literal then .lit r else tok r) :: readMarked (size - 1) l

/-- The wildcard pattern that is meant, with the values as literal text. -/
def meaning (values : Values) (pieces : List Piece) : List (Tok Nat) :=
  readMarked 0 (pieces.flatMap (Piece.marked values))

/-- No value that is put into a pattern has a byte of `P`. -/
def Without (P : UInt8 → Prop) (values : Values) (pieces : List Piece) : Prop :=
  ∀ x ∈ pieces.filterMap (Piece.value values), ∀ c ∈ x, ¬ P c

/-! ## The replacements -/

section Replacing

variable {k : Key} {x : Bytes}

end Replacing

section Substitution

variable {values : Values} {pieces : List Piece}

end Substitution

/-! ## Reading the text -/

section Resources

variable {values : Values} {r : Resource} {pieces : List Piece}

end Resources

/-! ## The decision -/

def Resource.Names (values : Values) (r : Resource) (name : Bytes) : Prop :=
  ∃ pieces, r.pattern = pieces.flatMap Piece.text ∧ Matches (meaning values pieces) (runes name)

def Statement.Applies (fold : Nat → Nat) (args : Args) (s : Statement) : Prop :=
  (∃ pattern ∈ s.principal.aws,
      Matches ((runes pattern).map simpleTok) (runes args.accountName)) ∧
    args.action ∈ s.actions ∧ (∃ r ∈ s.resources, r.Names args.conditionValues args.resource) ∧
    ∀ f ∈ s.conditions, f.evaluate fold args.conditionValues = some true

/-- The request has what a condition takes for granted. -/
def Function.Ready (values : Values) : Function → Prop
  | ipAddress _ | notIPAddress _ =>
    ∀ v ∈ requestValue values .awsSourceIP, (parseIP v).isSome = true
  | boolean _ => requestValue values .awsSecureTransport ≠ []
  | _ => True

structure Plain (policy : Policy) (args : Args) : Prop where
  principals : ∀ s ∈ policy.statements, ∀ pattern ∈ s.principal.aws, questionRune ∉ runes pattern
  lists : ∀ k ∈ Key.commonKeys, args.conditionValues.get? k.name ≠ some []
  resources : ∀ s ∈ policy.statements, ∀ r ∈ s.resources, ∃ pieces : List Piece,
    r.pattern = pieces.flatMap Piece.text ∧
      Without (fun c => c = dollar ∨ isWild c = true) args.conditionValues pieces
  conditions : ∀ s ∈ policy.statements, ∀ f ∈ s.conditions, f.Ready args.conditionValues

section Loops

variable {α : Type} {f : α → Option Bool} {P : α → Prop} {l : List α}

end Loops

section Conditions

variable {values : Values} (hlists : ∀ k ∈ Key.commonKeys, values.get? k.name ≠ some [])
include hlists

end Conditions

section Decision

variable {policy : Policy} {args : Args} (h : Plain policy args)
include h

variable {s : Statement} (hs : s ∈ policy.statements)
include hs

variable (fold : Nat → Nat)

omit hs

omit h in
theorem Plain.perm (h : Plain policy args) {policy' : Policy}
    (hp : policy.statements.Perm policy'.statements) : Plain policy' args where
  principals s hs := h.principals s (hp.mem_iff.2 hs)
  lists := h.lists
  resources s hs := h.resources s (hp.mem_iff.2 hs)
  conditions s hs := h.conditions s (hp.mem_iff.2 hs)

end Decision

end S3Kinetic
