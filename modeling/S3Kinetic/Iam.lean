import S3Kinetic.Conditions
import S3Kinetic.Multipart
import S3Kinetic.Lib.Interleave

/-!
# Decisions of the identity system

`IAMSys.IsAllowed` joins the policies of a caller by appending their statements to those of the
first one, and evaluates the joint list. The first policy's statements are a slice of the stored
policy, so as long as its array has room the appended statements are written into that array, behind
the stored ones and under a read lock only. A call is modelled step by step, one step for each
append and for each statement that is looked at, over a memory of arrays; `iam_isolated` says when
calls do not see each other. A panic is the answer `none`.
-/

namespace S3Kinetic

open ByteString OrdMap

/-! ## Statements -/

inductive Effect where
  | allow | deny
  deriving DecidableEq

def Effect.isAllowed : Effect → Bool → Bool
  | .allow, b => b
  | .deny, b => !b

/-- A loop that returns at the first element it answers `true` for. -/
def firstTrue {α : Type} (f : α → Option Bool) : List α → Option Bool
  | [] => some false
  | a :: l =>
    match f a with
    | some false => firstTrue f l
    | answer => answer

/-- A loop that returns at the first element it answers `false` for. -/
def allTrue {α : Type} (f : α → Option Bool) : List α → Option Bool
  | [] => some true
  | a :: l =>
    match f a with
    | some true => allTrue f l
    | answer => answer

structure Resource where
  bucketName : Bytes
  pattern : Bytes

structure IamStatement where
  effect : Effect
  actions : List Bytes
  resources : List Resource
  conditions : List Function

/-- A claim of a token, by the Go type of its value; a list of values has `none` for what is not a
string. -/
inductive Claim where
  | str (s : Bytes)
  | strs (l : List Bytes)
  | values (l : List (Option Bytes))
  | other

structure IamArgs where
  accountName : Bytes
  action : Bytes
  bucketName : Bytes
  conditionValues : Values
  isOwner : Bool
  objectName : Bytes
  claims : OrdMap Bytes Claim

def supportedAdminActions : List Bytes :=
  [lit "admin:*", lit "admin:Heal", lit "admin:ServerInfo", lit "admin:StorageInfo",
   lit "admin:DataUsageInfo", lit "admin:PerfInfo", lit "admin:TopLocksInfo",
   lit "admin:Profiling", lit "admin:ServerTrace", lit "admin:ConsoleLog",
   lit "admin:KMSKeyStatus", lit "admin:HardwareInfo", lit "admin:ServerUpdate",
   lit "admin:ConfigUpdate", lit "admin:CreateUser", lit "admin:DeleteUser",
   lit "admin:ListUsers", lit "admin:EnableUser", lit "admin:DisableUser", lit "admin:GetUser",
   lit "admin:AddUserToGroup", lit "admin:RemoveUserFromGroup", lit "admin:ListGroups",
   lit "admin:EnableGroup", lit "admin:DisableGroup", lit "admin:CreatePolicy",
   lit "admin:DeletePolicy", lit "admin:GetPolicy", lit "admin:AttachUserOrGroupPolicy",
   lit "admin:ListUserPolicies"]

def IamStatement.isAdmin (s : IamStatement) : Bool := s.actions.all (· ∈ supportedAdminActions)

/-- `path.Clean`. -/
def pathClean (path : Bytes) : Bytes :=
  let rooted := hasPrefix path [slash]
  let clean := [slash].intercalate (cleanParts rooted (path.splitOn slash) [])
  if rooted then slash :: clean else if clean = [] then lit "." else clean

/-- `Resource.Match` of identity policies. -/
def Resource.iamMatch (r : Resource) (resource : Bytes) (conditionValues : Values) : Option Bool :=
  (substFuncFromValues conditionValues r.pattern).map fun pattern =>
    pathClean resource = pattern ∨ wildcardMatch pattern resource

def IamArgs.resource (args : IamArgs) : Bytes :=
  if args.objectName = [] then args.bucketName ++ [slash]
  else if hasPrefix args.objectName [slash] then args.bucketName ++ args.objectName
  else args.bucketName ++ [slash] ++ args.objectName

def IamStatement.check (fold : Nat → Nat) (s : IamStatement) (args : IamArgs) : Option Bool :=
  if s.actions.any fun a => wildcardMatch a args.action then
    match firstTrue (fun r => r.iamMatch args.resource args.conditionValues) s.resources with
    | none => none
    | some found =>
      if !found && !s.isAdmin then some false
      else allTrue (fun f => f.evaluate fold args.conditionValues) s.conditions
  else some false

def IamStatement.isAllowed (fold : Nat → Nat) (s : IamStatement) (args : IamArgs) : Option Bool :=
  (s.check fold args).map s.effect.isAllowed

/-- `Policy.IsAllowed` over statements that nobody else sees. -/
def iamIsAllowed (fold : Nat → Nat) (args : IamArgs) (stmts : List IamStatement) : Option Bool :=
  match firstTrue (fun s => if s.effect = .deny then (s.isAllowed fold args).map (! ·)
      else some false) stmts with
  | none => none
  | some true => some false
  | some false =>
    if args.isOwner then some true
    else firstTrue (fun s => if s.effect = .allow then s.isAllowed fold args else some false) stmts

/-! ## Slices -/

inductive ArrayId where
  | stored (n : Nat)
  | allocated (call n : Nat)
  deriving DecidableEq

/-- A view of an array: `len` cells from `off` on, with room for `cap`. -/
structure Slice where
  array : ArrayId
  off : Nat
  len : Nat
  cap : Nat
  deriving DecidableEq

abbrev Cell := ArrayId × Nat

abbrev Arrays := Cell → IamStatement

/-- Cell `i` of a slice. -/
def Slice.cell (s : Slice) (i : Nat) : Cell := (s.array, s.off + i)

def Slice.read (s : Slice) (m : Arrays) : List IamStatement :=
  (List.range s.len).map fun i => m (s.cell i)

/-- `vals` written from a cell on. -/
def writeCells (m : Arrays) (a : ArrayId) (start : Nat) (vals : List IamStatement) :
    Arrays := fun c =>
  if c.1 = a ∧ start ≤ c.2 then vals[c.2 - start]?.getD (m c) else m c

structure PolicyDoc where
  array : Nat
  off : Nat
  len : Nat
  cap : Nat
  len_le : len ≤ cap
  deriving DecidableEq

def PolicyDoc.slice (p : PolicyDoc) : Slice := ⟨.stored p.array, p.off, p.len, p.cap⟩

/-! ## What a call evaluates -/

/-- What the identity system works with: simple case folding, the parser of session policies (their
version and statements), the growth of a full slice, the external policy agent, the name of the
policy claim, and whether the object layer is up. -/
structure IamEnv where
  fold : Nat → Nat
  parseConfig : Bytes → Option (Bytes × List IamStatement)
  grow : Nat → Nat → Nat
  globalPolicyOPA : Option (IamArgs → Bool)
  iamPolicyClaimName : Bytes
  objectAPI : Bool

structure IamUser where
  disabled : Bool
  sessionToken : Bytes

/-- The maps of the identity system; the groups of a user are as `ToSlice` lists them. -/
structure IAMSys where
  iamUsersMap : OrdMap Bytes IamUser
  iamGroupsDisabled : OrdMap Bytes Bool
  iamUserGroupMemberships : OrdMap Bytes (List Bytes)
  iamUserPolicyMap : OrdMap Bytes Bytes
  iamGroupPolicyMap : OrdMap Bytes Bytes
  iamPolicyDocsMap : OrdMap Bytes PolicyDoc

inductive IamCall where
  | isAllowed (args : IamArgs)
  | isAllowedSTS (args : IamArgs)

def IamCall.args : IamCall → IamArgs
  | .isAllowed args => args
  | .isAllowedSTS args => args

/-- What a call has to do: nothing more, or to evaluate the first policy joined with the others, and
a session policy if there is one. -/
inductive Decision where
  | answer (b : Bool)
  | evaluate (first : PolicyDoc) (others : List PolicyDoc) (session : Option (List IamStatement))

def evaluateAll : List PolicyDoc → Decision
  | [] => .answer false
  | p :: ps => .evaluate p ps none

def IAMSys.docs (sys : IAMSys) (names : List Bytes) : List PolicyDoc :=
  names.filterMap sys.iamPolicyDocsMap.get?

/-- `policyDBGet` for a user; an error is `none`. -/
def IAMSys.policyDBGet (sys : IAMSys) (name : Bytes) : Option (List Bytes) :=
  match sys.iamUsersMap.get? name with
  | none => none
  | some u =>
    if u.disabled then some []
    else
      let groups := ((sys.iamUserGroupMemberships.get? name).getD []).filter fun g =>
        sys.iamGroupsDisabled.get? g = some false
      some (((sys.iamUserPolicyMap.get? name).toList ++
        groups.filterMap sys.iamGroupPolicyMap.get?).filter (· ≠ []))

def Claim.getPolicies : Claim → Option (List Bytes)
  | .str s => some (s.splitOn 44)
  | .strs l => some l
  | _ => none

def IAMSys.isAllowedSTS (E : IamEnv) (sys : IAMSys) (args : IamArgs) : Decision :=
  match args.claims.get? (lit "ldapUser") with
  | some (.str user) =>
    match args.claims.get? (lit "ldapGroups") with
    | some (.values groups) =>
      let names := (sys.iamUserPolicyMap.get? user).toList ++
        (groups.filterMap id).filterMap sys.iamGroupPolicyMap.get?
      evaluateAll (sys.docs names)
    | _ => .answer false
  | some _ => .answer false
  | none =>
    match (args.claims.get? E.iamPolicyClaimName).bind Claim.getPolicies with
    | some (pname :: _) =>
      if sys.iamUserPolicyMap.get? args.accountName ≠ some pname then .answer false
      else
        match args.claims.get? (lit "sessionPolicy") with
        | none => evaluateAll (sys.docs [pname])
        | some (.str text) =>
          match E.parseConfig text, sys.iamPolicyDocsMap.get? pname with
          | some (version, stmts), some p =>
            if version = [] then .answer false else .evaluate p [] (some stmts)
          | _, _ => .answer false
        | some _ => .answer false
    | _ => .answer false

def IAMSys.isAllowed (E : IamEnv) (sys : IAMSys) (args : IamArgs) : Decision :=
  match E.globalPolicyOPA with
  | some opa => .answer (opa args)
  | none =>
    if args.isOwner then .answer true
    else if !E.objectAPI then .answer false
    else
      match sys.iamUsersMap.get? args.accountName with
      | none => .answer false
      | some u =>
        if u.sessionToken ≠ [] then sys.isAllowedSTS E args
        else if args.accountName = [] then .answer false
        else
          match sys.policyDBGet args.accountName with
          | none => .answer false
          | some names => evaluateAll (sys.docs names)

def IAMSys.decision (E : IamEnv) (sys : IAMSys) : IamCall → Decision
  | .isAllowed args => sys.isAllowed E args
  | .isAllowedSTS args => sys.isAllowedSTS E args

/-! ## Calls, step by step -/

/-- Where a call stands: joining the statements (with the number of arrays it has allocated), in the
loop over deny statements, in the loop over allow statements, or returned. -/
inductive CallState where
  | combining (cur : Slice) (rest : List PolicyDoc) (allocs : Nat)
  | denying (cur : Slice) (i : Nat)
  | allowing (cur : Slice) (i : Nat)
  | returned (answer : Option Bool)
  deriving DecidableEq

/-- After the joint policy's answer. -/
def CallState.finish (fold : Nat → Nat) (args : IamArgs) (session : Option (List IamStatement))
    (b : Bool) : CallState :=
  .returned (if b then session.elim (some true) (iamIsAllowed fold args) else some false)

/-- One round of the loop over deny statements, at statement `s`. -/
def CallState.afterDeny (fold : Nat → Nat) (args : IamArgs) (cur : Slice) (i : Nat)
    (s : IamStatement) : CallState :=
  if s.effect = .deny then
    match s.isAllowed fold args with
    | some true => .denying cur (i + 1)
    | answer => .returned answer
  else .denying cur (i + 1)

/-- One round of the loop over allow statements, at statement `s`. -/
def CallState.afterAllow (fold : Nat → Nat) (args : IamArgs) (session : Option (List IamStatement))
    (cur : Slice) (i : Nat) (s : IamStatement) : CallState :=
  if s.effect = .allow then
    match s.isAllowed fold args with
    | some false => .allowing cur (i + 1)
    | some true => finish fold args session true
    | none => .returned none
  else .allowing cur (i + 1)

/-- One step of call `t`. -/
def callStep (E : IamEnv) (args : IamArgs) (session : Option (List IamStatement)) (t : Nat)
    (m : Arrays) :
    CallState → Arrays × CallState
  | .combining cur [] _ => (m, .denying cur 0)
  | .combining cur (p :: rest) n =>
    let needed := cur.len + p.len
    -- an append that finds room writes behind the slice, in the array it has
    if needed ≤ cur.cap then
      (writeCells m cur.array (cur.off + cur.len) (p.slice.read m),
        .combining { cur with len := needed } rest n)
    else
      (writeCells m (.allocated t n) 0 (cur.read m ++ p.slice.read m),
       .combining ⟨.allocated t n, 0, needed, max needed (E.grow cur.cap needed)⟩ rest (n + 1))
  | .denying cur i =>
    (m,
     if i < cur.len then .afterDeny E.fold args cur i (m (cur.cell i))
     else if args.isOwner then .finish E.fold args session true
     else .allowing cur 0)
  | .allowing cur i =>
    (m,
     if i < cur.len then .afterAllow E.fold args session cur i (m (cur.cell i))
     else .finish E.fold args session false)
  | .returned answer => (m, .returned answer)

def Decision.start : Decision → CallState
  | .answer b => .returned (some b)
  | .evaluate first others _ => .combining first.slice others 0

def Decision.session : Decision → Option (List IamStatement)
  | .answer _ => none
  | .evaluate _ _ session => session

section Runs

variable (E : IamEnv) (sys : IAMSys) (calls : Nat → IamCall)

/-- A step of the concurrent calls `calls 0`, `calls 1`, … -/
def iamStep (t : Nat) (m : Arrays) (l : CallState) : Arrays × CallState :=
  callStep E (calls t).args (sys.decision E (calls t)).session t m l

def iamRun (m : Arrays) (sched : List Nat) : Interleave.State Cell IamStatement CallState :=
  Interleave.run (iamStep E sys calls) ⟨m, fun t => (sys.decision E (calls t)).start⟩ sched

/-- Call `t` alone, for `n` steps. -/
def iamAlone (m : Arrays) (t n : Nat) : CallState :=
  (iamRun E sys calls m (List.replicate n t)).loc t

/-- Every call returns what it returns alone, and the stored policies stay as they are. -/
structure Isolated (m : Arrays) : Prop where
  answers : ∀ t, ∃ n answer, iamAlone E sys calls m t n = .returned answer ∧
    ∀ sched : List Nat, n ≤ sched.count t → (iamRun E sys calls m sched).loc t = .returned answer
  alone : ∀ t sched answer, (iamRun E sys calls m sched).loc t = .returned answer →
    ∃ n, iamAlone E sys calls m t n = .returned answer
  policies : ∀ sched name p, sys.iamPolicyDocsMap.get? name = some p →
    p.slice.read (iamRun E sys calls m sched).mem = p.slice.read m

end Runs

/-! ## Room in the first policy's array -/

/-- How long a slice becomes in its own array. -/
def inPlaceLen (cap : Nat) : Nat → List PolicyDoc → Nat
  | len, [] => len
  | len, p :: rest => if len + p.len ≤ cap then inPlaceLen cap (len + p.len) rest else len

/-- The cells of a stored array that a call writes. -/
def Decision.writes : Decision → Set Cell
  | .answer _ => ∅
  | .evaluate first others _ =>
    {c | ∃ i, first.len ≤ i ∧ i < inPlaceLen first.cap first.len others ∧ c = first.slice.cell i}

def IAMSys.cells (sys : IAMSys) : Set Cell :=
  {c | ∃ name p i, sys.iamPolicyDocsMap.get? name = some p ∧ i < p.len ∧ c = p.slice.cell i}

/-- No call writes into a stored policy, and no two calls write the same cell of a stored array. -/
def CallsApart (E : IamEnv) (sys : IAMSys) (calls : Nat → IamCall) : Prop :=
  (∀ t, ∀ c ∈ (sys.decision E (calls t)).writes, c ∉ sys.cells) ∧
    ∀ t t', t ≠ t' → ∀ c ∈ (sys.decision E (calls t)).writes, c ∉ (sys.decision E (calls t')).writes

theorem le_inPlaceLen (cap len : Nat) (rest : List PolicyDoc) : len ≤ inPlaceLen cap len rest := by
  induction rest generalizing len with
  | nil => exact Nat.le_refl _
  | cons p rest ih =>
    rw [inPlaceLen]
    split_ifs
    · exact (Nat.le_add_right _ _).trans (ih _)
    · exact Nat.le_refl _

theorem length_read (s : Slice) (m : Arrays) : (s.read m).length = s.len := by simp [Slice.read]

theorem read_congr {s : Slice} {m m' : Arrays} (h : ∀ i < s.len, m (s.cell i) = m' (s.cell i)) :
    s.read m = s.read m' :=
  List.map_congr_left fun i hi => h i (List.mem_range.1 hi)

theorem writeCells_eq_or (m : Arrays) (a : ArrayId) (start : Nat)
    (vals : List IamStatement) (c : Cell) :
    writeCells m a start vals c = m c ∨ ∃ i < vals.length, c = (a, start + i) := by
  unfold writeCells
  split_ifs with h
  · by_cases hi : c.2 - start < vals.length
    · refine .inr ⟨_, hi, Prod.ext h.1 ?_⟩
      have := h.2
      simp only
      omega
    · exact .inl (by rw [List.getElem?_eq_none (by omega)]; rfl)
  · exact .inl rfl

theorem writeCells_congr {m m' : Arrays} {a : ArrayId} {start : Nat}
    {vals : List IamStatement} {c : Cell}
    (h : m c = m' c) : writeCells m a start vals c = writeCells m' a start vals c := by
  unfold writeCells
  rw [h]

/-! ## What a call touches -/

section Footprint

variable {E : IamEnv} {sys : IAMSys} {calls : Nat → IamCall}

/-- The cells that call `t` writes. -/
def writeSet (E : IamEnv) (sys : IAMSys) (calls : Nat → IamCall) (t : Nat) : Set Cell :=
  (sys.decision E (calls t)).writes ∪ {c | ∃ n, c.1 = .allocated t n}

/-- The cells that call `t` depends on. -/
def readSet (E : IamEnv) (sys : IAMSys) (calls : Nat → IamCall) (t : Nat) : Set Cell :=
  writeSet E sys calls t ∪ sys.cells

/-- The slice of call `t` lies in what it reads, and where it has room for the rest, in what it
writes. -/
def CallInv (E : IamEnv) (sys : IAMSys) (calls : Nat → IamCall) (t : Nat) : CallState → Prop
  | .combining cur rest _ =>
    (∀ i < cur.len, cur.cell i ∈ readSet E sys calls t) ∧
      (∀ i, cur.len ≤ i → i < inPlaceLen cur.cap cur.len rest →
        cur.cell i ∈ writeSet E sys calls t) ∧
      ∀ p ∈ rest, ∀ i < p.len, p.slice.cell i ∈ sys.cells
  | .denying cur _ => ∀ i < cur.len, cur.cell i ∈ readSet E sys calls t
  | .allowing cur _ => ∀ i < cur.len, cur.cell i ∈ readSet E sys calls t
  | .returned _ => True

/-- A decision evaluates stored policies. -/
def Decision.Stored (sys : IAMSys) : Decision → Prop
  | .answer _ => True
  | .evaluate first others _ =>
    ∀ p ∈ first :: others, ∃ name, sys.iamPolicyDocsMap.get? name = some p

theorem evaluateAll_stored (names : List Bytes) : (evaluateAll (sys.docs names)).Stored sys := by
  cases h : sys.docs names with
  | nil => trivial
  | cons p ps =>
    intro q hq
    obtain ⟨name, -, hn⟩ := List.mem_filterMap.1 (h.symm ▸ hq : q ∈ sys.docs names)
    exact ⟨name, hn⟩

theorem isAllowedSTS_stored (args : IamArgs) : (sys.isAllowedSTS E args).Stored sys := by
  unfold IAMSys.isAllowedSTS
  split
  · split
    · exact evaluateAll_stored _
    · trivial
  · trivial
  · split
    · split_ifs
      · trivial
      · split
        · exact evaluateAll_stored _
        · split
          · rename_i hp
            split_ifs
            · trivial
            · intro q hq
              obtain rfl := List.mem_singleton.1 hq
              exact ⟨_, hp⟩
          · trivial
        · trivial
    · trivial

theorem decision_stored (E : IamEnv) (sys : IAMSys) (call : IamCall) :
    (sys.decision E call).Stored sys := by
  cases call with
  | isAllowedSTS args => exact isAllowedSTS_stored args
  | isAllowed args =>
    rw [IAMSys.decision, IAMSys.isAllowed]
    cases E.globalPolicyOPA with
    | some opa => trivial
    | none =>
      by_cases ho : args.isOwner = true
      · simp [ho, Decision.Stored]
      · by_cases hapi : E.objectAPI = true
        · simp only [ho, hapi, Bool.false_eq_true, if_false, Bool.not_true]
          cases sys.iamUsersMap.get? args.accountName with
          | none => trivial
          | some u =>
            simp only
            split_ifs
            · exact isAllowedSTS_stored args
            · trivial
            · cases sys.policyDBGet args.accountName with
              | none => trivial
              | some names => exact evaluateAll_stored _
        · simp [ho, hapi, Decision.Stored]

theorem callInv_start (t : Nat) : CallInv E sys calls t (sys.decision E (calls t)).start := by
  have hs := decision_stored E sys (calls t)
  cases hd : sys.decision E (calls t) with
  | answer b => trivial
  | evaluate first others session =>
    rw [hd] at hs
    have hcells : ∀ p ∈ first :: others, ∀ i < p.len, p.slice.cell i ∈ sys.cells :=
      fun p hp i hi => by
      obtain ⟨name, hn⟩ := hs p hp
      exact ⟨name, p, i, hn, hi, rfl⟩
    refine ⟨fun i hi => .inr (hcells first (by simp) i hi), fun i hlo hhi => .inl ?_,
      fun p hp => hcells p (by simp [hp])⟩
    rw [hd]
    exact ⟨i, hlo, hhi, rfl⟩

theorem combining_append {t : Nat} {cur : Slice} {p : PolicyDoc} {rest : List PolicyDoc} {n : Nat}
    (h : CallInv E sys calls t (.combining cur (p :: rest) n)) (hroom : cur.len + p.len ≤ cur.cap) :
    (∀ i < p.len, (cur.array, cur.off + cur.len + i) ∈ writeSet E sys calls t) ∧
      CallInv E sys calls t (.combining { cur with len := cur.len + p.len } rest n) := by
  obtain ⟨hr, hw, hp⟩ := h
  rw [inPlaceLen, if_pos hroom] at hw
  have hle := le_inPlaceLen cur.cap (cur.len + p.len) rest
  have hnew : ∀ i < p.len, (cur.array, cur.off + cur.len + i) ∈ writeSet E sys calls t :=
    fun i hi => by
    have := hw (cur.len + i) (by omega) (by omega)
    rwa [Slice.cell, ← Nat.add_assoc] at this
  refine ⟨hnew, fun i hi => ?_, fun i hlo hhi => hw i (by simp only at hlo; omega) hhi,
    fun q hq => hp q (by simp [hq])⟩
  by_cases hlt : i < cur.len
  · exact hr i hlt
  · exact .inl (hw i (by omega) (by simp only at hi; omega))

theorem footprint (h : CallsApart E sys calls) :
    Interleave.Footprint (iamStep E sys calls) (CallInv E sys calls) (writeSet E sys calls)
      (readSet E sys calls) where
  inv := by
    intro t m l hl
    cases l with
    | returned a => trivial
    | allowing cur i =>
      simp only [iamStep, callStep, CallState.afterAllow, CallState.finish]
      split_ifs <;> first | exact hl | trivial | (split <;> first | exact hl | trivial)
    | denying cur i =>
      simp only [iamStep, callStep, CallState.afterDeny, CallState.finish]
      split_ifs <;> first | exact hl | trivial | (split <;> first | exact hl | trivial)
    | combining cur rest n =>
      cases rest with
      | nil => exact hl.1
      | cons p rest =>
        simp only [iamStep, callStep]
        split_ifs with hroom
        · exact (combining_append hl hroom).2
        · exact ⟨fun i _ => .inl (.inr ⟨n, rfl⟩), fun i _ _ => .inr ⟨n, rfl⟩,
            fun q hq => hl.2.2 q (by simp [hq])⟩
  frame := by
    intro t m l hl a ha
    cases l with
    | returned _ | allowing _ _ | denying _ _ => rfl
    | combining cur rest n =>
      cases rest with
      | nil => rfl
      | cons p rest =>
        simp only [iamStep, callStep]
        split_ifs with hroom
        · refine (writeCells_eq_or ..).resolve_right ?_
          rintro ⟨i, hi, rfl⟩
          rw [length_read] at hi
          exact ha ((combining_append hl hroom).1 i hi)
        · refine (writeCells_eq_or ..).resolve_right ?_
          rintro ⟨i, -, rfl⟩
          exact ha (.inr ⟨n, rfl⟩)
  loc := by
    intro t m m' l hl hm
    cases l with
    | returned _ => rfl
    | allowing cur i =>
      simp only [iamStep, callStep]
      split_ifs with hi
      · rw [hm _ (hl i hi)]
      · rfl
    | denying cur i =>
      simp only [iamStep, callStep]
      split_ifs with hi
      · rw [hm _ (hl i hi)]
      · rfl
      · rfl
    | combining cur rest n =>
      cases rest with
      | nil => rfl
      | cons p rest =>
        simp only [iamStep, callStep]
        split_ifs <;> rfl
  mem := by
    intro t m m' l hl hm a ha
    cases l with
    | returned _ | allowing _ _ | denying _ _ => exact hm a ha
    | combining cur rest n =>
      cases rest with
      | nil => exact hm a ha
      | cons p rest =>
        have hp : p.slice.read m = p.slice.read m' :=
          read_congr fun i hi => hm _ (.inr (hl.2.2 p (by simp) i hi))
        have hc : cur.read m = cur.read m' := read_congr fun i hi => hm _ (hl.1 i hi)
        simp only [iamStep, callStep]
        split_ifs
        · rw [hp]
          exact writeCells_congr (hm a ha)
        · rw [hp, hc]
          exact writeCells_congr (hm a ha)
  apart := by
    obtain ⟨hstored, hpair⟩ := h
    have hout : ∀ t c, c ∈ (sys.decision E (calls t)).writes ∨ c ∈ sys.cells →
        ∃ k, c.1 = .stored k := by
      rintro t c (hc | ⟨name, p, i, -, -, rfl⟩)
      · cases hd : sys.decision E (calls t) with
        | answer b => rw [hd] at hc; exact hc.elim
        | evaluate first others session =>
          rw [hd] at hc
          obtain ⟨i, -, -, rfl⟩ := hc
          exact ⟨_, rfl⟩
      · exact ⟨_, rfl⟩
    rintro t t' hne c ((hc | ⟨k, hk⟩) | hc) (hw | ⟨k', hk'⟩)
    · exact hpair t t' hne c hc hw
    · obtain ⟨k, hk⟩ := hout t c (.inl hc)
      rw [hk] at hk'
      cases hk'
    · obtain ⟨k', hk'⟩ := hout t' c (.inl hw)
      rw [hk] at hk'
      cases hk'
    · rw [hk] at hk'
      cases hk'
      exact hne rfl
    · exact hstored t' c hw hc
    · obtain ⟨k, hk⟩ := hout t c (.inr hc)
      rw [hk] at hk'
      cases hk'

end Footprint

/-! ## Calls return -/

/-- An upper bound for the steps a call has left. -/
def CallState.left : CallState → Nat
  | .combining cur rest _ => rest.length + 3 + 2 * (cur.len + (rest.map PolicyDoc.len).sum)
  | .denying cur i => (cur.len - i) + cur.len + 2
  | .allowing cur i => (cur.len - i) + 1
  | .returned _ => 0

theorem left_callStep (E : IamEnv) (args : IamArgs) (session : Option (List IamStatement))
    (t : Nat) (m : Arrays)
    (l : CallState) : (callStep E args session t m l).2.left ≤ l.left - 1 := by
  cases l with
  | returned a => exact Nat.le_refl _
  | allowing cur i =>
    simp only [callStep, CallState.afterAllow, CallState.finish]
    split_ifs <;> first
      | (split <;> simp only [CallState.left] <;> omega)
      | (simp only [CallState.left]; omega)
  | denying cur i =>
    simp only [callStep, CallState.afterDeny, CallState.finish]
    split_ifs <;> first
      | (split <;> simp only [CallState.left] <;> omega)
      | (simp only [CallState.left]; omega)
  | combining cur rest n =>
    cases rest with
    | nil => simp [callStep, CallState.left]; omega
    | cons p rest =>
      simp only [callStep]
      split_ifs <;> simp [CallState.left] <;> omega

theorem exists_of_left_eq_zero {l : CallState} (h : l.left = 0) :
    ∃ answer, l = .returned answer := by
  cases l with
  | returned answer => exact ⟨answer, rfl⟩
  | _ => simp [CallState.left] at h

section

variable {E : IamEnv} {sys : IAMSys} {calls : Nat → IamCall}

theorem iamAlone_succ (m : Arrays) (t n : Nat) :
    iamAlone E sys calls m t (n + 1) =
      (iamStep E sys calls t (iamRun E sys calls m (List.replicate n t)).mem
        (iamAlone E sys calls m t n)).2 := by
  rw [iamAlone, iamRun, List.replicate_succ', Interleave.run_concat, Interleave.stepAt]
  exact Function.update_self ..

theorem iamAlone_of_le {m : Arrays} {t n k : Nat} {answer : Option Bool}
    (h : iamAlone E sys calls m t n = .returned answer)
    (hk : n ≤ k) : iamAlone E sys calls m t k = .returned answer := by
  induction k, hk using Nat.le_induction with
  | base => exact h
  | succ k _ ih =>
    rw [iamAlone_succ, ih]
    rfl

theorem exists_returned (E : IamEnv) (sys : IAMSys) (calls : Nat → IamCall) (m : Arrays) (t : Nat) :
    ∃ n answer, iamAlone E sys calls m t n = .returned answer := by
  have hdec : ∀ m l, (iamStep E sys calls t m l).2.left ≤ l.left - 1 := fun _ _ => left_callStep ..
  have h := Interleave.run_replicate_rest CallState.left hdec ⟨m,
    fun t => (sys.decision E (calls t)).start⟩
    (sys.decision E (calls t)).start.left
  exact ⟨_, exists_of_left_eq_zero (Nat.le_zero.1 (h.trans (Nat.sub_self _).le))⟩

/-- Calls that write into different places do not see each other. -/
theorem iam_isolated (m : Arrays) (h : CallsApart E sys calls) : Isolated E sys calls m := by
  have F := footprint h
  have halone : ∀ sched t, (iamRun E sys calls m sched).loc t =
      iamAlone E sys calls m t (sched.count t) :=
    fun sched t => (F.alone callInv_start sched t).1
  refine ⟨fun t => ?_, fun t sched answer hr => ⟨_, (halone sched t).symm.trans hr⟩,
    fun sched name p hp => ?_⟩
  · obtain ⟨n, answer, hn⟩ := exists_returned E sys calls m t
    exact ⟨n, answer, hn, fun sched hle => (halone sched t).trans (iamAlone_of_le hn hle)⟩
  · refine read_congr fun i hi => F.mem_run callInv_start (fun t hw => ?_) sched
    rcases hw with hw | ⟨k, hk⟩
    · exact h.1 t _ hw ⟨name, p, i, hp, hi, rfl⟩
    · cases hk

theorem inPlaceLen_le {cap len : Nat} (rest : List PolicyDoc) (h : len ≤ cap) :
    inPlaceLen cap len rest ≤ cap := by
  induction rest generalizing len with
  | nil => exact h
  | cons p rest ih =>
    rw [inPlaceLen]
    split_ifs with hp
    · exact ih hp
    · exact h

theorem callsApart_of_full (hfull : ∀ name p, sys.iamPolicyDocsMap.get? name = some p →
    p.len = p.cap) :
    CallsApart E sys calls := by
  have hempty : ∀ t c, c ∉ (sys.decision E (calls t)).writes := by
    intro t c hc
    have hs := decision_stored E sys (calls t)
    cases hd : sys.decision E (calls t) with
    | answer b => rw [hd] at hc; exact hc
    | evaluate first others session =>
      rw [hd] at hc hs
      obtain ⟨i, hlo, hhi, -⟩ := hc
      obtain ⟨name, hn⟩ := hs first (by simp)
      have := inPlaceLen_le others first.len_le
      have := hfull name first hn
      omega
  exact ⟨fun t c hc => absurd hc (hempty t c), fun t _ _ c hc => absurd hc (hempty t c)⟩

end

/-! ## Two users with one first policy -/

def emptyStatement : IamStatement := ⟨.allow, [], [], []⟩

def allowStatement (action : Bytes) : IamStatement :=
  ⟨.allow, [action], [⟨lit "docs", lit "docs/*"⟩], []⟩

/-- Three policies of one statement: `list`, `read` and `write`. -/
def threePolicies : Arrays
  | (.stored 0, 0) => allowStatement (lit "s3:ListBucket")
  | (.stored 1, 0) => allowStatement (lit "s3:GetObject")
  | (.stored 2, 0) => allowStatement (lit "s3:PutObject")
  | _ => emptyStatement

/-- The users `ann` and `bob` have the policy `list`; `ann` is a reader, `bob` a writer. The arrays
have room for `cap` statements. -/
def twoUsers (cap : Nat) (h : 1 ≤ cap) : IAMSys where
  iamUsersMap := ((∅ : OrdMap Bytes IamUser).insert (lit "ann") ⟨false, []⟩).insert
    (lit "bob") ⟨false, []⟩
  iamGroupsDisabled := ((∅ : OrdMap Bytes Bool).insert (lit "readers") false).insert
    (lit "writers") false
  iamUserGroupMemberships :=
    ((∅ : OrdMap Bytes (List Bytes)).insert (lit "ann") [lit "readers"]).insert (lit "bob")
      [lit "writers"]
  iamUserPolicyMap := ((∅ : OrdMap Bytes Bytes).insert (lit "ann") (lit "list")).insert
    (lit "bob") (lit "list")
  iamGroupPolicyMap := ((∅ : OrdMap Bytes Bytes).insert (lit "readers") (lit "read")).insert
    (lit "writers") (lit "write")
  iamPolicyDocsMap :=
    (((∅ : OrdMap Bytes PolicyDoc).insert (lit "list") ⟨0, 0, 1, cap, h⟩).insert (lit "read") ⟨1, 0,
      1, cap, h⟩).insert
      (lit "write") ⟨2, 0, 1, cap, h⟩

def plainEnv : IamEnv where
  fold := id
  parseConfig := fun _ => none
  grow := fun cap _ => 2 * cap
  globalPolicyOPA := none
  iamPolicyClaimName := lit "policy"
  objectAPI := true

/-- `ann` reads an object; everybody else is `bob`, who writes it. -/
def readAndWrite : Nat → IamCall
  | 0 => .isAllowed ⟨lit "ann", lit "s3:GetObject", lit "docs", ∅, false, lit "a", ∅⟩
  | _ => .isAllowed ⟨lit "bob", lit "s3:PutObject", lit "docs", ∅, false, lit "a", ∅⟩

theorem iam_isolated_full : Isolated plainEnv (twoUsers 1 (by decide)) readAndWrite threePolicies :=
  iam_isolated threePolicies (callsApart_of_full fun name p hp => by
    simp only [twoUsers, OrdMap.get?_insert] at hp
    split_ifs at hp
    · cases hp; rfl
    · cases hp; rfl
    · cases hp; rfl
    · cases hp)

/-- The arrays have room for four statements, as the JSON decoder leaves them. `ann` appends the
readers' statement, `bob` the writers' in its place, and `ann` is turned away. -/
theorem iam_not_isolated :
    (iamRun plainEnv (twoUsers 4 (by decide)) readAndWrite threePolicies (List.replicate 9 0)).loc
      0 =
      .returned (some true) ∧
    (iamRun plainEnv (twoUsers 4 (by decide)) readAndWrite threePolicies
      (0 :: 1 :: List.replicate 8 0)).loc 0 =
      .returned (some false) ∧
    ¬ Isolated plainEnv (twoUsers 4 (by decide)) readAndWrite threePolicies := by
  have halone : iamAlone plainEnv (twoUsers 4 (by decide)) readAndWrite threePolicies 0 9 =
      .returned (some true) := by
    decide
  have hboth : (iamRun plainEnv (twoUsers 4 (by decide)) readAndWrite threePolicies
    (0 :: 1 :: List.replicate 8 0)).loc 0 =
      .returned (some false) := by
    decide
  refine ⟨halone, hboth, fun h => ?_⟩
  obtain ⟨n, hn⟩ := h.alone 0 _ _ hboth
  have h1 := iamAlone_of_le halone (Nat.le_max_left 9 n)
  have h2 := iamAlone_of_le hn (Nat.le_max_right 9 n)
  rw [h1] at h2
  cases h2

end S3Kinetic
