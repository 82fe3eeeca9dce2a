import S3Kinetic.Lib.ByteString
import S3Kinetic.Lib.Schedule

/-!
# Members of groups (`iam.go`)

The identity system keeps the members of each group, and for each user the groups that list it.
Every call runs under one lock, except `DeleteUser`: it looks up the groups of the user, takes the
user out of one after the other, and deletes it at the end, each under the lock of its own. Other
servers write to the same store, and `LoadGroup` reads what they wrote. `groupMembership_iff`: the
two maps always agree, and a deleted user is in no group exactly if it has not joined one in the
meantime and no stored group lists it.
-/

namespace S3Kinetic.IamGroups

open Schedule

/-! ## The calls -/

inductive IamErr where
  | errServerNotInitialized | errInvalidArgument | errIAMActionNotAllowed | errNoSuchUser
  | errNoSuchGroup | errGroupNotEmpty
  deriving DecidableEq

/-- What does not change: whether there is an object layer, a store and an `etcd`, and whether users
are kept here. -/
structure Env where
  objectAPI : Bool
  store : Bool
  etcd : Bool
  minioUsers : Bool

/-- The maps, and the groups as they are stored. For a user, whether it is a temporary one. A user
without memberships has the empty list. -/
structure IAMSys where
  iamUsersMap : Bytes → Option Bool
  iamGroupsMap : Bytes → Option (List Bytes)
  iamUserGroupMemberships : Bytes → List Bytes
  stored : Bytes → Option (List Bytes)

/-- The check that all members exist. -/
def IAMSys.checkMembers (s : IAMSys) (members : List Bytes) : Option IamErr :=
  members.findSome? fun member =>
    match s.iamUsersMap member with
    | none => some .errNoSuchUser
    | some isTemp => if isTemp then some .errIAMActionNotAllowed else none

/-- The loops that add a group to the memberships of users, and that take it out. -/
def joinGroup (group : Bytes) (members : List Bytes) (m : Bytes → List Bytes) :
    Bytes → List Bytes :=
  members.foldl (fun m u => Function.update m u (if group ∈ m u then m u else m u ++ [group])) m

def leaveGroup (group : Bytes) (members : List Bytes) (m : Bytes → List Bytes) :
    Bytes → List Bytes :=
  members.foldl (fun m u => Function.update m u ((m u).filter (· ≠ group))) m

/-- What runs under the lock: the calls, and the last part of `DeleteUser`. -/
inductive Op where
  | addUsersToGroup (group : Bytes) (members : List Bytes)
  | removeUsersFromGroup (group : Bytes) (members : List Bytes)
  | setUser (accessKey : Bytes)
  | loadGroup (group : Bytes)
  | deleteIdentity (accessKey : Bytes)

section Model

variable (E : Env) (s : IAMSys)

def addUsersToGroup (group : Bytes) (members : List Bytes) : IAMSys × Option IamErr :=
  if !E.objectAPI then (s, some .errServerNotInitialized)
  else if group = [] then (s, some .errInvalidArgument)
  else if !E.minioUsers then (s, some .errIAMActionNotAllowed)
  else
    match s.checkMembers members with
    | some e => (s, some e)
    | none =>
      let gi := match s.iamGroupsMap group with
        | none => members
        | some old => (old ++ members).dedup
      if !E.store then (s, some .errServerNotInitialized)
      else
        ({ s with
            stored := Function.update s.stored group (some gi)
            iamGroupsMap := Function.update s.iamGroupsMap group (some gi)
            iamUserGroupMemberships := joinGroup group members s.iamUserGroupMemberships }, none)

def removeUsersFromGroup (group : Bytes) (members : List Bytes) : IAMSys × Option IamErr :=
  if !E.objectAPI then (s, some .errServerNotInitialized)
  else if group = [] then (s, some .errInvalidArgument)
  else if !E.minioUsers then (s, some .errIAMActionNotAllowed)
  else
    match s.checkMembers members with
    | some e => (s, some e)
    | none =>
      match s.iamGroupsMap group with
      | none => (s, some .errNoSuchGroup)
      | some old =>
        if members = [] ∧ old ≠ [] then (s, some .errGroupNotEmpty)
        else if !E.store then (s, some .errServerNotInitialized)
        else if members = [] then
          ({ s with
              stored := Function.update s.stored group none
              iamGroupsMap := Function.update s.iamGroupsMap group none }, none)
        else
          let gi := old.dedup.filter (· ∉ members)
          ({ s with
              stored := Function.update s.stored group (some gi)
              iamGroupsMap := Function.update s.iamGroupsMap group (some gi)
              iamUserGroupMemberships := leaveGroup group members s.iamUserGroupMemberships }, none)

def setUser (accessKey : Bytes) : IAMSys × Option IamErr :=
  if !E.objectAPI then (s, some .errServerNotInitialized)
  else if !E.minioUsers then (s, some .errIAMActionNotAllowed)
  else if !E.store then (s, some .errServerNotInitialized)
  else if s.iamUsersMap accessKey = some true then (s, some .errIAMActionNotAllowed)
  else ({ s with iamUsersMap := Function.update s.iamUsersMap accessKey (some false) }, none)

/-- `LoadGroup`; `removeGroupFromMembershipsMap` takes the group out of all memberships. -/
def loadGroup (group : Bytes) : IAMSys × Option IamErr :=
  if !E.objectAPI || !E.store then (s, some .errServerNotInitialized)
  else if E.etcd then (s, none)
  else
    let without := fun u => (s.iamUserGroupMemberships u).filter (· ≠ group)
    match s.stored group with
    | none =>
      ({ s with
        iamUserGroupMemberships := without
        iamGroupsMap := Function.update s.iamGroupsMap group none }, none)
    | some gi =>
      ({ s with
          iamUserGroupMemberships := joinGroup group gi without
          iamGroupsMap := Function.update s.iamGroupsMap group (some gi) }, none)

/-- The end of `DeleteUser`. -/
def deleteIdentity (accessKey : Bytes) : IAMSys × Option IamErr :=
  if !E.minioUsers then (s, some .errIAMActionNotAllowed)
  else if !E.store then (s, some .errServerNotInitialized)
  else ({ s with iamUsersMap := Function.update s.iamUsersMap accessKey none }, none)

/-- `GetUserInfo`, for the groups of the user. -/
def getUserInfo (name : Bytes) : Except IamErr (List Bytes) :=
  if !E.objectAPI then .error .errServerNotInitialized
  else if !E.minioUsers then .ok (s.iamUserGroupMemberships name)
  else
    match s.iamUsersMap name with
    | none => .error .errNoSuchUser
    | some isTemp =>
      if isTemp then .error .errIAMActionNotAllowed else .ok (s.iamUserGroupMemberships name)

def Op.apply : Op → IAMSys × Option IamErr
  | .addUsersToGroup group members => IamGroups.addUsersToGroup E s group members
  | .removeUsersFromGroup group members => IamGroups.removeUsersFromGroup E s group members
  | .setUser accessKey => IamGroups.setUser E s accessKey
  | .loadGroup group => IamGroups.loadGroup E s group
  | .deleteIdentity accessKey => IamGroups.deleteIdentity E s accessKey

end Model

/-! ## Interleaved calls -/

section Members

variable (E : Env) (s : IAMSys)

/-- Who is in a group after the operation has succeeded, whether it was or not. -/
def Op.joins : Op → Bytes → Bytes → Bool
  | .addUsersToGroup group members, g, u => g = group ∧ u ∈ members
  | .loadGroup group, g, u => E.etcd = false ∧ g = group ∧ u ∈ (s.stored group).getD []
  | _, _, _ => false

/-- Who is not. -/
def Op.leaves : Op → Bytes → Bytes → Bool
  | .removeUsersFromGroup group members, g, u => g = group ∧ u ∈ members
  | .loadGroup group, g, u => E.etcd = false ∧ g = group ∧ u ∉ (s.stored group).getD []
  | _, _, _ => false

/-- The groups that the operation may put users into. -/
def Op.groups : Op → List Bytes
  | .addUsersToGroup group _ => [group]
  | .loadGroup group => [group]
  | _ => []

/-- A `DeleteUser` on its way: the groups that it still has to take the user out of. `joined` is
kept for the proofs: the groups that the user has joined since, and not left. -/
structure DeleteCall where
  accessKey : Bytes
  memberOf : List Bytes
  joined : List Bytes

def DeleteCall.after (c : DeleteCall) (op : Op) : DeleteCall :=
  { c with
    joined := (op.groups.filter fun g => op.joins E s g c.accessKey) ++
      c.joined.filter fun g => !op.leaves E s g c.accessKey }

end Members

structure State where
  sys : IAMSys
  calls : Nat → Option DeleteCall

inductive Event where
  /-- A call, other than the last part of `DeleteUser`. -/
  | call (op : Op)
  /-- `DeleteUser` looks up the groups, which come in any order. -/
  | start (i : Nat) (accessKey : Bytes) (memberOf : List Bytes)
  /-- It takes the user out of the next group. -/
  | next (i : Nat)
  /-- It deletes the user. -/
  | finish (i : Nat)
  /-- Another server stores a group, or deletes it from the store. -/
  | peer (group : Bytes) (value : Option (List Bytes))

section Steps

variable (E : Env)

/-- An operation, and its result. -/
def State.perform (s : State) (op : Op) : State × Option IamErr :=
  match op.apply E s.sys with
  | (sys, none) => (⟨sys, fun i => (s.calls i).map fun c => c.after E s.sys op⟩, none)
  | (sys, some e) => (⟨sys, s.calls⟩, some e)

def step (s : State) : Event → Option State
  | .call (.deleteIdentity _) => none
  | .call op => some (s.perform E op).1
  | .start i accessKey memberOf =>
    match s.calls i, getUserInfo E s.sys accessKey with
    | none, .ok groups =>
      if memberOf.Perm groups then
        some { s with calls := Function.update s.calls i (some ⟨accessKey, memberOf, []⟩) }
      else none
    | _, _ => none
  | .next i =>
    match s.calls i with
    | some ⟨accessKey, group :: memberOf, _⟩ =>
      let (s', err) := s.perform E (.removeUsersFromGroup group [accessKey])
      -- after an error the call returns
      some { s' with
        calls := Function.update s'.calls i
          (if err = none then (s'.calls i).map ({ · with memberOf }) else none) }
    | _ => none
  | .finish i =>
    match s.calls i with
    | some ⟨accessKey, [], _⟩ =>
      some { (s.perform E (.deleteIdentity accessKey)).1 with
        calls := Function.update s.calls i none }
    | _ => none
  | .peer group value =>
    some { s with sys := { s.sys with stored := Function.update s.sys.stored group value } }

end Steps

/-! ## The law -/

def Lists (s : IAMSys) (g u : Bytes) : Prop :=
  ∃ members, s.iamGroupsMap g = some members ∧ u ∈ members

/-- The two maps agree. -/
def Sound (s : IAMSys) : Prop := ∀ g u, g ∈ s.iamUserGroupMemberships u ↔ Lists s g u

/-- The store has a group that lists the user, and `LoadGroup` reads it. -/
def StoreLists (E : Env) (s : IAMSys) (u : Bytes) : Prop :=
  E.etcd = false ∧ ∃ g, u ∈ (s.stored g).getD []

/-- An event that adds the user to a group, here or on another server. -/
def Event.adds (E : Env) (s : IAMSys) (u : Bytes) : Event → Prop
  | .call (.addUsersToGroup group members) =>
    (addUsersToGroup E s group members).2 = none ∧ u ∈ members
  | .peer _ value => u ∈ value.getD []
  | _ => False

/-- Steps that do not add the user to a group. -/
def Since (E : Env) (u : Bytes) : State → State → Prop :=
  Relation.ReflTransGen fun s s' => ∃ e, step E s e = some s' ∧ ¬ e.adds E s.sys u

/-- If the call `i` deletes its user in `s`, no group lists the user until it is added to one
again. -/
def GoneLaw (E : Env) (s : State) (i : Nat) : Prop :=
  ∀ c, s.calls i = some c → c.memberOf = [] → (deleteIdentity E s.sys c.accessKey).2 = none →
    ∀ s' t, step E s (.finish i) = some s' → Since E c.accessKey s' t →
      ∀ g, ¬ Lists t.sys g c.accessKey

/-! ## What an operation does -/

variable {E : Env} {s s' : IAMSys} {g u group : Bytes} {members : List Bytes}

theorem mem_joinGroup {m : Bytes → List Bytes} : g ∈ joinGroup group members m u ↔ g ∈ m u ∨
    g = group ∧ u ∈ members := by
  induction members generalizing m with
  | nil => simp [joinGroup]
  | cons member members ih =>
    rw [joinGroup, List.foldl_cons, ← joinGroup, ih]
    by_cases hu : u = member
    · subst hu
      rw [Function.update_self]
      split_ifs with hmem
      · simp only [List.mem_cons, true_or, and_true]
        exact ⟨fun h => h.imp_right And.left, fun h => h.elim .inl fun h => .inl (h ▸ hmem)⟩
      · simp only [List.mem_append, List.mem_cons, true_or, and_true, List.not_mem_nil, or_false]
        tauto
    · rw [Function.update_of_ne hu]
      simp [hu]

theorem mem_leaveGroup {m : Bytes → List Bytes} :
    g ∈ leaveGroup group members m u ↔ g ∈ m u ∧ ¬ (g = group ∧ u ∈ members) := by
  induction members generalizing m with
  | nil => simp [leaveGroup]
  | cons member members ih =>
    rw [leaveGroup, List.foldl_cons, ← leaveGroup, ih]
    by_cases hu : u = member
    · subst hu
      rw [Function.update_self]
      simp
      tauto
    · rw [Function.update_of_ne hu]
      simp [hu]

theorem lists_of_update {value : Option (List Bytes)}
    (h : s'.iamGroupsMap = Function.update s.iamGroupsMap group value) :
    Lists s' g u ↔ if g = group then ∃ members, value = some members ∧ u ∈ members
      else Lists s g u := by
  rw [Lists, h]
  split_ifs with hg
  · rw [hg, Function.update_self]
  · rw [Function.update_of_ne hg]
    rfl

/-- The outcome of an operation is sound, and without an error exactly its users join and leave. -/
structure Op.Effect (E : Env) (op : Op) (s : IAMSys) (r : IAMSys × Option IamErr) : Prop where
  sound : Sound r.1
  lists : ∀ g u, Lists r.1 g u ↔
    if r.2 = none then op.joins E s g u = true ∨ Lists s g u ∧ op.leaves E s g u = false
      else Lists s g u

variable {op : Op}

theorem Op.Effect.fail (hs : Sound s) {e : IamErr} : op.Effect E s (s, some e) := ⟨hs, by simp⟩

theorem Op.Effect.users (hs : Sound s)
    (hop : ∀ g u, op.joins E s g u = false ∧ op.leaves E s g u = false)
    (iamUsersMap : Bytes → Option Bool) : op.Effect E s ({ s with iamUsersMap }, none) :=
  ⟨hs, fun g u => by simp [hop g u, Lists]⟩

/-- The entry of one group changes, in both maps. -/
theorem Op.Effect.update (hs : Sound s) {value : Option (List Bytes)} {m : Bytes → List Bytes}
    (hlists : ∀ g u, (op.joins E s g u = true ∨ Lists s g u ∧ op.leaves E s g u = false) ↔
      if g = group then ∃ members, value = some members ∧ u ∈ members else Lists s g u)
    (hm : ∀ g u, g ∈ m u ↔ op.joins E s g u = true ∨ g ∈ s.iamUserGroupMemberships u ∧
      op.leaves E s g u = false)
    (stored : Bytes → Option (List Bytes)) :
    op.Effect E s ({ s with
      stored
      iamGroupsMap := Function.update s.iamGroupsMap group value
      iamUserGroupMemberships := m }, none) := by
  refine ⟨fun g u => ?_, fun g u => ?_⟩
  · rw [hm, hs, hlists]
    exact (lists_of_update rfl).symm
  · rw [if_pos rfl, hlists]
    exact lists_of_update rfl

theorem addUsersToGroup_effect (hs : Sound s) :
    (Op.addUsersToGroup group members).Effect E s (addUsersToGroup E s group members) := by
  unfold addUsersToGroup
  cases s.checkMembers members with
  | some e =>
    dsimp only
    split_ifs
    all_goals exact .fail hs
  | none =>
    dsimp only
    split_ifs
    any_goals exact .fail hs
    refine .update hs (fun g u => ?_) (fun g u => ?_) _
    · simp only [Op.joins, Op.leaves, decide_eq_true_eq, and_true]
      split_ifs with hg
      · subst hg
        simp only [Option.some.injEq, exists_eq_left', true_and]
        cases hold : s.iamGroupsMap g with
        | none => simp [Lists, hold]
        | some old => simp [Lists, hold, or_comm]
      · simp [hg]
    · simp only [Op.joins, Op.leaves, decide_eq_true_eq, and_true]
      rw [mem_joinGroup, or_comm]

theorem removeUsersFromGroup_effect (hs : Sound s) :
    (Op.removeUsersFromGroup group members).Effect E s
      (removeUsersFromGroup E s group members) := by
  unfold removeUsersFromGroup
  cases s.checkMembers members with
  | some e =>
    dsimp only
    split_ifs
    all_goals exact .fail hs
  | none =>
    dsimp only
    cases hold : s.iamGroupsMap group with
    | none =>
      dsimp only
      split_ifs
      all_goals exact .fail hs
    | some old =>
      dsimp only
      split_ifs with _ _ _ hempty _ hnil
      any_goals exact .fail hs
      · -- an empty group is deleted
        have hold' : old = [] := not_not.1 fun hne => hempty ⟨hnil, hne⟩
        refine .update hs (fun g u => ?_) (fun g u => by simp [Op.joins, Op.leaves, hnil]) _
        split_ifs with hg
        · subst hg
          simp [Op.joins, Op.leaves, Lists, hold, hold']
        · simp [Op.joins, Op.leaves, hg]
      · refine .update hs (fun g u => ?_) (fun g u => ?_) _
        · split_ifs with hg
          · subst hg
            simp [Op.joins, Op.leaves, Lists, hold]
          · simp [Op.joins, Op.leaves, hg]
        · rw [mem_leaveGroup]
          simp [Op.joins, Op.leaves]

theorem loadGroup_effect (hs : Sound s) :
    (Op.loadGroup group).Effect E s (loadGroup E s group) := by
  unfold loadGroup
  split_ifs with hready hetcd
  · exact .fail hs
  · exact ⟨hs, by simp [Op.joins, Op.leaves, hetcd]⟩
  · dsimp only
    cases hstored : s.stored group with
    | none =>
      refine .update hs (fun g u => ?_) (fun g u => ?_) _
      · split_ifs with hg <;> simp [Op.joins, Op.leaves, hetcd, hstored, hg]
      · simp [Op.joins, Op.leaves, hetcd, hstored]
    | some gi =>
      refine .update hs (fun g u => ?_) (fun g u => ?_) _
      · by_cases hu : u ∈ gi <;> split_ifs with hg <;> simp [Op.joins, Op.leaves, hetcd,
          hstored, hg, hu]
      · rw [mem_joinGroup]
        by_cases hg : g = group <;> by_cases hu : u ∈ gi <;> simp [Op.joins, Op.leaves, hetcd,
          hstored, hg, hu]

theorem Op.apply_effect (hs : Sound s) (op : Op) : op.Effect E s (op.apply E s) := by
  cases op with
  | addUsersToGroup group members => exact addUsersToGroup_effect hs
  | removeUsersFromGroup group members => exact removeUsersFromGroup_effect hs
  | setUser accessKey =>
    rw [Op.apply, IamGroups.setUser]
    split_ifs
    any_goals exact .fail hs
    exact .users hs (fun _ _ => ⟨rfl, rfl⟩) _
  | loadGroup group => exact loadGroup_effect hs
  | deleteIdentity accessKey =>
    rw [Op.apply, IamGroups.deleteIdentity]
    split_ifs
    any_goals exact .fail hs
    exact .users hs (fun _ _ => ⟨rfl, rfl⟩) _

/-! ## Every interleaving -/

/-- The groups that list the user of a call are those it still has to go through and those that the
user has joined. -/
structure Tracked (s : IAMSys) (c : DeleteCall) : Prop where
  listed : ∀ g, Lists s g c.accessKey → g ∈ c.memberOf ∨ g ∈ c.joined
  joined : ∀ g ∈ c.joined, Lists s g c.accessKey

structure Inv (E : Env) (st : State) : Prop where
  sound : Sound st.sys
  calls : ∀ i c, st.calls i = some c → Tracked st.sys c
  /-- A call has got past the check for the object layer. -/
  ready : ∀ i, st.calls i ≠ none → E.objectAPI = true

theorem mem_groups_of_joins (h : op.joins E s g u = true) : g ∈ op.groups := by
  cases op with
  | addUsersToGroup group members => simpa [Op.groups] using And.left (of_decide_eq_true h)
  | loadGroup group => simpa [Op.groups] using And.left (And.right (of_decide_eq_true h))
  | _ => cases h

theorem mem_after_joined {c : DeleteCall} : g ∈ (c.after E s op).joined ↔
    op.joins E s g c.accessKey = true ∨ g ∈ c.joined ∧ op.leaves E s g c.accessKey = false := by
  simp only [DeleteCall.after, List.mem_append, List.mem_filter, Bool.not_eq_true']
  rw [and_iff_right_of_imp mem_groups_of_joins]

theorem Tracked.congr {c : DeleteCall} (hc : Tracked s c)
    (hsame : ∀ g u, Lists s' g u ↔ Lists s g u) : Tracked s' c :=
  ⟨fun g hg => hc.listed g ((hsame _ _).1 hg), fun g hg => (hsame _ _).2 (hc.joined g hg)⟩

theorem Tracked.after {c : DeleteCall} {r : IAMSys × Option IamErr} (hc : Tracked s c)
    (he : op.Effect E s r) (hr : r.2 = none) : Tracked r.1 (c.after E s op) := by
  have hlists : ∀ g, Lists r.1 g c.accessKey ↔ op.joins E s g c.accessKey = true ∨
      Lists s g c.accessKey ∧ op.leaves E s g c.accessKey = false :=
        fun g => by rw [he.lists, if_pos hr]
  constructor
  · intro g hg
    rw [mem_after_joined]
    rcases (hlists g).1 hg with hj | ⟨hl, hleaves⟩
    · exact .inr (.inl hj)
    · exact (hc.listed g hl).imp_right fun h => .inr ⟨h, hleaves⟩
  · intro g hg
    exact (hlists g).2 ((mem_after_joined.1 hg).imp_right (And.imp_left (hc.joined g)))

variable {st st' : State}

theorem Inv.perform (h : Inv E st) (op : Op) : Inv E (st.perform E op).1 := by
  have he := op.apply_effect (E := E) h.sound
  rw [State.perform]
  rcases hr : op.apply E st.sys with ⟨sys, _ | e⟩
  · rw [hr] at he
    refine ⟨he.sound, fun i c' hc' => ?_, fun i hi => h.ready i (by simpa using hi)⟩
    obtain ⟨c, hc, rfl⟩ := Option.map_eq_some_iff.1 hc'
    exact (h.calls i c hc).after he rfl
  · rw [hr] at he
    exact ⟨he.sound, fun i c hc => (h.calls i c hc).congr (by simpa using he.lists), h.ready⟩

theorem Inv.update (h : Inv E st) {i : Nat} (c' : Option DeleteCall)
    (hc' : ∀ c, c' = some c → E.objectAPI = true ∧ Tracked st.sys c) :
    Inv E { st with calls := Function.update st.calls i c' } := by
  have hcalls : ∀ j c, Function.update st.calls i c' j = some c → E.objectAPI = true ∧
      Tracked st.sys c := by
    intro j c hc
    by_cases hj : j = i
    · subst hj
      rw [Function.update_self] at hc
      exact hc' c hc
    · rw [Function.update_of_ne hj] at hc
      exact ⟨h.ready j (by simp [hc]), h.calls j c hc⟩
  refine ⟨h.sound, fun j c hc => (hcalls j c hc).2, fun j hj => ?_⟩
  obtain ⟨c, hc⟩ := Option.ne_none_iff_exists'.1 hj
  exact (hcalls j c hc).1

theorem lists_deleteIdentity (hs : Sound s) (accessKey g u : Bytes) :
    Lists (deleteIdentity E s accessKey).1 g u ↔ Lists s g u := by
  have hlists := ((Op.deleteIdentity accessKey).apply_effect (E := E) hs).lists g u
  simpa [Op.joins, Op.leaves, Op.apply] using hlists

theorem perform_sys (op : Op) : (st.perform E op).1.sys = (op.apply E st.sys).1 := by
  rw [State.perform]
  split <;> simp_all

/-- After it has left the group, a user is not listed there. -/
theorem Inv.next (h : Inv E st) {i : Nat} {accessKey group : Bytes} {memberOf joined : List Bytes}
    {c : DeleteCall} (hcall : st.calls i = some ⟨accessKey, group :: memberOf, joined⟩)
    (herr : (st.perform E (.removeUsersFromGroup group [accessKey])).2 = none)
    (hc : (st.perform E (.removeUsersFromGroup group [accessKey])).1.calls i = some c) :
    Tracked (st.perform E (.removeUsersFromGroup group [accessKey])).1.sys { c with memberOf } := by
  have htracked := (h.perform (E := E) (.removeUsersFromGroup group [accessKey])).calls i c hc
  have he := (Op.removeUsersFromGroup group [accessKey]).apply_effect (E := E) h.sound
  rw [State.perform] at herr hc htracked ⊢
  rcases hr : (Op.removeUsersFromGroup group [accessKey]).apply E st.sys with ⟨sys, _ | e⟩
  · simp only [hr, hcall, Option.map_some, Option.some.injEq] at hc htracked ⊢
    subst hc
    rw [hr] at he
    refine ⟨fun g hg => ?_, htracked.joined⟩
    have hne : g ≠ group := by
      rintro rfl
      have := (he.lists g accessKey).1 hg
      simp [Op.joins, Op.leaves] at this
    exact (htracked.listed g hg).imp_left fun hmem => (List.mem_cons.1 hmem).resolve_left hne
  · simp [hr] at herr

theorem getUserInfo_eq_ok {groups : List Bytes} (h : getUserInfo E s u = .ok groups) :
    E.objectAPI = true ∧ groups = s.iamUserGroupMemberships u := by
  unfold getUserInfo at h
  split_ifs at h with hready
  · cases h
    exact ⟨by simpa using hready, rfl⟩
  · split at h
    · cases h
    · split_ifs at h
      cases h
      exact ⟨by simpa using hready, rfl⟩

theorem Inv.step {e : Event} (h : Inv E st) (hstep : step E st e = some st') : Inv E st' := by
  cases e with
  | call op =>
    cases op with
    | deleteIdentity accessKey => cases hstep
    | _ =>
      cases hstep
      exact h.perform _
  | start i accessKey memberOf =>
    simp only [IamGroups.step] at hstep
    split at hstep
    · rename_i groups _ hinfo
      split_ifs at hstep with hperm
      cases hstep
      refine h.update _ fun c hc => ?_
      cases hc
      obtain ⟨hready, rfl⟩ := getUserInfo_eq_ok hinfo
      refine ⟨hready, fun g hg => .inl (hperm.mem_iff.2 ?_), by simp⟩
      rwa [h.sound]
    · cases hstep
  | next i =>
    simp only [IamGroups.step] at hstep
    split at hstep
    · rename_i accessKey group memberOf joined hcall
      cases hstep
      refine (h.perform _).update _ fun c hc => ?_
      split_ifs at hc with herr
      obtain ⟨c', hc', rfl⟩ := Option.map_eq_some_iff.1 hc
      exact ⟨h.ready i (by simp [hcall]), h.next hcall herr hc'⟩
    · cases hstep
  | finish i =>
    simp only [IamGroups.step] at hstep
    split at hstep
    · rename_i accessKey joined hcall
      cases hstep
      have hcalls := h.update (i := i) none (by simp)
      refine ⟨(h.perform _).sound, fun j c hc => ?_, hcalls.ready⟩
      rw [perform_sys]
      exact (hcalls.calls j c hc).congr (lists_deleteIdentity h.sound accessKey)
    · cases hstep
  | peer group value =>
    cases hstep
    exact ⟨h.sound, fun i c hc => (h.calls i c hc).congr fun _ _ => Iff.rfl, h.ready⟩

/-! ## Results -/

/-- Neither the maps nor what `LoadGroup` reads lists the user. -/
def Unlisted (E : Env) (s : IAMSys) (u : Bytes) : Prop := (∀ g, ¬ Lists s g u) ∧ ¬ StoreLists E s u

theorem step_sys {e : Event} (hstep : step E st e = some st') :
    st'.sys = st.sys ∨ (∃ group value, e = .peer group value ∧
        st'.sys = { st.sys with stored := Function.update st.sys.stored group value }) ∨
      ∃ op : Op, st'.sys = (op.apply E st.sys).1 ∧ (e = .call op ∨ op.groups = []) := by
  cases e with
  | call op =>
    cases op with
    | deleteIdentity accessKey => cases hstep
    | _ =>
      cases hstep
      exact .inr (.inr ⟨_, perform_sys _, .inl rfl⟩)
  | start i accessKey memberOf =>
    simp only [step] at hstep
    split at hstep
    · split_ifs at hstep
      cases hstep
      exact .inl rfl
    · cases hstep
  | next i =>
    simp only [step] at hstep
    split at hstep
    · cases hstep
      exact .inr (.inr ⟨_, perform_sys _, .inr rfl⟩)
    · cases hstep
  | finish i =>
    simp only [step] at hstep
    split at hstep
    · cases hstep
      exact .inr (.inr ⟨_, perform_sys _, .inr rfl⟩)
    · cases hstep
  | peer group value =>
    cases hstep
    exact .inr (.inl ⟨group, value, rfl, rfl⟩)

/-- An operation stores nothing, or a group as it is in the map afterwards. -/
theorem stored_cases (op : Op) : (op.apply E s).1.stored = s.stored ∨
    ∃ group value, (op.apply E s).1.stored = Function.update s.stored group value ∧
      (op.apply E s).1.iamGroupsMap = Function.update s.iamGroupsMap group value := by
  cases op with
  | addUsersToGroup group members =>
    rw [Op.apply, IamGroups.addUsersToGroup]
    cases s.checkMembers members <;> dsimp only <;> split_ifs
    any_goals exact .inl rfl
    exact .inr ⟨group, _, rfl, rfl⟩
  | removeUsersFromGroup group members =>
    rw [Op.apply, IamGroups.removeUsersFromGroup]
    cases s.checkMembers members <;> cases s.iamGroupsMap group <;> dsimp only <;> split_ifs
    any_goals exact .inl rfl
    all_goals exact .inr ⟨group, _, rfl, rfl⟩
  | setUser accessKey =>
    rw [Op.apply, IamGroups.setUser]
    split_ifs <;> exact .inl rfl
  | loadGroup group =>
    rw [Op.apply, IamGroups.loadGroup]
    cases s.stored group <;> dsimp only <;> split_ifs <;> exact .inl rfl
  | deleteIdentity accessKey =>
    rw [Op.apply, IamGroups.deleteIdentity]
    split_ifs <;> exact .inl rfl

theorem stored_apply (op : Op) (h : u ∈ ((op.apply E s).1.stored g).getD []) :
    u ∈ (s.stored g).getD [] ∨ Lists (op.apply E s).1 g u := by
  rcases stored_cases (E := E) (s := s) op with hsame | ⟨group, value, hstored, hgroups⟩
  · rw [hsame] at h
    exact .inl h
  · rw [lists_of_update hgroups]
    rw [hstored] at h
    by_cases hg : g = group
    · subst hg
      rw [Function.update_self] at h
      cases value with
      | none => cases h
      | some members => exact .inr (by simpa using h)
    · rw [Function.update_of_ne hg] at h
      exact .inl h

theorem Unlisted.apply (hs : Sound s) (h : Unlisted E s u) (op : Op)
    (hop : ∀ group members, op = .addUsersToGroup group members → (op.apply E s).2 = none →
      u ∉ members) :
    Unlisted E (op.apply E s).1 u := by
  have hlists : ∀ g, ¬ Lists (op.apply E s).1 g u := by
    intro g hg
    rw [(op.apply_effect hs).lists] at hg
    split_ifs at hg with hok
    · rcases hg with hjoins | ⟨hl, -⟩
      · cases op with
        | addUsersToGroup group members =>
          exact hop group members rfl hok (of_decide_eq_true hjoins).2
        | loadGroup group =>
          obtain ⟨hetcd, -, hu⟩ := of_decide_eq_true hjoins
          exact h.2 ⟨hetcd, group, hu⟩
        | _ => cases hjoins
      · exact h.1 g hl
    · exact h.1 g hg
  refine ⟨hlists, fun ⟨hetcd, g, hu⟩ => ?_⟩
  rcases stored_apply op hu with hu | hu
  · exact h.2 ⟨hetcd, g, hu⟩
  · exact hlists g hu

theorem Unlisted.step {e : Event} (hs : Sound st.sys) (h : Unlisted E st.sys u)
    (hstep : step E st e = some st') (hadds : ¬ e.adds E st.sys u) : Unlisted E st'.sys u := by
  rcases step_sys hstep with hsys | ⟨group, value, rfl, hsys⟩ | ⟨op, hsys, hop⟩
  · rwa [hsys]
  · rw [hsys]
    refine ⟨h.1, fun ⟨hetcd, g, hu⟩ => ?_⟩
    dsimp only at hu
    by_cases hg : g = group
    · subst hg
      rw [Function.update_self] at hu
      exact hadds hu
    · rw [Function.update_of_ne hg] at hu
      exact h.2 ⟨hetcd, g, hu⟩
  · rw [hsys]
    refine h.apply hs op fun group members heq hok hu => ?_
    subst heq
    rcases hop with rfl | hop
    · exact hadds ⟨hok, hu⟩
    · cases hop

theorem unlisted_of_since (h : Inv E st) (hsince : Since E u st st') (hnone : Unlisted E st.sys u) :
    Unlisted E st'.sys u := by
  suffices Inv E st' ∧ Unlisted E st'.sys u from this.2
  induction hsince with
  | refl => exact ⟨h, hnone⟩
  | tail _ hstep ih =>
    obtain ⟨e, hstep, hadds⟩ := hstep
    exact ⟨ih.1.step hstep, ih.2.step ih.1.sound hstep hadds⟩

/-- A stored group that lists the user can be loaded. -/
theorem exists_lists_of_stored (h : Inv E st) (hready : E.objectAPI = true)
    (hstore : E.store = true)
    (hlists : StoreLists E st.sys u) : ∃ st' g, Since E u st st' ∧ Lists st'.sys g u := by
  obtain ⟨hetcd, g, hu⟩ := hlists
  refine ⟨_, g, .single ⟨.call (.loadGroup g), rfl, id⟩, ?_⟩
  have hok : ((Op.loadGroup g).apply E st.sys).2 = none := by
    rw [Op.apply, loadGroup]
    cases st.sys.stored g <;> simp [hready, hstore, hetcd]
  rw [perform_sys, ((Op.loadGroup g).apply_effect h.sound).lists, if_pos hok]
  exact .inl (decide_eq_true ⟨hetcd, rfl, hu⟩)

/-- In every interleaving the two maps agree. A user that a call deletes is listed nowhere until it
is added to a group again, exactly if it has not joined one, without leaving it, since the call
looked up its groups, and no stored group lists it. -/
theorem groupMembership_iff (E : Env) (sys : IAMSys) (hsys : Sound sys)
    (events : List Event) (s : State) (hexec : exec (step E) ⟨sys, fun _ => none⟩ events = some s) :
    (∀ g u, g ∈ s.sys.iamUserGroupMemberships u ↔ ∃ members, s.sys.iamGroupsMap g = some members ∧
      u ∈ members) ∧
      ∀ i, GoneLaw E s i ↔
        ∀ c, s.calls i = some c → c.memberOf = [] → (deleteIdentity E s.sys c.accessKey).2 = none →
          c.joined = [] ∧ ¬ StoreLists E s.sys c.accessKey := by
  have hinv : Inv E s := inv_exec (fun _ _ _ h _ hstep => h.step hstep) ⟨hsys, by simp, by simp⟩
    (guarded_of_forall (fun _ _ => trivial) events) hexec
  refine ⟨hinv.sound, fun i => ?_⟩
  have hfinish : ∀ c, s.calls i = some c → c.memberOf = [] → ∃ s', step E s (.finish i) = some s' ∧
      (∀ g u, Lists s'.sys g u ↔ Lists s.sys g u) ∧ s'.sys.stored = s.sys.stored := by
    rintro ⟨accessKey, memberOf, joined⟩ hc rfl
    simp only [step, hc]
    refine ⟨_, rfl, fun g u => ?_, ?_⟩
    · rw [perform_sys]
      exact lists_deleteIdentity hinv.sound accessKey g u
    · rw [perform_sys, Op.apply, deleteIdentity]
      split_ifs <;> rfl
  constructor
  · intro hlaw c hc hnil hok
    obtain ⟨s', hs', hlists, hstored⟩ := hfinish c hc hnil
    refine ⟨List.eq_nil_iff_forall_not_mem.2 fun g hg => ?_, fun hsl => ?_⟩
    · exact hlaw c hc hnil hok s' s' hs' .refl g ((hlists _ _).2 ((hinv.calls i c hc).joined g hg))
    · have hstore : E.store = true := by
        unfold deleteIdentity at hok
        split_ifs at hok with _ hstore
        simpa using hstore
      obtain ⟨t, g, hsince, hg⟩ :=
        exists_lists_of_stored (hinv.step hs') (hinv.ready i (by simp [hc])) hstore
        (show StoreLists E s'.sys c.accessKey by rwa [StoreLists, hstored])
      exact hlaw c hc hnil hok s' t hs' hsince g hg
  · intro hcond c hc hnil hok s' t hs' hsince
    obtain ⟨s'', hs'', hlists, hstored⟩ := hfinish c hc hnil
    rw [hs'] at hs''
    cases hs''
    obtain ⟨hjoined, hsl⟩ := hcond c hc hnil hok
    refine (unlisted_of_since (hinv.step hs') hsince ⟨fun g hg => ?_, ?_⟩).1
    · have := (hinv.calls i c hc).listed g ((hlists _ _).1 hg)
      simp [hnil, hjoined] at this
    · rwa [StoreLists, hstored]

def readyEnv : Env := ⟨true, true, false, true⟩

def oneUser : IAMSys := ⟨fun u => if u = [1] then some false else none, fun _ => none, fun _ => [],
    fun _ => none⟩

theorem sound_oneUser : Sound oneUser := by simp [Sound, oneUser, Lists]

theorem groupMembership_oneUser :
    GoneLaw readyEnv ⟨oneUser, Function.update (fun _ => none) 0 (some ⟨[1], [], []⟩)⟩ 0 := by
  have hexec : exec (step readyEnv) ⟨oneUser, fun _ => none⟩ [.start 0 [1] []] =
      some ⟨oneUser, Function.update (fun _ => none) 0 (some ⟨[1], [], []⟩)⟩ := rfl
  refine ((groupMembership_iff readyEnv oneUser sound_oneUser _ _ hexec).2 0).2 fun c hc _ _ => ?_
  cases hc
  exact ⟨rfl, fun ⟨_, g, hu⟩ => by cases hu⟩

/-- The user joins a group between the two parts of its deletion: it is gone, and the group lists
it. -/
theorem deletedUser_listed :
    ((exec (step readyEnv) ⟨oneUser, fun _ => none⟩ [.start 0 [1] [],
      .call (.addUsersToGroup [2] [[1]]), .finish 0]).map
        fun s => (s.sys.iamUsersMap [1], s.sys.iamGroupsMap [2])) = some (none, some [[1]]) ∧
      ∃ s, exec (step readyEnv) ⟨oneUser, fun _ => none⟩ [.start 0 [1] [],
        .call (.addUsersToGroup [2] [[1]])] = some s ∧
        ¬ GoneLaw readyEnv s 0 := by
  refine ⟨rfl, _, rfl, fun hlaw => ?_⟩
  exact hlaw _ rfl rfl rfl _ _ rfl .refl [2] ⟨[[1]], rfl, List.mem_singleton.2 rfl⟩

end S3Kinetic.IamGroups
