import S3Kinetic.Objects

/-!
# Listing

`ListObjects` fetches windows of keys until it has used up its budget. Every visible or hidden key
costs one, a key that repeats a directory costs nothing, and a key range query that comes back short
ends the listing. The loop need not end when keys come out of the query in pieces, so it runs on
fuel; a recursive listing without `*` in its prefix takes one window (`listObjects_recursive`).
-/

namespace S3Kinetic

open ByteString

structure ListObjectsInfo where
  isTruncated : Bool
  nextMarker : Bytes
  objects : List ObjectInfo
  prefixes : List Bytes
  deriving DecidableEq

/-- What the loop of `ListObjects` has gathered, and how many keys it may still take. -/
structure ListState where
  objects : List ObjectInfo
  prefixes : List Bytes
  nRemainKeys : Int
  deriving DecidableEq

/-- The parameters of a `ListObjects` call that its loop does not change. -/
structure ListCall where
  bucket : Bytes
  endKey : Bytes
  prefixDir : Bytes
  recursive : Bool
  regexpStr : Option Bytes

def star : UInt8 := 42

/-- `prefix[:lastIndex+1]` for the last `/`, or nothing. -/
def prefixDirOf (pfx : Bytes) : Bytes := (pfx.reverse.dropWhile (· ≠ slash)).reverse

/-- `maxKeyRange` of `ListObjects`. -/
def maxKeyRange : Int := 400

variable (K : Kineticd) (s : Store)

/-- A name below `prefixDir` is listed as its first directory. -/
def listDir (prefixDir : Bytes) (objInfo : ObjectInfo) : ObjectInfo :=
  match (objInfo.name.drop prefixDir.length).splitOn slash with
  | first :: _ :: _ => { objInfo with isDir := true, name := prefixDir ++ first ++ [slash] }
  | _ => objInfo

/-- One key of a window. -/
def listKey (c : ListCall) (st : ListState) (key : Bytes) : Except Err ListState :=
  if c.regexpStr.any fun re => !K.regexpMatchString re key then .ok st
  else if key.length < c.bucket.length + 1 then .error .panic
  else
    match getObjectInfo K s c.bucket (key.drop (c.bucket.length + 1)) with
    | .error e => .error e
    | .ok objInfo =>
      if objInfo.hidden then .ok { st with nRemainKeys := st.nRemainKeys - 1 }
      else if c.recursive then
        .ok { st with objects := st.objects ++ [objInfo], nRemainKeys := st.nRemainKeys - 1 }
      else if objInfo.name.length < c.prefixDir.length then .error .panic
      else
        let objInfo := listDir c.prefixDir objInfo
        if objInfo.isDir then
          if objInfo.name ∈ st.prefixes then .ok st
          else
            .ok { st with
              prefixes := st.prefixes ++ [objInfo.name]
              nRemainKeys := st.nRemainKeys - 1 }
        else .ok { st with objects := st.objects ++ [objInfo], nRemainKeys := st.nRemainKeys - 1 }

/-- The keys of one window. -/
def listKeys (c : ListCall) : List Bytes → ListState → Except Err ListState
  | [], st => .ok st
  | key :: keys, st =>
    match listKey K s c st key with
    | .error e => .error e
    | .ok st => listKeys c keys st

/-- The window loop; the start key it ends with is the last key it saw. -/
def listLoop (c : ListCall) :
    Nat → Bytes → Bool → ListState → Option (Except Err (ListState × Bytes))
  | 0, _, _, _ => none
  | fuel + 1, startKey, startKeyInclusive, st =>
    if st.nRemainKeys ≤ 0 then some (.ok (st, startKey))
    else
      let keys := cGetKeyRange K s startKey c.endKey startKeyInclusive true st.nRemainKeys.toNat
      match listKeys K s c keys st with
      | .error e => some (.error e)
      | .ok st' =>
        let lastKey := keys.getLast?.getD startKey
        if (keys.length : Int) < st.nRemainKeys then some (.ok (st', lastKey))
        else listLoop c fuel lastKey false st'

/-- `ListObjects`. -/
def listObjects (fuel : Nat) (bucket pfx marker delimiter : Bytes) (maxKeys : Int) :
    Option (Except Err ListObjectsInfo) :=
  let prefixParts := pfx.splitOn star
  let first := prefixParts.headD []
  let bucketPrefix := bucket ++ [slash]
  let startKey := if marker = [] then bucketPrefix ++ first else bucketPrefix ++ marker
  let call : ListCall :=
    { bucket, endKey := incStr (bucketPrefix ++ first), prefixDir := prefixDirOf pfx,
      recursive := delimiter ≠ [slash],
      regexpStr :=
        if first.length < pfx.length then
          some (bucketPrefix ++ prefixParts.flatMap fun p => lit ".*" ++ p)
        else none }
  match listLoop K s call fuel startKey true ⟨[], [], min maxKeys maxKeyRange⟩ with
  | none => none
  | some (.error e) => some (.error e)
  | some (.ok (st, startKey)) =>
    if st.nRemainKeys > 0 ∨ maxKeys ≤ maxKeyRange then
      some (.ok ⟨false, [], st.objects, st.prefixes⟩)
    else if (incStr startKey).length < bucketPrefix.length then some (.error .panic)
    else
      some (.ok ⟨true, (incStr startKey).drop bucketPrefix.length, st.objects, st.prefixes⟩)

/-! ## Entries -/

section Entries

variable {K s} {c : ListCall}

/-- Every listed object is as `getObjectInfo` returns it. -/
def ListState.Faithful (K : Kineticd) (s : Store) (bucket : Bytes) (st : ListState) : Prop :=
  ∀ i ∈ st.objects, getObjectInfo K s bucket i.name = .ok i

variable {i : ObjectInfo}

theorem getObjectInfo_name {bucket object : Bytes} (h : getObjectInfo K s bucket object = .ok i) :
    i.name = object ∧ i.isDir = false := by
  unfold getObjectInfo at h
  dsimp only at h
  split at h
  · cases h
  · split at h
    · cases h
    · cases h
      exact ⟨rfl, rfl⟩

theorem listDir_of_not_isDir {prefixDir : Bytes} (h : (listDir prefixDir i).isDir = false) :
    listDir prefixDir i = i := by
  unfold listDir at h ⊢
  split
  · next heq => simp [heq] at h
  · rfl

variable {st : ListState}

theorem ListState.Faithful.append (h : st.Faithful K s c.bucket) {object : Bytes}
    (hi : getObjectInfo K s c.bucket object = .ok i) (n : Int) :
    ListState.Faithful K s c.bucket { st with objects := st.objects ++ [i], nRemainKeys := n } := by
  intro j hj
  rcases List.mem_append.1 hj with hj | hj
  · exact h j hj
  · rw [List.mem_singleton.1 hj, (getObjectInfo_name hi).1]
    exact hi

variable {st' : ListState}

theorem listKey_faithful {key : Bytes} (h : st.Faithful K s c.bucket)
    (hk : listKey K s c st key = .ok st') : st'.Faithful K s c.bucket := by
  unfold listKey at hk
  split at hk
  · cases hk
    exact h
  split at hk
  · cases hk
  cases hi : getObjectInfo K s c.bucket (key.drop (c.bucket.length + 1)) with
  | error e => simp [hi] at hk
  | ok i =>
    simp only [hi] at hk
    split at hk
    · cases hk
      exact h
    split at hk
    · cases hk
      exact h.append hi _
    split at hk
    · cases hk
    split at hk
    · split at hk
      · cases hk
        exact h
      · cases hk
        exact h
    · next hdir =>
      cases hk
      rw [listDir_of_not_isDir (Bool.eq_false_iff.2 hdir)]
      exact h.append hi _

theorem listKeys_faithful {keys : List Bytes} (h : st.Faithful K s c.bucket)
    (hk : listKeys K s c keys st = .ok st') : st'.Faithful K s c.bucket := by
  induction keys generalizing st with
  | nil =>
    cases hk
    exact h
  | cons key keys ih =>
    rw [listKeys] at hk
    cases hkey : listKey K s c st key with
    | error e => simp [hkey] at hk
    | ok st₁ =>
      rw [hkey] at hk
      exact ih (listKey_faithful h hkey) hk

theorem listLoop_faithful {fuel : Nat} {startKey lastKey : Bytes} {incl : Bool}
    (h : st.Faithful K s c.bucket)
    (hl : listLoop K s c fuel startKey incl st = some (.ok (st', lastKey))) :
    st'.Faithful K s c.bucket := by
  induction fuel generalizing startKey incl st with
  | zero => cases hl
  | succ fuel ih =>
    rw [listLoop] at hl
    split at hl
    · cases hl
      exact h
    · dsimp only at hl
      split at hl
      · cases hl
      · next st₁ hkeys =>
        have h₁ := listKeys_faithful h hkeys
        split at hl
        · cases hl
          exact h₁
        · exact ih h₁ hl

theorem listObjects_faithful {fuel : Nat} {bucket pfx marker delimiter : Bytes} {maxKeys : Int}
    {res : ListObjectsInfo}
    (h : listObjects K s fuel bucket pfx marker delimiter maxKeys = some (.ok res)) :
    ∀ i ∈ res.objects, getObjectInfo K s bucket i.name = .ok i := by
  unfold listObjects at h
  dsimp only at h
  split at h
  · cases h
  · cases h
  · next st lastKey hloop =>
    have hst : st.Faithful K s bucket := listLoop_faithful (fun i hi => by cases hi) hloop
    split at h
    · cases h
      exact hst
    · split at h
      · cases h
      · cases h
        exact hst

end Entries

/-! ## Recursive listings -/

/-- The visible objects behind the keys of a window. -/
def visibleInfos (bucket : Bytes) : List Bytes → Except Err (List ObjectInfo)
  | [] => .ok []
  | key :: keys =>
    if key.length < bucket.length + 1 then .error .panic
    else
      match getObjectInfo K s bucket (key.drop (bucket.length + 1)) with
      | .error e => .error e
      | .ok objInfo =>
        match visibleInfos bucket keys with
        | .error e => .error e
        | .ok objs => .ok (if objInfo.hidden then objs else objInfo :: objs)

/-- The page that one window of a recursive listing makes. -/
def listPage (bucket pfx marker : Bytes) (maxKeys : Int) : Except Err ListObjectsInfo :=
  let startKey := makeKey bucket (if marker = [] then pfx else marker)
  let keys := cGetKeyRange K s startKey (incStr (makeKey bucket pfx)) true true
    (min maxKeys maxKeyRange).toNat
  match visibleInfos K s bucket keys with
  | .error e => .error e
  | .ok objects =>
    if (keys.length : Int) < min maxKeys maxKeyRange ∨ maxKeys ≤ maxKeyRange then
      .ok ⟨false, [], objects, []⟩
    else
      let nextKey := incStr (keys.getLast?.getD startKey)
      if nextKey.length < bucket.length + 1 then .error .panic
      else .ok ⟨true, nextKey.drop (bucket.length + 1), objects, []⟩

variable {K s}

theorem listKeys_recursive {c : ListCall} (hr : c.recursive = true) (hre : c.regexpStr = none)
    (keys : List Bytes) (st : ListState) :
    listKeys K s c keys st = (visibleInfos K s c.bucket keys).map fun objs =>
      { st with objects := st.objects ++ objs, nRemainKeys := st.nRemainKeys - keys.length } := by
  induction keys generalizing st with
  | nil => simp [listKeys, visibleInfos, Except.map]
  | cons key keys ih =>
    simp only [listKeys, listKey, visibleInfos, hr, hre, Option.any_none, Bool.false_eq_true,
      if_false, if_true]
    by_cases hlen : key.length < c.bucket.length + 1
    · simp only [hlen, if_true, Except.map]
    · simp only [hlen, if_false]
      cases getObjectInfo K s c.bucket (key.drop (c.bucket.length + 1)) with
      | error e => rfl
      | ok objInfo =>
        have hsub : st.nRemainKeys - 1 - (keys.length : Int) =
            st.nRemainKeys - (keys.length + 1) := by
          omega
        cases hh : objInfo.hidden <;> simp only [hh, Bool.false_eq_true, if_false, if_true, ih] <;>
          cases visibleInfos K s c.bucket keys <;> simp [Except.map, hsub]

theorem listObjects_recursive {fuel : Nat} (hf : 2 ≤ fuel) {bucket pfx marker delimiter : Bytes}
    {maxKeys : Int} (hp : star ∉ pfx) (hd : delimiter ≠ [slash]) (hm : 0 < maxKeys) :
    listObjects K s fuel bucket pfx marker delimiter maxKeys =
      some (listPage K s bucket pfx marker maxKeys) := by
  obtain ⟨fuel, rfl⟩ : ∃ f, fuel = f + 2 := ⟨fuel - 2, by omega⟩
  have hsplit : pfx.splitOn star = [pfx] := List.splitOn_eq_singleton hp
  have hmk (x : Bytes) : bucket ++ [slash] ++ x = makeKey bucket x := by simp [makeKey]
  have hmin : ¬ min maxKeys maxKeyRange ≤ 0 := by simp [maxKeyRange]; omega
  simp only [listObjects, hsplit, List.headD_cons, lt_irrefl, if_false, hmk, hd, ne_eq,
    not_false_eq_true, decide_true, listPage, ← apply_ite (makeKey bucket)]
  rw [listLoop, if_neg hmin]
  simp only [listKeys_recursive (c := ⟨bucket, _, _, true, none⟩) rfl rfl]
  generalize cGetKeyRange K s _ _ true true _ = keys
  cases visibleInfos K s bucket keys with
  | error e => simp [Except.map]
  | ok objs =>
    simp only [Except.map, List.nil_append, List.length_append, List.length_singleton]
    by_cases hlt : (keys.length : Int) < min maxKeys maxKeyRange
    · simp only [hlt, if_true, true_or]
      rw [if_pos (.inl (by omega))]
    · simp only [hlt, if_false, false_or]
      rw [listLoop, if_pos (by show _ - _ ≤ _; omega)]
      simp only
      have h0 : ¬ min maxKeys maxKeyRange - (keys.length : Int) > 0 := by omega
      simp only [h0, false_or]
      rw [apply_ite some, apply_ite some]

end S3Kinetic
