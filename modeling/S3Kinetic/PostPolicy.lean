import S3Kinetic.Conditions

/-!
# POST policies

A form upload carries a policy document. `parsePostPolicyForm` turns its conditions into a list and
one slot for a length range, `checkPostPolicy` holds the form's fields against the list and the
handler holds the file's size against the slot. `postPolicy_enforced_iff` says which conditions of
the document this leaves out: those on field names that are in no table, all length ranges but the
last, bounds that are no 64-bit integers, and members that a later member of the same name replaces.

A document is a decoded JSON value; objects keep all their members, and numbers are the values that
the decoder reads.
-/

namespace S3Kinetic

open ByteString OrdMap

inductive Json where
  | null
  | bool (b : Bool)
  | num (q : ℚ)
  | str (s : Bytes)
  | arr (l : List Json)
  | obj (members : List (Bytes × Json))

def truncate (q : ℚ) : Int := if 0 ≤ q then q.floor else q.ceil

/-- What the source takes from the standard library: lower case beyond ASCII, reading a time (in
nanoseconds), and the conversion of a floating point number outside the 64-bit range. -/
structure PostEnv where
  lower : Bytes → Bytes
  lower_ascii : ∀ s : Bytes, (∀ c ∈ s, c.toNat < 0x80) → lower s = toLower s
  parseTime : Bytes → Option Int
  toInt64 : ℚ → Int
  toInt64_eq : ∀ q, -2 ^ 63 ≤ truncate q → truncate q < 2 ^ 63 → toInt64 q = truncate q

/-! ## Reading the document -/

/-- Field names of the document are matched without regard to case, `ſ` being an `s`. -/
def jsonFold : Bytes → Bytes
  | 0xC5 :: 0xBF :: s => 83 :: jsonFold s
  | c :: s => (if 97 ≤ c && c ≤ 122 then c - 32 else c) :: jsonFold s
  | [] => []

structure RawPolicy where
  expiration : Bytes
  conditions : List Json

def readMember (raw : RawPolicy) (m : Bytes × Json) : Option RawPolicy :=
  if jsonFold m.1 = lit "EXPIRATION" then
    match m.2 with
    | .str s => some { raw with expiration := s }
    | .null => some raw
    | _ => none
  else if jsonFold m.1 = lit "CONDITIONS" then
    match m.2 with
    | .arr l => some { raw with conditions := l }
    | .null => some { raw with conditions := [] }
    | _ => none
  else some raw

/-- `json.Unmarshal` into the raw policy: of two members for one field the later one counts. -/
def unmarshalPolicy : Json → Option RawPolicy
  | .obj members => members.foldlM readMember ⟨[], []⟩
  | .null => some ⟨[], []⟩
  | _ => none

inductive Operator where
  | eq | startsWith
  deriving DecidableEq

structure PolicyCond where
  operator : Operator
  key : Bytes
  value : Bytes
  deriving DecidableEq

structure PostPolicyForm where
  expiration : Int
  policies : List PolicyCond
  contentLengthRange : Option (Int × Int)

def toInteger (E : PostEnv) : Json → Option Int
  | .num q => some (E.toInt64 q)
  | .str s =>
    match Decimal.parseInt64 s with
    | (i, none) => some i
    | _ => none
  | _ => none

def lastMembers : List (Bytes × Json) → List (Bytes × Json)
  | [] => []
  | m :: ms => if ms.any (·.1 = m.1) then lastMembers ms else m :: lastMembers ms

def memberCond (E : PostEnv) (m : Bytes × Json) : Option PolicyCond :=
  match m.2 with
  | .str v => some ⟨.eq, 36 :: E.lower m.1, v⟩
  | _ => none

def parseOperator (E : PostEnv) (s : Bytes) : Option Operator :=
  if E.lower s = lit "eq" then some .eq
  else if E.lower s = lit "starts-with" then some .startsWith
  else none

/-- What one element of `conditions` adds: conditions on fields, or a length range. -/
def parseCondition (E : PostEnv) : Json → Option (List PolicyCond × Option (Int × Int))
  | .obj members => ((lastMembers members).mapM (memberCond E)).map fun ps => (ps, none)
  | .arr [.str op, b, c] =>
    match parseOperator E op with
    | some operator =>
      match b, c with
      | .str matchType, .str value =>
        if (E.lower matchType).head? = some 36 then some ([⟨operator, E.lower matchType, value⟩],
          none) else none
      | _, _ => none
    | none =>
      if E.lower op = lit "content-length-range" then
        match toInteger E b, toInteger E c with
        | some min, some max => some ([], some (min, max))
        | _, _ => none
      else none
  | _ => none

def addCondition (E : PostEnv) (p : PostPolicyForm) (val : Json) : Option PostPolicyForm :=
  (parseCondition E val).map fun (ps, range) =>
    { p with policies := p.policies ++ ps, contentLengthRange := range.or p.contentLengthRange }

def parsePostPolicyForm (E : PostEnv) (policy : Json) : Option PostPolicyForm :=
  match unmarshalPolicy policy with
  | none => none
  | some raw =>
    match E.parseTime raw.expiration with
    | none => none
    | some t => raw.conditions.foldlM (addCondition E) ⟨t, [], none⟩

/-! ## Checking the form -/

structure FormValues where
  header : Header
  canonical : ∀ n ∈ header, canonicalHeaderKey n = n

def FormValues.get (f : FormValues) (n : Bytes) : Bytes := headerGet f.header (canonicalHeaderKey n)

/-- The known names, and whether they may be used with `starts-with`. -/
def startsWithConds : List (Bytes × Bool) :=
  [(lit "$acl", true), (lit "$bucket", false), (lit "$cache-control", true),
   (lit "$content-type", true), (lit "$content-disposition", true),
   (lit "$content-encoding", true), (lit "$expires", true), (lit "$key", true),
   (lit "$success_action_redirect", true), (lit "$redirect", true),
   (lit "$success_action_status", false), (lit "$x-amz-algorithm", false),
   (lit "$x-amz-credential", false), (lit "$x-amz-date", false)]

def checkPolicyCond (op : Operator) (input1 input2 : Bytes) : Bool :=
  match op with
  | .eq => input1 = input2
  | .startsWith => input2.isPrefixOf input1

inductive PostPolicyError where
  | expired
  | extraInputFields (key : Bytes)
  | conditionFailed
  | conditionFailedOn (op : Operator) (key value : Bytes)

def formCanonicalName (p : PolicyCond) : Bytes := canonicalHeaderKey (p.key.drop 1)

def checkCond (f : FormValues) (p : PolicyCond) : Option PostPolicyError :=
  match lookup p.key startsWithConds with
  | some startsWithSupported =>
    if p.operator = .startsWith ∧ startsWithSupported = false then some .conditionFailed
    else if checkPolicyCond p.operator (f.get (formCanonicalName p)) p.value then none
    else some .conditionFailed
  | none =>
    if lit "$x-amz-meta-" <+: p.key ∨ lit "$x-amz-" <+: p.key then
      if checkPolicyCond p.operator (f.get (formCanonicalName p)) p.value then none
      else some (.conditionFailedOn p.operator p.key p.value)
    else none

def metaNames (p : PostPolicyForm) : List Bytes :=
  (p.policies.filter fun c => lit "$x-amz-meta-" <+: c.key).map formCanonicalName

def checkPostPolicy (f : FormValues) (p : PostPolicyForm) (now : Int) : Option PostPolicyError :=
  if p.expiration ≤ now then some .expired
  else
    match f.header.keys.find? fun n => lit "X-Amz-Meta-" <+: n ∧ n ∉ metaNames p with
    | some n => some (.extraInputFields n)
    | none => p.policies.findSome? (checkCond f)

def globalMaxObjectSize : Int := 5 * 2 ^ 40

/-- The handler's check of the file's size. -/
def lengthAllowed (p : PostPolicyForm) (fileSize : Int) : Bool :=
  match p.contentLengthRange with
  | none => true
  | some (min, max) => min ≤ fileSize && fileSize ≤ max && fileSize ≤ globalMaxObjectSize

/-- The upload is let through. -/
def PostAllowed (E : PostEnv) (policy : Json) (f : FormValues) (fileSize now : Int) : Prop :=
  ∃ p, parsePostPolicyForm E policy = some p ∧ checkPostPolicy f p now = none ∧
    lengthAllowed p fileSize = true

/-! ## What the document says -/

inductive ListedCond where
  | field (op : Operator) (name value : Bytes)
  | range (min max : Json)

/-- The conditions of an object, with whether the member is the last of its name. -/
def listedMembers : List (Bytes × Json) → List (ListedCond × Bool)
  | [] => []
  | (k, v) :: ms =>
    match v with
    | .str v => (.field .eq k v, !ms.any (·.1 = k)) :: listedMembers ms
    | _ => listedMembers ms

def listedIn (E : PostEnv) : Json → List (ListedCond × Bool)
  | .obj members => listedMembers members
  | .arr [.str op, b, c] =>
    match parseOperator E op with
    | some operator =>
      match b, c with
      | .str (36 :: name), .str value => [(.field operator name value, true)]
      | _, _ => []
    | none => if E.lower op = lit "content-length-range" then [(.range b c, true)] else []
  | _ => []

/-- The lists of conditions of a document, with whether the list is the last. -/
def conditionLists : List (Bytes × Json) → List (List Json × Bool)
  | [] => []
  | (k, v) :: ms =>
    match v with
    | .arr l =>
      if jsonFold k = lit "CONDITIONS" then (l, !ms.any fun m => jsonFold m.1 = lit "CONDITIONS") ::
        conditionLists ms
      else conditionLists ms
    | _ => conditionLists ms

/-- Every condition of a document, with whether the decoder keeps it. -/
def listed (E : PostEnv) : Json → List (ListedCond × Bool)
  | .obj members =>
    (conditionLists members).flatMap fun l =>
      l.1.flatMap fun val => (listedIn E val).map fun c => (c.1, c.2 && l.2)
  | _ => []

def boundValue : Json → Option ℚ
  | .num q => some q
  | .str s =>
    match Decimal.parseInt64 s with
    | (i, none) => some i
    | _ => none
  | _ => none

/-- A condition holds of a form and a file's size. Fields are found without regard to case; a field
that the form does not have is empty. -/
def ListedCond.Holds (f : FormValues) (fileSize : Int) : ListedCond → Prop
  | .field op name value =>
    (∀ n vs, f.header.get? n = some vs → toLower n = toLower name →
      checkPolicyCond op (vs.headD []) value = true) ∧
      ((∀ n ∈ f.header, toLower n ≠ toLower name) → checkPolicyCond op [] value = true)
  | .range min max =>
    (∀ q, boundValue min = some q → q ≤ fileSize) ∧ ∀ q, boundValue max = some q →
      (fileSize : ℚ) ≤ q

/-- The last length range that the decoder keeps. -/
def lastRange (E : PostEnv) (policy : Json) : Option (Json × Json) :=
  ((listed E policy).filterMap fun c =>
    match c with
    | (.range min max, true) => some (min, max)
    | _ => none).getLast?

def IsInt64 (q : ℚ) : Prop := ∃ i : Int, q = i ∧ -2 ^ 63 ≤ i ∧ i < 2 ^ 63

/-- The conditions that the code looks at: kept ones on a field in the table or under `x-amz-` whose
name is a header's, and the last length range if its bounds are 64-bit integers. -/
def IsChecked (E : PostEnv) (policy : Json) : ListedCond → Prop
  | .field op name value =>
    (ListedCond.field op name value, true) ∈ listed E policy ∧
      name.all validHeaderFieldByte = true ∧
      ((lookup (36 :: toLower name) startsWithConds).isSome = true ∨
        lit "$x-amz-" <+: 36 :: toLower name)
  | .range min max =>
    lastRange E policy = some (min, max) ∧ (∀ q, boundValue min = some q → IsInt64 q) ∧
      ∀ q, boundValue max = some q → IsInt64 q

/-! ## Names without regard to case -/

theorem forall_byte {p : UInt8 → Prop} (h : ∀ i : Fin 256, p (UInt8.ofFin i)) (c : UInt8) :
    p c := by
  have := h c.toFin
  rwa [UInt8.ofFin_toFin] at this

def lowerByte (c : UInt8) : UInt8 := if 65 ≤ c && c ≤ 90 then c + 32 else c

def canonicalByte (upper : Bool) (c : UInt8) : UInt8 :=
  if upper && 97 ≤ c && c ≤ 122 then c - 32
  else if !upper && 65 ≤ c && c ≤ 90 then c + 32
  else c

theorem canonicalByte_lowerByte (u : Bool) (c : UInt8) :
    canonicalByte u (lowerByte c) = canonicalByte u c ∧ (lowerByte c = 45 ↔ c = 45) ∧
      validHeaderFieldByte (lowerByte c) = validHeaderFieldByte c := by
  revert c
  refine forall_byte ?_
  cases u <;> decide +kernel

theorem lowerByte_canonicalByte (u : Bool) (c : UInt8) :
    lowerByte (canonicalByte u c) = lowerByte c ∧ (canonicalByte u c = 45 ↔ c = 45) := by
  revert c
  refine forall_byte ?_
  cases u <;> decide +kernel

theorem canonicalFrom_cons (u : Bool) (c : UInt8) (s : Bytes) :
    canonicalFrom u (c :: s) = canonicalByte u c :: canonicalFrom (c = 45) s := rfl

theorem toLower_cons (c : UInt8) (s : Bytes) : toLower (c :: s) = lowerByte c :: toLower s := rfl

theorem canonicalFrom_toLower (u : Bool) (s : Bytes) :
    canonicalFrom u (toLower s) = canonicalFrom u s := by
  induction s generalizing u with
  | nil => rfl
  | cons c s ih =>
    obtain ⟨h1, h2, -⟩ := canonicalByte_lowerByte u c
    rw [toLower_cons, canonicalFrom_cons, canonicalFrom_cons, ih, h1]
    simp only [h2]

theorem toLower_canonicalFrom (u : Bool) (s : Bytes) : toLower (canonicalFrom u s) = toLower s := by
  induction s generalizing u with
  | nil => rfl
  | cons c s ih =>
    rw [canonicalFrom_cons, toLower_cons, toLower_cons, ih, (lowerByte_canonicalByte u c).1]

theorem all_valid_toLower (s : Bytes) :
    (toLower s).all validHeaderFieldByte = s.all validHeaderFieldByte := by
  induction s with
  | nil => rfl
  | cons c s ih =>
    rw [toLower_cons, List.all_cons, List.all_cons, ih, (canonicalByte_lowerByte true c).2.2]

variable {s : Bytes}

theorem all_valid_of_toLower {t : Bytes} (h : toLower s = toLower t)
    (ht : t.all validHeaderFieldByte = true) :
    s.all validHeaderFieldByte = true := by
  rw [← all_valid_toLower, h, all_valid_toLower, ht]

theorem toLower_toLower (s : Bytes) : toLower (toLower s) = toLower s := by
  rw [← toLower_canonicalFrom true (toLower s), canonicalFrom_toLower, toLower_canonicalFrom]

theorem canonicalHeaderKey_of_toLower {t : Bytes} (ht : t.all validHeaderFieldByte = true)
    (h : toLower s = toLower t) : canonicalHeaderKey s = canonicalHeaderKey t := by
  have hs := all_valid_of_toLower h ht
  rw [canonicalHeaderKey, canonicalHeaderKey, if_pos hs, if_pos ht, ← canonicalFrom_toLower, h,
    canonicalFrom_toLower]

theorem toLower_canonicalHeaderKey (s : Bytes) : toLower (canonicalHeaderKey s) = toLower s := by
  unfold canonicalHeaderKey
  split_ifs
  · exact toLower_canonicalFrom true s
  · rfl

theorem canonicalHeaderKey_idem (hs : s.all validHeaderFieldByte = true) :
    canonicalHeaderKey (canonicalHeaderKey s) = canonicalHeaderKey s :=
  canonicalHeaderKey_of_toLower hs (toLower_canonicalHeaderKey s)

theorem ascii_of_valid (c : UInt8) : validHeaderFieldByte c = true → c.toNat < 0x80 := by
  revert c
  refine forall_byte ?_
  decide +kernel

theorem PostEnv.lower_of_valid (E : PostEnv) (hs : s.all validHeaderFieldByte = true) :
    E.lower s = toLower s :=
  E.lower_ascii s fun c hc => ascii_of_valid c (List.all_eq_true.1 hs c hc)

theorem PostEnv.lower_dollar (E : PostEnv) (hs : s.all validHeaderFieldByte = true) :
    E.lower (36 :: s) = 36 :: toLower s := by
  rw [E.lower_ascii]
  · rfl
  · intro c hc
    rcases List.mem_cons.1 hc with rfl | hc
    · decide
    · exact ascii_of_valid c (List.all_eq_true.1 hs c hc)

variable {op : Operator}

theorem holds_field {f : FormValues} {name value : Bytes} {fileSize : Int}
    (hname : name.all validHeaderFieldByte = true)
    (h : checkPolicyCond op (f.get (canonicalHeaderKey (toLower name))) value = true) :
    (ListedCond.field op name value).Holds f fileSize := by
  have hlow : canonicalHeaderKey (toLower name) = canonicalHeaderKey name :=
    canonicalHeaderKey_of_toLower hname (toLower_toLower name)
  rw [FormValues.get, hlow, canonicalHeaderKey_idem hname] at h
  refine ⟨fun n vs hn he => ?_, fun hno => ?_⟩
  · obtain rfl : n = canonicalHeaderKey name := by
      rw [← f.canonical n ((mem_iff _).2 ⟨vs, hn⟩)]
      exact canonicalHeaderKey_of_toLower hname he
    rwa [headerGet, hn] at h
  · have : canonicalHeaderKey name ∉ f.header :=
      fun hm => hno _ hm (toLower_canonicalHeaderKey name)
    rwa [headerGet, (not_mem_iff _).1 this] at h

/-! ## What the decoder keeps -/

def keptConditions (members : List (Bytes × Json)) : List Json :=
  (conditionLists members).flatMap fun l => if l.2 then l.1 else []

def isConditions (m : Bytes × Json) : Bool := jsonFold m.1 = lit "CONDITIONS"

variable {members : List (Bytes × Json)}

theorem keptConditions_of_not_any (h : members.any isConditions = false) :
    keptConditions members = [] := by
  induction members with
  | nil => rfl
  | cons m ms ih =>
    obtain ⟨k, v⟩ := m
    rw [List.any_cons, Bool.or_eq_false_iff] at h
    have hk : ¬ jsonFold k = lit "CONDITIONS" := by simpa [isConditions] using h.1
    have hms := ih h.2
    cases v <;> simpa only [keptConditions, conditionLists, if_neg hk] using hms

variable {raw : RawPolicy}

theorem conditions_of_readMember {raw' : RawPolicy} {m : Bytes × Json}
    (h : readMember raw m = some raw') :
    raw'.conditions = if isConditions m then keptConditions [m] else raw.conditions := by
  obtain ⟨k, v⟩ := m
  unfold readMember at h
  by_cases hk : jsonFold k = lit "CONDITIONS"
  · have hne : ¬ jsonFold k = lit "EXPIRATION" := by
      rw [hk]
      decide
    have hc : isConditions (k, v) = true := by simp [isConditions, hk]
    rw [if_pos hc]
    simp only [if_neg hne, if_pos hk] at h
    cases v with
    | arr l =>
      obtain rfl := Option.some.inj h
      simp [keptConditions, conditionLists, hk]
    | null =>
      obtain rfl := Option.some.inj h
      rfl
    | bool | num | str | obj => cases h
  · have hc : isConditions (k, v) = false := by simp [isConditions, hk]
    simp only [hk, if_false] at h
    rw [hc]
    split_ifs at h with he
    · cases v with
      | str s =>
        obtain rfl := Option.some.inj h
        rfl
      | null =>
        obtain rfl := Option.some.inj h
        rfl
      | bool | num | arr | obj => cases h
    · obtain rfl := Option.some.inj h
      rfl

theorem keptConditions_cons (m : Bytes × Json) (ms : List (Bytes × Json)) :
    keptConditions (m :: ms) =
      if ms.any isConditions then keptConditions ms else if isConditions m then keptConditions [m]
        else [] := by
  obtain ⟨k, v⟩ := m
  have hany : (ms.any fun m => decide (jsonFold m.1 = lit "CONDITIONS")) = ms.any isConditions :=
    rfl
  cases hms : ms.any isConditions with
  | true =>
    cases v <;> by_cases hk : jsonFold k = lit "CONDITIONS" <;>
      simp [keptConditions, conditionLists, hk, hany, hms]
  | false =>
    have := keptConditions_of_not_any hms
    unfold keptConditions at this
    cases v <;> by_cases hk : jsonFold k = lit "CONDITIONS" <;>
      simp [keptConditions, conditionLists, hk, hany, hms, this, isConditions]

theorem conditions_of_foldlM {raw' : RawPolicy}
    (h : members.foldlM readMember raw = some raw') :
    raw'.conditions = if members.any isConditions then keptConditions members
      else raw.conditions := by
  induction members generalizing raw with
  | nil =>
    obtain rfl := Option.some.inj h
    rfl
  | cons m ms ih =>
    rw [List.foldlM_cons] at h
    cases hm : readMember raw m with
    | none => simp [hm] at h
    | some raw1 =>
      rw [ih (by simpa [hm] using h), conditions_of_readMember hm, keptConditions_cons m ms,
        List.any_cons]
      cases ms.any isConditions <;> cases isConditions m <;> rfl

theorem conditions_of_unmarshalPolicy
    (h : unmarshalPolicy (.obj members) = some raw) : raw.conditions = keptConditions members := by
  rw [conditions_of_foldlM h]
  cases hany : members.any isConditions with
  | true => rfl
  | false => rw [keptConditions_of_not_any hany]; rfl

theorem mem_listed_true {E : PostEnv} {c : ListedCond}
    (h : (c, true) ∈ listed E (.obj members)) :
    ∃ val ∈ keptConditions members, (c, true) ∈ listedIn E val := by
  obtain ⟨l, hl, h⟩ := List.mem_flatMap.1 h
  obtain ⟨val, hval, h⟩ := List.mem_flatMap.1 h
  obtain ⟨x, hx, he⟩ := List.mem_map.1 h
  obtain ⟨rfl, hb⟩ := Prod.mk.inj he
  rw [Bool.and_eq_true] at hb
  refine ⟨val, List.mem_flatMap.2 ⟨l, hl, by rw [if_pos hb.2]; exact hval⟩, ?_⟩
  rw [← hb.1]
  exact hx

def keptRange (c : ListedCond × Bool) : Option (Json × Json) :=
  match c with
  | (.range min max, true) => some (min, max)
  | _ => none

theorem filterMap_keptRange_listed (E : PostEnv) (members : List (Bytes × Json)) :
    (listed E (.obj members)).filterMap keptRange =
      (keptConditions members).flatMap fun val => (listedIn E val).filterMap keptRange := by
  simp only [listed, keptConditions, List.filterMap_flatMap, List.flatMap_assoc]
  congr 1
  funext l
  obtain ⟨vals, kept⟩ := l
  cases kept with
  | true =>
    simp only [Bool.and_true, if_true]
    congr 1
    funext val
    simp
  | false =>
    have hnone : ∀ l : List (ListedCond × Bool), (l.map fun c => (c.1, false)).filterMap keptRange =
        [] := by
      intro l
      rw [List.filterMap_map]
      refine List.filterMap_eq_nil_iff.2 fun c _ => ?_
      obtain ⟨c, b⟩ := c
      cases c <;> rfl
    simp [hnone]

theorem mem_lastMembers {ms : List (Bytes × Json)} {k v : Bytes}
    (h : (ListedCond.field op k v, true) ∈ listedMembers ms) :
    op = .eq ∧ (k, Json.str v) ∈ lastMembers ms := by
  induction ms with
  | nil => simp [listedMembers] at h
  | cons m ms ih =>
    obtain ⟨k', v'⟩ := m
    have hkeep : (k, Json.str v) ∈ lastMembers ms →
        (k, Json.str v) ∈ lastMembers ((k', v') :: ms) := by
      intro hm
      rw [lastMembers]
      split_ifs
      · exact hm
      · exact List.mem_cons_of_mem _ hm
    cases v' with
    | str w =>
      rcases List.mem_cons.1 h with h | h
      · obtain ⟨hf, hb⟩ := Prod.mk.inj h
        injection hf with h1 h2 h3
        subst h1 h2 h3
        refine ⟨rfl, ?_⟩
        rw [lastMembers, if_neg (by rw [Bool.not_eq_true, ← Bool.not_eq_true', ← hb])]
        simp
      · exact (ih h).imp id hkeep
    | null | bool | num | arr | obj => exact (ih h).imp id hkeep

theorem mem_of_mapM {α β : Type} {g : α → Option β} {l : List α} {bs : List β}
    (h : l.mapM g = some bs) {a : α} {b : β} (ha : a ∈ l) (hb : g a = some b) : b ∈ bs := by
  induction l generalizing bs with
  | nil => simp at ha
  | cons x l ih =>
    rw [List.mapM_cons] at h
    obtain ⟨y, hy, h⟩ := Option.bind_eq_some_iff.1 h
    obtain ⟨ys, hys, h⟩ := Option.bind_eq_some_iff.1 h
    obtain rfl := Option.some.inj h
    rcases List.mem_cons.1 ha with rfl | ha
    · rw [hy] at hb
      obtain rfl := Option.some.inj hb
      simp
    · exact List.mem_cons_of_mem _ (ih hys ha)

theorem mem_of_listedIn {E : PostEnv} {val : Json} {ps : List PolicyCond}
    {range : Option (Int × Int)} (hp : parseCondition E val = some (ps, range)) {name value : Bytes}
    (hname : name.all validHeaderFieldByte = true)
    (h : (ListedCond.field op name value, true) ∈ listedIn E val) :
    ⟨op, 36 :: toLower name, value⟩ ∈ ps := by
  unfold listedIn at h
  split at h
  · -- an object
    obtain ⟨rfl, hm⟩ := mem_lastMembers h
    obtain ⟨qs, hqs, he⟩ := Option.map_eq_some_iff.1 hp
    obtain ⟨rfl, -⟩ := Prod.mk.inj he
    refine mem_of_mapM hqs hm ?_
    rw [memberCond, E.lower_of_valid hname]
  · -- a list of three
    rename_i o b c
    cases hop : parseOperator E o with
    | none =>
      simp only [hop] at h
      split_ifs at h
      · simp at h
      · simp at h
    | some o' =>
      simp only [hop] at h
      simp only [parseCondition, hop] at hp
      split at h
      · rename_i n v
        obtain ⟨hf, -⟩ := Prod.mk.inj (List.mem_singleton.1 h)
        injection hf with h1 h2 h3
        subst h1 h2 h3
        simp only at hp
        split_ifs at hp with hd
        obtain ⟨rfl, -⟩ := Prod.mk.inj (Option.some.inj hp)
        rw [E.lower_dollar hname]
        simp
      · simp at h
  · simp at h

theorem policies_of_foldlM {E : PostEnv} {vals : List Json} {p p' : PostPolicyForm}
    (h : vals.foldlM (addCondition E) p = some p') :
    p'.expiration = p.expiration ∧ (∀ c ∈ p.policies, c ∈ p'.policies) ∧
      ∀ val ∈ vals, ∃ ps range, parseCondition E val = some (ps, range) ∧
        ∀ c ∈ ps, c ∈ p'.policies := by
  induction vals generalizing p with
  | nil =>
    obtain rfl := Option.some.inj h
    exact ⟨rfl, fun _ hc => hc, by simp⟩
  | cons val vals ih =>
    rw [List.foldlM_cons] at h
    obtain ⟨p1, hp1, h⟩ := Option.bind_eq_some_iff.1 h
    obtain ⟨⟨ps, range⟩, hparse, he⟩ := Option.map_eq_some_iff.1 hp1
    obtain ⟨hexp, hkeep, hall⟩ := ih h
    subst he
    refine ⟨hexp, fun c hc => hkeep c (by simp [hc]), fun v hv => ?_⟩
    rcases List.mem_cons.1 hv with rfl | hv
    · exact ⟨ps, range, hparse, fun c hc => hkeep c (by simp [hc])⟩
    · exact hall v hv

theorem keptRange_listedMembers (ms : List (Bytes × Json)) :
    (listedMembers ms).filterMap keptRange = [] := by
  induction ms with
  | nil => rfl
  | cons m ms ih =>
    obtain ⟨k, v⟩ := m
    cases v <;> simpa [listedMembers, keptRange] using ih

theorem range_of_parseCondition {E : PostEnv} {val : Json} {ps : List PolicyCond}
    {range : Option (Int × Int)} (hp : parseCondition E val = some (ps, range)) :
    ((listedIn E val).filterMap keptRange = [] ∧ range = none) ∨
      ∃ b c min max, (listedIn E val).filterMap keptRange = [(b, c)] ∧ toInteger E b = some min ∧
        toInteger E c = some max ∧ range = some (min, max) := by
  unfold parseCondition at hp
  split at hp
  · rename_i ms
    obtain ⟨qs, -, he⟩ := Option.map_eq_some_iff.1 hp
    obtain ⟨-, rfl⟩ := Prod.mk.inj he
    exact .inl ⟨keptRange_listedMembers ms, rfl⟩
  · rename_i o b c
    cases hop : parseOperator E o with
    | some o' =>
      simp only [hop] at hp
      refine .inl ⟨?_, ?_⟩
      · simp only [listedIn, hop]
        split <;> rfl
      · split at hp
        · split_ifs at hp
          exact (Prod.mk.inj (Option.some.inj hp)).2.symm
        · cases hp
    | none =>
      simp only [hop] at hp
      split_ifs at hp with hl
      split at hp
      · rename_i mn mx hmn hmx
        refine .inr ⟨b, c, mn, mx, ?_, hmn, hmx, (Prod.mk.inj (Option.some.inj hp)).2.symm⟩
        simp only [listedIn, hop, if_pos hl]
        rfl
      · cases hp
  · cases hp

/-- The slot for a length range holds the last one. -/
theorem range_of_foldlM {E : PostEnv} {vals : List Json} {p p' : PostPolicyForm}
    (h : vals.foldlM (addCondition E) p = some p') :
    match (vals.flatMap fun val => (listedIn E val).filterMap keptRange).getLast? with
    | none => p'.contentLengthRange = p.contentLengthRange
    | some (b, c) => ∃ min max, toInteger E b = some min ∧ toInteger E c = some max ∧
        p'.contentLengthRange = some (min, max) := by
  induction vals generalizing p with
  | nil =>
    obtain rfl := Option.some.inj h
    rfl
  | cons val vals ih =>
    rw [List.foldlM_cons] at h
    obtain ⟨p1, hp1, h⟩ := Option.bind_eq_some_iff.1 h
    obtain ⟨⟨ps, range⟩, hparse, he⟩ := Option.map_eq_some_iff.1 hp1
    have hrest := ih h
    rw [List.flatMap_cons, List.getLast?_append]
    cases hlast : (vals.flatMap fun val => (listedIn E val).filterMap keptRange).getLast? with
    | some bc =>
      rw [hlast] at hrest
      exact hrest
    | none =>
      rw [hlast] at hrest
      subst he
      rcases range_of_parseCondition hparse with ⟨hnil, rfl⟩ | ⟨b, c, mn, mx, hone, hb, hc, rfl⟩
      · rw [hnil]
        exact hrest
      · rw [hone]
        exact ⟨mn, mx, hb, hc, hrest⟩

theorem truncate_intCast (i : Int) : truncate (i : ℚ) = i := by
  unfold truncate
  split_ifs <;> simp [Rat.floor_intCast, Rat.ceil_intCast]

theorem toInteger_of_isInt64 {E : PostEnv} {b : Json} {i : Int} (h : toInteger E b = some i)
    (hb : ∀ q, boundValue b = some q → IsInt64 q) {q : ℚ} (hq : boundValue b = some q) : q = i := by
  cases b with
  | num x =>
    obtain rfl : x = q := Option.some.inj hq
    obtain ⟨j, rfl, h1, h2⟩ := hb x rfl
    have : E.toInt64 (j : ℚ) = i := Option.some.inj h
    rw [E.toInt64_eq _ (by rwa [truncate_intCast]) (by rwa [truncate_intCast]), truncate_intCast]
      at this
    rw [this]
  | str s =>
    simp only [toInteger] at h
    simp only [boundValue] at hq
    split at h
    · rename_i j hj
      rw [hj] at hq
      obtain rfl := Option.some.inj h
      exact (Option.some.inj hq).symm
    · cases h
  | null | bool | arr | obj => cases h

/-! ## What the code enforces -/

section Enforced

variable {E : PostEnv} {policy : Json} {f : FormValues} {fileSize now : Int}

theorem parse_cases {p : PostPolicyForm} (h : parsePostPolicyForm E policy = some p) :
    ∃ raw t, unmarshalPolicy policy = some raw ∧ E.parseTime raw.expiration = some t ∧
      raw.conditions.foldlM (addCondition E) ⟨t, [], none⟩ = some p := by
  unfold parsePostPolicyForm at h
  cases hraw : unmarshalPolicy policy with
  | none => simp [hraw] at h
  | some raw =>
    simp only [hraw] at h
    cases ht : E.parseTime raw.expiration with
    | none => simp [ht] at h
    | some t => exact ⟨raw, t, rfl, ht, by simpa only [ht] using h⟩

theorem checkCond_of_checked {c : PolicyCond} {name : Bytes} (hkey : c.key = 36 :: toLower name)
    (h : checkCond f c = none)
    (hc : (lookup (36 :: toLower name) startsWithConds).isSome = true ∨
      lit "$x-amz-" <+: 36 :: toLower name) :
    checkPolicyCond c.operator (f.get (canonicalHeaderKey (toLower name))) c.value = true := by
  have hcan : formCanonicalName c = canonicalHeaderKey (toLower name) := by
    rw [formCanonicalName, hkey]; rfl
  unfold checkCond at h
  rw [hkey, hcan] at h
  split at h
  · split_ifs at h with h1 h2
    exact h2
  · rename_i hnone
    rw [hnone] at hc
    have hx : lit "$x-amz-" <+: 36 :: toLower name := by simpa using hc
    rw [if_pos (.inr hx)] at h
    split_ifs at h with h2
    exact h2

theorem holds_of_isChecked (ha : PostAllowed E policy f fileSize now) {c : ListedCond} {b : Bool}
    (hc : (c, b) ∈ listed E policy) (hch : IsChecked E policy c) : c.Holds f fileSize := by
  obtain ⟨p, hp, hcheck, hlen⟩ := ha
  obtain ⟨raw, t, hraw, -, hfold⟩ := parse_cases hp
  obtain ⟨members, rfl⟩ : ∃ members, policy = .obj members := by
    cases policy with
    | obj members => exact ⟨members, rfl⟩
    | null | bool | num | str | arr => exact absurd hc List.not_mem_nil
  have hcond := conditions_of_unmarshalPolicy hraw
  cases c with
  | field op name value =>
    obtain ⟨hmem, hname, htable⟩ := hch
    obtain ⟨val, hval, hin⟩ := mem_listed_true hmem
    rw [← hcond] at hval
    obtain ⟨ps, range, hparse, hps⟩ := (policies_of_foldlM hfold).2.2 val hval
    have hmemp := hps _ (mem_of_listedIn hparse hname hin)
    have hnone : checkCond f ⟨op, 36 :: toLower name, value⟩ = none := by
      unfold checkPostPolicy at hcheck
      split_ifs at hcheck
      split at hcheck
      · cases hcheck
      · exact List.findSome?_eq_none_iff.1 hcheck _ hmemp
    exact holds_field hname (checkCond_of_checked rfl hnone htable)
  | range mn mx =>
    obtain ⟨hlast, hmin, hmax⟩ := hch
    have hrange := range_of_foldlM hfold
    rw [hcond, ← filterMap_keptRange_listed] at hrange
    have hlast' : ((listed E (.obj members)).filterMap keptRange).getLast? = some (mn, mx) := hlast
    rw [hlast'] at hrange
    obtain ⟨i, j, hi, hj, hr⟩ := hrange
    simp only [lengthAllowed, hr, Bool.and_eq_true, decide_eq_true_eq] at hlen
    refine ⟨fun q hq => ?_, fun q hq => ?_⟩
    · rw [toInteger_of_isInt64 hi hmin hq]
      exact_mod_cast hlen.1.1
    · rw [toInteger_of_isInt64 hj hmax hq]
      exact_mod_cast hlen.1.2

theorem not_expired (ha : PostAllowed E policy f fileSize now) :
    ∃ raw t, unmarshalPolicy policy = some raw ∧ E.parseTime raw.expiration = some t ∧ now < t := by
  obtain ⟨p, hp, hcheck, -⟩ := ha
  obtain ⟨raw, t, hraw, ht, hfold⟩ := parse_cases hp
  refine ⟨raw, t, hraw, ht, ?_⟩
  unfold checkPostPolicy at hcheck
  split_ifs at hcheck with he
  rw [(policies_of_foldlM hfold).1] at he
  exact not_le.1 he

end Enforced

/-- An upload that is let through has a policy that has not expired and keeps every condition of the
document exactly when it keeps those that the code does not look at. -/
theorem postPolicy_enforced_iff (E : PostEnv) (policy : Json) (f : FormValues)
    (fileSize now : Int) :
    (PostAllowed E policy f fileSize now →
      (∃ raw t, unmarshalPolicy policy = some raw ∧ E.parseTime raw.expiration = some t ∧ now < t) ∧
        ∀ c b, (c, b) ∈ listed E policy → c.Holds f fileSize) ↔
    (PostAllowed E policy f fileSize now →
      ∀ c b, (c, b) ∈ listed E policy → ¬ IsChecked E policy c → c.Holds f fileSize) := by
  constructor
  · exact fun h ha c b hc _ => (h ha).2 c b hc
  · refine fun h ha => ⟨not_expired ha, fun c b hc => ?_⟩
    by_cases hch : IsChecked E policy c
    · exact holds_of_isChecked ha hc hch
    · exact h ha c b hc hch

/-- An environment for texts in ASCII; the only time it reads is `2030-01-01T00:00:00Z`. -/
def asciiEnv : PostEnv where
  lower := toLower
  lower_ascii := fun _ _ => rfl
  parseTime := fun s => if s = lit "2030-01-01T00:00:00Z" then some 1893456000000000000 else none
  toInt64 := fun q => if -2 ^ 63 ≤ truncate q ∧ truncate q < 2 ^ 63 then truncate q else -2 ^ 63
  toInt64_eq := fun _ h1 h2 => if_pos ⟨h1, h2⟩

/-- At most a kilobyte, under any of the tags of project `a`; then at most a gigabyte. -/
def looseConditions : List Json :=
  [.arr [.str (lit "content-length-range"), .num 0, .num 1024],
   .arr [.str (lit "eq"), .str (lit "$tagging"), .str (lit "project-a")],
   .arr [.str (lit "content-length-range"), .num 0, .num 1073741824]]

def loosePolicy : Json :=
  .obj [(lit "expiration", .str (lit "2030-01-01T00:00:00Z")),
    (lit "conditions", .arr looseConditions)]

def looseForm : FormValues where
  header := (OrdMap.empty : Header).insert (lit "Tagging") [lit "project-b"]
  canonical := fun n hn => by
    rcases mem_insert.1 hn with rfl | hn
    · decide
    · cases hn

/-- A megabyte under a tag of another project is let through. -/
theorem postPolicy_not_enforced :
    PostAllowed asciiEnv loosePolicy looseForm 1048576 0 ∧
      (ListedCond.field .eq (lit "tagging") (lit "project-a"), true) ∈ listed asciiEnv loosePolicy ∧
      ¬ (ListedCond.field .eq (lit "tagging") (lit "project-a")).Holds looseForm 1048576 ∧
      (ListedCond.range (.num 0) (.num 1024), true) ∈ listed asciiEnv loosePolicy ∧
      ¬ (ListedCond.range (.num 0) (.num 1024)).Holds looseForm 1048576 := by
  have hlisted : listed asciiEnv loosePolicy =
      [(.range (.num 0) (.num 1024), true), (.field .eq (lit "tagging") (lit "project-a"), true),
       (.range (.num 0) (.num 1073741824), true)] := rfl
  refine ⟨⟨_, rfl, rfl, rfl⟩, by simp [hlisted], fun h => ?_, by simp [hlisted], fun h => ?_⟩
  · exact absurd (h.1 (lit "Tagging") [lit "project-b"] rfl rfl) (by decide)
  · have := h.2 1024 rfl
    norm_num at this

end S3Kinetic
