import S3Kinetic.Lib.ByteString

/-!
# `LIMIT` in S3 Select (`s3select/select.go`, `sql/statement.go`)

`Evaluate` reads an input object, expands it by the `FROM` path into records and evaluates those one
after the other. Records that satisfy `WHERE` are queued and sent in batches of a hundred. The limit
is tested before an input object is read, not between the records of one object.
-/

namespace S3Kinetic.SelectLimit

open List

variable {In Rec Out ε : Type}

/-- A statement without aggregation, with the marshalling of its output records. -/
structure Statement (In Rec Out ε : Type) where
  /-- The limit, or `none` for the value -1. -/
  limitValue : Option Nat
  evalFrom : In → Except ε (List Rec)
  isPassingWhereClause : Rec → Except ε Bool
  /-- The output record of an input record. -/
  expression : Rec → Except ε Out
  marshal : Out → Except ε Bytes

def maxRecordSize : Nat := 2 ^ 20

def queueCap : Nat := 100

structure State (Out : Type) where
  outputCount : Nat
  outputQueue : List Out
  sent : List Out

variable (st : Statement In Rec Out ε)

/-! ## Evaluation -/

def LimitReached (s : State Out) : Prop := ∃ n ∈ st.limitValue, n ≤ s.outputCount

instance (s : State Out) : Decidable (LimitReached st s) :=
  match h : st.limitValue with
  | none => isFalse (by simp [LimitReached, h])
  | some n => decidable_of_iff (n ≤ s.outputCount) (by simp [LimitReached, h])

/-- The output record of an input record, if it satisfies `WHERE`. -/
def selects (input : Rec) : Except ε (Option Out) :=
  match st.isPassingWhereClause input with
  | .error err => .error err
  | .ok false => .ok none
  | .ok true => (st.expression input).map some

/-- `Eval`, which counts the records it returns. -/
def eval (s : State Out) (input : Rec) : Except ε (Option Out × State Out) :=
  match selects st input with
  | .error err => .error err
  | .ok none => .ok (none, s)
  | .ok (some output) =>
    .ok (some output, if st.limitValue.isSome then { s with outputCount := s.outputCount + 1 }
      else s)

def Sendable (o : Out) : Prop := ∃ b, st.marshal o = .ok b ∧ b.length ≤ maxRecordSize

instance (o : Out) : Decidable (Sendable st o) :=
  match h : st.marshal o with
  | .error _ => isFalse (by simp [Sendable, h])
  | .ok b => decidable_of_iff (b.length ≤ maxRecordSize) (by simp [Sendable, h])

/-- `sendRecord`: the whole queue, or nothing. -/
def sendRecord (s : State Out) : State Out × Bool :=
  if ∀ o ∈ s.outputQueue, Sendable st o then
    ({ s with sent := s.sent ++ s.outputQueue, outputQueue := [] }, true)
  else (s, false)

/-- A new output record; a full queue is sent. -/
def queueRecord (s : State Out) (output : Out) : State Out × Bool :=
  let s := { s with outputQueue := s.outputQueue ++ [output] }
  if s.outputQueue.length < queueCap then (s, true) else sendRecord st s

/-- The inner loop over the records of one input object, and whether the outer one goes on. -/
def evalRecords : State Out → List Rec → State Out × Bool
  | s, [] => (s, true)
  | s, input :: inputs =>
    match eval st s input with
    | .error _ => (s, false)
    | .ok (none, s) => evalRecords s inputs
    | .ok (some output, s) =>
      match queueRecord st s output with
      | (s, true) => evalRecords s inputs
      | (s, false) => (s, false)

/-- `Evaluate` over what the reader delivers before it ends; `readFails` if not by EOF. -/
def evaluate (readFails : Bool) : State Out → List In → State Out
  | s, [] => if LimitReached st s ∨ ¬ readFails then (sendRecord st s).1 else s
  | s, rec :: recs =>
    if LimitReached st s then (sendRecord st s).1
    else
      match st.evalFrom rec with
      | .error _ => s
      | .ok inputRecords =>
        match evalRecords st s inputRecords with
        | (s, true) => evaluate readFails s recs
        | (s, false) => s

def start : State Out := ⟨0, [], []⟩

/-! ## What is sent -/

def Evaluates (recs : List In) : Prop :=
  ∀ rec ∈ recs, ∃ inputs, st.evalFrom rec = .ok inputs ∧ ∀ input ∈ inputs, ∃ o,
    selects st input = .ok o

def outputsOf (inputs : List Rec) : List Out :=
  inputs.filterMap fun input => (selects st input).toOption.join

/-- The records of one input object that satisfy `WHERE`. -/
def outputs (rec : In) : List Out := outputsOf st ((st.evalFrom rec).toOption.getD [])

def taken : Nat → List (List Out) → List Out
  | _, [] => []
  | n, g :: gs => if n = 0 then [] else g ++ taken (n - g.length) gs

/-- The batches before the first with a record that cannot be sent. -/
def delivered (l : List Out) : List Out :=
  if l.length < queueCap then if ∀ o ∈ l, Sendable st o then l else []
  else if ∀ o ∈ l.take queueCap, Sendable st o then l.take queueCap ++ delivered (l.drop queueCap)
    else []
  termination_by l.length
  decreasing_by
    simp only [length_drop]
    have : queueCap = 100 := rfl
    omega

def NoOvershoot (n : Nat) (gs : List (List Out)) : Prop :=
  ∀ k, (gs.take k).flatten.length < n → (gs.take (k + 1)).flatten.length ≤ n

/-- The limit is met: all evaluated records can be sent and none is beyond the limit, or the batches
before the first record that cannot be sent happen to hold as many as they should. -/
def Meets (n : Nat) (gs : List (List Out)) : Prop :=
  if ∀ o ∈ taken n gs, Sendable st o then NoOvershoot n gs
  else queueCap * ((taken n gs).findIdx (fun o => ¬ Sendable st o) / queueCap) =
    min n gs.flatten.length

/-! ## Batches -/

theorem delivered_full {q : List Out} (hq : q.length = queueCap) (rest : List Out) :
    delivered st (q ++ rest) = if ∀ o ∈ q, Sendable st o then q ++ delivered st rest else [] := by
  rw [delivered, if_neg (by simp [hq]), ← hq, take_left, drop_left]

theorem delivered_of_short {q : List Out} (hq : q.length < queueCap) :
    delivered st q = if ∀ o ∈ q, Sendable st o then q else [] := by
  rw [delivered, if_pos hq]

theorem delivered_starts (l : List Out) : delivered st l <+: l := by
  fun_induction delivered st l with
  | case1 l _ _ => exact prefix_rfl
  | case2 l _ _ => exact nil_prefix
  | case3 l _ _ ih =>
    obtain ⟨t, ht⟩ := ih
    exact ⟨t, by rw [append_assoc, ht, take_append_drop]⟩
  | case4 l _ _ => exact nil_prefix

theorem length_delivered (l : List Out) :
    (delivered st l).length = if ∀ o ∈ l, Sendable st o then l.length
      else queueCap * (l.findIdx (fun o => ¬ Sendable st o) / queueCap) := by
  have hcap : queueCap = 100 := rfl
  have hfind : ∀ {l : List Out}, (¬ ∀ o ∈ l, Sendable st o) → l.findIdx (fun o => ¬ Sendable st o) <
      l.length := by
    intro l h
    push Not at h
    obtain ⟨o, ho, hs⟩ := h
    exact findIdx_lt_length_of_exists ⟨o, ho, by simpa using hs⟩
  fun_induction delivered st l with
  | case1 l hlen hall => rw [if_pos hall]
  | case2 l hlen hall =>
    rw [if_neg hall, Nat.div_eq_of_lt ((hfind hall).trans hlen)]
    rfl
  | case3 l hlen hall ih =>
    have htake : (l.take queueCap).length = queueCap := by
      rw [length_take]
      omega
    have hsplit : (∀ o ∈ l, Sendable st o) ↔ ∀ o ∈ l.drop queueCap, Sendable st o := by
      conv_lhs => rw [← take_append_drop queueCap l]
      simp only [mem_append, or_imp, forall_and]
      exact and_iff_right hall
    have hidx : l.findIdx (fun o => ¬ Sendable st o) =
        (l.drop queueCap).findIdx (fun o => ¬ Sendable st o) + queueCap := by
      conv_lhs => rw [← take_append_drop queueCap l]
      rw [findIdx_append, if_neg, htake]
      intro hlt
      obtain ⟨o, ho, hs⟩ := findIdx_lt_length.1 hlt
      exact (of_decide_eq_true hs) (hall o ho)
    rw [length_append, ih, htake, hidx]
    simp only [hsplit]
    split_ifs
    · rw [length_drop]
      omega
    · rw [Nat.add_div_right _ (by decide), Nat.mul_succ]
      omega
  | case4 l hlen hall =>
    rw [if_neg fun h => hall fun o ho => h o (mem_of_mem_take ho)]
    have hlt := hfind hall
    have hidx : l.findIdx (fun o => ¬ Sendable st o) < queueCap := by
      conv_lhs => rw [← take_append_drop queueCap l]
      rw [findIdx_append, if_pos hlt]
      exact hlt.trans_le (length_take_le _ _)
    rw [Nat.div_eq_of_lt hidx]
    rfl

/-! ## Whole runs -/

theorem outputsOf_cons (input : Rec) (inputs : List Rec) :
    outputsOf st (input :: inputs) = (selects st input).toOption.join.toList ++
      outputsOf st inputs := by
  rw [outputsOf, filterMap_cons]
  cases (selects st input).toOption.join <;> rfl

variable {st} {n : Nat}

/-- The step of a loop from `s`, with the records `os` that it selects: it goes on with room in the
queue, and what is still to come is delivered behind it; or it stops, and nothing more is. -/
def Advances (st : Statement In Rec Out ε) (s : State Out) (os : List Out) : State Out × Bool → Prop
  | (s', true) => s'.outputCount = s.outputCount + os.length ∧ s'.outputQueue.length < queueCap ∧
      ∀ rest, s'.sent ++ delivered st (s'.outputQueue ++ rest) =
        s.sent ++ delivered st (s.outputQueue ++ (os ++ rest))
  | (s', false) => ∀ rest, s'.sent = s.sent ++ delivered st (s.outputQueue ++ (os ++ rest))

theorem Advances.trans {s s' : State Out} {os os' : List Out} {r : State Out × Bool}
    (h : Advances st s os (s', true))
    (h' : Advances st s' os' r) : Advances st s (os ++ os') r := by
  obtain ⟨hcount, -, hsent⟩ := h
  match r with
  | (s'', true) =>
    obtain ⟨hcount', hroom, hsent'⟩ := h'
    refine ⟨by rw [hcount', hcount, length_append, add_assoc], hroom, fun rest => ?_⟩
    rw [hsent', hsent, append_assoc]
  | (s'', false) =>
    intro rest
    rw [h', hsent, append_assoc]

theorem queueRecord_advances {s : State Out} (hq : s.outputQueue.length < queueCap) (o : Out) :
    Advances st s [o] (queueRecord st { s with outputCount := s.outputCount + 1 } o) := by
  unfold queueRecord
  simp only
  split_ifs with hroom
  · exact ⟨rfl, hroom, fun rest => by simp⟩
  · have hfull : (s.outputQueue ++ [o]).length = queueCap := by
      rw [length_append, length_singleton] at hroom ⊢
      omega
    have hdel := delivered_full st hfull
    simp only [append_assoc] at hdel
    unfold sendRecord
    simp only
    split_ifs with hall
    · refine ⟨rfl, Nat.zero_lt_succ 99, fun rest => ?_⟩
      rw [hdel, if_pos hall]
      simp
    · intro rest
      rw [hdel, if_neg hall, append_nil]

theorem evalRecords_advances (hn : st.limitValue = some n) {inputs : List Rec}
    (hev : ∀ input ∈ inputs, ∃ o, selects st input = .ok o) {s : State Out}
    (hq : s.outputQueue.length < queueCap) :
    Advances st s (outputsOf st inputs) (evalRecords st s inputs) := by
  induction inputs generalizing s with
  | nil => exact ⟨rfl, hq, fun rest => rfl⟩
  | cons input inputs ih =>
    obtain ⟨⟨o, ho⟩, hev⟩ := forall_mem_cons.1 hev
    rw [outputsOf_cons, ho]
    cases o with
    | none => simpa [evalRecords, eval, ho, Except.toOption] using ih hev hq
    | some o =>
      have hpush : Advances st s [o] _ := queueRecord_advances hq o
      simp only [evalRecords, eval, ho, hn, Option.isSome_some, if_true]
      rcases hqr : queueRecord st { s with outputCount := s.outputCount + 1 } o with ⟨s', _ | _⟩
      · rw [hqr] at hpush
        intro rest
        have := hpush (outputsOf st inputs ++ rest)
        simpa [Except.toOption] using this
      · rw [hqr] at hpush
        exact hpush.trans (ih hev hpush.2.1)

theorem sent_sendRecord {s : State Out} (hq : s.outputQueue.length < queueCap) :
    (sendRecord st s).1.sent = s.sent ++ delivered st s.outputQueue := by
  rw [delivered_of_short st hq, sendRecord]
  split_ifs <;> simp

theorem evaluate_spec (hn : st.limitValue = some n) {recs : List In} (hev : Evaluates st recs)
    {s : State Out} (hq : s.outputQueue.length < queueCap) :
    (evaluate st false s recs).sent =
      s.sent ++ delivered st (s.outputQueue ++ taken (n - s.outputCount)
        (recs.map (outputs st))) := by
  induction recs generalizing s with
  | nil =>
    rw [evaluate, if_pos (.inr (by simp)), sent_sendRecord hq]
    simp [taken]
  | cons rec recs ih =>
    obtain ⟨⟨inputs, hfrom, hsel⟩, hev⟩ := forall_mem_cons.1 hev
    have hreached : LimitReached st s ↔ n - s.outputCount = 0 := by
      simp only [LimitReached, hn, Option.mem_some_iff, exists_eq_left']
      omega
    rw [evaluate, map_cons, taken]
    simp only [hreached]
    split_ifs with hlimit
    · rw [sent_sendRecord hq, append_nil]
    · have hout : outputs st rec = outputsOf st inputs := by
        rw [outputs, hfrom]
        rfl
      have hadv := evalRecords_advances hn hsel hq
      rw [hfrom, hout]
      rcases hloop : evalRecords st s inputs with ⟨s', _ | _⟩
      · rw [hloop] at hadv
        simp only [hloop]
        exact hadv _
      · rw [hloop] at hadv
        obtain ⟨hcount, hroom, hsent⟩ := hadv
        simp only [hloop]
        rw [ih hev hroom, hsent, hcount, Nat.sub_sub]

theorem taken_starts (n : Nat) (gs : List (List Out)) : taken n gs <+: gs.flatten := by
  induction gs generalizing n with
  | nil => exact prefix_rfl
  | cons g gs ih =>
    rw [taken, flatten_cons]
    split_ifs
    · exact nil_prefix
    · exact (prefix_append_right_inj g).2 (ih _)

theorem length_taken_iff (n : Nat) (gs : List (List Out)) :
    (taken n gs).length = min n gs.flatten.length ↔ NoOvershoot n gs := by
  induction gs generalizing n with
  | nil => simp [taken, NoOvershoot]
  | cons g gs ih =>
    rw [taken]
    split_ifs with h0
    · subst h0
      simp [NoOvershoot]
    · rw [length_append, flatten_cons, length_append]
      by_cases hg : g.length ≤ n
      · have hmin : min n (g.length + gs.flatten.length) =
          g.length + min (n - g.length) gs.flatten.length := by omega
        rw [hmin, Nat.add_left_cancel_iff, ih]
        constructor
        · intro h k hk
          cases k with
          | zero => simpa using hg
          | succ k =>
            have := h k
            simp only [take_succ_cons, flatten_cons, length_append] at hk ⊢
            omega
        · intro h k hk
          have := h (k + 1)
          simp only [take_succ_cons, flatten_cons, length_append] at this
          omega
      · refine ⟨fun h => by omega, fun h => absurd (h 0 (by simpa using Nat.pos_of_ne_zero h0)) ?_⟩
        simpa using hg

theorem limit_iff (st : Statement In Rec Out ε) (n : Nat) (hn : st.limitValue = some n)
    (recs : List In) (hev : Evaluates st recs) :
    (evaluate st false start recs).sent =
        (recs.map (outputs st)).flatten.take (min n (recs.map (outputs st)).flatten.length) ↔
      Meets st n (recs.map (outputs st)) := by
  have hspec := evaluate_spec hn hev (s := start) (Nat.zero_lt_succ 99)
  simp only [start, nil_append, Nat.sub_zero] at hspec
  have hpre := (delivered_starts st (taken n (recs.map (outputs st)))).trans
    (taken_starts n (recs.map (outputs st)))
  rw [start, hspec, Meets, ← length_taken_iff]
  have hlen := length_delivered st (taken n (recs.map (outputs st)))
  constructor
  · intro heq
    have := congrArg List.length heq
    rw [hlen] at this
    split_ifs at this ⊢
    · simpa using this
    · simpa using this
  · intro hmeets
    rw [prefix_iff_eq_take.1 hpre]
    congr 1
    rw [hlen]
    split_ifs at hmeets ⊢
    · exact hmeets
    · exact hmeets

/-! ## Small statements -/

/-- The elements of a JSON array: a number, or an object with numbers under its keys. -/
inductive Element
  | number (n : Nat)
  | kvs (fields : List (String × Nat))
  deriving DecidableEq

/-- `Record.Replace`, which takes objects only. -/
def Element.replace : Element → Except String (List (String × Nat))
  | number _ => .error "cannot replace internal data in json record"
  | kvs fields => .ok fields

/-- `SELECT * FROM s3object[*].a[*] LIMIT n` for input objects with an array under `a`. -/
def arrayStatement (n : Nat) :
    Statement (List Element) (List (String × Nat)) (List (String × Nat)) String where
  limitValue := some n
  evalFrom := mapM Element.replace
  isPassingWhereClause _ := .ok true
  expression := .ok
  marshal _ := .ok []

/-- The array of the objects that hold the given numbers under `x`. -/
def objects (xs : List Nat) : List Element := xs.map fun x => .kvs [("x", x)]

theorem mapM_replace_objects (xs : List Nat) :
    (objects xs).mapM Element.replace = .ok (xs.map fun x => [("x", x)]) := by
  induction xs with
  | nil => rfl
  | cons x xs ih =>
    rw [objects] at ih ⊢
    rw [map_cons, mapM_cons, ih]
    rfl

theorem arrayStatement_evaluates (n : Nat) (arrays : List (List Nat)) :
    Evaluates (arrayStatement n) (arrays.map objects) := by
  intro rec hrec
  obtain ⟨xs, -, rfl⟩ := mem_map.1 hrec
  exact ⟨_, mapM_replace_objects xs, fun input _ => ⟨some input, rfl⟩⟩

/-- A number in the array makes `EvalFrom` fail, and nothing is sent. -/
example : (evaluate (arrayStatement 1) false start [[.number 1, .number 2]]).sent = [] := by
  decide +kernel

theorem limit_twoObjects :
    Evaluates (arrayStatement 1) [objects [1], objects [2]] ∧
      (evaluate (arrayStatement 1) false start [objects [1], objects [2]]).sent = [[("x", 1)]] := by
  have hev := arrayStatement_evaluates 1 [[1], [2]]
  refine ⟨hev, (limit_iff (arrayStatement 1) 1 rfl _ hev).2 ?_⟩
  refine (if_pos (by decide +kernel)).mpr fun k hk => ?_
  cases k with
  | zero => decide +kernel
  | succ k =>
    have hlen : ((([[1], [2]].map objects).map (outputs (arrayStatement 1))).take
      (k + 1)).flatten.length < 1 := hk
    have hfirst : outputs (arrayStatement 1) (objects [1]) = [[("x", 1)]] := by decide +kernel
    simp [hfirst] at hlen

/-- The two records of one object are sent with a limit of one. -/
theorem limit_exceeded :
    Evaluates (arrayStatement 1) [objects [1, 2]] ∧
      (evaluate (arrayStatement 1) false start [objects [1, 2]]).sent = [[("x", 1)], [("x", 2)]] ∧
      ([objects [1, 2]].map (outputs (arrayStatement 1))).flatten.take (min 1 2) = [[("x", 1)]] :=
  ⟨arrayStatement_evaluates 1 [[1, 2]], by decide +kernel, by decide +kernel⟩

end S3Kinetic.SelectLimit
