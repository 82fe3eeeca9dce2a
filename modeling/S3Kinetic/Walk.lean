import S3Kinetic.Pagination

/-!
# What `Walk` sends

The private `listObjects` behind `Walk` asks for the keys after `bucket/prefix` in windows of 800,
up to `bucket0` in the first window and without an end in the later ones, and looks at every string
that comes out of a query. A string whose slice at the place of the prefix is the prefix is taken
for a key of the bucket.

`walked` is the list of these strings, window after window, and `walkKeys` what they add up to: the
keys up to `bucket0` if they fit in one window, and all keys of the drive behind `bucket/prefix` if
not. The walk is right exactly if it gets past these keys to every visible object and no key of
another bucket is taken for one (`walkLaw_iff`).
-/

namespace S3Kinetic

open ByteString List

section Definitions

variable (K : Kineticd) (s : Store) (b p : Bytes)

/-- A run of the walker with a receiver that is always ready: what it sends, and whether it returns
or panics. -/
inductive Walks : Walker → List ObjectInfo → Bool → Prop
  | closed : Walks .closed [] true
  | crashed : Walks .crashed [] false
  | send {objInfo : ObjectInfo} {keys : List Bytes} {full : Bool} {lastKey : Bytes}
      {sent : List ObjectInfo} {r : Bool} (h : Walks (.scan keys full lastKey) sent r) :
      Walks (.send objInfo keys full lastKey) (objInfo :: sent) r
  | fetch {startKey endKey : Bytes} {sent : List ObjectInfo} {r : Bool}
      (h : Walks ((Walker.fetch startKey endKey).step K s b p []) sent r) :
      Walks (.fetch startKey endKey) sent r
  | scan {keys : List Bytes} {full : Bool} {lastKey : Bytes} {sent : List ObjectInfo} {r : Bool}
      (h : Walks ((Walker.scan keys full lastKey).step K s b p []) sent r) :
      Walks (.scan keys full lastKey) sent r

/-- `listObjects(b, p, "")` returns, and has sent every visible object under the prefix once and
nothing else. -/
def WalkLaw : Prop :=
  ∃ sent, Walks K s b p (.fetch (makeKey b p) (b ++ lit "0")) sent true ∧
    sent.Perm ((s.keysWhere fun k => hasPrefix k (makeKey b p)).filterMap (keyInfo s b))

def visibleInfo (o : Bytes) : Option ObjectInfo := keyInfo s b (makeKey b o)

def Visible (o : Bytes) : Prop := (visibleInfo s b o).isSome = true

instance instDecidableVisible (o : Bytes) : Decidable (Visible s b o) :=
  inferInstanceAs (Decidable (_ = true))

inductive Fate where
  | pass
  | name (o : Bytes)
  | stop
  | crash
  deriving DecidableEq

/-- A string that is too short for a slice, or that names metadata over 64 KiB, is a panic. One that
names no metadata ends the walk without a word. -/
def fate (w : Bytes) : Fate :=
  if K.byteCap w.length < b.length + 1 + p.length then .crash
  else if p ≠ prefixSlice b p w then .pass
  else if w.length < b.length + 1 then .crash
  else
    match s.get? (makeKey b (w.drop (b.length + 1))) with
    | some ⟨.json m, _⟩ =>
      if (K.marshal m).length ≤ maxMetaBytes then .name (w.drop (b.length + 1)) else .crash
    | _ => .stop

def ends (w : Bytes) : Bool := fate K s b p w = .stop ∨ fate K s b p w = .crash

/-- The strings in front of the first one that ends the walk. -/
def front (strings : List Bytes) : List Bytes := strings.takeWhile fun w => !ends K s b p w

/-- The strings of the first `n` windows, and whether the last of them was not full. -/
def walked : Nat → Bytes → Bytes → List Bytes × Bool
  | 0, _, _ => ([], false)
  | n + 1, startKey, endKey =>
    let keys := cGetKeyRange K s startKey endKey false true walkKeyRange
    if walkKeyRange ≤ keys.length then
      let rest := walked n (keys.getLast?.getD startKey) []
      (keys ++ rest.1, rest.2)
    else (keys, true)

/-- The keys that the first query asks for. -/
def walkRange : List Bytes := s.keysWhere fun k => makeKey b p < k && k ≤ b ++ lit "0"

/-- The keys that all queries together hand out. Behind a full window the end key is empty, which
the drive takes for no end or for an empty range. -/
def walkKeys : List Bytes :=
  if (walkRange s b p).length < walkKeyRange then walkRange s b p
  else if K.emptyEndOpen then s.keysWhere fun k => makeKey b p < k
  else (walkRange s b p).take walkKeyRange

/-- The keys of the drive let the walk do what it should: the first that ends it does not panic;
the visible objects under the prefix come before, and no other key that comes before is taken for
one of them. The name that is the prefix is not asked for, so a key of another bucket would have to
stand for it. -/
structure Walkable : Prop where
  returns : ∀ k, (walkKeys K s b p).find? (ends K s b p) = some k → fate K s b p k = .stop
  reaches : ∀ o, Visible s b o → p <+: o → o ≠ p →
    makeKey b o ∈ front K s b p (walkKeys K s b p)
  own : ∀ o, Visible s b o → o ≠ p → ∀ k ∈ front K s b p (walkKeys K s b p),
    fate K s b p k = .name o → k = makeKey b o
  prefixName : Visible s b p →
    ∃! k, k ∈ front K s b p (walkKeys K s b p) ∧ fate K s b p k = .name p

end Definitions

variable {K : Kineticd} {s : Store} {b p : Bytes}

/-! ## One string -/

theorem walkKey_eq (hb : b ≠ []) (w : Bytes) :
    match fate K s b p w with
    | .pass => walkKey K s b p [] w = .ok none
    | .name o => walkKey K s b p [] w = .ok (visibleInfo s b o)
    | .stop => ∃ e, e ≠ .panic ∧ walkKey K s b p [] w = .error e
    | .crash => walkKey K s b p [] w = .error .panic := by
  unfold fate walkKey
  by_cases hcap : K.byteCap w.length < b.length + 1 + p.length
  · simp [hcap]
  by_cases hslice : p ≠ prefixSlice b p w
  · simp [hcap, hslice]
  by_cases hshort : w.length < b.length + 1
  · simp [hcap, hslice, hshort]
  simp only [hcap, hslice, hshort, if_false]
  rw [getObjectInfo_makeKey hb]
  have hslash : ([] : Bytes) ≠ [slash] := by simp
  cases hget : s.get? (makeKey b (w.drop (b.length + 1))) with
  | none => exact ⟨_, by decide, rfl⟩
  | some r =>
    obtain ⟨_ | _, v⟩ := r
    · next m =>
      by_cases hlen : (K.marshal m).length ≤ maxMetaBytes
      · have hhidden : (m.toObjectInfo b (w.drop (b.length + 1))).hidden = m.hidden := rfl
        simp only [unmarshalMeta, hlen, if_true, visibleInfo, keyInfo, hget, makeKey_drop, hhidden]
        cases m.hidden <;> simp
      · simp [unmarshalMeta, hlen]
    · exact ⟨.errUnmarshal, by decide, rfl⟩

/-! ## The run -/

/-- The strings ahead of a walker in a window, with the next `n` windows. -/
def aheadOf (K : Kineticd) (s : Store) (n : Nat) (keys : List Bytes) (full : Bool)
    (lastKey : Bytes) : List Bytes × Bool :=
  if full then
    let rest := walked K s n (keys.getLast?.getD lastKey) []
    (keys ++ rest.1, rest.2)
  else (keys, true)

theorem walked_succ (n : Nat) (startKey endKey : Bytes) : walked K s (n + 1) startKey endKey =
    aheadOf K s n (cGetKeyRange K s startKey endKey false true walkKeyRange)
      (walkKeyRange ≤ (cGetKeyRange K s startKey endKey false true walkKeyRange).length)
      startKey := by
  simp only [walked, aheadOf, decide_eq_true_eq]

theorem aheadOf_cons (n : Nat) (w : Bytes) (ws : List Bytes) (full : Bool) (lastKey : Bytes) :
    aheadOf K s n (w :: ws) full lastKey =
      (w :: (aheadOf K s n ws full w).1, (aheadOf K s n ws full w).2) := by
  unfold aheadOf
  cases full with
  | false => rfl
  | true =>
    have hlast : (w :: ws).getLast?.getD lastKey = ws.getLast?.getD w := by
      rw [List.getLast?_cons, Option.getD_some]
    simp only [if_true, hlast, cons_append]

/-- The move of a walker at a string. -/
theorem step_scan_cons (hb : b ≠ []) (w : Bytes) (ws : List Bytes) (full : Bool) (lastKey : Bytes) :
    (Walker.scan (w :: ws) full lastKey).step K s b p [] =
      match fate K s b p w with
      | .pass => .scan ws full w
      | .name o =>
        match visibleInfo s b o with
        | none => .scan ws full w
        | some objInfo => .send objInfo ws full w
      | .stop => .closed
      | .crash => .crashed := by
  have hkey := walkKey_eq (K := K) (s := s) (p := p) hb w
  rw [Walker.step]
  cases hfate : fate K s b p w with
  | pass =>
    rw [hfate] at hkey
    simp only [hkey]
  | name o =>
    rw [hfate] at hkey
    simp only [hkey]
    cases visibleInfo s b o <;> rfl
  | stop =>
    rw [hfate] at hkey
    obtain ⟨e, he, hkey⟩ := hkey
    simp only [hkey]
  | crash =>
    rw [hfate] at hkey
    simp only [hkey]

variable {sent sent' : List ObjectInfo} {r r' : Bool}

theorem Walks.unique {w : Walker} (h : Walks K s b p w sent r) (h' : Walks K s b p w sent' r') :
    sent = sent' ∧ r = r' := by
  induction h generalizing sent' r' with
  | closed =>
    cases h'
    exact ⟨rfl, rfl⟩
  | crashed =>
    cases h'
    exact ⟨rfl, rfl⟩
  | send _ ih =>
    cases h' with
    | send h' =>
      obtain ⟨rfl, rfl⟩ := ih h'
      exact ⟨rfl, rfl⟩
  | fetch _ ih =>
    cases h' with
    | fetch h' => exact ih h'
  | scan _ ih =>
    cases h' with
    | scan h' => exact ih h'

/-- The names that some strings give. -/
def names (K : Kineticd) (s : Store) (b p : Bytes) (strings : List Bytes) : List Bytes :=
  strings.filterMap fun w =>
    match fate K s b p w with
    | .name o => some o
    | _ => none

/-- What the walk over some strings sends, and whether it then returns. -/
def outcome (K : Kineticd) (s : Store) (b p : Bytes) (strings : List Bytes) :
    List ObjectInfo × Bool :=
  ((names K s b p (front K s b p strings)).filterMap (visibleInfo s b),
    (strings.find? (ends K s b p)).all fun w => fate K s b p w = .stop)

theorem outcome_cons (w : Bytes) (ws : List Bytes) : outcome K s b p (w :: ws) =
    match fate K s b p w with
    | .pass => outcome K s b p ws
    | .name o => ((visibleInfo s b o).toList ++ (outcome K s b p ws).1, (outcome K s b p ws).2)
    | .stop => ([], true)
    | .crash => ([], false) := by
  unfold outcome front names
  cases hfate : fate K s b p w with
  | pass => simp [ends, hfate]
  | name o => cases hinfo : visibleInfo s b o <;> simp [ends, hfate, hinfo]
  | stop => simp [ends, hfate]
  | crash => simp [ends, hfate]

theorem walks_scan (hb : b ≠ []) {n : Nat} {strings : List Bytes}
    (hfetch : ∀ startKey endKey strings, walked K s n startKey endKey = (strings, true) →
      Walks K s b p (.fetch startKey endKey) (outcome K s b p strings).1
        (outcome K s b p strings).2)
    {keys : List Bytes} {full : Bool} {lastKey : Bytes}
    (h : aheadOf K s n keys full lastKey = (strings, true)) :
    Walks K s b p (.scan keys full lastKey) (outcome K s b p strings).1
      (outcome K s b p strings).2 := by
  induction keys generalizing lastKey strings with
  | nil =>
    refine .scan ?_
    rw [Walker.step]
    cases full with
    | true => exact hfetch lastKey [] strings h
    | false =>
      cases h
      exact .closed
  | cons w ws ih =>
    rw [aheadOf_cons, Prod.mk.injEq] at h
    obtain ⟨rfl, hlast⟩ := h
    have hrest := ih (Prod.ext rfl hlast)
    refine .scan ?_
    rw [step_scan_cons hb, outcome_cons]
    cases fate K s b p w with
    | pass => exact hrest
    | name o =>
      dsimp only
      cases visibleInfo s b o with
      | none => exact hrest
      | some i => exact .send hrest
    | stop => exact .closed
    | crash => exact .crashed

theorem walks_fetch (hb : b ≠ []) {n : Nat} (startKey endKey : Bytes) (strings : List Bytes)
    (h : walked K s n startKey endKey = (strings, true)) :
    Walks K s b p (.fetch startKey endKey) (outcome K s b p strings).1
      (outcome K s b p strings).2 := by
  induction n generalizing startKey endKey strings with
  | zero => cases h
  | succ n ih =>
    rw [walked_succ] at h
    exact .fetch (walks_scan hb ih h)

/-! ## Names -/

variable {o : Bytes}

theorem name_of_visibleInfo {i : ObjectInfo} (h : visibleInfo s b o = some i) : i.name = o :=
  name_of_keyInfo h

theorem map_name_filterMap (names : List Bytes) :
    (names.filterMap (visibleInfo s b)).map ObjectInfo.name = names.filter fun o =>
      (visibleInfo s b o).isSome := by
  induction names with
  | nil => rfl
  | cons o names ih =>
    cases hinfo : visibleInfo s b o with
    | none => simp [hinfo, ih]
    | some i => simp [hinfo, ih, name_of_visibleInfo hinfo]

theorem perm_filterMap_iff (names names' : List Bytes) :
    (names.filterMap (visibleInfo s b)).Perm (names'.filterMap (visibleInfo s b)) ↔
      ∀ o, Visible s b o → names.count o = names'.count o := by
  have hdrop (names : List Bytes) :
      (names.filter fun o => (visibleInfo s b o).isSome).filterMap (visibleInfo s b) =
          names.filterMap (visibleInfo s b) := by
    rw [filterMap_filter]
    refine filterMap_congr fun o _ => ?_
    cases visibleInfo s b o <;> simp
  constructor
  · intro h o ho
    unfold Visible at ho
    have hmap := h.map ObjectInfo.name
    rw [map_name_filterMap, map_name_filterMap] at hmap
    have hcount := hmap.count_eq o
    rwa [count_filter (by simpa using ho), count_filter (by simpa using ho)] at hcount
  · intro h
    rw [← hdrop names, ← hdrop names']
    refine List.Perm.filterMap _ (perm_iff_count.2 fun o => ?_)
    by_cases ho : (visibleInfo s b o).isSome = true
    · rw [count_filter (by simpa using ho), count_filter (by simpa using ho), h o ho]
    · rw [count_eq_zero.2, count_eq_zero.2] <;> simp [mem_filter, ho]

def namesUnder (s : Store) (b p : Bytes) : List Bytes :=
  (s.keysWhere fun k => hasPrefix k (makeKey b p)).map (·.drop (b.length + 1))

theorem hasPrefix_makeKey_iff {k : Bytes} : hasPrefix k (makeKey b p) = true ↔
    ∃ o, k = makeKey b o ∧ p <+: o := by
  rw [hasPrefix, isPrefixOf_iff_prefix]
  constructor
  · rintro ⟨t, rfl⟩
    exact ⟨p ++ t, by simp [makeKey], prefix_append _ _⟩
  · rintro ⟨o, rfl, t, rfl⟩
    exact ⟨t, by simp [makeKey]⟩

theorem filterMap_namesUnder (s : Store) (b p : Bytes) :
    (namesUnder s b p).filterMap (visibleInfo s b) =
      (s.keysWhere fun k => hasPrefix k (makeKey b p)).filterMap (keyInfo s b) := by
  rw [namesUnder, filterMap_map]
  refine filterMap_congr fun k hk => ?_
  obtain ⟨o, rfl, -⟩ := hasPrefix_makeKey_iff.1 (OrdMap.mem_keysWhere.1 hk).2
  rw [Function.comp_apply, visibleInfo, makeKey_drop]

theorem mem_of_visible (h : Visible s b o) : makeKey b o ∈ s := by
  by_contra hnot
  simp [Visible, visibleInfo, keyInfo, (OrdMap.not_mem_iff s).1 hnot] at h

theorem count_namesUnder (h : Visible s b o) :
    (namesUnder s b p).count o = if p <+: o then 1 else 0 := by
  have hmem : o ∈ namesUnder s b p ↔ p <+: o := by
    rw [namesUnder, mem_map]
    constructor
    · rintro ⟨k, hk, rfl⟩
      obtain ⟨o, rfl, ho⟩ := hasPrefix_makeKey_iff.1 (OrdMap.mem_keysWhere.1 hk).2
      rwa [makeKey_drop]
    · intro ho
      exact ⟨makeKey b o, OrdMap.mem_keysWhere.2 ⟨mem_of_visible h,
        hasPrefix_makeKey_iff.2 ⟨o, rfl, ho⟩⟩, makeKey_drop b o⟩
  have hnodup : (namesUnder s b p).Nodup := by
    refine List.Nodup.map_on (fun k hk k' hk' heq => ?_) (OrdMap.keysWhere_sorted.imp ne_of_lt)
    obtain ⟨o, rfl, -⟩ := hasPrefix_makeKey_iff.1 (OrdMap.mem_keysWhere.1 hk).2
    obtain ⟨o', rfl, -⟩ := hasPrefix_makeKey_iff.1 (OrdMap.mem_keysWhere.1 hk').2
    rw [makeKey_drop, makeKey_drop] at heq
    rw [heq]
  by_cases ho : p <+: o
  · rw [if_pos ho, count_eq_one_of_mem hnodup (hmem.2 ho)]
  · rw [if_neg ho, count_eq_zero.2 (mt hmem.1 ho)]

theorem count_names (strings : List Bytes) (o : Bytes) :
    (names K s b p strings).count o = strings.countP fun w => fate K s b p w = .name o := by
  rw [names, count_filterMap]
  refine countP_congr fun w _ => ?_
  cases fate K s b p w <;> simp

theorem walkLaw_iff_count (hb : b ≠ []) {n : Nat} {strings : List Bytes}
    (h : walked K s n (makeKey b p) (b ++ lit "0") = (strings, true)) : WalkLaw K s b p ↔
      (∀ k, strings.find? (ends K s b p) = some k → fate K s b p k = .stop) ∧
        ∀ o, Visible s b o →
          ((front K s b p strings).countP fun w => fate K s b p w = .name o) =
            if p <+: o then 1 else 0 := by
  have hwalks := walks_fetch (p := p) hb _ _ _ h
  have hreturns : (outcome K s b p strings).2 = true ↔
      ∀ k, strings.find? (ends K s b p) = some k → fate K s b p k = .stop := by
    rw [outcome, Option.all_eq_true]
    simp only [decide_eq_true_eq]
  have hperm : (outcome K s b p strings).1.Perm
      ((s.keysWhere fun k => hasPrefix k (makeKey b p)).filterMap (keyInfo s b)) ↔
        ∀ o, Visible s b o → ((front K s b p strings).countP fun w => fate K s b p w = .name o) =
          if p <+: o then 1 else 0 := by
    rw [outcome, ← filterMap_namesUnder, perm_filterMap_iff]
    exact forall_congr' fun o => imp_congr_right fun ho => by
      rw [count_names, count_namesUnder ho]
  rw [← hreturns, ← hperm]
  constructor
  · rintro ⟨sent, hlaw, hsent⟩
    obtain ⟨rfl, hr⟩ := hlaw.unique hwalks
    exact ⟨hr.symm, hsent⟩
  · rintro ⟨hr, hsent⟩
    exact ⟨_, hr ▸ hwalks, hsent⟩

/-! ## The windows -/

section Windows

variable {startKey endKey : Bytes}

theorem window_eq
    (h : ∀ k ∈ getKeyRange K s startKey endKey false true walkKeyRange, colon ∉ k) :
    cGetKeyRange K s startKey endKey false true walkKeyRange =
      getKeyRange K s startKey endKey false true walkKeyRange := by
  refine cGetKeyRange_eq fun k hk => ⟨h k hk, ?_⟩
  rintro rfl
  have hlt := (OrdMap.mem_keysWhere.1 (mem_of_mem_take hk)).2
  simp [inRange] at hlt

theorem window_open (hopen : K.emptyEndOpen = true) (hcolon : ∀ k ∈ s, startKey < k → colon ∉ k) :
    cGetKeyRange K s startKey [] false true walkKeyRange =
      (s.keysWhere fun k => startKey < k).take walkKeyRange := by
  have hget : getKeyRange K s startKey [] false true walkKeyRange =
      (s.keysWhere fun k => startKey < k).take walkKeyRange := by
    rw [getKeyRange]
    congr 1
    exact OrdMap.keysWhere_congr fun k _ => by simp [inRange, hopen]
  rw [window_eq, hget]
  intro k hk
  obtain ⟨hk, hlt⟩ := OrdMap.mem_keysWhere.1 (mem_of_mem_take (hget ▸ hk))
  exact hcolon k hk (by simpa using hlt)

/-- Windows without an end get all keys, if there are enough windows. -/
theorem walked_open (hopen : K.emptyEndOpen = true) {n : Nat}
    (hn : (s.keysWhere fun k => startKey < k).length < n)
    (hcolon : ∀ k ∈ s, startKey < k → colon ∉ k) :
    walked K s n startKey [] = (s.keysWhere fun k => startKey < k, true) := by
  induction n generalizing startKey with
  | zero => cases hn
  | succ n ih =>
    rw [walked, window_open hopen hcolon]
    by_cases hfull : walkKeyRange ≤ (s.keysWhere fun k => startKey < k).length
    · have hlen : ((s.keysWhere fun k => startKey < k).take walkKeyRange).length = walkKeyRange :=
        length_take_of_le hfull
      obtain ⟨k, hk⟩ : ∃ k, ((s.keysWhere fun k => startKey < k).take walkKeyRange).getLast? =
          some k := by
        rw [← Option.isSome_iff_exists, getLast?_isSome, ← length_pos_iff, hlen]
        decide
      have hlt : startKey < k := by
        simpa using (OrdMap.mem_keysWhere.1 (mem_of_mem_take (mem_of_getLast? hk))).2
      -- the next window starts where this one stopped
      have hnext : (s.keysWhere fun k' => k < k') =
          (s.keysWhere fun k => startKey < k).drop walkKeyRange := by
        rw [← OrdMap.filter_lt_eq_drop OrdMap.keysWhere_sorted hk, OrdMap.keysWhere,
          OrdMap.keysWhere, filter_filter]
        refine filter_congr fun k' _ => ?_
        by_cases h : k < k' <;> simp [h, hlt.trans]
      have hless : (s.keysWhere fun k' => k < k').length < n := by
        rw [hnext, length_drop]
        simp only [walkKeyRange] at hfull ⊢
        omega
      have hrest := ih hless fun k' hk' h => hcolon k' hk' (hlt.trans h)
      simp only [hlen, le_refl, if_true, hk, Option.getD_some, hrest]
      rw [hnext, take_append_drop]
    · rw [if_neg (by rw [length_take]; omega), take_of_length_le (by omega)]

theorem walked_closed (hclosed : K.emptyEndOpen = false) (n : Nat) :
    walked K s (n + 1) startKey [] = ([], true) := by
  have hget : getKeyRange K s startKey [] false true walkKeyRange = [] := by
    rw [getKeyRange, OrdMap.keysWhere, filter_eq_nil_iff.2, take_nil]
    intro k _ h
    simp only [inRange, hclosed, Bool.false_eq_true, and_false, if_false, if_true,
      Bool.and_eq_true, decide_eq_true_eq] at h
    exact (h.1.trans_le h.2).not_ge (prefix_le nil_prefix)
  rw [walked, window_eq (by simp [hget]), hget]
  rfl

theorem take_walkRange_subset : (walkRange s b p).take walkKeyRange ⊆ walkKeys K s b p := by
  intro k hk
  unfold walkKeys
  split
  · exact mem_of_mem_take hk
  · split
    · obtain ⟨hk, hr⟩ := OrdMap.mem_keysWhere.1 (mem_of_mem_take hk)
      exact OrdMap.mem_keysWhere.2 ⟨hk, (Bool.and_eq_true_iff.1 hr).1⟩
    · exact hk

theorem window_first (hb : b ≠ []) (hcolon : ∀ k ∈ walkKeys K s b p, colon ∉ k) :
    cGetKeyRange K s (makeKey b p) (b ++ lit "0") false true walkKeyRange =
      (walkRange s b p).take walkKeyRange := by
  have hget : getKeyRange K s (makeKey b p) (b ++ lit "0") false true walkKeyRange =
      (walkRange s b p).take walkKeyRange := by
    rw [getKeyRange, walkRange]
    congr 1
    exact OrdMap.keysWhere_congr fun k _ => by simp [inRange, hb]
  rw [window_eq, hget]
  exact fun k hk => hcolon k (take_walkRange_subset (hget ▸ hk))

theorem keysWhere_lt_eq : (s.keysWhere fun k => makeKey b p < k) =
    walkRange s b p ++ s.keysWhere fun k => makeKey b p < k && b ++ lit "0" < k := by
  refine OrdMap.eq_of_sorted_of_mem_iff OrdMap.keysWhere_sorted (pairwise_append.2
    ⟨OrdMap.keysWhere_sorted, OrdMap.keysWhere_sorted, fun x hx y hy => ?_⟩) fun k => ?_
  · have hx' := (OrdMap.mem_keysWhere.1 hx).2
    have hy' := (OrdMap.mem_keysWhere.1 hy).2
    simp only [Bool.and_eq_true, decide_eq_true_eq] at hx' hy'
    exact hx'.2.trans_lt hy'.2
  · rw [mem_append, walkRange, OrdMap.mem_keysWhere, OrdMap.mem_keysWhere, OrdMap.mem_keysWhere]
    have := le_or_gt k (b ++ lit "0")
    simp only [Bool.and_eq_true, decide_eq_true_eq]
    tauto

theorem walked_eq (hb : b ≠ []) (hcolon : ∀ k ∈ walkKeys K s b p, colon ∉ k) :
    ∃ n, walked K s n (makeKey b p) (b ++ lit "0") = (walkKeys K s b p, true) := by
  have hwindow := window_first hb hcolon
  unfold walkKeys
  by_cases hfew : (walkRange s b p).length < walkKeyRange
  · refine ⟨1, ?_⟩
    rw [walked, hwindow, if_neg (by rw [length_take]; omega),
      take_of_length_le hfew.le, if_pos hfew]
  rw [if_neg hfew]
  cases hopen : K.emptyEndOpen with
  | false =>
    refine ⟨2, ?_⟩
    rw [walked, hwindow, if_pos (by rw [length_take]; omega), walked_closed hopen]
    simp
  | true =>
    have hall : ∀ k ∈ s, makeKey b p < k → colon ∉ k := by
      intro k hk hlt
      refine hcolon k ?_
      rw [walkKeys, if_neg hfew, if_pos hopen]
      exact OrdMap.mem_keysWhere.2 ⟨hk, by simpa using hlt⟩
    -- the first window is the same as if it had no end
    have hsame : cGetKeyRange K s (makeKey b p) (b ++ lit "0") false true walkKeyRange =
        cGetKeyRange K s (makeKey b p) [] false true walkKeyRange := by
      rw [hwindow, window_open hopen hall, keysWhere_lt_eq,
        take_append_of_le_length (not_lt.1 hfew)]
    refine ⟨(s.keysWhere fun k => makeKey b p < k).length + 1, ?_⟩
    rw [walked, hsame, ← walked, walked_open hopen (Nat.lt_succ_self _) hall]
    rfl

end Windows

/-! ## The keys -/

theorem walkKeys_sorted : (walkKeys K s b p).Pairwise (· < ·) := by
  unfold walkKeys
  split
  · exact OrdMap.keysWhere_sorted
  · split
    · exact OrdMap.keysWhere_sorted
    · exact OrdMap.keysWhere_sorted.sublist (take_sublist _ _)

theorem fate_eq_name {w : Bytes} (hp : CString p) (h : fate K s b p w = .name o) :
    b.length + 1 ≤ w.length ∧ o = w.drop (b.length + 1) ∧ p <+: o := by
  unfold fate at h
  by_cases hcap : K.byteCap w.length < b.length + 1 + p.length
  · simp [hcap] at h
  by_cases hslice : p ≠ prefixSlice b p w
  · simp [hcap, hslice] at h
  by_cases hshort : w.length < b.length + 1
  · simp [hcap, hslice, hshort] at h
  simp only [hcap, hslice, hshort, if_false] at h
  have ho : o = w.drop (b.length + 1) := by
    rcases hget : s.get? (makeKey b (w.drop (b.length + 1))) with _ | ⟨m | bi, v⟩ <;>
      simp only [hget, reduceCtorEq] at h
    split at h
    · exact (Fate.name.inj h).symm
    · cases h
  refine ⟨not_lt.1 hshort, ho, ?_⟩
  rw [not_not, prefixSlice, drop_append_of_le_length (not_lt.1 hshort), ← ho] at hslice
  have hpre : p <+: o ++ replicate (b.length + 1 + p.length) 0 := prefix_iff_eq_take.2 hslice
  rcases prefix_or_prefix_of_prefix hpre (prefix_append o _) with hpo | ⟨t, rfl⟩
  · exact hpo
  -- the slice does not reach into the zeros behind the string
  · rw [prefix_append_right_inj] at hpre
    cases t with
    | nil => simp
    | cons c t =>
      have hc : c = 0 := eq_of_mem_replicate (hpre.subset mem_cons_self)
      exact absurd (by simp [hc]) hp

theorem Visible.get? (h : Visible s b o) : ∃ m v, s.get? (makeKey b o) = some ⟨.json m, v⟩ := by
  unfold Visible visibleInfo keyInfo at h
  rcases hget : s.get? (makeKey b o) with _ | ⟨m | bi, v⟩
  · simp [hget] at h
  · exact ⟨m, v, rfl⟩
  · simp [hget] at h

theorem fate_makeKey (ho : Visible s b o) (hpo : p <+: o)
    (hends : ends K s b p (makeKey b o) = false) : fate K s b p (makeKey b o) = .name o := by
  have hlen : (makeKey b o).length = b.length + 1 + o.length := by simp [makeKey]; omega
  have hcap := K.le_byteCap (makeKey b o).length
  have hle := hpo.length_le
  have hslice : prefixSlice b p (makeKey b o) = p := by
    rw [prefixSlice, drop_append_of_le_length (by omega), makeKey_drop,
      take_append_of_le_length hle, ← prefix_iff_eq_take.1 hpo]
  obtain ⟨m, v, hget⟩ := ho.get?
  rw [ends, decide_eq_false_iff_not, not_or] at hends
  have hfate : fate K s b p (makeKey b o) =
      if (K.marshal m).length ≤ maxMetaBytes then .name o else .crash := by
    rw [fate, if_neg (by omega), hslice, if_neg (not_not.2 rfl), if_neg (by omega), makeKey_drop,
      hget]
  by_cases hm : (K.marshal m).length ≤ maxMetaBytes
  · rw [hfate, if_pos hm]
  · rw [if_neg hm] at hfate
    exact absurd hfate hends.2

/-- A key that is taken for an object comes behind the object's own key, which the walk gets too. -/
theorem own_key_le {k : Bytes} (hp : CString p) (hk : k ∈ walkKeys K s b p)
    (hname : fate K s b p k = .name o) (ho : Visible s b o) (hne : o ≠ p) :
    makeKey b o ∈ walkKeys K s b p ∧ makeKey b o ≤ k := by
  obtain ⟨hlen, hdrop, hpo⟩ := fate_eq_name hp hname
  have hzero : lit "0" = [slash + 1] := by decide
  by_cases hpre : b ++ [slash] <+: k
  · obtain ⟨t, rfl⟩ := hpre
    obtain rfl : o = t := by simpa using hdrop
    rw [append_assoc] at hk ⊢
    exact ⟨hk, le_rfl⟩
  -- the key of another bucket is behind all keys of this one
  have hbehind (h : makeKey b p < k) : b ++ lit "0" ≤ k := by
    have hle : b ++ [slash] ≤ makeKey b p := prefix_le ⟨p, by simp [makeKey]⟩
    rw [snoc_prefix_iff (covBy_add_one (by decide)) b k, not_and, not_lt, ← hzero] at hpre
    exact hpre (hle.trans h.le)
  have hlast (h : k ∈ walkRange s b p) : False := by
    have hr := (OrdMap.mem_keysWhere.1 h).2
    simp only [Bool.and_eq_true, decide_eq_true_eq] at hr
    obtain rfl := le_antisymm hr.2 (hbehind hr.1)
    have hnil : o = [] := by simpa [hzero] using hdrop
    exact hne (hnil.trans (prefix_nil.1 (hnil ▸ hpo)).symm)
  unfold walkKeys at hk ⊢
  split at hk
  · exact (hlast hk).elim
  split at hk
  · next hfew hopen =>
    have hlt := (OrdMap.mem_keysWhere.1 hk).2
    rw [decide_eq_true_eq] at hlt
    have hbelow : makeKey b o < b ++ lit "0" :=
      hzero ▸ lt_snoc_of_lt (by decide : slash < slash + 1) ⟨o, by simp [makeKey]⟩
    have hafter : makeKey b p < makeKey b o :=
      prefix_lt (hasPrefix_iff.1 (hasPrefix_makeKey_iff.2 ⟨o, rfl, hpo⟩)) fun h =>
        hne (by simpa [makeKey] using h.symm)
    rw [if_neg hfew, if_pos hopen]
    exact ⟨OrdMap.mem_keysWhere.2 ⟨mem_of_visible ho, by simpa using hafter⟩,
      (hbelow.trans_le (hbehind hlt)).le⟩
  · exact (hlast (mem_of_mem_take hk)).elim

theorem ends_of_mem_front {l : List Bytes} {k : Bytes} (h : k ∈ front K s b p l) :
    ends K s b p k = false := by
  simpa using mem_takeWhile_imp h

theorem walkLaw_iff_walkable (hb : b ≠ []) (hp : CString p)
    (hcolon : ∀ k ∈ walkKeys K s b p, colon ∉ k) : WalkLaw K s b p ↔ Walkable K s b p := by
  obtain ⟨n, hn⟩ := walked_eq hb hcolon
  have hsub := takeWhile_subset (fun w => !ends K s b p w) (l := walkKeys K s b p)
  have hnodup : (front K s b p (walkKeys K s b p)).Nodup :=
    (walkKeys_sorted.sublist (takeWhile_sublist _)).imp ne_of_lt
  rw [walkLaw_iff_count hb hn]
  constructor
  · rintro ⟨hreturns, hcount⟩
    have hone (o : Bytes) (ho : Visible s b o) (hpo : p <+: o) :
        ∃! k, k ∈ front K s b p (walkKeys K s b p) ∧ fate K s b p k = .name o := by
      have h := (OrdMap.countP_eq_one_iff hnodup _).1 ((hcount o ho).trans (if_pos hpo))
      simpa using h
    have hown (o : Bytes) (ho : Visible s b o) (hne : o ≠ p) {k : Bytes}
        (hk : k ∈ front K s b p (walkKeys K s b p)) (hname : fate K s b p k = .name o) :
        makeKey b o ∈ front K s b p (walkKeys K s b p) := by
      obtain ⟨hmem, hle⟩ := own_key_le hp (hsub hk) hname ho hne
      exact OrdMap.mem_takeWhile_of_le walkKeys_sorted hmem hk hle
    refine ⟨hreturns, fun o ho hpo hne => ?_, fun o ho hne k hk hname => ?_,
      fun h => hone p h (prefix_refl p)⟩
    · obtain ⟨k, ⟨hk, hname⟩, -⟩ := hone o ho hpo
      exact hown o ho hne hk hname
    · have hpo := (fate_eq_name hp hname).2.2
      have hmem := hown o ho hne hk hname
      exact (hone o ho hpo).unique ⟨hk, hname⟩
        ⟨hmem, fate_makeKey ho hpo (ends_of_mem_front hmem)⟩
  · intro h
    refine ⟨h.returns, fun o ho => ?_⟩
    by_cases hpo : p <+: o
    · rw [if_pos hpo, OrdMap.countP_eq_one_iff hnodup]
      simp only [decide_eq_true_eq]
      by_cases hne : o = p
      · subst hne
        exact h.prefixName ho
      · have hmem := h.reaches o ho hpo hne
        exact ⟨makeKey b o, ⟨hmem, fate_makeKey ho hpo (ends_of_mem_front hmem)⟩,
          fun k hk => h.own o ho hne k hk.1 hk.2⟩
    · rw [if_neg hpo, countP_eq_zero]
      intro k _ hname
      exact hpo (fate_eq_name hp (by simpa using hname)).2.2

/-! ## Names with a colon -/

/-- The strings a walker has, and the name it is about to send, are without a colon. -/
def Walker.Plain : Walker → Prop
  | .scan keys _ _ => ∀ k ∈ keys, colon ∉ k
  | .send objInfo keys _ _ => colon ∉ objInfo.name ∧ ∀ k ∈ keys, colon ∉ k
  | _ => True

theorem Walks.plain (hb : b ≠ []) (hp : CString p) {w : Walker} (h : Walks K s b p w sent r)
    (hw : w.Plain) : ∀ i ∈ sent, colon ∉ i.name := by
  induction h with
  | closed => simp
  | crashed => simp
  | send _ ih => exact forall_mem_cons.2 ⟨hw.1, ih hw.2⟩
  | fetch _ ih => exact ih fun k hk => sep_not_mem_of_mem_pieces hk
  | @scan keys full lastKey _ _ _ ih =>
    apply ih
    cases keys with
    | nil =>
      rw [Walker.step]
      split <;> exact trivial
    | cons k ks =>
      obtain ⟨hk, hks⟩ := forall_mem_cons.1 hw
      rw [step_scan_cons hb]
      cases hfate : fate K s b p k with
      | pass => exact hks
      | name o =>
        dsimp only
        cases hinfo : visibleInfo s b o with
        | none => exact hks
        | some i =>
          refine ⟨?_, hks⟩
          rw [name_of_visibleInfo hinfo, (fate_eq_name hp hfate).2.1]
          exact fun h => hk (mem_of_mem_drop h)
      | stop => exact trivial
      | crash => exact trivial

theorem not_walkLaw_of_colon (hb : b ≠ []) (hp : CString p) (ho : Visible s b o) (hpo : p <+: o)
    (hcolon : colon ∈ o) : ¬ WalkLaw K s b p := by
  rintro ⟨sent, hwalks, hperm⟩
  obtain ⟨i, hi⟩ := Option.isSome_iff_exists.1 ho
  have hmem : i ∈ sent := by
    refine hperm.mem_iff.2 (mem_filterMap.2 ⟨makeKey b o, OrdMap.mem_keysWhere.2
      ⟨mem_of_visible ho, hasPrefix_makeKey_iff.2 ⟨o, rfl, hpo⟩⟩, hi⟩)
  exact hwalks.plain hb hp trivial i hmem (name_of_visibleInfo hi ▸ hcolon)

/-- A visible object with a colon in its name is never sent. Where the keys that the walk gets are
without colons, it does what it should exactly if they are `Walkable`, however many they are. -/
theorem walkLaw_iff (hb : b ≠ []) (hc : CString (makeKey b p)) :
    ((∃ o, Visible s b o ∧ p <+: o ∧ colon ∈ o) → ¬ WalkLaw K s b p) ∧
      ((∀ k ∈ walkKeys K s b p, colon ∉ k) → (WalkLaw K s b p ↔ Walkable K s b p)) := by
  have hp : CString p := fun h => hc (by simp [makeKey, h])
  refine ⟨?_, walkLaw_iff_walkable hb hp⟩
  rintro ⟨o, ho, hpo, hcolon⟩
  exact not_walkLaw_of_colon hb hp ho hpo hcolon

theorem walkLaw_twoObjects :
    WalkLaw (memoryDrive []) (memoryRun twoObjects) (lit "bkt") [] := by
  have hkeys : walkKeys (memoryDrive []) (memoryRun twoObjects) (lit "bkt") [] =
      [makeKey (lit "bkt") (lit "a"), makeKey (lit "bkt") (lit "b")] := by decide +kernel
  have hnone : (walkKeys (memoryDrive []) (memoryRun twoObjects) (lit "bkt") []).find?
      (ends (memoryDrive []) (memoryRun twoObjects) (lit "bkt") []) = none := by decide +kernel
  have hfront : front (memoryDrive []) (memoryRun twoObjects) (lit "bkt") []
      (walkKeys (memoryDrive []) (memoryRun twoObjects) (lit "bkt") []) =
        [makeKey (lit "bkt") (lit "a"), makeKey (lit "bkt") (lit "b")] := by decide +kernel
  have hall : ∀ k ∈ (memoryRun twoObjects).keys,
      makeKey (lit "bkt") [] <+: k →
        k ∈ [makeKey (lit "bkt") (lit "a"), makeKey (lit "bkt") (lit "b")] := by decide +kernel
  refine ((walkLaw_iff (by decide) (by decide)).2 (by rw [hkeys]; decide)).2
    ⟨fun k hk => ?_, fun o ho _ _ => ?_, fun o _ _ k hk hname => ?_, fun h => ?_⟩
  · rw [hnone] at hk
    cases hk
  · rw [hfront]
    exact hall _ (OrdMap.mem_keys.2 (mem_of_visible ho)) ⟨o, by simp [makeKey]⟩
  · rw [hfront] at hk
    have hdrop := (fate_eq_name (by decide) hname).2.1
    rw [mem_cons, mem_singleton] at hk
    rcases hk with rfl | rfl <;> rw [hdrop] <;> decide
  · revert h
    decide +kernel

/-- `Walk` with the name of an object as the prefix does not send the object. -/
theorem walk_skips_prefixName :
    ¬ WalkLaw (memoryDrive []) (memoryRun (onlyObject (lit "data"))) (lit "bkt") (lit "data") := by
  rintro ⟨sent, hwalks, hperm⟩
  cases hwalks with
  | fetch h =>
    have hstep : (Walker.fetch (makeKey (lit "bkt") (lit "data")) (lit "bkt" ++ lit "0")).step
        (memoryDrive []) (memoryRun (onlyObject (lit "data"))) (lit "bkt") (lit "data") [] =
          .scan [] false (makeKey (lit "bkt") (lit "data")) := by decide +kernel
    rw [hstep] at h
    cases h with
    | scan h =>
      cases h
      have hlen := hperm.length_eq
      revert hlen
      decide +kernel

end S3Kinetic
