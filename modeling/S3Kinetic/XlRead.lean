import S3Kinetic.Lib.ByteString

/-!
# Range reads of erasure coded objects

An object is stored in parts. A range read looks up the parts of its first and of its last byte and
decodes, part by part, what lies between them.

`getObject_covers`: the decoded pieces, one after the other, are the range, each within its part,
and no part is looked up that the object has not.
-/

namespace S3Kinetic.XlRead

open ByteString List

structure ObjectPartInfo where
  number : Nat
  size : Int

/-- A call of `Decode` for a part. -/
structure DecodeCall where
  partIndex : Nat
  partNumber : Nat
  partOffset : Int
  partLength : Int
  partSize : Int

inductive Outcome where
  | ok
  | invalidRange (startOffset length size : Int)
  /-- A call of `Decode` has failed. -/
  | decodeErr
  /-- An index out of range. -/
  | panic
  deriving DecidableEq

/-- The loop of `ObjectToPartOffset`. -/
def seekPart : List ObjectPartInfo → Nat → Int → Option (Nat × Int)
  | [], _, _ => none
  | part :: parts, i, partOffset =>
    if partOffset < part.size then some (i, partOffset)
      else seekPart parts (i + 1) (partOffset - part.size)

def objectToPartOffset (parts : List ObjectPartInfo) (offset : Int) : Option (Nat × Int) :=
  if offset = 0 then some (0, 0) else seekPart parts 0 offset

/-- The loop of `getObject` over the parts that are left, with the calls of `Decode` it makes;
`fails` says which of them fail. -/
def readParts (fails : DecodeCall → Bool) (parts : List ObjectPartInfo) (length : Int) :
    Nat → Nat → Int → Int → List DecodeCall × Outcome
  | 0, _, _, _ => ([], .ok)
  | left + 1, partIndex, partOffset, totalBytesRead =>
    if length = totalBytesRead then ([], .ok)
    else
      match parts[partIndex]? with
      | none => ([], .panic)
      | some part =>
        let partLength :=
          if length - totalBytesRead < part.size - partOffset then length - totalBytesRead
            else part.size - partOffset
        let call : DecodeCall := ⟨partIndex, part.number, partOffset, partLength, part.size⟩
        if fails call then ([call], .decodeErr)
        else
          let (calls, outcome) := readParts fails parts length left (partIndex + 1) 0
            (totalBytesRead + partLength)
          (call :: calls, outcome)

def getObject (fails : DecodeCall → Bool) (parts : List ObjectPartInfo)
    (size startOffset length : Int) :
    List DecodeCall × Outcome :=
  let length := if length < 0 then size - startOffset else length
  if size < startOffset ∨ size < startOffset + length then ([],
    .invalidRange startOffset length size)
  else
    match objectToPartOffset parts startOffset with
    | none => ([], .invalidRange startOffset length size)
    | some (partIndex, partOffset) =>
      let endOffset := if 0 < length then startOffset + (length - 1) else startOffset
      match objectToPartOffset parts endOffset with
      | none => ([], .invalidRange startOffset length size)
      | some (lastPartIndex, _) =>
        readParts fails parts length (lastPartIndex + 1 - partIndex) partIndex partOffset 0

/-- The bytes that a call of `Decode` writes. -/
def DecodeCall.slice (contents : List Bytes) (call : DecodeCall) : Bytes :=
  ((contents[call.partIndex]?.getD []).drop call.partOffset.toNat).take call.partLength.toNat

def DecodeCall.Within (call : DecodeCall) : Prop :=
  0 ≤ call.partOffset ∧ 0 ≤ call.partLength ∧ call.partOffset + call.partLength ≤ call.partSize

/-! ## The parts of a range -/

section Parts

variable {parts : List ObjectPartInfo} {contents : List Bytes}

def Sized (parts : List ObjectPartInfo) (contents : List Bytes) : Prop :=
  parts.map (·.size) = contents.map fun c => (c.length : Int)

theorem Sized.get? (h : Sized parts contents) {i : Nat} {c : Bytes} (hc : contents[i]? = some c) :
    ∃ part, parts[i]? = some part ∧ part.size = c.length := by
  have hget := congrArg (·[i]?) h
  simp only [List.getElem?_map, hc, Option.map_some, Option.map_eq_some_iff] at hget
  exact hget

theorem seekPart_eq (h : Sized parts contents) (i : Nat) {x : Nat}
    (hx : x < contents.flatten.length) :
    ∃ (k off : Nat) (c : Bytes), seekPart parts i x = some (i + k, (off : Int)) ∧
      contents[k]? = some c ∧ off < c.length ∧
      (contents.take k).flatten.length + off = x := by
  induction contents generalizing parts i x with
  | nil => simp at hx
  | cons c contents ih =>
    cases parts with
    | nil => simp [Sized] at h
    | cons part parts =>
      simp only [Sized, map_cons, List.cons.injEq] at h
      rw [seekPart, h.1]
      by_cases hlt : x < c.length
      · exact ⟨0, x, c, by rw [if_pos (by omega)]; rfl, rfl, hlt, by simp⟩
      · rw [flatten_cons, length_append] at hx
        obtain ⟨k, off, c', hseek, hc', hoff, hsum⟩ :=
          ih h.2 (i + 1) (show x - c.length < contents.flatten.length by omega)
        refine ⟨k + 1, off, c', ?_, by simpa using hc', hoff, ?_⟩
        · rw [if_neg (by omega), ← Nat.cast_sub (by omega), hseek, Nat.add_assoc, Nat.add_comm 1 k]
        · rw [take_succ_cons, flatten_cons, length_append]
          omega

theorem first_ne_nil (hpos : ∀ c ∈ contents.dropLast, c ≠ []) (hne : contents.flatten ≠ []) :
    ∃ c, contents[0]? = some c ∧ c ≠ [] := by
  cases contents with
  | nil => simp at hne
  | cons c contents =>
    refine ⟨c, rfl, ?_⟩
    cases contents with
    | nil => simpa using hne
    | cons c' contents => exact hpos c (by simp)

theorem objectToPartOffset_eq (h : Sized parts contents) (hpos : ∀ c ∈ contents.dropLast, c ≠ [])
    {x : Nat} (hx : x < contents.flatten.length) :
    ∃ (k off : Nat) (c : Bytes), objectToPartOffset parts x = some (k, (off : Int)) ∧
      contents[k]? = some c ∧
      off < c.length ∧ (contents.take k).flatten.length + off = x := by
  unfold objectToPartOffset
  by_cases hzero : x = 0
  · subst hzero
    obtain ⟨c, hc, hne⟩ := first_ne_nil hpos (length_pos_iff.1 hx)
    exact ⟨0, 0, c, rfl, hc, length_pos_iff.2 hne, rfl⟩
  · rw [if_neg (by omega)]
    obtain ⟨k, off, c, hseek, hc, hoff, hsum⟩ := seekPart_eq h 0 hx
    exact ⟨k, off, c, by rw [hseek, Nat.zero_add], hc, hoff, hsum⟩

/-- The calls for the parts from `rest` on, when the range ends within the parts that are looked
up. -/
theorem readParts_eq (h : Sized parts contents) {length : Int} {left off wanted : Nat}
    {before rest : List Bytes} (hsplit : contents = before ++ rest) (hleft : left ≤ rest.length)
    (hoff : ∀ c ∈ rest.head?, off ≤ c.length)
    (hwanted : off + wanted ≤ (rest.take left).flatten.length) {total : Int}
    (htotal : length - total = wanted) :
    ∃ calls, readParts (fun _ => false) parts length left before.length off total = (calls, .ok) ∧
      (∀ call ∈ calls, call.Within ∧ call.partIndex < parts.length) ∧
      (calls.map (DecodeCall.slice contents)).flatten = (rest.flatten.drop off).take wanted := by
  induction left generalizing off wanted before rest total with
  | zero =>
    have hzero : wanted = 0 := by
      simp only [take_zero, flatten_nil, length_nil] at hwanted
      omega
    exact ⟨[], rfl, by simp, by simp [hzero]⟩
  | succ left ih =>
    rw [readParts]
    by_cases hdone : wanted = 0
    · exact ⟨[], by rw [if_pos (by omega)], by simp, by simp [hdone]⟩
    · rw [if_neg (by omega)]
      cases rest with
      | nil => simp at hleft
      | cons c rest =>
        have hc : contents[before.length]? = some c := by simp [hsplit]
        obtain ⟨part, hpart, hsize⟩ := h.get? hc
        have hoffc : off ≤ c.length := hoff c rfl
        -- the part is read to its end, or as far as the range goes
        have hlen : (if length - total < part.size - off then length - total else part.size - off) =
            ((min wanted (c.length - off) : Nat) : Int) := by
          split_ifs <;> omega
        rw [take_succ_cons, flatten_cons, length_append] at hwanted
        simp only [length_cons, Nat.add_le_add_iff_right] at hleft
        obtain ⟨calls, hcalls, hwithin, hslices⟩ :=
          @ih 0 (wanted - min wanted (c.length - off)) (before ++ [c]) rest (by simp [hsplit]) hleft
            (fun _ _ => Nat.zero_le _) (by omega) (total + ((min wanted (c.length - off) : Nat) :
              Int)) (by omega)
        rw [length_append, length_singleton, Nat.cast_zero] at hcalls
        let call : DecodeCall :=
          ⟨before.length, part.number, off, ((min wanted (c.length - off) : Nat) : Int), part.size⟩
        refine ⟨call :: calls, ?_, ?_, ?_⟩
        · simp only [hpart, hlen, hcalls, Bool.false_eq_true, if_false]
          rfl
        · rw [forall_mem_cons]
          have hindex : before.length < parts.length := (List.getElem?_eq_some_iff.1 hpart).1
          refine ⟨⟨⟨by simp [call], by simp [call], ?_⟩, hindex⟩, hwithin⟩
          dsimp only [call]
          omega
        · rw [map_cons, flatten_cons, hslices, flatten_cons, drop_append_of_le_length hoffc,
            take_append, length_drop, drop_zero]
          congr 1
          · simp only [call, DecodeCall.slice, hc, Option.getD_some, Int.toNat_natCast]
            rw [Nat.min_comm, ← take_take, take_of_length_le (by simp)]
          · congr 1
            omega

end Parts

theorem range_within {contents : List Bytes} {k last off off' : Nat} {c' : Bytes} {x len : Nat}
    (hsum : (contents.take k).flatten.length + off = x) (hc' : contents[last]? = some c')
    (hoff' : off' < c'.length) (hsum' : (contents.take last).flatten.length + off' =
      x + (len - 1)) :
    k ≤ last ∧ off + len ≤ ((contents.drop k).take (last + 1 - k)).flatten.length := by
  have hnext : (contents.take (last + 1)).flatten.length = (contents.take last).flatten.length +
      c'.length := by
    rw [take_add_one, hc', flatten_append, length_append]
    simp
  have hmono : ∀ i, last + 1 ≤ i → (contents.take (last + 1)).flatten.length ≤
      (contents.take i).flatten.length := by
    intro i hi
    rw [← Nat.min_eq_left hi, ← take_take]
    exact ((take_sublist _ _).flatten).length_le
  have hk : k ≤ last := by
    by_contra hgt
    have := hmono k (by omega)
    omega
  refine ⟨hk, ?_⟩
  have hparts : (contents.take (last + 1)).flatten.length =
      (contents.take k).flatten.length +
          ((contents.drop k).take (last + 1 - k)).flatten.length := by
    have hadd : last + 1 = k + (last + 1 - k) := by omega
    conv_lhs => rw [hadd, take_add, flatten_append, length_append]
  omega

theorem getObject_covers (parts : List ObjectPartInfo) (contents : List Bytes)
    (hsizes : Sized parts contents) (hpos : ∀ c ∈ contents.dropLast, c ≠ []) (size : Int)
    (hsize : size = contents.flatten.length) (startOffset length : Int) (hstart : 0 ≤ startOffset)
    (hlt : startOffset < size) (hrange : startOffset + length ≤ size) :
    ∃ calls, getObject (fun _ => false) parts size startOffset length = (calls, .ok) ∧
      (∀ call ∈ calls, call.Within ∧ call.partIndex < parts.length) ∧
      (calls.map (DecodeCall.slice contents)).flatten =
        (contents.flatten.drop startOffset.toNat).take
          (if length < 0 then size - startOffset else length).toNat := by
  obtain ⟨x, rfl⟩ := Int.eq_ofNat_of_zero_le hstart
  obtain ⟨len, hlen⟩ : ∃ len : Nat, (if length < 0 then size - x else length) = (len : Int) :=
    Int.eq_ofNat_of_zero_le (by split_ifs <;> omega)
  have hend : x + len ≤ contents.flatten.length := by
    split_ifs at hlen <;> omega
  obtain ⟨k, off, c, hfind, hc, hoff, hsum⟩ :=
    objectToPartOffset_eq hsizes hpos (show x < contents.flatten.length by omega)
  obtain ⟨last, off', c', hfind', hc', hoff', hsum'⟩ :=
    objectToPartOffset_eq hsizes hpos (show x + (len - 1) < contents.flatten.length by omega)
  have hendOffset : (if 0 < (len : Int) then (x : Int) + (len - 1) else x) =
      ((x + (len - 1) : Nat) : Int) := by
    split_ifs <;> omega
  obtain ⟨hk, hwithin⟩ := range_within hsum hc' hoff' hsum'
  have hklt : k < contents.length := (List.getElem?_eq_some_iff.1 hc).1
  have hlast : last < contents.length := (List.getElem?_eq_some_iff.1 hc').1
  have hhead : ∀ c₁ ∈ (contents.drop k).head?, off ≤ c₁.length := by
    intro c₁ hc₁
    rw [List.head?_drop, hc] at hc₁
    exact Option.some.inj hc₁ ▸ hoff.le
  have hdrop : contents.flatten.drop (contents.take k).flatten.length =
      (contents.drop k).flatten := by
    have hsplit : contents.flatten = (contents.take k).flatten ++ (contents.drop k).flatten := by
      rw [← flatten_append, take_append_drop]
    rw [hsplit, drop_left]
  obtain ⟨calls, hcalls, hall, hslices⟩ := readParts_eq hsizes (take_append_drop k contents).symm
    (by rw [length_drop]; omega) hhead hwithin (show (len : Int) - 0 = len by omega)
  refine ⟨calls, ?_, hall, ?_⟩
  · rw [length_take, Nat.min_eq_left hklt.le] at hcalls
    simp only [getObject, hlen, hendOffset, hfind, hfind']
    rw [if_neg (by omega)]
    exact hcalls
  · rw [hslices, hlen, Int.toNat_natCast, Int.toNat_natCast, ← hsum, ← drop_drop, hdrop]

/-- Three parts, and a range from the first to the last. -/
theorem getObject_covers_threeParts :
    ∃ calls, getObject (fun _ => false) [⟨1, 2⟩, ⟨2, 3⟩, ⟨5, 1⟩] 6 1 (-1) = (calls, .ok) ∧
      calls.length = 3 ∧
      (calls.map (DecodeCall.slice [lit "ab", lit "cde", lit "f"])).flatten = lit "bcdef" := by
  obtain ⟨calls, hcalls, -, hslices⟩ := getObject_covers [⟨1, 2⟩, ⟨2, 3⟩, ⟨5, 1⟩] [lit "ab",
    lit "cde", lit "f"] rfl
    (by decide) 6 (by decide) 1 (-1) (by decide) (by decide) (by decide)
  refine ⟨calls, hcalls, ?_, hslices⟩
  cases hcalls
  rfl

end S3Kinetic.XlRead
