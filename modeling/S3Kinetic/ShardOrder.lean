import S3Kinetic.Lib.ByteString

/-!
# The order of shards (`xl-v1-utils.go`)

`hashOrder` rotates the numbers from one on by the checksum of a key, and the shuffles put the
element with index `i` at the place that the order gives for `i`. The checksum is reduced modulo the
number of disks as a 32-bit number, so the division is by zero where that number is a multiple of `2
^ 32`.
-/

namespace S3Kinetic.ShardOrder

open ByteString List

def crcByte (crc : UInt32) (b : UInt8) : UInt32 :=
  (range 8).foldl (fun c _ => if c % 2 = 1 then (c >>> 1) ^^^ 0xEDB88320
    else c >>> 1) (crc ^^^ b.toUInt32)

/-- `crc32.Checksum` with the IEEE polynomial. -/
def checksum (key : Bytes) : UInt32 := (key.foldl crcByte 0xFFFFFFFF) ^^^ 0xFFFFFFFF

/-- `hashOrder`; the outer `none` is the division by zero, the inner one the nil slice. -/
def hashOrder (key : Bytes) (cardinality : Int) : Option (Option (List Nat)) :=
  if cardinality ≤ 0 then some none
  else
    let n := cardinality.toNat
    let modulus := n % 2 ^ 32
    if modulus = 0 then none
    else
      let start := (checksum key).toNat % modulus
      some (some ((range n).map fun i => 1 + (start + (i + 1)) % n))

variable {α : Type}

/-- The loop of the shuffles. `none` is an index out of range. -/
def shuffleLoop : List α → List Nat → List α → Option (List α)
  | [], _, shuffled => some shuffled
  | _ :: _, [], _ => none
  | x :: xs, blockIndex :: distribution, shuffled =>
    if 1 ≤ blockIndex ∧ blockIndex ≤ shuffled.length then shuffleLoop xs distribution
      (shuffled.set (blockIndex - 1) x)
    else none

/-- `shuffleDisks` and `shufflePartsMetadata`, with the zero value of the elements. -/
def shuffle (zero : α) (xs : List α) : Option (List Nat) → Option (List α)
  | none => some xs
  | some distribution => shuffleLoop xs distribution (replicate xs.length zero)

def shuffleDisks (zero : α) (disks : List α) (distribution : Option (List Nat)) : Option (List α) :=
  shuffle zero disks distribution

def shufflePartsMetadata (zero : α) (partsMetadata : List α) (distribution : Option (List Nat)) :
    Option (List α) :=
  shuffle zero partsMetadata distribution

/-! ## Rotations -/

theorem rotation_perm {n : Nat} (hn : 0 < n) (start : Nat) :
    ((range n).map fun i => 1 + (start + (i + 1)) % n) ~ range' 1 n := by
  have hnodup : ((range n).map fun i => 1 + (start + (i + 1)) % n).Nodup := by
    refine nodup_range.map_on fun i hi j hj hij => ?_
    rw [mem_range] at hi hj
    have hmod : (start + (i + 1)) % n = (start + (j + 1)) % n := Nat.add_left_cancel hij
    have hsub : i ≡ j [MOD n] :=
      Nat.ModEq.add_right_cancel' 1 (Nat.ModEq.add_left_cancel' start hmod)
    exact Nat.ModEq.eq_of_lt_of_lt hsub hi hj
  refine (subperm_of_subset hnodup fun b hb => ?_).perm_of_length_le (by simp)
  obtain ⟨i, -, rfl⟩ := mem_map.1 hb
  have := Nat.mod_lt (start + (i + 1)) hn
  rw [mem_range'_1]
  omega

/-! ## The loop of the shuffles -/

theorem shuffleLoop_spec {xs : List α} {distribution : List Nat} {shuffled : List α}
    (hlen : xs.length = distribution.length)
    (hnodup : distribution.Nodup) (hrange : ∀ b ∈ distribution, 1 ≤ b ∧ b ≤ shuffled.length) :
    ∃ s, shuffleLoop xs distribution shuffled = some s ∧ s.length = shuffled.length ∧
      (∀ i b : Nat, distribution[i]? = some b → s[b - 1]? = xs[i]?) ∧ ∀ j, j + 1 ∉ distribution →
        s[j]? = shuffled[j]? := by
  induction xs generalizing distribution shuffled with
  | nil =>
    obtain rfl := length_eq_zero_iff.1 hlen.symm
    exact ⟨shuffled, rfl, rfl, by simp, fun _ _ => rfl⟩
  | cons x xs ih =>
    cases distribution with
    | nil => simp at hlen
    | cons blockIndex distribution =>
      obtain ⟨hnot, hnodup⟩ := nodup_cons.1 hnodup
      have hb := hrange blockIndex mem_cons_self
      have hrest : ∀ b ∈ distribution, 1 ≤ b ∧ b ≤ (shuffled.set (blockIndex - 1) x).length :=
        fun b hb => by simpa using hrange b (mem_cons_of_mem _ hb)
      obtain ⟨s, hs, hslen, hput, hkeep⟩ := ih (Nat.succ.inj hlen) hnodup hrest
      refine ⟨s, by rw [shuffleLoop, if_pos hb, hs], by simpa using hslen, fun i b hi => ?_,
        fun j hj => ?_⟩
      · cases i with
        | zero =>
          obtain rfl : blockIndex = b := by simpa using hi
          -- no later element goes to the same place
          rw [hkeep (blockIndex - 1) (by rwa [Nat.sub_add_cancel hb.1]),
            getElem?_set_self (by omega), getElem?_cons_zero]
        | succ i => exact hput i b (by simpa using hi)
      · rw [mem_cons, not_or] at hj
        rw [hkeep j hj.2, getElem?_set_ne (by omega)]

theorem shuffle_perm {xs : List α} {n : Nat} {distribution : List Nat} (zero : α)
    (hn : xs.length = n) (hperm : distribution ~ range' 1 n) :
    ∃ s, shuffle zero xs (some distribution) = some s ∧ s ~ xs ∧ ∀ i b : Nat, distribution[i]? =
      some b → s[b - 1]? = xs[i]? := by
  subst hn
  have hlen : xs.length = distribution.length := by simpa using hperm.length_eq.symm
  have hrange : ∀ b ∈ distribution, 1 ≤ b ∧ b ≤ (replicate xs.length zero).length := by
    intro b hb
    have := mem_range'_1.1 (hperm.mem_iff.1 hb)
    rw [length_replicate]
    omega
  obtain ⟨s, hs, hslen, hput, -⟩ := shuffleLoop_spec hlen (hperm.nodup_iff.2 nodup_range') hrange
  rw [length_replicate] at hslen
  refine ⟨s, hs, ?_, hput⟩
  -- the elements in the order of the distribution, and in the order of their places
  have hxs : xs.map some = distribution.map fun b => s[b - 1]? := by
    refine ext_getElem? fun i => ?_
    rw [getElem?_map, getElem?_map]
    cases hi : distribution[i]? with
    | none => simp [getElem?_eq_none_iff.2 (hlen ▸ getElem?_eq_none_iff.1 hi)]
    | some b =>
      obtain ⟨h, -⟩ := List.getElem?_eq_some_iff.1 hi
      simp [hput i b hi, getElem?_eq_getElem (hlen ▸ h)]
  have hss : s.map some = (range' 1 xs.length).map fun b => s[b - 1]? := by
    refine ext_getElem? fun i => ?_
    rw [getElem?_map, getElem?_map]
    by_cases hi : i < s.length
    · simp [← hslen, hi]
    · simp [← hslen, hi]
  have hsome : s.map some ~ xs.map some := by
    rw [hss, hxs]
    exact (hperm.map _).symm
  exact (map_perm_map_iff (Option.some_injective α)).1 hsome

/-- The order of the shards is a permutation, and disks and metadata are shuffled alike. -/
theorem hashOrder_bijective {α β : Type} (key : Bytes) (n : Nat) (hn : 1 ≤ n)
    (hmod : n % 2 ^ 32 ≠ 0) (disks : List α)
    (nilDisk : α) (hdisks : disks.length = n) (partsMetadata : List β) (zeroMeta : β)
    (hmeta : partsMetadata.length = n) :
    ∃ distribution s t, hashOrder key n = some (some distribution) ∧ distribution ~ range' 1 n ∧
      shuffleDisks nilDisk disks (some distribution) = some s ∧
      shufflePartsMetadata zeroMeta partsMetadata (some distribution) = some t ∧ s ~ disks ∧
        t ~ partsMetadata ∧
      ∀ i b : Nat, distribution[i]? = some b → s[b - 1]? = disks[i]? ∧
        t[b - 1]? = partsMetadata[i]? := by
  have hperm := rotation_perm hn ((checksum key).toNat % (n % 2 ^ 32))
  obtain ⟨s, hs, hsperm, hsput⟩ := shuffle_perm nilDisk hdisks hperm
  obtain ⟨t, ht, htperm, htput⟩ := shuffle_perm zeroMeta hmeta hperm
  refine ⟨_, s, t, ?_, hperm, hs, ht, hsperm, htperm, fun i b hi => ⟨hsput i b hi, htput i b hi⟩⟩
  rw [hashOrder, if_neg (by omega), Int.toNat_natCast]
  exact if_neg hmod

theorem hashOrder_threeDisks :
    ∃ distribution s t, hashOrder (lit "object") 3 = some (some distribution) ∧
      shuffleDisks 0 [7, 8, 9] (some distribution) = some s ∧
      shufflePartsMetadata false [true, false, true] (some distribution) = some t ∧ s ~ [7, 8, 9] ∧
        t ~ [true, false, true] := by
  obtain ⟨d, s, t, h, -, hs, ht, hsperm, htperm, -⟩ :=
    hashOrder_bijective (lit "object") 3 (by decide) (by decide) [7, 8, 9] 0 rfl
    [true, false, true] false rfl
  exact ⟨d, s, t, h, hs, ht, hsperm, htperm⟩

/-- With `2 ^ 32` disks the checksum is divided by zero. -/
theorem hashOrder_panics : hashOrder (lit "object") (2 ^ 32) = none := by
  rw [hashOrder, if_neg (by decide)]
  exact if_pos (by decide)

end S3Kinetic.ShardOrder
