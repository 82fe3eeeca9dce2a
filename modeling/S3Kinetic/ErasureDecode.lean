import S3Kinetic.Lib.Triggers
import S3Kinetic.Erasure

/-!
# Reading erasure-coded files

`Decode` reads the shards of a block from as many of the files as it needs, in parallel and in any
order, restores the data shards that it has not read, and writes the part of the block that is asked
for. A file that fails is not read again.

`erasure_roundTrip`: after `Encode`, with at most `p` shard files missing or failing, `Decode`
writes exactly the range that it is asked for.
-/

namespace S3Kinetic.Erasure

open ByteString Blocks Quorum Triggers List

variable {d p n : Nat}

structure Disk where
  data : Bytes
  fails : Nat → Bool

def Disk.readAt (disk : Disk) (len offset : Nat) : Option Bytes :=
  if disk.fails offset then none
  else if offset + len ≤ disk.data.length then some ((disk.data.drop offset).take len)
  else none

structure ParallelReader (n : Nat) where
  readers : Fin n → Option Disk
  offset : Nat
  shardSize : Nat
  shardFileSize : Nat

def newParallelReader (d B : Nat) (readers : Fin n → Option Disk) (offset totalLength : Nat) :
    ParallelReader n :=
  ⟨readers, offset / B * shardSize d B, shardSize d B, shardFileSize d B totalLength⟩

namespace ParallelReader

def nextSize (r : ParallelReader n) : Nat :=
  if r.shardFileSize < r.offset + r.shardSize then r.shardFileSize - r.offset else r.shardSize

def outcome (r : ParallelReader n) (i : Fin n) : Option Bytes :=
  (r.readers i).bind fun disk => disk.readAt r.nextSize r.offset

/-- The readers after a `Read`: those that failed are dropped. -/
def readersAfter (r : ParallelReader n) (s : State n Bytes) (i : Fin n) : Option Disk :=
  match s.task i with
  | .sending none | .done none => none
  | _ => r.readers i

/-- `Read`; its goroutines take their steps in the order that `pick` says. -/
def read (r : ParallelReader n) (dataBlocks : Nat) (pick : Nat → Nat) :
    Option (Fin n → Option Bytes) × ParallelReader n :=
  let s := run r.outcome dataBlocks pick (4 * n + dataBlocks + 1) (init n Bytes dataBlocks)
  let r' := { r with readers := r.readersAfter s, shardSize := r.nextSize }
  if dataBlocks ≤ s.got then
    (some fun i => (s.task i).result, { r' with offset := r.offset + r.nextSize })
  else (none, r')

end ParallelReader

def decodeDataBlocks (rs : ReedSolomon d p) (bufs : Fin (d + p) → Option Bytes) :
    Option (Fin (d + p) → Option Bytes) :=
  if ∀ i, (bufs (Fin.castAdd p i)).isSome = true then some bufs else rs.reconstructData bufs

/-- The loop of `writeDataBlocks`: what it writes. -/
def writeBlocks : List Bytes → Nat → Nat → Bytes
  | [], _, _ => []
  | block :: blocks, offset, write =>
    if block.length ≤ offset then writeBlocks blocks (offset - block.length) write
    else if write < (block.drop offset).length then (block.drop offset).take write
    else block.drop offset ++ writeBlocks blocks 0 (write - (block.drop offset).length)

def writeDataBlocks (enBlocks : List Bytes) (dataBlocks offset length : Nat) : Except Err Bytes :=
  if enBlocks.length < dataBlocks then .error .tooFewShards
  else if ((enBlocks.take dataBlocks).map List.length).sum < length then .error .shortData
  else .ok (writeBlocks (enBlocks.take dataBlocks) offset length)

/-- The part of a block that is asked for: where it begins, and its length. -/
def blockRange (B offset length block : Nat) : Nat × Nat :=
  let startBlock := offset / B
  let endBlock := (offset + length) / B
  if startBlock = endBlock then (offset % B, length)
  else if block = startBlock then (offset % B, B - offset % B)
  else if block = endBlock then (0, (offset + length) % B)
  else (0, B)

/-- The loop of `Decode` over the blocks that are left: what it writes, and the error it ends
with. -/
def decodeLoop (rs : ReedSolomon d p) (B offset length : Nat) (pick : Nat → Nat → Nat) :
    Nat → Nat → ParallelReader (d + p) → Bytes × Option Err
  | 0, _, _ => ([], none)
  | left + 1, block, reader =>
    let (blockOffset, blockLength) := blockRange B offset length block
    if blockLength = 0 then ([], none)
    else
      match reader.read d (pick block) with
      | (none, _) => ([], some .readQuorum)
      | (some bufs, reader) =>
        match decodeDataBlocks rs bufs with
        | none => ([], some .reconstruct)
        | some bufs =>
          match writeDataBlocks (List.ofFn fun i => (bufs i).getD []) d blockOffset blockLength with
          | .error e => ([], some e)
          | .ok out =>
            let (written, err) := decodeLoop rs B offset length pick left (block + 1) reader
            (out ++ written, err)

/-- `Decode`: what it writes, and its error. -/
def decode (rs : ReedSolomon d p) (B : Nat) (pick : Nat → Nat → Nat)
    (readers : Fin (d + p) → Option Disk) (offset length totalLength : Int) : Bytes × Option Err :=
  if offset < 0 ∨ length < 0 then ([], some .invalidArgument)
  else if totalLength < offset + length then ([], some .invalidArgument)
  else if length = 0 then ([], none)
  else
    let offset := offset.toNat
    let length := length.toNat
    let reader := newParallelReader d B readers offset totalLength.toNat
    let (written, err) := decodeLoop rs B offset length pick ((offset + length) / B - offset / B +
      1) (offset / B) reader
    match err with
    | some e => (written, some e)
    | none => if written.length ≠ length then (written, some .lessData) else (written, none)

/-! ## Writing out a block -/

theorem writeBlocks_eq (blocks : List Bytes) (offset write : Nat) :
    writeBlocks blocks offset write = (blocks.flatten.drop offset).take write := by
  induction blocks generalizing offset write with
  | nil => simp [writeBlocks]
  | cons block blocks ih =>
    rw [writeBlocks, flatten_cons]
    split_ifs with hskip hlast
    · rw [ih, drop_append, drop_of_length_le hskip, nil_append]
    · rw [drop_append_of_le_length (by omega), take_append_of_le_length hlast.le]
    · rw [ih, drop_append_of_le_length (by omega), take_append,
        take_of_length_le (Nat.le_of_not_lt hlast), drop_zero]

variable {offset length : Nat}

theorem writeDataBlocks_split (rs : ReedSolomon d p) {block : Bytes} (hne : block ≠ [])
    {bufs : Fin (d + p) → Option Bytes}
    (hbufs : ∀ i, bufs (Fin.castAdd p i) = some (rs.split block i))
    (hrange : offset + length ≤ block.length) :
    writeDataBlocks (List.ofFn fun i => (bufs i).getD []) d offset length =
      .ok ((block.drop offset).take length) := by
  have hdata : (List.ofFn fun i => (bufs i).getD []).take d = List.ofFn (rs.split block) := by
    rw [ofFn_add, take_append_of_le_length (by simp), take_of_length_le (by simp)]
    exact congrArg List.ofFn (funext fun i => congrArg (Option.getD · []) (hbufs i))
  have hpad := rs.take_split block hne
  have hlen : block.length ≤ (List.ofFn (rs.split block)).flatten.length := by
    have := congrArg List.length hpad
    rw [length_take] at this
    omega
  rw [writeDataBlocks, if_neg (by simp), hdata, ← length_flatten, if_neg (by omega), writeBlocks_eq]
  congr 1
  conv_rhs => rw [← hpad, drop_take, take_take, Nat.min_eq_left (by omega)]

/-! ## Reading a block -/

def blockAt (B : Nat) (content : Bytes) (k : Nat) : Bytes := (content.drop (k * B)).take B

/-- The readers are shard files of the content, and those not in `bad` never fail. -/
structure Readable (rs : ReedSolomon d p) (B : Nat) (content : Bytes) (bad : Finset (Fin (d + p)))
    (readers : Fin (d + p) → Option Disk) : Prop where
  files : ∀ i disk, readers i = some disk → disk.data = shardFile rs B content i
  alive : ∀ i, i ∉ bad → ∃ disk, readers i = some disk ∧ ∀ offset, disk.fails offset = false

/-- A reader that is about to read the k-th block. -/
structure At (rs : ReedSolomon d p) (B : Nat) (content : Bytes)
    (bad : Finset (Fin (d + p))) (k : Nat)
    (r : ParallelReader (d + p)) : Prop extends Readable rs B content bad r.readers where
  offset : r.offset = k * shardSize d B
  shardSize : r.shardSize = shardSize d B
  shardFileSize : r.shardFileSize = shardFileSize d B content.length

section Read

variable {rs : ReedSolomon d p} {B k : Nat} {content : Bytes} {bad : Finset (Fin (d + p))}
    {r : ParallelReader (d + p)}

theorem length_blockAt (B : Nat) (content : Bytes) (k : Nat) :
    (blockAt B content k).length = min B (content.length - k * B) := by
  rw [blockAt, length_take, length_drop]

theorem At.nextSize_eq (h : At rs B content bad k r) (hd : 0 < d) (hB : 0 < B)
    (hk : k * B < content.length) :
    r.nextSize = ceilFrac (blockAt B content k).length d ∧
      k * Erasure.shardSize d B + r.nextSize ≤ Erasure.shardFileSize d B content.length := by
  have hsize := shardFileSize_drop (d := d) hB hk.le
  rw [length_blockAt, ParallelReader.nextSize, h.offset, h.shardSize, h.shardFileSize, hsize]
  generalize content.length - k * B = m
  by_cases hm : m < B
  · have hle := ceilFrac_mono hd hm.le
    rw [shardFileSize_of_lt hm, Nat.min_eq_right hm.le]
    unfold Erasure.shardSize
    split_ifs
    · omega
    · omega
  · obtain ⟨m', rfl⟩ := Nat.exists_eq_add_of_le (Nat.le_of_not_lt hm)
    rw [shardFileSize_add hB, if_neg (by omega), Nat.min_eq_left (Nat.le_add_right _ _)]
    exact ⟨rfl, by omega⟩

variable {i : Fin (d + p)}

theorem At.readAt (h : At rs B content bad k r) (hd : 0 < d) (hB : 0 < B)
    (hk : k * B < content.length) {disk : Disk} (hi : r.readers i = some disk) :
    disk.readAt r.nextSize r.offset =
      if disk.fails r.offset then none else some (encodeData rs (blockAt B content k) i) := by
  obtain ⟨hnext, hle⟩ := h.nextSize_eq hd hB hk
  have hne : content.drop (k * B) ≠ [] := length_pos_iff.1 (by rw [length_drop]; omega)
  have hshard : (disk.data.drop r.offset).take r.nextSize =
      encodeData rs (blockAt B content k) i := by
    rw [h.files i disk hi, h.offset, shardFile_drop hB hk.le, shardFile_of_ne_nil hB hne, hnext]
    exact take_left' (length_encodeData ..)
  have hfits : r.offset + r.nextSize ≤ disk.data.length := by
    rw [h.files i disk hi, length_shardFile hB, h.offset]
    exact hle
  rw [Disk.readAt, if_pos hfits, hshard]

theorem At.outcome_eq (h : At rs B content bad k r) (hd : 0 < d) (hB : 0 < B)
    (hk : k * B < content.length)
    {b : Bytes} (hb : r.outcome i = some b) : b = encodeData rs (blockAt B content k) i := by
  obtain ⟨disk, hdisk, hread⟩ := Option.bind_eq_some_iff.1 hb
  rw [h.readAt hd hB hk hdisk] at hread
  split_ifs at hread
  exact (Option.some.inj hread).symm

theorem At.outcome_isSome (h : At rs B content bad k r) (hd : 0 < d) (hB : 0 < B)
    (hk : k * B < content.length) (hi : i ∉ bad) : (r.outcome i).isSome = true := by
  obtain ⟨disk, hdisk, hfails⟩ := h.alive i hi
  rw [ParallelReader.outcome, hdisk, Option.bind_some, h.readAt hd hB hk hdisk, hfails]
  rfl

theorem At.enough (h : At rs B content bad k r) (hd : 0 < d) (hB : 0 < B)
    (hk : k * B < content.length)
    (hbad : bad.card ≤ p) : d ≤ tally fun i => (r.outcome i).isSome = true := by
  have hmono : (tally fun i => i ∉ bad) ≤ tally fun i => (r.outcome i).isSome = true :=
    tally_mono fun i hi => h.outcome_isSome hd hB hk hi
  have hsum := tally_add_tally_not fun i : Fin (d + p) => i ∈ bad
  have hcard : (tally fun i => i ∈ bad) = bad.card := by
    rw [tally_eq_card, Finset.filter_mem_eq_inter, Finset.univ_inter]
  omega

theorem measure_init (n need : Nat) : (init n Bytes need).measure ≤ 4 * n + need + 1 := by
  have hstarted : (init n Bytes need).started = 0 :=
    tally_eq_zero fun _ => by simp [init, Task.isStarted]
  have hsending : (init n Bytes need).sending = 0 :=
    tally_eq_zero fun _ => by simp [init, Task.isSending]
  rw [State.measure, hstarted, hsending]
  simp [init]

theorem Readable.after (h : Readable rs B content bad r.readers) {s : State (d + p) Bytes}
    (hs : Inv r.outcome d s) (hgood : ∀ i, i ∉ bad → (r.outcome i).isSome = true) :
    Readable rs B content bad (r.readersAfter s) := by
  have hkept : ∀ i, i ∉ bad → r.readersAfter s i = r.readers i := by
    intro i hi
    have hsome := hgood i hi
    unfold ParallelReader.readersAfter
    rcases htask : s.task i with _ | _ | (_ | b) | (_ | b)
    · rfl
    · rfl
    · rw [← hs.result i none (.inl htask)] at hsome
      cases hsome
    · rfl
    · rw [← hs.result i none (.inr htask)] at hsome
      cases hsome
    · rfl
  refine ⟨fun i disk hi => h.files i disk ?_, fun i hi => hkept i hi ▸ h.alive i hi⟩
  unfold ParallelReader.readersAfter at hi
  split at hi
  · cases hi
  · cases hi
  · exact hi

theorem At.read (h : At rs B content bad k r) (hd : 0 < d) (hB : 0 < B)
    (hk : k * B < content.length) (hbad : bad.card ≤ p) (pick : Nat → Nat) :
    ∃ bufs r', r.read d pick = (some bufs, r') ∧ (d ≤ tally fun i => (bufs i).isSome = true) ∧
      (∀ i b, bufs i = some b → b = encodeData rs (blockAt B content k) i) ∧
      ((k + 1) * B < content.length → At rs B content bad (k + 1) r') := by
  have hinit : Inv r.outcome d (init (d + p) Bytes d) := inv_init hd
  have hinv : Inv r.outcome d (run r.outcome d pick (4 * (d + p) + d + 1) (init (d + p) Bytes d)) :=
    inv_run hinit
  have hfinished : (run r.outcome d pick (4 * (d + p) + d + 1) (init (d + p) Bytes d)).Finished :=
    finished_run hinit (measure_init (d + p) d)
  have hgot := hinv.enough hfinished (h.enough hd hB hk hbad)
  have hread := h.nextSize_eq hd hB hk
  refine ⟨_, _, by rw [ParallelReader.read, if_pos hgot], hgot, fun i b hb => ?_, fun hnext => ?_⟩
  · exact h.outcome_eq hd hB hk (hinv.result_eq hb)
  · have hfull : r.nextSize = Erasure.shardSize d B := by
      rw [hread.1, length_blockAt, Erasure.shardSize, Nat.min_eq_left]
      rw [Nat.succ_mul] at hnext
      omega
    exact ⟨h.toReadable.after hinv fun i hi => h.outcome_isSome hd hB hk hi, by
      simp only [h.offset, hfull, Nat.succ_mul], hfull, h.shardFileSize⟩

theorem decodeDataBlocks_split {block : Bytes} (hne : block ≠ [])
    {bufs : Fin (d + p) → Option Bytes} (hbufs : ∀ i b, bufs i = some b → b = encodeData rs block i)
    (henough : d ≤ tally fun i => (bufs i).isSome = true) :
    ∃ out, decodeDataBlocks rs bufs = some out ∧ ∀ i, out (Fin.castAdd p i) =
      some (rs.split block i) := by
  simp only [encodeData, if_neg hne] at hbufs
  unfold decodeDataBlocks
  split_ifs with hall
  · refine ⟨bufs, rfl, fun i => ?_⟩
    obtain ⟨b, hb⟩ := Option.isSome_iff_exists.1 (hall i)
    rw [hb, hbufs _ b hb, Fin.append_left]
  · exact rs.reconstructs (rs.split block) bufs hbufs henough

end Read

/-! ## All blocks of a range -/

def position (B offset block : Nat) : Nat := if block = offset / B then offset else block * B

theorem blockRange_spec {B block : Nat} (hB : 0 < B) (hstart : offset / B ≤ block)
    (hend : block ≤ (offset + length) / B) :
    ∃ blockOffset blockLength, blockRange B offset length block = (blockOffset, blockLength) ∧
      block * B + blockOffset = position B offset block ∧ blockOffset + blockLength ≤ B ∧
      (block < (offset + length) / B → position B offset block + blockLength = (block + 1) * B ∧
        0 < blockLength) ∧
      (block = (offset + length) / B → position B offset block + blockLength =
        offset + length) := by
  have hoff := Nat.div_add_mod offset B
  have hsum := Nat.div_add_mod (offset + length) B
  have hoffmod := Nat.mod_lt offset hB
  have hsummod := Nat.mod_lt (offset + length) hB
  rw [Nat.mul_comm] at hoff hsum
  unfold blockRange position
  dsimp only
  split_ifs with hsame hfirst hfirst' hlast
  · subst hfirst
    refine ⟨_, _, rfl, hoff, ?_, fun h => absurd hsame h.ne, fun _ => rfl⟩
    rw [← hsame] at hsum
    omega
  · exact absurd (Nat.le_antisymm (hsame ▸ hend) hstart) hfirst
  · subst hfirst'
    refine ⟨_, _, rfl, hoff, by omega, fun _ => ⟨by rw [Nat.succ_mul]; omega, by omega⟩,
      fun h => absurd h hsame⟩
  · subst hlast
    exact ⟨_, _, rfl, Nat.add_zero _, by omega, fun h => absurd h (lt_irrefl _), fun _ => hsum⟩
  · exact ⟨_, _, rfl, Nat.add_zero _, by omega, fun _ => ⟨by rw [Nat.succ_mul], hB⟩,
      fun h => absurd h hlast⟩

theorem take_append_drop_take (l : Bytes) (a m m' : Nat) :
    (l.drop a).take m ++ (l.drop (a + m)).take m' = (l.drop a).take (m + m') := by
  rw [take_add, drop_drop]

theorem decodeLoop_eq {rs : ReedSolomon d p} {B : Nat} {content : Bytes}
    {bad : Finset (Fin (d + p))}
    (hd : 0 < d) (hB : 0 < B) (hbad : bad.card ≤ p) (hlen : offset + length ≤ content.length)
    (pick : Nat → Nat → Nat) {left block : Nat} {r : ParallelReader (d + p)}
    (hstart : offset / B ≤ block) (hleft : block + left = (offset + length) / B + 1)
    (hr : block * B < offset + length → At rs B content bad block r) :
    decodeLoop rs B offset length pick left block r =
      ((content.drop (position B offset block)).take (offset + length - position B offset block),
        none) := by
  have hdiv := Nat.div_mul_le_self (offset + length) B
  have hlt := Nat.lt_div_mul_add (a := offset + length) hB
  induction left generalizing block r with
  | zero =>
    have hnot : block ≠ offset / B := by
      have := Nat.div_le_div_right (c := B) (Nat.le_add_right offset length)
      omega
    have hpast : offset + length ≤ block * B := by
      obtain rfl : block = (offset + length) / B + 1 := hleft
      rw [Nat.succ_mul]
      omega
    rw [decodeLoop, position, if_neg hnot, Nat.sub_eq_zero_of_le hpast, take_zero]
  | succ left ih =>
    have hend : block ≤ (offset + length) / B := by omega
    obtain ⟨blockOffset, blockLength, hrange, hpos, hfits, hmiddle, hlast⟩ :=
      blockRange_spec hB hstart hend
    have hreach : position B offset block + blockLength ≤ offset + length := by
      rcases Nat.lt_or_eq_of_le hend with hlt' | heq
      · rw [(hmiddle hlt').1]
        exact (Nat.mul_le_mul_right B hlt').trans hdiv
      · exact (hlast heq).le
    rw [decodeLoop, hrange]
    dsimp only
    by_cases hzero : blockLength = 0
    · have heq : block = (offset + length) / B := by
        by_contra hne
        exact (hmiddle (by omega)).2.ne' hzero
      have hdone := hlast heq
      rw [if_pos hzero, Nat.sub_eq_zero_of_le (by omega), take_zero]
    · rw [if_neg hzero]
      have hk : block * B < content.length := by omega
      obtain ⟨bufs, r', hread, hcount, hbufs, hnext⟩ :=
        (hr (by omega)).read hd hB hk hbad (pick block)
      have hblock : blockOffset + blockLength ≤ (blockAt B content block).length := by
        rw [length_blockAt]
        omega
      have hne : blockAt B content block ≠ [] := length_pos_iff.1 (by omega)
      obtain ⟨out, hdecode, hout⟩ := decodeDataBlocks_split hne hbufs hcount
      have hrest := ih (r := r') (by omega : offset / B ≤ block + 1) (by omega) fun h =>
        hnext (h.trans_le hlen)
      have hposition : position B offset (block + 1) = (block + 1) * B := if_neg (by omega)
      have hpart : ((blockAt B content block).drop blockOffset).take blockLength =
          (content.drop (position B offset block)).take blockLength := by
        rw [blockAt, drop_take, take_take, Nat.min_eq_left (by omega), drop_drop, hpos]
      simp only [hread, hdecode, writeDataBlocks_split rs hne hout hblock, hrest, hposition, hpart]
      rw [Prod.mk.injEq]
      refine ⟨?_, rfl⟩
      -- what comes after a block begins where its part ends
      rcases Nat.lt_or_eq_of_le hend with hlt' | heq
      · rw [← (hmiddle hlt').1, take_append_drop_take]
        congr 1
        omega
      · have hafter : offset + length ≤ (block + 1) * B := by
          rw [heq, Nat.succ_mul]
          omega
        rw [Nat.sub_eq_zero_of_le hafter, take_zero, append_nil]
        congr 1
        have := hlast heq
        omega

/-- `Decode` of a range of a content whose shard files are readable. -/
theorem decode_of_readable {rs : ReedSolomon d p} {B : Nat} {content : Bytes}
    {bad : Finset (Fin (d + p))} {readers : Fin (d + p) → Option Disk} (hd : 0 < d) (hB : 0 < B)
    (hreadable : Readable rs B content bad readers)
    (hbad : bad.card ≤ p) (pick : Nat → Nat → Nat) (hlen : offset + length ≤ content.length) :
    decode rs B pick readers offset length content.length =
      ((content.drop offset).take length, none) := by
  have hmono := Nat.div_le_div_right (c := B) (Nat.le_add_right offset length)
  have hreader : At rs B content bad (offset / B) (newParallelReader d B readers offset
      content.length) :=
    ⟨hreadable, rfl, rfl, rfl⟩
  have hleft : offset / B + ((offset + length) / B - offset / B + 1) =
    (offset + length) / B + 1 := by omega
  have hloop := decodeLoop_eq hd hB hbad hlen pick le_rfl hleft fun _ => hreader
  rw [decode, if_neg (by omega), if_neg (by omega)]
  by_cases hzero : length = 0
  · subst hzero
    simp
  · have hposition : position B offset (offset / B) = offset := if_pos rfl
    rw [if_neg (by omega)]
    simp only [Int.toNat_natCast, hloop, hposition, Nat.add_sub_cancel_left]
    rw [if_neg (by rw [length_take, length_drop]; omega)]

theorem erasure_roundTrip (rs : ReedSolomon d p) (hd : 1 ≤ d) (B : Nat) (hB : 1 ≤ B)
    (content : Bytes)
    (quorum : Nat) (fails : Fin (d + p) → Nat → Bool) (writers : Fin (d + p) → Bool) (total : Nat)
    (files : Fin (d + p) → Option Bytes)
    (hencode : encode rs B quorum fails ⟨content, false⟩ writers = some (.ok (total, files)))
    (readers : Fin (d + p) → Option Disk) (hfiles : ∀ i disk, readers i = some disk →
      files i = some disk.data)
    (bad : Finset (Fin (d + p))) (hbad : bad.card ≤ p)
    (halive : ∀ i, i ∉ bad → ∃ disk, readers i = some disk ∧ ∀ offset, disk.fails offset = false)
    (pick : Nat → Nat → Nat) (offset length : Int) (hoffset : 0 ≤ offset) (hlength : 0 ≤ length)
    (hrange : offset + length ≤ total) :
    decode rs B pick readers offset length total =
      ((content.drop offset.toNat).take length.toNat, none) := by
  obtain ⟨htotal, hshards⟩ := encode_files hB hencode
  have hreadable : Readable rs B content bad readers :=
    ⟨fun i disk hi => hshards i _ (hfiles i disk hi), halive⟩
  obtain ⟨offset, rfl⟩ := Int.eq_ofNat_of_zero_le hoffset
  obtain ⟨length, rfl⟩ := Int.eq_ofNat_of_zero_le hlength
  obtain rfl : total = content.length := htotal
  exact decode_of_readable hd hB hreadable hbad pick (by omega)

/-- One data and one parity shard, which is a copy. -/
def mirror : ReedSolomon 1 1 where
  split data _ := data
  encode shards _ := shards 0
  reconstructData bufs := some fun _ => (bufs 0).or (bufs 1)
  length_split data _ _ := by simp [ceilFrac, Nat.mod_one]
  take_split data _ := by simp
  length_encode shards L h _ := h 0
  reconstructs shards bufs hbufs henough := by
    refine ⟨_, rfl, fun i => ?_⟩
    obtain rfl := Subsingleton.elim i 0
    have hone : ∀ j b, bufs j = some b → b = shards 0 := by
      intro j b hb
      rw [hbufs j b hb]
      refine Fin.addCases (fun k => ?_) (fun k => ?_) j
      · rw [Fin.append_left, Subsingleton.elim k 0]
      · rw [Fin.append_right]
    obtain ⟨j, hj⟩ := tally_pos.1 (Nat.lt_of_lt_of_le Nat.one_pos henough)
    cases h0 : bufs 0 with
    | some b => rw [hone 0 b h0, Option.some_or]
    | none =>
      have hj' : (bufs 1).isSome = true := by
        rcases (Fin.exists_fin_two (p := fun j => (bufs j).isSome = true)).1 ⟨j, hj⟩ with h | h
        · rw [h0] at h
          cases h
        · exact h
      obtain ⟨b, hb⟩ := Option.isSome_iff_exists.1 hj'
      rw [Option.none_or, hb, hone 1 b hb]

def secondOnly (file : Bytes) (i : Fin 2) : Option Disk :=
  if i = 1 then some ⟨file, fun _ => false⟩ else none

/-- `hello` in blocks of two, read from its second shard file. -/
theorem erasure_roundTrip_mirror : ∃ files,
    encode mirror 2 1 (fun _ _ => false) ⟨lit "hello", false⟩ (fun _ => true) =
      some (.ok (5, files)) ∧
      files 1 = some (lit "hello") ∧
      decode mirror 2 (fun _ _ => 0) (secondOnly (lit "hello")) 1 3 5 = (lit "ell", none) := by
  obtain ⟨files, hencode, hone⟩ : ∃ files, encode mirror 2 1 (fun _ _ => false) ⟨lit "hello",
    false⟩ (fun _ => true) =
      some (.ok (5, files)) ∧ files 1 = some (lit "hello") := ⟨_, rfl, rfl⟩
  have hfiles : ∀ i disk, secondOnly (lit "hello") i = some disk → files i = some disk.data := by
    intro i disk hi
    unfold secondOnly at hi
    split_ifs at hi with h1
    cases hi
    rw [h1, hone]
  have halive : ∀ i, i ∉ ({0} : Finset (Fin 2)) →
      ∃ disk, secondOnly (lit "hello") i = some disk ∧ ∀ offset, disk.fails offset = false := by
    intro i hi
    have h1 : i = 1 := by
      revert i
      decide
    exact ⟨_, if_pos h1, fun _ => rfl⟩
  exact ⟨files, hencode, hone, erasure_roundTrip mirror (by decide) 2 (by decide) (lit "hello") 1 _
    _ 5 files hencode _
    hfiles {0} (by decide) halive (fun _ _ => 0) 1 3 (by decide) (by decide) (by decide)⟩

end S3Kinetic.Erasure
