import S3Kinetic.ParallelRead

/-!
# Healing shard files

`Heal` decodes the object from the shard files that can be read and encodes it again for the disks
that lack theirs, over a pipe. With `d` working readers it writes the shard files of the original
`Encode`, with fewer at some block it ends with the error of `Decode` (`healing`). What a reader
that always fails holds does not matter: `Decode` takes it for no reader at all (`decode_congr`).
-/

namespace S3Kinetic.Erasure

open ByteString Blocks Quorum Triggers ParallelReader

variable {d p : Nat}

/-! ## The model -/

/-- `Heal`. What `Decode` writes goes through a pipe that it closes with its error, if there is one;
`Encode` passes that on. -/
def heal (rs : ReedSolomon d p) (B : Nat) (pick : Nat → Nat → Nat)
    (readers : Fin (d + p) → Option Disk)
    (writers : Fin (d + p) → Bool) (fails : Fin (d + p) → Nat → Bool) (size : Nat) :
    Option (Except Err (Writers (d + p))) :=
  let (data, err) := decode rs B pick readers 0 size size
  match encode rs B 1 fails ⟨data, err.isSome⟩ writers with
  | none => none
  | some (.error .source) => some (.error (err.getD .source))
  | some (.error e) => some (.error e)
  | some (.ok (n, files)) => if n ≠ size then some (.error .lessData) else some (.ok files)

/-- A reader that holds its shard file and does not fail. -/
def Works (file : Option Bytes) (reader : Option Disk) : Prop :=
  ∃ disk, reader = some disk ∧ file = some disk.data ∧ ∀ offset, disk.fails offset = false

def NeverReads (reader : Option Disk) : Prop :=
  ∀ disk, reader = some disk → ∀ offset, disk.fails offset = true

/-! ## Readers that give the same -/

def readOf (reader : Option Disk) (len offset : Nat) : Option Bytes :=
  reader.bind fun disk => disk.readAt len offset

theorem readOf_of_neverReads {reader : Option Disk} (h : NeverReads reader) :
    readOf reader = readOf none := by
  funext len offset
  cases reader with
  | none => rfl
  | some disk =>
    rw [readOf, Option.bind_some, Disk.readAt, if_pos (h disk rfl offset)]
    rfl

/-- Two parallel readers that cannot be told apart. -/
structure Alike (r r' : ParallelReader (d + p)) : Prop where
  readers : ∀ i, readOf (r.readers i) = readOf (r'.readers i)
  offset : r.offset = r'.offset
  shardSize : r.shardSize = r'.shardSize
  shardFileSize : r.shardFileSize = r'.shardFileSize

variable {r r' : ParallelReader (d + p)}

theorem Alike.nextSize (h : Alike r r') : r.nextSize = r'.nextSize := by
  rw [ParallelReader.nextSize, ParallelReader.nextSize, h.offset, h.shardSize, h.shardFileSize]

theorem Alike.outcome (h : Alike r r') : r.outcome = r'.outcome := by
  funext i
  have hread := congrFun (congrFun (h.readers i) r.nextSize) r.offset
  rw [ParallelReader.outcome, ParallelReader.outcome, ← h.nextSize, ← h.offset]
  exact hread

theorem Alike.read (h : Alike r r') (pick : Nat → Nat) :
    (r.read d pick).1 = (r'.read d pick).1 ∧ Alike (r.read d pick).2 (r'.read d pick).2 := by
  rw [read_eq_finish, read_eq_finish, ← h.outcome]
  generalize run r.outcome d pick (4 * (d + p) + d + 1) (init (d + p) Bytes d) = s
  have hafter : ∀ i, readOf (r.readersAfter s i) = readOf (r'.readersAfter s i) := by
    intro i
    unfold ParallelReader.readersAfter
    split
    · rfl
    · rfl
    · exact h.readers i
  unfold ParallelReader.finish
  split_ifs
  · exact ⟨rfl, hafter, congrArg₂ (· + ·) h.offset h.nextSize, h.nextSize, h.shardFileSize⟩
  · exact ⟨rfl, hafter, h.offset, h.nextSize, h.shardFileSize⟩

theorem decodeLoop_congr (rs : ReedSolomon d p) (B offset length : Nat) (pick : Nat → Nat → Nat)
    {left block : Nat} (h : Alike r r') : decodeLoop rs B offset length pick left block r =
      decodeLoop rs B offset length pick left block r' := by
  induction left generalizing block r r' with
  | zero => rfl
  | succ left ih =>
    obtain ⟨hbufs, hnext⟩ := h.read (pick block)
    rcases hread : r.read d (pick block) with ⟨bufs, r₁⟩
    rcases hread' : r'.read d (pick block) with ⟨bufs', r₁'⟩
    rw [hread, hread'] at hbufs hnext
    obtain rfl : bufs = bufs' := hbufs
    have hrest : decodeLoop rs B offset length pick left (block + 1) r₁ =
        decodeLoop rs B offset length pick left (block + 1) r₁' := ih hnext
    cases bufs with
    | none => simp only [decodeLoop, hread, hread']
    | some bufs => simp only [decodeLoop, hread, hread', hrest]

theorem decode_congr (rs : ReedSolomon d p) (B : Nat) (pick : Nat → Nat → Nat)
    {readers readers' : Fin (d + p) → Option Disk}
    (h : ∀ i, readOf (readers i) = readOf (readers' i)) (offset length totalLength : Int) :
    decode rs B pick readers offset length totalLength = decode rs B pick readers' offset length
      totalLength := by
  have halike : Alike (newParallelReader d B readers offset.toNat totalLength.toNat)
      (newParallelReader d B readers' offset.toNat totalLength.toNat) := ⟨h, rfl, rfl, rfl⟩
  simp only [decode, decodeLoop_congr rs B offset.toNat length.toNat pick halike]

/-! ## Encoding for the writers -/

section Encode

variable {rs : ReedSolomon d p} {B quorum : Nat}

theorem writeAll_ok {n k : Nat} {writers : Writers n} (blocks : Fin n → Bytes)
    (hquorum : quorum ≤ tally fun i => (writers i).isSome = true) :
    writeAll (fun _ _ => false) quorum k writers blocks = .ok fun i =>
      (writers i).map (· ++ blocks i) := by
  unfold writeAll
  dsimp only
  rw [if_pos]
  · congr 1
    funext i
    cases writers i <;> rfl
  · refine hquorum.trans (tally_mono fun i hi => ?_)
    obtain ⟨file, hfile⟩ := Option.isSome_iff_exists.1 hi
    rw [hfile]
    rfl

theorem encodeLoop_ok (hB : 0 < B) {fuel k total : Nat} {data : Bytes} {writers : Writers (d + p)}
    (hfuel : data.length + 1 ≤ fuel) (hquorum : quorum ≤ tally fun i => (writers i).isSome = true) :
    encodeLoop rs B quorum (fun _ _ => false) fuel k total ⟨data, false⟩ writers =
      some (.ok (total + data.length, fun i => (writers i).map (· ++ shardFile rs B data i))) := by
  induction fuel generalizing k total data writers with
  | zero => omega
  | succ fuel ih =>
    rw [encodeLoop, Input.readFull]
    by_cases hfull : B ≤ data.length
    · have hne : data ≠ [] := List.length_pos_iff.1 (by omega)
      have hlen : (data.take B).length = B := by rw [List.length_take]; omega
      have hkept : quorum ≤ tally fun i =>
          ((writers i).map (· ++ encodeData rs (data.take B) i)).isSome = true := by
        simpa only [Option.isSome_map] using hquorum
      rw [if_pos hfull]
      simp only [hlen, hB.ne', false_and, if_false, writeAll_ok _ hquorum, Bool.false_eq_true]
      rw [ih (by rw [List.length_drop]; omega) hkept, List.length_drop]
      congr 3
      · omega
      · funext i
        rw [Option.map_map, shardFile_of_ne_nil hB hne]
        congr 1
        funext file
        exact List.append_assoc ..
    · have hlt : data.length < B := Nat.lt_of_not_le hfull
      rw [if_neg hfull]
      simp only [Bool.false_eq_true, if_false, writeAll_ok _ hquorum, if_true]
      split_ifs with hend
      · have hnil : data = [] := List.length_eq_zero_iff.1 hend.1
        subst hnil
        simp [shardFile]
      · simp only [shardFile_of_lt hB hlt]

theorem encode_ok (hB : 0 < B) (content : Bytes) {writers : Fin (d + p) → Bool}
    (hquorum : quorum ≤ tally fun i => writers i = true) :
    encode rs B quorum (fun _ _ => false) ⟨content, false⟩ writers =
      some (.ok (content.length, fun i => if writers i then some (shardFile rs B content i)
        else none)) := by
  have hfirst : quorum ≤ tally fun i => (if writers i then some []
      else none : Option Bytes).isSome = true :=
    hquorum.trans (tally_mono fun i hi => by rw [if_pos hi]; rfl)
  rw [encode, encodeLoop_ok hB (Nat.le_succ _) hfirst, Nat.zero_add]
  congr 3
  funext i
  split_ifs <;> rfl

theorem encodeLoop_failure (hB : 0 < B) {fuel k total : Nat} {data : Bytes}
    {writers : Writers (d + p)}
    (hfuel : data.length + 1 ≤ fuel) (hquorum : quorum ≤ tally fun i => (writers i).isSome = true) :
    encodeLoop rs B quorum (fun _ _ => false) fuel k total ⟨data, true⟩ writers =
      some (.error .source) := by
  induction fuel generalizing k total data writers with
  | zero => omega
  | succ fuel ih =>
    rw [encodeLoop, Input.readFull]
    by_cases hfull : B ≤ data.length
    · have hlen : (data.take B).length = B := by rw [List.length_take]; omega
      have hkept : quorum ≤ tally fun i =>
          ((writers i).map (· ++ encodeData rs (data.take B) i)).isSome = true := by
        simpa only [Option.isSome_map] using hquorum
      rw [if_pos hfull]
      simp only [hlen, hB.ne', false_and, if_false, writeAll_ok _ hquorum, Bool.false_eq_true]
      exact ih (by rw [List.length_drop]; omega) hkept
    · rw [if_neg hfull]
      rfl

theorem encode_failure (hB : 0 < B) (data : Bytes) {writers : Fin (d + p) → Bool}
    (hquorum : quorum ≤ tally fun i => writers i = true) :
    encode rs B quorum (fun _ _ => false) ⟨data, true⟩ writers = some (.error .source) :=
  encodeLoop_failure hB (Nat.le_succ _)
    (hquorum.trans (tally_mono fun i hi => by rw [if_pos hi]; rfl))

end Encode

/-! ## The law -/

section Heal

variable {rs : ReedSolomon d p} {B quorum total : Nat} {content : Bytes}
    {files : Fin (d + p) → Option Bytes}
  {readers : Fin (d + p) → Option Disk} {good : Finset (Fin (d + p))}

theorem tally_mem (good : Finset (Fin (d + p))) : (tally fun i => i ∈ good) = good.card := by
  rw [tally_eq_card, Finset.filter_mem_eq_inter, Finset.univ_inter]

/-- With enough working readers `Decode` gives the content. -/
theorem decode_of_works (hd : 0 < d) (hB : 0 < B) (hshards : ∀ i file, files i = some file →
    file = shardFile rs B content i)
    (hgood : ∀ i ∈ good, Works (files i) (readers i)) (hcard : d ≤ good.card)
    (hothers : ∀ i ∉ good, ∀ disk, readers i = some disk → files i = some disk.data ∨
      ∀ offset, disk.fails offset = true)
    (pick : Nat → Nat → Nat) : decode rs B pick readers 0 content.length content.length =
      (content, none) := by
  -- The readers without those that hold something else.
  let kept i := (readers i).filter fun disk => files i = some disk.data
  have hkept : ∀ i disk, readers i = some disk → files i = some disk.data → kept i = some disk := by
    intro i disk hi hfile
    simp only [kept, hi, Option.filter_some, hfile, decide_true, if_true]
  have hsame : ∀ i, readOf (readers i) = readOf (kept i) := by
    intro i
    cases hi : readers i with
    | none => simp only [kept, hi, Option.filter_none]
    | some disk =>
      by_cases hfile : files i = some disk.data
      · rw [hkept i disk hi hfile]
      · have hnone : kept i = none := by simp [kept, hi, hfile]
        rw [hnone]
        refine readOf_of_neverReads fun disk' hdisk' => ?_
        obtain rfl := Option.some.inj hdisk'
        have hnot : i ∉ good := by
          intro hmem
          obtain ⟨disk', hi', hfile', -⟩ := hgood i hmem
          rw [hi] at hi'
          obtain rfl := Option.some.inj hi'
          exact hfile hfile'
        exact (hothers i hnot disk hi).resolve_left hfile
  have hreadable : Readable rs B content goodᶜ kept := by
    refine ⟨fun i disk hi => ?_, fun i hi => ?_⟩
    · obtain ⟨-, hfile⟩ := Option.filter_eq_some_iff.1 hi
      exact hshards i _ (by simpa using hfile)
    · obtain ⟨disk, hdisk, hfile, halive⟩ := hgood i (by simpa using hi)
      exact ⟨disk, hkept i disk hdisk hfile, halive⟩
  have hbad : goodᶜ.card ≤ p := by
    rw [Finset.card_compl, Fintype.card_fin]
    omega
  have hdecode := decode_of_readable hd hB hreadable hbad pick
    (Nat.le_of_eq (Nat.zero_add content.length))
  rw [decode_congr rs B pick hsame]
  simpa using hdecode

/-- The blocks of the content in front of one that begins inside of it. -/
theorem blockRange_ne_zero (hB : 0 < B) {length block : Nat} (hblock : block * B < length) :
    (blockRange B 0 length block).2 ≠ 0 := by
  simp only [blockRange, Nat.zero_div, Nat.zero_mod, Nat.sub_zero, Nat.zero_add]
  split_ifs with hone hfirst hlast
  · exact (Nat.zero_lt_of_lt hblock).ne'
  · exact hB.ne'
  · intro hmod
    have hdiv := Nat.div_add_mod length B
    rw [show length % B = 0 from hmod, ← hlast, Nat.add_zero, Nat.mul_comm] at hdiv
    omega
  · exact hB.ne'

/-- What is left of the readers: some have been dropped, and each block moves the offset. -/
structure ReadersAt (readers : Fin (d + p) → Option Disk) (B length block : Nat)
    (r : ParallelReader (d + p)) : Prop where
  kept : ∀ i, r.readers i = none ∨ r.readers i = readers i
  offset : r.offset = block * shardSize d B
  size : r.shardSize = shardSize d B
  fileSize : r.shardFileSize = shardFileSize d B length

theorem ReadersAt.read (hB : 0 < B) {length block : Nat} (h : ReadersAt readers B length block r)
    (hblock : (block + 1) * B < length) {pick : Nat → Nat} {bufs : Fin (d + p) → Option Bytes}
    {r' : ParallelReader (d + p)}
    (hread : r.read d pick = (some bufs, r')) : ReadersAt readers B length (block + 1) r' := by
  have hsize : r.nextSize = shardSize d B := by
    have hfull : block + 1 ≤ length / B := (Nat.le_div_iff_mul_le hB).2 hblock.le
    have hle : (block + 1) * shardSize d B ≤ shardFileSize d B length := by
      rw [shardFileSize, if_neg (Nat.zero_lt_of_lt hblock).ne']
      exact (Nat.mul_le_mul_right _ hfull).trans (Nat.le_add_right _ _)
    rw [nextSize, h.offset, h.size, h.fileSize, if_neg]
    rw [Nat.add_mul, Nat.one_mul] at hle
    omega
  rw [read_eq_finish, ParallelReader.finish] at hread
  generalize run r.outcome d pick (4 * (d + p) + d + 1) (init (d + p) Bytes d) = s at hread
  by_cases hgot : d ≤ s.got
  · rw [if_pos hgot] at hread
    obtain ⟨-, rfl⟩ := Prod.mk.inj hread
    refine ⟨fun i => ?_, ?_, hsize, h.fileSize⟩
    · have hafter : r.readersAfter s i = none ∨ r.readersAfter s i = r.readers i := by
        unfold ParallelReader.readersAfter
        split
        · exact .inl rfl
        · exact .inl rfl
        · exact .inr rfl
      rcases hafter with hnone | hsame
      · exact .inl hnone
      · exact (h.kept i).imp hsame.trans hsame.trans
    · simp only [h.offset, hsize, Nat.add_mul, Nat.one_mul]
  · rw [if_neg hgot] at hread
    cases hread

/-- `Decode` does not get past a block that fewer than `d` readers can read. -/
theorem decodeLoop_error (rs : ReedSolomon d p) (hd : 0 < d) (hB : 0 < B)
    {length block left k : Nat} (hk : k * B < length) (hblock : block ≤ k)
    (hleft : k < block + left) {readable : Finset (Fin (d + p))} (hcard : readable.card < d)
    (hothers : ∀ i ∉ readable, ∀ disk, readers i = some disk →
      disk.fails (k * shardSize d B) = true)
    (pick : Nat → Nat → Nat) (h : ReadersAt readers B length block r) :
    ∃ written e, decodeLoop rs B 0 length pick left block r = (written, some e) := by
  induction left generalizing block r with
  | zero => omega
  | succ left ih =>
    have hrange := blockRange_ne_zero hB (lt_of_le_of_lt (Nat.mul_le_mul_right B hblock) hk)
    rcases hread : r.read d (pick block) with ⟨_ | bufs, r'⟩
    · exact ⟨[], .readQuorum, by simp only [decodeLoop, if_neg hrange, hread]⟩
    rcases hblock.eq_or_lt with rfl | hlt
    · -- no more than the readable ones can answer
      have hfew : r.good < d := by
        refine lt_of_le_of_lt ?_ hcard
        rw [← tally_mem]
        refine tally_mono fun i hi => ?_
        by_contra hnot
        obtain ⟨out, hout⟩ := Option.isSome_iff_exists.1 hi
        obtain ⟨disk, hdisk, hat⟩ := Option.bind_eq_some_iff.1 hout
        rcases h.kept i with hnone | hsome
        · rw [hnone] at hdisk
          cases hdisk
        · rw [Disk.readAt, h.offset, if_pos (hothers i hnot disk (hsome ▸ hdisk))] at hat
          cases hat
      obtain ⟨es, s, hexec, hfinished, hfin⟩ :=
        read_execution hd (Nat.le_add_right d p) r (pick block)
      have hgot : ¬ d ≤ s.got := fun h =>
        hfew.not_ge ((got_finish (Execution.inv hd (Nat.le_add_right d p) hexec).1 hfinished).1 h)
      rw [hread, ParallelReader.finish, if_neg hgot] at hfin
      cases hfin
    · simp only [decodeLoop, if_neg hrange, hread]
      cases decodeDataBlocks rs bufs with
      | none => exact ⟨[], _, rfl⟩
      | some bufs =>
        dsimp only
        split
        · exact ⟨[], _, rfl⟩
        · have hnext := h.read hB (lt_of_le_of_lt (Nat.mul_le_mul_right B hlt) hk) hread
          obtain ⟨written, e, hrest⟩ := ih hlt (by omega) hnext
          rw [hrest]
          exact ⟨_, e, rfl⟩

theorem decode_error (rs : ReedSolomon d p) (hd : 0 < d) (hB : 0 < B) {length k : Nat}
    (hk : k * B < length) {readable : Finset (Fin (d + p))} (hcard : readable.card < d)
    (hothers : ∀ i ∉ readable, ∀ disk, readers i = some disk →
      disk.fails (k * shardSize d B) = true)
    (pick : Nat → Nat → Nat) : ∃ written e, decode rs B pick readers 0 length length =
      (written, some e) := by
  have hstart : ReadersAt readers B length 0 (newParallelReader d B readers 0 length) :=
    ⟨fun i => .inr rfl, by simp [newParallelReader], rfl, rfl⟩
  have hleft : k < 0 + (length / B + 1) := by
    have := (Nat.le_div_iff_mul_le hB).2 hk.le
    omega
  obtain ⟨written, e, hloop⟩ :=
    decodeLoop_error rs hd hB hk (Nat.zero_le k) hleft hcard hothers pick hstart
  refine ⟨written, e, ?_⟩
  rw [decode, if_neg (by omega), if_neg (by omega), if_neg (by omega)]
  simp only [Int.toNat_natCast, Int.toNat_zero, Nat.zero_div, Nat.sub_zero, Nat.zero_add, hloop]

/-- Healing from at least `d` working readers writes the shard files of the original `Encode`. If
some block can be read by fewer than `d` readers, whatever they hold and wherever else they fail, it
ends with an error. -/
theorem healing (hd : 1 ≤ d) (hB : 1 ≤ B) {fails : Fin (d + p) → Nat → Bool}
    {encoded : Fin (d + p) → Bool}
    (hencode : encode rs B quorum fails ⟨content, false⟩ encoded = some (.ok (total, files)))
    (hgood : ∀ i ∈ good, Works (files i) (readers i)) (pick : Nat → Nat → Nat)
    {writers : Fin (d + p) → Bool} (hwriters : ∃ i, writers i = true) :
    (d ≤ good.card →
      (∀ i ∉ good, ∀ disk, readers i = some disk → files i = some disk.data ∨
        ∀ offset, disk.fails offset = true) →
      ∃ healed, heal rs B pick readers writers (fun _ _ => false) content.length =
        some (.ok healed) ∧
        ∀ i, writers i = true → healed i = some (shardFile rs B content i) ∧
          ∀ file, files i = some file → healed i = some file) ∧
      ∀ (readable : Finset (Fin (d + p))) (k : Nat), readable.card < d → k * B < content.length →
        (∀ i ∉ readable, ∀ disk, readers i = some disk → disk.fails (k * shardSize d B) = true) →
        ∃ e, heal rs B pick readers writers (fun _ _ => false) content.length =
          some (.error e) := by
  obtain ⟨-, hshards⟩ := encode_files hB hencode
  constructor
  · intro hcard hothers
    have hagain : encode rs B 1 (fun _ _ => false) ⟨content, false⟩ writers =
        some (.ok (content.length, _)) :=
      encode_ok hB content (tally_pos.2 hwriters)
    refine ⟨fun i => if writers i then some (shardFile rs B content i) else none, ?_,
      fun i hi => ?_⟩
    · simp only [heal, decode_of_works hd hB hshards hgood hcard hothers pick, Option.isSome_none,
        hagain, ne_eq, not_true_eq_false, if_false]
    · simp only [if_pos hi, true_and]
      exact fun file hfile => congrArg some (hshards i file hfile).symm
  · intro readable k hcard hk hothers
    obtain ⟨written, e, hdecode⟩ := decode_error rs hd hB hk hcard hothers pick
    exact ⟨e, by simp only [heal, hdecode, Option.isSome_some,
      encode_failure hB written (tally_pos.2 hwriters), Option.getD_some]⟩

end Heal

/-- Two copies of a file, both with a rotten second block. -/
def secondBlockRotten (data : Bytes) : Fin 2 → Option Disk :=
  fun _ => some ⟨data, fun offset => offset = 2⟩

/-- The first shard file of `hello` is healed from the second; with the second block rotten on both
disks healing fails. -/
theorem healing_mirror : ∃ files,
    encode mirror 2 1 (fun _ _ => false) ⟨lit "hello", false⟩ (fun _ => true) =
      some (.ok (5, files)) ∧
      (∃ healed, heal mirror 2 (fun _ _ => 0) (secondOnly (lit "hello")) (fun i => i =
        0) (fun _ _ => false) 5 =
        some (.ok healed) ∧ healed 0 = some (lit "hello")) ∧
      ∃ e, heal mirror 2 (fun _ _ => 0) (secondBlockRotten (lit "hello")) (fun i => i =
        0) (fun _ _ => false) 5 =
        some (.error e) := by
  obtain ⟨files, hencode, hzero, hone⟩ : ∃ files, encode mirror 2 1 (fun _ _ => false) ⟨lit "hello",
    false⟩ (fun _ => true) =
      some (.ok (5, files)) ∧ files 0 = some (lit "hello") ∧ files 1 = some (lit "hello") :=
        ⟨_, rfl, rfl, rfl⟩
  have hworks : ∀ i ∈ ({1} : Finset (Fin 2)), Works (files i) (secondOnly (lit "hello") i) := by
    intro i hi
    rw [Finset.mem_singleton.1 hi]
    exact ⟨_, rfl, hone, fun _ => rfl⟩
  have hwriters : ∃ i : Fin 2, decide (i = 0) = true := ⟨0, rfl⟩
  have hothers : ∀ i ∉ ({1} : Finset (Fin 2)), secondOnly (lit "hello") i = none := fun i hi =>
    if_neg fun heq => hi (Finset.mem_singleton.2 heq)
  obtain ⟨healed, hheal, hfiles⟩ :=
    (healing le_rfl (by decide) hencode hworks (fun _ _ => 0) hwriters).1 (by decide)
    fun i hi disk hdisk => by rw [hothers i hi] at hdisk; cases hdisk
  have hnone : ∀ i ∈ (∅ : Finset (Fin 2)), Works (files i) (secondBlockRotten (lit "hello") i) :=
    fun i hi =>
    absurd hi (Finset.notMem_empty i)
  refine ⟨files, hencode, ⟨healed, hheal, (hfiles 0 rfl).2 _ hzero⟩, ?_⟩
  refine (healing le_rfl (by decide) hencode hnone (fun _ _ => 0) hwriters).2 ∅ 1 (by decide)
    (by decide +kernel) ?_
  intro i _ disk hdisk
  obtain rfl := Option.some.inj hdisk
  rfl

end S3Kinetic.Erasure
