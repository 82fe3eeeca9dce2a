import S3Kinetic.Lib.Blocks
import S3Kinetic.Lib.Quorum
import S3Kinetic.Lib.ByteString

/-!
# Erasure-coded files

An object is cut into blocks, every block into data shards, and parity shards are added to them. The
i-th shard file has the i-th shards of all blocks. What is used of the Reed-Solomon code is a
structure: `Split` pads to equal shards, parity shards have the length of the others, and the data
shards come back from any `d` of the shards.

`encode_files`: whatever the writers do, a shard file whose writer has not failed is the one of the
whole input.
-/

namespace S3Kinetic.Erasure

open ByteString Blocks Quorum List

variable {d p n : Nat}

/-- `ceilFrac`, for sizes. -/
def ceilFrac (numerator denominator : Nat) : Nat :=
  if denominator = 0 then 0
  else if 0 < numerator ∧ numerator % denominator ≠ 0 then numerator / denominator + 1
  else numerator / denominator

/-- The encoder for `d` data and `p` parity shards. -/
structure ReedSolomon (d p : Nat) where
  split : Bytes → Fin d → Bytes
  encode : (Fin d → Bytes) → Fin p → Bytes
  reconstructData : (Fin (d + p) → Option Bytes) → Option (Fin (d + p) → Option Bytes)
  length_split : ∀ data, data ≠ [] → ∀ i, (split data i).length = ceilFrac data.length d
  take_split : ∀ data, data ≠ [] → (List.ofFn (split data)).flatten.take data.length = data
  length_encode : ∀ shards L, (∀ i, (shards i).length = L) → ∀ j, (encode shards j).length = L
  reconstructs : ∀ (shards : Fin d → Bytes) (bufs : Fin (d + p) → Option Bytes),
    (∀ i b, bufs i = some b → b = Fin.append shards (encode shards) i) →
    (d ≤ tally fun i => (bufs i).isSome = true) →
    ∃ out, reconstructData bufs = some out ∧ ∀ i, out (Fin.castAdd p i) = some (shards i)

def encodeData (rs : ReedSolomon d p) (data : Bytes) : Fin (d + p) → Bytes :=
  if data = [] then fun _ => [] else Fin.append (rs.split data) (rs.encode (rs.split data))

def shardSize (d B : Nat) : Nat := ceilFrac B d

def shardFileSize (d B totalLength : Nat) : Nat :=
  if totalLength = 0 then 0 else totalLength / B * shardSize d B + ceilFrac (totalLength % B) d

/-! ## Writing -/

inductive WriteErr where
  | diskNotFound
  | failed
  deriving DecidableEq

inductive Err where
  /-- The reader of the input has failed. -/
  | source
  | writeQuorum (errs : List (Option WriteErr))
  | invalidArgument
  | readQuorum
  | reconstruct
  | tooFewShards
  | shortData
  | lessData
  deriving DecidableEq

structure Input where
  data : Bytes
  failure : Bool

/-- `io.ReadFull` into a buffer of `n` bytes: what was read, whether the data ended, and what is
left. -/
def Input.readFull (input : Input) (n : Nat) : Except Err (Bytes × Bool × Input) :=
  if n ≤ input.data.length then .ok (input.data.take n, false,
    { input with data := input.data.drop n })
  else if input.failure then .error .source
  else .ok (input.data, true, { input with data := [] })

abbrev Writers (n : Nat) := Fin n → Option Bytes

/-- `parallelWriter.Write`; `fails i k` says that the k-th write of a writer fails. -/
def writeAll (fails : Fin n → Nat → Bool) (writeQuorum k : Nat) (writers : Writers n)
    (blocks : Fin n → Bytes) :
    Except Err (Writers n) :=
  let errs i : Option WriteErr :=
    match writers i with
    | none => some .diskNotFound
    | some _ => if fails i k then some .failed else none
  let writers i := (writers i).bind fun file => if fails i k then none else some (file ++ blocks i)
  if writeQuorum ≤ tally fun i => (errs i).isNone = true then .ok writers
    else .error (.writeQuorum (List.ofFn errs))

/-- The loop of `Encode`, with the number of rounds made; there is no result when `fuel` runs
out. -/
def encodeLoop (rs : ReedSolomon d p) (B quorum : Nat) (fails : Fin (d + p) → Nat → Bool) :
    Nat → Nat → Nat → Input → Writers (d + p) → Option (Except Err (Nat × Writers (d + p)))
  | 0, _, _, _, _ => none
  | fuel + 1, k, total, input, writers =>
    match input.readFull B with
    | .error e => some (.error e)
    | .ok (buf, eof, input) =>
      if buf.length = 0 ∧ total ≠ 0 then some (.ok (total, writers))
      else
        match writeAll fails quorum k writers (encodeData rs buf) with
        | .error e => some (.error e)
        | .ok writers =>
          if eof then some (.ok (total + buf.length, writers))
          else encodeLoop rs B quorum fails fuel (k + 1) (total + buf.length) input writers

/-- `Encode` into new files; the rounds are as many as the input can need. -/
def encode (rs : ReedSolomon d p) (B quorum : Nat) (fails : Fin (d + p) → Nat → Bool)
    (input : Input) (writers : Fin (d + p) → Bool) : Option (Except Err (Nat × Writers (d + p))) :=
  encodeLoop rs B quorum fails (input.data.length + 2) 0 0 input fun i => if writers i then some []
    else none

def shardFile (rs : ReedSolomon d p) (B : Nat) (content : Bytes) (i : Fin (d + p)) : Bytes :=
  (blocks B content).flatMap fun block => encodeData rs block i

section Encode

variable {rs : ReedSolomon d p} {B quorum : Nat} {fails : Fin (d + p) → Nat → Bool}

theorem writeAll_eq_some {k : Nat} {writers writers' : Writers n} {fails : Fin n → Nat → Bool}
    {blocks : Fin n → Bytes}
    (h : writeAll fails quorum k writers blocks = .ok writers') {i : Fin n} {file : Bytes}
    (hi : writers' i = some file) :
    ∃ file₀, writers i = some file₀ ∧ file = file₀ ++ blocks i := by
  unfold writeAll at h
  dsimp only at h
  split_ifs at h
  cases h
  obtain ⟨file₀, hfile₀, hfile⟩ := Option.bind_eq_some_iff.1 hi
  split_ifs at hfile
  exact ⟨file₀, hfile₀, (Option.some.inj hfile).symm⟩

theorem encodeData_nil (rs : ReedSolomon d p) (i : Fin (d + p)) :
    encodeData rs [] i = [] := by simp [encodeData]

theorem shardFile_of_ne_nil (hB : 0 < B) {content : Bytes} (h : content ≠ []) (i : Fin (d + p)) :
    shardFile rs B content i = encodeData rs (content.take B) i ++
      shardFile rs B (content.drop B) i := by
  rw [shardFile, blocks_of_ne_nil hB h, flatMap_cons]
  rfl

theorem shardFile_of_lt (hB : 0 < B) {content : Bytes} (h : content.length < B) (i : Fin (d + p)) :
    shardFile rs B content i = encodeData rs content i := by
  by_cases hnil : content = []
  · rw [hnil, encodeData_nil]
    rfl
  · rw [shardFile_of_ne_nil hB hnil, take_of_length_le h.le, drop_of_length_le h.le]
    exact append_nil _

/-- The rounds of `Encode` append the shard files of the rest of the input. -/
theorem encodeLoop_files (hB : 0 < B) {fuel k total total' : Nat} {data : Bytes} {failure : Bool}
    {writers writers' : Writers (d + p)}
    (h : encodeLoop rs B quorum fails fuel k total ⟨data, failure⟩ writers =
      some (.ok (total', writers'))) :
    total' = total + data.length ∧ ∀ i file, writers' i = some file →
      ∃ file₀, writers i = some file₀ ∧ file = file₀ ++ shardFile rs B data i := by
  induction fuel generalizing k total data writers with
  | zero => simp [encodeLoop] at h
  | succ fuel ih =>
    rw [encodeLoop, Input.readFull] at h
    by_cases hfull : B ≤ data.length
    · have hne : data ≠ [] := length_pos_iff.1 (by omega)
      have hlen : (data.take B).length = B := by rw [length_take]; omega
      rw [if_pos hfull] at h
      simp only [hlen, hB.ne', false_and, if_false] at h
      cases hwrite : writeAll fails quorum k writers (encodeData rs (data.take B)) with
      | error e => simp [hwrite] at h
      | ok writers₁ =>
        simp only [hwrite, Bool.false_eq_true, if_false] at h
        obtain ⟨htotal, hfiles⟩ := ih h
        refine ⟨by rw [htotal, length_drop]; omega, fun i file hi => ?_⟩
        obtain ⟨file₁, h₁, rfl⟩ := hfiles i file hi
        obtain ⟨file₀, h₀, rfl⟩ := writeAll_eq_some hwrite h₁
        exact ⟨file₀, h₀, by rw [shardFile_of_ne_nil hB hne, append_assoc]⟩
    · have hlt : data.length < B := Nat.lt_of_not_le hfull
      rw [if_neg hfull] at h
      cases failure with
      | true => simp at h
      | false =>
        simp only [Bool.false_eq_true, if_false] at h
        split_ifs at h with hend
        · cases h
          have hnil : data = [] := length_eq_zero_iff.1 hend.1
          exact ⟨by simp [hnil], fun i file hi => ⟨file, hi, by simp [hnil, shardFile]⟩⟩
        · cases hwrite : writeAll fails quorum k writers (encodeData rs data) with
          | error e => simp [hwrite] at h
          | ok writers₁ =>
            simp only [hwrite, Option.some.injEq, Except.ok.injEq, Prod.mk.injEq] at h
            obtain ⟨rfl, rfl⟩ := h
            refine ⟨rfl, fun i file hi => ?_⟩
            rw [shardFile_of_lt hB hlt]
            exact writeAll_eq_some hwrite hi

theorem encode_files (hB : 0 < B) {input : Input} {writers : Fin (d + p) → Bool} {total : Nat}
    {files : Writers (d + p)}
    (h : encode rs B quorum fails input writers = some (.ok (total, files))) :
    total = input.data.length ∧ ∀ i file, files i = some file →
      file = shardFile rs B input.data i := by
  obtain ⟨htotal, hfiles⟩ := encodeLoop_files hB h
  refine ⟨by rw [htotal, Nat.zero_add], fun i file hi => ?_⟩
  obtain ⟨file₀, h₀, rfl⟩ := hfiles i file hi
  split_ifs at h₀
  cases h₀
  rfl

/-! ## Sizes -/

theorem ceilFrac_eq (hd : 0 < d) (m : Nat) : ceilFrac m d = (m + d - 1) / d := by
  have hmod := Nat.div_add_mod m d
  have hlt := Nat.mod_lt m hd
  rw [ceilFrac, if_neg hd.ne']
  split_ifs with h
  · refine (Nat.div_eq_of_lt_le ?_ ?_).symm
    · rw [Nat.add_mul, Nat.one_mul, Nat.mul_comm]
      omega
    · rw [Nat.add_mul, Nat.add_mul, Nat.one_mul, Nat.mul_comm]
      omega
  · have hzero : m % d = 0 := by
      by_contra hne
      exact h ⟨Nat.pos_of_ne_zero fun h0 => hne (by rw [h0, Nat.zero_mod]), hne⟩
    refine (Nat.div_eq_of_lt_le ?_ ?_).symm
    · rw [Nat.mul_comm]
      omega
    · rw [Nat.add_mul, Nat.one_mul, Nat.mul_comm]
      omega

theorem ceilFrac_mono (hd : 0 < d) {m m' : Nat} (h : m ≤ m') : ceilFrac m d ≤ ceilFrac m' d := by
  rw [ceilFrac_eq hd, ceilFrac_eq hd]
  exact Nat.div_le_div_right (by omega)

theorem length_encodeData (rs : ReedSolomon d p) (data : Bytes) (i : Fin (d + p)) :
    (encodeData rs data i).length = ceilFrac data.length d := by
  by_cases hnil : data = []
  · simp [hnil, encodeData_nil, ceilFrac]
  · rw [encodeData, if_neg hnil]
    have hsplit := rs.length_split data hnil
    refine Fin.addCases (fun j => ?_) (fun j => ?_) i
    · rw [Fin.append_left, hsplit]
    · rw [Fin.append_right, rs.length_encode _ _ hsplit]

theorem shardFileSize_of_lt {m : Nat} (h : m < B) : shardFileSize d B m = ceilFrac m d := by
  unfold shardFileSize
  split_ifs with hm
  · simp [hm, ceilFrac]
  · rw [Nat.div_eq_of_lt h, Nat.mod_eq_of_lt h, Nat.zero_mul, Nat.zero_add]

theorem shardFileSize_add (hB : 0 < B) (m : Nat) :
    shardFileSize d B (B + m) = shardSize d B + shardFileSize d B m := by
  have hzero : ceilFrac 0 d = 0 := by simp [ceilFrac]
  unfold shardFileSize
  rw [if_neg (by omega), Nat.add_div_left m hB, Nat.add_mod_left, Nat.succ_mul]
  split_ifs with hm
  · rw [hm, Nat.zero_div, Nat.zero_mod, hzero, Nat.zero_mul, Nat.zero_add]
  · omega

theorem length_shardFile (hB : 0 < B) (content : Bytes) (i : Fin (d + p)) :
    (shardFile rs B content i).length = shardFileSize d B content.length := by
  induction content using block_induction hB with
  | nil => rfl
  | step content hne ih =>
    by_cases hlt : content.length < B
    · rw [shardFile_of_lt hB hlt, length_encodeData, shardFileSize_of_lt hlt]
    · have hlen : (content.take B).length = B := by rw [length_take]; omega
      have hsum : content.length = B + (content.drop B).length := by rw [length_drop]; omega
      rw [shardFile_of_ne_nil hB hne, length_append, ih, length_encodeData, hlen, hsum,
        shardFileSize_add hB]
      rfl

theorem shardFile_drop (hB : 0 < B) {content : Bytes} {k : Nat} (hk : k * B ≤ content.length)
    (i : Fin (d + p)) :
    (shardFile rs B content i).drop (k * shardSize d B) = shardFile rs B (content.drop (k * B)) i :=
  flatMap_drop hB (fun b hb => by rw [length_encodeData, hb, shardSize]) hk

theorem shardFileSize_drop (hB : 0 < B) {k m : Nat} (hk : k * B ≤ m) :
    shardFileSize d B m = k * shardSize d B + shardFileSize d B (m - k * B) := by
  induction k generalizing m with
  | zero => simp
  | succ k ih =>
    rw [Nat.succ_mul] at hk
    have hm : m = B + (m - B) := by omega
    rw [hm, shardFileSize_add hB, ih (by omega), Nat.succ_mul, Nat.succ_mul]
    have hsub : m - B - k * B = B + (m - B) - (k * B + B) := by omega
    rw [hsub]
    omega

end Encode

end S3Kinetic.Erasure
