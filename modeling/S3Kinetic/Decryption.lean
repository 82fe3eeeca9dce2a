import S3Kinetic.Lib.ByteString
import S3Kinetic.Lib.Blocks
import S3Kinetic.Lib.Delivery

/-!
# Reading encrypted multipart objects

Every part of an encrypted multipart object is a stream of its own, under a key derived from its
number. `DecryptBlocksReader` reads the parts one after the other. A call whose buffer reaches past
the end of a part goes on with the next part, once, and reports a full buffer. A call after the end
panics. `reads_deliver_iff` says for which buffers that is right: none may reach past the end of the
next part as well, and the one that reaches the end of the object is the last.
-/

namespace S3Kinetic.Decryption

open ByteString Blocks Delivery List

inductive Err where
  | eof | unexpectedEOF | errInvalidCustomerKey
  /-- An error of the key management. -/
  | crypto (text : Bytes)
  /-- An index or a slice out of range. -/
  | panic
  /-- A loop that goes on without end. -/
  | spin
  deriving DecidableEq

def sseDAREPackageBlockSize : Nat := 64 * 1024

def sseDAREPackageMetaSize : Nat := 32

def onePkgSize : Nat := sseDAREPackageBlockSize + sseDAREPackageMetaSize

/-- What a call of a decrypting reader does: the bytes it writes, its error, how many bytes of its
source it takes, and the reader after it. -/
structure SioRead (σ : Type) where
  filled : Bytes
  err : Option Err
  consumed : Nat
  state : σ

/-- The encryption library. `Yields s src plain` says that a reader in state `s` with `src` ahead in
its source has `plain` ahead of it: its calls fill their buffers unless the stream ends. -/
structure Sio where
  State : Type
  encrypt : Bytes → Bytes → Bytes
  decryptReader : Bytes → UInt32 → Option State
  read : State → Bytes → Nat → SioRead State
  Yields : State → Bytes → Bytes → Prop
  length_encrypt : ∀ key plain, (encrypt key plain).length =
    framedLength sseDAREPackageBlockSize sseDAREPackageMetaSize plain.length
  opens : ∀ key plain (seq : UInt32), key.length = 32 → seq.toNat * sseDAREPackageBlockSize ≤
    plain.length →
    ∃ s, decryptReader key seq = some s ∧
      Yields s ((encrypt key plain).drop (seq.toNat * onePkgSize))
        (plain.drop (seq.toNat * sseDAREPackageBlockSize))
  yields : ∀ s src plain n, Yields s src plain →
    (read s src n).filled = plain.take n ∧ (read s src n).consumed ≤ src.length ∧
      Yields (read s src n).state (src.drop (read s src n).consumed) (plain.drop n)
  fills : ∀ s src plain n, Yields s src plain → n ≤ plain.length → (read s src n).err = none
  ends : ∀ s src plain n, Yields s src plain → (read s src n).err = none ∨
    (read s src n).err = some .eof
  ended : ∀ s src n, Yields s src [] → 0 < n → (read s src n).err = some .eof
  drained : ∀ s src, Yields s src [] → src = []

/-- `sio.DecryptedSize`, whose error is ignored. -/
def decryptedSize (size : Nat) : Nat :=
  unframedLength sseDAREPackageBlockSize sseDAREPackageMetaSize size

/-- Where the keys of an object come from. -/
structure Keys where
  copySource : Bool
  /-- `crypto.SSEC.IsEncrypted` of the object's metadata. -/
  ssec : Bool
  customerKeyHeader : Bytes
  /-- The two parsers of a header that holds the given customer key. -/
  parseSSECopyCustomerRequest : Bytes → Except Err Bytes
  parseSSECustomerHeader : Bytes → Except Err Bytes
  decryptObjectInfo : Bytes → Except Err Bytes
  hmac : Bytes → Bytes → Bytes
  length_hmac : ∀ key text, (hmac key text).length = 32

def Keys.objectEncryptionKey (keys : Keys) : Except Err Bytes := do
  let key ←
    if keys.copySource then
      if keys.ssec then keys.parseSSECopyCustomerRequest keys.customerKeyHeader else .ok []
    else if keys.ssec then keys.parseSSECustomerHeader keys.customerKeyHeader
    else .ok []
  keys.decryptObjectInfo key

/-- `binary.LittleEndian.PutUint32`. -/
def putUint32 (n : UInt32) : Bytes :=
  [n.toUInt8, (n >>> 8).toUInt8, (n >>> 16).toUInt8, (n >>> 24).toUInt8]

def Keys.partEncryptionKey (keys : Keys) (objectEncryptionKey : Bytes) (partID : Nat) : Bytes :=
  keys.hmac objectEncryptionKey (putUint32 (UInt32.ofNat partID))

structure ObjectPartInfo where
  number : Nat
  size : Nat

/-- A decrypter over a reader that is limited to `left` bytes. -/
structure Decrypter (sio : Sio) where
  state : sio.State
  left : Int

structure DecryptBlocksReader (sio : Sio) where
  reader : Bytes
  decrypter : Option (Decrypter sio)
  startSeqNum : UInt32
  partIndex : Nat
  parts : List ObjectPartInfo
  partDecRelOffset : Int
  partEncRelOffset : Int

namespace DecryptBlocksReader

variable {sio : Sio}

def buildDecrypter (keys : Keys) (d : DecryptBlocksReader sio) (partID : Nat) :
    Except Err (DecryptBlocksReader sio) := do
  let objectEncryptionKey ← keys.objectEncryptionKey
  let partEncryptionKey := keys.partEncryptionKey objectEncryptionKey partID
  match d.parts[d.partIndex]? with
  | none => .error .panic
  | some part =>
    let encLenToRead := part.size - d.partEncRelOffset
    match sio.decryptReader partEncryptionKey d.startSeqNum with
    | none => .error .errInvalidCustomerKey
    | some s => .ok { d with decrypter := some ⟨s, encLenToRead⟩ }

/-- A call of the decrypter, which reads on in the reader. -/
def readDecrypter (d : DecryptBlocksReader sio) (n : Nat) :
    Bytes × Option Err × DecryptBlocksReader sio :=
  match d.decrypter with
  | none => ([], some .panic, d)
  | some dec =>
    let r := sio.read dec.state (d.reader.take dec.left.toNat) n
    (r.filled, r.err,
      { d with
        reader := d.reader.drop r.consumed
        decrypter := some ⟨r.state, dec.left - r.consumed⟩ })

/-- `io.ReadFull` of the decrypter into a buffer of `n` bytes. -/
def readFull (n : Nat) : Nat → DecryptBlocksReader sio → Bytes → Bytes × Option Err ×
    DecryptBlocksReader sio
  | calls, d, buf =>
    if n ≤ buf.length then (buf, none, d)
    else
      match calls with
      | 0 => (buf, some .spin, d)
      | calls + 1 =>
        match d.readDecrypter (n - buf.length) with
        | (filled, none, d) => readFull n calls d (buf ++ filled)
        | (filled, some e, d) =>
          if n ≤ (buf ++ filled).length then (buf ++ filled, none, d)
          else if e = .eof ∧ buf ++ filled ≠ [] then (buf ++ filled, some .unexpectedEOF, d)
          else (buf ++ filled, some e, d)

/-- `Read` into a buffer of `len` bytes. -/
def read (keys : Keys) (d : DecryptBlocksReader sio) (len : Nat) :
    ReadOut UInt8 Err × DecryptBlocksReader sio :=
  match d.parts[d.partIndex]? with
  | none => (⟨[], 0, some .panic⟩, d)
  | some part =>
    let unreadPartLen : Int := decryptedSize part.size - d.partDecRelOffset
    if (len : Int) < unreadPartLen then
      match d.readDecrypter len with
      | (filled, some e, d) => (⟨filled, 0, some e⟩, d)
      | (filled, none, d) =>
        (⟨filled, len, none⟩, { d with partDecRelOffset := d.partDecRelOffset + filled.length })
    else if unreadPartLen < 0 then (⟨[], 0, some .panic⟩, d)
    else
      match d.readFull unreadPartLen.toNat (unreadPartLen.toNat + 1) [] with
      | (filled, some e, d) => (⟨filled, 0, some e⟩, d)
      | (filled, none, d) =>
        let d := { d with
          partEncRelOffset := 0, partDecRelOffset := 0, startSeqNum := 0
          partIndex := d.partIndex + 1 }
        match d.parts[d.partIndex]? with
        | none => (⟨filled, filled.length, some .eof⟩, d)
        | some next =>
          match d.buildDecrypter keys next.number with
          | .error e => (⟨filled, 0, some e⟩, d)
          | .ok d =>
            match d.readDecrypter (len - filled.length) with
            | (filled', some e, d) => (⟨filled ++ filled', 0, some e⟩, d)
            | (filled', none, d) =>
              -- the length of the buffer is returned, whatever was read
              (⟨filled ++ filled', len, none⟩,
                { d with partDecRelOffset := d.partDecRelOffset + filled'.length })

def reads (keys : Keys) (d : DecryptBlocksReader sio) (lens : List Nat) :
    List (ReadOut UInt8 Err) :=
  calls (DecryptBlocksReader.read keys) d lens

end DecryptBlocksReader

/-- `DecryptBlocksRequestR` for a multipart object. -/
def decryptBlocksRequestR (sio : Sio) (keys : Keys) (inputReader : Bytes) (seqNumber : UInt32)
    (partStart : Nat) (parts : List ObjectPartInfo) : Except Err (DecryptBlocksReader sio) :=
  let w : DecryptBlocksReader sio :=
    { reader := inputReader
      decrypter := none
      startSeqNum := seqNumber
      partIndex := partStart
      parts := parts
      partDecRelOffset := seqNumber.toNat * sseDAREPackageBlockSize
      partEncRelOffset := seqNumber.toNat * onePkgSize }
  match w.parts[w.partIndex]? with
  | none => .error .panic
  | some part => w.buildDecrypter keys part.number

/-! ## What the reader is for -/

structure Part where
  number : Nat
  plain : Bytes

def Part.encrypted (sio : Sio) (keys : Keys) (objectKey : Bytes) (p : Part) : Bytes :=
  sio.encrypt (keys.partEncryptionKey objectKey p.number) p.plain

def Part.info (sio : Sio) (keys : Keys) (objectKey : Bytes) (p : Part) : ObjectPartInfo :=
  ⟨p.number, (p.encrypted sio keys objectKey).length⟩

/-- No buffer reaches past the part after the current one, and no call comes after the one that
reaches the end of the last part; `unread` is what is left of the current part. When only empty
parts are left, no harm is done. -/
def Fits : Nat → List Nat → List Nat → Prop
  | _, _, [] => True
  | unread, later, len :: lens =>
    if len < unread then Fits (unread - len) later lens
    else
      match later with
      | [] => lens = []
      | next :: later =>
        if len - unread ≤ next then Fits (next - (len - unread)) later lens
        else (unread = 0 ∧ next = 0 ∧ ∀ size ∈ later, size = 0) ∧ Fits 0 later lens

/-! ## Calls of the decrypter -/

section Steps

variable {sio : Sio} {keys : Keys} {objectKey : Bytes} {d : DecryptBlocksReader sio}

theorem blockSize_pos : 0 < sseDAREPackageBlockSize := by decide

theorem decryptedSize_encrypted (p : Part) : decryptedSize (p.encrypted sio keys objectKey).length =
    p.plain.length := by
  rw [Part.encrypted, sio.length_encrypt]
  exact unframedLength_framedLength blockSize_pos

/-- The decrypter has `rest` ahead, and after its part the reader has `later`. -/
def Ahead (d : DecryptBlocksReader sio) (rest later : Bytes) : Prop :=
  ∃ dec src, d.decrypter = some dec ∧ d.reader = src ++ later ∧ dec.left = src.length ∧
    sio.Yields dec.state src rest

def SamePosition (d d' : DecryptBlocksReader sio) : Prop :=
  d' = { d with reader := d'.reader, decrypter := d'.decrypter }

variable {rest later : Bytes}

theorem Ahead.reader_eq (h : Ahead d [] later) : d.reader = later := by
  obtain ⟨dec, src, -, hreader, -, hyields⟩ := h
  rw [hreader, sio.drained _ _ hyields, nil_append]

theorem Ahead.readDecrypter (h : Ahead d rest later) (n : Nat) :
    ∃ err d', d.readDecrypter n = (rest.take n, err, d') ∧ Ahead d' (rest.drop n) later ∧
      SamePosition d d' ∧
      (n ≤ rest.length → err = none) ∧ (err = none ∨ err = some .eof) ∧
        (rest = [] → 0 < n → err = some .eof) := by
  obtain ⟨dec, src, hdec, hreader, hleft, hyields⟩ := h
  have hview : d.reader.take dec.left.toNat = src := by
    rw [hreader, hleft, Int.toNat_natCast, take_left]
  obtain ⟨hfilled, hcons, hnext⟩ := sio.yields _ _ _ n hyields
  have hread : d.readDecrypter n = (rest.take n, (sio.read dec.state src n).err, { d with
      reader := d.reader.drop (sio.read dec.state src n).consumed
      decrypter := some ⟨(sio.read dec.state src n).state,
          dec.left - (sio.read dec.state src n).consumed⟩ }) := by
    simp only [DecryptBlocksReader.readDecrypter, hdec, hview, hfilled]
  refine ⟨_, _, hread, ?_, rfl, sio.fills _ _ _ n hyields, sio.ends _ _ _ n hyields, ?_⟩
  · refine ⟨_, src.drop (sio.read dec.state src n).consumed, rfl, ?_, ?_, hnext⟩
    · rw [hreader, drop_append_of_le_length hcons]
    · rw [hleft, length_drop, Int.ofNat_sub hcons]
  · rintro rfl hn
    exact sio.ended _ _ n hyields hn

theorem Ahead.readFull (h : Ahead d rest later) {n : Nat} (hn : n ≤ rest.length) (calls : Nat) :
    ∃ d', d.readFull n (calls + 1) [] = (rest.take n, none, d') ∧ Ahead d' (rest.drop n) later ∧
      SamePosition d d' := by
  rcases Nat.eq_zero_or_pos n with rfl | hpos
  · exact ⟨d, by simp [DecryptBlocksReader.readFull], by simpa using h, rfl⟩
  obtain ⟨err, d', hread, hahead, hsame, hfull, -, -⟩ := h.readDecrypter n
  refine ⟨d', ?_, hahead, hsame⟩
  have hlen : n ≤ (rest.take n).length := by rw [length_take]; omega
  rw [hfull hn] at hread
  rw [DecryptBlocksReader.readFull, if_neg (by simp; omega)]
  simp only [length_nil, Nat.sub_zero, hread, nil_append]
  rw [DecryptBlocksReader.readFull.eq_def]
  exact if_pos hlen

/-- A decrypter for a part the reader stands in, `seq` packages after its start. -/
theorem ahead_buildDecrypter (hkey : keys.objectEncryptionKey = .ok objectKey) {p : Part}
    (hpart : d.parts[d.partIndex]? = some (p.info sio keys objectKey)) {seq : UInt32}
    (hseq : d.startSeqNum = seq) (hoff : d.partEncRelOffset = seq.toNat * onePkgSize)
    (hin : seq.toNat * sseDAREPackageBlockSize ≤ p.plain.length)
    (hreader : d.reader = (p.encrypted sio keys objectKey).drop (seq.toNat * onePkgSize) ++ later) :
    ∃ d', d.buildDecrypter keys p.number = .ok d' ∧
      Ahead d' (p.plain.drop (seq.toNat * sseDAREPackageBlockSize)) later ∧ SamePosition d d' := by
  obtain ⟨s, hs, hyields⟩ :=
    sio.opens (keys.partEncryptionKey objectKey p.number) p.plain seq (keys.length_hmac _ _) hin
  refine ⟨{ d with
    decrypter := some ⟨s, (p.encrypted sio keys objectKey).length - d.partEncRelOffset⟩ },
    ?_, ?_, rfl⟩
  · simp only [DecryptBlocksReader.buildDecrypter, hkey, bind, Except.bind, hpart, hseq,
      hs, Part.info]
  · refine ⟨_, (p.encrypted sio keys objectKey).drop (seq.toNat * onePkgSize), rfl,
      hreader, ?_, hyields⟩
    have hle : seq.toNat * onePkgSize ≤ (p.encrypted sio keys objectKey).length := by
      rw [Part.encrypted, sio.length_encrypt]
      exact le_framedLength blockSize_pos hin
    rw [hoff, length_drop, Int.ofNat_sub hle]
    push_cast
    rfl

/-- The reader stands at byte `off` of a part, with the parts of `after` to come. -/
structure Stands (keys : Keys) (objectKey : Bytes) (before : List Part) (p : Part)
    (after : List Part) (off : Nat) (d : DecryptBlocksReader sio) : Prop where
  parts : d.parts = (before ++ p :: after).map (Part.info sio keys objectKey)
  index : d.partIndex = before.length
  offset : d.partDecRelOffset = off
  inside : off ≤ p.plain.length
  ahead : Ahead d (p.plain.drop off) (after.flatMap (Part.encrypted sio keys objectKey))

variable {before : List Part} {p : Part} {after : List Part} {off : Nat}

theorem Stands.part_eq (h : Stands keys objectKey before p after off d) :
    d.parts[d.partIndex]? = some (p.info sio keys objectKey) := by
  rw [h.parts, h.index]
  simp

theorem Stands.unread_eq (h : Stands keys objectKey before p after off d) :
    (decryptedSize (p.info sio keys objectKey).size : Int) - d.partDecRelOffset =
      (p.plain.length - off : Nat) := by
  rw [Part.info, decryptedSize_encrypted, h.offset, Int.ofNat_sub h.inside]

theorem Stands.read_inside (h : Stands keys objectKey before p after off d) {len : Nat}
    (hlen : len < p.plain.length - off) :
    ∃ d', d.read keys len = (⟨(p.plain.drop off).take len, len, none⟩, d') ∧
      Stands keys objectKey before p after (off + len) d' := by
  obtain ⟨err, d', hread, hahead, hsame, hfull, -, -⟩ := h.ahead.readDecrypter len
  have hrest : len ≤ (p.plain.drop off).length := by rw [length_drop]; omega
  rw [hfull hrest] at hread
  have hfilled : ((p.plain.drop off).take len).length = len := by rw [length_take]; omega
  refine ⟨{ d' with partDecRelOffset := d'.partDecRelOffset + len }, ?_, ?_⟩
  · simp only [DecryptBlocksReader.read, h.part_eq, h.unread_eq]
    rw [if_pos (by omega), hread]
    simp only [hfilled]
  · rw [hsame]
    rw [drop_drop] at hahead
    exact ⟨h.parts, h.index, by simp [h.offset], by have := h.inside; omega, hahead⟩

theorem Stands.read_last (h : Stands keys objectKey before p [] off d) {len : Nat}
    (hlen : ¬ len < p.plain.length - off) :
    ∃ d', d.read keys len = (⟨p.plain.drop off, p.plain.length - off, some .eof⟩, d') ∧
      d'.parts[d'.partIndex]? = none := by
  have hrest : p.plain.length - off ≤ (p.plain.drop off).length := by rw [length_drop]
  obtain ⟨d', hread, -, hsame⟩ := h.ahead.readFull hrest (p.plain.length - off)
  have hend : d'.parts[d'.partIndex + 1]? = none := by
    rw [hsame]
    simp [h.parts, h.index]
  refine ⟨{ d' with
    partEncRelOffset := 0, partDecRelOffset := 0, startSeqNum := 0
    partIndex := d'.partIndex + 1 }, ?_, hend⟩
  simp only [DecryptBlocksReader.read, h.part_eq, h.unread_eq, Int.toNat_natCast]
  rw [if_neg (by omega), if_neg (by omega), hread]
  simp only [hend, take_of_length_le (length_drop.le)]
  simp

/-- A call that reaches the end of a part goes on in the next one. -/
theorem Stands.read_across (hkey : keys.objectEncryptionKey = .ok objectKey) {next : Part}
    (h : Stands keys objectKey before p (next :: after) off d) {len : Nat}
    (hlen : ¬ len < p.plain.length - off) :
    ∃ err d' n, d.read keys len =
        (⟨p.plain.drop off ++ next.plain.take (len - (p.plain.length - off)), n, err⟩, d') ∧
      (err = none ∧ n = len ∨ err = some .eof ∧ n = 0) ∧
      (len - (p.plain.length - off) ≤ next.plain.length → err = none ∧
        Stands keys objectKey (before ++ [p]) next after (len - (p.plain.length - off)) d') ∧
      (next.plain = [] → 0 < len - (p.plain.length - off) →
        err = some .eof ∧ Stands keys objectKey (before ++ [p]) next after 0 d') := by
  have hrest : p.plain.length - off ≤ (p.plain.drop off).length := by rw [length_drop]
  obtain ⟨d₁, hfull, hahead₁, hsame₁⟩ := h.ahead.readFull hrest (p.plain.length - off)
  rw [take_of_length_le (length_drop.le)] at hfull
  rw [drop_of_length_le (length_drop.le)] at hahead₁
  -- the decrypter of the next part
  let d₂ : DecryptBlocksReader sio :=
    { d₁ with
      partEncRelOffset := 0, partDecRelOffset := 0, startSeqNum := 0
      partIndex := d₁.partIndex + 1 }
  have hnext : d₂.parts[d₂.partIndex]? = some (next.info sio keys objectKey) := by
    simp only [d₂]
    rw [hsame₁]
    simp [h.parts, h.index]
  have hreader : d₂.reader = (next.encrypted sio keys objectKey).drop
    ((0 : UInt32).toNat * onePkgSize) ++
      after.flatMap (Part.encrypted sio keys objectKey) := by
    simpa [d₂] using hahead₁.reader_eq
  have hseq : d₂.startSeqNum = 0 := rfl
  have hin : (0 : UInt32).toNat * sseDAREPackageBlockSize ≤ next.plain.length := by simp
  have hoff : d₂.partEncRelOffset = (0 : UInt32).toNat * onePkgSize := by simp [d₂]
  obtain ⟨d₃, hbuild, hahead₃, hsame₃⟩ := ahead_buildDecrypter hkey hnext hseq hoff hin hreader
  simp only [UInt32.toNat_zero, Nat.zero_mul, drop_zero] at hahead₃
  obtain ⟨err, d₄, hread, hahead₄, hsame₄, hfills, herr, hended⟩ :=
    hahead₃.readDecrypter (len - (p.plain.length - off))
  simp only [d₂] at hnext hbuild
  rcases herr with rfl | rfl
  · refine ⟨none, { d₄ with
      partDecRelOffset := d₄.partDecRelOffset +
        (next.plain.take (len - (p.plain.length - off))).length }, len, ?_, .inl ⟨rfl, rfl⟩,
      fun hle => ⟨rfl, ?_⟩, fun hnil hpos => absurd (hended hnil hpos) (by simp)⟩
    · simp only [DecryptBlocksReader.read, h.part_eq, h.unread_eq, Int.toNat_natCast]
      rw [if_neg (by omega), if_neg (by omega), hfull]
      simp only [hnext, Part.info, hbuild, length_drop, hread]
    · rw [hsame₄, hsame₃]
      simp only [d₂]
      rw [hsame₁]
      refine ⟨by simp [h.parts], by simp [h.index], ?_, hle, hahead₄⟩
      simp only [length_take, Int.zero_add, Int.natCast_inj]
      omega
  · refine ⟨some .eof, d₄, 0, ?_, .inr ⟨rfl, rfl⟩, fun hle => absurd (hfills hle) (by simp),
      fun hnil _ => ⟨rfl, ?_⟩⟩
    · simp only [DecryptBlocksReader.read, h.part_eq, h.unread_eq, Int.toNat_natCast]
      rw [if_neg (by omega), if_neg (by omega), hfull]
      simp only [hnext, Part.info, hbuild, length_drop, hread]
    · rw [hsame₄, hsame₃]
      simp only [d₂]
      rw [hsame₁]
      refine ⟨by simp [h.parts], by simp [h.index], rfl, Nat.zero_le _, ?_⟩
      rw [hnil, drop_nil] at hahead₄ ⊢
      exact hahead₄

end Steps

/-! ## Runs -/

section Runs

theorem fits_cons_of_lt {unread len : Nat} (h : len < unread) (later lens : List Nat) :
    Fits unread later (len :: lens) = Fits (unread - len) later lens := by
  cases later <;> rw [Fits, if_pos h]

variable {sio : Sio} {keys : Keys} {objectKey : Bytes}

/-- A call after the last part is an index out of range. -/
theorem delivers_after_end {d : DecryptBlocksReader sio} (hend : d.parts[d.partIndex]? = none)
    (lens : List Nat) :
    Delivers .eof [] lens (d.reads keys lens) ↔ lens = [] := by
  cases lens with
  | nil => exact iff_of_true trivial rfl
  | cons len lens =>
    have hread : d.read keys len = (⟨[], 0, some .panic⟩, d) := by
      rw [DecryptBlocksReader.read, hend]
    rw [DecryptBlocksReader.reads, calls_cons hread]
    exact iff_of_false (fun h => by simpa using h.1.2.2) (by simp)

theorem forall_eq_zero_iff_flatMap {parts : List Part} :
    (∀ size ∈ parts.map fun p => p.plain.length, size = 0) ↔ parts.flatMap Part.plain = [] := by
  simp [flatMap_eq_nil_iff]

/-- From any position the calls deliver the rest just when the buffers fit. By induction on the
calls. -/
theorem Stands.reads_deliver (hkey : keys.objectEncryptionKey = .ok objectKey) (lens : List Nat) :
    ∀ {d : DecryptBlocksReader sio} {before : List Part} {p : Part} {after : List Part} {off : Nat},
      Stands keys objectKey before p after off d →
      (Delivers .eof (p.plain.drop off ++ after.flatMap Part.plain) lens (d.reads keys lens) ↔
        Fits (p.plain.length - off) (after.map fun p => p.plain.length) lens) := by
  induction lens with
  | nil => exact fun _ => iff_of_true trivial trivial
  | cons len lens ih =>
    intro d before p after off h
    by_cases hlen : len < p.plain.length - off
    · obtain ⟨d', hread, hstands⟩ := h.read_inside hlen
      have hfilled : ((p.plain.drop off).take len).length = len := by
        rw [length_take, length_drop]
        omega
      have htext : p.plain.drop off ++ after.flatMap Part.plain =
          (p.plain.drop off).take len ++
              (p.plain.drop (off + len) ++ after.flatMap Part.plain) := by
        rw [← append_assoc, ← drop_drop, take_append_drop]
      rw [fits_cons_of_lt hlen, DecryptBlocksReader.reads, calls_cons hread, htext,
        delivers_cons hfilled, ← DecryptBlocksReader.reads, ih hstands, Nat.sub_sub]
    cases after with
    | nil =>
      obtain ⟨d', hread, hend⟩ := h.read_last hlen
      rw [map_nil, Fits, if_neg hlen, DecryptBlocksReader.reads, calls_cons hread, ← length_drop,
        flatMap_nil, append_nil, delivers_last (by rw [length_drop]; omega)]
      exact delivers_after_end hend lens
    | cons next after =>
      obtain ⟨err, d', n, hread, herr, hfits, hended⟩ := h.read_across hkey hlen
      rw [map_cons, Fits, if_neg hlen]
      by_cases hfit : len - (p.plain.length - off) ≤ next.plain.length
      · obtain ⟨rfl, hstands⟩ := hfits hfit
        obtain rfl : n = len := by simpa using herr
        have hfilled : (p.plain.drop off ++ next.plain.take (n - (p.plain.length - off))).length =
            n := by
          rw [length_append, length_take, length_drop]
          omega
        have htext : p.plain.drop off ++ (next :: after).flatMap Part.plain =
            (p.plain.drop off ++ next.plain.take (n - (p.plain.length - off))) ++
              (next.plain.drop (n - (p.plain.length - off)) ++ after.flatMap Part.plain) := by
          rw [flatMap_cons, append_assoc, ← append_assoc (next.plain.take _), take_append_drop]
        rw [if_pos hfit, DecryptBlocksReader.reads, calls_cons hread, htext, delivers_cons hfilled,
          ← DecryptBlocksReader.reads, ih hstands]
      · rw [if_neg hfit, forall_eq_zero_iff_flatMap]
        rw [take_of_length_le (by omega)] at hread
        rw [DecryptBlocksReader.reads, calls_cons hread, flatMap_cons, ← append_assoc]
        constructor
        · intro hdel
          have hcount : n = (p.plain.drop off ++ next.plain).length := hdel.1.2.1
          rw [length_append, length_drop] at hcount
          obtain ⟨rfl, rfl⟩ : err = some .eof ∧ n = 0 := herr.resolve_left fun h => by omega
          have hnext : next.plain = [] := eq_nil_of_length_eq_zero (by omega)
          have hrest : after.flatMap Part.plain = [] := by
            have hfilled := hdel.1.1
            have hall := (hdel.1.2.2.resolve_left (by simp)).2
            rw [take_of_length_le hall] at hfilled
            simpa using hfilled
          obtain ⟨-, hstands⟩ := hended hnext (by omega)
          refine ⟨⟨by omega, by omega, hrest⟩, ?_⟩
          have hgo := (ih hstands).1
          rw [hnext, hrest, drop_nil] at hgo
          have hp : p.plain.drop off = [] := drop_eq_nil_of_le (by omega)
          have hleft := hdel.2
          rw [hp, hnext, hrest, append_nil, append_nil, drop_nil] at hleft
          exact hgo hleft
        · rintro ⟨⟨hu, hnext, hrest⟩, hgo⟩
          have hnext := eq_nil_of_length_eq_zero hnext
          obtain ⟨rfl, hstands⟩ := hended hnext (by omega)
          obtain rfl : n = 0 := by simpa using herr
          have hp : p.plain.drop off = [] := drop_eq_nil_of_le (by omega)
          have hdel := (ih hstands).2 (by simpa [hnext] using hgo)
          rw [hnext, hrest, drop_nil] at hdel
          rw [hp, hnext, hrest]
          exact (delivers_last (Nat.zero_le _) lens).2 hdel

end Runs

/-- From package `seq` of any part on, the calls deliver the rest of the object just when every
buffer ends, at the latest, with the part after the one it starts in, and none comes after the
end. -/
theorem reads_deliver_iff (sio : Sio) (keys : Keys) (objectKey : Bytes)
    (hkey : keys.objectEncryptionKey = .ok objectKey) (before : List Part) (p : Part)
    (after : List Part)
    (seq : UInt32) (hseq : seq.toNat * sseDAREPackageBlockSize ≤ p.plain.length) (lens : List Nat) :
    ∃ d, decryptBlocksRequestR sio keys
        (((p :: after).flatMap (Part.encrypted sio keys objectKey)).drop (seq.toNat * onePkgSize))
          seq before.length
        ((before ++ p :: after).map (Part.info sio keys objectKey)) = .ok d ∧
      (Delivers .eof (((p :: after).flatMap Part.plain).drop (seq.toNat * sseDAREPackageBlockSize))
        lens
          (d.reads keys lens) ↔
        Fits (p.plain.length - seq.toNat * sseDAREPackageBlockSize) (after.map fun p =>
          p.plain.length) lens) := by
  let w : DecryptBlocksReader sio :=
    { reader :=
        ((p :: after).flatMap (Part.encrypted sio keys objectKey)).drop (seq.toNat * onePkgSize)
      decrypter := none
      startSeqNum := seq
      partIndex := before.length
      parts := (before ++ p :: after).map (Part.info sio keys objectKey)
      partDecRelOffset := seq.toNat * sseDAREPackageBlockSize
      partEncRelOffset := seq.toNat * onePkgSize }
  have hpart : w.parts[w.partIndex]? = some (p.info sio keys objectKey) := by simp [w]
  have hle : seq.toNat * onePkgSize ≤ (p.encrypted sio keys objectKey).length := by
    rw [Part.encrypted, sio.length_encrypt]
    exact le_framedLength blockSize_pos hseq
  have hreader : w.reader = (p.encrypted sio keys objectKey).drop (seq.toNat * onePkgSize) ++
      after.flatMap (Part.encrypted sio keys objectKey) := by
    simp only [w, flatMap_cons]
    rw [drop_append_of_le_length hle]
  obtain ⟨d, hbuild, hahead, hsame⟩ := ahead_buildDecrypter hkey hpart rfl rfl hseq hreader
  refine ⟨d, ?_, ?_⟩
  · simpa only [decryptBlocksRequestR, hpart, w, Part.info] using hbuild
  · have hstands : Stands keys objectKey before p after (seq.toNat * sseDAREPackageBlockSize)
        d := by
      rw [hsame] at hahead ⊢
      exact ⟨rfl, rfl, by simp [w], hseq, hahead⟩
    rw [flatMap_cons, drop_append_of_le_length hseq]
    exact hstands.reads_deliver hkey lens

/-! ## A library with plain packages -/

def plainHeader : Bytes := List.replicate sseDAREPackageMetaSize 0

theorem length_plainHeader : plainHeader.length = sseDAREPackageMetaSize := length_replicate

theorem unframe_plain (text : Bytes) : unframe sseDAREPackageBlockSize sseDAREPackageMetaSize
    (frame sseDAREPackageBlockSize plainHeader text) = text := by
  rw [← length_plainHeader]
  exact unframe_frame blockSize_pos

/-- Packages without encryption. A stream that ends within a call is reported by that call if
`early`, else by the next one. -/
def plainSio (early : Bool) : Sio where
  State := Bytes
  encrypt _ plain := frame sseDAREPackageBlockSize plainHeader plain
  decryptReader _ _ := some []
  read ahead src n :=
    let text := ahead ++ unframe sseDAREPackageBlockSize sseDAREPackageMetaSize src
    { filled := text.take n
      err := if n ≤ text.length then none else if text = [] ∨ early then some .eof else none
      consumed := src.length
      state := text.drop n }
  Yields ahead src plain := ∃ text, src = frame sseDAREPackageBlockSize plainHeader text ∧
    plain = ahead ++ text
  length_encrypt _ plain := by rw [length_frame blockSize_pos, length_plainHeader]
  opens key plain seq _ hseq := by
    refine ⟨[], rfl, plain.drop (seq.toNat * sseDAREPackageBlockSize), ?_, rfl⟩
    rw [onePkgSize, ← length_plainHeader]
    exact frame_drop blockSize_pos hseq
  yields := by
    rintro ahead _ _ n ⟨text, rfl, rfl⟩
    simp only [unframe_plain]
    exact ⟨trivial, le_rfl, [], by rw [drop_length]; rfl, by rw [append_nil]⟩
  fills := by
    rintro ahead _ _ n ⟨text, rfl, rfl⟩ hn
    simp only [unframe_plain, if_pos hn]
  ends := by
    intro ahead src plain n _
    simp only
    split_ifs <;> simp
  ended := by
    rintro ahead _ n ⟨text, rfl, hnil⟩ hn
    obtain ⟨rfl, rfl⟩ := append_eq_nil_iff.1 hnil.symm
    simp [unframe, Nat.not_le.2 hn]
  drained := by
    rintro ahead _ ⟨text, rfl, hnil⟩
    obtain ⟨rfl, rfl⟩ := append_eq_nil_iff.1 hnil.symm
    rfl

/-- Keys of an object for which the server has a key. -/
def serverKeys : Keys where
  copySource := false
  ssec := false
  customerKeyHeader := []
  parseSSECopyCustomerRequest _ := .error .errInvalidCustomerKey
  parseSSECustomerHeader _ := .error .errInvalidCustomerKey
  decryptObjectInfo _ := .ok []
  hmac _ _ := List.replicate 32 0
  length_hmac _ _ := rfl

def threeParts : List Part := [⟨1, [10]⟩, ⟨2, [20]⟩, ⟨3, [30]⟩]

/-- Two calls, the first over the end of a part. -/
theorem reads_deliver_iff_threeParts :
    ∃ d, decryptBlocksRequestR (plainSio true) serverKeys
        ((threeParts.flatMap (Part.encrypted (plainSio true) serverKeys [])).drop
          ((0 : UInt32).toNat * onePkgSize)) 0
        0 (threeParts.map (Part.info (plainSio true) serverKeys [])) = .ok d ∧
      Delivers .eof ((threeParts.flatMap Part.plain).drop
        ((0 : UInt32).toNat * sseDAREPackageBlockSize)) [2, 1]
          (d.reads serverKeys [2, 1]) := by
  obtain ⟨d, hd, hiff⟩ := reads_deliver_iff (plainSio true) serverKeys [] rfl [] ⟨1,
    [10]⟩ [⟨2, [20]⟩, ⟨3, [30]⟩] 0
    (by decide) [2, 1]
  exact ⟨d, hd, hiff.2 (by simp [Fits])⟩

/-- A buffer of one byte more than the object, as a download allocates it. Either the call returns
four bytes of which it wrote two, or the two bytes are dropped and the end is reported. With buffers
of one byte all bytes come, and a call after the end panics. -/
theorem reads_lose_bytes :
    (∀ early, (decryptBlocksRequestR (plainSio early) serverKeys
        (threeParts.flatMap (Part.encrypted (plainSio early) serverKeys [])) 0 0
        (threeParts.map (Part.info (plainSio early) serverKeys []))).toOption.map
          (·.reads serverKeys [4]) =
      some [if early then ⟨[10, 20], 0, some .eof⟩ else ⟨[10, 20], 4, none⟩]) ∧
    ¬ Delivers Err.eof [10, 20, 30] [4] [⟨[10, 20], 0, some .eof⟩] ∧
    ¬ Delivers Err.eof [10, 20, 30] [4] [⟨[10, 20], 4, none⟩] ∧
    (∀ early, (decryptBlocksRequestR (plainSio early) serverKeys
        (threeParts.flatMap (Part.encrypted (plainSio early) serverKeys [])) 0 0
        (threeParts.map (Part.info (plainSio early) serverKeys []))).toOption.map
          (·.reads serverKeys [1, 1, 1, 1]) =
      some [⟨[10], 1, none⟩, ⟨[20], 1, none⟩, ⟨[30], 1, some .eof⟩, ⟨[], 0, some .panic⟩]) :=
  ⟨by decide, fun h => absurd h.1.2.1 (by decide),
    fun h => absurd h.1.2.1 (by decide), by decide +kernel⟩

end S3Kinetic.Decryption
