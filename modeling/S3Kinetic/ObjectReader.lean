import S3Kinetic.Reading

/-!
# Readers of objects (`NewGetObjectReader`)

`NewGetObjectReader` resolves a range for an object that is stored plainly, compressed or encrypted.
It returns the stored range to read and a function that puts the reader together. Both are given
clean-up functions; a call is modelled with the clean-ups that have run when it returns.

`cleanups_iff`: they run once, in reverse order, except if skipping in a compressed stream fails.
`compressedRange_built`: the reader of a compressed object yields the bytes of the range.
-/

namespace S3Kinetic.ObjectReader

open ByteString Decimal List

/-! ## The set-up -/

inductive ReaderErr where
  | err (e : Err)
  | errInvalidDecompressedSize
  | preConditionFailed
  deriving DecidableEq

structure ObjectPartInfo where
  size : Int
  actualSize : Int

structure ObjectInfo where
  size : Int
  etag : Bytes
  userDefined : OrdMap Bytes Bytes
  parts : List ObjectPartInfo

/-- The functions that the set-up calls: readers are of type `ρ`, headers of type `η`. -/
structure Layers (ρ η : Type) where
  /-- Stored offset and length, bytes to skip, sequence number and first part. -/
  getDecryptedRange : ObjectInfo → Option HTTPRangeSpec →
    Except ReaderErr (Int × Int × Int × Nat × Nat)
  decryptedSize : ObjectInfo → Except ReaderErr Int
  decryptBlocksRequestR : η → Int → Int → Nat → Nat → ObjectInfo → ρ → Except ReaderErr ρ
  getDecryptedETag : η → ObjectInfo → Bytes
  newSkipReader : ρ → Int → ρ
  limitReader : ρ → Int → ρ
  /-- `s2.NewReader` and then `Skip`. -/
  s2Skip : ρ → Int → Except ReaderErr ρ
  readahead : ρ → Option ρ

/-- A reader, with its clean-ups in the order they were given. The one that closes the read-ahead is
`none`. -/
structure GetObjectReader (ρ φ : Type) where
  objInfo : ObjectInfo
  pReader : ρ
  cleanUpFns : List (Option φ)
  once : Bool

abbrev Called (φ α : Type) := List (Option φ) × Except ReaderErr α

abbrev Precond := Option (ObjectInfo → Bytes → Bool)

abbrev ObjReaderFn (ρ η φ : Type) := ρ → η → Precond → List φ → Called φ (GetObjectReader ρ φ)

def refuses (pcfn : Precond) (oi : ObjectInfo) (etag : Bytes) : Bool := pcfn.any fun f => f oi etag

def compressionKey : Bytes := lit "X-Minio-Internal-compression"

/-- `crypto.IsEncrypted`. -/
def isEncrypted (oi : ObjectInfo) : Bool :=
  (transformKeys.filter (· ≠ compressionKey)).any fun k => (oi.userDefined.get? k).isSome

def isCompressedOK (oi : ObjectInfo) : Except ReaderErr Bool :=
  match oi.userDefined.get? compressionKey with
  | none => .ok false
  | some scheme =>
    if isEncrypted oi then
      .error (.err (.errorf (lit "compression \"" ++ scheme ++
        lit "\" and encryption enabled on same object")))
    else if scheme = lit "golang/snappy/LZ77" ∨ scheme = lit "klauspost/compress/s2" then .ok true
    else .error (.err (.errorf (lit "unknown compression scheme: " ++ scheme)))

def getActualSize (oi : ObjectInfo) : Int :=
  match oi.userDefined.get? (lit "X-Minio-Internal-actual-size") with
  | none => -1
  | some sizeStr =>
    match parseInt64 sizeStr with
    | (size, none) => size
    | (_, some _) => -1

/-- The loop of `getCompressedOffsets`: the compressed offset and the skipped length. -/
def skipParts (offset : Int) : List ObjectPartInfo → Int → Int → Int × Int
  | [], compressedOffset, _ => (compressedOffset, 0)
  | part :: parts, compressedOffset, cumulativeActualSize =>
    let cumulativeActualSize := cumulativeActualSize + part.actualSize
    if cumulativeActualSize ≤ offset then skipParts offset parts (compressedOffset + part.size)
      cumulativeActualSize
    else (compressedOffset, cumulativeActualSize - part.actualSize)

def getCompressedOffsets (oi : ObjectInfo) (offset : Int) : Int × Int :=
  let (compressedOffset, skipLength) := skipParts offset oi.parts 0 0
  (compressedOffset, offset - skipLength)

/-- What a compressed object is read with: `off`, `length`, `decOff` and `decLength`. -/
def compressedRange (rs : Option HTTPRangeSpec) (oi : ObjectInfo) :
    Except ReaderErr (Int × Int × Int × Int) :=
  let actualSize := getActualSize oi
  if actualSize < 0 then .error .errInvalidDecompressedSize
  else
    match rs with
    | none => .ok (0, oi.size, 0, actualSize)
    | some h =>
      match getOffsetLength (some h) actualSize with
      | .error e => .error (.err e)
      | .ok (start, count) =>
        let (off, decOff) := getCompressedOffsets oi start
        let decLength := if count < 0 then actualSize - decOff else count
        if decOff > actualSize ∨ decOff + decLength > actualSize then .error (.err .errInvalidRange)
        else .ok (off, oi.size - off, decOff, decLength)

def compReadAheadSize : Int := 104857600

section Model

variable {ρ η φ : Type} (L : Layers ρ η)

section Functions

variable (oi : ObjectInfo) (cleanUpFns : List φ)

def encryptedFn (off length skipLen : Int) (seqNumber partStart : Nat) (decRangeLength : Int) :
    ObjReaderFn ρ η φ :=
  fun inputReader h pcfn cFns =>
    let cFns := (cleanUpFns ++ cFns).map some
    match L.decryptBlocksRequestR h off length seqNumber partStart oi inputReader with
    | .error e => (cFns.reverse, .error e)
    | .ok decReader =>
      let decrypted := { oi with etag := L.getDecryptedETag h oi }
      if refuses pcfn decrypted oi.etag then (cFns.reverse, .error .preConditionFailed)
      else ([], .ok ⟨decrypted, L.limitReader (L.newSkipReader decReader skipLen) decRangeLength,
        cFns, false⟩)

/-- No clean-up runs if `Skip` fails. -/
def compressedFn (decOff decLength : Int) : ObjReaderFn ρ η φ :=
  fun inputReader _ pcfn cFns =>
    let cFns := (cleanUpFns ++ cFns).map some
    if refuses pcfn oi [] then (cFns.reverse, .error .preConditionFailed)
    else
      match L.s2Skip inputReader decOff with
      | .error e => ([], .error e)
      | .ok s2Reader =>
        let decReader := L.limitReader s2Reader decLength
        match if decLength > compReadAheadSize then L.readahead decReader else none with
        | some rah => ([], .ok ⟨{ oi with size := decLength }, rah, cFns ++ [none], false⟩)
        | none => ([], .ok ⟨{ oi with size := decLength }, decReader, cFns, false⟩)

def plainFn : ObjReaderFn ρ η φ :=
  fun inputReader _ pcfn cFns =>
    let cFns := (cleanUpFns ++ cFns).map some
    if refuses pcfn oi [] then (cFns.reverse, .error .preConditionFailed)
      else ([], .ok ⟨oi, inputReader, cFns, false⟩)

end Functions

/-- The body of `NewGetObjectReader`. -/
def setup (rs : Option HTTPRangeSpec) (oi : ObjectInfo) (cleanUpFns : List φ) :
    Except ReaderErr (ObjReaderFn ρ η φ × Int × Int) := do
  let isCompressed ← isCompressedOK oi
  if isEncrypted oi then
    let (off, length, skipLen, seqNumber, partStart) ← L.getDecryptedRange oi rs
    let decSize ← L.decryptedSize oi
    let decRangeLength ← (getLength rs decSize).mapError .err
    return (encryptedFn L oi cleanUpFns off length skipLen seqNumber partStart decRangeLength, off,
      length)
  else if isCompressed then
    let (off, length, decOff, decLength) ← compressedRange rs oi
    return (compressedFn L oi cleanUpFns decOff decLength, off, length)
  else
    let (off, length) ← (getOffsetLength rs oi.size).mapError .err
    return (plainFn oi cleanUpFns, off, length)

/-- `NewGetObjectReader`; the deferred function runs the clean-ups if there is an error. -/
def newGetObjectReader (rs : Option HTTPRangeSpec) (oi : ObjectInfo) (cleanUpFns : List φ) :
    Called φ (ObjReaderFn ρ η φ × Int × Int) :=
  match setup L rs oi cleanUpFns with
  | .ok r => ([], .ok r)
  | .error e => ((cleanUpFns.map some).reverse, .error e)

end Model

/-! ## Uses of a reader -/

/-- A call of `Close`, or of `Read` with whether it returns an error. -/
inductive Use where
  | close
  | read (err : Bool)

def Use.closes : Use → Bool
  | .close => true
  | .read err => err

section Uses

variable {ρ φ : Type}

def GetObjectReader.use (r : GetObjectReader ρ φ) (u : Use) :
    List (Option φ) × GetObjectReader ρ φ :=
  if u.closes && !r.once then (r.cleanUpFns.reverse, { r with once := true }) else ([], r)

def GetObjectReader.uses (r : GetObjectReader ρ φ) : List Use → List (Option φ)
  | [] => []
  | u :: us => (r.use u).1 ++ (r.use u).2.uses us

theorem GetObjectReader.uses_of_once {r : GetObjectReader ρ φ} (h : r.once = true) (us : List Use) :
    r.uses us = [] := by
  induction us with
  | nil => rfl
  | cons u us ih => simp [uses, use, h, ih]

theorem GetObjectReader.uses_eq {r : GetObjectReader ρ φ} (h : r.once = false) (us : List Use) :
    r.uses us = if us.any Use.closes then r.cleanUpFns.reverse else [] := by
  induction us with
  | nil => rfl
  | cons u us ih =>
    cases hu : u.closes with
    | false => simp [uses, use, h, hu, ih]
    | true => simp [uses, use, h, hu, uses_of_once]

end Uses

/-! ## Clean-ups -/

section Cleanups

variable {ρ η φ : Type} (L : Layers ρ η) (rs : Option HTTPRangeSpec) (oi : ObjectInfo)
    (cleanUpFns : List φ)
  (inputReader : ρ) (h : η) (pcfn : Precond) (cFns : List φ)

/-- All clean-ups given so far have run when a step fails. After both succeed they run at the first
use that closes the reader. -/
def CleanupLaw : Prop :=
  match newGetObjectReader L rs oi cleanUpFns with
  | (ran, .error _) => ran = (cleanUpFns.map some).reverse
  | (ran, .ok (fn, _, _)) =>
    match fn inputReader h pcfn cFns with
    | (ran', .error _) => ran ++ ran' = ((cleanUpFns ++ cFns).map some).reverse
    | (ran', .ok r) => ∀ us,
        (ran ++ ran' ++ r.uses us).reduceOption =
          if us.any Use.closes then (cleanUpFns ++ cFns).reverse else []

/-- The object is compressed, its range is accepted, the condition holds, and skipping to the range
fails. -/
def SkipFails : Prop :=
  isCompressedOK oi = .ok true ∧ refuses pcfn oi [] = false ∧
    ∃ off length decOff decLength e, compressedRange rs oi = .ok (off, length, decOff, decLength) ∧
      L.s2Skip inputReader decOff = .error e

variable {L rs oi cleanUpFns inputReader h pcfn cFns}

theorem not_isEncrypted (hok : isCompressedOK oi = .ok true) : isEncrypted oi = false := by
  unfold isCompressedOK at hok
  split at hok
  · cases hok
  · split_ifs at hok with henc
    simpa using henc

theorem setup_of_compressed {off length decOff decLength : Int} (hok : isCompressedOK oi = .ok true)
    (hrange : compressedRange rs oi = .ok (off, length, decOff, decLength)) :
    setup L rs oi cleanUpFns = .ok (compressedFn L oi cleanUpFns decOff decLength,
      off, length) := by
  simp only [setup, hok, hrange, not_isEncrypted hok, bind, Except.bind, Bool.false_eq_true,
    if_false, if_true]
  rfl

/-- What the function of a successful set-up is. -/
theorem setup_ok {fn : ObjReaderFn ρ η φ} {off length : Int}
    (hs : setup L rs oi cleanUpFns = .ok (fn, off, length)) :
    (isCompressedOK oi = .ok true ∧ ∃ decOff decLength, compressedRange rs oi = .ok (off, length,
      decOff, decLength) ∧
      fn = compressedFn L oi cleanUpFns decOff decLength) ∨
    isCompressedOK oi ≠ .ok true ∧
      (fn = plainFn oi cleanUpFns ∨ ∃ skipLen seqNumber partStart decRangeLength,
      fn = encryptedFn L oi cleanUpFns off length skipLen seqNumber partStart decRangeLength) := by
  simp only [setup, bind, Except.bind, pure, Except.pure] at hs
  rcases hok : isCompressedOK oi with e | isCompressed
  · simp only [hok] at hs
    cases hs
  · simp only [hok] at hs
    cases henc : isEncrypted oi with
    | true =>
      simp only [henc, if_true] at hs
      refine .inr ⟨fun h => ?_, ?_⟩
      · rw [not_isEncrypted (hok.trans h)] at henc
        cases henc
      rcases hr : L.getDecryptedRange oi rs with e | ⟨off', length', skipLen, seqNumber, partStart⟩
      · simp only [hr] at hs
        cases hs
      rcases hd : L.decryptedSize oi with e | decSize
      · simp only [hr, hd] at hs
        cases hs
      rcases hl : (getLength rs decSize).mapError ReaderErr.err with e | decRangeLength
      · simp only [hr, hd, hl] at hs
        cases hs
      · simp only [hr, hd, hl, Except.ok.injEq, Prod.mk.injEq] at hs
        obtain ⟨rfl, rfl, rfl⟩ := hs
        exact .inr ⟨_, _, _, _, rfl⟩
    | false =>
      simp only [henc, Bool.false_eq_true, if_false] at hs
      cases isCompressed with
      | true =>
        simp only [if_true] at hs
        rcases hr : compressedRange rs oi with e | ⟨off', length', decOff, decLength⟩
        · simp only [hr] at hs
          cases hs
        · simp only [hr, Except.ok.injEq, Prod.mk.injEq] at hs
          obtain ⟨rfl, rfl, rfl⟩ := hs
          exact .inl ⟨rfl, _, _, rfl, rfl⟩
      | false =>
        simp only [Bool.false_eq_true, if_false] at hs
        rcases hr : (getOffsetLength rs oi.size).mapError ReaderErr.err with e | ⟨off', length'⟩
        · simp only [hr] at hs
          cases hs
        · simp only [hr, Except.ok.injEq, Prod.mk.injEq] at hs
          exact .inr ⟨by simp, .inl hs.1.symm⟩

theorem reduceOption_uses {r : GetObjectReader ρ φ}
    (hr : r.cleanUpFns.reduceOption = cleanUpFns ++ cFns) (honce : r.once = false) (us : List Use) :
    (r.uses us).reduceOption = if us.any Use.closes then (cleanUpFns ++ cFns).reverse else [] := by
  rw [r.uses_eq honce]
  split_ifs
  · rw [← hr]
    exact filterMap_reverse ..
  · rfl

theorem reduceOption_map_some (l : List φ) : (l.map some).reduceOption = l := by
  simp [reduceOption, filterMap_map]

variable (cleanUpFns inputReader h pcfn cFns) in
/-- The law for the second step alone. -/
def FnLaw (fn : ObjReaderFn ρ η φ) : Prop :=
  match fn inputReader h pcfn cFns with
  | (ran, .error _) => ran = ((cleanUpFns ++ cFns).map some).reverse
  | (ran, .ok r) => ∀ us, (ran ++ r.uses us).reduceOption =
    if us.any Use.closes then (cleanUpFns ++ cFns).reverse else []

theorem fnLaw_plain : FnLaw cleanUpFns inputReader h pcfn cFns
    (plainFn (η := η) oi cleanUpFns) := by
  unfold FnLaw plainFn
  dsimp only
  split_ifs
  · rfl
  · exact reduceOption_uses (reduceOption_map_some _) rfl

theorem fnLaw_encrypted {off length skipLen decRangeLength : Int} {seqNumber partStart : Nat} :
    FnLaw cleanUpFns inputReader h pcfn cFns
      (encryptedFn L oi cleanUpFns off length skipLen seqNumber partStart decRangeLength) := by
  unfold FnLaw encryptedFn
  dsimp only
  cases L.decryptBlocksRequestR h off length seqNumber partStart oi inputReader with
  | error e => rfl
  | ok decReader =>
    dsimp only
    split_ifs
    · rfl
    · exact reduceOption_uses (reduceOption_map_some _) rfl

theorem fnLaw_compressed {decOff decLength : Int} :
    FnLaw cleanUpFns inputReader h pcfn cFns (compressedFn L oi cleanUpFns decOff decLength) ↔
      (refuses pcfn oi [] = false → (∃ e, L.s2Skip inputReader decOff = .error e) →
        cleanUpFns ++ cFns = []) := by
  unfold FnLaw compressedFn
  dsimp only
  cases hpc : refuses pcfn oi [] with
  | true => simp
  | false =>
    simp only [Bool.false_eq_true, if_false, true_implies]
    cases hskip : L.s2Skip inputReader decOff with
    | error e =>
      simp only [Except.error.injEq, exists_eq', true_implies]
      rw [eq_comm, reverse_eq_nil_iff, map_eq_nil_iff]
    | ok s2Reader =>
      refine iff_of_true ?_ (by simp)
      dsimp only
      cases if decLength > compReadAheadSize then L.readahead (L.limitReader s2Reader decLength)
          else none with
      | none => exact reduceOption_uses (reduceOption_map_some _) rfl
      | some rah =>
        refine reduceOption_uses ?_ rfl
        simp [reduceOption, filterMap_map]

theorem cleanupLaw_of_setup {fn : ObjReaderFn ρ η φ} {off length : Int}
    (hs : setup L rs oi cleanUpFns = .ok (fn, off, length)) :
    CleanupLaw L rs oi cleanUpFns inputReader h pcfn cFns ↔
      FnLaw cleanUpFns inputReader h pcfn cFns fn := by
  simp only [CleanupLaw, newGetObjectReader, hs, nil_append, FnLaw]

variable (L rs oi cleanUpFns inputReader h pcfn cFns)

/-- The clean-ups run exactly once, in reverse order, unless there are some and skipping in a
compressed stream fails. -/
theorem cleanups_iff : CleanupLaw L rs oi cleanUpFns inputReader h pcfn cFns ↔
    (SkipFails L rs oi inputReader pcfn → cleanUpFns ++ cFns = []) := by
  rcases hs : setup L rs oi cleanUpFns with e | ⟨fn, off, length⟩
  · refine iff_of_true (by simp only [CleanupLaw, newGetObjectReader, hs]) ?_
    rintro ⟨hok, -, off, length, decOff, decLength, e', hrange, -⟩
    rw [setup_of_compressed hok hrange] at hs
    cases hs
  · rw [cleanupLaw_of_setup hs]
    rcases setup_ok hs with ⟨hok, decOff, decLength, hrange, rfl⟩ |
      ⟨hnot, rfl | ⟨skipLen, seqNumber, partStart, n, rfl⟩⟩
    · rw [fnLaw_compressed]
      constructor
      · rintro hlaw ⟨-, hpc, off', length', decOff', decLength', e, hrange', hskip⟩
        rw [hrange] at hrange'
        cases hrange'
        exact hlaw hpc ⟨e, hskip⟩
      · rintro hlaw hpc ⟨e, hskip⟩
        exact hlaw ⟨hok, hpc, off, length, decOff, decLength, e, hrange, hskip⟩
    · exact iff_of_true fnLaw_plain fun h => absurd h.1 hnot
    · exact iff_of_true fnLaw_encrypted fun h => absurd h.1 hnot

end Cleanups

/-- Readers that are their bytes, with a compression that keeps them as they are. -/
def plainLayers : Layers Bytes Unit where
  getDecryptedRange oi _ := .ok (0, oi.size, 0, 0, 0)
  decryptedSize oi := .ok oi.size
  decryptBlocksRequestR _ _ _ _ _ _ r := .ok r
  getDecryptedETag _ oi := oi.etag
  newSkipReader r n := r.drop n.toNat
  limitReader r n := r.take n.toNat
  s2Skip r n := if n.toNat ≤ r.length then .ok (r.drop n.toNat) else .error (.err .errUnexpectedEOF)
  readahead := some

/-- A compressed object of four bytes in one part. -/
def fourBytes : ObjectInfo where
  size := 4
  etag := []
  userDefined := OrdMap.empty.insert compressionKey (lit "klauspost/compress/s2") |>.insert
    (lit "X-Minio-Internal-actual-size") (lit "4")
  parts := [⟨4, 4⟩]

/-- The stored bytes end before the range begins: the clean-up of the caller never runs. -/
theorem cleanup_skipped :
    isCompressedOK fourBytes = .ok true ∧
      ¬ CleanupLaw plainLayers (some ⟨false, 3, 3⟩) fourBytes [()] (lit "ab") () none [] := by
  have hok : isCompressedOK fourBytes = .ok true := by decide
  have hrange : compressedRange (some ⟨false, 3, 3⟩) fourBytes = .ok (0, 4, 3, 1) := by decide
  refine ⟨hok, fun hlaw => ?_⟩
  rw [cleanupLaw_of_setup (setup_of_compressed hok hrange), fnLaw_compressed] at hlaw
  exact absurd (hlaw rfl ⟨_, rfl⟩) (by simp)

/-! ## Ranges of compressed objects -/

/-- What is assumed of readers: what they yield, and what `s2` makes of it. -/
structure S2Laws {ρ η : Type} (L : Layers ρ η) where
  bytes : ρ → Bytes
  decompress : Bytes → Option Bytes
  decompress_nil : decompress [] = some []
  decompress_append : ∀ a b x y, decompress a = some x → decompress b = some y →
    decompress (a ++ b) = some (x ++ y)
  skip : ∀ r x n, decompress (bytes r) = some x → n ≤ x.length → ∃ r', L.s2Skip r n = .ok r' ∧
    bytes r' = x.drop n
  limit : ∀ r n, bytes (L.limitReader r n) = (bytes r).take n.toNat
  readahead : ∀ r r', L.readahead r = some r' → bytes r' = bytes r

def plainS2 : S2Laws plainLayers where
  bytes := id
  decompress := some
  decompress_nil := rfl
  decompress_append a b x y ha hb := by
    cases ha
    cases hb
    rfl
  skip r x n hx hn := by
    cases hx
    exact ⟨_, if_pos hn, rfl⟩
  limit _ _ := rfl
  readahead r r' h := by
    cases h
    rfl

abbrev Chunks := List (Bytes × Bytes)

def stored (cs : Chunks) : Bytes := (cs.map Prod.fst).flatten

def content (cs : Chunks) : Bytes := (cs.map Prod.snd).flatten

variable {ρ η φ : Type} {L : Layers ρ η} {S : S2Laws L} {oi : ObjectInfo} {cs : Chunks}

variable (S oi cs) in
/-- A compressed object with these parts. -/
structure Stores : Prop where
  compressed : isCompressedOK oi = .ok true
  parts : oi.parts = cs.map fun c => ⟨c.1.length, c.2.length⟩
  size : oi.size = (stored cs).length
  actualSize : getActualSize oi = (content cs).length
  decompress : ∀ c ∈ cs, S.decompress c.1 = some c.2

theorem stores_fourBytes : Stores plainS2 fourBytes [(lit "abcd", lit "abcd")] :=
  ⟨by decide, rfl, by decide, by decide, by simp [plainS2]⟩

/-- For the stored bytes it asks for, `NewGetObjectReader` makes a reader that yields the range from
`x` on of length `n`. -/
def RangeLaw (S : S2Laws L) (oi : ObjectInfo) (cs : Chunks) (rs : Option HTTPRangeSpec)
    (x n : Int) : Prop :=
  ∀ (cleanUpFns cFns : List φ) (h : η) (pcfn : Precond), refuses pcfn oi [] = false →
    ∃ fn off length, newGetObjectReader L rs oi cleanUpFns = ([], .ok (fn, off, length)) ∧
      ∀ input, S.bytes input = byteRange (stored cs) off length →
        ∃ r, fn input h pcfn cFns = ([], .ok r) ∧ S.bytes r.pReader = byteRange (content cs) x n

theorem decompress_stored (h : ∀ c ∈ cs, S.decompress c.1 = some c.2) :
    S.decompress (stored cs) = some (content cs) := by
  induction cs with
  | nil => exact S.decompress_nil
  | cons c cs ih =>
    exact S.decompress_append _ _ _ _ (h c mem_cons_self) (ih fun c' hc' =>
      h c' (mem_cons_of_mem _ hc'))

/-- The loop stops at the part that holds the offset, and behind all parts if there is none. -/
theorem skipParts_eq (cs : Chunks) (comp cum y : Nat) :
    (y < (content cs).length → ∃ a b : Chunks, cs = a ++ b ∧ (content a).length ≤ y ∧
      skipParts (cum + y : Nat) (cs.map fun c => ⟨c.1.length, c.2.length⟩) comp cum =
        (((comp + (stored a).length : Nat) : Int), ((cum + (content a).length : Nat) : Int))) ∧
    ((content cs).length ≤ y →
      skipParts (cum + y : Nat) (cs.map fun c => ⟨c.1.length, c.2.length⟩) comp cum =
        (((comp + (stored cs).length : Nat) : Int), 0)) := by
  induction cs generalizing comp cum y with
  | nil => simp [content, stored, skipParts]
  | cons c cs ih =>
    have hlen : content (c :: cs) = c.2 ++ (content cs) := rfl
    have hstored : stored (c :: cs) = c.1 ++ (stored cs) := rfl
    rw [map_cons, skipParts, hlen, hstored, length_append, length_append]
    by_cases hin : c.2.length ≤ y
    · obtain ⟨hinside, hbehind⟩ := ih (comp + c.1.length) (cum + c.2.length) (y - c.2.length)
      rw [show cum + c.2.length + (y - c.2.length) = cum + y by omega] at hinside hbehind
      simp only [Nat.cast_add] at hinside hbehind ⊢
      rw [if_pos (by omega)]
      refine ⟨fun hy => ?_, fun hy => ?_⟩
      · obtain ⟨a, b, rfl, ha, heq⟩ := hinside (by omega)
        refine ⟨c :: a, b, rfl, ?_, ?_⟩
        · simp only [content, map_cons, flatten_cons, length_append] at ha ⊢
          omega
        · rw [heq]
          simp [content, stored, Int.add_assoc]
      · rw [hbehind (by omega), Int.add_assoc]
    · dsimp only
      rw [if_neg (by omega)]
      refine ⟨fun _ => ⟨[], c :: cs, rfl, Nat.zero_le _, ?_⟩, fun hy => absurd hy (by omega)⟩
      simp [content, stored]

/-- The function of the second step, where skipping works. -/
theorem compressedFn_bytes {input : ρ} {decompressed : Bytes}
    (hdec : S.decompress (S.bytes input) = some decompressed)
    {k : Nat} (hk : k ≤ decompressed.length) (decLength : Int) (cleanUpFns cFns : List φ) (h : η)
    {pcfn : Precond} (hpc : refuses pcfn oi [] = false) :
    ∃ r, compressedFn L oi cleanUpFns k decLength input h pcfn cFns = ([], .ok r) ∧
      S.bytes r.pReader = (decompressed.drop k).take decLength.toNat := by
  obtain ⟨r', hskip, hbytes⟩ := S.skip input decompressed k hdec hk
  have hlimit : S.bytes (L.limitReader r' decLength) =
    (decompressed.drop k).take decLength.toNat := by rw [S.limit, hbytes]
  unfold compressedFn
  simp only [hpc, Bool.false_eq_true, if_false, hskip]
  cases hahead : if decLength > compReadAheadSize then L.readahead (L.limitReader r' decLength)
      else none with
  | none => exact ⟨_, rfl, hlimit⟩
  | some rah =>
    refine ⟨_, rfl, ?_⟩
    split_ifs at hahead
    rw [← hlimit]
    exact S.readahead _ _ hahead

theorem Stores.compressedRange_none (hs : Stores S oi cs) :
    compressedRange none oi = .ok (0, (stored cs).length, 0, (content cs).length) := by
  simp only [compressedRange, hs.actualSize, hs.size]
  rw [if_neg (by omega)]

theorem Stores.compressedRange_some (hs : Stores S oi cs) {h : HTTPRangeSpec} {x n : Nat}
    (hr : getOffsetLength (some h) (content cs).length = .ok ((x : Int), (n : Int)))
    {off skipped : Nat}
    (hoff : skipParts x oi.parts 0 0 = ((off : Int), (skipped : Int))) (hskipped : skipped ≤ x)
    (hin : x + n ≤ (content cs).length) :
    compressedRange (some h) oi = .ok (off, (stored cs).length - off, (x - skipped : Nat), n) := by
  simp only [compressedRange, hs.actualSize, hs.size, hr, getCompressedOffsets, hoff]
  rw [if_neg (by omega), if_neg (by omega), if_neg (by omega), Nat.cast_sub hskipped]

theorem stored_append (a b : Chunks) : stored (a ++ b) = stored a ++ stored b := by simp [stored]

theorem content_append (a b : Chunks) : content (a ++ b) = content a ++ content b := by
  simp [content]

theorem newGetObjectReader_eq (hs : Stores S oi cs) {rs : Option HTTPRangeSpec}
    {off length decOff decLength : Int}
    (hrange : compressedRange rs oi = .ok (off, length, decOff, decLength)) (cleanUpFns : List φ) :
    newGetObjectReader L rs oi cleanUpFns =
      ([], .ok (compressedFn L oi cleanUpFns decOff decLength, off, length)) := by
  rw [newGetObjectReader, setup_of_compressed hs.compressed hrange]

theorem rangeLaw_of_parts {a b : Chunks} (hs : Stores S oi (a ++ b)) {rs : Option HTTPRangeSpec}
    {x n : Nat} {length : Int} (hlength : length = (stored b).length) (ha : (content a).length ≤ x)
    (hx : x ≤ (content (a ++ b)).length)
    (hrange : compressedRange rs oi = .ok ((stored a).length, length,
      (x - (content a).length : Nat), n)) :
    RangeLaw (φ := φ) S oi (a ++ b) rs x n := by
  intro cleanUpFns cFns h pcfn hpc
  refine ⟨_, _, _, newGetObjectReader_eq hs hrange cleanUpFns, fun input hinput => ?_⟩
  have hb : S.decompress (S.bytes input) = some (content b) := by
    have hbytes : S.bytes input = stored b := by simp [hinput, byteRange, stored_append, hlength]
    rw [hbytes]
    exact decompress_stored fun c hc => hs.decompress c (mem_append_right a hc)
  rw [content_append, length_append] at hx
  have hk : x - (content a).length ≤ (content b).length := by omega
  obtain ⟨r, hr, hout⟩ := compressedFn_bytes hb hk n cleanUpFns cFns h hpc
  refine ⟨r, hr, hout.trans ?_⟩
  rw [byteRange, content_append, Int.toNat_natCast, Int.toNat_natCast, drop_append,
    drop_eq_nil_of_le ha, nil_append]

/-- The ranges the server builds: a suffix range has a length. -/
def Built (rs : Option HTTPRangeSpec) : Prop := ∀ h ∈ rs, h.isSuffixLength = true → h.start < 0

theorem built_of_accepted {rs : Option HTTPRangeSpec} (h : Accepted rs) : Built rs := by
  intro spec hspec hsuffix
  obtain ⟨rangeString, hparse⟩ := h spec hspec
  simpa only [hsuffix, if_true] using parseRequestRangeSpec_ok hparse

/-- The range `SelectObjectContentHandler` asks for. -/
def selectRange (offset length : Int) : HTTPRangeSpec := ⟨offset < 0, offset, offset + length⟩

theorem built_selectRange (offset length : Int) : Built (some (selectRange offset length)) := by
  rintro _ ⟨⟩ hsuffix
  exact of_decide_eq_true hsuffix

/-- A range that is built begins in front of a byte, if there is one. -/
theorem Built.lt_size {h : HTTPRangeSpec} (hb : Built (some h)) {size x n : Int} (hsize : 0 < size)
    (hr : getOffsetLength (some h) size = .ok (x, n)) : x < size := by
  have hsuffix := hb h rfl
  unfold getOffsetLength getLength at hr
  dsimp only at hr
  split_ifs at hr <;> cases hr <;> simp_all

/-- A range that resolves inside the content is read as it should. -/
theorem compressedRange_built (S : S2Laws L) (oi : ObjectInfo) (cs : Chunks) (hs : Stores S oi cs)
    (rs : Option HTTPRangeSpec) (hrs : Built rs) (x n : Int)
    (hr : getOffsetLength rs (content cs).length = .ok (x, n)) (hx : 0 ≤ x) (hn : 0 ≤ n)
    (hin : x + n ≤ (content cs).length) : RangeLaw (φ := φ) S oi cs rs x n := by
  lift x to Nat using hx
  lift n to Nat using hn
  cases rs with
  | none =>
    cases hr
    exact rangeLaw_of_parts (a := []) hs rfl (Nat.zero_le _) (Nat.zero_le _) hs.compressedRange_none
  | some spec =>
    obtain ⟨hinside, hbehind⟩ := skipParts_eq cs 0 0 x
    rw [← hs.parts, Nat.zero_add] at hinside hbehind
    by_cases hlt : x < (content cs).length
    · obtain ⟨a, b, rfl, ha, heq⟩ := hinside hlt
      simp only [Nat.zero_add] at heq
      refine rangeLaw_of_parts hs ?_ ha hlt.le (hs.compressedRange_some hr heq ha (by omega))
      simp [stored_append]
    · -- only the empty object has no byte behind the start of the range
      have hzero : (content cs).length = 0 := by
        by_contra hne
        have := hrs.lt_size (by omega) hr
        omega
      have heq : skipParts x oi.parts 0 0 = (((stored cs).length : Int), ((0 : Nat) : Int)) := by
        simpa using hbehind (by omega)
      have hrange := hs.compressedRange_some hr heq (Nat.zero_le _) (by omega)
      rw [← append_nil cs] at hs ⊢
      have hrest : ((stored cs).length : Int) - (stored cs).length = (stored []).length := by
        simp [stored]
      refine rangeLaw_of_parts hs hrest (by omega) (by simp; omega) ?_
      rw [hrange, hzero]

theorem compressedRange_fourBytes :
    Built (some ⟨false, 1, 2⟩) ∧
      RangeLaw (φ := Unit) plainS2 fourBytes [(lit "abcd", lit "abcd")]
        (some ⟨false, 1, 2⟩) 1 2 := by
  have hbuilt : Built (some ⟨false, 1, 2⟩) := by
    rintro _ ⟨⟩ hsuffix
    cases hsuffix
  exact ⟨hbuilt, compressedRange_built plainS2 fourBytes [(lit "abcd", lit "abcd")] stores_fourBytes
    (some ⟨false, 1, 2⟩) hbuilt 1 2 (by decide) (by decide) (by decide) (by decide)⟩

end S3Kinetic.ObjectReader
