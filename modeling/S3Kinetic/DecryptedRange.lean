import S3Kinetic.Reading
import S3Kinetic.Decryption

/-!
# Ranges of encrypted objects

To serve a range of an encrypted object, `GetDecryptedRange` looks up the part and the package in
which the range starts and those in which it ends, and asks for the packages between them. Both
scans over the parts use the same two accumulators. `getDecryptedRange_covers`: the range of the
stored object that comes out consists of the packages from the first to the last one needed.
-/

namespace S3Kinetic.Decryption

open ByteString Blocks List

/-- The sizes of the encryption library. It encrypts up to 2^32 packages under one key. -/
structure SioSizes where
  encryptedSize : Nat → Option Nat
  decryptedSize : Nat → Option Nat
  encryptedSize_eq : ∀ x size, encryptedSize x = some size → size = x + 32 * ((x + 65535) / 65536)
  limited : ∀ x size, encryptedSize x = some size → x ≤ 2 ^ 48
  decryptedSize_eq : ∀ x size, encryptedSize x = some size → decryptedSize size = some x

/-- `sio.EncryptedSize` with its error ignored. -/
def SioSizes.encSize (sio : SioSizes) (size : Nat) : Nat := (sio.encryptedSize size).getD 0

/-- The fields of an object that the range of an encrypted one depends on. -/
structure ObjectInfo where
  /-- `crypto.IsEncrypted` and `crypto.IsMultiPart` of the metadata. -/
  isEncrypted : Bool
  isMultiPart : Bool
  size : Int
  parts : List ObjectPartInfo
  backendErasure : Bool
  etag : Bytes

inductive RangeErr where
  | notEncrypted | errObjectTampered
  | range (e : S3Kinetic.Err)

structure DecryptedRange where
  encOff : Int
  encLength : Int
  skipLen : Int
  seqNumber : UInt32
  partStart : Nat
  deriving DecidableEq

def isEncryptedMultipart (sio : SioSizes) (o : ObjectInfo) : Bool :=
  if o.parts = [] then false
  else if !o.isMultiPart then false
  else if o.parts.any fun part => (sio.decryptedSize part.size).isNone then false
  else !(o.backendErasure && o.etag.length = 32)

/-- The decrypted sizes of the parts, of the one part if the object was not uploaded in parts. -/
def decryptedSizes (sio : SioSizes) (o : ObjectInfo) : Option (List Nat) :=
  if isEncryptedMultipart sio o then o.parts.mapM fun part => sio.decryptedSize part.size
  else (sio.decryptedSize o.size.toNat).map fun size => [size]

/-- The loop that looks for the part of a byte, with the sizes of the parts before it. -/
def locate (sio : SioSizes) (off : Int) : List Nat → Nat → Int → Int → Option Nat × Int × Int
  | [], _, cumulativeSum, encCumulativeSum => (none, cumulativeSum, encCumulativeSum)
  | size :: sizes, i, cumulativeSum, encCumulativeSum =>
    if off < cumulativeSum + size then (some i, cumulativeSum, encCumulativeSum)
    else locate sio off sizes (i + 1) (cumulativeSum + size) (encCumulativeSum + sio.encSize size)

/-- The algorithm for a resolved range. -/
def packageRange (sio : SioSizes) (sizes : List Nat) (off length : Int) : DecryptedRange :=
  let (found, cumulativeSum, encCumulativeSum) := locate sio off sizes 0 0 0
  let partStart := found.getD 0
  let startPkgNum := (off - cumulativeSum).tdiv sseDAREPackageBlockSize
  let skipLen := (off - cumulativeSum).tmod sseDAREPackageBlockSize
  let encOff := encCumulativeSum + startPkgNum * onePkgSize
  let endOffset := off + length - 1
  let (found, cumulativeSum, encCumulativeSum) :=
    locate sio endOffset (sizes.drop partStart) partStart cumulativeSum encCumulativeSum
  let partEnd := found.getD 0
  let endPkgNum := (endOffset - cumulativeSum).tdiv sseDAREPackageBlockSize
  let endEncOffset := encCumulativeSum + (endPkgNum + 1) * onePkgSize
  let lastPartSize := sio.encSize (sizes.getD partEnd 0)
  -- the last package of a part may be shorter
  let endEncOffset :=
    if endEncOffset > encCumulativeSum + lastPartSize then encCumulativeSum + lastPartSize
      else endEncOffset
  ⟨encOff, endEncOffset - encOff, skipLen, UInt32.ofInt startPkgNum, partStart⟩

def getDecryptedRange (sio : SioSizes) (o : ObjectInfo) (rs : Option HTTPRangeSpec) :
    Except RangeErr DecryptedRange :=
  if !o.isEncrypted then .error .notEncrypted
  else
    match rs with
    | none => .ok ⟨0, o.size, 0, 0, 0⟩
    | some rs =>
      match decryptedSizes sio o with
      | none => .error .errObjectTampered
      | some sizes =>
        match getOffsetLength (some rs) (sizes.sum : Nat) with
        | .error e => .error (.range e)
        | .ok (off, length) => .ok (packageRange sio sizes off length)

/-! ## Packages -/

def packages (sizes : List Nat) : List Nat := sizes.flatMap (payloads sseDAREPackageBlockSize)

def decPos (sizes : List Nat) (i : Nat) : Nat := ((packages sizes).take i).sum

def encPos (sizes : List Nat) (i : Nat) : Nat :=
  (((packages sizes).take i).map (· + sseDAREPackageMetaSize)).sum

def InPackage (sizes : List Nat) (i x : Nat) : Prop := decPos sizes i ≤ x ∧ x < decPos sizes (i + 1)

/-- The object is stored encrypted, with parts of these decrypted sizes. -/
structure ObjectInfo.Stores (sio : SioSizes) (o : ObjectInfo) (sizes : List Nat) : Prop where
  marked : o.isEncrypted = true
  encrypted : ∀ size ∈ sizes, (sio.encryptedSize size).isSome
  size_eq : o.size = (sizes.map sio.encSize).sum
  parts_eq : if isEncryptedMultipart sio o then o.parts.map ObjectPartInfo.size =
    sizes.map sio.encSize
    else sizes.length = 1

/-- The packages `first` to `last` are those that hold bytes of the range, and the result stands for
them. -/
structure Covers (sizes : List Nat) (off length : Nat) (r : DecryptedRange) (first last : Nat) :
    Prop where
  first_eq : first = (packages (sizes.take r.partStart)).length + r.seqNumber.toNat
  inPart : ∃ size, sizes[r.partStart]? = some size ∧
    r.seqNumber.toNat < (payloads sseDAREPackageBlockSize size).length
  first_in : InPackage sizes first off
  last_in : InPackage sizes last (off + length - 1)
  first_le : first ≤ last
  last_lt : last < (packages sizes).length
  encOff_eq : r.encOff = encPos sizes first
  encLength_eq : r.encOff + r.encLength = encPos sizes (last + 1)
  skipLen_eq : r.skipLen = off - decPos sizes first

section Positions

variable {sizes before after : List Nat} {size k x : Nat}

theorem packages_append : packages (before ++ after) = packages before ++ packages after :=
  flatMap_append

theorem packages_cons : packages (size :: sizes) = payloads sseDAREPackageBlockSize size ++
    packages sizes :=
  flatMap_cons

theorem take_packages (hk : k ≤ (payloads sseDAREPackageBlockSize size).length) :
    (packages (before ++ size :: after)).take ((packages before).length + k) =
      packages before ++ (payloads sseDAREPackageBlockSize size).take k := by
  rw [packages_append, packages_cons, take_length_add_append, take_append_of_le_length hk]

theorem sum_packages (sizes : List Nat) : (packages sizes).sum = sizes.sum := by
  induction sizes with
  | nil => rfl
  | cons size sizes ih => rw [packages_cons, sum_append, ih, sum_payloads blockSize_pos, sum_cons]

def framedSize (size : Nat) : Nat :=
  framedLength sseDAREPackageBlockSize sseDAREPackageMetaSize size

theorem sum_packages_framed (sizes : List Nat) :
    ((packages sizes).map (· + sseDAREPackageMetaSize)).sum = (sizes.map framedSize).sum := by
  induction sizes with
  | nil => rfl
  | cons size sizes ih =>
    rw [packages_cons, map_append, sum_append, ih, sum_framed blockSize_pos, map_cons, sum_cons,
      framedSize]

theorem decPos_part (hk : k ≤ (payloads sseDAREPackageBlockSize size).length) :
    decPos (before ++ size :: after) ((packages before).length + k) =
      before.sum + min (k * sseDAREPackageBlockSize) size := by
  rw [decPos, take_packages hk, sum_append, sum_packages, sum_take_payloads blockSize_pos]

theorem encPos_part (hk : k ≤ (payloads sseDAREPackageBlockSize size).length) :
    encPos (before ++ size :: after) ((packages before).length + k) =
      (before.map framedSize).sum + min (k * onePkgSize) (framedSize size) := by
  rw [encPos, take_packages hk, map_append, sum_append, sum_packages_framed,
    sum_take_framed blockSize_pos, onePkgSize, framedSize]

theorem package_of_byte (hx : x < size) (before after : List Nat) :
    let i := (packages before).length + x / sseDAREPackageBlockSize
    InPackage (before ++ size :: after) i (before.sum + x) ∧
      i < (packages (before ++ size :: after)).length ∧
      x / sseDAREPackageBlockSize < (payloads sseDAREPackageBlockSize size).length ∧
      decPos (before ++ size :: after) i = before.sum + x / sseDAREPackageBlockSize *
        sseDAREPackageBlockSize ∧
      encPos (before ++ size :: after) i = (before.map framedSize).sum +
        x / sseDAREPackageBlockSize * onePkgSize ∧
      encPos (before ++ size :: after) (i + 1) =
        (before.map framedSize).sum + min ((x / sseDAREPackageBlockSize + 1) * onePkgSize)
            (framedSize size) := by
  intro i
  have hle : x / sseDAREPackageBlockSize * sseDAREPackageBlockSize ≤ x := Nat.div_mul_le_self ..
  have hlt : x < (x / sseDAREPackageBlockSize + 1) * sseDAREPackageBlockSize := 
    (Nat.div_lt_iff_lt_mul blockSize_pos).1 (Nat.lt_succ_self _)
  have hk : x / sseDAREPackageBlockSize < (payloads sseDAREPackageBlockSize size).length :=
    (lt_length_payloads blockSize_pos).2 (by omega)
  have hdec : decPos (before ++ size :: after) i = before.sum + x / sseDAREPackageBlockSize *
      sseDAREPackageBlockSize := by
    rw [decPos_part hk.le, Nat.min_eq_left (by omega)]
  have hnext : decPos (before ++ size :: after) (i + 1) =
      before.sum + min ((x / sseDAREPackageBlockSize + 1) * sseDAREPackageBlockSize) size :=
        decPos_part hk
  refine ⟨⟨by omega, by omega⟩, ?_, hk, hdec, ?_, encPos_part hk⟩
  · rw [packages_append, packages_cons, length_append, length_append]
    omega
  · rw [encPos_part hk.le, Nat.min_eq_left]
    exact le_framedLength blockSize_pos (by omega)

theorem decPos_mono {i j : Nat} (h : i ≤ j) : decPos sizes i ≤ decPos sizes j := by
  obtain ⟨d, rfl⟩ := Nat.exists_eq_add_of_le h
  rw [decPos, decPos, take_add, sum_append]
  omega

theorem InPackage.le {i j y : Nat} (hi : InPackage sizes i x) (hj : InPackage sizes j y)
    (h : x ≤ y) : i ≤ j := by
  by_contra hlt
  have := @decPos_mono sizes (j + 1) i (by omega)
  have := hi.1
  have := hj.2
  omega

end Positions

section Scans

variable {sio : SioSizes}

theorem encSize_eq {size : Nat} (h : (sio.encryptedSize size).isSome) :
    sio.encSize size = framedSize size := by
  obtain ⟨n, hn⟩ := Option.isSome_iff_exists.1 h
  rw [SioSizes.encSize, hn, Option.getD_some, sio.encryptedSize_eq _ _ hn, framedSize,
    framedLength_eq blockSize_pos]
  unfold sseDAREPackageBlockSize sseDAREPackageMetaSize
  omega

theorem locate_eq {sizes : List Nat} (hsio : ∀ size ∈ sizes, (sio.encryptedSize size).isSome)
    {x : Nat} (hx : x < sizes.sum) (i : Nat) (c e : Int) :
    ∃ before size after, sizes = before ++ size :: after ∧ before.sum ≤ x ∧ x < before.sum + size ∧
      locate sio (c + x) sizes i c e =
        (some (i + before.length), c + before.sum, e + (before.map framedSize).sum) := by
  induction sizes generalizing x i c e with
  | nil => simp at hx
  | cons size sizes ih =>
    by_cases hlt : x < size
    · refine ⟨[], size, sizes, rfl, Nat.zero_le _, by simpa using hlt, ?_⟩
      rw [locate, if_pos (by omega)]
      simp
    · have hsum : x - size < sizes.sum := by rw [sum_cons] at hx; omega
      obtain ⟨before, s, after, rfl, hle, hin, heq⟩ :=
        ih (fun s hs => hsio s (by simp [hs])) hsum (i + 1) (c + size) (e + sio.encSize size)
      refine ⟨size :: before, s, after, rfl, by rw [sum_cons]; omega, by rw [sum_cons]; omega, ?_⟩
      have hc : c + (size : Int) + ((x - size : Nat) : Int) = c + x := by omega
      rw [hc] at heq
      rw [locate, if_neg (by omega), heq, encSize_eq (hsio size (by simp)), length_cons,
        sum_cons, map_cons, sum_cons]
      simp only [Nat.cast_add, Prod.mk.injEq, Option.some.injEq]
      exact ⟨by omega, by omega, by omega⟩

theorem toNat_ofInt {k : Nat} (h : k < 2 ^ 32) : (UInt32.ofInt k).toNat = k := by
  simp only [UInt32.ofInt, Int.reducePow, UInt32.toNat_ofNat', Nat.reducePow]
  omega

theorem clamp_eq (e : Int) (a b : Nat) :
    (if e + a > e + b then e + b else e + a) = e + (min a b : Nat) := by
  split_ifs <;> omega

/-- What comes out for a range that starts at byte `x₁` of a part and ends at byte `x₂` of the same
or a later part. -/
theorem packageRange_eq {b₁ a₁ b₂ a₂ : List Nat} {s₁ s₂ x₁ x₂ : Nat}
    (hrest : s₁ :: a₁ = b₂ ++ s₂ :: a₂) {off length : Int} (hsio : (sio.encryptedSize s₂).isSome)
    (hoff : off = (b₁.sum + x₁ : Nat)) (hend : off + length - 1 = (b₁.sum + b₂.sum + x₂ : Nat))
    (hloc₁ : locate sio off (b₁ ++ s₁ :: a₁) 0 0 0 = (some b₁.length, (b₁.sum : Int),
      ((b₁.map framedSize).sum : Int)))
    (hloc₂ : locate sio (off + length - 1) (s₁ :: a₁) b₁.length b₁.sum (b₁.map framedSize).sum =
      (some (b₁.length + b₂.length), (b₁.sum + b₂.sum : Int),
        ((b₁.map framedSize).sum + (b₂.map framedSize).sum : Int))) :
    packageRange sio (b₁ ++ s₁ :: a₁) off length =
      { encOff := (b₁.map framedSize).sum + (x₁ / sseDAREPackageBlockSize : Nat) * onePkgSize
        encLength := ((b₁ ++ b₂).map framedSize).sum +
          (min ((x₂ / sseDAREPackageBlockSize + 1) * onePkgSize) (framedSize s₂) : Nat) -
            ((b₁.map framedSize).sum + (x₁ / sseDAREPackageBlockSize : Nat) * onePkgSize)
        skipLen := (x₁ % sseDAREPackageBlockSize : Nat)
        seqNumber := UInt32.ofInt (x₁ / sseDAREPackageBlockSize : Nat)
        partStart := b₁.length } := by
  have hx₁ : off - b₁.sum = (x₁ : Int) := by omega
  have hx₂ : off + length - 1 - ((b₁.sum : Int) + b₂.sum) = (x₂ : Int) := by omega
  have hdrop : (b₁ ++ s₁ :: a₁).drop b₁.length = s₁ :: a₁ := drop_left
  have hlast : (b₁ ++ s₁ :: a₁).getD (b₁.length + b₂.length) 0 = s₂ := by
    rw [hrest]
    simp [getD_eq_getElem?_getD]
  have hnext : ((x₂ / sseDAREPackageBlockSize : Nat) + 1 : Int) * onePkgSize =
      ((x₂ / sseDAREPackageBlockSize + 1) * onePkgSize : Nat) := by push_cast; rfl
  simp only [packageRange, hloc₁, Option.getD_some, hdrop, hloc₂, hx₁, hx₂, ← Int.ofNat_tdiv,
    ← Int.ofNat_tmod, hlast, encSize_eq hsio, hnext, clamp_eq, map_append, sum_append, Nat.cast_add]

theorem packageRange_covers {sizes : List Nat}
    (hsio : ∀ size ∈ sizes, (sio.encryptedSize size).isSome)
    {off length : Nat} (hlen : 1 ≤ length) (hin : off + length ≤ sizes.sum) :
    ∃ first last, Covers sizes off length (packageRange sio sizes off length) first last := by
  obtain ⟨b₁, s₁, a₁, rfl, hle₁, hlt₁, hloc₁⟩ :=
    locate_eq hsio (show off < sizes.sum by omega) 0 0 0
  rw [sum_append] at hin
  -- the second scan goes on where the first one stopped
  obtain ⟨b₂, s₂, a₂, hrest, hle₂, hlt₂, hloc₂⟩ :=
    locate_eq (fun size hs => hsio size (mem_append_right _ hs))
      (show off + length - 1 - b₁.sum < (s₁ :: a₁).sum by omega) b₁.length b₁.sum
        (b₁.map framedSize).sum
  have hend : (b₁.sum : Int) + ((off + length - 1 - b₁.sum : Nat) : Int) =
    (off : Int) + length - 1 := by omega
  have hs₂ : (sio.encryptedSize s₂).isSome := hsio s₂ (by rw [hrest]; simp)
  rw [hend] at hloc₂
  have hoff : (off : Int) = (b₁.sum + (off - b₁.sum) : Nat) := by omega
  have hlast : (off : Int) + length - 1 = (b₁.sum + b₂.sum + (off + length - 1 - b₁.sum - b₂.sum) :
    Nat) := by omega
  have heq := packageRange_eq hrest hs₂ hoff hlast (by simpa using hloc₁) hloc₂
  generalize hx₁ : off - b₁.sum = x₁ at heq
  generalize hx₂ : off + length - 1 - b₁.sum - b₂.sum = x₂ at heq
  obtain ⟨hin₁, -, hk₁, hdec₁, henc₁, -⟩ := package_of_byte (show x₁ < s₁ by omega) b₁ a₁
  obtain ⟨hin₂, hlt, -, -, -, henc₂⟩ := package_of_byte (show x₂ < s₂ by omega) (b₁ ++ b₂) a₂
  have hsizes : b₁ ++ b₂ ++ s₂ :: a₂ = b₁ ++ s₁ :: a₁ := by rw [hrest, append_assoc]
  rw [hsizes] at hin₂ hlt henc₂
  have hfirst : b₁.sum + x₁ = off := by omega
  have hbyte : (b₁ ++ b₂).sum + x₂ = off + length - 1 := by rw [sum_append]; omega
  rw [hfirst] at hin₁
  rw [hbyte] at hin₂
  have hseq : (UInt32.ofInt (x₁ / sseDAREPackageBlockSize : Nat)).toNat =
      x₁ / sseDAREPackageBlockSize := by
    obtain ⟨n, hn⟩ := Option.isSome_iff_exists.1 (hsio s₁ (by simp))
    have hlim := sio.limited _ _ hn
    refine toNat_ofInt (Nat.div_lt_of_lt_mul ?_)
    have : sseDAREPackageBlockSize * 2 ^ 32 = 2 ^ 48 := by decide
    omega
  refine ⟨_, _, ?_, ?_, hin₁, hin₂, hin₁.le hin₂ (by omega), hlt, ?_, ?_, ?_⟩
  · simp only [heq, hseq, take_left]
  · simp only [heq, hseq]
    exact ⟨s₁, by simp, hk₁⟩
  · simp only [heq, henc₁, Nat.cast_add, Nat.cast_mul]
  · simp only [heq, henc₂, Nat.cast_add]
    exact add_sub_cancel _ _
  · simp only [heq, hdec₁]
    have hdiv := Nat.div_add_mod' x₁ sseDAREPackageBlockSize
    generalize x₁ / sseDAREPackageBlockSize * sseDAREPackageBlockSize = q at hdiv ⊢
    generalize x₁ % sseDAREPackageBlockSize = m at hdiv ⊢
    omega

end Scans

/-! ## Ranges -/

section Ranges

variable {sio : SioSizes} {o : ObjectInfo} {sizes : List Nat}

theorem mapM_decryptedSize (hsio : ∀ size ∈ sizes, (sio.encryptedSize size).isSome)
    {parts : List ObjectPartInfo} (hparts : parts.map ObjectPartInfo.size = sizes.map sio.encSize) :
    parts.mapM (fun part => sio.decryptedSize part.size) = some sizes := by
  induction sizes generalizing parts with
  | nil => simp_all
  | cons size sizes ih =>
    obtain ⟨part, parts, rfl, hpart, hrest⟩ := map_eq_cons_iff.1 hparts
    obtain ⟨n, hn⟩ := Option.isSome_iff_exists.1 (hsio size (by simp))
    rw [SioSizes.encSize, hn, Option.getD_some] at hpart
    simp [hpart, sio.decryptedSize_eq _ _ hn, ih (fun s hs => hsio s (by simp [hs])) hrest]

theorem ObjectInfo.Stores.decryptedSizes_eq (h : o.Stores sio sizes) :
    decryptedSizes sio o = some sizes := by
  have hparts := h.parts_eq
  rw [decryptedSizes]
  split_ifs at hparts ⊢ with hmulti
  · exact mapM_decryptedSize h.encrypted hparts
  · obtain ⟨size, rfl⟩ := length_eq_one_iff.1 hparts
    obtain ⟨n, hn⟩ := Option.isSome_iff_exists.1 (h.encrypted size (by simp))
    have hsize : o.size.toNat = n := by simp [h.size_eq, SioSizes.encSize, hn]
    rw [hsize, sio.decryptedSize_eq _ _ hn, Option.map_some]

theorem ObjectInfo.Stores.size_eq_framed (h : o.Stores sio sizes) :
    o.size = (sizes.map framedSize).sum := by
  rw [h.size_eq, map_congr_left fun size hs => encSize_eq (h.encrypted size hs)]

theorem encPos_le (sizes : List Nat) (i : Nat) : encPos sizes i ≤ (sizes.map framedSize).sum := by
  rw [← sum_packages_framed, encPos]
  conv_rhs => rw [← take_append_drop i (packages sizes), map_append, sum_append]
  omega

theorem succ_eq_length {i : Nat} (hi : i < (packages sizes).length)
    (hsum : sizes.sum ≤ decPos sizes (i + 1)) :
    i + 1 = (packages sizes).length := by
  by_contra hne
  have hlt : i + 1 < (packages sizes).length := by omega
  have hpos : 0 < (packages sizes)[i + 1] := by
    obtain ⟨size, -, hmem⟩ := mem_flatMap.1 (getElem_mem hlt)
    exact pos_of_mem_payloads blockSize_pos hmem
  have hstep : decPos sizes (i + 1 + 1) = decPos sizes (i + 1) + (packages sizes)[i + 1] := by
    rw [decPos, decPos, take_succ_eq_append_getElem hlt, sum_append, sum_singleton]
  have hle : decPos sizes (i + 1 + 1) ≤ sizes.sum := by
    rw [← sum_packages, decPos]
    conv_rhs => rw [← take_append_drop (i + 1 + 1) (packages sizes), sum_append]
    omega
  omega

theorem whole_covers (h : o.Stores sio sizes) (hsum : 1 ≤ sizes.sum)
    (hpos : ∀ size ∈ sizes, 0 < size) :
    ∃ last, Covers sizes 0 sizes.sum ⟨0, o.size, 0, 0, 0⟩ 0 last := by
  obtain ⟨_, last, hc⟩ := packageRange_covers h.encrypted (show 1 ≤ sizes.sum from hsum)
    (Nat.zero_add _).le
  have hlast := succ_eq_length hc.last_lt (by have := hc.last_in.2; omega)
  cases sizes with
  | nil => simp at hsum
  | cons size rest =>
    have hsize : 0 < size := hpos size (by simp)
    obtain ⟨hin, -, hk, -, -, -⟩ := package_of_byte hsize [] rest
    have hfirst : InPackage (size :: rest) 0 0 := by simpa [packages] using hin
    refine ⟨last, rfl, ⟨size, rfl, by simpa using hk⟩, hfirst, hc.last_in, Nat.zero_le _,
      hc.last_lt, rfl, ?_, rfl⟩
    rw [hlast, encPos, take_length, sum_packages_framed, h.size_eq_framed, Int.zero_add]

end Ranges

/-- For every encrypted object and every range within it, the answer stands for the packages from
the one that holds the first byte to the one that holds the last, which all lie within the stored
object. -/
theorem getDecryptedRange_covers (sio : SioSizes) (o : ObjectInfo) (sizes : List Nat)
    (hstores : o.Stores sio sizes)
    (hpos : ∀ size ∈ sizes, 0 < size) (rs : Option HTTPRangeSpec) (off length : Nat)
    (hres : getOffsetLength rs (sizes.sum : Nat) = .ok (off, length)) (hlen : 1 ≤ length)
    (hin : off + length ≤ sizes.sum) :
    ∃ r first last, getDecryptedRange sio o rs = .ok r ∧ Covers sizes off length r first last ∧
      0 ≤ r.encOff ∧ r.encOff + r.encLength ≤ o.size := by
  have hwithin : ∀ {r first last}, Covers sizes off length r first last →
      0 ≤ r.encOff ∧ r.encOff + r.encLength ≤ o.size := fun hc => by
    rw [hc.encLength_eq, hc.encOff_eq, hstores.size_eq_framed]
    exact ⟨by omega, Int.ofNat_le.2 (encPos_le _ _)⟩
  cases rs with
  | none =>
    simp only [getOffsetLength, Except.ok.injEq, Prod.mk.injEq] at hres
    obtain ⟨h0, hsum⟩ := hres
    obtain rfl : off = 0 := by omega
    obtain rfl : length = sizes.sum := by omega
    obtain ⟨last, hc⟩ := whole_covers hstores hlen hpos
    exact ⟨_, 0, last, by simp [getDecryptedRange, hstores.marked], hc, hwithin hc⟩
  | some rs =>
    obtain ⟨first, last, hc⟩ := packageRange_covers hstores.encrypted hlen hin
    refine ⟨_, first, last, ?_, hc, hwithin hc⟩
    simp only [getDecryptedRange, hstores.marked, hstores.decryptedSizes_eq, hres]
    rfl

/-- The sizes of the library, with its limit. -/
def dareSizes : SioSizes where
  encryptedSize x := if x ≤ 2 ^ 48 then some (x + 32 * ((x + 65535) / 65536)) else none
  decryptedSize size := some (unframedLength 65536 32 size)
  encryptedSize_eq x size h := by
    split_ifs at h
    exact (Option.some.inj h).symm
  limited x size h := by
    split_ifs at h with hx
    exact hx
  decryptedSize_eq x size h := by
    split_ifs at h
    have hsize : size = framedLength 65536 32 x := by
      rw [framedLength_eq (by decide), ← Option.some.inj h]
      omega
    rw [hsize, unframedLength_framedLength (by decide)]

/-- An object of two parts, of 100000 and 70000 bytes. -/
def twoParts : ObjectInfo where
  isEncrypted := true
  isMultiPart := true
  size := 170128
  parts := [⟨1, 100064⟩, ⟨2, 70064⟩]
  backendErasure := false
  etag := []

/-- The bytes 65536 to 99999 are all of the second package of the first part. -/
theorem getDecryptedRange_covers_twoParts :
    ∃ r first last, getDecryptedRange dareSizes twoParts (some ⟨false, 65536, 99999⟩) = .ok r ∧
      Covers [100000, 70000] 65536 34464 r first last ∧ 0 ≤ r.encOff ∧ r.encOff + r.encLength ≤
        twoParts.size :=
  getDecryptedRange_covers dareSizes twoParts [100000, 70000]
    ⟨rfl, by decide, by decide, by decide⟩ (by decide) (some ⟨false, 65536, 99999⟩) 65536 34464
      (by decide) (by decide)
    (by decide)

example : packageRange dareSizes [100000, 70000] 65536 34464 = ⟨65568, 34496, 0, 1, 0⟩ := by decide

end S3Kinetic.Decryption
