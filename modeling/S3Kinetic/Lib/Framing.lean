import S3Kinetic.Lib.ByteString

/-!
# Frames with lengths and checksums

A frame on the wire: its total length and that of its header, each as a 32-bit big-endian number, a
checksum of these, the header, the payload and a checksum of everything before it. The lengths are
written modulo 2^32.

`decode` reads one frame and tests the lengths against the bytes and both checksums. A stream of
frames that are short enough for their length field is read back (`frames_flatMap_encode`), with any
function as the checksum; `crc32` is the IEEE one.
-/

namespace Framing

open List

def be32 (n : Nat) : Bytes :=
  [UInt8.ofNat (n / 2 ^ 24), UInt8.ofNat (n / 2 ^ 16), UInt8.ofNat (n / 2 ^ 8), UInt8.ofNat n]

def fromBE32 (b : Bytes) : Nat := b.foldl (fun n c => n * 256 + c.toNat) 0

theorem fromBE32_be32 {n : Nat} (h : n < 2 ^ 32) : fromBE32 (be32 n) = n := by
  simp only [fromBE32, be32, foldl_cons, foldl_nil, UInt8.toNat_ofNat']
  omega

structure Frame where
  header : Bytes
  payload : Bytes
deriving DecidableEq

namespace Frame

def length (f : Frame) : Nat := 4 + 4 + 4 + f.header.length + f.payload.length + 4

def lengths (f : Frame) : Bytes := be32 f.length ++ be32 f.header.length

variable (checksum : Bytes → Nat)

def body (f : Frame) : Bytes := f.lengths ++ be32 (checksum f.lengths) ++ f.header ++ f.payload

def encode (f : Frame) : Bytes := f.body checksum ++ be32 (checksum (f.body checksum))

theorem length_body (f : Frame) :
    (f.body checksum).length = 12 + f.header.length + f.payload.length := by
  simp only [body, lengths, be32, length_append, length_cons, length_nil]

theorem length_encode (f : Frame) : (f.encode checksum).length = f.length := by
  rw [encode, length_append, length_body, length, be32]
  simp only [length_cons, length_nil]

end Frame

section Decode

variable (checksum : Bytes → Nat)

/-- The first frame of a stream, and the rest. -/
def decode (bs : Bytes) : Option (Frame × Bytes) :=
  let total := fromBE32 (bs.take 4)
  let headerLength := fromBE32 ((bs.drop 4).take 4)
  if total ≤ bs.length ∧ 16 + headerLength ≤ total ∧
      (bs.drop 8).take 4 = be32 (checksum (bs.take 8)) ∧
      (bs.take total).drop (total - 4) = be32 (checksum (bs.take (total - 4))) then
    some (⟨(bs.drop 12).take headerLength,
      ((bs.drop 12).drop headerLength).take (total - 16 - headerLength)⟩,
      bs.drop total)
  else none

def decodeAll : Nat → Bytes → Option (List Frame)
  | _, [] => some []
  | 0, _ => none
  | fuel + 1, bs => do
    let (f, rest) ← decode checksum bs
    let fs ← decodeAll fuel rest
    some (f :: fs)

def frames (bs : Bytes) : Option (List Frame) := decodeAll checksum bs.length bs

variable {checksum}

theorem decode_encode {f : Frame} (h : f.length < 2 ^ 32) (rest : Bytes) :
    decode checksum (f.encode checksum ++ rest) = some (f, rest) := by
  have hheader : f.header.length < 2 ^ 32 := by
    rw [Frame.length] at h
    omega
  have hlen := f.length_encode checksum
  have htotal : fromBE32 ((f.encode checksum ++ rest).take 4) = f.length := fromBE32_be32 h
  have hheaderLength : fromBE32 (((f.encode checksum ++ rest).drop 4).take 4) = f.header.length :=
    fromBE32_be32 hheader
  have hbody : (f.encode checksum ++ rest).take (f.length - 4) = f.body checksum := by
    rw [Frame.encode, append_assoc]
    refine take_left' ?_
    rw [Frame.length_body, Frame.length]
    omega
  have hlast : ((f.encode checksum ++ rest).take f.length).drop (f.length - 4) =
      be32 (checksum (f.body checksum)) := by
    rw [take_left' hlen, Frame.encode]
    refine drop_left' ?_
    rw [Frame.length_body, Frame.length]
    omega
  have hdrop : (f.encode checksum ++ rest).drop 12 =
      f.header ++ (f.payload ++ (be32 (checksum (f.body checksum)) ++ rest)) := by
    rw [Frame.encode, Frame.body, append_assoc, append_assoc, append_assoc]
    rfl
  have hpayload : f.length - 16 - f.header.length = f.payload.length := by
    rw [Frame.length]
    omega
  unfold decode
  simp only [htotal, hheaderLength]
  rw [if_pos ⟨by rw [length_append, hlen]; omega, by rw [Frame.length]; omega, rfl,
    hlast.trans (by rw [hbody])⟩, hdrop, take_left, drop_left, hpayload, take_left, drop_left' hlen]

theorem decodeAll_flatMap_encode {fs : List Frame} (h : ∀ f ∈ fs, f.length < 2 ^ 32) {fuel : Nat}
    (hfuel : fs.length ≤ fuel) :
    decodeAll checksum fuel (fs.flatMap (Frame.encode checksum)) = some fs := by
  induction fs generalizing fuel with
  | nil => cases fuel <;> rfl
  | cons f fs ih =>
    cases fuel with
    | zero => simp at hfuel
    | succ fuel =>
      have hdecode : decode checksum (f.encode checksum ++ fs.flatMap (Frame.encode checksum)) =
          some (f, _) :=
        decode_encode (h f mem_cons_self) _
      have ih := ih (fun g hg => h g (mem_cons_of_mem _ hg)) (Nat.le_of_succ_le_succ hfuel)
      rw [flatMap_cons]
      have hne : f.encode checksum ++ fs.flatMap (Frame.encode checksum) ≠ [] := by
        simp [Frame.encode, be32]
      obtain ⟨b, bs, hbs⟩ := exists_cons_of_ne_nil hne
      rw [hbs] at hdecode ⊢
      simp [decodeAll, hdecode, ih]

theorem frames_flatMap_encode {fs : List Frame} (h : ∀ f ∈ fs, f.length < 2 ^ 32) :
    frames checksum (fs.flatMap (Frame.encode checksum)) = some fs := by
  refine decodeAll_flatMap_encode h ?_
  rw [length_flatMap]
  have hsum : (fs.map fun _ => 1).sum ≤ (fs.map fun f => (f.encode checksum).length).sum :=
    sum_le_sum fun f _ => by rw [Frame.length_encode, Frame.length]; omega
  simpa using hsum

end Decode

/-! ### CRC-32 -/

def crcShift (c : Nat) : Nat := if c % 2 = 1 then (c / 2) ^^^ 0xEDB88320 else c / 2

def crcByte (c : Nat) (b : UInt8) : Nat := crcShift^[8] (c ^^^ b.toNat)

/-- The IEEE checksum of `hash/crc32`. -/
def crc32 (b : Bytes) : Nat := b.foldl crcByte 0xFFFFFFFF ^^^ 0xFFFFFFFF

example : crc32 (ByteString.lit "123456789") = 0xCBF43926 := by decide +kernel

end Framing
