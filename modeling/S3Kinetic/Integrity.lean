import S3Kinetic.EndToEnd
import S3Kinetic.Lib.Reader

/-!
# Digests of uploads

`hash.Reader` compares the digests of a request when it sees the end of the body. `readToBuffer`
stops calling it when the buffer is full, which is with the last byte of the body. So a wrong digest
is noticed only if the source reports the end together with that byte, and never for an empty
object, for which nothing is read.
-/

namespace S3Kinetic

open ByteString Decimal OrdMap

/-- A request body of declared size: how its reader serves it, and the declared digests (empty when
not given). -/
structure HashedBody where
  body : Bytes
  chunks : List Nat
  /-- The reader reports the end with the last bytes. -/
  early : Bool
  md5sum : Bytes
  sha256sum : Bytes

namespace HashedBody

variable (K : Kineticd) (sha256 : Bytes → Bytes) (h : HashedBody)

/-- `Verify`. -/
def verify (data : Bytes) : Option Err :=
  if h.sha256sum ≠ [] ∧ sha256 data ≠ h.sha256sum then
    some (.errorf (lit "Bad sha256: Expected " ++ hexEncode h.sha256sum ++
      lit " is not valid with what we calculated " ++ hexEncode (sha256 data)))
  else if h.md5sum ≠ [] ∧ K.getMD5Sum data ≠ h.md5sum then
    some (.errorf (lit "Bad digest: Expected " ++ hexEncode h.md5sum ++
      lit " is not valid with what we calculated " ++ hexEncode (K.getMD5Sum data)))
  else none

def DigestsMatch : Prop :=
  (h.sha256sum = [] ∨ sha256 h.body = h.sha256sum) ∧ (h.md5sum = [] ∨ K.getMD5Sum h.body = h.md5sum)

/-- `NewReader` on the body. -/
def newReader : Reader.Checked UInt8 Err :=
  ⟨⟨⟨h.body, h.chunks, h.early⟩, h.body.length⟩, [], h.verify K sha256⟩

/-- `readToBuffer` with a buffer of `n` bytes, in as many calls as the chunks can need. -/
def readToBuffer (n : Nat) : Option (Bytes × Option Err) :=
  (Reader.readFull n (h.chunks.length + 2) (h.newReader K sha256) []).map fun (buf, err) =>
    (buf, err.map fun
      | .eof => .errEOF
      | .unexpectedEOF => .errUnexpectedEOF
      | .check e => e)

/-- The request as the object layer sees it; `r` gives what does not depend on the body. -/
def putObjReader (r : PutObjReader) : PutObjReader :=
  { r with
    size := h.body.length, src := ⟨h.body, none, h.early⟩
    verify := h.verify K sha256 h.body }

end HashedBody

variable {K : Kineticd} {sha256 : Bytes → Bytes} {h : HashedBody} {r : PutObjReader}
    {s : Store} {b o : Bytes}

theorem HashedBody.verify_eq_none_iff : h.verify K sha256 h.body = none ↔
    h.DigestsMatch K sha256 := by
  unfold HashedBody.verify HashedBody.DigestsMatch
  split_ifs with h1 h2
  · simp only [false_iff]
    tauto
  · simp only [false_iff]
    tauto
  · simp only [true_iff]
    tauto

theorem HashedBody.stream_putObjReader :
    (h.putObjReader K sha256 r).stream = ⟨h.body, h.verify K sha256 h.body, h.early⟩ := by
  unfold PutObjReader.stream HashedBody.putObjReader
  rw [if_pos ⟨by simp, by simp⟩]
  simp

/-- Whatever the chunks, `readToBuffer` gives what the stream of the object layer gives. -/
theorem HashedBody.readToBuffer_eq (n : Nat) :
    ∃ out, h.readToBuffer K sha256 n =
      some (out, ((h.putObjReader K sha256 r).stream.readFull n).2.1) ∧
      (((h.putObjReader K sha256 r).stream.readFull n).2.1 = none →
        out = ((h.putObjReader K sha256 r).stream.readFull n).1) := by
  obtain ⟨out, hout, htake⟩ := Reader.readFull_checked n h.body h.chunks h.early (h.verify K sha256)
  rw [HashedBody.stream_putObjReader]
  refine ⟨out, ?_⟩
  rw [readToBuffer, newReader, hout, Option.map_some]
  unfold Stream.readFull
  by_cases hn : n = 0
  · rw [if_pos hn, if_pos hn]
    exact ⟨rfl, fun _ => by simpa [hn] using htake⟩
  rw [if_neg hn] at htake ⊢
  rw [if_neg hn]
  unfold Reader.finalErr at htake ⊢
  dsimp only
  by_cases hfull : n < h.body.length ∨ n = h.body.length ∧
    (h.early = false ∨ h.verify K sha256 h.body = none)
  · rw [if_pos hfull] at htake ⊢
    rw [if_pos hfull]
    exact ⟨rfl, fun _ => htake rfl⟩
  · rw [if_neg hfull, if_neg hfull]
    cases h.verify K sha256 h.body with
    | some e => simp
    | none => by_cases hnil : h.body = [] <;> simp [hnil]

/-! ## The two calls -/

/-- A call that stores `body` under `k` keeps what it was told: success means the body is stored and
the digests are right, and wrong digests mean an error and an unchanged store. -/
structure Integrity {α : Type} (s s' : Store) (k body : Bytes) (digests : Prop)
    (res : Except Err α) : Prop where
  stored : ∀ a, res = .ok a → (s'.get? k).map Record.value = some body ∧ digests
  rejected : ¬ digests → (∃ e, res = .error e) ∧ s' = s

/-- A call that writes `value` or fails without a write keeps its word if it fails, or if it writes
the body and the digests are right. -/
theorem integrity_iff {α : Type} {s s' : Store} {k body : Bytes} {digests : Prop}
    {res : Except Err α} (value : Bytes) (ok : Prop)
    (hok : ok → (∃ a, res = .ok a) ∧ (s'.get? k).map Record.value = some value)
    (herr : ¬ ok → (∃ e, res = .error e) ∧ s' = s) :
    Integrity s s' k body digests res ↔ (ok → value = body ∧ digests) := by
  constructor
  · intro h hacc
    obtain ⟨⟨a, ha⟩, hval⟩ := hok hacc
    obtain ⟨h1, h2⟩ := h.stored a ha
    exact ⟨Option.some.inj (hval.symm.trans h1), h2⟩
  · intro h
    by_cases hacc : ok
    · obtain ⟨⟨a, ha⟩, hval⟩ := hok hacc
      obtain ⟨h1, h2⟩ := h hacc
      exact ⟨fun _ _ => ⟨h1 ▸ hval, h2⟩, fun hd => absurd h2 hd⟩
    · obtain ⟨⟨e, he⟩, hs⟩ := herr hacc
      refine ⟨fun a ha => ?_, fun _ => ⟨⟨e, he⟩, hs⟩⟩
      rw [he] at ha
      cases ha

/-- What `PutObject` checks apart from the body, and the put of the record. -/
def PutObjectAccepts (K : Kineticd) (s : Store) (b o : Bytes) (r : PutObjReader)
    (ud : OrdMap Bytes Bytes) (now : Nat) (body : Bytes) : Prop :=
  checkPutObjectArgs K s b o r.size = none ∧ r.size ≤ blockSizeV1 ∧
    ∃ v, currentVersion K s (makeKey b o) = .ok v ∧
      K.putStatus s (makeKey b o) ⟨.json (putObjectMeta o r ud (newVersion v) now), body⟩ = .success

/-- The key of a part of the next version. -/
def nextPartKey (K : Kineticd) (s : Store) (b o : Bytes) (partID : Int) (r : PutObjReader) :
    Bytes :=
  match currentVersion K s (makeKey b o) with
  | .ok v => partKey (makeKey b o) (newVersion v) partID (partETag K r) r.actualSize
  | .error _ => []

/-- What `PutObjectPart` checks apart from the body, and the put of the part. -/
def PutObjectPartAccepts (K : Kineticd) (s : Store) (b o : Bytes) (partID : Int)
    (r : PutObjReader) (now : Nat) (value : Bytes) : Prop :=
  checkObjectArgs K s b o = none ∧ (∃ v, currentVersion K s (makeKey b o) = .ok v) ∧
    K.putStatus s (nextPartKey K s b o partID r)
      ⟨.json (partMeta o (r.md5CurrentHexString 1) r.size now), value⟩ = .success

section Put

variable {ud : OrdMap Bytes Bytes} {now : Nat}

variable {buf : Bytes} {st : Stream}

theorem putObject_of_read (hsize : 0 ≤ r.size)
    (hread : r.stream.readFull r.size.toNat = (buf, none, st))
    (hacc : PutObjectAccepts K s b o r ud now buf) :
    (∃ a, (putObject K s b o r ud now).2 = .ok a) ∧
      ((putObject K s b o r ud now).1.get? (makeKey b o)).map Record.value = some buf := by
  obtain ⟨hargs, hle, v, hv, hput⟩ := hacc
  have hres : putObject K s b o r ud now =
      (s.insert (makeKey b o) ⟨.json (putObjectMeta o r ud (newVersion v) now), buf⟩,
        .ok ⟨b, o, now, r.size, false, false, r.md5CurrentHexString 1, []⟩) := by
    unfold putObject putObjectBody
    simp only [hargs, if_neg (show ¬ r.size < -1 by omega),
      if_neg (show ¬ r.size > blockSizeV1 by omega),
      hv, if_neg (show ¬ r.size < 0 by omega), hread, cPut, hput, toKineticError]
  rw [hres]
  exact ⟨⟨_, rfl⟩, by simp⟩

theorem putObject_of_not {err : Option Err} (hsize : 0 ≤ r.size)
    (hread : r.stream.readFull r.size.toNat = (buf, err, st))
    (hnot : ¬ (err = none ∧ PutObjectAccepts K s b o r ud now buf)) :
    (∃ e, (putObject K s b o r ud now).2 = .error e) ∧ (putObject K s b o r ud now).1 = s := by
  unfold putObject
  cases hargs : checkPutObjectArgs K s b o r.size with
  | some e => exact ⟨⟨e, rfl⟩, rfl⟩
  | none =>
    unfold putObjectBody
    dsimp only
    by_cases hle : r.size ≤ blockSizeV1
    · rw [if_neg (show ¬ r.size < -1 by omega), if_neg (show ¬ r.size > blockSizeV1 by omega)]
      cases hv : currentVersion K s (makeKey b o) with
      | error e => exact ⟨⟨e, rfl⟩, rfl⟩
      | ok v =>
        dsimp only
        rw [if_neg (show ¬ r.size < 0 by omega), hread]
        cases err with
        | some e => exact ⟨⟨e, rfl⟩, rfl⟩
        | none =>
          rcases cPut_eq (K := K) s (makeKey b o) ⟨.json (putObjectMeta o r ud (newVersion v) now),
              buf⟩ with
            ⟨-, hst⟩ | ⟨e, hp⟩
          · exact absurd ⟨rfl, hargs, hle, v, hv, hst⟩ hnot
          · simp only [hp]
            exact ⟨⟨e, rfl⟩, trivial⟩
    · rw [if_neg (show ¬ r.size < -1 by omega), if_pos (by omega)]
      exact ⟨⟨_, rfl⟩, rfl⟩

theorem putObjectPart_of_read {n : Int} {u : Bytes} (hsize : 0 ≤ r.size)
    (hread : r.stream.readFull (partBufSize r.size).toNat = (buf, none, st))
    (hacc : PutObjectPartAccepts K s b o n r now buf) :
    (∃ a, (putObjectPart K s b o u n r now).2 = .ok a) ∧
      ((putObjectPart K s b o u n r now).1.get? (nextPartKey K s b o n r)).map Record.value =
        some buf := by
  obtain ⟨hargs, ⟨v, hv⟩, hput⟩ := hacc
  simp only [nextPartKey, hv] at hput ⊢
  have hres : putObjectPart K s b o u n r now =
      (s.insert (partKey (makeKey b o) (newVersion v) n (partETag K r) r.actualSize)
          ⟨.json (partMeta o (r.md5CurrentHexString 1) r.size now), buf⟩,
        .ok ⟨n, now, partETag K r, partBufSize r.size, r.actualSize⟩) := by
    unfold putObjectPart
    simp only [hargs, if_neg (show ¬ r.size < -1 by omega), hread, hv, cPut, hput, toKineticError]
  rw [hres]
  exact ⟨⟨_, rfl⟩, by simp⟩

theorem putObjectPart_of_not {n : Int} {u : Bytes} {err : Option Err} (hsize : 0 ≤ r.size)
    (hread : r.stream.readFull (partBufSize r.size).toNat = (buf, err, st))
    (hnot : ¬ (err = none ∧ PutObjectPartAccepts K s b o n r now buf)) :
    (∃ e, (putObjectPart K s b o u n r now).2 = .error e) ∧
      (putObjectPart K s b o u n r now).1 = s := by
  unfold putObjectPart
  cases hargs : checkObjectArgs K s b o with
  | some e => exact ⟨⟨_, rfl⟩, rfl⟩
  | none =>
    dsimp only
    rw [if_neg (show ¬ r.size < -1 by omega), hread]
    cases err with
    | some e => exact ⟨⟨e, rfl⟩, rfl⟩
    | none =>
      dsimp only
      cases hv : currentVersion K s (makeKey b o) with
      | error e => exact ⟨⟨e, rfl⟩, rfl⟩
      | ok v =>
        dsimp only
        rcases cPut_eq (K := K) s (partKey (makeKey b o) (newVersion v) n
          (partETag K r) r.actualSize)
          ⟨.json (partMeta o (r.md5CurrentHexString 1) r.size now), buf⟩ with ⟨-, hst⟩ | ⟨e, hp⟩
        · refine absurd ⟨rfl, hargs, ⟨v, hv⟩, ?_⟩ hnot
          simpa only [nextPartKey, hv] using hst
        · simp only [hp]
          exact ⟨⟨e, rfl⟩, trivial⟩

end Put

/-! ## When a wrong digest is noticed -/

theorem partBufSize_toNat (n : Nat) :
    (partBufSize n).toNat = if 0 < n ∧ n < blockSizeV1.toNat then n else blockSizeV1.toNat := by
  unfold partBufSize
  have hb : blockSizeV1 = (blockSizeV1.toNat : Int) := by decide
  split_ifs <;> omega

theorem HashedBody.readFull_body (h : HashedBody) (r : PutObjReader) :
    ∃ buf err st, (h.putObjReader K sha256 r).stream.readFull h.body.length = (buf, err, st) ∧
      (err = none → buf = h.body) ∧ (err = none ↔ h.DigestsMatch K sha256 ∨ h.early = false ∨
        h.body = []) := by
  rw [HashedBody.stream_putObjReader, ← HashedBody.verify_eq_none_iff]
  unfold Stream.readFull
  by_cases hnil : h.body = []
  · refine ⟨[], none, _, by rw [hnil]; rfl, fun _ => hnil.symm, ?_⟩
    simp only [true_iff]
    exact .inr (.inr hnil)
  · have h0 : h.body.length ≠ 0 := by simpa using hnil
    cases hv : h.verify K sha256 h.body with
    | none => exact ⟨h.body, none, ⟨[], none, h.early⟩, by simp [hnil], fun _ => rfl, by simp⟩
    | some e =>
      cases he : h.early with
      | false => exact ⟨h.body, none, ⟨[], some e, false⟩, by simp [hnil], fun _ => rfl, by simp⟩
      | true => exact ⟨h.body, some e, ⟨[], some e, true⟩, by simp [hnil], by simp, by simp [hnil]⟩

theorem HashedBody.readFull_of_nil (h : HashedBody) (r : PutObjReader) {n : Nat}
    (hnil : h.body = []) (hn : 0 < n) :
    ∃ e st, (h.putObjReader K sha256 r).stream.readFull n = ([], some e, st) := by
  rw [HashedBody.stream_putObjReader, hnil, Stream.readFull, if_neg hn.ne', if_neg (by simp; omega)]
  exact ⟨_, _, rfl⟩

theorem HashedBody.readFull_of_lt (h : HashedBody) (r : PutObjReader) {n : Nat} (hn : 0 < n)
    (hlt : n < h.body.length) :
    ∃ st, (h.putObjReader K sha256 r).stream.readFull n = (h.body.take n, none, st) := by
  rw [HashedBody.stream_putObjReader, Stream.readFull, if_neg hn.ne', if_pos (.inl hlt)]
  exact ⟨_, rfl⟩

/-- A call that reads the whole body and then stores it, unless it turns the request down. -/
theorem HashedBody.integrity_iff_of_read {α : Type} {s' : Store} {k buf : Bytes}
    {res : Except Err α}
    {err : Option Err} {accepts : Bytes → Prop} (hbuf : err = none → buf = h.body)
    (herr : err = none ↔ h.DigestsMatch K sha256 ∨ h.early = false ∨ h.body = [])
    (hok : err = none ∧ accepts buf → (∃ a, res = .ok a) ∧ (s'.get? k).map Record.value = some buf)
    (hnot : ¬ (err = none ∧ accepts buf) → (∃ e, res = .error e) ∧ s' = s) :
    Integrity s s' k h.body (h.DigestsMatch K sha256) res ↔
      (accepts h.body → h.DigestsMatch K sha256 ∨ h.early = true ∧ h.body ≠ []) := by
  rw [integrity_iff buf _ hok hnot]
  constructor
  · intro hint hacc
    by_cases hnone : err = none
    · exact .inl (hint ⟨hnone, (hbuf hnone).symm ▸ hacc⟩).2
    · rw [herr] at hnone
      simp only [not_or, Bool.not_eq_false] at hnone
      exact .inr hnone.2
  · rintro hcond ⟨hnone, hacc⟩
    rw [hbuf hnone] at hacc
    refine ⟨hbuf hnone, ?_⟩
    rcases hcond hacc with hm | ⟨he, hne⟩
    · exact hm
    · rcases herr.1 hnone with hm | hlate | hnil
      · exact hm
      · rw [he] at hlate
        cases hlate
      · exact absurd hnil hne

/-- However the reader cuts the body into chunks, `readToBuffer` returns what the object layer
reads, and `PutObject` and `PutObjectPart` keep their word exactly on the requests they turn down
for other reasons, on right digests, and where the end of the body is reported with its last byte. A
part that does not fit the buffer is cut off; an empty part is always turned down. -/
theorem upload_integrity_iff (K : Kineticd) (sha256 : Bytes → Bytes) (h : HashedBody)
    (r : PutObjReader)
    (s : Store) (b o u : Bytes) (ud : OrdMap Bytes Bytes) (partID : Int) (now : Nat) :
    (∀ n, ∃ out, h.readToBuffer K sha256 n =
      some (out, ((h.putObjReader K sha256 r).stream.readFull n).2.1) ∧
      (((h.putObjReader K sha256 r).stream.readFull n).2.1 = none →
        out = ((h.putObjReader K sha256 r).stream.readFull n).1)) ∧
    (Integrity s (putObject K s b o (h.putObjReader K sha256 r) ud now).1 (makeKey b o) h.body
        (h.DigestsMatch K sha256) (putObject K s b o (h.putObjReader K sha256 r) ud now).2 ↔
      (PutObjectAccepts K s b o (h.putObjReader K sha256 r) ud now h.body →
        h.DigestsMatch K sha256 ∨ h.early = true ∧ h.body ≠ [])) ∧
    (Integrity s (putObjectPart K s b o u partID (h.putObjReader K sha256 r) now).1
        (nextPartKey K s b o partID (h.putObjReader K sha256 r)) h.body (h.DigestsMatch K sha256)
        (putObjectPart K s b o u partID (h.putObjReader K sha256 r) now).2 ↔
      (PutObjectPartAccepts K s b o partID (h.putObjReader K sha256 r) now
          (h.body.take blockSizeV1.toNat) →
        h.body = [] ∨
          h.body.length ≤ blockSizeV1.toNat ∧ (h.DigestsMatch K sha256 ∨ h.early = true))) := by
  have hsize : (h.putObjReader K sha256 r).size = h.body.length := rfl
  have hpos : 0 ≤ (h.putObjReader K sha256 r).size := by rw [hsize]; omega
  obtain ⟨buf, err, st, hread, hbuf, herr⟩ := @HashedBody.readFull_body K sha256 h r
  refine ⟨HashedBody.readToBuffer_eq, ?_, ?_⟩
  · have hread' : (h.putObjReader K sha256 r).stream.readFull
      (h.putObjReader K sha256 r).size.toNat =
        (buf, err, st) := by rwa [hsize, Int.toNat_natCast]
    refine HashedBody.integrity_iff_of_read hbuf herr ?_ (putObject_of_not hpos hread')
    rintro ⟨rfl, hacc⟩
    exact putObject_of_read hpos hread' hacc
  · have hbufSize : (partBufSize (h.putObjReader K sha256 r).size).toNat =
        if 0 < h.body.length ∧ h.body.length < blockSizeV1.toNat then h.body.length
            else blockSizeV1.toNat := by
      rw [hsize, partBufSize_toNat]
    have hblock : 0 < blockSizeV1.toNat := by decide
    by_cases hnil : h.body = []
    · -- the buffer of an empty part cannot be filled
      obtain ⟨e, st', hread'⟩ := @HashedBody.readFull_of_nil K sha256 h r _ hnil hblock
      rw [if_neg (by simp [hnil])] at hbufSize
      rw [← hbufSize] at hread'
      rw [integrity_iff [] False (fun h => h.elim)
        fun _ => putObjectPart_of_not hpos hread' (by simp)]
      simp [hnil]
    · have hlen : 0 < h.body.length := List.length_pos_iff.2 hnil
      by_cases hfit : h.body.length ≤ blockSizeV1.toNat
      · have hread' : (h.putObjReader K sha256 r).stream.readFull
            (partBufSize (h.putObjReader K sha256 r).size).toNat = (buf, err, st) := by
          rw [hbufSize]
          split_ifs
          · exact hread
          · rwa [show blockSizeV1.toNat = h.body.length by omega]
        rw [List.take_of_length_le hfit]
        refine Iff.trans (HashedBody.integrity_iff_of_read hbuf herr ?_
          (putObjectPart_of_not hpos hread')) ?_
        · rintro ⟨rfl, hacc⟩
          exact putObjectPart_of_read hpos hread' hacc
        · simp [hnil, hfit]
      · -- a longer part is cut off at the end of the buffer
        obtain ⟨st', hread'⟩ := @HashedBody.readFull_of_lt K sha256 h r _ hblock (not_le.1 hfit)
        rw [if_neg (by omega)] at hbufSize
        nth_rw 1 [← hbufSize] at hread'
        have hcut : h.body.take blockSizeV1.toNat ≠ h.body := fun he => by
          have := congrArg List.length he
          rw [List.length_take] at this
          omega
        rw [integrity_iff (h.body.take blockSizeV1.toNat) (PutObjectPartAccepts K s b o partID
          (h.putObjReader K sha256 r) now (h.body.take blockSizeV1.toNat))]
        · simp [hcut, hnil, hfit]
        · exact putObjectPart_of_read hpos hread'
        · exact fun hacc => putObjectPart_of_not hpos hread' fun hh => hacc hh.2

/-- Two chunks, and the end by a call of its own. -/
def wrongDigest : HashedBody := ⟨lit "data", [1, 3], false, List.replicate 16 0, []⟩

/-- The wrong digest is not noticed: the object is stored. -/
theorem put_accepts_wrong_digest :
    Reachable (uploadDrive (lit "a")) (emptyBucket (lit "a")) ∧
      ¬ wrongDigest.DigestsMatch (uploadDrive (lit "a")) id ∧
      (∃ out, wrongDigest.readToBuffer (uploadDrive (lit "a")) id 4 = some (out, none)) ∧
      (∃ info, (putObject (uploadDrive (lit "a")) (emptyBucket (lit "a")) (lit "bkt") (lit "a")
        (wrongDigest.putObjReader (uploadDrive (lit "a")) id onlyPart.r) ∅ 5).2 = .ok info) ∧
      ¬ Integrity (emptyBucket (lit "a"))
        (putObject (uploadDrive (lit "a")) (emptyBucket (lit "a")) (lit "bkt")
          (lit "a") (wrongDigest.putObjReader (uploadDrive (lit "a")) id onlyPart.r) ∅ 5).1
        (makeKey (lit "bkt") (lit "a")) wrongDigest.body
          (wrongDigest.DigestsMatch (uploadDrive (lit "a")) id)
        (putObject (uploadDrive (lit "a")) (emptyBucket (lit "a")) (lit "bkt") (lit "a")
          (wrongDigest.putObjReader (uploadDrive (lit "a")) id onlyPart.r) ∅ 5).2 := by
  have hwrong : ¬ wrongDigest.DigestsMatch (uploadDrive (lit "a")) id := by
    rw [← HashedBody.verify_eq_none_iff]
    decide
  have hinfo : (putObject (uploadDrive (lit "a")) (emptyBucket (lit "a")) (lit "bkt") (lit "a")
      (wrongDigest.putObjReader (uploadDrive (lit "a")) id onlyPart.r) ∅ 5).2 =
      .ok ⟨lit "bkt", lit "a", 5, 4, false, false, hexEncode (List.replicate 16 9), []⟩ := by decide
  refine ⟨⟨id, _, rfl⟩, hwrong, ⟨lit "data", rfl⟩, ⟨_, hinfo⟩, fun hint => hwrong ?_⟩
  exact (hint.stored _ hinfo).2

end S3Kinetic
