import Mathlib

/-!
# Readers that are checked at the end

An `io.Reader` returns, at every call, some of its bytes and possibly the end of the data: together
with the last bytes or by a later call. `Source` ranges over all such behaviours for a given text:
the n-th call is served by the n-th chunk size, and by the whole request when the sizes run out.

`Checked` stops a source after a number of bytes and tests what came through as soon as it sees the
end. `readFull` calls it until a buffer is full. A full buffer ends the calls, so the test is made
only if the end came with the last byte; how the bytes are cut into chunks does not matter
(`readFull_checked`).
-/

namespace Reader

variable {α ε : Type*}

structure Source (α : Type*) where
  data : List α
  chunks : List Nat
  /-- The end of the data comes with the last bytes. -/
  early : Bool

/-- What a call into a buffer of `cap` bytes returns, and whether it reports the end. -/
def Source.read [DecidableEq α] (src : Source α) (cap : Nat) : List α × Bool × Source α :=
  if src.data = [] then ([], true, src)
  else
    let n := match src.chunks with
      | [] => cap
      | c :: _ => min c cap
    (src.data.take n, src.early && (src.data.drop n).isEmpty,
      ⟨src.data.drop n, src.chunks.tail, src.early⟩)

/-- A source cut off after `left` bytes. -/
structure Limited (α : Type*) where
  src : Source α
  left : Nat

def Limited.read [DecidableEq α] (l : Limited α) (cap : Nat) : List α × Bool × Limited α :=
  if l.left = 0 then ([], true, l)
  else
    let (b, eof, src) := l.src.read (min cap l.left)
    (b, eof, ⟨src, l.left - b.length⟩)

inductive ReadErr (ε : Type*) where
  | eof
  | unexpectedEOF
  | check (e : ε)

structure Checked (α ε : Type*) where
  src : Limited α
  seen : List α
  verify : List α → Option ε

/-- A failed test hides the bytes of its call. -/
def Checked.read [DecidableEq α] (r : Checked α ε) (cap : Nat) :
    List α × Option (ReadErr ε) × Checked α ε :=
  let (b, eof, src) := r.src.read cap
  let r' : Checked α ε := ⟨src, r.seen ++ b, r.verify⟩
  if eof then
    match r.verify (r.seen ++ b) with
    | some e => ([], some (.check e), r')
    | none => (b, some .eof, r')
  else (b, none, r')

/-- `io.ReadFull` with `buf` already read; `none` when the calls run out. -/
def readFull [DecidableEq α] (n : Nat) :
    Nat → Checked α ε → List α → Option (List α × Option (ReadErr ε))
  | calls, r, buf =>
    if n ≤ buf.length then some (buf, none)
    else
      match calls with
      | 0 => none
      | calls + 1 =>
        match r.read (n - buf.length) with
        | (b, none, r) => readFull n calls r (buf ++ b)
        | (b, some err, _) =>
          if n ≤ (buf ++ b).length then some (buf ++ b, none)
          else
            match err with
            | .eof => some (buf ++ b, some (if buf ++ b = [] then .eof else .unexpectedEOF))
            | err => some (buf ++ b, some err)

section ReadFull

variable [DecidableEq α] {n : Nat} {data : List α} {early : Bool} {verify : List α → Option ε}

/-- The error of `io.ReadFull` on a checked source: there is none while the buffer is full before
the end is seen. -/
def finalErr (n : Nat) (data : List α) (early : Bool) (verify : List α → Option ε) :
    Option (ReadErr ε) :=
  if n < data.length ∨ n = data.length ∧ (early = false ∨ verify data = none) then none
  else
    match verify data with
    | some e => some (.check e)
    | none => some (if data = [] then .eof else .unexpectedEOF)

theorem readFull_full {calls : Nat} {r : Checked α ε} {buf : List α} (h : n ≤ buf.length) :
    readFull n calls r buf = some (buf, none) := by
  cases calls <;> simp [readFull, h]

/-- One call while data is left: `k` of its bytes, the end with them if the source is an early
one. -/
theorem Limited.read_eq {rest : List α} (hrest : rest ≠ []) (chunks : List Nat)
    (early : Bool) (cap : Nat) :
    ∃ k ≤ min cap rest.length, (chunks = [] → k = min cap rest.length) ∧
      (Limited.mk ⟨rest, chunks, early⟩ rest.length).read cap =
        (rest.take k, early && (rest.drop k).isEmpty, ⟨⟨rest.drop k, chunks.tail, early⟩,
          (rest.drop k).length⟩) := by
  have hlen : rest.length ≠ 0 := by simpa using hrest
  have hsrc (k : Nat) (hk : k ≤ min cap rest.length) : rest.length - (rest.take k).length =
      (rest.drop k).length := by
    rw [List.length_take, List.length_drop]
    omega
  cases chunks with
  | nil =>
    refine ⟨min cap rest.length, le_rfl, fun _ => rfl, ?_⟩
    simp [Limited.read, Source.read, hrest]
  | cons c chunks =>
    refine ⟨min c (min cap rest.length), min_le_right _ _, by simp, ?_⟩
    simp only [Limited.read, Source.read, if_neg hlen, if_neg hrest, hsrc _ (min_le_right _ _),
      List.tail_cons]

/-- A call that reports the end is the last one. -/
theorem readFull_end {calls : Nat} {src src' : Limited α} {seen b : List α} (hn : seen.length < n)
    (hread : src.read (n - seen.length) = (b, true, src')) (hdata : seen ++ b = data)
    (hle : data.length ≤ n) (hearly : n = data.length → early = true) :
    ∃ out, readFull n (calls + 1) ⟨src, seen, verify⟩ seen =
        some (out, finalErr n data early verify) ∧
      (finalErr n data early verify = none → out = data.take n) := by
  rw [readFull, if_neg (not_le.2 hn)]
  simp only [Checked.read, hread, hdata, if_true]
  cases hv : verify data with
  | some e =>
    have herr : finalErr n data early verify = some (.check e) := by
      rw [finalErr, if_neg, hv]
      rintro (h | ⟨h, he | he⟩)
      · omega
      · simp [hearly h] at he
      · simp [hv] at he
    exact ⟨seen, by simp [herr, hn.not_ge], by simp [herr]⟩
  | none =>
    by_cases hfull : n = data.length
    · have herr : finalErr n data early verify = none := if_pos (.inr ⟨hfull, .inr hv⟩)
      exact ⟨data, by simp [hdata, herr, hfull.le], fun _ => by rw [hfull, List.take_length]⟩
    · have herr : finalErr n data early verify =
          some (if data = [] then .eof else .unexpectedEOF) := by
        rw [finalErr, if_neg (by omega), hv]
      exact ⟨data, by simp [hdata, herr, show ¬ n ≤ data.length by omega], by simp [herr]⟩

/-- The calls from `seen` on: the chunks that are left are enough for what is left of the data. -/
theorem readFull_from {calls : Nat} {chunks : List Nat} {seen rest : List α}
    (hdata : seen ++ rest = data)
    (hn : seen.length < n) (hcalls : (if rest = [] then 1 else chunks.length + 2) ≤ calls) :
    ∃ out, readFull n calls ⟨⟨⟨rest, chunks, early⟩, rest.length⟩, seen, verify⟩ seen =
        some (out, finalErr n data early verify) ∧ (finalErr n data early verify = none →
          out = data.take n) := by
  induction calls generalizing chunks seen rest with
  | zero => split at hcalls <;> omega
  | succ calls ih =>
    have hlen : seen.length + rest.length = data.length := by rw [← hdata, List.length_append]
    by_cases hrest : rest = []
    · -- the end comes by a call of its own
      subst hrest
      obtain rfl : seen = data := by simpa using hdata
      exact readFull_end hn rfl (List.append_nil seen) hn.le fun h => absurd h hn.ne'
    · obtain ⟨k, hk, hall, hread⟩ := Limited.read_eq hrest chunks early (n - seen.length)
      have htake : (rest.take k).length = k := by rw [List.length_take]; omega
      have hcut : seen ++ rest.take k = data.take (seen.length + k) := by
        rw [← hdata, List.take_length_add_append]
      rw [if_neg hrest] at hcalls
      by_cases hend : (early && (rest.drop k).isEmpty) = true
      · -- the end comes with the last bytes
        obtain ⟨hearly, hnil⟩ : early = true ∧ rest.length ≤ k := by simpa using hend
        rw [hend] at hread
        exact readFull_end hn hread (by rw [hcut, List.take_of_length_le (by omega)]) (by omega)
          fun _ => hearly
      · rw [readFull, if_neg (not_le.2 hn)]
        simp only [Checked.read, hread, if_neg hend]
        by_cases hfull : n ≤ (seen ++ rest.take k).length
        · -- the buffer is full before the end has been seen
          rw [List.length_append, htake] at hfull
          have hnk : n = seen.length + k := by omega
          have herr : finalErr n data early verify = none := by
            refine if_pos ?_
            by_cases hlast : rest.length ≤ k
            · exact .inr ⟨by omega, .inl (by simpa [hlast] using hend)⟩
            · exact .inl (by omega)
          refine ⟨seen ++ rest.take k, ?_, fun _ => by rw [hcut, hnk]⟩
          rw [herr]
          exact readFull_full (by rw [List.length_append, htake]; omega)
        · rw [not_le] at hfull
          refine ih (by rw [List.append_assoc, List.take_append_drop, hdata]) hfull ?_
          rw [List.length_append, htake] at hfull
          cases chunks with
          | nil =>
            have hdrop : rest.drop k = [] := List.drop_eq_nil_iff.2 (by have := hall rfl; omega)
            rw [if_pos hdrop]
            simp at hcalls
            omega
          | cons c chunks =>
            rw [List.length_cons] at hcalls
            rw [List.tail_cons]
            split <;> omega

/-- What `io.ReadFull` reads of a checked source and its error do not depend on the chunks. -/
theorem readFull_checked (n : Nat) (data : List α) (chunks : List Nat) (early : Bool)
    (verify : List α → Option ε) :
    ∃ out, readFull n (chunks.length + 2) ⟨⟨⟨data, chunks, early⟩, data.length⟩, [], verify⟩ [] =
        some (out, if n = 0 then none else finalErr n data early verify) ∧
      ((if n = 0 then none else finalErr n data early verify) = none → out = data.take n) := by
  by_cases hn : n = 0
  · exact ⟨[], by rw [readFull_full (by simp [hn]), if_pos hn], fun _ => by simp [hn]⟩
  · rw [if_neg hn]
    exact readFull_from (List.nil_append data) (Nat.pos_of_ne_zero hn) (by split <;> omega)

end ReadFull

end Reader
