import S3Kinetic.Lib.Decimal
import S3Kinetic.Lib.Framing

/-!
# The event stream of S3 Select

`messageWriter` turns the payloads of `SendRecord` into an event stream. Its goroutine (`start`)
waits for a payload, for the end that `Finish` or `FinishWithError` announces and for three tickers.
Payloads are collected in a buffer, which goes out as a Records message when it is full, when the
staging ticker fires and before the last messages.

The calls and the goroutine run concurrently and meet in a channel of capacity one. Here they are
one step function over the events that can happen next.
-/

namespace S3Kinetic.EventStream

open ByteString Decimal Framing List

/-! ### Messages -/

def totalByteLength (headerLength payloadLength : Nat) : Nat :=
  4 + 4 + 4 + headerLength + payloadLength + 4

def genMessage (header payload : Bytes) : Bytes :=
  let totalLength := totalByteLength header.length payload.length
  let prelude := be32 totalLength ++ be32 header.length
  let message := prelude ++ be32 (crc32 prelude) ++ header ++ payload
  message ++ be32 (crc32 message)

theorem genMessage_eq (header payload : Bytes) :
    genMessage header payload = Frame.encode crc32 ⟨header, payload⟩ := rfl

def recordsHeader : Bytes :=
  13 :: lit ":message-type" ++ [7, 0, 5] ++ lit "event" ++
    13 :: lit ":content-type" ++ [7, 0, 24] ++
    lit "application/octet-stream" ++ 11 :: lit ":event-type" ++ [7, 0, 7] ++ lit "Records"

def maxRecordMessageLength : Nat := (128 <<< 10) - 256

def payloadLenForMsgLen (messageLength : Nat) : Nat :=
  messageLength - 4 - 4 - 4 - recordsHeader.length - 4

def bufLength : Nat := payloadLenForMsgLen maxRecordMessageLength

def newRecordsMessage (payload : Bytes) : Bytes := genMessage recordsHeader payload

def continuationMessage : Bytes :=
  [0, 0, 0, 57, 0, 0, 0, 41, 139, 161, 157, 242] ++ 13 :: lit ":message-type" ++ [7, 0, 5] ++
    lit "event" ++
    11 :: lit ":event-type" ++ [7, 0, 4] ++ lit "Cont" ++ [156, 134, 74, 13]

/-- The header of a message with an XML payload. -/
def xmlHeader (eventLen : UInt8) (event : String) : Bytes :=
  13 :: lit ":message-type" ++ [7, 0, 5] ++ lit "event" ++ 13 :: lit ":content-type" ++ [7, 0, 8] ++
    lit "text/xml" ++
    11 :: lit ":event-type" ++ [7, 0, eventLen] ++ lit event

def progressHeader : Bytes := xmlHeader 8 "Progress"

def statsHeader : Bytes := xmlHeader 5 "Stats"

/-- The payload of Progress and Stats messages. Both end with the tag of the latter. -/
def xmlPayload (tag : String) (bytesScanned bytesProcessed bytesReturned : Int64) : Bytes :=
  lit "<?xml version=\"1.0\" encoding=\"UTF-8\"?><" ++ lit tag ++ lit "><BytesScanned>" ++
    formatInt bytesScanned.toInt ++
    lit "</BytesScanned><BytesProcessed>" ++ formatInt bytesProcessed.toInt ++
      lit "</BytesProcessed><BytesReturned>" ++
    formatInt bytesReturned.toInt ++ lit "</BytesReturned></Stats>"

def newProgressMessage (bytesScanned bytesProcessed bytesReturned : Int64) : Bytes :=
  genMessage progressHeader (xmlPayload "Progress" bytesScanned bytesProcessed bytesReturned)

def newStatsMessage (bytesScanned bytesProcessed bytesReturned : Int64) : Bytes :=
  genMessage statsHeader (xmlPayload "Stats" bytesScanned bytesProcessed bytesReturned)

def endMessage : Bytes :=
  [0, 0, 0, 56, 0, 0, 0, 40, 193, 198, 132, 212] ++ 13 :: lit ":message-type" ++ [7, 0, 5] ++
    lit "event" ++
    11 :: lit ":event-type" ++ [7, 0, 3] ++ lit "End" ++ [207, 151, 211, 146]

def be16 (n : Nat) : Bytes := [UInt8.ofNat (n / 2 ^ 8), UInt8.ofNat n]

def newErrorMessage (errorCode errorMessage : Bytes) : Bytes :=
  genMessage (13 :: lit ":message-type" ++ [7, 0, 5] ++ lit "error" ++
    14 :: lit ":error-message" ++ [7] ++
    be16 errorMessage.length ++ errorMessage ++ 11 :: lit ":error-code" ++ [7] ++
      be16 errorCode.length ++ errorCode) []

/-! ### The goroutine -/

structure MessageWriter where
  /-- `payloadBuffer[0:payloadBufferIndex]`. -/
  payloadBuffer : Bytes
  bytesReturned : Int64
  /-- What the response writer has got. -/
  written : Bytes

section Goroutine

-- whether the response writer takes the data, after what it has got
variable (response : Bytes → Bytes → Bool)

def write (w : MessageWriter) (data : Bytes) : MessageWriter × Bool :=
  if response w.written data then ({ w with written := w.written ++ data }, true) else (w, false)

def flushRecords (w : MessageWriter) : MessageWriter × Bool :=
  if w.payloadBuffer = [] then (w, true)
  else
    match write response w (newRecordsMessage w.payloadBuffer) with
    | (w, true) =>
      ({ w with
        bytesReturned := w.bytesReturned + Int64.ofNat w.payloadBuffer.length
        payloadBuffer := [] }, true)
    | (w, false) => (w, false)

/-- The loop over a payload; every round copies at least a byte. -/
def copyPayload : Nat → Bytes → MessageWriter → MessageWriter × Bool
  | _, [], w => (w, true)
  | 0, _, w => (w, true)
  | fuel + 1, payload, w =>
    let copiedLen := min (bufLength - w.payloadBuffer.length) payload.length
    let w := { w with payloadBuffer := w.payloadBuffer ++ payload.take copiedLen }
    if bufLength - w.payloadBuffer.length = 0 then
      match flushRecords response w with
      | (w, true) => copyPayload fuel (payload.drop copiedLen) w
      | (w, false) => (w, false)
    else copyPayload fuel (payload.drop copiedLen) w

/-- The last messages after `payloadCh` was closed. -/
def writeEnd (bytesScanned bytesProcessed : Int64) (w : MessageWriter) : MessageWriter :=
  match flushRecords response w with
  | (w, false) => w
  | (w, true) =>
    match write response w (newStatsMessage bytesScanned bytesProcessed w.bytesReturned) with
    | (w, false) => w
    | (w, true) => (write response w endMessage).1

/-- The last messages after something came through `errCh`. -/
def writeError (data : Bytes) (w : MessageWriter) : MessageWriter :=
  match flushRecords response w with
  | (w, false) => w
  | (w, true) => (write response w data).1

end Goroutine

/-! ### Caller and goroutine -/

inductive Call where
  | finish (bytesScanned bytesProcessed : Int64)
  | finishWithError (errorCode errorMessage : Bytes)

structure Setup where
  response : Bytes → Bytes → Bool
  /-- There is a `getProgressFunc`. -/
  progress : Bool
  last : Call

structure State where
  writer : MessageWriter
  /-- The goroutine has left its loop and closed `doneCh`. -/
  quit : Bool
  /-- The payloads that the caller has still to send. -/
  pending : List Bytes
  payloadCh : Option Bytes
  /-- The last call was made; `Finish` closes `payloadCh`. -/
  called : Bool

inductive Event where
  | sendRecord
  /-- `SendRecord` sees that the goroutine is done. -/
  | refused
  | last
  | receive
  | staging
  | keepAlive
  | progress (bytesScanned bytesProcessed : Int64)

def step (c : Setup) (s : State) : Event → Option State
  | .sendRecord =>
    match s.pending, s.payloadCh with
    | payload :: pending, none => some { s with pending := pending, payloadCh := some payload }
    | _, _ => none
  | .refused =>
    if s.quit = true ∧ s.pending ≠ [] then some { s with pending := [], called := true } else none
  | .last =>
    if s.pending = [] ∧ s.called = false then
      match s.quit, c.last with
      | true, _ => some { s with called := true }
      | false, .finish .. => some { s with called := true }
      | false, .finishWithError errorCode errorMessage =>
        some { s with
          called := true, quit := true
          writer := writeError c.response (newErrorMessage errorCode errorMessage) s.writer }
    else none
  | .receive =>
    match s.quit, s.payloadCh, s.called, c.last with
    | false, some payload, _, _ =>
      let (w, ok) := copyPayload c.response payload.length payload s.writer
      some { s with writer := w, quit := !ok, payloadCh := none }
    | false, none, true, .finish bytesScanned bytesProcessed =>
      some { s with
        writer := writeEnd c.response bytesScanned bytesProcessed s.writer
        quit := true }
    | _, _, _, _ => none
  | .staging =>
    if s.quit then none
    else
      let (w, ok) := flushRecords c.response s.writer
      some { s with writer := w, quit := !ok }
  | .keepAlive =>
    if s.quit then none
    else
      let (w, ok) := write c.response s.writer continuationMessage
      some { s with writer := w, quit := !ok }
  | .progress bytesScanned bytesProcessed =>
    if s.quit = false ∧ c.progress = true then
      let (w, ok) :=
        write c.response s.writer (newProgressMessage bytesScanned bytesProcessed
          s.writer.bytesReturned)
      some { s with writer := w, quit := !ok }
    else none

def init (payloads : List Bytes) : State := ⟨⟨[], 0, []⟩, false, payloads, none, false⟩

def run (c : Setup) : List Event → State → Option State
  | [], s => some s
  | e :: es, s => (step c s e).bind (run c es)

/-! ### The stream -/

def contHeader : Bytes :=
  13 :: lit ":message-type" ++ [7, 0, 5] ++ lit "event" ++ 11 :: lit ":event-type" ++
    [7, 0, 4] ++ lit "Cont"

def endHeader : Bytes :=
  13 :: lit ":message-type" ++ [7, 0, 5] ++ lit "event" ++ 11 :: lit ":event-type" ++
    [7, 0, 3] ++ lit "End"

theorem continuationMessage_eq : continuationMessage = genMessage contHeader [] := by decide +kernel

theorem endMessage_eq : endMessage = genMessage endHeader [] := by decide +kernel

theorem length_recordsHeader : recordsHeader.length = 85 := by decide

theorem bufLength_eq : bufLength = 130715 := by decide

def recordsPayload (fs : List Frame) : Bytes :=
  (fs.filter fun f => f.header = recordsHeader).flatMap Frame.payload

@[simp] theorem recordsPayload_append (fs gs : List Frame) :
    recordsPayload (fs ++ gs) = recordsPayload fs ++ recordsPayload gs := by
  simp [recordsPayload]

theorem recordsPayload_other {f : Frame} (h : f.header ≠ recordsHeader) :
    recordsPayload [f] = [] := by
  simp [recordsPayload, h]

theorem recordsPayload_records (payload : Bytes) :
    recordsPayload [⟨recordsHeader, payload⟩] = payload := by
  simp [recordsPayload]

structure Fits (f : Frame) : Prop where
  length : f.length < 2 ^ 32
  records : f.header = recordsHeader → f.length ≤ maxRecordMessageLength

theorem fits_records {payload : Bytes} (h : payload.length ≤ bufLength) :
    Fits ⟨recordsHeader, payload⟩ := by
  have hle : Frame.length ⟨recordsHeader, payload⟩ ≤ maxRecordMessageLength := by
    rw [Frame.length, length_recordsHeader]
    rw [bufLength_eq] at h
    have hmax : maxRecordMessageLength = 130816 := rfl
    dsimp only
    omega
  exact ⟨hle.trans_lt (by decide), fun _ => hle⟩

theorem length_natDigits_le (fuel n : Nat) : (natDigits fuel n).length ≤ fuel := by
  induction fuel generalizing n with
  | zero => rfl
  | succ fuel ih =>
    rw [natDigits]
    split_ifs
    · simp
    · simpa using ih (n / 10)

theorem length_formatInt_le (x : Int64) : (formatInt x.toInt).length ≤ 65 := by
  have hlog : ∀ n : Nat, n ≤ 2 ^ 63 → (formatNat n).length ≤ 64 := by
    intro n hn
    refine (length_natDigits_le _ _).trans (Nat.succ_le_succ ?_)
    rw [Nat.log2_eq_log_two]
    exact (Nat.log_mono_right hn).trans_eq (Nat.log_pow Nat.one_lt_two 63)
  have hlo := x.le_toInt
  have hhi := x.toInt_lt
  cases hx : x.toInt with
  | ofNat n =>
    rw [hx] at hhi
    exact (hlog n (by simp at hhi; omega)).trans (by omega)
  | negSucc n =>
    rw [hx] at hlo
    exact Nat.succ_le_succ (hlog (n + 1) (by omega))

theorem fits_xml {header : Bytes} {tag : String} (hheader : header ≠ recordsHeader)
    (hlen : header.length + (lit tag).length ≤ 1000)
    (bytesScanned bytesProcessed bytesReturned : Int64) :
    Fits ⟨header, xmlPayload tag bytesScanned bytesProcessed bytesReturned⟩ := by
  refine ⟨?_, fun h => absurd h hheader⟩
  have h₁ := length_formatInt_le bytesScanned
  have h₂ := length_formatInt_le bytesProcessed
  have h₃ := length_formatInt_le bytesReturned
  have h₄ : (lit "<?xml version=\"1.0\" encoding=\"UTF-8\"?><").length = 39 := by decide
  have h₅ : (lit "><BytesScanned>").length = 15 := by decide
  have h₆ : (lit "</BytesScanned><BytesProcessed>").length = 31 := by decide
  have h₇ : (lit "</BytesProcessed><BytesReturned>").length = 32 := by decide
  have h₈ : (lit "</BytesReturned></Stats>").length = 24 := by decide
  rw [Frame.length, xmlPayload]
  simp only [length_append, h₄, h₅, h₆, h₇, h₈]
  omega

/-- The frames written so far, and the data they and the buffer hold. -/
structure Wrote (w : MessageWriter) (data : Bytes) (fs : List Frame) : Prop where
  written : w.written = fs.flatMap (Frame.encode crc32)
  fits : ∀ f ∈ fs, Fits f
  data : recordsPayload fs ++ w.payloadBuffer = data
  returned : w.bytesReturned = Int64.ofNat (recordsPayload fs).length
  room : w.payloadBuffer.length ≤ bufLength

section Writer

variable {response : Bytes → Bytes → Bool} {w : MessageWriter} {data : Bytes} {fs : List Frame}

theorem write_eq (hok : ∀ a b, response a b = true) (w : MessageWriter) (data : Bytes) :
    write response w data = ({ w with written := w.written ++ data }, true) := if_pos (hok _ _)

theorem Wrote.other {header payload : Bytes} (h : Wrote w data fs)
    (hheader : header ≠ recordsHeader) (hf : Fits ⟨header, payload⟩) :
    Wrote { w with written := w.written ++ genMessage header payload } data
      (fs ++ [⟨header, payload⟩]) := by
  have hrecords : recordsPayload (fs ++ [⟨header, payload⟩]) = recordsPayload fs := by
    rw [recordsPayload_append, recordsPayload_other hheader, append_nil]
  refine ⟨by simp [h.written, genMessage_eq], fun g hg => ?_, ?_, ?_, h.room⟩
  · exact (mem_append.1 hg).elim (h.fits g) fun hg => mem_singleton.1 hg ▸ hf
  · rw [hrecords]
    exact h.data
  · rw [hrecords]
    exact h.returned

theorem Wrote.flush (hok : ∀ a b, response a b = true) (h : Wrote w data fs) : ∃ w' gs,
    flushRecords response w = (w', true) ∧ Wrote w' data (fs ++ gs) ∧ w'.payloadBuffer = [] := by
  unfold flushRecords
  by_cases hnil : w.payloadBuffer = []
  · exact ⟨w, [], if_pos hnil, by rwa [append_nil], hnil⟩
  · rw [if_neg hnil, write_eq hok]
    refine ⟨_, [⟨recordsHeader, w.payloadBuffer⟩], rfl, ⟨?_, fun g hg => ?_, ?_, ?_, Nat.zero_le _⟩,
      rfl⟩
    · simp [h.written, newRecordsMessage, genMessage_eq]
    · exact (mem_append.1 hg).elim (h.fits g) fun hg => mem_singleton.1 hg ▸ fits_records h.room
    · rw [recordsPayload_append, recordsPayload_records, append_nil]
      exact h.data
    · rw [recordsPayload_append, recordsPayload_records, length_append,
        Int64.ofNat_add, ← h.returned]

theorem Wrote.copy (hok : ∀ a b, response a b = true) {fuel : Nat} (payload : Bytes)
    (h : Wrote w data fs)
    (hroom : w.payloadBuffer.length < bufLength) (hfuel : payload.length ≤ fuel) : ∃ w' gs,
    copyPayload response fuel payload w = (w', true) ∧ Wrote w' (data ++ payload) (fs ++ gs) ∧
      w'.payloadBuffer.length < bufLength := by
  induction fuel generalizing w data fs payload with
  | zero =>
    have hnil : payload = [] := length_eq_zero_iff.1 (Nat.le_zero.1 hfuel)
    subst hnil
    exact ⟨w, [], rfl, by simpa using h, hroom⟩
  | succ fuel ih =>
    cases hpayload : payload with
    | nil => exact ⟨w, [], rfl, by simpa using h, hroom⟩
    | cons b bs =>
      rw [← hpayload]
      obtain ⟨k, hk⟩ : ∃ k, k = min (bufLength - w.payloadBuffer.length) payload.length := ⟨_, rfl⟩
      have hpos : 0 < payload.length := by simp [hpayload]
      have hk1 : 0 < k ∧ k ≤ payload.length ∧ w.payloadBuffer.length + k ≤ bufLength := by omega
      have hlen : (w.payloadBuffer ++ payload.take k).length = w.payloadBuffer.length + k := by
        rw [length_append, length_take, Nat.min_eq_left hk1.2.1]
      -- `k` bytes are in the buffer
      have hcopied : Wrote { w with payloadBuffer := w.payloadBuffer ++ payload.take k }
          (data ++ payload.take k) fs :=
        ⟨h.written, h.fits, by rw [← h.data, append_assoc], h.returned, by rw [hlen]; exact hk1.2.2⟩
      have hsplit : data ++ payload = data ++ payload.take k ++ payload.drop k := by
        rw [append_assoc, take_append_drop]
      have hrest : (payload.drop k).length ≤ fuel := by
        rw [length_drop]
        omega
      have hstep : copyPayload response (fuel + 1) payload w =
          if bufLength - (w.payloadBuffer ++ payload.take k).length = 0 then
            match flushRecords response
                { w with payloadBuffer := w.payloadBuffer ++ payload.take k } with
            | (w, true) => copyPayload response fuel (payload.drop k) w
            | (w, false) => (w, false)
          else copyPayload response fuel (payload.drop k)
              { w with payloadBuffer := w.payloadBuffer ++ payload.take k } := by
        rw [hk, hpayload]
        rfl
      rw [hstep, hsplit]
      by_cases hfull : bufLength - (w.payloadBuffer ++ payload.take k).length = 0
      · obtain ⟨w₁, gs, hflush, hw₁, hempty⟩ := hcopied.flush hok
        obtain ⟨w₂, gs', hcopy, hw₂, hroom₂⟩ :=
          ih _ hw₁ (by rw [hempty, bufLength_eq]; decide) hrest
        rw [if_pos hfull, hflush]
        exact ⟨w₂, gs ++ gs', hcopy, by rwa [← append_assoc], hroom₂⟩
      · rw [if_neg hfull]
        exact ih _ hcopied (by dsimp only; omega) hrest

end Writer

/-- What `Finish` leaves behind: messages that a client reads back, the records in order and the two
last messages. -/
structure Stream (payloads : List Bytes) (bytesScanned bytesProcessed : Int64) (out : Bytes)
    (msgs : List Frame) : Prop where
  written : out = msgs.flatMap (Frame.encode crc32)
  decoded : frames crc32 out = some msgs
  layout : ∀ f ∈ msgs, fromBE32 ((f.encode crc32).take 4) = (f.encode crc32).length ∧
    fromBE32 (((f.encode crc32).drop 4).take 4) = f.header.length
  records : recordsPayload msgs = payloads.flatten
  short : ∀ f ∈ msgs, f.header = recordsHeader → (f.encode crc32).length ≤ maxRecordMessageLength
  last : ∃ front, msgs = front ++
    [⟨statsHeader, xmlPayload "Stats" bytesScanned bytesProcessed
      (Int64.ofNat payloads.flatten.length)⟩, ⟨endHeader, []⟩]

theorem layout_of_fits {f : Frame} (h : Fits f) :
    fromBE32 ((f.encode crc32).take 4) = (f.encode crc32).length ∧
    fromBE32 (((f.encode crc32).drop 4).take 4) = f.header.length := by
  have hheader : f.header.length < 2 ^ 32 := by
    have := h.length
    rw [Frame.length] at this
    omega
  rw [Frame.length_encode]
  exact ⟨fromBE32_be32 h.length, fromBE32_be32 hheader⟩

theorem stream_of_wrote {w : MessageWriter} {payloads : List Bytes} {fs : List Frame}
    {bytesScanned bytesProcessed : Int64} (h : Wrote w payloads.flatten fs)
    (hempty : w.payloadBuffer = [])
    (hlast : ∃ front, fs = front ++
      [⟨statsHeader, xmlPayload "Stats" bytesScanned bytesProcessed
        (Int64.ofNat payloads.flatten.length)⟩, ⟨endHeader, []⟩]) :
    Stream payloads bytesScanned bytesProcessed w.written fs where
  written := h.written
  decoded := h.written ▸ frames_flatMap_encode fun f hf => (h.fits f hf).length
  layout f hf := layout_of_fits (h.fits f hf)
  records := by rw [← h.data, hempty, append_nil]
  short f hf hrecords := by
    rw [Frame.length_encode]
    exact (h.fits f hf).records hrecords
  last := hlast

theorem writeEnd_stream {response : Bytes → Bytes → Bool} {w : MessageWriter}
    {payloads : List Bytes} {fs : List Frame}
    (hok : ∀ a b, response a b = true) (h : Wrote w payloads.flatten fs)
    (bytesScanned bytesProcessed : Int64) :
    ∃ msgs, Stream payloads bytesScanned bytesProcessed
      (writeEnd response bytesScanned bytesProcessed w).written msgs := by
  obtain ⟨w₁, gs, hflush, hw₁, hempty⟩ := h.flush hok
  have hdata : recordsPayload (fs ++ gs) = payloads.flatten := by
    rw [← hw₁.data, hempty, append_nil]
  have hreturned : w₁.bytesReturned = Int64.ofNat payloads.flatten.length := by
    rw [hw₁.returned, hdata]
  have hstats :=
    (hw₁.other (by decide) (fits_xml (by decide) (by decide) bytesScanned bytesProcessed _) :
      Wrote { w₁ with
        written := w₁.written ++ newStatsMessage bytesScanned bytesProcessed w₁.bytesReturned }
        _ _)
  have hend : Wrote { w₁ with
      written := w₁.written ++ newStatsMessage bytesScanned bytesProcessed w₁.bytesReturned ++
          endMessage } _ _ :=
    endMessage_eq ▸ hstats.other (by decide) ⟨by decide, fun h => absurd h (by decide)⟩
  have hwritten : writeEnd response bytesScanned bytesProcessed w = { w₁ with
      written := w₁.written ++ newStatsMessage bytesScanned bytesProcessed w₁.bytesReturned ++
          endMessage } := by
    simp only [writeEnd, hflush, write_eq hok]
  rw [hwritten]
  refine ⟨_, stream_of_wrote hend hempty ⟨fs ++ gs, ?_⟩⟩
  rw [append_assoc, hreturned]
  rfl

namespace Event

def isTick : Event → Bool
  | staging | keepAlive | progress .. => true
  | _ => false

end Event

def State.remaining (s : State) : Nat :=
  2 * s.pending.length + s.payloadCh.isSome.toNat + s.called.not.toNat + s.quit.not.toNat

section Run

variable {c : Setup} {bytesScanned bytesProcessed : Int64} {payloads : List Bytes}
    {s s' : State} {e : Event}

structure Inv (bytesScanned bytesProcessed : Int64) (payloads : List Bytes) (s : State) : Prop where
  live : s.quit = false → ∃ data fs, Wrote s.writer data fs ∧
    s.writer.payloadBuffer.length < bufLength ∧
    data ++ s.payloadCh.getD [] ++ s.pending.flatten = payloads.flatten
  called : s.called = true → s.pending = []
  quit : s.quit = true → s.called = true ∧ s.payloadCh = none ∧
    ∃ msgs, Stream payloads bytesScanned bytesProcessed s.writer.written msgs

theorem inv_init : Inv bytesScanned bytesProcessed payloads (init payloads) where
  live _ := ⟨[], [], ⟨rfl, by simp, rfl, rfl, Nat.zero_le _⟩, (by decide : 0 < bufLength), rfl⟩
  called h := by simp [init] at h
  quit h := by simp [init] at h

theorem Inv.tick {w : MessageWriter} (h : Inv bytesScanned bytesProcessed payloads s)
    (hquit : s.quit = false)
    (hw : ∃ data fs, Wrote w data fs ∧ w.payloadBuffer.length < bufLength ∧
      data ++ s.payloadCh.getD [] ++ s.pending.flatten = payloads.flatten) :
    Inv bytesScanned bytesProcessed payloads { s with writer := w } :=
  ⟨fun _ => hw, h.called, fun hq => absurd hq (by simp [hquit])⟩

theorem Inv.step (hlast : c.last = .finish bytesScanned bytesProcessed)
    (hok : ∀ a b, c.response a b = true)
    (h : Inv bytesScanned bytesProcessed payloads s) (hstep : step c s e = some s') :
    Inv bytesScanned bytesProcessed payloads s' ∧ s'.remaining + e.isTick.not.toNat =
      s.remaining := by
  cases hquit : s.quit with
  | true =>
    -- after the end nobody has anything left to do
    obtain ⟨hcalled, hch, -⟩ := h.quit hquit
    have hpending := h.called hcalled
    cases e <;> simp [EventStream.step, hquit, hcalled, hpending] at hstep
  | false =>
    obtain ⟨data, fs, hfs, hroom, hdata⟩ := h.live hquit
    cases e with
    | sendRecord =>
      cases hpending : s.pending with
      | nil => simp [EventStream.step, hpending] at hstep
      | cons payload pending =>
        cases hch : s.payloadCh with
        | some p => simp [EventStream.step, hpending, hch] at hstep
        | none =>
          simp only [EventStream.step, hpending, hch, Option.some.injEq] at hstep
          subst hstep
          have hcalled : s.called ≠ true := fun hc => by simp [h.called hc] at hpending
          refine ⟨⟨fun _ => ⟨data, fs, hfs, hroom, ?_⟩, fun hc => absurd hc hcalled,
            fun hq => absurd hq (by simp [hquit])⟩, ?_⟩
          · rw [← hdata, hpending, hch]
            simp
          · simp [State.remaining, hpending, hch, Event.isTick]
            omega
    | refused => simp [EventStream.step, hquit] at hstep
    | last =>
      obtain ⟨⟨hpending, hcalled⟩, hs'⟩ := Option.ite_none_right_eq_some.1 hstep
      simp only [hquit, hlast, Option.some.injEq] at hs'
      subst hs'
      refine ⟨⟨fun _ => ⟨data, fs, hfs, hroom, hdata⟩, fun _ => hpending,
        fun hq => absurd hq (by simp)⟩, ?_⟩
      simp [State.remaining, hpending, hcalled, hquit, Event.isTick]
    | receive =>
      cases hch : s.payloadCh with
      | some payload =>
        obtain ⟨w, gs, hcopy, hw, hlt⟩ := Wrote.copy hok payload hfs hroom le_rfl
        simp only [EventStream.step, hquit, hch, hcopy, Option.some.injEq] at hstep
        subst hstep
        refine ⟨⟨fun _ => ⟨data ++ payload, fs ++ gs, hw, hlt, ?_⟩, h.called,
          fun hq => absurd hq (by simp)⟩, ?_⟩
        · rw [← hdata, hch]
          simp
        · simp [State.remaining, hch, hquit, Event.isTick]
          omega
      | none =>
        cases hcalled : s.called with
        | false => simp [EventStream.step, hquit, hch, hcalled] at hstep
        | true =>
          simp only [EventStream.step, hquit, hch, hcalled, hlast, Option.some.injEq] at hstep
          subst hstep
          have hall : data = payloads.flatten := by
            rw [← hdata, hch, h.called hcalled]
            simp
          rw [hall] at hfs
          refine ⟨⟨fun hq => absurd hq (by simp), fun _ => h.called hcalled,
            fun _ => ⟨rfl, rfl, writeEnd_stream hok hfs _ _⟩⟩, ?_⟩
          simp [State.remaining, hquit, hch, hcalled, Event.isTick]
    | staging =>
      obtain ⟨w, gs, hflush, hw, hempty⟩ := hfs.flush hok
      have hs' : s' = { s with writer := w } := by
        simpa [EventStream.step, hquit, hflush, eq_comm] using hstep
      rw [hs']
      exact ⟨h.tick hquit ⟨data, _, hw, by rw [hempty]; decide, hdata⟩, rfl⟩
    | keepAlive =>
      have hw : Wrote { s.writer with written := s.writer.written ++ continuationMessage } _ _ :=
        continuationMessage_eq ▸ hfs.other (by decide) ⟨by decide, fun h => absurd h (by decide)⟩
      have hs' : s' = { s with
          writer := { s.writer with written := s.writer.written ++ continuationMessage } } := by
        simpa [EventStream.step, hquit, write_eq hok, eq_comm] using hstep
      rw [hs']
      exact ⟨h.tick hquit ⟨data, _, hw, hroom, hdata⟩, rfl⟩
    | progress scanned processed =>
      have hw := (hfs.other (by decide) (fits_xml (by decide) (by decide) scanned processed _) :
        Wrote { s.writer with
          written := s.writer.written ++ newProgressMessage scanned processed
            s.writer.bytesReturned } _ _)
      by_cases hprogress : c.progress = true
      swap
      · rw [EventStream.step, if_neg fun hc => hprogress hc.2] at hstep
        cases hstep
      have hs' : s' = { s with writer := { s.writer with
          written := s.writer.written ++ newProgressMessage scanned processed
              s.writer.bytesReturned } } := by
        rw [EventStream.step, if_pos ⟨hquit, hprogress⟩, write_eq hok] at hstep
        simp only [Option.some.injEq, Bool.not_true] at hstep
        rw [← hstep, hquit]
      rw [hs']
      exact ⟨h.tick hquit ⟨data, _, hw, hroom, hdata⟩, rfl⟩

theorem Inv.run (hlast : c.last = .finish bytesScanned bytesProcessed)
    (hok : ∀ a b, c.response a b = true)
    {es : List Event} (h : Inv bytesScanned bytesProcessed payloads s)
    (hrun : run c es s = some s') :
    Inv bytesScanned bytesProcessed payloads s' ∧ s'.remaining + es.countP (fun e => e.isTick.not) =
      s.remaining := by
  induction es generalizing s with
  | nil =>
    rw [EventStream.run, Option.some.injEq] at hrun
    exact hrun ▸ ⟨h, rfl⟩
  | cons e es ih =>
    obtain ⟨s₁, hstep, hrest⟩ := Option.bind_eq_some_iff.1 hrun
    obtain ⟨h₁, hcount⟩ := h.step hlast hok hstep
    obtain ⟨h', hcount'⟩ := ih h₁ hrest
    refine ⟨h', ?_⟩
    rw [countP_cons, ← hcount, ← hcount']
    cases e.isTick <;> simp
    omega

theorem exists_step (hlast : c.last = .finish bytesScanned bytesProcessed)
    (hquit : s.quit = false) :
    ∃ e, e.isTick = false ∧ (EventStream.step c s e).isSome = true := by
  cases hch : s.payloadCh with
  | some payload => exact ⟨.receive, rfl, by simp [EventStream.step, hquit, hch]⟩
  | none =>
    cases hpending : s.pending with
    | cons payload pending => exact ⟨.sendRecord, rfl, by simp [EventStream.step, hpending, hch]⟩
    | nil =>
      cases hcalled : s.called with
      | false => exact ⟨.last, rfl, by simp [EventStream.step, hpending, hcalled, hquit, hlast]⟩
      | true => exact ⟨.receive, rfl, by simp [EventStream.step, hquit, hch, hcalled, hlast]⟩

end Run

/-- `SendRecord` for every payload, then `Finish`, with the tickers at any time and a response
writer that takes everything. When the goroutine is done, it has written an event stream with the
payloads; before, caller or goroutine can go on, and they take two steps for every payload and two
for the end. `BytesReturned` is an `int64`. -/
theorem messageWriter_stream (c : Setup) (bytesScanned bytesProcessed : Int64)
    (hlast : c.last = .finish bytesScanned bytesProcessed) (hok : ∀ a b, c.response a b = true)
    (payloads : List Bytes)
    (es : List Event) (s : State) (hrun : run c es (init payloads) = some s) :
    (s.quit = true → ∃ msgs, Stream payloads bytesScanned bytesProcessed s.writer.written msgs) ∧
    (payloads.flatten.length < 2 ^ 63 → (Int64.ofNat payloads.flatten.length).toInt =
      payloads.flatten.length) ∧
    (s.quit = false → ∃ e, e.isTick = false ∧ (step c s e).isSome = true) ∧
    es.countP (fun e => e.isTick.not) ≤ 2 * payloads.length + 2 := by
  obtain ⟨hinv, hcount⟩ := inv_init.run hlast hok hrun
  have hinit : (init payloads).remaining = 2 * payloads.length + 2 := rfl
  exact ⟨fun hquit => (hinv.quit hquit).2.2, Int64.toInt_ofNat_of_lt, exists_step hlast, by omega⟩

/-- Two payloads, with a keep-alive and a staging tick between them. -/
theorem messageWriter_stream_twoPayloads :
    let c : Setup := ⟨fun _ _ => true, true, .finish 10 20⟩
    let es : List Event := [.sendRecord, .receive, .keepAlive, .staging, .sendRecord, .last,
      .progress 1 2, .receive, .receive]
    ∃ s, run c es (init [lit "a,b\n", lit "c,d\n"]) = some s ∧ s.quit = true ∧
      ∃ msgs, Stream [lit "a,b\n", lit "c,d\n"] 10 20 s.writer.written msgs := by
  intro c es
  refine ⟨_, rfl, rfl, ?_⟩
  exact (messageWriter_stream c 10 20 rfl (fun _ _ => rfl) _ es _ rfl).1 rfl

end S3Kinetic.EventStream
