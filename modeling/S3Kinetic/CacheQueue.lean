import S3Kinetic.Lib.ByteString
import S3Kinetic.Lib.Runs

/-!
# The eviction queue of the disk cache (`disk-cache-utils.go`)

The scorer keeps the files to delete in a queue sorted by score, and the sum of their sizes in a
counter. An addition inserts the file and drops files from the back as long as enough bytes stay
queued. `adjustSaveBytes` empties the queue when nothing is to be saved any more and leaves the
counter as it is.
-/

namespace S3Kinetic.CacheQueue

open ByteString List Runs

variable {σ : Type}

def wrap (x : Int) : Int := (x + 2 ^ 63) % 2 ^ 64 - 2 ^ 63

structure QueuedFile (σ : Type) where
  name : Bytes
  size : Nat
  score : σ
  /-- The size is an `int64`. -/
  size_lt : size < 2 ^ 63

/-- `fileScorer`, the queue from its front on. -/
structure FileScorer (σ : Type) where
  saveBytes : Int
  queuedBytes : Int
  queue : List (QueuedFile σ)

/-! ## Operations -/

/-- The place of a file: in front of the first one with a lower score. -/
def insertSorted [LinearOrder σ] (file : QueuedFile σ) : List (QueuedFile σ) → List (QueuedFile σ)
  | [] => [file]
  | v :: queue => if v.score < file.score then file :: v :: queue else v :: insertSorted file queue

/-- The loop of `trimQueue` over the queue from its back on. -/
def trimLoop (saveBytes : Int) : Int → List (QueuedFile σ) → Int × List (QueuedFile σ)
  | queuedBytes, [] => (queuedBytes, [])
  | queuedBytes, v :: back =>
    if wrap (queuedBytes - v.size) < saveBytes then (queuedBytes, v :: back)
    else trimLoop saveBytes (wrap (queuedBytes - v.size)) back

def trimQueue (f : FileScorer σ) : FileScorer σ :=
  let r := trimLoop f.saveBytes f.queuedBytes f.queue.reverse
  { f with queuedBytes := r.1, queue := r.2.reverse }

def insertFile [LinearOrder σ] (f : FileScorer σ) (file : QueuedFile σ) : FileScorer σ :=
  { f with queuedBytes := wrap (f.queuedBytes + file.size), queue := insertSorted file f.queue }

/-- `addFile` of a file with its score. -/
def addFile [LinearOrder σ] (f : FileScorer σ) (file : QueuedFile σ) : FileScorer σ :=
  if f.queuedBytes < f.saveBytes then trimQueue (insertFile f file)
  else
    match f.queue.getLast? with
    | some worst => if file.score < worst.score then f else trimQueue (insertFile f file)
    | none => trimQueue (insertFile f file)

/-- `adjustSaveBytes`, and whether bytes are still to be saved. -/
def adjustSaveBytes (f : FileScorer σ) (n : Int64) : FileScorer σ × Bool :=
  let saveBytes := wrap (f.saveBytes + n.toInt)
  if saveBytes ≤ 0 then ({ f with saveBytes := 0, queue := [] }, false)
  else if n.toInt < 0 then (trimQueue { f with saveBytes := saveBytes }, true)
  else ({ f with saveBytes := saveBytes }, true)

def reset (f : FileScorer σ) : FileScorer σ := { f with queuedBytes := 0, queue := [] }

inductive Op (σ : Type)
  | addFile (file : QueuedFile σ)
  | adjustSaveBytes (n : Int64)
  | reset

def step [LinearOrder σ] (f : FileScorer σ) : Op σ → FileScorer σ
  | .addFile file => addFile f file
  | .adjustSaveBytes n => (adjustSaveBytes f n).1
  | .reset => reset f

/-- The scorer `newFileScorer` returns. -/
def newFileScorer (saveBytes : Int64) : FileScorer σ := ⟨saveBytes.toInt, 0, []⟩

/-! ## The law -/

def total (queue : List (QueuedFile σ)) : Nat := (queue.map QueuedFile.size).sum

/-- Nothing more could be dropped from the back. -/
def Trimmed (f : FileScorer σ) : Prop :=
  f.queue = [] ∨ (total f.queue : Int) < f.saveBytes ∨
    ∃ v, f.queue.getLast? = some v ∧ (total f.queue : Int) - v.size < f.saveBytes

/-- What has to hold after a call. -/
structure Accounted [LinearOrder σ] (op : Op σ) (f : FileScorer σ) : Prop where
  bytes : f.queuedBytes = total f.queue
  sorted : f.queue.Pairwise fun a b => b.score ≤ a.score
  trimmed : ∀ file, op = .addFile file → Trimmed f

/-- `addFile` puts the file in the queue: more bytes are needed, or no queued file has a better
score than the new one. -/
def Takes [LinearOrder σ] (f : FileScorer σ) (file : QueuedFile σ) : Prop :=
  f.queuedBytes < f.saveBytes ∨ ∀ worst ∈ f.queue.getLast?, ¬ file.score < worst.score

/-- The bytes of the queue and of a file that is put there fit the counter, or they do without the
last file of the queue and are still enough. No queue with bytes in it is emptied by
`adjustSaveBytes`. -/
structure Tame [LinearOrder σ] (f : FileScorer σ) (op : Op σ) : Prop where
  fits : ∀ file, op = .addFile file → Takes f file →
    total f.queue + file.size < 2 ^ 63 ∨ ∃ v ∈ (insertSorted file f.queue).getLast?,
      total f.queue + file.size < 2 ^ 63 + v.size ∧
        f.saveBytes ≤ (total f.queue + file.size : Nat) - v.size
  empty : ∀ n, op = .adjustSaveBytes n → wrap (f.saveBytes + n.toInt) ≤ 0 → total f.queue = 0

/-! ## Parts of the operations -/

theorem wrap_eq {x : Int} (h1 : -2 ^ 63 ≤ x) (h2 : x < 2 ^ 63) : wrap x = x := by
  unfold wrap
  omega

theorem wrap_lt (x : Int) : wrap x < 2 ^ 63 := by
  unfold wrap
  omega

theorem wrap_wrap_sub (x y : Int) : wrap (wrap x - y) = wrap (x - y) := by
  unfold wrap
  omega

theorem wrap_total_sub (v : QueuedFile σ) (back : List (QueuedFile σ)) :
    wrap (wrap (total (v :: back)) - v.size) = wrap (total back) := by
  rw [wrap_wrap_sub]
  simp [total]

theorem trimLoop_spec (saveBytes : Int) (back : List (QueuedFile σ)) :
    ∃ back', (trimLoop saveBytes (wrap (total back)) back).2 = back' ∧ back' <:+ back ∧
      (trimLoop saveBytes (wrap (total back)) back).1 = wrap (total back') ∧
      ∀ v ∈ back'.head?, wrap (total back' - v.size) < saveBytes := by
  induction back with
  | nil => exact ⟨[], rfl, suffix_rfl, rfl, by simp⟩
  | cons v back ih =>
    rw [trimLoop]
    split_ifs with h
    · refine ⟨v :: back, rfl, suffix_rfl, rfl, fun w hw => ?_⟩
      obtain rfl : v = w := by simpa using hw
      rwa [wrap_wrap_sub] at h
    · obtain ⟨back', hback, hsuf, hbytes, hstop⟩ := ih
      rw [wrap_total_sub]
      exact ⟨back', hback, hsuf.trans (suffix_cons v back), hbytes, hstop⟩

theorem total_reverse (queue : List (QueuedFile σ)) : total queue.reverse = total queue := by
  simp [total, sum_reverse]

theorem total_le_total {q q' : List (QueuedFile σ)} (h : q <+: q') : total q ≤ total q' :=
  (h.sublist.map QueuedFile.size).sum_le_sum fun _ _ => Nat.zero_le _

theorem size_le_total {v : QueuedFile σ} {queue : List (QueuedFile σ)} (h : v ∈ queue) :
    v.size ≤ total queue :=
  List.single_le_sum (fun _ _ => Nat.zero_le _) _ (mem_map.2 ⟨v, h, rfl⟩)

theorem trimQueue_spec {f : FileScorer σ} (hbytes : f.queuedBytes = wrap (total f.queue)) :
    (trimQueue f).queue <+: f.queue ∧ (trimQueue f).queuedBytes = wrap (total (trimQueue f).queue) ∧
      (trimQueue f).saveBytes = f.saveBytes ∧ (total (trimQueue f).queue < 2 ^ 63 →
        Trimmed (trimQueue f)) := by
  obtain ⟨back', hback, hsuf, hcount, hstop⟩ := trimLoop_spec f.saveBytes f.queue.reverse
  rw [total_reverse, ← hbytes] at hback hcount
  have hqueue : (trimQueue f).queue = back'.reverse := congrArg reverse hback
  have hsame : (trimQueue f).saveBytes = f.saveBytes := rfl
  refine ⟨?_, ?_, rfl, fun hfits => ?_⟩
  · rw [hqueue]
    simpa using reverse_prefix.2 hsuf
  · rw [hqueue, total_reverse]
    exact hcount
  · rw [Trimmed, hsame, hqueue, total_reverse, getLast?_reverse]
    rw [hqueue, total_reverse] at hfits
    cases hhead : back'.head? with
    | none => exact .inl (by simpa using hhead)
    | some v =>
      have hsize := size_le_total (mem_of_mem_head? hhead)
      have hlt := hstop v hhead
      rw [wrap_eq (by omega) (by omega)] at hlt
      exact .inr (.inr ⟨v, rfl, hlt⟩)

section

variable [LinearOrder σ]

theorem total_insertSorted (file : QueuedFile σ) (queue : List (QueuedFile σ)) :
    total (insertSorted file queue) = total queue + file.size := by
  induction queue with
  | nil => simp [insertSorted, total]
  | cons v queue ih =>
    rw [insertSorted]
    split_ifs
    · simp [total]
      omega
    · simp only [total, map_cons, sum_cons] at ih ⊢
      omega

theorem mem_insertSorted {file x : QueuedFile σ} {queue : List (QueuedFile σ)}
    (h : x ∈ insertSorted file queue) :
    x = file ∨ x ∈ queue := by
  induction queue with
  | nil => exact .inl (by simpa [insertSorted] using h)
  | cons v queue ih =>
    rw [insertSorted] at h
    split_ifs at h
    · simpa using h
    · rcases mem_cons.1 h with rfl | h
      · exact .inr mem_cons_self
      · exact (ih h).imp_right (mem_cons_of_mem v)

theorem insertSorted_sorted {file : QueuedFile σ} {queue : List (QueuedFile σ)}
    (h : queue.Pairwise fun a b => b.score ≤ a.score) :
    (insertSorted file queue).Pairwise fun a b => b.score ≤ a.score := by
  induction queue with
  | nil => exact pairwise_singleton ..
  | cons v queue ih =>
    obtain ⟨hv, hq⟩ := pairwise_cons.1 h
    rw [insertSorted]
    split_ifs with hlt
    · refine pairwise_cons.2 ⟨fun x hx => ?_, h⟩
      rcases mem_cons.1 hx with rfl | hx
      · exact hlt.le
      · exact (hv x hx).trans hlt.le
    · refine pairwise_cons.2 ⟨fun x hx => ?_, ih hq⟩
      rcases mem_insertSorted hx with rfl | hx
      · exact not_lt.1 hlt
      · exact hv x hx

/-! ## Runs -/

/-- What holds between the calls of a run that is tame so far. -/
structure Inv (f : FileScorer σ) : Prop where
  bytes : f.queuedBytes = total f.queue
  fits : total f.queue < 2 ^ 63
  sorted : f.queue.Pairwise fun a b => b.score ≤ a.score
  trimmed : Trimmed f
  range : -2 ^ 63 ≤ f.saveBytes ∧ f.saveBytes < 2 ^ 63

theorem Inv.accounted {f : FileScorer σ} (h : Inv f) (op : Op σ) : Accounted op f :=
  ⟨h.bytes, h.sorted, fun _ _ => h.trimmed⟩

theorem Inv.bytes_wrap {f : FileScorer σ} (h : Inv f) : f.queuedBytes = wrap (total f.queue) := by
  have := h.fits
  rw [h.bytes, wrap_eq (by omega) (by omega)]

theorem inv_trimQueue {f : FileScorer σ} (hbytes : f.queuedBytes = wrap (total f.queue))
    (hsorted : f.queue.Pairwise fun a b => b.score ≤ a.score)
    (hrange : -2 ^ 63 ≤ f.saveBytes ∧ f.saveBytes < 2 ^ 63)
    (hfits : total (trimQueue f).queue < 2 ^ 63) : Inv (trimQueue f) := by
  obtain ⟨hpre, hcount, hsave, htrim⟩ := trimQueue_spec hbytes
  exact ⟨hcount.trans (wrap_eq (by omega) (by omega)), hfits, hsorted.sublist hpre.sublist,
    htrim hfits, hsave ▸ hrange⟩

theorem insertFile_bytes {f : FileScorer σ} (h : Inv f) (file : QueuedFile σ) :
    (insertFile f file).queuedBytes = wrap (total (insertFile f file).queue) := by
  rw [insertFile, h.bytes, total_insertSorted, Nat.cast_add]

theorem addFile_cases (f : FileScorer σ) (file : QueuedFile σ) :
    ¬ Takes f file ∧ addFile f file = f ∨
      Takes f file ∧ addFile f file = trimQueue (insertFile f file) := by
  unfold addFile Takes
  by_cases hfew : f.queuedBytes < f.saveBytes
  · exact .inr ⟨.inl hfew, if_pos hfew⟩
  rw [if_neg hfew]
  cases f.queue.getLast? with
  | none => exact .inr ⟨.inr (by simp), rfl⟩
  | some worst =>
    by_cases hworse : file.score < worst.score
    · exact .inl ⟨by simp [hfew, hworse], if_pos hworse⟩
    · exact .inr ⟨.inr (by simpa using hworse), if_neg hworse⟩

/-- When the bytes fit the counter after the file was put in the queue. -/
theorem Inv.total_trim_lt_iff {f : FileScorer σ} (h : Inv f) (file : QueuedFile σ) :
    total (trimQueue (insertFile f file)).queue < 2 ^ 63 ↔
      total f.queue + file.size < 2 ^ 63 ∨ ∃ v ∈ (insertSorted file f.queue).getLast?,
        total f.queue + file.size < 2 ^ 63 + v.size ∧
          f.saveBytes ≤ (total f.queue + file.size : Nat) - v.size := by
  have hbytes := insertFile_bytes h file
  have htotal : total (insertFile f file).queue = total f.queue + file.size :=
    total_insertSorted file f.queue
  have hfits := h.fits
  have hsize := file.size_lt
  by_cases hsmall : total f.queue + file.size < 2 ^ 63
  · have hle := total_le_total (trimQueue_spec hbytes).1
    exact ⟨fun _ => .inl hsmall, fun _ => by omega⟩
  -- the queue with the file in it has a last file, which the trimming looks at first
  obtain ⟨v, hv⟩ : ∃ v, (insertSorted file f.queue).getLast? = some v := by
    rw [← Option.isSome_iff_exists, getLast?_isSome]
    intro hnil
    rw [insertFile, hnil] at htotal
    simp only [total, map_nil, sum_nil] at htotal
    omega
  obtain ⟨init, hinit⟩ := getLast?_eq_some_iff.1 hv
  have hqueue : (insertFile f file).queue.reverse = v :: init.reverse := by
    rw [show (insertFile f file).queue = init ++ [v] from hinit, reverse_append]
    rfl
  have hcount : total (v :: init.reverse) = total (insertFile f file).queue := by
    rw [← hqueue, total_reverse]
  have hrest : total init.reverse + v.size = total f.queue + file.size := by
    rw [← htotal, ← hcount]
    simp [total, Nat.add_comm]
  have htrim : (trimQueue (insertFile f file)).queue =
      (trimLoop f.saveBytes (wrap (total (v :: init.reverse))) (v :: init.reverse)).2.reverse := by
    rw [trimQueue, hqueue, hbytes, hcount]
    rfl
  rw [htrim, trimLoop, wrap_total_sub, total_reverse]
  by_cases hstop : wrap (total init.reverse) < f.saveBytes
  · rw [if_pos hstop, hcount, htotal]
    refine iff_of_false hsmall (not_or.2 ⟨hsmall, ?_⟩)
    rintro ⟨w, hw, hlt, hle⟩
    obtain rfl : v = w := Option.some.inj (hv.symm.trans hw)
    rw [wrap_eq (by omega) (by omega)] at hstop
    omega
  · rw [if_neg hstop]
    -- a last file that was queued before means that bytes were to be saved
    have hlt : total init.reverse < 2 ^ 63 := by
      by_contra hbig
      rcases mem_insertSorted (mem_of_getLast? hv) with rfl | hmem
      · omega
      · have hpos : 0 < f.saveBytes := by
          rcases h.trimmed with hnil | hlt | ⟨w, hw, hlt⟩
          · simp [hnil] at hmem
          · omega
          · have := size_le_total (mem_of_getLast? hw)
            omega
        unfold wrap at hstop
        omega
    rw [wrap_eq (by omega) (by omega)] at hstop
    obtain ⟨back, hback, hsuf, -⟩ := trimLoop_spec f.saveBytes init.reverse
    have hpre := reverse_prefix.2 hsuf
    have hle := total_le_total hpre
    rw [total_reverse, total_reverse] at hle
    rw [hback]
    exact iff_of_true (hle.trans_lt hlt) (.inr ⟨v, hv, by omega, by omega⟩)

theorem Inv.step {f : FileScorer σ} (h : Inv f) {op : Op σ} (ht : Tame f op) : Inv (step f op) := by
  cases op with
  | addFile file =>
    simp only [CacheQueue.step]
    rcases addFile_cases f file with ⟨-, he⟩ | ⟨htakes, he⟩
    · exact he.symm ▸ h
    · rw [he]
      exact inv_trimQueue (insertFile_bytes h file) (insertSorted_sorted h.sorted) h.range
        ((h.total_trim_lt_iff file).2 (ht.fits file rfl htakes))
  | adjustSaveBytes n =>
    have hmin := n.le_toInt
    have hrange := h.range
    simp only [CacheQueue.step, adjustSaveBytes]
    have hsave : -2 ^ 63 ≤ wrap (f.saveBytes + n.toInt) ∧
        wrap (f.saveBytes + n.toInt) < 2 ^ 63 := by
      unfold wrap
      omega
    split_ifs with hle hneg
    · have hzero := ht.empty n rfl hle
      exact ⟨by rw [h.bytes, hzero]; rfl, by simp [total], .nil, .inl rfl, by norm_num⟩
    · have hbytes : (FileScorer.mk (wrap (f.saveBytes + n.toInt)) f.queuedBytes
        f.queue).queuedBytes =
          _ := h.bytes_wrap
      exact inv_trimQueue hbytes h.sorted hsave
        ((total_le_total (trimQueue_spec hbytes).1).trans_lt h.fits)
    · -- more bytes are to be saved, so still no file can be dropped
      have hmore : f.saveBytes ≤ wrap (f.saveBytes + n.toInt) := by
        have hmax := n.toInt_lt
        unfold wrap at hle ⊢
        omega
      refine ⟨h.bytes, h.fits, h.sorted, ?_, hsave⟩
      rcases h.trimmed with hnil | hlt | ⟨v, hv, hlt⟩
      · exact .inl hnil
      · exact .inr (.inl (hlt.trans_le hmore))
      · exact .inr (.inr ⟨v, hv, hlt.trans_le hmore⟩)
  | reset => exact ⟨rfl, by simp [CacheQueue.step, reset, total], .nil, .inl rfl, h.range⟩

theorem Inv.tame_of_accounted {f : FileScorer σ} (h : Inv f) {op : Op σ}
    (ha : Accounted op (CacheQueue.step f op)) : Tame f op := by
  have hbytes := ha.bytes
  refine ⟨?_, ?_⟩
  · rintro file rfl htakes
    simp only [CacheQueue.step] at hbytes
    rcases addFile_cases f file with ⟨hnot, -⟩ | ⟨-, he⟩
    · exact absurd htakes hnot
    · rw [he, (trimQueue_spec (insertFile_bytes h file)).2.1] at hbytes
      have hlt := wrap_lt (total (trimQueue (insertFile f file)).queue)
      exact (h.total_trim_lt_iff file).1 (by omega)
  · rintro n rfl hle
    simp only [CacheQueue.step, adjustSaveBytes, if_pos hle] at hbytes
    have := h.bytes
    simp only [total, map_nil, sum_nil] at hbytes
    omega

theorem cacheQueue_iff {σ : Type} [LinearOrder σ] (saveBytes : Int64) (ops : List (Op σ)) :
    Along step (fun _ op f => Accounted op f) (newFileScorer saveBytes) ops ↔
      Along step (fun f op _ => Tame f op) (newFileScorer saveBytes) ops := by
  have hmin := saveBytes.le_toInt
  have hmax := saveBytes.toInt_lt
  have hnew : Inv (newFileScorer saveBytes : FileScorer σ) :=
    ⟨rfl, by simp [newFileScorer, total], .nil,
      .inl rfl, by simpa [newFileScorer] using hmin, by simpa [newFileScorer] using hmax⟩
  exact along_iff (fun f op h => ⟨h.tame_of_accounted, fun ht => (h.step ht).accounted op⟩)
    (fun f op h ht => h.step ht) hnew ops

/-- One file is queued and nothing is to be saved any more: the queue is empty and its ten bytes
stay counted. -/
theorem cacheQueue_drifts :
    ¬ Along step (fun _ op f => Accounted op f) (newFileScorer 10)
      [Op.addFile ⟨lit "a", 10, (0 : Nat), by decide⟩, .adjustSaveBytes (-10)] := by
  rintro ⟨-, h, -⟩
  exact absurd h.bytes (by decide +kernel)

end

end S3Kinetic.CacheQueue
