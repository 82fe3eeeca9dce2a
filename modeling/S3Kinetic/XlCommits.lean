import S3Kinetic.Xl

/-!
# Reads after commits

A commit writes its `xl.json` on a write quorum of the disks and leaves what the others have. Since
every later commit meets every read quorum, a read that succeeds returns the last commit's metadata
(`reads_lastCommit`).
-/

namespace S3Kinetic.Xl

open ByteString Quorum

/-- A commit of an object with `d` data and `p` parity blocks: the disks it reaches and what it
writes there. -/
structure Commit (n d p : Nat) where
  modTime : Int
  writes : Fin n → Bool
  written : Fin n → XlMeta
  modTime_written : ∀ i, (written i).modTime = modTime
  dataBlocks_written : ∀ i, (written i).dataBlocks = d
  parityBlocks_written : ∀ i, (written i).parityBlocks = p
  quorum : d + 1 ≤ tally fun i => writes i = true

section

variable {n d p : Nat}

def commit (disks : Fin n → Option XlMeta) (c : Commit n d p) : Fin n → Option XlMeta := fun i =>
  if c.writes i then some (c.written i) else disks i

def afterCommits (history : List (Commit n d p)) : Fin n → Option XlMeta :=
  history.foldl commit fun _ => none

/-- The errors of `readAllXLMetadata` when the disks fail as `fault` says. -/
def readErrs (disks : Fin n → Option XlMeta) (fault : Fin n → Option StorageErr) (i : Fin n) :
    Option StorageErr :=
  match fault i with
  | some e => some e
  | none => if disks i = none then some .errFileNotFound else none

def readMetas (disks : Fin n → Option XlMeta) (fault : Fin n → Option StorageErr) (i : Fin n) :
    XlMeta :=
  if fault i = none then (disks i).getD .zero else .zero

/-- `objectQuorumFromMeta`, `listOnlineDisks` and `pickValidXLMeta` as reads call them; every range
over a map has an order of its own. -/
def readXLMeta (R₁ R₂ R₃ : MapOrder) (hash : List Nat → Bytes) (metaArr : Fin n → XlMeta)
    (errs : Fin n → Option StorageErr) : Except ReadErr XlMeta :=
  match objectQuorumFromMeta R₁ metaArr errs with
  | .error e => .error e
  | .ok (readQuorum, _) =>
    let (_, modTime) := listOnlineDisks R₂ metaArr errs
    pickValidXLMeta R₃ metaArr hash modTime readQuorum

theorem readErrs_eq_none {disks : Fin n → Option XlMeta} {fault : Fin n → Option StorageErr}
    {i : Fin n} (h : readErrs disks fault i = none) : disks i = some (readMetas disks fault i) := by
  unfold readErrs at h
  unfold readMetas
  cases hf : fault i with
  | some e => simp [hf] at h
  | none =>
    cases hd : disks i with
    | none => simp [hf, hd] at h
    | some m => simp

theorem exists_commit_of_afterCommits {history : List (Commit n d p)} {i : Fin n} {m : XlMeta}
    (h : afterCommits history i = some m) : ∃ c ∈ history, c.writes i = true ∧ m = c.written i := by
  induction history using List.reverseRecOn with
  | nil => cases h
  | append_singleton history c ih =>
    rw [afterCommits, List.foldl_concat, commit] at h
    split_ifs at h with hw
    · exact ⟨c, by simp, hw, (Option.some.inj h).symm⟩
    · obtain ⟨c', hc', h'⟩ := ih h
      exact ⟨c', by simp [hc'], h'⟩

theorem afterCommits_of_writes (history : List (Commit n d p)) {c : Commit n d p} {i : Fin n}
    (hw : c.writes i = true) :
    afterCommits (history ++ [c]) i = some (c.written i) := by
  rw [afterCommits, List.foldl_concat, commit, if_pos hw]

theorem modTime_lt_of_not_writes {history : List (Commit n d p)} {c : Commit n d p}
    (htime : (history ++ [c]).Pairwise fun a b => a.modTime < b.modTime) {i : Fin n} {m : XlMeta}
    (hw : c.writes i = false) (h : afterCommits (history ++ [c]) i = some m) :
    m.modTime < c.modTime := by
  rw [afterCommits, List.foldl_concat, commit, if_neg (by simp [hw])] at h
  obtain ⟨c', hc', -, rfl⟩ := exists_commit_of_afterCommits h
  rw [c'.modTime_written]
  exact (List.pairwise_append.1 htime).2.2 c' hc' c (by simp)

section

variable {history : List (Commit n d p)} {c : Commit n d p} {fault : Fin n → Option StorageErr}

theorem readTime_eq (hpd : p ≤ d) (hn : d + p = n) {t : Int}
    (h : n / 2 ≤ tally fun i => readErrs (afterCommits (history ++ [c])) fault i = none ∧
      (readMetas (afterCommits (history ++ [c])) fault i).modTime = t ∧
      (readMetas (afterCommits (history ++ [c])) fault i).isValid) : t = c.modTime := by
  by_contra hne
  have hapart := tally_add_le (P := fun i => c.writes i = true)
    (Q := fun i => readErrs (afterCommits (history ++ [c])) fault i = none ∧
      (readMetas (afterCommits (history ++ [c])) fault i).modTime = t ∧
      (readMetas (afterCommits (history ++ [c])) fault i).isValid) (by
    rintro i hw ⟨he, ht, -⟩
    have hd := readErrs_eq_none he
    rw [afterCommits_of_writes history hw] at hd
    rw [← Option.some.inj hd, c.modTime_written] at ht
    exact hne ht.symm)
  have := c.quorum
  omega

theorem written_of_modTime (htime : (history ++ [c]).Pairwise fun a b => a.modTime < b.modTime)
    {i : Fin n} {m : XlMeta}
    (h : afterCommits (history ++ [c]) i = some m) (ht : m.modTime = c.modTime) :
    c.writes i = true ∧ m = c.written i := by
  cases hw : c.writes i with
  | false => exact absurd ht (modTime_lt_of_not_writes htime hw h).ne
  | true =>
    rw [afterCommits_of_writes history hw] at h
    exact ⟨rfl, (Option.some.inj h).symm⟩

end

/-- What reads return after a history of commits, if they return anything, is the last commit's. -/
theorem reads_lastCommit (hp : 1 ≤ p) (hpd : p ≤ d) (hn : d + p = n) (history : List (Commit n d p))
    (c : Commit n d p) (htime : (history ++ [c]).Pairwise fun a b => a.modTime < b.modTime)
    (fault : Fin n → Option StorageErr) (R₁ R₂ R₃ : MapOrder) (hash : List Nat → Bytes) :
    let errs := readErrs (afterCommits (history ++ [c])) fault
    let metaArr := readMetas (afterCommits (history ++ [c])) fault
    (∀ m, getLatestXLMeta R₁ metaArr errs = .ok m → ∃ i, c.writes i = true ∧ m = c.written i) ∧
      ∀ m, readXLMeta R₁ R₂ R₃ hash metaArr errs = .ok m → ∃ i, c.writes i = true ∧
          m = c.written i := by
  intro errs metaArr
  have hlatest : ∀ m, getLatestXLMeta R₁ metaArr errs = .ok m →
      readTime R₁ metaArr errs = c.modTime ∧ ∃ i, c.writes i = true ∧ m = c.written i := by
    intro m hm
    rcases getLatestXLMeta_cases R₁ metaArr errs (by omega) with ⟨⟨e, he⟩, -⟩ |
      ⟨-, hq, i, hi, he, hti, -⟩
    · rw [hm] at he
      cases he
    · obtain rfl := Except.ok.inj (hm.symm.trans hi)
      have ht := readTime_eq hpd hn hq
      exact ⟨ht, i, written_of_modTime htime (readErrs_eq_none he) (hti.trans ht)⟩
  refine ⟨fun m hm => (hlatest m hm).2, fun m hm => ?_⟩
  simp only [readXLMeta, objectQuorumFromMeta, listOnlineDisks] at hm
  cases hl : getLatestXLMeta R₁ metaArr errs with
  | error e => simp [hl, Except.map] at hm
  | ok latest =>
    obtain ⟨ht, j, hj, hlj⟩ := hlatest latest hl
    simp only [hl, Except.map, hlj, c.dataBlocks_written] at hm
    rw [commonTime_order R₂ R₁, ← readTime, ht] at hm
    obtain ⟨i, rfl, hv, hi⟩ := pickValidXLMeta_ok hm (by omega)
    -- a disk that failed has no valid metadata, so the one picked from answered
    have hf : fault i = none := by
      by_contra hne
      rw [show metaArr i = .zero from if_neg hne] at hv
      exact absurd hv (by decide)
    have hd : afterCommits (history ++ [c]) i = some (metaArr i) := by
      cases hd : afterCommits (history ++ [c]) i with
      | none =>
        rw [show metaArr i = .zero by simp [metaArr, readMetas, hf, hd]] at hv
        exact absurd hv (by decide)
      | some m => simp [metaArr, readMetas, hf, hd]
    exact ⟨i, written_of_modTime htime hd hi⟩

end

/-! ## Four disks -/

/-- A commit on the first three of four disks, and one on the last three. -/
def firstThree : Commit 4 2 2 where
  modTime := 1
  writes := fun i => i ≠ 3
  written := fun i => ⟨1, 2, 2, i + 1, [1]⟩
  modTime_written := fun _ => rfl
  dataBlocks_written := fun _ => rfl
  parityBlocks_written := fun _ => rfl
  quorum := by decide

def lastThree : Commit 4 2 2 where
  modTime := 2
  writes := fun i => i ≠ 0
  written := fun i => ⟨2, 2, 2, i + 1, [1]⟩
  modTime_written := fun _ => rfl
  dataBlocks_written := fun _ => rfl
  parityBlocks_written := fun _ => rfl
  quorum := by decide

/-- With one disk offline the stale disk is outvoted. -/
theorem reads_lastCommit_fourDisks :
    let disks := afterCommits [firstThree, lastThree]
    let fault : Fin 4 → Option StorageErr := fun i => if i = 3 then some .errDiskNotFound else none
    getLatestXLMeta plainOrder (readMetas disks fault) (readErrs disks fault) =
      .ok (lastThree.written 2) ∧
      ∃ i, lastThree.writes i = true ∧ lastThree.written 2 = lastThree.written i := by
  intro disks fault
  have h : getLatestXLMeta plainOrder (readMetas disks fault) (readErrs disks fault) =
      .ok (lastThree.written 2) := by
    decide
  exact ⟨h, (reads_lastCommit (by decide) (by decide) (by decide) [firstThree] lastThree (by decide)
    fault plainOrder plainOrder
    plainOrder (fun _ => [])).1 _ h⟩

end S3Kinetic.Xl
