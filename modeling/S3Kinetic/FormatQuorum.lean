import S3Kinetic.Lib.ByteString
import S3Kinetic.Lib.Counts

/-!
# The reference format of a deployment (`format-xl.go`)

Every disk keeps a `format.json` with the layout of its deployment: the identifiers of the disks,
grouped into sets. `getFormatXLInQuorum` hashes the identifiers of each layout one after the other,
counts the hashes in a map and takes the first disk with a most frequent one. `formatQuorum_iff`
says when the layout it returns is that of half of the disks in every order of the map.
-/

namespace S3Kinetic.Format

open ByteString Counts List

/-! ## Formats -/

structure FormatXLV3 where
  version : Bytes
  format : Bytes
  id : Bytes
  xlVersion : Bytes
  this : Bytes
  sets : List (List Bytes)
  distributionAlgo : Bytes
  deriving DecidableEq

def FormatXLV3.zero : FormatXLV3 := ⟨[], [], [], [], [], [], []⟩

/-- `Clone` goes through JSON, where a missing format is `null` and comes back as the zero value. -/
def clone (format : Option FormatXLV3) : FormatXLV3 := format.getD .zero

inductive Err where
  | errXLReadQuorum
  deriving DecidableEq

structure Digest where
  hex : Bytes → Bytes
  hex_ne_nil : ∀ b, hex b ≠ []

section Model

variable (D : Digest)

def layoutHash (sets : List (List Bytes)) : Bytes :=
  D.hex (sets.flatMap fun set => set.flatMap fun diskID => diskID)

/-- The entry of `formatHashes` for a disk. -/
def formatHash : Option FormatXLV3 → Bytes
  | none => []
  | some format => layoutHash D format.sets

def counted (formats : List (Option FormatXLV3)) : List Bytes :=
  (formats.map (formatHash D)).filter (· ≠ [])

def formatCountMap (formats : List (Option FormatXLV3)) : Bytes → Nat := counts (counted D formats)

/-- `getFormatXLInQuorum`, with the order in which the map is visited. -/
def getFormatXLInQuorum (formats : List (Option FormatXLV3))
    (it : Iteration (formatCountMap D formats)) :
    Except Err FormatXLV3 :=
  let (maxHash, maxCount) := it.entries.foldl (fun (maxHash, maxCount) (hash, count) =>
    if count > maxCount then (hash, count) else (maxHash, maxCount)) ([], 0)
  if maxCount < formats.length / 2 then .error .errXLReadQuorum
  else
    match formats.find? fun format => formatHash D format = maxHash with
    | some format => .ok { clone format with this := [] }
    | none => .error .errXLReadQuorum

/-! ## The law -/

def layouts (formats : List (Option FormatXLV3)) : List (List (List Bytes)) :=
  formats.filterMap (Option.map FormatXLV3.sets)

/-- The layout of a returned format is that of at least half of the disks, and the same in every
order. -/
def QuorumLaw (formats : List (Option FormatXLV3)) : Prop :=
  ∀ it ref, getFormatXLInQuorum D formats it = .ok ref →
    formats.length ≤ 2 * (layouts formats).count ref.sets ∧
      ∀ it', ∃ ref', getFormatXLInQuorum D formats it' = .ok ref' ∧ ref'.sets = ref.sets

/-- At least half of the disks have the layout `sets`, the first disk with its hash among them, and
no other hash is as frequent. -/
structure Leads (formats : List (Option FormatXLV3)) (sets : List (List Bytes)) : Prop where
  half : formats.length ≤ 2 * (layouts formats).count sets
  first : ∃ format, format.sets = sets ∧
    formats.find? (fun format => formatHash D format = layoutHash D sets) = some (some format)
  unique : ∀ hash ≠ layoutHash D sets, (counted D formats).count hash <
    (counted D formats).count (layoutHash D sets)

end Model

variable {D : Digest} {formats : List (Option FormatXLV3)}

theorem counted_eq (D : Digest) (formats : List (Option FormatXLV3)) :
    counted D formats = (layouts formats).map (layoutHash D) := by
  induction formats with
  | nil => rfl
  | cons format formats ih =>
    rw [counted] at ih ⊢
    cases format with
    | none => simpa [formatHash, layouts] using ih
    | some format => simpa [formatHash, layouts, layoutHash, D.hex_ne_nil] using ih

theorem exists_first {hash : Bytes} (h : hash ∈ counted D formats) :
    ∃ format, formats.find? (fun format => formatHash D format = hash) = some (some format) ∧
      layoutHash D format.sets = hash := by
  obtain ⟨hmem, hne⟩ := mem_filter.1 h
  obtain ⟨format, hformat, hhash⟩ := mem_map.1 hmem
  cases hfind : formats.find? fun format => formatHash D format = hash with
  | none => exact absurd (decide_eq_true hhash) (find?_eq_none.1 hfind format hformat)
  | some first =>
    have hfirst : formatHash D first = hash := by simpa using find?_some hfind
    cases first with
    | none => exact absurd hfirst.symm (of_decide_eq_true hne)
    | some format => exact ⟨format, rfl, hfirst⟩

/-! ## The winner -/

theorem getFormatXLInQuorum_eq (it : Iteration (formatCountMap D formats)) {hash : Bytes} {n : Nat}
    (hbest : best (fun _ _ => false) [] it.entries = (hash, n)) :
    getFormatXLInQuorum D formats it =
      if n < formats.length / 2 then .error .errXLReadQuorum
      else match formats.find? fun format => formatHash D format = hash with
        | some format => .ok { clone format with this := [] }
        | none => .error .errXLReadQuorum := by
  have hstep : (fun (p : Bytes × Nat) (e : Bytes × Nat) => if e.2 > p.2 then (e.1, e.2)
    else (p.1, p.2)) =
      pick fun _ _ => false := by
    funext p e
    simp [pick]
  rw [best, ← hstep] at hbest
  rw [getFormatXLInQuorum]
  simp only [hbest]

theorem mem_entries_iff (it : Iteration (formatCountMap D formats)) {e : Bytes × Nat} :
    e ∈ it.entries ↔ 0 < e.2 ∧ (counted D formats).count e.1 = e.2 := by
  rw [it.mem, formatCountMap, counts_apply]

theorem mem_entries {hash : Bytes} (it : Iteration (formatCountMap D formats))
    (h : hash ∈ counted D formats) :
    (hash, (counted D formats).count hash) ∈ it.entries :=
  (mem_entries_iff it).2 ⟨count_pos_iff.2 h, rfl⟩

theorem best_eq (it : Iteration (formatCountMap D formats)) (hne : counted D formats ≠ []) :
    ∃ hash ∈ counted D formats,
      best (fun _ _ => false) [] it.entries = (hash, (counted D formats).count hash) ∧
        ∀ hash', (counted D formats).count hash' ≤ (counted D formats).count hash := by
  obtain ⟨hash₀, hhash₀⟩ := exists_mem_of_ne_nil _ hne
  have hmem : best (fun _ _ => false) [] it.entries ∈ it.entries :=
    best_mem _ (fun e he => ((it.mem e).1 he).1) (ne_nil_of_mem (mem_entries it hhash₀))
  obtain ⟨hpos, hcount⟩ := (mem_entries_iff it).1 hmem
  refine ⟨_, count_pos_iff.1 (hcount ▸ hpos), by rw [hcount], fun hash' => ?_⟩
  rw [hcount]
  by_cases hin : hash' ∈ counted D formats
  · exact le_best _ (mem_entries it hin)
  · simp [count_eq_zero_of_not_mem hin]

theorem best_of_nil (it : Iteration (formatCountMap D formats)) (h : counted D formats = []) :
    best (fun _ _ => false) [] it.entries = ([], 0) := by
  have hnil : it.entries = [] := by
    refine eq_nil_iff_forall_not_mem.2 fun e he => ?_
    have hcount := (mem_entries_iff it).1 he
    simp [h] at hcount
    omega
  rw [hnil]
  rfl

/-- The outcome with a most frequent hash in front. -/
theorem getFormatXLInQuorum_of_best (it : Iteration (formatCountMap D formats)) {hash : Bytes}
    {format : FormatXLV3}
    (hbest : best (fun _ _ => false) [] it.entries = (hash, (counted D formats).count hash))
    (hfirst : formats.find? (fun format => formatHash D format = hash) = some (some format)) :
    getFormatXLInQuorum D formats it =
      if (counted D formats).count hash < formats.length / 2 then .error .errXLReadQuorum
      else .ok { format with this := [] } := by
  rw [getFormatXLInQuorum_eq it hbest, hfirst]
  rfl

theorem Leads.best_eq {sets : List (List Bytes)} (hne : formats ≠ []) (h : Leads D formats sets)
    (it : Iteration (formatCountMap D formats)) :
    best (fun _ _ => false) [] it.entries =
      (layoutHash D sets, (counted D formats).count (layoutHash D sets)) := by
  have hpos := length_pos_iff.2 hne
  have hin : layoutHash D sets ∈ counted D formats := by
    rw [counted_eq]
    exact mem_map_of_mem (count_pos_iff.1 (by have := h.half; omega))
  obtain ⟨hash, -, hbest, hmax⟩ := Format.best_eq it (ne_nil_of_mem hin)
  rw [hbest]
  by_cases heq : hash = layoutHash D sets
  · rw [heq]
  · have := h.unique hash heq
    have := hmax (layoutHash D sets)
    omega

theorem Leads.half_le {sets : List (List Bytes)} (h : Leads D formats sets) :
    formats.length / 2 ≤ (counted D formats).count (layoutHash D sets) := by
  have hle : (layouts formats).count sets ≤ (counted D formats).count (layoutHash D sets) := by
    rw [counted_eq]
    exact count_le_count_map
  have := h.half
  omega

/-! ## Results -/

theorem QuorumLaw.cases (hne : formats ≠ []) (hlaw : QuorumLaw D formats) :
    (∀ hash, (counted D formats).count hash < formats.length / 2) ∨
      ∃ sets, Leads D formats sets := by
  rw [or_iff_not_imp_left]
  intro hnot
  push Not at hnot
  obtain ⟨hash₀, hhalf⟩ := hnot
  have it : Iteration (formatCountMap D formats) := .ofKeys _
  by_cases hnil : counted D formats = []
  · -- without any format the zero value would be returned, with the layout of no disk
    obtain ⟨format, rest, rfl⟩ := exists_cons_of_ne_nil hne
    have hfirst : formatHash D format = [] := by
      by_contra hhash
      simp [counted, hhash] at hnil
    have hget := getFormatXLInQuorum_eq it (best_of_nil it hnil)
    rw [if_neg (by simpa [hnil] using hhalf), find?_cons_of_pos (by simp [hfirst])] at hget
    have hmany := (hlaw it _ hget).1
    have hnone : layouts (format :: rest) = [] := by simpa [counted_eq] using hnil
    simp [hnone] at hmany
  · obtain ⟨hash, hhash, hbest, hmax⟩ := best_eq it hnil
    have hhalf' : ¬ (counted D formats).count hash < formats.length / 2 := by
      have := hmax hash₀
      omega
    obtain ⟨format, hfirst, hformat⟩ := exists_first hhash
    have hget := getFormatXLInQuorum_of_best it hbest hfirst
    rw [if_neg hhalf'] at hget
    obtain ⟨hmany, hsame⟩ := hlaw it _ hget
    refine ⟨format.sets, hmany, ⟨format, rfl, hformat ▸ hfirst⟩, fun hash' hne' => ?_⟩
    rw [hformat] at hne' ⊢
    by_contra hge
    -- a hash as frequent as this one wins if it is visited first
    have heq : (counted D formats).count hash' = (counted D formats).count hash := by
      have := hmax hash'
      omega
    have hhash' : hash' ∈ counted D formats := count_pos_iff.1 (heq ▸ count_pos_iff.2 hhash)
    obtain ⟨format', hfirst', hformat'⟩ := exists_first hhash'
    have hbest' : best (fun _ _ => false) [] (it.first _ (mem_entries it hhash')).entries =
        (hash', (counted D formats).count hash') := by
      refine best_first it _ fun e he => ?_
      rw [heq, ← ((mem_entries_iff it).1 he).2]
      exact hmax e.1
    have hget' := getFormatXLInQuorum_of_best _ hbest' hfirst'
    obtain ⟨ref', href', hsets⟩ := hsame (it.first _ (mem_entries it hhash'))
    rw [hget', heq, if_neg hhalf'] at href'
    cases href'
    have hsets : format'.sets = format.sets := hsets
    exact hne' (by rw [← hformat', ← hformat, hsets])

/-- In every order of the map the layout returned is that of at least half of the disks and the
same, exactly if there is none to return since every hash is rarer than half of the number of disks,
rounded down, or one layout leads. -/
theorem formatQuorum_iff (D : Digest) (formats : List (Option FormatXLV3)) (hne : formats ≠ []) :
    QuorumLaw D formats ↔
      (∀ hash, (counted D formats).count hash < formats.length / 2) ∨
        ∃ sets, Leads D formats sets := by
  refine ⟨QuorumLaw.cases hne, ?_⟩
  rintro (hfew | ⟨sets, hleads⟩) it ref href
  · obtain ⟨hash, n, hbest, hn⟩ : ∃ hash n, best (fun _ _ => false) [] it.entries = (hash, n) ∧
        n < formats.length / 2 := by
      by_cases hnil : counted D formats = []
      · exact ⟨[], 0, best_of_nil it hnil, by simpa [hnil] using hfew []⟩
      · obtain ⟨hash, -, hbest, -⟩ := best_eq it hnil
        exact ⟨hash, _, hbest, hfew hash⟩
    rw [getFormatXLInQuorum_eq it hbest, if_pos hn] at href
    cases href
  · obtain ⟨format, hsets, hfirst⟩ := hleads.first
    have hget := fun it => getFormatXLInQuorum_of_best it (hleads.best_eq hne it) hfirst
    simp only [if_neg (Nat.not_lt.2 hleads.half_le)] at hget
    rw [hget] at href
    cases href
    exact ⟨hsets ▸ hleads.half, fun it' => ⟨_, hget it', rfl⟩⟩

def diskFormat (sets : List (List String)) : Option FormatXLV3 :=
  some { FormatXLV3.zero with sets := sets.map (·.map lit) }

def plainDigest : Digest := ⟨fun b => 0 :: b, fun _ => cons_ne_nil _ _⟩

/-- Of three disks two have the same layout. -/
theorem formatQuorum_twoOfThree :
    QuorumLaw plainDigest [diskFormat [["a", "b", "c"]], none, diskFormat [["a", "b", "c"]]] := by
  have hcounted : counted plainDigest [diskFormat [["a", "b", "c"]], none,
    diskFormat [["a", "b", "c"]]] =
      replicate 2 (layoutHash plainDigest [[lit "a", lit "b", lit "c"]]) := by decide
  refine (formatQuorum_iff plainDigest _ (by simp)).2
    (.inr ⟨[[lit "a", lit "b", lit "c"]], by decide, ?_, fun hash hne => ?_⟩)
  · exact ⟨{ FormatXLV3.zero with sets := [[lit "a", lit "b", lit "c"]] }, rfl, by decide⟩
  · rw [hcounted, count_replicate, count_replicate]
    simp [Ne.symm hne]

theorem QuorumLaw.half (hne : formats ≠ []) (hlaw : QuorumLaw D formats) (hash : Bytes)
    (hmany : formats.length / 2 ≤ (counted D formats).count hash) :
    ∃ sets ∈ layouts formats, formats.length ≤ 2 * (layouts formats).count sets ∧
      ∀ hash' ≠ layoutHash D sets, (counted D formats).count hash' <
        (counted D formats).count (layoutHash D sets) := by
  rcases hlaw.cases hne with hfew | ⟨sets, hleads⟩
  · exact absurd (hfew hash) (Nat.not_lt.2 hmany)
  · have hpos := length_pos_iff.2 hne
    have hhalf := hleads.half
    exact ⟨sets, count_pos_iff.1 (by omega), hhalf, hleads.unique⟩

/-- One of three disks is enough; four disks that group the same identifiers in four ways count as
one layout; and of two disks with different hashes the order of the map decides. -/
theorem formatQuorum_fails :
    ¬ QuorumLaw plainDigest [diskFormat [["a", "b", "c"]], none, none] ∧
    ¬ QuorumLaw plainDigest [diskFormat [["a", "b"], ["c", "d"]], diskFormat [["a", "b", "c", "d"]],
      diskFormat [["a"], ["b", "c", "d"]], diskFormat [["a", "b", "c"], ["d"]]] ∧
    ¬ QuorumLaw plainDigest [diskFormat [["a", "b"]], diskFormat [["c", "d"]]] := by
  have hne : layoutHash plainDigest [[lit "a", lit "b"]] ≠ layoutHash plainDigest
    [[lit "c", lit "d"]] := by decide
  refine ⟨fun hlaw => ?_, fun hlaw => ?_, fun hlaw => ?_⟩
  · obtain ⟨sets, hsets, hhalf, -⟩ :=
      hlaw.half (by simp) (layoutHash plainDigest [[lit "a", lit "b", lit "c"]])
      (by simp [counted_eq, layouts, diskFormat])
    revert hhalf
    revert sets
    decide
  · obtain ⟨sets, hsets, hhalf, -⟩ :=
      hlaw.half (by simp) (layoutHash plainDigest [[lit "a", lit "b", lit "c", lit "d"]])
      (by simp [counted_eq, layouts, diskFormat, layoutHash])
    revert hhalf
    revert sets
    decide
  · obtain ⟨sets, hsets, -, hunique⟩ :=
      hlaw.half (by simp) (layoutHash plainDigest [[lit "a", lit "b"]])
      (by simp [counted_eq, layouts, diskFormat])
    have hcounted : counted plainDigest [diskFormat [["a", "b"]], diskFormat [["c", "d"]]] =
        [layoutHash plainDigest [[lit "a", lit "b"]],
            layoutHash plainDigest [[lit "c", lit "d"]]] := by
      rw [counted_eq]
      rfl
    rw [hcounted] at hunique
    rcases (by simpa [layouts, diskFormat] using hsets : sets = [[lit "a",
      lit "b"]] ∨ sets = [[lit "c", lit "d"]]) with rfl | rfl
    · simpa [hne, hne.symm, count_cons] using hunique _ hne.symm
    · simpa [hne, hne.symm, count_cons] using hunique _ hne

end S3Kinetic.Format
