import S3Kinetic.Lib.GroupMerge
import S3Kinetic.MetadataCopy
import S3Kinetic.QuorumErrs

/-!
# Merging the walks of the disks

Every disk sends the entries of its walk over a channel, with increasing names. `leastEntry` takes
an entry from each channel, keeps those with the least name and one modification time, and pushes
the others back; `mergeEntriesCh` collects the entries that were found often enough, up to
`maxKeys`. A later call goes on with the same channels. `listingMerge`: over any sequence of such
calls this is the merge of the channels by groups, with nothing lost between two calls.
-/

namespace S3Kinetic.ListingMerge

open ByteString OrdMap QuorumErrs GroupMerge List

/-! ## Entries and channels -/

/-- A `FileInfo` without the volume and the mode. -/
structure FileInfo where
  name : Bytes
  modTime : Time
  size : Int
  metadata : OrdMap Bytes Bytes
  parts : List ObjectPartInfo
  quorum : Int
  deriving DecidableEq

def FileInfo.zero : FileInfo := ⟨[], zeroTime, 0, ∅, [], 0⟩

structure FileInfoCh where
  ch : List FileInfo
  prev : FileInfo
  valid : Bool

/-- `Pop`: the entry and whether there was one, and the channel after it. -/
def FileInfoCh.pop (f : FileInfoCh) : (FileInfo × Bool) × FileInfoCh :=
  if f.valid then ((f.prev, true), { f with valid := false })
  else
    match f.ch with
    | [] => ((.zero, false), { f with prev := .zero })
    | fi :: ch => ((fi, true), { f with ch := ch, prev := fi })

def FileInfoCh.push (f : FileInfoCh) (fi : FileInfo) : FileInfoCh :=
  { f with prev := fi, valid := true }

/-- The entries that `Pop` returns, one after the other. -/
def FileInfoCh.queue (f : FileInfoCh) : List FileInfo := if f.valid then f.prev :: f.ch else f.ch

/-- A channel as `startMergeWalks` makes it. -/
def FileInfoCh.ofWalk (entries : List FileInfo) : FileInfoCh := ⟨entries, .zero, false⟩

/-! ## The merge -/

def sameEntry (fi lentry : FileInfo) : Bool :=
  lentry.name = fi.name && lentry.modTime.equal fi.modTime

/-- The second loop of `leastEntry`. -/
def findLeast (entries : List (FileInfo × Bool)) : Option FileInfo :=
  entries.foldl (fun lentry (fi, valid) =>
    if valid then
      match lentry with
      | none => some fi
      | some l => if fi.name < l.name then some fi else some l
    else lentry) none

/-- `leastEntry`: the entry, how often it was found, whether there was any, and the channels. -/
def leastEntry (entryChs : List FileInfoCh) : (FileInfo × Nat × Bool) × List FileInfoCh :=
  let popped := entryChs.map FileInfoCh.pop
  let isTruncated := popped.any fun p => p.1.2
  match findLeast (popped.map Prod.fst) with
  | none => ((.zero, 0, isTruncated), popped.map Prod.snd)
  | some lentry =>
    ((lentry, popped.countP fun p => p.1.2 && sameEntry p.1.1 lentry, isTruncated),
      popped.map fun p => if p.1.2 && !sameEntry p.1.1 lentry then p.2.push p.1.1 else p.2)

def isTruncated (entryChs : List FileInfoCh) : Bool × List FileInfoCh :=
  let popped := entryChs.map FileInfoCh.pop
  (popped.any fun p => p.1.2, popped.map fun p => if p.1.2 then p.2.push p.1.1 else p.2)

structure FilesInfo where
  files : List FileInfo
  isTruncated : Bool
  deriving DecidableEq

def rquorum (totalDrives : Nat) (fi : FileInfo) : Int :=
  if fi.quorum = 0 then (totalDrives / 2 : Nat) else fi.quorum

/-- The loop of `mergeEntriesCh`; its counter is the number of files. -/
def mergeLoop (maxKeys totalDrives : Nat) (partialQuorumOnly : Bool) :
    Nat → List FileInfoCh → List FileInfo → Option (FilesInfo × List FileInfoCh)
  | 0, _, _ => none
  | fuel + 1, entryChs, files =>
    let ((fi, quorumCount, valid), entryChs) := leastEntry entryChs
    if !valid then some (⟨files, false⟩, entryChs)
    else if if partialQuorumOnly then quorumCount = totalDrives else (quorumCount : Int) <
      rquorum totalDrives fi then
      mergeLoop maxKeys totalDrives partialQuorumOnly fuel entryChs files
    else if (files ++ [fi]).length = maxKeys then
      let (truncated, entryChs) := isTruncated entryChs
      some (⟨files ++ [fi], truncated⟩, entryChs)
    else mergeLoop maxKeys totalDrives partialQuorumOnly fuel entryChs (files ++ [fi])

/-- `mergeEntriesCh`. Every round but the last takes an entry from a channel. -/
def mergeEntriesCh (entryChs : List FileInfoCh) (maxKeys totalDrives : Nat)
    (partialQuorumOnly : Bool) :
    Option (FilesInfo × List FileInfoCh) :=
  mergeLoop maxKeys totalDrives partialQuorumOnly ((entryChs.map FileInfoCh.queue).flatten.length +
    1) entryChs []

/-- Regular calls on the same channels: what each returns, with the channels after it. -/
def mergeCalls (totalDrives : Nat) :
    List Nat → List FileInfoCh → Option (List (FilesInfo × List FileInfoCh))
  | [], _ => some []
  | maxKeys :: rest, entryChs =>
    match mergeEntriesCh entryChs maxKeys totalDrives false with
    | none => none
    | some (entries, entryChs) =>
      (mergeCalls totalDrives rest entryChs).map ((entries, entryChs) :: ·)

/-! ## Channels as queues -/

abbrev queues (entryChs : List FileInfoCh) : List (List FileInfo) := entryChs.map FileInfoCh.queue

def instant (fi : FileInfo) : Int := fi.modTime.instant

def inQuorum (totalDrives : Nat) (fi : FileInfo) (size : Nat) : Bool :=
  rquorum totalDrives fi ≤ size

variable {f : FileInfoCh} {entryChs : List FileInfoCh}

theorem pop_cases (f : FileInfoCh) :
    (f.queue = [] ∧ f.pop.1 = (.zero, false) ∧ f.pop.2.queue = []) ∨
      ∃ fi q, f.queue = fi :: q ∧ f.pop.1 = (fi, true) ∧ f.pop.2.queue = q ∧
        (f.pop.2.push fi).queue = fi :: q := by
  rcases f with ⟨ch, prev, valid⟩
  cases valid with
  | true => exact .inr ⟨prev, ch, rfl, rfl, rfl, rfl⟩
  | false =>
    cases ch with
    | nil => exact .inl ⟨rfl, rfl, rfl⟩
    | cons fi ch => exact .inr ⟨fi, ch, rfl, rfl, rfl, rfl⟩

theorem pop_valid_iff (f : FileInfoCh) : f.pop.1.2 = true ↔ f.queue ≠ [] := by
  rcases pop_cases f with ⟨hq, hp, -⟩ | ⟨fi, q, hq, hp, -⟩ <;> simp [hq, hp]

theorem sameEntry_iff {fi lentry : FileInfo} :
    sameEntry fi lentry = true ↔
      key FileInfo.name instant fi = key FileInfo.name instant lentry := by
  simp only [sameEntry, Time.equal, key, instant, Bool.and_eq_true, decide_eq_true_eq,
    Prod.mk.injEq]
  exact and_congr eq_comm eq_comm

theorem any_valid_iff : (entryChs.map FileInfoCh.pop).any (fun p => p.1.2) = true ↔
    ∃ f ∈ entryChs, f.queue ≠ [] := by
  simp only [any_map, any_eq_true, Function.comp_apply, pop_valid_iff]

theorem exists_queue_iff : (∃ q ∈ queues entryChs, q ≠ []) ↔
    ∃ f ∈ entryChs, f.queue ≠ [] := by simp [queues]

theorem isTruncated_iff (entryChs : List FileInfoCh) :
    ((isTruncated entryChs).1 = true ↔ ∃ f ∈ entryChs, f.queue ≠ []) ∧
      queues (isTruncated entryChs).2 = queues entryChs := by
  refine ⟨any_valid_iff, ?_⟩
  rw [isTruncated, queues, queues, map_map, map_map]
  refine map_congr_left fun f _ => ?_
  rcases pop_cases f with ⟨hq, hp, hpop⟩ | ⟨fi, q, hq, hp, -, hpush⟩
  · simp [hp, hq, hpop]
  · simp [hp, hq, hpush]

/-! ## One round -/

theorem findLeast_eq (entryChs : List FileInfoCh) :
    findLeast ((entryChs.map FileInfoCh.pop).map Prod.fst) =
      least FileInfo.name (heads (queues entryChs)) := by
  have hfrom : ∀ (chs : List FileInfoCh) (m : FileInfo),
      ((chs.map FileInfoCh.pop).map Prod.fst).foldl (fun lentry (p : FileInfo × Bool) =>
        if p.2 then
          match lentry with
          | none => some p.1
          | some l => if p.1.name < l.name then some p.1 else some l
        else lentry) (some m) = some (leastFrom FileInfo.name m (heads (queues chs))) := by
    intro chs
    induction chs with
    | nil => exact fun m => rfl
    | cons f chs ih =>
      intro m
      rcases pop_cases f with ⟨hq, hp, -⟩ | ⟨fi, q, hq, hp, -⟩
      · simp only [map_cons, foldl_cons, hp, hq, heads_nil_cons]
        exact ih m
      · simp only [map_cons, foldl_cons, hp, hq, heads_cons_cons, if_true, leastFrom]
        split_ifs
        · exact ih fi
        · exact ih m
  induction entryChs with
  | nil => rfl
  | cons f chs ih =>
    rcases pop_cases f with ⟨hq, hp, -⟩ | ⟨fi, q, hq, hp, -⟩
    · simp only [findLeast, map_cons, foldl_cons, hp, hq, heads_nil_cons]
      exact ih
    · simp only [findLeast, map_cons, foldl_cons, hp, hq, heads_cons_cons, if_true, least]
      exact hfrom chs fi

theorem countP_popped (entryChs : List FileInfoCh) (m : FileInfo) :
    (entryChs.map FileInfoCh.pop).countP (fun p => p.1.2 && sameEntry p.1.1 m) =
      (heads (queues entryChs)).countP
        (inGroup FileInfo.name instant (key FileInfo.name instant m)) := by
  induction entryChs with
  | nil => rfl
  | cons f chs ih =>
    rcases pop_cases f with ⟨hq, hp, -⟩ | ⟨fi, q, hq, hp, -⟩
    · simp only [map_cons, hq, heads_nil_cons, countP_cons, hp, Bool.false_and, ih]
      rfl
    · simp only [map_cons, hq, heads_cons_cons, countP_cons, hp, Bool.true_and, ih, sameEntry_iff,
        inGroup_iff]

theorem leastEntry_some {m : FileInfo}
    (hm : least FileInfo.name (heads (queues entryChs)) = some m) :
    (leastEntry entryChs).1 =
        (m, (heads (queues entryChs)).countP
          (inGroup FileInfo.name instant (key FileInfo.name instant m)), true) ∧
      queues (leastEntry entryChs).2 =
        (queues entryChs).map (popGroup FileInfo.name instant m) := by
  have hany : (entryChs.map FileInfoCh.pop).any (fun p => p.1.2) = true := by
    rw [any_valid_iff]
    by_contra hnone
    simp only [not_exists, not_and, not_not] at hnone
    have hheads : heads (queues entryChs) = [] := heads_eq_nil_iff.2 (forall_mem_map.2 hnone)
    simp [hheads, least] at hm
  simp only [leastEntry, findLeast_eq, hm, countP_popped, hany, true_and]
  simp only [queues, map_map]
  refine map_congr_left fun f _ => ?_
  rcases pop_cases f with ⟨hq, hp, hpop⟩ | ⟨fi, q, hq, hp, hpop, hpush⟩
  · simp [hp, hq, hpop, popGroup]
  · by_cases hsame : key FileInfo.name instant fi = key FileInfo.name instant m
    · simp [hp, hq, hpop, popGroup, sameEntry_iff.2 hsame, hsame]
    · have hnot : sameEntry fi m = false := Bool.eq_false_iff.2 fun h => hsame (sameEntry_iff.1 h)
      simp [hp, hq, hpush, popGroup, hnot, hsame]

theorem leastEntry_none (hm : least FileInfo.name (heads (queues entryChs)) = none) :
    (leastEntry entryChs).1.2.2 = false ∧ (∀ f ∈ (leastEntry entryChs).2, f.queue = []) ∧
      queues (leastEntry entryChs).2 = queues entryChs := by
  have hempty : ∀ f ∈ entryChs, f.queue = [] := by
    simpa [queues] using heads_eq_nil_iff.1 (least_eq_none_iff.1 hm)
  have hpop : ∀ f ∈ entryChs, f.pop.1.2 = false ∧ f.pop.2.queue = [] := by
    intro f hf
    rcases pop_cases f with ⟨-, hp, hpop⟩ | ⟨fi, q, hq, -⟩
    · exact ⟨by rw [hp], hpop⟩
    · simp [hempty f hf] at hq
  simp only [leastEntry, findLeast_eq, hm]
  simp only [queues, map_map, forall_mem_map]
  refine ⟨?_, fun f hf => (hpop f hf).2, map_congr_left fun f hf => ?_⟩
  · simpa using fun f hf => (hpop f hf).1
  · rw [Function.comp_apply, Function.comp_apply, (hpop f hf).2, hempty f hf]

/-! ## Calls -/

def Sorted (entryChs : List FileInfoCh) : Prop := ∀ q ∈ queues entryChs, Increasing FileInfo.name q

theorem Sorted.round {m : FileInfo} {chs : List FileInfoCh} (h : Sorted entryChs)
    (hchs : queues chs = (queues entryChs).map (popGroup FileInfo.name instant m)) :
    Sorted chs := by
  intro q hq
  rw [hchs] at hq
  obtain ⟨q₀, hq₀, rfl⟩ := mem_map.1 hq
  exact (h q₀ hq₀).popGroup

/-- What a call with `maxKeys` returns, and the channels it leaves. -/
structure IsPage (maxKeys : Nat) (entries : FilesInfo) (entryChs : List FileInfoCh) : Prop where
  length_le : entries.files.length ≤ maxKeys
  truncated_iff : entries.isTruncated = true ↔ entries.files.length = maxKeys ∧
    ∃ f ∈ entryChs, f.queue ≠ []
  eof : entries.files.length < maxKeys → ∀ f ∈ entryChs, f.queue = []

variable {maxKeys totalDrives : Nat} {all : List (List FileInfo)}

variable {done : List FileInfo} {parts : List (List FileInfo × List FileInfo)}

theorem mergeLoop_spec {fuel : Nat} {files : List FileInfo}
    (hfuel : (queues entryChs).flatten.length < fuel) (hsorted : Sorted entryChs)
    (hfiles : files.length < maxKeys)
    (hM : Merged FileInfo.name instant (inQuorum totalDrives) all (queues entryChs)
      (done ++ files) parts) :
    ∃ entries chs parts', mergeLoop maxKeys totalDrives false fuel entryChs files =
      some (entries, chs) ∧
      IsPage maxKeys entries chs ∧ Sorted chs ∧
      Merged FileInfo.name instant (inQuorum totalDrives) all (queues chs)
        (done ++ entries.files) parts' := by
  induction fuel generalizing entryChs files parts with
  | zero => omega
  | succ fuel ih =>
    rw [mergeLoop]
    cases hm : least FileInfo.name (heads (queues entryChs)) with
    | none =>
      obtain ⟨hvalid, hempty, hqueues⟩ := leastEntry_none hm
      refine ⟨⟨files, false⟩, (leastEntry entryChs).2, parts, by simp [hvalid],
        ⟨hfiles.le, ?_, fun _ => hempty⟩, ?_, ?_⟩
      · simp [hfiles.ne]
      · rwa [Sorted, hqueues]
      · rwa [hqueues]
    | some m =>
      obtain ⟨hfst, hqueues⟩ := leastEntry_some hm
      have hless : (queues (leastEntry entryChs).2).flatten.length <
          (queues entryChs).flatten.length :=
        hqueues ▸ length_flatten_popGroup_lt hm
      have hround := hM.round hsorted hm
      rw [← hqueues, inQuorum] at hround
      have hsorted' : Sorted (leastEntry entryChs).2 := hsorted.round hqueues
      simp only [hfst, Bool.not_true, Bool.false_eq_true, if_false]
      split_ifs with hskip hfull
      · rw [if_neg (by simpa using hskip), append_nil] at hround
        exact ih (by omega) hsorted' hfiles hround
      · rw [if_pos (by simpa using hskip), append_assoc] at hround
        obtain ⟨htruncated, hleft⟩ := isTruncated_iff (leastEntry entryChs).2
        have hsorted₂ : Sorted (isTruncated (leastEntry entryChs).2).2 := by rwa [Sorted, hleft]
        rw [← hleft] at hround
        refine ⟨_, _, _, rfl, ⟨hfull.le, ?_, fun h => absurd hfull h.ne⟩, hsorted₂, hround⟩
        rw [htruncated, ← exists_queue_iff, ← hleft, exists_queue_iff, and_iff_right hfull]
      · rw [if_pos (by simpa using hskip), append_assoc] at hround
        have hlength : (files ++ [m]).length < maxKeys := by
          rw [length_append, length_singleton] at hfull ⊢
          omega
        exact ih (by omega) hsorted' hlength hround

theorem mergeEntriesCh_spec (hsorted : Sorted entryChs)
    (hmax : 1 ≤ maxKeys) (hM : Merged FileInfo.name instant (inQuorum totalDrives) all
      (queues entryChs) done parts) :
    ∃ entries chs parts', mergeEntriesCh entryChs maxKeys totalDrives false = some (entries, chs) ∧
      IsPage maxKeys entries chs ∧ Sorted chs ∧
      Merged FileInfo.name instant (inQuorum totalDrives) all (queues chs)
        (done ++ entries.files) parts' :=
  mergeLoop_spec (Nat.lt_succ_self _) hsorted hmax (by rwa [append_nil])

/-- The channels after the last call. -/
def channelsAfter : List FileInfoCh → List (FilesInfo × List FileInfoCh) → List FileInfoCh
  | entryChs, [] => entryChs
  | _, (_, entryChs) :: calls => channelsAfter entryChs calls

theorem mergeCalls_spec {sizes : List Nat}
    (hsorted : Sorted entryChs) (hsizes : ∀ maxKeys ∈ sizes, 1 ≤ maxKeys)
    (hM : Merged FileInfo.name instant (inQuorum totalDrives) all (queues entryChs) done parts) :
    ∃ calls parts', mergeCalls totalDrives sizes entryChs = some calls ∧
      List.Forall₂ (fun maxKeys (call : FilesInfo × List FileInfoCh) =>
        IsPage maxKeys call.1 call.2) sizes calls ∧
      Merged FileInfo.name instant (inQuorum totalDrives) all
        (queues (channelsAfter entryChs calls))
        (done ++ calls.flatMap fun call => call.1.files) parts' := by
  induction sizes generalizing entryChs done parts with
  | nil => exact ⟨[], parts, rfl, .nil, by rwa [flatMap_nil, append_nil]⟩
  | cons maxKeys sizes ih =>
    obtain ⟨entries, chs, parts₁, hcall, hpage, hsorted₁, hM₁⟩ :=
      mergeEntriesCh_spec hsorted (hsizes maxKeys mem_cons_self) hM
    obtain ⟨calls, parts₂, hcalls, hpages, hM₂⟩ :=
      ih hsorted₁ (fun k hk => hsizes k (mem_cons_of_mem _ hk)) hM₁
    refine ⟨(entries, chs) :: calls, parts₂, by simp [mergeCalls, hcall, hcalls],
      .cons hpage hpages, ?_⟩
    rwa [channelsAfter, flatMap_cons, ← append_assoc]

/-- Regular calls of `mergeEntriesCh` on the same channels return the merge of the channels by
groups: in the order of the names, one entry for each group in quorum of those that were taken. A
call returns less than it may only if the channels are used up. -/
theorem listingMerge (totalDrives : Nat) (entryChs : List FileInfoCh) (sizes : List Nat)
    (hsorted : ∀ f ∈ entryChs, f.queue.Pairwise fun a b => a.name < b.name)
    (hsizes : ∀ maxKeys ∈ sizes, 1 ≤ maxKeys) :
    ∃ calls, mergeCalls totalDrives sizes entryChs = some calls ∧
      List.Forall₂ (fun maxKeys (call : FilesInfo × List FileInfoCh) =>
        IsPage maxKeys call.1 call.2) sizes calls ∧
      (∃ parts, Merged FileInfo.name instant (inQuorum totalDrives) (queues entryChs)
        (queues (channelsAfter entryChs calls)) (calls.flatMap fun call => call.1.files) parts) ∧
      ((∀ f ∈ channelsAfter entryChs calls, f.queue = []) → ∀ k,
        (calls.flatMap fun call => call.1.files).filter (inGroup FileInfo.name instant k) =
          picked (inQuorum totalDrives) (members FileInfo.name instant (queues entryChs) k)) := by
  have hsorted' : Sorted entryChs := forall_mem_map.2 hsorted
  obtain ⟨calls, parts, hcalls, hpages, hM⟩ :=
    mergeCalls_spec hsorted' hsizes (merged_nil (queues entryChs))
  rw [nil_append] at hM
  exact ⟨calls, hcalls, hpages, ⟨parts, hM⟩, fun hempty => hM.complete (forall_mem_map.2 hempty)⟩

def fileAt (name : Bytes) (nanoseconds : Int) : FileInfo :=
  { FileInfo.zero with name, modTime := ⟨nanoseconds, 0⟩, quorum := 2 }

/-- Three disks: the second has an older `b`, the third has no `a`. -/
def threeWalks : List FileInfoCh :=
  [.ofWalk [fileAt (lit "a") 1, fileAt (lit "b") 2],
    .ofWalk [fileAt (lit "a") 1, fileAt (lit "b") 1],
    .ofWalk [fileAt (lit "b") 2]]

theorem listingMerge_threeWalks :
    (∃ calls, mergeCalls 3 [1, 2] threeWalks = some calls ∧
      List.Forall₂ (fun maxKeys (call : FilesInfo × List FileInfoCh) =>
        IsPage maxKeys call.1 call.2) [1, 2] calls ∧
      (∃ parts, Merged FileInfo.name instant (inQuorum 3) (queues threeWalks)
        (queues (channelsAfter threeWalks calls))
        (calls.flatMap fun call => call.1.files) parts) ∧
      ((∀ f ∈ channelsAfter threeWalks calls, f.queue = []) → ∀ k,
        (calls.flatMap fun call => call.1.files).filter (inGroup FileInfo.name instant k) =
          picked (inQuorum 3) (members FileInfo.name instant (queues threeWalks) k))) ∧
      (mergeCalls 3 [1, 2] threeWalks).map (List.map Prod.fst) =
        some [⟨[fileAt (lit "a") 1], true⟩, ⟨[fileAt (lit "b") 2], false⟩] :=
  ⟨listingMerge 3 threeWalks [1, 2] (by decide +kernel) (by decide), by decide +kernel⟩

end S3Kinetic.ListingMerge
