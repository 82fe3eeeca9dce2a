import S3Kinetic.PartListing

/-!
# Listing the parts of an upload to erasure coded disks

`AddObjectPart` keeps the parts of an upload in the order of their numbers. `ListObjectParts` looks
for the part whose number is the marker and lists what stands behind it. If there is no such part it
lists all of them. `xlListObjectParts_iff` says for which markers a page is right, and when
following the markers lists each part once.
-/

namespace S3Kinetic.XlParts

open ByteString MarkerPages List

/-! ## The listing -/

/-- What `ListObjectParts` reads of an `xl.json`. -/
structure XlMetaV1 where
  modTime : Nat
  entries : OrdMap Bytes Bytes
  parts : List ObjectPartInfo

/-- `objectPartIndex`; the index `-1` is `none`. -/
def objectPartIndex (parts : List ObjectPartInfo) (partNumber : Int) : Option Nat :=
  parts.findIdx? fun part => partNumber = part.number

def addObjectPart (parts : List ObjectPartInfo) (partInfo : ObjectPartInfo) : List ObjectPartInfo :=
  match objectPartIndex parts partInfo.number with
  | some i => parts.set i partInfo
  | none => (parts ++ [partInfo]).insertionSort fun a b => a.number ≤ b.number

def maxPartsList : Int := 10000

/-- The loop over the parts; it ends when `count` gets to zero. -/
def appendParts : List ObjectPartInfo → Int → List ObjectPartInfo
  | [], _ => []
  | part :: parts, count => part :: if count - 1 = 0 then [] else appendParts parts (count - 1)

def XlMetaV1.partInfo (m : XlMetaV1) (part : ObjectPartInfo) : PartInfo :=
  { partNumber := part.number, etag := part.etag, lastModified := m.modTime, size := part.size,
    actualSize := 0 }

/-- The parts behind the marker. -/
def behind (xlParts : List ObjectPartInfo) (partNumberMarker : Int) : List ObjectPartInfo :=
  match objectPartIndex xlParts partNumberMarker with
  | some partIdx => xlParts.drop (partIdx + 1)
  | none => xlParts

/-- `ListObjectParts`; `xlValidMeta` is what the checks and the read of the metadata in quorum
give. -/
def listObjectParts (xlValidMeta : Except Err XlMetaV1) (bucket object uploadID : Bytes)
    (partNumberMarker maxParts : Int) :
    Except Err ListPartsInfo :=
  match xlValidMeta with
  | .error e => .error e
  | .ok m =>
    let result : ListPartsInfo :=
      { bucket, object, uploadID, maxParts, partNumberMarker, userDefined := m.entries,
        nextPartNumberMarker := 0
        isTruncated := false, parts := [] }
    if m.parts = [] ∨ maxParts = 0 then .ok result
    else
      let parts := behind m.parts partNumberMarker
      let listed := appendParts parts (min maxParts maxPartsList)
      .ok
        { result with
          parts := listed.map m.partInfo
          isTruncated := listed.length < parts.length
          nextPartNumberMarker :=
            if listed.length < parts.length then (listed.getLast?.map ObjectPartInfo.number).getD 0
              else 0 }

/-! ## The law -/

/-- The parts of an upload after these calls of `AddObjectPart`. -/
def added (ups : List ObjectPartInfo) : List ObjectPartInfo := ups.foldl addObjectPart []

/-- `L` has the last part of each number, in increasing order. -/
structure Latest (ups L : List ObjectPartInfo) : Prop where
  sorted : L.Pairwise fun p q => p.number < q.number
  mem : ∀ p, p ∈ L ↔ (ups.filter fun q => q.number = p.number).getLast? = some p

section Law

variable (m : XlMetaV1) (bucket object uploadID : Bytes)

/-- The page behind a marker has the first parts above it, and says whether there are more. -/
def PageLaw (marker maxParts : Int) : Prop :=
  ∃ r, listObjectParts (.ok m) bucket object uploadID marker maxParts = .ok r ∧
    r.parts = ((above ObjectPartInfo.number marker m.parts).take
      (min maxParts maxPartsList).toNat).map m.partInfo ∧
    (r.isTruncated = true ↔ (min maxParts maxPartsList).toNat <
      (above ObjectPartInfo.number marker m.parts).length)

def page (r : ListPartsInfo) : List PartInfo × Option Int :=
  (r.parts, if r.isTruncated then some r.nextPartNumberMarker else none)

/-- Following the markers from zero lists every part once. -/
def PagesLaw (maxParts : Int) : Prop :=
  MarkerPages.Pages (fun marker =>
    (listObjectParts (.ok m) bucket object uploadID marker maxParts).toOption.map page) 0
    (m.parts.map m.partInfo)

end Law

/-! ## The parts of an upload -/

theorem objectPartIndex_cases (parts : List ObjectPartInfo) (n : Int) :
    (objectPartIndex parts n = none ∧ ∀ p ∈ parts, p.number ≠ n) ∨
      ∃ a q b, parts = a ++ q :: b ∧ q.number = n ∧ objectPartIndex parts n = some a.length := by
  cases h : objectPartIndex parts n with
  | none =>
    rw [objectPartIndex, findIdx?_eq_none_iff] at h
    exact .inl ⟨rfl, fun p hp => by simpa [eq_comm] using h p hp⟩
  | some i =>
    rw [objectPartIndex, findIdx?_eq_some_iff_getElem] at h
    obtain ⟨hi, hn, -⟩ := h
    refine .inr ⟨parts.take i, parts[i], parts.drop (i + 1), ?_, (of_decide_eq_true hn).symm, ?_⟩
    · rw [← drop_eq_getElem_cons hi, take_append_drop]
    · rw [length_take, min_eq_left hi.le]

variable {parts ups L : List ObjectPartInfo} {x : ObjectPartInfo}

theorem addObjectPart_sorted (h : parts.Pairwise fun p q => p.number < q.number) :
    (addObjectPart parts x).Pairwise fun p q => p.number < q.number := by
  rw [addObjectPart]
  rcases objectPartIndex_cases parts x.number with ⟨hidx, hnone⟩ | ⟨a, q, b, rfl, hq, hidx⟩
  · rw [hidx]
    have hperm := perm_insertionSort (fun a b : ObjectPartInfo => a.number ≤ b.number)
      (parts ++ [x])
    have hle := pairwise_insertionSort (fun a b : ObjectPartInfo => a.number ≤ b.number)
      (parts ++ [x])
    have hne : (parts ++ [x]).Pairwise fun p q => p.number ≠ q.number := by
      refine pairwise_append.2 ⟨h.imp ne_of_lt, pairwise_singleton _ _, fun p hp q hq => ?_⟩
      rw [mem_singleton.1 hq]
      exact hnone p hp
    have hne' := (hperm.pairwise_iff fun h => h.symm).2 hne
    exact (hle.and hne').imp fun h => lt_of_le_of_ne h.1 h.2
  · rw [hidx]
    simp only [set_append_right _ _ le_rfl, Nat.sub_self, set_cons_zero]
    rw [pairwise_append, pairwise_cons] at h ⊢
    simpa only [mem_cons, forall_eq_or_imp, hq] using h

theorem mem_addObjectPart (h : parts.Pairwise fun p q => p.number < q.number) {p : ObjectPartInfo} :
    p ∈ addObjectPart parts x ↔ p = x ∨ p ∈ parts ∧ p.number ≠ x.number := by
  rw [addObjectPart]
  rcases objectPartIndex_cases parts x.number with ⟨hidx, hnone⟩ | ⟨a, q, b, rfl, hq, hidx⟩
  · rw [hidx]
    simp only [mem_insertionSort, mem_append, mem_singleton, or_comm (a := p ∈ parts)]
    exact or_congr_right (iff_self_and.2 (hnone p))
  · rw [hidx]
    simp only [set_append_right _ _ le_rfl, Nat.sub_self, set_cons_zero, mem_append, mem_cons]
    rw [pairwise_append, pairwise_cons] at h
    obtain ⟨-, ⟨hafter, -⟩, hbefore⟩ := h
    have ha : p ∈ a → p.number ≠ x.number := fun hp => hq ▸ ne_of_lt (hbefore p hp q mem_cons_self)
    have hb : p ∈ b → p.number ≠ x.number := fun hp => hq ▸ (ne_of_lt (hafter p hp)).symm
    have hpq : p = q → p.number = x.number := fun h => h ▸ hq
    tauto

theorem latest_added (ups : List ObjectPartInfo) : Latest ups (added ups) := by
  induction ups using reverseRecOn with
  | nil => exact ⟨.nil, by simp [added]⟩
  | append_singleton ups x ih =>
    rw [added, foldl_append]
    refine ⟨addObjectPart_sorted ih.sorted, fun p => ?_⟩
    rw [foldl_cons, foldl_nil, ← added, mem_addObjectPart ih.sorted, ih.mem, filter_append,
      filter_singleton]
    by_cases hx : x.number = p.number
    · simp [hx, eq_comm]
    · have hne : p ≠ x := fun h => hx (h ▸ rfl)
      simp [hx, hne, Ne.symm hx]

/-! ## Pages -/

theorem appendParts_eq (parts : List ObjectPartInfo) {count : Int} (h : 1 ≤ count) :
    appendParts parts count = parts.take count.toNat := by
  induction parts generalizing count with
  | nil => simp [appendParts]
  | cons part parts ih =>
    obtain ⟨n, rfl⟩ : ∃ n : Nat, count = n + 1 := ⟨(count - 1).toNat, by omega⟩
    have hn : ((n : Int) + 1).toNat = n + 1 := by omega
    rw [appendParts, hn, take_succ_cons, Int.add_sub_cancel]
    split_ifs with h0
    · rw [show n = 0 by omega, take_zero]
    · rw [ih (by omega), Int.toNat_natCast]

variable {m : XlMetaV1} {bucket object uploadID : Bytes} {marker maxParts : Int}

variable (m bucket object uploadID marker) in
/-- A page has the first parts behind the marker. -/
theorem listObjectParts_ok (hmax : 1 ≤ maxParts) {k : Nat}
    (hk : (min maxParts maxPartsList).toNat = k) :
    ∃ r, listObjectParts (.ok m) bucket object uploadID marker maxParts = .ok r ∧
      r.parts = ((behind m.parts marker).take k).map m.partInfo ∧
      (r.isTruncated = true ↔ k < (behind m.parts marker).length) ∧
      (k < (behind m.parts marker).length →
        r.nextPartNumberMarker = (((behind m.parts marker).take k).getLast?.map
          ObjectPartInfo.number).getD 0) := by
  have hlisted : appendParts (behind m.parts marker) (min maxParts maxPartsList) =
      (behind m.parts marker).take k :=
    hk ▸ appendParts_eq _ (by simp [maxPartsList, hmax])
  by_cases hnil : m.parts = []
  · have hbehind : behind m.parts marker = [] := by simp [behind, objectPartIndex, hnil]
    simp only [listObjectParts, hnil, true_or, if_true] at hbehind ⊢
    simp [hbehind]
  · have h0 : ¬ (m.parts = [] ∨ maxParts = 0) := by
      rintro (h | h)
      · exact hnil h
      · omega
    simp only [listObjectParts, if_neg h0, hlisted, length_take]
    refine ⟨_, rfl, rfl, by simp, fun h => if_pos (by omega)⟩

theorem behind_of_mem (hs : parts.Pairwise fun p q => p.number < q.number)
    (h : ∃ p ∈ parts, p.number = marker) :
    behind parts marker = above ObjectPartInfo.number marker parts := by
  rcases objectPartIndex_cases parts marker with ⟨-, hnone⟩ | ⟨a, q, b, rfl, rfl, hidx⟩
  · obtain ⟨p, hp, hpm⟩ := h
    exact absurd hpm (hnone p hp)
  · rw [pairwise_append, pairwise_cons] at hs
    obtain ⟨-, ⟨hafter, -⟩, hbefore⟩ := hs
    have ha : above ObjectPartInfo.number q.number a = [] :=
      filter_eq_nil_iff.2 fun p hp => by simpa using (hbefore p hp q mem_cons_self).le
    rw [append_cons, above_append, above_append, ha, above_singleton, if_pos le_rfl,
      above_eq_self hafter, behind, ← append_cons, hidx]
    simp

theorem behind_of_not_mem (h : ∀ p ∈ parts, p.number ≠ marker) : behind parts marker = parts := by
  rcases objectPartIndex_cases parts marker with ⟨hidx, -⟩ | ⟨a, q, b, rfl, hq, -⟩
  · rw [behind, hidx]
  · exact absurd hq (h q (by simp))

theorem pageLaw_iff (hs : m.parts.Pairwise fun p q => p.number < q.number) (hmax : 1 ≤ maxParts) :
    PageLaw m bucket object uploadID marker maxParts ↔
      (∃ p ∈ m.parts, p.number = marker) ∨ ∀ p ∈ m.parts, marker < p.number := by
  obtain ⟨r, hr, hparts, htrunc, -⟩ := listObjectParts_ok m bucket object uploadID marker hmax rfl
  constructor
  · rintro ⟨r', hr', hparts', -⟩
    rw [or_iff_not_imp_left]
    intro hnot p hp
    have hall : behind m.parts marker = m.parts := behind_of_not_mem fun p hp h => hnot ⟨p, hp, h⟩
    rw [hr] at hr'
    cases hr'
    rw [hparts, hall] at hparts'
    -- the first of all parts is listed, so it is above the marker
    obtain ⟨first, rest, hfirst⟩ := exists_cons_of_ne_nil (ne_nil_of_mem hp)
    have hk : 0 < (min maxParts maxPartsList).toNat := by simp [maxPartsList]; omega
    have hmem : m.partInfo first ∈
        ((above ObjectPartInfo.number marker m.parts).take (min maxParts maxPartsList).toNat).map
            m.partInfo := by
      rw [← hparts', hfirst, take_cons hk]
      exact mem_cons_self
    obtain ⟨q, hq, hqf⟩ := mem_map.1 hmem
    have hle : marker < first.number := by
      rw [← show q.number = first.number from congrArg PartInfo.partNumber hqf]
      exact of_decide_eq_true (mem_filter.1 (mem_of_mem_take hq)).2
    rw [hfirst] at hp hs
    rcases mem_cons.1 hp with rfl | hp
    · exact hle
    · exact hle.trans ((pairwise_cons.1 hs).1 p hp)
  · intro h
    have heq : behind m.parts marker = above ObjectPartInfo.number marker m.parts := by
      by_cases hmem : ∃ p ∈ m.parts, p.number = marker
      · exact behind_of_mem hs hmem
      · rw [behind_of_not_mem fun p hp h => hmem ⟨p, hp, h⟩, above_eq_self (h.resolve_left hmem)]
    rw [heq] at hparts htrunc
    exact ⟨r, hr, hparts, htrunc⟩

/-! ## Following the markers -/

/-- Behind a marker that the source can be sent, the library's page. -/
theorem page_eq_pageFrom (h0 : ∀ p ∈ m.parts, p.number ≠ 0)
    (hs : m.parts.Pairwise fun p q => p.number < q.number)
    (hmax : 1 ≤ maxParts) (hmarker : marker = 0 ∨ ∃ p ∈ m.parts, p.number = marker) :
    (listObjectParts (.ok m) bucket object uploadID marker maxParts).toOption.map page =
      pageFrom PartInfo.partNumber (fun _ => true) (m.parts.map m.partInfo)
        (min maxParts maxPartsList).toNat marker := by
  obtain ⟨r, hr, hparts, htrunc, hnext⟩ :=
    listObjectParts_ok m bucket object uploadID marker hmax rfl
  have hskip : skipTo PartInfo.partNumber marker (m.parts.map m.partInfo) =
      (behind m.parts marker).map m.partInfo := by
    rcases hmarker with rfl | ⟨q, hq, rfl⟩
    · rw [skipTo_zero, behind_of_not_mem h0]
    · rcases objectPartIndex_cases m.parts q.number with ⟨-, hnone⟩ | ⟨a, q', b, hsplit, hq', hidx⟩
      · exact absurd rfl (hnone q hq)
      · rw [behind, hidx, hsplit, map_append, map_cons, ← hq']
        rw [hsplit] at hs
        have hnodup : ((a.map m.partInfo ++ m.partInfo q' :: b.map m.partInfo).map
            PartInfo.partNumber).Nodup := by
          rw [← map_cons, ← map_append, map_map]
          exact pairwise_map.2 (hs.imp ne_of_lt)
        have hrest : skipTo PartInfo.partNumber q'.number (a.map m.partInfo ++ m.partInfo q' ::
          b.map m.partInfo) =
            b.map m.partInfo := skipTo_append_cons hnodup (show q'.number ≠ 0 from hq' ▸ h0 q hq)
        simpa using hrest
  rw [hr, pageFrom, hskip]
  simp only [all_eq_true, implies_true, if_true, Except.toOption, Option.map_some, page, hparts,
    map_take, length_map]
  by_cases hk : (min maxParts maxPartsList).toNat < (behind m.parts marker).length
  · rw [if_pos hk, if_pos (htrunc.2 hk), hnext hk, ← map_take, getLast?_map, Option.map_map]
    rfl
  · rw [if_neg hk, if_neg (mt htrunc.1 hk)]

theorem pagesLaw_iff (hs : m.parts.Pairwise fun p q => p.number < q.number) (hmax : 1 ≤ maxParts) :
    PagesLaw m bucket object uploadID maxParts ↔ ∀ p ∈ m.parts, p.number ≠ 0 := by
  have hk : 1 ≤ (min maxParts maxPartsList).toNat := by simp [maxPartsList]; omega
  constructor
  · intro h p hp hzero
    obtain ⟨r, hr, hparts, htrunc, -⟩ := listObjectParts_ok m bucket object uploadID 0 hmax rfl
    rw [behind_of_mem hs ⟨p, hp, hzero⟩] at hparts htrunc
    obtain ⟨first, rest, hfirst⟩ := exists_cons_of_ne_nil (ne_nil_of_mem hp)
    -- the first part would be on the first page, which has only parts above zero
    have hmem : m.partInfo first ∈ r.parts := by
      rw [PagesLaw] at h
      generalize htarget : m.parts.map m.partInfo = target at h
      have hhead : target = m.partInfo first :: rest.map m.partInfo := by
        rw [← htarget, hfirst, map_cons]
      cases h with
      | last hcall =>
        simp only [hr, Except.toOption, Option.map_some, page, Option.some.injEq,
          Prod.mk.injEq] at hcall
        rw [hcall.1, hhead]
        exact mem_cons_self
      | @more _ next pg more hcall _ =>
        simp only [hr, Except.toOption, Option.map_some, page, Option.some.injEq,
          Prod.mk.injEq] at hcall
        obtain ⟨rfl, hnext⟩ := hcall
        have htr := htrunc.1 (by_contra fun hnot => by simp [hnot] at hnext)
        obtain ⟨y, ys, hy⟩ : ∃ y ys, r.parts = y :: ys := by
          refine exists_cons_of_ne_nil fun hnil => ?_
          have := congrArg length (hparts.symm.trans hnil)
          simp only [length_map, length_take, length_nil] at this
          omega
        rw [hy, cons_append] at hhead
        rw [hy, (cons.inj hhead).1]
        exact mem_cons_self
    rw [hparts] at hmem
    obtain ⟨q, hq, hqf⟩ := mem_map.1 hmem
    have hpos : 0 < q.number := of_decide_eq_true (mem_filter.1 (mem_of_mem_take hq)).2
    rw [show q.number = first.number from congrArg PartInfo.partNumber hqf] at hpos
    rw [hfirst] at hp hs
    rcases mem_cons.1 hp with rfl | hp
    · omega
    · have := (pairwise_cons.1 hs).1 p hp
      omega
  · intro h0
    have hnodup : ((m.parts.map m.partInfo).map PartInfo.partNumber).Nodup := by
      rw [map_map]
      exact pairwise_map.2 (hs.imp ne_of_lt)
    have hpages : MarkerPages.Pages (pageFrom PartInfo.partNumber (fun _ => true)
      (m.parts.map m.partInfo)
        (min maxParts maxPartsList).toNat) 0 (m.parts.map m.partInfo) := by
      refine pages_skipTo hnodup (fun _ _ => rfl) (fun x hx => ?_) hk
        (nil_append _).symm skipTo_zero
      obtain ⟨p, hp, rfl⟩ := mem_map.1 (mem_of_mem_dropLast hx)
      exact h0 p hp
    refine hpages.congr (fun marker hmarker => page_eq_pageFrom h0 hs hmax hmarker)
      (fun _ _ next hcall => ?_) (.inl rfl)
    obtain ⟨x, hx, rfl⟩ := key_of_pageFrom hk hcall
    obtain ⟨p, hp, rfl⟩ := mem_map.1 hx
    exact .inr ⟨p, hp, rfl⟩

/-! ## Results -/

theorem Latest.exists_number {n : Int} (h : Latest ups L) :
    (∃ p ∈ L, p.number = n) ↔ ∃ p ∈ ups, p.number = n := by
  constructor
  · rintro ⟨p, hp, hn⟩
    exact ⟨p, (mem_filter.1 (mem_of_getLast? ((h.mem p).1 hp))).1, hn⟩
  · rintro ⟨p, hp, rfl⟩
    have hne : (ups.filter fun q => q.number = p.number) ≠ [] :=
      ne_nil_of_mem (mem_filter.2 ⟨hp, by simp⟩)
    have hlast := getLast?_eq_some_getLast hne
    have hnum : ((ups.filter fun q => q.number = p.number).getLast hne).number = p.number := by
      simpa using (mem_filter.1 (getLast_mem hne)).2
    exact ⟨_, (h.mem _).2 (by simpa only [hnum] using hlast), hnum⟩

theorem Latest.forall_number {P : Int → Prop} (h : Latest ups L) :
    (∀ p ∈ L, P p.number) ↔ ∀ p ∈ ups, P p.number := by
  constructor
  · intro hL p hp
    obtain ⟨q, hq, hn⟩ := h.exists_number.2 ⟨p, hp, rfl⟩
    exact hn ▸ hL q hq
  · intro hups p hp
    obtain ⟨q, hq, hn⟩ := h.exists_number.1 ⟨p, hp, rfl⟩
    exact hn ▸ hups q hq

/-- The parts of an upload are the last ones of their numbers in increasing order. The page behind a
marker is right exactly if the marker is the number of a part or below all numbers, and following
the markers from zero lists every part once exactly if there is no part zero. -/
theorem xlListObjectParts_iff (ups : List ObjectPartInfo) (m : XlMetaV1) (hm : m.parts = added ups)
    (bucket object uploadID : Bytes) :
    Latest ups m.parts ∧ ∀ maxParts ≥ 1,
      (∀ marker ≥ 0, PageLaw m bucket object uploadID marker maxParts ↔
        (∃ p ∈ ups, p.number = marker) ∨ ∀ p ∈ ups, marker < p.number) ∧
      (PagesLaw m bucket object uploadID maxParts ↔ ∀ p ∈ ups, p.number ≠ 0) := by
  have hlatest : Latest ups m.parts := hm ▸ latest_added ups
  refine ⟨hlatest, fun maxParts hmax => ⟨fun marker _ => ?_, ?_⟩⟩
  · rw [pageLaw_iff hlatest.sorted hmax, hlatest.exists_number, hlatest.forall_number]
  · rw [pagesLaw_iff hlatest.sorted hmax]
    exact hlatest.forall_number (P := (· ≠ 0))

def gappedUpload : List ObjectPartInfo :=
  [⟨lit "a", 3, 5, 5⟩, ⟨lit "b", 1, 6, 6⟩, ⟨lit "c", 3, 7, 7⟩]

theorem xlListObjectParts_gapped :
    Latest gappedUpload (added gappedUpload) ∧ PagesLaw ⟨0, ∅, added gappedUpload⟩ (lit "b")
      (lit "o") (lit "u") 1 := by
  have h := xlListObjectParts_iff gappedUpload ⟨0, ∅, added gappedUpload⟩ rfl (lit "b")
    (lit "o") (lit "u")
  exact ⟨h.1, (h.2 1 le_rfl).2.2 (by decide)⟩

/-- Behind the marker 2 the list starts with part 1 again. -/
theorem listObjectParts_between_numbers :
    ((listObjectParts (.ok ⟨0, ∅, added gappedUpload⟩) (lit "b") (lit "o") (lit "u") 2
      1).toOption.map page) =
        some ([⟨1, 0, lit "b", 6, 0⟩], some 1) ∧
      above ObjectPartInfo.number 2 (added gappedUpload) = [⟨lit "c", 3, 7, 7⟩] ∧
      ¬ PageLaw ⟨0, ∅, added gappedUpload⟩ (lit "b") (lit "o") (lit "u") 2 1 := by
  refine ⟨by decide, by decide, ?_⟩
  rw [pageLaw_iff (latest_added gappedUpload).sorted le_rfl]
  decide

end S3Kinetic.XlParts
