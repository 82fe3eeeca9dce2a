import S3Kinetic.System

/-!
# Following the markers of a recursive listing

A client lists a prefix page by page: it asks again from `NextMarker` while `IsTruncated` is set.
With at most 400 keys a page, the code never sets it, so one page is all there is. Above that a page
takes 400 keys, and the next one starts at the byte increment of the last, which leaves out the keys
in between. The end key of the range is listed too. `pagination_iff` says for which stores the pages
are nevertheless the visible objects under the prefix. When every key of the range is such an
object, that is: they fit into one page of at most 400, or no page of 400 ends in a key whose
successor lies below its increment.
-/

namespace S3Kinetic

open ByteString OrdMap

section

variable (K : Kineticd) (s : Store) (b p : Bytes) (maxKeys : Int)

/-- The pages a client gets from a marker on. -/
inductive Pages : Bytes → List ListObjectsInfo → Prop
  | last {marker : Bytes} {page : ListObjectsInfo}
      (hpage : listObjects K s 2 b p marker [] maxKeys = some (.ok page))
      (hend : page.isTruncated = false) : Pages marker [page]
  | more {marker : Bytes} {page : ListObjectsInfo} {pages : List ListObjectsInfo}
      (hpage : listObjects K s 2 b p marker [] maxKeys = some (.ok page))
      (hmore : page.isTruncated = true) (hrest : Pages page.nextMarker pages) :
        Pages marker (page :: pages)

/-- The visible object under a key. -/
def keyInfo (k : Bytes) : Option ObjectInfo :=
  match s.get? k with
  | some ⟨.json m, _⟩ => if m.hidden then none else some (m.toObjectInfo b (k.drop (b.length + 1)))
  | _ => none

/-- The pages end, are the visible objects under the prefix in order, and none is too long. -/
def PaginationLaw : Prop :=
  ∃ pages, Pages K s b p maxKeys [] pages ∧
    pages.flatMap ListObjectsInfo.objects =
      (s.keysWhere fun k => hasPrefix k (makeKey b p)).filterMap (keyInfo s b) ∧
    ∀ page ∈ pages, ((page.objects.length + page.prefixes.length : Nat) : Int) ≤ maxKeys

def rangeKeys : List Bytes := s.keysWhere fun k => makeKey b p ≤ k && k ≤ incStr (makeKey b p)

/-- The keys of the range are names in the bucket without `:`, and none ends in the byte that has no
increment. -/
def Listable : Prop :=
  ∀ k ∈ rangeKeys s b p, colon ∉ k ∧ ∃ q c, k = makeKey b (q ++ [c]) ∧ c ≠ 255

/-- The keys that pages of 400 look at, from `start` on, with `room + 1` keys left in the first
page: each full page is followed by one that starts at the increment of its last key. -/
def pageWalk : Nat → Bytes → List Bytes → List Bytes
  | _, _, [] => []
  | room, start, k :: ks =>
    if k < start then pageWalk room start ks
    else k :: if room = 0 then pageWalk 399 (incStr k) ks else pageWalk (room - 1) start ks

/-- The names that go to the C client are not cut at a NUL. -/
def CListing : Prop := CString b ∧ CString p ∧ ∀ k ∈ rangeKeys s b p, CString k

/-- No page of 400 ends in a key whose successor lies below its increment. -/
def PageGaps (ks : List Bytes) : Prop :=
  ∀ i x y, i % 400 = 399 → ks[i]? = some x → ks[i + 1]? = some y → incStr x ≤ y

def visitedKeys : List Bytes :=
  if maxKeys ≤ maxKeyRange then (rangeKeys s b p).take maxKeys.toNat
  else pageWalk 399 (makeKey b p) (rangeKeys s b p)

end

variable {K : Kineticd} {s : Store} {b p : Bytes} {maxKeys : Int}

/-! ## Increments -/

theorem incStr_split {x : Bytes} (h : ∃ c ∈ x, c ≠ 255) :
    ∃ y c j, c ≠ 255 ∧ x = y ++ c :: List.replicate j 255 ∧
      incStr x = y ++ (c + 1) :: List.replicate j 0 := by
  induction x using List.reverseRecOn with
  | nil => simp at h
  | append_singleton x d ih =>
    by_cases hd : d = 255
    · subst hd
      have hx : ∃ c ∈ x, c ≠ 255 := by simpa using h
      obtain ⟨y, c, j, hc, rfl, hinc⟩ := ih hx
      refine ⟨y, c, j + 1, hc, by simp [List.replicate_succ'], ?_⟩
      have hstep : incStr (y ++ c :: List.replicate j 255 ++ [255]) =
          incStr (y ++ c :: List.replicate j 255) ++ [0] := by
        simp [incStr, incRev]
      rw [hstep, hinc]
      simp [List.replicate_succ']
    · exact ⟨x, d, 0, hd, by simp, by simp [incStr_concat x hd]⟩

theorem slash_ne : slash ≠ 255 := by decide

variable {k : Bytes}

theorem lt_incStr_of_makeKey (h : makeKey b p <+: k) : k < incStr (makeKey b p) := by
  obtain ⟨y, c, j, hc, hx, hinc⟩ := incStr_split (x := makeKey b p)
    ⟨slash, by simp [makeKey], slash_ne⟩
  have hyc : y ++ [c] <+: k := by
    refine List.IsPrefix.trans ?_ h
    rw [hx]
    exact ⟨List.replicate j 255, by simp⟩
  calc k < y ++ [c + 1] := lt_snoc_of_lt (covBy_add_one hc).lt hyc
    _ ≤ incStr (makeKey b p) := by
      rw [hinc]
      exact prefix_le ⟨List.replicate j 0, by simp⟩

theorem lt_incStr {q : Bytes} {c : UInt8} (hc : c ≠ 255) :
    makeKey b (q ++ [c]) < incStr (makeKey b (q ++ [c])) := by
  have hk (d : UInt8) : makeKey b (q ++ [d]) = (b ++ slash :: q) ++ [d] := by simp [makeKey]
  rw [hk, incStr_concat _ hc, append_lt_append_iff]
  exact cons_lt_cons_iff.2 (.inl (covBy_add_one hc).lt)

theorem mem_rangeKeys :
    k ∈ rangeKeys s b p ↔ k ∈ s ∧ makeKey b p ≤ k ∧ k ≤ incStr (makeKey b p) := by
  rw [rangeKeys, mem_keysWhere, Bool.and_eq_true, decide_eq_true_eq, decide_eq_true_eq]

theorem mem_keysWhere_prefix_iff :
    k ∈ (s.keysWhere fun k => hasPrefix k (makeKey b p)) ↔ k ∈ rangeKeys s b p ∧
      makeKey b p <+: k := by
  rw [mem_keysWhere, mem_rangeKeys, hasPrefix, List.isPrefixOf_iff_prefix]
  exact ⟨fun h => ⟨⟨h.1, prefix_le h.2, (lt_incStr_of_makeKey h.2).le⟩, h.2⟩, fun h => ⟨h.1.1, h.2⟩⟩

/-! ## The walk -/

theorem pageWalk_skip {ks : List Bytes} {start : Bytes} (room : Nat) (h : k < start) :
    pageWalk room start (k :: ks) = pageWalk room start ks := by
  rw [pageWalk, if_pos h]

theorem pageWalk_sublist (room : Nat) (start : Bytes) (ks : List Bytes) :
    (pageWalk room start ks).Sublist ks := by
  induction ks generalizing room start with
  | nil => exact .slnil
  | cons k ks ih =>
    rw [pageWalk]
    split
    · exact (ih _ _).cons _
    · split <;> exact (ih _ _).cons_cons _

theorem pageWalk_eq_self_iff {ks : List Bytes} (hs : ks.Pairwise (· < ·)) {room : Nat}
    (hroom : room < 400) {start : Bytes} (hstart : ∀ k ∈ ks, start ≤ k) :
    pageWalk room start ks = ks ↔
      ∀ i x y, i % 400 = room → ks[i]? = some x → ks[i + 1]? = some y → incStr x ≤ y := by
  induction ks generalizing room start with
  | nil => simp [pageWalk]
  | cons k ks ih =>
    have hs' := List.pairwise_cons.1 hs
    rw [pageWalk, if_neg (not_lt.2 (hstart k List.mem_cons_self)), List.cons_inj_right,
      ← Nat.and_forall_add_one]
    cases room with
    | succ room =>
      rw [if_neg (Nat.succ_ne_zero room), Nat.add_sub_cancel,
        ih hs'.2 (by omega) fun x hx => hstart x (List.mem_cons_of_mem _ hx)]
      simp only [List.getElem?_cons_succ, Nat.zero_mod, Nat.zero_ne_add_one,
        false_implies, implies_true, true_and]
      refine forall_congr' fun i => forall₂_congr fun x y => ?_
      rw [show (i + 1) % 400 = room + 1 ↔ i % 400 = room by omega]
    | zero =>
      rw [if_pos rfl]
      cases ks with
      | nil => simp [pageWalk]
      | cons y ks =>
        by_cases hy : incStr k ≤ y
        · have hle : ∀ x ∈ y :: ks, incStr k ≤ x := by
            intro x hx
            rcases List.mem_cons.1 hx with rfl | hx
            · exact hy
            · exact hy.trans ((List.pairwise_cons.1 hs'.2).1 x hx).le
          rw [ih hs'.2 (by decide) hle]
          simp only [List.getElem?_cons_succ, List.getElem?_cons_zero,
            Option.some.injEq, Nat.zero_mod, forall_const]
          refine (and_iff_right_of_imp fun _ => ?_).symm.trans (and_congr_right fun _ => ?_)
          · rintro x z rfl rfl
            exact hy
          · refine forall_congr' fun i => forall₂_congr fun x z => ?_
            rw [show (i + 1) % 400 = 0 ↔ i % 400 = 399 by omega]
        · refine iff_of_false (fun h => ?_) fun h => hy (h.1 k y rfl rfl rfl)
          rw [pageWalk_skip _ (not_le.1 hy)] at h
          have := (pageWalk_sublist 399 (incStr k) ks).length_le
          rw [h] at this
          simp at this

theorem exists_getLast?_of_full {l : List Bytes} {n : Nat} (h : ¬ l.length < n + 1) :
    ∃ x ∈ l, l.getLast? = some x := by
  have hne : l ≠ [] := by
    rintro rfl
    simp at h
  exact ⟨l.getLast hne, List.getLast_mem hne, List.getLast?_eq_some_getLast hne⟩

theorem pageWalk_eq {ks : List Bytes} (hs : ks.Pairwise (· < ·)) (hinc : ∀ k ∈ ks, k < incStr k)
    (room : Nat) (start : Bytes) :
    pageWalk room start ks =
      (ks.filter (start ≤ ·)).take (room + 1) ++
        if ((ks.filter (start ≤ ·)).take (room + 1)).length < room + 1 then []
        else pageWalk 399 (incStr (((ks.filter (start ≤ ·)).take (room + 1)).getLast?.getD []))
          ks := by
  induction ks generalizing room with
  | nil => simp [pageWalk]
  | cons k ks ih =>
    rw [List.pairwise_cons] at hs
    have hinc' : ∀ k ∈ ks, k < incStr k := fun x hx => hinc x (List.mem_cons_of_mem _ hx)
    rw [pageWalk]
    split
    · next hlt =>
      -- `k` is below this page, and so below the next
      have hf : (k :: ks).filter (start ≤ ·) = ks.filter (start ≤ ·) := by
        rw [List.filter_cons_of_neg (by simpa using hlt)]
      rw [ih hs.2 hinc' room, hf]
      split
      · rfl
      · next hfull =>
        obtain ⟨l, hl, hlast⟩ := exists_getLast?_of_full hfull
        obtain ⟨hlks, hsl⟩ := List.mem_filter.1 (List.mem_of_mem_take hl)
        have hkl : k < l := hlt.trans_le (by simpa using hsl)
        rw [hlast, Option.getD_some, pageWalk_skip 399 (hkl.trans (hinc' l hlks))]
    · next hge =>
      have hf : (k :: ks).filter (start ≤ ·) = k :: ks.filter (start ≤ ·) :=
        List.filter_cons_of_pos (by simpa using hge)
      rw [hf, List.take_succ_cons]
      cases room with
      | zero =>
        simp only [if_true, List.take_zero, List.length_singleton, List.getLast?_singleton,
          Option.getD_some, Nat.zero_add, lt_irrefl, if_false]
        rw [pageWalk_skip _ (hinc k List.mem_cons_self)]
        rfl
      | succ room =>
        simp only [Nat.add_one_ne_zero, if_false, Nat.add_sub_cancel]
        rw [ih hs.2 hinc' room, List.cons_append]
        congr 2
        simp only [List.length_cons, Nat.add_lt_add_iff_right]
        split
        · rfl
        · next hfull =>
          obtain ⟨l, hl, hlast⟩ := exists_getLast?_of_full hfull
          have hlks : l ∈ ks := (List.mem_filter.1 (List.mem_of_mem_take hl)).1
          rw [List.getLast?_cons, hlast, Option.getD_some, Option.getD_some, Option.getD_some,
            pageWalk_skip 399 ((hs.1 l hlks).trans (hinc' l hlks))]

/-! ## One page -/

theorem incRev_length (x : Bytes) : (incRev x).length = x.length := by
  induction x with
  | nil => rfl
  | cons c x ih =>
    rw [incRev]
    split <;> simp [ih]

theorem incStr_length (x : Bytes) : (incStr x).length = x.length := by
  simp [incStr, incRev_length]

def pageStart (b p marker : Bytes) : Bytes := makeKey b (if marker = [] then p else marker)

theorem cGetKeyRange_page (hL : Listable s b p) {start : Bytes}
    (hs : makeKey b p ≤ start) (n : Nat) :
    cGetKeyRange K s start (incStr (makeKey b p)) true true n =
      ((rangeKeys s b p).filter (start ≤ ·)).take n := by
  have hne : incStr (makeKey b p) ≠ [] := fun h => by
    have := congrArg List.length h
    simp [incStr_length, makeKey] at this
  have hrange : getKeyRange K s start (incStr (makeKey b p)) true true n =
      ((rangeKeys s b p).filter (start ≤ ·)).take n := by
    rw [getKeyRange, rangeKeys, keysWhere, keysWhere, List.filter_filter]
    congr 1
    refine List.filter_congr fun k _ => ?_
    rw [Bool.eq_iff_iff]
    simp only [inRange, hne, false_and, if_true, if_false, Bool.and_eq_true, decide_eq_true_eq]
    exact ⟨fun h => ⟨h.1, hs.trans h.1, h.2⟩, fun h => ⟨h.1, h.2.2⟩⟩
  rw [cGetKeyRange_eq, hrange]
  intro k hk
  rw [hrange] at hk
  obtain ⟨hc, q, c, rfl, -⟩ := hL k (List.mem_filter.1 (List.mem_of_mem_take hk)).1
  exact ⟨hc, by simp [makeKey]⟩

theorem visibleInfos_of_readable (hb : b ≠ []) (hL : Listable s b p) {keys : List Bytes}
    (hk : ∀ k ∈ keys, k ∈ rangeKeys s b p) (hr : ∀ k ∈ keys, readable K s k = true) :
    visibleInfos K s b keys = .ok (keys.filterMap (keyInfo s b)) := by
  induction keys with
  | nil => rfl
  | cons k keys ih =>
    have hread := hr k List.mem_cons_self
    obtain ⟨-, q, c, rfl, -⟩ := hL _ (hk k List.mem_cons_self)
    rw [visibleInfos, if_neg (by simp [makeKey]), makeKey_drop, getObjectInfo_makeKey hb]
    unfold readable at hread
    rcases hg : s.get? (makeKey b (q ++ [c])) with _ | ⟨m | bi, v⟩
    · simp [hg] at hread
    · have hmeta : unmarshalMeta K (.json m) = .ok m := if_pos (by simpa [hg] using hread)
      simp only [hmeta, ih (fun x hx => hk x (List.mem_cons_of_mem _ hx)) fun x hx =>
        hr x (List.mem_cons_of_mem _ hx)]
      cases hh : m.hidden <;> simp [FsMetaV1.toObjectInfo, keyInfo, hg, hh, makeKey_drop]
    · simp [hg] at hread

theorem readable_of_visibleInfos (hb : b ≠ []) (hL : Listable s b p) {keys : List Bytes}
    {objs : List ObjectInfo} (hk : ∀ k ∈ keys, k ∈ rangeKeys s b p)
    (h : visibleInfos K s b keys = .ok objs) : ∀ k ∈ keys, readable K s k = true := by
  induction keys generalizing objs with
  | nil => simp
  | cons k keys ih =>
    obtain ⟨-, q, c, rfl, -⟩ := hL _ (hk k List.mem_cons_self)
    rw [visibleInfos, if_neg (by simp [makeKey]), makeKey_drop] at h
    split at h
    · cases h
    next i hi =>
    split at h
    · cases h
    next objs' hobjs =>
    intro x hx
    rcases List.mem_cons.1 hx with rfl | hx
    · exact (getObjectInfo_eq_ok_iff hb).1 ⟨i, hi⟩
    · exact ih (fun y hy => hk y (List.mem_cons_of_mem _ hy)) hobjs x hx

/-- The keys of a page. -/
def pageKeys (s : Store) (b p marker : Bytes) (maxKeys : Int) : List Bytes :=
  ((rangeKeys s b p).filter (pageStart b p marker ≤ ·)).take (min maxKeys maxKeyRange).toNat

variable {marker : Bytes}

theorem pageKeys_subset (h : k ∈ pageKeys s b p marker maxKeys) : k ∈ rangeKeys s b p :=
  (List.mem_filter.1 (List.mem_of_mem_take h)).1

theorem listObjects_eq (hp : star ∉ p) (hm : 0 < maxKeys) (hL : Listable s b p)
    (hs : makeKey b p ≤ pageStart b p marker) :
    listObjects K s 2 b p marker [] maxKeys =
      some (match visibleInfos K s b (pageKeys s b p marker maxKeys) with
        | .error e => .error e
        | .ok objects =>
          if ((pageKeys s b p marker maxKeys).length : Int) < min maxKeys maxKeyRange ∨
              maxKeys ≤ maxKeyRange then .ok ⟨false, [], objects, []⟩
          else .ok ⟨true, (incStr ((pageKeys s b p marker maxKeys).getLast?.getD
            (pageStart b p marker))).drop (b.length + 1), objects, []⟩) := by
  have hstart : makeKey b (if marker = [] then p else marker) = pageStart b p marker := rfl
  have hkeys : cGetKeyRange K s (pageStart b p marker) (incStr (makeKey b p)) true true
      (min maxKeys maxKeyRange).toNat = pageKeys s b p marker maxKeys := cGetKeyRange_page hL hs _
  rw [listObjects_recursive (by omega) hp (by decide) hm, listPage]
  simp only [hstart, hkeys]
  congr 1
  cases visibleInfos K s b (pageKeys s b p marker maxKeys) with
  | error e => rfl
  | ok objects =>
  dsimp only
  split
  · rfl
  · rw [if_neg]
    rw [incStr_length]
    cases hl : (pageKeys s b p marker maxKeys).getLast? with
    | none => simp [pageStart, makeKey]
    | some k =>
      obtain ⟨-, q, c, rfl, -⟩ := hL k (pageKeys_subset (List.mem_of_getLast? hl))
      simp [makeKey]

/-- A page in the words of the range. -/
theorem listObjects_page (hb : b ≠ []) (hp : star ∉ p) (hm : 0 < maxKeys) (hL : Listable s b p)
    (hs : makeKey b p ≤ pageStart b p marker)
    (hr : ∀ k ∈ pageKeys s b p marker maxKeys, readable K s k = true) :
    listObjects K s 2 b p marker [] maxKeys =
      some (.ok (if ((pageKeys s b p marker maxKeys).length : Int) < min maxKeys maxKeyRange ∨
          maxKeys ≤ maxKeyRange then
          ⟨false, [], (pageKeys s b p marker maxKeys).filterMap (keyInfo s b), []⟩
        else ⟨true, (incStr ((pageKeys s b p marker maxKeys).getLast?.getD
            (pageStart b p marker))).drop (b.length + 1),
          (pageKeys s b p marker maxKeys).filterMap (keyInfo s b), []⟩)) := by
  rw [listObjects_eq hp hm hL hs, visibleInfos_of_readable hb hL (fun _ => pageKeys_subset) hr]
  dsimp only
  split <;> rfl

theorem readable_of_page (hb : b ≠ []) (hp : star ∉ p) (hm : 0 < maxKeys) (hL : Listable s b p)
    (hs : makeKey b p ≤ pageStart b p marker) {page : ListObjectsInfo}
    (h : listObjects K s 2 b p marker [] maxKeys = some (.ok page)) :
    ∀ k ∈ pageKeys s b p marker maxKeys, readable K s k = true := by
  rw [listObjects_eq hp hm hL hs] at h
  cases hv : visibleInfos K s b (pageKeys s b p marker maxKeys) with
  | error e => simp [hv] at h
  | ok objs => exact readable_of_visibleInfos hb hL (fun _ => pageKeys_subset) hv

/-! ## All pages -/

theorem Pages.unique {ps qs : List ListObjectsInfo}
    (h : Pages K s b p maxKeys marker ps) (h' : Pages K s b p maxKeys marker qs) : ps = qs := by
  induction h generalizing qs with
  | last hpage hend =>
    cases h' with
    | last hpage' hend' =>
      rw [hpage] at hpage'
      cases hpage'
      rfl
    | more hpage' hmore' _ =>
      rw [hpage] at hpage'
      cases hpage'
      rw [hend] at hmore'
      cases hmore'
  | more hpage hmore _ ih =>
    cases h' with
    | last hpage' hend' =>
      rw [hpage] at hpage'
      cases hpage'
      rw [hmore] at hend'
      cases hend'
    | more hpage' hmore' hrest' =>
      rw [hpage] at hpage'
      cases hpage'
      rw [ih hrest']

theorem pageKeys_of_large (hmax : maxKeyRange < maxKeys) (marker : Bytes) :
    pageKeys s b p marker maxKeys =
      ((rangeKeys s b p).filter (pageStart b p marker ≤ ·)).take 400 := by
  rw [pageKeys, min_eq_right hmax.le]
  rfl

section Large

variable (hmax : maxKeyRange < maxKeys) (hL : Listable s b p)
include hmax hL

/-- A page of 400 is full and a next one starts behind its last key, or is the last. -/
theorem pageWalk_page (marker : Bytes) :
    (pageKeys s b p marker maxKeys).length < 400 ∧
        pageWalk 399 (pageStart b p marker) (rangeKeys s b p) = pageKeys s b p marker maxKeys ∨
      ¬ (pageKeys s b p marker maxKeys).length < 400 ∧
        ∃ q c, (pageKeys s b p marker maxKeys).getLast? = some (makeKey b (q ++ [c])) ∧
          incStr (makeKey b (q ++ [c])) = makeKey b (q ++ [c + 1]) ∧
          pageStart b p marker < pageStart b p (q ++ [c + 1]) ∧
          ((rangeKeys s b p).filter (pageStart b p (q ++ [c + 1]) ≤ ·)).length <
            ((rangeKeys s b p).filter (pageStart b p marker ≤ ·)).length ∧
          pageWalk 399 (pageStart b p marker) (rangeKeys s b p) =
            pageKeys s b p marker maxKeys ++
              pageWalk 399 (pageStart b p (q ++ [c + 1])) (rangeKeys s b p) := by
  have hsorted : (rangeKeys s b p).Pairwise (· < ·) := keysWhere_sorted
  have hinc : ∀ k ∈ rangeKeys s b p, k < incStr k := fun k hk => by
    obtain ⟨-, q, c, rfl, hc⟩ := hL k hk
    exact lt_incStr hc
  have hwalk := pageWalk_eq hsorted hinc 399 (pageStart b p marker)
  rw [← pageKeys_of_large hmax] at hwalk
  by_cases hfull : (pageKeys s b p marker maxKeys).length < 400
  · rw [if_pos hfull, List.append_nil] at hwalk
    exact .inl ⟨hfull, hwalk⟩
  · obtain ⟨l, hl, hlast⟩ := exists_getLast?_of_full hfull
    have hlR := List.mem_filter.1 (List.mem_of_mem_take hl)
    obtain ⟨-, q, c, rfl, hc⟩ := hL l hlR.1
    have hnext : incStr (makeKey b (q ++ [c])) = makeKey b (q ++ [c + 1]) := by
      have := incStr_concat (b ++ slash :: q) hc
      simpa [makeKey] using this
    have hstart : pageStart b p (q ++ [c + 1]) = incStr (makeKey b (q ++ [c])) := by
      rw [pageStart, if_neg (by simp), hnext]
    have hlt : pageStart b p marker < pageStart b p (q ++ [c + 1]) := by
      rw [hstart]
      exact (show _ ≤ _ by simpa using hlR.2).trans_lt (lt_incStr hc)
    refine .inr ⟨hfull, q, c, hlast, hnext, hlt, ?_, ?_⟩
    · have hff : (rangeKeys s b p).filter (pageStart b p (q ++ [c + 1]) ≤ ·) =
          ((rangeKeys s b p).filter (pageStart b p marker ≤ ·)).filter
            (pageStart b p (q ++ [c + 1]) ≤ ·) := by
        rw [List.filter_filter]
        refine List.filter_congr fun k _ => ?_
        simpa using fun h => hlt.le.trans h
      rw [hff, List.length_filter_lt_length_iff_exists]
      refine ⟨_, List.mem_filter.2 hlR, ?_⟩
      rw [hstart]
      simpa using lt_incStr hc
    · rw [hwalk, if_neg hfull, hlast, Option.getD_some, hstart]

theorem pages_of_large (hb : b ≠ []) (hp : star ∉ p) (n : Nat) (marker : Bytes)
    (hn : ((rangeKeys s b p).filter (pageStart b p marker ≤ ·)).length = n)
    (hs : makeKey b p ≤ pageStart b p marker)
    (hr : ∀ k ∈ pageWalk 399 (pageStart b p marker) (rangeKeys s b p), readable K s k = true) :
    ∃ pages, Pages K s b p maxKeys marker pages ∧
      pages.flatMap ListObjectsInfo.objects =
        (pageWalk 399 (pageStart b p marker) (rangeKeys s b p)).filterMap (keyInfo s b) ∧
      ∀ page ∈ pages, page.objects.length + page.prefixes.length ≤ 400 := by
  induction n using Nat.strong_induction_on generalizing marker with
  | _ n ih =>
  have hm : 0 < maxKeys := by simp [maxKeyRange] at hmax; omega
  have h400 : min maxKeys maxKeyRange = 400 := min_eq_right hmax.le
  have hlen : ((pageKeys s b p marker maxKeys).filterMap (keyInfo s b)).length ≤ 400 :=
    (List.length_filterMap_le _ _).trans (by rw [pageKeys_of_large hmax]; simp)
  rcases pageWalk_page hmax hL marker with ⟨hfull, hwalk⟩ |
    ⟨hfull, q, c, hlast, hnext, hlt, hfewer, hwalk⟩
  · rw [hwalk] at hr ⊢
    have hpage := listObjects_page hb hp hm hL hs hr
    rw [if_pos (.inl (by omega))] at hpage
    exact ⟨_, .last hpage rfl, by simp, by simpa using hlen⟩
  · rw [hwalk] at hr ⊢
    have hpage := listObjects_page hb hp hm hL hs fun k hk => hr k (List.mem_append_left _ hk)
    rw [if_neg (by omega), hlast, Option.getD_some, hnext, makeKey_drop] at hpage
    obtain ⟨pages, hpages, hflat, hbound⟩ := ih _ (hn ▸ hfewer) (q ++ [c + 1]) rfl (hs.trans hlt.le)
      fun k hk => hr k (List.mem_append_right _ hk)
    refine ⟨_, .more hpage rfl hpages, ?_, ?_⟩
    · rw [List.flatMap_cons, hflat, List.filterMap_append]
    · intro page hmem
      rcases List.mem_cons.1 hmem with rfl | hmem
      · simpa using hlen
      · exact hbound page hmem

theorem readable_of_pages_large (hb : b ≠ []) (hp : star ∉ p) {marker : Bytes}
    {pages : List ListObjectsInfo} (h : Pages K s b p maxKeys marker pages)
    (hs : makeKey b p ≤ pageStart b p marker) :
    ∀ k ∈ pageWalk 399 (pageStart b p marker) (rangeKeys s b p), readable K s k = true := by
  have hm : 0 < maxKeys := by simp [maxKeyRange] at hmax; omega
  have h400 : min maxKeys maxKeyRange = 400 := min_eq_right hmax.le
  induction h with
  | @last marker page hpage hend =>
    have hread := readable_of_page hb hp hm hL hs hpage
    rcases pageWalk_page hmax hL marker with ⟨-, hwalk⟩ | ⟨hfull, q, c, hlast, hnext, hlt, -, hwalk⟩
    · rwa [hwalk]
    · rw [listObjects_page hb hp hm hL hs hread, if_neg (by omega)] at hpage
      cases hpage
      cases hend
  | @more marker page pages hpage hmore _ ih =>
    have hread := readable_of_page hb hp hm hL hs hpage
    rcases pageWalk_page hmax hL marker with ⟨-, hwalk⟩ | ⟨hfull, q, c, hlast, hnext, hlt, -, hwalk⟩
    · rwa [hwalk]
    · rw [listObjects_page hb hp hm hL hs hread, if_neg (by omega), hlast, Option.getD_some, hnext,
        makeKey_drop] at hpage
      cases hpage
      intro k hk
      rw [hwalk] at hk
      rcases List.mem_append.1 hk with hk | hk
      · exact hread k hk
      · exact ih (hs.trans hlt.le) k hk

end Large

theorem pageStart_nil (b p : Bytes) : pageStart b p [] = makeKey b p := rfl

theorem pageKeys_nil (hmax : maxKeys ≤ maxKeyRange) :
    pageKeys s b p [] maxKeys = (rangeKeys s b p).take maxKeys.toNat := by
  have hall : (rangeKeys s b p).filter (makeKey b p ≤ ·) = rangeKeys s b p :=
    List.filter_eq_self.2 fun k hk => by simpa using (mem_rangeKeys.1 hk).2.1
  rw [pageKeys, pageStart_nil, hall, min_eq_left hmax]

/-- The pages hold the visible objects among the keys they look at. -/
theorem pages_exist (hb : b ≠ []) (hp : star ∉ p) (hm : 0 < maxKeys) (hL : Listable s b p)
    (hr : ∀ k ∈ visitedKeys s b p maxKeys, readable K s k = true) :
    ∃ pages, Pages K s b p maxKeys [] pages ∧
      pages.flatMap ListObjectsInfo.objects =
        (visitedKeys s b p maxKeys).filterMap (keyInfo s b) ∧
      ∀ page ∈ pages, ((page.objects.length + page.prefixes.length : Nat) : Int) ≤ maxKeys := by
  have hstart : makeKey b p ≤ pageStart b p [] := le_rfl
  unfold visitedKeys at hr ⊢
  by_cases hmax : maxKeys ≤ maxKeyRange
  · -- one page, and it never says that there are more
    rw [if_pos hmax, ← pageKeys_nil hmax] at hr ⊢
    have hpage := listObjects_page hb hp hm hL hstart hr
    rw [if_pos (.inr hmax)] at hpage
    refine ⟨_, .last hpage rfl, by simp, ?_⟩
    have hlen : ((pageKeys s b p [] maxKeys).filterMap (keyInfo s b)).length ≤ maxKeys.toNat :=
      (List.length_filterMap_le _ _).trans (by rw [pageKeys_nil hmax]; simp)
    simp only [List.mem_singleton, forall_eq, List.length_nil, Nat.add_zero]
    omega
  · rw [if_neg hmax] at hr ⊢
    obtain ⟨pages, hpages, hflat, hbound⟩ :=
      pages_of_large (not_le.1 hmax) hL hb hp _ [] rfl hstart hr
    refine ⟨pages, hpages, hflat, fun page hpage => ?_⟩
    have := hbound page hpage
    simp only [maxKeyRange] at hmax
    omega

theorem readable_of_pages (hb : b ≠ []) (hp : star ∉ p) (hm : 0 < maxKeys) (hL : Listable s b p)
    {pages : List ListObjectsInfo} (h : Pages K s b p maxKeys [] pages) :
    ∀ k ∈ visitedKeys s b p maxKeys, readable K s k = true := by
  have hstart : makeKey b p ≤ pageStart b p [] := le_rfl
  unfold visitedKeys
  split
  · next hmax =>
    rw [← pageKeys_nil hmax]
    cases h with
    | last hpage _ => exact readable_of_page hb hp hm hL hstart hpage
    | more hpage _ _ => exact readable_of_page hb hp hm hL hstart hpage
  · next hmax => exact readable_of_pages_large (not_le.1 hmax) hL hb hp h hstart

/-! ## Keys and objects -/

theorem name_of_keyInfo {o : Bytes} {i : ObjectInfo} (h : keyInfo s b (makeKey b o) = some i) :
    i.name = o := by
  unfold keyInfo at h
  split at h
  · split at h
    · cases h
    · cases h
      exact makeKey_drop b o
  · cases h

theorem filterMap_keyInfo_inj {l l' : List Bytes} (hl : ∀ k ∈ l, ∃ o, k = makeKey b o)
    (hl' : ∀ k ∈ l', ∃ o, k = makeKey b o) :
    l.filterMap (keyInfo s b) = l'.filterMap (keyInfo s b) ↔
      l.filter (fun k => (keyInfo s b k).isSome) = l'.filter (fun k => (keyInfo s b k).isSome) := by
  have hback (l : List Bytes) (hl : ∀ k ∈ l, ∃ o, k = makeKey b o) :
      (l.filterMap (keyInfo s b)).map (fun i => makeKey b i.name) =
        l.filter (fun k => (keyInfo s b k).isSome) := by
    induction l with
    | nil => rfl
    | cons k l ih =>
      have hrest := ih fun x hx => hl x (List.mem_cons_of_mem _ hx)
      obtain ⟨o, rfl⟩ := hl k List.mem_cons_self
      cases hi : keyInfo s b (makeKey b o) with
      | none => simp [hi, hrest]
      | some i => simp [hi, hrest, name_of_keyInfo hi]
  have hdrop (l : List Bytes) :
      (l.filter (fun k => (keyInfo s b k).isSome)).filterMap (keyInfo s b) =
          l.filterMap (keyInfo s b) := by
    rw [List.filterMap_filter]
    refine List.filterMap_congr fun k _ => ?_
    cases keyInfo s b k <;> simp
  constructor
  · intro h
    rw [← hback l hl, ← hback l' hl', h]
  · intro h
    rw [← hdrop l, ← hdrop l', h]

theorem visitedKeys_sublist : (visitedKeys s b p maxKeys).Sublist (rangeKeys s b p) := by
  unfold visitedKeys
  split
  · exact List.take_sublist _ _
  · exact pageWalk_sublist _ _ _

theorem visitedKeys_eq_rangeKeys_iff (hm : 0 < maxKeys) :
    visitedKeys s b p maxKeys = rangeKeys s b p ↔
      if maxKeys ≤ maxKeyRange then ((rangeKeys s b p).length : Int) ≤ maxKeys
        else PageGaps (rangeKeys s b p) := by
  unfold visitedKeys
  split
  · rw [List.take_eq_self_iff]
    omega
  · exact pageWalk_eq_self_iff keysWhere_sorted (by decide) fun k hk => (mem_rangeKeys.1 hk).2.1

theorem paginationLaw_iff_visitedKeys (hb : b ≠ []) (hp : star ∉ p) (hm : 0 < maxKeys)
    (hL : Listable s b p) :
    PaginationLaw K s b p maxKeys ↔
      (∀ k ∈ visitedKeys s b p maxKeys, readable K s k = true) ∧
        ∀ k ∈ rangeKeys s b p, (keyInfo s b k).isSome = true →
          (k ∈ visitedKeys s b p maxKeys ↔ makeKey b p <+: k) := by
  have hlaw : PaginationLaw K s b p maxKeys ↔
    (∀ k ∈ visitedKeys s b p maxKeys, readable K s k = true) ∧
      (visitedKeys s b p maxKeys).filterMap (keyInfo s b) =
        (s.keysWhere fun k => hasPrefix k (makeKey b p)).filterMap (keyInfo s b) := by
    constructor
    · rintro ⟨pages', hpages', h, -⟩
      have hr := readable_of_pages hb hp hm hL hpages'
      obtain ⟨pages, hpages, hflat, hbound⟩ := pages_exist hb hp hm hL hr
      exact ⟨hr, by rw [← hflat, hpages.unique hpages', h]⟩
    · rintro ⟨hr, h⟩
      obtain ⟨pages, hpages, hflat, hbound⟩ := pages_exist hb hp hm hL hr
      exact ⟨pages, hpages, hflat.trans h, hbound⟩
  have hmk {k : Bytes} (hk : k ∈ rangeKeys s b p) : ∃ o, k = makeKey b o := by
    obtain ⟨-, q, c, rfl, -⟩ := hL k hk
    exact ⟨_, rfl⟩
  rw [hlaw, filterMap_keyInfo_inj (fun k hk => hmk (visitedKeys_sublist.subset hk))
    fun k hk => hmk (mem_keysWhere_prefix_iff.1 hk).1]
  refine and_congr_right fun _ => ?_
  -- both lists are in order, so they are compared by their members
  have hsorted : (visitedKeys s b p maxKeys).Pairwise (· < ·) :=
    keysWhere_sorted.sublist visitedKeys_sublist
  constructor
  · intro h k hk hvis
    have hiff : k ∈ (visitedKeys s b p maxKeys).filter (fun k => (keyInfo s b k).isSome) ↔
        k ∈ (s.keysWhere fun k => hasPrefix k (makeKey b p)).filter (fun k =>
            (keyInfo s b k).isSome) := by
      rw [h]
    simpa [List.mem_filter, hvis, mem_keysWhere_prefix_iff, hk] using hiff
  · intro h
    refine eq_of_sorted_of_mem_iff (hsorted.sublist List.filter_sublist)
      (keysWhere_sorted.sublist List.filter_sublist) fun k => ?_
    rw [List.mem_filter, List.mem_filter, mem_keysWhere_prefix_iff]
    constructor
    · rintro ⟨hk, hvis⟩
      have hR := visitedKeys_sublist.subset hk
      exact ⟨⟨hR, (h k hR hvis).1 hk⟩, hvis⟩
    · rintro ⟨⟨hR, hpre⟩, hvis⟩
      exact ⟨(h k hR hvis).2 hpre, hvis⟩

theorem pagination_iff (hb : b ≠ []) (hp : star ∉ p) (hm : 0 < maxKeys) (hL : Listable s b p)
    (_hnames : CListing s b p) :
    (PaginationLaw K s b p maxKeys ↔
      (∀ k ∈ visitedKeys s b p maxKeys, readable K s k = true) ∧
        ∀ k ∈ rangeKeys s b p, (keyInfo s b k).isSome = true →
          (k ∈ visitedKeys s b p maxKeys ↔ makeKey b p <+: k)) ∧
    ((∀ k ∈ rangeKeys s b p, (keyInfo s b k).isSome = true ∧ makeKey b p <+: k) →
      (PaginationLaw K s b p maxKeys ↔
        (∀ k ∈ rangeKeys s b p, readable K s k = true) ∧
          if maxKeys ≤ maxKeyRange then ((rangeKeys s b p).length : Int) ≤ maxKeys
          else PageGaps (rangeKeys s b p))) := by
  have hlaw := paginationLaw_iff_visitedKeys (K := K) hb hp hm hL
  refine ⟨hlaw, fun hall => hlaw.trans ?_⟩
  rw [← visitedKeys_eq_rangeKeys_iff hm]
  constructor
  · rintro ⟨hread, hiff⟩
    have heq : visitedKeys s b p maxKeys = rangeKeys s b p :=
      eq_of_sorted_of_mem_iff (keysWhere_sorted.sublist visitedKeys_sublist)
          keysWhere_sorted fun k =>
        ⟨fun hk => visitedKeys_sublist.subset hk,
          fun hk => (hiff k hk (hall k hk).1).2 (hall k hk).2⟩
    exact ⟨heq ▸ hread, heq⟩
  · rintro ⟨hread, heq⟩
    rw [heq]
    exact ⟨hread, fun k hk _ => iff_of_true hk (hall k hk).2⟩

/-- A bucket with the objects `a` and `b`. -/
def twoObjects : List Op :=
  onlyObject (lit "a") ++
    [.putObject (lit "bkt") (lit "b") (bodyReader (lit "data") (List.replicate 16 7)) ∅ 3]

/-- The page of size ten has both. -/
theorem pagination_twoObjects :
    PaginationLaw (memoryDrive []) (memoryRun twoObjects) (lit "bkt") [] 10 := by
  have hrange : rangeKeys (memoryRun twoObjects) (lit "bkt") [] =
      [makeKey (lit "bkt") (lit "a"), makeKey (lit "bkt") (lit "b")] := by decide +kernel
  refine ((pagination_iff (by decide) (by decide) (by decide) ?_ ?_).2 ?_).2 ?_
  · intro k hk
    rw [hrange, List.mem_pair] at hk
    rcases hk with rfl | rfl
    exacts [⟨by decide, [], 97, by decide⟩, ⟨by decide, [], 98, by decide⟩]
  · refine ⟨by decide, by decide, ?_⟩
    rw [hrange]
    decide
  · rw [hrange]
    decide +kernel
  · rw [hrange, if_pos (by decide)]
    decide +kernel

/-- The only page of size one: the second object is never listed. -/
theorem pagination_stops_early :
    ¬ PaginationLaw (memoryDrive []) (memoryRun twoObjects) (lit "bkt") [] 1 := by
  have hpage : listObjects (memoryDrive []) (memoryRun twoObjects) 2 (lit "bkt") [] [] [] 1 =
      some (.ok ⟨false, [],
        [⟨lit "bkt", lit "a", 2, 4, false, false, hexEncode (List.replicate 16 7), []⟩], []⟩) := by
    decide +kernel
  rintro ⟨pages, hpages, hflat, -⟩
  rw [hpages.unique (.last hpage rfl)] at hflat
  revert hflat
  decide

end S3Kinetic
