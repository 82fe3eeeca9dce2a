import S3Kinetic.EndToEnd
import S3Kinetic.Lib.MarkerPages

/-!
# Listing the parts of an upload

`PutObjectPart` stores a part under the next version of the object. `ListObjectParts` lists the part
files under the current one: the parts of the object as it is, if it has any, and never those of the
upload. The marker is looked for by equality, so a page behind a number that is not there is empty.

`listObjectParts_iff` gives the exact conditions in terms of the part keys under the current
version: for paging from the start, and for paging with the pages behind every marker.
-/

namespace S3Kinetic

open ByteString Decimal OrdMap MarkerPages

/-! ## The listing -/

structure PartId where
  number : Int
  etag : Bytes
  actualSize : Int
  deriving DecidableEq

/-- `decodePartFile`. -/
def decodePartFile (name : Bytes) : Option PartId :=
  match name.splitOn dot with
  | [number, etag, size] =>
    match parseInt64 number, parseInt64 size with
    | (partNumber, none), (actualSize, none) => some ⟨partNumber, etag, actualSize⟩
    | _, _ => none
  | _ => none

structure ListPartsInfo where
  bucket : Bytes
  object : Bytes
  uploadID : Bytes
  partNumberMarker : Int
  nextPartNumberMarker : Int
  maxParts : Int
  isTruncated : Bool
  parts : List PartInfo
  userDefined : OrdMap Bytes Bytes

section Model

variable (K : Kineticd)

/-- One turn of the loop over the part files. Of two files of a number, the one with the later time
stays. -/
def addPartFile (s : Store) (startKey : Bytes) (keys : List Bytes)
    (partsMap : OrdMap Int Bytes) (k : Bytes) :
    Except Err (OrdMap Int Bytes) :=
  if k = metaJSONFile then .ok partsMap
  else
    match decodePartFile k with
    | none => .ok partsMap
    | some ⟨partNumber, etag1, _⟩ =>
      match partsMap.get? partNumber with
      | none => .ok (partsMap.insert partNumber etag1)
      | some etag2 =>
        match koStat K s (startKey ++ getPartKO keys partNumber etag1) with
        | .error e => .error (toObjectErr e [])
        | .ok stat1 =>
          match koStat K s (startKey ++ getPartKO keys partNumber etag2) with
          | .error e => .error (toObjectErr e [])
          | .ok stat2 =>
            .ok (if stat1.createdTime > stat2.createdTime then partsMap.insert partNumber etag1
              else partsMap)

def addPartFiles (s : Store) (startKey : Bytes) (keys : List Bytes) :
    OrdMap Int Bytes → List Bytes → Except Err (OrdMap Int Bytes)
  | partsMap, [] => .ok partsMap
  | partsMap, k :: ks =>
    match addPartFile K s startKey keys partsMap k with
    | .error e => .error e
    | .ok partsMap => addPartFiles s startKey keys partsMap ks

/-- The parts with the sizes that their file names end in. -/
def sizeParts (keys : List Bytes) : List (Int × Bytes) → Except Err (List PartId)
  | [] => .ok []
  | (partNumber, etag) :: entries =>
    match findPart keys ⟨partNumber, etag⟩ with
    | .error _ => .error (.invalidPart 0 [])
    | .ok (_, actualSize) =>
      match sizeParts keys entries with
      | .error e => .error e
      | .ok parts => .ok (⟨partNumber, etag, actualSize⟩ :: parts)

/-- The parts under a version, in the order of their numbers. The source ranges over the map in any
order and sorts afterwards; the errors on the way are all the same. -/
def versionParts (s : Store) (objKey vers : Bytes) : Except Err (List PartId) :=
  match stripKeys (partsKey objKey vers) (partKeyRange K s objKey vers) with
  | .error e => .error e
  | .ok keys =>
    match addPartFiles K s (partsKey objKey vers) keys ∅ keys with
    | .error e => .error e
    | .ok partsMap => sizeParts keys partsMap.entries

/-- The parts of a page with the times they were stored at. -/
def statParts (s : Store) (startKey : Bytes) : List PartId → Except Err (List PartInfo)
  | [] => .ok []
  | p :: ps =>
    match koStat K s (startKey ++ encodePartFile p.number p.etag p.actualSize) with
    | .error e => .error (toObjectErr e [])
    | .ok stat =>
      match statParts s startKey ps with
      | .error e => .error e
      | .ok infos => .ok (⟨p.number, stat.createdTime, p.etag, p.actualSize, p.actualSize⟩ :: infos)

/-- The record of an upload; a text over 1 GiB does not fit the cast. -/
def uploadRecord (s : Store) (objKey uploadID : Bytes) : Except Err FsMetaV1 :=
  match cGetMeta s (jsonKey objKey uploadID) with
  | .error _ => .error .errFileNotFound
  | .ok (.gob _) => .error .errUnmarshal
  | .ok (.json m) => if (K.marshal m).length ≤ 2 ^ 30 then .ok m else .error .panic

/-- `ListObjectParts`. That the bucket exists is asked twice, with the same answer. -/
def listObjectParts (s : Store) (bucket object uploadID : Bytes) (partNumberMarker maxParts : Int) :
    Except Err ListPartsInfo :=
  match checkObjectArgs K s bucket object with
  | some e => .error (toObjectErr e [])
  | none =>
    let objKey := makeKey bucket object
    match currentVersion K s objKey with
    | .error e => .error e
    | .ok vers =>
      match versionParts K s objKey vers with
      | .error e => .error e
      | .ok parts =>
        let rest := skipTo PartId.number partNumberMarker parts
        let page := rest.take maxParts.toNat
        match statParts K s (partsKey objKey vers) page with
        | .error e => .error e
        | .ok infos =>
          match uploadRecord K s objKey uploadID with
          | .error e => .error e
          | .ok m =>
            .ok
              { bucket
                object
                uploadID
                partNumberMarker
                nextPartNumberMarker :=
                  if maxParts.toNat < rest.length then (page.getLast?.map PartId.number).getD 0
                    else 0
                maxParts
                isTruncated := maxParts.toNat < rest.length
                parts := infos
                userDefined := m.entries }

end Model

/-! ## Names of part files -/

section Names

open List

def PartId.name (p : PartId) : Bytes := encodePartFile p.number p.etag p.actualSize

structure PartId.Valid (p : PartId) : Prop where
  number : 1 ≤ p.number ∧ p.number ≤ 10000
  etag : dot ∉ p.etag
  size : 0 ≤ p.actualSize ∧ p.actualSize < 2 ^ 63

theorem dot_not_mem_padInt (n : Int) : dot ∉ padInt 5 n := fun h => by
  rcases padInt_digit_or_minus h with h | h <;> exact absurd h (by decide)

theorem dot_not_mem_formatInt (n : Int) : dot ∉ formatInt n := fun h => by
  rcases formatInt_digit_or_minus h with h | h <;> exact absurd h (by decide)

theorem splitOn_two_dots {a e : Bytes} (ha : dot ∉ a) (he : dot ∉ e) (t : Bytes) :
    (a ++ dot :: (e ++ dot :: t)).splitOn dot = a :: e :: t.splitOn dot := by
  obtain ⟨x, l, ht⟩ := exists_cons_of_ne_nil (splitOn_ne_nil dot t)
  have htext : a ++ dot :: (e ++ dot :: t) = [dot].intercalate (a :: e :: t.splitOn dot) := by
    rw [ht, intercalate_cons_cons, intercalate_cons_cons, ← ht, intercalate_splitOn]
    simp
  rw [htext, splitOn_intercalate]
  · intro p hp
    rcases mem_cons.1 hp with rfl | hp
    · exact ha
    rcases mem_cons.1 hp with rfl | hp
    · exact he
    · exact sep_not_mem_of_mem_splitOn hp
  · simp

theorem splitOn_encodePartFile {e : Bytes} (he : dot ∉ e) (n size : Int) :
    (encodePartFile n e size).splitOn dot = [padInt 5 n, e, formatInt size] := by
  rw [encodePartFile, splitOn_two_dots (dot_not_mem_padInt n) he,
    splitOn_eq_singleton (dot_not_mem_formatInt size)]

theorem PartId.Valid.decode {p : PartId} (h : p.Valid) :
    decodePartFile p.name = some p := by
  have hnumber := h.number
  have hsize := h.size
  unfold decodePartFile PartId.name
  simp only [splitOn_encodePartFile h.etag]
  rw [parseInt64_padInt (by omega) (by omega), parseInt64_formatInt (by omega) hsize.2]

theorem PartId.Valid.hasPrefix_iff {p : PartId} (h : p.Valid) {n : Int} (hn : 1 ≤ n ∧ n ≤ 10000)
    {e : Bytes} (he : dot ∉ e) :
    hasPrefix p.name (padInt 5 n ++ dot :: (e ++ [dot])) = true ↔ p.number = n ∧ p.etag = e := by
  have hnumber := h.number
  rw [hasPrefix, isPrefixOf_iff_prefix]
  constructor
  · rintro ⟨t, ht⟩
    have hsplit := splitOn_two_dots (dot_not_mem_padInt n) he t
    rw [show padInt 5 n ++ dot :: (e ++ dot :: t) = p.name by rw [← ht]; simp, PartId.name,
      splitOn_encodePartFile h.etag] at hsplit
    obtain ⟨hpad, hrest⟩ := cons.inj hsplit
    have hparse := congrArg parseInt64 hpad
    rw [parseInt64_padInt (by omega) (by omega), parseInt64_padInt (by omega) (by omega)] at hparse
    exact ⟨(Prod.mk.inj hparse).1, (cons.inj hrest).1⟩
  · rintro ⟨rfl, rfl⟩
    exact ⟨formatInt p.actualSize, by simp [PartId.name, encodePartFile]⟩

end Names

/-- The key of a part under a version. -/
def PartId.key (k v : Bytes) (p : PartId) : Bytes := partKey k v p.number p.etag p.actualSize

/-! ## The law -/

def PartInfo.id (p : PartInfo) : PartId := ⟨p.partNumber, p.etag, p.actualSize⟩

def ListPartsInfo.page (r : ListPartsInfo) : List PartId × Option Int :=
  (r.parts.map PartInfo.id, if r.isTruncated then some r.nextPartNumberMarker else none)

/-- The last upload of each number, by number. -/
def latest (ups : List PartUpload) : List PartId :=
  (ups.foldl (fun m p => m.insert p.info.partNumber p.info.id) (∅ : OrdMap Int PartId)).entries.map
    Prod.snd

section Law

variable (K : Kineticd) (s : Store) (b o u : Bytes) (ups : List PartUpload)

/-- The upload `u` is in progress in `s`, and its parts so far are `ups`. -/
structure OngoingUpload : Prop where
  args : checkObjectArgs K s b o = none
  record : ∃ m, uploadRecord K s (makeKey b o) u = .ok m
  parts : ∃ s₀, Uploads K b o u s₀ ups s

/-- Following the markers from the start returns the last upload of each number once, in increasing
order. -/
def PagesLaw : Prop :=
  ∀ maxParts : Int, 1 ≤ maxParts →
    MarkerPages.Pages (fun m => ((listObjectParts K s b o u m maxParts).toOption).map
      ListPartsInfo.page) 0 (latest ups)

/-- `L` are the parts under the current version `v`. -/
structure Lists (v : Bytes) (L : List PartId) : Prop where
  version : currentVersion K s (makeKey b o) = .ok v
  parts : versionParts K s (makeKey b o) v = .ok L

end Law

variable {K : Kineticd} {s : Store} {b o u v : Bytes} {ups : List PartUpload} {L : List PartId}

/-- The part has a record, which fits the cast and can still be decoded when its memory has been
freed. -/
def statable (K : Kineticd) (s : Store) (objKey vers : Bytes) (p : PartId) : Bool :=
  match s.get? (p.key objKey vers) with
  | none => false
  | some r =>
    unmarshalMeta K r.blob ≠ .error .panic ∧ (K.afterFree s (p.key objKey vers) r.blob).isSome

theorem koStat_ok_iff {k : Bytes} {p : PartId} : (∃ fi, koStat K s (p.key k v) = .ok fi) ↔
    statable K s k v p = true := by
  unfold koStat statable cGetMeta unmarshalFreed
  cases s.get? (p.key k v) with
  | none => simp
  | some r =>
    obtain ⟨_ | _, value⟩ := r
    · next m =>
      by_cases hlen : (K.marshal m).length ≤ maxMetaBytes <;>
        cases hfree : K.afterFree s (p.key k v) (.json m) <;> simp [unmarshalMeta, hlen, hfree]
    · next bi => cases hfree : K.afterFree s (p.key k v) (.gob bi) <;> simp [unmarshalMeta, hfree]

theorem statParts_eq {k : Bytes} (ps : List PartId) :
    ((statParts K s (partsKey k v) ps).toOption).map (List.map PartInfo.id) =
      if ps.all (statable K s k v) then some ps else none := by
  induction ps with
  | nil => rfl
  | cons p ps ih =>
    have hstat : (∃ fi, koStat K s (partsKey k v ++ encodePartFile p.number p.etag p.actualSize) =
      .ok fi) ↔
        statable K s k v p = true := koStat_ok_iff
    rw [statParts, List.all_cons]
    cases hk : koStat K s (partsKey k v ++ encodePartFile p.number p.etag p.actualSize) with
    | error e =>
      have hnot : statable K s k v p = false := by
        rw [← Bool.not_eq_true, ← hstat]
        simp [hk]
      simp [hnot, Except.toOption]
    | ok fi =>
      rw [hstat.1 ⟨fi, hk⟩, Bool.true_and]
      cases hps : statParts K s (partsKey k v) ps with
      | error e =>
        rw [hps] at ih
        have hnot : ps.all (statable K s k v) = false := by
          by_contra hall
          rw [Bool.not_eq_false] at hall
          simp [hall, Except.toOption] at ih
        simp [hnot, Except.toOption]
      | ok infos =>
        rw [hps] at ih
        have hall : ps.all (statable K s k v) = true := by
          by_contra hnot
          rw [if_neg hnot] at ih
          simp [Except.toOption] at ih
        rw [if_pos hall] at ih ⊢
        have hids : infos.map PartInfo.id = ps := Option.some.inj ih
        simp [Except.toOption, PartInfo.id, ← hids]

theorem sizeParts_fst {keys : List Bytes} {entries : List (Int × Bytes)}
    (h : sizeParts keys entries = .ok L) :
    L.map PartId.number = entries.map Prod.fst := by
  induction entries generalizing L with
  | nil =>
    cases h
    rfl
  | cons e entries ih =>
    obtain ⟨n, etag⟩ := e
    rw [sizeParts] at h
    split at h
    · cases h
    · cases hrest : sizeParts keys entries with
      | error e =>
        simp only [hrest] at h
        cases h
      | ok parts =>
        simp only [hrest] at h
        cases h
        rw [List.map_cons, List.map_cons, ih hrest]

theorem Lists.sorted (h : Lists K s b o v L) : (L.map PartId.number).Pairwise (· < ·) := by
  have hparts := h.parts
  unfold versionParts at hparts
  cases hkeys : stripKeys (partsKey (makeKey b o) v) (partKeyRange K s (makeKey b o) v) with
  | error e =>
    simp only [hkeys] at hparts
    cases hparts
  | ok keys =>
    simp only [hkeys] at hparts
    cases hmap : addPartFiles K s (partsKey (makeKey b o) v) keys ∅ keys with
    | error e =>
      simp only [hmap] at hparts
      cases hparts
    | ok partsMap =>
      simp only [hmap] at hparts
      rw [sizeParts_fst hparts]
      exact partsMap.keys_sorted

theorem Lists.nodup (h : Lists K s b o v L) : (L.map PartId.number).Nodup := h.sorted.imp ne_of_lt

theorem listObjectParts_page (hin : OngoingUpload K s b o u ups) (hL : Lists K s b o v L)
    (m maxParts : Int) :
    (listObjectParts K s b o u m maxParts).toOption.map ListPartsInfo.page =
      pageFrom PartId.number (statable K s (makeKey b o) v) L maxParts.toNat m := by
  obtain ⟨fsMeta, hrecord⟩ := hin.record
  have hstat := statParts_eq (K := K) (s := s) (v := v) (k := makeKey b o)
    ((skipTo PartId.number m L).take maxParts.toNat)
  unfold listObjectParts pageFrom
  simp only [hin.args, hL.version, hL.parts]
  cases hinfos : statParts K s (partsKey (makeKey b o) v)
      ((skipTo PartId.number m L).take maxParts.toNat) with
  | error e =>
    rw [hinfos] at hstat
    split_ifs at hstat with hall
    · simp [Except.toOption] at hstat
    · rw [if_neg hall]
      rfl
  | ok infos =>
    rw [hinfos] at hstat
    split_ifs at hstat with hall
    · have hids : infos.map PartInfo.id = _ := Option.some.inj hstat
      rw [if_pos hall]
      simp only [hrecord, Except.toOption, Option.map_some, ListPartsInfo.page, hids,
        decide_eq_true_eq]
      split_ifs <;> rfl
    · simp [Except.toOption] at hstat

theorem exists_lists_of_ok {m maxParts : Int} {r : ListPartsInfo}
    (h : listObjectParts K s b o u m maxParts = .ok r) :
    ∃ v L, Lists K s b o v L := by
  unfold listObjectParts at h
  cases hargs : checkObjectArgs K s b o with
  | some e =>
    simp only [hargs] at h
    cases h
  | none =>
    simp only [hargs] at h
    cases hv : currentVersion K s (makeKey b o) with
    | error e =>
      simp only [hv] at h
      cases h
    | ok v =>
      simp only [hv] at h
      cases hL : versionParts K s (makeKey b o) v with
      | error e =>
        simp only [hL] at h
        cases h
      | ok L => exact ⟨v, L, hv, hL⟩

theorem Lists.unique {v' : Bytes} {L' : List PartId} (h : Lists K s b o v L)
    (h' : Lists K s b o v' L') : v = v' ∧ L = L' := by
  obtain ⟨hv, hL⟩ := h
  obtain ⟨hv', hL'⟩ := h'
  rw [hv] at hv'
  cases hv'
  rw [hL] at hL'
  cases hL'
  exact ⟨rfl, rfl⟩

theorem pagesLaw_iff (hin : OngoingUpload K s b o u ups) :
    PagesLaw K s b o u ups ↔ ∃ v, Lists K s b o v (latest ups) ∧
      (∀ p ∈ latest ups, statable K s (makeKey b o) v p = true) ∧ ∀ p ∈ (latest ups).dropLast,
        p.number ≠ 0 := by
  constructor
  · intro hlaw
    obtain ⟨r, hr⟩ : ∃ r, listObjectParts K s b o u 0 1 = .ok r := by
      have hpage := (hlaw 1 le_rfl).exists_page
      cases hcall : listObjectParts K s b o u 0 1 with
      | error e =>
        rw [hcall] at hpage
        simp [Except.toOption] at hpage
      | ok r => exact ⟨r, rfl⟩
    obtain ⟨v, L, hL⟩ := exists_lists_of_ok hr
    have hpages : ∀ n ≥ 1, MarkerPages.Pages (pageFrom PartId.number (statable K s (makeKey b o) v)
        L n) 0 (latest ups) := by
      intro n hn
      have h := hlaw n (by omega)
      simp only [listObjectParts_page hin hL] at h
      exact h
    obtain ⟨rfl, hstat, hzero⟩ := (pages_iff hL.nodup).1 hpages
    exact ⟨v, hL, hstat, hzero⟩
  · rintro ⟨v, hL, hstat, hzero⟩ maxParts hmax
    simp only [listObjectParts_page hin hL]
    exact (pages_iff hL.nodup).2 ⟨rfl, hstat, hzero⟩ maxParts.toNat (by omega)

/-! ## The page behind a marker -/

/-- The first 800 keys under the current version are part keys, of parts with different numbers. -/
structure CurrentParts (K : Kineticd) (s : Store) (k v : Bytes) (ps : List PartId) : Prop where
  version : currentVersion K s k = .ok v
  keys : partWindow s k v = ps.map (PartId.key k v)
  plain : ∀ x ∈ s, partsKey k v <+: x → colon ∉ x
  valid : ∀ p ∈ ps, p.Valid
  numbers : (ps.map PartId.number).Nodup

section Current

variable {k : Bytes} {ps : List PartId}

theorem CurrentParts.files (h : CurrentParts K s k v ps) :
    partFiles s k v = ps.map PartId.name := by
  rw [partFiles, h.keys, List.map_map]
  exact List.map_congr_left fun p _ => List.drop_left

theorem CurrentParts.sorted (h : CurrentParts K s k v ps) :
    (ps.map PartId.number).Pairwise (· < ·) := by
  have hkeys : (ps.map (PartId.key k v)).Pairwise (· < ·) := by
    rw [← h.keys]
    exact OrdMap.keysWhere_sorted.sublist (List.take_sublist _ _)
  have hle : ps.Pairwise fun p q => p.number ≤ q.number := by
    refine (List.pairwise_map.1 hkeys).imp_of_mem fun {p q} hp hq hlt => ?_
    by_contra hnot
    have hp' := (h.valid p hp).number
    have hq' := (h.valid q hq).number
    exact absurd hlt (partKey_lt (by omega) (by omega) (by omega)).not_gt
  exact List.pairwise_map.2 ((hle.and (List.pairwise_map.1 h.numbers)).imp fun h =>
    lt_of_le_of_ne h.1 h.2)

def PartId.entry (p : PartId) : Int × Bytes := (p.number, p.etag)

/-- Files with increasing numbers get to the map one after the other. -/
theorem addPartFiles_eq {startKey : Bytes} {keys : List Bytes} {partsMap : OrdMap Int Bytes}
    (hvalid : ∀ p ∈ ps, p.Valid)
    (hsorted : (partsMap.keys ++ ps.map PartId.number).Pairwise (· < ·)) :
    ∃ partsMap', addPartFiles K s startKey keys partsMap (ps.map PartId.name) = .ok partsMap' ∧
      partsMap'.entries = partsMap.entries ++ ps.map PartId.entry := by
  induction ps generalizing partsMap with
  | nil => exact ⟨partsMap, rfl, by simp⟩
  | cons p ps ih =>
    have hdecode := (hvalid p List.mem_cons_self).decode
    have hfile : p.name ≠ metaJSONFile := by
      intro hname
      have hnone : decodePartFile metaJSONFile = none := by decide
      rw [hname, hnone] at hdecode
      cases hdecode
    have hlt : ∀ e ∈ partsMap.entries, e.1 < p.number := fun e he =>
      (List.pairwise_append.1 hsorted).2.2 e.1 (List.mem_map_of_mem he) p.number (by simp)
    have hnone : partsMap.get? p.number = none := lookup_eq_none_iff.2 fun e he => (hlt e he).ne
    have hinsert : (partsMap.insert p.number p.etag).entries = partsMap.entries ++ [p.entry] :=
      insertEntry_of_forall_lt hlt
    obtain ⟨partsMap', hrun, hentries⟩ := ih (fun q hq => hvalid q (List.mem_cons_of_mem _ hq))
      (show ((partsMap.insert p.number p.etag).keys ++ ps.map PartId.number).Pairwise (· < ·) by
        rw [OrdMap.keys, hinsert]
        simpa [OrdMap.keys, PartId.entry] using hsorted)
    refine ⟨partsMap', ?_, by rw [hentries, hinsert]; simp⟩
    rw [List.map_cons, addPartFiles, addPartFile, if_neg hfile, hdecode]
    simp only [hnone]
    exact hrun

theorem CurrentParts.findPart_eq (h : CurrentParts K s k v ps) {p : PartId} (hp : p ∈ ps) :
    findPart (ps.map PartId.name) ⟨p.number, p.etag⟩ = .ok (p.name, p.actualSize) := by
  have hv := h.valid p hp
  have hget : getPartKO (ps.map PartId.name) p.number p.etag = p.name := by
    refine getPartKO_eq (List.mem_map_of_mem hp) ?_ fun g hg hpre => ?_
    · exact List.isPrefixOf_iff_prefix.1 ((hv.hasPrefix_iff hv.number hv.etag).2 ⟨rfl, rfl⟩)
    · obtain ⟨q, hq, rfl⟩ := List.mem_map.1 hg
      have hnumber := ((h.valid q hq).hasPrefix_iff hv.number hv.etag).1 (hasPrefix_iff.2 hpre)
      rw [List.inj_on_of_nodup_map h.numbers hq hp hnumber.1]
  have hne : p.name ≠ [] := by simp [PartId.name, encodePartFile]
  have hlast : ((p.name.splitOn dot).getLastD []) = formatInt p.actualSize :=
    getLastD_splitOn_encodePartFile ..
  have hsize := hv.size
  unfold findPart
  simp only [hget, hne, if_false, hlast]
  rw [parseInt64_formatInt (by omega) hsize.2]

theorem CurrentParts.sizeParts_eq (h : CurrentParts K s k v ps) {qs : List PartId}
    (hqs : ∀ q ∈ qs, q ∈ ps) :
    sizeParts (ps.map PartId.name) (qs.map PartId.entry) = .ok qs := by
  induction qs with
  | nil => rfl
  | cons q qs ih =>
    rw [List.map_cons, PartId.entry, sizeParts, h.findPart_eq (hqs q List.mem_cons_self)]
    simp only [ih fun q hq => hqs q (List.mem_cons_of_mem _ hq)]

end Current

theorem CurrentParts.lists {ps : List PartId} (h : CurrentParts K s (makeKey b o) v ps) :
    Lists K s b o v ps := by
  refine ⟨h.version, ?_⟩
  obtain ⟨partsMap, hmap, hentries⟩ :=
    (addPartFiles_eq h.valid h.sorted : ∃ partsMap,
      addPartFiles K s (partsKey (makeKey b o) v) (ps.map PartId.name) ∅ (ps.map PartId.name) =
        .ok partsMap ∧ _)
  rw [versionParts, stripKeys_partKeyRange h.plain, h.files]
  simp only [hmap, hentries]
  exact h.sizeParts_eq fun _ hq => hq

end S3Kinetic
