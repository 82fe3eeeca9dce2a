import S3Kinetic.Frame

/-!
# How completion finds its parts

`CompleteMultipartUpload` asks for the first 800 keys of the next version, cuts the version off them
and takes, for every listed part, the first of the remaining texts that starts with the part's
number and etag. Here are the three steps of that search, each with what it returns and when it
fails.
-/

namespace S3Kinetic

open ByteString Decimal OrdMap List

def partFilePrefix (partNumber : Int) (etag : Bytes) : Bytes :=
  padInt 5 partNumber ++ dot :: (etag ++ [dot])

variable {K : Kineticd} {s : Store} {k : Bytes}

/-! ## The keys of the query -/

variable {startKey : Bytes} {keys : List Bytes}

theorem stripKeys_eq_map (h : ∀ x ∈ keys, startKey <+: x) :
    stripKeys startKey keys = .ok (keys.map fun x => x.drop startKey.length) := by
  induction keys with
  | nil => rfl
  | cons x keys ih =>
    have hlen := (h x mem_cons_self).length_le
    rw [stripKeys, if_neg (by omega), ih fun y hy => h y (mem_cons_of_mem _ hy)]
    rfl

def partWindow (s : Store) (k v : Bytes) : List Bytes :=
  (s.keysWhere fun x => hasPrefix x (partsKey k v)).take 800

def partFiles (s : Store) (k v : Bytes) : List Bytes :=
  (partWindow s k v).map fun x => x.drop (partsKey k v).length

variable {v : Bytes}

theorem mem_partWindow {x : Bytes} (h : x ∈ partWindow s k v) : x ∈ s ∧ partsKey k v <+: x := by
  obtain ⟨hx, hp⟩ := mem_keysWhere.1 (mem_of_mem_take h)
  exact ⟨hx, isPrefixOf_iff_prefix.1 hp⟩

variable {f : Bytes}

theorem mem_partFiles : f ∈ partFiles s k v ↔ partsKey k v ++ f ∈ partWindow s k v := by
  rw [partFiles, mem_map]
  constructor
  · rintro ⟨x, hx, rfl⟩
    obtain ⟨t, rfl⟩ := (mem_partWindow hx).2
    rwa [drop_left]
  · exact fun h => ⟨_, h, drop_left⟩

theorem stripKeys_partKeyRange (hs : ∀ x ∈ s, partsKey k v <+: x → colon ∉ x) :
    stripKeys (partsKey k v) (partKeyRange K s k v) = .ok (partFiles s k v) := by
  rw [stripKeys_eq_map fun x hx => (mem_partKeyRange hs hx).2, partKeyRange_eq hs]
  rfl

theorem prefix_intercalate (sep y : Bytes) (l : List Bytes) : y <+: sep.intercalate (y :: l) := by
  cases l with
  | nil => simp
  | cons z l => simp [intercalate_cons_cons, append_assoc]

theorem stripKeys_colon {x : Bytes} (hk : colon ∈ k) (hk' : k.head? ≠ some colon) (hx : x ∈ s)
    (hpre : partsKey k v <+: x) :
    stripKeys (partsKey k v) (partKeyRange K s k v) = .error .panic := by
  obtain ⟨u, w, rfl, hu⟩ := eq_append_cons_of_mem hk
  have hne : u ≠ [] := by
    rintro rfl
    exact hk' rfl
  have hmem : x ∈ s.keysWhere fun y => hasPrefix y (partsKey (u ++ colon :: w) v) :=
    mem_keysWhere.2 ⟨hx, isPrefixOf_iff_prefix.2 hpre⟩
  have hall (y : Bytes) (hy : y ∈ s.keysWhere fun y => hasPrefix y (partsKey (u ++ colon :: w) v)) :
      u ++ [colon] <+: y := by
    refine List.IsPrefix.trans ?_ (List.isPrefixOf_iff_prefix.1 (mem_keysWhere.1 hy).2)
    exact ⟨w ++ dot :: (v ++ [dot]), by simp [partsKey]⟩
  unfold partKeyRange cGetKeyRange
  rw [getKeyRange_partsKey]
  cases hl : s.keysWhere fun y => hasPrefix y (partsKey (u ++ colon :: w) v) with
  | nil => simp [hl] at hmem
  | cons y l =>
    have hy := hall y (hl ▸ mem_cons_self)
    rw [take_succ_cons]
    obtain ⟨t, ht⟩ := hy.trans (prefix_intercalate [colon] y (l.take 799))
    rw [← ht, append_assoc, singleton_append, pieces_append_cons hu hne, stripKeys,
      if_pos (by simp [partsKey])]

/-! ## One part -/

theorem getPartKO_eq {n : Int} {e : Bytes} (hf : f ∈ keys)
    (hp : partFilePrefix n e <+: f) (huniq : ∀ g ∈ keys, partFilePrefix n e <+: g → g = f) :
    getPartKO keys n e = f := by
  unfold getPartKO
  cases hg : keys.find? fun key => hasPrefix key (padInt 5 n ++ dot :: (e ++ [dot])) with
  | none =>
    have := List.find?_eq_none.1 hg f hf
    exact absurd (List.isPrefixOf_iff_prefix.2 hp) this
  | some g =>
    have hpg := List.find?_some hg
    exact huniq g (mem_of_find?_eq_some hg) (List.isPrefixOf_iff_prefix.1 hpg)

theorem getPartKO_ne_nil {n : Int} {e : Bytes} (h : getPartKO keys n e ≠ []) :
    getPartKO keys n e ∈ keys ∧ partFilePrefix n e <+: getPartKO keys n e := by
  unfold getPartKO at h ⊢
  cases hg : keys.find? fun key => hasPrefix key (padInt 5 n ++ dot :: (e ++ [dot])) with
  | none => simp [hg] at h
  | some g => exact ⟨mem_of_find?_eq_some hg, isPrefixOf_iff_prefix.1 (List.find?_some hg)⟩

theorem getLastD_splitOn_encodePartFile (e : Bytes) (n size : Int) :
    ((encodePartFile n e size).splitOn dot).getLastD [] = formatInt size := by
  have hs : dot ∉ formatInt size := fun h => by
    rcases formatInt_digit_or_minus h with h | h <;> exact absurd h (by decide)
  obtain ⟨l, -, h⟩ := splitOn_append_cons hs (padInt 5 n ++ dot :: e)
  have hfile : encodePartFile n e size = (padInt 5 n ++ dot :: e) ++ dot :: formatInt size := by
    simp [encodePartFile]
  rw [hfile, h]
  simp

theorem unmarshalFreed_json_iff {m m' : FsMetaV1} : unmarshalFreed K s k (.json m) = .ok m' ↔
    (K.marshal m).length ≤ maxMetaBytes ∧ K.afterFree s k (.json m) = some m' := by
  unfold unmarshalFreed unmarshalMeta
  cases K.afterFree s k (.json m) <;> by_cases hlen : (K.marshal m).length ≤
    maxMetaBytes <;> simp [hlen]

/-- A listed part is accepted through one file of the answer, whose record is in the store. -/
theorem completePart_ok {part : CompletePart}
    {p : ObjectPartInfo} (h : completePart K s startKey keys part = .ok p) :
    ∃ f ∈ keys, partFilePrefix part.partNumber part.etag <+: f ∧
      parseInt64 ((f.splitOn dot).getLastD []) = (p.actualSize, none) ∧
      ∃ r m, s.get? (startKey ++ f) = some r ∧ unmarshalFreed K s (startKey ++ f) r.blob = .ok m ∧
        p = ⟨part.etag, part.partNumber, m.koInfo.size, p.actualSize⟩ := by
  unfold completePart findPart at h
  dsimp only at h
  split at h
  · cases h
  next hfind =>
  split at hfind
  · cases hfind
  next hne =>
  obtain ⟨hmem, hpre⟩ := getPartKO_ne_nil hne
  split at hfind
  · cases hfind
  next hparse =>
  cases hfind
  unfold koStat cGetMeta at h
  cases hg : s.get? (startKey ++ getPartKO keys part.partNumber part.etag) with
  | none => simp [hg] at h
  | some r =>
    cases hm : unmarshalFreed K s (startKey ++ getPartKO keys part.partNumber part.etag) r.blob with
    | error e =>
      simp only [hg, hm] at h
      split at h <;> simp_all
    | ok m =>
      simp only [hg, hm] at h
      cases h
      exact ⟨_, hmem, hpre, hparse, r, m, hg, hm, rfl⟩

/-- A part with one file in the answer is accepted, with the size of its name. -/
theorem completePart_eq {part : CompletePart} {size : Int}
    {r : Record} {m : FsMetaV1} (hf : f ∈ keys)
    (hp : partFilePrefix part.partNumber part.etag <+: f)
    (huniq : ∀ g ∈ keys, partFilePrefix part.partNumber part.etag <+: g → g = f)
    (hsize : parseInt64 ((f.splitOn dot).getLastD []) = (size, none))
    (hr : s.get? (startKey ++ f) = some r)
    (hm : unmarshalFreed K s (startKey ++ f) r.blob = .ok m) :
    completePart K s startKey keys part = .ok ⟨part.etag, part.partNumber,
      m.koInfo.size, size⟩ := by
  have hne : f ≠ [] := by
    rintro rfl
    have := hp.length_le
    simp [partFilePrefix] at this
  unfold completePart findPart koStat cGetMeta
  simp only [getPartKO_eq hf hp huniq, hne, if_false, hsize, hr, hm]

/-! ## The loop -/

theorem completeParts_ok {parts : List CompletePart}
    {ps : List ObjectPartInfo} (h : completeParts K s startKey keys parts = .ok ps) :
    (∀ part ∈ parts, ∃ p ∈ ps, completePart K s startKey keys part = .ok p) ∧
      ∀ p ∈ ps, ∃ part ∈ parts, completePart K s startKey keys part = .ok p := by
  induction parts generalizing ps with
  | nil =>
    cases h
    simp
  | cons part parts ih =>
    rw [completeParts] at h
    split at h
    · cases h
    next p hp =>
    split at h
    · cases h
    split at h
    · cases h
    next qs hqs =>
    cases h
    obtain ⟨h1, h2⟩ := ih hqs
    constructor
    · intro x hx
      rcases mem_cons.1 hx with rfl | hx
      · exact ⟨p, mem_cons_self, hp⟩
      · obtain ⟨q, hq, h⟩ := h1 x hx
        exact ⟨q, mem_cons_of_mem _ hq, h⟩
    · intro x hx
      rcases mem_cons.1 hx with rfl | hx
      · exact ⟨part, mem_cons_self, hp⟩
      · obtain ⟨q, hq, h⟩ := h2 x hx
        exact ⟨q, mem_cons_of_mem _ hq, h⟩

theorem completeParts_eq {α : Type} {f : α → CompletePart}
    {g : α → ObjectPartInfo} {l : List α}
    (h : ∀ a ∈ l, completePart K s startKey keys (f a) = .ok (g a))
    (hsize : ∀ a ∈ l.dropLast, globalMinPartSize ≤ (g a).actualSize) :
    completeParts K s startKey keys (l.map f) = .ok (l.map g) := by
  induction l with
  | nil => rfl
  | cons a l ih =>
    have hcheck : checkPartSize (l.map f).isEmpty (g a) = none := by
      cases l with
      | nil => rfl
      | cons b l =>
        have := hsize a (by simp)
        simp [checkPartSize, this]
    have htail : ∀ x ∈ l.dropLast, globalMinPartSize ≤ (g x).actualSize := fun x hx => by
      refine hsize x ?_
      cases l with
      | nil => simp at hx
      | cons b l => simp [dropLast_cons_cons, hx]
    rw [map_cons, completeParts, h a mem_cons_self]
    simp only [hcheck, ih (fun x hx => h x (mem_cons_of_mem _ hx)) htail, map_cons]

/-! ## The commit -/

/-- On a drive that takes the put, a stored upload record is replaced by the object record. -/
theorem commitUpload_of_healthy {u : Bytes} {ps : List ObjectPartInfo} {rec : Record} {m : FsMetaV1}
    (hK : K.Healthy) (v md5 : Bytes) (hr : s.get? (jsonKey k u) = some rec)
    (hm : K.unmarshal ⟨[], ∅, ps, ⟨[], 0, 0⟩⟩ rec.value = some m) :
    commitUpload K s k u v md5 ps =
      ((delete K s (jsonKey k u)).1.insert k ⟨.json (completeMeta m v md5 (totalActualSize ps)),
        []⟩, .ok (completeMeta m v md5 (totalActualSize ps))) := by
  unfold commitUpload
  simp only [cGet_unknown, hr, hm, cPut_of_healthy hK]

end S3Kinetic
