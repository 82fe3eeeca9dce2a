import S3Kinetic.EndToEnd
import S3Kinetic.Reading

/-!
# Reading an object that consists of parts

Each read of a multipart object returns bytes of one part: the one the connection's `NextPartNumber`
points to, from the connection's `DataOffset` on. With offset `0` the parts follow each other from
the one the counter starts at (`MultipartObject.drains`). Any other offset is applied to every part
instead of to the object as a whole, so a range is served right only from within the first part
(`rangeGet_iff`).
-/

namespace S3Kinetic

open ByteString Decimal OrdMap List

/-- The record of a part and its content. -/
def PartAt (s : Store) (k v : Bytes) (p : ObjectPartInfo) (content : Bytes) : Prop :=
  (∃ blob, s.get? (partKey k v p.number p.etag p.actualSize) = some ⟨blob, content⟩) ∧
    p.size = content.length ∧ content ≠ []

/-- A completed multipart object: its metadata list parts with the given contents, and their total
size. -/
structure MultipartObject (s : Store) (k : Bytes) (m : FsMetaV1) (contents : List Bytes) :
    Prop where
  record : ∃ v, s.get? k = some ⟨.json m, v⟩
  parts : List.Forall₂ (PartAt s k (m.get keyVersion)) m.parts contents
  nonempty : contents ≠ []
  size : parseInt64 (m.get keySize) = ((contents.flatten.length : Int), none)

variable {K : Kineticd} {s : Store} {k : Bytes} {m : FsMetaV1} {contents : List Bytes}

/-! ## One read -/

variable {j : Nat}

theorem Forall₂.getElem?_right {α β : Type*} {R : α → β → Prop} {l : List α} {l' : List β}
    (h : List.Forall₂ R l l') {y : β} (hy : l'[j]? = some y) : ∃ x, l[j]? = some x ∧ R x y := by
  induction h generalizing j with
  | nil => simp at hy
  | cons hxy _ ih =>
    cases j with
    | zero => exact ⟨_, rfl, by cases hy; exact hxy⟩
    | succ j => exact ih hy

/-- The counter after a read of part `j` of `n`. -/
def nextPart (n j : Nat) : Nat := if j = n - 1 then 0 else j + 1

variable {c : Client} {w : Bytes} {n : Nat}

theorem MultipartObject.read (h : MultipartObject s c.key m contents)
    (hfits : (K.marshal m).length ≤ maxMetaBytes) (hw : contents[c.nextPartNumber]? = some w)
    (hn : 0 < n) :
    ∃ key blob, s.get? key = some ⟨blob, w⟩ ∧ c.read K s n =
      match cGet K s key w.length c.dataOffset (min n w.length : Nat) with
      | .error e => (c, .error e)
      | .ok value => ({ c with nextPartNumber := nextPart contents.length c.nextPartNumber },
        .ok value) := by
  obtain ⟨v, hrec⟩ := h.record
  obtain ⟨p, hp, ⟨blob, hblob⟩, hsize, -⟩ := Forall₂.getElem?_right h.parts hw
  refine ⟨_, blob, hblob, ?_⟩
  have hne : m.parts ≠ [] := fun hnil => by simp [hnil] at hp
  have hreq : (if (n : Int) > w.length then (w.length : Int) else n) =
      ((min n w.length : Nat) : Int) := by
    split_ifs <;> omega
  unfold Client.read
  simp only [cGetMeta, hrec, unmarshalMeta, if_pos hfits, if_neg hne]
  unfold Client.readPart
  cases hget : cGet K s (partKey c.key (m.get keyVersion) p.number p.etag p.actualSize) w.length
      c.dataOffset (min n w.length : Nat) <;>
    simp only [hp, if_neg (show n ≠ 0 by omega), hreq, hsize, h.parts.length_eq, nextPart, hget]

theorem MultipartObject.read_beyond (h : MultipartObject s c.key m contents)
    (hfits : (K.marshal m).length ≤ maxMetaBytes) (hw : contents.length ≤ c.nextPartNumber)
    (n : Nat) :
    c.read K s n = (c, .ok []) := by
  obtain ⟨v, hrec⟩ := h.record
  have hne : m.parts ≠ [] := by
    intro hnil
    exact h.nonempty (List.forall₂_nil_left_iff.1 (hnil ▸ h.parts))
  have hnone : m.parts[c.nextPartNumber]? = none :=
    List.getElem?_eq_none (by rw [h.parts.length_eq]; exact hw)
  unfold Client.read
  simp only [cGetMeta, hrec, unmarshalMeta, if_pos hfits, if_neg hne]
  unfold Client.readPart
  simp only [hnone]

theorem MultipartObject.read_inside (h : MultipartObject s c.key m contents)
    (hfits : (K.marshal m).length ≤ maxMetaBytes) (hin : K.PartialGetInside)
    (hw : contents[c.nextPartNumber]? = some w) (hn : 0 < n)
    (hlen : c.dataOffset + min n w.length ≤ w.length) :
    c.read K s n = ({ c with nextPartNumber := nextPart contents.length c.nextPartNumber },
      .ok ((w.drop c.dataOffset).take (min n w.length))) := by
  obtain ⟨key, blob, hkey, hread⟩ := h.read hfits hw hn
  have hget : cGet K s key w.length c.dataOffset (min n w.length : Nat) =
      .ok ((w.drop c.dataOffset).take (min n w.length)) := cGet_inside hin hkey hlen
  rw [hread, hget]

/-! ## Draining from offset zero -/

theorem nextPart_mod (h : 0 < n) : nextPart n (j % n) = (j + 1) % n := by
  have hlt := Nat.mod_lt j h
  have hmod : (j + 1) % n = (j % n + 1) % n := (Nat.mod_add_mod j n 1).symm
  unfold nextPart
  rw [hmod]
  split_ifs with hlast
  · rw [hlast, Nat.sub_add_cancel h, Nat.mod_self]
  · exact (Nat.mod_eq_of_lt (by omega)).symm

variable {sizes : Nat → Nat}

/-- From offset zero the parts come one after the other, starting at the counter and going round.
The induction is on the parts that are left of the round. -/
theorem MultipartObject.drains {kc : Client} (h : MultipartObject s kc.key m contents)
    (hfits : (K.marshal m).length ≤ maxMetaBytes) (hin : K.PartialGetInside)
    (hoff : kc.dataOffset = 0)
    {t limit : Nat} {rest : List Bytes} (hrest : (contents.rotate j).drop t = rest)
    (hcount : kc.nextPartNumber = (t + j) % contents.length) (hlim : limit ≤ rest.flatten.length)
    (hs : ∀ i, limit ≤ sizes i) :
    Drains K s (.limited kc limit) sizes (rest.flatten.take limit) := by
  have hlen : 0 < contents.length := length_pos_iff.2 h.nonempty
  induction rest generalizing kc t limit sizes with
  | nil =>
    obtain rfl : limit = 0 := by simpa using hlim
    exact drains_limit_zero_iff.2 rfl
  | cons w rest ih =>
    rcases Nat.eq_zero_or_pos limit with rfl | h0
    · exact drains_limit_zero_iff.2 (take_zero ..)
    have hw : (contents.rotate j)[t]? = some w := by
      rw [← List.head?_drop, hrest]
      rfl
    have ht : t < contents.length := by
      rw [← length_rotate contents j]
      exact (List.getElem?_eq_some_iff.1 hw).1
    rw [List.getElem?_rotate ht, ← hcount] at hw
    have hmin : min (sizes 0) limit = limit := min_eq_right (hs 0)
    have hread := h.read_inside hfits hin hw h0 (by omega)
    have hval : (w.drop kc.dataOffset).take (min limit w.length) = w.take limit := by
      rw [hoff, drop_zero, take_eq_take_iff]
      omega
    obtain ⟨kc', hkc⟩ : ∃ kc', kc' =
        { kc with nextPartNumber := nextPart contents.length kc.nextPartNumber } :=
      ⟨_, rfl⟩
    rw [hval, ← hkc] at hread
    rw [drains_limited_iff h0, hmin]
    refine ⟨kc', _, rest.flatten.take (limit - w.length), hread, by simp, ?_, ?_⟩
    · rw [flatten_cons, take_append]
    · have hsub : limit - (w.take limit).length = limit - w.length := by
        rw [length_take]
        omega
      rw [hsub]
      have hkey : kc'.key = kc.key := by rw [hkc]
      refine ih (hkey ▸ h) (by rw [hkc]; exact hoff) (t := t + 1) ?_ ?_ ?_ fun i => ?_
      · rw [← drop_drop, hrest]
        rfl
      · rw [hkc, Nat.add_right_comm, ← nextPart_mod hlen, ← hcount]
      · rw [flatten_cons, length_append] at hlim
        omega
      · exact (Nat.sub_le ..).trans (hs (i + 1))

/-! ## Draining from a later offset -/

theorem MultipartObject.read_clipped {c' : Client} (h : MultipartObject s c.key m contents)
    (hfits : (K.marshal m).length ≤ maxMetaBytes) (hclip : K.PartialGetClips)
    (hoff : 0 < c.dataOffset)
    (hn : 0 < n) {value : Bytes} (hread : c.read K s n = (c', .ok value)) :
    c'.key = c.key ∧ c'.dataOffset = c.dataOffset ∧
      ∀ x ∈ value, ∃ w ∈ contents, x ∈ w.drop c.dataOffset := by
  cases hw : contents[c.nextPartNumber]? with
  | none =>
    rw [h.read_beyond hfits (List.getElem?_eq_none_iff.1 hw)] at hread
    cases hread
    simp
  | some w =>
    obtain ⟨key, blob, hkey, hstep⟩ := h.read hfits hw hn
    rw [hstep] at hread
    cases hget : cGet K s key w.length c.dataOffset (min n w.length : Nat) with
    | error e => rw [hget] at hread; cases hread
    | ok v =>
      rw [hget] at hread
      cases hread
      refine ⟨rfl, rfl, fun x hx => ⟨w, mem_of_getElem? hw, ?_⟩⟩
      rw [cGet_clipped hclip hkey (show min n w.length ≤ w.length by omega) hoff hget] at hx
      exact mem_of_mem_take hx

theorem MultipartObject.drains_clipped {gr : GetObjectReader} {kc : Client} {limit : Nat}
    {data : Bytes} (hd : Drains K s gr sizes data) (hgr : gr = .limited kc limit)
    (h : MultipartObject s kc.key m contents) (hfits : (K.marshal m).length ≤ maxMetaBytes)
    (hclip : K.PartialGetClips) (hoff : 0 < kc.dataOffset) (hs : ∀ i, 0 < sizes i) :
    ∀ x ∈ data, ∃ w ∈ contents, x ∈ w.drop kc.dataOffset := by
  induction hd generalizing kc limit with
  | eof _ => simp
  | read hread _ ih =>
    subst hgr
    obtain ⟨h0, -, kc', hr, rfl⟩ := read_limited_some_iff.1 hread
    have hpos := hs 0
    obtain ⟨hkey, hoff', hval⟩ := h.read_clipped hfits hclip hoff (by omega) hr
    have hrest := ih rfl (hkey ▸ h) (hoff' ▸ hoff) fun i => hs (i + 1)
    rw [hoff'] at hrest
    intro x hx
    exact (mem_append.1 hx).elim (hval x) (hrest x)

/-- A part of `n` bytes that has ones before `off` and zeros from there on. -/
def markedPart (off n : Nat) : Bytes := List.replicate (min off n) 1 ++ List.replicate (n - off) 0

theorem markedPart_length (off n : Nat) : (markedPart off n).length = n := by
  rw [markedPart, length_append, length_replicate, length_replicate]
  omega

variable {off : Nat}

theorem eq_zero_of_mem_markedPart_drop {x : UInt8} (hx : x ∈ (markedPart off n).drop off) :
    x = 0 := by
  rw [markedPart, drop_append, drop_eq_nil_of_le (by simp), nil_append] at hx
  exact eq_of_mem_replicate (mem_of_mem_drop hx)

theorem markedParts_getElem? (ns : List Nat) {i : Nat} (hi : i < off) (hlt : i < ns.sum) :
    (ns.map (markedPart off)).flatten[i]? = some 1 := by
  induction ns generalizing i with
  | nil => simp at hlt
  | cons n ns ih =>
    rw [map_cons, flatten_cons]
    rw [sum_cons] at hlt
    rcases Nat.lt_or_ge i n with hn | hn
    · rw [List.getElem?_append_left (by rw [markedPart_length]; exact hn), markedPart,
        List.getElem?_append_left (by rw [length_replicate]; omega), List.getElem?_replicate,
        if_pos (by omega)]
    · rw [List.getElem?_append_right (by rw [markedPart_length]; exact hn), markedPart_length]
      exact ih (by omega) (by omega)

/-- A range that starts behind the first byte and reaches over the end of the first part contains a
one. -/
theorem one_mem_range {len : Nat} {ns : List Nat} (hn : 0 < n) (hoff : 0 < off) (hlen : 0 < len)
    (hover : n < off + len) (hle : off + len ≤ n + ns.sum) :
    (1 : UInt8) ∈ (((n :: ns).map (markedPart off)).flatten.drop off).take len := by
  have hone : (((n :: ns).map (markedPart off)).flatten)[max off n]? = some 1 := by
    rw [map_cons, flatten_cons,
      List.getElem?_append_right (by rw [markedPart_length]; omega), markedPart_length]
    exact markedParts_getElem? ns (by omega) (by omega)
  refine mem_of_getElem? (i := max off n - off) ?_
  rw [List.getElem?_take_of_lt (by omega), List.getElem?_drop, ← hone]
  congr 1
  omega

/-! ## Ranges of multipart objects -/

def FsMetaV1.totalSize (m : FsMetaV1) : Int := (m.parts.map ObjectPartInfo.size).sum

theorem sum_size {ps : List ObjectPartInfo} {contents : List Bytes}
    (h : List.Forall₂ (fun p c => p.size = (c.length : Int)) ps contents) :
    (ps.map ObjectPartInfo.size).sum = (contents.flatten.length : Int) := by
  induction h with
  | nil => rfl
  | cons hpc _ ih =>
    rw [map_cons, sum_cons, ih, hpc, flatten_cons, length_append, Nat.cast_add]

theorem MultipartObject.totalSize_eq (h : MultipartObject s k m contents) :
    m.totalSize = (contents.flatten.length : Int) :=
  sum_size (h.parts.imp fun _ _ hpc => hpc.2.1)

/-- Metadata of a completed multipart object. -/
structure MultipartMeta (m : FsMetaV1) (k : Bytes) : Prop where
  sizes : ∀ p ∈ m.parts, 0 < p.size
  keys : (m.partKeys k).Nodup
  size : parseInt64 (m.get keySize) = (m.totalSize, none)

/-- A store that holds parts with given contents. -/
def putParts (k v : Bytes) : List (ObjectPartInfo × Bytes) → Store → Store
  | [], s => s
  | (p, c) :: l, s =>
    (putParts k v l s).insert (partKey k v p.number p.etag p.actualSize) ⟨.gob ⟨[], 0⟩, c⟩

variable {v : Bytes}

theorem putParts_get?_of_ne {x : Bytes} {l : List (ObjectPartInfo × Bytes)}
    (h : ∀ p ∈ l.map Prod.fst, x ≠ partKey k v p.number p.etag p.actualSize) :
    (putParts k v l s).get? x = s.get? x := by
  induction l with
  | nil => rfl
  | cons pc l ih =>
    rw [map_cons, forall_mem_cons] at h
    rw [putParts, get?_insert_of_ne h.1]
    exact ih h.2

theorem putParts_get? {l : List (ObjectPartInfo × Bytes)}
    (hnd : ((l.map Prod.fst).map fun p => partKey k v p.number p.etag p.actualSize).Nodup)
    {p : ObjectPartInfo} {c : Bytes} (hpc : (p, c) ∈ l) :
    (putParts k v l s).get? (partKey k v p.number p.etag p.actualSize) =
      some ⟨.gob ⟨[], 0⟩, c⟩ := by
  induction l with
  | nil => simp at hpc
  | cons qd l ih =>
    rw [map_cons, map_cons, nodup_cons] at hnd
    rcases mem_cons.1 hpc with rfl | hpc
    · exact get?_insert_self ..
    · rw [putParts, get?_insert_of_ne]
      · exact ih hnd.2 hpc
      · intro heq
        refine hnd.1 ?_
        rw [← heq]
        exact mem_map_of_mem (mem_map_of_mem hpc)

theorem MultipartMeta.exists_object (hm : MultipartMeta m k) (hne : m.parts ≠ [])
    (content : ObjectPartInfo → Bytes) (hlen : ∀ p ∈ m.parts, p.size = (content p).length) :
    ∃ s, MultipartObject s k m (m.parts.map content) := by
  have hfst : (m.parts.map fun p => (p, content p)).map Prod.fst = m.parts := by
    rw [map_map]
    exact map_id _
  refine ⟨putParts k (m.get keyVersion) (m.parts.map fun p => (p, content p))
    (insert ∅ k ⟨.json m, []⟩), ⟨[], ?_⟩, ?_, by simpa using hne, ?_⟩
  · rw [putParts_get?_of_ne, get?_insert_self]
    intro p _ heq
    exact ne_of_partsKey (prefix_append _ _) heq.symm
  · rw [List.forall₂_map_right_iff, List.forall₂_same]
    intro p hp
    refine ⟨⟨_, putParts_get? ?_ (mem_map_of_mem hp)⟩, hlen p hp, ?_⟩
    · rw [hfst]
      exact hm.keys
    · rw [← length_pos_iff]
      have := hm.sizes p hp
      have := hlen p hp
      omega
  · rw [hm.size, FsMetaV1.totalSize, sum_size]
    rw [List.forall₂_map_right_iff, List.forall₂_same]
    exact hlen

/-- A range within the first part, or from the beginning of the object. -/
theorem MultipartObject.drains_range (h : MultipartObject s k m contents)
    (hfits : (K.marshal m).length ≤ maxMetaBytes) (hin : K.PartialGetInside)
    {rest : List Bytes} (hcons : contents = w :: rest) {len : Nat}
    (hle : off + len ≤ contents.flatten.length) (hrange : off = 0 ∨ off + len ≤ w.length)
    (hs : ∀ i, len ≤ sizes i) :
    Drains K s (.limited ⟨k, 0, off⟩ len) sizes ((contents.flatten.drop off).take len) := by
  rcases hrange with rfl | hfirst
  · have hd : Drains K s (.limited ⟨k, 0, 0⟩ len) sizes
        (((contents.rotate 0).drop 0).flatten.take len) :=
      h.drains hfits hin rfl rfl (Nat.zero_mod _).symm (by simpa using hle) hs
    simpa using hd
  rcases Nat.eq_zero_or_pos len with rfl | hlen
  · exact drains_limit_zero_iff.2 (take_zero ..)
  have hread := MultipartObject.read_inside (c := ⟨k, 0, off⟩) h hfits hin
    (show contents[0]? = some w by rw [hcons]; rfl) hlen (show off + min len w.length ≤
      w.length by omega)
  have hmin : min len w.length = len := by omega
  have hval : (contents.flatten.drop off).take len = (w.drop off).take len := by
    rw [hcons, flatten_cons, drop_append_of_le_length (by omega),
      take_append_of_le_length (by rw [length_drop]; omega)]
  have hlen' : ((w.drop off).take len).length = len := by
    rw [length_take, length_drop]
    omega
  rw [drains_limited_iff hlen, min_eq_right (hs 0), hread, hmin]
  refine ⟨_, _, [], rfl, hlen'.le, ?_, ?_⟩
  · rw [hval, append_nil]
  · rw [hlen', Nat.sub_self]
    exact drains_limit_zero_iff.2 rfl

/-- On an unused connection, a range of a multipart object is served right for all contents of the
parts exactly when it starts at the first byte or ends within the first part, and the metadata fit
64 KiB. -/
theorem rangeGet_iff {b o : Bytes} {rs : Option HTTPRangeSpec} {off len : Int} {kc : Client}
    {p : ObjectPartInfo} {ps : List ObjectPartInfo} {sizes : Nat → Nat} (hin : K.PartialGetInside)
    (hclip : K.PartialGetClips) (hb : b ≠ []) (hargs : checkBucketAndObjectNames K b o = none)
    (hslash : hasSuffix o [slash] = false) (hplain : transformed m.entries = false)
    (hm : MultipartMeta m (makeKey b o)) (hparts : m.parts = p :: ps) (hrs : Accepted rs)
    (hres : getOffsetLength rs m.totalSize = .ok (off, len)) (hkc : kc.nextPartNumber = 0)
    (hs : ∀ i, m.totalSize ≤ sizes i) :
    (∀ s contents, MultipartObject s (makeKey b o) m contents →
        GetReturns K s kc b o rs sizes (byteRange contents.flatten off len)) ↔
      (K.marshal m).length ≤ maxMetaBytes ∧ (off = 0 ∨ off + len ≤ p.size) := by
  have htotal : m.totalSize = p.size + (ps.map ObjectPartInfo.size).sum := by
    rw [FsMetaV1.totalSize, hparts, map_cons, sum_cons]
  have hpos : ∀ q ∈ p :: ps, 0 < q.size := hparts ▸ hm.sizes
  have hsum : (ps.map ObjectPartInfo.size).sum = ((ps.map fun q => q.size.toNat).sum : Nat) := by
    have hq : ∀ q ∈ ps, q.size = ((q.size.toNat : Nat) : Int) := fun q hq => by
      have := hpos q (mem_cons_of_mem _ hq)
      omega
    rw [Nat.cast_list_sum, map_map]
    exact congrArg List.sum (map_congr_left hq)
  have hp0 := hpos p mem_cons_self
  have hbounds := hrs.bounds (by omega) hres
  constructor
  · intro hall
    -- parts with ones before the offset and zeros behind it
    obtain ⟨s, hobj⟩ := hm.exists_object (by simp [hparts])
      (fun q => markedPart off.toNat q.size.toNat) fun q hq => by
        have := hm.sizes q hq
        rw [markedPart_length]
        omega
    obtain ⟨gr, hopen, hdrain⟩ := hall s _ hobj
    obtain ⟨v, hrec⟩ := hobj.record
    have hfits : (K.marshal m).length ≤ maxMetaBytes := by
      have := readable_of_getObjectNInfo hb hopen
      simpa [readable, hrec] using this
    refine ⟨hfits, ?_⟩
    by_contra hbad
    have hopen' := getObjectNInfo_eq kc hb hargs hslash hrec hfits hplain hm.size
      (by omega) hrs hres
    rw [hopen] at hopen'
    cases hopen'
    have hzero := MultipartObject.drains_clipped hdrain rfl hobj hfits hclip (by dsimp only; omega)
      fun i => by
        have := hs i
        omega
    have hone : (1 : UInt8) ∈ byteRange (m.parts.map fun q =>
      markedPart off.toNat q.size.toNat).flatten
        off len := by
      have hmem : (1 : UInt8) ∈ ((((p.size.toNat :: ps.map fun q => q.size.toNat).map
          (markedPart off.toNat)).flatten).drop off.toNat).take len.toNat :=
        one_mem_range (by omega) (by omega) (by omega) (by omega) (by omega)
      rw [hparts]
      simpa [byteRange, Function.comp_def] using hmem
    obtain ⟨w, hw, hx⟩ := hzero 1 hone
    obtain ⟨q, -, rfl⟩ := mem_map.1 hw
    exact absurd (eq_zero_of_mem_markedPart_drop hx) (by decide)
  · rintro ⟨hfits, hcond⟩ s contents hobj
    obtain ⟨v, hrec⟩ := hobj.record
    have hsize := hobj.totalSize_eq
    obtain ⟨w, rest, hcons⟩ : ∃ w rest, contents = w :: rest := exists_cons_of_ne_nil hobj.nonempty
    have hw : p.size = w.length := by
      have := hobj.parts
      rw [hparts, hcons, List.forall₂_cons] at this
      exact this.1.2.1
    refine ⟨_, getObjectNInfo_eq kc hb hargs hslash hrec hfits hplain hm.size (by omega) hrs hres,
      ?_⟩
    rw [hkc]
    refine hobj.drains_range hfits hin hcons (by omega) (by omega) fun i => ?_
    have := hs i
    omega

/-! ## Objects that an upload completed -/

theorem totalActualSize_eq {ps : List ObjectPartInfo} (h0 : ∀ p ∈ ps, 0 ≤ p.actualSize)
    (hmax : (ps.map ObjectPartInfo.actualSize).sum < 2 ^ 63) :
    totalActualSize ps = (ps.map ObjectPartInfo.actualSize).sum := by
  have hfold : ∀ (ps : List ObjectPartInfo) (n : Int), (∀ p ∈ ps, 0 ≤ p.actualSize) → 0 ≤ n →
      n + (ps.map ObjectPartInfo.actualSize).sum < 2 ^ 63 →
      ps.foldl (fun n p => wrap64 (n + p.actualSize)) n =
          n + (ps.map ObjectPartInfo.actualSize).sum := by
    intro ps
    induction ps with
    | nil => intro n _ _ _; simp
    | cons p ps ih =>
      intro n h0 hn hlt
      rw [forall_mem_cons] at h0
      rw [map_cons, sum_cons] at hlt ⊢
      have hrest : 0 ≤ (ps.map ObjectPartInfo.actualSize).sum :=
        sum_nonneg fun x hx => by
          obtain ⟨q, hq, rfl⟩ := mem_map.1 hx
          exact h0.2 q hq
      have hwrap : wrap64 (n + p.actualSize) = n + p.actualSize :=
        Int.bmod_eq_of_le (by omega) (by omega)
      rw [foldl_cons, hwrap, ih _ h0.2 (by omega) (by omega)]
      omega
  have := hfold ps 0 h0 le_rfl (by omega)
  rw [totalActualSize, this, Int.zero_add]

theorem completeMeta_size (m : FsMetaV1) (v md5 : Bytes) (size : Int) :
    (completeMeta m v md5 size).get keySize = formatInt size := by
  have hne : keySize ≠ keyActualSize ∧ keySize ≠ keyEtag := by decide
  unfold completeMeta
  rw [FsMetaV1.get_set_of_ne _ _ hne.1, FsMetaV1.get_set_of_ne _ _ hne.2, FsMetaV1.get_set_self]

/-- Parts that are neither compressed nor cut off by the buffer of `PutObjectPart`. -/
def PartUpload.Whole (p : PartUpload) : Prop :=
  0 < p.r.size ∧ p.r.size ≤ blockSizeV1 ∧ p.r.actualSize = p.r.size ∧ p.r.size = p.content.length

theorem PartUpload.Whole.value_eq {p : PartUpload} (h : p.Whole) : p.value = p.content := by
  obtain ⟨h0, hmax, -, hlen⟩ := h
  refine take_of_length_le ?_
  unfold partBufSize
  split_ifs <;> omega

/-- What completion leaves in the store is a multipart object of the uploaded contents. -/
theorem multipartObject_of_complete {o : Bytes} {ud : OrdMap Bytes Bytes} {now : Nat}
    {ps : List PartUpload} (hne : ps ≠ []) (hcount : ps.length ≤ 10000) (hps : ∀ p ∈ ps, p.Whole)
    (hrec : s.get? k = some ⟨.json (committedMeta K o ud now v ps (ps.map PartUpload.stored)), []⟩)
    (hparts : ∀ p ∈ ps, s.get? (p.key k v) = some ⟨.json (p.fsMeta o), p.value⟩) :
    MultipartObject s k (committedMeta K o ud now v ps (ps.map PartUpload.stored))
      (ps.map PartUpload.content) := by
  have hstored : (committedMeta K o ud now v ps (ps.map PartUpload.stored)).parts =
    ps.map PartUpload.stored := rfl
  have hver : (committedMeta K o ud now v ps (ps.map PartUpload.stored)).get keyVersion = v :=
    completeMeta_version ..
  refine ⟨⟨_, hrec⟩, ?_, by simpa using hne, ?_⟩
  · rw [hstored, hver, List.forall₂_map_left_iff, List.forall₂_map_right_iff, List.forall₂_same]
    intro p hp
    have hwhole := hps p hp
    refine ⟨⟨_, (hparts p hp).trans (by rw [hwhole.value_eq])⟩, hwhole.2.2.2, ?_⟩
    rw [← length_pos_iff]
    have := hwhole.1
    have := hwhole.2.2.2
    omega
  · have hactual : (ps.map PartUpload.stored).map ObjectPartInfo.actualSize =
        (ps.map PartUpload.stored).map ObjectPartInfo.size := by
      rw [map_map, map_map]
      exact map_congr_left fun p hp => (hps p hp).2.2.1
    have hsizes : ((ps.map PartUpload.stored).map ObjectPartInfo.size).sum =
        ((ps.map PartUpload.content).flatten.length : Int) := by
      refine sum_size ?_
      rw [List.forall₂_map_left_iff, List.forall₂_map_right_iff, List.forall₂_same]
      exact fun p hp => (hps p hp).2.2.2
    have hle : ((ps.map PartUpload.stored).map ObjectPartInfo.size).sum ≤
        ps.length * blockSizeV1 := by
      have hsum := sum_le_card_nsmul ((ps.map PartUpload.stored).map ObjectPartInfo.size)
        blockSizeV1
        (by
          intro x hx
          rw [map_map] at hx
          obtain ⟨p, hp, rfl⟩ := mem_map.1 hx
          exact (hps p hp).2.1)
      simpa using hsum
    have htotal : totalActualSize (ps.map PartUpload.stored) =
        ((ps.map PartUpload.content).flatten.length : Int) := by
      rw [totalActualSize_eq, hactual, hsizes]
      · intro q hq
        obtain ⟨p, hp, rfl⟩ := mem_map.1 hq
        obtain ⟨h0, -, heq, -⟩ := hps p hp
        show 0 ≤ p.r.actualSize
        omega
      · rw [hactual]
        unfold blockSizeV1 at hle
        omega
    rw [committedMeta, completeMeta_size, htotal]
    exact parseInt64_formatInt (by omega) (by unfold blockSizeV1 at hle; omega)

/-- A healthy drive takes a whole part. -/
theorem putObjectPart_of_whole {b o u : Bytes} {p : PartUpload} (hK : K.Healthy) (hp : p.Whole)
    (hfin : p.r.stream.fin = none) (hargs : checkObjectArgs K s b o = none)
    (hv : currentVersion K s (makeKey b o) = .ok v)
    (hinfo : p.info = ⟨p.partID, p.now, partETag K p.r, p.r.size, p.r.actualSize⟩) :
    putObjectPart K s b o u p.partID p.r p.now =
      (s.insert (p.key (makeKey b o) (newVersion v)) ⟨.json (p.fsMeta o), p.content⟩,
        .ok p.info) := by
  obtain ⟨h0, hmax, hactual, hlen⟩ := hp
  have hbuf : partBufSize p.r.size = p.r.size := by
    unfold partBufSize
    split_ifs <;> omega
  have hread : p.r.stream.readFull p.r.size.toNat =
      (p.content, none, { p.r.stream with data := p.content.drop p.r.size.toNat }) := by
    have hn : p.r.size.toNat = p.r.stream.data.length := by
      rw [hlen]
      exact Int.toNat_natCast _
    unfold Stream.readFull
    rw [if_neg (by omega), if_pos (.inr ⟨hn, .inr hfin⟩), take_of_length_le hn.ge]
    rfl
  have hkey : p.key (makeKey b o) (newVersion v) =
      partKey (makeKey b o) (newVersion v) p.partID (partETag K p.r) p.r.actualSize := by
    rw [PartUpload.key, hinfo]
  unfold putObjectPart
  simp only [hargs, hbuf, hread, hv, cPut_of_healthy hK, if_neg (show ¬ p.r.size < -1 by omega),
    hkey]
  rw [hinfo]
  rfl

/-! ## An object of two parts -/

def firstData : Bytes := List.replicate 1048576 1

theorem firstData_length : firstData.length = 1048576 := length_replicate

theorem twoParts_length : [firstData, [2]].flatten.length = 1048577 := by
  rw [flatten_cons, length_append, firstData_length]
  rfl

def firstPart : PartUpload where
  partID := 1
  r := { bodyReader firstData (List.replicate 16 1) with size := 1048576, actualSize := 1048576 }
  now := 4
  info := ⟨1, 4, hexEncode (List.replicate 16 1), 1048576, 1048576⟩

def lastPart : PartUpload where
  partID := 2
  r := bodyReader [2] (List.replicate 16 2)
  now := 5
  info := ⟨2, 5, hexEncode (List.replicate 16 2), 1, 1⟩

theorem firstPart_stream : firstPart.r.stream = ⟨firstData, none, true⟩ := by
  have hle : (0 : Int) ≤ 1048576 ∧ (1048576 : Int) ≤ firstData.length := by
    rw [firstData_length]
    omega
  have hpos : 0 ≤ firstPart.r.size ∧ firstPart.r.size ≤ firstPart.r.src.data.length := hle
  have htake : firstData.take (Int.toNat 1048576) = firstData :=
    take_of_length_le (by rw [firstData_length]; omega)
  unfold PutObjReader.stream
  rw [if_pos hpos]
  exact congrArg (Stream.mk · none true) htake

theorem firstPart_whole : firstPart.Whole := by
  have hlen : firstPart.content.length = 1048576 := by
    rw [PartUpload.content, firstPart_stream]
    exact firstData_length
  refine ⟨by decide, by decide, rfl, ?_⟩
  rw [hlen]
  rfl

/-- The drive after the first part of an upload. -/
def firstPartStore : Store :=
  insert (newMultipartUpload (uploadDrive (lit "a")) (emptyBucket (lit "a")) (lit "bkt") (lit "a") ∅
    (lit "u1") 3).1 (firstPart.key (makeKey (lit "bkt") (lit "a")) (newVersion []))
    ⟨.json (firstPart.fsMeta (lit "a")), firstPart.content⟩

def twoPartStore : Store :=
  (putObjectPart (uploadDrive (lit "a")) firstPartStore (lit "bkt") (lit "a") (lit "u1") 2
    lastPart.r 5).1

theorem uploadedParts_twoPartStore :
    UploadedParts (uploadDrive (lit "a")) (emptyBucket (lit "a")) (lit "bkt") (lit "a")
      ∅ (lit "u1") 3
      [firstPart, lastPart] twoPartStore := by
  have hnew : (newMultipartUpload (uploadDrive (lit "a")) (emptyBucket (lit "a"))
    (lit "bkt") (lit "a") ∅
      (lit "u1") 3).2 = .ok (lit "u1") := by decide
  have hput1 : putObjectPart (uploadDrive (lit "a")) (newMultipartUpload (uploadDrive (lit "a"))
      (emptyBucket (lit "a")) (lit "bkt") (lit "a") ∅ (lit "u1") 3).1 (lit "bkt")
        (lit "a") (lit "u1") 1
      firstPart.r 4 = (firstPartStore, .ok firstPart.info) := by
    unfold firstPartStore
    exact putObjectPart_of_whole (v := []) (p := firstPart) (memoryDrive_healthy _) firstPart_whole
      (by rw [firstPart_stream]) (by decide) (by decide) (by decide)
  have hput2 : (putObjectPart (uploadDrive (lit "a")) firstPartStore (lit "bkt")
    (lit "a") (lit "u1") 2
      lastPart.r 5).2 = .ok lastPart.info := by decide
  have hstore : putObjectPart (uploadDrive (lit "a")) firstPartStore (lit "bkt")
    (lit "a") (lit "u1") 2
      lastPart.r 5 = (twoPartStore, .ok lastPart.info) := Prod.ext rfl hput2
  have huploads : Uploads (uploadDrive (lit "a")) (lit "bkt") (lit "a") (lit "u1")
      (newMultipartUpload (uploadDrive (lit "a")) (emptyBucket (lit "a")) (lit "bkt")
        (lit "a") ∅ (lit "u1")
        3).1 [firstPart, lastPart] twoPartStore :=
    Uploads.put (p := firstPart) hput1
      (Uploads.put (p := lastPart) hstore (Uploads.nil twoPartStore))
  refine ⟨by decide, ⟨_, [firstPart, lastPart], Prod.ext rfl hnew, .refl _, huploads⟩, rfl,
    by decide, ?_, ?_⟩
  · intro p hp
    rw [mem_singleton.1 hp]
    decide
  · intro p hp
    rcases mem_pair.1 hp with rfl | rfl <;> decide

def twoPartMeta : FsMetaV1 :=
  committedMeta (uploadDrive (lit "a")) (lit "a") ∅ 3 (newVersion []) [firstPart, lastPart]
    [firstPart.stored, lastPart.stored]

theorem twoParts_complete :
    ∃ s info, completeMultipartUpload (uploadDrive (lit "a")) twoPartStore (lit "bkt")
      (lit "a") (lit "u1")
        [firstPart.listed, lastPart.listed] = (s, .ok info) ∧
      MultipartObject s (makeKey (lit "bkt") (lit "a")) twoPartMeta [firstData, [2]] := by
  have hold := oldKeys_emptyBucket [firstPart, lastPart]
  have hwhole : ∀ p ∈ [firstPart, lastPart], p.Whole := by
    intro p hp
    rcases mem_pair.1 hp with rfl | rfl
    · exact firstPart_whole
    · exact ⟨by decide, by decide, rfl, by decide⟩
  have hwin := (uploadedParts_twoPartStore.mem_window_iff hold).2 (by decide)
  have hfits : ∀ p ∈ [firstPart, lastPart],
      ((uploadDrive (lit "a")).marshal (p.fsMeta (lit "a"))).length ≤ maxMetaBytes := by
    intro p hp
    rcases mem_pair.1 hp with rfl | rfl <;> decide +kernel
  have hqs := completeParts_eq (fun p hp => uploadedParts_twoPartStore.completePart_eq hold hp
    (hwin p hp) (hfits p hp)
    ⟨_, rfl, by rcases mem_pair.1 hp with rfl | rfl <;> rfl⟩) uploadedParts_twoPartStore.minSize
  obtain ⟨s, info, hc, hrec, hparts⟩ :=
    uploadedParts_twoPartStore.complete hold (memoryDrive_healthy _)
    uploadDrive_unmarshal (by decide) hqs
  have hobj := multipartObject_of_complete (by simp) (by decide) hwhole hrec hparts
  have hcontents : [firstPart, lastPart].map PartUpload.content = [firstData, [2]] := by
    rw [map_cons, map_cons, map_nil, PartUpload.content, firstPart_stream]
    rfl
  rw [hcontents] at hobj
  exact ⟨s, info, hc, hobj⟩

theorem twoPartMeta_fits : ((uploadDrive (lit "a")).marshal twoPartMeta).length ≤ maxMetaBytes := by
  decide +kernel

/-- The first two bytes come from the first part. -/
theorem rangeGet_firstBytes :
    ∃ s info, completeMultipartUpload (uploadDrive (lit "a")) twoPartStore (lit "bkt")
      (lit "a") (lit "u1")
        [firstPart.listed, lastPart.listed] = (s, .ok info) ∧
      GetReturns (uploadDrive (lit "a")) s freshClient (lit "bkt") (lit "a") (some ⟨false, 0, 1⟩)
        (fun _ => 1048577) (byteRange [firstData, [2]].flatten 0 2) := by
  obtain ⟨s, info, hc, hobj⟩ := twoParts_complete
  have haccepted : Accepted (some ⟨false, 0, 1⟩) := by
    rintro h ⟨⟩
    exact ⟨lit "bytes=0-1", by decide⟩
  have hmeta : MultipartMeta twoPartMeta (makeKey (lit "bkt") (lit "a")) :=
    ⟨by decide, by decide, by decide⟩
  refine ⟨s, info, hc, (rangeGet_iff (K := uploadDrive (lit "a")) (memoryDrive_partialGetInside _)
    (memoryDrive_partialGetClips _) (by decide) (by decide) (by decide)
    (by decide) hmeta rfl haccepted (by decide) rfl (fun _ => by decide)).2
    ⟨twoPartMeta_fits, .inl rfl⟩ s _ hobj⟩

theorem MultipartObject.read_memoryDrive {texts : List FsMetaV1}
    (h : MultipartObject s c.key m contents)
    (hfits : ((memoryDrive texts).marshal m).length ≤ maxMetaBytes)
    (hw : contents[c.nextPartNumber]? = some w) (hn : 0 < n) :
    c.read (memoryDrive texts) s n =
      ({ c with nextPartNumber := nextPart contents.length c.nextPartNumber },
      .ok ((w.drop c.dataOffset).take (min n w.length))) := by
  obtain ⟨key, blob, hkey, hread⟩ := h.read hfits hw hn
  have hreq : (if ((min n w.length : Nat) : Int) = -1 ∨ ((min n w.length : Nat) : Int) > w.length
      then (w.length : Int) else (min n w.length : Nat)) =
        (min n w.length : Nat) := if_neg (by omega)
  have hget : cGet (memoryDrive texts) s key w.length c.dataOffset (min n w.length : Nat) =
      .ok ((w.drop c.dataOffset).take (min n w.length)) := by
    unfold cGet
    dsimp only
    rw [hkey, hreq]
    dsimp only
    split_ifs with hwhole
    · rw [hwhole.1, drop_zero, take_of_length_le (by omega)]
    · rfl
  rw [hread, hget]

/-- The last byte of the first part and the first byte of the second: the second one is taken from
the first part again. -/
theorem rangeGet_wrong_byte :
    ∃ s info, completeMultipartUpload (uploadDrive (lit "a")) twoPartStore (lit "bkt")
      (lit "a") (lit "u1")
        [firstPart.listed, lastPart.listed] = (s, .ok info) ∧
      MultipartObject s (makeKey (lit "bkt") (lit "a")) twoPartMeta [firstData, [2]] ∧
      parseRequestRangeSpec (lit "bytes=1048575-1048576") = .ok ⟨false, 1048575, 1048576⟩ ∧
      byteRange [firstData, [2]].flatten 1048575 2 = [1, 2] ∧
      GetReturns (uploadDrive (lit "a")) s freshClient (lit "bkt") (lit "a")
        (some ⟨false, 1048575, 1048576⟩) (fun _ => 1048577) [1, 1] ∧
      ¬ GetReturns (uploadDrive (lit "a")) s freshClient (lit "bkt") (lit "a")
        (some ⟨false, 1048575, 1048576⟩) (fun _ => 1048577) [1, 2] := by
  obtain ⟨s, info, hc, hobj⟩ := twoParts_complete
  have hdrop : firstData.drop 1048575 = [1] := by
    rw [firstData, drop_replicate]
    rfl
  have haccepted : Accepted (some ⟨false, 1048575, 1048576⟩) := by
    rintro h ⟨⟩
    exact ⟨lit "bytes=1048575-1048576", by decide⟩
  -- the reads go round the parts, each from the offset of the range
  have hread0 {limit : Nat} (h : limit = 1 ∨ limit = 2) :
      Client.read (uploadDrive (lit "a")) s ⟨makeKey (lit "bkt") (lit "a"), 0, 1048575⟩ limit =
        (⟨makeKey (lit "bkt") (lit "a"), 1, 1048575⟩, .ok [1]) := by
    have := MultipartObject.read_memoryDrive (c := ⟨makeKey (lit "bkt") (lit "a"), 0, 1048575⟩) hobj
      twoPartMeta_fits (w := firstData) rfl (n := limit) (by omega)
    rw [firstData_length] at this
    refine this.trans ?_
    rw [hdrop]
    rcases h with rfl | rfl <;> rfl
  have hread1 : Client.read (uploadDrive (lit "a")) s ⟨makeKey (lit "bkt") (lit "a"),
    1, 1048575⟩ 1 =
      (⟨makeKey (lit "bkt") (lit "a"), 0, 1048575⟩, .ok []) := by
    refine (MultipartObject.read_memoryDrive (c := ⟨makeKey (lit "bkt") (lit "a"), 1, 1048575⟩) hobj
      twoPartMeta_fits (w := [2]) rfl Nat.one_pos).trans ?_
    rw [drop_eq_nil_of_le (by simp), take_nil]
    rfl
  have hget : GetReturns (uploadDrive (lit "a")) s freshClient (lit "bkt") (lit "a")
      (some ⟨false, 1048575, 1048576⟩) (fun _ => 1048577) [1, 1] := by
    obtain ⟨v, hrec⟩ := hobj.record
    have hsize : parseInt64 (twoPartMeta.get keySize) = (1048577, none) := by decide
    have hres : getOffsetLength (some ⟨false, 1048575, 1048576⟩) 1048577 =
      .ok (1048575, 2) := by decide
    refine ⟨_, getObjectNInfo_eq freshClient (by decide) (by decide) (by decide) hrec
      twoPartMeta_fits (by decide) hsize (by decide) haccepted hres, ?_⟩
    refine (drains_limited_iff (by decide)).2 ⟨_, _, [1], hread0 (.inr rfl), by decide, rfl, ?_⟩
    refine (drains_limited_iff (by decide)).2 ⟨_, _, [1], hread1, by decide, rfl, ?_⟩
    refine (drains_limited_iff (by decide)).2 ⟨_, _, [], hread0 (.inl rfl), by decide, rfl, ?_⟩
    exact drains_limit_zero_iff.2 rfl
  refine ⟨s, info, hc, hobj, by decide, ?_, hget, fun h => absurd (hget.unique h) (by decide)⟩
  rw [byteRange, flatten_cons, drop_append_of_le_length (by rw [firstData_length]; decide),
    show Int.toNat 1048575 = 1048575 from rfl, hdrop]
  rfl

end S3Kinetic
