import S3Kinetic.PartReads

/-!
# Copies of multipart objects

`copyMultipartObject` reads the source into one buffer per part and puts each buffer under the next
version of the destination. The error of the read is overwritten by that of the put, so a source
that ends early is copied with what the buffer held before. Apart from that a copy does what it
should: it fails exactly if a put is refused, and its cleanup deletes part keys of one version only,
unless some key has a `:` in it (`copyMultipartObject_law_iff`).
-/

namespace S3Kinetic

open ByteString Decimal OrdMap

variable {K : Kineticd} {s : Store} {k v x : Bytes}

/-! ## What a cleanup deletes -/

/-- The keys that `deleteKeys` deletes: those before the first one it fails on. -/
def deletedKeys (K : Kineticd) (s : Store) : List Bytes → List Bytes
  | [] => []
  | key :: keys =>
    match delete K s key with
    | (_, some _) => []
    | (s, none) => key :: deletedKeys K s keys

/-- The keys that `deleteParts` deletes in its two rounds. -/
def sweptKeys (K : Kineticd) (s : Store) (objKey version : Bytes) : List Bytes :=
  deletedKeys K s (partKeyRange K s objKey version) ++
    match deleteKeys K s (partKeyRange K s objKey version) with
    | (_, some _) => []
    | (s, none) => deletedKeys K s (partKeyRange K s objKey version)

theorem get?_deleteKeys (keys : List Bytes) :
    (deleteKeys K s keys).1.get? x = if x ∈ deletedKeys K s keys then none else s.get? x := by
  induction keys generalizing s with
  | nil => simp [deleteKeys, deletedKeys]
  | cons key keys ih =>
    unfold deleteKeys deletedKeys
    rcases delete_eq (K := K) s key with ⟨hd, -⟩ | ⟨e, hd⟩
    · simp only [hd, ih, List.mem_cons]
      by_cases hx : x = key
      · subst hx
        simp [get?_erase_self]
      · simp only [hx, false_or, get?_erase_of_ne hx]
    · simp [hd]

theorem get?_deleteParts :
    (deleteParts K s k v).1.get? x = if x ∈ sweptKeys K s k v then none else s.get? x := by
  have hfirst := get?_deleteKeys (K := K) (s := s) (x := x) (partKeyRange K s k v)
  unfold deleteParts sweptKeys
  rcases hd : deleteKeys K s (partKeyRange K s k v) with ⟨s', _ | e⟩
  · rw [hd] at hfirst
    simp only [get?_deleteKeys, List.mem_append, hfirst]
    split_ifs <;> tauto
  · rw [hd] at hfirst
    simpa using hfirst

theorem mem_of_mem_deletedKeys {keys : List Bytes} (h : x ∈ deletedKeys K s keys) : x ∈ keys := by
  induction keys generalizing s with
  | nil => exact h
  | cons key keys ih =>
    unfold deletedKeys at h
    split at h
    · cases h
    · rcases List.mem_cons.1 h with rfl | h
      · exact List.mem_cons_self
      · exact List.mem_cons_of_mem _ (ih h)

theorem prefix_of_mem_sweptKeys (hs : ∀ y ∈ s, partsKey k v <+: y → colon ∉ y)
    (h : x ∈ sweptKeys K s k v) :
    partsKey k v <+: x := by
  unfold sweptKeys at h
  rcases List.mem_append.1 h with h | h
  · exact (mem_partKeyRange hs (mem_of_mem_deletedKeys h)).2
  · rcases hd : deleteKeys K s (partKeyRange K s k v) with ⟨s', _ | e⟩
    · rw [hd] at h
      have hs' : ∀ y ∈ s', partsKey k v <+: y → colon ∉ y := by
        intro y hy
        refine hs y ?_
        have hget := get?_deleteKeys (K := K) (s := s) (x := y) (partKeyRange K s k v)
        obtain ⟨r, hr⟩ := (mem_iff s').1 hy
        rw [hd, hr] at hget
        split_ifs at hget
        exact (mem_iff s).2 ⟨r, hget.symm⟩
      exact (mem_partKeyRange hs' (mem_of_mem_deletedKeys h)).2
    · rw [hd] at h
      cases h

/-! ## The loop over the parts -/

/-- The reads of the loop fill their buffers. -/
def readsFill : List ObjectPartInfo → Stream → Bool
  | [], _ => true
  | part :: parts, st =>
    (st.readFull part.size.toNat).2.1 = none && readsFill parts (st.readFull part.size.toNat).2.2

def copyKey (k nxtVers : Bytes) (p : ObjectPartInfo) : Bytes :=
  partKey k nxtVers p.number p.etag p.size

theorem toKineticError_ne_panic (st : KineticStatus) : toKineticError st ≠ some .panic := by
  cases st <;> simp [toKineticError]

theorem cPut_ne_panic (r : Record) : (cPut K s k r).2 ≠ some .panic := by
  have hne := toKineticError_ne_panic (K.putStatus s k r)
  unfold cPut
  cases h : toKineticError (K.putStatus s k r) with
  | none => simp
  | some e => rwa [h] at hne

section Loop

variable {o : Bytes} {now : Nat} {parts : List ObjectPartInfo} {st : Stream}

theorem copyParts_get?_of_not_mem (hx : ∀ p ∈ parts, x ≠ copyKey k v p) :
    (copyParts K s k v o now parts st).1.get? x = s.get? x := by
  induction parts generalizing s st with
  | nil => rfl
  | cons p parts ih =>
    unfold copyParts
    split
    · rfl
    · dsimp only
      have hput {r : Record} {out : Store × Option Err} (heq : cPut K s (copyKey k v p) r = out) :
          out.1.get? x = s.get? x :=
        heq ▸ cPut_get?_of_ne (hx p List.mem_cons_self)
      split
      · next heq => exact hput heq
      · next heq => exact (ih fun q hq => hx q (List.mem_cons_of_mem _ hq)).trans (hput heq)

theorem copyParts_ne_panic (hsize : ∀ p ∈ parts, 0 ≤ p.size) :
    (copyParts K s k v o now parts st).2 ≠ some .panic := by
  induction parts generalizing s st with
  | nil => simp [copyParts]
  | cons p parts ih =>
    rw [copyParts, if_neg (by have := hsize p List.mem_cons_self; omega)]
    dsimp only
    split
    · next heq => exact fun h => cPut_ne_panic _ ((congrArg Prod.snd heq).trans h)
    · exact ih fun q hq => hsize q (List.mem_cons_of_mem _ hq)

theorem Stream.readFull_rest {n : Nat} (h : (st.readFull n).2.1 = none) :
    n ≤ st.data.length ∧ (st.readFull n).1 = st.data.take n ∧ (st.readFull n).2.2.data =
      st.data.drop n := by
  obtain ⟨buf, err, st', hr⟩ : ∃ buf err st', st.readFull n = (buf, err, st') := ⟨_, _, _, rfl⟩
  rw [hr] at h ⊢
  obtain rfl : err = none := h
  obtain ⟨hle, hbuf⟩ := readFull_ok hr
  refine ⟨hle, hbuf, ?_⟩
  unfold Stream.readFull at hr
  split at hr
  · next h0 =>
    cases hr
    simp [h0]
  · split at hr
    · cases hr
      rfl
    · cases hr

/-- When the reads fill their buffers from the contents of the parts and every put is accepted, each
part is copied. -/
theorem copyParts_copies {l : List (ObjectPartInfo × Bytes)} {s' : Store}
    (hbuf : ∀ n, (K.allocateBuffer n).length = n) (hsize : ∀ y ∈ l, y.1.size = y.2.length)
    (hsame : ∀ y ∈ l, ∀ z ∈ l, copyKey k v y.1 = copyKey k v z.1 → y.2 = z.2)
    (hdata : st.data <+: (l.map Prod.snd).flatten) (hfill : readsFill (l.map Prod.fst) st = true)
    (hok : copyParts K s k v o now (l.map Prod.fst) st = (s', none)) :
    ∀ y ∈ l, ∃ blob, s'.get? (copyKey k v y.1) = some ⟨blob, y.2⟩ := by
  induction l generalizing s st with
  | nil => intro y hy; cases hy
  | cons y l ih =>
    obtain ⟨p, c⟩ := y
    have hpc : p.size = c.length := hsize _ List.mem_cons_self
    rw [List.map_cons, readsFill, Bool.and_eq_true, decide_eq_true_eq, hpc, Int.toNat_natCast]
      at hfill
    obtain ⟨hle, hread, hrest⟩ := Stream.readFull_rest hfill.1
    rw [List.map_cons, List.flatten_cons] at hdata
    -- the buffer holds the content of the part
    have hc : (st.readFull c.length).1 = c := by
      rw [hread]
      exact (List.prefix_iff_eq_take.1 (List.prefix_of_prefix_length_le (List.prefix_append _ _)
        hdata hle)).symm
    have hdata' : (st.readFull c.length).2.2.data <+: (l.map Prod.snd).flatten := by
      obtain ⟨t, ht⟩ := hdata
      refine ⟨t, ?_⟩
      have hdrop := congrArg (List.drop c.length) ht
      rwa [List.drop_left, List.drop_append_of_le_length hle, ← hrest] at hdrop
    rw [List.map_cons, copyParts, if_neg (show ¬ p.size < 0 by omega)] at hok
    dsimp only at hok
    rw [hpc, Int.toNat_natCast, hc, List.drop_eq_nil_of_le (hbuf _).le, List.append_nil] at hok
    rcases cPut_eq (K := K) s (partKey k v p.number p.etag c.length)
        ⟨.json (partMeta o p.etag c.length now), c⟩ with
      ⟨hp, -⟩ | ⟨e, hp⟩
    · simp only [hp] at hok
      have htail := ih (fun z hz => hsize z (List.mem_cons_of_mem _ hz))
        (fun y hy z hz => hsame y (List.mem_cons_of_mem _ hy) z (List.mem_cons_of_mem _ hz))
          hdata' hfill.2 hok
      intro z hz
      rcases List.mem_cons.1 hz with rfl | hz
      · by_cases hagain : ∃ z ∈ l, copyKey k v p = copyKey k v z.1
        · -- a later part is put under the same key
          obtain ⟨z, hz, heq⟩ := hagain
          obtain ⟨blob, hblob⟩ := htail z hz
          exact ⟨blob, by rw [heq, hblob,
            hsame _ List.mem_cons_self z (List.mem_cons_of_mem _ hz) heq]⟩
        · have hnot : ∀ q ∈ l.map Prod.fst, copyKey k v p ≠ copyKey k v q := by
            intro q hq heq
            obtain ⟨z, hz, rfl⟩ := List.mem_map.1 hq
            exact hagain ⟨z, hz, heq⟩
          have hframe := congrArg (fun res => res.1.get? (copyKey k v p)) hok
          dsimp only at hframe
          rw [copyParts_get?_of_not_mem hnot] at hframe
          refine ⟨.json (partMeta o p.etag c.length now), hframe.symm.trans ?_⟩
          rw [copyKey, hpc]
          exact get?_insert_self _ _ _
      · exact htail z hz
    · rw [hp] at hok
      cases hok

end Loop

/-! ## The copy -/

/-- The keys of the object under `k`: its own and those of its parts. -/
def objectKeys (s : Store) (k : Bytes) : List Bytes :=
  k :: match s.get? k with
    | some r => r.blob.partKeys k
    | none => []

/-- A completed multipart object with the given contents as the source of a copy. A part is
determined by its file name, and the reader delivers the contents up to an end or an error at any
byte. -/
structure CopiedFrom (s : Store) (srcKey : Bytes) (src : CopySource) (contents : List Bytes) :
    Prop where
  object : ∃ m, MultipartObject s srcKey m contents ∧ src.parts = m.parts
  size : src.size = contents.flatten.length
  parts : ∀ p ∈ src.parts, ∀ q ∈ src.parts,
    encodePartFile p.number p.etag p.size = encodePartFile q.number q.etag q.size → p = q
  delivers : src.reader.stream.data <+: contents.flatten

section Copy

variable (K : Kineticd) (s : Store) (src : CopySource) (b o : Bytes) (now : Nat)

def copied (v : Bytes) : Store × Option Err :=
  copyParts K s (makeKey b o) (newVersion v) o now src.parts src.reader.stream

def copyRecord (v : Bytes) : Record := ⟨.json (copyMeta src o (newVersion v) now), []⟩

/-- Every put of the copy is accepted. -/
def CopyAccepted (v : Bytes) : Prop :=
  currentVersion K s (makeKey b o) = .ok v ∧ (copied K s src b o now v).2 = none ∧
    K.putStatus (copied K s src b o now v).1 (makeKey b o) (copyRecord src o now v) = .success

/-- A copy is faithful, or it fails and leaves the object that was there. -/
structure CopyLaw (contents : List Bytes) : Prop where
  faithful : ∀ s' info, copyMultipartObject K s src b o now = (s', .ok info) →
    ∃ m, MultipartObject s' (makeKey b o) m contents ∧ (K.marshal m).length ≤ maxMetaBytes
  noticed : readsFill src.parts src.reader.stream = false ∨
    (∀ v, ¬ CopyAccepted K s src b o now v) →
    ∃ e, (copyMultipartObject K s src b o now).2 = .error e
  unchanged : ∀ s' e, copyMultipartObject K s src b o now = (s', .error e) →
    ∀ x ∈ objectKeys s (makeKey b o), s'.get? x = s.get? x

end Copy

section Law

variable {src : CopySource} {srcKey b o : Bytes} {now : Nat} {contents : List Bytes}

theorem copyMultipartObject_of_accepted (h : CopyAccepted K s src b o now v) :
    copyMultipartObject K s src b o now =
      ((deleteParts K ((copied K s src b o now v).1.insert (makeKey b o) (copyRecord src o now v))
        (makeKey b o) v).1,
        .ok ((copyMeta src o (newVersion v) now).toObjectKVInfo b o src.size)) := by
  obtain ⟨hv, hc, hput⟩ := h
  unfold copyMultipartObject
  rcases hcopy : copied K s src b o now v with ⟨s1, _ | e⟩
  · rw [hcopy] at hput
    have hp : cPut K s1 (makeKey b o) (copyRecord src o now v) =
        (s1.insert (makeKey b o) (copyRecord src o now v), none) := by
      simp only [cPut, hput, toKineticError]
    unfold copied at hcopy
    unfold copyRecord at hp ⊢
    simp only [hv, hcopy, hp]
  · rw [hcopy] at hc
    cases hc

theorem copyMultipartObject_of_not (hsize : ∀ p ∈ src.parts, 0 ≤ p.size)
    (hv : currentVersion K s (makeKey b o) = .ok v) (h : ¬ CopyAccepted K s src b o now v) :
    ∃ e, copyMultipartObject K s src b o now =
      ((deleteParts K (copied K s src b o now v).1 (makeKey b o) (newVersion v)).1, .error e) := by
  have hpanic : (copied K s src b o now v).2 ≠ some .panic := copyParts_ne_panic hsize
  unfold copyMultipartObject
  rcases hcopy : copied K s src b o now v with ⟨s1, _ | e⟩
  · rcases cPut_eq (K := K) s1 (makeKey b o) (copyRecord src o now v) with ⟨-, hst⟩ | ⟨e, hp⟩
    · exact absurd ⟨hv, by rw [hcopy], by rw [hcopy]; exact hst⟩ h
    · unfold copied at hcopy
      unfold copyRecord at hp
      exact ⟨e, by simp only [hv, hcopy, hp]⟩
  · rw [hcopy] at hpanic
    unfold copied at hcopy
    refine ⟨e, ?_⟩
    simp only [hv, hcopy]
    split
    · next heq => cases heq; exact absurd rfl hpanic
    · next heq => cases heq; rfl
    · next heq => cases heq

theorem copyMeta_parts {l : List (ObjectPartInfo × Bytes)} (hparts : src.parts = l.map Prod.fst) :
    (copyMeta src o v now).parts = l.map fun y => { y.1 with actualSize := y.1.size } := by
  show src.parts.map _ = _
  rw [hparts, List.map_map]
  rfl

variable (K s src b o now) in
theorem copyMultipartObject_cases :
    (∃ e, copyMultipartObject K s src b o now = (s, .error e) ∧
      ∀ v, ¬ CopyAccepted K s src b o now v) ∨
      (∃ v, CopyAccepted K s src b o now v) ∨
      ∃ v, currentVersion K s (makeKey b o) = .ok v ∧ ¬ CopyAccepted K s src b o now v := by
  cases hv : currentVersion K s (makeKey b o) with
  | error e =>
    refine .inl ⟨e, ?_, fun v hacc => ?_⟩
    · simp only [copyMultipartObject, hv]
    · rw [hacc.1] at hv
      cases hv
  | ok v =>
    by_cases hacc : CopyAccepted K s src b o now v
    · exact .inr (.inl ⟨v, hacc⟩)
    · exact .inr (.inr ⟨v, rfl, hacc⟩)

section Source

variable (hsrc : CopiedFrom s srcKey src contents)

include hsrc

theorem CopiedFrom.zip : ∃ l : List (ObjectPartInfo × Bytes), src.parts = l.map Prod.fst ∧
    contents = l.map Prod.snd ∧
    (∀ y ∈ l, y.1.size = y.2.length ∧ y.2 ≠ []) ∧
    ∀ w, ∀ y ∈ l, ∀ z ∈ l, copyKey k w y.1 = copyKey k w z.1 → y.2 = z.2 := by
  obtain ⟨m, hobj, hparts⟩ := hsrc.object
  obtain ⟨hlen, hall⟩ := List.forall₂_iff_zip.1 hobj.parts
  refine ⟨m.parts.zip contents, ?_, ?_, ?_, ?_⟩
  · rw [hparts, List.map_fst_zip hlen.le]
  · rw [List.map_snd_zip hlen.ge]
  · rintro ⟨p, c⟩ hy
    exact (hall hy).2
  · rintro w ⟨p, c⟩ hy ⟨q, d⟩ hz heq
    have hp : p ∈ src.parts := hparts ▸ (List.of_mem_zip hy).1
    have hq : q ∈ src.parts := hparts ▸ (List.of_mem_zip hz).1
    -- one key is one part, and one part has one content
    obtain rfl := hsrc.parts p hp q hq (List.append_cancel_left heq)
    obtain ⟨⟨_, h1⟩, -⟩ := hall hy
    obtain ⟨⟨_, h2⟩, -⟩ := hall hz
    rw [h1] at h2
    simpa using (Record.mk.inj (Option.some.inj h2)).2

theorem CopiedFrom.size_nonneg : ∀ p ∈ src.parts, 0 ≤ p.size := by
  obtain ⟨l, hl, -, hsize, -⟩ := hsrc.zip (k := [])
  intro p hp
  rw [hl] at hp
  obtain ⟨y, hy, rfl⟩ := List.mem_map.1 hp
  rw [(hsize y hy).1]
  omega

/-- Where the copied parts and the record are stored, there is the copy. -/
theorem CopiedFrom.multipartObject {t : Store} {l : List (ObjectPartInfo × Bytes)}
    (hparts : src.parts = l.map Prod.fst)
    (hcontents : contents = l.map Prod.snd) (hsize : ∀ y ∈ l, y.1.size = y.2.length ∧ y.2 ≠ [])
    (hrec : t.get? k = some (copyRecord src o now v))
    (hcopy : ∀ y ∈ l, ∃ blob, t.get? (copyKey k (newVersion v) y.1) = some ⟨blob, y.2⟩) :
    MultipartObject t k (copyMeta src o (newVersion v) now) contents := by
  obtain ⟨m, hobj, -⟩ := hsrc.object
  have hsizeEntry : (copyMeta src o (newVersion v) now).get keySize = formatInt src.size := by
    show FsMetaV1.get (FsMetaV1.set _ keyActualSize _) keySize = _
    rw [FsMetaV1.get_set_of_ne _ _ (by decide), FsMetaV1.get_set_self]
  refine ⟨⟨_, hrec⟩, ?_, hobj.nonempty, ?_⟩
  · rw [copyMeta_version, copyMeta_parts hparts, hcontents, List.forall₂_map_left_iff,
      List.forall₂_map_right_iff, List.forall₂_same]
    exact fun y hy => ⟨hcopy y hy, hsize y hy⟩
  · have hlt := parseInt64_lt hobj.size
    rw [hsizeEntry, hsrc.size]
    exact parseInt64_formatInt (by omega) hlt

end Source

theorem partsKey_prefix_copyKey (k w : Bytes) (p : ObjectPartInfo) :
    partsKey k w <+: copyKey k w p :=
  List.prefix_append _ _

theorem not_prefix_of_mem_objectKeys (hv : currentVersion K s k = .ok v)
    (hver : versionOrEmpty v = true)
    (hx : x ∈ objectKeys s k) : ¬ partsKey k (newVersion v) <+: x := by
  intro hp
  unfold objectKeys at hx
  rcases List.mem_cons.1 hx with rfl | hx
  · exact ne_of_partsKey hp rfl
  · rcases hget : s.get? k with _ | ⟨m | bi, value⟩
    · simp [hget] at hx
    · simp only [hget, Blob.partKeys, FsMetaV1.partKeys, get_keyVersion_of_currentVersion hv hget]
        at hx
      obtain ⟨p, -, rfl⟩ := List.mem_map.1 hx
      have heq := version_eq_of_partsKey (versionOrEmpty_newVersion hver) hver hp
        (List.prefix_append _ _)
      exact newVersion_ne (by simpa [versionOrEmpty] using hver) heq
    · simp [hget, Blob.partKeys] at hx

theorem get?_copied (hx : ∀ p ∈ src.parts, x ≠ copyKey (makeKey b o) (newVersion v) p) :
    (copied K s src b o now v).1.get? x = s.get? x :=
  copyParts_get?_of_not_mem hx

theorem mem_copied (hx : x ∈ (copied K s src b o now v).1) :
    x ∈ s ∨ ∃ p ∈ src.parts, x = copyKey (makeKey b o) (newVersion v) p := by
  by_cases h : ∃ p ∈ src.parts, x = copyKey (makeKey b o) (newVersion v) p
  · exact .inr h
  · have hget : (copied K s src b o now v).1.get? x = s.get? x :=
      get?_copied fun p hp heq => h ⟨p, hp, heq⟩
    refine .inl ?_
    rwa [mem_iff, ← hget, ← mem_iff]

/-- The law in terms of the keys that the cleanups delete. -/
theorem copyLaw_iff_swept (hbuf : ∀ n, (K.allocateBuffer n).length = n)
    (hsrc : CopiedFrom s srcKey src contents)
    (hver : ∀ v, currentVersion K s (makeKey b o) = .ok v → versionOrEmpty v = true) :
    CopyLaw K s src b o now contents ↔
      (∀ v, CopyAccepted K s src b o now v →
        readsFill src.parts src.reader.stream = true ∧
        (K.marshal (copyMeta src o (newVersion v) now)).length ≤ maxMetaBytes ∧
        ∀ x, (x = makeKey b o ∨ ∃ p ∈ src.parts, x = copyKey (makeKey b o) (newVersion v) p) →
          x ∉ sweptKeys K ((copied K s src b o now v).1.insert (makeKey b o)
            (copyRecord src o now v)) (makeKey b o) v) ∧
      (∀ v, currentVersion K s (makeKey b o) = .ok v → ¬ CopyAccepted K s src b o now v →
        ∀ x ∈ objectKeys s (makeKey b o), x ∈ s →
          x ∉ sweptKeys K (copied K s src b o now v).1 (makeKey b o) (newVersion v)) := by
  obtain ⟨l, hparts, hcontents, hsize, hsame⟩ := hsrc.zip (k := makeKey b o)
  constructor
  · intro hlaw
    constructor
    · intro v hacc
      have hres := copyMultipartObject_of_accepted hacc
      obtain ⟨m, hobj, hfits⟩ := hlaw.faithful _ _ hres
      have hread : readsFill src.parts src.reader.stream = true := by
        by_contra hfill
        obtain ⟨e, he⟩ := hlaw.noticed (.inl (Bool.eq_false_iff.2 hfill))
        rw [hres] at he
        cases he
      obtain ⟨value, hrec⟩ := hobj.record
      rw [get?_deleteParts] at hrec
      split_ifs at hrec with hswept
      · rw [get?_insert_self] at hrec
        cases hrec
        refine ⟨hread, hfits, ?_⟩
        rintro x (rfl | ⟨p, hp, rfl⟩) hx
        · exact hswept hx
        · -- the part is there, so it was not deleted
          have hall := hobj.parts
          rw [copyMeta_version, copyMeta_parts hparts, hcontents, List.forall₂_map_left_iff,
            List.forall₂_map_right_iff, List.forall₂_same] at hall
          rw [hparts] at hp
          obtain ⟨y, hy, rfl⟩ := List.mem_map.1 hp
          obtain ⟨⟨blob, hblob⟩, -⟩ := hall y hy
          rw [get?_deleteParts] at hblob
          exact absurd (hblob.symm.trans (if_pos hx)) (by simp)
    · intro v hv hnot x hx hmem hswept
      obtain ⟨e, hres⟩ := copyMultipartObject_of_not hsrc.size_nonneg hv hnot
      have hsame := hlaw.unchanged _ _ hres x hx
      rw [get?_deleteParts, if_pos hswept] at hsame
      exact (mem_iff s).1 hmem |>.elim fun r hr => by rw [hr] at hsame; cases hsame
  · rintro ⟨hgood, hbad⟩
    rcases copyMultipartObject_cases K s src b o now with
      ⟨e, hres, hnone⟩ | ⟨v, hacc⟩ | ⟨v, hv, hnot⟩
    · refine ⟨fun s' info h => ?_, fun _ => ⟨e, by rw [hres]⟩, fun s' e' h x _ => ?_⟩ <;>
        rw [hres] at h <;> cases h
      rfl
    · obtain ⟨hread, hfits, hkept⟩ := hgood v hacc
      have hres := copyMultipartObject_of_accepted hacc
      refine ⟨fun s' info h => ⟨copyMeta src o (newVersion v) now, ?_, hfits⟩, ?_, fun s' e h => ?_⟩
      · rw [hres] at h
        cases h
        have hfill : readsFill (l.map Prod.fst) src.reader.stream = true := hparts ▸ hread
        have hcopied : copyParts K s (makeKey b o) (newVersion v) o now (l.map Prod.fst)
          src.reader.stream =
            ((copied K s src b o now v).1, none) := by
          rw [← hparts]
          exact Prod.ext rfl hacc.2.1
        have hcopy := copyParts_copies hbuf (fun y hy => (hsize y hy).1) (hsame _)
          (hcontents ▸ hsrc.delivers) hfill hcopied
        refine hsrc.multipartObject hparts hcontents hsize ?_ fun y hy => ?_
        · rw [get?_deleteParts, if_neg (hkept _ (.inl rfl)), get?_insert_self]
        · have hy' : y.1 ∈ src.parts := hparts ▸ List.mem_map_of_mem hy
          rw [get?_deleteParts, if_neg (hkept _ (.inr ⟨y.1, hy', rfl⟩)),
            get?_insert_of_ne (ne_of_partsKey (partsKey_prefix_copyKey _ _ _))]
          exact hcopy y hy
      · rintro (hfill | hnone)
        · rw [hread] at hfill
          cases hfill
        · exact absurd hacc (hnone v)
      · rw [hres] at h
        cases h
    · obtain ⟨e, hres⟩ := copyMultipartObject_of_not hsrc.size_nonneg hv hnot
      refine ⟨fun s' info h => ?_, fun _ => ⟨e, by rw [hres]⟩, fun s' e' h x hx => ?_⟩ <;>
        rw [hres] at h <;> cases h
      -- no key of the object is written, and none that is there is deleted
      have hframe : (copied K s src b o now v).1.get? x = s.get? x := get?_copied fun p _ heq =>
        not_prefix_of_mem_objectKeys hv (hver v hv) hx (heq ▸ partsKey_prefix_copyKey _ _ _)
      rw [get?_deleteParts, hframe]
      split_ifs with hswept
      · by_contra hne
        obtain ⟨r, hr⟩ := Option.ne_none_iff_exists'.1 (Ne.symm hne)
        exact hbad v hv hnot x hx ((mem_iff s).2 ⟨r, hr⟩) hswept
      · rfl

/-- No key of the destination's parts has a `:` in it, before or after the copy. -/
def NoColons (s : Store) (src : CopySource) (k : Bytes) : Prop :=
  (∀ y ∈ s, k ++ [dot] <+: y → colon ∉ y) ∧ colon ∉ k ∧ ∀ p ∈ src.parts, colon ∉ p.etag

theorem NoColons.copied (h : NoColons s src (makeKey b o)) {w y : Bytes}
    (hy : y ∈ (copied K s src b o now v).1) (hp : partsKey (makeKey b o) w <+: y) : colon ∉ y := by
  obtain ⟨hs, hk, hetag⟩ := h
  rcases mem_copied hy with hy | ⟨p, hpm, rfl⟩
  · exact hs y hy (List.IsPrefix.trans ⟨w ++ [dot], by simp [partsKey]⟩ hp)
  · exact colon_not_mem_partKey hk (colon_not_mem_newVersion v) (hetag p hpm)

/-- The names of the destination and the etags of its parts get to the drive whole. -/
def CopyNames (src : CopySource) (b o : Bytes) : Prop :=
  CString b ∧ CString o ∧ ∀ p ∈ src.parts, CString p.etag

/-- A copy obeys the law exactly if, when its puts are accepted, every read has filled its buffer,
its metadata can be read and the cleanup spares it, and if the cleanup of a refused copy spares the
object that is there. Without `:` in the keys the cleanups spare both. -/
theorem copyMultipartObject_law_iff (hbuf : ∀ n, (K.allocateBuffer n).length = n)
    (_hnames : CopyNames src b o) (hsrc : CopiedFrom s srcKey src contents)
    (hver : ∀ v, currentVersion K s (makeKey b o) = .ok v → versionOrEmpty v = true) :
    (CopyLaw K s src b o now contents ↔
      (∀ v, CopyAccepted K s src b o now v →
        readsFill src.parts src.reader.stream = true ∧
        (K.marshal (copyMeta src o (newVersion v) now)).length ≤ maxMetaBytes ∧
        ∀ x, (x = makeKey b o ∨ ∃ p ∈ src.parts, x = copyKey (makeKey b o) (newVersion v) p) →
          x ∉ sweptKeys K ((copied K s src b o now v).1.insert (makeKey b o)
            (copyRecord src o now v)) (makeKey b o) v) ∧
      (∀ v, currentVersion K s (makeKey b o) = .ok v → ¬ CopyAccepted K s src b o now v →
        ∀ x ∈ objectKeys s (makeKey b o), x ∈ s →
          x ∉ sweptKeys K (copied K s src b o now v).1 (makeKey b o) (newVersion v))) ∧
    (NoColons s src (makeKey b o) →
      (CopyLaw K s src b o now contents ↔
        ∀ v, CopyAccepted K s src b o now v →
          readsFill src.parts src.reader.stream = true ∧
          (K.marshal (copyMeta src o (newVersion v) now)).length ≤ maxMetaBytes)) := by
  refine ⟨copyLaw_iff_swept hbuf hsrc hver, fun hcolon => ?_⟩
  rw [copyLaw_iff_swept hbuf hsrc hver]
  constructor
  · rintro ⟨hgood, -⟩ v hacc
    exact ⟨(hgood v hacc).1, (hgood v hacc).2.1⟩
  · intro hgood
    constructor
    · intro v hacc
      refine ⟨(hgood v hacc).1, (hgood v hacc).2, fun x hx hswept => ?_⟩
      have hp := prefix_of_mem_sweptKeys (fun y hy hp => ?_) hswept
      · rcases hx with rfl | ⟨p, -, rfl⟩
        · exact ne_of_partsKey hp rfl
        · have hversion := hver v hacc.1
          exact newVersion_ne (by simpa [versionOrEmpty] using hversion)
            (version_eq_of_partsKey (versionOrEmpty_newVersion hversion) hversion
              (partsKey_prefix_copyKey _ _ p) hp)
      · rcases mem_insert.1 hy with rfl | hy
        · exact absurd rfl (ne_of_partsKey hp)
        · exact hcolon.copied hy hp
    · intro v hv _ x hx _ hswept
      have hp := prefix_of_mem_sweptKeys (fun y hy hp => hcolon.copied hy hp) hswept
      exact not_prefix_of_mem_objectKeys hv (hver v hv) hx hp

end Law

def sourceStore : Store :=
  run (uploadDrive (lit "a")) (onePartStore (lit "a"))
    [.completeMultipartUpload (lit "bkt") (lit "a") (lit "u1") [onlyPart.listed]]

/-- The object as the source of a copy, whose reader delivers `data` and then ends. -/
def sourceReading (data : Bytes) : CopySource where
  parts := [onlyPart.stored]
  etag := getCompleteMultipartMD5 (uploadDrive (lit "a")) [onlyPart.listed]
  size := 4
  userDefined := ∅
  metadataOnly := false
  reader := { bodyReader (lit "part") [] with src := ⟨data, none, true⟩ }

theorem copiedFrom_sourceReading {data : Bytes}
    (h : (sourceReading data).reader.stream.data <+: lit "part") :
    CopiedFrom sourceStore (makeKey (lit "bkt") (lit "a")) (sourceReading data) [lit "part"] where
  object := by
    refine ⟨committedMeta (uploadDrive (lit "a")) (lit "a") ∅ 3 (newVersion []) [onlyPart]
      [onlyPart.stored], ⟨⟨[], ?_⟩, ?_, by simp, ?_⟩, rfl⟩
    · decide +kernel
    · refine .cons ⟨⟨.json (onlyPart.fsMeta (lit "a")), ?_⟩, rfl, by decide⟩ .nil
      decide +kernel
    · decide +kernel
  size := rfl
  parts := by
    intro p hp q hq _
    rw [List.mem_singleton.1 hp, List.mem_singleton.1 hq]
  delivers := by simpa using h

theorem copyMultipartObject_law_whole :
    CopyLaw (uploadDrive (lit "a")) sourceStore (sourceReading (lit "part")) (lit "bkt") (lit "b") 9
      [lit "part"] := by
  have hnew : currentVersion (uploadDrive (lit "a")) sourceStore (makeKey (lit "bkt") (lit "b")) =
      .ok [] := by
    decide +kernel
  have hplain : ∀ y ∈ sourceStore.keys, colon ∉ y := by decide +kernel
  refine ((copyMultipartObject_law_iff (fun n => List.length_replicate)
    ⟨by decide, by decide, by decide⟩
    (copiedFrom_sourceReading (by decide)) fun v hv => ?_).2
    ⟨fun y hy _ => hplain y (mem_keys.2 hy), by decide, by decide⟩).2 fun v hacc => ?_
  · rw [hnew] at hv
    cases hv
    rfl
  · have hv := hacc.1
    rw [hnew] at hv
    cases hv
    exact ⟨by decide +kernel, by decide +kernel⟩

/-- The reader ends after two bytes, and the copy succeeds with two zeros behind them. -/
theorem copy_hides_short_read :
    Reachable (uploadDrive (lit "a")) sourceStore ∧
      CopiedFrom sourceStore (makeKey (lit "bkt") (lit "a")) (sourceReading (lit "pa"))
        [lit "part"] ∧
      (∃ info, (copyMultipartObject (uploadDrive (lit "a")) sourceStore (sourceReading (lit "pa"))
        (lit "bkt") (lit "b") 9).2 =
        .ok info) ∧
      ((copyMultipartObject (uploadDrive (lit "a")) sourceStore (sourceReading (lit "pa"))
        (lit "bkt") (lit "b") 9).1.get?
        (copyKey (makeKey (lit "bkt") (lit "b")) (newVersion []) onlyPart.stored)).map
          Record.value =
          some (lit "pa" ++ [0, 0]) ∧
      ¬ CopyLaw (uploadDrive (lit "a")) sourceStore (sourceReading (lit "pa")) (lit "bkt") (lit "b")
        9 [lit "part"] := by
  have hok : (copyMultipartObject (uploadDrive (lit "a")) sourceStore (sourceReading (lit "pa"))
    (lit "bkt") (lit "b") 9).2 =
      .ok ((copyMeta (sourceReading (lit "pa")) (lit "b") (newVersion []) 9).toObjectKVInfo
          (lit "bkt") (lit "b") 4) := by
    decide +kernel
  have hreach : Reachable (uploadDrive (lit "a")) (emptyBucket (lit "a")) := ⟨id, _, rfl⟩
  refine ⟨(hreach.run _).run _, copiedFrom_sourceReading (by decide), ⟨_, hok⟩, by decide +kernel,
    fun hlaw => ?_⟩
  obtain ⟨e, he⟩ := hlaw.noticed (.inl (by decide))
  rw [hok] at he
  cases he

end S3Kinetic
