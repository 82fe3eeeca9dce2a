import S3Kinetic.System
import S3Kinetic.Lib.Evolve

/-!
# What a call can touch

Everything a call on an object writes or deletes lies at the object's key, under
`<key>.fs.json.`, or under `<key>.<version>.` for a five-digit or empty version (`Near`), as long as
no stored key contains `:` and every stored version is well formed (`PlainStore`). Both conditions
hold in every run of plain calls. An object whose keys are apart from those of the target
(`apart`) is therefore left alone (`run_objectView`).
-/

namespace S3Kinetic

open ByteString Decimal OrdMap List

def versionOrEmpty (v : Bytes) : Bool := v = [] || isVersion v

/-- The keys a call on the object with key `k` can touch. -/
def Near (k x : Bytes) : Prop :=
  x = k ∨ jsonKey k [] <+: x ∨ ∃ v, versionOrEmpty v = true ∧ partsKey k v <+: x

def PlainRecord (r : Record) : Prop :=
  ∀ m, r.blob = .json m → versionOrEmpty (m.get keyVersion) = true

/-- No key has a `:` in it, and no record a malformed version. -/
def PlainStore (s : Store) : Prop := ∀ k r, s.get? k = some r → colon ∉ k ∧ PlainRecord r

/-- The writes of a plain call on `k`. -/
def PlainWrite (k x : Bytes) (r : Record) : Prop := Near k x ∧ colon ∉ x ∧ PlainRecord r

variable {K : Kineticd} {s : Store} {k : Bytes}

/-! ## Versions -/

variable {v : Bytes}

theorem versionOrEmpty_newVersion (h : versionOrEmpty v = true) :
    versionOrEmpty (newVersion v) = true := by
  have hv : isVersion (newVersion v) = true :=
    isVersion_newVersion (by simpa [versionOrEmpty] using h)
  simp [versionOrEmpty, hv]

theorem currentVersion_ok (hs : PlainStore s) (h : currentVersion K s k = .ok v) :
    versionOrEmpty v = true := by
  unfold currentVersion cGetMeta at h
  cases hg : s.get? k with
  | none =>
    rw [hg] at h
    cases h
    rfl
  | some r =>
    rw [hg] at h
    obtain ⟨blob, val⟩ := r
    cases blob with
    | gob b =>
      cases h
      rfl
    | json m =>
      simp only [unmarshalMeta] at h
      split at h
      · next hm =>
        split at hm
        · cases hm
          cases h
          exact (hs k _ hg).2 m rfl
        · cases hm
      · cases h
      · cases h
        rfl

/-! ## Deletes -/

variable {W : Bytes → Record → Prop} {D : Bytes → Prop}

theorem delete_evolves (hD : D k) :
    Evolves W D s (delete K s k).1 := by
  rcases delete_eq (K := K) s k with ⟨h, -⟩ | ⟨e, h⟩ <;> rw [h]
  · exact (Evolves.refl s).erase hD
  · exact .refl s

theorem cPut_evolves {r : Record} (hW : W k r) :
    Evolves W D s (cPut K s k r).1 := by
  rcases cPut_eq (K := K) s k r with ⟨h, -⟩ | ⟨e, h⟩ <;> rw [h]
  · exact (Evolves.refl s).insert hW
  · exact .refl s

theorem deleteKeys_evolves {keys : List Bytes}
    (hD : ∀ x ∈ keys, D x) : Evolves W D s (deleteKeys K s keys).1 := by
  induction keys generalizing s with
  | nil => exact .refl s
  | cons x keys ih =>
    have hx := delete_evolves (K := K) (s := s) (W := W) (hD x mem_cons_self)
    unfold deleteKeys
    rcases hd : delete K s x with ⟨s', _ | e⟩
    · rw [hd] at hx
      exact hx.trans (ih fun y hy => hD y (mem_cons_of_mem _ hy))
    · rw [hd] at hx
      exact hx

theorem deleteIgnoring_evolves {keys : List Bytes}
    (hD : ∀ x ∈ keys, D x) : Evolves W D s (deleteIgnoring K s keys) := by
  induction keys generalizing s with
  | nil => exact .refl s
  | cons x keys ih =>
    exact (delete_evolves (hD x mem_cons_self)).trans
      (ih fun y hy => hD y (mem_cons_of_mem _ hy))

theorem partKeyRange_eq (hs : ∀ x ∈ s, partsKey k v <+: x → colon ∉ x) :
    partKeyRange K s k v = (s.keysWhere fun x => hasPrefix x (partsKey k v)).take 800 := by
  have hr := getKeyRange_partsKey (K := K) (s := s) k v 800
  unfold partKeyRange
  rw [cGetKeyRange_eq, hr]
  intro x hx
  rw [hr] at hx
  obtain ⟨hmem, hp⟩ := mem_keysWhere.1 (mem_of_mem_take hx)
  have hpre : partsKey k v <+: x := isPrefixOf_iff_prefix.1 hp
  refine ⟨hs x hmem hpre, ?_⟩
  rintro rfl
  have := hpre.length_le
  simp [partsKey] at this

variable {x : Bytes}

theorem mem_partKeyRange (hs : ∀ x ∈ s, partsKey k v <+: x → colon ∉ x)
    (hx : x ∈ partKeyRange K s k v) : x ∈ s ∧ partsKey k v <+: x := by
  rw [partKeyRange_eq hs] at hx
  obtain ⟨hmem, hp⟩ := mem_keysWhere.1 (mem_of_mem_take hx)
  exact ⟨hmem, isPrefixOf_iff_prefix.1 hp⟩

theorem deleteParts_evolves
    (hs : ∀ x ∈ s, partsKey k v <+: x → colon ∉ x) :
    Evolves W (fun x => partsKey k v <+: x) s (deleteParts K s k v).1 := by
  have h1 : Evolves (fun _ _ => False) (fun x => partsKey k v <+: x) s
      (deleteKeys K s (partKeyRange K s k v)).1 :=
    deleteKeys_evolves fun x hx => (mem_partKeyRange hs hx).2
  have hmono {m n : Store} (h : Evolves (fun _ _ => False) (fun x => partsKey k v <+: x) m n) :
      Evolves W (fun x => partsKey k v <+: x) m n := h.mono (fun _ _ h => h.elim) fun _ h => h
  unfold deleteParts
  rcases hd : deleteKeys K s (partKeyRange K s k v) with ⟨s', _ | e⟩
  · rw [hd] at h1
    have hs' : ∀ x ∈ s', partsKey k v <+: x → colon ∉ x := fun x hx hp =>
      hs x ((h1.mem_of_mem hx).elim id fun ⟨_, h⟩ => h.elim) hp
    exact hmono (h1.trans (deleteKeys_evolves fun x hx => (mem_partKeyRange hs' hx).2))
  · rw [hd] at h1
    exact hmono h1

/-! ## Keys without a separator -/

theorem colon_not_mem_padInt (w : Nat) (n : Int) : colon ∉ padInt w n := by
  intro h
  rcases padInt_digit_or_minus h with h | h <;> exact absurd h (by decide)

theorem colon_not_mem_formatInt (n : Int) : colon ∉ formatInt n := by
  intro h
  rcases formatInt_digit_or_minus h with h | h <;> exact absurd h (by decide)

theorem colon_not_mem_newVersion (v : Bytes) : colon ∉ newVersion v := by
  unfold newVersion
  split <;> exact colon_not_mem_padInt 5 _

variable {b o : Bytes}

theorem colon_not_mem_makeKey (hb : colon ∉ b) (ho : colon ∉ o) : colon ∉ makeKey b o := by
  simp only [makeKey, mem_append, mem_cons, not_or]
  exact ⟨hb, by decide, ho⟩

variable {u : Bytes}

theorem colon_not_mem_jsonKey (hk : colon ∉ k) (hu : colon ∉ u) : colon ∉ jsonKey k u := by
  simp only [jsonKey, mem_append, mem_cons, not_or]
  exact ⟨hk, by decide, by decide, by decide, hu⟩

theorem colon_not_mem_partKey {e : Bytes} {n size : Int} (hk : colon ∉ k) (hv : colon ∉ v)
    (he : colon ∉ e) : colon ∉ partKey k v n e size := by
  simp only [partKey, partsKey, encodePartFile, mem_append, mem_cons, not_mem_nil,
    not_or]
  exact ⟨⟨hk, by decide, hv, by decide, not_false⟩, colon_not_mem_padInt 5 n, by decide,
    he, by decide, colon_not_mem_formatInt size⟩

theorem colon_not_mem_partETag {r : PutObjReader} : colon ∉ partETag K r := fun h =>
  absurd (isEtagChar_partETag h) (by decide)

theorem near_jsonKey (k u : Bytes) : Near k (jsonKey k u) :=
  .inr (.inl ⟨u, by simp [jsonKey]⟩)

theorem near_partKey (hv : versionOrEmpty v = true) (k : Bytes) (n : Int) (e : Bytes)
    (size : Int) : Near k (partKey k v n e size) :=
  .inr (.inr ⟨v, hv, prefix_append _ _⟩)

/-! ## Calls on one object -/

/-- What a call makes keys of. -/
def Op.names : Op → List Bytes
  | .makeBucket b _ | .deleteBucket b _ => [b]
  | .putObject b o _ _ _ | .deleteObject b o => [b, o]
  | .newMultipartUpload b o _ u _ | .putObjectPart b o u _ _ _ | .completeMultipartUpload b o u _
  | .abortMultipartUpload b o u => [b, o, u]
  | .copyObject sb so b o src _ => [sb, so, b, o] ++ src.parts.map ObjectPartInfo.etag

/-- No `:` in the names and etags that a call writes under, and no version among the metadata of a
new upload. -/
def Op.ColonFree : Op → Prop
  | .makeBucket b _ => colon ∉ b
  | .deleteBucket _ _ => True
  | .putObject b o _ _ _ => colon ∉ b ∧ colon ∉ o
  | .deleteObject _ _ => True
  | .newMultipartUpload b o ud u _ => colon ∉ b ∧ colon ∉ o ∧ colon ∉ u ∧ ud.get? keyVersion = none
  | .putObjectPart b o _ _ _ _ => colon ∉ b ∧ colon ∉ o
  | .completeMultipartUpload b o _ _ => colon ∉ b ∧ colon ∉ o
  | .abortMultipartUpload _ _ _ => True
  | .copyObject _ _ b o src _ => colon ∉ b ∧ colon ∉ o ∧ ∀ p ∈ src.parts, colon ∉ p.etag

/-- The calls that keep stores plain. Their names get to the drive whole. -/
def Op.Plain (op : Op) : Prop := (∀ x ∈ op.names, CString x) ∧ op.ColonFree

/-- The object a call is about. -/
def Op.target : Op → Option (Bytes × Bytes)
  | .makeBucket _ _ | .deleteBucket _ _ => none
  | .putObject b o _ _ _ | .deleteObject b o | .newMultipartUpload b o _ _ _
  | .putObjectPart b o _ _ _ _ | .completeMultipartUpload b o _ _ | .abortMultipartUpload b o _
  | .copyObject _ _ b o _ _ => some (b, o)

theorem PlainStore.not_colon (hs : PlainStore s) (hx : x ∈ s) : colon ∉ x := by
  obtain ⟨r, hr⟩ := (mem_iff s).1 hx
  exact (hs x r hr).1

theorem PlainStore.evolve {s' : Store} (hs : PlainStore s)
    (h : Evolves (PlainWrite k) D s s') : PlainStore s' :=
  h.invariant (fun _ _ hw => ⟨hw.2.1, hw.2.2⟩) hs

theorem deleteParts_near (hs : PlainStore s)
    (hv : versionOrEmpty v = true) : Evolves W (Near k) s (deleteParts K s k v).1 :=
  (deleteParts_evolves fun _ hx _ => hs.not_colon hx).mono (fun _ _ h => h)
    fun _ h => .inr (.inr ⟨v, hv, h⟩)

theorem putObjectBody_near (hs : PlainStore s) (hb : colon ∉ b) (ho : colon ∉ o)
    (r : PutObjReader) (ud : OrdMap Bytes Bytes) (now : Nat) :
    Evolves (PlainWrite (makeKey b o)) (Near (makeKey b o)) s
      (putObjectBody K s b o r ud now).1 := by
  rcases putObjectBody_cases (K := K) s b o r ud now with ⟨e, h⟩ | ⟨v, buf, st, -, -, hv, -, h⟩ <;>
    rw [h]
  · exact .refl s
  · refine (Evolves.refl s).insert ⟨.inl rfl, colon_not_mem_makeKey hb ho, ?_⟩
    rintro m ⟨⟩
    rw [putObjectMeta_version]
    exact versionOrEmpty_newVersion (currentVersion_ok hs hv)

theorem putObject_near (hs : PlainStore s) (hb : colon ∉ b) (ho : colon ∉ o)
    (r : PutObjReader) (ud : OrdMap Bytes Bytes) (now : Nat) :
    Evolves (PlainWrite (makeKey b o)) (Near (makeKey b o)) s (putObject K s b o r ud now).1 := by
  rcases putObject_cases (K := K) s b o r ud now with ⟨e, h⟩ | h <;> rw [h]
  · exact .refl s
  · exact putObjectBody_near hs hb ho r ud now

theorem newMultipartUpload_near {ud : OrdMap Bytes Bytes} {now : Nat}
    (hb : colon ∉ b) (ho : colon ∉ o) (hu : colon ∉ u) (hud : ud.get? keyVersion = none) :
    Evolves (PlainWrite (makeKey b o)) (Near (makeKey b o)) s
      (newMultipartUpload K s b o ud u now).1 := by
  rcases newMultipartUpload_cases (K := K) s b o ud u now with ⟨e, h⟩ | h <;> rw [h]
  · exact .refl s
  · refine (Evolves.refl s).insert
      ⟨near_jsonKey _ u, colon_not_mem_jsonKey (colon_not_mem_makeKey hb ho) hu, ?_⟩
    rintro m ⟨⟩
    rw [uploadMeta_version, hud]
    rfl

theorem putObjectPart_near {n : Int} {r : PutObjReader} {now : Nat}
    (hs : PlainStore s) (hb : colon ∉ b) (ho : colon ∉ o) :
    Evolves (PlainWrite (makeKey b o)) (Near (makeKey b o)) s
      (putObjectPart K s b o u n r now).1 := by
  rcases putObjectPart_cases (K := K) s b o u n r now with ⟨e, h⟩ |
    ⟨v, buf, st, hv, -, h⟩ <;> rw [h]
  · exact .refl s
  · refine (Evolves.refl s).insert ⟨near_partKey ?_ _ _ _ _, ?_, ?_⟩
    · exact versionOrEmpty_newVersion (currentVersion_ok hs hv)
    · exact colon_not_mem_partKey (colon_not_mem_makeKey hb ho) (colon_not_mem_newVersion v)
        colon_not_mem_partETag
    · rintro m ⟨⟩
      rw [partMeta_version]
      rfl

theorem commitUpload_near (hk : colon ∉ k) (hv : versionOrEmpty v = true)
    (u md5 : Bytes) (ps : List ObjectPartInfo) :
    Evolves (PlainWrite k) (Near k) s (commitUpload K s k u v md5 ps).1 := by
  have hdel : Evolves (PlainWrite k) (Near k) s (delete K s (jsonKey k u)).1 :=
    delete_evolves (near_jsonKey k u)
  rcases commitUpload_cases (K := K) s k u v md5 ps with ⟨e, h, -⟩ | ⟨e, h, -⟩ |
    ⟨rec, m, -, -, h⟩ <;>
    rw [h]
  · exact .refl s
  · exact hdel
  · refine hdel.insert ⟨.inl rfl, hk, ?_⟩
    rintro m' ⟨⟩
    rw [completeMeta_version]
    exact hv

theorem completeMultipartUpload_near {parts : List CompletePart}
    (hs : PlainStore s) (hb : colon ∉ b) (ho : colon ∉ o) :
    Evolves (PlainWrite (makeKey b o)) (Near (makeKey b o)) s
      (completeMultipartUpload K s b o u parts).1 := by
  rcases completeMultipartUpload_cases (K := K) s b o u parts with
    ⟨e, h⟩ | ⟨v, keys, ps, hv, -, -, ⟨s', e, hc, h⟩ | ⟨s', m, hc, h⟩⟩ <;> rw [h]
  · exact .refl s
  · have hcu := commitUpload_near (K := K) (s := s) (colon_not_mem_makeKey hb ho)
      (versionOrEmpty_newVersion (currentVersion_ok hs hv)) u (getCompleteMultipartMD5 K parts) ps
    rwa [hc] at hcu
  · have hcu := commitUpload_near (K := K) (s := s) (colon_not_mem_makeKey hb ho)
      (versionOrEmpty_newVersion (currentVersion_ok hs hv)) u (getCompleteMultipartMD5 K parts) ps
    rw [hc] at hcu
    dsimp only
    split
    · exact hcu.trans (deleteParts_near (hs.evolve hcu) (currentVersion_ok hs hv))
    · exact hcu

theorem abortMultipartUpload_near (hs : PlainStore s) :
    Evolves W (Near (makeKey b o)) s (abortMultipartUpload K s b o u).1 := by
  have hdel {W : Bytes → Record → Prop} :
      Evolves W (Near (makeKey b o)) s (delete K s (jsonKey (makeKey b o) u)).1 :=
    delete_evolves (near_jsonKey _ u)
  have hs' : PlainStore (delete K s (jsonKey (makeKey b o) u)).1 :=
    hs.evolve (k := makeKey b o) hdel
  unfold abortMultipartUpload
  dsimp only
  cases hv : currentVersion K (delete K s (jsonKey (makeKey b o) u)).1 (makeKey b o) with
  | error e => exact hdel
  | ok v =>
    exact hdel.trans (deleteParts_near hs' (versionOrEmpty_newVersion (currentVersion_ok hs' hv)))

theorem partKeys_near {r : Record} (hr : PlainRecord r) (hx : x ∈ r.blob.partKeys k) :
    Near k x := by
  cases hb : r.blob with
  | gob b => simp [hb, Blob.partKeys] at hx
  | json m =>
    rw [hb] at hx
    obtain ⟨p, -, rfl⟩ := mem_map.1 hx
    exact near_partKey (hr m hb) _ _ _ _

theorem deleteRecord_evolves {parts : List Bytes}
    (hk : D k) (hp : ∀ x ∈ parts, D x) : Evolves W D s (deleteRecord K s k parts).1 := by
  unfold deleteRecord
  split
  · have h1 : Evolves W D s (delete K s k).1 := delete_evolves hk
    rcases hd : delete K s k with ⟨s', _ | e⟩
    · rw [hd] at h1
      exact h1.trans (delete_evolves hk)
    · rwa [hd] at h1
  · exact (deleteIgnoring_evolves hp).trans (delete_evolves hk)

theorem deleteObject_near (hs : PlainStore s) :
    Evolves W (Near (makeKey b o)) s (deleteObject K s b o).1 := by
  rcases deleteObject_cases (K := K) s b o with ⟨e, -, h⟩ | ⟨r, hr, h⟩ <;> rw [h]
  · exact .refl s
  · exact deleteRecord_evolves (.inl rfl) fun x hx => partKeys_near (hs _ r hr).2 hx

theorem copyParts_near {parts : List ObjectPartInfo} (hk : colon ∉ k)
    (hv : versionOrEmpty v = true) (hv' : colon ∉ v) (hp : ∀ p ∈ parts, colon ∉ p.etag) (o : Bytes)
    (now : Nat) (st : Stream) :
    Evolves (PlainWrite k) (Near k) s (copyParts K s k v o now parts st).1 := by
  induction parts generalizing s st with
  | nil => exact .refl s
  | cons p parts ih =>
    unfold copyParts
    split
    · exact .refl s
    · dsimp only
      have hput {blob : Bytes} {out : Store × Option Err}
          (hc : cPut K s (partKey k v p.number p.etag p.size)
            ⟨.json (partMeta o p.etag p.size now), blob⟩ = out) :
          Evolves (PlainWrite k) (Near k) s out.1 := by
        rw [← hc]
        refine cPut_evolves ⟨near_partKey hv _ _ _ _,
          colon_not_mem_partKey hk hv' (hp p mem_cons_self), ?_⟩
        rintro m ⟨⟩
        rw [partMeta_version]
        rfl
      split
      · next hc => exact hput hc
      · next hc => exact (hput hc).trans (ih (fun q hq => hp q (mem_cons_of_mem _ hq)) _)

theorem copyMultipartObject_near {src : CopySource} (hs : PlainStore s)
    (hb : colon ∉ b) (ho : colon ∉ o) (hp : ∀ p ∈ src.parts, colon ∉ p.etag) (now : Nat) :
    Evolves (PlainWrite (makeKey b o)) (Near (makeKey b o)) s
      (copyMultipartObject K s src b o now).1 := by
  unfold copyMultipartObject
  dsimp only
  cases hv : currentVersion K s (makeKey b o) with
  | error e => exact .refl s
  | ok v =>
    have hver := currentVersion_ok hs hv
    have hnew := versionOrEmpty_newVersion hver
    have hcp := copyParts_near (K := K) (s := s) (colon_not_mem_makeKey hb ho) hnew
      (colon_not_mem_newVersion v) hp o now src.reader.stream
    dsimp only
    rcases hc : copyParts K s (makeKey b o) (newVersion v) o now src.parts src.reader.stream
      with ⟨s1, e⟩
    rw [hc] at hcp
    have hs1 := hs.evolve hcp
    have hput : Evolves (PlainWrite (makeKey b o)) (Near (makeKey b o)) s1
        (cPut K s1 (makeKey b o) ⟨.json (copyMeta src o (newVersion v) now), []⟩).1 := by
      refine cPut_evolves ⟨.inl rfl, colon_not_mem_makeKey hb ho, ?_⟩
      rintro m ⟨⟩
      rw [copyMeta_version]
      exact hnew
    split
    · next h => cases h; exact hcp
    · next h => cases h; exact hcp.trans (deleteParts_near hs1 hnew)
    · next h =>
      cases h
      rcases hd : cPut K s1 (makeKey b o) ⟨.json (copyMeta src o (newVersion v) now), []⟩
        with ⟨s2, _ | e⟩
      · rw [hd] at hput
        exact (hcp.trans hput).trans (deleteParts_near (hs1.evolve hput) hver)
      · rw [hd] at hput
        exact (hcp.trans hput).trans (deleteParts_near (hs1.evolve hput) hnew)

theorem copyObject_near {src : CopySource} (hs : PlainStore s) (hb : colon ∉ b)
    (ho : colon ∉ o) (hp : ∀ p ∈ src.parts, colon ∉ p.etag) (sb so : Bytes) (now : Nat) :
    Evolves (PlainWrite (makeKey b o)) (Near (makeKey b o)) s
      (copyObject K s sb so b o src now).1 := by
  have hbody := putObjectBody_near (K := K) hs hb ho src.reader src.userDefined now
  have hmp := copyMultipartObject_near (K := K) hs hb ho hp now
  unfold copyObject
  split
  · exact .refl s
  split
  · split
    · exact .refl s
    · split <;> exact .refl s
  split
  · exact .refl s
  dsimp only
  split_ifs
  · split <;> exact hbody
  · split <;> exact hmp

/-! ## Buckets -/

theorem deleteObject_erases (b o : Bytes) :
    Evolves W (fun _ => True) s (deleteObject K s b o).1 := by
  rcases deleteObject_cases (K := K) s b o with ⟨e, -, h⟩ | ⟨r, -, h⟩ <;> rw [h]
  · exact .refl s
  · exact deleteRecord_evolves trivial fun _ _ => trivial

theorem finishBucket_erases (b : Bytes) (e : Option Err) :
    Evolves W (fun _ => True) s (finishBucket K s b e).store := by
  cases e with
  | some e => exact .refl s
  | none =>
    have h1 : Evolves W (fun _ => True) s (delete K s (bucketKey b)).1 := delete_evolves trivial
    unfold finishBucket
    rcases hd : delete K s (bucketKey b) with ⟨s', _ | e⟩
    · rw [hd] at h1
      exact h1.trans (delete_evolves trivial)
    · rwa [hd] at h1

theorem consumer_erases (b : Bytes) (w : Walker) (c : Consumer) :
    Evolves W (fun _ => True) s (c.step K b w s).store := by
  rcases c with ⟨objects, e⟩ | ⟨_ | ⟨object, objects⟩, e⟩ | e
  · unfold Consumer.step
    cases w <;> exact .refl s
  · exact .refl s
  · have h1 : Evolves W (fun _ => True) s (deleteObject K s b object).1 :=
      deleteObject_erases b object
    rw [Consumer.step]
    split
    · next h => rwa [h] at h1
    · next h => rwa [h] at h1
  · exact finishBucket_erases b e

theorem deleteBucket_erases (b : Bytes) (sched : List Bool) :
    Evolves W (fun _ => True) s (deleteBucket K s b sched).store := by
  have hstep (st : BucketRun) (who : Bool) :
      Evolves W (fun _ => True) st.store (st.step K b who).store := by
    rcases st with ⟨w, c, s⟩ | ⟨e, s⟩
    · cases who with
      | true => cases w <;> exact .refl s
      | false =>
        rw [BucketRun.step]
        exact consumer_erases b w c
    · exact .refl s
  have hrun (st : BucketRun) :
      Evolves W (fun _ => True) st.store (sched.foldl (BucketRun.step K b) st).store := by
    induction sched generalizing st with
    | nil => exact .refl _
    | cons who sched ih => exact (hstep st who).trans (ih _)
  unfold deleteBucket
  split
  · exact .refl s
  · exact .refl s
  · exact .refl s
  · exact hrun (.running (.fetch (makeKey b []) (b ++ lit "0")) (.gather [] none) s)

theorem makeBucket_evolves (hb : colon ∉ b) (now : Nat) :
    Evolves (fun x r => colon ∉ x ∧ PlainRecord r) D s (makeBucketWithLocation K s b now).1 := by
  unfold makeBucketWithLocation
  split
  · exact .refl s
  split
  · exact .refl s
  · refine cPut_evolves ⟨?_, fun m h => by cases h⟩
    simp only [bucketKey, mem_append, not_or]
    exact ⟨by decide, hb⟩

/-! ## Runs -/

variable {op : Op}

theorem exec_near (hs : PlainStore s) (hplain : op.Plain)
    (ht : op.target = some (b, o)) :
    Evolves (PlainWrite (makeKey b o)) (Near (makeKey b o)) s (op.exec K s) := by
  have hp := hplain.2
  cases op with
  | makeBucket => cases ht
  | deleteBucket => cases ht
  | putObject b o r ud now => cases ht; exact putObject_near hs hp.1 hp.2 r ud now
  | deleteObject b o => cases ht; exact deleteObject_near hs
  | newMultipartUpload b o ud u now =>
    cases ht
    exact newMultipartUpload_near hp.1 hp.2.1 hp.2.2.1 hp.2.2.2
  | putObjectPart b o u n r now => cases ht; exact putObjectPart_near hs hp.1 hp.2
  | completeMultipartUpload b o u parts => cases ht; exact completeMultipartUpload_near hs hp.1 hp.2
  | abortMultipartUpload b o u => cases ht; exact abortMultipartUpload_near hs
  | copyObject sb so b o src now => cases ht; exact copyObject_near hs hp.1 hp.2.1 hp.2.2 sb so now

theorem exec_plainStore (hp : op.Plain) (hs : PlainStore s) : PlainStore (op.exec K s) := by
  cases ht : op.target with
  | some bo => exact hs.evolve (exec_near hs hp ht)
  | none =>
    cases op with
    | makeBucket b now =>
      exact (makeBucket_evolves (D := fun _ => False) hp.2 now).invariant (fun _ _ h => h) hs
    | deleteBucket b sched =>
      exact (deleteBucket_erases (W := fun _ _ => False) b sched).invariant (fun _ _ h => h.elim) hs
    | _ => cases ht

/-- The records of the internal buckets. -/
def InternalRecord (x : Bytes) (r : Record) : Prop :=
  x ∈ [lit ".minio.sys", lit ".minio.sys/tmp", lit ".minio.sys/multipart"].map bucketKey ∧
    ∃ now, r = ⟨.gob ⟨x, now⟩, []⟩

theorem initStore_evolves (K : Kineticd) (clock : Nat → Nat) :
    Evolves InternalRecord (fun _ => False) ∅ (initStore K clock) := by
  have hone (s : Store) {b : Bytes} (now : Nat)
      (hb : b ∈ [lit ".minio.sys", lit ".minio.sys/tmp", lit ".minio.sys/multipart"]) :
      Evolves InternalRecord (fun _ => False) s (initBucket K s b now).1 := by
    unfold initBucket
    split
    · exact .refl s
    · exact cPut_evolves ⟨mem_map_of_mem hb, now, rfl⟩
  have h1 := hone ∅ (clock 0) (b := lit ".minio.sys") (by simp)
  unfold initStore initKineticMeta
  rcases hd : initBucket K ∅ (lit ".minio.sys") (clock 0) with ⟨s1, _ | e⟩
  · rw [hd] at h1
    have h2 := hone s1 (clock 1) (b := lit ".minio.sys/tmp") (by simp)
    dsimp only
    rcases hd2 : initBucket K s1 (lit ".minio.sys/tmp") (clock 1) with ⟨s2, _ | e⟩
    · rw [hd2] at h2
      exact (h1.trans h2).trans (hone s2 (clock 2) (by simp))
    · rw [hd2] at h2
      exact h1.trans h2
  · rwa [hd] at h1

theorem initStore_plainStore (K : Kineticd) (clock : Nat → Nat) :
    PlainStore (initStore K clock) := by
  refine (initStore_evolves K clock).invariant (fun x r hw => ?_) fun k r h => by cases h
  obtain ⟨hx, now, rfl⟩ := hw
  have hcolon : ∀ y ∈ [lit ".minio.sys", lit ".minio.sys/tmp",
    lit ".minio.sys/multipart"].map bucketKey,
      colon ∉ y := by decide
  exact ⟨hcolon x hx, fun m h => by cases h⟩

theorem run_plainStore {ops : List Op} (hs : PlainStore s) (hp : ∀ op ∈ ops, op.Plain) :
    PlainStore (run K s ops) :=
  run_invariant hs (fun _ _ => exec_plainStore) hp

/-! ## Objects apart -/

/-- `k'` continues `k` the way a part key does, or would with a `.` behind it. -/
def looksLikePart (k k' : Bytes) : Bool :=
  hasPrefix k' (k ++ [dot]) &&
    versionOrEmpty (((k' ++ [dot]).drop (k.length + 1)).takeWhile (· ≠ dot))

def apart (k k' : Bytes) : Bool :=
  k ≠ k' && !looksLikePart k k' && !hasPrefix (k' ++ [dot]) (jsonKey k []) && !looksLikePart k' k

/-- What a client sees of an object: its record, and the values of the parts the record lists. -/
def objectView (s : Store) (k : Bytes) : Option (Record × List (Option Bytes)) :=
  (s.get? k).map fun r => (r, (r.blob.partKeys k).map fun x => (s.get? x).map Record.value)

theorem dot_not_mem_of_versionOrEmpty (h : versionOrEmpty v = true) : dot ∉ v := by
  simp only [versionOrEmpty, Bool.or_eq_true, decide_eq_true_eq] at h
  rcases h with rfl | h
  · simp
  · exact dot_not_mem_of_isVersion h

theorem takeWhile_of_segment {r : Bytes} (hv : dot ∉ v) (h : v ++ [dot] <+: r) :
    r.takeWhile (· ≠ dot) = v := by
  obtain ⟨w, rfl⟩ := h
  rw [append_assoc, takeWhile_append_of_pos]
  · simp
  · intro c hc
    have : c ≠ dot := fun e => hv (e ▸ hc)
    simpa using this

theorem takeWhile_dot_eq {t r : Bytes} (h : t ++ [dot] <+: r) :
    (t ++ [dot]).takeWhile (· ≠ dot) = r.takeWhile (· ≠ dot) := by
  obtain ⟨w, rfl⟩ := h
  induction t with
  | nil => simp
  | cons c t ih =>
    by_cases hc : c = dot
    · simp [hc]
    · simp only [cons_append, takeWhile_cons, hc, ne_eq, not_false_eq_true, decide_true,
        if_true, List.cons.injEq, true_and]
      exact ih

variable {k' : Bytes}

theorem prefix_or_prefix_of_dot {k : Bytes} (hne : k ≠ k') (h : k ++ [dot] <+: x)
    (h' : k' ++ [dot] <+: x) : k ++ [dot] <+: k' ∨ k' ++ [dot] <+: k := by
  have key {a b : Bytes} (hab : a ++ [dot] <+: b ++ [dot]) (hne : a ≠ b) : a ++ [dot] <+: b := by
    rcases prefix_concat_iff.1 hab with h | h
    · exact absurd (append_cancel_right h) hne
    · exact h
  rcases prefix_or_prefix_of_prefix h h' with h | h
  · exact .inl (key h hne)
  · exact .inr (key h hne.symm)

theorem looksLikePart_of_partsKey {k : Bytes} (hk : k ++ [dot] <+: k')
    (hv : versionOrEmpty v = true) (hx : partsKey k v <+: x) (hx' : k' ++ [dot] <+: x) :
    looksLikePart k k' = true := by
  obtain ⟨t, rfl⟩ := hk
  obtain ⟨w, rfl⟩ := hx
  have ht : t ++ [dot] <+: v ++ [dot] ++ w := by
    have : k ++ [dot] ++ (t ++ [dot]) <+: k ++ [dot] ++ (v ++ [dot] ++ w) := by
      simpa [partsKey] using hx'
    exact (prefix_append_right_inj _).1 this
  unfold looksLikePart
  rw [Bool.and_eq_true]
  refine ⟨List.isPrefixOf_iff_prefix.2 (prefix_append _ _), ?_⟩
  rw [show (k ++ [dot] ++ t ++ [dot]).drop (k.length + 1) = t ++ [dot] by simp [drop_append],
    takeWhile_dot_eq ht,
    takeWhile_of_segment (dot_not_mem_of_versionOrEmpty hv) (prefix_append _ _)]
  exact hv

theorem eq_of_prefix_fsJson {t : Bytes} (h : t ++ [dot] <+: metaJSONFile ++ [dot]) :
    t = lit "fs" ∨ t = metaJSONFile := by
  have hall : ∀ l ∈ (metaJSONFile ++ [dot]).inits, l.getLast? = some dot →
      l.dropLast = lit "fs" ∨ l.dropLast = metaJSONFile := by decide
  have := hall _ ((mem_inits _ _).2 h) (by simp)
  simpa using this

theorem hasPrefix_jsonKey_of_partsKey {k : Bytes} (hk : k ++ [dot] <+: k')
    (hv : versionOrEmpty v = true) (hj : jsonKey k [] <+: x) (hx : partsKey k' v <+: x) :
    hasPrefix (k' ++ [dot]) (jsonKey k []) = true := by
  obtain ⟨t, rfl⟩ := hk
  obtain ⟨w, rfl⟩ := hj
  have hjson : jsonKey k [] = k ++ [dot] ++ (metaJSONFile ++ [dot]) := by simp [jsonKey]
  have ht : t ++ [dot] ++ (v ++ [dot]) <+: metaJSONFile ++ [dot] ++ w := by
    have : k ++ [dot] ++ (t ++ [dot] ++ (v ++ [dot])) <+:
        k ++ [dot] ++ (metaJSONFile ++ [dot] ++ w) := by
      simpa [partsKey, hjson] using hx
    exact (prefix_append_right_inj _).1 this
  have hgoal : metaJSONFile ++ [dot] <+: t ++ [dot] →
      hasPrefix (k ++ [dot] ++ t ++ [dot]) (jsonKey k []) = true := fun h => by
    rw [hasPrefix, isPrefixOf_iff_prefix, hjson, append_assoc _ t]
    exact (prefix_append_right_inj _).2 h
  rcases prefix_or_prefix_of_prefix ((prefix_append _ _).trans ht)
    (prefix_append (metaJSONFile ++ [dot]) w) with h | h
  · rcases eq_of_prefix_fsJson h with rfl | rfl
    · -- the version would be `json`
      have hjson' : metaJSONFile ++ [dot] = lit "fs" ++ [dot] ++ (lit "json" ++ [dot]) := by
        decide
      rw [hjson', append_assoc _ (lit "json" ++ [dot]), prefix_append_right_inj] at ht
      have h1 := takeWhile_of_segment (dot_not_mem_of_versionOrEmpty hv) ht
      rw [takeWhile_of_segment (v := lit "json") (by decide) (prefix_append _ _)] at h1
      rw [← h1] at hv
      exact absurd hv (by decide)
    · exact hgoal prefix_rfl
  · exact hgoal h

theorem not_near_of_apart {k : Bytes} (ha : apart k k' = true) (hv : versionOrEmpty v = true)
    (hx : partsKey k' v <+: x) : ¬ Near k x := by
  simp only [apart, Bool.and_eq_true, decide_eq_true_eq, Bool.not_eq_true', hasPrefix] at ha
  obtain ⟨⟨⟨hne, h1⟩, h2⟩, h3⟩ := ha
  have hx' : k' ++ [dot] <+: x := by
    refine List.IsPrefix.trans ?_ hx
    exact ⟨v ++ [dot], by simp [partsKey]⟩
  rintro (rfl | hj | ⟨w, hw, hp⟩)
  · -- the part key would be the other object's own key
    have hp : k' ++ [dot] <+: x := hx'
    have := looksLikePart_of_partsKey hp hv (hx.trans (prefix_append x [dot])) (prefix_rfl)
    rw [this] at h3
    cases h3
  · have hkx : k ++ [dot] <+: x :=
      List.IsPrefix.trans ⟨metaJSONFile ++ [dot], by simp [jsonKey]⟩ hj
    rcases prefix_or_prefix_of_dot hne hkx hx' with h | h
    · have := hasPrefix_jsonKey_of_partsKey h hv hj hx
      rw [hasPrefix, h2] at this
      cases this
    · rw [looksLikePart_of_partsKey h hv hx hkx] at h3
      cases h3
  · have hkx : k ++ [dot] <+: x := List.IsPrefix.trans ⟨w ++ [dot], by simp [partsKey]⟩ hp
    rcases prefix_or_prefix_of_dot hne hkx hx' with h | h
    · rw [looksLikePart_of_partsKey h hw hp hx'] at h1
      cases h1
    · rw [looksLikePart_of_partsKey h hv hx hkx] at h3
      cases h3

theorem not_near_self_of_apart {k : Bytes} (ha : apart k k' = true) : ¬ Near k k' := by
  simp only [apart, Bool.and_eq_true, decide_eq_true_eq, Bool.not_eq_true'] at ha
  obtain ⟨⟨⟨hne, h1⟩, h2⟩, -⟩ := ha
  rintro (rfl | hj | ⟨v, hv, hp⟩)
  · exact hne rfl
  · rw [hasPrefix, isPrefixOf_iff_prefix.2 (hj.trans (prefix_append _ _))] at h2
    cases h2
  · have hk : k ++ [dot] <+: k' := List.IsPrefix.trans ⟨v ++ [dot], by simp [partsKey]⟩ hp
    rw [looksLikePart_of_partsKey hk hv (hp.trans (prefix_append _ [dot])) prefix_rfl] at h1
    cases h1

theorem exec_objectView (hs : PlainStore s) (hp : op.Plain)
    (ht : op.target = some (b, o)) (ha : apart (makeKey b o) k' = true) :
    objectView (op.exec K s) k' = objectView s k' := by
  have hev := exec_near (K := K) hs hp ht
  have hget {x : Bytes} (hx : ¬ Near (makeKey b o) x) : (op.exec K s).get? x = s.get? x :=
    hev.get?_eq (fun _ h => hx h.1) hx
  unfold objectView
  rw [hget (not_near_self_of_apart ha)]
  cases hr : s.get? k' with
  | none => rfl
  | some r =>
    simp only [Option.map_some, Option.some.injEq, Prod.mk.injEq, true_and]
    refine map_congr_left fun x hx => ?_
    cases hb : r.blob with
    | gob bi => simp [hb, Blob.partKeys] at hx
    | json m =>
      rw [hb] at hx
      obtain ⟨p, -, rfl⟩ := mem_map.1 hx
      have hnear : ¬ Near (makeKey b o) (partKey k' (m.get keyVersion) p.number p.etag
          p.actualSize) :=
        not_near_of_apart ha ((hs k' r hr).2 m hb) (prefix_append _ _)
      rw [hget hnear]

/-- A plain call on an object apart from that of the key, which gets to the drive whole too. -/
def Op.ApartFrom (op : Op) (k' : Bytes) : Prop :=
  CString k' ∧ op.Plain ∧ ∃ b o, op.target = some (b, o) ∧ apart (makeKey b o) k' = true

theorem run_objectView_of_apart {more : List Op} (hs : PlainStore s)
    (hmore : ∀ op ∈ more, op.ApartFrom k') :
    objectView (run K s more) k' = objectView s k' := by
  induction more generalizing s with
  | nil => rfl
  | cons op more ih =>
    obtain ⟨-, hp, b, o, ht, hab⟩ := hmore op mem_cons_self
    refine (ih (exec_plainStore hp hs) fun x hx => hmore x (mem_cons_of_mem _ hx)).trans ?_
    exact exec_objectView hs hp ht hab

theorem run_objectView (K : Kineticd) (clock : Nat → Nat) {ops more : List Op} {b' o' : Bytes}
    (hops : ∀ op ∈ ops, op.Plain) (hmore : ∀ op ∈ more, op.ApartFrom (makeKey b' o')) :
    objectView (run K (initStore K clock) (ops ++ more)) (makeKey b' o') =
      objectView (run K (initStore K clock) ops) (makeKey b' o') := by
  rw [run_append]
  exact run_objectView_of_apart (run_plainStore (initStore_plainStore K clock) hops) hmore

/-- An upload of `a` that is started, given a part and aborted. -/
def abortedUpload : List Op :=
  [.newMultipartUpload (lit "bkt") (lit "a") ∅ (lit "u1") 3,
    .putObjectPart (lit "bkt") (lit "a") (lit "u1") 1
      (bodyReader (lit "part") (List.replicate 16 9)) 4,
    .abortMultipartUpload (lit "bkt") (lit "a") (lit "u1")]

theorem run_objectView_aTxt :
    objectView (run (memoryDrive []) (initStore (memoryDrive []) id)
        (onlyObject (lit "a.txt") ++ abortedUpload)) (makeKey (lit "bkt") (lit "a.txt")) =
      objectView (run (memoryDrive []) (initStore (memoryDrive []) id) (onlyObject (lit "a.txt")))
        (makeKey (lit "bkt") (lit "a.txt")) := by
  refine run_objectView (memoryDrive []) id ?_ fun op hop =>
    ⟨by decide, ?_, lit "bkt", lit "a", ?_, by decide⟩
  · rintro op (_ | ⟨_, _ | ⟨_, ⟨⟩⟩⟩)
    · exact ⟨by decide, show colon ∉ lit "bkt" by decide⟩
    · exact ⟨by decide, show colon ∉ lit "bkt" ∧ colon ∉ lit "a.txt" by decide⟩
  · rcases hop with _ | ⟨_, _ | ⟨_, _ | ⟨_, ⟨⟩⟩⟩⟩
    · exact ⟨by decide, show colon ∉ lit "bkt" ∧ colon ∉ lit "a" ∧ colon ∉ lit "u1" ∧
        _ = none by decide⟩
    · exact ⟨by decide, show colon ∉ lit "bkt" ∧ colon ∉ lit "a" by decide⟩
    · exact ⟨by decide, trivial⟩
  · rcases hop with _ | ⟨_, _ | ⟨_, _ | ⟨_, ⟨⟩⟩⟩⟩ <;> rfl

/-- Aborting an upload of `a` deletes the object `a.00001.x`. -/
theorem abort_deletes_other_object :
    ∃ s, Reachable (memoryDrive []) s ∧ isValidObjectName (lit "a") = true ∧
      isValidObjectName (lit "a.00001.x") = true ∧
      (objectView s (makeKey (lit "bkt") (lit "a.00001.x"))).isSome = true ∧
      objectView ((Op.abortMultipartUpload (lit "bkt") (lit "a") (lit "u1")).exec
        (memoryDrive []) s)
        (makeKey (lit "bkt") (lit "a.00001.x")) = none := by
  refine ⟨run (memoryDrive []) (initStore (memoryDrive []) id)
    (onlyObject (lit "a.00001.x") ++
      [.newMultipartUpload (lit "bkt") (lit "a") ∅ (lit "u1") 3]), ⟨id, _, rfl⟩, ?_⟩
  decide

end S3Kinetic
