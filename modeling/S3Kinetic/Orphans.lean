import S3Kinetic.Isolation

/-!
# Parts without an object

A stored part is either listed by the record of its object or belongs to the next version of an
object with an upload in progress (`Tidy`), as long as every call on the object cleans up what it
makes unreachable: no plain write over an object that has parts, completion with all parts of the
next version, and no more than the 1600 keys of a version that `deleteParts` deletes.
-/

namespace S3Kinetic

open ByteString Decimal OrdMap

/-- A part key of the object with key `k`. Etags have no dots, and sizes are 64-bit. -/
def PartKeyOf (k x : Bytes) : Prop :=
  ∃ (v : Bytes) (n : Int) (e : Bytes) (size : Int), isVersion v = true ∧ dot ∉ e ∧
    -2 ^ 63 ≤ size ∧ size < 2 ^ 63 ∧ x = partKey k v n e size

def Listed (s : Store) (k x : Bytes) : Prop :=
  ∃ m value, s.get? k = some ⟨.json m, value⟩ ∧ x ∈ m.partKeys k

def InProgress (s : Store) (k : Bytes) : Prop := ∃ u, jsonKey k u ∈ s

def versionKeys (s : Store) (k v : Bytes) : List Bytes :=
  s.keysWhere fun x => hasPrefix x (partsKey k v)

section

variable (K : Kineticd)

def Pending (s : Store) (k x : Bytes) : Prop :=
  ∃ v, currentVersion K s k = .ok v ∧ partsKey k (newVersion v) <+: x ∧ InProgress s k

/-- The parts of an object are listed or pending. -/
structure Tidy (s : Store) (k : Bytes) : Prop where
  plain : PlainStore s
  shape : ∀ x ∈ s, ∀ v, versionOrEmpty v = true → partsKey k v <+: x → PartKeyOf k x
  parts : ∀ x ∈ s, PartKeyOf k x → Listed s k x ∨ Pending K s k x

/-- What a call on the object `k` has to meet to leave no part behind. -/
def Op.CleansUp (s : Store) (k : Bytes) : Op → Prop
  | .putObject .. => ∀ x ∈ s, ¬ PartKeyOf k x
  | .deleteObject .. => ∀ x ∈ s, PartKeyOf k x → Listed s k x
  | .putObjectPart _ _ u _ r _ => jsonKey k u ∈ s ∧ -2 ^ 63 ≤ r.actualSize ∧ r.actualSize < 2 ^ 63
  | .completeMultipartUpload _ _ u parts => ∀ v, currentVersion K s k = .ok v →
      (versionKeys s k v).length ≤ 1600 ∧
      (∀ x ∈ s, partsKey k (newVersion v) <+: x → ∃ part ∈ parts,
        ∀ y ∈ s, partsKey k (newVersion v) ++ partFilePrefix part.partNumber part.etag <+: y ↔
          y = x) ∧
      ∀ r, s.get? (jsonKey k u) = some r → ∀ ps, ∃ m,
        K.unmarshal ⟨[], ∅, ps, ⟨[], 0, 0⟩⟩ r.value = some m ∧ m.parts = ps
  | .abortMultipartUpload .. => ∃ v, currentVersion K s k = .ok v ∧
      (versionKeys s k (newVersion v)).length ≤ 1600
  | .copyObject _ _ _ _ src _ =>
    if src.parts = [] then ∀ x ∈ s, ¬ PartKeyOf k x
    else (∀ v, currentVersion K s k = .ok v → (versionKeys s k v).length ≤ 1600 ∧
        ∀ x ∈ s, ¬ partsKey k (newVersion v) <+: x) ∧
      ∀ p ∈ src.parts, dot ∉ p.etag ∧ 0 ≤ p.size ∧ p.size < 2 ^ 63
  | _ => True

/-- Calls on the object clean up, other objects are apart from it, and no bucket is deleted. -/
def Op.TidyAt (b o : Bytes) (s : Store) (op : Op) : Prop :=
  op.Plain ∧
    match op.target with
    | some (b', o') =>
      if b' = b ∧ o' = o then op.CleansUp K s (makeKey b o)
      else apart (makeKey b' o') (makeKey b o) = true ∧ apart (makeKey b o) (makeKey b' o') = true
    | none =>
      match op with
      | .makeBucket b' _ => slash ∉ b'
      | _ => False

def TidyRun (b o : Bytes) : Store → List Op → Prop
  | _, [] => True
  | s, op :: ops => op.TidyAt K b o s ∧ TidyRun b o (op.exec K s) ops

end

variable {K : Kineticd} {s s' : Store} {k v x : Bytes}

/-! ## Part keys -/

theorem PartKeyOf.partsKey (h : PartKeyOf k x) : ∃ v, isVersion v = true ∧ partsKey k v <+: x := by
  obtain ⟨v, n, e, size, hv, -, -, -, rfl⟩ := h
  exact ⟨v, hv, List.prefix_append _ _⟩

theorem PartKeyOf.ne (h : PartKeyOf k x) : x ≠ k := by
  obtain ⟨v, -, hp⟩ := h.partsKey
  exact ne_of_partsKey hp

theorem versionOrEmpty_of_isVersion (h : isVersion v = true) : versionOrEmpty v = true := by
  simp [versionOrEmpty, h]

theorem eq_of_append_dot {a a' t t' : Bytes} (ha : dot ∉ a) (ht : dot ∉ t)
    (h : a ++ dot :: t = a' ++ dot :: t') : a = a' := by
  rcases List.append_eq_append_iff.1 h with ⟨c, rfl, h'⟩ | ⟨c, rfl, h'⟩
  · cases c with
    | nil => simp
    | cons y c =>
      obtain ⟨-, rfl⟩ := List.cons.inj h'
      simp at ht
  · cases c with
    | nil => simp
    | cons y c =>
      obtain ⟨rfl, -⟩ := List.cons.inj h'
      simp at ha

theorem encodePartFile_eq_of_prefix {n n' size : Int} {e e' : Bytes} (he : dot ∉ e)
    (h : partFilePrefix n' e' <+: encodePartFile n e size) :
    encodePartFile n' e' size = encodePartFile n e size := by
  have hnum (i : Int) : dot ∉ padInt 5 i := fun hd => by
    rcases padInt_digit_or_minus hd with hd | hd <;> exact absurd hd (by decide)
  have hsize : dot ∉ formatInt size := fun hd => by
    rcases formatInt_digit_or_minus hd with hd | hd <;> exact absurd hd (by decide)
  have h1 : padInt 5 n' = padInt 5 n := by
    rw [← takeWhile_of_segment (hnum n')
      (List.IsPrefix.trans ⟨e' ++ [dot], by simp [partFilePrefix]⟩ h),
      takeWhile_of_segment (hnum n) ⟨e ++ dot :: formatInt size, by simp [encodePartFile]⟩]
  unfold partFilePrefix encodePartFile at h
  rw [h1] at h
  obtain ⟨t, ht⟩ := h
  have ht' : e' ++ dot :: t = e ++ dot :: formatInt size := by simpa using ht
  have h2 : e = e' := eq_of_append_dot he hsize ht'.symm
  rw [encodePartFile, encodePartFile, h1, h2]

theorem Listed.partsKey (h : Listed s k x) (hv : currentVersion K s k = .ok v) :
    partsKey k v <+: x := by
  obtain ⟨m, value, hget, hx⟩ := h
  obtain ⟨p, -, rfl⟩ := List.mem_map.1 hx
  rw [get_keyVersion_of_currentVersion hv hget]
  exact List.prefix_append _ _

theorem Listed.congr (h : s'.get? k = s.get? k) (hl : Listed s k x) : Listed s' k x := by
  obtain ⟨m, value, hget, hx⟩ := hl
  exact ⟨m, value, h.trans hget, hx⟩

theorem Pending.inProgress (h : Pending K s k x) : InProgress s k := by
  obtain ⟨-, -, -, hin⟩ := h
  exact hin

theorem Pending.congr (h : s'.get? k = s.get? k) (hin : InProgress s' k) (hp : Pending K s k x) :
    Pending K s' k x := by
  obtain ⟨v, hv, hpre, -⟩ := hp
  exact ⟨v, by rwa [currentVersion_congr h], hpre, hin⟩

/-! ## Deletes that succeed -/

theorem mem_deleteKeys (hK : K.Healthy) {keys : List Bytes} (hnd : keys.Nodup)
    (hin : ∀ x ∈ keys, x ∈ s) :
    (deleteKeys K s keys).2 = none ∧ ∀ y, y ∈ (deleteKeys K s keys).1 ↔ y ∈ s ∧ y ∉ keys := by
  induction keys generalizing s with
  | nil => simp [deleteKeys]
  | cons x keys ih =>
    rw [List.nodup_cons] at hnd
    rw [deleteKeys, delete_of_healthy hK (hin x List.mem_cons_self)]
    have hrest (y : Bytes) (hy : y ∈ keys) : y ∈ s.erase x :=
      mem_erase.2 ⟨fun e => hnd.1 (e ▸ hy), hin y (List.mem_cons_of_mem _ hy)⟩
    obtain ⟨herr, hmem⟩ := ih hnd.2 hrest
    refine ⟨herr, fun y => ?_⟩
    rw [hmem y, mem_erase, List.mem_cons]
    tauto

theorem not_mem_deleteParts (hK : K.Healthy) (hs : ∀ x ∈ s, partsKey k v <+: x → colon ∉ x)
    (hcount : (versionKeys s k v).length ≤ 1600) (hx : x ∈ (deleteParts K s k v).1) :
    ¬ partsKey k v <+: x := by
  intro hp
  have hsorted : (versionKeys s k v).Pairwise (· < ·) := keysWhere_sorted
  have hnd : (versionKeys s k v).Nodup := hsorted.imp ne_of_lt
  have hin (y : Bytes) (hy : y ∈ versionKeys s k v) : y ∈ s := (mem_keysWhere.1 hy).1
  have hrange : partKeyRange K s k v = (versionKeys s k v).take 800 := partKeyRange_eq hs
  obtain ⟨herr, hmem⟩ := mem_deleteKeys hK (hnd.sublist (List.take_sublist 800 _)) fun y hy =>
    hin y (List.mem_of_mem_take hy)
  rcases hd : deleteKeys K s ((versionKeys s k v).take 800) with ⟨s1, e1⟩
  rw [hd] at herr hmem
  obtain rfl : e1 = none := herr
  -- what the first round leaves of the version
  have hleft : versionKeys s1 k v = (versionKeys s k v).drop 800 := by
    refine eq_of_sorted_of_mem_iff keysWhere_sorted (hsorted.sublist (List.drop_sublist 800 _))
      fun y => ?_
    have hsplit : y ∈ versionKeys s k v ↔
        y ∈ (versionKeys s k v).take 800 ∨ y ∈ (versionKeys s k v).drop 800 := by
      rw [← List.mem_append, List.take_append_drop]
    have hdisj : y ∈ (versionKeys s k v).drop 800 → y ∉ (versionKeys s k v).take 800 :=
      fun h1 h2 => by
      rw [← List.take_append_drop 800 (versionKeys s k v), List.nodup_append] at hnd
      exact hnd.2.2 y h2 y h1 rfl
    have hy : y ∈ versionKeys s1 k v ↔ y ∈ versionKeys s k v ∧
        y ∉ (versionKeys s k v).take 800 := by
      rw [versionKeys, mem_keysWhere, hmem y, versionKeys, mem_keysWhere]
      tauto
    rw [hy, hsplit]
    tauto
  have hs1 (y : Bytes) (hy : y ∈ s1) : y ∈ s := ((hmem y).1 hy).1
  have hrange1 : partKeyRange K s1 k v = versionKeys s1 k v := by
    rw [partKeyRange_eq fun y hy hpre => hs y (hs1 y hy) hpre]
    refine List.take_of_length_le ?_
    show (versionKeys s1 k v).length ≤ 800
    rw [hleft, List.length_drop]
    omega
  have hnd1 : (versionKeys s1 k v).Nodup := keysWhere_sorted.imp ne_of_lt
  obtain ⟨-, hmem1⟩ := mem_deleteKeys hK hnd1 fun y hy => (mem_keysWhere.1 hy).1
  unfold deleteParts at hx
  rw [hrange, hd] at hx
  dsimp only at hx
  rw [hrange1, hmem1] at hx
  exact hx.2 (mem_keysWhere.2 ⟨hx.1, List.isPrefixOf_iff_prefix.2 hp⟩)

theorem mem_deleteIgnoring (hK : K.Healthy) {keys : List Bytes} (hx : x ∈ deleteIgnoring K s keys) :
    x ∈ s ∧ x ∉ keys := by
  induction keys generalizing s with
  | nil => exact ⟨hx, List.not_mem_nil⟩
  | cons y keys ih =>
    obtain ⟨h1, h2⟩ := ih hx
    have hs : x ∈ s := delete_mem_of_mem h1
    refine ⟨hs, fun hmem => ?_⟩
    rcases List.mem_cons.1 hmem with rfl | hmem
    · rw [delete_of_healthy hK hs] at h1
      exact (mem_erase.1 h1).1 rfl
    · exact h2 hmem

theorem versionKeys_congr (h : ∀ x, partsKey k v <+: x → (x ∈ s' ↔ x ∈ s)) :
    versionKeys s' k v = versionKeys s k v := by
  refine eq_of_sorted_of_mem_iff keysWhere_sorted keysWhere_sorted fun x => ?_
  rw [versionKeys, mem_keysWhere, versionKeys, mem_keysWhere]
  refine and_congr_left fun hp => h x (List.isPrefixOf_iff_prefix.1 hp)

/-! ## Calls on the object -/

theorem Tidy.versionOrEmpty (ht : Tidy K s k) (hv : currentVersion K s k = .ok v) :
    versionOrEmpty v = true :=
  currentVersion_ok ht.plain hv

theorem Tidy.of_noParts (hplain : PlainStore s')
    (hno : ∀ x ∈ s', ∀ v, S3Kinetic.versionOrEmpty v = true → ¬ partsKey k v <+: x) :
    Tidy K s' k where
  plain := hplain
  shape x hx v hv hp := absurd hp (hno x hx v hv)
  parts x hx hpart := by
    obtain ⟨v, hv, hp⟩ := hpart.partsKey
    exact absurd hp (hno x hx v (versionOrEmpty_of_isVersion hv))

theorem Tidy.of_same (ht : Tidy K s k) (hplain : PlainStore s') (hk : s'.get? k = s.get? k)
    (hparts : ∀ x v, S3Kinetic.versionOrEmpty v = true → partsKey k v <+: x → s'.get? x = s.get? x)
    (hjson : InProgress s k → InProgress s' k) : Tidy K s' k where
  plain := hplain
  shape x hx v hv hp := by
    refine ht.shape x ?_ v hv hp
    rwa [mem_iff, ← hparts x v hv hp, ← mem_iff]
  parts x hx hpart := by
    obtain ⟨v, hv, hp⟩ := hpart.partsKey
    have hxs : x ∈ s := by rwa [mem_iff, ← hparts x v (versionOrEmpty_of_isVersion hv) hp,
      ← mem_iff]
    rcases ht.parts x hxs hpart with h | h
    · exact .inl (h.congr hk)
    · exact .inr (h.congr hk (hjson h.inProgress))

theorem Tidy.noPrefix (ht : Tidy K s k) (hno : ∀ x ∈ s, ¬ PartKeyOf k x) {x : Bytes}
    (hx : x ∈ s) {v : Bytes} (hv : S3Kinetic.versionOrEmpty v = true) : ¬ partsKey k v <+: x :=
  fun hp => hno x hx (ht.shape x hx v hv hp)

variable {b o : Bytes}

theorem putObjectBody_tidy (ht : Tidy K s (makeKey b o))
    (hno : ∀ x ∈ s, ¬ PartKeyOf (makeKey b o) x) (r : PutObjReader)
    (ud : OrdMap Bytes Bytes) (now : Nat) (hplain : PlainStore (putObjectBody K s b o r ud now).1) :
    Tidy K (putObjectBody K s b o r ud now).1 (makeKey b o) := by
  refine .of_noParts hplain fun x hx v hv => ?_
  rcases putObjectBody_cases (K := K) s b o r ud now with ⟨e, h⟩ | ⟨w, buf, st, -, -, -, -, h⟩ <;>
    rw [h] at hx
  · exact ht.noPrefix hno hx hv
  · rcases mem_insert.1 hx with rfl | hx
    · exact fun hp => ne_of_partsKey hp rfl
    · exact ht.noPrefix hno hx hv

theorem deleteObject_tidy (hK : K.Healthy) (ht : Tidy K s (makeKey b o))
    (hall : ∀ x ∈ s, PartKeyOf (makeKey b o) x → Listed s (makeKey b o) x)
    (hplain : PlainStore (deleteObject K s b o).1) :
    Tidy K (deleteObject K s b o).1 (makeKey b o) := by
  rcases deleteObject_cases (K := K) s b o with ⟨e, -, h⟩ | ⟨r, hr, h⟩ <;> rw [h] at hplain ⊢
  · exact ht
  · refine .of_noParts hplain fun x hx v hv hp => ?_
    have hsub : x ∈ s ∧ x ∉ r.blob.partKeys (makeKey b o) := by
      unfold deleteRecord at hx
      split at hx
      · next hnil =>
        rw [hnil]
        refine ⟨?_, List.not_mem_nil⟩
        rcases hd : delete K s (makeKey b o) with ⟨s1, _ | e⟩
        · rw [hd] at hx
          have h1 := delete_mem_of_mem hx
          have h2 : x ∈ (delete K s (makeKey b o)).1 := by rwa [hd]
          exact delete_mem_of_mem h2
        · rw [hd] at hx
          have h2 : x ∈ (delete K s (makeKey b o)).1 := by rwa [hd]
          exact delete_mem_of_mem h2
      · exact mem_deleteIgnoring hK (delete_mem_of_mem hx)
    obtain ⟨m, value, hget, hmem⟩ := hall x hsub.1 (ht.shape x hsub.1 v hv hp)
    rw [hr] at hget
    cases hget
    exact hsub.2 hmem

variable {u : Bytes} {now : Nat}

theorem newMultipartUpload_tidy {ud : OrdMap Bytes Bytes}
    (ht : Tidy K s (makeKey b o)) (hplain : PlainStore (newMultipartUpload K s b o ud u now).1) :
    Tidy K (newMultipartUpload K s b o ud u now).1 (makeKey b o) := by
  rcases newMultipartUpload_cases (K := K) s b o ud u now with ⟨e, h⟩ | h <;> rw [h] at hplain ⊢
  · exact ht
  · refine ht.of_same hplain (get?_insert_of_ne ?_) (fun x v hv hp => get?_insert_of_ne ?_) ?_
    · exact ne_jsonKey_of_frame (.inl rfl)
    · exact ne_jsonKey_of_frame (.inr ⟨v, hv, hp⟩)
    · exact fun _ => ⟨u, mem_insert.2 (.inl rfl)⟩

theorem putObjectPart_tidy {n : Int} {r : PutObjReader}
    (ht : Tidy K s (makeKey b o)) (hu : jsonKey (makeKey b o) u ∈ s) (h1 : -2 ^ 63 ≤ r.actualSize)
    (h2 : r.actualSize < 2 ^ 63) (hplain : PlainStore (putObjectPart K s b o u n r now).1) :
    Tidy K (putObjectPart K s b o u n r now).1 (makeKey b o) := by
  rcases putObjectPart_cases (K := K) s b o u n r now with ⟨e, h⟩ | ⟨v, buf, st, hv, -, h⟩ <;>
    rw [h] at hplain ⊢
  · exact ht
  · set y := partKey (makeKey b o) (newVersion v) n (partETag K r) r.actualSize with hy
    have hver : isVersion (newVersion v) = true :=
      isVersion_newVersion (by simpa [S3Kinetic.versionOrEmpty] using ht.versionOrEmpty hv)
    have hyp : PartKeyOf (makeKey b o) y :=
      ⟨newVersion v, n, partETag K r, r.actualSize, hver,
        fun hd => absurd (isEtagChar_partETag hd) (by decide), h1, h2, rfl⟩
    have hk : ∀ z, (s.insert y z).get? (makeKey b o) = s.get? (makeKey b o) := fun z =>
      get?_insert_of_ne hyp.ne.symm
    have hin : ∀ z, InProgress (s.insert y z) (makeKey b o) := fun z => ⟨u, mem_insert.2 (.inr hu)⟩
    refine ⟨hplain, fun x hx w hw hp => ?_, fun x hx hpart => ?_⟩
    · rcases mem_insert.1 hx with rfl | hx
      · exact hyp
      · exact ht.shape x hx w hw hp
    · rcases mem_insert.1 hx with rfl | hx
      · exact .inr ⟨v, by rwa [currentVersion_congr (hk _)], List.prefix_append _ _, hin _⟩
      · rcases ht.parts x hx hpart with hl | hp
        · exact .inl (hl.congr (hk _))
        · exact .inr (hp.congr (hk _) (hin _))

theorem abortMultipartUpload_tidy (hK : K.Healthy) (ht : Tidy K s (makeKey b o))
    (hv : currentVersion K s (makeKey b o) = .ok v)
    (hcount : (versionKeys s (makeKey b o) (newVersion v)).length ≤ 1600)
    (hplain : PlainStore (abortMultipartUpload K s b o u).1) :
    Tidy K (abortMultipartUpload K s b o u).1 (makeKey b o) := by
  set s1 := (delete K s (jsonKey (makeKey b o) u)).1 with hs1
  have hver := ht.versionOrEmpty hv
  have hsame : ∀ x, x ≠ jsonKey (makeKey b o) u → s1.get? x = s.get? x :=
    fun x hx => delete_get?_of_ne hx
  have hk1 : s1.get? (makeKey b o) = s.get? (makeKey b o) :=
    hsame _ (ne_jsonKey_of_frame (.inl rfl))
  have habort : (abortMultipartUpload K s b o u).1 =
      (deleteParts K s1 (makeKey b o) (newVersion v)).1 := by
    simp only [abortMultipartUpload, ← hs1, currentVersion_congr hk1, hv]
  have hcolon : ∀ x ∈ s1, partsKey (makeKey b o) (newVersion v) <+: x → colon ∉ x := fun x hx _ =>
    ht.plain.not_colon (delete_mem_of_mem hx)
  have hev := deleteParts_evolves (K := K) (W := fun _ _ => False) hcolon
  have hcount1 : (versionKeys s1 (makeKey b o) (newVersion v)).length ≤ 1600 := by
    rw [versionKeys_congr (s := s)]
    · exact hcount
    · intro x hp
      rw [mem_iff, mem_iff, hsame x
        (ne_jsonKey_of_frame (.inr ⟨_, versionOrEmpty_newVersion hver, hp⟩))]
  rw [habort] at hplain ⊢
  have hmem (x : Bytes) (hx : x ∈ (deleteParts K s1 (makeKey b o) (newVersion v)).1) : x ∈ s :=
    delete_mem_of_mem ((hev.mem_of_mem hx).elim id fun ⟨_, h⟩ => h.elim)
  have hk : (deleteParts K s1 (makeKey b o) (newVersion v)).1.get? (makeKey b o) =
      s.get? (makeKey b o) := by
    rw [hev.get?_eq (fun _ h => h) fun h => ne_of_partsKey h rfl, hk1]
  refine ⟨hplain, fun x hx w hw hp => ht.shape x (hmem x hx) w hw hp, fun x hx hpart => ?_⟩
  rcases ht.parts x (hmem x hx) hpart with hl | ⟨w, hw, hp, -⟩
  · exact .inl (hl.congr hk)
  · rw [hv] at hw
    cases hw
    exact absurd hp (not_mem_deleteParts hK hcolon hcount1 hx)

/-- A record that lists every stored part of the next version, and the deletes of the version
before. -/
theorem tidy_commit {m : FsMetaV1} {value : Bytes} (hK : K.Healthy)
    (hv : currentVersion K s k = .ok v) (hplain : PlainStore (deleteParts K s' k v).1)
    (hcolon : ∀ x ∈ s', partsKey k v <+: x → colon ∉ x) (hget : s'.get? k = some ⟨.json m, value⟩)
    (hshape : ∀ x ∈ s', ∀ w, S3Kinetic.versionOrEmpty w = true → partsKey k w <+: x → PartKeyOf k x)
    (hold : ∀ x, partsKey k v <+: x → (x ∈ s' ↔ x ∈ s)) (hcount : (versionKeys s k v).length ≤ 1600)
    (hnew : ∀ x ∈ s', PartKeyOf k x → Listed s k x ∨ x ∈ m.partKeys k) :
    Tidy K (deleteParts K s' k v).1 k := by
  have hev := deleteParts_evolves (K := K) (W := fun _ _ => False) hcolon
  have hmem (x : Bytes) (hx : x ∈ (deleteParts K s' k v).1) : x ∈ s' :=
    (hev.mem_of_mem hx).elim id fun ⟨_, h⟩ => h.elim
  have hcount' : (versionKeys s' k v).length ≤ 1600 := by rwa [versionKeys_congr hold]
  refine ⟨hplain, fun x hx w hw hp => hshape x (hmem x hx) w hw hp, fun x hx hpart => ?_⟩
  rcases hnew x (hmem x hx) hpart with hl | hl
  · exact absurd (hl.partsKey hv) (not_mem_deleteParts hK hcolon hcount' hx)
  · refine .inl ⟨m, value, ?_, hl⟩
    rw [hev.get?_eq (fun _ h => h) fun h => ne_of_partsKey h rfl, hget]

theorem eq_partKey_of_completePart {part : CompletePart} {p : ObjectPartInfo}
    (hv : S3Kinetic.versionOrEmpty v = true) (hpart : PartKeyOf k x)
    (huniq : ∀ y ∈ s, partsKey k v ++ partFilePrefix part.partNumber part.etag <+: y ↔ y = x)
    (h : completePart K s (partsKey k v) (partFiles s k v) part = .ok p) :
    x = partKey k v p.number p.etag p.actualSize := by
  obtain ⟨f, -, hpre, hsize, r, m, hr, -, hp⟩ := completePart_ok h
  have hmem : partsKey k v ++ f ∈ s := (mem_iff s).2 ⟨r, hr⟩
  have hx : partsKey k v ++ f = x := (huniq _ hmem).1 ((List.prefix_append_right_inj _).2 hpre)
  obtain ⟨w, n, e, size, hw, he, h1, h2, hkey⟩ := hpart
  have hwv : w = v := by
    refine version_eq_of_partsKey (versionOrEmpty_of_isVersion hw) hv (x := x) ?_ ⟨f, hx⟩
    rw [hkey]
    exact List.prefix_append _ _
  subst hwv
  have hf : f = encodePartFile n e size := List.append_cancel_left (hx.trans hkey)
  rw [hf, getLastD_splitOn_encodePartFile, parseInt64_formatInt h1 h2] at hsize
  have hactual : p.actualSize = size := (congrArg Prod.fst hsize).symm
  rw [hf] at hpre
  rw [hkey, hp, partKey, partKey, hactual, encodePartFile_eq_of_prefix he hpre]

theorem completeMultipartUpload_tidy {parts : List CompletePart} (hK : K.Healthy)
    (ht : Tidy K s (makeKey b o))
    (hclean : (Op.completeMultipartUpload b o u parts).CleansUp K s (makeKey b o))
    (hplain : PlainStore (completeMultipartUpload K s b o u parts).1) :
    Tidy K (completeMultipartUpload K s b o u parts).1 (makeKey b o) := by
  rcases completeMultipartUpload_cases (K := K) s b o u parts with
    ⟨e, h⟩ | ⟨v, keys, ps, hv, hkeys, hps, hrest⟩
  · rwa [h]
  obtain ⟨hcount, hlist, hrec⟩ := hclean v hv
  have hver := ht.versionOrEmpty hv
  have hnew := versionOrEmpty_newVersion hver
  have hkeys' : keys = partFiles s (makeKey b o) (newVersion v) := by
    rw [stripKeys_partKeyRange fun x hx _ => ht.plain.not_colon hx] at hkeys
    exact (Except.ok.inj hkeys).symm
  subst hkeys'
  cases hr : s.get? (jsonKey (makeKey b o) u) with
  | none =>
    -- without the record of the upload nothing is written
    have hc : commitUpload K s (makeKey b o) u (newVersion v) (getCompleteMultipartMD5 K parts) ps =
        (s, .error .errFileNotFound) := by
      unfold commitUpload
      simp only [cGet_unknown, hr]
    rcases hrest with ⟨s', e, hc', h⟩ | ⟨s', m, hc', h⟩ <;> rw [hc] at hc' <;> cases hc'
    rwa [h]
  | some r =>
    obtain ⟨m, hm, hmparts⟩ := hrec r hr ps
    have hc := commitUpload_of_healthy hK (newVersion v) (getCompleteMultipartMD5 K parts) hr hm
    set fsMeta := completeMeta m (newVersion v) (getCompleteMultipartMD5 K parts)
      (totalActualSize ps)
      with hfs
    set s1 := (delete K s (jsonKey (makeKey b o) u)).1.insert (makeKey b o) ⟨.json fsMeta, []⟩
      with hs1
    have hres : (completeMultipartUpload K s b o u parts).1 =
        if v ≠ [] then (deleteParts K s1 (makeKey b o) v).1 else s1 := by
      rcases hrest with ⟨s', e, hc', h⟩ | ⟨s', m', hc', h⟩ <;> rw [hc] at hc' <;> cases hc'
      rw [h]
    have hsub (x : Bytes) (hx : x ∈ s1) : x = makeKey b o ∨ x ∈ s :=
      (mem_insert.1 hx).imp_right delete_mem_of_mem
    have hshape (x : Bytes) (hx : x ∈ s1) (w : Bytes) (hw : S3Kinetic.versionOrEmpty w = true)
        (hp : partsKey (makeKey b o) w <+: x) : PartKeyOf (makeKey b o) x := by
      rcases hsub x hx with rfl | hx
      · exact absurd rfl (ne_of_partsKey hp)
      · exact ht.shape x hx w hw hp
    have hlisted (x : Bytes) (hx : x ∈ s1) (hpart : PartKeyOf (makeKey b o) x) :
        Listed s (makeKey b o) x ∨ x ∈ fsMeta.partKeys (makeKey b o) := by
      rcases hsub x hx with rfl | hx
      · exact absurd rfl hpart.ne
      rcases ht.parts x hx hpart with hl | ⟨w, hw, hp, -⟩
      · exact .inl hl
      · rw [hv] at hw
        cases hw
        obtain ⟨part, hmem, huniq⟩ := hlist x hx hp
        obtain ⟨p, hpmem, hpart'⟩ := (completeParts_ok hps).1 part hmem
        refine .inr (List.mem_map.2 ⟨p, ?_, ?_⟩)
        · show p ∈ m.parts
          rwa [hmparts]
        · rw [hfs, completeMeta_version]
          exact (eq_partKey_of_completePart hnew hpart huniq hpart').symm
    rw [hres] at hplain ⊢
    by_cases hnil : v = []
    · -- a fresh object has no version before
      rw [if_neg (not_not.2 hnil)] at hplain ⊢
      refine ⟨hplain, hshape, fun x hx hpart => ?_⟩
      rcases hlisted x hx hpart with hl | hl
      · obtain ⟨w, hw, hp⟩ := hpart.partsKey
        have := version_eq_of_partsKey (versionOrEmpty_of_isVersion hw) hver hp (hl.partsKey hv)
        rw [this, hnil] at hw
        exact absurd hw (by decide)
      · exact .inl ⟨fsMeta, [], get?_insert_self _ _ _, hl⟩
    · rw [if_pos hnil] at hplain ⊢
      refine tidy_commit hK hv hplain ?_ (get?_insert_self _ _ _) hshape ?_ hcount hlisted
      · intro x hx hp
        rcases hsub x hx with rfl | hx
        · exact absurd rfl (ne_of_partsKey hp)
        · exact ht.plain.not_colon hx
      · intro x hp
        rw [mem_iff, mem_iff, hs1, get?_insert_of_ne (ne_of_partsKey hp),
          delete_get?_of_ne (ne_jsonKey_of_frame (.inr ⟨v, hver, hp⟩))]

/-- On a drive that takes every put, all parts are copied. -/
theorem copyParts_ok (hK : K.Healthy) {parts : List ObjectPartInfo}
    (hsize : ∀ p ∈ parts, 0 ≤ p.size) (o : Bytes) (now : Nat) (st : Stream) :
    (copyParts K s k v o now parts st).2 = none ∧
      (∀ p ∈ parts, partKey k v p.number p.etag p.size ∈ (copyParts K s k v o now parts st).1) ∧
      ∀ x, (∀ p ∈ parts, x ≠ partKey k v p.number p.etag p.size) →
        (copyParts K s k v o now parts st).1.get? x = s.get? x := by
  induction parts generalizing s st with
  | nil => exact ⟨rfl, by simp, fun _ _ => rfl⟩
  | cons p parts ih =>
    rw [copyParts, if_neg (by have := hsize p List.mem_cons_self; omega)]
    simp only [cPut_of_healthy hK]
    set s1 := s.insert (partKey k v p.number p.etag p.size)
      ⟨.json (partMeta o p.etag p.size now), (st.readFull p.size.toNat).1 ++
        (K.allocateBuffer p.size.toNat).drop (st.readFull p.size.toNat).1.length⟩ with hs1
    obtain ⟨h1, h2, h3⟩ := ih (s := s1) (fun q hq => hsize q (List.mem_cons_of_mem _ hq))
      (st.readFull p.size.toNat).2.2
    refine ⟨h1, fun q hq => ?_, fun x hx => ?_⟩
    · rcases List.mem_cons.1 hq with rfl | hq
      · by_cases hagain : ∃ q' ∈ parts, partKey k v q.number q.etag q.size =
            partKey k v q'.number q'.etag q'.size
        · obtain ⟨q', hq', he⟩ := hagain
          rw [he]
          exact h2 q' hq'
        · rw [mem_iff, h3 _ fun q' hq' he => hagain ⟨q', hq', he⟩, ← mem_iff]
          exact mem_insert.2 (.inl rfl)
      · exact h2 q hq
    · rw [h3 x fun q hq => hx q (List.mem_cons_of_mem _ hq), hs1,
        get?_insert_of_ne (hx p List.mem_cons_self)]

/-- A multipart copy to an object without pending parts. -/
theorem copyMultipartObject_tidy {src : CopySource} (hK : K.Healthy)
    (ht : Tidy K s (makeKey b o))
    (hpend : ∀ v, currentVersion K s (makeKey b o) = .ok v →
      (versionKeys s (makeKey b o) v).length ≤ 1600 ∧
      ∀ x ∈ s, ¬ partsKey (makeKey b o) (newVersion v) <+: x)
    (hsrc : ∀ p ∈ src.parts, dot ∉ p.etag ∧ 0 ≤ p.size ∧ p.size < 2 ^ 63)
    (hplain : PlainStore (copyMultipartObject K s src b o now).1) :
    Tidy K (copyMultipartObject K s src b o now).1 (makeKey b o) := by
  cases hv : currentVersion K s (makeKey b o) with
  | error e =>
    have h : copyMultipartObject K s src b o now = (s, .error e) := by
      simp only [copyMultipartObject, hv]
    rwa [h]
  | ok v =>
    obtain ⟨hcount, hnone⟩ := hpend v hv
    have hver := ht.versionOrEmpty hv
    have hnew : isVersion (newVersion v) = true :=
      isVersion_newVersion (by simpa [S3Kinetic.versionOrEmpty] using hver)
    obtain ⟨herr, hcopied, hother⟩ := copyParts_ok (K := K) (s := s) (k := makeKey b o)
      (v := newVersion v) hK (fun p hp => (hsrc p hp).2.1) o now src.reader.stream
    rcases hc : copyParts K s (makeKey b o) (newVersion v) o now src.parts src.reader.stream
      with ⟨s1, e1⟩
    rw [hc] at herr hcopied hother
    obtain rfl : e1 = none := herr
    set m := copyMeta src o (newVersion v) now with hm
    have hres : (copyMultipartObject K s src b o now).1 =
        (deleteParts K (s1.insert (makeKey b o) ⟨.json m, []⟩) (makeKey b o) v).1 := by
      simp only [copyMultipartObject, hv, hc, cPut_of_healthy hK, ← hm]
    rw [hres] at hplain ⊢
    have hcase (x : Bytes) (hx : x ∈ s1.insert (makeKey b o) ⟨.json m, []⟩) :
      x = makeKey b o ∨ x ∈ s ∨
        ∃ p ∈ src.parts, x = partKey (makeKey b o) (newVersion v) p.number p.etag p.size := by
      rcases mem_insert.1 hx with h | h
      · exact .inl h
      · by_cases hp : ∃ p ∈ src.parts, x =
          partKey (makeKey b o) (newVersion v) p.number p.etag p.size
        · exact .inr (.inr hp)
        · refine .inr (.inl ?_)
          rwa [mem_iff, ← hother x fun p hpm he => hp ⟨p, hpm, he⟩, ← mem_iff]
    have hpart (p : ObjectPartInfo) (hp : p ∈ src.parts) :
        PartKeyOf (makeKey b o) (partKey (makeKey b o) (newVersion v) p.number p.etag p.size) := by
      obtain ⟨h1, h2, h3⟩ := hsrc p hp
      exact ⟨newVersion v, p.number, p.etag, p.size, hnew, h1, by omega, h3, rfl⟩
    have hshape (x : Bytes) (hx : x ∈ s1.insert (makeKey b o) ⟨.json m, []⟩) (w : Bytes)
        (hw : S3Kinetic.versionOrEmpty w = true) (hp : partsKey (makeKey b o) w <+: x) :
        PartKeyOf (makeKey b o) x := by
      rcases hcase x hx with rfl | hx | ⟨p, hpm, rfl⟩
      · exact absurd rfl (ne_of_partsKey hp)
      · exact ht.shape x hx w hw hp
      · exact hpart p hpm
    -- the copied keys are of another version than the deleted ones
    have hfresh (x : Bytes) (hp : partsKey (makeKey b o) v <+: x) (p : ObjectPartInfo) :
        x ≠ partKey (makeKey b o) (newVersion v) p.number p.etag p.size := by
      rintro rfl
      refine newVersion_ne (v := v) (by simpa [S3Kinetic.versionOrEmpty] using hver) ?_
      exact version_eq_of_partsKey (versionOrEmpty_of_isVersion hnew) hver
        (List.prefix_append _ _) hp
    have hold (x : Bytes) (hp : partsKey (makeKey b o) v <+: x) :
        x ∈ s1.insert (makeKey b o) ⟨.json m, []⟩ ↔ x ∈ s := by
      rw [mem_iff, mem_iff, get?_insert_of_ne (ne_of_partsKey hp), hother x fun p _ =>
        hfresh x hp p]
    refine tidy_commit hK hv hplain ?_ (get?_insert_self _ _ _) hshape hold hcount fun x hx hpk =>
      ?_
    · exact fun x hx hp => ht.plain.not_colon ((hold x hp).1 hx)
    · rcases hcase x hx with rfl | hx | ⟨p, hpm, rfl⟩
      · exact absurd rfl hpk.ne
      · rcases ht.parts x hx hpk with hl | ⟨w, hw, hp, -⟩
        · exact .inl hl
        · rw [hv] at hw
          cases hw
          exact absurd hp (hnone x hx)
      · refine .inr (List.mem_map.2 ⟨⟨p.etag, p.number, p.size, p.size⟩,
          List.mem_map.2 ⟨p, hpm, rfl⟩, ?_⟩)
        rw [hm, copyMeta_version]

theorem copyObject_cases (s : Store) (sb so b o : Bytes) (src : CopySource) (now : Nat) :
    (copyObject K s sb so b o src now).1 = s ∨
      (copyObject K s sb so b o src now).1 =
        if src.parts = [] then (putObjectBody K s b o src.reader src.userDefined now).1
        else (copyMultipartObject K s src b o now).1 := by
  unfold copyObject
  split
  · exact .inl rfl
  split
  · split
    · exact .inl rfl
    · split <;> exact .inl rfl
  split
  · exact .inl rfl
  · refine .inr ?_
    dsimp only
    split_ifs
    · rcases putObjectBody K s b o src.reader src.userDefined now with ⟨s', _ | _⟩ <;> rfl
    · rcases copyMultipartObject K s src b o now with ⟨s', _ | _⟩ <;> rfl

/-! ## Calls elsewhere -/

theorem hasPrefix_jsonKey_of_jsonKey {k k' x : Bytes} (hk : k ++ [dot] <+: k')
    (hj : jsonKey k [] <+: x)
    (hj' : jsonKey k' [] <+: x) : hasPrefix (k' ++ [dot]) (jsonKey k []) = true := by
  obtain ⟨t, rfl⟩ := hk
  obtain ⟨w, rfl⟩ := hj
  have hjson : jsonKey k [] = k ++ [dot] ++ (metaJSONFile ++ [dot]) := by simp [jsonKey]
  have ht : t ++ [dot] ++ (metaJSONFile ++ [dot]) <+: metaJSONFile ++ [dot] ++ w := by
    have : k ++ [dot] ++ (t ++ [dot] ++ (metaJSONFile ++ [dot])) <+:
        k ++ [dot] ++ (metaJSONFile ++ [dot] ++ w) := by
      simpa [jsonKey] using hj'
    exact (List.prefix_append_right_inj _).1 this
  have hgoal : metaJSONFile ++ [dot] <+: t ++ [dot] →
      hasPrefix (k ++ [dot] ++ t ++ [dot]) (jsonKey k []) = true := fun h => by
    rw [hasPrefix, List.isPrefixOf_iff_prefix, hjson, List.append_assoc _ t]
    exact (List.prefix_append_right_inj _).2 h
  rcases List.prefix_or_prefix_of_prefix ((List.prefix_append _ _).trans ht)
    (List.prefix_append (metaJSONFile ++ [dot]) w) with h | h
  · rcases eq_of_prefix_fsJson h with rfl | rfl
    · -- `fs.fs.json.` does not begin like `fs.json.`
      have hjson' : metaJSONFile ++ [dot] = lit "fs" ++ [dot] ++ (lit "json" ++ [dot]) := by
        decide
      have hfs : lit "fs" ++ [dot] ++ (metaJSONFile ++ [dot]) <+:
          lit "fs" ++ [dot] ++ (lit "json" ++ [dot] ++ w) := by
        rw [← List.append_assoc _ _ w, ← hjson']
        exact ht
      obtain ⟨w', hw'⟩ := (List.prefix_append_right_inj _).1 hfs
      have hhead := congrArg List.head? hw'
      rw [List.append_assoc, List.append_assoc, List.head?_append_of_ne_nil _ (by decide),
        List.head?_append_of_ne_nil _ (by decide)] at hhead
      exact absurd hhead (by decide)
    · exact hgoal List.prefix_rfl
  · exact hgoal h

theorem not_near_jsonKey_of_apart {k k' : Bytes} (h : apart k' k = true)
    (h' : apart k k' = true) (u : Bytes) :
    ¬ Near k' (jsonKey k u) := by
  have hx : jsonKey k [] <+: jsonKey k u := ⟨u, by simp [jsonKey]⟩
  have hdot : k ++ [dot] <+: jsonKey k u := ⟨metaJSONFile ++ dot :: u, by simp [jsonKey]⟩
  simp only [apart, Bool.and_eq_true, decide_eq_true_eq, Bool.not_eq_true'] at h h'
  obtain ⟨⟨⟨hne, h1⟩, h2⟩, -⟩ := h
  obtain ⟨⟨-, h3⟩, -⟩ := h'
  rintro (he | hj | ⟨w, hw, hp⟩)
  · rw [← he, hasPrefix, List.isPrefixOf_iff_prefix.2 (hx.trans (List.prefix_append _ _))] at h3
    cases h3
  · have hdot' : k' ++ [dot] <+: jsonKey k u :=
      List.IsPrefix.trans ⟨metaJSONFile ++ [dot], by simp [jsonKey]⟩ hj
    rcases prefix_or_prefix_of_dot hne hdot' hdot with hk | hk
    · rw [hasPrefix_jsonKey_of_jsonKey hk hj hx] at h2
      cases h2
    · rw [hasPrefix_jsonKey_of_jsonKey hk hx hj] at h3
      cases h3
  · have hdot' : k' ++ [dot] <+: jsonKey k u :=
      List.IsPrefix.trans ⟨w ++ [dot], by simp [partsKey]⟩ hp
    rcases prefix_or_prefix_of_dot hne hdot' hdot with hk | hk
    · rw [looksLikePart_of_partsKey hk hw hp hdot] at h1
      cases h1
    · rw [hasPrefix_jsonKey_of_partsKey hk hw hx hp] at h3
      cases h3

variable {op : Op}

theorem exec_tidy_of_apart {b' o' : Bytes} (ht : Tidy K s (makeKey b o)) (hp : op.Plain)
    (htgt : op.target = some (b', o')) (h : apart (makeKey b' o') (makeKey b o) = true)
    (h' : apart (makeKey b o) (makeKey b' o') = true) : Tidy K (op.exec K s) (makeKey b o) := by
  have hev := exec_near (K := K) ht.plain hp htgt
  have hsame {x : Bytes} (hx : ¬ Near (makeKey b' o') x) : (op.exec K s).get? x = s.get? x :=
    hev.get?_eq (fun _ hw => hx hw.1) hx
  refine ht.of_same (exec_plainStore hp ht.plain) (hsame (not_near_self_of_apart h))
    (fun x v hv hpre => hsame (not_near_of_apart h hv hpre)) ?_
  rintro ⟨u, hu⟩
  refine ⟨u, ?_⟩
  rwa [mem_iff, hsame (not_near_jsonKey_of_apart h h' u), ← mem_iff]

theorem makeBucket_tidy {b' : Bytes} (ht : Tidy K s (makeKey b o)) (hb : slash ∉ b')
    (hplain : PlainStore (makeBucketWithLocation K s b' now).1) :
    Tidy K (makeBucketWithLocation K s b' now).1 (makeKey b o) := by
  refine ht.of_same hplain (makeBucket_frame hb s _ (.inl rfl))
    (fun x v hv hp => makeBucket_frame hb s x (.inr ⟨v, hv, hp⟩)) ?_
  rintro ⟨u, hu⟩
  refine ⟨u, ?_⟩
  unfold makeBucketWithLocation
  split
  · exact hu
  split
  · exact hu
  · rcases cPut_eq (K := K) s (bucketKey b') ⟨.gob ⟨bucketKey b', now⟩, []⟩ with ⟨h, -⟩ |
      ⟨e, h⟩ <;> rw [h]
    · exact mem_insert.2 (.inr hu)
    · exact hu

/-! ## Runs -/

theorem exec_tidy_of_target (hK : K.Healthy) (ht : Tidy K s (makeKey b o))
    (hp : op.Plain) (htgt : op.target = some (b, o)) (hc : op.CleansUp K s (makeKey b o)) :
    Tidy K (op.exec K s) (makeKey b o) := by
  have hplain : PlainStore (op.exec K s) := exec_plainStore hp ht.plain
  cases op with
  | makeBucket => cases htgt
  | deleteBucket => cases htgt
  | putObject b' o' r ud now =>
    cases htgt
    unfold Op.exec at hplain ⊢
    rcases putObject_cases (K := K) s b o r ud now with ⟨e, h⟩ | h <;> simp only [h] at hplain ⊢
    · exact ht
    · exact putObjectBody_tidy ht hc r ud now hplain
  | deleteObject b' o' => cases htgt; exact deleteObject_tidy hK ht hc hplain
  | newMultipartUpload b' o' ud u now => cases htgt; exact newMultipartUpload_tidy ht hplain
  | putObjectPart b' o' u n r now =>
    cases htgt; exact putObjectPart_tidy ht hc.1 hc.2.1 hc.2.2 hplain
  | completeMultipartUpload b' o' u parts =>
    cases htgt
    exact completeMultipartUpload_tidy hK ht hc hplain
  | abortMultipartUpload b' o' u =>
    cases htgt
    obtain ⟨v, hv, hcount⟩ := hc
    exact abortMultipartUpload_tidy hK ht hv hcount hplain
  | copyObject sb so b' o' src now =>
    cases htgt
    unfold Op.exec at hplain ⊢
    rcases copyObject_cases (K := K) s sb so b o src now with h | h <;> simp only [h] at hplain ⊢
    · exact ht
    · simp only [Op.CleansUp] at hc
      split_ifs at hplain hc ⊢
      · exact putObjectBody_tidy ht hc _ _ now hplain
      · exact copyMultipartObject_tidy hK ht hc.1 hc.2 hplain

theorem exec_tidy (hK : K.Healthy) (ht : Tidy K s (makeKey b o))
    (h : op.TidyAt K b o s) : Tidy K (op.exec K s) (makeKey b o) := by
  obtain ⟨hp, h⟩ := h
  cases htgt : op.target with
  | some bo =>
    obtain ⟨b', o'⟩ := bo
    simp only [htgt] at h
    split_ifs at h with heq
    · obtain ⟨rfl, rfl⟩ := heq
      exact exec_tidy_of_target hK ht hp htgt h
    · exact exec_tidy_of_apart ht hp htgt h.1 h.2
  | none =>
    simp only [htgt] at h
    cases op with
    | makeBucket b' now =>
      have hplain : PlainStore ((Op.makeBucket b' now).exec K s) := exec_plainStore hp ht.plain
      exact makeBucket_tidy ht h hplain
    | deleteBucket => exact h.elim
    | _ => cases htgt

theorem run_tidy {ops : List Op} (hK : K.Healthy) (ht : Tidy K s (makeKey b o))
    (h : TidyRun K b o s ops) : Tidy K (run K s ops) (makeKey b o) := by
  induction ops generalizing s with
  | nil => exact ht
  | cons op ops ih => exact ih (exec_tidy hK ht h.1) h.2

theorem initStore_tidy (K : Kineticd) (b o : Bytes) (clock : Nat → Nat) :
    Tidy K (initStore K clock) (makeKey b o) := by
  refine .of_noParts (initStore_plainStore K clock) fun x hx v _ hp => ?_
  rcases (initStore_evolves K clock).mem_of_mem hx with h | ⟨r, h, -⟩
  · exact absurd h (by simp [mem_iff])
  -- behind the only `/` of an internal bucket stands no `.`
  have hdot : dot ∈ (x.dropWhile (· ≠ slash)) := by
    have hp' : b ++ slash :: (o ++ dot :: (v ++ [dot])) <+: x := by
      simpa [partsKey, makeKey] using hp
    obtain ⟨t, rfl⟩ := hp'
    clear hx hp h
    induction b with
    | nil => simp
    | cons c b ih =>
      by_cases hc : c = slash
      · simp [hc]
      · simp only [List.cons_append, List.dropWhile_cons, ne_eq, hc, not_false_eq_true,
          decide_true, if_true]
        simpa using ih
  have hall : ∀ y ∈ [lit ".minio.sys", lit ".minio.sys/tmp",
    lit ".minio.sys/multipart"].map bucketKey,
      dot ∉ y.dropWhile (· ≠ slash) := by decide
  exact hall x h hdot

def Orphan (s : Store) (b o x : Bytes) : Prop :=
  x ∈ s ∧ PartKeyOf (makeKey b o) x ∧ ¬ Listed s (makeKey b o) x

/-- After a run whose calls on an object clean up, the object has an upload in progress or no part
without a listing. -/
theorem noOrphans_of_tidyRun (hK : K.Healthy) {clock : Nat → Nat} {ops : List Op} {b o : Bytes}
    (h : TidyRun K b o (initStore K clock) ops)
    (hdone : ¬ InProgress (run K (initStore K clock) ops) (makeKey b o)) (x : Bytes) :
    ¬ Orphan (run K (initStore K clock) ops) b o x := by
  rintro ⟨hx, hpart, hl⟩
  rcases (run_tidy hK (initStore_tidy K b o clock) h).parts x hx hpart with h | h
  · exact hl h
  · exact hdone h.inProgress

/-- An upload of one part, from the bucket to the completion. -/
def completedUpload : List Op :=
  [.makeBucket (lit "bkt") 1, .newMultipartUpload (lit "bkt") (lit "a") ∅ (lit "u1") 3,
    .putObjectPart (lit "bkt") (lit "a") (lit "u1") 1 onlyPart.r 4,
    .completeMultipartUpload (lit "bkt") (lit "a") (lit "u1") [onlyPart.listed]]

theorem cleansUp_onlyPart :
    (Op.completeMultipartUpload (lit "bkt") (lit "a") (lit "u1") [onlyPart.listed]).CleansUp
      (uploadDrive (lit "a")) (onePartStore (lit "a")) (makeKey (lit "bkt") (lit "a")) := by
  have hcur : currentVersion (uploadDrive (lit "a")) (onePartStore (lit "a"))
    (makeKey (lit "bkt") (lit "a")) =
      .ok [] := by decide
  have hkeys : ∀ x ∈ (onePartStore (lit "a")).keys, ∀ y ∈ (onePartStore (lit "a")).keys,
      partsKey (makeKey (lit "bkt") (lit "a")) (newVersion []) <+: x →
        (partsKey (makeKey (lit "bkt") (lit "a")) (newVersion []) ++
          partFilePrefix onlyPart.listed.partNumber onlyPart.listed.etag <+: y ↔ y = x) := by decide
  intro v hv
  rw [hcur] at hv
  cases hv
  refine ⟨by decide, fun x hx hp => ⟨onlyPart.listed, by simp, fun y hy => ?_⟩, fun r hr ps => ?_⟩
  · exact hkeys x (mem_keys.2 hx) y (mem_keys.2 hy) hp
  · have hrec : (onePartStore (lit "a")).get? (jsonKey (makeKey (lit "bkt") (lit "a")) (lit "u1")) =
        some ⟨.json (uploadMeta (lit "a") ∅ 3),
            (uploadDrive (lit "a")).marshal (uploadMeta (lit "a") ∅ 3)⟩ := by
      decide
    rw [hrec] at hr
    cases hr
    exact ⟨_, uploadDrive_unmarshal ps, rfl⟩

theorem tidyRun_completedUpload :
    TidyRun (uploadDrive (lit "a")) (lit "bkt") (lit "a") (initStore (uploadDrive (lit "a")) id)
      completedUpload := by
  have hjson : ((run (uploadDrive (lit "a")) (emptyBucket (lit "a"))
      [.newMultipartUpload (lit "bkt") (lit "a") ∅ (lit "u1") 3]).get?
        (jsonKey (makeKey (lit "bkt") (lit "a")) (lit "u1"))).isSome = true := by decide
  have hnames : colon ∉ lit "bkt" ∧ colon ∉ lit "a" := by decide
  refine ⟨⟨⟨by decide, hnames.1⟩, show slash ∉ lit "bkt" by decide⟩,
    ⟨⟨by decide, hnames.1, hnames.2, by decide, rfl⟩, trivial⟩,
    ⟨⟨by decide, hnames⟩, ?_⟩, ⟨⟨by decide, hnames⟩, ?_⟩, trivial⟩
  · exact ⟨hjson, by decide, by decide⟩
  · exact cleansUp_onlyPart

theorem noOrphans_completedUpload :
    TidyRun (uploadDrive (lit "a")) (lit "bkt") (lit "a") (initStore (uploadDrive (lit "a")) id)
        completedUpload ∧
      ∀ x, ¬ Orphan (run (uploadDrive (lit "a")) (initStore (uploadDrive (lit "a")) id)
        completedUpload)
        (lit "bkt") (lit "a") x := by
  have hkeys : ∀ x ∈ (run (uploadDrive (lit "a")) (initStore (uploadDrive (lit "a")) id)
    completedUpload).keys,
      ¬ jsonKey (makeKey (lit "bkt") (lit "a")) [] <+: x := by decide +kernel
  refine ⟨tidyRun_completedUpload, fun x =>
    noOrphans_of_tidyRun (memoryDrive_healthy _) tidyRun_completedUpload ?_ x⟩
  rintro ⟨u, hu⟩
  exact hkeys _ (mem_keys.2 hu) ⟨u, by simp [jsonKey]⟩

theorem contains_jsonKey (k u : Bytes) :
    contains (jsonKey k u) (dot :: (metaJSONFile ++ [dot])) = true := by
  refine List.any_eq_true.2 ⟨dot :: (metaJSONFile ++ dot :: u), (List.mem_tails _ _).2 ⟨k, rfl⟩, ?_⟩
  exact List.isPrefixOf_iff_prefix.2 ⟨u, by simp⟩

/-- A plain put over a completed multipart object leaves the part of the old version behind. -/
theorem put_leaves_orphan :
    ∃ s, s = run (uploadDrive (lit "a")) (initStore (uploadDrive (lit "a")) id) (completedUpload ++
        [.putObject (lit "bkt") (lit "a") (bodyReader (lit "data") (List.replicate 16 7)) ∅ 5]) ∧
      (∀ k, ¬ InProgress s k) ∧
      Orphan s (lit "bkt") (lit "a") (onlyPart.key (makeKey (lit "bkt") (lit "a"))
        (newVersion [])) := by
  refine ⟨_, rfl, fun k => ?_, ?_, ?_, ?_⟩
  · have hkeys : ∀ x ∈ (run (uploadDrive (lit "a")) (initStore (uploadDrive (lit "a")) id)
      (completedUpload ++
        [.putObject (lit "bkt") (lit "a") (bodyReader (lit "data") (List.replicate 16 7)) ∅
          5])).keys,
        contains x (dot :: (metaJSONFile ++ [dot])) = false := by decide +kernel
    rintro ⟨u, hu⟩
    have := hkeys _ (mem_keys.2 hu)
    rw [contains_jsonKey] at this
    cases this
  · exact mem_keys.1 (by decide +kernel)
  · exact ⟨newVersion [], 1, onlyPart.info.etag, 4, by decide, by decide, by decide, by decide, rfl⟩
  · rintro ⟨m, value, hget, hmem⟩
    have hparts : ((run (uploadDrive (lit "a")) (initStore (uploadDrive (lit "a")) id)
      (completedUpload ++
        [.putObject (lit "bkt") (lit "a") (bodyReader (lit "data") (List.replicate 16 7)) ∅
          5])).get?
          (makeKey (lit "bkt") (lit "a"))).map (fun r =>
            r.blob.partKeys (makeKey (lit "bkt") (lit "a"))) =
        some [] := by decide +kernel
    rw [hget] at hparts
    have hnil : m.partKeys (makeKey (lit "bkt") (lit "a")) = [] := Option.some.inj hparts
    rw [hnil] at hmem
    cases hmem

end S3Kinetic
