import S3Kinetic.EndToEnd

/-!
# Whose parts an upload finds

Part keys carry the object's next version and not the upload, so the code keeps uploads of one
object apart only when its callers do. `Monitor` runs the object layer and writes down, for one
object, which upload stored each part and which upload is in progress. `Monitor.Allowed` is the
discipline: one upload of the object at a time, started when no part of the next version is left
over. In every run that follows it the parts of the next version belong to the upload in progress
(`Monitor.Inv`), so completion finds parts of its own upload only and an abort deletes no others
(`uploads_isolated`).
-/

namespace S3Kinetic

open ByteString Decimal OrdMap

structure Monitor where
  store : Store
  owner : Bytes → Option Bytes
  active : Option Bytes

section

variable (K : Kineticd) (b o : Bytes)

/-- The key and the upload of the part that a call stores for the object. -/
def storedPart (s : Store) : Op → Option (Bytes × Bytes)
  | .putObjectPart b' o' u n r now =>
    if b' = b ∧ o' = o then
      match (putObjectPart K s b o u n r now).2, currentVersion K s (makeKey b o) with
      | .ok info, .ok v => some (partKey (makeKey b o) (newVersion v) n info.etag r.actualSize, u)
      | _, _ => none
    else none
  | _ => none

/-- The upload of the object that is in progress after a call. -/
def activeUpload (s : Store) (active : Option Bytes) : Op → Option Bytes
  | .newMultipartUpload b' o' ud u now =>
    if b' = b ∧ o' = o then
      match (newMultipartUpload K s b o ud u now).2 with
      | .ok u => some u
      | .error _ => active
    else active
  | .completeMultipartUpload b' o' u parts =>
    if b' = b ∧ o' = o then
      match (completeMultipartUpload K s b o u parts).2 with
      | .ok _ => none
      | .error _ => active
    else active
  | .abortMultipartUpload b' o' _ => if b' = b ∧ o' = o then none else active
  | _ => active

/-- A call; a part whose record changes is no longer the one its upload stored. -/
def Monitor.step (st : Monitor) (op : Op) : Monitor where
  store := op.exec K st.store
  owner x :=
    match storedPart K b o st.store op with
    | some (y, u) => if x = y then some u else st.owner x
    | none => if (op.exec K st.store).get? x = st.store.get? x then st.owner x else none
  active := activeUpload K b o st.store st.active op

def Monitor.init (clock : Nat → Nat) : Monitor := ⟨initStore K clock, fun _ => none, none⟩

def NoParts (s : Store) : Prop :=
  ∀ v, currentVersion K s (makeKey b o) = .ok v →
    ∀ x ∈ s, ¬ partsKey (makeKey b o) (newVersion v) <+: x

/-- When a call on the object itself keeps to one upload at a time. -/
def Monitor.AllowedHere (st : Monitor) : Op → Prop
  | .newMultipartUpload _ _ _ _ _ => st.active = none ∧ NoParts K b o st.store
  | .putObjectPart _ _ u _ _ _ | .completeMultipartUpload _ _ u _ | .abortMultipartUpload _ _ u =>
    st.active = some u
  | _ => st.active = none

/-- The discipline: calls on the object keep to one upload at a time, other objects are apart from
it, and no bucket is deleted while an upload is in progress. -/
def Monitor.Allowed (st : Monitor) (op : Op) : Prop :=
  op.Plain ∧
    match op.target with
    | some (b', o') =>
      if b' = b ∧ o' = o then st.AllowedHere K b o op
        else apart (makeKey b' o') (makeKey b o) = true
    | none =>
      match op with
      | .makeBucket b' _ => slash ∉ b'
      | _ => st.active = none

def Disciplined : Monitor → List Op → Prop
  | _, [] => True
  | st, op :: ops => st.Allowed K b o op ∧ Disciplined (st.step K b o op) ops

/-- Parts of the next version belong to the upload in progress. -/
structure Monitor.Inv (st : Monitor) : Prop where
  plain : PlainStore st.store
  parts : ∀ x u, st.owner x = some u →
    x ∈ st.store ∧ ∃ v, versionOrEmpty v = true ∧ partsKey (makeKey b o) v <+: x
  owned : ∀ u v, st.active = some u → currentVersion K st.store (makeKey b o) = .ok v →
    ∀ x ∈ st.store, partsKey (makeKey b o) (newVersion v) <+: x → st.owner x = some u

end

variable {K : Kineticd} {b o : Bytes} {st : Monitor} {op : Op}

theorem monitored_store (ops : List Op) :
    (ops.foldl (Monitor.step K b o) st).store = run K st.store ops := by
  induction ops generalizing st with
  | nil => rfl
  | cons op ops ih => exact ih

theorem Monitor.allowed_here_iff (ht : op.target = some (b, o)) :
    st.Allowed K b o op ↔ op.Plain ∧ st.AllowedHere K b o op := by
  simp [Monitor.Allowed, ht]

/-! ## Calls elsewhere -/

theorem storedPart_of_target_ne (h : op.target ≠ some (b, o)) (s : Store) :
    storedPart K b o s op = none := by
  cases op with
  | putObjectPart b' o' u n r now =>
    refine if_neg fun ⟨hb, ho⟩ => h ?_
    rw [hb, ho]
    rfl
  | _ => rfl

theorem activeUpload_of_target_ne (h : op.target ≠ some (b, o)) (s : Store)
    (active : Option Bytes) :
    activeUpload K b o s active op = active := by
  have hne {b' o' : Bytes} (ht : op.target = some (b', o')) : ¬ (b' = b ∧ o' = o) := by
    rintro ⟨rfl, rfl⟩
    exact h ht
  cases op with
  | newMultipartUpload => exact if_neg (hne rfl)
  | completeMultipartUpload => exact if_neg (hne rfl)
  | abortMultipartUpload => exact if_neg (hne rfl)
  | _ => rfl

/-- A call that stores no part and leaves the object's record and part keys as they are keeps the
owners of the parts. -/
theorem Monitor.owned_of_frame (hsp : storedPart K b o st.store op = none)
    (hframe : ∀ x, x = makeKey b o ∨
      (∃ w, versionOrEmpty w = true ∧ partsKey (makeKey b o) w <+: x) →
      (op.exec K st.store).get? x = st.store.get? x) (hinv : st.Inv K b o) {v x : Bytes}
    (hv : currentVersion K (op.exec K st.store) (makeKey b o) = .ok v) (hx : x ∈ op.exec K st.store)
    (hpre : partsKey (makeKey b o) (newVersion v) <+: x) :
    currentVersion K st.store (makeKey b o) = .ok v ∧ x ∈ st.store ∧
      (st.step K b o op).owner x = st.owner x := by
  rw [currentVersion_congr (hframe _ (.inl rfl))] at hv
  have hsame := hframe x
    (.inr ⟨_, versionOrEmpty_newVersion (currentVersion_ok hinv.plain hv), hpre⟩)
  refine ⟨hv, ?_, ?_⟩
  · rwa [mem_iff, ← hsame, ← mem_iff]
  · simp only [Monitor.step, hsp, hsame, if_true]

theorem exec_frame_of_apart {b' o' : Bytes} (hs : PlainStore st.store) (hp : op.Plain)
    (ht : op.target = some (b', o')) (ha : apart (makeKey b' o') (makeKey b o) = true) (x : Bytes)
    (hx : x = makeKey b o ∨ ∃ w, versionOrEmpty w = true ∧ partsKey (makeKey b o) w <+: x) :
    (op.exec K st.store).get? x = st.store.get? x := by
  have hfar : ¬ Near (makeKey b' o') x := by
    rcases hx with rfl | ⟨w, hw, hpre⟩
    · exact not_near_self_of_apart ha
    · exact not_near_of_apart ha hw hpre
  exact (exec_near hs hp ht).get?_eq (fun _ h => hfar h.1) hfar

theorem makeBucket_frame {b' : Bytes} {now : Nat} (hb : slash ∉ b') (s : Store) (x : Bytes)
    (hx : x = makeKey b o ∨ ∃ w, versionOrEmpty w = true ∧ partsKey (makeKey b o) w <+: x) :
    (makeBucketWithLocation K s b' now).1.get? x = s.get? x := by
  have hmem : slash ∈ x := by
    have hk : slash ∈ makeKey b o := by simp [makeKey]
    rcases hx with rfl | ⟨w, -, t, rfl⟩
    · exact hk
    · simp [partsKey, hk]
  have hne : x ≠ bucketKey b' := by
    rintro rfl
    rcases List.mem_append.1 hmem with h | h
    · exact absurd h (by decide)
    · exact hb h
  unfold makeBucketWithLocation
  split
  · rfl
  split
  · rfl
  · exact cPut_get?_of_ne hne

/-! ## Calls on the object -/

theorem ne_jsonKey_of_frame {u x : Bytes}
    (hx : x = makeKey b o ∨ ∃ w, versionOrEmpty w = true ∧ partsKey (makeKey b o) w <+: x) :
    x ≠ jsonKey (makeKey b o) u := by
  rintro rfl
  rcases hx with h | ⟨w, hw, hpre⟩
  · have := congrArg List.length h
    simp [jsonKey] at this
  · exact not_partsKey_prefix_jsonKey hw hpre

theorem complete_frame_of_error {s s' : Store} {u : Bytes} {parts : List CompletePart} {e : Err}
    (h : completeMultipartUpload K s b o u parts = (s', .error e)) {x : Bytes}
    (hx : x ≠ jsonKey (makeKey b o) u) : s'.get? x = s.get? x := by
  rcases completeMultipartUpload_cases (K := K) s b o u parts with
    ⟨e', h'⟩ | ⟨v, keys, ps, -, -, -, ⟨s1, e', hc, h'⟩ | ⟨s1, m, hc, h'⟩⟩ <;>
      rw [h'] at h <;> cases h
  · rfl
  · rcases commitUpload_cases (K := K) s (makeKey b o) u (newVersion v)
      (getCompleteMultipartMD5 K parts) ps
      with ⟨e', h', -⟩ | ⟨e', h', -⟩ | ⟨rec, m, -, -, h'⟩ <;> rw [h'] at hc <;> cases hc
    · rfl
    · exact delete_get?_of_ne hx

theorem storedPart_eq_some {s : Store} {y u : Bytes} (h : storedPart K b o s op = some (y, u)) :
    ∃ v rec, currentVersion K s (makeKey b o) = .ok v ∧
      partsKey (makeKey b o) (newVersion v) <+: y ∧
      op.exec K s = s.insert y rec ∧ ∃ n r now, op = .putObjectPart b o u n r now := by
  cases op with
  | putObjectPart b' o' u' n r now =>
    simp only [storedPart] at h
    split at h
    · next hsame =>
      obtain ⟨rfl, rfl⟩ := hsame
      rcases putObjectPart_cases (K := K) s b' o' u' n r now with ⟨e, h'⟩ | ⟨v, buf, st, hv, -, h'⟩
      · simp [h'] at h
      · simp only [h', hv, Option.some.injEq, Prod.mk.injEq] at h
        obtain ⟨rfl, rfl⟩ := h
        exact ⟨v, ⟨.json (partMeta o' (r.md5CurrentHexString 1) r.size now), buf⟩, hv,
          List.prefix_append _ _, by rw [Op.exec, h'], n, r, now, rfl⟩
    · cases h
  | _ => cases h

theorem Monitor.parts_step (hinv : st.Inv K b o) {x u : Bytes}
    (h : (st.step K b o op).owner x = some u) :
    x ∈ (st.step K b o op).store ∧ ∃ v, versionOrEmpty v = true ∧
      partsKey (makeKey b o) v <+: x := by
  cases hsp : storedPart K b o st.store op with
  | some yu =>
    obtain ⟨y, w⟩ := yu
    obtain ⟨v, rec, hv, hpre, hexec, -⟩ := storedPart_eq_some hsp
    simp only [Monitor.step, hsp] at h ⊢
    rw [hexec, mem_insert]
    split at h
    · next hxy =>
      subst hxy
      exact ⟨.inl rfl, _, versionOrEmpty_newVersion (currentVersion_ok hinv.plain hv), hpre⟩
    · obtain ⟨hmem, hver⟩ := hinv.parts x u h
      exact ⟨.inr hmem, hver⟩
  | none =>
    simp only [Monitor.step, hsp] at h ⊢
    split at h
    · next hsame =>
      obtain ⟨hmem, hver⟩ := hinv.parts x u h
      exact ⟨by rwa [mem_iff, hsame, ← mem_iff], hver⟩
    · cases h

theorem Monitor.owned_of_storedPart {y w u v x : Bytes} (hinv : st.Inv K b o)
    (hsp : storedPart K b o st.store op = some (y, w)) (hact : st.active = some w)
    (hu : (st.step K b o op).active = some u)
    (hv : currentVersion K (op.exec K st.store) (makeKey b o) = .ok v) (hx : x ∈ op.exec K st.store)
    (hpre : partsKey (makeKey b o) (newVersion v) <+: x) :
    (st.step K b o op).owner x = some u := by
  obtain ⟨v', rec, hv', hpre', hexec, n, r, now, rfl⟩ := storedPart_eq_some hsp
  have hwu : w = u := by
    have : st.active = some u := hu
    rw [hact] at this
    exact Option.some.inj this
  rw [hexec] at hx hv
  rw [currentVersion_congr (get?_insert_of_ne (ne_of_partsKey hpre').symm)] at hv
  simp only [Monitor.step, hsp]
  split
  · rw [hwu]
  · next hne =>
    exact hwu ▸ hinv.owned w v hact hv x ((mem_insert.1 hx).resolve_left hne) hpre

/-- While an upload is in progress, an allowed call on the object either stores a part for it, or
leaves the object's record and part keys as they are. A new upload starts without parts. -/
theorem Monitor.here_cases (ht : op.target = some (b, o)) (hal : st.AllowedHere K b o op)
    (hact : (st.step K b o op).active ≠ none) :
    (∃ y u, storedPart K b o st.store op = some (y, u) ∧ st.active = some u) ∨
      storedPart K b o st.store op = none ∧
        (∀ x, x = makeKey b o ∨ (∃ w, versionOrEmpty w = true ∧ partsKey (makeKey b o) w <+: x) →
          (op.exec K st.store).get? x = st.store.get? x) ∧
        ((st.step K b o op).active = st.active ∨ NoParts K b o st.store) := by
  cases op with
  | makeBucket => cases ht
  | deleteBucket => cases ht
  | putObject => exact absurd hal hact
  | deleteObject => exact absurd hal hact
  | copyObject => exact absurd hal hact
  | newMultipartUpload b' o' ud u now =>
    cases ht
    refine .inr ⟨rfl, fun x hx => ?_, .inr hal.2⟩
    rw [Op.exec]
    rcases newMultipartUpload_cases (K := K) st.store b o ud u now with ⟨e, h⟩ | h <;> rw [h]
    exact get?_insert_of_ne (ne_jsonKey_of_frame hx)
  | putObjectPart b' o' u n r now =>
    cases ht
    rcases putObjectPart_cases (K := K) st.store b o u n r now with ⟨e, h⟩ | ⟨v, buf, st', hv, -, h⟩
    · refine .inr ⟨?_, fun x _ => ?_, .inl rfl⟩
      · simp [storedPart, h]
      · rw [Op.exec, h]
    · exact .inl ⟨partKey (makeKey b o) (newVersion v) n (partETag K r) r.actualSize, u,
        by simp only [storedPart, h, hv, and_self, if_true], hal⟩
  | completeMultipartUpload b' o' u parts =>
    cases ht
    rcases h : completeMultipartUpload K st.store b o u parts with ⟨s', e | info⟩
    · refine .inr ⟨rfl, fun x hx => ?_, .inl ?_⟩
      · rw [Op.exec, h]
        exact complete_frame_of_error h (ne_jsonKey_of_frame hx)
      · simp [Monitor.step, activeUpload, h]
    · exact absurd (by simp [Monitor.step, activeUpload, h]) hact
  | abortMultipartUpload b' o' u =>
    cases ht
    exact absurd (by simp [Monitor.step, activeUpload]) hact

theorem Monitor.inv_step (hal : st.Allowed K b o op) (hinv : st.Inv K b o) :
    (st.step K b o op).Inv K b o := by
  obtain ⟨hplain, hal⟩ := hal
  refine ⟨exec_plainStore hplain hinv.plain, fun x u h => Monitor.parts_step hinv h, ?_⟩
  intro u v hu hv x hx hpre
  -- a call elsewhere keeps the owners and the upload in progress
  have helse (ht : op.target ≠ some (b, o))
      (hframe : ∀ x, x = makeKey b o ∨
        (∃ w, versionOrEmpty w = true ∧ partsKey (makeKey b o) w <+: x) →
        (op.exec K st.store).get? x = st.store.get? x) : (st.step K b o op).owner x = some u := by
    obtain ⟨hv', hx', hown⟩ :=
      Monitor.owned_of_frame (storedPart_of_target_ne ht _) hframe hinv hv hx hpre
    rw [hown]
    exact hinv.owned u v ((activeUpload_of_target_ne ht _ _).symm.trans hu) hv' x hx' hpre
  cases ht : op.target with
  | none =>
    rw [ht] at hal
    refine helse (by simp [ht]) fun y hy => ?_
    cases op with
    | makeBucket b' now => exact makeBucket_frame hal st.store y hy
    | deleteBucket b' sched => exact absurd (hu.symm.trans hal) (by simp)
    | _ => cases ht
  | some bo =>
    obtain ⟨b', o'⟩ := bo
    rw [ht] at hal
    dsimp only at hal
    split at hal
    · next hsame =>
      obtain ⟨rfl, rfl⟩ := hsame
      rcases Monitor.here_cases ht hal (by simp [hu]) with ⟨y, w, hsp, hact⟩ | ⟨hsp, hframe, hcase⟩
      · exact Monitor.owned_of_storedPart hinv hsp hact hu hv hx hpre
      · obtain ⟨hv', hx', hown⟩ := Monitor.owned_of_frame hsp hframe hinv hv hx hpre
        rcases hcase with hact | hnone
        · rw [hown]
          exact hinv.owned u v (hact.symm.trans hu) hv' x hx' hpre
        · exact absurd hpre (hnone v hv' x hx')
    · next hne =>
      refine helse (fun h => hne ?_) (exec_frame_of_apart hinv.plain hplain ht hal)
      rw [ht] at h
      simpa using h

theorem Disciplined.inv {ops : List Op} (hinv : st.Inv K b o) (h : Disciplined K b o st ops) :
    (ops.foldl (Monitor.step K b o) st).Inv K b o := by
  induction ops generalizing st with
  | nil => exact hinv
  | cons op ops ih => exact ih (Monitor.inv_step h.1 hinv) h.2

theorem Monitor.inv_init (K : Kineticd) (b o : Bytes) (clock : Nat → Nat) :
    (Monitor.init K clock).Inv K b o :=
  ⟨initStore_plainStore K clock, fun _ _ h => (by cases h), fun _ _ h => (by cases h)⟩

/-! ## Completion and abort -/

/-- A completion by the upload in progress finds only parts this upload stored. -/
theorem Monitor.complete_owned {u : Bytes} {parts : List CompletePart} {s' : Store}
    {info : ObjectInfo} (hinv : st.Inv K b o) (hact : st.active = some u)
    (h : completeMultipartUpload K st.store b o u parts = (s', .ok info)) :
    ∃ v, currentVersion K st.store (makeKey b o) = .ok v ∧ ∀ part ∈ parts,
      (∃ x ∈ st.store, partsKey (makeKey b o) (newVersion v) ++
        partFilePrefix part.partNumber part.etag <+: x) ∧
      ∀ x ∈ st.store, partsKey (makeKey b o) (newVersion v) ++
        partFilePrefix part.partNumber part.etag <+: x → st.owner x = some u := by
  rcases completeMultipartUpload_cases (K := K) st.store b o u parts with
    ⟨e, h'⟩ | ⟨v, keys, ps, hv, hkeys, hps, -⟩
  · rw [h'] at h
    cases h
  refine ⟨v, hv, fun part hpart => ⟨?_, fun x hx hpre => ?_⟩⟩
  · rw [stripKeys_partKeyRange fun x hx _ => hinv.plain.not_colon hx] at hkeys
    cases hkeys
    obtain ⟨p, -, hp⟩ := (completeParts_ok hps).1 part hpart
    obtain ⟨f, hf, hpre, -⟩ := completePart_ok hp
    exact ⟨_, (mem_partWindow (mem_partFiles.1 hf)).1, (List.prefix_append_right_inj _).2 hpre⟩
  · exact hinv.owned u v hact hv x hx ((List.prefix_append _ _).trans hpre)

theorem Monitor.abort_keeps {u w x : Bytes} (hinv : st.Inv K b o) (hact : st.active = some u)
    (hne : w ≠ u) (hown : st.owner x = some w) :
    (abortMultipartUpload K st.store b o u).1.get? x = st.store.get? x := by
  obtain ⟨hx, w', hw', hpre⟩ := hinv.parts x w hown
  have hjson := ne_jsonKey_of_frame (b := b) (o := o) (u := u) (.inr ⟨w', hw', hpre⟩)
  have hk := ne_jsonKey_of_frame (b := b) (o := o) (u := u) (.inl rfl)
  have hdel : Evolves (fun _ _ => False) (· = jsonKey (makeKey b o) u) st.store
      (delete K st.store (jsonKey (makeKey b o) u)).1 := delete_evolves rfl
  have hs' : PlainStore (delete K st.store (jsonKey (makeKey b o) u)).1 :=
    hdel.invariant (fun _ _ h => h.elim) hinv.plain
  unfold abortMultipartUpload
  dsimp only
  rw [currentVersion_congr (delete_get?_of_ne hk)]
  cases hv : currentVersion K st.store (makeKey b o) with
  | error e => exact delete_get?_of_ne hjson
  | ok v =>
    have hrange : ¬ partsKey (makeKey b o) (newVersion v) <+: x := fun h => by
      have := hinv.owned u v hact hv x hx h
      rw [hown] at this
      exact hne (Option.some.inj this)
    have hparts := deleteParts_evolves (K := K) (W := fun _ _ => False) (k := makeKey b o)
      (v := newVersion v) fun y hy _ => hs'.not_colon hy
    exact (hparts.get?_eq (fun _ h => h) hrange).trans (delete_get?_of_ne hjson)

theorem uploads_isolated (K : Kineticd) (clock : Nat → Nat) {b o : Bytes} {ops : List Op}
    {st : Monitor} (hrun : Disciplined K b o (Monitor.init K clock) ops)
    (hst : st = ops.foldl (Monitor.step K b o) (Monitor.init K clock)) :
    st.store = run K (initStore K clock) ops ∧
      (∀ u parts s' info, st.Allowed K b o (.completeMultipartUpload b o u parts) →
        completeMultipartUpload K st.store b o u parts = (s', .ok info) →
        ∃ v, currentVersion K st.store (makeKey b o) = .ok v ∧ ∀ part ∈ parts,
          (∃ x ∈ st.store, partsKey (makeKey b o) (newVersion v) ++
            partFilePrefix part.partNumber part.etag <+: x) ∧
          ∀ x ∈ st.store, partsKey (makeKey b o) (newVersion v) ++
            partFilePrefix part.partNumber part.etag <+: x → st.owner x = some u) ∧
      ∀ u w x, st.Allowed K b o (.abortMultipartUpload b o u) → w ≠ u → st.owner x = some w →
        (abortMultipartUpload K st.store b o u).1.get? x = st.store.get? x := by
  subst hst
  have hinv := hrun.inv (Monitor.inv_init K b o clock)
  refine ⟨monitored_store ops, fun u parts s' info hal h => ?_, fun u w x hal hne hown => ?_⟩
  · exact Monitor.complete_owned hinv ((Monitor.allowed_here_iff rfl).1 hal).2 h
  · exact Monitor.abort_keeps hinv ((Monitor.allowed_here_iff rfl).1 hal).2 hne hown

/-- One upload with one part. -/
def oneUpload : List Op :=
  [.makeBucket (lit "bkt") 1, .newMultipartUpload (lit "bkt") (lit "a") ∅ (lit "u1") 3,
    .putObjectPart (lit "bkt") (lit "a") (lit "u1") 1 onlyPart.r 4]

theorem disciplined_oneUpload :
    Disciplined (uploadDrive (lit "a")) (lit "bkt") (lit "a")
      (Monitor.init (uploadDrive (lit "a")) id)
      oneUpload := by
  have hnames : colon ∉ lit "bkt" ∧ colon ∉ lit "a" := by decide
  refine ⟨⟨⟨by decide, hnames.1⟩, show slash ∉ lit "bkt" by decide⟩,
    (Monitor.allowed_here_iff rfl).2 ⟨⟨by decide, ?_⟩, rfl, ?_⟩,
    (Monitor.allowed_here_iff rfl).2 ⟨⟨by decide, hnames⟩, ?_⟩, trivial⟩
  · exact ⟨hnames.1, hnames.2, by decide, rfl⟩
  · intro v _ x hx hpre
    have hnone : ∀ x ∈ (emptyBucket (lit "a")).keys, ¬ makeKey (lit "bkt") (lit "a") ++
        [dot] <+: x := by
      decide
    refine hnone x (mem_keys.2 hx) (List.IsPrefix.trans ?_ hpre)
    exact ⟨_, by rw [partsKey, List.append_assoc]; rfl⟩
  · show Monitor.active _ = some (lit "u1")
    decide

theorem uploads_isolated_oneUpload :
    (oneUpload.foldl (Monitor.step (uploadDrive (lit "a")) (lit "bkt") (lit "a"))
        (Monitor.init (uploadDrive (lit "a")) id)).owner
      (onlyPart.key (makeKey (lit "bkt") (lit "a")) (lit "00001")) = some (lit "u1") := by
  obtain ⟨hstore, hcomplete, -⟩ :=
    uploads_isolated (uploadDrive (lit "a")) id disciplined_oneUpload rfl
  have hok : (completeMultipartUpload (uploadDrive (lit "a"))
      (run (uploadDrive (lit "a")) (initStore (uploadDrive (lit "a")) id) oneUpload)
        (lit "bkt") (lit "a")
      (lit "u1") [onlyPart.listed]).2.isOk = true := by decide +kernel
  rcases h : completeMultipartUpload (uploadDrive (lit "a"))
    (run (uploadDrive (lit "a")) (initStore (uploadDrive (lit "a")) id) oneUpload)
      (lit "bkt") (lit "a")
    (lit "u1") [onlyPart.listed] with ⟨s', e | info⟩
  · rw [h] at hok
    cases hok
  · have hallowed : (oneUpload.foldl (Monitor.step (uploadDrive (lit "a")) (lit "bkt") (lit "a"))
        (Monitor.init (uploadDrive (lit "a")) id)).Allowed (uploadDrive (lit "a"))
          (lit "bkt") (lit "a")
        (.completeMultipartUpload (lit "bkt") (lit "a") (lit "u1") [onlyPart.listed]) := by
      refine (Monitor.allowed_here_iff rfl).2 ⟨?_, ?_⟩
      · exact ⟨by decide, show colon ∉ lit "bkt" ∧ colon ∉ lit "a" by decide⟩
      · show Monitor.active _ = some (lit "u1")
        decide
    rw [hstore] at hcomplete
    obtain ⟨v, hv, hparts⟩ := hcomplete (lit "u1") [onlyPart.listed] s' info hallowed h
    have hv0 : currentVersion (uploadDrive (lit "a"))
        (run (uploadDrive (lit "a")) (initStore (uploadDrive (lit "a")) id) oneUpload)
        (makeKey (lit "bkt") (lit "a")) = .ok [] := by decide
    rw [hv0] at hv
    cases hv
    exact (hparts onlyPart.listed List.mem_cons_self).2 _ (by decide +kernel) (by decide +kernel)

/-- Two uploads of one object, and a part stored for the second. -/
def twoUploads : List Op :=
  [.makeBucket (lit "bkt") 1, .newMultipartUpload (lit "bkt") (lit "a") ∅ (lit "u1") 3,
    .newMultipartUpload (lit "bkt") (lit "a") ∅ (lit "u2") 3,
    .putObjectPart (lit "bkt") (lit "a") (lit "u2") 1 onlyPart.r 4]

/-- The first upload is completed with the part of the second, or deletes it when aborted. -/
theorem uploads_share_parts :
    (twoUploads.foldl (Monitor.step (uploadDrive (lit "a")) (lit "bkt") (lit "a"))
        (Monitor.init (uploadDrive (lit "a")) id)).owner
      (onlyPart.key (makeKey (lit "bkt") (lit "a")) (lit "00001")) = some (lit "u2") ∧
    (completeMultipartUpload (uploadDrive (lit "a"))
      (run (uploadDrive (lit "a")) (initStore (uploadDrive (lit "a")) id) twoUploads)
      (lit "bkt") (lit "a")
      (lit "u1") [onlyPart.listed]).2.isOk = true ∧
    onlyPart.key (makeKey (lit "bkt") (lit "a")) (lit "00001") ∉
      (abortMultipartUpload (uploadDrive (lit "a"))
        (run (uploadDrive (lit "a")) (initStore (uploadDrive (lit "a")) id) twoUploads)
        (lit "bkt") (lit "a")
        (lit "u1")).1 := by
  decide +kernel

end S3Kinetic
