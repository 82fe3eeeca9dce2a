import S3Kinetic.Config
import S3Kinetic.Lib.Runs

/-!
# Configurations that share their lists (`cmd/config/config.go`)

`New` copies the slice headers of the registered defaults, `Clone` copies the pairs. `SetKVS` writes
through the slice of the target, or of the defaults for a new target, before it knows whether the
update is accepted.
-/

namespace S3Kinetic.Config

open List Slices Runs

inductive Loc
  | registered (subSys : Bytes)
  | target (config : Nat) (subSys tgt : Bytes)
deriving DecidableEq

structure World where
  arrays : Memory KV
  /-- The slice of each place, nil where there is none. -/
  slot : Loc → Slice
  /-- The targets of each configuration. -/
  targets : Nat → List (Bytes × Bytes)
  /-- How many configurations there are. -/
  configs : Nat

def nilSlice : Slice := ⟨0, 0, 0⟩

def World.pairs (w : World) (l : Loc) : KVS := view w.arrays (w.slot l)

/- Go rounds the capacity of a list that grows and that of one appended to nil differently: `spare`
is what stands behind a list that has grown, `spareNil` behind a copy. -/
variable (reg : Registry) (spare spareNil : Nat → List KV)

/-! ## Operations -/

/-- `RegisterDefaultKVS` of lists that are literals. -/
def register (defaults : List (Bytes × KVS)) : World where
  arrays := defaults.map Prod.snd
  slot
    | .registered subSys =>
      match defaults.findIdx? (·.1 = subSys) with
      | some i =>
        ⟨i, (array (defaults.map Prod.snd) i).length, (array (defaults.map Prod.snd) i).length⟩
      | none => nilSlice
    | .target .. => nilSlice
  targets _ := []
  configs := 0

/-- Where `New` takes the slice of a place from, as the `n`-th configuration. -/
def newSource (n : Nat) : Loc → Loc
  | .target config subSys tgt =>
    if config = n ∧ subSys ∈ reg.subSystems ∧ tgt = defaultTarget then .registered subSys
      else .target config subSys tgt
  | l => l

/-- `New`. -/
def World.new (w : World) : World where
  arrays := w.arrays
  slot l := w.slot (newSource reg w.configs l)
  targets := Function.update w.targets w.configs (reg.subSystems.map (·, defaultTarget))
  configs := w.configs + 1

/-- One list of `Clone`: an append to nil. -/
def World.cloneTarget (config : Nat) (w : World) (t : Bytes × Bytes) : World :=
  let kvs := w.pairs (.target config t.1 t.2)
  if kvs = [] then { w with slot := Function.update w.slot (.target w.configs t.1 t.2) nilSlice }
  else
    { w with
      arrays := w.arrays ++ [kvs ++ spareNil kvs.length]
      slot := Function.update w.slot (.target w.configs t.1 t.2)
        ⟨w.arrays.length, kvs.length, kvs.length + (spareNil kvs.length).length⟩ }

/-- `Clone`; a configuration has every sub-system, so nothing of the new one that it starts with is
left. -/
def World.clone (w : World) (config : Nat) : World :=
  let w' := (w.targets config).foldl (World.cloneTarget spareNil config) w
  { w' with
    targets := Function.update w'.targets w.configs (w.targets config)
    configs := w.configs + 1 }

/-- The loop of `SetKVS` that adds missing defaults, which are read while it writes. -/
def fill (p : Memory KV × Slice) (d : Slice) : Memory KV × Slice :=
  (List.range d.len).foldl (fun p i =>
    match (view p.1 d)[i]? with
    | some kv => if (view p.1 p.2).lookup kv.1 = none then (setEditor.edit kv (view p.1 p.2)).run
      spare p.1 p.2 else p
    | none => p) p

/-- The slice that `SetKVS` begins with. -/
def World.current (w : World) (config : Nat) (subSys tgt : Bytes) : Slice :=
  if (subSys, tgt) ∈ w.targets config then w.slot (.target config subSys tgt)
    else w.slot (.registered subSys)

def World.wrote (w : World) (m : Memory KV) : World := { w with arrays := m }

/-- The slice becomes that of the target. -/
def World.store (w : World) (config : Nat) (subSys tgt : Bytes) (p : Memory KV × Slice) :
    World where
  arrays := p.1
  slot := Function.update w.slot (.target config subSys tgt) p.2
  targets := Function.update w.targets config ((subSys, tgt) :: w.targets config)
  configs := w.configs

/-- `SetKVS`, with the memory as it is left also by an error. -/
def World.setKVS (w : World) (config : Nat) (s : Bytes) : World × Option ConfigErr :=
  match parseLine reg s with
  | .error err => (w, some err)
  | .ok (subSys, tgt, kvs) =>
    let d := w.slot (.registered subSys)
    let defaults := view w.arrays d
    let p := (w.arrays, w.current config subSys tgt)
    let p := if (subSys, tgt) ∈ w.targets config then fill spare p d else p
    let p := run setEditor spare p (updates (withEnable defaults kvs))
    match checkRequired reg defaults subSys (view p.1 p.2) with
    | some err => (w.wrote p.1, some err)
    | none => (w.store config subSys tgt p, none)

inductive Op
  | new
  | clone (config : Nat)
  | setKVS (config : Nat) (s : Bytes)

def step (w : World) : Op → World
  | .new => w.new reg
  | .clone config => w.clone spareNil config
  | .setKVS config s => if config < w.configs then (w.setKVS reg spare config s).1 else w

/-! ## Locality -/

/-- The place a line names. -/
def named (config : Nat) (s : Bytes) : Option Loc :=
  match parseLine reg s with
  | .error _ => none
  | .ok (subSys, tgt, _) => some (.target config subSys tgt)

/-- An update changes the place it names and nothing else, and nothing at all if it fails. -/
def Local (w : World) : Op → Prop
  | .setKVS config s =>
    config < w.configs → ∀ l, (w.setKVS reg spare config s).2.isSome ∨ named reg config s ≠ some l →
      (w.setKVS reg spare config s).1.pairs l = w.pairs l
  | _ => True

/-- Another place than `l` looks at the array of the slice. -/
def World.Shared (w : World) (l : Loc) (s : Slice) : Prop :=
  ∃ l' ≠ l, (w.slot l').cap ≠ 0 ∧ (w.slot l').addr = s.addr

/-- If the list is shared, or misses a required key after the update, the values that are written
before the list has to grow are the ones that are there. -/
def Harmless (w : World) : Op → Prop
  | .setKVS config s =>
    match parseLine reg s with
    | .error _ => True
    | .ok (subSys, tgt, kvs) =>
      let c := w.current config subSys tgt
      let defaults := w.pairs (.registered subSys)
      let us := updates (withEnable defaults kvs)
      config < w.configs → w.Shared (.target config subSys tgt) c ∨
          (checkRequired reg defaults subSys (runList setEditor (view w.arrays c) us)).isSome →
        (inPlace setEditor c.cap (view w.arrays c) us).take c.len = view w.arrays c
  | _ => True

/-! ## Keys -/

theorem edit_cases (kv : KV) (kvs : KVS) :
    (∃ i, setEditor.edit kv kvs = .set i kv ∧ (List.set kvs i kv).map Prod.fst = kvs.map Prod.fst) ∨
      setEditor.edit kv kvs = .push kv := by
  cases hf : kvs.findIdx? (·.1 = kv.1) with
  | none => exact .inr (by simp [setEditor, hf])
  | some i =>
    refine .inl ⟨i, by simp [setEditor, hf], ?_⟩
    obtain ⟨hi, hk, -⟩ := findIdx?_eq_some_iff_getElem.1 hf
    refine List.ext_getElem? fun j => ?_
    rw [map_set, getElem?_set]
    split_ifs with hij hlt
    · subst hij
      simpa [hi] using (of_decide_eq_true hk).symm
    · simp_all
    · rfl

theorem inPlace_keys (cap : Nat) (kvs : KVS) (us : List KV) :
    ((inPlace setEditor cap kvs us).take kvs.length).map Prod.fst = kvs.map Prod.fst := by
  induction us generalizing kvs with
  | nil => rw [inPlace, take_length]
  | cons u us ih =>
    rcases edit_cases u kvs with ⟨i, hi, hkeys⟩ | hpush
    · have := ih (List.set kvs i u)
      rw [length_set, hkeys] at this
      rw [inPlace, hi]
      exact this
    · rw [inPlace, hpush]
      simp only
      split_ifs
      · have := congrArg (List.take kvs.length) (ih (kvs ++ [u]))
        rw [← map_take, take_take, length_append, min_eq_left (Nat.le_add_right _ _), map_append,
          take_left' (length_map _)] at this
        exact this
      · rw [take_length]

theorem runList_keys (kvs : KVS) (us : List KV) :
    kvs.map Prod.fst <+: (runList setEditor kvs us).map Prod.fst := by
  induction us generalizing kvs with
  | nil => exact prefix_rfl
  | cons u us ih =>
    have hstep : kvs.map Prod.fst <+: ((setEditor.edit u kvs).apply kvs).map Prod.fst := by
      rcases edit_cases u kvs with ⟨i, hi, hkeys⟩ | hpush
      · rw [hi, Edit.apply, hkeys]
      · rw [hpush, Edit.apply, map_append]
        exact prefix_append ..
    exact hstep.trans (ih _)

theorem fill_eq {m : Memory KV} {s d : Slice}
    (h : (view m d).map Prod.fst ⊆ (view m s).map Prod.fst) : fill spare (m, s) d = (m, s) := by
  unfold fill
  generalize List.range d.len = is
  induction is with
  | nil => rfl
  | cons i is ih =>
    rw [foldl_cons]
    convert ih using 2
    cases hi : (view m d)[i]? with
    | none => rfl
    | some kv =>
      have hmem := h (mem_map_of_mem (mem_of_getElem? hi))
      simp only
      rw [if_neg]
      intro hnone
      obtain ⟨kv', hkv', he⟩ := mem_map.1 hmem
      have := lookup_eq_none_iff.1 hnone kv' hkv'
      simp [he] at this

/-! ## What holds of every world -/

/-- What holds of the slices. -/
structure Sound (w : World) : Prop where
  fits : ∀ l, Fits w.arrays (w.slot l)
  /-- Two places that share an array have the same slice, and it has no room. -/
  apart : ∀ l l', l ≠ l' → (w.slot l).addr = (w.slot l').addr →
    (w.slot l).cap = 0 ∨ (w.slot l').cap = 0 ∨ w.slot l = w.slot l' ∧
      (w.slot l).len = (w.slot l).cap
  literal : ∀ subSys, (w.slot (.registered subSys)).len = (w.slot (.registered subSys)).cap

structure Inv (w : World) : Prop extends Sound w where
  covers : ∀ config t, t ∈ w.targets config →
    (w.pairs (.registered t.1)).map Prod.fst ⊆ (w.pairs (.target config t.1 t.2)).map Prod.fst
  fresh : ∀ config, w.configs ≤ config → w.targets config = []

theorem nilSlice_fits (m : Memory KV) : Fits m nilSlice := ⟨le_rfl, Nat.zero_le _⟩

theorem inv_register (defaults : List (Bytes × KVS)) : Inv (register defaults) := by
  refine ⟨⟨fun l => ?_, fun l l' hne haddr => ?_, fun subSys => ?_⟩, (fun _ _ h => nomatch h),
    fun _ _ => rfl⟩
  · cases l with
    | target => exact nilSlice_fits _
    | registered subSys =>
      simp only [register]
      split
      · exact ⟨le_rfl, le_rfl⟩
      · exact nilSlice_fits _
  · cases l with
    | target => exact .inl rfl
    | registered subSys =>
      cases l' with
      | target => exact .inr (.inl rfl)
      | registered subSys' =>
        simp only [register] at haddr ⊢
        cases hi : defaults.findIdx? (·.1 = subSys) with
        | none => exact .inl rfl
        | some i =>
          cases hj : defaults.findIdx? (·.1 = subSys') with
          | none => exact .inr (.inl rfl)
          | some j =>
            -- two sub-systems have different positions
            obtain rfl : i = j := by simpa [hi, hj] using haddr
            obtain ⟨_, h1, -⟩ := findIdx?_eq_some_iff_getElem.1 hi
            obtain ⟨_, h2, -⟩ := findIdx?_eq_some_iff_getElem.1 hj
            exact absurd (congrArg Loc.registered
              ((of_decide_eq_true h1).symm.trans (of_decide_eq_true h2))) hne
  · simp only [register]
    split <;> rfl

variable {w : World}

theorem newSource_cases (n : Nat) (l : Loc) :
    newSource reg n l = l ∨ ∃ subSys, newSource reg n l = .registered subSys := by
  cases l with
  | registered subSys => exact .inl rfl
  | target config subSys tgt =>
    simp only [newSource]
    split_ifs
    · exact .inr ⟨subSys, rfl⟩
    · exact .inl rfl

theorem Inv.new (h : Inv w) : Inv (w.new reg) := by
  refine ⟨⟨fun l => h.fits _, fun l l' hne haddr => ?_, fun subSys => h.literal subSys⟩,
    fun config t ht => ?_, fun config hc => ?_⟩
  · by_cases hsame : newSource reg w.configs l = newSource reg w.configs l'
    · have hreg : ∃ subSys, newSource reg w.configs l = .registered subSys := by
        rcases newSource_cases reg w.configs l with hl | hl
        · rcases newSource_cases reg w.configs l' with hl' | ⟨subSys, hl'⟩
          · exact absurd (hl.symm.trans (hsame.trans hl')) hne
          · exact ⟨subSys, hsame.trans hl'⟩
        · exact hl
      obtain ⟨subSys, hl⟩ := hreg
      refine .inr (.inr ⟨congrArg w.slot hsame, ?_⟩)
      simp only [World.new, hl]
      exact h.literal subSys
    · exact h.apart _ _ hsame haddr
  · by_cases hc : config = w.configs
    · subst hc
      obtain ⟨subSys, hsub, rfl⟩ := mem_map.1 (by simpa [World.new] using ht)
      simp [World.pairs, World.new, newSource, hsub]
    · have ht' : t ∈ w.targets config := by simpa [World.new, Function.update_of_ne hc] using ht
      simpa [World.pairs, World.new, newSource, hc] using h.covers config t ht'
  · have hne : config ≠ w.configs := by
      simp only [World.new] at hc
      omega
    simpa [World.new, Function.update_of_ne hne] using h.fresh config (Nat.le_of_succ_le hc)

/-- The slice of one place is replaced by one at a new address, or by nil. -/
theorem Sound.replace {m : Memory KV} {config : Nat} {subSys tgt : Bytes} {s : Slice} (h : Sound w)
    (hm : ∀ l, l ≠ .target config subSys tgt → Fits m (w.slot l)) (hs : Fits m s)
    (hnew : ∀ l, l ≠ .target config subSys tgt → s.addr = (w.slot l).addr →
      s.cap = 0 ∨ (w.slot l).cap = 0 ∨ s = w.slot l ∧ s.len = s.cap) (ts :
      Nat → List (Bytes × Bytes)) :
    Sound ⟨m, Function.update w.slot (.target config subSys tgt) s, ts, w.configs⟩ := by
  refine ⟨fun l => ?_, fun l l' hne haddr => ?_, fun sub => ?_⟩
  · by_cases hl : l = .target config subSys tgt
    · subst hl
      simpa using hs
    · simpa [Function.update_of_ne hl] using hm l hl
  · simp only at haddr ⊢
    by_cases hl : l = .target config subSys tgt
    · subst hl
      rw [Function.update_self, Function.update_of_ne hne.symm] at haddr ⊢
      exact hnew l' hne.symm haddr
    · rw [Function.update_of_ne hl] at haddr ⊢
      by_cases hl' : l' = .target config subSys tgt
      · subst hl'
        rw [Function.update_self] at haddr ⊢
        rcases hnew l hl haddr.symm with hc | hc | ⟨he, hfull⟩
        · exact .inr (.inl hc)
        · exact .inl hc
        · exact .inr (.inr ⟨he.symm, he ▸ hfull⟩)
      · rw [Function.update_of_ne hl'] at haddr ⊢
        exact h.apart l l' hne haddr
  · simpa using h.literal sub

theorem Sound.addr_lt (h : Sound w) {l : Loc} (hc : (w.slot l).cap ≠ 0) :
    (w.slot l).addr < w.arrays.length := (h.fits l).addr_lt hc

theorem cloneTarget_spec (h : Sound w) (config : Nat) (t : Bytes × Bytes) :
    Sound (w.cloneTarget spareNil config t) ∧
      (∀ l, l ≠ .target w.configs t.1 t.2 → (w.cloneTarget spareNil config t).pairs l = w.pairs l) ∧
      (w.cloneTarget spareNil config t).pairs (.target w.configs t.1 t.2) =
        w.pairs (.target config t.1 t.2) := by
  unfold World.cloneTarget
  simp only
  split_ifs with hnil
  · refine ⟨h.replace (fun l _ => h.fits l) (nilSlice_fits _) (fun _ _ _ => .inl rfl) w.targets,
      fun l hl => ?_, ?_⟩
    · simp [World.pairs, Function.update_of_ne hl]
    · rw [hnil]
      simp [World.pairs, view, nilSlice]
  · refine ⟨h.replace (fun l _ => (h.fits l).append _)
      ⟨Nat.le_add_right _ _, by simp [array_append_new]⟩ (fun l _ haddr => ?_) w.targets,
      fun l hl => ?_, ?_⟩
    · by_cases hc : (w.slot l).cap = 0
      · exact .inr (.inl hc)
      · exact absurd haddr (h.addr_lt hc).ne'
    · simp only [World.pairs, Function.update_of_ne hl]
      exact (h.fits l).view_append _
    · simp [World.pairs, view, array_append_new]

theorem foldl_cloneTarget (ts : List (Bytes × Bytes)) {config : Nat} (hc : config ≠ w.configs)
    (h : Sound w) :
    Sound (ts.foldl (World.cloneTarget spareNil config) w) ∧
      (∀ l, (∀ t ∈ ts, l ≠ .target w.configs t.1 t.2) →
        (ts.foldl (World.cloneTarget spareNil config) w).pairs l = w.pairs l) ∧
      (∀ t ∈ ts, (ts.foldl (World.cloneTarget spareNil config) w).pairs
        (.target w.configs t.1 t.2) = w.pairs (.target config t.1 t.2)) ∧
      (ts.foldl (World.cloneTarget spareNil config) w).targets = w.targets := by
  induction ts generalizing w with
  | nil => exact ⟨h, fun _ _ => rfl, (fun _ ht => nomatch ht), rfl⟩
  | cons t ts ih =>
    obtain ⟨hsound, hother, hcopy⟩ := cloneTarget_spec spareNil h config t
    have hconf : (w.cloneTarget spareNil config t).configs = w.configs := by
      unfold World.cloneTarget
      simp only
      split_ifs <;> rfl
    have htargets : (w.cloneTarget spareNil config t).targets = w.targets := by
      unfold World.cloneTarget
      simp only
      split_ifs <;> rfl
    obtain ⟨hs, ho, hcs, ht'⟩ := ih (hconf.symm ▸ hc) hsound
    rw [hconf] at ho hcs
    have hsrc : ∀ u : Bytes × Bytes, Loc.target config u.1 u.2 ≠ .target w.configs t.1 t.2 :=
      fun u he => hc (Loc.target.inj he).1
    refine ⟨hs, fun l hl => ?_, fun u hu => ?_, ht'.trans htargets⟩
    · obtain ⟨hlt, hls⟩ := forall_mem_cons.1 hl
      rw [foldl_cons, ho l hls, hother l hlt]
    · rw [foldl_cons]
      by_cases hin : u ∈ ts
      · rw [hcs u hin, hother _ (hsrc u)]
      · obtain rfl := (mem_cons.1 hu).resolve_right hin
        rw [ho, hcopy]
        intro v hv he
        obtain ⟨-, h1, h2⟩ := Loc.target.inj he
        exact hin (Prod.ext h1 h2 ▸ hv)

theorem Inv.clone (h : Inv w) (config : Nat) : Inv (w.clone spareNil config) := by
  have hsame : ∀ config', w.configs + 1 ≤ config' → config' ≠ w.configs :=
    fun _ hle => (Nat.lt_of_succ_le hle).ne'
  by_cases hc : config = w.configs
  · -- there is no such configuration
    have hnil := h.fresh config hc.ge
    unfold World.clone
    rw [hnil, foldl_nil]
    refine ⟨⟨h.fits, h.apart, h.literal⟩, fun config' t ht => ?_, fun config' hle => ?_⟩
    · by_cases he : config' = w.configs
      · subst he
        simp at ht
      · exact h.covers config' t (by simpa [Function.update_of_ne he] using ht)
    · simpa [Function.update_of_ne (hsame _ hle)] using h.fresh config' (Nat.le_of_succ_le hle)
  · obtain ⟨hs, ho, hcs, htargets⟩ := foldl_cloneTarget spareNil (w.targets config) hc h.toSound
    unfold World.clone
    refine ⟨⟨hs.fits, hs.apart, hs.literal⟩, fun config' t ht => ?_, fun config' hle => ?_⟩
    · simp only [htargets] at ht
      have hreg := ho (.registered t.1) fun _ _ he => nomatch he
      by_cases he : config' = w.configs
      · subst he
        rw [Function.update_self] at ht
        have := h.covers config t ht
        rwa [← hreg, ← hcs t ht] at this
      · rw [Function.update_of_ne he] at ht
        have := h.covers config' t ht
        rwa [← hreg, ← ho (.target config' t.1 t.2) fun _ _ heq => he (Loc.target.inj heq).1]
          at this
    · simp only [htargets]
      rw [Function.update_of_ne (hsame _ hle)]
      exact h.fresh config' (Nat.le_of_succ_le hle)

/-! ## An update -/

section Update

variable {reg spare spareNil} {config : Nat} {s subSys tgt : Bytes} {kvs : KVS} {us : List KV}
    {r : Memory KV × Slice}

abbrev World.lineUpdates (w : World) (subSys : Bytes) (kvs : KVS) : List KV :=
  updates (withEnable (w.pairs (.registered subSys)) kvs)

theorem Inv.setKVS_eq (h : Inv w) (hp : parseLine reg s = .ok (subSys, tgt, kvs)) :
    w.setKVS reg spare config s =
      let p := run setEditor spare (w.arrays, w.current config subSys tgt)
        (w.lineUpdates subSys kvs)
      match checkRequired reg (w.pairs (.registered subSys)) subSys (view p.1 p.2) with
      | some err => (w.wrote p.1, some err)
      | none => (w.store config subSys tgt p, none) := by
  have hfill : (if (subSys, tgt) ∈ w.targets config then
      fill spare (w.arrays, w.current config subSys tgt) (w.slot (.registered subSys))
      else (w.arrays, w.current config subSys tgt)) = (w.arrays, w.current config subSys tgt) := by
    split_ifs with hin
    · refine fill_eq spare ?_
      rw [World.current, if_pos hin]
      exact h.covers config (subSys, tgt) hin
    · rfl
  unfold World.setKVS
  rw [hp]
  simp only [hfill]
  rfl

/-- The place whose slice an update begins with. -/
def World.origin (w : World) (config : Nat) (subSys tgt : Bytes) : Loc :=
  if (subSys, tgt) ∈ w.targets config then .target config subSys tgt else .registered subSys

theorem slot_origin : w.slot (w.origin config subSys tgt) = w.current config subSys tgt := by
  unfold World.origin World.current
  split_ifs <;> rfl

theorem Inv.view_slot (h : Inv w) {l₀ : Loc} (hr : Ran setEditor w.arrays (w.slot l₀) us r)
    (l : Loc) :
    view r.1 (w.slot l) = w.pairs l ∨ w.slot l = w.slot l₀ ∧ (w.slot l).cap ≠ 0 := by
  by_cases hcap : (w.slot l).cap = 0
  · exact .inl (((h.fits l).view_of_cap_eq_zero hcap _).trans
      ((h.fits l).view_of_cap_eq_zero hcap _).symm)
  by_cases haddr : (w.slot l).addr = (w.slot l₀).addr
  · by_cases hl : l = l₀
    · exact .inr ⟨congrArg w.slot hl, hcap⟩
    · rcases h.apart l l₀ hl haddr with hc | hc | ⟨he, -⟩
      · exact absurd hc hcap
      · -- nothing is written in place through a slice without room
        left
        have hnil := (h.fits l₀).view_of_cap_eq_zero hc w.arrays
        have hin : inPlace setEditor (w.slot l₀).cap (view w.arrays (w.slot l₀)) us = [] := by
          have := length_inPlace_le (e := setEditor) (w.slot l₀).cap (view w.arrays (w.slot l₀)) us
          rw [hc, hnil] at this
          rw [hc, hnil]
          exact length_eq_zero_iff.1 (Nat.le_zero.1 this)
        have hold := hr.old (haddr ▸ h.addr_lt hcap)
        rw [hin, nil_append, length_nil, drop_zero] at hold
        rw [World.pairs, view, view, haddr, hold]
      · exact .inr ⟨he, hcap⟩
  · exact .inl (hr.view_other (h.fits l) haddr)

theorem Inv.keys_view (h : Inv w) {l₀ : Loc} (hr : Ran setEditor w.arrays (w.slot l₀) us r)
    (l : Loc) :
    (view r.1 (w.slot l)).map Prod.fst = (w.pairs l).map Prod.fst := by
  rcases h.view_slot hr l with he | ⟨he, -⟩
  · rw [he]
  · rw [he, hr.view_self (h.fits l₀), ← (h.fits l₀).length_view, inPlace_keys, World.pairs, he]

theorem Inv.wrote (h : Inv w) {l₀ : Loc} (hr : Ran setEditor w.arrays (w.slot l₀) us r) :
    Inv (w.wrote r.1) := by
  refine ⟨⟨fun l => hr.fits (h.fits l), h.apart, h.literal⟩, fun config' t ht => ?_, h.fresh⟩
  have := h.covers config' t ht
  rwa [← h.keys_view hr, ← h.keys_view hr] at this

theorem Inv.store (h : Inv w) (hc : config < w.configs)
    (hr : Ran setEditor w.arrays (w.slot (w.origin config subSys tgt)) us r) :
    Inv (w.store config subSys tgt r) := by
  refine ⟨h.replace (fun l _ => hr.fits (h.fits l)) hr.fits_result (fun l hl haddr => ?_) _,
    fun config' t ht => ?_, fun config' hle => ?_⟩
  · -- the new slice is the old one, or at a new address
    by_cases hcap : (w.slot l).cap = 0
    · exact .inr (.inl hcap)
    rcases hr.place with ⟨ha, hcap', -⟩ | ⟨hnew, -⟩
    · have hfull : w.slot l = w.slot (w.origin config subSys tgt) →
          (w.slot l).len = (w.slot l).cap → r.2 = w.slot l ∧ r.2.len = r.2.cap := by
        intro he hlen
        have hsame := hr.eq_of_full (h.fits _) (he ▸ hlen) (he ▸ hcap) ha
        exact ⟨hsame.trans he.symm, by rw [hsame, ← he, hlen]⟩
      by_cases hl₀ : l = w.origin config subSys tgt
      · have hreg : l = .registered subSys := by
          rw [hl₀, World.origin]
          refine if_neg fun hin => hl ?_
          rw [hl₀, World.origin, if_pos hin]
        exact .inr (.inr (hfull (congrArg w.slot hl₀) (hreg ▸ h.literal subSys)))
      · rcases h.apart l _ hl₀ (haddr.symm.trans ha) with hz | hz | ⟨he, hlen⟩
        · exact absurd hz hcap
        · exact .inl (hcap'.trans hz)
        · exact .inr (.inr (hfull he hlen))
    · exact absurd haddr ((h.addr_lt hcap).trans_le hnew).ne'
  · -- keys are never lost
    have hother : ∀ l, l ≠ .target config subSys tgt →
        ((w.store config subSys tgt r).pairs l).map Prod.fst = (w.pairs l).map Prod.fst := by
      intro l hl
      rw [← h.keys_view hr l, World.pairs, World.store]
      simp only [Function.update_of_ne hl]
    rw [hother (.registered t.1) (by simp)]
    by_cases hl : Loc.target config' t.1 t.2 = .target config subSys tgt
    · obtain ⟨rfl, rfl, rfl⟩ := Loc.target.inj hl
      have hkeys : ((w.store config' t.1 t.2 r).pairs (.target config' t.1 t.2)).map Prod.fst =
          (runList setEditor (view w.arrays (w.slot (w.origin config' t.1 t.2))) us).map
              Prod.fst := by
        rw [World.pairs, World.store]
        simp only [Function.update_self]
        rw [hr.shows]
      rw [hkeys]
      refine Subset.trans ?_ (runList_keys _ us).subset
      unfold World.origin
      split_ifs with hin
      · exact h.covers config' t hin
      · exact Subset.refl _
    · rw [hother _ hl]
      refine h.covers config' t ?_
      by_cases hcc : config' = config
      · subst hcc
        have hmem : t = (subSys, tgt) ∨ t ∈ w.targets config' := by simpa [World.store] using ht
        exact hmem.resolve_left fun he => hl (by rw [he])
      · simpa [World.store, Function.update_of_ne hcc] using ht
  · have hne : config' ≠ config := (hc.trans_le hle).ne'
    simpa [World.store, Function.update_of_ne hne] using h.fresh config' hle

theorem Inv.setKVS (h : Inv w) (hc : config < w.configs) (s : Bytes) :
    Inv (w.setKVS reg spare config s).1 := by
  cases hp : parseLine reg s with
  | error err =>
    unfold World.setKVS
    rw [hp]
    exact h
  | ok line =>
    obtain ⟨subSys, tgt, kvs⟩ := line
    have hr := run_ran (e := setEditor) spare (w.lineUpdates subSys kvs)
      (h.fits (w.origin config subSys tgt))
    rw [h.setKVS_eq hp, ← slot_origin]
    simp only
    split
    · exact h.wrote hr
    · exact h.store hc hr

theorem Inv.step (h : Inv w) (op : Op) : Inv (step reg spare spareNil w op) := by
  cases op with
  | new => exact h.new reg
  | clone config => exact h.clone spareNil config
  | setKVS config s =>
    simp only [Config.step]
    split_ifs with hc
    · exact h.setKVS hc s
    · exact h

theorem Inv.pairs_setKVS (h : Inv w) (hp : parseLine reg s = .ok (subSys, tgt, kvs)) {l : Loc}
    (hl : (w.setKVS reg spare config s).2.isSome ∨ l ≠ .target config subSys tgt) :
    (w.setKVS reg spare config s).1.pairs l =
      view (run setEditor spare (w.arrays, w.current config subSys tgt)
        (w.lineUpdates subSys kvs)).1 (w.slot l) := by
  rw [h.setKVS_eq hp] at hl ⊢
  simp only at hl ⊢
  split at hl
  · rfl
  · have hne := hl.resolve_left (by simp)
    simp only [World.pairs, World.store, Function.update_of_ne hne]

theorem named_ne_iff (hp : parseLine reg s = .ok (subSys, tgt, kvs)) {l : Loc} :
    named reg config s ≠ some l ↔ l ≠ .target config subSys tgt := by
  unfold named
  rw [hp]
  simp [eq_comm]

theorem Inv.rejected_iff (h : Inv w) (hp : parseLine reg s = .ok (subSys, tgt, kvs)) :
    (w.setKVS reg spare config s).2.isSome = true ↔
      (checkRequired reg (w.pairs (.registered subSys)) subSys (runList setEditor
        (view w.arrays (w.current config subSys tgt)) (w.lineUpdates subSys kvs))).isSome =
          true := by
  have hr := run_ran (e := setEditor) spare (w.lineUpdates subSys kvs)
    (h.fits (w.origin config subSys tgt))
  rw [slot_origin] at hr
  rw [h.setKVS_eq hp]
  dsimp only
  rw [hr.shows]
  cases checkRequired reg (w.pairs (.registered subSys)) subSys (runList setEditor
    (view w.arrays (w.current config subSys tgt)) (w.lineUpdates subSys kvs)) <;> rfl

theorem Inv.local_iff (h : Inv w) (op : Op) : Local reg spare w op ↔ Harmless reg w op := by
  match op with
  | .new => exact Iff.rfl
  | .clone _ => exact Iff.rfl
  | .setKVS config s =>
    cases hp : parseLine reg s with
    | error err => simp [Local, Harmless, World.setKVS, hp]
    | ok line =>
      obtain ⟨subSys, tgt, kvs⟩ := line
      have hrejected : (w.setKVS reg spare config s).2.isSome = true ↔ _ := h.rejected_iff hp
      simp only [Local, Harmless, hp, ← hrejected]
      have hr := run_ran (e := setEditor) spare (w.lineUpdates subSys kvs)
        (h.fits (w.origin config subSys tgt))
      rw [slot_origin] at hr
      have hfits : Fits w.arrays (w.current config subSys tgt) :=
        slot_origin ▸ h.fits (w.origin config subSys tgt)
      have hself := hr.view_self hfits
      constructor
      · intro hlocal hc hshared
        -- a place with the slice of the update keeps its pairs, so the slice shows the same before
        -- and after
        have hkey : ∀ l, (w.setKVS reg spare config s).2.isSome ∨ l ≠ .target config subSys tgt →
            w.slot l = w.current config subSys tgt →
            (inPlace setEditor (w.current config subSys tgt).cap
              (view w.arrays (w.current config subSys tgt))
              (w.lineUpdates subSys kvs)).take (w.current config subSys tgt).len =
                  view w.arrays (w.current config subSys tgt) := by
          intro l hl he
          have hsame := hlocal hc l (hl.imp_right (named_ne_iff hp).2)
          rwa [h.pairs_setKVS hp hl, he, hself, World.pairs, he] at hsame
        rcases hshared with ⟨l, hl, hcap, haddr⟩ | herr
        · by_cases hz : (w.current config subSys tgt).cap = 0
          · have hl0 : (w.current config subSys tgt).len = 0 :=
              Nat.le_zero.1 (hfits.len_le.trans hz.le)
            rw [hfits.view_of_cap_eq_zero hz, hl0, take_zero]
          · refine hkey l (.inr hl) ?_
            by_cases hl₀ : l = w.origin config subSys tgt
            · rw [hl₀, slot_origin]
            · rcases h.apart l _ hl₀ (by rw [slot_origin, haddr]) with hzero | hzero | ⟨he, -⟩
              · exact absurd hzero hcap
              · exact absurd (slot_origin ▸ hzero) hz
              · exact he.trans slot_origin
        · exact hkey _ (.inl herr) slot_origin
      · intro hharm hc l hl
        replace hl : (w.setKVS reg spare config s).2.isSome ∨ l ≠ .target config subSys tgt :=
          hl.imp_right (named_ne_iff hp).1
        rw [h.pairs_setKVS hp hl]
        rw [← slot_origin] at hr
        rcases h.view_slot hr l with he | ⟨he, hcap⟩
        · rw [slot_origin] at he
          exact he
        · rw [slot_origin] at he
          rw [World.pairs, he, hself]
          refine hharm hc ?_
          rcases hl with herr | hne
          · exact .inr herr
          · exact .inl ⟨l, hne, hcap, by rw [he]⟩

end Update

theorem setKVS_local_iff (reg : Registry) (spare spareNil : Nat → List KV)
    (defaults : List (Bytes × KVS)) (ops : List Op) :
    Along (step reg spare spareNil) (fun w op _ => Local reg spare w op) (register defaults) ops ↔
      Along (step reg spare spareNil) (fun w op _ => Harmless reg w op)
        (register defaults) ops := by
  refine along_iff (fun w op (h : Inv w) => ?_) (fun w op h _ => ?_) (inv_register defaults) ops
  · exact h.local_iff op
  · exact h.step op

/-! ## A leak -/

def regionRegistry : Registry := ⟨[ByteString.lit "region"], [ByteString.lit "region"], fun _ => []⟩

/-- Setting the region in one new configuration changes the registered default. -/
theorem setKVS_leaks :
    ¬ Along (step regionRegistry (fun _ => []) fun _ => [])
      (fun w op _ => Local regionRegistry (fun _ => []) w op)
      (register [(ByteString.lit "region", [(ByteString.lit "name", [])])])
      [.new, .setKVS 0 (ByteString.lit "region name=us-east-1")] := by
  rintro ⟨-, h, -⟩
  have hpairs := h (by decide) (.registered (ByteString.lit "region")) (.inr (by decide +kernel))
  exact absurd hpairs (by decide +kernel)

end S3Kinetic.Config
