import S3Kinetic.FormatQuorum

/-!
# Healing of formats (`HealFormat`)

Healing takes the layout in quorum, replaces the identifiers of the disks it has not read by a
placeholder, gives the unformatted disks of every set the places of the placeholders, first disk
first, and writes the layout to every disk it has read or found unformatted. A disk of another
deployment is written as well, with the identifier it had. The disks come set by set here: disk `j`
of set `i` is the disk `i * drivesPerSet + j` of the code.
-/

namespace S3Kinetic.Format

open ByteString List

def offlineDiskUUID : Bytes := lit "ffffffff-ffff-ffff-ffff-ffffffffffff"

inductive Load
  | format (f : FormatXLV3)
  | unformatted
  | notFound
  | failed
  deriving DecidableEq

def Load.toFormat : Load → Option FormatXLV3
  | .format f => some f
  | _ => none

inductive HealErr
  | badFormat
  | diskError
  | noHealRequired
  | readQuorum
  | writeQuorum
  deriving DecidableEq

/-- `checkFormatXLValue` and the shape that `checkFormatXLValues` asks for. -/
def checkFormatXLValue (disks drivesPerSet : Nat) (f : FormatXLV3) : Bool :=
  f.version = lit "1" && f.format = lit "xl" && f.xlVersion = lit "3" &&
    disks = f.sets.length * (f.sets.headD []).length &&
    (f.sets.headD []).length = drivesPerSet

/-! ## The layout -/

def getOnlineUUIDs (sets : List (List Bytes)) (formats : List (Option FormatXLV3)) : List Bytes :=
  formats.reduceOption.flatMap fun format => sets.flatten.filter fun uuid => format.this = uuid

def getOfflineUUIDs (sets : List (List Bytes)) (formats : List (Option FormatXLV3)) : List Bytes :=
  sets.flatten.filter fun uuid => uuid ∉ getOnlineUUIDs sets formats

def markUUIDsOffline (sets : List (List Bytes)) (formats : List (Option FormatXLV3)) :
    List (List Bytes) :=
  sets.map fun set => set.map fun uuid => if uuid ∈ getOfflineUUIDs sets formats
    then offlineDiskUUID else uuid

/-- The format prepared for a disk, without a layout. -/
def newHealFormat (ref : FormatXLV3) : Load → Option FormatXLV3
  | .format f => some { ref with this := f.this, sets := [] }
  | .unformatted => some { ref with this := [], sets := [] }
  | _ => none

/-- The formats of a set. The loop is over the places of the layout, so disks behind them get none;
a layout with more places than disks is an index out of range in the code. -/
def newHealFormatSet (ref : FormatXLV3) (places : List Bytes) (set : List Load) :
    List (Option FormatXLV3) :=
  (set.take places.length).map (newHealFormat ref) ++ replicate (set.length - places.length) none

def newHealFormatSets (ref : FormatXLV3) (disks : List (List Load)) :
    List (List (Option FormatXLV3)) :=
  zipWith (newHealFormatSet ref) ref.sets disks

/-! ## New identifiers -/

/-- The first format without an identifier gets one. -/
def assign (uuid : Bytes) : List (Option FormatXLV3) → Option (List (Option FormatXLV3))
  | [] => none
  | none :: formats => (assign uuid formats).map (none :: ·)
  | some f :: formats =>
    if f.this = [] then some (some { f with this := uuid } :: formats)
      else (assign uuid formats).map (some f :: ·)

/-- The loop over the places of a set; `mustGetUUID` gives the identifiers from number `n` on. -/
def fillSet (mustGetUUID : Nat → Bytes) (n : Nat) :
    List Bytes → List (Option FormatXLV3) → List Bytes × List (Option FormatXLV3) × Nat
  | [], formats => ([], formats, n)
  | place :: places, formats =>
    match if place = offlineDiskUUID then assign (mustGetUUID n) formats else none with
    | some formats =>
      let r := fillSet mustGetUUID (n + 1) places formats
      (mustGetUUID n :: r.1, r.2)
    | none =>
      let r := fillSet mustGetUUID n places formats
      (place :: r.1, r.2)

def fillSets (mustGetUUID : Nat → Bytes) (n : Nat) :
    List (List Bytes) → List (List (Option FormatXLV3)) → List (List Bytes) ×
      List (List (Option FormatXLV3))
  | places :: sets, formats :: newFormatSets =>
    let r := fillSet mustGetUUID n places formats
    let rs := fillSets mustGetUUID r.2.2 sets newFormatSets
    (r.1 :: rs.1, r.2.1 :: rs.2)
  | sets, _ => (sets, [])

structure Healed where
  sets : List (List Bytes)
  written : List (List (Option FormatXLV3))
  deriving DecidableEq

/-- `HealFormat` without dry run. A disk that is there takes its format. -/
def healFormat (D : Digest) (drivesPerSet : Nat) (mustGetUUID : Nat → Bytes)
    (disks : List (List Load))
    (it : Counts.Iteration (formatCountMap D (disks.flatten.map Load.toFormat))) :
    Except HealErr Healed :=
  let loads := disks.flatten
  let formats := loads.map Load.toFormat
  if !formats.reduceOption.all (checkFormatXLValue loads.length drivesPerSet) then .error .badFormat
  else if Load.failed ∈ loads then .error .diskError
  else if Load.unformatted ∉ loads then .error .noHealRequired
  else
    match getFormatXLInQuorum D formats it with
    | .error _ => .error .readQuorum
    | .ok refFormat =>
      let r := fillSets mustGetUUID 0 (markUUIDsOffline refFormat.sets formats)
        (newHealFormatSets refFormat disks)
      let written := r.2.map fun set => set.map fun f => f.map fun f => { f with sets := r.1 }
      if written.flatten.reduceOption.length < loads.length / 2 + 1 then .error .writeQuorum
      else .ok ⟨r.1, written⟩

/-! ## The law -/

def Read (disks : List (List Load)) (f : FormatXLV3) : Prop := ∃ set ∈ disks, Load.format f ∈ set

def NoneTwice (sets : List (List Bytes)) : Prop := (sets.flatten.filter (· ≠ offlineDiskUUID)).Nodup

/-- A format of some deployment: a disk with an identifier, in a layout in which no identifier
stands twice. -/
structure WellFormed (f : FormatXLV3) : Prop where
  this_ne_nil : f.this ≠ []
  this_ne_offline : f.this ≠ offlineDiskUUID
  member : f.this ∈ f.sets.flatten
  uuid_ne_nil : [] ∉ f.sets.flatten
  noneTwice : NoneTwice f.sets

/-- `mustGetUUID` gives identifiers that no disk and no layout has, and never one twice. -/
structure FreshUUIDs (mustGetUUID : Nat → Bytes) (disks : List (List Load)) : Prop where
  injective : Function.Injective mustGetUUID
  ne_nil : ∀ n, mustGetUUID n ≠ []
  ne_offline : ∀ n, mustGetUUID n ≠ offlineDiskUUID
  ne_this : ∀ n f, Read disks f → mustGetUUID n ≠ f.this
  not_mem : ∀ n f, Read disks f → mustGetUUID n ∉ f.sets.flatten

/-- Healing keeps the layout `reference`: every disk written is in the layout written, in which no
identifier stands twice, and the disks read keep their places. -/
structure KeepsLayout (disks : List (List Load)) (reference : List (List Bytes)) (healed : Healed) :
    Prop where
  member : ∀ set ∈ healed.written, ∀ f, some f ∈ set → f.this ∈ f.sets.flatten
  noneTwice : NoneTwice healed.sets
  places : Forall₂ (Forall₂ fun uuid uuid' => (∃ f, Read disks f ∧ f.this = uuid) →
    uuid' = uuid) reference healed.sets

/-- The places of a set that are free: placeholders, and disks that have not been read. -/
def freePlaces (reference : List (List Bytes)) (formats : List (Option FormatXLV3))
    (set : List Bytes) : Nat :=
  set.countP fun uuid => uuid ∈ getOfflineUUIDs reference formats ∨ uuid = offlineDiskUUID

/-- A new identifier from number `n` on stands where the placeholder was, everything else where it
was. -/
def Slot (mustGetUUID : Nat → Bytes) (n : Nat) (uuid uuid' : Bytes) : Prop :=
  uuid' = uuid ∨ uuid = offlineDiskUUID ∧ ∃ m, n ≤ m ∧ uuid' = mustGetUUID m

def pending (formats : List (Option FormatXLV3)) : Nat :=
  formats.countP fun f => f.any fun f => f.this = []

theorem pending_eq_zero {formats : List (Option FormatXLV3)} :
    pending formats = 0 ↔ ∀ f, some f ∈ formats → f.this ≠ [] := by
  rw [pending, countP_eq_zero]
  constructor
  · intro h f hf
    simpa using h _ hf
  · rintro h (_ | f) hf
    · simp
    · simpa using h f hf

/-! ## One identifier -/

variable {mustGetUUID : Nat → Bytes} {uuid : Bytes} {formats formats' : List (Option FormatXLV3)}

theorem assign_none (h : assign uuid formats = none) : pending formats = 0 := by
  induction formats with
  | nil => rfl
  | cons f formats ih =>
    cases f with
    | none => simpa [pending] using ih (by simpa [assign] using h)
    | some f =>
      by_cases hf : f.this = []
      · simp [assign, hf] at h
      · simpa [pending, hf] using ih (by simpa [assign, hf] using h)

/-- What `assign` does to the formats of a set. -/
structure Assigned (uuid : Bytes) (formats formats' : List (Option FormatXLV3)) : Prop where
  pending : pending formats = pending formats' + 1
  new : ∀ f, some f ∈ formats' → some f ∈ formats ∨ f.this = uuid
  old : ∀ f, some f ∈ formats → f.this ≠ [] → some f ∈ formats'

theorem Assigned.cons {f : Option FormatXLV3} (h : Assigned uuid formats formats') :
    Assigned uuid (f :: formats) (f :: formats') where
  pending := by
    have := h.pending
    simp only [Format.pending, countP_cons] at this ⊢
    omega
  new g hg := by
    rcases mem_cons.1 hg with hg | hg
    · exact .inl (hg ▸ mem_cons_self)
    · exact (h.new g hg).imp_left (mem_cons_of_mem f)
  old g hg hne := by
    rcases mem_cons.1 hg with hg | hg
    · exact hg ▸ mem_cons_self
    · exact mem_cons_of_mem f (h.old g hg hne)

theorem assigned_of_assign (hu : uuid ≠ []) (h : assign uuid formats = some formats') :
    Assigned uuid formats formats' := by
  induction formats generalizing formats' with
  | nil => simp [assign] at h
  | cons f formats ih =>
    cases f with
    | none =>
      obtain ⟨fs, hfs, rfl⟩ := Option.map_eq_some_iff.1 h
      exact (ih hfs).cons
    | some f =>
      rw [assign] at h
      split_ifs at h with hf
      · cases h
        refine ⟨by simp [pending, hf, hu], fun g hg => ?_, fun g hg hne => ?_⟩
        · rcases mem_cons.1 hg with hg | hg
          · cases hg
            exact .inr rfl
          · exact .inl (mem_cons_of_mem _ hg)
        · rcases mem_cons.1 hg with hg | hg
          · cases hg
            exact absurd hf hne
          · exact mem_cons_of_mem _ hg
      · obtain ⟨fs, hfs, rfl⟩ := Option.map_eq_some_iff.1 h
        exact (ih hfs).cons

/-! ## The places of a set -/

variable {n n' : Nat} {places places' : List Bytes}

/-- What `fillSet` does to a set. -/
structure Filled (mustGetUUID : Nat → Bytes) (n : Nat) (places : List Bytes)
    (formats : List (Option FormatXLV3))
    (places' : List Bytes) (formats' : List (Option FormatXLV3)) (n' : Nat) : Prop where
  le : n ≤ n'
  slots : Forall₂ (Slot mustGetUUID n) places places'
  below : ∀ x ∈ places', x ∈ places ∨ ∃ m, n ≤ m ∧ m < n' ∧ x = mustGetUUID m
  noneTwice : (places.filter (· ≠ offlineDiskUUID)).Nodup →
    (places'.filter (· ≠ offlineDiskUUID)).Nodup
  new : ∀ f, some f ∈ formats' → some f ∈ formats ∨ f.this ∈ places'
  old : ∀ f, some f ∈ formats → f.this ≠ [] → some f ∈ formats'
  pending : pending formats' = pending formats - places.count offlineDiskUUID

theorem Slot.mono {a b : Bytes} (h : Slot mustGetUUID n' a b) (hn : n ≤ n') :
    Slot mustGetUUID n a b :=
  h.imp_right fun ⟨ha, m, hm, hb⟩ => ⟨ha, m, hn.trans hm, hb⟩

theorem Filled.keep {place : Bytes} (h : Filled mustGetUUID n places formats places' formats' n')
    (hfresh : ∀ m, mustGetUUID m ≠ place)
    (hp : place = offlineDiskUUID → Format.pending formats = 0) :
    Filled mustGetUUID n (place :: places) formats (place :: places') formats' n' where
  le := h.le
  slots := .cons (.inl rfl) h.slots
  below x hx := by
    rcases mem_cons.1 hx with rfl | hx
    · exact .inl mem_cons_self
    · exact (h.below x hx).imp_left (mem_cons_of_mem place)
  noneTwice hd := by
    by_cases hoff : place = offlineDiskUUID
    · rw [filter_cons_of_neg (by simpa using hoff)] at hd ⊢
      exact h.noneTwice hd
    · rw [filter_cons_of_pos (by simpa using hoff), nodup_cons] at hd ⊢
      refine ⟨fun hmem => ?_, h.noneTwice hd.2⟩
      rcases h.below place (mem_filter.1 hmem).1 with hin | ⟨m, -, -, hm⟩
      · exact hd.1 (mem_filter.2 ⟨hin, by simpa using hoff⟩)
      · exact hfresh m hm.symm
  new f hf := (h.new f hf).imp_right (mem_cons_of_mem place)
  old := h.old
  pending := by
    have hpend := h.pending
    rw [count_cons]
    by_cases hoff : place = offlineDiskUUID
    · rw [hpend, hp hoff]
      omega
    · simpa [hoff] using hpend

/-- A placeholder that gets the identifier number `n`. -/
theorem Filled.fill {fs : List (Option FormatXLV3)} (hinj : Function.Injective mustGetUUID)
    (hoff : ∀ m, mustGetUUID m ≠ offlineDiskUUID) (hfresh : ∀ m, mustGetUUID m ∉ places)
    (ha : Assigned (mustGetUUID n) formats fs)
    (h : Filled mustGetUUID (n + 1) places fs places' formats' n') :
    Filled mustGetUUID n (offlineDiskUUID :: places) formats (mustGetUUID n :: places')
      formats' n' where
  le := (Nat.le_succ n).trans h.le
  slots := .cons (.inr ⟨rfl, n, le_rfl, rfl⟩) (h.slots.imp fun _ _ hs => hs.mono (Nat.le_succ n))
  below x hx := by
    rcases mem_cons.1 hx with rfl | hx
    · exact .inr ⟨n, le_rfl, h.le, rfl⟩
    · rcases h.below x hx with hin | ⟨m, hm, hlt, rfl⟩
      · exact .inl (mem_cons_of_mem _ hin)
      · exact .inr ⟨m, by omega, hlt, rfl⟩
  noneTwice hd := by
    rw [filter_cons_of_neg (by simp)] at hd
    rw [filter_cons_of_pos (by simpa using hoff n), nodup_cons]
    refine ⟨fun hmem => ?_, h.noneTwice hd⟩
    rcases h.below _ (mem_filter.1 hmem).1 with hin | ⟨m, hm, -, he⟩
    · exact hfresh n hin
    · have := hinj he
      omega
  new f hf := by
    rcases h.new f hf with hin | hin
    · refine (ha.new f hin).imp_right fun he => ?_
      rw [he]
      exact mem_cons_self
    · exact .inr (mem_cons_of_mem _ hin)
  old f hf hne := h.old f (ha.old f hf hne) hne
  pending := by
    rw [h.pending, ha.pending, count_cons_self]
    omega

theorem filled_fillSet (hinj : Function.Injective mustGetUUID) (hnil : ∀ m, mustGetUUID m ≠ [])
    (hoff : ∀ m, mustGetUUID m ≠ offlineDiskUUID) (hfresh : ∀ m, mustGetUUID m ∉ places) :
    Filled mustGetUUID n places formats (fillSet mustGetUUID n places formats).1
      (fillSet mustGetUUID n places formats).2.1 (fillSet mustGetUUID n places formats).2.2 := by
  induction places generalizing n formats with
  | nil => exact ⟨le_rfl, .nil, by simp [fillSet], by simp [fillSet], fun f hf => .inl hf,
    fun f hf _ => hf, by simp [fillSet]⟩
  | cons place places ih =>
    have hplace : ∀ m, mustGetUUID m ≠ place := fun m h => hfresh m (h ▸ mem_cons_self)
    have hrest : ∀ m, mustGetUUID m ∉ places := fun m h => hfresh m (mem_cons_of_mem _ h)
    rw [fillSet]
    by_cases hp : place = offlineDiskUUID
    · rw [if_pos hp]
      cases ha : assign (mustGetUUID n) formats with
      | none => exact (ih hrest).keep hplace fun _ => assign_none ha
      | some fs =>
        subst hp
        exact .fill hinj hoff hrest (assigned_of_assign (hnil n) ha) (ih hrest)
    · rw [if_neg hp]
      exact (ih hrest).keep hplace fun h => absurd h hp

theorem Filled.member_iff {all : List Bytes}
    (h : Filled mustGetUUID n places formats places' formats' n')
    (hsub : places' ⊆ all) (hnil : [] ∉ all) :
    (∀ f, some f ∈ formats' → f.this ∈ all) ↔
      (∀ f, some f ∈ formats → f.this ≠ [] → f.this ∈ all) ∧ Format.pending formats ≤
        places.count offlineDiskUUID := by
  have hzero : Format.pending formats ≤ places.count offlineDiskUUID ↔
      Format.pending formats' = 0 := by
    rw [h.pending]
    omega
  rw [hzero, pending_eq_zero]
  constructor
  · exact fun hall => ⟨fun f hf hne => hall f (h.old f hf hne),
      fun f hf he => hnil (he ▸ hall f hf)⟩
  · rintro ⟨hread, hpend⟩ f hf
    rcases h.new f hf with hin | hin
    · exact hread f hin (hpend f hf)
    · exact hsub hin

/-! ## All sets -/

variable {sets : List (List Bytes)} {newFormatSets : List (List (Option FormatXLV3))}

/-- What `fillSets` does to the layout. -/
structure FilledSets (mustGetUUID : Nat → Bytes) (n : Nat) (sets : List (List Bytes))
    (newFormatSets : List (List (Option FormatXLV3)))
    (r : List (List Bytes) × List (List (Option FormatXLV3))) : Prop where
  slots : Forall₂ (Forall₂ (Slot mustGetUUID n)) sets r.1
  noneTwice : NoneTwice sets → NoneTwice r.1
  member_iff : ∀ all : List Bytes, r.1.flatten ⊆ all → [] ∉ all →
    ((∀ formats ∈ r.2, ∀ f, some f ∈ formats → f.this ∈ all) ↔
      ∀ p ∈ sets.zip newFormatSets, (∀ f, some f ∈ p.2 → f.this ≠ [] → f.this ∈ all) ∧
        pending p.2 ≤ p.1.count offlineDiskUUID)

theorem slots_refl (n : Nat) (sets : List (List Bytes)) :
    Forall₂ (Forall₂ (Slot mustGetUUID n)) sets sets :=
  forall₂_same.2 fun _ _ => forall₂_same.2 fun _ _ => .inl rfl

theorem exists_of_mem {α : Type} {R : α → α → Prop} {l l' : List α} {x : α} (h : Forall₂ R l l')
    (hx : x ∈ l) :
    ∃ y ∈ l', R x y := by
  induction h with
  | nil => simp at hx
  | cons hab _ ih =>
    rcases mem_cons.1 hx with rfl | hx
    · exact ⟨_, mem_cons_self, hab⟩
    · obtain ⟨y, hy, hxy⟩ := ih hx
      exact ⟨y, mem_cons_of_mem _ hy, hxy⟩

theorem exists_of_mem_flatten {R : Bytes → Bytes → Prop} {sets' : List (List Bytes)}
    (h : Forall₂ (Forall₂ R) sets sets')
    (hx : uuid ∈ sets.flatten) : ∃ y ∈ sets'.flatten, R uuid y := by
  obtain ⟨row, hrow, hx⟩ := mem_flatten.1 hx
  obtain ⟨row', hrow', hR⟩ := exists_of_mem h hrow
  obtain ⟨y, hy, hxy⟩ := exists_of_mem hR hx
  exact ⟨y, mem_flatten.2 ⟨row', hrow', hy⟩, hxy⟩

theorem mem_of_slots {sets' : List (List Bytes)}
    (h : Forall₂ (Forall₂ (Slot mustGetUUID n)) sets sets')
    (hx : uuid ∈ sets'.flatten) : uuid ∈ sets.flatten ∨ ∃ m, n ≤ m ∧ uuid = mustGetUUID m := by
  obtain ⟨y, hy, hslot⟩ := exists_of_mem_flatten (h.flip.imp fun _ _ h => h.flip) hx
  rcases hslot with rfl | ⟨-, hm⟩
  · exact .inl hy
  · exact .inr hm

theorem filledSets_fillSets (hinj : Function.Injective mustGetUUID) (hnil : ∀ m, mustGetUUID m ≠ [])
    (hoff : ∀ m, mustGetUUID m ≠ offlineDiskUUID) (hfresh : ∀ m, mustGetUUID m ∉ sets.flatten) :
    FilledSets mustGetUUID n sets newFormatSets (fillSets mustGetUUID n sets newFormatSets) := by
  induction sets generalizing n newFormatSets with
  | nil => exact ⟨.nil, id, fun _ _ _ => by simp [fillSets]⟩
  | cons places sets ih =>
    cases newFormatSets with
    | nil => exact ⟨slots_refl n _, id, fun _ _ _ => by simp [fillSets]⟩
    | cons formats newFormatSets =>
      have hhere : ∀ m, mustGetUUID m ∉ places := fun m h => hfresh m (by simp [h])
      have hrest : ∀ m, mustGetUUID m ∉ sets.flatten := fun m h => hfresh m (mem_append_right _ h)
      have hrow : Filled mustGetUUID n places formats _ _ _ := filled_fillSet hinj hnil hoff hhere
      have hrows : FilledSets mustGetUUID (fillSet mustGetUUID n places formats).2.2 sets
        newFormatSets _ := ih hrest
      rw [fillSets]
      refine ⟨.cons hrow.slots (hrows.slots.imp fun _ _ hs => hs.imp fun _ _ h => h.mono hrow.le),
        fun hd => ?_, fun all hsub hall => ?_⟩
      · rw [NoneTwice, flatten_cons, filter_append, nodup_append'] at hd ⊢
        refine ⟨hrow.noneTwice hd.1, hrows.noneTwice hd.2.1, fun x hx hx' => ?_⟩
        obtain ⟨hx, hne⟩ := mem_filter.1 hx
        -- an old identifier stands in one set, a new one is given once
        rcases hrow.below x hx with hold | ⟨m, -, hm, rfl⟩ <;>
          rcases mem_of_slots hrows.slots (mem_filter.1 hx').1 with hold' | ⟨m', hm', he⟩
        · exact hd.2.2 (mem_filter.2 ⟨hold, hne⟩) (mem_filter.2 ⟨hold', hne⟩)
        · exact hhere m' (he ▸ hold)
        · exact hrest m hold'
        · have := hinj he
          omega
      · rw [flatten_cons, append_subset] at hsub
        rw [forall_mem_cons, zip_cons_cons, forall_mem_cons, hrow.member_iff hsub.1 hall,
          hrows.member_iff all hsub.2 hall]

/-! ## Marking -/

variable {disks : List (List Load)} {reference : List (List Bytes)}

theorem read_iff {f : FormatXLV3} :
    Read disks f ↔ f ∈ (disks.flatten.map Load.toFormat).reduceOption := by
  rw [reduceOption_mem_iff, mem_map]
  constructor
  · rintro ⟨set, hset, hf⟩
    exact ⟨.format f, mem_flatten.2 ⟨set, hset, hf⟩, rfl⟩
  · rintro ⟨load, hload, hf⟩
    obtain ⟨set, hset, hload⟩ := mem_flatten.1 hload
    cases load with
    | format g =>
      cases hf
      exact ⟨set, hset, hload⟩
    | _ => cases hf

theorem mem_getOfflineUUIDs :
    uuid ∈ getOfflineUUIDs reference (disks.flatten.map Load.toFormat) ↔
      uuid ∈ reference.flatten ∧ ∀ f, Read disks f → f.this ≠ uuid := by
  have honline : uuid ∈ getOnlineUUIDs reference (disks.flatten.map Load.toFormat) ↔
      ∃ f, Read disks f ∧ uuid ∈ reference.flatten ∧ f.this = uuid := by
    simp only [getOnlineUUIDs, mem_flatMap, mem_filter, decide_eq_true_eq, read_iff]
  rw [getOfflineUUIDs, mem_filter, decide_eq_true_iff, honline]
  constructor
  · exact fun ⟨hmem, h⟩ => ⟨hmem, fun f hf he => h ⟨f, hf, hmem, he⟩⟩
  · exact fun ⟨hmem, h⟩ => ⟨hmem, fun ⟨f, hf, _, he⟩ => h f hf he⟩

theorem count_mark (formats : List (Option FormatXLV3)) (set : List Bytes) :
    (set.map fun uuid => if uuid ∈ getOfflineUUIDs reference formats then offlineDiskUUID
      else uuid).count offlineDiskUUID =
      freePlaces reference formats set := by
  rw [count, countP_map, freePlaces]
  refine countP_congr fun uuid _ => ?_
  by_cases h : uuid ∈ getOfflineUUIDs reference formats <;> simp [h]

theorem filter_map_mark (formats : List (Option FormatXLV3)) (places : List Bytes) :
    ((places.map fun uuid => if uuid ∈ getOfflineUUIDs reference formats then offlineDiskUUID
      else uuid).filter
      (· ≠ offlineDiskUUID)).Sublist (places.filter (· ≠ offlineDiskUUID)) := by
  induction places with
  | nil => exact .slnil
  | cons uuid places ih =>
    rw [map_cons]
    by_cases h : uuid ∈ getOfflineUUIDs reference formats
    · rw [if_pos h, filter_cons_of_neg (by simp)]
      exact ih.trans ((sublist_cons_self uuid places).filter _)
    · rw [if_neg h, filter_cons, filter_cons]
      split_ifs
      · exact ih.cons_cons uuid
      · exact ih

theorem pending_newHealFormat (ref : FormatXLV3) {set : List Load}
    (h : ∀ f, Load.format f ∈ set → f.this ≠ []) :
    pending (set.map (newHealFormat ref)) = set.count .unformatted := by
  rw [pending, countP_map, count]
  refine countP_congr fun load hload => ?_
  cases load with
  | format f => simpa [newHealFormat] using h f hload
  | _ => simp [newHealFormat]

/-! ## Healing -/

theorem sets_of_quorum {D : Digest} {it : Counts.Iteration (formatCountMap D formats)}
    {ref : FormatXLV3} (h : getFormatXLInQuorum D formats it = .ok ref) :
    ref.sets = [] ∨ ∃ f, some f ∈ formats ∧ ref.sets = f.sets := by
  unfold getFormatXLInQuorum at h
  simp only at h
  split_ifs at h
  split at h
  · next format hfind =>
    cases h
    cases format with
    | none => exact .inl rfl
    | some f => exact .inr ⟨f, mem_of_find?_eq_some hfind, rfl⟩
  · cases h

theorem zip_newHealFormatSets (ref : FormatXLV3) (mark : List Bytes → List Bytes)
    (sets : List (List Bytes)) (disks : List (List Load)) :
    (sets.map mark).zip (zipWith (newHealFormatSet ref) sets disks) =
      (sets.zip disks).map fun p => (mark p.1, newHealFormatSet ref p.1 p.2) := by
  induction sets generalizing disks with
  | nil => rfl
  | cons set sets ih =>
    cases disks with
    | nil => rfl
    | cons loads disks => exact congrArg (_ :: ·) (ih disks)

theorem mem_newHealFormatSet {ref f : FormatXLV3} {places : List Bytes} {set : List Load} :
    some f ∈ newHealFormatSet ref places set ↔
      some f ∈ (set.take places.length).map (newHealFormat ref) := by
  rw [newHealFormatSet, mem_append, or_iff_left]
  exact fun h => nomatch eq_of_mem_replicate h

theorem pending_newHealFormatSet (ref : FormatXLV3) (places : List Bytes) (set : List Load) :
    pending (newHealFormatSet ref places set) =
      pending ((set.take places.length).map (newHealFormat ref)) := by
  simp [newHealFormatSet, pending, countP_replicate]

theorem flatten_markUUIDsOffline (sets : List (List Bytes)) (formats : List (Option FormatXLV3)) :
    (markUUIDsOffline sets formats).flatten = sets.flatten.map fun uuid =>
      if uuid ∈ getOfflineUUIDs sets formats then offlineDiskUUID else uuid :=
  (map_flatten ..).symm

theorem mem_markUUIDsOffline {sets : List (List Bytes)} {formats : List (Option FormatXLV3)}
    {x : Bytes} (hx : x ∈ (markUUIDsOffline sets formats).flatten) :
    x = offlineDiskUUID ∨ x ∈ sets.flatten := by
  rw [flatten_markUUIDsOffline] at hx
  obtain ⟨y, hy, rfl⟩ := mem_map.1 hx
  split_ifs
  · exact .inl rfl
  · exact .inr hy

theorem written_iff {sets : List (List Bytes)} {written : List (List (Option FormatXLV3))} :
    (∀ set ∈ written.map fun set => set.map fun f => f.map fun f => { f with sets },
      ∀ f : FormatXLV3, some f ∈ set → f.this ∈ f.sets.flatten) ↔
    ∀ formats ∈ written, ∀ f, some f ∈ formats → f.this ∈ sets.flatten := by
  simp only [forall_mem_map]
  refine forall₂_congr fun formats _ => ?_
  constructor
  · exact fun h f hf => h { f with sets } (mem_map.2 ⟨some f, hf, rfl⟩)
  · intro h f hf
    obtain ⟨g, hg, he⟩ := mem_map.1 hf
    obtain ⟨g, rfl, rfl⟩ := Option.map_eq_some_iff.1 he
    exact h g hg

theorem keepsLayout_iff (hwf : ∀ f, Read disks f → WellFormed f)
    (hfresh : FreshUUIDs mustGetUUID disks)
    {ref : FormatXLV3} (href : ref.sets = [] ∨ ∃ f, Read disks f ∧ ref.sets = f.sets)
    {r : List (List Bytes) × List (List (Option FormatXLV3))}
    (hr : r = fillSets mustGetUUID 0 (markUUIDsOffline ref.sets (disks.flatten.map Load.toFormat))
      (newHealFormatSets ref disks)) :
    KeepsLayout disks ref.sets ⟨r.1, r.2.map fun set => set.map fun f => f.map fun f =>
      { f with sets := r.1 }⟩ ↔
      ∀ p ∈ ref.sets.zip disks,
        (∀ f, Load.format f ∈ p.2.take p.1.length → f.this ∈ ref.sets.flatten) ∧
        (p.2.take p.1.length).count .unformatted ≤
          freePlaces ref.sets (disks.flatten.map Load.toFormat) p.1 := by
  generalize hformats : disks.flatten.map Load.toFormat = formats at hr ⊢
  obtain ⟨hnone, hrefnil, hrefnew⟩ : NoneTwice ref.sets ∧ [] ∉ ref.sets.flatten ∧
      ∀ m, mustGetUUID m ∉ ref.sets.flatten := by
    rcases href with h | ⟨f, hf, h⟩
    · simp [h, NoneTwice]
    · rw [h]
      exact ⟨(hwf f hf).noneTwice, (hwf f hf).uuid_ne_nil, fun m => hfresh.not_mem m f hf⟩
  have hnew (m : Nat) : mustGetUUID m ∉ (markUUIDsOffline ref.sets formats).flatten := fun h =>
    (mem_markUUIDsOffline h).elim (hfresh.ne_offline m) (hrefnew m)
  have hfill : FilledSets mustGetUUID 0 _ (newHealFormatSets ref disks) _ :=
    filledSets_fillSets hfresh.injective hfresh.ne_nil hfresh.ne_offline hnew
  rw [← hr] at hfill
  have hnil : [] ∉ r.1.flatten := by
    intro h
    rcases mem_of_slots hfill.slots h with h | ⟨m, -, h⟩
    · rcases mem_markUUIDsOffline h with h | h
      · exact absurd h (by decide)
      · exact hrefnil h
    · exact hfresh.ne_nil m h.symm
  -- the identifier of a disk that was read is not touched by the marking, and no place but a
  -- placeholder is filled
  have hplaces : Forall₂ (Forall₂ fun uuid uuid' => (∃ f, Read disks f ∧ f.this = uuid) →
      uuid' = uuid) ref.sets r.1 := by
    refine (forall₂_map_left_iff.1 hfill.slots).imp fun set set' hset =>
      (forall₂_map_left_iff.1 hset).imp ?_
    rintro _ uuid' hslot ⟨f, hf, rfl⟩
    rw [if_neg (by rw [← hformats, mem_getOfflineUUIDs]; exact fun h => h.2 f hf rfl)] at hslot
    exact hslot.resolve_right fun h => (hwf f hf).this_ne_offline h.1
  have hthis {f : FormatXLV3} (hf : Read disks f) : f.this ∈ r.1.flatten ↔
      f.this ∈ ref.sets.flatten := by
    constructor
    · intro h
      rcases mem_of_slots hfill.slots h with h | ⟨m, -, h⟩
      · exact (mem_markUUIDsOffline h).resolve_left (hwf f hf).this_ne_offline
      · exact absurd h.symm (hfresh.ne_this m f hf)
    · intro h
      obtain ⟨y, hy, hxy⟩ := exists_of_mem_flatten hplaces h
      exact hxy ⟨f, hf, rfl⟩ ▸ hy
  have hrow (p : List Bytes × List Load) (hp : p ∈ ref.sets.zip disks) :
      ((∀ f, some f ∈ newHealFormatSet ref p.1 p.2 → f.this ≠ [] → f.this ∈ r.1.flatten) ∧
        pending (newHealFormatSet ref p.1 p.2) ≤ (p.1.map fun uuid =>
          if uuid ∈ getOfflineUUIDs ref.sets formats then offlineDiskUUID else uuid).count
            offlineDiskUUID) ↔
      (∀ f, Load.format f ∈ p.2.take p.1.length → f.this ∈ ref.sets.flatten) ∧
        (p.2.take p.1.length).count .unformatted ≤ freePlaces ref.sets formats p.1 := by
    have hread {f : FormatXLV3} (hf : Load.format f ∈ p.2.take p.1.length) : Read disks f :=
      ⟨p.2, (of_mem_zip hp).2, mem_of_mem_take hf⟩
    simp only [mem_newHealFormatSet, pending_newHealFormatSet]
    rw [count_mark, pending_newHealFormat ref fun f hf => (hwf f (hread hf)).this_ne_nil]
    refine and_congr_left fun _ => ⟨fun h f hf => ?_, fun h f hf hne => ?_⟩
    · rw [← hthis (hread hf)]
      exact h { ref with this := f.this, sets := [] } (mem_map.2 ⟨.format f, hf, rfl⟩)
        (hwf f (hread hf)).this_ne_nil
    · obtain ⟨load, hload, he⟩ := mem_map.1 hf
      cases load with
      | format g =>
        cases he
        exact (hthis (hread hload)).2 (h g hload)
      | unformatted =>
        cases he
        exact absurd rfl hne
      | _ => cases he
  have hiff := hfill.member_iff r.1.flatten (Subset.refl _) hnil
  rw [newHealFormatSets, markUUIDsOffline, zip_newHealFormatSets, forall_mem_map] at hiff
  constructor
  · intro h p hp
    exact (hrow p hp).1 (hiff.1 (written_iff.1 h.member) p hp)
  · intro h
    refine ⟨written_iff.2 (hiff.2 fun p hp => (hrow p hp).2 (h p hp)), hfill.noneTwice ?_, hplaces⟩
    rw [NoneTwice, flatten_markUUIDsOffline]
    exact hnone.sublist (filter_map_mark formats _)

theorem healFormat_iff (D : Digest) (drivesPerSet : Nat) (mustGetUUID : Nat → Bytes)
    (disks : List (List Load))
    (it : Counts.Iteration (formatCountMap D (disks.flatten.map Load.toFormat)))
    (hwf : ∀ f, Read disks f → WellFormed f)
    (hfresh : FreshUUIDs mustGetUUID disks) (ref : FormatXLV3)
    (href : getFormatXLInQuorum D (disks.flatten.map Load.toFormat) it = .ok ref) (healed : Healed)
    (h : healFormat D drivesPerSet mustGetUUID disks it = .ok healed) :
    KeepsLayout disks ref.sets healed ↔
      ∀ p ∈ ref.sets.zip disks,
        (∀ f, Load.format f ∈ p.2.take p.1.length → f.this ∈ ref.sets.flatten) ∧
        (p.2.take p.1.length).count .unformatted ≤
          freePlaces ref.sets (disks.flatten.map Load.toFormat) p.1 := by
  unfold healFormat at h
  simp only [href] at h
  split_ifs at h
  cases h
  refine keepsLayout_iff hwf hfresh ((sets_of_quorum href).imp_right fun ⟨f, hf, he⟩ =>
    ⟨f, ?_, he⟩) rfl
  exact read_iff.2 (reduceOption_mem_iff.2 hf)

/-! ## A set of four disks -/

/-- The format of disk `this` in a layout with one set. -/
def oneSet (this : String) (set : List String) : FormatXLV3 :=
  ⟨lit "1", lit "xl", lit "id", lit "3", lit this, [set.map lit], []⟩

/-- New identifiers: `N`, `NN` and so on. -/
def newUUID (n : Nat) : Bytes := replicate (n + 1) 78

/-- Two disks of a deployment, a third disk and an unformatted one. -/
def fourDisks (third : FormatXLV3) : List (List Load) :=
  [[.format (oneSet "a" ["a", "b", "c", "d"]), .format (oneSet "b" ["a", "b", "c", "d"]),
    .format third, .unformatted]]

def visit (disks : List (List Load)) :
    Counts.Iteration (formatCountMap plainDigest (disks.flatten.map Load.toFormat)) :=
  .ofKeys (counted plainDigest (disks.flatten.map Load.toFormat))

theorem wellFormed_oneSet {this : String} {set : List String} (hthis : this ∈ set)
    (hset : (set.map lit).Nodup ∧ [] ∉ set.map lit ∧ offlineDiskUUID ∉ set.map lit) :
    WellFormed (oneSet this set) := by
  obtain ⟨hnodup, hnil, hoff⟩ := hset
  have hmem : lit this ∈ set.map lit := mem_map.2 ⟨this, hthis, rfl⟩
  exact ⟨fun h => hnil (h ▸ hmem), fun h => hoff (h ▸ hmem), by simpa [oneSet] using ⟨this, hthis,
    rfl⟩, by simpa [oneSet] using hnil, by simpa [NoneTwice, oneSet] using hnodup.filter _⟩

theorem freshUUIDs_newUUID {disks : List (List Load)}
    (h : ∀ f, Read disks f → 78 ∉ f.this ∧ 78 ∉ f.sets.flatten.flatten) :
    FreshUUIDs newUUID disks where
  injective a b hab := by simpa [newUUID] using congrArg length hab
  ne_nil n := by simp [newUUID]
  ne_offline n h' := absurd (h' ▸ mem_replicate.2 ⟨n.succ_ne_zero, rfl⟩ : (78 : UInt8) ∈
    offlineDiskUUID) (by decide)
  ne_this n f hf he := (h f hf).1 (he ▸ mem_replicate.2 ⟨n.succ_ne_zero, rfl⟩)
  not_mem n f hf hmem := (h f hf).2 (mem_flatten.2 ⟨_, hmem, mem_replicate.2 ⟨n.succ_ne_zero, rfl⟩⟩)

theorem read_fourDisks {third f : FormatXLV3} (h : Read (fourDisks third) f) :
    f = oneSet "a" ["a", "b", "c", "d"] ∨ f = oneSet "b" ["a", "b", "c", "d"] ∨ f = third := by
  simpa [Read, fourDisks] using h

theorem healFormat_fourDisks :
    ∃ ref healed, getFormatXLInQuorum plainDigest _
      (visit (fourDisks (oneSet "c" ["a", "b", "c", "d"]))) = .ok ref ∧
      healFormat plainDigest 4 newUUID _ (visit (fourDisks (oneSet "c" ["a", "b", "c", "d"]))) =
        .ok healed ∧
      healed.sets = [[lit "a", lit "b", lit "c", lit "N"]] ∧
      KeepsLayout (fourDisks (oneSet "c" ["a", "b", "c", "d"])) ref.sets healed := by
  have hread {f : FormatXLV3} (h : Read (fourDisks (oneSet "c" ["a", "b", "c", "d"])) f) :
      ∃ this ∈ ["a", "b", "c"], f = oneSet this ["a", "b", "c", "d"] := by
        simpa using read_fourDisks h
  have hwf (f : FormatXLV3) (h : Read (fourDisks (oneSet "c" ["a", "b", "c", "d"])) f) :
      WellFormed f := by
    obtain ⟨this, hthis, rfl⟩ := hread h
    exact wellFormed_oneSet (mem_of_mem_dropLast (l := ["a", "b", "c", "d"]) hthis) (by decide)
  refine ⟨⟨lit "1", lit "xl", lit "id", lit "3", [], [["a", "b", "c", "d"].map lit], []⟩,
    ⟨[["a", "b", "c", "N"].map lit],
    [["a", "b", "c", "N"].map fun this =>
      some (oneSet this ["a", "b", "c", "N"])]⟩, by decide +kernel, by decide +kernel, rfl, ?_⟩
  refine (healFormat_iff plainDigest 4 newUUID _
    (visit (fourDisks (oneSet "c" ["a", "b", "c", "d"]))) hwf
    (freshUUIDs_newUUID fun f hf => ?_) _ (by decide +kernel) _ (by decide +kernel)).2 ?_
  · obtain ⟨this, hthis, rfl⟩ := hread hf
    clear hf
    revert this
    decide
  · intro p hp
    obtain rfl : p = (_, _) := mem_singleton.1 hp
    refine ⟨fun f hf => ?_, by decide +kernel⟩
    obtain ⟨this, hthis, rfl⟩ := hread ⟨_, mem_cons_self, hf⟩
    clear hf
    revert this
    decide

/-- The third disk is of another deployment: it keeps its identifier `x` and gets a layout without
it. -/
theorem healFormat_foreignDisk :
    ∃ ref healed, getFormatXLInQuorum plainDigest _
      (visit (fourDisks (oneSet "x" ["w", "x", "y", "z"]))) = .ok ref ∧
      healFormat plainDigest 4 newUUID _ (visit (fourDisks (oneSet "x" ["w", "x", "y", "z"]))) =
        .ok healed ∧
      WellFormed (oneSet "x" ["w", "x", "y", "z"]) ∧
        FreshUUIDs newUUID (fourDisks (oneSet "x" ["w", "x", "y", "z"])) ∧
      ¬ KeepsLayout (fourDisks (oneSet "x" ["w", "x", "y", "z"])) ref.sets healed := by
  refine ⟨⟨lit "1", lit "xl", lit "id", lit "3", [], [["a", "b", "c", "d"].map lit], []⟩,
    ⟨[[lit "a", lit "b", lit "N", offlineDiskUUID]], [["a", "b", "x", "N"].map fun this =>
      some { oneSet this [] with sets := [[lit "a", lit "b", lit "N", offlineDiskUUID]] }]⟩,
    by decide +kernel, by decide +kernel, wellFormed_oneSet (by decide) (by decide),
    freshUUIDs_newUUID fun f hf => ?_, fun h => ?_⟩
  · rcases read_fourDisks hf with rfl | rfl | rfl <;> decide
  · exact absurd (h.member _ mem_cons_self
      { oneSet "x" [] with sets := [[lit "a", lit "b", lit "N", offlineDiskUUID]] }
      (mem_map.2 ⟨"x", by decide, rfl⟩)) (by decide +kernel)

end S3Kinetic.Format
