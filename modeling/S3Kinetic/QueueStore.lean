import S3Kinetic.Lib.OrdMap
import S3Kinetic.Lib.ByteString
import S3Kinetic.Lib.Runs

/-!
# The event queue of a notification target (`event/target/queuestore.go`)

Events wait as files `<key>.event` of a directory, and the store counts them apart from the file
system: `Open` counts the entries of the directory, `Put` adds one after a write that succeeded,
`Del`, also called by a failing `Get`, takes one away. What the file system answers is an argument
of the calls.
-/

namespace S3Kinetic.QueueStore

open ByteString List OrdMap Runs

def eventExt : Bytes := lit ".event"

def maxUint64 : Nat := 2 ^ 64 - 1

inductive Entry
  | file (data : Bytes)
  | subdirectory
  deriving DecidableEq

inductive StoreErr
  | errLimitExceeded
  | errNotExist
  | system

structure Store where
  currentEntries : Nat
  entryLimit : UInt64
  directory : OrdMap Bytes Entry

/-- Where `filepath.Join(directory, key + eventExt)` leads: to a name of the directory or, by
slashes in the key, elsewhere. -/
structure Layout where
  locate : Bytes → Option Bytes
  plain : ∀ key, 47 ∉ key → locate key = some (key ++ eventExt)
  ext : ∀ key name, locate key = some name → eventExt <:+ name

/-- `encoding/json` on events. -/
structure Codec (Event : Type) where
  marshal : Event → Option Bytes
  unmarshal : Bytes → Option Event

/-- The outcomes of `ioutil.WriteFile`: it may fail to open the file, or to write all of it. -/
inductive Writing
  | noOpen
  | partly (written : Bytes)
  | full

variable {Event : Type} (codec : Codec Event) (layout : Layout)

/-! ## Calls -/

/-- The directory after `ioutil.WriteFile`, and whether it succeeded. -/
def writeFile (directory : OrdMap Bytes Entry) (path : Option Bytes) (data : Bytes) (w : Writing) :
    OrdMap Bytes Entry × Bool :=
  match path with
  | none => (directory, match w with | .full => true | _ => false)
  | some name =>
    if directory.get? name = some .subdirectory then (directory, false)
    else
      match w with
      | .noOpen => (directory, false)
      | .partly written => (directory.insert name (.file written), false)
      | .full => (directory.insert name (.file data), true)

/-- The directory after `os.Remove`, and whether it succeeded. -/
def remove (directory : OrdMap Bytes Entry) (path : Option Bytes) (removes : Bool) :
    OrdMap Bytes Entry × Bool :=
  match path with
  | none => (directory, removes)
  | some name =>
    if name ∈ directory ∧ removes then (directory.erase name, true) else (directory, false)

/-- `Open`; the listing counts whatever the directory has. -/
def openStore (store : Store) (mkdir readDir : Bool) : Store × Except StoreErr Unit :=
  if ¬ mkdir ∨ ¬ readDir then (store, .error .system)
  else if store.entryLimit.toNat ≤ store.directory.keys.length then (store,
    .error .errLimitExceeded)
  else ({ store with currentEntries := store.directory.keys.length }, .ok ())

def write (store : Store) (key : Bytes) (e : Event) (w : Writing) : Store × Except StoreErr Unit :=
  match codec.marshal e with
  | none => (store, .error .system)
  | some eventData =>
    match writeFile store.directory (layout.locate key) eventData w with
    | (directory, true) =>
      ({ store with directory := directory, currentEntries := store.currentEntries + 1 }, .ok ())
    | (directory, false) => ({ store with directory := directory }, .error .system)

def put (store : Store) (newUUID : Option Bytes) (e : Event) (w : Writing) :
    Store × Except StoreErr Unit :=
  if store.entryLimit.toNat ≤ store.currentEntries then (store, .error .errLimitExceeded)
  else
    match newUUID with
    | none => (store, .error .system)
    | some key => write codec layout store key e w

/-- `currentEntries--` with the guard against the underflow. -/
def decrement (currentEntries : Nat) : Nat :=
  let less := if currentEntries = 0 then maxUint64 else currentEntries - 1
  if less = maxUint64 then 0 else less

def del (store : Store) (key : Bytes) (removes : Bool) : Store × Except StoreErr Unit :=
  match remove store.directory (layout.locate key) removes with
  | (directory, true) =>
    ({ store with directory := directory, currentEntries := decrement store.currentEntries },
      .ok ())
  | (directory, false) => ({ store with directory := directory }, .error .system)

/-- `ioutil.ReadFile`; `elsewhere` is read if the path leads out of the directory. -/
def readFile (directory : OrdMap Bytes Entry) (path : Option Bytes) (reads : Bool)
    (elsewhere : Option Bytes) : Option Bytes :=
  match path with
  | none => elsewhere
  | some name =>
    match directory.get? name with
    | some (.file data) => if reads then some data else none
    | _ => none

/-- What `Get` reads, before its deferred function. -/
def readEvent (store : Store) (key : Bytes) (reads : Bool) (elsewhere : Option Bytes) :
    Except StoreErr Event :=
  match readFile store.directory (layout.locate key) reads elsewhere with
  | none => .error .system
  | some [] => .error .errNotExist
  | some eventData =>
    match codec.unmarshal eventData with
    | none => .error .system
    | some event => .ok event

def get (store : Store) (key : Bytes) (reads : Bool) (elsewhere : Option Bytes) (removes : Bool) :
    Store × Except StoreErr Event :=
  match readEvent codec layout store key reads elsewhere with
  | .ok event => (store, .ok event)
  | .error err => ((del layout store key removes).1, .error err)

inductive Op (Event : Type)
  | openStore (mkdir readDir : Bool)
  | put (newUUID : Option Bytes) (e : Event) (w : Writing)
  | get (key : Bytes) (reads : Bool) (elsewhere : Option Bytes) (removes : Bool)
  | del (key : Bytes) (removes : Bool)

/-! ## Runs -/

structure Session where
  store : Store
  opened : Bool

def step (s : Session) : Op Event → Session
  | .openStore mkdir readDir =>
    match openStore s.store mkdir readDir with
    | (store, .ok _) => ⟨store, true⟩
    | (store, .error _) => ⟨store, s.opened⟩
  | .put newUUID e w => ⟨(put codec layout s.store newUUID e w).1, s.opened⟩
  | .get key reads elsewhere removes =>
    ⟨(get codec layout s.store key reads elsewhere removes).1, s.opened⟩
  | .del key removes => ⟨(del layout s.store key removes).1, s.opened⟩

/-- `NewQueueStore` over a directory with any entries. -/
def newQueueStore (limit : UInt64) (directory : OrdMap Bytes Entry) : Session :=
  ⟨⟨0, limit, directory⟩, false⟩

def IsEvent (directory : OrdMap Bytes Entry) (name : Bytes) : Prop :=
  eventExt <:+ name ∧ directory.get? name ≠ some .subdirectory

instance (directory : OrdMap Bytes Entry) : DecidablePred (IsEvent directory) :=
  fun _ => inferInstanceAs (Decidable (_ ∧ _))

def Full (directory : OrdMap Bytes Entry) : Prop := ∀ name ∈ directory, IsEvent directory name

def eventFiles (directory : OrdMap Bytes Entry) : Finset Bytes :=
  directory.keys.toFinset.filter (IsEvent directory)

def Counts (store : Store) : Prop :=
  store.currentEntries = (eventFiles store.directory).card ∧ (eventFiles store.directory).card ≤
    store.entryLimit.toNat

def RemovesEntry (store : Store) (key : Bytes) (removes : Bool) : Prop :=
  removes → layout.locate key = none → (eventFiles store.directory).card = 0

/-- A write of `Put` succeeds if and only if it makes a new entry. -/
def WritesEntry (store : Store) (key : Bytes) : Writing → Prop
  | .noOpen => True
  | .partly _ => ∀ name ∈ layout.locate key, name ∈ store.directory
  | .full => ∃ name ∈ layout.locate key, name ∉ store.directory

/-- `Open` finds only event files; afterwards the writes and removals that succeed are those that
change the entries. -/
def Tame (s : Session) : Op Event → Prop
  | .openStore mkdir readDir =>
    mkdir ∧ readDir → s.store.directory.keys.length < s.store.entryLimit.toNat →
      Full s.store.directory
  | .put newUUID e w =>
    s.opened → s.store.currentEntries < s.store.entryLimit.toNat →
      ∀ key ∈ newUUID, (codec.marshal e).isSome →
      WritesEntry layout s.store key w
  | .get key reads elsewhere removes =>
    s.opened → (readEvent codec layout s.store key reads elsewhere).isOk = false →
      RemovesEntry layout s.store key removes
  | .del key removes => s.opened → RemovesEntry layout s.store key removes

/-! ## The event files of a directory -/

section Directory

variable {directory : OrdMap Bytes Entry} {name : Bytes}

theorem mem_eventFiles : name ∈ eventFiles directory ↔ name ∈ directory ∧
    IsEvent directory name := by
  rw [eventFiles, Finset.mem_filter, mem_toFinset, OrdMap.mem_keys]

theorem eventFiles_insert (hext : eventExt <:+ name) (data : Bytes) :
    eventFiles (directory.insert name (.file data)) = insert name (eventFiles directory) := by
  ext x
  rw [mem_eventFiles, Finset.mem_insert, mem_eventFiles, mem_insert, IsEvent, IsEvent, get?_insert]
  by_cases hx : x = name
  · simp [hx, hext]
  · simp [hx]

theorem eventFiles_erase :
    eventFiles (directory.erase name) = (eventFiles directory).erase name := by
  ext x
  rw [mem_eventFiles, Finset.mem_erase, mem_eventFiles, mem_erase, IsEvent, IsEvent, get?_erase]
  by_cases hx : x = name
  · simp [hx]
  · simp [hx]

theorem card_eventFiles_iff : (eventFiles directory).card = directory.keys.length ↔
    Full directory := by
  rw [← toFinset_card_of_nodup directory.keys_nodup, eventFiles, Finset.card_filter_eq_iff]
  simp [Full, OrdMap.mem_keys]

theorem Full.mem_iff (h : Full directory) : name ∈ eventFiles directory ↔ name ∈ directory :=
  mem_eventFiles.trans ⟨And.left, fun hm => ⟨hm, h name hm⟩⟩

theorem Full.insert (h : Full directory) (hext : eventExt <:+ name) (data : Bytes) :
    Full (directory.insert name (.file data)) := by
  intro x hx
  have hmem : x ∈ eventFiles (directory.insert name (.file data)) := by
    rw [eventFiles_insert hext, Finset.mem_insert, h.mem_iff]
    exact OrdMap.mem_insert.1 hx
  exact (mem_eventFiles.1 hmem).2

theorem Full.erase (h : Full directory) : Full (directory.erase name) := by
  intro x hx
  have hmem : x ∈ eventFiles (directory.erase name) := by
    rw [eventFiles_erase, Finset.mem_erase, h.mem_iff]
    exact OrdMap.mem_erase.1 hx
  exact (mem_eventFiles.1 hmem).2

theorem Full.not_subdirectory (h : Full directory) (name : Bytes) :
    directory.get? name ≠ some .subdirectory := fun hd =>
  (h name ((OrdMap.mem_iff _).2 ⟨_, hd⟩)).2 hd

end Directory

/-! ## One call -/

/-- What holds between the calls after a successful `Open`. -/
structure Ready (store : Store) : Prop where
  counts : Counts store
  full : Full store.directory

theorem decrement_eq {c : Nat} (h : c < 2 ^ 64) : decrement c = c - 1 := by
  simp only [decrement, maxUint64]
  split_ifs <;> omega

section Calls

variable {codec layout} {store : Store}

theorem Ready.del (h : Ready store) {key : Bytes} {removes : Bool}
    (ht : RemovesEntry layout store key removes) :
    Ready (del layout store key removes).1 := by
  obtain ⟨⟨hcount, hle⟩, hfull⟩ := h
  have hdec : decrement store.currentEntries = store.currentEntries - 1 :=
    decrement_eq (hcount ▸ hle.trans_lt store.entryLimit.toNat_lt)
  unfold QueueStore.del remove
  cases hloc : layout.locate key with
  | none =>
    cases removes with
    | false => exact ⟨⟨hcount, hle⟩, hfull⟩
    | true =>
      have hzero := ht rfl hloc
      have hsame : decrement store.currentEntries = (eventFiles store.directory).card := by omega
      exact ⟨⟨hsame, hle⟩, hfull⟩
  | some name =>
    simp only
    split_ifs with hin
    · refine ⟨?_, hfull.erase⟩
      have hmem := hfull.mem_iff.2 hin.1
      simp only [Counts, eventFiles_erase, Finset.card_erase_of_mem hmem, hdec]
      omega
    · exact ⟨⟨hcount, hle⟩, hfull⟩

theorem Ready.removesEntry_of_del (h : Ready store) {key : Bytes} {removes : Bool}
    (hc : Counts (QueueStore.del layout store key removes).1) :
    RemovesEntry layout store key removes := by
  obtain ⟨⟨hcount, hle⟩, -⟩ := h
  rintro rfl hloc
  have hdec : decrement store.currentEntries = store.currentEntries - 1 :=
    decrement_eq (hcount ▸ hle.trans_lt store.entryLimit.toNat_lt)
  have heq := hc.1
  simp only [QueueStore.del, remove, hloc, hdec] at heq
  omega

theorem Ready.write (h : Ready store) (hlt : store.currentEntries < store.entryLimit.toNat)
    {key : Bytes} {e : Event} {w : Writing}
    (ht : (codec.marshal e).isSome → WritesEntry layout store key w) :
    Ready (write codec layout store key e w).1 := by
  obtain ⟨⟨hcount, hle⟩, hfull⟩ := h
  unfold QueueStore.write
  cases hm : codec.marshal e with
  | none => exact ⟨⟨hcount, hle⟩, hfull⟩
  | some data =>
    replace ht := ht (by rw [hm]; rfl)
    unfold writeFile
    cases hloc : layout.locate key with
    | none =>
      cases w with
      | noOpen => exact ⟨⟨hcount, hle⟩, hfull⟩
      | partly written => exact ⟨⟨hcount, hle⟩, hfull⟩
      | full => simp [WritesEntry, hloc] at ht
    | some name =>
      have hext := layout.ext key name hloc
      simp only [if_neg (hfull.not_subdirectory name)]
      cases w with
      | noOpen => exact ⟨⟨hcount, hle⟩, hfull⟩
      | partly written =>
        have hin := hfull.mem_iff.2 (ht name hloc)
        refine ⟨?_, hfull.insert hext written⟩
        simp only [Counts, eventFiles_insert hext, Finset.insert_eq_of_mem hin]
        exact ⟨hcount, hle⟩
      | full =>
        obtain ⟨name', hname, hnew⟩ := ht
        obtain rfl : name = name' := Option.some.inj (hloc.symm.trans hname)
        refine ⟨?_, hfull.insert hext data⟩
        simp only [Counts, eventFiles_insert hext,
          Finset.card_insert_of_notMem (mt hfull.mem_iff.1 hnew)]
        omega

theorem Ready.writesEntry_of_write (h : Ready store) {key : Bytes} {e : Event} {w : Writing}
    (hc : Counts (QueueStore.write codec layout store key e w).1) (hm : (codec.marshal e).isSome) :
    WritesEntry layout store key w := by
  obtain ⟨⟨hcount, -⟩, hfull⟩ := h
  obtain ⟨data, hm⟩ := Option.isSome_iff_exists.1 hm
  have heq := hc.1
  cases w with
  | noOpen => trivial
  | partly written =>
    intro name hloc
    by_contra hnew
    simp only [QueueStore.write, hm, writeFile, Option.mem_def.1 hloc,
      if_neg (hfull.not_subdirectory name), eventFiles_insert (layout.ext key name hloc),
        Finset.card_insert_of_notMem (mt hfull.mem_iff.1 hnew)] at heq
    omega
  | full =>
    cases hloc : layout.locate key with
    | none =>
      simp only [QueueStore.write, hm, writeFile, hloc] at heq
      omega
    | some name =>
      refine ⟨name, hloc, fun hin => ?_⟩
      simp only [QueueStore.write, hm, writeFile, hloc, if_neg (hfull.not_subdirectory name),
        eventFiles_insert (layout.ext key name hloc), Finset.insert_eq_of_mem (hfull.mem_iff.2 hin)]
          at heq
      omega

theorem Ready.put (h : Ready store) {newUUID : Option Bytes} {e : Event} {w : Writing}
    (ht : store.currentEntries < store.entryLimit.toNat →
      ∀ key ∈ newUUID, (codec.marshal e).isSome → WritesEntry layout store key w) :
    Ready (put codec layout store newUUID e w).1 := by
  unfold QueueStore.put
  split_ifs with hlimit
  · exact h
  · cases newUUID with
    | none => exact h
    | some key => exact h.write (not_le.1 hlimit) (ht (not_le.1 hlimit) key rfl)

theorem Ready.writesEntry_of_put (h : Ready store) {newUUID : Option Bytes}
    {e : Event} {w : Writing} (hc : Counts (QueueStore.put codec layout store newUUID e w).1)
    (hlt : store.currentEntries < store.entryLimit.toNat)
    {key : Bytes} (hkey : key ∈ newUUID) (hm : (codec.marshal e).isSome) :
    WritesEntry layout store key w := by
  obtain rfl : newUUID = some key := hkey
  rw [QueueStore.put, if_neg hlt.not_ge] at hc
  exact h.writesEntry_of_write hc hm

theorem get_fst (key : Bytes) (reads : Bool) (elsewhere : Option Bytes) (removes : Bool) :
    (get codec layout store key reads elsewhere removes).1 =
      if (readEvent codec layout store key reads elsewhere).isOk then store
        else (del layout store key removes).1 := by
  unfold get
  cases readEvent codec layout store key reads elsewhere <;> rfl

end Calls

/-! ## Whole runs -/

def Inv (s : Session) : Prop := s.opened → Ready s.store

variable {codec layout}

theorem Inv.step {s : Session} (h : Inv s) {op : Op Event} (ht : Tame codec layout s op) :
    Inv (step codec layout s op) := by
  cases op with
  | openStore mkdir readDir =>
    simp only [QueueStore.step, openStore]
    split_ifs with hsys hlimit
    · exact h
    · exact h
    · have hfull := ht (by simpa using hsys) (not_le.1 hlimit)
      have hcard := card_eventFiles_iff.2 hfull
      exact fun _ => ⟨⟨hcard.symm, hcard.le.trans (not_le.1 hlimit).le⟩, hfull⟩
  | put newUUID e w => exact fun ho => (h ho).put (ht ho)
  | get key reads elsewhere removes =>
    intro ho
    simp only [QueueStore.step, get_fst]
    split_ifs with hok
    · exact h ho
    · exact (h ho).del (ht ho (by simpa using hok))
  | del key removes => exact fun ho => (h ho).del (ht ho)

theorem Inv.tame_of_counts {s : Session} (h : Inv s) {op : Op Event}
    (hc : (QueueStore.step codec layout s op).opened →
      Counts (QueueStore.step codec layout s op).store) : Tame codec layout s op := by
  cases op with
  | openStore mkdir readDir =>
    intro hsys hlimit
    simp only [QueueStore.step, openStore, hsys.1, hsys.2, not_true, or_self, if_false,
      if_neg hlimit.not_ge] at hc
    exact card_eventFiles_iff.1 (hc trivial).1.symm
  | put newUUID e w => exact fun ho hlt key hkey hm => (h ho).writesEntry_of_put (hc ho) hlt hkey hm
  | get key reads elsewhere removes =>
    intro ho herr
    simp only [QueueStore.step, get_fst, herr] at hc
    exact (h ho).removesEntry_of_del (hc ho)
  | del key removes => exact fun ho => (h ho).removesEntry_of_del (hc ho)

theorem queueStore_iff {Event : Type} (codec : Codec Event) (layout : Layout) (limit : UInt64)
    (directory : OrdMap Bytes Entry) (ops : List (Op Event)) :
    Along (step codec layout) (fun _ _ s => s.opened → Counts s.store)
      (newQueueStore limit directory) ops ↔
      Along (step codec layout) (fun s op _ => Tame codec layout s op)
        (newQueueStore limit directory) ops := by
  have hnew : Inv (newQueueStore limit directory) := fun ho => Bool.noConfusion ho
  exact along_iff (fun s op (h : Inv s) => ⟨h.tame_of_counts, fun ht ho => (h.step ht ho).counts⟩)
    (fun _ _ h ht => h.step ht) hnew ops

/-! ## A write that fails -/

/-- Keys without slashes name entries, others lead elsewhere. -/
def flatLayout : Layout where
  locate key := if 47 ∈ key then none else some (key ++ eventExt)
  plain key h := if_neg h
  ext key name h := by
    split_ifs at h
    exact Option.some.inj h ▸ suffix_append key eventExt

def plainCodec : Codec Bytes := ⟨some, some⟩

/-- With room for one event, two writes that fail after the file is made leave two files. -/
theorem queueStore_overfull :
    ¬ Along (step plainCodec flatLayout) (fun _ _ s => s.opened → Counts s.store)
      (newQueueStore 1 ∅)
      [.openStore true true, .put (some (lit "a")) (lit "x") (.partly []),
        .put (some (lit "b")) (lit "x") (.partly [])] := by
  rintro ⟨-, -, h, -⟩
  exact absurd (h rfl).2 (by decide +kernel)

end S3Kinetic.QueueStore
