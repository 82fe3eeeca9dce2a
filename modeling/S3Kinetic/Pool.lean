import S3Kinetic.PartReads

/-!
# The connection pool

A GET takes a free connection out of the pool and gives it back at the end of its data, at an error
or when it is closed. The connection's `NextPartNumber` stays as the reads of the session left it,
and the next GET on the connection starts there: it gets the parts of its object rotated by that
number (`MultipartObject.wholeGet_iff`). In runs that give connections back only with the counter at
zero, every whole GET returns the object.
-/

namespace S3Kinetic

open ByteString Decimal OrdMap List

/-- A connection in use: the number of bytes that its reader has to deliver, and whether they go to
the caller as they are or through the decoder of an encrypted or compressed object. -/
structure Session where
  limit : Nat
  decoded : Bool
  deriving DecidableEq

structure PooledConn where
  client : Client
  session : Option Session
  deriving DecidableEq

def maxQueue : Nat := 100

abbrev Pool := Nat → PooledConn

def initPool : Pool := fun _ => ⟨freshClient, none⟩

/-- What happens to the pool: a GET that is given connection `i`, one read of its reader, its
`Close`. Of an encrypted or compressed object the GET reads the bytes `stored`, an offset and a
length, and its decoder makes the reads. Other calls may change the store in between. -/
inductive PoolEvent where
  | getObjectNInfo (s : Store) (i : Nat) (bucket object : Bytes) (rs : Option HTTPRangeSpec)
    (stored : Nat × Nat)
  | read (s : Store) (i : Nat) (len : Nat)
  | close (i : Nat)

def PoolEvent.conn : PoolEvent → Nat
  | .getObjectNInfo _ i _ _ _ _ => i
  | .read _ i _ => i
  | .close i => i

variable (K : Kineticd)

/-- What an event does to its connection. `GetKineticConnection` hands out free connections only. A
reader closes itself at the end of the data and at an error; behind a decoder that is for the
decoder's caller to do. -/
def PooledConn.step (c : PooledConn) : PoolEvent → PooledConn
  | .getObjectNInfo s i bucket object rs stored =>
    if i < maxQueue ∧ c.session = none then
      match S3Kinetic.getObjectNInfo K s c.client bucket object rs with
      | some (.ok (.limited kc limit)) => ⟨kc, some ⟨limit, false⟩⟩
      -- an encrypted or compressed object
      | none => ⟨{ c.client with key := bucket ++ slash :: object, dataOffset := stored.1 },
        some ⟨stored.2, true⟩⟩
      | _ => c
    else c
  | .read s _ len =>
    match c.session with
    | none => c
    | some session =>
      match (GetObjectReader.limited c.client session.limit).read K s len with
      | (.limited kc limit, .ok (some _)) => ⟨kc, some ⟨limit, session.decoded⟩⟩
      | (.limited kc limit, _) => ⟨kc, if session.decoded then some ⟨limit, true⟩ else none⟩
      | (.empty, _) => c
  | .close _ => ⟨c.client, none⟩

def Pool.step (pool : Pool) (ev : PoolEvent) : Pool :=
  Function.update pool ev.conn ((pool ev.conn).step K ev)

def runPool (events : List PoolEvent) : Pool := events.foldl (Pool.step K) initPool

def PooledConn.Settled (c : PooledConn) (ev : PoolEvent) : Prop :=
  c.session ≠ none → (c.step K ev).session = none → (c.step K ev).client.nextPartNumber = 0

instance (c : PooledConn) (ev : PoolEvent) : Decidable (c.Settled K ev) :=
  inferInstanceAs (Decidable (_ → _ → _))

def Pool.SettledRun (pool : Pool) : List PoolEvent → Prop
  | [] => True
  | ev :: events => (pool ev.conn).Settled K ev ∧ Pool.SettledRun (pool.step K ev) events

variable {K}

/-! ## What sessions leave behind -/

theorem foldl_step_apply (pool : Pool) (events : List PoolEvent) (i : Nat) :
    events.foldl (Pool.step K) pool i =
      (events.filter fun ev => ev.conn = i).foldl (PooledConn.step K) (pool i) := by
  induction events generalizing pool with
  | nil => rfl
  | cons ev events ih =>
    rw [foldl_cons, ih, Pool.step]
    by_cases h : ev.conn = i
    · subst h
      rw [filter_cons_of_pos (by simp), foldl_cons, Function.update_self]
    · rw [filter_cons_of_neg (by simpa using h), Function.update_of_ne (Ne.symm h)]

theorem PooledConn.step_of_free {c : PooledConn} (h : c.session = none) (ev : PoolEvent) :
    (c.step K ev).session = none → (c.step K ev).client.nextPartNumber =
      c.client.nextPartNumber := by
  cases ev with
  | getObjectNInfo s i b o rs stored =>
    unfold PooledConn.step
    dsimp only
    split_ifs
    · rcases S3Kinetic.getObjectNInfo K s c.client b o rs with _ | (_ | (_ | _))
      · exact fun hs => nomatch hs
      · exact fun _ => rfl
      · exact fun _ => rfl
      · exact fun hs => nomatch hs
    · exact fun _ => rfl
  | read s i len =>
    unfold PooledConn.step
    simp [h]
  | close i => exact fun _ => rfl

def Pool.Idle (pool : Pool) : Prop :=
  ∀ i, (pool i).session = none → (pool i).client.nextPartNumber = 0

theorem Pool.Idle.step {pool : Pool} (h : pool.Idle) {ev : PoolEvent}
    (hev : (pool ev.conn).Settled K ev) : (pool.step K ev).Idle := by
  intro i hi
  unfold Pool.step at hi ⊢
  rcases eq_or_ne i ev.conn with rfl | hne
  · rw [Function.update_self] at hi ⊢
    cases hs : (pool ev.conn).session with
    | none => rw [PooledConn.step_of_free hs ev hi, h _ hs]
    | some n => exact hev (by simp [hs]) hi
  · rw [Function.update_of_ne hne] at hi ⊢
    exact h i hi

theorem Pool.Idle.run {pool : Pool} (h : pool.Idle) {events : List PoolEvent}
    (hrun : pool.SettledRun K events) : (events.foldl (Pool.step K) pool).Idle := by
  induction events generalizing pool with
  | nil => exact h
  | cons ev events ih => exact ih (h.step hrun.1) hrun.2

theorem initPool_idle : initPool.Idle := fun _ _ => rfl

/-! ## A whole GET -/

variable {s : Store} {b o : Bytes} {m : FsMetaV1} {contents : List Bytes} {sizes : Nat → Nat}

theorem MultipartObject.not_drains_beyond {gr : GetObjectReader} {kc : Client} {limit : Nat}
    {data : Bytes} (hd : Drains K s gr sizes data) (hgr : gr = .limited kc limit) (h0 : 0 < limit)
    (h : MultipartObject s kc.key m contents) (hfits : (K.marshal m).length ≤ maxMetaBytes)
    (hcount : contents.length ≤ kc.nextPartNumber) : False := by
  induction hd generalizing limit with
  | eof hread =>
    subst hgr
    exact read_limited_ne_none h0 hread
  | read hread _ ih =>
    subst hgr
    obtain ⟨-, -, kc', hr, rfl⟩ := read_limited_some_iff.1 hread
    rw [h.read_beyond hfits hcount] at hr
    cases hr
    exact ih rfl h0

theorem MultipartObject.flatten_pos {k : Bytes} (h : MultipartObject s k m contents) :
    0 < contents.flatten.length := by
  obtain ⟨w, rest, hcons⟩ := exists_cons_of_ne_nil h.nonempty
  have hw : w ≠ [] := by
    obtain ⟨p, -, hp⟩ := Forall₂.getElem?_right h.parts (j := 0) (show contents[0]? =
      some w by rw [hcons]; rfl)
    exact hp.2.2
  have := length_pos_iff.2 hw
  rw [hcons, flatten_cons, length_append]
  omega

section

variable (h : MultipartObject s (makeKey b o) m contents) (hin : K.PartialGetInside) (hb : b ≠ [])
  (hargs : checkBucketAndObjectNames K b o = none) (hslash : hasSuffix o [slash] = false)
  (hplain : transformed m.entries = false) (hs : ∀ i, contents.flatten.length ≤ sizes i)

include h hb hargs hslash hplain

theorem MultipartObject.open_whole (hfits : (K.marshal m).length ≤ maxMetaBytes) (kc : Client) :
    getObjectNInfo K s kc b o none =
      some (.ok (.limited ⟨makeKey b o, kc.nextPartNumber, 0⟩ contents.flatten.length)) := by
  obtain ⟨v, hrec⟩ := h.record
  have hopen := getObjectNInfo_eq kc hb hargs hslash hrec hfits hplain h.size (by omega)
    accepted_none rfl
  rw [Int.toNat_natCast, Int.toNat_zero] at hopen
  exact hopen

include hin hs

theorem MultipartObject.wholeGet (hfits : (K.marshal m).length ≤ maxMetaBytes) {kc : Client}
    (hj : kc.nextPartNumber < contents.length) :
    GetReturns K s kc b o none sizes (contents.rotate kc.nextPartNumber).flatten := by
  have hlen : (contents.rotate kc.nextPartNumber).flatten.length = contents.flatten.length :=
    (List.Perm.flatten (rotate_perm contents kc.nextPartNumber)).length_eq
  have hd : Drains K s (.limited ⟨makeKey b o, kc.nextPartNumber, 0⟩ contents.flatten.length) sizes
      (((contents.rotate kc.nextPartNumber).drop 0).flatten.take contents.flatten.length) := by
    refine MultipartObject.drains h hfits hin rfl rfl ?_ hlen.ge hs
    rw [Nat.zero_add, Nat.mod_eq_of_lt hj]
  rw [drop_zero, take_of_length_le hlen.le] at hd
  exact ⟨_, h.open_whole hb hargs hslash hplain hfits kc, hd⟩

/-- It returns the object exactly when the counter points to one of its parts and the parts, taken
round from there, give the same bytes. -/
theorem MultipartObject.wholeGet_iff (kc : Client) :
    GetReturns K s kc b o none sizes contents.flatten ↔
      readable K s (makeKey b o) = true ∧ kc.nextPartNumber < contents.length ∧
        (contents.rotate kc.nextPartNumber).flatten = contents.flatten := by
  obtain ⟨v, hrec⟩ := h.record
  by_cases hread : readable K s (makeKey b o) = true
  swap
  · exact iff_of_false (fun ⟨gr, hgr, _⟩ => hread (readable_of_getObjectNInfo hb hgr)) fun h =>
      hread h.1
  have hfits : (K.marshal m).length ≤ maxMetaBytes := by simpa [readable, hrec] using hread
  rcases Nat.lt_or_ge kc.nextPartNumber contents.length with hj | hj
  · have hd := h.wholeGet hin hb hargs hslash hplain hs hfits hj
    constructor
    · exact fun hget => ⟨hread, hj, hd.unique hget⟩
    · rintro ⟨-, -, heq⟩
      exact heq ▸ hd
  · refine iff_of_false ?_ fun h => absurd h.2.1 (by omega)
    rintro ⟨gr, hgr, hd⟩
    rw [h.open_whole hb hargs hslash hplain hfits kc] at hgr
    cases hgr
    exact MultipartObject.not_drains_beyond hd rfl h.flatten_pos h hfits hj

end

/-- After any history of the pool, a whole GET on a free connection is decided by the counter the
history left there; after a history whose sessions all ended with the counter at zero it returns the
parts from the first to the last. -/
theorem wholeGet_after_run (events : List PoolEvent) {i : Nat}
    (hin : K.PartialGetInside) (hb : b ≠ [])
    (hargs : checkBucketAndObjectNames K b o = none) (hslash : hasSuffix o [slash] = false)
    (hobj : MultipartObject s (makeKey b o) m contents) (hplain : transformed m.entries = false)
    (hs : ∀ i, contents.flatten.length ≤ sizes i) (hfree : (runPool K events i).session = none) :
    (GetReturns K s (runPool K events i).client b o none sizes contents.flatten ↔
        readable K s (makeKey b o) = true ∧
          (runPool K events i).client.nextPartNumber < contents.length ∧
          (contents.rotate (runPool K events i).client.nextPartNumber).flatten = contents.flatten) ∧
      (initPool.SettledRun K events → readable K s (makeKey b o) = true →
        GetReturns K s (runPool K events i).client b o none sizes contents.flatten) := by
  have hiff := hobj.wholeGet_iff hin hb hargs hslash hplain hs (runPool K events i).client
  refine ⟨hiff, fun hrun hread => hiff.2 ?_⟩
  have hzero : (runPool K events i).client.nextPartNumber = 0 := initPool_idle.run hrun i hfree
  rw [hzero]
  exact ⟨hread, length_pos_iff.2 hobj.nonempty, by rw [rotate_zero]⟩

def unreadGet (s : Store) : List PoolEvent :=
  [.getObjectNInfo s 0 (lit "bkt") (lit "a") none (0, 0), .close 0]

def abandonedGet (s : Store) : List PoolEvent :=
  [.getObjectNInfo s 0 (lit "bkt") (lit "a") none (0, 0), .read s 0 1048577, .close 0]

theorem step_open_twoParts
    (h : MultipartObject s (makeKey (lit "bkt") (lit "a")) twoPartMeta [firstData, [2]]) :
    (initPool 0).step (uploadDrive (lit "a")) (.getObjectNInfo s 0 (lit "bkt") (lit "a")
      none (0, 0)) =
      ⟨⟨makeKey (lit "bkt") (lit "a"), 0, 0⟩, some ⟨1048577, false⟩⟩ := by
  have hopen := h.open_whole (K := uploadDrive (lit "a")) (by decide) (by decide)
    (by decide) (by decide) twoPartMeta_fits freshClient
  rw [twoParts_length] at hopen
  unfold PooledConn.step
  dsimp only
  rw [if_pos ⟨by decide, rfl⟩]
  rw [show (initPool 0).client = freshClient from rfl, hopen]
  rfl

theorem wholeGet_after_unread :
    ∃ s info, completeMultipartUpload (uploadDrive (lit "a")) twoPartStore (lit "bkt")
      (lit "a") (lit "u1")
        [firstPart.listed, lastPart.listed] = (s, .ok info) ∧
      GetReturns (uploadDrive (lit "a")) s (runPool (uploadDrive (lit "a")) (unreadGet s) 0).client
        (lit "bkt") (lit "a") none (fun _ => 1048577) [firstData, [2]].flatten := by
  obtain ⟨s, info, hc, hobj⟩ := twoParts_complete
  obtain ⟨v, hrec⟩ := hobj.record
  have hread : readable (uploadDrive (lit "a")) s (makeKey (lit "bkt") (lit "a")) = true :=
    readable_eq_true_iff.2 ⟨_, v, hrec, twoPartMeta_fits⟩
  have hsettled : initPool.SettledRun (uploadDrive (lit "a")) (unreadGet s) := by
    refine ⟨fun hs => absurd rfl hs, fun _ _ => ?_, trivial⟩
    show (Pool.step _ initPool _ 0).client.nextPartNumber = 0
    rw [Pool.step, show PoolEvent.conn _ = 0 from rfl, Function.update_self,
      step_open_twoParts hobj]
  exact ⟨s, info, hc, (wholeGet_after_run (unreadGet s) (memoryDrive_partialGetInside _)
    (by decide) (by decide) (by decide) hobj (by decide)
    (fun _ => twoParts_length.le) rfl).2 hsettled hread⟩

/-- After a GET that was abandoned behind the first part, the next one starts with the second
part. -/
theorem wholeGet_after_abandoned :
    ∃ s info, completeMultipartUpload (uploadDrive (lit "a")) twoPartStore (lit "bkt")
      (lit "a") (lit "u1")
        [firstPart.listed, lastPart.listed] = (s, .ok info) ∧
      MultipartObject s (makeKey (lit "bkt") (lit "a")) twoPartMeta [firstData, [2]] ∧
      (runPool (uploadDrive (lit "a")) (abandonedGet s) 0).session = none ∧
      GetReturns (uploadDrive (lit "a")) s
        (runPool (uploadDrive (lit "a")) (abandonedGet s) 0).client
        (lit "bkt") (lit "a") none (fun _ => 1048577) (2 :: firstData) ∧
      ¬ GetReturns (uploadDrive (lit "a")) s
        (runPool (uploadDrive (lit "a")) (abandonedGet s) 0).client
        (lit "bkt") (lit "a") none (fun _ => 1048577) (firstData ++ [2]) := by
  obtain ⟨s, info, hc, hobj⟩ := twoParts_complete
  -- one read delivers the first part and moves the counter to the second
  have hread : (GetObjectReader.limited ⟨makeKey (lit "bkt") (lit "a"), 0, 0⟩ 1048577).read
      (uploadDrive (lit "a")) s 1048577 =
      (.limited ⟨makeKey (lit "bkt") (lit "a"), 1, 0⟩ 1, .ok (some firstData)) := by
    have hclient := MultipartObject.read_memoryDrive (c := ⟨makeKey (lit "bkt") (lit "a"), 0, 0⟩)
      hobj
      twoPartMeta_fits (w := firstData) rfl (n := 1048577) (by decide)
    rw [drop_zero, take_of_length_le (by rw [firstData_length]; decide)] at hclient
    exact read_limited_some_iff.2 ⟨by decide, by rw [firstData_length]; decide, _, hclient, by
      rw [firstData_length]; rfl⟩
  have hpool : runPool (uploadDrive (lit "a")) (abandonedGet s) 0 =
      ⟨⟨makeKey (lit "bkt") (lit "a"), 1, 0⟩, none⟩ := by
    have hfilter : (abandonedGet s).filter (fun ev => ev.conn = 0) = abandonedGet s := by
      simp [abandonedGet, PoolEvent.conn]
    rw [runPool, foldl_step_apply, hfilter, abandonedGet, foldl_cons, step_open_twoParts hobj]
    simp only [foldl_cons, foldl_nil, PooledConn.step, hread]
  have hget : GetReturns (uploadDrive (lit "a")) s ⟨makeKey (lit "bkt") (lit "a"), 1,
    0⟩ (lit "bkt") (lit "a")
      none (fun _ => 1048577) ([firstData, [2]].rotate 1).flatten :=
    hobj.wholeGet (memoryDrive_partialGetInside _) (by decide) (by decide)
      (by decide) (by decide) (fun _ => twoParts_length.le) twoPartMeta_fits (by decide)
  have hrotate : ([firstData, [2]].rotate 1).flatten = 2 :: firstData := by
    show [[2], firstData].flatten = _
    rw [flatten_cons, flatten_cons, flatten_nil, append_nil]
    rfl
  rw [hrotate] at hget
  refine ⟨s, info, hc, hobj, by rw [hpool], by rw [hpool]; exact hget, fun h => ?_⟩
  rw [hpool] at h
  have hhead := congrArg List.head? (hget.unique h)
  rw [List.head?_append_of_ne_nil _ (by rw [← length_pos_iff, firstData_length]; decide), firstData,
    List.head?_replicate] at hhead
  exact absurd hhead (by decide)

end S3Kinetic
