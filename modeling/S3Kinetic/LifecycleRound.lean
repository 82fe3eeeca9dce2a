import S3Kinetic.Lifecycle

/-!
# Rounds of the lifecycle (`daily-lifecycle-ops.go`)

A round walks over the objects of each bucket that has a configuration, below the longest common
prefix of its rules, and asks to delete those that are due, in batches. `lifecycleRound_exact`: it
asks for exactly these, each once.
-/

namespace S3Kinetic.Lifecycle

open ByteString List

/-! ## The longest common prefix -/

/-- The loop over the bytes of `min` and `max`, which are equal so far. -/
def lcpLoop : Bytes → Bytes → Bytes
  | [], _ => []
  | x :: min, [] => x :: min
  | x :: min, y :: max => if x ≠ y then [] else x :: lcpLoop min max

def minMax (m : Bytes × Bytes) (s : Bytes) : Bytes × Bytes :=
  if s < m.1 then (s, m.2) else if s > m.2 then (m.1, s) else m

def lcp : List Bytes → Bytes
  | [] => []
  | [s] => s
  | s :: l => let m := l.foldl minMax (s, s); lcpLoop m.1 m.2

theorem lcpLoop_prefix {a b : Bytes} (h : a ≤ b) : lcpLoop a b <+: a ∧ lcpLoop a b <+: b := by
  induction a generalizing b with
  | nil => simp [lcpLoop]
  | cons x a ih =>
    cases b with
    | nil => exact absurd h (not_le.2 (nil_lt_cons x a))
    | cons y b =>
      rw [lcpLoop]
      split_ifs with hxy
      · simp
      · obtain rfl : x = y := not_not.1 hxy
        have hab : a ≤ b := (cons_le_cons_iff.1 h).elim (fun h => absurd h (lt_irrefl x)) And.right
        exact ⟨cons_prefix_cons.2 ⟨rfl, (ih hab).1⟩, cons_prefix_cons.2 ⟨rfl, (ih hab).2⟩⟩

theorem prefix_lcpLoop {p a b : Bytes} (ha : p <+: a) (hb : p <+: b) : p <+: lcpLoop a b := by
  induction p generalizing a b with
  | nil => exact nil_prefix
  | cons z p ih =>
    obtain ⟨a, rfl⟩ := ha
    obtain ⟨b, rfl⟩ := hb
    rw [cons_append, cons_append, lcpLoop, if_neg (by simp)]
    exact cons_prefix_cons.2 ⟨rfl, ih (prefix_append p a) (prefix_append p b)⟩

theorem foldl_minMax {m : Bytes × Bytes} (hm : m.1 ≤ m.2) (l : List Bytes) :
    (l.foldl minMax m).1 ∈ m.1 :: l ∧ (l.foldl minMax m).2 ∈ m.2 :: l ∧
      (l.foldl minMax m).1 ≤ m.1 ∧ m.2 ≤ (l.foldl minMax m).2 ∧
      ∀ s ∈ l, (l.foldl minMax m).1 ≤ s ∧ s ≤ (l.foldl minMax m).2 := by
  induction l generalizing m with
  | nil => simp
  | cons s l ih =>
    rw [foldl_cons]
    obtain ⟨h₁, h₂, hcases⟩ : (minMax m s).1 ≤ s ∧ s ≤ (minMax m s).2 ∧
        ((minMax m s).1 = s ∧ s ≤ m.1 ∧ (minMax m s).2 = m.2 ∨ (minMax m s).1 = m.1 ∧
          (minMax m s).2 = s ∧ m.2 ≤ s ∨
          minMax m s = m) := by
      rw [minMax]
      split_ifs with hlt hgt
      · exact ⟨le_rfl, hlt.le.trans hm, .inl ⟨rfl, hlt.le, rfl⟩⟩
      · exact ⟨not_lt.1 hlt, le_rfl, .inr (.inl ⟨rfl, rfl, le_of_lt hgt⟩)⟩
      · exact ⟨not_lt.1 hlt, not_lt.1 hgt, .inr (.inr rfl)⟩
    obtain ⟨hmin, hmax, hle, hge, hall⟩ := ih (h₁.trans h₂)
    have hcons : ∀ s' ∈ s :: l, (l.foldl minMax (minMax m s)).1 ≤ s' ∧
        s' ≤ (l.foldl minMax (minMax m s)).2 :=
      forall_mem_cons.2 ⟨⟨hle.trans h₁, h₂.trans hge⟩, hall⟩
    rcases hcases with ⟨he₁, hs, he₂⟩ | ⟨he₁, he₂, hs⟩ | he
    · rw [he₁] at hmin hle
      rw [he₂] at hmax hge
      exact ⟨mem_cons_of_mem _ hmin, by simp only [mem_cons] at hmax ⊢; tauto,
        hle.trans hs, hge, hcons⟩
    · rw [he₁] at hmin hle
      rw [he₂] at hmax hge
      exact ⟨by simp only [mem_cons] at hmin ⊢; tauto, mem_cons_of_mem _ hmax, hle,
        hs.trans hge, hcons⟩
    · rw [he] at hmin hmax hle hge hcons ⊢
      exact ⟨by simp only [mem_cons] at hmin ⊢; tauto, by simp only [mem_cons] at hmax ⊢; tauto,
        hle, hge, hcons⟩

theorem prefix_lcp_iff {l : List Bytes} (hl : l ≠ []) (p : Bytes) :
    p <+: lcp l ↔ ∀ s ∈ l, p <+: s := by
  match l with
  | [s] => simp [lcp]
  | s :: s' :: l =>
    rw [lcp]
    · obtain ⟨hmin, hmax, hle, hge, hall⟩ := foldl_minMax (m := (s, s)) le_rfl (s' :: l)
      obtain ⟨hpmin, hpmax⟩ := lcpLoop_prefix (hle.trans hge)
      have hbound : ∀ t ∈ s :: s' :: l, _ ≤ t ∧ t ≤ _ := forall_mem_cons.2 ⟨⟨hle, hge⟩, hall⟩
      constructor
      · intro hp t ht
        obtain ⟨rest, hrest⟩ := hp.trans hpmax
        exact prefix_of_le_append ((prefix_le (hp.trans hpmin)).trans (hbound t ht).1)
          (hrest ▸ (hbound t ht).2)
      · exact fun h => prefix_lcpLoop (h _ hmin) (h _ hmax)
    · simp

/-! ## The round -/

structure ObjectInfo where
  name : Bytes
  userTags : Bytes
  modTime : Int
  deriving DecidableEq

def maxObjectList : Nat := 10000

/-- The inner loop over the channel: the objects to delete, and what the channel still holds. -/
def collect (due : ObjectInfo → Bool) : List ObjectInfo → List Bytes → List Bytes × List ObjectInfo
  | [], objects => (objects, [])
  | obj :: objInfoCh, objects =>
    let objects := if due obj then objects ++ [obj.name] else objects
    if objects.length = maxObjectList then (objects, objInfoCh) else collect due objInfoCh objects

/-- One batch takes the due objects off the front of the channel, and all of it if it is not
full. -/
theorem collect_eq (due : ObjectInfo → Bool) (ch : List ObjectInfo) {objects : List Bytes}
    (hlt : objects.length < maxObjectList) :
    ∃ taken, ch = taken ++ (collect due ch objects).2 ∧
      (collect due ch objects).1 = objects ++ (taken.filter due).map ObjectInfo.name ∧
      (collect due ch objects).1.length ≤ maxObjectList ∧
      ((collect due ch objects).1.length = maxObjectList ∨ (collect due ch objects).2 = []) := by
  induction ch generalizing objects with
  | nil => exact ⟨[], rfl, by simp [collect], hlt.le, .inr rfl⟩
  | cons obj ch ih =>
    rw [collect]
    have hnext : (if due obj then objects ++ [obj.name] else objects) =
        objects ++ ([obj].filter due).map ObjectInfo.name := by
      cases hdue : due obj <;> simp [hdue]
    have hlen : (objects ++ ([obj].filter due).map ObjectInfo.name).length ≤ maxObjectList := by
      rw [← hnext]
      split_ifs
      · simpa using hlt
      · exact hlt.le
    simp only [hnext]
    split_ifs with hfull
    · exact ⟨[obj], rfl, rfl, hlen, .inl hfull⟩
    · obtain ⟨taken, hch, hobjects, hrest⟩ := ih (lt_of_le_of_ne hlen hfull)
      refine ⟨[obj] ++ taken, by rw [append_assoc, ← hch]; rfl, ?_, hrest⟩
      rw [hobjects, append_assoc, ← map_append, ← filter_append]

theorem collect_nil_eq (due : ObjectInfo → Bool) (ch : List ObjectInfo) :
    ∃ taken, ch = taken ++ (collect due ch []).2 ∧ (collect due ch []).1 = (taken.filter due).map
      ObjectInfo.name ∧
      (collect due ch []).1.length ≤ maxObjectList ∧ ((collect due ch []).1 = [] →
        (collect due ch []).2 = []) := by
  have hlt : ([] : List Bytes).length < maxObjectList := by decide
  obtain ⟨taken, hch, hobjects, hle, hfull⟩ := collect_eq due ch hlt
  exact ⟨taken, hch, hobjects, hle, fun hnil => hfull.resolve_left (by simp [hnil, maxObjectList])⟩

theorem collect_length_lt {due : ObjectInfo → Bool} {ch : List ObjectInfo}
    (h : (collect due ch []).1 ≠ []) :
    (collect due ch []).2.length < ch.length := by
  obtain ⟨taken, hch, hobjects, -⟩ := collect_nil_eq due ch
  have htaken : 0 < taken.length := length_pos_iff.2 fun hnil => h (by simp [hobjects, hnil])
  have := congrArg length hch
  rw [length_append] at this
  omega

/-- The calls of `DeleteObjects` for a bucket: the outer loop. -/
def deleteBatches (due : ObjectInfo → Bool) (objInfoCh : List ObjectInfo) : List (List Bytes) :=
  if _h : (collect due objInfoCh []).1 = [] then []
  else (collect due objInfoCh []).1 :: deleteBatches due (collect due objInfoCh []).2
termination_by objInfoCh.length
decreasing_by exact collect_length_lt _h

theorem deleteBatches_spec (due : ObjectInfo → Bool) (ch : List ObjectInfo) :
    (deleteBatches due ch).flatten = (ch.filter due).map ObjectInfo.name ∧
      ∀ batch ∈ deleteBatches due ch, batch ≠ [] ∧ batch.length ≤ maxObjectList := by
  induction hn : ch.length using Nat.strong_induction_on generalizing ch with
  | _ n ih =>
    obtain ⟨taken, hch, hobjects, hle, hend⟩ := collect_nil_eq due ch
    rw [deleteBatches]
    split_ifs with hnil
    · rw [hend hnil, append_nil] at hch
      rw [hch, ← hobjects, hnil]
      simp
    · obtain ⟨hflat, hall⟩ := ih _ (hn ▸ collect_length_lt hnil) _ rfl
      refine ⟨?_, forall_mem_cons.2 ⟨⟨hnil, hle⟩, hall⟩⟩
      conv_rhs => rw [hch]
      rw [flatten_cons, hflat, hobjects, filter_append, map_append]

/-- What a round works with. An object is looked at at a time of its own. -/
structure Round where
  buckets : List Bytes
  config : Bytes → Option (List Rule)
  /-- What `Walk` sends on the channel; an error is `none`. -/
  walk : Bytes → Bytes → Option (List ObjectInfo)
  now : Bytes → ObjectInfo → Int

namespace Round

variable (E : Round)

/-- `ComputeAction` is `DeleteAction`. -/
def due (b : Bytes) (l : List Rule) (obj : ObjectInfo) : Bool :=
  computeAction l obj.name obj.userTags obj.modTime (E.now b obj) = .delete

def commonPrefix (l : List Rule) : Bytes := lcp (l.map Rule.pfx)

/-- The loop over the buckets: the calls of `DeleteObjects`, and whether it ends without an
error. -/
def lifecycleRound : List Bytes → List (Bytes × List Bytes) × Bool
  | [] => ([], true)
  | b :: bs =>
    match E.config b with
    | none => lifecycleRound bs
    | some l =>
      match E.walk b (commonPrefix l) with
      | none => ([], false)
      | some objInfoCh =>
        ((deleteBatches (E.due b l) objInfoCh).map (b, ·) ++ (lifecycleRound bs).1,
          (lifecycleRound bs).2)

def asked (calls : List (Bytes × List Bytes)) (b : Bytes) : List Bytes :=
  (calls.filter (·.1 = b)).flatMap Prod.snd

/-- The objects of a bucket to delete. -/
def dueObjects (content : Bytes → List ObjectInfo) (b : Bytes) : List Bytes :=
  match E.config b with
  | none => []
  | some l => ((content b).filter (E.due b l)).map ObjectInfo.name

/-- `Walk` enumerates the objects of a bucket below a prefix, each once. -/
def Walks (content : Bytes → List ObjectInfo) : Prop :=
  ∀ b p, ∃ objs, E.walk b p = some objs ∧ objs.Perm ((content b).filter fun obj => p <+: obj.name)

variable {E} {content : Bytes → List ObjectInfo} {b : Bytes} {l : List Rule}

theorem commonPrefix_prefix {r : Rule} (hr : r ∈ l) {name : Bytes} (h : r.pfx <+: name) :
    commonPrefix l <+: name :=
  ((prefix_lcp_iff (ne_nil_of_mem (mem_map_of_mem hr)) _).1 (prefix_refl _) _
    (mem_map_of_mem hr)).trans h

theorem commonPrefix_of_due {obj : ObjectInfo} (h : E.due b l obj = true) :
    commonPrefix l <+: obj.name := by
  have hdelete := of_decide_eq_true h
  have hmod : obj.modTime ≠ zeroTime := fun hzero => by simp [computeAction, hzero] at hdelete
  rw [computeAction_eq_delete_iff hmod] at hdelete
  by_cases hname : obj.name = []
  · rw [hname, filterRuleActions_nil] at hdelete
    exact absurd hdelete (not_wrappedDue_zero _ _)
  rcases filterRuleActions_cases hname l with ⟨r, hr, happ, -⟩ | ⟨-, hzero⟩
  · exact commonPrefix_prefix hr happ.2.1
  · rw [hzero] at hdelete
    exact absurd hdelete (not_wrappedDue_zero _ _)

theorem asked_append (calls calls' : List (Bytes × List Bytes)) :
    asked (calls ++ calls') b = asked calls b ++ asked calls' b := by
  simp [asked]

theorem asked_map (b' : Bytes) (batches : List (List Bytes)) :
    asked (batches.map (b', ·)) b = if b' = b then batches.flatten else [] := by
  by_cases h : b' = b
  · simp [asked, h, filter_map, Function.comp_def, flatMap_def]
  · simp [asked, h, filter_map, Function.comp_def]

theorem lifecycleRound_spec (hwalk : E.Walks content) {bs : List Bytes} (hbs : bs.Nodup) :
    (E.lifecycleRound bs).2 = true ∧
      ∀ b, (asked (E.lifecycleRound bs).1 b).Perm (if b ∈ bs then E.dueObjects content b
        else []) := by
  induction bs with
  | nil => simp [lifecycleRound, asked]
  | cons b' bs ih =>
    obtain ⟨hnot, hbs⟩ := nodup_cons.1 hbs
    obtain ⟨hok, hasked⟩ := ih hbs
    rw [lifecycleRound]
    cases hconfig : E.config b' with
    | none =>
      refine ⟨hok, fun b => ?_⟩
      by_cases hb : b = b'
      · have hnone : E.dueObjects content b = [] := by rw [hb, dueObjects, hconfig]
        simpa [hnone] using hasked b
      · simpa [hb] using hasked b
    | some l =>
      obtain ⟨objs, hobjs, hperm⟩ := hwalk b' (commonPrefix l)
      simp only [hobjs]
      refine ⟨hok, fun b => ?_⟩
      rw [asked_append, asked_map]
      by_cases hb : b' = b
      · subst hb
        have hrest := hasked b'
        rw [if_neg hnot] at hrest
        rw [if_pos rfl, hrest.eq_nil, append_nil, (deleteBatches_spec _ _).1, if_pos mem_cons_self,
          dueObjects, hconfig]
        refine ((hperm.filter _).map _).trans (.of_eq ?_)
        rw [filter_filter]
        congr 1
        refine filter_congr fun obj _ => ?_
        cases hdue : E.due b' l obj with
        | false => simp
        | true => simpa using commonPrefix_of_due hdue
      · simpa [hb, Ne.symm hb] using hasked b

end Round

/-- A round with configurations asks to delete exactly the due objects of the buckets that it lists,
each once. A string is a prefix of `lcp` exactly if it is a common prefix, and so the prefix of a
walk is one of every name that a rule matches. -/
theorem lifecycleRound_exact (E : Round) (content : Bytes → List ObjectInfo)
    (hwalk : E.Walks content)
    (hnames : ∀ b, ((content b).map ObjectInfo.name).Nodup) (hbuckets : E.buckets.Nodup) :
    (E.lifecycleRound E.buckets).2 = true ∧
    (∀ b ∈ E.buckets, ∀ l, E.config b = some l →
      (Round.asked (E.lifecycleRound E.buckets).1 b).Nodup ∧
      (∀ name, name ∈ Round.asked (E.lifecycleRound E.buckets).1 b ↔
        ∃ obj ∈ content b, obj.name = name ∧
        computeAction l obj.name obj.userTags obj.modTime (E.now b obj) = .delete) ∧
      ∀ r ∈ l, ∀ name, r.pfx <+: name → lcp (l.map Rule.pfx) <+: name) ∧
    (∀ b, b ∉ E.buckets ∨ E.config b = none → Round.asked (E.lifecycleRound E.buckets).1 b = []) ∧
    ∀ strings, strings ≠ [] → ∀ p, p <+: lcp strings ↔ ∀ s ∈ strings, p <+: s := by
  obtain ⟨hok, hasked⟩ := Round.lifecycleRound_spec hwalk hbuckets
  refine ⟨hok, fun b hb l hl => ?_, fun b hb => ?_, fun strings => prefix_lcp_iff⟩
  · have hperm := hasked b
    rw [if_pos hb, Round.dueObjects, hl] at hperm
    refine ⟨hperm.nodup_iff.2 ((hnames b).sublist (filter_sublist.map _)), fun name => ?_,
        fun r hr name h =>
      Round.commonPrefix_prefix hr h⟩
    rw [hperm.mem_iff]
    simp only [mem_map, mem_filter, Round.due, decide_eq_true_eq]
    exact exists_congr fun obj => by tauto
  · have hperm := hasked b
    have hnil : (if b ∈ E.buckets then E.dueObjects content b else []) = [] := by
      rcases hb with hb | hb
      · exact if_neg hb
      · rw [Round.dueObjects, hb, ite_self]
    rw [hnil] at hperm
    exact hperm.eq_nil

/-- Two objects below `logs/`, written on the first day and on the 21st, and one elsewhere. -/
def threeObjects : List ObjectInfo :=
  [⟨lit "logs/a", [], 0⟩, ⟨lit "logs/c", [], 20 * day⟩, ⟨lit "b", [], 0⟩]

/-- A round over one bucket with these objects. -/
def oneBucket (objects : List ObjectInfo) (now : Int) : Round where
  buckets := [lit "bkt"]
  config b := if b = lit "bkt" then some [logsRule [] 30] else none
  walk b p := some ((if b = lit "bkt" then objects else []).filter fun obj => p <+: obj.name)
  now _ _ := now

theorem lifecycleRound_oneBucket :
    lit "logs/a" ∈ Round.asked ((oneBucket threeObjects (31 * day)).lifecycleRound [lit "bkt"]).1
        (lit "bkt") ∧
      lit "logs/c" ∉ Round.asked
        ((oneBucket threeObjects (31 * day)).lifecycleRound [lit "bkt"]).1 (lit "bkt") := by
  have h := ((lifecycleRound_exact (oneBucket threeObjects (31 * day))
    (fun b => if b = lit "bkt" then threeObjects else []) (fun _ _ => ⟨_, rfl, .refl _⟩)
    (fun b => by by_cases hb : b = lit "bkt" <;> simp only [hb, if_true, if_false] <;> decide)
    (by decide)).2.1 (lit "bkt") (by decide) [logsRule [] 30] rfl).2.1
  refine ⟨(h _).2 ⟨⟨lit "logs/a", [], 0⟩, by decide, rfl, by decide⟩, fun hc => ?_⟩
  obtain ⟨obj, hobj, hname, hdue⟩ := (h _).1 hc
  revert obj
  decide

/-! ## Rounds after rounds -/

namespace Round

/-- What is left of the objects when the calls of a round have been served. -/
def remaining (E : Round) (content : Bytes → List ObjectInfo) (b : Bytes) : List ObjectInfo :=
  (content b).filter fun obj => obj.name ∉ asked (E.lifecycleRound E.buckets).1 b

/-- Every round walks over what the rounds before it have left. -/
def Follow : List Round → (Bytes → List ObjectInfo) → Prop
  | [], _ => True
  | E :: Es, content => E.Walks content ∧ E.buckets.Nodup ∧ Follow Es (E.remaining content)

/-- A round lists the bucket, and the object is due there. -/
def Expires (E : Round) (b : Bytes) (obj : ObjectInfo) : Prop :=
  b ∈ E.buckets ∧ ∃ l, E.config b = some l ∧ E.due b l obj = true

theorem mem_remaining {E : Round} {content : Bytes → List ObjectInfo} (hwalk : E.Walks content)
    (hnames : ∀ b, ((content b).map ObjectInfo.name).Nodup) (hbuckets : E.buckets.Nodup) {b : Bytes}
    {obj : ObjectInfo} :
    obj ∈ E.remaining content b ↔ obj ∈ content b ∧ ¬ E.Expires b obj := by
  rw [remaining, mem_filter, decide_eq_true_eq]
  refine and_congr_right fun hobj => not_congr ?_
  rw [((lifecycleRound_spec hwalk hbuckets).2 b).mem_iff, Expires, dueObjects]
  by_cases hb : b ∈ E.buckets
  · cases hl : E.config b with
    | none => simp [hb]
    | some l =>
      simp only [hb, if_true, true_and, mem_map, mem_filter, Option.some.injEq, exists_eq_left']
      constructor
      · rintro ⟨obj', ⟨hobj', hdue⟩, hname⟩
        rwa [← inj_on_of_nodup_map (hnames b) hobj' hobj hname]
      · exact fun hdue => ⟨obj, ⟨hobj, hdue⟩, rfl⟩
  · simp [hb]

end Round

/-- An object outlives a sequence of rounds exactly if it is due in none of them. -/
theorem lifecycleRounds_exact (Es : List Round) (content : Bytes → List ObjectInfo)
    (hfollow : Round.Follow Es content)
    (hnames : ∀ b, ((content b).map ObjectInfo.name).Nodup) (b : Bytes) (obj : ObjectInfo) :
    obj ∈ Es.foldl (fun content E => E.remaining content) content b ↔ obj ∈ content b ∧
      ∀ E ∈ Es, ¬ E.Expires b obj := by
  induction Es generalizing content with
  | nil => simp
  | cons E Es ih =>
    obtain ⟨hwalk, hbuckets, hrest⟩ := hfollow
    have hleft : ∀ b, ((E.remaining content b).map ObjectInfo.name).Nodup :=
      fun b => (hnames b).sublist (filter_sublist.map _)
    rw [foldl_cons, ih _ hrest hleft, Round.mem_remaining hwalk hnames hbuckets,
      forall_mem_cons, and_assoc]

/-- Of the three objects the first round takes the oldest and the second, three weeks later, the
other one below `logs/`. -/
theorem lifecycleRounds_oneBucket :
    let left := [oneBucket threeObjects (31 * day),
      oneBucket (threeObjects.drop 1) (51 * day)].foldl
      (fun content E => E.remaining content) (fun b => if b = lit "bkt" then threeObjects else [])
      (lit "bkt")
    ⟨lit "b", [], 0⟩ ∈ left ∧ ⟨lit "logs/c", [], 20 * day⟩ ∉ left := by
  have hremaining : (oneBucket threeObjects (31 * day)).remaining
      (fun b => if b = lit "bkt" then threeObjects else []) =
        fun b => if b = lit "bkt" then threeObjects.drop 1 else [] := by
    funext b
    by_cases hb : b = lit "bkt"
    · subst hb
      decide +kernel
    · simp [Round.remaining, hb]
  have h := lifecycleRounds_exact
    [oneBucket threeObjects (31 * day), oneBucket (threeObjects.drop 1) (51 * day)]
    (fun b => if b = lit "bkt" then threeObjects else [])
    ⟨fun _ _ => ⟨_, rfl, .refl _⟩, by decide, hremaining ▸ fun _ _ => ⟨_, rfl, .refl _⟩, by decide,
      trivial⟩
    (fun b => by by_cases hb : b = lit "bkt" <;> simp only [hb, if_true, if_false] <;> decide)
    (lit "bkt")
  refine ⟨(h _).2 ⟨by decide, ?_⟩, fun hc => ?_⟩
  · rintro E hE ⟨-, l, hl, hdue⟩
    rw [mem_cons, mem_singleton] at hE
    rcases hE with rfl | rfl <;> obtain rfl : [logsRule [] 30] = l := Option.some.inj hl <;>
      exact absurd hdue (by decide)
  · exact ((h _).1 hc).2 _ (mem_cons_of_mem _ (mem_singleton_self _))
      ⟨by decide, [logsRule [] 30], rfl, by decide⟩

end S3Kinetic.Lifecycle
