import S3Kinetic.Names
import S3Kinetic.WildcardSimple
import S3Kinetic.Lib.OrdMap

/-!
# Routing of notifications (`pkg/event`)

A queue of the notification configuration names events, a prefix and a suffix; its filter becomes
one wildcard pattern, and the rules map stores for every event and pattern the targets to tell.
`RulesMap.Describes` says which triples of event, pattern and target a map holds: it is followed
through every operation that builds or changes one. An event that a map of the code does not have
has no rules here.
-/

namespace S3Kinetic.Event

open ByteString Utf8 Glob List

inductive Name
  | objectAccessedAll
  | objectAccessedGet
  | objectAccessedGetRetention
  | objectAccessedGetLegalHold
  | objectAccessedHead
  | objectCreatedAll
  | objectCreatedCompleteMultipartUpload
  | objectCreatedCopy
  | objectCreatedPost
  | objectCreatedPut
  | objectCreatedPutRetention
  | objectCreatedPutLegalHold
  | objectRemovedAll
  | objectRemovedDelete
  deriving DecidableEq

/-- The events a group event stands for. -/
def Name.expand : Name → List Name
  | .objectAccessedAll => [.objectAccessedGet, .objectAccessedHead, .objectAccessedGetRetention,
    .objectAccessedGetLegalHold]
  | .objectCreatedAll =>
    [.objectCreatedCompleteMultipartUpload, .objectCreatedCopy, .objectCreatedPost,
      .objectCreatedPut, .objectCreatedPutRetention, .objectCreatedPutLegalHold]
  | .objectRemovedAll => [.objectRemovedDelete]
  | name => [name]

structure TargetID where
  id : Bytes
  name : Bytes
  deriving DecidableEq

/-! ## Patterns -/

def star : UInt8 := 42

/-- `strings.Replace(s, "**", "*", -1)`. -/
def replaceStars : Bytes → Bytes
  | a :: b :: s =>
    if a = star ∧ b = star then star :: replaceStars s else a :: replaceStars (b :: s)
  | s => s

def newPattern (pre suf : Bytes) : Bytes :=
  let front := if pre = [] then [] else if hasSuffix pre [star] then pre else pre ++ [star]
  let back := if suf = [] then [] else if hasPrefix suf [star] then suf else star :: suf
  replaceStars (front ++ back)

structure FilterRule where
  name : Bytes
  value : Bytes

def filterValue (name : Bytes) (rules : List FilterRule) : Bytes :=
  rules.foldl (fun value rule => if rule.name = name then rule.value else value) []

/-- `FilterRuleList.Pattern`. -/
def pattern (rules : List FilterRule) : Bytes :=
  newPattern (filterValue (lit "prefix") rules) (filterValue (lit "suffix") rules)

/-! ## Rules -/

abbrev Rules := OrdMap Bytes (Finset TargetID)

def Rules.targets (rules : Rules) (pattern : Bytes) : Finset TargetID := (rules.get? pattern).getD ∅

def Rules.add (rules : Rules) (pattern : Bytes) (targetID : TargetID) : Rules :=
  rules.insert pattern ({targetID} ∪ rules.targets pattern)

/-- `Rules.Match`. `none` is the panic of `MatchSimple`. -/
def Rules.matchObject (rules : Rules) (objectName : Bytes) : Option (Finset TargetID) :=
  rules.entries.foldlM (fun targetIDs e => (matchSimple e.1 objectName).map fun b =>
    if b then targetIDs ∪ e.2 else targetIDs) ∅

def Rules.union (rules rules2 : Rules) : Rules :=
  OrdMap.merge (fun targetIDSet old => old.getD ∅ ∪ targetIDSet) rules rules2

def Rules.difference (rules rules2 : Rules) : Rules :=
  rules.filterMap fun pattern targetIDSet =>
    let nv := targetIDSet \ rules2.targets pattern
    if nv = ∅ then none else some nv

abbrev RulesMap := Name → Rules

namespace RulesMap

/-- `add`, with the events of the list taken one after the other. -/
def addEvents (rulesMap : RulesMap) (eventNames : List Name) (pattern : Bytes)
    (targetID : TargetID) : RulesMap :=
  let rules := Rules.add ∅ pattern targetID
  (eventNames.flatMap Name.expand).foldl (fun m name =>
    Function.update m name ((m name).union rules)) rulesMap

def add (rulesMap rulesMap2 : RulesMap) : RulesMap := fun eventName =>
  (rulesMap2 eventName).union (rulesMap eventName)

def remove (rulesMap rulesMap2 : RulesMap) : RulesMap := fun eventName =>
  (rulesMap eventName).difference (rulesMap2 eventName)

def matchObject (rulesMap : RulesMap) (eventName : Name) (objectName : Bytes) :
    Option (Finset TargetID) :=
  (rulesMap eventName).matchObject objectName

end RulesMap

/-- The pattern of the rules: `*` where there is no filter. -/
def rulePattern (pattern : Bytes) : Bytes := if pattern = [] then [star] else pattern

def newRulesMap (eventNames : List Name) (pattern : Bytes) (targetID : TargetID) : RulesMap :=
  RulesMap.addEvents (fun _ => ∅) eventNames (rulePattern pattern) targetID

structure Queue where
  ruleList : List FilterRule
  events : List Name
  targetID : TargetID

def Queue.toRulesMap (q : Queue) : RulesMap := newRulesMap q.events (pattern q.ruleList) q.targetID

/-- `Config.ToRulesMap`. -/
def toRulesMap (queueList : List Queue) : RulesMap :=
  queueList.foldl (fun m queue => m.add queue.toRulesMap) fun _ => ∅

/-! ## The triples of a map -/

namespace Rules

variable {rules rules2 : Rules} {p : Bytes}

@[simp] theorem targets_empty : Rules.targets ∅ p = ∅ := rfl

theorem targets_add (q : Bytes) (t : TargetID) :
    (rules.add q t).targets p = if p = q then {t} ∪ rules.targets p else rules.targets p := by
  unfold targets add
  rw [OrdMap.get?_insert]
  by_cases h : p = q <;> simp [h, targets]

theorem targets_union : (rules.union rules2).targets p = rules.targets p ∪ rules2.targets p := by
  unfold targets union
  rw [OrdMap.get?_merge]
  cases rules2.get? p <;> simp

theorem mem_union : p ∈ rules.union rules2 ↔ p ∈ rules ∨ p ∈ rules2 := by
  unfold union
  simp only [OrdMap.mem_iff, OrdMap.get?_merge]
  cases rules2.get? p <;> simp

theorem targets_difference :
    (rules.difference rules2).targets p = rules.targets p \ rules2.targets p := by
  unfold difference
  rw [targets, OrdMap.get?_filterMap]
  unfold targets
  cases hp : rules.get? p with
  | none => simp
  | some set =>
    simp only [Option.bind_some]
    split_ifs with h
    · exact h.symm
    · rfl

end Rules

namespace RulesMap

def Holds (m : RulesMap) (e : Name) (p : Bytes) (t : TargetID) : Prop := t ∈ (m e).targets p

/-- A map holds exactly the triples of `D`, and no pattern without a target of `D`. -/
structure Describes (m : RulesMap) (D : Name → Bytes → TargetID → Prop) : Prop where
  holds : ∀ e p t, m.Holds e p t ↔ D e p t
  keys : ∀ e p, p ∈ m e → ∃ t, D e p t

variable {m m2 : RulesMap} {D D2 : Name → Bytes → TargetID → Prop} {e : Name} {p : Bytes}
    {t : TargetID}

theorem holds_add : (m.add m2).Holds e p t ↔ m.Holds e p t ∨ m2.Holds e p t := by
  unfold Holds add
  rw [Rules.targets_union, Finset.mem_union, or_comm]

theorem holds_remove : (m.remove m2).Holds e p t ↔ m.Holds e p t ∧ ¬ m2.Holds e p t := by
  unfold Holds remove
  rw [Rules.targets_difference, Finset.mem_sdiff]

theorem describes_empty : Describes (fun _ => ∅) fun _ _ _ => False :=
  ⟨fun _ _ _ => by simp [Holds], fun _ p h => by simp [OrdMap.mem_iff] at h⟩

theorem Describes.congr (h : m.Describes D) (hD : ∀ e p t, D e p t ↔ D2 e p t) : m.Describes D2 :=
  ⟨fun e p t => (h.holds e p t).trans (hD e p t),
    fun e p hp => (h.keys e p hp).imp fun t => (hD e p t).1⟩

theorem Describes.add (h : m.Describes D) (h2 : m2.Describes D2) :
    (m.add m2).Describes fun e p t => D e p t ∨ D2 e p t := by
  refine ⟨fun e p t => holds_add.trans (or_congr (h.holds e p t) (h2.holds e p t)),
    fun e p hp => ?_⟩
  rcases Rules.mem_union.1 hp with hp | hp
  · exact (h2.keys e p hp).imp fun _ => .inr
  · exact (h.keys e p hp).imp fun _ => .inl

theorem Describes.update (h : m.Describes D) (name : Name) (q : Bytes) (t' : TargetID) :
    Describes (Function.update m name ((m name).union (Rules.add ∅ q t'))) fun e p t =>
      D e p t ∨ e = name ∧ p = q ∧ t = t' := by
  have hold (e : Name) : Function.update m name ((m name).union (Rules.add ∅ q t')) e =
      if e = name then (m e).union (Rules.add ∅ q t') else m e := by
    by_cases he : e = name
    · rw [he, Function.update_self, if_pos rfl]
    · rw [Function.update_of_ne he, if_neg he]
  constructor
  · intro e p t
    rw [Holds, hold, ← h.holds]
    by_cases he : e = name
    · rw [if_pos he, Rules.targets_union, Rules.targets_add]
      by_cases hp : p = q <;> simp [he, hp, Holds, or_comm]
    · simp [he, Holds]
  · intro e p hp
    rw [hold] at hp
    by_cases he : e = name
    · rw [if_pos he, Rules.mem_union] at hp
      rcases hp with hp | hp
      · exact (h.keys e p hp).imp fun _ => .inl
      · rw [Rules.add, OrdMap.mem_insert] at hp
        rcases hp with hp | hp
        · exact ⟨t', .inr ⟨he, hp, rfl⟩⟩
        · simp [OrdMap.mem_iff] at hp
    · rw [if_neg he] at hp
      exact (h.keys e p hp).imp fun _ => .inl

theorem Describes.addEvents (h : m.Describes D) (eventNames : List Name) (q : Bytes)
    (t' : TargetID) :
    (m.addEvents eventNames q t').Describes fun e p t =>
      D e p t ∨ e ∈ eventNames.flatMap Name.expand ∧ p = q ∧ t = t' := by
  unfold RulesMap.addEvents
  simp only
  generalize eventNames.flatMap Name.expand = names
  induction names generalizing m D with
  | nil => exact h.congr (by simp)
  | cons name names ih =>
    refine (ih (h.update name q t')).congr fun e p t => ?_
    rw [mem_cons, or_assoc, or_and_right]

end RulesMap

/-- The triples of a queue. -/
def Queue.Routes (q : Queue) (e : Name) (p : Bytes) (t : TargetID) : Prop :=
  e ∈ q.events.flatMap Name.expand ∧ p = rulePattern (pattern q.ruleList) ∧ t = q.targetID

theorem Queue.toRulesMap_describes (q : Queue) : q.toRulesMap.Describes q.Routes :=
  (RulesMap.describes_empty.addEvents q.events (rulePattern (pattern q.ruleList)) q.targetID).congr
    fun _ _ _ => by rw [false_or, Queue.Routes]

theorem foldl_describes {m : RulesMap} {D : Name → Bytes → TargetID → Prop} (h : m.Describes D)
    (queueList : List Queue) :
    (queueList.foldl (fun m queue => m.add queue.toRulesMap) m).Describes fun e p t =>
      D e p t ∨ ∃ q ∈ queueList, q.Routes e p t := by
  induction queueList generalizing m D with
  | nil => exact h.congr (by simp)
  | cons q queueList ih =>
    refine (ih (h.add q.toRulesMap_describes)).congr fun e p t => ?_
    rw [or_assoc, exists_mem_cons_iff]

theorem toRulesMap_describes (queueList : List Queue) :
    (toRulesMap queueList).Describes fun e p t => ∃ q ∈ queueList, q.Routes e p t :=
  (foldl_describes RulesMap.describes_empty queueList).congr fun _ _ _ => by rw [false_or]

/-! ## What a pattern matches -/

structure Plain (s : Bytes) : Prop where
  valid : Valid s
  star : UInt8.ofNat starRune ∉ s
  question : UInt8.ofNat questionRune ∉ s

theorem plain_nil : Plain [] := ⟨rfl, by simp, by simp⟩

theorem Plain.map_tok {s : Bytes} (h : Plain s) : (runes s).map tok = (runes s).map .lit := by
  refine map_congr_left fun r hr => tok_of_ne ?_ ?_
  · rintro rfl
    exact h.question (h.valid.mem_of_ascii (by decide) hr)
  · rintro rfl
    exact h.star (h.valid.mem_of_ascii (by decide) hr)

theorem plain_filterValue {rules : List FilterRule} (h : ∀ r ∈ rules, Plain r.value)
    (name : Bytes) :
    Plain (filterValue name rules) := by
  have hfold : ∀ value, Plain value →
      Plain (rules.foldl (fun value rule => if rule.name = name then rule.value
          else value) value) := by
    induction rules with
    | nil => exact fun _ hv => hv
    | cons r rules ih =>
      intro value hv
      refine ih (fun r' hr' => h r' (mem_cons_of_mem r hr')) _ ?_
      simp only
      split_ifs
      · exact h r mem_cons_self
      · exact hv
  exact hfold [] plain_nil

theorem replaceStars_append {s : Bytes} (hs : star ∉ s) (t : Bytes) :
    replaceStars (s ++ t) = s ++ replaceStars t := by
  induction s with
  | nil => rfl
  | cons a s ih =>
    have ha : a ≠ star := fun h => hs (h ▸ mem_cons_self)
    have ih := ih fun h => hs (mem_cons_of_mem a h)
    cases hst : s ++ t with
    | nil => simp [append_eq_nil_iff.1 hst, replaceStars]
    | cons b r =>
      rw [cons_append, hst, replaceStars, if_neg (fun h => ha h.1), ← hst, ih, cons_append]

theorem replaceStars_star {t : Bytes} (ht : star ∉ t) : replaceStars (star :: t) = star :: t := by
  cases t with
  | nil => rfl
  | cons b t =>
    have hb : b ≠ star := fun h => ht (h ▸ mem_cons_self)
    have htail := replaceStars_append ht []
    rw [replaceStars, if_neg (fun h => hb h.2)]
    simpa [replaceStars] using htail

theorem rulePattern_newPattern {pre suf : Bytes} (hp : star ∉ pre) (hs : star ∉ suf) :
    rulePattern (newPattern pre suf) = pre ++ star :: suf := by
  have hend : hasSuffix pre [star] = false := by
    rw [← Bool.not_eq_true, hasSuffix, isSuffixOf_iff_suffix]
    rintro ⟨t, rfl⟩
    exact hp (by simp)
  have hstart : hasPrefix suf [star] = false := by
    rw [← Bool.not_eq_true, hasPrefix, isPrefixOf_iff_prefix]
    rintro ⟨t, rfl⟩
    exact hs (by simp)
  have hnil : replaceStars [star] = [star] := replaceStars_star not_mem_nil
  unfold newPattern
  simp only [hend, hstart, Bool.false_eq_true, if_false]
  by_cases hpre : pre = [] <;> by_cases hsuf : suf = []
  · subst hpre hsuf
    rfl
  · subst hpre
    rw [if_pos rfl, if_neg hsuf, nil_append, replaceStars_star hs, rulePattern, if_neg (by simp)]
  · subst hsuf
    rw [if_pos rfl, if_neg hpre, append_nil, replaceStars_append hp, hnil, rulePattern,
      if_neg (by simp)]
  · -- the star of the prefix and the star of the suffix become one
    have hdouble : replaceStars (star :: star :: suf) = star :: suf := by
      have htail := replaceStars_append hs []
      rw [replaceStars, if_pos ⟨rfl, rfl⟩]
      simpa [replaceStars] using htail
    rw [if_neg hpre, if_neg hsuf, append_assoc, replaceStars_append hp, cons_append, nil_append,
      hdouble, rulePattern, if_neg (by simp)]

def Fits (pre suf name : Bytes) : Prop :=
  hasPrefix name pre = true ∧ hasSuffix name suf = true ∧ pre.length + suf.length ≤ name.length

theorem fits_iff {pre suf name : Bytes} : Fits pre suf name ↔ ∃ mid, name = pre ++ mid ++ suf := by
  unfold Fits hasSuffix
  rw [hasPrefix_iff, isSuffixOf_iff_suffix]
  constructor
  · rintro ⟨⟨t, rfl⟩, hsuf, hlen⟩
    rw [length_append, Nat.add_le_add_iff_left] at hlen
    obtain ⟨mid, rfl⟩ := suffix_of_suffix_length_le hsuf (suffix_append pre t) hlen
    exact ⟨mid, by rw [append_assoc]⟩
  · rintro ⟨mid, rfl⟩
    refine ⟨⟨mid ++ suf, by rw [append_assoc]⟩, ⟨pre ++ mid, rfl⟩, ?_⟩
    simp only [length_append]
    omega

theorem matchSimple_pattern {pre suf name : Bytes} (hp : Plain pre) (hs : Plain suf)
    (hn : Valid name) :
    ∃ b, matchSimple (pre ++ star :: suf) name = some b ∧ (b = true ↔ Fits pre suf name) := by
  have hrunes : runes (pre ++ star :: suf) = runes pre ++ starRune :: runes suf := by
    rw [hp.valid.runes_append]
    exact congrArg (runes pre ++ ·) (runes_encodeRune_append (r := starRune) (.inl (by decide)) suf)
  have hmatch : Matches ((runes (pre ++ star :: suf)).map tok) (runes name) ↔
      Fits pre suf name := by
    rw [hrunes, map_append, map_cons, tok_star, hp.map_tok, hs.map_tok,
      matches_lits_append, fits_iff]
    simp only [matches_many, matches_map_lit]
    constructor
    · rintro ⟨_, hname, u, _, rfl, rfl⟩
      refine ⟨encode u, ?_⟩
      rw [← hn, hname, encode_append, encode_append, hp.valid, hs.valid, append_assoc]
    · rintro ⟨mid, rfl⟩
      have hmid : Valid mid := ((hp.valid.right (append_assoc pre mid suf ▸ hn)).split
        rfl hs.valid.head?_not_cont).1
      exact ⟨_, by rw [append_assoc, hp.valid.runes_append, hmid.runes_append], _, _, rfl, rfl⟩
  have hstuck : ¬ Stuck (runes (pre ++ star :: suf)) (runes name) := by
    rintro ⟨u, v, huv, -⟩
    have hq : questionRune ∈ runes pre ++ starRune :: runes suf := by rw [← hrunes, huv]; simp
    rcases mem_append.1 hq with hq | hq
    · exact hp.question (hp.valid.mem_of_ascii (by decide) hq)
    rcases mem_cons.1 hq with hq | hq
    · exact absurd hq (by decide)
    · exact hs.question (hs.valid.mem_of_ascii (by decide) hq)
  rw [matchSimple_eq]
  have hanswer := deepMatchRune_simple (runes (pre ++ star :: suf)) (runes name)
  generalize deepMatchRune true (runes (pre ++ star :: suf)) (runes name) = answer at hanswer
  cases hanswer with
  | found h => exact ⟨true, rfl, by simpa using hmatch.1 h⟩
  | panics h hs => exact absurd hs hstuck
  | rejects h _ => exact ⟨false, rfl, by simpa using mt hmatch.2 h⟩

theorem Rules.mem_matchObject {name : Bytes} {entries : List (Bytes × Finset TargetID)}
    (h : ∀ e ∈ entries, ∃ b, matchSimple e.1 name = some b) (ids : Finset TargetID) :
    ∃ ids', entries.foldlM (fun targetIDs e => (matchSimple e.1 name).map fun b =>
        if b then targetIDs ∪ e.2 else targetIDs) ids = some ids' ∧
      ∀ t, t ∈ ids' ↔ t ∈ ids ∨ ∃ e ∈ entries, matchSimple e.1 name = some true ∧ t ∈ e.2 := by
  induction entries generalizing ids with
  | nil => exact ⟨ids, rfl, by simp⟩
  | cons e entries ih =>
    obtain ⟨b, hb⟩ := h e mem_cons_self
    obtain ⟨ids', hids, hmem⟩ :=
      ih (fun e' he' => h e' (mem_cons_of_mem e he')) (if b then ids ∪ e.2 else ids)
    refine ⟨ids', by rw [foldlM_cons, hb]; exact hids, fun t => ?_⟩
    rw [hmem, exists_mem_cons_iff, hb]
    cases b <;> simp [or_assoc]

/-! ## Routing -/

/-- A queue is told of the event on the object. -/
def Queue.Told (q : Queue) (e : Name) (name : Bytes) : Prop :=
  (∃ e' ∈ q.events, e ∈ e'.expand) ∧
    Fits (filterValue (lit "prefix") q.ruleList) (filterValue (lit "suffix") q.ruleList) name

theorem Queue.matchSimple_rulePattern {q : Queue} {name : Bytes}
    (hq : ∀ r ∈ q.ruleList, Plain r.value) (hn : Valid name) :
    ∃ b, matchSimple (rulePattern (pattern q.ruleList)) name = some b ∧
      (b = true ↔ Fits (filterValue (lit "prefix") q.ruleList)
        (filterValue (lit "suffix") q.ruleList) name) := by
  have hp := plain_filterValue hq (lit "prefix")
  have hs := plain_filterValue hq (lit "suffix")
  rw [pattern, rulePattern_newPattern hp.star hs.star]
  exact matchSimple_pattern hp hs hn

theorem routing_exact (queueList : List Queue)
    (hplain : ∀ q ∈ queueList, ∀ r ∈ q.ruleList, Plain r.value) :
    (∀ (e : Name) (name : Bytes), Valid name →
      ∃ ids, (toRulesMap queueList).matchObject e name = some ids ∧
        ∀ t, t ∈ ids ↔ ∃ q ∈ queueList, q.targetID = t ∧ q.Told e name) ∧
    ∀ (other : RulesMap) (e : Name) (p : Bytes) (t : TargetID),
      (((toRulesMap queueList).add other).Holds e p t ↔ (toRulesMap queueList).Holds e p t ∨
        other.Holds e p t) ∧
      (((toRulesMap queueList).remove other).Holds e p t ↔ (toRulesMap queueList).Holds e p t ∧
        ¬ other.Holds e p t) := by
  refine ⟨fun e name hn => ?_, fun other e p t => ⟨RulesMap.holds_add, RulesMap.holds_remove⟩⟩
  have hdesc := toRulesMap_describes queueList
  have hanswer : ∀ x ∈ (toRulesMap queueList e).entries, ∃ b, matchSimple x.1 name = some b := by
    intro x hx
    obtain ⟨t, q, hq, -, hpat, -⟩ :=
      hdesc.keys e x.1 ((OrdMap.mem_iff _).2 ⟨x.2, OrdMap.get?_eq_some_iff.2 hx⟩)
    obtain ⟨b, hb, -⟩ := Queue.matchSimple_rulePattern (hplain q hq) hn
    exact ⟨b, hpat ▸ hb⟩
  obtain ⟨ids, hids, hmem⟩ := Rules.mem_matchObject hanswer ∅
  refine ⟨ids, hids, fun t => ?_⟩
  simp only [hmem, Finset.notMem_empty, false_or]
  constructor
  · rintro ⟨x, hx, hmatch, ht⟩
    have hholds : (toRulesMap queueList).Holds e x.1 t := by
      rw [RulesMap.Holds, Rules.targets, OrdMap.get?_eq_some_iff.2 hx]
      exact ht
    obtain ⟨q, hq, he, hpat, rfl⟩ := (hdesc.holds e x.1 t).1 hholds
    obtain ⟨b, hb, hfits⟩ := Queue.matchSimple_rulePattern (hplain q hq) hn
    rw [hpat, hb, Option.some.injEq] at hmatch
    exact ⟨q, hq, rfl, mem_flatMap.1 he, hfits.1 hmatch⟩
  · rintro ⟨q, hq, rfl, he, hfits⟩
    obtain ⟨b, hb, hiff⟩ := Queue.matchSimple_rulePattern (hplain q hq) hn
    have hholds := (hdesc.holds e _ _).2 ⟨q, hq, mem_flatMap.2 he, rfl, rfl⟩
    rw [RulesMap.Holds, Rules.targets] at hholds
    cases hset : (toRulesMap queueList e).get? (rulePattern (pattern q.ruleList)) with
    | none => simp [hset] at hholds
    | some set =>
      rw [hset] at hholds
      exact ⟨(_, set), OrdMap.get?_eq_some_iff.1 hset, by rw [hb, hiff.2 hfits], hholds⟩

/-- One queue for created objects under `a/` that end in `.c`. -/
def sourceQueue : Queue where
  ruleList := [⟨lit "prefix", lit "a/"⟩, ⟨lit "suffix", lit ".c"⟩]
  events := [.objectCreatedAll]
  targetID := ⟨lit "1", lit "webhook"⟩

theorem routing_sourceQueue :
    (∀ r ∈ sourceQueue.ruleList, Plain r.value) ∧
      ∃ ids, (toRulesMap [sourceQueue]).matchObject .objectCreatedPut (lit "a/x.c") = some ids ∧
        sourceQueue.targetID ∈ ids := by
  have hplain : ∀ r ∈ sourceQueue.ruleList, Plain r.value := by
    intro r hr
    simp only [sourceQueue, mem_cons, not_mem_nil, or_false] at hr
    rcases hr with rfl | rfl <;> exact ⟨by decide +kernel, by decide +kernel, by decide +kernel⟩
  refine ⟨hplain, ?_⟩
  obtain ⟨ids, hids, hmem⟩ :=
    (routing_exact [sourceQueue] (by simpa using hplain)).1 .objectCreatedPut (lit "a/x.c")
    (by decide +kernel)
  refine ⟨ids, hids, (hmem _).2 ⟨sourceQueue, by simp, rfl,
    ⟨.objectCreatedAll, by simp [sourceQueue], by decide⟩, ?_⟩⟩
  exact ⟨by decide +kernel, by decide +kernel, by decide +kernel⟩

end S3Kinetic.Event
