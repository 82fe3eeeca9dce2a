import S3Kinetic.Names
import S3Kinetic.Lib.Joined
import S3Kinetic.Lib.Utf8

/-!
# Bucket lifecycle

A rule applies to the objects under its prefix that have its tags, and removes them when its date is
past or so many days after their last modification. `ComputeAction` compares tags as texts, by
asking whether the rule's tags occur somewhere in the object's, and computes the days in 64-bit
nanoseconds. `computeAction_iff` says for which rules, names and tags that agrees with the meaning
of the rules at all times.
-/

namespace S3Kinetic.Lifecycle

open ByteString Joined List

inductive Err where
  | errInvalidTagKey | errInvalidTagValue | errDuplicateTagKey | errInvalidFilter | errInvalidRuleID
  | errEmptyRuleStatus | errInvalidRuleStatus | errMissingExpirationAction
  | errLifecycleTooManyRules
  | errLifecycleNoRule | errLifecycleOverlappingPrefix
  deriving DecidableEq

/-! ## Tags -/

structure Tag where
  key : Bytes
  value : Bytes
  deriving DecidableEq

def ampersand : UInt8 := 38

def maxTagKeyLength : Nat := 128

def maxTagValueLength : Nat := 256

def maxTags : Nat := 10

namespace Tag

def validateKey (t : Tag) : Option Err :=
  if maxTagKeyLength < (Utf8.runes t.key).length then some .errInvalidTagKey
  else if t.key = [] then some .errInvalidTagKey
  else if ampersand ∈ t.key then some .errInvalidTagKey
  else none

def validateValue (t : Tag) : Option Err :=
  if maxTagValueLength < (Utf8.runes t.value).length then some .errInvalidTagValue
  else if ampersand ∈ t.value then some .errInvalidTagValue
  else none

def validate (t : Tag) : Option Err := t.validateKey.or t.validateValue

def isEmpty (t : Tag) : Bool := t.key = [] ∧ t.value = []

def string (t : Tag) : Bytes := t.key ++ lit "=" ++ t.value

end Tag

def writeTags (tags : List Tag) : Bytes :=
  tags.foldl (fun buf t => if 0 < buf.length then buf ++ ampersand :: t.string
    else buf ++ t.string) []

def firstErr {α : Type} (check : α → Option Err) (l : List α) : Option Err := l.findSome? check

/-- `Tagging.Validate`, for whether it accepts the tags of an object. -/
def validTagging (tags : List Tag) : Bool :=
  tags.length ≤ maxTags ∧ firstErr Tag.validate tags = none ∧ (tags.map Tag.key).Nodup

/-! ## Rules -/

structure And where
  pfx : Bytes
  tags : List Tag

structure Filter where
  pfx : Bytes
  and : And
  tag : Tag

/-- The zero value of `time.Time`, in nanoseconds since 1970. -/
def zeroTime : Int := -62135596800000000000

structure Expiration where
  xmlName : Bytes
  days : Int
  date : Int
  deriving DecidableEq

def Expiration.zero : Expiration := ⟨[], 0, zeroTime⟩

structure Rule where
  id : Bytes
  status : Bytes
  filter : Filter
  expiration : Expiration

def enabled : Bytes := lit "Enabled"

def disabled : Bytes := lit "Disabled"

def And.isEmpty (a : And) : Bool := a.tags = [] ∧ a.pfx = []

def And.validate (a : And) : Option Err :=
  if (a.tags.map Tag.key).Nodup then firstErr Tag.validate a.tags else some .errDuplicateTagKey

def Filter.validate (f : Filter) : Option Err :=
  let andErr :=
    if f.and.isEmpty then none
    else if f.pfx ≠ [] then some .errInvalidFilter
    else if !f.tag.isEmpty then some .errInvalidFilter
    else f.and.validate
  let pfxErr := if f.pfx ≠ [] ∧ !f.tag.isEmpty then some .errInvalidFilter else none
  let tagErr := if f.tag.isEmpty then none else f.tag.validate
  andErr.or (pfxErr.or tagErr)

namespace Rule

def validateID (r : Rule) : Option Err := if 255 < r.id.length then some .errInvalidRuleID else none

def validateStatus (r : Rule) : Option Err :=
  if r.status = [] then some .errEmptyRuleStatus
  else if r.status ≠ enabled ∧ r.status ≠ disabled then some .errInvalidRuleStatus
  else none

def validateAction (r : Rule) : Option Err :=
  if r.expiration = .zero then some .errMissingExpirationAction else none

def pfx (r : Rule) : Bytes :=
  if r.filter.pfx ≠ [] then r.filter.pfx else if r.filter.and.pfx ≠ [] then r.filter.and.pfx else []

def tagList (r : Rule) : List Tag :=
  if r.filter.tag.isEmpty then r.filter.and.tags else [r.filter.tag]

def tags (r : Rule) : Bytes :=
  if !r.filter.tag.isEmpty then r.filter.tag.string
  else if r.filter.and.tags ≠ [] then writeTags r.filter.and.tags
  else []

def validate (r : Rule) : Option Err :=
  r.validateID.or (r.validateStatus.or (r.validateAction.or r.filter.validate))

end Rule

/-! ## The configuration -/

inductive Action where
  | none | delete
  deriving DecidableEq

def overlapping : List Rule → Bool
  | [] => false
  | r :: rs =>
    (rs.any fun other => hasPrefix r.pfx other.pfx || hasPrefix other.pfx r.pfx) || overlapping rs

def validate (rules : List Rule) : Option Err :=
  if 1000 < rules.length then some .errLifecycleTooManyRules
  else if rules = [] then some .errLifecycleNoRule
  else
    match firstErr Rule.validate rules with
    | some e => some e
    | none => if overlapping rules then some .errLifecycleOverlappingPrefix else none

def filterRuleActions (objName objTags : Bytes) : List Rule → Expiration
  | [] => .zero
  | r :: rules =>
    if objName = [] then .zero
    else if r.status = disabled then filterRuleActions objName objTags rules
    else if hasPrefix objName r.pfx then
      if r.tags ≠ [] then
        if r.tags <:+: objTags then r.expiration else filterRuleActions objName objTags rules
      else r.expiration
    else filterRuleActions objName objTags rules

def day : Int := 24 * 3600000000000

/-- The days as a `time.Duration`, a 64-bit number. -/
def Expiration.duration (e : Expiration) : Int := (e.days * day).bmod (2 ^ 64)

def computeAction (rules : List Rule) (objName objTags : Bytes) (modTime now : Int) : Action :=
  if modTime = zeroTime then .none
  else
    let exp := filterRuleActions objName objTags rules
    let action := if exp.date ≠ zeroTime ∧ exp.date < now then Action.delete else .none
    if exp.days ≠ 0 ∧ modTime + exp.duration < now then .delete else action

/-! ## What rules mean -/

def Expiration.Due (e : Expiration) (modTime now : Int) : Prop :=
  (e.date ≠ zeroTime ∧ e.date < now) ∨ (e.days ≠ 0 ∧ modTime + e.days * day < now)

def Expiration.WrappedDue (e : Expiration) (modTime now : Int) : Prop :=
  (e.date ≠ zeroTime ∧ e.date < now) ∨ (e.days ≠ 0 ∧ modTime + e.duration < now)

def Rule.Covers (r : Rule) (objName : Bytes) : Prop := r.status = enabled ∧ r.pfx <+: objName

instance (e : Expiration) (modTime now : Int) : Decidable (e.Due modTime now) :=
  inferInstanceAs (Decidable (_ ∨ _))

instance (r : Rule) (objName : Bytes) : Decidable (r.Covers objName) :=
  inferInstanceAs (Decidable (_ ∧ _))

/-- The object is to be removed: some rule covers it, with all its tags, and is due. -/
def ShouldDelete (rules : List Rule) (objName : Bytes) (tags : List Tag) (modTime now : Int) :
    Prop :=
  ∃ r ∈ rules, r.Covers objName ∧ (∀ t ∈ r.tagList, t ∈ tags) ∧ r.expiration.Due modTime now

instance (rules : List Rule) (objName : Bytes) (tags : List Tag) (modTime now : Int) :
    Decidable (ShouldDelete rules objName tags modTime now) :=
  inferInstanceAs (Decidable (∃ r ∈ rules, _))

/-- Where the text of the rule's tags occurs in the text of the object's: the rule has none, or they
stand in a row among the object's, the outer ones possibly cut out of longer ones. -/
def Rule.TagsOccur (r : Rule) (written : List Tag) : Prop :=
  r.tagList = [] ∨ Run (r.tagList.map Tag.string) (written.map Tag.string)

def Expiration.IsNull (e : Expiration) : Prop := e.days = 0 ∧ e.date = zeroTime

def Rule.HasTags (r : Rule) (tags : List Tag) : Prop := ∀ t ∈ r.tagList, t ∈ tags

/-- An object that has the tags of the rule has a name and the tags in a row as the rule writes
them, and the days fit 64-bit nanoseconds; where the text of the rule's tags is found, the object
has them. -/
structure Rule.Faithful (r : Rule) (objName : Bytes) (tags written : List Tag) : Prop where
  removed : r.HasTags tags → objName ≠ [] ∧ r.TagsOccur written ∧ r.expiration.days * day < 2 ^ 63
  kept : r.TagsOccur written → r.HasTags tags ∨ objName = []

/-! ## Texts of tags -/

section Texts

variable {tags : List Tag}

theorem writeTags_eq_join (tags : List Tag) :
    writeTags tags = join ampersand (tags.map Tag.string) := by
  have hne : ∀ t : Tag, 0 < t.string.length := fun t => by
    have : (lit "=").length = 1 := by decide
    simp only [Tag.string, length_append]
    omega
  have hjoin : ∀ (ts : List Tag) (buf : Bytes), 0 < buf.length →
      ts.foldl (fun buf t => if 0 < buf.length then buf ++ ampersand :: t.string
        else buf ++ t.string) buf =
        join ampersand (buf :: ts.map Tag.string) := by
    intro ts
    induction ts with
    | nil => exact fun buf _ => by simp [join, List.intercalate]
    | cons t ts ih =>
      intro buf hbuf
      have hsplit : buf ++ ampersand :: t.string = (buf ++ [ampersand]) ++ t.string := by simp
      rw [foldl_cons, if_pos hbuf, ih _ (by simp), map_cons, join_cons_cons, hsplit,
        join_append_left]
      simp
  cases tags with
  | nil => rfl
  | cons t tags =>
    rw [writeTags, foldl_cons]
    simp only [length_nil, lt_self_iff_false, if_false, nil_append]
    exact hjoin tags t.string (hne t)

theorem firstErr_eq_none {α : Type} {check : α → Option Err} {l : List α} :
    firstErr check l = none ↔ ∀ a ∈ l, check a = none := List.findSome?_eq_none_iff

theorem ampersand_not_mem_string {t : Tag} (h : t.validate = none) : ampersand ∉ t.string := by
  obtain ⟨hk, hv⟩ := Option.or_eq_none_iff.1 h
  have hkey : ampersand ∉ t.key := by
    intro hm
    simp only [Tag.validateKey, hm, if_true] at hk
    split_ifs at hk
  have hvalue : ampersand ∉ t.value := by
    intro hm
    simp only [Tag.validateValue, hm, if_true] at hv
    split_ifs at hv
  have heq : ampersand ∉ lit "=" := by decide
  simp only [Tag.string, mem_append, not_or]
  exact ⟨⟨hkey, heq⟩, hvalue⟩

end Texts

section Rules

variable {r : Rule}

theorem Rule.tags_eq (r : Rule) : r.tags = writeTags r.tagList := by
  unfold Rule.tags Rule.tagList
  cases r.filter.tag.isEmpty with
  | false => simp [writeTags]
  | true =>
    by_cases h : r.filter.and.tags = []
    · simp [h, writeTags]
    · simp [h]

theorem Rule.validate_eq_none (h : r.validate = none) :
    (r.status = enabled ∨ r.status = disabled) ∧ ∀ t ∈ r.tagList, t.validate = none := by
  simp only [Rule.validate, Option.or_eq_none_iff] at h
  obtain ⟨-, hstatus, -, hfilter⟩ := h
  refine ⟨?_, ?_⟩
  · unfold Rule.validateStatus at hstatus
    by_contra hno
    simp only [not_or] at hno
    simp only [ne_eq, hno, not_false_eq_true, and_self, if_true] at hstatus
    split_ifs at hstatus
  · simp only [Filter.validate, Option.or_eq_none_iff] at hfilter
    obtain ⟨hand, -, htag⟩ := hfilter
    unfold Rule.tagList
    cases he : r.filter.tag.isEmpty with
    | false =>
      simp only [he, Bool.false_eq_true, if_false] at htag ⊢
      simpa using htag
    | true =>
      simp only [if_true]
      by_cases hempty : r.filter.and.isEmpty = true
      · simp only [And.isEmpty, decide_eq_true_eq] at hempty
        simp [hempty.1]
      · simp only [hempty, he, Bool.false_eq_true, if_false, Bool.not_true] at hand
        split_ifs at hand with h1
        unfold And.validate at hand
        split_ifs at hand with h2
        exact firstErr_eq_none.1 hand

theorem tags_eq_nil_iff : r.tags = [] ↔ r.tagList = [] := by
  rw [Rule.tags_eq, writeTags_eq_join]
  cases h : r.tagList with
  | nil => simp [join, List.intercalate]
  | cons t ts =>
    have hlen : (lit "=").length = 1 := by decide
    refine iff_of_false (fun hj => ?_) (by simp)
    have : 0 < (join ampersand ((t :: ts).map Tag.string)).length := by
      cases ts with
      | nil =>
        simp only [join, List.intercalate, map_cons, map_nil, intersperse_singleton, flatten_cons,
          flatten_nil, append_nil, Tag.string, length_append]
        omega
      | cons t' ts => simp [join_cons_cons]
    rw [hj] at this
    exact absurd this (by simp)

theorem tagsOccur_iff (hr : r.validate = none) {written : List Tag}
    (hw : ∀ t ∈ written, t.validate = none) :
    (r.tags = [] ∨ r.tags <:+: writeTags written) ↔ r.TagsOccur written := by
  rw [tags_eq_nil_iff, Rule.TagsOccur]
  by_cases hnil : r.tagList = []
  · simp [hnil]
  simp only [hnil, false_or]
  have hsep : ∀ x ∈ r.tagList.map Tag.string, ampersand ∉ x := by
    simp only [mem_map, forall_exists_index, and_imp, forall_apply_eq_imp_iff₂]
    exact fun t ht => ampersand_not_mem_string ((Rule.validate_eq_none hr).2 t ht)
  cases written with
  | nil =>
    have htext : r.tags ≠ [] := mt tags_eq_nil_iff.1 hnil
    refine iff_of_false (fun h => htext (infix_nil.1 h)) ?_
    rintro (⟨x, A, p, s, B, -, h⟩ | ⟨x, m, l, A, p, s, B, -, h⟩) <;> simp at h
  | cons t written =>
    rw [Rule.tags_eq, writeTags_eq_join, writeTags_eq_join]
    refine infix_join_iff hsep ?_ (by simpa using hnil) (by simp)
    simp only [mem_map, forall_exists_index, and_imp, forall_apply_eq_imp_iff₂]
    exact fun t ht => ampersand_not_mem_string (hw t ht)

end Rules

/-! ## One rule covers an object -/

section Configurations

variable {rules : List Rule} {objName objTags : Bytes}

def Apart (r r' : Rule) : Prop := ¬ r.pfx <+: r'.pfx ∧ ¬ r'.pfx <+: r.pfx

theorem Apart.symm {r r' : Rule} (h : Apart r r') : Apart r' r := ⟨h.2, h.1⟩

instance : Std.Symm Apart := ⟨fun _ _ => Apart.symm⟩

theorem pairwise_of_overlapping (h : overlapping rules = false) : rules.Pairwise Apart := by
  induction rules with
  | nil => exact .nil
  | cons r rules ih =>
    simp only [overlapping, Bool.or_eq_false_iff, any_eq_false, not_or, hasPrefix, Bool.or_eq_true,
      isPrefixOf_iff_prefix] at h
    exact .cons (fun r' hr' => ⟨(h.1 r' hr').2, (h.1 r' hr').1⟩) (ih h.2)

theorem validate_eq_none (h : validate rules = none) :
    (∀ r ∈ rules, r.validate = none) ∧ rules.Pairwise Apart := by
  unfold validate at h
  cases hf : firstErr Rule.validate rules with
  | some e =>
    rw [hf] at h
    split_ifs at h
  | none =>
    rw [hf] at h
    split_ifs at h with _ _ ho
    exact ⟨firstErr_eq_none.1 hf, pairwise_of_overlapping (by simpa using ho)⟩

theorem not_apart_of_covers {r r' : Rule} (h : r.pfx <+: objName) (h' : r'.pfx <+: objName) :
    ¬ Apart r r' := by
  rintro ⟨h1, h2⟩
  rcases prefix_or_prefix_of_prefix h h' with h | h
  · exact h1 h
  · exact h2 h

theorem eq_of_covers (hp : rules.Pairwise Apart) {r r' : Rule} (hr : r ∈ rules) (hr' : r' ∈ rules)
    (h : r.pfx <+: objName) (h' : r'.pfx <+: objName) : r = r' := by
  by_contra hne
  exact not_apart_of_covers h h' (hp.forall hr hr' hne)

theorem length_covering_le_one (hp : rules.Pairwise Apart) :
    (rules.filter fun r => hasPrefix objName r.pfx).length ≤ 1 := by
  have hcov : ∀ r ∈ rules.filter fun r => hasPrefix objName r.pfx, r.pfx <+: objName := fun r hr =>
    hasPrefix_iff.1 (mem_filter.1 hr).2
  have hsub := hp.sublist (filter_sublist (p := fun r => hasPrefix objName r.pfx))
  generalize rules.filter (fun r => hasPrefix objName r.pfx) = found at hcov hsub
  match found with
  | [] => simp
  | [r] => simp
  | r :: r' :: found =>
    have happart : Apart r r' := (pairwise_cons.1 hsub).1 r' (by simp)
    exact absurd happart (not_apart_of_covers (hcov r (by simp)) (hcov r' (by simp)))

def Rule.Applies (r : Rule) (objName objTags : Bytes) : Prop :=
  r.status ≠ disabled ∧ r.pfx <+: objName ∧ (r.tags = [] ∨ r.tags <:+: objTags)

theorem filterRuleActions_nil (objTags : Bytes) (rules : List Rule) :
    filterRuleActions [] objTags rules = .zero := by
  cases rules with
  | nil => rfl
  | cons r rules => simp [filterRuleActions]

theorem filterRuleActions_cases (hname : objName ≠ []) (rules : List Rule) :
    (∃ r ∈ rules, r.Applies objName objTags ∧ filterRuleActions objName objTags rules =
      r.expiration) ∨
      (∀ r ∈ rules, ¬ r.Applies objName objTags) ∧
        filterRuleActions objName objTags rules = .zero := by
  induction rules with
  | nil => exact .inr ⟨by simp, rfl⟩
  | cons r rules ih =>
    by_cases happ : r.Applies objName objTags
    · refine .inl ⟨r, by simp, happ, ?_⟩
      obtain ⟨hs, hp, ht⟩ := happ
      rw [filterRuleActions, if_neg hname, if_neg hs, if_pos (hasPrefix_iff.2 hp)]
      by_cases hnil : r.tags = []
      · rw [if_neg (by simpa using hnil)]
      · rw [if_pos hnil, if_pos (ht.resolve_left hnil)]
    · have hskip : filterRuleActions objName objTags (r :: rules) =
          filterRuleActions objName objTags rules := by
        rw [filterRuleActions, if_neg hname]
        by_cases hs : r.status = disabled
        · rw [if_pos hs]
        by_cases hp : r.pfx <+: objName
        · have ht : ¬ (r.tags = [] ∨ r.tags <:+: objTags) := fun ht => happ ⟨hs, hp, ht⟩
          rw [if_neg hs, if_pos (hasPrefix_iff.2 hp), if_pos (fun h => ht (.inl h)),
            if_neg (fun h => ht (.inr h))]
        · rw [if_neg hs, if_neg (mt hasPrefix_iff.1 hp)]
      rcases ih with ⟨r', hr', happ', heq⟩ | ⟨hnone, heq⟩
      · exact .inl ⟨r', by simp [hr'], happ', hskip.trans heq⟩
      · exact .inr ⟨by simpa using ⟨happ, hnone⟩, hskip.trans heq⟩

theorem not_wrappedDue_zero (modTime now : Int) : ¬ Expiration.zero.WrappedDue modTime now := by
  simp [Expiration.WrappedDue, Expiration.zero]

theorem computeAction_eq_delete_iff {modTime now : Int} (hmod : modTime ≠ zeroTime) :
    computeAction rules objName objTags modTime now = .delete ↔
      (filterRuleActions objName objTags rules).WrappedDue modTime now := by
  rw [computeAction, if_neg hmod, Expiration.WrappedDue]
  generalize filterRuleActions objName objTags rules = exp
  by_cases hdays : exp.days ≠ 0 ∧ modTime + exp.duration < now
  · simp [hdays]
  by_cases hdate : exp.date ≠ zeroTime ∧ exp.date < now
  · simp [hdays, hdate]
  · simp only [hdays, hdate, if_false, or_false, iff_false]
    decide

theorem computeAction_delete_iff_exists (hp : rules.Pairwise Apart) {modTime now : Int}
    (hmod : modTime ≠ zeroTime) :
    computeAction rules objName objTags modTime now = .delete ↔
      objName ≠ [] ∧ ∃ r ∈ rules, r.Applies objName objTags ∧
        r.expiration.WrappedDue modTime now := by
  rw [computeAction_eq_delete_iff hmod]
  by_cases hname : objName = []
  · subst hname
    simp [filterRuleActions_nil, not_wrappedDue_zero]
  rcases filterRuleActions_cases hname rules with ⟨r, hr, happ, heq⟩ | ⟨hnone, heq⟩
  · rw [heq]
    refine ⟨fun hdue => ⟨hname, r, hr, happ, hdue⟩, ?_⟩
    rintro ⟨-, r', hr', happ', hdue⟩
    rwa [eq_of_covers hp hr hr' happ.2.1 happ'.2.1]
  · rw [heq]
    refine iff_of_false (not_wrappedDue_zero _ _) ?_
    rintro ⟨-, r, hr, happ, -⟩
    exact hnone r hr happ

theorem Action.eq_of_delete_iff {a b : Action} (h : a = .delete ↔ b = .delete) : a = b := by
  cases a <;> cases b <;> simp_all

theorem computeAction_perm (hp : rules.Pairwise Apart) {rules' : List Rule}
    (hperm : rules'.Perm rules) {modTime now : Int} (hmod : modTime ≠ zeroTime) :
    computeAction rules' objName objTags modTime now =
      computeAction rules objName objTags modTime now := by
  have hp' : rules'.Pairwise Apart := (hperm.pairwise_iff Apart.symm).2 hp
  refine Action.eq_of_delete_iff ?_
  rw [computeAction_delete_iff_exists hp hmod, computeAction_delete_iff_exists hp' hmod]
  simp only [hperm.mem_iff]

theorem exists_iff_exists_iff {P A B : Rule → Prop}
    (huniq : ∀ r ∈ rules, ∀ r' ∈ rules, P r → P r' → r = r') :
    ((∃ r ∈ rules, P r ∧ A r) ↔ ∃ r ∈ rules, P r ∧ B r) ↔ ∀ r ∈ rules, P r → (A r ↔ B r) := by
  constructor
  · intro h r hr hP
    constructor
    · intro hA
      obtain ⟨r', hr', hP', hB⟩ := h.1 ⟨r, hr, hP, hA⟩
      rwa [huniq r hr r' hr' hP hP']
    · intro hB
      obtain ⟨r', hr', hP', hA⟩ := h.2 ⟨r, hr, hP, hB⟩
      rwa [huniq r hr r' hr' hP hP']
  · intro h
    exact exists_congr fun r => and_congr_right fun hr => and_congr_right fun hP => h r hr hP

end Configurations

/-! ## Times -/

section Times

variable {e : Expiration}

theorem Expiration.wrappedDue_iff (hdays : 0 ≤ e.days) (hfit : e.days * day < 2 ^ 63)
    (modTime now : Int) :
    e.WrappedDue modTime now ↔ e.Due modTime now := by
  have hpos : 0 ≤ e.days * day := Int.mul_nonneg hdays (by decide)
  have hsame : e.duration = e.days * day := by
    rw [Expiration.duration, Int.bmod_def]
    omega
  rw [Expiration.WrappedDue, Expiration.Due, hsame]

/-- Days that do not fit are due too early. -/
theorem Expiration.exists_wrappedDue_not_due (hbig : ¬ e.days * day < 2 ^ 63) :
    ∃ modTime now, modTime ≠ zeroTime ∧ e.WrappedDue modTime now ∧ ¬ e.Due modTime now := by
  have hlt : e.duration < e.days * day := by
    rw [Expiration.duration, Int.bmod_def]
    omega
  have hne : e.days ≠ 0 := by
    intro h
    rw [h] at hbig
    exact hbig (by decide)
  let modTime := min e.date zeroTime - |e.duration| - 1
  have habs := abs_nonneg e.duration
  have hself := le_abs_self e.duration
  refine ⟨modTime, modTime + e.duration + 1, ?_, .inr ⟨hne, by omega⟩, ?_⟩
  · have : modTime ≤ zeroTime - |e.duration| - 1 := by
      simp only [modTime]
      omega
    omega
  · have hdate : modTime + e.duration + 1 ≤ e.date := by
      simp only [modTime]
      omega
    rintro (⟨-, h⟩ | ⟨-, h⟩) <;> omega

theorem Expiration.exists_due (h : ¬ e.IsNull) :
    ∃ modTime now, modTime ≠ zeroTime ∧ e.WrappedDue modTime now ∧ e.Due modTime now := by
  refine ⟨0, max e.date (max e.duration (e.days * day)) + 1, by decide, ?_⟩
  by_cases hdays : e.days = 0
  · have hdate : e.date ≠ zeroTime := fun hdate => h ⟨hdays, hdate⟩
    exact ⟨.inl ⟨hdate, by omega⟩, .inl ⟨hdate, by omega⟩⟩
  · exact ⟨.inr ⟨hdays, by omega⟩, .inr ⟨hdays, by omega⟩⟩

theorem Expiration.IsNull.not_due (h : e.IsNull) (modTime now : Int) :
    ¬ e.WrappedDue modTime now ∧ ¬ e.Due modTime now := by
  simp [Expiration.WrappedDue, Expiration.Due, h.1, h.2]

/-- At all times the rule does to the object what it means, exactly if it never does anything or is
faithful. -/
theorem Rule.forall_times_iff {r : Rule} (hdays : 0 ≤ r.expiration.days) (objName : Bytes)
    (tags written : List Tag) :
    (∀ modTime now, modTime ≠ zeroTime →
      ((objName ≠ [] ∧ r.TagsOccur written ∧ r.expiration.WrappedDue modTime now) ↔
        (r.HasTags tags ∧ r.expiration.Due modTime now))) ↔
      r.expiration.IsNull ∨ r.Faithful objName tags written := by
  constructor
  · intro h
    by_cases hnull : r.expiration.IsNull
    · exact .inl hnull
    obtain ⟨modTime, now, hmod, hwrapped, hdue⟩ := r.expiration.exists_due hnull
    have hiff := h modTime now hmod
    refine .inr ⟨fun htags => ?_, fun hoccur => ?_⟩
    · obtain ⟨hname, hoccur, -⟩ := hiff.2 ⟨htags, hdue⟩
      refine ⟨hname, hoccur, ?_⟩
      by_contra hbig
      obtain ⟨modTime, now, hmod, hwrapped, hnot⟩ := r.expiration.exists_wrappedDue_not_due hbig
      exact hnot ((h modTime now hmod).1 ⟨hname, hoccur, hwrapped⟩).2
    · by_cases hname : objName = []
      · exact .inr hname
      · exact .inl (hiff.1 ⟨hname, hoccur, hwrapped⟩).1
  · rintro (hnull | ⟨hremoved, hkept⟩) modTime now -
    · obtain ⟨hw, hd⟩ := hnull.not_due modTime now
      exact iff_of_false (fun h => hw h.2.2) fun h => hd h.2
    · constructor
      · rintro ⟨hname, hoccur, hwrapped⟩
        have htags := (hkept hoccur).resolve_right hname
        exact ⟨htags, (r.expiration.wrappedDue_iff hdays (hremoved htags).2.2 _ _).1 hwrapped⟩
      · rintro ⟨htags, hdue⟩
        obtain ⟨hname, hoccur, hfit⟩ := hremoved htags
        exact ⟨hname, hoccur, (r.expiration.wrappedDue_iff hdays hfit _ _).2 hdue⟩

end Times

/-! ## The action and the meaning of the rules -/

variable {rules : List Rule} {objName : Bytes}

theorem computeAction_delete_iff_covers (hvalid : validate rules = none) {written : List Tag}
    (hw : ∀ t ∈ written, t.validate = none) {modTime now : Int} (hmod : modTime ≠ zeroTime) :
    computeAction rules objName (writeTags written) modTime now = .delete ↔
      ∃ r ∈ rules, r.Covers objName ∧ (objName ≠ [] ∧ r.TagsOccur written ∧
        r.expiration.WrappedDue modTime now) := by
  obtain ⟨hrules, hp⟩ := validate_eq_none hvalid
  have happlies : ∀ r ∈ rules, (r.Applies objName (writeTags written) ↔
      r.Covers objName ∧ r.TagsOccur written) := by
    intro r hr
    rw [Rule.Applies, Rule.Covers, tagsOccur_iff (hrules r hr) hw]
    have hstatus : r.status ≠ disabled ↔ r.status = enabled := by
      rcases (Rule.validate_eq_none (hrules r hr)).1 with h | h <;> rw [h] <;> decide
    rw [hstatus, and_assoc]
  rw [computeAction_delete_iff_exists hp hmod]
  constructor
  · rintro ⟨hname, r, hr, happ, hdue⟩
    obtain ⟨hcov, hocc⟩ := (happlies r hr).1 happ
    exact ⟨r, hr, hcov, hname, hocc, hdue⟩
  · rintro ⟨r, hr, hcov, hname, hocc, hdue⟩
    exact ⟨hname, r, hr, (happlies r hr).2 ⟨hcov, hocc⟩, hdue⟩

/-- Under a valid configuration at most one rule has a prefix of the object's name and the order of
the rules does not matter. The action is the one the rules mean at all times, just when the rule
that covers the object is faithful to its name and tags or has no expiration. -/
theorem computeAction_iff (rules : List Rule) (hvalid : validate rules = none)
    (hdays : ∀ r ∈ rules, 0 ≤ r.expiration.days) (objName : Bytes)
    (tags written : List Tag) (htags : validTagging tags) (hwritten : written.Perm tags) :
    (rules.filter fun r => hasPrefix objName r.pfx).length ≤ 1 ∧
    (∀ (rules' : List Rule) (modTime now : Int), rules'.Perm rules → modTime ≠ zeroTime →
      computeAction rules' objName (writeTags written) modTime now =
        computeAction rules objName (writeTags written) modTime now) ∧
    ((∀ modTime now, modTime ≠ zeroTime →
        (computeAction rules objName (writeTags written) modTime now = .delete ↔
          ShouldDelete rules objName tags modTime now)) ↔
      ∀ r ∈ rules, r.Covers objName → r.expiration.IsNull ∨ r.Faithful objName tags written) := by
  obtain ⟨hrules, hp⟩ := validate_eq_none hvalid
  refine ⟨length_covering_le_one hp, fun rules' modTime now hperm hmod =>
    computeAction_perm hp hperm hmod, ?_⟩
  have hw : ∀ t ∈ written, t.validate = none := fun t ht =>
    firstErr_eq_none.1 (of_decide_eq_true htags).2.1 t (hwritten.mem_iff.1 ht)
  have hone (modTime now : Int) (hmod : modTime ≠ zeroTime) :
      (computeAction rules objName (writeTags written) modTime now = .delete ↔
        ShouldDelete rules objName tags modTime now) ↔
      ∀ r ∈ rules, r.Covers objName →
        ((objName ≠ [] ∧ r.TagsOccur written ∧ r.expiration.WrappedDue modTime now) ↔
          (r.HasTags tags ∧ r.expiration.Due modTime now)) := by
    rw [computeAction_delete_iff_covers hvalid hw hmod]
    exact exists_iff_exists_iff fun r hr r' hr' h h' => eq_of_covers hp hr hr' h.2 h'.2
  constructor
  · intro h r hr hcov
    exact (Rule.forall_times_iff (hdays r hr) objName tags written).1 fun modTime now hmod =>
      (hone modTime now hmod).1 (h modTime now hmod) r hr hcov
  · intro h modTime now hmod
    exact (hone modTime now hmod).2 fun r hr hcov =>
      (Rule.forall_times_iff (hdays r hr) objName tags written).2 (h r hr hcov) modTime now hmod

/-- A rule for the objects under `logs/` that have the tags. -/
def logsRule (tags : List Tag) (days : Int) : Rule where
  id := lit "logs"
  status := enabled
  filter := ⟨[], ⟨lit "logs/", tags⟩, ⟨[], []⟩⟩
  expiration := ⟨lit "Expiration", days, zeroTime⟩

/-- A rule of 30 days for one tag, and an object that has it and another one. -/
theorem computeAction_iff_logs :
    let tier : Tag := ⟨lit "tier", lit "1"⟩
    let owner : Tag := ⟨lit "owner", lit "ops"⟩
    ∀ modTime now, modTime ≠ zeroTime →
      (computeAction [logsRule [tier] 30] (lit "logs/a") (writeTags [owner, tier]) modTime now =
        .delete ↔
        ShouldDelete [logsRule [tier] 30] (lit "logs/a") [tier, owner] modTime now) := by
  intro tier owner
  refine (computeAction_iff [logsRule [tier] 30] (by decide) (by decide) (lit "logs/a") [tier,
    owner] [owner, tier]
    (by decide) (.swap _ _ _)).2.2.2 fun r hr _ => .inr ?_
  rw [mem_singleton.1 hr]
  have hoccurs : (logsRule [tier] 30).TagsOccur [owner, tier] :=
    .inr (.inl ⟨tier.string, [owner.string], [], [], [], by decide, by decide⟩)
  have hhas : (logsRule [tier] 30).HasTags [tier, owner] := by
    intro t ht
    rw [mem_singleton.1 ht]
    exact mem_cons_self
  exact ⟨fun _ => ⟨by decide, hoccurs, by decide⟩, fun _ => .inl hhas⟩

/-- Three valid configurations. The first removes an object whose tag only begins like the rule's.
The second keeps one that has both tags, written in the other order. The third, meant for objects
213504 days old, removes one of the day before. -/
theorem computeAction_ne_meaning :
    let now := 31 * day
    let tier (v : String) : Tag := ⟨lit "tier", lit v⟩
    let owner : Tag := ⟨lit "owner", lit "ops"⟩
    (validate [logsRule [tier "1"] 30] = none ∧ validTagging [tier "10"] ∧
      computeAction [logsRule [tier "1"] 30] (lit "logs/a") (writeTags [tier "10"]) 0 now =
        .delete ∧
      ¬ ShouldDelete [logsRule [tier "1"] 30] (lit "logs/a") [tier "10"] 0 now) ∧
    (validate [logsRule [tier "1", owner] 30] = none ∧ validTagging [tier "1", owner] ∧
      computeAction [logsRule [tier "1", owner] 30] (lit "logs/a") (writeTags [owner, tier "1"])
        0 now = .none ∧
      ShouldDelete [logsRule [tier "1", owner] 30] (lit "logs/a") [tier "1", owner] 0 now) ∧
    (validate [logsRule [] 213504] = none ∧
      computeAction [logsRule [] 213504] (lit "logs/a") (writeTags []) (30 * day) now = .delete ∧
      ¬ ShouldDelete [logsRule [] 213504] (lit "logs/a") [] (30 * day) now) := by
  decide

end S3Kinetic.Lifecycle
