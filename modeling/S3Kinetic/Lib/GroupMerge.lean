import Mathlib

/-!
# Merging sorted queues by groups

Queues of entries, each with strictly increasing names. A round takes the first entry with the least
name among the heads, and removes it together with all heads of the same name and stamp. `Merged`
says where such a merge stands: each queue is split into what has been taken and what is left, no
group lies on both sides, and what was put out is one entry for each group taken that is accepted,
namely its first one. `Merged.round` is the step.
-/

namespace GroupMerge

open List

variable {ε ν τ : Type*} [LinearOrder ν] [DecidableEq τ] (name : ε → ν) (stamp : ε → τ)

/-! ## Groups -/

def key (e : ε) : ν × τ := (name e, stamp e)

def inGroup (k : ν × τ) (e : ε) : Bool := key name stamp e = k

def members (queues : List (List ε)) (k : ν × τ) : List ε :=
  queues.filterMap fun q => q.find? (inGroup name stamp k)

def Occurs (queues : List (List ε)) (k : ν × τ) : Prop :=
  ∃ q ∈ queues, ∃ e ∈ q, key name stamp e = k

variable {name stamp} in
@[simp] theorem inGroup_iff {k : ν × τ} {e : ε} : inGroup name stamp k e = true ↔
    key name stamp e = k := decide_eq_true_iff

omit [LinearOrder ν] [DecidableEq τ] in
theorem key_ne_of_name_ne {name : ε → ν} {stamp : ε → τ} {a b : ε} (h : name a ≠ name b) :
    key name stamp a ≠ key name stamp b :=
  fun heq => h (congrArg Prod.fst heq)

def picked (accept : ε → Nat → Bool) : List ε → List ε
  | [] => []
  | e :: es => if accept e (es.length + 1) then [e] else []

/-! ## The least head -/

def leastFrom (m : ε) : List ε → ε
  | [] => m
  | e :: es => if name e < name m then leastFrom e es else leastFrom m es

def least : List ε → Option ε
  | [] => none
  | e :: es => some (leastFrom name e es)

theorem leastFrom_spec (m : ε) (es : List ε) : ∃ l₁ l₂, m :: es = l₁ ++ leastFrom name m es :: l₂ ∧
    (∀ e ∈ l₁, name (leastFrom name m es) < name e) ∧
      ∀ e ∈ l₂, name (leastFrom name m es) ≤ name e := by
  induction es generalizing m with
  | nil => exact ⟨[], [], rfl, by simp, by simp⟩
  | cons e es ih =>
    rw [leastFrom]
    split_ifs with h
    · obtain ⟨l₁, l₂, heq, hlt, hle⟩ := ih e
      refine ⟨m :: l₁, l₂, by rw [cons_append, ← heq], ?_, hle⟩
      intro e' he'
      rcases mem_cons.1 he' with rfl | he'
      · -- What was below `m` is at or behind the least one.
        have hmem : e ∈ l₁ ++ leastFrom name e es :: l₂ := heq ▸ mem_cons_self
        rcases mem_append.1 hmem with hmem | hmem
        · exact (hlt e hmem).trans h
        · rcases mem_cons.1 hmem with hmem | hmem
          · rwa [← hmem]
          · exact (hle e hmem).trans_lt h
      · exact hlt e' he'
    · obtain ⟨l₁, l₂, heq, hlt, hle⟩ := ih m
      rcases l₁ with _ | ⟨m', l₁⟩
      · obtain ⟨hm, rfl⟩ := List.cons.inj heq
        refine ⟨[], e :: es, by rw [← hm, nil_append], by simp, fun e' he' => ?_⟩
        rcases mem_cons.1 he' with rfl | he'
        · rw [← hm]
          exact not_lt.1 h
        · exact hle e' he'
      · obtain ⟨rfl, hes⟩ := List.cons.inj heq
        refine ⟨m :: e :: l₁, l₂, congrArg (fun l => m :: e :: l) hes, fun e' he' => ?_, hle⟩
        have hm := hlt m mem_cons_self
        rcases mem_cons.1 he' with rfl | he'
        · exact hm
        · rcases mem_cons.1 he' with rfl | he'
          · exact hm.trans_le (not_lt.1 h)
          · exact hlt e' (mem_cons_of_mem _ he')

variable {name}

variable {es : List ε}

theorem least_eq_none_iff : least name es = none ↔ es = [] := by
  cases es <;> simp [least]

theorem least_spec {m : ε} (h : least name es = some m) :
    ∃ l₁ l₂, es = l₁ ++ m :: l₂ ∧ (∀ e ∈ l₁, name m < name e) ∧ ∀ e ∈ l₂, name m ≤ name e := by
  cases es with
  | nil => cases h
  | cons e es =>
    obtain rfl := Option.some.inj h
    exact leastFrom_spec name e es

theorem least_le {m : ε} (h : least name es = some m) : m ∈ es ∧ ∀ e ∈ es, name m ≤ name e := by
  obtain ⟨l₁, l₂, rfl, hlt, hle⟩ := least_spec h
  refine ⟨by simp, fun e he => ?_⟩
  rcases mem_append.1 he with he | he
  · exact (hlt e he).le
  · rcases mem_cons.1 he with rfl | he
    · exact le_rfl
    · exact hle e he

theorem filter_key_least {m : ε} (h : least name es = some m) :
    ∃ l, es.filter (inGroup name stamp (key name stamp m)) = m :: l := by
  obtain ⟨l₁, l₂, rfl, hlt, -⟩ := least_spec h
  have hnil : l₁.filter (inGroup name stamp (key name stamp m)) = [] := by
    rw [filter_eq_nil_iff]
    intro e he
    rw [inGroup_iff]
    exact key_ne_of_name_ne (hlt e he).ne'
  exact ⟨_, by rw [filter_append, hnil, nil_append, filter_cons_of_pos (by simp)]⟩

/-! ## Rounds -/

section Merge

variable (name)

def heads (queues : List (List ε)) : List ε := queues.filterMap List.head?

@[simp] theorem heads_nil_cons (queues : List (List ε)) : heads ([] :: queues) = heads queues := rfl

@[simp] theorem heads_cons_cons (e : ε) (q : List ε) (queues : List (List ε)) :
    heads ((e :: q) :: queues) = e :: heads queues := rfl

theorem heads_eq_nil_iff {queues : List (List ε)} : heads queues = [] ↔ ∀ q ∈ queues, q = [] := by
  simp [heads, filterMap_eq_nil_iff]

/-- A queue without its head, if that is in the group of `m`. -/
def popGroup (m : ε) : List ε → List ε
  | [] => []
  | e :: q => if key name stamp e = key name stamp m then q else e :: q

/-- What `popGroup` takes from a queue. -/
def popped (m : ε) : List ε → List ε
  | [] => []
  | e :: _ => if key name stamp e = key name stamp m then [e] else []

def Increasing (q : List ε) : Prop := q.Pairwise fun a b => name a < name b

/-- Where a merge stands: `parts` has for each queue what was taken from it and what is left. -/
structure Merged (accept : ε → Nat → Bool) (queues left : List (List ε)) (out : List ε)
    (parts : List (List ε × List ε)) :
    Prop where
  whole : queues = parts.map fun p => p.1 ++ p.2
  left_eq : left = parts.map Prod.snd
  apart : ∀ k, Occurs name stamp (parts.map Prod.fst) k → ¬ Occurs name stamp left k
  below : ∀ p ∈ parts, ∀ a ∈ p.1, ∀ q ∈ left, ∀ b ∈ q, name a ≤ name b
  sorted : out.Pairwise fun a b => name a ≤ name b
  taken : ∀ e ∈ out, ∃ p ∈ parts, e ∈ p.1
  one : ∀ k, Occurs name stamp (parts.map Prod.fst) k →
    out.filter (inGroup name stamp k) = picked accept (members name stamp queues k)

theorem popped_append_popGroup (m : ε) (q : List ε) :
    popped name stamp m q ++ popGroup name stamp m q = q := by
  cases q with
  | nil => rfl
  | cons e q =>
    rw [popped, popGroup]
    split_ifs <;> rfl

variable {name stamp} {accept : ε → Nat → Bool} {queues left : List (List ε)} {out : List ε}
  {parts : List (List ε × List ε)} {m : ε}

variable {q : List ε}

theorem Increasing.popGroup (h : Increasing name q) :
    Increasing name (popGroup name stamp m q) := by
  have hsub : (GroupMerge.popGroup name stamp m q).Sublist q := by
    conv_rhs => rw [← popped_append_popGroup name stamp m q]
    exact sublist_append_right _ _
  exact h.sublist hsub

theorem merged_nil (queues : List (List ε)) :
    Merged name stamp accept queues queues [] (queues.map fun q => ([], q)) where
  whole := by simp [Function.comp_def]
  left_eq := by simp [Function.comp_def]
  apart := by
    rintro k ⟨q, hq, e, he, -⟩
    simp at hq
    obtain ⟨-, rfl⟩ := hq
    cases he
  below := by simp
  sorted := List.Pairwise.nil
  taken := by simp
  one := by
    rintro k ⟨q, hq, e, he, -⟩
    simp at hq
    obtain ⟨-, rfl⟩ := hq
    cases he

variable {b : ε}

theorem least_heads_le (hinc : ∀ q ∈ left, Increasing name q)
    (hm : least name (heads left) = some m) (hq : q ∈ left) (hb : b ∈ q) : name m ≤ name b := by
  cases q with
  | nil => cases hb
  | cons e q =>
    have he : name m ≤ name e := (least_le hm).2 e (mem_filterMap.2 ⟨e :: q, hq, rfl⟩)
    rcases mem_cons.1 hb with rfl | hb
    · exact he
    · exact he.trans (rel_of_pairwise_cons (hinc _ hq) hb).le

theorem least_heads_lt (hinc : ∀ q ∈ left, Increasing name q)
    (hm : least name (heads left) = some m) {e : ε}
    (hq : e :: q ∈ left) (hb : b ∈ q) : name m < name b := by
  have hlt : name e < name b := rel_of_pairwise_cons (hinc _ hq) hb
  exact (least_heads_le hinc hm hq mem_cons_self).trans_lt hlt

theorem key_ne_of_mem_popGroup (hinc : ∀ q ∈ left, Increasing name q)
    (hm : least name (heads left) = some m)
    (hq : q ∈ left) (hb : b ∈ popGroup name stamp m q) : key name stamp b ≠ key name stamp m := by
  cases q with
  | nil => cases hb
  | cons e q =>
    rw [popGroup] at hb
    split_ifs at hb with he
    · exact key_ne_of_name_ne (least_heads_lt hinc hm hq hb).ne'
    · rcases mem_cons.1 hb with rfl | hb
      · exact he
      · exact key_ne_of_name_ne (least_heads_lt hinc hm hq hb).ne'

theorem mem_of_mem_popGroup (hb : b ∈ popGroup name stamp m q) : b ∈ q := by
  rw [← popped_append_popGroup name stamp m q]
  exact mem_append_right _ hb

theorem mem_popped_iff :
    b ∈ popped name stamp m q ↔ q.head? = some b ∧ key name stamp b = key name stamp m := by
  cases q with
  | nil => simp [popped]
  | cons e q =>
    rw [popped]
    split_ifs with he
    · simp only [mem_singleton, List.head?_cons, Option.some.injEq]
      constructor
      · rintro rfl
        exact ⟨rfl, he⟩
      · rintro ⟨rfl, -⟩
        rfl
    · simp only [not_mem_nil, List.head?_cons, Option.some.injEq, false_iff, not_and]
      rintro rfl
      exact he

theorem find?_key_least (hinc : ∀ q ∈ left, Increasing name q)
    (hm : least name (heads left) = some m)
    (hq : q ∈ left) : q.find? (inGroup name stamp (key name stamp m)) =
      q.head?.filter (inGroup name stamp (key name stamp m)) := by
  cases q with
  | nil => rfl
  | cons e q =>
    rw [List.head?_cons, Option.filter_some]
    split_ifs with he
    · rw [List.find?_cons, he]
    · rw [List.find?_cons, eq_false_of_ne_true he, List.find?_eq_none]
      intro b hb
      simpa using key_ne_of_name_ne (least_heads_lt hinc hm hq hb).ne'

variable {k : ν × τ}

theorem Merged.members_eq (h : Merged name stamp accept queues left out parts)
    (hk : ¬ Occurs name stamp (parts.map Prod.fst) k) :
    members name stamp queues k = members name stamp left k := by
  rw [h.whole, h.left_eq, members, members, filterMap_map, filterMap_map]
  refine filterMap_congr fun p hp => ?_
  have hnone : p.1.find? (inGroup name stamp k) = none := by
    rw [List.find?_eq_none]
    intro e he hek
    exact hk ⟨p.1, mem_map_of_mem hp, e, he, by simpa using hek⟩
  simp [List.find?_append, hnone]

theorem members_least (hinc : ∀ q ∈ left, Increasing name q)
    (hm : least name (heads left) = some m) :
    members name stamp left (key name stamp m) =
      (heads left).filter (inGroup name stamp (key name stamp m)) := by
  rw [members, heads, filter_filterMap]
  exact filterMap_congr fun q hq => find?_key_least hinc hm hq

theorem Merged.filter_out_eq_nil (h : Merged name stamp accept queues left out parts)
    (hk : ¬ Occurs name stamp (parts.map Prod.fst) k) : out.filter (inGroup name stamp k) = [] := by
  rw [filter_eq_nil_iff]
  intro e he hek
  obtain ⟨p, hp, hep⟩ := h.taken e he
  exact hk ⟨p.1, mem_map_of_mem hp, e, hep, by simpa using hek⟩

theorem occurs_taken_iff :
    Occurs name stamp ((parts.map fun p => (p.1 ++ popped name stamp m p.2,
      popGroup name stamp m p.2)).map Prod.fst) k ↔
      Occurs name stamp (parts.map Prod.fst) k ∨ ∃ p ∈ parts, ∃ e ∈ popped name stamp m p.2,
        key name stamp e = k := by
  simp only [Occurs, map_map, mem_map, Function.comp_apply, exists_exists_and_eq_and, mem_append]
  constructor
  · rintro ⟨p, hp, e, he | he, hk⟩
    · exact .inl ⟨p, hp, e, he, hk⟩
    · exact .inr ⟨p, hp, e, he, hk⟩
  · rintro (⟨p, hp, e, he, hk⟩ | ⟨p, hp, e, he, hk⟩)
    · exact ⟨p, hp, e, .inl he, hk⟩
    · exact ⟨p, hp, e, .inr he, hk⟩

theorem Merged.complete (h : Merged name stamp accept queues left out parts)
    (hleft : ∀ q ∈ left, q = []) (k : ν × τ) :
    out.filter (inGroup name stamp k) = picked accept (members name stamp queues k) := by
  by_cases hk : Occurs name stamp (parts.map Prod.fst) k
  · exact h.one k hk
  · have hnone : members name stamp left k = [] := by
      rw [members, filterMap_eq_nil_iff]
      intro q hq
      rw [hleft q hq]
      rfl
    rw [h.filter_out_eq_nil hk, h.members_eq hk, hnone]
    rfl

/-- A round: the least head's group goes from what is left to what was taken, and its first entry is
put out if its size, the number of heads in it, is accepted. -/
theorem Merged.round (h : Merged name stamp accept queues left out parts)
    (hinc : ∀ q ∈ left, Increasing name q) (hm : least name (heads left) = some m) :
    Merged name stamp accept queues (left.map (popGroup name stamp m))
      (out ++ if accept m ((heads left).countP (inGroup name stamp (key name stamp m))) then [m]
        else [])
      (parts.map fun p => (p.1 ++ popped name stamp m p.2, popGroup name stamp m p.2)) := by
  obtain ⟨q₀, hq₀, hhead⟩ := mem_filterMap.1 (least_le hm).1
  have hmem : m ∈ q₀ := mem_of_mem_head? hhead
  obtain ⟨p₀, hp₀, rfl⟩ : ∃ p ∈ parts, p.2 = q₀ := by simpa [h.left_eq] using hq₀
  have hnew : ¬ Occurs name stamp (parts.map Prod.fst) (key name stamp m) :=
    fun ho => h.apart _ ho ⟨_, hq₀, m, hmem, rfl⟩
  have hkey : ∀ p ∈ parts, ∀ e ∈ popped name stamp m p.2, key name stamp e = key name stamp m :=
    fun p hp e he => (mem_popped_iff.1 he).2
  have hleft : ∀ p ∈ parts, p.2 ∈ left := fun p hp => h.left_eq ▸ mem_map_of_mem hp
  refine ⟨?_, ?_, ?_, ?_, ?_, ?_, ?_⟩
  · rw [h.whole, map_map]
    refine map_congr_left fun p hp => ?_
    rw [Function.comp_apply, append_assoc, popped_append_popGroup]
  · rw [h.left_eq, map_map, map_map]
    rfl
  · rintro k ho ⟨q', hq', b, hb, hbk⟩
    obtain ⟨q, hq, rfl⟩ := mem_map.1 hq'
    rcases occurs_taken_iff.1 ho with ho | ⟨p, hp, e, he, hek⟩
    · exact h.apart k ho ⟨q, hq, b, mem_of_mem_popGroup hb, hbk⟩
    · exact key_ne_of_mem_popGroup hinc hm hq hb (hbk.trans (hek.symm.trans (hkey p hp e he)))
  · intro p' hp' a ha q' hq' b hb
    obtain ⟨p, hp, rfl⟩ := mem_map.1 hp'
    obtain ⟨q, hq, rfl⟩ := mem_map.1 hq'
    have hb' := mem_of_mem_popGroup hb
    rcases mem_append.1 ha with ha | ha
    · exact h.below p hp a ha q hq b hb'
    · have hname : name a = name m := congrArg Prod.fst (hkey p hp a ha)
      exact hname.trans_le (least_heads_le hinc hm hq hb')
  · refine pairwise_append.2 ⟨h.sorted, by split_ifs <;> simp, fun a ha b hb => ?_⟩
    obtain ⟨p, hp, hap⟩ := h.taken a ha
    have hbm : b = m := by
      split_ifs at hb
      · exact mem_singleton.1 hb
      · cases hb
    rw [hbm]
    exact h.below p hp a hap _ hq₀ m hmem
  · intro e he
    rcases mem_append.1 he with he | he
    · obtain ⟨p, hp, hep⟩ := h.taken e he
      exact ⟨_, mem_map_of_mem hp, mem_append_left _ hep⟩
    · have hem : e = m := by
        split_ifs at he
        · exact mem_singleton.1 he
        · cases he
      rw [hem]
      exact ⟨_, mem_map_of_mem hp₀, mem_append_right _ (mem_popped_iff.2 ⟨hhead, rfl⟩)⟩
  · intro k ho
    rw [filter_append]
    rcases occurs_taken_iff.1 ho with ho | ⟨p, hp, e, he, rfl⟩
    · -- An older group: the round puts out nothing of it.
      have hne : key name stamp m ≠ k := fun heq => hnew (heq ▸ ho)
      rw [h.one k ho, append_right_eq_self]
      split_ifs <;> simp [hne]
    · -- The group of this round.
      rw [hkey p hp e he, h.filter_out_eq_nil hnew, h.members_eq hnew, members_least hinc hm,
        countP_eq_length_filter]
      obtain ⟨l, hl⟩ := filter_key_least stamp hm
      rw [hl, picked, length_cons, nil_append]
      split_ifs <;> simp

theorem length_flatten_popGroup_lt (hm : least name (heads left) = some m) :
    (left.map (popGroup name stamp m)).flatten.length < left.flatten.length := by
  obtain ⟨q₀, hq₀, hhead⟩ := mem_filterMap.1 (least_le hm).1
  have hlen : ∀ q, (popped name stamp m q).length + (popGroup name stamp m q).length = q.length :=
    fun q => by
    rw [← length_append, popped_append_popGroup]
  rw [length_flatten, length_flatten, map_map]
  refine sum_lt_sum _ _ (fun q _ => (hlen q).le.trans' (Nat.le_add_left _ _)) ⟨q₀, hq₀, ?_⟩
  have hpos : 0 < (popped name stamp m q₀).length :=
    length_pos_of_mem (mem_popped_iff.2 ⟨hhead, rfl⟩)
  have := hlen q₀
  simp only [Function.comp_apply]
  omega

end Merge

end GroupMerge
