import S3Kinetic.Lib.ByteString

/-!
# Ordered finite maps

An `OrdMap` is a list of bindings with strictly increasing keys; the order of the keys is part of
the value, so two maps with the same lookups are equal. Range queries return the keys between two
bounds in order.
-/

structure OrdMap (α : Type*) (β : Type*) [LinearOrder α] where
  entries : List (α × β)
  sorted : entries.Pairwise fun a b => a.1 < b.1

namespace OrdMap

open List

variable {α β : Type*} [LinearOrder α]

instance [DecidableEq β] : DecidableEq (OrdMap α β) := fun a b =>
  decidable_of_iff (a.entries = b.entries) ⟨fun h => by cases a; cases b; simp_all,
    fun h => by rw [h]⟩

def empty : OrdMap α β := ⟨[], .nil⟩

instance : EmptyCollection (OrdMap α β) := ⟨empty⟩

/-! ## Lists of bindings -/

/-- The value bound to `k`. -/
def lookup (k : α) : List (α × β) → Option β
  | [] => none
  | (k', v) :: l => if k = k' then some v else lookup k l

/-- `k` bound to `v`, at its place in the order. -/
def insertEntry (k : α) (v : β) : List (α × β) → List (α × β)
  | [] => [(k, v)]
  | (k', v') :: l =>
    if k < k' then (k, v) :: (k', v') :: l
    else if k = k' then (k, v) :: l
    else (k', v') :: insertEntry k v l

variable {k : α} {v : β} {l : List (α × β)}

theorem mem_insertEntry {e : α × β}
    (h : e ∈ insertEntry k v l) : e = (k, v) ∨ e ∈ l := by
  induction l with
  | nil => exact .inl (by simpa [insertEntry] using h)
  | cons x l ih =>
    obtain ⟨k', v'⟩ := x
    rw [insertEntry] at h
    split at h
    · simpa using h
    · split at h
      · rcases mem_cons.1 h with h | h
        · exact .inl h
        · exact .inr (mem_cons_of_mem _ h)
      · rcases mem_cons.1 h with h | h
        · exact .inr (by simp [h])
        · exact (ih h).imp id (mem_cons_of_mem _)

theorem insertEntry_sorted
    (h : l.Pairwise fun a b => a.1 < b.1) : (insertEntry k v l).Pairwise fun a b => a.1 < b.1 := by
  induction l with
  | nil => simp [insertEntry]
  | cons x l ih =>
    obtain ⟨k', v'⟩ := x
    rw [pairwise_cons] at h
    rw [insertEntry]
    split
    · next hlt =>
      refine pairwise_cons.2 ⟨fun e he => ?_, pairwise_cons.2 h⟩
      rcases mem_cons.1 he with rfl | he
      · exact hlt
      · exact hlt.trans (h.1 e he)
    · next hlt =>
      split
      · next heq => subst heq; exact pairwise_cons.2 h
      · next hne =>
        refine pairwise_cons.2 ⟨fun e he => ?_, ih h.2⟩
        rcases mem_insertEntry he with rfl | he
        · exact lt_of_le_of_ne (not_lt.1 hlt) (Ne.symm hne)
        · exact h.1 e he

theorem insertEntry_of_forall_lt (h : ∀ e ∈ l, e.1 < k) : insertEntry k v l = l ++ [(k, v)] := by
  induction l with
  | nil => rfl
  | cons x l ih =>
    have hx := h x mem_cons_self
    rw [insertEntry, if_neg hx.not_gt, if_neg hx.ne', ih fun e he => h e (mem_cons_of_mem _ he),
      cons_append]

theorem lookup_insertEntry (k k' : α) (v : β) (l : List (α × β)) :
    lookup k' (insertEntry k v l) = if k' = k then some v else lookup k' l := by
  induction l with
  | nil => simp [insertEntry, lookup]
  | cons x l ih =>
    obtain ⟨k'', v''⟩ := x
    rw [insertEntry]
    split
    · simp [lookup]
    · split
      · next heq => subst heq; by_cases h : k' = k <;> simp [lookup, h]
      · next hne =>
        by_cases h : k' = k''
        · subst h; simp [lookup, Ne.symm hne]
        · simp [lookup, h, ih]

theorem lookup_filter_ne (k k' : α) (l : List (α × β)) :
    lookup k' (l.filter fun e => e.1 ≠ k) = if k' = k then none else lookup k' l := by
  induction l with
  | nil => simp [lookup]
  | cons x l ih =>
    obtain ⟨k'', v''⟩ := x
    by_cases h1 : k'' = k <;> by_cases h2 : k' = k'' <;> by_cases h3 : k' = k <;>
      simp_all [lookup]

theorem lookup_eq_none_iff :
    lookup k l = none ↔ ∀ e ∈ l, e.1 ≠ k := by
  induction l with
  | nil => simp [lookup]
  | cons x l ih =>
    obtain ⟨k', v'⟩ := x
    by_cases h : k = k'
    · subst h; simp [lookup]
    · simp [lookup, h, ih, Ne.symm h]

theorem lookup_eq_some_iff
    (hl : l.Pairwise fun a b => a.1 < b.1) : lookup k l = some v ↔ (k, v) ∈ l := by
  induction l with
  | nil => simp [lookup]
  | cons x l ih =>
    obtain ⟨k', v'⟩ := x
    rw [pairwise_cons] at hl
    by_cases h : k = k'
    · subst h
      simp only [lookup, if_true, Option.some.injEq, mem_cons, Prod.mk.injEq, true_and]
      constructor
      · exact fun h => .inl h.symm
      · rintro (h | h)
        · exact h.symm
        · exact absurd (hl.1 _ h) (lt_irrefl _)
    · simp [lookup, h, ih hl.2]

/-! ## Maps -/

variable (m : OrdMap α β)

/-- The value stored under `k`. -/
def get? (k : α) : Option β := lookup k m.entries

/-- The map with `k` bound to `v`. -/
def insert (k : α) (v : β) : OrdMap α β := ⟨insertEntry k v m.entries, insertEntry_sorted m.sorted⟩

/-- The map without a binding of `k`. -/
def erase (k : α) : OrdMap α β :=
  ⟨m.entries.filter fun e => e.1 ≠ k, m.sorted.sublist filter_sublist⟩

def keys : List α := m.entries.map Prod.fst

instance : Membership α (OrdMap α β) := ⟨fun m k => (m.get? k).isSome⟩

instance (k : α) : Decidable (k ∈ m) := inferInstanceAs (Decidable ((m.get? k).isSome = true))

theorem mem_iff : k ∈ m ↔ ∃ v, m.get? k = some v := Option.isSome_iff_exists

theorem not_mem_iff : k ∉ m ↔ m.get? k = none := by
  rw [mem_iff, not_exists]
  cases m.get? k <;> simp

@[simp] theorem get?_empty (k : α) : (∅ : OrdMap α β).get? k = none := rfl

theorem get?_insert (k k' : α) (v : β) :
    (m.insert k v).get? k' = if k' = k then some v else m.get? k' := lookup_insertEntry ..

theorem get?_erase (k k' : α) : (m.erase k).get? k' = if k' = k then none else m.get? k' :=
  lookup_filter_ne ..

@[simp] theorem get?_insert_self (k : α) (v : β) : (m.insert k v).get? k = some v := by
  simp [get?_insert]

@[simp] theorem get?_erase_self (k : α) : (m.erase k).get? k = none := by simp [get?_erase]

variable {m}

variable {k' : α}

theorem get?_insert_of_ne (h : k' ≠ k) : (m.insert k v).get? k' = m.get? k' := by
  simp [get?_insert, h]

theorem get?_erase_of_ne (h : k' ≠ k) : (m.erase k).get? k' = m.get? k' := by
  simp [get?_erase, h]

theorem mem_insert : k' ∈ m.insert k v ↔ k' = k ∨ k' ∈ m := by
  rw [mem_iff, mem_iff, get?_insert]
  by_cases h : k' = k <;> simp [h]

theorem mem_erase : k' ∈ m.erase k ↔ k' ≠ k ∧ k' ∈ m := by
  rw [mem_iff, mem_iff, get?_erase]
  by_cases h : k' = k <;> simp [h]

theorem get?_eq_some_iff : m.get? k = some v ↔ (k, v) ∈ m.entries :=
  lookup_eq_some_iff m.sorted

theorem mem_keys : k ∈ m.keys ↔ k ∈ m := by
  rw [keys, mem_map, mem_iff]
  constructor
  · rintro ⟨⟨k', v⟩, he, rfl⟩
    exact ⟨v, get?_eq_some_iff.2 he⟩
  · rintro ⟨v, hv⟩
    exact ⟨(k, v), get?_eq_some_iff.1 hv, rfl⟩

theorem keys_sorted : m.keys.Pairwise (· < ·) := pairwise_map.2 m.sorted

theorem keys_nodup : m.keys.Nodup := keys_sorted.imp ne_of_lt

theorem ext_get? {m n : OrdMap α β} (h : ∀ k, m.get? k = n.get? k) : m = n := by
  have hp : m.entries.Perm n.entries := by
    refine (perm_ext_iff_of_nodup ?_ ?_).2 fun ⟨k, v⟩ => ?_
    · exact m.sorted.imp fun h e => absurd h (by simp [e])
    · exact n.sorted.imp fun h e => absurd h (by simp [e])
    · rw [← get?_eq_some_iff, ← get?_eq_some_iff, h]
  have : m.entries = n.entries :=
    hp.eq_of_pairwise (fun a b _ _ hab hba => absurd hab hba.not_gt) m.sorted n.sorted
  cases m; cases n; simp_all

/-! ## Passes over a map -/

/-- The bindings of `n` taken into `m`, one after the other. -/
def merge (f : β → Option β → β) (m n : OrdMap α β) : OrdMap α β :=
  n.entries.foldl (fun m e => m.insert e.1 (f e.2 (m.get? e.1))) m

/-- The bindings `f` keeps, with the values it gives them. -/
def filterMap (f : α → β → Option β) (m : OrdMap α β) : OrdMap α β where
  entries := m.entries.filterMap fun e => (f e.1 e.2).map (e.1, ·)
  sorted := by
    refine pairwise_filterMap.2 (m.sorted.imp fun hab a ha b hb => ?_)
    obtain ⟨x, -, rfl⟩ := Option.map_eq_some_iff.1 ha
    obtain ⟨y, -, rfl⟩ := Option.map_eq_some_iff.1 hb
    exact hab

theorem get?_foldl_insert (f : β → Option β → β) (m : OrdMap α β)
    (hl : l.Pairwise fun a b => a.1 < b.1) (k : α) :
    (l.foldl (fun m e => m.insert e.1 (f e.2 (m.get? e.1))) m).get? k =
      ((lookup k l).map fun v => f v (m.get? k)).or (m.get? k) := by
  induction l generalizing m with
  | nil => rfl
  | cons e l ih =>
    obtain ⟨hlt, hl⟩ := pairwise_cons.1 hl
    rw [foldl_cons, ih _ hl, get?_insert, lookup]
    by_cases hk : k = e.1
    · have hnone : lookup k l = none := lookup_eq_none_iff.2 fun e' he' => hk ▸ (hlt e' he').ne'
      simp [hk, hk ▸ hnone]
    · simp [hk]

theorem get?_merge (f : β → Option β → β) (m n : OrdMap α β) (k : α) :
    (merge f m n).get? k = ((n.get? k).map fun v => f v (m.get? k)).or (m.get? k) :=
  get?_foldl_insert f m n.sorted k

theorem get?_filterMap (f : α → β → Option β) (m : OrdMap α β) (k : α) :
    (m.filterMap f).get? k = (m.get? k).bind (f k) := by
  ext v
  rw [get?_eq_some_iff, Option.bind_eq_some_iff]
  simp only [filterMap, mem_filterMap, Option.map_eq_some_iff, Prod.mk.injEq, get?_eq_some_iff]
  constructor
  · rintro ⟨⟨_, w⟩, he, _, hf, rfl, rfl⟩
    exact ⟨w, he, hf⟩
  · rintro ⟨w, he, hf⟩
    exact ⟨(k, w), he, v, hf, rfl, rfl⟩

theorem erase_of_not_mem (h : k ∉ m) : m.erase k = m := by
  refine ext_get? fun k' => ?_
  rw [get?_erase]
  split
  · next e => rw [e, (not_mem_iff m).1 h]
  · rfl

/-! ## Range queries -/

/-- The keys that satisfy `p`, in order. -/
def keysWhere (m : OrdMap α β) (p : α → Bool) : List α := m.keys.filter p

variable {p : α → Bool}

theorem mem_keysWhere : k ∈ m.keysWhere p ↔ k ∈ m ∧ p k = true := by
  rw [keysWhere, mem_filter, mem_keys]

theorem keysWhere_sorted : (m.keysWhere p).Pairwise (· < ·) :=
  keys_sorted.sublist filter_sublist

theorem keysWhere_congr {q : α → Bool} (h : ∀ k ∈ m, p k = q k) :
    m.keysWhere p = m.keysWhere q :=
  filter_congr fun k hk => h k (mem_keys.1 hk)

theorem head?_keysWhere_eq_some_iff :
    (m.keysWhere p).head? = some k ↔ k ∈ m ∧ p k = true ∧ ∀ k' ∈ m, p k' = true → k ≤ k' := by
  have hs := keysWhere_sorted (m := m) (p := p)
  cases hl : m.keysWhere p with
  | nil =>
    simp only [List.head?_nil, reduceCtorEq, false_iff]
    rintro ⟨hk, hp, -⟩
    have := mem_keysWhere.2 ⟨hk, hp⟩
    simp [hl] at this
  | cons x l =>
    rw [hl, pairwise_cons] at hs
    have hx : x ∈ m ∧ p x = true := mem_keysWhere.1 (hl ▸ mem_cons_self)
    simp only [List.head?_cons, Option.some.injEq]
    constructor
    · rintro rfl
      refine ⟨hx.1, hx.2, fun k' hk' hp' => ?_⟩
      have hmem : k' ∈ x :: l := hl ▸ mem_keysWhere.2 ⟨hk', hp'⟩
      rcases mem_cons.1 hmem with rfl | h
      · exact le_rfl
      · exact (hs.1 k' h).le
    · rintro ⟨hk, hp, hle⟩
      have hmem : k ∈ x :: l := hl ▸ mem_keysWhere.2 ⟨hk, hp⟩
      rcases mem_cons.1 hmem with rfl | h
      · rfl
      · exact absurd (hs.1 k h) (hle x hx.1 hx.2).not_gt

theorem eq_of_sorted_of_mem_iff {l l' : List α} (hl : l.Pairwise (· < ·))
    (hl' : l'.Pairwise (· < ·)) (h : ∀ k, k ∈ l ↔ k ∈ l') : l = l' :=
  ((perm_ext_iff_of_nodup (hl.imp ne_of_lt) (hl'.imp ne_of_lt)).2 h).eq_of_pairwise
    (fun _ _ _ _ hab hba => absurd hab hba.not_gt) hl hl'

theorem mem_take_iff_of_sorted {l : List α} (hl : l.Pairwise (· < ·)) {x : α} (hx : x ∈ l)
    {below : α → Bool} (hb : ∀ y, below y = true ↔ y < x) (n : Nat) :
    x ∈ l.take n ↔ (l.filter below).length < n := by
  induction l generalizing n with
  | nil => simp at hx
  | cons a l ih =>
    rw [pairwise_cons] at hl
    cases n with
    | zero => simp
    | succ n =>
      rcases mem_cons.1 hx with rfl | hx
      · have hnil : (x :: l).filter below = [] := by
          refine filter_eq_nil_iff.2 fun y hy hlt => ?_
          rcases mem_cons.1 hy with rfl | hy
          · exact lt_irrefl _ ((hb y).1 hlt)
          · exact (hl.1 y hy).asymm ((hb y).1 hlt)
        simp [hnil]
      · have hax : a < x := hl.1 x hx
        have hih := ih hl.2 hx n
        simp [(hb a).2 hax, hax.ne', hih]

theorem filter_lt_eq_drop {l : List α} (hl : l.Pairwise (· < ·)) {n : Nat} {x : α}
    (hx : (l.take n).getLast? = some x) : l.filter (fun y => decide (x < y)) = l.drop n := by
  obtain ⟨init, hinit⟩ := getLast?_eq_some_iff.1 hx
  have hcross : (l.take n ++ l.drop n).Pairwise (· < ·) := by rwa [take_append_drop]
  rw [pairwise_append, hinit, pairwise_append] at hcross
  have hbelow : (l.take n).filter (fun y => decide (x < y)) = [] := by
    refine filter_eq_nil_iff.2 fun y hy => ?_
    rw [hinit, mem_append, mem_singleton] at hy
    rcases hy with hy | rfl
    · simpa using (hcross.1.2.2 y hy x (mem_singleton_self x)).le
    · simp
  have habove : (l.drop n).filter (fun y => decide (x < y)) = l.drop n :=
    filter_eq_self.2 fun y hy => by simpa using hcross.2.2 x (by simp) y hy
  calc l.filter (fun y => decide (x < y))
      = (l.take n).filter (fun y => decide (x < y)) ++
          (l.drop n).filter (fun y => decide (x < y)) := by rw [← filter_append, take_append_drop]
    _ = l.drop n := by rw [hbelow, habove, nil_append]

theorem mem_takeWhile_of_le {l : List α} (hl : l.Pairwise (· < ·)) {q : α → Bool} {x y : α}
    (hx : x ∈ l) (hy : y ∈ l.takeWhile q) (h : x ≤ y) : x ∈ l.takeWhile q := by
  induction l with
  | nil => exact hx
  | cons a l ih =>
    rw [pairwise_cons] at hl
    by_cases ha : q a = true
    · rw [takeWhile_cons_of_pos ha] at hy ⊢
      rcases mem_cons.1 hx with rfl | hxl
      · exact mem_cons_self
      rcases mem_cons.1 hy with rfl | hyl
      · exact absurd (hl.1 x hxl) h.not_gt
      · exact mem_cons_of_mem a (ih hl.2 hxl hyl)
    · rw [takeWhile_cons_of_neg ha] at hy
      cases hy

omit [LinearOrder α] in
theorem countP_eq_one_iff {l : List α} (hl : l.Nodup) (q : α → Bool) :
    l.countP q = 1 ↔ ∃! x, x ∈ l ∧ q x = true := by
  rw [countP_eq_length_filter, length_eq_one_iff]
  refine exists_congr fun x => ?_
  constructor
  · intro h
    have hmem (y : α) : y ∈ l ∧ q y = true ↔ y = x := by rw [← mem_filter, h, mem_singleton]
    exact ⟨(hmem x).2 rfl, fun y hy => (hmem y).1 hy⟩
  · rintro ⟨hx, huniq⟩
    refine perm_singleton.1 ((perm_ext_iff_of_nodup (hl.filter q) (nodup_singleton x)).2 fun y =>
      ?_)
    rw [mem_filter, mem_singleton]
    exact ⟨huniq y, fun h => h ▸ hx⟩

end OrdMap
