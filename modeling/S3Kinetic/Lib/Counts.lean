import Mathlib

/-!
# Counting maps

A map from keys to the number of their occurrences, filled one key after the other, and the search
for a most frequent key in it. The order in which the entries are visited is not fixed
(`Iteration`). The search replaces its candidate by an entry with a larger count, or with the same
count and a preferred key. In every order it ends at an entry with the largest count (`best_mem`,
`le_best`), and among those at one that no other is preferred to (`not_prefer_best`).
-/

namespace Counts

open List

variable {κ : Type*}

/-! ## Counting -/

section Counting

variable [DecidableEq κ]

def counts (ks : List κ) : κ → Nat := ks.foldl (fun m k => Function.update m k (m k + 1)) fun _ => 0

variable [BEq κ] [LawfulBEq κ]

theorem foldl_update (ks : List κ) (m : κ → Nat) (k : κ) :
    ks.foldl (fun m k => Function.update m k (m k + 1)) m k = m k + ks.count k := by
  induction ks generalizing m with
  | nil => rfl
  | cons k' ks ih =>
    rw [foldl_cons, ih]
    by_cases hk : k = k'
    · subst hk
      rw [Function.update_self, count_cons_self]
      omega
    · rw [Function.update_of_ne hk, count_cons_of_ne (Ne.symm hk)]

@[simp] theorem counts_apply (ks : List κ) (k : κ) : counts ks k = ks.count k := by
  rw [counts, foldl_update, Nat.zero_add]

omit [BEq κ] [LawfulBEq κ] in
theorem counts_pos_iff {ks : List κ} {k : κ} : 0 < counts ks k ↔ k ∈ ks := by
  rw [counts_apply, count_pos_iff]

end Counting

/-! ## Visiting the entries -/

structure Iteration (m : κ → Nat) where
  entries : List (κ × Nat)
  nodup : (entries.map Prod.fst).Nodup
  mem : ∀ e, e ∈ entries ↔ 0 < e.2 ∧ m e.1 = e.2

/-- A given order of the keys. -/
def Iteration.ofOrder [DecidableEq κ] {ks order : List κ} (h : order.Perm ks.dedup) :
    Iteration (counts ks) where
  entries := order.map fun k => (k, counts ks k)
  nodup := by
    rw [map_map]
    exact (map_id _).symm ▸ h.nodup_iff.2 ks.nodup_dedup
  mem := by
    rintro ⟨k, n⟩
    simp only [mem_map, h.mem_iff, mem_dedup, Prod.mk.injEq]
    constructor
    · rintro ⟨k, hk, rfl, rfl⟩
      exact ⟨counts_pos_iff.2 hk, rfl⟩
    · rintro ⟨hn, rfl⟩
      exact ⟨k, counts_pos_iff.1 hn, rfl, rfl⟩

/-- The order in which the keys occurred last. -/
def Iteration.ofKeys [DecidableEq κ] (ks : List κ) : Iteration (counts ks) :=
  .ofOrder (.refl ks.dedup)

/-- The same entries with one of them in front. -/
def Iteration.first [DecidableEq κ] {m : κ → Nat} (it : Iteration m) (e : κ × Nat)
    (he : e ∈ it.entries) : Iteration m where
  entries := e :: it.entries.erase e
  nodup := (((perm_cons_erase he).map Prod.fst).nodup_iff).1 it.nodup
  mem := fun e' => (perm_cons_erase he).mem_iff.symm.trans (it.mem e')

/-! ## The most frequent key -/

section Best

variable (prefer : κ → κ → Bool)

def pick (cur e : κ × Nat) : κ × Nat :=
  if cur.2 < e.2 ∨ cur.2 = e.2 ∧ prefer e.1 cur.1 then e else cur

def best (k₀ : κ) (entries : List (κ × Nat)) : κ × Nat := entries.foldl (pick prefer) (k₀, 0)

theorem pick_eq (cur e : κ × Nat) : pick prefer cur e = e ∨ pick prefer cur e = cur := by
  rw [pick]
  exact ite_eq_or_eq _ _ _

theorem le_pick (cur e : κ × Nat) :
    cur.2 ≤ (pick prefer cur e).2 ∧ e.2 ≤ (pick prefer cur e).2 := by
  rw [pick]
  split_ifs with h
  · omega
  · omega

theorem foldl_pick_mem (entries : List (κ × Nat)) (cur : κ × Nat) :
    entries.foldl (pick prefer) cur ∈ cur :: entries := by
  induction entries generalizing cur with
  | nil => simp
  | cons e entries ih =>
    rw [foldl_cons]
    rcases mem_cons.1 (ih (pick prefer cur e)) with heq | hmem
    · rw [heq]
      rcases pick_eq prefer cur e with h | h <;> rw [h] <;> simp
    · exact mem_cons_of_mem _ (mem_cons_of_mem _ hmem)

theorem le_foldl_pick (entries : List (κ × Nat)) (cur : κ × Nat) :
    ∀ e ∈ cur :: entries, e.2 ≤ (entries.foldl (pick prefer) cur).2 := by
  induction entries generalizing cur with
  | nil => simp
  | cons e entries ih =>
    have hpick := ih (pick prefer cur e) (pick prefer cur e) mem_cons_self
    obtain ⟨hcur, he⟩ := le_pick prefer cur e
    intro e' he'
    rw [foldl_cons]
    rcases mem_cons.1 he' with rfl | he'
    · exact hcur.trans hpick
    · rcases mem_cons.1 he' with rfl | he'
      · exact he.trans hpick
      · exact ih _ e' (mem_cons_of_mem _ he')

variable {k₀ : κ} {entries : List (κ × Nat)}

theorem best_mem (hpos : ∀ e ∈ entries, 0 < e.2) (hne : entries ≠ []) :
    best prefer k₀ entries ∈ entries := by
  rcases mem_cons.1 (foldl_pick_mem prefer entries (k₀, 0)) with heq | hmem
  · obtain ⟨e, he⟩ := exists_mem_of_ne_nil entries hne
    have hle := le_foldl_pick prefer entries (k₀, 0) e (mem_cons_of_mem _ he)
    have := hpos e he
    rw [heq] at hle
    exact absurd hle (by simp; omega)
  · exact hmem

theorem le_best {e : κ × Nat} (he : e ∈ entries) : e.2 ≤ (best prefer k₀ entries).2 :=
  le_foldl_pick prefer entries (k₀, 0) e (mem_cons_of_mem _ he)

theorem best_first [DecidableEq κ] {m : κ → Nat} (it : Iteration m) {e : κ × Nat}
    (he : e ∈ it.entries) (hmax : ∀ e' ∈ it.entries, e'.2 ≤ e.2) :
    best (fun _ _ => false) k₀ (it.first e he).entries = e := by
  have hstay : ∀ entries : List (κ × Nat), (∀ e' ∈ entries, e'.2 ≤ e.2) →
      entries.foldl (pick fun _ _ => false) e = e := by
    intro entries hle
    induction entries with
    | nil => rfl
    | cons e' entries ih =>
      have hle' := hle e' mem_cons_self
      rw [foldl_cons, pick, if_neg (by simp [hle']),
        ih fun e'' he'' => hle e'' (mem_cons_of_mem _ he'')]
  rw [best, Iteration.first, foldl_cons, pick, if_pos (.inl ((it.mem e).1 he).1)]
  exact hstay _ fun e' he' => hmax e' (mem_of_mem_erase he')

variable {prefer}

theorem not_prefer_foldl_pick (hirr : ∀ k, prefer k k = false)
    (htrans : ∀ a b c, prefer a b → prefer b c → prefer a c)
    (entries : List (κ × Nat)) {cur : κ × Nat} {seen : List (κ × Nat)}
    (hseen : ∀ e ∈ seen, e.2 < cur.2 ∨ e.2 = cur.2 ∧ prefer e.1 cur.1 = false) :
    ∀ e ∈ seen ++ entries, e.2 < (entries.foldl (pick prefer) cur).2 ∨
      e.2 = (entries.foldl (pick prefer) cur).2 ∧
        prefer e.1 (entries.foldl (pick prefer) cur).1 = false := by
  induction entries generalizing cur seen with
  | nil => simpa using hseen
  | cons e entries ih =>
    rw [foldl_cons, append_cons]
    refine ih fun e' he' => ?_
    rw [pick]
    split_ifs with h
    · rcases mem_append.1 he' with he' | he'
      · rcases h with hlt | ⟨heq, hpref⟩
        · have := hseen e' he'
          omega
        · rcases hseen e' he' with hlt | ⟨heq', hnot⟩
          · exact .inl (by omega)
          · refine .inr ⟨heq'.trans heq, ?_⟩
            rw [← Bool.not_eq_true] at hnot ⊢
            exact fun hp => hnot (htrans _ _ _ hp hpref)
      · rw [mem_singleton.1 he']
        exact .inr ⟨rfl, hirr _⟩
    · rcases mem_append.1 he' with he' | he'
      · exact hseen e' he'
      · rw [mem_singleton.1 he']
        rw [not_or, not_and, Bool.not_eq_true] at h
        rcases Nat.lt_or_ge e.2 cur.2 with hlt | hge
        · exact .inl hlt
        · have heq : cur.2 = e.2 := by omega
          exact .inr ⟨heq.symm, h.2 heq⟩

theorem not_prefer_best (hirr : ∀ k, prefer k k = false)
    (htrans : ∀ a b c, prefer a b → prefer b c → prefer a c)
    {e : κ × Nat} (he : e ∈ entries) (heq : e.2 = (best prefer k₀ entries).2) :
    prefer e.1 (best prefer k₀ entries).1 = false := by
  rcases not_prefer_foldl_pick hirr htrans entries (fun e he => absurd he not_mem_nil) e he
    with hlt | ⟨-, h⟩
  · exact absurd heq (Nat.ne_of_lt hlt)
  · exact h

end Best

/-! ## Majorities -/

theorem eq_of_majority [BEq κ] [LawfulBEq κ] {l : List κ} {a b : κ} {q : Nat}
    (hq : l.length < 2 * q) (ha : q ≤ l.count a) (hb : q ≤ l.count b) : a = b := by
  by_contra hab
  have hsum : l.count a + l.count b ≤ l.length := by
    clear hq ha hb
    induction l with
    | nil => simp
    | cons c l ih =>
      rw [count_cons, count_cons, length_cons]
      by_cases hca : c = a
      · subst hca
        simp [hab]
        omega
      · simp [hca]
        split_ifs <;> omega
  omega

end Counts
