import Mathlib

/-!
# Byte strings in byte order

Keys of an ordered store are byte strings compared lexicographically. The order facts are stated
over any linear order: a proper prefix is smaller than its extensions, and the extensions of
`p ++ [c]` are exactly the strings from `p ++ [c]` up to, but without, `p ++ [d]` when `d` is the
successor of `c`. The last section is about lists of strings written with a separator and split
again.
-/

instance instLinearOrderUInt8 : LinearOrder UInt8 where
  le_refl := UInt8.le_refl
  le_trans := fun _ _ _ => UInt8.le_trans
  le_antisymm := fun _ _ => UInt8.le_antisymm
  le_total := UInt8.le_total
  lt_iff_le_not_ge := fun a b => by
    rw [UInt8.not_le]
    exact ⟨fun h => ⟨UInt8.le_of_lt h, h⟩, And.right⟩
  toDecidableLE := inferInstance
  toDecidableLT := inferInstance
  toDecidableEq := inferInstance

abbrev Bytes := List UInt8

instance instLawfulBEqUInt8 : LawfulBEq UInt8 := inferInstance

instance instLawfulBEqBytes : LawfulBEq Bytes := inferInstanceAs (LawfulBEq (List UInt8))

namespace ByteString

open List

def lit (s : String) : Bytes := s.toUTF8.data.toList

/-! ## Prefixes and lexicographic order -/

section Order

variable {α : Type*} [LinearOrder α]

variable {t : List α}

theorem cons_lt_cons_iff {a b : α} {s : List α} :
    a :: s < b :: t ↔ a < b ∨ a = b ∧ s < t := List.cons_lt_cons_iff

theorem cons_le_cons_iff {a b : α} {s : List α} : a :: s ≤ b :: t ↔ a < b ∨ a = b ∧ s ≤ t := by
  rw [le_iff_lt_or_eq, cons_lt_cons_iff, le_iff_lt_or_eq, List.cons.injEq]
  tauto

variable {a : List α}

theorem append_lt_append_iff (s : List α) {b : List α} : s ++ a < s ++ b ↔ a < b := by
  induction s with
  | nil => rfl
  | cons x s ih =>
    rw [cons_append, cons_append, cons_lt_cons_iff]
    simp [ih]

variable {p k : List α}

theorem prefix_lt (h : p <+: k) (hne : p ≠ k) : p < k := by
  obtain ⟨t, rfl⟩ := h
  have ht : t ≠ [] := fun e => hne (by simp [e])
  obtain ⟨x, t, rfl⟩ := exists_cons_of_ne_nil ht
  have := (append_lt_append_iff p (a := []) (b := x :: t)).2 (nil_lt_cons x t)
  simpa using this

theorem prefix_le (h : p <+: k) : p ≤ k := by
  by_cases hne : p = k
  · exact hne.le
  · exact (prefix_lt h hne).le

theorem append_lt_append_of_lt {b : List α} (h : a < b) (hl : a.length = b.length) (c d : List α) :
    a ++ c < b ++ d := by
  induction a generalizing b with
  | nil =>
    cases b with
    | nil => exact absurd h (lt_irrefl _)
    | cons y b => simp at hl
  | cons x a ih =>
    cases b with
    | nil => simp at hl
    | cons y b =>
      rw [cons_lt_cons_iff] at h
      rw [cons_append, cons_append, cons_lt_cons_iff]
      rcases h with h | ⟨rfl, h⟩
      · exact .inl h
      · exact .inr ⟨rfl, ih h (by simpa using hl)⟩

/-- The strings that start with `p ++ [c]` form the range from `p ++ [c]` to the string with the
next last element. -/
theorem snoc_prefix_iff {c d : α} (hcd : c ⋖ d) (p k : List α) :
    p ++ [c] <+: k ↔ p ++ [c] ≤ k ∧ k < p ++ [d] := by
  induction p generalizing k with
  | nil =>
    cases k with
    | nil => simp
    | cons x k =>
      have hk : ¬ k < [] := not_lt_nil k
      have h1 : [c] ≤ x :: k ↔ c ≤ x := by
        rw [← not_lt, cons_lt_cons_iff, ← not_lt]
        constructor
        · exact fun h hlt => h (.inl hlt)
        · rintro h (hlt | ⟨-, hlt⟩)
          · exact h hlt
          · exact hk hlt
      have h2 : x :: k < [d] ↔ x < d := by
        rw [cons_lt_cons_iff]
        exact ⟨fun h => h.elim id fun h => absurd h.2 hk, .inl⟩
      simp only [nil_append, cons_prefix_cons, nil_prefix, and_true, h1, h2]
      constructor
      · rintro rfl
        exact ⟨le_rfl, hcd.lt⟩
      · rintro ⟨hle, hlt⟩
        exact hle.eq_of_not_lt fun h => hcd.2 h hlt
  | cons y p ih =>
    cases k with
    | nil => simp
    | cons x k =>
      simp only [cons_append, cons_prefix_cons, ih, cons_le_cons_iff, cons_lt_cons_iff]
      constructor
      · rintro ⟨rfl, h1, h2⟩
        exact ⟨.inr ⟨rfl, h1⟩, .inr ⟨rfl, h2⟩⟩
      · rintro ⟨h1 | ⟨rfl, h1⟩, h2 | ⟨he, h2⟩⟩
        · exact absurd h1 h2.asymm
        · exact absurd h1 he.not_gt
        · exact absurd h2 (lt_irrefl _)
        · exact ⟨rfl, h1, h2⟩

theorem lt_snoc_of_lt {c d : α} (hcd : c < d) (h : p ++ [c] <+: k) :
    k < p ++ [d] := by
  obtain ⟨t, rfl⟩ := h
  rw [append_assoc, append_lt_append_iff]
  exact cons_lt_cons_iff.2 (.inl hcd)

theorem prefix_of_le_append (hle : a ≤ k) (hge : k ≤ a ++ t) : a <+: k := by
  induction a generalizing k with
  | nil => exact nil_prefix
  | cons x a ih =>
    cases k with
    | nil => exact absurd (nil_lt_cons x a) hle.not_gt
    | cons y k =>
      rcases cons_le_cons_iff.1 hle, cons_le_cons_iff.1 hge with ⟨hxy | ⟨rfl, hak⟩,
        hyx | ⟨hyx, hka⟩⟩
      · exact absurd hxy hyx.asymm
      · exact absurd hxy hyx.not_gt
      · exact absurd hyx (lt_irrefl x)
      · exact cons_prefix_cons.2 ⟨rfl, ih hak hka⟩

theorem replicate_prefix_of_le {t : α} (ht : ∀ a, a ≤ t) {n : Nat} {x : List α}
    (h : List.replicate n t ≤ x) :
    List.replicate n t <+: x := by
  induction n generalizing x with
  | zero => exact nil_prefix
  | succ n ih =>
    cases x with
    | nil => exact absurd (nil_lt_cons t (List.replicate n t)) h.not_gt
    | cons a x =>
      rw [replicate_succ] at h ⊢
      rcases cons_le_cons_iff.1 h with hlt | ⟨rfl, hle⟩
      · exact absurd hlt (ht a).not_gt
      · exact cons_prefix_cons.2 ⟨rfl, ih hle⟩

theorem eq_replicate_of_le {z : α} (hz : ∀ a, z ≤ a) {n : Nat} {x : List α}
    (h : x ≤ List.replicate n z) :
    ∃ i, x = List.replicate i z := by
  induction n generalizing x with
  | zero =>
    cases x with
    | nil => exact ⟨0, rfl⟩
    | cons a x => exact absurd (nil_lt_cons a x) h.not_gt
  | succ n ih =>
    cases x with
    | nil => exact ⟨0, rfl⟩
    | cons a x =>
      rcases cons_le_cons_iff.1 h with hlt | ⟨rfl, hle⟩
      · exact absurd hlt (hz a).not_gt
      · obtain ⟨i, rfl⟩ := ih hle
        exact ⟨i + 1, rfl⟩

end Order

/-! ## Lists of texts cut to length -/

section Cut

variable {α β : Type*} (f : α → List β) (n : α → Nat)

theorem length_flatten_map_take_le (l : List α) :
    (l.map fun a => (f a).take (n a)).flatten.length ≤ (l.map f).flatten.length := by
  induction l with
  | nil => simp
  | cons a l ih =>
    simp only [map_cons, flatten_cons, length_append, length_take]
    omega

theorem flatten_map_take_eq_iff (l : List α) :
    (l.map fun a => (f a).take (n a)).flatten = (l.map f).flatten ↔
      ∀ a ∈ l, (f a).length ≤ n a := by
  constructor
  · intro h
    induction l with
    | nil => simp
    | cons a l ih =>
      simp only [map_cons, flatten_cons] at h
      have hle := length_flatten_map_take_le f n l
      have hlen : (f a).length ≤ n a := by
        have := congrArg List.length h
        simp only [length_append, length_take] at this
        omega
      rw [take_of_length_le hlen] at h
      intro x hx
      rcases mem_cons.1 hx with rfl | hx
      · exact hlen
      · exact ih (append_cancel_left h) x hx
  · intro h
    rw [map_congr_left fun a ha => take_of_length_le (h a ha)]

end Cut

/-! ## Separated lists -/

section Separated

variable {α : Type*} [DecidableEq α] {sep : α}

def pieces (sep : α) (s : List α) : List (List α) := (s.splitOn sep).filter (· ≠ [])

variable {s : List α}

theorem pieces_intercalate {ks : List (List α)} (h : ∀ k ∈ ks, sep ∉ k ∧ k ≠ []) :
    pieces sep ([sep].intercalate ks) = ks := by
  by_cases hks : ks = []
  · subst hks; simp [pieces]
  · rw [pieces, splitOn_intercalate sep (fun k hk => (h k hk).1) hks, filter_eq_self]
    exact fun k hk => by simpa using (h k hk).2

theorem pieces_append_cons {u : List α} (hu : sep ∉ u) (hne : u ≠ []) (s : List α) :
    pieces sep (u ++ sep :: s) = u :: pieces sep s := by
  simp [pieces, splitOn_append_cons_self_of_not_mem hu, hne]

theorem splitOn_append_cons {b : List α} (hb : sep ∉ b) (a : List α) :
    ∃ l ≠ [], (a ++ sep :: b).splitOn sep = l ++ [b] := by
  induction a with
  | nil => exact ⟨[[]], by simp, by simp [splitOn_cons_eq_if_modifyHead, splitOn_eq_singleton hb]⟩
  | cons x a ih =>
    obtain ⟨l, hl, h⟩ := ih
    obtain ⟨q, l, rfl⟩ := exists_cons_of_ne_nil hl
    rw [cons_append, splitOn_cons_eq_if_modifyHead, h]
    split
    · exact ⟨[] :: q :: l, by simp, rfl⟩
    · exact ⟨(x :: q) :: l, by simp, rfl⟩

variable {p : List α}

theorem sep_not_mem_of_mem_splitOn (hp : p ∈ s.splitOn sep) : sep ∉ p := by
  induction s generalizing p with
  | nil => simp at hp; simp [hp]
  | cons x s ih =>
    rw [splitOn_cons_eq_if_modifyHead] at hp
    split at hp
    · rcases mem_cons.1 hp with rfl | hp
      · simp
      · exact ih hp
    · rename_i hx
      cases hs : s.splitOn sep with
      | nil => exact absurd hs (splitOn_ne_nil sep s)
      | cons q qs =>
        rw [hs] at hp ih
        rcases mem_cons.1 hp with rfl | hp
        · simp only [mem_cons, not_or]
          exact ⟨fun e => hx (by simp [e]), ih mem_cons_self⟩
        · exact ih (mem_cons_of_mem _ hp)

theorem exists_mem_splitOn {x : α} (hx : x ∈ s) (hne : x ≠ sep) :
    ∃ p ∈ s.splitOn sep, x ∈ p := by
  induction s with
  | nil => simp at hx
  | cons y s ih =>
    rw [splitOn_cons_eq_if_modifyHead]
    split
    · next hy =>
      rcases mem_cons.1 hx with rfl | hx
      · exact absurd (by simpa using hy) hne
      · obtain ⟨p, hp, hxp⟩ := ih hx
        exact ⟨p, mem_cons_of_mem _ hp, hxp⟩
    · cases hs : s.splitOn sep with
      | nil => exact absurd hs (splitOn_ne_nil sep s)
      | cons q qs =>
        rw [modifyHead_cons]
        rcases mem_cons.1 hx with rfl | hx
        · exact ⟨x :: q, mem_cons_self, mem_cons_self⟩
        · obtain ⟨p, hp, hxp⟩ := ih hx
          rw [hs] at hp
          rcases mem_cons.1 hp with rfl | hp
          · exact ⟨y :: p, mem_cons_self, mem_cons_of_mem _ hxp⟩
          · exact ⟨p, mem_cons_of_mem _ hp, hxp⟩

theorem sep_not_mem_of_mem_pieces (hp : p ∈ pieces sep s) : sep ∉ p :=
  sep_not_mem_of_mem_splitOn (mem_filter.1 hp).1

omit [DecidableEq α] in
theorem prefix_of_prefix_append_cons {a b : List α} (h : p <+: a ++ sep :: b) (hp : sep ∉ p) :
    p <+: a := by
  rcases prefix_or_prefix_of_prefix h (prefix_append a _) with hpa | ⟨w, rfl⟩
  · exact hpa
  · cases w with
    | nil => simp
    | cons c w =>
      have hc : c = sep := (cons_prefix_cons.1 ((prefix_append_right_inj a).1 h)).1
      exact absurd (by simp [hc]) hp

theorem nil_mem_splitOn_of_adjacent (h : [sep, sep] <:+: s) : [] ∈ s.splitOn sep := by
  obtain ⟨x, y, rfl⟩ := h
  suffices hs : [] ∈ ((x ++ [sep, sep] ++ y).splitOn sep).tail from mem_of_mem_tail hs
  induction x with
  | nil => simp [splitOn_cons_eq_if_modifyHead]
  | cons c x ih =>
    rw [cons_append, cons_append, splitOn_cons_eq_if_modifyHead]
    split
    · exact mem_of_mem_tail ih
    · simpa using ih

end Separated

end ByteString
