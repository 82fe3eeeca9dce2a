import Mathlib

/-!
# Slices as views of shared arrays

A slice is an address, a length and a capacity, and what it shows is the beginning of the array at
the address. An element within the length is written in place, for everyone who looks at the array;
an element behind the end goes into the array while there is capacity, and into a copy at a new
address afterwards. `inPlace` is what a sequence of edits leaves in the old array.
-/

namespace Slices

open List

structure Slice where
  addr : Nat
  len : Nat
  cap : Nat
deriving DecidableEq

abbrev Memory (α : Type*) := List (List α)

variable {α β : Type*}

def array (m : Memory α) (a : Nat) : List α := (m[a]?).getD []

def view (m : Memory α) (s : Slice) : List α := (array m s.addr).take s.len

structure Fits (m : Memory α) (s : Slice) : Prop where
  len_le : s.len ≤ s.cap
  cap_le : s.cap ≤ (array m s.addr).length

inductive Edit (α : Type*)
  | set (i : Nat) (x : α)
  | push (x : α)

def Edit.apply : Edit α → List α → List α
  | .set i x, l => l.set i x
  | .push x, l => l ++ [x]

/-- One edit; `spare` is what a new array has behind its elements. -/
def Edit.run (spare : Nat → List α) (m : Memory α) (s : Slice) : Edit α → Memory α × Slice
  | .set i x => (m.modify s.addr (·.set i x), s)
  | .push x =>
    if s.len < s.cap then (m.modify s.addr (·.set s.len x), { s with len := s.len + 1 })
    else (m ++ [view m s ++ x :: spare s.len],
      ⟨m.length, s.len + 1, s.len + 1 + (spare s.len).length⟩)

structure Editor (α β : Type*) where
  edit : β → List α → Edit α
  set_lt : ∀ u l i x, edit u l = .set i x → i < l.length

variable (e : Editor α β) (spare : Nat → List α)

def run (p : Memory α × Slice) (us : List β) : Memory α × Slice :=
  us.foldl (fun p u => (e.edit u (view p.1 p.2)).run spare p.1 p.2) p

def runList (l : List α) (us : List β) : List α := us.foldl (fun l u => (e.edit u l).apply l) l

/-- What the edits leave in an array with the given capacity before they move on to another one. -/
def inPlace (cap : Nat) : List α → List β → List α
  | l, [] => l
  | l, u :: us =>
    match e.edit u l with
    | .set i x => inPlace cap (l.set i x) us
    | .push x => if l.length < cap then inPlace cap (l ++ [x]) us else l

section Lemmas

variable {e} {m : Memory α} {s : Slice}

theorem Fits.length_view (h : Fits m s) : (view m s).length = s.len := by
  rw [view, length_take]
  have := h.len_le
  have := h.cap_le
  omega

theorem length_le_inPlace (cap : Nat) (l : List α) (us : List β) :
    l.length ≤ (inPlace e cap l us).length := by
  induction us generalizing l with
  | nil => exact le_rfl
  | cons u us ih =>
    rw [inPlace]
    split
    · simpa using ih (l.set _ _)
    · split_ifs
      · exact le_trans (by simp) (ih _)
      · exact le_rfl

theorem length_inPlace_le (cap : Nat) (l : List α) (us : List β) :
    (inPlace e cap l us).length ≤ max cap l.length := by
  induction us generalizing l with
  | nil => exact le_max_right ..
  | cons u us ih =>
    rw [inPlace]
    split
    · simpa using ih (l.set _ _)
    · split_ifs
      · refine (ih _).trans ?_
        rw [length_append, length_singleton]
        omega
      · exact le_max_right ..

theorem array_modify (m : Memory α) (a b : Nat) (f : List α → List α) (hf : f [] = []) :
    array (m.modify a f) b = if a = b then f (array m b) else array m b := by
  unfold array
  rw [getElem?_modify]
  split_ifs
  · cases m[b]? <;> simp [hf]
  · cases m[b]? <;> simp

theorem array_append_left {a : Nat} (h : a < m.length) (x : List α) :
    array (m ++ [x]) a = array m a := by
  rw [array, array, getElem?_append_left h]

theorem array_append_new (x : List α) : array (m ++ [x]) m.length = x := by
  simp [array]

/-- What a sequence of edits does to the memory: other arrays stay, the array of the slice holds
what was edited in place, and the slice is where it was or at a new address. -/
structure Ran (e : Editor α β) (m : Memory α) (s : Slice) (us : List β) (r : Memory α × Slice) :
    Prop where
  frame : ∀ a, a < m.length → a ≠ s.addr → array r.1 a = array m a
  old : s.addr < m.length → array r.1 s.addr = inPlace e s.cap (view m s) us ++
    (array m s.addr).drop (inPlace e s.cap (view m s) us).length
  grows : m.length ≤ r.1.length
  fits_result : Fits r.1 r.2
  shows : view r.1 r.2 = runList e (view m s) us
  place : r.2.addr = s.addr ∧ r.2.cap = s.cap ∧ r.2.len = (inPlace e s.cap (view m s) us).length ∨
    m.length ≤ r.2.addr ∧ r.2.addr < r.1.length

theorem view_append_drop (h : Fits m s) : view m s ++ (array m s.addr).drop (view m s).length =
    array m s.addr := by
  rw [h.length_view]
  exact take_append_drop ..

/-- An edit in place is followed by the others. -/
theorem Ran.cons_in_place {u : β} {us : List β} {i : Nat} {x : α} {s' : Slice}
    {r : Memory α × Slice} (hi : i < (inPlace e s.cap (view m s) (u :: us)).length)
    (haddr : s'.addr = s.addr ∧ s'.cap = s.cap)
    (hview : view (m.modify s.addr (·.set i x)) s' = (e.edit u (view m s)).apply (view m s))
    (hplace : inPlace e s.cap (view m s) (u :: us) =
      inPlace e s.cap ((e.edit u (view m s)).apply (view m s)) us)
    (h : Ran e (m.modify s.addr (·.set i x)) s' us r) : Ran e m s (u :: us) r := by
  obtain ⟨hframe, hold, hgrows, hfits, hshows, hwhere⟩ := h
  simp only [length_modify, haddr, hview, ← hplace] at hframe hold hgrows hwhere
  refine ⟨fun a ha hne => ?_, fun ha => ?_, hgrows, hfits, hshows.trans (by rw [hview]; rfl),
    hwhere⟩
  · rw [hframe a ha hne, array_modify _ _ _ _ (by simp), if_neg hne.symm]
  · rw [hold ha, array_modify _ _ _ _ (by simp), if_pos rfl, drop_set_of_lt hi]

theorem run_ran (us : List β) (h : Fits m s) : Ran e m s us (run e spare (m, s) us) := by
  induction us generalizing m s with
  | nil => exact ⟨fun _ _ _ => rfl, fun _ => (view_append_drop h).symm, le_rfl, h, rfl,
    .inl ⟨rfl, rfl, h.length_view.symm⟩⟩
  | cons u us ih =>
    have hlen := h.len_le
    have hcap := h.cap_le
    change Ran e m s (u :: us) (run e spare ((e.edit u (view m s)).run spare m s) us)
    cases hu : e.edit u (view m s) with
    | set i x =>
      have hi : i < s.len := h.length_view ▸ e.set_lt _ _ _ _ hu
      have hstep : inPlace e s.cap (view m s) (u :: us) =
        inPlace e s.cap ((view m s).set i x) us := by rw [inPlace, hu]
      have hfits : Fits (m.modify s.addr (·.set i x)) s := ⟨hlen, by
        rw [array_modify _ _ _ _ (by simp), if_pos rfl, length_set]
        exact hcap⟩
      refine (ih hfits).cons_in_place ?_ ⟨rfl, rfl⟩ ?_ (by rw [hstep, hu]; rfl)
      · have := length_le_inPlace (e := e) s.cap ((view m s).set i x) us
        rw [length_set, h.length_view] at this
        rw [hstep]
        omega
      · rw [hu, view, array_modify _ _ _ _ (by simp), if_pos rfl]
        exact take_set ..
    | push x =>
      rw [Edit.run]
      split_ifs with hroom
      · have hstep : inPlace e s.cap (view m s) (u :: us) =
            inPlace e s.cap (view m s ++ [x]) us := by
          rw [inPlace, hu]
          simp only
          rw [if_pos (h.length_view.symm ▸ hroom)]
        have hfits : Fits (m.modify s.addr (·.set s.len x)) { s with len := s.len + 1 } :=
          ⟨hroom, by
          rw [array_modify _ _ _ _ (by simp), if_pos rfl, length_set]
          exact hcap⟩
        refine (ih hfits).cons_in_place ?_ (And.intro ?_ ?_) ?_ (by rw [hstep, hu]; rfl)
        · have := length_le_inPlace (e := e) s.cap (view m s ++ [x]) us
          rw [length_append, h.length_view, length_singleton] at this
          rw [hstep]
          omega
        · rfl
        · rfl
        · rw [hu, view, array_modify _ _ _ _ (by simp), if_pos rfl]
          change ((array m s.addr).set s.len x).take (s.len + 1) =
            (array m s.addr).take s.len ++ [x]
          rw [take_add_one, take_set, set_eq_of_length_le (by simp), getElem?_set_self (by omega)]
          rfl
      · have hstep : inPlace e s.cap (view m s) (u :: us) = view m s := by
          rw [inPlace, hu]
          simp only
          rw [if_neg (h.length_view.symm ▸ hroom)]
        have hnew : view (m ++ [view m s ++ x :: spare s.len]) ⟨m.length, s.len + 1,
          s.len + 1 + (spare s.len).length⟩ =
            view m s ++ [x] := by
          rw [view, array_append_new, ← h.length_view, take_length_add_append]
          rfl
        have hfits : Fits (m ++ [view m s ++ x :: spare s.len]) ⟨m.length, s.len + 1,
            s.len + 1 + (spare s.len).length⟩ :=
          ⟨Nat.le_add_right _ _, by simp [array_append_new, h.length_view]; omega⟩
        obtain ⟨hframe, -, hgrows, hfits', hshows, hwhere⟩ := ih hfits
        rw [length_append, length_singleton] at hframe hgrows hwhere
        have hall : ∀ a, a < m.length → array (run e spare (m ++ [view m s ++ x :: spare s.len],
            ⟨m.length, s.len + 1, s.len + 1 + (spare s.len).length⟩) us).1 a =
                array m a := fun a ha => by
          rw [hframe a (by omega) (by simp; omega), array_append_left ha]
        refine ⟨fun a ha _ => hall a ha, fun ha => ?_, by omega, hfits', ?_, .inr ?_⟩
        · rw [hall _ ha, hstep, view_append_drop h]
        · rw [hshows, hnew, runList, runList, foldl_cons, hu]
          rfl
        · rcases hwhere with ⟨ha, -⟩ | hwhere
          · simp only at ha
            omega
          · omega

theorem Fits.addr_lt (h : Fits m s) (hc : s.cap ≠ 0) : s.addr < m.length := by
  by_contra hlt
  have := h.cap_le
  rw [array, getElem?_eq_none (not_lt.1 hlt)] at this
  exact hc (Nat.le_zero.1 this)

theorem Fits.view_of_cap_eq_zero (h : Fits m s) (hc : s.cap = 0) (m' : Memory α) :
    view m' s = [] := by
  have hl : s.len = 0 := Nat.le_zero.1 (h.len_le.trans hc.le)
  rw [view, hl, take_zero]

theorem Fits.append (h : Fits m s) (x : List α) : Fits (m ++ [x]) s := by
  by_cases hc : s.cap = 0
  · exact ⟨h.len_le, hc ▸ Nat.zero_le _⟩
  · exact ⟨h.len_le, by rw [array_append_left (h.addr_lt hc)]; exact h.cap_le⟩

theorem Fits.view_append (h : Fits m s) (x : List α) : view (m ++ [x]) s = view m s := by
  by_cases hc : s.cap = 0
  · rw [h.view_of_cap_eq_zero hc, h.view_of_cap_eq_zero hc]
  · rw [view, view, array_append_left (h.addr_lt hc)]

variable {t : Slice} {us : List β} {r : Memory α × Slice}

theorem Ran.view_other (h : Ran e m s us r) (ht : Fits m t) (hne : t.addr ≠ s.addr) :
    view r.1 t = view m t := by
  by_cases hc : t.cap = 0
  · rw [ht.view_of_cap_eq_zero hc, ht.view_of_cap_eq_zero hc]
  · rw [view, view, h.frame _ (ht.addr_lt hc) hne]

theorem Ran.view_self (h : Ran e m s us r) (hs : Fits m s) :
    view r.1 s = (inPlace e s.cap (view m s) us).take s.len := by
  by_cases hc : s.cap = 0
  · have hl : s.len = 0 := Nat.le_zero.1 (hs.len_le.trans hc.le)
    rw [hs.view_of_cap_eq_zero hc, hl, take_zero]
  · have hlen := length_le_inPlace (e := e) s.cap (view m s) us
    rw [hs.length_view] at hlen
    rw [view, h.old (hs.addr_lt hc), take_append_of_le_length hlen]

theorem Ran.fits (h : Ran e m s us r) (ht : Fits m t) : Fits r.1 t := by
  by_cases hc : t.cap = 0
  · exact ⟨ht.len_le, hc ▸ Nat.zero_le _⟩
  · refine ⟨ht.len_le, ht.cap_le.trans ?_⟩
    by_cases hne : t.addr = s.addr
    · rw [hne, h.old (hne ▸ ht.addr_lt hc), length_append, length_drop]
      omega
    · rw [h.frame _ (ht.addr_lt hc) hne]

theorem Ran.eq_of_full (h : Ran e m s us r) (hs : Fits m s) (hfull : s.len = s.cap) (hc : s.cap ≠ 0)
    (ha : r.2.addr = s.addr) :
    r.2 = s := by
  have hlt := hs.addr_lt hc
  rcases h.place with ⟨-, hcap, hlen⟩ | ⟨hnew, -⟩
  · have hle := length_inPlace_le (e := e) s.cap (view m s) us
    have hge := length_le_inPlace (e := e) s.cap (view m s) us
    rw [hs.length_view] at hle hge
    have hlen' : r.2.len = s.len := by omega
    calc r.2 = ⟨r.2.addr, r.2.len, r.2.cap⟩ := rfl
      _ = ⟨s.addr, s.len, s.cap⟩ := by rw [ha, hlen', hcap]
  · omega

end Lemmas

end Slices
