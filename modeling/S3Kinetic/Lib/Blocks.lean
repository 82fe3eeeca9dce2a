import Mathlib

/-!
# Texts cut into blocks

`blocks B` cuts a text into blocks of `B` letters, the last one possibly shorter. `frame B hd`
writes the text block by block with the same header before each, and `unframe B m` takes headers of
`m` letters away. A framed text can be entered at any block (`frame_drop`). `framedLength` and
`unframedLength` are the two lengths.
-/

namespace Blocks

open List

variable {α : Type*}

def cut (B : Nat) : Nat → List α → List (List α)
  | 0, _ => []
  | _ + 1, [] => []
  | fuel + 1, l => l.take B :: cut B fuel (l.drop B)

def blocks (B : Nat) (l : List α) : List (List α) := cut B l.length l

def frame (B : Nat) (hd l : List α) : List α := (blocks B l).flatMap (hd ++ ·)

def unframe (B m : Nat) (l : List α) : List α := (blocks (B + m) l).flatMap (List.drop m)

/-- The length of a framed text of `n` letters, with headers of `m`. -/
def framedLength (B m n : Nat) : Nat := n / B * (B + m) + if n % B = 0 then 0 else n % B + m

/-- The lengths of the blocks of a text of `n` letters. -/
def payloads (B n : Nat) : List Nat := List.replicate (n / B) B ++ if n % B = 0 then [] else [n % B]

/-- The length of the text in a framed text of `n` letters. -/
def unframedLength (B m n : Nat) : Nat := n / (B + m) * B + (n % (B + m) - m)

section Cut

variable {B : Nat} {l : List α}

theorem cut_cons {fuel : Nat} (hl : l ≠ []) :
    cut B (fuel + 1) l = l.take B :: cut B fuel (l.drop B) := by
  cases l with
  | nil => exact absurd rfl hl
  | cons a l => rfl

theorem cut_eq (hB : 0 < B) {fuel : Nat} (h : l.length ≤ fuel) : cut B fuel l = blocks B l := by
  rw [blocks]
  generalize hn : l.length = n at h
  induction fuel using Nat.strong_induction_on generalizing l n with
  | _ fuel ih =>
    cases l with
    | nil => cases fuel <;> cases n <;> rfl
    | cons a l =>
      obtain ⟨fuel, rfl⟩ := Nat.exists_eq_add_one.2 (show 0 < fuel by simp at hn; omega)
      obtain ⟨n, rfl⟩ := Nat.exists_eq_add_one.2 (show 0 < n by simp at hn; omega)
      have hlen : ((a :: l).drop B).length = n + 1 - B := by rw [length_drop, hn]
      rw [cut_cons (by simp), cut_cons (by simp), ih fuel (by omega) _ hlen (by omega),
        ih n (by omega) _ hlen (by omega)]

@[simp]
theorem blocks_nil : blocks B ([] : List α) = [] := rfl

theorem blocks_of_ne_nil (hB : 0 < B) (hl : l ≠ []) :
    blocks B l = l.take B :: blocks B (l.drop B) := by
  have hpos : 0 < l.length := length_pos_iff.2 hl
  obtain ⟨n, hn⟩ := Nat.exists_eq_add_one.2 hpos
  rw [blocks, hn, cut_cons hl, cut_eq hB (by rw [length_drop]; omega)]

theorem block_induction (hB : 0 < B) {motive : List α → Prop} (nil : motive [])
    (step : ∀ l, l ≠ [] → motive (l.drop B) → motive l) (l : List α) : motive l := by
  induction hn : l.length using Nat.strong_induction_on generalizing l with
  | _ n ih =>
    by_cases hl : l = []
    · exact hl ▸ nil
    · have hpos : 0 < l.length := length_pos_iff.2 hl
      exact step l hl (ih (l.drop B).length (by rw [length_drop]; omega) _ rfl)

theorem flatMap_drop {γ : Type*} {f : List α → List γ} {S : Nat} (hB : 0 < B)
    (hf : ∀ b, b.length = B → (f b).length = S) {k : Nat} (hk : k * B ≤ l.length) :
    ((blocks B l).flatMap f).drop (k * S) = (blocks B (l.drop (k * B))).flatMap f := by
  induction k generalizing l with
  | zero => simp
  | succ k ih =>
    rw [Nat.succ_mul] at hk
    have hl : l ≠ [] := length_pos_iff.1 (by omega)
    have hfirst : (f (l.take B)).length = S := hf _ (by rw [length_take]; omega)
    have hk' : k * B ≤ (l.drop B).length := by
      rw [length_drop]
      omega
    rw [blocks_of_ne_nil hB hl, flatMap_cons, Nat.succ_mul, Nat.add_comm (k * S), ← drop_drop,
      drop_append_of_le_length hfirst.ge, drop_of_length_le hfirst.le, nil_append,
        ih hk', drop_drop, Nat.succ_mul, Nat.add_comm B]

end Cut

section Frames

variable {B : Nat} {hd l : List α}

@[simp]
theorem frame_nil : frame B hd ([] : List α) = [] := rfl

theorem frame_of_ne_nil (hB : 0 < B) (hl : l ≠ []) :
    frame B hd l = hd ++ l.take B ++ frame B hd (l.drop B) := by
  rw [frame, blocks_of_ne_nil hB hl, flatMap_cons, frame]

theorem frame_split (hB : 0 < B) (hl : l ≠ []) :
    (frame B hd l).take (B + hd.length) = hd ++ l.take B ∧
      (frame B hd l).drop (B + hd.length) = frame B hd (l.drop B) := by
  rw [frame_of_ne_nil hB hl]
  by_cases hlen : B ≤ l.length
  · have hfull : (hd ++ l.take B).length = B + hd.length := by
      rw [length_append, length_take]
      omega
    exact ⟨take_left' hfull, drop_left' hfull⟩
  · have hend : l.drop B = [] := drop_eq_nil_of_le (by omega)
    have hshort : (hd ++ l.take B).length ≤ B + hd.length := by
      rw [length_append, length_take]
      omega
    rw [hend, frame_nil, append_nil]
    exact ⟨take_of_length_le hshort, drop_eq_nil_of_le hshort⟩

theorem unframe_frame (hB : 0 < B) : unframe B hd.length (frame B hd l) = l := by
  induction l using block_induction hB with
  | nil => rfl
  | step l hl ih =>
    have hne : frame B hd l ≠ [] := by
      rw [frame_of_ne_nil hB hl]
      have : l.take B ≠ [] := by
        simp only [ne_eq, take_eq_nil_iff, not_or]
        exact ⟨by omega, hl⟩
      simp [this]
    rw [unframe, blocks_of_ne_nil (by omega) hne, flatMap_cons, (frame_split hB hl).1,
      (frame_split hB hl).2, drop_left, ← unframe, ih, take_append_drop]

theorem frame_drop (hB : 0 < B) {k : Nat} (hk : k * B ≤ l.length) :
    (frame B hd l).drop (k * (B + hd.length)) = frame B hd (l.drop (k * B)) :=
  flatMap_drop hB (fun b hb => by rw [length_append, hb, Nat.add_comm]) hk

end Frames

section Lengths

variable {B m n : Nat}

theorem framedLength_of_lt (hn : n < B) : framedLength B m n = if n = 0 then 0 else n + m := by
  rw [framedLength, Nat.div_eq_of_lt hn, Nat.mod_eq_of_lt hn, Nat.zero_mul, Nat.zero_add]

theorem framedLength_add (hB : 0 < B) : framedLength B m (B + n) = B + m + framedLength B m n := by
  rw [framedLength, framedLength, Nat.add_div_left n hB, Nat.add_mod_left, Nat.succ_mul]
  omega

theorem le_framedLength (hB : 0 < B) {k : Nat} (hk : k * B ≤ n) :
    k * (B + m) ≤ framedLength B m n := by
  induction k generalizing n with
  | zero => simp
  | succ k ih =>
    rw [Nat.succ_mul] at hk
    obtain ⟨r, rfl⟩ := Nat.exists_eq_add_of_le (show B ≤ n by omega)
    have := ih (n := r) (by omega)
    rw [framedLength_add hB, Nat.succ_mul]
    omega

theorem unframedLength_add (hB : 0 < B) :
    unframedLength B m (B + m + n) = B + unframedLength B m n := by
  rw [unframedLength, unframedLength, Nat.add_div_left n (by omega), Nat.add_mod_left, Nat.succ_mul]
  omega

theorem unframedLength_framedLength (hB : 0 < B) : unframedLength B m (framedLength B m n) = n := by
  induction n using Nat.strong_induction_on with
  | _ n ih =>
    by_cases hn : n < B
    · rw [framedLength_of_lt hn]
      split_ifs with h0
      · simp [unframedLength, h0]
      · rw [unframedLength, Nat.div_eq_of_lt (by omega), Nat.mod_eq_of_lt (by omega)]
        omega
    · obtain ⟨k, rfl⟩ := Nat.exists_eq_add_of_le (Nat.le_of_not_lt hn)
      rw [framedLength_add hB, unframedLength_add hB, ih k (by omega)]

theorem length_frame (hB : 0 < B) {hd l : List α} :
    (frame B hd l).length = framedLength B hd.length l.length := by
  induction l using block_induction hB with
  | nil => simp [framedLength]
  | step l hl ih =>
    have hpos : 0 < l.length := length_pos_iff.2 hl
    rw [frame_of_ne_nil hB hl, length_append, ih, length_append, length_take, length_drop]
    by_cases hlen : l.length < B
    · rw [framedLength_of_lt hlen, if_neg (by omega), Nat.min_eq_right (by omega),
        Nat.sub_eq_zero_of_le (by omega)]
      simp only [framedLength, Nat.zero_div, Nat.zero_mod, Nat.zero_mul, if_true]
      omega
    · obtain ⟨k, hk⟩ := Nat.exists_eq_add_of_le (Nat.le_of_not_lt hlen)
      rw [hk, framedLength_add hB, Nat.min_eq_left (by omega), Nat.add_sub_cancel_left]
      omega

theorem framedLength_eq (hB : 0 < B) : framedLength B m n = n + m * ((n + B - 1) / B) := by
  induction n using Nat.strong_induction_on with
  | _ n ih =>
    by_cases hn : n < B
    · rw [framedLength_of_lt hn]
      split_ifs with h0
      · rw [h0, Nat.div_eq_of_lt (by omega)]
        omega
      · have : (n + B - 1) / B = 1 := Nat.div_eq_of_lt_le (by omega) (by omega)
        rw [this, Nat.mul_one]
    · obtain ⟨k, rfl⟩ := Nat.exists_eq_add_of_le (Nat.le_of_not_lt hn)
      have : B + k + B - 1 = B + (k + B - 1) := by omega
      rw [framedLength_add hB, ih k (by omega), this, Nat.add_div_left _ hB, Nat.mul_succ]
      omega

theorem payloads_of_lt (hn : n < B) : payloads B n = if n = 0 then [] else [n] := by
  rw [payloads, Nat.div_eq_of_lt hn, Nat.mod_eq_of_lt hn, replicate_zero, nil_append]

theorem payloads_add (hB : 0 < B) : payloads B (B + n) = B :: payloads B n := by
  rw [payloads, Nat.add_div_left n hB, Nat.add_mod_left, replicate_succ, cons_append, payloads]

theorem pos_of_mem_payloads (hB : 0 < B) {k : Nat} (h : k ∈ payloads B n) : 0 < k := by
  rw [payloads, mem_append, mem_replicate] at h
  rcases h with ⟨-, rfl⟩ | h
  · exact hB
  · split_ifs at h with h0
    · simp at h
    · rw [mem_singleton.1 h]
      omega

theorem sum_take_payloads (hB : 0 < B) (k : Nat) : ((payloads B n).take k).sum = min (k * B) n := by
  induction n using Nat.strong_induction_on generalizing k with
  | _ n ih =>
    cases k with
    | zero => simp
    | succ k =>
      by_cases hn : n < B
      · have : n ≤ (k + 1) * B := by rw [Nat.succ_mul]; omega
        rw [payloads_of_lt hn, Nat.min_eq_right this]
        split_ifs with h0 <;> simp [h0]
      · obtain ⟨r, rfl⟩ := Nat.exists_eq_add_of_le (Nat.le_of_not_lt hn)
        rw [payloads_add hB, take_succ_cons, sum_cons, ih r (by omega), Nat.succ_mul]
        omega

theorem sum_take_framed (hB : 0 < B) (k : Nat) :
    (((payloads B n).take k).map (· + m)).sum = min (k * (B + m)) (framedLength B m n) := by
  induction n using Nat.strong_induction_on generalizing k with
  | _ n ih =>
    cases k with
    | zero => simp
    | succ k =>
      by_cases hn : n < B
      · have : framedLength B m n ≤ (k + 1) * (B + m) := by
          rw [framedLength_of_lt hn, Nat.succ_mul]
          split_ifs <;> omega
        rw [Nat.min_eq_right this, payloads_of_lt hn, framedLength_of_lt hn]
        split_ifs <;> simp
      · obtain ⟨r, rfl⟩ := Nat.exists_eq_add_of_le (Nat.le_of_not_lt hn)
        rw [payloads_add hB, take_succ_cons, map_cons, sum_cons, ih r (by omega),
          framedLength_add hB, Nat.succ_mul]
        omega

theorem sum_payloads (hB : 0 < B) : (payloads B n).sum = n := by
  induction n using Nat.strong_induction_on with
  | _ n ih =>
    by_cases hn : n < B
    · rw [payloads_of_lt hn]
      split_ifs with h0 <;> simp [h0]
    · obtain ⟨r, rfl⟩ := Nat.exists_eq_add_of_le (Nat.le_of_not_lt hn)
      rw [payloads_add hB, sum_cons, ih r (by omega)]

theorem sum_framed (hB : 0 < B) : ((payloads B n).map (· + m)).sum = framedLength B m n := by
  induction n using Nat.strong_induction_on with
  | _ n ih =>
    by_cases hn : n < B
    · rw [payloads_of_lt hn, framedLength_of_lt hn]
      split_ifs <;> simp
    · obtain ⟨r, rfl⟩ := Nat.exists_eq_add_of_le (Nat.le_of_not_lt hn)
      rw [payloads_add hB, map_cons, sum_cons, ih r (by omega), framedLength_add hB]

theorem lt_length_payloads (hB : 0 < B) {k : Nat} : k < (payloads B n).length ↔ k * B < n := by
  induction n using Nat.strong_induction_on generalizing k with
  | _ n ih =>
    by_cases hn : n < B
    · rw [payloads_of_lt hn]
      cases k with
      | zero => split_ifs <;> simp_all; omega
      | succ k =>
        have : ¬ (k + 1) * B < n := by rw [Nat.succ_mul]; omega
        split_ifs <;> simp [this]
    · obtain ⟨r, rfl⟩ := Nat.exists_eq_add_of_le (Nat.le_of_not_lt hn)
      rw [payloads_add hB, length_cons]
      cases k with
      | zero => simp; omega
      | succ k =>
        rw [Nat.succ_lt_succ_iff, ih r (by omega), Nat.succ_mul]
        omega

end Lengths

end Blocks
