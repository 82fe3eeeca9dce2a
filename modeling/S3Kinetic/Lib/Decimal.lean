import S3Kinetic.Lib.ByteString

/-!
# Decimal numerals

Integers written in base ten (`formatInt`), with a minimum number of digits (`padInt`), and read
back as 64-bit integers (`parseInt64`). A numeral that does not fit is clipped to the nearest
64-bit value and reported, as is a text that is no numeral; a caller may ignore the report.
-/

namespace Decimal

open List

/-! ## Digits -/

def digit (d : Nat) : UInt8 := UInt8.ofNat (48 + d)

def isDigit (c : UInt8) : Bool := 48 ≤ c && c ≤ 57

theorem digit_toNat {d : Nat} (h : d < 10) : (digit d).toNat = 48 + d := by
  rw [digit, UInt8.toNat_ofNat_of_lt' (show 48 + d < 256 by omega)]

variable {c : UInt8}

theorem isDigit_iff : isDigit c = true ↔ 48 ≤ c.toNat ∧ c.toNat ≤ 57 := by
  simp [isDigit, UInt8.le_iff_toNat_le]

theorem isDigit_digit {d : Nat} (h : d < 10) : isDigit (digit d) = true := by
  rw [isDigit_iff, digit_toNat h]
  omega

/-! ## Writing -/

/-- The digits of `n`, with at most `fuel` of them. -/
def natDigits : Nat → Nat → Bytes
  | 0, _ => []
  | fuel + 1, n => if n < 10 then [digit n] else natDigits fuel (n / 10) ++ [digit (n % 10)]

def formatNat (n : Nat) : Bytes := natDigits (n.log2 + 1) n

def formatInt : Int → Bytes
  | .ofNat n => formatNat n
  | .negSucc n => 45 :: formatNat (n + 1)

/-- A numeral with leading zeros up to `w` digits. -/
def padNat (w n : Nat) : Bytes :=
  List.replicate (w - (formatNat n).length) (digit 0) ++ formatNat n

/-- An integer with at least `w` digits. -/
def padInt (w : Nat) : Int → Bytes
  | .ofNat n => padNat w n
  | .negSucc n => 45 :: padNat w (n + 1)

variable {fuel n : Nat}

theorem natDigits_isDigit (h : c ∈ natDigits fuel n) :
    isDigit c = true := by
  induction fuel generalizing n with
  | zero => simp [natDigits] at h
  | succ fuel ih =>
    rw [natDigits] at h
    split at h
    · rw [mem_singleton.1 h]
      exact isDigit_digit ‹_›
    · rcases mem_append.1 h with h | h
      · exact ih h
      · rw [mem_singleton.1 h]
        exact isDigit_digit (Nat.mod_lt _ (by omega))

theorem formatNat_isDigit (h : c ∈ formatNat n) : isDigit c = true :=
  natDigits_isDigit h

theorem formatInt_digit_or_minus {n : Int} (h : c ∈ formatInt n) :
    isDigit c = true ∨ c = 45 := by
  cases n with
  | ofNat n => exact .inl (formatNat_isDigit h)
  | negSucc n =>
    rcases mem_cons.1 h with h | h
    · exact .inr h
    · exact .inl (formatNat_isDigit h)

variable {w : Nat}

theorem padNat_isDigit (h : c ∈ padNat w n) : isDigit c = true := by
  rcases mem_append.1 h with h | h
  · rw [(mem_replicate.1 h).2]
    exact isDigit_digit (by omega)
  · exact formatNat_isDigit h

theorem padInt_digit_or_minus {n : Int} (h : c ∈ padInt w n) :
    isDigit c = true ∨ c = 45 := by
  cases n with
  | ofNat n => exact .inl (padNat_isDigit h)
  | negSucc n =>
    rcases mem_cons.1 h with h | h
    · exact .inr h
    · exact .inl (padNat_isDigit h)

theorem natDigits_length_le (hw : 0 < w) (h : n < 10 ^ w) :
    (natDigits fuel n).length ≤ w := by
  induction fuel generalizing n w with
  | zero => simp [natDigits]
  | succ fuel ih =>
    rw [natDigits]
    split
    · exact hw
    · next h10 =>
      obtain ⟨w, rfl⟩ : ∃ v, w = v + 1 := ⟨w - 1, by omega⟩
      have hw' : 0 < w := by
        rcases Nat.eq_zero_or_pos w with rfl | hw'
        · simp at h; omega
        · exact hw'
      have := ih hw' (n := n / 10) (by rw [Nat.pow_succ] at h; omega)
      simpa using this

theorem padNat_length (hw : 0 < w) (h : n < 10 ^ w) : (padNat w n).length = w := by
  have : (formatNat n).length ≤ w := natDigits_length_le hw h
  simp only [padNat, length_append, length_replicate]
  omega

/-! ## Reading -/

inductive NumError where
  | errSyntax
  | errRange
  deriving DecidableEq, Repr

/-- Reads the remaining digits of an unsigned 64-bit numeral; the first bad digit or overflow
ends it. -/
def parseUint (n : Nat) : Bytes → Nat × Option NumError
  | [] => (n, none)
  | c :: s =>
    if isDigit c then
      if 10 * n + (c.toNat - 48) < 2 ^ 64 then parseUint (10 * n + (c.toNat - 48)) s
      else (2 ^ 64 - 1, some .errRange)
    else (0, some .errSyntax)

def splitSign : Bytes → Bool × Bytes
  | [] => (false, [])
  | c :: s => if c = 43 then (false, s) else if c = 45 then (true, s) else (false, c :: s)

/-- The value of a 64-bit numeral and whether it is one. -/
def parseInt64 (s : Bytes) : Int × Option NumError :=
  let (neg, digits) := splitSign s
  if digits = [] then (0, some .errSyntax)
  else
    match parseUint 0 digits with
    | (_, some .errSyntax) => (0, some .errSyntax)
    | (n, _) =>
      if neg then if 2 ^ 63 < n then (-2 ^ 63, some .errRange) else (-(n : Int), none)
      else if 2 ^ 63 ≤ n then (2 ^ 63 - 1, some .errRange) else (n, none)

variable {s : Bytes}

theorem parseInt64_lt {n : Int} (h : parseInt64 s = (n, none)) : n < 2 ^ 63 := by
  unfold parseInt64 at h
  dsimp only at h
  split at h
  · cases h
  split at h
  · cases h
  split at h
  · split at h
    · cases h
    · cases h
      omega
  · split at h
    · cases h
    · cases h
      omega

variable {m : Nat}

theorem parseUint_append (a : Nat) (l r : Bytes) (h : parseUint a l = (m, none)) :
    parseUint a (l ++ r) = parseUint m r := by
  induction l generalizing a with
  | nil => simp [parseUint] at h; simp [h]
  | cons c l ih =>
    rw [parseUint] at h
    rw [cons_append, parseUint]
    split at h
    · next hc =>
      split at h
      · next hlt => rw [if_pos hc, if_pos hlt]; exact ih _ h
      · simp at h
    · simp at h

theorem parseUint_natDigits (hf : n < 2 ^ fuel) (hn : n < 2 ^ 64) (h0 : 0 < fuel) :
    parseUint 0 (natDigits fuel n) = (n, none) := by
  induction fuel generalizing n with
  | zero => omega
  | succ fuel ih =>
    rw [natDigits]
    split
    · next h10 =>
      simp only [parseUint, isDigit_digit h10, if_true, digit_toNat h10]
      rw [if_pos (by omega)]
      simp
    · next h10 =>
      have hlt : n % 10 < 10 := Nat.mod_lt _ (by omega)
      have hdiv : n / 10 < 2 ^ fuel := by rw [Nat.pow_succ] at hf; omega
      have hfuel : 0 < fuel := by
        rcases Nat.eq_zero_or_pos fuel with rfl | h
        · omega
        · exact h
      rw [parseUint_append 0 _ _ (ih hdiv (by omega) hfuel)]
      simp only [parseUint, isDigit_digit hlt, if_true, digit_toNat hlt]
      rw [if_pos (by omega)]
      simp only [Prod.mk.injEq, and_true]
      omega

theorem parseUint_formatNat (hn : n < 2 ^ 64) : parseUint 0 (formatNat n) = (n, none) :=
  parseUint_natDigits (Nat.lt_log2_self) hn (by omega)

theorem formatNat_ne_nil (n : Nat) : formatNat n ≠ [] := by
  rw [formatNat, natDigits]
  split <;> simp

theorem splitSign_of_isDigit (h : ∀ c ∈ s, isDigit c = true) :
    splitSign s = (false, s) := by
  cases s with
  | nil => rfl
  | cons c s =>
    have hc := isDigit_iff.1 (h c mem_cons_self)
    have h1 : c ≠ 43 := by rintro rfl; simp at hc
    have h2 : c ≠ 45 := by rintro rfl; simp at hc
    simp [splitSign, h1, h2]

theorem parseInt64_of_parseUint (hd : ∀ c ∈ s, isDigit c = true)
    (hs : s ≠ []) (hu : parseUint 0 s = (n, none)) (hn : n < 2 ^ 63) :
    parseInt64 s = ((n : Int), none) := by
  rw [parseInt64, splitSign_of_isDigit hd]
  simp only [hs, if_false, hu]
  rw [if_neg Bool.false_ne_true, if_neg (by omega)]

theorem parseInt64_formatNat (hn : n < 2 ^ 63) :
    parseInt64 (formatNat n) = ((n : Int), none) :=
  parseInt64_of_parseUint (fun _ => formatNat_isDigit) (formatNat_ne_nil n)
    (parseUint_formatNat (by omega)) hn

theorem parseInt64_minus (hs : s ≠ []) (hu : parseUint 0 s = (n, none)) (hn : n ≤ 2 ^ 63) :
    parseInt64 (45 :: s) = (-(n : Int), none) := by
  have hsign : splitSign (45 :: s) = (true, s) := rfl
  rw [parseInt64, hsign]
  simp only [hs, if_false, hu]
  rw [if_pos trivial, if_neg (by omega)]

theorem parseInt64_formatInt {n : Int} (h1 : -2 ^ 63 ≤ n) (h2 : n < 2 ^ 63) :
    parseInt64 (formatInt n) = (n, none) := by
  cases n with
  | ofNat n => exact parseInt64_formatNat (by simp at h2; omega)
  | negSucc n =>
    rw [formatInt, parseInt64_minus (formatNat_ne_nil _) (parseUint_formatNat (by omega))
      (by omega), Int.negSucc_eq]
    rfl

theorem parseUint_zeros (k : Nat) (s : Bytes) :
    parseUint 0 (List.replicate k (digit 0) ++ s) = parseUint 0 s := by
  induction k with
  | zero => rfl
  | succ k ih =>
    rw [replicate_succ, cons_append, parseUint, if_pos (isDigit_digit (by omega)),
      digit_toNat (by omega), if_pos (by omega)]
    simpa using ih

theorem parseInt64_padNat (hn : n < 2 ^ 63) :
    parseInt64 (padNat w n) = ((n : Int), none) := by
  refine parseInt64_of_parseUint (fun _ => padNat_isDigit) (fun h => ?_) ?_ hn
  · exact formatNat_ne_nil n (append_eq_nil_iff.1 h).2
  · rw [padNat, parseUint_zeros]
    exact parseUint_formatNat (by omega)

theorem parseInt64_padInt {n : Int} (h1 : -2 ^ 63 ≤ n) (h2 : n < 2 ^ 63) :
    parseInt64 (padInt w n) = (n, none) := by
  cases n with
  | ofNat n => exact parseInt64_padNat (by simp at h2; omega)
  | negSucc n =>
    have hne : padNat w (n + 1) ≠ [] := fun h => formatNat_ne_nil _ (append_eq_nil_iff.1 h).2
    have hu : parseUint 0 (padNat w (n + 1)) = (n + 1, none) := by
      rw [padNat, parseUint_zeros]
      exact parseUint_formatNat (by omega)
    rw [padInt, parseInt64_minus hne hu (by omega), Int.negSucc_eq]
    rfl

variable {a : Nat}

theorem parseUint_of_isDigit (hd : ∀ c ∈ s, isDigit c = true)
    (hs : (a + 1) * 10 ^ s.length ≤ 2 ^ 64) :
    ∃ n, parseUint a s = (n, none) ∧ n < (a + 1) * 10 ^ s.length := by
  induction s generalizing a with
  | nil => exact ⟨a, rfl, by simp⟩
  | cons c s ih =>
    have hc := hd c mem_cons_self
    have h9 : c.toNat - 48 ≤ 9 := by have := isDigit_iff.1 hc; omega
    have hle : (10 * a + (c.toNat - 48) + 1) * 10 ^ s.length ≤ (a + 1) * 10 ^ (c :: s).length := by
      rw [length_cons, Nat.pow_succ, Nat.mul_comm (10 ^ s.length), ← Nat.mul_assoc]
      exact Nat.mul_le_mul_right _ (by omega)
    obtain ⟨n, hn, hlt⟩ := ih (a := 10 * a + (c.toNat - 48))
      (fun x hx => hd x (mem_cons_of_mem _ hx)) (hle.trans hs)
    have hpow : 0 < 10 ^ s.length := Nat.pow_pos (by omega)
    have hfit : 10 * a + (c.toNat - 48) < 2 ^ 64 := by
      have := Nat.le_mul_of_pos_right (10 * a + (c.toNat - 48) + 1) hpow
      omega
    refine ⟨n, ?_, hlt.trans_le hle⟩
    rw [parseUint, if_pos hc, if_pos hfit, hn]

theorem parseInt64_of_isDigit (hd : ∀ c ∈ s, isDigit c = true) (hs : s ≠ [])
    (hlen : 10 ^ s.length ≤ 2 ^ 63) :
    ∃ n : Nat, parseInt64 s = ((n : Int), none) ∧ n < 10 ^ s.length := by
  obtain ⟨n, hn, hlt⟩ := parseUint_of_isDigit (a := 0) hd (by omega)
  rw [Nat.zero_add, Nat.one_mul] at hlt
  exact ⟨n, parseInt64_of_parseUint hd hs hn (by omega), hlt⟩

theorem padNat_inj (hm : m < 2 ^ 63) (hn : n < 2 ^ 63) (h : padNat w m = padNat w n) :
    m = n := by
  have h1 := parseInt64_padNat (w := w) hm
  rw [h, parseInt64_padNat hn] at h1
  simpa using h1.symm

/-! ## The value of a text of digits -/

def digitsVal (a : Nat) (s : Bytes) : Nat := s.foldl (fun n c => 10 * n + (c.toNat - 48)) a

def numeral (s : Bytes) : Option Nat :=
  if s ≠ [] ∧ ∀ c ∈ s, isDigit c = true then some (digitsVal 0 s) else none

theorem parseUint_ok (h : parseUint a s = (n, none)) :
    (∀ c ∈ s, isDigit c = true) ∧ digitsVal a s = n := by
  induction s generalizing a with
  | nil =>
    cases h
    exact ⟨by simp, rfl⟩
  | cons c s ih =>
    rw [parseUint] at h
    split_ifs at h with hc hlt
    · obtain ⟨hd, hval⟩ := ih h
      exact ⟨forall_mem_cons.2 ⟨hc, hd⟩, hval⟩
    · cases h
    · cases h

theorem parseUint_errRange (h : parseUint a s = (n, some .errRange)) : n = 2 ^ 64 - 1 := by
  induction s generalizing a with
  | nil => cases h
  | cons c s ih =>
    rw [parseUint] at h
    split_ifs at h with hc hlt
    · exact ih h
    · exact (Prod.mk.inj h).1.symm
    · cases h

theorem le_digitsVal (a : Nat) (s : Bytes) : a ≤ digitsVal a s := by
  induction s generalizing a with
  | nil => exact le_rfl
  | cons c s ih => exact (by omega : a ≤ 10 * a + (c.toNat - 48)).trans (ih _)

theorem eq_zeros_of_digitsVal (hd : ∀ c ∈ s, isDigit c = true) (h : digitsVal 0 s = 0) :
    s = List.replicate s.length (digit 0) := by
  induction s with
  | nil => rfl
  | cons c s ih =>
    have hc := isDigit_iff.1 (hd c mem_cons_self)
    have hval : digitsVal (10 * 0 + (c.toNat - 48)) s = 0 := h
    have hle := le_digitsVal (10 * 0 + (c.toNat - 48)) s
    have hzero : 10 * 0 + (c.toNat - 48) = 0 := by omega
    have hc0 : c = digit 0 := UInt8.toNat_inj.1 (by rw [digit_toNat (by omega)]; omega)
    rw [hzero] at hval
    rw [length_cons, replicate_succ, ← ih (fun x hx => hd x (mem_cons_of_mem _ hx)) hval, hc0]

theorem parseInt64_nonneg {n : Int} (h : parseInt64 s = (n, none)) (h0 : 0 ≤ n)
    (hplus : s.head? ≠ some 43) :
    (∃ m : Nat, numeral s = some m ∧ n = m) ∨ ∃ k, s = 45 :: List.replicate (k + 1) (digit 0) ∧
      n = 0 := by
  cases s with
  | nil => simp [parseInt64, splitSign] at h
  | cons c s =>
    have hc : c ≠ 43 := fun hc => hplus (by rw [hc, List.head?_cons])
    by_cases hminus : c = 45
    · right
      subst hminus
      have hs : splitSign (45 :: s) = (true, s) := rfl
      rw [parseInt64, hs] at h
      have hne : s ≠ [] := by
        rintro rfl
        simp at h
      dsimp only at h
      rw [if_neg hne] at h
      rcases hu : parseUint 0 s with ⟨m, _ | _ | _⟩
      · simp only [hu, if_true] at h
        split_ifs at h
        · cases h
        · obtain ⟨hd, hval⟩ := parseUint_ok hu
          cases h
          have hm : m = 0 := by omega
          obtain ⟨k, hk⟩ : ∃ k, s.length = k + 1 :=
            Nat.exists_eq_succ_of_ne_zero (by simpa using hne)
          refine ⟨k, ?_, by omega⟩
          rw [← hk, ← eq_zeros_of_digitsVal hd (hval.trans hm)]
      · simp [hu] at h
      · have hm := parseUint_errRange hu
        simp only [hu, if_true] at h
        split_ifs at h
        · cases h
        · omega
    · left
      have hs : splitSign (c :: s) = (false, c :: s) := by simp [splitSign, hc, hminus]
      rw [parseInt64, hs] at h
      dsimp only at h
      rw [if_neg (cons_ne_nil c s)] at h
      rcases hu : parseUint 0 (c :: s) with ⟨m, _ | _ | _⟩
      · simp only [hu, Bool.false_eq_true, if_false] at h
        split_ifs at h
        · cases h
        · obtain ⟨hd, hval⟩ := parseUint_ok hu
          cases h
          exact ⟨m, by rw [numeral, if_pos ⟨cons_ne_nil c s, hd⟩, hval], rfl⟩
      · simp [hu] at h
      · have hm := parseUint_errRange hu
        simp only [hu, Bool.false_eq_true, if_false] at h
        split_ifs at h
        · cases h
        · omega

/-! ## Order -/

/-- The last `w` digits of a number. -/
def fixedDigits : Nat → Nat → Bytes
  | 0, _ => []
  | w + 1, n => fixedDigits w (n / 10) ++ [digit (n % 10)]

theorem fixedDigits_length (w n : Nat) : (fixedDigits w n).length = w := by
  induction w generalizing n with
  | zero => rfl
  | succ w ih => simp [fixedDigits, ih]

theorem fixedDigits_zero (w : Nat) : fixedDigits w 0 = List.replicate w (digit 0) := by
  induction w with
  | zero => rfl
  | succ w ih => simp [fixedDigits, ih, replicate_succ']

theorem pad_natDigits (hw : 0 < w) (hn : n < 10 ^ w) (hf : n < 2 ^ fuel)
    (h0 : 0 < fuel) :
    List.replicate (w - (natDigits fuel n).length) (digit 0) ++ natDigits fuel n =
      fixedDigits w n := by
  induction w generalizing fuel n with
  | zero => omega
  | succ w ih =>
    obtain ⟨fuel, rfl⟩ : ∃ f, fuel = f + 1 := ⟨fuel - 1, by omega⟩
    rw [natDigits, fixedDigits]
    split
    · next h10 =>
      rw [Nat.div_eq_of_lt h10, Nat.mod_eq_of_lt h10, fixedDigits_zero]
      simp
    · next h10 =>
      have hw' : 0 < w := by
        rcases Nat.eq_zero_or_pos w with rfl | h
        · simp at hn; omega
        · exact h
      have hf' : 0 < fuel := by
        rcases Nat.eq_zero_or_pos fuel with rfl | h
        · simp at hf; omega
        · exact h
      have := ih hw' (n := n / 10) (by rw [Nat.pow_succ] at hn; omega)
        (by rw [Nat.pow_succ] at hf; omega) hf'
      rw [← this]
      simp [Nat.add_sub_add_right]

theorem padNat_eq_fixedDigits (hw : 0 < w) (hn : n < 10 ^ w) :
    padNat w n = fixedDigits w n :=
  pad_natDigits hw hn Nat.lt_log2_self (by omega)

theorem fixedDigits_lt (hn : n < 10 ^ w) (h : m < n) :
    fixedDigits w m < fixedDigits w n := by
  induction w generalizing m n with
  | zero => simp at hn; omega
  | succ w ih =>
    rw [fixedDigits, fixedDigits]
    rcases Nat.lt_or_ge (m / 10) (n / 10) with hlt | hge
    · refine ByteString.append_lt_append_of_lt (ih ?_ hlt) ?_ _ _
      · rw [Nat.pow_succ] at hn; omega
      · rw [fixedDigits_length, fixedDigits_length]
    · rw [show m / 10 = n / 10 by omega, ByteString.append_lt_append_iff,
        ByteString.cons_lt_cons_iff]
      left
      rw [UInt8.lt_iff_toNat_lt, digit_toNat (by omega), digit_toNat (by omega)]
      omega

theorem padNat_lt (hn : n < 10 ^ w) (h : m < n) : padNat w m < padNat w n := by
  have hw : 0 < w := by
    rcases Nat.eq_zero_or_pos w with rfl | hw
    · simp at hn; omega
    · exact hw
  rw [padNat_eq_fixedDigits hw hn, padNat_eq_fixedDigits hw (h.trans hn)]
  exact fixedDigits_lt hn h

end Decimal
