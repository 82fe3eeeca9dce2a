import S3Kinetic.Lib.ByteString

/-!
# Runes of a byte string

A string is read rune by rune, as a `range` loop over it does: a well-formed sequence of one to four
bytes gives its code point, and a byte that starts none gives the replacement rune and is passed
alone. Bytes below 0x80 never take part in a longer sequence, so a text can be cut at them, and
every list of code points has a text it is read from.
-/

namespace Utf8

def runeError : Nat := 0xFFFD

/-- How many bytes follow a leading byte, and the range of the first of them. -/
def lead (b : Nat) : Option (Nat × Nat × Nat) :=
  if 0xC2 ≤ b ∧ b ≤ 0xDF then some (1, 0x80, 0xBF)
  else if b = 0xE0 then some (2, 0xA0, 0xBF)
  else if b = 0xED then some (2, 0x80, 0x9F)
  else if 0xE1 ≤ b ∧ b ≤ 0xEF then some (2, 0x80, 0xBF)
  else if b = 0xF0 then some (3, 0x90, 0xBF)
  else if b = 0xF4 then some (3, 0x80, 0x8F)
  else if 0xF1 ≤ b ∧ b ≤ 0xF3 then some (3, 0x80, 0xBF)
  else none

def isCont (b : UInt8) : Bool := 0x80 ≤ b.toNat && b.toNat ≤ 0xBF

def tailOk (lo hi : Nat) : Bytes → Bool
  | [] => true
  | b :: t => lo ≤ b.toNat && b.toNat ≤ hi && t.all isCont

/-- The rune of a leading byte and the bytes after it, and the number of bytes it takes. -/
def decodeRune (b : UInt8) (s : Bytes) : Nat × Nat :=
  if b.toNat < 0x80 then (b.toNat, 1)
  else
    match lead b.toNat with
    | none => (runeError, 1)
    | some (n, lo, hi) =>
      let t := s.take n
      if t.length = n ∧ tailOk lo hi t = true then
        (t.foldl (fun r c => r * 64 + c.toNat % 64) (b.toNat % 2 ^ (6 - n)), n + 1)
      else (runeError, 1)

/-- The runes after the first `k` bytes. -/
def runesFrom : Nat → Bytes → List Nat
  | _, [] => []
  | k + 1, _ :: s => runesFrom k s
  | 0, b :: s => (decodeRune b s).1 :: runesFrom ((decodeRune b s).2 - 1) s

def runes (s : Bytes) : List Nat := runesFrom 0 s

@[simp] theorem runes_nil : runes [] = [] := rfl

theorem runesFrom_append (a s : Bytes) : runesFrom a.length (a ++ s) = runes s := by
  induction a with
  | nil => rfl
  | cons b a ih => simpa [runesFrom] using ih

/-! ## Scalar values -/

theorem decodeRune_ascii {c : UInt8} (hc : c.toNat < 0x80) (s : Bytes) :
    decodeRune c s = (c.toNat, 1) := by
  simp [decodeRune, hc]

def IsScalar (r : Nat) : Prop := r < 0xD800 ∨ 0xE000 ≤ r ∧ r < 0x110000

theorem decodeRune_of_le {b : UInt8} (hb : 0x80 ≤ b.toNat) (s : Bytes) :
    0x80 ≤ (decodeRune b s).1 ∧ IsScalar (decodeRune b s).1 := by
  have herr : 0x80 ≤ runeError ∧ IsScalar runeError := by simp [runeError, IsScalar]
  unfold decodeRune
  rw [if_neg (by omega)]
  cases hl : lead b.toNat with
  | none => exact herr
  | some x =>
    obtain ⟨n, lo, hi⟩ := x
    simp only
    split_ifs with ht
    · obtain ⟨hlen, hok⟩ := ht
      generalize s.take n = t at hlen hok ⊢
      unfold lead at hl
      split_ifs at hl <;> simp only [Option.some.injEq, Prod.mk.injEq] at hl <;>
        obtain ⟨rfl, rfl, rfl⟩ := hl <;>
        rcases t with _ | ⟨x, _ | ⟨y, _ | ⟨z, _ | ⟨u, t⟩⟩⟩⟩ <;>
        simp [tailOk, isCont, IsScalar] at hlen hok ⊢ <;> omega
    · exact herr

/-! ## Every list of code points is read from some text -/

def encodeRune (r : Nat) : Bytes :=
  (if r < 0x80 then [r]
   else if r < 0x800 then [0xC0 + r / 64, 0x80 + r % 64]
   else if r < 0x10000 then [0xE0 + r / 4096, 0x80 + r / 64 % 64, 0x80 + r % 64]
   else [0xF0 + r / 262144, 0x80 + r / 4096 % 64, 0x80 + r / 64 % 64, 0x80 + r % 64]).map
     UInt8.ofNat

theorem isScalar_decodeRune (b : UInt8) (s : Bytes) : IsScalar (decodeRune b s).1 := by
  by_cases h : b.toNat < 0x80
  · rw [decodeRune_ascii h]
    exact .inl (by omega)
  · exact (decodeRune_of_le (by omega) s).2

theorem isScalar_of_mem_runesFrom {k : Nat} {s : Bytes} {r : Nat} (h : r ∈ runesFrom k s) :
    IsScalar r := by
  induction s generalizing k with
  | nil => simp [runesFrom] at h
  | cons b s ih =>
    cases k with
    | zero =>
      rw [runesFrom, List.mem_cons] at h
      rcases h with rfl | h
      · exact isScalar_decodeRune b s
      · exact ih h
    | succ k => exact ih h

theorem toNat_ofNat {n : Nat} (h : n < 256) : (UInt8.ofNat n).toNat = n := by
  simpa using h

theorem decodeRune_encodeRune {r : Nat} (h : IsScalar r) :
    ∃ b t, encodeRune r = b :: t ∧ ∀ s, decodeRune b (t ++ s) = (r, t.length + 1) := by
  unfold IsScalar at h
  unfold encodeRune
  split_ifs with h1 h2 h3
  · refine ⟨UInt8.ofNat r, [], rfl, fun s => ?_⟩
    have e := toNat_ofNat (n := r) (by omega)
    simp [decodeRune, e, h1]
  · refine ⟨UInt8.ofNat (0xC0 + r / 64), [UInt8.ofNat (0x80 + r % 64)], rfl, fun s => ?_⟩
    have e := toNat_ofNat (n := 0xC0 + r / 64) (by omega)
    have e1 := toNat_ofNat (n := 0x80 + r % 64) (by omega)
    have hl : lead (0xC0 + r / 64) = some (1, 0x80, 0xBF) := if_pos (by omega)
    generalize UInt8.ofNat (0xC0 + r / 64) = b at e ⊢
    generalize UInt8.ofNat (0x80 + r % 64) = b1 at e1 ⊢
    simp [decodeRune, e, e1, hl, tailOk]
    rw [if_neg (by omega), if_pos (by omega)]
    exact Prod.ext (by simp only; omega) rfl
  · refine ⟨UInt8.ofNat (0xE0 + r / 4096),
      [UInt8.ofNat (0x80 + r / 64 % 64), UInt8.ofNat (0x80 + r % 64)], rfl, fun s => ?_⟩
    have e := toNat_ofNat (n := 0xE0 + r / 4096) (by omega)
    have e1 := toNat_ofNat (n := 0x80 + r / 64 % 64) (by omega)
    have e2 := toNat_ofNat (n := 0x80 + r % 64) (by omega)
    obtain ⟨lo, hi, hl, hlo, hhi⟩ : ∃ lo hi, lead (0xE0 + r / 4096) = some (2, lo, hi) ∧
        lo ≤ 0x80 + r / 64 % 64 ∧ 0x80 + r / 64 % 64 ≤ hi := by
      unfold lead
      split_ifs <;> first | omega | exact ⟨_, _, rfl, by omega, by omega⟩
    generalize UInt8.ofNat (0xE0 + r / 4096) = b at e ⊢
    generalize UInt8.ofNat (0x80 + r / 64 % 64) = b1 at e1 ⊢
    generalize UInt8.ofNat (0x80 + r % 64) = b2 at e2 ⊢
    simp [decodeRune, e, e1, e2, hl, tailOk, isCont, hlo, hhi]
    rw [if_neg (by omega), if_pos (by omega)]
    exact Prod.ext (by simp only; omega) rfl
  · refine ⟨UInt8.ofNat (0xF0 + r / 262144), [UInt8.ofNat (0x80 + r / 4096 % 64),
      UInt8.ofNat (0x80 + r / 64 % 64), UInt8.ofNat (0x80 + r % 64)], rfl, fun s => ?_⟩
    have e := toNat_ofNat (n := 0xF0 + r / 262144) (by omega)
    have e1 := toNat_ofNat (n := 0x80 + r / 4096 % 64) (by omega)
    have e2 := toNat_ofNat (n := 0x80 + r / 64 % 64) (by omega)
    have e3 := toNat_ofNat (n := 0x80 + r % 64) (by omega)
    obtain ⟨lo, hi, hl, hlo, hhi⟩ : ∃ lo hi, lead (0xF0 + r / 262144) = some (3, lo, hi) ∧
        lo ≤ 0x80 + r / 4096 % 64 ∧ 0x80 + r / 4096 % 64 ≤ hi := by
      unfold lead
      split_ifs <;> first | omega | exact ⟨_, _, rfl, by omega, by omega⟩
    generalize UInt8.ofNat (0xF0 + r / 262144) = b at e ⊢
    generalize UInt8.ofNat (0x80 + r / 4096 % 64) = b1 at e1 ⊢
    generalize UInt8.ofNat (0x80 + r / 64 % 64) = b2 at e2 ⊢
    generalize UInt8.ofNat (0x80 + r % 64) = b3 at e3 ⊢
    simp [decodeRune, e, e1, e2, e3, hl, tailOk, isCont, hlo, hhi]
    rw [if_neg (by omega), if_pos (by omega)]
    exact Prod.ext (by simp only; omega) rfl

theorem runes_encodeRune_append {r : Nat} (h : IsScalar r) (s : Bytes) :
    runes (encodeRune r ++ s) = r :: runes s := by
  obtain ⟨b, t, hbt, hd⟩ := decodeRune_encodeRune h
  rw [hbt, runes, List.cons_append, runesFrom, hd, Nat.add_sub_cancel, runesFrom_append]

theorem exists_runes_eq {l : List Nat} (h : ∀ r ∈ l, IsScalar r) : ∃ s, runes s = l := by
  induction l with
  | nil => exact ⟨[], rfl⟩
  | cons r l ih =>
    obtain ⟨s, hs⟩ := ih fun x hx => h x (by simp [hx])
    exact ⟨encodeRune r ++ s, by rw [runes_encodeRune_append (h r (by simp)), hs]⟩

theorem isScalar_of_mem_runes {s : Bytes} {r : Nat} (h : r ∈ runes s) : IsScalar r :=
  isScalar_of_mem_runesFrom h

/-! ## Bytes below 0x80 -/

section Ascii

open List

end Ascii

/-! ## Well-formed text

A byte that continues a rune starts none, so a piece of well-formed text that starts like a rune
stands at a rune of it. -/

open List

def encode (l : List Nat) : Bytes := l.flatMap encodeRune

def Valid (s : Bytes) : Prop := encode (runes s) = s

instance instDecidableValid (s : Bytes) : Decidable (Valid s) := inferInstanceAs (Decidable (_ = _))

@[simp] theorem encode_nil : encode [] = [] := rfl

theorem encode_append (l m : List Nat) : encode (l ++ m) = encode l ++ encode m := flatMap_append

theorem runes_encode_append {l : List Nat} (h : ∀ r ∈ l, IsScalar r) (s : Bytes) :
    runes (encode l ++ s) = l ++ runes s := by
  induction l with
  | nil => rfl
  | cons r l ih =>
    rw [encode, flatMap_cons, append_assoc, runes_encodeRune_append (h r mem_cons_self)]
    exact congrArg (r :: ·) (ih fun x hx => h x (mem_cons_of_mem r hx))

theorem runes_encode {l : List Nat} (h : ∀ r ∈ l, IsScalar r) : runes (encode l) = l := by
  simpa using runes_encode_append h []

theorem valid_encode {l : List Nat} (h : ∀ r ∈ l, IsScalar r) : Valid (encode l) := by
  rw [Valid, runes_encode h]

variable {s t u : Bytes}

theorem Valid.runes_append (hs : Valid s) (t : Bytes) : runes (s ++ t) = runes s ++ runes t := by
  have h := runes_encode_append (fun _ => isScalar_of_mem_runes (s := s)) t
  rwa [hs] at h

theorem Valid.right (hs : Valid s) (h : Valid (s ++ t)) : Valid t := by
  rw [Valid, hs.runes_append, encode_append, hs] at h
  exact append_cancel_left h

theorem Valid.mem_of_ascii (hs : Valid s) {r : Nat} (hr : r < 0x80) (h : r ∈ runes s) :
    UInt8.ofNat r ∈ s := by
  rw [← hs]
  exact mem_flatMap.2 ⟨r, h, by simp [encodeRune, hr]⟩

theorem encodeRune_eq (r : Nat) (h : IsScalar r) :
    ∃ b t, encodeRune r = b :: t ∧ isCont b = false ∧ ∀ c ∈ t, isCont c = true := by
  unfold IsScalar at h
  have hcont {n : Nat} (hn : n < 64) : isCont (UInt8.ofNat (0x80 + n)) = true := by
    rw [isCont, toNat_ofNat (by omega)]
    simp
    omega
  have hlead {n : Nat} (hn : n < 256) (h : n < 0x80 ∨ 0xBF < n) :
      isCont (UInt8.ofNat n) = false := by
    rw [isCont, toNat_ofNat hn]
    simp
    omega
  unfold encodeRune
  split_ifs with h1 h2 h3
  · exact ⟨_, _, rfl, hlead (by omega) (by omega), by simp⟩
  · refine ⟨_, _, rfl, hlead (by omega) (by omega), ?_⟩
    simp only [map_cons, map_nil, mem_cons, not_mem_nil, or_false]
    rintro c rfl
    exact hcont (by omega)
  · refine ⟨_, _, rfl, hlead (by omega) (by omega), ?_⟩
    simp only [map_cons, map_nil, mem_cons, not_mem_nil, or_false]
    rintro c (rfl | rfl) <;> exact hcont (by omega)
  · refine ⟨_, _, rfl, hlead (by omega) (by omega), ?_⟩
    simp only [map_cons, map_nil, mem_cons, not_mem_nil, or_false]
    rintro c (rfl | rfl | rfl) <;> exact hcont (by omega)

theorem encode_split {l : List Nat} (hl : ∀ r ∈ l, IsScalar r) (h : encode l = s ++ t)
    (ht : ∀ b ∈ t.head?, isCont b = false) : ∃ l₁ l₂, l = l₁ ++ l₂ ∧ s = encode l₁ ∧
      t = encode l₂ := by
  induction l generalizing s with
  | nil =>
    obtain ⟨rfl, rfl⟩ := append_eq_nil_iff.1 h.symm
    exact ⟨[], [], rfl, rfl, rfl⟩
  | cons r l ih =>
    cases s with
    | nil => exact ⟨[], r :: l, rfl, rfl, h.symm⟩
    | cons b s =>
      obtain ⟨b', c, hbc, -, hc⟩ := encodeRune_eq r (hl r mem_cons_self)
      rw [encode, flatMap_cons, hbc, cons_append, cons_append] at h
      obtain ⟨rfl, h'⟩ := cons.inj h
      rcases append_eq_append_iff.1 h' with ⟨x, rfl, hx⟩ | ⟨x, rfl, rfl⟩
      · obtain ⟨l₁, l₂, rfl, rfl, rfl⟩ := ih (fun r' hr => hl r' (mem_cons_of_mem r hr)) hx
        exact ⟨r :: l₁, l₂, rfl, by simp [encode, hbc], rfl⟩
      · cases x with
        | nil => exact ⟨[r], l, rfl, by simp [encode, hbc], rfl⟩
        | cons y x =>
          -- the piece would start in the middle of the rune
          exact absurd (ht y rfl) (by simp [hc y (by simp)])

theorem Valid.head?_not_cont (hs : Valid s) : ∀ b ∈ s.head?, isCont b = false := by
  rw [← hs]
  cases hr : runes s with
  | nil => simp
  | cons r l =>
    obtain ⟨b, t, hbt, hb, -⟩ := encodeRune_eq r (isScalar_of_mem_runes (s := s) (by simp [hr]))
    rw [encode, flatMap_cons, hbt]
    simpa using hb

theorem Valid.split (hs : Valid s) (h : s = t ++ u) (hu : ∀ b ∈ u.head?, isCont b = false) :
    Valid t ∧ Valid u := by
  obtain ⟨l₁, l₂, hl, rfl, rfl⟩ := encode_split (fun _ => isScalar_of_mem_runes) (hs.trans h) hu
  have hmem : ∀ r ∈ l₁ ++ l₂, IsScalar r := fun r hr => isScalar_of_mem_runes (hl ▸ hr)
  exact ⟨valid_encode fun r hr => hmem r (mem_append_left _ hr), valid_encode fun r hr =>
    hmem r (mem_append_right _ hr)⟩

end Utf8
