import S3Kinetic.Wildcard

/-!
# Wildcards without `?` (`MatchSimple`)

In the simple mode of `deepMatchRune` only the test for the end of the name is left out of the `?`
case: a `?` stands for any rune there too, and where no rune is left it slices past the end.
`deepMatchRune_simple` says what the search answers: true when the name matches with `?` as a
wildcard, a panic when it does not and some beginning of the pattern in front of a `?` takes the
whole name, and false otherwise.
-/

namespace S3Kinetic

open ByteString Utf8 Glob List

/-- A rune of a pattern in which `*` is the only wildcard. -/
def simpleTok (r : Nat) : Tok Nat := if r = starRune then .many else .lit r

/-- A beginning of the pattern in front of a `?` takes the whole name. -/
def Stuck (pattern str : List Nat) : Prop :=
  ∃ u v, pattern = u ++ questionRune :: v ∧ Matches (u.map tok) str

/-- `MatchSimple` does not panic and decides whether the name is one of the pattern with `*` as its
only wildcard. -/
def SimpleLaw (pattern name : Bytes) : Prop :=
  ∃ answer, matchSimple pattern name = some answer ∧
    (answer = true ↔ Matches ((runes pattern).map simpleTok) (runes name))

@[simp] theorem tok_question : tok questionRune = .one := rfl

@[simp] theorem tok_star : tok starRune = .many := rfl

theorem tok_of_ne {r : Nat} (hq : r ≠ questionRune) (hs : r ≠ starRune) : tok r = .lit r := by
  rw [tok, if_neg hq, if_neg hs]

/-! ## Where the search gets stuck -/

theorem not_stuck_nil (str : List Nat) : ¬ Stuck [] str := by
  rintro ⟨u, v, h, -⟩
  exact absurd h.symm (by simp)

variable {pattern str : List Nat}

theorem stuck_cons {p : Nat} :
    Stuck (p :: pattern) str ↔
      p = questionRune ∧ str = [] ∨
        ∃ u v, pattern = u ++ questionRune :: v ∧ Matches (tok p :: u.map tok) str := by
  constructor
  · rintro ⟨u, v, h, hm⟩
    cases u with
    | nil =>
      obtain ⟨rfl, -⟩ := List.cons.inj h
      exact .inl ⟨rfl, matches_nil.1 hm⟩
    | cons r u =>
      obtain ⟨rfl, rfl⟩ := List.cons.inj h
      exact .inr ⟨u, v, rfl, hm⟩
  · rintro (⟨rfl, rfl⟩ | ⟨u, v, rfl, hm⟩)
    · exact ⟨[], pattern, rfl, .nil⟩
    · exact ⟨p :: u, v, rfl, hm⟩

theorem stuck_question :
    Stuck (questionRune :: pattern) str ↔ str = [] ∨ ∃ c t, str = c :: t ∧ Stuck pattern t := by
  rw [stuck_cons, tok_question]
  constructor
  · rintro (⟨-, rfl⟩ | ⟨u, v, rfl, hm⟩)
    · exact .inl rfl
    · obtain ⟨c, t, rfl, ht⟩ := matches_one.1 hm
      exact .inr ⟨c, t, rfl, u, v, rfl, ht⟩
  · rintro (rfl | ⟨c, t, rfl, u, v, rfl, ht⟩)
    · exact .inl ⟨rfl, rfl⟩
    · exact .inr ⟨u, v, rfl, .one c ht⟩

theorem stuck_star :
    Stuck (starRune :: pattern) str ↔ ∃ u t, str = u ++ t ∧ Stuck pattern t := by
  rw [stuck_cons, tok_star]
  constructor
  · rintro (⟨h, -⟩ | ⟨u, v, rfl, hm⟩)
    · exact absurd h (by decide)
    · obtain ⟨x, t, rfl, ht⟩ := matches_many.1 hm
      exact ⟨x, t, rfl, u, v, rfl, ht⟩
  · rintro ⟨x, t, rfl, u, v, rfl, ht⟩
    exact .inr ⟨u, v, rfl, matches_many.2 ⟨x, t, rfl, ht⟩⟩

theorem stuck_lit {r : Nat} (hq : r ≠ questionRune) (hs : r ≠ starRune) :
    Stuck (r :: pattern) str ↔ ∃ t, str = r :: t ∧ Stuck pattern t := by
  rw [stuck_cons, tok_of_ne hq hs]
  constructor
  · rintro (⟨h, -⟩ | ⟨u, v, rfl, hm⟩)
    · exact absurd h hq
    · obtain ⟨t, rfl, ht⟩ := matches_lit.1 hm
      exact ⟨t, rfl, u, v, rfl, ht⟩
  · rintro ⟨t, rfl, u, v, rfl, ht⟩
    exact .inr ⟨u, v, rfl, .lit r ht⟩

variable {s t : List Nat}

theorem suffix_of_cons_suffix_cons {c d : Nat} (h : c :: s <:+ d :: t) : s <:+ t := by
  rcases suffix_cons_iff.1 h with heq | hsuf
  · rw [(List.cons.inj heq).2]
  · exact (suffix_cons c s).trans hsuf

theorem Stuck.matches (h : Stuck pattern t) (hsuf : s <:+ t) (hm : Matches (pattern.map tok) s) :
    Matches (pattern.map tok) t := by
  induction pattern generalizing s t with
  | nil => exact absurd h (not_stuck_nil t)
  | cons r pattern ih =>
    rw [map_cons] at hm ⊢
    by_cases hq : r = questionRune
    · subst hq
      obtain ⟨c, s, rfl, hs⟩ := matches_one.1 hm
      rcases stuck_question.1 h with rfl | ⟨d, t, rfl, ht⟩
      · exact absurd (eq_nil_of_suffix_nil hsuf) (by simp)
      · exact .one d (ih ht (suffix_of_cons_suffix_cons hsuf) hs)
    by_cases hs : r = starRune
    · subst hs
      obtain ⟨x, s, rfl, hs⟩ := matches_many.1 hm
      obtain ⟨y, rfl⟩ := hsuf
      exact matches_many.2 ⟨y ++ x, s, by simp, hs⟩
    · rw [tok_of_ne hq hs] at hm ⊢
      obtain ⟨s, rfl, hs'⟩ := matches_lit.1 hm
      obtain ⟨t, rfl, ht⟩ := (stuck_lit hq hs).1 h
      exact .lit r (ih ht (suffix_of_cons_suffix_cons hsuf) hs')

/-! ## What the search answers -/

/-- The answer of the search: it finds a match, gets stuck, or neither. -/
inductive Answers (pattern str : List Nat) : Option Bool → Prop
  | found (h : Matches (pattern.map tok) str) : Answers pattern str (some true)
  | panics (h : ¬ Matches (pattern.map tok) str) (hstuck : Stuck pattern str) :
    Answers pattern str none
  | rejects (h : ¬ Matches (pattern.map tok) str) (hstuck : ¬ Stuck pattern str) :
    Answers pattern str (some false)

theorem Answers.congr {p q : List Nat} {answer : Option Bool} (h : Answers p s answer)
    (hm : Matches (q.map tok) t ↔ Matches (p.map tok) s) (hs : Stuck q t ↔ Stuck p s) :
    Answers q t answer := by
  cases h with
  | found h => exact .found (hm.2 h)
  | panics h hstuck => exact .panics (mt hm.1 h) (hs.2 hstuck)
  | rejects h hstuck => exact .rejects (mt hm.1 h) (mt hs.1 hstuck)

theorem Answers.eq_true {p : List Nat} {answer : Option Bool} (h : Answers p s answer)
    (hm : Matches (p.map tok) s) :
    answer = some true := by
  cases h with
  | found => rfl
  | panics h => exact absurd hm h
  | rejects h => exact absurd hm h

theorem answers_star {rest : List Nat → Option Bool} (h : ∀ str, Answers pattern str (rest str))
    (str : List Nat) : Answers (starRune :: pattern) str (deepMatchStar rest str) := by
  induction str with
  | nil =>
    refine (h []).congr ?_ ?_
    · rw [map_cons, tok_star, matches_many]
      constructor
      · rintro ⟨u, t, ht, hm⟩
        obtain ⟨-, rfl⟩ := append_eq_nil_iff.1 ht.symm
        exact hm
      · exact fun hm => ⟨[], [], rfl, hm⟩
    · rw [stuck_star]
      constructor
      · rintro ⟨u, t, ht, hs⟩
        obtain ⟨-, rfl⟩ := append_eq_nil_iff.1 ht.symm
        exact hs
      · exact fun hs => ⟨[], [], rfl, hs⟩
  | cons c str ih =>
    have hm : Matches ((starRune :: pattern).map tok) (c :: str) ↔
        Matches (pattern.map tok) (c :: str) ∨ Matches ((starRune :: pattern).map tok) str :=
          matches_many_cons
    have hhere := h (c :: str)
    rw [deepMatchStar]
    generalize rest (c :: str) = answer at hhere ⊢
    cases hhere with
    | found h => exact .found (hm.2 (.inl h))
    | panics h hstuck =>
      refine .panics (fun hmatch => ?_) (stuck_star.2 ⟨[], c :: str, rfl, hstuck⟩)
      -- a match further on would be one here
      rcases hm.1 hmatch with hhere | hlater
      · exact h hhere
      · obtain ⟨u, t, rfl, ht⟩ := matches_many.1 hlater
        exact h (hstuck.matches ⟨c :: u, rfl⟩ ht)
    | rejects h hstuck =>
      refine ih.congr (hm.trans (or_iff_right h)) ?_
      rw [stuck_star, stuck_star]
      constructor
      · rintro ⟨u, t, hut, ht⟩
        cases u with
        | nil => exact absurd (hut ▸ ht) hstuck
        | cons d u => exact ⟨u, t, (List.cons.inj hut).2, ht⟩
      · rintro ⟨u, t, rfl, ht⟩
        exact ⟨c :: u, t, rfl, ht⟩

theorem deepMatchRune_star (simple : Bool) (pattern str : List Nat) :
    deepMatchRune simple (starRune :: pattern) str =
      deepMatchStar (deepMatchRune simple pattern) str := by
  cases str <;> rfl

theorem deepMatchRune_simple (pattern str : List Nat) :
    Answers pattern str (deepMatchRune true pattern str) := by
  induction pattern generalizing str with
  | nil =>
    cases str with
    | nil => exact .found .nil
    | cons c str => exact .rejects (by simp) (not_stuck_nil _)
  | cons r pattern ih =>
    by_cases hq : r = questionRune
    · subst hq
      cases str with
      | nil =>
        refine .panics ?_ (stuck_question.2 (.inl rfl))
        rw [map_cons, tok_question, matches_one]
        rintro ⟨c, t, h, -⟩
        cases h
      | cons c str =>
        refine (ih str).congr ?_ ?_
        · rw [map_cons, tok_question, matches_one]
          simp
        · rw [stuck_question]
          simp
    by_cases hstar : r = starRune
    · subst hstar
      rw [deepMatchRune_star]
      exact answers_star ih str
    have hm : Matches ((r :: pattern).map tok) str ↔ ∃ t, str = r :: t ∧
        Matches (pattern.map tok) t := by
      rw [map_cons, tok_of_ne hq hstar, matches_lit]
    have hs : Stuck (r :: pattern) str ↔ ∃ t, str = r :: t ∧ Stuck pattern t := stuck_lit hq hstar
    cases str with
    | nil =>
      rw [deepMatchRune, if_neg hq, if_neg hstar]
      exact .rejects (by rw [hm]; simp) (by rw [hs]; simp)
    | cons c str =>
      rw [deepMatchRune, if_neg hq, if_neg hstar]
      split_ifs with hc
      · subst hc
        exact (ih str).congr (by rw [hm]; simp) (by rw [hs]; simp)
      · exact .rejects (by rw [hm]; simp [hc]) (by rw [hs]; simp [hc])

/-! ## The law of `MatchSimple` -/

theorem matchSimple_eq (pattern name : Bytes) :
    matchSimple pattern name = deepMatchRune true (runes pattern) (runes name) := by
  unfold matchSimple
  split_ifs with h1 h2
  · subst h1
    cases name <;> simp [deepMatchRune, runes, runesFrom]
  · subst h2
    have hstar : (runes (lit "*")).map tok = [.many] := by decide
    refine ((deepMatchRune_simple _ _).eq_true ?_).symm
    rw [hstar, matches_many]
    exact ⟨runes name, [], by simp, .nil⟩
  · rfl

theorem matches_tok_of_simpleTok (h : Matches (pattern.map simpleTok) str) :
    Matches (pattern.map tok) str := by
  induction pattern generalizing str with
  | nil => exact h
  | cons r pattern ih =>
    rw [map_cons, simpleTok] at h
    rw [map_cons]
    by_cases hs : r = starRune
    · subst hs
      obtain ⟨u, t, rfl, ht⟩ := matches_many.1 h
      exact matches_many.2 ⟨u, t, rfl, ih ht⟩
    · rw [if_neg hs] at h
      obtain ⟨t, rfl, ht⟩ := matches_lit.1 h
      by_cases hq : r = questionRune
      · rw [hq, tok_question]
        exact .one _ (ih ht)
      · rw [tok_of_ne hq hs]
        exact .lit r (ih ht)

theorem simpleLaw_iff (pattern name : Bytes) :
    SimpleLaw pattern name ↔
      (Matches ((runes pattern).map tok) (runes name) →
        Matches ((runes pattern).map simpleTok) (runes name)) ∧
        (Stuck (runes pattern) (runes name) → Matches ((runes pattern).map tok) (runes name)) := by
  unfold SimpleLaw
  rw [matchSimple_eq]
  have hanswer := deepMatchRune_simple (runes pattern) (runes name)
  generalize deepMatchRune true (runes pattern) (runes name) = answer at hanswer
  cases hanswer with
  | found h => simp [h]
  | panics h hstuck => simp [h, hstuck]
  | rejects h hstuck =>
    have hsimple : ¬ Matches ((runes pattern).map simpleTok) (runes name) :=
      mt matches_tok_of_simpleTok h
    simp [h, hstuck, hsimple]

theorem matches_letters {u : List Nat} (h : questionRune ∉ u) :
    Matches (u.map tok) (u.filter (· ≠ starRune)) := by
  induction u with
  | nil => exact .nil
  | cons r u ih =>
    obtain ⟨hr, hu⟩ := not_or.1 (mt mem_cons.2 h)
    by_cases hs : r = starRune
    · subst hs
      simpa using matches_many.2 ⟨[], _, rfl, ih hu⟩
    · rw [map_cons, tok_of_ne (Ne.symm hr) hs, filter_cons_of_pos (by simpa using hs)]
      exact .lit r (ih hu)

theorem length_letters_le (h : Matches (pattern.map tok) str) :
    (pattern.filter (· ≠ starRune)).length ≤ str.length := by
  induction pattern generalizing str with
  | nil => simp
  | cons r pattern ih =>
    rw [map_cons] at h
    by_cases hs : r = starRune
    · subst hs
      obtain ⟨u, t, rfl, ht⟩ := matches_many.1 h
      simpa using (ih ht).trans (Nat.le_add_left _ _)
    · rw [filter_cons_of_pos (by simpa using hs), length_cons]
      by_cases hq : r = questionRune
      · rw [hq, tok_question] at h
        obtain ⟨c, t, rfl, ht⟩ := matches_one.1 h
        exact Nat.succ_le_succ (ih ht)
      · rw [tok_of_ne hq hs] at h
        obtain ⟨t, rfl, ht⟩ := matches_lit.1 h
        exact Nat.succ_le_succ (ih ht)

/-- A pattern is right for every name only without `?`: the letters in front of the first one, as a
name, are too short for the pattern, and the search gets stuck on them. -/
theorem forall_simpleLaw_iff (pattern : Bytes) :
    (∀ name, SimpleLaw pattern name) ↔ questionRune ∉ runes pattern := by
  constructor
  · intro h hmem
    obtain ⟨u, v, huv, hu⟩ := eq_append_cons_of_mem hmem
    obtain ⟨name, hname⟩ := exists_runes_eq fun a (ha : a ∈ u.filter (· ≠ starRune)) =>
      isScalar_of_mem_runes (huv ▸ mem_append_left _ (mem_of_mem_filter ha))
    have hstuck : Stuck (runes pattern) (runes name) := ⟨u, v, huv, hname ▸ matches_letters hu⟩
    have hlen := length_letters_le (((simpleLaw_iff pattern name).1 (h name)).2 hstuck)
    rw [huv, hname, filter_append, length_append, filter_cons_of_pos (by decide),
      length_cons] at hlen
    omega
  · intro hq name
    have htok : (runes pattern).map tok = (runes pattern).map simpleTok :=
      map_congr_left fun r hr => if_neg (ne_of_mem_of_not_mem hr hq)
    refine (simpleLaw_iff pattern name).2 ⟨fun h => htok ▸ h, ?_⟩
    rintro ⟨u, v, huv, -⟩
    exact absurd (huv ▸ mem_append_right u mem_cons_self) hq

theorem wildcard_law (pattern name : Bytes) :
    (wildcardMatch pattern name = true ↔ Matches ((runes pattern).map tok) (runes name)) ∧
      (SimpleLaw pattern name ↔
        (Matches ((runes pattern).map tok) (runes name) →
          Matches ((runes pattern).map simpleTok) (runes name)) ∧
        (Stuck (runes pattern) (runes name) → Matches ((runes pattern).map tok) (runes name))) ∧
      ((∀ name, SimpleLaw pattern name) ↔ questionRune ∉ runes pattern) :=
  ⟨wildcardMatch_iff pattern name, simpleLaw_iff pattern name, forall_simpleLaw_iff pattern⟩

/-- `a?` matches `ab`, and on the empty name `?` panics. -/
theorem matchSimple_question :
    matchSimple (lit "a?") (lit "ab") = some true ∧
      ¬ Matches ((runes (lit "a?")).map simpleTok) (runes (lit "ab")) ∧
      ¬ SimpleLaw (lit "a?") (lit "ab") ∧ matchSimple (lit "?") [] = none ∧
        ¬ SimpleLaw (lit "?") [] := by
  have hmatch : matchSimple (lit "a?") (lit "ab") = some true := by decide +kernel
  have hpanic : matchSimple (lit "?") [] = none := by decide +kernel
  have hpattern : (runes (lit "a?")).map simpleTok = [97, 63].map .lit := by decide +kernel
  have hname : runes (lit "ab") = [97, 98] := by decide +kernel
  have hnot : ¬ Matches ((runes (lit "a?")).map simpleTok) (runes (lit "ab")) := by
    rw [hpattern, hname, matches_map_lit]
    decide
  refine ⟨hmatch, hnot, ?_, hpanic, ?_⟩
  · rintro ⟨answer, h, hiff⟩
    rw [hmatch] at h
    exact hnot (hiff.1 (Option.some.inj h).symm)
  · rintro ⟨answer, h, -⟩
    rw [hpanic] at h
    cases h

end S3Kinetic
