import S3Kinetic.Multipart
import S3Kinetic.Lib.Utf8

/-!
# Object tags as text (`bucket/object/tagging`)

Tags are written as `key=value` joined by `&`, as they are, and read back by the parser of URL
queries, which unescapes. The checks of a tag set refuse `&` only.
-/

namespace S3Kinetic.Tagging

open ByteString List

structure TagError where
  message : Bytes
  code : Bytes

def errTooManyTags : TagError := ⟨lit "Object tags cannot be greater than 10", lit "BadRequest"⟩
def errInvalidTagKey : TagError := ⟨lit "The TagKey you have provided is invalid", lit "InvalidTag"⟩
def errInvalidTagValue : TagError :=
  ⟨lit "The TagValue you have provided is invalid", lit "InvalidTag"⟩
def errInvalidTag : TagError :=
  ⟨lit "Cannot provide multiple Tags with the same key", lit "InvalidTag"⟩

def maxTags : Nat := 10
def maxTagKeyLength : Nat := 128
def maxTagValueLength : Nat := 256

structure Tag where
  key : Bytes
  value : Bytes
  deriving DecidableEq

/-! ## Checks -/

def Tag.validateKey (t : Tag) : Except TagError Unit :=
  if (Utf8.runes t.key).length > maxTagKeyLength then .error errInvalidTagKey
  else if t.key.length = 0 then .error errInvalidTagKey
  else if 38 ∈ t.key then .error errInvalidTagKey
  else .ok ()

def Tag.validateValue (t : Tag) : Except TagError Unit :=
  if (Utf8.runes t.value).length > maxTagValueLength then .error errInvalidTagValue
  else if 38 ∈ t.value then .error errInvalidTagValue
  else .ok ()

def Tag.validate (t : Tag) : Except TagError Unit := do
  t.validateKey
  t.validateValue

def containsDuplicateTag (seen : List Bytes) : List Tag → Bool
  | [] => false
  | t :: tags => if t.key ∈ seen then true else containsDuplicateTag (t.key :: seen) tags

/-- `Tagging.Validate`. -/
def validate (tags : List Tag) : Except TagError Unit :=
  if tags.length > maxTags then .error errTooManyTags
  else do
    tags.forM Tag.validate
    if containsDuplicateTag [] tags then .error errInvalidTag else .ok ()

/-! ## Text -/

def Tag.string (t : Tag) : Bytes := t.key ++ lit "=" ++ t.value

/-- `Tagging.String`. -/
def string (tags : List Tag) : Bytes :=
  tags.foldl (fun buf t => (if buf.length > 0 then buf ++ lit "&" else buf) ++ t.string) []

/-- `url.QueryUnescape`, with the text of the `EscapeError`. -/
def queryUnescape : Bytes → Except Bytes Bytes
  | [] => .ok []
  | c :: s =>
    if c = 37 then
      match s with
      | a :: b :: s =>
        match fromHexChar a, fromHexChar b with
        | some h, some l => (queryUnescape s).map (UInt8.ofNat (16 * h + l) :: ·)
        | _, _ => .error [c, a, b]
      | s => .error (c :: s)
    else (queryUnescape s).map ((if c = 43 then 32 else c) :: ·)

inductive QueryError
  | invalidSemicolon
  | escape (text : Bytes)

/-- `url.Values`, the pairs in the order in which they were added. -/
abbrev Values := List (Bytes × Bytes)

/-- `strings.Cut` at the first `=`. -/
def cut : Bytes → Bytes × Bytes
  | [] => ([], [])
  | c :: s => if c = 61 then ([], s) else (c :: (cut s).1, (cut s).2)

/-- One piece of a query; the first escape error is kept, a semicolon replaces it. -/
def parsePiece (acc : Values × Option QueryError) (piece : Bytes) : Values × Option QueryError :=
  if 59 ∈ piece then (acc.1, some .invalidSemicolon)
  else
    match queryUnescape (cut piece).1, queryUnescape (cut piece).2 with
    | .error text, _ => (acc.1, acc.2.or (some (.escape text)))
    | .ok _, .error text => (acc.1, acc.2.or (some (.escape text)))
    | .ok key, .ok value => (acc.1 ++ [(key, value)], acc.2)

/-- `url.ParseQuery`; empty pieces are skipped. -/
def parseQuery (query : Bytes) : Except QueryError Values :=
  match (pieces 38 query).foldl parsePiece ([], none) with
  | (m, none) => .ok m
  | (_, some err) => .error err

/-- The keys with `Values.Get`, the first value of each. A map is ranged over in any order, so the
tags are a set here. -/
def tagsOf (tags : Values) : Finset Tag :=
  (tags.map Prod.fst).toFinset.image fun k => ⟨k, (tags.lookup k).getD []⟩

def fromString (tagStr : Bytes) : Except QueryError (Finset Tag) :=
  (parseQuery tagStr).map tagsOf

def Tag.Plain (t : Tag) : Prop := 61 ∉ t.key ∧ ∀ c ∈ t.key ++ t.value, c ≠ 37 ∧ c ≠ 43 ∧ c ≠ 59

/-! ## Unescaping -/

theorem map_eq_ok_iff {ε α β : Type} {f : α → β} {x : Except ε α} {y : β} :
    x.map f = .ok y ↔ ∃ a, x = .ok a ∧ f a = y := by
  cases x <;> simp [Except.map]

theorem length_queryUnescape {s u : Bytes} (h : queryUnescape s = .ok u) :
    u.length ≤ s.length ∧ (37 ∈ s → u.length < s.length) := by
  fun_induction queryUnescape s generalizing u with
  | case1 =>
    cases h
    simp
  | case2 a b s hh ll h1 h2 ih =>
    obtain ⟨u', hu, rfl⟩ := map_eq_ok_iff.1 h
    have := (ih hu).1
    simp only [length_cons]
    omega
  | case3 => simp at h
  | case4 => simp at h
  | case5 c s hc ih =>
    obtain ⟨u', hu, rfl⟩ := map_eq_ok_iff.1 h
    obtain ⟨hle, hlt⟩ := ih hu
    simp only [length_cons, mem_cons, Ne.symm hc, false_or, add_lt_add_iff_right,
      add_le_add_iff_right]
    exact ⟨hle, hlt⟩

theorem queryUnescape_of_not_mem {s : Bytes} (h : 37 ∉ s) :
    queryUnescape s = .ok (s.map fun c => if c = 43 then 32 else c) := by
  induction s with
  | nil => rfl
  | cons c s ih =>
    obtain ⟨hc, hs⟩ := not_or.1 (mt mem_cons.2 h)
    unfold queryUnescape
    rw [if_neg (Ne.symm hc), ih hs]
    rfl

theorem queryUnescape_of_plain {s : Bytes} (h : ∀ c ∈ s, c ≠ 37 ∧ c ≠ 43) :
    queryUnescape s = .ok s := by
  rw [queryUnescape_of_not_mem fun hc => (h 37 hc).1 rfl]
  congr 1
  refine (map_congr_left fun c hc => ?_).trans (map_id s)
  exact if_neg (h c hc).2

theorem mem_of_queryUnescape {s u : Bytes} {c : UInt8} (hs : 37 ∉ s) (h : queryUnescape s = .ok u)
    (hc : c ∈ u) :
    c ≠ 43 ∧ (c ≠ 32 → c ∈ s) := by
  rw [queryUnescape_of_not_mem hs] at h
  cases h
  obtain ⟨b, hb, rfl⟩ := mem_map.1 hc
  split_ifs with hplus
  · simp
  · exact ⟨hplus, fun _ => hb⟩

/-! ## One tag -/

/-- The pair the parser takes from the text of a tag. -/
structure Tag.Reads (t r : Tag) : Prop where
  semicolon : 59 ∉ t.string
  key : queryUnescape (cut t.string).1 = .ok r.key
  value : queryUnescape (cut t.string).2 = .ok r.value

theorem Tag.string_eq (t : Tag) : t.string = t.key ++ 61 :: t.value := by
  rw [Tag.string, append_assoc]
  rfl

theorem cut_spec {s : Bytes} (h : 61 ∈ s) : s = (cut s).1 ++ 61 :: (cut s).2 ∧ 61 ∉ (cut s).1 := by
  induction s with
  | nil => simp at h
  | cons c s ih =>
    rw [cut]
    split_ifs with hc
    · simp [hc]
    · obtain ⟨hs, hnot⟩ := ih ((mem_cons.1 h).resolve_left (Ne.symm hc))
      exact ⟨congrArg (c :: ·) hs, by simp [Ne.symm hc, hnot]⟩

theorem cut_append {k : Bytes} (h : 61 ∉ k) (v : Bytes) : cut (k ++ 61 :: v) = (k, v) := by
  induction k with
  | nil => rfl
  | cons c k ih =>
    obtain ⟨hc, hk⟩ := not_or.1 (mt mem_cons.2 h)
    rw [cons_append, cut, if_neg (Ne.symm hc), ih hk]

theorem Tag.cut_string (t : Tag) : t.string = (cut t.string).1 ++ 61 :: (cut t.string).2 ∧
    61 ∉ (cut t.string).1 :=
  cut_spec (by simp [Tag.string_eq])

def Tag.length (t : Tag) : Nat := t.key.length + t.value.length

theorem Tag.Reads.length {t r : Tag} (h : t.Reads r) :
    r.length ≤ t.length ∧ (37 ∈ t.string → r.length < t.length) := by
  obtain ⟨hkey, hkey'⟩ := length_queryUnescape h.key
  obtain ⟨hval, hval'⟩ := length_queryUnescape h.value
  have hlen := congrArg List.length t.cut_string.1
  rw [Tag.string_eq, length_append, length_append, length_cons, length_cons,
    ← Tag.string_eq] at hlen
  simp only [Tag.length]
  refine ⟨by omega, fun hp => ?_⟩
  rw [t.cut_string.1, mem_append, mem_cons] at hp
  rcases hp with hp | hp | hp
  · have := hkey' hp
    omega
  · simp at hp
  · have := hval' hp
    omega

theorem Tag.Reads.plain {t r : Tag} (h : t.Reads r) (hp : 37 ∉ t.string) : r.Plain := by
  have hkey : ∀ c ∈ r.key, c ≠ 43 ∧ (c ≠ 32 → c ∈ (cut t.string).1) := fun c hc =>
    mem_of_queryUnescape (fun hm => hp (t.cut_string.1 ▸ mem_append_left _ hm)) h.key hc
  have hval : ∀ c ∈ r.value, c ≠ 43 ∧ (c ≠ 32 → c ∈ (cut t.string).2) := fun c hc =>
    mem_of_queryUnescape (fun hm => hp (t.cut_string.1 ▸ mem_append_right _ (mem_cons_of_mem _ hm)))
      h.value hc
  have hin : ∀ c ∈ r.key ++ r.value, c ≠ 43 ∧ (c ≠ 32 → c ∈ t.string) := by
    intro c hc
    rcases mem_append.1 hc with hc | hc
    · exact ⟨(hkey c hc).1, fun hs => t.cut_string.1 ▸ mem_append_left _ ((hkey c hc).2 hs)⟩
    · exact ⟨(hval c hc).1, fun hs => t.cut_string.1 ▸ mem_append_right _
        (mem_cons_of_mem _ ((hval c hc).2 hs))⟩
  refine ⟨fun hm => t.cut_string.2 ((hkey 61 hm).2 (by decide)), fun c hc => ⟨?_, (hin c hc).1, ?_⟩⟩
  · rintro rfl
    exact hp ((hin 37 hc).2 (by decide))
  · rintro rfl
    exact h.semicolon ((hin 59 hc).2 (by decide))

theorem Tag.Plain.not_mem_string {t : Tag} (h : t.Plain) {c : UInt8}
    (hc : c = 37 ∨ c = 43 ∨ c = 59) : c ∉ t.string := by
  rw [Tag.string_eq]
  intro hm
  rw [mem_append, mem_cons] at hm
  rcases hm with hm | rfl | hm
  · have := h.2 c (mem_append_left _ hm)
    tauto
  · revert hc
    decide
  · have := h.2 c (mem_append_right _ hm)
    tauto

theorem Tag.Plain.reads {t : Tag} (h : t.Plain) : t.Reads t := by
  have hcut : cut t.string = (t.key, t.value) := t.string_eq ▸ cut_append h.1 t.value
  refine ⟨h.not_mem_string (by simp), ?_, ?_⟩
  · rw [hcut]
    exact queryUnescape_of_plain fun c hc => ⟨(h.2 c (mem_append_left _ hc)).1,
      (h.2 c (mem_append_left _ hc)).2.1⟩
  · rw [hcut]
    exact queryUnescape_of_plain fun c hc => ⟨(h.2 c (mem_append_right _ hc)).1,
      (h.2 c (mem_append_right _ hc)).2.1⟩

/-! ## A tag set -/

theorem parsePiece_eq_none_iff {acc : Values × Option QueryError} {t : Tag} {m : Values} :
    parsePiece acc t.string = (m, none) ↔ acc.2 = none ∧ ∃ r, t.Reads r ∧
      m = acc.1 ++ [(r.key, r.value)] := by
  unfold parsePiece
  split_ifs with hsemi
  · simp only [Prod.mk.injEq, reduceCtorEq, and_false, false_iff, not_and, not_exists]
    exact fun _ r hr _ => hr.semicolon hsemi
  · cases hk : queryUnescape (cut t.string).1 with
    | error text =>
      refine ⟨fun h => ?_, fun ⟨_, r, hr, _⟩ => nomatch hk.symm.trans hr.key⟩
      cases hacc : acc.2 <;> simp [hacc] at h
    | ok key =>
      cases hv : queryUnescape (cut t.string).2 with
      | error text =>
        refine ⟨fun h => ?_, fun ⟨_, r, hr, _⟩ => nomatch hv.symm.trans hr.value⟩
        cases hacc : acc.2 <;> simp [hacc] at h
      | ok value =>
        simp only [Prod.mk.injEq]
        constructor
        · rintro ⟨rfl, hnone⟩
          exact ⟨hnone, ⟨key, value⟩, ⟨hsemi, hk, hv⟩, rfl⟩
        · rintro ⟨hnone, r, hr, rfl⟩
          cases hk.symm.trans hr.key
          cases hv.symm.trans hr.value
          exact ⟨rfl, hnone⟩

theorem foldl_parsePiece_iff (tags : List Tag) (acc : Values × Option QueryError) (m : Values) :
    (tags.map Tag.string).foldl parsePiece acc = (m, none) ↔
      acc.2 = none ∧ ∃ rs, Forall₂ Tag.Reads tags rs ∧ m = acc.1 ++ rs.map fun r =>
        (r.key, r.value) := by
  induction tags generalizing acc with
  | nil =>
    obtain ⟨m', err⟩ := acc
    simp only [map_nil, foldl_nil, Prod.mk.injEq, forall₂_nil_left_iff, exists_eq_left, append_nil]
    tauto
  | cons t tags ih =>
    rw [map_cons, foldl_cons, ih]
    constructor
    · rintro ⟨hnone, rs, hrs, rfl⟩
      obtain ⟨hacc, r, hr, hm⟩ :=
        parsePiece_eq_none_iff.1 (Prod.ext rfl hnone : parsePiece acc t.string = (_, none))
      exact ⟨hacc, r :: rs, .cons hr hrs, by simp [hm]⟩
    · rintro ⟨hacc, _, hall, rfl⟩
      obtain ⟨r, rs, hr, hrs, rfl⟩ := forall₂_cons_left_iff.1 hall
      have hstep : parsePiece acc t.string = _ := parsePiece_eq_none_iff.2 ⟨hacc, r, hr, rfl⟩
      exact ⟨congrArg Prod.snd hstep, rs, hrs, by simp [hstep]⟩

theorem foldl_string {buf : Bytes} (h : buf ≠ []) (tags : List Tag) :
    tags.foldl (fun buf t => (if buf.length > 0 then buf ++ lit "&" else buf) ++ t.string) buf =
      [38].intercalate (buf :: tags.map Tag.string) := by
  induction tags generalizing buf with
  | nil => simp
  | cons t tags ih =>
    rw [foldl_cons, if_pos (length_pos_iff.2 h), ih (by simp [h])]
    have hamp : lit "&" = [38] := by decide
    cases tags <;> simp [intercalate, intersperse, hamp]

theorem string_eq_intercalate (tags : List Tag) :
    string tags = [38].intercalate (tags.map Tag.string) := by
  cases tags with
  | nil => rfl
  | cons t tags =>
    have hne : t.string ≠ [] := by simp [Tag.string_eq]
    exact foldl_string hne tags

theorem forM_ok {f : Tag → Except TagError Unit} {tags : List Tag} (h : tags.forM f = .ok ()) :
    ∀ t ∈ tags, f t = .ok () := by
  induction tags with
  | nil => simp
  | cons t tags ih =>
    change (f t >>= fun _ => tags.forM f) = .ok () at h
    cases ht : f t with
    | error err => simp [ht, bind, Except.bind] at h
    | ok u =>
      rw [ht] at h
      exact forall_mem_cons.2 ⟨ht, ih h⟩

theorem Tag.validate_ok {t : Tag} (h : t.validate = .ok ()) : 38 ∉ t.string := by
  have hkey : 38 ∉ t.key := by
    intro hm
    unfold Tag.validate Tag.validateKey at h
    split_ifs at h <;> cases h
  have hval : 38 ∉ t.value := by
    intro hm
    unfold Tag.validate Tag.validateValue at h
    cases hk : t.validateKey with
    | error err => simp [hk, bind, Except.bind] at h
    | ok u =>
      rw [hk] at h
      split_ifs at h <;> cases h
  simp [Tag.string_eq, hkey, hval]

theorem nodup_of_containsDuplicateTag {tags : List Tag} {seen : List Bytes}
    (h : containsDuplicateTag seen tags = false) :
    (tags.map Tag.key).Nodup ∧ ∀ t ∈ tags, t.key ∉ seen := by
  induction tags generalizing seen with
  | nil => simp
  | cons t tags ih =>
    rw [containsDuplicateTag] at h
    split_ifs at h with hin
    obtain ⟨hnodup, hfresh⟩ := ih h
    refine ⟨nodup_cons.2 ⟨fun hm => ?_, hnodup⟩, forall_mem_cons.2 ⟨hin, fun r hr => ?_⟩⟩
    · obtain ⟨r, hr, he⟩ := mem_map.1 hm
      exact hfresh r hr (he ▸ mem_cons_self)
    · exact fun hs => hfresh r hr (mem_cons_of_mem _ hs)

theorem validate_spec {tags : List Tag} (h : validate tags = .ok ()) :
    (∀ t ∈ tags, 38 ∉ t.string) ∧ (tags.map Tag.key).Nodup := by
  unfold validate at h
  rw [if_neg (fun hlen => by simp [hlen] at h)] at h
  cases hall : tags.forM Tag.validate with
  | error err => simp [hall, bind, Except.bind] at h
  | ok u =>
    simp only [hall, bind, Except.bind] at h
    split_ifs at h with hdup
    exact ⟨fun t ht => Tag.validate_ok (forM_ok hall t ht),
      (nodup_of_containsDuplicateTag (by simpa using hdup)).1⟩

theorem parseQuery_string_iff {tags : List Tag} (h : ∀ t ∈ tags, 38 ∉ t.string) {m : Values} :
    parseQuery (string tags) = .ok m ↔ ∃ rs, Forall₂ Tag.Reads tags rs ∧ m = rs.map fun r =>
      (r.key, r.value) := by
  have hpieces : pieces 38 (string tags) = tags.map Tag.string := by
    rw [string_eq_intercalate, pieces_intercalate]
    intro k hk
    obtain ⟨t, ht, rfl⟩ := mem_map.1 hk
    exact ⟨h t ht, by simp [Tag.string_eq]⟩
  have hfold := foldl_parsePiece_iff tags ([], none) m
  simp only [true_and, nil_append] at hfold
  rw [parseQuery, hpieces, ← hfold]
  rcases (tags.map Tag.string).foldl parsePiece ([], none) with ⟨m', _ | err⟩ <;> simp

theorem lookup_of_nodup {m : Values} (h : (m.map Prod.fst).Nodup) {k v : Bytes} (hm : (k, v) ∈ m) :
    m.lookup k = some v := by
  induction m with
  | nil => simp at hm
  | cons p m ih =>
    obtain ⟨k', v'⟩ := p
    obtain ⟨hnot, hrest⟩ := nodup_cons.1 h
    rcases mem_cons.1 hm with he | hrec
    · cases he
      simp
    · have hne : k ≠ k' := by
        rintro rfl
        exact hnot (mem_map.2 ⟨(k, v), hrec, rfl⟩)
      rw [lookup_cons, beq_false_of_ne hne]
      exact ih hrest hrec

theorem mem_of_lookup {m : Values} {k v : Bytes} (h : m.lookup k = some v) : (k, v) ∈ m := by
  induction m with
  | nil => simp at h
  | cons p m ih =>
    obtain ⟨k', v'⟩ := p
    by_cases he : k = k'
    · subst he
      simp_all
    · rw [lookup_cons, beq_false_of_ne he] at h
      exact mem_cons_of_mem _ (ih h)

theorem pair_mem_of_mem_tagsOf {m : Values} {t : Tag} (h : t ∈ tagsOf m) :
    (t.key, t.value) ∈ m := by
  obtain ⟨k, hk, rfl⟩ := Finset.mem_image.1 h
  obtain ⟨⟨k', v⟩, hm, rfl⟩ := mem_map.1 (mem_toFinset.1 hk)
  cases hl : m.lookup k' with
  | none => simpa using lookup_eq_none_iff.1 hl (k', v) hm
  | some w => exact mem_of_lookup hl

theorem tagsOf_eq_toFinset {tags : List Tag} (h : (tags.map Tag.key).Nodup) :
    tagsOf (tags.map fun t => (t.key, t.value)) = tags.toFinset := by
  have hkeys : ((tags.map fun t => (t.key, t.value)).map Prod.fst) = tags.map Tag.key := by simp
  ext t
  rw [mem_toFinset]
  constructor
  · intro ht
    obtain ⟨r, hr, he⟩ := mem_map.1 (pair_mem_of_mem_tagsOf ht)
    obtain ⟨hk, hv⟩ := Prod.mk.inj he
    cases r
    cases t
    simp_all
  · intro ht
    rw [tagsOf, Finset.mem_image]
    refine ⟨t.key, mem_toFinset.2 (hkeys ▸ mem_map_of_mem ht), ?_⟩
    have hpair : (t.key, t.value) ∈ tags.map fun t => (t.key, t.value) := mem_map.2 ⟨t, ht, rfl⟩
    rw [lookup_of_nodup (hkeys ▸ h) hpair]
    rfl

theorem no_escapes {tags : List Tag} (h : ∀ t ∈ tags, ∃ t' ∈ tags, t'.Reads t) :
    ∀ t ∈ tags, 37 ∉ t.string := by
  by_contra hcon
  push Not at hcon
  obtain ⟨t₀, ht₀, hp₀⟩ := hcon
  obtain ⟨t, ht, hmax⟩ := (tags.toFinset.filter fun t => 37 ∈ t.string).exists_max_image Tag.length
    ⟨t₀, by simp [ht₀, hp₀]⟩
  rw [Finset.mem_filter, mem_toFinset] at ht
  obtain ⟨t', ht', hr⟩ := h t ht.1
  have hp' : 37 ∈ t'.string := by
    by_contra hp'
    exact (hr.plain hp').not_mem_string (.inl rfl) ht.2
  have hle := hmax t' (by simp [ht', hp'])
  exact absurd (hr.length.2 hp') hle.not_gt

theorem tagging_iff (tags : List Tag) (h : validate tags = .ok ()) :
    fromString (string tags) = .ok tags.toFinset ↔ ∀ t ∈ tags, t.Plain := by
  obtain ⟨hamp, hnodup⟩ := validate_spec h
  constructor
  · intro hround
    obtain ⟨m, hm, hset⟩ := map_eq_ok_iff.1 hround
    obtain ⟨rs, hrs, rfl⟩ := (parseQuery_string_iff hamp).1 hm
    have hread : ∀ t ∈ tags, ∃ t' ∈ tags, t'.Reads t := by
      intro t ht
      obtain ⟨r, hr, he⟩ := mem_map.1 (pair_mem_of_mem_tagsOf (hset ▸ mem_toFinset.2 ht))
      obtain rfl : r = t := by
        cases r
        cases t
        simpa using he
      obtain ⟨i, hi, rfl⟩ := mem_iff_getElem.1 hr
      have hi' : i < tags.length := hrs.length_eq ▸ hi
      exact ⟨tags[i], getElem_mem hi', hrs.get hi' hi⟩
    intro t ht
    obtain ⟨t', ht', hr⟩ := hread t ht
    exact hr.plain (no_escapes hread t' ht')
  · intro hplain
    have hrs : Forall₂ Tag.Reads tags tags := forall₂_same.2 fun t ht => (hplain t ht).reads
    rw [fromString, (parseQuery_string_iff hamp).2 ⟨tags, hrs, rfl⟩, Except.map,
      tagsOf_eq_toFinset hnodup]

theorem tagging_twoTags :
    validate [⟨lit "project", lit "a=b"⟩, ⟨lit "stage", []⟩] = .ok () ∧
      fromString (string [⟨lit "project", lit "a=b"⟩, ⟨lit "stage", []⟩]) =
        .ok {⟨lit "project", lit "a=b"⟩, ⟨lit "stage", []⟩} :=
  ⟨rfl, (tagging_iff [⟨lit "project", lit "a=b"⟩, ⟨lit "stage", []⟩] rfl).2 (by
    unfold Tag.Plain
    decide +kernel)⟩

/-- A value with a plus comes back with a blank. -/
theorem tagging_plus :
    validate [⟨lit "k", lit "a+b"⟩] = .ok () ∧ fromString (string [⟨lit "k", lit "a+b"⟩]) ≠ .ok
      {⟨lit "k", lit "a+b"⟩} := by
  refine ⟨rfl, fun h => ?_⟩
  exact absurd (congrArg Except.toOption h) (by decide +kernel)

end S3Kinetic.Tagging
