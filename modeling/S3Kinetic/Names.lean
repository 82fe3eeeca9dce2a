import S3Kinetic.Kineticd

/-!
# Names, keys and versions

Every object, part and pending upload lives in one flat key space:

* `bucket.<bucket>` is a bucket record;
* `<bucket>/<object>` is an object;
* `<bucket>/<object>.<version>.<part>.<etag>.<size>` is a part of a version of the object;
* `<bucket>/<object>.fs.json.<uploadID>` is the record of a pending upload.
-/

namespace S3Kinetic

open ByteString Decimal

def slash : UInt8 := 47
def dot : UInt8 := 46

/-- `strings.HasPrefix`. -/
def hasPrefix (s p : Bytes) : Bool := p.isPrefixOf s

theorem hasPrefix_iff {s p : Bytes} : hasPrefix s p = true ↔ p <+: s := List.isPrefixOf_iff_prefix

/-- `strings.HasSuffix`. -/
def hasSuffix (s p : Bytes) : Bool := p.isSuffixOf s

/-- `strings.Contains`. -/
def contains (s p : Bytes) : Bool := s.tails.any fun t => hasPrefix t p

/-! ## Valid names -/

def isAsciiSpace (c : UInt8) : Bool := (9 ≤ c && c ≤ 13) || c == 32

/-- `strings.TrimLeftFunc(s, unicode.IsSpace)`, over UTF-8 bytes. -/
def trimLeft : Bytes → Bytes
  | 0xC2 :: 0x85 :: s => trimLeft s
  | 0xC2 :: 0xA0 :: s => trimLeft s
  | 0xE1 :: 0x9A :: 0x80 :: s => trimLeft s
  | 0xE2 :: 0x80 :: c :: s =>
    if (0x80 ≤ c && c ≤ 0x8A) || c == 0xA8 || c == 0xA9 || c == 0xAF then trimLeft s
    else 0xE2 :: 0x80 :: c :: s
  | 0xE2 :: 0x81 :: 0x9F :: s => trimLeft s
  | 0xE3 :: 0x80 :: 0x80 :: s => trimLeft s
  | c :: s => if isAsciiSpace c then trimLeft s else c :: s
  | [] => []

/-- `strings.TrimRightFunc(s, unicode.IsSpace)` on the reversed text. -/
def trimRightRev : Bytes → Bytes
  | 0x85 :: 0xC2 :: s => trimRightRev s
  | 0xA0 :: 0xC2 :: s => trimRightRev s
  | 0x80 :: 0x9A :: 0xE1 :: s => trimRightRev s
  | 0x9F :: 0x81 :: 0xE2 :: s => trimRightRev s
  | 0x80 :: 0x80 :: 0xE3 :: s => trimRightRev s
  | c :: 0x80 :: 0xE2 :: s =>
    if (0x80 ≤ c && c ≤ 0x8A) || c == 0xA8 || c == 0xA9 || c == 0xAF then trimRightRev s
    else c :: 0x80 :: 0xE2 :: s
  | c :: s => if isAsciiSpace c then trimRightRev s else c :: s
  | [] => []

/-- `strings.TrimSpace`. -/
def trimSpace (s : Bytes) : Bytes := (trimRightRev (trimLeft s).reverse).reverse

def isCont (c : UInt8) : Bool := 0x80 ≤ c && c ≤ 0xBF

/-- The second byte a three- or four-byte sequence may have. -/
def isSecond (c d : UInt8) : Bool :=
  if c == 0xE0 then 0xA0 ≤ d && d ≤ 0xBF
  else if c == 0xED then 0x80 ≤ d && d ≤ 0x9F
  else if c == 0xF0 then 0x90 ≤ d && d ≤ 0xBF
  else if c == 0xF4 then 0x80 ≤ d && d ≤ 0x8F
  else isCont d

/-- `utf8.ValidString`, with `need` continuation bytes outstanding. -/
def validUtf8 : Nat → Bytes → Bool
  | 0, [] => true
  | _ + 1, [] => false
  | n + 1, c :: s => isCont c && validUtf8 n s
  | 0, c :: s =>
    if c < 0x80 then validUtf8 0 s
    else if 0xC2 ≤ c && c ≤ 0xDF then validUtf8 1 s
    else
      match s with
      | [] => false
      | d :: s =>
        if 0xE0 ≤ c && c ≤ 0xEF then isSecond c d && validUtf8 1 s
        else 0xF0 ≤ c && c ≤ 0xF4 && isSecond c d && validUtf8 2 s

/-- `utf8.ValidString`. -/
def validString (s : Bytes) : Bool := validUtf8 0 s

/-- `hasBadPathComponent`. -/
def hasBadPathComponent (path : Bytes) : Bool :=
  ((trimSpace path).splitOn slash).any fun p => trimSpace p = lit ".." || trimSpace p = lit "."

/-- `IsValidObjectPrefix`. -/
def isValidObjectPrefix (object : Bytes) : Bool :=
  !hasBadPathComponent object && validString object && !contains object (lit "//")

/-- `IsValidObjectName`. -/
def isValidObjectName (object : Bytes) : Bool :=
  object.length ≠ 0 && !hasSuffix object [slash] && isValidObjectPrefix object

/-- `isMinioMetaBucketName`. -/
def isMinioMetaBucketName (bucket : Bytes) : Bool :=
  bucket = lit ".minio.sys" || bucket = lit ".minio.sys/multipart" ||
    bucket = lit ".minio.sys/tmp" || bucket = lit ".minio.sys/background-ops"

def isBucketChar (c : UInt8) : Bool := (97 ≤ c && c ≤ 122) || c == 45 || isDigit c

/-- One label of `IsValidBucketName`: not empty, no hyphen at either end, only `[a-z0-9-]`. -/
def isBucketLabel (piece : Bytes) : Bool :=
  piece.length ≠ 0 && piece.head? ≠ some 45 && piece.getLast? ≠ some 45 && piece.all isBucketChar

/-- `IsValidBucketName`. -/
def isValidBucketName (bucket : Bytes) : Bool :=
  if isMinioMetaBucketName bucket then true
  else if bucket.length < 3 || bucket.length > 63 then false
  else
    let pieces := bucket.splitOn dot
    pieces.all isBucketLabel && !(pieces.length = 4 && pieces.all fun p => p.all isDigit)

variable {bucket : Bytes} {c : UInt8}

theorem isBucketChar_of_mem (h : isValidBucketName bucket = true)
    (hc : c ∈ bucket) : isBucketChar c = true ∨ c = dot ∨ c = slash := by
  unfold isValidBucketName at h
  split at h
  · next hm =>
    simp only [isMinioMetaBucketName, Bool.or_eq_true, decide_eq_true_eq] at hm
    rcases hm with ((rfl | rfl) | rfl) | rfl <;> revert c <;> decide +kernel
  · split at h
    · simp at h
    · simp only [Bool.and_eq_true, List.all_eq_true] at h
      by_cases hd : c = dot
      · exact .inr (.inl hd)
      · obtain ⟨p, hp, hcp⟩ := exists_mem_splitOn hc hd
        have hl := h.1 p hp
        simp only [isBucketLabel, Bool.and_eq_true, List.all_eq_true] at hl
        exact .inl (hl.2 c hcp)

theorem colon_not_mem_bucket (h : isValidBucketName bucket = true) :
    colon ∉ bucket := by
  intro hc
  rcases isBucketChar_of_mem h hc with h | h | h <;> exact absurd h (by decide)

theorem bucket_ne_nil (h : isValidBucketName bucket = true) : bucket ≠ [] := by
  rintro rfl
  exact absurd h (by decide)

/-! ## Keys -/

/-- `makeKey`. -/
def makeKey (bucket obj : Bytes) : Bytes := bucket ++ slash :: obj

def bucketKey (bucket : Bytes) : Bytes := lit "bucket." ++ bucket

def partsKey (objKey version : Bytes) : Bytes := objKey ++ dot :: (version ++ [dot])

/-- `encodePartFile`. -/
def encodePartFile (partNumber : Int) (etag : Bytes) (actualSize : Int) : Bytes :=
  padInt 5 partNumber ++ dot :: (etag ++ dot :: formatInt actualSize)

def partKey (objKey version : Bytes) (partNumber : Int) (etag : Bytes) (actualSize : Int) : Bytes :=
  partsKey objKey version ++ encodePartFile partNumber etag actualSize

/-- `metaJSONFile`. -/
def metaJSONFile : Bytes := lit "fs.json"

def jsonKey (objKey uploadID : Bytes) : Bytes := objKey ++ dot :: (metaJSONFile ++ dot :: uploadID)

/-- `getPartKO`: the first part file of that number and etag, or the empty text. -/
def getPartKO (keys : List Bytes) (partNumber : Int) (etag : Bytes) : Bytes :=
  (keys.find? fun key => hasPrefix key (padInt 5 partNumber ++ dot :: (etag ++ [dot]))).getD []

theorem makeKey_drop (b o : Bytes) : (makeKey b o).drop (b.length + 1) = o := by
  simp [makeKey, List.drop_append]

theorem hasPrefix_makeKey_nil {b k : Bytes} :
    hasPrefix k (makeKey b []) = true ↔ ∃ o, k = makeKey b o := by
  rw [hasPrefix, List.isPrefixOf_iff_prefix]
  constructor
  · rintro ⟨o, rfl⟩
    exact ⟨o, by simp [makeKey]⟩
  · rintro ⟨o, rfl⟩
    exact ⟨o, by simp [makeKey]⟩

/-! ## Successors -/

/-- `IncByte` from the last byte on. -/
def incRev : Bytes → Bytes
  | [] => []
  | c :: s => if c = 255 then 0 :: incRev s else (c + 1) :: s

/-- `common.IncStr`. -/
def incStr (s : Bytes) : Bytes := (incRev s.reverse).reverse

theorem incStr_concat (p : Bytes) (hc : c ≠ 255) : incStr (p ++ [c]) = p ++ [c + 1] := by
  simp [incStr, incRev, hc]

theorem covBy_add_one (hc : c ≠ 255) : c ⋖ c + 1 := by
  have hlt : c.toNat < 255 := by
    have h1 : c.toNat < 256 := c.toNat_lt
    have h2 : c.toNat ≠ 255 := fun h => hc (UInt8.toNat_inj.1 h)
    omega
  have hs : (c + 1).toNat = c.toNat + 1 := by
    rw [UInt8.toNat_add]
    simp only [UInt8.toNat_one]
    omega
  refine ⟨UInt8.lt_iff_toNat_lt.2 (by omega), fun d h1 h2 => ?_⟩
  rw [UInt8.lt_iff_toNat_lt] at h1 h2
  omega

variable {K : Kineticd} {s : Store}

theorem inRange_incStr {p : Bytes} (hc : c ≠ 255) (k : Bytes) :
    inRange K (p ++ [c]) (incStr (p ++ [c])) true false k = hasPrefix k (p ++ [c]) := by
  rw [Bool.eq_iff_iff, incStr_concat p hc]
  simp only [inRange, hasPrefix, List.isPrefixOf_iff_prefix, snoc_prefix_iff (covBy_add_one hc)]
  simp

theorem getKeyRange_incStr {p : Bytes} (hc : c ≠ 255) (n : Nat) :
    getKeyRange K s (p ++ [c]) (incStr (p ++ [c])) true false n =
      (s.keysWhere fun k => hasPrefix k (p ++ [c])).take n := by
  rw [getKeyRange, OrdMap.keysWhere_congr fun k _ => inRange_incStr hc k]

theorem incStr_range (p k : Bytes) (hp : p ≠ []) (h255 : 255 ∉ p) :
    (p <+: k ↔ p ≤ k ∧ k < incStr p) ∧ ∀ (K : Kineticd) (s : Store) (n : Nat),
      getKeyRange K s p (incStr p) true false n = (s.keysWhere fun k => hasPrefix k p).take n := by
  obtain ⟨q, c, rfl⟩ := (List.eq_nil_or_concat' p).resolve_left hp
  have hc : c ≠ 255 := fun h => h255 (by simp [h])
  refine ⟨?_, fun K s n => getKeyRange_incStr hc n⟩
  rw [incStr_concat q hc]
  exact snoc_prefix_iff (covBy_add_one hc) q k

theorem incStr_range_ab : lit "ab" <+: lit "abc" ∧ lit "abc" < incStr (lit "ab") :=
  ⟨by decide, ((incStr_range (lit "ab") (lit "abc") (by decide) (by decide)).1.1 (by decide)).2⟩

theorem partsKey_eq (k v : Bytes) : partsKey k v = (k ++ dot :: v) ++ [dot] := by
  simp [partsKey]

theorem getKeyRange_partsKey (k v : Bytes) (n : Nat) :
    getKeyRange K s (partsKey k v) (incStr (partsKey k v)) true false n =
      (s.keysWhere fun k' => hasPrefix k' (partsKey k v)).take n := by
  rw [partsKey_eq]
  exact getKeyRange_incStr (by decide) n

/-! ## Versions -/

def wrap64 (n : Int) : Int := n.bmod (2 ^ 64)

/-- `newVersion`: the next version in `1..99999`, as five digits. -/
def newVersion (aCurVersion : Bytes) : Bytes :=
  if aCurVersion = [] then padInt 5 1
  else
    let curVer := (parseInt64 aCurVersion).1
    let nNxtVer := (wrap64 (curVer + 1)).tmod 100000
    padInt 5 (if nNxtVer = 0 then 1 else nNxtVer)

/-- A version text as `newVersion` writes it. -/
def isVersion (v : Bytes) : Bool := v.length = 5 && v.all isDigit

theorem isVersion_padInt {n : Int} (h0 : 0 ≤ n) (h1 : n < 100000) :
    isVersion (padInt 5 n) = true := by
  obtain ⟨n, rfl⟩ := Int.eq_ofNat_of_zero_le h0
  have hlen : (padNat 5 n).length = 5 := padNat_length (by omega) (by omega)
  simp only [isVersion, Bool.and_eq_true, decide_eq_true_eq, List.all_eq_true]
  exact ⟨hlen, fun _ => padNat_isDigit⟩

variable {v : Bytes}

theorem newVersion_of_isVersion (h : isVersion v = true) :
    ∃ n : Nat, n < 100000 ∧ parseInt64 v = ((n : Int), none) ∧
      newVersion v = padNat 5 (if n = 99999 then 1 else n + 1) := by
  have hne : v ≠ [] := by
    rintro rfl
    exact absurd h (by decide)
  simp only [isVersion, Bool.and_eq_true, decide_eq_true_eq, List.all_eq_true] at h
  obtain ⟨n, hn, hlt⟩ := parseInt64_of_isDigit h.2 hne (by rw [h.1]; decide)
  rw [h.1] at hlt
  refine ⟨n, hlt, hn, ?_⟩
  have hw : wrap64 ((n : Int) + 1) = n + 1 := Int.bmod_eq_of_le (by omega) (by omega)
  have hmod : ((n : Int) + 1).tmod 100000 = (n + 1) % 100000 :=
    Int.tmod_eq_emod_of_nonneg (by omega)
  rw [newVersion, if_neg hne]
  simp only [hn, hw, hmod]
  by_cases h9 : n = 99999
  · subst h9
    rfl
  · rw [if_neg (by omega), if_neg h9, show ((n : Int) + 1) % 100000 =
      ((n + 1 : Nat) : Int) by omega]
    rfl

theorem isVersion_newVersion (h : v = [] ∨ isVersion v = true) :
    isVersion (newVersion v) = true := by
  rcases h with rfl | h
  · decide
  · obtain ⟨n, hlt, -, hnew⟩ := newVersion_of_isVersion h
    rw [hnew]
    exact isVersion_padInt (n := (if n = 99999 then 1 else n + 1 : Nat)) (by omega)
      (by split <;> omega)

theorem newVersion_ne (h : v = [] ∨ isVersion v = true) : newVersion v ≠ v := by
  rcases h with rfl | h
  · decide
  · obtain ⟨n, hlt, hn, hnew⟩ := newVersion_of_isVersion h
    intro he
    have hread : parseInt64 v = (((if n = 99999 then 1 else n + 1 : Nat) : Int), none) := by
      rw [← he, hnew]
      exact parseInt64_padNat (by split <;> omega)
    rw [hn] at hread
    have : n = if n = 99999 then 1 else n + 1 := Int.ofNat.inj (congrArg Prod.fst hread)
    split at this <;> omega

theorem dot_not_mem_of_isVersion (h : isVersion v = true) : dot ∉ v := by
  simp only [isVersion, Bool.and_eq_true, decide_eq_true_eq, List.all_eq_true] at h
  intro hd
  exact absurd (h.2 _ hd) (by decide)

end S3Kinetic
