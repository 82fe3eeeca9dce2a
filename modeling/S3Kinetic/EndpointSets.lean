import S3Kinetic.Ellipses

/-!
# Erasure sets (`endpoint-ellipses.go`)

`GetAllSets` expands the arguments of the server, chooses one set size and cuts the list of
endpoints into sets of that size. The size divides the greatest common divisor of the totals of the
arguments, by whichever of its rules it is chosen, so the sets of an argument add up to its total. A
total is a product of 64-bit numbers and may wrap, but then the expansion is longer than a slice can
be. `getAllSets_partition` puts this together.
-/

namespace S3Kinetic.EndpointSets

open ByteString Ellipses List

/-! ## Set sizes -/

inductive Err where
  | errInvalidArgument
  /-- `ErrInvalidNumberOfErasureEndpoints`: `Incorrect number of endpoints provided %s` -/
  | incorrectNumber (args : List Bytes)
  /-- The same, with `number of disks %d is not divisible by any supported erasure set sizes %d` -/
  | notDivisible (args : List Bytes) (commonSize : Nat)
  /-- `ErrInvalidErasureSetSize`: `Invalid set drive count. Acceptable values for %d number drives
  are %d` -/
  | invalidSetDriveCount (commonSize : Nat) (setCounts : List Nat)
  /-- `ErrInvalidErasureEndpoints` with the text of another error. -/
  | invalidPattern (err : Ellipses.Err)
  | invalidSets (err : Err)
  /-- `ErrInvalidErasureEndpoints`: `Input args (%s) has duplicate ellipses` -/
  | duplicateEllipses (args : List Bytes)
  deriving DecidableEq

def setSizes : List Nat := [4, 6, 8, 10, 12, 14, 16]

/-- `setSizes[0]` -/
def minSetSize : Nat := 4

/-- `setSizes[len(setSizes)-1]` -/
def maxSetSize : Nat := 16

/-- The loop of `gcd`, which `y + 1` rounds are enough for. -/
def gcdLoop : Nat → Nat → Nat → Nat
  | 0, x, _ => x
  | fuel + 1, x, y => if y = 0 then x else gcdLoop fuel y (x % y)

def gcd (x y : Nat) : Nat := gcdLoop (y + 1) x y

/-- `getDivisibleSize`; its caller has looked at the number of totals. -/
def getDivisibleSize : List Nat → Nat
  | [] => 0
  | totalSize :: totalSizes => totalSizes.foldl gcd totalSize

def isValidSetSize (count : Nat) : Bool := minSetSize ≤ count && count ≤ maxSetSize && count % 2 = 0

/-- The loop over the supported sizes for one with the fewest sets, from `prevD` sets and a set
size. -/
def chooseSetSize (commonSize : Nat) : Nat × Nat → List Nat → Nat
  | (_, setSize), [] => setSize
  | (prevD, setSize), i :: sizes =>
    if commonSize % i = 0 ∧ commonSize / i ≤ prevD then chooseSetSize commonSize
      (commonSize / i, i) sizes
    else chooseSetSize commonSize (prevD, setSize) sizes

def defaultSetSize (commonSize : Nat) : Nat :=
  if commonSize > maxSetSize then chooseSetSize commonSize (commonSize / minSetSize, 0) setSizes
    else commonSize

def possibleSetCounts (setSize : Nat) : List Nat := setSizes.filter fun s => setSize % s = 0

def getSetIndexes (args : List Bytes) (totalSizes : List Nat) (customSetDriveCount : Nat) :
    Except Err (List (List Nat)) :=
  if totalSizes.length = 0 ∨ args.length = 0 then .error .errInvalidArgument
  else if totalSizes.any fun totalSize => totalSize < minSetSize ||
    totalSize < customSetDriveCount then
    .error (.incorrectNumber args)
  else
    let commonSize := getDivisibleSize totalSizes
    let setCounts := possibleSetCounts commonSize
    if setCounts.length = 0 then .error (.notDivisible args commonSize)
    else if customSetDriveCount > 0 ∧ (customSetDriveCount > defaultSetSize commonSize ∨
      customSetDriveCount ∉ setCounts) then
      .error (.invalidSetDriveCount commonSize setCounts)
    else
      let setSize := if customSetDriveCount > 0 then customSetDriveCount
        else defaultSetSize commonSize
      if isValidSetSize setSize = false then .error (.notDivisible args commonSize)
      else .ok (totalSizes.map fun totalSize => List.replicate (totalSize / setSize) setSize)

/-! ## Endpoints -/

structure EndpointSet where
  argPatterns : List ArgPattern
  endpoints : List Bytes
  setIndexes : List (List Nat)

/-- The strings of all arguments, one argument after the other. -/
def expandAll : List ArgPattern → Option (List Bytes)
  | [] => some []
  | argPattern :: argPatterns =>
    match joined argPattern, expandAll argPatterns with
    | some strings, some rest => some (strings ++ rest)
    | _, _ => none

/-- `getEndpoints`; a slice has fewer than `2 ^ 63` elements, and an append that needs more
panics. -/
def EndpointSet.getEndpoints (s : EndpointSet) : Option (List Bytes) :=
  if s.endpoints.length ≠ 0 then some s.endpoints
  else (expandAll s.argPatterns).filter fun endpoints => endpoints.length < 2 ^ 63

/-- The loops of `Get`: the endpoints from `k` on in sets of the given sizes. -/
def cutSets (endpoints : List Bytes) : Nat → List Nat → Option (List (List Bytes))
  | _, [] => some []
  | k, n :: sizes =>
    if k + n ≤ endpoints.length then (cutSets endpoints (k + n) sizes).map
      ((endpoints.drop k).take n :: ·) else none

def EndpointSet.get (s : EndpointSet) : Option (List (List Bytes)) :=
  s.getEndpoints.bind fun endpoints => cutSets endpoints 0 s.setIndexes.flatten

def totalSize (argPattern : ArgPattern) : Nat :=
  argPattern.foldl (fun total p => total * p.seq.length % 2 ^ 64) 1

def getTotalSizes (argPatterns : List ArgPattern) : List Nat := argPatterns.map totalSize

/-- The patterns of all arguments, up to the first that has none. -/
def findAll (fuel : Nat) : List Bytes → Option (Except Err (List ArgPattern))
  | [] => some (.ok [])
  | arg :: args =>
    match findEllipsesPatterns fuel arg with
    | none => none
    | some (.error e) => some (.error (.invalidPattern e))
    | some (.ok patterns) =>
      match findAll fuel args with
      | none => none
      | some (.error e) => some (.error e)
      | some (.ok argPatterns) => some (.ok (patterns :: argPatterns))

def parseEndpointSet (fuel customSetDriveCount : Nat) (args : List Bytes) :
    Option (Except Err EndpointSet) :=
  match findAll fuel args with
  | none => none
  | some (.error e) => some (.error e)
  | some (.ok argPatterns) =>
    match getSetIndexes args (getTotalSizes argPatterns) customSetDriveCount with
    | .error e => some (.error (.invalidSets e))
    | .ok setIndexes => some (.ok ⟨argPatterns, [], setIndexes⟩)

/-- The set that `GetAllSets` cuts. -/
def endpointSet (fuel customSetDriveCount : Nat) (args : List Bytes) :
    Option (Except Err EndpointSet) :=
  if hasEllipses args = false then
    if args.length > 1 then
      match getSetIndexes args [args.length] customSetDriveCount with
      | .error e => some (.error e)
      | .ok setIndexes => some (.ok ⟨[], args, setIndexes⟩)
    else some (.ok ⟨[], args, [[args.length]]⟩)
  else parseEndpointSet fuel customSetDriveCount args

/-- The loop that looks every endpoint up among those before it. -/
def unique : List Bytes → List Bytes → Bool
  | _, [] => true
  | uniqueArgs, arg :: args => if arg ∈ uniqueArgs then false else unique (arg :: uniqueArgs) args

/-- `GetAllSets`; `none` if it does not return. -/
def getAllSets (fuel customSetDriveCount : Nat) (args : List Bytes) :
    Option (Except Err (List (List Bytes))) :=
  match endpointSet fuel customSetDriveCount args with
  | none => none
  | some (.error e) => some (.error e)
  | some (.ok s) =>
    match s.get with
    | none => none
    | some setArgs => if unique [] setArgs.flatten then some (.ok setArgs)
      else some (.error (.duplicateEllipses args))

/-! ## The partition -/

/-- The endpoints that the arguments stand for: the strings of each argument in turn, or the
arguments themselves unless every one of them has ellipses. -/
def Expanded (fuel : Nat) (args endpoints : List Bytes) : Prop :=
  if hasEllipses args = true then
    ∃ strings : List (List Bytes), List.Forall₂ (fun arg strs => ∃ patterns,
      findEllipsesPatterns fuel arg = some (.ok patterns) ∧ joined patterns = some strs)
        args strings ∧
        endpoints = strings.flatten
  else endpoints = args

/-- The sets cut the list of endpoints into blocks of one size. -/
structure Partition (args endpoints : List Bytes) (sets : List (List Bytes)) : Prop where
  size : (∃ size, 4 ≤ size ∧ size ≤ 16 ∧ size % 2 = 0 ∧ ∀ set ∈ sets, set.length = size) ∨
    ∃ arg, args = [arg] ∧ sets = [[arg]]
  block : ∀ set ∈ sets, set <:+: endpoints
  covers : sets.flatten = endpoints
  nodup : endpoints.Nodup

/-! ## One size for all arguments -/

variable {fuel : Nat}

theorem gcdLoop_eq {x y : Nat} (h : y < fuel) : gcdLoop fuel x y = Nat.gcd x y := by
  induction fuel generalizing x y with
  | zero => omega
  | succ fuel ih =>
    rw [gcdLoop]
    split_ifs with hy
    · rw [hy, Nat.gcd_zero_right]
    · have hlt : x % y < y := Nat.mod_lt x (Nat.pos_of_ne_zero hy)
      rw [ih (by omega), Nat.gcd_comm x y, Nat.gcd_rec y x, Nat.gcd_comm]

theorem gcd_eq (x y : Nat) : gcd x y = Nat.gcd x y := gcdLoop_eq (Nat.lt_succ_self y)

theorem foldl_gcd_dvd (x : Nat) (l : List Nat) :
    l.foldl gcd x ∣ x ∧ ∀ y ∈ l, l.foldl gcd x ∣ y := by
  induction l generalizing x with
  | nil => exact ⟨dvd_rfl, by simp⟩
  | cons y l ih =>
    obtain ⟨hx, hl⟩ := ih (gcd x y)
    rw [foldl_cons]
    have hgcd := gcd_eq x y
    exact ⟨hx.trans (hgcd ▸ Nat.gcd_dvd_left x y),
      forall_mem_cons.2 ⟨hx.trans (hgcd ▸ Nat.gcd_dvd_right x y), hl⟩⟩

variable {totalSizes : List Nat}

theorem getDivisibleSize_dvd {t : Nat} (ht : t ∈ totalSizes) : getDivisibleSize totalSizes ∣ t := by
  cases totalSizes with
  | nil => cases ht
  | cons x l =>
    obtain ⟨hx, hl⟩ := foldl_gcd_dvd x l
    rcases mem_cons.1 ht with rfl | ht
    · exact hx
    · exact hl t ht

theorem chooseSetSize_dvd {commonSize prevD setSize : Nat} (h : setSize = 0 ∨ setSize ∣ commonSize)
    (sizes : List Nat) :
    chooseSetSize commonSize (prevD, setSize) sizes = 0 ∨ chooseSetSize commonSize (prevD,
      setSize) sizes ∣ commonSize := by
  induction sizes generalizing prevD setSize with
  | nil => exact h
  | cons i sizes ih =>
    rw [chooseSetSize]
    split_ifs with hi
    · exact ih (.inr (Nat.dvd_of_mod_eq_zero hi.1))
    · exact ih h

theorem defaultSetSize_dvd (commonSize : Nat) :
    defaultSetSize commonSize = 0 ∨ defaultSetSize commonSize ∣ commonSize := by
  rw [defaultSetSize]
  split_ifs
  · exact chooseSetSize_dvd (.inl rfl) setSizes
  · exact .inr dvd_rfl

theorem isValidSetSize_iff {count : Nat} : isValidSetSize count = true ↔ 4 ≤ count ∧ count ≤ 16 ∧
    count % 2 = 0 := by
  simp only [isValidSetSize, Bool.and_eq_true, decide_eq_true_eq, and_assoc]
  rfl

variable {args : List Bytes} {customSetDriveCount : Nat}

theorem getSetIndexes_ok {setIndexes : List (List Nat)}
    (h : getSetIndexes args totalSizes customSetDriveCount = .ok setIndexes) :
    ∃ size, (4 ≤ size ∧ size ≤ 16 ∧ size % 2 = 0) ∧ (∀ t ∈ totalSizes, size ∣ t) ∧
      setIndexes = totalSizes.map fun t => List.replicate (t / size) size := by
  simp only [getSetIndexes] at h
  split_ifs at h with hempty hany hcounts hcustom hpos hvalid hvalid
  · -- A custom size is one of the supported divisors.
    cases h
    have hmem : customSetDriveCount ∈ possibleSetCounts (getDivisibleSize totalSizes) := by tauto
    have hdvd : customSetDriveCount ∣ getDivisibleSize totalSizes := by
      simpa [Nat.dvd_iff_mod_eq_zero] using (mem_filter.1 hmem).2
    exact ⟨customSetDriveCount, isValidSetSize_iff.1 (Bool.not_eq_false _ ▸ hvalid),
      fun t ht => hdvd.trans (getDivisibleSize_dvd ht), rfl⟩
  · cases h
    have hval := isValidSetSize_iff.1 (Bool.not_eq_false _ ▸ hvalid)
    have hdvd : defaultSetSize (getDivisibleSize totalSizes) ∣ getDivisibleSize totalSizes := by
      rcases defaultSetSize_dvd (getDivisibleSize totalSizes) with h0 | hdvd
      · omega
      · exact hdvd
    exact ⟨_, hval, fun t ht => hdvd.trans (getDivisibleSize_dvd ht), rfl⟩

theorem sum_setIndexes {size : Nat} (h : ∀ t ∈ totalSizes, size ∣ t) :
    (totalSizes.map fun t => List.replicate (t / size) size).map List.sum = totalSizes := by
  rw [map_map]
  refine (map_congr_left fun t ht => ?_).trans (map_id totalSizes)
  rw [Function.comp_apply, sum_replicate, smul_eq_mul, Nat.div_mul_cancel (h t ht), id_eq]

/-! ## The length of an expansion -/

theorem length_argExpander {labels out : List (List Bytes)} (h : argExpander labels = some out) :
    out.length = (labels.map List.length).prod := by
  induction labels generalizing out with
  | nil => cases h
  | cons label labels ih =>
    cases labels with
    | nil =>
      cases h
      simp
    | cons l labels =>
      obtain ⟨rs, hrs⟩ := argExpander_isSome (cons_ne_nil l labels)
      rw [argExpander_cons hrs] at h
      cases h
      rw [map_cons, prod_cons, ← ih hrs]
      simp

def combinations (argPattern : ArgPattern) : Nat := (argPattern.map fun p => p.seq.length).prod

theorem combinations_cons (p : Pattern) (argPattern : ArgPattern) :
    combinations (p :: argPattern) = p.seq.length * combinations argPattern := by
  rw [combinations, map_cons, prod_cons, combinations]

theorem length_joined {argPattern : ArgPattern} {strings : List Bytes}
    (h : joined argPattern = some strings) :
    strings.length = combinations argPattern := by
  obtain ⟨out, hout, rfl⟩ := Option.map_eq_some_iff.1 h
  rw [length_map, length_argExpander hout, combinations, map_map]
  congr 1
  exact map_congr_left fun p _ => by simp [Pattern.expand_eq]

theorem foldl_mul_mod {m t : Nat} (ht : t < m) (l : ArgPattern) :
    l.foldl (fun total p => total * p.seq.length % m) t = t * combinations l % m := by
  induction l generalizing t with
  | nil => simp [combinations, Nat.mod_eq_of_lt ht]
  | cons p l ih =>
    rw [foldl_cons, ih (Nat.mod_lt _ (by omega)), combinations_cons, ← Nat.mul_assoc,
      Nat.mod_mul_mod]

theorem totalSize_eq {argPattern : ArgPattern} (h : combinations argPattern < 2 ^ 64) :
    totalSize argPattern = combinations argPattern := by
  rw [totalSize, foldl_mul_mod (by decide), Nat.one_mul, Nat.mod_eq_of_lt h]

variable {endpoints : List Bytes}

theorem sum_getTotalSizes {argPatterns : List ArgPattern}
    (h : expandAll argPatterns = some endpoints) (hlen : endpoints.length < 2 ^ 64) :
    (getTotalSizes argPatterns).sum = endpoints.length := by
  induction argPatterns generalizing endpoints with
  | nil =>
    cases h
    rfl
  | cons a as ih =>
    rw [expandAll] at h
    rcases ha : joined a with _ | strings
    · simp [ha] at h
    · rcases has : expandAll as with _ | rest
      · simp [ha, has] at h
      · simp only [ha, has] at h
        cases h
        rw [length_append] at hlen ⊢
        have hcount := length_joined ha
        have hrest := ih has (by omega)
        rw [getTotalSizes] at hrest ⊢
        rw [map_cons, sum_cons, hrest, totalSize_eq (by omega), hcount]

theorem findAll_ok {argPatterns : List ArgPattern}
    (h : findAll fuel args = some (.ok argPatterns)) (he : expandAll argPatterns = some endpoints) :
    ∃ strings : List (List Bytes), List.Forall₂ (fun arg strs => ∃ patterns,
      findEllipsesPatterns fuel arg = some (.ok patterns) ∧ joined patterns = some strs)
        args strings ∧
        endpoints = strings.flatten := by
  induction args generalizing argPatterns endpoints with
  | nil =>
    cases h
    cases he
    exact ⟨[], .nil, rfl⟩
  | cons arg args ih =>
    rw [findAll] at h
    rcases hfind : findEllipsesPatterns fuel arg with _ | e | patterns
    · simp [hfind] at h
    · simp [hfind] at h
    rcases hrest : findAll fuel args with _ | e | as
    · simp [hfind, hrest] at h
    · simp [hfind, hrest] at h
    simp only [hfind, hrest] at h
    cases h
    rw [expandAll] at he
    rcases hj : joined patterns with _ | strs
    · simp [hj] at he
    rcases has : expandAll as with _ | rest
    · simp [hj, has] at he
    simp only [hj, has] at he
    cases he
    obtain ⟨strings, hall, rfl⟩ := ih hrest has
    exact ⟨strs :: strings, .cons ⟨patterns, hfind, hj⟩ hall, rfl⟩

/-! ## Cutting the endpoints -/

theorem cutSets_ok {k : Nat} {sizes : List Nat} {sets : List (List Bytes)}
    (h : cutSets endpoints k sizes = some sets) :
    sets.map List.length = sizes ∧ (∀ set ∈ sets, set <:+: endpoints) ∧
      sets.flatten = (endpoints.drop k).take sizes.sum := by
  induction sizes generalizing k sets with
  | nil =>
    cases h
    exact ⟨rfl, by simp, by simp⟩
  | cons n sizes ih =>
    rw [cutSets] at h
    split_ifs at h with hle
    obtain ⟨rest, hrest, rfl⟩ := Option.map_eq_some_iff.1 h
    obtain ⟨hsizes, hblock, hflat⟩ := ih hrest
    refine ⟨?_, forall_mem_cons.2 ⟨?_, hblock⟩, ?_⟩
    · rw [map_cons, hsizes, length_take, length_drop, Nat.min_eq_left (by omega)]
    · exact (List.take_prefix n _).isInfix.trans (drop_suffix k endpoints).isInfix
    · rw [flatten_cons, hflat, sum_cons, take_add, drop_drop]

theorem unique_nodup {seen : List Bytes} (h : unique seen args = true) :
    args.Nodup ∧ ∀ arg ∈ args, arg ∉ seen := by
  induction args generalizing seen with
  | nil => simp
  | cons arg args ih =>
    rw [unique] at h
    split_ifs at h with hmem
    obtain ⟨hnodup, hseen⟩ := ih h
    refine ⟨nodup_cons.2 ⟨fun harg => hseen arg harg mem_cons_self, hnodup⟩, ?_⟩
    exact forall_mem_cons.2 ⟨hmem, fun x hx hs => hseen x hx (mem_cons_of_mem _ hs)⟩

/-- The sizes of the sets, and the endpoints that they are cut from. -/
structure Sized (fuel : Nat) (args endpoints : List Bytes) (sizes : List Nat) : Prop where
  expanded : Expanded fuel args endpoints
  sum_eq : sizes.sum = endpoints.length
  size : (∃ size, (4 ≤ size ∧ size ≤ 16 ∧ size % 2 = 0) ∧ ∀ n ∈ sizes, n = size) ∨
    ∃ arg, args = [arg] ∧ endpoints = [arg] ∧ sizes = [1]

theorem Sized.of_getSetIndexes
    {setIndexes : List (List Nat)} (h : getSetIndexes args totalSizes customSetDriveCount =
      .ok setIndexes)
    (hexp : Expanded fuel args endpoints) (hsum : totalSizes.sum = endpoints.length) :
    Sized fuel args endpoints setIndexes.flatten := by
  obtain ⟨size, hvalid, hdvd, rfl⟩ := getSetIndexes_ok h
  refine ⟨hexp, ?_, .inl ⟨size, hvalid, fun n hn => ?_⟩⟩
  · rw [sum_flatten, sum_setIndexes hdvd, hsum]
  · obtain ⟨l, hl, hn⟩ := mem_flatten.1 hn
    obtain ⟨t, -, rfl⟩ := mem_map.1 hl
    exact (mem_replicate.1 hn).2

theorem endpointSet_ok {s : EndpointSet}
    (h : endpointSet fuel customSetDriveCount args = some (.ok s))
    (he : s.getEndpoints = some endpoints) :
    Sized fuel args endpoints s.setIndexes.flatten := by
  rw [endpointSet] at h
  split_ifs at h with hno hmany
  · have hexp : Expanded fuel args args := by simp [Expanded, hno]
    rcases hidx : getSetIndexes args [args.length] customSetDriveCount with e | setIndexes
    · simp [hidx] at h
    · simp only [hidx] at h
      cases h
      rw [EndpointSet.getEndpoints, if_pos (show args.length ≠ 0 by omega)] at he
      cases he
      exact .of_getSetIndexes hidx hexp (by simp)
  · -- Arguments that do not all have ellipses are not none.
    obtain ⟨arg, rfl⟩ : ∃ arg, args = [arg] := by
      match args, hno, hmany with
      | [arg], _, _ => exact ⟨arg, rfl⟩
      | _ :: _ :: _, _, hmany => simp at hmany
    cases h
    rw [EndpointSet.getEndpoints, if_pos (by simp)] at he
    cases he
    exact ⟨by simp [Expanded, hno], rfl, .inr ⟨arg, rfl, rfl, rfl⟩⟩
  · rw [parseEndpointSet] at h
    rcases hfind : findAll fuel args with _ | e | argPatterns
    · simp [hfind] at h
    · simp [hfind] at h
    rcases hidx : getSetIndexes args (getTotalSizes argPatterns) customSetDriveCount
      with e | setIndexes
    · simp [hfind, hidx] at h
    simp only [hfind, hidx] at h
    cases h
    rw [EndpointSet.getEndpoints, if_neg (by simp), Option.filter_eq_some_iff] at he
    obtain ⟨hexpand, hlen⟩ := he
    have hlen' : endpoints.length < 2 ^ 63 := by simpa using hlen
    have hexp : Expanded fuel args endpoints := by
      rw [Expanded, if_pos (by simpa using hno)]
      exact findAll_ok hfind hexpand
    exact .of_getSetIndexes hidx hexp (sum_getTotalSizes hexpand (by omega))

/-- Sets that `GetAllSets` returns are a partition of the expanded endpoints into blocks of one
size, and the set sizes of an argument add up to its total. -/
theorem getAllSets_partition :
    (∀ (fuel customSetDriveCount : Nat) (args : List Bytes) (sets : List (List Bytes)),
      getAllSets fuel customSetDriveCount args = some (.ok sets) →
        ∃ endpoints, Expanded fuel args endpoints ∧ Partition args endpoints sets) ∧
      ∀ (args : List Bytes) (totalSizes : List Nat) (customSetDriveCount : Nat) (setIndexes :
        List (List Nat)),
        getSetIndexes args totalSizes customSetDriveCount = .ok setIndexes →
          setIndexes.map List.sum = totalSizes := by
  constructor
  · intro fuel customSetDriveCount args sets h
    rw [getAllSets] at h
    rcases hs : endpointSet fuel customSetDriveCount args with _ | e | s
    · simp [hs] at h
    · simp [hs] at h
    rcases hget : s.get with _ | setArgs
    · simp [hs, hget] at h
    simp only [hs, hget] at h
    split_ifs at h with hunique
    · cases h
      obtain ⟨endpoints, he, hcut⟩ := Option.bind_eq_some_iff.1 hget
      obtain ⟨hexp, hsum, hsize⟩ := endpointSet_ok hs he
      obtain ⟨hlen, hblock, hflat⟩ := cutSets_ok hcut
      rw [hsum, drop_zero, take_length] at hflat
      refine ⟨endpoints, hexp, ?_, hblock, hflat, hflat ▸ (unique_nodup hunique).1⟩
      rcases hsize with ⟨size, ⟨h4, h16, heven⟩, hall⟩ | ⟨arg, rfl, rfl, hone⟩
      · refine .inl ⟨size, h4, h16, heven, fun set hset => hall _ ?_⟩
        rw [← hlen]
        exact mem_map_of_mem hset
      · rw [hone] at hcut
        cases hcut
        exact .inr ⟨arg, rfl, rfl⟩
    · cases h
  · intro args totalSizes customSetDriveCount setIndexes h
    obtain ⟨size, -, hdvd, rfl⟩ := getSetIndexes_ok h
    exact sum_setIndexes hdvd

/-- The arguments `a{1...8}` and `b{1...4}`: two sets of the first and one of the second. -/
theorem getAllSets_partition_three :
    getAllSets 9 0 [lit "a\x7b1...8\x7d", lit "b\x7b1...4\x7d"] =
        some (.ok [[lit "a1", lit "a2", lit "a3", lit "a4"],
          [lit "a5", lit "a6", lit "a7", lit "a8"], [lit "b1", lit "b2", lit "b3", lit "b4"]]) ∧
      (∃ endpoints, Expanded 9 [lit "a\x7b1...8\x7d", lit "b\x7b1...4\x7d"] endpoints ∧
        Partition [lit "a\x7b1...8\x7d", lit "b\x7b1...4\x7d"] endpoints
          [[lit "a1", lit "a2", lit "a3", lit "a4"], [lit "a5", lit "a6", lit "a7", lit "a8"],
            [lit "b1", lit "b2", lit "b3", lit "b4"]]) ∧
      getSetIndexes [[]] [8, 12] 0 = .ok [[4, 4], [4, 4, 4]] ∧
        [[4, 4], [4, 4, 4]].map List.sum = [8, 12] :=
  ⟨by decide +kernel, getAllSets_partition.1 9 0 _ _ (by decide +kernel), by decide +kernel,
    getAllSets_partition.2 [[]] [8, 12] 0 _ (by decide +kernel)⟩

end S3Kinetic.EndpointSets
