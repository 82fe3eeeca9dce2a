import S3Kinetic.BucketDeletion
import S3Kinetic.Pagination

/-!
# Listings with a delimiter

With the delimiter `/`, `ListObjects` lists an object whose name goes on behind the directory of the
prefix as its next directory, once. It looks at all keys from the prefix up to its byte increment,
that one included, so an object of that name is listed although it lies outside the prefix.
`delimiterListing_iff` says when the listing is right: for keys without `:` exactly when all of them
can be read and none outside the prefix is visible.
-/

namespace S3Kinetic

open ByteString OrdMap

/-! ## The specification -/

section Spec

variable (pfx : Bytes)

def afterPrefixDir (i : ObjectInfo) : Bytes := i.name.drop (prefixDirOf pfx).length

def belowDir (i : ObjectInfo) : Bool := decide (slash ∈ afterPrefixDir pfx i)

def dirName (i : ObjectInfo) : Bytes :=
  prefixDirOf pfx ++ (afterPrefixDir pfx i).takeWhile (· ≠ slash) ++ [slash]

def plainInfos (infos : List ObjectInfo) : List ObjectInfo := infos.filter fun i => !belowDir pfx i

def dirNames (infos : List ObjectInfo) : List Bytes :=
  (infos.filter (belowDir pfx)).map (dirName pfx)

end Spec

section Law

variable (K : Kineticd) (s : Store) (b p : Bytes) (maxKeys : Int)

def visibleUnder : List ObjectInfo :=
  (s.keysWhere fun k => hasPrefix k (makeKey b p)).filterMap (keyInfo s b)

/-- The listing returns the visible objects directly under the prefix and the directories of the
others, each once, and nothing outside the prefix. -/
def DelimiterLaw : Prop :=
  ∃ fuel res, listObjects K s fuel b p [] [slash] maxKeys = some (.ok res) ∧
    res.objects.Perm (plainInfos p (visibleUnder s b p)) ∧
    res.prefixes.Nodup ∧ (∀ d, d ∈ res.prefixes ↔ d ∈ dirNames p (visibleUnder s b p)) ∧
    (∀ i ∈ res.objects, p <+: i.name) ∧ ∀ d ∈ res.prefixes, p <+: d

def delimiterCall : ListCall := ⟨b, incStr (makeKey b p), prefixDirOf p, false, none⟩

end Law

variable {K : Kineticd} {s : Store} {b p : Bytes} {maxKeys : Int}

/-! ## One string -/

theorem splitOn_slash (x : Bytes) :
    (slash ∉ x ∧ x.splitOn slash = [x]) ∨
      ∃ y ys, slash ∈ x ∧ x.splitOn slash = x.takeWhile (· ≠ slash) :: y :: ys := by
  by_cases hx : slash ∈ x
  · obtain ⟨u, t, rfl, hu⟩ := List.eq_append_cons_of_mem hx
    obtain ⟨y, ys, hsplit⟩ := List.exists_cons_of_ne_nil (List.splitOn_ne_nil slash t)
    have hwhile : (u ++ slash :: t).takeWhile (· ≠ slash) = u := by
      rw [List.takeWhile_append_of_pos fun c hc => by simpa using fun h : c = slash => hu (h ▸ hc)]
      simp
    exact .inr ⟨y, ys, hx, by rw [List.splitOn_append_cons_self_of_not_mem hu, hwhile, hsplit]⟩
  · exact .inl ⟨hx, List.splitOn_eq_singleton hx⟩

theorem listDir_prefixDir (p : Bytes) (i : ObjectInfo) :
    listDir (prefixDirOf p) i = if belowDir p i then { i with isDir := true, name := dirName p i }
      else i := by
  unfold listDir belowDir dirName afterPrefixDir
  rcases splitOn_slash (i.name.drop (prefixDirOf p).length) with ⟨hx, hs⟩ | ⟨y, ys, hx, hs⟩
  · rw [hs]
    simp [hx]
  · rw [hs]
    simp [hx]

/-- What the loop does with a string whose visible object is `i`. -/
def ListState.add (p : Bytes) (st : ListState) (i : ObjectInfo) : ListState :=
  if belowDir p i then
    if dirName p i ∈ st.prefixes then st
    else { st with prefixes := st.prefixes ++ [dirName p i], nRemainKeys := st.nRemainKeys - 1 }
  else { st with objects := st.objects ++ [i], nRemainKeys := st.nRemainKeys - 1 }

theorem listKey_delimiter (st : ListState) (key : Bytes) :
    listKey K s (delimiterCall b p) st key =
      if key.length < b.length + 1 then .error .panic
      else
        match getObjectInfo K s b (key.drop (b.length + 1)) with
        | .error e => .error e
        | .ok i =>
          if i.hidden then .ok { st with nRemainKeys := st.nRemainKeys - 1 }
          else if i.name.length < (prefixDirOf p).length then .error .panic
          else .ok (st.add p i) := by
  unfold listKey delimiterCall
  simp only [Option.any_none, Bool.false_eq_true, if_false, listDir_prefixDir]
  by_cases hlen : key.length < b.length + 1
  · rw [if_pos hlen, if_pos hlen]
  rw [if_neg hlen, if_neg hlen]
  cases hi : getObjectInfo K s b (key.drop (b.length + 1)) with
  | error e => rfl
  | ok i =>
    have hdir := (getObjectInfo_name hi).2
    dsimp only
    by_cases hh : i.hidden = true
    · rw [if_pos hh, if_pos hh]
    rw [if_neg hh, if_neg hh]
    by_cases hshort : i.name.length < (prefixDirOf p).length
    · rw [if_pos hshort, if_pos hshort]
    rw [if_neg hshort, if_neg hshort]
    unfold ListState.add
    cases hbelow : belowDir p i with
    | true =>
      simp only [if_true]
      split <;> rfl
    | false => simp [hdir]

/-! ## The strings of a listing -/

variable {fuel : Nat} {st : ListState}

theorem listObjects_delimiter (hp : star ∉ p) (hmax : maxKeys ≤ maxKeyRange)
    {res : ListObjectsInfo} :
    listObjects K s fuel b p [] [slash] maxKeys = some (.ok res) ↔
      ∃ st last, listLoop K s (delimiterCall b p) fuel (makeKey b p) true ⟨[], [], maxKeys⟩ =
        some (.ok (st, last)) ∧
        res = ⟨false, [], st.objects, st.prefixes⟩ := by
  have hmk : b ++ [slash] ++ p = makeKey b p := by simp [makeKey]
  have hsplit : p.splitOn star = [p] := List.splitOn_eq_singleton hp
  have hcall : (⟨b, incStr (makeKey b p), prefixDirOf p, false, none⟩ : ListCall) =
    delimiterCall b p := rfl
  unfold listObjects
  simp only [hsplit, List.headD_cons, lt_irrefl, if_false, if_true, hmk, min_eq_left hmax, ne_eq,
    not_true, decide_false, hcall]
  rcases listLoop K s (delimiterCall b p) fuel (makeKey b p) true ⟨[], [], maxKeys⟩ with _ |
    e | ⟨st, last⟩
  · simp
  · simp
  · simp only [hmax, or_true, if_true, Option.some.injEq, Except.ok.injEq, Prod.mk.injEq]
    constructor
    · rintro rfl
      exact ⟨st, last, ⟨rfl, rfl⟩, rfl⟩
    · rintro ⟨st', last', ⟨rfl, rfl⟩, rfl⟩
      rfl

def addDirs (ds : List Bytes) (names : List Bytes) : List Bytes :=
  names.foldl (fun ds d => if d ∈ ds then ds else ds ++ [d]) ds

theorem mem_addDirs {ds names : List Bytes} {d : Bytes} :
    d ∈ addDirs ds names ↔ d ∈ ds ∨ d ∈ names := by
  induction names generalizing ds with
  | nil => simp [addDirs]
  | cons x names ih =>
    show d ∈ addDirs (if x ∈ ds then ds else ds ++ [x]) names ↔ _
    rw [ih, List.mem_cons]
    split
    · next hx =>
      constructor
      · exact fun h => h.imp_right .inr
      · rintro (h | rfl | h)
        exacts [.inl h, .inl hx, .inr h]
    · rw [List.mem_append, List.mem_singleton, or_assoc]

theorem nodup_addDirs {ds names : List Bytes} (h : ds.Nodup) : (addDirs ds names).Nodup := by
  induction names generalizing ds with
  | nil => exact h
  | cons x names ih =>
    show (addDirs (if x ∈ ds then ds else ds ++ [x]) names).Nodup
    refine ih ?_
    split
    · exact h
    · next hx => exact List.nodup_append.2 ⟨h, List.nodup_singleton x, fun a ha c hc => by
        rw [List.mem_singleton.1 hc]
        exact fun heq => hx (heq ▸ ha)⟩

theorem addDirs_append (ds names names' : List Bytes) :
    addDirs ds (names ++ names') = addDirs (addDirs ds names) names' :=
  List.foldl_append

theorem plainInfos_cons (p : Bytes) (i : ObjectInfo) (infos : List ObjectInfo) :
    plainInfos p (i :: infos) = plainInfos p [i] ++ plainInfos p infos := by
  rw [plainInfos, plainInfos, plainInfos, ← List.filter_append]
  rfl

theorem dirNames_cons (p : Bytes) (i : ObjectInfo) (infos : List ObjectInfo) :
    dirNames p (i :: infos) = dirNames p [i] ++ dirNames p infos := by
  rw [dirNames, dirNames, dirNames, ← List.map_append, ← List.filter_append]
  rfl

theorem ListState.add_eq (p : Bytes) (st : ListState) (i : ObjectInfo) :
    (st.add p i).objects = st.objects ++ plainInfos p [i] ∧ (st.add p i).prefixes =
      addDirs st.prefixes (dirNames p [i]) := by
  unfold ListState.add plainInfos dirNames addDirs
  cases hbelow : belowDir p i with
  | true => by_cases hmem : dirName p i ∈ st.prefixes <;> simp [hbelow, hmem]
  | false => simp [hbelow]

/-- What the loop makes of strings with visible objects `infos`. -/
theorem listKeys_delimiter_iff {ks : List Bytes} {objects : List ObjectInfo}
    {prefixes : List Bytes} :
    (∃ n, listKeys K s (delimiterCall b p) ks st = .ok ⟨objects, prefixes, n⟩) ↔
      ∃ infos, visibleInfos K s b ks = .ok infos ∧
        (∀ i ∈ infos, (prefixDirOf p).length ≤ i.name.length) ∧
        objects = st.objects ++ plainInfos p infos ∧
          prefixes = addDirs st.prefixes (dirNames p infos) := by
  induction ks generalizing st with
  | nil =>
    obtain ⟨objs, ds, n⟩ := st
    simp [listKeys, visibleInfos, plainInfos, dirNames, addDirs, eq_comm]
  | cons k ks ih =>
    rw [listKeys, listKey_delimiter, visibleInfos]
    by_cases hlen : k.length < b.length + 1
    · simp [hlen]
    rw [if_neg hlen, if_neg hlen]
    cases getObjectInfo K s b (k.drop (b.length + 1)) with
    | error e => simp
    | ok i =>
      dsimp only
      by_cases hh : i.hidden = true
      · -- a hidden object adds nothing
        rw [if_pos hh, ih]
        cases visibleInfos K s b ks with
        | error e => simp
        | ok infos => simp [hh]
      rw [if_neg hh]
      by_cases hshort : i.name.length < (prefixDirOf p).length
      · rw [if_pos hshort]
        cases visibleInfos K s b ks with
        | error e => simp
        | ok infos => simp [hh, hshort]
      · rw [if_neg hshort, ih, (st.add_eq p i).1, (st.add_eq p i).2]
        cases visibleInfos K s b ks with
        | error e => simp
        | ok infos =>
          simp only [Except.ok.injEq, exists_eq_left', if_neg hh, List.forall_mem_cons,
            not_lt.1 hshort, true_and]
          rw [plainInfos_cons p i infos, dirNames_cons p i infos, addDirs_append, List.append_assoc]

/-! ## The directory of a prefix -/

theorem prefixDirOf_spec (p : Bytes) :
    ∃ t, p = prefixDirOf p ++ t ∧ slash ∉ t ∧
      (prefixDirOf p = [] ∨ ∃ y, prefixDirOf p = y ++ [slash]) := by
  refine ⟨(p.reverse.takeWhile (· ≠ slash)).reverse, ?_, ?_, ?_⟩
  · rw [prefixDirOf, ← List.reverse_append, List.takeWhile_append_dropWhile, List.reverse_reverse]
  · intro h
    have := List.mem_takeWhile_imp (List.mem_reverse.1 h)
    simp at this
  · unfold prefixDirOf
    cases hd : p.reverse.dropWhile (· ≠ slash) with
    | nil => exact .inl rfl
    | cons c y =>
      have hc : c = slash := by
        have hne : p.reverse.dropWhile (· ≠ slash) ≠ [] := by rw [hd]; exact List.cons_ne_nil c y
        have hhead := List.head_dropWhile_not (· ≠ slash) hne
        simp only [hd, List.head_cons] at hhead
        simpa using hhead
      exact .inr ⟨y.reverse, by rw [hc, List.reverse_cons]⟩

variable {i : ObjectInfo}

theorem prefix_dirName (h : p <+: i.name) : p <+: dirName p i := by
  obtain ⟨t, hp, ht, -⟩ := prefixDirOf_spec p
  obtain ⟨r, hr⟩ := h
  have hname : i.name = prefixDirOf p ++ (t ++ r) := by rw [← List.append_assoc, ← hp, hr]
  have hafter : afterPrefixDir p i = t ++ r := by rw [afterPrefixDir, hname, List.drop_left]
  rw [dirName, hafter, List.takeWhile_append_of_pos
    fun c hc => by simpa using fun h : c = slash => ht (h ▸ hc)]
  refine ⟨r.takeWhile (· ≠ slash) ++ [slash], ?_⟩
  calc p ++ (r.takeWhile (· ≠ slash) ++ [slash])
      = prefixDirOf p ++ t ++ (r.takeWhile (· ≠ slash) ++ [slash]) := by rw [← hp]
    _ = prefixDirOf p ++ (t ++ r.takeWhile (· ≠ slash)) ++ [slash] := by
      simp only [List.append_assoc]

theorem prefix_of_mem_visibleUnder (h : i ∈ visibleUnder s b p) : p <+: i.name := by
  obtain ⟨k, hk, hi⟩ := List.mem_filterMap.1 h
  obtain ⟨r, rfl⟩ := List.isPrefixOf_iff_prefix.1 (mem_keysWhere.1 hk).2
  have hkey : makeKey b p ++ r = makeKey b (p ++ r) := by simp [makeKey]
  rw [hkey] at hi
  rw [name_of_keyInfo hi]
  exact ⟨r, rfl⟩

theorem prefix_of_mem_dirNames {d : Bytes} (h : d ∈ dirNames p (visibleUnder s b p)) : p <+: d := by
  obtain ⟨i, hi, rfl⟩ := List.mem_map.1 h
  exact prefix_dirName (prefix_of_mem_visibleUnder (List.mem_filter.1 hi).1)

/-! ## The end of the range -/

theorem le_incStr_cases {x k : Bytes} (hx : ∃ c ∈ x, c ≠ 255) (hle : x ≤ k) (hge : k ≤ incStr x)
    (hk : ¬ x <+: k) :
    ∃ y c i j, x = y ++ c :: List.replicate j 255 ∧ k = y ++ (c + 1) :: List.replicate i 0 := by
  obtain ⟨y, c, j, hc, rfl, hinc⟩ := incStr_split hx
  have hyc : ¬ y ++ [c] <+: k := by
    rintro ⟨r, rfl⟩
    rw [List.append_assoc, ← not_lt, append_lt_append_iff, not_lt, List.singleton_append,
      cons_le_cons_iff] at hle
    obtain hlt | ⟨-, hr⟩ := hle
    · exact lt_irrefl c hlt
    · have hmax (a : UInt8) : a ≤ 255 := UInt8.le_iff_toNat_le.2 (Nat.lt_succ_iff.1 a.toNat_lt)
      obtain ⟨r, rfl⟩ := replicate_prefix_of_le hmax hr
      exact hk ⟨r, by simp⟩
  have hbegin : y ++ [c] ≤ k := (prefix_le ⟨List.replicate j 255, by simp⟩).trans hle
  have hend : y ++ [c + 1] ≤ k :=
    not_lt.1 fun hlt => hyc ((snoc_prefix_iff (covBy_add_one hc) y k).2 ⟨hbegin, hlt⟩)
  have hinc' : incStr (y ++ c :: List.replicate j 255) = y ++ [c + 1] ++ List.replicate j 0 := by
    rw [hinc]; simp
  rw [hinc'] at hge
  obtain ⟨r, rfl⟩ := prefix_of_le_append hend hge
  rw [← not_lt, append_lt_append_iff, not_lt] at hge
  obtain ⟨i, rfl⟩ := eq_replicate_of_le (fun a => UInt8.le_iff_toNat_le.2 (Nat.zero_le _)) hge
  exact ⟨y, c, i, j, rfl, by simp⟩

theorem makeKey_prefix_iff {b x y : Bytes} : makeKey b x <+: makeKey b y ↔ x <+: y := by
  rw [makeKey, makeKey, List.prefix_append_right_inj, List.cons_prefix_cons]
  exact and_iff_right rfl

theorem not_prefix_dirName (hle : makeKey b p ≤ makeKey b i.name)
    (hge : makeKey b i.name ≤ incStr (makeKey b p)) (hout : ¬ p <+: i.name)
    (hbelow : belowDir p i = true) :
    ¬ p <+: dirName p i := by
  have hmem : slash ∈ i.name.drop (prefixDirOf p).length := of_decide_eq_true hbelow
  obtain ⟨t, hp, -⟩ := prefixDirOf_spec p
  obtain ⟨y, c, n, j, hx, hk⟩ := le_incStr_cases ⟨slash, by simp [makeKey], slash_ne⟩ hle hge
    fun h => hout (makeKey_prefix_iff.1 h)
  have hdir : makeKey b (prefixDirOf p) <+: makeKey b p := makeKey_prefix_iff.2 ⟨t, hp.symm⟩
  rcases le_or_gt (makeKey b (prefixDirOf p)).length y.length with hlen | hlen
  · -- the name starts with the directory of the prefix, and so with its own directory
    have hy : makeKey b (prefixDirOf p) <+: y :=
      List.prefix_of_prefix_length_le hdir ⟨_, hx.symm⟩ hlen
    obtain ⟨e, he⟩ : prefixDirOf p <+: i.name := makeKey_prefix_iff.1 (hy.trans ⟨_, hk.symm⟩)
    rw [← he, List.drop_left] at hmem
    obtain ⟨u, v, rfl, hu⟩ := List.eq_append_cons_of_mem hmem
    have hname : dirName p i = prefixDirOf p ++ u ++ [slash] := by
      rw [dirName, afterPrefixDir, ← he, List.drop_left,
        List.takeWhile_append_of_pos fun c hc => by simpa using fun h : c = slash => hu (h ▸ hc)]
      simp
    intro h
    refine hout (h.trans ⟨v, ?_⟩)
    rw [hname, ← he]
    simp
  · -- only zeros are left behind it
    have hdrop : i.name.drop (prefixDirOf p).length =
        (makeKey b i.name).drop (makeKey b (prefixDirOf p)).length := by
      simp [makeKey, List.drop_append]
    rw [hdrop, hk] at hmem
    obtain ⟨d, hd⟩ := Nat.exists_eq_add_of_lt hlen
    rw [hd, show y.length + d + 1 = y.length + (d + 1) by omega, ← List.drop_drop, List.drop_left,
      List.drop_succ_cons] at hmem
    exact absurd (List.eq_of_mem_replicate (List.mem_of_mem_drop hmem)) (by decide)

/-! ## The law without colons -/

theorem rangeKeys_length_le (hL : Listable s b p) :
    (rangeKeys s b p).length ≤ (bucketKeys s b).length := by
  refine (List.Nodup.subperm (keysWhere_sorted.imp ne_of_lt) fun k hk => ?_).length_le
  obtain ⟨-, q, c, rfl, -⟩ := hL k hk
  refine mem_keysWhere.2 ⟨(mem_rangeKeys.1 hk).1, ?_⟩
  exact List.isPrefixOf_iff_prefix.2 (makeKey_prefix_iff.2 List.nil_prefix)

theorem listLoop_of_listable (hL : Listable s b p)
    (hcount : ((rangeKeys s b p).length : Int) < maxKeys) (fuel : Nat) :
    listLoop K s (delimiterCall b p) (fuel + 1) (makeKey b p) true ⟨[], [], maxKeys⟩ =
      some ((listKeys K s (delimiterCall b p) (rangeKeys s b p) ⟨[], [], maxKeys⟩).map fun st =>
        (st, (rangeKeys s b p).getLast?.getD (makeKey b p))) := by
  have hkeys : cGetKeyRange K s (makeKey b p) (delimiterCall b p).endKey true true maxKeys.toNat =
      rangeKeys s b p := by
    rw [delimiterCall, cGetKeyRange_page hL le_rfl,
      List.filter_eq_self.2 fun k hk => by simpa using (mem_rangeKeys.1 hk).2.1,
      List.take_of_length_le (by omega)]
  rw [listLoop, if_neg (by simp only; omega)]
  simp only [hkeys, if_pos hcount]
  cases listKeys K s (delimiterCall b p) (rangeKeys s b p) ⟨[], [], maxKeys⟩ <;> rfl

/-- The law in terms of what the keys of the range say. -/
theorem delimiterLaw_iff_visibleInfos (hp : star ∉ p) (hmax : maxKeys ≤ maxKeyRange)
    (hL : Listable s b p) (hcount : ((rangeKeys s b p).length : Int) < maxKeys) :
    DelimiterLaw K s b p maxKeys ↔
      ∃ infos, visibleInfos K s b (rangeKeys s b p) = .ok infos ∧
        (∀ i ∈ infos, (prefixDirOf p).length ≤ i.name.length) ∧
        (plainInfos p infos).Perm (plainInfos p (visibleUnder s b p)) ∧
        ∀ d, d ∈ dirNames p infos ↔ d ∈ dirNames p (visibleUnder s b p) := by
  constructor
  · rintro ⟨_ | fuel, res, hres, hobjs, -, hdirs, -⟩
    · obtain ⟨st, last, hloop, -⟩ := (listObjects_delimiter hp hmax).1 hres
      cases hloop
    obtain ⟨st, last, hloop, rfl⟩ := (listObjects_delimiter hp hmax).1 hres
    rw [listLoop_of_listable hL hcount, Option.some.injEq] at hloop
    cases hlist : listKeys K s (delimiterCall b p) (rangeKeys s b p) ⟨[], [], maxKeys⟩ with
    | error e => rw [hlist] at hloop; cases hloop
    | ok st' =>
      rw [hlist] at hloop
      cases hloop
      obtain ⟨infos, hinfos, hlong, hobjects, hprefixes⟩ :=
        listKeys_delimiter_iff.1 ⟨st.nRemainKeys, hlist⟩
      refine ⟨infos, hinfos, hlong, ?_, fun d => ?_⟩
      · rw [List.nil_append] at hobjects
        exact hobjects ▸ hobjs
      · rw [← hdirs d, hprefixes, mem_addDirs]
        simp
  · rintro ⟨infos, hinfos, hlong, hobjs, hdirs⟩
    obtain ⟨n, hlist⟩ := listKeys_delimiter_iff.2 ⟨infos, hinfos, hlong, rfl, rfl⟩
    have hloop := listLoop_of_listable (K := K) hL hcount 0
    rw [hlist] at hloop
    have hmem (d : Bytes) : d ∈ addDirs [] (dirNames p infos) ↔
        d ∈ dirNames p (visibleUnder s b p) := by
      rw [mem_addDirs, ← hdirs d]
      simp
    refine ⟨1, _, (listObjects_delimiter hp hmax).2 ⟨_, _, hloop, rfl⟩, hobjs,
      nodup_addDirs List.nodup_nil,
      hmem, fun i hi => ?_, fun d hd => prefix_of_mem_dirNames ((hmem d).1 hd)⟩
    exact prefix_of_mem_visibleUnder (List.mem_filter.1 (hobjs.mem_iff.1 hi)).1

theorem filterMap_rangeKeys (h : ∀ k ∈ rangeKeys s b p, ¬ makeKey b p <+: k →
    keyInfo s b k = none) :
    (rangeKeys s b p).filterMap (keyInfo s b) = visibleUnder s b p := by
  have hsub : (s.keysWhere fun k => hasPrefix k (makeKey b p)) = (rangeKeys s b p).filter fun k =>
      hasPrefix k (makeKey b p) := by
    refine eq_of_sorted_of_mem_iff keysWhere_sorted (keysWhere_sorted.sublist List.filter_sublist)
      fun k => ?_
    rw [mem_keysWhere_prefix_iff, List.mem_filter, hasPrefix, List.isPrefixOf_iff_prefix]
  rw [visibleUnder, hsub, List.filterMap_filter]
  refine List.filterMap_congr fun k hk => ?_
  by_cases hpre : hasPrefix k (makeKey b p) = true
  · rw [if_pos hpre]
  · rw [if_neg hpre, h k hk fun h => hpre (List.isPrefixOf_iff_prefix.2 h)]

theorem keyInfo_eq_none_of_lists (hL : Listable s b p)
    (hobjs : (plainInfos p ((rangeKeys s b p).filterMap (keyInfo s b))).Perm
      (plainInfos p (visibleUnder s b p)))
    (hdirs : ∀ d, d ∈ dirNames p ((rangeKeys s b p).filterMap (keyInfo s b)) ↔
      d ∈ dirNames p (visibleUnder s b p)) :
    ∀ k ∈ rangeKeys s b p, ¬ makeKey b p <+: k → keyInfo s b k = none := by
  intro k hk hout
  by_contra hsome
  obtain ⟨i, hi⟩ := Option.ne_none_iff_exists'.1 hsome
  have hlisted : i ∈ (rangeKeys s b p).filterMap (keyInfo s b) := List.mem_filterMap.2 ⟨k, hk, hi⟩
  obtain ⟨-, q, c, rfl, -⟩ := hL k hk
  obtain ⟨-, hle, hge⟩ := mem_rangeKeys.1 hk
  rw [← name_of_keyInfo hi] at hle hge hout
  have hout' : ¬ p <+: i.name := fun h => hout (makeKey_prefix_iff.2 h)
  cases hbelow : belowDir p i with
  | false =>
    have hplain : i ∈ plainInfos p (visibleUnder s b p) :=
      hobjs.mem_iff.1 (List.mem_filter.2 ⟨hlisted, by simp [hbelow]⟩)
    exact hout' (prefix_of_mem_visibleUnder (List.mem_filter.1 hplain).1)
  | true =>
    have hdir : dirName p i ∈ dirNames p (visibleUnder s b p) :=
      (hdirs _).1 (List.mem_map_of_mem (List.mem_filter.2 ⟨hlisted, hbelow⟩))
    exact not_prefix_dirName hle hge hout' hbelow (prefix_of_mem_dirNames hdir)

theorem delimiterLaw_iff_listable (hb : b ≠ []) (hp : star ∉ p) (hmax : maxKeys ≤ maxKeyRange)
    (hcount : ((bucketKeys s b).length : Int) < maxKeys) (hL : Listable s b p) :
    DelimiterLaw K s b p maxKeys ↔
      (∀ k ∈ rangeKeys s b p, readable K s k = true) ∧
        ∀ k ∈ rangeKeys s b p, ¬ makeKey b p <+: k → keyInfo s b k = none := by
  have hfew : ((rangeKeys s b p).length : Int) < maxKeys :=
    lt_of_le_of_lt (Int.ofNat_le.2 (rangeKeys_length_le hL)) hcount
  rw [delimiterLaw_iff_visibleInfos hp hmax hL hfew]
  constructor
  · rintro ⟨infos, hinfos, -, hobjs, hdirs⟩
    have hread := readable_of_visibleInfos hb hL (fun _ => id) hinfos
    rw [visibleInfos_of_readable hb hL (fun _ => id) hread] at hinfos
    cases hinfos
    exact ⟨hread, keyInfo_eq_none_of_lists hL hobjs hdirs⟩
  · rintro ⟨hread, hinside⟩
    have hinfos := visibleInfos_of_readable hb hL (fun _ => id) hread
    rw [filterMap_rangeKeys hinside] at hinfos
    obtain ⟨t, hdir, -⟩ := prefixDirOf_spec p
    have hlong {i : ObjectInfo} (hi : i ∈ visibleUnder s b p) : (prefixDirOf p).length ≤
        i.name.length :=
      (List.IsPrefix.length_le ⟨t, hdir.symm⟩).trans (prefix_of_mem_visibleUnder hi).length_le
    exact ⟨visibleUnder s b p, hinfos, fun i hi => hlong hi, .refl _, fun _ => .rfl⟩

theorem delimiterListing_iff (hb : b ≠ []) (hp : star ∉ p) (hmax : maxKeys ≤ maxKeyRange)
    (hcount : ((bucketKeys s b).length : Int) < maxKeys) (hL : Listable s b p)
    (_hnames : CListing s b p) :
    DelimiterLaw K s b p maxKeys ↔
      (∀ k ∈ rangeKeys s b p, readable K s k = true) ∧
        ∀ k ∈ rangeKeys s b p, ¬ makeKey b p <+: k → keyInfo s b k = none :=
  delimiterLaw_iff_listable hb hp hmax hcount hL

/-- A bucket with one object under the prefix `d` and one in its directory. -/
def objectAndDirectory : List Op :=
  onlyObject (lit "d") ++
    [.putObject (lit "bkt") (lit "d/z") (bodyReader (lit "data") (List.replicate 16 7)) ∅ 3]

theorem delimiterListing_objectAndDirectory :
    DelimiterLaw (memoryDrive []) (memoryRun objectAndDirectory) (lit "bkt") (lit "d") 10 := by
  have hrange : rangeKeys (memoryRun objectAndDirectory) (lit "bkt") (lit "d") =
      [makeKey (lit "bkt") (lit "d"), makeKey (lit "bkt") (lit "d/z")] := by decide +kernel
  refine (delimiterListing_iff (by decide) (by decide) (by decide) (by decide +kernel) ?_ ?_).2
    (by decide +kernel)
  · intro k hk
    rw [hrange, List.mem_pair] at hk
    rcases hk with rfl | rfl
    exacts [⟨by decide, [], 100, by decide⟩, ⟨by decide, lit "d/", 122, by decide⟩]
  · refine ⟨by decide, by decide, ?_⟩
    rw [hrange]
    decide

/-- A listing of the prefix `a` returns the object `b`. -/
theorem delimiterListing_endKey :
    ¬ DelimiterLaw (memoryDrive []) (memoryRun (onlyObject (lit "b"))) (lit "bkt") (lit "a")
      10 := by
  rw [delimiterLaw_iff_listable (by decide) (by decide) (by decide) (by decide +kernel)]
  · decide +kernel
  · have hrange : rangeKeys (memoryRun (onlyObject (lit "b"))) (lit "bkt") (lit "a") =
        [makeKey (lit "bkt") (lit "b")] := by decide +kernel
    intro k hk
    rw [hrange] at hk
    rw [List.mem_singleton.1 hk]
    exact ⟨by decide, [], 98, by decide⟩

end S3Kinetic
