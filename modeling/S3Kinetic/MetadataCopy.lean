import S3Kinetic.ETag

/-!
# Copies of metadata only

A copy of an object onto itself with `metadataOnly` is how metadata, tags, retention and legal holds
are changed. `CopyObject` reads the record in that case, builds the answer from it and writes
nothing. So a following `GetObjectInfo` reports the new user metadata exactly if the record had it
before (`metadataCopy_iff`).
-/

namespace S3Kinetic

open ByteString OrdMap

/-! ## What `GetObjectInfo` reports -/

def keyContentType : Bytes := lit "content-type"
def keyContentEncoding : Bytes := lit "content-encoding"
def octetStream : Bytes := lit "application/octet-stream"
def amzStorageClass : Bytes := lit "x-amz-storage-class"

/-- `path.Ext`: what starts at the last dot of the last element. -/
def pathExt (path : Bytes) : Bytes :=
  match (path.reverse.takeWhile (· ≠ slash)).span (· ≠ dot) with
  | (_, []) => []
  | (ext, _ :: _) => dot :: ext.reverse

/-- `TypeByExtension`; `db` is the table of content types by extension, in any case and without the
dot. -/
def typeByExtension (db : Bytes → Option Bytes) (ext : Bytes) : Bytes :=
  if ext = [] then octetStream else (db (ext.drop 1)).getD octetStream

def removeStandardStorageClass (metadata : OrdMap Bytes Bytes) : OrdMap Bytes Bytes :=
  if metadata.get? amzStorageClass = some (lit "STANDARD") then metadata.erase amzStorageClass
    else metadata

def cleanMetadataKeys (metadata : OrdMap Bytes Bytes) (keyNames : List Bytes) :
    OrdMap Bytes Bytes :=
  keyNames.foldl OrdMap.erase metadata

def cleanMetadata (metadata : OrdMap Bytes Bytes) : OrdMap Bytes Bytes :=
  cleanMetadataKeys (removeStandardStorageClass metadata) [lit "md5Sum", keyEtag, lit "expires",
    lit "X-Amz-Tagging"]

/-- An `ObjectInfo` with the fields that come from the user. -/
structure UserObjectInfo extends ObjectInfo where
  contentType : Bytes
  contentEncoding : Bytes
  userDefined : OrdMap Bytes Bytes
  deriving DecidableEq

section Model

variable (db : Bytes → Option Bytes) (K : Kineticd)

/-- The entries after `KVInfoToObjectInfo` has guessed the content type. -/
def FsMetaV1.withContentType (m : FsMetaV1) (object : Bytes) : OrdMap Bytes Bytes :=
  let guessed :=
    if m.get keyContentType = [] then m.entries.insert keyContentType
      (typeByExtension db (pathExt object)) else m.entries
  if hasSuffix object [slash] then (guessed.insert keyEtag emptyETag).insert keyContentType
    octetStream else guessed

/-- `KVInfoToObjectInfo` with the fields that come from the user. -/
def FsMetaV1.toUserObjectInfo (m : FsMetaV1) (bucket object : Bytes) : UserObjectInfo where
  toObjectInfo := m.toObjectInfo bucket object
  contentType := ((m.withContentType db object).get? keyContentType).getD []
  contentEncoding := ((m.withContentType db object).get? keyContentEncoding).getD []
  userDefined := cleanMetadata (m.withContentType db object)

/-- `GetObjectInfo` with the fields that come from the user. -/
def KineticObjects.getUserObjectInfo (s : Store) (bucket object : Bytes) :
    Except Err UserObjectInfo :=
  let res : Except Err UserObjectInfo :=
    match (checkBucketAndObjectNames K bucket object).or (statBucketDir K s bucket) with
    | some e => .error e
    | none => (getObjectMeta K s bucket object).map fun m => m.toUserObjectInfo db bucket object
  res.mapError fun e => toObjectErr e [bucket, object]

/-- The record under the name reports exactly this user metadata, apart from entries with keys in
`own`. -/
def Reports (own : List Bytes) (s : Store) (bucket object : Bytes)
    (userDefined : OrdMap Bytes Bytes) : Prop :=
  ∃ m, getObjectMeta K s bucket object = .ok m ∧
    ∀ k ∉ own, (m.toUserObjectInfo db bucket object).userDefined.get? k = userDefined.get? k

/-- What a copy of metadata from the store `s` to `s'` is for. The layer keeps entries of its own
beside those of the user, the size and the version among them: `own` are the keys of those that do
not count. -/
structure MetadataCopied (own : List Bytes) (s s' : Store) (bucket object : Bytes)
    (userDefined : OrdMap Bytes Bytes) :
    Prop where
  reports : ∃ info, KineticObjects.getUserObjectInfo db K s' bucket object = .ok info ∧
    ∀ k ∉ own, info.userDefined.get? k = userDefined.get? k
  sizeAndParts : ∀ info, KineticObjects.getUserObjectInfo db K s bucket object = .ok info →
    ∃ info', KineticObjects.getUserObjectInfo db K s' bucket object = .ok info' ∧
      info'.size = info.size ∧ info'.parts = info.parts
  content : ∀ kc rs sizes data,
    GetReturns K s' kc bucket object rs sizes data ↔ GetReturns K s kc bucket object rs sizes data

/-- A successful copy of an object onto itself replaces its user metadata and nothing else. -/
def MetadataCopyLaw (own : List Bytes) (s : Store) (bucket object : Bytes) (src : CopySource)
    (now : Nat) : Prop :=
  ∀ s' info, copyObject K s bucket object bucket object src now = (s', .ok info) →
    MetadataCopied db K own s s' bucket object src.userDefined

end Model

variable {db : Bytes → Option Bytes} {K : Kineticd} {s : Store} {bucket object : Bytes}

theorem getUserObjectInfo_eq_ok_iff {info : UserObjectInfo} :
    KineticObjects.getUserObjectInfo db K s bucket object = .ok info ↔
      checkBucketAndObjectNames K bucket object = none ∧ statBucketDir K s bucket = none ∧
        ∃ m, getObjectMeta K s bucket object = .ok m ∧
          m.toUserObjectInfo db bucket object = info := by
  unfold KineticObjects.getUserObjectInfo
  cases checkBucketAndObjectNames K bucket object with
  | some e => simp [Except.mapError]
  | none =>
    cases statBucketDir K s bucket with
    | some e => simp [Except.mapError]
    | none => cases getObjectMeta K s bucket object <;> simp [Except.mapError, Except.map]

/-! ## The copy -/

theorem copyObject_metadataOnly {src : CopySource} (hsrc : src.metadataOnly = true)
    (hex : makeKey bucket object ∈ s) {s' : Store} (now : Nat) :
    (∃ info, copyObject K s bucket object bucket object src now = (s', .ok info)) ↔
      s' = s ∧ statBucketDir K s bucket = none ∧ readable K s (makeKey bucket object) = true := by
  obtain ⟨⟨blob, value⟩, hrec⟩ := (OrdMap.mem_iff s).1 hex
  unfold copyObject
  cases hstat : statBucketDir K s bucket with
  | some e => simp
  | none =>
    simp only [hsrc, and_self, if_true, cGetMeta, hrec, readable]
    cases blob with
    | gob b => simp [unmarshalMeta]
    | json m =>
      by_cases hlen : (K.marshal m).length ≤ maxMetaBytes
      · simp [unmarshalMeta, hlen, eq_comm]
      · simp [unmarshalMeta, hlen]

theorem metadataCopied_self {own : List Bytes} {userDefined : OrdMap Bytes Bytes} :
    MetadataCopied db K own s s bucket object userDefined ↔
      checkBucketAndObjectNames K bucket object = none ∧ statBucketDir K s bucket = none ∧
        Reports db K own s bucket object userDefined := by
  constructor
  · rintro ⟨⟨info, hinfo, hentries⟩, -, -⟩
    obtain ⟨hnames, hstat, m, hm, rfl⟩ := getUserObjectInfo_eq_ok_iff.1 hinfo
    exact ⟨hnames, hstat, m, hm, hentries⟩
  · rintro ⟨hnames, hstat, m, hm, hentries⟩
    exact ⟨⟨_, getUserObjectInfo_eq_ok_iff.2 ⟨hnames, hstat, m, hm, rfl⟩, hentries⟩,
      fun info hinfo => ⟨info, hinfo, rfl, rfl⟩, fun _ _ _ _ => Iff.rfl⟩

/-- A copy of metadata only does what it is for exactly if it has nothing to do: it fails, or the
record already reports the new metadata under a valid name. -/
theorem metadataCopy_iff (db : Bytes → Option Bytes) (K : Kineticd) (own : List Bytes)
    {src : CopySource}
    (hsrc : src.metadataOnly = true) (hex : makeKey bucket object ∈ s) (now : Nat) :
    MetadataCopyLaw db K own s bucket object src now ↔
      (statBucketDir K s bucket = none → readable K s (makeKey bucket object) = true →
        checkBucketAndObjectNames K bucket object = none ∧
          Reports db K own s bucket object src.userDefined) := by
  constructor
  · intro hlaw hstat hread
    obtain ⟨info, hcopy⟩ := (copyObject_metadataOnly hsrc hex now).2 ⟨rfl, hstat, hread⟩
    obtain ⟨hnames, -, hreports⟩ := metadataCopied_self.1 (hlaw s info hcopy)
    exact ⟨hnames, hreports⟩
  · intro hcond s' info hcopy
    obtain ⟨rfl, hstat, hread⟩ := (copyObject_metadataOnly hsrc hex now).1 ⟨info, hcopy⟩
    obtain ⟨hnames, hreports⟩ := hcond hstat hread
    exact metadataCopied_self.2 ⟨hnames, hstat, hreports⟩

def metadataSource (userDefined : OrdMap Bytes Bytes) : CopySource :=
  ⟨[], [], 4, userDefined, true, bodyReader [] []⟩

def layerKeys : List Bytes := [keySize, keyVersion, keyEtag, keyContentType]

/-- An object without user metadata is given none. -/
theorem metadataCopy_nothing :
    MetadataCopyLaw (fun _ => none) (memoryDrive []) layerKeys dataStore (lit "bkt") (lit "o")
      (metadataSource ∅) 3 := by
  refine (metadataCopy_iff (fun _ => none) (memoryDrive []) layerKeys rfl (by decide +kernel) 3).2
    fun _ _ => ⟨by decide +kernel, ?_⟩
  obtain ⟨m, hm, hkeys⟩ : ∃ m, getObjectMeta (memoryDrive []) dataStore (lit "bkt") (lit "o") =
    .ok m ∧
      ∀ k ∈ (m.toUserObjectInfo (fun _ => none) (lit "bkt") (lit "o")).userDefined.keys,
          k ∈ layerKeys :=
    ⟨putObjectMeta (lit "o") (bodyReader (lit "data") (List.replicate 16 7)) ∅ (newVersion [])
      2, by decide +kernel, by decide +kernel⟩
  refine ⟨m, hm, fun k hk => ?_⟩
  exact (OrdMap.not_mem_iff _).1 fun hmem => hk (hkeys k (OrdMap.mem_keys.2 hmem))

def keyColor : Bytes := lit "X-Amz-Meta-Color"

/-- The copy succeeds, and the entry it was to set is not there afterwards. -/
theorem metadataCopy_lost :
    Reachable (memoryDrive []) dataStore ∧
      (∃ info, copyObject (memoryDrive []) dataStore (lit "bkt") (lit "o") (lit "bkt") (lit "o")
        (metadataSource (OrdMap.empty.insert keyColor (lit "red"))) 3 = (dataStore, .ok info)) ∧
      ¬ MetadataCopyLaw (fun _ => none) (memoryDrive []) layerKeys dataStore (lit "bkt") (lit "o")
        (metadataSource (OrdMap.empty.insert keyColor (lit "red"))) 3 := by
  obtain ⟨info, hcopy⟩ : ∃ info, copyObject (memoryDrive []) dataStore (lit "bkt") (lit "o")
    (lit "bkt") (lit "o")
      (metadataSource (OrdMap.empty.insert keyColor (lit "red"))) 3 = (dataStore, .ok info) :=
    (copyObject_metadataOnly rfl (by decide +kernel) 3).2
      ⟨rfl, by decide +kernel, by decide +kernel⟩
  refine ⟨⟨id, _, rfl⟩, ⟨info, hcopy⟩, fun hlaw => ?_⟩
  obtain ⟨-, -, m, hm, hentries⟩ := metadataCopied_self.1 (hlaw dataStore info hcopy)
  have hold : (getObjectMeta (memoryDrive []) dataStore (lit "bkt") (lit "o")).toOption.map
      (fun m => (m.toUserObjectInfo (fun _ => none) (lit "bkt") (lit "o")).userDefined.get?
          keyColor) = some none := by
    decide +kernel
  rw [hm] at hold
  have hnew := hentries keyColor (by decide +kernel)
  have hgone : (m.toUserObjectInfo (fun _ => none) (lit "bkt") (lit "o")).userDefined.get?
      keyColor = none :=
    Option.some.inj hold
  rw [hgone] at hnew
  exact absurd hnew (by decide +kernel)

end S3Kinetic
