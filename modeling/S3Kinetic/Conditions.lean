import S3Kinetic.Lib.Net
import S3Kinetic.Lib.Replace
import S3Kinetic.ObjectLock
import S3Kinetic.Wildcard

/-!
# Condition values and condition functions

A condition function looks its key's name up in the values of the request, first in canonical header
form. A panic is `none`.
-/

namespace S3Kinetic

open ByteString OrdMap Utf8 Replace Net

/-! ## Keys -/

inductive Key where
  | s3XAmzCopySource | s3XAmzServerSideEncryption | s3XAmzServerSideEncryptionCustomerAlgorithm
  | s3XAmzMetadataDirective | s3XAmzStorageClass | s3LocationConstraint | s3Prefix | s3Delimiter
  | s3MaxKeys
  | awsReferer | awsSourceIP | awsUserAgent | awsSecureTransport | awsCurrentTime | awsEpochTime
  | awsPrincipalType | awsUserID | awsUsername
  | jwtSub | jwtIss | jwtAud | jwtJti | jwtName | jwtGivenName | jwtFamilyName | jwtMiddleName
  | jwtNickName
  | jwtPrefUsername | jwtProfile | jwtPicture | jwtWebsite | jwtEmail | jwtGender | jwtBirthdate
  | jwtPhoneNumber | jwtAddress | jwtScope | jwtClientID
  deriving DecidableEq

namespace Key

def text : Key → Bytes
  | s3XAmzCopySource => lit "s3:x-amz-copy-source"
  | s3XAmzServerSideEncryption => lit "s3:x-amz-server-side-encryption"
  | s3XAmzServerSideEncryptionCustomerAlgorithm =>
    lit "s3:x-amz-server-side-encryption-customer-algorithm"
  | s3XAmzMetadataDirective => lit "s3:x-amz-metadata-directive"
  | s3XAmzStorageClass => lit "s3:x-amz-storage-class"
  | s3LocationConstraint => lit "s3:LocationConstraint"
  | s3Prefix => lit "s3:prefix"
  | s3Delimiter => lit "s3:delimiter"
  | s3MaxKeys => lit "s3:max-keys"
  | awsReferer => lit "aws:Referer"
  | awsSourceIP => lit "aws:SourceIp"
  | awsUserAgent => lit "aws:UserAgent"
  | awsSecureTransport => lit "aws:SecureTransport"
  | awsCurrentTime => lit "aws:CurrentTime"
  | awsEpochTime => lit "aws:EpochTime"
  | awsPrincipalType => lit "aws:principaltype"
  | awsUserID => lit "aws:userid"
  | awsUsername => lit "aws:username"
  | jwtSub => lit "jwt:sub"
  | jwtIss => lit "jwt:iss"
  | jwtAud => lit "jwt:aud"
  | jwtJti => lit "jwt:jti"
  | jwtName => lit "jwt:name"
  | jwtGivenName => lit "jwt:given_name"
  | jwtFamilyName => lit "jwt:family_name"
  | jwtMiddleName => lit "jwt:middle_name"
  | jwtNickName => lit "jwt:nickname"
  | jwtPrefUsername => lit "jwt:preferred_username"
  | jwtProfile => lit "jwt:profile"
  | jwtPicture => lit "jwt:picture"
  | jwtWebsite => lit "jwt:website"
  | jwtEmail => lit "jwt:email"
  | jwtGender => lit "jwt:gender"
  | jwtBirthdate => lit "jwt:birthdate"
  | jwtPhoneNumber => lit "jwt:phone_number"
  | jwtAddress => lit "jwt:address"
  | jwtScope => lit "jwt:scope"
  | jwtClientID => lit "jwt:client_id"

/-- The key without its `aws:`, `jwt:` or `s3:`. -/
def name (k : Key) : Bytes :=
  if lit "aws:" <+: k.text ∨ lit "jwt:" <+: k.text then k.text.drop 4
  else if lit "s3:" <+: k.text then k.text.drop 3
  else k.text

/-- The variable of a key, such as `${aws:username}`. -/
def varName (k : Key) : Bytes := [36, 123] ++ k.text ++ [125]

def jwtKeys : List Key :=
  [jwtSub, jwtIss, jwtAud, jwtJti, jwtName, jwtGivenName, jwtFamilyName, jwtMiddleName,
   jwtNickName, jwtPrefUsername, jwtProfile, jwtPicture, jwtWebsite, jwtEmail, jwtGender,
   jwtBirthdate, jwtPhoneNumber, jwtAddress, jwtScope, jwtClientID]

def commonKeys : List Key :=
  [awsReferer, awsSourceIP, awsUserAgent, awsSecureTransport, awsCurrentTime, awsEpochTime,
   awsPrincipalType, awsUserID, awsUsername] ++ jwtKeys

end Key

/-! ## Condition functions -/

abbrev Values := OrdMap Bytes (List Bytes)

/-- One round of the loop over the common keys that replaces policy variables in a text. -/
def substKey (values : Values) (v : Bytes) (key : Key) : Option Bytes :=
  match values.get? key.name with
  | none => some v
  | some [] => none
  | some (x :: _) => some (if x ≠ [] then replaceAll v key.varName x else v)

/-- `substFuncFromValues`. -/
def substFuncFromValues (values : Values) (v : Bytes) : Option Bytes :=
  Key.commonKeys.foldlM (substKey values) v

def validHeaderFieldByte (c : UInt8) : Bool :=
  (48 ≤ c && c ≤ 57) || (65 ≤ c && c ≤ 90) || (97 ≤ c && c ≤ 122) ||
    (lit "!#$%&'*+-.^_|~").contains c || c = 96

def canonicalFrom : Bool → Bytes → Bytes
  | _, [] => []
  | upper, c :: s =>
    (if upper && 97 ≤ c && c ≤ 122 then c - 32
     else if !upper && 65 ≤ c && c ≤ 90 then c + 32
     else c) :: canonicalFrom (c = 45) s

/-- `http.CanonicalHeaderKey`. -/
def canonicalHeaderKey (s : Bytes) : Bytes :=
  if s.all validHeaderFieldByte then canonicalFrom true s else s

/-- The values a condition function sees for its key. -/
def requestValue (values : Values) (k : Key) : List Bytes :=
  match values.get? (canonicalHeaderKey k.name) with
  | some vs => vs
  | none => (values.get? k.name).getD []

/-- Condition functions as `conditionFuncMap` builds them: `IpAddress` and `NotIpAddress` are only
for `aws:SourceIp`, `Bool` only for `aws:SecureTransport`. -/
inductive Function where
  | stringEquals (k : Key) (values : List Bytes)
  | stringNotEquals (k : Key) (values : List Bytes)
  | stringEqualsIgnoreCase (k : Key) (values : List Bytes)
  | stringNotEqualsIgnoreCase (k : Key) (values : List Bytes)
  | binaryEquals (k : Key) (values : List Bytes)
  | stringLike (k : Key) (values : List Bytes)
  | stringNotLike (k : Key) (values : List Bytes)
  | ipAddress (values : List IPNet)
  | notIPAddress (values : List IPNet)
  | null (k : Key) (value : Bool)
  | boolean (value : Bytes)

/-- `strings.EqualFold`, over the folding of single runes. -/
def equalFold (fold : Nat → Nat) (s t : Bytes) : Bool := (runes s).map fold = (runes t).map fold

/-- The string functions: some value of the condition, its variables replaced, is in `m` to some
value of the request. -/
def anyMatch (m : Bytes → Bytes → Bool) (k : Key) (fvalues : List Bytes) (values : Values) :
    Option Bool :=
  (fvalues.mapM (substFuncFromValues values)).map fun fvalues =>
    (requestValue values k).any fun v => fvalues.any fun p => m p v

def ipMatch (nets : List IPNet) (values : Values) : Option Bool :=
  ((requestValue values .awsSourceIP).mapM parseIP).map fun ips =>
    ips.any fun ip => nets.any fun n => n.contains ip

def Function.evaluate (fold : Nat → Nat) (values : Values) : Function → Option Bool
  | stringEquals k vs => anyMatch (· == ·) k vs values
  | stringNotEquals k vs => (anyMatch (· == ·) k vs values).map (! ·)
  | stringEqualsIgnoreCase k vs => anyMatch (equalFold fold) k vs values
  | stringNotEqualsIgnoreCase k vs => (anyMatch (equalFold fold) k vs values).map (! ·)
  | binaryEquals k vs => anyMatch (· == ·) k vs values
  | stringLike k vs => anyMatch wildcardMatch k vs values
  | stringNotLike k vs => (anyMatch wildcardMatch k vs values).map (! ·)
  | ipAddress nets => ipMatch nets values
  | notIPAddress nets => (ipMatch nets values).map (! ·)
  | null k value =>
    some (if value then (requestValue values k).isEmpty else !(requestValue values k).isEmpty)
  | boolean value => (requestValue values .awsSecureTransport).head?.map (value == ·)

end S3Kinetic
