import NovaPay.Account.Schema

/-!
# Identities

How an identity is normalised, spelled and encrypted, and the user it is stored for. Every identity is
encrypted under a new key, which the key ring of the service encrypts.
-/

namespace NovaPay.Account

open JsonText Relational

/-- What the service uses of `node:crypto`. A sealed text comes with its tag. -/
structure Crypto where
  sha256 : List Char → Digest
  hmacSha256 : (key message : Bytes) → Bytes
  encryptAesGcm : (key iv plaintext aad : Bytes) → Bytes × Bytes
  decryptAesGcm : (key iv ciphertext authTag aad : Bytes) → Option Bytes

/-- What is documented of AES-256-GCM and of HMAC with SHA-256. -/
structure Crypto.Lawful (crypto : Crypto) : Prop where
  decrypt_encrypt : ∀ key iv plaintext aad, crypto.decryptAesGcm key iv
    (crypto.encryptAesGcm key iv plaintext aad).1 (crypto.encryptAesGcm key iv plaintext aad).2 aad =
      some plaintext
  length_ciphertext : ∀ key iv plaintext aad,
    (crypto.encryptAesGcm key iv plaintext aad).1.length = plaintext.length
  length_authTag : ∀ key iv plaintext aad, (crypto.encryptAesGcm key iv plaintext aad).2.length = 16
  length_hmac : ∀ key message, (crypto.hmacSha256 key message).length = 32

/-- What `loadKeyConfiguration` returns: the active key is in the ring, and the names of the versions match
`^[A-Za-z0-9._-]{1,40}$`. -/
structure KeyConfiguration where
  activeVersion : String
  keys : String → Option Bytes
  lookupKey : Bytes
  active : (keys activeVersion).isSome = true
  fits : Varchar.fitsColumn 40 activeVersion = true

structure Config where
  crypto : Crypto
  keyConfiguration : KeyConfiguration
  /-- `value.normalize('NFKC')` -/
  nfkc : String → String
  toLowerCase : String → String

/-! ### Payloads -/

structure IdentityPayload where
  legalName : Option String
  email : Option String
  phone : Option String
  postalAddress : Option String
  governmentId : Option String
deriving DecidableEq, Repr

/-- What `trim` removes: the white space and the line terminators of the language. -/
def isWhiteSpace (c : Char) : Bool :=
  [0x9, 0xA, 0xB, 0xC, 0xD, 0x20, 0xA0, 0x1680, 0x2028, 0x2029, 0x202F, 0x205F, 0x3000, 0xFEFF].contains
    c.toNat || (decide (0x2000 ≤ c.toNat) && decide (c.toNat ≤ 0x200A))

def trim (s : String) : String :=
  String.ofList ((s.toList.dropWhile isWhiteSpace).reverse.dropWhile isWhiteSpace).reverse

section Normalize

variable (config : Config)

def normalizeOptional (value : Option String) : Option String :=
  (value.map fun v => trim (config.nfkc v)).filter fun v => decide (v ≠ "")

def normalizeEmail (email : String) : String := config.toLowerCase (trim (config.nfkc email))

/-- The empty text is no email; one that only normalises to it is. -/
def normalizeIdentity (input : IdentityPayload) : IdentityPayload where
  legalName := normalizeOptional config input.legalName
  email := (input.email.filter fun v => decide (v ≠ "")).map (normalizeEmail config)
  phone := normalizeOptional config input.phone
  postalAddress := normalizeOptional config input.postalAddress
  governmentId := normalizeOptional config input.governmentId

end Normalize

def IdentityPayload.toJson (identity : IdentityPayload) : Value Double :=
  .object [
    ("legalName", identity.legalName.elim .null .string),
    ("email", identity.email.elim .null .string),
    ("phone", identity.phone.elim .null .string),
    ("postalAddress", identity.postalAddress.elim .null .string),
    ("governmentId", identity.governmentId.elim .null .string)]

def canonicalIdentity (identity : IdentityPayload) : String :=
  String.ofList (stringify Double.jsonFormat identity.toJson)

theorem canonicalIdentity_injective : Function.Injective canonicalIdentity := by
  intro a b h
  have hjson := stringify_injective _ (String.ofList_injective h)
  simp only [IdentityPayload.toJson, Value.object.injEq, List.cons.injEq, Prod.mk.injEq, true_and,
    and_true] at hjson
  have hmember : ∀ {s t : Option String},
      (s.elim .null .string : Value Double) = t.elim .null .string → s = t := by
    intro s t hst
    cases s <;> cases t <;> simp_all
  obtain ⟨hname, hemail, hphone, haddress, hid⟩ := hjson
  obtain ⟨aname, aemail, aphone, aaddress, aid⟩ := a
  obtain ⟨bname, bemail, bphone, baddress, bid⟩ := b
  simp only [IdentityPayload.mk.injEq]
  exact ⟨hmember hname, hmember hemail, hmember hphone, hmember haddress, hmember hid⟩

/-! ### Encryption -/

/-- `Buffer.from` of a text. -/
def bytes (s : String) : Bytes := s.toByteArray.data.toList

def identityAad (userId : Uuid) : Bytes := bytes ("novapay:user-identity:v1:" ++ uuidText userId)

def dekAad (userId : Uuid) (keyVersion : String) : Bytes :=
  bytes ("novapay:user-dek:v1:" ++ uuidText userId ++ ":" ++ keyVersion)

/-- The draws of `randomBytes` in one call of `encrypt`. -/
structure Nonces where
  dek : { b : Bytes // b.length = 32 }
  identityIv : { b : Bytes // b.length = 12 }
  dekIv : { b : Bytes // b.length = 12 }
deriving DecidableEq

def encrypt (config : Config) (nonces : Nonces) (userId : Uuid) (input : IdentityPayload) :
    EncryptedIdentity :=
  let payload := normalizeIdentity config input
  let ring := config.keyConfiguration
  let identity := config.crypto.encryptAesGcm nonces.dek nonces.identityIv
    (bytes (canonicalIdentity payload)) (identityAad userId)
  let wrapped := config.crypto.encryptAesGcm ((ring.keys ring.activeVersion).get ring.active)
    nonces.dekIv nonces.dek (dekAad userId ring.activeVersion)
  { identityCiphertext := identity.1
    identityIv := nonces.identityIv
    identityAuthTag := identity.2
    encryptedDek := wrapped.1
    dekIv := nonces.dekIv
    dekAuthTag := wrapped.2
    keyVersion := ring.activeVersion
    emailLookupHmac := (payload.email.filter fun v => decide (v ≠ "")).map fun email =>
      config.crypto.hmacSha256 ring.lookupKey (bytes email) }

variable {config : Config}

theorem encrypt_check (hlaw : config.crypto.Lawful) (nonces : Nonces) (userId : Uuid)
    (input : IdentityPayload) : (encrypt config nonces userId input).check = true := by
  have hhmac : (encrypt config nonces userId input).emailLookupHmac.all
      (fun b => decide (b.length = 32)) = true := by
    simp only [encrypt]
    cases (normalizeIdentity config input).email.filter fun v => decide (v ≠ "") with
    | none => rfl
    | some email => exact decide_eq_true (hlaw.length_hmac ..)
  have hiv : (encrypt config nonces userId input).identityIv.length = 12 := nonces.identityIv.property
  have hdekIv : (encrypt config nonces userId input).dekIv.length = 12 := nonces.dekIv.property
  have htag : (encrypt config nonces userId input).identityAuthTag.length = 16 := hlaw.length_authTag ..
  have hdekTag : (encrypt config nonces userId input).dekAuthTag.length = 16 := hlaw.length_authTag ..
  have hdek : (encrypt config nonces userId input).encryptedDek.length = 32 :=
    (hlaw.length_ciphertext ..).trans nonces.dek.property
  have hversion : Varchar.fitsColumn 40 (encrypt config nonces userId input).keyVersion = true :=
    config.keyConfiguration.fits
  rw [EncryptedIdentity.check, hiv, hdekIv, htag, hdekTag, hdek, hhmac, hversion]
  rfl

/-! ### Users -/

/-- The texts of `EXTERNAL_REFERENCE_PATTERN`, `^[A-Za-z0-9][A-Za-z0-9._:@-]{0,99}$`. -/
def isExternalRef (s : String) : Bool :=
  match s.toList with
  | [] => false
  | c :: cs => c.isAlphanum && decide (cs.length ≤ 99) &&
      cs.all fun c => c.isAlphanum || ['.', '_', ':', '@', '-'].contains c

/-- What `PrincipalService.fromRequest` returns. -/
abbrev ExternalRef := { s : String // isExternalRef s = true }

theorem isExternalRef_fits {s : String} (h : isExternalRef s = true) : Varchar.fitsColumn 100 s = true := by
  obtain ⟨cs, rfl⟩ : ∃ cs, s = String.ofList cs := ⟨s.toList, String.ofList_toList.symm⟩
  rw [isExternalRef, String.toList_ofList] at h
  cases cs with
  | nil => cases h
  | cons c cs =>
    simp only [Bool.and_eq_true, decide_eq_true_eq, List.all_eq_true] at h
    obtain ⟨⟨hc, hlength⟩, hcs⟩ := h
    have hnul : '\x00' ∉ c :: cs := by
      intro hmem
      obtain hmem | hmem := List.mem_cons.mp hmem
      · rw [← hmem] at hc
        exact absurd hc (by decide)
      · exact absurd (hcs _ hmem) (by decide)
    rw [Varchar.fitsColumn, String.toList_ofList]
    simp only [Bool.and_eq_true, decide_eq_true_eq, Bool.not_eq_true', String.length_ofList,
      List.length_cons]
    refine ⟨by omega, ?_⟩
    simpa using hnul

/-- The columns that an update of an identity writes. -/
def User.identified (user : User) (identity : EncryptedIdentity) (now : Date) : User :=
  { user with toEncryptedIdentity := identity, updatedAt := now }

/-- The identity of a user who has given none. -/
def IdentityPayload.none : IdentityPayload := ⟨.none, .none, .none, .none, .none⟩

end NovaPay.Account
