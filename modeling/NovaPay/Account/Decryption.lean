import NovaPay.Account.Identity
import NovaPay.Library.Base64Url
import NovaPay.Library.JsonReader

/-!
# Reading identities

`decrypt` and `rewrapDek`. An identity is read back from its columns, however often its key was encrypted
anew under the active version of a ring.
-/

namespace NovaPay.Account

open Base64Url JsonText

/-- `StoredEncryptedIdentity` -/
structure StoredIdentity extends EncryptedIdentity where
  id : Uuid
deriving DecidableEq, Repr

/-- What `rewrapDek` returns. -/
structure WrappedDek where
  encryptedDek : Bytes
  dekIv : Bytes
  dekAuthTag : Bytes
  keyVersion : String
deriving DecidableEq, Repr

def StoredIdentity.withDek (record : StoredIdentity) (wrapped : WrappedDek) : StoredIdentity :=
  { record with
    encryptedDek := wrapped.encryptedDek
    dekIv := wrapped.dekIv
    dekAuthTag := wrapped.dekAuthTag
    keyVersion := wrapped.keyVersion }

/-- The configuration as it is loaded from another environment. -/
def Config.under (config : Config) (ring : KeyConfiguration) : Config :=
  { config with keyConfiguration := ring }

def decryptionFailure : HttpError :=
  ⟨500, "IDENTITY_DECRYPTION_FAILED", "The encrypted identity could not be authenticated."⟩

/-! ### Payloads -/

/-- The names that `parseIdentity` allows. -/
def identityFields : List String := ["legalName", "email", "phone", "postalAddress", "governmentId"]

/-- A field that is there, and is null or a string. -/
def readField (members : List (String × Value Double)) (key : String) : Option (Option String) :=
  match (members.find? fun m => m.1 = key).map Prod.snd with
  | some .null => some none
  | some (.string s) => some (some s)
  | _ => none

def parseIdentity (plaintext : Bytes) : Option IdentityPayload :=
  match parse Double.ofJson? (ofUtf8 plaintext) with
  | some (.object members) => do
    guard (members.all fun m => identityFields.contains m.1)
    let legalName ← readField members "legalName"
    let email ← readField members "email"
    let phone ← readField members "phone"
    let postalAddress ← readField members "postalAddress"
    let governmentId ← readField members "governmentId"
    return ⟨legalName, email, phone, postalAddress, governmentId⟩
  | _ => none

theorem parse_toJson (identity : IdentityPayload) :
    parse Double.ofJson? (stringify Double.jsonFormat identity.toJson) = some identity.toJson := by
  have hfield : ∀ s : Option String, everyObject unique (s.elim .null .string : Value Double) = true ∧
      EveryNumber (Legible Double.ofJson? Double.jsonFormat) (s.elim .null .string : Value Double) := by
    intro s
    cases s with
    | none => exact ⟨rfl, trivial⟩
    | some s => exact ⟨rfl, trivial⟩
  refine parse_stringify _ ?_ ?_
  · rw [IdentityPayload.toJson, everyObject_object]
    refine ⟨by simp [unique], fun m hm => ?_⟩
    simp only [List.mem_cons, List.not_mem_nil, or_false] at hm
    obtain rfl | rfl | rfl | rfl | rfl := hm
    all_goals exact (hfield _).1
  · rw [IdentityPayload.toJson, everyNumber_object]
    intro m hm
    simp only [List.mem_cons, List.not_mem_nil, or_false] at hm
    obtain rfl | rfl | rfl | rfl | rfl := hm
    all_goals exact (hfield _).2

/-- A payload is read back from its text. -/
theorem parseIdentity_canonicalIdentity (identity : IdentityPayload) :
    parseIdentity (bytes (canonicalIdentity identity)) = some identity := by
  have hfield : ∀ s : Option String, (match (some (s.elim .null .string) : Option (Value Double)) with
      | some .null => some none
      | some (.string s) => some (some s)
      | _ => none) = some s := by
    intro s
    cases s with
    | none => rfl
    | some s => rfl
  have htext : ofUtf8 (bytes (canonicalIdentity identity)) =
      stringify Double.jsonFormat identity.toJson := by
    have h := ofUtf8_utf8 (canonicalIdentity identity)
    rw [canonicalIdentity, String.toList_ofList] at h
    exact h
  rw [parseIdentity, htext, parse_toJson]
  simp [IdentityPayload.toJson, readField, identityFields, hfield, guard]

theorem bytes_canonicalIdentity_ne_nil (identity : IdentityPayload) :
    bytes (canonicalIdentity identity) ≠ [] := by
  intro h
  have hparse := parseIdentity_canonicalIdentity identity
  rw [h] at hparse
  -- no bytes are the empty text, which is no JSON
  have hempty : ofUtf8 [] = [] := ofUtf8_utf8 ""
  rw [parseIdentity, hempty] at hparse
  cases hparse

/-! ### Records -/

section Records

variable (config : Config) (record : StoredIdentity)

/-- The key of an identity. -/
def unwrapDek : Option Bytes := do
  let kek ← config.keyConfiguration.keys record.keyVersion
  config.crypto.decryptAesGcm kek record.dekIv record.encryptedDek record.dekAuthTag
    (dekAad record.id record.keyVersion)

def decryptIdentity : Option IdentityPayload := do
  let dek ← unwrapDek config record
  let plaintext ← config.crypto.decryptAesGcm dek record.identityIv record.identityCiphertext
    record.identityAuthTag (identityAad record.id)
  parseIdentity plaintext

def decrypt : Except HttpError IdentityPayload :=
  if record.identityCiphertext = [] then .ok (normalizeIdentity config .none)
  else match decryptIdentity config record with
    | some payload => .ok payload
    | none => .error decryptionFailure

/-- A key under the active version, as `encrypt` and `rewrapDek` encrypt it. -/
def wrapDek (dekIv dek : Bytes) (userId : Uuid) : WrappedDek :=
  let ring := config.keyConfiguration
  let wrapped := config.crypto.encryptAesGcm ((ring.keys ring.activeVersion).get ring.active) dekIv dek
    (dekAad userId ring.activeVersion)
  ⟨wrapped.1, dekIv, wrapped.2, ring.activeVersion⟩

def rewrapDek (dekIv : { b : Bytes // b.length = 12 }) : Except HttpError WrappedDek :=
  match unwrapDek config record with
  | some dek => .ok (wrapDek config dekIv dek record.id)
  | none => .error decryptionFailure

end Records

/-- What `encrypt` stores for a user. -/
def encryptedRecord (config : Config) (nonces : Nonces) (userId : Uuid) (input : IdentityPayload) :
    StoredIdentity :=
  { encrypt config nonces userId input with id := userId }

/-- A record whose key is encrypted anew under one ring after another. -/
def rewraps (config : Config) (record : StoredIdentity) :
    List (KeyConfiguration × { b : Bytes // b.length = 12 }) → Except HttpError StoredIdentity
  | [] => .ok record
  | (ring, dekIv) :: rotations => do
    let wrapped ← rewrapDek (config.under ring) record dekIv
    rewraps config (record.withDek wrapped) rotations

/-! ### The round trip -/

/-- The ring still has the active key of the one before. -/
def Keeps (ring next : KeyConfiguration) : Prop :=
  next.keys ring.activeVersion = ring.keys ring.activeVersion

variable {config : Config} {ring next : KeyConfiguration} {record : StoredIdentity} {dek dekIv : Bytes}
  {userId : Uuid} {input : IdentityPayload}

/-- The record has the key under the active version of the ring. -/
def WrappedUnder (config : Config) (ring : KeyConfiguration) (record : StoredIdentity) (dek : Bytes) : Prop :=
  ∃ dekIv, record = record.withDek (wrapDek (config.under ring) dekIv dek record.id)

theorem wrappedUnder_withDek : WrappedUnder config ring
    (record.withDek (wrapDek (config.under ring) dekIv dek record.id)) dek := ⟨dekIv, rfl⟩

theorem WrappedUnder.unwrapDek (h : WrappedUnder config ring record dek) (hlaw : config.crypto.Lawful)
    (hkeeps : Keeps ring next) : unwrapDek (config.under next) record = some dek := by
  obtain ⟨dekIv, h⟩ := h
  have hkey : next.keys ring.activeVersion = some ((ring.keys ring.activeVersion).get ring.active) := by
    rw [hkeeps, Option.some_get]
  rw [h, Account.unwrapDek]
  change (next.keys ring.activeVersion).bind _ = _
  rw [hkey, Option.bind_some]
  exact hlaw.decrypt_encrypt ..

/-- The columns of the identity itself, under a key. -/
structure SealedUnder (config : Config) (record : StoredIdentity) (dek : Bytes) (input : IdentityPayload) :
    Prop where
  nonempty : record.identityCiphertext ≠ []
  opens : config.crypto.decryptAesGcm dek record.identityIv record.identityCiphertext record.identityAuthTag
    (identityAad record.id) = some (bytes (canonicalIdentity (normalizeIdentity config input)))

theorem sealedUnder_encryptedRecord (hlaw : config.crypto.Lawful) (nonces : Nonces) :
    SealedUnder config (encryptedRecord (config.under ring) nonces userId input) nonces.dek input := by
  refine ⟨fun hempty => ?_, hlaw.decrypt_encrypt ..⟩
  have hlength := hlaw.length_ciphertext nonces.dek nonces.identityIv
    (bytes (canonicalIdentity (normalizeIdentity config input))) (identityAad userId)
  have hnil : (config.crypto.encryptAesGcm nonces.dek nonces.identityIv
    (bytes (canonicalIdentity (normalizeIdentity config input))) (identityAad userId)).1 = [] := hempty
  rw [hnil] at hlength
  exact bytes_canonicalIdentity_ne_nil _ (List.length_eq_zero_iff.mp hlength.symm)

theorem decrypt_of_wrapped (hlaw : config.crypto.Lawful) (hsealed : SealedUnder config record dek input)
    (hwrapped : WrappedUnder config ring record dek) (hkeeps : Keeps ring next) :
    decrypt (config.under next) record = .ok (normalizeIdentity config input) := by
  have hopens : (config.under next).crypto.decryptAesGcm dek record.identityIv record.identityCiphertext
    record.identityAuthTag (identityAad record.id) = _ := hsealed.opens
  rw [decrypt, if_neg hsealed.nonempty, decryptIdentity, hwrapped.unwrapDek hlaw hkeeps]
  simp only [Option.bind_eq_bind, Option.bind_some, hopens, parseIdentity_canonicalIdentity]

/-- The rings of a record's history, each of which has the active key of the one before. -/
theorem decrypt_rewraps (hlaw : config.crypto.Lawful) {last : KeyConfiguration}
    (rotations : List (KeyConfiguration × { b : Bytes // b.length = 12 }))
    (hsealed : SealedUnder config record dek input) (hwrapped : WrappedUnder config ring record dek)
    (hrings : (ring :: (rotations.map Prod.fst ++ [last])).IsChain Keeps) :
    ∃ record', rewraps config record rotations = .ok record' ∧
      decrypt (config.under last) record' = .ok (normalizeIdentity config input) := by
  induction rotations generalizing ring record with
  | nil =>
    have hlast : Keeps ring last := (List.isChain_cons_cons.mp hrings).1
    exact ⟨record, rfl, decrypt_of_wrapped hlaw hsealed hwrapped hlast⟩
  | cons rotation rotations ih =>
    obtain ⟨next, dekIv⟩ := rotation
    obtain ⟨hkeeps, hrings⟩ := List.isChain_cons_cons.mp hrings
    have hrewrap : rewrapDek (config.under next) record dekIv =
        .ok (wrapDek (config.under next) dekIv dek record.id) := by
      rw [rewrapDek, hwrapped.unwrapDek hlaw hkeeps]
    have hsealed' : SealedUnder config (record.withDek (wrapDek (config.under next) dekIv dek record.id))
      dek input := ⟨hsealed.nonempty, hsealed.opens⟩
    obtain ⟨record', hrecord', hdecrypt⟩ := ih hsealed' wrappedUnder_withDek hrings
    refine ⟨record', ?_, hdecrypt⟩
    rw [rewraps, hrewrap]
    exact hrecord'

end NovaPay.Account
