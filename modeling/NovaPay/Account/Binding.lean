import NovaPay.Account.Decryption
import NovaPay.Texts

/-!
# What binds the columns of an identity

The key of an identity is encrypted for its user and version, the identity for its user. With a cipher that
opens only what was sealed, and a new key for every identity, a record that is opened is one that `encrypt`
made for its user, with the key that `encrypt` or `rewrapDek` encrypted along with it.
-/

namespace NovaPay.Account

open Base64Url

variable {config : Config} {ring : KeyConfiguration} {record : StoredIdentity} {input : IdentityPayload}

/-! ### Associated data -/

theorem bytes_injective : Function.Injective bytes := by
  intro s t h
  have htext : ofUtf8 (utf8 s) = ofUtf8 (utf8 t) := congrArg ofUtf8 h
  rw [ofUtf8_utf8, ofUtf8_utf8] at htext
  exact String.toList_injective htext

theorem identityAad_injective : Function.Injective identityAad := by
  intro a b h
  have htext := congrArg String.toList (bytes_injective h)
  rw [String.toList_append, String.toList_append, List.append_cancel_left_eq] at htext
  exact uuidText_injective (String.toList_injective htext)

/-- The colon after the uuid is the first one. -/
theorem dekAad_inj {a b : Uuid} {v w : String} (h : dekAad a v = dekAad b w) : a = b ∧ v = w := by
  have htext := congrArg String.toList (bytes_injective h)
  simp only [String.toList_append, List.append_assoc, List.append_cancel_left_eq] at htext
  have hcolon : ∀ id : Uuid, ∀ c ∈ (uuidText id).toList, decide (c ≠ ':') = true := by
    intro id c hc
    rw [decide_eq_true_eq]
    rintro rfl
    exact colon_notMem_uuidText id hc
  have hsplit : ∀ (id : Uuid) (version : String),
      ((uuidText id).toList ++ (":".toList ++ version.toList)).takeWhile (· ≠ ':') = (uuidText id).toList := by
    intro id version
    rw [List.takeWhile_append_of_pos (hcolon id)]
    simp
  have huser : (uuidText a).toList = (uuidText b).toList := by rw [← hsplit a v, htext, hsplit]
  rw [huser, List.append_cancel_left_eq, List.append_cancel_left_eq] at htext
  exact ⟨uuidText_injective (String.toList_injective huser), String.toList_injective htext⟩

theorem identityAad_ne_dekAad (a b : Uuid) (v : String) : identityAad a ≠ dekAad b v := by
  intro h
  have htext := congrArg String.toList (bytes_injective h)
  simp only [String.toList_append] at htext
  have hfirst := congrArg (fun cs : List Char => cs[13]?) htext
  simp at hfirst

/-! ### The uses of the cipher -/

/-- A text that was sealed. -/
structure Sealing where
  key : Bytes
  iv : Bytes
  plaintext : Bytes
  aad : Bytes
deriving DecidableEq, Repr

/-- A use of the service that seals something. -/
inductive CryptoCall
  | encrypt (ring : KeyConfiguration) (nonces : Nonces) (userId : Uuid) (input : IdentityPayload)
  | rewrap (ring : KeyConfiguration) (record : StoredIdentity) (dekIv : { b : Bytes // b.length = 12 })

/-- The new key that a call draws. -/
def CryptoCall.dek? : CryptoCall → Option Bytes
  | .encrypt _ nonces _ _ => some nonces.dek
  | .rewrap .. => none

section Sealings

variable (config)

def sealingOfDek (dekIv dek : Bytes) (userId : Uuid) : Sealing :=
  let ring := config.keyConfiguration
  ⟨(ring.keys ring.activeVersion).get ring.active, dekIv, dek, dekAad userId ring.activeVersion⟩

def CryptoCall.sealings : CryptoCall → List Sealing
  | .encrypt ring nonces userId input =>
    [⟨nonces.dek, nonces.identityIv, bytes (canonicalIdentity (normalizeIdentity config input)),
      identityAad userId⟩, sealingOfDek (config.under ring) nonces.dekIv nonces.dek userId]
  | .rewrap ring record dekIv => ((unwrapDek (config.under ring) record).map fun dek =>
      sealingOfDek (config.under ring) dekIv dek record.id).toList

/-- What is opened was sealed, with the key, the nonce and the associated data it is opened with. -/
def Genuine (calls : List CryptoCall) (key iv ciphertext authTag aad : Bytes) : Prop :=
  ∀ plaintext, config.crypto.decryptAesGcm key iv ciphertext authTag aad = some plaintext →
    ⟨key, iv, plaintext, aad⟩ ∈ calls.flatMap (CryptoCall.sealings config) ∧
      config.crypto.encryptAesGcm key iv plaintext aad = (ciphertext, authTag)

/-- The wrapped key of a record is opened only if it was sealed. -/
def GenuineDek (calls : List CryptoCall) (ring : KeyConfiguration) (record : StoredIdentity) : Prop :=
  ∀ kek, ring.keys record.keyVersion = some kek →
    Genuine config calls kek record.dekIv record.encryptedDek record.dekAuthTag
      (dekAad record.id record.keyVersion)

/-- And so is its identity with the key. -/
def GenuineIdentity (calls : List CryptoCall) (ring : KeyConfiguration) (record : StoredIdentity) : Prop :=
  ∀ dek, unwrapDek (config.under ring) record = some dek →
    Genuine config calls dek record.identityIv record.identityCiphertext record.identityAuthTag
      (identityAad record.id)

/-- The calls of a service whose cipher is ideal, the last one first: a key is drawn once, and no call opens a
text that none before it sealed. -/
inductive Ideal : List CryptoCall → Prop
  | nil : Ideal []
  | encrypt {calls : List CryptoCall} (ring : KeyConfiguration) (nonces : Nonces) (userId : Uuid)
      (input : IdentityPayload) : Ideal calls → (∀ call ∈ calls, call.dek? ≠ some nonces.dek.val) →
      Ideal (.encrypt ring nonces userId input :: calls)
  | rewrap {calls : List CryptoCall} (ring : KeyConfiguration) (record : StoredIdentity)
      (dekIv : { b : Bytes // b.length = 12 }) : Ideal calls → GenuineDek config calls ring record →
      Ideal (.rewrap ring record dekIv :: calls)

/-- The columns that the key of a record is in. -/
def StoredIdentity.wrapped (record : StoredIdentity) : WrappedDek :=
  ⟨record.encryptedDek, record.dekIv, record.dekAuthTag, record.keyVersion⟩

/-- A record whose columns were produced together for its user: by one `encrypt`, or by `rewrapDek` from the
columns of the key in such a record. -/
inductive Produced (calls : List CryptoCall) : StoredIdentity → IdentityPayload → Prop
  | encrypt {ring : KeyConfiguration} {nonces : Nonces} {userId : Uuid} {input : IdentityPayload} :
      .encrypt ring nonces userId input ∈ calls →
      Produced calls (encryptedRecord (config.under ring) nonces userId input) input
  | rewrap {record given : StoredIdentity} {input : IdentityPayload} {ring : KeyConfiguration}
      {dekIv : { b : Bytes // b.length = 12 }} {wrapped : WrappedDek} : Produced calls record input →
      .rewrap ring given dekIv ∈ calls → given.id = record.id → given.wrapped = record.wrapped →
      rewrapDek (config.under ring) given dekIv = .ok wrapped →
      Produced calls (record.withDek wrapped) input
  | lookup {record : StoredIdentity} {input : IdentityPayload} (emailLookupHmac : Option Bytes) :
      Produced calls record input → Produced calls { record with emailLookupHmac := emailLookupHmac } input

end Sealings

variable {calls : List CryptoCall} {call : CryptoCall} {userId : Uuid} {key iv dek plaintext : Bytes} {keyVersion : String}

theorem Produced.cons (h : Produced config calls record input) : Produced config (call :: calls) record input := by
  induction h with
  | encrypt hmem => exact .encrypt (List.mem_cons_of_mem _ hmem)
  | rewrap _ hmem hid hwrapped hrewrap ih => exact ih.rewrap (List.mem_cons_of_mem _ hmem) hid hwrapped hrewrap
  | lookup emailLookupHmac _ ih => exact ih.lookup emailLookupHmac

/-- The columns of the identity itself. -/
def StoredIdentity.sealed (record : StoredIdentity) : Bytes × Bytes × Bytes :=
  (record.identityCiphertext, record.identityIv, record.identityAuthTag)

/-- The identity of a record is as one `encrypt` sealed it for the record's user. -/
theorem Produced.encrypted (h : Produced config calls record input) : ∃ ring nonces,
    .encrypt ring nonces record.id input ∈ calls ∧
      record.sealed = (encryptedRecord (config.under ring) nonces record.id input).sealed := by
  induction h with
  | encrypt hmem => exact ⟨_, _, hmem, rfl⟩
  | rewrap _ _ _ _ _ ih => exact ih
  | lookup _ _ ih => exact ih

theorem unwrapDek_eq_some_iff : unwrapDek (config.under ring) record = some dek ↔
    ∃ kek, ring.keys record.keyVersion = some kek ∧ config.crypto.decryptAesGcm kek record.dekIv
      record.encryptedDek record.dekAuthTag (dekAad record.id record.keyVersion) = some dek :=
  Option.bind_eq_some_iff

/-! ### What was sealed -/

/-- The key that one `encrypt` drew for the user, as it is wrapped in a record of the user. -/
def WrappedFor (config : Config) (calls : List CryptoCall) (userId : Uuid) (dek : Bytes) (wrapped : WrappedDek) : Prop :=
  ∃ ring nonces input record, .encrypt ring nonces userId input ∈ calls ∧ nonces.dek.val = dek ∧
    Produced config calls record input ∧ record.id = userId ∧ record.wrapped = wrapped ∧
    record.sealed = (encryptedRecord (config.under ring) nonces userId input).sealed

theorem WrappedFor.cons {wrapped : WrappedDek} (h : WrappedFor config calls userId dek wrapped) :
    WrappedFor config (call :: calls) userId dek wrapped := by
  obtain ⟨ring, nonces, input, record, hmem, hdek, hproduced, hrest⟩ := h
  exact ⟨ring, nonces, input, record, List.mem_cons_of_mem _ hmem, hdek, hproduced.cons, hrest⟩

theorem wrapDek_under (dekIv : Bytes) (h : (⟨key, iv, dek, dekAad userId keyVersion⟩ : Sealing) =
    sealingOfDek (config.under ring) dekIv plaintext record.id) :
    dek = plaintext ∧ userId = record.id ∧
      wrapDek (config.under ring) dekIv plaintext record.id =
        ⟨(config.crypto.encryptAesGcm key iv dek (dekAad userId keyVersion)).1, iv,
          (config.crypto.encryptAesGcm key iv dek (dekAad userId keyVersion)).2, keyVersion⟩ := by
  simp only [sealingOfDek, Sealing.mk.injEq] at h
  obtain ⟨rfl, rfl, rfl, haad⟩ := h
  obtain ⟨rfl, rfl⟩ := dekAad_inj haad
  exact ⟨rfl, rfl, rfl⟩

/-- A text that was sealed as the key of a user is the key of one of the user's identities. -/
theorem Ideal.wrapped (h : Ideal config calls)
    (hmem : ⟨key, iv, dek, dekAad userId keyVersion⟩ ∈ calls.flatMap (CryptoCall.sealings config)) :
    WrappedFor config calls userId dek
      ⟨(config.crypto.encryptAesGcm key iv dek (dekAad userId keyVersion)).1, iv,
        (config.crypto.encryptAesGcm key iv dek (dekAad userId keyVersion)).2, keyVersion⟩ := by
  induction h generalizing key iv dek userId keyVersion with
  | nil => cases hmem
  | @encrypt calls ring nonces id input _ _ ih =>
    rw [List.flatMap_cons, List.mem_append] at hmem
    obtain hmem | hmem := hmem
    · simp only [CryptoCall.sealings, List.mem_cons, List.not_mem_nil, or_false] at hmem
      obtain hmem | hmem := hmem
      · exact absurd (congrArg Sealing.aad hmem).symm (identityAad_ne_dekAad _ _ _)
      · change _ = Sealing.mk _ _ _ (dekAad (encryptedRecord (config.under ring) nonces id input).id _) at hmem
        obtain ⟨rfl, rfl, hwrap⟩ := wrapDek_under nonces.dekIv hmem
        exact ⟨ring, nonces, input, _, List.mem_cons_self, rfl, .encrypt List.mem_cons_self, rfl, hwrap, rfl⟩
    · exact (ih hmem).cons
  | @rewrap calls ring given dekIv _ hgenuine ih =>
    rw [List.flatMap_cons, List.mem_append] at hmem
    obtain hmem | hmem := hmem
    · obtain ⟨plaintext, hunwrap, hmem⟩ := Option.map_eq_some_iff.mp (Option.mem_toList.mp hmem)
      obtain ⟨rfl, rfl, hwrap⟩ := wrapDek_under dekIv.val hmem.symm
      -- what the call opened was wrapped by a call before it
      obtain ⟨kek, hkek, hopen⟩ := unwrapDek_eq_some_iff.mp hunwrap
      obtain ⟨hsealed, hseal⟩ := hgenuine kek hkek _ hopen
      obtain ⟨ring', nonces, input, record, hencrypt, hdek, hproduced, hid, hwrapped, hidentity⟩ := ih hsealed
      rw [hseal] at hwrapped
      have hrewrap : rewrapDek (config.under ring) given dekIv =
          .ok (wrapDek (config.under ring) dekIv dek given.id) := by
        rw [rewrapDek, hunwrap]
      rw [← hwrap]
      exact ⟨ring', nonces, input, _, List.mem_cons_of_mem _ hencrypt, hdek,
        hproduced.cons.rewrap List.mem_cons_self hid.symm hwrapped.symm hrewrap, hid, rfl, hidentity⟩
    · exact (ih hmem).cons

/-- A text that was sealed as the identity of a user is one of the user's identities. -/
theorem sealed_identity
    (hmem : ⟨key, iv, plaintext, identityAad userId⟩ ∈ calls.flatMap (CryptoCall.sealings config)) :
    ∃ ring nonces input, .encrypt ring nonces userId input ∈ calls ∧ nonces.dek.val = key ∧
      nonces.identityIv.val = iv ∧ plaintext = bytes (canonicalIdentity (normalizeIdentity config input)) := by
  obtain ⟨call, hcall, hmem⟩ := List.mem_flatMap.mp hmem
  cases call with
  | encrypt ring nonces id input =>
    simp only [CryptoCall.sealings, List.mem_cons, List.not_mem_nil, or_false] at hmem
    obtain hmem | hmem := hmem
    · simp only [Sealing.mk.injEq] at hmem
      obtain ⟨rfl, rfl, rfl, haad⟩ := hmem
      obtain rfl := identityAad_injective haad
      exact ⟨ring, nonces, input, hcall, rfl, rfl, rfl⟩
    · exact absurd (congrArg Sealing.aad hmem) (identityAad_ne_dekAad _ _ _)
  | rewrap ring given dekIv =>
    obtain ⟨dek, -, hmem⟩ := Option.map_eq_some_iff.mp (Option.mem_toList.mp hmem)
    exact absurd (congrArg Sealing.aad hmem).symm (identityAad_ne_dekAad _ _ _)

/-- A key is drawn by one call only. -/
theorem Ideal.drawn_once (h : Ideal config calls) {first second : CryptoCall} (hfirst : first ∈ calls)
    (hsecond : second ∈ calls) (hdek : first.dek? = some dek) (hdek' : second.dek? = some dek) :
    first = second := by
  induction h with
  | nil => cases hfirst
  | @encrypt calls ring nonces id input _ hfresh ih =>
    have hnew : ∀ call ∈ calls, call.dek? = some dek → nonces.dek.val ≠ dek := by
      rintro call hcall hcalldek rfl
      exact hfresh call hcall hcalldek
    obtain rfl | hfirst := List.mem_cons.mp hfirst
    · obtain rfl | hsecond := List.mem_cons.mp hsecond
      · rfl
      · exact absurd (Option.some.inj hdek) (hnew second hsecond hdek')
    · obtain rfl | hsecond := List.mem_cons.mp hsecond
      · exact absurd (Option.some.inj hdek') (hnew first hfirst hdek)
      · exact ih hfirst hsecond
  | rewrap ring given dekIv _ _ ih =>
    obtain rfl | hfirst := List.mem_cons.mp hfirst
    · cases hdek
    · obtain rfl | hsecond := List.mem_cons.mp hsecond
      · cases hdek'
      · exact ih hfirst hsecond

theorem eq_of_columns {origin : StoredIdentity} (hid : record.id = origin.id)
    (hsealed : record.sealed = origin.sealed) (hwrapped : record.wrapped = origin.wrapped) :
    record = { origin with emailLookupHmac := record.emailLookupHmac } := by
  obtain ⟨⟨⟩, _⟩ := record
  obtain ⟨⟨⟩, _⟩ := origin
  simp only [StoredIdentity.sealed, StoredIdentity.wrapped, Prod.mk.injEq, WrappedDek.mk.injEq] at *
  grind

/-- A record that is opened was produced for its user, and shows what its user gave. -/
theorem Ideal.decrypt_ok (h : Ideal config calls) (hdek : GenuineDek config calls ring record)
    (hidentity : GenuineIdentity config calls ring record) {payload : IdentityPayload}
    (hpayload : decryptIdentity (config.under ring) record = some payload) :
    ∃ input, Produced config calls record input ∧ payload = normalizeIdentity config input := by
  obtain ⟨dek, hunwrap, hpayload⟩ := Option.bind_eq_some_iff.mp hpayload
  obtain ⟨plaintext, hopen, hpayload⟩ := Option.bind_eq_some_iff.mp hpayload
  obtain ⟨kek, hkek, hopenDek⟩ := unwrapDek_eq_some_iff.mp hunwrap
  obtain ⟨hsealedDek, hsealDek⟩ := hdek kek hkek _ hopenDek
  obtain ⟨hsealed, hseal⟩ := hidentity dek hunwrap _ hopen
  obtain ⟨ring₁, nonces, input, origin, hencrypt, hdraw, hproduced, hid, hwrapped, horigin⟩ := h.wrapped hsealedDek
  obtain ⟨ring₂, nonces', input', hencrypt', hdraw', hiv, hplaintext⟩ := sealed_identity hsealed
  have hsame := h.drawn_once hencrypt hencrypt' (congrArg some hdraw) (congrArg some hdraw')
  simp only [CryptoCall.encrypt.injEq] at hsame
  obtain ⟨rfl, rfl, -, rfl⟩ := hsame
  have hidentityColumns : record.sealed = origin.sealed := by
    rw [horigin, StoredIdentity.sealed, ← hiv]
    rw [← hiv, ← hdraw, hplaintext] at hseal
    simp only [StoredIdentity.sealed, encryptedRecord, Prod.mk.injEq]
    exact ⟨(congrArg Prod.fst hseal).symm, rfl, (congrArg Prod.snd hseal).symm⟩
  have hwrappedColumns : record.wrapped = origin.wrapped := by
    rw [hwrapped, hsealDek]
    rfl
  refine ⟨input, ?_, ?_⟩
  · rw [eq_of_columns hid.symm hidentityColumns hwrappedColumns]
    exact hproduced.lookup _
  · rw [hplaintext, parseIdentity_canonicalIdentity] at hpayload
    exact (Option.some.inj hpayload).symm

/-- Identities round trip through any number of rewraps, and nothing but the columns of one user's identity
with its own key is ever opened. -/
theorem identity_columns_bound (hlaw : config.crypto.Lawful) :
    (∀ (ring last : KeyConfiguration) (nonces : Nonces) (userId : Uuid) (input : IdentityPayload)
      (rotations : List (KeyConfiguration × { b : Bytes // b.length = 12 })),
      (ring :: (rotations.map Prod.fst ++ [last])).IsChain Keeps →
      ∃ record, rewraps config (encryptedRecord (config.under ring) nonces userId input) rotations = .ok record ∧
        decrypt (config.under last) record = .ok (normalizeIdentity config input)) ∧
    ∀ calls, Ideal config calls → ∀ ring record, GenuineDek config calls ring record →
      GenuineIdentity config calls ring record → record.identityCiphertext ≠ [] →
      (¬∃ input, Produced config calls record input) →
      decrypt (config.under ring) record = .error decryptionFailure := by
  constructor
  · intro ring last nonces userId input rotations hrings
    exact decrypt_rewraps hlaw rotations (sealedUnder_encryptedRecord hlaw nonces) ⟨_, rfl⟩ hrings
  · intro calls hideal ring record hdek hidentity hne hnot
    rw [decrypt, if_neg hne]
    cases hpayload : decryptIdentity (config.under ring) record with
    | none => rfl
    | some payload =>
      obtain ⟨input, hproduced, -⟩ := hideal.decrypt_ok hdek hidentity hpayload
      exact absurd ⟨input, hproduced⟩ hnot

/-- A key that is not opened says nothing. -/
theorem genuineDek_of_unwrapDek_none (h : unwrapDek (config.under ring) record = none) :
    GenuineDek config calls ring record := by
  intro kek hkek dek hopen
  have hunwrap := unwrapDek_eq_some_iff.mpr ⟨kek, hkek, hopen⟩
  rw [h] at hunwrap
  cases hunwrap

theorem genuineIdentity_of_unwrapDek_none (h : unwrapDek (config.under ring) record = none) :
    GenuineIdentity config calls ring record := by
  intro dek hdek
  rw [h] at hdek
  cases hdek

/-- Sixteen bytes of a sum of everything that is sealed. -/
def checksum (key iv plaintext aad : Bytes) : Bytes :=
  let sum := (key ++ iv ++ aad ++ plaintext).foldl (fun n b => (n * 257 + b.toNat + 1) % 2 ^ 128) 0
  (List.range 16).map fun k => UInt8.ofNat (sum / 256 ^ k)

/-- A cipher that leaves the text as it is, and opens it only with its checksum. -/
def checkedCrypto : Crypto where
  sha256 := digestOf []
  hmacSha256 := macWith [(([], bytes "alice@example.com"),
    0x0cf19c8f102ecc62b033b451c1d7cbe462dbb7a67636d9f843145c96788ed961)]
  encryptAesGcm := fun key iv plaintext aad => (plaintext, checksum key iv plaintext aad)
  decryptAesGcm := fun key iv ciphertext authTag aad =>
    if authTag = checksum key iv ciphertext aad then some ciphertext else none

theorem checkedCrypto_lawful : checkedCrypto.Lawful :=
  ⟨fun _ _ _ _ => if_pos rfl, fun _ _ _ _ => rfl, fun _ _ _ _ => by simp [checkedCrypto, checksum],
    fun _ _ => length_digestBytes _⟩

/-- The ring with the first version, the one with both, and the one that the first was dropped from. -/
def firstRing : KeyConfiguration :=
  ⟨"v1", fun v => if v = "v1" then some (List.replicate 32 1) else none, [], rfl, by decide⟩

def bothRing : KeyConfiguration :=
  ⟨"v2", fun v => if v = "v1" then some (List.replicate 32 1) else if v = "v2" then some (List.replicate 32 2)
    else none, [], rfl, by decide⟩

def secondRing : KeyConfiguration :=
  ⟨"v2", fun v => if v = "v2" then some (List.replicate 32 2) else none, [], rfl, by decide⟩

def checkedConfig : Config := ⟨checkedCrypto, firstRing, id, String.toLower⟩

def sampleIv : { b : Bytes // b.length = 12 } := ⟨List.replicate 12 5, rfl⟩

def sampleNonces (n : UInt8) : Nonces :=
  ⟨⟨List.replicate 32 n, List.length_replicate⟩, ⟨List.replicate 12 n, List.length_replicate⟩,
    ⟨List.replicate 12 n, List.length_replicate⟩⟩

def alice : IdentityPayload := ⟨some " Alice Example ", some "ALICE@Example.com ", none, some "  ", none⟩

/-- Two users give their identities. -/
def twoIdentities : List CryptoCall :=
  [.encrypt firstRing (sampleNonces 8) 2 .none, .encrypt firstRing (sampleNonces 7) 1 alice]

/-- The columns of the first user in the row of the second. -/
def movedRecord : StoredIdentity :=
  { encryptedRecord checkedConfig (sampleNonces 7) 1 alice with id := 2 }

theorem identity_columns_bound_twoIdentities :
    (∃ record, rewraps checkedConfig (encryptedRecord (checkedConfig.under firstRing) (sampleNonces 7) 1 alice)
        [(bothRing, sampleIv)] = .ok record ∧
      decrypt (checkedConfig.under secondRing) record =
        .ok ⟨some "Alice Example", some "alice@example.com", none, none, none⟩) ∧
    decrypt (checkedConfig.under firstRing) movedRecord = .error decryptionFailure := by
  have hlaw : checkedConfig.crypto.Lawful := checkedCrypto_lawful
  obtain ⟨hround, hbound⟩ := identity_columns_bound hlaw
  have hnormalized : normalizeIdentity checkedConfig alice =
      ⟨some "Alice Example", some "alice@example.com", none, none, none⟩ := by decide +kernel
  have hclosed : unwrapDek (checkedConfig.under firstRing) movedRecord = none := by decide +kernel
  refine ⟨?_, hbound twoIdentities ?_ firstRing movedRecord ?_ ?_ ?_ ?_⟩
  · rw [← hnormalized]
    refine hround firstRing secondRing _ _ _ [(bothRing, sampleIv)] ?_
    exact List.isChain_cons_cons.mpr ⟨rfl, List.isChain_cons_cons.mpr ⟨rfl, List.isChain_singleton _⟩⟩
  · refine .encrypt _ _ _ _ (.encrypt _ _ _ _ .nil (fun call hcall => absurd hcall List.not_mem_nil)) ?_
    intro call hcall
    obtain rfl := List.mem_singleton.mp hcall
    decide
  · exact genuineDek_of_unwrapDek_none hclosed
  · exact genuineIdentity_of_unwrapDek_none hclosed
  · decide +kernel
  · rintro ⟨input, hproduced⟩
    obtain ⟨ring, nonces, hmem, hsealed⟩ := hproduced.encrypted
    have hiv : movedRecord.identityIv = nonces.identityIv.val := congrArg (fun columns => columns.2.1) hsealed
    obtain hsecond | hmem := List.mem_cons.mp hmem
    · rw [(CryptoCall.encrypt.inj hsecond).2.1] at hiv
      exact absurd hiv (by decide)
    · have hfirst := List.mem_singleton.mp hmem
      exact absurd (CryptoCall.encrypt.inj hfirst).2.2.1 (by decide)

end NovaPay.Account
