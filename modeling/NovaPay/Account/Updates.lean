import NovaPay.Account.Decryption
import NovaPay.Account.Retries
import Mathlib.Data.List.DropRight

/-!
# Updates of identities

`ensureUser`, `update` and `lookup` of the identity service. Every row holds an identity under its own key
with the digest of its email, whatever calls and updates came before; an update that does not find the
identity it is given stores the normalised form of its normalised form.
-/

namespace NovaPay.Account

open Relational TransitionSystem

/-! ### The service -/

/-- `UpdateUserIdentityDto` -/
structure UpdateUserIdentity where
  legalName : String
  email : String
  phone : Option String
  postalAddress : Option String
  governmentId : Option String
deriving DecidableEq, Repr

/-- What the DTO uses of `class-validator`. -/
structure Validator where
  isEmail : String → Bool
  isLength : (value : String) → (min max : ℕ) → Bool

/-- The checks of the DTO. -/
def UpdateUserIdentity.accepted (validator : Validator) (input : UpdateUserIdentity) : Bool :=
  validator.isLength input.legalName 1 160 &&
    validator.isEmail input.email && validator.isLength input.email 0 254 &&
    input.phone.all (fun phone => validator.isLength phone 0 40) &&
    input.postalAddress.all (fun address => validator.isLength address 0 500) &&
    input.governmentId.all (fun id => validator.isLength id 0 100)

def UpdateUserIdentity.payload (input : UpdateUserIdentity) : IdentityPayload :=
  ⟨some input.legalName, some input.email, input.phone, input.postalAddress, input.governmentId⟩

/-- The user as `decrypt` is given it. -/
def User.record (user : User) : StoredIdentity := { user with id := user.id }

/-- `UserIdentityResponseDto` -/
structure UserIdentityResponse where
  userId : Uuid
  externalRef : String
  identity : IdentityPayload
deriving DecidableEq, Repr

/-- What `lookup` returns. -/
structure UserLookup where
  userId : Uuid
  externalRef : String
  status : UserStatus
deriving DecidableEq, Repr

def emailAlreadyExists : HttpError :=
  ⟨409, "EMAIL_ALREADY_EXISTS", "The normalized email is already assigned to another user."⟩

def identityNotFound : HttpError := ⟨404, "USER_IDENTITY_NOT_FOUND", "User identity not found."⟩

section Service

variable (config : Config)

/-- The row of a user, which is created where there is none. -/
def ensureUser (choice : Choice) (db : Database) (externalRef : ExternalRef) :
    Database × Except HttpError User :=
  match db.findUser externalRef with
  | some existing =>
    if existing.identityCiphertext.length = 0 then
      match db.users.updateMany (fun row => decide (row.id = existing.id))
        (fun row => row.identified (encrypt config choice.nonces existing.id .none) choice.now) with
      | .ok (users, _) =>
        match findBy User.id existing.id users.rows with
        | some user => ({ db with users }, .ok user)
        | none => (db, .error internalServerError)
      | .error _ => (db, .error internalServerError)
    else (db, .ok existing)
  | none =>
    match db.users.insertMany [newUser config choice externalRef] with
    | .ok users => ({ db with users }, .ok (newUser config choice externalRef))
    | .error .uniqueViolation =>
      match db.findUser externalRef with
      | some user => (db, .ok user)
      | none => (db, .error internalServerError)
    | .error .rejected => (db, .error internalServerError)

/-- The statement of `update` that stores an identity, where it is not the one that is stored. -/
def storeIdentity (choice : Choice) (db : Database) (user : User) (normalized : IdentityPayload) :
    Database × Except HttpError User :=
  match decrypt config user.record with
  | .error error => (db, .error error)
  | .ok existing =>
    if canonicalIdentity existing ≠ canonicalIdentity normalized then
      match db.users.updateMany (fun row => decide (row.id = user.id))
        (fun row => row.identified (encrypt config choice.nonces user.id normalized) choice.now) with
      | .ok (users, _) =>
        match findBy User.id user.id users.rows with
        | some updated => ({ db with users }, .ok updated)
        | none => (db, .error internalServerError)
      | .error .uniqueViolation => (db, .error emailAlreadyExists)
      | .error .rejected => (db, .error internalServerError)
    else (db, .ok user)

def toIdentityResponse (user : User) (identity : IdentityPayload) : UserIdentityResponse :=
  ⟨user.id, user.externalRef, identity⟩

/-- An update, with the draws of the two statements that may write. -/
structure IdentityUpdate where
  input : UpdateUserIdentity
  ensured : Choice
  stored : Choice

/-- The identity that an update asks for. -/
def IdentityUpdate.normalized (u : IdentityUpdate) : IdentityPayload :=
  normalizeIdentity config u.input.payload

def update (w : World) (externalRef : ExternalRef) (u : IdentityUpdate) :
    World × Except HttpError UserIdentityResponse :=
  match ensureUser config u.ensured w.db externalRef with
  | (db, .error error) => ({ w with db }, .error error)
  | (db, .ok user) =>
    match storeIdentity config u.stored db user (u.normalized config) with
    | (db, .error error) => ({ w with db }, .error error)
    | (db, .ok updated) =>
      match append u.stored.delivery w.events (identityUpdated config.crypto user.id externalRef
        (canonicalIdentity (u.normalized config)) updated.updatedAt) with
      | (events, .error error) => ({ w with db, events }, .error error)
      | (events, .ok ()) =>
        ({ w with db, events }, (decrypt config updated.record).map (toIdentityResponse updated))

def emailDigest (email : String) : Bytes :=
  config.crypto.hmacSha256 config.keyConfiguration.lookupKey (bytes (normalizeEmail config email))

def lookup (db : Database) (email : String) : Except HttpError UserLookup :=
  match findBy (fun u : User => u.emailLookupHmac) (some (emailDigest config email)) db.users.rows with
  | some user => .ok ⟨user.id, user.externalRef, user.status⟩
  | none => .error identityNotFound

end Service

/-! ### What the rows hold -/

variable {config : Config} {choice : Choice} {db db' : Database} {externalRef : ExternalRef}
  {user updated : User} {identity normalized : IdentityPayload} {w w' : World} {u : IdentityUpdate}

/-- The digest that is stored with an identity. -/
def lookupDigest (config : Config) (identity : IdentityPayload) : Option Bytes :=
  (identity.email.filter fun v => decide (v ≠ "")).map fun email =>
    config.crypto.hmacSha256 config.keyConfiguration.lookupKey (bytes email)

/-- The columns of a row hold an identity. -/
structure Holds (config : Config) (user : User) (identity : IdentityPayload) : Prop where
  written : user.identityCiphertext.length ≠ 0
  decrypts : decrypt config user.record = .ok identity
  digest : user.emailLookupHmac = lookupDigest config identity

def Identified (config : Config) (db : Database) : Prop :=
  ∀ user ∈ db.users.rows, ∃ identity, Holds config user identity

/-- The identity of a user as `get` would show it. -/
def storedIdentity (config : Config) (db : Database) (externalRef : ExternalRef) : Option IdentityPayload :=
  (db.findUser externalRef).bind fun user => (decrypt config user.record).toOption

theorem holds_of_encrypt (hlaw : config.crypto.Lawful) {nonces : Nonces} {input : IdentityPayload}
    (h : user.toEncryptedIdentity = encrypt config nonces user.id input) :
    Holds config user (normalizeIdentity config input) := by
  have hrecord : user.record = encryptedRecord config nonces user.id input := by
    rw [User.record, encryptedRecord, h]
  refine ⟨?_, ?_, ?_⟩
  · rw [h]
    exact encrypt_ciphertext hlaw _ _ _
  · rw [hrecord]
    have hsealed : SealedUnder config (encryptedRecord (config.under config.keyConfiguration) nonces user.id
      input) nonces.dek input := sealedUnder_encryptedRecord hlaw nonces
    exact decrypt_of_wrapped hlaw hsealed ⟨nonces.dekIv, rfl⟩ (rfl : Keeps config.keyConfiguration
      config.keyConfiguration)
  · rw [h]
    rfl

theorem Identified.find (h : Identified config db) (hfind : db.findUser externalRef = some user) :
    ∃ identity, Holds config user identity ∧ storedIdentity config db externalRef = some identity := by
  obtain ⟨identity, hholds⟩ := h user (findBy_some hfind).1
  refine ⟨identity, hholds, ?_⟩
  rw [storedIdentity, hfind, Option.bind_some, hholds.decrypts]
  rfl

theorem storedIdentity_of_find (hfind : db.findUser externalRef = some user)
    (hholds : Holds config user identity) : storedIdentity config db externalRef = some identity := by
  rw [storedIdentity, hfind, Option.bind_some, hholds.decrypts]
  rfl

theorem find_of_mem (hmem : user ∈ db.users.rows) (href : user.externalRef = externalRef) :
    db.findUser externalRef = some user := by
  rw [← href]
  exact findBy_of_mem (users_indexed db).2 hmem

theorem hmac_indexed (db : Database) :
    uniqueWhere (fun u : User => u.emailLookupHmac) db.users.rows = true := by
  have h := db.users.indexed
  simp only [usersSchema, usersIndexed, Bool.and_eq_true] at h
  exact h.2

/-! ### What a call writes -/

theorem ensureUser_of_find (hfind : db.findUser externalRef = some user)
    (hwritten : user.identityCiphertext.length ≠ 0) :
    ensureUser config choice db externalRef = (db, .ok user) := by
  rw [ensureUser, hfind]
  exact if_neg hwritten

/-- A new user has no identity, and takes nothing from another one. -/
theorem ensureUser_of_none (choice : Choice) (hlaw : config.crypto.Lawful) (hfind : db.findUser externalRef = none) :
    (∃ users : Table usersSchema, users.rows = db.users.rows ++ [newUser config choice externalRef] ∧
        ensureUser config choice db externalRef =
          ({ db with users }, .ok (newUser config choice externalRef))) ∨
      ensureUser config choice db externalRef = (db, .error internalServerError) := by
  have hchecks : ∀ r ∈ [newUser config choice externalRef], usersSchema.check r = true := by
    intro r hr
    rw [List.mem_singleton.mp hr]
    exact newUser_check hlaw externalRef
  rw [ensureUser, hfind]
  rcases Table.insertMany_of_check db.users _ hchecks with ⟨users, hinsert, -⟩ | hinsert
  · simp only [hinsert]
    exact .inl ⟨users, Table.insertMany_ok hinsert, rfl⟩
  · simp only [hinsert]
    exact .inr trivial

theorem newUser_holds (hlaw : config.crypto.Lawful) :
    Holds config (newUser config choice externalRef) (normalizeIdentity config .none) :=
  holds_of_encrypt hlaw rfl

/-- What holds of the rows and of a new one holds of the rows with it. -/
theorem forall_mem_new {P : User → Prop} {users : Table usersSchema} (h : ∀ row ∈ db.users.rows, P row)
    (hrows : users.rows = db.users.rows ++ [user]) (hnew : P user) : ∀ row ∈ users.rows, P row := by
  intro row hrow
  rw [hrows] at hrow
  obtain hrow | hrow := List.mem_append.mp hrow
  · exact h row hrow
  · rw [List.mem_singleton.mp hrow]
    exact hnew

/-- The user that `ensureUser` returns, with the identity that is stored for them. -/
theorem ensureUser_ok (hlaw : config.crypto.Lawful) (h : Identified config db)
    (hensure : ensureUser config choice db externalRef = (db', .ok user)) :
    Identified config db' ∧ db'.findUser externalRef = some user ∧
      ∃ identity, Holds config user identity ∧ ((db' = db ∧ storedIdentity config db externalRef = some identity) ∨
        (db.findUser externalRef = none ∧ storedIdentity config db externalRef = none ∧
          user = newUser config choice externalRef ∧ identity = normalizeIdentity config .none)) := by
  cases hfind : db.findUser externalRef with
  | some existing =>
    obtain ⟨identity, hholds, hstored⟩ := h.find hfind
    rw [ensureUser_of_find hfind hholds.written] at hensure
    cases hensure
    exact ⟨h, hfind, identity, hholds, .inl ⟨rfl, hstored⟩⟩
  | none =>
    rcases ensureUser_of_none choice hlaw hfind with ⟨users, hrows, heq⟩ | heq
    · rw [heq] at hensure
      cases hensure
      have hmem : newUser config choice externalRef ∈ users.rows := by
        rw [hrows]
        exact List.mem_append_right _ (List.mem_singleton_self _)
      have hidentified := forall_mem_new h hrows ⟨_, newUser_holds hlaw⟩
      refine ⟨hidentified, find_of_mem hmem rfl, _, newUser_holds hlaw, .inr ?_⟩
      exact ⟨rfl, by rw [storedIdentity, hfind]; rfl, rfl, rfl⟩
    · rw [heq] at hensure
      cases hensure

theorem ensureUser_rows {P : User → Prop} (hlaw : config.crypto.Lawful) (h : Identified config db)
    (hP : ∀ row ∈ db.users.rows, P row) (hnew : P (newUser config choice externalRef)) :
    ∀ row ∈ (ensureUser config choice db externalRef).1.users.rows, P row := by
  cases hfind : db.findUser externalRef with
  | some existing =>
    obtain ⟨identity, hholds, -⟩ := h.find hfind
    rw [ensureUser_of_find hfind hholds.written]
    exact hP
  | none =>
    rcases ensureUser_of_none choice hlaw hfind with ⟨users, hrows, heq⟩ | heq
    · rw [heq]
      exact forall_mem_new hP hrows hnew
    · rw [heq]
      exact hP

/-- The row of a user with another identity. -/
def User.given (config : Config) (choice : Choice) (user : User) (normalized : IdentityPayload) : User :=
  user.identified (encrypt config choice.nonces user.id normalized) choice.now

theorem User.given_holds (hlaw : config.crypto.Lawful) :
    Holds config (user.given config choice normalized) (normalizeIdentity config normalized) :=
  holds_of_encrypt hlaw rfl

/-- Where the digest of an identity is no one else's, or is the user's own. -/
def Unclaimed (config : Config) (db : Database) (user : User) (identity : IdentityPayload) : Prop :=
  ∀ row ∈ db.users.rows, row.id ≠ user.id → ∀ digest, lookupDigest config identity = some digest →
    row.emailLookupHmac ≠ some digest

/-- The rows after the identity of one user is written. -/
def Rewritten (config : Config) (choice : Choice) (db db' : Database) (user : User)
    (normalized : IdentityPayload) : Prop :=
  ∃ users : Table usersSchema, db' = { db with users } ∧
    users.rows = updateWhere (fun row => decide (row.id = user.id))
      (fun row => row.identified (encrypt config choice.nonces user.id normalized) choice.now) db.users.rows

theorem storeIdentity_same (hholds : Holds config user identity) :
    storeIdentity config choice db user identity = (db, .ok user) := by
  rw [storeIdentity, hholds.decrypts]
  exact if_neg (not_not.mpr rfl)

theorem Rewritten.find (h : Rewritten config choice db db' user normalized) (hmem : user ∈ db.users.rows) :
    findBy User.id user.id db'.users.rows = some (user.given config choice normalized) := by
  obtain ⟨users, rfl, hrows⟩ := h
  have hfind : findBy User.id user.id db.users.rows = some user := findBy_of_mem (users_indexed db).1 hmem
  change findBy User.id user.id users.rows = _
  rw [hrows, findBy_updateWhere (by intro row; rfl), hfind, Option.map_some]
  exact congrArg some (if_pos (decide_eq_true rfl))

theorem Rewritten.mem (h : Rewritten config choice db db' user normalized) (hmem : user ∈ db.users.rows) :
    user.given config choice normalized ∈ db'.users.rows := (findBy_some (h.find hmem)).1

theorem Rewritten.rows {P : User → Prop} (h : Rewritten config choice db db' user normalized)
    (hP : ∀ row ∈ db.users.rows, P row)
    (hgiven : ∀ row, P row → P (row.given config choice normalized)) : ∀ row ∈ db'.users.rows, P row := by
  obtain ⟨users, rfl, hrows⟩ := h
  intro row hrow
  change row ∈ users.rows at hrow
  rw [hrows] at hrow
  rcases mem_updateWhere.mp hrow with ⟨hold, -⟩ | ⟨r, hr, hid, rfl⟩
  · exact hP row hold
  · have hsame := hgiven r (hP r hr)
    rwa [User.given, of_decide_eq_true hid] at hsame

theorem Rewritten.identified (h : Rewritten config choice db db' user normalized)
    (hlaw : config.crypto.Lawful) (hi : Identified config db) : Identified config db' :=
  h.rows hi fun _ _ => ⟨_, User.given_holds hlaw⟩

/-- What the update does whose condition is met. -/
theorem storeIdentity_differs (choice : Choice) (hmem : user ∈ db.users.rows) (hholds : Holds config user identity)
    (hne : identity ≠ normalized) :
    (∃ db', Rewritten config choice db db' user normalized ∧ storeIdentity config choice db user normalized =
        (db', .ok (user.given config choice normalized))) ∨
      storeIdentity config choice db user normalized = (db, .error emailAlreadyExists) ∨
      storeIdentity config choice db user normalized = (db, .error internalServerError) := by
  have hcanonical : canonicalIdentity identity ≠ canonicalIdentity normalized :=
    fun heq => hne (canonicalIdentity_injective heq)
  rw [storeIdentity, hholds.decrypts]
  simp only [if_pos hcanonical]
  split
  · next users n hupdate =>
    have hwritten : Rewritten config choice db { db with users } user normalized :=
      ⟨users, rfl, (Table.updateMany_ok hupdate).1⟩
    have hfind : findBy User.id user.id users.rows = _ := hwritten.find hmem
    rw [hfind]
    exact .inl ⟨_, hwritten, rfl⟩
  · exact .inr (.inl rfl)
  · exact .inr (.inr rfl)

/-- An identity is stored when no one else has its digest. -/
theorem storeIdentity_unclaimed (choice : Choice) (hlaw : config.crypto.Lawful) (hmem : user ∈ db.users.rows)
    (hholds : Holds config user identity) (hne : identity ≠ normalized)
    (hfree : Unclaimed config db user (normalizeIdentity config normalized)) :
    ∃ db', Rewritten config choice db db' user normalized ∧ storeIdentity config choice db user normalized =
      (db', .ok (user.given config choice normalized)) := by
  have hunique := users_indexed db
  have hself : ∀ row ∈ db.users.rows, row.id = user.id → row = user :=
    fun row hrow hid => eq_of_uniqueBy hunique.1 hrow hmem hid
  have hchecks : ∀ row ∈ db.users.rows, decide (row.id = user.id) = true → usersSchema.guard row
      (row.identified (encrypt config choice.nonces user.id normalized) choice.now) = true ∧
      usersSchema.check (row.identified (encrypt config choice.nonces user.id normalized) choice.now) = true := by
    intro row hrow _
    have hold := db.users.checked row hrow
    simp only [usersSchema, User.check, Bool.and_eq_true] at hold
    exact ⟨rfl, Bool.and_eq_true_iff.mpr ⟨encrypt_check hlaw _ _ _, hold.2⟩⟩
  have hone : db.users.rows.countP (fun row => decide (row.id = user.id)) ≤ 1 :=
    countP_le_one_of_uniqueBy hunique.1 fun row hrow => of_decide_eq_true hrow
  have hhmac := hmac_indexed db
  have hindexed : usersSchema.indexed (updateWhere (fun row => decide (row.id = user.id))
      (fun row => row.identified (encrypt config choice.nonces user.id normalized) choice.now)
      db.users.rows) = true := by
    refine Bool.and_eq_true_iff.mpr ⟨Bool.and_eq_true_iff.mpr ⟨?_, ?_⟩, ?_⟩
    · exact (uniqueBy_updateWhere (by intro row; rfl)).trans hunique.1
    · exact (uniqueBy_updateWhere (by intro row; rfl)).trans hunique.2
    · refine uniqueWhere_updateWhere_one hhmac hone fun _ _ _ digest hdigest row hrow hrowDigest => ?_
      by_contra hother
      exact hfree row hrow (fun hid => hother (decide_eq_true hid)) digest hdigest hrowDigest
  obtain ⟨users, hupdate, hrows⟩ := Table.updateMany_of_check hchecks hindexed
  have hcanonical : canonicalIdentity identity ≠ canonicalIdentity normalized :=
    fun heq => hne (canonicalIdentity_injective heq)
  have hwritten : Rewritten config choice db { db with users } user normalized := ⟨users, rfl, hrows⟩
  have hfind : findBy User.id user.id users.rows = _ := hwritten.find hmem
  refine ⟨_, hwritten, ?_⟩
  rw [storeIdentity, hholds.decrypts]
  simp only [if_pos hcanonical, hupdate, hfind]

/-! ### Normalised identities -/

/-- What Unicode says of the normal form and of the lower case: a part of a text in normal form is in normal
form, and no letter is written for the commercial at. -/
structure Config.Unicode (config : Config) : Prop where
  nfkc_infix : ∀ s t : String, t.toList <:+: (config.nfkc s).toList → config.nfkc t = t
  at_nfkc : ∀ s : String, '@' ∈ s.toList → '@' ∈ (config.nfkc s).toList
  at_toLowerCase : ∀ s : String, '@' ∈ s.toList → '@' ∈ (config.toLowerCase s).toList

/-- Only texts with a commercial at are emails. -/
def Validator.Documented (validator : Validator) : Prop :=
  ∀ value, validator.isEmail value = true → '@' ∈ value.toList

section Normalized

variable {input : UpdateUserIdentity} {validator : Validator}

theorem trim_toList (s : String) :
    (trim s).toList = (s.toList.dropWhile isWhiteSpace).rdropWhile isWhiteSpace := String.toList_ofList

theorem trim_within (s : String) : (trim s).toList <:+: s.toList := by
  rw [trim_toList]
  exact (List.rdropWhile_prefix _ _).isInfix.trans (List.dropWhile_suffix _).isInfix

theorem trim_trim (s : String) : trim (trim s) = trim s := by
  have hhead : (trim s).toList.dropWhile isWhiteSpace = (trim s).toList := by
    rw [trim_toList, List.dropWhile_eq_self_iff]
    intro hpos
    have hbegins := List.rdropWhile_prefix isWhiteSpace (s.toList.dropWhile isWhiteSpace)
    have hlength : 0 < (s.toList.dropWhile isWhiteSpace).length := by
      have := hbegins.length_le
      omega
    have hfirst := List.dropWhile_get_zero_not isWhiteSpace s.toList hlength
    rwa [hbegins.getElem hpos]
  rw [← String.toList_inj, trim_toList (trim s), hhead, trim_toList, List.rdropWhile_idempotent]

theorem mem_trim {c : Char} {s : String} (hc : isWhiteSpace c = false) (hmem : c ∈ s.toList) :
    c ∈ (trim s).toList := by
  have hkeeps : ∀ l : List Char, c ∈ l → c ∈ l.dropWhile isWhiteSpace := by
    intro l hl
    rw [← List.takeWhile_append_dropWhile (p := isWhiteSpace) (l := l)] at hl
    obtain hl | hl := List.mem_append.mp hl
    · have hwhite := List.mem_takeWhile_imp hl
      rw [hc] at hwhite
      cases hwhite
    · exact hl
  rw [trim_toList, List.rdropWhile, List.mem_reverse]
  exact hkeeps _ (List.mem_reverse.mpr (hkeeps _ hmem))

theorem normalizeOptional_idem (huni : config.Unicode) (value : Option String) :
    normalizeOptional config (normalizeOptional config value) = normalizeOptional config value := by
  have hidem : ∀ v, trim (config.nfkc (trim (config.nfkc v))) = trim (config.nfkc v) := by
    intro v
    rw [huni.nfkc_infix v _ (trim_within _), trim_trim]
  cases value with
  | none => rfl
  | some v =>
    rw [normalizeOptional, normalizeOptional, Option.map_some]
    by_cases hempty : trim (config.nfkc v) = ""
    · rw [Option.filter_some_neg (by simpa using hempty)]
      rfl
    · rw [Option.filter_some_pos (by simpa using hempty), Option.map_some, hidem,
        Option.filter_some_pos (by simpa using hempty)]

theorem at_normalizeEmail (huni : config.Unicode) {email : String} (h : '@' ∈ email.toList) :
    '@' ∈ (normalizeEmail config email).toList :=
  huni.at_toLowerCase _ (mem_trim (by decide) (huni.at_nfkc _ h))

theorem ne_empty_of_at {email : String} (h : '@' ∈ email.toList) : email ≠ "" := by
  rintro rfl
  exact absurd h (by decide)

theorem filter_nonempty {email : String} (h : email ≠ "") :
    ((some email).filter fun v => decide (v ≠ "")) = some email :=
  Option.filter_some_pos (decide_eq_true h)

theorem UpdateUserIdentity.at_email (hdoc : validator.Documented) (h : input.accepted validator = true) :
    '@' ∈ input.email.toList := by
  simp only [UpdateUserIdentity.accepted, Bool.and_eq_true] at h
  exact hdoc _ h.1.1.1.1.2

theorem normalized_email (config : Config) (hat : '@' ∈ input.email.toList) :
    (normalizeIdentity config input.payload).email = some (normalizeEmail config input.email) := by
  simp only [normalizeIdentity, UpdateUserIdentity.payload]
  rw [filter_nonempty (ne_empty_of_at hat), Option.map_some]

/-- An identity keeps its form exactly when its email does. -/
theorem normalizeIdentity_idem_iff (huni : config.Unicode) (hat : '@' ∈ input.email.toList) :
    normalizeIdentity config (normalizeIdentity config input.payload) =
        normalizeIdentity config input.payload ↔
      normalizeEmail config (normalizeEmail config input.email) = normalizeEmail config input.email := by
  have hne := ne_empty_of_at (at_normalizeEmail huni hat)
  have hemail := normalized_email config hat
  have htwice : (normalizeIdentity config (normalizeIdentity config input.payload)).email =
      some (normalizeEmail config (normalizeEmail config input.email)) := by
    rw [normalizeIdentity]
    simp only [hemail]
    rw [filter_nonempty hne, Option.map_some]
  constructor
  · intro h
    have hemails := congrArg IdentityPayload.email h
    rw [htwice, hemail] at hemails
    exact Option.some.inj hemails
  · intro h
    have hrest : ∀ i, normalizeIdentity config (normalizeIdentity config i) =
        { normalizeIdentity config i with
          email := (normalizeIdentity config (normalizeIdentity config i)).email } := by
      intro i
      simp only [normalizeIdentity, normalizeOptional_idem huni]
    rw [hrest, htwice, h, ← hemail]

end Normalized

/-! ### What an update leaves -/

/-- The answers of an update that has stored its identity. -/
def Stores (outcome : Except HttpError UserIdentityResponse) : Prop :=
  (∃ response, outcome = .ok response) ∨ outcome = .error auditUnavailable

theorem Rewritten.findUser (h : Rewritten config choice db db' user normalized)
    (hfind : db.findUser externalRef = some user) :
    db'.findUser externalRef = some (user.given config choice normalized) := by
  obtain ⟨hmem, href⟩ := findBy_some hfind
  exact find_of_mem (h.mem hmem) href

theorem normalized_ne_none (hat : '@' ∈ u.input.email.toList) :
    normalizeIdentity config .none ≠ u.normalized config := by
  intro h
  have hemails := congrArg IdentityPayload.email h
  rw [IdentityUpdate.normalized, normalized_email config hat] at hemails
  cases hemails

/-- The rest of an update once its identity is stored. -/
theorem update_of_stored (hensure : ensureUser config u.ensured w.db externalRef = (db, .ok user))
    (hstore : storeIdentity config u.stored db user (u.normalized config) = (db', .ok updated))
    (hholds : Holds config updated identity) : update config w externalRef u =
      match append u.stored.delivery w.events (identityUpdated config.crypto user.id externalRef
        (canonicalIdentity (u.normalized config)) updated.updatedAt) with
      | (events, .error error) => ({ w with db := db', events }, .error error)
      | (events, .ok ()) => ({ w with db := db', events }, .ok (toIdentityResponse updated identity)) := by
  rw [update, hensure]
  simp only [hstore, hholds.decrypts]
  rfl

/-- The two statements of an update that is answered, or whose event is not accepted. -/
theorem update_stores (hlaw : config.crypto.Lawful) (h : Identified config w.db)
    (hstores : Stores (update config w externalRef u).2) : ∃ db user db' updated,
      ensureUser config u.ensured w.db externalRef = (db, .ok user) ∧
      storeIdentity config u.stored db user (u.normalized config) = (db', .ok updated) := by
  cases hensure : ensureUser config u.ensured w.db externalRef with
  | mk db answer =>
  cases answer with
  | error error =>
    have hinternal : error = internalServerError := by
      cases hfind : w.db.findUser externalRef with
      | some existing =>
        obtain ⟨identity, hholds, -⟩ := h.find hfind
        rw [ensureUser_of_find hfind hholds.written] at hensure
        cases hensure
      | none =>
        rcases ensureUser_of_none u.ensured hlaw hfind with ⟨users, -, heq⟩ | heq
        · rw [heq] at hensure
          cases hensure
        · rw [heq] at hensure
          cases hensure
          rfl
    rw [update, hensure, hinternal] at hstores
    rcases hstores with ⟨_, hok⟩ | herror
    · cases hok
    · have hother : internalServerError = auditUnavailable := Except.error.inj herror
      exact absurd hother (by decide)
  | ok user =>
    obtain ⟨-, hfind, identity, hholds, -⟩ := ensureUser_ok hlaw h hensure
    by_cases hsame : identity = u.normalized config
    · subst hsame
      exact ⟨db, user, db, user, rfl, storeIdentity_same hholds⟩
    rcases storeIdentity_differs u.stored (findBy_some hfind).1 hholds hsame with
      ⟨db', -, hstore⟩ | hstore | hstore
    · exact ⟨db, user, db', _, rfl, hstore⟩
    all_goals
      rw [update, hensure] at hstores
      simp only [hstore] at hstores
      rcases hstores with ⟨_, hok⟩ | herror
      · cases hok
      · exact absurd (Except.error.inj herror) (by decide)

/-- What an update that has stored its identity leaves. -/
theorem update_leaves (hlaw : config.crypto.Lawful) (h : Identified config w.db)
    (hat : '@' ∈ u.input.email.toList) (hstores : Stores (update config w externalRef u).2) :
    Identified config (update config w externalRef u).1.db ∧
      ∃ user identity, (update config w externalRef u).1.db.findUser externalRef = some user ∧
        Holds config user identity ∧
        ((storedIdentity config w.db externalRef = some (u.normalized config) ∧
            identity = u.normalized config ∧ (update config w externalRef u).1.db = w.db) ∨
          (storedIdentity config w.db externalRef ≠ some (u.normalized config) ∧
            identity = normalizeIdentity config (u.normalized config) ∧ user.updatedAt = u.stored.now)) := by
  obtain ⟨db, user, db', updated, hensure, hstore⟩ := update_stores hlaw h hstores
  obtain ⟨hi, hfind, identity, hholds, hcase⟩ := ensureUser_ok hlaw h hensure
  have hdb : ∀ identity', Holds config updated identity' → (update config w externalRef u).1.db = db' := by
    intro identity' hholds'
    rw [update_of_stored hensure hstore hholds']
    split <;> rfl
  by_cases hsame : identity = u.normalized config
  · subst hsame
    rw [storeIdentity_same hholds] at hstore
    cases hstore
    rw [hdb _ hholds]
    obtain ⟨rfl, hstored⟩ | ⟨-, -, -, hnone⟩ := hcase
    · exact ⟨hi, user, _, hfind, hholds, .inl ⟨hstored, rfl, rfl⟩⟩
    · exact absurd hnone.symm (normalized_ne_none hat)
  · have hdiffers : storedIdentity config w.db externalRef ≠ some (u.normalized config) := by
      intro heq
      obtain ⟨-, hstored⟩ | ⟨-, hstored, -⟩ := hcase
      · exact hsame (Option.some.inj (hstored.symm.trans heq))
      · rw [hstored] at heq
        cases heq
    rcases storeIdentity_differs u.stored (findBy_some hfind).1 hholds hsame with
      ⟨db'', hwritten, heq⟩ | heq | heq
    · rw [heq] at hstore
      cases hstore
      rw [hdb _ (User.given_holds hlaw)]
      exact ⟨hwritten.identified hlaw hi, _, _, hwritten.findUser hfind, User.given_holds hlaw,
        .inr ⟨hdiffers, rfl, rfl⟩⟩
    all_goals
      rw [heq] at hstore
      cases hstore

/-! ### All runs -/

/-- What changes the users: the statements of the calls for wallets, and updates. -/
inductive IdentityAction
  | wallet (pc : Pc) (choice : Choice)
  | update (externalRef : ExternalRef) (u : IdentityUpdate)

/-- The statements of the calls for wallets stand between the updates in any order. -/
def identities (config : Config) : System World IdentityAction where
  init := .empty
  step
    | w, .wallet pc choice => some (advance config choice w pc).1
    | w, .update externalRef u => some (update config w externalRef u).1

theorem advance_identified (hlaw : config.crypto.Lawful) {pc : Pc} (h : Identified config w.db) :
    Identified config (advance config choice w pc).1.db := by
  cases pc with
  | refreshUser c existing =>
    simp only [advance, runRefreshUser]
    split
    · next users n hupdate =>
      split
      · have hwritten : Rewritten config choice w.db { w.db with users } existing .none :=
          ⟨users, rfl, (Table.updateMany_ok hupdate).1⟩
        exact hwritten.identified hlaw h
      · exact h
    · exact h
  | createUser c =>
    simp only [advance, runCreateUser]
    split
    · next users hinsert => exact forall_mem_new h (Table.insertMany_ok hinsert) ⟨_, newUser_holds hlaw⟩
    · exact h
    · exact h
  | insertWallet c user =>
    have husers : (runInsertWallet config choice w.db c user).1.users = w.db.users := by
      unfold runInsertWallet
      split
      · next db' hinsert => exact (insertWallet_ok hinsert).1
      · rfl
      · rfl
    intro row hrow
    change row ∈ (runInsertWallet config choice w.db c user).1.users.rows at hrow
    rw [husers] at hrow
    exact h row hrow
  | activate c? wallet account =>
    have husers : (runActivate choice w.db c? wallet account).1.users = w.db.users := by
      unfold runActivate
      split
      · split <;> rfl
      · rfl
    intro row hrow
    change row ∈ (runActivate choice w.db c? wallet account).1.users.rows at hrow
    rw [husers] at hrow
    exact h row hrow
  | _ => exact h

/-- What holds of new rows, and of every row with another identity, still holds after an update. -/
theorem update_rows {P : User → Prop} (hlaw : config.crypto.Lawful) (h : Identified config w.db)
    (hP : ∀ row ∈ w.db.users.rows, P row) (hnew : ∀ choice, P (newUser config choice externalRef))
    (hgiven : ∀ row choice normalized, P row → P (row.given config choice normalized)) :
    ∀ row ∈ (update config w externalRef u).1.db.users.rows, P row := by
  have hensured := ensureUser_rows hlaw h hP (hnew u.ensured)
  unfold update
  split
  · next db _ heq =>
    rw [heq] at hensured
    exact hensured
  · next db user heq =>
    obtain ⟨-, hfind, identity, hholds, -⟩ := ensureUser_ok hlaw h heq
    rw [heq] at hensured
    have hstored : ∀ row ∈ (storeIdentity config u.stored db user (u.normalized config)).1.users.rows,
        P row := by
      by_cases hsame : identity = u.normalized config
      · subst hsame
        rw [storeIdentity_same hholds]
        exact hensured
      · rcases storeIdentity_differs u.stored (findBy_some hfind).1 hholds hsame with
          ⟨db', hwritten, hstore⟩ | hstore | hstore
        · rw [hstore]
          exact hwritten.rows hensured fun row => hgiven row u.stored (u.normalized config)
        all_goals
          rw [hstore]
          exact hensured
    split
    · next hstore =>
      rw [hstore] at hstored
      exact hstored
    · next hstore =>
      rw [hstore] at hstored
      split <;> exact hstored

theorem update_identified (hlaw : config.crypto.Lawful) (h : Identified config w.db) :
    Identified config (update config w externalRef u).1.db :=
  update_rows hlaw h h (fun _ => ⟨_, newUser_holds hlaw⟩) fun _ _ _ _ => ⟨_, User.given_holds hlaw⟩

theorem identified_of_reachable (hlaw : config.crypto.Lawful) (h : (identities config).Reachable w) :
    Identified config w.db := by
  refine System.Reachable.invariant (P := fun w => Identified config w.db)
    (fun user huser => absurd huser List.not_mem_nil) ?_ h
  intro w a w' _ hi hstep
  cases a with
  | wallet pc choice =>
    cases hstep
    exact advance_identified hlaw hi
  | update externalRef u =>
    cases hstep
    exact update_identified hlaw hi

/-- A validator that only looks for the commercial at, and for the lengths. -/
def plainValidator : Validator where
  isEmail := fun value => decide ('@' ∈ value.toList)
  isLength := fun value min max => decide (min ≤ value.length) && decide (value.length ≤ max)

theorem plainValidator_documented : plainValidator.Documented := fun _ h => of_decide_eq_true h

theorem isExternalRef_client : isExternalRef "client-a" = true := by decide

def client : ExternalRef := ⟨"client-a", isExternalRef_client⟩

def annsIdentity : UpdateUserIdentity := ⟨"Ann Example", "ann@example.com", none, some " ", none⟩

def annsUpdate : IdentityUpdate := ⟨annsIdentity, drawn 1, drawn 2⟩

end NovaPay.Account
