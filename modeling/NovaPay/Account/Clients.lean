import NovaPay.Account.Identity
import NovaPay.Ledger.Schema
import NovaPay.Texts

/-!
# The services that Account asks

The events that the audit client sends and what Admin keeps of them, and the accounts that the Ledger
provisions. A request can be lost on its way there or on the way back.
-/

namespace NovaPay.Account

open DecimalArithmetic Relational

/-- The way of a request that is not refused: answered, never received, or received with its answer
lost. -/
inductive Delivery
  | answered
  | unavailable
  | lost
deriving DecidableEq, Repr

/-! ### Admin -/

/-- The body of `POST /internal/audit-events`; both events have one member of metadata. -/
structure AuditEvent where
  eventId : Uuid
  streamKey : String
  action : String
  entityType : String
  entityId : String
  actorId : String
  occurredAt : Date
  metadata : String × String
deriving DecidableEq, Repr

/-- A number with one byte replaced, counted from the last. -/
def setByte (place : ℕ) (f : ℕ → ℕ) (n : ℕ) : ℕ :=
  n / 256 ^ (place + 1) * 256 ^ (place + 1) + f (n / 256 ^ place % 256) * 256 ^ place + n % 256 ^ place

/-- The first 16 bytes of a digest, with the version in the seventh and the variant in the ninth. -/
def deterministicUuid (crypto : Crypto) (value : String) : Uuid :=
  setByte 7 (fun b => b % 64 + 0x80)
    (setByte 9 (fun b => b % 16 + 0x50) (crypto.sha256 value.toList / 2 ^ 128))

def identityUpdated (crypto : Crypto) (userId : Uuid) (actorId canonicalPayload : String)
    (occurredAt : Date) : AuditEvent where
  eventId := deterministicUuid crypto ("identity.updated\x00" ++ uuidText userId ++ "\x00" ++ canonicalPayload)
  streamKey := "user:" ++ uuidText userId
  action := "user.identity.updated"
  entityType := "user"
  entityId := uuidText userId
  actorId := actorId
  occurredAt := occurredAt
  metadata := ("schemaVersion", "v1")

def walletActivated (crypto : Crypto) (walletId : Uuid) (actorId : String) (currency : Currency)
    (occurredAt : Date) : AuditEvent where
  eventId := deterministicUuid crypto ("wallet.activated\x00" ++ uuidText walletId)
  streamKey := "wallet:" ++ uuidText walletId
  action := "wallet.activated"
  entityType := "wallet"
  entityId := uuidText walletId
  actorId := actorId
  occurredAt := occurredAt
  metadata := ("currency", currencyText currency)

def auditUnavailable : HttpError :=
  ⟨503, "AUDIT_UNAVAILABLE", "The required audit event could not be recorded."⟩

/-- What Admin keeps of an event: an event with a new id is appended, one that it has is accepted again,
and another event under the id of one that it has is refused. -/
def record (events : List AuditEvent) (event : AuditEvent) : Except HttpError (List AuditEvent) :=
  match findBy AuditEvent.eventId event.eventId events with
  | none => .ok (events ++ [event])
  | some prior => if prior = event then .ok events else .error auditUnavailable

/-- `AuditClient.append`: the events afterwards, and whether the call returned. -/
def append (delivery : Delivery) (events : List AuditEvent) (event : AuditEvent) :
    List AuditEvent × Except HttpError Unit :=
  match delivery, record events event with
  | .answered, .ok events' => (events', .ok ())
  | .lost, .ok events' => (events', .error auditUnavailable)
  | _, _ => (events, .error auditUnavailable)

/-! ### Ledger -/

/-- The accounts of the Ledger. -/
abbrev LedgerAccounts := Table Ledger.accountsSchema

/-- `ProvisionedAccount` -/
structure ProvisionedAccount where
  walletId : Uuid
  ledgerAccountId : Uuid
  available : Text
  currency : Currency
  version : ℕ
deriving DecidableEq, Repr

def ledgerUnavailable : HttpError :=
  ⟨503, "LEDGER_UNAVAILABLE", "Ledger service is temporarily unavailable."⟩

def ledgerAccountMismatch : HttpError :=
  ⟨409, "LEDGER_ACCOUNT_MISMATCH", "The wallet is already provisioned with another currency."⟩

def newAccount (id walletId : Uuid) (currency : Currency) : Ledger.LedgerAccount where
  id := id
  walletId := some walletId
  accountType := .customer
  currency := currency
  normalSide := .credit
  status := .active

/-- `LedgerAccountService.provision`: the account of the wallet, which is created with the given id where
there is none. -/
def provisionAccount (accounts : LedgerAccounts) (accountId walletId : Uuid) (currency : Currency) :
    Except HttpError (LedgerAccounts × Ledger.LedgerAccount) :=
  match findBy Ledger.LedgerAccount.walletId (some walletId) accounts.rows with
  | some existing =>
    if existing.currency = currency then .ok (accounts, existing) else .error ledgerAccountMismatch
  | none =>
    match accounts.insertMany [newAccount accountId walletId currency] with
    | .ok accounts' => .ok (accounts', newAccount accountId walletId currency)
    | .error _ => .error ledgerUnavailable

/-- `LedgerClient.provision`: the accounts afterwards, and the account if the call returned. -/
def provision (delivery : Delivery) (accounts : LedgerAccounts) (accountId walletId : Uuid)
    (currency : Currency) : LedgerAccounts × Except HttpError Ledger.LedgerAccount :=
  match delivery, provisionAccount accounts accountId walletId currency with
  | .answered, .ok (accounts', account) => (accounts', .ok account)
  | .answered, .error error => (accounts, .error error)
  | .lost, .ok (accounts', _) => (accounts', .error ledgerUnavailable)
  | _, _ => (accounts, .error ledgerUnavailable)

end NovaPay.Account
