import NovaPay.Transaction.Schema

/-!
# Commands, responses and database transactions of the Transaction service

The database transactions of `TransferService`, each as one function on the database: they run
at READ COMMITTED, but every one of them starts with the insert or the conditional update of the
transfer row and so holds that row until it commits.
-/

namespace NovaPay.Transaction

open DecimalArithmetic Relational

structure CreateTransfer where
  senderWalletId : UuidText
  recipientWalletId : UuidText
  amount : MoneyText
  currency : Currency
deriving DecidableEq, Repr

structure CreateInternationalTransfer where
  senderWalletId : UuidText
  recipientWalletId : UuidText
  sourceAmount : MoneyText
  sourceCurrency : Currency
  targetCurrency : Currency
  quoteId : UuidText
deriving DecidableEq, Repr

inductive Command
  | domestic (command : CreateTransfer)
  | international (command : CreateInternationalTransfer)
deriving DecidableEq, Repr

def canonicalTransferHash (sha256 : Json → Digest) (command : CreateTransfer) : Digest :=
  sha256 (.object [
    ("method", .text "POST"),
    ("route", .text "/transfers"),
    ("senderWalletId", .uuid command.senderWalletId),
    ("recipientWalletId", .uuid command.recipientWalletId),
    ("amount", .decimal (toFixed 8 command.amount.val.value)),
    ("currency", .currency command.currency)])

def canonicalInternationalTransferHash (sha256 : Json → Digest)
    (command : CreateInternationalTransfer) : Digest :=
  sha256 (.object [
    ("method", .text "POST"),
    ("route", .text "/transfers/international"),
    ("senderWalletId", .uuid command.senderWalletId),
    ("recipientWalletId", .uuid command.recipientWalletId),
    ("sourceAmount", .decimal (toFixed 8 command.sourceAmount.val.value)),
    ("sourceCurrency", .currency command.sourceCurrency),
    ("targetCurrency", .currency command.targetCurrency),
    ("quoteId", .uuid command.quoteId)])

def Command.requestHash (sha256 : Json → Digest) : Command → Digest
  | .domestic command => canonicalTransferHash sha256 command
  | .international command => canonicalInternationalTransferHash sha256 command

/-- `Decimal.isPositive` tests the sign, and a text without a minus sign has a positive one. -/
def isPositive (t : Text) : Bool := decide (0 ≤ t.units)

def sameWallet : HttpError :=
  ⟨400, "SAME_WALLET_TRANSFER", "Sender and recipient wallets must be different."⟩

def sameCurrency : HttpError :=
  ⟨400, "SAME_CURRENCY_TRANSFER", "International transfer currencies must differ."⟩

def invalidAmount : HttpError :=
  ⟨400, "INVALID_TRANSFER_AMOUNT", "Transfer amount must be positive."⟩

def validateCommand (command : CreateTransfer) : Except HttpError Unit :=
  if command.senderWalletId = command.recipientWalletId then .error sameWallet
  else if !isPositive command.amount.val then .error invalidAmount
  else .ok ()

def validateInternationalCommand (command : CreateInternationalTransfer) : Except HttpError Unit :=
  if command.senderWalletId = command.recipientWalletId then .error sameWallet
  else if command.sourceCurrency = command.targetCurrency then .error sameCurrency
  else if !isPositive command.sourceAmount.val then .error invalidAmount
  else .ok ()

def Command.validate : Command → Except HttpError Unit
  | .domestic command => validateCommand command
  | .international command => validateInternationalCommand command

/-- `^[\x21-\x7E]{1,128}$` -/
def validateIdempotencyKey (key : IdempotencyKey) : Except HttpError Unit :=
  if key.toList.all (fun c => decide (0x21 ≤ c.toNat) && decide (c.toNat ≤ 0x7E)) &&
      decide (1 ≤ key.length) && decide (key.length ≤ 128) then .ok ()
  else .error ⟨400, "INVALID_IDEMPOTENCY_KEY",
    "Idempotency-Key must contain 1 to 128 visible ASCII characters."⟩

def toResponse (t : Transfer) : TransferResponse where
  transferId := t.id
  status := t.status
  sourceAmount := toFixed 8 t.sourceAmount.value
  sourceCurrency := t.sourceCurrency
  targetAmount := t.targetAmount.map fun a => toFixed 8 a.value
  targetCurrency := t.targetCurrency
  ledgerTransactionId := t.ledgerTransactionId
  completedAt := t.completedAt
  quoteId := t.fxQuoteId
  lockedRate := t.lockedFxRate.map fun r => toFixed 12 r.value
  statusUrl := if t.status.open then some t.id else none
  failure :=
    match t.status, t.failureCode, t.failureMessage with
    | .failed, some code, some message =>
      if code ≠ "" ∧ message ≠ "" then some (code, message) else none
    | _, _, _ => none

/-- `expectedRows` of the history projection. -/
def expectedRows (t : Transfer) : List ProjectedRow :=
  if t.type = .international ∧ t.targetAmount = none then []
  else [
    { walletId := t.senderWalletId
      role := .sender
      counterpartyWalletId := t.recipientWalletId
      status := t.status
      amount := t.sourceAmount
      currency := t.sourceCurrency
      fxQuoteId := t.fxQuoteId
      occurredAt := t.createdAt },
    { walletId := t.recipientWalletId
      role := .recipient
      counterpartyWalletId := t.senderWalletId
      status := t.status
      amount := t.targetAmount.getD t.sourceAmount
      currency := t.targetCurrency
      fxQuoteId := t.fxQuoteId
      occurredAt := t.createdAt }]

def replayWindowMs : ℕ := 24 * 60 * 60 * 1000

def retentionWindowMs : ℕ := 7 * 365 * 24 * 60 * 60 * 1000

/-- The ids a claim draws: the transfer's and those of its two history rows. -/
structure ClaimIds where
  transferId : Uuid
  senderRowId : Uuid
  recipientRowId : Uuid
deriving DecidableEq, Repr

/-- The record a claim creates with the transfer. -/
def claimRecord (clientId : Principal) (key : IdempotencyKey) (requestHash : Digest)
    (transferId : Uuid) (now : Time) : IdempotencyRecord where
  clientId := clientId
  key := key
  requestHash := requestHash
  state := .processing
  transferId := transferId
  responseStatus := none
  responseBody := none
  replayExpiresAt := now.toDate + replayWindowMs
  retentionUntil := now.toDate + retentionWindowMs

def domesticTransfer (clientId : Principal) (command : CreateTransfer) (amount : Money)
    (id : Uuid) (now : Time) (date : Date) : Transfer where
  id := id
  clientId := clientId
  type := .domestic
  status := .pending
  senderWalletId := command.senderWalletId.value
  recipientWalletId := command.recipientWalletId.value
  sourceCurrency := command.currency
  sourceAmount := amount
  targetCurrency := command.currency
  targetAmount := some amount
  fxQuoteId := none
  lockedFxRate := none
  ledgerTransactionId := none
  failureCode := none
  failureMessage := none
  createdAt := now.toDate
  updatedAt := date
  completedAt := none
  version := 0

def internationalTransfer (clientId : Principal) (command : CreateInternationalTransfer)
    (amount : Money) (id : Uuid) (now : Time) (date : Date) : Transfer where
  id := id
  clientId := clientId
  type := .international
  status := .pending
  senderWalletId := command.senderWalletId.value
  recipientWalletId := command.recipientWalletId.value
  sourceCurrency := command.sourceCurrency
  sourceAmount := amount
  targetCurrency := command.targetCurrency
  targetAmount := none
  fxQuoteId := some command.quoteId.value
  lockedFxRate := none
  ledgerTransactionId := none
  failureCode := none
  failureMessage := none
  createdAt := now.toDate
  updatedAt := date
  completedAt := none
  version := 0

/-- The two rows `claim` nests in the creation of a domestic transfer. -/
def claimHistory (ids : ClaimIds) (command : CreateTransfer) (amount : Money) (now : Time) :
    List TransactionHistory := [
  { id := ids.senderRowId
    transferId := ids.transferId
    walletId := command.senderWalletId.value
    role := .sender
    counterpartyWalletId := command.recipientWalletId.value
    status := .pending
    amount := amount
    currency := command.currency
    fxQuoteId := none
    occurredAt := now.toDate },
  { id := ids.recipientRowId
    transferId := ids.transferId
    walletId := command.recipientWalletId.value
    role := .recipient
    counterpartyWalletId := command.senderWalletId.value
    status := .pending
    amount := amount
    currency := command.currency
    fxQuoteId := none
    occurredAt := now.toDate }]

/-- The insert transaction of `claim`. -/
def claim (db : Database) (ids : ClaimIds) (now : Time) (date : Date) (clientId : Principal)
    (key : IdempotencyKey) (requestHash : Digest) (command : CreateTransfer) :
    Except DbError (Database × Transfer) :=
  match (Numeric.ofRat? command.amount.val.value : Option Money) with
  | none => .error .rejected
  | some amount => do
    let transfer := domesticTransfer clientId command amount ids.transferId now date
    let transfers ← db.transfers.insertMany [transfer]
    let history ← db.history.insertMany (claimHistory ids command amount now)
    let records ← db.records.insertMany [claimRecord clientId key requestHash ids.transferId now]
    return (⟨transfers, records, history⟩, transfer)

/-- The insert transaction of `claimInternational`; the quote's terms are not known yet. -/
def claimInternational (db : Database) (ids : ClaimIds) (now : Time) (date : Date)
    (clientId : Principal) (key : IdempotencyKey) (requestHash : Digest)
    (command : CreateInternationalTransfer) : Except DbError (Database × Transfer) :=
  match (Numeric.ofRat? command.sourceAmount.val.value : Option Money) with
  | none => .error .rejected
  | some amount => do
    let transfer := internationalTransfer clientId command amount ids.transferId now date
    let transfers ← db.transfers.insertMany [transfer]
    let records ← db.records.insertMany [claimRecord clientId key requestHash ids.transferId now]
    return (⟨transfers, records, db.history⟩, transfer)

/-! The `data` of the update statements; each increments the version. -/

namespace Transfer

def start (t : Transfer) (date : Date) : Transfer :=
  { t with status := .processing, updatedAt := date, version := t.version + 1 }

def prepare (t : Transfer) (targetAmount : Money) (lockedFxRate : Rate) (date : Date) : Transfer :=
  { t with
    targetAmount := some targetAmount, lockedFxRate := some lockedFxRate
    status := .processing, updatedAt := date, version := t.version + 1 }

def retry (t : Transfer) (date : Date) : Transfer :=
  { t with updatedAt := date, version := t.version + 1 }

/-- An id that is `undefined` leaves its column as it is. -/
def complete (t : Transfer) (ledgerTransactionId : Option Uuid) (now : Time) (date : Date) :
    Transfer :=
  { t with
    status := .completed, ledgerTransactionId := ledgerTransactionId <|> t.ledgerTransactionId
    completedAt := some now.toDate, updatedAt := date, version := t.version + 1 }

def fail (t : Transfer) (error : HttpError) (date : Date) : Transfer :=
  { t with
    status := .failed
    failureCode := some (Varchar.assign 80 error.code)
    failureMessage := some (Varchar.assign 300 error.message)
    updatedAt := date, version := t.version + 1 }

end Transfer

namespace IdempotencyRecord

def complete (r : IdempotencyRecord) (body : TransferResponse) : IdempotencyRecord :=
  { r with state := .completed, responseStatus := some 201, responseBody := some body }

def fail (r : IdempotencyRecord) (status : ℕ) (body : TransferResponse) : IdempotencyRecord :=
  { r with state := .failed, responseStatus := some status, responseBody := some body }

end IdempotencyRecord

def TransactionHistory.withStatus (h : TransactionHistory) (status : TransferStatus) :
    TransactionHistory := { h with status }

/-- `transition(id, 'PENDING', 'PROCESSING')`. -/
def transition (db : Database) (transferId : Uuid) (date : Date) : Except DbError Database := do
  let (transfers, count) ← db.transfers.updateMany
    (fun t => decide (t.id = transferId) && decide (t.status = .pending))
    (fun t => t.start date)
  if count = 1 then
    let (history, _) ← db.history.updateMany
      (fun h => decide (h.transferId = transferId) && decide (h.status = .pending))
      (fun h => h.withStatus .processing)
    return { db with transfers, history }
  else return { db with transfers }

/-- The rows `prepareInternational` adds to the history. -/
def preparedHistory (transfer : Transfer) (targetAmount : Money)
    (senderRowId recipientRowId : Uuid) : List TransactionHistory := [
  { id := senderRowId
    transferId := transfer.id
    walletId := transfer.senderWalletId
    role := .sender
    counterpartyWalletId := transfer.recipientWalletId
    status := .processing
    amount := transfer.sourceAmount
    currency := transfer.sourceCurrency
    fxQuoteId := transfer.fxQuoteId
    occurredAt := transfer.createdAt },
  { id := recipientRowId
    transferId := transfer.id
    walletId := transfer.recipientWalletId
    role := .recipient
    counterpartyWalletId := transfer.senderWalletId
    status := .processing
    amount := targetAmount
    currency := transfer.targetCurrency
    fxQuoteId := transfer.fxQuoteId
    occurredAt := transfer.createdAt }]

/-- The rows the update of `prepareInternational` matches. -/
def unprepared (transferId : Uuid) (t : Transfer) : Bool :=
  decide (t.id = transferId) && decide (t.status = .pending) &&
    t.targetAmount.isNone && t.lockedFxRate.isNone

/-- The transaction of `prepareInternational`; false when another preparation or a failure came
first. Terms that no column can hold only matter when there is a row to write them to. -/
def prepareInternational (db : Database) (transfer : Transfer) (quote : QuoteResponse)
    (senderRowId recipientRowId : Uuid) (date : Date) : Except DbError (Database × Bool) :=
  match (Numeric.ofRat? quote.targetAmount.value : Option Money),
      (Numeric.ofRat? quote.rate.value : Option Rate) with
  | some targetAmount, some lockedFxRate => do
    let (transfers, count) ← db.transfers.updateMany (unprepared transfer.id)
      (fun t => t.prepare targetAmount lockedFxRate date)
    if count = 1 then
      let history ← db.history.insertMany
        (preparedHistory transfer targetAmount senderRowId recipientRowId)
      return ({ db with transfers, history }, true)
    else return ({ db with transfers }, false)
  | _, _ =>
    if db.transfers.rows.any (unprepared transfer.id) then .error .rejected
    else .ok (db, false)

/-- `findUniqueOrThrow` inside a transaction. -/
def findUniqueOrThrow (transfers : Table transfersSchema) (transferId : Uuid) :
    Except DbError Transfer :=
  match findBy Transfer.id transferId transfers.rows with
  | some t => .ok t
  | none => .error .rejected

/-- The transaction of `complete`: the row it read last, and whether it made the change. -/
def complete (db : Database) (transferId : Uuid) (ledgerTransactionId : Option Uuid) (now : Time)
    (date : Date) : Except DbError (Database × Transfer × Bool) := do
  let (transfers, count) ← db.transfers.updateMany
    (fun t => decide (t.id = transferId) && decide (t.status = .processing))
    (fun t => t.complete ledgerTransactionId now date)
  if count = 0 then
    let transfer ← findUniqueOrThrow transfers transferId
    return ({ db with transfers }, transfer, false)
  else
    let (history, _) ← db.history.updateMany
      (fun h => decide (h.transferId = transferId)) (fun h => h.withStatus .completed)
    let transfer ← findUniqueOrThrow transfers transferId
    let (records, updated) ← db.records.updateMany
      (fun r => decide (r.transferId = transferId)) (fun r => r.complete (toResponse transfer))
    -- `update` throws where no row has the id
    if updated = 0 then throw .rejected
    else return (⟨transfers, records, history⟩, transfer, true)

/-- The transaction of `fail`: the row it read last, and whether it made the change. -/
def fail (db : Database) (transferId : Uuid) (error : HttpError) (date : Date) :
    Except DbError (Database × Transfer × Bool) := do
  let (transfers, count) ← db.transfers.updateMany
    (fun t => decide (t.id = transferId) && t.status.open) (fun t => t.fail error date)
  if count = 1 then
    let (history, _) ← db.history.updateMany
      (fun h => decide (h.transferId = transferId)) (fun h => h.withStatus .failed)
    let transfer ← findUniqueOrThrow transfers transferId
    let (records, _) ← db.records.updateMany
      (fun r => decide (r.transferId = transferId) && decide (r.state = .processing))
      (fun r => r.fail error.status (toResponse transfer))
    return (⟨transfers, records, history⟩, transfer, true)
  else
    let transfer ← findUniqueOrThrow transfers transferId
    return ({ db with transfers }, transfer, false)

/-- `claimProcessingRetry`: whether the row still had the version that was read. -/
def claimProcessingRetry (db : Database) (transfer : Transfer) (staleBefore : Option ℤ)
    (date : Date) : Except DbError (Database × Bool) := do
  let (transfers, count) ← db.transfers.updateMany
    (fun t => decide (t.id = transfer.id) && decide (t.status = .processing) &&
      decide (t.version = transfer.version) &&
      staleBefore.all (fun limit => decide ((t.updatedAt : ℤ) ≤ limit)))
    (fun t => t.retry date)
  return ({ db with transfers }, decide (count = 1))

end NovaPay.Transaction
