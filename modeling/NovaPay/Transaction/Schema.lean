import NovaPay.Library.Relational
import NovaPay.Library.Varchar
import NovaPay.Wire

/-!
# The tables of the Transaction service

`transfers`, `idempotency_records` and `transaction_history` with the constraints of the
migrations: CHECK constraints, unique indexes and the update triggers.
-/

namespace NovaPay.Transaction

open DecimalArithmetic Relational

inductive TransferType
  | domestic
  | international
deriving DecidableEq, Repr

inductive TransferStatus
  | pending
  | processing
  | completed
  | failed
  | reversed
deriving DecidableEq, Repr

inductive IdempotencyState
  | processing
  | completed
  | failed
deriving DecidableEq, Repr

inductive TransferRole
  | sender
  | recipient
deriving DecidableEq, Repr

structure Transfer where
  id : Uuid
  clientId : Principal
  type : TransferType
  status : TransferStatus
  senderWalletId : Uuid
  recipientWalletId : Uuid
  sourceCurrency : Currency
  sourceAmount : Money
  targetCurrency : Currency
  targetAmount : Option Money
  fxQuoteId : Option Uuid
  lockedFxRate : Option Rate
  ledgerTransactionId : Option Uuid
  failureCode : Option String
  failureMessage : Option String
  createdAt : Date
  updatedAt : Date
  completedAt : Option Date
  version : ℕ
deriving DecidableEq, Repr

/-- `TransferResponseDto`; `statusUrl` is the transfer id of `/transfers/{id}`. -/
structure TransferResponse where
  transferId : Uuid
  status : TransferStatus
  sourceAmount : Text
  sourceCurrency : Currency
  targetAmount : Option Text
  targetCurrency : Currency
  ledgerTransactionId : Option Uuid
  completedAt : Option Date
  quoteId : Option Uuid
  lockedRate : Option Text
  statusUrl : Option Uuid
  failure : Option (String × String)
deriving DecidableEq, Repr

structure IdempotencyRecord where
  clientId : Principal
  key : IdempotencyKey
  requestHash : Digest
  state : IdempotencyState
  transferId : Uuid
  responseStatus : Option ℕ
  responseBody : Option TransferResponse
  replayExpiresAt : Date
  retentionUntil : Date
deriving DecidableEq, Repr

/-- The columns of a history row that `expectedRows` derives from the transfer. -/
structure ProjectedRow where
  walletId : Uuid
  role : TransferRole
  counterpartyWalletId : Uuid
  status : TransferStatus
  amount : Money
  currency : Currency
  fxQuoteId : Option Uuid
  occurredAt : Date
deriving DecidableEq, Repr

structure TransactionHistory extends ProjectedRow where
  id : Uuid
  transferId : Uuid
deriving DecidableEq, Repr

def TransferStatus.open : TransferStatus → Bool
  | .pending | .processing => true
  | _ => false

theorem TransferStatus.open_iff {s : TransferStatus} :
    s.open = true ↔ s = .pending ∨ s = .processing := by
  cases s <;> simp [TransferStatus.open]

/-- `transfers_type_check`, which subsumes `transfers_domestic_amount_check`. A CHECK refuses a
row only when it is false, so a comparison with a null column lets the row through. -/
def Transfer.typeCheck (t : Transfer) : Bool :=
  (decide (t.type = .domestic) && decide (t.sourceCurrency = t.targetCurrency) &&
    t.targetAmount.all (fun a => decide (a = t.sourceAmount)) &&
    t.fxQuoteId.isNone && t.lockedFxRate.isNone) ||
  (decide (t.type = .international) && decide (t.sourceCurrency ≠ t.targetCurrency) &&
    t.fxQuoteId.isSome &&
    ((t.targetAmount.isNone && t.lockedFxRate.isNone) ||
      (t.targetAmount.all (fun a => decide (0 < a.value)) &&
        t.lockedFxRate.all (fun r => decide (0 < r.value)))))

/-- `transfers_terminal_state_check`. -/
def Transfer.terminalStateCheck (t : Transfer) : Bool :=
  match t.status with
  | .pending | .processing =>
    t.ledgerTransactionId.isNone && t.completedAt.isNone &&
      t.failureCode.isNone && t.failureMessage.isNone
  | .failed =>
    t.ledgerTransactionId.isNone && t.completedAt.isNone &&
      t.failureCode.isSome && t.failureMessage.isSome
  | .completed | .reversed =>
    t.ledgerTransactionId.isSome && t.completedAt.isSome &&
      t.failureCode.isNone && t.failureMessage.isNone

/-- `transfers_international_execution_check`. -/
def Transfer.executionCheck (t : Transfer) : Bool :=
  decide (t.type ≠ .international) || decide (t.status = .pending) || decide (t.status = .failed) ||
    (t.targetAmount.isSome && t.lockedFxRate.isSome)

/-- `VARCHAR(80)` and `VARCHAR(300)`. -/
def Transfer.failureFits (t : Transfer) : Bool :=
  t.failureCode.all (Varchar.fitsColumn 80) && t.failureMessage.all (Varchar.fitsColumn 300)

/-- The CHECK constraints of `transfers`. -/
def Transfer.check (t : Transfer) : Bool :=
  decide (t.senderWalletId ≠ t.recipientWalletId) && decide (0 < t.sourceAmount.value) &&
    t.targetAmount.all (fun a => decide (0 < a.value)) &&
    t.typeCheck && t.terminalStateCheck && t.executionCheck && t.failureFits

/-- The status changes `novapay_guard_transfer_update` lets through. -/
def statusAllowed (old new : TransferStatus) : Bool :=
  match old, new with
  | .pending, .processing | .pending, .failed => true
  | .processing, .completed | .processing, .failed => true
  | .completed, .reversed => true
  | _, _ => decide (old = new)

/-- `novapay_guard_transfer_update`; as in a CHECK, a null amount or rate raises nothing. -/
def guardTransferUpdate (old new : Transfer) : Bool :=
  decide (old.clientId = new.clientId) && decide (old.type = new.type) &&
    decide (old.senderWalletId = new.senderWalletId) &&
    decide (old.recipientWalletId = new.recipientWalletId) &&
    decide (old.sourceCurrency = new.sourceCurrency) &&
    decide (old.sourceAmount = new.sourceAmount) &&
    decide (old.targetCurrency = new.targetCurrency) && decide (old.fxQuoteId = new.fxQuoteId) &&
    ((decide (old.targetAmount = new.targetAmount) && decide (old.lockedFxRate = new.lockedFxRate)) ||
      (decide (old.type = .international) && decide (old.status = .pending) &&
        decide (new.status = .processing) && old.targetAmount.isNone && old.lockedFxRate.isNone &&
        new.targetAmount.all (fun a => decide (0 < a.value)) &&
        new.lockedFxRate.all (fun r => decide (0 < r.value)))) &&
    statusAllowed old.status new.status

/-- The unique indexes of `transfers`. -/
def transfersIndexed (rows : List Transfer) : Bool :=
  uniqueBy Transfer.id rows && uniqueWhere Transfer.fxQuoteId rows &&
    uniqueWhere Transfer.ledgerTransactionId rows

def transfersSchema : Schema Transfer where
  check := Transfer.check
  indexed := transfersIndexed
  guard := guardTransferUpdate

@[simp] theorem transfersSchema_check (t : Transfer) : transfersSchema.check t = t.check := rfl

/-- `idempotency_records_result_check`, `_expiry_check` and `_response_status_check`. -/
def IdempotencyRecord.check (r : IdempotencyRecord) : Bool :=
  (match r.state with
    | .processing => r.responseStatus.isNone && r.responseBody.isNone
    | _ => r.responseStatus.isSome && r.responseBody.isSome) &&
  decide (r.replayExpiresAt ≤ r.retentionUntil) &&
  r.responseStatus.all (fun n => decide (100 ≤ n) && decide (n ≤ 599))

/-- `novapay_guard_idempotency_update`. -/
def guardIdempotencyUpdate (old new : IdempotencyRecord) : Bool :=
  decide (old.clientId = new.clientId) && decide (old.key = new.key) &&
    decide (old.requestHash = new.requestHash) && decide (old.transferId = new.transferId) &&
    (decide (old.state = new.state) ||
      (decide (old.state = .processing) && decide (new.state ≠ .processing)))

def recordsIndexed (rows : List IdempotencyRecord) : Bool :=
  uniqueBy (fun r => (r.clientId, r.key)) rows && uniqueBy IdempotencyRecord.transferId rows

def recordsSchema : Schema IdempotencyRecord where
  check := IdempotencyRecord.check
  indexed := recordsIndexed
  guard := guardIdempotencyUpdate

@[simp] theorem recordsSchema_check (r : IdempotencyRecord) : recordsSchema.check r = r.check := rfl

/-- The CHECK constraints of `transaction_history`. -/
def TransactionHistory.check (h : TransactionHistory) : Bool :=
  decide (h.walletId ≠ h.counterpartyWalletId) && decide (0 < h.amount.value)

def historyIndexed (rows : List TransactionHistory) : Bool :=
  uniqueBy TransactionHistory.id rows && uniqueBy (fun h => (h.transferId, h.walletId, h.role)) rows

def historySchema : Schema TransactionHistory where
  check := TransactionHistory.check
  indexed := historyIndexed

@[simp] theorem historySchema_check (h : TransactionHistory) :
    historySchema.check h = h.check := rfl

def projectionOf (transferId : Uuid) (rows : List TransactionHistory) : List ProjectedRow :=
  (rows.filter fun h => decide (h.transferId = transferId)).map TransactionHistory.toProjectedRow

structure Database where
  transfers : Table transfersSchema
  records : Table recordsSchema
  history : Table historySchema

def Database.empty : Database where
  transfers := ⟨[], by simp, rfl⟩
  records := ⟨[], by simp, rfl⟩
  history := ⟨[], by simp, rfl⟩

namespace Database

variable {db : Database} {t u : Transfer} {r q : IdempotencyRecord}

def findTransfer (db : Database) (id : Uuid) : Option Transfer :=
  findBy Transfer.id id db.transfers.rows

def recordOf (db : Database) (transferId : Uuid) : Option IdempotencyRecord :=
  findBy IdempotencyRecord.transferId transferId db.records.rows

/-- The projection of a transfer, in the order its rows were inserted. -/
def historyOf (db : Database) (transferId : Uuid) : List ProjectedRow :=
  projectionOf transferId db.history.rows

/-- `findByKey`: the transfer whose record has the key, with the record. -/
def findByKey (db : Database) (clientId : Principal) (key : IdempotencyKey) :
    Option (Transfer × IdempotencyRecord) :=
  (findBy (fun r : IdempotencyRecord => (r.clientId, r.key)) (clientId, key) db.records.rows).bind
    fun r => (db.findTransfer r.transferId).map fun t => (t, r)

def findByQuote (db : Database) (quoteId : Uuid) : Option Transfer :=
  db.transfers.rows.find? fun t => decide (t.fxQuoteId = some quoteId)

theorem transfer_ids (db : Database) : uniqueBy Transfer.id db.transfers.rows = true := by
  have h := db.transfers.indexed
  simp only [transfersSchema, transfersIndexed, Bool.and_eq_true] at h
  exact h.1.1

theorem transfer_quotes (db : Database) : uniqueWhere Transfer.fxQuoteId db.transfers.rows = true := by
  have h := db.transfers.indexed
  simp only [transfersSchema, transfersIndexed, Bool.and_eq_true] at h
  exact h.1.2

theorem record_keys (db : Database) :
    uniqueBy (fun r : IdempotencyRecord => (r.clientId, r.key)) db.records.rows = true := by
  have h := db.records.indexed
  simp only [recordsSchema, recordsIndexed, Bool.and_eq_true] at h
  exact h.1

theorem record_transferIds (db : Database) :
    uniqueBy IdempotencyRecord.transferId db.records.rows = true := by
  have h := db.records.indexed
  simp only [recordsSchema, recordsIndexed, Bool.and_eq_true] at h
  exact h.2

theorem transfer_eq (ht : t ∈ db.transfers.rows) (hu : u ∈ db.transfers.rows) (h : t.id = u.id) :
    t = u := eq_of_uniqueBy db.transfer_ids ht hu h

theorem record_eq (hr : r ∈ db.records.rows) (hq : q ∈ db.records.rows)
    (h : r.transferId = q.transferId) : r = q := eq_of_uniqueBy db.record_transferIds hr hq h

theorem record_eq_of_key (hr : r ∈ db.records.rows) (hq : q ∈ db.records.rows)
    (hc : r.clientId = q.clientId) (hk : r.key = q.key) : r = q :=
  eq_of_uniqueBy db.record_keys hr hq (Prod.ext hc hk)

theorem findTransfer_eq_some_iff {id : Uuid} :
    db.findTransfer id = some t ↔ t ∈ db.transfers.rows ∧ t.id = id :=
  findBy_eq_some_iff db.transfer_ids

theorem findTransfer_eq_none_iff {id : Uuid} :
    db.findTransfer id = none ↔ ∀ t ∈ db.transfers.rows, t.id ≠ id :=
  findBy_eq_none_iff

theorem recordOf_eq_some_iff {id : Uuid} :
    db.recordOf id = some r ↔ r ∈ db.records.rows ∧ r.transferId = id :=
  findBy_eq_some_iff db.record_transferIds

theorem findByKey_eq_some {clientId : Principal} {key : IdempotencyKey}
    (h : db.findByKey clientId key = some (t, r)) :
    r ∈ db.records.rows ∧ r.clientId = clientId ∧ r.key = key ∧
      t ∈ db.transfers.rows ∧ t.id = r.transferId := by
  obtain ⟨q, hq, h⟩ := Option.bind_eq_some_iff.mp h
  obtain ⟨u, hu, h⟩ := Option.map_eq_some_iff.mp h
  cases h
  obtain ⟨hr, hkey⟩ := findBy_some hq
  obtain ⟨ht, hid⟩ := findTransfer_eq_some_iff.mp hu
  exact ⟨hr, congrArg Prod.fst hkey, congrArg Prod.snd hkey, ht, hid⟩

/-- A stored record is found by its key, with its transfer. -/
theorem findByKey_of_mem (hr : r ∈ db.records.rows) (ht : t ∈ db.transfers.rows)
    (hid : t.id = r.transferId) : db.findByKey r.clientId r.key = some (t, r) := by
  have hfind := findBy_of_mem db.record_keys hr
  rw [findByKey, hfind]
  simp [findTransfer_eq_some_iff.mpr ⟨ht, hid⟩]

end Database

end NovaPay.Transaction
