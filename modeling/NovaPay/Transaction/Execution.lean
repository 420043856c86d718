import NovaPay.Library.TransitionSystem
import NovaPay.Transaction.Operations

/-!
# Executions of the Transaction service

`createDomestic`, `createInternational` and `reconcile` as executions that interleave at their
awaits. An execution is the request it serves and the statement it waits at; one step runs the
awaited statement and the code up to the next await. A stop of the process leaves the database as
it is between two awaits.
-/

namespace NovaPay.Transaction

open DecimalArithmetic Relational TransitionSystem

abbrev ExecId := ℕ

/-- A request that passed validation. -/
structure CreateRequest where
  clientId : Principal
  key : IdempotencyKey
  command : Command
deriving DecidableEq, Repr

inductive Origin
  | create (request : CreateRequest)
  | reconcile (transferId : Uuid) (force : Bool)
deriving DecidableEq, Repr

/-- The statement an execution waits at, with the locals it still needs. -/
inductive Pc
  | claimLookup (request : CreateRequest)
  | claimInsert (request : CreateRequest)
  | claimRecover (request : CreateRequest)
  | claimQuoteLookup (quoteId : Uuid)
  | databaseNow (transfer : Transfer) (record : IdempotencyRecord)
  | transition (transferId : Uuid)
  | reconcileRead (transferId : Uuid) (force : Bool)
  | reconcileReload (transferId : Uuid)
  | byReference (transfer : Transfer) (force : Bool)
  | claimRetry (transfer : Transfer) (staleBefore : Option ℤ)
  | consume (transfer : Transfer) (quoteId : Uuid)
  | prepare (transfer : Transfer) (quote : QuoteResponse)
  | processRead (transferId : Uuid)
  | validate (transfer : Transfer)
  | post (transfer : Transfer) (sender recipient : WalletValidation) (posting : PostingCommand)
  | complete (transferId : Uuid) (ledgerTransactionId : Option Uuid)
  | fail (transferId : Uuid) (error : HttpError)
  | reread (transferId : Uuid)
deriving DecidableEq

structure Execution where
  origin : Origin
  pc : Option Pc
deriving DecidableEq

/-- `TransferExecutionResult`, or the exception that leaves the service. -/
inductive Outcome
  | result (httpStatus : ℕ) (body : TransferResponse)
  | error (error : HttpError)
deriving DecidableEq, Repr

/-- A request to another service. A posting is kept with the wallets it was sent for. -/
inductive UpstreamCall
  | validation (senderWalletId recipientWalletId : Uuid)
  | byReference (transferId : Uuid)
  | consume (quoteId : Uuid) (command : ConsumeQuote)
  | post (transfer : Transfer) (sender recipient : WalletValidation) (posting : PostingCommand)
deriving DecidableEq

/-- What a step takes from outside: the ids, clock readings and answers it uses. -/
structure Choice where
  ids : ClaimIds := ⟨0, 0, 0⟩
  startedAt : Time := 0
  date : Date := 0
  requestId : UuidText := ⟨0, 0⟩
  account : Except UpstreamError (WalletValidation × WalletValidation) := .error .unavailable
  quote : Reply QuoteResponse := .error .unavailable
  found : Reply LedgerPosting := .error .unavailable
  posting : Reply LedgerPosting := .error .unavailable

structure Config where
  sha256 : Json → Digest
  staleProcessingMs : ℕ

inductive Next
  | goto (pc : Pc)
  | answer (outcome : Outcome)
deriving DecidableEq

def transferNotFound : HttpError := ⟨404, "TRANSFER_NOT_FOUND", "Transfer not found."⟩

def payloadMismatch : HttpError :=
  ⟨409, "IDEMPOTENCY_PAYLOAD_MISMATCH",
    "The idempotency key was already used with a different request."⟩

def keyExpired : HttpError :=
  ⟨409, "IDEMPOTENCY_KEY_EXPIRED", "The idempotency replay window has expired; use a new key."⟩

def quoteAlreadyUsed : HttpError :=
  ⟨409, "QUOTE_ALREADY_USED", "The quote is already bound to another transfer."⟩

def walletAccessDenied : HttpError :=
  ⟨403, "WALLET_ACCESS_DENIED", "The sender wallet is not owned by this principal."⟩

def walletUnavailable : HttpError :=
  ⟨409, "WALLET_UNAVAILABLE", "Both wallets must be active and provisioned."⟩

def currencyMismatch : HttpError :=
  ⟨409, "CURRENCY_MISMATCH", "Domestic transfer wallets and request currency must match."⟩

def accountUnavailable : HttpError :=
  ⟨503, "ACCOUNT_UNAVAILABLE", "Account service is temporarily unavailable."⟩

def processingResult (t : Transfer) : Outcome := .result 202 (toResponse t)

def resultForTransfer (t : Transfer) : Outcome :=
  .result (if t.status.open then 202 else if t.status = .failed then 422 else 201) (toResponse t)

def validateWallets (t : Transfer) (sender recipient : WalletValidation) : Except HttpError Unit :=
  if sender.ownerExternalRef ≠ t.clientId then .error walletAccessDenied
  else if sender.status ≠ .active ∨ recipient.status ≠ .active ∨
      sender.ledgerAccountId = none ∨ recipient.ledgerAccountId = none then
    .error walletUnavailable
  else if sender.currency ≠ t.sourceCurrency ∨ recipient.currency ≠ t.targetCurrency then
    .error currencyMismatch
  else .ok ()

def consumeCommand (t : Transfer) : ConsumeQuote where
  transferId := .ofUuid t.id
  clientId := t.clientId
  sourceCurrency := t.sourceCurrency
  targetCurrency := t.targetCurrency
  sourceAmount := toFixed 8 t.sourceAmount.value

/-- The posting of a transfer that has a target amount. -/
def postingOf (t : Transfer) (targetAmount : Money) (requestId : UuidText) : PostingCommand where
  externalReference := .ofUuid t.id
  requestId := requestId
  postingType := if t.type = .international then .fxTransfer else .transfer
  sourceCurrency := t.sourceCurrency
  targetCurrency := t.targetCurrency
  sourceAmount := toFixed 8 t.sourceAmount.value
  targetAmount := toFixed 8 targetAmount.value
  fxQuoteId := if t.type = .international then t.fxQuoteId.map .ofUuid else none
  lockedFxRate :=
    if t.type = .international then t.lockedFxRate.map fun r => toFixed 12 r.value else none
  entries := [
    { walletId := .ofUuid t.senderWalletId
      direction := .debit
      amount := toFixed 8 t.sourceAmount.value
      currency := t.sourceCurrency },
    { walletId := .ofUuid t.recipientWalletId
      direction := .credit
      amount := toFixed 8 targetAmount.value
      currency := t.targetCurrency }]

/-- The posting `process` builds; `toFixed` of a null amount or rate throws. -/
def postingCommand (t : Transfer) (requestId : UuidText) : Option PostingCommand :=
  match t.targetAmount with
  | some targetAmount =>
    if t.type = .international ∧ t.lockedFxRate = none then none
    else some (postingOf t targetAmount requestId)
  | none => none

/-- Answers that leave an FX or Ledger operation undecided. -/
def undecided (status : ℕ) : Bool := decide (status = 401) || decide (status = 403) || decide (500 ≤ status)

def handleAccountFailure (t : Transfer) : UpstreamError → Next
  | .unavailable => .goto (.fail t.id accountUnavailable)
  | .http error =>
    if error.status = 404 then .goto (.fail t.id error)
    else if undecided error.status then .goto (.fail t.id accountUnavailable)
    else .goto (.fail t.id error)

def handleFxFailure (t : Transfer) : UpstreamError → Next
  | .unavailable => .answer (processingResult t)
  | .http error =>
    if undecided error.status then .answer (processingResult t)
    else .goto (.fail t.id { error with status := if error.status = 404 then 404 else 409 })

def handleLedgerFailure (t : Transfer) : UpstreamError → Next
  | .unavailable => .answer (processingResult t)
  | .http error =>
    if undecided error.status then .answer (processingResult t)
    else .goto (.fail t.id
      { error with status := if error.code = "INSUFFICIENT_FUNDS" then 422 else error.status })

/-- `prepareInternational` up to its first await. -/
def enterPrepareInternational (t : Transfer) : Next :=
  match t.fxQuoteId with
  | some quoteId =>
    if t.status = .pending ∧ t.type = .international then .goto (.consume t quoteId)
    else .answer (resultForTransfer t)
  | none => .answer (resultForTransfer t)

/-- `handleExisting` up to its first await. -/
def enterHandleExisting (config : Config) (request : CreateRequest) (t : Transfer)
    (record : IdempotencyRecord) : Next :=
  if record.requestHash ≠ request.command.requestHash config.sha256 then .answer (.error payloadMismatch)
  else .goto (.databaseNow t record)

def handleExisting (now : Time) (t : Transfer) (record : IdempotencyRecord) : Next :=
  if record.replayExpiresAt ≤ now.toDate then .answer (.error keyExpired)
  else
    match record.responseStatus, record.responseBody with
    | some status, some body =>
      if record.state ≠ .processing ∧ status ≠ 0 then .answer (.result status body)
      else .goto (.reconcileRead t.id false)
    | _, _ => .goto (.reconcileRead t.id false)

def insertClaim (config : Config) (request : CreateRequest) (c : Choice) (db : Database) :
    Except DbError (Database × Transfer) :=
  match request.command with
  | .domestic command =>
    claim db c.ids c.startedAt c.date request.clientId request.key
      (canonicalTransferHash config.sha256 command) command
  | .international command =>
    claimInternational db c.ids c.startedAt c.date request.clientId request.key
      (canonicalInternationalTransferHash config.sha256 command) command

/-- What `createDomestic` and `createInternational` do once their claim created a transfer. -/
def afterClaim (t : Transfer) : Command → Next
  | .domestic _ => .goto (.transition t.id)
  | .international _ => enterPrepareInternational t

/-- `reconcile` after its first read. -/
def reconcileFrom (t : Transfer) (force : Bool) : Next :=
  if t.status = .pending ∧ t.type = .international then .goto (.reconcileReload t.id)
  else if t.status ≠ .processing then .answer (resultForTransfer t)
  else .goto (.byReference t force)

/-- `reconcile` after the Ledger answered; its client makes `null` of a 404. -/
def afterByReference (config : Config) (c : Choice) (t : Transfer) (force : Bool) :
    Reply LedgerPosting → Next
  | .ok posting => .goto (.complete t.id (posting.map LedgerPosting.id))
  | .error .unavailable => .answer (processingResult t)
  | .error (.http error) =>
    if error.status ≠ 404 then .answer (.error internalServerError)
    else if !force && decide ((c.date : ℤ) - config.staleProcessingMs < t.updatedAt) then
      .answer (processingResult t)
    else .goto (.claimRetry t (if force then none else some (c.date - config.staleProcessingMs)))

/-- `process` after the Account answered. -/
def afterValidation (c : Choice) (t : Transfer) :
    Except UpstreamError (WalletValidation × WalletValidation) → Next
  | .error error => handleAccountFailure t error
  | .ok (sender, recipient) =>
    match validateWallets t sender recipient with
    | .error error => .goto (.fail t.id error)
    | .ok () =>
      match postingCommand t c.requestId with
      | some posting => .goto (.post t sender recipient posting)
      | none => .answer (.error internalServerError)

/-- A read of a transfer that throws `TRANSFER_NOT_FOUND`. -/
def withTransfer (db : Database) (transferId : Uuid) (k : Transfer → Next) : Next :=
  match db.findTransfer transferId with
  | some t => k t
  | none => .answer (.error transferNotFound)

/-! One definition for each statement that an execution waits at, with the code that follows it. -/

section Statements

variable (config : Config) (now : Time) (c : Choice) (db : Database)

def runClaimLookup (request : CreateRequest) : Next :=
  match db.findByKey request.clientId request.key with
  | some (t, record) => enterHandleExisting config request t record
  | none => .goto (.claimInsert request)

def runClaimInsert (request : CreateRequest) : Database × Next :=
  match insertClaim config request c db with
  | .ok (db', t) => (db', afterClaim t request.command)
  | .error .uniqueViolation => (db, .goto (.claimRecover request))
  | .error .rejected => (db, .answer (.error internalServerError))

def runClaimRecover (request : CreateRequest) : Next :=
  match db.findByKey request.clientId request.key with
  | some (t, record) => enterHandleExisting config request t record
  | none =>
    match request.command with
    | .international command => .goto (.claimQuoteLookup command.quoteId.value)
    | .domestic _ => .answer (.error internalServerError)

def runClaimQuoteLookup (quoteId : Uuid) : Next :=
  match db.findByQuote quoteId with
  | some _ => .answer (.error quoteAlreadyUsed)
  | none => .answer (.error internalServerError)

def runTransition (transferId : Uuid) : Database × Next :=
  match transition db transferId c.date with
  | .ok db' => (db', .goto (.processRead transferId))
  | .error _ => (db, .answer (.error internalServerError))

def runReconcileReload (transferId : Uuid) : Next :=
  match db.findTransfer transferId with
  | some t => enterPrepareInternational t
  | none => .answer (.error internalServerError)

def runClaimRetry (t : Transfer) (staleBefore : Option ℤ) : Database × Next :=
  match claimProcessingRetry db t staleBefore c.date with
  | .ok (db', true) => (db', .goto (.processRead t.id))
  | .ok (db', false) => (db', .goto (.reread t.id))
  | .error _ => (db, .answer (.error internalServerError))

def runConsume (t : Transfer) : Next :=
  match c.quote with
  | .ok (some quote) => .goto (.prepare t quote)
  | .ok none => .answer (.error internalServerError)
  | .error error => handleFxFailure t error

def runPrepare (t : Transfer) (quote : QuoteResponse) : Database × Next :=
  match prepareInternational db t quote c.ids.senderRowId c.ids.recipientRowId c.date with
  | .ok (db', true) => (db', .goto (.processRead t.id))
  | .ok (db', false) => (db', .goto (.reread t.id))
  | .error _ => (db, .answer (.error internalServerError))

def enterProcess (t : Transfer) : Next :=
  if t.status ≠ .processing then .answer (resultForTransfer t) else .goto (.validate t)

def runPost (t : Transfer) : Next :=
  match c.posting with
  | .ok posting => .goto (.complete t.id (posting.map LedgerPosting.id))
  | .error error => handleLedgerFailure t error

def completedResult (t : Transfer) : Outcome :=
  if t.status = .completed then .result 201 (toResponse t) else resultForTransfer t

def runComplete (transferId : Uuid) (ledgerTransactionId : Option Uuid) : Database × Next :=
  match complete db transferId ledgerTransactionId c.startedAt c.date with
  | .ok (db', t, _) => (db', .answer (completedResult t))
  | .error _ => (db, .answer (.error internalServerError))

def runFail (transferId : Uuid) (error : HttpError) : Database × Next :=
  match fail db transferId error c.date with
  | .ok (db', t, transitioned) =>
    (db', .answer
      (if transitioned then .result error.status (toResponse t) else resultForTransfer t))
  | .error _ => (db, .answer (.error internalServerError))

def advance : Pc → Database × Next
  | .claimLookup request => (db, runClaimLookup config db request)
  | .claimInsert request => runClaimInsert config c db request
  | .claimRecover request => (db, runClaimRecover config db request)
  | .claimQuoteLookup quoteId => (db, runClaimQuoteLookup db quoteId)
  | .databaseNow t record => (db, handleExisting now t record)
  | .transition transferId => runTransition c db transferId
  | .reconcileRead transferId force => (db, withTransfer db transferId fun t => reconcileFrom t force)
  | .reconcileReload transferId => (db, runReconcileReload db transferId)
  | .byReference t force => (db, afterByReference config c t force c.found)
  | .claimRetry t staleBefore => runClaimRetry c db t staleBefore
  | .consume t _ => (db, runConsume c t)
  | .prepare t quote => runPrepare c db t quote
  | .processRead transferId => (db, withTransfer db transferId enterProcess)
  | .validate t => (db, afterValidation c t c.account)
  | .post t _ _ _ => (db, runPost c t)
  | .complete transferId ledgerTransactionId => runComplete c db transferId ledgerTransactionId
  | .fail transferId error => runFail c db transferId error
  | .reread transferId => (db, withTransfer db transferId fun t => .answer (resultForTransfer t))

end Statements

/-- The request to another service that an execution makes when it starts to wait. -/
def Pc.call : Pc → Option UpstreamCall
  | .byReference t _ => some (.byReference t.id)
  | .consume t quoteId => some (.consume quoteId (consumeCommand t))
  | .validate t => some (.validation t.senderWalletId t.recipientWalletId)
  | .post t sender recipient posting => some (.post t sender recipient posting)
  | _ => none

structure State where
  db : Database
  now : Time
  executions : ExecId → Option Execution
  /-- The requests made to other services, the latest first. -/
  calls : List (ExecId × UpstreamCall)
  /-- The answers given, the latest first. -/
  answers : List (ExecId × Outcome)

inductive Action
  | tick (elapsed : ℕ)
  | request (e : ExecId) (origin : Origin)
  | run (e : ExecId) (choice : Choice)
  | stop (e : ExecId)

def State.initial : State := ⟨.empty, 0, fun _ => none, [], []⟩

/-- The checks a request passes before its first await, and that await. -/
def Origin.entry : Origin → Except HttpError Pc
  | .create request => do
    validateIdempotencyKey request.key
    request.command.validate
    return .claimLookup request
  | .reconcile transferId force => .ok (.reconcileRead transferId force)

def Next.pc? : Next → Option Pc
  | .goto pc => some pc
  | .answer _ => none

def Next.outcome? : Next → Option Outcome
  | .goto _ => none
  | .answer outcome => some outcome

namespace State

variable {s : State} {e i : ExecId} {origin : Origin} {next : Next}

/-- The execution goes to its next statement, making the request it waits for, or it answers. -/
def proceed (s : State) (e : ExecId) (origin : Origin) (next : Next) : State :=
  { s with
    executions := Function.update s.executions e (some ⟨origin, next.pc?⟩)
    calls := (next.pc?.bind Pc.call).toList.map (fun call => (e, call)) ++ s.calls
    answers := next.outcome?.toList.map (fun outcome => (e, outcome)) ++ s.answers }

def withDb (s : State) (db : Database) : State := { s with db }

/-- The execution ends without an answer. -/
def stop (s : State) (e : ExecId) (origin : Origin) : State :=
  { s with executions := Function.update s.executions e (some ⟨origin, none⟩) }

@[simp] theorem proceed_db : (s.proceed e origin next).db = s.db := rfl

@[simp] theorem proceed_now : (s.proceed e origin next).now = s.now := rfl

@[simp] theorem proceed_executions_self :
    (s.proceed e origin next).executions e = some ⟨origin, next.pc?⟩ :=
  Function.update_self ..

theorem proceed_executions_of_ne (h : i ≠ e) :
    (s.proceed e origin next).executions i = s.executions i :=
  Function.update_of_ne h ..

@[simp] theorem stop_executions_self : (s.stop e origin).executions e = some ⟨origin, none⟩ :=
  Function.update_self ..

theorem stop_executions_of_ne (h : i ≠ e) : (s.stop e origin).executions i = s.executions i :=
  Function.update_of_ne h ..

theorem mem_proceed_answers {outcome : Outcome} : (i, outcome) ∈ (s.proceed e origin next).answers ↔
    (i = e ∧ next = .answer outcome) ∨ (i, outcome) ∈ s.answers := by
  cases next <;> simp [proceed, Next.outcome?, eq_comm]

theorem mem_proceed_calls {call : UpstreamCall} : (i, call) ∈ (s.proceed e origin next).calls ↔
    (i = e ∧ ∃ pc, next = .goto pc ∧ pc.call = some call) ∨ (i, call) ∈ s.calls := by
  cases next <;> simp [proceed, Next.pc?, and_comm, eq_comm]

end State

def step (config : Config) (s : State) : Action → Option State
  | .tick elapsed => some { s with now := s.now + elapsed }
  | .request e origin =>
    match s.executions e, origin.entry with
    | none, .ok pc => some (s.proceed e origin (.goto pc))
    | none, .error error => some (s.proceed e origin (.answer (.error error)))
    | some _, _ => none
  | .run e choice =>
    match s.executions e with
    | some ⟨origin, some pc⟩ =>
      if choice.startedAt ≤ s.now then
        let (db, next) := advance config s.now choice s.db pc
        some ((s.withDb db).proceed e origin next)
      else none
    | _ => none
  | .stop e =>
    match s.executions e with
    | some ⟨origin, some _⟩ => some (s.stop e origin)
    | _ => none

def system (config : Config) : System State Action := ⟨.initial, step config⟩

/-- The rows `findStale` selects, before its order and limit. -/
def findStale (config : Config) (db : Database) (date : Date) : List Uuid :=
  (db.transfers.rows.filter fun t =>
    decide ((t.updatedAt : ℤ) ≤ date - config.staleProcessingMs) &&
      (decide (t.status = .processing) ||
        (decide (t.status = .pending) && decide (t.type = .international)))).map Transfer.id

end NovaPay.Transaction
