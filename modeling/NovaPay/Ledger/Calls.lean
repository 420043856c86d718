import NovaPay.Library.TransitionSystem
import NovaPay.Ledger.Posting

/-!
# Calls of the Ledger service

`provision`, `post`, `fund` and `reverse` as calls that interleave between their statements. A
posting transaction is serializable, so an attempt either takes effect at one instant or fails
without effect.
-/

namespace NovaPay.Ledger

open DecimalArithmetic Relational TransitionSystem

inductive Request
  | provision (walletId : UuidText) (currency : Currency)
  | post (command : PostingCommand) (failBeforeCommit : Bool)
  | fund (command : FundWallet)
  | reverse (transactionId : Uuid) (command : ReversePosting)
deriving DecidableEq, Repr

structure LedgerBalance where
  walletId : Uuid
  ledgerAccountId : Uuid
  available : Text
  currency : Currency
  version : ℕ
deriving DecidableEq, Repr

/-- Where `ensureClearingAccount` is. -/
inductive EnsureClearing
  | find
  | create
  | refind
  | done (id : Uuid)
deriving DecidableEq, Repr

/-- A posting on its way to be committed: the resolved command, its hash and the test option. -/
structure Attempted where
  posting : ResolvedPosting
  commandHash : Digest
  failBeforeCommit : Bool
deriving DecidableEq, Repr

/-- The statement a call waits at. -/
inductive Pc
  | provisionFind (walletId : UuidText) (currency : Currency)
  | provisionCreate (walletId : UuidText) (currency : Currency)
  | provisionRefind (walletId : UuidText) (currency : Currency)
  | postLookup (command : PostingCommand) (failBeforeCommit : Bool)
  | postAccounts (command : PostingCommand) (failBeforeCommit : Bool)
  | postClearing (command : PostingCommand) (failBeforeCommit : Bool)
      (entries : List ResolvedEntry) (source target : EnsureClearing)
  | fundAccount (command : FundWallet)
  | fundClearing (command : FundWallet) (customerId : Uuid) (clearing : EnsureClearing)
  | fundLookup (command : FundWallet) (customerId clearingId : Uuid)
  | reverseRead (transactionId : Uuid) (command : ReversePosting)
  | reverseLookup (command : ReversePosting) (original : LedgerTransaction) (reversed : Bool)
  | attempt (attempted : Attempted) (number : ℕ)
  | recover (externalReference : Uuid) (commandHash : Digest)
deriving DecidableEq, Repr

inductive Outcome
  | posting (response : LedgerPosting)
  | balance (response : LedgerBalance)
  | error (error : HttpError)
deriving DecidableEq, Repr

/-- What the database makes of an attempt. In a conflict the transaction read an older state than
the one in which its reference was taken. -/
inductive AttemptFate
  | commit
  | serializationFailure
  | conflict
deriving DecidableEq, Repr

/-- The ids and the fate a step draws, and which of two clearing accounts it works on. -/
structure Choice where
  id : Uuid := 0
  source : Bool := true
  fate : AttemptFate := .commit

inductive Next
  | goto (pc : Pc)
  | answer (outcome : Outcome)
deriving DecidableEq, Repr

def toBalance (account : LedgerAccount) (balance : Option WalletBalance) : Outcome :=
  match account.walletId, balance with
  | some walletId, some b => .balance {
      walletId := walletId
      ledgerAccountId := account.id
      available := toFixed 8 b.availableBalance.value
      currency := account.currency
      version := b.version }
  | _, _ => .error internalServerError

/-- `validateResolved` and the entry to the retry loop. -/
def enterPostResolved (attempted : Attempted) : Next :=
  match validateResolved attempted.posting with
  | .ok () => .goto (.attempt attempted 1)
  | .error error => .answer (.error error)

section Statements

variable (config : Config) (c : Choice) (db : Database)

def runProvisionFind (walletId : UuidText) (currency : Currency) : Next :=
  match db.findWallet walletId.value with
  | some existing =>
    if existing.currency ≠ currency then .answer (.error accountMismatch)
    else .answer (toBalance existing (db.findBalance existing.id))
  | none => .goto (.provisionCreate walletId currency)

def runProvisionCreate (walletId : UuidText) (currency : Currency) : Database × Next :=
  let account := customerAccount c.id walletId.value currency
  match createAccount db account with
  | .ok db' => (db', .answer (toBalance account (db'.findBalance account.id)))
  | .error .uniqueViolation => (db, .goto (.provisionRefind walletId currency))
  | .error .rejected => (db, .answer (.error internalServerError))

def runProvisionRefind (walletId : UuidText) (currency : Currency) : Next :=
  match db.findWallet walletId.value with
  | some winner =>
    if winner.currency = currency then .answer (toBalance winner (db.findBalance winner.id))
    else .answer (.error internalServerError)
  | none => .answer (.error internalServerError)

/-- One statement of `ensureClearingAccount`. -/
def runEnsureClearing (currency : Currency) : EnsureClearing → Database × Except HttpError EnsureClearing
  | .find =>
    match db.findClearing currency with
    | some existing => (db, .ok (.done existing.id))
    | none => (db, .ok .create)
  | .create =>
    match createAccount db (clearingAccount c.id currency) with
    | .ok db' => (db', .ok (.done c.id))
    | .error .uniqueViolation => (db, .ok .refind)
    | .error .rejected => (db, .error internalServerError)
  | .refind =>
    match db.findClearing currency with
    | some existing => (db, .ok (.done existing.id))
    | none => (db, .error internalServerError)
  | .done id => (db, .ok (.done id))

/-- A duplicate check: the answer to a duplicate, or what follows. -/
def afterLookup (externalReference : Uuid) (commandHash : Digest) (next : Next) : Next :=
  match findIdempotent db externalReference commandHash with
  | .ok (some prior) => .answer (.posting prior)
  | .ok none => next
  | .error error => .answer (.error error)

def attemptPost (command : PostingCommand) (failBeforeCommit : Bool) (entries : List ResolvedEntry) :
    Next :=
  enterPostResolved ⟨resolvePosting command entries, postHash config command, failBeforeCommit⟩

def runPostAccounts (command : PostingCommand) (failBeforeCommit : Bool) : Next :=
  match resolveEntries db command with
  | .error error => .answer (.error error)
  | .ok entries =>
    if command.postingType = .fxTransfer then
      .goto (.postClearing command failBeforeCommit entries .find .find)
    else attemptPost config command failBeforeCommit entries

/-- `Promise.all` of two `ensureClearingAccount`; the step works on one of them. -/
def runPostClearing (command : PostingCommand) (failBeforeCommit : Bool)
    (entries : List ResolvedEntry) (source target : EnsureClearing) : Database × Next :=
  let (db', result) :=
    if c.source then runEnsureClearing c db command.sourceCurrency source
    else runEnsureClearing c db command.targetCurrency target
  match result with
  | .error error => (db', .answer (.error error))
  | .ok side =>
    let source' := if c.source then side else source
    let target' := if c.source then target else side
    match source', target' with
    | .done sourceId, .done targetId =>
      (db', attemptPost config command failBeforeCommit
        (entries ++ clearingEntries command sourceId targetId))
    | _, _ => (db', .goto (.postClearing command failBeforeCommit entries source' target'))

def runFundAccount (command : FundWallet) : Next :=
  match db.findWallet command.walletId.value with
  | some customer =>
    if customer.currency ≠ command.currency ∨ customer.status ≠ .active then
      .answer (.error accountNotFound)
    else .goto (.fundClearing command customer.id .find)
  | none => .answer (.error accountNotFound)

def runFundClearing (command : FundWallet) (customerId : Uuid) (clearing : EnsureClearing) :
    Database × Next :=
  match runEnsureClearing c db command.currency clearing with
  | (db', .ok (.done clearingId)) => (db', .goto (.fundLookup command customerId clearingId))
  | (db', .ok clearing') => (db', .goto (.fundClearing command customerId clearing'))
  | (db', .error error) => (db', .answer (.error error))

def runFundLookup (command : FundWallet) (customerId clearingId : Uuid) : Next :=
  afterLookup db command.externalReference.value (fundHash config command)
    (enterPostResolved ⟨resolveFunding command clearingId customerId, fundHash config command, false⟩)

def runReverseRead (transactionId : Uuid) (command : ReversePosting) : Next :=
  match findBy LedgerTransaction.id transactionId db.transactions.rows with
  | none => .answer (.error postingNotFound)
  | some original =>
    if original.postingType = .reversal then .answer (.error reversalOfReversal)
    else .goto (.reverseLookup command original
      (db.transactions.rows.any fun tx => decide (tx.reversesTransactionId = some original.id)))

def runReverseLookup (command : ReversePosting) (original : LedgerTransaction) (reversed : Bool) :
    Next :=
  afterLookup db command.externalReference.value (reverseHash config original.id command)
    (if reversed then .answer (.error alreadyReversed)
    else enterPostResolved
      ⟨resolveReversal command original, reverseHash config original.id command, false⟩)

/-- `handlePostingFailure`, and the loop that retries a serialization failure. -/
def afterFailure (attempted : Attempted) (number : ℕ) : PostingFailure → Next
  | .http error => .answer (.error error)
  | .uniqueViolation => .goto (.recover attempted.posting.externalReference attempted.commandHash)
  | .serializationFailure =>
    if number < 3 then .goto (.attempt attempted (number + 1))
    else .answer (.error internalServerError)
  | .other => .answer (.error internalServerError)

/-- Whether a committed transaction holds a value that the posting's unique columns would take. -/
def holdsReference (posting : ResolvedPosting) : Bool :=
  db.transactions.rows.any fun tx => decide (tx.externalReference = posting.externalReference) ||
    (posting.reversesTransactionId.isSome &&
      decide (tx.reversesTransactionId = posting.reversesTransactionId))

def runAttempt (attempted : Attempted) (number : ℕ) : Database × Next :=
  match c.fate with
  | .commit =>
    match commitPosting db attempted.posting attempted.commandHash c.id with
    | .ok (db', tx) =>
      if attempted.failBeforeCommit then (db, .answer (.error internalServerError))
      else (db', .answer (.posting (toResponse tx)))
    | .error failure => (db, afterFailure attempted number failure)
  | .serializationFailure => (db, afterFailure attempted number .serializationFailure)
  | .conflict =>
    if holdsReference db attempted.posting then (db, afterFailure attempted number .uniqueViolation)
    else (db, .goto (.attempt attempted number))

def runRecover (externalReference : Uuid) (commandHash : Digest) : Next :=
  afterLookup db externalReference commandHash (.answer (.error postingConflict))

def advance : Pc → Database × Next
  | .provisionFind walletId currency => (db, runProvisionFind db walletId currency)
  | .provisionCreate walletId currency => runProvisionCreate c db walletId currency
  | .provisionRefind walletId currency => (db, runProvisionRefind db walletId currency)
  | .postLookup command failBeforeCommit =>
    (db, afterLookup db command.externalReference.value (postHash config command)
      (.goto (.postAccounts command failBeforeCommit)))
  | .postAccounts command failBeforeCommit =>
    (db, runPostAccounts config db command failBeforeCommit)
  | .postClearing command failBeforeCommit entries source target =>
    runPostClearing config c db command failBeforeCommit entries source target
  | .fundAccount command => (db, runFundAccount db command)
  | .fundClearing command customerId clearing => runFundClearing c db command customerId clearing
  | .fundLookup command customerId clearingId =>
    (db, runFundLookup config db command customerId clearingId)
  | .reverseRead transactionId command => (db, runReverseRead db transactionId command)
  | .reverseLookup command original reversed =>
    (db, runReverseLookup config db command original reversed)
  | .attempt attempted number => runAttempt c db attempted number
  | .recover externalReference commandHash =>
    (db, runRecover db externalReference commandHash)

end Statements

/-- The answer of the validation pipe to a body that breaks a pattern. -/
def validationError : HttpError := ⟨400, "VALIDATION_ERROR", "Request validation failed."⟩

/-- The checks before the first await, and that await. -/
def Request.entry (config : Config) : Request → Next
  | .provision walletId currency => .goto (.provisionFind walletId currency)
  | .post command failBeforeCommit =>
    if !validPosting command then .answer (.error validationError)
    else
      match validateFxShape command with
      | .ok () => .goto (.postLookup command failBeforeCommit)
      | .error error => .answer (.error error)
  | .fund command =>
    if config.enableTestFunding then .goto (.fundAccount command)
    else .answer (.error testFundingDisabled)
  | .reverse transactionId command => .goto (.reverseRead transactionId command)

/-- A call runs, has answered, or was stopped. -/
inductive Progress
  | running (pc : Pc)
  | answered (outcome : Outcome)
  | stopped
deriving DecidableEq, Repr

structure Call where
  request : Request
  progress : Progress
deriving DecidableEq, Repr

structure State (ι : Type) where
  db : Database
  calls : ι → Option Call

inductive Action (ι : Type)
  | start (i : ι) (request : Request)
  | refuse (i : ι) (request : Request) (error : HttpError)
  | run (i : ι) (choice : Choice)
  | stop (i : ι)

/-- The call an action is a step of. -/
def Action.call {ι : Type} : Action ι → ι
  | .start i _ | .refuse i _ _ | .run i _ | .stop i => i

def Next.progress : Next → Progress
  | .goto pc => .running pc
  | .answer outcome => .answered outcome

variable {ι : Type} [DecidableEq ι]

namespace State

def initial : State ι := ⟨.empty, fun _ => none⟩

def withDb (s : State ι) (db : Database) : State ι := { s with db }

def setCall (s : State ι) (i : ι) (call : Call) : State ι :=
  { s with calls := Function.update s.calls i (some call) }

variable {s : State ι} {i j : ι} {call : Call} {db : Database}

@[simp] theorem setCall_db : (s.setCall i call).db = s.db := rfl

@[simp] theorem setCall_calls_self : (s.setCall i call).calls i = some call := Function.update_self ..

theorem setCall_calls_of_ne (h : j ≠ i) : (s.setCall i call).calls j = s.calls j :=
  Function.update_of_ne h ..

end State

/-- A call that is refused never reaches the service: it is answered by what stands before it. -/
def step (config : Config) (s : State ι) : Action ι → Option (State ι)
  | .start i request =>
    match s.calls i with
    | none => some (s.setCall i ⟨request, (request.entry config).progress⟩)
    | some _ => none
  | .refuse i request error =>
    match s.calls i with
    | none => some (s.setCall i ⟨request, .answered (.error error)⟩)
    | some _ => none
  | .run i choice =>
    match s.calls i with
    | some ⟨request, .running pc⟩ =>
      let (db, next) := advance config choice s.db pc
      some ((s.withDb db).setCall i ⟨request, next.progress⟩)
    | _ => none
  | .stop i =>
    match s.calls i with
    | some ⟨request, .running _⟩ => some (s.setCall i ⟨request, .stopped⟩)
    | _ => none

def system (ι : Type) [DecidableEq ι] (config : Config) : System (State ι) (Action ι) :=
  ⟨.initial, step config⟩

end NovaPay.Ledger
