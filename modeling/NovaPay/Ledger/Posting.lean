import Mathlib.Data.List.Sort
import NovaPay.Ledger.Schema

/-!
# Postings

Commands of the Ledger, what `PostingService` resolves them to, and the serializable transaction
that commits one.
-/

namespace NovaPay.Ledger

open DecimalArithmetic Relational

structure FundWallet where
  externalReference : UuidText
  requestId : UuidText
  walletId : UuidText
  amount : MoneyText
  currency : Currency
deriving DecidableEq, Repr

structure ReversePosting where
  externalReference : UuidText
  requestId : UuidText
deriving DecidableEq, Repr

structure ResolvedEntry where
  ledgerAccountId : Uuid
  direction : EntryDirection
  amount : ℚ
  currency : Currency
  fxQuoteId : Option Uuid
  lockedFxRate : Option ℚ
deriving DecidableEq, Repr

structure ResolvedPosting where
  externalReference : Uuid
  requestId : Uuid
  postingType : PostingType
  sourceCurrency : Currency
  targetCurrency : Currency
  sourceAmount : ℚ
  targetAmount : ℚ
  fxQuoteId : Option Uuid
  lockedFxRate : Option ℚ
  reversesTransactionId : Option Uuid
  entries : List ResolvedEntry
deriving DecidableEq, Repr

structure Config where
  sha256 : Json → Digest
  /-- Whether `localeCompare` puts the sort key of the first entry at or before the second's. -/
  localeCompare : PostingEntry → PostingEntry → Bool
  enableTestFunding : Bool

def accountNotFound : HttpError :=
  ⟨404, "LEDGER_ACCOUNT_NOT_FOUND", "Ledger account not found."⟩

def accountsNotFound : HttpError :=
  ⟨404, "LEDGER_ACCOUNT_NOT_FOUND", "One or more ledger accounts were not found."⟩

def accountUnavailable : HttpError :=
  ⟨409, "LEDGER_ACCOUNT_UNAVAILABLE", "A ledger account is unavailable or uses another currency."⟩

def accountMismatch : HttpError :=
  ⟨409, "LEDGER_ACCOUNT_MISMATCH", "The wallet is already provisioned with another currency."⟩

def postingNotFound : HttpError := ⟨404, "POSTING_NOT_FOUND", "Ledger posting not found."⟩

def reversalOfReversal : HttpError :=
  ⟨409, "REVERSAL_OF_REVERSAL_NOT_ALLOWED", "A reversal cannot itself be reversed."⟩

def alreadyReversed : HttpError :=
  ⟨409, "POSTING_ALREADY_REVERSED", "The ledger posting has already been reversed."⟩

def testFundingDisabled : HttpError :=
  ⟨403, "TEST_FUNDING_DISABLED", "Controlled test funding is disabled."⟩

def insufficientFunds : HttpError :=
  ⟨422, "INSUFFICIENT_FUNDS", "The wallet has insufficient available funds."⟩

def postingConflict : HttpError :=
  ⟨409, "POSTING_CONFLICT", "The posting conflicts with an existing ledger operation."⟩

def invalidFxPosting : HttpError :=
  ⟨422, "INVALID_FX_POSTING", "Posting currencies and FX fields are inconsistent."⟩

def invalidPostingAmount : HttpError :=
  ⟨422, "INVALID_POSTING_AMOUNT", "Posting amounts must be positive."⟩

def invalidEntryAmount : HttpError :=
  ⟨422, "INVALID_POSTING_AMOUNT", "Ledger entry amounts must be positive."⟩

def invalidFxRate : HttpError := ⟨422, "INVALID_FX_RATE", "The locked FX rate must be positive."⟩

def unbalancedPosting : HttpError :=
  ⟨422, "UNBALANCED_POSTING", "Debits and credits must balance independently per currency."⟩

def postingTotalMismatch : HttpError :=
  ⟨422, "POSTING_TOTAL_MISMATCH", "Posting metadata must match the balanced journal totals."⟩

def idempotencyKeyReused : HttpError :=
  ⟨409, "IDEMPOTENCY_KEY_REUSED",
    "The external reference was already used with a different command."⟩

/-- The 4xx rejections of `PostingService.post`. -/
def postRejections : List HttpError :=
  [invalidFxPosting, idempotencyKeyReused, accountsNotFound, accountUnavailable,
    invalidPostingAmount, invalidEntryAmount, invalidFxRate, unbalancedPosting,
    postingTotalMismatch, insufficientFunds, postingConflict]

/-- The patterns of `CreatePostingDto`. -/
def validPosting (command : PostingCommand) : Bool :=
  (decide (command.postingType = .transfer) || decide (command.postingType = .fxTransfer) ||
    decide (command.postingType = .fee)) &&
  isMoney command.sourceAmount && isMoney command.targetAmount &&
  command.lockedFxRate.all isRate &&
  decide (2 ≤ command.entries.length) && decide (command.entries.length ≤ 8) &&
  command.entries.all fun entry => isMoney entry.amount

def validateFxShape (command : PostingCommand) : Except HttpError Unit :=
  let valid :=
    if command.postingType = .fxTransfer then
      decide (command.sourceCurrency ≠ command.targetCurrency) && command.fxQuoteId.isSome &&
        command.lockedFxRate.isSome
    else
      decide (command.sourceCurrency = command.targetCurrency) && command.fxQuoteId.isNone &&
        command.lockedFxRate.isNone
  if valid then .ok () else .error invalidFxPosting

def money (text : Text) : Text := toFixed 8 text.value

def rate (text : Text) : Text := toFixed 12 text.value

def PostingType.text : PostingType → String
  | .transfer => "TRANSFER"
  | .fxTransfer => "FX_TRANSFER"
  | .fee => "FEE"
  | .reversal => "REVERSAL"
  | .funding => "FUNDING"

def directionText : EntryDirection → String
  | .debit => "DEBIT"
  | .credit => "CREDIT"

/-- An entry with its members as Transaction sends them. The source keeps the order in which they arrive
and hashes it; commands in which they arrive in other orders are `ArrivedPosting`s. -/
def entryJson (entry : PostingEntry) : Json :=
  .object [
    ("walletId", .uuid entry.walletId),
    ("direction", .text (directionText entry.direction)),
    ("amount", .decimal entry.amount),
    ("currency", .currency entry.currency)]

def normalizeCommand (config : Config) (command : PostingCommand) : Json :=
  .object [
    ("externalReference", .uuid command.externalReference),
    ("postingType", .text (PostingType.text command.postingType)),
    ("sourceCurrency", .currency command.sourceCurrency),
    ("targetCurrency", .currency command.targetCurrency),
    ("sourceAmount", .decimal (money command.sourceAmount)),
    ("targetAmount", .decimal (money command.targetAmount)),
    ("lockedFxRate", (command.lockedFxRate.map fun r => Json.decimal (rate r)).getD .null),
    ("fxQuoteId", (command.fxQuoteId.map Json.uuid).getD .null),
    ("entries", .array (((command.entries.map fun entry => { entry with amount := money entry.amount }
      ).insertionSort fun left right => config.localeCompare left right = true).map entryJson))]

def postHash (config : Config) (command : PostingCommand) : Digest :=
  config.sha256 (normalizeCommand config command)

def fundHash (config : Config) (command : FundWallet) : Digest :=
  config.sha256 (.object [
    ("kind", .text "FUNDING"),
    ("externalReference", .uuid command.externalReference),
    ("walletId", .uuid command.walletId),
    ("amount", .decimal (money command.amount.val)),
    ("currency", .currency command.currency)])

def reverseHash (config : Config) (originalId : Uuid) (command : ReversePosting) : Digest :=
  config.sha256 (.object [
    ("kind", .text "REVERSAL"),
    ("originalTransactionId", .uuid (.ofUuid originalId)),
    ("externalReference", .uuid command.externalReference)])

/-- `plus` and `minus` of `Prisma.Decimal` keep twenty significant digits. -/
def plus (x y : ℚ) : ℚ := roundSig 20 (x + y)

def minus (x y : ℚ) : ℚ := roundSig 20 (x - y)

/-- A total of `validateResolved`, accumulated in the order of the entries. -/
def resolvedTotal (currency : Currency) (direction : EntryDirection) (entries : List ResolvedEntry) : ℚ :=
  (entries.filter fun e => decide (e.currency = currency) && decide (e.direction = direction)).foldl
    (fun total e => plus total e.amount) 0

def validateResolved (command : ResolvedPosting) : Except HttpError Unit :=
  if command.sourceAmount < 0 ∨ command.targetAmount < 0 then .error invalidPostingAmount
  else if command.lockedFxRate.any (fun r => decide (r < 0)) then .error invalidFxRate
  else if command.entries.any (fun e => decide (e.amount < 0)) then .error invalidEntryAmount
  else if command.entries.any (fun e => decide (resolvedTotal e.currency .debit command.entries ≠
      resolvedTotal e.currency .credit command.entries)) then .error unbalancedPosting
  else if !(command.entries.any (fun e => decide (e.currency = command.sourceCurrency)) &&
      decide (resolvedTotal command.sourceCurrency .debit command.entries = command.sourceAmount) &&
      command.entries.any (fun e => decide (e.currency = command.targetCurrency)) &&
      decide (resolvedTotal command.targetCurrency .credit command.entries = command.targetAmount)) then
    .error postingTotalMismatch
  else .ok ()

/-- The customer entry of a command entry; a wallet id in upper case is not found in the map of
accounts, whose keys PostgreSQL spells in lower case. -/
def resolveEntry (command : PostingCommand) (accounts : List LedgerAccount) (entry : PostingEntry) :
    Except HttpError ResolvedEntry :=
  match accounts.find? fun a => decide (a.walletId.map UuidText.ofUuid = some entry.walletId) with
  | none => .error internalServerError
  | some account =>
    if account.currency ≠ entry.currency ∨ account.status ≠ .active then .error accountUnavailable
    else .ok {
      ledgerAccountId := account.id
      direction := entry.direction
      amount := entry.amount.value
      currency := entry.currency
      fxQuoteId := command.fxQuoteId.map UuidText.value
      lockedFxRate := command.lockedFxRate.map Text.value }

/-- The accounts `post` reads, and the customer entries it resolves with them. -/
def resolveEntries (db : Database) (command : PostingCommand) :
    Except HttpError (List ResolvedEntry) :=
  let walletIds := (command.entries.map PostingEntry.walletId).dedup
  let accounts := db.accounts.rows.filter fun a =>
    a.walletId.any fun w => decide (w ∈ walletIds.map UuidText.value)
  if accounts.length ≠ walletIds.length then .error accountsNotFound
  else command.entries.mapM (resolveEntry command accounts)

/-- The two clearing legs of an FX transfer. -/
def clearingEntries (command : PostingCommand) (sourceClearingId targetClearingId : Uuid) :
    List ResolvedEntry := [
  { ledgerAccountId := sourceClearingId
    direction := .credit
    amount := command.sourceAmount.value
    currency := command.sourceCurrency
    fxQuoteId := command.fxQuoteId.map UuidText.value
    lockedFxRate := command.lockedFxRate.map Text.value },
  { ledgerAccountId := targetClearingId
    direction := .debit
    amount := command.targetAmount.value
    currency := command.targetCurrency
    fxQuoteId := command.fxQuoteId.map UuidText.value
    lockedFxRate := command.lockedFxRate.map Text.value }]

def resolvePosting (command : PostingCommand) (entries : List ResolvedEntry) : ResolvedPosting where
  externalReference := command.externalReference.value
  requestId := command.requestId.value
  postingType := command.postingType
  sourceCurrency := command.sourceCurrency
  targetCurrency := command.targetCurrency
  sourceAmount := command.sourceAmount.value
  targetAmount := command.targetAmount.value
  fxQuoteId := command.fxQuoteId.map UuidText.value
  lockedFxRate := command.lockedFxRate.map Text.value
  reversesTransactionId := none
  entries := entries

def resolveFunding (command : FundWallet) (clearingId customerId : Uuid) : ResolvedPosting where
  externalReference := command.externalReference.value
  requestId := command.requestId.value
  postingType := .funding
  sourceCurrency := command.currency
  targetCurrency := command.currency
  sourceAmount := command.amount.val.value
  targetAmount := command.amount.val.value
  fxQuoteId := none
  lockedFxRate := none
  reversesTransactionId := none
  entries := [
    { ledgerAccountId := clearingId
      direction := .debit
      amount := command.amount.val.value
      currency := command.currency
      fxQuoteId := none
      lockedFxRate := none },
    { ledgerAccountId := customerId
      direction := .credit
      amount := command.amount.val.value
      currency := command.currency
      fxQuoteId := none
      lockedFxRate := none }]

def resolveReversal (command : ReversePosting) (original : LedgerTransaction) : ResolvedPosting where
  externalReference := command.externalReference.value
  requestId := command.requestId.value
  postingType := .reversal
  sourceCurrency := original.sourceCurrency
  targetCurrency := original.targetCurrency
  sourceAmount := original.sourceAmount.value
  targetAmount := original.targetAmount.value
  fxQuoteId := original.fxQuoteId
  lockedFxRate := original.lockedFxRate.map Numeric.value
  reversesTransactionId := some original.id
  entries := original.entries.map fun entry =>
    { ledgerAccountId := entry.ledgerAccountId
      direction := entry.direction.opposite
      amount := entry.amount.value
      currency := entry.currency
      fxQuoteId := entry.fxQuoteId
      lockedFxRate := entry.lockedFxRate.map Numeric.value }

/-- The balance an account has after the entries, as `postResolved` computes it. -/
def nextBalance (account : LedgerAccount) (balance : ℚ) (entries : List ResolvedEntry) : ℚ :=
  (entries.filter fun e => decide (e.ledgerAccountId = account.id)).foldl
    (fun value e => if e.direction = account.normalSide then plus value e.amount
      else minus value e.amount) balance

def storeRate : Option ℚ → Option (Option Rate)
  | none => some none
  | some r => (Numeric.ofRat? r).map some

/-- A resolved entry as it is stored; `none` when a column cannot hold it. -/
def storeEntry (e : ResolvedEntry) (sequence : ℕ) : Option LedgerEntry := do
  let amount ← (Numeric.ofRat? e.amount : Option Money)
  let lockedFxRate ← storeRate e.lockedFxRate
  return {
    ledgerAccountId := e.ledgerAccountId
    sequence := sequence
    direction := e.direction
    amount := amount
    currency := e.currency
    fxQuoteId := e.fxQuoteId
    lockedFxRate := lockedFxRate }

def storeEntries : ℕ → List ResolvedEntry → Option (List LedgerEntry)
  | _, [] => some []
  | sequence, e :: es => do
    let entry ← storeEntry e sequence
    let entries ← storeEntries (sequence + 1) es
    return entry :: entries

/-- The rows of a posting as they are stored. -/
def storePosting (command : ResolvedPosting) (commandHash : Digest) (id : Uuid) :
    Option LedgerTransaction := do
  let sourceAmount ← (Numeric.ofRat? command.sourceAmount : Option Money)
  let targetAmount ← (Numeric.ofRat? command.targetAmount : Option Money)
  let lockedFxRate ← storeRate command.lockedFxRate
  let entries ← storeEntries 1 command.entries
  return {
    id := id
    externalReference := command.externalReference
    commandHash := commandHash
    postingType := command.postingType
    sourceCurrency := command.sourceCurrency
    targetCurrency := command.targetCurrency
    sourceAmount := sourceAmount
    targetAmount := targetAmount
    fxQuoteId := command.fxQuoteId
    lockedFxRate := lockedFxRate
    reversesTransactionId := command.reversesTransactionId
    requestId := command.requestId
    entries := entries }

/-- Why a posting transaction did not commit. -/
inductive PostingFailure
  | http (error : HttpError)
  | uniqueViolation
  | serializationFailure
  | other
deriving DecidableEq, Repr

def accountAllows (postingType : PostingType) (account : LedgerAccount) (e : ResolvedEntry) : Bool :=
  decide (account.currency = e.currency) &&
    (decide (account.status = .active) ||
      (decide (postingType = .reversal) && decide (account.status = .frozen)))

/-- The accounts of a posting with their locked balances, in the order of their ids. -/
def lockBalances (db : Database) (command : ResolvedPosting) :
    Except PostingFailure (List (LedgerAccount × WalletBalance)) :=
  let accountIds := (command.entries.map ResolvedEntry.ledgerAccountId).dedup
  let accounts := accountIds.filterMap db.findAccount
  if accounts.length ≠ accountIds.length then .error (.http accountsNotFound)
  else if command.entries.any fun e =>
      !(db.findAccount e.ledgerAccountId).any fun a => accountAllows command.postingType a e then
    .error (.http accountUnavailable)
  else
    let locked := accounts.filterMap fun a => (db.findBalance a.id).map fun b => (a, b)
    if locked.length ≠ accountIds.length then .error .other
    else .ok locked

/-- The balance row of an account after the posting, where the column can hold it. -/
def storeBalance (db : Database) (command : ResolvedPosting) (b : WalletBalance) : Option Money :=
  (db.findAccount b.ledgerAccountId).bind fun a =>
    Numeric.ofRat? (nextBalance a b.availableBalance.value command.entries)

/-- The insert of a transaction: its own checks, its unique indexes, then the checks of its entries
and, when the transaction commits, the deferred trigger. -/
def insertPosting (transactions : Table transactionsSchema) (tx : LedgerTransaction) :
    Except PostingFailure (Table transactionsSchema) :=
  if !tx.check then .error .other
  else if !transactionsIndexed (transactions.rows ++ [tx]) then .error .uniqueViolation
  else
    match transactions.insertMany [tx] with
    | .ok transactions' => .ok transactions'
    | .error _ => .error .other

/-- Whether a posting has an entry on the account of a balance. -/
def touches (command : ResolvedPosting) (b : WalletBalance) : Bool :=
  decide (b.ledgerAccountId ∈ command.entries.map ResolvedEntry.ledgerAccountId)

/-- The balance row after the posting. -/
def settle (db : Database) (command : ResolvedPosting) (b : WalletBalance) : WalletBalance :=
  { b with
    availableBalance := (storeBalance db command b).getD b.availableBalance
    version := b.version + 1 }

/-- The updates of the locked balances; one that its column cannot hold fails them all. -/
def settleBalances (db : Database) (command : ResolvedPosting) :
    Except PostingFailure (Table balancesSchema) :=
  if db.balances.rows.any fun b => touches command b && (storeBalance db command b).isNone then
    .error .other
  else
    match db.balances.updateMany (touches command) (settle db command) with
    | .ok (balances, _) => .ok balances
    | .error _ => .error .other

/-- The insert of the transaction and its entries. -/
def recordPosting (db : Database) (command : ResolvedPosting) (commandHash : Digest) (id : Uuid) :
    Except PostingFailure (Table transactionsSchema × LedgerTransaction) :=
  match storePosting command commandHash id with
  | none => .error .other
  | some tx => do
    let transactions ← insertPosting db.transactions tx
    return (transactions, tx)

def checkFunds (command : ResolvedPosting) (locked : List (LedgerAccount × WalletBalance)) :
    Except PostingFailure Unit :=
  if locked.any fun (a, b) => decide (a.accountType = .customer) &&
      decide (nextBalance a b.availableBalance.value command.entries < 0) then
    .error (.http insufficientFunds)
  else .ok ()

/-- The serializable transaction of `postResolved`. -/
def commitPosting (db : Database) (command : ResolvedPosting) (commandHash : Digest) (id : Uuid) :
    Except PostingFailure (Database × LedgerTransaction) := do
  let locked ← lockBalances db command
  checkFunds command locked
  let (transactions, tx) ← recordPosting db command commandHash id
  let balances ← settleBalances db command
  return ({ db with transactions, balances }, tx)

def toResponse (tx : LedgerTransaction) : LedgerPosting where
  id := tx.id
  externalReference := tx.externalReference
  postingType := tx.postingType
  entries := tx.entries.map fun e =>
    { ledgerAccountId := e.ledgerAccountId
      direction := e.direction
      amount := toFixed 8 e.amount.value
      currency := e.currency }

/-- `findIdempotent`: nothing, the earlier posting, or another command under the reference. -/
def findIdempotent (db : Database) (externalReference : Uuid) (commandHash : Digest) :
    Except HttpError (Option LedgerPosting) :=
  match db.findByReference externalReference with
  | none => .ok none
  | some existing =>
    if existing.commandHash ≠ commandHash then .error idempotencyKeyReused
    else .ok (some (toResponse existing))

/-- The row pair `provision` and `ensureClearingAccount` create, in one transaction. -/
def createAccount (db : Database) (account : LedgerAccount) : Except DbError Database := do
  let accounts ← db.accounts.insertMany [account]
  let balances ← db.balances.insertMany [⟨account.id, account.currency, Numeric.zero, 0⟩]
  return { db with accounts, balances }

def customerAccount (id : Uuid) (walletId : Uuid) (currency : Currency) : LedgerAccount :=
  ⟨id, some walletId, .customer, currency, .credit, .active⟩

def clearingAccount (id : Uuid) (currency : Currency) : LedgerAccount :=
  ⟨id, none, .fxClearing, currency, .debit, .active⟩

end NovaPay.Ledger
