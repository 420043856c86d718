import NovaPay.Library.Relational
import NovaPay.Wire

/-!
# The tables of the Ledger service

`ledger_accounts`, `wallet_balances` and `ledger_transactions` with the constraints of the
migrations. Entries are created with their transaction and are immutable after it, so a transaction
holds its rows of `ledger_entries`; no statement of the service updates or deletes a journal row.
-/

namespace NovaPay.Ledger

open DecimalArithmetic Relational

inductive LedgerAccountType
  | customer
  | fxClearing
  | feeRevenue
deriving DecidableEq, Repr

inductive LedgerAccountStatus
  | active
  | frozen
  | closed
deriving DecidableEq, Repr

structure LedgerAccount where
  id : Uuid
  walletId : Option Uuid
  accountType : LedgerAccountType
  currency : Currency
  normalSide : EntryDirection
  status : LedgerAccountStatus
deriving DecidableEq, Repr

structure WalletBalance where
  ledgerAccountId : Uuid
  currency : Currency
  availableBalance : Money
  version : ℕ
deriving DecidableEq, Repr

structure LedgerEntry where
  ledgerAccountId : Uuid
  sequence : ℕ
  direction : EntryDirection
  amount : Money
  currency : Currency
  fxQuoteId : Option Uuid
  lockedFxRate : Option Rate
deriving DecidableEq, Repr

structure LedgerTransaction where
  id : Uuid
  externalReference : Uuid
  commandHash : Digest
  postingType : PostingType
  sourceCurrency : Currency
  targetCurrency : Currency
  sourceAmount : Money
  targetAmount : Money
  fxQuoteId : Option Uuid
  lockedFxRate : Option Rate
  reversesTransactionId : Option Uuid
  requestId : Uuid
  entries : List LedgerEntry
deriving DecidableEq, Repr

/-- `ledger_accounts_owner_check`. -/
def LedgerAccount.check (a : LedgerAccount) : Bool :=
  decide (a.accountType = .customer) == a.walletId.isSome

/-- The columns of `ledger_accounts_internal_type_currency_key`. -/
def LedgerAccount.internalKey (a : LedgerAccount) : Option (LedgerAccountType × Currency) :=
  if a.accountType = .fxClearing ∨ a.accountType = .feeRevenue then some (a.accountType, a.currency)
  else none

def accountsIndexed (rows : List LedgerAccount) : Bool :=
  uniqueBy LedgerAccount.id rows && uniqueWhere LedgerAccount.walletId rows &&
    uniqueWhere LedgerAccount.internalKey rows

def accountsSchema : Schema LedgerAccount where
  check := LedgerAccount.check
  indexed := accountsIndexed

def balancesSchema : Schema WalletBalance where
  check := fun _ => true
  indexed := uniqueBy WalletBalance.ledgerAccountId

/-- `ledger_transactions_fx_check` of the second migration; a null rate raises nothing. -/
def LedgerTransaction.fxCheck (tx : LedgerTransaction) : Bool :=
  let withoutQuote := decide (tx.sourceCurrency = tx.targetCurrency) && tx.fxQuoteId.isNone &&
    tx.lockedFxRate.isNone
  let withQuote := decide (tx.sourceCurrency ≠ tx.targetCurrency) && tx.fxQuoteId.isSome &&
    tx.lockedFxRate.all (fun r => decide (0 < r.value))
  match tx.postingType with
  | .fxTransfer => withQuote
  | .reversal => withoutQuote || withQuote
  | _ => withoutQuote

/-- The CHECK constraints of `ledger_transactions`. -/
def LedgerTransaction.check (tx : LedgerTransaction) : Bool :=
  decide (0 < tx.sourceAmount.value) && decide (0 < tx.targetAmount.value) && tx.fxCheck &&
    (decide (tx.postingType = .reversal) == tx.reversesTransactionId.isSome)

/-- The CHECK constraints of `ledger_entries`. -/
def LedgerEntry.check (e : LedgerEntry) : Bool :=
  decide (0 < e.sequence) && decide (0 < e.amount.value) &&
    ((e.fxQuoteId.isNone && e.lockedFxRate.isNone) ||
      (e.fxQuoteId.isSome && e.lockedFxRate.all (fun r => decide (0 < r.value))))

/-- The entries of a currency, as a journal reads them. -/
def journal : DoubleEntry.Journal LedgerEntry Uuid ℚ where
  account := LedgerEntry.ledgerAccountId
  side := LedgerEntry.direction
  amount := fun e => e.amount.value

def entriesIn (currency : Currency) (entries : List LedgerEntry) : List LedgerEntry :=
  entries.filter fun e => decide (e.currency = currency)

/-- `novapay_verify_balanced_posting`, the deferred trigger. -/
def verifyBalancedPosting (entries : List LedgerEntry) : Bool :=
  decide (2 ≤ entries.length) && (entries.map LedgerEntry.currency).all fun currency =>
    decide (journal.total .debit (entriesIn currency entries) =
      journal.total .credit (entriesIn currency entries))

def transactionsIndexed (rows : List LedgerTransaction) : Bool :=
  uniqueBy LedgerTransaction.id rows && uniqueBy LedgerTransaction.externalReference rows &&
    uniqueWhere LedgerTransaction.reversesTransactionId rows

/-- A committed transaction passed its checks, those of its entries and the deferred trigger. -/
def transactionsSchema : Schema LedgerTransaction where
  check := fun tx => tx.check && tx.entries.all LedgerEntry.check && verifyBalancedPosting tx.entries
  indexed := transactionsIndexed

structure Database where
  accounts : Table accountsSchema
  balances : Table balancesSchema
  transactions : Table transactionsSchema

def Database.empty : Database where
  accounts := ⟨[], by simp, rfl⟩
  balances := ⟨[], by simp, rfl⟩
  transactions := ⟨[], by simp, rfl⟩

namespace Database

variable {db : Database}

def findByReference (db : Database) (externalReference : Uuid) : Option LedgerTransaction :=
  findBy LedgerTransaction.externalReference externalReference db.transactions.rows

def findAccount (db : Database) (id : Uuid) : Option LedgerAccount :=
  findBy LedgerAccount.id id db.accounts.rows

def findWallet (db : Database) (walletId : Uuid) : Option LedgerAccount :=
  db.accounts.rows.find? fun a => decide (a.walletId = some walletId)

def findClearing (db : Database) (currency : Currency) : Option LedgerAccount :=
  db.accounts.rows.find? fun a => decide (a.accountType = .fxClearing) && decide (a.currency = currency)

def findBalance (db : Database) (ledgerAccountId : Uuid) : Option WalletBalance :=
  findBy WalletBalance.ledgerAccountId ledgerAccountId db.balances.rows

/-- All committed entries. -/
def entries (db : Database) : List LedgerEntry := db.transactions.rows.flatMap LedgerTransaction.entries

theorem account_ids (db : Database) : uniqueBy LedgerAccount.id db.accounts.rows = true := by
  have h := db.accounts.indexed
  simp only [accountsSchema, accountsIndexed, Bool.and_eq_true] at h
  exact h.1.1

theorem wallet_ids (db : Database) : uniqueWhere LedgerAccount.walletId db.accounts.rows = true := by
  have h := db.accounts.indexed
  simp only [accountsSchema, accountsIndexed, Bool.and_eq_true] at h
  exact h.1.2

theorem balance_ids (db : Database) :
    uniqueBy WalletBalance.ledgerAccountId db.balances.rows = true := db.balances.indexed

theorem transaction_ids (db : Database) :
    uniqueBy LedgerTransaction.id db.transactions.rows = true := by
  have h := db.transactions.indexed
  simp only [transactionsSchema, transactionsIndexed, Bool.and_eq_true] at h
  exact h.1.1

theorem external_references (db : Database) :
    uniqueBy LedgerTransaction.externalReference db.transactions.rows = true := by
  have h := db.transactions.indexed
  simp only [transactionsSchema, transactionsIndexed, Bool.and_eq_true] at h
  exact h.1.2

theorem findByReference_eq_some_iff {externalReference : Uuid} {tx : LedgerTransaction} :
    db.findByReference externalReference = some tx ↔
      tx ∈ db.transactions.rows ∧ tx.externalReference = externalReference :=
  findBy_eq_some_iff db.external_references

theorem findAccount_eq_some_iff {id : Uuid} {a : LedgerAccount} :
    db.findAccount id = some a ↔ a ∈ db.accounts.rows ∧ a.id = id :=
  findBy_eq_some_iff db.account_ids

theorem findBalance_eq_some_iff {id : Uuid} {b : WalletBalance} :
    db.findBalance id = some b ↔ b ∈ db.balances.rows ∧ b.ledgerAccountId = id :=
  findBy_eq_some_iff db.balance_ids

end Database

end NovaPay.Ledger
