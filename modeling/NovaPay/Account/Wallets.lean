import NovaPay.Account.Clients
import NovaPay.Library.TransitionSystem

/-!
# Wallet calls

`create` and `reconcile` of the wallet service as calls that interleave between their statements and their
requests to the Ledger and to Admin. An operator may set the status of a wallet at any time.
-/

namespace NovaPay.Account

open DecimalArithmetic JsonText Relational TransitionSystem

/-- `CreateWalletDto` -/
structure CreateWallet where
  currency : Currency
  label : Option String
deriving DecidableEq, Repr

/-- The arguments of `create`. -/
structure Create where
  externalRef : ExternalRef
  idempotencyKey : IdempotencyKey
  command : CreateWallet
deriving DecidableEq

inductive Request
  | create (c : Create)
  | reconcile (walletId : Uuid)

/-- The statement or request that a call waits at; without a command it is a call of `reconcile`. -/
inductive Pc
  | findUser (c : Create)
  | refreshUser (c : Create) (existing : User)
  | createUser (c : Create)
  | findUserAgain (c : Create)
  | findRecord (c : Create) (user : User)
  | findCurrency (c : Create) (user : User)
  | insertWallet (c : Create) (user : User)
  | findWinner (c : Create) (user : User)
  | findWallet (walletId : Uuid)
  | provision (c? : Option Create) (wallet : Wallet)
  | activate (c? : Option Create) (wallet : Wallet) (provisioned : ProvisionedAccount)
  | recordActivation (c : Create) (active : Wallet) (provisioned : ProvisionedAccount)

/-- `WalletResponseDto` -/
structure WalletResponse where
  id : Uuid
  currency : Currency
  label : Option String
  status : WalletStatus
  ledgerAccountId : Option Uuid
  available : Text
  balanceCurrency : Currency
  version : ℕ
deriving DecidableEq, Repr

inductive Outcome
  | wallet (response : WalletResponse)
  | error (error : HttpError)
deriving DecidableEq, Repr

inductive Next
  | goto (pc : Pc)
  | answer (outcome : Outcome)

/-- A call runs, has answered, or was stopped. -/
inductive Progress
  | running (pc : Pc)
  | answered (outcome : Outcome)
  | stopped

def Progress.outcome? : Progress → Option Outcome
  | .answered outcome => some outcome
  | _ => none

def Next.progress : Next → Progress
  | .goto pc => .running pc
  | .answer outcome => .answered outcome

structure Call where
  request : Request
  progress : Progress

/-- The tables of Account, the accounts of the Ledger and the events of Admin. -/
structure World where
  db : Database
  accounts : LedgerAccounts
  events : List AuditEvent

structure State (ι : Type) where
  world : World
  calls : ι → Option Call

/-- What the clock, the random draws, the ids and the two other services give a step. -/
structure Choice where
  id : Uuid
  now : Date
  nonces : Nonces
  delivery : Delivery
  accountId : Uuid
  available : Text
  version : ℕ

def invalidIdempotencyKey : HttpError :=
  ⟨409, "INVALID_IDEMPOTENCY_KEY", "Idempotency-Key must contain 1 to 128 visible ASCII characters."⟩

def idempotencyMismatch : HttpError :=
  ⟨409, "IDEMPOTENCY_KEY_REUSED", "The idempotency key was already used with a different request."⟩

def walletAlreadyExists : HttpError :=
  ⟨409, "WALLET_ALREADY_EXISTS", "A wallet already exists for this currency."⟩

def walletNotFound : HttpError := ⟨404, "WALLET_NOT_FOUND", "Wallet not found."⟩

/-- `^[\x21-\x7E]{1,128}$` -/
def isIdempotencyKey (value : IdempotencyKey) : Bool :=
  decide (1 ≤ value.length) && decide (value.length ≤ 128) &&
    value.toList.all fun c => decide (0x21 ≤ c.toNat) && decide (c.toNat ≤ 0x7E)

/-- `command.label?.trim()` -/
def CreateWallet.trimmed (command : CreateWallet) : Option String := command.label.map trim

def hashCommand (crypto : Crypto) (command : CreateWallet) : Digest :=
  crypto.sha256 (stringify Double.jsonFormat (.object [
    ("currency", .string (currencyText command.currency)),
    ("label", command.trimmed.elim .null .string)]))

def toWallet (wallet : Wallet) (balance : ProvisionedAccount) : WalletResponse where
  id := wallet.id
  currency := wallet.currency
  label := wallet.label
  status := wallet.status
  ledgerAccountId := wallet.ledgerAccountId
  available := balance.available
  balanceCurrency := balance.currency
  version := balance.version

/-! ### Statements -/

section Statements

variable (config : Config) (choice : Choice) (db : Database)

def runFindUser (c : Create) : Next :=
  match db.findUser c.externalRef with
  | some existing =>
    if existing.identityCiphertext.length = 0 then .goto (.refreshUser c existing)
    else .goto (.findRecord c existing)
  | none => .goto (.createUser c)

/-- The update of a row by its id, which throws when there is none. -/
def runRefreshUser (c : Create) (existing : User) : Database × Next :=
  match db.users.updateMany (fun row => decide (row.id = existing.id))
    (fun row => row.identified (encrypt config choice.nonces existing.id .none) choice.now) with
  | .ok (users, _) =>
    match findBy User.id existing.id users.rows with
    | some user => ({ db with users }, .goto (.findRecord c user))
    | none => (db, .answer (.error internalServerError))
  | .error _ => (db, .answer (.error internalServerError))

def newUser (externalRef : ExternalRef) : User where
  toEncryptedIdentity := encrypt config choice.nonces choice.id .none
  id := choice.id
  externalRef := externalRef
  status := .active
  updatedAt := choice.now

def runCreateUser (c : Create) : Database × Next :=
  match db.users.insertMany [newUser config choice c.externalRef] with
  | .ok users => ({ db with users }, .goto (.findRecord c (newUser config choice c.externalRef)))
  | .error .uniqueViolation => (db, .goto (.findUserAgain c))
  | .error .rejected => (db, .answer (.error internalServerError))

def runFindUserAgain (c : Create) : Next :=
  match db.findUser c.externalRef with
  | some user => .goto (.findRecord c user)
  | none => .answer (.error internalServerError)

/-- How `create` goes on from the record of its key. -/
def resume (c : Create) (record : WalletIdempotencyRecord) (wallet : Wallet) : Next :=
  if record.requestHash ≠ hashCommand config.crypto c.command then .answer (.error idempotencyMismatch)
  else .goto (.provision (some c) wallet)

def runFindRecord (c : Create) (user : User) : Next :=
  match db.findRecord user.id c.idempotencyKey with
  | some (record, wallet) => resume config c record wallet
  | none => .goto (.findCurrency c user)

def runFindCurrency (c : Create) (user : User) : Next :=
  match db.findCurrency user.id c.command.currency with
  | some _ => .answer (.error walletAlreadyExists)
  | none => .goto (.insertWallet c user)

def newWallet (c : Create) (user : User) : Wallet where
  id := choice.id
  userId := user.id
  currency := c.command.currency
  label := c.command.trimmed
  status := .pending
  ledgerAccountId := none
  createdAt := choice.now
  updatedAt := choice.now

def newRecord (c : Create) (user : User) : WalletIdempotencyRecord where
  userId := user.id
  key := c.idempotencyKey
  requestHash := hashCommand config.crypto c.command
  walletId := choice.id

/-- The transaction that creates a wallet and its record. -/
def insertWallet (c : Create) (user : User) : Except DbError Database := do
  let wallets ← db.wallets.insertMany [newWallet choice c user]
  let records ← db.records.insertMany [newRecord config choice c user]
  return { db with wallets, records }

def runInsertWallet (c : Create) (user : User) : Database × Next :=
  match insertWallet config choice db c user with
  | .ok db' => (db', .goto (.provision (some c) (newWallet choice c user)))
  | .error .uniqueViolation => (db, .goto (.findWinner c user))
  | .error .rejected => (db, .answer (.error internalServerError))

def runFindWinner (c : Create) (user : User) : Next :=
  match db.findRecord user.id c.idempotencyKey with
  | some (record, wallet) => resume config c record wallet
  | none => .answer (.error walletAlreadyExists)

def runFindWallet (walletId : Uuid) : Next :=
  match db.findWallet walletId with
  | some wallet => .goto (.provision none wallet)
  | none => .answer (.error walletNotFound)

def provisionedAccount (account : Ledger.LedgerAccount) (walletId : Uuid) : ProvisionedAccount where
  walletId := walletId
  ledgerAccountId := account.id
  available := choice.available
  currency := account.currency
  version := choice.version

/-- What follows the answer of the Ledger. A call of `create` leaves an active wallet with this account as
it read it; one of `reconcile` always writes. -/
def provisioned (c? : Option Create) (wallet : Wallet) (account : ProvisionedAccount) : Pc :=
  match c? with
  | some c =>
    if wallet.status = .active ∧ wallet.ledgerAccountId = some account.ledgerAccountId then
      .recordActivation c wallet account
    else .activate (some c) wallet account
  | none => .activate none wallet account

def runProvision (accounts : LedgerAccounts) (c? : Option Create) (wallet : Wallet) :
    LedgerAccounts × Next :=
  match provision choice.delivery accounts choice.accountId wallet.id wallet.currency with
  | (accounts', .ok account) =>
    (accounts', .goto (provisioned c? wallet (provisionedAccount choice account wallet.id)))
  | (accounts', .error error) => (accounts', .answer (.error error))

/-- The columns that the update of an activation writes. -/
def Wallet.activated (wallet : Wallet) (ledgerAccountId : Uuid) (now : Date) : Wallet :=
  { wallet with ledgerAccountId := some ledgerAccountId, status := .active, updatedAt := now }

def runActivate (c? : Option Create) (wallet : Wallet) (account : ProvisionedAccount) :
    Database × Next :=
  match db.wallets.updateMany (fun row => decide (row.id = wallet.id))
    (fun row => row.activated account.ledgerAccountId choice.now) with
  | .ok (wallets, _) =>
    match findBy Wallet.id wallet.id wallets.rows with
    | some active => ({ db with wallets }, match c? with
        | some c => .goto (.recordActivation c active account)
        | none => .answer (.wallet (toWallet active account)))
    | none => (db, .answer (.error internalServerError))
  | .error _ => (db, .answer (.error internalServerError))

def runRecordActivation (events : List AuditEvent) (c : Create) (active : Wallet)
    (account : ProvisionedAccount) : List AuditEvent × Next :=
  match append choice.delivery events
    (walletActivated config.crypto active.id c.externalRef active.currency active.updatedAt) with
  | (events', .ok ()) => (events', .answer (.wallet (toWallet active account)))
  | (events', .error error) => (events', .answer (.error error))

end Statements

/-! ### Steps -/

/-- The code before the first statement, and that statement. -/
def Request.entry : Request → Next
  | .create c =>
    if isIdempotencyKey c.idempotencyKey then .goto (.findUser c) else .answer (.error invalidIdempotencyKey)
  | .reconcile walletId => .goto (.findWallet walletId)

/-- The statement or request, and the code up to the next one. -/
def advance (config : Config) (choice : Choice) (w : World) : Pc → World × Next
  | .findUser c => (w, runFindUser w.db c)
  | .refreshUser c existing =>
    let (db, next) := runRefreshUser config choice w.db c existing
    ({ w with db }, next)
  | .createUser c =>
    let (db, next) := runCreateUser config choice w.db c
    ({ w with db }, next)
  | .findUserAgain c => (w, runFindUserAgain w.db c)
  | .findRecord c user => (w, runFindRecord config w.db c user)
  | .findCurrency c user => (w, runFindCurrency w.db c user)
  | .insertWallet c user =>
    let (db, next) := runInsertWallet config choice w.db c user
    ({ w with db }, next)
  | .findWinner c user => (w, runFindWinner config w.db c user)
  | .findWallet walletId => (w, runFindWallet w.db walletId)
  | .provision c? wallet =>
    let (accounts, next) := runProvision choice w.accounts c? wallet
    ({ w with accounts }, next)
  | .activate c? wallet account =>
    let (db, next) := runActivate choice w.db c? wallet account
    ({ w with db }, next)
  | .recordActivation c active account =>
    let (events, next) := runRecordActivation config choice w.events c active account
    ({ w with events }, next)

inductive Action (ι : Type)
  | start (i : ι) (request : Request)
  | run (i : ι) (choice : Choice)
  | stop (i : ι)
  | setStatus (walletId : Uuid) (status : WalletStatus) (now : Date)

variable {ι : Type} [DecidableEq ι]

def World.empty : World := ⟨.empty, Ledger.Database.empty.accounts, []⟩

def State.setCall (s : State ι) (i : ι) (call : Call) : State ι :=
  { s with calls := Function.update s.calls i (some call) }

/-- The columns that an operator writes. -/
def Wallet.operated (wallet : Wallet) (status : WalletStatus) (now : Date) : Wallet :=
  { wallet with status := status, updatedAt := now }

/-- A call that is stopped answers nothing, and what it has written stays. -/
def step (config : Config) (s : State ι) : Action ι → Option (State ι)
  | .start i request =>
    match s.calls i with
    | none => some (s.setCall i ⟨request, request.entry.progress⟩)
    | some _ => none
  | .run i choice =>
    match s.calls i with
    | some ⟨request, .running pc⟩ =>
      let (world, next) := advance config choice s.world pc
      some ({ s with world }.setCall i ⟨request, next.progress⟩)
    | _ => none
  | .stop i =>
    match s.calls i with
    | some ⟨request, .running _⟩ => some (s.setCall i ⟨request, .stopped⟩)
    | _ => none
  | .setStatus walletId status now =>
    match s.world.db.wallets.updateMany (fun row => decide (row.id = walletId))
      (fun row => row.operated status now) with
    | .ok (wallets, _) => some { s with world := { s.world with db := { s.world.db with wallets } } }
    | .error _ => none

def system (ι : Type) [DecidableEq ι] (config : Config) : System (State ι) (Action ι) :=
  ⟨⟨.empty, fun _ => none⟩, step config⟩

section Steps

variable {config : Config} {s s' : State ι} {i j : ι} {call : Call} {choice : Choice}

@[simp] theorem State.setCall_world : (s.setCall i call).world = s.world := rfl

@[simp] theorem State.setCall_self : (s.setCall i call).calls i = some call := Function.update_self ..

theorem State.setCall_of_ne (h : j ≠ i) : (s.setCall i call).calls j = s.calls j :=
  Function.update_of_ne h ..

theorem step_start {request : Request} (h : step config s (.start i request) = some s') :
    s.calls i = none ∧ s' = s.setCall i ⟨request, request.entry.progress⟩ := by
  simp only [step] at h
  split at h
  · next hnone => exact ⟨hnone, (Option.some.inj h).symm⟩
  · cases h

theorem step_run (h : step config s (.run i choice) = some s') : ∃ request pc,
    s.calls i = some ⟨request, .running pc⟩ ∧
      s' = { s with world := (advance config choice s.world pc).1 }.setCall i
        ⟨request, (advance config choice s.world pc).2.progress⟩ := by
  simp only [step] at h
  split at h
  · next request pc hcall => exact ⟨request, pc, hcall, (Option.some.inj h).symm⟩
  · cases h

theorem step_stop (h : step config s (.stop i) = some s') : ∃ request pc,
    s.calls i = some ⟨request, .running pc⟩ ∧ s' = s.setCall i ⟨request, .stopped⟩ := by
  simp only [step] at h
  split at h
  · next request pc hcall => exact ⟨request, pc, hcall, (Option.some.inj h).symm⟩
  · cases h

theorem step_setStatus {walletId : Uuid} {status : WalletStatus} {now : Date}
    (h : step config s (.setStatus walletId status now) = some s') : ∃ wallets,
      wallets.rows = updateWhere (fun row => decide (row.id = walletId))
        (fun row => row.operated status now) s.world.db.wallets.rows ∧
      s' = { s with world := { s.world with db := { s.world.db with wallets } } } := by
  simp only [step] at h
  split at h
  · next wallets n hupdate =>
    exact ⟨wallets, (Table.updateMany_ok hupdate).1, (Option.some.inj h).symm⟩
  · cases h

end Steps

end NovaPay.Account
