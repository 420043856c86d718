import Mathlib.Data.List.Sort
import NovaPay.Library.TransitionSystem
import NovaPay.Payroll.Schema
import NovaPay.Transaction.Schema

/-!
# Workers of the Payroll service

`process` as a worker that waits at one statement after another, any number of them on any jobs. One
step runs the awaited statement and the code up to the next await. A worker that stops, or whose
statement fails for want of a connection, leaves the tables as they are between two awaits.
-/

namespace NovaPay.Payroll

open DecimalArithmetic Relational TransitionSystem
open Transaction (TransferStatus)

/-- `PayrollItemInputDto` -/
structure PayrollItemInput where
  externalItemId : String
  recipientWalletId : UuidText
  amount : MoneyText
deriving DecidableEq, Repr

/-- `CreatePayrollJobDto`, as `normalizeCommand` returns it. -/
structure CreatePayrollJob where
  sourceWalletId : UuidText
  currency : Currency
  items : List PayrollItemInput
deriving DecidableEq, Repr

def itemRow (jobId : Uuid) (currency : Currency) (id : Uuid) (sequence : ℕ) (item : PayrollItemInput) :
    Except DbError PayrollItem :=
  match (Numeric.ofRat? item.amount.val.value : Option Money) with
  | none => .error .rejected
  | some amount =>
    if h : 0 < amount.value then .ok {
      id := id
      payrollJobId := jobId
      sequence := sequence
      externalItemId := item.externalItemId
      recipientWalletId := item.recipientWalletId.value
      amount := ⟨amount, h⟩
      currency := currency
      status := .pending
      attemptCount := 0
      processingToken := none
      processingStartedAt := none
      transferId := none
      transferIdempotencyKey := transferIdempotencyKey jobId id
      failureCode := none
      completedAt := none }
    else .error .rejected

/-- The sum of the amounts; `Decimal.plus` keeps 20 significant digits. -/
def totalAmount (items : List PayrollItem) : ℚ :=
  items.foldl (fun sum item => roundSig 20 (sum + item.amount.val.value)) 0

def jobRow (jobId : Uuid) (employerId : Principal) (command : CreatePayrollJob)
    (items : List PayrollItem) (total : Money) : PayrollJob where
  id := jobId
  employerId := employerId
  sourceWalletId := command.sourceWalletId.value
  currency := command.currency
  status := .pending
  totalItems := items.length
  completedItems := 0
  failedItems := 0
  totalAmount := total
  bullmqJobId := none
  queueFailureCount := 0
  lastQueueErrorCode := none
  startedAt := none
  completedAt := none

/-- The insert transaction of `submit`, but for the idempotency record. -/
def createJob (store : Store) (jobId : Uuid) (itemIds : ℕ → Uuid) (employerId : Principal)
    (command : CreatePayrollJob) : Except DbError Store := do
  let rows ← command.items.zipIdx.mapM fun item =>
    itemRow jobId command.currency (itemIds item.2) item.2 item.1
  match (Numeric.ofRat? (totalAmount rows) : Option Money) with
  | none => .error .rejected
  | some total => do
    let jobs ← store.jobs.insertMany [jobRow jobId employerId command rows total]
    let items ← store.items.insertMany rows
    return { store with jobs, items }

/-- The request `createDomestic` makes. -/
structure TransferCall where
  employerId : Principal
  idempotencyKey : IdempotencyKey
  senderWalletId : Uuid
  recipientWalletId : Uuid
  amount : MoneyText
  currency : Currency
deriving DecidableEq

/-- The members that `process` reads of the body of an answer; a member that is missing, or not a
string, is `none`, and a body that cannot be read has none of them. -/
structure TransferBody where
  transferId : Option Uuid
  status : Option TransferStatus
  failureCode : Option String
deriving DecidableEq, Repr

/-- What `createDomestic` returns or throws. -/
inductive TransferReply
  | ok (body : TransferBody)
  | http (status : ℕ) (code : String) (body : TransferBody)
  | unavailable
deriving DecidableEq, Repr

/-- The two statuses of a checkpoint. -/
inductive Verdict
  | completed
  | failed
deriving DecidableEq, Repr

def Verdict.status : Verdict → PayrollItemStatus
  | .completed => .completed
  | .failed => .failed

/-- The items that are still to be executed by the loop a worker is in. -/
inductive Rest
  | reconciling (items : List PayrollItem)
  | batch (items : List PayrollItem)
deriving DecidableEq

/-- The statement that a worker with a lease waits at, with the locals it still needs. -/
inductive Statement
  | markProcessing
  | reconcileRead
  | reclaim (item : PayrollItem) (items : List PayrollItem)
  | batchRead
  | claim (item : PayrollItem) (candidates claimed : List PayrollItem)
  | createDomestic (item : PayrollItem) (rest : Rest)
  | noteTransfer (item : PayrollItem) (transferId : Option Uuid)
  | checkpoint (item : PayrollItem) (verdict : Verdict) (transferId : Option Uuid)
      (failureCode : Option String) (rest : Rest)
  | finalizeRead
  | finalizeWrite (status : PayrollJobStatus)
  | release
deriving DecidableEq

inductive Pc
  | findJob
  | acquire (job : PayrollJob)
  | leased (job : PayrollJob) (leaseToken : Uuid) (statement : Statement)
deriving DecidableEq

abbrev WorkerId := ℕ

/-- A run of `process`, with the number of its latest call of Transaction. -/
structure Worker where
  jobId : Uuid
  leaseLost : Bool
  call : ℕ
  pc : Option Pc
deriving DecidableEq

/-- What a step takes from outside: a token, a clock reading and an answer of Transaction. -/
structure Choice where
  token : Uuid := 0
  date : Date := 0
  reply : TransferReply := .unavailable

def transferCall (job : PayrollJob) (item : PayrollItem) : TransferCall where
  employerId := job.employerId
  idempotencyKey := item.transferIdempotencyKey
  senderWalletId := job.sourceWalletId
  recipientWalletId := item.recipientWalletId
  amount := item.amountText
  currency := item.currency

/-! The `data` of the update statements. -/

namespace PayrollItem

def reclaim (item : PayrollItem) (token : Uuid) (date : Date) : PayrollItem :=
  { item with
    processingToken := some token, processingStartedAt := some date
    attemptCount := item.attemptCount + 1 }

def claim (item : PayrollItem) (token : Uuid) (date : Date) : PayrollItem :=
  { item.reclaim token date with status := .processing }

/-- A transfer id that is `undefined` leaves its column as it is. -/
def noteTransfer (item : PayrollItem) (transferId : Option Uuid) : PayrollItem :=
  { item with transferId := transferId <|> item.transferId }

def checkpoint (item : PayrollItem) (verdict : Verdict) (transferId : Option Uuid)
    (failureCode : Option String) (date : Date) : PayrollItem :=
  { item with
    status := verdict.status
    transferId := transferId <|> item.transferId
    failureCode :=
      match verdict with
      | .failed => some (Varchar.assign 80 (failureCode.getD "PAYROLL_ITEM_FAILED"))
      | .completed => none
    processingToken := none
    processingStartedAt := none
    completedAt := some date }

end PayrollItem

namespace PayrollJob

def markProcessing (job : PayrollJob) (startedAt : Date) : PayrollJob :=
  { job with status := .processing, startedAt := some startedAt, lastQueueErrorCode := none }

def count (job : PayrollJob) : Verdict → PayrollJob
  | .completed => { job with completedItems := job.completedItems + 1 }
  | .failed => { job with failedItems := job.failedItems + 1 }

def finalize (job : PayrollJob) (status : PayrollJobStatus) (date : Date) : PayrollJob :=
  { job with status := status, completedAt := some date, lastQueueErrorCode := none }

def enqueue (job : PayrollJob) : PayrollJob :=
  { job with status := .queued, bullmqJobId := some job.id, lastQueueErrorCode := none }

def noteQueueFailure (job : PayrollJob) (code : String) : PayrollJob :=
  { job with queueFailureCount := job.queueFailureCount + 1, lastQueueErrorCode := some code }

/-- The status `finalize` derives from the counts. -/
def finalStatus (job : PayrollJob) : PayrollJobStatus :=
  if job.failedItems = 0 then .completed
  else if job.completedItems = 0 then .failed
  else .partiallyFailed

end PayrollJob

/-- An update of the row with an id, which throws when there is none. -/
def updateJob (store : Store) (jobId : Uuid) (data : PayrollJob → PayrollJob) : Except DbError Store := do
  let (jobs, count) ← store.jobs.updateMany (fun job => decide (job.id = jobId)) data
  if count = 1 then return { store with jobs } else .error .rejected

/-- The items a worker may write: those that are processed under its token. -/
def heldBy (item row : PayrollItem) : Bool :=
  decide (row.id = item.id) && decide (row.status = .processing) &&
    decide (row.processingToken = item.processingToken)

/-- The transaction of `checkpoint`: the item and, if its row was matched, the count of its job. -/
def checkpoint (store : Store) (item : PayrollItem) (verdict : Verdict) (transferId : Option Uuid)
    (failureCode : Option String) (date : Date) : Except DbError Store := do
  let (items, count) ← store.items.updateMany (heldBy item)
    (fun row => row.checkpoint verdict transferId failureCode date)
  if count = 1 then updateJob { store with items } item.payrollJobId (fun job => job.count verdict)
  else return { store with items }

/-- The items of a job with a status, in their order. -/
def selectItems (store : Store) (jobId : Uuid) (status : PayrollItemStatus) : List PayrollItem :=
  (store.items.rows.filter fun item =>
    decide (item.payrollJobId = jobId) && decide (item.status = status)).insertionSort
      (fun a b => a.sequence ≤ b.sequence)

def itemBatchSize : ℕ := 100

/-- The loop of `process` before it claims a batch. -/
def enterBatch (leaseLost : Bool) : Statement := if leaseLost then .release else .batchRead

/-- What follows an item that was executed, or the read that selected the items. -/
def nextItem (leaseLost : Bool) : Rest → Statement
  | .reconciling [] | .batch [] => enterBatch leaseLost
  | .reconciling (item :: items) => .reclaim item items
  | .batch (item :: items) => if leaseLost then .release else .createDomestic item (.batch items)

/-- `claimPendingBatch` after a candidate, and the loop of `process` after the last. -/
def nextCandidate (leaseLost : Bool) (claimed : List PayrollItem) : List PayrollItem → Statement
  | item :: candidates => .claim item candidates claimed
  | [] => if claimed = [] then .finalizeRead else nextItem leaseLost (.batch claimed)

def checkpointResponse (item : PayrollItem) (rest : Rest) (transfer : TransferBody) : Statement :=
  match transfer.status with
  | some .completed => .checkpoint item .completed transfer.transferId none rest
  | some .failed =>
    .checkpoint item .failed transfer.transferId (transfer.failureCode <|> some "TRANSFER_FAILED") rest
  | some .reversed =>
    .checkpoint item .failed transfer.transferId (transfer.failureCode <|> some "TRANSFER_REVERSED") rest
  | _ => .noteTransfer item transfer.transferId

/-- `executeItem` after Transaction answered. -/
def executeItem (item : PayrollItem) (rest : Rest) : TransferReply → Statement
  | .ok body => checkpointResponse item rest body
  | .http status code body =>
    if body.transferId.isSome ∧ body.status.isSome then checkpointResponse item rest body
    else if 400 ≤ status ∧ status < 500 then .checkpoint item .failed none (some code) rest
    else .release
  | .unavailable => .release

/-! One definition for each statement, with the code that follows it; an exception leads to the
release of the lease. -/

section Statements

variable (c : Choice) (leaseLost : Bool) (store : Store) (job : PayrollJob)

def runMarkProcessing : Store × Statement :=
  match updateJob store job.id (fun row => row.markProcessing (job.startedAt.getD c.date)) with
  | .ok store' => (store', .reconcileRead)
  | .error _ => (store, .release)

def runReclaim (item : PayrollItem) (items : List PayrollItem) : Store × Statement :=
  match store.items.updateMany
      (fun row => decide (row.id = item.id) && decide (row.status = .processing))
      (fun row => row.reclaim c.token c.date) with
  | .ok (rows, count) =>
    ({ store with items := rows },
      if count = 1 then .createDomestic { item with processingToken := some c.token } (.reconciling items)
      else nextItem leaseLost (.reconciling items))
  | .error _ => (store, .release)

def runClaim (item : PayrollItem) (candidates claimed : List PayrollItem) : Store × Statement :=
  match store.items.updateMany
      (fun row => decide (row.id = item.id) && decide (row.status = .pending))
      (fun row => row.claim c.token c.date) with
  | .ok (rows, count) =>
    ({ store with items := rows },
      nextCandidate leaseLost
        (if count = 1 then claimed ++ [item.claim c.token c.date] else claimed) candidates)
  | .error _ => (store, .release)

def runNoteTransfer (item : PayrollItem) (transferId : Option Uuid) : Store × Statement :=
  match store.items.updateMany (heldBy item) (fun row => row.noteTransfer transferId) with
  | .ok (rows, _) => ({ store with items := rows }, .release)
  | .error _ => (store, .release)

def runCheckpoint (item : PayrollItem) (verdict : Verdict) (transferId : Option Uuid)
    (failureCode : Option String) (rest : Rest) : Store × Statement :=
  match checkpoint store item verdict transferId failureCode c.date with
  | .ok store' => (store', nextItem leaseLost rest)
  | .error _ => (store, .release)

def runFinalizeRead : Statement :=
  match store.findJob job.id with
  | some row =>
    if row.completedItems + row.failedItems ≠ row.totalItems then .release
    else .finalizeWrite row.finalStatus
  | none => .release

def runFinalizeWrite (status : PayrollJobStatus) : Store × Statement :=
  match updateJob store job.id (fun row => row.finalize status c.date) with
  | .ok store' => (store', .release)
  | .error _ => (store, .release)

/-- Every statement but the release. -/
def advance : Statement → Store × Statement
  | .markProcessing => runMarkProcessing c store job
  | .reconcileRead =>
    (store, nextItem leaseLost (.reconciling (selectItems store job.id .processing)))
  | .reclaim item items => runReclaim c leaseLost store item items
  | .batchRead =>
    (store, nextCandidate leaseLost [] ((selectItems store job.id .pending).take itemBatchSize))
  | .claim item candidates claimed => runClaim c leaseLost store item candidates claimed
  | .createDomestic item rest => (store, executeItem item rest c.reply)
  | .noteTransfer item transferId => runNoteTransfer store item transferId
  | .checkpoint item verdict transferId failureCode rest =>
    runCheckpoint c leaseLost store item verdict transferId failureCode rest
  | .finalizeRead => (store, runFinalizeRead store job)
  | .finalizeWrite status => runFinalizeWrite c store job status
  | .release => (store, .release)

end Statements

structure State where
  store : Store
  workers : WorkerId → Option Worker
  /-- The calls of Transaction in the order they were made, each with the item it is for. -/
  calls : List (Uuid × TransferCall)

def State.initial : State := ⟨.empty, fun _ => none, []⟩

inductive Action
  | submit (jobId : Uuid) (itemIds : ℕ → Uuid) (employerId : Principal) (command : CreatePayrollJob)
  | enqueue (jobId : Uuid)
  | enqueueFailed (jobId : Uuid)
  | noteQueueFailure (jobId : Uuid)
  | start (w : WorkerId) (jobId : Uuid)
  | run (w : WorkerId) (choice : Choice)
  | renew (w : WorkerId) (failed : Bool)
  | expire (employerId : Principal)
  | stop (w : WorkerId)

def Statement.call (job : PayrollJob) : Statement → Option (Uuid × TransferCall)
  | .createDomestic item _ => some (item.id, transferCall job item)
  | _ => none

namespace State

def withStore (s : State) (store : Store) : State := { s with store }

def setWorker (s : State) (w : WorkerId) (worker : Worker) : State :=
  { s with workers := Function.update s.workers w (some worker) }

/-- The worker goes on to a statement of its lease, making the call it waits for. -/
def proceed (s : State) (w : WorkerId) (worker : Worker) (job : PayrollJob) (leaseToken : Uuid)
    (statement : Statement) : State :=
  { s with
    workers := Function.update s.workers w (some { worker with
      call := if (statement.call job).isSome then s.calls.length else worker.call
      pc := some (.leased job leaseToken statement) })
    calls := s.calls ++ (statement.call job).toList }

variable {s : State} {w i : WorkerId} {worker : Worker} {job : PayrollJob} {leaseToken : Uuid}
  {statement : Statement}

theorem setWorker_workers_self : (s.setWorker w worker).workers w = some worker :=
  Function.update_self ..

theorem setWorker_workers_of_ne (h : i ≠ w) : (s.setWorker w worker).workers i = s.workers i :=
  Function.update_of_ne h ..

theorem proceed_workers_self : (s.proceed w worker job leaseToken statement).workers w =
    some { worker with
      call := if (statement.call job).isSome then s.calls.length else worker.call
      pc := some (.leased job leaseToken statement) } := Function.update_self ..

theorem proceed_workers_of_ne (h : i ≠ w) :
    (s.proceed w worker job leaseToken statement).workers i = s.workers i :=
  Function.update_of_ne h ..

end State

/-- The read of the job by `process`: a job that is missing throws, a terminal one returns. -/
def readJob (store : Store) (jobId : Uuid) : Option Pc :=
  match store.findJob jobId with
  | some job => if job.status.terminal then none else some (.acquire job)
  | none => none

def setLease (store : Store) (employerId : Principal) (lease : Option Uuid) : Store :=
  { store with leases := Function.update store.leases employerId lease }

def runWorker (s : State) (w : WorkerId) (worker : Worker) (c : Choice) : Pc → State
  | .findJob => s.setWorker w { worker with pc := readJob s.store worker.jobId }
  | .acquire job =>
    match s.store.leases job.employerId with
    | some _ => s.setWorker w { worker with pc := none }
    | none => (s.withStore (setLease s.store job.employerId (some c.token))).proceed w worker job
        c.token .markProcessing
  | .leased job leaseToken .release =>
    (s.withStore (if s.store.leases job.employerId = some leaseToken then
        setLease s.store job.employerId none else s.store)).setWorker w { worker with pc := none }
  | .leased job leaseToken statement =>
    let (store, next) := advance c worker.leaseLost s.store job statement
    (s.withStore store).proceed w worker job leaseToken next

def enqueueable (job : PayrollJob) : Bool :=
  decide (job.status = .pending) || decide (job.status = .queued)

def step (s : State) : Action → Option State
  | .submit jobId itemIds employerId command =>
    (createJob s.store jobId itemIds employerId command).toOption.map s.withStore
  | .enqueue jobId =>
    (s.store.jobs.updateMany (fun job => decide (job.id = jobId) && enqueueable job)
      PayrollJob.enqueue).toOption.map fun result => s.withStore { s.store with jobs := result.1 }
  | .enqueueFailed jobId =>
    (updateJob s.store jobId (fun job => job.noteQueueFailure "QUEUE_UNAVAILABLE")).toOption.map s.withStore
  | .noteQueueFailure jobId =>
    (s.store.jobs.updateMany (fun job => decide (job.id = jobId) && !job.status.terminal)
      (fun job => job.noteQueueFailure "PAYROLL_WORKER_FAILED")).toOption.map
        fun result => s.withStore { s.store with jobs := result.1 }
  | .start w jobId =>
    match s.workers w with
    | none => some (s.setWorker w ⟨jobId, false, 0, some .findJob⟩)
    | some _ => none
  | .run w choice =>
    match s.workers w with
    | some worker => worker.pc.map fun pc => runWorker s w worker choice pc
    | none => none
  | .renew w failed =>
    match s.workers w with
    | some worker =>
      match worker.pc with
      | some (.leased job leaseToken _) =>
        if failed ∨ s.store.leases job.employerId ≠ some leaseToken then
          some (s.setWorker w { worker with leaseLost := true })
        else some s
      | _ => none
    | none => none
  | .expire employerId => some (s.withStore (setLease s.store employerId none))
  | .stop w =>
    match s.workers w with
    | some worker => some (s.setWorker w { worker with pc := none })
    | none => none

def system : System State Action := ⟨.initial, step⟩

end NovaPay.Payroll
