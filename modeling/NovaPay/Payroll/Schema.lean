import NovaPay.Library.Relational
import NovaPay.Library.Varchar
import NovaPay.Wire

/-!
# The tables of the Payroll service

`payroll_jobs` and `payroll_items` with the constraints of the migrations. The counts of a job are
columns of their own, next to the statuses of its items.
-/

namespace NovaPay.Payroll

open DecimalArithmetic Relational

inductive PayrollJobStatus
  | pending
  | queued
  | processing
  | completed
  | partiallyFailed
  | failed
deriving DecidableEq, Repr

inductive PayrollItemStatus
  | pending
  | processing
  | completed
  | failed
deriving DecidableEq, Repr

/-- `isTerminal` -/
def PayrollJobStatus.terminal : PayrollJobStatus → Bool
  | .completed | .partiallyFailed | .failed => true
  | _ => false

def PayrollItemStatus.terminal : PayrollItemStatus → Bool
  | .completed | .failed => true
  | _ => false

structure PayrollJob where
  id : Uuid
  employerId : Principal
  sourceWalletId : Uuid
  currency : Currency
  status : PayrollJobStatus
  totalItems : ℕ
  completedItems : ℕ
  failedItems : ℕ
  totalAmount : Money
  bullmqJobId : Option Uuid
  queueFailureCount : ℕ
  lastQueueErrorCode : Option String
  startedAt : Option Date
  completedAt : Option Date
deriving DecidableEq, Repr

/-- An amount that passes `payroll_items_amount_check`. -/
abbrev ItemAmount := { m : Money // 0 < m.value }

structure PayrollItem where
  id : Uuid
  payrollJobId : Uuid
  sequence : ℕ
  externalItemId : String
  recipientWalletId : Uuid
  amount : ItemAmount
  currency : Currency
  status : PayrollItemStatus
  attemptCount : ℕ
  processingToken : Option Uuid
  processingStartedAt : Option Date
  transferId : Option Uuid
  transferIdempotencyKey : IdempotencyKey
  failureCode : Option String
  completedAt : Option Date
deriving DecidableEq, Repr

/-- `payroll_jobs_total_amount_check` and `payroll_jobs_counts_check`. -/
def PayrollJob.check (job : PayrollJob) : Bool :=
  decide (0 < job.totalAmount.value) && decide (0 < job.totalItems) &&
    decide (job.completedItems + job.failedItems ≤ job.totalItems)

/-- `payroll_items_processing_check` and the `VARCHAR` columns. -/
def PayrollItem.check (item : PayrollItem) : Bool :=
  decide (item.processingToken.isNone = item.processingStartedAt.isNone) &&
    Varchar.fitsColumn 128 item.externalItemId && Varchar.fitsColumn 128 item.transferIdempotencyKey &&
    item.failureCode.all (Varchar.fitsColumn 80)

def jobsIndexed (rows : List PayrollJob) : Bool :=
  uniqueBy PayrollJob.id rows && uniqueWhere PayrollJob.bullmqJobId rows

def jobsSchema : Schema PayrollJob where
  check := PayrollJob.check
  indexed := jobsIndexed

/-- The unique indexes of `payroll_items`. -/
def itemsIndexed (rows : List PayrollItem) : Bool :=
  uniqueBy PayrollItem.id rows &&
    uniqueBy (fun item => (item.payrollJobId, item.externalItemId)) rows &&
    uniqueBy (fun item => (item.payrollJobId, item.sequence)) rows &&
    uniqueWhere PayrollItem.transferId rows &&
    uniqueBy PayrollItem.transferIdempotencyKey rows

def itemsSchema : Schema PayrollItem where
  check := PayrollItem.check
  indexed := itemsIndexed

/-- The tables of the service, and the leases of the employers that it keeps in Redis. -/
structure Store where
  jobs : Table jobsSchema
  items : Table itemsSchema
  leases : Principal → Option Uuid

def Store.empty : Store where
  jobs := ⟨[], by simp, rfl⟩
  items := ⟨[], by simp, rfl⟩
  leases := fun _ => none

/-- The key under which Transaction is asked to pay an item. -/
def transferIdempotencyKey (jobId itemId : Uuid) : IdempotencyKey :=
  "payroll:" ++ uuidText jobId ++ ":" ++ uuidText itemId

theorem isMoney_toFixed {m : Money} (h : 0 < m.value) : isMoney (toFixed 8 m.value) = true := by
  have hpos : 0 < m.units := by
    have hunits : (0 : ℚ) < m.units := by
      rw [← m.value_mul_pow]
      positivity
    exact_mod_cast hunits
  have hlt : m.units < 10 ^ 28 := lt_of_abs_lt m.bound
  rw [Numeric.toFixed_value]
  simp only [isMoney, Bool.and_eq_true, decide_eq_true_eq]
  omega

/-- `item.amount.toFixed(8)` -/
def PayrollItem.amountText (item : PayrollItem) : MoneyText :=
  ⟨toFixed 8 item.amount.val.value, isMoney_toFixed item.amount.property⟩

namespace Store

variable {store : Store} {job : PayrollJob} {item : PayrollItem} {id : Uuid}

def findJob (store : Store) (id : Uuid) : Option PayrollJob := findBy PayrollJob.id id store.jobs.rows

theorem job_ids (store : Store) : uniqueBy PayrollJob.id store.jobs.rows = true := by
  have h := store.jobs.indexed
  simp only [jobsSchema, jobsIndexed, Bool.and_eq_true] at h
  exact h.1

theorem item_ids (store : Store) : uniqueBy PayrollItem.id store.items.rows = true := by
  have h := store.items.indexed
  simp only [itemsSchema, itemsIndexed, Bool.and_eq_true] at h
  exact h.1.1.1.1

theorem item_keys (store : Store) :
    uniqueBy PayrollItem.transferIdempotencyKey store.items.rows = true := by
  have h := store.items.indexed
  simp only [itemsSchema, itemsIndexed, Bool.and_eq_true] at h
  exact h.2

theorem findJob_eq_some_iff : store.findJob id = some job ↔ job ∈ store.jobs.rows ∧ job.id = id :=
  findBy_eq_some_iff store.job_ids

theorem job_eq {job' : PayrollJob} (h : job ∈ store.jobs.rows) (h' : job' ∈ store.jobs.rows)
    (hid : job.id = job'.id) : job = job' := eq_of_uniqueBy store.job_ids h h' hid

theorem item_eq {item' : PayrollItem} (h : item ∈ store.items.rows) (h' : item' ∈ store.items.rows)
    (hid : item.id = item'.id) : item = item' := eq_of_uniqueBy store.item_ids h h' hid

theorem item_eq_of_key {item' : PayrollItem} (h : item ∈ store.items.rows)
    (h' : item' ∈ store.items.rows) (hkey : item.transferIdempotencyKey = item'.transferIdempotencyKey) :
    item = item' := eq_of_uniqueBy store.item_keys h h' hkey

/-- The number of items of a job with a status. -/
def countItems (store : Store) (jobId : Uuid) (status : PayrollItemStatus) : ℕ :=
  store.items.rows.countP fun item => decide (item.payrollJobId = jobId) && decide (item.status = status)

end Store

end NovaPay.Payroll
