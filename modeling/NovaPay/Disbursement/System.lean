import NovaPay.Payroll.Invariant
import NovaPay.Transaction.Verdicts

/-!
# Payroll and Transaction together

The workers of Payroll with the executions of Transaction that serve their calls. A call travels to
an execution of its own, at any time or never; the worker that waits for it goes on with the answer of
that execution, with a part of it, or with none.
-/

namespace NovaPay.Disbursement

open TransitionSystem
open Payroll (PayrollJob PayrollItem TransferCall TransferBody TransferReply)
open Transaction (ExecId CreateRequest)

/-- The number of the call that an execution serves; every other execution serves someone else. -/
def servedCall (e : ExecId) : Option ℕ := if e % 2 = 0 then some (e / 2) else none

def servingExecution (n : ℕ) : ExecId := 2 * n

@[simp] theorem servedCall_servingExecution (n : ℕ) : servedCall (servingExecution n) = some n := by
  simp [servedCall, servingExecution]

theorem eq_servingExecution {e : ExecId} {n : ℕ} (h : servedCall e = some n) :
    e = servingExecution n := by
  unfold servedCall at h
  split at h
  · next heven =>
    obtain rfl := Option.some.inj h
    exact (Nat.mul_div_cancel' (Nat.dvd_of_mod_eq_zero heven)).symm
  · cases h

/-- The request that Transaction receives. -/
def createRequest (call : TransferCall) : CreateRequest where
  clientId := call.employerId
  key := call.idempotencyKey
  command := .domestic
    { senderWalletId := .ofUuid call.senderWalletId
      recipientWalletId := .ofUuid call.recipientWalletId
      amount := call.amount
      currency := call.currency }

/-- What the client reads of a transfer in a body. -/
def transferBody (response : Transaction.TransferResponse) : TransferBody :=
  ⟨some response.transferId, some response.status, response.failure.map Prod.fst⟩

/-- A body that has none of the members, or that could not be read to its end. -/
def noBody : TransferBody := ⟨none, none, none⟩

/-- The replies that the client makes of an answer. An error code is read from the body, and a
transfer has none. -/
def repliesTo : Transaction.Outcome → TransferReply → Bool
  | .result httpStatus response, .ok body =>
    decide (200 ≤ httpStatus) && decide (httpStatus ≤ 299) &&
      (decide (body = transferBody response) || decide (body = noBody))
  | .result httpStatus response, .http status code body =>
    !(decide (200 ≤ httpStatus) && decide (httpStatus ≤ 299)) && decide (status = httpStatus) &&
      decide (code = "TRANSACTION_ERROR") &&
      (decide (body = transferBody response) || decide (body = noBody))
  | .error error, .http status code body =>
    decide (status = error.status) && (decide (code = error.code) || decide (code = "TRANSACTION_ERROR")) &&
      decide (body = noBody)
  | _, _ => false

structure State where
  payroll : Payroll.State
  transaction : Transaction.State
  /-- The principals and keys of the requests of others. -/
  others : List (Principal × IdempotencyKey)

inductive Action
  | payroll (action : Payroll.Action)
  | transaction (action : Transaction.Action)

/-- What a worker may be told of its call: that there is no answer, an error of what stands between, or
the answer of the execution that served it. -/
def State.answers (s : State) (n : ℕ) (reply : TransferReply) : Bool :=
  match reply with
  | .unavailable => true
  | .http status code body =>
    (decide (500 ≤ status) && decide (body = noBody)) ||
      s.transaction.answers.any fun answer =>
        decide (answer.1 = servingExecution n) && repliesTo answer.2 (.http status code body)
  | .ok body => s.transaction.answers.any fun answer =>
      decide (answer.1 = servingExecution n) && repliesTo answer.2 (.ok body)

/-- The principal and the key stand for an item. -/
def State.isItemKey (s : State) (clientId : Principal) (key : IdempotencyKey) : Bool :=
  s.payroll.store.items.rows.any fun item => decide (item.transferIdempotencyKey = key) &&
    s.payroll.store.jobs.rows.any fun job =>
      decide (job.id = item.payrollJobId) && decide (job.employerId = clientId)

/-- The steps that can happen. The ids of items are random and are told to nobody, so no one else uses
the key of an item. -/
def State.permits (s : State) : Action → Bool
  | .payroll (.submit jobId itemIds employerId command) => command.items.zipIdx.all fun item =>
      decide ((employerId, Payroll.transferIdempotencyKey jobId (itemIds item.2)) ∉ s.others)
  | .payroll (.run w choice) =>
    match s.payroll.workers w with
    | some ⟨_, _, call, some (.leased _ _ (.createDomestic _ _))⟩ => s.answers call choice.reply
    | _ => true
  | .payroll _ => true
  | .transaction (.request e (.create request)) =>
    match servedCall e with
    | some n => s.payroll.calls[n]?.any fun entry => decide (request = createRequest entry.2)
    | none => !s.isItemKey request.clientId request.key
  | .transaction (.request e (.reconcile _ _)) => (servedCall e).isNone
  | .transaction _ => true

/-- The key that someone else uses. -/
def othersKey : Transaction.Action → List (Principal × IdempotencyKey)
  | .request e (.create request) =>
    match servedCall e with
    | some _ => []
    | none => [(request.clientId, request.key)]
  | _ => []

def State.initial : State := ⟨.initial, .initial, []⟩

def step (config : Transaction.Config) (s : State) (action : Action) : Option State :=
  if s.permits action then
    match action with
    | .payroll action => (Payroll.step s.payroll action).map fun payroll => { s with payroll }
    | .transaction action => (Transaction.step config s.transaction action).map fun transaction =>
        { s with transaction, others := othersKey action ++ s.others }
  else none

def system (config : Transaction.Config) : System State Action := ⟨.initial, step config⟩

variable {config : Transaction.Config} {s s' : State} {a : Action}

/-- The steps of the two services. -/
theorem step_cases (h : step config s a = some s') : s.permits a = true ∧
    ((∃ action payroll, a = .payroll action ∧ Payroll.step s.payroll action = some payroll ∧
        s' = { s with payroll }) ∨
      ∃ action transaction, a = .transaction action ∧
        Transaction.step config s.transaction action = some transaction ∧
        s' = { s with transaction, others := othersKey action ++ s.others }) := by
  unfold step at h
  split at h
  · next hpermits =>
    refine ⟨hpermits, ?_⟩
    cases a with
    | payroll action =>
      obtain ⟨payroll, hp, rfl⟩ := Option.map_eq_some_iff.mp h
      exact .inl ⟨action, payroll, rfl, hp, rfl⟩
    | transaction action =>
      obtain ⟨transaction, ht, rfl⟩ := Option.map_eq_some_iff.mp h
      exact .inr ⟨action, transaction, rfl, ht, rfl⟩
  · cases h

/-- Each service makes its own steps. -/
theorem payroll_simulation : System.Simulation (system config) Payroll.system State.payroll := by
  refine ⟨rfl, fun s a s' _ h => ?_⟩
  obtain ⟨-, ⟨action, payroll, -, hp, rfl⟩ | ⟨_, _, -, -, rfl⟩⟩ := step_cases h
  · exact System.Steps.single hp
  · exact .refl

theorem transaction_simulation :
    System.Simulation (system config) (Transaction.system config) State.transaction := by
  refine ⟨rfl, fun s a s' _ h => ?_⟩
  obtain ⟨-, ⟨_, _, -, -, rfl⟩ | ⟨action, transaction, -, ht, rfl⟩⟩ := step_cases h
  · exact .refl
  · exact System.Steps.single ht

end NovaPay.Disbursement
