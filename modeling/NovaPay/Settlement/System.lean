import NovaPay.Transaction.Provenance
import NovaPay.Fx.Consumption
import NovaPay.Ledger.Idempotency

/-!
# Transaction, FX and Ledger together

The three services with the requests that Transaction makes to the other two. A request travels
from the execution that made it to a call of its own; the answer of that call, or no answer, is what
the execution goes on with. The Account service is not modelled: its answers are arbitrary.
-/

namespace NovaPay.Settlement

open TransitionSystem

/-- Who calls FX and Ledger: an execution of Transaction, or anyone else. -/
abbrev Caller := Transaction.ExecId ⊕ ℕ

structure Config where
  transaction : Transaction.Config
  ledger : Ledger.Config

structure State where
  transaction : Transaction.State
  fx : Fx.State Caller
  ledger : Ledger.State Caller

inductive Action
  | transaction (action : Transaction.Action)
  | fx (action : Fx.Action Caller)
  | ledger (action : Ledger.Action Caller)

/-- An execution asked the Ledger for the posting. -/
def State.sentPosting (s : State) (e : Transaction.ExecId) (request : Ledger.Request) : Bool :=
  s.transaction.calls.any fun
    | (i, .post _ _ _ posting) => decide (i = e) && decide (request = .post posting false)
    | _ => false

/-- An execution asked FX for the consumption. -/
def State.sentConsume (s : State) (e : Transaction.ExecId) (request : Fx.Request) : Bool :=
  s.transaction.calls.any fun
    | (i, .consume quoteId command) => decide (i = e) && decide (request = .consume quoteId command)
    | _ => false

/-- Transaction's client sees the status of an error answer, or an answer of what stands between. -/
def seesError (answered : Option HttpError) (error : HttpError) : Bool :=
  decide (500 ≤ error.status) || answered.any fun e => decide (e.status = error.status)

/-- What an execution may be told of a posting it sent. -/
def answersPost (call : Option Ledger.Call) (command : PostingCommand) : Reply LedgerPosting → Bool
  | .ok (some posting) =>
    decide (call = some ⟨.post command false, .answered (.posting posting)⟩)
  | .ok none => call.any fun call => decide (call.request = .post command false) &&
      match call.progress with
      | .answered (.posting _) => true
      | _ => false
  | .error .unavailable => true
  | .error (.http error) => seesError (match call with
      | some ⟨request, .answered (.error e)⟩ => if request = .post command false then some e else none
      | _ => none) error

/-- What an execution may be told of a consumption it sent. -/
def answersConsume (call : Option Fx.Call) (request : Fx.Request) : Reply QuoteResponse → Bool
  | .ok (some response) => call.any fun call => decide (call.request = request) &&
      decide (call.progress = .answered (.quote response))
  | .ok none => call.any fun call => decide (call.request = request) &&
      match call.progress with
      | .answered (.quote _) => true
      | _ => false
  | .error .unavailable => true
  | .error (.http error) => seesError (match call with
      | some ⟨request', _, .answered (.error e)⟩ => if request' = request then some e else none
      | _ => none) error

/-- A lookup by reference shows what is committed; a read may come before a commit. -/
def answersLookup (db : Ledger.Database) (transferId : Uuid) : Reply LedgerPosting → Bool
  | .ok (some posting) => db.transactions.rows.any fun tx =>
      decide (tx.externalReference = transferId) && decide (posting = Ledger.toResponse tx)
  | _ => true

/-- The answers an execution goes on with are those of the other services. -/
def State.answers (s : State) (e : Transaction.ExecId) (choice : Transaction.Choice) :
    Transaction.Pc → Bool
  | .byReference t _ => answersLookup s.ledger.db t.id choice.found
  | .post _ _ _ posting => answersPost (s.ledger.calls (.inl e)) posting choice.posting
  | .consume t quoteId =>
    answersConsume (s.fx.calls (.inl e)) (.consume quoteId (Transaction.consumeCommand t)) choice.quote
  | _ => true

def isPost : Ledger.Request → Bool
  | .post .. => true
  | _ => false

def isConsume : Fx.Request → Bool
  | .consume .. => true
  | _ => false

/-- The steps that can happen: requests between the services are those that Transaction made, and
postings and consumptions are made by nobody else. -/
def State.permits (s : State) : Action → Bool
  | .transaction (.run e choice) =>
    match s.transaction.executions e with
    | some ⟨_, some pc⟩ => s.answers e choice pc
    | _ => true
  | .transaction _ => true
  | .fx (.start (.inl e) request) => s.sentConsume e request
  | .fx (.refuse (.inl e) request error) =>
    s.sentConsume e request && decide (error ∉ Fx.consumeRejections)
  | .fx (.start (.inr _) request) | .fx (.refuse (.inr _) request _) => !isConsume request
  | .fx _ => true
  | .ledger (.start (.inl e) request) => s.sentPosting e request
  | .ledger (.refuse (.inl e) request error) =>
    s.sentPosting e request && decide (error ∉ Ledger.postRejections)
  | .ledger (.start (.inr _) request) | .ledger (.refuse (.inr _) request _) => !isPost request
  | .ledger _ => true

def State.initial : State := ⟨.initial, .initial, .initial⟩

def apply (config : Config) (s : State) : Action → Option State
  | .transaction action =>
    (Transaction.step config.transaction s.transaction action).map fun t => { s with transaction := t }
  | .fx action => (Fx.step s.fx action).map fun fx => { s with fx }
  | .ledger action => (Ledger.step config.ledger s.ledger action).map fun ledger => { s with ledger }

def step (config : Config) (s : State) (action : Action) : Option State :=
  if s.permits action then apply config s action else none

def system (config : Config) : System State Action := ⟨.initial, step config⟩

variable {config : Config} {s s' : State} {a : Action}

/-- The steps of the three services. -/
theorem step_cases (h : step config s a = some s') : s.permits a = true ∧
    ((∃ action t, a = .transaction action ∧
        Transaction.step config.transaction s.transaction action = some t ∧
        s' = { s with transaction := t }) ∨
      (∃ action fx, a = .fx action ∧ Fx.step s.fx action = some fx ∧ s' = { s with fx }) ∨
      ∃ action ledger, a = .ledger action ∧ Ledger.step config.ledger s.ledger action = some ledger ∧
        s' = { s with ledger }) := by
  unfold step at h
  split at h
  · next hpermits =>
    refine ⟨hpermits, ?_⟩
    cases a with
    | transaction action =>
      obtain ⟨t, ht, rfl⟩ := Option.map_eq_some_iff.mp h
      exact .inl ⟨action, t, rfl, ht, rfl⟩
    | fx action =>
      obtain ⟨fx, hfx, rfl⟩ := Option.map_eq_some_iff.mp h
      exact .inr (.inl ⟨action, fx, rfl, hfx, rfl⟩)
    | ledger action =>
      obtain ⟨ledger, hledger, rfl⟩ := Option.map_eq_some_iff.mp h
      exact .inr (.inr ⟨action, ledger, rfl, hledger, rfl⟩)
  · cases h

/-- Each service makes its own steps. -/
theorem transaction_simulation : System.Simulation (system config)
    (Transaction.system config.transaction) State.transaction := by
  refine ⟨rfl, fun s a s' _ h => ?_⟩
  obtain ⟨-, ⟨action, t, -, ht, rfl⟩ | ⟨_, _, -, -, rfl⟩ | ⟨_, _, -, -, rfl⟩⟩ := step_cases h
  · exact System.Steps.single ht
  · exact .refl
  · exact .refl

theorem fx_simulation : System.Simulation (system config) (Fx.system Caller) State.fx := by
  refine ⟨rfl, fun s a s' _ h => ?_⟩
  obtain ⟨-, ⟨_, _, -, -, rfl⟩ | ⟨action, fx, -, hfx, rfl⟩ | ⟨_, _, -, -, rfl⟩⟩ := step_cases h
  · exact .refl
  · exact System.Steps.single hfx
  · exact .refl

theorem ledger_simulation : System.Simulation (system config)
    (Ledger.system Caller config.ledger) State.ledger := by
  refine ⟨rfl, fun s a s' _ h => ?_⟩
  obtain ⟨-, ⟨_, _, -, -, rfl⟩ | ⟨_, _, -, -, rfl⟩ | ⟨action, ledger, -, hledger, rfl⟩⟩ := step_cases h
  · exact .refl
  · exact .refl
  · exact System.Steps.single hledger

theorem sentPosting_iff {e : Transaction.ExecId} {request : Ledger.Request} :
    s.sentPosting e request = true ↔ ∃ t sender recipient posting, request = .post posting false ∧
      (e, .post t sender recipient posting) ∈ s.transaction.calls := by
  unfold State.sentPosting
  rw [List.any_eq_true]
  constructor
  · rintro ⟨⟨i, call⟩, hmem, h⟩
    cases call with
    | post t sender recipient posting =>
      simp only [Bool.and_eq_true, decide_eq_true_eq] at h
      obtain ⟨rfl, rfl⟩ := h
      exact ⟨t, sender, recipient, posting, rfl, hmem⟩
    | _ => simp at h
  · rintro ⟨t, sender, recipient, posting, rfl, hmem⟩
    exact ⟨_, hmem, by simp⟩

theorem sentConsume_iff {e : Transaction.ExecId} {request : Fx.Request} :
    s.sentConsume e request = true ↔ ∃ quoteId command, request = .consume quoteId command ∧
      (e, .consume quoteId command) ∈ s.transaction.calls := by
  unfold State.sentConsume
  rw [List.any_eq_true]
  constructor
  · rintro ⟨⟨i, call⟩, hmem, h⟩
    cases call with
    | consume quoteId command =>
      simp only [Bool.and_eq_true, decide_eq_true_eq] at h
      obtain ⟨rfl, rfl⟩ := h
      exact ⟨quoteId, command, rfl, hmem⟩
    | _ => simp at h
  · rintro ⟨quoteId, command, rfl, hmem⟩
    exact ⟨_, hmem, by simp⟩

end NovaPay.Settlement
