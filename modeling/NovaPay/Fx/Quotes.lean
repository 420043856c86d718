import NovaPay.Library.TransitionSystem
import NovaPay.Library.Relational
import NovaPay.Wire

/-!
# The FX service

`fx_quotes` with its constraints, and `QuoteService`: its transactions run at READ COMMITTED and
interleave between their statements.
-/

namespace NovaPay.Fx

open DecimalArithmetic Relational TransitionSystem

structure FxQuote where
  id : Uuid
  clientId : Principal
  sourceCurrency : Currency
  targetCurrency : Currency
  sourceAmount : Money
  targetAmount : Money
  rate : Rate
  providerReference : String
  status : QuoteStatus
  issuedAt : Date
  expiresAt : Date
  consumedAt : Option Date
  consumedByTransferId : Option Uuid
deriving DecidableEq, Repr

/-- `fx_quotes_ttl_check`, in milliseconds. -/
def quoteTtl : ℕ := 60000

/-- The CHECK constraints of `fx_quotes`. -/
def FxQuote.check (q : FxQuote) : Bool :=
  decide (q.sourceCurrency ≠ q.targetCurrency) && decide (0 < q.sourceAmount.value) &&
    decide (0 < q.targetAmount.value) && decide (0 < q.rate.value) &&
    decide (q.expiresAt = q.issuedAt + quoteTtl) &&
    (decide (q.status = .consumed) == (q.consumedAt.isSome && q.consumedByTransferId.isSome))

/-- `novapay_guard_fx_quote_update`. -/
def guardQuoteUpdate (old new : FxQuote) : Bool :=
  decide (old.clientId = new.clientId) && decide (old.sourceCurrency = new.sourceCurrency) &&
    decide (old.targetCurrency = new.targetCurrency) &&
    decide (old.sourceAmount = new.sourceAmount) && decide (old.targetAmount = new.targetAmount) &&
    decide (old.rate = new.rate) && decide (old.providerReference = new.providerReference) &&
    decide (old.issuedAt = new.issuedAt) && decide (old.expiresAt = new.expiresAt) &&
    (decide (old.status = new.status) ||
      (decide (old.status = .active) && decide (new.status ≠ .active)))

def quotesIndexed (rows : List FxQuote) : Bool :=
  uniqueBy FxQuote.id rows && uniqueWhere FxQuote.consumedByTransferId rows

def quotesSchema : Schema FxQuote where
  check := FxQuote.check
  indexed := quotesIndexed
  guard := guardQuoteUpdate

abbrev Quotes := Table quotesSchema

def findQuote (quotes : Quotes) (id : Uuid) : Option FxQuote := findBy FxQuote.id id quotes.rows

def sameCurrencyQuote : HttpError :=
  ⟨409, "SAME_CURRENCY_QUOTE", "Source and target currencies must differ."⟩

def quoteNotFound : HttpError := ⟨404, "QUOTE_NOT_FOUND", "FX quote not found."⟩

def quoteAccessDenied : HttpError := ⟨403, "QUOTE_ACCESS_DENIED", "Quote access denied."⟩

def quoteDetailsMismatch : HttpError :=
  ⟨409, "QUOTE_DETAILS_MISMATCH", "The quote does not match the transfer details."⟩

def quoteAlreadyUsed : HttpError :=
  ⟨409, "QUOTE_ALREADY_USED", "The quote was already consumed by another transfer."⟩

def quoteExpired : HttpError := ⟨409, "QUOTE_EXPIRED", "The FX quote has expired."⟩

/-- The rejections of `QuoteService.consume`. -/
def consumeRejections : List HttpError :=
  [quoteNotFound, quoteAccessDenied, quoteDetailsMismatch, quoteAlreadyUsed, quoteExpired]

structure CreateQuote where
  sourceCurrency : Currency
  targetCurrency : Currency
  sourceAmount : MoneyText
deriving DecidableEq, Repr

/-- The answer of the provider: a rate text and its reference. -/
structure FreshRate where
  rate : Text
  providerReference : String
deriving DecidableEq, Repr

def toResponse (q : FxQuote) (now : Date) : QuoteResponse :=
  let valid := decide (q.status = .active) && decide (now < q.expiresAt)
  { quoteId := q.id
    sourceCurrency := q.sourceCurrency
    targetCurrency := q.targetCurrency
    sourceAmount := toFixed 8 q.sourceAmount.value
    targetAmount := toFixed 8 q.targetAmount.value
    rate := toFixed 12 q.rate.value
    status := q.status
    issuedAt := q.issuedAt
    expiresAt := q.expiresAt
    valid := valid
    remainingSeconds := if valid then (q.expiresAt - now + 999) / 1000 else 0 }

inductive Request
  | create (clientId : Principal) (command : CreateQuote)
  | get (clientId : Principal) (quoteId : Uuid)
  | consume (quoteId : Uuid) (command : ConsumeQuote)
deriving DecidableEq, Repr

/-- The statement a call waits at. The transaction's clock is read when it starts. -/
inductive Pc
  | insert (clientId : Principal) (command : CreateQuote) (now : Date)
  | getRead (clientId : Principal) (quoteId : Uuid) (now : Date)
  | expire (quoteId : Uuid) (now : Date)
  | consumeRead (quoteId : Uuid) (command : ConsumeQuote) (now : Date)
  | rejectExpired (quoteId : Uuid)
  | claim (quoteId : Uuid) (command : ConsumeQuote) (now : Date)
  | winner (quoteId : Uuid) (command : ConsumeQuote) (now : Date)
deriving DecidableEq, Repr

inductive Outcome
  | quote (response : QuoteResponse)
  | error (error : HttpError)
deriving DecidableEq, Repr

/-- The id and the provider's rate a creation uses. -/
structure Choice where
  id : Uuid := 0
  fresh : FreshRate := ⟨⟨0, 0⟩, ""⟩

inductive Next
  | goto (pc : Pc)
  | answer (outcome : Outcome)
deriving DecidableEq, Repr

/-- `new Decimal(a).mul(b).toDecimalPlaces(8)`: twenty significant digits, then eight places. -/
def convert (sourceAmount rate : ℚ) : ℚ := (toFixed 8 (roundSig 20 (sourceAmount * rate))).value

def newQuote (clientId : Principal) (command : CreateQuote) (sourceAmount targetAmount : Money)
    (rate : Rate) (c : Choice) (now : Date) : FxQuote where
  id := c.id
  clientId := clientId
  sourceCurrency := command.sourceCurrency
  targetCurrency := command.targetCurrency
  sourceAmount := sourceAmount
  targetAmount := targetAmount
  rate := rate
  providerReference := c.fresh.providerReference
  status := .active
  issuedAt := now
  expiresAt := now + quoteTtl
  consumedAt := none
  consumedByTransferId := none

namespace FxQuote

def expire (q : FxQuote) : FxQuote := { q with status := .expired }

def consume (q : FxQuote) (transferId : Uuid) (now : Date) : FxQuote :=
  { q with status := .consumed, consumedAt := some now, consumedByTransferId := some transferId }

end FxQuote

section Statements

variable (c : Choice) (quotes : Quotes)

/-- The transaction of `create`. -/
def runInsert (clientId : Principal) (command : CreateQuote) (now : Date) : Quotes × Next :=
  match (Numeric.ofRat? command.sourceAmount.val.value : Option Money),
      (Numeric.ofRat? (convert command.sourceAmount.val.value c.fresh.rate.value) : Option Money),
      (Numeric.ofRat? c.fresh.rate.value : Option Rate) with
  | some sourceAmount, some targetAmount, some rate =>
    let quote := newQuote clientId command sourceAmount targetAmount rate c now
    match quotes.insertMany [quote] with
    | .ok quotes' => (quotes', .answer (.quote (toResponse quote now)))
    | .error _ => (quotes, .answer (.error internalServerError))
  | _, _, _ => (quotes, .answer (.error internalServerError))

def runGetRead (clientId : Principal) (quoteId : Uuid) (now : Date) : Next :=
  match findQuote quotes quoteId with
  | none => .answer (.error quoteNotFound)
  | some quote =>
    if quote.clientId ≠ clientId then .answer (.error quoteAccessDenied)
    else if quote.status = .active ∧ quote.expiresAt ≤ now then .goto (.expire quoteId now)
    else .answer (.quote (toResponse quote now))

/-- `update` of the status in `get`, which the trigger refuses once the quote is consumed. -/
def runExpire (quoteId : Uuid) (now : Date) : Quotes × Next :=
  match quotes.updateMany (fun q => decide (q.id = quoteId)) FxQuote.expire with
  | .ok (quotes', _) =>
    match findQuote quotes' quoteId with
    | some quote => (quotes', .answer (.quote (toResponse quote now)))
    | none => (quotes, .answer (.error internalServerError))
  | .error _ => (quotes, .answer (.error internalServerError))

/-- `consume` up to its update. -/
def runConsumeRead (quoteId : Uuid) (command : ConsumeQuote) (now : Date) : Next :=
  match findQuote quotes quoteId with
  | none => .answer (.error quoteNotFound)
  | some quote =>
    if quote.clientId ≠ command.clientId then .answer (.error quoteAccessDenied)
    else if quote.sourceCurrency ≠ command.sourceCurrency ∨
        quote.targetCurrency ≠ command.targetCurrency ∨
        quote.sourceAmount.value ≠ command.sourceAmount.value then
      .answer (.error quoteDetailsMismatch)
    else if quote.status = .consumed then
      if quote.consumedByTransferId.map UuidText.ofUuid = some command.transferId then
        .answer (.quote (toResponse quote now))
      else .answer (.error quoteAlreadyUsed)
    else if quote.status = .expired ∨ quote.expiresAt ≤ now then
      if quote.status = .active then .goto (.rejectExpired quoteId)
      else .answer (.error quoteExpired)
    else .goto (.claim quoteId command now)

/-- The update before `QUOTE_EXPIRED` is thrown; the exception rolls it back, so only a refusal of
the trigger shows. -/
def runRejectExpired (quoteId : Uuid) : Next :=
  match quotes.updateMany (fun q => decide (q.id = quoteId)) FxQuote.expire with
  | .ok _ => .answer (.error quoteExpired)
  | .error _ => .answer (.error internalServerError)

/-- The rows the update of `consume` matches. -/
def claimable (quoteId : Uuid) (now : Date) (q : FxQuote) : Bool :=
  decide (q.id = quoteId) && decide (q.status = .active) && decide (now < q.expiresAt) &&
    q.consumedByTransferId.isNone

def runClaim (quoteId : Uuid) (command : ConsumeQuote) (now : Date) : Quotes × Next :=
  match quotes.updateMany (claimable quoteId now) (fun q => q.consume command.transferId.value now) with
  | .ok (quotes', count) =>
    if count ≠ 1 then (quotes', .goto (.winner quoteId command now))
    else
      match findQuote quotes' quoteId with
      | some quote => (quotes', .answer (.quote (toResponse quote now)))
      | none => (quotes, .answer (.error internalServerError))
  | .error _ => (quotes, .answer (.error internalServerError))

/-- The second read of `consume`, after another transaction came first. -/
def runWinner (quoteId : Uuid) (command : ConsumeQuote) (now : Date) : Next :=
  match findQuote quotes quoteId with
  | some quote =>
    if quote.consumedByTransferId.map UuidText.ofUuid = some command.transferId then
      .answer (.quote (toResponse quote now))
    else .answer (.error quoteAlreadyUsed)
  | none => .answer (.error internalServerError)

def advance : Pc → Quotes × Next
  | .insert clientId command now => runInsert c quotes clientId command now
  | .getRead clientId quoteId now => (quotes, runGetRead quotes clientId quoteId now)
  | .expire quoteId now => runExpire quotes quoteId now
  | .consumeRead quoteId command now => (quotes, runConsumeRead quotes quoteId command now)
  | .rejectExpired quoteId => (quotes, runRejectExpired quotes quoteId)
  | .claim quoteId command now => runClaim quotes quoteId command now
  | .winner quoteId command now => (quotes, runWinner quotes quoteId command now)

end Statements

/-- The checks before the transaction, and its first statement with the clock it reads. -/
def Request.entry (now : Date) : Request → Next
  | .create clientId command =>
    if command.sourceCurrency = command.targetCurrency then .answer (.error sameCurrencyQuote)
    else .goto (.insert clientId command now)
  | .get clientId quoteId => .goto (.getRead clientId quoteId now)
  | .consume quoteId command => .goto (.consumeRead quoteId command now)

/-- A call runs, has answered, or was stopped. -/
inductive Progress
  | running (pc : Pc)
  | answered (outcome : Outcome)
  | stopped
deriving DecidableEq, Repr

structure Call where
  request : Request
  /-- The database clock when the call arrived. -/
  arrivedAt : Time
  progress : Progress
deriving DecidableEq, Repr

structure State (ι : Type) where
  quotes : Quotes
  now : Time
  calls : ι → Option Call

inductive Action (ι : Type)
  | tick (elapsed : ℕ)
  | start (i : ι) (request : Request)
  | refuse (i : ι) (request : Request) (error : HttpError)
  | run (i : ι) (choice : Choice)
  | stop (i : ι)

def Next.progress : Next → Progress
  | .goto pc => .running pc
  | .answer outcome => .answered outcome

variable {ι : Type} [DecidableEq ι]

def State.initial : State ι := ⟨⟨[], by simp, rfl⟩, 0, fun _ => none⟩

def State.setCall (s : State ι) (i : ι) (call : Call) : State ι :=
  { s with calls := Function.update s.calls i (some call) }

def State.withQuotes (s : State ι) (quotes : Quotes) : State ι := { s with quotes }

/-- A call that is refused never reaches the service: it is answered by what stands before it. -/
def step (s : State ι) : Action ι → Option (State ι)
  | .tick elapsed => some { s with now := s.now + elapsed }
  | .start i request =>
    match s.calls i with
    | none => some (s.setCall i ⟨request, s.now, (request.entry s.now.toDate).progress⟩)
    | some _ => none
  | .refuse i request error =>
    match s.calls i with
    | none => some (s.setCall i ⟨request, s.now, .answered (.error error)⟩)
    | some _ => none
  | .run i choice =>
    match s.calls i with
    | some ⟨request, arrivedAt, .running pc⟩ =>
      let (quotes, next) := advance choice s.quotes pc
      some ((s.withQuotes quotes).setCall i ⟨request, arrivedAt, next.progress⟩)
    | _ => none
  | .stop i =>
    match s.calls i with
    | some ⟨request, arrivedAt, .running _⟩ => some (s.setCall i ⟨request, arrivedAt, .stopped⟩)
    | _ => none

def system (ι : Type) [DecidableEq ι] : System (State ι) (Action ι) := ⟨.initial, step⟩

end NovaPay.Fx
