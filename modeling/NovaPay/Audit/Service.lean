import NovaPay.Audit.Schema
import NovaPay.Library.TransitionSystem

/-!
# Calls of the audit service

`append`, `appendOperatorAction` and `verify` as calls that interleave between their statements. A call
in a transaction holds the row of its stream, and its record is seen by the others only through the unique
indexes until it commits.
-/

namespace NovaPay.Audit

open JsonText TransitionSystem Varchar

inductive Request
  | append (input : AppendAuditEventDto)
  | appendOperatorAction (input : AppendAuditEventDto)
  | verify (streamKey : String)

/-- An event on its way to be appended. -/
structure Append where
  input : NormalizedAuditEvent
  acceptOperatorRetry : Bool

/-- The statement a call waits at. -/
inductive Pc
  | findPrior (a : Append)
  | insertStream (a : Append)
  | lockHead (a : Append) (inserted : Bool)
  | findExisting (a : Append) (head : Option AuditStream)
  | create (a : Append) (head : AuditStream)
  | updateStream (a : Append) (created : AuditRecord)
  | commitCreated (a : Append) (created : AuditRecord)
  | commitExisting (a : Append) (head : Option AuditStream) (existing : AuditRecord)
  | findWinner (a : Append)
  | verifyStream (streamKey : String)
  | verifyRecords (streamKey : String) (stream : AuditStream)

/-- `AuditVerificationResponseDto` -/
structure AuditVerification where
  streamKey : String
  valid : Bool
  recordsChecked : ℕ
  firstInvalidSequence : Option ℕ
deriving DecidableEq, Repr

inductive Outcome
  | record (response : AuditRecordResponse)
  | verification (response : AuditVerification)
  | error (error : HttpError)

inductive Next
  | goto (pc : Pc)
  | answer (outcome : Outcome)

def auditEventIdReused : HttpError :=
  ⟨409, "AUDIT_EVENT_ID_REUSED", "The audit event ID was already used for different canonical data."⟩

def streamNotFound : HttpError := ⟨404, "AUDIT_STREAM_NOT_FOUND", "Audit stream not found."⟩

/-! ### What the calls hold -/

/-- The stream whose row the transaction of a call holds. -/
def Pc.held? : Pc → Option String
  | .lockHead a true => some a.input.streamKey
  | .findExisting a head => head.map fun _ => a.input.streamKey
  | .create a _ => some a.input.streamKey
  | .updateStream a _ => some a.input.streamKey
  | .commitCreated a _ => some a.input.streamKey
  | .commitExisting a head _ => head.map fun _ => a.input.streamKey
  | _ => none

/-- The record that the transaction of a call has inserted. -/
def Pc.pending? : Pc → Option AuditRecord
  | .updateStream _ created => some created
  | .commitCreated _ created => some created
  | _ => none

/-- A call runs, has answered, or was stopped. -/
inductive Progress
  | running (pc : Pc)
  | answered (outcome : Outcome)
  | stopped

def Progress.held? : Progress → Option String
  | .running pc => pc.held?
  | _ => none

def Progress.pending? : Progress → Option AuditRecord
  | .running pc => pc.pending?
  | _ => none

structure Call where
  request : Request
  progress : Progress

/-- The committed rows. A stream is found by its key; the records are listed as they were committed. -/
structure Database where
  streams : String → Option AuditStream
  records : List AuditRecord

namespace Database

def empty : Database := ⟨fun _ => none, []⟩

def findEvent (db : Database) (eventId : Uuid) : Option AuditRecord :=
  db.records.find? fun r => decide (r.eventId = eventId)

/-- The records of a stream by their sequence. -/
def recordsOf (db : Database) (streamKey : String) : List AuditRecord :=
  (db.records.filter fun r => decide (r.streamKey = streamKey)).insertionSort
    fun r q => r.sequence ≤ q.sequence

end Database

/-- Two records that a unique index does not let stand together. -/
def conflicts (r q : AuditRecord) : Bool :=
  decide (r.eventId = q.eventId) || (decide (r.streamKey = q.streamKey) &&
    (decide (r.sequence = q.sequence) || decide (r.currentHash = q.currentHash)))

structure State (ι : Type) where
  db : Database
  calls : ι → Option Call
  /-- The calls that were started, the latest first. -/
  started : List ι

section Others

variable {ι : Type} [DecidableEq ι]

/-- What the other calls are at. -/
def State.others (s : State ι) (i : ι) : List Progress :=
  (s.started.filter fun j => decide (j ≠ i)).filterMap fun j => (s.calls j).map Call.progress

/-- Another transaction holds the row of the stream. -/
def State.held (s : State ι) (i : ι) (streamKey : String) : Bool :=
  (s.others i).any fun progress => decide (progress.held? = some streamKey)

/-- Another transaction has inserted a record that does not let this one stand. -/
def State.contested (s : State ι) (i : ι) (r : AuditRecord) : Bool :=
  (s.others i).any fun progress => progress.pending?.any fun q => conflicts q r

end Others

/-! ### Append -/

def matchesEvent (r : AuditRecord) (a : Append) : Bool :=
  decide (r.streamKey = a.input.streamKey) && decide (r.action = a.input.action) &&
    decide (r.entityType = a.input.entityType) && decide (r.entityId = a.input.entityId) &&
    decide (r.actorId = a.input.actorId) &&
    (a.acceptOperatorRetry || decide (r.date = a.input.occurredAt)) &&
    decide (canonicalMetadata (asMetadata r.metadata.read) = canonicalMetadata a.input.metadata.val)

def resolveExisting (r : AuditRecord) (a : Append) : Outcome :=
  if matchesEvent r a then .record (toResponse r) else .error auditEventIdReused

section Statements

variable (config : Config) (db : Database)

/-- The columns that `create` is given, if the metadata can be written. -/
def newRecord (event : NormalizedAuditEvent) (head : AuditStream) : Option AuditRecord :=
  event.metadata.write?.map fun metadata => {
    eventId := event.eventId
    streamKey := event.streamKey
    sequence := head.lastSequence + 1
    action := event.action
    entityType := event.entityType
    entityId := event.entityId
    actorId := event.actorId
    occurredAt := event.occurredAt * 1000
    metadata := metadata
    previousHash := head.lastHash
    currentHash := computeAuditHash config (event.hashInput (head.lastSequence + 1) head.lastHash) }

def runFindPrior (a : Append) : Next :=
  match db.findEvent a.input.eventId with
  | some prior => .answer (resolveExisting prior a)
  | none => .goto (.insertStream a)

/-- `ON CONFLICT DO NOTHING`, which waits for another transaction that inserts the stream. -/
def runInsertStream (held : Bool) (a : Append) : Option Next :=
  if !fitsColumn 160 a.input.streamKey then some (.answer (.error internalServerError))
  else
    match db.streams a.input.streamKey with
    | some _ => some (.goto (.lockHead a false))
    | none => if held then none else some (.goto (.lockHead a true))

/-- `FOR UPDATE`, which waits for another transaction that holds the row. -/
def runLockHead (held : Bool) (a : Append) (inserted : Bool) : Option Next :=
  if inserted then some (.goto (.findExisting a (some .genesis)))
  else if held then none
  else some (.goto (.findExisting a (db.streams a.input.streamKey)))

def runFindExisting (a : Append) (head : Option AuditStream) : Next :=
  match db.findEvent a.input.eventId with
  | some existing => .goto (.commitExisting a head existing)
  | none =>
    match head with
    | some head => .goto (.create a head)
    | none => .answer (.error internalServerError)

/-- The insert waits for another transaction that has inserted a record with one of its unique values. -/
def runCreate (contested : AuditRecord → Bool) (a : Append) (head : AuditStream) : Option Next :=
  match newRecord config a.input head with
  | none => some (.answer (.error internalServerError))
  | some r =>
    if !r.fits then some (.answer (.error internalServerError))
    else if db.records.any (conflicts r) then some (.goto (.findWinner a))
    else if contested r then none
    else some (.goto (.updateStream a r))

def commitCreated (r : AuditRecord) : Database where
  streams := Function.update db.streams r.streamKey (some ⟨r.sequence, r.currentHash⟩)
  records := db.records ++ [r]

/-- The commit of a transaction that wrote no more than a new stream. -/
def commitExisting (a : Append) : Option AuditStream → Database
  | some head => { db with streams := Function.update db.streams a.input.streamKey (some head) }
  | none => db

def runFindWinner (a : Append) : Next :=
  match db.findEvent a.input.eventId with
  | some winner => .answer (resolveExisting winner a)
  | none => .answer (.error internalServerError)

end Statements

/-! ### Verify -/

/-- The variables of the loop of `verify`. -/
structure Verifying where
  expectedSequence : ℕ
  previousHash : Digest
  recordsChecked : ℕ
  firstInvalidSequence : Option ℕ

def verifyLoop (config : Config) : Verifying → List AuditRecord → Verifying
  | v, [] => v
  | v, r :: rs =>
    if r.sequence ≠ v.expectedSequence ∨ r.previousHash ≠ v.previousHash then
      { v with
        recordsChecked := v.recordsChecked + 1
        firstInvalidSequence := some v.expectedSequence }
    else if computeAuditHash config (r.hashInput v.previousHash) ≠ r.currentHash then
      { v with
        recordsChecked := v.recordsChecked + 1
        firstInvalidSequence := some r.sequence }
    else
      verifyLoop config {
        expectedSequence := v.expectedSequence + 1
        previousHash := r.currentHash
        recordsChecked := v.recordsChecked + 1
        firstInvalidSequence := none } rs

/-- `verify` after its two reads. -/
def verifyRecords (config : Config) (streamKey : String) (stream : AuditStream)
    (records : List AuditRecord) : AuditVerification :=
  let v := verifyLoop config ⟨1, 0, 0, none⟩ records
  let firstInvalidSequence :=
    if v.firstInvalidSequence = none ∧
        (stream.lastSequence ≠ v.expectedSequence - 1 ∨ stream.lastHash ≠ v.previousHash) then
      some v.expectedSequence
    else v.firstInvalidSequence
  { streamKey := streamKey
    valid := firstInvalidSequence.isNone
    recordsChecked := v.recordsChecked
    firstInvalidSequence := firstInvalidSequence }

def runVerifyStream (db : Database) (streamKey : String) : Next :=
  match db.streams streamKey with
  | some stream => .goto (.verifyRecords streamKey stream)
  | none => .answer (.error streamNotFound)

/-! ### Steps -/

/-- The statement and the code up to the next one, unless it waits. -/
def advance (config : Config) (db : Database) (held : String → Bool) (contested : AuditRecord → Bool) :
    Pc → Option (Database × Next)
  | .findPrior a => some (db, runFindPrior db a)
  | .insertStream a => (runInsertStream db (held a.input.streamKey) a).map fun next => (db, next)
  | .lockHead a inserted =>
    (runLockHead db (held a.input.streamKey) a inserted).map fun next => (db, next)
  | .findExisting a head => some (db, runFindExisting db a head)
  | .create a head => (runCreate config db contested a head).map fun next => (db, next)
  | .updateStream a created => some (db, .goto (.commitCreated a created))
  | .commitCreated a created =>
    some (commitCreated db created, .answer (resolveExisting created a))
  | .commitExisting a head existing =>
    some (commitExisting db a head, .answer (resolveExisting existing a))
  | .findWinner a => some (db, runFindWinner db a)
  | .verifyStream streamKey => some (db, runVerifyStream db streamKey)
  | .verifyRecords streamKey stream =>
    some (db, .answer (.verification (verifyRecords config streamKey stream (db.recordsOf streamKey))))

/-- The code before the first statement, and that statement. -/
def appendEntry (input : AppendAuditEventDto) (acceptOperatorRetry : Bool) : Next :=
  match normalizeEvent input with
  | .ok event => .goto (.findPrior ⟨event, acceptOperatorRetry⟩)
  | .error error => .answer (.error error)

def Request.entry : Request → Next
  | .append input => appendEntry input false
  | .appendOperatorAction input => appendEntry input true
  | .verify streamKey => .goto (.verifyStream streamKey)

def Next.progress : Next → Progress
  | .goto pc => .running pc
  | .answer outcome => .answered outcome

inductive Action (ι : Type)
  | start (i : ι) (request : Request)
  | run (i : ι)
  | stop (i : ι)

variable {ι : Type} [DecidableEq ι]

namespace State

def initial : State ι := ⟨.empty, fun _ => none, []⟩

def setCall (s : State ι) (i : ι) (call : Call) : State ι :=
  { s with calls := Function.update s.calls i (some call) }

variable {s : State ι} {i j : ι} {call : Call}

@[simp] theorem setCall_db : (s.setCall i call).db = s.db := rfl

@[simp] theorem setCall_started : (s.setCall i call).started = s.started := rfl

@[simp] theorem setCall_calls_self : (s.setCall i call).calls i = some call := Function.update_self ..

theorem setCall_calls_of_ne (h : j ≠ i) : (s.setCall i call).calls j = s.calls j :=
  Function.update_of_ne h ..

end State

/-- A call that is stopped answers nothing; the transaction it has open is rolled back. -/
def step (config : Config) (s : State ι) : Action ι → Option (State ι)
  | .start i request =>
    match s.calls i with
    | none => some ({ s with started := i :: s.started }.setCall i ⟨request, request.entry.progress⟩)
    | some _ => none
  | .run i =>
    match s.calls i with
    | some ⟨request, .running pc⟩ =>
      (advance config s.db (s.held i) (s.contested i) pc).map fun (db, next) =>
        { s with db }.setCall i ⟨request, next.progress⟩
    | _ => none
  | .stop i =>
    match s.calls i with
    | some ⟨request, .running _⟩ => some (s.setCall i ⟨request, .stopped⟩)
    | _ => none

def system (ι : Type) [DecidableEq ι] (config : Config) : System (State ι) (Action ι) :=
  ⟨.initial, step config⟩

end NovaPay.Audit
