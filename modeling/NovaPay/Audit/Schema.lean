import NovaPay.Audit.Metadata
import NovaPay.Library.Calendar
import NovaPay.Library.HashChain
import NovaPay.Library.Hexadecimal
import NovaPay.Library.Varchar

/-!
# Audit records

The rows of `audit_streams` and `audit_records`, the events they are written from, and the text that is
hashed. A digest is computed from every column that is written but the event id.
-/

namespace NovaPay.Audit

open Hexadecimal JsonText Varchar

structure Config where
  sha256 : List Char → Digest

/-! ### Digests -/

/-- The hexadecimal digits of a digest. -/
def hex (d : Digest) : List Char := (Nat.toDigits 16 d).leftpad 64 '0'

theorem hex_eq_digits (d : Digest) : ∃ n, d < 16 ^ n ∧ hex d = digits n d := exists_leftpad_eq_digits 64 d

theorem hex_injective : Function.Injective hex := by
  intro d e h
  obtain ⟨n, hd, hdigits⟩ := hex_eq_digits d
  obtain ⟨m, he, hdigits'⟩ := hex_eq_digits e
  rw [← value_digits hd, ← value_digits he, ← hdigits, ← hdigits', h]

theorem hex_chars (d : Digest) : ∀ c ∈ hex d, c ≠ '\x00' := by
  obtain ⟨n, -, hdigits⟩ := hex_eq_digits d
  rintro c hc rfl
  rw [hdigits] at hc
  exact absurd (isDigit_of_mem_digits hc) (by decide)

/-- The digits end where the separator stands. -/
theorem hex_append_inj {d e : Digest} {r s : List Char}
    (h : hex d ++ '\x00' :: r = hex e ++ '\x00' :: s) : d = e ∧ r = s := by
  have htake : ∀ (d : Digest) (r : List Char),
      (hex d ++ '\x00' :: r).takeWhile (fun c => decide (c ≠ '\x00')) = hex d := by
    intro d r
    rw [List.takeWhile_append_of_pos fun c hc => decide_eq_true (hex_chars d c hc)]
    simp
  have hhex : hex d = hex e := by rw [← htake d r, h, htake]
  have hde : d = e := hex_injective hhex
  rw [hhex] at h
  exact ⟨hde, (List.cons.inj (List.append_cancel_left h)).2⟩

/-! ### The hash of a record -/

/-- What `computeAuditHash` is given. -/
structure AuditHashInput where
  streamKey : String
  sequence : ℕ
  previousHash : Digest
  action : String
  entityType : String
  entityId : String
  actorId : Option String
  occurredAt : ℤ
  metadata : List (String × Value Double)

def AuditHashInput.canonical (input : AuditHashInput) : Value Double :=
  .object [
    ("streamKey", .string input.streamKey),
    ("sequence", .string (String.ofList (Nat.toDigits 10 input.sequence))),
    ("action", .string input.action),
    ("entityType", .string input.entityType),
    ("entityId", .string input.entityId),
    ("actorId", input.actorId.elim .null .string),
    ("occurredAt", .string (String.ofList (Calendar.toISOString input.occurredAt))),
    ("metadata", .object (sortObject input.metadata))]

/-- The text that is hashed. -/
def AuditHashInput.text (input : AuditHashInput) : List Char :=
  "novapay:audit-chain:v1".toList ++ '\x00' :: (hex input.previousHash ++ '\x00' ::
    stringify Double.jsonFormat input.canonical)

def computeAuditHash (config : Config) (input : AuditHashInput) : Digest := config.sha256 input.text

/-- The input as the text shows it. -/
def AuditHashInput.sorted (input : AuditHashInput) : AuditHashInput :=
  { input with metadata := sortObject input.metadata }

theorem AuditHashInput.sorted_eq_of_text {a b : AuditHashInput} (h : a.text = b.text) :
    a.sorted = b.sorted := by
  obtain ⟨hprevious, htext⟩ := hex_append_inj (List.cons.inj (List.append_cancel_left h)).2
  have hcanonical := stringify_injective _ htext
  simp only [canonical, Value.object.injEq, List.cons.injEq, Prod.mk.injEq, Value.string.injEq,
    true_and, and_true, String.ofList_inj] at hcanonical
  obtain ⟨hstream, hsequence, haction, htype, hid, hactor, htime, hmetadata⟩ := hcanonical
  have hactorId : a.actorId = b.actorId := by
    cases ha : a.actorId <;> cases hb : b.actorId <;> simp_all
  have hnumber : a.sequence = b.sequence := by
    rw [← Nat.ofDigitChars_ten_toDigits (n := a.sequence), hsequence, Nat.ofDigitChars_ten_toDigits]
  simp only [AuditHashInput.sorted, mk.injEq]
  exact ⟨hstream, hnumber, hprevious, haction, htype, hid, hactorId,
    Calendar.toISOString_injective htime, hmetadata⟩

/-! ### Events -/

/-- `AppendAuditEventDto`. The time is the one that `new Date` reads of its text, if it is one. -/
structure AppendAuditEventDto where
  eventId : Uuid
  streamKey : String
  action : String
  entityType : String
  entityId : String
  actorId : Option String
  occurredAt : Option ℤ
  metadata : Option Metadata

@[ext]
structure NormalizedAuditEvent where
  eventId : Uuid
  streamKey : String
  action : String
  entityType : String
  entityId : String
  actorId : Option String
  occurredAt : ℤ
  metadata : SafeMetadata

def invalidOccurredAt : HttpError := ⟨400, "INVALID_OCCURRED_AT", "occurredAt is invalid."⟩

def Metadata.empty : Metadata := ⟨[], rfl⟩

def normalizeEvent (input : AppendAuditEventDto) : Except HttpError NormalizedAuditEvent :=
  match input.occurredAt with
  | none => .error invalidOccurredAt
  | some occurredAt => do
    let metadata ← sanitizeMetadata (input.metadata.getD Metadata.empty)
    return {
      eventId := input.eventId
      streamKey := input.streamKey
      action := input.action
      entityType := input.entityType
      entityId := input.entityId
      actorId := input.actorId
      occurredAt := occurredAt
      metadata := metadata }

/-- The hash input of an event at a place of its stream. -/
def NormalizedAuditEvent.hashInput (event : NormalizedAuditEvent) (sequence : ℕ)
    (previousHash : Digest) : AuditHashInput where
  streamKey := event.streamKey
  sequence := sequence
  previousHash := previousHash
  action := event.action
  entityType := event.entityType
  entityId := event.entityId
  actorId := event.actorId
  occurredAt := event.occurredAt
  metadata := event.metadata.val

/-! ### Rows -/

/-- The row of a stream but its key. -/
structure AuditStream where
  lastSequence : ℕ
  lastHash : Digest
deriving DecidableEq, Repr

/-- The defaults of a new stream. -/
def AuditStream.genesis : AuditStream := ⟨0, 0⟩

structure AuditRecord where
  eventId : Uuid
  streamKey : String
  sequence : ℕ
  action : String
  entityType : String
  entityId : String
  actorId : Option String
  occurredAt : ℤ
  metadata : Jsonb
  previousHash : Digest
  currentHash : Digest

/-- The `Date` of the column, which has microseconds. -/
def AuditRecord.date (r : AuditRecord) : ℤ := r.occurredAt / 1000

/-- The hash input of a record that is read. -/
def AuditRecord.hashInput (r : AuditRecord) (previousHash : Digest) : AuditHashInput where
  streamKey := r.streamKey
  sequence := r.sequence
  previousHash := previousHash
  action := r.action
  entityType := r.entityType
  entityId := r.entityId
  actorId := r.actorId
  occurredAt := r.date
  metadata := asMetadata r.metadata.read

/-- The columns of a record that the database checks. -/
def AuditRecord.fits (r : AuditRecord) : Bool :=
  fitsColumn 160 r.streamKey && fitsColumn 100 r.action && fitsColumn 80 r.entityType &&
    fitsColumn 128 r.entityId && r.actorId.all (fitsColumn 128)

/-- `AuditRecordResponseDto` -/
structure AuditRecordResponse where
  eventId : Uuid
  streamKey : String
  sequence : ℕ
  action : String
  entityType : String
  entityId : String
  actorId : Option String
  occurredAt : ℤ
  metadata : List (String × Value Double)
  previousHash : Digest
  currentHash : Digest

def toResponse (r : AuditRecord) : AuditRecordResponse where
  eventId := r.eventId
  streamKey := r.streamKey
  sequence := r.sequence
  action := r.action
  entityType := r.entityType
  entityId := r.entityId
  actorId := r.actorId
  occurredAt := r.date
  metadata := asMetadata r.metadata.read
  previousHash := r.previousHash
  currentHash := r.currentHash

/-- How the records of a stream are chained. -/
def links : HashChain.Links AuditRecord Digest where
  sequence := AuditRecord.sequence
  previous := AuditRecord.previousHash
  current := AuditRecord.currentHash

def AuditStream.head (stream : AuditStream) : HashChain.Head Digest :=
  ⟨stream.lastSequence, stream.lastHash⟩

end NovaPay.Audit
