import NovaPay.Audit.Retries

/-!
# `AdminAuditController.verify`

An operator's verification is two calls of the audit service: `verify`, and `appendOperatorAction` with an
event that has its id from the operator and the key and its content from the result. The calls of other
requests come between their statements.
-/

namespace NovaPay.Audit

open JsonText TransitionSystem

/-- What `POST /admin/audit/verify` is given. -/
structure VerifyRequest where
  operatorId : String
  idempotencyKey : IdempotencyKey
  streamKey : String
deriving DecidableEq, Repr

def invalidIdempotencyKey : HttpError :=
  ⟨400, "INVALID_IDEMPOTENCY_KEY", "Idempotency-Key must contain 1 to 128 visible ASCII characters."⟩

/-- `^[\x21-\x7E]{1,128}$` -/
def isIdempotencyKey (value : IdempotencyKey) : Bool :=
  decide (1 ≤ value.length) && decide (value.length ≤ 128) &&
    value.toList.all fun c => decide (0x21 ≤ c.toNat) && decide (c.toNat ≤ 0x7E)

/-- What `OPERATOR_PATTERN` leaves of a token: a letter or digit, then at most 79 letters, digits and three
other characters. -/
def isOperatorId (operatorId : String) : Bool :=
  match operatorId.toList with
  | [] => false
  | c :: cs => c.isAlphanum && decide (cs.length ≤ 79) &&
      cs.all fun c => c.isAlphanum || ['.', '_', '-'].contains c

/-- The first 16 bytes of a digest, with the version in the seventh and the variant in the ninth. -/
def deterministicUuid (config : Config) (value : String) : Uuid :=
  let bytes := config.sha256 value.toList / 2 ^ 128
  let versioned := bytes / 2 ^ 80 * 2 ^ 80 + 5 * 2 ^ 76 + bytes % 2 ^ 76
  versioned / 2 ^ 64 * 2 ^ 64 + 2 * 2 ^ 62 + versioned % 2 ^ 62

/-- A count as a number. -/
def countValue (n : ℕ) : Value Double := (Double.ofRat? n).elim .null .number

def resultMetadata (v : AuditVerification) : Metadata :=
  ⟨[("valid", .bool v.valid), ("recordsChecked", countValue v.recordsChecked)], by
    cases hcount : Double.ofRat? v.recordsChecked <;> simp [countValue, hcount, everyObject, everyMember, unique]⟩

/-- The event that records a verification. -/
def operatorAction (config : Config) (request : VerifyRequest) (v : AuditVerification) (now : ℤ) :
    AppendAuditEventDto where
  eventId := deterministicUuid config
    ("audit.verify\x00" ++ request.operatorId ++ "\x00" ++ request.idempotencyKey)
  streamKey := "admin:operator-actions"
  action := "audit.verified"
  entityType := "audit-stream"
  entityId := request.streamKey
  actorId := some request.operatorId
  occurredAt := some now
  metadata := some (resultMetadata v)

/-! ### The event is accepted -/

section Event

variable {config : Config} {request : VerifyRequest} {v : AuditVerification} {now : ℤ}
  {event : NormalizedAuditEvent}

/-- The names of the metadata are accepted. -/
theorem resultMetadata_keys : isSafeKey "valid" = true ∧ isDeniedKey "valid" = false ∧
    isSafeKey "recordsChecked" = true ∧ isDeniedKey "recordsChecked" = false := by decide +kernel

theorem sanitizeObject_result (v : AuditVerification) : sanitizeObject (resultMetadata v).val 0 =
    .ok [("recordsChecked", countValue v.recordsChecked), ("valid", .bool v.valid)] := by
  obtain ⟨hvalid, hdenied, hchecked, hdenied'⟩ := resultMetadata_keys
  have hcount : sanitizeValue (countValue v.recordsChecked) 1 = .ok (countValue v.recordsChecked) := by
    unfold countValue
    cases Double.ofRat? v.recordsChecked <;> rfl
  have hmembers : sanitizeMembers (resultMetadata v).val 1 =
      .ok [("valid", .bool v.valid), ("recordsChecked", countValue v.recordsChecked)] := by
    simp only [resultMetadata, sanitizeMembers, hvalid, hdenied, hchecked, hdenied', hcount]
    rfl
  have hrank : ¬ objectRank "valid" ≤ objectRank "recordsChecked" := by decide +kernel
  have hsort : sortKeys objectRank
      [("valid", .bool v.valid), ("recordsChecked", countValue v.recordsChecked)] =
        [("recordsChecked", countValue v.recordsChecked), ("valid", .bool v.valid)] := by
    simp [sortKeys, hrank]
  rw [sanitizeObject, if_neg (by simp [resultMetadata]), hmembers, ← hsort]
  rfl

/-- The metadata has no array, and no text. -/
theorem sanitizeMetadata_result (v : AuditVerification) : ∃ m : SafeMetadata,
    sanitizeMetadata (resultMetadata v) = .ok m ∧ m.KeepsOrder ∧ withoutNul (.object m.val) = true := by
  unfold sanitizeMetadata
  split
  · next herror => rw [sanitizeObject_result] at herror; cases herror
  · next ms hms =>
    refine ⟨_, rfl, ?_⟩
    rw [sanitizeObject_result] at hms
    cases hms
    have hcount : keepsOrder false (countValue v.recordsChecked) = true ∧
        withoutNul (countValue v.recordsChecked) = true := by
      unfold countValue
      cases Double.ofRat? v.recordsChecked <;> exact ⟨rfl, rfl⟩
    simp [SafeMetadata.KeepsOrder, keepsOrder, membersKeepOrder, withoutNul, membersWithoutNul, hcount]

theorem normalizeEvent_operatorAction (config : Config) (request : VerifyRequest) (v : AuditVerification)
    (now : ℤ) : ∃ event, normalizeEvent (operatorAction config request v now) = .ok event ∧
      event.metadata.KeepsOrder ∧ event.metadata.write?.isSome := by
  obtain ⟨m, hm, hkeeps, hnul⟩ := sanitizeMetadata_result v
  have hwrite : m.write?.isSome := by
    rw [SafeMetadata.write?, Jsonb.write?, if_pos hnul]
    rfl
  obtain ⟨event, hevent, rfl⟩ := @normalizeEvent_ok (operatorAction config request v now) now _ rfl hm
  exact ⟨event, hevent, hkeeps, hwrite⟩

/-- The event fits its columns if the key of the stream is not longer than the id of an entity. -/
theorem operatorAction_accepted (hoperator : isOperatorId request.operatorId = true)
    (hkey : isIdentifier 160 request.streamKey = true) (hlength : request.streamKey.length ≤ 128) :
    (operatorAction config request v now).accepted = true := by
  have hentity : isIdentifier 128 request.streamKey = true :=
    Bool.and_eq_true_iff.mpr ⟨decide_eq_true hlength, (Bool.and_eq_true_iff.mp hkey).2⟩
  have hactor : isIdentifier 128 request.operatorId = true := by
    unfold isOperatorId at hoperator
    split at hoperator
    · cases hoperator
    · next c cs hcs =>
      simp only [Bool.and_eq_true, decide_eq_true_eq] at hoperator
      obtain ⟨⟨hfirst, hlength⟩, hrest⟩ := hoperator
      have hall : request.operatorId.length = cs.length + 1 := by
        rw [← String.length_toList, hcs, List.length_cons]
      simp only [isIdentifier, isSafeIdentifier, hcs, Bool.and_eq_true, decide_eq_true_eq]
      refine ⟨by omega, hfirst, List.all_eq_true.mpr fun d hd => ?_⟩
      obtain halnum | hother := Bool.or_eq_true_iff.mp (List.all_eq_true.mp hrest d hd)
      · rw [halnum, Bool.true_or]
      · rw [List.contains_eq_mem, decide_eq_true_eq] at hother
        refine Bool.or_eq_true_iff.mpr (.inr (List.contains_iff_mem.mpr ?_))
        simp only [List.mem_cons, List.not_mem_nil, or_false] at hother ⊢
        tauto
  simp only [AppendAuditEventDto.accepted, operatorAction, hentity, Option.all_some, hactor, Bool.and_true]
  decide

end Event

/-! ### The requests of operators among others -/

/-- A call of the audit service: one of the two for an operator's verification, or another. -/
inductive CallId (ι : Type)
  | verify (i : ι)
  | operatorAction (i : ι)
  | other (i : ι)
deriving DecidableEq

structure AdminState (ι : Type) where
  audit : State (CallId ι)
  requests : ι → Option VerifyRequest

inductive AdminAction (ι : Type)
  /-- `AdminAuditController.verify` is called. -/
  | request (i : ι) (request : VerifyRequest)
  /-- The result is there, and `appendOperatorAction` is called. -/
  | record (i : ι) (now : ℤ)
  /-- Another call of the audit service. -/
  | start (i : ι) (request : Request)
  | run (id : CallId ι)
  | stop (id : CallId ι)

section System

variable {ι : Type} [DecidableEq ι]

/-- A step of the audit service. -/
def AdminState.audited (config : Config) (s : AdminState ι) (action : Action (CallId ι)) :
    Option (AdminState ι) :=
  (step config s.audit action).map fun audit => { s with audit }

def adminStep (config : Config) (s : AdminState ι) : AdminAction ι → Option (AdminState ι)
  | .request i request =>
    match s.requests i with
    | some _ => none
    | none =>
      let s' := { s with requests := Function.update s.requests i (some request) }
      if !isIdempotencyKey request.idempotencyKey then some s'
      else s'.audited config (.start (.verify i) (.verify request.streamKey))
  | .record i now =>
    match s.requests i, s.audit.calls (.verify i) with
    | some request, some ⟨_, .answered (.verification v)⟩ => s.audited config
        (.start (.operatorAction i) (.appendOperatorAction (operatorAction config request v now)))
    | _, _ => none
  | .start i request => s.audited config (.start (.other i) request)
  | .run id => s.audited config (.run id)
  | .stop id => s.audited config (.stop id)

def adminSystem (ι : Type) [DecidableEq ι] (config : Config) : System (AdminState ι) (AdminAction ι) :=
  ⟨⟨.initial, fun _ => none⟩, adminStep config⟩

end System

def Outcome.error? : Outcome → Option HttpError
  | .error e => some e
  | _ => none

/-- What a request is answered with, once it is. -/
def AdminState.answer? {ι : Type} (s : AdminState ι) (i : ι) : Option (Except HttpError AuditVerification) :=
  match s.requests i with
  | none => none
  | some request =>
    if !isIdempotencyKey request.idempotencyKey then some (.error invalidIdempotencyKey)
    else
      match s.audit.calls (.verify i) with
      | some ⟨_, .answered (.error e)⟩ => some (.error e)
      | some ⟨_, .answered (.verification v)⟩ =>
        match s.audit.calls (.operatorAction i) with
        | some ⟨_, .answered outcome⟩ => some (outcome.error?.elim (.ok v) .error)
        | _ => none
      | _ => none

end NovaPay.Audit
