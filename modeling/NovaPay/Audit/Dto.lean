import NovaPay.Audit.Invariant

/-!
# What the requests are validated for

The identifiers that the DTOs accept fit the columns that they are written to, each to its own: the key of a
stream may be longer than the id of an entity.
-/

namespace NovaPay.Audit

open Varchar

variable {config : Config} {input : AppendAuditEventDto} {event : NormalizedAuditEvent} {head : AuditStream}
  {r : AuditRecord} {s : String} {n : ℕ}

/-- `SAFE_IDENTIFIER`: a letter or digit, then letters, digits and six other characters. -/
def isSafeIdentifier (s : String) : Bool :=
  match s.toList with
  | [] => false
  | c :: cs => c.isAlphanum && cs.all fun c => c.isAlphanum || ['.', '_', ':', '@', '/', '-'].contains c

/-- `@MaxLength(maxLength) @Matches(SAFE_IDENTIFIER)` -/
def isIdentifier (maxLength : ℕ) (s : String) : Bool := decide (s.length ≤ maxLength) && isSafeIdentifier s

/-- The validators of `AppendAuditEventDto`. -/
def AppendAuditEventDto.accepted (input : AppendAuditEventDto) : Bool :=
  isIdentifier 160 input.streamKey && isIdentifier 100 input.action && isIdentifier 80 input.entityType &&
    isIdentifier 128 input.entityId && input.actorId.all (isIdentifier 128)

theorem fitsColumn_of_isIdentifier (h : isIdentifier n s = true) : fitsColumn n s = true := by
  obtain ⟨hlength, hsafe⟩ := Bool.and_eq_true_iff.mp h
  refine Bool.and_eq_true_iff.mpr ⟨hlength, ?_⟩
  rw [Bool.not_eq_true', List.contains_eq_mem, decide_eq_false_iff_not]
  intro hnul
  unfold isSafeIdentifier at hsafe
  split at hsafe
  · cases hsafe
  · next c cs hcs =>
    obtain ⟨hfirst, hrest⟩ := Bool.and_eq_true_iff.mp hsafe
    rw [hcs] at hnul
    obtain rfl | hnul := List.mem_cons.mp hnul
    · exact absurd hfirst (by decide)
    · exact absurd (List.all_eq_true.mp hrest _ hnul) (by decide)

/-- An event has the fields of its request. -/
theorem normalizeEvent_fields (h : normalizeEvent input = .ok event) : event.streamKey = input.streamKey ∧
    event.action = input.action ∧ event.entityType = input.entityType ∧ event.entityId = input.entityId ∧
    event.actorId = input.actorId := by
  unfold normalizeEvent at h
  split at h
  · cases h
  · obtain ⟨metadata, -, h⟩ := Relational.bind_eq_ok h
    cases h
    exact ⟨rfl, rfl, rfl, rfl, rfl⟩

theorem normalizeEvent_ok {occurredAt : ℤ} {m : SafeMetadata} (htime : input.occurredAt = some occurredAt)
    (hm : sanitizeMetadata (input.metadata.getD Metadata.empty) = .ok m) :
    ∃ event, normalizeEvent input = .ok event ∧ event.metadata = m := by
  unfold normalizeEvent
  rw [htime]
  simp only [hm]
  exact ⟨_, rfl, rfl⟩

theorem fits_of_accepted (hinput : input.accepted = true) (hevent : normalizeEvent input = .ok event)
    (hr : newRecord config event head = some r) : r.fits = true := by
  have hcolumns := columns_of_newRecord hr
  obtain ⟨hstream, haction, htype, hid, hactor⟩ := normalizeEvent_fields hevent
  simp only [AppendAuditEventDto.accepted, Bool.and_eq_true] at hinput
  obtain ⟨⟨⟨⟨hstream', haction'⟩, htype'⟩, hid'⟩, hactor'⟩ := hinput
  simp only [AuditRecord.fits, Bool.and_eq_true, hcolumns.streamKey, hcolumns.action, hcolumns.entityType,
    hcolumns.entityId, hcolumns.actorId, hstream, haction, htype, hid, hactor]
  refine ⟨⟨⟨⟨fitsColumn_of_isIdentifier hstream', fitsColumn_of_isIdentifier haction'⟩,
    fitsColumn_of_isIdentifier htype'⟩, fitsColumn_of_isIdentifier hid'⟩, ?_⟩
  cases hactorId : input.actorId with
  | none => rfl
  | some actorId =>
    rw [hactorId] at hactor'
    exact fitsColumn_of_isIdentifier hactor'

end NovaPay.Audit
