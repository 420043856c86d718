import NovaPay.Audit.Dto
import NovaPay.Audit.Tampering

/-!
# Events that are sent again

A new event is compared, and later verified, with what is read of its record. Both find it unchanged if the
column keeps the order of its metadata, and neither does if not.
-/

namespace NovaPay.Audit

open HashChain TransitionSystem JsonText Varchar

variable {config : Config} {db : Database} {event : NormalizedAuditEvent} {head : AuditStream}
  {r : AuditRecord} {input : AppendAuditEventDto}

/-- A record as it was written matches its event. -/
theorem matchesEvent_newRecord_iff {retry : Bool} (hr : newRecord config event head = some r) :
    matchesEvent r ⟨event, retry⟩ = true ↔ event.metadata.KeepsOrder := by
  have hcolumns := columns_of_newRecord hr
  have hmetadata : canonicalMetadata (asMetadata r.metadata.read) = canonicalMetadata event.metadata.val ↔
      event.metadata.KeepsOrder := by
    rw [canonicalMetadata_eq_iff, event.metadata.sortObject_eq,
      SafeMetadata.sortObject_read_iff hcolumns.metadata]
  simp only [matchesEvent, hcolumns.streamKey, hcolumns.action, hcolumns.entityType, hcolumns.entityId,
    hcolumns.actorId, hcolumns.date, hmetadata, decide_true, Bool.or_true, Bool.true_and,
    decide_eq_true_eq]

/-- A record that was written at a place after another has another number and another hash. -/
theorem currentHash_ne (hsha : Function.Injective config.sha256) {q : AuditRecord} (hr : Written config r)
    (hq : Written config q) (hne : r.sequence ≠ q.sequence) : r.currentHash ≠ q.currentHash := by
  obtain ⟨event, head, hr⟩ := hr
  obtain ⟨event', head', hq⟩ := hq
  intro heq
  rw [(columns_of_newRecord hr).currentHash, (columns_of_newRecord hq).currentHash] at heq
  have hsorted := AuditHashInput.sorted_eq_of_text (hsha heq)
  simp only [AuditHashInput.sorted, NormalizedAuditEvent.hashInput, AuditHashInput.mk.injEq] at hsorted
  exact hne hsorted.2.1

theorem sequence_le_last (hdb : db.Ok config) {q : AuditRecord} (hq : q ∈ db.records) :
    q.sequence ≤ (db.stream q.streamKey).lastSequence := by
  have hchain := hdb.chains q.streamKey
  have hmem : q.sequence ∈ (db.ofStream q.streamKey).map AuditRecord.sequence :=
    List.mem_map.mpr ⟨q, List.mem_filter.mpr ⟨hq, by simp⟩, rfl⟩
  have hsequences : (db.ofStream q.streamKey).map AuditRecord.sequence =
      List.range' 1 (db.ofStream q.streamKey).length := hchain.sequences
  have hlast : (db.stream q.streamKey).lastSequence = 0 + (db.ofStream q.streamKey).length :=
    hchain.sequence_end
  rw [hsequences, List.mem_range'_1] at hmem
  omega

/-- A record after the last of its stream conflicts only with a record of its event. -/
theorem conflicts_newRecord (hsha : Function.Injective config.sha256) (hdb : db.Ok config)
    (hr : newRecord config event (db.stream event.streamKey) = some r) {q : AuditRecord} (hq : q ∈ db.records) :
    conflicts r q = decide (r.eventId = q.eventId) := by
  have hcolumns := columns_of_newRecord hr
  have hplace : r.streamKey = q.streamKey → r.sequence ≠ q.sequence ∧ r.currentHash ≠ q.currentHash := by
    intro hstream
    have hle := sequence_le_last hdb hq
    have hnext := hcolumns.sequence
    rw [← hstream, hcolumns.streamKey] at hle
    have hne : r.sequence ≠ q.sequence := by omega
    exact ⟨hne, currentHash_ne hsha ⟨_, _, hr⟩ (hdb.written q hq) hne⟩
  by_cases hstream : r.streamKey = q.streamKey
  · simp [conflicts, (hplace hstream).1, (hplace hstream).2]
  · simp [conflicts, hstream]

theorem findEvent_commitCreated (hnew : db.findEvent r.eventId = none) :
    (commitCreated db r).findEvent r.eventId = some r := by
  change (db.records ++ [r]).find? _ = some r
  rw [List.find?_append, show db.records.find? _ = none from hnew]
  simp

/-! ### Twice appended, and verified -/

/-- The event is recorded, sent again it is answered with the same record, and its stream is then valid. -/
def AppendsOnce (config : Config) (db : Database) (input : AppendAuditEventDto)
    (event : NormalizedAuditEvent) : Prop :=
  ∃ r, newRecord config event (db.stream event.streamKey) = some r ∧
    serve config db (.append input) = some (commitCreated db r, .record (toResponse r)) ∧
    serve config (commitCreated db r) (.append input) = some (commitCreated db r, .record (toResponse r)) ∧
    ReportsValid config (commitCreated db r) event.streamKey

theorem recordsOf_commitCreated {streamKey : String} {q : AuditRecord} :
    q ∈ (commitCreated db r).recordsOf streamKey ↔
      q ∈ db.recordsOf streamKey ∨ q = r ∧ r.streamKey = streamKey := by
  rw [mem_recordsOf, mem_recordsOf]
  change q ∈ db.records ++ [r] ∧ _ ↔ _
  rw [List.mem_append, List.mem_singleton]
  constructor
  · rintro ⟨hq | rfl, hkey⟩
    · exact .inl ⟨hq, hkey⟩
    · exact .inr ⟨rfl, hkey⟩
  · rintro (⟨hq, hkey⟩ | ⟨rfl, hkey⟩)
    · exact ⟨.inl hq, hkey⟩
    · exact ⟨.inr rfl, hkey⟩

/-- The stream stays valid with a record that the column kept in order. -/
theorem reportsValid_commitCreated (hdb : db.Ok config)
    (hr : newRecord config event (db.stream event.streamKey) = some r)
    (hnew : db.findEvent event.eventId = none)
    (hrehash : ∀ q ∈ db.recordsOf event.streamKey, Rehashes config q) (hkeeps : event.metadata.KeepsOrder) :
    ReportsValid config (commitCreated db r) event.streamKey := by
  have hcolumns := columns_of_newRecord hr
  have hfresh : ∀ q ∈ db.records, q.eventId ≠ r.eventId := by
    intro q hq heq
    have hnone := List.find?_eq_none.mp hnew q hq
    rw [heq, hcolumns.eventId] at hnone
    exact hnone (by simp)
  have hok : (commitCreated db r).Ok config :=
    ok_commitCreated hdb (a := ⟨event, false⟩) hr hfresh
  have hrow : (commitCreated db r).streams event.streamKey = some ⟨r.sequence, r.currentHash⟩ := by
    rw [← hcolumns.streamKey]
    exact Function.update_self ..
  have hchain := chain_recordsOf hok event.streamKey
  rw [Database.stream, hrow] at hchain
  refine (reportsValid_iff hrow).mpr ⟨hchain, fun q hq => ?_⟩
  obtain hq | ⟨rfl, -⟩ := recordsOf_commitCreated.mp hq
  · exact hrehash q hq
  · exact rehashes_newRecord hr hkeeps

section Reachable

variable {ι : Type} [DecidableEq ι]

theorem appendsOnce_iff (hsha : Function.Injective config.sha256) {s : State ι}
    (hs : (system ι config).Reachable s) (hinput : input.accepted = true)
    (hevent : normalizeEvent input = .ok event) (hnul : withoutNul (.object event.metadata.val) = true)
    (hnew : s.db.findEvent event.eventId = none)
    (hvalid : s.db.streams event.streamKey = none ∨ ReportsValid config s.db event.streamKey) :
    AppendsOnce config s.db input event ↔ event.metadata.KeepsOrder := by
  have hdb := (invariant_of_reachable hs).tables
  obtain ⟨metadata, hwrite⟩ : ∃ metadata, event.metadata.write? = some metadata := by
    unfold SafeMetadata.write? Jsonb.write?
    rw [if_pos hnul]
    exact ⟨_, rfl⟩
  obtain ⟨r, hr⟩ : ∃ r, newRecord config event (s.db.stream event.streamKey) = some r := by
    rw [newRecord, hwrite]
    exact ⟨_, rfl⟩
  have hcolumns := columns_of_newRecord hr
  have hkey : fitsColumn 160 event.streamKey = true := by
    have hfits := fits_of_accepted hinput hevent hr
    simp only [AuditRecord.fits, Bool.and_eq_true, hcolumns.streamKey] at hfits
    exact hfits.1.1.1.1
  have hconflicts : s.db.records.any (conflicts r) = false := by
    refine List.any_eq_false.mpr fun q hq => ?_
    rw [conflicts_newRecord hsha hdb hr hq, hcolumns.eventId]
    have hnone := List.find?_eq_none.mp hnew q hq
    simpa [eq_comm] using hnone
  have hfirst := serve_append_new hevent hnew hkey hr (fits_of_accepted hinput hevent hr) hconflicts
  have hfound : (commitCreated s.db r).findEvent event.eventId = some r := by
    rw [← hcolumns.eventId]
    exact findEvent_commitCreated (hcolumns.eventId ▸ hnew)
  have hsecond : serve config (commitCreated s.db r) (.append input) =
      some (commitCreated s.db r, resolveExisting r ⟨event, false⟩) := serve_append_recorded hevent hfound
  constructor
  · rintro ⟨q, -, hserve, -, -⟩
    rw [hfirst] at hserve
    have hresolved := (Prod.mk.inj (Option.some.inj hserve)).2
    unfold resolveExisting at hresolved
    split at hresolved
    · next hmatch => exact (matchesEvent_newRecord_iff hr).mp hmatch
    · cases hresolved
  · intro hkeeps
    have hresolve : resolveExisting r ⟨event, false⟩ = .record (toResponse r) := by
      rw [resolveExisting, if_pos ((matchesEvent_newRecord_iff hr).mpr hkeeps)]
    rw [hresolve] at hfirst hsecond
    refine ⟨r, hr, hfirst, hsecond, reportsValid_commitCreated hdb hr hnew ?_ hkeeps⟩
    -- A stream without a row has no records.
    obtain hnone | hreport := hvalid
    · intro q hq
      have hle := sequence_le_last hdb (mem_recordsOf.mp hq).1
      obtain ⟨event', head', hnew'⟩ := hdb.written q (mem_recordsOf.mp hq).1
      have hpos := (columns_of_newRecord hnew').sequence
      rw [(mem_recordsOf.mp hq).2, Database.stream, hnone] at hle
      simp only [Option.getD_none, AuditStream.genesis] at hle
      omega
    · cases hrow : s.db.streams event.streamKey with
      | none =>
        obtain ⟨v, hv, -⟩ := hreport
        simp [serve, Request.entry, runAlone, advance, runVerifyStream, hrow] at hv
      | some stream => exact ((reportsValid_iff hrow).mp hreport).2

end Reachable

/-- The theorem for the creation of a transfer. -/
theorem appendsOnce_iff_createdEvent : ∃ event, normalizeEvent createdEvent = .ok event ∧
    AppendsOnce createdConfig .empty createdEvent event := by
  have hnormalized : (normalizeEvent createdEvent).toOption.any (fun event =>
      withoutNul (.object event.metadata.val) && keepsOrder false (.object event.metadata.val)) = true := by
    decide +kernel
  obtain ⟨event, hevent, htest⟩ := (Option.any_eq_true _ _).mp hnormalized
  obtain ⟨hnul, hkeeps⟩ := Bool.and_eq_true_iff.mp htest
  have hok := Relational.eq_ok_of_toOption hevent
  exact ⟨event, hok, (appendsOnce_iff createdConfig_injective (.init : (system ℕ createdConfig).Reachable _)
    (by decide +kernel) hok hnul rfl (.inl rfl)).mpr hkeeps⟩

/-! ### Objects in an array in an array -/

/-- A creation whose metadata lists steps of steps. The column puts the shorter name first. -/
def nestedEvent : AppendAuditEventDto :=
  { createdEvent with
    metadata := some ⟨[("steps", .array [.array [.object [("amount", .string "10"), ("to", .string "2")]]])],
      by decide +kernel⟩ }

/-- SHA-256 of what is hashed when the event is appended and when its record is read. -/
def nestedConfig : Config :=
  tableConfig [
    ({ createdInput with
        metadata := [("steps", .array [.array [.object [("amount", .string "10"), ("to", .string "2")]]])] }.text,
      0x577a93f8fea124ffc4e3f0fd43efb340810109b12270f6d9bda4b4a1ddbab9d1),
    ({ createdInput with
        metadata := [("steps", .array [.array [.object [("to", .string "2"), ("amount", .string "10")]]])] }.text,
      0xf92134b13c37b63f8c7cb89786d5f4c916ca0f5af41a446ca5be9126bf2b54eb)]

/-- The event is recorded and refused, and its stream is invalid. -/
theorem nested_event_refused : ∃ event db', Function.Injective nestedConfig.sha256 ∧
    nestedEvent.accepted = true ∧ normalizeEvent nestedEvent = .ok event ∧
    withoutNul (.object event.metadata.val) = true ∧
    serve nestedConfig .empty (.append nestedEvent) = some (db', .error auditEventIdReused) ∧
    db'.records.map AuditRecord.eventId = [7] ∧ ¬ AppendsOnce nestedConfig .empty nestedEvent event ∧
    ¬ ReportsValid nestedConfig db' "transfer:1" := by
  have hnormalized : (normalizeEvent nestedEvent).toOption.any (fun event =>
      withoutNul (.object event.metadata.val)) = true := by
    decide +kernel
  have hserved : (serve nestedConfig .empty (.append nestedEvent)).any (fun (db', outcome) =>
      (match outcome with | .error e => decide (e = auditEventIdReused) | _ => false) &&
      decide (db'.records.map AuditRecord.eventId = [7]) &&
      (db'.streams "transfer:1").any fun stream =>
        !(verifyRecords nestedConfig "transfer:1" stream (db'.recordsOf "transfer:1")).valid) = true := by
    decide +kernel
  obtain ⟨event, hevent, hnul⟩ := (Option.any_eq_true _ _).mp hnormalized
  obtain ⟨⟨db', outcome⟩, hserve, htest⟩ := (Option.any_eq_true _ _).mp hserved
  simp only [Bool.and_eq_true] at htest
  obtain ⟨⟨herror, hrecords⟩, hstream⟩ := htest
  obtain ⟨stream, hstream, hinvalid⟩ := (Option.any_eq_true _ _).mp hstream
  split at herror
  · next e =>
    obtain rfl := of_decide_eq_true herror
    refine ⟨event, db', tableConfig_injective (by decide +kernel) (by decide +kernel), by decide +kernel,
      Relational.eq_ok_of_toOption hevent, hnul, hserve, of_decide_eq_true hrecords, ?_, ?_⟩
    · rintro ⟨r, -, hfirst, -⟩
      rw [hserve] at hfirst
      cases (Prod.mk.inj (Option.some.inj hfirst)).2
    · rintro ⟨v, hv, hvalid⟩
      rw [serve_verify hstream] at hv
      cases hv
      rw [hvalid] at hinvalid
      cases hinvalid
  · cases herror

end NovaPay.Audit
