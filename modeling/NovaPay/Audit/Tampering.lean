import NovaPay.Audit.Alone

/-!
# Altered records

What can be changed in the records of a stream, while its row stays, so that `verify` still finds the
stream valid: nothing that is hashed, which leaves the event ids, what a column keeps of a time below the
millisecond, and how metadata is stored that is read as the same.
-/

namespace NovaPay.Audit

open HashChain TransitionSystem

variable {config : Config} {r q : AuditRecord} {streamKey : String}

/-- The second record differs from the first in nothing that is hashed. -/
structure Unhashed (r q : AuditRecord) : Prop where
  streamKey : q.streamKey = r.streamKey
  sequence : q.sequence = r.sequence
  action : q.action = r.action
  entityType : q.entityType = r.entityType
  entityId : q.entityId = r.entityId
  actorId : q.actorId = r.actorId
  date : q.date = r.date
  metadata : asMetadata q.metadata.read = asMetadata r.metadata.read
  previousHash : q.previousHash = r.previousHash
  currentHash : q.currentHash = r.currentHash

/-- The record was written for an event whose metadata the column kept in order. -/
def Retained (config : Config) (r : AuditRecord) : Prop :=
  ∃ event head, newRecord config event head = some r ∧ event.metadata.KeepsOrder

theorem Unhashed.hashInput (h : Unhashed r q) :
    q.hashInput q.previousHash = r.hashInput r.previousHash := by
  simp only [AuditRecord.hashInput, h.streamKey, h.sequence, h.previousHash, h.action, h.entityType,
    h.entityId, h.actorId, h.date, h.metadata]

theorem Unhashed.rehashes_iff (h : Unhashed r q) : Rehashes config q ↔ Rehashes config r := by
  rw [Rehashes, Rehashes, h.hashInput, h.currentHash]

theorem rehashes_iff_retained (hsha : Function.Injective config.sha256) (hr : Written config r) :
    Rehashes config r ↔ Retained config r := by
  constructor
  · intro hrehash
    obtain ⟨event, head, hnew⟩ := hr
    exact ⟨event, head, hnew, (rehashes_iff_keepsOrder hsha hnew).mp hrehash⟩
  · rintro ⟨event, head, hnew, hkeeps⟩
    exact rehashes_newRecord hnew hkeeps

/-- A record with a hash that the service wrote is the one it wrote, as far as it is hashed. -/
theorem unhashed_of_rehashes (hsha : Function.Injective config.sha256) (hr : Written config r)
    (hq : Rehashes config q) (hhash : r.currentHash = q.currentHash) : Unhashed r q := by
  obtain ⟨event, head, hnew⟩ := hr
  have hcolumns := columns_of_newRecord hnew
  have htext : (q.hashInput q.previousHash).text = (event.hashInput r.sequence r.previousHash).text := by
    refine hsha ?_
    rw [Rehashes, ← hhash, hcolumns.currentHash] at hq
    exact hq
  have hsorted := AuditHashInput.sorted_eq_of_text htext
  simp only [AuditHashInput.sorted, AuditRecord.hashInput, NormalizedAuditEvent.hashInput,
    AuditHashInput.mk.injEq] at hsorted
  obtain ⟨hstream, hsequence, hprevious, haction, htype, hid, hactor, htime, hmetadata⟩ := hsorted
  rw [event.metadata.sortObject_eq] at hmetadata
  exact {
    streamKey := hstream.trans hcolumns.streamKey.symm
    sequence := hsequence
    action := haction.trans hcolumns.action.symm
    entityType := htype.trans hcolumns.entityType.symm
    entityId := hid.trans hcolumns.entityId.symm
    actorId := hactor.trans hcolumns.actorId.symm
    date := htime.trans hcolumns.date.symm
    metadata := SafeMetadata.asMetadata_eq_of_sortObject hcolumns.metadata hmetadata
    previousHash := hprevious
    currentHash := hhash.symm }

section Stream

variable {db db' : Database} {stream : AuditStream}

/-- A verification answers, of a stream that has a row, that it is valid. -/
def ReportsValid (config : Config) (db : Database) (streamKey : String) : Prop :=
  ∃ v, serve config db (.verify streamKey) = some (db, .verification v) ∧ v.valid = true

theorem reportsValid_iff (hstream : db.streams streamKey = some stream) : ReportsValid config db streamKey ↔
    Chain links ⟨0, 0⟩ (db.recordsOf streamKey) stream.head ∧
      ∀ r ∈ db.recordsOf streamKey, Rehashes config r := by
  rw [ReportsValid, serve_verify hstream, ← verifyRecords_valid_iff]
  constructor
  · rintro ⟨v, hv, hvalid⟩
    cases hv
    exact hvalid
  · exact fun hvalid => ⟨_, rfl, hvalid⟩

/-- The records that are found valid with the row of a stream are those of the stream, as far as they are
hashed, and those were valid. -/
theorem reportsValid_altered_iff (hsha : Function.Injective config.sha256) (hdb : db.Ok config)
    (hstream : db.streams streamKey = some stream) (hrow : db'.streams streamKey = some stream) :
    ReportsValid config db' streamKey ↔ (∀ r ∈ db.recordsOf streamKey, Retained config r) ∧
      List.Forall₂ Unhashed (db.recordsOf streamKey) (db'.recordsOf streamKey) := by
  have hchain := chain_recordsOf hdb streamKey
  have hhead : db.stream streamKey = stream := by rw [Database.stream, hstream]; rfl
  have hwritten : ∀ r ∈ db.recordsOf streamKey, Written config r :=
    fun r hr => hdb.written r (mem_recordsOf.mp hr).1
  rw [hhead] at hchain
  rw [reportsValid_iff hrow]
  constructor
  · rintro ⟨hchain', hrehash⟩
    have hpairs : List.Forall₂ (fun r q => Retained config r ∧ Unhashed r q) (db.recordsOf streamKey)
        (db'.recordsOf streamKey) := by
      refine hchain.forall₂ hchain' fun r hr q hq hcurrent => ?_
      have hunhashed := unhashed_of_rehashes hsha (hwritten r hr) (hrehash q hq) hcurrent
      have hr' := hunhashed.rehashes_iff.mp (hrehash q hq)
      exact ⟨hunhashed.previousHash.symm, (rehashes_iff_retained hsha (hwritten r hr)).mp hr', hunhashed⟩
    exact (List.forall₂_and_left _ _).mp hpairs
  · rintro ⟨hretained, hunhashed⟩
    refine ⟨hchain.of_forall₂ (hunhashed.imp fun r q h => ⟨h.sequence, h.previousHash, h.currentHash⟩), ?_⟩
    have hrehash : ∀ r ∈ db.recordsOf streamKey, Rehashes config r :=
      fun r hr => (rehashes_iff_retained hsha (hwritten r hr)).mpr (hretained r hr)
    have hpairs := (List.forall₂_and_left _ _).mpr ⟨hrehash, hunhashed⟩
    have hback : List.Forall₂ (fun q r => Rehashes config q ∧ Unhashed r q) (db'.recordsOf streamKey)
        (db.recordsOf streamKey) :=
      hpairs.flip.imp fun q r h => ⟨h.2.rehashes_iff.mpr h.1, h.2⟩
    exact ((List.forall₂_and_left _ _).mp hback).1

end Stream

section Reachable

variable {ι : Type} [DecidableEq ι]

theorem alteration_found_iff (hsha : Function.Injective config.sha256) {s : State ι}
    (hs : (system ι config).Reachable s) {stream : AuditStream}
    (hstream : s.db.streams streamKey = some stream) {db' : Database}
    (hrow : db'.streams streamKey = some stream) :
    (ReportsValid config db' streamKey → db'.recordsOf streamKey = s.db.recordsOf streamKey) ↔
      ¬ ((∀ r ∈ s.db.recordsOf streamKey, Retained config r) ∧
        List.Forall₂ Unhashed (s.db.recordsOf streamKey) (db'.recordsOf streamKey) ∧
        db'.recordsOf streamKey ≠ s.db.recordsOf streamKey) := by
  rw [reportsValid_altered_iff hsha (invariant_of_reachable hs).tables hstream hrow]
  constructor
  · rintro hfound ⟨hretained, hunhashed, hne⟩
    exact hne (hfound ⟨hretained, hunhashed⟩)
  · rintro hkept ⟨hretained, hunhashed⟩
    by_contra hne
    exact hkept ⟨hretained, hunhashed, hne⟩

end Reachable

/-! ### Another event id -/

def createdConfig : Config := tableConfig [(createdInput.text, createdHash)]

theorem createdConfig_injective : Function.Injective createdConfig.sha256 :=
  tableConfig_injective (by decide +kernel) (by decide +kernel)

/-- A database that holds one event. -/
def createdRun : List (Action ℕ) := .start 0 (.append createdEvent) :: List.replicate 7 (.run 0)

/-- Another event id for every record. -/
def Database.renamed (db : Database) (eventId : Uuid) : Database :=
  { db with records := db.records.map fun r => { r with eventId } }

theorem renamed_found_valid : ∃ (s : State ℕ) (stream : AuditStream),
    (system ℕ createdConfig).Reachable s ∧ Function.Injective createdConfig.sha256 ∧
    s.db.streams "transfer:1" = some stream ∧ (s.db.renamed 9).streams "transfer:1" = some stream ∧
    ReportsValid createdConfig (s.db.renamed 9) "transfer:1" ∧
    (s.db.renamed 9).recordsOf "transfer:1" ≠ s.db.recordsOf "transfer:1" := by
  have hrun : ((system ℕ createdConfig).run .initial createdRun).any (fun s =>
      (s.db.streams "transfer:1").any (fun stream =>
        (verifyRecords createdConfig "transfer:1" stream ((s.db.renamed 9).recordsOf "transfer:1")).valid) &&
      decide (((s.db.renamed 9).recordsOf "transfer:1").map AuditRecord.eventId ≠
        (s.db.recordsOf "transfer:1").map AuditRecord.eventId)) = true := by
    decide +kernel
  obtain ⟨s, hs, hfound⟩ := (Option.any_eq_true _ _).mp hrun
  obtain ⟨hvalid, hne⟩ := Bool.and_eq_true_iff.mp hfound
  obtain ⟨stream, hstream, hvalid⟩ := (Option.any_eq_true _ _).mp hvalid
  refine ⟨s, stream, System.reachable_of_run hs, createdConfig_injective, hstream, hstream,
    ⟨_, serve_verify hstream, hvalid⟩, fun heq => of_decide_eq_true hne (congrArg _ heq)⟩

/-- The theorem where the record is deleted. -/
theorem alteration_found_iff_createdRun : ∃ (s : State ℕ) (db' : Database),
    db'.recordsOf "transfer:1" ≠ s.db.recordsOf "transfer:1" ∧
    ¬ ReportsValid createdConfig db' "transfer:1" := by
  have hrun : ((system ℕ createdConfig).run .initial createdRun).any (fun s =>
      (s.db.streams "transfer:1").isSome &&
      decide ((s.db.recordsOf "transfer:1").map AuditRecord.action = ["transfer.created"])) = true := by
    decide +kernel
  obtain ⟨s, hs, hfound⟩ := (Option.any_eq_true _ _).mp hrun
  obtain ⟨hsome, haction⟩ := Bool.and_eq_true_iff.mp hfound
  obtain ⟨stream, hstream⟩ := Option.isSome_iff_exists.mp hsome
  have hactions := of_decide_eq_true haction
  let db' : Database := ⟨s.db.streams, []⟩
  have hrow : db'.streams "transfer:1" = some stream := hstream
  have hne : db'.recordsOf "transfer:1" ≠ s.db.recordsOf "transfer:1" := by
    intro heq
    rw [← heq] at hactions
    cases hactions
  have hnone : ¬ List.Forall₂ Unhashed (s.db.recordsOf "transfer:1") (db'.recordsOf "transfer:1") := by
    intro hpairs
    have hlength := hpairs.length_eq
    have hone := congrArg List.length hactions
    rw [List.length_map, hlength] at hone
    cases hone
  refine ⟨s, db', hne, fun hvalid => hne ?_⟩
  exact (alteration_found_iff createdConfig_injective (System.reachable_of_run hs) hstream hrow).mpr
    (fun h => hnone h.2.1) hvalid

end NovaPay.Audit
