import NovaPay.Audit.Invariant
import NovaPay.Texts

/-!
# Chained streams

In every reachable state the records of a stream are chained up to its row, no event id is recorded twice,
and what was accepted is recorded.
-/

namespace NovaPay.Audit

open HashChain TransitionSystem

/-- The records of a stream lead from the genesis hash to the row of the stream. -/
structure ChainIntact (db : Database) (streamKey : String) : Prop where
  sequences : (db.recordsOf streamKey).map AuditRecord.sequence =
    List.range' 1 (db.recordsOf streamKey).length
  hashes : (db.recordsOf streamKey).map AuditRecord.previousHash ++ [(db.stream streamKey).lastHash] =
    AuditStream.genesis.lastHash :: (db.recordsOf streamKey).map AuditRecord.currentHash
  last : (db.stream streamKey).lastSequence = (db.recordsOf streamKey).length

/-- The event that an accepted append is recorded as. A retry of an operator action keeps the time at
which the action was first recorded. -/
def Append.recordedEvent (a : Append) (r : AuditRecord) : NormalizedAuditEvent :=
  if a.acceptOperatorRetry then { a.input with occurredAt := r.date } else a.input

/-- The event is in its stream once, with its columns and the hash of its place. -/
structure RecordedOnce (config : Config) (db : Database) (a : Append) (r : AuditRecord) : Prop where
  once : (db.recordsOf a.input.streamKey).filter (fun q => decide (q.eventId = a.input.eventId)) = [r]
  columns : newRecord config (a.recordedEvent r) ⟨r.sequence - 1, r.previousHash⟩ = some r
  hash : r.currentHash =
    computeAuditHash config ((a.recordedEvent r).hashInput r.sequence r.previousHash)

section Database

variable {config : Config} {db : Database} {a : Append} {r : AuditRecord}

theorem recordsOf_eq_ofStream (hdb : db.Ok config) (streamKey : String) :
    db.recordsOf streamKey = db.ofStream streamKey :=
  List.Pairwise.insertionSort_eq ((hdb.chains streamKey).pairwise.imp le_of_lt)

theorem chain_recordsOf (hdb : db.Ok config) (streamKey : String) :
    Chain links ⟨0, 0⟩ (db.recordsOf streamKey) (db.stream streamKey).head := by
  rw [recordsOf_eq_ofStream hdb]
  exact hdb.chains streamKey

theorem mem_recordsOf {streamKey : String} :
    r ∈ db.recordsOf streamKey ↔ r ∈ db.records ∧ r.streamKey = streamKey := by
  rw [Database.recordsOf, List.mem_insertionSort, List.mem_filter, decide_eq_true_iff]

theorem chainIntact (hdb : db.Ok config) (streamKey : String) : ChainIntact db streamKey := by
  have hchain := chain_recordsOf hdb streamKey
  have hlast := hchain.sequence_end
  rw [Nat.zero_add] at hlast
  exact ⟨hchain.sequences, hchain.links, hlast⟩

/-- A row with a key that no other row has. -/
theorem filter_eq_singleton {α κ : Type*} [DecidableEq κ] {key : α → κ} {rows : List α} {x : α}
    (hnodup : (rows.map key).Nodup) (hx : x ∈ rows) :
    rows.filter (fun y => decide (key y = key x)) = [x] := by
  induction rows with
  | nil => cases hx
  | cons y rows ih =>
    rw [List.map_cons, List.nodup_cons] at hnodup
    obtain rfl | hx := List.mem_cons.mp hx
    · have hnone : rows.filter (fun y => decide (key y = key x)) = [] := by
        rw [List.filter_eq_nil_iff]
        intro z hz hkey
        exact hnodup.1 (List.mem_map.mpr ⟨z, hz, of_decide_eq_true hkey⟩)
      rw [List.filter_cons_of_pos (by simp), hnone]
    · have hne : key y ≠ key x := fun heq => hnodup.1 (List.mem_map.mpr ⟨x, hx, heq.symm⟩)
      rw [List.filter_cons_of_neg (by simp [hne]), ih hnodup.2 hx]

theorem recordsOf_filter (hdb : db.Ok config) (hr : r ∈ db.records) :
    (db.recordsOf r.streamKey).filter (fun q => decide (q.eventId = r.eventId)) = [r] := by
  rw [recordsOf_eq_ofStream hdb]
  refine filter_eq_singleton ?_ (List.mem_filter.mpr ⟨hr, by simp⟩)
  exact hdb.events.sublist (List.filter_sublist.map _)

/-- A record that an event matches was written for that event. -/
theorem written_for (hr : Written config r) (hid : r.eventId = a.input.eventId)
    (hmatch : matchesEvent r a = true) :
    newRecord config (a.recordedEvent r) ⟨r.sequence - 1, r.previousHash⟩ = some r := by
  obtain ⟨event, head, hnew⟩ := hr
  have hcolumns := columns_of_newRecord hnew
  simp only [matchesEvent, Bool.and_eq_true, Bool.or_eq_true, decide_eq_true_eq] at hmatch
  obtain ⟨⟨⟨⟨⟨⟨hstream, haction⟩, htype⟩, hentity⟩, hactor⟩, htime⟩, hcanonical⟩ := hmatch
  have hmetadata : event.metadata = a.input.metadata := by
    rw [canonicalMetadata_eq_iff, a.input.metadata.sortObject_eq] at hcanonical
    exact SafeMetadata.eq_of_sortObject_read hcolumns.metadata hcanonical
  have hevent : a.recordedEvent r = { a.input with occurredAt := r.date } := by
    unfold Append.recordedEvent
    split
    · rfl
    · next hplain =>
      obtain hretry | hdate := htime
      · exact absurd hretry hplain
      · rw [hdate]
  have hsame : event = a.recordedEvent r := by
    rw [hevent]
    ext1
    · exact hcolumns.eventId.symm.trans hid
    · exact hcolumns.streamKey.symm.trans hstream
    · exact hcolumns.action.symm.trans haction
    · exact hcolumns.entityType.symm.trans htype
    · exact hcolumns.entityId.symm.trans hentity
    · exact hcolumns.actorId.symm.trans hactor
    · exact hcolumns.date.symm
    · exact hmetadata
  have hhead : head = ⟨r.sequence - 1, r.previousHash⟩ := by
    rw [hcolumns.sequence, hcolumns.previousHash]
    rfl
  rw [← hsame, ← hhead]
  exact hnew

theorem recordedOnce (hdb : db.Ok config) (hr : r ∈ db.records) (hid : r.eventId = a.input.eventId)
    (hmatch : matchesEvent r a = true) : RecordedOnce config db a r := by
  have hnew := written_for (hdb.written r hr) hid hmatch
  have honce := recordsOf_filter hdb hr
  simp only [matchesEvent, Bool.and_eq_true, decide_eq_true_eq] at hmatch
  rw [hid, hmatch.1.1.1.1.1.1] at honce
  exact ⟨honce, hnew, (columns_of_newRecord hnew).currentHash⟩

end Database

section Reachable

variable {ι : Type} [DecidableEq ι] {config : Config}

theorem chained_of_reachable {s : State ι} (hs : (system ι config).Reachable s) :
    (∀ streamKey, ChainIntact s.db streamKey) ∧ (s.db.records.map AuditRecord.eventId).Nodup ∧
    ∀ i request response, s.calls i = some ⟨request, .answered (.record response)⟩ →
      ∃ a r, request.append? = some a ∧ response = toResponse r ∧ RecordedOnce config s.db a r := by
  have hinv := invariant_of_reachable hs
  refine ⟨chainIntact hinv.tables, hinv.tables.events, fun i request response hcall => ?_⟩
  obtain ⟨a, hrequest, r, hr, hid, hmatch, hresponse⟩ := hinv.calls i _ hcall
  exact ⟨a, r, hrequest, hresponse, recordedOnce hinv.tables hr hid hmatch⟩

end Reachable

/-- A hash without collisions that has the digests of a table. -/
def tableConfig (table : List (List Char × Digest)) : Config where
  sha256 := digestOf table

theorem tableConfig_injective {table : List (List Char × Digest)} (hlt : ∀ entry ∈ table, entry.2 < 2 ^ 256)
    (hnodup : (table.map Prod.snd).Nodup) : Function.Injective (tableConfig table).sha256 :=
  digestOf_injective hlt hnodup

/-- The creation of a transfer, as its event. -/
def createdEvent : AppendAuditEventDto where
  eventId := 7
  streamKey := "transfer:1"
  action := "transfer.created"
  entityType := "transfer"
  entityId := "1"
  actorId := some "transaction-service"
  occurredAt := some 1788084000000
  metadata := some ⟨[("status", .string "safe")], by decide +kernel⟩

/-- Its completion. -/
def completedEvent : AppendAuditEventDto :=
  { createdEvent with
    eventId := 8
    action := "transfer.completed"
    occurredAt := some 1788084001000
    metadata := none }

def createdInput : AuditHashInput where
  streamKey := "transfer:1"
  sequence := 1
  previousHash := 0
  action := "transfer.created"
  entityType := "transfer"
  entityId := "1"
  actorId := some "transaction-service"
  occurredAt := 1788084000000
  metadata := [("status", .string "safe")]

def createdHash : Digest := 0x9a648ce707ca4768a1979f648246e8802e77c536aca3f8e6f9c3af6715b31ac8

def completedInput : AuditHashInput :=
  { createdInput with
    sequence := 2
    previousHash := createdHash
    action := "transfer.completed"
    occurredAt := 1788084001000
    metadata := [] }

/-- SHA-256 on what `concurrentRun` hashes. -/
def transferConfig : Config :=
  tableConfig [(createdInput.text, createdHash),
    (completedInput.text, 0x49dbf81c5d4a5128aa7631dc1ff3ae59ad8c95ef638634e977b3c8008a721660)]

/-- Two calls send one event, a third its id to another stream, and a fourth the next event. -/
def concurrentRun : List (Action ℕ) :=
  [.start 0 (.append createdEvent), .start 1 (.append createdEvent),
    .start 2 (.append { createdEvent with streamKey := "transfer:2" }), .start 3 (.append completedEvent)] ++
  [0, 1, 2, 3, 0, 2, 2, 0, 0, 0, 2, 0, 0, 2, 2, 1, 1, 1, 1, 3, 3, 3, 3, 3, 3].map .run

/-- The theorem at the end of `concurrentRun`. -/
theorem chained_of_reachable_concurrentRun : ∃ s : State ℕ,
    s.db.records.map AuditRecord.eventId = [7, 8] ∧ ∀ streamKey, ChainIntact s.db streamKey := by
  have hrun : ((system ℕ transferConfig).run .initial concurrentRun).map
      (fun s => s.db.records.map AuditRecord.eventId) = some [7, 8] := by
    decide +kernel
  obtain ⟨s, hs, hevents⟩ := Option.map_eq_some_iff.mp hrun
  exact ⟨s, hevents, (chained_of_reachable (System.reachable_of_run hs)).1⟩

end NovaPay.Audit
