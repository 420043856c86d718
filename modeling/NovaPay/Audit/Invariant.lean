import NovaPay.Audit.Service

/-!
# The invariant of the audit service

What a call at a statement knows of the committed rows. Only the transaction that holds a stream writes
it, so what it has read of the stream stays true until it commits.
-/

namespace NovaPay.Audit

open HashChain TransitionSystem

namespace Database

/-- The records of a stream as they were committed. -/
def ofStream (db : Database) (streamKey : String) : List AuditRecord :=
  db.records.filter fun r => decide (r.streamKey = streamKey)

/-- The row of a stream, or the row it would start with. -/
def stream (db : Database) (streamKey : String) : AuditStream := (db.streams streamKey).getD .genesis

end Database

/-- The event that a request asks to append. -/
def Request.append? : Request → Option Append
  | .append input => (normalizeEvent input).toOption.map fun event => ⟨event, false⟩
  | .appendOperatorAction input => (normalizeEvent input).toOption.map fun event => ⟨event, true⟩
  | .verify _ => none

/-- The event that a call at a statement appends. -/
def Pc.append? : Pc → Option Append
  | .findPrior a | .insertStream a | .lockHead a _ | .findExisting a _ | .create a _ | .updateStream a _ |
    .commitCreated a _ | .commitExisting a _ _ | .findWinner a => some a
  | .verifyStream _ | .verifyRecords _ _ => none

/-- The record was written for some event at some place. -/
def Written (config : Config) (r : AuditRecord) : Prop :=
  ∃ event head, newRecord config event head = some r

/-- The columns of a record that was written. -/
structure Columns (config : Config) (event : NormalizedAuditEvent) (head : AuditStream)
    (r : AuditRecord) : Prop where
  eventId : r.eventId = event.eventId
  streamKey : r.streamKey = event.streamKey
  sequence : r.sequence = head.lastSequence + 1
  action : r.action = event.action
  entityType : r.entityType = event.entityType
  entityId : r.entityId = event.entityId
  actorId : r.actorId = event.actorId
  date : r.date = event.occurredAt
  metadata : event.metadata.write? = some r.metadata
  previousHash : r.previousHash = head.lastHash
  currentHash : r.currentHash = computeAuditHash config (event.hashInput r.sequence r.previousHash)

theorem columns_of_newRecord {config : Config} {event : NormalizedAuditEvent} {head : AuditStream}
    {r : AuditRecord} (h : newRecord config event head = some r) : Columns config event head r := by
  obtain ⟨metadata, hmetadata, rfl⟩ := Option.map_eq_some_iff.mp h
  refine ⟨rfl, rfl, rfl, rfl, rfl, rfl, rfl, ?_, hmetadata, rfl, rfl⟩
  change event.occurredAt * 1000 / 1000 = event.occurredAt
  omega

/-- What is known at a statement. -/
def Pc.Ok (config : Config) (db : Database) : Pc → Prop
  | .lockHead a true => db.streams a.input.streamKey = none
  | .lockHead a false => (db.streams a.input.streamKey).isSome
  | .findExisting a head => head = some (db.stream a.input.streamKey)
  | .create a head => head = db.stream a.input.streamKey
  | .updateStream a created => newRecord config a.input (db.stream a.input.streamKey) = some created
  | .commitCreated a created => newRecord config a.input (db.stream a.input.streamKey) = some created
  | .commitExisting a head existing => head = some (db.stream a.input.streamKey) ∧
      existing ∈ db.records ∧ existing.eventId = a.input.eventId
  | _ => True

/-- The answer is a record of the event. -/
def Accepted (db : Database) (a : Append) (response : AuditRecordResponse) : Prop :=
  ∃ r ∈ db.records, r.eventId = a.input.eventId ∧ matchesEvent r a = true ∧ response = toResponse r

def Progress.Ok (config : Config) (db : Database) (request : Request) : Progress → Prop
  | .running pc => pc.append? = request.append? ∧ pc.Ok config db
  | .answered (.record response) => ∃ a, request.append? = some a ∧ Accepted db a response
  | _ => True

section Advance

variable {config : Config} {db db' : Database} {held : String → Bool} {contested : AuditRecord → Bool}
  {pc : Pc} {next : Next} {a : Append} {r : AuditRecord} {streamKey : String}

theorem findEvent_some (h : db.findEvent a.input.eventId = some r) :
    r ∈ db.records ∧ r.eventId = a.input.eventId :=
  ⟨List.mem_of_find?_eq_some h, by simpa using List.find?_some h⟩

/-- An event that is resolved to a record is accepted with it or refused. -/
theorem accepted_of_resolve (hr : r ∈ db.records) (hid : r.eventId = a.input.eventId)
    {response : AuditRecordResponse} (h : resolveExisting r a = .record response) :
    Accepted db a response := by
  unfold resolveExisting at h
  split at h
  · next hmatch => exact ⟨r, hr, hid, hmatch, (Outcome.record.inj h).symm⟩
  · cases h

/-- All that a statement can do. -/
inductive Advanced (config : Config) (db : Database) (held : String → Bool)
    (contested : AuditRecord → Bool) : Pc → Database → Next → Prop
  | resolved {pc : Pc} {a : Append} {r : AuditRecord} : pc.append? = some a → r ∈ db.records →
      r.eventId = a.input.eventId →
      Advanced config db held contested pc db (.answer (resolveExisting r a))
  | failed {pc : Pc} {error : HttpError} : Advanced config db held contested pc db (.answer (.error error))
  | notPrior {a : Append} :
      Advanced config db held contested (.findPrior a) db (.goto (.insertStream a))
  | streamKnown {a : Append} : (db.streams a.input.streamKey).isSome →
      Advanced config db held contested (.insertStream a) db (.goto (.lockHead a false))
  | streamInserted {a : Append} : db.streams a.input.streamKey = none →
      held a.input.streamKey = false →
      Advanced config db held contested (.insertStream a) db (.goto (.lockHead a true))
  | ownStream {a : Append} :
      Advanced config db held contested (.lockHead a true) db (.goto (.findExisting a (some .genesis)))
  | locked {a : Append} : held a.input.streamKey = false →
      Advanced config db held contested (.lockHead a false) db
        (.goto (.findExisting a (db.streams a.input.streamKey)))
  | existing {a : Append} {head : Option AuditStream} {r : AuditRecord} : r ∈ db.records →
      r.eventId = a.input.eventId →
      Advanced config db held contested (.findExisting a head) db (.goto (.commitExisting a head r))
  | notExisting {a : Append} {head : AuditStream} :
      Advanced config db held contested (.findExisting a (some head)) db (.goto (.create a head))
  | created {a : Append} {head : AuditStream} {r : AuditRecord} :
      newRecord config a.input head = some r → (∀ q ∈ db.records, conflicts r q = false) →
      contested r = false →
      Advanced config db held contested (.create a head) db (.goto (.updateStream a r))
  | conflict {a : Append} {head : AuditStream} :
      Advanced config db held contested (.create a head) db (.goto (.findWinner a))
  | updated {a : Append} {r : AuditRecord} :
      Advanced config db held contested (.updateStream a r) db (.goto (.commitCreated a r))
  | committed {a : Append} {r : AuditRecord} :
      Advanced config db held contested (.commitCreated a r) (commitCreated db r)
        (.answer (resolveExisting r a))
  | committedExisting {a : Append} {head : Option AuditStream} {r : AuditRecord} :
      Advanced config db held contested (.commitExisting a head r) (commitExisting db a head)
        (.answer (resolveExisting r a))
  | streamRead {streamKey : String} {stream : AuditStream} : db.streams streamKey = some stream →
      Advanced config db held contested (.verifyStream streamKey) db
        (.goto (.verifyRecords streamKey stream))
  | verified {streamKey : String} {stream : AuditStream} :
      Advanced config db held contested (.verifyRecords streamKey stream) db
        (.answer (.verification (verifyRecords config streamKey stream (db.recordsOf streamKey))))

theorem advanced (h : advance config db held contested pc = some (db', next)) :
    Advanced config db held contested pc db' next := by
  cases pc with
  | findPrior a =>
    cases h
    unfold runFindPrior
    split
    · next r hr => exact .resolved rfl (findEvent_some hr).1 (findEvent_some hr).2
    · exact .notPrior
  | insertStream a =>
    obtain ⟨n, hn, hpair⟩ := Option.map_eq_some_iff.mp h
    cases hpair
    unfold runInsertStream at hn
    split at hn
    · cases hn
      exact .failed
    split at hn
    · next stream hstream =>
      cases hn
      exact .streamKnown (by rw [hstream]; rfl)
    · next hstream =>
      split at hn
      · cases hn
      · next hfree =>
        cases hn
        exact .streamInserted hstream (Bool.eq_false_iff.mpr hfree)
  | lockHead a inserted =>
    obtain ⟨n, hn, hpair⟩ := Option.map_eq_some_iff.mp h
    cases hpair
    unfold runLockHead at hn
    cases inserted with
    | true =>
      cases hn
      exact .ownStream
    | false =>
      rw [if_neg (by decide)] at hn
      split at hn
      · cases hn
      · next hfree =>
        cases hn
        exact .locked (Bool.eq_false_iff.mpr hfree)
  | findExisting a head =>
    cases h
    unfold runFindExisting
    split
    · next r hr => exact .existing (findEvent_some hr).1 (findEvent_some hr).2
    · split
      · exact .notExisting
      · exact .failed
  | create a head =>
    obtain ⟨n, hn, hpair⟩ := Option.map_eq_some_iff.mp h
    cases hpair
    unfold runCreate at hn
    split at hn
    · cases hn
      exact .failed
    · next r hr =>
      split at hn
      · cases hn
        exact .failed
      split at hn
      · cases hn
        exact .conflict
      · next hany =>
        split at hn
        · cases hn
        · next hfree =>
          cases hn
          refine .created hr (fun q hq => ?_) (Bool.eq_false_iff.mpr hfree)
          exact Bool.eq_false_iff.mpr fun hc => hany (List.any_eq_true.mpr ⟨q, hq, hc⟩)
  | updateStream a created =>
    cases h
    exact .updated
  | commitCreated a created =>
    cases h
    exact .committed
  | commitExisting a head existing =>
    cases h
    exact .committedExisting
  | findWinner a =>
    cases h
    unfold runFindWinner
    split
    · next r hr => exact .resolved rfl (findEvent_some hr).1 (findEvent_some hr).2
    · exact .failed
  | verifyStream streamKey =>
    cases h
    unfold runVerifyStream
    split
    · next stream hstream => exact .streamRead hstream
    · exact .failed
  | verifyRecords streamKey stream =>
    cases h
    exact .verified

/-- A statement takes a stream only when no other transaction holds it. -/
theorem held_of_advanced (h : Advanced config db held contested pc db' next)
    (hk : next.progress.held? = some streamKey) :
    pc.held? = some streamKey ∨ held streamKey = false := by
  cases h with
  | streamInserted _ hfree =>
    obtain rfl := Option.some.inj hk
    exact .inr hfree
  | @locked a hfree =>
    obtain ⟨stream, -, hkey⟩ := Option.map_eq_some_iff.mp hk
    rw [← hkey]
    exact .inr hfree
  | ownStream => exact .inl hk
  | existing => exact .inl hk
  | notExisting => exact .inl hk
  | created => exact .inl hk
  | updated => exact .inl hk
  | _ => cases hk

/-- A record is inserted only when no other stands against it. -/
theorem pending_of_advanced (h : Advanced config db held contested pc db' next)
    (hr : next.progress.pending? = some r) :
    pc.pending? = some r ∨ contested r = false ∧ ∀ q ∈ db.records, conflicts r q = false := by
  cases h with
  | created _ hconflicts hfree =>
    obtain rfl := Option.some.inj hr
    exact .inr ⟨hfree, hconflicts⟩
  | updated => exact .inl hr
  | _ => cases hr

/-! ### What becomes of the committed rows -/

/-- What a commit leaves as it was. -/
structure Grows (db db' : Database) : Prop where
  records : db.records ⊆ db'.records
  streams : ∀ streamKey, (db.streams streamKey).isSome → (db'.streams streamKey).isSome

theorem Grows.refl (db : Database) : Grows db db := ⟨fun _ h => h, fun _ h => h⟩

theorem Accepted.mono {response : AuditRecordResponse} (hgrows : Grows db db')
    (h : Accepted db a response) : Accepted db' a response := by
  obtain ⟨r, hr, hrest⟩ := h
  exact ⟨r, hgrows.records hr, hrest⟩

/-- What is known at a statement stays true while others leave the stream it holds. -/
theorem Pc.Ok.mono (hgrows : Grows db db')
    (hheld : ∀ streamKey, pc.held? = some streamKey → db'.streams streamKey = db.streams streamKey)
    (h : pc.Ok config db) : pc.Ok config db' := by
  have hstream : ∀ streamKey, pc.held? = some streamKey → db'.stream streamKey = db.stream streamKey := by
    intro streamKey hk
    rw [Database.stream, hheld streamKey hk, Database.stream]
  cases pc with
  | lockHead a inserted =>
    cases inserted with
    | true => exact (hheld _ rfl).trans h
    | false => exact hgrows.streams _ h
  | findExisting a head =>
    have hhead : head = some (db.stream a.input.streamKey) := h
    subst hhead
    exact congrArg some (hstream _ rfl).symm
  | create a head => exact Eq.trans h (hstream _ rfl).symm
  | updateStream a created =>
    change newRecord config a.input (db'.stream a.input.streamKey) = some created
    rw [hstream _ rfl]
    exact h
  | commitCreated a created =>
    change newRecord config a.input (db'.stream a.input.streamKey) = some created
    rw [hstream _ rfl]
    exact h
  | commitExisting a head existing =>
    obtain ⟨rfl, hmem, hid⟩ := h
    exact ⟨congrArg some (hstream _ rfl).symm, hgrows.records hmem, hid⟩
  | _ => trivial

theorem stream_commitExisting (streamKey : String) :
    (commitExisting db a (some (db.stream a.input.streamKey))).stream streamKey = db.stream streamKey := by
  change (Function.update db.streams a.input.streamKey _ streamKey).getD .genesis = db.stream streamKey
  by_cases hk : streamKey = a.input.streamKey
  · rw [hk, Function.update_self]
    rfl
  · rw [Function.update_of_ne hk]
    rfl

theorem grows_of_advanced (h : Advanced config db held contested pc db' next) : Grows db db' := by
  have hupdate : ∀ (key : String) (stream : AuditStream) (streamKey : String),
      (db.streams streamKey).isSome →
      (Function.update db.streams key (some stream) streamKey).isSome := by
    intro key stream streamKey hsome
    by_cases hk : streamKey = key
    · rw [hk, Function.update_self]
      rfl
    · rwa [Function.update_of_ne hk]
  cases h with
  | committed => exact ⟨fun q hq => List.mem_append_left _ hq, hupdate _ _⟩
  | @committedExisting a head r =>
    cases head with
    | none => exact Grows.refl db
    | some head => exact ⟨fun q hq => hq, hupdate _ _⟩
  | _ => exact Grows.refl db

/-- A commit writes the stream that its transaction holds. -/
theorem streams_of_advanced (h : Advanced config db held contested pc db' next) (hok : pc.Ok config db)
    (hk : pc.held? ≠ some streamKey) : db'.streams streamKey = db.streams streamKey := by
  cases h with
  | @committed a r =>
    have hne : streamKey ≠ r.streamKey := by
      rintro rfl
      exact hk (by rw [(columns_of_newRecord hok).streamKey]; rfl)
    exact Function.update_of_ne hne _ _
  | @committedExisting a head r =>
    cases head with
    | none => rfl
    | some head =>
      have hne : streamKey ≠ a.input.streamKey := fun heq => hk (by rw [heq]; rfl)
      exact Function.update_of_ne hne _ _
  | _ => rfl

/-- What is known at the next statement. -/
theorem ok_of_advanced {request : Request} (h : Advanced config db held contested pc db' next)
    (hok : (Progress.running pc).Ok config db request) : next.progress.Ok config db' request := by
  obtain ⟨hrequest, hpc⟩ := hok
  have hanswer : ∀ {db' : Database} {a : Append} {r : AuditRecord}, pc.append? = some a →
      r ∈ db'.records → r.eventId = a.input.eventId →
      (Next.answer (resolveExisting r a)).progress.Ok config db' request := by
    intro db' a r ha hr hid
    cases hresolve : resolveExisting r a with
    | record response => exact ⟨a, hrequest.symm.trans ha, accepted_of_resolve hr hid hresolve⟩
    | _ => trivial
  cases h with
  | resolved ha hr hid => exact hanswer ha hr hid
  | failed => trivial
  | notPrior => exact ⟨hrequest, trivial⟩
  | streamKnown hsome => exact ⟨hrequest, hsome⟩
  | streamInserted hnone => exact ⟨hrequest, hnone⟩
  | @ownStream a =>
    have hnone : db.streams a.input.streamKey = none := hpc
    exact ⟨hrequest, by rw [Pc.Ok, Database.stream, hnone]; rfl⟩
  | @locked a =>
    obtain ⟨stream, hstream⟩ := Option.isSome_iff_exists.mp hpc
    exact ⟨hrequest, by rw [Pc.Ok, Database.stream, hstream]; rfl⟩
  | existing hr hid => exact ⟨hrequest, hpc, hr, hid⟩
  | notExisting => exact ⟨hrequest, Option.some.inj hpc⟩
  | @created a head r hr =>
    have hhead : head = db.stream a.input.streamKey := hpc
    exact ⟨hrequest, by rw [Pc.Ok, ← hhead]; exact hr⟩
  | conflict => exact ⟨hrequest, trivial⟩
  | updated => exact ⟨hrequest, hpc⟩
  | @committed a r =>
    exact hanswer rfl (List.mem_append_right _ List.mem_cons_self) (columns_of_newRecord hpc).eventId
  | @committedExisting a head r =>
    obtain ⟨rfl, hr, hid⟩ := hpc
    exact hanswer rfl hr hid
  | streamRead => exact ⟨hrequest, trivial⟩
  | verified => trivial

/-- The only record that a commit adds is the one its transaction has inserted. -/
theorem records_of_advanced (h : Advanced config db held contested pc db' next) :
    db'.records = db.records ∨ ∃ r, pc.pending? = some r ∧ db'.records = db.records ++ [r] := by
  cases h with
  | @committed a r => exact .inr ⟨r, rfl, rfl⟩
  | @committedExisting a head r => cases head <;> exact .inl rfl
  | _ => exact .inl rfl

/-- The committed rows are chained, and written by the service. -/
structure Database.Ok (config : Config) (db : Database) : Prop where
  events : (db.records.map AuditRecord.eventId).Nodup
  chains : ∀ streamKey, Chain links ⟨0, 0⟩ (db.ofStream streamKey) (db.stream streamKey).head
  written : ∀ r ∈ db.records, Written config r

theorem continues_of_newRecord {event : NormalizedAuditEvent} {head : AuditStream}
    (h : newRecord config event head = some r) : Continues links head.head r :=
  ⟨(columns_of_newRecord h).sequence, (columns_of_newRecord h).previousHash⟩

theorem ok_commitCreated (hdb : db.Ok config) (hr : newRecord config a.input (db.stream a.input.streamKey) = some r)
    (hfresh : ∀ q ∈ db.records, q.eventId ≠ r.eventId) : (commitCreated db r).Ok config := by
  have hkey := (columns_of_newRecord hr).streamKey
  refine ⟨?_, fun streamKey => ?_, fun q hq => ?_⟩
  · change ((db.records ++ [r]).map AuditRecord.eventId).Nodup
    rw [List.map_append, List.nodup_append]
    refine ⟨hdb.events, by simp, fun e he e' he' => ?_⟩
    obtain ⟨q, hq, rfl⟩ := List.mem_map.mp he
    obtain rfl : e' = r.eventId := by simpa using he'
    exact hfresh q hq
  · change Chain links ⟨0, 0⟩ ((db.records ++ [r]).filter _)
      ((Function.update db.streams r.streamKey (some ⟨r.sequence, r.currentHash⟩) streamKey).getD .genesis).head
    rw [List.filter_append]
    by_cases hk : streamKey = r.streamKey
    · subst hk
      have hchain := hdb.chains r.streamKey
      rw [hkey] at hchain
      rw [Function.update_self, List.filter_cons_of_pos (by simp), List.filter_nil, hkey]
      exact hchain.snoc (continues_of_newRecord hr)
    · rw [Function.update_of_ne hk, List.filter_cons_of_neg (by simp [Ne.symm hk]), List.filter_nil,
        List.append_nil]
      exact hdb.chains streamKey
  · obtain hq | hq := List.mem_append.mp hq
    · exact hdb.written q hq
    · obtain rfl := List.mem_singleton.mp hq
      exact ⟨_, _, hr⟩

theorem ok_database_of_advanced (h : Advanced config db held contested pc db' next)
    (hpc : pc.Ok config db) (hdb : db.Ok config)
    (hfresh : ∀ r, pc.pending? = some r → ∀ q ∈ db.records, q.eventId ≠ r.eventId) : db'.Ok config := by
  cases h with
  | committed => exact ok_commitCreated hdb hpc (hfresh _ rfl)
  | committedExisting =>
    obtain ⟨rfl, -, -⟩ := hpc
    exact ⟨hdb.events, fun streamKey => by rw [stream_commitExisting]; exact hdb.chains streamKey, hdb.written⟩
  | _ => exact hdb

end Advance

/-! ### Runs -/

variable {ι : Type} [DecidableEq ι] {config : Config}

structure Invariant (config : Config) (s : State ι) : Prop where
  tables : s.db.Ok config
  known : ∀ i call, s.calls i = some call → i ∈ s.started
  calls : ∀ i call, s.calls i = some call → call.progress.Ok config s.db call.request
  exclusive : ∀ i j c d streamKey, i ≠ j → s.calls i = some c → s.calls j = some d →
    c.progress.held? = some streamKey → d.progress.held? ≠ some streamKey
  fresh : ∀ i c r, s.calls i = some c → c.progress.pending? = some r →
    ∀ q ∈ s.db.records, q.eventId ≠ r.eventId
  disjoint : ∀ i j c d r q, i ≠ j → s.calls i = some c → s.calls j = some d →
    c.progress.pending? = some r → d.progress.pending? = some q → q.eventId ≠ r.eventId

/-- What a step of one call has to show for the invariant to be kept. -/
structure Kept (config : Config) (s : State ι) (i : ι) (db : Database) (request : Request)
    (progress : Progress) : Prop where
  tables : db.Ok config
  grows : Grows s.db db
  ok : progress.Ok config db request
  streams : ∀ j c streamKey, j ≠ i → s.calls j = some c → c.progress.held? = some streamKey →
    db.streams streamKey = s.db.streams streamKey
  held : ∀ j c streamKey, j ≠ i → s.calls j = some c → progress.held? = some streamKey →
    c.progress.held? ≠ some streamKey
  fresh : ∀ r, progress.pending? = some r → ∀ q ∈ db.records, q.eventId ≠ r.eventId
  disjoint : ∀ j c r q, j ≠ i → s.calls j = some c → progress.pending? = some r →
    c.progress.pending? = some q → q.eventId ≠ r.eventId
  others : ∀ j c r, j ≠ i → s.calls j = some c → c.progress.pending? = some r →
    ∀ q ∈ db.records, q.eventId ≠ r.eventId

theorem Progress.Ok.mono {db db' : Database} {request : Request} {progress : Progress}
    (hgrows : Grows db db')
    (hheld : ∀ streamKey, progress.held? = some streamKey → db'.streams streamKey = db.streams streamKey)
    (h : progress.Ok config db request) : progress.Ok config db' request := by
  cases progress with
  | running pc => exact ⟨h.1, h.2.mono hgrows hheld⟩
  | answered outcome =>
    cases outcome with
    | record response =>
      obtain ⟨a, ha, haccepted⟩ := h
      exact ⟨a, ha, haccepted.mono hgrows⟩
    | _ => trivial
  | stopped => trivial

theorem Invariant.update {s : State ι} {i : ι} {db : Database} {request : Request} {progress : Progress}
    {started : List ι} (hinv : Invariant config s) (hk : Kept config s i db request progress)
    (hstarted : s.started ⊆ started) (hi : i ∈ started) :
    Invariant config ⟨db, Function.update s.calls i (some ⟨request, progress⟩), started⟩ := by
  -- Every fact about the calls is about the one that moved, or about others, or about both.
  have hcall : ∀ {j c}, Function.update s.calls i (some ⟨request, progress⟩) j = some c →
      j = i ∧ c = ⟨request, progress⟩ ∨ j ≠ i ∧ s.calls j = some c := by
    intro j c hc
    by_cases hj : j = i
    · subst hj
      rw [Function.update_self] at hc
      exact .inl ⟨rfl, (Option.some.inj hc).symm⟩
    · rw [Function.update_of_ne hj] at hc
      exact .inr ⟨hj, hc⟩
  refine ⟨hk.tables, ?_, ?_, ?_, ?_, ?_⟩
  · intro j c hc
    obtain ⟨rfl, -⟩ | ⟨-, hc⟩ := hcall hc
    · exact hi
    · exact hstarted (hinv.known j c hc)
  · intro j c hc
    obtain ⟨rfl, rfl⟩ | ⟨hj, hc⟩ := hcall hc
    · exact hk.ok
    · exact (hinv.calls j c hc).mono hk.grows fun streamKey hheld => hk.streams j c streamKey hj hc hheld
  · intro j l c d streamKey hjl hc hd hheld
    obtain ⟨rfl, rfl⟩ | ⟨hj, hold⟩ := hcall hc <;> obtain ⟨rfl, rfl⟩ | ⟨hl, hold'⟩ := hcall hd
    · exact absurd rfl hjl
    · exact hk.held l d streamKey hl hold' hheld
    · exact fun hnew => hk.held j c streamKey hj hold hnew hheld
    · exact hinv.exclusive j l c d streamKey hjl hold hold' hheld
  · intro j c r hc hr
    obtain ⟨rfl, rfl⟩ | ⟨hj, hc⟩ := hcall hc
    · exact hk.fresh r hr
    · exact hk.others j c r hj hc hr
  · intro j l c d r q hjl hc hd hr hq
    obtain ⟨rfl, rfl⟩ | ⟨hj, hold⟩ := hcall hc <;> obtain ⟨rfl, rfl⟩ | ⟨hl, hold'⟩ := hcall hd
    · exact absurd rfl hjl
    · exact hk.disjoint l d r q hl hold' hr hq
    · exact (hk.disjoint j c q r hj hold hq hr).symm
    · exact hinv.disjoint j l c d r q hjl hold hold' hr hq

omit [DecidableEq ι] in
/-- A call that holds nothing keeps the invariant with what it knows. -/
theorem Invariant.kept_of_free {s : State ι} {i : ι} {request : Request} {progress : Progress}
    (hinv : Invariant config s) (hok : progress.Ok config s.db request) (hheld : progress.held? = none)
    (hpending : progress.pending? = none) : Kept config s i s.db request progress where
  tables := hinv.tables
  grows := Grows.refl s.db
  ok := hok
  streams := fun _ _ _ _ _ _ => rfl
  held := fun _ _ _ _ _ h => by rw [hheld] at h; cases h
  fresh := fun _ h => by rw [hpending] at h; cases h
  disjoint := fun _ _ _ _ _ _ h => by rw [hpending] at h; cases h
  others := fun j c r _ hc hr => hinv.fresh j c r hc hr

theorem entry_ok (db : Database) (request : Request) :
    request.entry.progress.Ok config db request ∧ request.entry.progress.held? = none ∧
      request.entry.progress.pending? = none := by
  have happend : ∀ input acceptOperatorRetry, (∀ event, normalizeEvent input = .ok event →
      request.append? = some ⟨event, acceptOperatorRetry⟩) →
      (appendEntry input acceptOperatorRetry).progress.Ok config db request ∧
        (appendEntry input acceptOperatorRetry).progress.held? = none ∧
        (appendEntry input acceptOperatorRetry).progress.pending? = none := by
    intro input acceptOperatorRetry hrequest
    unfold appendEntry
    split
    · next event hevent => exact ⟨⟨(hrequest event hevent).symm, trivial⟩, rfl, rfl⟩
    · exact ⟨trivial, rfl, rfl⟩
  cases request with
  | append input => exact happend input false fun event h => by rw [Request.append?, h]; rfl
  | appendOperatorAction input => exact happend input true fun event h => by rw [Request.append?, h]; rfl
  | verify streamKey => exact ⟨⟨rfl, trivial⟩, rfl, rfl⟩

section Run

variable {s : State ι} {i : ι} {pc : Pc} {db' : Database} {next : Next} {request : Request}

theorem mem_others {j : ι} {c : Call} (hknown : j ∈ s.started) (hj : j ≠ i) (hc : s.calls j = some c) :
    c.progress ∈ s.others i :=
  List.mem_filterMap.mpr ⟨j, List.mem_filter.mpr ⟨hknown, decide_eq_true hj⟩, by rw [hc]; rfl⟩

theorem Invariant.kept_of_run (hinv : Invariant config s)
    (hcall : s.calls i = some ⟨request, .running pc⟩)
    (h : Advanced config s.db (s.held i) (s.contested i) pc db' next) :
    Kept config s i db' request next.progress := by
  have hok := hinv.calls i _ hcall
  have hfresh : ∀ r, pc.pending? = some r → ∀ q ∈ s.db.records, q.eventId ≠ r.eventId :=
    fun r hr => hinv.fresh i _ r hcall hr
  refine ⟨ok_database_of_advanced h hok.2 hinv.tables hfresh, grows_of_advanced h, ok_of_advanced h hok,
    ?_, ?_, ?_, ?_, ?_⟩
  · intro j c streamKey hj hc hheld
    exact streams_of_advanced h hok.2 fun hk => hinv.exclusive i j _ c streamKey hj.symm hcall hc hk hheld
  · intro j c streamKey hj hc hnew hheld
    obtain hold | hfree := held_of_advanced h hnew
    · exact hinv.exclusive i j _ c streamKey hj.symm hcall hc hold hheld
    · have hany := List.any_eq_false.mp hfree c.progress (mem_others (hinv.known j c hc) hj hc)
      exact hany (decide_eq_true hheld)
  · intro r hr q hq
    cases h with
    | created _ hconflicts _ =>
      obtain rfl := Option.some.inj hr
      intro heq
      have hnone := hconflicts q hq
      rw [conflicts, heq] at hnone
      simp at hnone
    | updated => exact hfresh r hr q hq
    | _ => cases hr
  · intro j c r q hj hc hr hq
    obtain hold | ⟨hfree, -⟩ := pending_of_advanced h hr
    · exact hinv.disjoint i j _ c r q hj.symm hcall hc hold hq
    · intro heq
      refine List.any_eq_false.mp hfree c.progress (mem_others (hinv.known j c hc) hj hc) ?_
      rw [hq, Option.any_some, conflicts, heq]
      simp
  · intro j c r hj hc hr q hq
    obtain hsame | ⟨q', hq', hadd⟩ := records_of_advanced h
    · rw [hsame] at hq
      exact hinv.fresh j c r hc hr q hq
    · rw [hadd] at hq
      obtain hq | hq := List.mem_append.mp hq
      · exact hinv.fresh j c r hc hr q hq
      · rw [List.mem_singleton.mp hq]
        exact hinv.disjoint j i c _ r q' hj hc hcall hr hq'

end Run

omit [DecidableEq ι] in
theorem invariant_initial : Invariant config (State.initial : State ι) where
  tables := ⟨List.nodup_nil, fun _ => .nil _, fun _ h => by cases h⟩
  known := fun _ _ h => by cases h
  calls := fun _ _ h => by cases h
  exclusive := fun _ _ _ _ _ _ h => by cases h
  fresh := fun _ _ _ h => by cases h
  disjoint := fun _ _ _ _ _ _ _ h => by cases h

theorem Invariant.step {s s' : State ι} {action : Action ι} (hinv : Invariant config s)
    (h : step config s action = some s') : Invariant config s' := by
  cases action with
  | start i request =>
    rw [Audit.step] at h
    split at h
    · obtain rfl := Option.some.inj h
      obtain ⟨hok, hheld, hpending⟩ := @entry_ok config s.db request
      exact hinv.update (hinv.kept_of_free hok hheld hpending) (List.subset_cons_self i _)
        List.mem_cons_self
    · cases h
  | run i =>
    rw [Audit.step] at h
    split at h
    · next request pc hcall =>
      obtain ⟨⟨db', next⟩, hadvance, rfl⟩ := Option.map_eq_some_iff.mp h
      exact hinv.update (hinv.kept_of_run hcall (advanced hadvance)) (fun _ h => h)
        (hinv.known i _ hcall)
    · cases h
  | stop i =>
    rw [Audit.step] at h
    split at h
    · next request pc hcall =>
      obtain rfl := Option.some.inj h
      exact hinv.update (hinv.kept_of_free trivial rfl rfl) (fun _ h => h) (hinv.known i _ hcall)
    · cases h

theorem invariant_of_reachable {s : State ι} (h : (system ι config).Reachable s) : Invariant config s :=
  h.invariant invariant_initial fun _ _ _ _ hinv hs => hinv.step hs

end NovaPay.Audit
