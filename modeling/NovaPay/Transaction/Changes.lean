import NovaPay.Transaction.Operations

/-!
# What the database transactions change

Every transaction of the Transaction service leaves the database as it is, creates one transfer
with its record and history, or makes one `Move` of one transfer. `Lockstep` is the agreement of
the three tables that all of them keep.
-/

namespace NovaPay.Transaction

open DecimalArithmetic Relational

/-- Agreement of a transfer with its record and its history. -/
structure LockstepAt (t : Transfer) (r : IdempotencyRecord) (rows : List ProjectedRow) : Prop where
  processing : r.state = .processing ↔ t.status = .pending ∨ t.status = .processing
  completed : r.state = .completed ↔ t.status = .completed
  failed : r.state = .failed ↔ t.status = .failed
  body : r.responseBody = if t.status.open then none else some (toResponse t)
  status_completed : t.status = .completed → r.responseStatus = some 201
  rows_eq : rows = expectedRows t

/-- A row in lockstep is never reversed: no state of a record goes with that status. -/
theorem LockstepAt.not_reversed {t : Transfer} {r : IdempotencyRecord} {rows : List ProjectedRow}
    (h : LockstepAt t r rows) : t.status ≠ .reversed := by
  intro hs
  have hp := h.processing
  have hc := h.completed
  have hf := h.failed
  cases hstate : r.state <;> simp [hstate, hs] at hp hc hf

/-- The amounts a transfer has by its type and status. -/
structure TermsAgree (t : Transfer) : Prop where
  domestic : t.type = .domestic → t.targetAmount = some t.sourceAmount
  together : t.type = .international → (t.targetAmount = none ↔ t.lockedFxRate = none)
  unprepared : t.type = .international → t.status = .pending → t.targetAmount = none

/-- Every transfer has a record and a history that agree with it, and no record or history row
is without its transfer. -/
structure Lockstep (db : Database) : Prop where
  agree : ∀ id t, db.findTransfer id = some t →
    TermsAgree t ∧ ∃ r, db.recordOf id = some r ∧ LockstepAt t r (db.historyOf id)
  absent : ∀ id, db.findTransfer id = none → db.recordOf id = none ∧ db.historyOf id = []

/-- Agreement of the columns that no transaction changes. -/
structure SameTransfer (t u : Transfer) : Prop where
  id : t.id = u.id
  clientId : t.clientId = u.clientId
  type : t.type = u.type
  senderWalletId : t.senderWalletId = u.senderWalletId
  recipientWalletId : t.recipientWalletId = u.recipientWalletId
  sourceCurrency : t.sourceCurrency = u.sourceCurrency
  sourceAmount : t.sourceAmount = u.sourceAmount
  targetCurrency : t.targetCurrency = u.targetCurrency
  fxQuoteId : t.fxQuoteId = u.fxQuoteId
  createdAt : t.createdAt = u.createdAt

theorem SameTransfer.refl (t : Transfer) : SameTransfer t t :=
  ⟨rfl, rfl, rfl, rfl, rfl, rfl, rfl, rfl, rfl, rfl⟩

theorem SameTransfer.trans {t u v : Transfer} (h : SameTransfer t u) (k : SameTransfer u v) :
    SameTransfer t v :=
  ⟨h.id.trans k.id, h.clientId.trans k.clientId, h.type.trans k.type,
    h.senderWalletId.trans k.senderWalletId, h.recipientWalletId.trans k.recipientWalletId,
    h.sourceCurrency.trans k.sourceCurrency, h.sourceAmount.trans k.sourceAmount,
    h.targetCurrency.trans k.targetCurrency, h.fxQuoteId.trans k.fxQuoteId,
    h.createdAt.trans k.createdAt⟩

/-- Agreement of the columns of a record that no transaction changes. -/
structure SameRecord (r q : IdempotencyRecord) : Prop where
  transferId : r.transferId = q.transferId
  clientId : r.clientId = q.clientId
  key : r.key = q.key
  requestHash : r.requestHash = q.requestHash
  replayExpiresAt : r.replayExpiresAt = q.replayExpiresAt

theorem SameRecord.refl (r : IdempotencyRecord) : SameRecord r r := ⟨rfl, rfl, rfl, rfl, rfl⟩

theorem SameRecord.trans {r q p : IdempotencyRecord} (h : SameRecord r q) (k : SameRecord q p) :
    SameRecord r p :=
  ⟨h.transferId.trans k.transferId, h.clientId.trans k.clientId, h.key.trans k.key,
    h.requestHash.trans k.requestHash, h.replayExpiresAt.trans k.replayExpiresAt⟩

/-- One change of a transfer and its record. -/
inductive Move (t : Transfer) (r : IdempotencyRecord) : Transfer → IdempotencyRecord → Prop
  | start (date : Date) : t.status = .pending → t.type = .domestic → Move t r (t.start date) r
  | prepare (targetAmount : Money) (lockedFxRate : Rate) (date : Date) :
      t.status = .pending → t.type = .international → t.targetAmount = none →
      t.lockedFxRate = none → Move t r (t.prepare targetAmount lockedFxRate date) r
  | retry (date : Date) : t.status = .processing → Move t r (t.retry date) r
  | complete (ledgerTransactionId : Uuid) (now : Time) (date : Date) : t.status = .processing →
      Move t r (t.complete (some ledgerTransactionId) now date)
        (r.complete (toResponse (t.complete (some ledgerTransactionId) now date)))
  | fail (error : HttpError) (date : Date) : t.status.open = true →
      Move t r (t.fail error date) (r.fail error.status (toResponse (t.fail error date)))

/-- `db'` is `db` but for the rows of one transfer. -/
structure Replaces (db db' : Database) (t : Transfer) (r : IdempotencyRecord) : Prop where
  transfer : ∀ id, db'.findTransfer id = if id = t.id then some t else db.findTransfer id
  record : ∀ id, db'.recordOf id = if id = t.id then some r else db.recordOf id
  history : ∀ id, db'.historyOf id = if id = t.id then expectedRows t else db.historyOf id

theorem Replaces.findTransfer {db db' : Database} {t : Transfer} {r : IdempotencyRecord} (h : Replaces db db' t r) :
    db'.findTransfer t.id = some t := by rw [h.transfer, if_pos rfl]

theorem Replaces.recordOf {db db' : Database} {t : Transfer} {r : IdempotencyRecord} (h : Replaces db db' t r) :
    db'.recordOf t.id = some r := by rw [h.record, if_pos rfl]

structure Moved (db db' : Database) (t : Transfer) (r : IdempotencyRecord) (t' : Transfer)
    (r' : IdempotencyRecord) : Prop where
  found : db.findTransfer t.id = some t
  recorded : db.recordOf t.id = some r
  move : Move t r t' r'
  replaces : Replaces db db' t' r'

/-- The rows a successful claim adds. -/
structure Created (db db' : Database) (t : Transfer) (r : IdempotencyRecord) : Prop where
  absent : db.findTransfer t.id = none
  keyFresh : ∀ q ∈ db.records.rows, (q.clientId, q.key) ≠ (r.clientId, r.key)
  transferId : r.transferId = t.id
  pending : t.status = .pending
  terms : TermsAgree t
  agree : LockstepAt t r (expectedRows t)
  replaces : Replaces db db' t r

inductive Change (db db' : Database) : Prop
  | created (t : Transfer) (r : IdempotencyRecord) : Created db db' t r → Change db db'
  | moved (t : Transfer) (r : IdempotencyRecord) (t' : Transfer) (r' : IdempotencyRecord) :
      Moved db db' t r t' r' → Change db db'

namespace Move

variable {t t' : Transfer} {r r' : IdempotencyRecord}

theorem same (h : Move t r t' r') : SameTransfer t t' := by
  cases h <;> exact ⟨rfl, rfl, rfl, rfl, rfl, rfl, rfl, rfl, rfl, rfl⟩

theorem same_record (h : Move t r t' r') : SameRecord r r' := by
  cases h <;> exact ⟨rfl, rfl, rfl, rfl, rfl⟩

/-- Terms are written once, by the preparation of a pending international transfer. -/
theorem keeps_terms (h : Move t r t' r') :
    (t'.targetAmount = t.targetAmount ∧ t'.lockedFxRate = t.lockedFxRate) ∨
      (t.status = .pending ∧ t.targetAmount = none) := by
  cases h with
  | prepare targetAmount lockedFxRate date hp ht ha hr => exact .inr ⟨hp, ha⟩
  | _ => exact .inl ⟨rfl, rfl⟩

theorem open_before (h : Move t r t' r') : t.status.open = true := by
  cases h with
  | start date hp => simp [hp, TransferStatus.open]
  | prepare targetAmount lockedFxRate date hp => simp [hp, TransferStatus.open]
  | retry date hp => simp [hp, TransferStatus.open]
  | complete ledgerTransactionId now date hp => simp [hp, TransferStatus.open]
  | fail error date ho => exact ho

theorem allowed (h : Move t r t' r') : statusAllowed t.status t'.status = true := by
  cases h with
  | start date hp => simp [hp, Transfer.start, statusAllowed]
  | prepare targetAmount lockedFxRate date hp => simp [hp, Transfer.prepare, statusAllowed]
  | retry date hp => simp [hp, Transfer.retry, statusAllowed]
  | complete ledgerTransactionId now date hp => simp [hp, Transfer.complete, statusAllowed]
  | fail error date ho =>
    revert ho
    cases t.status <;> simp [Transfer.fail, statusAllowed, TransferStatus.open]

theorem terms (h : Move t r t' r') (ht : TermsAgree t) : TermsAgree t' := by
  cases h with
  | start date hp hd =>
    exact ⟨ht.domestic, ht.together, fun hi => absurd (hd.symm.trans hi) (by decide)⟩
  | prepare targetAmount lockedFxRate date hp hi =>
    refine ⟨fun hd => absurd (hi.symm.trans hd) (by decide), fun _ => ?_, fun _ hs => ?_⟩
    · simp [Transfer.prepare]
    · simp [Transfer.prepare] at hs
  | retry date hp => exact ⟨ht.domestic, ht.together, ht.unprepared⟩
  | complete ledgerTransactionId now date hp =>
    exact ⟨ht.domestic, ht.together, fun _ hs => by simp [Transfer.complete] at hs⟩
  | fail error date ho =>
    exact ⟨ht.domestic, ht.together, fun _ hs => by simp [Transfer.fail] at hs⟩

theorem lockstepAt (h : Move t r t' r') {rows : List ProjectedRow} (ht : LockstepAt t r rows) :
    LockstepAt t' r' (expectedRows t') := by
  have hr := ht.processing
  have hc := ht.completed
  have hf := ht.failed
  have hb := ht.body
  cases h with
  | start date hp hd =>
    refine ⟨?_, ?_, ?_, ?_, ?_, rfl⟩ <;>
      simp_all [Transfer.start, TransferStatus.open]
  | prepare targetAmount lockedFxRate date hp hi ha hn =>
    refine ⟨?_, ?_, ?_, ?_, ?_, rfl⟩ <;>
      simp_all [Transfer.prepare, TransferStatus.open]
  | retry date hp =>
    refine ⟨?_, ?_, ?_, ?_, ?_, rfl⟩ <;>
      simp_all [Transfer.retry, TransferStatus.open]
  | complete ledgerTransactionId now date hp =>
    refine ⟨?_, ?_, ?_, ?_, ?_, rfl⟩ <;>
      simp [Transfer.complete, IdempotencyRecord.complete, TransferStatus.open]
  | fail error date ho =>
    refine ⟨?_, ?_, ?_, ?_, ?_, rfl⟩ <;>
      simp [Transfer.fail, IdempotencyRecord.fail, TransferStatus.open]

end Move

/-- The three tables stay in lockstep through every change. -/
theorem Change.lockstep {db db' : Database} (h : Change db db') (hl : Lockstep db) :
    Lockstep db' := by
  obtain ⟨t, r, hterms, hagree, hrep⟩ : ∃ t r, TermsAgree t ∧ LockstepAt t r (expectedRows t) ∧
      Replaces db db' t r := by
    cases h with
    | created t r hc => exact ⟨t, r, hc.terms, hc.agree, hc.replaces⟩
    | moved t r t' r' hm =>
      obtain ⟨hterms, q, hq, hat⟩ := hl.agree _ _ hm.found
      obtain rfl : q = r := Option.some.inj (hq.symm.trans hm.recorded)
      exact ⟨t', r', hm.move.terms hterms, hm.move.lockstepAt hat, hm.replaces⟩
  constructor
  · intro id u hu
    rw [hrep.transfer] at hu
    rw [hrep.record, hrep.history]
    split at hu
    · next hid =>
      cases hu
      rw [if_pos hid, if_pos hid]
      exact ⟨hterms, r, rfl, hagree⟩
    · next hid =>
      rw [if_neg hid, if_neg hid]
      exact hl.agree id u hu
  · intro id hu
    rw [hrep.transfer] at hu
    rw [hrep.record, hrep.history]
    split at hu
    · cases hu
    · next hid =>
      rw [if_neg hid, if_neg hid]
      exact hl.absent id hu

/-- What a later row of a transfer keeps of an earlier one. -/
structure Progress (t u : Transfer) : Prop where
  same : SameTransfer t u
  frozen : t.status.open = false → u = t
  terms : t.status = .pending ∨
    (u.targetAmount = t.targetAmount ∧ u.lockedFxRate = t.lockedFxRate)
  pending : u.status = .pending → t.status = .pending

theorem Progress.refl (t : Transfer) : Progress t t :=
  ⟨.refl t, fun _ => rfl, .inr ⟨rfl, rfl⟩, id⟩

theorem Progress.trans {t u v : Transfer} (h : Progress t u) (k : Progress u v) :
    Progress t v := by
  refine ⟨h.same.trans k.same, fun ht => ?_, ?_, fun hv => h.pending (k.pending hv)⟩
  · obtain rfl := h.frozen ht
    exact k.frozen ht
  · rcases h.terms with ht | ⟨ha, hr⟩
    · exact .inl ht
    rcases k.terms with hu | ⟨ha', hr'⟩
    · exact .inl (h.pending hu)
    · exact .inr ⟨ha'.trans ha, hr'.trans hr⟩

theorem Move.progress {t t' : Transfer} {r r' : IdempotencyRecord} (h : Move t r t' r') :
    Progress t t' := by
  refine ⟨h.same, fun ht => absurd h.open_before (by simp [ht]), ?_, fun hp => ?_⟩
  · rcases h.keeps_terms with hsame | ⟨hp, -⟩
    · exact .inr hsame
    · exact .inl hp
  · cases h with
    | retry date hs => simp [Transfer.retry, hs] at hp
    | _ => cases hp

/-- What a later row of a record keeps of an earlier one. -/
structure RecordProgress (r q : IdempotencyRecord) : Prop where
  same : SameRecord r q
  frozen : r.state ≠ .processing → q = r

theorem RecordProgress.refl (r : IdempotencyRecord) : RecordProgress r r :=
  ⟨.refl r, fun _ => rfl⟩

theorem RecordProgress.trans {r q p : IdempotencyRecord} (h : RecordProgress r q)
    (k : RecordProgress q p) : RecordProgress r p := by
  refine ⟨h.same.trans k.same, fun hr => ?_⟩
  obtain rfl := h.frozen hr
  exact k.frozen hr

/-- Rows are never removed, and each later row is a progress of the earlier one. -/
structure Evolves (db db' : Database) : Prop where
  transfer : ∀ id t, db.findTransfer id = some t →
    ∃ t', db'.findTransfer id = some t' ∧ Progress t t'
  record : ∀ id r, db.recordOf id = some r →
    ∃ r', db'.recordOf id = some r' ∧ RecordProgress r r'

theorem Evolves.refl (db : Database) : Evolves db db :=
  ⟨fun _ t h => ⟨t, h, .refl t⟩, fun _ r h => ⟨r, h, .refl r⟩⟩

theorem Evolves.trans {db db' db'' : Database} (h : Evolves db db') (k : Evolves db' db'') :
    Evolves db db'' := by
  refine ⟨fun id t ht => ?_, fun id r hr => ?_⟩
  · obtain ⟨t', ht', hp⟩ := h.transfer id t ht
    obtain ⟨t'', ht'', hp'⟩ := k.transfer id t' ht'
    exact ⟨t'', ht'', hp.trans hp'⟩
  · obtain ⟨r', hr', hp⟩ := h.record id r hr
    obtain ⟨r'', hr'', hp'⟩ := k.record id r' hr'
    exact ⟨r'', hr'', hp.trans hp'⟩

theorem Change.evolves {db db' : Database} (hl : Lockstep db) (h : Change db db') :
    Evolves db db' := by
  cases h with
  | created t r hc =>
    refine ⟨fun id u hu => ?_, fun id q hq => ?_⟩
    · have hne : id ≠ t.id := by
        rintro rfl
        rw [hc.absent] at hu
        cases hu
      exact ⟨u, by rw [hc.replaces.transfer, if_neg hne, hu], .refl u⟩
    · have hne : id ≠ t.id := by
        rintro rfl
        rw [(hl.absent _ hc.absent).1] at hq
        cases hq
      exact ⟨q, by rw [hc.replaces.record, if_neg hne, hq], .refl q⟩
  | moved t r t' r' hm =>
    have hid : t'.id = t.id := hm.move.same.id.symm
    refine ⟨fun id u hu => ?_, fun id q hq => ?_⟩
    · by_cases hi : id = t.id
      · subst hi
        obtain rfl : t = u := Option.some.inj (hm.found.symm.trans hu)
        exact ⟨t', by rw [hm.replaces.transfer, if_pos hid.symm], hm.move.progress⟩
      · exact ⟨u, by rw [hm.replaces.transfer, if_neg (by rwa [hid]), hu], .refl u⟩
    · by_cases hi : id = t.id
      · subst hi
        obtain rfl : r = q := Option.some.inj (hm.recorded.symm.trans hq)
        refine ⟨r', by rw [hm.replaces.record, if_pos hid.symm], hm.move.same_record, fun hs => ?_⟩
        obtain ⟨-, p, hp, hat⟩ := hl.agree _ t hm.found
        obtain rfl : p = r := Option.some.inj (hp.symm.trans hq)
        exact absurd (hat.processing.mpr (TransferStatus.open_iff.mp hm.move.open_before)) hs
      · exact ⟨q, by rw [hm.replaces.record, if_neg (by rwa [hid]), hq], .refl q⟩

theorem lockstep_empty : Lockstep Database.empty := by
  refine ⟨fun id t h => ?_, fun id _ => ⟨rfl, rfl⟩⟩
  simp [Database.empty, Database.findTransfer, findBy] at h

end NovaPay.Transaction
