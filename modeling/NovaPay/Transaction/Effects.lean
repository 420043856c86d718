import NovaPay.Transaction.Changes

/-!
# The effect of each database transaction

For every transaction that commits: the rows it read last, and the change it made.
-/

namespace NovaPay.Transaction

open DecimalArithmetic Relational

variable {db db' : Database} {t u : Transfer} {r : IdempotencyRecord}

def ProjectedRow.withStatus (row : ProjectedRow) (status : TransferStatus) : ProjectedRow :=
  { row with status }

theorem expectedRows_status {row : ProjectedRow} (h : row ∈ expectedRows t) :
    row.status = t.status := by
  unfold expectedRows at h
  split at h
  · cases h
  · simp only [List.mem_cons, List.not_mem_nil, or_false] at h
    rcases h with rfl | rfl <;> rfl

/-- The expected rows follow the status when the columns they come from stay. -/
theorem expectedRows_map_withStatus (hs : SameTransfer t u) (ha : t.targetAmount = u.targetAmount) :
    (expectedRows t).map (fun row => row.withStatus u.status) = expectedRows u := by
  unfold expectedRows
  rw [hs.type, ha]
  split
  · rfl
  · simp [ProjectedRow.withStatus, hs.senderWalletId, hs.recipientWalletId, hs.sourceCurrency,
      hs.sourceAmount, hs.targetCurrency, hs.fxQuoteId, hs.createdAt]

theorem projectionOf_append {rows new : List TransactionHistory} {id : Uuid} :
    projectionOf id (rows ++ new) = projectionOf id rows ++ projectionOf id new := by
  simp [projectionOf]

theorem projectionOf_of_none {rows : List TransactionHistory} {id : Uuid}
    (h : ∀ row ∈ rows, row.transferId ≠ id) : projectionOf id rows = [] := by
  simpa [projectionOf] using h

/-- An update of the status of all rows of one transfer. -/
theorem projectionOf_withStatus {H H' : Table historySchema} {p : TransactionHistory → Bool}
    {n : ℕ} {id i : Uuid} {status : TransferStatus}
    (h : H.updateMany p (fun row => row.withStatus status) = .ok (H', n))
    (hp : ∀ row, p row = true → row.transferId = id)
    (hall : ∀ row ∈ H.rows, row.transferId = id → p row = true) :
    projectionOf i H'.rows = if i = id
      then (projectionOf id H.rows).map (fun row => row.withStatus status)
      else projectionOf i H.rows := by
  have hfilter : (updateWhere p (fun row => row.withStatus status) H.rows).filter
      (fun row => decide (row.transferId = i)) = updateWhere p (fun row => row.withStatus status)
        (H.rows.filter fun row => decide (row.transferId = i)) :=
    filter_updateWhere fun row => rfl
  simp only [projectionOf, (Table.updateMany_ok h).1, hfilter]
  split
  · next hi =>
    subst hi
    rw [updateWhere_of_all fun row hrow => ?_]
    · simp [TransactionHistory.withStatus, ProjectedRow.withStatus]
    · simp only [List.mem_filter, decide_eq_true_eq] at hrow
      exact hall row hrow.1 hrow.2
  · next hi =>
    rw [updateWhere_of_none fun row hrow => ?_]
    simp only [List.mem_filter, decide_eq_true_eq] at hrow
    by_contra hp'
    exact hi (hrow.2.symm.trans (hp row (by simpa using hp')))

theorem findUniqueOrThrow_ok {T : Table transfersSchema} {id : Uuid}
    (h : findUniqueOrThrow T id = .ok t) : findBy Transfer.id id T.rows = some t := by
  unfold findUniqueOrThrow at h
  split at h
  · next heq => cases h; exact heq
  · cases h

theorem Database.record_of_transfer (hl : Lockstep db) {id : Uuid}
    (h : db.findTransfer id = some t) :
    ∃ r, db.recordOf id = some r ∧ LockstepAt t r (db.historyOf id) := (hl.agree id t h).2

theorem status_of_history (hl : Lockstep db) {row : TransactionHistory}
    (hrow : row ∈ db.history.rows) (h : db.findTransfer row.transferId = some t) :
    row.status = t.status := by
  obtain ⟨r, hr, hat⟩ := Database.record_of_transfer hl h
  apply expectedRows_status
  rw [← hat.rows_eq]
  exact List.mem_map.mpr ⟨row, List.mem_filter.mpr ⟨hrow, by simp⟩, rfl⟩

/-- The update of the transfers in a transaction: it matches no row, or the transfer found under
the id and replaces it. -/
theorem updateTransfer_ok {T : Table transfersSchema} {n : ℕ} {p : Transfer → Bool}
    {f : Transfer → Transfer} {i : Uuid} (h : db.transfers.updateMany p f = .ok (T, n))
    (hp : ∀ v, p v = true → v.id = i) (hf : ∀ v, (f v).id = v.id) :
    (n = 0 ∧ T = db.transfers ∧ ∀ v ∈ db.transfers.rows, p v = false) ∨
      (n = 1 ∧ ∃ v, db.findTransfer i = some v ∧ v.id = i ∧ p v = true ∧
        (f v).check = true ∧
        ∀ k, findBy Transfer.id k T.rows = if k = v.id then some (f v) else db.findTransfer k) := by
  rcases Table.updateMany_keyed db.transfer_ids hp hf h with hnone | ⟨hn, v, hv, hpv, hid, -, hmem, hfind⟩
  · exact .inl hnone
  · refine .inr ⟨hn, v, Database.findTransfer_eq_some_iff.mpr ⟨hv, hid⟩, hid, hpv,
      T.checked _ hmem, fun k => ?_⟩
    rw [hfind k, hid]
    rfl

/-- A transfer that moves to a new status with its record and all its history rows. -/
theorem replaces_of_updates (hl : Lockstep db) {T : Table transfersSchema}
    {R : Table recordsSchema} {H : Table historySchema} {r' : IdempotencyRecord} {n : ℕ}
    {p : TransactionHistory → Bool} (ht : db.findTransfer t.id = some t)
    (hs : SameTransfer t u) (ha : t.targetAmount = u.targetAmount)
    (hT : ∀ i, findBy Transfer.id i T.rows = if i = t.id then some u else db.findTransfer i)
    (hR : ∀ i, findBy IdempotencyRecord.transferId i R.rows =
      if i = t.id then some r' else db.recordOf i)
    (hH : db.history.updateMany p (fun row => row.withStatus u.status) = .ok (H, n))
    (hp : ∀ row, p row = true → row.transferId = t.id)
    (hall : ∀ row, row.transferId = t.id → row.status = t.status → p row = true) :
    Replaces db ⟨T, R, H⟩ u r' := by
  obtain ⟨r, hr, hat⟩ := Database.record_of_transfer hl ht
  refine ⟨fun i => ?_, fun i => ?_, fun i => ?_⟩
  · rw [← hs.id]; exact hT i
  · rw [← hs.id]; exact hR i
  · have hrows := projectionOf_withStatus (i := i) hH hp fun row hrow hid =>
      hall row hid (status_of_history hl hrow (hid ▸ ht))
    rw [← hs.id, ← expectedRows_map_withStatus hs ha, ← hat.rows_eq]
    exact hrows

theorem transition_ok (hl : Lockstep db) {id : Uuid} {date : Date}
    (h : transition db id date = .ok db') :
    (db' = db ∧ ∀ t, db.findTransfer id = some t → t.status ≠ .pending) ∨
      ∃ t r, t.id = id ∧ Moved db db' t r (t.start date) r := by
  unfold transition at h
  obtain ⟨⟨T, n⟩, hT, h⟩ := bind_eq_ok h
  have hp : ∀ v : Transfer, (decide (v.id = id) && decide (v.status = .pending)) = true →
      v.id = id := fun v hv => by simp only [Bool.and_eq_true, decide_eq_true_eq] at hv; exact hv.1
  rcases updateTransfer_ok hT hp (fun v => rfl) with
    ⟨rfl, rfl, hnone⟩ | ⟨rfl, t, ht, rfl, hpt, hcheck, hfind⟩
  · cases h
    refine .inl ⟨rfl, fun t ht hs => ?_⟩
    obtain ⟨hmem, hid⟩ := Database.findTransfer_eq_some_iff.mp ht
    simpa [hid, hs] using hnone t hmem
  right
  simp only [if_true] at h
  obtain ⟨⟨H, m⟩, hH, h⟩ := bind_eq_ok h
  cases h
  obtain ⟨hterms, r, hr, hat⟩ := hl.agree _ t ht
  have hpending : t.status = .pending := by simpa using hpt
  have hdomestic : t.type = .domestic := by
    cases htype : t.type with
    | domestic => rfl
    | international =>
      have hnone := hterms.unprepared htype hpending
      simp [Transfer.check, Transfer.executionCheck, Transfer.start, htype, hnone] at hcheck
  refine ⟨t, r, rfl, ht, hr, .start date hpending hdomestic, ?_⟩
  refine replaces_of_updates hl ht ⟨rfl, rfl, rfl, rfl, rfl, rfl, rfl, rfl, rfl, rfl⟩ rfl hfind
    (fun i => ?_) hH (fun row hrow => ?_) fun row hid hs => ?_
  · split
    · next hi => exact hi ▸ hr
    · rfl
  · simp only [Bool.and_eq_true, decide_eq_true_eq] at hrow
    exact hrow.1
  · simp [hid, hs, hpending]

/-- The update of the record of a transfer, where its condition holds of that record. -/
theorem updateRecord_ok {R : Table recordsSchema} {n : ℕ} {p : IdempotencyRecord → Bool}
    {f : IdempotencyRecord → IdempotencyRecord} {id : Uuid} (hr : db.recordOf id = some r)
    (h : db.records.updateMany p f = .ok (R, n)) (hpr : p r = true)
    (hp : ∀ q, p q = true → q.transferId = id) (hf : ∀ q, (f q).transferId = q.transferId) :
    n = 1 ∧ ∀ i, findBy IdempotencyRecord.transferId i R.rows =
      if i = id then some (f r) else db.recordOf i := by
  obtain ⟨hmem, hid⟩ := Database.recordOf_eq_some_iff.mp hr
  rcases Table.updateMany_keyed db.record_transferIds hp hf h with
    ⟨-, -, hnone⟩ | ⟨hn, q, hq, -, hqid, -, -, hfind⟩
  · exact absurd (hnone r hmem) (by simp [hpr])
  · obtain rfl : q = r := Database.record_eq hq hmem (hqid.trans hid.symm)
    exact ⟨hn, hfind⟩

theorem complete_ok (hl : Lockstep db) {id : Uuid} {ledgerTransactionId : Option Uuid}
    {now : Time} {date : Date} {transitioned : Bool}
    (h : complete db id ledgerTransactionId now date = .ok (db', u, transitioned)) :
    (transitioned = false ∧ db' = db ∧ db.findTransfer id = some u ∧ u.status ≠ .processing) ∨
      (transitioned = true ∧ ∃ t r posting, ledgerTransactionId = some posting ∧ t.id = id ∧
        u = t.complete (some posting) now date ∧
        Moved db db' t r u (r.complete (toResponse u))) := by
  unfold complete at h
  obtain ⟨⟨T, n⟩, hT, h⟩ := bind_eq_ok h
  have hp : ∀ v : Transfer, (decide (v.id = id) && decide (v.status = .processing)) = true →
      v.id = id := fun v hv => by simp only [Bool.and_eq_true, decide_eq_true_eq] at hv; exact hv.1
  rcases updateTransfer_ok hT hp (fun v => rfl) with
    ⟨rfl, rfl, hnone⟩ | ⟨rfl, t, ht, rfl, hpt, hcheck, hfind⟩
  · simp only [if_true] at h
    obtain ⟨v, hv, h⟩ := bind_eq_ok h
    cases h
    have hu := findUniqueOrThrow_ok hv
    obtain ⟨hmem, hid⟩ := findBy_some hu
    refine .inl ⟨rfl, rfl, hu, fun hs => ?_⟩
    simpa [hid, hs] using hnone u hmem
  right
  simp only [Nat.one_ne_zero, if_false] at h
  obtain ⟨⟨H, m⟩, hH, h⟩ := bind_eq_ok h
  obtain ⟨v, hv, h⟩ := bind_eq_ok h
  obtain ⟨⟨R, k⟩, hR, h⟩ := bind_eq_ok h
  obtain ⟨r, hr, hat⟩ := Database.record_of_transfer hl ht
  have hprocessing : t.status = .processing := by simpa using hpt
  have hv' := findUniqueOrThrow_ok hv
  rw [hfind, if_pos rfl] at hv'
  cases hv'
  -- a completed row must carry the id of its posting
  obtain ⟨posting, rfl⟩ : ∃ posting, ledgerTransactionId = some posting := by
    have hopen : t.ledgerTransactionId = none := by
      have := (db.transfers.checked t (Database.findTransfer_eq_some_iff.mp ht).1)
      simp only [transfersSchema, Transfer.check, Transfer.terminalStateCheck, hprocessing,
        Bool.and_eq_true, Option.isNone_iff_eq_none] at this
      exact this.1.1.2.1.1.1
    cases hid : ledgerTransactionId with
    | some posting => exact ⟨posting, rfl⟩
    | none =>
      simp [Transfer.check, Transfer.terminalStateCheck, Transfer.complete, hid, hopen] at hcheck
  obtain ⟨hk, hRfind⟩ := updateRecord_ok hr hR (by simp [(Database.recordOf_eq_some_iff.mp hr).2])
    (fun q hq => by simpa using hq) (fun q => rfl)
  simp only [hk, Nat.one_ne_zero, if_false] at h
  cases h
  refine ⟨rfl, t, r, posting, rfl, rfl, rfl, ht, hr, .complete posting now date hprocessing, ?_⟩
  exact replaces_of_updates hl ht ⟨rfl, rfl, rfl, rfl, rfl, rfl, rfl, rfl, rfl, rfl⟩ rfl hfind
    hRfind hH (fun row hrow => by simpa using hrow) fun row hid _ => by simp [hid]

theorem fail_ok (hl : Lockstep db) {id : Uuid} {error : HttpError} {date : Date}
    {transitioned : Bool} (h : fail db id error date = .ok (db', u, transitioned)) :
    (transitioned = false ∧ db' = db ∧ db.findTransfer id = some u ∧ u.status.open = false) ∨
      (transitioned = true ∧ ∃ t r, t.id = id ∧ u = t.fail error date ∧
        Moved db db' t r u (r.fail error.status (toResponse u))) := by
  unfold fail at h
  obtain ⟨⟨T, n⟩, hT, h⟩ := bind_eq_ok h
  have hp : ∀ v : Transfer, (decide (v.id = id) && v.status.open) = true → v.id = id :=
    fun v hv => by simp only [Bool.and_eq_true, decide_eq_true_eq] at hv; exact hv.1
  rcases updateTransfer_ok hT hp (fun v => rfl) with
    ⟨rfl, rfl, hnone⟩ | ⟨rfl, t, ht, rfl, hpt, -, hfind⟩
  · simp only [Nat.zero_ne_one, if_false] at h
    obtain ⟨v, hv, h⟩ := bind_eq_ok h
    cases h
    have hu := findUniqueOrThrow_ok hv
    obtain ⟨hmem, hid⟩ := findBy_some hu
    exact .inl ⟨rfl, rfl, hu, by simpa [hid] using hnone u hmem⟩
  right
  simp only [if_true] at h
  obtain ⟨⟨H, m⟩, hH, h⟩ := bind_eq_ok h
  obtain ⟨v, hv, h⟩ := bind_eq_ok h
  obtain ⟨⟨R, k⟩, hR, h⟩ := bind_eq_ok h
  obtain ⟨r, hr, hat⟩ := Database.record_of_transfer hl ht
  have hopen : t.status.open = true := by simpa using hpt
  have hv' := findUniqueOrThrow_ok hv
  rw [hfind, if_pos rfl] at hv'
  cases hv'
  have hstate : r.state = .processing := hat.processing.mpr (TransferStatus.open_iff.mp hopen)
  obtain ⟨-, hRfind⟩ := updateRecord_ok hr hR
    (by simp [(Database.recordOf_eq_some_iff.mp hr).2, hstate])
    (fun q hq => by simp only [Bool.and_eq_true, decide_eq_true_eq] at hq; exact hq.1)
    (fun q => rfl)
  cases h
  refine ⟨rfl, t, r, rfl, rfl, ht, hr, .fail error date hopen, ?_⟩
  exact replaces_of_updates hl ht ⟨rfl, rfl, rfl, rfl, rfl, rfl, rfl, rfl, rfl, rfl⟩ rfl hfind
    hRfind hH (fun row hrow => by simpa using hrow) fun row hid _ => by simp [hid]

/-- A retry changes neither the status nor the record nor the history. -/
theorem claimProcessingRetry_ok (hl : Lockstep db) {staleBefore : Option ℤ} {date : Date}
    {claimed : Bool} (h : claimProcessingRetry db u staleBefore date = .ok (db', claimed)) :
    (claimed = false ∧ db' = db) ∨
      (claimed = true ∧ ∃ t r, t.id = u.id ∧ t.version = u.version ∧
        Moved db db' t r (t.retry date) r) := by
  unfold claimProcessingRetry at h
  obtain ⟨⟨T, n⟩, hT, h⟩ := bind_eq_ok h
  rcases updateTransfer_ok hT (i := u.id)
      (fun v hv => by simp only [Bool.and_eq_true, decide_eq_true_eq] at hv; exact hv.1.1.1)
      (fun v => rfl) with
    ⟨rfl, rfl, -⟩ | ⟨rfl, t, ht, hid, hpt, -, hfind⟩
  · cases h
    exact .inl ⟨rfl, rfl⟩
  right
  cases h
  simp only [Bool.and_eq_true, decide_eq_true_eq] at hpt
  rw [← hid] at ht
  obtain ⟨r, hr, hat⟩ := Database.record_of_transfer hl ht
  refine ⟨rfl, t, r, hid, hpt.1.2, ht, hr, .retry date hpt.1.1.2, hfind, fun i => ?_, fun i => ?_⟩
  · split
    · next hi => exact hi ▸ hr
    · rfl
  · split
    · next hi =>
      have hrows : expectedRows (t.retry date) = expectedRows t := rfl
      rw [hrows, ← hat.rows_eq, hi]
      rfl
    · rfl

theorem unprepared_iff {id : Uuid} : unprepared id t = true ↔
    t.id = id ∧ t.status = .pending ∧ t.targetAmount = none ∧ t.lockedFxRate = none := by
  simp [unprepared, and_assoc]

/-- The rows `prepareInternational` inserts are those expected of the prepared transfer. -/
theorem projectionOf_preparedHistory (hs : SameTransfer u t)
    {targetAmount : Money} {lockedFxRate : Rate} {senderRowId recipientRowId : Uuid} {date : Date} :
    projectionOf t.id (preparedHistory u targetAmount senderRowId recipientRowId) =
      expectedRows (t.prepare targetAmount lockedFxRate date) := by
  simp [projectionOf, preparedHistory, expectedRows, Transfer.prepare, hs.id, hs.senderWalletId,
    hs.recipientWalletId, hs.sourceAmount, hs.sourceCurrency, hs.targetCurrency, hs.fxQuoteId,
    hs.createdAt]

theorem projectionOf_preparedHistory_of_ne {targetAmount : Money}
    {senderRowId recipientRowId i : Uuid} (h : i ≠ u.id) :
    projectionOf i (preparedHistory u targetAmount senderRowId recipientRowId) = [] := by
  refine projectionOf_of_none fun row hrow => ?_
  simp only [preparedHistory, List.mem_cons, List.not_mem_nil, or_false] at hrow
  rcases hrow with rfl | rfl <;> exact h.symm

theorem prepareInternational_ok (hl : Lockstep db) {quote : QuoteResponse}
    {senderRowId recipientRowId : Uuid} {date : Date} {prepared : Bool}
    (hsame : ∀ t, db.findTransfer u.id = some t → SameTransfer u t)
    (h : prepareInternational db u quote senderRowId recipientRowId date = .ok (db', prepared)) :
    (prepared = false ∧ db' = db) ∨
      (prepared = true ∧ ∃ t r targetAmount lockedFxRate, t.id = u.id ∧ t.status = .pending ∧
        Numeric.ofRat? quote.targetAmount.value = some targetAmount ∧
        Numeric.ofRat? quote.rate.value = some lockedFxRate ∧
        Moved db db' t r (t.prepare targetAmount lockedFxRate date) r) := by
  unfold prepareInternational at h
  split at h
  · next targetAmount lockedFxRate htarget hrate =>
    obtain ⟨⟨T, n⟩, hT, h⟩ := bind_eq_ok h
    rcases updateTransfer_ok hT (i := u.id) (fun v hv => (unprepared_iff.mp hv).1)
        (fun v => rfl) with
      ⟨rfl, rfl, -⟩ | ⟨rfl, t, ht, hid, hpt, -, hfind⟩
    · cases h
      exact .inl ⟨rfl, rfl⟩
    right
    simp only [if_true] at h
    obtain ⟨H, hH, h⟩ := bind_eq_ok h
    cases h
    have hst := hsame t ht
    rw [← hid] at ht
    obtain ⟨hterms, r, hr, hat⟩ := hl.agree _ t ht
    obtain ⟨-, hpending, hamount, hnorate⟩ := unprepared_iff.mp hpt
    have hinternational : t.type = .international := by
      cases htype : t.type with
      | international => rfl
      | domestic => exact absurd (hterms.domestic htype) (by simp [hamount])
    have hempty : projectionOf t.id db.history.rows = [] := by
      have hrows : projectionOf t.id db.history.rows = expectedRows t := hat.rows_eq
      rw [hrows, expectedRows, if_pos ⟨hinternational, hamount⟩]
    refine ⟨rfl, t, r, targetAmount, lockedFxRate, hid, hpending, htarget, hrate, ht, hr,
      .prepare targetAmount lockedFxRate date hpending hinternational hamount hnorate, hfind,
      fun i => ?_, fun i => ?_⟩
    · split
      · next hi => exact hi ▸ hr
      · rfl
    · have hrows : H.rows = db.history.rows ++ _ := Table.insertMany_ok hH
      change projectionOf i H.rows = _
      rw [hrows, projectionOf_append]
      split
      · next hi =>
        rw [hi]
        change projectionOf t.id _ ++ projectionOf t.id _ = _
        rw [hempty, List.nil_append, projectionOf_preparedHistory hst]
      · next hi =>
        rw [projectionOf_preparedHistory_of_ne fun h => hi (h.trans hid.symm), List.append_nil]
        rfl
  · split at h
    · cases h
    · cases h
      exact .inl ⟨rfl, rfl⟩

/-- The record and the history of a fresh transfer. -/
theorem created_of_inserts (hl : Lockstep db) (new : List TransactionHistory)
    {T : Table transfersSchema} {R : Table recordsSchema} {H : Table historySchema}
    (hT : db.transfers.insertMany [t] = .ok T) (hR : db.records.insertMany [r] = .ok R)
    (hH : H.rows = db.history.rows ++ new) (hid : r.transferId = t.id) (hterms : TermsAgree t)
    (hpending : t.status = .pending) (hat : LockstepAt t r (expectedRows t))
    (hnew : ∀ row ∈ new, row.transferId = t.id) (hrows : projectionOf t.id new = expectedRows t) :
    Created db ⟨T, R, H⟩ t r := by
  have hTrows := Table.insertMany_ok hT
  have hRrows := Table.insertMany_ok hR
  have hTid : uniqueBy Transfer.id T.rows = true := Database.transfer_ids ⟨T, R, H⟩
  have hRid : uniqueBy IdempotencyRecord.transferId R.rows = true :=
    Database.record_transferIds ⟨T, R, H⟩
  have hRkey : uniqueBy (fun q : IdempotencyRecord => (q.clientId, q.key)) R.rows = true :=
    Database.record_keys ⟨T, R, H⟩
  rw [hTrows] at hTid
  rw [hRrows] at hRid hRkey
  have hfresh : db.findTransfer t.id = none :=
    findBy_eq_none_iff.mpr (fresh_of_uniqueBy_append hTid)
  have hnone : projectionOf t.id db.history.rows = [] := (hl.absent t.id hfresh).2
  refine ⟨hfresh, fresh_of_uniqueBy_append hRkey, hid, hpending, hterms, hat, fun i => ?_,
    fun i => ?_, fun i => ?_⟩
  · change findBy Transfer.id i T.rows = _
    rw [hTrows, findBy_append_new hfresh]
    rfl
  · change findBy IdempotencyRecord.transferId i R.rows = _
    rw [hRrows, findBy_append_new (findBy_eq_none_iff.mpr (fresh_of_uniqueBy_append hRid)), hid]
    rfl
  · change projectionOf i H.rows = _
    rw [hH, projectionOf_append]
    split
    · next hi => rw [hi, hnone, hrows, List.nil_append]
    · next hi =>
      have hother : projectionOf i new = [] :=
        projectionOf_of_none fun row hrow h => hi (h.symm.trans (hnew row hrow))
      rw [hother, List.append_nil]
      rfl

theorem claim_ok (hl : Lockstep db) {ids : ClaimIds} {now : Time} {date : Date}
    {clientId : Principal} {key : IdempotencyKey} {requestHash : Digest} {command : CreateTransfer}
    (h : claim db ids now date clientId key requestHash command = .ok (db', t)) :
    ∃ amount, Numeric.ofRat? command.amount.val.value = some amount ∧
      t = domesticTransfer clientId command amount ids.transferId now date ∧
      Created db db' t (claimRecord clientId key requestHash ids.transferId now) := by
  unfold claim at h
  split at h
  · cases h
  next amount hamount =>
  obtain ⟨T, hT, h⟩ := bind_eq_ok h
  obtain ⟨H, hH, h⟩ := bind_eq_ok h
  obtain ⟨R, hR, h⟩ := bind_eq_ok h
  cases h
  refine ⟨amount, hamount, rfl, created_of_inserts hl _ hT hR (Table.insertMany_ok hH) rfl
    ⟨fun _ => rfl, fun hi => by simp [domesticTransfer] at hi,
      fun hi => by simp [domesticTransfer] at hi⟩
    rfl ⟨?_, ?_, ?_, ?_, ?_, rfl⟩ ?_ ?_⟩
  · simp [claimRecord, domesticTransfer]
  · simp [claimRecord, domesticTransfer]
  · simp [claimRecord, domesticTransfer]
  · simp [claimRecord, domesticTransfer, TransferStatus.open]
  · simp [domesticTransfer]
  · simp only [claimHistory, List.mem_cons, List.not_mem_nil, or_false]
    rintro row (rfl | rfl) <;> rfl
  · simp [projectionOf, claimHistory, expectedRows, domesticTransfer]

theorem claimInternational_ok (hl : Lockstep db) {ids : ClaimIds} {now : Time} {date : Date}
    {clientId : Principal} {key : IdempotencyKey} {requestHash : Digest}
    {command : CreateInternationalTransfer}
    (h : claimInternational db ids now date clientId key requestHash command = .ok (db', t)) :
    ∃ amount, Numeric.ofRat? command.sourceAmount.val.value = some amount ∧
      t = internationalTransfer clientId command amount ids.transferId now date ∧
      Created db db' t (claimRecord clientId key requestHash ids.transferId now) := by
  unfold claimInternational at h
  split at h
  · cases h
  next amount hamount =>
  obtain ⟨T, hT, h⟩ := bind_eq_ok h
  obtain ⟨R, hR, h⟩ := bind_eq_ok h
  cases h
  refine ⟨amount, hamount, rfl, created_of_inserts hl [] hT hR (by simp) rfl
    ⟨fun hd => by simp [internationalTransfer] at hd, fun _ => by simp [internationalTransfer],
      fun _ _ => rfl⟩
    rfl ⟨?_, ?_, ?_, ?_, ?_, rfl⟩ (by simp) ?_⟩
  · simp [claimRecord, internationalTransfer]
  · simp [claimRecord, internationalTransfer]
  · simp [claimRecord, internationalTransfer]
  · simp [claimRecord, internationalTransfer, TransferStatus.open]
  · simp [internationalTransfer]
  · simp [projectionOf, expectedRows, internationalTransfer]

end NovaPay.Transaction
