import NovaPay.Transaction.Effects

/-!
# When the database transactions succeed

Each transaction of the service, where its row is in the status it expects and the values it
writes are storable, passes every check, trigger and index.
-/

namespace NovaPay.Transaction

open DecimalArithmetic Relational

variable {db : Database} {t : Transfer} {date : Date}

/-- An error whose code, message and status the columns can hold. -/
structure Storable (error : HttpError) : Prop where
  code : Varchar.fitsColumn 80 (Varchar.assign 80 error.code) = true
  message : Varchar.fitsColumn 300 (Varchar.assign 300 error.message) = true
  status : 100 ≤ error.status ∧ error.status ≤ 599

theorem Transfer.check_fail {error : HttpError} (hc : t.check = true) (ho : t.status.open = true)
    (he : Storable error) : (t.fail error date).check = true := by
  simp only [Transfer.check, Bool.and_eq_true] at hc ⊢
  obtain ⟨⟨⟨⟨⟨⟨hw, hs⟩, ht⟩, htype⟩, hstate⟩, -⟩, -⟩ := hc
  have hnone : t.ledgerTransactionId = none ∧ t.completedAt = none := by
    rcases TransferStatus.open_iff.mp ho with h | h <;>
      simp only [Transfer.terminalStateCheck, h, Bool.and_eq_true, Option.isNone_iff_eq_none] at hstate <;>
      exact ⟨hstate.1.1.1, hstate.1.1.2⟩
  refine ⟨⟨⟨⟨⟨⟨hw, hs⟩, ht⟩, htype⟩, ?_⟩, ?_⟩, ?_⟩
  · simp [Transfer.terminalStateCheck, Transfer.fail, hnone]
  · simp [Transfer.executionCheck, Transfer.fail]
  · simp [Transfer.failureFits, Transfer.fail, he.code, he.message]

theorem Transfer.guard_fail {error : HttpError} (ho : t.status.open = true) :
    guardTransferUpdate t (t.fail error date) = true := by
  rcases TransferStatus.open_iff.mp ho with h | h <;>
    simp [guardTransferUpdate, Transfer.fail, statusAllowed, h]

theorem Transfer.check_complete {ledgerTransactionId : Uuid} {now : Time} (hc : t.check = true)
    (hp : t.status = .processing) : (t.complete (some ledgerTransactionId) now date).check = true := by
  simp only [Transfer.check, Bool.and_eq_true] at hc ⊢
  obtain ⟨⟨⟨⟨⟨⟨hw, hs⟩, ht⟩, htype⟩, hstate⟩, hexec⟩, hfits⟩ := hc
  simp only [Transfer.terminalStateCheck, hp, Bool.and_eq_true, Option.isNone_iff_eq_none] at hstate
  refine ⟨⟨⟨⟨⟨⟨hw, hs⟩, ht⟩, htype⟩, ?_⟩, ?_⟩, hfits⟩
  · simp [Transfer.terminalStateCheck, Transfer.complete, hstate]
  · simpa [Transfer.executionCheck, Transfer.complete, hp] using hexec

theorem Transfer.guard_complete {ledgerTransactionId : Uuid} {now : Time}
    (hp : t.status = .processing) :
    guardTransferUpdate t (t.complete (some ledgerTransactionId) now date) = true := by
  simp [guardTransferUpdate, Transfer.complete, statusAllowed, hp]

theorem Transfer.check_prepare {targetAmount : Money} {lockedFxRate : Rate} (hc : t.check = true)
    (hi : t.type = .international) (hp : t.status = .pending) (ha : 0 < targetAmount.value)
    (hr : 0 < lockedFxRate.value) : (t.prepare targetAmount lockedFxRate date).check = true := by
  simp only [Transfer.check, Bool.and_eq_true] at hc ⊢
  obtain ⟨⟨⟨⟨⟨⟨hw, hs⟩, ht⟩, htype⟩, hstate⟩, -⟩, hfits⟩ := hc
  simp only [Transfer.typeCheck, hi, Bool.or_eq_true, Bool.and_eq_true] at htype
  simp only [Transfer.terminalStateCheck, hp] at hstate
  refine ⟨⟨⟨⟨⟨⟨hw, hs⟩, ?_⟩, ?_⟩, ?_⟩, ?_⟩, hfits⟩
  · simpa [Transfer.prepare] using ha
  · rcases htype with htype | htype
    · simp at htype
    · simp only [Transfer.typeCheck, Transfer.prepare, hi, Bool.or_eq_true, Bool.and_eq_true]
      exact .inr ⟨htype.1, .inr ⟨by simpa using ha, by simpa using hr⟩⟩
  · simpa [Transfer.terminalStateCheck, Transfer.prepare] using hstate
  · simp [Transfer.executionCheck, Transfer.prepare]

theorem Transfer.guard_prepare {targetAmount : Money} {lockedFxRate : Rate}
    (hi : t.type = .international) (hp : t.status = .pending) (ht : t.targetAmount = none)
    (hn : t.lockedFxRate = none) (ha : 0 < targetAmount.value) (hr : 0 < lockedFxRate.value) :
    guardTransferUpdate t (t.prepare targetAmount lockedFxRate date) = true := by
  simp [guardTransferUpdate, Transfer.prepare, statusAllowed, hi, hp, ht, hn, ha, hr]

/-- An update of one found transfer, whose new row passes, replaces it. -/
theorem updateTransfer_enabled {p : Transfer → Bool} {f : Transfer → Transfer}
    (ht : db.findTransfer t.id = some t) (hp : ∀ v, p v = true → v.id = t.id) (hpt : p t = true)
    (hf : ∀ v, (f v).id = v.id) (hquote : ∀ v, (f v).fxQuoteId = v.fxQuoteId)
    (hguard : guardTransferUpdate t (f t) = true) (hcheck : (f t).check = true)
    (hledger : db.transfers.rows.countP p ≤ 1 →
      uniqueWhere Transfer.ledgerTransactionId (updateWhere p f db.transfers.rows) = true) :
    ∃ T, db.transfers.updateMany p f = .ok (T, 1) ∧ findBy Transfer.id t.id T.rows = some (f t) := by
  obtain ⟨hmem, -⟩ := Database.findTransfer_eq_some_iff.mp ht
  have honly : ∀ v ∈ db.transfers.rows, p v = true → v = t := fun v hv hpv =>
    Database.transfer_eq hv hmem (hp v hpv)
  have hindexed : transfersIndexed (updateWhere p f db.transfers.rows) = true := by
    simp only [transfersIndexed, Bool.and_eq_true]
    refine ⟨⟨?_, ?_⟩, hledger (countP_le_one_of_uniqueBy db.transfer_ids hp)⟩
    · rw [uniqueBy_updateWhere hf]
      exact db.transfer_ids
    · rw [uniqueWhere_updateWhere hquote]
      exact db.transfer_quotes
  obtain ⟨T, hT, -⟩ := Table.updateMany_of_check (fun v hv hpv => by
    rw [honly v hv hpv]
    exact ⟨hguard, hcheck⟩) hindexed
  rcases updateTransfer_ok hT hp hf with ⟨-, -, hnone⟩ | ⟨hn, v, hv, -, -, -, hfind⟩
  · rw [hnone t hmem] at hpt
    cases hpt
  · obtain rfl := Option.some.inj (hv.symm.trans ht)
    rw [hn] at hT
    exact ⟨T, hT, by rw [hfind, if_pos rfl]⟩

theorem ledger_ids (db : Database) :
    uniqueWhere Transfer.ledgerTransactionId db.transfers.rows = true := by
  have h := db.transfers.indexed
  simp only [transfersSchema, transfersIndexed, Bool.and_eq_true] at h
  exact h.2

/-- An update that keeps the column of the posting ids keeps them unique. -/
theorem ledger_ids_updateWhere {p : Transfer → Bool} {f : Transfer → Transfer}
    (hf : ∀ v, (f v).ledgerTransactionId = v.ledgerTransactionId) :
    uniqueWhere Transfer.ledgerTransactionId (updateWhere p f db.transfers.rows) = true := by
  rw [uniqueWhere_updateWhere hf]
  exact ledger_ids db

theorem updateHistory_enabled (db : Database) (p : TransactionHistory → Bool)
    (status : TransferStatus) :
    ∃ H n, db.history.updateMany p (fun row => row.withStatus status) = .ok (H, n) := by
  have hid : ∀ row : TransactionHistory, (row.withStatus status).id = row.id := fun _ => rfl
  have hkey : ∀ row : TransactionHistory, ((row.withStatus status).transferId,
      (row.withStatus status).walletId, (row.withStatus status).role) =
        (row.transferId, row.walletId, row.role) := fun _ => rfl
  have hindexed : historyIndexed
      (updateWhere p (fun row => row.withStatus status) db.history.rows) = true := by
    have h : historyIndexed db.history.rows = true := db.history.indexed
    simp only [historyIndexed] at h ⊢
    rw [uniqueBy_updateWhere hid, uniqueBy_updateWhere hkey]
    exact h
  have hcheck : ∀ row ∈ db.history.rows, p row = true →
      historySchema.guard row (row.withStatus status) = true ∧
        historySchema.check (row.withStatus status) = true :=
    fun row hrow _ => ⟨rfl, db.history.checked row hrow⟩
  obtain ⟨H, hH, -⟩ := Table.updateMany_of_check hcheck hindexed
  exact ⟨H, _, hH⟩

/-- The record of an open transfer takes its final state. -/
theorem updateRecord_enabled {p : IdempotencyRecord → Bool}
    {f : IdempotencyRecord → IdempotencyRecord}
    (hpass : ∀ r ∈ db.records.rows, p r = true → guardIdempotencyUpdate r (f r) = true ∧
      (f r).check = true)
    (hkey : ∀ r, ((f r).clientId, (f r).key) = (r.clientId, r.key))
    (hid : ∀ r, (f r).transferId = r.transferId) :
    ∃ R n, db.records.updateMany p f = .ok (R, n) := by
  have hindexed : recordsIndexed (updateWhere p f db.records.rows) = true := by
    have h : recordsIndexed db.records.rows = true := db.records.indexed
    simp only [recordsIndexed] at h ⊢
    rw [uniqueBy_updateWhere hkey, uniqueBy_updateWhere hid]
    exact h
  obtain ⟨R, hR, -⟩ := Table.updateMany_of_check hpass hindexed
  exact ⟨R, _, hR⟩

theorem findUniqueOrThrow_of_find {T : Table transfersSchema} {id : Uuid} {u : Transfer}
    (h : findBy Transfer.id id T.rows = some u) : findUniqueOrThrow T id = .ok u := by
  simp [findUniqueOrThrow, h]

theorem fail_enabled {error : HttpError} (ht : db.findTransfer t.id = some t)
    (ho : t.status.open = true) (he : Storable error) :
    ∃ db' u, fail db t.id error date = .ok (db', u, true) := by
  have hcheck : t.check = true :=
    db.transfers.checked t (Database.findTransfer_eq_some_iff.mp ht).1
  have hpin : ∀ v : Transfer, (decide (v.id = t.id) && v.status.open) = true → v.id = t.id := by
    intro v hv
    simp only [Bool.and_eq_true, decide_eq_true_eq] at hv
    exact hv.1
  obtain ⟨T, hT, hfind⟩ := updateTransfer_enabled (f := fun v => v.fail error date) ht hpin
    (by simp [ho]) (fun _ => rfl) (fun _ => rfl) (Transfer.guard_fail ho)
    (Transfer.check_fail hcheck ho he) (fun _ => ledger_ids_updateWhere fun _ => rfl)
  obtain ⟨H, n, hH⟩ := updateHistory_enabled db (fun h => decide (h.transferId = t.id)) .failed
  have hrecord : ∀ r ∈ db.records.rows, (decide (r.transferId = t.id) &&
      decide (r.state = .processing)) = true → guardIdempotencyUpdate r
        (r.fail error.status (toResponse (t.fail error date))) = true ∧
        (r.fail error.status (toResponse (t.fail error date))).check = true := by
    intro r hr hp
    simp only [Bool.and_eq_true, decide_eq_true_eq] at hp
    have hr : r.check = true := db.records.checked r hr
    simp only [IdempotencyRecord.check, Bool.and_eq_true] at hr
    refine ⟨by simp [guardIdempotencyUpdate, IdempotencyRecord.fail, hp.2], ?_⟩
    simp only [IdempotencyRecord.check, IdempotencyRecord.fail, Bool.and_eq_true]
    exact ⟨⟨by simp, hr.1.2⟩, by simp [he.status]⟩
  obtain ⟨R, m, hR⟩ := updateRecord_enabled hrecord (fun _ => rfl) (fun _ => rfl)
  unfold fail
  rw [hT, ok_bind]
  simp only [if_true]
  rw [hH, ok_bind, findUniqueOrThrow_of_find hfind, ok_bind, hR, ok_bind]
  exact ⟨_, _, rfl⟩

/-- A posting that no other transfer completed with completes a processing one. -/
theorem complete_enabled (hl : Lockstep db) {ledgerTransactionId : Uuid} {now : Time}
    (ht : db.findTransfer t.id = some t) (hp : t.status = .processing)
    (hfresh : ∀ u ∈ db.transfers.rows, u.ledgerTransactionId ≠ some ledgerTransactionId) :
    ∃ db' u, complete db t.id (some ledgerTransactionId) now date = .ok (db', u, true) := by
  have hcheck : t.check = true :=
    db.transfers.checked t (Database.findTransfer_eq_some_iff.mp ht).1
  have hpin : ∀ v : Transfer, (decide (v.id = t.id) && decide (v.status = .processing)) = true →
      v.id = t.id := by
    intro v hv
    simp only [Bool.and_eq_true, decide_eq_true_eq] at hv
    exact hv.1
  obtain ⟨T, hT, hfind⟩ := updateTransfer_enabled
    (f := fun v => v.complete (some ledgerTransactionId) now date) ht hpin (by simp [hp])
    (fun _ => rfl) (fun _ => rfl) (Transfer.guard_complete hp) (Transfer.check_complete hcheck hp)
    (fun hone => uniqueWhere_updateWhere_fresh (ledger_ids db) hone (fun _ => rfl) hfresh)
  obtain ⟨H, n, hH⟩ := updateHistory_enabled db (fun h => decide (h.transferId = t.id)) .completed
  obtain ⟨r, hr, hat⟩ := Database.record_of_transfer hl ht
  have hrecord : ∀ q ∈ db.records.rows, decide (q.transferId = t.id) = true →
      guardIdempotencyUpdate q
        (q.complete (toResponse (t.complete (some ledgerTransactionId) now date))) = true ∧
        (q.complete (toResponse (t.complete (some ledgerTransactionId) now date))).check = true := by
    intro q hq hid
    have hsame : db.recordOf t.id = some q :=
      Database.recordOf_eq_some_iff.mpr ⟨hq, of_decide_eq_true hid⟩
    obtain rfl := Option.some.inj (hr.symm.trans hsame)
    have hstate : r.state = .processing := hat.processing.mpr (.inr hp)
    have hq : r.check = true := db.records.checked r hq
    simp only [IdempotencyRecord.check, Bool.and_eq_true] at hq
    refine ⟨by simp [guardIdempotencyUpdate, IdempotencyRecord.complete, hstate], ?_⟩
    simp only [IdempotencyRecord.check, IdempotencyRecord.complete, Bool.and_eq_true]
    exact ⟨⟨by simp, hq.1.2⟩, by simp⟩
  obtain ⟨R, m, hR⟩ := updateRecord_enabled hrecord (fun _ => rfl) (fun _ => rfl)
  have hone : m = 1 := (updateRecord_ok hr hR (by simp [(Database.recordOf_eq_some_iff.mp hr).2])
    (fun q hq => of_decide_eq_true hq) (fun _ => rfl)).1
  unfold complete
  rw [hT, ok_bind]
  simp only [Nat.one_ne_zero, if_false]
  rw [hH, ok_bind, findUniqueOrThrow_of_find hfind, ok_bind, hR, ok_bind]
  simp only [hone, Nat.one_ne_zero, if_false]
  exact ⟨_, _, rfl⟩

/-- A forced retry of the row that was just read is claimed. -/
theorem claimProcessingRetry_enabled (ht : db.findTransfer t.id = some t)
    (hp : t.status = .processing) :
    ∃ db', claimProcessingRetry db t none date = .ok (db', true) := by
  have hcheck : t.check = true :=
    db.transfers.checked t (Database.findTransfer_eq_some_iff.mp ht).1
  have hretry : (t.retry date).check = true := hcheck
  have hpin : ∀ v : Transfer, (decide (v.id = t.id) && decide (v.status = .processing) &&
      decide (v.version = t.version) &&
      (none : Option ℤ).all (fun limit => decide ((v.updatedAt : ℤ) ≤ limit))) = true →
      v.id = t.id := by
    intro v hv
    simp only [Bool.and_eq_true, decide_eq_true_eq] at hv
    exact hv.1.1.1
  obtain ⟨T, hT, -⟩ := updateTransfer_enabled (f := fun v => v.retry date) ht hpin (by simp [hp])
    (fun _ => rfl) (fun _ => rfl)
    (by simp [guardTransferUpdate, Transfer.retry, statusAllowed, hp]) hretry
    (fun _ => ledger_ids_updateWhere fun _ => rfl)
  unfold claimProcessingRetry
  rw [hT, ok_bind]
  exact ⟨_, rfl⟩

theorem nodup_map_append_pair {α κ : Type*} {key : α → κ} {rows : List α} {a b : α}
    (h : (rows.map key).Nodup) (ha : ∀ r ∈ rows, key r ≠ key a) (hb : ∀ r ∈ rows, key r ≠ key b)
    (hab : key a ≠ key b) : ((rows ++ [a, b]).map key).Nodup := by
  rw [List.map_append, List.nodup_append]
  refine ⟨h, by simp [hab], ?_⟩
  intro k hk k' hk' heq
  obtain ⟨r, hr, rfl⟩ := List.mem_map.mp hk
  simp only [List.map_cons, List.map_nil, List.mem_cons, List.not_mem_nil, or_false] at hk'
  rcases hk' with rfl | rfl
  · exact ha r hr heq
  · exact hb r hr heq

/-- The ids a preparation gives its two history rows. -/
structure FreshRowIds (db : Database) (ids : ClaimIds) : Prop where
  distinct : ids.senderRowId ≠ ids.recipientRowId
  sender : ∀ row ∈ db.history.rows, row.id ≠ ids.senderRowId
  recipient : ∀ row ∈ db.history.rows, row.id ≠ ids.recipientRowId

/-- A pending international transfer has no history yet, so its two rows can be inserted. -/
theorem insertPrepared_enabled (hl : Lockstep db) (ht : db.findTransfer t.id = some t)
    (hi : t.type = .international) (hp : t.status = .pending) {targetAmount : Money}
    (ha : 0 < targetAmount.value) {ids : ClaimIds} (hids : FreshRowIds db ids) :
    ∃ H, db.history.insertMany
      (preparedHistory t targetAmount ids.senderRowId ids.recipientRowId) = .ok H := by
  have hcheck : t.check = true :=
    db.transfers.checked t (Database.findTransfer_eq_some_iff.mp ht).1
  simp only [Transfer.check, Bool.and_eq_true, decide_eq_true_eq] at hcheck
  obtain ⟨⟨⟨⟨⟨⟨hwallets, hsource⟩, -⟩, -⟩, -⟩, -⟩, -⟩ := hcheck
  obtain ⟨hterms, r, -, hat⟩ := hl.agree t.id t ht
  have hnone : ∀ row ∈ db.history.rows, row.transferId ≠ t.id := by
    have hempty : db.historyOf t.id = [] := by
      rw [hat.rows_eq, expectedRows, if_pos ⟨hi, hterms.unprepared hi hp⟩]
    intro row hrow hid
    have hmem : row.toProjectedRow ∈ db.historyOf t.id :=
      List.mem_map.mpr ⟨row, List.mem_filter.mpr ⟨hrow, by simp [hid]⟩, rfl⟩
    rw [hempty] at hmem
    cases hmem
  apply Table.insertMany_of_indexed
  · intro row hrow
    rw [historySchema_check]
    simp only [preparedHistory, List.mem_cons, List.not_mem_nil, or_false] at hrow
    rcases hrow with rfl | rfl
    · simp [TransactionHistory.check, hwallets, hsource]
    · simp [TransactionHistory.check, hwallets.symm, ha]
  · have hindexed : historyIndexed db.history.rows = true := db.history.indexed
    simp only [historyIndexed, Bool.and_eq_true, uniqueBy_iff] at hindexed
    change historyIndexed _ = true
    simp only [historyIndexed, Bool.and_eq_true, uniqueBy_iff]
    refine ⟨nodup_map_append_pair hindexed.1 hids.sender hids.recipient hids.distinct,
      nodup_map_append_pair hindexed.2 (fun row hrow h => ?_) (fun row hrow h => ?_) (by simp)⟩
    · exact hnone row hrow (congrArg Prod.fst h)
    · exact hnone row hrow (congrArg Prod.fst h)

theorem prepareInternational_enabled (hl : Lockstep db) (ht : db.findTransfer t.id = some t)
    (hi : t.type = .international) (hp : t.status = .pending) {quote : QuoteResponse}
    {targetAmount : Money} {lockedFxRate : Rate}
    (hamount : Numeric.ofRat? quote.targetAmount.value = some targetAmount) (ha : 0 < targetAmount.value)
    (hrate : Numeric.ofRat? quote.rate.value = some lockedFxRate) (hr : 0 < lockedFxRate.value)
    {ids : ClaimIds} (hids : FreshRowIds db ids) :
    ∃ db', prepareInternational db t quote ids.senderRowId ids.recipientRowId date =
      .ok (db', true) := by
  have hcheck : t.check = true :=
    db.transfers.checked t (Database.findTransfer_eq_some_iff.mp ht).1
  have hterms := (hl.agree t.id t ht).1
  have hnoamount := hterms.unprepared hi hp
  have hnorate := (hterms.together hi).mp hnoamount
  obtain ⟨T, hT, -⟩ := updateTransfer_enabled
    (f := fun v => v.prepare targetAmount lockedFxRate date) ht
    (fun v hv => (unprepared_iff.mp hv).1) (unprepared_iff.mpr ⟨rfl, hp, hnoamount, hnorate⟩)
    (fun _ => rfl) (fun _ => rfl) (Transfer.guard_prepare hi hp hnoamount hnorate ha hr)
    (Transfer.check_prepare hcheck hi hp ha hr) (fun _ => ledger_ids_updateWhere fun _ => rfl)
  obtain ⟨H, hH⟩ := insertPrepared_enabled hl ht hi hp ha hids
  unfold prepareInternational
  simp only [hamount, hrate]
  rw [hT, ok_bind]
  simp only [if_true]
  rw [hH, ok_bind]
  exact ⟨_, rfl⟩

end NovaPay.Transaction
