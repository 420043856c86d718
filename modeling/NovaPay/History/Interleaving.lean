import NovaPay.Library.TransitionSystem
import NovaPay.Transaction.Effects
import NovaPay.History.Rebuild

/-!
# A rebuild beside live operations

The database transactions of the service between those of a rebuild, from any tables. A batch is read
before the transaction that writes it, so the rebuild restores what each transfer was when it was read.
-/

namespace NovaPay.History

open DecimalArithmetic Relational Transaction Keyset TransitionSystem

/-- A database transaction of the service, with all that it takes. -/
inductive Operation
  | claim (ids : ClaimIds) (now : Time) (date : Date) (clientId : Principal) (key : IdempotencyKey)
      (requestHash : Digest) (command : CreateTransfer)
  | claimInternational (ids : ClaimIds) (now : Time) (date : Date) (clientId : Principal)
      (key : IdempotencyKey) (requestHash : Digest) (command : CreateInternationalTransfer)
  | transition (transferId : Uuid) (date : Date)
  | prepareInternational (transfer : Transfer) (quote : QuoteResponse)
      (senderRowId recipientRowId : Uuid) (date : Date)
  | complete (transferId : Uuid) (ledgerTransactionId : Option Uuid) (now : Time) (date : Date)
  | fail (transferId : Uuid) (error : HttpError) (date : Date)
  | claimProcessingRetry (transfer : Transfer) (staleBefore : Option ℤ) (date : Date)

def Operation.execute (db : Database) : Operation → Except DbError Database
  | .claim ids now date clientId key requestHash command =>
    (Transaction.claim db ids now date clientId key requestHash command).map Prod.fst
  | .claimInternational ids now date clientId key requestHash command =>
    (Transaction.claimInternational db ids now date clientId key requestHash command).map Prod.fst
  | .transition transferId date => Transaction.transition db transferId date
  | .prepareInternational transfer quote senderRowId recipientRowId date =>
    (Transaction.prepareInternational db transfer quote senderRowId recipientRowId date).map Prod.fst
  | .complete transferId ledgerTransactionId now date =>
    (Transaction.complete db transferId ledgerTransactionId now date).map Prod.fst
  | .fail transferId error date => (Transaction.fail db transferId error date).map Prod.fst
  | .claimProcessingRetry transfer staleBefore date =>
    (Transaction.claimProcessingRetry db transfer staleBefore date).map Prod.fst

/-- What a transaction of the service keeps of the projections. -/
structure Keeps (db db' : Database) : Prop where
  foreign : ForeignKey db'
  same : ∀ t ∈ db.transfers.rows, ∃ u ∈ db'.transfers.rows, SameTransfer t u
  projected : ∀ u ∈ db'.transfers.rows,
    (∀ t ∈ db.transfers.rows, t.id = u.id → Projected db.history t) → Projected db'.history u

variable {ids : UuidSource} {batchSize : ℚ} {db db' : Database} {t u : Transfer} {H : HistoryTable}
  {i : Uuid}

theorem Keeps.refl (hforeign : ForeignKey db) : Keeps db db :=
  ⟨hforeign, fun t ht => ⟨t, ht, .refl t⟩, fun u hu h => h u hu rfl⟩

/-- The rows of a transfer in the history. -/
def rowsOf (H : HistoryTable) (i : Uuid) : List TransactionHistory :=
  H.rows.filter fun h => decide (h.transferId = i)

theorem mem_rowsOf {h : TransactionHistory} : h ∈ rowsOf H i ↔ h ∈ H.rows ∧ h.transferId = i := by
  simp [rowsOf]

/-- A change of one transfer and of its rows. -/
theorem keeps_of_update {T : Table transfersSchema} {R : Table recordsSchema} {n : ℕ}
    {p : Transfer → Bool} {f : Transfer → Transfer} (hforeign : ForeignKey db)
    (hT : db.transfers.updateMany p f = .ok (T, n)) (hp : ∀ v, p v = true → v.id = i)
    (hf : ∀ v, SameTransfer v (f v)) (hothers : ∀ k ≠ i, rowsOf H k = rowsOf db.history k)
    (hrows : ∀ v ∈ db.transfers.rows, p v = true → Projected db.history v → Projected H (f v))
    (hnone : (∀ v ∈ db.transfers.rows, p v = false) → H = db.history) : Keeps db ⟨T, R, H⟩ := by
  have hrowsT := (Table.updateMany_ok hT).1
  have hmem : ∀ v ∈ db.transfers.rows, ∃ u ∈ T.rows, SameTransfer v u := by
    intro v hv
    rw [hrowsT]
    exact exists_updateWhere SameTransfer.refl (fun r _ _ => hf r) v hv
  refine ⟨fun h hh => ?_, hmem, fun u hu hproj => ?_⟩
  · by_cases hid : h.transferId = i
    · by_cases hex : ∃ v ∈ db.transfers.rows, p v = true
      · obtain ⟨v, hv, hpv⟩ := hex
        obtain ⟨u, hu, hsame⟩ := hmem v hv
        exact ⟨u, hu, hsame.id.symm.trans ((hp v hpv).trans hid.symm)⟩
      · have hfalse : ∀ v ∈ db.transfers.rows, p v = false := by simpa using hex
        have hH : h ∈ db.history.rows := by rw [← hnone hfalse]; exact hh
        obtain ⟨v, hv, hvid⟩ := hforeign h hH
        obtain ⟨u, hu, hsame⟩ := hmem v hv
        exact ⟨u, hu, hsame.id.symm.trans hvid⟩
    · have hin : h ∈ rowsOf db.history h.transferId := by
        rw [← hothers _ hid]
        exact mem_rowsOf.mpr ⟨hh, rfl⟩
      obtain ⟨v, hv, hvid⟩ := hforeign h (mem_rowsOf.mp hin).1
      obtain ⟨u, hu, hsame⟩ := hmem v hv
      exact ⟨u, hu, hsame.id.symm.trans hvid⟩
  · change u ∈ T.rows at hu
    rw [hrowsT] at hu
    rcases mem_updateWhere.mp hu with ⟨hu, hpu⟩ | ⟨v, hv, hpv, rfl⟩
    · by_cases hid : u.id = i
      · -- the row under the id is another one than those matched, so none is
        have hfalse : ∀ v ∈ db.transfers.rows, p v = false := by
          intro v hv
          by_contra hpv
          replace hpv : p v = true := by simpa using hpv
          obtain rfl := Database.transfer_eq hv hu ((hp v hpv).trans hid.symm)
          simp [hpv] at hpu
        rw [show H = db.history from hnone hfalse]
        exact hproj u hu rfl
      · exact (hproj u hu rfl).of_filter (hothers u.id hid)
    · exact hrows v hv hpv (hproj v hv (hf v).id)

section Status

variable {q : TransactionHistory → Bool} {n : ℕ} {status : TransferStatus}

theorem rowsOf_withStatus
    (hH : db.history.updateMany q (fun row => row.withStatus status) = .ok (H, n))
    (hq : ∀ h, q h = true → h.transferId = i) : ∀ k ≠ i, rowsOf H k = rowsOf db.history k := by
  intro k hk
  rw [rowsOf, (Table.updateMany_ok hH).1,
    filter_updateWhere (f := fun row : TransactionHistory => row.withStatus status) fun _ => rfl]
  refine updateWhere_of_none fun h hh => ?_
  by_contra hqh
  exact hk ((mem_rowsOf.mp hh).2.symm.trans (hq h (by simpa using hqh)))

/-- The rows of a projected transfer follow its status. -/
theorem projected_withStatus
    (hH : db.history.updateMany q (fun row => row.withStatus u.status) = .ok (H, n))
    (hq : ∀ h, q h = true → h.transferId = t.id)
    (hall : ∀ h, h.transferId = t.id → h.status = t.status → q h = true)
    (hs : SameTransfer t u) (ha : t.targetAmount = u.targetAmount) (hp : Projected db.history t) :
    Projected H u := by
  have hrows := projectionOf_withStatus (i := t.id) hH hq fun h hh hid => by
    refine hall h hid (expectedRows_status ?_)
    exact hp.mem_iff.mp (mem_projectionOf.mpr ⟨h, hh, hid, rfl⟩)
  rw [if_pos rfl] at hrows
  rw [Projected, ← hs.id, hrows, ← expectedRows_map_withStatus hs ha]
  exact hp.map _

/-- A change of the status of one transfer and of its rows. -/
theorem keeps_of_status {T : Table transfersSchema} {R : Table recordsSchema} {m : ℕ}
    {p : Transfer → Bool} {f : Transfer → Transfer} (hforeign : ForeignKey db)
    (hT : db.transfers.updateMany p f = .ok (T, m)) (hp : ∀ v, p v = true → v.id = i)
    (hf : ∀ v, SameTransfer v (f v) ∧ v.targetAmount = (f v).targetAmount ∧ (f v).status = status)
    (hH : db.history.updateMany q (fun row => row.withStatus status) = .ok (H, n))
    (hq : ∀ h, q h = true → h.transferId = i)
    (hall : ∀ v, p v = true → ∀ h, h.transferId = i → h.status = v.status → q h = true)
    (hmatched : ∃ v ∈ db.transfers.rows, p v = true) : Keeps db ⟨T, R, H⟩ := by
  refine keeps_of_update hforeign hT hp (fun v => (hf v).1) (rowsOf_withStatus hH hq)
    (fun v hv hpv hproj => ?_) fun hnone => ?_
  · obtain ⟨hsame, hamount, hstatus⟩ := hf v
    obtain rfl := hp v hpv
    subst hstatus
    exact projected_withStatus (t := v) (u := f v) hH hq (hall v hpv) hsame hamount hproj
  · obtain ⟨v, hv, hpv⟩ := hmatched
    rw [hnone v hv] at hpv
    cases hpv

end Status

theorem transition_keeps {date : Date} (hforeign : ForeignKey db)
    (h : Transaction.transition db i date = .ok db') : Keeps db db' := by
  unfold Transaction.transition at h
  obtain ⟨⟨T, n⟩, hT, h⟩ := bind_eq_ok h
  have hp : ∀ v : Transfer, (decide (v.id = i) && decide (v.status = .pending)) = true →
      v.id = i ∧ v.status = .pending := fun v hv => by simpa using hv
  rcases updateTransfer_ok hT (fun v hv => (hp v hv).1) (fun v => rfl) with
    ⟨rfl, rfl, -⟩ | ⟨rfl, t, ht, -, hpt, -, -⟩
  · cases h
    exact .refl hforeign
  simp only [if_true] at h
  obtain ⟨⟨H, m⟩, hH, h⟩ := bind_eq_ok h
  cases h
  refine keeps_of_status hforeign hT (fun v hv => (hp v hv).1)
    (fun v => ⟨⟨rfl, rfl, rfl, rfl, rfl, rfl, rfl, rfl, rfl, rfl⟩, rfl, rfl⟩) hH (fun h hh => ?_)
    (fun v hv h hid hs => ?_) ⟨t, (Database.findTransfer_eq_some_iff.mp ht).1, hpt⟩
  · simp only [Bool.and_eq_true, decide_eq_true_eq] at hh
    exact hh.1
  · simp [hid, hs, (hp v hv).2]

theorem complete_keeps {ledgerTransactionId : Option Uuid} {now : Time} {date : Date} {b : Bool}
    (hforeign : ForeignKey db)
    (h : Transaction.complete db i ledgerTransactionId now date = .ok (db', u, b)) : Keeps db db' := by
  unfold Transaction.complete at h
  obtain ⟨⟨T, n⟩, hT, h⟩ := bind_eq_ok h
  have hp : ∀ v : Transfer, (decide (v.id = i) && decide (v.status = .processing)) = true → v.id = i :=
    fun v hv => by simp only [Bool.and_eq_true, decide_eq_true_eq] at hv; exact hv.1
  rcases updateTransfer_ok hT hp (fun v => rfl) with
    ⟨rfl, rfl, -⟩ | ⟨rfl, t, ht, -, hpt, -, -⟩
  · simp only [if_true] at h
    obtain ⟨v, -, h⟩ := bind_eq_ok h
    cases h
    exact .refl hforeign
  simp only [Nat.one_ne_zero, if_false] at h
  obtain ⟨⟨H, m⟩, hH, h⟩ := bind_eq_ok h
  obtain ⟨v, -, h⟩ := bind_eq_ok h
  obtain ⟨⟨R, k⟩, -, h⟩ := bind_eq_ok h
  split at h
  · cases h
  cases h
  exact keeps_of_status hforeign hT hp
    (fun v => ⟨⟨rfl, rfl, rfl, rfl, rfl, rfl, rfl, rfl, rfl, rfl⟩, rfl, rfl⟩) hH
    (fun h hh => by simpa using hh) (fun v hv h hid _ => by simp [hid])
    ⟨t, (Database.findTransfer_eq_some_iff.mp ht).1, hpt⟩

theorem fail_keeps {error : HttpError} {date : Date} {b : Bool} (hforeign : ForeignKey db)
    (h : Transaction.fail db i error date = .ok (db', u, b)) : Keeps db db' := by
  unfold Transaction.fail at h
  obtain ⟨⟨T, n⟩, hT, h⟩ := bind_eq_ok h
  have hp : ∀ v : Transfer, (decide (v.id = i) && v.status.open) = true → v.id = i :=
    fun v hv => by simp only [Bool.and_eq_true, decide_eq_true_eq] at hv; exact hv.1
  rcases updateTransfer_ok hT hp (fun v => rfl) with
    ⟨rfl, rfl, -⟩ | ⟨rfl, t, ht, -, hpt, -, -⟩
  · simp only [Nat.zero_ne_one, if_false] at h
    obtain ⟨v, -, h⟩ := bind_eq_ok h
    cases h
    exact .refl hforeign
  simp only [if_true] at h
  obtain ⟨⟨H, m⟩, hH, h⟩ := bind_eq_ok h
  obtain ⟨v, -, h⟩ := bind_eq_ok h
  obtain ⟨⟨R, k⟩, -, h⟩ := bind_eq_ok h
  cases h
  exact keeps_of_status hforeign hT hp
    (fun v => ⟨⟨rfl, rfl, rfl, rfl, rfl, rfl, rfl, rfl, rfl, rfl⟩, rfl, rfl⟩) hH
    (fun h hh => by simpa using hh) (fun v hv h hid _ => by simp [hid])
    ⟨t, (Database.findTransfer_eq_some_iff.mp ht).1, hpt⟩

theorem claimProcessingRetry_keeps {staleBefore : Option ℤ} {date : Date} {b : Bool}
    (hforeign : ForeignKey db)
    (h : Transaction.claimProcessingRetry db u staleBefore date = .ok (db', b)) : Keeps db db' := by
  unfold Transaction.claimProcessingRetry at h
  obtain ⟨⟨T, n⟩, hT, h⟩ := bind_eq_ok h
  cases h
  refine keeps_of_update hforeign hT (i := u.id)
    (fun v hv => by simp only [Bool.and_eq_true, decide_eq_true_eq] at hv; exact hv.1.1.1)
    (fun v => ⟨rfl, rfl, rfl, rfl, rfl, rfl, rfl, rfl, rfl, rfl⟩) (fun _ _ => rfl)
    (fun v _ _ hproj => hproj.congr rfl rfl) fun _ => rfl

/-- The rows of a transfer among those a statement adds. -/
theorem rowsOf_append {new : List TransactionHistory} (hH : H.rows = db.history.rows ++ new)
    (hnew : ∀ h ∈ new, h.transferId = i) : ∀ k ≠ i, rowsOf H k = rowsOf db.history k := by
  intro k hk
  have hnone : new.filter (fun h => decide (h.transferId = k)) = [] :=
    List.filter_eq_nil_iff.mpr fun h hh => by simp [hnew h hh, hk.symm]
  rw [rowsOf, hH, List.filter_append, hnone, List.append_nil, rowsOf]

theorem preparedHistory_transferId {targetAmount : Money} {senderRowId recipientRowId : Uuid} :
    ∀ h ∈ preparedHistory t targetAmount senderRowId recipientRowId, h.transferId = t.id := by
  simp [preparedHistory]

/-- A preparation finds no row of the transfer when the history was projected. -/
theorem prepareInternational_keeps {quote : QuoteResponse} {senderRowId recipientRowId : Uuid}
    {date : Date} {b : Bool} (hforeign : ForeignKey db) (htype : t.type = .international)
    (hsame : ∀ v ∈ db.transfers.rows, v.id = t.id → SameTransfer t v)
    (h : Transaction.prepareInternational db t quote senderRowId recipientRowId date = .ok (db', b)) :
    Keeps db db' := by
  unfold Transaction.prepareInternational at h
  split at h
  · next targetAmount lockedFxRate _ _ =>
    obtain ⟨⟨T, n⟩, hT, h⟩ := bind_eq_ok h
    have hp : ∀ v, unprepared t.id v = true → v.id = t.id := fun v hv => (unprepared_iff.mp hv).1
    rcases updateTransfer_ok hT hp (fun v => rfl) with
      ⟨rfl, rfl, -⟩ | ⟨rfl, v, hv, -, hpv, -, -⟩
    · cases h
      exact .refl hforeign
    simp only [if_true] at h
    obtain ⟨H, hH, h⟩ := bind_eq_ok h
    cases h
    have hrows := Table.insertMany_ok hH
    refine keeps_of_update hforeign hT hp
      (fun v => ⟨rfl, rfl, rfl, rfl, rfl, rfl, rfl, rfl, rfl, rfl⟩)
      (rowsOf_append hrows preparedHistory_transferId) (fun v hv hpv hproj => ?_) fun hnone => ?_
    · have hst := hsame v hv (hp v hpv)
      have hempty : projectionOf v.id db.history.rows = [] := by
        have hexpected : expectedRows v = [] :=
          if_pos ⟨hst.type.symm.trans htype, (unprepared_iff.mp hpv).2.2.1⟩
        rw [Projected, hexpected] at hproj
        exact hproj.eq_nil
      change (projectionOf v.id H.rows).Perm _
      rw [hrows, projectionOf_append, hempty, List.nil_append]
      exact .of_eq (projectionOf_preparedHistory hst)
    · have hfalse := hnone v (Database.findTransfer_eq_some_iff.mp hv).1
      rw [hpv] at hfalse
      cases hfalse
  · split at h
    · cases h
    · cases h
      exact .refl hforeign

/-- A new transfer with the rows expected of it. -/
theorem keeps_of_insert {T : Table transfersSchema} {R : Table recordsSchema}
    {new : List TransactionHistory} (hforeign : ForeignKey db)
    (hT : db.transfers.insertMany [t] = .ok T) (hH : H.rows = db.history.rows ++ new)
    (hnew : ∀ h ∈ new, h.transferId = t.id) (hrows : projectionOf t.id new = expectedRows t) :
    Keeps db ⟨T, R, H⟩ := by
  have hrowsT := Table.insertMany_ok hT
  have hids : uniqueBy Transfer.id T.rows = true := Database.transfer_ids ⟨T, R, H⟩
  rw [hrowsT] at hids
  have hfresh := fresh_of_uniqueBy_append hids
  refine ⟨fun h hh => ?_, fun v hv => ⟨v, ?_, .refl v⟩, fun v hv hproj => ?_⟩
  · change h ∈ H.rows at hh
    change ∃ v ∈ T.rows, _
    rw [hH, List.mem_append] at hh
    rw [hrowsT]
    rcases hh with hh | hh
    · obtain ⟨v, hv, hid⟩ := hforeign h hh
      exact ⟨v, List.mem_append_left _ hv, hid⟩
    · exact ⟨t, by simp, (hnew h hh).symm⟩
  · change v ∈ T.rows
    rw [hrowsT]
    exact List.mem_append_left _ hv
  · change v ∈ T.rows at hv
    rw [hrowsT, List.mem_append, List.mem_singleton] at hv
    rcases hv with hv | rfl
    · exact (hproj v hv rfl).of_filter (rowsOf_append hH hnew v.id (hfresh v hv))
    · have hnone : projectionOf v.id db.history.rows = [] := by
        refine projectionOf_of_none fun h hh hid => ?_
        obtain ⟨w, hw, hwid⟩ := hforeign h hh
        exact hfresh w hw (hwid.trans hid)
      change (projectionOf v.id H.rows).Perm _
      rw [hH, projectionOf_append, hnone, List.nil_append, hrows]

theorem claim_keeps {claimIds : ClaimIds} {now : Time} {date : Date} {clientId : Principal}
    {key : IdempotencyKey} {requestHash : Digest} {command : CreateTransfer}
    (hforeign : ForeignKey db)
    (h : Transaction.claim db claimIds now date clientId key requestHash command = .ok (db', t)) :
    Keeps db db' := by
  unfold Transaction.claim at h
  split at h
  · cases h
  obtain ⟨T, hT, h⟩ := bind_eq_ok h
  obtain ⟨H, hH, h⟩ := bind_eq_ok h
  obtain ⟨R, hR, h⟩ := bind_eq_ok h
  cases h
  refine keeps_of_insert hforeign hT (Table.insertMany_ok hH) ?_ ?_
  · simp [claimHistory, domesticTransfer]
  · simp [projectionOf, claimHistory, expectedRows, domesticTransfer]

theorem claimInternational_keeps {claimIds : ClaimIds} {now : Time} {date : Date}
    {clientId : Principal} {key : IdempotencyKey} {requestHash : Digest}
    {command : CreateInternationalTransfer} (hforeign : ForeignKey db)
    (h : Transaction.claimInternational db claimIds now date clientId key requestHash command =
      .ok (db', t)) : Keeps db db' := by
  unfold Transaction.claimInternational at h
  split at h
  · cases h
  obtain ⟨T, hT, h⟩ := bind_eq_ok h
  obtain ⟨R, hR, h⟩ := bind_eq_ok h
  cases h
  refine keeps_of_insert hforeign hT (List.append_nil _).symm (by simp) ?_
  simp [projectionOf, expectedRows, internationalTransfer]

/-- The tables, the transfers that calls of the service have read, and the rebuild. -/
structure State where
  db : Database
  reads : List Transfer
  rebuild : Option RebuildPc

inductive Action
  | read (transferId : Uuid)
  | execute (operation : Operation)
  | start
  | rebuild

/-- A preparation works on an international transfer that was read before it. -/
def Operation.enabled (reads : List Transfer) : Operation → Bool
  | .prepareInternational transfer _ _ _ _ =>
    decide (transfer ∈ reads) && decide (transfer.type = .international)
  | _ => true

def step (ids : UuidSource) (batchSize : ℚ) (s : State) : Action → Option State
  | .read transferId => (s.db.findTransfer transferId).map fun t => { s with reads := t :: s.reads }
  | .execute operation =>
    if operation.enabled s.reads then
      match operation.execute s.db with
      | .ok db => some { s with db }
      | .error _ => some s
    else none
  | .start => if s.rebuild = none then some { s with rebuild := some (rebuildEntry batchSize) } else none
  | .rebuild => s.rebuild.map fun pc =>
    let (db, pc) := rebuildStep ids batchSize s.db pc
    { s with db, rebuild := some pc }

/-- Any operations and a rebuild, from given tables. -/
def interleaving (ids : UuidSource) (batchSize : ℚ) (db : Database) : System State Action :=
  ⟨⟨db, [], none⟩, step ids batchSize⟩

/-- The columns the batch was read with are still those of its transfers. -/
def Current (db : Database) (transfers : List Transfer) : Prop :=
  ∀ t ∈ transfers, ∀ u ∈ db.transfers.rows, u.id = t.id → expectedRows u = expectedRows t

/-- The condition on the steps of a run: a batch is written only while it is current. -/
def WritesCurrent (s : State) (a : Action) : Prop :=
  a = .rebuild → ∀ transfers result, s.rebuild = some (.write transfers result) → Current s.db transfers

/-- The transfers a rebuild is done with, by where it stands. -/
def RebuildOk (batchSize : ℚ) (db : Database) : RebuildPc → Prop
  | .read afterId _ => validBatchSize batchSize = true ∧
    ∀ u ∈ db.transfers.rows, ¬ Beyond Transfer.id afterId u → Projected db.history u
  | .write transfers _ => validBatchSize batchSize = true ∧
    transfers.Pairwise (fun t u => t.id < u.id) ∧ (∀ t ∈ transfers, t.check = true) ∧
    (∀ t ∈ transfers, ∃ u ∈ db.transfers.rows, t.id = u.id) ∧
    ∀ last ∈ transfers.getLast?, ∀ u ∈ db.transfers.rows, u.id ≤ last.id →
      (∀ t ∈ transfers, t.id ≠ u.id) → Projected db.history u
  | .returned _ => ∀ u ∈ db.transfers.rows, Projected db.history u
  | .thrown _ => True

theorem RebuildOk.keeps {pc : RebuildPc} (h : RebuildOk batchSize db pc) (hk : Keeps db db') :
    RebuildOk batchSize db' pc := by
  cases pc with
  | read afterId result =>
    refine ⟨h.1, fun u hu hbeyond => hk.projected u hu fun t ht hid => h.2 t ht ?_⟩
    rwa [Beyond, hid]
  | write transfers result =>
    obtain ⟨hsize, hids, hcheck, hstored, hdone⟩ := h
    refine ⟨hsize, hids, hcheck, fun t ht => ?_, fun last hlast u hu hle hout => ?_⟩
    · obtain ⟨u, hu, hid⟩ := hstored t ht
      obtain ⟨v, hv, hsame⟩ := hk.same u hu
      exact ⟨v, hv, hid.trans hsame.id⟩
    · exact hk.projected u hu fun t ht hid => hdone last hlast t ht (hid ▸ hle) (hid ▸ hout)
  | returned result => exact fun u hu => hk.projected u hu fun t ht _ => h t ht
  | thrown error => trivial

theorem page_size (h : validBatchSize batchSize = true) : 0 < batchSize.num.toNat := by
  simp only [validBatchSize, Bool.and_eq_true, decide_eq_true_eq] at h
  have hpos : 0 < batchSize.num := Rat.num_pos.mpr (lt_of_lt_of_le zero_lt_one h.1.2)
  omega

/-- The read of a batch: what it leaves out below its last transfer was projected before. -/
theorem rebuildOk_read {afterId : Option Uuid} {result : HistoryRebuildResult}
    (h : RebuildOk batchSize db (.read afterId result)) :
    RebuildOk batchSize db (rebuildStep ids batchSize db (.read afterId result)).2 := by
  obtain ⟨hsize, hdone⟩ := h
  have hstrict : (rest Transfer.id afterId db.transfers.rows).Pairwise fun t u => t.id < u.id :=
    strict_rest (transfer_ids_nodup db)
  cases hpage : page Transfer.id afterId batchSize.num.toNat db.transfers.rows with
  | nil =>
    simp only [rebuildStep, hpage]
    have hnone := (page_eq_nil_iff (page_size hsize)).mp hpage
    exact fun u hu => hdone u hu (hnone u hu)
  | cons t transfers =>
    simp only [rebuildStep, hpage]
    have hstored : ∀ v ∈ t :: transfers, v ∈ db.transfers.rows := fun v hv =>
      (mem_of_mem_page (hpage ▸ hv)).1
    refine ⟨hsize, ?_, fun v hv => db.transfers.checked v (hstored v hv),
      fun v hv => ⟨v, hstored v hv, rfl⟩, fun last hlast u hu hle hout => ?_⟩
    · rw [← hpage]
      exact hstrict.sublist (List.take_sublist _ _)
    · refine hdone u hu fun hbeyond => ?_
      have hrest : u ∈ rest Transfer.id afterId db.transfers.rows := mem_rest.mpr ⟨hu, hbeyond⟩
      have hnot : u ∉ page Transfer.id afterId batchSize.num.toNat db.transfers.rows := fun hin =>
        hout u (hpage ▸ hin) rfl
      have hmem : last ∈ t :: transfers := List.mem_of_getLast? hlast
      have hge := le_of_not_mem_page hrest hnot last (hpage ▸ hmem)
      exact hout last hmem (le_antisymm hge hle)

/-- The transaction of a batch, while the batch is current. -/
theorem rebuildOk_write (ids : UuidSource) {transfers : List Transfer} {result : HistoryRebuildResult}
    (hforeign : ForeignKey db) (hcurrent : Current db transfers)
    (h : RebuildOk batchSize db (.write transfers result)) :
    RebuildOk batchSize (rebuildStep ids batchSize db (.write transfers result)).1
        (rebuildStep ids batchSize db (.write transfers result)).2 ∧
      ForeignKey (rebuildStep ids batchSize db (.write transfers result)).1 ∧
      (rebuildStep ids batchSize db (.write transfers result)).1.transfers = db.transfers := by
  obtain ⟨hsize, hids, hcheck, hstored, hdone⟩ := h
  obtain ⟨H', hok, hprojected, huntouched⟩ := foldlM_projectNext ids db.history 0 0 hcheck hids
  have hbatch : projectBatch ids db.history transfers = .ok (H', _, _) := hok
  simp only [rebuildStep, hbatch, RebuildOk, and_true]
  refine ⟨⟨hsize, fun u hu hbeyond => ?_⟩, fun h hh => ?_⟩
  · by_cases hin : ∃ t ∈ transfers, t.id = u.id
    · obtain ⟨t, ht, hid⟩ := hin
      exact (hprojected t ht).congr hid.symm (hcurrent t ht u hu hid.symm)
    · push Not at hin
      cases hlast : transfers.getLast? with
      | none => simp [hlast, Beyond] at hbeyond
      | some last =>
        have hle : u.id ≤ last.id := by simpa [hlast, Beyond] using hbeyond
        refine (hdone last hlast u hu hle hin).of_filter (huntouched _ fun t ht h hid => ?_)
        simp [hid, hin t ht]
  · by_cases hin : ∃ t ∈ transfers, t.id = h.transferId
    · obtain ⟨t, ht, hid⟩ := hin
      obtain ⟨u, hu, huid⟩ := hstored t ht
      exact ⟨u, hu, huid.symm.trans hid⟩
    · push Not at hin
      have hrows := huntouched (fun g => decide (g.transferId = h.transferId)) fun t ht g hid => by
        simp [hid, hin t ht]
      have hmem : h ∈ rowsOf H' h.transferId := mem_rowsOf.mpr ⟨hh, rfl⟩
      rw [rowsOf, hrows] at hmem
      exact hforeign h (List.mem_of_mem_filter hmem)

structure Invariant (batchSize : ℚ) (s : State) : Prop where
  foreign : ForeignKey s.db
  reads : ∀ t ∈ s.reads, ∃ u ∈ s.db.transfers.rows, SameTransfer t u
  rebuild : ∀ pc ∈ s.rebuild, RebuildOk batchSize s.db pc

theorem execute_keeps {s : State} {operation : Operation} (hi : Invariant batchSize s)
    (henabled : operation.enabled s.reads = true) (h : operation.execute s.db = .ok db') :
    Keeps s.db db' := by
  cases operation with
  | claim =>
    obtain ⟨⟨_, _⟩, hok, rfl⟩ := map_eq_ok h
    exact claim_keeps hi.foreign hok
  | claimInternational =>
    obtain ⟨⟨_, _⟩, hok, rfl⟩ := map_eq_ok h
    exact claimInternational_keeps hi.foreign hok
  | transition => exact transition_keeps hi.foreign h
  | prepareInternational transfer =>
    obtain ⟨⟨_, _⟩, hok, rfl⟩ := map_eq_ok h
    simp only [Operation.enabled, Bool.and_eq_true, decide_eq_true_eq] at henabled
    obtain ⟨u, hu, hsame⟩ := hi.reads transfer henabled.1
    refine prepareInternational_keeps hi.foreign henabled.2 (fun v hv hid => ?_) hok
    rwa [Database.transfer_eq hv hu (hid.trans hsame.id)]
  | complete =>
    obtain ⟨⟨_, _, _⟩, hok, rfl⟩ := map_eq_ok h
    exact complete_keeps hi.foreign hok
  | fail =>
    obtain ⟨⟨_, _, _⟩, hok, rfl⟩ := map_eq_ok h
    exact fail_keeps hi.foreign hok
  | claimProcessingRetry =>
    obtain ⟨⟨_, _⟩, hok, rfl⟩ := map_eq_ok h
    exact claimProcessingRetry_keeps hi.foreign hok

theorem rebuildEntry_ok : RebuildOk batchSize db (rebuildEntry batchSize) := by
  unfold rebuildEntry
  split
  · trivial
  · next hsize => exact ⟨by simpa using hsize, fun u _ hbeyond => absurd beyond_none hbeyond⟩

/-- A step of the rebuild that meets the condition. -/
theorem Invariant.rebuildStep {s : State} {pc : RebuildPc} (hi : Invariant batchSize s)
    (hpc : s.rebuild = some pc) (hcurrent : WritesCurrent s .rebuild) :
    Invariant batchSize { s with
      db := (rebuildStep ids batchSize s.db pc).1
      rebuild := some (rebuildStep ids batchSize s.db pc).2 } := by
  have hok := hi.rebuild pc hpc
  cases pc with
  | read afterId result =>
    have hdb : (History.rebuildStep ids batchSize s.db (.read afterId result)).1 = s.db := by
      unfold History.rebuildStep
      dsimp only
      split <;> rfl
    rw [hdb]
    exact ⟨hi.foreign, hi.reads, fun pc hpc => Option.some.inj hpc ▸ rebuildOk_read hok⟩
  | write transfers result =>
    obtain ⟨hnext, hforeign, htransfers⟩ := rebuildOk_write ids hi.foreign
      (hcurrent rfl transfers result hpc) hok
    refine ⟨hforeign, fun t ht => ?_, fun pc hpc => Option.some.inj hpc ▸ hnext⟩
    change ∃ u ∈ (History.rebuildStep ids batchSize s.db (.write transfers result)).1.transfers.rows, _
    rw [htransfers]
    exact hi.reads t ht
  | returned result => exact ⟨hi.foreign, hi.reads, fun pc hpc => Option.some.inj hpc ▸ hok⟩
  | thrown error => exact ⟨hi.foreign, hi.reads, fun pc hpc => Option.some.inj hpc ▸ hok⟩

theorem Invariant.step {s s' : State} {a : Action} (hi : Invariant batchSize s)
    (hcurrent : WritesCurrent s a) (h : step ids batchSize s a = some s') : Invariant batchSize s' := by
  cases a with
  | read transferId =>
    obtain ⟨t, ht, rfl⟩ := Option.map_eq_some_iff.mp h
    refine ⟨hi.foreign, List.forall_mem_cons.mpr ⟨?_, hi.reads⟩, hi.rebuild⟩
    exact ⟨t, (Database.findTransfer_eq_some_iff.mp ht).1, .refl t⟩
  | execute operation =>
    simp only [History.step] at h
    split at h
    · next henabled =>
      split at h
      · next db' hok =>
        cases h
        have hk := execute_keeps hi henabled hok
        refine ⟨hk.foreign, fun t ht => ?_, fun pc hpc => (hi.rebuild pc hpc).keeps hk⟩
        obtain ⟨u, hu, hsame⟩ := hi.reads t ht
        obtain ⟨v, hv, hsame'⟩ := hk.same u hu
        exact ⟨v, hv, hsame.trans hsame'⟩
      · cases h
        exact hi
    · cases h
  | start =>
    simp only [History.step] at h
    split at h
    · cases h
      exact ⟨hi.foreign, hi.reads, fun pc hpc => Option.some.inj hpc ▸ rebuildEntry_ok⟩
    · cases h
  | rebuild =>
    obtain ⟨pc, hpc, rfl⟩ := Option.map_eq_some_iff.mp h
    exact hi.rebuildStep hpc hcurrent

theorem invariant_of_reachableBy {s : State} (hforeign : ForeignKey db)
    (h : (interleaving ids batchSize db).ReachableBy WritesCurrent s) : Invariant batchSize s :=
  h.invariant ⟨hforeign, by simp [interleaving], by simp [interleaving]⟩
    fun _ _ _ _ hi hcurrent hs => hi.step hcurrent hs

/-- Whatever the history was before, once a rebuild that wrote every batch while it was current has
returned, the rows of each transfer are those expected of it. -/
theorem projected_of_rebuild {s : State} {result : HistoryRebuildResult} (hforeign : ForeignKey db)
    (h : (interleaving ids batchSize db).ReachableBy WritesCurrent s)
    (hreturned : s.rebuild = some (.returned result)) :
    ∀ t ∈ s.db.transfers.rows, (projectionOf t.id s.db.history.rows).Perm (expectedRows t) :=
  (invariant_of_reachableBy hforeign h).rebuild _ hreturned

def writesCurrent (s : State) : Action → Bool
  | .rebuild =>
    match s.rebuild with
    | some (.write transfers _) => transfers.all fun t => s.db.transfers.rows.all fun u =>
      decide (u.id ≠ t.id) || decide (expectedRows u = expectedRows t)
    | _ => true
  | _ => true

theorem writesCurrent_sound {s : State} {a : Action} (h : writesCurrent s a = true) :
    WritesCurrent s a := by
  rintro rfl transfers result hpc t ht u hu hid
  simp only [writesCurrent, hpc, List.all_eq_true, Bool.or_eq_true, decide_eq_true_eq] at h
  exact (h t ht u hu).resolve_left (not_not.mpr hid)

/-- The claim of a transfer of ten dollars. -/
def claimTen (id : Uuid) : Operation :=
  .claim ⟨id, id + 1, id + 2⟩ 0 0 "client-b" "order-1" 0
    ⟨.ofUuid 11, .ofUuid 12, ⟨⟨1000, 2⟩, by decide⟩, dollars⟩

/-- A rebuild of `corruptDatabase` with a transfer claimed while its first batch is open. -/
def quietRun : List Action :=
  [.start, .rebuild, .execute (claimTen 20), .rebuild, .rebuild, .rebuild, .rebuild, .rebuild, .rebuild]

/-- The theorem at the end of `quietRun`. -/
theorem projected_of_rebuild_quietRun : ∃ s, (interleaving nextUuid 1 corruptDatabase).runWhere
      writesCurrent ⟨corruptDatabase, [], none⟩ quietRun = some s ∧
    s.rebuild = some (.returned ⟨3, 4, 2⟩) ∧
    ∀ t ∈ s.db.transfers.rows, (projectionOf t.id s.db.history.rows).Perm (expectedRows t) := by
  have hrun : ((interleaving nextUuid 1 corruptDatabase).runWhere writesCurrent
      ⟨corruptDatabase, [], none⟩ quietRun).map State.rebuild = some (some (.returned ⟨3, 4, 2⟩)) := by
    decide +kernel
  obtain ⟨s, hs, hreturned⟩ := Option.map_eq_some_iff.mp hrun
  have hforeign : ForeignKey corruptDatabase := by
    unfold ForeignKey
    decide
  have hreach : (interleaving nextUuid 1 corruptDatabase).ReachableBy WritesCurrent s :=
    System.ReachableBy.runWhere (fun _ _ => writesCurrent_sound) .init hs
  exact ⟨s, hs, hreturned, projected_of_rebuild hforeign hreach hreturned⟩

/-- A transfer completed between the read and the write of its batch. -/
def overtakingRun : List Action :=
  [.execute (claimTen 20), .execute (.transition 20 1), .start, .rebuild,
    .execute (.complete 20 (some 100) 2 2), .rebuild, .rebuild]

/-- The rebuild puts the status it read back into the history of the completed transfer. -/
theorem rebuild_overtakes : ¬ ∀ s result,
    (interleaving nextUuid 500 Database.empty).Reachable s → s.rebuild = some (.returned result) →
      ∀ t ∈ s.db.transfers.rows, (projectionOf t.id s.db.history.rows).Perm (expectedRows t) := by
  intro hall
  have hrun : ((interleaving nextUuid 500 Database.empty).run ⟨Database.empty, [], none⟩
        overtakingRun).map (fun s => (s.rebuild, s.db.transfers.rows.map (fun t => (t.id, t.status)),
        (projectionOf 20 s.db.history.rows).map ProjectedRow.status)) =
      some (some (.returned ⟨1, 2, 0⟩), [(20, .completed)], [.processing, .processing]) := by
    decide +kernel
  obtain ⟨s, hs, heq⟩ := Option.map_eq_some_iff.mp hrun
  simp only [Prod.mk.injEq] at heq
  obtain ⟨hreturned, htransfers, hhistory⟩ := heq
  obtain ⟨t, ht, heq⟩ := List.mem_map.mp (htransfers ▸ List.mem_cons_self)
  obtain ⟨hid, hstatus⟩ := Prod.mk.inj heq
  obtain ⟨row, hrow, hprocessing⟩ := List.mem_map.mp (hhistory ▸ List.mem_cons_self)
  have hperm := hall s _ (System.reachable_of_run hs) hreturned t ht
  rw [hid] at hperm
  have hcompleted := expectedRows_status (hperm.mem_iff.mp hrow)
  rw [hprocessing, hstatus] at hcompleted
  cases hcompleted

end NovaPay.History
