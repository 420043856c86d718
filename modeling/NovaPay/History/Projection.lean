import NovaPay.Transaction.Operations

/-!
# The projection of one transfer

The statements by which `rebuild` makes the history of a transfer what `expectedRows` says, and what
they leave of the rest of the table.
-/

namespace NovaPay.History

open DecimalArithmetic Relational Transaction

/-- `uuid()` of the database client: an id that no row has. -/
structure UuidSource where
  next : List Uuid → Uuid
  fresh : ∀ used, next used ∉ used

abbrev HistoryTable := Table historySchema

/-- `transaction_history_transfer_id_fkey`. -/
def ForeignKey (db : Database) : Prop :=
  ∀ h ∈ db.history.rows, ∃ t ∈ db.transfers.rows, t.id = h.transferId

variable {ids : UuidSource} {H H' : HistoryTable} {t u : Transfer} {row : ProjectedRow}
  {rows : List ProjectedRow} {h : TransactionHistory} {i transferId : Uuid}

theorem history_ids (H : HistoryTable) : uniqueBy TransactionHistory.id H.rows = true := by
  have hi := H.indexed
  simp only [historySchema, historyIndexed, Bool.and_eq_true] at hi
  exact hi.1

theorem history_keys (H : HistoryTable) :
    uniqueBy (fun h : TransactionHistory => (h.transferId, h.walletId, h.role)) H.rows = true := by
  have hi := H.indexed
  simp only [historySchema, historyIndexed, Bool.and_eq_true] at hi
  exact hi.2

/-- Any rows may leave the history. -/
theorem historyIndexed_filter (H : HistoryTable) (q : TransactionHistory → Bool) :
    historySchema.indexed (H.rows.filter q) = true := by
  change historyIndexed _ = true
  rw [historyIndexed, Bool.and_eq_true]
  exact ⟨uniqueBy_filter (history_ids H), uniqueBy_filter (history_keys H)⟩

def deleteRows (H : HistoryTable) (p : TransactionHistory → Bool) : HistoryTable × ℕ :=
  H.deleteMany p (historyIndexed_filter H _)

/-- The wallet and the role of a row, which with its transfer identify it. -/
def samePlace (row : ProjectedRow) (h : TransactionHistory) : Bool :=
  decide (h.walletId = row.walletId) && decide (h.role = row.role)

/-- The condition on `transferId_walletId_role`. -/
def hasKey (transferId : Uuid) (row : ProjectedRow) (h : TransactionHistory) : Bool :=
  decide (h.transferId = transferId) && samePlace row h

def writeRow (row : ProjectedRow) (h : TransactionHistory) : TransactionHistory :=
  { row with id := h.id, transferId := h.transferId }

/-- `upsert` of one expected row. -/
def upsert (ids : UuidSource) (transferId : Uuid) (H : HistoryTable) (row : ProjectedRow) :
    Except DbError HistoryTable :=
  if H.rows.any (hasKey transferId row) then
    (H.updateMany (hasKey transferId row) (writeRow row)).map Prod.fst
  else H.insertMany [{ row with id := ids.next (H.rows.map TransactionHistory.id), transferId }]

/-- The rows of a transfer in none of the places of `rows`. -/
def superfluous (transferId : Uuid) (rows : List ProjectedRow) (h : TransactionHistory) : Bool :=
  decide (h.transferId = transferId) && !rows.any fun row => samePlace row h

/-- What the batch transaction does for one transfer: the history, the rows written and the rows
removed. -/
def projectTransfer (ids : UuidSource) (H : HistoryTable) (t : Transfer) :
    Except DbError (HistoryTable × ℕ × ℕ) :=
  match expectedRows t with
  | [] =>
    let (H, removed) := deleteRows H fun h => decide (h.transferId = t.id)
    .ok (H, 0, removed)
  | rows => do
    let H ← rows.foldlM (upsert ids t.id) H
    let (H, removed) := deleteRows H (superfluous t.id rows)
    return (H, rows.length, removed)

/-- The history holds the expected rows of a transfer and no other row of it. -/
def Projected (H : HistoryTable) (t : Transfer) : Prop :=
  (projectionOf t.id H.rows).Perm (expectedRows t)

theorem hasKey_iff : hasKey transferId row h = true ↔ h.transferId = transferId ∧ samePlace row h = true := by
  simp [hasKey]

theorem mem_projectionOf : row ∈ projectionOf i H.rows ↔
    ∃ h ∈ H.rows, h.transferId = i ∧ h.toProjectedRow = row := by
  simp [projectionOf, and_assoc]

theorem samePlace_self (h : TransactionHistory) : samePlace h.toProjectedRow h = true := by
  simp [samePlace]

/-- A row is determined by its transfer and its place. -/
theorem eq_of_hasKey {g : TransactionHistory} (hh : h ∈ H.rows) (hg : g ∈ H.rows)
    (hk : hasKey transferId row h = true) (gk : hasKey transferId row g = true) : h = g := by
  simp only [hasKey, samePlace, Bool.and_eq_true, decide_eq_true_eq] at hk gk
  refine eq_of_uniqueBy (history_keys H) hh hg ?_
  simp [hk, gk]

/-- The expected rows lie in different places. -/
theorem expectedRows_places (t : Transfer) :
    (expectedRows t).Pairwise fun a b => ∀ h, samePlace a h = true → samePlace b h = false := by
  unfold expectedRows
  split
  · exact .nil
  · simp only [List.pairwise_cons, List.mem_singleton, forall_eq, samePlace, Bool.and_eq_true,
      decide_eq_true_eq]
    refine ⟨fun h ⟨_, hrole⟩ => ?_, by simp⟩
    simp [hrole]

theorem expectedRows_nodup (t : Transfer) : (expectedRows t).Nodup := by
  unfold expectedRows
  split <;> simp

theorem projectionOf_nodup (H : HistoryTable) (i : Uuid) : (projectionOf i H.rows).Nodup := by
  have hkeys := uniqueBy_iff.mp (history_keys H)
  refine (List.nodup_map_iff_inj_on ((uniqueBy_iff.mp (history_ids H)).of_map _ |>.filter _)).mpr ?_
  intro h hh g hg heq
  simp only [List.mem_filter, decide_eq_true_eq] at hh hg
  refine eq_of_uniqueBy (history_keys H) hh.1 hg.1 ?_
  have hwallet := congrArg ProjectedRow.walletId heq
  have hrole := congrArg ProjectedRow.role heq
  simp [hh.2, hg.2, hwallet, hrole]

theorem projected_iff : Projected H t ↔ ∀ row, row ∈ projectionOf t.id H.rows ↔ row ∈ expectedRows t :=
  List.perm_ext_iff_of_nodup (projectionOf_nodup H t.id) (expectedRows_nodup t)

/-- What writing rows of a transfer leaves of the history. -/
structure Upserted (transferId : Uuid) (rows : List ProjectedRow) (H H' : HistoryTable) : Prop where
  mem : ∀ h ∈ H'.rows, (h ∈ H.rows ∧ ∀ row ∈ rows, hasKey transferId row h = false) ∨
    h.transferId = transferId ∧ h.toProjectedRow ∈ rows
  keeps : ∀ h ∈ H.rows, (∀ row ∈ rows, hasKey transferId row h = false) → h ∈ H'.rows
  written : ∀ row ∈ rows, ∃ h ∈ H'.rows, h.transferId = transferId ∧ h.toProjectedRow = row
  untouched : ∀ q : TransactionHistory → Bool,
    (∀ row ∈ rows, ∀ h, hasKey transferId row h = true → q h = false) →
      H'.rows.filter q = H.rows.filter q

/-- The checks of the history, on the columns the projection derives. -/
def Writable (row : ProjectedRow) : Prop := row.walletId ≠ row.counterpartyWalletId ∧ 0 < row.amount.value

theorem hasKey_writeRow (hk : hasKey transferId row h = true) :
    hasKey transferId row (writeRow row h) = true ∧ (writeRow row h).transferId = transferId ∧
      (writeRow row h).toProjectedRow = row :=
  ⟨hasKey_iff.mpr ⟨(hasKey_iff.mp hk).1, samePlace_self (writeRow row h)⟩, (hasKey_iff.mp hk).1, rfl⟩

theorem check_of_writable (hw : Writable row) (h : TransactionHistory) (hrow : h.toProjectedRow = row) :
    historySchema.check h = true := by
  subst hrow
  simpa [TransactionHistory.check, Writable] using hw

theorem updateWhere_writeRow_keys : (updateWhere (hasKey transferId row) (writeRow row) H.rows).map
      (fun h => (h.transferId, h.walletId, h.role)) =
    H.rows.map fun h => (h.transferId, h.walletId, h.role) := by
  rw [updateWhere, List.map_map]
  refine List.map_congr_left fun h _ => ?_
  simp only [Function.comp_apply]
  split
  · next hk =>
    simp only [hasKey, samePlace, Bool.and_eq_true, decide_eq_true_eq] at hk
    simp [writeRow, hk]
  · rfl

/-- The update of an existing row. -/
theorem updateMany_writeRow (H : HistoryTable) (transferId : Uuid) (hw : Writable row) :
    ∃ H' : HistoryTable, (H.updateMany (hasKey transferId row) (writeRow row)).map Prod.fst = .ok H' ∧
      H'.rows = updateWhere (hasKey transferId row) (writeRow row) H.rows := by
  have hindexed : historySchema.indexed
      (updateWhere (hasKey transferId row) (writeRow row) H.rows) = true := by
    change historyIndexed _ = true
    rw [historyIndexed, Bool.and_eq_true, uniqueBy_iff, uniqueBy_iff, 
      map_updateWhere (f := writeRow row) (g := TransactionHistory.id) fun _ => rfl,
      updateWhere_writeRow_keys]
    exact ⟨uniqueBy_iff.mp (history_ids H), uniqueBy_iff.mp (history_keys H)⟩
  obtain ⟨H', hok, hrows⟩ := Table.updateMany_of_check (T := H)
    (fun h _ _ => ⟨rfl, check_of_writable hw (writeRow row h) rfl⟩) hindexed
  exact ⟨H', by rw [hok]; rfl, hrows⟩

theorem upserted_of_update (hrows : H'.rows = updateWhere (hasKey transferId row) (writeRow row) H.rows)
    (hfound : ∃ h ∈ H.rows, hasKey transferId row h = true) : Upserted transferId [row] H H' where
  mem := by
    intro h hh
    rw [hrows] at hh
    rcases mem_updateWhere.mp hh with ⟨hh, hk⟩ | ⟨g, -, hk, rfl⟩
    · exact .inl ⟨hh, by simpa using hk⟩
    · exact .inr ⟨(hasKey_writeRow hk).2.1, by simp [(hasKey_writeRow hk).2.2]⟩
  keeps := by
    intro h hh hk
    rw [hrows]
    exact mem_updateWhere.mpr (.inl ⟨hh, hk row List.mem_cons_self⟩)
  written := by
    intro r hr
    rw [List.mem_singleton.mp hr]
    obtain ⟨h, hh, hk⟩ := hfound
    refine ⟨writeRow row h, ?_, (hasKey_writeRow hk).2⟩
    rw [hrows]
    exact mem_updateWhere.mpr (.inr ⟨h, hh, hk, rfl⟩)
  untouched := by
    intro q hq
    replace hq := hq row List.mem_cons_self
    rw [hrows, updateWhere, List.filter_map]
    have hcongr : ∀ h ∈ H.rows.filter (q ∘ fun h => if hasKey transferId row h then writeRow row h else h),
        (if hasKey transferId row h then writeRow row h else h) = id h := by
      intro h hh
      have hpass := (List.mem_filter.mp hh).2
      cases hk : hasKey transferId row h with
      | false => simp
      | true => simp [hk, hq _ (hasKey_writeRow hk).1] at hpass
    rw [List.map_congr_left hcongr, List.map_id]
    refine List.filter_congr fun h _ => ?_
    cases hk : hasKey transferId row h with
    | false => simp [hk]
    | true => simp [hk, hq _ hk, hq _ (hasKey_writeRow hk).1]

/-- The insert of a missing row. -/
theorem insertMany_newRow (ids : UuidSource) (hw : Writable row)
    (hnone : ∀ h ∈ H.rows, hasKey transferId row h = false) :
    ∃ H' : HistoryTable,
      H.insertMany [{ row with id := ids.next (H.rows.map TransactionHistory.id), transferId }] = .ok H' ∧
      H'.rows = H.rows ++ [{ row with id := ids.next (H.rows.map TransactionHistory.id), transferId }] := by
  have hcheck : ∀ h ∈ [({ row with id := ids.next (H.rows.map TransactionHistory.id), transferId } :
      TransactionHistory)], historySchema.check h = true := by
    intro h hh
    rw [List.mem_singleton.mp hh]
    exact check_of_writable hw _ rfl
  obtain ⟨H', hok⟩ := Table.insertMany_of_indexed (T := H) hcheck (by
      change historyIndexed _ = true
      rw [historyIndexed, Bool.and_eq_true]
      refine ⟨uniqueBy_append_new (history_ids H) fun h hh hid => ?_,
        uniqueBy_append_new (history_keys H) fun h hh hkey => ?_⟩
      · have hmem := List.mem_map_of_mem (f := TransactionHistory.id) hh
        rw [hid] at hmem
        exact ids.fresh _ hmem
      · have := hnone h hh
        simp only [Prod.mk.injEq] at hkey
        simp [hasKey, samePlace, hkey] at this)
  exact ⟨H', hok, Table.insertMany_ok hok⟩

theorem upserted_of_insert {h : TransactionHistory} (hrow : h.toProjectedRow = row)
    (hid : h.transferId = transferId) (hrows : H'.rows = H.rows ++ [h])
    (hnone : ∀ h ∈ H.rows, hasKey transferId row h = false) : Upserted transferId [row] H H' where
  mem := by
    intro g hg
    rw [hrows, List.mem_append, List.mem_singleton] at hg
    rcases hg with hg | rfl
    · exact .inl ⟨hg, by simpa using hnone g hg⟩
    · exact .inr ⟨hid, by simp [hrow]⟩
  keeps := by
    intro g hg _
    rw [hrows]
    exact List.mem_append_left _ hg
  written := by
    intro r hr
    rw [List.mem_singleton.mp hr]
    exact ⟨h, by simp [hrows], hid, hrow⟩
  untouched := by
    intro q hq
    have hkey : hasKey transferId row h = true := hasKey_iff.mpr ⟨hid, hrow ▸ samePlace_self h⟩
    simp [hrows, hq row List.mem_cons_self h hkey]

theorem upsert_ok (ids : UuidSource) (H : HistoryTable) (transferId : Uuid) (hw : Writable row) : ∃ H' : HistoryTable,
    upsert ids transferId H row = .ok H' ∧ Upserted transferId [row] H H' := by
  unfold upsert
  split
  · next hfound =>
    obtain ⟨H', hok, hrows⟩ := updateMany_writeRow H transferId hw
    exact ⟨H', hok, upserted_of_update hrows (List.any_eq_true.mp hfound)⟩
  · next hfound =>
    have hnone : ∀ h ∈ H.rows, hasKey transferId row h = false := by simpa using hfound
    obtain ⟨H', hok, hrows⟩ := insertMany_newRow ids hw hnone
    exact ⟨H', hok, upserted_of_insert rfl rfl hrows hnone⟩

theorem Upserted.nil : Upserted transferId [] H H where
  mem h hh := .inl ⟨hh, by simp⟩
  keeps h hh _ := hh
  written := by simp
  untouched q _ := rfl

theorem Upserted.cons {K : HistoryTable} (hrow : Upserted transferId [row] H K)
    (hrows : Upserted transferId rows K H')
    (hplaces : ∀ r ∈ rows, ∀ h, samePlace row h = true → samePlace r h = false) :
    Upserted transferId (row :: rows) H H' where
  mem := by
    intro h hh
    rcases hrows.mem h hh with ⟨hk, hout⟩ | ⟨hid, hin⟩
    · rcases hrow.mem h hk with ⟨hh, hne⟩ | ⟨hid, hin⟩
      · exact .inl ⟨hh, List.forall_mem_cons.mpr ⟨hne row List.mem_cons_self, hout⟩⟩
      · exact .inr ⟨hid, List.mem_cons.mpr (.inl (List.mem_singleton.mp hin))⟩
    · exact .inr ⟨hid, List.mem_cons_of_mem _ hin⟩
  keeps := by
    intro h hh hout
    obtain ⟨hne, hout⟩ := List.forall_mem_cons.mp hout
    exact hrows.keeps h (hrow.keeps h hh (by simpa using hne)) hout
  written := by
    intro r hr
    rcases List.mem_cons.mp hr with rfl | hr
    · obtain ⟨h, hh, hid, rfl⟩ := hrow.written r List.mem_cons_self
      refine ⟨h, hrows.keeps h hh fun q hq => ?_, hid, rfl⟩
      simp [hasKey, hplaces q hq h (samePlace_self h)]
    · exact hrows.written r hr
  untouched := by
    intro q hq
    obtain ⟨hhead, htail⟩ := List.forall_mem_cons.mp hq
    exact (hrows.untouched q htail).trans (hrow.untouched q (by simpa using hhead))

/-- The rows of a transfer are written one after the other. -/
theorem upserts_ok (ids : UuidSource) (H : HistoryTable) (transferId : Uuid)
    (hw : ∀ row ∈ rows, Writable row)
    (hplaces : rows.Pairwise fun a b => ∀ h, samePlace a h = true → samePlace b h = false) :
    ∃ H' : HistoryTable, rows.foldlM (upsert ids transferId) H = .ok H' ∧ Upserted transferId rows H H' := by
  induction rows generalizing H with
  | nil => exact ⟨H, rfl, .nil⟩
  | cons row rows ih =>
    obtain ⟨hhead, htail⟩ := List.forall_mem_cons.mp hw
    obtain ⟨hrow, hrest⟩ := List.pairwise_cons.mp hplaces
    obtain ⟨K, hok, hK⟩ := upsert_ok ids H transferId hhead
    obtain ⟨H', hoks, hH'⟩ := ih K htail hrest
    refine ⟨H', ?_, hK.cons hH' hrow⟩
    rw [List.foldlM_cons, hok, ok_bind, hoks]

/-- The expected rows of a stored transfer pass the checks of the history. -/
theorem expectedRows_writable (hcheck : t.check = true) : ∀ row ∈ expectedRows t, Writable row := by
  simp only [Transfer.check, Bool.and_eq_true, decide_eq_true_eq] at hcheck
  obtain ⟨⟨⟨⟨⟨⟨hwallets, hsource⟩, htarget⟩, -⟩, -⟩, -⟩, -⟩ := hcheck
  have hamount : 0 < (t.targetAmount.getD t.sourceAmount).value := by
    cases ha : t.targetAmount with
    | none => exact hsource
    | some a => simpa [ha] using htarget
  unfold expectedRows
  split
  · simp
  · simp only [List.forall_mem_cons, List.not_mem_nil, false_imp_iff, implies_true, and_true]
    exact ⟨⟨hwallets, hsource⟩, hwallets.symm, hamount⟩

/-- A transfer without expected rows is no special case. -/
theorem projectTransfer_eq : projectTransfer ids H t = do
    let H ← (expectedRows t).foldlM (upsert ids t.id) H
    return ((deleteRows H (superfluous t.id (expectedRows t))).1, (expectedRows t).length,
      (deleteRows H (superfluous t.id (expectedRows t))).2) := by
  unfold projectTransfer
  split
  · next hrows =>
    have hall : superfluous t.id [] = fun h => decide (h.transferId = t.id) := by
      funext h
      simp [superfluous]
    rw [hrows, hall]
    rfl
  · rfl

theorem superfluous_of_hasKey (hrow : row ∈ rows) (hk : hasKey transferId row h = true) :
    superfluous transferId rows h = false := by
  have hplace : (rows.any fun row => samePlace row h) = true :=
    List.any_eq_true.mpr ⟨row, hrow, (hasKey_iff.mp hk).2⟩
  simp [superfluous, hplace]

/-- Removing the superfluous rows leaves those written. -/
theorem Upserted.projected {K : HistoryTable} (hK : Upserted t.id (expectedRows t) H K)
    (hrows : H'.rows = K.rows.filter fun h => !superfluous t.id (expectedRows t) h) : Projected H' t := by
  rw [projected_iff]
  intro row
  rw [mem_projectionOf]
  constructor
  · rintro ⟨h, hh, hid, rfl⟩
    rw [hrows, List.mem_filter] at hh
    obtain ⟨hh, hplace⟩ := hh
    rcases hK.mem h hh with ⟨-, hout⟩ | ⟨-, hin⟩
    · have hany : (expectedRows t).any (fun row => samePlace row h) = true := by
        simpa [superfluous, hid] using hplace
      obtain ⟨row, hrow, hsame⟩ := List.any_eq_true.mp hany
      have hk := hasKey_iff.mpr ⟨hid, hsame⟩
      rw [hout row hrow] at hk
      cases hk
    · exact hin
  · intro hrow
    obtain ⟨h, hh, hid, rfl⟩ := hK.written row hrow
    refine ⟨h, ?_, hid, rfl⟩
    rw [hrows, List.mem_filter]
    exact ⟨hh, by simp [superfluous_of_hasKey hrow (hasKey_iff.mpr ⟨hid, samePlace_self h⟩)]⟩

/-- One transfer of the batch: its rows become the expected ones and those of the other transfers
stay. -/
theorem projectTransfer_ok (ids : UuidSource) (H : HistoryTable) (hcheck : t.check = true) :
    ∃ H' : HistoryTable,
    projectTransfer ids H t = .ok (H', (expectedRows t).length,
      H.rows.countP (superfluous t.id (expectedRows t))) ∧ Projected H' t ∧
    ∀ q : TransactionHistory → Bool, (∀ h, h.transferId = t.id → q h = false) →
      H'.rows.filter q = H.rows.filter q := by
  obtain ⟨K, hok, hK⟩ := upserts_ok ids H t.id
    (expectedRows_writable hcheck) (expectedRows_places t)
  refine ⟨(deleteRows K (superfluous t.id (expectedRows t))).1, ?_, hK.projected rfl, fun q hq => ?_⟩
  · have hcount : K.rows.countP (superfluous t.id (expectedRows t)) =
        H.rows.countP (superfluous t.id (expectedRows t)) := by
      rw [List.countP_eq_length_filter, List.countP_eq_length_filter]
      exact congrArg List.length (hK.untouched _ fun row hrow h hk => superfluous_of_hasKey hrow hk)
    rw [projectTransfer_eq, hok, ok_bind, ← hcount]
    rfl
  · have hkeep : K.rows.filter q = H.rows.filter q :=
      hK.untouched q fun row _ h hk => hq h (hasKey_iff.mp hk).1
    rw [← hkeep]
    change (K.rows.filter fun h => !superfluous t.id (expectedRows t) h).filter q = _
    rw [List.filter_filter]
    refine List.filter_congr fun h _ => ?_
    cases hqh : q h with
    | false => rfl
    | true =>
      have hid : h.transferId ≠ t.id := fun hid => by simp [hq h hid] at hqh
      simp [superfluous, hid]

/-- In a history that holds the expected rows, those in their places are these rows. -/
theorem Projected.eq_of_hasKey (hp : Projected H t) (hrow : row ∈ expectedRows t) (hh : h ∈ H.rows)
    (hk : hasKey t.id row h = true) : h.toProjectedRow = row := by
  obtain ⟨g, hg, hid, rfl⟩ := mem_projectionOf.mp ((projected_iff.mp hp row).mpr hrow)
  rw [History.eq_of_hasKey hh hg hk (hasKey_iff.mpr ⟨hid, samePlace_self g⟩)]

theorem Projected.upsert (hp : Projected H t) (hw : Writable row) (hrow : row ∈ expectedRows t) :
    upsert ids t.id H row = .ok H := by
  obtain ⟨g, hg, hid, hgrow⟩ := mem_projectionOf.mp ((projected_iff.mp hp row).mpr hrow)
  have hk : hasKey t.id row g = true := hasKey_iff.mpr ⟨hid, hgrow ▸ samePlace_self g⟩
  obtain ⟨H', hok, hrows⟩ := updateMany_writeRow H t.id hw
  have hsame : updateWhere (hasKey t.id row) (writeRow row) H.rows = H.rows := by
    rw [updateWhere]
    refine (List.map_congr_left fun h hh => ?_).trans (List.map_id H.rows)
    split
    · next hkey =>
      rw [writeRow, ← hp.eq_of_hasKey hrow hh hkey]
      rfl
    · rfl
  rw [History.upsert, if_pos (List.any_eq_true.mpr ⟨g, hg, hk⟩), hok, Table.ext_rows (hrows.trans hsame)]

theorem Projected.not_superfluous (hp : Projected H t) (hh : h ∈ H.rows) :
    superfluous t.id (expectedRows t) h = false := by
  by_cases hid : h.transferId = t.id
  · have hmem := (projected_iff.mp hp _).mp (mem_projectionOf.mpr ⟨h, hh, hid, rfl⟩)
    exact superfluous_of_hasKey hmem (hasKey_iff.mpr ⟨hid, samePlace_self h⟩)
  · simp [superfluous, hid]

/-- Projecting a transfer again writes what is there and removes nothing. -/
theorem Projected.projectTransfer (hp : Projected H t) (hcheck : t.check = true) :
    projectTransfer ids H t = .ok (H, (expectedRows t).length, 0) := by
  have hfold : ∀ rows ⊆ expectedRows t, rows.foldlM (History.upsert ids t.id) H = .ok H := by
    intro rows
    induction rows with
    | nil => exact fun _ => rfl
    | cons row rows ih =>
      intro hsub
      obtain ⟨hrow, hrows⟩ := List.cons_subset.mp hsub
      rw [List.foldlM_cons, hp.upsert (expectedRows_writable hcheck row hrow) hrow, ok_bind, ih hrows]
  have hkept : (deleteRows H (superfluous t.id (expectedRows t))).1 = H := by
    refine Table.ext_rows (List.filter_eq_self.mpr fun h hh => ?_)
    rw [hp.not_superfluous hh]
    rfl
  have hnone : (deleteRows H (superfluous t.id (expectedRows t))).2 = 0 :=
    List.countP_eq_zero.mpr fun h hh => by simp [hp.not_superfluous hh]
  rw [projectTransfer_eq, hfold _ (List.Subset.refl _), ok_bind, hkept, hnone]
  rfl

end NovaPay.History
