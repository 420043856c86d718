import NovaPay.History.Projection
import NovaPay.Library.Keyset

/-!
# The rebuild of the history

`HistoryProjectionService.rebuild` reads the transfers in batches by id and projects each batch in one
database transaction. Run alone it ends with the history `expectedRows` gives, whatever the history
was and however the batches fall.
-/

namespace NovaPay.History

open Relational Transaction Keyset

structure HistoryRebuildResult where
  transfersScanned : ℕ
  rowsWritten : ℕ
  rowsRemoved : ℕ
deriving DecidableEq, Repr

inductive RebuildError
  | error (message : String)
  | database (error : DbError)
deriving DecidableEq, Repr

/-- The statement a rebuild waits at, with the locals it still needs. -/
inductive RebuildPc
  | read (afterId : Option Uuid) (result : HistoryRebuildResult)
  | write (transfers : List Transfer) (result : HistoryRebuildResult)
  | returned (result : HistoryRebuildResult)
  | thrown (error : RebuildError)
deriving DecidableEq, Repr

/-- `Number.isInteger` and the bounds of a batch. -/
def validBatchSize (batchSize : ℚ) : Bool :=
  decide (batchSize.den = 1) && decide (1 ≤ batchSize) && decide (batchSize ≤ 2000)

def rebuildEntry (batchSize : ℚ) : RebuildPc :=
  if !validBatchSize batchSize then
    .thrown (.error "History rebuild batch size must be between 1 and 2000.")
  else .read none ⟨0, 0, 0⟩

def projectNext (ids : UuidSource) (state : HistoryTable × ℕ × ℕ) (t : Transfer) :
    Except DbError (HistoryTable × ℕ × ℕ) := do
  let (H, rowsWritten, rowsRemoved) ← projectTransfer ids state.1 t
  return (H, state.2.1 + rowsWritten, state.2.2 + rowsRemoved)

/-- The transaction of a batch, with the rows it wrote and removed. -/
def projectBatch (ids : UuidSource) (H : HistoryTable) (transfers : List Transfer) :
    Except DbError (HistoryTable × ℕ × ℕ) := transfers.foldlM (projectNext ids) (H, 0, 0)

/-- One database access of a rebuild that passed its check, with the code up to the next one. -/
def rebuildStep (ids : UuidSource) (batchSize : ℚ) (db : Database) : RebuildPc → Database × RebuildPc
  | .read afterId result =>
    match page Transfer.id afterId batchSize.num.toNat db.transfers.rows with
    | [] => (db, .returned result)
    | transfers => (db, .write transfers result)
  | .write transfers result =>
    match projectBatch ids db.history transfers with
    | .ok (history, rowsWritten, rowsRemoved) =>
      ({ db with history }, .read (transfers.getLast?.map Transfer.id)
        { transfersScanned := result.transfersScanned + transfers.length
          rowsWritten := result.rowsWritten + rowsWritten
          rowsRemoved := result.rowsRemoved + rowsRemoved })
    | .error error => (db, .thrown (.database error))
  | pc => (db, pc)

/-- The rebuild with nothing running beside it. -/
def Completes (ids : UuidSource) (batchSize : ℚ) (db db' : Database) (result : HistoryRebuildResult) :
    Prop :=
  ∃ n, (fun s : Database × RebuildPc => rebuildStep ids batchSize s.1 s.2)^[n]
    (db, rebuildEntry batchSize) = (db', .returned result)

variable {ids : UuidSource} {H H' : HistoryTable} {db db' : Database} {t u : Transfer}
  {transfers : List Transfer} {w r : ℕ} {result : HistoryRebuildResult} {afterId : Option Uuid}
  {batchSize : ℚ}

/-- The rows of a transfer are all that its projection depends on. -/
theorem Projected.of_filter (hp : Projected H t)
    (h : H'.rows.filter (fun h => decide (h.transferId = t.id)) =
      H.rows.filter fun h => decide (h.transferId = t.id)) : Projected H' t := by
  rw [Projected, projectionOf, h]
  exact hp

theorem Projected.congr (hp : Projected H t) (hid : u.id = t.id) (hrows : expectedRows u = expectedRows t) :
    Projected H u := by
  rw [Projected, hid, hrows]
  exact hp

/-- What the transaction of a batch does, from any counts. -/
theorem foldlM_projectNext (ids : UuidSource) (H : HistoryTable) (w r : ℕ)
    (hcheck : ∀ t ∈ transfers, t.check = true)
    (hids : transfers.Pairwise fun t u => t.id < u.id) :
    ∃ H' : HistoryTable, transfers.foldlM (projectNext ids) (H, w, r) = .ok (H',
        w + (transfers.map fun t => (expectedRows t).length).sum,
        r + (transfers.map fun t => H.rows.countP (superfluous t.id (expectedRows t))).sum) ∧
      (∀ t ∈ transfers, Projected H' t) ∧
      ∀ q : TransactionHistory → Bool, (∀ t ∈ transfers, ∀ h, h.transferId = t.id → q h = false) →
        H'.rows.filter q = H.rows.filter q := by
  induction transfers generalizing H w r with
  | nil => exact ⟨H, by simp [pure, Except.pure], by simp, fun _ _ => rfl⟩
  | cons t transfers ih =>
    obtain ⟨htcheck, hcheck⟩ := List.forall_mem_cons.mp hcheck
    obtain ⟨htids, hids⟩ := List.pairwise_cons.mp hids
    obtain ⟨K, hok, hprojected, huntouched⟩ := projectTransfer_ok ids H htcheck
    obtain ⟨H', hrest, hprojects, hkeeps⟩ := ih K (w + (expectedRows t).length)
      (r + H.rows.countP (superfluous t.id (expectedRows t))) hcheck hids
    have hcounts : (transfers.map fun u => K.rows.countP (superfluous u.id (expectedRows u))) =
        transfers.map fun u => H.rows.countP (superfluous u.id (expectedRows u)) := by
      refine List.map_congr_left fun u hu => ?_
      rw [List.countP_eq_length_filter, List.countP_eq_length_filter, huntouched]
      intro h hid
      have hne : h.transferId ≠ u.id := hid ▸ (htids u hu).ne
      simp [superfluous, hne]
    refine ⟨H', ?_, List.forall_mem_cons.mpr ⟨?_, hprojects⟩, fun q hq => ?_⟩
    · rw [List.foldlM_cons, projectNext, hok, ok_bind]
      change transfers.foldlM (projectNext ids) _ = _
      rw [hrest, hcounts, List.map_cons, List.sum_cons, List.map_cons, List.sum_cons]
      simp only [Nat.add_assoc]
    · refine hprojected.of_filter (hkeeps _ fun u hu h hid => ?_)
      have hne : h.transferId ≠ t.id := hid ▸ (htids u hu).ne'
      simp [hne]
    · obtain ⟨hhead, htail⟩ := List.forall_mem_cons.mp hq
      exact (hkeeps q htail).trans (huntouched q hhead)

/-- The counts only add up. -/
theorem foldlM_projectNext_add : transfers.foldlM (projectNext ids) (H, w, r) =
    (projectBatch ids H transfers).map fun state => (state.1, w + state.2.1, r + state.2.2) := by
  rw [projectBatch]
  induction transfers generalizing H w r with
  | nil => rfl
  | cons t transfers ih =>
    rw [List.foldlM_cons, List.foldlM_cons, projectNext, projectNext]
    cases projectTransfer ids H t with
    | error e => rfl
    | ok state =>
      change transfers.foldlM (projectNext ids) _ = (transfers.foldlM (projectNext ids) _).map _
      rw [ih, ih (w := 0 + _)]
      cases transfers.foldlM (projectNext ids) (state.1, 0, 0) with
      | error e => rfl
      | ok last =>
        refine congrArg Except.ok (Prod.ext rfl (Prod.ext ?_ ?_))
        · change w + state.2.1 + last.2.1 = w + (0 + state.2.1 + last.2.1)
          omega
        · change r + state.2.2 + last.2.2 = r + (0 + state.2.2 + last.2.2)
          omega

/-- A batch followed by the rest of the transfers. -/
theorem projectBatch_append {xs ys : List Transfer}
    (h : projectBatch ids H (xs ++ ys) = .ok (H', w, r)) :
    ∃ (K : HistoryTable) (w₁ r₁ w₂ r₂ : ℕ), projectBatch ids H xs = .ok (K, w₁, r₁) ∧
      projectBatch ids K ys = .ok (H', w₂, r₂) ∧ w = w₁ + w₂ ∧ r = r₁ + r₂ := by
  rw [projectBatch, List.foldlM_append] at h
  obtain ⟨⟨K, w₁, r₁⟩, hxs, hys⟩ := bind_eq_ok h
  rw [foldlM_projectNext_add] at hys
  obtain ⟨⟨L, w₂, r₂⟩, hlast, heq⟩ := map_eq_ok hys
  cases heq
  exact ⟨K, w₁, r₁, w₂, r₂, hxs, hlast, rfl, rfl⟩

theorem transfer_ids_nodup (db : Database) : (db.transfers.rows.map Transfer.id).Nodup :=
  uniqueBy_iff.mp db.transfer_ids

/-- The loop from any of its reads. The induction is on the transfers still to be read. -/
theorem rebuild_loop (result : HistoryRebuildResult) (hsize : 0 < batchSize.num.toNat)
    (h : projectBatch ids db.history (rest Transfer.id afterId db.transfers.rows) = .ok (H', w, r)) :
    ∃ n, (fun s : Database × RebuildPc => rebuildStep ids batchSize s.1 s.2)^[n]
      (db, .read afterId result) = ({ db with history := H' }, .returned
        { transfersScanned := result.transfersScanned + (rest Transfer.id afterId db.transfers.rows).length
          rowsWritten := result.rowsWritten + w
          rowsRemoved := result.rowsRemoved + r }) := by
  induction hm : (rest Transfer.id afterId db.transfers.rows).length using Nat.strong_induction_on
    generalizing db afterId result w r with
  | _ m ih =>
  cases hpage : page Transfer.id afterId batchSize.num.toNat db.transfers.rows using List.reverseRecOn with
  | nil =>
    have hnone : rest Transfer.id afterId db.transfers.rows = [] := by
      rw [page, List.take_eq_nil_iff] at hpage
      exact hpage.resolve_left hsize.ne'
    rw [hnone] at h hm
    cases h
    refine ⟨1, ?_⟩
    simp only [Function.iterate_one, rebuildStep, hpage, ← hm]
    rfl
  | append_singleton xs t =>
    have hrest := rest_last (transfer_ids_nodup db) hpage
    have hsplit : rest Transfer.id afterId db.transfers.rows =
        (xs ++ [t]) ++ rest Transfer.id (some t.id) db.transfers.rows := by
      rw [hrest, ← hpage, page, List.take_append_drop]
    rw [hsplit] at h
    obtain ⟨K, w₁, r₁, w₂, r₂, hbatch, hlater, rfl, rfl⟩ := projectBatch_append h
    have hlength := congrArg List.length hsplit
    simp only [List.length_append, List.length_cons, List.length_nil] at hlength
    have hless : (rest Transfer.id (some t.id) db.transfers.rows).length < m := by omega
    obtain ⟨n, hn⟩ := @ih _ hless { db with history := K } w₂ r₂ (some t.id)
      ⟨result.transfersScanned + (xs ++ [t]).length, result.rowsWritten + w₁, result.rowsRemoved + r₁⟩
      hlater rfl
    have hread : rebuildStep ids batchSize db (.read afterId result) = (db, .write (xs ++ [t]) result) := by
      rw [rebuildStep, hpage]
      cases xs <;> rfl
    have hwrite : rebuildStep ids batchSize db (.write (xs ++ [t]) result) =
        ({ db with history := K }, .read (some t.id) ⟨result.transfersScanned + (xs ++ [t]).length,
          result.rowsWritten + w₁, result.rowsRemoved + r₁⟩) := by
      rw [rebuildStep, hbatch]
      simp
    refine ⟨n + 2, ?_⟩
    rw [Function.iterate_add_apply]
    simp only [Function.iterate_succ, Function.iterate_zero, Function.comp_apply, id_eq, hread, hwrite]
    rw [hn]
    simp only [List.length_append, List.length_cons, List.length_nil, ← hm, hlength, Nat.add_assoc]

theorem rest_none_perm (db : Database) :
    (rest Transfer.id none db.transfers.rows).Perm db.transfers.rows := by
  have hall : (db.transfers.rows.filter fun t => (none : Option Uuid).all fun k => decide (k < t.id)) =
      db.transfers.rows := List.filter_eq_self.mpr fun _ _ => rfl
  rw [rest, hall]
  exact List.perm_insertionSort _ _

/-- What a rebuild answers, whatever its batch size. -/
def rebuildResult (db : Database) : HistoryRebuildResult where
  transfersScanned := db.transfers.rows.length
  rowsWritten := (db.transfers.rows.map fun t => (expectedRows t).length).sum
  rowsRemoved :=
    (db.transfers.rows.map fun t => db.history.rows.countP (superfluous t.id (expectedRows t))).sum

theorem validBatchSize_natCast {n : ℕ} (hlow : 1 ≤ n) (hhigh : n ≤ 2000) :
    validBatchSize (n : ℚ) = true := by
  have h1 : (1 : ℚ) ≤ n := by exact_mod_cast hlow
  have h2 : (n : ℚ) ≤ 2000 := by exact_mod_cast hhigh
  simp [validBatchSize, h1, h2]

/-- All transfers in one batch of the loop. -/
theorem projectBatch_all (ids : UuidSource) (db : Database) :
    ∃ H' : HistoryTable, projectBatch ids db.history (rest Transfer.id none db.transfers.rows) =
        .ok (H', (rebuildResult db).rowsWritten, (rebuildResult db).rowsRemoved) ∧
      (∀ t ∈ db.transfers.rows, Projected H' t) ∧
      ∀ h ∈ H'.rows, h ∈ db.history.rows ∨ ∃ t ∈ db.transfers.rows, t.id = h.transferId := by
  have hperm := rest_none_perm db
  obtain ⟨H', hok, hprojected, huntouched⟩ := foldlM_projectNext ids db.history 0 0
    (fun t ht => db.transfers.checked t (hperm.mem_iff.mp ht)) (strict_rest (transfer_ids_nodup db))
  refine ⟨H', ?_, fun t ht => hprojected t (hperm.mem_iff.mpr ht), fun h hh => ?_⟩
  · rw [projectBatch, hok, (hperm.map _).sum_eq, (hperm.map _).sum_eq, Nat.zero_add, Nat.zero_add]
    rfl
  · by_cases howner : ∃ t ∈ db.transfers.rows, t.id = h.transferId
    · exact .inr howner
    -- a row of no transfer is in none of the places that were written
    have hfilter := huntouched (fun g => decide (g.transferId = h.transferId)) fun t ht g hid => by
      have hne : g.transferId ≠ h.transferId := fun heq =>
        howner ⟨t, hperm.mem_iff.mp ht, hid.symm.trans heq⟩
      simp [hne]
    have hmem : h ∈ H'.rows.filter fun g => decide (g.transferId = h.transferId) :=
      List.mem_filter.mpr ⟨hh, by simp⟩
    rw [hfilter] at hmem
    exact .inl (List.mem_of_mem_filter hmem)

theorem completes_of_projectBatch {n : ℕ} (hlow : 1 ≤ n) (hhigh : n ≤ 2000)
    (h : projectBatch ids db.history (rest Transfer.id none db.transfers.rows) = .ok (H', w, r)) :
    Completes ids n db { db with history := H' } ⟨db.transfers.rows.length, w, r⟩ := by
  have hsize : 0 < (n : ℚ).num.toNat := by
    rw [Rat.num_natCast, Int.toNat_natCast]
    exact hlow
  obtain ⟨k, hk⟩ := rebuild_loop ⟨0, 0, 0⟩ hsize h
  refine ⟨k, ?_⟩
  have hentry : rebuildEntry (n : ℚ) = .read none ⟨0, 0, 0⟩ := by
    simp [rebuildEntry, validBatchSize_natCast hlow hhigh]
  rw [hentry, hk, (rest_none_perm db).length_eq]
  simp

/-- A batch of transfers that are projected already. -/
theorem foldlM_projectNext_of_projected (hcheck : ∀ t ∈ transfers, t.check = true)
    (hp : ∀ t ∈ transfers, Projected H t) : transfers.foldlM (projectNext ids) (H, w, r) =
      .ok (H, w + (transfers.map fun t => (expectedRows t).length).sum, r) := by
  induction transfers generalizing w with
  | nil => simp [pure, Except.pure]
  | cons t transfers ih =>
    obtain ⟨htcheck, hcheck⟩ := List.forall_mem_cons.mp hcheck
    obtain ⟨htp, hp⟩ := List.forall_mem_cons.mp hp
    rw [List.foldlM_cons, projectNext, htp.projectTransfer htcheck, ok_bind]
    change transfers.foldlM (projectNext ids) (H, w + (expectedRows t).length, r) = _
    rw [ih hcheck hp, List.map_cons, List.sum_cons, Nat.add_assoc]

/-- Run alone, a rebuild returns whatever its batch size, with one count of each transfer; the history
then holds the expected rows of every transfer and no others, and a second rebuild removes nothing and
leaves the tables as they are. -/
theorem rebuild_restores (hforeign : ForeignKey db) (ids : UuidSource) : ∃ db' : Database,
    (∀ n : ℕ, 1 ≤ n → n ≤ 2000 → Completes ids n db db' (rebuildResult db)) ∧
    (rebuildResult db).transfersScanned = db.transfers.rows.length ∧
    db'.transfers = db.transfers ∧ db'.records = db.records ∧
    (∀ t ∈ db'.transfers.rows, (projectionOf t.id db'.history.rows).Perm (expectedRows t)) ∧
    (∀ h ∈ db'.history.rows, ∃ t ∈ db'.transfers.rows, t.id = h.transferId) ∧
    ∀ (ids' : UuidSource) (n : ℕ), 1 ≤ n → n ≤ 2000 →
      Completes ids' n db' db' { rebuildResult db with rowsRemoved := 0 } := by
  obtain ⟨H', hok, hprojected, howned⟩ := projectBatch_all ids db
  refine ⟨{ db with history := H' }, fun n hlow hhigh => completes_of_projectBatch hlow hhigh hok, rfl,
    rfl, rfl, hprojected, fun h hh => (howned h hh).elim (hforeign h) id, fun ids' n hlow hhigh => ?_⟩
  have hperm := rest_none_perm db
  have hagain : projectBatch ids' H' (rest Transfer.id none db.transfers.rows) =
      .ok (H', (rebuildResult db).rowsWritten, 0) := by
    rw [projectBatch, foldlM_projectNext_of_projected
      (fun t ht => db.transfers.checked t (hperm.mem_iff.mp ht))
      (fun t ht => hprojected t (hperm.mem_iff.mp ht)), (hperm.map _).sum_eq, Nat.zero_add]
    rfl
  exact @completes_of_projectBatch ids' H' { db with history := H' } _ _ n hlow hhigh hagain

def nextUuid : UuidSource where
  next used := used.foldr max 0 + 1
  fresh := by
    intro used hmem
    have hle : ∀ k ∈ used, k ≤ used.foldr max 0 := fun k hk => List.le_max_of_le hk le_rfl
    exact Nat.not_succ_le_self _ (hle _ hmem)

def dollars : Currency := (20, 18, 3)

def euros : Currency := (4, 20, 17)

def tenDollars : Money := ⟨1000000000, by decide⟩

/-- A domestic transfer between the wallets 11 and 12. -/
def completedTransfer : Transfer where
  id := 7
  clientId := "client-a"
  type := .domestic
  status := .completed
  senderWalletId := 11
  recipientWalletId := 12
  sourceCurrency := dollars
  sourceAmount := tenDollars
  targetCurrency := dollars
  targetAmount := some tenDollars
  fxQuoteId := none
  lockedFxRate := none
  ledgerTransactionId := some 100
  failureCode := none
  failureMessage := none
  createdAt := 5
  updatedAt := 6
  completedAt := some 6
  version := 2

/-- An international transfer whose terms are not known yet. -/
def unpreparedTransfer : Transfer :=
  { completedTransfer with
    id := 8, type := .international, status := .pending, targetCurrency := euros, targetAmount := none
    fxQuoteId := some 9, ledgerTransactionId := none, completedAt := none }

def historyRow (id transferId walletId : Uuid) (role : TransferRole) (counterpartyWalletId : Uuid) :
    TransactionHistory where
  id := id
  transferId := transferId
  walletId := walletId
  role := role
  counterpartyWalletId := counterpartyWalletId
  status := .processing
  amount := tenDollars
  currency := dollars
  fxQuoteId := none
  occurredAt := 5

/-- A history with a stale row, a row of another wallet and a row that should not exist; the row of the
recipient is missing. -/
def corruptDatabase : Database where
  transfers := ⟨[completedTransfer, unpreparedTransfer], by decide +kernel, by decide +kernel⟩
  records := Database.empty.records
  history := ⟨[historyRow 1 7 11 .sender 12, historyRow 2 7 13 .recipient 11,
    historyRow 3 8 11 .sender 12], by decide +kernel, by decide +kernel⟩

/-- The theorem at `corruptDatabase`: two rows are written and two removed. -/
theorem rebuild_restores_corruptDatabase : rebuildResult corruptDatabase = ⟨2, 2, 2⟩ ∧
    ∃ db' : Database, Completes nextUuid 1 corruptDatabase db' ⟨2, 2, 2⟩ ∧
      Completes nextUuid 2000 corruptDatabase db' ⟨2, 2, 2⟩ ∧
      (projectionOf 7 db'.history.rows).Perm (expectedRows completedTransfer) ∧
      projectionOf 8 db'.history.rows = [] := by
  have hresult : rebuildResult corruptDatabase = ⟨2, 2, 2⟩ := by decide
  have hforeign : ForeignKey corruptDatabase := by
    unfold ForeignKey
    decide
  obtain ⟨db', hcompletes, -, htransfers, -, hprojected, -⟩ := rebuild_restores hforeign nextUuid
  rw [hresult] at hcompletes
  refine ⟨hresult, db', ?_, ?_, ?_, ?_⟩
  · exact_mod_cast hcompletes 1 le_rfl (by decide)
  · exact_mod_cast hcompletes 2000 (by decide) le_rfl
  · exact hprojected completedTransfer (by rw [htransfers]; decide)
  · exact (hprojected unpreparedTransfer (by rw [htransfers]; decide)).eq_nil

end NovaPay.History
