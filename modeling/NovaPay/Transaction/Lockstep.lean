import NovaPay.Transaction.Invariant

/-!
# Transfers, records and history in lockstep

The agreement of the three tables in every reachable state, and the status changes a step makes.
-/

namespace NovaPay.Transaction

open DecimalArithmetic Relational TransitionSystem

variable {config : Config} {s s' : State} {t : Transfer}

theorem Lockstep.of_mem {db : Database} (hl : Lockstep db) (ht : t ∈ db.transfers.rows) :
    ∃ r, db.recordOf t.id = some r ∧ LockstepAt t r (db.historyOf t.id) :=
  (hl.agree t.id t (Database.findTransfer_eq_some_iff.mpr ⟨ht, rfl⟩)).2

theorem Lockstep.transfer_of_record {db : Database} (hl : Lockstep db) {r : IdempotencyRecord}
    (hr : r ∈ db.records.rows) : ∃ t ∈ db.transfers.rows, t.id = r.transferId := by
  cases ht : db.findTransfer r.transferId with
  | some t => exact ⟨t, Database.findTransfer_eq_some_iff.mp ht⟩
  | none =>
    have hnone := (hl.absent _ ht).1
    rw [Database.recordOf_eq_some_iff.mpr ⟨hr, rfl⟩] at hnone
    cases hnone

theorem Lockstep.transfer_of_history {db : Database} (hl : Lockstep db) {row : TransactionHistory}
    (hrow : row ∈ db.history.rows) : ∃ t ∈ db.transfers.rows, t.id = row.transferId := by
  cases ht : db.findTransfer row.transferId with
  | some t => exact ⟨t, Database.findTransfer_eq_some_iff.mp ht⟩
  | none =>
    have hnone : projectionOf row.transferId db.history.rows = [] := (hl.absent _ ht).2
    simp only [projectionOf, List.map_eq_nil_iff, List.filter_eq_nil_iff, decide_eq_true_eq] at hnone
    exact absurd rfl (hnone row hrow)

/-- A step keeps every transfer and changes its status only as the trigger allows. -/
theorem status_step {a : Action} (hi : Invariant config s) (h : step config s a = some s')
    (ht : t ∈ s.db.transfers.rows) :
    ∃ t' ∈ s'.db.transfers.rows, t'.id = t.id ∧ statusAllowed t.status t'.status = true := by
  have hfind : s.db.findTransfer t.id = some t := Database.findTransfer_eq_some_iff.mpr ⟨ht, rfl⟩
  have hrefl : statusAllowed t.status t.status = true := by cases t.status <;> rfl
  rcases step_change hi h with heq | hc
  · exact ⟨t, by rwa [heq], rfl, hrefl⟩
  suffices hs : ∃ t', s'.db.findTransfer t.id = some t' ∧ statusAllowed t.status t'.status = true by
    obtain ⟨t', ht', ha⟩ := hs
    exact ⟨t', (Database.findTransfer_eq_some_iff.mp ht').1,
      (Database.findTransfer_eq_some_iff.mp ht').2, ha⟩
  cases hc with
  | created u r hcr =>
    have hne : t.id ≠ u.id := fun hid => by
      rw [hid, hcr.absent] at hfind
      cases hfind
    exact ⟨t, by rw [hcr.replaces.transfer, if_neg hne, hfind], hrefl⟩
  | moved u r u' r' hm =>
    by_cases hid : t.id = u.id
    · obtain rfl : u = t := Option.some.inj (hm.found.symm.trans (hid ▸ hfind))
      exact ⟨u', by rw [hm.move.same.id, hm.replaces.findTransfer], hm.move.allowed⟩
    · exact ⟨t, by rw [hm.replaces.transfer, if_neg (by rwa [← hm.move.same.id]), hfind], hrefl⟩

/-- In every reachable state each transfer has one record, whose state and stored response follow
the transfer's status, and exactly the history rows expected of it, all with that status; no record
and no history row is without its transfer, and no step changes a status against the trigger. -/
theorem tables_in_lockstep (h : (system config).Reachable s) :
    (∀ t ∈ s.db.transfers.rows,
      (∃ r ∈ s.db.records.rows, r.transferId = t.id ∧
        (∀ q ∈ s.db.records.rows, q.transferId = t.id → q = r) ∧
        (r.state = .processing ↔ t.status = .pending ∨ t.status = .processing) ∧
        (r.state = .completed ↔ t.status = .completed) ∧
        (r.state = .failed ↔ t.status = .failed) ∧
        r.responseBody = if t.status.open then none else some (toResponse t)) ∧
      s.db.historyOf t.id = expectedRows t ∧
      ∀ row ∈ s.db.history.rows, row.transferId = t.id → row.status = t.status) ∧
    (∀ r ∈ s.db.records.rows, ∃ t ∈ s.db.transfers.rows, t.id = r.transferId) ∧
    (∀ row ∈ s.db.history.rows, ∃ t ∈ s.db.transfers.rows, t.id = row.transferId) ∧
    ∀ a s', step config s a = some s' → ∀ t ∈ s.db.transfers.rows,
      ∃ t' ∈ s'.db.transfers.rows, t'.id = t.id ∧ statusAllowed t.status t'.status = true := by
  have hi := invariant_of_reachable h
  refine ⟨fun t ht => ?_, fun r hr => hi.lockstep.transfer_of_record hr,
    fun row hrow => hi.lockstep.transfer_of_history hrow, fun a s' hs t ht => status_step hi hs ht⟩
  obtain ⟨r, hr, hat⟩ := hi.lockstep.of_mem ht
  obtain ⟨hmem, hid⟩ := Database.recordOf_eq_some_iff.mp hr
  refine ⟨⟨r, hmem, hid, fun q hq hqid => Database.record_eq hq hmem (hqid.trans hid.symm),
    hat.processing, hat.completed, hat.failed, hat.body⟩, hat.rows_eq, fun row hrow hrid => ?_⟩
  exact status_of_history hi.lockstep hrow
    (hrid ▸ Database.findTransfer_eq_some_iff.mpr ⟨ht, rfl⟩)

def senderWallet : Uuid := 0x11111111111141118111111111111111

def recipientWallet : Uuid := 0x22222222222242228222222222222222

def usd : Currency := (20, 18, 3)

def twentyFive : MoneyText := ⟨⟨2500, 2⟩, by decide⟩

/-- Twenty-five dollars from one wallet to another. -/
def domesticRequest : CreateRequest where
  clientId := "client-a"
  key := "order-1"
  command := .domestic
    { senderWalletId := .ofUuid senderWallet
      recipientWalletId := .ofUuid recipientWallet
      amount := twentyFive
      currency := usd }

/-- The digest of the canonical form of `domesticRequest`. -/
def domesticConfig : Config where
  sha256 := fun _ => 0x310870ff3d1870390e1de34c7d96354406d836d82396a656761bf6d479f0ca4d
  staleProcessingMs := 30000

def walletOf (walletId : Uuid) (owner : Principal) (ledgerAccountId : Uuid) : WalletValidation where
  walletId := walletId
  userId := 0
  ownerExternalRef := owner
  currency := usd
  status := .active
  ledgerAccountId := some ledgerAccountId

/-- A domestic transfer from its request to its completion. -/
def domesticRun : List Action := [
  .request 0 (.create domesticRequest),
  .run 0 {},
  .run 0 { ids := ⟨7, 8, 9⟩ },
  .run 0 { date := 1 },
  .run 0 {},
  .run 0 {
    account := .ok (walletOf senderWallet "client-a" 1, walletOf recipientWallet "client-b" 2) },
  .run 0 { posting := .ok (some ⟨100, 7, .transfer, []⟩) },
  .run 0 { date := 2 }]

/-- The theorem at the end of `domesticRun`, where the transfer is completed. -/
theorem tables_in_lockstep_domesticRun :
    ∃ s, (system domesticConfig).run .initial domesticRun = some s ∧
      s.db.transfers.rows.map Transfer.status = [.completed] ∧
      ∀ t ∈ s.db.transfers.rows, s.db.historyOf t.id = expectedRows t := by
  have hrun : ((system domesticConfig).run .initial domesticRun).map
      (fun s => s.db.transfers.rows.map Transfer.status) = some [.completed] := by decide +kernel
  obtain ⟨s, hs, hstatus⟩ := Option.map_eq_some_iff.mp hrun
  exact ⟨s, hs, hstatus, fun t ht =>
    ((tables_in_lockstep (System.reachable_of_run hs)).1 t ht).2.1⟩

end NovaPay.Transaction
