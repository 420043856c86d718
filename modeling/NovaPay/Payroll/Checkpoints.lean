import NovaPay.Payroll.Invariant
import NovaPay.Transaction.Lockstep

/-!
# Every item is counted once

The counts of a job are incremented by workers that may all believe to work on the same item. The
token of the last claim decides which of them checkpoints it, and a checkpoint is final.
-/

namespace NovaPay.Payroll

open DecimalArithmetic Relational TransitionSystem

variable {s s' : State} {a : Action}

/-- The worker that takes the step waits to checkpoint the item, and its token is the one in the
row. -/
def Checkpoints (s : State) (a : Action) (row row' : PayrollItem) : Prop :=
  ∃ w c worker job leaseToken item verdict transferId failureCode rest, a = .run w c ∧
    s.workers w = some worker ∧
    worker.pc = some (.leased job leaseToken (.checkpoint item verdict transferId failureCode rest)) ∧
    item.processingToken.isSome = true ∧ heldBy item row = true ∧
    row' = row.checkpoint verdict transferId failureCode c.date

/-- Every terminal item was there before. -/
def NoVerdict (store store' : Store) : Prop :=
  ∀ item ∈ store'.items.rows, item.status.terminal = true → item ∈ store.items.rows

theorem noVerdict_of_items {store store' : Store} (h : store'.items = store.items) :
    NoVerdict store store' := fun item hi _ => by rwa [← h]

theorem noVerdict_of_update {store : Store} {items : Table itemsSchema} {p : PayrollItem → Bool}
    {data : PayrollItem → PayrollItem} {n : ℕ} (h : store.items.updateMany p data = .ok (items, n))
    (hdata : ∀ item, p item = true → (data item).status.terminal = false) :
    NoVerdict store { store with items } := by
  intro item hi hterminal
  have hrows : items.rows = updateWhere p data store.items.rows := (Table.updateMany_ok h).1
  rw [show ({ store with items } : Store).items.rows = items.rows from rfl, hrows] at hi
  obtain ⟨hi, -⟩ | ⟨old, -, hp, rfl⟩ := mem_updateWhere.mp hi
  · exact hi
  · rw [hdata old hp] at hterminal
    cases hterminal

theorem updateJob_noVerdict {store store' : Store} {jobId : Uuid} {data : PayrollJob → PayrollJob}
    (h : updateJob store jobId data = .ok store') : NoVerdict store store' :=
  noVerdict_of_items (updateJob_ok h).2

/-- A statement makes no item terminal, unless it checkpoints the one that its worker holds. -/
theorem advance_verdict (c : Choice) (leaseLost : Bool) (store : Store) (job : PayrollJob)
    (statement : Statement) : NoVerdict store (advance c leaseLost store job statement).1 ∨
    ∃ item verdict transferId failureCode rest,
      statement = .checkpoint item verdict transferId failureCode rest ∧
      ∀ row' ∈ (advance c leaseLost store job statement).1.items.rows, row' ∈ store.items.rows ∨
        ∃ row ∈ store.items.rows, heldBy item row = true ∧
          row' = row.checkpoint verdict transferId failureCode c.date := by
  have hrefl : NoVerdict store store := noVerdict_of_items rfl
  cases statement with
  | markProcessing =>
    left
    change NoVerdict store (runMarkProcessing c store job).1
    unfold runMarkProcessing
    split
    · next hupdate => exact updateJob_noVerdict hupdate
    · exact hrefl
  | reclaim item items =>
    left
    change NoVerdict store (runReclaim c leaseLost store item items).1
    unfold runReclaim
    split
    · next hupdate =>
      refine noVerdict_of_update hupdate fun row hp => ?_
      simp only [Bool.and_eq_true, decide_eq_true_eq] at hp
      simp [PayrollItem.reclaim, hp.2, PayrollItemStatus.terminal]
    · exact hrefl
  | claim item candidates claimed =>
    left
    change NoVerdict store (runClaim c leaseLost store item candidates claimed).1
    unfold runClaim
    split
    · next hupdate => exact noVerdict_of_update hupdate fun _ _ => rfl
    · exact hrefl
  | noteTransfer item transferId =>
    left
    change NoVerdict store (runNoteTransfer store item transferId).1
    unfold runNoteTransfer
    split
    · next hupdate =>
      refine noVerdict_of_update hupdate fun row hp => ?_
      simp [PayrollItem.noteTransfer, (heldBy_processing hp).2.1, PayrollItemStatus.terminal]
    · exact hrefl
  | checkpoint item verdict transferId failureCode rest =>
    change NoVerdict store (runCheckpoint c leaseLost store item verdict transferId failureCode rest).1 ∨
      ∃ i v t f r, Statement.checkpoint item verdict transferId failureCode rest = .checkpoint i v t f r ∧
        ∀ row' ∈ (runCheckpoint c leaseLost store item verdict transferId failureCode rest).1.items.rows, _
    unfold runCheckpoint
    split
    · next hcheckpoint =>
      right
      refine ⟨item, verdict, transferId, failureCode, rest, rfl, fun row' hr => ?_⟩
      obtain ⟨hitems, -⟩ | ⟨-, -, -, hitems, -⟩ := checkpoint_ok hcheckpoint
      · exact .inl (hitems ▸ hr)
      · rw [hitems] at hr
        exact (mem_updateWhere.mp hr).imp (fun h => h.1) id
    · exact .inl hrefl
  | finalizeWrite status =>
    left
    change NoVerdict store (runFinalizeWrite c store job status).1
    unfold runFinalizeWrite
    split
    · next hupdate => exact updateJob_noVerdict hupdate
    · exact hrefl
  | _ => exact .inl hrefl

/-- A step that makes an item terminal is the checkpoint of a worker that holds it. -/
theorem checkpoints_of_step (hi : Invariant s) (h : step s a = some s') {row row' : PayrollItem}
    (hrow : row ∈ s.store.items.rows) (hopen : row.status.terminal = false)
    (hrow' : row' ∈ s'.store.items.rows) (hid : row'.id = row.id)
    (hterminal : row'.status.terminal = true) : Checkpoints s a row row' := by
  have hnew : row' ∉ s.store.items.rows := by
    intro hmem
    rw [s.store.item_eq hmem hrow hid, hopen] at hterminal
    cases hterminal
  cases step_cases h with
  | submitted hcreate =>
    obtain ⟨rows, total, hcreated, -⟩ := createJob_ok hcreate
    have hmem : row' ∈ s.store.items.rows ++ rows := hcreated.items ▸ hrow'
    obtain hold | hadded := List.mem_append.mp hmem
    · exact absurd hold hnew
    · rw [hcreated.pending row' hadded] at hterminal
      cases hterminal
  | outside hc hitems => exact absurd (noVerdict_of_items hitems row' hrow' hterminal) hnew
  | @ran w worker c job leaseToken statement hw hpc =>
    obtain hquiet | ⟨item, verdict, transferId, failureCode, rest, rfl, hwrites⟩ :=
      advance_verdict c worker.leaseLost s.store job statement
    · exact absurd (hquiet row' hrow' hterminal) hnew
    · obtain hold | ⟨old, ho, hheld, hold⟩ := hwrites row' hrow'
      · exact absurd hold hnew
      · have hsame : old.id = row.id := by rw [← hid, hold]; rfl
        obtain rfl := s.store.item_eq ho hrow hsame
        obtain ⟨-, hs, -⟩ := hi.workers w worker _ hw hpc
        exact ⟨w, c, worker, job, leaseToken, item, verdict, transferId, failureCode, rest, rfl, hw,
          hpc, hs.1.2, hheld, hold⟩
  | started | read | acquired | renewed | ended => exact absurd hrow' hnew

/-- The counts of every job are the numbers of its COMPLETED and FAILED items, a terminal job has only
terminal items and the status that their numbers give, a terminal item never changes, and only a
worker that holds the current token of an item checkpoints it. -/
theorem counts_agree_with_items (h : system.Reachable s) :
    (∀ job ∈ s.store.jobs.rows, job.completedItems = s.store.countItems job.id .completed ∧
      job.failedItems = s.store.countItems job.id .failed ∧
      (job.status.terminal = true →
        (∀ item ∈ s.store.items.rows, item.payrollJobId = job.id → item.status.terminal = true) ∧
        job.status = if s.store.countItems job.id .failed = 0 then .completed
          else if s.store.countItems job.id .completed = 0 then .failed else .partiallyFailed)) ∧
    (∀ s', system.Steps s s' → ∀ item ∈ s.store.items.rows, item.status.terminal = true →
      item ∈ s'.store.items.rows) ∧
    ∀ a s', system.step s a = some s' → ∀ row ∈ s.store.items.rows, row.status.terminal = false →
      ∀ row' ∈ s'.store.items.rows, row'.id = row.id → row'.status.terminal = true →
        Checkpoints s a row row' := by
  have hi := invariant_of_reachable h
  refine ⟨fun job hj => ?_, fun s' hs item hmem hterminal => ?_, fun a s' hs row hrow hopen row' hrow' =>
    checkpoints_of_step hi hs hrow hopen hrow'⟩
  · have hc := hi.agrees.completed job hj
    have hf := hi.agrees.failed job hj
    refine ⟨hc, hf, fun hterminal => ?_⟩
    obtain ⟨hsettled, hstatus⟩ := hi.agrees.verdict job hj hterminal
    refine ⟨fun item hitem => hi.agrees.terminal_of_settled hj hsettled hitem, ?_⟩
    rw [← hc, ← hf]
    exact hstatus
  · obtain ⟨row, hr, hp⟩ := (evolves_of_steps h hs).items item hmem
    rwa [← hp.terminal hterminal]

open Transaction (usd twentyFive senderWallet recipientWallet)

/-- A payment of 25.00 USD to one employee. -/
def payrollCommand : CreatePayrollJob where
  sourceWalletId := ⟨senderWallet, 0⟩
  currency := usd
  items := [⟨"employee-001", ⟨recipientWallet, 0⟩, twentyFive⟩]

/-- The next steps of a worker. -/
def runs (w : WorkerId) (choices : List Choice) : List Action := choices.map (.run w)

/-- A worker loses its lease while it waits for Transaction, and another one claims the item, which
both then find completed. -/
def staleWorkerRun : List Action :=
  [.submit 1 (fun sequence => 10 + sequence) "employer-a" payrollCommand, .start 0 1] ++
  runs 0 [{}, { token := 100 }, {}, {}, {}, { token := 101 }] ++
  [.expire "employer-a", .start 1 1] ++
  runs 1 [{}, { token := 200 }, {}, {}, { token := 201 },
    { reply := .ok ⟨some 900, some .completed, none⟩ }] ++
  runs 0 [{ reply := .ok ⟨some 900, some .completed, none⟩ }, {}] ++ runs 1 [{}, {}, {}, {}]

theorem counts_agree_with_items_staleWorkerRun : ∃ s, system.run .initial staleWorkerRun = some s ∧
    ∃ job ∈ s.store.jobs.rows, job.status = .completed ∧
      job.completedItems = s.store.countItems job.id .completed ∧
      ∀ item ∈ s.store.items.rows, item.payrollJobId = job.id → item.status.terminal = true := by
  have hrun : ((system.run .initial staleWorkerRun).map fun s =>
      s.store.jobs.rows.any fun job => decide (job.status = .completed)) = some true := by
    decide +kernel
  obtain ⟨s, hs, hstatus⟩ := Option.map_eq_some_iff.mp hrun
  obtain ⟨job, hj, hcompleted⟩ := List.any_eq_true.mp hstatus
  have hcompleted := of_decide_eq_true hcompleted
  obtain ⟨hcount, -, hterminal⟩ :=
    (counts_agree_with_items (System.reachable_of_run hs)).1 job hj
  exact ⟨s, hs, job, hj, hcompleted, hcount, (hterminal (by rw [hcompleted]; rfl)).1⟩

end NovaPay.Payroll
