import NovaPay.Payroll.Invariant

/-!
# Where a verdict comes from

A worker waits to checkpoint an item only after it had an answer to its call of Transaction, and that
answer decides the verdict.
-/

namespace NovaPay.Payroll

open TransitionSystem
open Transaction (TransferStatus)

variable {item : PayrollItem} {rest : Rest} {c : Choice} {leaseLost : Bool} {store : Store}
  {job : PayrollJob}

/-- The item that a statement checkpoints, with the verdict and the transfer. -/
def Statement.verdict? : Statement → Option (PayrollItem × Verdict × Option Uuid)
  | .checkpoint item verdict transferId _ _ => some (item, verdict, transferId)
  | _ => none

/-- The body of an answer. -/
def TransferReply.body? : TransferReply → Option TransferBody
  | .ok body => some body
  | .http _ _ body => some body
  | .unavailable => none

/-- The answers that decide a verdict: a body with a closed transfer, or a client error whose body shows
none. -/
inductive TransferReply.Decides (reply : TransferReply) : Verdict → Option Uuid → Prop
  | completed {body : TransferBody} : reply.body? = some body → body.status = some .completed →
      reply.Decides .completed body.transferId
  | failed {body : TransferBody} {status : TransferStatus} : reply.body? = some body →
      body.status = some status → status = .failed ∨ status = .reversed →
      reply.Decides .failed body.transferId
  | refused {status : ℕ} {code : String} {body : TransferBody} : reply = .http status code body →
      400 ≤ status → status < 500 → ¬(body.transferId.isSome ∧ body.status.isSome) →
      reply.Decides .failed none

theorem checkpointResponse_decides {body : TransferBody} {reply : TransferReply}
    (hbody : reply.body? = some body) {d : PayrollItem × Verdict × Option Uuid}
    (h : (checkpointResponse item rest body).verdict? = some d) :
    d.1 = item ∧ reply.Decides d.2.1 d.2.2 := by
  unfold checkpointResponse at h
  split at h
  · next hstatus =>
    cases h
    exact ⟨rfl, .completed hbody hstatus⟩
  · next hstatus =>
    cases h
    exact ⟨rfl, .failed hbody hstatus (.inl rfl)⟩
  · next hstatus =>
    cases h
    exact ⟨rfl, .failed hbody hstatus (.inr rfl)⟩
  · cases h

theorem executeItem_decides {reply : TransferReply} {d : PayrollItem × Verdict × Option Uuid}
    (h : (executeItem item rest reply).verdict? = some d) : d.1 = item ∧ reply.Decides d.2.1 d.2.2 := by
  cases reply with
  | ok body => exact checkpointResponse_decides rfl h
  | http status code body =>
    rw [executeItem] at h
    split at h
    · exact checkpointResponse_decides rfl h
    · next hbare =>
      split at h
      · next hstatus =>
        cases h
        exact ⟨rfl, .refused rfl hstatus.1 hstatus.2 hbare⟩
      · cases h
  | unavailable => cases h

/-! No other code leads to a checkpoint. -/

theorem nextItem_verdict : (nextItem leaseLost rest).verdict? = none := by
  have henter : (enterBatch leaseLost).verdict? = none := by
    unfold enterBatch
    split <;> rfl
  match rest with
  | .reconciling [] | .batch [] => exact henter
  | .reconciling (item :: items) => rfl
  | .batch (item :: items) =>
    rw [nextItem]
    split <;> rfl

theorem nextCandidate_verdict {claimed candidates : List PayrollItem} :
    (nextCandidate leaseLost claimed candidates).verdict? = none := by
  match candidates with
  | item :: candidates => rfl
  | [] =>
    rw [nextCandidate]
    split
    · rfl
    · exact nextItem_verdict

theorem executes_of_verdict {statement : Statement} {d : PayrollItem × Verdict × Option Uuid}
    (h : (advance c leaseLost store job statement).2.verdict? = some d) :
    ∃ item rest, statement = .createDomestic item rest ∧
      (executeItem item rest c.reply).verdict? = some d := by
  cases statement with
  | createDomestic item rest => exact ⟨item, rest, rfl, h⟩
  | markProcessing =>
    change (runMarkProcessing c store job).2.verdict? = some d at h
    unfold runMarkProcessing at h
    split at h <;> cases h
  | reconcileRead => cases nextItem_verdict.symm.trans h
  | reclaim item items =>
    change (runReclaim c leaseLost store item items).2.verdict? = some d at h
    unfold runReclaim at h
    split at h
    · dsimp only at h
      split at h
      · cases h
      · cases nextItem_verdict.symm.trans h
    · cases h
  | batchRead => cases nextCandidate_verdict.symm.trans h
  | claim item candidates claimed =>
    change (runClaim c leaseLost store item candidates claimed).2.verdict? = some d at h
    unfold runClaim at h
    split at h
    · cases nextCandidate_verdict.symm.trans h
    · cases h
  | noteTransfer item transferId =>
    change (runNoteTransfer store item transferId).2.verdict? = some d at h
    unfold runNoteTransfer at h
    split at h <;> cases h
  | checkpoint item verdict transferId failureCode rest =>
    change (runCheckpoint c leaseLost store item verdict transferId failureCode rest).2.verdict? = some d at h
    unfold runCheckpoint at h
    split at h
    · cases nextItem_verdict.symm.trans h
    · cases h
  | finalizeRead =>
    change (runFinalizeRead store job).verdict? = some d at h
    unfold runFinalizeRead at h
    split at h
    · split at h <;> cases h
    · cases h
  | finalizeWrite status =>
    change (runFinalizeWrite c store job status).2.verdict? = some d at h
    unfold runFinalizeWrite at h
    split at h <;> cases h
  | release => cases h

section Step

variable {s s' : State} {a : Action} {w : WorkerId} {worker : Worker} {leaseToken : Uuid}
  {statement : Statement}

/-- A worker that waits to checkpoint an item did so before the step, or the step answered its call. -/
theorem verdict_of_step (h : step s a = some s') (hw : s'.workers w = some worker)
    (hpc : worker.pc = some (.leased job leaseToken statement))
    {d : PayrollItem × Verdict × Option Uuid} (hd : statement.verdict? = some d) :
    (∃ worker, s.workers w = some worker ∧ worker.pc = some (.leased job leaseToken statement)) ∨
      ∃ c worker item rest, a = .run w c ∧ s.workers w = some worker ∧
        worker.pc = some (.leased job leaseToken (.createDomestic item rest)) ∧
        (executeItem item rest c.reply).verdict? = some d := by
  have hset : ∀ {s : State} {i : WorkerId} {new : Worker}, (s.setWorker i new).workers w = some worker →
      (i = w ∧ worker = new) ∨ s.workers w = some worker := by
    intro s i new hset
    by_cases hiw : w = i
    · subst hiw
      rw [State.setWorker_workers_self] at hset
      exact .inl ⟨rfl, (Option.some.inj hset).symm⟩
    · rw [State.setWorker_workers_of_ne hiw] at hset
      exact .inr hset
  cases step_cases h with
  | submitted | outside => exact .inl ⟨worker, hw, hpc⟩
  | started =>
    obtain ⟨-, rfl⟩ | hold := hset hw
    · cases hpc
    · exact .inl ⟨worker, hold, hpc⟩
  | read =>
    obtain ⟨-, rfl⟩ | hold := hset hw
    · dsimp only at hpc
      unfold readJob at hpc
      split at hpc
      · split at hpc <;> cases hpc
      · cases hpc
    · exact .inl ⟨worker, hold, hpc⟩
  | acquired =>
    obtain ⟨-, rfl⟩ | hold := hset hw
    · cases hpc
      cases hd
    · exact .inl ⟨worker, hold, hpc⟩
  | @ran i old c job' token' statement' hold hoPc =>
    obtain ⟨rfl, rfl⟩ | hother := hset hw
    · cases hpc
      obtain ⟨item, rest, rfl, hreply⟩ := executes_of_verdict hd
      exact .inr ⟨c, old, item, rest, rfl, hold, hoPc, hreply⟩
    · exact .inl ⟨worker, hother, hpc⟩
  | @renewed _ i old hold =>
    obtain ⟨rfl, rfl⟩ | hother := hset hw
    · exact .inl ⟨old, hold, hpc⟩
    · exact .inl ⟨worker, hother, hpc⟩
  | ended =>
    obtain ⟨-, rfl⟩ | hold := hset hw
    · cases hpc
    · exact .inl ⟨worker, hold, hpc⟩

end Step

end NovaPay.Payroll
