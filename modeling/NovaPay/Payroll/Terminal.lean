import NovaPay.Payroll.Checkpoints

/-!
# Terminal jobs

`process` reads the status of a job before it has the lease of the employer, and writes it without a
condition afterwards. A job stays terminal as long as no worker writes the status of a terminal job.
-/

namespace NovaPay.Payroll

open DecimalArithmetic Relational TransitionSystem

/-- The two statements that write the status of a job. -/
def Statement.writesStatus : Statement → Bool
  | .markProcessing | .finalizeWrite _ => true
  | _ => false

/-- The job whose status a worker is about to write is open. -/
def WritesOpenJob (s : State) : Action → Prop
  | .run w _ => ∀ worker job leaseToken statement, s.workers w = some worker →
    worker.pc = some (.leased job leaseToken statement) → statement.writesStatus = true →
    ∀ row ∈ s.store.jobs.rows, row.id = job.id → row.status.terminal = false
  | _ => True

/-- The status and the completion of a terminal job stay. -/
structure TerminalKept (job row : PayrollJob) : Prop where
  id : row.id = job.id
  status : job.status.terminal = true → row.status = job.status
  completedAt : job.status.terminal = true → row.completedAt = job.completedAt

theorem TerminalKept.refl (job : PayrollJob) : TerminalKept job job := ⟨rfl, fun _ => rfl, fun _ => rfl⟩

theorem TerminalKept.trans {job row row' : PayrollJob} (h : TerminalKept job row)
    (k : TerminalKept row row') : TerminalKept job row' := by
  refine ⟨k.id.trans h.id, fun ht => ?_, fun ht => ?_⟩
  · have hstatus := h.status ht
    exact (k.status (hstatus ▸ ht)).trans hstatus
  · exact (k.completedAt (h.status ht ▸ ht)).trans (h.completedAt ht)

def JobsKept (store store' : Store) : Prop :=
  ∀ job ∈ store.jobs.rows, ∃ row ∈ store'.jobs.rows, TerminalKept job row

variable {s s' : State} {a : Action} {store store' : Store} {job : PayrollJob} {c : Choice}

theorem JobsKept.of_eq (h : store'.jobs = store.jobs) : JobsKept store store' := fun job hj =>
  ⟨job, by rwa [h], .refl job⟩

/-- An update that keeps the two columns of the rows it matches, or matches open rows only. -/
theorem JobsKept.of_update {p : PayrollJob → Bool} {data : PayrollJob → PayrollJob}
    (hrows : store'.jobs.rows = updateWhere p data store.jobs.rows)
    (hid : ∀ job, (data job).id = job.id)
    (hdata : ∀ job ∈ store.jobs.rows, p job = true → job.status.terminal = true →
      (data job).status = job.status ∧ (data job).completedAt = job.completedAt) :
    JobsKept store store' := by
  intro job hj
  rw [hrows]
  refine exists_updateWhere TerminalKept.refl (fun job hj hp => ?_) job hj
  exact ⟨hid job, fun ht => (hdata job hj hp ht).1, fun ht => (hdata job hj hp ht).2⟩

theorem updateJob_kept {jobId : Uuid} {data : PayrollJob → PayrollJob}
    (h : updateJob store jobId data = .ok store') (hid : ∀ job, (data job).id = job.id)
    (hdata : ∀ job ∈ store.jobs.rows, job.id = jobId → job.status.terminal = true →
      (data job).status = job.status ∧ (data job).completedAt = job.completedAt) :
    JobsKept store store' :=
  .of_update (updateJob_ok h).1 hid fun job hj hp => hdata job hj (of_decide_eq_true hp)

/-- A write of the status, where the job is open. -/
theorem updateJob_open {data : PayrollJob → PayrollJob} {jobId : Uuid}
    (h : updateJob store jobId data = .ok store') (hid : ∀ job, (data job).id = job.id)
    (hopen : ∀ row ∈ store.jobs.rows, row.id = jobId → row.status.terminal = false) :
    JobsKept store store' := by
  refine updateJob_kept h hid fun row hr hrow ht => ?_
  rw [hopen row hr hrow] at ht
  cases ht

theorem runCheckpoint_kept {leaseLost : Bool} {item : PayrollItem} {verdict : Verdict}
    {transferId : Option Uuid} {failureCode : Option String} {rest : Rest} :
    JobsKept store (runCheckpoint c leaseLost store item verdict transferId failureCode rest).1 := by
  unfold runCheckpoint
  split
  · next hcheckpoint =>
    obtain ⟨⟨items, count⟩, -, h⟩ := bind_eq_ok hcheckpoint
    dsimp only at h
    split at h
    · have hkept : JobsKept { store with items } _ :=
        updateJob_kept h (fun job => (count_same job verdict).id.symm) fun job _ _ _ => by
          cases verdict <;> exact ⟨rfl, rfl⟩
      exact hkept
    · cases h
      exact .of_eq rfl
  · exact .of_eq rfl

theorem advance_kept {leaseLost : Bool} {statement : Statement}
    (hopen : statement.writesStatus = true →
      ∀ row ∈ store.jobs.rows, row.id = job.id → row.status.terminal = false) :
    JobsKept store (advance c leaseLost store job statement).1 := by
  cases statement with
  | markProcessing =>
    change JobsKept store (runMarkProcessing c store job).1
    unfold runMarkProcessing
    split
    · next hupdate => exact updateJob_open hupdate (fun _ => rfl) (hopen rfl)
    · exact .of_eq rfl
  | finalizeWrite status =>
    change JobsKept store (runFinalizeWrite c store job status).1
    unfold runFinalizeWrite
    split
    · next hupdate => exact updateJob_open hupdate (fun _ => rfl) (hopen rfl)
    · exact .of_eq rfl
  | checkpoint item verdict transferId failureCode rest => exact runCheckpoint_kept
  | reclaim item items =>
    change JobsKept store (runReclaim c leaseLost store item items).1
    unfold runReclaim
    split <;> exact .of_eq rfl
  | claim item candidates claimed =>
    change JobsKept store (runClaim c leaseLost store item candidates claimed).1
    unfold runClaim
    split <;> exact .of_eq rfl
  | noteTransfer item transferId =>
    change JobsKept store (runNoteTransfer store item transferId).1
    unfold runNoteTransfer
    split <;> exact .of_eq rfl
  | _ => exact .of_eq rfl

/-- A read of a terminal job ends its run, and what stands outside the workers never writes the status
of one. -/
theorem step_kept (hopen : WritesOpenJob s a) (h : step s a = some s') : JobsKept s.store s'.store := by
  cases a with
  | submit jobId itemIds employerId command =>
    obtain ⟨store, hstore, rfl⟩ := toOption_map_eq_some h
    obtain ⟨rows, total, hcreated, -⟩ := createJob_ok hstore
    intro row hr
    refine ⟨row, ?_, .refl row⟩
    change row ∈ store.jobs.rows
    rw [hcreated.jobs]
    exact List.mem_append_left _ hr
  | enqueue jobId =>
    obtain ⟨⟨jobs, n⟩, hjobs, rfl⟩ := toOption_map_eq_some h
    refine .of_update (Table.updateMany_ok hjobs).1 (fun _ => rfl) fun job _ hp ht => ?_
    simp only [enqueueable, Bool.and_eq_true, Bool.or_eq_true, decide_eq_true_eq] at hp
    rcases hp.2 with hstatus | hstatus
    · rw [hstatus] at ht
      cases ht
    · rw [hstatus] at ht
      cases ht
  | enqueueFailed jobId =>
    obtain ⟨store, hstore, rfl⟩ := toOption_map_eq_some h
    exact updateJob_kept hstore (fun _ => rfl) fun _ _ _ _ => ⟨rfl, rfl⟩
  | noteQueueFailure jobId =>
    obtain ⟨⟨jobs, n⟩, hjobs, rfl⟩ := toOption_map_eq_some h
    exact .of_update (Table.updateMany_ok hjobs).1 (fun _ => rfl) fun _ _ _ _ => ⟨rfl, rfl⟩
  | run w choice =>
    simp only [step] at h
    split at h
    · next worker hw =>
      obtain ⟨pc, hpc, rfl⟩ := Option.map_eq_some_iff.mp h
      unfold runWorker
      split
      · exact .of_eq rfl
      · split <;> exact .of_eq rfl
      · split <;> exact .of_eq rfl
      · exact advance_kept (hopen _ _ _ _ hw hpc)
    · cases h
  | start w jobId =>
    simp only [step] at h
    split at h
    · cases h
      exact .of_eq rfl
    · cases h
  | renew w failed =>
    simp only [step] at h
    split at h
    · split at h
      · split at h <;> cases h <;> exact .of_eq rfl
      · cases h
    · cases h
  | expire employerId =>
    cases h
    exact .of_eq rfl
  | stop w =>
    simp only [step] at h
    split at h
    · cases h
      exact .of_eq rfl
    · cases h

/-- In a run that writes the status of open jobs only, a terminal job keeps its status and the time of
its completion. -/
theorem terminal_jobs_stay (h : system.StepsBy WritesOpenJob s s') (hj : job ∈ s.store.jobs.rows)
    (hterminal : job.status.terminal = true) : ∃ row ∈ s'.store.jobs.rows,
      row.id = job.id ∧ row.status = job.status ∧ row.completedAt = job.completedAt := by
  suffices hkept : JobsKept s.store s'.store by
    obtain ⟨row, hr, hk⟩ := hkept job hj
    exact ⟨row, hr, hk.id, hk.status hterminal, hk.completedAt hterminal⟩
  induction h with
  | refl => exact .of_eq rfl
  | tail _ hlast ih =>
    obtain ⟨a, hopen, ha⟩ := hlast
    intro job hj
    obtain ⟨row, hr, hk⟩ := ih job hj
    obtain ⟨row', hr', hk'⟩ := step_kept hopen ha row hr
    exact ⟨row', hr', hk.trans hk'⟩

def writesOpenJob (s : State) : Action → Bool
  | .run w _ =>
    match s.workers w with
    | some ⟨_, _, _, some (.leased job _ statement)⟩ => !statement.writesStatus ||
      s.store.jobs.rows.all fun row => decide (row.id ≠ job.id) || !row.status.terminal
    | _ => true
  | _ => true

theorem writesOpenJob_sound (h : writesOpenJob s a = true) : WritesOpenJob s a := by
  cases a with
  | run w choice =>
    rintro ⟨jobId, leaseLost, call, pc⟩ job leaseToken statement hw hpc hwrites row hr hid
    obtain rfl : pc = _ := hpc
    simp only [writesOpenJob, hw, hwrites, Bool.not_true, Bool.false_or, List.all_eq_true,
      Bool.or_eq_true, decide_eq_true_eq] at h
    simpa using (h row hr).resolve_left (not_not.mpr hid)
  | _ => trivial

/-- The statements of a worker that finds the one item of its job, pays it and finalizes the job. -/
def payingChoices (token date : ℕ) : List Choice :=
  [{}, { token }, {}, {}, {}, { token := token + 1 },
    { reply := .ok ⟨some 900, some .completed, none⟩ }, {}, {}, {}, { date }, {}]

/-- A job from its submission to its completion. -/
def completedRun : List Action :=
  [.submit 1 (fun sequence => 10 + sequence) "employer-a" payrollCommand, .start 0 1] ++
    runs 0 (payingChoices 100 7)

/-- A second delivery of the job, and the notes of its queue. -/
def redeliveredRun : List Action :=
  [.enqueueFailed 1, .start 1 1, .run 1 {}, .noteQueueFailure 1, .enqueue 1]

/-- The theorem for `redeliveredRun` after `completedRun`. -/
theorem terminal_jobs_stay_redeliveredRun : ∃ s s', system.run .initial completedRun = some s ∧
    system.run s redeliveredRun = some s' ∧
    ∃ job ∈ s.store.jobs.rows, job.status = .completed ∧ ∃ row ∈ s'.store.jobs.rows,
      row.id = job.id ∧ row.status = job.status ∧ row.completedAt = job.completedAt := by
  have hrun : ((system.run .initial completedRun).bind fun s =>
      (system.runWhere writesOpenJob s redeliveredRun).map fun _ =>
        s.store.jobs.rows.map fun job => (job.status, job.completedAt)) =
      some [(.completed, some 7)] := by decide +kernel
  obtain ⟨s, hs, hrun⟩ := Option.bind_eq_some_iff.mp hrun
  obtain ⟨s', hs', hrows⟩ := Option.map_eq_some_iff.mp hrun
  obtain ⟨job, hj, heq⟩ := List.mem_map.mp (hrows ▸ List.mem_cons_self)
  have hstatus : job.status = .completed := congrArg Prod.fst heq
  refine ⟨s, s', hs, System.run_of_runWhere hs', job, hj, hstatus, ?_⟩
  exact terminal_jobs_stay (System.stepsBy_of_runWhere (fun _ _ => writesOpenJob_sound) hs') hj
    (by rw [hstatus]; rfl)

/-- Two workers read the job before one of them completes it, and the other one takes the lease next. -/
def overlappingRun : List Action :=
  [.submit 1 (fun sequence => 10 + sequence) "employer-a" payrollCommand, .start 0 1, .start 1 1,
    .run 1 {}] ++ runs 0 (payingChoices 100 7)

/-- The second worker marks the completed job as processing. -/
theorem second_worker_reopens : ¬ ∀ s s' job, system.Reachable s → system.Steps s s' →
    job ∈ s.store.jobs.rows → job.status.terminal = true → ∃ row ∈ s'.store.jobs.rows,
      row.id = job.id ∧ row.status = job.status ∧ row.completedAt = job.completedAt := by
  intro hall
  have hrun : ((system.run .initial overlappingRun).bind fun s =>
      (system.run s (runs 1 [{ token := 200 }, {}])).map fun s' =>
        (s.store.jobs.rows.map PayrollJob.status, s'.store.jobs.rows.map PayrollJob.status)) =
      some ([.completed], [.processing]) := by decide +kernel
  obtain ⟨s, hs, hrun⟩ := Option.bind_eq_some_iff.mp hrun
  obtain ⟨s', hs', heq⟩ := Option.map_eq_some_iff.mp hrun
  obtain ⟨hbefore, hafter⟩ := Prod.mk.inj heq
  obtain ⟨job, hj, hstatus⟩ := List.mem_map.mp (hbefore ▸ List.mem_cons_self)
  obtain ⟨row, hr, -, hkept, -⟩ := hall s s' job (System.reachable_of_run hs)
    (System.steps_of_run hs') hj (by rw [hstatus]; rfl)
  have hmem := List.mem_map_of_mem (f := PayrollJob.status) hr
  rw [hafter, List.mem_singleton, hkept, hstatus] at hmem
  cases hmem

end NovaPay.Payroll
