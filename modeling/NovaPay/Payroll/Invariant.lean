import NovaPay.Payroll.Changes

/-!
# What a worker knows

The job and the items that a worker works with are rows it read before; what it relies on of them
never changes, and the items it executes carry the token of a claim. All of it survives the steps of
other workers, because rows only progress.
-/

namespace NovaPay.Payroll

open DecimalArithmetic Relational TransitionSystem

variable {store store' : Store} {job : PayrollJob} {item : PayrollItem} {c : Choice} {leaseLost : Bool}

/-- `job` was the row of its job once. -/
def JobKnown (store : Store) (job : PayrollJob) : Prop := ∃ row ∈ store.jobs.rows, SameJob job row

/-- `item` was the row of an item of the job once. -/
def Known (store : Store) (job : PayrollJob) (item : PayrollItem) : Prop :=
  item.payrollJobId = job.id ∧ ∃ row ∈ store.items.rows, SameItem item row

def Claimed (store : Store) (job : PayrollJob) (item : PayrollItem) : Prop :=
  Known store job item ∧ item.processingToken.isSome = true

/-- The job is settled, and its counts give the status. -/
def Decided (store : Store) (job : PayrollJob) (status : PayrollJobStatus) : Prop :=
  ∃ row ∈ store.jobs.rows, row.id = job.id ∧ row.Settled ∧ status = row.finalStatus

def Rest.Ok (store : Store) (job : PayrollJob) : Rest → Prop
  | .reconciling items => ∀ i ∈ items, Known store job i
  | .batch items => ∀ i ∈ items, Claimed store job i

/-- What the code before a statement leaves for it. -/
def Statement.Ok (store : Store) (job : PayrollJob) : Statement → Prop
  | .reclaim item items => Known store job item ∧ ∀ i ∈ items, Known store job i
  | .claim item candidates claimed =>
    Known store job item ∧ (∀ i ∈ candidates, Known store job i) ∧ ∀ i ∈ claimed, Claimed store job i
  | .createDomestic item rest => Claimed store job item ∧ rest.Ok store job
  | .noteTransfer item _ => Claimed store job item
  | .checkpoint item _ _ _ rest => Claimed store job item ∧ rest.Ok store job
  | .finalizeWrite status => Decided store job status
  | _ => True

namespace Evolves

theorem jobKnown (h : Evolves store store') (hj : JobKnown store job) : JobKnown store' job := by
  obtain ⟨row, hr, hsame⟩ := hj
  obtain ⟨row', hr', hp⟩ := h.jobs row hr
  exact ⟨row', hr', hsame.trans hp.same⟩

theorem known (h : Evolves store store') (hi : Known store job item) : Known store' job item := by
  obtain ⟨hjob, row, hr, hsame⟩ := hi
  obtain ⟨row', hr', hp⟩ := h.items row hr
  exact ⟨hjob, row', hr', hsame.trans hp.same⟩

theorem claimed (h : Evolves store store') (hi : Claimed store job item) : Claimed store' job item :=
  ⟨h.known hi.1, hi.2⟩

theorem decided (h : Evolves store store') {status : PayrollJobStatus} (hd : Decided store job status) :
    Decided store' job status := by
  obtain ⟨row, hr, hid, hsettled, hstatus⟩ := hd
  obtain ⟨row', hr', hp⟩ := h.jobs row hr
  obtain ⟨hsettled', hfinal⟩ := hp.settled_of_settled hsettled
  exact ⟨row', hr', hp.same.id.symm.trans hid, hsettled', hstatus.trans hfinal.symm⟩

theorem restOk (h : Evolves store store') {rest : Rest} (hr : rest.Ok store job) :
    rest.Ok store' job := by
  cases rest with
  | reconciling items => exact fun i hi => h.known (hr i hi)
  | batch items => exact fun i hi => h.claimed (hr i hi)

theorem statementOk (h : Evolves store store') {statement : Statement} (hs : statement.Ok store job) :
    statement.Ok store' job := by
  cases statement with
  | reclaim item items => exact ⟨h.known hs.1, fun i hi => h.known (hs.2 i hi)⟩
  | claim item candidates claimed =>
    exact ⟨h.known hs.1, fun i hi => h.known (hs.2.1 i hi), fun i hi => h.claimed (hs.2.2 i hi)⟩
  | createDomestic item rest => exact ⟨h.claimed hs.1, h.restOk hs.2⟩
  | noteTransfer item transferId => exact h.claimed hs
  | checkpoint item verdict transferId failureCode rest => exact ⟨h.claimed hs.1, h.restOk hs.2⟩
  | finalizeWrite status => exact h.decided hs
  | _ => trivial

end Evolves

theorem leases_change (store : Store) (leases : Principal → Option Uuid) :
    Change store { store with leases } := .leases rfl rfl

/-! Where the code goes on. -/

theorem enterBatch_ok : (enterBatch leaseLost).Ok store job := by
  unfold enterBatch
  split <;> trivial

theorem nextItem_ok {rest : Rest} (h : rest.Ok store job) : (nextItem leaseLost rest).Ok store job := by
  match rest with
  | .reconciling [] | .batch [] => exact enterBatch_ok
  | .reconciling (item :: items) =>
    exact ⟨h item List.mem_cons_self, fun i hi => h i (List.mem_cons_of_mem _ hi)⟩
  | .batch (item :: items) =>
    rw [nextItem]
    split
    · trivial
    · exact ⟨h item List.mem_cons_self, fun i hi => h i (List.mem_cons_of_mem _ hi)⟩

theorem nextCandidate_ok {claimed candidates : List PayrollItem}
    (hclaimed : ∀ i ∈ claimed, Claimed store job i) (hknown : ∀ i ∈ candidates, Known store job i) :
    (nextCandidate leaseLost claimed candidates).Ok store job := by
  match candidates with
  | item :: candidates =>
    exact ⟨hknown item List.mem_cons_self, fun i hi => hknown i (List.mem_cons_of_mem _ hi), hclaimed⟩
  | [] =>
    rw [nextCandidate]
    split
    · trivial
    · exact nextItem_ok hclaimed

theorem checkpointResponse_ok {rest : Rest} {transfer : TransferBody} (hi : Claimed store job item)
    (hr : rest.Ok store job) : (checkpointResponse item rest transfer).Ok store job := by
  unfold checkpointResponse
  split
  · exact ⟨hi, hr⟩
  · exact ⟨hi, hr⟩
  · exact ⟨hi, hr⟩
  · exact hi

theorem executeItem_ok {rest : Rest} {reply : TransferReply} (hi : Claimed store job item)
    (hr : rest.Ok store job) : (executeItem item rest reply).Ok store job := by
  cases reply with
  | ok body => exact checkpointResponse_ok hi hr
  | http status code body =>
    rw [executeItem]
    split
    · exact checkpointResponse_ok hi hr
    · split
      · exact ⟨hi, hr⟩
      · trivial
  | unavailable => trivial

theorem known_of_selectItems {status : PayrollItemStatus} (hid : item ∈ selectItems store job.id status) :
    Known store job item := by
  rw [selectItems, List.mem_insertionSort, List.mem_filter] at hid
  obtain ⟨hmem, h⟩ := hid
  simp only [Bool.and_eq_true, decide_eq_true_eq] at h
  exact ⟨h.1, item, hmem, .refl item⟩

theorem runFinalizeRead_ok : (runFinalizeRead store job).Ok store job := by
  unfold runFinalizeRead
  split
  · next row hrow =>
    obtain ⟨hmem, hid⟩ := Store.findJob_eq_some_iff.mp hrow
    split
    · trivial
    · next hsettled => exact ⟨row, hmem, hid, not_not.mp hsettled, rfl⟩
  · trivial

/-! What the statements write. -/

theorem updateJob_ok {jobId : Uuid} {data : PayrollJob → PayrollJob}
    (h : updateJob store jobId data = .ok store') :
    store'.jobs.rows = updateWhere (fun job => decide (job.id = jobId)) data store.jobs.rows ∧
      store'.items = store.items := by
  obtain ⟨⟨jobs, count⟩, hjobs, h⟩ := bind_eq_ok h
  obtain ⟨hrows, -, -⟩ := Table.updateMany_ok hjobs
  dsimp only at h
  split at h
  · cases h
    exact ⟨hrows, rfl⟩
  · cases h

/-- The effect of a statement and what it leaves for the next. -/
def StatementOk (store : Store) (job : PayrollJob) (after : Store × Statement) : Prop :=
  Change store after.1 ∧ (Agrees store → after.2.Ok after.1 job)

theorem StatementOk.read {statement : Statement} (h : statement.Ok store job) :
    StatementOk store job (store, statement) := ⟨.leases rfl rfl, fun _ => h⟩

theorem StatementOk.write {statement : Statement} (hc : Change store store')
    (h : Evolves store store' → statement.Ok store' job) : StatementOk store job (store', statement) :=
  ⟨hc, fun ha => h (hc.evolves ha)⟩

theorem runMarkProcessing_ok : StatementOk store job (runMarkProcessing c store job) := by
  unfold runMarkProcessing
  split
  · next hupdate =>
    obtain ⟨hjobs, hitems⟩ := updateJob_ok hupdate
    refine .write (.jobs _ _ ?_ hjobs hitems) fun _ => trivial
    exact ⟨fun _ => ⟨rfl, rfl, rfl, rfl⟩, fun _ => ⟨rfl, rfl⟩, fun _ _ _ => .inr (.inl rfl)⟩
  · exact .read trivial

theorem runFinalizeWrite_ok {status : PayrollJobStatus} (hd : Decided store job status) :
    StatementOk store job (runFinalizeWrite c store job status) := by
  unfold runFinalizeWrite
  split
  · next hupdate =>
    obtain ⟨hjobs, hitems⟩ := updateJob_ok hupdate
    refine .write (.jobs _ _ ?_ hjobs hitems) fun _ => trivial
    refine ⟨fun _ => ⟨rfl, rfl, rfl, rfl⟩, fun _ => ⟨rfl, rfl⟩, fun row hr hid => ?_⟩
    obtain ⟨decided, hmem, hdid, hsettled, rfl⟩ := hd
    obtain rfl := store.job_eq hr hmem ((of_decide_eq_true hid).trans hdid.symm)
    exact .inr (.inr ⟨hsettled, rfl⟩)
  · exact .read trivial

theorem runReclaim_ok {items : List PayrollItem} (hi : Known store job item)
    (hitems : ∀ i ∈ items, Known store job i) :
    StatementOk store job (runReclaim c leaseLost store item items) := by
  unfold runReclaim
  split
  · next rows count hupdate =>
    obtain ⟨hrows, -, -⟩ := Table.updateMany_ok hupdate
    refine .write (.items _ _ ?_ hrows rfl) fun hev => ?_
    · refine ⟨fun _ => ⟨rfl, rfl, rfl, rfl, rfl, rfl⟩, fun row _ hp => ?_, fun _ _ _ _ _ => rfl⟩
      simp only [Bool.and_eq_true, decide_eq_true_eq] at hp
      simp [PayrollItem.reclaim, hp.2, PayrollItemStatus.terminal]
    · split
      · refine ⟨⟨⟨hi.1, ?_⟩, rfl⟩, fun i hmem => hev.known (hitems i hmem)⟩
        obtain ⟨-, row, hr, hsame⟩ := hev.known hi
        exact ⟨row, hr, ⟨hsame.id, hsame.payrollJobId, hsame.recipientWalletId, hsame.amount,
          hsame.currency, hsame.transferIdempotencyKey⟩⟩
      · exact nextItem_ok fun i hmem => hev.known (hitems i hmem)
  · exact .read trivial

theorem runClaim_ok {candidates claimed : List PayrollItem} (hi : Known store job item)
    (hcandidates : ∀ i ∈ candidates, Known store job i) (hclaimed : ∀ i ∈ claimed, Claimed store job i) :
    StatementOk store job (runClaim c leaseLost store item candidates claimed) := by
  unfold runClaim
  split
  · next rows count hupdate =>
    obtain ⟨hrows, -, -⟩ := Table.updateMany_ok hupdate
    refine .write (.items _ _ ?_ hrows rfl) fun hev =>
      nextCandidate_ok ?_ fun i hmem => hev.known (hcandidates i hmem)
    · refine ⟨fun _ => ⟨rfl, rfl, rfl, rfl, rfl, rfl⟩, fun row _ hp => ?_, fun _ _ _ _ _ => rfl⟩
      simp only [Bool.and_eq_true, decide_eq_true_eq] at hp
      simp [PayrollItem.claim, hp.2, PayrollItemStatus.terminal]
    · intro i hmem
      split at hmem
      · obtain hmem | hmem := List.mem_append.mp hmem
        · exact hev.claimed (hclaimed i hmem)
        · obtain rfl := List.mem_singleton.mp hmem
          obtain ⟨hjob, row, hr, hsame⟩ := hev.known hi
          exact ⟨⟨hjob, row, hr, ⟨hsame.id, hsame.payrollJobId, hsame.recipientWalletId, hsame.amount,
            hsame.currency, hsame.transferIdempotencyKey⟩⟩, rfl⟩
      · exact hev.claimed (hclaimed i hmem)
  · exact .read trivial

theorem runNoteTransfer_ok {transferId : Option Uuid} :
    StatementOk store job (runNoteTransfer store item transferId) := by
  unfold runNoteTransfer
  split
  · next rows count hupdate =>
    obtain ⟨hrows, -, -⟩ := Table.updateMany_ok hupdate
    refine .write (.items _ _ ?_ hrows rfl) fun _ => trivial
    refine ⟨fun _ => ⟨rfl, rfl, rfl, rfl, rfl, rfl⟩, fun row _ hp => ?_, fun _ _ _ htoken => htoken⟩
    obtain ⟨-, hprocessing, -⟩ := heldBy_processing hp
    simp [PayrollItem.noteTransfer, hprocessing, PayrollItemStatus.terminal]
  · exact .read trivial

/-- A checkpoint leaves everything as it is, or it makes the item terminal that the worker holds. -/
theorem checkpoint_ok {verdict : Verdict} {transferId : Option Uuid} {failureCode : Option String}
    {date : Date} (h : checkpoint store item verdict transferId failureCode date = .ok store') :
    (store'.items.rows = store.items.rows ∧ store'.jobs = store.jobs) ∨
      ∃ row ∈ store.items.rows, heldBy item row = true ∧
        store'.items.rows = updateWhere (heldBy item)
          (fun row => row.checkpoint verdict transferId failureCode date) store.items.rows ∧
        store'.jobs.rows = updateWhere (fun job => decide (job.id = item.payrollJobId))
          (fun job => job.count verdict) store.jobs.rows := by
  obtain ⟨⟨items, count⟩, hitems, h⟩ := bind_eq_ok h
  obtain ⟨hrows, hcount, -⟩ := Table.updateMany_ok hitems
  dsimp only at h
  split at h
  · next hone =>
    obtain ⟨hjobs, hsame⟩ := updateJob_ok h
    have hpos : 0 < store.items.rows.countP (heldBy item) := by omega
    obtain ⟨row, hr, hheld⟩ := List.countP_pos_iff.mp hpos
    exact .inr ⟨row, hr, hheld, by rw [hsame]; exact hrows, hjobs⟩
  · next hone =>
    cases h
    have hle : store.items.rows.countP (heldBy item) ≤ 1 :=
      countP_le_one_of_uniqueBy store.item_ids fun r hr => (heldBy_processing hr).1
    have hzero : ∀ r ∈ store.items.rows, heldBy item r = false :=
      Table.count_eq_zero_iff.mp (by omega)
    exact .inl ⟨hrows.trans (updateWhere_of_none hzero), rfl⟩

theorem runCheckpoint_ok {verdict : Verdict} {transferId : Option Uuid} {failureCode : Option String}
    {rest : Rest} (hi : Claimed store job item) (hrest : rest.Ok store job) :
    StatementOk store job (runCheckpoint c leaseLost store item verdict transferId failureCode rest) := by
  unfold runCheckpoint
  split
  · next hcheckpoint =>
    refine .write ?_ fun hev => nextItem_ok (hev.restOk hrest)
    obtain ⟨hitems, hjobs⟩ | ⟨row, hr, hheld, hitems, hjobs⟩ := checkpoint_ok hcheckpoint
    · exact .leases hjobs (Table.ext_rows hitems)
    · obtain ⟨-, known, hk, hsame⟩ := hi.1
      obtain rfl := store.item_eq hk hr (hsame.id.symm.trans (heldBy_processing hheld).1.symm)
      exact .checkpoint item known verdict transferId failureCode c.date hr hheld hsame.payrollJobId
        hitems hjobs
  · exact .read trivial

theorem advance_ok {statement : Statement} (hs : statement.Ok store job) :
    StatementOk store job (advance c leaseLost store job statement) := by
  cases statement with
  | markProcessing => exact runMarkProcessing_ok
  | reconcileRead => exact .read (nextItem_ok fun i hi => known_of_selectItems hi)
  | reclaim item items => exact runReclaim_ok hs.1 hs.2
  | batchRead =>
    refine .read (nextCandidate_ok (fun i hi => absurd hi (List.not_mem_nil)) fun i hi => ?_)
    exact known_of_selectItems (List.mem_of_mem_take hi)
  | claim item candidates claimed => exact runClaim_ok hs.1 hs.2.1 hs.2.2
  | createDomestic item rest => exact .read (executeItem_ok hs.1 hs.2)
  | noteTransfer item transferId => exact runNoteTransfer_ok
  | checkpoint item verdict transferId failureCode rest => exact runCheckpoint_ok hs.1 hs.2
  | finalizeRead => exact .read runFinalizeRead_ok
  | finalizeWrite status => exact runFinalizeWrite_ok hs
  | release => exact .read trivial

/-- A call was made for an item of a job, as its rows say. -/
def CallOk (store : Store) (entry : Uuid × TransferCall) : Prop :=
  ∃ item ∈ store.items.rows, item.id = entry.1 ∧
    ∃ job ∈ store.jobs.rows, job.id = item.payrollJobId ∧ entry.2 = transferCall job item

theorem Evolves.callOk (h : Evolves store store') {entry : Uuid × TransferCall}
    (hc : CallOk store entry) : CallOk store' entry := by
  obtain ⟨item, hi, hid, job, hj, hjob, hcall⟩ := hc
  obtain ⟨item', hi', hp⟩ := h.items item hi
  obtain ⟨job', hj', hq⟩ := h.jobs job hj
  exact ⟨item', hi', hp.same.id.symm.trans hid, job', hj',
    hq.same.id.symm.trans (hjob.trans hp.same.payrollJobId), hcall.trans (transferCall_same hq.same hp.same)⟩

/-- A worker that waits for Transaction waits for its latest call. -/
def PcOk (store : Store) (calls : List (Uuid × TransferCall)) (call : ℕ) : Pc → Prop
  | .findJob => True
  | .acquire job => JobKnown store job
  | .leased job _ statement => JobKnown store job ∧ statement.Ok store job ∧
      ∀ entry, statement.call job = some entry → calls[call]? = some entry

theorem PcOk.mono (h : Evolves store store') {calls : List (Uuid × TransferCall)} {call : ℕ} {pc : Pc}
    (hpc : PcOk store calls call pc) : PcOk store' calls call pc := by
  cases pc with
  | findJob => trivial
  | acquire job => exact h.jobKnown hpc
  | leased job leaseToken statement => exact ⟨h.jobKnown hpc.1, h.statementOk hpc.2.1, hpc.2.2⟩

theorem PcOk.append {calls : List (Uuid × TransferCall)} {call : ℕ} {pc : Pc}
    (hpc : PcOk store calls call pc) (new : List (Uuid × TransferCall)) :
    PcOk store (calls ++ new) call pc := by
  cases pc with
  | findJob => trivial
  | acquire job => exact hpc
  | leased job leaseToken statement =>
    refine ⟨hpc.1, hpc.2.1, fun entry hentry => ?_⟩
    have hcall := hpc.2.2 entry hentry
    obtain ⟨hlt, -⟩ := List.getElem?_eq_some_iff.mp hcall
    rw [List.getElem?_append_left hlt, hcall]

/-- The invariant of the service: tables that agree, and workers and calls as they should be. -/
structure Invariant (s : State) : Prop where
  agrees : Agrees s.store
  workers : ∀ w worker pc, s.workers w = some worker → worker.pc = some pc →
    PcOk s.store s.calls worker.call pc
  calls : ∀ entry ∈ s.calls, CallOk s.store entry

section Step

variable {s s' : State} {a : Action} {w : WorkerId} {worker : Worker}

theorem invariant_initial : Invariant .initial :=
  ⟨agrees_empty, by simp [State.initial], by simp [State.initial]⟩

theorem Invariant.withStore (hi : Invariant s) (ha : Agrees store) (hev : Evolves s.store store) :
    Invariant (s.withStore store) := by
  exact ⟨ha, fun w worker pc hw hpc => (hi.workers w worker pc hw hpc).mono hev,
    fun entry hentry => hev.callOk (hi.calls entry hentry)⟩

theorem Invariant.withChange (hi : Invariant s) (hc : Change s.store store) :
    Invariant (s.withStore store) := hi.withStore (hc.agrees hi.agrees) (hc.evolves hi.agrees)

theorem Invariant.setWorker (hi : Invariant s)
    (hpc : ∀ pc, worker.pc = some pc → PcOk s.store s.calls worker.call pc) :
    Invariant (s.setWorker w worker) := by
  refine ⟨hi.agrees, fun i worker' pc hw hpc' => ?_, hi.calls⟩
  by_cases hiw : i = w
  · subst hiw
    rw [State.setWorker_workers_self] at hw
    cases hw
    exact hpc pc hpc'
  · rw [State.setWorker_workers_of_ne hiw] at hw
    exact hi.workers i worker' pc hw hpc'

theorem callOk_of_statement {statement : Statement} (hj : JobKnown store job)
    (hs : statement.Ok store job) {entry : Uuid × TransferCall} (h : statement.call job = some entry) :
    CallOk store entry := by
  cases statement with
  | createDomestic item rest =>
    obtain rfl := Option.some.inj h
    obtain ⟨⟨hid, row, hr, hsame⟩, -⟩ := hs.1
    obtain ⟨jobRow, hjr, hjsame⟩ := hj
    exact ⟨row, hr, hsame.id.symm, jobRow, hjr,
      hjsame.id.symm.trans (hid.symm.trans hsame.payrollJobId), transferCall_same hjsame hsame⟩
  | _ => cases h

theorem Invariant.proceed (hi : Invariant s) {leaseToken : Uuid} {statement : Statement}
    (hj : JobKnown s.store job) (hs : statement.Ok s.store job) :
    Invariant (s.proceed w worker job leaseToken statement) := by
  refine ⟨hi.agrees, fun i worker' pc hw hpc => ?_, fun entry hentry => ?_⟩
  · by_cases hiw : i = w
    · subst hiw
      rw [State.proceed_workers_self] at hw
      cases hw
      cases hpc
      refine ⟨hj, hs, fun entry hcall => ?_⟩
      simp [State.proceed, hcall]
    · rw [State.proceed_workers_of_ne hiw] at hw
      exact (hi.workers i worker' pc hw hpc).append _
  · obtain hentry | hentry := List.mem_append.mp hentry
    · exact hi.calls entry hentry
    · exact callOk_of_statement hj hs (by simpa using hentry)

theorem createJob_ok {jobId : Uuid} {itemIds : ℕ → Uuid} {employerId : Principal}
    {command : CreatePayrollJob} (h : createJob store jobId itemIds employerId command = .ok store') :
    ∃ rows total, Created store store' (jobRow jobId employerId command rows total) rows ∧
      ∀ item ∈ rows, ∃ input ∈ command.items.zipIdx, item.id = itemIds input.2 := by
  obtain ⟨rows, hrows, h⟩ := bind_eq_ok h
  split at h
  · cases h
  · next total htotal =>
    obtain ⟨jobs, hjobs, h⟩ := bind_eq_ok h
    obtain ⟨items, hitems, h⟩ := bind_eq_ok h
    cases h
    have hrow : ∀ item ∈ rows, (∃ input ∈ command.items.zipIdx, item.id = itemIds input.2) ∧
        item.payrollJobId = jobId ∧ item.status = .pending ∧
        item.transferIdempotencyKey = transferIdempotencyKey jobId item.id := by
      intro item hi
      obtain ⟨input, hmem, hrow⟩ := exists_of_forall₂ (mapM_eq_ok hrows) item hi
      unfold itemRow at hrow
      split at hrow
      · cases hrow
      · split at hrow
        · cases hrow
          exact ⟨⟨input, hmem, rfl⟩, rfl, rfl, rfl⟩
        · cases hrow
    exact ⟨rows, total, ⟨Table.insertMany_ok hjobs, Table.insertMany_ok hitems, rfl, rfl, rfl, rfl,
      fun item hi => (hrow item hi).2.1, fun item hi => (hrow item hi).2.2.1,
      fun item hi => (hrow item hi).2.2.2⟩, fun item hi => (hrow item hi).1⟩

/-- An update of jobs that leaves a status as it is or makes it a nonterminal one. -/
theorem jobs_change {p : PayrollJob → Bool} {data : PayrollJob → PayrollJob} {jobs : Table jobsSchema}
    {n : ℕ} (h : store.jobs.updateMany p data = .ok (jobs, n)) (hsame : ∀ job, SameJob job (data job))
    (hcounts : ∀ job, (data job).completedItems = job.completedItems ∧
      (data job).failedItems = job.failedItems)
    (hstatus : ∀ job, (data job).status = job.status ∨ (data job).status.terminal = false) :
    Change store { store with jobs } :=
  .jobs p data ⟨hsame, hcounts, fun job _ _ => (hstatus job).imp id .inl⟩ (Table.updateMany_ok h).1 rfl

/-- What a step does: a submission, a change of jobs or leases from outside a worker, the start of a
worker, its way to the lease, one statement under the lease, or its end. -/
inductive Stepped (s : State) : Action → State → Prop
  | submitted {jobId : Uuid} {itemIds : ℕ → Uuid} {employerId : Principal} {command : CreatePayrollJob}
      {store : Store} : createJob s.store jobId itemIds employerId command = .ok store →
      Stepped s (.submit jobId itemIds employerId command) (s.withStore store)
  | outside {a : Action} {store : Store} : Change s.store store → store.items = s.store.items →
      Stepped s a (s.withStore store)
  | started {w : WorkerId} {jobId : Uuid} : s.workers w = none →
      Stepped s (.start w jobId) (s.setWorker w ⟨jobId, false, 0, some .findJob⟩)
  | read {w : WorkerId} {worker : Worker} {c : Choice} : s.workers w = some worker →
      worker.pc = some .findJob →
      Stepped s (.run w c) (s.setWorker w { worker with pc := readJob s.store worker.jobId })
  | acquired {w : WorkerId} {worker : Worker} {c : Choice} {job : PayrollJob} :
      s.workers w = some worker → worker.pc = some (.acquire job) →
      Stepped s (.run w c) ((s.withStore (setLease s.store job.employerId (some c.token))).proceed w
        worker job c.token .markProcessing)
  | ran {w : WorkerId} {worker : Worker} {c : Choice} {job : PayrollJob} {leaseToken : Uuid}
      {statement : Statement} : s.workers w = some worker →
      worker.pc = some (.leased job leaseToken statement) →
      Stepped s (.run w c) ((s.withStore (advance c worker.leaseLost s.store job statement).1).proceed w
        worker job leaseToken (advance c worker.leaseLost s.store job statement).2)
  | renewed {a : Action} {w : WorkerId} {worker : Worker} : s.workers w = some worker →
      Stepped s a (s.setWorker w { worker with leaseLost := true })
  | ended {a : Action} {w : WorkerId} {worker : Worker} (leases : Principal → Option Uuid) :
      s.workers w = some worker →
      Stepped s a ((s.withStore { s.store with leases }).setWorker w { worker with pc := none })

theorem toOption_map_eq_some {ε α β : Type} {x : Except ε α} {f : α → β} {b : β}
    (h : x.toOption.map f = some b) : ∃ y, x = .ok y ∧ f y = b := by
  obtain ⟨y, hy, hb⟩ := Option.map_eq_some_iff.mp h
  exact ⟨y, Relational.eq_ok_of_toOption hy, hb⟩

theorem step_cases (h : step s a = some s') : Stepped s a s' := by
  cases a with
  | submit jobId itemIds employerId command =>
    obtain ⟨store, hstore, rfl⟩ := toOption_map_eq_some h
    exact .submitted hstore
  | enqueue jobId =>
    obtain ⟨⟨jobs, n⟩, hjobs, rfl⟩ := toOption_map_eq_some h
    exact .outside (jobs_change hjobs (fun _ => ⟨rfl, rfl, rfl, rfl⟩) (fun _ => ⟨rfl, rfl⟩)
      fun _ => .inr rfl) rfl
  | enqueueFailed jobId =>
    obtain ⟨store, hstore, rfl⟩ := toOption_map_eq_some h
    obtain ⟨hjobs, hitems⟩ := updateJob_ok hstore
    refine .outside (.jobs _ _ ?_ hjobs hitems) hitems
    exact ⟨fun _ => ⟨rfl, rfl, rfl, rfl⟩, fun _ => ⟨rfl, rfl⟩, fun _ _ _ => .inl rfl⟩
  | noteQueueFailure jobId =>
    obtain ⟨⟨jobs, n⟩, hjobs, rfl⟩ := toOption_map_eq_some h
    exact .outside (jobs_change hjobs (fun _ => ⟨rfl, rfl, rfl, rfl⟩) (fun _ => ⟨rfl, rfl⟩)
      fun _ => .inl rfl) rfl
  | start w jobId =>
    simp only [step] at h
    split at h
    · next hw =>
      cases h
      exact .started hw
    · cases h
  | run w choice =>
    simp only [step] at h
    split at h
    · next worker hw =>
      obtain ⟨pc, hpc, rfl⟩ := Option.map_eq_some_iff.mp h
      unfold runWorker
      split
      · exact .read hw hpc
      · split
        · exact .ended s.store.leases hw
        · exact .acquired hw hpc
      · split
        · exact .ended _ hw
        · exact .ended s.store.leases hw
      · exact .ran hw hpc
    · cases h
  | renew w failed =>
    simp only [step] at h
    split at h
    · next worker hw =>
      split at h
      · split at h
        · cases h
          exact .renewed hw
        · cases h
          exact .outside (.leases rfl rfl) rfl
      · cases h
    · cases h
  | expire employerId =>
    cases h
    exact .outside (.leases rfl rfl) rfl
  | stop w =>
    simp only [step] at h
    split at h
    · next worker hw =>
      cases h
      exact .ended s.store.leases hw
    · cases h

theorem readJob_ok {jobId : Uuid} {pc : Pc} {calls : List (Uuid × TransferCall)} {call : ℕ}
    (h : readJob store jobId = some pc) : PcOk store calls call pc := by
  unfold readJob at h
  split at h
  · next job hjob =>
    split at h
    · cases h
    · cases h
      exact ⟨job, (Store.findJob_eq_some_iff.mp hjob).1, .refl job⟩
  · cases h

theorem Invariant.step (hi : Invariant s) (h : step s a = some s') : Invariant s' := by
  cases step_cases h with
  | submitted hcreate =>
    obtain ⟨rows, total, hcreated, -⟩ := createJob_ok hcreate
    exact hi.withStore (hi.agrees.created hcreated) hcreated.evolves
  | outside hc _ => exact hi.withChange hc
  | started hw =>
    refine hi.setWorker fun pc hpc => ?_
    cases hpc
    trivial
  | read hw hpc => exact hi.setWorker fun pc hpc => readJob_ok hpc
  | acquired hw hpc =>
    have hj : JobKnown s.store _ := hi.workers _ _ _ hw hpc
    refine (hi.withChange (leases_change s.store _)).proceed ?_ trivial
    exact (leases_change s.store _).evolves hi.agrees |>.jobKnown hj
  | @ran w worker c job leaseToken statement hw hpc =>
    obtain ⟨hj, hs, -⟩ := hi.workers _ _ _ hw hpc
    obtain ⟨hc, hnext⟩ : StatementOk s.store job (advance c worker.leaseLost s.store job statement) :=
      advance_ok hs
    exact (hi.withChange hc).proceed ((hc.evolves hi.agrees).jobKnown hj) (hnext hi.agrees)
  | @renewed _ w worker hw => exact hi.setWorker fun pc hpc => hi.workers w worker pc hw hpc
  | @ended _ w worker leases hw =>
    refine (hi.withChange (leases_change s.store leases)).setWorker fun pc hpc => ?_
    cases hpc

theorem invariant_of_reachable (h : system.Reachable s) : Invariant s :=
  System.Reachable.invariant invariant_initial (fun _ _ _ _ hi hs => hi.step hs) h

theorem Stepped.evolves (hi : Invariant s) (h : Stepped s a s') : Evolves s.store s'.store := by
  cases h with
  | submitted hcreate =>
    obtain ⟨rows, total, hcreated, -⟩ := createJob_ok hcreate
    exact hcreated.evolves
  | outside hc _ => exact hc.evolves hi.agrees
  | ran hw hpc => exact (advance_ok (hi.workers _ _ _ hw hpc).2.1).1.evolves hi.agrees
  | started | read | renewed => exact .refl s.store
  | acquired | ended => exact (leases_change s.store _).evolves hi.agrees

theorem step_evolves (hi : Invariant s) (h : step s a = some s') : Evolves s.store s'.store :=
  (step_cases h).evolves hi

/-- Calls are only added. -/
theorem calls_of_step (h : step s a = some s') : ∃ new, s'.calls = s.calls ++ new := by
  cases step_cases h with
  | acquired | ran => exact ⟨_, rfl⟩
  | submitted | outside | started | read | renewed | ended => exact ⟨[], (List.append_nil _).symm⟩

/-- The row of an older item is a progress of it, and so is the row of its job. -/
theorem Evolves.back (hi : Invariant s) (h : Evolves s.store s'.store) {old row : PayrollItem}
    (ho : old ∈ s.store.items.rows) (hr : row ∈ s'.store.items.rows) (hid : old.id = row.id)
    {job : PayrollJob} (hj : job ∈ s'.store.jobs.rows) (hjob : job.id = row.payrollJobId) :
    ItemProgress old row ∧ ∃ owner ∈ s.store.jobs.rows, owner.id = old.payrollJobId ∧
      JobProgress owner job := by
  obtain ⟨row', hr', hp⟩ := h.items old ho
  obtain rfl := s'.store.item_eq hr' hr (hp.same.id.symm.trans hid)
  obtain ⟨owner, hown, hoid⟩ := hi.agrees.owner old ho
  obtain ⟨job', hj', hq⟩ := h.jobs owner hown
  obtain rfl := s'.store.job_eq hj' hj
    (hq.same.id.symm.trans (hoid.trans (hp.same.payrollJobId.trans hjob.symm)))
  exact ⟨hp, owner, hown, hoid, hq⟩

/-- An item was there before the step, with its job, or the step submitted it. -/
theorem items_of_step (hi : Invariant s) (h : step s a = some s') {row : PayrollItem}
    (hr : row ∈ s'.store.items.rows) {job : PayrollJob} (hj : job ∈ s'.store.jobs.rows)
    (hid : job.id = row.payrollJobId) :
    (∃ old ∈ s.store.items.rows, ItemProgress old row ∧ ∃ owner ∈ s.store.jobs.rows,
      owner.id = old.payrollJobId ∧ JobProgress owner job) ∨
      ∃ jobId itemIds employerId command, a = .submit jobId itemIds employerId command ∧
        job.employerId = employerId ∧ row.status = .pending ∧ ∃ input ∈ command.items.zipIdx,
          row.transferIdempotencyKey = transferIdempotencyKey jobId (itemIds input.2) := by
  have hev := step_evolves hi h
  have hback : ∀ old ∈ s.store.items.rows, old.id = row.id →
      ∃ old ∈ s.store.items.rows, ItemProgress old row ∧ ∃ owner ∈ s.store.jobs.rows,
        owner.id = old.payrollJobId ∧ JobProgress owner job :=
    fun old ho hold => ⟨old, ho, hev.back hi ho hr hold hj hid⟩
  have hids : ∀ store : Store, store.items.rows.map PayrollItem.id = s.store.items.rows.map PayrollItem.id →
      row ∈ store.items.rows → ∃ old ∈ s.store.items.rows, old.id = row.id := by
    intro store hsame hmem
    have hrow : row.id ∈ s.store.items.rows.map PayrollItem.id :=
      hsame ▸ List.mem_map_of_mem hmem
    exact List.mem_map.mp hrow
  cases step_cases h with
  | @submitted jobId itemIds employerId command store hcreate =>
    obtain ⟨rows, total, hcreated, hrows⟩ := createJob_ok hcreate
    have hmem : row ∈ s.store.items.rows ++ rows := hcreated.items ▸ hr
    obtain hold | hnew := List.mem_append.mp hmem
    · exact .inl (hback row hold rfl)
    · right
      obtain ⟨input, hinput, hitem⟩ := hrows row hnew
      have hown := hcreated.owner row hnew
      have hnewJob : jobRow jobId employerId command rows total ∈ store.jobs.rows := by
        rw [hcreated.jobs]
        simp
      have hjob := store.job_eq hj hnewJob (hid.trans hown)
      refine ⟨_, _, _, _, rfl, by rw [hjob]; rfl, hcreated.pending row hnew, input, hinput, ?_⟩
      rw [hcreated.key row hnew, hitem]
      rfl
  | outside hc _ =>
    obtain ⟨old, ho, hold⟩ := hids _ hc.item_ids hr
    exact .inl (hback old ho hold)
  | ran hw hpc =>
    obtain ⟨old, ho, hold⟩ := hids _ (advance_ok (hi.workers _ _ _ hw hpc).2.1).1.item_ids hr
    exact .inl (hback old ho hold)
  | started | read | acquired | renewed | ended => exact .inl (hback row hr rfl)

theorem evolves_of_steps (h : system.Reachable s) (hs : system.Steps s s') :
    Evolves s.store s'.store :=
  System.Steps.lift (R := fun s s' => Evolves s.store s'.store) (fun s => .refl s.store)
    (fun _ _ _ => .trans) (fun _ _ _ hr hs => step_evolves (invariant_of_reachable hr) hs) h hs

end Step

end NovaPay.Payroll
