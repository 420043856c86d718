import NovaPay.Payroll.Processor

/-!
# What the statements of a worker change

A submission creates a job with its items. Every other statement rewrites columns of jobs or of items
that are not yet terminal, or checkpoints one item together with the count of its job. `Agrees` is the
agreement of the counts with the items that all of them keep.
-/

namespace NovaPay.Payroll

open Relational

/-- Agreement of the columns of a job that nothing changes. -/
structure SameJob (job row : PayrollJob) : Prop where
  id : job.id = row.id
  employerId : job.employerId = row.employerId
  sourceWalletId : job.sourceWalletId = row.sourceWalletId
  totalItems : job.totalItems = row.totalItems

theorem SameJob.refl (job : PayrollJob) : SameJob job job := ⟨rfl, rfl, rfl, rfl⟩

theorem SameJob.trans {job row row' : PayrollJob} (h : SameJob job row) (k : SameJob row row') :
    SameJob job row' :=
  ⟨h.id.trans k.id, h.employerId.trans k.employerId, h.sourceWalletId.trans k.sourceWalletId,
    h.totalItems.trans k.totalItems⟩

theorem SameJob.symm {job row : PayrollJob} (h : SameJob job row) : SameJob row job :=
  ⟨h.id.symm, h.employerId.symm, h.sourceWalletId.symm, h.totalItems.symm⟩

/-- Agreement of the columns of an item that nothing changes. -/
structure SameItem (item row : PayrollItem) : Prop where
  id : item.id = row.id
  payrollJobId : item.payrollJobId = row.payrollJobId
  recipientWalletId : item.recipientWalletId = row.recipientWalletId
  amount : item.amount = row.amount
  currency : item.currency = row.currency
  transferIdempotencyKey : item.transferIdempotencyKey = row.transferIdempotencyKey

theorem SameItem.refl (item : PayrollItem) : SameItem item item := ⟨rfl, rfl, rfl, rfl, rfl, rfl⟩

theorem SameItem.trans {item row row' : PayrollItem} (h : SameItem item row) (k : SameItem row row') :
    SameItem item row' :=
  ⟨h.id.trans k.id, h.payrollJobId.trans k.payrollJobId, h.recipientWalletId.trans k.recipientWalletId,
    h.amount.trans k.amount, h.currency.trans k.currency,
    h.transferIdempotencyKey.trans k.transferIdempotencyKey⟩

theorem SameItem.symm {item row : PayrollItem} (h : SameItem item row) : SameItem row item :=
  ⟨h.id.symm, h.payrollJobId.symm, h.recipientWalletId.symm, h.amount.symm, h.currency.symm,
    h.transferIdempotencyKey.symm⟩

theorem transferCall_same {job row : PayrollJob} {item item' : PayrollItem} (hj : SameJob job row)
    (hi : SameItem item item') : transferCall job item = transferCall row item' := by
  simp only [transferCall, PayrollItem.amountText, hj.employerId, hj.sourceWalletId,
    hi.recipientWalletId, hi.amount, hi.currency, hi.transferIdempotencyKey]

/-- Every item of the job is counted. -/
def PayrollJob.Settled (job : PayrollJob) : Prop := job.completedItems + job.failedItems = job.totalItems

/-- What a later row of a job keeps of an earlier one. -/
structure JobProgress (job row : PayrollJob) : Prop where
  same : SameJob job row
  settled : job.Settled → row.completedItems = job.completedItems ∧ row.failedItems = job.failedItems

theorem JobProgress.refl (job : PayrollJob) : JobProgress job job := ⟨.refl job, fun _ => ⟨rfl, rfl⟩⟩

theorem JobProgress.settled_of_settled {job row : PayrollJob} (h : JobProgress job row)
    (hs : job.Settled) : row.Settled ∧ row.finalStatus = job.finalStatus := by
  obtain ⟨hc, hf⟩ := h.settled hs
  refine ⟨?_, ?_⟩
  · rw [PayrollJob.Settled, hc, hf, ← h.same.totalItems]
    exact hs
  · rw [PayrollJob.finalStatus, PayrollJob.finalStatus, hc, hf]

theorem JobProgress.trans {job row row' : PayrollJob} (h : JobProgress job row)
    (k : JobProgress row row') : JobProgress job row' := by
  refine ⟨h.same.trans k.same, fun hs => ?_⟩
  obtain ⟨hc, hf⟩ := h.settled hs
  obtain ⟨hc', hf'⟩ := k.settled (h.settled_of_settled hs).1
  exact ⟨hc'.trans hc, hf'.trans hf⟩

/-- What a later row of an item keeps of an earlier one. -/
structure ItemProgress (item row : PayrollItem) : Prop where
  same : SameItem item row
  terminal : item.status.terminal = true → row = item

theorem ItemProgress.refl (item : PayrollItem) : ItemProgress item item := ⟨.refl item, fun _ => rfl⟩

theorem ItemProgress.trans {item row row' : PayrollItem} (h : ItemProgress item row)
    (k : ItemProgress row row') : ItemProgress item row' := by
  refine ⟨h.same.trans k.same, fun ht => ?_⟩
  obtain rfl := h.terminal ht
  exact k.terminal ht

/-- Rows are never removed, and each later row is a progress of the earlier one. -/
structure Evolves (store store' : Store) : Prop where
  jobs : ∀ job ∈ store.jobs.rows, ∃ row ∈ store'.jobs.rows, JobProgress job row
  items : ∀ item ∈ store.items.rows, ∃ row ∈ store'.items.rows, ItemProgress item row

theorem Evolves.refl (store : Store) : Evolves store store :=
  ⟨fun job h => ⟨job, h, .refl job⟩, fun item h => ⟨item, h, .refl item⟩⟩

theorem Evolves.trans {store store' store'' : Store} (h : Evolves store store')
    (k : Evolves store' store'') : Evolves store store'' := by
  refine ⟨fun job hj => ?_, fun item hi => ?_⟩
  · obtain ⟨row, hr, hp⟩ := h.jobs job hj
    obtain ⟨row', hr', hp'⟩ := k.jobs row hr
    exact ⟨row', hr', hp.trans hp'⟩
  · obtain ⟨row, hr, hp⟩ := h.items item hi
    obtain ⟨row', hr', hp'⟩ := k.items row hr
    exact ⟨row', hr', hp.trans hp'⟩

/-- An update of jobs outside a checkpoint. A terminal status that it writes is the one that the
counts of a settled job give. -/
structure JobUpdate (p : PayrollJob → Bool) (data : PayrollJob → PayrollJob) (rows : List PayrollJob) :
    Prop where
  same : ∀ job, SameJob job (data job)
  counts : ∀ job, (data job).completedItems = job.completedItems ∧
    (data job).failedItems = job.failedItems
  status : ∀ job ∈ rows, p job = true → (data job).status = job.status ∨
    (data job).status.terminal = false ∨ (job.Settled ∧ (data job).status = job.finalStatus)

/-- An update of items outside a checkpoint. -/
structure ItemUpdate (p : PayrollItem → Bool) (data : PayrollItem → PayrollItem)
    (rows : List PayrollItem) : Prop where
  same : ∀ item, SameItem item (data item)
  nonterminal : ∀ item ∈ rows, p item = true → item.status.terminal = false ∧
    (data item).status.terminal = false
  token : ∀ item ∈ rows, p item = true → (item.status = .processing → item.processingToken.isSome) →
    (data item).status = .processing → (data item).processingToken.isSome = true

/-- A new job with its items. -/
structure Created (store store' : Store) (job : PayrollJob) (rows : List PayrollItem) : Prop where
  jobs : store'.jobs.rows = store.jobs.rows ++ [job]
  items : store'.items.rows = store.items.rows ++ rows
  status : job.status = .pending
  completed : job.completedItems = 0
  failed : job.failedItems = 0
  total : job.totalItems = rows.length
  owner : ∀ item ∈ rows, item.payrollJobId = job.id
  pending : ∀ item ∈ rows, item.status = .pending
  key : ∀ item ∈ rows, item.transferIdempotencyKey = transferIdempotencyKey job.id item.id

inductive Change (store store' : Store) : Prop
  | leases : store'.jobs = store.jobs → store'.items = store.items → Change store store'
  | jobs (p : PayrollJob → Bool) (data : PayrollJob → PayrollJob) :
      JobUpdate p data store.jobs.rows → store'.jobs.rows = updateWhere p data store.jobs.rows →
      store'.items = store.items → Change store store'
  | items (p : PayrollItem → Bool) (data : PayrollItem → PayrollItem) :
      ItemUpdate p data store.items.rows → store'.items.rows = updateWhere p data store.items.rows →
      store'.jobs = store.jobs → Change store store'
  | checkpoint (item row : PayrollItem) (verdict : Verdict) (transferId : Option Uuid)
      (failureCode : Option String) (date : Date) :
      row ∈ store.items.rows → heldBy item row = true → item.payrollJobId = row.payrollJobId →
      store'.items.rows = updateWhere (heldBy item)
        (fun row => row.checkpoint verdict transferId failureCode date) store.items.rows →
      store'.jobs.rows = updateWhere (fun job => decide (job.id = item.payrollJobId))
        (fun job => job.count verdict) store.jobs.rows → Change store store'

/-- The agreement of the two tables. -/
structure Agrees (store : Store) : Prop where
  owner : ∀ item ∈ store.items.rows, ∃ job ∈ store.jobs.rows, job.id = item.payrollJobId
  completed : ∀ job ∈ store.jobs.rows, job.completedItems = store.countItems job.id .completed
  failed : ∀ job ∈ store.jobs.rows, job.failedItems = store.countItems job.id .failed
  total : ∀ job ∈ store.jobs.rows, job.totalItems =
    store.items.rows.countP fun item => decide (item.payrollJobId = job.id)
  verdict : ∀ job ∈ store.jobs.rows, job.status.terminal = true →
    job.Settled ∧ job.status = job.finalStatus
  token : ∀ item ∈ store.items.rows, item.status = .processing → item.processingToken.isSome = true
  key : ∀ item ∈ store.items.rows,
    item.transferIdempotencyKey = transferIdempotencyKey item.payrollJobId item.id

theorem agrees_empty : Agrees .empty := by
  constructor <;> simp [Store.empty]

/-- The items of a job by their status. -/
theorem countP_status (rows : List PayrollItem) (jobId : Uuid) :
    rows.countP (fun item => decide (item.payrollJobId = jobId)) =
      rows.countP (fun item => decide (item.payrollJobId = jobId) && decide (item.status = .completed)) +
      rows.countP (fun item => decide (item.payrollJobId = jobId) && decide (item.status = .failed)) +
      rows.countP (fun item => decide (item.payrollJobId = jobId) && !item.status.terminal) := by
  induction rows with
  | nil => rfl
  | cons item rows ih =>
    simp only [List.countP_cons, ih]
    by_cases hid : item.payrollJobId = jobId
    · cases hstatus : item.status <;> simp [hid, PayrollItemStatus.terminal] <;> omega
    · simp [hid]

/-- The items of a settled job are terminal. -/
theorem Agrees.terminal_of_settled {store : Store} (ha : Agrees store) {job : PayrollJob}
    (hj : job ∈ store.jobs.rows) (hs : job.Settled) {item : PayrollItem}
    (hi : item ∈ store.items.rows) (hid : item.payrollJobId = job.id) :
    item.status.terminal = true := by
  have hcount := countP_status store.items.rows job.id
  have htotal := ha.total job hj
  have hc := ha.completed job hj
  have hf := ha.failed job hj
  have hs : job.completedItems + job.failedItems = job.totalItems := hs
  have hzero : store.items.rows.countP
      (fun item => decide (item.payrollJobId = job.id) && !item.status.terminal) = 0 := by
    simp only [Store.countItems] at hc hf
    omega
  simpa [hid] using List.countP_eq_zero.mp hzero item hi

theorem heldBy_processing {item row : PayrollItem} (h : heldBy item row = true) :
    row.id = item.id ∧ row.status = .processing ∧ row.processingToken = item.processingToken := by
  simpa [heldBy, and_assoc] using h

section Change

variable {store store' : Store}

theorem JobUpdate.progress {p : PayrollJob → Bool} {data : PayrollJob → PayrollJob}
    (h : JobUpdate p data store.jobs.rows) (job : PayrollJob) : JobProgress job (data job) :=
  ⟨h.same job, fun _ => h.counts job⟩

theorem count_same (job : PayrollJob) (verdict : Verdict) : SameJob job (job.count verdict) := by
  cases verdict <;> exact ⟨rfl, rfl, rfl, rfl⟩

theorem Created.evolves {job : PayrollJob} {rows : List PayrollItem} (h : Created store store' job rows) :
    Evolves store store' := by
  refine ⟨fun row hr => ⟨row, ?_, .refl row⟩, fun item hi => ⟨item, ?_, .refl item⟩⟩
  · rw [h.jobs]
    exact List.mem_append_left _ hr
  · rw [h.items]
    exact List.mem_append_left _ hi

/-- No statement but a submission adds an item. -/
theorem Change.item_ids (h : Change store store') :
    store'.items.rows.map PayrollItem.id = store.items.rows.map PayrollItem.id := by
  cases h with
  | leases _ hitems => rw [hitems]
  | jobs _ _ _ _ hitems => rw [hitems]
  | items p data hupdate hitems =>
    rw [hitems]
    exact map_updateWhere fun item => (hupdate.same item).id.symm
  | checkpoint item row verdict transferId failureCode date _ _ _ hitems =>
    rw [hitems]
    exact map_updateWhere fun _ => rfl

theorem Change.evolves (ha : Agrees store) (h : Change store store') : Evolves store store' := by
  cases h with
  | leases hjobs hitems =>
    refine ⟨fun job hj => ⟨job, by rwa [hjobs], .refl job⟩, fun item hi => ⟨item, by rwa [hitems], .refl item⟩⟩
  | jobs p data hupdate hjobs hitems =>
    refine ⟨?_, fun item hi => ⟨item, by rwa [hitems], .refl item⟩⟩
    rw [hjobs]
    exact exists_updateWhere JobProgress.refl fun job _ _ => hupdate.progress job
  | items p data hupdate hitems hjobs =>
    refine ⟨fun job hj => ⟨job, by rwa [hjobs], .refl job⟩, ?_⟩
    rw [hitems]
    refine exists_updateWhere ItemProgress.refl fun item hi hp => ⟨hupdate.same item, fun ht => ?_⟩
    exact absurd ht (by simp [(hupdate.nonterminal item hi hp).1])
  | checkpoint item row verdict transferId failureCode date hrow hheld hjob hitems hjobs =>
    obtain ⟨-, hprocessing, -⟩ := heldBy_processing hheld
    constructor
    · rw [hjobs]
      refine exists_updateWhere JobProgress.refl fun job hj hid => ⟨count_same job verdict, fun hs => ?_⟩
      have hterminal := ha.terminal_of_settled hj hs hrow (by simpa [hjob] using (of_decide_eq_true hid).symm)
      rw [hprocessing] at hterminal
      cases hterminal
    · rw [hitems]
      refine exists_updateWhere ItemProgress.refl fun other ho hp => ⟨⟨rfl, rfl, rfl, rfl, rfl, rfl⟩, fun ht => ?_⟩
      rw [(heldBy_processing hp).2.1] at ht
      cases ht

/-- A job that is updated outside a checkpoint agrees with its items as before. -/
theorem Agrees.jobs (ha : Agrees store) {p : PayrollJob → Bool} {data : PayrollJob → PayrollJob}
    (hupdate : JobUpdate p data store.jobs.rows)
    (hjobs : store'.jobs.rows = updateWhere p data store.jobs.rows)
    (hitems : store'.items = store.items) : Agrees store' := by
  have hcount : ∀ jobId status, store'.countItems jobId status = store.countItems jobId status :=
    fun jobId status => by rw [Store.countItems, Store.countItems, hitems]
  have hback : ∀ row ∈ store'.jobs.rows, ∃ job ∈ store.jobs.rows, SameJob job row ∧
      row.completedItems = job.completedItems ∧ row.failedItems = job.failedItems ∧
      (row.status = job.status ∨ row.status.terminal = false ∨
        (job.Settled ∧ row.status = job.finalStatus)) := by
    intro row hr
    rw [hjobs] at hr
    obtain ⟨hr, -⟩ | ⟨job, hj, hp, rfl⟩ := mem_updateWhere.mp hr
    · exact ⟨row, hr, .refl row, rfl, rfl, .inl rfl⟩
    · exact ⟨job, hj, hupdate.same job, (hupdate.counts job).1, (hupdate.counts job).2,
        hupdate.status job hj hp⟩
  constructor
  · intro item hi
    rw [hitems] at hi
    obtain ⟨job, hj, hid⟩ := ha.owner item hi
    obtain ⟨row, hr, hp⟩ := exists_updateWhere (p := p) JobProgress.refl
      (fun job _ _ => hupdate.progress job) job hj
    exact ⟨row, by rwa [hjobs], hp.same.id.symm.trans hid⟩
  · intro row hr
    obtain ⟨job, hj, hsame, hc, -, -⟩ := hback row hr
    rw [hcount, hc, ha.completed job hj, hsame.id]
  · intro row hr
    obtain ⟨job, hj, hsame, -, hf, -⟩ := hback row hr
    rw [hcount, hf, ha.failed job hj, hsame.id]
  · intro row hr
    obtain ⟨job, hj, hsame, -, -, -⟩ := hback row hr
    rw [hitems, ← hsame.totalItems, ha.total job hj, hsame.id]
  · intro row hr hterminal
    obtain ⟨job, hj, hsame, hc, hf, hstatus⟩ := hback row hr
    have hdecided : job.Settled ∧ row.status = job.finalStatus := by
      obtain heq | hopen | hdecided := hstatus
      · rw [heq] at hterminal ⊢
        exact ha.verdict job hj hterminal
      · rw [hopen] at hterminal
        cases hterminal
      · exact hdecided
    have hprogress : JobProgress job row := ⟨hsame, fun _ => ⟨hc, hf⟩⟩
    obtain ⟨hsettled, hfinal⟩ := hprogress.settled_of_settled hdecided.1
    exact ⟨hsettled, hdecided.2.trans hfinal.symm⟩
  · rw [hitems]
    exact ha.token
  · rw [hitems]
    exact ha.key

/-- Items that are updated outside a checkpoint stay uncounted. -/
theorem Agrees.items (ha : Agrees store) {p : PayrollItem → Bool} {data : PayrollItem → PayrollItem}
    (hupdate : ItemUpdate p data store.items.rows)
    (hitems : store'.items.rows = updateWhere p data store.items.rows)
    (hjobs : store'.jobs = store.jobs) : Agrees store' := by
  have hcount : ∀ jobId status, status.terminal = true →
      store'.countItems jobId status = store.countItems jobId status := by
    intro jobId status hstatus
    rw [Store.countItems, hitems]
    refine countP_updateWhere_same fun item hi hp => ?_
    obtain ⟨hold, hnew⟩ := hupdate.nonterminal item hi hp
    have hne : item.status ≠ status := fun h => by simp [← h, hold] at hstatus
    have hne' : (data item).status ≠ status := fun h => by simp [← h, hnew] at hstatus
    simp [hne, hne']
  have hback : ∀ row ∈ store'.items.rows, ∃ item ∈ store.items.rows, SameItem item row := by
    intro row hr
    rw [hitems] at hr
    obtain ⟨hr, -⟩ | ⟨item, hi, -, rfl⟩ := mem_updateWhere.mp hr
    · exact ⟨row, hr, .refl row⟩
    · exact ⟨item, hi, hupdate.same item⟩
  constructor
  · intro row hr
    obtain ⟨item, hi, hsame⟩ := hback row hr
    rw [hjobs, ← hsame.payrollJobId]
    exact ha.owner item hi
  · intro job hj
    rw [hjobs] at hj
    rw [hcount job.id .completed rfl]
    exact ha.completed job hj
  · intro job hj
    rw [hjobs] at hj
    rw [hcount job.id .failed rfl]
    exact ha.failed job hj
  · intro job hj
    rw [hjobs] at hj
    rw [ha.total job hj, hitems]
    refine (countP_updateWhere_same fun item _ _ => ?_).symm
    rw [(hupdate.same item).payrollJobId]
  · rw [hjobs]
    exact ha.verdict
  · intro row hr hstatus
    rw [hitems] at hr
    obtain ⟨hr, -⟩ | ⟨item, hi, hp, rfl⟩ := mem_updateWhere.mp hr
    · exact ha.token row hr hstatus
    · exact hupdate.token item hi hp (ha.token item hi) hstatus
  · intro row hr
    obtain ⟨item, hi, hsame⟩ := hback row hr
    rw [← hsame.transferIdempotencyKey, ← hsame.payrollJobId, ← hsame.id]
    exact ha.key item hi

/-- A new job agrees with its items, which are all pending. -/
theorem Agrees.created (ha : Agrees store) {job : PayrollJob} {rows : List PayrollItem}
    (h : Created store store' job rows) : Agrees store' := by
  obtain ⟨hjobs, hitems, hstatus, hcompleted, hfailed, htotal, howner, hpending, hkey⟩ := h
  have hfresh : ∀ old ∈ store.jobs.rows, old.id ≠ job.id := by
    have hids := store'.job_ids
    rw [hjobs] at hids
    exact fresh_of_uniqueBy_append hids
  have hold : ∀ item ∈ store.items.rows, item.payrollJobId ≠ job.id := by
    intro item hi
    obtain ⟨owner, ho, hid⟩ := ha.owner item hi
    exact fun h => hfresh owner ho (hid.trans h)
  have hcount : ∀ jobId status, status.terminal = true →
      store'.countItems jobId status = store.countItems jobId status := by
    intro jobId status hterminal
    rw [Store.countItems, Store.countItems, hitems, List.countP_append, Nat.add_eq_left,
      List.countP_eq_zero]
    intro item hi
    have hne : item.status ≠ status := fun h => by
      rw [← h, hpending item hi] at hterminal
      cases hterminal
    simp [hne]
  have hzero : ∀ status, store.countItems job.id status = 0 := fun status =>
    List.countP_eq_zero.mpr fun item hi => by simp [hold item hi]
  constructor
  · intro item hi
    rw [hitems] at hi
    rw [hjobs]
    obtain hi | hi := List.mem_append.mp hi
    · obtain ⟨owner, ho, hid⟩ := ha.owner item hi
      exact ⟨owner, List.mem_append_left _ ho, hid⟩
    · exact ⟨job, by simp, (howner item hi).symm⟩
  · intro row hr
    rw [hjobs] at hr
    rw [hcount row.id .completed rfl]
    obtain hr | hr := List.mem_append.mp hr
    · exact ha.completed row hr
    · rw [List.mem_singleton.mp hr, hzero, hcompleted]
  · intro row hr
    rw [hjobs] at hr
    rw [hcount row.id .failed rfl]
    obtain hr | hr := List.mem_append.mp hr
    · exact ha.failed row hr
    · rw [List.mem_singleton.mp hr, hzero, hfailed]
  · intro row hr
    rw [hjobs] at hr
    rw [hitems, List.countP_append]
    obtain hr | hr := List.mem_append.mp hr
    · rw [ha.total row hr, left_eq_add, List.countP_eq_zero]
      intro item hi
      simpa [howner item hi] using (hfresh row hr).symm
    · obtain rfl := List.mem_singleton.mp hr
      have hnone : store.items.rows.countP (fun item => decide (item.payrollJobId = row.id)) = 0 :=
        List.countP_eq_zero.mpr fun item hi => by simpa using hold item hi
      have hall : rows.countP (fun item => decide (item.payrollJobId = row.id)) = rows.length :=
        List.countP_eq_length.mpr fun item hi => by simpa using howner item hi
      rw [hnone, hall, Nat.zero_add, htotal]
  · intro row hr hterminal
    rw [hjobs] at hr
    obtain hr | hr := List.mem_append.mp hr
    · exact ha.verdict row hr hterminal
    · rw [List.mem_singleton.mp hr, hstatus] at hterminal
      cases hterminal
  · intro item hi hprocessing
    rw [hitems] at hi
    obtain hi | hi := List.mem_append.mp hi
    · exact ha.token item hi hprocessing
    · rw [hpending item hi] at hprocessing
      cases hprocessing
  · intro item hi
    rw [hitems] at hi
    obtain hi | hi := List.mem_append.mp hi
    · exact ha.key item hi
    · rw [hkey item hi, howner item hi]

/-- Exactly one item is held under a token, so a checkpoint counts one. -/
theorem countP_heldBy {item row : PayrollItem} (hrow : row ∈ store.items.rows)
    (hheld : heldBy item row = true) : store.items.rows.countP (heldBy item) = 1 := by
  have hpos : 0 < store.items.rows.countP (heldBy item) := List.countP_pos_iff.mpr ⟨row, hrow, hheld⟩
  have hle : store.items.rows.countP (heldBy item) ≤ 1 :=
    countP_le_one_of_uniqueBy store.item_ids fun r hr => (heldBy_processing hr).1
  omega

@[simp] theorem verdict_terminal (verdict : Verdict) : verdict.status.terminal = true := by
  cases verdict <;> rfl

@[simp] theorem count_status (job : PayrollJob) (verdict : Verdict) :
    (job.count verdict).status = job.status := by
  cases verdict <;> rfl

/-- A checkpoint adds its item to the count of its verdict. -/
theorem countItems_checkpoint {item row : PayrollItem} {verdict : Verdict} {transferId : Option Uuid}
    {failureCode : Option String} {date : Date} (hrow : row ∈ store.items.rows)
    (hheld : heldBy item row = true) (hjob : item.payrollJobId = row.payrollJobId)
    (hitems : store'.items.rows = updateWhere (heldBy item)
      (fun row => row.checkpoint verdict transferId failureCode date) store.items.rows)
    (jobId : Uuid) {status : PayrollItemStatus} (hterminal : status.terminal = true) :
    store'.countItems jobId status = store.countItems jobId status +
      if jobId = item.payrollJobId ∧ status = verdict.status then 1 else 0 := by
  have hone := countP_heldBy hrow hheld
  have hstatus : row.status = .processing := (heldBy_processing hheld).2.1
  have hunique : ∀ other ∈ store.items.rows, heldBy item other = true → other = row :=
    fun other ho hp => store.item_eq ho hrow
      ((heldBy_processing hp).1.trans (heldBy_processing hheld).1.symm)
  rw [Store.countItems, hitems]
  split
  · next h =>
    obtain ⟨rfl, rfl⟩ := h
    rw [countP_updateWhere_new, hone]
    · rfl
    · intro other ho hp
      obtain rfl := hunique other ho hp
      have hne : other.status ≠ verdict.status := by
        rw [hstatus]
        cases verdict <;> decide
      exact ⟨by simp [hne], by simp [PayrollItem.checkpoint, hjob]⟩
  · next h =>
    refine countP_updateWhere_same fun other ho hp => ?_
    obtain rfl := hunique other ho hp
    have hne : other.status ≠ status := fun h => by
      rw [← h, hstatus] at hterminal
      cases hterminal
    have hne' : ¬(other.payrollJobId = jobId ∧ verdict.status = status) := fun hn =>
      h ⟨hn.1.symm.trans hjob.symm, hn.2.symm⟩
    simpa [PayrollItem.checkpoint, hne] using hne'

/-- A checkpoint counts the item that it makes terminal. -/
theorem Agrees.checkpoint (ha : Agrees store) {item row : PayrollItem} {verdict : Verdict}
    {transferId : Option Uuid} {failureCode : Option String} {date : Date}
    (hrow : row ∈ store.items.rows) (hheld : heldBy item row = true)
    (hjob : item.payrollJobId = row.payrollJobId)
    (hitems : store'.items.rows = updateWhere (heldBy item)
      (fun row => row.checkpoint verdict transferId failureCode date) store.items.rows)
    (hjobs : store'.jobs.rows = updateWhere (fun job => decide (job.id = item.payrollJobId))
      (fun job => job.count verdict) store.jobs.rows) : Agrees store' := by
  have hstatus : row.status = .processing := (heldBy_processing hheld).2.1
  have hcount := fun jobId {status : PayrollItemStatus} (hterminal : status.terminal = true) =>
    countItems_checkpoint hrow hheld hjob hitems jobId hterminal
  have hback : ∀ job ∈ store'.jobs.rows, ∃ old ∈ store.jobs.rows, SameJob old job ∧
      (job = old ∧ job.id ≠ item.payrollJobId ∨ job = old.count verdict ∧ job.id = item.payrollJobId) := by
    intro job hj
    rw [hjobs] at hj
    obtain ⟨hj, hid⟩ | ⟨old, ho, hid, rfl⟩ := mem_updateWhere.mp hj
    · exact ⟨job, hj, .refl job, .inl ⟨rfl, of_decide_eq_false hid⟩⟩
    · exact ⟨old, ho, count_same old verdict, .inr ⟨rfl,
        (count_same old verdict).id.symm.trans (of_decide_eq_true hid)⟩⟩
  constructor
  · intro other ho
    have hsame : ∃ old ∈ store.items.rows, old.payrollJobId = other.payrollJobId := by
      rw [hitems] at ho
      obtain ⟨hold, -⟩ | ⟨old, hold, -, rfl⟩ := mem_updateWhere.mp ho
      · exact ⟨other, hold, rfl⟩
      · exact ⟨old, hold, rfl⟩
    obtain ⟨old, ho, hid⟩ := hsame
    obtain ⟨job, hj, hjid⟩ := ha.owner old ho
    obtain ⟨job', hj', hsame⟩ := exists_updateWhere (R := SameJob)
      (p := fun job => decide (job.id = item.payrollJobId)) SameJob.refl
      (fun job _ _ => count_same job verdict) job hj
    exact ⟨job', by rwa [hjobs], hsame.id.symm.trans (hjid.trans hid)⟩
  · intro job hj
    obtain ⟨old, ho, hsame, ⟨rfl, hid⟩ | ⟨rfl, hid⟩⟩ := hback job hj
    · rw [hcount job.id rfl, ha.completed job ho, if_neg fun h => hid h.1, Nat.add_zero]
    · rw [hcount _ rfl, hid, ← hsame.id.trans hid]
      have hc := ha.completed old ho
      cases verdict <;> simp [PayrollJob.count, Verdict.status, hc]
  · intro job hj
    obtain ⟨old, ho, hsame, ⟨rfl, hid⟩ | ⟨rfl, hid⟩⟩ := hback job hj
    · rw [hcount job.id rfl, ha.failed job ho, if_neg fun h => hid h.1, Nat.add_zero]
    · rw [hcount _ rfl, hid, ← hsame.id.trans hid]
      have hf := ha.failed old ho
      cases verdict <;> simp [PayrollJob.count, Verdict.status, hf]
  · intro job hj
    obtain ⟨old, ho, hsame, -⟩ := hback job hj
    rw [← hsame.totalItems, ha.total old ho, hitems, hsame.id]
    symm
    exact countP_updateWhere_same fun other _ _ => by simp [PayrollItem.checkpoint]
  · intro job hj hterminal
    obtain ⟨old, ho, hsame, ⟨rfl, -⟩ | ⟨rfl, hid⟩⟩ := hback job hj
    · exact ha.verdict job ho hterminal
    · rw [count_status] at hterminal
      have hopen := ha.terminal_of_settled ho (ha.verdict old ho hterminal).1 hrow
        (hjob.symm.trans (hid.symm.trans hsame.id.symm))
      rw [hstatus] at hopen
      cases hopen
  · intro other ho hprocessing
    rw [hitems] at ho
    obtain ⟨ho, -⟩ | ⟨old, ho, -, rfl⟩ := mem_updateWhere.mp ho
    · exact ha.token other ho hprocessing
    · cases verdict <;> cases hprocessing
  · intro other ho
    rw [hitems] at ho
    obtain ⟨hold, -⟩ | ⟨old, hold, -, rfl⟩ := mem_updateWhere.mp ho
    · exact ha.key other hold
    · exact ha.key old hold

/-- The two tables agree after every change. -/
theorem Change.agrees (ha : Agrees store) (h : Change store store') : Agrees store' := by
  cases h with
  | leases hjobs hitems =>
    have hcount : ∀ jobId status, store'.countItems jobId status = store.countItems jobId status :=
      fun jobId status => by rw [Store.countItems, Store.countItems, hitems]
    obtain ⟨howner, hcompleted, hfailed, htotal, hverdict, htoken, hkey⟩ := ha
    constructor
    all_goals simpa only [hjobs, hitems, hcount]
  | jobs p data hupdate hjobs hitems => exact ha.jobs hupdate hjobs hitems
  | items p data hupdate hitems hjobs => exact ha.items hupdate hitems hjobs
  | checkpoint item row verdict transferId failureCode date hrow hheld hjob hitems hjobs =>
    exact ha.checkpoint hrow hheld hjob hitems hjobs

end Change

end NovaPay.Payroll
