import NovaPay.Library.Keyset
import NovaPay.Payroll.Checkpoints
import NovaPay.Payroll.Verdicts

/-!
# A run of `process` to its end

A worker that is alone with its job, keeps its lease and is given a closed transfer for every call goes
through the processing items, then through the pending ones in batches. The items it still has to
execute are those that have not left their status, whatever the sizes of the batches.
-/

namespace NovaPay.Payroll

open DecimalArithmetic Relational TransitionSystem
open Transaction (TransferStatus)

variable {store store' : Store} {job : PayrollJob} {item : PayrollItem} {jobId : Uuid}
  {status : PayrollItemStatus} {processing pending items claimed : List PayrollItem}

/-! ### The items with a status -/

def Selected (store : Store) (jobId : Uuid) (status : PayrollItemStatus) (item : PayrollItem) : Prop :=
  item ∈ store.items.rows ∧ item.payrollJobId = jobId ∧ item.status = status

theorem mem_selectItems : item ∈ selectItems store jobId status ↔ Selected store jobId status item := by
  simp [selectItems, Selected, List.mem_insertionSort]

theorem item_sequences (store : Store) :
    uniqueBy (fun item : PayrollItem => (item.payrollJobId, item.sequence)) store.items.rows = true := by
  have h := store.items.indexed
  simp only [itemsSchema, itemsIndexed, Bool.and_eq_true] at h
  exact h.1.1.2

/-- The items of a job are numbered. -/
theorem selectItems_strict :
    (selectItems store jobId status).Pairwise fun a b => a.sequence < b.sequence := by
  have : Std.Total fun a b : PayrollItem => a.sequence ≤ b.sequence := ⟨fun a b => le_total _ _⟩
  have : IsTrans PayrollItem fun a b => a.sequence ≤ b.sequence := ⟨fun a b c => le_trans⟩
  have hsorted : (selectItems store jobId status).Pairwise fun a b => a.sequence ≤ b.sequence :=
    List.pairwise_insertionSort _ _
  have hnodup : ((selectItems store jobId status).map fun item => (item.payrollJobId, item.sequence)).Nodup := by
    have hfilter := uniqueBy_iff.mp (uniqueBy_filter (q := fun item : PayrollItem =>
      decide (item.payrollJobId = jobId) && decide (item.status = status)) (item_sequences store))
    exact ((List.perm_insertionSort _ _).map _).nodup_iff.mpr hfilter
  refine (hsorted.and (List.pairwise_map.mp hnodup)).imp_of_mem fun {a b} ha hb hab => ?_
  refine lt_of_le_of_ne hab.1 fun heq => hab.2 ?_
  rw [heq, (mem_selectItems.mp ha).2.1, (mem_selectItems.mp hb).2.1]

theorem selectItems_eq (hstrict : items.Pairwise fun a b => a.sequence < b.sequence)
    (hmem : ∀ item, item ∈ items ↔ Selected store jobId status item) :
    selectItems store jobId status = items :=
  Keyset.eq_of_strict selectItems_strict hstrict fun item => mem_selectItems.trans (hmem item).symm

theorem selectItems_ids : ((selectItems store jobId status).map PayrollItem.id).Nodup := by
  have hfilter := uniqueBy_iff.mp (uniqueBy_filter (q := fun item : PayrollItem =>
    decide (item.payrollJobId = jobId) && decide (item.status = status)) store.item_ids)
  exact ((List.perm_insertionSort _ _).map _).nodup_iff.mpr hfilter

/-- The items that are open, in the order in which they are paid. -/
def openItems (store : Store) (jobId : Uuid) : List PayrollItem :=
  selectItems store jobId .processing ++ selectItems store jobId .pending

theorem openItems_ids : ((openItems store jobId).map PayrollItem.id).Nodup := by
  rw [openItems, List.map_append, List.nodup_append]
  refine ⟨selectItems_ids, selectItems_ids, ?_⟩
  rintro id hid id' hid' rfl
  obtain ⟨a, ha, rfl⟩ := List.mem_map.mp hid
  obtain ⟨b, hb, hab⟩ := List.mem_map.mp hid'
  obtain ⟨ha, -, hprocessing⟩ := mem_selectItems.mp ha
  obtain ⟨hb, -, hpending⟩ := mem_selectItems.mp hb
  obtain rfl := store.item_eq hb ha hab
  rw [hprocessing] at hpending
  cases hpending

theorem mem_openItems (hitem : item ∈ store.items.rows) (hjob : item.payrollJobId = jobId) :
    item ∈ openItems store jobId ↔ item.status.terminal = false := by
  rw [openItems, List.mem_append, mem_selectItems, mem_selectItems, Selected, Selected]
  cases hstatus : item.status <;> simp [hitem, hjob, PayrollItemStatus.terminal]

/-- Every open item is there once, a closed one never. -/
theorem count_openItems (hitem : item ∈ store.items.rows) (hjob : item.payrollJobId = jobId) :
    ((openItems store jobId).map PayrollItem.id).count item.id =
      if item.status.terminal then 0 else 1 := by
  have hmem : item.id ∈ (openItems store jobId).map PayrollItem.id ↔ item.status.terminal = false := by
    rw [← mem_openItems hitem hjob]
    constructor
    · intro h
      obtain ⟨other, ho, hid⟩ := List.mem_map.mp h
      have hrow : other ∈ store.items.rows := by
        obtain ho | ho := List.mem_append.mp ho
        · exact (mem_selectItems.mp ho).1
        · exact (mem_selectItems.mp ho).1
      rwa [store.item_eq hitem hrow hid.symm]
    · exact List.mem_map_of_mem
  cases hterminal : item.status.terminal with
  | true => exact List.count_eq_zero.mpr fun h => by simp [hmem.mp h] at hterminal
  | false => exact List.count_eq_one_of_mem openItems_ids (hmem.mpr hterminal)

/-- An update of one row, seen from the rows with a status. -/
theorem selected_update {p : PayrollItem → Bool} {data : PayrollItem → PayrollItem} {x : PayrollItem}
    (hrows : store'.items.rows = updateWhere p data store.items.rows) (hitem : item ∈ store.items.rows)
    (hp : p item = true) (honly : ∀ row ∈ store.items.rows, p row = true → row = item) :
    Selected store' jobId status x ↔ (Selected store jobId status x ∧ x ≠ item) ∨
      (x = data item ∧ (data item).payrollJobId = jobId ∧ (data item).status = status) := by
  have hfalse : ∀ row ∈ store.items.rows, p row = false ↔ row ≠ item := by
    intro row hr
    constructor
    · rintro hrow rfl
      rw [hp] at hrow
      cases hrow
    · intro hne
      cases hpr : p row with
      | false => rfl
      | true => exact absurd (honly row hr hpr) hne
  rw [Selected, hrows, mem_updateWhere]
  constructor
  · rintro ⟨⟨hx, hpx⟩ | ⟨row, hr, hpr, rfl⟩, hjob, hstatus⟩
    · exact .inl ⟨⟨hx, hjob, hstatus⟩, (hfalse x hx).mp hpx⟩
    · obtain rfl := honly row hr hpr
      exact .inr ⟨rfl, hjob, hstatus⟩
  · rintro (⟨⟨hx, hjob, hstatus⟩, hne⟩ | ⟨rfl, hjob, hstatus⟩)
    · exact ⟨.inl ⟨hx, (hfalse x hx).mpr hne⟩, hjob, hstatus⟩
    · exact ⟨.inr ⟨item, hitem, hp, rfl⟩, hjob, hstatus⟩

/-! ### The books of a job -/

/-- The counts of a job are those of its items. -/
structure Counted (store : Store) (job : PayrollJob) : Prop where
  completed : job.completedItems = store.countItems job.id .completed
  failed : job.failedItems = store.countItems job.id .failed
  total : job.totalItems =
    store.items.rows.countP fun item => decide (item.payrollJobId = job.id)

/-- Neither another column of the job nor another table counts. -/
theorem Counted.of_same {row : PayrollJob} (h : Counted store job) (hitems : store'.items = store.items)
    (hsame : SameJob job row) (hcompleted : row.completedItems = job.completedItems)
    (hfailed : row.failedItems = job.failedItems) : Counted store' row := by
  refine ⟨?_, ?_, ?_⟩
  · rw [hcompleted, ← hsame.id, Store.countItems, hitems]
    exact h.completed
  · rw [hfailed, ← hsame.id, Store.countItems, hitems]
    exact h.failed
  · rw [← hsame.totalItems, ← hsame.id, hitems]
    exact h.total

/-- The job as it stands: its counts agree with its items, and these are its open ones. -/
structure Books (store : Store) (job : PayrollJob) (processing pending : List PayrollItem) : Prop where
  row : ∃ row ∈ store.jobs.rows, row.id = job.id ∧ Counted store row
  mem_processing : ∀ item, item ∈ processing ↔ Selected store job.id .processing item
  mem_pending : ∀ item, item ∈ pending ↔ Selected store job.id .pending item
  ids : ((processing ++ pending).map PayrollItem.id).Nodup
  order : pending.Pairwise fun a b => a.sequence < b.sequence

theorem Books.of_selectItems (h : ∃ row ∈ store.jobs.rows, row.id = job.id ∧ Counted store row) :
    Books store job (selectItems store job.id .processing) (selectItems store job.id .pending) :=
  ⟨h, fun _ => mem_selectItems, fun _ => mem_selectItems, openItems_ids, selectItems_strict⟩

/-- A write of an item that stays open leaves the counts. -/
theorem Counted.of_open {p : PayrollItem → Bool} {data : PayrollItem → PayrollItem} (h : Counted store job)
    (hrows : store'.items.rows = updateWhere p data store.items.rows)
    (hjob : ∀ row, (data row).payrollJobId = row.payrollJobId)
    (hopen : ∀ row ∈ store.items.rows, p row = true → row.status.terminal = false ∧
      (data row).status.terminal = false) : Counted store' job := by
  have hcount : ∀ status : PayrollItemStatus, status.terminal = true →
      store'.countItems job.id status = store.countItems job.id status := by
    intro status hterminal
    rw [Store.countItems, hrows]
    refine countP_updateWhere_same fun row hr hp => ?_
    obtain ⟨hold, hnew⟩ := hopen row hr hp
    have hne : row.status ≠ status := fun h => by simp [← h, hold] at hterminal
    have hne' : (data row).status ≠ status := fun h => by simp [← h, hnew] at hterminal
    simp [hne, hne']
  refine ⟨h.completed.trans (hcount _ rfl).symm, h.failed.trans (hcount _ rfl).symm, ?_⟩
  rw [h.total, hrows]
  refine (countP_updateWhere_same fun row _ _ => ?_).symm
  rw [hjob]

theorem Books.item_mem (h : Books store job (item :: processing) pending) :
    item ∈ store.items.rows ∧ item.payrollJobId = job.id ∧ item.status = .processing :=
  (h.mem_processing item).mp List.mem_cons_self

theorem Books.candidate_mem (h : Books store job processing (item :: pending)) :
    item ∈ store.items.rows ∧ item.payrollJobId = job.id ∧ item.status = .pending :=
  (h.mem_pending item).mp List.mem_cons_self

/-- A processing item is claimed anew. -/
theorem Books.reclaim {p : PayrollItem → Bool} {token : Uuid} {date : Date}
    (h : Books store job (item :: processing) pending) (hp : p item = true)
    (honly : ∀ row ∈ store.items.rows, p row = true → row = item)
    (hrows : store'.items.rows = updateWhere p (fun row => row.reclaim token date) store.items.rows)
    (hjobs : store'.jobs = store.jobs) :
    Books store' job (item.reclaim token date :: processing) pending := by
  obtain ⟨hmem, hjob, hstatus⟩ := h.item_mem
  obtain ⟨hid, hids⟩ := List.nodup_cons.mp h.ids
  have hne : ∀ x ∈ processing ++ pending, x ≠ item := fun x hx heq =>
    hid (List.mem_map.mpr ⟨x, hx, congrArg PayrollItem.id heq⟩)
  refine ⟨?_, fun x => ?_, fun x => ?_, List.nodup_cons.mpr ⟨hid, hids⟩, h.order⟩
  · obtain ⟨row, hr, hrow, hcounted⟩ := h.row
    refine ⟨row, by rwa [hjobs], hrow, hcounted.of_open hrows (fun _ => rfl) fun r hr hpr => ?_⟩
    obtain rfl := honly r hr hpr
    have hopen : r.status.terminal = false := by
      rw [hstatus]
      rfl
    exact ⟨hopen, hopen⟩
  · rw [selected_update hrows hmem hp honly, ← h.mem_processing, List.mem_cons, List.mem_cons]
    constructor
    · rintro (rfl | hx)
      · exact .inr ⟨rfl, hjob, hstatus⟩
      · exact .inl ⟨.inr hx, hne x (List.mem_append_left _ hx)⟩
    · rintro (⟨hx | hx, hxne⟩ | ⟨rfl, -⟩)
      · exact absurd hx hxne
      · exact .inr hx
      · exact .inl rfl
  · rw [selected_update hrows hmem hp honly, ← h.mem_pending]
    constructor
    · intro hx
      exact .inl ⟨hx, hne x (List.mem_append_right _ hx)⟩
    · rintro (⟨hx, -⟩ | ⟨-, -, hpending⟩)
      · exact hx
      · exact absurd (hstatus.symm.trans hpending) (by decide)

/-- The first pending item is claimed. -/
theorem Books.claim {p : PayrollItem → Bool} {token : Uuid} {date : Date}
    (h : Books store job processing (item :: pending)) (hp : p item = true)
    (honly : ∀ row ∈ store.items.rows, p row = true → row = item)
    (hrows : store'.items.rows = updateWhere p (fun row => row.claim token date) store.items.rows)
    (hjobs : store'.jobs = store.jobs) :
    Books store' job (processing ++ [item.claim token date]) pending := by
  obtain ⟨hmem, hjob, hstatus⟩ := h.candidate_mem
  have hids : ((item :: (processing ++ pending)).map PayrollItem.id).Nodup :=
    (List.perm_middle.map _).nodup_iff.mp h.ids
  obtain ⟨hid, -⟩ := List.nodup_cons.mp hids
  have hne : ∀ x ∈ processing ++ pending, x ≠ item := fun x hx heq =>
    hid (List.mem_map.mpr ⟨x, hx, congrArg PayrollItem.id heq⟩)
  refine ⟨?_, fun x => ?_, fun x => ?_, ?_, (List.pairwise_cons.mp h.order).2⟩
  · obtain ⟨row, hr, hrow, hcounted⟩ := h.row
    refine ⟨row, by rwa [hjobs], hrow, hcounted.of_open hrows (fun _ => rfl) fun r hr hpr => ?_⟩
    obtain rfl := honly r hr hpr
    rw [hstatus]
    exact ⟨rfl, rfl⟩
  · rw [selected_update hrows hmem hp honly, ← h.mem_processing, List.mem_append, List.mem_singleton]
    constructor
    · rintro (hx | rfl)
      · exact .inl ⟨hx, hne x (List.mem_append_left _ hx)⟩
      · exact .inr ⟨rfl, hjob, rfl⟩
    · rintro (⟨hx, -⟩ | ⟨rfl, -⟩)
      · exact .inl hx
      · exact .inr rfl
  · rw [selected_update hrows hmem hp honly, ← h.mem_pending, List.mem_cons]
    constructor
    · intro hx
      exact .inl ⟨.inr hx, hne x (List.mem_append_right _ hx)⟩
    · rintro (⟨rfl | hx, hxne⟩ | ⟨-, -, hpending⟩)
      · exact absurd rfl hxne
      · exact hx
      · cases hpending
  · have hids' : ((item.claim token date :: (processing ++ pending)).map PayrollItem.id).Nodup := hids
    rw [List.append_assoc, List.singleton_append]
    exact (List.perm_middle.map _).nodup_iff.mpr hids'

/-- The first processing item is checkpointed, and its job counts it. -/
theorem Books.checkpoint {held : PayrollItem} {verdict : Verdict} {transferId : Option Uuid}
    {failureCode : Option String} {date : Date} (h : Books store job (item :: processing) pending)
    (hheld : heldBy held item = true) (hjob : held.payrollJobId = item.payrollJobId)
    (hrows : store'.items.rows = updateWhere (heldBy held)
      (fun row => row.checkpoint verdict transferId failureCode date) store.items.rows)
    (hjobs : store'.jobs.rows = updateWhere (fun job => decide (job.id = held.payrollJobId))
      (fun job => job.count verdict) store.jobs.rows) : Books store' job processing pending := by
  obtain ⟨hmem, hitem, hstatus⟩ := h.item_mem
  obtain ⟨hid, hids⟩ := List.nodup_cons.mp h.ids
  have hne : ∀ x ∈ processing ++ pending, x ≠ item := fun x hx heq =>
    hid (List.mem_map.mpr ⟨x, hx, congrArg PayrollItem.id heq⟩)
  have honly : ∀ row ∈ store.items.rows, heldBy held row = true → row = item := fun row hr hp =>
    store.item_eq hr hmem ((heldBy_processing hp).1.trans (heldBy_processing hheld).1.symm)
  refine ⟨?_, fun x => ?_, fun x => ?_, hids, h.order⟩
  · obtain ⟨row, hr, hrow, hcompleted, hfailed, htotal⟩ := h.row
    have hcount := fun {status : PayrollItemStatus} (hterminal : status.terminal = true) =>
      countItems_checkpoint hmem hheld hjob hrows row.id hterminal
    have hown : row.id = held.payrollJobId := hrow.trans (hitem.symm.trans hjob.symm)
    refine ⟨row.count verdict, ?_, (count_same row verdict).id.symm.trans hrow, ?_, ?_, ?_⟩
    · rw [hjobs]
      exact mem_updateWhere.mpr (.inr ⟨row, hr, decide_eq_true hown, rfl⟩)
    · rw [← (count_same row verdict).id, hcount rfl]
      cases verdict <;> simp [PayrollJob.count, Verdict.status, hown, hcompleted]
    · rw [← (count_same row verdict).id, hcount rfl]
      cases verdict <;> simp [PayrollJob.count, Verdict.status, hown, hfailed]
    · rw [← (count_same row verdict).id, ← (count_same row verdict).totalItems, htotal, hrows]
      symm
      refine countP_updateWhere_same fun other _ _ => ?_
      rfl
  · rw [selected_update hrows hmem hheld honly, ← h.mem_processing, List.mem_cons]
    constructor
    · intro hx
      exact .inl ⟨.inr hx, hne x (List.mem_append_left _ hx)⟩
    · rintro (⟨rfl | hx, hxne⟩ | ⟨-, -, hprocessing⟩)
      · exact absurd rfl hxne
      · exact hx
      · cases verdict <;> cases hprocessing
  · rw [selected_update hrows hmem hheld honly, ← h.mem_pending]
    constructor
    · intro hx
      exact .inl ⟨hx, hne x (List.mem_append_right _ hx)⟩
    · rintro (⟨hx, -⟩ | ⟨-, -, hpending⟩)
      · exact hx
      · cases verdict <;> cases hpending

/-! ### The statements succeed -/

/-- The columns that identify an item stay. -/
structure SameKeys (data : PayrollItem → PayrollItem) : Prop where
  id : ∀ row, (data row).id = row.id
  payrollJobId : ∀ row, (data row).payrollJobId = row.payrollJobId
  sequence : ∀ row, (data row).sequence = row.sequence
  externalItemId : ∀ row, (data row).externalItemId = row.externalItemId
  transferIdempotencyKey : ∀ row, (data row).transferIdempotencyKey = row.transferIdempotencyKey

theorem updateItem_succeeds {p : PayrollItem → Bool} (data : PayrollItem → PayrollItem)
    (hkeys : SameKeys data) (hitem : item ∈ store.items.rows) (hp : p item = true)
    (hid : ∀ row, p row = true → row.id = item.id) (hcheck : (data item).check = true)
    (htransfer : ∀ transferId, (data item).transferId = some transferId →
      ∀ row ∈ store.items.rows, row.transferId = some transferId → row.id = item.id) :
    ∃ rows, store.items.updateMany p data = .ok (rows, 1) ∧
      rows.rows = updateWhere p data store.items.rows := by
  have honly : ∀ row ∈ store.items.rows, p row = true → row = item := fun row hr hpr =>
    store.item_eq hr hitem (hid row hpr)
  have hone : store.items.rows.countP p = 1 := by
    have hpos : 0 < store.items.rows.countP p := List.countP_pos_iff.mpr ⟨item, hitem, hp⟩
    have hle := countP_le_one_of_uniqueBy store.item_ids hid
    omega
  have hindexed : itemsIndexed (updateWhere p data store.items.rows) = true := by
    have h := store.items.indexed
    simp only [itemsSchema, itemsIndexed, Bool.and_eq_true] at h
    obtain ⟨⟨⟨⟨hids, hexternal⟩, hsequence⟩, htransfers⟩, hkey⟩ := h
    simp only [itemsIndexed, Bool.and_eq_true]
    refine ⟨⟨⟨⟨?_, ?_⟩, ?_⟩, ?_⟩, ?_⟩
    · rwa [uniqueBy_updateWhere hkeys.id]
    · rwa [uniqueBy_updateWhere fun row => by rw [hkeys.payrollJobId, hkeys.externalItemId]]
    · rwa [uniqueBy_updateWhere fun row => by rw [hkeys.payrollJobId, hkeys.sequence]]
    · refine uniqueWhere_updateWhere_one htransfers hone.le fun a ha hpa k hk row hr hrow => ?_
      obtain rfl := honly a ha hpa
      rwa [store.item_eq hr hitem (htransfer k hk row hr hrow)]
    · rwa [uniqueBy_updateWhere hkeys.transferIdempotencyKey]
  obtain ⟨rows, hok, hrows⟩ := Table.updateMany_of_check (T := store.items) (p := p) (f := data)
    (fun row hr hpr => ⟨rfl, honly row hr hpr ▸ hcheck⟩) hindexed
  exact ⟨rows, hone ▸ hok, hrows⟩

theorem reclaim_check {token : Uuid} {date : Date} (h : item.check = true) :
    (item.reclaim token date).check = true := by
  simp only [PayrollItem.check, PayrollItem.reclaim, Bool.and_eq_true] at h ⊢
  exact ⟨⟨⟨rfl, h.1.1.2⟩, h.1.2⟩, h.2⟩

theorem claim_check {token : Uuid} {date : Date} (h : item.check = true) :
    (item.claim token date).check = true := by
  have hcheck : (item.reclaim token date).check = true := reclaim_check h
  exact hcheck

theorem checkpoint_check {verdict : Verdict} {transferId : Option Uuid} {failureCode : Option String}
    {date : Date} (h : item.check = true) (hcode : ∀ code ∈ failureCode, Varchar.fitsColumn 80 (Varchar.assign 80 code) = true) :
    (item.checkpoint verdict transferId failureCode date).check = true := by
  simp only [PayrollItem.check, PayrollItem.checkpoint, Bool.and_eq_true] at h ⊢
  refine ⟨⟨⟨rfl, h.1.1.2⟩, h.1.2⟩, ?_⟩
  cases verdict with
  | completed => rfl
  | failed =>
    cases failureCode with
    | none => decide +kernel
    | some code => exact hcode code rfl

theorem transferId_unique {other : PayrollItem} {transferId : Uuid} (h : item ∈ store.items.rows)
    (h' : other ∈ store.items.rows) (ht : item.transferId = some transferId)
    (ht' : other.transferId = some transferId) : other.id = item.id := by
  have hindexed := store.items.indexed
  simp only [itemsSchema, itemsIndexed, Bool.and_eq_true] at hindexed
  rw [eq_of_uniqueWhere hindexed.1.2 h' h ht' ht]

theorem updateJob_succeeds (data : PayrollJob → PayrollJob) {row : PayrollJob}
    (hr : row ∈ store.jobs.rows) (hid : ∀ job, (data job).id = job.id)
    (hbullmq : ∀ job, (data job).bullmqJobId = job.bullmqJobId) (hcheck : (data row).check = true) :
    ∃ store', updateJob store row.id data = .ok store' := by
  have hone : store.jobs.rows.countP (fun job => decide (job.id = row.id)) = 1 := by
    have hpos : 0 < store.jobs.rows.countP (fun job => decide (job.id = row.id)) :=
      List.countP_pos_iff.mpr ⟨row, hr, decide_eq_true rfl⟩
    have hle := countP_le_one_of_uniqueBy store.job_ids
      fun job (h : decide (job.id = row.id) = true) => of_decide_eq_true h
    omega
  have hindexed : jobsIndexed (updateWhere (fun job => decide (job.id = row.id)) data store.jobs.rows) = true := by
    have h := store.jobs.indexed
    simp only [jobsSchema, jobsIndexed, Bool.and_eq_true] at h
    simp only [jobsIndexed, Bool.and_eq_true]
    refine ⟨?_, ?_⟩
    · rw [uniqueBy_updateWhere hid]
      exact h.1
    · rw [uniqueWhere_updateWhere hbullmq]
      exact h.2
  obtain ⟨rows, hok, -⟩ := Table.updateMany_of_check (T := store.jobs)
    (p := fun job => decide (job.id = row.id)) (f := data)
    (fun job hj hp => ⟨rfl, (store.job_eq hj hr (of_decide_eq_true hp)).symm ▸ hcheck⟩) hindexed
  rw [hone] at hok
  rw [updateJob, hok]
  exact ⟨_, rfl⟩

/-- A job with an open item is not settled. -/
theorem Counted.lt_total {row : PayrollJob} (h : Counted store row) (hitem : item ∈ store.items.rows)
    (hjob : item.payrollJobId = row.id) (hopen : item.status.terminal = false) :
    row.completedItems + row.failedItems < row.totalItems := by
  have hcount := countP_status store.items.rows row.id
  have hpos : 0 < store.items.rows.countP
      (fun item => decide (item.payrollJobId = row.id) && !item.status.terminal) :=
    List.countP_pos_iff.mpr ⟨item, hitem, by simp [hjob, hopen]⟩
  have hcompleted := h.completed
  have hfailed := h.failed
  have htotal := h.total
  simp only [Store.countItems] at hcompleted hfailed
  omega

/-! ### One statement after another -/

def callOf (job : PayrollJob) (item : PayrollItem) : Uuid × TransferCall := (item.id, transferCall job item)

/-- An answer that shows a closed transfer: one that no other item was paid with, and whose failure
code can be stored, as those that Transaction has stored can. -/
def ClosedTransfer (store : Store) (item : PayrollItem) (reply : TransferReply) : Prop :=
  ∃ body transferId status, reply.body? = some body ∧ body.transferId = some transferId ∧
    body.status = some status ∧ (status = .completed ∨ status = .failed ∨ status = .reversed) ∧
    (∀ code ∈ body.failureCode, Varchar.fitsColumn 80 (Varchar.assign 80 code) = true) ∧
    ∀ row ∈ store.items.rows, row.transferId = some transferId → row.id = item.id

/-- The worker takes its next step, and a call it waits for is answered with a closed transfer. -/
def Turn (w : WorkerId) (s : State) (a : Action) : Prop :=
  ∃ c, a = .run w c ∧ ∀ worker job leaseToken item rest, s.workers w = some worker →
    worker.pc = some (.leased job leaseToken (.createDomestic item rest)) →
    ClosedTransfer s.store item c.reply

/-- The worker waits at a statement under its lease, which it has not lost; these are the calls that
were made before those of the statement. -/
structure At (s : State) (w : WorkerId) (job : PayrollJob) (leaseToken : Uuid) (statement : Statement)
    (calls : List (Uuid × TransferCall)) : Prop where
  worker : ∃ worker, s.workers w = some worker ∧ worker.leaseLost = false ∧
    worker.pc = some (.leased job leaseToken statement)
  calls : s.calls = calls ++ (statement.call job).toList

variable {s : State} {w : WorkerId} {leaseToken : Uuid} {statement : Statement} {rest : Rest}
  {calls : List (Uuid × TransferCall)} {P : State → Prop} {held : PayrollItem} {c : Choice}

theorem At.proceed {worker : Worker} (hlost : worker.leaseLost = false) :
    At (s.proceed w worker job leaseToken statement) w job leaseToken statement s.calls :=
  ⟨⟨_, State.proceed_workers_self, hlost, rfl⟩, rfl⟩

/-- The ends of a worker's steps; no other action is considered. -/
def ends (s : State) (next : Choice → State) : Action → State
  | .run _ c => next c
  | _ => s

/-- The statement runs, and the worker waits at the next one. -/
theorem At.later (h : At s w job leaseToken statement calls) (hne : statement ≠ .release)
    (hnext : ∀ c, (∀ item rest, statement = .createDomestic item rest → ClosedTransfer s.store item c.reply) →
      ∀ s', At s' w job leaseToken (advance c false s.store job statement).2
          (calls ++ (statement.call job).toList) →
        s'.store = (advance c false s.store job statement).1 → system.Inevitable (Turn w) P s') :
    system.Inevitable (Turn w) P s := by
  obtain ⟨worker, hw, hlost, hpc⟩ := h.worker
  let next (c : Choice) : State := (s.withStore (advance c false s.store job statement).1).proceed w worker
    job leaseToken (advance c false s.store job statement).2
  have hrun : ∀ c, step s (.run w c) = some (next c) := by
    intro c
    have hstep : runWorker s w worker c (.leased job leaseToken statement) = next c := by
      cases statement with
      | release => exact absurd rfl hne
      | _ =>
        simp only [runWorker, hlost]
        rfl
    simp only [step, hw, hpc, Option.map_some, hstep]
  refine .later (ends s next) ?_ ?_
  · rintro _ ⟨c, rfl, -⟩
    exact hrun c
  · rintro _ ⟨c, rfl, hclosed⟩
    refine hnext c (fun item rest hst => ?_) (next c) ?_ rfl
    · subst hst
      exact hclosed worker job leaseToken item rest hw hpc
    · rw [← h.calls]
      exact At.proceed hlost

theorem executeItem_closed {reply : TransferReply} (h : ClosedTransfer store item reply) (rest : Rest) :
    ∃ verdict transferId failureCode,
      executeItem item rest reply = .checkpoint item verdict (some transferId) failureCode rest ∧
      (∀ code ∈ failureCode, Varchar.fitsColumn 80 (Varchar.assign 80 code) = true) ∧
      ∀ row ∈ store.items.rows, row.transferId = some transferId → row.id = item.id := by
  obtain ⟨body, transferId, status, hbody, htransfer, hstatus, hclosed, hcode, hfresh⟩ := h
  have hresponse : executeItem item rest reply = checkpointResponse item rest body := by
    cases reply with
    | ok body' =>
      cases hbody
      rfl
    | http code text body' =>
      cases hbody
      simp [executeItem, htransfer, hstatus]
    | unavailable => cases hbody
  have hcodes : ∀ text : String, Varchar.fitsColumn 80 (Varchar.assign 80 text) = true →
      ∀ code ∈ body.failureCode <|> some text, Varchar.fitsColumn 80 (Varchar.assign 80 code) = true := by
    intro text htext code hmem
    cases hfailure : body.failureCode with
    | none =>
      rw [hfailure] at hmem
      cases hmem
      exact htext
    | some code' =>
      rw [hfailure] at hmem
      cases hmem
      exact hcode _ hfailure
  rw [hresponse, checkpointResponse, hstatus, htransfer]
  obtain rfl | rfl | rfl := hclosed
  · exact ⟨.completed, transferId, none, rfl, by simp, hfresh⟩
  · exact ⟨.failed, transferId, _, rfl, hcodes _ (by decide +kernel), hfresh⟩
  · exact ⟨.failed, transferId, _, rfl, hcodes _ (by decide +kernel), hfresh⟩

/-- A checkpoint closes the item that the worker holds. -/
theorem runCheckpoint_books {verdict : Verdict} {transferId : Uuid} {failureCode : Option String}
    (h : Books store job (item :: processing) pending) (hheld : heldBy held item = true)
    (hjob : held.payrollJobId = item.payrollJobId)
    (hcode : ∀ code ∈ failureCode, Varchar.fitsColumn 80 (Varchar.assign 80 code) = true)
    (hfresh : ∀ row ∈ store.items.rows, row.transferId = some transferId → row.id = held.id) :
    ∃ store', runCheckpoint c false store held verdict (some transferId) failureCode rest =
      (store', nextItem false rest) ∧ Books store' job processing pending := by
  obtain ⟨hmem, hitem, hstatus⟩ := h.item_mem
  have hid : item.id = held.id := (heldBy_processing hheld).1
  obtain ⟨items, hitems, hrows⟩ := updateItem_succeeds
    (fun row => row.checkpoint verdict (some transferId) failureCode c.date)
    ⟨fun _ => rfl, fun _ => rfl, fun _ => rfl, fun _ => rfl, fun _ => rfl⟩ hmem hheld
    (fun row hp => (heldBy_processing hp).1.trans hid.symm)
    (checkpoint_check (store.items.checked item hmem) hcode) (fun t ht row hr hrow => by
      cases ht
      exact (hfresh row hr hrow).trans hid.symm)
  obtain ⟨row, hr, hrow, hcounted⟩ := h.row
  have hopen : item.status.terminal = false := by
    rw [hstatus]
    rfl
  have hlt := hcounted.lt_total hmem (hitem.trans hrow.symm) hopen
  have hcheck : (row.count verdict).check = true := by
    have hold := store.jobs.checked row hr
    simp only [jobsSchema, PayrollJob.check, Bool.and_eq_true, decide_eq_true_eq] at hold ⊢
    obtain ⟨⟨hamount, htotal⟩, -⟩ := hold
    cases verdict with
    | completed => exact ⟨⟨hamount, htotal⟩, by simp only [PayrollJob.count]; omega⟩
    | failed => exact ⟨⟨hamount, htotal⟩, by simp only [PayrollJob.count]; omega⟩
  have hr' : row ∈ ({ store with items := items } : Store).jobs.rows := hr
  obtain ⟨store', hstore'⟩ := updateJob_succeeds (fun job => job.count verdict) hr'
    (fun job => (count_same job verdict).id.symm) (fun job => by cases verdict <;> rfl) hcheck
  have hown : row.id = held.payrollJobId := hrow.trans (hitem.symm.trans hjob.symm)
  obtain ⟨hjobs', hitems'⟩ := updateJob_ok hstore'
  have hcheckpoint : checkpoint store held verdict (some transferId) failureCode c.date = .ok store' := by
    rw [checkpoint, hitems, ok_bind]
    rw [hown] at hstore'
    exact hstore'
  refine ⟨store', ?_, ?_⟩
  · rw [runCheckpoint, hcheckpoint]
  · rw [hown] at hjobs'
    have hsame : store'.items = items := hitems'
    rw [← hsame] at hrows
    exact h.checkpoint hheld hjob hrows hjobs'

/-! ### The loops -/

/-- A claimed item is paid. -/
theorem At.pay (h : At s w job leaseToken (.createDomestic held rest) calls)
    (hb : Books s.store job (item :: processing) pending) (hheld : heldBy held item = true)
    (hjob : held.payrollJobId = item.payrollJobId)
    (hnext : ∀ s', At s' w job leaseToken (nextItem false rest) (calls ++ [callOf job held]) →
      Books s'.store job processing pending → system.Inevitable (Turn w) P s') :
    system.Inevitable (Turn w) P s := by
  refine h.later (by simp) fun c hclosed s₁ h₁ hstore₁ => ?_
  obtain ⟨verdict, transferId, failureCode, hexecute, hcode, hfresh⟩ :=
    executeItem_closed (hclosed held rest rfl) rest
  simp only [advance, hexecute] at h₁ hstore₁
  refine h₁.later (by simp) fun c s₂ s' h' hstore' => ?_
  rw [← hstore₁] at hb hfresh
  obtain ⟨store', hrun, hb'⟩ :=
    @runCheckpoint_books s₁.store job item processing pending rest held c verdict transferId failureCode
      hb hheld hjob hcode hfresh
  simp only [advance, hrun] at h' hstore'
  refine hnext s' ?_ (hstore' ▸ hb')
  simpa [Statement.call, callOf] using h'

/-- The loop of `reconcileClaimedItems`. -/
theorem At.reconcile (h : At s w job leaseToken (nextItem false (.reconciling items)) calls)
    (hb : Books s.store job items pending)
    (hnext : ∀ s', At s' w job leaseToken .batchRead (calls ++ items.map (callOf job)) →
      Books s'.store job [] pending → system.Inevitable (Turn w) P s') :
    system.Inevitable (Turn w) P s := by
  induction items generalizing s calls with
  | nil => exact hnext s (by simpa [nextItem, enterBatch] using h) hb
  | cons item items ih =>
    have h : At s w job leaseToken (.reclaim item items) calls := h
    refine h.later (by simp) fun c _ s₁ h₁ hstore₁ => ?_
    obtain ⟨hmem, hjob, hstatus⟩ := hb.item_mem
    have hmatch : (decide (item.id = item.id) && decide (item.status = .processing)) = true := by
      simp [hstatus]
    have hid : ∀ row : PayrollItem,
        (decide (row.id = item.id) && decide (row.status = .processing)) = true → row.id = item.id := by
      intro row hrow
      simp only [Bool.and_eq_true, decide_eq_true_eq] at hrow
      exact hrow.1
    obtain ⟨rows, hupdate, hrows⟩ := updateItem_succeeds (fun row => row.reclaim c.token c.date)
      ⟨fun _ => rfl, fun _ => rfl, fun _ => rfl, fun _ => rfl, fun _ => rfl⟩ hmem hmatch hid
      (reclaim_check (s.store.items.checked item hmem))
      (fun t ht row hr hrow => transferId_unique hmem hr ht hrow)
    simp only [advance, runReclaim, hupdate, if_true] at h₁ hstore₁
    have hb₁ : Books s₁.store job (item.reclaim c.token c.date :: items) pending := by
      refine hb.reclaim hmatch (fun row hr hp => s.store.item_eq hr hmem (hid row hp)) ?_ ?_
      · rw [hstore₁]
        exact hrows
      · rw [hstore₁]
    refine h₁.pay hb₁ ?_ rfl fun s' h' hb' => ih h' hb' ?_
    · simp [heldBy, PayrollItem.reclaim, hstatus]
    · intro s'' h'' hb''
      refine hnext s'' ?_ hb''
      -- the token of a claim is no part of the call
      have h'' : At s'' w job leaseToken .batchRead (calls ++ [] ++ [callOf job item] ++ items.map (callOf job)) :=
        h''
      simpa [List.append_assoc] using h''

/-- The loop of `claimPendingBatch`. -/
theorem At.claims {candidates : List PayrollItem}
    (h : At s w job leaseToken (nextCandidate false claimed candidates) calls)
    (hb : Books s.store job claimed (candidates ++ pending)) (hne : claimed ++ candidates ≠ [])
    (hnext : ∀ s' batch, At s' w job leaseToken (nextItem false (.batch batch)) calls →
      Books s'.store job batch pending →
      batch.map (callOf job) = (claimed ++ candidates).map (callOf job) →
      system.Inevitable (Turn w) P s') : system.Inevitable (Turn w) P s := by
  induction candidates generalizing s claimed with
  | nil =>
    rw [List.append_nil] at hne
    rw [nextCandidate, if_neg hne] at h
    exact hnext s claimed h hb (by rw [List.append_nil])
  | cons item candidates ih =>
    have h : At s w job leaseToken (.claim item candidates claimed) calls := h
    have hb : Books s.store job claimed (item :: (candidates ++ pending)) := hb
    refine h.later (by simp) fun c _ s₁ h₁ hstore₁ => ?_
    obtain ⟨hmem, hjob, hstatus⟩ := hb.candidate_mem
    have hmatch : (decide (item.id = item.id) && decide (item.status = .pending)) = true := by
      simp [hstatus]
    have hid : ∀ row : PayrollItem,
        (decide (row.id = item.id) && decide (row.status = .pending)) = true → row.id = item.id := by
      intro row hrow
      simp only [Bool.and_eq_true, decide_eq_true_eq] at hrow
      exact hrow.1
    obtain ⟨rows, hupdate, hrows⟩ := updateItem_succeeds (fun row => row.claim c.token c.date)
      ⟨fun _ => rfl, fun _ => rfl, fun _ => rfl, fun _ => rfl, fun _ => rfl⟩ hmem hmatch hid
      (claim_check (s.store.items.checked item hmem))
      (fun t ht row hr hrow => transferId_unique hmem hr ht hrow)
    simp only [advance, runClaim, hupdate, if_true] at h₁ hstore₁
    have hb₁ : Books s₁.store job (claimed ++ [item.claim c.token c.date]) (candidates ++ pending) := by
      refine hb.claim hmatch (fun row hr hp => s.store.item_eq hr hmem (hid row hp)) ?_ ?_
      · rw [hstore₁]
        exact hrows
      · rw [hstore₁]
    refine ih (by simpa [Statement.call] using h₁) hb₁ (by simp) fun s' batch h' hb' hmap => ?_
    refine hnext s' batch h' hb' ?_
    rw [hmap]
    simp [callOf, PayrollItem.claim, PayrollItem.reclaim, transferCall, PayrollItem.amountText]

/-- The loop over a batch. -/
theorem At.batch (h : At s w job leaseToken (nextItem false (.batch items)) calls)
    (hb : Books s.store job items pending)
    (hnext : ∀ s', At s' w job leaseToken .batchRead (calls ++ items.map (callOf job)) →
      Books s'.store job [] pending → system.Inevitable (Turn w) P s') :
    system.Inevitable (Turn w) P s := by
  induction items generalizing s calls with
  | nil => exact hnext s (by simpa [nextItem, enterBatch] using h) hb
  | cons item items ih =>
    have h : At s w job leaseToken (.createDomestic item (.batch items)) calls := by
      simpa [nextItem] using h
    obtain ⟨-, -, hstatus⟩ := hb.item_mem
    refine h.pay hb (by simp [heldBy, hstatus]) rfl fun s' h' hb' => ih h' hb' fun s'' h'' hb'' => ?_
    exact hnext s'' (by simpa [List.append_assoc] using h'') hb''

/-- The loop of `process`: every round leaves fewer pending items. -/
theorem At.batches (h : At s w job leaseToken .batchRead calls) (hb : Books s.store job [] pending)
    (hnext : ∀ s', At s' w job leaseToken .finalizeRead (calls ++ pending.map (callOf job)) →
      Books s'.store job [] [] → system.Inevitable (Turn w) P s') :
    system.Inevitable (Turn w) P s := by
  induction hn : pending.length using Nat.strong_induction_on generalizing s calls pending with
  | _ n ih =>
    have hselect : selectItems s.store job.id .pending = pending := selectItems_eq hb.order hb.mem_pending
    refine h.later (by simp) fun c _ s₁ h₁ hstore₁ => ?_
    simp only [advance, hselect] at h₁ hstore₁
    rw [← hstore₁] at hb
    by_cases hnil : pending = []
    · subst hnil
      refine hnext s₁ ?_ hb
      simpa [nextCandidate, Statement.call] using h₁
    · have hsplit := List.take_append_drop itemBatchSize pending
      have hpos : 0 < pending.length := List.length_pos_iff.mpr hnil
      have htake : pending.take itemBatchSize ≠ [] := by
        rw [Ne, List.take_eq_nil_iff, not_or]
        exact ⟨by decide, hnil⟩
      rw [← hsplit] at hb
      refine h₁.claims hb htake fun s₂ batch h₂ hb₂ hmap => h₂.batch hb₂ fun s₃ h₃ hb₃ => ?_
      have hlt : (pending.drop itemBatchSize).length < n := by
        have hsize : itemBatchSize = 100 := rfl
        rw [List.length_drop]
        omega
      refine ih _ hlt h₃ hb₃ (fun s₄ h₄ hb₄ => hnext s₄ ?_ hb₄) rfl
      have h₄ : At s₄ w job leaseToken .finalizeRead
          (calls ++ [] ++ batch.map (callOf job) ++ (pending.drop itemBatchSize).map (callOf job)) := h₄
      rwa [hmap, List.nil_append, List.append_nil, List.append_assoc, ← List.map_append, hsplit] at h₄

/-! ### The run -/

theorem Books.closed (h : Books store job [] []) (hitem : item ∈ store.items.rows)
    (hjob : item.payrollJobId = job.id) : item.status.terminal = true := by
  cases hstatus : item.status with
  | pending => exact absurd ((h.mem_pending item).mpr ⟨hitem, hjob, hstatus⟩) List.not_mem_nil
  | processing => exact absurd ((h.mem_processing item).mpr ⟨hitem, hjob, hstatus⟩) List.not_mem_nil
  | completed => rfl
  | failed => rfl

theorem Counted.settled {row : PayrollJob} (h : Counted store row)
    (hclosed : ∀ item ∈ store.items.rows, item.payrollJobId = row.id → item.status.terminal = true) :
    row.Settled := by
  have hcount := countP_status store.items.rows row.id
  have hzero : store.items.rows.countP
      (fun item => decide (item.payrollJobId = row.id) && !item.status.terminal) = 0 := by
    rw [List.countP_eq_zero]
    intro item hitem hp
    simp only [Bool.and_eq_true, decide_eq_true_eq, Bool.not_eq_true'] at hp
    rw [hclosed item hitem hp.1] at hp
    cases hp.2
  have hcompleted := h.completed
  have hfailed := h.failed
  have htotal := h.total
  simp only [Store.countItems] at hcompleted hfailed
  rw [PayrollJob.Settled]
  omega

/-- A run of `process` that has paid the job. -/
structure Paid (s : State) (w : WorkerId) (job : PayrollJob) (calls : List (Uuid × TransferCall)) : Prop where
  ended : ∃ worker, s.workers w = some worker ∧ worker.pc = none
  calls : s.calls = calls
  closed : ∀ item ∈ s.store.items.rows, item.payrollJobId = job.id → item.status.terminal = true
  row : ∃ row ∈ s.store.jobs.rows, row.id = job.id ∧ Counted s.store row ∧ row.Settled ∧
    row.status = row.finalStatus

/-- The release of the lease ends the run. -/
theorem At.release (h : At s w job leaseToken .release calls)
    (hclosed : ∀ item ∈ s.store.items.rows, item.payrollJobId = job.id → item.status.terminal = true)
    (hrow : ∃ row ∈ s.store.jobs.rows, row.id = job.id ∧ Counted s.store row ∧ row.Settled ∧
      row.status = row.finalStatus) : system.Inevitable (Turn w) (fun s' => Paid s' w job calls) s := by
  obtain ⟨worker, hw, -, hpc⟩ := h.worker
  have hcalls : s.calls = calls := h.calls.trans (List.append_nil _)
  refine .later (fun _ => (s.withStore (if s.store.leases job.employerId = some leaseToken then
      setLease s.store job.employerId none else s.store)).setWorker w { worker with pc := none }) ?_ ?_
  · rintro _ ⟨c, rfl, -⟩
    change step s (.run w c) = _
    rw [step, hw]
    simp only [hpc, Option.map_some]
    rfl
  · intro a _
    obtain ⟨row, hr, hid, hcounted, hsettled, hstatus⟩ := hrow
    refine .now ⟨⟨_, State.setWorker_workers_self, rfl⟩, hcalls, ?_, row, ?_, hid, ?_, hsettled, hstatus⟩
    · split
      · exact hclosed
      · exact hclosed
    · split
      · exact hr
      · exact hr
    · refine hcounted.of_same ?_ (.refl row) rfl rfl
      split
      · rfl
      · rfl

/-- `finalize` finds every item counted. -/
theorem At.finalize (h : At s w job leaseToken .finalizeRead calls) (hb : Books s.store job [] []) :
    system.Inevitable (Turn w) (fun s' => Paid s' w job calls) s := by
  obtain ⟨row, hr, hid, hcounted⟩ := hb.row
  have hclosed : ∀ item ∈ s.store.items.rows, item.payrollJobId = row.id → item.status.terminal = true :=
    fun item hitem hjob => hb.closed hitem (hjob.trans hid)
  have hsettled := hcounted.settled hclosed
  have hfind : s.store.findJob job.id = some row := Store.findJob_eq_some_iff.mpr ⟨hr, hid⟩
  refine h.later (by simp) fun c _ s₁ h₁ hstore₁ => ?_
  have hread : runFinalizeRead s.store job = .finalizeWrite row.finalStatus := by
    rw [runFinalizeRead, hfind]
    exact if_neg (not_not.mpr hsettled)
  simp only [advance, hread] at h₁ hstore₁
  refine h₁.later (by simp) fun c _ s₂ h₂ hstore₂ => ?_
  obtain ⟨store', hstore'⟩ := updateJob_succeeds (fun job => job.finalize row.finalStatus c.date) hr
    (fun _ => rfl) (fun _ => rfl) (s.store.jobs.checked row hr)
  obtain ⟨hjobs', hitems'⟩ := updateJob_ok hstore'
  rw [hid] at hstore'
  simp only [advance, runFinalizeWrite, hstore₁, hstore'] at h₂ hstore₂
  have h₂ : At s₂ w job leaseToken .release (calls ++ [] ++ []) := h₂
  rw [List.append_nil, List.append_nil] at h₂
  refine h₂.release ?_ ⟨row.finalize row.finalStatus c.date, ?_, hid, ?_, hsettled, rfl⟩
  · rw [hstore₂, hitems']
    exact fun item hitem hjob => hclosed item hitem (hjob.trans hid.symm)
  · rw [hstore₂, hjobs']
    exact mem_updateWhere.mpr (.inr ⟨row, hr, decide_eq_true rfl, rfl⟩)
  · rw [hstore₂]
    exact hcounted.of_same hitems' ⟨rfl, rfl, rfl, rfl⟩ rfl rfl

/-- What `process` does under its lease. -/
theorem At.process (h : At s w job leaseToken .markProcessing calls) {row : PayrollJob}
    (hr : row ∈ s.store.jobs.rows) (hid : row.id = job.id) (hcounted : Counted s.store row) :
    system.Inevitable (Turn w) (fun s' => Paid s' w job (calls ++ (selectItems s.store job.id .processing ++
      selectItems s.store job.id .pending).map (callOf job))) s := by
  refine h.later (by simp) fun c _ s₁ h₁ hstore₁ => ?_
  obtain ⟨store', hstore'⟩ := updateJob_succeeds
    (fun row => row.markProcessing (job.startedAt.getD c.date)) hr (fun _ => rfl) (fun _ => rfl)
    (s.store.jobs.checked row hr)
  obtain ⟨hjobs', hitems'⟩ := updateJob_ok hstore'
  rw [hid] at hstore'
  simp only [advance, runMarkProcessing, hstore'] at h₁ hstore₁
  have hselect : ∀ status, selectItems s₁.store job.id status = selectItems s.store job.id status := by
    intro status
    rw [hstore₁, selectItems, hitems', selectItems]
  have hb : Books s₁.store job (selectItems s.store job.id .processing)
      (selectItems s.store job.id .pending) := by
    rw [← hselect, ← hselect]
    refine .of_selectItems ⟨row.markProcessing (job.startedAt.getD c.date), ?_, hid, ?_⟩
    · rw [hstore₁, hjobs']
      exact mem_updateWhere.mpr (.inr ⟨row, hr, decide_eq_true rfl, rfl⟩)
    · rw [hstore₁]
      exact hcounted.of_same hitems' ⟨rfl, rfl, rfl, rfl⟩ rfl rfl
  refine h₁.later (by simp) fun c _ s₂ h₂ hstore₂ => ?_
  simp only [advance, hselect] at h₂ hstore₂
  rw [← hstore₂] at hb
  refine h₂.reconcile hb fun s₃ h₃ hb₃ => h₃.batches hb₃ fun s₄ h₄ hb₄ => ?_
  have h₄ : At s₄ w job leaseToken .finalizeRead (calls ++ [] ++ [] ++
      (selectItems s.store job.id .processing).map (callOf job) ++
      (selectItems s.store job.id .pending).map (callOf job)) := h₄
  rw [List.append_nil, List.append_nil, List.append_assoc, ← List.map_append] at h₄
  exact h₄.finalize hb₄

/-- The lease is free, and the worker takes it. -/
theorem acquire_turn {worker : Worker} (hw : s.workers w = some worker) (hlost : worker.leaseLost = false)
    (hpc : worker.pc = some (.acquire job)) (hlease : s.store.leases job.employerId = none)
    (hnext : ∀ leaseToken s', At s' w job leaseToken .markProcessing s.calls →
      s'.store = setLease s.store job.employerId (some leaseToken) → system.Inevitable (Turn w) P s') :
    system.Inevitable (Turn w) P s := by
  let next (c : Choice) : State := (s.withStore (setLease s.store job.employerId (some c.token))).proceed w
    worker job c.token .markProcessing
  refine .later (fun a => match a with
    | .run _ c => next c
    | _ => s) ?_ ?_
  · rintro _ ⟨c, rfl, -⟩
    have hstep : runWorker s w worker c (.acquire job) = next c := by simp only [runWorker, hlease, next]
    change step s (.run w c) = some (next c)
    simp only [step, hw, hpc, Option.map_some, hstep]
  · rintro _ ⟨c, rfl, -⟩
    exact hnext c.token (next c) (At.proceed hlost) rfl

/-- The worker reads its job. -/
theorem find_turn {worker : Worker} (hw : s.workers w = some worker) (hpc : worker.pc = some .findJob)
    (hnext : system.Inevitable (Turn w) P
      (s.setWorker w { worker with pc := readJob s.store worker.jobId })) :
    system.Inevitable (Turn w) P s := by
  refine .later (fun _ => s.setWorker w { worker with pc := readJob s.store worker.jobId }) ?_
    fun _ _ => hnext
  rintro _ ⟨c, rfl, -⟩
  change step s (.run w c) = some _
  simp only [step, hw, hpc, Option.map_some, runWorker]

/-- A job that has its final status has no open items. -/
theorem Counted.openItems_eq_nil (h : Counted store job) (hsettled : job.Settled) :
    openItems store job.id = [] := by
  rw [List.eq_nil_iff_forall_not_mem]
  intro item hitem
  have hopen : ∀ {status : PayrollItemStatus}, status.terminal = false →
      item ∉ selectItems store job.id status := by
    intro status hstatus hmem
    obtain ⟨hrow, hjob, rfl⟩ := mem_selectItems.mp hmem
    have hlt := h.lt_total hrow hjob hstatus
    rw [PayrollJob.Settled] at hsettled
    omega
  obtain hitem | hitem := List.mem_append.mp hitem
  · exact hopen rfl hitem
  · exact hopen rfl hitem

/-- A run of `process`, from the read of its job. -/
theorem process_inevitable {s : State} {worker : Worker} (hw : s.workers w = some worker)
    (hlost : worker.leaseLost = false) (hpc : worker.pc = some .findJob) (hjobId : worker.jobId = job.id)
    (hjob : job ∈ s.store.jobs.rows) (hlease : s.store.leases job.employerId = none)
    (hcounted : Counted s.store job)
    (hverdict : job.status.terminal = true → job.Settled ∧ job.status = job.finalStatus) :
    system.Inevitable (Turn w)
      (fun s' => Paid s' w job (s.calls ++ (openItems s.store job.id).map (callOf job))) s := by
  refine find_turn hw hpc ?_
  have hread : readJob s.store worker.jobId =
      if job.status.terminal = true then none else some (.acquire job) := by
    rw [readJob, hjobId, Store.findJob_eq_some_iff.mpr ⟨hjob, rfl⟩]
  rw [hread]
  by_cases hterminal : job.status.terminal = true
  · obtain ⟨hsettled, hstatus⟩ := hverdict hterminal
    have hnil := hcounted.openItems_eq_nil hsettled
    rw [if_pos hterminal, hnil, List.map_nil, List.append_nil]
    refine .now ⟨⟨_, State.setWorker_workers_self, rfl⟩, rfl, fun item hitem hown => ?_,
      job, hjob, rfl, hcounted, hsettled, hstatus⟩
    have hmem : item ∈ openItems s.store job.id ↔ item.status.terminal = false := mem_openItems hitem hown
    rw [hnil] at hmem
    simpa using hmem
  · rw [if_neg hterminal]
    refine acquire_turn State.setWorker_workers_self hlost rfl hlease fun leaseToken s' h' hstore' => ?_
    have hitems : s'.store.items = s.store.items := by
      rw [hstore']
      rfl
    have hselect : ∀ status, selectItems s'.store job.id status = selectItems s.store job.id status := by
      intro status
      rw [selectItems, hitems, selectItems]
    have hr : job ∈ s'.store.jobs.rows := by
      rw [hstore']
      exact hjob
    have hprocess := h'.process hr rfl (hcounted.of_same hitems (.refl job) rfl rfl)
    rw [hselect, hselect] at hprocess
    exact hprocess

/-- A run of `process` by a worker, up to the given number of its steps. -/
def processRun (w : WorkerId) (jobId : Uuid) (choices : ℕ → Choice) (n : ℕ) : List Action :=
  .start w jobId :: (List.range n).map fun k => .run w (choices k)

/-- Whatever the mix of its items, a run of `process` on a job whose books agree, which keeps its lease
and is given a closed transfer for every call, ends: it calls Transaction once for each open item, the
processing ones first and each in their order, and leaves every item closed and the job with the status
of its counts. -/
theorem process_pays_open_items {s : State} {w : WorkerId} {job : PayrollJob} (hw : s.workers w = none)
    (hjob : job ∈ s.store.jobs.rows) (hlease : s.store.leases job.employerId = none)
    (hcounted : Counted s.store job)
    (hverdict : job.status.terminal = true → job.Settled ∧ job.status = job.finalStatus)
    (choices : ℕ → Choice)
    (hclosed : ∀ n s', system.run s (processRun w job.id choices n) = some s' →
      ∀ worker job' leaseToken item rest, s'.workers w = some worker →
        worker.pc = some (.leased job' leaseToken (.createDomestic item rest)) →
        ClosedTransfer s'.store item (choices n).reply) :
    ∃ n s', system.run s (processRun w job.id choices n) = some s' ∧
      Paid s' w job (s.calls ++ (openItems s.store job.id).map (callOf job)) ∧
      ∀ item ∈ s.store.items.rows, item.payrollJobId = job.id →
        (((openItems s.store job.id).map (callOf job)).map Prod.fst).count item.id =
          if item.status.terminal then 0 else 1 := by
  let s₁ := s.setWorker w ⟨job.id, false, 0, some .findJob⟩
  have hstart : step s (.start w job.id) = some s₁ := by
    simp only [step, hw]
    rfl
  have hinevitable : system.Inevitable (Turn w)
      (fun s' => Paid s' w job (s.calls ++ (openItems s.store job.id).map (callOf job))) s₁ :=
    process_inevitable State.setWorker_workers_self rfl rfl rfl hjob hlease
      (hcounted.of_same rfl (.refl job) rfl rfl) hverdict
  have hrun : ∀ n, system.run s (processRun w job.id choices n) =
      system.run s₁ ((List.range n).map fun k => .run w (choices k)) := fun n => System.run_cons hstart _
  obtain ⟨n, s', hs', hpaid⟩ := hinevitable.exists_run (fun k => .run w (choices k)) fun n s' hs' =>
    ⟨choices n, rfl, hclosed n s' ((hrun n).trans hs')⟩
  refine ⟨n, s', (hrun n).trans hs', hpaid, fun item hitem hown => ?_⟩
  rw [List.map_map]
  exact count_openItems hitem hown

open Transaction (usd twentyFive senderWallet recipientWallet)

/-- The test of `ClosedTransfer`. -/
def closesTransfer (store : Store) (item : PayrollItem) (reply : TransferReply) : Bool :=
  match reply.body? with
  | some ⟨some transferId, some status, failureCode⟩ =>
    (decide (status = .completed) || decide (status = .failed) || decide (status = .reversed)) &&
      failureCode.all (fun code => Varchar.fitsColumn 80 (Varchar.assign 80 code)) &&
      store.items.rows.all fun row => decide (row.transferId ≠ some transferId) || decide (row.id = item.id)
  | _ => false

theorem closesTransfer_sound {reply : TransferReply} (h : closesTransfer store item reply = true) :
    ClosedTransfer store item reply := by
  simp only [closesTransfer] at h
  split at h
  · next transferId status failureCode hbody =>
    simp only [Bool.and_eq_true, Bool.or_eq_true, decide_eq_true_eq, Option.all_eq_true,
      List.all_eq_true, or_assoc] at h
    obtain ⟨⟨hstatus, hcode⟩, hfresh⟩ := h
    refine ⟨_, transferId, status, hbody, rfl, rfl, hstatus, fun code hmem => hcode code hmem, ?_⟩
    intro row hr hrow
    exact (hfresh row hr).resolve_left (not_not.mpr hrow)
  · cases h

/-- The test of an answer that a worker is given. -/
def closesCall (s : State) (w : WorkerId) (reply : TransferReply) : Bool :=
  match s.workers w with
  | some ⟨_, _, _, some (.leased _ _ (.createDomestic item _))⟩ => closesTransfer s.store item reply
  | _ => true

/-- Payments of 25.00 USD to two employees. -/
def payrollOfTwo : CreatePayrollJob :=
  { payrollCommand with
    items := [⟨"employee-001", ⟨recipientWallet, 0⟩, twentyFive⟩,
      ⟨"employee-002", ⟨recipientWallet, 0⟩, twentyFive⟩] }

/-- A worker stops after it claimed one of the items. -/
def interruptedRun : List Action :=
  [.submit 1 (fun sequence => 10 + sequence) "employer-a" payrollOfTwo, .start 0 1] ++
    runs 0 [{}, { token := 100 }, {}, {}, {}, { token := 101 }] ++ [.stop 0, .expire "employer-a"]

/-- Every call is answered with a transfer of its own that is completed. -/
def completingChoices (n : ℕ) : Choice :=
  { token := 200 + n, date := n, reply := .ok ⟨some (900 + n), some .completed, none⟩ }

theorem closesCall_sound {reply : TransferReply} (h : closesCall s w reply = true) {worker : Worker}
    (hw : s.workers w = some worker)
    (hpc : worker.pc = some (.leased job leaseToken (.createDomestic item rest))) :
    ClosedTransfer s.store item reply := by
  obtain ⟨jobId, leaseLost, call, pc⟩ := worker
  obtain rfl : pc = _ := hpc
  simp only [closesCall, hw] at h
  exact closesTransfer_sound h

/-- The last step of the second worker is the fifteenth. -/
theorem completingChoices_close {s' : State} (n : ℕ)
    (h : system.run .initial (interruptedRun ++ processRun 1 1 completingChoices n) = some s') :
    closesCall s' 1 (completingChoices n).reply = true := by
  have hall : ((List.range 16).all fun n =>
      (system.run .initial (interruptedRun ++ processRun 1 1 completingChoices n)).all fun s =>
        closesCall s 1 (completingChoices n).reply) = true := by decide +kernel
  have hend : (system.run .initial (interruptedRun ++ processRun 1 1 completingChoices 16)).isNone = true := by
    decide +kernel
  by_cases hn : n < 16
  · have hclose := List.all_eq_true.mp hall n (List.mem_range.mpr hn)
    rw [h] at hclose
    exact hclose
  · obtain ⟨k, rfl⟩ := Nat.exists_eq_add_of_le (Nat.le_of_not_lt hn)
    have hsplit : processRun 1 1 completingChoices (16 + k) = processRun 1 1 completingChoices 16 ++
        ((List.range k).map (16 + ·)).map fun k => .run 1 (completingChoices k) := by
      rw [processRun, List.range_add, List.map_append]
      rfl
    rw [hsplit, ← List.append_assoc, System.run_append_eq_bind, Option.isNone_iff_eq_none.mp hend] at h
    cases h

theorem process_pays_open_items_interruptedRun : ∃ s, system.run .initial interruptedRun = some s ∧
    s.store.items.rows.map (fun item => item.status) = [.processing, .pending] ∧
    ∃ job ∈ s.store.jobs.rows, ∃ n s', system.run s (processRun 1 job.id completingChoices n) = some s' ∧
      Paid s' 1 job (s.calls ++ (openItems s.store job.id).map (callOf job)) := by
  have hrun : ((system.run .initial interruptedRun).map fun s => (s.workers 1).isNone &&
      decide (s.store.items.rows.map (fun item => item.status) = [.processing, .pending]) &&
      s.store.jobs.rows.any fun job => decide (job.id = 1) && !job.status.terminal &&
        (s.store.leases job.employerId).isNone) = some true := by decide +kernel
  obtain ⟨s, hs, hfacts⟩ := Option.map_eq_some_iff.mp hrun
  simp only [Bool.and_eq_true, decide_eq_true_eq, List.any_eq_true, Option.isNone_iff_eq_none,
    Bool.not_eq_true'] at hfacts
  obtain ⟨⟨hw, hitems⟩, job, hjob, ⟨hid, hopen⟩, hlease⟩ := hfacts
  have ha := (invariant_of_reachable (System.reachable_of_run hs)).agrees
  obtain ⟨n, s', hs', hpaid, -⟩ := process_pays_open_items hw hjob hlease
    ⟨ha.completed job hjob, ha.failed job hjob, ha.total job hjob⟩ (ha.verdict job hjob)
    completingChoices fun n s' hs' worker job' leaseToken item rest hworker hpc => by
      rw [hid, ← System.run_append hs] at hs'
      exact closesCall_sound (completingChoices_close n hs') hworker hpc
  exact ⟨s, hs, hitems, job, hjob, n, s', hs', hpaid⟩

end NovaPay.Payroll
