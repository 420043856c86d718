import NovaPay.Disbursement.System

/-!
# What Payroll and Transaction agree on

The executions that serve Payroll serve the calls it made, nobody else uses the key of an item, and so
the record under that key is bound to a transfer that pays the item.
-/

namespace NovaPay.Disbursement

open DecimalArithmetic Relational TransitionSystem
open Payroll (PayrollJob PayrollItem TransferCall SameJob SameItem)
open Transaction (CreateRequest Transfer IdempotencyRecord Origin)

variable {config : Transaction.Config} {s s' : State} {a : Action} {job : PayrollJob}
  {item : PayrollItem} {t : Transfer}

/-- The job of an item. -/
def JobOf (s : State) (item : PayrollItem) (job : PayrollJob) : Prop :=
  job ∈ s.payroll.store.jobs.rows ∧ job.id = item.payrollJobId

/-- The request by which Transaction is asked to pay an item. -/
def itemRequest (job : PayrollJob) (item : PayrollItem) : CreateRequest :=
  createRequest (Payroll.transferCall job item)

/-- The record is under the key of the item. -/
structure UnderKey (job : PayrollJob) (item : PayrollItem) (r : IdempotencyRecord) : Prop where
  clientId : r.clientId = job.employerId
  key : r.key = item.transferIdempotencyKey

/-- The transfer pays the item out of the wallet of its job. -/
structure Pays (job : PayrollJob) (item : PayrollItem) (t : Transfer) : Prop where
  clientId : t.clientId = job.employerId
  type : t.type = .domestic
  senderWalletId : t.senderWalletId = job.sourceWalletId
  recipientWalletId : t.recipientWalletId = item.recipientWalletId
  sourceAmount : t.sourceAmount = item.amount.val
  sourceCurrency : t.sourceCurrency = item.currency
  targetCurrency : t.targetCurrency = item.currency

/-- What a record under the key of an item stands for. -/
structure Bound (config : Transaction.Config) (db : Transaction.Database) (job : PayrollJob)
    (item : PayrollItem) (r : IdempotencyRecord) : Prop where
  requestHash : r.requestHash = (itemRequest job item).command.requestHash config.sha256
  accepted : ∃ pc, (Origin.create (itemRequest job item)).entry = .ok pc
  pays : ∃ t, db.findTransfer r.transferId = some t ∧ Pays job item t

theorem itemRequest_same {row : PayrollJob} {item' : PayrollItem} (hj : SameJob job row)
    (hi : SameItem item item') : itemRequest job item = itemRequest row item' := by
  rw [itemRequest, Payroll.transferCall_same hj hi, itemRequest]

theorem UnderKey.same {row : PayrollJob} {item' : PayrollItem} {r : IdempotencyRecord}
    (hj : SameJob job row) (hi : SameItem item item') (h : UnderKey job item r) : UnderKey row item' r :=
  ⟨h.clientId.trans hj.employerId, h.key.trans hi.transferIdempotencyKey⟩

theorem Pays.same {row : PayrollJob} {item' : PayrollItem} (hj : SameJob job row)
    (hi : SameItem item item') (h : Pays job item t) : Pays row item' t where
  clientId := h.clientId.trans hj.employerId
  type := h.type
  senderWalletId := h.senderWalletId.trans hj.sourceWalletId
  recipientWalletId := h.recipientWalletId.trans hi.recipientWalletId
  sourceAmount := h.sourceAmount.trans (congrArg Subtype.val hi.amount)
  sourceCurrency := h.sourceCurrency.trans hi.currency
  targetCurrency := h.targetCurrency.trans hi.currency

theorem Pays.progress {u : Transfer} (hs : Transaction.SameTransfer t u) (h : Pays job item t) :
    Pays job item u where
  clientId := hs.clientId.symm.trans h.clientId
  type := hs.type.symm.trans h.type
  senderWalletId := hs.senderWalletId.symm.trans h.senderWalletId
  recipientWalletId := hs.recipientWalletId.symm.trans h.recipientWalletId
  sourceAmount := hs.sourceAmount.symm.trans h.sourceAmount
  sourceCurrency := hs.sourceCurrency.symm.trans h.sourceCurrency
  targetCurrency := hs.targetCurrency.symm.trans h.targetCurrency

theorem Bound.same {row : PayrollJob} {item' : PayrollItem} {r : IdempotencyRecord}
    {db : Transaction.Database} (hj : SameJob job row) (hi : SameItem item item')
    (h : Bound config db job item r) : Bound config db row item' r := by
  obtain ⟨hhash, haccepted, t, ht, hpays⟩ := h
  rw [itemRequest_same hj hi] at hhash haccepted
  exact ⟨hhash, haccepted, t, ht, hpays.same hj hi⟩

/-- Exact: the text of the amount denotes the amount of the item. -/
theorem amount_of_text {amount : Money}
    (h : Numeric.ofRat? item.amountText.val.value = some amount) : amount = item.amount.val := by
  rw [Payroll.PayrollItem.amountText, Numeric.value_toFixed, Numeric.ofRat?_value] at h
  exact (Option.some.inj h).symm

/-- A claim of the request for an item binds the key to a transfer that pays it. -/
theorem bound_of_insertClaim {db db' : Transaction.Database} (hl : Transaction.Lockstep db)
    {choice : Transaction.Choice} {r : IdempotencyRecord}
    (h : Transaction.insertClaim config (itemRequest job item) choice db = .ok (db', t))
    (haccepted : ∃ pc, (Origin.create (itemRequest job item)).entry = .ok pc)
    (hr : db'.recordOf t.id = some r) : Bound config db' job item r := by
  obtain ⟨hfind, -, r', hr', hclient, hkey, hhash⟩ := Transaction.insertClaim_record hl h
  obtain rfl := Option.some.inj (hr'.symm.trans hr)
  refine ⟨hhash, haccepted, t, ?_, ?_⟩
  · rwa [(Transaction.Database.recordOf_eq_some_iff.mp hr).2]
  · obtain ⟨amount, hamount, rfl, -⟩ := Transaction.claim_ok hl h
    obtain rfl := amount_of_text hamount
    exact ⟨rfl, rfl, rfl, rfl, rfl, rfl, rfl⟩

structure Invariant (config : Transaction.Config) (s : State) : Prop where
  payroll : Payroll.Invariant s.payroll
  transaction : Transaction.Invariant config s.transaction
  spoken : Transaction.Spoken config s.transaction
  served : ∀ n origin pc, s.transaction.executions (servingExecution n) = some ⟨origin, pc⟩ →
    ∃ entry, s.payroll.calls[n]? = some entry ∧ origin = .create (createRequest entry.2)
  others : ∀ e request pc, servedCall e = none →
    s.transaction.executions e = some ⟨.create request, pc⟩ → (request.clientId, request.key) ∈ s.others
  known : ∀ r ∈ s.transaction.db.records.rows, (r.clientId, r.key) ∈ s.others ∨
    ∃ item ∈ s.payroll.store.items.rows, ∃ job, JobOf s item job ∧ UnderKey job item r
  apart : ∀ item ∈ s.payroll.store.items.rows, ∀ job, JobOf s item job →
    (job.employerId, item.transferIdempotencyKey) ∉ s.others
  bound : ∀ item ∈ s.payroll.store.items.rows, ∀ job, JobOf s item job →
    ∀ r ∈ s.transaction.db.records.rows, UnderKey job item r → Bound config s.transaction.db job item r

theorem invariant_initial : Invariant config .initial where
  payroll := Payroll.invariant_initial
  transaction := Transaction.invariant_initial
  spoken := Transaction.spoken_initial
  served := by simp [State.initial, Transaction.State.initial]
  others := by simp [State.initial, Transaction.State.initial]
  known := by simp [State.initial, Transaction.State.initial, Transaction.Database.empty]
  apart := by simp [State.initial, Payroll.State.initial, Payroll.Store.empty]
  bound := by simp [State.initial, Payroll.State.initial, Payroll.Store.empty]

theorem jobOf_eq {job' : PayrollJob} (h : JobOf s item job) (h' : JobOf s item job') : job = job' :=
  s.payroll.store.job_eq h.1 h'.1 (h.2.trans h'.2.symm)

/-- A step of Payroll. An item under whose key there is a record is not a new one. -/
theorem Invariant.payrollStep (hi : Invariant config s) {action : Payroll.Action} {p : Payroll.State}
    (hpermits : s.permits (.payroll action) = true) (h : Payroll.step s.payroll action = some p) :
    Invariant config { s with payroll := p } := by
  have hev := Payroll.step_evolves hi.payroll h
  have hknown : ∀ r ∈ s.transaction.db.records.rows, (r.clientId, r.key) ∈ s.others ∨
      ∃ item ∈ p.store.items.rows, ∃ job, JobOf { s with payroll := p } item job ∧
        UnderKey job item r := by
    intro r hr
    refine (hi.known r hr).imp_right fun ⟨item, hitem, job, ⟨hjob, hid⟩, hunder⟩ => ?_
    obtain ⟨item', hitem', hp⟩ := hev.items item hitem
    obtain ⟨job', hjob', hq⟩ := hev.jobs job hjob
    exact ⟨item', hitem', job', ⟨hjob', hq.same.id.symm.trans (hid.trans hp.same.payrollJobId)⟩,
      hunder.same hq.same hp.same⟩
  have hapart : ∀ item ∈ p.store.items.rows, ∀ job, JobOf { s with payroll := p } item job →
      (job.employerId, item.transferIdempotencyKey) ∉ s.others := by
    intro item hitem job ⟨hjob, hid⟩
    obtain ⟨old, ho, hp, owner, hown, hoid, hq⟩ | ⟨jobId, itemIds, employerId, command, rfl, rfl, -,
      input, hinput, hkey⟩ := Payroll.items_of_step hi.payroll h hitem hjob hid
    · rw [← hp.same.transferIdempotencyKey, ← hq.same.employerId]
      exact hi.apart old ho owner ⟨hown, hoid⟩
    · simp only [State.permits, List.all_eq_true, decide_eq_true_eq] at hpermits
      rw [hkey]
      exact hpermits input hinput
  refine ⟨hi.payroll.step h, hi.transaction, hi.spoken, fun n origin pc he => ?_, hi.others, hknown,
    hapart, fun item hitem job hjob r hr hunder => ?_⟩
  · obtain ⟨entry, hentry, rfl⟩ := hi.served n origin pc he
    obtain ⟨new, hcalls⟩ := Payroll.calls_of_step h
    obtain ⟨hlt, -⟩ := List.getElem?_eq_some_iff.mp hentry
    refine ⟨entry, ?_, rfl⟩
    change p.calls[n]? = some entry
    rw [hcalls, List.getElem?_append_left hlt, hentry]
  · obtain hother | ⟨old, ho, owner, hown, hunder'⟩ := hi.known r hr
    · rw [hunder.clientId, hunder.key] at hother
      exact absurd hother (hapart item hitem job hjob)
    · obtain ⟨item', hitem', hp⟩ := hev.items old ho
      obtain rfl := p.store.item_eq_of_key hitem' hitem
        (hp.same.transferIdempotencyKey.symm.trans (hunder'.key.symm.trans hunder.key))
      obtain ⟨-, owner', hown', hoid, hq⟩ :=
        hev.back hi.payroll ho hitem hp.same.id hjob.1 hjob.2
      obtain rfl := jobOf_eq hown ⟨hown', hoid⟩
      exact (hi.bound old ho owner hown r hr hunder').same hq.same hp.same

theorem isItemKey_of_jobOf (hitem : item ∈ s.payroll.store.items.rows) (hjob : JobOf s item job) :
    s.isItemKey job.employerId item.transferIdempotencyKey = true := by
  simp only [State.isItemKey, List.any_eq_true, Bool.and_eq_true, decide_eq_true_eq]
  exact ⟨item, hitem, rfl, job, hjob.1, hjob.2, rfl⟩

/-- The request of an execution is the request for an item, or that of someone else. -/
theorem Invariant.request_cases (hi : Invariant config s) {e : Transaction.ExecId}
    {request : CreateRequest} {pc : Option Transaction.Pc}
    (he : s.transaction.executions e = some ⟨.create request, pc⟩) :
    (request.clientId, request.key) ∈ s.others ∨
      ∃ item ∈ s.payroll.store.items.rows, ∃ job, JobOf s item job ∧ request = itemRequest job item := by
  cases hserved : servedCall e with
  | none => exact .inl (hi.others e request pc hserved he)
  | some n =>
    right
    obtain rfl := eq_servingExecution hserved
    obtain ⟨entry, hentry, horigin⟩ := hi.served n _ pc he
    obtain ⟨item, hitem, -, job, hjob, hid, hcall⟩ := hi.payroll.calls entry (List.mem_of_getElem? hentry)
    refine ⟨item, hitem, job, ⟨hjob, hid⟩, ?_⟩
    rw [itemRequest, ← hcall]
    exact Origin.create.inj horigin

/-- What a record that a claim creates stands for. -/
theorem Invariant.bound_of_claim (hi : Invariant config s) {e : Transaction.ExecId}
    {choice : Transaction.Choice} {request : CreateRequest} {db : Transaction.Database}
    {r : IdempotencyRecord}
    (he : s.transaction.executions e = some ⟨.create request, some (.claimInsert request)⟩)
    (h : Transaction.insertClaim config request choice s.transaction.db = .ok (db, t))
    (hr : db.recordOf t.id = some r) :
    ((r.clientId, r.key) ∈ s.others ∨
      ∃ item ∈ s.payroll.store.items.rows, ∃ job, JobOf s item job ∧ UnderKey job item r) ∧
    ∀ item ∈ s.payroll.store.items.rows, ∀ job, JobOf s item job → UnderKey job item r →
      Bound config db job item r := by
  obtain ⟨-, -, r', hr', hclient, hkey, -⟩ :=
    Transaction.insertClaim_record hi.transaction.lockstep h
  obtain rfl := Option.some.inj (hr'.symm.trans hr)
  obtain hother | ⟨owner, hown, job, hjob, rfl⟩ := hi.request_cases he
  · rw [hclient, hkey]
    refine ⟨.inl hother, fun item hitem job hjob hunder => ?_⟩
    rw [← hclient, ← hkey, hunder.clientId, hunder.key] at hother
    exact absurd hother (hi.apart item hitem job hjob)
  · refine ⟨.inr ⟨owner, hown, job, hjob, hclient, hkey⟩, fun item hitem job' hjob' hunder => ?_⟩
    obtain rfl := s.payroll.store.item_eq_of_key hown hitem (hkey.symm.trans hunder.key)
    obtain rfl := jobOf_eq hjob hjob'
    exact bound_of_insertClaim hi.transaction.lockstep h (hi.spoken.accepted e _ _ he) hr

/-- A step of Transaction. -/
theorem Invariant.transactionStep (hi : Invariant config s) {action : Transaction.Action}
    {t : Transaction.State} (hpermits : s.permits (.transaction action) = true)
    (h : Transaction.step config s.transaction action = some t) :
    Invariant config { s with transaction := t, others := othersKey action ++ s.others } := by
  have hev := Transaction.step_evolves hi.transaction h
  refine ⟨hi.payroll, hi.transaction.step h, hi.spoken.step hi.transaction h,
    fun n origin pc he => ?_, fun e request pc hserved he => ?_, fun r hr => ?_,
    fun item hitem job hjob hmem => ?_, fun item hitem job hjob r hr hunder => ?_⟩
  · obtain ⟨pc', hold⟩ | rfl := Transaction.origin_of_step h he
    · exact hi.served n origin pc' hold
    · cases origin with
      | create request =>
        simp only [State.permits, servedCall_servingExecution, Option.any_eq_true,
          decide_eq_true_eq] at hpermits
        obtain ⟨entry, hentry, rfl⟩ := hpermits
        exact ⟨entry, hentry, rfl⟩
      | reconcile transferId force => simp [State.permits] at hpermits
  · obtain ⟨pc', hold⟩ | rfl := Transaction.origin_of_step h he
    · exact List.mem_append_right _ (hi.others e request pc' hserved hold)
    · simp [othersKey, hserved]
  · obtain ⟨q, hq, hsame⟩ | ⟨e, choice, request, u, rfl, he, hinsert, hid⟩ :=
      Transaction.records_of_step hi.transaction h
        (Transaction.Database.recordOf_eq_some_iff.mpr ⟨hr, rfl⟩)
    · rw [← hsame.clientId, ← hsame.key]
      refine (hi.known q (Transaction.Database.recordOf_eq_some_iff.mp hq).1).imp
        (List.mem_append_right _) fun ⟨item, hitem, job, hjob, hunder⟩ => ?_
      exact ⟨item, hitem, job, hjob, hsame.clientId.symm.trans hunder.clientId,
        hsame.key.symm.trans hunder.key⟩
    · have hrecord := Transaction.Database.recordOf_eq_some_iff.mpr ⟨hr, hid.symm⟩
      exact (hi.bound_of_claim he hinsert hrecord).1.imp (List.mem_append_right _) id
  · obtain hnew | hold := List.mem_append.mp hmem
    · unfold othersKey at hnew
      split at hnew
      · next e request =>
        split at hnew
        · cases hnew
        · next hserved =>
          obtain ⟨hclient, hkey⟩ := Prod.mk.inj (List.mem_singleton.mp hnew)
          have hitemKey : s.isItemKey job.employerId item.transferIdempotencyKey = true :=
            isItemKey_of_jobOf hitem hjob
          simp [State.permits, hserved, ← hclient, ← hkey, hitemKey] at hpermits
      · cases hnew
    · exact hi.apart item hitem job hjob hold
  · obtain ⟨q, hq, hsame⟩ | ⟨e, choice, request, u, rfl, he, hinsert, hid⟩ :=
      Transaction.records_of_step hi.transaction h
        (Transaction.Database.recordOf_eq_some_iff.mpr ⟨hr, rfl⟩)
    · have hunder' : UnderKey job item q :=
        ⟨hsame.clientId.trans hunder.clientId, hsame.key.trans hunder.key⟩
      obtain ⟨hhash, haccepted, v, hv, hpays⟩ :=
        hi.bound item hitem job hjob q (Transaction.Database.recordOf_eq_some_iff.mp hq).1 hunder'
      obtain ⟨v', hv', hp⟩ := hev.transfer _ v hv
      exact ⟨hsame.requestHash.symm.trans hhash, haccepted, v', hsame.transferId ▸ hv',
        hpays.progress hp.same⟩
    · have hrecord := Transaction.Database.recordOf_eq_some_iff.mpr ⟨hr, hid.symm⟩
      exact (hi.bound_of_claim he hinsert hrecord).2 item hitem job hjob hunder

theorem Invariant.step (hi : Invariant config s) (h : step config s a = some s') :
    Invariant config s' := by
  obtain ⟨hpermits, ⟨action, payroll, rfl, hp, rfl⟩ | ⟨action, transaction, rfl, ht, rfl⟩⟩ := step_cases h
  · exact hi.payrollStep hpermits hp
  · exact hi.transactionStep hpermits ht

theorem invariant_of_reachable (h : (system config).Reachable s) : Invariant config s :=
  System.Reachable.invariant invariant_initial (fun _ _ _ _ hi hs => hi.step hs) h

end NovaPay.Disbursement
