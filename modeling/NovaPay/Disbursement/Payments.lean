import NovaPay.Disbursement.Invariant
import NovaPay.Payroll.Checkpoints
import NovaPay.Payroll.Verdicts

/-!
# Every item is paid once

A verdict is taken from an answer that may be older than the transfer it is about. All answers but one
say what became of the transfer for good; that the replay window of the key has expired says nothing.
-/

namespace NovaPay.Disbursement

open DecimalArithmetic Relational TransitionSystem
open Payroll (PayrollJob PayrollItem PayrollItemStatus SameJob SameItem JobKnown Known Verdict
  TransferReply TransferBody WorkerId Worker Rest)
open Transaction (CreateRequest Transfer IdempotencyRecord Origin Outcome TransferResponse keyExpired)

variable {config : Transaction.Config} {s s' : State} {a : Action} {job : PayrollJob}
  {item : PayrollItem} {t : Transfer} {db db' : Transaction.Database}

/-- A transfer that the calls for an item caused: its record has the principal and the key of one of
them. -/
def CausedBy (s : State) (itemId : Uuid) (t : Transfer) : Prop :=
  t ∈ s.transaction.db.transfers.rows ∧ ∃ entry ∈ s.payroll.calls, entry.1 = itemId ∧
    ∃ r, s.transaction.db.recordOf t.id = some r ∧ r.clientId = entry.2.employerId ∧
      r.key = entry.2.idempotencyKey

/-- What the employer relies on. -/
structure PaidOnce (s : State) : Prop where
  once : ∀ itemId t u, CausedBy s itemId t → CausedBy s itemId u → t = u
  completed : ∀ item ∈ s.payroll.store.items.rows, ∀ job, JobOf s item job → item.status = .completed →
    ∃ t ∈ s.transaction.db.transfers.rows, item.transferId = some t.id ∧ t.status = .completed ∧
      Pays job item t ∧ t.targetAmount = some item.amount.val
  failed : ∀ item ∈ s.payroll.store.items.rows, ∀ job, JobOf s item job → item.status = .failed →
    ∀ r ∈ s.transaction.db.records.rows, r.clientId = job.employerId →
      r.key = Payroll.transferIdempotencyKey job.id item.id →
      ∀ t ∈ s.transaction.db.transfers.rows, t.id = r.transferId → t.status ≠ .completed

theorem eq_of_causedBy (hi : Invariant config s) {itemId : Uuid} {u : Transfer}
    (ht : CausedBy s itemId t) (hu : CausedBy s itemId u) : t = u := by
  obtain ⟨htmem, entry, hentry, hid, r, hr, hclient, hkey⟩ := ht
  obtain ⟨humem, entry', hentry', hid', q, hq, hclient', hkey'⟩ := hu
  obtain ⟨item, hitem, hiid, job, hjob, hjid, hcall⟩ := hi.payroll.calls entry hentry
  obtain ⟨item', hitem', hiid', job', hjob', hjid', hcall'⟩ := hi.payroll.calls entry' hentry'
  obtain rfl := s.payroll.store.item_eq hitem hitem' (by rw [hiid, hiid', hid, hid'])
  obtain rfl := s.payroll.store.job_eq hjob hjob' (hjid.trans hjid'.symm)
  have hsame : entry.2 = entry'.2 := hcall.trans hcall'.symm
  obtain ⟨hrmem, hrid⟩ := Transaction.Database.recordOf_eq_some_iff.mp hr
  obtain ⟨hqmem, hqid⟩ := Transaction.Database.recordOf_eq_some_iff.mp hq
  have hrq : r = q := Transaction.Database.record_eq_of_key hrmem hqmem
    (hclient.trans (hsame ▸ hclient'.symm)) (hkey.trans (hsame ▸ hkey'.symm))
  exact Transaction.Database.transfer_eq htmem humem (by rw [← hrid, ← hqid, hrq])

/-- The transfer of a completed item. -/
def PaidBy (db : Transaction.Database) (job : PayrollJob) (item : PayrollItem)
    (transferId : Option Uuid) : Prop :=
  ∃ t, db.findTransfer t.id = some t ∧ transferId = some t.id ∧ t.status = .completed ∧ Pays job item t

/-- No transfer for the item is completed, now or later: its request is refused, or the transfer under
its key is closed. -/
def NeverPaid (db : Transaction.Database) (job : PayrollJob) (item : PayrollItem) : Prop :=
  (∃ error, (Origin.create (itemRequest job item)).entry = .error error) ∨
    ∃ r ∈ db.records.rows, UnderKey job item r ∧
      ∃ t, db.findTransfer r.transferId = some t ∧ t.status.open = false ∧ t.status ≠ .completed

/-- What a verdict stands for. -/
def VerdictOk (db : Transaction.Database) (job : PayrollJob) (item : PayrollItem)
    (transferId : Option Uuid) : Verdict → Prop
  | .completed => PaidBy db job item transferId
  | .failed => NeverPaid db job item

theorem VerdictOk.same {row : PayrollJob} {item' : PayrollItem} (hj : SameJob job row)
    (hi : SameItem item item') {transferId : Option Uuid} {verdict : Verdict}
    (h : VerdictOk db job item transferId verdict) : VerdictOk db row item' transferId verdict := by
  cases verdict with
  | completed =>
    obtain ⟨t, ht, hid, hstatus, hpays⟩ := h
    exact ⟨t, ht, hid, hstatus, hpays.same hj hi⟩
  | failed =>
    obtain ⟨error, hrefused⟩ | ⟨r, hr, hunder, ht⟩ := h
    · exact .inl ⟨error, itemRequest_same hj hi ▸ hrefused⟩
    · exact .inr ⟨r, hr, hunder.same hj hi, ht⟩

theorem VerdictOk.mono (hev : Transaction.Evolves db db') {transferId : Option Uuid}
    {verdict : Verdict} (h : VerdictOk db job item transferId verdict) :
    VerdictOk db' job item transferId verdict := by
  cases verdict with
  | completed =>
    obtain ⟨t, ht, hid, hstatus, hpays⟩ := h
    obtain ⟨u, hu, hp⟩ := hev.transfer t.id t ht
    obtain rfl := hp.frozen (by rw [hstatus]; rfl)
    exact ⟨u, hu, hid, hstatus, hpays⟩
  | failed =>
    obtain hrefused | ⟨r, hr, hunder, t, ht, hclosed, hne⟩ := h
    · exact .inl hrefused
    · obtain ⟨q, hq, hp⟩ := hev.record r.transferId r
        (Transaction.Database.recordOf_eq_some_iff.mpr ⟨hr, rfl⟩)
      obtain ⟨hqmem, hqid⟩ := Transaction.Database.recordOf_eq_some_iff.mp hq
      obtain ⟨u, hu, hprogress⟩ := hev.transfer _ t ht
      obtain rfl := hprogress.frozen hclosed
      exact .inr ⟨q, hqmem, ⟨hp.same.clientId.symm.trans hunder.clientId,
        hp.same.key.symm.trans hunder.key⟩, u, hqid ▸ hu, hclosed, hne⟩

section Answers

variable {n : ℕ} {status : ℕ} {code : String} {body : TransferBody}

/-- What a worker relies on of the record under the key of its item. -/
theorem Invariant.bound_known (hi : Invariant config s) (hj : JobKnown s.payroll.store job)
    (hk : Known s.payroll.store job item) {r : IdempotencyRecord}
    (hr : r ∈ s.transaction.db.records.rows) (hunder : UnderKey job item r) :
    Bound config s.transaction.db job item r := by
  obtain ⟨row, hrow, hsame⟩ := hj
  obtain ⟨hid, item', hitem', hsame'⟩ := hk
  have hjob : JobOf s item' row :=
    ⟨hrow, hsame.id.symm.trans (hid.symm.trans hsame'.payrollJobId)⟩
  exact (hi.bound item' hitem' row hjob r hr (hunder.same hsame hsame')).same hsame.symm hsame'.symm

/-- The execution that answers a call for an item was asked to pay it. -/
theorem Invariant.served_item (hi : Invariant config s)
    (hcall : s.payroll.calls[n]? = some (item.id, Payroll.transferCall job item)) {outcome : Outcome}
    (h : (servingExecution n, outcome) ∈ s.transaction.answers) :
    s.transaction.executions (servingExecution n) = some ⟨.create (itemRequest job item), none⟩ := by
  obtain ⟨origin, he⟩ := hi.transaction.ended _ outcome h
  obtain ⟨entry, hentry, rfl⟩ := hi.served n origin none he
  obtain rfl := Option.some.inj (hentry.symm.trans hcall)
  exact he

/-- A closed transfer that an answer shows is the one under the key of the item. -/
theorem Invariant.shown (hi : Invariant config s)
    (hcall : s.payroll.calls[n]? = some (item.id, Payroll.transferCall job item))
    {response : TransferResponse}
    (h : (servingExecution n, .result status response) ∈ s.transaction.answers)
    (hclosed : response.status.open = false) :
    ∃ t r, s.transaction.db.findTransfer t.id = some t ∧ s.transaction.db.recordOf t.id = some r ∧
      UnderKey job item r ∧ response.transferId = t.id ∧ response.status = t.status := by
  obtain ⟨t, ⟨r, hr, hclient, hkey, -⟩, ⟨u, hu, hp⟩, rfl, -⟩ :=
    hi.transaction.answered _ _ status response h (hi.served_item hcall h)
  obtain rfl := hp.frozen hclosed
  exact ⟨u, r, hu, hr, ⟨hclient, hkey⟩, rfl, rfl⟩

/-- A body with a status is that of an answer of the execution. -/
theorem result_of_body {reply : TransferReply} (h : s.answers n reply = true)
    (hbody : reply.body? = some body) (hstatus : body.status ≠ none) :
    ∃ status response, (servingExecution n, Outcome.result status response) ∈ s.transaction.answers ∧
      body = transferBody response := by
  have hno : body ≠ noBody := fun heq => hstatus (by rw [heq]; rfl)
  have hfind : ∃ outcome, (servingExecution n, outcome) ∈ s.transaction.answers ∧
      repliesTo outcome reply = true := by
    cases reply with
    | ok _ =>
      simp only [State.answers, List.any_eq_true, Bool.and_eq_true, decide_eq_true_eq] at h
      obtain ⟨⟨e, outcome⟩, hmem, rfl, hreplies⟩ := h
      exact ⟨outcome, hmem, hreplies⟩
    | http _ _ _ =>
      cases hbody
      simp only [State.answers, hno, decide_false, Bool.and_false, Bool.false_or, List.any_eq_true,
        Bool.and_eq_true, decide_eq_true_eq] at h
      obtain ⟨⟨e, outcome⟩, hmem, rfl, hreplies⟩ := h
      exact ⟨outcome, hmem, hreplies⟩
    | unavailable => cases hbody
  obtain ⟨outcome, hmem, hreplies⟩ := hfind
  cases outcome with
  | result status response =>
    refine ⟨status, response, hmem, ?_⟩
    cases reply with
    | ok _ =>
      cases hbody
      simp only [repliesTo, hno, decide_false, Bool.or_false, Bool.and_eq_true, decide_eq_true_eq]
        at hreplies
      exact hreplies.2
    | http _ _ _ =>
      cases hbody
      simp only [repliesTo, hno, decide_false, Bool.or_false, Bool.and_eq_true, decide_eq_true_eq]
        at hreplies
      exact hreplies.2
    | unavailable => cases hbody
  | error error =>
    cases reply with
    | ok _ => cases hreplies
    | http _ _ _ =>
      cases hbody
      simp [repliesTo, hno] at hreplies
    | unavailable => cases hbody

/-- A client error is an error of the execution, or a result. -/
theorem outcome_of_refusal (h : s.answers n (.http status code body) = true) (hlt : status < 500) :
    (∃ response, (servingExecution n, .result status response) ∈ s.transaction.answers) ∨
      ∃ error, (servingExecution n, .error error) ∈ s.transaction.answers ∧ status = error.status := by
  have hno : ¬500 ≤ status := by omega
  simp only [State.answers, hno, decide_false, Bool.false_and, Bool.false_or, List.any_eq_true,
    Bool.and_eq_true, decide_eq_true_eq] at h
  obtain ⟨⟨e, outcome⟩, hmem, rfl, hreplies⟩ := h
  cases outcome with
  | result httpStatus response =>
    simp only [repliesTo, Bool.and_eq_true, decide_eq_true_eq] at hreplies
    obtain ⟨⟨⟨-, rfl⟩, -⟩, -⟩ := hreplies
    exact .inl ⟨response, hmem⟩
  | error error =>
    simp only [repliesTo, Bool.and_eq_true, decide_eq_true_eq] at hreplies
    exact .inr ⟨error, hmem, hreplies.1.1⟩

/-- The transfer that a result shows is closed and not completed, so the item is never paid. -/
theorem Invariant.neverPaid_of_shown (hi : Invariant config s)
    (hcall : s.payroll.calls[n]? = some (item.id, Payroll.transferCall job item))
    {response : TransferResponse}
    (h : (servingExecution n, .result status response) ∈ s.transaction.answers)
    (hclosed : response.status.open = false) (hne : response.status ≠ .completed) :
    NeverPaid s.transaction.db job item := by
  obtain ⟨t, r, ht, hr, hunder, -, hstatus⟩ := hi.shown hcall h hclosed
  obtain ⟨hrmem, hrid⟩ := Transaction.Database.recordOf_eq_some_iff.mp hr
  exact .inr ⟨r, hrmem, hunder, t, by rw [hrid, ht], hstatus ▸ hclosed, hstatus ▸ hne⟩

/-- The errors of an execution that was asked to pay an item. Only that of an expired key can come after
a transfer that is not closed. -/
theorem Invariant.neverPaid_of_error (hi : Invariant config s) (hj : JobKnown s.payroll.store job)
    (hk : Known s.payroll.store job item)
    (hcall : s.payroll.calls[n]? = some (item.id, Payroll.transferCall job item))
    {error : HttpError}
    (h : (servingExecution n, .error error) ∈ s.transaction.answers) (hlt : error.status < 500)
    (hexpired : error = keyExpired → ∀ t r,
      s.transaction.db.findByKey job.employerId item.transferIdempotencyKey = some (t, r) →
        t.status = .failed) : NeverPaid s.transaction.db job item := by
  have htells := hi.spoken.tells _ _ _ h (hi.served_item hcall h)
  cases htells with
  | refused hentry => exact .inl ⟨error, hentry⟩
  | mismatch hr hclient hkey hne =>
    exact absurd (hi.bound_known hj hk hr ⟨hclient, hkey⟩).requestHash hne
  | @expired r hr hclient hkey =>
    have hunder : UnderKey job item r := ⟨hclient, hkey⟩
    obtain ⟨t, ht, -⟩ := (hi.bound_known hj hk hr hunder).pays
    obtain ⟨htmem, htid⟩ := Transaction.Database.findTransfer_eq_some_iff.mp ht
    have hfind := Transaction.Database.findByKey_of_mem hr htmem htid
    rw [hunder.clientId, hunder.key] at hfind
    have hfailed := hexpired rfl t r hfind
    exact .inr ⟨r, hr, hunder, t, ht, by rw [hfailed]; rfl, by simp [hfailed]⟩
  | quoteUsed hquote => cases hquote
  | internal => exact absurd hlt (by decide)

end Answers

/-- Whoever learns that the key of an item has expired learns it of a FAILED transfer. -/
def Timely (s : State) : Action → Prop
  | .payroll (.run w choice) => ∀ worker job leaseToken item rest code body,
      s.payroll.workers w = some worker →
      worker.pc = some (.leased job leaseToken (.createDomestic item rest)) →
      (servingExecution worker.call, .error keyExpired) ∈ s.transaction.answers →
      choice.reply = .http keyExpired.status code body →
      ∀ t r, s.transaction.db.findByKey job.employerId item.transferIdempotencyKey = some (t, r) →
        t.status = .failed
  | _ => True

/-- The verdict that a worker takes from the answer to its call. -/
theorem verdictOk_of_reply (hi : Invariant config s) {w : WorkerId} {choice : Payroll.Choice}
    (hpermits : s.permits (.payroll (.run w choice)) = true)
    (htimely : Timely s (.payroll (.run w choice))) {worker : Worker} {leaseToken : Uuid} {rest : Rest}
    (hw : s.payroll.workers w = some worker)
    (hpc : worker.pc = some (.leased job leaseToken (.createDomestic item rest))) {verdict : Verdict}
    {transferId : Option Uuid} (h : choice.reply.Decides verdict transferId) :
    VerdictOk s.transaction.db job item transferId verdict := by
  obtain ⟨hj, ⟨hclaimed, -⟩, hcalls⟩ := hi.payroll.workers w worker _ hw hpc
  have hcall : s.payroll.calls[worker.call]? = some (item.id, Payroll.transferCall job item) :=
    hcalls _ rfl
  have hanswers : s.answers worker.call choice.reply = true := by
    obtain ⟨jobId, leaseLost, call, pc⟩ := worker
    obtain rfl := hpc
    simpa only [State.permits, hw] using hpermits
  cases h with
  | completed hbody hstatus =>
    obtain ⟨status, response, hmem, rfl⟩ := result_of_body hanswers hbody (by simp [hstatus])
    have hcompleted : response.status = .completed := Option.some.inj hstatus
    obtain ⟨t, r, ht, hr, hunder, hid, hsame⟩ := hi.shown hcall hmem (by rw [hcompleted]; rfl)
    obtain ⟨hrmem, hrid⟩ := Transaction.Database.recordOf_eq_some_iff.mp hr
    obtain ⟨u, hu, hpays⟩ := (hi.bound_known hj hclaimed.1 hrmem hunder).pays
    rw [hrid, ht] at hu
    obtain rfl := Option.some.inj hu
    exact ⟨t, ht, congrArg some hid, hsame.symm.trans hcompleted, hpays⟩
  | failed hbody hstatus hclosed =>
    obtain ⟨httpStatus, response, hmem, rfl⟩ := result_of_body hanswers hbody (by simp [hstatus])
    obtain rfl := Option.some.inj hstatus
    obtain hfailed | hreversed := hclosed
    · exact hi.neverPaid_of_shown hcall hmem (by rw [hfailed]; rfl) (by simp [hfailed])
    · exact hi.neverPaid_of_shown hcall hmem (by rw [hreversed]; rfl) (by simp [hreversed])
  | @refused status code body hreply hle hlt _ =>
    rw [hreply] at hanswers
    obtain ⟨response, hmem⟩ | ⟨error, hmem, rfl⟩ := outcome_of_refusal hanswers hlt
    · have hfailed : response.status = .failed :=
        hi.spoken.tells _ _ _ hmem (hi.served_item hcall hmem) hle
      exact hi.neverPaid_of_shown hcall hmem (by rw [hfailed]; rfl) (by simp [hfailed])
    · refine hi.neverPaid_of_error hj hclaimed.1 hcall hmem hlt fun hexpired => ?_
      subst hexpired
      exact htimely worker job leaseToken item rest code body hw hpc hmem hreply

/-- The verdicts in the rows of items and those that workers wait to write. -/
structure Verdicts (s : State) : Prop where
  rows : ∀ item ∈ s.payroll.store.items.rows, ∀ job, JobOf s item job →
    ∀ verdict : Verdict, item.status = verdict.status →
      VerdictOk s.transaction.db job item item.transferId verdict
  waiting : ∀ w worker job leaseToken statement d, s.payroll.workers w = some worker →
    worker.pc = some (.leased job leaseToken statement) → statement.verdict? = some d →
    VerdictOk s.transaction.db job d.1 d.2.2 d.2.1

theorem verdicts_initial : Verdicts .initial :=
  ⟨by simp [State.initial, Payroll.State.initial, Payroll.Store.empty],
    by simp [State.initial, Payroll.State.initial]⟩

theorem status_inj {verdict verdict' : Verdict} (h : verdict.status = verdict'.status) :
    verdict = verdict' := by
  cases verdict <;> cases verdict' <;> first | rfl | cases h

theorem Verdicts.payrollStep (hi : Invariant config s) (hv : Verdicts s) {action : Payroll.Action}
    {p : Payroll.State} (hpermits : s.permits (.payroll action) = true)
    (htimely : Timely s (.payroll action)) (h : Payroll.step s.payroll action = some p) :
    Verdicts { s with payroll := p } := by
  refine ⟨fun row' hrow' job ⟨hjob, hid⟩ verdict hstatus => ?_,
    fun w worker job leaseToken statement d hw hpc hd => ?_⟩
  · have hterminal : row'.status.terminal = true := by
      rw [hstatus]
      exact Payroll.verdict_terminal verdict
    obtain ⟨row, hrow, hp, owner, hown, hoid, hq⟩ | ⟨_, _, _, _, -, -, hpending, -⟩ :=
      Payroll.items_of_step hi.payroll h hrow' hjob hid
    · by_cases hopen : row.status.terminal = true
      · obtain rfl := hp.terminal hopen
        exact (hv.rows row' hrow owner ⟨hown, hoid⟩ verdict hstatus).same hq.same (.refl row')
      · -- The row became terminal: a worker that waited checkpointed it.
        obtain ⟨w, c, worker, job', leaseToken, item, verdict', transferId, failureCode, rest, -, hw,
          hpc, -, hheld, rfl⟩ := Payroll.checkpoints_of_step hi.payroll h hrow (by simpa using hopen)
            hrow' hp.same.id.symm hterminal
        obtain rfl : verdict' = verdict := status_inj hstatus
        obtain ⟨⟨jobRow, hjr, hjsame⟩, ⟨⟨⟨hkid, known, hk, hksame⟩, -⟩, -⟩, -⟩ :=
          hi.payroll.workers w worker _ hw hpc
        obtain rfl := s.payroll.store.item_eq hk hrow
          (hksame.id.symm.trans (Payroll.heldBy_processing hheld).1.symm)
        obtain rfl := s.payroll.store.job_eq hjr hown
          (hjsame.id.symm.trans (hkid.symm.trans (hksame.payrollJobId.trans hoid.symm)))
        have hok := (hv.waiting w worker job' leaseToken _ _ hw hpc rfl).same (hjsame.trans hq.same)
          (hksame.trans hp.same)
        cases verdict' with
        | completed =>
          obtain ⟨t, ht, htid, hcompleted, hpays⟩ := hok
          refine ⟨t, ht, ?_, hcompleted, hpays⟩
          change (transferId <|> known.transferId) = some t.id
          rw [show transferId = some t.id from htid]
          rfl
        | failed => exact hok
    · rw [hpending] at hterminal
      cases hterminal
  · obtain ⟨old, hold, hopc⟩ | ⟨c, old, item, rest, rfl, hold, hopc, hreply⟩ :=
      Payroll.verdict_of_step h hw hpc hd
    · exact hv.waiting w old job leaseToken statement d hold hopc hd
    · obtain ⟨rfl, hdecides⟩ := Payroll.executeItem_decides hreply
      exact verdictOk_of_reply hi hpermits htimely hold hopc hdecides

theorem Verdicts.step (hi : Invariant config s) (hv : Verdicts s) (htimely : Timely s a)
    (h : step config s a = some s') : Verdicts s' := by
  obtain ⟨hpermits, ⟨action, payroll, rfl, hp, rfl⟩ | ⟨action, transaction, rfl, ht, rfl⟩⟩ := step_cases h
  · exact hv.payrollStep hi hpermits htimely hp
  · have hev := Transaction.step_evolves hi.transaction ht
    exact ⟨fun item hitem job hjob verdict hstatus => (hv.rows item hitem job hjob verdict hstatus).mono hev,
      fun w worker job leaseToken statement d hw hpc hd =>
        (hv.waiting w worker job leaseToken statement d hw hpc hd).mono hev⟩

theorem Verdicts.paidOnce (hi : Invariant config s) (hv : Verdicts s) : PaidOnce s := by
  refine ⟨fun itemId t u => eq_of_causedBy hi, fun item hitem job hjob hstatus => ?_,
    fun item hitem job hjob hstatus r hr hclient hkey t ht htid hcompleted => ?_⟩
  · obtain ⟨t, ht, hid, hcompleted, hpays⟩ := hv.rows item hitem job hjob .completed hstatus
    obtain ⟨hterms, -⟩ := hi.transaction.lockstep.agree t.id t ht
    refine ⟨t, (Transaction.Database.findTransfer_eq_some_iff.mp ht).1, hid, hcompleted, hpays, ?_⟩
    rw [hterms.domestic hpays.type, hpays.sourceAmount]
  · have hunder : UnderKey job item r := by
      refine ⟨hclient, hkey.trans ?_⟩
      rw [hi.payroll.agrees.key item hitem, hjob.2]
    have hfind : s.transaction.db.findTransfer r.transferId = some t :=
      Transaction.Database.findTransfer_eq_some_iff.mpr ⟨ht, htid⟩
    obtain ⟨error, hrefused⟩ | ⟨q, hq, hqunder, u, hu, -, hne⟩ :=
      hv.rows item hitem job hjob .failed hstatus
    · obtain ⟨pc, haccepted⟩ := (hi.bound item hitem job hjob r hr hunder).accepted
      cases haccepted.symm.trans hrefused
    · obtain rfl := Transaction.Database.record_eq_of_key hq hr
        (hqunder.clientId.trans hclient.symm) (hqunder.key.trans hunder.key.symm)
      obtain rfl := Option.some.inj (hfind.symm.trans hu)
      exact hne hcompleted

/-- Every item is paid once, and its status says so, in every run in which whoever learns that the key of
an item has expired learns it of a FAILED transfer. -/
theorem paidOnce_of_timely (h : (system config).ReachableBy Timely s) : PaidOnce s := by
  have hv : Verdicts s := System.ReachableBy.invariant verdicts_initial
    (fun _ _ _ hr hv ha hstep => hv.step (invariant_of_reachable hr.reachable) ha hstep) h
  exact hv.paidOnce (invariant_of_reachable h.reachable)

open Transaction (domesticConfig senderWallet recipientWallet usd walletOf)
open Payroll (payrollCommand)

/-- The request for the one item of `payrollCommand`. -/
def employeeRequest : CreateRequest where
  clientId := "employer-a"
  key := Payroll.transferIdempotencyKey 1 10
  command := .domestic
    { senderWalletId := .ofUuid senderWallet
      recipientWalletId := .ofUuid recipientWallet
      amount := ⟨⟨2500000000, 8⟩, by decide⟩
      currency := usd }

def workerRuns (w : WorkerId) (choices : List Payroll.Choice) : List Action :=
  choices.map fun choice => .payroll (.run w choice)

def executionRuns (n : ℕ) (choices : List Transaction.Choice) : List Action :=
  choices.map fun choice => .transaction (.run (servingExecution n) choice)

/-- A worker claims the item, and Transaction completes the transfer that it is asked for. -/
def transferRun : List Action :=
  [.payroll (.submit 1 (fun sequence => 10 + sequence) "employer-a" payrollCommand),
    .payroll (.start 0 1)] ++
  workerRuns 0 [{}, { token := 100 }, {}, {}, {}, { token := 101 }] ++
  [.transaction (.request (servingExecution 0) (.create employeeRequest))] ++
  executionRuns 0 [{}, { ids := ⟨900, 901, 902⟩ }, { date := 1 }, {},
    { account := .ok (walletOf senderWallet "employer-a" 1, walletOf recipientWallet "employee-a" 2) },
    { posting := .ok (some ⟨800, 900, .transfer, []⟩) }, { date := 2 }]

/-- The answer of `transferRun` arrives. -/
def paidRun : List Action :=
  transferRun ++ workerRuns 0 [{ reply := .ok ⟨some 900, some .completed, none⟩ }, { date := 3 }]

/-- No key has expired. -/
def noneExpired (s : State) : Bool :=
  s.transaction.answers.all fun answer => decide (answer.2 ≠ .error keyExpired)

theorem timely_of_noneExpired (h : noneExpired s = true) : Timely s a := by
  match a with
  | .payroll (.run w choice) =>
    intro worker job leaseToken item rest code body _ _ hmem
    have hne := List.all_eq_true.mp h _ hmem
    simp at hne
  | .payroll (.submit ..) | .payroll (.enqueue _) | .payroll (.enqueueFailed _)
  | .payroll (.noteQueueFailure _) | .payroll (.start ..) | .payroll (.renew ..)
  | .payroll (.expire _) | .payroll (.stop _) | .transaction _ => trivial

/-- The theorem at the end of `paidRun`, where the item is completed. -/
theorem paidOnce_of_timely_paidRun : ∃ s : State,
    s.payroll.store.items.rows.map PayrollItem.status = [.completed] ∧ PaidOnce s := by
  have hrun : ((system domesticConfig).runWhere (fun s _ => noneExpired s) .initial paidRun).map
      (fun s => s.payroll.store.items.rows.map PayrollItem.status) = some [.completed] := by
    decide +kernel
  obtain ⟨s, hs, hstatus⟩ := Option.map_eq_some_iff.mp hrun
  exact ⟨s, hstatus, paidOnce_of_timely
    (System.ReachableBy.runWhere (fun _ _ h => timely_of_noneExpired h) .init hs)⟩

/-- The answer of `transferRun` is lost with the worker. The next one starts a day later, reclaims the
item, repeats the key and is told that it has expired. -/
def lateRun : List Action :=
  transferRun ++
  [.payroll (.stop 0), .payroll (.expire "employer-a"),
    .transaction (.tick (Transaction.replayWindowMs * 1000 + 1000)), .payroll (.start 1 1)] ++
  workerRuns 1 [{}, { token := 200 }, {}, {}, { token := 201 }] ++
  [.transaction (.request (servingExecution 1) (.create employeeRequest))] ++
  executionRuns 1 [{}, {}] ++
  workerRuns 1 [{ reply := .http 409 "IDEMPOTENCY_KEY_EXPIRED" noBody }, { date := 4 }]

/-- At the end of `lateRun` the item is FAILED and its transfer is COMPLETED. -/
theorem not_paidOnce_lateRun : ¬∀ s, (system domesticConfig).Reachable s → PaidOnce s := by
  intro hall
  have hrun : ((system domesticConfig).run .initial lateRun).map (fun s => decide (
      ∃ item ∈ s.payroll.store.items.rows, item.status = .failed ∧
        ∃ job ∈ s.payroll.store.jobs.rows, job.id = item.payrollJobId ∧
          ∃ r ∈ s.transaction.db.records.rows, r.clientId = job.employerId ∧
            r.key = Payroll.transferIdempotencyKey job.id item.id ∧
            ∃ t ∈ s.transaction.db.transfers.rows, t.id = r.transferId ∧ t.status = .completed)) =
      some true := by
    decide +kernel
  obtain ⟨s, hs, hunpaid⟩ := Option.map_eq_some_iff.mp hrun
  obtain ⟨item, hitem, hfailed, job, hjob, hid, r, hr, hclient, hkey, t, ht, htid, hcompleted⟩ :=
    of_decide_eq_true hunpaid
  exact (hall s (System.reachable_of_run hs)).failed item hitem job ⟨hjob, hid⟩ hfailed r hr hclient hkey
    t ht htid hcompleted

end NovaPay.Disbursement
