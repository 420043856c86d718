import NovaPay.Transaction.Idempotency

/-!
# Replays of a terminal response

A create request that shows its transfer in a terminal status shows the stored response, unless it
reads the failed row itself: then it answers 422 whatever status was stored.
-/

namespace NovaPay.Transaction

open DecimalArithmetic Relational TransitionSystem

variable {config : Config} {db db' : Database} {s s' : State} {e : ExecId} {t : Transfer}

/-- The transfer whose row the next statement reads to answer from it. -/
def Pc.rereads : Pc → Option Uuid
  | .reconcileRead id _ | .reconcileReload id | .processRead id | .complete id _ | .fail id _
  | .reread id => some id
  | _ => none

/-- A stored status that a row answered by `resultForTransfer` agrees with. -/
def StoredAs422 (db : Database) (id : Uuid) : Prop :=
  ∀ t r, db.findTransfer id = some t → t.status = .failed → db.recordOf id = some r →
    r.responseStatus = some 422

/-- A step by which no create reads a failed row that was stored with a status other than 422. -/
def ReadsNoOtherFailure (s : State) : Action → Prop
  | .run e _ => ∀ request pc id, s.executions e = some ⟨.create request, some pc⟩ →
      pc.rereads = some id → StoredAs422 s.db id
  | _ => True

/-- An answer that shows a failed transfer has the stored status. -/
def FailureStored (db : Database) (httpStatus : ℕ) (body : TransferResponse) : Prop :=
  body.status = .failed → ∃ r, db.recordOf body.transferId = some r ∧ r.state ≠ .processing ∧
    r.responseStatus = some httpStatus

def NextStored (db : Database) : Next → Prop
  | .answer (.result httpStatus body) => FailureStored db httpStatus body
  | _ => True

theorem FailureStored.mono (hev : Evolves db db') {httpStatus : ℕ} {body : TransferResponse}
    (h : FailureStored db httpStatus body) : FailureStored db' httpStatus body := by
  intro hf
  obtain ⟨r, hr, hstate, hstatus⟩ := h hf
  obtain ⟨q, hq, hp⟩ := hev.record _ r hr
  obtain rfl := hp.frozen hstate
  exact ⟨q, hq, hstate, hstatus⟩

theorem resultForTransfer_stored (hl : Lockstep db) (ht : db.findTransfer t.id = some t)
    (h : StoredAs422 db t.id) : NextStored db (.answer (resultForTransfer t)) := by
  intro hf
  change t.status = .failed at hf
  obtain ⟨r, hr, hat⟩ := Database.record_of_transfer hl ht
  refine ⟨r, hr, by rw [hat.failed.mpr hf]; decide, ?_⟩
  rw [h t r ht hf hr]
  simp [hf, TransferStatus.open]

theorem processingResult_stored (h : t.status = .pending ∨ t.status = .processing) :
    NextStored db (.answer (processingResult t)) := by
  intro hf
  change t.status = .failed at hf
  simp [hf] at h

theorem enterPrepareInternational_stored (hl : Lockstep db) (ht : db.findTransfer t.id = some t)
    (h : StoredAs422 db t.id) : NextStored db (enterPrepareInternational t) := by
  unfold enterPrepareInternational
  split
  · split
    · trivial
    · exact resultForTransfer_stored hl ht h
  · exact resultForTransfer_stored hl ht h

theorem withTransfer_stored {id : Uuid} {k : Transfer → Next}
    (h : ∀ t, t.id = id → db.findTransfer t.id = some t → NextStored db (k t)) :
    NextStored db (withTransfer db id k) := by
  unfold withTransfer
  split
  · next t ht =>
    have hid := (Database.findTransfer_eq_some_iff.mp ht).2
    exact h t hid (hid ▸ ht)
  · trivial

theorem handleExisting_stored {origin : Origin} {now : Time} {r : IdempotencyRecord}
    (hpc : PcOk config db origin (.databaseNow t r)) : NextStored db (handleExisting now t r) := by
  unfold handleExisting
  split
  · trivial
  split
  · next status body hstatus hbody =>
    split
    · next hstate =>
      intro hf
      obtain ⟨q, hq, hp, hlock⟩ := hpc.record t r rfl
      obtain ⟨u, hu, hat⟩ := hlock hstate.1
      obtain rfl := hp.frozen hstate.1
      have hview := hat.body
      rw [hbody] at hview
      split at hview
      · cases hview
      obtain rfl := Option.some.inj hview
      have hid : (toResponse u).transferId = t.id := (Database.findTransfer_eq_some_iff.mp hu).2
      exact ⟨q, hid ▸ hq, hstate.1, hstatus⟩
    · trivial
  · trivial

section Statements

variable {origin : Origin} {now : Time} {c : Choice}

theorem claimInsert_stored (hl : Lockstep db) (request : CreateRequest) :
    NextStored (advance config now c db (.claimInsert request)).1
      (advance config now c db (.claimInsert request)).2 := by
  simp only [advance]
  unfold runClaimInsert
  split
  · next db' t hins =>
    -- The row is new, so it is PENDING.
    obtain ⟨⟨r, hc⟩, -⟩ := insertClaim_ok hl hins
    unfold afterClaim
    split
    · trivial
    · refine enterPrepareInternational_stored
        ((Change.created t r hc).lockstep hl) hc.replaces.findTransfer fun u q hu hf => ?_
      rw [hc.replaces.findTransfer] at hu
      obtain rfl := Option.some.inj hu
      simp [hc.pending] at hf
  · trivial
  · trivial

theorem reconcileFrom_stored (hl : Lockstep db) (ht : db.findTransfer t.id = some t)
    (h : StoredAs422 db t.id) (force : Bool) : NextStored db (reconcileFrom t force) := by
  unfold reconcileFrom
  split
  · trivial
  · split
    · exact resultForTransfer_stored hl ht h
    · trivial

theorem reconcileReload_stored (hl : Lockstep db) {id : Uuid} (h : StoredAs422 db id) :
    NextStored (advance config now c db (.reconcileReload id)).1
      (advance config now c db (.reconcileReload id)).2 := by
  simp only [advance, runReconcileReload]
  split
  · next t ht =>
    obtain rfl := (Database.findTransfer_eq_some_iff.mp ht).2
    exact enterPrepareInternational_stored hl ht h
  · trivial

theorem byReference_stored {force : Bool} (hpc : PcOk config db origin (.byReference t force)) :
    NextStored (advance config now c db (.byReference t force)).1
      (advance config now c db (.byReference t force)).2 := by
  simp only [advance, afterByReference]
  split
  · trivial
  · exact processingResult_stored (.inr hpc.checked)
  · repeat' split
    all_goals first | trivial | exact processingResult_stored (.inr hpc.checked)

theorem consume_stored {quoteId : Uuid} (hpc : PcOk config db origin (.consume t quoteId)) :
    NextStored (advance config now c db (.consume t quoteId)).1
      (advance config now c db (.consume t quoteId)).2 := by
  simp only [advance, runConsume, handleFxFailure]
  repeat' split
  all_goals first | trivial | exact processingResult_stored (.inl hpc.checked.1)

theorem enterProcess_stored (hl : Lockstep db) (ht : db.findTransfer t.id = some t)
    (h : StoredAs422 db t.id) : NextStored db (enterProcess t) := by
  unfold enterProcess
  split
  · exact resultForTransfer_stored hl ht h
  · trivial

theorem post_stored {sender recipient : WalletValidation} {posting : PostingCommand}
    (hpc : PcOk config db origin (.post t sender recipient posting)) :
    NextStored (advance config now c db (.post t sender recipient posting)).1
      (advance config now c db (.post t sender recipient posting)).2 := by
  simp only [advance, runPost, handleLedgerFailure]
  repeat' split
  all_goals first | trivial | exact processingResult_stored (.inr hpc.checked.1)

theorem complete_stored (hl : Lockstep db) {id : Uuid} {ledgerTransactionId : Option Uuid} (h : StoredAs422 db id) :
    NextStored (advance config now c db (.complete id ledgerTransactionId)).1
      (advance config now c db (.complete id ledgerTransactionId)).2 := by
  simp only [advance]
  unfold runComplete
  split
  · next db' u b hr =>
    unfold completedResult
    split
    · next hc =>
      intro hf
      change u.status = .failed at hf
      simp [hc] at hf
    · rcases complete_ok hl hr with ⟨-, rfl, hu, -⟩ | ⟨-, t, r, posting, -, -, rfl, -⟩
      · obtain rfl := (Database.findTransfer_eq_some_iff.mp hu).2
        exact resultForTransfer_stored hl hu h
      · next hne => exact absurd rfl hne
  · trivial

theorem fail_stored (hl : Lockstep db) {id : Uuid} {error : HttpError} (h : StoredAs422 db id) :
    NextStored (advance config now c db (.fail id error)).1 (advance config now c db (.fail id error)).2 := by
  simp only [advance]
  unfold runFail
  split
  · next db' u b hr =>
    rcases fail_ok hl hr with ⟨rfl, rfl, hu, -⟩ | ⟨rfl, t, r, -, rfl, hm⟩
    · obtain rfl := (Database.findTransfer_eq_some_iff.mp hu).2
      exact resultForTransfer_stored hl hu h
    · -- The answer is made from the error that the record now keeps.
      exact fun _ => ⟨_, hm.replaces.recordOf, by simp [IdempotencyRecord.fail], rfl⟩
  · trivial

/-- The stored status is shown by every statement but the reading of a failed row. -/
theorem advance_stored (hl : Lockstep db) {pc : Pc} (hpc : PcOk config db origin pc)
    (h : ∀ id, pc.rereads = some id → StoredAs422 db id) :
    NextStored (advance config now c db pc).1 (advance config now c db pc).2 := by
  cases pc with
  | claimLookup request =>
    simp only [advance, runClaimLookup, enterHandleExisting]
    repeat' split
    all_goals trivial
  | claimInsert request => exact claimInsert_stored hl request
  | claimRecover request =>
    simp only [advance, runClaimRecover, enterHandleExisting]
    repeat' split
    all_goals trivial
  | claimQuoteLookup quoteId =>
    simp only [advance, runClaimQuoteLookup]
    split <;> trivial
  | databaseNow t r => exact handleExisting_stored hpc
  | transition id =>
    simp only [advance]
    unfold runTransition
    split <;> trivial
  | reconcileRead id force =>
    exact withTransfer_stored fun t hid ht => reconcileFrom_stored hl ht (h t.id (hid ▸ rfl)) force
  | reconcileReload id => exact reconcileReload_stored hl (h id rfl)
  | byReference t force => exact byReference_stored hpc
  | claimRetry t staleBefore =>
    simp only [advance]
    unfold runClaimRetry
    split <;> trivial
  | consume t quoteId => exact consume_stored hpc
  | prepare t quote =>
    simp only [advance]
    unfold runPrepare
    split <;> trivial
  | processRead id =>
    exact withTransfer_stored fun t hid ht => enterProcess_stored hl ht (h t.id (hid ▸ rfl))
  | validate t =>
    simp only [advance, afterValidation, handleAccountFailure]
    repeat' split
    all_goals trivial
  | post t sender recipient posting => exact post_stored hpc
  | complete id ledgerTransactionId => exact complete_stored hl (h id rfl)
  | fail id error => exact fail_stored hl (h id rfl)
  | reread id =>
    exact withTransfer_stored fun t hid ht => resultForTransfer_stored hl ht (h t.id (hid ▸ rfl))

end Statements

/-- The answers to creates show failures with the stored status. -/
def FailuresStored (s : State) : Prop :=
  ∀ e request httpStatus body, (e, .result httpStatus body) ∈ s.answers →
    s.executions e = some ⟨.create request, none⟩ → FailureStored s.db httpStatus body

theorem failuresStored_proceed (db : Database) (hi : Invariant config s) (h : FailuresStored s) {origin : Origin}
    {next : Next} (hdb : Evolves s.db db) (hfree : ∀ origin', s.executions e ≠ some ⟨origin', none⟩)
    (hnext : (∃ request, origin = .create request) → NextStored db next) :
    FailuresStored ((s.withDb db).proceed e origin next) := by
  intro i request httpStatus body ho hend
  rcases State.mem_proceed_answers.mp ho with ⟨rfl, rfl⟩ | hold
  · rw [State.proceed_executions_self] at hend
    cases hend
    exact hnext ⟨request, rfl⟩
  · have hne : i ≠ e := by
      rintro rfl
      obtain ⟨origin', hended⟩ := hi.ended i _ hold
      exact hfree origin' hended
    rw [State.proceed_executions_of_ne hne] at hend
    exact (h i request httpStatus body hold hend).mono hdb

theorem failuresStored_step (hi : Invariant config s) (h : FailuresStored s) {a : Action}
    (hok : ReadsNoOtherFailure s a) (hs : step config s a = some s') : FailuresStored s' := by
  have hev := step_evolves hi hs
  rcases step_cases hs with ⟨_, -, rfl⟩ | ⟨e, origin, next, -, he, rfl, hnext⟩ |
    ⟨e, c, origin, pc, rfl, he, -, rfl⟩ | ⟨e, origin, pc, -, he, rfl⟩
  · exact h
  · refine failuresStored_proceed s.db hi h (.refl s.db) (by simp [he]) fun _ => ?_
    rcases hnext with ⟨pc, -, rfl⟩ | ⟨error, -, rfl⟩ <;> trivial
  · refine failuresStored_proceed _ hi h hev (by simp [he]) fun ⟨request, ho⟩ => ?_
    subst ho
    exact advance_stored hi.lockstep (hi.running e _ pc he) fun id hid => hok request pc id he hid
  · intro i request httpStatus body ho hend
    have hne : i ≠ e := by
      rintro rfl
      obtain ⟨origin', hended⟩ := hi.ended i _ ho
      rw [he] at hended
      cases hended
    rw [State.stop_executions_of_ne hne] at hend
    exact h i request httpStatus body ho hend

theorem failuresStored_of_reachableBy (h : (system config).ReachableBy ReadsNoOtherFailure s) :
    FailuresStored s :=
  System.ReachableBy.invariant (P := FailuresStored) (by simp [FailuresStored, system, State.initial])
    (fun _ _ _ hr hp hok hs => failuresStored_step (invariant_of_reachable hr.reachable) hp hok hs) h

/-- In every run in which no create reads a failed row stored with a status other than 422, each
answer to a create that shows a terminal transfer is the stored response of its key, and so any two
such answers for one key are equal. -/
theorem terminal_answers_agree (h : (system config).ReachableBy ReadsNoOtherFailure s) :
    (∀ e request httpStatus body, (e, .result httpStatus body) ∈ s.answers →
      s.executions e = some ⟨.create request, none⟩ → body.status.open = false →
      ∃ r ∈ s.db.records.rows, r.clientId = request.clientId ∧ r.key = request.key ∧
        r.responseStatus = some httpStatus ∧ r.responseBody = some body) ∧
    ∀ e e' request request' httpStatus httpStatus' body body',
      (e, .result httpStatus body) ∈ s.answers → (e', .result httpStatus' body') ∈ s.answers →
      s.executions e = some ⟨.create request, none⟩ →
      s.executions e' = some ⟨.create request', none⟩ →
      request.clientId = request'.clientId → request.key = request'.key →
      body.status.open = false → body'.status.open = false →
      httpStatus = httpStatus' ∧ body = body' := by
  have hi := invariant_of_reachable h.reachable
  have hstored := failuresStored_of_reachableBy h
  have hfirst : ∀ e request httpStatus body, (e, .result httpStatus body) ∈ s.answers →
      s.executions e = some ⟨.create request, none⟩ → body.status.open = false →
      ∃ r ∈ s.db.records.rows, r.clientId = request.clientId ∧ r.key = request.key ∧
        r.responseStatus = some httpStatus ∧ r.responseBody = some body := by
    intro e request httpStatus body ho he hterminal
    obtain ⟨t, ⟨r, hr, hclient, hkey, -⟩, ⟨u, hu, hprog⟩, rfl, hcompleted, -⟩ :=
      hi.answered e _ httpStatus body ho he
    obtain rfl := hprog.frozen hterminal
    obtain ⟨-, q, hq, hat⟩ := hi.lockstep.agree _ u hu
    obtain rfl := Option.some.inj (hr.symm.trans hq)
    refine ⟨r, (Database.recordOf_eq_some_iff.mp hr).1, hclient, hkey, ?_, ?_⟩
    · cases hs : u.status with
      | pending => simp [toResponse, hs, TransferStatus.open] at hterminal
      | processing => simp [toResponse, hs, TransferStatus.open] at hterminal
      | completed => rw [hcompleted hs, hat.status_completed hs]
      | failed =>
        obtain ⟨p, hp, -, hstatus⟩ := hstored e request httpStatus _ ho he hs
        obtain rfl := Option.some.inj (hr.symm.trans hp)
        exact hstatus
      | reversed => exact absurd hs hat.not_reversed
    · have hbody := hat.body
      rwa [if_neg (by simpa [toResponse] using hterminal)] at hbody
  refine ⟨hfirst, fun e e' request request' httpStatus httpStatus' body body' ho ho' he he' hc hk
    hterminal hterminal' => ?_⟩
  obtain ⟨r, hr, hrc, hrk, hstatus, hbody⟩ := hfirst e request httpStatus body ho he hterminal
  obtain ⟨q, hq, hqc, hqk, hstatus', hbody'⟩ := hfirst e' request' httpStatus' body' ho' he' hterminal'
  obtain rfl : r = q := Database.record_eq_of_key hr hq ((hrc.trans hc).trans hqc.symm)
    ((hrk.trans hk).trans hqk.symm)
  exact ⟨Option.some.inj (hstatus.symm.trans hstatus'), Option.some.inj (hbody.symm.trans hbody')⟩

/-- Two requests with one key: the second reads the record before the first fails the transfer
with 404, and the row after. -/
def lateReaderRun : List Action := [
  .request 0 (.create domesticRequest),
  .run 0 {},
  .run 0 { ids := ⟨7, 8, 9⟩ },
  .run 0 { date := 1 },
  .run 0 {},
  .request 1 (.create domesticRequest),
  .run 1 {},
  .run 0 { account := .error (.http ⟨404, "WALLET_NOT_FOUND", "Wallet not found."⟩) },
  .run 0 { date := 2 },
  .run 1 {},
  .run 1 {}]

/-- What both requests of `lateReaderRun` show. -/
def walletNotFoundResponse : TransferResponse where
  transferId := 7
  status := .failed
  sourceAmount := ⟨2500000000, 8⟩
  sourceCurrency := usd
  targetAmount := some ⟨2500000000, 8⟩
  targetCurrency := usd
  ledgerTransactionId := none
  completedAt := none
  quoteId := none
  lockedRate := none
  statusUrl := none
  failure := some ("WALLET_NOT_FOUND", "Wallet not found.")

/-- The second request of `lateReaderRun` shows the failed transfer with 422 where 404 is stored. -/
theorem late_reader_answers_differ :
    ∃ s, (system domesticConfig).Reachable s ∧
      s.executions 0 = some ⟨.create domesticRequest, none⟩ ∧
      s.executions 1 = some ⟨.create domesticRequest, none⟩ ∧
      s.answers = [(1, .result 422 walletNotFoundResponse), (0, .result 404 walletNotFoundResponse)] ∧
      s.db.records.rows.map (fun r => (r.clientId, r.key, r.responseStatus, r.responseBody)) =
        [("client-a", "order-1", some 404, some walletNotFoundResponse)] := by
  have hplaces : ((system domesticConfig).run .initial lateReaderRun).map
      (fun s => (s.executions 0, s.executions 1)) =
      some (some ⟨.create domesticRequest, none⟩, some ⟨.create domesticRequest, none⟩) := by
    decide +kernel
  have hanswers : ((system domesticConfig).run .initial lateReaderRun).map State.answers =
      some [(1, .result 422 walletNotFoundResponse), (0, .result 404 walletNotFoundResponse)] := by
    decide +kernel
  have hrecords : ((system domesticConfig).run .initial lateReaderRun).map (fun s =>
      s.db.records.rows.map fun r => (r.clientId, r.key, r.responseStatus, r.responseBody)) =
      some [("client-a", "order-1", some 404, some walletNotFoundResponse)] := by
    decide +kernel
  obtain ⟨s, hs, hplaces⟩ := Option.map_eq_some_iff.mp hplaces
  rw [hs] at hanswers hrecords
  obtain ⟨hzero, hone⟩ := Prod.mk.inj hplaces
  exact ⟨s, System.reachable_of_run hs, hzero, hone, Option.some.inj hanswers,
    Option.some.inj hrecords⟩

/-- Every failed row is stored with 422. -/
def storesAs422 (s : State) : Bool :=
  s.db.transfers.rows.all fun t => decide (t.status ≠ .failed) ||
    s.db.records.rows.all fun r => decide (r.transferId ≠ t.id) || decide (r.responseStatus = some 422)

theorem readsNoOtherFailure_of_storesAs422 {a : Action} (h : storesAs422 s = true) :
    ReadsNoOtherFailure s a := by
  cases a with
  | run e c =>
    intro request pc id _ _ t r ht hf hr
    obtain ⟨hmem, rfl⟩ := Database.findTransfer_eq_some_iff.mp ht
    obtain ⟨hrow, hid⟩ := Database.recordOf_eq_some_iff.mp hr
    simp only [storesAs422, List.all_eq_true, Bool.or_eq_true, decide_eq_true_eq] at h
    rcases h t hmem with hne | hall
    · exact absurd hf hne
    · rcases hall r hrow with hother | hstatus
      · exact absurd hid hother
      · exact hstatus
  | _ => trivial

/-- Three requests with one key, whose posting the Ledger rejects for want of funds: the second reads
the record before that and the row after it, the third replays the stored response. -/
def unfundedRun : List Action := [
  .request 0 (.create domesticRequest),
  .run 0 {},
  .run 0 { ids := ⟨7, 8, 9⟩ },
  .run 0 { date := 1 },
  .run 0 {},
  .request 1 (.create domesticRequest),
  .run 1 {},
  .run 0 {
    account := .ok (walletOf senderWallet "client-a" 1, walletOf recipientWallet "client-b" 2) },
  .run 0 { posting := .error (.http
    ⟨422, "INSUFFICIENT_FUNDS", "The wallet has insufficient available funds."⟩) },
  .run 0 { date := 2 },
  .run 1 {},
  .run 1 {},
  .request 2 (.create domesticRequest),
  .run 2 {},
  .run 2 {}]

/-- The theorem at the end of `unfundedRun`. -/
theorem terminal_answers_agree_unfundedRun : ∃ s : State,
    s.answers.map Prod.fst = [2, 1, 0] ∧ s.db.transfers.rows.map Transfer.status = [.failed] ∧
      ∀ e e' httpStatus httpStatus' body body', (e, .result httpStatus body) ∈ s.answers →
        (e', .result httpStatus' body') ∈ s.answers → body.status.open = false →
        body'.status.open = false → httpStatus = httpStatus' ∧ body = body' := by
  have hrun : ((system domesticConfig).runWhere (fun s _ => storesAs422 s) .initial unfundedRun).map
      (fun s => (s.answers.map Prod.fst, s.db.transfers.rows.map Transfer.status,
        [2, 1, 0].all fun e => decide (s.executions e = some ⟨.create domesticRequest, none⟩))) =
      some ([2, 1, 0], [.failed], true) := by decide +kernel
  obtain ⟨s, hs, heq⟩ := Option.map_eq_some_iff.mp hrun
  simp only [Prod.mk.injEq, List.all_eq_true, decide_eq_true_eq] at heq
  obtain ⟨hanswers, hstatus, hends⟩ := heq
  have hreach : (system domesticConfig).ReachableBy ReadsNoOtherFailure s :=
    System.ReachableBy.runWhere (fun _ _ h => readsNoOtherFailure_of_storesAs422 h) .init hs
  have hend : ∀ e outcome, (e, outcome) ∈ s.answers →
      s.executions e = some ⟨.create domesticRequest, none⟩ := by
    intro e outcome ho
    exact hends e (hanswers ▸ List.mem_map_of_mem ho)
  exact ⟨s, hanswers, hstatus, fun e e' _ _ _ _ ho ho' => (terminal_answers_agree hreach).2 e e' _ _ _ _ _ _
    ho ho' (hend e _ ho) (hend e' _ ho') rfl rfl⟩

end NovaPay.Transaction
