import NovaPay.Transaction.Execution
import NovaPay.Transaction.Effects

/-!
# The invariant of the executions

What every execution knows at the statement it waits at: the transfer it works for, the row it
read before, and the facts it checked. All of it survives the steps of other executions, because
rows only progress.
-/

namespace NovaPay.Transaction

open DecimalArithmetic Relational TransitionSystem

variable {config : Config} {db db' : Database} {origin : Origin} {t u : Transfer}

/-- A create works for the transfer its key is bound to, a reconcile for the one it names. -/
def Serves (config : Config) (db : Database) (origin : Origin) (id : Uuid) : Prop :=
  match origin with
  | .create request => ∃ r, db.recordOf id = some r ∧ r.clientId = request.clientId ∧
      r.key = request.key ∧ r.requestHash = request.command.requestHash config.sha256
  | .reconcile transferId _ => id = transferId

/-- `t` was the row of its transfer once. -/
def Snapshot (db : Database) (t : Transfer) : Prop :=
  ∃ u, db.findTransfer t.id = some u ∧ Progress t u

/-- The transfer an execution works for. -/
def Pc.transferId? : Pc → Option Uuid
  | .claimLookup _ | .claimInsert _ | .claimRecover _ | .claimQuoteLookup _ => none
  | .databaseNow t _ | .byReference t _ | .claimRetry t _ | .consume t _ | .prepare t _
  | .validate t | .post t _ _ _ => some t.id
  | .transition id | .reconcileRead id _ | .reconcileReload id | .processRead id
  | .complete id _ | .fail id _ | .reread id => some id

/-- The row an execution read before. -/
def Pc.transfer? : Pc → Option Transfer
  | .databaseNow t _ | .byReference t _ | .claimRetry t _ | .consume t _ | .prepare t _
  | .validate t | .post t _ _ _ => some t
  | _ => none

/-- What the code before a statement checked of its locals. -/
def Pc.Checked (origin : Origin) : Pc → Prop
  | .claimLookup request | .claimInsert request | .claimRecover request =>
    origin = .create request
  | .claimQuoteLookup _ => ∃ request, origin = .create request
  | .databaseNow _ _ => ∃ request, origin = .create request
  | .byReference t _ | .claimRetry t _ | .validate t => t.status = .processing
  | .consume t quoteId => t.status = .pending ∧ t.type = .international ∧ t.fxQuoteId = some quoteId
  | .prepare t _ => t.status = .pending ∧ t.type = .international ∧ t.fxQuoteId ≠ none
  | .post t sender recipient posting => t.status = .processing ∧
      validateWallets t sender recipient = .ok () ∧
      ∃ requestId, postingCommand t requestId = some posting
  | _ => True

structure PcOk (config : Config) (db : Database) (origin : Origin) (pc : Pc) : Prop where
  checked : pc.Checked origin
  serves : ∀ id, pc.transferId? = some id → Serves config db origin id
  snapshot : ∀ t, pc.transfer? = some t → Snapshot db t
  record : ∀ t r, pc = .databaseNow t r →
    ∃ q, db.recordOf t.id = some q ∧ RecordProgress r q ∧
      (r.state ≠ .processing → ∃ u, db.findTransfer t.id = some u ∧ LockstepAt u r (expectedRows u))

/-- An answer shows a row of the transfer the request was served for, with the HTTP status of
that row; a failed row is shown with the stored status or with 422. -/
def AnswerOk (config : Config) (db : Database) (origin : Origin) (httpStatus : ℕ)
    (body : TransferResponse) : Prop :=
  ∃ t, Serves config db origin t.id ∧ Snapshot db t ∧ body = toResponse t ∧
    (t.status = .completed → httpStatus = 201) ∧
    (t.status = .failed → httpStatus = 422 ∨
      ∃ r, db.recordOf t.id = some r ∧ r.state ≠ .processing ∧ r.responseStatus = some httpStatus)

def NextOk (config : Config) (db : Database) (origin : Origin) : Next → Prop
  | .goto pc => PcOk config db origin pc
  | .answer (.result httpStatus body) => AnswerOk config db origin httpStatus body
  | .answer (.error _) => True

namespace Evolves

theorem serves (h : Evolves db db') {id : Uuid} (hs : Serves config db origin id) :
    Serves config db' origin id := by
  cases origin with
  | create request =>
    obtain ⟨r, hr, hc, hk, hh⟩ := hs
    obtain ⟨q, hq, hp⟩ := h.record id r hr
    exact ⟨q, hq, hp.same.clientId.symm.trans hc, hp.same.key.symm.trans hk,
      hp.same.requestHash.symm.trans hh⟩
  | reconcile transferId force => exact hs

theorem snapshot (h : Evolves db db') (hs : Snapshot db t) : Snapshot db' t := by
  obtain ⟨u, hu, hp⟩ := hs
  obtain ⟨v, hv, hp'⟩ := h.transfer _ u hu
  exact ⟨v, hv, hp.trans hp'⟩

theorem pcOk (h : Evolves db db') {pc : Pc} (hpc : PcOk config db origin pc) :
    PcOk config db' origin pc := by
  refine ⟨hpc.checked, fun id hid => h.serves (hpc.serves id hid),
    fun t ht => h.snapshot (hpc.snapshot t ht), fun t r heq => ?_⟩
  obtain ⟨q, hq, hp, hlock⟩ := hpc.record t r heq
  obtain ⟨q', hq', hp'⟩ := h.record _ q hq
  refine ⟨q', hq', hp.trans hp', fun hstate => ?_⟩
  obtain ⟨u, hu, hat⟩ := hlock hstate
  obtain ⟨u', hu', hprog⟩ := h.transfer _ u hu
  have hclosed : u.status.open = false := by
    by_contra hopen
    exact hstate (hat.processing.mpr (TransferStatus.open_iff.mp (by simpa using hopen)))
  obtain rfl := hprog.frozen hclosed
  exact ⟨u', hu', hat⟩

theorem answerOk (h : Evolves db db') {httpStatus : ℕ} {body : TransferResponse}
    (ha : AnswerOk config db origin httpStatus body) : AnswerOk config db' origin httpStatus body := by
  obtain ⟨t, hserves, hsnap, hbody, hc, hf⟩ := ha
  refine ⟨t, h.serves hserves, h.snapshot hsnap, hbody, hc, fun hs => ?_⟩
  rcases hf hs with h422 | ⟨r, hr, hstate, hstatus⟩
  · exact .inl h422
  · obtain ⟨q, hq, hp⟩ := h.record _ r hr
    obtain rfl := hp.frozen hstate
    exact .inr ⟨q, hq, hstate, hstatus⟩

end Evolves

theorem snapshot_of_find {id : Uuid} (h : db.findTransfer id = some t) : t.id = id ∧ Snapshot db t := by
  have hid := (Database.findTransfer_eq_some_iff.mp h).2
  exact ⟨hid, t, hid ▸ h, .refl t⟩

theorem resultForTransfer_ok (hs : Serves config db origin t.id) (hsnap : Snapshot db t) :
    NextOk config db origin (.answer (resultForTransfer t)) := by
  refine ⟨t, hs, hsnap, rfl, fun h => ?_, fun h => .inl ?_⟩ <;> simp [h, TransferStatus.open]

theorem processingResult_ok (hs : Serves config db origin t.id) (hsnap : Snapshot db t)
    (hopen : t.status = .pending ∨ t.status = .processing) :
    NextOk config db origin (.answer (processingResult t)) := by
  refine ⟨t, hs, hsnap, rfl, fun h => ?_, fun h => ?_⟩ <;> simp [h] at hopen

theorem goto_claim_ok {pc : Pc} (hid : pc.transferId? = none) (ht : pc.transfer? = none)
    (hc : pc.Checked origin) : PcOk config db origin pc :=
  ⟨hc, by simp [hid], by simp [ht], fun t r heq => by simp [heq, Pc.transfer?] at ht⟩

theorem goto_id_ok {id : Uuid} {pc : Pc} (hs : Serves config db origin id)
    (hid : pc.transferId? = some id) (ht : pc.transfer? = none) (hc : pc.Checked origin) :
    NextOk config db origin (.goto pc) := by
  refine ⟨hc, fun i hi => ?_, fun v hv => by simp [ht] at hv, fun v r heq => by simp [heq, Pc.transfer?] at ht⟩
  rw [hid] at hi
  exact Option.some.inj hi ▸ hs

theorem goto_transfer_ok {pc : Pc} (hs : Serves config db origin t.id) (hsnap : Snapshot db t)
    (hid : pc.transferId? = some t.id) (ht : pc.transfer? = some t) (hc : pc.Checked origin)
    (hr : ∀ v r, pc ≠ .databaseNow v r) : NextOk config db origin (.goto pc) := by
  refine ⟨hc, fun i hi => ?_, fun v hv => ?_, fun v r heq => absurd heq (hr v r)⟩
  · rw [hid] at hi
    exact Option.some.inj hi ▸ hs
  · rw [ht] at hv
    exact Option.some.inj hv ▸ hsnap

theorem withTransfer_ok {id : Uuid} {k : Transfer → Next}
    (h : ∀ t, db.findTransfer id = some t → NextOk config db origin (k t)) :
    NextOk config db origin (withTransfer db id k) := by
  unfold withTransfer
  split
  · next t ht => exact h t ht
  · trivial

theorem enterPrepareInternational_ok (hs : Serves config db origin t.id) (hsnap : Snapshot db t) :
    NextOk config db origin (enterPrepareInternational t) := by
  unfold enterPrepareInternational
  split
  · next quoteId hq =>
    split
    · next hc =>
      exact goto_transfer_ok hs hsnap rfl rfl ⟨hc.1, hc.2, hq⟩ (by simp)
    · exact resultForTransfer_ok hs hsnap
  · exact resultForTransfer_ok hs hsnap

theorem reconcileFrom_ok {force : Bool} (hs : Serves config db origin t.id) (hsnap : Snapshot db t) :
    NextOk config db origin (reconcileFrom t force) := by
  unfold reconcileFrom
  split
  · exact goto_id_ok hs rfl rfl trivial
  · split
    · exact resultForTransfer_ok hs hsnap
    · next hp => exact goto_transfer_ok hs hsnap rfl rfl (not_not.mp hp) (by simp)

theorem afterByReference_ok {force : Bool} {c : Choice} {reply : Reply LedgerPosting}
    (hs : Serves config db origin t.id) (hsnap : Snapshot db t) (hp : t.status = .processing) :
    NextOk config db origin (afterByReference config c t force reply) := by
  unfold afterByReference
  split
  · exact goto_id_ok hs rfl rfl trivial
  · exact processingResult_ok hs hsnap (.inr hp)
  · split
    · trivial
    · split
      · exact processingResult_ok hs hsnap (.inr hp)
      · exact goto_transfer_ok hs hsnap rfl rfl hp (by simp)

theorem handleAccountFailure_ok {error : UpstreamError} (hs : Serves config db origin t.id) :
    NextOk config db origin (handleAccountFailure t error) := by
  unfold handleAccountFailure
  repeat' split
  all_goals exact goto_id_ok hs rfl rfl trivial

theorem handleFxFailure_ok {error : UpstreamError} (hs : Serves config db origin t.id)
    (hsnap : Snapshot db t) (hp : t.status = .pending) :
    NextOk config db origin (handleFxFailure t error) := by
  unfold handleFxFailure
  split
  · exact processingResult_ok hs hsnap (.inl hp)
  · split
    · exact processingResult_ok hs hsnap (.inl hp)
    · exact goto_id_ok hs rfl rfl trivial

theorem handleLedgerFailure_ok {error : UpstreamError} (hs : Serves config db origin t.id)
    (hsnap : Snapshot db t) (hp : t.status = .processing) :
    NextOk config db origin (handleLedgerFailure t error) := by
  unfold handleLedgerFailure
  split
  · exact processingResult_ok hs hsnap (.inr hp)
  · split
    · exact processingResult_ok hs hsnap (.inr hp)
    · exact goto_id_ok hs rfl rfl trivial

theorem afterValidation_ok {c : Choice}
    {answer : Except UpstreamError (WalletValidation × WalletValidation)}
    (hs : Serves config db origin t.id) (hsnap : Snapshot db t) (hp : t.status = .processing) :
    NextOk config db origin (afterValidation c t answer) := by
  unfold afterValidation
  split
  · exact handleAccountFailure_ok hs
  · split
    · exact goto_id_ok hs rfl rfl trivial
    · next hv =>
      split
      · next posting hposting =>
        exact goto_transfer_ok hs hsnap rfl rfl ⟨hp, hv, c.requestId, hposting⟩ (by simp)
      · trivial

/-- A request that finds the record of its key with its own hash goes on to the clock. -/
theorem enterHandleExisting_ok (hl : Lockstep db) {request : CreateRequest}
    {r : IdempotencyRecord} (ho : origin = .create request)
    (h : db.findByKey request.clientId request.key = some (t, r)) :
    NextOk config db origin (enterHandleExisting config request t r) := by
  obtain ⟨hr, hc, hk, ht, hid⟩ := Database.findByKey_eq_some h
  have hfind : db.findTransfer t.id = some t := Database.findTransfer_eq_some_iff.mpr ⟨ht, rfl⟩
  have hrecord : db.recordOf t.id = some r := Database.recordOf_eq_some_iff.mpr ⟨hr, hid.symm⟩
  unfold enterHandleExisting
  split
  · trivial
  · next hhash =>
    subst ho
    refine ⟨⟨request, rfl⟩, fun i hi => ?_, fun v hv => ?_, fun v q heq => ?_⟩
    · cases hi
      exact ⟨r, hrecord, hc, hk, not_not.mp hhash⟩
    · cases hv
      exact ⟨t, hfind, .refl t⟩
    · cases heq
      refine ⟨r, hrecord, .refl r, fun _ => ⟨t, hfind, ?_⟩⟩
      obtain ⟨-, q, hq, hat⟩ := hl.agree _ t hfind
      obtain rfl := Option.some.inj (hq.symm.trans hrecord)
      exact hat.rows_eq ▸ hat

/-- A stored response shows the final row with the stored status. -/
theorem handleExisting_ok {now : Time} {r : IdempotencyRecord}
    (hpc : PcOk config db origin (.databaseNow t r)) :
    NextOk config db origin (handleExisting now t r) := by
  have hserves := hpc.serves _ rfl
  unfold handleExisting
  split
  · trivial
  split
  · next status body hstatus hbody =>
    split
    · next hstate =>
      obtain ⟨q, hq, hp, hlock⟩ := hpc.record t r rfl
      obtain ⟨u, hu, hat⟩ := hlock hstate.1
      obtain rfl := hp.frozen hstate.1
      have hid := (Database.findTransfer_eq_some_iff.mp hu).2
      have hview := hat.body
      rw [hbody] at hview
      split at hview
      · cases hview
      refine ⟨u, hid ▸ hserves, ⟨u, hid ▸ hu, .refl u⟩, Option.some.inj hview, fun hs => ?_,
        fun _ => .inr ⟨q, hid ▸ hq, hstate.1, hstatus⟩⟩
      exact Option.some.inj (hstatus.symm.trans (hat.status_completed hs))
    · exact goto_id_ok hserves rfl rfl trivial
  · exact goto_id_ok hserves rfl rfl trivial

/-- A claim creates a transfer that its request is served for. -/
theorem insertClaim_ok (hl : Lockstep db) {request : CreateRequest} {c : Choice}
    (h : insertClaim config request c db = .ok (db', t)) :
    (∃ r, Created db db' t r) ∧ Serves config db' (.create request) t.id := by
  obtain ⟨r, hc, hclient, hkey, hhash⟩ : ∃ r, Created db db' t r ∧ r.clientId = request.clientId ∧
      r.key = request.key ∧ r.requestHash = request.command.requestHash config.sha256 := by
    unfold insertClaim at h
    split at h
    · next command heq =>
      obtain ⟨amount, -, -, hc⟩ := claim_ok hl h
      exact ⟨_, hc, rfl, rfl, by rw [heq]; rfl⟩
    · next command heq =>
      obtain ⟨amount, -, -, hc⟩ := claimInternational_ok hl h
      exact ⟨_, hc, rfl, rfl, by rw [heq]; rfl⟩
  exact ⟨⟨r, hc⟩, r, hc.replaces.recordOf, hclient, hkey, hhash⟩

theorem afterClaim_ok {command : Command} (hs : Serves config db origin t.id)
    (hsnap : Snapshot db t) : NextOk config db origin (afterClaim t command) := by
  cases command with
  | domestic command => exact goto_id_ok hs rfl rfl trivial
  | international command => exact enterPrepareInternational_ok hs hsnap

theorem Moved.change {r r' : IdempotencyRecord} (h : Moved db db' t r u r') : Change db db' :=
  .moved t r u r' h

/-- What the invariant asks of a statement: the database stays or changes once, and the execution
goes on or answers as it should. -/
def StatementOk (config : Config) (db : Database) (origin : Origin) (after : Database × Next) : Prop :=
  (after.1 = db ∨ Change db after.1) ∧ NextOk config after.1 origin after.2

theorem StatementOk.read {next : Next} (h : NextOk config db origin next) :
    StatementOk config db origin (db, next) := ⟨.inl rfl, h⟩

theorem StatementOk.write {next : Next} (hc : Change db db') (h : NextOk config db' origin next) :
    StatementOk config db origin (db', next) := ⟨.inr hc, h⟩

theorem runClaimLookup_ok (hl : Lockstep db) {request : CreateRequest}
    (ho : origin = .create request) :
    NextOk config db origin (runClaimLookup config db request) := by
  unfold runClaimLookup
  split
  · next hfind => exact enterHandleExisting_ok hl ho hfind
  · exact goto_claim_ok rfl rfl ho

theorem runClaimInsert_ok (hl : Lockstep db) {request : CreateRequest} {c : Choice}
    (ho : origin = .create request) :
    StatementOk config db origin (runClaimInsert config c db request) := by
  unfold runClaimInsert
  split
  · next db' t hins =>
    obtain ⟨⟨r, hc⟩, hserves⟩ := insertClaim_ok hl hins
    subst ho
    exact .write (.created t r hc) (afterClaim_ok hserves ⟨t, hc.replaces.findTransfer, .refl t⟩)
  · exact .read (goto_claim_ok rfl rfl ho)
  · exact .read trivial

theorem runClaimRecover_ok (hl : Lockstep db) {request : CreateRequest}
    (ho : origin = .create request) :
    NextOk config db origin (runClaimRecover config db request) := by
  unfold runClaimRecover
  split
  · next hfind => exact enterHandleExisting_ok hl ho hfind
  · split
    · exact goto_claim_ok rfl rfl ⟨request, ho⟩
    · trivial

theorem runClaimQuoteLookup_ok {quoteId : Uuid} :
    NextOk config db origin (runClaimQuoteLookup db quoteId) := by
  unfold runClaimQuoteLookup
  split <;> trivial

theorem runTransition_ok (hl : Lockstep db) {c : Choice} {id : Uuid}
    (hs : Serves config db origin id) :
    StatementOk config db origin (runTransition c db id) := by
  unfold runTransition
  split
  · next htr =>
    rcases transition_ok hl htr with ⟨rfl, -⟩ | ⟨t, r, -, hm⟩
    · exact .read (goto_id_ok hs rfl rfl trivial)
    · exact .write hm.change (goto_id_ok ((hm.change.evolves hl).serves hs) rfl rfl trivial)
  · exact .read trivial

theorem runReconcileReload_ok {id : Uuid} (hs : Serves config db origin id) :
    NextOk config db origin (runReconcileReload db id) := by
  unfold runReconcileReload
  split
  · next ht =>
    obtain ⟨rfl, hsnap⟩ := snapshot_of_find ht
    exact enterPrepareInternational_ok hs hsnap
  · trivial

theorem runClaimRetry_ok (hl : Lockstep db) {c : Choice} {staleBefore : Option ℤ}
    (hs : Serves config db origin t.id) :
    StatementOk config db origin (runClaimRetry c db t staleBefore) := by
  unfold runClaimRetry
  split
  · next hr =>
    rcases claimProcessingRetry_ok hl hr with ⟨hfalse, -⟩ | ⟨-, v, r, -, -, hm⟩
    · cases hfalse
    · exact .write hm.change (goto_id_ok ((hm.change.evolves hl).serves hs) rfl rfl trivial)
  · next hr =>
    rcases claimProcessingRetry_ok hl hr with ⟨-, rfl⟩ | ⟨htrue, -⟩
    · exact .read (goto_id_ok hs rfl rfl trivial)
    · cases htrue
  · exact .read trivial

theorem runConsume_ok {c : Choice} (hs : Serves config db origin t.id) (hsnap : Snapshot db t)
    (hp : t.status = .pending) (hi : t.type = .international) (hq : t.fxQuoteId ≠ none) :
    NextOk config db origin (runConsume c t) := by
  unfold runConsume
  split
  · exact goto_transfer_ok hs hsnap rfl rfl ⟨hp, hi, hq⟩ (by simp)
  · trivial
  · exact handleFxFailure_ok hs hsnap hp

theorem runPrepare_ok (hl : Lockstep db) {c : Choice} {quote : QuoteResponse}
    (hs : Serves config db origin t.id) (hsnap : Snapshot db t) :
    StatementOk config db origin (runPrepare c db t quote) := by
  obtain ⟨u, hu, hprog⟩ := hsnap
  have hsame : ∀ v, db.findTransfer t.id = some v → SameTransfer t v := fun v hv =>
    Option.some.inj (hu.symm.trans hv) ▸ hprog.same
  unfold runPrepare
  split
  · next hr =>
    rcases prepareInternational_ok hl hsame hr with ⟨hfalse, -⟩ | ⟨-, v, r, _, _, -, -, -, -, hm⟩
    · cases hfalse
    · exact .write hm.change (goto_id_ok ((hm.change.evolves hl).serves hs) rfl rfl trivial)
  · next hr =>
    rcases prepareInternational_ok hl hsame hr with ⟨-, rfl⟩ | ⟨htrue, -⟩
    · exact .read (goto_id_ok hs rfl rfl trivial)
    · cases htrue
  · exact .read trivial

theorem enterProcess_ok (hs : Serves config db origin t.id) (hsnap : Snapshot db t) :
    NextOk config db origin (enterProcess t) := by
  unfold enterProcess
  split
  · exact resultForTransfer_ok hs hsnap
  · next hp => exact goto_transfer_ok hs hsnap rfl rfl (not_not.mp hp) (by simp)

theorem runPost_ok {c : Choice} (hs : Serves config db origin t.id) (hsnap : Snapshot db t)
    (hp : t.status = .processing) : NextOk config db origin (runPost c t) := by
  unfold runPost
  split
  · exact goto_id_ok hs rfl rfl trivial
  · exact handleLedgerFailure_ok hs hsnap hp

theorem completedResult_ok (hs : Serves config db origin t.id) (hsnap : Snapshot db t) :
    NextOk config db origin (.answer (completedResult t)) := by
  unfold completedResult
  split
  · next hc => exact ⟨t, hs, hsnap, rfl, fun _ => rfl, fun hf => by simp [hc] at hf⟩
  · exact resultForTransfer_ok hs hsnap

theorem Moved.snapshot {r r' : IdempotencyRecord} (h : Moved db db' t r u r') : Snapshot db' u :=
  ⟨u, h.replaces.findTransfer, .refl u⟩

theorem runComplete_ok (hl : Lockstep db) {c : Choice} {id : Uuid}
    {ledgerTransactionId : Option Uuid} (hs : Serves config db origin id) :
    StatementOk config db origin (runComplete c db id ledgerTransactionId) := by
  unfold runComplete
  split
  · next hr =>
    rcases complete_ok hl hr with ⟨-, rfl, hu, -⟩ | ⟨-, t, r, posting, -, rfl, rfl, hm⟩
    · obtain ⟨rfl, hsnap⟩ := snapshot_of_find hu
      exact .read (completedResult_ok hs hsnap)
    · exact .write hm.change (completedResult_ok ((hm.change.evolves hl).serves hs) hm.snapshot)
  · exact .read trivial

/-- The winner of a failure answers with the status it stores. -/
theorem runFail_ok (hl : Lockstep db) {c : Choice} {id : Uuid} {error : HttpError}
    (hs : Serves config db origin id) :
    StatementOk config db origin (runFail c db id error) := by
  unfold runFail
  split
  · next hr =>
    rcases fail_ok hl hr with ⟨rfl, rfl, hu, -⟩ | ⟨rfl, t, r, rfl, rfl, hm⟩
    · obtain ⟨rfl, hsnap⟩ := snapshot_of_find hu
      exact .read (resultForTransfer_ok hs hsnap)
    · refine .write hm.change ⟨t.fail error c.date, (hm.change.evolves hl).serves hs, hm.snapshot,
        rfl, (fun hc => nomatch hc), fun _ => .inr ⟨_, hm.replaces.recordOf, ?_, rfl⟩⟩
      simp [IdempotencyRecord.fail]
  · exact .read trivial

theorem advance_ok (hl : Lockstep db) {now : Time} {c : Choice} {pc : Pc}
    (hpc : PcOk config db origin pc) :
    StatementOk config db origin (advance config now c db pc) := by
  cases pc with
  | claimLookup request => exact .read (runClaimLookup_ok hl hpc.checked)
  | claimInsert request => exact runClaimInsert_ok hl hpc.checked
  | claimRecover request => exact .read (runClaimRecover_ok hl hpc.checked)
  | claimQuoteLookup quoteId => exact .read runClaimQuoteLookup_ok
  | databaseNow t r => exact .read (handleExisting_ok hpc)
  | transition id => exact runTransition_ok hl (hpc.serves id rfl)
  | reconcileRead id force =>
    refine .read (withTransfer_ok fun t ht => ?_)
    obtain ⟨rfl, hsnap⟩ := snapshot_of_find ht
    exact reconcileFrom_ok (hpc.serves _ rfl) hsnap
  | reconcileReload id => exact .read (runReconcileReload_ok (hpc.serves id rfl))
  | byReference t force =>
    exact .read (afterByReference_ok (hpc.serves _ rfl) (hpc.snapshot t rfl) hpc.checked)
  | claimRetry t staleBefore => exact runClaimRetry_ok hl (hpc.serves _ rfl)
  | consume t quoteId =>
    obtain ⟨hp, hi, hq⟩ := hpc.checked
    exact .read (runConsume_ok (hpc.serves _ rfl) (hpc.snapshot t rfl) hp hi (by simp [hq]))
  | prepare t quote => exact runPrepare_ok hl (hpc.serves _ rfl) (hpc.snapshot t rfl)
  | processRead id =>
    refine .read (withTransfer_ok fun t ht => ?_)
    obtain ⟨rfl, hsnap⟩ := snapshot_of_find ht
    exact enterProcess_ok (hpc.serves _ rfl) hsnap
  | validate t =>
    exact .read (afterValidation_ok (hpc.serves _ rfl) (hpc.snapshot t rfl) hpc.checked)
  | post t sender recipient posting =>
    exact .read (runPost_ok (hpc.serves _ rfl) (hpc.snapshot t rfl) hpc.checked.1)
  | complete id ledgerTransactionId => exact runComplete_ok hl (hpc.serves _ rfl)
  | fail id error => exact runFail_ok hl (hpc.serves _ rfl)
  | reread id =>
    refine .read (withTransfer_ok fun t ht => ?_)
    obtain ⟨rfl, hsnap⟩ := snapshot_of_find ht
    exact resultForTransfer_ok (hpc.serves _ rfl) hsnap

/-- The invariant of the service: the tables in lockstep, every execution and every answer as it
should be, and an answer only from an execution that ended. -/
structure Invariant (config : Config) (s : State) : Prop where
  lockstep : Lockstep s.db
  running : ∀ e origin pc, s.executions e = some ⟨origin, some pc⟩ → PcOk config s.db origin pc
  ended : ∀ e outcome, (e, outcome) ∈ s.answers → ∃ origin, s.executions e = some ⟨origin, none⟩
  answered : ∀ e origin httpStatus body, (e, .result httpStatus body) ∈ s.answers →
    s.executions e = some ⟨origin, none⟩ → AnswerOk config s.db origin httpStatus body

section Step

variable {s s' : State} {e : ExecId} {pc : Pc}

theorem invariant_initial : Invariant config .initial :=
  ⟨lockstep_empty, by simp [State.initial], by simp [State.initial], by simp [State.initial]⟩

/-- An execution that goes on or answers, over rows that only progressed. -/
theorem Invariant.proceed (hi : Invariant config s) (db : Database) {next : Next}
    (hlock : Lockstep db) (hev : Evolves s.db db) (hnext : NextOk config db origin next)
    (hfree : ∀ origin', s.executions e ≠ some ⟨origin', none⟩) :
    Invariant config ((s.withDb db).proceed e origin next) := by
  have hne : ∀ i outcome, (i, outcome) ∈ s.answers → i ≠ e := by
    rintro i outcome h rfl
    obtain ⟨origin', ho⟩ := hi.ended i outcome h
    exact hfree origin' ho
  refine ⟨hlock, fun i origin' pc' h => ?_, fun i outcome h => ?_,
    fun i origin' httpStatus body h ho => ?_⟩
  · by_cases hie : i = e
    · subst hie
      rw [State.proceed_executions_self] at h
      cases next with
      | goto pc => cases h; exact hnext
      | answer outcome => cases h
    · rw [State.proceed_executions_of_ne hie] at h
      exact hev.pcOk (hi.running i origin' pc' h)
  · rcases State.mem_proceed_answers.mp h with ⟨rfl, rfl⟩ | h
    · exact ⟨origin, State.proceed_executions_self⟩
    · obtain ⟨origin', ho⟩ := hi.ended i outcome h
      exact ⟨origin', (State.proceed_executions_of_ne (hne i outcome h)).trans ho⟩
  · rcases State.mem_proceed_answers.mp h with ⟨rfl, rfl⟩ | h
    · rw [State.proceed_executions_self] at ho
      cases ho
      exact hnext
    · rw [State.proceed_executions_of_ne (hne i _ h)] at ho
      exact hev.answerOk (hi.answered i origin' httpStatus body h ho)

theorem Invariant.stop (hi : Invariant config s) (he : s.executions e = some ⟨origin, some pc⟩) :
    Invariant config (s.stop e origin) := by
  have hne : ∀ i outcome, (i, outcome) ∈ s.answers → i ≠ e := by
    rintro i outcome h rfl
    obtain ⟨origin', ho⟩ := hi.ended i outcome h
    rw [he] at ho
    cases ho
  refine ⟨hi.lockstep, fun i origin' pc' h => ?_, fun i outcome h => ?_,
    fun i origin' httpStatus body h ho => ?_⟩
  · by_cases hie : i = e
    · subst hie
      rw [State.stop_executions_self] at h
      cases h
    · rw [State.stop_executions_of_ne hie] at h
      exact hi.running i origin' pc' h
  · obtain ⟨origin', ho⟩ := hi.ended i outcome h
    exact ⟨origin', (State.stop_executions_of_ne (hne i outcome h)).trans ho⟩
  · rw [State.stop_executions_of_ne (hne i _ h)] at ho
    exact hi.answered i origin' httpStatus body h ho

theorem entry_ok (h : origin.entry = .ok pc) : PcOk config db origin pc := by
  cases origin with
  | create request =>
    simp only [Origin.entry] at h
    obtain ⟨-, -, h⟩ := bind_eq_ok h
    obtain ⟨-, -, h⟩ := bind_eq_ok h
    cases h
    exact goto_claim_ok rfl rfl rfl
  | reconcile transferId force =>
    cases h
    have hserves : Serves config db (.reconcile transferId force) transferId := rfl
    exact goto_id_ok hserves rfl rfl trivial

/-- The steps of the service: time passes, a request is taken or refused, an execution runs one
statement, an execution is stopped. -/
theorem step_cases {a : Action} (h : step config s a = some s') :
    (∃ elapsed, a = .tick elapsed ∧ s' = { s with now := s.now + elapsed }) ∨
      (∃ e origin next, a = .request e origin ∧ s.executions e = none ∧
        s' = s.proceed e origin next ∧ ((∃ pc, origin.entry = .ok pc ∧ next = .goto pc) ∨
          ∃ error, origin.entry = .error error ∧ next = .answer (.error error))) ∨
      (∃ e choice origin pc, a = .run e choice ∧ s.executions e = some ⟨origin, some pc⟩ ∧
        choice.startedAt ≤ s.now ∧
        s' = (s.withDb (advance config s.now choice s.db pc).1).proceed e origin
          (advance config s.now choice s.db pc).2) ∨
      (∃ e origin pc, a = .stop e ∧ s.executions e = some ⟨origin, some pc⟩ ∧
        s' = s.stop e origin) := by
  cases a with
  | tick elapsed => exact .inl ⟨elapsed, rfl, (Option.some.inj h).symm⟩
  | request e origin =>
    simp only [step] at h
    split at h
    · next pc he hentry =>
      exact .inr (.inl ⟨e, origin, _, rfl, he, (Option.some.inj h).symm, .inl ⟨pc, hentry, rfl⟩⟩)
    · next error he hentry =>
      exact .inr (.inl ⟨e, origin, _, rfl, he, (Option.some.inj h).symm, .inr ⟨error, hentry, rfl⟩⟩)
    · cases h
  | run e choice =>
    simp only [step] at h
    split at h
    · next origin pc he =>
      split at h
      · next hstarted =>
        exact .inr (.inr (.inl ⟨e, choice, origin, pc, rfl, he, hstarted,
          (Option.some.inj h).symm⟩))
      · cases h
    · cases h
  | stop e =>
    simp only [step] at h
    split at h
    · next origin pc he => exact .inr (.inr (.inr ⟨e, origin, pc, rfl, he, (Option.some.inj h).symm⟩))
    · cases h

/-- What one step does to the database. -/
theorem step_change {a : Action} (hi : Invariant config s) (h : step config s a = some s') :
    s'.db = s.db ∨ Change s.db s'.db := by
  rcases step_cases h with ⟨_, -, rfl⟩ | ⟨_, _, _, -, -, rfl, -⟩ |
    ⟨e, choice, origin, pc, -, he, -, rfl⟩ | ⟨_, _, _, -, -, rfl⟩
  · exact .inl rfl
  · exact .inl rfl
  · exact (advance_ok hi.lockstep (hi.running e origin pc he)).1
  · exact .inl rfl

theorem step_evolves {a : Action} (hi : Invariant config s) (h : step config s a = some s') :
    Evolves s.db s'.db := by
  rcases step_change hi h with heq | hc
  · rw [heq]
    exact .refl s.db
  · exact hc.evolves hi.lockstep

theorem Invariant.step {a : Action} (hi : Invariant config s) (h : step config s a = some s') :
    Invariant config s' := by
  have hev := step_evolves hi h
  have hchange := step_change hi h
  rcases step_cases h with ⟨_, -, rfl⟩ | ⟨e, origin, next, -, he, rfl, hnext⟩ |
    ⟨e, choice, origin, pc, -, he, -, rfl⟩ | ⟨e, origin, pc, -, he, rfl⟩
  · exact ⟨hi.lockstep, hi.running, hi.ended, hi.answered⟩
  · refine hi.proceed s.db hi.lockstep (.refl s.db) ?_ (by simp [he])
    rcases hnext with ⟨pc, hentry, rfl⟩ | ⟨error, -, rfl⟩
    · exact entry_ok hentry
    · trivial
  · have hok : StatementOk config s.db origin (advance config s.now choice s.db pc) :=
      advance_ok hi.lockstep (hi.running e origin pc he)
    refine hi.proceed _ ?_ hev hok.2 (by simp [he])
    rcases hok.1 with heq | hc
    · rw [heq]
      exact hi.lockstep
    · exact hc.lockstep hi.lockstep
  · exact hi.stop he

theorem invariant_of_reachable (h : (system config).Reachable s) : Invariant config s :=
  System.Reachable.invariant invariant_initial (fun _ _ _ _ hi hs => hi.step hs) h

theorem evolves_of_steps (h : (system config).Reachable s) (hs : (system config).Steps s s') :
    Evolves s.db s'.db :=
  System.Steps.lift (R := fun s s' => Evolves s.db s'.db) (fun s => .refl s.db)
    (fun s t _ (h : Evolves s.db t.db) k => h.trans k)
    (fun _ _ _ hr hs => step_evolves (invariant_of_reachable hr) hs)
    h hs

end Step

end NovaPay.Transaction
