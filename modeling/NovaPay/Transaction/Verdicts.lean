import NovaPay.Transaction.Provenance
import NovaPay.Transaction.Refusals

/-!
# What an answer says of a transfer

A create is answered with an error for one of four reasons, a result with an error status shows a
FAILED transfer, and a record is created only by the claim of a request with its key.
-/

namespace NovaPay.Transaction

open DecimalArithmetic Relational TransitionSystem

variable {config : Config} {db db' : Database} {now : Time} {c : Choice} {pc : Pc} {next : Next}
  {t : Transfer} {request : CreateRequest}

/-- The errors that a create is answered with after it was accepted. -/
inductive CreateError (config : Config) (db : Database) (request : CreateRequest) (pc : Pc) :
    HttpError → Prop
  | mismatch {t : Transfer} {r : IdempotencyRecord} :
      db.findByKey request.clientId request.key = some (t, r) →
      r.requestHash ≠ request.command.requestHash config.sha256 →
      CreateError config db request pc payloadMismatch
  | expired {t : Transfer} {r : IdempotencyRecord} : pc = .databaseNow t r →
      CreateError config db request pc keyExpired
  | quoteUsed {quoteId : Uuid} : pc = .claimQuoteLookup quoteId →
      CreateError config db request pc quoteAlreadyUsed
  | internal : CreateError config db request pc internalServerError

/-- What a statement of a create answers: an error for its reason, or a result whose error status
goes with a FAILED transfer. -/
def Next.Tells (config : Config) (db : Database) (request : CreateRequest) (pc : Pc) : Next → Prop
  | .goto _ => True
  | .answer (.error error) => CreateError config db request pc error
  | .answer (.result httpStatus body) => 400 ≤ httpStatus → body.status = .failed

theorem resultForTransfer_tells : (Next.answer (resultForTransfer t)).Tells config db request pc := by
  intro h
  change t.status = .failed
  by_contra hf
  simp only [hf, if_false] at h
  split at h <;> omega

theorem processingResult_tells : (Next.answer (processingResult t)).Tells config db request pc :=
  fun h => absurd h (by decide)

theorem internalServerError_tells :
    (Next.answer (.error internalServerError)).Tells config db request pc := .internal

theorem enterPrepareInternational_tells :
    (enterPrepareInternational t).Tells config db request pc := by
  unfold enterPrepareInternational
  repeat' split
  · trivial
  · exact resultForTransfer_tells
  · exact resultForTransfer_tells

theorem reconcileFrom_tells {force : Bool} : (reconcileFrom t force).Tells config db request pc := by
  unfold reconcileFrom
  repeat' split
  · trivial
  · exact resultForTransfer_tells
  · trivial

/-- A read of the transfer that a create works for finds it. -/
theorem withTransfer_tells (hl : Lockstep db) {id : Uuid} {k : Transfer → Next}
    (hs : Serves config db (.create request) id) (hk : ∀ t, (k t).Tells config db request pc) :
    (withTransfer db id k).Tells config db request pc := by
  unfold withTransfer
  split
  · exact hk _
  · next hnone =>
    obtain ⟨r, hr, -⟩ := hs
    rw [(hl.absent id hnone).1] at hr
    cases hr

theorem enterHandleExisting_tells {r : IdempotencyRecord}
    (h : db.findByKey request.clientId request.key = some (t, r)) :
    (enterHandleExisting config request t r).Tells config db request pc := by
  unfold enterHandleExisting
  split
  · next hne => exact .mismatch h hne
  · trivial

theorem handleExisting_tells {r : IdempotencyRecord}
    (hpc : PcOk config db (.create request) (.databaseNow t r)) :
    (handleExisting now t r).Tells config db request (.databaseNow t r) := by
  unfold handleExisting
  split
  · exact .expired rfl
  split
  · next status body hstatus hbody =>
    split
    · next hstate =>
      intro herror
      obtain ⟨q, -, -, hat⟩ := hpc.record t r rfl
      obtain ⟨u, -, hat⟩ := hat hstate.1
      have hne : u.status ≠ .completed := fun hc => by
        have h201 := hat.status_completed hc
        rw [hstatus] at h201
        cases h201
        omega
      have hclosed : ¬(u.status = .pending ∨ u.status = .processing) :=
        fun hopen => hstate.1 (hat.processing.mpr hopen)
      have hshown := hat.body
      rw [hbody, if_neg (by rwa [TransferStatus.open_iff])] at hshown
      rw [Option.some.inj hshown]
      change u.status = .failed
      have hreversed := hat.not_reversed
      cases hs : u.status <;> simp_all
    · trivial
  · trivial

theorem afterByReference_tells {force : Bool} :
    (afterByReference config c t force c.found).Tells config db request pc := by
  unfold afterByReference
  repeat' split
  · trivial
  · exact processingResult_tells
  · exact internalServerError_tells
  · exact processingResult_tells
  · trivial
  · trivial

theorem afterValidation_tells : (afterValidation c t c.account).Tells config db request pc := by
  unfold afterValidation handleAccountFailure
  repeat' split
  all_goals first | trivial | exact internalServerError_tells

theorem runConsume_tells : (runConsume c t).Tells config db request pc := by
  unfold runConsume handleFxFailure
  repeat' split
  all_goals first | trivial | exact internalServerError_tells | exact processingResult_tells

theorem runPost_tells : (runPost c t).Tells config db request pc := by
  unfold runPost handleLedgerFailure
  repeat' split
  all_goals first | trivial | exact processingResult_tells

theorem runComplete_tells {id : Uuid} {ledgerTransactionId : Option Uuid} :
    (runComplete c db id ledgerTransactionId).2.Tells config db request pc := by
  unfold runComplete
  split
  · next u _ _ =>
    change (Next.answer (completedResult u)).Tells config db request pc
    unfold completedResult
    split
    · exact fun h => absurd h (by decide)
    · exact resultForTransfer_tells
  · exact internalServerError_tells

theorem runFail_tells (hl : Lockstep db) {id : Uuid} {error : HttpError} :
    (runFail c db id error).2.Tells config db request pc := by
  unfold runFail
  split
  · next hfail =>
    rcases fail_ok hl hfail with ⟨rfl, -, -, -⟩ | ⟨rfl, v, r, -, rfl, -⟩
    · exact resultForTransfer_tells
    · exact fun _ => rfl
  · exact internalServerError_tells

theorem advance_tells (hl : Lockstep db) (hpc : PcOk config db (.create request) pc) :
    (advance config now c db pc).2.Tells config db request pc := by
  cases pc with
  | claimLookup request' =>
    cases hpc.checked
    change (runClaimLookup config db request).Tells config db request _
    unfold runClaimLookup
    split
    · next hfind => exact enterHandleExisting_tells hfind
    · trivial
  | claimInsert request' =>
    change (runClaimInsert config c db request').2.Tells config db request _
    unfold runClaimInsert
    split
    · unfold afterClaim
      split
      · trivial
      · exact enterPrepareInternational_tells
    · trivial
    · exact internalServerError_tells
  | claimRecover request' =>
    cases hpc.checked
    change (runClaimRecover config db request).Tells config db request _
    unfold runClaimRecover
    split
    · next hfind => exact enterHandleExisting_tells hfind
    · split
      · trivial
      · exact internalServerError_tells
  | claimQuoteLookup quoteId =>
    change (runClaimQuoteLookup db quoteId).Tells config db request _
    unfold runClaimQuoteLookup
    split
    · exact .quoteUsed rfl
    · exact internalServerError_tells
  | databaseNow t r => exact handleExisting_tells hpc
  | transition id =>
    change (runTransition c db id).2.Tells config db request _
    unfold runTransition
    split
    · trivial
    · exact internalServerError_tells
  | reconcileRead id force =>
    exact withTransfer_tells hl (hpc.serves id rfl) fun _ => reconcileFrom_tells
  | reconcileReload id =>
    change (runReconcileReload db id).Tells config db request _
    unfold runReconcileReload
    split
    · exact enterPrepareInternational_tells
    · exact internalServerError_tells
  | byReference t force => exact afterByReference_tells
  | claimRetry t staleBefore =>
    change (runClaimRetry c db t staleBefore).2.Tells config db request _
    unfold runClaimRetry
    split
    · trivial
    · trivial
    · exact internalServerError_tells
  | consume t quoteId => exact runConsume_tells
  | prepare t quote =>
    change (runPrepare c db t quote).2.Tells config db request _
    unfold runPrepare
    split
    · trivial
    · trivial
    · exact internalServerError_tells
  | processRead id =>
    refine withTransfer_tells hl (hpc.serves id rfl) fun t => ?_
    unfold enterProcess
    split
    · exact resultForTransfer_tells
    · trivial
  | validate t => exact afterValidation_tells
  | post t sender recipient command => exact runPost_tells
  | complete id ledgerTransactionId => exact runComplete_tells
  | fail id error => exact runFail_tells hl
  | reread id => exact withTransfer_tells hl (hpc.serves id rfl) fun _ => resultForTransfer_tells

section Step

variable {s s' : State} {a : Action} {e : ExecId} {origin : Origin}

/-- The record that a claim creates, with the transfer. -/
theorem insertClaim_record (hl : Lockstep db) (h : insertClaim config request c db = .ok (db', t)) :
    db'.findTransfer t.id = some t ∧ (∀ id, id ≠ t.id → db'.recordOf id = db.recordOf id) ∧
      ∃ r, db'.recordOf t.id = some r ∧ r.clientId = request.clientId ∧ r.key = request.key ∧
        r.requestHash = request.command.requestHash config.sha256 := by
  unfold insertClaim at h
  split at h
  · next command heq =>
    obtain ⟨amount, -, -, hc⟩ := claim_ok hl h
    exact ⟨hc.replaces.findTransfer, fun id hid => by rw [hc.replaces.record, if_neg hid],
      _, hc.replaces.recordOf, rfl, rfl, by rw [heq]; rfl⟩
  · next command heq =>
    obtain ⟨amount, -, -, hc⟩ := claimInternational_ok hl h
    exact ⟨hc.replaces.findTransfer, fun id hid => by rw [hc.replaces.record, if_neg hid],
      _, hc.replaces.recordOf, rfl, rfl, by rw [heq]; rfl⟩

/-- A record was there before, or a claim of the step created it. -/
theorem records_of_step (hi : Invariant config s) (h : step config s a = some s') {id : Uuid}
    {r : IdempotencyRecord} (hr : s'.db.recordOf id = some r) :
    (∃ q, s.db.recordOf id = some q ∧ SameRecord q r) ∨
      ∃ e choice request t, a = .run e choice ∧
        s.executions e = some ⟨.create request, some (.claimInsert request)⟩ ∧
        insertClaim config request choice s.db = .ok (s'.db, t) ∧ t.id = id := by
  have hi' := hi.step h
  cases hold : s.db.recordOf id with
  | some q =>
    obtain ⟨r', hr', hp⟩ := (step_evolves hi h).record id q hold
    cases hr.symm.trans hr'
    exact .inl ⟨q, rfl, hp.same⟩
  | none =>
    right
    obtain ⟨t, ht⟩ : ∃ t, s'.db.findTransfer id = some t := by
      by_contra hnone
      push Not at hnone
      have habsent := hi'.lockstep.absent id (Option.eq_none_iff_forall_ne_some.mpr hnone)
      rw [habsent.1] at hr
      cases hr
    have hfresh : s.db.findTransfer id = none := by
      by_contra hsome
      obtain ⟨u, hu⟩ := Option.ne_none_iff_exists'.mp hsome
      obtain ⟨-, q, hq, -⟩ := hi.lockstep.agree id u hu
      rw [hold] at hq
      cases hq
    obtain hsame | ⟨e, choice, origin, pc, rfl, he, hw⟩ := rows_of_step hi h ht
    · rw [hfresh] at hsame
      cases hsame
    · have hid := (Database.findTransfer_eq_some_iff.mp ht).2
      obtain ⟨request, rfl, hclaims⟩ | ⟨u, hu, -⟩ := hw.old
      · have hpc := (hi.running e origin _ he).checked
        subst hpc
        have hdb : s'.db = (runClaimInsert config choice s.db request).1 := by
          simp only [step, he] at h
          split at h
          · cases h
            rfl
          · cases h
        rw [hdb] at ht ⊢
        unfold runClaimInsert at ht ⊢
        split at ht
        · next db' t' hinsert =>
          obtain ⟨hfind, -⟩ := insertClaim_record hi.lockstep hinsert
          obtain ⟨hclaims', -⟩ := insertClaim_claims hi.lockstep hinsert
          exact ⟨e, choice, request, t', rfl, he, hinsert,
            hclaims'.id.trans (hclaims.id.symm.trans hid)⟩
        · rw [hfresh] at ht
          cases ht
        · rw [hfresh] at ht
          cases ht
      · rw [hid, hfresh] at hu
        cases hu

/-- Every execution has the origin that it was requested with. -/
theorem origin_of_step {pc : Option Pc} (h : step config s a = some s')
    (he : s'.executions e = some ⟨origin, pc⟩) :
    (∃ pc', s.executions e = some ⟨origin, pc'⟩) ∨ a = .request e origin := by
  rcases step_cases h with ⟨_, -, rfl⟩ | ⟨i, origin', next, rfl, -, rfl, -⟩ |
    ⟨i, choice, origin', pc', rfl, hrun, -, rfl⟩ | ⟨i, origin', pc', rfl, hrun, rfl⟩
  · exact .inl ⟨pc, he⟩
  all_goals by_cases hie : e = i
  · subst hie
    rw [State.proceed_executions_self] at he
    obtain ⟨rfl, -⟩ := Execution.mk.inj (Option.some.inj he)
    exact .inr rfl
  · rw [State.proceed_executions_of_ne hie] at he
    exact .inl ⟨pc, he⟩
  · subst hie
    rw [State.proceed_executions_self] at he
    obtain ⟨rfl, -⟩ := Execution.mk.inj (Option.some.inj he)
    exact .inl ⟨_, hrun⟩
  · rw [State.proceed_executions_of_ne hie] at he
    exact .inl ⟨pc, he⟩
  · subst hie
    rw [State.stop_executions_self] at he
    obtain ⟨rfl, -⟩ := Execution.mk.inj (Option.some.inj he)
    exact .inl ⟨_, hrun⟩
  · rw [State.stop_executions_of_ne hie] at he
    exact .inl ⟨pc, he⟩

/-- Why a create was answered with an error. -/
inductive Reason (config : Config) (db : Database) (request : CreateRequest) : HttpError → Prop
  | refused {error : HttpError} : (Origin.create request).entry = .error error →
      Reason config db request error
  | mismatch {r : IdempotencyRecord} : r ∈ db.records.rows → r.clientId = request.clientId →
      r.key = request.key → r.requestHash ≠ request.command.requestHash config.sha256 →
      Reason config db request payloadMismatch
  | expired {r : IdempotencyRecord} : r ∈ db.records.rows → r.clientId = request.clientId →
      r.key = request.key → Reason config db request keyExpired
  | quoteUsed : request.command.quoteId?.isSome = true → Reason config db request quoteAlreadyUsed
  | internal : Reason config db request internalServerError

/-- What an answer to a create stands for. -/
def Outcome.Tells (config : Config) (db : Database) (request : CreateRequest) : Outcome → Prop
  | .error e => Reason config db request e
  | .result httpStatus body => 400 ≤ httpStatus → body.status = .failed

theorem Evolves.tells (h : Evolves db db') {outcome : Outcome} (hs : outcome.Tells config db request) :
    outcome.Tells config db' request := by
  have hrecord : ∀ r ∈ db.records.rows, ∃ q ∈ db'.records.rows, SameRecord r q := by
    intro r hr
    obtain ⟨q, hq, hp⟩ := h.record r.transferId r (Database.recordOf_eq_some_iff.mpr ⟨hr, rfl⟩)
    exact ⟨q, (Database.recordOf_eq_some_iff.mp hq).1, hp.same⟩
  cases outcome with
  | result httpStatus body => exact hs
  | error error =>
    cases hs with
    | refused hentry => exact .refused hentry
    | mismatch hr hclient hkey hne =>
      obtain ⟨q, hq, hsame⟩ := hrecord _ hr
      exact .mismatch hq (hsame.clientId.symm.trans hclient) (hsame.key.symm.trans hkey)
        (hsame.requestHash ▸ hne)
    | expired hr hclient hkey =>
      obtain ⟨q, hq, hsame⟩ := hrecord _ hr
      exact .expired hq (hsame.clientId.symm.trans hclient) (hsame.key.symm.trans hkey)
    | quoteUsed hquote => exact .quoteUsed hquote
    | internal => exact .internal

/-- What the executions of creates and their answers stand for. -/
structure Spoken (config : Config) (s : State) : Prop where
  accepted : ∀ e origin pc, s.executions e = some ⟨origin, some pc⟩ → ∃ first, origin.entry = .ok first
  quote : ∀ e request quoteId,
    s.executions e = some ⟨.create request, some (.claimQuoteLookup quoteId)⟩ →
    request.command.quoteId? = some quoteId
  tells : ∀ e request outcome, (e, outcome) ∈ s.answers →
    s.executions e = some ⟨.create request, none⟩ → outcome.Tells config s.db request

theorem spoken_initial : Spoken config .initial :=
  ⟨by simp [State.initial], by simp [State.initial], by simp [State.initial]⟩

theorem Spoken.step (hi : Invariant config s) (hs : Spoken config s) (h : step config s a = some s') :
    Spoken config s' := by
  refine ⟨fun e origin pc he => ?_, fun e request quoteId he => ?_, fun e request outcome ho he => ?_⟩
  · obtain hold | hentry | ⟨choice, pc', -, hold, -⟩ := executions_of_step h he
    · exact hs.accepted e origin pc hold
    · exact ⟨pc, hentry⟩
    · exact hs.accepted e origin pc' hold
  · obtain hold | hentry | ⟨choice, pc', -, hold, hgoto⟩ := executions_of_step h he
    · exact hs.quote e request quoteId hold
    · obtain ⟨_, hfirst⟩ | ⟨_, _, hfirst⟩ := entry_eq_ok hentry
      all_goals cases hfirst
    · have hrefused : (advance config s.now choice s.db pc').2.Refused choice s.db pc' := advance_refused
      rw [hgoto] at hrefused
      obtain ⟨request', rfl, hquote⟩ := hrefused
      cases (hi.running e _ _ hold).checked
      exact hquote
  · have hev := step_evolves hi h
    obtain ⟨hold, hanswer⟩ | ⟨error, hentry, rfl⟩ | ⟨choice, pc, -, hrun, hnext⟩ :=
      answers_of_step hi h he ho
    · exact hev.tells (hs.tells e request outcome hanswer hold)
    · exact .refused hentry
    · refine hev.tells ?_
      have hpc := hi.running e _ pc hrun
      have htells : (advance config s.now choice s.db pc).2.Tells config s.db request pc :=
        advance_tells hi.lockstep hpc
      rw [hnext] at htells
      cases outcome with
      | result httpStatus body => exact htells
      | error error =>
        cases htells with
        | mismatch hfind hne =>
          obtain ⟨hr, hclient, hkey, -, -⟩ := Database.findByKey_eq_some hfind
          exact .mismatch hr hclient hkey hne
        | @expired t r heq =>
          subst heq
          obtain ⟨q, hq, hclient, hkey, -⟩ := hpc.serves t.id rfl
          exact .expired (Database.recordOf_eq_some_iff.mp hq).1 hclient hkey
        | @quoteUsed quoteId heq =>
          subst heq
          exact .quoteUsed (by rw [hs.quote e request quoteId hrun]; rfl)
        | internal => exact .internal

end Step

end NovaPay.Transaction
