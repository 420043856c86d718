import NovaPay.Transaction.Invariant

/-!
# Where the steps of an execution come from

A completion names the posting that the Ledger answered with, a preparation the quote that FX
answered with, and both end up in the transfer's row. What those answers stand for is a parameter:
`posted` for a posting of a transfer, `quoted` for a quote consumed by a command.
-/

namespace NovaPay.Transaction

open DecimalArithmetic Relational TransitionSystem

variable {config : Config} {db db' : Database} {now : Time} {c : Choice} {pc : Pc} {next : Next}
  {origin : Origin} {t u : Transfer}

/-- The statements before a validation, a posting, a preparation and a completion. -/
def Pc.Follows (c : Choice) (db : Database) (pc : Pc) : Pc → Prop
  | .validate t =>
    pc = .processRead t.id ∧ db.findTransfer t.id = some t ∧ t.status = .processing
  | .post t _ _ _ => pc = .validate t
  | .prepare t quote => ∃ quoteId, pc = .consume t quoteId ∧ c.quote = .ok (some quote)
  | .complete id (some x) => ∃ t posting, t.id = id ∧ posting.id = x ∧
      ((∃ force, pc = .byReference t force ∧ c.found = .ok (some posting)) ∨
        ∃ sender recipient command, pc = .post t sender recipient command ∧
          c.posting = .ok (some posting))
  | _ => True

def Next.Follows (c : Choice) (db : Database) (pc : Pc) : Next → Prop
  | .goto pc' => Pc.Follows c db pc pc'
  | .answer _ => True

theorem enterPrepareInternational_follows :
    (enterPrepareInternational t).Follows c db pc := by
  unfold enterPrepareInternational
  repeat' split
  all_goals trivial

theorem reconcileFrom_follows {force : Bool} : (reconcileFrom t force).Follows c db pc := by
  unfold reconcileFrom
  repeat' split
  all_goals trivial

theorem enterHandleExisting_follows {request : CreateRequest} {r : IdempotencyRecord} :
    (enterHandleExisting config request t r).Follows c db pc := by
  unfold enterHandleExisting
  split <;> trivial

theorem runClaimInsert_follows {request : CreateRequest} :
    (runClaimInsert config c db request).2.Follows c db pc := by
  unfold runClaimInsert
  split
  · unfold afterClaim
    split
    · trivial
    · exact enterPrepareInternational_follows
  · trivial
  · trivial

theorem handleExisting_follows {r : IdempotencyRecord} :
    (handleExisting now t r).Follows c db pc := by
  unfold handleExisting
  repeat' split
  all_goals trivial

theorem afterByReference_follows {force : Bool} :
    (afterByReference config c t force c.found).Follows c db (.byReference t force) := by
  unfold afterByReference
  split
  · next posting hfound =>
    cases posting with
    | none => trivial
    | some posting => exact ⟨t, posting, rfl, rfl, .inl ⟨force, rfl, hfound⟩⟩
  · trivial
  · repeat' split
    all_goals trivial

theorem runConsume_follows {quoteId : Uuid} :
    (runConsume c t).Follows c db (.consume t quoteId) := by
  unfold runConsume
  split
  · next hquote => exact ⟨quoteId, rfl, hquote⟩
  · trivial
  · unfold handleFxFailure
    repeat' split
    all_goals trivial

theorem afterValidation_follows :
    (afterValidation c t c.account).Follows c db (.validate t) := by
  unfold afterValidation
  split
  · unfold handleAccountFailure
    repeat' split
    all_goals trivial
  · split
    · trivial
    · split
      · exact rfl
      · trivial

theorem runPost_follows {sender recipient : WalletValidation} {command : PostingCommand} :
    (runPost c t).Follows c db (.post t sender recipient command) := by
  unfold runPost
  split
  · next posting hposting =>
    cases posting with
    | none => trivial
    | some posting => exact ⟨t, posting, rfl, rfl, .inr ⟨sender, recipient, command, rfl, hposting⟩⟩
  · unfold handleLedgerFailure
    repeat' split
    all_goals trivial

theorem enterProcess_follows {id : Uuid} :
    (withTransfer db id enterProcess).Follows c db (.processRead id) := by
  unfold withTransfer
  split
  · next t ht =>
    unfold enterProcess
    split
    · trivial
    · next hs =>
      have hid := (Database.findTransfer_eq_some_iff.mp ht).2
      exact ⟨hid ▸ rfl, hid ▸ ht, not_not.mp hs⟩
  · trivial

theorem advance_follows : (advance config now c db pc).2.Follows c db pc := by
  cases pc with
  | claimLookup request =>
    change (runClaimLookup config db request).Follows c db _
    unfold runClaimLookup
    split
    · exact enterHandleExisting_follows
    · trivial
  | claimInsert request => exact runClaimInsert_follows
  | claimRecover request =>
    change (runClaimRecover config db request).Follows c db _
    unfold runClaimRecover
    split
    · exact enterHandleExisting_follows
    · split <;> trivial
  | claimQuoteLookup quoteId =>
    change (runClaimQuoteLookup db quoteId).Follows c db _
    unfold runClaimQuoteLookup
    split <;> trivial
  | databaseNow t r => exact handleExisting_follows
  | transition id =>
    change (runTransition c db id).2.Follows c db _
    unfold runTransition
    split <;> trivial
  | reconcileRead id force =>
    change (withTransfer db id fun t => reconcileFrom t force).Follows c db _
    unfold withTransfer
    split
    · exact reconcileFrom_follows
    · trivial
  | reconcileReload id =>
    change (runReconcileReload db id).Follows c db _
    unfold runReconcileReload
    split
    · exact enterPrepareInternational_follows
    · trivial
  | byReference t force => exact afterByReference_follows
  | claimRetry t staleBefore =>
    change (runClaimRetry c db t staleBefore).2.Follows c db _
    unfold runClaimRetry
    split <;> trivial
  | consume t quoteId => exact runConsume_follows
  | prepare t quote =>
    change (runPrepare c db t quote).2.Follows c db _
    unfold runPrepare
    split <;> trivial
  | processRead id => exact enterProcess_follows
  | validate t => exact afterValidation_follows
  | post t sender recipient command => exact runPost_follows
  | complete id ledgerTransactionId =>
    change (runComplete c db id ledgerTransactionId).2.Follows c db _
    unfold runComplete
    split <;> trivial
  | fail id error =>
    change (runFail c db id error).2.Follows c db _
    unfold runFail
    split <;> trivial
  | reread id =>
    change (withTransfer db id fun t => .answer (resultForTransfer t)).Follows c db _
    unfold withTransfer
    split <;> trivial

def Command.quoteId? : Command → Option Uuid
  | .domestic _ => none
  | .international command => some command.quoteId.value

/-- The row a request claims. -/
structure Claims (c : Choice) (request : CreateRequest) (t : Transfer) : Prop where
  id : t.id = c.ids.transferId
  clientId : t.clientId = request.clientId
  fxQuoteId : t.fxQuoteId = request.command.quoteId?
  pending : t.status = .pending
  terms : TermsAgree t

/-- The row that a statement leaves of the transfer it writes. -/
inductive Written (c : Choice) (db : Database) (pc : Pc) : Transfer → Prop
  | created {t : Transfer} {request : CreateRequest} : pc = .claimInsert request →
      Claims c request t → Written c db pc t
  | started {t : Transfer} : db.findTransfer t.id = some t → Written c db pc (t.start c.date)
  | retried {t : Transfer} : db.findTransfer t.id = some t → Written c db pc (t.retry c.date)
  | prepared {t u : Transfer} {quote : QuoteResponse} {targetAmount : Money} {lockedFxRate : Rate} :
      pc = .prepare u quote → db.findTransfer t.id = some t → t.id = u.id →
      Numeric.ofRat? quote.targetAmount.value = some targetAmount →
      Numeric.ofRat? quote.rate.value = some lockedFxRate →
      Written c db pc (t.prepare targetAmount lockedFxRate c.date)
  | completed {t : Transfer} {x : Uuid} : pc = .complete t.id (some x) →
      db.findTransfer t.id = some t → Written c db pc (t.complete (some x) c.startedAt c.date)
  | failed {t : Transfer} {error : HttpError} : pc = .fail t.id error →
      db.findTransfer t.id = some t → t.status.open = true → Written c db pc (t.fail error c.date)

/-- Only the rows that a statement writes are not as they were. -/
def RowsWritten (c : Choice) (db : Database) (pc : Pc) (db' : Database) : Prop :=
  ∀ id u, db'.findTransfer id = some u → db.findTransfer id = some u ∨ Written c db pc u

/-- A row that no claim wrote replaces an earlier one of its transfer. -/
theorem Written.old (hw : Written c db pc u) : (∃ request, pc = .claimInsert request ∧
    Claims c request u) ∨ ∃ t, db.findTransfer u.id = some t ∧ SameTransfer t u := by
  cases hw with
  | @created _ request hpc hclaims => exact .inl ⟨request, hpc, hclaims⟩
  | started ht | retried ht | prepared _ ht | completed _ ht | failed _ ht =>
    exact .inr ⟨_, ht, ⟨rfl, rfl, rfl, rfl, rfl, rfl, rfl, rfl, rfl, rfl⟩⟩

theorem rowsWritten_refl : RowsWritten c db pc db := fun _ _ h => .inl h

theorem Replaces.rowsWritten {r : IdempotencyRecord} (h : Replaces db db' t r)
    (hw : Written c db pc t) : RowsWritten c db pc db' := by
  intro id u hu
  rw [h.transfer] at hu
  split at hu
  · cases hu
    exact .inr hw
  · exact .inl hu

theorem insertClaim_claims (hl : Lockstep db) {request : CreateRequest}
    (h : insertClaim config request c db = .ok (db', t)) :
    Claims c request t ∧ ∃ r, Created db db' t r := by
  unfold insertClaim at h
  split at h
  · next command heq =>
    obtain ⟨amount, -, rfl, hc⟩ := claim_ok hl h
    exact ⟨⟨rfl, rfl, by rw [heq]; rfl, rfl, hc.terms⟩, _, hc⟩
  · next command heq =>
    obtain ⟨amount, -, rfl, hc⟩ := claimInternational_ok hl h
    exact ⟨⟨rfl, rfl, by rw [heq]; rfl, rfl, hc.terms⟩, _, hc⟩

theorem runClaimInsert_written (hl : Lockstep db) {request : CreateRequest} :
    RowsWritten c db (.claimInsert request) (runClaimInsert config c db request).1 := by
  unfold runClaimInsert
  split
  · next hinsert =>
    obtain ⟨hclaims, r, hcreated⟩ := insertClaim_claims hl hinsert
    exact hcreated.replaces.rowsWritten (.created rfl hclaims)
  · exact rowsWritten_refl
  · exact rowsWritten_refl

theorem runTransition_written (hl : Lockstep db) {id : Uuid} :
    RowsWritten c db pc (runTransition c db id).1 := by
  unfold runTransition
  split
  · next htr =>
    rcases transition_ok hl htr with ⟨rfl, -⟩ | ⟨t, r, -, hm⟩
    · exact rowsWritten_refl
    · exact hm.replaces.rowsWritten (.started hm.found)
  · exact rowsWritten_refl

theorem runClaimRetry_written (hl : Lockstep db) {staleBefore : Option ℤ} :
    RowsWritten c db pc (runClaimRetry c db t staleBefore).1 := by
  have hwritten : ∀ db' claimed, claimProcessingRetry db t staleBefore c.date = .ok (db', claimed) →
      RowsWritten c db pc db' := by
    intro db' claimed hr
    rcases claimProcessingRetry_ok hl hr with ⟨-, rfl⟩ | ⟨-, v, r, -, -, hm⟩
    · exact rowsWritten_refl
    · exact hm.replaces.rowsWritten (.retried hm.found)
  unfold runClaimRetry
  split
  · next hr => exact hwritten _ _ hr
  · next hr => exact hwritten _ _ hr
  · exact rowsWritten_refl

theorem runPrepare_written (hl : Lockstep db) {quote : QuoteResponse}
    (hsame : ∀ v, db.findTransfer t.id = some v → SameTransfer t v) :
    RowsWritten c db (.prepare t quote) (runPrepare c db t quote).1 := by
  have hwritten : ∀ db' prepared, prepareInternational db t quote c.ids.senderRowId
      c.ids.recipientRowId c.date = .ok (db', prepared) →
      RowsWritten c db (.prepare t quote) db' := by
    intro db' prepared hr
    rcases prepareInternational_ok hl hsame hr with
      ⟨-, rfl⟩ | ⟨-, v, r, targetAmount, lockedFxRate, hid, -, htarget, hrate, hm⟩
    · exact rowsWritten_refl
    · exact hm.replaces.rowsWritten (.prepared rfl hm.found hid htarget hrate)
  unfold runPrepare
  split
  · next hr => exact hwritten _ _ hr
  · next hr => exact hwritten _ _ hr
  · exact rowsWritten_refl

theorem runComplete_written (hl : Lockstep db) {id : Uuid} {ledgerTransactionId : Option Uuid} :
    RowsWritten c db (.complete id ledgerTransactionId)
      (runComplete c db id ledgerTransactionId).1 := by
  unfold runComplete
  split
  · next hr =>
    rcases complete_ok hl hr with ⟨-, rfl, -, -⟩ | ⟨-, t, r, x, rfl, rfl, rfl, hm⟩
    · exact rowsWritten_refl
    · exact hm.replaces.rowsWritten (.completed rfl hm.found)
  · exact rowsWritten_refl

theorem runFail_written (hl : Lockstep db) {id : Uuid} {error : HttpError} :
    RowsWritten c db (.fail id error) (runFail c db id error).1 := by
  unfold runFail
  split
  · next hr =>
    rcases fail_ok hl hr with ⟨-, rfl, -, -⟩ | ⟨-, t, r, rfl, rfl, hm⟩
    · exact rowsWritten_refl
    · exact hm.replaces.rowsWritten (.failed rfl hm.found hm.move.open_before)
  · exact rowsWritten_refl

theorem advance_written (hl : Lockstep db) (hpc : PcOk config db origin pc) :
    RowsWritten c db pc (advance config now c db pc).1 := by
  cases pc with
  | claimInsert request => exact runClaimInsert_written hl
  | transition id => exact runTransition_written hl
  | claimRetry t staleBefore => exact runClaimRetry_written hl
  | prepare t quote =>
    obtain ⟨u, hu, hprog⟩ := hpc.snapshot t rfl
    exact runPrepare_written hl fun v hv => Option.some.inj (hu.symm.trans hv) ▸ hprog.same
  | complete id ledgerTransactionId => exact runComplete_written hl
  | fail id error => exact runFail_written hl
  | _ => exact rowsWritten_refl

/-- What the answers of the other services stand for: the posting of a transfer, and the quote that
was consumed by a command. -/
structure Upstream where
  posted : Uuid → Uuid → Prop
  quoted : Uuid → ConsumeQuote → QuoteResponse → Prop

variable {up up' : Upstream}

/-- The answers that a statement takes are true. -/
def Choice.Truthful (up : Upstream) (c : Choice) : Pc → Prop
  | .byReference t _ => ∀ posting, c.found = .ok (some posting) → up.posted t.id posting.id
  | .post t _ _ _ => ∀ posting, c.posting = .ok (some posting) → up.posted t.id posting.id
  | .consume t quoteId => ∀ quote, c.quote = .ok (some quote) →
      up.quoted quoteId (consumeCommand t) quote
  | _ => True

/-- A statement that completes or prepares a transfer was answered so. -/
def Pc.Backed (up : Upstream) : Pc → Prop
  | .complete id (some x) => up.posted id x
  | .prepare t quote => ∃ quoteId, t.fxQuoteId = some quoteId ∧
      up.quoted quoteId (consumeCommand t) quote
  | _ => True

/-- A completed transfer has the posting it names, and a prepared one the terms of its quote. -/
structure RowBacked (up : Upstream) (t : Transfer) : Prop where
  completed : t.status = .completed → ∃ x, t.ledgerTransactionId = some x ∧ up.posted t.id x
  prepared : t.type = .international → t.targetAmount ≠ none →
    ∃ quoteId quote targetAmount lockedFxRate, t.fxQuoteId = some quoteId ∧
      up.quoted quoteId (consumeCommand t) quote ∧
      t.targetAmount = some targetAmount ∧
      Numeric.ofRat? quote.targetAmount.value = some targetAmount ∧
      t.lockedFxRate = some lockedFxRate ∧
      Numeric.ofRat? quote.rate.value = some lockedFxRate

/-- The upstream facts that the executions and the transfers rest on. -/
structure Backed (up : Upstream) (s : State) : Prop where
  running : ∀ e origin pc, s.executions e = some ⟨origin, some pc⟩ → pc.Backed up
  rows : ∀ id t, s.db.findTransfer id = some t → RowBacked up t

/-- What is true of the other services stays true. -/
structure Upstream.Stays (up up' : Upstream) : Prop where
  posted : ∀ id x, up.posted id x → up'.posted id x
  quoted : ∀ quoteId command quote, up.quoted quoteId command quote →
    up'.quoted quoteId command quote

theorem Backed.mono {s : State} (hu : up.Stays up') (h : Backed up s) : Backed up' s := by
  refine ⟨fun e origin pc he => ?_, fun id t ht => ⟨fun hs => ?_, fun hi ha => ?_⟩⟩
  · have hpc := h.running e origin pc he
    unfold Pc.Backed at hpc ⊢
    split at hpc
    · exact hu.posted _ _ hpc
    · obtain ⟨quoteId, hq, hquoted⟩ := hpc
      exact ⟨quoteId, hq, hu.quoted _ _ _ hquoted⟩
    · trivial
  · obtain ⟨x, hx, hposted⟩ := (h.rows id t ht).completed hs
    exact ⟨x, hx, hu.posted _ _ hposted⟩
  · obtain ⟨quoteId, quote, targetAmount, lockedFxRate, hq, hquoted, hterms⟩ :=
      (h.rows id t ht).prepared hi ha
    exact ⟨quoteId, quote, targetAmount, lockedFxRate, hq, hu.quoted _ _ _ hquoted, hterms⟩

theorem consumeCommand_same (h : SameTransfer t u) : consumeCommand t = consumeCommand u := by
  simp [consumeCommand, h.id, h.clientId, h.sourceCurrency, h.targetCurrency, h.sourceAmount]

theorem Written.backed (hw : Written c db pc u) (hpc : PcOk config db origin pc)
    (hb : pc.Backed up) (hrows : ∀ id t, db.findTransfer id = some t → RowBacked up t) :
    RowBacked up u := by
  cases hw with
  | created _ hclaims =>
    exact ⟨fun h => by simp [hclaims.pending] at h,
      fun hi ha => absurd (hclaims.terms.unprepared hi hclaims.pending) ha⟩
  | started ht => exact ⟨(fun h => by cases h), (hrows _ _ ht).prepared⟩
  | retried ht => exact ⟨(hrows _ _ ht).completed, (hrows _ _ ht).prepared⟩
  | @prepared t v quote targetAmount lockedFxRate hpc' ht hid htarget hrate =>
    subst hpc'
    refine ⟨(fun h => by cases h), fun _ _ => ?_⟩
    obtain ⟨w, hw, hprog⟩ := hpc.snapshot v rfl
    obtain rfl : t = w := Option.some.inj (ht.symm.trans (hid ▸ hw))
    obtain ⟨quoteId, hq, hquoted⟩ := hb
    rw [consumeCommand_same hprog.same] at hquoted
    exact ⟨quoteId, quote, targetAmount, lockedFxRate, hprog.same.fxQuoteId ▸ hq, hquoted, rfl,
      htarget, rfl, hrate⟩
  | @completed t x hpc' ht =>
    subst hpc'
    exact ⟨fun _ => ⟨x, rfl, hb⟩, (hrows _ _ ht).prepared⟩
  | failed _ ht => exact ⟨(fun h => by cases h), (hrows _ _ ht).prepared⟩

theorem Pc.Follows.backed {pc' : Pc} (hf : Pc.Follows c db pc pc') (hpc : PcOk config db origin pc)
    (ht : c.Truthful up pc) : pc'.Backed up := by
  cases pc' with
  | complete id ledgerTransactionId =>
    cases ledgerTransactionId with
    | none => trivial
    | some x =>
      obtain ⟨t, posting, rfl, rfl, ⟨force, rfl, hfound⟩ | ⟨_, _, _, rfl, hposting⟩⟩ := hf
      · exact ht posting hfound
      · exact ht posting hposting
  | prepare t quote =>
    obtain ⟨quoteId, rfl, hquote⟩ := hf
    exact ⟨quoteId, hpc.checked.2.2, ht quote hquote⟩
  | _ => trivial

section Step

variable {s s' : State} {e : ExecId} {a : Action}

theorem entry_eq_ok (h : origin.entry = .ok pc) :
    (∃ request, pc = .claimLookup request) ∨ ∃ id force, pc = .reconcileRead id force := by
  cases origin with
  | create request =>
    simp only [Origin.entry] at h
    obtain ⟨-, -, h⟩ := bind_eq_ok h
    obtain ⟨-, -, h⟩ := bind_eq_ok h
    cases h
    exact .inl ⟨request, rfl⟩
  | reconcile id force =>
    cases h
    exact .inr ⟨id, force, rfl⟩

/-- An execution waits where it waited before, at the statement its request begins with, or at the
one that follows the statement it ran. -/
theorem executions_of_step {pc' : Pc} (h : step config s a = some s')
    (he : s'.executions e = some ⟨origin, some pc'⟩) :
    s.executions e = some ⟨origin, some pc'⟩ ∨ origin.entry = .ok pc' ∨
      ∃ choice pc, a = .run e choice ∧ s.executions e = some ⟨origin, some pc⟩ ∧
        (advance config s.now choice s.db pc).2 = .goto pc' := by
  rcases step_cases h with ⟨_, -, rfl⟩ | ⟨i, origin', next, -, hfree, rfl, hnext⟩ |
    ⟨i, choice, origin', pc, rfl, hi, -, rfl⟩ | ⟨i, origin', pc, -, hi, rfl⟩
  · exact .inl he
  · by_cases hie : e = i
    · subst hie
      rw [State.proceed_executions_self] at he
      rcases hnext with ⟨pc, hentry, rfl⟩ | ⟨error, -, rfl⟩
      · cases he
        exact .inr (.inl hentry)
      · cases he
    · rw [State.proceed_executions_of_ne hie] at he
      exact .inl he
  · by_cases hie : e = i
    · subst hie
      rw [State.proceed_executions_self] at he
      cases hgoto : (advance config s.now choice s.db pc).2 with
      | goto pc'' =>
        rw [hgoto] at he
        cases he
        exact .inr (.inr ⟨choice, pc, rfl, hi, hgoto⟩)
      | answer outcome =>
        rw [hgoto] at he
        cases he
    · rw [State.proceed_executions_of_ne hie] at he
      exact .inl he
  · by_cases hie : e = i
    · subst hie
      rw [State.stop_executions_self] at he
      cases he
    · rw [State.stop_executions_of_ne hie] at he
      exact .inl he

/-- A row is as it was, or a statement of an execution wrote it. -/
theorem rows_of_step (hi : Invariant config s) (h : step config s a = some s') {id : Uuid}
    (hu : s'.db.findTransfer id = some u) : s.db.findTransfer id = some u ∨
      ∃ e choice origin pc, a = .run e choice ∧ s.executions e = some ⟨origin, some pc⟩ ∧
        Written choice s.db pc u := by
  rcases step_cases h with ⟨_, -, rfl⟩ | ⟨_, _, _, -, -, rfl, -⟩ |
    ⟨e, choice, origin, pc, rfl, he, -, rfl⟩ | ⟨_, _, _, -, -, rfl⟩
  · exact .inl hu
  · exact .inl hu
  · exact (advance_written hi.lockstep (hi.running e origin pc he) id u hu).imp_right
      fun hw => ⟨e, choice, origin, pc, rfl, he, hw⟩
  · exact .inl hu

/-- A request to another service was made before, or by the statement an execution now waits at. -/
theorem calls_of_step {call : UpstreamCall} (h : step config s a = some s')
    (hc : (e, call) ∈ s'.calls) : (e, call) ∈ s.calls ∨
      ∃ origin pc, s'.executions e = some ⟨origin, some pc⟩ ∧ pc.call = some call := by
  rcases step_cases h with ⟨_, -, rfl⟩ | ⟨i, origin, next, -, -, rfl, -⟩ |
    ⟨i, choice, origin, pc, -, -, -, rfl⟩ | ⟨_, _, _, -, -, rfl⟩
  · exact .inl hc
  · rcases State.mem_proceed_calls.mp hc with ⟨rfl, pc, rfl, hcall⟩ | hold
    · exact .inr ⟨origin, pc, State.proceed_executions_self, hcall⟩
    · exact .inl hold
  · rcases State.mem_proceed_calls.mp hc with ⟨rfl, pc', hnext, hcall⟩ | hold
    · refine .inr ⟨origin, pc', ?_, hcall⟩
      rw [State.proceed_executions_self, hnext]
      rfl
    · exact .inl hold
  · exact .inl hc

theorem calls_grow {call : UpstreamCall} (h : step config s a = some s')
    (hc : (e, call) ∈ s.calls) : (e, call) ∈ s'.calls := by
  rcases step_cases h with ⟨_, -, rfl⟩ | ⟨_, _, _, -, -, rfl, -⟩ |
    ⟨_, _, _, _, -, -, -, rfl⟩ | ⟨_, _, _, -, -, rfl⟩
  · exact hc
  · exact State.mem_proceed_calls.mpr (.inr hc)
  · exact State.mem_proceed_calls.mpr (.inr hc)
  · exact hc

theorem backed_initial : Backed up .initial :=
  ⟨by simp [State.initial],
    by simp [State.initial, Database.empty, Database.findTransfer, findBy]⟩

theorem Backed.step (hi : Invariant config s) (hb : Backed up s) (h : step config s a = some s')
    (ht : ∀ e choice origin pc, a = .run e choice → s.executions e = some ⟨origin, some pc⟩ →
      choice.Truthful up pc) : Backed up s' := by
  refine ⟨fun e origin pc' he => ?_, fun id u hu => ?_⟩
  · rcases executions_of_step h he with hold | hentry | ⟨choice, pc, rfl, hold, hgoto⟩
    · exact hb.running e origin pc' hold
    · rcases entry_eq_ok hentry with ⟨request, rfl⟩ | ⟨id, force, rfl⟩ <;> trivial
    · have hf : ((advance config s.now choice s.db pc).2).Follows choice s.db pc := advance_follows
      rw [hgoto] at hf
      exact hf.backed (hi.running e origin pc hold) (ht e choice origin pc rfl hold)
  · rcases rows_of_step hi h hu with hold | ⟨e, choice, origin, pc, rfl, he, hw⟩
    · exact hb.rows id u hold
    · exact hw.backed (hi.running e origin pc he) (hb.running e origin pc he) hb.rows

/-- A posting was sent for the row of a transfer that its execution had validated. -/
structure PostOk (s : State) (e : ExecId) (t : Transfer) (sender recipient : WalletValidation)
    (posting : PostingCommand) : Prop where
  snapshot : Snapshot s.db t
  processing : t.status = .processing
  asked : (e, .validation t.senderWalletId t.recipientWalletId) ∈ s.calls
  validated : validateWallets t sender recipient = .ok ()
  command : ∃ requestId, postingCommand t requestId = some posting

/-- The requests that executions made: what each waits for, and for which row it was made. -/
structure CallsOk (s : State) : Prop where
  made : ∀ e origin pc call, s.executions e = some ⟨origin, some pc⟩ → pc.call = some call →
    (e, call) ∈ s.calls
  posts : ∀ e t sender recipient posting, (e, .post t sender recipient posting) ∈ s.calls →
    PostOk s e t sender recipient posting
  consumes : ∀ e quoteId command, (e, .consume quoteId command) ∈ s.calls →
    ∃ t, Snapshot s.db t ∧ t.fxQuoteId = some quoteId ∧ command = consumeCommand t

theorem callsOk_initial : CallsOk .initial :=
  ⟨by simp [State.initial], by simp [State.initial], by simp [State.initial]⟩

theorem CallsOk.step (hi : Invariant config s) (hc : CallsOk s) (h : step config s a = some s') :
    CallsOk s' := by
  have hi' := hi.step h
  have hev := step_evolves hi h
  have hmade : ∀ e origin pc call, s'.executions e = some ⟨origin, some pc⟩ →
      pc.call = some call → (e, call) ∈ s'.calls := by
    intro e origin pc call he hcall
    rcases step_cases h with ⟨_, -, rfl⟩ | ⟨i, origin', next, -, -, rfl, -⟩ |
      ⟨i, choice, origin', pc', -, -, -, rfl⟩ | ⟨i, origin', pc', -, -, rfl⟩
    · exact hc.made e origin pc call he hcall
    all_goals by_cases hie : e = i
    · subst hie
      rw [State.proceed_executions_self] at he
      cases next <;> cases he
      exact State.mem_proceed_calls.mpr (.inl ⟨rfl, pc, rfl, hcall⟩)
    · rw [State.proceed_executions_of_ne hie] at he
      exact State.mem_proceed_calls.mpr (.inr (hc.made e origin pc call he hcall))
    · subst hie
      rw [State.proceed_executions_self] at he
      generalize (advance config s.now choice s.db pc').2 = next at he ⊢
      cases next <;> cases he
      exact State.mem_proceed_calls.mpr (.inl ⟨rfl, pc, rfl, hcall⟩)
    · rw [State.proceed_executions_of_ne hie] at he
      exact State.mem_proceed_calls.mpr (.inr (hc.made e origin pc call he hcall))
    · subst hie
      rw [State.stop_executions_self] at he
      cases he
    · rw [State.stop_executions_of_ne hie] at he
      exact hc.made e origin pc call he hcall
  refine ⟨hmade, fun e t sender recipient posting hmem => ?_, fun e quoteId command hmem => ?_⟩
  swap
  · rcases calls_of_step h hmem with hold | ⟨origin, pc, he, hcall⟩
    · obtain ⟨t, hsnap, hq, hcommand⟩ := hc.consumes e quoteId command hold
      exact ⟨t, hev.snapshot hsnap, hq, hcommand⟩
    · cases pc with
      | consume t quoteId' =>
        cases hcall
        have hpc := hi'.running e origin _ he
        exact ⟨t, hpc.snapshot t rfl, hpc.checked.2.2, rfl⟩
      | _ => cases hcall
  by_cases hold : (e, UpstreamCall.post t sender recipient posting) ∈ s.calls
  · have hpost := hc.posts e t sender recipient posting hold
    exact { hpost with snapshot := hev.snapshot hpost.snapshot, asked := calls_grow h hpost.asked }
  -- a new posting follows the validation that its execution waited for
  rcases calls_of_step h hmem with hmem | ⟨origin, pc, he, hcall⟩
  · exact absurd hmem hold
  cases pc with
  | post t' sender' recipient' posting' =>
    cases hcall
    obtain ⟨hprocessing, hvalidated, hcommand⟩ := (hi'.running e origin _ he).checked
    refine ⟨(hi'.running e origin _ he).snapshot t rfl, hprocessing, ?_, hvalidated, hcommand⟩
    rcases executions_of_step h he with hsame | hentry | ⟨choice, pc, rfl, hbefore, hgoto⟩
    · exact absurd (hc.made e origin _ _ hsame rfl) hold
    · rcases entry_eq_ok hentry with ⟨_, heq⟩ | ⟨_, _, heq⟩ <;> cases heq
    · have hf : ((advance config s.now choice s.db pc).2).Follows choice s.db pc := advance_follows
      rw [hgoto] at hf
      obtain rfl : pc = .validate t := hf
      exact calls_grow h (hc.made e origin _ _ hbefore rfl)
  | _ => cases hcall

theorem callsOk_of_reachable (h : (system config).Reachable s) : CallsOk s :=
  System.Reachable.invariant callsOk_initial
    (fun _ _ _ hr hc hs => hc.step (invariant_of_reachable hr) hs) h

/-- Two postings for one transfer differ in the request id at most. -/
theorem PostOk.command_eq {e' : ExecId} {t' : Transfer} {sender recipient sender' recipient' : WalletValidation}
    {posting posting' : PostingCommand} (h : PostOk s e t sender recipient posting)
    (h' : PostOk s e' t' sender' recipient' posting') (hid : t.id = t'.id) :
    posting' = { posting with requestId := posting'.requestId } := by
  obtain ⟨u, hu, hprog⟩ := h.snapshot
  obtain ⟨u', hu', hprog'⟩ := h'.snapshot
  obtain rfl : u = u' := Option.some.inj (hu.symm.trans (hid ▸ hu'))
  have hsame := hprog.same
  have hsame' := hprog'.same
  obtain ⟨ha, hr⟩ := hprog.terms.resolve_left (by simp [h.processing])
  obtain ⟨ha', hr'⟩ := hprog'.terms.resolve_left (by simp [h'.processing])
  obtain ⟨requestId, hcommand⟩ := h.command
  obtain ⟨requestId', hcommand'⟩ := h'.command
  unfold postingCommand at hcommand hcommand'
  rw [← ha, ← hr, hsame.type] at hcommand
  rw [← ha', ← hr', hsame'.type] at hcommand'
  split at hcommand
  · next targetAmount hamount =>
    rw [hamount] at hcommand'
    dsimp only at hcommand'
    split at hcommand
    · cases hcommand
    next hrate =>
    rw [if_neg hrate] at hcommand'
    cases hcommand
    cases hcommand'
    simp [postingOf, hid, hsame.type, hsame'.type, hsame.sourceCurrency, hsame'.sourceCurrency,
      hsame.targetCurrency, hsame'.targetCurrency, hsame.sourceAmount, hsame'.sourceAmount,
      hsame.fxQuoteId, hsame'.fxQuoteId, hsame.senderWalletId, hsame'.senderWalletId,
      hsame.recipientWalletId, hsame'.recipientWalletId, ← hr, ← hr']
  · cases hcommand

end Step

end NovaPay.Transaction
