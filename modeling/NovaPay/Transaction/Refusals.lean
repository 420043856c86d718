import NovaPay.Transaction.Provenance
import NovaPay.Transaction.Enabled
import NovaPay.Transaction.Idempotency

/-!
# Refused quotes

Where an execution is told that its quote is used, and where the error comes from that a transfer is
failed with. A first claim of a quote, under a fresh key, goes through.
-/

namespace NovaPay.Transaction

open DecimalArithmetic Relational TransitionSystem

variable {config : Config} {db db' : Database} {now : Time} {c : Choice} {pc : Pc} {next : Next}
  {t : Transfer}

/-- The error that another service answered a statement with. -/
def Choice.Answered (c : Choice) (t : Transfer) (error : HttpError) : Pc → Prop
  | .validate u => u = t ∧ c.account = .error (.http error)
  | .consume u _ => u = t ∧ c.quote = .error (.http error)
  | .post u _ _ _ => u = t ∧ c.posting = .error (.http error)
  | _ => False

/-- The statements before a lookup of a quote and before a failure for a used one. -/
def Pc.Refused (c : Choice) (pc : Pc) : Pc → Prop
  | .claimQuoteLookup quoteId =>
    ∃ request, pc = .claimRecover request ∧ request.command.quoteId? = some quoteId
  | .fail id error => error.code = quoteAlreadyUsed.code →
      ∃ t e, t.id = id ∧ e.code = quoteAlreadyUsed.code ∧ c.Answered t e pc
  | _ => True

def Next.Refused (c : Choice) (db : Database) (pc : Pc) : Next → Prop
  | .goto pc' => Pc.Refused c pc pc'
  | .answer (.error error) => error = quoteAlreadyUsed →
      ∃ quoteId t, pc = .claimQuoteLookup quoteId ∧ db.findByQuote quoteId = some t
  | .answer (.result _ _) => True

theorem resultForTransfer_refused : (Next.answer (resultForTransfer t)).Refused c db pc := trivial

theorem enterPrepareInternational_refused : (enterPrepareInternational t).Refused c db pc := by
  unfold enterPrepareInternational
  repeat' split
  all_goals trivial

theorem reconcileFrom_refused {force : Bool} : (reconcileFrom t force).Refused c db pc := by
  unfold reconcileFrom
  repeat' split
  all_goals trivial

theorem enterHandleExisting_refused {request : CreateRequest} {r : IdempotencyRecord} :
    (enterHandleExisting config request t r).Refused c db pc := by
  unfold enterHandleExisting
  split
  · exact fun h => absurd h (by decide)
  · trivial

theorem handleExisting_refused {r : IdempotencyRecord} :
    (handleExisting now t r).Refused c db pc := by
  unfold handleExisting
  split
  · exact fun h => absurd h (by decide)
  · repeat' split
    all_goals trivial

theorem withTransfer_refused {id : Uuid} {k : Transfer → Next}
    (hk : ∀ t, (k t).Refused c db pc) : (withTransfer db id k).Refused c db pc := by
  unfold withTransfer
  split
  · exact hk _
  · exact fun h => absurd h (by decide)

/-- An answer that is no refusal of a quote. -/
theorem internalServerError_refused : (Next.answer (.error internalServerError)).Refused c db pc :=
  fun h => absurd h (by decide)

theorem afterValidation_refused : (afterValidation c t c.account).Refused c db (.validate t) := by
  unfold afterValidation
  split
  · next error haccount =>
    cases error with
    | unavailable => exact fun h => absurd h (by decide)
    | http error =>
      unfold handleAccountFailure
      dsimp only
      split
      · exact fun h => ⟨t, error, rfl, h, rfl, haccount⟩
      split
      · exact fun h => absurd h (by decide)
      · exact fun h => ⟨t, error, rfl, h, rfl, haccount⟩
  · split
    · next error hwallets =>
      intro h
      unfold validateWallets at hwallets
      repeat' split at hwallets
      all_goals cases hwallets
      all_goals exact absurd h (by decide)
    · split
      · trivial
      · exact internalServerError_refused

theorem runConsume_refused {quoteId : Uuid} : (runConsume c t).Refused c db (.consume t quoteId) := by
  unfold runConsume
  split
  · trivial
  · exact internalServerError_refused
  · next error hquote =>
    cases error with
    | unavailable => trivial
    | http error =>
      unfold handleFxFailure
      dsimp only
      split
      · trivial
      · exact fun h => ⟨t, error, rfl, h, rfl, hquote⟩

theorem runPost_refused {sender recipient : WalletValidation} {command : PostingCommand} :
    (runPost c t).Refused c db (.post t sender recipient command) := by
  unfold runPost
  split
  · trivial
  · next error hposting =>
    cases error with
    | unavailable => trivial
    | http error =>
      unfold handleLedgerFailure
      dsimp only
      split
      · trivial
      · exact fun h => ⟨t, error, rfl, h, rfl, hposting⟩

theorem advance_refused : (advance config now c db pc).2.Refused c db pc := by
  cases pc with
  | claimLookup request =>
    change (runClaimLookup config db request).Refused c db _
    unfold runClaimLookup
    split
    · exact enterHandleExisting_refused
    · trivial
  | claimInsert request =>
    change (runClaimInsert config c db request).2.Refused c db _
    unfold runClaimInsert
    split
    · unfold afterClaim
      split
      · trivial
      · exact enterPrepareInternational_refused
    · trivial
    · exact internalServerError_refused
  | claimRecover request =>
    change (runClaimRecover config db request).Refused c db _
    unfold runClaimRecover
    split
    · exact enterHandleExisting_refused
    · split
      · next command hcommand => exact ⟨request, rfl, by rw [hcommand]; rfl⟩
      · exact internalServerError_refused
  | claimQuoteLookup quoteId =>
    change (runClaimQuoteLookup db quoteId).Refused c db _
    unfold runClaimQuoteLookup
    split
    · next t ht => exact fun _ => ⟨quoteId, t, rfl, ht⟩
    · exact internalServerError_refused
  | databaseNow t r => exact handleExisting_refused
  | transition id =>
    change (runTransition c db id).2.Refused c db _
    unfold runTransition
    split
    · trivial
    · exact internalServerError_refused
  | reconcileRead id force => exact withTransfer_refused fun _ => reconcileFrom_refused
  | reconcileReload id =>
    change (runReconcileReload db id).Refused c db _
    unfold runReconcileReload
    split
    · exact enterPrepareInternational_refused
    · exact internalServerError_refused
  | byReference t force =>
    change (afterByReference config c t force c.found).Refused c db _
    unfold afterByReference
    split
    · trivial
    · trivial
    · split
      · exact internalServerError_refused
      · split <;> trivial
  | claimRetry t staleBefore =>
    change (runClaimRetry c db t staleBefore).2.Refused c db _
    unfold runClaimRetry
    split
    · trivial
    · trivial
    · exact internalServerError_refused
  | consume t quoteId => exact runConsume_refused
  | prepare t quote =>
    change (runPrepare c db t quote).2.Refused c db _
    unfold runPrepare
    split
    · trivial
    · trivial
    · exact internalServerError_refused
  | processRead id =>
    refine withTransfer_refused fun t => ?_
    unfold enterProcess
    split <;> trivial
  | validate t => exact afterValidation_refused
  | post t sender recipient command => exact runPost_refused
  | complete id ledgerTransactionId =>
    change (runComplete c db id ledgerTransactionId).2.Refused c db _
    unfold runComplete completedResult
    split
    · dsimp only
      split <;> trivial
    · exact internalServerError_refused
  | fail id error =>
    change (runFail c db id error).2.Refused c db _
    unfold runFail
    split
    · dsimp only
      split <;> trivial
    · exact internalServerError_refused
  | reread id => exact withTransfer_refused fun _ => resultForTransfer_refused

theorem entry_error_ne {origin : Origin} : origin.entry ≠ .error quoteAlreadyUsed := by
  cases origin with
  | create request =>
    intro h
    rcases bind_eq_error h with h | ⟨-, -, h⟩
    · unfold validateIdempotencyKey at h
      split at h <;> cases h
    rcases bind_eq_error h with h | ⟨-, -, h⟩
    · unfold Command.validate validateCommand validateInternationalCommand at h
      repeat' split at h
      all_goals cases h
    · cases h
  | reconcile id force => simp [Origin.entry]

/-- An answer was given before, or by the step: to a request that it refused, or by the statement
that it ran. -/
theorem answers_of_step {s s' : State} {a : Action} {e : ExecId} {origin : Origin}
    {outcome : Outcome} (hi : Invariant config s) (h : step config s a = some s')
    (he : s'.executions e = some ⟨origin, none⟩) (ho : (e, outcome) ∈ s'.answers) :
    (s.executions e = some ⟨origin, none⟩ ∧ (e, outcome) ∈ s.answers) ∨
      (∃ error, origin.entry = .error error ∧ outcome = .error error) ∨
      ∃ choice pc, a = .run e choice ∧ s.executions e = some ⟨origin, some pc⟩ ∧
        (advance config s.now choice s.db pc).2 = .answer outcome := by
  -- an execution that answered before has ended, so no step is its own
  have hold : (e, outcome) ∈ s.answers → ∃ origin', s.executions e = some ⟨origin', none⟩ :=
    fun ho => hi.ended e outcome ho
  rcases step_cases h with ⟨_, -, rfl⟩ | ⟨i, origin', next, -, hfree, rfl, hnext⟩ |
    ⟨i, choice, origin', pc, rfl, hrun, -, rfl⟩ | ⟨i, origin', pc, -, hrun, rfl⟩
  · exact .inl ⟨he, ho⟩
  all_goals by_cases hie : e = i
  · subst hie
    rw [State.proceed_executions_self] at he
    obtain ⟨rfl, -⟩ := Execution.mk.inj (Option.some.inj he)
    rcases State.mem_proceed_answers.mp ho with ⟨-, rfl⟩ | ho
    · rcases hnext with ⟨pc, -, heq⟩ | ⟨error, hentry, heq⟩
      · cases heq
      · cases heq
        exact .inr (.inl ⟨error, hentry, rfl⟩)
    · obtain ⟨_, hended⟩ := hold ho
      rw [hfree] at hended
      cases hended
  · rw [State.proceed_executions_of_ne hie] at he
    rcases State.mem_proceed_answers.mp ho with ⟨rfl, -⟩ | ho
    · exact absurd rfl hie
    · exact .inl ⟨he, ho⟩
  · subst hie
    rw [State.proceed_executions_self] at he
    obtain ⟨rfl, -⟩ := Execution.mk.inj (Option.some.inj he)
    rcases State.mem_proceed_answers.mp ho with ⟨-, hnext⟩ | ho
    · exact .inr (.inr ⟨choice, pc, rfl, hrun, hnext⟩)
    · obtain ⟨_, hended⟩ := hold ho
      rw [hrun] at hended
      cases hended
  · rw [State.proceed_executions_of_ne hie] at he
    rcases State.mem_proceed_answers.mp ho with ⟨rfl, -⟩ | ho
    · exact absurd rfl hie
    · exact .inl ⟨he, ho⟩
  · subst hie
    obtain ⟨_, hended⟩ := hold ho
    rw [hrun] at hended
    cases hended
  · rw [State.stop_executions_of_ne hie] at he
    exact .inl ⟨he, ho⟩

theorem step_request {s : State} {e : ExecId} {origin : Origin} (he : s.executions e = none)
    (hentry : origin.entry = .ok pc) :
    step config s (.request e origin) = some (s.proceed e origin (.goto pc)) := by
  simp only [step, he, hentry]

theorem step_run {s : State} {e : ExecId} {origin : Origin}
    (he : s.executions e = some ⟨origin, some pc⟩) (hle : c.startedAt ≤ s.now) :
    step config s (.run e c) = some ((s.withDb (advance config s.now c s.db pc).1).proceed e origin
      (advance config s.now c s.db pc).2) := by
  simp only [step, he, if_pos hle]

/-- One transfer has a quote. -/
theorem Database.transfer_eq_of_quote {t u : Transfer} {quoteId : Uuid} (ht : t ∈ db.transfers.rows)
    (hu : u ∈ db.transfers.rows) (hq : t.fxQuoteId = some quoteId) (hq' : u.fxQuoteId = some quoteId) :
    t = u := eq_of_uniqueWhere db.transfer_quotes ht hu hq hq'

theorem Database.findByQuote_some {quoteId : Uuid} (h : db.findByQuote quoteId = some t) :
    t ∈ db.transfers.rows ∧ t.fxQuoteId = some quoteId :=
  ⟨List.mem_of_find?_eq_some h, by simpa using List.find?_some h⟩

/-- A first claim of a quote, under a fresh key and a fresh id, creates the transfer. -/
theorem claimInternational_enabled (hl : Lockstep db) {ids : ClaimIds} (now : Time) (date : Date)
    {clientId : Principal} {key : IdempotencyKey} (requestHash : Digest)
    {command : CreateInternationalTransfer} (hs : (Command.international command).Storable)
    (hid : db.findTransfer ids.transferId = none)
    (hkey : ∀ r ∈ db.records.rows, (r.clientId, r.key) ≠ (clientId, key))
    (hquote : ∀ t ∈ db.transfers.rows, t.fxQuoteId ≠ some command.quoteId.value) :
    ∃ db' amount, (Numeric.ofRat? command.sourceAmount.val.value : Option Money) = some amount ∧
      claimInternational db ids now date clientId key requestHash command =
        .ok (db', internationalTransfer clientId command amount ids.transferId now date) := by
  obtain ⟨hne, hpos, hcurrency⟩ := hs
  obtain ⟨amount, hamount, hvalue⟩ := exists_money command.sourceAmount.property
  rw [← hvalue] at hpos
  set t := internationalTransfer clientId command amount ids.transferId now date with ht
  have hcheck : ∀ u ∈ [t], transfersSchema.check u = true := by
    intro u hu
    rw [List.mem_singleton.mp hu, ht]
    simp [Transfer.check, Transfer.typeCheck, Transfer.terminalStateCheck,
      Transfer.executionCheck, Transfer.failureFits, internationalTransfer, hne, hpos, hcurrency]
  have hcheckr : ∀ r ∈ [claimRecord clientId key requestHash ids.transferId now],
      recordsSchema.check r = true := by
    intro r hr
    rw [List.mem_singleton.mp hr, recordsSchema_check, claimRecord_check]
  have hT : transfersIndexed (db.transfers.rows ++ [t]) = true := by
    simp only [transfersIndexed, Bool.and_eq_true]
    refine ⟨⟨?_, ?_⟩, ?_⟩
    · exact uniqueBy_append_new db.transfer_ids (Database.findTransfer_eq_none_iff.mp hid)
    · refine uniqueWhere_append_new db.transfer_quotes fun u hu k hk => ?_
      exact Option.some.inj hk ▸ hquote u hu
    · refine uniqueWhere_append_new (ledger_ids db) fun u hu k hk => absurd hk ?_
      simp [ht, internationalTransfer]
  have hR : recordsIndexed (db.records.rows ++
      [claimRecord clientId key requestHash ids.transferId now]) = true := by
    simp only [recordsIndexed, Bool.and_eq_true]
    refine ⟨uniqueBy_append_new db.record_keys hkey, ?_⟩
    exact uniqueBy_append_new db.record_transferIds (findBy_eq_none_iff.mp (hl.absent _ hid).1)
  obtain ⟨T, hT⟩ := Table.insertMany_of_indexed hcheck hT
  obtain ⟨R, hR⟩ := Table.insertMany_of_indexed hcheckr hR
  refine ⟨⟨T, R, db.history⟩, amount, hamount, ?_⟩
  unfold claimInternational
  rw [hamount]
  dsimp only
  rw [← ht, hT, ok_bind, hR, ok_bind]
  rfl

end NovaPay.Transaction
