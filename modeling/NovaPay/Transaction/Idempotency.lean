import NovaPay.Transaction.Lockstep

/-!
# One transfer for each idempotency key

What the requests of one client and key share, and what becomes of a request that comes with
another payload or after the replay window.
-/

namespace NovaPay.Transaction

open DecimalArithmetic Relational TransitionSystem

variable {config : Config} {db db' : Database} {s s' : State} {e : ExecId}
  {request : CreateRequest} {error : HttpError}

/-- The statements a create waits at before it works on a transfer. -/
def Pc.claiming : Pc → Bool
  | .claimLookup _ | .claimInsert _ | .claimRecover _ | .claimQuoteLookup _ | .databaseNow _ _ => true
  | _ => false

/-- A command whose rows pass the CHECK constraints. -/
def Command.Storable : Command → Prop
  | .domestic command => command.senderWalletId.value ≠ command.recipientWalletId.value ∧
      0 < command.amount.val.value
  | .international command => command.senderWalletId.value ≠ command.recipientWalletId.value ∧
      0 < command.sourceAmount.val.value ∧ command.sourceCurrency ≠ command.targetCurrency

theorem claimRecord_check {clientId : Principal} {key : IdempotencyKey} {requestHash : Digest}
    {transferId : Uuid} {now : Time} :
    (claimRecord clientId key requestHash transferId now).check = true := by
  have hwindow : replayWindowMs ≤ retentionWindowMs := by decide
  simp [IdempotencyRecord.check, claimRecord, hwindow]

/-- Statements that insert rows all of which pass their checks fail, if at all, on a unique
index. -/
theorem insertRecord_not_rejected {r : IdempotencyRecord} (hr : r.check = true) :
    db.records.insertMany [r] ≠ .error .rejected := by
  rcases Table.insertMany_of_check db.records [r] (by
    intro q hq
    rw [List.mem_singleton.mp hq, recordsSchema_check, hr]) with ⟨T, hT, -⟩ | hT <;> simp [hT]

theorem insertTransfer_not_rejected {t : Transfer} (ht : t.check = true) :
    db.transfers.insertMany [t] ≠ .error .rejected := by
  rcases Table.insertMany_of_check db.transfers [t] (by
    intro u hu
    rw [List.mem_singleton.mp hu, transfersSchema_check, ht]) with ⟨T, hT, -⟩ | hT <;> simp [hT]

theorem insertHistory_not_rejected {rows : List TransactionHistory}
    (h : ∀ row ∈ rows, row.check = true) : db.history.insertMany rows ≠ .error .rejected := by
  rcases Table.insertMany_of_check db.history rows (by
    intro row hrow
    rw [historySchema_check, h row hrow]) with ⟨T, hT, -⟩ | hT <;> simp [hT]

theorem bind_not_rejected {α β : Type} {x : Except DbError α} {f : α → Except DbError β}
    (hx : x ≠ .error .rejected) (hf : ∀ a, x = .ok a → f a ≠ .error .rejected) :
    (x >>= f) ≠ .error .rejected := by
  cases x with
  | ok a => exact hf a rfl
  | error error => exact fun h => hx (by simpa [bind, Except.bind] using h)

theorem claim_storable {ids : ClaimIds} {now : Time} {date : Date} {clientId : Principal}
    {key : IdempotencyKey} {requestHash : Digest} {command : CreateTransfer}
    (hs : (Command.domestic command).Storable) :
    claim db ids now date clientId key requestHash command ≠ .error .rejected := by
  obtain ⟨hne, hpos⟩ := hs
  obtain ⟨amount, hamount, hvalue⟩ := exists_money command.amount.property
  rw [← hvalue] at hpos
  have ht : (domesticTransfer clientId command amount ids.transferId now date).check = true := by
    simp [Transfer.check, Transfer.typeCheck, Transfer.terminalStateCheck,
      Transfer.executionCheck, Transfer.failureFits, domesticTransfer, hne, hpos]
  have hh : ∀ row ∈ claimHistory ids command amount now, row.check = true := by
    simp [claimHistory, TransactionHistory.check, hne, Ne.symm hne, hpos]
  unfold claim
  rw [hamount]
  refine bind_not_rejected (insertTransfer_not_rejected ht) fun T _ => ?_
  refine bind_not_rejected (insertHistory_not_rejected hh) fun H _ => ?_
  exact bind_not_rejected (insertRecord_not_rejected claimRecord_check) fun R _ h => by cases h

theorem claimInternational_storable {ids : ClaimIds} {now : Time} {date : Date}
    {clientId : Principal} {key : IdempotencyKey} {requestHash : Digest}
    {command : CreateInternationalTransfer} (hs : (Command.international command).Storable) :
    claimInternational db ids now date clientId key requestHash command ≠ .error .rejected := by
  obtain ⟨hne, hpos, hcurrency⟩ := hs
  obtain ⟨amount, hamount, hvalue⟩ := exists_money command.sourceAmount.property
  rw [← hvalue] at hpos
  have ht : (internationalTransfer clientId command amount ids.transferId now date).check = true := by
    simp [Transfer.check, Transfer.typeCheck, Transfer.terminalStateCheck,
      Transfer.executionCheck, Transfer.failureFits, internationalTransfer, hne, hpos, hcurrency]
  unfold claimInternational
  rw [hamount]
  refine bind_not_rejected (insertTransfer_not_rejected ht) fun T _ => ?_
  exact bind_not_rejected (insertRecord_not_rejected claimRecord_check) fun R _ h => by cases h

theorem insertClaim_storable {c : Choice} (hs : request.command.Storable) :
    insertClaim config request c db ≠ .error .rejected := by
  unfold insertClaim
  split
  · next command heq => exact claim_storable (heq ▸ hs)
  · next command heq => exact claimInternational_storable (heq ▸ hs)

/-- A row that a CHECK constraint refuses fails its insert before any index is looked at. -/
theorem insertTransfer_rejected {t : Transfer} (ht : t.check = false) :
    db.transfers.insertMany [t] = .error .rejected := by
  refine dif_neg fun hall => ?_
  have hchecked : t.check = true := hall t List.mem_cons_self
  rw [ht] at hchecked
  cases hchecked

theorem claim_rejected {ids : ClaimIds} {now : Time} {date : Date} {clientId : Principal}
    {key : IdempotencyKey} {requestHash : Digest} {command : CreateTransfer}
    (hs : ¬(Command.domestic command).Storable) :
    claim db ids now date clientId key requestHash command = .error .rejected := by
  obtain ⟨amount, hamount, hvalue⟩ := exists_money command.amount.property
  have ht : (domesticTransfer clientId command amount ids.transferId now date).check = false := by
    by_contra hcheck
    simp only [Bool.not_eq_false, Transfer.check, Bool.and_eq_true, decide_eq_true_eq] at hcheck
    exact hs ⟨hcheck.1.1.1.1.1.1, hvalue ▸ hcheck.1.1.1.1.1.2⟩
  simp only [claim, hamount, insertTransfer_rejected ht]
  rfl

theorem claimInternational_rejected {ids : ClaimIds} {now : Time} {date : Date}
    {clientId : Principal} {key : IdempotencyKey} {requestHash : Digest}
    {command : CreateInternationalTransfer} (hs : ¬(Command.international command).Storable) :
    claimInternational db ids now date clientId key requestHash command = .error .rejected := by
  obtain ⟨amount, hamount, hvalue⟩ := exists_money command.sourceAmount.property
  have ht : (internationalTransfer clientId command amount ids.transferId now date).check = false := by
    by_contra hcheck
    simp only [Bool.not_eq_false, Transfer.check, Bool.and_eq_true, decide_eq_true_eq] at hcheck
    have htype := hcheck.1.1.1.2
    simp only [Transfer.typeCheck, internationalTransfer, reduceCtorEq, decide_false, Bool.false_and,
      decide_true, Bool.true_and, Bool.false_or, Bool.and_eq_true] at htype
    exact hs ⟨hcheck.1.1.1.1.1.1, hvalue ▸ hcheck.1.1.1.1.1.2, of_decide_eq_true htype.1.1⟩
  simp only [claimInternational, hamount, insertTransfer_rejected ht]
  rfl

/-- The insert of a command that is not storable is refused whatever the tables hold. -/
theorem insertClaim_rejected {c : Choice} (hs : ¬request.command.Storable) :
    insertClaim config request c db = .error .rejected := by
  unfold insertClaim
  split
  · next command heq => exact claim_rejected (heq ▸ hs)
  · next command heq => exact claimInternational_rejected (heq ▸ hs)

/-- A stored record that decides the answer to a request: another payload, or the same one after
the replay window. -/
def Conflict (config : Config) (db : Database) (now : Time) (request : CreateRequest)
    (error : HttpError) : Prop :=
  ∃ r ∈ db.records.rows, r.clientId = request.clientId ∧ r.key = request.key ∧
    ((r.requestHash ≠ request.command.requestHash config.sha256 ∧ error = payloadMismatch) ∨
      (r.requestHash = request.command.requestHash config.sha256 ∧
        r.replayExpiresAt ≤ now.toDate ∧ error = keyExpired))

theorem Conflict.mono {now now' : Time} (h : Conflict config db now request error)
    (hev : Evolves db db') (hnow : now ≤ now') : Conflict config db' now' request error := by
  obtain ⟨r, hr, hc, hk, hcase⟩ := h
  obtain ⟨q, hq, hp⟩ := hev.record _ r (Database.recordOf_eq_some_iff.mpr ⟨hr, rfl⟩)
  refine ⟨q, (Database.recordOf_eq_some_iff.mp hq).1, hp.same.clientId.symm.trans hc,
    hp.same.key.symm.trans hk, ?_⟩
  rw [← hp.same.requestHash, ← hp.same.replayExpiresAt]
  rcases hcase with hmismatch | ⟨hh, hexp, he⟩
  · exact .inl hmismatch
  · exact .inr ⟨hh, hexp.trans (Nat.div_le_div_right hnow), he⟩

/-- The record of a key is found with its transfer. -/
theorem Conflict.find {now : Time} (hl : Lockstep db) (h : Conflict config db now request error) :
    ∃ t r, db.findByKey request.clientId request.key = some (t, r) ∧
      ((r.requestHash ≠ request.command.requestHash config.sha256 ∧ error = payloadMismatch) ∨
        (r.requestHash = request.command.requestHash config.sha256 ∧
          r.replayExpiresAt ≤ now.toDate ∧ error = keyExpired)) := by
  obtain ⟨r, hr, hc, hk, hcase⟩ := h
  obtain ⟨t, ht, hid⟩ := hl.transfer_of_record hr
  exact ⟨t, r, hc ▸ hk ▸ Database.findByKey_of_mem hr ht hid, hcase⟩

/-- Where a conflicting request waits for its answer; `strict` says that it is not at the insert
of a row that the CHECK constraints refuse. -/
def Pc.Conflicting (now : Time) (request : CreateRequest) (error : HttpError) (strict : Prop) :
    Pc → Prop
  | .claimLookup q | .claimRecover q => q = request
  | .claimInsert q => q = request ∧ (strict → request.command.Storable)
  | .databaseNow _ r => error = keyExpired ∧ r.replayExpiresAt ≤ now.toDate
  | _ => False

/-- The statements left to a conflicting request. -/
def Pc.remaining : Pc → ℕ
  | .claimInsert _ => 3
  | .claimLookup _ | .claimRecover _ => 2
  | _ => 1

def Settled (request : CreateRequest) (error : HttpError) (strict : Prop) (outcome : Outcome) : Prop :=
  outcome = .error error ∨
    (¬strict ∧ ¬request.command.Storable ∧ outcome = .error internalServerError)

/-- A conflicting request changes no row, calls nobody, and is answered or one statement closer to
its answer. -/
def ConflictStep (db : Database) (now : Time) (request : CreateRequest)
    (error : HttpError) (strict : Prop) (pc : Pc) (after : Database × Next) : Prop :=
  after.1 = db ∧ ((∃ outcome, after.2 = .answer outcome ∧ Settled request error strict outcome) ∨
    ∃ pc', after.2 = .goto pc' ∧ pc'.Conflicting now request error strict ∧ pc'.call = none ∧
      pc'.remaining < pc.remaining)

theorem enterHandleExisting_conflict {now : Time} {strict : Prop} {pc : Pc} {t : Transfer}
    {r : IdempotencyRecord} (hpc : 1 < pc.remaining)
    (h : (r.requestHash ≠ request.command.requestHash config.sha256 ∧ error = payloadMismatch) ∨
      (r.requestHash = request.command.requestHash config.sha256 ∧
        r.replayExpiresAt ≤ now.toDate ∧ error = keyExpired)) :
    ConflictStep db now request error strict pc
      (db, enterHandleExisting config request t r) := by
  refine ⟨rfl, ?_⟩
  rcases h with ⟨hh, rfl⟩ | ⟨hh, hexp, rfl⟩
  · exact .inl ⟨_, by rw [enterHandleExisting, if_pos hh], .inl rfl⟩
  · exact .inr ⟨.databaseNow t r, by rw [enterHandleExisting, if_neg (not_not.mpr hh)],
      ⟨rfl, hexp⟩, rfl, hpc⟩

theorem advance_conflict (hl : Lockstep db) {now : Time} {c : Choice} {strict : Prop} {pc : Pc}
    (h : Conflict config db now request error) (hpc : pc.Conflicting now request error strict) :
    ConflictStep db now request error strict pc (advance config now c db pc) := by
  obtain ⟨t, r, hfind, hcase⟩ := h.find hl
  cases pc with
  | claimLookup q =>
    obtain rfl : q = request := hpc
    simp only [advance, runClaimLookup, hfind]
    exact enterHandleExisting_conflict (by simp [Pc.remaining]) hcase
  | claimRecover q =>
    obtain rfl : q = request := hpc
    simp only [advance, runClaimRecover, hfind]
    exact enterHandleExisting_conflict (by simp [Pc.remaining]) hcase
  | claimInsert q =>
    obtain ⟨rfl, hstorable⟩ := hpc
    simp only [advance, runClaimInsert]
    split
    · next db' u hins =>
      -- a second record under the key would break the unique index
      obtain ⟨⟨p, hc⟩, p', hp', hclient, hkey, -⟩ := insertClaim_ok hl hins
      obtain rfl := Option.some.inj (hp'.symm.trans hc.replaces.recordOf)
      obtain ⟨hr, hrc, hrk, -⟩ := Database.findByKey_eq_some hfind
      exact absurd (Prod.ext (hrc.trans hclient.symm) (hrk.trans hkey.symm)) (hc.keyFresh r hr)
    · exact ⟨rfl, .inr ⟨.claimRecover q, rfl, rfl, rfl, by simp [Pc.remaining]⟩⟩
    · next hins =>
      have hnot : ¬q.command.Storable := fun hs => insertClaim_storable hs hins
      exact ⟨rfl, .inl ⟨_, rfl, .inr ⟨fun hs => hnot (hstorable hs), hnot, rfl⟩⟩⟩
  | databaseNow u q =>
    obtain ⟨rfl, hexp⟩ := hpc
    exact ⟨rfl, .inl ⟨_, by rw [advance, handleExisting, if_pos hexp], .inl rfl⟩⟩
  | _ => exact absurd hpc id

/-- An execution whose request conflicts with the stored record of its key. -/
structure Rejected (config : Config) (s : State) (e : ExecId) (request : CreateRequest)
    (error : HttpError) (strict : Prop) : Prop where
  conflict : Conflict config s.db s.now request error
  place : ∃ pc?, s.executions e = some ⟨.create request, pc?⟩ ∧
    ∀ pc, pc? = some pc → pc.Conflicting s.now request error strict
  answers : ∀ outcome, (e, outcome) ∈ s.answers → Settled request error strict outcome
  calls : ∀ call, (e, call) ∉ s.calls

variable {strict : Prop}

theorem Pc.Conflicting.mono {now now' : Time} {pc : Pc} (hnow : now ≤ now')
    (h : pc.Conflicting now request error strict) : pc.Conflicting now' request error strict := by
  cases pc with
  | databaseNow t r => exact ⟨h.1, h.2.trans (Nat.div_le_div_right hnow)⟩
  | claimLookup q => exact h
  | claimRecover q => exact h
  | claimInsert q => exact h
  | _ => exact absurd h id

/-- Steps of other executions leave the place, the answers and the calls of `e` alone. -/
theorem Rejected.proceed_other (h : Rejected config s e request error strict)
    (db : Database) {i : ExecId} {origin : Origin} {next : Next} (hne : i ≠ e)
    (hev : Evolves s.db db) :
    Rejected config ((s.withDb db).proceed i origin next) e request error strict := by
  obtain ⟨pc?, he, hpc⟩ := h.place
  refine ⟨h.conflict.mono hev le_rfl,
    ⟨pc?, (State.proceed_executions_of_ne hne.symm).trans he, hpc⟩, fun outcome ho => ?_,
    fun call hcall => ?_⟩
  · rcases State.mem_proceed_answers.mp ho with ⟨rfl, -⟩ | ho
    · exact absurd rfl hne
    · exact h.answers outcome ho
  · rcases State.mem_proceed_calls.mp hcall with ⟨rfl, -⟩ | hcall
    · exact absurd rfl hne
    · exact h.calls call hcall

/-- One statement of the conflicting request itself. -/
theorem Rejected.run (hi : Invariant config s) (h : Rejected config s e request error strict)
    {c : Choice} {pc : Pc} (he : s.executions e = some ⟨.create request, some pc⟩) :
    (advance config s.now c s.db pc).1 = s.db ∧
      Rejected config ((s.withDb s.db).proceed e (.create request)
        (advance config s.now c s.db pc).2) e request error strict ∧
      ((∃ outcome, (advance config s.now c s.db pc).2 = .answer outcome) ∨
        ∃ pc', (advance config s.now c s.db pc).2 = .goto pc' ∧ pc'.remaining < pc.remaining) := by
  obtain ⟨pc?, he', hpc⟩ := h.place
  obtain rfl : pc? = some pc := by simpa [he'] using he
  obtain ⟨hdb, hnext⟩ := advance_conflict (c := c) hi.lockstep h.conflict (hpc pc rfl)
  refine ⟨hdb, ?_, ?_⟩
  · rcases hnext with ⟨outcome, heq, hsettled⟩ | ⟨pc', heq, hpc', hcall', -⟩
    · rw [heq]
      refine ⟨h.conflict, ⟨none, State.proceed_executions_self, by simp⟩, fun o ho => ?_,
        fun call hcall => ?_⟩
      · rcases State.mem_proceed_answers.mp ho with ⟨-, ho⟩ | ho
        · cases ho
          exact hsettled
        · exact h.answers o ho
      · rcases State.mem_proceed_calls.mp hcall with ⟨-, _, hgoto, -⟩ | hcall
        · cases hgoto
        · exact h.calls call hcall
    · rw [heq]
      refine ⟨h.conflict, ⟨some pc', State.proceed_executions_self, fun p hp => ?_⟩, fun o ho => ?_,
        fun call hcall => ?_⟩
      · cases hp
        exact hpc'
      · rcases State.mem_proceed_answers.mp ho with ⟨-, ho⟩ | ho
        · cases ho
        · exact h.answers o ho
      · rcases State.mem_proceed_calls.mp hcall with ⟨-, _, hgoto, hsome⟩ | hcall
        · cases hgoto
          rw [hcall'] at hsome
          cases hsome
        · exact h.calls call hcall
  · rcases hnext with ⟨outcome, heq, -⟩ | ⟨pc', heq, -, -, hlt⟩
    · exact .inl ⟨outcome, heq⟩
    · exact .inr ⟨pc', heq, hlt⟩

theorem Rejected.step (hi : Invariant config s) (h : Rejected config s e request error strict)
    {a : Action} (hs : step config s a = some s') : Rejected config s' e request error strict := by
  have hev := step_evolves hi hs
  obtain ⟨pc?, he, hpc⟩ := h.place
  rcases step_cases hs with ⟨elapsed, -, rfl⟩ | ⟨i, origin, next, -, hfree, rfl, -⟩ |
    ⟨i, c, origin, pc, -, hrun, -, rfl⟩ | ⟨i, origin, pc, -, hstop, rfl⟩
  · exact ⟨h.conflict.mono (.refl s.db) (Nat.le_add_right _ _),
      ⟨pc?, he, fun pc hp => (hpc pc hp).mono (Nat.le_add_right _ _)⟩, h.answers, h.calls⟩
  · have hne : i ≠ e := by
      rintro rfl
      rw [he] at hfree
      cases hfree
    exact h.proceed_other s.db hne (.refl s.db)
  · by_cases hie : i = e
    · subst hie
      obtain rfl : origin = .create request := by
        rw [he] at hrun
        cases hrun
        rfl
      obtain ⟨hdb, hrej, -⟩ := h.run (c := c) hi hrun
      rwa [hdb]
    · exact h.proceed_other _ hie hev
  · by_cases hie : i = e
    · subst hie
      rw [he] at hstop
      cases hstop
      exact ⟨h.conflict, ⟨none, State.stop_executions_self, by simp⟩, h.answers, h.calls⟩
    · exact ⟨h.conflict, ⟨pc?, (State.stop_executions_of_ne (Ne.symm hie)).trans he, hpc⟩,
        h.answers, h.calls⟩

theorem Pc.call_of_claiming {pc : Pc} (h : pc.claiming = true) : pc.call = none := by
  cases pc <;> first | rfl | cases h

/-- Once an execution works on a transfer it does not claim again. -/
theorem advance_not_claiming {now : Time} {c : Choice} {pc pc' : Pc} (hpc : pc.claiming = false)
    (h : (advance config now c db pc).2 = .goto pc') : pc'.claiming = false := by
  cases pc with
  | claimLookup => cases hpc
  | claimInsert => cases hpc
  | claimRecover => cases hpc
  | claimQuoteLookup => cases hpc
  | databaseNow => cases hpc
  | transition =>
    simp only [advance] at h
    unfold runTransition at h
    split at h
    · cases h; rfl
    · cases h
  | reconcileRead =>
    simp only [advance] at h
    unfold withTransfer at h
    split at h
    · unfold reconcileFrom at h
      dsimp only at h
      (repeat' split at h) <;> cases h <;> rfl
    · cases h
  | reconcileReload =>
    simp only [advance] at h
    unfold runReconcileReload enterPrepareInternational at h
    repeat' split at h
    all_goals first | (cases h; rfl) | cases h
  | byReference =>
    simp only [advance] at h
    unfold afterByReference at h
    (repeat' split at h) <;> cases h <;> rfl
  | claimRetry =>
    simp only [advance] at h
    unfold runClaimRetry at h
    split at h <;> cases h <;> rfl
  | consume =>
    simp only [advance] at h
    unfold runConsume handleFxFailure at h
    (repeat' split at h) <;> cases h <;> rfl
  | prepare =>
    simp only [advance] at h
    unfold runPrepare at h
    split at h <;> cases h <;> rfl
  | processRead =>
    simp only [advance] at h
    unfold withTransfer at h
    split at h
    · unfold enterProcess at h
      split at h
      · cases h
      · cases h; rfl
    · cases h
  | validate =>
    simp only [advance] at h
    unfold afterValidation handleAccountFailure at h
    (repeat' split at h) <;> cases h <;> rfl
  | post =>
    simp only [advance] at h
    unfold runPost handleLedgerFailure at h
    (repeat' split at h) <;> cases h <;> rfl
  | complete =>
    simp only [advance] at h
    unfold runComplete at h
    split at h <;> cases h
  | fail =>
    simp only [advance] at h
    unfold runFail at h
    split at h <;> cases h
  | reread =>
    simp only [advance] at h
    unfold withTransfer at h
    split at h <;> cases h

/-- The requests to other services come from executions that are past their claim. -/
def CallsAfterClaim (s : State) : Prop :=
  ∀ e call, (e, call) ∈ s.calls → ∃ origin pc?, s.executions e = some ⟨origin, pc?⟩ ∧
    ∀ pc, pc? = some pc → pc.claiming = false

theorem callsAfterClaim_step (h : CallsAfterClaim s) {a : Action} (hs : step config s a = some s') :
    CallsAfterClaim s' := by
  have hproceed : ∀ (db : Database) (e : ExecId) (origin : Origin) (next : Next),
      (∀ pc', next = .goto pc' → (∃ call, (e, call) ∈ s.calls) → pc'.claiming = false) →
      CallsAfterClaim ((s.withDb db).proceed e origin next) := by
    intro db e origin next hnext i call hcall
    by_cases hie : i = e
    · subst hie
      refine ⟨origin, next.pc?, State.proceed_executions_self, fun pc hpc => ?_⟩
      obtain ⟨rfl⟩ : next = .goto pc := by
        cases next with
        | goto pc' => cases hpc; rfl
        | answer outcome => cases hpc
      rcases State.mem_proceed_calls.mp hcall with ⟨-, pc', hgoto, hsome⟩ | hold
      · cases hgoto
        cases hclaim : pc.claiming with
        | false => rfl
        | true =>
          rw [Pc.call_of_claiming hclaim] at hsome
          cases hsome
      · exact hnext pc rfl ⟨call, hold⟩
    · rcases State.mem_proceed_calls.mp hcall with ⟨rfl, -⟩ | hold
      · exact absurd rfl hie
      · obtain ⟨origin', pc?, he, hpc⟩ := h i call hold
        exact ⟨origin', pc?, (State.proceed_executions_of_ne hie).trans he, hpc⟩
  rcases step_cases hs with ⟨elapsed, -, rfl⟩ | ⟨e, origin, next, -, hfree, rfl, -⟩ |
    ⟨e, c, origin, pc, -, hrun, -, rfl⟩ | ⟨e, origin, pc, -, hstop, rfl⟩
  · exact h
  · refine hproceed s.db e origin next fun pc' _ ⟨call, hcall⟩ => ?_
    obtain ⟨origin', pc?, he, -⟩ := h e call hcall
    rw [hfree] at he
    cases he
  · refine hproceed _ e origin _ fun pc' hgoto ⟨call, hcall⟩ => ?_
    obtain ⟨origin', pc?, he, hpc⟩ := h e call hcall
    rw [hrun] at he
    cases he
    exact advance_not_claiming (hpc pc rfl) hgoto
  · intro i call hcall
    obtain ⟨origin', pc?, he, hpc⟩ := h i call hcall
    by_cases hie : i = e
    · subst hie
      exact ⟨origin, none, State.stop_executions_self, by simp⟩
    · exact ⟨origin', pc?, (State.stop_executions_of_ne hie).trans he, hpc⟩

theorem callsAfterClaim_of_reachable (h : (system config).Reachable s) : CallsAfterClaim s :=
  System.Reachable.invariant (P := CallsAfterClaim)
    (by simp [CallsAfterClaim, system, State.initial])
    (fun _ _ _ _ hp hs => callsAfterClaim_step hp hs) h

/-- A request at its claim that conflicts with a stored record is rejected from then on. -/
theorem rejected_of_conflict (h : (system config).Reachable s) {pc : Pc}
    (he : s.executions e = some ⟨.create request, some pc⟩)
    (hpc : pc.Conflicting s.now request error strict) (hclaim : pc.claiming = true)
    (hc : Conflict config s.db s.now request error) : Rejected config s e request error strict := by
  refine ⟨hc, ⟨some pc, he, fun p hp => ?_⟩, fun outcome ho => ?_, fun call hcall => ?_⟩
  · cases hp
    exact hpc
  · obtain ⟨origin, hend⟩ := (invariant_of_reachable h).ended e outcome ho
    rw [he] at hend
    cases hend
  · obtain ⟨origin, pc?, hplace, hnot⟩ := callsAfterClaim_of_reachable h e call hcall
    rw [he] at hplace
    cases hplace
    rw [hnot pc rfl] at hclaim
    cases hclaim

/-- A rejected request that is not stopped is answered by at most as many of its own statements as
it has left. -/
theorem Rejected.answered (hr : (system config).Reachable s)
    (h : Rejected config s e request error strict) {pc : Pc}
    (he : s.executions e = some ⟨.create request, some pc⟩) :
    ∃ n ≤ pc.remaining, ∃ s', (system config).run s (List.replicate n (.run e {})) = some s' ∧
      ∃ outcome, (e, outcome) ∈ s'.answers := by
  induction hn : pc.remaining using Nat.strong_induction_on generalizing s pc with
  | _ n ih =>
    subst hn
    have hi := invariant_of_reachable hr
    obtain ⟨hdb, hrej, hnext⟩ := h.run (c := {}) hi he
    have hstep : (system config).step s (.run e {}) = some ((s.withDb s.db).proceed e
        (.create request) (advance config s.now {} s.db pc).2) := by
      simp only [system, NovaPay.Transaction.step, he, Nat.zero_le, if_true]
      rw [hdb]
    rcases hnext with ⟨outcome, heq⟩ | ⟨pc', heq, hlt⟩
    · refine ⟨1, ?_, _, by rw [List.replicate_one, System.run, hstep]; rfl, outcome,
        State.mem_proceed_answers.mpr (.inl ⟨rfl, heq⟩)⟩
      cases pc <;> simp [Pc.remaining]
    · rw [heq] at hrej hstep
      obtain ⟨m, hm, s', hrun, hans⟩ := ih pc'.remaining hlt (hr.next hstep) hrej
        State.proceed_executions_self rfl
      exact ⟨m + 1, by omega, s', by rw [List.replicate_succ, System.run, hstep]; exact hrun, hans⟩

/-- An execution at the insert of a row that the CHECK constraints refuse, or past it. -/
def Doomed (request : CreateRequest) (e : ExecId) (s : State) : Prop :=
  (s.executions e = some ⟨.create request, some (.claimInsert request)⟩ ∨
    s.executions e = some ⟨.create request, none⟩) ∧
  ∀ outcome, (e, outcome) ∈ s.answers → outcome = .error internalServerError

theorem Doomed.step (hs : ¬request.command.Storable) (h : Doomed request e s) {a : Action}
    (hstep : step config s a = some s') : Doomed request e s' := by
  obtain ⟨hplace, hanswers⟩ := h
  have hother : ∀ (db : Database) (i : ExecId) (origin : Origin) (next : Next), i ≠ e →
      Doomed request e ((s.withDb db).proceed i origin next) := by
    intro db i origin next hne
    refine ⟨?_, fun outcome ho => ?_⟩
    · rw [State.proceed_executions_of_ne hne.symm]
      exact hplace
    · rcases State.mem_proceed_answers.mp ho with ⟨rfl, -⟩ | ho
      · exact absurd rfl hne
      · exact hanswers outcome ho
  rcases step_cases hstep with ⟨elapsed, -, rfl⟩ | ⟨i, origin, next, -, hfree, rfl, -⟩ |
    ⟨i, c, origin, pc, -, hrun, -, rfl⟩ | ⟨i, origin, pc, -, hrun, rfl⟩
  · exact ⟨hplace, hanswers⟩
  · by_cases hie : i = e
    · subst hie
      rcases hplace with hplace | hplace <;> rw [hfree] at hplace <;> cases hplace
    · exact hother s.db i origin next hie
  · by_cases hie : i = e
    · subst hie
      rcases hplace with hplace | hplace <;> rw [hrun] at hplace <;> cases hplace
      have hanswer : advance config s.now c s.db (.claimInsert request) =
          (s.db, .answer (.error internalServerError)) := by
        simp only [advance, runClaimInsert, insertClaim_rejected hs]
      rw [hanswer]
      refine ⟨.inr State.proceed_executions_self, fun outcome ho => ?_⟩
      rcases State.mem_proceed_answers.mp ho with ⟨-, ho⟩ | ho
      · exact (Next.answer.inj ho).symm
      · exact hanswers outcome ho
    · exact hother _ i origin _ hie
  · by_cases hie : i = e
    · subst hie
      rcases hplace with hplace | hplace <;> rw [hrun] at hplace <;> cases hplace
      exact ⟨.inr State.stop_executions_self, hanswers⟩
    · refine ⟨?_, hanswers⟩
      rw [State.stop_executions_of_ne (Ne.symm hie)]
      exact hplace

/-- A request whose row the CHECK constraints refuse is answered at its insert without a look at its key. -/
theorem doomed_of_steps (h : (system config).Reachable s) (hs : ¬request.command.Storable)
    (he : s.executions e = some ⟨.create request, some (.claimInsert request)⟩)
    (hsteps : (system config).Steps s s') : Doomed request e s' := by
  refine System.Steps.preserves (P := Doomed request e) (fun _ _ _ _ hp hstep => hp.step hs hstep) h ?_ hsteps
  refine ⟨.inl he, fun outcome ho => ?_⟩
  obtain ⟨origin, hend⟩ := (invariant_of_reachable h).ended e outcome ho
  rw [he] at hend
  cases hend

/-- Every client and key have at most one record and one transfer, and every answer to their
requests shows that transfer. A request at its lookup, its insert or its recovery that meets a
stored record with another hash, or with its own hash after the replay window, is answered with
the error for it, unless it is at its insert with a row that the CHECK constraints exclude: then the
database refuses the row before it looks at the key. Whatever follows, it changes no row, calls no
service, and unless it is stopped it is answered after at most three statements. -/
theorem one_transfer_per_key (h : (system config).Reachable s) :
    (∀ r ∈ s.db.records.rows, ∀ q ∈ s.db.records.rows,
      r.clientId = q.clientId → r.key = q.key → r = q) ∧
    (∀ r ∈ s.db.records.rows, ∀ t ∈ s.db.transfers.rows, ∀ u ∈ s.db.transfers.rows,
      t.id = r.transferId → u.id = r.transferId → t = u) ∧
    (∀ e request httpStatus body, (e, .result httpStatus body) ∈ s.answers →
      s.executions e = some ⟨.create request, none⟩ →
      ∃ r ∈ s.db.records.rows, r.clientId = request.clientId ∧ r.key = request.key ∧
        body.transferId = r.transferId) ∧
    ∀ e request pc error, s.executions e = some ⟨.create request, some pc⟩ →
      (pc = .claimLookup request ∨ pc = .claimInsert request ∨ pc = .claimRecover request) →
      Conflict config s.db s.now request error →
      ∀ s', (system config).Steps s s' →
        (∀ outcome, (e, outcome) ∈ s'.answers →
          ((pc = .claimInsert request → request.command.Storable) → outcome = .error error) ∧
          (pc = .claimInsert request → ¬request.command.Storable →
            outcome = .error internalServerError)) ∧
        (∀ call, (e, call) ∉ s'.calls) ∧
        (∀ choice s'', step config s' (.run e choice) = some s'' → s''.db = s'.db) ∧
        ∀ pc', s'.executions e = some ⟨.create request, some pc'⟩ →
          ∃ n ≤ 3, ∃ s'', (system config).run s' (List.replicate n (.run e {})) = some s'' ∧
            ∃ outcome, (e, outcome) ∈ s''.answers := by
  have hi := invariant_of_reachable h
  refine ⟨fun r hr q hq hc hk => Database.record_eq_of_key hr hq hc hk,
    fun r _ t ht u hu htr hur => Database.transfer_eq ht hu (htr.trans hur.symm),
    fun e request httpStatus body ho he => ?_,
    fun e request pc error he hplace hconflict s' hsteps => ?_⟩
  · obtain ⟨t, ⟨r, hr, hc, hk, -⟩, -, rfl, -⟩ := hi.answered e _ httpStatus body ho he
    obtain ⟨hmem, hid⟩ := Database.recordOf_eq_some_iff.mp hr
    exact ⟨r, hmem, hc, hk, hid.symm⟩
  · have hrej : Rejected config s e request error
        (¬(pc = .claimInsert request ∧ ¬request.command.Storable)) := by
      refine rejected_of_conflict h he ?_ ?_ hconflict
      · rcases hplace with rfl | rfl | rfl
        · rfl
        · exact ⟨rfl, fun hs => by simpa using hs⟩
        · rfl
      · rcases hplace with rfl | rfl | rfl <;> rfl
    have hrej' := System.Steps.preserves
      (P := fun s => Rejected config s e request error
        (¬(pc = .claimInsert request ∧ ¬request.command.Storable)))
      (fun _ _ _ hr hp hs => hp.step (invariant_of_reachable hr) hs) h hrej hsteps
    have hr' := h.steps hsteps
    refine ⟨fun outcome ho => ⟨fun hstorable => ?_, fun hinsert hnot => ?_⟩, hrej'.calls,
      fun choice s'' hs => ?_, fun pc' he' => ?_⟩
    · rcases hrej'.answers outcome ho with herror | ⟨hstrict, hnot, -⟩
      · exact herror
      · exact absurd (hstorable (not_not.mp hstrict).1) hnot
    · exact (doomed_of_steps h hnot (hinsert ▸ he) hsteps).2 outcome ho
    · obtain ⟨pc?, hplace', -⟩ := hrej'.place
      rcases step_cases hs with ⟨_, ha, -⟩ | ⟨_, _, _, ha, -⟩ | ⟨_, _, origin, pc', ha, hrun, -, rfl⟩ |
        ⟨_, _, _, ha, -⟩ <;> cases ha
      rw [hplace'] at hrun
      cases hrun
      exact (hrej'.run (invariant_of_reachable hr') hplace').1
    · obtain ⟨n, hn, s'', hrun, hans⟩ := hrej'.answered hr' he'
      exact ⟨n, hn.trans (by cases pc' <;> simp [Pc.remaining]), s'', hrun, hans⟩

/-- `domesticRequest` with another amount. -/
def otherRequest : CreateRequest where
  clientId := "client-a"
  key := "order-1"
  command := .domestic
    { senderWalletId := .ofUuid senderWallet
      recipientWalletId := .ofUuid recipientWallet
      amount := ⟨⟨3000, 2⟩, by decide⟩
      currency := usd }

/-- The digests of the canonical forms of `domesticRequest` and `otherRequest`. -/
def twoDigests : Json → Digest
  | .object [_, _, _, _, (_, .decimal ⟨2500000000, 8⟩), _] =>
    0x310870ff3d1870390e1de34c7d96354406d836d82396a656761bf6d479f0ca4d
  | _ => 0xb25c857c724d923d2047676e7325c251171e46f885428b6c5a1f361e1d037777

/-- The theorem where `otherRequest` arrives after `domesticRequest` created its transfer. -/
theorem one_transfer_per_key_otherRequest :
    ∃ s, (system ⟨twoDigests, 30000⟩).run .initial
        [.request 0 (.create domesticRequest), .run 0 {}, .run 0 { ids := ⟨7, 8, 9⟩ },
          .request 1 (.create otherRequest)] = some s ∧
      ∀ s', (system ⟨twoDigests, 30000⟩).Steps s s' →
        ∀ outcome, (1, outcome) ∈ s'.answers → outcome = .error payloadMismatch := by
  have hrun : ((system ⟨twoDigests, 30000⟩).run .initial
      [.request 0 (.create domesticRequest), .run 0 {}, .run 0 { ids := ⟨7, 8, 9⟩ },
        .request 1 (.create otherRequest)]).map (fun s =>
          (s.executions 1, s.db.records.rows.map fun r => (r.clientId, r.key, r.requestHash))) =
      some (some ⟨.create otherRequest, some (.claimLookup otherRequest)⟩,
        [("client-a", "order-1", 0x310870ff3d1870390e1de34c7d96354406d836d82396a656761bf6d479f0ca4d)]) := by
    decide +kernel
  obtain ⟨s, hs, heq⟩ := Option.map_eq_some_iff.mp hrun
  obtain ⟨he, hrecords⟩ := Prod.mk.inj heq
  have hconflict : Conflict ⟨twoDigests, 30000⟩ s.db s.now otherRequest payloadMismatch := by
    obtain ⟨r, hr, hkey⟩ : ∃ r ∈ s.db.records.rows, (r.clientId, r.key, r.requestHash) =
        ("client-a", "order-1", 0x310870ff3d1870390e1de34c7d96354406d836d82396a656761bf6d479f0ca4d) := by
      apply List.mem_map.mp
      rw [hrecords]
      exact List.mem_singleton.mpr rfl
    simp only [Prod.mk.injEq] at hkey
    refine ⟨r, hr, hkey.1, hkey.2.1, .inl ⟨?_, rfl⟩⟩
    rw [hkey.2.2]
    decide +kernel
  refine ⟨s, hs, fun s' hsteps outcome ho => ?_⟩
  exact (((one_transfer_per_key (System.reachable_of_run hs)).2.2.2 1 otherRequest
    (.claimLookup otherRequest) payloadMismatch he (.inl rfl) hconflict s' hsteps).1 outcome ho).1
      fun hinsert => nomatch hinsert

/-- The amount `0.0`. -/
def zeroAmount : MoneyText := ⟨⟨0, 1⟩, by decide⟩

/-- `domesticRequest` with an amount of zero. -/
def zeroRequest : CreateRequest where
  clientId := "client-a"
  key := "order-1"
  command := .domestic
    { senderWalletId := .ofUuid senderWallet
      recipientWalletId := .ofUuid recipientWallet
      amount := zeroAmount
      currency := usd }

/-- The digests of the canonical forms of the three requests. -/
def threeDigests : Json → Digest
  | .object [_, _, _, _, (_, .decimal ⟨0, 8⟩), _] =>
    0x67e3b9fd8360f3cfc1d60bbdcf7bc76a2bc0286588a2d3507b93c8207c3990ca
  | value => twoDigests value

/-- `zeroRequest` looks its key up before the claim of `domesticRequest` commits, and inserts after it. -/
def racedRun : List Action := [
  .request 0 (.create domesticRequest),
  .request 1 (.create zeroRequest),
  .run 0 {},
  .run 1 {},
  .run 0 { ids := ⟨7, 8, 9⟩ }]

/-- The request that lost the race has another hash, and is answered with an internal server error. -/
theorem raced_request_unanswered : ¬ ∀ s, (system ⟨threeDigests, 30000⟩).Reachable s →
    ∀ e request pc error, s.executions e = some ⟨.create request, some pc⟩ →
      (pc = .claimLookup request ∨ pc = .claimInsert request ∨ pc = .claimRecover request) →
      Conflict ⟨threeDigests, 30000⟩ s.db s.now request error →
      ∀ s', (system ⟨threeDigests, 30000⟩).Steps s s' →
        ∀ outcome, (e, outcome) ∈ s'.answers → outcome = .error error := by
  intro hall
  have hrun : ((system ⟨threeDigests, 30000⟩).run .initial racedRun).any (fun s =>
      decide (s.executions 1 = some ⟨.create zeroRequest, some (.claimInsert zeroRequest)⟩) &&
      s.db.records.rows.any (fun r => decide (r.clientId = "client-a" ∧ r.key = "order-1" ∧
        r.requestHash ≠ zeroRequest.command.requestHash threeDigests)) &&
      ((system ⟨threeDigests, 30000⟩).step s (.run 1 {})).any fun s' =>
        decide ((1, .error internalServerError) ∈ s'.answers)) = true := by
    decide +kernel
  obtain ⟨s, hs, hchecks⟩ := (Option.any_eq_true _ _).mp hrun
  simp only [Bool.and_eq_true, decide_eq_true_eq] at hchecks
  obtain ⟨⟨he, hrecord⟩, hlast⟩ := hchecks
  obtain ⟨r, hr, hkey⟩ := List.any_eq_true.mp hrecord
  obtain ⟨hclient, hkey, hhash⟩ := of_decide_eq_true hkey
  obtain ⟨s', hstep, hanswer⟩ := (Option.any_eq_true _ _).mp hlast
  have hmismatch := hall s (System.reachable_of_run hs) 1 zeroRequest _ payloadMismatch he (.inr (.inl rfl))
    ⟨r, hr, hclient, hkey, .inl ⟨hhash, rfl⟩⟩ s' (.single hstep) _ (of_decide_eq_true hanswer)
  exact absurd hmismatch (by decide)

end NovaPay.Transaction
