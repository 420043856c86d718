import NovaPay.Transaction.Provenance

/-!
# Which statement leads to which

The statements of the service as a graph: what an execution waits at next and what it knows then, what a
statement does to the row of a transfer, and that a claimed transfer stays PENDING until its execution
lets it start.
-/

namespace NovaPay.Transaction

open DecimalArithmetic Relational TransitionSystem

/-- Statements by their place before and after the first read of `process`. -/
def Pc.stage : Pc → ℕ
  | .processRead _ => 1
  | .validate _ => 2
  | .post _ _ _ _ => 3
  | .complete _ _ | .fail _ _ | .reread _ => 4
  | _ => 0

/-- Which statement an execution goes on with, and what it knows then. -/
inductive Leads (db db' : Database) : Pc → Pc → Prop
  | found {request : CreateRequest} {t : Transfer} {r : IdempotencyRecord} :
      db.findTransfer t.id = some t → Leads db db' (.claimLookup request) (.databaseNow t r)
  | absent {request : CreateRequest} : Leads db db' (.claimLookup request) (.claimInsert request)
  | conflict {request : CreateRequest} : Leads db db' (.claimInsert request) (.claimRecover request)
  | domestic {request : CreateRequest} {t : Transfer} : db.findTransfer t.id = none →
      db'.findTransfer t.id = some t → t.status = .pending → t.type = .domestic →
      Leads db db' (.claimInsert request) (.transition t.id)
  | international {request : CreateRequest} {t : Transfer} {quoteId : Uuid} :
      db'.findTransfer t.id = some t → Leads db db' (.claimInsert request) (.consume t quoteId)
  | recovered {request : CreateRequest} {t : Transfer} {r : IdempotencyRecord} :
      db.findTransfer t.id = some t → Leads db db' (.claimRecover request) (.databaseNow t r)
  | unbound {request : CreateRequest} {quoteId : Uuid} :
      Leads db db' (.claimRecover request) (.claimQuoteLookup quoteId)
  | replay {t : Transfer} {r : IdempotencyRecord} :
      Leads db db' (.databaseNow t r) (.reconcileRead t.id false)
  | started {id : Uuid} : (∀ t, db.findTransfer id = some t → t.status = .pending →
      ∃ t', db'.findTransfer id = some t' ∧ t'.version = t.version + 1) →
      Leads db db' (.transition id) (.processRead id)
  | reload {id : Uuid} {force : Bool} {t : Transfer} : db.findTransfer id = some t → t.status = .pending →
      Leads db db' (.reconcileRead id force) (.reconcileReload id)
  | asked {t : Transfer} {force : Bool} : db.findTransfer t.id = some t →
      Leads db db' (.reconcileRead t.id force) (.byReference t force)
  | reloaded {t : Transfer} {quoteId : Uuid} : db.findTransfer t.id = some t → t.status = .pending →
      Leads db db' (.reconcileReload t.id) (.consume t quoteId)
  | posted {t : Transfer} {force : Bool} {x : Option Uuid} :
      Leads db db' (.byReference t force) (.complete t.id x)
  | stale {t : Transfer} {force : Bool} {staleBefore : Option ℤ} :
      Leads db db' (.byReference t force) (.claimRetry t staleBefore)
  | retried {t u u' : Transfer} {staleBefore : Option ℤ} : db.findTransfer t.id = some u →
      u.version = t.version → db'.findTransfer t.id = some u' → u'.version = u.version + 1 →
      Leads db db' (.claimRetry t staleBefore) (.processRead t.id)
  | outrun {t : Transfer} {staleBefore : Option ℤ} : db' = db →
      Leads db db' (.claimRetry t staleBefore) (.reread t.id)
  | quoted {t : Transfer} {quoteId : Uuid} {quote : QuoteResponse} :
      Leads db db' (.consume t quoteId) (.prepare t quote)
  | unquoted {t : Transfer} {quoteId : Uuid} {error : HttpError} :
      Leads db db' (.consume t quoteId) (.fail t.id error)
  | prepared {t u u' : Transfer} {quote : QuoteResponse} : db.findTransfer t.id = some u →
      u.status = .pending → db'.findTransfer t.id = some u' → u'.version = u.version + 1 →
      Leads db db' (.prepare t quote) (.processRead t.id)
  | unprepared {t : Transfer} {quote : QuoteResponse} : db' = db →
      Leads db db' (.prepare t quote) (.reread t.id)
  | began {t : Transfer} : db.findTransfer t.id = some t → Leads db db' (.processRead t.id) (.validate t)
  | refused {t : Transfer} {error : HttpError} : Leads db db' (.validate t) (.fail t.id error)
  | validated {t : Transfer} {sender recipient : WalletValidation} {posting : PostingCommand} :
      Leads db db' (.validate t) (.post t sender recipient posting)
  | paid {t : Transfer} {sender recipient : WalletValidation} {posting : PostingCommand} {x : Option Uuid} :
      Leads db db' (.post t sender recipient posting) (.complete t.id x)
  | rejected {t : Transfer} {sender recipient : WalletValidation} {posting : PostingCommand}
      {error : HttpError} : Leads db db' (.post t sender recipient posting) (.fail t.id error)

variable {config : Config} {db db' : Database} {now : Time} {c : Choice} {pc pc' : Pc} {origin : Origin}
  {t u : Transfer}

def Next.Leads (db db' : Database) (pc : Pc) : Next → Prop
  | .goto pc' => Transaction.Leads db db' pc pc'
  | .answer _ => True

theorem runClaimLookup_leads {request : CreateRequest} :
    (runClaimLookup config db request).Leads db db (.claimLookup request) := by
  unfold runClaimLookup enterHandleExisting
  repeat' split
  · trivial
  · next hfind _ =>
    obtain ⟨-, -, -, ht, -⟩ := Database.findByKey_eq_some hfind
    exact .found (Database.findTransfer_eq_some_iff.mpr ⟨ht, rfl⟩)
  · exact .absent

theorem enterPrepareInternational_leads (h : ∀ quoteId, t.status = .pending → Leads db db' pc (.consume t quoteId)) :
    (enterPrepareInternational t).Leads db db' pc := by
  unfold enterPrepareInternational
  repeat' split
  · next hs => exact h _ hs.1
  · trivial
  · trivial

theorem insertClaim_created (hl : Lockstep db) {request : CreateRequest}
    (h : insertClaim config request c db = .ok (db', t)) : (∃ r, Created db db' t r) ∧ t.version = 0 ∧
      ∀ command, request.command = .domestic command → t.type = .domestic := by
  unfold insertClaim at h
  split at h
  · obtain ⟨amount, -, rfl, hc⟩ := claim_ok hl h
    exact ⟨⟨_, hc⟩, rfl, fun _ _ => rfl⟩
  · next heq =>
    obtain ⟨amount, -, rfl, hc⟩ := claimInternational_ok hl h
    refine ⟨⟨_, hc⟩, rfl, fun command hd => ?_⟩
    rw [heq] at hd
    cases hd

theorem runClaimInsert_leads (hl : Lockstep db) {request : CreateRequest} :
    (runClaimInsert config c db request).2.Leads db (runClaimInsert config c db request).1
      (.claimInsert request) := by
  unfold runClaimInsert
  split
  · next t hinsert =>
    obtain ⟨⟨r, hc⟩, -, hdomestic⟩ := insertClaim_created hl hinsert
    have hfound := hc.replaces.findTransfer
    unfold afterClaim
    split
    · next command hcommand => exact Leads.domestic hc.absent hfound hc.pending (hdomestic command hcommand)
    · exact enterPrepareInternational_leads fun quoteId _ => .international hfound
  · exact Leads.conflict
  · trivial

theorem runClaimRecover_leads {request : CreateRequest} :
    (runClaimRecover config db request).Leads db db (.claimRecover request) := by
  unfold runClaimRecover enterHandleExisting
  repeat' split
  · trivial
  · next hfind _ =>
    obtain ⟨-, -, -, ht, -⟩ := Database.findByKey_eq_some hfind
    exact .recovered (Database.findTransfer_eq_some_iff.mpr ⟨ht, rfl⟩)
  · exact .unbound
  · trivial

theorem runTransition_leads (hl : Lockstep db) {id : Uuid} :
    (runTransition c db id).2.Leads db (runTransition c db id).1 (.transition id) := by
  unfold runTransition
  split
  · next htr =>
    refine Leads.started fun t ht hs => ?_
    obtain ⟨-, hnone⟩ | ⟨u, r, rfl, hm⟩ := transition_ok hl htr
    · exact absurd hs (hnone t ht)
    · obtain rfl := Option.some.inj (hm.found.symm.trans ht)
      exact ⟨_, hm.replaces.findTransfer, rfl⟩
  · trivial

theorem reconcileFrom_leads {force : Bool} (ht : db.findTransfer t.id = some t) :
    (reconcileFrom t force).Leads db db (.reconcileRead t.id force) := by
  unfold reconcileFrom
  repeat' split
  · next hs => exact .reload ht hs.1
  · trivial
  · exact .asked ht

theorem afterByReference_leads {force : Bool} {reply : Reply LedgerPosting} :
    (afterByReference config c t force reply).Leads db db (.byReference t force) := by
  unfold afterByReference
  repeat' split
  · exact .posted
  · trivial
  · trivial
  · trivial
  · exact .stale
  · exact .stale

theorem runClaimRetry_leads (hl : Lockstep db) {staleBefore : Option ℤ} :
    (runClaimRetry c db t staleBefore).2.Leads db (runClaimRetry c db t staleBefore).1
      (.claimRetry t staleBefore) := by
  unfold runClaimRetry
  split
  · next hr =>
    obtain ⟨hfalse, -⟩ | ⟨-, v, r, hid, hversion, hm⟩ := claimProcessingRetry_ok hl hr
    · cases hfalse
    · exact Leads.retried (hid ▸ hm.found) hversion (hid ▸ hm.replaces.findTransfer) rfl
  · next hr =>
    obtain ⟨-, rfl⟩ | ⟨htrue, -⟩ := claimProcessingRetry_ok hl hr
    · exact Leads.outrun rfl
    · cases htrue
  · trivial

theorem runConsume_leads {quoteId : Uuid} : (runConsume c t).Leads db db (.consume t quoteId) := by
  unfold runConsume handleFxFailure
  repeat' split
  · exact .quoted
  · trivial
  · trivial
  · trivial
  · exact .unquoted
  · exact .unquoted

theorem runPrepare_leads (hl : Lockstep db) {quote : QuoteResponse}
    (hsame : ∀ v, db.findTransfer t.id = some v → SameTransfer t v) :
    (runPrepare c db t quote).2.Leads db (runPrepare c db t quote).1 (.prepare t quote) := by
  unfold runPrepare
  split
  · next hr =>
    obtain ⟨hfalse, -⟩ | ⟨-, v, r, _, _, hid, hpending, -, -, hm⟩ := prepareInternational_ok hl hsame hr
    · cases hfalse
    · exact Leads.prepared (hid ▸ hm.found) hpending (hid ▸ hm.replaces.findTransfer) rfl
  · next hr =>
    obtain ⟨-, rfl⟩ | ⟨htrue, -⟩ := prepareInternational_ok hl hsame hr
    · exact Leads.unprepared rfl
    · cases htrue
  · trivial

theorem afterValidation_leads : (afterValidation c t c.account).Leads db db (.validate t) := by
  unfold afterValidation handleAccountFailure
  repeat' split
  all_goals first | exact .refused | exact .validated | trivial

theorem runPost_leads {sender recipient : WalletValidation} {posting : PostingCommand} :
    (runPost c t).Leads db db (.post t sender recipient posting) := by
  unfold runPost handleLedgerFailure
  repeat' split
  all_goals first | exact .paid | exact .rejected | trivial

theorem advance_leads (hl : Lockstep db) (hpc : PcOk config db origin pc) :
    (advance config now c db pc).2.Leads db (advance config now c db pc).1 pc := by
  have hfound : ∀ {id : Uuid} {t : Transfer}, db.findTransfer id = some t → t.id = id :=
    fun h => (Database.findTransfer_eq_some_iff.mp h).2
  cases pc with
  | claimLookup request => exact runClaimLookup_leads
  | claimInsert request => exact runClaimInsert_leads hl
  | claimRecover request => exact runClaimRecover_leads
  | claimQuoteLookup quoteId =>
    change (runClaimQuoteLookup db quoteId).Leads db db _
    unfold runClaimQuoteLookup
    split <;> trivial
  | databaseNow t r =>
    change (handleExisting now t r).Leads db db _
    unfold handleExisting
    repeat' split
    all_goals first | exact .replay | trivial
  | transition id => exact runTransition_leads hl
  | reconcileRead id force =>
    change (withTransfer db id fun t => reconcileFrom t force).Leads db db _
    unfold withTransfer
    split
    · next t ht =>
      obtain rfl := hfound ht
      exact reconcileFrom_leads ht
    · trivial
  | reconcileReload id =>
    change (runReconcileReload db id).Leads db db _
    unfold runReconcileReload
    split
    · next t ht =>
      obtain rfl := hfound ht
      exact enterPrepareInternational_leads fun quoteId hs => .reloaded ht hs
    · trivial
  | byReference t force => exact afterByReference_leads
  | claimRetry t staleBefore => exact runClaimRetry_leads hl
  | consume t quoteId => exact runConsume_leads
  | prepare t quote =>
    obtain ⟨u, hu, hprog⟩ := hpc.snapshot t rfl
    exact runPrepare_leads hl fun v hv => Option.some.inj (hu.symm.trans hv) ▸ hprog.same
  | processRead id =>
    change (withTransfer db id enterProcess).Leads db db _
    unfold withTransfer enterProcess
    repeat' split
    · trivial
    · next t ht _ =>
      obtain rfl := hfound ht
      exact .began ht
    · trivial
  | validate t => exact afterValidation_leads
  | post t sender recipient posting => exact runPost_leads
  | complete id x =>
    change (runComplete c db id x).2.Leads db _ _
    unfold runComplete
    split <;> trivial
  | fail id error =>
    change (runFail c db id error).2.Leads db _ _
    unfold runFail
    split <;> trivial
  | reread id =>
    change (withTransfer db id fun t => .answer (resultForTransfer t)).Leads db db _
    unfold withTransfer
    split <;> trivial

/-! ### Rows -/

/-- What a statement does to the row of a transfer. -/
inductive RowStep (db : Database) (pc : Pc) (id : Uuid) (u' : Transfer) : Prop
  | kept : db.findTransfer id = some u' → RowStep db pc id u'
  | created : db.findTransfer id = none → u'.version = 0 → RowStep db pc id u'
  | moved {u : Transfer} : db.findTransfer id = some u → u'.version = u.version + 1 →
      u'.status ≠ .pending →
      (u.status = .pending → u.type = .domestic → pc = .transition id ∨ ∃ error, pc = .fail id error) →
      RowStep db pc id u'

theorem Move.version_eq {t' : Transfer} {r r' : IdempotencyRecord} (h : Move t r t' r') :
    t'.version = t.version + 1 := by
  cases h <;> rfl

theorem Move.not_pending {t' : Transfer} {r r' : IdempotencyRecord} (h : Move t r t' r') :
    t'.status ≠ .pending := by
  cases h with
  | retry date hp => simp [Transfer.retry, hp]
  | _ => simp [Transfer.start, Transfer.prepare, Transfer.complete, Transfer.fail]

theorem Moved.rowStep {r r' : IdempotencyRecord} {t' : Transfer} (h : Moved db db' t r t' r') {id : Uuid}
    (hu : db'.findTransfer id = some u)
    (hwho : t.status = .pending → t.type = .domestic →
      pc = .transition t.id ∨ ∃ error, pc = .fail t.id error) : RowStep db pc id u := by
  rw [h.replaces.transfer] at hu
  split at hu
  · next hid =>
    obtain rfl : id = t.id := hid.trans h.move.same.id.symm
    cases hu
    exact .moved h.found h.move.version_eq h.move.not_pending hwho
  · exact .kept hu

theorem advance_row (hl : Lockstep db) (hpc : PcOk config db origin pc) {id : Uuid}
    (hu : (advance config now c db pc).1.findTransfer id = some u) : RowStep db pc id u := by
  have hsnapshot : ∀ t v, pc.transfer? = some t → db.findTransfer t.id = some v → Progress t v := by
    intro t v ht hv
    obtain ⟨w, hw, hprog⟩ := hpc.snapshot t ht
    exact Option.some.inj (hw.symm.trans hv) ▸ hprog
  cases pc with
  | claimInsert request =>
    change (runClaimInsert config c db request).1.findTransfer id = some u at hu
    unfold runClaimInsert at hu
    split at hu
    · next t hinsert =>
      obtain ⟨⟨r, hc⟩, hversion, -⟩ := insertClaim_created hl hinsert
      rw [hc.replaces.transfer] at hu
      split at hu
      · next hid =>
        cases hu
        exact .created (hid ▸ hc.absent) hversion
      · exact .kept hu
    · exact .kept hu
    · exact .kept hu
  | transition i =>
    change (runTransition c db i).1.findTransfer id = some u at hu
    unfold runTransition at hu
    split at hu
    · next htr =>
      obtain ⟨rfl, -⟩ | ⟨t, r, rfl, hm⟩ := transition_ok hl htr
      · exact .kept hu
      · exact hm.rowStep hu fun _ _ => .inl rfl
    · exact .kept hu
  | claimRetry t staleBefore =>
    have hrow : ∀ db' claimed, claimProcessingRetry db t staleBefore c.date = .ok (db', claimed) →
        db'.findTransfer id = some u → RowStep db (.claimRetry t staleBefore) id u := by
      intro db' claimed hr hu'
      obtain ⟨-, rfl⟩ | ⟨-, v, r, hid, -, hm⟩ := claimProcessingRetry_ok hl hr
      · exact .kept hu'
      · refine hm.rowStep hu' fun hs _ => ?_
        have hpending := (hsnapshot t v rfl (hid ▸ hm.found)).pending hs
        rw [show t.status = .processing from hpc.checked] at hpending
        cases hpending
    change (runClaimRetry c db t staleBefore).1.findTransfer id = some u at hu
    unfold runClaimRetry at hu
    split at hu
    · next hr => exact hrow _ _ hr hu
    · next hr => exact hrow _ _ hr hu
    · exact .kept hu
  | prepare t quote =>
    have hrow : ∀ db' prepared, prepareInternational db t quote c.ids.senderRowId c.ids.recipientRowId c.date =
        .ok (db', prepared) → db'.findTransfer id = some u → RowStep db (.prepare t quote) id u := by
      intro db' prepared hr hu'
      obtain ⟨-, rfl⟩ | ⟨-, v, r, _, _, hid, -, -, -, hm⟩ :=
        prepareInternational_ok hl (fun v hv => (hsnapshot t v rfl hv).same) hr
      · exact .kept hu'
      · refine hm.rowStep hu' fun _ hd => ?_
        have htype := (hsnapshot t v rfl (hid ▸ hm.found)).same.type
        rw [hpc.checked.2.1, hd] at htype
        cases htype
    change (runPrepare c db t quote).1.findTransfer id = some u at hu
    unfold runPrepare at hu
    split at hu
    · next hr => exact hrow _ _ hr hu
    · next hr => exact hrow _ _ hr hu
    · exact .kept hu
  | complete i x =>
    change (runComplete c db i x).1.findTransfer id = some u at hu
    unfold runComplete at hu
    split at hu
    · next hr =>
      obtain ⟨-, rfl, -, -⟩ | ⟨-, t, r, x, -, rfl, rfl, hm⟩ := complete_ok hl hr
      · exact .kept hu
      · refine hm.rowStep hu fun hs _ => ?_
        have hallowed := hm.move.allowed
        simp [hs, Transfer.complete, statusAllowed] at hallowed
    · exact .kept hu
  | fail i error =>
    change (runFail c db i error).1.findTransfer id = some u at hu
    unfold runFail at hu
    split at hu
    · next hr =>
      obtain ⟨-, rfl, -, -⟩ | ⟨-, t, r, rfl, rfl, hm⟩ := fail_ok hl hr
      · exact .kept hu
      · exact hm.rowStep hu fun _ _ => .inr ⟨error, rfl⟩
    · exact .kept hu
  | _ => exact .kept hu

/-- The tables and the executions: a PENDING row has version 0, and so has a snapshot of one. A domestic
transfer stays PENDING until the one execution that claimed it lets it start. -/
structure Unstarted (s : State) : Prop where
  rows : ∀ id t, s.db.findTransfer id = some t → t.status = .pending → t.version = 0
  snapshots : ∀ e origin pc t, s.executions e = some ⟨origin, some pc⟩ → pc.transfer? = some t →
    t.status = .pending → t.version = 0
  pending : ∀ e origin id, s.executions e = some ⟨origin, some (.transition id)⟩ →
    ∃ t, s.db.findTransfer id = some t ∧ t.status = .pending ∧ t.type = .domestic
  alone : ∀ e e' origin origin' id, s.executions e = some ⟨origin, some (.transition id)⟩ →
    s.executions e' = some ⟨origin', some (.transition id)⟩ → e = e'
  failing : ∀ e origin id error, s.executions e = some ⟨origin, some (.fail id error)⟩ →
    ∃ t, s.db.findTransfer id = some t ∧ (t.status = .pending → t.type = .international)

section Runs

variable {s s' : State} {e : ExecId} {a : Action}

theorem unstarted_initial : Unstarted .initial where
  rows := fun id t h => by simp [State.initial, Database.empty, Database.findTransfer, findBy] at h
  snapshots := by simp [State.initial]
  pending := by simp [State.initial]
  alone := by simp [State.initial]
  failing := by simp [State.initial]

theorem row_of_step (hi : Invariant config s) (h : step config s a = some s') {id : Uuid}
    (hu : s'.db.findTransfer id = some u) : s.db.findTransfer id = some u ∨ ∃ e choice origin pc,
      a = .run e choice ∧ s.executions e = some ⟨origin, some pc⟩ ∧ RowStep s.db pc id u := by
  rcases step_cases h with ⟨_, -, rfl⟩ | ⟨_, _, _, -, -, rfl, -⟩ |
    ⟨e, choice, origin, pc, rfl, he, -, rfl⟩ | ⟨_, _, _, -, -, rfl⟩
  · exact .inl hu
  · exact .inl hu
  · exact .inr ⟨e, choice, origin, pc, rfl, he, advance_row hi.lockstep (hi.running e origin pc he) hu⟩
  · exact .inl hu

/-- An execution waits where it did, or where its request or its last statement leads. -/
theorem leads_of_step (hi : Invariant config s) (h : step config s a = some s')
    (he : s'.executions e = some ⟨origin, some pc'⟩) :
    (s.executions e = some ⟨origin, some pc'⟩ ∧ ∀ choice, a ≠ .run e choice) ∨
      (s.executions e = none ∧ pc'.stage = 0 ∧ pc'.transfer? = none ∧ ∀ id, pc' ≠ .transition id) ∨
      ∃ choice pc, a = .run e choice ∧ s.executions e = some ⟨origin, some pc⟩ ∧ Leads s.db s'.db pc pc' := by
  rcases step_cases h with ⟨elapsed, rfl, rfl⟩ | ⟨i, origin', next, rfl, hfree, rfl, hnext⟩ |
    ⟨i, choice, origin', pc, rfl, hi', -, rfl⟩ | ⟨i, origin', pc, rfl, hi', rfl⟩
  · exact .inl ⟨he, fun _ heq => Action.noConfusion heq⟩
  · by_cases hie : e = i
    · subst hie
      rw [State.proceed_executions_self] at he
      rcases hnext with ⟨pc, hentry, rfl⟩ | ⟨error, -, rfl⟩
      · cases he
        obtain ⟨request, rfl⟩ | ⟨id, force, rfl⟩ := entry_eq_ok hentry
        · exact .inr (.inl ⟨hfree, rfl, rfl, by simp⟩)
        · exact .inr (.inl ⟨hfree, rfl, rfl, by simp⟩)
      · cases he
    · rw [State.proceed_executions_of_ne hie] at he
      exact .inl ⟨he, fun _ heq => Action.noConfusion heq⟩
  · by_cases hie : e = i
    · subst hie
      have hleads : ((advance config s.now choice s.db pc).2).Leads s.db
          (advance config s.now choice s.db pc).1 pc := advance_leads hi.lockstep (hi.running e origin' pc hi')
      rw [State.proceed_executions_self] at he
      cases hgoto : (advance config s.now choice s.db pc).2 with
      | goto pc'' =>
        rw [hgoto] at he hleads
        cases he
        exact .inr (.inr ⟨choice, pc, rfl, hi', hleads⟩)
      | answer outcome =>
        rw [hgoto] at he
        cases he
    · rw [State.proceed_executions_of_ne hie] at he
      refine .inl ⟨he, fun choice' heq => hie ?_⟩
      cases heq
      rfl
  · by_cases hie : e = i
    · subst hie
      rw [State.stop_executions_self] at he
      cases he
    · rw [State.stop_executions_of_ne hie] at he
      exact .inl ⟨he, fun _ heq => Action.noConfusion heq⟩

/-- A snapshot was read before, or is a row now. -/
theorem Leads.snapshot (h : Leads db db' pc pc') (ht : pc'.transfer? = some t) :
    pc.transfer? = some t ∨ db.findTransfer t.id = some t ∨ db'.findTransfer t.id = some t := by
  cases h
  all_goals cases ht
  case found hfind | recovered hfind | asked hfind | began hfind => exact .inr (.inl hfind)
  case reloaded hfind _ => exact .inr (.inl hfind)
  case international hfind => exact .inr (.inr hfind)
  all_goals exact .inl rfl

theorem Unstarted.rows_step (hu : Unstarted s) (hi : Invariant config s) (h : step config s a = some s')
    (id : Uuid) (t : Transfer) (ht : s'.db.findTransfer id = some t) (hs : t.status = .pending) :
    t.version = 0 := by
  obtain hold | ⟨e, choice, origin, pc, -, -, hrow⟩ := row_of_step hi h ht
  · exact hu.rows id t hold hs
  · cases hrow with
    | kept hold => exact hu.rows id t hold hs
    | created _ hversion => exact hversion
    | moved _ _ hnot _ => exact absurd hs hnot

theorem Unstarted.pending_step (hu : Unstarted s) (hi : Invariant config s) (h : step config s a = some s')
    (e : ExecId) (origin : Origin) (id : Uuid)
    (he : s'.executions e = some ⟨origin, some (.transition id)⟩) :
    ∃ t, s'.db.findTransfer id = some t ∧ t.status = .pending ∧ t.type = .domestic := by
  obtain ⟨hold, hother⟩ | ⟨-, -, -, hne⟩ | ⟨choice, pc, -, -, hleads⟩ := leads_of_step hi h he
  · obtain ⟨t, ht, hs, hd⟩ := hu.pending e origin id hold
    obtain ⟨t', ht', hprog⟩ := (step_evolves hi h).transfer id t ht
    obtain hkept | ⟨e', choice, origin', pc, rfl, he', hrow⟩ := row_of_step hi h ht'
    · obtain rfl := Option.some.inj (ht.symm.trans hkept)
      exact ⟨t, ht', hs, hd⟩
    · cases hrow with
      | kept hkept =>
        obtain rfl := Option.some.inj (ht.symm.trans hkept)
        exact ⟨t, ht', hs, hd⟩
      | created hnone =>
        rw [hnone] at ht
        cases ht
      | moved hfound _ _ hwho =>
        obtain rfl := Option.some.inj (ht.symm.trans hfound)
        -- only the start of this execution or a failure moves the row, and neither is taken here
        obtain rfl | ⟨error, rfl⟩ := hwho hs hd
        · obtain rfl := hu.alone e e' origin origin' id hold he'
          exact absurd rfl (hother choice)
        · obtain ⟨u, hfind, htype⟩ := hu.failing e' origin' id error he'
          obtain rfl := Option.some.inj (ht.symm.trans hfind)
          rw [htype hs] at hd
          cases hd
  · exact absurd rfl (hne id)
  · cases hleads with
    | domestic _ hfound hs hd => exact ⟨_, hfound, hs, hd⟩

theorem Unstarted.alone_step (hu : Unstarted s) (hi : Invariant config s) (h : step config s a = some s')
    (e e' : ExecId) (origin origin' : Origin) (id : Uuid)
    (he : s'.executions e = some ⟨origin, some (.transition id)⟩)
    (he' : s'.executions e' = some ⟨origin', some (.transition id)⟩) : e = e' := by
  have hnew : ∀ (i : ExecId) (o : Origin) (choice : Choice) (pc : Pc),
      s.executions i = some ⟨o, some (.transition id)⟩ → ¬ Leads s.db s'.db pc (.transition id) := by
    intro i o choice pc hi' hleads
    obtain ⟨t, ht, -⟩ := hu.pending i o id hi'
    cases hleads with
    | domestic hnone =>
      rw [hnone] at ht
      cases ht
  obtain ⟨hold, -⟩ | ⟨-, -, -, hne⟩ | ⟨choice, pc, rfl, -, hleads⟩ := leads_of_step hi h he
  · obtain ⟨hold', -⟩ | ⟨-, -, -, hne⟩ | ⟨choice, pc, -, -, hleads⟩ := leads_of_step hi h he'
    · exact hu.alone e e' origin origin' id hold hold'
    · exact absurd rfl (hne id)
    · exact absurd hleads (hnew e origin choice pc hold)
  · exact absurd rfl (hne id)
  · obtain ⟨hold', -⟩ | ⟨-, -, -, hne⟩ | ⟨_, _, heq, -, -⟩ := leads_of_step hi h he'
    · exact absurd hleads (hnew e' origin' choice pc hold')
    · exact absurd rfl (hne id)
    · cases heq
      rfl

theorem Unstarted.failing_step (hu : Unstarted s) (hi : Invariant config s) (h : step config s a = some s')
    (e : ExecId) (origin : Origin) (id : Uuid) (error : HttpError)
    (he : s'.executions e = some ⟨origin, some (.fail id error)⟩) :
    ∃ t, s'.db.findTransfer id = some t ∧ (t.status = .pending → t.type = .international) := by
  have hev := step_evolves hi h
  have hsnap : ∀ t : Transfer, Snapshot s.db t → (t.status = .processing ∨ t.type = .international) →
      ∃ u, s'.db.findTransfer t.id = some u ∧ (u.status = .pending → u.type = .international) := by
    intro t hsnap ht
    obtain ⟨u, hfind, hprog⟩ := hev.snapshot hsnap
    refine ⟨u, hfind, fun hs => ?_⟩
    obtain ht | ht := ht
    · have hpending := hprog.pending hs
      rw [ht] at hpending
      cases hpending
    · exact hprog.same.type ▸ ht
  obtain ⟨hold, -⟩ | ⟨-, hstage, -⟩ | ⟨choice, pc, -, hbefore, hleads⟩ := leads_of_step hi h he
  · obtain ⟨t, ht, htype⟩ := hu.failing e origin id error hold
    obtain ⟨t', ht', hprog⟩ := hev.transfer id t ht
    exact ⟨t', ht', fun hs => hprog.same.type ▸ htype (hprog.pending hs)⟩
  · cases hstage
  · have hpc := hi.running e origin pc hbefore
    cases hleads with
    | unquoted => exact hsnap _ (hpc.snapshot _ rfl) (.inr hpc.checked.2.1)
    | refused => exact hsnap _ (hpc.snapshot _ rfl) (.inl hpc.checked)
    | rejected => exact hsnap _ (hpc.snapshot _ rfl) (.inl hpc.checked.1)

theorem Unstarted.step (hu : Unstarted s) (hi : Invariant config s) (h : step config s a = some s') :
    Unstarted s' where
  rows := hu.rows_step hi h
  snapshots := by
    intro e origin pc' t he ht hs
    obtain ⟨hold, -⟩ | ⟨-, -, hnone, -⟩ | ⟨choice, pc, -, hbefore, hleads⟩ := leads_of_step hi h he
    · exact hu.snapshots e origin pc' t hold ht hs
    · rw [hnone] at ht
      cases ht
    · obtain hbefore' | hrow | hrow := hleads.snapshot ht
      · exact hu.snapshots e origin pc t hbefore hbefore' hs
      · exact hu.rows t.id t hrow hs
      · exact hu.rows_step hi h t.id t hrow hs
  pending := hu.pending_step hi h
  alone := hu.alone_step hi h
  failing := hu.failing_step hi h

theorem version_of_step (hi : Invariant config s) (h : step config s a = some s') {id : Uuid}
    (ht : s.db.findTransfer id = some t) : ∃ t', s'.db.findTransfer id = some t' ∧ t.version ≤ t'.version := by
  obtain ⟨t', ht', -⟩ := (step_evolves hi h).transfer id t ht
  refine ⟨t', ht', ?_⟩
  have hkept : s.db.findTransfer id = some t' → t.version ≤ t'.version := fun hfind => by
    rw [Option.some.inj (ht.symm.trans hfind)]
  obtain hfind | ⟨-, -, -, pc, -, -, hrow⟩ := row_of_step hi h ht'
  · exact hkept hfind
  · cases hrow with
    | kept hfind => exact hkept hfind
    | created hnone =>
      rw [hnone] at ht
      cases ht
    | moved hfind hversion =>
      obtain rfl := Option.some.inj (ht.symm.trans hfind)
      omega

end Runs

end NovaPay.Transaction
