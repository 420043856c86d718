import NovaPay.Fx.Quotes
import NovaPay.Ledger.Calls
import NovaPay.Transaction.Enabled
import NovaPay.Transaction.Lockstep

/-!
# Recovery of open transfers

A transfer that a stopped or undecided execution left open is picked up by `findStale` and by a
forced reconcile. The reconcile runs alone here, and every service answers it definitively.
-/

namespace NovaPay.Transaction

open DecimalArithmetic Relational TransitionSystem

variable {config : Config} {now : Time} {db : Database} {t : Transfer}

/-- The answer of Account for a wallet it does not have. -/
def walletNotFound : HttpError := ⟨404, "WALLET_NOT_FOUND", "Wallet not found."⟩

/-- What the other services answer one reconcile, which asks each of them once. -/
structure Answers where
  account : Except UpstreamError (WalletValidation × WalletValidation)
  quote : Reply QuoteResponse
  found : Reply LedgerPosting
  posting : Reply LedgerPosting

/-- A posting of the transfer, which no transfer was completed with yet. -/
structure Posts (db : Database) (t : Transfer) (posting : LedgerPosting) : Prop where
  externalReference : posting.externalReference = t.id
  fresh : ∀ u ∈ db.transfers.rows, u.ledgerTransactionId ≠ some posting.id

/-- Every service decides: Account knows the wallets or not, FX consumes the quote for the
transfer or rejects it, the Ledger has or makes the posting or rejects it. -/
structure Definitive (db : Database) (t : Transfer) (answers : Answers) : Prop where
  account : (∃ wallets, answers.account = .ok wallets) ∨
    answers.account = .error (.http walletNotFound)
  quote : (∃ (q : Fx.FxQuote) (date : Date), q.check = true ∧ q.consumedByTransferId = some t.id ∧
      answers.quote = .ok (some (Fx.toResponse q date))) ∨
    ∃ error ∈ Fx.consumeRejections, answers.quote = .error (.http error)
  found : (∃ posting, Posts db t posting ∧ answers.found = .ok (some posting)) ∨
    answers.found = .error (.http Ledger.postingNotFound)
  posting : (∃ posting, Posts db t posting ∧ answers.posting = .ok (some posting)) ∨
    ∃ error ∈ Ledger.validationError :: Ledger.postRejections, answers.posting = .error (.http error)

/-- A choice that takes the answers, with a clock reading of the past. -/
structure Takes (now : Time) (answers : Answers) (c : Choice) : Prop where
  account : c.account = answers.account
  quote : c.quote = answers.quote
  found : c.found = answers.found
  posting : c.posting = answers.posting
  startedAt : c.startedAt ≤ now

/-- The first `n` steps of an execution that runs alone. -/
def runs (e : ExecId) : (ℕ → Choice) → ℕ → List Action
  | _, 0 => []
  | cs, n + 1 => .run e (cs 0) :: runs e (fun i => cs (i + 1)) n

/-- Alone on the database, with the choices of a sequence, the code that goes on as given answers
and leaves a database with the property. -/
inductive Finishes (config : Config) (now : Time) (P : Database → Prop) :
    (ℕ → Choice) → Database → Next → Prop
  | answer {cs : ℕ → Choice} {db : Database} {outcome : Outcome} :
      P db → Finishes config now P cs db (.answer outcome)
  | goto {cs : ℕ → Choice} {db : Database} {pc : Pc} :
      Finishes config now P (fun i => cs (i + 1)) (advance config now (cs 0) db pc).1
        (advance config now (cs 0) db pc).2 → Finishes config now P cs db (.goto pc)

/-- To finish is to be answered after some number of steps of the system. -/
theorem finishes_iff {s : State} {e : ExecId} {origin : Origin} {next : Next} {cs : ℕ → Choice}
    {P : Database → Prop} (he : s.executions e = some ⟨origin, next.pc?⟩)
    (hstarted : ∀ i, (cs i).startedAt ≤ s.now) :
    Finishes config s.now P cs s.db next ↔ ∃ n s', (system config).run s (runs e cs n) = some s' ∧
      s'.executions e = some ⟨origin, none⟩ ∧ P s'.db := by
  have hstep : ∀ (s : State) (cs : ℕ → Choice) (pc : Pc), s.executions e = some ⟨origin, some pc⟩ →
      (cs 0).startedAt ≤ s.now → step config s (.run e (cs 0)) =
        some ((s.withDb (advance config s.now (cs 0) s.db pc).1).proceed e origin
          (advance config s.now (cs 0) s.db pc).2) := by
    intro s cs pc he hnow
    simp only [step, he, if_pos hnow]
  have hnext : ∀ (s : State) (cs : ℕ → Choice) (pc : Pc),
      ((s.withDb (advance config s.now (cs 0) s.db pc).1).proceed e origin
        (advance config s.now (cs 0) s.db pc).2).executions e =
          some ⟨origin, (advance config s.now (cs 0) s.db pc).2.pc?⟩ :=
    fun _ _ _ => State.proceed_executions_self
  constructor
  · intro h
    generalize hdb : s.db = db at h
    generalize hnow : s.now = now at h
    induction h generalizing s with
    | answer hp => exact ⟨0, s, rfl, he, hdb ▸ hp⟩
    | @goto cs db pc _ ih =>
      subst hdb hnow
      obtain ⟨n, s', hrun, hend, hp⟩ := ih (hnext s cs pc)
        (fun i => hstarted (i + 1)) rfl rfl
      refine ⟨n + 1, s', ?_, hend, hp⟩
      change ((system config).step s (.run e (cs 0))).bind _ = _
      rw [show (system config).step s (.run e (cs 0)) = _ from hstep s cs pc he (hstarted 0)]
      exact hrun
  · rintro ⟨n, s', hrun, hend, hp⟩
    induction n generalizing s next cs with
    | zero =>
      obtain rfl : s = s' := Option.some.inj hrun
      cases next with
      | goto pc =>
        rw [he] at hend
        cases hend
      | answer outcome => exact .answer hp
    | succ n ih =>
      change ((system config).step s (.run e (cs 0))).bind _ = _ at hrun
      cases next with
      | goto pc =>
        rw [show (system config).step s (.run e (cs 0)) = _ from hstep s cs pc he (hstarted 0)] at hrun
        exact .goto (ih (hnext s cs pc) (fun i => hstarted (i + 1)) hrun)
      | answer outcome =>
        have hstuck : (system config).step s (.run e (cs 0)) = none := by
          change step config s (.run e (cs 0)) = none
          simp only [step, he, Next.pc?]
        rw [hstuck] at hrun
        cases hrun

/-- The transfer has ended. -/
def Ended (transferId : Uuid) (db : Database) : Prop :=
  ∃ u, db.findTransfer transferId = some u ∧ (u.status = .completed ∨ u.status = .failed)

section Paths

variable {cs : ℕ → Choice} {answers : Answers}

theorem finishes_fail (hl : Lockstep db) (ht : db.findTransfer t.id = some t)
    (ho : t.status.open = true) {error : HttpError} (he : Storable error) :
    Finishes config now (Ended t.id) cs db (.goto (.fail t.id error)) := by
  obtain ⟨db', u, hfail⟩ : ∃ db' u, fail db t.id error (cs 0).date = .ok (db', u, true) :=
    fail_enabled ht ho he
  obtain ⟨-, v, r, hid, rfl, hmoved⟩ :=
    (fail_ok hl hfail).resolve_left fun h => Bool.noConfusion h.1
  refine .goto ?_
  simp only [advance, runFail, hfail]
  refine .answer ⟨v.fail error (cs 0).date, ?_, .inr rfl⟩
  have hfind := hmoved.replaces.findTransfer
  rwa [show (v.fail error (cs 0).date).id = t.id from hid] at hfind

theorem finishes_complete (hl : Lockstep db) (ht : db.findTransfer t.id = some t)
    (hp : t.status = .processing) {ledgerTransactionId : Uuid}
    (hfresh : ∀ u ∈ db.transfers.rows, u.ledgerTransactionId ≠ some ledgerTransactionId) :
    Finishes config now (Ended t.id) cs db (.goto (.complete t.id (some ledgerTransactionId))) := by
  obtain ⟨db', u, hcomplete⟩ : ∃ db' u, complete db t.id (some ledgerTransactionId)
      (cs 0).startedAt (cs 0).date = .ok (db', u, true) := complete_enabled hl ht hp hfresh
  obtain ⟨-, v, r, posting, -, hid, rfl, hmoved⟩ :=
    (complete_ok hl hcomplete).resolve_left fun h => Bool.noConfusion h.1
  refine .goto ?_
  simp only [advance, runComplete, hcomplete]
  refine .answer ⟨v.complete (some posting) (cs 0).startedAt (cs 0).date, ?_, .inl rfl⟩
  have hfind := hmoved.replaces.findTransfer
  rwa [show (v.complete (some posting) (cs 0).startedAt (cs 0).date).id = t.id from hid] at hfind

/-- A processing transfer has what its posting needs. -/
theorem postingCommand_isSome (hl : Lockstep db) (ht : db.findTransfer t.id = some t)
    (hp : t.status = .processing) (requestId : UuidText) :
    ∃ command, postingCommand t requestId = some command := by
  have hcheck : t.check = true :=
    db.transfers.checked t (Database.findTransfer_eq_some_iff.mp ht).1
  have hterms := (hl.agree t.id t ht).1
  simp only [Transfer.check, Transfer.executionCheck, Bool.and_eq_true] at hcheck
  have hexec := hcheck.1.2
  cases htype : t.type with
  | domestic => simp [postingCommand, hterms.domestic htype, htype]
  | international =>
    simp only [htype, hp, ne_eq, not_true_eq_false, decide_false, Bool.false_or, Bool.and_eq_true,
      reduceCtorEq] at hexec
    obtain ⟨targetAmount, ha⟩ := Option.isSome_iff_exists.mp hexec.1
    obtain ⟨lockedFxRate, hr⟩ := Option.isSome_iff_exists.mp hexec.2
    simp [postingCommand, ha, hr]

theorem validateWallets_storable {sender recipient : WalletValidation} {error : HttpError}
    (h : validateWallets t sender recipient = .error error) : Storable error := by
  unfold validateWallets at h
  split at h
  · cases h
    exact ⟨by decide +kernel, by decide +kernel, by decide⟩
  split at h
  · cases h
    exact ⟨by decide +kernel, by decide +kernel, by decide⟩
  split at h
  · cases h
    exact ⟨by decide +kernel, by decide +kernel, by decide⟩
  · cases h

theorem postRejections_storable : ∀ error ∈ Ledger.validationError :: Ledger.postRejections,
    undecided error.status = false ∧ Varchar.fitsColumn 80 (Varchar.assign 80 error.code) = true ∧
      Varchar.fitsColumn 300 (Varchar.assign 300 error.message) = true ∧
      100 ≤ error.status ∧ error.status ≤ 599 := by decide +kernel

/-- Every rejection of the Ledger fails the transfer. -/
theorem finishes_rejected (hl : Lockstep db) (ht : db.findTransfer t.id = some t)
    (hp : t.status = .processing) {error : HttpError}
    (he : error ∈ Ledger.validationError :: Ledger.postRejections) :
    Finishes config now (Ended t.id) cs db (handleLedgerFailure t (.http error)) := by
  obtain ⟨hdecided, hcode, hmessage, hlow, hhigh⟩ := postRejections_storable error he
  simp only [handleLedgerFailure, hdecided, Bool.false_eq_true, if_false]
  refine finishes_fail hl ht (by simp [hp, TransferStatus.open]) ⟨hcode, hmessage, ?_⟩
  dsimp only
  split
  · exact ⟨by norm_num, by norm_num⟩
  · exact ⟨hlow, hhigh⟩

/-- `process` settles a processing transfer. -/
theorem finishes_process (hl : Lockstep db) (ht : db.findTransfer t.id = some t)
    (hp : t.status = .processing) (hdef : Definitive db t answers)
    (htakes : ∀ i, Takes now answers (cs i)) :
    Finishes config now (Ended t.id) cs db (.goto (.processRead t.id)) := by
  have ho : t.status.open = true := by simp [hp, TransferStatus.open]
  refine .goto ?_
  simp only [advance, withTransfer, ht, enterProcess, hp, ne_eq, not_true_eq_false, if_false]
  refine .goto ?_
  simp only [advance, afterValidation, (htakes 1).account]
  rcases hdef.account with ⟨⟨sender, recipient⟩, hwallets⟩ | hnone
  · rw [hwallets]
    dsimp only
    cases hvalid : validateWallets t sender recipient with
    | error error => exact finishes_fail hl ht ho (validateWallets_storable hvalid)
    | ok valid =>
      obtain ⟨command, hcommand⟩ := postingCommand_isSome hl ht hp (cs 1).requestId
      simp only [zero_add, hcommand]
      refine .goto ?_
      simp only [advance, runPost, (htakes 2).posting]
      rcases hdef.posting with ⟨posting, hposts, hposting⟩ | ⟨error, he, hposting⟩
      · rw [hposting]
        exact finishes_complete hl ht hp hposts.fresh
      · rw [hposting]
        exact finishes_rejected hl ht hp he
  · rw [hnone]
    simp only [handleAccountFailure, walletNotFound, if_true]
    exact finishes_fail hl ht ho ⟨by decide, by decide, by decide⟩

/-- Answers stay definitive when the transfer moves on without a posting. -/
theorem Definitive.moved {db' : Database} {u : Transfer} {r r' : IdempotencyRecord}
    (h : Definitive db t answers) (hm : Moved db db' t r u r')
    (hledger : u.ledgerTransactionId = t.ledgerTransactionId) : Definitive db' u answers := by
  have hid : u.id = t.id := hm.move.same.id.symm
  have hposts : ∀ posting, Posts db t posting → Posts db' u posting := by
    intro posting hp
    refine ⟨hp.externalReference.trans hid.symm, fun v hv => ?_⟩
    have hfind := Database.findTransfer_eq_some_iff.mpr ⟨hv, rfl⟩
    rw [hm.replaces.transfer] at hfind
    split at hfind
    · obtain rfl := Option.some.inj hfind
      rw [hledger]
      exact hp.fresh t (Database.findTransfer_eq_some_iff.mp hm.found).1
    · exact hp.fresh v (Database.findTransfer_eq_some_iff.mp hfind).1
  refine ⟨h.account, ?_, ?_, ?_⟩
  · rw [hid]
    exact h.quote
  · exact h.found.imp_left fun ⟨posting, hp, heq⟩ => ⟨posting, hposts posting hp, heq⟩
  · exact h.posting.imp_left fun ⟨posting, hp, heq⟩ => ⟨posting, hposts posting hp, heq⟩

/-- A move leads to `process`, which settles the transfer. -/
theorem finishes_moved (hl : Lockstep db) {db' : Database} {u : Transfer}
    {r r' : IdempotencyRecord} (hm : Moved db db' t r u r') (hp : u.status = .processing)
    (hledger : u.ledgerTransactionId = t.ledgerTransactionId) (hdef : Definitive db t answers)
    (htakes : ∀ i, Takes now answers (cs i)) :
    Finishes config now (Ended t.id) cs db' (.goto (.processRead t.id)) := by
  have hid : u.id = t.id := hm.move.same.id.symm
  rw [← hid]
  exact finishes_process (hm.change.lockstep hl) hm.replaces.findTransfer hp
    (hdef.moved hm hledger) htakes

theorem finishes_processing (hl : Lockstep db) (ht : db.findTransfer t.id = some t)
    (hp : t.status = .processing) (hdef : Definitive db t answers)
    (htakes : ∀ i, Takes now answers (cs i)) :
    Finishes config now (Ended t.id) cs db (.goto (.reconcileRead t.id true)) := by
  refine .goto ?_
  simp only [advance, withTransfer, ht, reconcileFrom, hp, reduceCtorEq, false_and, if_false, ne_eq,
    not_true_eq_false]
  refine .goto ?_
  simp only [advance, (htakes 1).found]
  rcases hdef.found with ⟨posting, hposts, hfound⟩ | hnone
  · rw [hfound]
    exact finishes_complete hl ht hp hposts.fresh
  rw [hnone]
  simp only [afterByReference, Ledger.postingNotFound, ne_eq, not_true_eq_false, if_false,
    Bool.not_true, Bool.false_and, Bool.false_eq_true, if_true]
  obtain ⟨db', hretry⟩ : ∃ db', claimProcessingRetry db t none (cs 2).date = .ok (db', true) :=
    claimProcessingRetry_enabled ht hp
  obtain ⟨-, v, r, hid, -, hmoved⟩ :=
    (claimProcessingRetry_ok hl hretry).resolve_left fun h => Bool.noConfusion h.1
  obtain rfl : v = t := by
    have hfound := hmoved.found
    rw [hid, ht] at hfound
    exact (Option.some.inj hfound).symm
  refine .goto ?_
  simp only [advance, runClaimRetry, zero_add, Nat.reduceAdd, hretry]
  exact finishes_moved hl hmoved hp rfl hdef fun i => htakes _

theorem consumeRejections_storable : ∀ error ∈ Fx.consumeRejections, error ≠ Fx.quoteAccessDenied →
    undecided error.status = false ∧ Varchar.fitsColumn 80 (Varchar.assign 80 error.code) = true ∧
      Varchar.fitsColumn 300 (Varchar.assign 300 error.message) = true := by
  decide +kernel

theorem finishes_step {pc : Pc} {db' : Database} {next : Next} {P : Database → Prop}
    (h : advance config now (cs 0) db pc = (db', next)) :
    Finishes config now P cs db (.goto pc) ↔ Finishes config now P (fun i => cs (i + 1)) db' next := by
  constructor
  · intro hf
    obtain _ | hf := hf
    rwa [h] at hf
  · intro hf
    refine .goto ?_
    rwa [h]

/-- A pending international transfer reaches the consumption of its quote. -/
theorem finishes_pending_iff (ht : db.findTransfer t.id = some t) (hi : t.type = .international)
    (hp : t.status = .pending) {quoteId : Uuid} (hq : t.fxQuoteId = some quoteId)
    {P : Database → Prop} :
    Finishes config now P cs db (.goto (.reconcileRead t.id true)) ↔
      Finishes config now P (fun i => cs (i + 3)) db (runConsume (cs 2) t) := by
  have hread : advance config now (cs 0) db (.reconcileRead t.id true) =
      (db, .goto (.reconcileReload t.id)) := by
    simp [advance, withTransfer, ht, reconcileFrom, hi, hp]
  have hreload : advance config now (cs 1) db (.reconcileReload t.id) =
      (db, .goto (.consume t quoteId)) := by
    simp [advance, runReconcileReload, ht, enterPrepareInternational, hi, hp, hq]
  have hconsume : advance config now (cs 2) db (.consume t quoteId) =
      (db, runConsume (cs 2) t) := rfl
  exact (finishes_step hread).trans ((finishes_step hreload).trans (finishes_step hconsume))

/-- The consumed quote prepares the transfer. -/
theorem finishes_consumed (hl : Lockstep db) (ht : db.findTransfer t.id = some t)
    (hi : t.type = .international) (hp : t.status = .pending) {q : Fx.FxQuote} {date : Date}
    (hq : q.check = true) (hids : ∀ i, FreshRowIds db (cs i).ids)
    (hdef : Definitive db t answers) (htakes : ∀ i, Takes now answers (cs i)) :
    Finishes config now (Ended t.id) cs db (.goto (.prepare t (Fx.toResponse q date))) := by
  simp only [Fx.FxQuote.check, Bool.and_eq_true, decide_eq_true_eq] at hq
  obtain ⟨⟨⟨⟨⟨-, -⟩, ha⟩, hr⟩, -⟩, -⟩ := hq
  have hamount : Numeric.ofRat? (Fx.toResponse q date).targetAmount.value = some q.targetAmount := by
    change Numeric.ofRat? (toFixed 8 q.targetAmount.value).value = _
    rw [Numeric.value_toFixed, Numeric.ofRat?_value]
  have hrate : Numeric.ofRat? (Fx.toResponse q date).rate.value = some q.rate := by
    change Numeric.ofRat? (toFixed 12 q.rate.value).value = _
    rw [Numeric.value_toFixed, Numeric.ofRat?_value]
  generalize Fx.toResponse q date = quote at hamount hrate ⊢
  obtain ⟨db', hprepare⟩ : ∃ db', prepareInternational db t quote (cs 0).ids.senderRowId
      (cs 0).ids.recipientRowId (cs 0).date = .ok (db', true) :=
    prepareInternational_enabled hl ht hi hp hamount ha hrate hr (hids 0)
  have hsame : ∀ v, db.findTransfer t.id = some v → SameTransfer t v := by
    intro v hv
    obtain rfl := Option.some.inj (ht.symm.trans hv)
    exact .refl t
  obtain ⟨-, v, r, _, _, hid, -, -, -, hmoved⟩ :=
    (prepareInternational_ok hl hsame hprepare).resolve_left fun h => Bool.noConfusion h.1
  obtain rfl : v = t := by
    have hfound := hmoved.found
    rw [hid, ht] at hfound
    exact (Option.some.inj hfound).symm
  have hstep : advance config now (cs 0) db (.prepare v quote) = (db', .goto (.processRead v.id)) := by
    change runPrepare (cs 0) db v quote = _
    unfold runPrepare
    rw [hprepare]
  exact (finishes_step hstep).mpr (finishes_moved hl hmoved rfl rfl hdef fun i => htakes _)

/-- What FX rejects is failed, but for a denied access, which is left undecided. -/
theorem finishes_rejected_iff (hl : Lockstep db) (ht : db.findTransfer t.id = some t)
    (hp : t.status = .pending) {error : HttpError} (he : error ∈ Fx.consumeRejections) :
    Finishes config now (Ended t.id) cs db (handleFxFailure t (.http error)) ↔
      error ≠ Fx.quoteAccessDenied := by
  by_cases hdenied : error = Fx.quoteAccessDenied
  · subst hdenied
    refine iff_of_false (fun h => ?_) (fun h => h rfl)
    change Finishes config now (Ended t.id) cs db (.answer (processingResult t)) at h
    obtain ⟨⟨u, hu, hstatus⟩⟩ | _ := h
    obtain rfl := Option.some.inj (ht.symm.trans hu)
    rcases hstatus with hs | hs <;> rw [hp] at hs <;> cases hs
  · obtain ⟨hdecided, hcode, hmessage⟩ := consumeRejections_storable error he hdenied
    refine iff_of_true ?_ hdenied
    simp only [handleFxFailure, hdecided, Bool.false_eq_true, if_false]
    refine finishes_fail hl ht (by simp [hp, TransferStatus.open]) ⟨hcode, hmessage, ?_⟩
    dsimp only
    split <;> exact ⟨by norm_num, by norm_num⟩

theorem finishes_consume (hl : Lockstep db) (ht : db.findTransfer t.id = some t)
    (hi : t.type = .international) (hp : t.status = .pending) {c : Choice}
    (hc : c.quote = answers.quote) (hids : ∀ i, FreshRowIds db (cs i).ids)
    (hdef : Definitive db t answers) (htakes : ∀ i, Takes now answers (cs i)) :
    Finishes config now (Ended t.id) cs db (runConsume c t) ↔
      answers.quote ≠ .error (.http Fx.quoteAccessDenied) := by
  rcases hdef.quote with ⟨q, date, hq, -, hquote⟩ | ⟨error, he, hquote⟩
  · rw [hquote] at hc ⊢
    simp only [runConsume, hc]
    exact iff_of_true (finishes_consumed hl ht hi hp hq hids hdef htakes) (fun h => nomatch h)
  · rw [hquote] at hc ⊢
    simp only [runConsume, hc]
    rw [finishes_rejected_iff hl ht hp he]
    simp

end Paths

/-- `findStale` passes over pending domestic transfers, and over nothing else that is open. -/
theorem mem_findStale_iff {date : Date} (ht : db.findTransfer t.id = some t)
    (ho : t.status.open = true)
    (hstale : (t.updatedAt : ℤ) ≤ date - config.staleProcessingMs) :
    t.id ∈ findStale config db date ↔ t.type = .international ∨ t.status = .processing := by
  obtain ⟨hmem, -⟩ := Database.findTransfer_eq_some_iff.mp ht
  have hself : t.id ∈ findStale config db date ↔ (t.status = .processing ∨
      t.status = .pending ∧ t.type = .international) := by
    simp only [findStale, List.mem_map, List.mem_filter, Bool.and_eq_true, Bool.or_eq_true,
      decide_eq_true_eq]
    constructor
    · rintro ⟨u, ⟨hu, -, hselected⟩, hid⟩
      obtain rfl := Database.transfer_eq hu hmem hid
      exact hselected
    · intro hselected
      exact ⟨t, ⟨hmem, hstale, hselected⟩, rfl⟩
  rw [hself]
  rcases TransferStatus.open_iff.mp ho with hp | hp <;> simp [hp]

section Reconcile

variable {s : State} {e : ExecId} {cs : ℕ → Choice} {answers : Answers}

/-- A forced reconcile that runs alone, as a run of the system. -/
theorem reconcile_finishes_iff {transferId : Uuid} {P : Database → Prop} (he : s.executions e = none)
    (hstarted : ∀ i, (cs i).startedAt ≤ s.now) :
    (∃ n s', (system config).run s (.request e (.reconcile transferId true) :: runs e cs n) = some s' ∧
      s'.executions e = some ⟨.reconcile transferId true, none⟩ ∧ P s'.db) ↔
      Finishes config s.now P cs s.db (.goto (.reconcileRead transferId true)) := by
  have hrequest : (system config).step s (.request e (.reconcile transferId true)) =
      some (s.proceed e (.reconcile transferId true) (.goto (.reconcileRead transferId true))) := by
    simp only [system, step, he, Origin.entry]
  have hrun : ∀ n, (system config).run s (.request e (.reconcile transferId true) :: runs e cs n) =
      (system config).run (s.proceed e (.reconcile transferId true)
        (.goto (.reconcileRead transferId true))) (runs e cs n) := by
    intro n
    rw [System.run, hrequest, Option.bind_some]
  simp only [hrun]
  exact (finishes_iff (s := s.proceed e _ _) State.proceed_executions_self hstarted).symm

/-- A stale open transfer is selected, and one forced reconcile under definitive answers completes
or fails it, exactly when it is international or processing and, while it is pending, FX does not
deny access to its quote. -/
theorem open_transfers_recover (hr : (system config).Reachable s)
    (ht : s.db.findTransfer t.id = some t) (ho : t.status.open = true) (he : s.executions e = none)
    (hdef : Definitive s.db t answers) (htakes : ∀ i, Takes s.now answers (cs i))
    (hids : ∀ i, FreshRowIds s.db (cs i).ids) :
    ((∀ date : Date, (t.updatedAt : ℤ) ≤ date - config.staleProcessingMs →
        t.id ∈ findStale config s.db date) ∧
      ∃ n s', (system config).run s (.request e (.reconcile t.id true) :: runs e cs n) = some s' ∧
        s'.executions e = some ⟨.reconcile t.id true, none⟩ ∧ Ended t.id s'.db) ↔
      (t.type = .international ∨ t.status = .processing) ∧
        (t.status = .pending → answers.quote ≠ .error (.http Fx.quoteAccessDenied)) := by
  have hl := (invariant_of_reachable hr).lockstep
  have hstale : (∀ date : Date, (t.updatedAt : ℤ) ≤ date - config.staleProcessingMs →
      t.id ∈ findStale config s.db date) ↔ t.type = .international ∨ t.status = .processing := by
    constructor
    · intro h
      have hlate : (t.updatedAt : ℤ) ≤
          (t.updatedAt + config.staleProcessingMs : ℕ) - config.staleProcessingMs := by
        push_cast
        omega
      exact (mem_findStale_iff ht ho hlate).mp (h _ hlate)
    · exact fun h date hd => (mem_findStale_iff ht ho hd).mpr h
  rw [hstale, reconcile_finishes_iff he fun i => (htakes i).startedAt]
  refine and_congr_right fun hkind => ?_
  rcases TransferStatus.open_iff.mp ho with hp | hp
  · have hi : t.type = .international := hkind.resolve_right fun h => by
      rw [hp] at h
      cases h
    have hcheck : t.check = true :=
      s.db.transfers.checked t (Database.findTransfer_eq_some_iff.mp ht).1
    obtain ⟨quoteId, hq⟩ : ∃ quoteId, t.fxQuoteId = some quoteId := by
      simp only [Transfer.check, Transfer.typeCheck, hi, Bool.and_eq_true, Bool.or_eq_true] at hcheck
      obtain ⟨⟨⟨⟨-, htype⟩, -⟩, -⟩, -⟩ := hcheck
      rcases htype with htype | htype
      · simp at htype
      · exact Option.isSome_iff_exists.mp htype.1.2
    rw [finishes_pending_iff ht hi hp hq, finishes_consume hl ht hi hp (htakes 2).quote
      (fun i => hids _) hdef (fun i => htakes _)]
    simp [hp]
  · exact iff_of_true (finishes_processing hl ht hp hdef htakes) fun h => by
      rw [hp] at h
      cases h

end Reconcile

/-- A request whose process stops after the claim, before the transfer is started. -/
def claimedRun : List Action := [
  .request 0 (.create domesticRequest),
  .run 0 {},
  .run 0 { ids := ⟨7, 8, 9⟩ },
  .stop 0]

/-- The transfer of `claimedRun` stays pending for good: `findStale` never selects it, and a
forced reconcile answers without an upstream call and leaves it as it is. -/
theorem claimed_transfer_stuck : ∃ s t, (system domesticConfig).Reachable s ∧
    s.db.findTransfer t.id = some t ∧ t.status = .pending ∧
    (∀ date, t.id ∉ findStale domesticConfig s.db date) ∧
    ∃ s', (system domesticConfig).run s [.request 1 (.reconcile t.id true), .run 1 {}] = some s' ∧
      s'.executions 1 = some ⟨.reconcile t.id true, none⟩ ∧ s'.calls = [] ∧
      s'.db.findTransfer t.id = some t := by
  have hclaimed : ((system domesticConfig).run .initial claimedRun).map (fun s =>
      (s.executions 1).isNone && s.calls.isEmpty && (s.db.findTransfer 7).any fun t =>
        decide (t.id = 7) && decide (t.status = .pending) && decide (t.type = .domestic)) =
      some true := by decide +kernel
  obtain ⟨s, hs, hstate⟩ := Option.map_eq_some_iff.mp hclaimed
  simp only [Bool.and_eq_true, Option.isNone_iff_eq_none, List.isEmpty_iff, Option.any_eq_true,
    decide_eq_true_eq] at hstate
  obtain ⟨⟨he, hcalls⟩, t, ht, ⟨hid, hp⟩, htype⟩ := hstate
  rw [← hid] at ht
  have hwithTransfer : withTransfer s.db t.id (fun t => reconcileFrom t true) =
      .answer (resultForTransfer t) := by
    simp [withTransfer, ht, reconcileFrom, hp, htype]
  refine ⟨s, t, System.reachable_of_run hs, ht, hp, fun date hmem => ?_, ?_⟩
  · simp only [findStale, List.mem_map, List.mem_filter, Bool.and_eq_true, Bool.or_eq_true,
      decide_eq_true_eq] at hmem
    obtain ⟨u, ⟨hu, -, hselected⟩, huid⟩ := hmem
    obtain rfl := Database.transfer_eq hu (Database.findTransfer_eq_some_iff.mp ht).1 huid
    simp [hp, htype] at hselected
  · refine ⟨((s.proceed 1 (.reconcile t.id true) (.goto (.reconcileRead t.id true))).withDb s.db).proceed
      1 (.reconcile t.id true) (.answer (resultForTransfer t)), ?_, State.proceed_executions_self,
      hcalls, ht⟩
    simp [System.run, system, step, he, Origin.entry, Next.pc?, advance, hwithTransfer]

/-- A request whose process stops after it started the transfer. -/
def startedRun : List Action := [
  .request 0 (.create domesticRequest),
  .run 0 {},
  .run 0 { ids := ⟨7, 8, 9⟩ },
  .run 0 { date := 1 },
  .stop 0]

/-- Account knows the wallets, the Ledger has no posting yet and makes it. -/
def recoveryAnswers : Answers where
  account := .ok (walletOf senderWallet "client-a" 1, walletOf recipientWallet "client-b" 2)
  quote := .error (.http Fx.quoteNotFound)
  found := .error (.http Ledger.postingNotFound)
  posting := .ok (some ⟨100, 7, .transfer, []⟩)

def recoveryChoice : Choice where
  ids := ⟨0, 10, 11⟩
  account := recoveryAnswers.account
  quote := recoveryAnswers.quote
  found := recoveryAnswers.found
  posting := recoveryAnswers.posting

/-- The theorem after `startedRun`: a forced reconcile settles the transfer. -/
theorem open_transfers_recover_started : ∃ s, (system domesticConfig).run .initial startedRun = some s ∧
    ∃ n s', (system domesticConfig).run s
      (.request 1 (.reconcile 7 true) :: runs 1 (fun _ => recoveryChoice) n) = some s' ∧
        Ended 7 s'.db := by
  have hstarted : ((system domesticConfig).run .initial startedRun).map (fun s =>
      (s.executions 1).isNone && (s.db.transfers.rows.all fun u => u.ledgerTransactionId.isNone) &&
        (s.db.history.rows.all fun row => decide (row.id < 10)) &&
        (s.db.findTransfer 7).any fun t => decide (t.id = 7) && decide (t.status = .processing)) =
      some true := by decide +kernel
  obtain ⟨s, hs, hstate⟩ := Option.map_eq_some_iff.mp hstarted
  simp only [Bool.and_eq_true, Option.isNone_iff_eq_none, List.all_eq_true, Option.any_eq_true,
    decide_eq_true_eq] at hstate
  obtain ⟨⟨⟨he, hledger⟩, hhistory⟩, t, ht, hid, hp⟩ := hstate
  rw [← hid] at ht
  have hposts : Posts s.db t ⟨100, 7, .transfer, []⟩ := by
    refine ⟨hid.symm, fun u hu hposting => ?_⟩
    rw [hledger u hu] at hposting
    cases hposting
  have hids : FreshRowIds s.db recoveryChoice.ids := by
    refine ⟨by decide, fun row hrow => ?_, fun row hrow => ?_⟩
    · exact Nat.ne_of_lt (hhistory row hrow)
    · exact Nat.ne_of_lt (Nat.lt_succ_of_lt (hhistory row hrow))
  have hdef : Definitive s.db t recoveryAnswers :=
    ⟨.inl ⟨_, rfl⟩, .inr ⟨_, by decide, rfl⟩, .inr rfl, .inl ⟨_, hposts, rfl⟩⟩
  have htakes : ∀ _ : ℕ, Takes s.now recoveryAnswers recoveryChoice :=
    fun _ => ⟨rfl, rfl, rfl, rfl, Nat.zero_le _⟩
  have hrecover := (open_transfers_recover (System.reachable_of_run hs) ht
    (by simp [hp, TransferStatus.open]) he hdef htakes fun _ => hids).mpr
    ⟨.inr hp, fun h => by rw [hp] at h; cases h⟩
  obtain ⟨-, n, s', hrun, -, hended⟩ := hrecover
  rw [hid] at hrun hended
  exact ⟨s, hs, n, s', hrun, hended⟩

end NovaPay.Transaction
