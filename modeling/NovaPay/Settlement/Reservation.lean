import NovaPay.Settlement.Quotes
import NovaPay.Transaction.Refusals
import NovaPay.Fx.Provenance

/-!
# A quote is kept for its client

Transaction binds a quote to the first transfer that names it, before FX is asked whose quote it is.
Where no other client's transfer gets to bind it, the client it was issued to is not told that it is
used, and can consume it until it expires.
-/

namespace NovaPay.Settlement

open DecimalArithmetic Relational TransitionSystem

variable {config : Config} {s s' : State} {a : Action} {clientId : Principal} {quoteId : Uuid}

/-- No other client's claim finds the quote unbound, and the quote is not marked expired between the
two statements of a consumption. -/
def KeepsQuoteFor (clientId : Principal) (quoteId : Uuid) (s : State) : Action → Prop
  | .transaction (.run e _) => ∀ origin request,
      s.transaction.executions e = some ⟨origin, some (.claimInsert request)⟩ →
      request.command.quoteId? = some quoteId →
      (∀ t ∈ s.transaction.db.transfers.rows, t.fxQuoteId ≠ some quoteId) →
      request.clientId = clientId
  | .fx (.run i _) => ∀ request arrivedAt now,
      s.fx.calls i = some ⟨request, arrivedAt, .running (.expire quoteId now)⟩ →
      (∃ q ∈ s.fx.quotes.rows, q.id = quoteId ∧ q.status = .active) →
      ∀ j command arrivedAt' now', s.fx.calls j ≠
        some ⟨.consume quoteId command, arrivedAt', .running (.claim quoteId command now')⟩
  | _ => True

/-- Nobody but FX says that a quote was used: neither Account and Ledger nor what stands between. -/
def RelaysRefusals (s : State) : Action → Prop
  | .transaction (.run e choice) => ∀ origin pc t error,
      s.transaction.executions e = some ⟨origin, some pc⟩ → choice.Answered t error pc →
      error.code = Transaction.quoteAlreadyUsed.code →
      ∃ quoteId arrivedAt, pc = .consume t quoteId ∧
        s.fx.calls (.inl e) = some ⟨.consume quoteId (Transaction.consumeCommand t), arrivedAt,
          .answered (.error Fx.quoteAlreadyUsed)⟩
  | _ => True

/-- What Transaction knows of a quote that is kept for a client. -/
structure Bound (clientId : Principal) (quoteId : Uuid) (s : Transaction.State) : Prop where
  owner : ∀ t ∈ s.db.transfers.rows, t.fxQuoteId = some quoteId → t.clientId = clientId
  lookup : ∀ e origin q, s.executions e = some ⟨origin, some (.claimQuoteLookup q)⟩ →
    ∃ request, origin = .create request ∧ request.command.quoteId? = some q
  refused : ∀ e origin, s.executions e = some ⟨origin, none⟩ →
    (e, .error Transaction.quoteAlreadyUsed) ∈ s.answers →
    ∃ request q t, origin = .create request ∧ request.command.quoteId? = some q ∧
      t ∈ s.db.transfers.rows ∧ t.fxQuoteId = some q
  failing : ∀ e origin id error, s.executions e = some ⟨origin, some (.fail id error)⟩ →
    error.code = Transaction.quoteAlreadyUsed.code →
    ∃ t, s.db.findTransfer id = some t ∧ t.fxQuoteId ≠ some quoteId
  failed : ∀ t ∈ s.db.transfers.rows, t.fxQuoteId = some quoteId →
    t.failureCode ≠ some Transaction.quoteAlreadyUsed.code

/-- What FX knows of it: `bound` tells which transfer has which quote. -/
structure Unspent (bound : Uuid → Uuid → Prop) (quoteId : Uuid) (s : Fx.State Caller) : Prop where
  consumer : ∀ q ∈ s.quotes.rows, ∀ x, q.consumedByTransferId = some x → bound x q.id
  expired : ∀ q ∈ s.quotes.rows, q.id = quoteId → q.status = .expired → q.expiresAt ≤ s.now.toDate
  reading : ∀ i request arrivedAt clientId q now,
    s.calls i = some ⟨request, arrivedAt, .running (.getRead clientId q now)⟩ → now ≤ s.now.toDate
  expiring : ∀ i request arrivedAt now,
    s.calls i = some ⟨request, arrivedAt, .running (.expire quoteId now)⟩ →
    now ≤ s.now.toDate ∧ ∃ q, Fx.findQuote s.quotes quoteId = some q ∧ q.expiresAt ≤ now
  claiming : ∀ i request arrivedAt command now,
    s.calls i = some ⟨request, arrivedAt, .running (.claim quoteId command now)⟩ →
    ∃ q, Fx.findQuote s.quotes quoteId = some q ∧ q.status ≠ .expired ∧ now < q.expiresAt
  winning : ∀ i request arrivedAt command now,
    s.calls i = some ⟨request, arrivedAt, .running (.winner quoteId command now)⟩ →
    ∃ q, Fx.findQuote s.quotes quoteId = some q ∧ q.status = .consumed
  unused : ∀ i command arrivedAt, s.calls i ≠
    some ⟨.consume quoteId command, arrivedAt, .answered (.error Fx.quoteAlreadyUsed)⟩

/-- A transfer has a quote. -/
def State.bound (s : State) (x q : Uuid) : Prop :=
  ∃ t, s.transaction.db.findTransfer x = some t ∧ t.fxQuoteId = some q

section Transaction

open Transaction (Written Claims)

variable {transactionConfig : Transaction.Config} {t t' : Transaction.State}
  {action : Transaction.Action}

theorem bound_initial : Bound clientId quoteId .initial := by
  constructor <;> simp [Transaction.State.initial, Transaction.Database.empty]

/-- The rows of transfers that name the quote stay those of the client. -/
theorem Bound.owner_step (hi : Transaction.Invariant transactionConfig t) (hb : Bound clientId quoteId t)
    (h : Transaction.step transactionConfig t action = some t')
    (hok : ∀ e choice origin request, action = .run e choice →
      t.executions e = some ⟨origin, some (.claimInsert request)⟩ →
      request.command.quoteId? = some quoteId →
      (∀ u ∈ t.db.transfers.rows, u.fxQuoteId ≠ some quoteId) → request.clientId = clientId) :
    ∀ u ∈ t'.db.transfers.rows, u.fxQuoteId = some quoteId → u.clientId = clientId := by
  intro u hu hq
  by_cases hbound : ∃ v ∈ t.db.transfers.rows, v.fxQuoteId = some quoteId
  · obtain ⟨v, hv, hvq⟩ := hbound
    obtain ⟨w, hw, hprog⟩ := (Transaction.step_evolves hi h).transfer _ v
      (Transaction.Database.findTransfer_eq_some_iff.mpr ⟨hv, rfl⟩)
    have hsame := hprog.same
    obtain rfl : w = u := Transaction.Database.transfer_eq_of_quote
      (Transaction.Database.findTransfer_eq_some_iff.mp hw).1 hu (hsame.fxQuoteId ▸ hvq) hq
    exact hsame.clientId ▸ hb.owner v hv hvq
  · push Not at hbound
    rcases Transaction.rows_of_step hi h (Transaction.Database.findTransfer_eq_some_iff.mpr ⟨hu, rfl⟩)
      with hold | ⟨e, choice, origin, pc, rfl, he, hw⟩
    · exact absurd hq (hbound u (Transaction.Database.findTransfer_eq_some_iff.mp hold).1)
    · rcases hw.old with ⟨request, rfl, hclaims⟩ | ⟨v, hv, hsame⟩
      · exact hclaims.clientId.trans
          (hok e choice origin request rfl he (hclaims.fxQuoteId ▸ hq) hbound)
      · exact absurd (hsame.fxQuoteId.trans hq)
          (hbound v (Transaction.Database.findTransfer_eq_some_iff.mp hv).1)

theorem Bound.lookup_step (hi : Transaction.Invariant transactionConfig t)
    (hb : Bound clientId quoteId t) (h : Transaction.step transactionConfig t action = some t')
    {e : Transaction.ExecId} {origin : Transaction.Origin} {q : Uuid}
    (he : t'.executions e = some ⟨origin, some (.claimQuoteLookup q)⟩) :
    ∃ request, origin = .create request ∧ request.command.quoteId? = some q := by
  rcases Transaction.executions_of_step h he with hold | hentry | ⟨choice, pc, rfl, hbefore, hgoto⟩
  · exact hb.lookup e origin q hold
  · rcases Transaction.entry_eq_ok hentry with ⟨_, heq⟩ | ⟨_, _, heq⟩ <;> cases heq
  · have hr : ((Transaction.advance transactionConfig t.now choice t.db pc).2).Refused choice t.db pc :=
      Transaction.advance_refused
    rw [hgoto] at hr
    obtain ⟨request, rfl, hq⟩ := hr
    exact ⟨request, (hi.running e origin _ hbefore).checked, hq⟩

theorem Bound.refused_step (hi : Transaction.Invariant transactionConfig t)
    (hb : Bound clientId quoteId t) (h : Transaction.step transactionConfig t action = some t')
    {e : Transaction.ExecId} {origin : Transaction.Origin}
    (he : t'.executions e = some ⟨origin, none⟩)
    (ho : (e, .error Transaction.quoteAlreadyUsed) ∈ t'.answers) :
    ∃ request q u, origin = .create request ∧ request.command.quoteId? = some q ∧
      u ∈ t'.db.transfers.rows ∧ u.fxQuoteId = some q := by
  have hkept : ∀ q, (∃ u ∈ t.db.transfers.rows, u.fxQuoteId = some q) →
      ∃ u ∈ t'.db.transfers.rows, u.fxQuoteId = some q := by
    rintro q ⟨u, hu, hq⟩
    obtain ⟨w, hw, hprog⟩ := (Transaction.step_evolves hi h).transfer _ u
      (Transaction.Database.findTransfer_eq_some_iff.mpr ⟨hu, rfl⟩)
    exact ⟨w, (Transaction.Database.findTransfer_eq_some_iff.mp hw).1, hprog.same.fxQuoteId ▸ hq⟩
  rcases Transaction.answers_of_step hi h he ho with ⟨hold, ho⟩ | ⟨error, hentry, heq⟩ |
    ⟨choice, pc, rfl, hbefore, hanswer⟩
  · obtain ⟨request, q, u, horigin, hnames, hu, hq⟩ := hb.refused e origin hold ho
    obtain ⟨w, hw, hwq⟩ := hkept q ⟨u, hu, hq⟩
    exact ⟨request, q, w, horigin, hnames, hw, hwq⟩
  · cases heq
    exact absurd hentry Transaction.entry_error_ne
  · have hr : ((Transaction.advance transactionConfig t.now choice t.db pc).2).Refused choice t.db pc :=
      Transaction.advance_refused
    rw [hanswer] at hr
    obtain ⟨q, u, rfl, hfind⟩ := hr rfl
    obtain ⟨request, horigin, hnames⟩ := hb.lookup e origin q hbefore
    obtain ⟨w, hw, hwq⟩ := hkept q ⟨u, Transaction.Database.findByQuote_some hfind⟩
    exact ⟨request, q, w, horigin, hnames, hw, hwq⟩

/-- A transfer is not failed with the code of a used quote unless FX said so. -/
theorem Bound.failing_step (hi : Transaction.Invariant transactionConfig t)
    (hb : Bound clientId quoteId t) (h : Transaction.step transactionConfig t action = some t')
    (hok : ∀ e choice origin pc u error, action = .run e choice →
      t.executions e = some ⟨origin, some pc⟩ → choice.Answered u error pc →
      error.code = Transaction.quoteAlreadyUsed.code → pc ≠ .consume u quoteId ∧
        ∃ q, pc = .consume u q)
    {e : Transaction.ExecId} {origin : Transaction.Origin} {id : Uuid} {error : HttpError}
    (he : t'.executions e = some ⟨origin, some (.fail id error)⟩)
    (hcode : error.code = Transaction.quoteAlreadyUsed.code) :
    ∃ u, t'.db.findTransfer id = some u ∧ u.fxQuoteId ≠ some quoteId := by
  have hev := Transaction.step_evolves hi h
  have hkept : ∀ u, t.db.findTransfer id = some u → u.fxQuoteId ≠ some quoteId →
      ∃ w, t'.db.findTransfer id = some w ∧ w.fxQuoteId ≠ some quoteId := by
    intro u hu hq
    obtain ⟨w, hw, hprog⟩ := hev.transfer id u hu
    exact ⟨w, hw, hprog.same.fxQuoteId ▸ hq⟩
  rcases Transaction.executions_of_step h he with hold | hentry | ⟨choice, pc, rfl, hbefore, hgoto⟩
  · obtain ⟨u, hu, hq⟩ := hb.failing e origin id error hold hcode
    exact hkept u hu hq
  · rcases Transaction.entry_eq_ok hentry with ⟨_, heq⟩ | ⟨_, _, heq⟩ <;> cases heq
  · have hr : ((Transaction.advance transactionConfig t.now choice t.db pc).2).Refused choice t.db pc :=
      Transaction.advance_refused
    rw [hgoto] at hr
    obtain ⟨u, error', rfl, hcode', hanswered⟩ := hr hcode
    obtain ⟨hne, q, rfl⟩ := hok e choice origin pc u error' rfl hbefore hanswered hcode'
    have hpc := hi.running e origin _ hbefore
    obtain ⟨v, hv, hprog⟩ := hpc.snapshot u rfl
    refine hkept v hv fun hq => hne ?_
    rw [← hprog.same.fxQuoteId, hpc.checked.2.2] at hq
    rw [Option.some.inj hq]

theorem Bound.failed_step (hi : Transaction.Invariant transactionConfig t)
    (hb : Bound clientId quoteId t) (h : Transaction.step transactionConfig t action = some t') :
    ∀ u ∈ t'.db.transfers.rows, u.fxQuoteId = some quoteId →
      u.failureCode ≠ some Transaction.quoteAlreadyUsed.code := by
  intro u hu hq
  have hold : ∀ v, t.db.findTransfer v.id = some v → v.fxQuoteId = some quoteId →
      v.failureCode ≠ some Transaction.quoteAlreadyUsed.code := fun v hv =>
    hb.failed v (Transaction.Database.findTransfer_eq_some_iff.mp hv).1
  rcases Transaction.rows_of_step hi h (Transaction.Database.findTransfer_eq_some_iff.mpr ⟨hu, rfl⟩)
    with hkept | ⟨e, choice, origin, pc, rfl, he, hw⟩
  · exact hold u hkept hq
  cases hw with
  | created _ hclaims =>
    have hcheck : u.check = true := t'.db.transfers.checked u hu
    simp only [Transaction.Transfer.check, Transaction.Transfer.terminalStateCheck, hclaims.pending,
      Bool.and_eq_true, Option.isNone_iff_eq_none] at hcheck
    simp [hcheck.1.1.2.1.2]
  | @started v hv => exact hold v hv hq
  | @retried v hv => exact hold v hv hq
  | @prepared v _ _ _ _ _ hv => exact hold v hv hq
  | @completed v _ _ hv => exact hold v hv hq
  | @failed v error hpc hv =>
    subst hpc
    intro hstored
    have hcode : error.code = Transaction.quoteAlreadyUsed.code :=
      (Varchar.assign_eq_of_length_lt (by decide)).mp (Option.some.inj hstored)
    obtain ⟨w, hw, hne⟩ := hb.failing e origin v.id error he hcode
    rw [hv] at hw
    cases hw
    exact hne hq

end Transaction

section Fx

open Fx (Written Progress)

variable {fx fx' : Fx.State Caller} {action : Fx.Action Caller} {bound : Uuid → Uuid → Prop}
  {quotes : Fx.Quotes} {i : Caller} {request : Fx.Request} {arrivedAt : Time}

theorem unspent_initial : Unspent bound quoteId .initial := by
  constructor <;> simp [Fx.State.initial]

/-- A call that waits for its second read finds the quote consumed. -/
theorem Unspent.consumed_of_unclaimable (hi : Fx.Invariant fx) (hu : Unspent bound quoteId fx)
    {command : ConsumeQuote} {now : Date}
    (hc : fx.calls i = some ⟨request, arrivedAt, .running (.claim quoteId command now)⟩)
    (hnone : ∀ q ∈ fx.quotes.rows, Fx.claimable quoteId now q = false) :
    ∃ q, Fx.findQuote fx.quotes quoteId = some q ∧ q.status = .consumed := by
  obtain ⟨q, hq, hs, hnow⟩ := hu.claiming i request arrivedAt command now hc
  obtain ⟨hmem, hid⟩ := Fx.findQuote_eq_some_iff.mp hq
  refine ⟨q, hq, ?_⟩
  by_contra hconsumed
  have hactive : q.status = .active := by
    cases h : q.status with
    | active => rfl
    | consumed => exact absurd h hconsumed
    | expired => exact absurd h hs
  have hclaimable := hnone q hmem
  simp [Fx.claimable, hid, hactive, hnow, (hi.rows q hmem).unconsumed hconsumed] at hclaimable

/-- What a statement of a call leaves of the quotes. -/
structure RowsKept (bound : Uuid → Uuid → Prop) (quoteId : Uuid) (fx : Fx.State Caller)
    (quotes : Fx.Quotes) : Prop where
  consumer : ∀ q ∈ quotes.rows, ∀ x, q.consumedByTransferId = some x → bound x q.id
  expired : ∀ q ∈ quotes.rows, q.id = quoteId → q.status = .expired → q.expiresAt ≤ fx.now.toDate
  unexpired : ∀ j request arrivedAt command now,
    fx.calls j = some ⟨request, arrivedAt, .running (.claim quoteId command now)⟩ →
    ∀ q ∈ quotes.rows, q.id = quoteId → q.status ≠ .expired

theorem Unspent.rowsKept (hi : Fx.Invariant fx) (hu : Unspent bound quoteId fx) {choice : Fx.Choice}
    {pc : Fx.Pc} (hc : fx.calls i = some ⟨request, arrivedAt, .running pc⟩)
    (hcalls : ∀ i q command arrivedAt progress,
      fx.calls i = some ⟨.consume q command, arrivedAt, progress⟩ →
      ∃ x, command.transferId = .ofUuid x ∧ bound x q)
    (hok : ∀ now, pc = .expire quoteId now →
      (∃ q ∈ fx.quotes.rows, q.id = quoteId ∧ q.status = .active) →
      ∀ j command arrivedAt' now', fx.calls j ≠
        some ⟨.consume quoteId command, arrivedAt', .running (.claim quoteId command now')⟩) :
    RowsKept bound quoteId fx (Fx.advance choice fx.quotes pc).1 := by
  have hpc := hi.running i request arrivedAt pc hc
  refine ⟨fun q hq x hx => ?_, fun q hq hid hs => ?_, fun j request' arrivedAt' command now hj q hq hid => ?_⟩
  · rcases Fx.advance_written hq with hold | hw
    · exact hu.consumer q hold x hx
    cases hw with
    | created _ hnone =>
      rw [hnone] at hx
      cases hx
    | expired _ hfound => exact hu.consumer _ (Fx.findQuote_eq_some_iff.mp hfound).1 x hx
    | @consumed v command now hclaim =>
      subst hclaim
      obtain ⟨rfl, -⟩ := hpc
      obtain ⟨y, htransfer, hbound⟩ := hcalls i _ command arrivedAt _ hc
      obtain rfl : y = x := by simpa [Fx.FxQuote.consume, htransfer] using hx
      exact hbound
  · rcases Fx.advance_written hq with hold | hw
    · exact hu.expired q hold hid hs
    cases hw with
    | created hactive =>
      rw [hactive] at hs
      cases hs
    | @expired v now hexpire hfound =>
      subst hexpire
      obtain rfl : v.id = quoteId := hid
      obtain ⟨hnow, u, hu', hle⟩ := hu.expiring i request arrivedAt now hc
      obtain rfl := Option.some.inj (hfound.symm.trans hu')
      exact hle.trans hnow
    | consumed => cases hs
  · obtain ⟨u, hu', hne, -⟩ := hu.claiming j request' arrivedAt' command now hj
    obtain ⟨hmem, hid'⟩ := Fx.findQuote_eq_some_iff.mp hu'
    rcases Fx.advance_written hq with hold | hw
    · rwa [eq_of_uniqueBy (Fx.quote_ids fx.quotes) hold hmem (hid.trans hid'.symm)]
    cases hw with
    | created hactive => simp [hactive]
    | @expired v now' hexpire hfound hnot =>
      subst hexpire
      obtain rfl : v.id = quoteId := hid
      obtain rfl := Option.some.inj (hfound.symm.trans hu')
      have hactive : v.status = .active := by
        cases h : v.status with
        | active => rfl
        | consumed => exact absurd h hnot
        | expired => exact absurd h hne
      obtain ⟨rfl, -⟩ := hi.running j request' arrivedAt' _ hj
      exact absurd hj (hok now' rfl ⟨v, hmem, rfl, hactive⟩ j command arrivedAt' now)
    | consumed => simp [Fx.FxQuote.consume]

/-- What a call has found when it gets to a statement or to an answer. -/
def Found (quoteId : Uuid) (fx : Fx.State Caller) (quotes : Fx.Quotes) (request : Fx.Request) :
    Progress → Prop
  | .running (.getRead _ _ now) => now ≤ fx.now.toDate
  | .running (.expire q now) => q = quoteId → now ≤ fx.now.toDate ∧
      ∃ q, Fx.findQuote fx.quotes quoteId = some q ∧ q.expiresAt ≤ now
  | .running (.claim q _ now) => q = quoteId →
      ∃ q, Fx.findQuote quotes quoteId = some q ∧ q.status ≠ .expired ∧ now < q.expiresAt
  | .running (.winner q _ _) => q = quoteId →
      ∃ q, Fx.findQuote fx.quotes quoteId = some q ∧ q.status = .consumed
  | .answered (.error error) => error = Fx.quoteAlreadyUsed →
      ∀ command, request ≠ .consume quoteId command
  | _ => True

theorem found_entry : Found quoteId fx quotes request (request.entry fx.now.toDate).progress := by
  cases request with
  | create clientId command =>
    unfold Fx.Request.entry
    dsimp only
    split
    · exact fun h => absurd h (by decide)
    · trivial
  | get clientId q => exact le_rfl
  | consume q command => trivial

theorem Unspent.setCall (hu : Unspent bound quoteId fx) (hkeeps : Fx.Keeps fx.quotes quotes)
    (hrows : RowsKept bound quoteId fx quotes) {progress : Progress}
    (hfound : Found quoteId fx quotes request progress) :
    Unspent bound quoteId ((fx.withQuotes quotes).setCall i ⟨request, arrivedAt, progress⟩) := by
  refine ⟨hrows.consumer, hrows.expired, fun j r at' clientId q now h => ?_, fun j r at' now h => ?_,
    fun j r at' command now h => ?_, fun j r at' command now h => ?_, fun j command at' h => ?_⟩
  · rcases Fx.calls_of_setCall quotes h with ⟨rfl, heq⟩ | hold
    · obtain ⟨-, -, rfl⟩ := Fx.Call.mk.inj heq
      exact hfound
    · exact hu.reading j r at' clientId q now hold
  · have hbefore : now ≤ fx.now.toDate ∧
        ∃ q, Fx.findQuote fx.quotes quoteId = some q ∧ q.expiresAt ≤ now := by
      rcases Fx.calls_of_setCall quotes h with ⟨rfl, heq⟩ | hold
      · obtain ⟨-, -, rfl⟩ := Fx.Call.mk.inj heq
        exact hfound rfl
      · exact hu.expiring j r at' now hold
    obtain ⟨hnow, q, hq, hle⟩ := hbefore
    obtain ⟨p, hp, hkept⟩ := hkeeps quoteId q hq
    exact ⟨hnow, p, hp, hkept.terms.expiresAt ▸ hle⟩
  · rcases Fx.calls_of_setCall quotes h with ⟨rfl, heq⟩ | hold
    · obtain ⟨-, -, rfl⟩ := Fx.Call.mk.inj heq
      exact hfound rfl
    · obtain ⟨q, hq, -, hlt⟩ := hu.claiming j r at' command now hold
      obtain ⟨p, hp, hkept⟩ := hkeeps quoteId q hq
      obtain ⟨hmem, hid⟩ := Fx.findQuote_eq_some_iff.mp hp
      exact ⟨p, hp, hrows.unexpired j r at' command now hold p hmem hid, hkept.terms.expiresAt ▸ hlt⟩
  · have hbefore : ∃ q, Fx.findQuote fx.quotes quoteId = some q ∧ q.status = .consumed := by
      rcases Fx.calls_of_setCall quotes h with ⟨rfl, heq⟩ | hold
      · obtain ⟨-, -, rfl⟩ := Fx.Call.mk.inj heq
        exact hfound rfl
      · exact hu.winning j r at' command now hold
    obtain ⟨q, hq, hs⟩ := hbefore
    obtain ⟨p, hp, hkept⟩ := hkeeps quoteId q hq
    exact ⟨p, hp, hkept.frozen hs ▸ hs⟩
  · rcases Fx.calls_of_setCall quotes h with ⟨rfl, heq⟩ | hold
    · obtain ⟨hrequest, -, rfl⟩ := Fx.Call.mk.inj heq
      exact hfound rfl command hrequest.symm
    · exact hu.unused j command at' hold

theorem Unspent.rowsKept_refl (hu : Unspent bound quoteId fx) : RowsKept bound quoteId fx fx.quotes := by
  refine ⟨hu.consumer, hu.expired, fun j request' arrivedAt' command now hj q hq hid => ?_⟩
  obtain ⟨p, hp, hs, -⟩ := hu.claiming j request' arrivedAt' command now hj
  obtain ⟨hmem, hid'⟩ := Fx.findQuote_eq_some_iff.mp hp
  rwa [eq_of_uniqueBy (Fx.quote_ids fx.quotes) hq hmem (hid.trans hid'.symm)]

/-- A call is told that the quote was used only where another transfer has consumed it. -/
theorem Unspent.refused (hi : Fx.Invariant fx) (hu : Unspent bound quoteId fx)
    (hcalls : ∀ i q command arrivedAt progress,
      fx.calls i = some ⟨.consume q command, arrivedAt, progress⟩ →
      ∃ x, command.transferId = .ofUuid x ∧ bound x q)
    (hone : ∀ x y, bound x quoteId → bound y quoteId → x = y) {choice : Fx.Choice} {pc : Fx.Pc}
    {command : ConsumeQuote}
    (hc : fx.calls i = some ⟨.consume quoteId command, arrivedAt, .running pc⟩) :
    (Fx.advance choice fx.quotes pc).2 ≠ .answer (.error Fx.quoteAlreadyUsed) := by
  intro hanswer
  have hf : ((Fx.advance choice fx.quotes pc).2).Follows fx.quotes pc := Fx.advance_follows
  rw [hanswer] at hf
  obtain ⟨q', command', now, q, hq, hother, hpc⟩ := hf rfl
  have hpcok := hi.running i _ arrivedAt pc hc
  have hsame : Fx.Request.consume quoteId command = .consume q' command' ∧ q.status = .consumed := by
    rcases hpc with ⟨rfl, hs⟩ | rfl
    · exact ⟨hpcok, hs⟩
    · obtain ⟨hrequest, -⟩ := hpcok
      obtain ⟨rfl, rfl⟩ := Fx.Request.consume.inj hrequest
      obtain ⟨p, hp, hs⟩ := hu.winning i _ arrivedAt command now hc
      obtain rfl := Option.some.inj (hq.symm.trans hp)
      exact ⟨rfl, hs⟩
  obtain ⟨hrequest, hs⟩ := hsame
  obtain ⟨rfl, rfl⟩ := Fx.Request.consume.inj hrequest
  obtain ⟨hmem, hid⟩ := Fx.findQuote_eq_some_iff.mp hq
  obtain ⟨x, -, hx, -, -⟩ := (hi.rows q hmem).consumed hs
  obtain ⟨y, htransfer, hy⟩ := hcalls i quoteId command arrivedAt _ hc
  obtain rfl := hone x y (hid ▸ hu.consumer q hmem x hx) hy
  exact hother (by rw [hx, htransfer]; rfl)

theorem Unspent.step (hi : Fx.Invariant fx) (hu : Unspent bound quoteId fx)
    (h : Fx.step fx action = some fx')
    (hcalls : ∀ i q command arrivedAt progress,
      fx.calls i = some ⟨.consume q command, arrivedAt, progress⟩ →
      ∃ x, command.transferId = .ofUuid x ∧ bound x q)
    (hone : ∀ x y, bound x quoteId → bound y quoteId → x = y)
    (hok : ∀ i choice request arrivedAt now, action = .run i choice →
      fx.calls i = some ⟨request, arrivedAt, .running (.expire quoteId now)⟩ →
      (∃ q ∈ fx.quotes.rows, q.id = quoteId ∧ q.status = .active) →
      ∀ j command arrivedAt' now', fx.calls j ≠
        some ⟨.consume quoteId command, arrivedAt', .running (.claim quoteId command now')⟩)
    (hrefuse : ∀ i command error, action = .refuse i (.consume quoteId command) error →
      error ≠ Fx.quoteAlreadyUsed) : Unspent bound quoteId fx' := by
  rcases Fx.step_cases h with ⟨elapsed, -, rfl⟩ | ⟨i, request, next, -, rfl, hnext⟩ |
    ⟨i, choice, request, arrivedAt, pc, rfl, hrun, rfl⟩ | ⟨i, request, arrivedAt, pc, -, hrun, rfl⟩
  · have hnow : fx.now.toDate ≤ Time.toDate (fx.now + elapsed) :=
      Nat.div_le_div_right (Nat.le_add_right _ _)
    refine ⟨hu.consumer, fun q hq hid hs => (hu.expired q hq hid hs).trans hnow,
      fun i r at' clientId q now hc => (hu.reading i r at' clientId q now hc).trans hnow,
      fun i r at' now hc => ?_, hu.claiming, hu.winning, hu.unused⟩
    obtain ⟨hle, hq⟩ := hu.expiring i r at' now hc
    exact ⟨hle.trans hnow, hq⟩
  · rcases hnext with ⟨-, rfl⟩ | ⟨error, rfl, rfl⟩
    · exact hu.setCall (.refl fx.quotes) hu.rowsKept_refl found_entry
    · refine hu.setCall (.refl fx.quotes) hu.rowsKept_refl ?_
      rintro rfl command rfl
      exact hrefuse i command _ rfl rfl
  · have hpcok := hi.running i request arrivedAt pc hrun
    have hf : ((Fx.advance choice fx.quotes pc).2).Follows fx.quotes pc := Fx.advance_follows
    refine hu.setCall (Fx.advance_ok hi.rows hpcok).1.keeps
      (hu.rowsKept hi hrun hcalls fun now hpc => hok i choice request arrivedAt now rfl (hpc ▸ hrun)) ?_
    cases hnext : (Fx.advance choice fx.quotes pc).2 with
    | answer outcome =>
      cases outcome with
      | quote response => trivial
      | error error =>
        rintro rfl command rfl
        exact hu.refused hi hcalls hone hrun hnext
    | goto pc' =>
      rw [hnext] at hf
      cases pc' with
      | getRead clientId q now => exact hf.elim
      | expire q now =>
        rintro rfl
        obtain ⟨p, hp, hle, clientId, rfl⟩ := hf
        exact ⟨hu.reading i request arrivedAt clientId q now hrun, p, hp, hle⟩
      | claim q command now =>
        rintro rfl
        obtain ⟨rfl, p, hp, hactive, hlt⟩ := hf
        exact ⟨p, hp, by simp [hactive], hlt⟩
      | winner q command now =>
        rintro rfl
        obtain ⟨rfl, hnone⟩ := hf
        exact hu.consumed_of_unclaimable hi hrun hnone
      | _ => trivial
  · exact hu.setCall (.refl fx.quotes) hu.rowsKept_refl trivial

end Fx

theorem Unspent.mono {bound bound' : Uuid → Uuid → Prop} {fx : Fx.State Caller}
    (h : ∀ x q, bound x q → bound' x q) (hu : Unspent bound quoteId fx) :
    Unspent bound' quoteId fx :=
  { hu with consumer := fun q hq x hx => h x q.id (hu.consumer q hq x hx) }

/-- What is known of a quote that is kept for a client. -/
structure KeptFor (clientId : Principal) (quoteId : Uuid) (s : State) : Prop where
  bound : Bound clientId quoteId s.transaction
  unspent : Unspent s.bound quoteId s.fx

theorem keptFor_initial : KeptFor clientId quoteId .initial := ⟨bound_initial, unspent_initial⟩

theorem bound_unique {x y : Uuid} (hx : s.bound x quoteId) (hy : s.bound y quoteId) : x = y := by
  obtain ⟨t, ht, hq⟩ := hx
  obtain ⟨u, hu, hq'⟩ := hy
  obtain ⟨hmem, rfl⟩ := Transaction.Database.findTransfer_eq_some_iff.mp ht
  obtain ⟨hmem', rfl⟩ := Transaction.Database.findTransfer_eq_some_iff.mp hu
  rw [Transaction.Database.transfer_eq_of_quote hmem hmem' hq hq']

theorem KeptFor.step (hi : Invariant config s) (hk : KeptFor clientId quoteId s)
    (hok : KeepsQuoteFor clientId quoteId s a) (hrelays : RelaysRefusals s a)
    (h : step config s a = some s') : KeptFor clientId quoteId s' := by
  obtain ⟨hpermits, ⟨action, t, rfl, ht, rfl⟩ | ⟨action, fx, rfl, hfx, rfl⟩ |
    ⟨action, ledger, rfl, hledger, rfl⟩⟩ := step_cases h
  · have hfailing : ∀ e choice origin pc u error, action = .run e choice →
        s.transaction.executions e = some ⟨origin, some pc⟩ → choice.Answered u error pc →
        error.code = Transaction.quoteAlreadyUsed.code → pc ≠ .consume u quoteId ∧
          ∃ q, pc = .consume u q := by
      rintro e choice origin pc u error rfl he hanswered hcode
      obtain ⟨q, arrivedAt, rfl, hcall⟩ := hrelays origin pc u error he hanswered hcode
      refine ⟨fun heq => ?_, q, rfl⟩
      obtain ⟨-, rfl⟩ := Transaction.Pc.consume.inj heq
      exact hk.unspent.unused (.inl e) _ arrivedAt hcall
    refine ⟨⟨hk.bound.owner_step hi.transaction ht ?_, fun e origin q => hk.bound.lookup_step hi.transaction ht,
      fun e origin => hk.bound.refused_step hi.transaction ht,
      fun e origin id error => hk.bound.failing_step hi.transaction ht hfailing,
      hk.bound.failed_step hi.transaction ht⟩, hk.unspent.mono ?_⟩
    · rintro e choice origin request rfl
      exact hok origin request
    · rintro x q ⟨u, hu, hq⟩
      obtain ⟨w, hw, hprog⟩ := (Transaction.step_evolves hi.transaction ht).transfer x u hu
      exact ⟨w, hw, hprog.same.fxQuoteId ▸ hq⟩
  · refine ⟨hk.bound, hk.unspent.step hi.fx hfx (fun i q command arrivedAt progress hcall => ?_)
      (fun x y => bound_unique) ?_ ?_⟩
    · obtain ⟨t, ht, hq, rfl⟩ := hi.consumption_of_transfer hcall
      exact ⟨t.id, rfl, t, ht, hq⟩
    · rintro i choice request arrivedAt now rfl
      exact hok request arrivedAt now
    · rintro i command error rfl rfl
      cases i with
      | inl e =>
        simp only [State.permits, Bool.and_eq_true, decide_eq_true_eq] at hpermits
        exact hpermits.2 (by decide)
      | inr i => simp [State.permits, isConsume] at hpermits
  · exact ⟨hk.bound, hk.unspent⟩

theorem keptFor_of_reachableBy (h : (system config).ReachableBy
    (fun s a => KeepsQuoteFor clientId quoteId s a ∧ RelaysRefusals s a) s) :
    KeptFor clientId quoteId s :=
  System.ReachableBy.invariant keptFor_initial (fun _ _ _ hr hk hok hs =>
    hk.step (invariant_of_reachable hr.reachable) hok.1 hok.2 hs) h

/-! ### A consumption by an execution that runs alone -/

/-- The steps of one execution and of the request it makes to FX. -/
def OwnStep (e : Transaction.ExecId) : Action → Prop
  | .transaction (.request i _) | .transaction (.run i _) => i = e
  | .fx (.start i _) | .fx (.run i _) => i = .inl e
  | _ => False

/-- A request of the quote's client for a transfer with the details of the quote. -/
structure Names (request : Transaction.CreateRequest)
    (command : Transaction.CreateInternationalTransfer) (q : Fx.FxQuote) : Prop where
  clientId : request.clientId = q.clientId
  quoteId : command.quoteId.value = q.id
  sourceCurrency : command.sourceCurrency = q.sourceCurrency
  targetCurrency : command.targetCurrency = q.targetCurrency
  sourceAmount : command.sourceAmount.val.value = q.sourceAmount.value
  international : request.command = .international command

/-- A request passes its checks and comes with a key that is not taken. -/
structure Acceptable (s : State) (request : Transaction.CreateRequest)
    (command : Transaction.CreateInternationalTransfer) : Prop where
  entry : (Transaction.Origin.create request).entry = .ok (.claimLookup request)
  wallets : command.senderWalletId.value ≠ command.recipientWalletId.value
  key : ∀ r ∈ s.transaction.db.records.rows, (r.clientId, r.key) ≠ (request.clientId, request.key)

/-- The ids of an execution that has not begun and of the transfer it would create. -/
structure Unused (s : State) (e : Transaction.ExecId) (transferId : Uuid) : Prop where
  execution : s.transaction.executions e = none
  call : s.fx.calls (.inl e) = none
  transfer : s.transaction.db.findTransfer transferId = none

theorem step_transaction {action : Transaction.Action} {t : Transaction.State}
    (hp : s.permits (.transaction action) = true)
    (h : Transaction.step config.transaction s.transaction action = some t) :
    step config s (.transaction action) = some { s with transaction := t } := by
  rw [step, if_pos hp, apply, h, Option.map_some]

theorem step_fx {action : Fx.Action Caller} {fx : Fx.State Caller}
    (hp : s.permits (.fx action) = true) (h : Fx.step s.fx action = some fx) :
    step config s (.fx action) = some { s with fx } := by
  rw [step, if_pos hp, apply, h, Option.map_some]

/-- An execution runs a statement and goes on to the next. -/
theorem goes_to {e : Transaction.ExecId} {origin : Transaction.Origin} {pc pc' : Transaction.Pc}
    {c : Transaction.Choice} {db : Transaction.Database}
    (he : s.transaction.executions e = some ⟨origin, some pc⟩) (hle : c.startedAt ≤ s.transaction.now)
    (hp : s.answers e c pc = true)
    (hadvance : Transaction.advance config.transaction s.transaction.now c s.transaction.db pc =
      (db, .goto pc')) :
    ∃ t, step config s (.transaction (.run e c)) = some { s with transaction := t } ∧
      t.executions e = some ⟨origin, some pc'⟩ ∧ t.db = db ∧
      ∀ call, pc'.call = some call → (e, call) ∈ t.calls := by
  have hrun : Transaction.step config.transaction s.transaction (.run e c) = _ :=
    Transaction.step_run he hle
  rw [hadvance] at hrun
  refine ⟨_, step_transaction (by simpa only [State.permits, he] using hp) hrun,
    Transaction.State.proceed_executions_self, rfl, fun call hcall => ?_⟩
  exact Transaction.State.mem_proceed_calls.mpr (.inl ⟨rfl, pc', rfl, hcall⟩)

/-- An execution claims a transfer for a quote that no transfer has, and gets to its consumption. -/
theorem claims_alone (hi : Invariant config s) {e : Transaction.ExecId}
    {request : Transaction.CreateRequest} {command : Transaction.CreateInternationalTransfer}
    {ids : Transaction.ClaimIds} (hfree : Unused s e ids.transferId)
    (hcommand : request.command = .international command) (hrequest : Acceptable s request command)
    (hcurrency : command.sourceCurrency ≠ command.targetCurrency)
    (hpos : 0 < command.sourceAmount.val.value)
    (hquote : ∀ t ∈ s.transaction.db.transfers.rows, t.fxQuoteId ≠ some command.quoteId.value) :
    ∃ t amount u, (system config).run s [.transaction (.request e (.create request)),
        .transaction (.run e {}), .transaction (.run e { ids })] = some { s with transaction := u } ∧
      (Numeric.ofRat? command.sourceAmount.val.value : Option Money) = some amount ∧
      t = Transaction.internationalTransfer request.clientId command amount ids.transferId 0 0 ∧
      u.executions e = some ⟨.create request, some (.consume t command.quoteId.value)⟩ ∧
      u.db.findTransfer t.id = some t ∧
      (e, .consume command.quoteId.value (Transaction.consumeCommand t)) ∈ u.calls := by
  have hstart : (system config).step s (.transaction (.request e (.create request))) = _ :=
    step_transaction rfl (Transaction.step_request hfree.execution hrequest.entry)
  set t₁ := s.transaction.proceed e (.create request) (.goto (.claimLookup request))
  have hlookup : Transaction.advance config.transaction t₁.now {} t₁.db (.claimLookup request) =
      (s.transaction.db, .goto (.claimInsert request)) := by
    have hnone : s.transaction.db.findByKey request.clientId request.key = none := by
      simp [Transaction.Database.findByKey, findBy_eq_none_iff.mpr hrequest.key]
    change (_, Transaction.runClaimLookup config.transaction s.transaction.db request) = _
    rw [Transaction.runClaimLookup, hnone]
    rfl
  obtain ⟨t₂, hstep₂, hexec₂, hdb₂, -⟩ := goes_to (s := { s with transaction := t₁ }) (c := {})
    Transaction.State.proceed_executions_self (Nat.zero_le _) rfl hlookup
  obtain ⟨db, amount, hamount, hinsert⟩ := Transaction.claimInternational_enabled
    hi.transaction.lockstep 0 0
    (Transaction.canonicalInternationalTransferHash config.transaction.sha256 command)
    ⟨hrequest.wallets, hpos, hcurrency⟩ hfree.transfer hrequest.key hquote
  have hclaim : Transaction.advance config.transaction t₂.now { ids } t₂.db (.claimInsert request) =
      (db, .goto (.consume (Transaction.internationalTransfer request.clientId command amount
        ids.transferId 0 0) command.quoteId.value)) := by
    change Transaction.runClaimInsert config.transaction { ids } t₂.db request = _
    rw [hdb₂, Transaction.runClaimInsert, Transaction.insertClaim, hcommand]
    dsimp only
    rw [hinsert]
    rfl
  obtain ⟨t₃, hstep₃, hexec₃, hdb₃, hcall₃⟩ := goes_to (s := { s with transaction := t₂ }) hexec₂
    (Nat.zero_le _) rfl hclaim
  obtain ⟨-, -, -, hcreated⟩ :=
    Transaction.claimInternational_ok hi.transaction.lockstep hinsert
  refine ⟨_, amount, t₃, ?_, hamount, rfl, hexec₃, ?_, hcall₃ _ rfl⟩
  · rw [System.run_cons hstart, System.run_cons hstep₂, System.run_cons hstep₃]
    rfl
  · rw [hdb₃]
    exact hcreated.replaces.findTransfer

/-- A call that consumes an active quote runs alone, and its execution is told the quote. -/
theorem consumes_alone (hi : Fx.Invariant s.fx) {e : Transaction.ExecId} {origin : Transaction.Origin}
    {t : Transaction.Transfer} {q : Fx.FxQuote} (hcall : s.fx.calls (.inl e) = none)
    (he : s.transaction.executions e = some ⟨origin, some (.consume t quoteId)⟩)
    (hsent : (e, .consume quoteId (Transaction.consumeCommand t)) ∈ s.transaction.calls)
    (hq : Fx.findQuote s.fx.quotes quoteId = some q) (hactive : q.status = .active)
    (hnow : s.fx.now.toDate < q.expiresAt) (hfits : Fx.Fits q (Transaction.consumeCommand t))
    (hfresh : ∀ p ∈ s.fx.quotes.rows, p.consumedByTransferId ≠ some t.id) :
    ∃ s' response, (system config).run s [
        .fx (.start (.inl e) (.consume quoteId (Transaction.consumeCommand t))),
        .fx (.run (.inl e) {}), .fx (.run (.inl e) {}),
        .transaction (.run e { quote := .ok (some response) })] = some s' ∧
      s'.transaction.executions e = some ⟨origin, some (.prepare t response)⟩ ∧
      s'.transaction.db = s.transaction.db ∧
      ∃ p, Fx.findQuote s'.fx.quotes quoteId = some p ∧ p.status = .consumed ∧
        p.consumedByTransferId = some t.id := by
  obtain ⟨hread, quotes, hclaim, hfind⟩ := Fx.consume_alone hq hactive hnow hfits
    ((hi.rows q (Fx.findQuote_eq_some_iff.mp hq).1).unconsumed (by simp [hactive])) hfresh
  set command := Transaction.consumeCommand t with hcommand
  set fx₁ := s.fx.setCall (.inl e) ⟨.consume quoteId command, s.fx.now,
    .running (.consumeRead quoteId command s.fx.now.toDate)⟩
  set fx₂ := (fx₁.withQuotes s.fx.quotes).setCall (.inl e) ⟨.consume quoteId command, s.fx.now,
    .running (.claim quoteId command s.fx.now.toDate)⟩
  set p := q.consume command.transferId.value s.fx.now.toDate with hp
  set response := Fx.toResponse p s.fx.now.toDate
  set fx₃ := (fx₂.withQuotes quotes).setCall (.inl e) ⟨.consume quoteId command, s.fx.now,
    .answered (.quote response)⟩
  have hstart : Fx.step s.fx (.start (.inl e) (.consume quoteId command)) = some fx₁ :=
    Fx.step_start hcall
  have hadvance : Fx.advance {} fx₁.quotes (.consumeRead quoteId command s.fx.now.toDate) =
      (s.fx.quotes, .goto (.claim quoteId command s.fx.now.toDate)) :=
    congrArg (Prod.mk s.fx.quotes) hread
  have hread : Fx.step fx₁ (.run (.inl e) {}) = some fx₂ :=
    Fx.step_run Fx.State.setCall_calls_self hadvance
  have hadvance' : Fx.advance {} fx₂.quotes (.claim quoteId command s.fx.now.toDate) =
      (quotes, .answer (.quote response)) := hclaim
  have hclaim : Fx.step fx₂ (.run (.inl e) {}) = some fx₃ :=
    Fx.step_run Fx.State.setCall_calls_self hadvance'
  have htold : Transaction.advance config.transaction s.transaction.now { quote := .ok (some response) }
      s.transaction.db (.consume t quoteId) = (s.transaction.db, .goto (.prepare t response)) := rfl
  obtain ⟨u, hstep, hexec, hdb, -⟩ := goes_to (s := { s with fx := fx₃ }) he (Nat.zero_le _) (by
    change answersConsume (fx₃.calls (.inl e)) (.consume quoteId command) (.ok (some response)) = true
    rw [show fx₃.calls (.inl e) = _ from Fx.State.setCall_calls_self]
    simp [answersConsume]) htold
  refine ⟨{ s with transaction := u, fx := fx₃ }, response, ?_, hexec, hdb, p, hfind, rfl, rfl⟩
  have hpermits : s.permits (.fx (.start (.inl e) (.consume quoteId command))) = true :=
    sentConsume_iff.mpr ⟨quoteId, command, rfl, hsent⟩
  have hstart' : (system config).step s _ = some { s with fx := fx₁ } := step_fx hpermits hstart
  have hread' : (system config).step { s with fx := fx₁ } _ = some { s with fx := fx₂ } :=
    step_fx rfl hread
  have hclaim' : (system config).step { s with fx := fx₂ } _ = some { s with fx := fx₃ } :=
    step_fx rfl hclaim
  rw [System.run_cons hstart', System.run_cons hread', System.run_cons hclaim', System.run_cons hstep]
  rfl

/-- A quote that no transfer of its client names, and that has not expired, is active. -/
theorem KeptFor.active (hi : Invariant config s) (hk : KeptFor clientId quoteId s) {q : Fx.FxQuote}
    (hq : q ∈ s.fx.quotes.rows) (hid : q.id = quoteId) (hnow : s.fx.now.toDate < q.expiresAt)
    (hnone : ∀ t ∈ s.transaction.db.transfers.rows, t.fxQuoteId ≠ some quoteId) :
    q.status = .active := by
  cases hs : q.status with
  | active => rfl
  | consumed =>
    obtain ⟨x, -, hx, -, -⟩ := (hi.fx.rows q hq).consumed hs
    obtain ⟨t, ht, htq⟩ := hk.unspent.consumer q hq x hx
    exact absurd (hid ▸ htq) (hnone t (Transaction.Database.findTransfer_eq_some_iff.mp ht).1)
  | expired => exact absurd (hk.unspent.expired q hq hid hs) (not_le.mpr hnow)

/-- The client's request can still consume the quote, by steps of its own alone. -/
theorem KeptFor.can_consume (hi : Invariant config s) (hk : KeptFor clientId quoteId s)
    {q : Fx.FxQuote} (hq : q ∈ s.fx.quotes.rows) (hid : q.id = quoteId)
    (hclient : q.clientId = clientId) (hnow : s.fx.now.toDate < q.expiresAt)
    (hnone : ∀ t ∈ s.transaction.db.transfers.rows, t.clientId = clientId → t.fxQuoteId ≠ some quoteId)
    {e : Transaction.ExecId} {request : Transaction.CreateRequest}
    {command : Transaction.CreateInternationalTransfer} {ids : Transaction.ClaimIds}
    (hnames : Names request command q) (hrequest : Acceptable s request command)
    (hfree : Unused s e ids.transferId) :
    ∃ as s' t response, (∀ a ∈ as, OwnStep e a) ∧ (system config).run s as = some s' ∧
      s'.transaction.executions e = some ⟨.create request, some (.prepare t response)⟩ ∧
      s'.transaction.db.findTransfer t.id = some t ∧ t.clientId = clientId ∧
      t.fxQuoteId = some quoteId ∧ ∃ p ∈ s'.fx.quotes.rows, p.id = quoteId ∧
        p.status = .consumed ∧ p.consumedByTransferId = some t.id := by
  subst hid hclient
  have hfreed : ∀ t ∈ s.transaction.db.transfers.rows, t.fxQuoteId ≠ some q.id := fun t ht htq =>
    hnone t ht (hk.bound.owner t ht htq) htq
  have hactive := hk.active hi hq rfl hnow hfreed
  have hcheck : q.check = true := s.fx.quotes.checked q hq
  simp only [Fx.FxQuote.check, Bool.and_eq_true, decide_eq_true_eq] at hcheck
  obtain ⟨⟨⟨⟨⟨hcurrency, hpos⟩, -⟩, -⟩, -⟩, -⟩ := hcheck
  obtain ⟨t, amount, u, hrun, hamount, ht, hexec, hfind, hsent⟩ := claims_alone hi hfree
    hnames.international hrequest (by rwa [hnames.sourceCurrency, hnames.targetCurrency])
    (by rwa [hnames.sourceAmount]) (by rwa [hnames.quoteId])
  rw [hnames.quoteId] at hexec hsent
  obtain ⟨m, hm, hvalue⟩ := exists_money command.sourceAmount.property
  obtain rfl : m = amount := Option.some.inj (hm.symm.trans hamount)
  have hfits : Fx.Fits q (Transaction.consumeCommand t) := by
    subst ht
    refine ⟨hnames.clientId.symm, hnames.sourceCurrency.symm, hnames.targetCurrency.symm, ?_⟩
    exact (hnames.sourceAmount.symm.trans hvalue.symm).trans (Numeric.value_toFixed m).symm
  have hfresh : ∀ p ∈ s.fx.quotes.rows, p.consumedByTransferId ≠ some t.id := by
    intro p hp hconsumer
    obtain ⟨v, hv, -⟩ := hk.unspent.consumer p hp t.id hconsumer
    rw [ht] at hv
    exact absurd (hfree.transfer.symm.trans hv) (by simp)
  obtain ⟨s', response, hrun', hprepare, hdb, p, hp, hconsumed, hconsumer⟩ :=
    consumes_alone (s := { s with transaction := u }) hi.fx hfree.call hexec hsent
      (Fx.findQuote_eq_some_iff.mpr ⟨hq, rfl⟩) hactive hnow hfits hfresh
  obtain ⟨hmem, hpid⟩ := Fx.findQuote_eq_some_iff.mp hp
  refine ⟨_, s', t, response, ?_, (System.run_append hrun _).trans hrun', hprepare, by rwa [hdb],
    by rw [ht]; exact hnames.clientId, by rw [ht]; exact congrArg some hnames.quoteId, p, hmem, hpid,
    hconsumed, hconsumer⟩
  simp [OwnStep]

/-- Where a quote is kept for its client, a request of that client is told that the quote is used
only once a transfer of the client has it, no such transfer fails for it, no consumption of it is
refused as used, and until it expires a request that names it first consumes it. -/
theorem quote_kept_for_client (h : (system config).ReachableBy
    (fun s a => KeepsQuoteFor clientId quoteId s a ∧ RelaysRefusals s a) s) :
    (∀ e request, s.transaction.executions e = some ⟨.create request, none⟩ →
      request.command.quoteId? = some quoteId →
      (e, .error Transaction.quoteAlreadyUsed) ∈ s.transaction.answers →
      ∃ t ∈ s.transaction.db.transfers.rows, t.clientId = clientId ∧ t.fxQuoteId = some quoteId) ∧
    (∀ t ∈ s.transaction.db.transfers.rows, t.fxQuoteId = some quoteId → t.clientId = clientId ∧
      t.failureCode ≠ some Transaction.quoteAlreadyUsed.code) ∧
    (∀ i command arrivedAt, s.fx.calls i ≠
      some ⟨.consume quoteId command, arrivedAt, .answered (.error Fx.quoteAlreadyUsed)⟩) ∧
    ∀ q ∈ s.fx.quotes.rows, q.id = quoteId → q.clientId = clientId →
      s.fx.now.toDate < q.expiresAt →
      (∀ t ∈ s.transaction.db.transfers.rows, t.clientId = clientId → t.fxQuoteId ≠ some quoteId) →
      ∀ e request command (ids : Transaction.ClaimIds), Names request command q →
        Acceptable s request command → Unused s e ids.transferId →
        ∃ as s' t response, (∀ a ∈ as, OwnStep e a) ∧ (system config).run s as = some s' ∧
          s'.transaction.executions e = some ⟨.create request, some (.prepare t response)⟩ ∧
          s'.transaction.db.findTransfer t.id = some t ∧ t.clientId = clientId ∧
          t.fxQuoteId = some quoteId ∧ ∃ p ∈ s'.fx.quotes.rows, p.id = quoteId ∧
            p.status = .consumed ∧ p.consumedByTransferId = some t.id := by
  have hk := keptFor_of_reachableBy h
  refine ⟨fun e request he hnames ho => ?_, fun t ht hq => ⟨hk.bound.owner t ht hq,
    hk.bound.failed t ht hq⟩, hk.unspent.unused, fun q hq hid hclient hnow hnone e request command ids
      hnames hrequest hfree => ?_⟩
  · obtain ⟨request', q, t, horigin, hnames', ht, htq⟩ := hk.bound.refused e _ he ho
    cases horigin
    obtain rfl := Option.some.inj (hnames.symm.trans hnames')
    exact ⟨t, ht, hk.bound.owner t ht htq, htq⟩
  · exact hk.can_consume (invariant_of_reachable h.reachable) hq hid hclient hnow hnone hnames hrequest
      hfree

open Transaction (usd)

/-- A step of FX that marks no quote expired. -/
def expiresNothing (s : State) : Action → Bool
  | .fx (.run i _) =>
    match s.fx.calls i with
    | some ⟨_, _, .running (.expire _ _)⟩ => false
    | _ => true
  | .fx _ => true
  | _ => false

theorem keepsQuoteFor_of_expiresNothing (h : expiresNothing s a = true) :
    KeepsQuoteFor clientId quoteId s a ∧ RelaysRefusals s a := by
  cases a with
  | fx action =>
    refine ⟨?_, trivial⟩
    cases action with
    | run i choice =>
      intro request arrivedAt now hcall
      simp [expiresNothing, hcall] at h
    | _ => trivial
  | _ => cases h

/-- The theorem after `quoteRun`, for the request of the quote's client. -/
theorem quote_kept_for_client_quoteRun : ∃ s as s' t,
    (system settlementConfig).run .initial quoteRun = some s ∧ (∀ a ∈ as, OwnStep 0 a) ∧
    (system settlementConfig).run s as = some s' ∧ t ∈ s'.transaction.db.transfers.rows ∧
    t.clientId = "client-a" ∧ t.fxQuoteId = some 300 ∧
    ∃ p ∈ s'.fx.quotes.rows, p.id = 300 ∧ p.consumedByTransferId = some t.id := by
  have hrun : ((system settlementConfig).runWhere expiresNothing .initial quoteRun).map (fun s =>
      decide (s.fx.now.toDate < 60000) && s.transaction.db.transfers.rows.isEmpty &&
      s.transaction.db.records.rows.isEmpty && (s.transaction.executions 0).isNone &&
      (s.fx.calls (.inl 0)).isNone && s.fx.quotes.rows.any fun q => decide (q.id = 300) &&
        decide (q.clientId = "client-a") && decide (q.expiresAt = 60000) &&
        decide (q.sourceCurrency = usd) && decide (q.targetCurrency = eur) &&
        decide (q.sourceAmount.value = 25)) = some true := by decide +kernel
  obtain ⟨s, hs, hstate⟩ := Option.map_eq_some_iff.mp hrun
  simp only [Bool.and_eq_true, List.any_eq_true, decide_eq_true_eq, List.isEmpty_iff,
    Option.isNone_iff_eq_none] at hstate
  obtain ⟨⟨⟨⟨⟨hnow, htransfers⟩, hrecords⟩, hexecution⟩, hcall⟩, q, hq, ⟨⟨⟨⟨hid, hclient⟩, hexpires⟩,
    hsource⟩, htarget⟩, hamount⟩ := hstate
  have hreachable : (system settlementConfig).ReachableBy
      (fun s a => KeepsQuoteFor "client-a" 300 s a ∧ RelaysRefusals s a) s :=
    System.ReachableBy.runWhere (fun s a => keepsQuoteFor_of_expiresNothing) .init hs
  obtain ⟨-, -, -, hcan⟩ := quote_kept_for_client hreachable
  have hnames : Names internationalRequest _ q :=
    ⟨hclient.symm, hid.symm, hsource.symm, htarget.symm, by rw [hamount]; decide +kernel, rfl⟩
  obtain ⟨as, s', t, response, hown, hrun', -, hfind, hclient', hquote, p, hp, hpid, -, hconsumer⟩ :=
    hcan q hq hid hclient (by rwa [hexpires]) (by simp [htransfers]) 0 internationalRequest _ ⟨7, 0, 0⟩
      hnames ⟨by decide +kernel, by decide, by simp [hrecords]⟩
      ⟨hexecution, hcall, by simp [Transaction.Database.findTransfer, findBy, htransfers]⟩
  exact ⟨s, as, s', t, System.run_of_runWhere hs, hown, hrun',
    (Transaction.Database.findTransfer_eq_some_iff.mp hfind).1, hclient', hquote, p, hp, hpid, hconsumer⟩

/-- Another client's request that names the quote 300. -/
def strangerRequest : Transaction.CreateRequest :=
  { internationalRequest with clientId := "client-b", key := "order-3" }

/-- The stranger's transfer binds the quote before FX denies it access, and the client's own request
comes after it. -/
def strangerRun : List Action := quoteRun ++ [
  .transaction (.request 0 (.create strangerRequest)),
  .transaction (.run 0 {}),
  .transaction (.run 0 { ids := ⟨7, 0, 0⟩ }),
  .fx (.start (.inl 0) (.consume 300 { consumption with clientId := "client-b" })),
  .fx (.run (.inl 0) {}),
  .transaction (.run 0 { quote := .error (.http Fx.quoteAccessDenied) }),
  .transaction (.request 1 (.create internationalRequest)),
  .transaction (.run 1 {}),
  .transaction (.run 1 { ids := ⟨8, 0, 0⟩ }),
  .transaction (.run 1 {}),
  .transaction (.run 1 {})]

/-- At the end of `strangerRun` the client, whose quote is active and unexpired and named by none of
its transfers, has been told that it is used. -/
theorem quote_taken_by_stranger : ∃ s, (system settlementConfig).Reachable s ∧
    s.transaction.executions 1 = some ⟨.create internationalRequest, none⟩ ∧
    (1, .error Transaction.quoteAlreadyUsed) ∈ s.transaction.answers ∧
    (∀ t ∈ s.transaction.db.transfers.rows, t.clientId ≠ internationalRequest.clientId) ∧
    ∃ q ∈ s.fx.quotes.rows, q.id = 300 ∧ q.clientId = internationalRequest.clientId ∧
      q.status = .active ∧ s.fx.now.toDate < q.expiresAt := by
  have hrun : ((system settlementConfig).run .initial strangerRun).map (fun s =>
      decide (s.transaction.executions 1 = some ⟨.create internationalRequest, none⟩) &&
      decide ((1, .error Transaction.quoteAlreadyUsed) ∈ s.transaction.answers) &&
      s.transaction.db.transfers.rows.all (fun t =>
        decide (t.clientId ≠ internationalRequest.clientId)) &&
      s.fx.quotes.rows.any fun q => decide (q.id = 300) &&
        decide (q.clientId = internationalRequest.clientId) && decide (q.status = .active) &&
        decide (s.fx.now.toDate < q.expiresAt)) = some true := by decide +kernel
  obtain ⟨s, hs, hstate⟩ := Option.map_eq_some_iff.mp hrun
  simp only [Bool.and_eq_true, List.any_eq_true, List.all_eq_true, decide_eq_true_eq] at hstate
  obtain ⟨⟨⟨hexecution, hanswer⟩, hothers⟩, q, hq, ⟨⟨hid, hclient⟩, hactive⟩, hnow⟩ := hstate
  exact ⟨s, System.reachable_of_run hs, hexecution, hanswer, hothers, q, hq, hid, hclient, hactive, hnow⟩

end NovaPay.Settlement
