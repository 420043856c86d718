import NovaPay.Settlement.System

/-!
# What the three services agree on

The invariants of the services, with what ties them together: a call of the Ledger carries a posting
that Transaction sent, and what Transaction was told stands in the tables of the others.
-/

namespace NovaPay.Settlement

open DecimalArithmetic Relational TransitionSystem

variable {config : Config} {s s' : State} {a : Action}

/-- What the answers of FX and Ledger stand for. -/
def State.upstream (s : State) : Transaction.Upstream where
  posted id x := ∃ tx ∈ s.ledger.db.transactions.rows, tx.externalReference = id ∧ tx.id = x
  quoted quoteId command response := ∃ q, Fx.Consumption s.fx.quotes quoteId command response q

structure Invariant (config : Config) (s : State) : Prop where
  transaction : Transaction.Invariant config.transaction s.transaction
  calls : Transaction.CallsOk s.transaction
  fx : Fx.Invariant s.fx
  ledger : Ledger.Invariant config.ledger s.ledger
  backed : Transaction.Backed s.upstream s.transaction
  sent : ∀ e call, s.ledger.calls (.inl e) = some call → s.sentPosting e call.request = true
  others : ∀ i call, s.ledger.calls (.inr i) = some call → isPost call.request = false
  consuming : ∀ e call, s.fx.calls (.inl e) = some call → s.sentConsume e call.request = true
  quoting : ∀ i call, s.fx.calls (.inr i) = some call → isConsume call.request = false

theorem invariant_initial : Invariant config .initial where
  transaction := Transaction.invariant_initial
  calls := Transaction.callsOk_initial
  fx := Fx.invariant_initial
  ledger := Ledger.invariant_initial
  backed := Transaction.backed_initial
  sent := by simp [State.initial, Ledger.State.initial]
  others := by simp [State.initial, Ledger.State.initial]
  consuming := by simp [State.initial, Fx.State.initial]
  quoting := by simp [State.initial, Fx.State.initial]

theorem upstream_stays_of_fx {fx : Fx.State Caller} (h : Fx.Keeps s.fx.quotes fx.quotes) :
    s.upstream.Stays { s with fx : State }.upstream :=
  ⟨fun _ _ h => h, fun quoteId command response (hquoted : Fx.AnswerOk s.fx.quotes
    (.consume quoteId command) response) => hquoted.mono h⟩

theorem upstream_stays_of_ledger {ledger : Ledger.State Caller}
    (h : Ledger.Grows s.ledger.db ledger.db) : s.upstream.Stays { s with ledger : State }.upstream := by
  refine ⟨fun id x hposted => ?_, fun _ _ _ h => h⟩
  obtain ⟨tx, htx, hid⟩ := hposted
  exact ⟨tx, h.transactions.subset htx, hid⟩

theorem answersPost_ok {call : Option Ledger.Call} {command : PostingCommand} {posting : LedgerPosting}
    (h : answersPost call command (.ok (some posting)) = true) :
    call = some ⟨.post command false, .answered (.posting posting)⟩ := of_decide_eq_true h

theorem answersConsume_ok {call : Option Fx.Call} {request : Fx.Request} {response : QuoteResponse}
    (h : answersConsume call request (.ok (some response)) = true) :
    ∃ arrivedAt, call = some ⟨request, arrivedAt, .answered (.quote response)⟩ := by
  simp only [answersConsume, Option.any_eq_true, Bool.and_eq_true, decide_eq_true_eq] at h
  obtain ⟨⟨request', arrivedAt, progress⟩, rfl, rfl, rfl⟩ := h
  exact ⟨arrivedAt, rfl⟩

/-- The answers that a step is permitted to take are true. -/
theorem Invariant.truthful (hi : Invariant config s) {e : Transaction.ExecId}
    {choice : Transaction.Choice} {origin : Transaction.Origin} {pc : Transaction.Pc}
    (he : s.transaction.executions e = some ⟨origin, some pc⟩)
    (h : s.answers e choice pc = true) : choice.Truthful s.upstream pc := by
  cases pc with
  | byReference t force =>
    intro posting hfound
    simp only [State.answers, hfound, answersLookup, List.any_eq_true, Bool.and_eq_true,
      decide_eq_true_eq] at h
    obtain ⟨tx, htx, href, rfl⟩ := h
    exact ⟨tx, htx, href, rfl⟩
  | post t sender recipient command =>
    intro posting hposting
    simp only [State.answers, hposting] at h
    obtain ⟨tx, htx, href, -, rfl⟩ := hi.ledger.answered _ _ _ (answersPost_ok h)
    obtain ⟨-, -, requestId, hcommand⟩ := (hi.transaction.running e origin _ he).checked
    refine ⟨tx, htx, ?_, rfl⟩
    rw [← Option.some.inj href]
    unfold Transaction.postingCommand at hcommand
    repeat' split at hcommand
    all_goals cases hcommand
    rfl
  | consume t quoteId =>
    intro response hquote
    simp only [State.answers, hquote] at h
    obtain ⟨arrivedAt, hcall⟩ := answersConsume_ok h
    exact hi.fx.answered _ _ arrivedAt response hcall
  | _ => trivial

theorem sentPosting_mono {t : Transaction.State} {e : Transaction.ExecId} {request : Ledger.Request}
    (h : Transaction.step config.transaction s.transaction action = some t)
    (hs : s.sentPosting e request = true) :
    State.sentPosting { s with transaction := t } e request = true := by
  obtain ⟨v, sender, recipient, posting, rfl, hmem⟩ := sentPosting_iff.mp hs
  exact sentPosting_iff.mpr ⟨v, sender, recipient, posting, rfl, Transaction.calls_grow h hmem⟩

theorem sentConsume_mono {t : Transaction.State} {e : Transaction.ExecId} {request : Fx.Request}
    (h : Transaction.step config.transaction s.transaction action = some t)
    (hs : s.sentConsume e request = true) :
    State.sentConsume { s with transaction := t } e request = true := by
  obtain ⟨quoteId, command, rfl, hmem⟩ := sentConsume_iff.mp hs
  exact sentConsume_iff.mpr ⟨quoteId, command, rfl, Transaction.calls_grow h hmem⟩

theorem Invariant.step (hi : Invariant config s) (h : step config s a = some s') :
    Invariant config s' := by
  obtain ⟨hpermits, ⟨action, t, rfl, ht, rfl⟩ | ⟨action, fx, rfl, hfx, rfl⟩ |
    ⟨action, ledger, rfl, hledger, rfl⟩⟩ := step_cases h
  · have htruthful : ∀ e choice origin pc, action = .run e choice →
        s.transaction.executions e = some ⟨origin, some pc⟩ →
        choice.Truthful s.upstream pc := by
      rintro e choice origin pc rfl he
      refine hi.truthful he ?_
      simpa only [State.permits, he] using hpermits
    exact { hi with
      transaction := hi.transaction.step ht
      calls := hi.calls.step hi.transaction ht
      backed := hi.backed.step hi.transaction ht htruthful
      sent := fun e call hcall => sentPosting_mono ht (hi.sent e call hcall)
      consuming := fun e call hcall => sentConsume_mono ht (hi.consuming e call hcall) }
  · refine { hi with
      fx := hi.fx.step hfx
      backed := hi.backed.mono (upstream_stays_of_fx (Fx.step_change hi.fx hfx).keeps)
      consuming := fun e call hcall => ?_
      quoting := fun i call hcall => ?_ }
    · rcases Fx.calls_of_step hfx hcall with ⟨progress, hold⟩ | rfl | ⟨error, rfl⟩
      · have hsent := hi.consuming e _ hold
        exact hsent
      · exact hpermits
      · simp only [State.permits, Bool.and_eq_true] at hpermits
        exact hpermits.1
    · rcases Fx.calls_of_step hfx hcall with ⟨progress, hold⟩ | rfl | ⟨error, rfl⟩
      · have hother := hi.quoting i _ hold
        exact hother
      · simpa [State.permits] using hpermits
      · simpa [State.permits] using hpermits
  · have hgrows := Ledger.step_grows hi.ledger hledger
    refine { hi with
      ledger := hi.ledger.step hledger
      backed := hi.backed.mono (upstream_stays_of_ledger hgrows)
      sent := fun e call hcall => ?_
      others := fun i call hcall => ?_ }
    · rcases Ledger.calls_of_step hledger hcall with ⟨progress, hold⟩ | rfl | ⟨error, rfl⟩
      · have hsent := hi.sent e _ hold
        exact hsent
      · exact hpermits
      · simp only [State.permits, Bool.and_eq_true] at hpermits
        exact hpermits.1
    · rcases Ledger.calls_of_step hledger hcall with ⟨progress, hold⟩ | rfl | ⟨error, rfl⟩
      · have hother := hi.others i _ hold
        exact hother
      · simpa [State.permits] using hpermits
      · simpa [State.permits] using hpermits

theorem invariant_of_reachable (h : (system config).Reachable s) : Invariant config s :=
  System.Reachable.invariant invariant_initial (fun _ _ _ _ hi hs => hi.step hs) h

/-- A committed transfer or FX transfer was posted for a call of Transaction. -/
theorem Invariant.posted (hi : Invariant config s) {tx : Ledger.LedgerTransaction}
    (htx : tx ∈ s.ledger.db.transactions.rows) :
    (∃ e t sender recipient posting,
      (e, .post t sender recipient posting) ∈ s.transaction.calls ∧
      s.ledger.calls (.inl e) = some ⟨.post posting false, .answered (.posting (Ledger.toResponse tx))⟩ ∧
      Ledger.Posted config.ledger s.ledger.db (.post posting false) tx) ∨
    ∃ i request, s.ledger.calls (.inr i) = some ⟨request, .answered (.posting (Ledger.toResponse tx))⟩ ∧
      isPost request = false ∧ Ledger.Posted config.ledger s.ledger.db request tx := by
  obtain ⟨i, request, hcall, hposted⟩ := hi.ledger.committed tx htx
  cases i with
  | inl e =>
    obtain ⟨t, sender, recipient, posting, rfl, hmem⟩ := sentPosting_iff.mp (hi.sent e _ hcall)
    exact .inl ⟨e, t, sender, recipient, posting, hmem, hcall, hposted⟩
  | inr i => exact .inr ⟨i, request, hcall, hi.others i _ hcall, hposted⟩

end NovaPay.Settlement
