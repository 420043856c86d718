import NovaPay.Settlement.Postings

/-!
# A quote settles one transfer

A quote is consumed by one transfer before it expires, and what the Ledger posts for an international
transfer are the terms of the quote that this transfer consumed.
-/

namespace NovaPay.Settlement

open DecimalArithmetic Relational TransitionSystem

variable {config : Config} {s s' : State} {e : Transaction.ExecId} {t u : Transaction.Transfer}
  {sender recipient : WalletValidation} {posting : PostingCommand} {tx : Ledger.LedgerTransaction}
  {q : Fx.FxQuote}

theorem steps_fx (h : (system config).Steps s s') : (Fx.system Caller).Steps s.fx s'.fx := by
  induction h with
  | refl => exact .refl
  | tail _ hlast ih =>
    obtain ⟨a, ha⟩ := hlast
    obtain ⟨-, ⟨_, _, -, -, rfl⟩ | ⟨action, fx, -, hfx, rfl⟩ | ⟨_, _, -, -, rfl⟩⟩ := step_cases ha
    · exact ih
    · exact ih.trans (System.Steps.single hfx)
    · exact ih

/-- Who asks FX to consume a quote is a transfer that names it. -/
theorem Invariant.consumption_of_transfer (hi : Invariant config s) {i : Caller} {quoteId : Uuid}
    {command : ConsumeQuote} {arrivedAt : Time} {progress : Fx.Progress}
    (h : s.fx.calls i = some ⟨.consume quoteId command, arrivedAt, progress⟩) :
    ∃ t, s.transaction.db.findTransfer t.id = some t ∧ t.fxQuoteId = some quoteId ∧
      command = Transaction.consumeCommand t := by
  cases i with
  | inr i => exact absurd (hi.quoting i _ h) (by simp [isConsume])
  | inl e =>
    obtain ⟨quoteId', command', heq, hmem⟩ := sentConsume_iff.mp (hi.consuming e _ h)
    cases heq
    obtain ⟨t, ⟨u, hu, hprog⟩, hq, rfl⟩ := hi.calls.consumes e quoteId command hmem
    have hsame := hprog.same
    exact ⟨u, hsame.id ▸ hu, hsame.fxQuoteId ▸ hq, Transaction.consumeCommand_same hsame⟩

/-- The terms of a transfer are those of the quote that it consumed. -/
structure SettledBy (t : Transaction.Transfer) (q : Fx.FxQuote) : Prop where
  consumer : q.consumedByTransferId = some t.id
  quoteId : t.fxQuoteId = some q.id
  sourceAmount : t.sourceAmount = q.sourceAmount
  targetAmount : t.targetAmount = some q.targetAmount
  lockedFxRate : t.lockedFxRate = some q.rate

/-- A transfer that was prepared has consumed its quote. -/
theorem Invariant.settledBy (hi : Invariant config s)
    (ht : s.transaction.db.findTransfer t.id = some t) (htype : t.type = .international)
    (hamount : t.targetAmount ≠ none) : ∃ q ∈ s.fx.quotes.rows, SettledBy t q := by
  obtain ⟨quoteId, quote, targetAmount, lockedFxRate, hq, ⟨q, hconsumed⟩, htarget, htext, hrate,
    hratetext⟩ := (hi.backed.rows t.id t ht).prepared htype hamount
  obtain ⟨now, rfl⟩ := hconsumed.response
  obtain ⟨hmem, rfl⟩ := Fx.findQuote_eq_some_iff.mp hconsumed.found
  have hsource : q.sourceAmount.value = t.sourceAmount.value := by
    rw [hconsumed.fits.sourceAmount]
    exact Numeric.value_toFixed t.sourceAmount
  change Numeric.ofRat? (toFixed 8 q.targetAmount.value).value = some targetAmount at htext
  change Numeric.ofRat? (toFixed 12 q.rate.value).value = some lockedFxRate at hratetext
  rw [Numeric.value_toFixed, Numeric.ofRat?_value] at htext hratetext
  exact ⟨q, hmem, hconsumed.transferId, hq, (Numeric.value_injective hsource).symm,
    htarget.trans htext.symm, hrate.trans hratetext.symm⟩

/-- A posting carries the terms of a transfer. -/
structure Carries (tx : Ledger.LedgerTransaction) (t : Transaction.Transfer) : Prop where
  reference : tx.externalReference = t.id
  type : t.type = .international
  fxQuoteId : tx.fxQuoteId = t.fxQuoteId
  lockedFxRate : tx.lockedFxRate = t.lockedFxRate
  sourceAmount : tx.sourceAmount = t.sourceAmount
  targetAmount : some tx.targetAmount = t.targetAmount

theorem carries_of_posted {db : Ledger.Database} {targetAmount : Money}
    (htarget : u.targetAmount = some targetAmount)
    (hrate : ¬ (u.type = .international ∧ u.lockedFxRate = none)) {requestId : UuidText}
    (hposted : Ledger.Posted config.ledger db
      (.post (Transaction.postingOf u targetAmount requestId) false) tx)
    (htype : tx.postingType = .fxTransfer) : Carries tx u := by
  obtain ⟨p, hresolved, hstores⟩ := hposted
  generalize tx.commandHash = commandHash at hresolved
  cases hresolved
  have hinternational : u.type = .international := by
    rw [hstores.postingType] at htype
    simp only [Ledger.resolvePosting, Transaction.postingOf] at htype
    split at htype
    · assumption
    · cases htype
  obtain ⟨lockedFxRate, hlocked⟩ : ∃ r, u.lockedFxRate = some r :=
    Option.ne_none_iff_exists'.mp fun h => hrate ⟨hinternational, h⟩
  have hquote := hstores.fxQuoteId
  have hsource := hstores.sourceAmount
  have hamount := hstores.targetAmount
  simp only [Ledger.resolvePosting, Transaction.postingOf, hinternational, if_true, Option.map_map]
    at hquote hsource hamount
  rw [Numeric.value_toFixed, Numeric.ofRat?_value] at hsource hamount
  obtain ⟨stored, hstored, hrateof⟩ := hstores.lockedFxRate lockedFxRate.value (by
    simp only [Ledger.resolvePosting, Transaction.postingOf, hinternational, if_true, hlocked,
      Option.map_some, Numeric.value_toFixed])
  rw [Numeric.ofRat?_value] at hrateof
  refine ⟨hstores.externalReference, hinternational, ?_, ?_, (Option.some.inj hsource).symm, ?_⟩
  · rw [hquote]
    cases u.fxQuoteId <;> rfl
  · rw [hstored, hlocked, hrateof]
  · rw [htarget, hamount]

/-- An FX posting was made for a transfer, and carries its terms. -/
theorem Invariant.carries (hi : Invariant config s) (htx : tx ∈ s.ledger.db.transactions.rows)
    (htype : tx.postingType = .fxTransfer) :
    ∃ t, s.transaction.db.findTransfer t.id = some t ∧ Carries tx t := by
  rcases hi.posted htx with ⟨e, u, sender, recipient, posting, hmem, -, hposted⟩ |
    ⟨i, request, -, hpost, p, hresolved, hstores⟩
  · have hpost := hi.calls.posts _ _ _ _ _ hmem
    obtain ⟨t, ht, hprog⟩ := hpost.snapshot
    obtain ⟨hamount, hrate⟩ := hprog.terms.resolve_left (by simp [hpost.processing])
    have hsame := hprog.same
    obtain ⟨requestId, hcommand⟩ := hpost.command
    unfold Transaction.postingCommand at hcommand
    split at hcommand
    · next targetAmount htarget =>
      split at hcommand
      · cases hcommand
      next hlocked =>
      cases hcommand
      have hcarries := carries_of_posted htarget hlocked hposted htype
      exact ⟨t, hsame.id ▸ ht, hcarries.reference.trans hsame.id, hsame.type ▸ hcarries.type,
        hcarries.fxQuoteId.trans hsame.fxQuoteId, hcarries.lockedFxRate.trans hrate.symm,
        hcarries.sourceAmount.trans hsame.sourceAmount, hcarries.targetAmount.trans hamount.symm⟩
    · cases hcommand
  · rw [hstores.postingType] at htype
    generalize tx.commandHash = commandHash at hresolved
    cases hresolved with
    | post => simp [isPost] at hpost
    | fund => cases htype
    | reverse => cases htype

/-- What an FX posting is for: a quote, with its terms, that the transfer of the posting consumed. -/
structure SettlesQuote (tx : Ledger.LedgerTransaction) (q : Fx.FxQuote) : Prop where
  consumer : q.consumedByTransferId = some tx.externalReference
  fxQuoteId : tx.fxQuoteId = some q.id
  lockedFxRate : tx.lockedFxRate = some q.rate
  sourceAmount : tx.sourceAmount = q.sourceAmount
  targetAmount : tx.targetAmount = q.targetAmount

theorem Invariant.settlesQuote (hi : Invariant config s) (htx : tx ∈ s.ledger.db.transactions.rows)
    (htype : tx.postingType = .fxTransfer) : ∃ q ∈ s.fx.quotes.rows, SettlesQuote tx q := by
  obtain ⟨t, ht, hc⟩ := hi.carries htx htype
  obtain ⟨q, hq, hs⟩ := hi.settledBy ht hc.type (by rw [← hc.targetAmount]; simp)
  exact ⟨q, hq, hs.consumer.trans (congrArg some hc.reference.symm), hc.fxQuoteId.trans hs.quoteId,
    hc.lockedFxRate.trans hs.lockedFxRate, hc.sourceAmount.trans hs.sourceAmount,
    Option.some.inj (hc.targetAmount.trans hs.targetAmount)⟩

theorem quote_eq {p : Fx.FxQuote} (hq : q ∈ s.fx.quotes.rows) (hp : p ∈ s.fx.quotes.rows)
    (hid : q.id = p.id) : q = p := eq_of_uniqueBy (Fx.quote_ids s.fx.quotes) hq hp hid

/-- A consumption that arrives once the quote is consumed is answered by its first statement: with
the same terms for the transfer that has the quote, with a rejection for any other. -/
def AnsweredFromNowOn (config : Config) (s : State) (q : Fx.FxQuote) (transferId : Uuid) : Prop :=
  ∀ s', (system config).Steps s s' → ∀ i command arrivedAt pc, s.fx.calls i = none →
    s'.fx.calls i = some ⟨.consume q.id command, arrivedAt, .running pc⟩ →
    (command.transferId.value = transferId → Fx.Fits q command → ∃ now, ∀ choice,
      Fx.advance choice s'.fx.quotes pc = (s'.fx.quotes, .answer (.quote (Fx.toResponse q now)))) ∧
    (command.transferId.value ≠ transferId → ∃ error ∈ Fx.consumeRejections, ∀ choice,
      Fx.advance choice s'.fx.quotes pc = (s'.fx.quotes, .answer (.error error)))

theorem answeredFromNowOn (h : (system config).Reachable s) (hq : q ∈ s.fx.quotes.rows)
    (hs : q.status = .consumed) {transferId : Uuid} (hc : q.consumedByTransferId = some transferId) :
    AnsweredFromNowOn config s q transferId := by
  intro s' hsteps i command arrivedAt pc hfree hcall
  have hfind := Fx.findQuote_eq_some_iff.mpr ⟨hq, rfl⟩
  obtain ⟨hfind', now, rfl⟩ := Fx.reads_only (fx_simulation.reachable h) (steps_fx hsteps) hfind hs
    hfree hcall
  refine ⟨fun hid hfits => ⟨now, fun choice => ?_⟩, fun hid => ?_⟩
  · obtain ⟨t, -, -, rfl⟩ := (invariant_of_reachable (h.steps hsteps)).consumption_of_transfer hcall
    have hspelled : (Transaction.consumeCommand t).transferId = .ofUuid transferId := by
      rw [← hid]
      rfl
    exact congrArg (Prod.mk _) (Fx.consume_again hfind' hs hc hfits hspelled)
  · obtain ⟨error, herror, hread⟩ := Fx.consume_other now hfind' hs hc hid
    exact ⟨error, herror, fun choice => congrArg (Prod.mk _) hread⟩

/-- The terms of a quote never change, and a consumed quote does not change at all; it was consumed
by one transfer before it expired, whoever is answered with it is that transfer, and so is whoever
asks for it later; every FX posting carries the terms of the quote that its transfer consumed, and
no two of them carry one quote. -/
theorem quotes_settle_once (h : (system config).Reachable s) :
    (∀ s', (system config).Steps s s' → ∀ q ∈ s.fx.quotes.rows, ∃ p ∈ s'.fx.quotes.rows,
      Fx.SameTerms q p ∧ (q.status = .consumed → p = q)) ∧
    (∀ q ∈ s.fx.quotes.rows, q.status = .consumed → ∃ transferId consumedAt,
      q.consumedByTransferId = some transferId ∧ q.consumedAt = some consumedAt ∧
      consumedAt < q.expiresAt ∧ AnsweredFromNowOn config s q transferId) ∧
    (∀ i quoteId command arrivedAt response,
      s.fx.calls i = some ⟨.consume quoteId command, arrivedAt, .answered (.quote response)⟩ →
      ∃ q ∈ s.fx.quotes.rows, q.id = quoteId ∧ q.status = .consumed ∧
        q.consumedByTransferId = some command.transferId.value ∧
        ∃ now, response = Fx.toResponse q now) ∧
    (∀ tx ∈ s.ledger.db.transactions.rows, tx.postingType = .fxTransfer →
      (∃ t ∈ s.transaction.db.transfers.rows, t.id = tx.externalReference) ∧
      ∃ q ∈ s.fx.quotes.rows, SettlesQuote tx q) ∧
    (∀ tx ∈ s.ledger.db.transactions.rows, ∀ tx' ∈ s.ledger.db.transactions.rows,
      tx.postingType = .fxTransfer → tx'.postingType = .fxTransfer →
      tx.fxQuoteId = tx'.fxQuoteId → tx = tx') := by
  have hi := invariant_of_reachable h
  refine ⟨fun s' hsteps q hq => ?_, fun q hq hs => ?_, fun i quoteId command arrivedAt response hc => ?_,
    fun tx htx htype => ?_, fun tx htx tx' htx' htype htype' heq => ?_⟩
  · obtain ⟨p, hp, hkept⟩ := Fx.keeps_of_steps (fx_simulation.reachable h) (steps_fx hsteps) _ q
      (Fx.findQuote_eq_some_iff.mpr ⟨hq, rfl⟩)
    exact ⟨p, (Fx.findQuote_eq_some_iff.mp hp).1, hkept.terms, hkept.frozen⟩
  · obtain ⟨transferId, consumedAt, hc, hat, hlt⟩ := (hi.fx.rows q hq).consumed hs
    exact ⟨transferId, consumedAt, hc, hat, hlt, answeredFromNowOn h hq hs hc⟩
  · obtain ⟨q, hq⟩ := hi.fx.answered i _ arrivedAt response hc
    obtain ⟨hmem, hid⟩ := Fx.findQuote_eq_some_iff.mp hq.found
    exact ⟨q, hmem, hid, hq.status, hq.transferId, hq.response⟩
  · obtain ⟨t, ht, hcarries⟩ := hi.carries htx htype
    exact ⟨⟨t, (Transaction.Database.findTransfer_eq_some_iff.mp ht).1, hcarries.reference.symm⟩,
      hi.settlesQuote htx htype⟩
  · obtain ⟨q, hq, hs⟩ := hi.settlesQuote htx htype
    obtain ⟨q', hq', hs'⟩ := hi.settlesQuote htx' htype'
    rw [hs.fxQuoteId, hs'.fxQuoteId] at heq
    obtain rfl := quote_eq hq hq' (Option.some.inj heq)
    exact eq_of_uniqueBy s.ledger.db.external_references htx htx'
      (Option.some.inj (hs.consumer.symm.trans hs'.consumer))

open Transaction (usd twentyFive senderWallet recipientWallet)

def eur : Currency := (4, 20, 17)

/-- Twenty-five dollars into euros, with the quote 300. -/
def internationalRequest : Transaction.CreateRequest where
  clientId := "client-a"
  key := "order-2"
  command := .international
    { senderWalletId := .ofUuid senderWallet
      recipientWalletId := .ofUuid recipientWallet
      sourceAmount := twentyFive
      sourceCurrency := usd
      targetCurrency := eur
      quoteId := .ofUuid 300 }

def consumption : ConsumeQuote where
  transferId := .ofUuid 7
  clientId := "client-a"
  sourceCurrency := usd
  targetCurrency := eur
  sourceAmount := ⟨2500000000, 8⟩

def consumedQuote : QuoteResponse where
  quoteId := 300
  sourceCurrency := usd
  targetCurrency := eur
  sourceAmount := ⟨2500000000, 8⟩
  targetAmount := ⟨2250000000, 8⟩
  rate := ⟨900000000000, 12⟩
  status := .consumed
  issuedAt := 0
  expiresAt := 60000
  valid := false
  remainingSeconds := 0

def internationalPosting : PostingCommand where
  externalReference := .ofUuid 7
  requestId := .ofUuid 0
  postingType := .fxTransfer
  sourceCurrency := usd
  targetCurrency := eur
  sourceAmount := ⟨2500000000, 8⟩
  targetAmount := ⟨2250000000, 8⟩
  fxQuoteId := some (.ofUuid 300)
  lockedFxRate := some ⟨900000000000, 12⟩
  entries := [
    ⟨.ofUuid senderWallet, .debit, ⟨2500000000, 8⟩, usd⟩,
    ⟨.ofUuid recipientWallet, .credit, ⟨2250000000, 8⟩, eur⟩]

/-- A quote of 0.9 euros to the dollar, issued to the sender. -/
def quoteRun : List Action := [
  .fx (.start (.inr 0) (.create "client-a" ⟨usd, eur, twentyFive⟩)),
  .fx (.run (.inr 0) { id := 300, fresh := ⟨⟨9, 1⟩, "provider-1"⟩ })]

/-- A funded sender and the quote, which an international transfer consumes and settles with. -/
def internationalRun : List Action :=
  provisionRun 0 senderWallet 1 usd ++ provisionRun 1 recipientWallet 2 eur ++
  fundRun 2 fortyDollars 3 4 ++ quoteRun ++ [
  .transaction (.request 0 (.create internationalRequest)),
  .transaction (.run 0 {}),
  .transaction (.run 0 { ids := ⟨7, 0, 0⟩ }),
  .fx (.start (.inl 0) (.consume 300 consumption)),
  .fx (.run (.inl 0) {}),
  .fx (.run (.inl 0) {}),
  .transaction (.run 0 { quote := .ok (some consumedQuote) }),
  .transaction (.run 0 { ids := ⟨0, 8, 9⟩ }),
  .transaction (.run 0 {}),
  .transaction (.run 0 {
    account := .ok (Transaction.walletOf senderWallet "client-a" 1,
      { Transaction.walletOf recipientWallet "client-b" 2 with currency := eur }) }),
  .ledger (.start (.inl 0) (.post internationalPosting false)),
  .ledger (.run (.inl 0) {}),
  .ledger (.run (.inl 0) {}),
  .ledger (.run (.inl 0) {}),
  .ledger (.run (.inl 0) { source := false }),
  .ledger (.run (.inl 0) { source := false, id := 6 }),
  .ledger (.run (.inl 0) { id := 100 })]

/-- The theorem at the end of `internationalRun`. -/
theorem quotes_settle_once_internationalRun : ∃ s,
    (system settlementConfig).run .initial internationalRun = some s ∧
    ∃ tx ∈ s.ledger.db.transactions.rows, tx.postingType = .fxTransfer ∧
      ∃ q ∈ s.fx.quotes.rows, SettlesQuote tx q := by
  have hrun : ((system settlementConfig).run .initial internationalRun).map (fun s =>
      s.ledger.db.transactions.rows.map Ledger.LedgerTransaction.postingType) =
      some [.funding, .fxTransfer] := by decide +kernel
  obtain ⟨s, hs, hrows⟩ := Option.map_eq_some_iff.mp hrun
  obtain ⟨tx, htx, htype⟩ := List.mem_map.mp
    (hrows ▸ List.mem_cons_of_mem _ (List.mem_singleton.mpr rfl))
  obtain ⟨-, -, -, hposted, -⟩ := quotes_settle_once (System.reachable_of_run hs)
  exact ⟨s, hs, tx, htx, htype, (hposted tx htx htype).2⟩

end NovaPay.Settlement
