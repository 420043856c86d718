import NovaPay.Fx.Quotes

/-!
# The consumption of a quote

The terms of a quote never change, and once it is consumed nothing of it does. Whoever is answered
with a quote by `consume` is the transfer it was consumed by.
-/

namespace NovaPay.Fx

open DecimalArithmetic Relational TransitionSystem

variable {quotes quotes' : Quotes} {q p : FxQuote} {quoteId : Uuid} {request : Request}

theorem quote_ids (quotes : Quotes) : uniqueBy FxQuote.id quotes.rows = true := by
  have h : quotesIndexed quotes.rows = true := quotes.indexed
  simp only [quotesIndexed, Bool.and_eq_true] at h
  exact h.1

theorem quote_transfers (quotes : Quotes) :
    uniqueWhere FxQuote.consumedByTransferId quotes.rows = true := by
  have h : quotesIndexed quotes.rows = true := quotes.indexed
  simp only [quotesIndexed, Bool.and_eq_true] at h
  exact h.2

theorem findQuote_eq_some_iff :
    findQuote quotes quoteId = some q ↔ q ∈ quotes.rows ∧ q.id = quoteId :=
  findBy_eq_some_iff (quote_ids quotes)

/-- Agreement of two rows of a quote in its terms. -/
structure SameTerms (q p : FxQuote) : Prop where
  id : q.id = p.id
  clientId : q.clientId = p.clientId
  sourceCurrency : q.sourceCurrency = p.sourceCurrency
  targetCurrency : q.targetCurrency = p.targetCurrency
  sourceAmount : q.sourceAmount = p.sourceAmount
  targetAmount : q.targetAmount = p.targetAmount
  rate : q.rate = p.rate
  providerReference : q.providerReference = p.providerReference
  issuedAt : q.issuedAt = p.issuedAt
  expiresAt : q.expiresAt = p.expiresAt

theorem SameTerms.refl (q : FxQuote) : SameTerms q q :=
  ⟨rfl, rfl, rfl, rfl, rfl, rfl, rfl, rfl, rfl, rfl⟩

theorem SameTerms.trans {r : FxQuote} (h : SameTerms q p) (k : SameTerms p r) : SameTerms q r :=
  ⟨h.id.trans k.id, h.clientId.trans k.clientId, h.sourceCurrency.trans k.sourceCurrency,
    h.targetCurrency.trans k.targetCurrency, h.sourceAmount.trans k.sourceAmount,
    h.targetAmount.trans k.targetAmount, h.rate.trans k.rate,
    h.providerReference.trans k.providerReference, h.issuedAt.trans k.issuedAt,
    h.expiresAt.trans k.expiresAt⟩

/-- What a later row of a quote keeps of an earlier one. -/
structure Kept (q p : FxQuote) : Prop where
  terms : SameTerms q p
  frozen : q.status = .consumed → p = q

theorem Kept.refl (q : FxQuote) : Kept q q := ⟨.refl q, fun _ => rfl⟩

theorem Kept.trans {r : FxQuote} (h : Kept q p) (k : Kept p r) : Kept q r := by
  refine ⟨h.terms.trans k.terms, fun hq => ?_⟩
  obtain rfl := h.frozen hq
  exact k.frozen hq

/-- No quote is removed, and each is kept. -/
def Keeps (quotes quotes' : Quotes) : Prop :=
  ∀ id q, findQuote quotes id = some q → ∃ p, findQuote quotes' id = some p ∧ Kept q p

theorem Keeps.refl (quotes : Quotes) : Keeps quotes quotes := fun _ q h => ⟨q, h, .refl q⟩

theorem Keeps.trans {quotes'' : Quotes} (h : Keeps quotes quotes') (k : Keeps quotes' quotes'') :
    Keeps quotes quotes'' := by
  intro id q hq
  obtain ⟨p, hp, hkept⟩ := h id q hq
  obtain ⟨r, hr, hkept'⟩ := k id p hp
  exact ⟨r, hr, hkept.trans hkept'⟩

/-- A consumed quote names its transfer and was consumed before it expired; any other names none. -/
structure RowOk (q : FxQuote) : Prop where
  consumed : q.status = .consumed → ∃ transferId at', q.consumedByTransferId = some transferId ∧
    q.consumedAt = some at' ∧ at' < q.expiresAt
  unconsumed : q.status ≠ .consumed → q.consumedByTransferId = none

def RowsOk (quotes : Quotes) : Prop := ∀ q ∈ quotes.rows, RowOk q

/-- `quotes'` is `quotes` but for the row of one quote. -/
structure Replaced (quotes quotes' : Quotes) (q p : FxQuote) : Prop where
  found : findQuote quotes q.id = some q
  replaced : ∀ id, findQuote quotes' id = if id = q.id then some p else findQuote quotes id

/-- What one statement does to the quotes. -/
inductive Change (quotes quotes' : Quotes) : Prop
  | unchanged : quotes' = quotes → Change quotes quotes'
  | created (q : FxQuote) : q.status = .active → q.consumedByTransferId = none →
      quotes'.rows = quotes.rows ++ [q] → findQuote quotes q.id = none → Change quotes quotes'
  | expired (q : FxQuote) : q.status ≠ .consumed → Replaced quotes quotes' q q.expire →
      Change quotes quotes'
  | consumed (q : FxQuote) (transferId : Uuid) (now : Date) : q.status ≠ .consumed →
      now < q.expiresAt → Replaced quotes quotes' q (q.consume transferId now) → Change quotes quotes'

theorem Replaced.keeps (h : Replaced quotes quotes' q p) (hk : Kept q p) : Keeps quotes quotes' := by
  intro id r hr
  by_cases hid : id = q.id
  · subst hid
    obtain rfl := Option.some.inj (h.found.symm.trans hr)
    exact ⟨p, by rw [h.replaced, if_pos rfl], hk⟩
  · exact ⟨r, by rw [h.replaced, if_neg hid, hr], .refl r⟩

theorem Replaced.rowsOk (h : Replaced quotes quotes' q p) (hrows : RowsOk quotes) (hp : RowOk p) :
    RowsOk quotes' := by
  intro r hr
  have hfind := findQuote_eq_some_iff.mpr ⟨hr, rfl⟩
  rw [h.replaced] at hfind
  split at hfind
  · cases hfind
    exact hp
  · exact hrows r (findQuote_eq_some_iff.mp hfind).1

theorem Change.keeps (h : Change quotes quotes') : Keeps quotes quotes' := by
  cases h with
  | unchanged heq =>
    rw [heq]
    exact .refl quotes
  | created q _ _ hrows hfresh =>
    intro id r hr
    have hne : id ≠ q.id := by
      rintro rfl
      rw [hfresh] at hr
      cases hr
    refine ⟨r, ?_, .refl r⟩
    rw [findQuote, hrows, findBy_append_new hfresh, if_neg hne]
    exact hr
  | expired q hs hr => exact hr.keeps ⟨⟨rfl, rfl, rfl, rfl, rfl, rfl, rfl, rfl, rfl, rfl⟩, fun h => absurd h hs⟩
  | consumed q transferId now hs _ hr =>
    exact hr.keeps ⟨⟨rfl, rfl, rfl, rfl, rfl, rfl, rfl, rfl, rfl, rfl⟩, fun h => absurd h hs⟩

theorem Change.rowsOk (h : Change quotes quotes') (hrows : RowsOk quotes) : RowsOk quotes' := by
  cases h with
  | unchanged heq =>
    rw [heq]
    exact hrows
  | created q hs hnone hrows' _ =>
    intro r hr
    rw [hrows', List.mem_append, List.mem_singleton] at hr
    rcases hr with hr | rfl
    · exact hrows r hr
    · exact ⟨(fun h => by rw [hs] at h; cases h), fun _ => hnone⟩
  | expired q hs hr =>
    have hq := (hrows q (findQuote_eq_some_iff.mp hr.found).1).unconsumed hs
    exact hr.rowsOk hrows ⟨(fun h => nomatch h), fun _ => hq⟩
  | consumed q transferId now _ hnow hr =>
    exact hr.rowsOk hrows ⟨fun _ => ⟨transferId, now, rfl, rfl, hnow⟩, fun h => absurd rfl h⟩

/-- A quote that fits the details of a command. -/
structure Fits (q : FxQuote) (command : ConsumeQuote) : Prop where
  clientId : q.clientId = command.clientId
  sourceCurrency : q.sourceCurrency = command.sourceCurrency
  targetCurrency : q.targetCurrency = command.targetCurrency
  sourceAmount : q.sourceAmount.value = command.sourceAmount.value

theorem Fits.of_terms {command : ConsumeQuote} (h : Fits q command) (ht : SameTerms q p) :
    Fits p command :=
  ⟨ht.clientId ▸ h.clientId, ht.sourceCurrency ▸ h.sourceCurrency,
    ht.targetCurrency ▸ h.targetCurrency, ht.sourceAmount ▸ h.sourceAmount⟩

theorem Fits.kept {command : ConsumeQuote} (h : Fits q command) (hk : Kept q p) : Fits p command :=
  h.of_terms hk.terms

/-- What a call knows at the statement it waits at. -/
def PcOk (quotes : Quotes) (request : Request) : Pc → Prop
  | .insert clientId command _ => request = .create clientId command
  | .getRead clientId quoteId _ => request = .get clientId quoteId
  | .expire _ _ => ∃ clientId quoteId, request = .get clientId quoteId
  | .consumeRead quoteId command _ => request = .consume quoteId command
  | .rejectExpired _ => True
  | .claim quoteId command _ | .winner quoteId command _ => request = .consume quoteId command ∧
      ∃ q, findQuote quotes quoteId = some q ∧ Fits q command

/-- A consumption is answered with the quote, which the transfer has consumed. -/
structure Consumption (quotes : Quotes) (quoteId : Uuid) (command : ConsumeQuote)
    (response : QuoteResponse) (q : FxQuote) : Prop where
  found : findQuote quotes quoteId = some q
  status : q.status = .consumed
  transferId : q.consumedByTransferId = some command.transferId.value
  fits : Fits q command
  response : ∃ now, response = toResponse q now

def AnswerOk (quotes : Quotes) : Request → QuoteResponse → Prop
  | .consume quoteId command, response => ∃ q, Consumption quotes quoteId command response q
  | _, _ => True

def NextOk (quotes : Quotes) (request : Request) : Next → Prop
  | .goto pc => PcOk quotes request pc
  | .answer (.quote response) => AnswerOk quotes request response
  | .answer (.error _) => True

theorem PcOk.mono {pc : Pc} (hk : Keeps quotes quotes') (h : PcOk quotes request pc) :
    PcOk quotes' request pc := by
  cases pc with
  | claim quoteId command now | winner quoteId command now =>
    obtain ⟨hr, q, hq, hf⟩ := h
    obtain ⟨p, hp, hkept⟩ := hk _ q hq
    exact ⟨hr, p, hp, hf.kept hkept⟩
  | _ => exact h

theorem AnswerOk.mono {response : QuoteResponse} (hk : Keeps quotes quotes')
    (h : AnswerOk quotes request response) : AnswerOk quotes' request response := by
  cases request with
  | consume quoteId command =>
    obtain ⟨q, hq⟩ := h
    obtain ⟨p, hp, hkept⟩ := hk _ q hq.found
    obtain rfl := hkept.frozen hq.status
    exact ⟨p, hp, hq.status, hq.transferId, hq.fits, hq.response⟩
  | _ => trivial

/-- A statement changes the quotes as it may, and what follows it is as it should be. -/
def StatementOk (quotes : Quotes) (request : Request) (result : Quotes × Next) : Prop :=
  Change quotes result.1 ∧ NextOk result.1 request result.2

theorem StatementOk.read {next : Next} (h : NextOk quotes request next) :
    StatementOk quotes request (quotes, next) := ⟨.unchanged rfl, h⟩

/-- An update of one quote matches no row, or the quote found under the id and replaces it. -/
theorem updateQuote_ok {n : ℕ} {p : FxQuote → Bool} {f : FxQuote → FxQuote}
    (h : quotes.updateMany p f = .ok (quotes', n)) (hp : ∀ q, p q = true → q.id = quoteId)
    (hf : ∀ q, (f q).id = q.id) :
    (n = 0 ∧ quotes' = quotes ∧ ∀ q ∈ quotes.rows, p q = false) ∨
      (n = 1 ∧ ∃ q, q.id = quoteId ∧ p q = true ∧ guardQuoteUpdate q (f q) = true ∧
        Replaced quotes quotes' q (f q)) := by
  rcases Table.updateMany_keyed (quote_ids quotes) hp hf h with
    hnone | ⟨hn, q, hq, hpq, hid, hguard, -, hfind⟩
  · exact .inl hnone
  · refine .inr ⟨hn, q, hid, hpq, hguard, findQuote_eq_some_iff.mpr ⟨hq, rfl⟩, fun id => ?_⟩
    rw [findQuote, hfind, hid]
    rfl

section Statements

variable {c : Choice} {clientId : Principal} {command : ConsumeQuote} {now : Date}

theorem runInsert_ok {command : CreateQuote} (hr : request = .create clientId command) :
    StatementOk quotes request (runInsert c quotes clientId command now) := by
  subst hr
  unfold runInsert
  split
  · dsimp only
    split
    · next hinsert =>
      have hrows := Table.insertMany_ok hinsert
      have hunique := quote_ids ‹Quotes›
      rw [hrows] at hunique
      exact ⟨.created _ rfl rfl hrows (findBy_eq_none_iff.mpr (fresh_of_uniqueBy_append hunique)), trivial⟩
    · exact .read trivial
  · exact .read trivial

theorem runGetRead_ok (hr : request = .get clientId quoteId) :
    NextOk quotes request (runGetRead quotes clientId quoteId now) := by
  subst hr
  unfold runGetRead
  split
  · trivial
  split
  · trivial
  split
  · exact ⟨clientId, quoteId, rfl⟩
  · trivial

/-- The trigger lets only an active quote expire. -/
theorem not_consumed_of_guard (h : guardQuoteUpdate q q.expire = true) : q.status ≠ .consumed := by
  intro hs
  simp [guardQuoteUpdate, FxQuote.expire, hs] at h

theorem runExpire_ok (hr : ∃ clientId quoteId, request = .get clientId quoteId) :
    StatementOk quotes request (runExpire quotes quoteId now) := by
  obtain ⟨clientId, readId, rfl⟩ := hr
  unfold runExpire
  split
  · next quotes' n hupdate =>
    have hchange : Change quotes quotes' := by
      rcases updateQuote_ok hupdate (fun q hq => of_decide_eq_true hq) (fun _ => rfl) with
        ⟨-, heq, -⟩ | ⟨-, q, -, -, hguard, hreplaced⟩
      · exact .unchanged heq
      · exact .expired q (not_consumed_of_guard hguard) hreplaced
    split
    · exact ⟨hchange, trivial⟩
    · exact .read trivial
  · exact .read trivial

/-- The transfer id that is spelled as the database spells it names the consumer. -/
theorem consumer_of_spelling {transferId : UuidText}
    (h : q.consumedByTransferId.map UuidText.ofUuid = some transferId) :
    q.consumedByTransferId = some transferId.value := by
  obtain ⟨t, ht, rfl⟩ := Option.map_eq_some_iff.mp h
  exact ht

theorem consumed_of_consumer (hrows : RowsOk quotes) (hq : findQuote quotes quoteId = some q)
    {transferId : Uuid} (h : q.consumedByTransferId = some transferId) : q.status = .consumed := by
  by_contra hs
  rw [(hrows q (findQuote_eq_some_iff.mp hq).1).unconsumed hs] at h
  cases h

theorem runConsumeRead_ok (hr : request = .consume quoteId command) :
    NextOk quotes request (runConsumeRead quotes quoteId command now) := by
  subst hr
  unfold runConsumeRead
  split
  · trivial
  next q hq =>
  split
  · trivial
  next hclient =>
  split
  · trivial
  next hdetails =>
  push Not at hclient hdetails
  have hfits : Fits q command := ⟨hclient, hdetails.1, hdetails.2.1, hdetails.2.2⟩
  split
  · next hs =>
    split
    · next hsame => exact ⟨q, hq, hs, consumer_of_spelling hsame, hfits, now, rfl⟩
    · trivial
  split
  · split <;> trivial
  · exact ⟨rfl, q, hq, hfits⟩

theorem runClaim_ok (hpc : PcOk quotes request (.claim quoteId command now)) :
    StatementOk quotes request (runClaim quotes quoteId command now) := by
  have hp : ∀ q : FxQuote, claimable quoteId now q = true → q.id = quoteId := by
    intro q hq
    simp only [claimable, Bool.and_eq_true, decide_eq_true_eq] at hq
    exact hq.1.1.1
  unfold runClaim
  split
  · next quotes' n hupdate =>
    rcases updateQuote_ok hupdate hp (fun _ => rfl) with
      ⟨rfl, rfl, -⟩ | ⟨rfl, q, rfl, hclaimable, -, hreplaced⟩
    · rw [if_pos (by decide)]
      exact .read hpc
    · obtain ⟨rfl, q', hq', hfits⟩ := hpc
      obtain rfl := Option.some.inj (hreplaced.found.symm.trans hq')
      simp only [claimable, Bool.and_eq_true, decide_eq_true_eq] at hclaimable
      obtain ⟨⟨⟨-, hactive⟩, hnow⟩, -⟩ := hclaimable
      have hfind : findQuote quotes' q.id = some (q.consume command.transferId.value now) := by
        rw [hreplaced.replaced, if_pos rfl]
      rw [if_neg (by decide), hfind]
      exact ⟨.consumed q command.transferId.value now (by simp [hactive]) hnow hreplaced,
        _, hfind, rfl, rfl, ⟨hfits.clientId, hfits.sourceCurrency, hfits.targetCurrency,
          hfits.sourceAmount⟩, now, rfl⟩
  · exact .read trivial

theorem runWinner_ok (hrows : RowsOk quotes) (hpc : PcOk quotes request (.winner quoteId command now)) :
    NextOk quotes request (runWinner quotes quoteId command now) := by
  obtain ⟨rfl, q, hq, hfits⟩ := hpc
  unfold runWinner
  rw [hq]
  dsimp only
  split
  · next hsame =>
    have hconsumer := consumer_of_spelling hsame
    exact ⟨q, hq, consumed_of_consumer hrows hq hconsumer, hconsumer, hfits, now, rfl⟩
  · trivial

theorem advance_ok (hrows : RowsOk quotes) {pc : Pc} (hpc : PcOk quotes request pc) :
    StatementOk quotes request (advance c quotes pc) := by
  cases pc with
  | insert clientId command now => exact runInsert_ok hpc
  | getRead clientId quoteId now => exact .read (runGetRead_ok hpc)
  | expire quoteId now => exact runExpire_ok hpc
  | consumeRead quoteId command now => exact .read (runConsumeRead_ok hpc)
  | rejectExpired quoteId =>
    refine .read ?_
    unfold runRejectExpired
    split <;> trivial
  | claim quoteId command now => exact runClaim_ok hpc
  | winner quoteId command now => exact .read (runWinner_ok hrows hpc)

theorem entry_ok : NextOk quotes request (request.entry now) := by
  cases request with
  | create clientId command =>
    unfold Request.entry
    dsimp only
    split
    · trivial
    · exact rfl
  | get clientId quoteId => exact rfl
  | consume quoteId command => exact rfl

end Statements

structure Invariant {ι : Type} (s : State ι) : Prop where
  rows : RowsOk s.quotes
  running : ∀ i request arrivedAt pc, s.calls i = some ⟨request, arrivedAt, .running pc⟩ →
    PcOk s.quotes request pc
  answered : ∀ i request arrivedAt response,
    s.calls i = some ⟨request, arrivedAt, .answered (.quote response)⟩ →
    AnswerOk s.quotes request response

section Step

variable {ι : Type} [DecidableEq ι] {s s' : State ι} {i j : ι} {a : Action ι} {call : Call}

theorem State.setCall_calls_self : (s.setCall i call).calls i = some call := Function.update_self ..

theorem State.setCall_calls_of_ne (h : j ≠ i) : (s.setCall i call).calls j = s.calls j :=
  Function.update_of_ne h ..

omit [DecidableEq ι] in
theorem invariant_initial : Invariant (State.initial : State ι) :=
  ⟨by simp [RowsOk, State.initial], by simp [State.initial], by simp [State.initial]⟩

/-- The steps of the service: time passes, a call arrives or is refused before it, it runs one
statement, it is stopped. -/
theorem step_cases (h : step s a = some s') :
    (∃ elapsed, a = .tick elapsed ∧ s' = { s with now := s.now + elapsed }) ∨
      (∃ i request next, s.calls i = none ∧ s' = s.setCall i ⟨request, s.now, next.progress⟩ ∧
        ((a = .start i request ∧ next = request.entry s.now.toDate) ∨
          ∃ error, a = .refuse i request error ∧ next = .answer (.error error))) ∨
      (∃ i choice request arrivedAt pc, a = .run i choice ∧
        s.calls i = some ⟨request, arrivedAt, .running pc⟩ ∧
        s' = (s.withQuotes (advance choice s.quotes pc).1).setCall i
          ⟨request, arrivedAt, (advance choice s.quotes pc).2.progress⟩) ∨
      (∃ i request arrivedAt pc, a = .stop i ∧
        s.calls i = some ⟨request, arrivedAt, .running pc⟩ ∧
        s' = s.setCall i ⟨request, arrivedAt, .stopped⟩) := by
  cases a with
  | tick elapsed => exact .inl ⟨elapsed, rfl, (Option.some.inj h).symm⟩
  | start i request =>
    simp only [step] at h
    split at h
    · next hfree =>
      exact .inr (.inl ⟨i, request, _, hfree, (Option.some.inj h).symm, .inl ⟨rfl, rfl⟩⟩)
    · cases h
  | refuse i request error =>
    simp only [step] at h
    split at h
    · next hfree =>
      exact .inr (.inl ⟨i, request, .answer (.error error), hfree, (Option.some.inj h).symm,
        .inr ⟨error, rfl, rfl⟩⟩)
    · cases h
  | run i choice =>
    simp only [step] at h
    split at h
    · next request arrivedAt pc hrun =>
      exact .inr (.inr (.inl ⟨i, choice, request, arrivedAt, pc, rfl, hrun,
        (Option.some.inj h).symm⟩))
    · cases h
  | stop i =>
    simp only [step] at h
    split at h
    · next request arrivedAt pc hrun =>
      exact .inr (.inr (.inr ⟨i, request, arrivedAt, pc, rfl, hrun, (Option.some.inj h).symm⟩))
    · cases h

/-- A call moves on over quotes that are kept. -/
theorem Invariant.setCall (hi : Invariant s) (hk : Keeps s.quotes quotes) (hrows : RowsOk quotes)
    {arrivedAt : Time} {progress : Progress}
    (hrunning : ∀ pc, progress = .running pc → PcOk quotes request pc)
    (hanswered : ∀ response, progress = .answered (.quote response) →
      AnswerOk quotes request response) :
    Invariant ((s.withQuotes quotes).setCall i ⟨request, arrivedAt, progress⟩) := by
  refine ⟨hrows, fun j request' arrivedAt' pc h => ?_, fun j request' arrivedAt' response h => ?_⟩
  · by_cases hj : j = i
    · subst hj
      rw [State.setCall_calls_self] at h
      cases h
      exact hrunning pc rfl
    · rw [State.setCall_calls_of_ne hj] at h
      exact (hi.running j request' arrivedAt' pc h).mono hk
  · by_cases hj : j = i
    · subst hj
      rw [State.setCall_calls_self] at h
      cases h
      exact hanswered response rfl
    · rw [State.setCall_calls_of_ne hj] at h
      exact (hi.answered j request' arrivedAt' response h).mono hk

theorem step_change (hi : Invariant s) (h : step s a = some s') : Change s.quotes s'.quotes := by
  rcases step_cases h with ⟨_, -, rfl⟩ | ⟨_, _, _, -, rfl, -⟩ |
    ⟨i, choice, request, arrivedAt, pc, -, hrun, rfl⟩ | ⟨_, _, _, _, -, -, rfl⟩
  · exact .unchanged rfl
  · exact .unchanged rfl
  · exact (advance_ok hi.rows (hi.running i request arrivedAt pc hrun)).1
  · exact .unchanged rfl

theorem Invariant.step (hi : Invariant s) (h : step s a = some s') : Invariant s' := by
  rcases step_cases h with ⟨_, -, rfl⟩ | ⟨i, request, next, -, rfl, hnext⟩ |
    ⟨i, choice, request, arrivedAt, pc, -, hrun, rfl⟩ | ⟨i, request, arrivedAt, pc, -, hrun, rfl⟩
  · exact ⟨hi.rows, hi.running, hi.answered⟩
  · have hok : NextOk s.quotes request next := by
      rcases hnext with ⟨-, rfl⟩ | ⟨error, -, rfl⟩
      · exact entry_ok
      · trivial
    refine hi.setCall (.refl s.quotes) hi.rows (fun pc h => ?_) (fun response h => ?_)
    · cases next <;> cases h
      exact hok
    · cases next <;> cases h
      exact hok
  · obtain ⟨hchange, hok⟩ : StatementOk s.quotes request (advance choice s.quotes pc) :=
      advance_ok hi.rows (hi.running i request arrivedAt pc hrun)
    generalize (advance choice s.quotes pc).1 = quotes at *
    generalize (advance choice s.quotes pc).2 = next at *
    refine hi.setCall hchange.keeps (hchange.rowsOk hi.rows) (fun pc h => ?_) (fun response h => ?_)
    · cases next <;> cases h
      exact hok
    · cases next <;> cases h
      exact hok
  · exact hi.setCall (.refl s.quotes) hi.rows (fun _ h => nomatch h) (fun _ h => nomatch h)

theorem invariant_of_reachable (h : (system ι).Reachable s) : Invariant s :=
  System.Reachable.invariant invariant_initial (fun _ _ _ _ hi hs => hi.step hs) h

theorem keeps_of_steps (h : (system ι).Reachable s) (hs : (system ι).Steps s s') :
    Keeps s.quotes s'.quotes :=
  System.Steps.lift (R := fun s s' => Keeps s.quotes s'.quotes) (fun s => .refl s.quotes)
    (fun s t _ (h : Keeps s.quotes t.quotes) k => h.trans k)
    (fun _ _ _ hr hs => (step_change (invariant_of_reachable hr) hs).keeps) h hs

theorem calls_of_setCall {new : Call} (quotes : Quotes)
    (h : ((s.withQuotes quotes).setCall j new).calls i = some call) :
    (i = j ∧ call = new) ∨ s.calls i = some call := by
  by_cases hij : i = j
  · subst hij
    rw [State.setCall_calls_self] at h
    exact .inl ⟨rfl, (Option.some.inj h).symm⟩
  · rw [State.setCall_calls_of_ne hij] at h
    exact .inr h

/-- A call after a step was there before it with its request, or arrived in it. -/
theorem calls_of_step (h : step s a = some s') (hc : s'.calls i = some call) :
    (∃ progress, s.calls i = some ⟨call.request, call.arrivedAt, progress⟩) ∨
      a = .start i call.request ∨ ∃ error, a = .refuse i call.request error := by
  rcases step_cases h with ⟨_, -, rfl⟩ | ⟨j, request, next, -, rfl, hnew⟩ |
    ⟨j, _, request, arrivedAt, pc, -, hrun, rfl⟩ | ⟨j, request, arrivedAt, pc, -, hrun, rfl⟩
  · exact .inl ⟨call.progress, hc⟩
  · rcases calls_of_setCall s.quotes hc with ⟨rfl, rfl⟩ | hold
    · rcases hnew with ⟨rfl, -⟩ | ⟨error, rfl, -⟩
      · exact .inr (.inl rfl)
      · exact .inr (.inr ⟨error, rfl⟩)
    · exact .inl ⟨call.progress, hold⟩
  · rcases calls_of_setCall _ hc with ⟨rfl, rfl⟩ | hold
    · exact .inl ⟨.running pc, hrun⟩
    · exact .inl ⟨call.progress, hold⟩
  · rcases calls_of_setCall s.quotes hc with ⟨rfl, rfl⟩ | hold
    · exact .inl ⟨.running pc, hrun⟩
    · exact .inl ⟨call.progress, hold⟩

/-- A consumption by the transfer that has the quote is answered with its terms, whenever it
comes. -/
theorem consume_again {command : ConsumeQuote} {now : Date} {transferId : Uuid}
    (hq : findQuote quotes quoteId = some q) (hs : q.status = .consumed)
    (hc : q.consumedByTransferId = some transferId) (hfits : Fits q command)
    (hid : command.transferId = .ofUuid transferId) :
    runConsumeRead quotes quoteId command now = .answer (.quote (toResponse q now)) := by
  unfold runConsumeRead
  rw [hq]
  dsimp only
  rw [if_neg (not_not.mpr hfits.clientId), if_neg, if_pos hs, if_pos]
  · rw [hc, hid]
    rfl
  · simp [hfits.sourceCurrency, hfits.targetCurrency, hfits.sourceAmount]

/-- A consumption by another transfer is rejected. -/
theorem consume_other {command : ConsumeQuote} (now : Date) {transferId : Uuid}
    (hq : findQuote quotes quoteId = some q) (hs : q.status = .consumed)
    (hc : q.consumedByTransferId = some transferId) (hid : command.transferId.value ≠ transferId) :
    ∃ error ∈ consumeRejections, runConsumeRead quotes quoteId command now = .answer (.error error) := by
  unfold runConsumeRead
  rw [hq]
  dsimp only
  split
  · exact ⟨_, by decide, rfl⟩
  split
  · exact ⟨_, by decide, rfl⟩
  rw [if_neg]
  · exact ⟨_, by decide, rfl⟩
  · intro hsame
    have hconsumer := consumer_of_spelling hsame
    rw [hc] at hconsumer
    exact hid (Option.some.inj hconsumer).symm

/-- A read of a consumed quote is the last statement of a consumption. -/
theorem runConsumeRead_of_consumed {command : ConsumeQuote} {now : Date}
    (hq : findQuote quotes quoteId = some q) (hs : q.status = .consumed) (pc : Pc) :
    runConsumeRead quotes quoteId command now ≠ .goto pc := by
  unfold runConsumeRead
  rw [hq]
  simp only [hs, if_true]
  repeat' split
  all_goals simp

/-- A consumption that arrives after the quote was consumed only reads it. -/
theorem reads_only (hr : (system ι).Reachable s) (hsteps : (system ι).Steps s s')
    (hq : findQuote s.quotes quoteId = some q) (hs : q.status = .consumed)
    (hfree : s.calls i = none) {command : ConsumeQuote} {arrivedAt : Time} {pc : Pc}
    (hc : s'.calls i = some ⟨.consume quoteId command, arrivedAt, .running pc⟩) :
    findQuote s'.quotes quoteId = some q ∧ ∃ now, pc = .consumeRead quoteId command now := by
  let Reads (t : State ι) : Prop := findQuote t.quotes quoteId = some q ∧
    ∀ command arrivedAt pc, t.calls i = some ⟨.consume quoteId command, arrivedAt, .running pc⟩ →
      ∃ now, pc = .consumeRead quoteId command now
  have hreads : Reads s' := by
    refine System.Steps.preserves (P := Reads) (fun t a t' ht hp hstep => ?_) hr
      ⟨hq, fun _ _ _ h => by rw [hfree] at h; cases h⟩ hsteps
    obtain ⟨hfind, hrunning⟩ := hp
    have hfind' : findQuote t'.quotes quoteId = some q := by
      obtain ⟨p, hp, hkept⟩ := (step_change (invariant_of_reachable ht) hstep).keeps _ q hfind
      rw [hp, hkept.frozen hs]
    refine ⟨hfind', fun command arrivedAt pc hcall => ?_⟩
    rcases step_cases hstep with ⟨_, -, rfl⟩ | ⟨j, request, next, -, rfl, hnew⟩ |
      ⟨j, choice, request, arrived, pc', -, hrun, rfl⟩ | ⟨j, request, arrived, pc', -, hrun, rfl⟩
    · exact hrunning command arrivedAt pc hcall
    · rcases calls_of_setCall t.quotes hcall with ⟨rfl, heq⟩ | hold
      · obtain ⟨rfl, -, hprogress⟩ := Call.mk.inj heq
        rcases hnew with ⟨-, rfl⟩ | ⟨error, -, rfl⟩
        · cases hprogress
          exact ⟨_, rfl⟩
        · cases hprogress
      · exact hrunning command arrivedAt pc hold
    · rcases calls_of_setCall _ hcall with ⟨rfl, heq⟩ | hold
      · obtain ⟨rfl, -, hprogress⟩ := Call.mk.inj heq
        obtain ⟨now, rfl⟩ := hrunning command arrived pc' hrun
        change Progress.running pc = (runConsumeRead t.quotes quoteId command now).progress at hprogress
        cases hnext : runConsumeRead t.quotes quoteId command now with
        | goto pc'' => exact absurd hnext (runConsumeRead_of_consumed hfind hs pc'')
        | answer outcome =>
          rw [hnext] at hprogress
          cases hprogress
      · exact hrunning command arrivedAt pc hold
    · rcases calls_of_setCall t.quotes hcall with ⟨rfl, heq⟩ | hold
      · cases heq
      · exact hrunning command arrivedAt pc hold
  exact ⟨hreads.1, hreads.2 command arrivedAt pc hc⟩

end Step

end NovaPay.Fx
