import NovaPay.Fx.Reads
import NovaPay.Fx.Conversion

/-!
# What callers are told of an expired quote

`get` commits the expiry that it reports. `consume` writes it in the transaction that its exception
rolls back, so the report outlives the write: the quote is still active afterwards unless another
call has let it expire.
-/

namespace NovaPay.Fx

open DecimalArithmetic Relational TransitionSystem

variable {quotes quotes' : Quotes} {q p : FxQuote} {quoteId id : Uuid} {c : Choice} {now : Date}
  {request : Request} {pc : Pc} {outcome : Outcome}

/-- The quote that a call asks for. -/
def Request.quoteId? : Request → Option Uuid
  | .create _ _ => none
  | .get _ quoteId => some quoteId
  | .consume quoteId _ => some quoteId

/-- The quote that a statement reads or writes. -/
def Pc.quoteId? : Pc → Option Uuid
  | .insert _ _ _ => none
  | .getRead _ quoteId _ => some quoteId
  | .expire quoteId _ => some quoteId
  | .consumeRead quoteId _ _ => some quoteId
  | .rejectExpired quoteId => some quoteId
  | .claim quoteId _ _ => some quoteId
  | .winner quoteId _ _ => some quoteId

/-- The two ways to be told of an expiry: the status of a quote, or `QUOTE_EXPIRED`. -/
def Outcome.reportsExpired : Outcome → Bool
  | .quote response => decide (response.status = .expired)
  | .error refusal => decide (refusal = quoteExpired)

def StoredExpired (quotes : Quotes) (id : Uuid) : Prop :=
  ∃ q, findQuote quotes id = some q ∧ q.status = .expired

/-- The quotes that a step reports as expired to whoever asked for them. -/
def expiryReports {ι : Type} (_ : State ι) (a : Action ι) (s' : State ι) : List Uuid :=
  match a with
  | .run i _ =>
    match s'.calls i with
    | some ⟨request, _, .answered outcome⟩ =>
      if outcome.reportsExpired then request.quoteId?.toList else []
    | _ => []
  | _ => []

/-- The exception of `consume` finds its quote no longer active. -/
def reportsStored {ι : Type} (s : State ι) : Action ι → Bool
  | .run i _ =>
    match s.calls i with
    | some ⟨_, _, .running (.rejectExpired quoteId)⟩ =>
      decide ((findQuote s.quotes quoteId).map FxQuote.status ≠ some .active)
    | _ => true
  | _ => true

theorem Later.storedExpired (h : Later quotes quotes') (hid : StoredExpired quotes id) :
    StoredExpired quotes' id := by
  obtain ⟨q, hq, hs⟩ := hid
  obtain ⟨p, hp, hon⟩ := h id q hq
  refine ⟨p, hp, ?_⟩
  rw [hon.settled (by rw [hs]; decide), hs]

theorem asked_quote (h : pc.Read quotes request now) : pc.quoteId? = request.quoteId? := by
  cases pc with
  | insert clientId command now' => rw [h.1]; rfl
  | getRead clientId quoteId now' => rw [h.1]; rfl
  | expire quoteId now' =>
    obtain ⟨-, q, -, rfl, -⟩ := h
    rfl
  | consumeRead quoteId command now' => rw [h.1]; rfl
  | rejectExpired quoteId =>
    obtain ⟨command, q, rfl, -, -⟩ := h
    rfl
  | claim quoteId command now' => rw [h.1]; rfl
  | winner quoteId command now' => rw [h.1]; rfl

theorem storedExpired_of_response (hq : findQuote quotes quoteId = some q)
    (h : (Outcome.quote (toResponse q now)).reportsExpired = true) :
    StoredExpired quotes quoteId := ⟨q, hq, of_decide_eq_true h⟩

/-- The exception of `consume` is right about a quote that is no longer active: the trigger stops the
update before it if the quote was consumed. -/
theorem runRejectExpired_reports (hq : findQuote quotes quoteId = some q)
    (hstored : (findQuote quotes quoteId).map FxQuote.status ≠ some .active)
    (h : runRejectExpired quotes quoteId = .answer outcome) (hr : outcome.reportsExpired = true) :
    StoredExpired quotes quoteId := by
  obtain ⟨hmem, hid⟩ := findQuote_eq_some_iff.mp hq
  unfold runRejectExpired at h
  split at h
  · next hupdate =>
    refine ⟨q, hq, ?_⟩
    have hconsumed : q.status ≠ .consumed := by
      rcases updateQuote_ok hupdate (fun q hq => of_decide_eq_true hq) (fun _ => rfl) with
        ⟨-, -, hnone⟩ | ⟨-, p, hp, -, hguard, hreplaced⟩
      · exact absurd (hnone q hmem) (by simp [hid])
      · have hfound := hreplaced.found
        rw [hp, hq] at hfound
        obtain rfl := Option.some.inj hfound
        exact not_consumed_of_guard hguard
    rw [hq, Option.map_some] at hstored
    cases hstatus : q.status with
    | active => exact absurd (congrArg some hstatus) hstored
    | consumed => exact absurd hstatus hconsumed
    | expired => rfl
  · cases h
    exact absurd hr (by decide)

theorem runConsumeRead_reports {command : ConsumeQuote}
    (h : runConsumeRead quotes quoteId command now = .answer outcome)
    (hr : outcome.reportsExpired = true) : StoredExpired quotes quoteId := by
  unfold runConsumeRead at h
  split at h
  · cases h
    exact absurd hr (by decide)
  next q hq =>
  split at h
  · cases h
    exact absurd hr (by decide)
  split at h
  · cases h
    exact absurd hr (by decide)
  split at h
  · split at h
    · cases h
      exact storedExpired_of_response hq hr
    · cases h
      exact absurd hr (by decide)
  next hconsumed =>
  split at h
  · split at h
    · cases h
    · next hactive =>
      refine ⟨q, hq, ?_⟩
      cases hstatus : q.status with
      | active => exact absurd hstatus hactive
      | consumed => exact absurd hstatus hconsumed
      | expired => rfl
  · cases h

/-- Whoever is told of an expiry by a statement is told what is stored after it, but for the
exception of `consume` on a quote that is still active. -/
theorem advance_reports (hread : pc.Read quotes request now)
    (hstored : ∀ quoteId, pc = .rejectExpired quoteId →
      (findQuote quotes quoteId).map FxQuote.status ≠ some .active)
    (h : (advance c quotes pc).2 = .answer outcome) (hr : outcome.reportsExpired = true)
    (hid : request.quoteId? = some id) : StoredExpired (advance c quotes pc).1 id := by
  rw [← asked_quote hread] at hid
  cases pc with
  | insert clientId command now => cases hid
  | getRead clientId quoteId now =>
    obtain rfl := Option.some.inj hid
    simp only [advance, runGetRead] at h
    split at h
    · cases h
      exact absurd hr (by decide)
    next q hq =>
    repeat' split at h
    all_goals cases h
    · exact absurd hr (by decide)
    · exact storedExpired_of_response hq hr
  | expire quoteId now =>
    obtain rfl := Option.some.inj hid
    simp only [advance, runExpire] at h ⊢
    split at h
    · split at h
      · next hq =>
        cases h
        exact storedExpired_of_response hq hr
      · cases h
        exact absurd hr (by decide)
    · cases h
      exact absurd hr (by decide)
  | consumeRead quoteId command now =>
    obtain rfl := Option.some.inj hid
    exact runConsumeRead_reports h hr
  | rejectExpired quoteId =>
    obtain rfl := Option.some.inj hid
    obtain ⟨_, q, -, hq, -, -⟩ := hread
    exact runRejectExpired_reports hq (hstored quoteId rfl) h hr
  | claim quoteId command now =>
    obtain rfl := Option.some.inj hid
    simp only [advance, runClaim] at h ⊢
    split at h
    · split at h
      · cases h
      · next hone =>
        rw [if_neg hone]
        split at h
        · next hq =>
          cases h
          exact storedExpired_of_response hq hr
        · cases h
          exact absurd hr (by decide)
    · cases h
      exact absurd hr (by decide)
  | winner quoteId command now =>
    obtain rfl := Option.some.inj hid
    simp only [advance, runWinner] at h
    split at h
    · next hq =>
      split at h
      · cases h
        exact storedExpired_of_response hq hr
      · cases h
        exact absurd hr (by decide)
    · cases h
      exact absurd hr (by decide)

section Runs

variable {ι : Type} [DecidableEq ι] {s s' : State ι} {a : Action ι} {shown : List Uuid}

omit [DecidableEq ι] in
theorem mem_expiryReports : id ∈ expiryReports s a s' ↔ ∃ i choice request arrivedAt outcome,
    a = .run i choice ∧ s'.calls i = some ⟨request, arrivedAt, .answered outcome⟩ ∧
      outcome.reportsExpired = true ∧ request.quoteId? = some id := by
  constructor
  · intro h
    unfold expiryReports at h
    split at h
    · next i choice =>
      split at h
      · next request arrivedAt outcome hcall =>
        split at h
        · next hr => exact ⟨i, choice, request, arrivedAt, outcome, rfl, hcall, hr, by simpa using h⟩
        · cases h
      · cases h
    · cases h
  · rintro ⟨i, choice, request, arrivedAt, outcome, rfl, hcall, hr, hid⟩
    simp [expiryReports, hcall, hr, hid]

/-- The statement behind a report. -/
theorem reports_of_step (h : step s a = some s') (hid : id ∈ expiryReports s a s') :
    ∃ i choice request arrivedAt pc outcome, a = .run i choice ∧
      s.calls i = some ⟨request, arrivedAt, .running pc⟩ ∧
      s'.quotes = (advance choice s.quotes pc).1 ∧
      (advance choice s.quotes pc).2 = .answer outcome ∧ outcome.reportsExpired = true ∧
      request.quoteId? = some id := by
  obtain ⟨i, choice, request, arrivedAt, outcome, rfl, hcall, hr, hrequest⟩ :=
    mem_expiryReports.mp hid
  rcases step_cases h with ⟨_, ha, -⟩ | ⟨_, _, _, -, -, ⟨ha, -⟩ | ⟨_, ha, -⟩⟩ |
    ⟨j, choice', request', arrivedAt', pc, ha, hrun, rfl⟩ | ⟨_, _, _, _, ha, -, -⟩
  · cases ha
  · cases ha
  · cases ha
  · cases ha
    rw [State.setCall_calls_self] at hcall
    obtain ⟨rfl, rfl, hprogress⟩ := Call.mk.inj (Option.some.inj hcall)
    cases hnext : (advance choice s.quotes pc).2 with
    | goto pc' =>
      rw [hnext] at hprogress
      cases hprogress
    | answer outcome' =>
      rw [hnext] at hprogress
      cases hprogress
      exact ⟨i, choice, request', arrivedAt', pc, outcome, rfl, hrun, rfl, hnext, hr, hrequest⟩
  · cases ha

theorem shown_step (hp : Informed s) (hshown : ∀ id ∈ shown, StoredExpired s.quotes id)
    (ha : reportsStored s a = true) (h : step s a = some s') :
    ∀ id ∈ expiryReports s a s' ++ shown, StoredExpired s'.quotes id := by
  intro id hid
  rcases List.mem_append.mp hid with hnew | hold
  · obtain ⟨i, choice, request, arrivedAt, pc, outcome, rfl, hrun, hquotes, hnext, hr, hrequest⟩ :=
      reports_of_step h hnew
    rw [hquotes]
    refine advance_reports (hp i request arrivedAt pc hrun) (fun quoteId hpc => ?_) hnext hr hrequest
    subst hpc
    simpa [reportsStored, hrun] using ha
  · exact (step_later h).storedExpired (hshown id hold)

/-- A step that is not allowed reports a quote that it leaves active. -/
theorem reports_active (hr : (system ι).Reachable s) (ha : reportsStored s a = false)
    (h : step s a = some s') : ∃ id ∈ expiryReports s a s', ¬ StoredExpired s'.quotes id := by
  unfold reportsStored at ha
  split at ha
  swap
  · cases ha
  next i choice =>
  split at ha
  swap
  · cases ha
  next request arrivedAt quoteId hcall =>
  obtain ⟨q, hq, hs⟩ : ∃ q, findQuote s.quotes quoteId = some q ∧ q.status = .active := by
    simpa using ha
  obtain rfl := Option.some.inj ((step_run hcall rfl).symm.trans h)
  have hread : (Pc.rejectExpired quoteId).Read s.quotes request _ :=
    informed_of_reachable hr i request _ _ hcall
  refine ⟨quoteId, mem_expiryReports.mpr ⟨i, choice, request, arrivedAt, .error quoteExpired, rfl,
    ?_, by decide, (asked_quote hread).symm⟩, ?_⟩
  · obtain ⟨quotes', hupdate, -, -⟩ := expire_updates hq (by rw [hs]; decide)
    rw [State.setCall_calls_self]
    simp only [runRejectExpired, hupdate, Next.progress]
  · rintro ⟨p, hp, hexpired⟩
    obtain rfl := Option.some.inj (hq.symm.trans hp)
    rw [hs] at hexpired
    cases hexpired

/-- While `consume` only throws `QUOTE_EXPIRED` at quotes that are no longer active, every quote
reported as expired is stored so, then and later; the first other exception reports a quote that
stays active. -/
theorem reported_quotes_stay_expired :
    (∀ p, ((system ι).observe expiryReports).ReachableBy
        (fun p a => reportsStored p.1 a = true) p → ∀ id ∈ p.2, StoredExpired p.1.quotes id) ∧
      ∀ p a p', ((system ι).observe expiryReports).Reachable p →
        ((system ι).observe expiryReports).step p a = some p' → reportsStored p.1 a = false →
          ∃ id ∈ p'.2, ¬ StoredExpired p'.1.quotes id := by
  constructor
  · intro p hp
    have hstored : (system ι).ReachableBy (fun s a => reportsStored s a = true) p.1 ∧
        ∀ id ∈ p.2, StoredExpired p.1.quotes id :=
      System.ReachableBy.observed (fun s a => reportsStored s a = true)
        (P := fun s shown => ∀ id ∈ shown, StoredExpired s.quotes id) (fun _ h => nomatch h)
        (fun _ _ _ _ hr hp ha hs => shown_step (informed_of_reachable hr.reachable) hp ha hs) hp
    exact hstored.2
  · rintro ⟨s, shown⟩ a p' hr hs ha
    obtain ⟨s', hs', rfl⟩ := Option.map_eq_some_iff.mp hs
    have hreachable : (system ι).Reachable s :=
      (System.Reachable.observed (P := fun _ _ => True) trivial (fun _ _ _ _ _ _ _ => trivial) hr).1
    obtain ⟨id, hid, hactive⟩ := reports_active hreachable ha hs'
    exact ⟨id, List.mem_append_left _ hid, hactive⟩

end Runs

def hundredDollars : ConsumeQuote := ⟨.ofUuid 9, "ann", dollar, euro, ⟨1000, 1⟩⟩

/-- A quote of the minute before. -/
def staleQuoteRun : List (Action ℕ) :=
  [.start 0 (.create "ann" ⟨dollar, euro, ⟨⟨1000, 1⟩, by decide⟩⟩),
    .run 0 { id := 7, fresh := ⟨⟨920000000000, 12⟩, "local"⟩ }, .tick 60000000]

/-- Its owner reads it before it is to be consumed. -/
def readFirstRun : List (Action ℕ) :=
  staleQuoteRun ++ [.start 1 (.get "ann" 7), .run 1 {}, .run 1 {},
    .start 2 (.consume 7 hundredDollars), .run 2 {}]

theorem reported_quotes_stay_expired_readFirstRun :
    ∃ p, ((system ℕ).observe expiryReports).run ((system ℕ).observe expiryReports).init
        readFirstRun = some p ∧ p.2 = [7, 7] ∧ ∀ id ∈ p.2, StoredExpired p.1.quotes id := by
  have hrun : (((system ℕ).observe expiryReports).runWhere (fun p a => reportsStored p.1 a)
      ((system ℕ).observe expiryReports).init readFirstRun).map Prod.snd = some [7, 7] := by
    decide +kernel
  obtain ⟨p, hp, hshown⟩ := Option.map_eq_some_iff.mp hrun
  exact ⟨p, System.run_of_runWhere hp, hshown,
    reported_quotes_stay_expired.1 p (System.ReachableBy.runWhere (fun _ _ h => h) .init hp)⟩

/-- Nobody reads it first. -/
def consumeFirstRun : List (Action ℕ) :=
  staleQuoteRun ++ [.start 1 (.consume 7 hundredDollars), .run 1 {}, .run 1 {}]

/-- The consumption is told that the quote has expired, and the quote stays active. -/
theorem expiry_rolled_back : ¬ ∀ p, ((system ℕ).observe expiryReports).Reachable p →
    ∀ id ∈ p.2, StoredExpired p.1.quotes id := by
  intro hall
  have hrun : (((system ℕ).observe expiryReports).run ((system ℕ).observe expiryReports).init
      consumeFirstRun).map (fun p => (p.2, (findQuote p.1.quotes 7).map FxQuote.status)) =
      some ([7], some .active) := by decide +kernel
  obtain ⟨p, hp, heq⟩ := Option.map_eq_some_iff.mp hrun
  obtain ⟨hshown, hstored⟩ := Prod.mk.inj heq
  obtain ⟨q, hq, hexpired⟩ := hall p (System.reachable_of_run hp) 7 (by rw [hshown]; simp)
  rw [hq, Option.map_some, hexpired] at hstored
  cases hstored

end NovaPay.Fx
