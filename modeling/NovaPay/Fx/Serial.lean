import NovaPay.Fx.Reads
import NovaPay.Fx.Conversion

/-!
# Calls on a quote, one after another

A call takes effect with the statement that answers it. What it read before holds then as well, except
that another call may have settled the quote in between: `get` then meets the trigger, and `consume`
takes an expired quote for a used one.
-/

namespace NovaPay.Fx

open DecimalArithmetic Relational TransitionSystem

variable {quotes quotes' : Quotes} {q p : FxQuote} {quoteId id : Uuid} {c : Choice} {now : Date}
  {request : Request} {pc : Pc} {outcome : Outcome} {command : ConsumeQuote}

/-- A request, the clock of its transaction and what it draws. -/
structure Transaction where
  request : Request
  now : Date
  choice : Choice

/-- The statements of a transaction that no other one interrupts. -/
def finish (c : Choice) : ℕ → Quotes → Pc → Quotes × Outcome
  | 0, quotes, _ => (quotes, .error internalServerError)
  | n + 1, quotes, pc =>
    match advance c quotes pc with
    | (quotes', .answer outcome) => (quotes', outcome)
    | (quotes', .goto pc') => finish c n quotes' pc'

/-- The longest transaction reads, claims and reads again. -/
def serve (quotes : Quotes) (t : Transaction) : Quotes × Outcome :=
  match t.request.entry t.now with
  | .answer outcome => (quotes, outcome)
  | .goto pc => finish t.choice 3 quotes pc

theorem finish_answer {n : ℕ} (h : (advance c quotes pc).2 = .answer outcome) :
    finish c (n + 1) quotes pc = ((advance c quotes pc).1, outcome) := by
  rw [finish]
  generalize advance c quotes pc = result at h
  obtain ⟨quotes', next⟩ := result
  cases h
  rfl

theorem finish_goto {n : ℕ} {pc' : Pc} (h : (advance c quotes pc).2 = .goto pc') :
    finish c (n + 1) quotes pc = finish c n (advance c quotes pc).1 pc' := by
  rw [finish]
  generalize advance c quotes pc = result at h
  obtain ⟨quotes', next⟩ := result
  cases h
  rfl

/-- The statements that a call at one of them has yet to run, at most. -/
def Pc.statements : Pc → ℕ
  | .consumeRead _ _ _ => 3
  | .getRead _ _ _ | .claim _ _ _ => 2
  | .insert _ _ _ | .expire _ _ | .rejectExpired _ | .winner _ _ _ => 1

theorem statements_goto {pc' : Pc} (h : (advance c quotes pc).2 = .goto pc') :
    pc'.statements < pc.statements := by
  cases pc with
  | insert clientId command now =>
    simp only [advance, runInsert] at h
    repeat' split at h
    all_goals cases h
  | getRead clientId quoteId now =>
    simp only [advance, runGetRead] at h
    repeat' split at h
    all_goals cases h
    simp [Pc.statements]
  | expire quoteId now =>
    simp only [advance, runExpire] at h
    repeat' split at h
    all_goals cases h
  | consumeRead quoteId command now =>
    simp only [advance, runConsumeRead] at h
    repeat' split at h
    all_goals cases h
    all_goals simp [Pc.statements]
  | rejectExpired quoteId =>
    simp only [advance, runRejectExpired] at h
    split at h <;> cases h
  | claim quoteId command now =>
    simp only [advance, runClaim] at h
    repeat' split at h
    all_goals cases h
    simp [Pc.statements]
  | winner quoteId command now =>
    simp only [advance, runWinner] at h
    repeat' split at h
    all_goals cases h

/-- A transaction runs to its answer however many more statements it is allowed. -/
theorem finish_eq {m n : ℕ} (hm : pc.statements ≤ m) (hn : pc.statements ≤ n) :
    finish c m quotes pc = finish c n quotes pc := by
  have hpos : 0 < pc.statements := by cases pc <;> exact Nat.succ_pos _
  induction m generalizing quotes pc n with
  | zero => omega
  | succ m ih =>
    obtain ⟨n, rfl⟩ : ∃ k, n = k + 1 := ⟨n - 1, by omega⟩
    cases hnext : (advance c quotes pc).2 with
    | answer outcome => rw [finish_answer hnext, finish_answer hnext]
    | goto pc' =>
      have hless := statements_goto hnext
      rw [finish_goto hnext, finish_goto hnext]
      exact ih (by omega) (by omega) (by cases pc' <;> exact Nat.succ_pos _)

/-- The answers to `consume` once it has found a quote that fits. -/
theorem runConsumeRead_fits (hq : findQuote quotes quoteId = some q) (hfits : Fits q command) :
    runConsumeRead quotes quoteId command now =
      if q.status = .consumed then
        if q.consumedByTransferId.map UuidText.ofUuid = some command.transferId then
          .answer (.quote (toResponse q now))
        else .answer (.error quoteAlreadyUsed)
      else if q.status = .expired ∨ q.expiresAt ≤ now then
        if q.status = .active then .goto (.rejectExpired quoteId)
        else .answer (.error quoteExpired)
      else .goto (.claim quoteId command now) := by
  unfold runConsumeRead
  rw [hq]
  dsimp only
  rw [if_neg (not_not.mpr hfits.clientId), if_neg]
  simp [hfits.sourceCurrency, hfits.targetCurrency, hfits.sourceAmount]

/-- The id that a consumption by the quote's own transfer spells is spelled as the database spells
it. -/
def spelled (quotes : Quotes) (quoteId : Uuid) (command : ConsumeQuote) : Bool :=
  (findQuote quotes quoteId).all fun q =>
    decide (q.consumedByTransferId = some command.transferId.value →
      command.transferId = .ofUuid command.transferId.value)

/-- No other call has settled the quote against the statement: it is not consumed where it is to
expire, nor expired where it was to be consumed. -/
def Pc.undisturbed (quotes : Quotes) : Pc → Bool
  | .expire quoteId _ | .rejectExpired quoteId =>
    decide ((findQuote quotes quoteId).map FxQuote.status ≠ some .consumed)
  | .winner quoteId command _ =>
    decide ((findQuote quotes quoteId).map FxQuote.status ≠ some .expired) &&
      spelled quotes quoteId command
  | .consumeRead quoteId command _ => spelled quotes quoteId command
  | _ => true

theorem serve_expire (hread : (Pc.expire quoteId now).Read quotes request now)
    (hok : (Pc.expire quoteId now).undisturbed quotes = true)
    (h : (advance c quotes (.expire quoteId now)).2 = .answer outcome) :
    serve quotes ⟨request, now, c⟩ = ((advance c quotes (.expire quoteId now)).1, outcome) := by
  obtain ⟨-, q, hq, rfl, hexpired⟩ := hread
  change finish c 3 quotes (.getRead q.clientId quoteId now) = _
  have hfirst : (advance c quotes (.getRead q.clientId quoteId now)).2 =
      if q.status = .active ∧ q.expiresAt ≤ now then .goto (.expire quoteId now)
      else .answer (.quote (toResponse q now)) := by
    simp only [advance, runGetRead, hq, ne_eq, not_true_eq_false, if_false]
  cases hs : q.status with
  | active =>
    rw [if_pos ⟨hs, hexpired⟩] at hfirst
    rw [finish_goto hfirst]
    exact finish_answer h
  | expired =>
    have hother : ¬(q.status = .active ∧ q.expiresAt ≤ now) := by simp [hs]
    rw [if_neg hother] at hfirst
    rw [finish_answer hfirst]
    have hagain : advance c quotes (.expire quoteId now) =
        (quotes, .answer (.quote (toResponse q now))) := by
      simp only [advance, runExpire, expire_again hq hs, hq]
    rw [hagain] at h ⊢
    cases h
    rfl
  | consumed => simp [Pc.undisturbed, hq, hs] at hok

theorem serve_rejectExpired (hread : (Pc.rejectExpired quoteId).Read quotes request now)
    (hok : (Pc.rejectExpired quoteId).undisturbed quotes = true)
    (h : (advance c quotes (.rejectExpired quoteId)).2 = .answer outcome) :
    serve quotes ⟨request, now, c⟩ = ((advance c quotes (.rejectExpired quoteId)).1, outcome) := by
  obtain ⟨command, q, rfl, hq, hfits, hexpired⟩ := hread
  change finish c 3 quotes (.consumeRead quoteId command now) = _
  have hfirst : (advance c quotes (.consumeRead quoteId command now)).2 = _ :=
    runConsumeRead_fits hq hfits
  cases hs : q.status with
  | active =>
    rw [if_neg (by rw [hs]; decide), if_pos (.inr hexpired), if_pos hs] at hfirst
    rw [finish_goto hfirst]
    exact finish_answer h
  | expired =>
    rw [if_neg (by rw [hs]; decide), if_pos (.inr hexpired), if_neg (by rw [hs]; decide)] at hfirst
    rw [finish_answer hfirst]
    have hagain : runRejectExpired quotes quoteId = .answer (.error quoteExpired) := by
      simp only [runRejectExpired, expire_again hq hs]
    have hanswer : Next.answer (.error quoteExpired) = .answer outcome := hagain.symm.trans h
    cases hanswer
    rfl
  | consumed => simp [Pc.undisturbed, hq, hs] at hok

/-- A claim that answers has matched the quote, which is active. -/
theorem serve_claim (hread : (Pc.claim quoteId command now).Read quotes request now)
    (h : (advance c quotes (.claim quoteId command now)).2 = .answer outcome) :
    serve quotes ⟨request, now, c⟩ = ((advance c quotes (.claim quoteId command now)).1, outcome) := by
  obtain ⟨rfl, -, q, hq, hfits, hopen⟩ := hread
  change finish c 3 quotes (.consumeRead quoteId command now) = _
  have hactive : q.status = .active := by
    by_contra hs
    obtain ⟨hmem, hid⟩ := findQuote_eq_some_iff.mp hq
    have hnone : ∀ r ∈ quotes.rows, claimable quoteId now r = false := by
      intro r hr
      by_contra hclaimable
      rw [Bool.not_eq_false] at hclaimable
      obtain rfl := eq_of_uniqueBy (quote_ids quotes) hr hmem ((claimable_id hclaimable).trans hid.symm)
      simp [claimable, hs] at hclaimable
    have hgoto : (advance c quotes (.claim quoteId command now)).2 = .goto (.winner quoteId command now) := by
      simp only [advance, runClaim, Table.updateMany_of_none hnone]
      rfl
    rw [hgoto] at h
    cases h
  have hfirst : (advance c quotes (.consumeRead quoteId command now)).2 = _ :=
    runConsumeRead_fits hq hfits
  rw [if_neg (by rw [hactive]; decide), if_neg (by rw [hactive, not_or]; exact ⟨by decide, not_le.mpr hopen⟩)]
    at hfirst
  rw [finish_goto hfirst]
  exact finish_answer h

/-- The second read of `consume` finds the quote consumed. -/
theorem winner_consumed (hread : (Pc.winner quoteId command now).Read quotes request now)
    (hok : (Pc.winner quoteId command now).undisturbed quotes = true) :
    ∃ q, findQuote quotes quoteId = some q ∧ Fits q command ∧ q.status = .consumed := by
  obtain ⟨-, -, q, hq, hfits, -, hactive⟩ := hread
  refine ⟨q, hq, hfits, ?_⟩
  cases hs : q.status with
  | active => exact absurd hs hactive
  | consumed => rfl
  | expired => simp [Pc.undisturbed, hq, hs] at hok

theorem serve_winner (hread : (Pc.winner quoteId command now).Read quotes request now)
    (hok : (Pc.winner quoteId command now).undisturbed quotes = true)
    (h : (advance c quotes (.winner quoteId command now)).2 = .answer outcome) :
    serve quotes ⟨request, now, c⟩ = ((advance c quotes (.winner quoteId command now)).1, outcome) := by
  obtain ⟨q, hq, hfits, hs⟩ := winner_consumed hread hok
  obtain rfl := hread.1
  change finish c 3 quotes (.consumeRead quoteId command now) = _
  have hfirst : (advance c quotes (.consumeRead quoteId command now)).2 = _ :=
    runConsumeRead_fits hq hfits
  rw [if_pos hs] at hfirst
  have hsecond : (advance c quotes (.winner quoteId command now)).2 =
      if q.consumedByTransferId.map UuidText.ofUuid = some command.transferId then
        .answer (.quote (toResponse q now))
      else .answer (.error quoteAlreadyUsed) := by
    simp only [advance, runWinner, hq]
  exact finish_answer (hfirst.trans (hsecond.symm.trans h))

/-- The statement that answers an undisturbed call is its whole transaction. -/
theorem serve_of_answer (hread : pc.Read quotes request now) (hok : pc.undisturbed quotes = true)
    (h : (advance c quotes pc).2 = .answer outcome) :
    serve quotes ⟨request, now, c⟩ = ((advance c quotes pc).1, outcome) := by
  cases pc with
  | insert clientId command now' =>
    obtain ⟨rfl, hne, rfl⟩ := hread
    have hentry : (Request.create clientId command).entry now' = .goto (.insert clientId command now') :=
      if_neg hne
    simp only [serve, hentry]
    exact finish_answer h
  | getRead clientId quoteId now' =>
    obtain ⟨rfl, rfl⟩ := hread
    exact finish_answer h
  | expire quoteId now' =>
    obtain rfl := hread.1
    exact serve_expire hread hok h
  | consumeRead quoteId command now' =>
    obtain ⟨rfl, rfl⟩ := hread
    exact finish_answer h
  | rejectExpired quoteId => exact serve_rejectExpired hread hok h
  | claim quoteId command now' =>
    obtain rfl := hread.2.1
    exact serve_claim hread h
  | winner quoteId command now' =>
    obtain rfl := hread.2.1
    exact serve_winner hread hok h

/-- Whoever is told that a quote was used finds it consumed by another transfer. -/
theorem used_of_answer (hrows : RowsOk quotes) (hread : pc.Read quotes request now)
    (hok : pc.undisturbed quotes = true)
    (h : (advance c quotes pc).2 = .answer (.error quoteAlreadyUsed)) :
    ∃ quoteId command q transferId, request = .consume quoteId command ∧
      findQuote quotes quoteId = some q ∧ q.consumedByTransferId = some transferId ∧
      transferId ≠ command.transferId.value := by
  have hfollows : (advance c quotes pc).2.Follows quotes pc := advance_follows
  rw [h] at hfollows
  obtain ⟨quoteId, command, now', q, hq, hother, hpc⟩ := hfollows rfl
  obtain ⟨hrequest, hconsumed, hspelled⟩ : request = .consume quoteId command ∧
      q.status = .consumed ∧ spelled quotes quoteId command = true := by
    rcases hpc with ⟨rfl, hs⟩ | rfl
    · exact ⟨hread.1, hs, hok⟩
    · obtain rfl := hread.2.1
      obtain ⟨p, hp, -, hs⟩ := winner_consumed hread hok
      obtain rfl := Option.some.inj (hq.symm.trans hp)
      simp only [Pc.undisturbed, Bool.and_eq_true] at hok
      exact ⟨hread.1, hs, hok.2⟩
  obtain ⟨transferId, -, htransfer, -⟩ := (hrows q (findQuote_eq_some_iff.mp hq).1).consumed hconsumed
  refine ⟨quoteId, command, q, transferId, hrequest, hq, htransfer, ?_⟩
  rintro rfl
  simp only [spelled, hq, Option.all_some, htransfer, decide_eq_true_eq, true_imp_iff] at hspelled
  rw [htransfer, Option.map_some, ← hspelled] at hother
  exact hother rfl

/-- A quote's owner is answered with it. -/
theorem owner_of_answer (hread : pc.Read quotes (.get q.clientId quoteId) now)
    (hok : pc.undisturbed quotes = true) (hq : findQuote quotes quoteId = some q)
    (h : (advance c quotes pc).2 = .answer outcome) : ∃ response, outcome = .quote response := by
  cases pc with
  | getRead clientId quoteId' now' =>
    obtain ⟨hrequest, -⟩ := hread
    cases hrequest
    simp only [advance, runGetRead, hq, ne_eq, not_true_eq_false, if_false] at h
    split at h
    · cases h
    · cases h
      exact ⟨_, rfl⟩
  | expire quoteId' now' =>
    obtain ⟨-, p, hp, hrequest, -⟩ := hread
    obtain rfl : quoteId = quoteId' := (Request.get.inj hrequest).2
    obtain rfl := Option.some.inj (hq.symm.trans hp)
    have hs : q.status ≠ .consumed := by simpa [Pc.undisturbed, hq] using hok
    obtain ⟨quotes', hupdate, hreplaced, -⟩ := expire_updates hq hs
    have hfound : findQuote quotes' quoteId = some q.expire := by
      rw [hreplaced.replaced, if_pos (findQuote_eq_some_iff.mp hq).2.symm]
    simp only [advance, runExpire, hupdate, hfound] at h
    cases h
    exact ⟨_, rfl⟩
  | rejectExpired quoteId' =>
    obtain ⟨_, _, hrequest, -⟩ := hread
    cases hrequest
  | _ =>
    have hrequest := hread.1
    cases hrequest

/-! ## Runs -/

/-- A transaction that was answered, and the quotes that its last statement met. -/
structure Served where
  transaction : Transaction
  outcome : Outcome
  before : Quotes

/-- `QUOTE_ALREADY_USED` is about another transfer, and `get` does not fail for the owner. -/
structure Served.Fair (x : Served) : Prop where
  used : x.outcome = .error quoteAlreadyUsed → ∃ quoteId command q transferId,
    x.transaction.request = .consume quoteId command ∧ findQuote x.before quoteId = some q ∧
      q.consumedByTransferId = some transferId ∧ transferId ≠ command.transferId.value
  owner : ∀ quoteId q, x.transaction.request = .get q.clientId quoteId →
    findQuote x.before quoteId = some q → ∃ response, x.outcome = .quote response

/-- The answers and the quotes are those of the transactions one after another, in some order. -/
structure Serializable (quotes : Quotes) (served : List Served) : Prop where
  order : ∃ order : List Served, order.Perm served ∧
    System.serial serve noQuotes (order.map Served.transaction) = (quotes, order.map Served.outcome)
  fair : ∀ x ∈ served, x.Fair

section Runs

variable {ι : Type} [DecidableEq ι] {s s' : State ι} {a : Action ι} {i : ι}

/-- The answer that a call has after a step. -/
def served (s : State ι) (i : ι) (choice : Choice) (s' : State ι) : List Served :=
  match s'.calls i with
  | some ⟨request, arrivedAt, .answered outcome⟩ =>
    [⟨⟨request, arrivedAt.toDate, choice⟩, outcome, s.quotes⟩]
  | _ => []

/-- The transactions that a step answers. -/
def answers (s : State ι) (a : Action ι) (s' : State ι) : List Served :=
  match a with
  | .start i _ => served s i {} s'
  | .run i choice => served s i choice s'
  | _ => []

def undisturbed (s : State ι) : Action ι → Bool
  | .run i _ =>
    match s.calls i with
    | some ⟨_, _, .running pc⟩ => pc.undisturbed s.quotes
    | _ => true
  | _ => true

theorem served_setCall {arrivedAt : Time} {next : Next} :
    served s i c (s'.setCall i ⟨request, arrivedAt, next.progress⟩) =
      match next with
      | .goto _ => []
      | .answer outcome => [⟨⟨request, arrivedAt.toDate, c⟩, outcome, s.quotes⟩] := by
  simp only [served, State.setCall_calls_self]
  cases next <;> rfl

theorem start_step : let next := request.entry s.now.toDate
    (served s i c (s.setCall i ⟨request, s.now, next.progress⟩) = []) ∨
      ∃ outcome, served s i c (s.setCall i ⟨request, s.now, next.progress⟩) =
          [⟨⟨request, s.now.toDate, c⟩, outcome, s.quotes⟩] ∧
        serve s.quotes ⟨request, s.now.toDate, c⟩ = (s.quotes, outcome) ∧
        Served.Fair ⟨⟨request, s.now.toDate, c⟩, outcome, s.quotes⟩ := by
  intro next
  rw [served_setCall]
  cases hnext : next with
  | goto pc => exact .inl rfl
  | answer outcome =>
    have hentry : request.entry s.now.toDate = .answer outcome := hnext
    refine .inr ⟨outcome, rfl, by simp only [serve, hentry], ?_⟩
    cases request with
    | create clientId command =>
      simp only [Request.entry] at hentry
      split at hentry
      · cases hentry
        exact ⟨fun h => absurd (Outcome.error.inj h) (by decide), fun _ _ h => by cases h⟩
      · cases hentry
    | get clientId quoteId => cases hentry
    | consume quoteId command => cases hentry

theorem run_step (hi : Invariant s) (hp : Informed s) {arrivedAt : Time}
    (hrun : s.calls i = some ⟨request, arrivedAt, .running pc⟩)
    (hok : pc.undisturbed s.quotes = true) : let next := (advance c s.quotes pc).2
    let after := s.withQuotes (advance c s.quotes pc).1
    (served s i c (after.setCall i ⟨request, arrivedAt, next.progress⟩) = [] ∧
        (advance c s.quotes pc).1 = s.quotes) ∨
      ∃ outcome, served s i c (after.setCall i ⟨request, arrivedAt, next.progress⟩) =
          [⟨⟨request, arrivedAt.toDate, c⟩, outcome, s.quotes⟩] ∧
        serve s.quotes ⟨request, arrivedAt.toDate, c⟩ = ((advance c s.quotes pc).1, outcome) ∧
        Served.Fair ⟨⟨request, arrivedAt.toDate, c⟩, outcome, s.quotes⟩ := by
  intro next after
  have hread : pc.Read s.quotes request arrivedAt.toDate := hp i request arrivedAt pc hrun
  rw [served_setCall]
  cases hnext : next with
  | goto pc' => exact .inl ⟨rfl, (advance_goto hi.rows hread hnext).1⟩
  | answer outcome =>
    refine .inr ⟨outcome, rfl, serve_of_answer hread hok hnext, ?_, ?_⟩
    · rintro rfl
      exact used_of_answer hi.rows hread hok hnext
    · rintro quoteId q rfl hq
      exact owner_of_answer hread hok hq hnext

/-- A step is silent, or the last statement of a transaction. -/
theorem answers_step (hi : Invariant s) (hp : Informed s) (hok : undisturbed s a = true)
    (h : step s a = some s') :
    (answers s a s' = [] ∧ s'.quotes = s.quotes) ∨
      ∃ x, answers s a s' = [x] ∧ serve s.quotes x.transaction = (s'.quotes, x.outcome) ∧ x.Fair := by
  rcases step_cases h with ⟨_, rfl, rfl⟩ | ⟨i, request, next, -, rfl, ⟨rfl, rfl⟩ | ⟨_, rfl, -⟩⟩ |
    ⟨i, choice, request, arrivedAt, pc, rfl, hrun, rfl⟩ | ⟨_, _, _, _, rfl, -, rfl⟩
  · exact .inl ⟨rfl, rfl⟩
  · rcases @start_step {} request ι _ s i with hnone |
      ⟨outcome, hone, hserve, hfair⟩
    · exact .inl ⟨hnone, rfl⟩
    · exact .inr ⟨_, hone, hserve, hfair⟩
  · exact .inl ⟨rfl, rfl⟩
  · have hpc : pc.undisturbed s.quotes = true := by simpa [undisturbed, hrun] using hok
    rcases run_step (c := choice) hi hp hrun hpc with ⟨hnone, hquotes⟩ |
      ⟨outcome, hone, hserve, hfair⟩
    · exact .inl ⟨hnone, hquotes⟩
    · exact .inr ⟨_, hone, hserve, hfair⟩
  · exact .inl ⟨rfl, rfl⟩

/-- While no other call settles a quote between the statements of a call, the calls are served as
one after another. -/
theorem quotes_serializable (p : State ι × List Served)
    (h : ((system ι).observe answers).ReachableBy (fun p a => undisturbed p.1 a = true) p) :
    Serializable p.1.quotes p.2 := by
  have hstep : ∀ s a s', (system ι).ReachableBy (fun s a => undisturbed s a = true) s →
      undisturbed s a = true → step s a = some s' →
      (answers s a s' = [] ∧ s'.quotes = s.quotes) ∨ ∃ x, answers s a s' = [x] ∧
        serve s.quotes x.transaction = (s'.quotes, x.outcome) ∧ x.Fair :=
    fun s a s' hr hok hs => answers_step (invariant_of_reachable hr.reachable)
      (informed_of_reachable hr.reachable) hok hs
  refine ⟨⟨p.2.reverse, List.reverse_perm p.2, ?_⟩, ?_⟩
  · refine System.ReachableBy.serial (M := system ι) (fun s a => undisturbed s a = true) State.quotes
      (fun s a s' hr hok hs => ?_) h
    rcases hstep s a s' hr hok hs with hsilent | ⟨x, hone, hserve, -⟩
    · exact .inl hsilent
    · exact .inr ⟨x, hone, hserve⟩
  · refine (System.ReachableBy.observed (M := system ι) (fun s a => undisturbed s a = true)
      (P := fun _ shown => ∀ x ∈ shown, x.Fair) (fun _ h => nomatch h) ?_ h).2
    intro s shown a s' hr hp hok hs x hx
    rcases List.mem_append.mp hx with hnew | hold
    · rcases hstep s a s' hr hok hs with ⟨hnone, -⟩ | ⟨y, hone, -, hfair⟩
      · rw [hnone] at hnew
        cases hnew
      · rw [hone, List.mem_singleton] at hnew
        exact hnew ▸ hfair
    · exact hp x hold

end Runs

theorem isMoney_hundred : isMoney ⟨1000, 1⟩ = true := by decide

/-- A quote of the minute before that a transfer is about to consume in time. -/
def overlapRun : List (Action ℕ) :=
  [.start 0 (.create "ann" ⟨dollar, euro, ⟨⟨1000, 1⟩, isMoney_hundred⟩⟩),
    .run 0 { id := 7, fresh := ⟨⟨920000000000, 12⟩, "local"⟩ }, .tick 59000000,
    .start 1 (.consume 7 ⟨.ofUuid 9, "ann", dollar, euro, ⟨1000, 1⟩⟩), .run 1 {}, .tick 2000000]

/-- The transfer claims the quote before its owner reads it. -/
def claimedRun : List (Action ℕ) :=
  overlapRun ++ [.start 2 (.get "ann" 7), .run 1 {}, .run 2 {}]

theorem quotes_serializable_claimedRun :
    ∃ p, ((system ℕ).observe answers).run ((system ℕ).observe answers).init claimedRun = some p ∧
      p.2.length = 3 ∧ Serializable p.1.quotes p.2 := by
  have hrun : (((system ℕ).observe answers).runWhere (fun p a => undisturbed p.1 a)
      ((system ℕ).observe answers).init claimedRun).map (fun p => p.2.length) = some 3 := by
    decide +kernel
  obtain ⟨p, hp, hlength⟩ := Option.map_eq_some_iff.mp hrun
  exact ⟨p, System.run_of_runWhere hp, hlength,
    quotes_serializable p (System.ReachableBy.runWhere (fun _ _ h => h) .init hp)⟩

/-- The owner lets the quote expire before the transfer claims it. -/
def expiredRun : List (Action ℕ) :=
  overlapRun ++ [.start 2 (.get "ann" 7), .run 2 {}, .run 2 {}, .run 1 {}, .run 1 {}]

/-- The transfer is told that another one has used the quote, which none has. -/
theorem expired_quote_used : ¬ ∀ p, ((system ℕ).observe answers).Reachable p →
    Serializable p.1.quotes p.2 := by
  intro hall
  have hrun : (((system ℕ).observe answers).run ((system ℕ).observe answers).init expiredRun).map
      (fun p => p.2.head?.map fun x =>
        (x.transaction.request, x.outcome, (findQuote x.before 7).bind FxQuote.consumedByTransferId)) =
      some (some (.consume 7 ⟨.ofUuid 9, "ann", dollar, euro, ⟨1000, 1⟩⟩, .error quoteAlreadyUsed,
        none)) := by decide +kernel
  obtain ⟨p, hp, hhead⟩ := Option.map_eq_some_iff.mp hrun
  obtain ⟨x, hx, heq⟩ := Option.map_eq_some_iff.mp hhead
  obtain ⟨hrequest, houtcome, hnone⟩ : x.transaction.request = _ ∧ x.outcome = _ ∧ _ = none := by
    simpa only [Prod.mk.injEq] using heq
  have hfair := (hall p (System.reachable_of_run hp)).fair x (List.mem_of_mem_head? hx)
  obtain ⟨quoteId, command, q, transferId, hconsume, hq, htransfer, -⟩ := hfair.used houtcome
  obtain ⟨rfl, -⟩ := Request.consume.inj (hrequest.symm.trans hconsume)
  rw [hq, Option.bind_some, htransfer] at hnone
  cases hnone

end NovaPay.Fx
