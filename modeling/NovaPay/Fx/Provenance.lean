import NovaPay.Fx.Consumption

/-!
# Where the steps of a quote's calls come from

What a call has read when it goes on to claim or to expire a quote, whose consumption a row names, and
that a consumption alone on an active quote goes through.
-/

namespace NovaPay.Fx

open DecimalArithmetic Relational TransitionSystem

variable {quotes quotes' : Quotes} {q p : FxQuote} {quoteId : Uuid} {c : Choice} {now : Date}
  {command : ConsumeQuote}

/-- The statements before a claim, a second read and an expiry, and what they found. -/
def Pc.Follows (quotes : Quotes) (pc : Pc) : Pc → Prop
  | .claim quoteId command now => pc = .consumeRead quoteId command now ∧
      ∃ q, findQuote quotes quoteId = some q ∧ q.status = .active ∧ now < q.expiresAt
  | .winner quoteId command now => pc = .claim quoteId command now ∧
      ∀ q ∈ quotes.rows, claimable quoteId now q = false
  | .expire quoteId now => ∃ q, findQuote quotes quoteId = some q ∧ q.expiresAt ≤ now ∧
      ∃ clientId, pc = .getRead clientId quoteId now
  | .getRead _ _ _ => False
  | _ => True

/-- The statements before a call is told that its quote was used, and what they found. -/
def Next.Follows (quotes : Quotes) (pc : Pc) : Next → Prop
  | .goto pc' => Pc.Follows quotes pc pc'
  | .answer (.error error) => error = quoteAlreadyUsed →
      ∃ quoteId command now q, findQuote quotes quoteId = some q ∧
        q.consumedByTransferId.map UuidText.ofUuid ≠ some command.transferId ∧
        ((pc = .consumeRead quoteId command now ∧ q.status = .consumed) ∨
          pc = .winner quoteId command now)
  | .answer (.quote _) => True

theorem runGetRead_follows {clientId : Principal} :
    (runGetRead quotes clientId quoteId now).Follows quotes (.getRead clientId quoteId now) := by
  unfold runGetRead
  split
  · exact fun h => absurd h (by decide)
  next q hq =>
  split
  · exact fun h => absurd h (by decide)
  split
  · next hexpired => exact ⟨q, hq, hexpired.2, clientId, rfl⟩
  · trivial

theorem runExpire_follows : (runExpire quotes quoteId now).2.Follows quotes (.expire quoteId now) := by
  unfold runExpire
  split
  · split
    · trivial
    · exact fun h => absurd h (by decide)
  · exact fun h => absurd h (by decide)

theorem runConsumeRead_follows :
    (runConsumeRead quotes quoteId command now).Follows quotes (.consumeRead quoteId command now) := by
  unfold runConsumeRead
  split
  · exact fun h => absurd h (by decide)
  next q hq =>
  split
  · exact fun h => absurd h (by decide)
  split
  · exact fun h => absurd h (by decide)
  split
  · next hs =>
    split
    · trivial
    · next hother => exact fun _ => ⟨quoteId, command, now, q, hq, hother, .inl ⟨rfl, hs⟩⟩
  next hs =>
  split
  · split
    · trivial
    · exact fun h => absurd h (by decide)
  · next hopen =>
    push Not at hopen
    refine ⟨rfl, q, hq, ?_, hopen.2⟩
    cases hstatus : q.status with
    | active => rfl
    | consumed => exact absurd hstatus hs
    | expired => exact absurd hstatus hopen.1

theorem claimable_id (h : claimable quoteId now q = true) : q.id = quoteId := by
  simp only [claimable, Bool.and_eq_true, decide_eq_true_eq] at h
  exact h.1.1.1

theorem runClaim_follows : (runClaim quotes quoteId command now).2.Follows quotes
    (.claim quoteId command now) := by
  unfold runClaim
  split
  · next quotes' n hupdate =>
    split
    · next hn =>
      rcases updateQuote_ok hupdate (fun _ => claimable_id) (fun _ => rfl) with
        ⟨-, -, hnone⟩ | ⟨hone, -⟩
      · exact ⟨rfl, hnone⟩
      · exact absurd hone hn
    · split
      · trivial
      · exact fun h => absurd h (by decide)
  · exact fun h => absurd h (by decide)

theorem runWinner_follows : (runWinner quotes quoteId command now).Follows quotes
    (.winner quoteId command now) := by
  unfold runWinner
  split
  · next q hq =>
    split
    · trivial
    · next hother => exact fun _ => ⟨quoteId, command, now, q, hq, hother, .inr rfl⟩
  · exact fun h => absurd h (by decide)

theorem advance_follows {pc : Pc} : (advance c quotes pc).2.Follows quotes pc := by
  cases pc with
  | insert clientId command now =>
    change (runInsert c quotes clientId command now).2.Follows quotes _
    unfold runInsert
    split
    · dsimp only
      split
      · trivial
      · exact fun h => absurd h (by decide)
    · exact fun h => absurd h (by decide)
  | getRead clientId quoteId now => exact runGetRead_follows
  | expire quoteId now => exact runExpire_follows
  | consumeRead quoteId command now => exact runConsumeRead_follows
  | rejectExpired quoteId =>
    change (runRejectExpired quotes quoteId).Follows quotes _
    unfold runRejectExpired
    split <;> exact fun h => absurd h (by decide)
  | claim quoteId command now => exact runClaim_follows
  | winner quoteId command now => exact runWinner_follows

/-- The row that a statement leaves of a quote it writes. -/
inductive Written (quotes : Quotes) (pc : Pc) : FxQuote → Prop
  | created {q : FxQuote} : q.status = .active → q.consumedByTransferId = none → Written quotes pc q
  | expired {q : FxQuote} {now : Date} : pc = .expire q.id now → findQuote quotes q.id = some q →
      q.status ≠ .consumed → Written quotes pc q.expire
  | consumed {q : FxQuote} {command : ConsumeQuote} {now : Date} : pc = .claim q.id command now →
      findQuote quotes q.id = some q → now < q.expiresAt →
      Written quotes pc (q.consume command.transferId.value now)

theorem Replaced.written {pc : Pc} (h : Replaced quotes quotes' q p) (hw : Written quotes pc p) {r : FxQuote} (hr : r ∈ quotes'.rows) :
    r ∈ quotes.rows ∨ Written quotes pc r := by
  have hfind := findQuote_eq_some_iff.mpr ⟨hr, rfl⟩
  rw [h.replaced] at hfind
  split at hfind
  · cases hfind
    exact .inr hw
  · exact .inl (findQuote_eq_some_iff.mp hfind).1

/-- Only the rows that a statement writes are not as they were. -/
theorem advance_written {pc : Pc} {r : FxQuote} (hr : r ∈ (advance c quotes pc).1.rows) :
    r ∈ quotes.rows ∨ Written quotes pc r := by
  cases pc with
  | insert clientId command now =>
    change r ∈ (runInsert c quotes clientId command now).1.rows at hr
    unfold runInsert at hr
    split at hr
    · dsimp only at hr
      split at hr
      · next hinsert =>
        rw [Table.insertMany_ok hinsert, List.mem_append, List.mem_singleton] at hr
        rcases hr with hr | rfl
        · exact .inl hr
        · exact .inr (.created rfl rfl)
      · exact .inl hr
    · exact .inl hr
  | expire quoteId now =>
    change r ∈ (runExpire quotes quoteId now).1.rows at hr
    unfold runExpire at hr
    split at hr
    · next quotes' n hupdate =>
      split at hr
      · rcases updateQuote_ok hupdate (fun q hq => of_decide_eq_true hq) (fun _ => rfl) with
          ⟨-, heq, -⟩ | ⟨-, q, rfl, -, hguard, hreplaced⟩
        · exact .inl (heq ▸ hr)
        · exact hreplaced.written
            (.expired rfl hreplaced.found (not_consumed_of_guard hguard)) hr
      · exact .inl hr
    · exact .inl hr
  | claim quoteId command now =>
    change r ∈ (runClaim quotes quoteId command now).1.rows at hr
    unfold runClaim at hr
    split at hr
    · next quotes' n hupdate =>
      have hcases : r ∈ quotes'.rows → r ∈ quotes.rows ∨ Written quotes (.claim quoteId command now) r := by
        intro hr'
        rcases updateQuote_ok hupdate (fun _ => claimable_id) (fun _ => rfl) with
          ⟨-, heq, -⟩ | ⟨-, q, rfl, hclaimable, -, hreplaced⟩
        · exact .inl (heq ▸ hr')
        · simp only [claimable, Bool.and_eq_true, decide_eq_true_eq] at hclaimable
          exact hreplaced.written (.consumed rfl hreplaced.found hclaimable.1.2) hr'
      split at hr
      · exact hcases hr
      · split at hr
        · exact hcases hr
        · exact .inl hr
    · exact .inl hr
  | _ => exact .inl hr

/-- A consumption that runs alone on an active quote, by a transfer that has consumed none, gets the
quote. -/
theorem consume_alone (hq : findQuote quotes quoteId = some q) (hs : q.status = .active)
    (hnow : now < q.expiresAt) (hfits : Fits q command) (hnone : q.consumedByTransferId = none)
    (hfresh : ∀ r ∈ quotes.rows, r.consumedByTransferId ≠ some command.transferId.value) :
    runConsumeRead quotes quoteId command now = .goto (.claim quoteId command now) ∧
    ∃ quotes', runClaim quotes quoteId command now =
        (quotes', .answer (.quote (toResponse (q.consume command.transferId.value now) now))) ∧
      findQuote quotes' quoteId = some (q.consume command.transferId.value now) := by
  obtain ⟨hmem, hid⟩ := findQuote_eq_some_iff.mp hq
  refine ⟨?_, ?_⟩
  · unfold runConsumeRead
    rw [hq]
    simp [hfits.clientId, hfits.sourceCurrency, hfits.targetCurrency, hfits.sourceAmount, hs, hnow]
  have hpq : claimable quoteId now q = true := by simp [claimable, hid, hs, hnow, hnone]
  have honly : ∀ r ∈ quotes.rows, claimable quoteId now r = true → r = q := fun r hr hp =>
    eq_of_uniqueBy (quote_ids quotes) hr hmem ((claimable_id hp).trans hid.symm)
  have hcheck : q.check = true := quotes.checked q hmem
  simp only [FxQuote.check, Bool.and_eq_true] at hcheck
  have hindexed : quotesIndexed (updateWhere (claimable quoteId now)
      (fun r => r.consume command.transferId.value now) quotes.rows) = true := by
    simp only [quotesIndexed, Bool.and_eq_true]
    refine ⟨?_, ?_⟩
    · have hkeeps : ∀ r : FxQuote, (r.consume command.transferId.value now).id = r.id := fun _ => rfl
      rw [uniqueBy_updateWhere hkeeps]
      exact quote_ids quotes
    · exact uniqueWhere_updateWhere_fresh (quote_transfers quotes)
        (countP_le_one_of_uniqueBy (quote_ids quotes) fun _ => claimable_id) (fun _ => rfl) hfresh
  have hpass : ∀ r ∈ quotes.rows, claimable quoteId now r = true →
      guardQuoteUpdate r (r.consume command.transferId.value now) = true ∧
        (r.consume command.transferId.value now).check = true := by
    intro r hr hp
    obtain rfl := honly r hr hp
    refine ⟨by simp [guardQuoteUpdate, FxQuote.consume, hs], ?_⟩
    simp only [FxQuote.check, FxQuote.consume, Bool.and_eq_true]
    exact ⟨hcheck.1, by simp⟩
  obtain ⟨quotes', hupdate, -⟩ := Table.updateMany_of_check hpass hindexed
  rcases updateQuote_ok hupdate (fun _ => claimable_id) (fun _ => rfl) with
    ⟨-, -, hnone⟩ | ⟨hone, r, hrid, hpr, -, hreplaced⟩
  · rw [hnone q hmem] at hpq
    cases hpq
  · obtain rfl := honly r (findQuote_eq_some_iff.mp hreplaced.found).1 hpr
    have hfind : findQuote quotes' quoteId = some (r.consume command.transferId.value now) := by
      rw [hreplaced.replaced, if_pos hid.symm]
    refine ⟨quotes', ?_, hfind⟩
    unfold runClaim
    rw [hupdate]
    dsimp only
    rw [if_neg (not_not.mpr hone), hfind]

section Step

variable {ι : Type} [DecidableEq ι] {s : State ι} {i : ι} {request : Request}

theorem step_start (h : s.calls i = none) : step s (.start i request) =
    some (s.setCall i ⟨request, s.now, (request.entry s.now.toDate).progress⟩) := by
  simp only [step, h]

theorem step_run {arrivedAt : Time} {pc : Pc} {next : Next}
    (h : s.calls i = some ⟨request, arrivedAt, .running pc⟩)
    (hadvance : advance c s.quotes pc = (quotes', next)) : step s (.run i c) =
      some ((s.withQuotes quotes').setCall i ⟨request, arrivedAt, next.progress⟩) := by
  simp only [step, h, hadvance]

end Step

end NovaPay.Fx
