import NovaPay.Fx.Provenance

/-!
# What a call has read

The terms of a quote stay and its status is settled once it is not active, so what a call has read of a
quote holds at its next statement, whatever other calls did in between.
-/

namespace NovaPay.Fx

open DecimalArithmetic Relational TransitionSystem

variable {quotes quotes' : Quotes} {q p : FxQuote} {quoteId id : Uuid} {c : Choice} {now : Date}
  {request : Request} {pc : Pc} {outcome : Outcome}

/-- What the trigger lets a quote become. -/
structure Onward (q p : FxQuote) : Prop where
  terms : SameTerms q p
  settled : q.status ≠ .active → p.status = q.status

/-- No quote is removed, and each moves onward. -/
def Later (quotes quotes' : Quotes) : Prop :=
  ∀ id q, findQuote quotes id = some q → ∃ p, findQuote quotes' id = some p ∧ Onward q p

theorem Onward.refl (q : FxQuote) : Onward q q := ⟨.refl q, fun _ => rfl⟩

theorem Later.refl (quotes : Quotes) : Later quotes quotes := fun _ q h => ⟨q, h, .refl q⟩

theorem onward_of_guard (hid : q.id = p.id) (h : guardQuoteUpdate q p = true) : Onward q p := by
  simp only [guardQuoteUpdate, Bool.and_eq_true, Bool.or_eq_true, decide_eq_true_eq] at h
  obtain ⟨⟨⟨⟨⟨⟨⟨⟨⟨hclient, hsource⟩, htarget⟩, hsourceAmount⟩, htargetAmount⟩, hrate⟩, href⟩,
    hissued⟩, hexpires⟩, hstatus⟩ := h
  refine ⟨⟨hid, hclient, hsource, htarget, hsourceAmount, htargetAmount, hrate, href, hissued,
    hexpires⟩, fun hq => ?_⟩
  rcases hstatus with hsame | ⟨hactive, -⟩
  · exact hsame.symm
  · exact absurd hactive hq

theorem updateQuote_later {n : ℕ} {m : FxQuote → Bool} {f : FxQuote → FxQuote}
    (h : quotes.updateMany m f = .ok (quotes', n)) (hm : ∀ q, m q = true → q.id = quoteId)
    (hf : ∀ q, (f q).id = q.id) : Later quotes quotes' := by
  rcases updateQuote_ok h hm hf with ⟨-, rfl, -⟩ | ⟨-, q, -, -, hguard, hreplaced⟩
  · exact .refl quotes'
  · intro id r hr
    by_cases hid : id = q.id
    · subst hid
      obtain rfl := Option.some.inj (hreplaced.found.symm.trans hr)
      exact ⟨f q, by rw [hreplaced.replaced, if_pos rfl], onward_of_guard (hf q).symm hguard⟩
    · exact ⟨r, by rw [hreplaced.replaced, if_neg hid, hr], .refl r⟩

theorem runInsert_later {clientId : Principal} {command : CreateQuote} :
    Later quotes (runInsert c quotes clientId command now).1 := by
  unfold runInsert
  split
  · dsimp only
    split
    · next quotes' hinsert =>
      have hrows := Table.insertMany_ok hinsert
      have hunique := quote_ids quotes'
      rw [hrows] at hunique
      have hfresh := findBy_eq_none_iff.mpr (fresh_of_uniqueBy_append hunique)
      intro id r hr
      refine ⟨r, ?_, .refl r⟩
      rw [findQuote, hrows, findBy_append_new hfresh, if_neg]
      · exact hr
      · rintro rfl
        rw [findQuote, hfresh] at hr
        cases hr
    · exact .refl quotes
  · exact .refl quotes

theorem advance_later : Later quotes (advance c quotes pc).1 := by
  cases pc with
  | insert clientId command now => exact runInsert_later
  | expire quoteId now =>
    change Later quotes (runExpire quotes quoteId now).1
    unfold runExpire
    split
    · next hupdate =>
      have hlater := updateQuote_later hupdate (fun q hq => of_decide_eq_true hq) (fun _ => rfl)
      split
      · exact hlater
      · exact .refl quotes
    · exact .refl quotes
  | claim quoteId command now =>
    change Later quotes (runClaim quotes quoteId command now).1
    unfold runClaim
    split
    · next hupdate =>
      have hlater := updateQuote_later hupdate (fun _ => claimable_id) (fun _ => rfl)
      split
      · exact hlater
      · split
        · exact hlater
        · exact .refl quotes
    · exact .refl quotes
  | _ => exact .refl quotes

/-- The update of both expiries goes through unless the quote was consumed. -/
theorem expire_updates (hq : findQuote quotes quoteId = some q) (hs : q.status ≠ .consumed) :
    ∃ quotes', quotes.updateMany (fun q => decide (q.id = quoteId)) FxQuote.expire = .ok (quotes', 1) ∧
      Replaced quotes quotes' q q.expire ∧
      quotes'.rows = updateWhere (fun q => decide (q.id = quoteId)) FxQuote.expire quotes.rows := by
  obtain ⟨hmem, hid⟩ := findQuote_eq_some_iff.mp hq
  have hcheck : q.check = true := quotes.checked q hmem
  have hpass : ∀ r ∈ quotes.rows, decide (r.id = quoteId) = true →
      guardQuoteUpdate r r.expire = true ∧ r.expire.check = true := by
    intro r hr hrid
    obtain rfl := eq_of_uniqueBy (quote_ids quotes) hr hmem ((of_decide_eq_true hrid).trans hid.symm)
    simp only [FxQuote.check, Bool.and_eq_true, decide_eq_false hs] at hcheck
    simp only [FxQuote.check, FxQuote.expire, Bool.and_eq_true]
    refine ⟨?_, hcheck⟩
    cases hstatus : r.status with
    | consumed => exact absurd hstatus hs
    | _ => simp [guardQuoteUpdate, hstatus]
  have hindexed : quotesIndexed (updateWhere (fun r => decide (r.id = quoteId)) FxQuote.expire
      quotes.rows) = true := by
    have hids : ∀ r : FxQuote, r.expire.id = r.id := fun _ => rfl
    have htransfers : ∀ r : FxQuote, r.expire.consumedByTransferId = r.consumedByTransferId :=
      fun _ => rfl
    simp only [quotesIndexed, Bool.and_eq_true]
    rw [uniqueBy_updateWhere hids, uniqueWhere_updateWhere htransfers]
    exact ⟨quote_ids quotes, quote_transfers quotes⟩
  obtain ⟨quotes', hupdate, hrows⟩ := Table.updateMany_of_check hpass hindexed
  rcases updateQuote_ok hupdate (fun q hq => of_decide_eq_true hq) (fun _ => rfl) with
    ⟨-, -, hnone⟩ | ⟨hone, r, hrid, -, -, hreplaced⟩
  · exact absurd (hnone q hmem) (by simp [hid])
  · obtain rfl : r = q := by
      have hfound := hreplaced.found
      rw [hrid, hq] at hfound
      exact (Option.some.inj hfound).symm
    rw [hone] at hupdate
    exact ⟨quotes', hupdate, hreplaced, hrows⟩

/-- Nothing becomes of a quote that expires again. -/
theorem expire_again (hq : findQuote quotes quoteId = some q) (hs : q.status = .expired) :
    quotes.updateMany (fun q => decide (q.id = quoteId)) FxQuote.expire = .ok (quotes, 1) := by
  obtain ⟨hmem, hid⟩ := findQuote_eq_some_iff.mp hq
  obtain ⟨quotes', hupdate, -, hrows⟩ := expire_updates hq (by rw [hs]; decide)
  have hsame : ∀ r ∈ quotes.rows, (if decide (r.id = quoteId) then r.expire else r) = r := by
    intro r hr
    by_cases hrid : r.id = quoteId
    · obtain rfl := eq_of_uniqueBy (quote_ids quotes) hr hmem (hrid.trans hid.symm)
      rw [if_pos (by simpa using hid), FxQuote.expire, ← hs]
    · rw [if_neg (by simpa using hrid)]
  have hkept : quotes'.rows = quotes.rows := by
    rw [hrows, updateWhere, List.map_congr_left hsame, List.map_id']
  rw [hupdate, Table.ext_rows hkept]

/-- What a call that arrived at `now` has read before a statement. -/
def Pc.Read (quotes : Quotes) (request : Request) (now : Date) : Pc → Prop
  | .insert clientId command now' => request = .create clientId command ∧
      command.sourceCurrency ≠ command.targetCurrency ∧ now' = now
  | .getRead clientId quoteId now' => request = .get clientId quoteId ∧ now' = now
  | .expire quoteId now' => now' = now ∧ ∃ q, findQuote quotes quoteId = some q ∧
      request = .get q.clientId quoteId ∧ q.expiresAt ≤ now
  | .consumeRead quoteId command now' => request = .consume quoteId command ∧ now' = now
  | .rejectExpired quoteId => ∃ command q, request = .consume quoteId command ∧
      findQuote quotes quoteId = some q ∧ Fits q command ∧ q.expiresAt ≤ now
  | .claim quoteId command now' => request = .consume quoteId command ∧ now' = now ∧
      ∃ q, findQuote quotes quoteId = some q ∧ Fits q command ∧ now < q.expiresAt
  | .winner quoteId command now' => request = .consume quoteId command ∧ now' = now ∧
      ∃ q, findQuote quotes quoteId = some q ∧ Fits q command ∧ now < q.expiresAt ∧
        q.status ≠ .active

theorem Pc.Read.mono (h : pc.Read quotes request now) (hl : Later quotes quotes') :
    pc.Read quotes' request now := by
  cases pc with
  | expire quoteId now' =>
    obtain ⟨hnow, q, hq, hrequest, hexpired⟩ := h
    obtain ⟨p, hp, hterms, -⟩ := hl quoteId q hq
    exact ⟨hnow, p, hp, hterms.clientId ▸ hrequest, hterms.expiresAt ▸ hexpired⟩
  | rejectExpired quoteId =>
    obtain ⟨command, q, hrequest, hq, hfits, hexpired⟩ := h
    obtain ⟨p, hp, hterms, -⟩ := hl quoteId q hq
    exact ⟨command, p, hrequest, hp, hfits.of_terms hterms, hterms.expiresAt ▸ hexpired⟩
  | claim quoteId command now' =>
    obtain ⟨hrequest, hnow, q, hq, hfits, hopen⟩ := h
    obtain ⟨p, hp, hterms, -⟩ := hl quoteId q hq
    exact ⟨hrequest, hnow, p, hp, hfits.of_terms hterms, hterms.expiresAt ▸ hopen⟩
  | winner quoteId command now' =>
    obtain ⟨hrequest, hnow, q, hq, hfits, hopen, hs⟩ := h
    obtain ⟨p, hp, hterms, hsettled⟩ := hl quoteId q hq
    refine ⟨hrequest, hnow, p, hp, hfits.of_terms hterms, hterms.expiresAt ▸ hopen, ?_⟩
    rw [hsettled hs]
    exact hs
  | _ => exact h

theorem entry_read (h : request.entry now = .goto pc) : pc.Read quotes request now := by
  cases request with
  | create clientId command =>
    simp only [Request.entry] at h
    split at h
    · cases h
    · next hne =>
      cases h
      exact ⟨rfl, hne, rfl⟩
  | get clientId quoteId =>
    cases h
    exact ⟨rfl, rfl⟩
  | consume quoteId command =>
    cases h
    exact ⟨rfl, rfl⟩

theorem runConsumeRead_goto {command : ConsumeQuote}
    (h : runConsumeRead quotes quoteId command now = .goto pc) :
    pc.Read quotes (.consume quoteId command) now := by
  unfold runConsumeRead at h
  split at h
  · cases h
  next q hq =>
  split at h
  · cases h
  next hclient =>
  split at h
  · cases h
  next hdetails =>
  push Not at hclient hdetails
  have hfits : Fits q command := ⟨hclient, hdetails.1, hdetails.2.1, hdetails.2.2⟩
  split at h
  · split at h <;> cases h
  split at h
  · next hexpired =>
    split at h
    · next hactive =>
      cases h
      refine ⟨command, q, rfl, hq, hfits, ?_⟩
      rcases hexpired with hexpired | hexpired
      · rw [hactive] at hexpired
        cases hexpired
      · exact hexpired
    · cases h
  · next hopen =>
    push Not at hopen
    cases h
    exact ⟨rfl, rfl, q, hq, hfits, hopen.2⟩

/-- A claim that matches no row finds its quote no longer active. -/
theorem runClaim_goto {command : ConsumeQuote} (hrows : RowsOk quotes)
    (hread : (Pc.claim quoteId command now).Read quotes request now)
    (h : (runClaim quotes quoteId command now).2 = .goto pc) :
    (runClaim quotes quoteId command now).1 = quotes ∧ pc.Read quotes request now := by
  unfold runClaim at h ⊢
  split at h
  · next quotes' n hupdate =>
    rcases updateQuote_ok hupdate (fun _ => claimable_id) (fun _ => rfl) with
      ⟨rfl, rfl, hnone⟩ | ⟨rfl, -⟩
    · rw [if_pos (by decide)] at h ⊢
      cases h
      obtain ⟨hrequest, -, q, hq, hfits, hopen⟩ := hread
      refine ⟨rfl, hrequest, rfl, q, hq, hfits, hopen, fun hactive => ?_⟩
      obtain ⟨hmem, hid⟩ := findQuote_eq_some_iff.mp hq
      have hunconsumed := (hrows q hmem).unconsumed (by rw [hactive]; decide)
      have hclaimable := hnone q hmem
      simp [claimable, hid, hactive, hopen, hunconsumed] at hclaimable
    · rw [if_neg (by decide)] at h
      split at h <;> cases h
  · cases h

/-- A statement that goes on writes nothing, and the next one knows what it has read. -/
theorem advance_goto (hrows : RowsOk quotes) (hread : pc.Read quotes request now) {pc' : Pc}
    (h : (advance c quotes pc).2 = .goto pc') :
    (advance c quotes pc).1 = quotes ∧ pc'.Read quotes request now := by
  cases pc with
  | insert clientId command now' =>
    simp only [advance, runInsert] at h
    repeat' split at h
    all_goals cases h
  | getRead clientId quoteId now' =>
    obtain ⟨rfl, rfl⟩ := hread
    simp only [advance, runGetRead] at h
    split at h
    · cases h
    next q hq =>
    split at h
    · cases h
    next hclient =>
    push Not at hclient
    split at h
    · next hexpired =>
      cases h
      exact ⟨rfl, rfl, q, hq, by rw [hclient], hexpired.2⟩
    · cases h
  | expire quoteId now' =>
    simp only [advance, runExpire] at h
    repeat' split at h
    all_goals cases h
  | consumeRead quoteId command now' =>
    obtain ⟨rfl, rfl⟩ := hread
    exact ⟨rfl, runConsumeRead_goto h⟩
  | rejectExpired quoteId =>
    simp only [advance, runRejectExpired] at h
    split at h <;> cases h
  | claim quoteId command now' =>
    obtain rfl := hread.2.1
    exact runClaim_goto hrows hread h
  | winner quoteId command now' =>
    simp only [advance, runWinner] at h
    repeat' split at h
    all_goals cases h

section Runs

variable {ι : Type} [DecidableEq ι] {s s' : State ι} {a : Action ι}

theorem step_later (h : step s a = some s') : Later s.quotes s'.quotes := by
  rcases step_cases h with ⟨_, -, rfl⟩ | ⟨_, _, _, -, rfl, -⟩ |
    ⟨_, choice, _, _, pc, -, -, rfl⟩ | ⟨_, _, _, _, -, -, rfl⟩
  · exact .refl s.quotes
  · exact .refl s.quotes
  · exact advance_later
  · exact .refl s.quotes

/-- The calls under way know what they have read. -/
def Informed (s : State ι) : Prop :=
  ∀ i request arrivedAt pc, s.calls i = some ⟨request, arrivedAt, .running pc⟩ →
    pc.Read s.quotes request arrivedAt.toDate

theorem Informed.step (hi : Invariant s) (hp : Informed s) (h : Fx.step s a = some s') :
    Informed s' := by
  intro i request arrivedAt pc hcall
  have hlater := step_later h
  rcases step_cases h with ⟨_, -, rfl⟩ | ⟨j, request', next, -, rfl, hnext⟩ |
    ⟨j, choice, request', arrivedAt', pc', -, hrun, rfl⟩ |
    ⟨j, request', arrivedAt', pc', -, hrun, rfl⟩
  · exact hp i request arrivedAt pc hcall
  · rcases calls_of_setCall s.quotes hcall with ⟨rfl, heq⟩ | hold
    · obtain ⟨rfl, rfl, hprogress⟩ := Call.mk.inj heq
      rcases hnext with ⟨-, rfl⟩ | ⟨error, -, rfl⟩
      · cases hentry : request.entry s.now.toDate with
        | goto pc' =>
          rw [hentry] at hprogress
          cases hprogress
          exact entry_read hentry
        | answer outcome =>
          rw [hentry] at hprogress
          cases hprogress
      · cases hprogress
    · exact hp i request arrivedAt pc hold
  · rcases calls_of_setCall _ hcall with ⟨rfl, heq⟩ | hold
    · obtain ⟨rfl, rfl, hprogress⟩ := Call.mk.inj heq
      cases hnext : (advance choice s.quotes pc').2 with
      | goto next =>
        rw [hnext] at hprogress
        cases hprogress
        exact (advance_goto hi.rows (hp i request arrivedAt pc' hrun) hnext).2.mono hlater
      | answer outcome =>
        rw [hnext] at hprogress
        cases hprogress
    · exact (hp i request arrivedAt pc hold).mono hlater
  · rcases calls_of_setCall s.quotes hcall with ⟨rfl, heq⟩ | hold
    · cases heq
    · exact hp i request arrivedAt pc hold

theorem informed_of_reachable (h : (system ι).Reachable s) : Informed s :=
  System.Reachable.invariant (M := system ι) (by simp [Informed, system, State.initial])
    (fun _ _ _ hr hp hs => hp.step (invariant_of_reachable hr) hs) h

end Runs

end NovaPay.Fx
