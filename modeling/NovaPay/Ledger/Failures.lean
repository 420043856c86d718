import NovaPay.Ledger.Reversals

/-!
# Postings that do not commit

Why the transaction of `postResolved` fails: with an exception of the service, on a unique index, or on
what the columns, the CHECK constraints and the deferred trigger refuse.
-/

namespace NovaPay.Ledger

open DecimalArithmetic DoubleEntry Relational

variable {config : Config} {db : Database} {posting : ResolvedPosting} {commandHash : Digest} {id : Uuid}
  {tx : LedgerTransaction} {command : PostingCommand} {failBeforeCommit : Bool}

/-- A duplicate check finds the posting, another command under the reference, or nothing. -/
theorem afterLookup_cases (db : Database) (externalReference : Uuid) (commandHash : Digest) (next : Next) :
    (∃ tx ∈ db.transactions.rows, tx.externalReference = externalReference ∧
      tx.commandHash = commandHash ∧
      afterLookup db externalReference commandHash next = .answer (.posting (toResponse tx))) ∨
    (∃ tx ∈ db.transactions.rows, tx.externalReference = externalReference ∧
      tx.commandHash ≠ commandHash ∧
      afterLookup db externalReference commandHash next = .answer (.error idempotencyKeyReused)) ∨
    ((∀ tx ∈ db.transactions.rows, tx.externalReference ≠ externalReference) ∧
      afterLookup db externalReference commandHash next = next) := by
  unfold afterLookup findIdempotent
  cases hfind : db.findByReference externalReference with
  | none => exact .inr (.inr ⟨findBy_eq_none_iff.mp hfind, rfl⟩)
  | some tx =>
    obtain ⟨hmem, href⟩ := Database.findByReference_eq_some_iff.mp hfind
    by_cases hhash : tx.commandHash = commandHash
    · exact .inl ⟨tx, hmem, href, hhash, by simp [hhash]⟩
    · exact .inr (.inl ⟨tx, hmem, href, hhash, by simp [hhash]⟩)

/-! ### Locks and funds -/

/-- Every account of a posting is there and open for its entries. -/
def Allowed (db : Database) (posting : ResolvedPosting) : Prop :=
  ∀ e ∈ posting.entries, ∃ a, db.findAccount e.ledgerAccountId = some a ∧
    accountAllows posting.postingType a e = true

/-- No customer would owe after a posting. -/
def Funded (db : Database) (posting : ResolvedPosting) : Prop :=
  ∀ e ∈ posting.entries, ∀ a b, db.findAccount e.ledgerAccountId = some a →
    db.findBalance e.ledgerAccountId = some b → a.accountType = .customer →
      0 ≤ nextBalance a b.availableBalance.value posting.entries

/-- A balance that a posting moves beyond its column. -/
def Unstorable (db : Database) (posting : ResolvedPosting) : Prop :=
  ∃ b ∈ db.balances.rows, touches posting b = true ∧ storeBalance db posting b = none

theorem mem_accountIds {i : Uuid}
    (h : i ∈ (posting.entries.map ResolvedEntry.ledgerAccountId).dedup) :
    ∃ e ∈ posting.entries, e.ledgerAccountId = i := by
  rw [List.mem_dedup] at h
  exact List.mem_map.mp h

/-- The balances of a posting are locked where its accounts are there and open for its entries. -/
theorem lockBalances_cases (hs : Sound db) (posting : ResolvedPosting) :
    (Allowed db posting ∧ ∃ locked, lockBalances db posting = .ok locked ∧
      ∀ ab ∈ locked, ∃ e ∈ posting.entries, db.findAccount e.ledgerAccountId = some ab.1 ∧
        db.findBalance e.ledgerAccountId = some ab.2) ∨
    (¬ Allowed db posting ∧ ∃ error ∈ [accountsNotFound, accountUnavailable],
      lockBalances db posting = .error (.http error)) := by
  set accountIds := (posting.entries.map ResolvedEntry.ledgerAccountId).dedup with hids
  unfold lockBalances
  simp only [← hids]
  -- Every account has its projection, so only the accounts themselves can be missing.
  by_cases hfound : (accountIds.filterMap db.findAccount).length = accountIds.length
  · rw [if_neg (not_not.mpr hfound)]
    split
    · next hany =>
      refine .inr ⟨fun hallowed => ?_, _, by simp, rfl⟩
      obtain ⟨e, he, hnot⟩ := List.any_eq_true.mp hany
      obtain ⟨a, ha, hopen⟩ := hallowed e he
      simp [ha, hopen] at hnot
    · next hall =>
      have hbalances : ((accountIds.filterMap db.findAccount).filterMap fun a =>
          (db.findBalance a.id).map fun b => (a, b)).length = accountIds.length := by
        rw [← hfound]
        refine List.filterMap_length_eq_length.mpr fun a ha => ?_
        obtain ⟨i, -, hi⟩ := List.mem_filterMap.mp ha
        obtain ⟨b, hb⟩ := hs.balance a (Database.findAccount_eq_some_iff.mp hi).1
        simp [hb]
      rw [if_neg (not_not.mpr hbalances)]
      refine .inl ⟨fun e he => ?_, _, rfl, fun ab hab => ?_⟩
      · by_contra hnone
        refine hall (List.any_eq_true.mpr ⟨e, he, ?_⟩)
        rw [Bool.not_eq_true', Option.any_eq_false]
        intro a ha
        simpa using fun hopen => hnone ⟨a, ha, hopen⟩
      · obtain ⟨a, ha, hb⟩ := List.mem_filterMap.mp hab
        obtain ⟨i, hi, hfind⟩ := List.mem_filterMap.mp ha
        obtain ⟨b, hfindBalance, rfl⟩ := Option.map_eq_some_iff.mp hb
        obtain ⟨e, he, rfl⟩ := mem_accountIds hi
        rw [(Database.findAccount_eq_some_iff.mp hfind).2] at hfindBalance
        exact ⟨e, he, hfind, hfindBalance⟩
  · rw [if_pos hfound]
    refine .inr ⟨fun hallowed => hfound ?_, _, by simp, rfl⟩
    refine List.filterMap_length_eq_length.mpr fun i hi => ?_
    obtain ⟨e, he, rfl⟩ := mem_accountIds hi
    obtain ⟨a, ha, -⟩ := hallowed e he
    simp [ha]

theorem checkFunds_cases {locked : List (LedgerAccount × WalletBalance)}
    (hlock : lockBalances db posting = .ok locked)
    (hpairs : ∀ ab ∈ locked, ∃ e ∈ posting.entries, db.findAccount e.ledgerAccountId = some ab.1 ∧
      db.findBalance e.ledgerAccountId = some ab.2) :
    (Funded db posting ∧ checkFunds posting locked = .ok ()) ∨
      (¬ Funded db posting ∧ checkFunds posting locked = .error (.http insufficientFunds)) := by
  unfold checkFunds
  split
  · next hany =>
    refine .inr ⟨fun hfunded => ?_, rfl⟩
    obtain ⟨ab, hab, hneg⟩ := List.any_eq_true.mp hany
    obtain ⟨e, he, ha, hb⟩ := hpairs ab hab
    simp only [Bool.and_eq_true, decide_eq_true_eq] at hneg
    exact absurd hneg.2 (hfunded e he _ _ ha hb hneg.1).not_gt
  · next hnone =>
    refine .inl ⟨fun e he a b ha hb hcustomer => ?_, rfl⟩
    obtain ⟨a', b', ha', hb', hmem⟩ := (lockBalances_ok hlock).balance e he
    obtain rfl := Option.some.inj (ha.symm.trans ha')
    obtain rfl := Option.some.inj (hb.symm.trans hb')
    by_contra hneg
    exact hnone (List.any_eq_true.mpr ⟨(a, b), hmem, by simp [hcustomer, not_le.mp hneg]⟩)

theorem settleBalances_cases (db : Database) (posting : ResolvedPosting) :
    (¬ Unstorable db posting ∧ ∃ balances, settleBalances db posting = .ok balances) ∨
      (Unstorable db posting ∧ settleBalances db posting = .error .other) := by
  unfold settleBalances
  split
  · next hany =>
    obtain ⟨b, hb, h⟩ := List.any_eq_true.mp hany
    simp only [Bool.and_eq_true, Option.isNone_iff_eq_none] at h
    exact .inr ⟨⟨b, hb, h⟩, rfl⟩
  · next hnone =>
    -- The update keeps the ids, so no unique index refuses it.
    have hindexed : uniqueBy WalletBalance.ledgerAccountId
        (updateWhere (touches posting) (settle db posting) db.balances.rows) = true :=
      (@uniqueBy_updateWhere _ _ _ (touches posting) (settle db posting) db.balances.rows _
        fun _ => rfl).trans db.balance_ids
    obtain ⟨balances, hupdate, -⟩ := @Table.updateMany_of_check _ (touches posting) (settle db posting) _
      db.balances (fun _ _ _ => ⟨rfl, rfl⟩) hindexed
    rw [hupdate]
    refine .inl ⟨?_, balances, rfl⟩
    rintro ⟨b, hb, htouches, hstore⟩
    exact hnone (List.any_eq_true.mpr ⟨b, hb, by simp [htouches, hstore]⟩)

/-! ### The rows of a posting of the API -/

/-- A rate that a column of its precision holds, and one that none holds. -/
theorem ofRat?_isRate {t : Text} (h : isRate t = true) :
    (t.value < 10 ^ 16 ∧ ∃ r : Rate, Numeric.ofRat? t.value = some r ∧ r.value = t.value) ∨
      (¬ t.value < 10 ^ 16 ∧ (Numeric.ofRat? t.value : Option Rate) = none) := by
  simp only [isRate, Bool.and_eq_true, decide_eq_true_eq] at h
  obtain ⟨⟨⟨hnonneg, -⟩, hplaces⟩, -⟩ := h
  have hgrid := value_mul_pow_of_places hplaces
  -- Its twelve places are the column's, so nothing is rounded.
  have habs : |roundHalfUp (t.value * 10 ^ 12)| = t.units * 10 ^ (12 - t.places) := by
    rw [roundHalfUp_of_int hgrid, abs_of_nonneg (by positivity)]
  have hbound : |roundHalfUp (t.value * 10 ^ 12)| < 10 ^ 28 ↔ t.value < 10 ^ 16 := by
    have hcast : ((t.units * 10 ^ (12 - t.places) : ℤ) : ℚ) < ((10 ^ 28 : ℤ) : ℚ) ↔ t.value < 10 ^ 16 := by
      rw [← hgrid]
      push_cast
      constructor
      · intro hlt
        linarith
      · intro hlt
        linarith
    rw [habs, ← hcast, Int.cast_lt]
  by_cases hlt : t.value < 10 ^ 16
  · left
    have hsome : (Numeric.ofRat? t.value : Option Rate) = some ⟨_, hbound.mpr hlt⟩ :=
      dif_pos (hbound.mpr hlt)
    exact ⟨hlt, _, hsome, Numeric.value_of_ofRat? hsome hgrid⟩
  · exact .inr ⟨hlt, dif_neg fun h => hlt (hbound.mp h)⟩

theorem storeEntries_of_held {entries : List ResolvedEntry}
    (hheld : ∀ e ∈ entries, ∃ m : Money, m.value = e.amount)
    (hrate : ∀ e ∈ entries, ∃ r, storeRate e.lockedFxRate = some r) (first : ℕ) :
    ∃ rows, storeEntries first entries = some rows := by
  induction entries generalizing first with
  | nil => exact ⟨[], rfl⟩
  | cons e entries ih =>
    obtain ⟨m, hm⟩ := hheld e List.mem_cons_self
    obtain ⟨r, hr⟩ := hrate e List.mem_cons_self
    obtain ⟨rows, hrows⟩ := ih (fun e' he' => hheld e' (List.mem_cons_of_mem e he'))
      (fun e' he' => hrate e' (List.mem_cons_of_mem e he')) (first + 1)
    simp only [storeEntries, storeEntry, ← hm, Numeric.ofRat?_value, hr, hrows, Option.bind_eq_bind,
      Option.bind_some, Option.pure_def]
    exact ⟨_, rfl⟩

/-- What the columns and the CHECK constraints of `ledger_transactions` ask of a posting. -/
structure Declarable (posting : ResolvedPosting) : Prop where
  source : 0 < posting.sourceAmount
  target : 0 < posting.targetAmount
  rate : ∀ r ∈ posting.lockedFxRate, 0 < r ∧ r < 10 ^ 16

/-- What the CHECK constraints of `ledger_entries` and the deferred trigger ask of its entries. -/
structure Enterable (posting : ResolvedPosting) : Prop where
  positive : ∀ e ∈ posting.entries, 0 < e.amount
  balanced : ∀ currency, exactTotal currency .debit posting.entries =
    exactTotal currency .credit posting.entries

/-- A unique column holds the id or the reference of a posting that is no reversal. -/
def Taken (db : Database) (posting : ResolvedPosting) (id : Uuid) : Prop :=
  ∃ tx ∈ db.transactions.rows, tx.id = id ∨ tx.externalReference = posting.externalReference

theorem Resolved.rate_text {r : ℚ}
    (h : Resolved config db (.post command failBeforeCommit) posting commandHash)
    (hr : posting.lockedFxRate = some r) : ∃ t, isRate t = true ∧ t.value = r := by
  cases h with
  | post valid =>
    obtain ⟨t, ht, rfl⟩ := Option.map_eq_some_iff.mp hr
    simp only [validPosting, Bool.and_eq_true] at valid
    have hrate := valid.1.1.1.2
    rw [ht] at hrate
    exact ⟨t, hrate, rfl⟩

/-- Every entry of a posting of the API carries its quote and rate. -/
theorem Resolved.quoted (h : Resolved config db (.post command failBeforeCommit) posting commandHash) :
    ∀ e ∈ posting.entries, e.fxQuoteId = posting.fxQuoteId ∧ e.lockedFxRate = posting.lockedFxRate := by
  cases h with
  | post valid shape resolves clears =>
    intro e he
    rcases List.mem_append.mp he with he | he
    · obtain ⟨entry, -, hr⟩ := exists_of_forall₂ resolves e he
      exact ⟨hr.fxQuoteId, hr.lockedFxRate⟩
    · rcases clears with ⟨-, rfl⟩ | ⟨-, sourceId, targetId, -, -, rfl⟩
      · cases he
      · simp only [clearingEntries, List.mem_cons, List.not_mem_nil, or_false] at he
        rcases he with rfl | rfl <;> exact ⟨rfl, rfl⟩

/-- An FX transfer has two currencies, a quote and a rate; a transfer or a fee has none of them. -/
theorem Resolved.shaped (h : Resolved config db (.post command failBeforeCommit) posting commandHash) :
    posting.reversesTransactionId = none ∧
      ((posting.postingType = .fxTransfer ∧ posting.sourceCurrency ≠ posting.targetCurrency ∧
        posting.fxQuoteId.isSome = true ∧ posting.lockedFxRate.isSome = true) ∨
      ((posting.postingType = .transfer ∨ posting.postingType = .fee) ∧
        posting.sourceCurrency = posting.targetCurrency ∧ posting.fxQuoteId = none ∧
        posting.lockedFxRate = none)) := by
  cases h with
  | @post command _ _ _ valid shape =>
    refine ⟨rfl, ?_⟩
    simp only [validPosting, Bool.and_eq_true, Bool.or_eq_true, decide_eq_true_eq] at valid
    have htype := valid.1.1.1.1.1.1
    unfold validateFxShape at shape
    simp only [resolvePosting, Option.isSome_map, Option.map_eq_none_iff]
    by_cases hfx : command.postingType = .fxTransfer
    · left
      simp only [hfx, if_true, Bool.and_eq_true, decide_eq_true_eq, ne_eq] at shape
      split at shape
      · next hvalid => exact ⟨hfx, hvalid.1.1, hvalid.1.2, hvalid.2⟩
      · cases shape
    · right
      simp only [hfx, if_false, Bool.and_eq_true, decide_eq_true_eq, Option.isNone_iff_eq_none] at shape
      split at shape
      · next hvalid => exact ⟨by simpa [hfx] using htype, hvalid.1.1, hvalid.1.2, hvalid.2⟩
      · cases shape

/-- The column of the rate holds it exactly where it is not too large. -/
theorem Resolved.storeRate_cases
    (h : Resolved config db (.post command failBeforeCommit) posting commandHash) :
    ((∀ r ∈ posting.lockedFxRate, r < 10 ^ 16) ∧ ∃ stored, storeRate posting.lockedFxRate = some stored ∧
      stored.map Numeric.value = posting.lockedFxRate) ∨
    ((¬ ∀ r ∈ posting.lockedFxRate, r < 10 ^ 16) ∧ storeRate posting.lockedFxRate = none) := by
  cases hrate : posting.lockedFxRate with
  | none => exact .inl ⟨by simp, none, rfl, rfl⟩
  | some r =>
    obtain ⟨t, ht, rfl⟩ := h.rate_text hrate
    rcases ofRat?_isRate ht with ⟨hlt, n, hn, hvalue⟩ | ⟨hge, hnone⟩
    · exact .inl ⟨by simpa using hlt, some n, by simp [storeRate, hn], by simp [hvalue]⟩
    · exact .inr ⟨by simpa using hge, by simp [storeRate, hnone]⟩

theorem Resolved.storePosting_cases (id : Uuid)
    (h : Resolved config db (.post command failBeforeCommit) posting commandHash) :
    ((∀ r ∈ posting.lockedFxRate, r < 10 ^ 16) ∧
      ∃ tx, storePosting posting commandHash id = some tx ∧
        tx.lockedFxRate.map Numeric.value = posting.lockedFxRate) ∨
    ((¬ ∀ r ∈ posting.lockedFxRate, r < 10 ^ 16) ∧ storePosting posting commandHash id = none) := by
  obtain ⟨⟨source, hsource⟩, target, htarget⟩ := h.amounts_held
  rcases h.storeRate_cases with ⟨hlt, stored, hstored, hvalue⟩ | ⟨hge, hnone⟩
  · obtain ⟨rows, hrows⟩ := storeEntries_of_held h.held
      (fun e he => ⟨stored, (h.quoted e he).2 ▸ hstored⟩) 1
    refine .inl ⟨hlt, ?_⟩
    simp only [storePosting, ← hsource, ← htarget, Numeric.ofRat?_value, hstored, hrows,
      Option.bind_eq_bind, Option.bind_some, Option.pure_def]
    exact ⟨_, rfl, hvalue⟩
  · refine .inr ⟨hge, ?_⟩
    simp only [storePosting, ← hsource, ← htarget, Numeric.ofRat?_value, hnone, Option.bind_eq_bind,
      Option.bind_some, Option.bind_none]

theorem all_positive_iff {stored : Option Rate} {rate : Option ℚ}
    (h : stored.map Numeric.value = rate) :
    stored.all (fun r => decide (0 < r.value)) = true ↔ ∀ r ∈ rate, 0 < r := by
  subst h
  cases stored <;> simp

/-- The CHECK constraints of `ledger_transactions` hold where the amounts and the rate are positive. -/
theorem Resolved.check_iff (h : Resolved config db (.post command failBeforeCommit) posting commandHash)
    (hstored : storePosting posting commandHash id = some tx)
    (hrate : tx.lockedFxRate.map Numeric.value = posting.lockedFxRate) :
    tx.check = true ↔ 0 < posting.sourceAmount ∧ 0 < posting.targetAmount ∧
      ∀ r ∈ posting.lockedFxRate, 0 < r := by
  have hok := storePosting_ok hstored
  obtain ⟨hsource, htarget, -⟩ := h.amounts_of_stores hok
  have hreverses := (storePosting_columns hstored).2.1
  have hall := all_positive_iff hrate
  have hisSome : tx.lockedFxRate.isSome = posting.lockedFxRate.isSome := by
    rw [← hrate, Option.isSome_map]
  obtain ⟨hnone, hshape⟩ := h.shaped
  unfold LedgerTransaction.check LedgerTransaction.fxCheck
  rw [hok.postingType, hok.sourceCurrency, hok.targetCurrency, hok.fxQuoteId, hreverses, hnone, hsource,
    htarget]
  rcases hshape with ⟨htype, hne, hquote, -⟩ | ⟨htype, heq, hquote, hratenone⟩
  · simp only [htype, hne, hquote, ne_eq, not_false_eq_true, decide_true, Bool.and_true, Bool.true_and,
      Bool.and_eq_true, decide_eq_true_eq, hall, Option.isSome_none, reduceCtorEq, decide_false,
      BEq.rfl]
    exact ⟨fun h => ⟨h.1.1, h.1.2, h.2⟩, fun h => ⟨⟨h.1, h.2.1⟩, h.2.2⟩⟩
  · have hnoRate : tx.lockedFxRate.isNone = true := by
      rw [Option.isNone_iff_eq_none, ← Option.not_isSome_iff_eq_none, hisSome, hratenone]
      simp
    rcases htype with htype | htype <;>
      simp [htype, heq, hquote, hnoRate, hratenone]

theorem storeEntries_rows {entries : List ResolvedEntry} {first : ℕ} {rows : List LedgerEntry}
    (h : storeEntries first entries = some rows) :
    ∀ row ∈ rows, first ≤ row.sequence ∧ ∃ e ∈ entries, storeRate e.lockedFxRate = some row.lockedFxRate := by
  induction entries generalizing first rows with
  | nil =>
    cases h
    simp
  | cons e entries ih =>
    obtain ⟨row, hrow, h⟩ := Option.bind_eq_some_iff.mp h
    obtain ⟨rest, hrest, h⟩ := Option.bind_eq_some_iff.mp h
    cases h
    intro row' hrow'
    rcases List.mem_cons.mp hrow' with rfl | hmem
    · obtain ⟨amount, -, hrow⟩ := Option.bind_eq_some_iff.mp hrow
      obtain ⟨lockedFxRate, hrate, hrow⟩ := Option.bind_eq_some_iff.mp hrow
      cases hrow
      exact ⟨le_refl _, e, List.mem_cons_self, hrate⟩
    · obtain ⟨hle, e', he', hrate⟩ := ih hrest row' hmem
      exact ⟨Nat.le_of_succ_le hle, e', List.mem_cons_of_mem e he', hrate⟩

/-- The CHECK constraints of `ledger_entries` hold where the amounts are positive. -/
theorem Resolved.entries_check_iff
    (h : Resolved config db (.post command failBeforeCommit) posting commandHash)
    (hstored : storePosting posting commandHash id = some tx) (htx : tx.check = true)
    (hrate : tx.lockedFxRate.map Numeric.value = posting.lockedFxRate) :
    tx.entries.all LedgerEntry.check = true ↔ ∀ e ∈ posting.entries, 0 < e.amount := by
  have hok := storePosting_ok hstored
  obtain ⟨-, -, hentries⟩ := h.amounts_of_stores hok
  obtain ⟨hcolumn, -, hrows⟩ := storePosting_columns hstored
  have hpositive := ((h.check_iff hstored hrate).mp htx).2.2
  -- The rest of a row's CHECK follows from the posting's own.
  have hcheck : ∀ row ∈ tx.entries, row.check = true ↔ 0 < row.amount.value := by
    intro row hrow
    obtain ⟨hsequence, e, he, hstore⟩ := storeEntries_rows hrows row hrow
    obtain ⟨e', he', hstores, -⟩ := exists_of_forall₂ hentries row hrow
    rw [(h.quoted e he).2, hcolumn] at hstore
    have hquote : row.fxQuoteId = posting.fxQuoteId := hstores.fxQuoteId.trans (h.quoted e' he').1
    unfold LedgerEntry.check
    rw [hquote, ← Option.some.inj hstore]
    have hall := (all_positive_iff hrate).mpr hpositive
    rcases h.shaped.2 with ⟨-, -, hsome, -⟩ | ⟨-, -, hnone, hratenone⟩
    · simp [hsome, hall, Nat.lt_of_succ_le hsequence]
    · have hnoRate : tx.lockedFxRate = none := by
        rw [hratenone] at hrate
        exact Option.map_eq_none_iff.mp hrate
      simp [hnone, hnoRate, Nat.lt_of_succ_le hsequence]
  rw [List.all_eq_true]
  constructor
  · intro hall e he
    obtain ⟨row, hrow, -, hamount⟩ := exists_of_forall₂ hentries.flip e he
    rw [← hamount]
    exact (hcheck row hrow).mp (hall row hrow)
  · intro hall row hrow
    obtain ⟨e, he, -, hamount⟩ := exists_of_forall₂ hentries row hrow
    rw [hcheck row hrow, hamount]
    exact hall e he

theorem transactionsIndexed_iff (hnone : tx.reversesTransactionId = none) :
    transactionsIndexed (db.transactions.rows ++ [tx]) = true ↔
      ¬ ∃ row ∈ db.transactions.rows, row.id = tx.id ∨ row.externalReference = tx.externalReference := by
  have hindexes := db.transactions.indexed
  simp only [transactionsSchema, transactionsIndexed, Bool.and_eq_true] at hindexes ⊢
  obtain ⟨⟨hids, hreferences⟩, hreversals⟩ := hindexes
  constructor
  · rintro ⟨⟨hid, hreference⟩, -⟩ ⟨row, hrow, heq | heq⟩
    · exact fresh_of_uniqueBy_append hid row hrow heq
    · exact fresh_of_uniqueBy_append hreference row hrow heq
  · intro hnew
    refine ⟨⟨uniqueBy_append_new hids fun row hrow heq => hnew ⟨row, hrow, .inl heq⟩,
      uniqueBy_append_new hreferences fun row hrow heq => hnew ⟨row, hrow, .inr heq⟩⟩,
      uniqueWhere_append_new hreversals fun row hrow k hk => ?_⟩
    rw [hnone] at hk
    cases hk

/-! ### The transaction -/

theorem commitPosting_error_cases {failure : PostingFailure}
    (h : commitPosting db posting commandHash id = .error failure) :
    lockBalances db posting = .error failure ∨
      (∃ locked, lockBalances db posting = .ok locked ∧ checkFunds posting locked = .error failure) ∨
      recordPosting db posting commandHash id = .error failure ∨
      settleBalances db posting = .error failure := by
  unfold commitPosting at h
  rcases bind_eq_error h with hlock | ⟨locked, hlock, h⟩
  · exact .inl hlock
  rcases bind_eq_error h with hfunds | ⟨_, -, h⟩
  · exact .inr (.inl ⟨locked, hlock, hfunds⟩)
  rcases bind_eq_error h with hrecord | ⟨_, -, h⟩
  · exact .inr (.inr (.inl hrecord))
  rcases bind_eq_error h with hsettle | ⟨_, -, h⟩
  · exact .inr (.inr (.inr hsettle))
  · cases h

/-- Every account of a posting allows it, and no customer would owe after it. -/
structure Payable (db : Database) (posting : ResolvedPosting) : Prop where
  allowed : Allowed db posting
  funded : Funded db posting

/-- What becomes of the insert of a posting of the API. -/
inductive Records (db : Database) (posting : ResolvedPosting) (id : Uuid) :
    Except PostingFailure (Table transactionsSchema × LedgerTransaction) → Prop
  | undeclared (h : ¬ Declarable posting) : Records db posting id (.error .other)
  | taken (declared : Declarable posting) (h : Taken db posting id) :
      Records db posting id (.error .uniqueViolation)
  | unentered (declared : Declarable posting) (new : ¬ Taken db posting id) (h : ¬ Enterable posting) :
      Records db posting id (.error .other)
  | recorded (declared : Declarable posting) (new : ¬ Taken db posting id) (entered : Enterable posting)
      (result : Table transactionsSchema × LedgerTransaction) : Records db posting id (.ok result)

theorem Resolved.declarable_iff
    (h : Resolved config db (.post command failBeforeCommit) posting commandHash)
    (hstored : storePosting posting commandHash id = some tx)
    (hrate : tx.lockedFxRate.map Numeric.value = posting.lockedFxRate)
    (hlt : ∀ r ∈ posting.lockedFxRate, r < 10 ^ 16) : tx.check = true ↔ Declarable posting := by
  rw [h.check_iff hstored hrate]
  constructor
  · rintro ⟨hsource, htarget, hpositive⟩
    exact ⟨hsource, htarget, fun r hr => ⟨hpositive r hr, hlt r hr⟩⟩
  · exact fun hd => ⟨hd.source, hd.target, fun r hr => (hd.rate r hr).1⟩

theorem Resolved.enterable_iff
    (h : Resolved config db (.post command failBeforeCommit) posting commandHash)
    (hstored : storePosting posting commandHash id = some tx) (htx : tx.check = true)
    (hrate : tx.lockedFxRate.map Numeric.value = posting.lockedFxRate) :
    tx.entries.all LedgerEntry.check = true ∧ verifyBalancedPosting tx.entries = true ↔ Enterable posting := by
  rw [h.entries_check_iff hstored htx hrate, h.verifyBalancedPosting_iff hstored]
  exact ⟨fun ⟨hpositive, hbalanced⟩ => ⟨hpositive, hbalanced⟩, fun he => ⟨he.positive, he.balanced⟩⟩

/-- A row that its own constraints allow is inserted where the entries are allowed too. -/
theorem Resolved.records_of_declared
    (h : Resolved config db (.post command failBeforeCommit) posting commandHash)
    (hstored : storePosting posting commandHash id = some tx) (htx : tx.check = true)
    (hrate : tx.lockedFxRate.map Numeric.value = posting.lockedFxRate) (hdeclared : Declarable posting) :
    Records db posting id ((insertPosting db.transactions tx).map fun transactions => (transactions, tx)) := by
  have hok := storePosting_ok hstored
  have henterable := h.enterable_iff hstored htx hrate
  have hindexed := @transactionsIndexed_iff db tx ((storePosting_columns hstored).2.1.trans h.shaped.1)
  rw [hok.id, hok.externalReference] at hindexed
  unfold insertPosting
  rw [if_neg (by simp [htx])]
  -- PostgreSQL looks at the unique indexes before the entries, and at the trigger last.
  by_cases htaken : Taken db posting id
  · rw [if_pos (by simpa using fun hi => (hindexed.mp hi) htaken)]
    exact .taken hdeclared htaken
  have hnew := hindexed.mpr htaken
  rw [if_neg (by simp [hnew])]
  by_cases hentered : Enterable posting
  · obtain ⟨hrows, hbalanced⟩ := henterable.mpr hentered
    have hchecked : ∀ r ∈ [tx], transactionsSchema.check r = true := by
      intro r hr
      rw [List.mem_singleton.mp hr]
      simp only [transactionsSchema, htx, hrows, hbalanced, Bool.and_self]
    obtain ⟨transactions, hinsert⟩ := Table.insertMany_of_indexed hchecked hnew
    rw [hinsert]
    exact .recorded hdeclared htaken hentered _
  · have hrefused : ¬ ∀ r ∈ [tx], transactionsSchema.check r = true := by
      intro hall
      have hrow := hall tx (List.mem_singleton.mpr rfl)
      simp only [transactionsSchema, Bool.and_eq_true] at hrow
      exact hentered (henterable.mp ⟨hrow.1.2, hrow.2⟩)
    rw [Table.insertMany, dif_neg hrefused]
    exact .unentered hdeclared htaken hentered

theorem Resolved.records (id : Uuid)
    (h : Resolved config db (.post command failBeforeCommit) posting commandHash) :
    Records db posting id (recordPosting db posting commandHash id) := by
  unfold recordPosting
  rcases h.storePosting_cases id with ⟨hlt, tx, hstored, hrate⟩ | ⟨hge, hnone⟩
  · rw [hstored]
    by_cases htx : tx.check = true
    · exact h.records_of_declared hstored htx hrate ((h.declarable_iff hstored hrate hlt).mp htx)
    · dsimp only
      unfold insertPosting
      rw [if_pos (by simpa using htx)]
      exact .undeclared fun hd => htx ((h.declarable_iff hstored hrate hlt).mpr hd)
  · rw [hnone]
    exact .undeclared fun hd => hge fun r hr => (hd.rate r hr).2

/-- What becomes of the transaction of a posting of the API. -/
inductive Commits (db : Database) (posting : ResolvedPosting) (id : Uuid) :
    Except PostingFailure (Database × LedgerTransaction) → Prop
  | forbidden {error : HttpError} (h : ¬ Allowed db posting)
      (mem : error ∈ [accountsNotFound, accountUnavailable]) : Commits db posting id (.error (.http error))
  | unfunded (h : ¬ Funded db posting) : Commits db posting id (.error (.http insufficientFunds))
  | undeclared (payable : Payable db posting) (h : ¬ Declarable posting) :
      Commits db posting id (.error .other)
  | taken (declared : Declarable posting) (h : Taken db posting id) :
      Commits db posting id (.error .uniqueViolation)
  | unentered (payable : Payable db posting) (new : ¬ Taken db posting id) (h : ¬ Enterable posting) :
      Commits db posting id (.error .other)
  | unsettled (payable : Payable db posting) (new : ¬ Taken db posting id) (h : Unstorable db posting) :
      Commits db posting id (.error .other)
  | committed (payable : Payable db posting) (declared : Declarable posting) (new : ¬ Taken db posting id)
      (entered : Enterable posting) (settled : ¬ Unstorable db posting)
      (result : Database × LedgerTransaction) : Commits db posting id (.ok result)

theorem Resolved.commits (hs : Sound db) (id : Uuid)
    (h : Resolved config db (.post command failBeforeCommit) posting commandHash) :
    Commits db posting id (commitPosting db posting commandHash id) := by
  unfold commitPosting
  rcases lockBalances_cases hs posting with ⟨hallowed, locked, hlock, hpairs⟩ | ⟨hnot, error, hmem, hlock⟩
  · rw [hlock]
    rcases checkFunds_cases hlock hpairs with ⟨hfunded, hfunds⟩ | ⟨hnot, hfunds⟩
    · have hpayable : Payable db posting := ⟨hallowed, hfunded⟩
      have hrecords := h.records id
      dsimp only [bind, Except.bind]
      rw [hfunds]
      dsimp only
      -- From here the transaction depends on the insert alone.
      generalize recordPosting db posting commandHash id = recorded at hrecords
      cases hrecords with
      | undeclared hnot => exact .undeclared hpayable hnot
      | taken declared htaken => exact .taken declared htaken
      | unentered declared new hnot => exact .unentered hpayable new hnot
      | recorded declared new entered result =>
        dsimp only
        rcases settleBalances_cases db posting with ⟨hsettled, balances, hsettle⟩ | ⟨hunstorable, hsettle⟩
        · rw [hsettle]
          exact .committed hpayable declared new entered hsettled _
        · rw [hsettle]
          exact .unsettled hpayable new hunstorable
    · dsimp only [bind, Except.bind]
      rw [hfunds]
      exact .unfunded hnot
  · rw [hlock]
    exact .forbidden hnot hmem

end NovaPay.Ledger
