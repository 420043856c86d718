import NovaPay.Ledger.Declared

/-!
# Reversals

A reversal takes the entries of a committed posting back one by one. What `validateResolved` and the
tables accepted of the posting they accept of its reversal.
-/

namespace NovaPay.Ledger

open DecimalArithmetic DoubleEntry Relational TransitionSystem

variable {config : Config} {db db' : Database} {request : Request} {posting : ResolvedPosting}
  {commandHash : Digest} {id : Uuid} {original tx : LedgerTransaction} {command : ReversePosting}

/-- The entry on the other side. -/
def LedgerEntry.flipped (e : LedgerEntry) : LedgerEntry := { e with direction := e.direction.opposite }

theorem undoes_flipped : journal.Undoes LedgerEntry.flipped :=
  ⟨fun _ => rfl, fun _ => rfl, fun _ => rfl⟩

/-- The resolved entry of a reversal. -/
def LedgerEntry.undoing (e : LedgerEntry) : ResolvedEntry where
  ledgerAccountId := e.ledgerAccountId
  direction := e.direction.opposite
  amount := e.amount.value
  currency := e.currency
  fxQuoteId := e.fxQuoteId
  lockedFxRate := e.lockedFxRate.map Numeric.value

theorem entries_resolveReversal :
    (resolveReversal command original).entries = original.entries.map LedgerEntry.undoing := rfl

/-- The transaction that takes a posting back. -/
def LedgerTransaction.reversedBy (original : LedgerTransaction) (command : ReversePosting)
    (commandHash : Digest) (id : Uuid) : LedgerTransaction :=
  { original with
    id := id
    externalReference := command.externalReference.value
    commandHash := commandHash
    postingType := .reversal
    reversesTransactionId := some original.id
    requestId := command.requestId.value
    entries := original.entries.map LedgerEntry.flipped }

/-! ### What a reversal is stored as -/

/-- The sequence numbers of entries count on from the first. -/
def Numbered (first : ℕ) (rows : List LedgerEntry) : Prop :=
  rows.map LedgerEntry.sequence = List.range' first rows.length

theorem numbered_cons {first : ℕ} {row : LedgerEntry} {rows : List LedgerEntry} :
    Numbered first (row :: rows) ↔ row.sequence = first ∧ Numbered (first + 1) rows := by
  simp [Numbered, List.range'_succ]

theorem numbered_of_storeEntries {entries : List ResolvedEntry} {first : ℕ} {rows : List LedgerEntry}
    (h : storeEntries first entries = some rows) : Numbered first rows := by
  induction entries generalizing first rows with
  | nil =>
    cases h
    rfl
  | cons e entries ih =>
    obtain ⟨row, hrow, h⟩ := Option.bind_eq_some_iff.mp h
    obtain ⟨rest, hrest, h⟩ := Option.bind_eq_some_iff.mp h
    cases h
    refine numbered_cons.mpr ⟨?_, ih hrest⟩
    obtain ⟨amount, -, hrow⟩ := Option.bind_eq_some_iff.mp hrow
    obtain ⟨lockedFxRate, -, hrow⟩ := Option.bind_eq_some_iff.mp hrow
    cases hrow
    rfl

theorem storeRate_value (r : Option Rate) : storeRate (r.map Numeric.value) = some r := by
  cases r with
  | none => rfl
  | some r => simp [storeRate]

theorem storeEntry_undoing (row : LedgerEntry) :
    storeEntry row.undoing row.sequence = some row.flipped := by
  simp only [storeEntry, LedgerEntry.undoing, Numeric.ofRat?_value, storeRate_value, Option.bind_eq_bind,
    Option.bind_some]
  rfl

theorem storeEntries_undoing {first : ℕ} {rows : List LedgerEntry} (h : Numbered first rows) :
    storeEntries first (rows.map LedgerEntry.undoing) = some (rows.map LedgerEntry.flipped) := by
  induction rows generalizing first with
  | nil => rfl
  | cons row rows ih =>
    obtain ⟨rfl, hrest⟩ := numbered_cons.mp h
    simp only [List.map_cons, storeEntries, storeEntry_undoing, ih hrest, Option.bind_eq_bind,
      Option.bind_some]
    rfl

/-- The columns hold every value of a reversal, because they held it before. -/
theorem storePosting_resolveReversal (h : Numbered 1 original.entries) :
    storePosting (resolveReversal command original) commandHash id =
      some (original.reversedBy command commandHash id) := by
  have hentries : storeEntries 1 (resolveReversal command original).entries =
    some (original.entries.map LedgerEntry.flipped) := storeEntries_undoing h
  simp only [storePosting, hentries, Option.bind_eq_bind]
  simp only [resolveReversal, Numeric.ofRat?_value, storeRate_value, Option.bind_some]
  rfl

/-! ### What is committed was accepted -/

/-- A committed transaction stores an accepted posting of a request. -/
structure PostedAs (config : Config) (db : Database) (request : Request) (posting : ResolvedPosting)
    (tx : LedgerTransaction) : Prop where
  resolved : Resolved config db request posting tx.commandHash
  validated : validateResolved posting = .ok ()
  stored : storePosting posting tx.commandHash tx.id = some tx

theorem PostedAs.mono (hg : Grows db db') (h : PostedAs config db request posting tx) :
    PostedAs config db' request posting tx := { h with resolved := h.resolved.mono hg }

/-- What the stored columns of a posting say beyond `StoresPosting`. -/
theorem storePosting_columns (h : storePosting posting commandHash id = some tx) :
    storeRate posting.lockedFxRate = some tx.lockedFxRate ∧
      tx.reversesTransactionId = posting.reversesTransactionId ∧
      storeEntries 1 posting.entries = some tx.entries := by
  unfold storePosting at h
  obtain ⟨sourceAmount, -, h⟩ := Option.bind_eq_some_iff.mp h
  obtain ⟨targetAmount, -, h⟩ := Option.bind_eq_some_iff.mp h
  obtain ⟨lockedFxRate, hrate, h⟩ := Option.bind_eq_some_iff.mp h
  obtain ⟨entries, hentries, h⟩ := Option.bind_eq_some_iff.mp h
  cases h
  exact ⟨hrate, rfl, hentries⟩

theorem PostedAs.numbered (h : PostedAs config db request posting tx) : Numbered 1 tx.entries :=
  numbered_of_storeEntries (storePosting_columns h.stored).2.2

theorem commitPosting_stored (h : commitPosting db posting commandHash id = .ok (db', tx)) :
    storePosting posting commandHash id = some tx := by
  unfold commitPosting at h
  obtain ⟨locked, -, h⟩ := bind_eq_ok h
  obtain ⟨_, -, h⟩ := bind_eq_ok h
  obtain ⟨⟨transactions, tx'⟩, hrecord, h⟩ := bind_eq_ok h
  obtain ⟨balances, -, h⟩ := bind_eq_ok h
  cases h
  unfold recordPosting at hrecord
  split at hrecord
  · cases hrecord
  · next tx' hstored =>
    obtain ⟨transactions', -, hrecord⟩ := bind_eq_ok hrecord
    cases hrecord
    exact hstored

theorem advance_commit {choice : Choice} {attempted : Attempted} {number : ℕ}
    (hfate : choice.fate = .commit) (hfail : attempted.failBeforeCommit = false)
    (h : commitPosting db attempted.posting attempted.commandHash choice.id = .ok (db', tx)) :
    advance config choice db (.attempt attempted number) = (db', .answer (.posting (toResponse tx))) := by
  simp [advance, runAttempt, hfate, h, hfail]

section Runs

variable {ι : Type} [DecidableEq ι] {s : State ι}

/-- Every committed transaction was accepted, and the call that posted it has been answered with it. -/
theorem posted_of_reachable (h : (system ι config).Reachable s) : ∀ tx ∈ s.db.transactions.rows,
    ∃ i request posting, s.calls i = some ⟨request, .answered (.posting (toResponse tx))⟩ ∧
      PostedAs config s.db request posting tx := by
  refine System.Reachable.invariant (P := fun s => ∀ tx ∈ s.db.transactions.rows, ∃ i request posting,
    s.calls i = some ⟨request, .answered (.posting (toResponse tx))⟩ ∧
      PostedAs config s.db request posting tx) (by simp [system, State.initial, Database.empty])
    (fun s a s' hr hp hstep => ?_) h
  have hgrows := step_grows (invariant_of_reachable hr) hstep
  have hkept : ∀ tx ∈ s.db.transactions.rows, ∃ i request posting,
      s'.calls i = some ⟨request, .answered (.posting (toResponse tx))⟩ ∧
        PostedAs config s'.db request posting tx := by
    intro tx htx
    obtain ⟨i, request, posting, hcall, hposted⟩ := hp tx htx
    exact ⟨i, request, posting, ended_of_step hstep (by simp) hcall, hposted.mono hgrows⟩
  rcases step_cases hstep with ⟨_, _, _, -, rfl, -⟩ | ⟨i, choice, request, pc, rfl, hrun, rfl⟩ |
    ⟨_, _, _, -, -, rfl⟩
  · exact hkept
  · rcases advance_transactions config s.db choice pc with
      hsame | ⟨attempted, number, tx, rfl, hfate, hfail, hcommit⟩
    · intro tx htx
      change tx ∈ (advance config choice s.db pc).1.transactions.rows at htx
      rw [hsame] at htx
      exact hkept tx htx
    · have hcommitted := commitPosting_ok hcommit
      intro tx' htx'
      change tx' ∈ (advance config choice s.db (.attempt attempted number)).1.transactions.rows at htx'
      rw [hcommitted.transactions, List.mem_append, List.mem_singleton] at htx'
      rcases htx' with hold | rfl
      · exact hkept tx' hold
      · have hresolved : Resolved config s.db request attempted.posting attempted.commandHash :=
          (invariant_of_reachable hr).running i request _ hrun
        have hvalid : validateResolved attempted.posting = .ok () := validated_of_reachable hr hrun
        have hnext := congrArg Prod.snd (@advance_commit config _ _ _ _ _ number hfate hfail hcommit)
        refine ⟨i, request, attempted.posting, ?_, ?_, hvalid, ?_⟩
        · rw [State.setCall_calls_self, hnext]
          rfl
        · rw [hcommitted.stored.commandHash]
          exact hresolved.mono hgrows
        · rw [hcommitted.stored.commandHash, hcommitted.stored.id]
          exact commitPosting_stored hcommit
  · exact hkept

end Runs

/-- A transaction that reverses another is its opposite. -/
theorem PostedAs.reversedBy (h : PostedAs config db request posting tx)
    (horiginal : original ∈ db.transactions.rows) (hnumbered : Numbered 1 original.entries)
    (hreverses : tx.reversesTransactionId = some original.id) :
    ∃ command, request = .reverse original.id command ∧
      tx = original.reversedBy command (reverseHash config original.id command) tx.id := by
  have hid : posting.reversesTransactionId = some original.id :=
    (storePosting_columns h.stored).2.1.symm.trans hreverses
  obtain ⟨hresolved, -, hstored⟩ := h
  generalize hhash : tx.commandHash = commandHash at hresolved hstored
  cases hresolved with
  | post => cases hid
  | fund => cases hid
  | @reverse command other hmem =>
    obtain rfl : other = original :=
      eq_of_uniqueBy db.transaction_ids hmem horiginal (Option.some.inj hid)
    rw [storePosting_resolveReversal hnumbered] at hstored
    exact ⟨command, rfl, (Option.some.inj hstored).symm⟩

/-! ### What accepts a posting accepts its reversal -/

theorem sideAmounts_undoing {entries : List ResolvedEntry} {rows : List LedgerEntry}
    (h : List.Forall₂ (fun e row => Stores e row ∧ row.amount.value = e.amount) entries rows)
    (currency : Currency) (direction : EntryDirection) :
    sideAmounts currency direction (rows.map LedgerEntry.undoing) =
      sideAmounts currency direction.opposite entries := by
  induction h with
  | nil => rfl
  | @cons e row entries rows hrow _ ih =>
    obtain ⟨hstores, hamount⟩ := hrow
    simp only [sideAmounts] at ih ⊢
    by_cases hc : e.currency = currency <;> by_cases hd : e.direction = direction.opposite <;>
      simp [LedgerEntry.undoing, hstores.currency, hstores.direction, Side.opposite_eq_iff, hamount,
        hc, hd, ih]

theorem resolvedTotal_undoing {entries : List ResolvedEntry} {rows : List LedgerEntry}
    (h : List.Forall₂ (fun e row => Stores e row ∧ row.amount.value = e.amount) entries rows)
    (currency : Currency) (direction : EntryDirection) :
    resolvedTotal currency direction (rows.map LedgerEntry.undoing) =
      resolvedTotal currency direction.opposite entries := by
  rw [resolvedTotal_eq, resolvedTotal_eq, sideAmounts_undoing h]

/-- The totals of a reversal are those of the posting with the sides exchanged, and in each currency
the two were equal. -/
theorem PostedAs.validateResolved_reversal (h : PostedAs config db request posting tx)
    (command : ReversePosting) : validateResolved (resolveReversal command tx) = .ok () := by
  have hstores := storePosting_ok h.stored
  obtain ⟨hsource, htarget, hentries⟩ := h.resolved.amounts_of_stores hstores
  obtain ⟨⟨hspos, htpos, hepos⟩, hrate, hagree⟩ := validateResolved_eq_ok_iff.mp h.validated
  have hmem : ∀ e ∈ posting.entries, ∃ row ∈ tx.entries, row.currency = e.currency := by
    intro e he
    obtain ⟨row, hrow, hstored, -⟩ := exists_of_forall₂ hentries.flip e he
    exact ⟨row, hrow, hstored.currency⟩
  have hmap : ∀ {currency}, (∃ e ∈ posting.entries, e.currency = currency) →
      ∃ e ∈ tx.entries.map LedgerEntry.undoing, e.currency = currency := by
    rintro _ ⟨e, he, rfl⟩
    obtain ⟨row, hrow, hcurrency⟩ := hmem e he
    exact ⟨row.undoing, List.mem_map_of_mem hrow, hcurrency⟩
  have hbalanced : ∀ {currency}, (∃ e ∈ posting.entries, e.currency = currency) →
      resolvedTotal currency .debit posting.entries = resolvedTotal currency .credit posting.entries := by
    rintro _ ⟨e, he, rfl⟩
    exact hagree.balanced e he
  refine validateResolved_eq_ok_iff.mpr ⟨⟨?_, ?_, fun e he => ?_⟩, fun r hr => ?_, ?_⟩
  · exact hspos.trans_eq hsource.symm
  · exact htpos.trans_eq htarget.symm
  · obtain ⟨row, hrow, rfl⟩ := List.mem_map.mp he
    obtain ⟨e, he, -, hamount⟩ := exists_of_forall₂ hentries row hrow
    exact hamount ▸ hepos e he
  · obtain ⟨stored, hstored, rfl⟩ := Option.map_eq_some_iff.mp hr
    cases hp : posting.lockedFxRate with
    | none =>
      have hnone := (storePosting_columns h.stored).1
      rw [hp, hstored] at hnone
      cases hnone
    | some r =>
      obtain ⟨stored', hstored', hofRat⟩ := hstores.lockedFxRate r hp
      obtain rfl := Option.some.inj (hstored.symm.trans hstored')
      exact Numeric.ofRat?_nonneg hofRat (hrate r hp)
  · have htotal := resolvedTotal_undoing hentries
    refine ⟨fun e he => ?_, ?_, ?_, ?_, ?_⟩
    · obtain ⟨row, hrow, rfl⟩ := List.mem_map.mp he
      obtain ⟨e, he, hstored, -⟩ := exists_of_forall₂ hentries row hrow
      rw [entries_resolveReversal, htotal, htotal]
      exact (hbalanced ⟨e, he, hstored.currency.symm⟩).symm
    · obtain ⟨e, he, hcurrency⟩ := hagree.source_mem
      exact hmap ⟨e, he, hcurrency.trans hstores.sourceCurrency.symm⟩
    · rw [entries_resolveReversal, htotal]
      change resolvedTotal tx.sourceCurrency .credit posting.entries = tx.sourceAmount.value
      rw [hstores.sourceCurrency, ← hbalanced hagree.source_mem, hagree.source, hsource]
    · obtain ⟨e, he, hcurrency⟩ := hagree.target_mem
      exact hmap ⟨e, he, hcurrency.trans hstores.targetCurrency.symm⟩
    · rw [entries_resolveReversal, htotal]
      change resolvedTotal tx.targetCurrency .debit posting.entries = tx.targetAmount.value
      rw [hstores.targetCurrency, hbalanced hagree.target_mem, hagree.target, htarget]

theorem entriesIn_flipped (currency : Currency) (rows : List LedgerEntry) :
    entriesIn currency (rows.map LedgerEntry.flipped) =
      (entriesIn currency rows).map LedgerEntry.flipped := by
  rw [entriesIn, List.filter_map]
  rfl

/-- The constraints of the table hold of the reversal of a posting that is none itself. -/
theorem reversedBy_check (hmem : original ∈ db.transactions.rows)
    (htype : original.postingType ≠ .reversal) :
    transactionsSchema.check (original.reversedBy command commandHash id) = true := by
  have hbalanced := (balanced_of_committed hmem).2.2
  have hcheck := db.transactions.checked original hmem
  simp only [transactionsSchema, Bool.and_eq_true] at hcheck ⊢
  obtain ⟨⟨htx, hentries⟩, hverify⟩ := hcheck
  refine ⟨⟨?_, ?_⟩, ?_⟩
  · simp only [LedgerTransaction.check, Bool.and_eq_true] at htx ⊢
    refine ⟨⟨htx.1.1, ?_⟩, by simp [LedgerTransaction.reversedBy]⟩
    have hfx := htx.1.2
    unfold LedgerTransaction.fxCheck at hfx ⊢
    simp only [LedgerTransaction.reversedBy, Bool.or_eq_true]
    split at hfx
    · exact .inr hfx
    · next hreversal => exact absurd hreversal htype
    · exact .inl hfx
  · rw [List.all_eq_true] at hentries ⊢
    intro e he
    obtain ⟨row, hrow, rfl⟩ := List.mem_map.mp he
    exact hentries row hrow
  · simp only [verifyBalancedPosting, Bool.and_eq_true, List.all_eq_true, decide_eq_true_eq] at hverify ⊢
    refine ⟨by simpa [LedgerTransaction.reversedBy] using hverify.1, fun currency _ => ?_⟩
    simp only [LedgerTransaction.reversedBy, entriesIn_flipped, undoes_flipped.total, Side.opposite]
    exact (hbalanced currency).symm

end NovaPay.Ledger
