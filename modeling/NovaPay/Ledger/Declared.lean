import NovaPay.Ledger.Totals

/-!
# What a posting declares

A posting names two currencies and an amount in each. Which of the committed journals move that and
nothing else.
-/

namespace NovaPay.Ledger

open DecimalArithmetic DoubleEntry Relational TransitionSystem

variable {config : Config} {db db' : Database} {command : PostingCommand} {tx : LedgerTransaction}
  {currency : Currency} {side : EntryDirection} {amount : ℚ} {rows cleared : List LedgerEntry}

def typeOf (db : Database) (e : LedgerEntry) : Option LedgerAccountType :=
  (db.findAccount e.ledgerAccountId).map LedgerAccount.accountType

/-- The entries in a currency on accounts of a type. -/
def entriesOn (db : Database) (accountType : LedgerAccountType) (currency : Currency)
    (entries : List LedgerEntry) : List LedgerEntry :=
  (entriesIn currency entries).filter fun e => decide (typeOf db e = some accountType)

/-- The customers' entries in a currency are all on one side and come to the amount, and one
clearing entry takes the other side. -/
structure Moves (db : Database) (entries : List LedgerEntry) (currency : Currency)
    (side : EntryDirection) (amount : ℚ) : Prop where
  sided : ∀ e ∈ entriesOn db .customer currency entries, e.direction = side
  total : ((entriesOn db .customer currency entries).map fun e => e.amount.value).sum = amount
  cleared : ∃ e, entriesOn db .fxClearing currency entries = [e] ∧ e.direction = side.opposite ∧
    e.amount.value = amount

/-- The journal moves what the transaction says, and nothing else. -/
structure Declared (db : Database) (tx : LedgerTransaction) : Prop where
  currencies : ∀ e ∈ tx.entries, e.currency = tx.sourceCurrency ∨ e.currency = tx.targetCurrency
  source : tx.postingType = .fxTransfer →
    Moves db tx.entries tx.sourceCurrency .debit tx.sourceAmount.value
  target : tx.postingType = .fxTransfer →
    Moves db tx.entries tx.targetCurrency .credit tx.targetAmount.value

/-- The amounts on one side in a currency, in the order of the entries. -/
def entryAmounts (currency : Currency) (side : EntryDirection) (entries : List PostingEntry) : List ℚ :=
  (entries.filter fun e => decide (e.currency = currency) && decide (e.direction = side)).map
    fun e => e.amount.value

/-- Amounts whose sum in twenty significant digits is their sum. -/
def SumsExactly (amounts : List ℚ) : Prop := sumSig 20 amounts = amounts.sum

/-- A command has no entry in a third currency, and the two totals an FX transfer declares are not
rounded when they are added up. -/
structure DeclaresAll (command : PostingCommand) : Prop where
  currencies : ∀ entry ∈ command.entries,
    entry.currency = command.sourceCurrency ∨ entry.currency = command.targetCurrency
  source : command.postingType = .fxTransfer →
    SumsExactly (entryAmounts command.sourceCurrency .debit command.entries)
  target : command.postingType = .fxTransfer →
    SumsExactly (entryAmounts command.targetCurrency .credit command.entries)

/-! ### What an attempt has been checked for -/

def Pc.Validated : Pc → Prop
  | .attempt attempted _ => validateResolved attempted.posting = .ok ()
  | _ => True

def Next.Validated : Next → Prop
  | .goto pc => pc.Validated
  | .answer _ => True

section Validated

variable {c : Choice}

theorem enterPostResolved_validated {attempted : Attempted} :
    (enterPostResolved attempted).Validated := by
  unfold enterPostResolved
  split
  · next h => exact h
  · trivial

theorem afterLookup_validated {externalReference : Uuid} {commandHash : Digest} {next : Next}
    (h : next.Validated) : (afterLookup db externalReference commandHash next).Validated := by
  unfold afterLookup
  split
  · trivial
  · exact h
  · trivial

theorem afterFailure_validated {attempted : Attempted}
    (h : validateResolved attempted.posting = .ok ()) (number : ℕ) (failure : PostingFailure) :
    (afterFailure attempted number failure).Validated := by
  cases failure with
  | serializationFailure =>
    simp only [afterFailure]
    split
    · exact h
    · trivial
  | _ => trivial

theorem runAttempt_validated {attempted : Attempted} {number : ℕ}
    (h : validateResolved attempted.posting = .ok ()) :
    (runAttempt c db attempted number).2.Validated := by
  unfold runAttempt
  split
  · split
    · split <;> trivial
    · exact afterFailure_validated h number _
  · exact afterFailure_validated h number .serializationFailure
  · split
    · exact afterFailure_validated h number .uniqueViolation
    · exact h

theorem advance_validated {pc : Pc} (h : pc.Validated) : (advance config c db pc).2.Validated := by
  cases pc with
  | provisionFind walletId currency =>
    simp only [advance, runProvisionFind]
    split
    · split <;> trivial
    · trivial
  | provisionCreate walletId currency =>
    simp only [advance, runProvisionCreate]
    split <;> trivial
  | provisionRefind walletId currency =>
    simp only [advance, runProvisionRefind]
    split
    · split <;> trivial
    · trivial
  | postLookup command failBeforeCommit => exact afterLookup_validated trivial
  | postAccounts command failBeforeCommit =>
    simp only [advance, runPostAccounts]
    split
    · trivial
    · split
      · trivial
      · exact enterPostResolved_validated
  | postClearing command failBeforeCommit entries source target =>
    simp only [advance, runPostClearing]
    split
    · trivial
    · split
      · exact enterPostResolved_validated
      · trivial
  | fundAccount command =>
    simp only [advance, runFundAccount]
    split
    · split <;> trivial
    · trivial
  | fundClearing command customerId clearing =>
    simp only [advance, runFundClearing]
    split <;> trivial
  | fundLookup command customerId clearingId =>
    exact afterLookup_validated enterPostResolved_validated
  | reverseRead transactionId command =>
    simp only [advance, runReverseRead]
    split
    · trivial
    · split <;> trivial
  | reverseLookup command original reversed =>
    refine afterLookup_validated ?_
    split
    · trivial
    · exact enterPostResolved_validated
  | attempt attempted number => exact runAttempt_validated h
  | recover externalReference commandHash => exact afterLookup_validated trivial

theorem entry_validated {request : Request} : (request.entry config).Validated := by
  cases request with
  | post command failBeforeCommit =>
    simp only [Request.entry]
    split
    · trivial
    · split <;> trivial
  | fund command =>
    simp only [Request.entry]
    split <;> trivial
  | _ => trivial

variable {ι : Type} [DecidableEq ι] {s : State ι} {i : ι} {request : Request} {pc : Pc}

/-- A call attempts only what `validateResolved` let through. -/
theorem validated_of_reachable (h : (system ι config).Reachable s)
    (hcall : s.calls i = some ⟨request, .running pc⟩) : pc.Validated := by
  have hgoto : ∀ {next : Next} {pc : Pc}, next.Validated → next = .goto pc → pc.Validated := by
    rintro _ pc hv rfl
    exact hv
  exact running_of_reachableBy (fun _ hv => hv) (fun hnext => hgoto entry_validated hnext)
    (fun _ _ _ hv hnext => hgoto (advance_validated hv) hnext) h i request pc hcall

end Validated

/-! ### The two sides of a currency -/

theorem entriesOn_eq_left {accountType other : LedgerAccountType} (hne : other ≠ accountType)
    (hrows : ∀ e ∈ rows, typeOf db e = some accountType)
    (hcleared : ∀ e ∈ cleared, typeOf db e = some other) :
    entriesOn db accountType currency (rows ++ cleared) = entriesIn currency rows := by
  have hleft : ∀ e ∈ entriesIn currency rows, decide (typeOf db e = some accountType) = true :=
    fun e he => decide_eq_true (hrows e (List.mem_filter.mp he).1)
  have hright : ∀ e ∈ entriesIn currency cleared,
      ¬ decide (typeOf db e = some accountType) = true := by
    intro e he
    rw [hcleared e (List.mem_filter.mp he).1]
    simpa using hne
  rw [entriesOn, entriesIn, List.filter_append, List.filter_append]
  rw [← entriesIn, ← entriesIn, List.filter_eq_self.mpr hleft, List.filter_eq_nil_iff.mpr hright,
    List.append_nil]

theorem entriesOn_eq_right {accountType other : LedgerAccountType} (hne : other ≠ accountType)
    (hrows : ∀ e ∈ rows, typeOf db e = some other)
    (hcleared : ∀ e ∈ cleared, typeOf db e = some accountType) :
    entriesOn db accountType currency (rows ++ cleared) = entriesIn currency cleared := by
  have hleft : ∀ e ∈ entriesIn currency rows, ¬ decide (typeOf db e = some accountType) = true := by
    intro e he
    rw [hrows e (List.mem_filter.mp he).1]
    simpa using hne
  have hright : ∀ e ∈ entriesIn currency cleared, decide (typeOf db e = some accountType) = true :=
    fun e he => decide_eq_true (hcleared e (List.mem_filter.mp he).1)
  rw [entriesOn, entriesIn, List.filter_append, List.filter_append]
  rw [← entriesIn, ← entriesIn, List.filter_eq_nil_iff.mpr hleft, List.filter_eq_self.mpr hright,
    List.nil_append]

/-- With one clearing entry against them in a balanced currency, the customers' entries move its
amount exactly when their side alone comes to it. -/
theorem moves_iff {settling : LedgerEntry} (hrows : ∀ e ∈ rows, typeOf db e = some .customer)
    (hcleared : ∀ e ∈ cleared, typeOf db e = some .fxClearing)
    (hpositive : ∀ e ∈ rows, 0 < e.amount.value)
    (hbalanced : journal.total .debit (entriesIn currency (rows ++ cleared)) =
      journal.total .credit (entriesIn currency (rows ++ cleared)))
    (hone : entriesIn currency cleared = [settling]) (hside : settling.direction = side.opposite) :
    Moves db (rows ++ cleared) currency side settling.amount.value ↔
      journal.total side (entriesIn currency rows) = settling.amount.value := by
  have hcustomer : entriesOn db .customer currency (rows ++ cleared) = entriesIn currency rows :=
    entriesOn_eq_left (by decide) hrows hcleared
  have hclearing : entriesOn db .fxClearing currency (rows ++ cleared) = [settling] :=
    (entriesOn_eq_right (by decide) hrows hcleared).trans hone
  have hsplit : entriesIn currency (rows ++ cleared) = entriesIn currency rows ++ [settling] := by
    rw [← hone]
    exact List.filter_append ..
  rw [hsplit] at hbalanced
  have hiff := journal.one_sided_iff (fun e he => hpositive e (List.mem_filter.mp he).1) hside hbalanced
  constructor
  · intro h
    have hsided := h.sided
    rw [hcustomer] at hsided
    exact hiff.mp hsided
  · intro h
    have hsided := hiff.mpr h
    refine ⟨?_, ?_, settling, hclearing, hside, rfl⟩
    · rw [hcustomer]
      exact hsided
    · rw [hcustomer]
      exact (journal.total_of_one_sided hsided).symm.trans h

/-! ### The rows of a command -/

theorem typeOf_eq {e : LedgerEntry} {a : LedgerAccount} (ha : a ∈ db.accounts.rows)
    (hid : a.id = e.ledgerAccountId) : typeOf db e = some a.accountType := by
  rw [typeOf, Database.findAccount_eq_some_iff.mpr ⟨ha, hid⟩]
  rfl

/-- A wallet's account is a customer's. -/
theorem typeOf_of_resolves {entry : PostingEntry} {e : ResolvedEntry} {row : LedgerEntry}
    (h : Resolves db command entry e) (hs : Stores e row) : typeOf db row = some .customer := by
  obtain ⟨a, ha, hwallet, hid⟩ := h.account
  have hcheck := db.accounts.checked a ha
  simp only [accountsSchema, LedgerAccount.check, hwallet, Option.isSome_some, beq_true,
    decide_eq_true_eq] at hcheck
  rw [typeOf_eq ha (hid.trans hs.ledgerAccountId.symm), hcheck]

theorem typeOf_of_isClearing {e : ResolvedEntry} {row : LedgerEntry}
    (h : IsClearing db e.ledgerAccountId) (hs : Stores e row) : typeOf db row = some .fxClearing := by
  obtain ⟨a, ha, hid, htype⟩ := h
  rw [typeOf_eq ha (hid.trans hs.ledgerAccountId.symm), htype]

theorem sideAmounts_of_resolves {posted : List PostingEntry} {entries : List ResolvedEntry}
    (h : List.Forall₂ (Resolves db command) posted entries) :
    sideAmounts currency side entries = entryAmounts currency side posted := by
  induction h with
  | nil => rfl
  | cons hone _ ih =>
    simp only [sideAmounts, entryAmounts, List.filter_cons, hone.currency, hone.direction] at ih ⊢
    split
    · rw [List.map_cons, List.map_cons, ih, hone.amount]
    · exact ih

theorem sideAmounts_append {entries more : List ResolvedEntry} :
    sideAmounts currency side (entries ++ more) =
      sideAmounts currency side entries ++ sideAmounts currency side more := by
  simp [sideAmounts]

/-- What the customers' entries of an accepted command move in a currency. -/
theorem moves_iff_sumsExactly {entries clearing : List ResolvedEntry} {settling : LedgerEntry}
    (resolves : List.Forall₂ (Resolves db command) command.entries entries)
    (hrows : List.Forall₂ Stores entries rows)
    (hheld : ∀ e ∈ entries, ∃ m : Money, m.value = e.amount)
    (hcleared : ∀ e ∈ cleared, typeOf db e = some .fxClearing)
    (hpositive : ∀ e ∈ rows, 0 < e.amount.value)
    (hbalanced : journal.total .debit (entriesIn currency (rows ++ cleared)) =
      journal.total .credit (entriesIn currency (rows ++ cleared)))
    (hone : entriesIn currency cleared = [settling]) (hside : settling.direction = side.opposite)
    (hnone : sideAmounts currency side clearing = [])
    (htotal : resolvedTotal currency side (entries ++ clearing) = settling.amount.value) :
    Moves db (rows ++ cleared) currency side settling.amount.value ↔
      SumsExactly (entryAmounts currency side command.entries) := by
  have hcustomers : ∀ row ∈ rows, typeOf db row = some .customer := by
    intro row hrow
    obtain ⟨e, he, hs⟩ := exists_of_forall₂ hrows row hrow
    obtain ⟨entry, -, hr⟩ := exists_of_forall₂ resolves e he
    exact typeOf_of_resolves hr hs
  have hsum : journal.total side (entriesIn currency rows) =
      (entryAmounts currency side command.entries).sum := by
    rw [total_of_stores hrows hheld, exactTotal, sideAmounts_of_resolves resolves]
  have hrounded : sumSig 20 (entryAmounts currency side command.entries) = settling.amount.value := by
    rw [← htotal, resolvedTotal_eq, sideAmounts_append, hnone, List.append_nil,
      sideAmounts_of_resolves resolves]
  rw [moves_iff hcustomers hcleared hpositive hbalanced hone hside, hsum, SumsExactly, hrounded]
  exact eq_comm

/-- A row holds the amount of its entry. -/
def StoresAmount (e : ResolvedEntry) (row : LedgerEntry) : Prop :=
  Stores e row ∧ row.amount.value = e.amount

/-- The clearing legs of an FX transfer are rows of their own currencies. -/
theorem clearing_rows {sourceId targetId : Uuid} (hne : command.sourceCurrency ≠ command.targetCurrency)
    (hsource : IsClearing db sourceId) (htarget : IsClearing db targetId)
    (h : List.Forall₂ StoresAmount (clearingEntries command sourceId targetId) cleared) :
    (∀ e ∈ cleared, typeOf db e = some .fxClearing) ∧
    (∃ e, entriesIn command.sourceCurrency cleared = [e] ∧ e.direction = .credit ∧
      e.amount.value = command.sourceAmount.value) ∧
    ∃ e, entriesIn command.targetCurrency cleared = [e] ∧ e.direction = .debit ∧
      e.amount.value = command.targetAmount.value := by
  obtain ⟨source, rest, hs, hrest, rfl⟩ := List.forall₂_cons_left_iff.mp h
  obtain ⟨target, rest, ht, hnil, rfl⟩ := List.forall₂_cons_left_iff.mp hrest
  obtain rfl := List.forall₂_nil_left_iff.mp hnil
  have hsc : source.currency = command.sourceCurrency := hs.1.currency
  have htc : target.currency = command.targetCurrency := ht.1.currency
  refine ⟨?_, ⟨source, ?_, hs.1.direction, hs.2⟩, target, ?_, ht.1.direction, ht.2⟩
  · intro e he
    rcases List.mem_cons.mp he with rfl | he
    · exact typeOf_of_isClearing hsource hs.1
    · obtain rfl := List.mem_singleton.mp he
      exact typeOf_of_isClearing htarget ht.1
  · simp [entriesIn, hsc, htc, hne.symm]
  · simp [entriesIn, hsc, htc, hne]

theorem sideAmounts_clearingEntries {sourceId targetId : Uuid}
    (hne : command.sourceCurrency ≠ command.targetCurrency) :
    sideAmounts command.sourceCurrency .debit (clearingEntries command sourceId targetId) = [] ∧
      sideAmounts command.targetCurrency .credit (clearingEntries command sourceId targetId) = [] := by
  simp [sideAmounts, clearingEntries, hne, hne.symm]

theorem currencies_ne_of_shape (shape : validateFxShape command = .ok ())
    (hfx : command.postingType = .fxTransfer) : command.sourceCurrency ≠ command.targetCurrency := by
  intro heq
  simp [validateFxShape, hfx, heq] at shape

theorem currencies_iff {entries clearing : List ResolvedEntry} {rows : List LedgerEntry}
    (resolves : List.Forall₂ (Resolves db command) command.entries entries)
    (clears : Clears db command clearing) (hstores : List.Forall₂ Stores (entries ++ clearing) rows) :
    (∀ e ∈ rows, e.currency = command.sourceCurrency ∨ e.currency = command.targetCurrency) ↔
      ∀ entry ∈ command.entries,
        entry.currency = command.sourceCurrency ∨ entry.currency = command.targetCurrency := by
  constructor
  · intro h entry hentry
    obtain ⟨e, he, hr⟩ := exists_of_forall₂ resolves.flip entry hentry
    obtain ⟨row, hrow, hs⟩ := exists_of_forall₂ hstores.flip e (List.mem_append_left _ he)
    rw [← hr.currency, ← hs.currency]
    exact h row hrow
  · intro h row hrow
    obtain ⟨e, he, hs⟩ := exists_of_forall₂ hstores row hrow
    rw [hs.currency]
    rcases List.mem_append.mp he with he | he
    · obtain ⟨entry, hentry, hr⟩ := exists_of_forall₂ resolves e he
      rw [hr.currency]
      exact h entry hentry
    · rcases clears with ⟨-, rfl⟩ | ⟨-, sourceId, targetId, -, -, rfl⟩
      · cases he
      · simp only [clearingEntries, List.mem_cons, List.not_mem_nil, or_false] at he
        rcases he with rfl | rfl
        · exact .inl rfl
        · exact .inr rfl

/-- A committed posting is declared exactly when its command is. -/
theorem Resolved.declared_iff {failBeforeCommit : Bool} {posting : ResolvedPosting}
    {commandHash : Digest} {id : Uuid}
    (h : Resolved config db (.post command failBeforeCommit) posting commandHash)
    (hvalid : validateResolved posting = .ok ())
    (hstores : StoresPosting posting commandHash id tx) (htx : tx ∈ db.transactions.rows) :
    Declared db tx ↔ DeclaresAll command := by
  obtain ⟨hsource, htarget, hamounts⟩ := h.amounts_of_stores hstores
  obtain ⟨-, hpositive, hbalanced⟩ := balanced_of_committed htx
  have hagree := h.accepted_iff.mp hvalid
  have hheld := h.held
  cases h with
  | @post _ _ entries clearing valid shape resolves clears =>
    have htype : tx.postingType = command.postingType := hstores.postingType
    have hsc : tx.sourceCurrency = command.sourceCurrency := hstores.sourceCurrency
    have htc : tx.targetCurrency = command.targetCurrency := hstores.targetCurrency
    have hsa : tx.sourceAmount.value = command.sourceAmount.value := hsource
    have hta : tx.targetAmount.value = command.targetAmount.value := htarget
    have hcurrencies := currencies_iff resolves clears hstores.entries
    have hmoves : command.postingType = .fxTransfer →
        (Moves db tx.entries command.sourceCurrency .debit command.sourceAmount.value ↔
          SumsExactly (entryAmounts command.sourceCurrency .debit command.entries)) ∧
        (Moves db tx.entries command.targetCurrency .credit command.targetAmount.value ↔
          SumsExactly (entryAmounts command.targetCurrency .credit command.entries)) := by
      intro hfx
      have hne := currencies_ne_of_shape shape hfx
      obtain ⟨sourceId, targetId, hsid, htid, rfl⟩ := (clears.resolve_left fun h => h.1 hfx).2
      -- the rows are those of the customers, in the order of the command, and the two legs
      have hall : List.Forall₂ StoresAmount
          (entries ++ clearingEntries command sourceId targetId) tx.entries := hamounts
      have hrows : List.Forall₂ StoresAmount entries (tx.entries.take entries.length) := by
        simpa using List.forall₂_take entries.length hall
      have hcleared : List.Forall₂ StoresAmount (clearingEntries command sourceId targetId)
          (tx.entries.drop entries.length) := by
        simpa using List.forall₂_drop entries.length hall
      have hsplit := List.take_append_drop entries.length tx.entries
      generalize tx.entries.take entries.length = rows at hrows hsplit
      generalize tx.entries.drop entries.length = cleared at hcleared hsplit
      rw [← hsplit] at hpositive hbalanced ⊢
      have hstored := hrows.imp fun _ _ h => h.1
      have hrowheld : ∀ e ∈ entries, ∃ m : Money, m.value = e.amount :=
        fun e he => hheld e (List.mem_append_left _ he)
      have hrowpositive : ∀ e ∈ rows, 0 < e.amount.value :=
        fun e he => hpositive e (List.mem_append_left _ he)
      obtain ⟨hlegs, ⟨s, hos, hsd, hsv⟩, t, hot, htd, htv⟩ := clearing_rows hne hsid htid hcleared
      obtain ⟨hsnone, htnone⟩ := @sideAmounts_clearingEntries command sourceId targetId hne
      constructor
      · rw [← hsv]
        exact moves_iff_sumsExactly resolves hstored hrowheld hlegs hrowpositive (hbalanced _) hos hsd
          hsnone (hagree.source.trans hsv.symm)
      · rw [← htv]
        exact moves_iff_sumsExactly resolves hstored hrowheld hlegs hrowpositive (hbalanced _) hot htd
          htnone (hagree.target.trans htv.symm)
    constructor
    · rintro ⟨hc, hs, ht⟩
      rw [hsc, htc] at hc
      rw [htype, hsc, hsa] at hs
      rw [htype, htc, hta] at ht
      exact ⟨hcurrencies.mp hc, fun hfx => (hmoves hfx).1.mp (hs hfx),
        fun hfx => (hmoves hfx).2.mp (ht hfx)⟩
    · rintro ⟨hc, hs, ht⟩
      refine ⟨?_, ?_, ?_⟩
      · rw [hsc, htc]
        exact hcurrencies.mpr hc
      · rw [htype, hsc, hsa]
        exact fun hfx => (hmoves hfx).1.mpr (hs hfx)
      · rw [htype, htc, hta]
        exact fun hfx => (hmoves hfx).2.mpr (ht hfx)

section Runs

variable {ι : Type} [DecidableEq ι] {s s' s'' : State ι} {i : ι} {choice : Choice}
  {failBeforeCommit : Bool} {pc : Pc}

/-- The journal a posting commits is, then and in every later state, what its metadata declare
exactly when the command has no entry in a third currency and, for an FX transfer, its two totals
are not rounded. -/
theorem journal_declared_iff (h : (system ι config).Reachable s)
    (hcall : s.calls i = some ⟨.post command failBeforeCommit, .running pc⟩)
    (hstep : step config s (.run i choice) = some s') (htx : tx ∈ s'.db.transactions.rows)
    (hnew : tx ∉ s.db.transactions.rows) (hlater : (system ι config).Steps s' s'') :
    Declared s''.db tx ↔ DeclaresAll command := by
  have hfirst : (system ι config).Steps s s' :=
    System.Steps.single (M := system ι config) (a := .run i choice) hstep
  have hgrows : Grows s.db s''.db := grows_of_steps h (hfirst.trans hlater)
  have hgrows' : Grows s'.db s''.db := grows_of_steps (h.steps hfirst) hlater
  have hvalid := validated_of_reachable h hcall
  have hok := (invariant_of_reachable h).running i _ pc hcall
  simp only [step, hcall] at hstep
  obtain rfl := Option.some.inj hstep
  rcases advance_transactions config s.db choice pc with
    hsame | ⟨attempted, number, tx', rfl, -, -, hcommit⟩
  · have hold : tx ∈ s.db.transactions.rows := hsame ▸ htx
    exact absurd hold hnew
  · have hcommitted := commitPosting_ok hcommit
    have hrows : tx ∈ s.db.transactions.rows ++ [tx'] := hcommitted.transactions ▸ htx
    obtain rfl := List.mem_singleton.mp ((List.mem_append.mp hrows).resolve_left hnew)
    have hresolved : Resolved config s.db (.post command failBeforeCommit) attempted.posting
        attempted.commandHash := hok
    exact (hresolved.mono hgrows).declared_iff hvalid hcommitted.stored (hgrows'.transactions.subset htx)

end Runs

/-! ### Sample runs -/

def euros : Currency := (4, 20, 17)

def provisionIn (currency : Currency) (i : ℕ) (walletId accountId : Uuid) : List (Action ℕ) := [
  .start i (.provision ⟨walletId, 0⟩ currency),
  .run i {},
  .run i { id := accountId }]

/-- A funding whose clearing account `clearingId` is new. -/
def fundIn (currency : Currency) (i : ℕ) (walletId clearingId id : Uuid) : List (Action ℕ) := [
  .start i (.fund ⟨⟨id, 0⟩, ⟨0, 0⟩, ⟨walletId, 0⟩, tenDollars, currency⟩),
  .run i {}, .run i {}, .run i { id := clearingId }, .run i {}, .run i { id := id }]

/-- Wallets 10 and 12 hold dollars, wallets 11 and 13 euros; 10 and 11 are funded. -/
def fundedWallets : List (Action ℕ) :=
  provisionIn dollars 0 10 1 ++ provisionIn euros 1 11 2 ++ provisionIn dollars 2 12 3 ++
    provisionIn euros 3 13 4 ++ fundIn dollars 4 10 99 5 ++ fundIn euros 5 11 98 6

def tenText : Text := ⟨1000000000, 8⟩

def nineText : Text := ⟨900000000, 8⟩

/-- Ten dollars of wallet 10 for nine euros to wallet 13. -/
def exchangeCommand : PostingCommand where
  externalReference := ⟨7, 0⟩
  requestId := ⟨0, 0⟩
  postingType := .fxTransfer
  sourceCurrency := dollars
  targetCurrency := euros
  sourceAmount := tenText
  targetAmount := nineText
  fxQuoteId := some ⟨70, 0⟩
  lockedFxRate := some ⟨9, 1⟩
  entries := [⟨⟨10, 0⟩, .debit, tenText, dollars⟩, ⟨⟨13, 0⟩, .credit, nineText, euros⟩]

/-- Ten dollars from wallet 10 to wallet 12, and nine euros from wallet 11 to wallet 13. -/
def thirdCurrencyCommand : PostingCommand where
  externalReference := ⟨7, 0⟩
  requestId := ⟨0, 0⟩
  postingType := .transfer
  sourceCurrency := dollars
  targetCurrency := dollars
  sourceAmount := tenText
  targetAmount := tenText
  fxQuoteId := none
  lockedFxRate := none
  entries := [
    ⟨⟨10, 0⟩, .debit, tenText, dollars⟩, ⟨⟨12, 0⟩, .credit, tenText, dollars⟩,
    ⟨⟨11, 0⟩, .debit, nineText, euros⟩, ⟨⟨13, 0⟩, .credit, nineText, euros⟩]

/-- A posting up to the attempt to commit it. -/
def postingRun (command : PostingCommand) : List (Action ℕ) :=
  [.start 6 (.post command false), .run 6 {}, .run 6 {}] ++
    if command.postingType = .fxTransfer then [.run 6 {}, .run 6 { source := false }] else []

def customerEntry (ledgerAccountId : Uuid) (entry : PostingEntry) (command : PostingCommand) :
    ResolvedEntry :=
  ⟨ledgerAccountId, entry.direction, entry.amount.value, entry.currency,
    command.fxQuoteId.map UuidText.value, command.lockedFxRate.map Text.value⟩

/-- The call at its attempt to commit a command whose entries are on these accounts. -/
def attemptingCall (command : PostingCommand) (accountIds : List Uuid) (clearing : List ResolvedEntry) :
    Call :=
  ⟨.post command false, .running (.attempt
    ⟨resolvePosting command
      (List.zipWith (fun id entry => customerEntry id entry command) accountIds command.entries ++ clearing),
      postHash fundingConfig command, false⟩ 1)⟩

/-- The currencies of a transaction and of its entries. -/
structure TransactionCurrencies where
  id : Uuid
  source : Currency
  target : Currency
  entries : List Currency
deriving DecidableEq

/-- The currencies of the transactions that attempt 8 leaves. -/
def currenciesAfter (s : State ℕ) : Option (List TransactionCurrencies) :=
  (step fundingConfig s (.run 6 { id := 8 })).map fun s' => s'.db.transactions.rows.map fun tx =>
    ⟨tx.id, tx.sourceCurrency, tx.targetCurrency, tx.entries.map LedgerEntry.currency⟩

/-- The transaction that attempt 8 commits. -/
theorem committed_of_currenciesAfter {s : State ℕ} {rows : List TransactionCurrencies}
    {source target : Currency} {currencies : List Currency}
    (hbefore : s.db.transactions.rows.map LedgerTransaction.id = [5, 6])
    (hafter : currenciesAfter s = some rows) (hrow : ⟨8, source, target, currencies⟩ ∈ rows) :
    ∃ s' tx, step fundingConfig s (.run 6 { id := 8 }) = some s' ∧ tx ∈ s'.db.transactions.rows ∧
      tx ∉ s.db.transactions.rows ∧ tx.sourceCurrency = source ∧ tx.targetCurrency = target ∧
      tx.entries.map LedgerEntry.currency = currencies := by
  obtain ⟨s', hs', rfl⟩ := Option.map_eq_some_iff.mp hafter
  obtain ⟨tx, htx, hkey⟩ := List.mem_map.mp hrow
  obtain ⟨hid, hsource, htarget, hcurrencies⟩ := TransactionCurrencies.mk.inj hkey
  refine ⟨s', tx, hs', htx, fun hold => ?_, hsource, htarget, hcurrencies⟩
  have hmem : tx.id ∈ s.db.transactions.rows.map LedgerTransaction.id := List.mem_map_of_mem hold
  rw [hbefore, hid] at hmem
  simp at hmem

/-- The theorem at an FX transfer, which is what it declares. -/
theorem journal_declared_iff_exchange : ∃ s s' tx,
    (system ℕ fundingConfig).run .initial (fundedWallets ++ postingRun exchangeCommand) = some s ∧
      step fundingConfig s (.run 6 { id := 8 }) = some s' ∧ tx ∈ s'.db.transactions.rows ∧
      tx ∉ s.db.transactions.rows ∧ Declared s'.db tx := by
  have hrun : ((system ℕ fundingConfig).run .initial
      (fundedWallets ++ postingRun exchangeCommand)).map (fun s =>
        (s.calls 6, s.db.transactions.rows.map LedgerTransaction.id, currenciesAfter s)) =
      some (some (attemptingCall exchangeCommand [1, 4] (clearingEntries exchangeCommand 99 98)), [5, 6],
        some [⟨5, dollars, dollars, [dollars, dollars]⟩, ⟨6, euros, euros, [euros, euros]⟩,
          ⟨8, dollars, euros, [dollars, euros, dollars, euros]⟩]) := by decide +kernel
  obtain ⟨s, hs, hstate⟩ := Option.map_eq_some_iff.mp hrun
  obtain ⟨hcall, hstate⟩ := Prod.mk.inj hstate
  obtain ⟨hbefore, hafter⟩ := Prod.mk.inj hstate
  obtain ⟨s', tx, hs', htx, hnew, -⟩ := committed_of_currenciesAfter hbefore hafter
    (List.mem_cons_of_mem _ (List.mem_cons_of_mem _ List.mem_cons_self))
  have hall : DeclaresAll exchangeCommand := by
    refine ⟨by decide, fun _ => ?_, fun _ => ?_⟩
    · change sumSig 20 _ = _
      decide +kernel
    · change sumSig 20 _ = _
      decide +kernel
  exact ⟨s, s', tx, hs, hs', htx, hnew,
    (journal_declared_iff (System.reachable_of_run hs) hcall hs' htx hnew .refl).mpr hall⟩

/-- A transfer between two dollar wallets is committed together with one between two euro wallets,
which its metadata do not mention. -/
theorem third_currency_undeclared : ¬ ∀ (config : Config) (s s' : State ℕ) (i : ℕ) (choice : Choice)
    (command : PostingCommand) (failBeforeCommit : Bool) (pc : Pc) (tx : LedgerTransaction),
    (system ℕ config).Reachable s → s.calls i = some ⟨.post command failBeforeCommit, .running pc⟩ →
      step config s (.run i choice) = some s' → tx ∈ s'.db.transactions.rows →
      tx ∉ s.db.transactions.rows → Declared s'.db tx := by
  intro hclaim
  have hrun : ((system ℕ fundingConfig).run .initial
      (fundedWallets ++ postingRun thirdCurrencyCommand)).map (fun s =>
        (s.calls 6, s.db.transactions.rows.map LedgerTransaction.id, currenciesAfter s)) =
      some (some (attemptingCall thirdCurrencyCommand [1, 3, 2, 4] []), [5, 6],
        some [⟨5, dollars, dollars, [dollars, dollars]⟩, ⟨6, euros, euros, [euros, euros]⟩,
          ⟨8, dollars, dollars, [dollars, dollars, euros, euros]⟩]) := by decide +kernel
  obtain ⟨s, hs, hstate⟩ := Option.map_eq_some_iff.mp hrun
  obtain ⟨hcall, hstate⟩ := Prod.mk.inj hstate
  obtain ⟨hbefore, hafter⟩ := Prod.mk.inj hstate
  obtain ⟨s', tx, hs', htx, hnew, hsource, htarget, hcurrencies⟩ :=
    committed_of_currenciesAfter hbefore hafter
      (List.mem_cons_of_mem _ (List.mem_cons_of_mem _ List.mem_cons_self))
  have hd := hclaim fundingConfig s s' 6 _ _ _ _ tx (System.reachable_of_run hs) hcall hs' htx hnew
  have heuros : euros ∈ tx.entries.map LedgerEntry.currency := by
    rw [hcurrencies]
    simp
  obtain ⟨e, he, hcurrency⟩ := List.mem_map.mp heuros
  have hwithin := hd.currencies e he
  rw [hcurrency, hsource, htarget] at hwithin
  exact absurd hwithin (by decide)

end NovaPay.Ledger
