import NovaPay.Ledger.Idempotency

/-!
# The journal and the balances

Every committed transaction is a balanced journal entry, and the balances are what the entries add
up to, as long as the additions of `Prisma.Decimal` lose no digit.
-/

namespace NovaPay.Ledger

open DecimalArithmetic DoubleEntry Relational TransitionSystem

variable {db db' : Database} {account a : LedgerAccount} {b : WalletBalance}
  {command : ResolvedPosting} {commandHash : Digest} {id : Uuid} {tx : LedgerTransaction}

/-- The accounts of the journal: each entry is in the currency of its account, each account has a
balance, and no customer owes. -/
structure Sound (db : Database) : Prop where
  entries : ∀ e ∈ db.entries, ∃ a, db.findAccount e.ledgerAccountId = some a ∧ a.currency = e.currency
  balance : ∀ a ∈ db.accounts.rows, ∃ b, db.findBalance a.id = some b
  owned : ∀ b ∈ db.balances.rows, ∃ a, db.findAccount b.ledgerAccountId = some a
  funded : ∀ b ∈ db.balances.rows, ∀ a, db.findAccount b.ledgerAccountId = some a →
    a.accountType = .customer → 0 ≤ b.availableBalance.value

theorem sound_empty : Sound .empty :=
  ⟨by simp [Database.entries, Database.empty], by simp [Database.empty], by simp [Database.empty],
    by simp [Database.empty]⟩

theorem Opened.findAccount_of_some (h : Opened db db' account) (ha : db.findAccount id = some a) :
    db'.findAccount id = some a := by
  rw [h.findAccount, if_neg, ha]
  rintro rfl
  rw [h.fresh] at ha
  cases ha

theorem Opened.sound (h : Opened db db' account) (hs : Sound db) : Sound db' := by
  have hnew : db'.findAccount account.id = some account := by rw [h.findAccount, if_pos rfl]
  refine ⟨fun e he => ?_, fun a ha => ?_, fun b hb => ?_, fun b hb a ha hc => ?_⟩
  · obtain ⟨a, ha, hcurrency⟩ := hs.entries e (h.entries ▸ he)
    exact ⟨a, h.findAccount_of_some ha, hcurrency⟩
  · rw [h.accounts, List.mem_append, List.mem_singleton] at ha
    rcases ha with ha | rfl
    · obtain ⟨b, hb⟩ := hs.balance a ha
      obtain ⟨hmem, hid⟩ := Database.findBalance_eq_some_iff.mp hb
      exact ⟨b, Database.findBalance_eq_some_iff.mpr ⟨h.balances ▸ List.mem_append_left _ hmem, hid⟩⟩
    · exact ⟨_, h.findBalance⟩
  · rw [h.balances, List.mem_append, List.mem_singleton] at hb
    rcases hb with hb | rfl
    · obtain ⟨a, ha⟩ := hs.owned b hb
      exact ⟨a, h.findAccount_of_some ha⟩
    · exact ⟨account, hnew⟩
  · rw [h.balances, List.mem_append, List.mem_singleton] at hb
    rcases hb with hb | rfl
    · obtain ⟨a', ha'⟩ := hs.owned b hb
      obtain rfl := Option.some.inj ((h.findAccount_of_some ha').symm.trans ha)
      exact hs.funded b hb a' ha' hc
    · exact Numeric.value_zero.ge

theorem Committed.findAccount (h : Committed db db' command commandHash id tx) (i : Uuid) :
    db'.findAccount i = db.findAccount i := by
  rw [Database.findAccount, h.accounts]
  rfl

theorem Committed.findBalance (h : Committed db db' command commandHash id tx) (i : Uuid) :
    db'.findBalance i = (db.findBalance i).map fun b =>
      if touches command b then settle db command b else b := by
  rw [Database.findBalance, h.balances]
  exact findBy_updateWhere fun _ => rfl

theorem Committed.entries (h : Committed db db' command commandHash id tx) :
    db'.entries = db.entries ++ tx.entries := by
  simp [Database.entries, h.transactions]

theorem touches_iff : touches command b = true ↔
    ∃ e ∈ command.entries, e.ledgerAccountId = b.ledgerAccountId := by
  simp [touches]

/-- A balance after a posting is as it was, or the one computed for its account. -/
theorem Committed.balance_cases (h : Committed db db' command commandHash id tx)
    (hb : b ∈ db'.balances.rows) :
    (b ∈ db.balances.rows ∧ touches command b = false) ∨
      ∃ b₀ ∈ db.balances.rows, touches command b₀ = true ∧
        b.ledgerAccountId = b₀.ledgerAccountId ∧
        ∃ a, db.findAccount b.ledgerAccountId = some a ∧ Numeric.ofRat?
          (nextBalance a b₀.availableBalance.value command.entries) = some b.availableBalance := by
  rw [h.balances, mem_updateWhere] at hb
  rcases hb with hb | ⟨b₀, hb₀, ht, rfl⟩
  · exact .inl hb
  · obtain ⟨m, hm⟩ := h.fits b₀ hb₀ ht
    obtain ⟨a, ha, hnext⟩ := Option.bind_eq_some_iff.mp hm
    refine .inr ⟨b₀, hb₀, ht, rfl, a, ha, ?_⟩
    rw [hnext, settle, hm]
    rfl

theorem accountAllows_currency {postingType : PostingType} {e : ResolvedEntry}
    (h : accountAllows postingType a e = true) : a.currency = e.currency := by
  simp only [accountAllows, Bool.and_eq_true, decide_eq_true_eq] at h
  exact h.1

/-- The funds are checked on the locked balances of the posting. -/
theorem Committed.sound (h : Committed db db' command commandHash id tx) (hs : Sound db) :
    Sound db' := by
  refine ⟨fun e he => ?_, fun a ha => ?_, fun b hb => ?_, fun b hb a ha hc => ?_⟩
  · rw [h.findAccount]
    rw [h.entries, List.mem_append] at he
    rcases he with he | he
    · exact hs.entries e he
    · obtain ⟨re, hre, hstores⟩ := exists_of_forall₂ h.stored.entries e he
      obtain ⟨a, ha, hallow⟩ := h.allowed re hre
      rw [hstores.ledgerAccountId, hstores.currency]
      exact ⟨a, ha, accountAllows_currency hallow⟩
  · rw [h.accounts] at ha
    obtain ⟨b₀, hb₀⟩ := hs.balance a ha
    exact ⟨_, by rw [h.findBalance, hb₀, Option.map_some]⟩
  · rw [h.findAccount]
    rcases h.balance_cases hb with ⟨hb, -⟩ | ⟨b₀, hb₀, -, hid, a, ha, -⟩
    · exact hs.owned b hb
    · exact ⟨a, ha⟩
  · rw [h.findAccount] at ha
    rcases h.balance_cases hb with ⟨hb, -⟩ | ⟨b₀, hb₀, ht, hid, a', ha', hstore⟩
    · exact hs.funded b hb a ha hc
    · obtain rfl := Option.some.inj (ha.symm.trans ha')
      obtain ⟨e, he, heid⟩ := touches_iff.mp ht
      have hfind := Database.findBalance_eq_some_iff.mpr ⟨hb₀, heid.symm⟩
      exact Numeric.ofRat?_nonneg hstore (h.funds e he a b₀ (by rw [heid, ← hid, ha]) hfind hc)

theorem Change.sound {config : Config} {request : Request} {next : Next}
    (h : Change config db request db' next) (hs : Sound db) : Sound db' := by
  cases h with
  | unchanged => exact hs
  | provisioned opened => exact opened.sound hs
  | cleared opened => exact opened.sound hs
  | committed _ committed => exact committed.sound hs

section Journal

variable {ι : Type} [DecidableEq ι] {config : Config} {s : State ι}

theorem sound_of_reachable (h : (system ι config).Reachable s) : Sound s.db := by
  refine System.Reachable.invariant (P := fun s => Sound s.db) sound_empty
    (fun s a s' hr hs hstep => ?_) h
  rcases step_change (invariant_of_reachable hr) hstep with heq | ⟨_, _, -, hchange⟩
  · rw [heq]
    exact hs
  · exact hchange.sound hs

/-- What the checks of the table and the deferred trigger say of a committed transaction. -/
theorem balanced_of_committed (htx : tx ∈ db.transactions.rows) :
    2 ≤ tx.entries.length ∧ (∀ e ∈ tx.entries, 0 < e.amount.value) ∧
      ∀ currency, journal.total .debit (entriesIn currency tx.entries) =
        journal.total .credit (entriesIn currency tx.entries) := by
  have hcheck := db.transactions.checked tx htx
  simp only [transactionsSchema, verifyBalancedPosting, LedgerEntry.check, Bool.and_eq_true,
    List.all_eq_true, decide_eq_true_eq] at hcheck
  obtain ⟨⟨-, hentries⟩, hcount, hbalanced⟩ := hcheck
  refine ⟨hcount, fun e he => (hentries e he).1.2, fun currency => ?_⟩
  by_cases hmem : currency ∈ tx.entries.map LedgerEntry.currency
  · exact hbalanced currency hmem
  · have hnil : entriesIn currency tx.entries = [] := by
      rw [entriesIn, List.filter_eq_nil_iff]
      intro e he heq
      exact hmem (List.mem_map.mpr ⟨e, he, of_decide_eq_true heq⟩)
    rw [hnil]
    rfl

theorem entries_of_transaction {e : LedgerEntry} (htx : tx ∈ db.transactions.rows)
    (he : e ∈ tx.entries) : e ∈ db.entries := List.mem_flatMap.mpr ⟨tx, htx, he⟩

/-- Every committed transaction has at least two entries with positive amounts in the currencies
of their accounts, balanced in each currency; none is ever changed or removed; and no customer's
balance is negative. -/
theorem journal_sound (h : (system ι config).Reachable s) :
    (∀ tx ∈ s.db.transactions.rows, 2 ≤ tx.entries.length ∧
      (∀ e ∈ tx.entries, 0 < e.amount.value ∧
        ∃ a, s.db.findAccount e.ledgerAccountId = some a ∧ a.currency = e.currency) ∧
      ∀ currency, journal.total .debit (entriesIn currency tx.entries) =
        journal.total .credit (entriesIn currency tx.entries)) ∧
    (∀ s', (system ι config).Steps s s' → s.db.transactions.rows <+: s'.db.transactions.rows) ∧
    (∀ a ∈ s.db.accounts.rows, a.accountType = .customer →
      ∃ b, s.db.findBalance a.id = some b ∧ 0 ≤ b.availableBalance.value) := by
  have hs := sound_of_reachable h
  refine ⟨fun tx htx => ?_, fun s' hsteps => (grows_of_steps h hsteps).transactions,
    fun a ha hc => ?_⟩
  · obtain ⟨hcount, hpositive, hbalanced⟩ := balanced_of_committed htx
    exact ⟨hcount, fun e he => ⟨hpositive e he, hs.entries e (entries_of_transaction htx he)⟩,
      hbalanced⟩
  · obtain ⟨b, hb⟩ := hs.balance a ha
    obtain ⟨hmem, hid⟩ := Database.findBalance_eq_some_iff.mp hb
    have hfind := Database.findAccount_eq_some_iff.mpr ⟨ha, hid.symm⟩
    exact ⟨b, hb, hs.funded b hmem a hfind hc⟩

end Journal

/-- The theorem at the end of `reusedRun`, with one committed transaction. -/
theorem journal_sound_reusedRun : ∃ s, (system ℕ fundingConfig).run .initial reusedRun = some s ∧
    s.db.transactions.rows.length = 1 ∧
    ∀ tx ∈ s.db.transactions.rows, ∀ e ∈ tx.entries, 0 < e.amount.value := by
  have hrun : ((system ℕ fundingConfig).run .initial reusedRun).map
      (fun s => s.db.transactions.rows.length) = some 1 := by decide +kernel
  obtain ⟨s, hs, hlength⟩ := Option.map_eq_some_iff.mp hrun
  exact ⟨s, hs, hlength, fun tx htx e he =>
    (((journal_sound (System.reachable_of_run hs)).1 tx htx).2.1 e he).1⟩

/-! ### The balances -/

/-- Every partial sum of a balance and the entries of its account has at most twenty significant
digits. -/
def SumsFit (normal : EntryDirection) : ℚ → List ResolvedEntry → Prop
  | _, [] => True
  | balance, e :: entries =>
    Fits 20 (balance + signed normal e.direction e.amount) ∧
      SumsFit normal (balance + signed normal e.direction e.amount) entries

instance decidableFits (p : ℕ) (x : ℚ) : Decidable (Fits p x) := decidable_of_iff _ roundSig_eq_self_iff

instance decidableSumsFit (normal : EntryDirection) :
    (balance : ℚ) → (entries : List ResolvedEntry) → Decidable (SumsFit normal balance entries)
  | _, [] => inferInstanceAs (Decidable True)
  | balance, e :: entries =>
    have := decidableSumsFit normal (balance + signed normal e.direction e.amount) entries
    inferInstanceAs (Decidable (_ ∧ _))

/-- The stored balances of the accounts of a posting and its entries add up without rounding. -/
def AddsExactly (db : Database) (command : ResolvedPosting) : Prop :=
  ∀ b ∈ db.balances.rows, ∀ a ∈ db.findAccount b.ledgerAccountId,
    SumsFit a.normalSide b.availableBalance.value
      (command.entries.filter fun e => decide (e.ledgerAccountId = a.id))

instance decidableAddsExactly (db : Database) (command : ResolvedPosting) :
    Decidable (AddsExactly db command) :=
  inferInstanceAs (Decidable (∀ b ∈ db.balances.rows, ∀ a ∈ db.findAccount b.ledgerAccountId, _))

theorem foldl_of_sumsFit {normal : EntryDirection} {entries : List ResolvedEntry} {balance : ℚ}
    (h : SumsFit normal balance entries) :
    entries.foldl (fun value e => if e.direction = normal then plus value e.amount
      else minus value e.amount) balance =
      balance + (entries.map fun e => signed normal e.direction e.amount).sum := by
  induction entries generalizing balance with
  | nil => simp
  | cons e entries ih =>
    have hstep : (if e.direction = normal then plus balance e.amount
        else minus balance e.amount) = balance + signed normal e.direction e.amount := by
      have hround := roundSig_of_fits h.1
      unfold signed at hround ⊢
      by_cases hd : e.direction = normal
      · simpa [hd, plus] using hround
      · simpa [hd, minus, sub_eq_add_neg] using hround
    rw [List.foldl_cons, hstep, ih h.2, List.map_cons, List.sum_cons, add_assoc]

/-- The change of a balance by the stored rows of a posting is that by its resolved entries. -/
theorem balance_of_stores {entries : List ResolvedEntry} {rows : List LedgerEntry}
    (h : List.Forall₂ Stores entries rows) (hheld : ∀ e ∈ entries, ∃ m : Money, m.value = e.amount)
    (normal : EntryDirection) (i : Uuid) :
    journal.balance normal i rows = ((entries.filter fun e => decide (e.ledgerAccountId = i)).map
      fun e => signed normal e.direction e.amount).sum := by
  induction h with
  | nil => rfl
  | @cons e row entries rows hstores _ ih =>
    obtain ⟨m, hm⟩ := hheld e List.mem_cons_self
    have hamount : row.amount.value = e.amount := by
      have hrow := hstores.amount
      rw [← hm, Numeric.ofRat?_value] at hrow
      rw [← Option.some.inj hrow, hm]
    rw [Journal.balance_cons, ih fun e' he' => hheld e' (List.mem_cons_of_mem e he')]
    have haccount : journal.account row = e.ledgerAccountId := hstores.ledgerAccountId
    have hside : journal.side row = e.direction := hstores.direction
    have hvalue : journal.amount row = e.amount := hamount
    rw [haccount, hside, hvalue]
    by_cases hid : e.ledgerAccountId = i <;> simp [hid]

/-- The balance of stored entries is a multiple of the smallest unit. -/
theorem exists_int_balance (normal : EntryDirection) (i : Uuid) (rows : List LedgerEntry) :
    ∃ k : ℤ, journal.balance normal i rows * 10 ^ 8 = k := by
  induction rows with
  | nil => exact ⟨0, by simp⟩
  | cons row rows ih =>
    obtain ⟨k, hk⟩ := ih
    have hrow : journal.amount row * 10 ^ 8 = row.amount.units := row.amount.value_mul_pow
    have hsigned : ∃ n : ℤ, signed normal (journal.side row) (journal.amount row) * 10 ^ 8 = n := by
      unfold signed
      split
      · exact ⟨_, hrow⟩
      · exact ⟨-row.amount.units, by rw [neg_mul, hrow]; push_cast; rfl⟩
    obtain ⟨n, hn⟩ := hsigned
    rw [Journal.balance_cons]
    split
    · exact ⟨n + k, by rw [add_mul, hn, hk]; push_cast; rfl⟩
    · exact ⟨k, by rw [zero_add, hk]⟩

/-- Every balance is the sum of the entries of its account, on its normal side. -/
def BalancesAgree (db : Database) : Prop :=
  ∀ b ∈ db.balances.rows, ∀ a, db.findAccount b.ledgerAccountId = some a →
    b.availableBalance.value = journal.balance a.normalSide a.id db.entries

theorem findAccount_id (ha : db.findAccount id = some a) : a.id = id :=
  (Database.findAccount_eq_some_iff.mp ha).2

theorem Opened.balancesAgree (h : Opened db db' account) (hs : Sound db) (hb : BalancesAgree db) :
    BalancesAgree db' := by
  intro b hmem a ha
  rw [h.entries]
  rw [h.balances, List.mem_append, List.mem_singleton] at hmem
  rcases hmem with hmem | rfl
  · obtain ⟨a', ha'⟩ := hs.owned b hmem
    obtain rfl := Option.some.inj ((h.findAccount_of_some ha').symm.trans ha)
    exact hb b hmem a' ha'
  · have hnone : ∀ e ∈ db.entries, journal.account e ≠ a.id := by
      intro e he heq
      obtain ⟨a', ha', -⟩ := hs.entries e he
      rw [show e.ledgerAccountId = a.id from heq, findAccount_id ha, h.fresh] at ha'
      cases ha'
    rw [Journal.balance_of_untouched _ hnone]
    exact Numeric.value_zero

/-- A posting whose sums fit moves every balance by exactly its entries. -/
theorem Committed.balancesAgree (h : Committed db db' command commandHash id tx)
    (hheld : ∀ e ∈ command.entries, ∃ m : Money, m.value = e.amount) (hexact : AddsExactly db command)
    (hb : BalancesAgree db) : BalancesAgree db' := by
  intro b hmem a ha
  rw [h.findAccount] at ha
  have hid := findAccount_id ha
  have hmove := balance_of_stores h.stored.entries hheld a.normalSide a.id
  rw [h.entries, Journal.balance_append]
  rcases h.balance_cases hmem with ⟨hmem, ht⟩ | ⟨b₀, hb₀, -, hid₀, a', ha', hstore⟩
  · have hnil : (command.entries.filter fun e => decide (e.ledgerAccountId = a.id)) = [] := by
      rw [List.filter_eq_nil_iff]
      intro e he heq
      rw [touches_iff.mpr ⟨e, he, (of_decide_eq_true heq).trans hid⟩] at ht
      cases ht
    rw [hmove, hnil, hb b hmem a ha]
    simp
  · obtain rfl := Option.some.inj (ha.symm.trans ha')
    have hold := hb b₀ hb₀ a (hid₀ ▸ ha)
    have hnext : nextBalance a b₀.availableBalance.value command.entries =
        b₀.availableBalance.value + journal.balance a.normalSide a.id tx.entries := by
      rw [hmove]
      exact foldl_of_sumsFit (hexact b₀ hb₀ a (hid₀ ▸ ha))
    obtain ⟨k, hk⟩ := exists_int_balance a.normalSide a.id tx.entries
    have hgrid : nextBalance a b₀.availableBalance.value command.entries * 10 ^ 8 =
        ((b₀.availableBalance.units + k : ℤ) : ℚ) := by
      rw [hnext, add_mul, hk, b₀.availableBalance.value_mul_pow]
      push_cast
      rfl
    rw [Numeric.value_of_ofRat? hstore hgrid, hnext, hold]

/-- Every amount a command can carry fits the column of the entries. -/
theorem Resolved.held {config : Config} {request : Request}
    (h : Resolved config db request command commandHash) :
    ∀ e ∈ command.entries, ∃ m : Money, m.value = e.amount := by
  have hmoney : ∀ t : Text, isMoney t = true → ∃ m : Money, m.value = t.value := fun t ht =>
    (exists_money ht).imp fun _ h => h.2
  cases h with
  | @post command _ entries clearing valid _ resolves clears =>
    simp only [validPosting, Bool.and_eq_true, List.all_eq_true] at valid
    obtain ⟨⟨⟨⟨⟨⟨-, hsource⟩, htarget⟩, -⟩, -⟩, -⟩, hentries⟩ := valid
    intro e he
    rcases List.mem_append.mp he with he | he
    · obtain ⟨entry, hentry, hr⟩ := exists_of_forall₂ resolves e he
      rw [hr.amount]
      exact hmoney _ (hentries entry hentry)
    · rcases clears with ⟨-, rfl⟩ | ⟨-, sourceId, targetId, -, -, rfl⟩
      · cases he
      · simp only [clearingEntries, List.mem_cons, List.not_mem_nil, or_false] at he
        rcases he with rfl | rfl
        · exact hmoney _ hsource
        · exact hmoney _ htarget
  | @fund command =>
    intro e he
    simp only [resolveFunding, List.mem_cons, List.not_mem_nil, or_false] at he
    rcases he with rfl | rfl <;> exact hmoney _ command.amount.property
  | reverse =>
    intro e he
    obtain ⟨row, -, rfl⟩ := List.mem_map.mp he
    exact ⟨row.amount, rfl⟩

/-- The balances of the accounts of a currency with the given normal side. -/
def sideTotal (db : Database) (currency : Currency) (side : EntryDirection) : ℚ :=
  (((db.accounts.rows.filter fun a => decide (a.currency = currency)).filter
    fun a => decide (a.normalSide = side)).map fun a =>
      ((db.findBalance a.id).map fun b => b.availableBalance.value).getD 0).sum

/-- The committed entries of a currency balance, because those of each transaction do. -/
theorem totals_eq (db : Database) (currency : Currency) :
    journal.total .debit (entriesIn currency db.entries) =
      journal.total .credit (entriesIn currency db.entries) := by
  have hall : ∀ rows : List LedgerTransaction, (∀ tx ∈ rows, tx ∈ db.transactions.rows) →
      journal.total .debit (entriesIn currency (rows.flatMap LedgerTransaction.entries)) =
        journal.total .credit (entriesIn currency (rows.flatMap LedgerTransaction.entries)) := by
    intro rows
    induction rows with
    | nil => exact fun _ => rfl
    | cons tx rows ih =>
      intro hmem
      have hrest := ih fun tx' htx' => hmem tx' (List.mem_cons_of_mem _ htx')
      have hone := (balanced_of_committed (hmem tx List.mem_cons_self)).2.2 currency
      simp only [entriesIn, List.flatMap_cons, List.filter_append, Journal.total_append] at hone hrest ⊢
      rw [hone, hrest]
  exact hall db.transactions.rows fun _ h => h

/-- When the balances agree with the entries, they pass the trial balance of each currency. -/
theorem sideTotal_eq (hs : Sound db) (hb : BalancesAgree db) (currency : Currency) :
    sideTotal db currency .debit = sideTotal db currency .credit := by
  have hbalance : ∀ a ∈ db.accounts.rows, a.currency = currency →
      ((db.findBalance a.id).map fun b => b.availableBalance.value).getD 0 =
        journal.balance a.normalSide a.id (entriesIn currency db.entries) := by
    intro a ha hcurrency
    obtain ⟨b, hfind⟩ := hs.balance a ha
    obtain ⟨hmem, hid⟩ := Database.findBalance_eq_some_iff.mp hfind
    have haccount := Database.findAccount_eq_some_iff.mpr ⟨ha, rfl⟩
    rw [hfind, entriesIn, Journal.balance_filter]
    · exact hb b hmem a (hid ▸ haccount)
    · intro e he heid
      obtain ⟨a', ha', hc⟩ := hs.entries e he
      rw [show e.ledgerAccountId = a.id from heid] at ha'
      obtain rfl := Option.some.inj (haccount.symm.trans ha')
      simp [← hc, hcurrency]
  have hnodup : ((db.accounts.rows.filter fun a => decide (a.currency = currency)).map
      LedgerAccount.id).Nodup := by
    have hids := db.account_ids
    simp only [uniqueBy, decide_eq_true_eq] at hids
    exact hids.sublist ((List.filter_sublist (l := db.accounts.rows)).map _)
  have hcover : ∀ e ∈ entriesIn currency db.entries, journal.account e ∈
      (db.accounts.rows.filter fun a => decide (a.currency = currency)).map LedgerAccount.id := by
    intro e he
    obtain ⟨he, hcurrency⟩ := List.mem_filter.mp he
    obtain ⟨a, ha, hc⟩ := hs.entries e he
    obtain ⟨hmem, hid⟩ := Database.findAccount_eq_some_iff.mp ha
    exact List.mem_map.mpr ⟨a, List.mem_filter.mpr ⟨hmem, by rw [hc]; exact hcurrency⟩, hid⟩
  have hsum : ∀ side, sideTotal db currency side =
      (((db.accounts.rows.filter fun a => decide (a.currency = currency)).filter
        fun a => decide (a.normalSide = side)).map fun a =>
          journal.balance a.normalSide a.id (entriesIn currency db.entries)).sum := by
    intro side
    refine congrArg List.sum (List.map_congr_left fun a ha => ?_)
    obtain ⟨ha, hcurrency⟩ := List.mem_filter.mp (List.mem_filter.mp ha).1
    exact hbalance a ha (of_decide_eq_true hcurrency)
  rw [hsum, hsum]
  exact journal.trial_balance hnodup hcover (totals_eq db currency)

section Exact

variable {ι : Type} [DecidableEq ι] {config : Config} {s s' : State ι} {i : ι}

/-- A posting that this step commits adds up without rounding on every account it touches. -/
def CommitsExactly (s : State ι) : Action ι → Prop
  | .run i choice =>
    match s.calls i with
    | some ⟨_, .running (.attempt attempted _)⟩ =>
      choice.fate = .commit → attempted.failBeforeCommit = false →
        (commitPosting s.db attempted.posting attempted.commandHash choice.id).isOk = true →
        AddsExactly s.db attempted.posting
    | _ => True
  | _ => True

instance decidableCommitsExactly (s : State ι) (a : Action ι) : Decidable (CommitsExactly s a) := by
  unfold CommitsExactly
  split
  · split <;> infer_instance
  · infer_instance

theorem runEnsureClearing_transactions {choice : Choice} {currency : Currency}
    {clearing : EnsureClearing} :
    (runEnsureClearing choice db currency clearing).1.transactions = db.transactions := by
  unfold runEnsureClearing
  split
  · split <;> rfl
  · split
    · next h => exact (createAccount_ok h).transactions
    · rfl
    · rfl
  · split <;> rfl
  · rfl

/-- Only an attempt writes to the journal, when it commits. -/
theorem advance_transactions (config : Config) (db : Database) (choice : Choice) (pc : Pc) :
    (advance config choice db pc).1.transactions = db.transactions ∨
      ∃ attempted number tx, pc = .attempt attempted number ∧ choice.fate = .commit ∧
        attempted.failBeforeCommit = false ∧
        commitPosting db attempted.posting attempted.commandHash choice.id =
          .ok ((advance config choice db pc).1, tx) := by
  cases pc with
  | provisionCreate walletId currency =>
    left
    unfold advance runProvisionCreate
    dsimp only
    split
    · next h => exact (createAccount_ok h).transactions
    · rfl
    · rfl
  | postClearing command failBeforeCommit entries source target =>
    left
    have hpair : (if choice.source then runEnsureClearing choice db command.sourceCurrency source
        else runEnsureClearing choice db command.targetCurrency target).1.transactions =
        db.transactions := by
      split <;> exact runEnsureClearing_transactions
    unfold advance runPostClearing
    dsimp only
    split
    · exact hpair
    · split <;> exact hpair
  | fundClearing command customerId clearing =>
    left
    have hone : (runEnsureClearing choice db command.currency clearing).1.transactions =
      db.transactions := runEnsureClearing_transactions
    unfold advance runFundClearing
    dsimp only
    split <;> next heq => rw [heq] at hone; exact hone
  | attempt attempted number =>
    unfold advance runAttempt
    dsimp only
    split
    · next hfate =>
      split
      · next db' tx hcommit =>
        split
        · exact .inl rfl
        · next hfail =>
          exact .inr ⟨attempted, number, tx, rfl, hfate, by simpa using hfail, hcommit⟩
      · exact .inl rfl
    · exact .inl rfl
    · split <;> exact .inl rfl
  | _ => exact .inl rfl

theorem balancesAgree_step (hr : (system ι config).Reachable s) (hb : BalancesAgree s.db)
    {a : Action ι} (hok : CommitsExactly s a) (h : step config s a = some s') :
    BalancesAgree s'.db := by
  have hi := invariant_of_reachable hr
  have hs := sound_of_reachable hr
  rcases step_cases h with ⟨_, _, _, -, rfl, -⟩ | ⟨i, choice, request, pc, rfl, hrun, rfl⟩ |
    ⟨_, _, _, -, -, rfl⟩
  · exact hb
  · have hchange : Change config s.db request (advance config choice s.db pc).1
        (advance config choice s.db pc).2 := (advance_ok (hi.running i request pc hrun)).1
    change BalancesAgree (advance config choice s.db pc).1
    rcases advance_transactions config s.db choice pc with
      hsame | ⟨attempted, number, tx, rfl, hfate, hfail, hcommit⟩
    · generalize (advance config choice s.db pc).1 = db at hchange hsame ⊢
      generalize (advance config choice s.db pc).2 = next at hchange
      cases hchange with
      | unchanged => exact hb
      | provisioned opened => exact opened.balancesAgree hs hb
      | cleared opened => exact opened.balancesAgree hs hb
      | committed _ committed =>
        have hlength := congrArg List.length committed.transactions
        simp [hsame] at hlength
    · simp only [CommitsExactly, hrun] at hok
      have hexact := hok hfate hfail (by rw [hcommit]; rfl)
      have hresolved : Resolved config s.db request attempted.posting attempted.commandHash :=
        hi.running i request _ hrun
      exact (commitPosting_ok hcommit).balancesAgree hresolved.held hexact hb
  · exact hb

/-- As long as no committed posting rounds, every account holds the signed sum of its entries, and
in each currency the debit-normal accounts hold as much as the credit-normal ones. -/
theorem balances_are_entry_sums (h : (system ι config).ReachableBy CommitsExactly s) :
    (∀ a ∈ s.db.accounts.rows, ∃ b, s.db.findBalance a.id = some b ∧
      b.availableBalance.value = journal.balance a.normalSide a.id s.db.entries) ∧
    ∀ currency, sideTotal s.db currency .debit = sideTotal s.db currency .credit := by
  have hs := sound_of_reachable h.reachable
  have hb : BalancesAgree s.db := by
    refine System.ReachableBy.invariant (P := fun s => BalancesAgree s.db) ?_ ?_ h
    · intro b hb
      cases hb
    · exact fun s a s' hr hb hok hstep => balancesAgree_step hr.reachable hb hok hstep
  refine ⟨fun a ha => ?_, sideTotal_eq hs hb⟩
  obtain ⟨b, hfind⟩ := hs.balance a ha
  obtain ⟨hmem, hid⟩ := Database.findBalance_eq_some_iff.mp hfind
  exact ⟨b, hfind, hb b hmem a (hid ▸ Database.findAccount_eq_some_iff.mpr ⟨ha, rfl⟩)⟩

end Exact

/-- The theorem after a wallet is provisioned and funded. -/
theorem balances_are_entry_sums_funded : ∃ s,
    (system ℕ fundingConfig).run .initial
      (provisionRun 0 10 1 ++ fundingRun 1 (fundingOf 5 10 tenDollars) true 3) = some s ∧
    s.db.transactions.rows.length = 1 ∧
    ∀ currency, sideTotal s.db currency .debit = sideTotal s.db currency .credit := by
  have hrun : ((system ℕ fundingConfig).runWhere (fun s a => decide (CommitsExactly s a)) .initial
      (provisionRun 0 10 1 ++ fundingRun 1 (fundingOf 5 10 tenDollars) true 3)).map
        (fun s => s.db.transactions.rows.length) = some 1 := by decide +kernel
  obtain ⟨s, hs, hlength⟩ := Option.map_eq_some_iff.mp hrun
  have hreach : (system ℕ fundingConfig).ReachableBy CommitsExactly s :=
    System.ReachableBy.runWhere (fun _ _ h => of_decide_eq_true h) .init hs
  exact ⟨s, System.run_of_runWhere hs, hlength, (balances_are_entry_sums hreach).2⟩

/-- A million times a million dollars. -/
def largeAmount : MoneyText := ⟨⟨100000000000000000000, 8⟩, by decide⟩

def smallestAmount : MoneyText := ⟨⟨1, 8⟩, by decide⟩

/-- Two wallets are funded, with the largest and the smallest of these amounts. -/
def roundingRun : List (Action ℕ) :=
  provisionRun 0 10 1 ++ provisionRun 1 11 2 ++
    fundingRun 2 (fundingOf 5 10 largeAmount) true 3 ++
    fundingRun 3 (fundingOf 6 11 smallestAmount) false 4

/-- The clearing account has lost the second amount: its balance is not the sum of its entries,
and the debit side no longer equals the credit side. -/
theorem balances_lose_digits : ∃ s, (system ℕ fundingConfig).Reachable s ∧
    (¬ ∀ a ∈ s.db.accounts.rows, ∃ b, s.db.findBalance a.id = some b ∧
      b.availableBalance.value = journal.balance a.normalSide a.id s.db.entries) ∧
    ¬ ∀ currency, sideTotal s.db currency .debit = sideTotal s.db currency .credit := by
  have hrun : ((system ℕ fundingConfig).run .initial roundingRun).map (fun s =>
      (s.db.accounts.rows.all fun a => (s.db.findBalance a.id).any fun b =>
        decide (b.availableBalance.value = journal.balance a.normalSide a.id s.db.entries),
      decide (sideTotal s.db dollars .debit = sideTotal s.db dollars .credit))) =
      some (false, false) := by decide +kernel
  obtain ⟨s, hs, hstate⟩ := Option.map_eq_some_iff.mp hrun
  obtain ⟨hbalance, hside⟩ := Prod.mk.inj hstate
  refine ⟨s, System.reachable_of_run hs, fun h => ?_, fun h => of_decide_eq_false hside (h dollars)⟩
  have hall : (s.db.accounts.rows.all fun a => (s.db.findBalance a.id).any fun b =>
      decide (b.availableBalance.value = journal.balance a.normalSide a.id s.db.entries)) = true := by
    rw [List.all_eq_true]
    intro a ha
    obtain ⟨b, hb, hvalue⟩ := h a ha
    simp [hb, hvalue]
  rw [hbalance] at hall
  cases hall

end NovaPay.Ledger
