import NovaPay.Ledger.Calls

/-!
# The effect of the Ledger's transactions

What `createAccount` and `commitPosting` leave in the three tables when they commit.
-/

namespace NovaPay.Ledger

open DecimalArithmetic Relational

variable {db db' : Database} {account a : LedgerAccount} {b : WalletBalance}
  {command : ResolvedPosting} {commandHash : Digest} {id : Uuid} {tx : LedgerTransaction}

/-- The rows a new account adds: the account itself and its zero balance. -/
structure Opened (db db' : Database) (account : LedgerAccount) : Prop where
  fresh : db.findAccount account.id = none
  accounts : db'.accounts.rows = db.accounts.rows ++ [account]
  balances : db'.balances.rows =
    db.balances.rows ++ [⟨account.id, account.currency, Numeric.zero, 0⟩]
  transactions : db'.transactions = db.transactions

theorem createAccount_ok (h : createAccount db account = .ok db') : Opened db db' account := by
  unfold createAccount at h
  obtain ⟨accounts, ha, h⟩ := bind_eq_ok h
  obtain ⟨balances, hb, h⟩ := bind_eq_ok h
  cases h
  have hrows := Table.insertMany_ok ha
  have hunique := Database.account_ids ⟨accounts, balances, db.transactions⟩
  rw [show (Database.mk accounts balances db.transactions).accounts.rows = _ from hrows] at hunique
  exact ⟨findBy_eq_none_iff.mpr (fresh_of_uniqueBy_append hunique), hrows, Table.insertMany_ok hb, rfl⟩

theorem Opened.findAccount (h : Opened db db' account) (id : Uuid) :
    db'.findAccount id = if id = account.id then some account else db.findAccount id := by
  rw [Database.findAccount, h.accounts, findBy_append_new h.fresh]
  rfl

theorem Opened.entries (h : Opened db db' account) : db'.entries = db.entries := by
  rw [Database.entries, h.transactions]
  rfl

theorem Opened.findBalance (h : Opened db db' account) :
    db'.findBalance account.id = some ⟨account.id, account.currency, Numeric.zero, 0⟩ := by
  rw [Database.findBalance_eq_some_iff, h.balances]
  exact ⟨List.mem_append_right _ (List.mem_singleton.mpr rfl), rfl⟩

/-- The accounts a posting may use, with their locked balances. -/
structure Locked (db : Database) (command : ResolvedPosting)
    (locked : List (LedgerAccount × WalletBalance)) : Prop where
  account : ∀ e ∈ command.entries, ∃ a, db.findAccount e.ledgerAccountId = some a ∧
    accountAllows command.postingType a e = true
  balance : ∀ e ∈ command.entries, ∃ a b, db.findAccount e.ledgerAccountId = some a ∧
    db.findBalance e.ledgerAccountId = some b ∧ (a, b) ∈ locked

theorem length_filterMap_eq {α β : Type*} {f : α → Option β} {l : List α}
    (h : (l.filterMap f).length = l.length) : ∀ x ∈ l, ∃ y, f x = some y := by
  induction l with
  | nil => simp
  | cons x l ih =>
    intro y hy
    cases hf : f x with
    | none =>
      have hle := List.length_filterMap_le f l
      simp only [List.filterMap_cons_none hf, List.length_cons] at h
      omega
    | some z =>
      simp only [List.filterMap_cons_some hf, List.length_cons, Nat.add_right_cancel_iff] at h
      rcases List.mem_cons.mp hy with rfl | hy
      · exact ⟨z, hf⟩
      · exact ih h y hy

theorem lockBalances_ok {locked : List (LedgerAccount × WalletBalance)}
    (h : lockBalances db command = .ok locked) : Locked db command locked := by
  simp only [lockBalances] at h
  split at h
  · cases h
  next hcount =>
  split at h
  · cases h
  next hallows =>
  split at h
  · cases h
  next hlocked =>
  cases h
  have haccount := length_filterMap_eq (not_not.mp hcount)
  have hlength : ((((command.entries.map ResolvedEntry.ledgerAccountId).dedup.filterMap
      db.findAccount).filterMap fun a => (db.findBalance a.id).map fun b => (a, b))).length =
      ((command.entries.map ResolvedEntry.ledgerAccountId).dedup.filterMap db.findAccount).length := by
    rw [not_not.mp hlocked, not_not.mp hcount]
  have hbalance := length_filterMap_eq hlength
  constructor
  · intro e he
    simp only [Bool.not_eq_true, List.any_eq_false, Bool.not_eq_true', Bool.not_eq_false] at hallows
    have hany := hallows e he
    obtain ⟨a, ha, hallow⟩ := (Option.any_eq_true _ _).mp (by simpa using hany)
    exact ⟨a, ha, hallow⟩
  · intro e he
    have hmem : e.ledgerAccountId ∈ (command.entries.map ResolvedEntry.ledgerAccountId).dedup :=
      List.mem_dedup.mpr (List.mem_map_of_mem he)
    obtain ⟨a, ha⟩ := haccount _ hmem
    have hin := List.mem_filterMap.mpr ⟨_, hmem, ha⟩
    obtain ⟨⟨a', b⟩, hb⟩ := hbalance a hin
    obtain ⟨b', hb', heq⟩ := Option.map_eq_some_iff.mp hb
    cases heq
    have hid : a.id = e.ledgerAccountId := (Database.findAccount_eq_some_iff.mp ha).2
    exact ⟨a, b, ha, hid ▸ hb', List.mem_filterMap.mpr ⟨a, hin, hb⟩⟩

theorem insertPosting_ok {transactions transactions' : Table transactionsSchema}
    (h : insertPosting transactions tx = .ok transactions') :
    transactions'.rows = transactions.rows ++ [tx] := by
  unfold insertPosting at h
  split at h
  · cases h
  split at h
  · cases h
  split at h
  · next hins =>
    cases h
    exact Table.insertMany_ok hins
  · cases h

/-- The row stored for an entry differs from it only where the columns round. -/
structure Stores (e : ResolvedEntry) (row : LedgerEntry) : Prop where
  ledgerAccountId : row.ledgerAccountId = e.ledgerAccountId
  direction : row.direction = e.direction
  amount : Numeric.ofRat? e.amount = some row.amount
  currency : row.currency = e.currency
  fxQuoteId : row.fxQuoteId = e.fxQuoteId

theorem storeEntry_ok {e : ResolvedEntry} {sequence : ℕ} {row : LedgerEntry}
    (h : storeEntry e sequence = some row) : Stores e row := by
  unfold storeEntry at h
  obtain ⟨amount, ha, h⟩ := Option.bind_eq_some_iff.mp h
  obtain ⟨lockedFxRate, -, h⟩ := Option.bind_eq_some_iff.mp h
  cases h
  exact ⟨rfl, rfl, ha, rfl, rfl⟩

theorem storeEntries_ok {entries : List ResolvedEntry} {sequence : ℕ} {rows : List LedgerEntry}
    (h : storeEntries sequence entries = some rows) : List.Forall₂ Stores entries rows := by
  induction entries generalizing sequence rows with
  | nil =>
    cases h
    exact .nil
  | cons e entries ih =>
    obtain ⟨row, hrow, h⟩ := Option.bind_eq_some_iff.mp h
    obtain ⟨rest, hrest, h⟩ := Option.bind_eq_some_iff.mp h
    cases h
    exact .cons (storeEntry_ok hrow) (ih hrest)

/-- The stored transaction. -/
structure StoresPosting (command : ResolvedPosting) (commandHash : Digest) (id : Uuid)
    (tx : LedgerTransaction) : Prop where
  id : tx.id = id
  externalReference : tx.externalReference = command.externalReference
  commandHash : tx.commandHash = commandHash
  postingType : tx.postingType = command.postingType
  sourceCurrency : tx.sourceCurrency = command.sourceCurrency
  targetCurrency : tx.targetCurrency = command.targetCurrency
  sourceAmount : Numeric.ofRat? command.sourceAmount = some tx.sourceAmount
  targetAmount : Numeric.ofRat? command.targetAmount = some tx.targetAmount
  fxQuoteId : tx.fxQuoteId = command.fxQuoteId
  lockedFxRate : ∀ r, command.lockedFxRate = some r →
    ∃ stored, tx.lockedFxRate = some stored ∧ Numeric.ofRat? r = some stored
  entries : List.Forall₂ Stores command.entries tx.entries

theorem storePosting_ok (h : storePosting command commandHash id = some tx) :
    StoresPosting command commandHash id tx := by
  unfold storePosting at h
  obtain ⟨sourceAmount, hs, h⟩ := Option.bind_eq_some_iff.mp h
  obtain ⟨targetAmount, ht, h⟩ := Option.bind_eq_some_iff.mp h
  obtain ⟨lockedFxRate, hr, h⟩ := Option.bind_eq_some_iff.mp h
  obtain ⟨entries, he, h⟩ := Option.bind_eq_some_iff.mp h
  cases h
  refine ⟨rfl, rfl, rfl, rfl, rfl, rfl, hs, ht, rfl, fun r hrate => ?_, storeEntries_ok he⟩
  rw [hrate] at hr
  obtain ⟨stored, hstored, rfl⟩ := Option.map_eq_some_iff.mp hr
  exact ⟨stored, rfl, hstored⟩

/-- What a committed posting leaves. -/
structure Committed (db db' : Database) (command : ResolvedPosting) (commandHash : Digest)
    (id : Uuid) (tx : LedgerTransaction) : Prop where
  stored : StoresPosting command commandHash id tx
  accounts : db'.accounts = db.accounts
  transactions : db'.transactions.rows = db.transactions.rows ++ [tx]
  balances : db'.balances.rows = updateWhere (touches command) (settle db command) db.balances.rows
  allowed : ∀ e ∈ command.entries, ∃ a, db.findAccount e.ledgerAccountId = some a ∧
    accountAllows command.postingType a e = true
  balance : ∀ e ∈ command.entries, ∃ b, db.findBalance e.ledgerAccountId = some b
  funds : ∀ e ∈ command.entries, ∀ a b, db.findAccount e.ledgerAccountId = some a →
    db.findBalance e.ledgerAccountId = some b → a.accountType = .customer →
      0 ≤ nextBalance a b.availableBalance.value command.entries
  fits : ∀ b ∈ db.balances.rows, touches command b = true →
    ∃ m, storeBalance db command b = some m

theorem recordPosting_ok {transactions : Table transactionsSchema}
    (h : recordPosting db command commandHash id = .ok (transactions, tx)) :
    StoresPosting command commandHash id tx ∧
      transactions.rows = db.transactions.rows ++ [tx] := by
  unfold recordPosting at h
  split at h
  · cases h
  next tx' hstored =>
  obtain ⟨transactions', hins, h⟩ := bind_eq_ok h
  cases h
  exact ⟨storePosting_ok hstored, insertPosting_ok hins⟩

theorem settleBalances_ok {balances : Table balancesSchema}
    (h : settleBalances db command = .ok balances) :
    balances.rows = updateWhere (touches command) (settle db command) db.balances.rows ∧
      ∀ b ∈ db.balances.rows, touches command b = true → ∃ m, storeBalance db command b = some m := by
  unfold settleBalances at h
  split at h
  · cases h
  next hnone =>
  split at h
  · next hupdate =>
    cases h
    refine ⟨(Table.updateMany_ok hupdate).1, fun b hb ht => ?_⟩
    by_contra hstore
    have hisNone : (storeBalance db command b).isNone = true := by
      rw [Option.isNone_iff_eq_none, Option.eq_none_iff_forall_not_mem]
      exact fun m hm => hstore ⟨m, hm⟩
    exact hnone (List.any_eq_true.mpr ⟨b, hb, by simp [ht, hisNone]⟩)
  · cases h

theorem commitPosting_ok (h : commitPosting db command commandHash id = .ok (db', tx)) :
    Committed db db' command commandHash id tx := by
  unfold commitPosting at h
  obtain ⟨locked, hlocked, h⟩ := bind_eq_ok h
  have hl := lockBalances_ok hlocked
  obtain ⟨_, hfunds, h⟩ := bind_eq_ok h
  obtain ⟨⟨transactions, tx'⟩, hrecord, h⟩ := bind_eq_ok h
  obtain ⟨balances, hsettle, h⟩ := bind_eq_ok h
  cases h
  obtain ⟨hstored, htx⟩ := recordPosting_ok hrecord
  obtain ⟨hbalances, hfits⟩ := settleBalances_ok hsettle
  refine ⟨hstored, rfl, htx, hbalances, hl.account, fun e he => ?_,
    fun e he a b ha hbal hc => ?_, hfits⟩
  · obtain ⟨a, b, -, hb, -⟩ := hl.balance e he
    exact ⟨b, hb⟩
  · obtain ⟨a', b', ha', hb', hmem⟩ := hl.balance e he
    obtain rfl := Option.some.inj (ha.symm.trans ha')
    obtain rfl := Option.some.inj (hbal.symm.trans hb')
    unfold checkFunds at hfunds
    split at hfunds
    · cases hfunds
    · next hnone =>
      by_contra hneg
      exact hnone (List.any_eq_true.mpr ⟨(a, b), hmem, by simp [hc, not_le.mp hneg]⟩)

end NovaPay.Ledger
