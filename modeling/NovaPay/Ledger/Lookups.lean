import NovaPay.Ledger.Failures

/-!
# Accounts by the ids of their wallets

`post` and `balances` count the accounts that the database finds under the ids of a request, and then
look each id up in a map whose keys are as the database spells them. The database compares uuids by
value, so the count says nothing about the spelling.
-/

namespace NovaPay.Ledger

open DecimalArithmetic Relational TransitionSystem

variable {config : Config} {db : Database} {walletIds : List UuidText} {id : UuidText}
  {a : LedgerAccount} {b : WalletBalance} {command : PostingCommand} {entry : PostingEntry}

def duplicateWalletId : HttpError :=
  ⟨409, "DUPLICATE_WALLET_ID", "Each wallet ID may appear only once."⟩

/-- `BalanceQueryDto` -/
def validQuery (walletIds : List UuidText) : Bool :=
  decide (1 ≤ walletIds.length) && decide (walletIds.length ≤ 100)

/-- `findMany` of the accounts of some wallets. -/
def accountsOf (db : Database) (walletIds : List UuidText) : List LedgerAccount :=
  db.accounts.rows.filter fun a => a.walletId.any fun w => decide (w ∈ walletIds.map UuidText.value)

/-- The entry of the map of accounts under an id. -/
def byWallet (accounts : List LedgerAccount) (walletId : UuidText) : Option LedgerAccount :=
  accounts.find? fun a => decide (a.walletId.map UuidText.ofUuid = some walletId)

/-- `toBalance`, with its exception on a row without a projection. -/
def readBalance (account : LedgerAccount) (balance : Option WalletBalance) :
    Except HttpError LedgerBalance :=
  match toBalance account balance with
  | .balance b => .ok b
  | .error error => .error error
  | .posting _ => .error internalServerError

/-- The call of the map for an id; one that is not in the map is dereferenced. -/
def readWallet (db : Database) (walletIds : List UuidText) (walletId : UuidText) :
    Except HttpError LedgerBalance :=
  match byWallet (accountsOf db walletIds) walletId with
  | none => .error internalServerError
  | some account => readBalance account (db.findBalance account.id)

/-- `LedgerAccountService.balances` -/
def balances (db : Database) (walletIds : List UuidText) : Except HttpError (List LedgerBalance) :=
  if walletIds.dedup.length ≠ walletIds.length then .error duplicateWalletId
  else if (accountsOf db walletIds).length ≠ walletIds.length then .error accountNotFound
  else walletIds.mapM (readWallet db walletIds)

/-- `POST /internal/ledger/balances/query` -/
def queryBalances (db : Database) (walletIds : List UuidText) :
    Except HttpError (List LedgerBalance) :=
  if validQuery walletIds then balances db walletIds else .error validationError

/-! ## The count and the map -/

/-- Ids of different wallets that all have an account. -/
structure Counted (db : Database) (walletIds : List UuidText) : Prop where
  nodup : (walletIds.map UuidText.value).Nodup
  found : ∀ id ∈ walletIds, ∃ a ∈ db.accounts.rows, a.walletId = some id.value

theorem length_accountsOf_iff : (accountsOf db walletIds).length = walletIds.length ↔
    Counted db walletIds := by
  have hcount := @length_filter_key_iff _ _ _ _ _ (walletIds.map UuidText.value) db.wallet_ids
  rw [List.length_map] at hcount
  constructor
  · intro h
    obtain ⟨hnodup, hfound⟩ := hcount.mp h
    exact ⟨hnodup, fun id hid => hfound id.value (List.mem_map_of_mem hid)⟩
  · intro h
    refine hcount.mpr ⟨h.nodup, fun k hk => ?_⟩
    obtain ⟨id, hid, rfl⟩ := List.mem_map.mp hk
    exact h.found id hid

theorem Counted.dedup (h : Counted db walletIds) : walletIds.dedup.length = walletIds.length := by
  rw [List.dedup_eq_self.mpr (h.nodup.of_map _)]

theorem byWallet_some {accounts : List LedgerAccount} (h : byWallet accounts id = some a) :
    a ∈ accounts ∧ a.walletId = some id.value ∧ id.upper = 0 := by
  have hspelled := List.find?_some h
  rw [decide_eq_true_eq] at hspelled
  obtain ⟨w, hw, rfl⟩ := Option.map_eq_some_iff.mp hspelled
  exact ⟨List.mem_of_find?_eq_some h, hw, rfl⟩

/-- An id spelled otherwise than the database spells it is not in the map. -/
theorem byWallet_of_upper {accounts : List LedgerAccount} (h : id.upper ≠ 0) :
    byWallet accounts id = none := by
  cases hfind : byWallet accounts id with
  | none => rfl
  | some a => exact absurd (byWallet_some hfind).2.2 h

/-- An id spelled as the database spells it is in the map under its account. -/
theorem byWallet_of_lower (hid : id ∈ walletIds) (h : id.upper = 0) (ha : a ∈ db.accounts.rows)
    (hw : a.walletId = some id.value) : byWallet (accountsOf db walletIds) id = some a := by
  have hspelled : a.walletId.map UuidText.ofUuid = some id := by
    rw [hw, Option.map_some, UuidText.ofUuid, ← h]
  have hmem : a ∈ accountsOf db walletIds := by
    refine List.mem_filter.mpr ⟨ha, ?_⟩
    rw [hw, Option.any_some, decide_eq_true_eq]
    exact List.mem_map_of_mem hid
  cases hfind : byWallet (accountsOf db walletIds) id with
  | none =>
    have hnone := List.find?_eq_none.mp hfind a hmem
    exact absurd (decide_eq_true hspelled) hnone
  | some a' =>
    obtain ⟨hmem', hw', -⟩ := byWallet_some hfind
    rw [eq_of_uniqueWhere db.wallet_ids (List.mem_filter.mp hmem').1 ha hw' hw]

/-! ## Balances -/

/-- The balance of the account of a wallet. -/
def IsBalance (db : Database) (id : UuidText) (balance : LedgerBalance) : Prop :=
  ∃ a ∈ db.accounts.rows, ∃ b, a.walletId = some id.value ∧ db.findBalance a.id = some b ∧
    balance = ⟨id.value, a.id, toFixed 8 b.availableBalance.value, a.currency, b.version⟩

/-- One balance for every id, in the order of the ids, or an exception of the service. -/
def AnswersBalances (db : Database) (walletIds : List UuidText) : Prop :=
  (∃ bs, balances db walletIds = .ok bs ∧ List.Forall₂ (IsBalance db) walletIds bs) ∨
    ∃ error ∈ [duplicateWalletId, accountNotFound], balances db walletIds = .error error

theorem balances_of_counted (h : Counted db walletIds) :
    balances db walletIds = walletIds.mapM (readWallet db walletIds) := by
  unfold balances
  rw [if_neg (not_not.mpr h.dedup), if_neg (not_not.mpr (length_accountsOf_iff.mpr h))]

theorem readWallet_of_lower (hbalance : ∀ a ∈ db.accounts.rows, ∃ b, db.findBalance a.id = some b)
    (hcounted : Counted db walletIds) (hid : id ∈ walletIds) (h : id.upper = 0) :
    ∃ balance, readWallet db walletIds id = .ok balance ∧ IsBalance db id balance := by
  obtain ⟨a, ha, hw⟩ := hcounted.found id hid
  obtain ⟨b, hb⟩ := hbalance a ha
  refine ⟨_, ?_, a, ha, b, hw, hb, rfl⟩
  simp only [readWallet, byWallet_of_lower hid h ha hw, readBalance, toBalance, hw, hb]

theorem balances_of_lower (hbalance : ∀ a ∈ db.accounts.rows, ∃ b, db.findBalance a.id = some b)
    (hcounted : Counted db walletIds) (hlower : ∀ id ∈ walletIds, id.upper = 0) :
    ∃ bs, balances db walletIds = .ok bs ∧ List.Forall₂ (IsBalance db) walletIds bs := by
  have hread : ∀ ids ⊆ walletIds, ∃ bs, List.Forall₂ (fun id b =>
      readWallet db walletIds id = .ok b ∧ IsBalance db id b) ids bs := by
    intro ids hids
    induction ids with
    | nil => exact ⟨[], .nil⟩
    | cons id ids ih =>
      obtain ⟨hid, hids⟩ := List.cons_subset.mp hids
      obtain ⟨b, hb⟩ := readWallet_of_lower hbalance hcounted hid (hlower id hid)
      obtain ⟨bs, hbs⟩ := ih hids
      exact ⟨b :: bs, .cons hb hbs⟩
  obtain ⟨bs, hbs⟩ := hread walletIds (List.Subset.refl walletIds)
  refine ⟨bs, ?_, hbs.imp fun _ _ h => h.2⟩
  rw [balances_of_counted hcounted]
  exact mapM_of_forall₂ (hbs.imp fun _ _ h => h.1)

/-- The accounts are counted and then one of them is missing, exactly where an id of a wallet that has
an account is spelled in upper case, and no wallet is named twice. -/
theorem answersBalances_iff (hbalance : ∀ a ∈ db.accounts.rows, ∃ b, db.findBalance a.id = some b) :
    AnswersBalances db walletIds ↔
      ¬ (Counted db walletIds ∧ ∃ id ∈ walletIds, id.upper ≠ 0) := by
  by_cases hcounted : Counted db walletIds
  · by_cases hlower : ∀ id ∈ walletIds, id.upper = 0
    · refine iff_of_true (.inl (balances_of_lower hbalance hcounted hlower)) ?_
      rintro ⟨-, id, hid, hupper⟩
      exact hupper (hlower id hid)
    · push Not at hlower
      refine iff_of_false ?_ (not_not.mpr ⟨hcounted, hlower⟩)
      obtain ⟨id, hid, hupper⟩ := hlower
      have hmissing : readWallet db walletIds id = .error internalServerError := by
        simp only [readWallet, byWallet_of_upper hupper]
      rintro (⟨bs, hok, -⟩ | ⟨error, hmem, herror⟩)
      · rw [balances_of_counted hcounted] at hok
        have hall := mapM_eq_ok hok
        obtain ⟨b, -, hb⟩ := exists_of_forall₂ hall.flip id hid
        rw [hmissing] at hb
        cases hb
      · -- The first id that fails is spelled in upper case too, as the others have their balance.
        rw [balances_of_counted hcounted] at herror
        obtain ⟨_, id', _, heq, -, hfail⟩ := mapM_eq_error_iff.mp herror
        have hid' : id' ∈ walletIds := by simp [heq]
        by_cases hlower : id'.upper = 0
        · obtain ⟨b, hb, -⟩ := readWallet_of_lower hbalance hcounted hid' hlower
          rw [hb] at hfail
          cases hfail
        · simp only [readWallet, byWallet_of_upper hlower] at hfail
          cases hfail
          revert hmem
          decide
  · refine iff_of_true (.inr ?_) fun h => hcounted h.1
    unfold balances
    split
    · exact ⟨_, by simp, rfl⟩
    · rw [if_pos fun h => hcounted (length_accountsOf_iff.mp h)]
      exact ⟨_, by simp, rfl⟩

/-! ## Postings -/

/-- An entry on an active account of its currency, whose wallet is spelled as the database does. -/
structure Available (db : Database) (entry : PostingEntry) : Prop where
  lower : entry.walletId.upper = 0
  account : ∃ a ∈ db.accounts.rows, a.walletId = some entry.walletId.value ∧
    a.currency = entry.currency ∧ a.status = .active

/-- The wallets that a posting names, each spelling once. -/
def postedWallets (command : PostingCommand) : List UuidText :=
  (command.entries.map PostingEntry.walletId).dedup

/-- Every wallet of a posting has an account, and the first entry that is not available spells its
wallet in upper case. -/
structure Dereferences (db : Database) (command : PostingCommand) : Prop where
  counted : Counted db (postedWallets command)
  first : ∃ before entry after, command.entries = before ++ entry :: after ∧
    (∀ e ∈ before, Available db e) ∧ entry.walletId.upper ≠ 0

theorem resolveEntry_eq {accounts : List LedgerAccount} : resolveEntry command accounts entry =
    match byWallet accounts entry.walletId with
    | none => .error internalServerError
    | some account =>
      if account.currency ≠ entry.currency ∨ account.status ≠ .active then .error accountUnavailable
      else .ok {
        ledgerAccountId := account.id
        direction := entry.direction
        amount := entry.amount.value
        currency := entry.currency
        fxQuoteId := command.fxQuoteId.map UuidText.value
        lockedFxRate := command.lockedFxRate.map Text.value } := rfl

theorem mem_postedWallets (h : entry ∈ command.entries) : entry.walletId ∈ postedWallets command :=
  List.mem_dedup.mpr (List.mem_map_of_mem h)

theorem resolveEntry_missing_iff (hcounted : Counted db (postedWallets command))
    (hentry : entry ∈ command.entries) :
    resolveEntry command (accountsOf db (postedWallets command)) entry = .error internalServerError ↔
      entry.walletId.upper ≠ 0 := by
  rw [resolveEntry_eq]
  by_cases hlower : entry.walletId.upper = 0
  · obtain ⟨a, ha, hw⟩ := hcounted.found _ (mem_postedWallets hentry)
    rw [byWallet_of_lower (mem_postedWallets hentry) hlower ha hw]
    refine iff_of_false ?_ (not_not.mpr hlower)
    dsimp only
    split
    · intro h
      exact absurd (Except.error.inj h) (by decide)
    · intro h
      cases h
  · rw [byWallet_of_upper hlower]
    exact iff_of_true rfl hlower

theorem resolveEntry_ok_iff (hentry : entry ∈ command.entries) :
    (∃ e, resolveEntry command (accountsOf db (postedWallets command)) entry = .ok e) ↔
      Available db entry := by
  rw [resolveEntry_eq]
  constructor
  · rintro ⟨e, h⟩
    split at h
    · cases h
    next a hfind =>
    obtain ⟨hmem, hw, hlower⟩ := byWallet_some hfind
    split at h
    · cases h
    next hopen =>
    push Not at hopen
    exact ⟨hlower, a, (List.mem_filter.mp hmem).1, hw, hopen.1, hopen.2⟩
  · rintro ⟨hlower, a, ha, hw, hcurrency, hstatus⟩
    rw [byWallet_of_lower (mem_postedWallets hentry) hlower ha hw]
    dsimp only
    rw [if_neg (by simp [hcurrency, hstatus])]
    exact ⟨_, rfl⟩

theorem resolveEntries_of_counted (h : Counted db (postedWallets command)) :
    resolveEntries db command =
      command.entries.mapM (resolveEntry command (accountsOf db (postedWallets command))) :=
  if_neg (not_not.mpr (length_accountsOf_iff.mpr h))

theorem resolveEntries_of_not_counted (h : ¬ Counted db (postedWallets command)) :
    resolveEntries db command = .error accountsNotFound :=
  if_pos fun hlength => h (length_accountsOf_iff.mp hlength)

theorem resolveEntries_missing_iff :
    resolveEntries db command = .error internalServerError ↔ Dereferences db command := by
  by_cases hcounted : Counted db (postedWallets command)
  · rw [resolveEntries_of_counted hcounted, mapM_eq_error_iff]
    constructor
    · rintro ⟨before, entry, after, heq, hbefore, hmissing⟩
      refine ⟨hcounted, before, entry, after, heq, fun e he => ?_, ?_⟩
      · exact (resolveEntry_ok_iff (by rw [heq]; exact List.mem_append_left _ he)).mp (hbefore e he)
      · exact (resolveEntry_missing_iff hcounted (by simp [heq])).mp hmissing
    · rintro ⟨-, before, entry, after, heq, hbefore, hupper⟩
      refine ⟨before, entry, after, heq, fun e he => ?_, ?_⟩
      · exact (resolveEntry_ok_iff (by rw [heq]; exact List.mem_append_left _ he)).mpr (hbefore e he)
      · exact (resolveEntry_missing_iff hcounted (by simp [heq])).mpr hupper
  · rw [resolveEntries_of_not_counted hcounted]
    refine iff_of_false (fun h => ?_) fun h => hcounted h.counted
    exact absurd (Except.error.inj h) (by decide)

theorem resolveEntries_rejection {error : HttpError} (h : resolveEntries db command = .error error) :
    error = internalServerError ∨ error ∈ postRejections := by
  by_cases hcounted : Counted db (postedWallets command)
  · rw [resolveEntries_of_counted hcounted, mapM_eq_error_iff] at h
    obtain ⟨-, entry, -, -, -, herror⟩ := h
    rw [resolveEntry_eq] at herror
    split at herror
    · cases herror
      exact .inl rfl
    split at herror
    · cases herror
      exact .inr (by decide)
    · cases herror
  · rw [resolveEntries_of_not_counted hcounted] at h
    cases h
    exact .inr (by decide)

theorem validateResolved_rejection {posting : ResolvedPosting} {error : HttpError}
    (h : validateResolved posting = .error error) : error ∈ postRejections := by
  unfold validateResolved at h
  repeat' split at h
  all_goals cases h
  all_goals decide

/-! ## Where a posting breaks off -/

/-- A posting, or an exception of `PostingService.post`. -/
def AnswersPost (outcome : Outcome) : Prop :=
  (∃ response, outcome = .posting response) ∨ ∃ error ∈ postRejections, outcome = .error error

theorem not_answersPost : ¬ AnswersPost (.error internalServerError) := by
  rintro (⟨response, h⟩ | ⟨error, hmem, h⟩)
  · cases h
  · cases h
    revert hmem
    decide

/-- A statement after which `post` goes on, or answers as it should. -/
def Next.Answers (next : Next) : Prop := ∀ outcome, next = .answer outcome → AnswersPost outcome

theorem answers_goto {pc : Pc} : (Next.goto pc).Answers := fun _ h => nomatch h

theorem answers_rejection {error : HttpError} (h : error ∈ postRejections) :
    (Next.answer (.error error)).Answers := by
  rintro _ ⟨⟩
  exact .inr ⟨error, h, rfl⟩

theorem answers_posting {response : LedgerPosting} : (Next.answer (.posting response)).Answers := by
  rintro _ ⟨⟩
  exact .inl ⟨response, rfl⟩

/-- A statement ends in an error that is none of the service's exactly under the condition. -/
def BreaksIff (condition : Prop) (next : Next) : Prop :=
  (condition ∧ next = .answer (.error internalServerError)) ∨ (¬ condition ∧ next.Answers)

theorem enterPostResolved_answers (attempted : Attempted) : (enterPostResolved attempted).Answers := by
  unfold enterPostResolved
  split
  · exact answers_goto
  · next herror => exact answers_rejection (validateResolved_rejection herror)

theorem afterLookup_answers {externalReference : Uuid} {commandHash : Digest} {next : Next}
    (hnext : next.Answers) : (afterLookup db externalReference commandHash next).Answers := by
  rcases afterLookup_cases db externalReference commandHash next with
    ⟨tx, -, -, -, heq⟩ | ⟨tx, -, -, -, heq⟩ | ⟨-, heq⟩
  · rw [heq]
    exact answers_posting
  · rw [heq]
    exact answers_rejection (by decide)
  · rwa [heq]

theorem runPostAccounts_breaksIff {failBeforeCommit : Bool} :
    BreaksIff (Dereferences db command) (runPostAccounts config db command failBeforeCommit) := by
  rw [← resolveEntries_missing_iff]
  unfold runPostAccounts
  -- What the lookups refuse by a check of theirs is an exception of the service.
  cases hresolve : resolveEntries db command with
  | error error =>
    rcases resolveEntries_rejection hresolve with rfl | hmem
    · exact .inl ⟨rfl, rfl⟩
    · refine .inr ⟨fun h => ?_, answers_rejection hmem⟩
      cases h
      revert hmem
      decide
  | ok entries =>
    refine .inr ⟨(fun h => nomatch h), ?_⟩
    dsimp only
    split
    · exact answers_goto
    · exact enterPostResolved_answers _

/-- A clearing account passes its check, so only a unique index refuses it. -/
theorem createAccount_clearing {id : Uuid} {currency : Currency} :
    createAccount db (clearingAccount id currency) ≠ .error .rejected := by
  have haccount : ∀ a ∈ [clearingAccount id currency], accountsSchema.check a = true := by
    intro a ha
    rw [List.mem_singleton.mp ha]
    rfl
  intro h
  unfold createAccount at h
  rcases bind_eq_error h with ha | ⟨accounts, -, h⟩
  · rcases db.accounts.insertMany_of_check _ haccount with ⟨_, hok, -⟩ | hunique
    · rw [hok] at ha
      cases ha
    · rw [hunique] at ha
      cases ha
  rcases bind_eq_error h with hb | ⟨balances, -, h⟩
  · rcases db.balances.insertMany_of_check _ (fun _ _ => rfl) with ⟨_, hok, -⟩ | hunique
    · rw [hok] at hb
      cases hb
    · rw [hunique] at hb
      cases hb
  · cases h

/-- The clearing account whose creation was refused as a duplicate is not there. -/
def ClearingLost (db : Database) (currency : Currency) (clearing : EnsureClearing) : Prop :=
  clearing = .refind ∧ db.findClearing currency = none

theorem runEnsureClearing_cases (c : Choice) (db : Database) (currency : Currency)
    (clearing : EnsureClearing) :
    (ClearingLost db currency clearing ∧
      (runEnsureClearing c db currency clearing).2 = .error internalServerError) ∨
    (¬ ClearingLost db currency clearing ∧
      ∃ side, (runEnsureClearing c db currency clearing).2 = .ok side) := by
  cases clearing with
  | find =>
    refine .inr ⟨(fun h => nomatch h.1), ?_⟩
    cases hfind : db.findClearing currency with
    | none => exact ⟨.create, by simp [runEnsureClearing, hfind]⟩
    | some existing => exact ⟨.done existing.id, by simp [runEnsureClearing, hfind]⟩
  | create =>
    refine .inr ⟨(fun h => nomatch h.1), ?_⟩
    cases hcreate : createAccount db (clearingAccount c.id currency) with
    | ok db' => exact ⟨.done c.id, by simp [runEnsureClearing, hcreate]⟩
    | error error =>
      cases error with
      | uniqueViolation => exact ⟨.refind, by simp [runEnsureClearing, hcreate]⟩
      | rejected => exact absurd hcreate createAccount_clearing
  | refind =>
    cases hfind : db.findClearing currency with
    | none => exact .inl ⟨⟨rfl, hfind⟩, by simp [runEnsureClearing, hfind]⟩
    | some existing =>
      refine .inr ⟨fun h => ?_, .done existing.id, by simp [runEnsureClearing, hfind]⟩
      rw [h.2] at hfind
      cases hfind
  | done id => exact .inr ⟨(fun h => nomatch h.1), .done id, rfl⟩

theorem runPostClearing_breaksIff {c : Choice} {failBeforeCommit : Bool} {entries : List ResolvedEntry}
    {source target : EnsureClearing} :
    BreaksIff (ClearingLost db (if c.source then command.sourceCurrency else command.targetCurrency)
        (if c.source then source else target))
      (runPostClearing config c db command failBeforeCommit entries source target).2 := by
  have hcases := runEnsureClearing_cases c db
    (if c.source then command.sourceCurrency else command.targetCurrency)
    (if c.source then source else target)
  have hworks : (if c.source then runEnsureClearing c db command.sourceCurrency source
      else runEnsureClearing c db command.targetCurrency target) =
      runEnsureClearing c db (if c.source then command.sourceCurrency else command.targetCurrency)
        (if c.source then source else target) := by
    cases c.source <;> rfl
  unfold runPostClearing
  rw [hworks]
  rcases hcases with ⟨hlost, herror⟩ | ⟨hfound, side, hside⟩
  · simp only [herror]
    exact .inl ⟨hlost, rfl⟩
  · simp only [hside]
    refine .inr ⟨hfound, ?_⟩
    split
    · exact enterPostResolved_answers _
    · exact answers_goto

/-- The accounts allow a posting, and the database refuses its rows for another reason than a unique
index, or the caller asked for a failure. -/
structure Refuses (db : Database) (attempted : Attempted) (id : Uuid) : Prop where
  payable : Payable db attempted.posting
  refused : ¬ Declarable attempted.posting ∨ (¬ Taken db attempted.posting id ∧
    (¬ Enterable attempted.posting ∨ Unstorable db attempted.posting ∨
      attempted.failBeforeCommit = true))

theorem runAttempt_breaksIff {c : Choice} {attempted : Attempted} {number : ℕ}
    {failBeforeCommit : Bool} (hs : Sound db) (h : Resolved config db (.post command failBeforeCommit)
      attempted.posting attempted.commandHash) :
    BreaksIff ((c.fate = .serializationFailure ∧ 3 ≤ number) ∨
      (c.fate = .commit ∧ Refuses db attempted c.id)) (runAttempt c db attempted number).2 := by
  unfold runAttempt
  cases c.fate with
  | commit =>
    simp only [reduceCtorEq, false_and, false_or, true_and]
    -- One case for each way that the transaction ends.
    have hcommits := h.commits hs c.id
    generalize commitPosting db attempted.posting attempted.commandHash c.id = result at hcommits
    cases hcommits with
    | forbidden hnot hmem =>
      refine .inr ⟨fun hr => hnot hr.payable.allowed, answers_rejection ?_⟩
      simp only [List.mem_cons, List.not_mem_nil, or_false] at hmem
      rcases hmem with rfl | rfl <;> decide
    | unfunded hnot => exact .inr ⟨fun hr => hnot hr.payable.funded, answers_rejection (by decide)⟩
    | undeclared payable hnot => exact .inl ⟨⟨payable, .inl hnot⟩, rfl⟩
    | taken declared htaken =>
      refine .inr ⟨fun hr => ?_, answers_goto⟩
      rcases hr.refused with hnot | ⟨hnew, -⟩
      · exact hnot declared
      · exact hnew htaken
    | unentered payable new hnot => exact .inl ⟨⟨payable, .inr ⟨new, .inl hnot⟩⟩, rfl⟩
    | unsettled payable new hunstorable =>
      exact .inl ⟨⟨payable, .inr ⟨new, .inr (.inl hunstorable)⟩⟩, rfl⟩
    | committed payable declared new entered settled result =>
      dsimp only
      by_cases hfail : attempted.failBeforeCommit = true
      · rw [if_pos hfail]
        exact .inl ⟨⟨payable, .inr ⟨new, .inr (.inr hfail)⟩⟩, rfl⟩
      · rw [if_neg hfail]
        refine .inr ⟨fun hr => ?_, answers_posting⟩
        rcases hr.refused with hnot | ⟨-, hnot | hunstorable | hasked⟩
        · exact hnot declared
        · exact hnot entered
        · exact settled hunstorable
        · exact hfail hasked
  | serializationFailure =>
    simp only [reduceCtorEq, false_and, or_false, true_and, afterFailure]
    split
    · next hlt => exact .inr ⟨hlt.not_ge, answers_goto⟩
    · next hge => exact .inl ⟨not_lt.mp hge, rfl⟩
  | conflict =>
    refine .inr ⟨by simp, ?_⟩
    dsimp only
    split <;> exact answers_goto

/-- Where a statement of `post` ends in an error that is none of the service's. -/
def Breaks (db : Database) (c : Choice) : Pc → Prop
  | .postAccounts command _ => Dereferences db command
  | .postClearing command _ _ source target =>
    ClearingLost db (if c.source then command.sourceCurrency else command.targetCurrency)
      (if c.source then source else target)
  | .attempt attempted number => (c.fate = .serializationFailure ∧ 3 ≤ number) ∨
      (c.fate = .commit ∧ Refuses db attempted c.id)
  | _ => False

theorem advance_breaksIff {pc : Pc} {failBeforeCommit : Bool} (choice : Choice) (hs : Sound db)
    (hpc : PcOk config db (.post command failBeforeCommit) pc) :
    BreaksIff (Breaks db choice pc) (advance config choice db pc).2 := by
  cases pc with
  | postLookup => exact .inr ⟨id, afterLookup_answers answers_goto⟩
  | postAccounts => exact runPostAccounts_breaksIff
  | postClearing => exact runPostClearing_breaksIff
  | attempt => exact runAttempt_breaksIff hs hpc
  | recover => exact .inr ⟨id, afterLookup_answers (answers_rejection (by decide))⟩
  | reverseLookup => cases hpc.1
  | _ => cases hpc

section Runs

variable {ι : Type} [DecidableEq ι] {s s' : State ι}

/-- No statement of `post` breaks off, and what stands before the service does not fail. -/
def Unbroken (s : State ι) : Action ι → Prop
  | .run i choice => ∀ command failBeforeCommit pc,
      s.calls i = some ⟨.post command failBeforeCommit, .running pc⟩ → ¬ Breaks s.db choice pc
  | .refuse _ _ error => error ≠ internalServerError
  | _ => True

theorem validateFxShape_rejection {error : HttpError} (h : validateFxShape command = .error error) :
    error = invalidFxPosting := by
  unfold validateFxShape at h
  dsimp only at h
  generalize (if command.postingType = .fxTransfer then _ else _) = valid at h
  cases valid with
  | false => exact (Except.error.inj h).symm
  | true => cases h

theorem entry_not_internal {failBeforeCommit : Bool} :
    (Request.post command failBeforeCommit).entry config ≠ .answer (.error internalServerError) := by
  have hanswer : ∀ error : HttpError, error ≠ internalServerError →
      Next.answer (.error error) ≠ .answer (.error internalServerError) :=
    fun _ hne h => hne (Outcome.error.inj (Next.answer.inj h))
  cases hvalid : validPosting command with
  | false =>
    simp only [Request.entry, hvalid, Bool.not_false, if_true]
    exact hanswer _ (by decide)
  | true =>
    simp only [Request.entry, hvalid, Bool.not_true, Bool.false_eq_true, if_false]
    cases hshape : validateFxShape command with
    | ok =>
      intro h
      cases h
    | error error =>
      rw [validateFxShape_rejection hshape]
      exact hanswer _ (by decide)

/-- A call of `post` has not been answered with an error that is none of the service's. -/
def Whole (s : State ι) : Prop := ∀ i command failBeforeCommit,
  s.calls i ≠ some ⟨.post command failBeforeCommit, .answered (.error internalServerError)⟩

theorem Whole.step {a : Action ι} (hr : (system ι config).Reachable s) (hw : Whole s)
    (hok : Unbroken s a) (h : step config s a = some s') : Whole s' := by
  intro i command failBeforeCommit hc
  rcases step_cases h with ⟨j, request, next, -, rfl, hnew⟩ | ⟨j, choice, request, pc, rfl, hrun, rfl⟩ |
    ⟨j, request, pc, -, -, rfl⟩
  · rcases calls_of_setCall s.db hc with ⟨rfl, hcall⟩ | hold
    · obtain ⟨rfl, hprogress⟩ := Call.mk.inj hcall
      rcases hnew with ⟨rfl, rfl⟩ | ⟨error, rfl, rfl⟩
      · cases hentry : (Request.post command failBeforeCommit).entry config with
        | goto pc => simp [hentry, Next.progress] at hprogress
        | answer outcome =>
          rw [hentry] at hprogress
          cases hprogress
          exact entry_not_internal hentry
      · cases hprogress
        exact hok rfl
    · exact hw i command failBeforeCommit hold
  · rcases calls_of_setCall _ hc with ⟨rfl, hcall⟩ | hold
    · obtain ⟨rfl, hprogress⟩ := Call.mk.inj hcall
      rcases advance_breaksIff choice (sound_of_reachable hr)
        ((invariant_of_reachable hr).running i _ pc hrun) with ⟨hbreaks, -⟩ | ⟨-, hanswers⟩
      · exact hok command failBeforeCommit pc hrun hbreaks
      · cases hnext : (advance config choice s.db pc).2 with
        | goto pc' => simp [hnext, Next.progress] at hprogress
        | answer outcome =>
          rw [hnext] at hprogress
          cases hprogress
          exact not_answersPost (hanswers _ hnext)
    · exact hw i command failBeforeCommit hold
  · rcases calls_of_setCall s.db hc with ⟨rfl, hcall⟩ | hold
    · cases hcall
    · exact hw i command failBeforeCommit hold

/-- In every state, `balances` answers with the balances or an exception of its own unless an id of a
wallet with an account is spelled in upper case. A statement of `post` goes on or answers with the
posting or an exception of its own unless it breaks off, and a call none of whose statements breaks off
is never answered with another error. -/
theorem wallets_dereferenced (h : (system ι config).Reachable s) :
    (∀ walletIds, validQuery walletIds = true →
      (AnswersBalances s.db walletIds ↔
        ¬ (Counted s.db walletIds ∧ ∃ id ∈ walletIds, id.upper ≠ 0))) ∧
    (∀ i command failBeforeCommit pc choice s',
      s.calls i = some ⟨.post command failBeforeCommit, .running pc⟩ →
      step config s (.run i choice) = some s' →
      ((∀ outcome, s'.calls i = some ⟨.post command failBeforeCommit, .answered outcome⟩ →
        AnswersPost outcome) ↔ ¬ Breaks s.db choice pc)) ∧
    ((system ι config).ReachableBy Unbroken s → Whole s) := by
  refine ⟨fun walletIds _ => answersBalances_iff (sound_of_reachable h).balance,
    fun i command failBeforeCommit pc choice s' hcall hstep => ?_, fun hunbroken => ?_⟩
  · have hprogress : ∀ outcome,
        s'.calls i = some ⟨.post command failBeforeCommit, .answered outcome⟩ ↔
          (advance config choice s.db pc).2 = .answer outcome := by
      intro outcome
      simp only [step, hcall, Option.some.injEq] at hstep
      subst hstep
      rw [State.setCall_calls_self]
      cases (advance config choice s.db pc).2 with
      | goto pc' => simp [Next.progress]
      | answer outcome' => simp [Next.progress]
    simp only [hprogress]
    rcases advance_breaksIff choice (sound_of_reachable h)
      ((invariant_of_reachable h).running i _ pc hcall) with ⟨hbreaks, hfail⟩ | ⟨hgoes, hanswers⟩
    · exact iff_of_false (fun hall => not_answersPost (hall _ hfail)) (not_not.mpr hbreaks)
    · exact iff_of_true hanswers hgoes
  · refine System.ReachableBy.invariant (P := Whole) (fun i command failBeforeCommit hc => ?_)
      (fun s a s' hr hw hok hstep => hw.step hr.reachable hok hstep) hunbroken
    cases hc

end Runs

/-- The amount `0.0`. -/
def noAmount : Text := ⟨0, 1⟩

/-- Two wallets are provisioned, and a payment of an amount between them waits to look its accounts up. -/
def paymentRun (amount : Text) : List (Action ℕ) :=
  provisionRun 0 11 1 ++ provisionRun 1 12 2 ++ [.start 2 (.post (paymentOf amount) false), .run 2 {}]

/-- The theorem for a wallet whose id ends in `b`, and for a payment of ten dollars from it. -/
theorem wallets_dereferenced_lower : ∃ s,
    (system ℕ fundingConfig).run .initial (paymentRun tenDollars.val) = some s ∧
      AnswersBalances s.db [.ofUuid 0xb] ∧
      ∀ s', step fundingConfig s (.run 2 {}) = some s' → ∀ outcome,
        s'.calls 2 = some ⟨.post (paymentOf tenDollars.val) false, .answered outcome⟩ →
        AnswersPost outcome := by
  have hrun : ((system ℕ fundingConfig).run .initial (paymentRun tenDollars.val)).map
      (fun s => s.calls 2) = some (some ⟨.post (paymentOf tenDollars.val) false,
        .running (.postAccounts (paymentOf tenDollars.val) false)⟩) := by decide +kernel
  obtain ⟨s, hs, hcall⟩ := Option.map_eq_some_iff.mp hrun
  refine ⟨s, hs, ((wallets_dereferenced (System.reachable_of_run hs)).1 _ (by decide)).mpr ?_,
    fun s' hstep => ((wallets_dereferenced (System.reachable_of_run hs)).2.1 2 _ false _ {} s' hcall
      hstep).mpr ?_⟩
  · rintro ⟨-, id, hid, hupper⟩
    rw [List.mem_singleton.mp hid] at hupper
    exact hupper rfl
  · rintro ⟨-, before, entry, after, heq, -, hupper⟩
    have hmem : entry ∈ (paymentOf tenDollars.val).entries := by rw [heq]; simp
    simp only [paymentOf, List.mem_cons, List.not_mem_nil, or_false] at hmem
    rcases hmem with rfl | rfl <;> exact hupper rfl

/-- An id that ends in `AB` is counted and then missing, and a payment of zero that names its wallets in
lower case is refused by a CHECK constraint. -/
theorem upper_wallet_missing :
    (¬ ∀ s, (system ℕ fundingConfig).Reachable s → ∀ walletIds,
      validQuery walletIds = true → AnswersBalances s.db walletIds) ∧
    ¬ ∀ s, (system ℕ fundingConfig).Reachable s → ∀ i command outcome,
      validPosting command = true → s.calls i = some ⟨.post command false, .answered outcome⟩ →
      AnswersPost outcome := by
  constructor
  · intro hall
    have hrun : ((system ℕ fundingConfig).run .initial (provisionRun 0 0xab 1)).map
        (fun s => balances s.db [⟨0xab, 1⟩]) = some (.error internalServerError) := by decide +kernel
    obtain ⟨s, hs, hbalances⟩ := Option.map_eq_some_iff.mp hrun
    rcases hall s (System.reachable_of_run hs) [⟨0xab, 1⟩] (by decide) with
      ⟨bs, hok, -⟩ | ⟨error, hmem, herror⟩
    · rw [hbalances] at hok
      cases hok
    · rw [hbalances] at herror
      cases herror
      revert hmem
      decide
  · intro hall
    have hrun : ((system ℕ fundingConfig).run .initial
        (paymentRun noAmount ++ [.run 2 {}, .run 2 { id := 3 }])).map (fun s => s.calls 2) =
        some (some ⟨.post (paymentOf noAmount) false, .answered (.error internalServerError)⟩) := by
      decide +kernel
    obtain ⟨s, hs, hcall⟩ := Option.map_eq_some_iff.mp hrun
    exact not_answersPost (hall s (System.reachable_of_run hs) 2 _ _ (by decide) hcall)

end NovaPay.Ledger
