import NovaPay.Ledger.Effects

/-!
# The invariant of the Ledger's calls

What every call knows at the statement it waits at, what it may answer, and where a committed
transaction comes from. Rows are only added, so what holds of them once holds for good.
-/

namespace NovaPay.Ledger

open DecimalArithmetic Relational TransitionSystem

variable {config : Config} {db db' : Database} {request : Request}

/-- The reference a request posts under. -/
def Request.externalReference : Request → Option Uuid
  | .provision .. => none
  | .post command _ => some command.externalReference.value
  | .fund command => some command.externalReference.value
  | .reverse _ command => some command.externalReference.value

def Request.commandHash (config : Config) : Request → Option Digest
  | .provision .. => none
  | .post command _ => some (postHash config command)
  | .fund command => some (fundHash config command)
  | .reverse transactionId command => some (reverseHash config transactionId command)

/-- Rows of the journal and accounts are added, never changed or removed. -/
structure Grows (db db' : Database) : Prop where
  accounts : db.accounts.rows <+: db'.accounts.rows
  transactions : db.transactions.rows <+: db'.transactions.rows

theorem Grows.refl (db : Database) : Grows db db := ⟨List.prefix_refl _, List.prefix_refl _⟩

theorem Grows.trans {db'' : Database} (h : Grows db db') (k : Grows db' db'') : Grows db db'' :=
  ⟨h.accounts.trans k.accounts, h.transactions.trans k.transactions⟩

theorem Opened.grows {account : LedgerAccount} (h : Opened db db' account) : Grows db db' := by
  refine ⟨h.accounts ▸ List.prefix_append _ _, ?_⟩
  rw [h.transactions]

theorem Committed.grows {command : ResolvedPosting} {commandHash : Digest} {id : Uuid}
    {tx : LedgerTransaction} (h : Committed db db' command commandHash id tx) : Grows db db' := by
  refine ⟨?_, h.transactions ▸ List.prefix_append _ _⟩
  rw [h.accounts]

/-- A resolved entry carries an entry of the command to the account of its wallet. -/
structure Resolves (db : Database) (command : PostingCommand) (entry : PostingEntry)
    (e : ResolvedEntry) : Prop where
  account : ∃ a ∈ db.accounts.rows, a.walletId = some entry.walletId.value ∧ a.id = e.ledgerAccountId
  direction : e.direction = entry.direction
  amount : e.amount = entry.amount.value
  currency : e.currency = entry.currency
  fxQuoteId : e.fxQuoteId = command.fxQuoteId.map UuidText.value
  lockedFxRate : e.lockedFxRate = command.lockedFxRate.map Text.value

def IsClearing (db : Database) (id : Uuid) : Prop :=
  ∃ a ∈ db.accounts.rows, a.id = id ∧ a.accountType = .fxClearing

theorem IsClearing.mono {id : Uuid} (hg : Grows db db') (h : IsClearing db id) :
    IsClearing db' id := by
  obtain ⟨a, ha, h⟩ := h
  exact ⟨a, hg.accounts.subset ha, h⟩

/-- The clearing legs of a posting: none, but for an FX transfer. -/
def Clears (db : Database) (command : PostingCommand) (clearing : List ResolvedEntry) : Prop :=
  (command.postingType ≠ .fxTransfer ∧ clearing = []) ∨
    (command.postingType = .fxTransfer ∧ ∃ sourceId targetId, IsClearing db sourceId ∧
      IsClearing db targetId ∧ clearing = clearingEntries command sourceId targetId)

theorem Clears.mono {command : PostingCommand} {clearing : List ResolvedEntry} (hg : Grows db db')
    (h : Clears db command clearing) : Clears db' command clearing := by
  rcases h with h | ⟨htype, sourceId, targetId, hs, ht, heq⟩
  · exact .inl h
  · exact .inr ⟨htype, sourceId, targetId, hs.mono hg, ht.mono hg, heq⟩

/-- The posting a request resolves to, and the hash it is committed with. -/
inductive Resolved (config : Config) (db : Database) : Request → ResolvedPosting → Digest → Prop
  | post {command : PostingCommand} {failBeforeCommit : Bool} {entries clearing : List ResolvedEntry}
      (valid : validPosting command = true) (shape : validateFxShape command = .ok ())
      (resolves : List.Forall₂ (Resolves db command) command.entries entries)
      (clears : Clears db command clearing) :
      Resolved config db (.post command failBeforeCommit)
        (resolvePosting command (entries ++ clearing)) (postHash config command)
  | fund {command : FundWallet} {clearingId customerId : Uuid} :
      Resolved config db (.fund command) (resolveFunding command clearingId customerId)
        (fundHash config command)
  | reverse {command : ReversePosting} {original : LedgerTransaction}
      (original_mem : original ∈ db.transactions.rows) :
      Resolved config db (.reverse original.id command) (resolveReversal command original)
        (reverseHash config original.id command)

theorem Resolves.mono {command : PostingCommand} {entry : PostingEntry} {e : ResolvedEntry}
    (hg : Grows db db') (h : Resolves db command entry e) : Resolves db' command entry e := by
  obtain ⟨a, ha, hw⟩ := h.account
  exact { h with account := ⟨a, hg.accounts.subset ha, hw⟩ }

theorem Resolved.mono {posting : ResolvedPosting} {commandHash : Digest} (hg : Grows db db')
    (h : Resolved config db request posting commandHash) :
    Resolved config db' request posting commandHash := by
  cases h with
  | post valid shape resolves clears =>
    exact .post valid shape (resolves.imp fun _ _ h => h.mono hg) (clears.mono hg)
  | fund => exact .fund
  | reverse original_mem => exact .reverse (hg.transactions.subset original_mem)

theorem Resolved.externalReference {posting : ResolvedPosting} {commandHash : Digest}
    (h : Resolved config db request posting commandHash) :
    request.externalReference = some posting.externalReference := by
  cases h <;> rfl

theorem Resolved.commandHash {posting : ResolvedPosting} {commandHash : Digest}
    (h : Resolved config db request posting commandHash) :
    request.commandHash config = some commandHash := by
  cases h <;> rfl

/-- A finished `ensureClearingAccount` has the id of a clearing account. -/
def EnsureClearing.Ok (db : Database) : EnsureClearing → Prop
  | .done id => IsClearing db id
  | _ => True

theorem EnsureClearing.Ok.mono {clearing : EnsureClearing} (hg : Grows db db')
    (h : clearing.Ok db) : clearing.Ok db' := by
  cases clearing with
  | done id => exact IsClearing.mono hg h
  | _ => trivial

/-- What a call knows at the statement it waits at. -/
def PcOk (config : Config) (db : Database) (request : Request) : Pc → Prop
  | .provisionFind walletId currency | .provisionCreate walletId currency
  | .provisionRefind walletId currency => request = .provision walletId currency
  | .postLookup command failBeforeCommit | .postAccounts command failBeforeCommit =>
    request = .post command failBeforeCommit ∧ validPosting command = true ∧
      validateFxShape command = .ok ()
  | .postClearing command failBeforeCommit entries source target =>
    request = .post command failBeforeCommit ∧ validPosting command = true ∧
      validateFxShape command = .ok () ∧ command.postingType = .fxTransfer ∧
      List.Forall₂ (Resolves db command) command.entries entries ∧ source.Ok db ∧ target.Ok db
  | .fundAccount command | .fundClearing command _ _ | .fundLookup command _ _ =>
    request = .fund command
  | .reverseRead transactionId command => request = .reverse transactionId command
  | .reverseLookup command original _ =>
    request = .reverse original.id command ∧ original ∈ db.transactions.rows
  | .attempt attempted _ => Resolved config db request attempted.posting attempted.commandHash
  | .recover externalReference commandHash =>
    request.externalReference = some externalReference ∧ request.commandHash config = some commandHash

/-- A successful answer shows the transaction committed under the reference and hash of the
request. -/
def AnswerOk (config : Config) (db : Database) (request : Request) (response : LedgerPosting) : Prop :=
  ∃ tx ∈ db.transactions.rows, request.externalReference = some tx.externalReference ∧
    request.commandHash config = some tx.commandHash ∧ response = toResponse tx

def NextOk (config : Config) (db : Database) (request : Request) : Next → Prop
  | .goto pc => PcOk config db request pc
  | .answer (.posting response) => AnswerOk config db request response
  | .answer _ => True

/-- What one statement of a call does to the database, with what the call does next. -/
inductive Change (config : Config) (db : Database) (request : Request) : Database → Next → Prop
  | unchanged {next : Next} : Change config db request db next
  | provisioned {db' : Database} {id walletId : Uuid} {currency : Currency} {balance : LedgerBalance}
      (opened : Opened db db' (customerAccount id walletId currency)) :
      Change config db request db' (.answer (.balance balance))
  | cleared {db' : Database} {id : Uuid} {currency : Currency} {next : Next}
      (opened : Opened db db' (clearingAccount id currency)) : Change config db request db' next
  | committed {db' : Database} {posting : ResolvedPosting} {commandHash : Digest} {id : Uuid}
      {tx : LedgerTransaction} (resolved : Resolved config db request posting commandHash)
      (committed : Committed db db' posting commandHash id tx) :
      Change config db request db' (.answer (.posting (toResponse tx)))

theorem Change.grows {next : Next} (h : Change config db request db' next) : Grows db db' := by
  cases h with
  | unchanged => exact .refl db
  | provisioned opened => exact opened.grows
  | cleared opened => exact opened.grows
  | committed _ committed => exact committed.grows

theorem PcOk.mono {pc : Pc} (hg : Grows db db') (h : PcOk config db request pc) :
    PcOk config db' request pc := by
  cases pc with
  | postClearing command failBeforeCommit entries source target =>
    obtain ⟨hr, hv, hs, ht, he, hsource, htarget⟩ := h
    exact ⟨hr, hv, hs, ht, he.imp fun _ _ h => h.mono hg, hsource.mono hg, htarget.mono hg⟩
  | reverseLookup command original reversed => exact ⟨h.1, hg.transactions.subset h.2⟩
  | attempt attempted number => exact Resolved.mono hg h
  | _ => exact h

theorem AnswerOk.mono {response : LedgerPosting} (hg : Grows db db')
    (h : AnswerOk config db request response) : AnswerOk config db' request response := by
  obtain ⟨tx, htx, h⟩ := h
  exact ⟨tx, hg.transactions.subset htx, h⟩

/-- A statement changes the database as it may, and what follows it is as it should be. -/
def StatementOk (config : Config) (db : Database) (request : Request) (result : Database × Next) :
    Prop :=
  Change config db request result.1 result.2 ∧ NextOk config result.1 request result.2

theorem StatementOk.read {next : Next} (h : NextOk config db request next) :
    StatementOk config db request (db, next) := ⟨.unchanged, h⟩

section Statements

variable {c : Choice} {posting : ResolvedPosting} {commandHash : Digest}

theorem runProvisionFind_ok {walletId : UuidText} {currency : Currency}
    (hr : request = .provision walletId currency) :
    NextOk config db request (runProvisionFind db walletId currency) := by
  unfold runProvisionFind
  split
  · split
    · trivial
    · unfold toBalance
      split <;> trivial
  · exact hr

theorem runProvisionCreate_ok {walletId : UuidText} {currency : Currency}
    (hr : request = .provision walletId currency) :
    StatementOk config db request (runProvisionCreate c db walletId currency) := by
  unfold runProvisionCreate
  dsimp only
  split
  · next db' h =>
    have hopened := createAccount_ok h
    rw [hopened.findBalance]
    exact ⟨.provisioned hopened, trivial⟩
  · exact .read hr
  · exact .read trivial

theorem runProvisionRefind_ok {walletId : UuidText} {currency : Currency} :
    NextOk config db request (runProvisionRefind db walletId currency) := by
  unfold runProvisionRefind toBalance
  split
  · split
    · split <;> trivial
    · trivial
  · trivial

theorem runEnsureClearing_ok {currency : Currency} {clearing : EnsureClearing} {next : Next} :
    Change config db request (runEnsureClearing c db currency clearing).1 next := by
  unfold runEnsureClearing
  split
  · split <;> exact .unchanged
  · split
    · next db' h => exact .cleared (createAccount_ok h)
    · exact .unchanged
    · exact .unchanged
  · split <;> exact .unchanged
  · exact .unchanged

theorem findClearing_ok {currency : Currency} {a : LedgerAccount}
    (h : db.findClearing currency = some a) : IsClearing db a.id := by
  have hkind := List.find?_some h
  simp only [Bool.and_eq_true, decide_eq_true_eq] at hkind
  exact ⟨a, List.mem_of_find?_eq_some h, rfl, hkind.1⟩

theorem runEnsureClearing_side {currency : Currency} {clearing side : EnsureClearing}
    (hc : clearing.Ok db) (h : (runEnsureClearing c db currency clearing).2 = .ok side) :
    side.Ok (runEnsureClearing c db currency clearing).1 := by
  revert h
  unfold runEnsureClearing
  split
  · split
    · next hfind =>
      rintro ⟨⟩
      exact findClearing_ok hfind
    · rintro ⟨⟩
      trivial
  · split
    · next db' hcreate =>
      rintro ⟨⟩
      have hmem : clearingAccount c.id currency ∈ db'.accounts.rows := by
        rw [(createAccount_ok hcreate).accounts]
        exact List.mem_append_right _ (List.mem_singleton.mpr rfl)
      exact ⟨_, hmem, rfl, rfl⟩
    · rintro ⟨⟩
      trivial
    · rintro ⟨⟩
  · split
    · next hfind =>
      rintro ⟨⟩
      exact findClearing_ok hfind
    · rintro ⟨⟩
  · rintro ⟨⟩
    exact hc

/-- A duplicate is answered with the transaction of its reference and hash. -/
theorem afterLookup_ok {externalReference : Uuid} {next : Next}
    (href : request.externalReference = some externalReference)
    (hhash : request.commandHash config = some commandHash)
    (hnext : NextOk config db request next) :
    NextOk config db request (afterLookup db externalReference commandHash next) := by
  unfold afterLookup findIdempotent
  cases hfind : db.findByReference externalReference with
  | none => exact hnext
  | some existing =>
    dsimp only
    by_cases hne : existing.commandHash ≠ commandHash
    · rw [if_pos hne]
      trivial
    · rw [if_neg hne]
      obtain ⟨hmem, rfl⟩ := Database.findByReference_eq_some_iff.mp hfind
      exact ⟨existing, hmem, href, hhash.trans (congrArg some (not_not.mp hne).symm), rfl⟩

theorem enterPostResolved_ok {attempted : Attempted}
    (h : Resolved config db request attempted.posting attempted.commandHash) :
    NextOk config db request (enterPostResolved attempted) := by
  unfold enterPostResolved
  split
  · exact h
  · trivial

theorem resolveEntries_ok {command : PostingCommand} {entries : List ResolvedEntry}
    (h : resolveEntries db command = .ok entries) :
    List.Forall₂ (Resolves db command) command.entries entries := by
  unfold resolveEntries at h
  dsimp only at h
  split at h
  · cases h
  refine (mapM_eq_ok h).imp fun entry e he => ?_
  unfold resolveEntry at he
  split at he
  · cases he
  next account hfind =>
  split at he
  · cases he
  cases he
  have hmem := List.mem_of_find?_eq_some hfind
  have hwallet := List.find?_some hfind
  simp only [decide_eq_true_eq, Option.map_eq_some_iff] at hwallet
  obtain ⟨w, hw, htext⟩ := hwallet
  refine ⟨⟨account, (List.mem_filter.mp hmem).1, ?_, rfl⟩, rfl, rfl, rfl, rfl, rfl⟩
  rw [hw, ← htext, UuidText.value_ofUuid]

theorem runPostAccounts_ok {command : PostingCommand} {failBeforeCommit : Bool}
    (hr : request = .post command failBeforeCommit) (hvalid : validPosting command = true)
    (hshape : validateFxShape command = .ok ()) :
    NextOk config db request (runPostAccounts config db command failBeforeCommit) := by
  unfold runPostAccounts
  split
  · trivial
  next entries h =>
  have hresolves := resolveEntries_ok h
  split
  · next htype => exact ⟨hr, hvalid, hshape, htype, hresolves, trivial, trivial⟩
  · next htype =>
    refine enterPostResolved_ok ?_
    have hresolved : Resolved config db (.post command failBeforeCommit)
        (resolvePosting command (entries ++ [])) (postHash config command) :=
      .post hvalid hshape hresolves (.inl ⟨htype, rfl⟩)
    rw [List.append_nil, ← hr] at hresolved
    exact hresolved

theorem runPostClearing_ok {command : PostingCommand} {failBeforeCommit : Bool}
    {entries : List ResolvedEntry} {source target : EnsureClearing}
    (hpc : PcOk config db request (.postClearing command failBeforeCommit entries source target)) :
    StatementOk config db request
      (runPostClearing config c db command failBeforeCommit entries source target) := by
  obtain ⟨rfl, hvalid, hshape, htype, hresolves, hsource, htarget⟩ := hpc
  have hchange : ∀ next, Change config db (.post command failBeforeCommit) (if c.source then
      runEnsureClearing c db command.sourceCurrency source
      else runEnsureClearing c db command.targetCurrency target).1 next := by
    intro next
    split <;> exact runEnsureClearing_ok
  have hgrows := (hchange (.answer (.error internalServerError))).grows
  have hside : ∀ side, (if c.source then runEnsureClearing c db command.sourceCurrency source
      else runEnsureClearing c db command.targetCurrency target).2 = .ok side →
      side.Ok (if c.source then runEnsureClearing c db command.sourceCurrency source
        else runEnsureClearing c db command.targetCurrency target).1 := by
    intro side
    split
    · exact runEnsureClearing_side hsource
    · exact runEnsureClearing_side htarget
  unfold runPostClearing
  dsimp only
  split
  · exact ⟨hchange _, trivial⟩
  next side hok =>
  -- the account that the step did not work on is as it was
  have hsides : (if c.source then side else source).Ok _ ∧ (if c.source then target else side).Ok _ :=
    ⟨by split <;> [exact hside side hok; exact hsource.mono hgrows],
      by split <;> [exact htarget.mono hgrows; exact hside side hok]⟩
  split
  · next sourceId targetId hs ht =>
    rw [hs, ht] at hsides
    exact ⟨hchange _, enterPostResolved_ok (.post hvalid hshape
      (hresolves.imp fun _ _ h => h.mono hgrows)
      (.inr ⟨htype, sourceId, targetId, hsides.1, hsides.2, rfl⟩))⟩
  · exact ⟨hchange _, rfl, hvalid, hshape, htype, hresolves.imp fun _ _ h => h.mono hgrows, hsides⟩

theorem runFundAccount_ok {command : FundWallet} (hr : request = .fund command) :
    NextOk config db request (runFundAccount db command) := by
  unfold runFundAccount
  split
  · split
    · trivial
    · exact hr
  · trivial

theorem runFundClearing_ok {command : FundWallet} {customerId : Uuid} {clearing : EnsureClearing}
    (hr : request = .fund command) :
    StatementOk config db request (runFundClearing c db command customerId clearing) := by
  have hchange : ∀ next, Change config db request
      (runEnsureClearing c db command.currency clearing).1 next := fun next => runEnsureClearing_ok
  unfold runFundClearing
  split <;> next heq => rw [heq] at hchange; exact ⟨hchange _, by first | exact hr | trivial⟩

theorem runReverseRead_ok {transactionId : Uuid} {command : ReversePosting}
    (hr : request = .reverse transactionId command) :
    NextOk config db request (runReverseRead db transactionId command) := by
  unfold runReverseRead
  split
  · trivial
  next original hfind =>
  split
  · trivial
  · obtain ⟨hmem, rfl⟩ := findBy_some hfind
    exact ⟨hr, hmem⟩

theorem runReverseLookup_ok {command : ReversePosting} {original : LedgerTransaction}
    {reversed : Bool} (hr : request = .reverse original.id command)
    (hmem : original ∈ db.transactions.rows) :
    NextOk config db request (runReverseLookup config db command original reversed) := by
  subst hr
  refine afterLookup_ok rfl rfl ?_
  split
  · trivial
  · exact enterPostResolved_ok (.reverse hmem)

theorem afterFailure_ok {attempted : Attempted} {number : ℕ} {failure : PostingFailure}
    (h : Resolved config db request attempted.posting attempted.commandHash) :
    NextOk config db request (afterFailure attempted number failure) := by
  cases failure with
  | http error => trivial
  | uniqueViolation => exact ⟨h.externalReference, h.commandHash⟩
  | serializationFailure =>
    unfold afterFailure
    dsimp only
    split
    · exact h
    · trivial
  | other => trivial

/-- An attempt that commits is answered with what it committed; any other changes nothing. -/
theorem runAttempt_ok {attempted : Attempted} {number : ℕ}
    (h : Resolved config db request attempted.posting attempted.commandHash) :
    StatementOk config db request (runAttempt c db attempted number) := by
  unfold runAttempt
  split
  · split
    · next db' tx hcommit =>
      split
      · exact .read trivial
      · have hcommitted := commitPosting_ok hcommit
        refine ⟨.committed h hcommitted, tx, ?_, ?_, ?_, rfl⟩
        · exact hcommitted.transactions ▸ List.mem_append_right _ (List.mem_singleton.mpr rfl)
        · exact hcommitted.stored.externalReference ▸ h.externalReference
        · exact hcommitted.stored.commandHash ▸ h.commandHash
    · exact .read (afterFailure_ok h)
  · exact .read (afterFailure_ok h)
  · split
    · exact .read (afterFailure_ok h)
    · exact .read h

theorem advance_ok {pc : Pc} (hpc : PcOk config db request pc) :
    StatementOk config db request (advance config c db pc) := by
  cases pc with
  | provisionFind walletId currency => exact .read (runProvisionFind_ok hpc)
  | provisionCreate walletId currency => exact runProvisionCreate_ok hpc
  | provisionRefind walletId currency => exact .read runProvisionRefind_ok
  | postLookup command failBeforeCommit =>
    obtain ⟨rfl, hvalid, hshape⟩ := hpc
    exact .read (afterLookup_ok rfl rfl ⟨rfl, hvalid, hshape⟩)
  | postAccounts command failBeforeCommit =>
    exact .read (runPostAccounts_ok hpc.1 hpc.2.1 hpc.2.2)
  | postClearing command failBeforeCommit entries source target => exact runPostClearing_ok hpc
  | fundAccount command => exact .read (runFundAccount_ok hpc)
  | fundClearing command customerId clearing => exact runFundClearing_ok hpc
  | fundLookup command customerId clearingId =>
    obtain rfl : request = .fund command := hpc
    exact .read (afterLookup_ok rfl rfl (enterPostResolved_ok .fund))
  | reverseRead transactionId command => exact .read (runReverseRead_ok hpc)
  | reverseLookup command original reversed => exact .read (runReverseLookup_ok hpc.1 hpc.2)
  | attempt attempted number => exact runAttempt_ok hpc
  | recover externalReference commandHash => exact .read (afterLookup_ok hpc.1 hpc.2 trivial)

end Statements

theorem entry_ok : NextOk config db request (request.entry config) := by
  cases request with
  | provision walletId currency => exact rfl
  | post command failBeforeCommit =>
    unfold Request.entry
    dsimp only
    split
    · trivial
    next hvalid =>
    split
    · next hshape => exact ⟨rfl, by simpa using hvalid, hshape⟩
    · trivial
  | fund command =>
    unfold Request.entry
    dsimp only
    split
    · exact rfl
    · trivial
  | reverse transactionId command => exact rfl

/-- A committed transaction stores what a request resolved to. -/
def Posted (config : Config) (db : Database) (request : Request) (tx : LedgerTransaction) : Prop :=
  ∃ posting, Resolved config db request posting tx.commandHash ∧
    StoresPosting posting tx.commandHash tx.id tx

theorem Posted.mono {tx : LedgerTransaction} (hg : Grows db db') (h : Posted config db request tx) :
    Posted config db' request tx := by
  obtain ⟨posting, hresolved, hstores⟩ := h
  exact ⟨posting, hresolved.mono hg, hstores⟩

/-- The invariant of the calls: each knows what its statement needs, shows what is committed, and
each committed transaction was posted by one of them. -/
structure Invariant {ι : Type} (config : Config) (s : State ι) : Prop where
  running : ∀ i request pc, s.calls i = some ⟨request, .running pc⟩ → PcOk config s.db request pc
  answered : ∀ i request response, s.calls i = some ⟨request, .answered (.posting response)⟩ →
    AnswerOk config s.db request response
  committed : ∀ tx ∈ s.db.transactions.rows, ∃ i request,
    s.calls i = some ⟨request, .answered (.posting (toResponse tx))⟩ ∧ Posted config s.db request tx

section Step

variable {ι : Type} [DecidableEq ι] {s s' : State ι} {i : ι} {a : Action ι}

omit [DecidableEq ι] in
theorem invariant_initial : Invariant config (State.initial : State ι) :=
  ⟨by simp [State.initial], by simp [State.initial], by simp [State.initial, Database.empty]⟩

/-- The steps of the service: a call arrives, or is refused before it; it runs one statement; it is
stopped. -/
theorem step_cases (h : step config s a = some s') :
    (∃ i request next, s.calls i = none ∧ s' = s.setCall i ⟨request, next.progress⟩ ∧
      ((a = .start i request ∧ next = request.entry config) ∨
        ∃ error, a = .refuse i request error ∧ next = .answer (.error error))) ∨
      (∃ i choice request pc, a = .run i choice ∧ s.calls i = some ⟨request, .running pc⟩ ∧
        s' = (s.withDb (advance config choice s.db pc).1).setCall i
          ⟨request, (advance config choice s.db pc).2.progress⟩) ∨
      (∃ i request pc, a = .stop i ∧ s.calls i = some ⟨request, .running pc⟩ ∧
        s' = s.setCall i ⟨request, .stopped⟩) := by
  cases a with
  | start i request =>
    simp only [step] at h
    split at h
    · next hfree =>
      exact .inl ⟨i, request, _, hfree, (Option.some.inj h).symm, .inl ⟨rfl, rfl⟩⟩
    · cases h
  | refuse i request error =>
    simp only [step] at h
    split at h
    · next hfree =>
      exact .inl ⟨i, request, .answer (.error error), hfree, (Option.some.inj h).symm,
        .inr ⟨error, rfl, rfl⟩⟩
    · cases h
  | run i choice =>
    simp only [step] at h
    split at h
    · next request pc hrun =>
      exact .inr (.inl ⟨i, choice, request, pc, rfl, hrun, (Option.some.inj h).symm⟩)
    · cases h
  | stop i =>
    simp only [step] at h
    split at h
    · next request pc hrun =>
      exact .inr (.inr ⟨i, request, pc, rfl, hrun, (Option.some.inj h).symm⟩)
    · cases h

/-- A call moves on over rows that only grew; it had not been answered before, and whatever was
committed in the step is its own. -/
theorem Invariant.setCall (hi : Invariant config s) {progress : Progress} (hg : Grows s.db db)
    (hopen : ∀ request' outcome, s.calls i ≠ some ⟨request', .answered outcome⟩)
    (hrunning : ∀ pc, progress = .running pc → PcOk config db request pc)
    (hanswered : ∀ response, progress = .answered (.posting response) →
      AnswerOk config db request response)
    (hcommitted : ∀ tx ∈ db.transactions.rows, tx ∈ s.db.transactions.rows ∨
      (progress = .answered (.posting (toResponse tx)) ∧ Posted config db request tx)) :
    Invariant config ((s.withDb db).setCall i ⟨request, progress⟩) := by
  refine ⟨fun j request' pc h => ?_, fun j request' response h => ?_, fun tx htx => ?_⟩
  · by_cases hj : j = i
    · subst hj
      rw [State.setCall_calls_self] at h
      cases h
      exact hrunning pc rfl
    · rw [State.setCall_calls_of_ne hj] at h
      exact (hi.running j request' pc h).mono hg
  · by_cases hj : j = i
    · subst hj
      rw [State.setCall_calls_self] at h
      cases h
      exact hanswered response rfl
    · rw [State.setCall_calls_of_ne hj] at h
      exact (hi.answered j request' response h).mono hg
  · rcases hcommitted tx htx with hold | ⟨rfl, hposted⟩
    · obtain ⟨j, request', hj, hposted⟩ := hi.committed tx hold
      have hne : j ≠ i := by
        rintro rfl
        exact hopen request' _ hj
      exact ⟨j, request', (State.setCall_calls_of_ne hne).trans hj, hposted.mono hg⟩
    · exact ⟨i, request, State.setCall_calls_self, hposted⟩

/-- What one step does to the database, and what the call it is a step of does next. -/
theorem step_change (hi : Invariant config s) (h : step config s a = some s') :
    s'.db = s.db ∨ ∃ request next, s'.calls a.call = some ⟨request, next.progress⟩ ∧
      Change config s.db request s'.db next := by
  rcases step_cases h with ⟨_, _, _, -, rfl, -⟩ | ⟨i, choice, request, pc, rfl, hrun, rfl⟩ |
    ⟨_, _, _, -, -, rfl⟩
  · exact .inl rfl
  · exact .inr ⟨request, _, State.setCall_calls_self, (advance_ok (hi.running i request pc hrun)).1⟩
  · exact .inl rfl

theorem step_grows (hi : Invariant config s) (h : step config s a = some s') :
    Grows s.db s'.db := by
  rcases step_change hi h with heq | ⟨_, _, -, hchange⟩
  · rw [heq]
    exact .refl s.db
  · exact hchange.grows

/-- The transactions after a statement are those before it and the one it answers with. -/
theorem Change.committed_cases {next : Next} (h : Change config db request db' next)
    {tx : LedgerTransaction} (htx : tx ∈ db'.transactions.rows) :
    tx ∈ db.transactions.rows ∨
      (next = .answer (.posting (toResponse tx)) ∧ Posted config db' request tx) := by
  have hg := h.grows
  cases h with
  | unchanged => exact .inl htx
  | provisioned opened => exact .inl (opened.transactions ▸ htx)
  | cleared opened => exact .inl (opened.transactions ▸ htx)
  | committed resolved committed =>
    rw [committed.transactions, List.mem_append, List.mem_singleton] at htx
    rcases htx with htx | rfl
    · exact .inl htx
    · have hstored := committed.stored
      rw [← hstored.commandHash] at resolved
      rw [← hstored.commandHash, ← hstored.id] at hstored
      exact .inr ⟨rfl, _, resolved.mono hg, hstored⟩

theorem Invariant.step (hi : Invariant config s) (h : step config s a = some s') :
    Invariant config s' := by
  rcases step_cases h with ⟨i, request, next, hfree, rfl, hnext⟩ |
    ⟨i, choice, request, pc, -, hrun, rfl⟩ | ⟨i, request, pc, -, hrun, rfl⟩
  · have hok : NextOk config s.db request next := by
      rcases hnext with ⟨-, rfl⟩ | ⟨error, -, rfl⟩
      · exact entry_ok
      · trivial
    refine hi.setCall (.refl s.db) (by simp [hfree]) (fun pc h => ?_) (fun response h => ?_)
      (fun _ h => .inl h)
    · cases next <;> cases h
      exact hok
    · cases next <;> cases h
      exact hok
  · obtain ⟨hchange, hok⟩ : StatementOk config s.db request (advance config choice s.db pc) :=
      advance_ok (hi.running i request pc hrun)
    generalize (advance config choice s.db pc).1 = db at *
    generalize (advance config choice s.db pc).2 = next at *
    refine hi.setCall hchange.grows (by simp [hrun]) (fun pc h => ?_) (fun response h => ?_)
      (fun tx htx => (hchange.committed_cases htx).imp_right fun ⟨h, hp⟩ => ⟨by rw [h]; rfl, hp⟩)
    · cases next <;> cases h
      exact hok
    · cases next <;> cases h
      exact hok
  · exact hi.setCall (.refl s.db) (by simp [hrun]) (fun _ h => nomatch h) (fun _ h => nomatch h)
      (fun _ h => .inl h)

theorem invariant_of_reachable (h : (system ι config).Reachable s) : Invariant config s :=
  System.Reachable.invariant invariant_initial (fun _ _ _ _ hi hs => hi.step hs) h

theorem grows_of_steps (h : (system ι config).Reachable s) (hs : (system ι config).Steps s s') :
    Grows s.db s'.db :=
  System.Steps.lift (R := fun s s' => Grows s.db s'.db) (fun s => .refl s.db)
    (fun s t _ (h : Grows s.db t.db) k => h.trans k)
    (fun _ _ _ hr hs => step_grows (invariant_of_reachable hr) hs) h hs

/-- A call that runs no more stays as it is. -/
theorem ended_of_step {request : Request} {progress : Progress} (h : step config s a = some s')
    (hp : ∀ pc, progress ≠ .running pc) (hc : s.calls i = some ⟨request, progress⟩) :
    s'.calls i = some ⟨request, progress⟩ := by
  have hother : ∀ (db : Database) j call, s.calls j ≠ s.calls i →
      ((s.withDb db).setCall j call).calls i = some ⟨request, progress⟩ := by
    intro db j call hj
    have hne : i ≠ j := by
      rintro rfl
      exact hj rfl
    exact (State.setCall_calls_of_ne hne).trans hc
  rcases step_cases h with ⟨j, _, _, hfree, rfl, -⟩ | ⟨j, _, _, pc, -, hrun, rfl⟩ |
    ⟨j, _, pc, -, hrun, rfl⟩
  · exact hother s.db j _ (by simp [hfree, hc])
  · exact hother _ j _ (by simp [hrun, hc, (hp pc).symm])
  · exact hother s.db j _ (by simp [hrun, hc, (hp pc).symm])

theorem calls_of_setCall {j : ι} {call new : Call} (db : Database)
    (h : ((s.withDb db).setCall j new).calls i = some call) :
    (i = j ∧ call = new) ∨ s.calls i = some call := by
  by_cases hij : i = j
  · subst hij
    rw [State.setCall_calls_self] at h
    exact .inl ⟨rfl, (Option.some.inj h).symm⟩
  · rw [State.setCall_calls_of_ne hij] at h
    exact .inr h

/-- A call after a step was there before it with its request, or arrived in it. -/
theorem calls_of_step {call : Call} (h : step config s a = some s') (hc : s'.calls i = some call) :
    (∃ progress, s.calls i = some ⟨call.request, progress⟩) ∨
      a = .start i call.request ∨ ∃ error, a = .refuse i call.request error := by
  rcases step_cases h with ⟨j, request, next, -, rfl, hnew⟩ | ⟨j, _, request, pc, -, hrun, rfl⟩ |
    ⟨j, request, pc, -, hrun, rfl⟩
  · rcases calls_of_setCall s.db hc with ⟨rfl, rfl⟩ | hold
    · rcases hnew with ⟨rfl, -⟩ | ⟨error, rfl, -⟩
      · exact .inr (.inl rfl)
      · exact .inr (.inr ⟨error, rfl⟩)
    · exact .inl ⟨call.progress, hold⟩
  · rcases calls_of_setCall _ hc with ⟨rfl, rfl⟩ | hold
    · exact .inl ⟨.running pc, hrun⟩
    · exact .inl ⟨call.progress, hold⟩
  · rcases calls_of_setCall s.db hc with ⟨rfl, rfl⟩ | hold
    · exact .inl ⟨.running pc, hrun⟩
    · exact .inl ⟨call.progress, hold⟩

/-- What holds of a call at its first statement, outlasts the rows others add and is handed on by its
own statements holds at every statement it waits at. -/
theorem running_of_reachableBy {ok : State ι → Action ι → Prop} {P : Database → Request → Pc → Prop}
    (hmono : ∀ {db db' request pc}, Grows db db' → P db request pc → P db' request pc)
    (hentry : ∀ {db request pc}, request.entry config = .goto pc → P db request pc)
    (hadvance : ∀ {s i choice request pc pc'}, (system ι config).Reachable s →
      ok s (.run i choice) → s.calls i = some ⟨request, .running pc⟩ → P s.db request pc →
      (advance config choice s.db pc).2 = .goto pc' →
      P (advance config choice s.db pc).1 request pc')
    (h : (system ι config).ReachableBy ok s) :
    ∀ i request pc, s.calls i = some ⟨request, .running pc⟩ → P s.db request pc := by
  refine System.ReachableBy.invariant
    (P := fun s => ∀ i request pc, s.calls i = some ⟨request, .running pc⟩ → P s.db request pc)
    (fun i request pc h => by cases h) (fun s a s' hr hp hok hstep i request pc hc => ?_) h
  have hgrows := step_grows (invariant_of_reachable hr.reachable) hstep
  rcases step_cases hstep with ⟨j, request', next, -, rfl, hbegins⟩ |
    ⟨j, choice, request', pc', rfl, hrun, rfl⟩ | ⟨j, request', pc', -, -, rfl⟩
  · rcases calls_of_setCall s.db hc with ⟨rfl, hcall⟩ | hold
    · obtain ⟨rfl, hprogress⟩ := Call.mk.inj hcall
      rcases hbegins with ⟨-, rfl⟩ | ⟨error, -, rfl⟩
      · cases hnext : request.entry config with
        | goto pc' =>
          rw [hnext] at hprogress
          cases hprogress
          exact hentry hnext
        | answer outcome => simp [hnext, Next.progress] at hprogress
      · cases hprogress
    · exact hmono hgrows (hp i request pc hold)
  · rcases calls_of_setCall _ hc with ⟨rfl, hcall⟩ | hold
    · obtain ⟨rfl, hprogress⟩ := Call.mk.inj hcall
      cases hnext : (advance config choice s.db pc').2 with
      | goto pc'' =>
        rw [hnext] at hprogress
        cases hprogress
        exact hadvance hr.reachable hok hrun (hp i request pc' hrun) hnext
      | answer outcome => simp [hnext, Next.progress] at hprogress
    · exact hmono hgrows (hp i request pc hold)
  · rcases calls_of_setCall s.db hc with ⟨rfl, hcall⟩ | hold
    · cases hcall
    · exact hmono hgrows (hp i request pc hold)

/-- What a call was answered stays. -/
theorem answered_of_steps {request : Request} {outcome : Outcome}
    (h : (system ι config).Reachable s) (hs : (system ι config).Steps s s')
    (ha : s.calls i = some ⟨request, .answered outcome⟩) :
    s'.calls i = some ⟨request, .answered outcome⟩ :=
  System.Steps.preserves (P := fun s => s.calls i = some ⟨request, .answered outcome⟩)
    (fun _ _ _ _ hc hstep => ended_of_step hstep (by simp) hc) h ha hs

end Step

end NovaPay.Ledger
