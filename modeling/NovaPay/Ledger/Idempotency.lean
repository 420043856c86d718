import NovaPay.Ledger.Invariant

/-!
# Idempotent postings

An external reference names at most one committed transaction. Whoever is answered for it sees
that transaction, another command under it is refused, and a call that ends in an error has left
the journal and the balances alone.
-/

namespace NovaPay.Ledger

open DecimalArithmetic Relational TransitionSystem

variable {ι : Type} [DecidableEq ι] {config : Config} {s s' : State ι}

/-- The statements that look a reference up before anything is committed under it. -/
def Pc.ChecksDuplicate : Pc → Prop
  | .postLookup .. | .fundLookup .. | .reverseLookup .. | .recover .. => True
  | _ => False

theorem afterLookup_of_reused {db : Database} {tx : LedgerTransaction}
    (htx : tx ∈ db.transactions.rows) {commandHash : Digest} (hne : commandHash ≠ tx.commandHash)
    (next : Next) :
    afterLookup db tx.externalReference commandHash next = .answer (.error idempotencyKeyReused) := by
  have hfind : db.findByReference tx.externalReference = some tx :=
    Database.findByReference_eq_some_iff.mpr ⟨htx, rfl⟩
  simp [afterLookup, findIdempotent, hfind, hne.symm]

/-- A duplicate check that finds another command under the reference refuses the call. -/
theorem advance_of_reused {db : Database} {request : Request} {pc : Pc} {tx : LedgerTransaction}
    {choice : Choice} (hpc : PcOk config db request pc) (hcheck : pc.ChecksDuplicate)
    (htx : tx ∈ db.transactions.rows) (href : request.externalReference = some tx.externalReference)
    (hne : request.commandHash config ≠ some tx.commandHash) :
    advance config choice db pc = (db, .answer (.error idempotencyKeyReused)) := by
  have hlookup : ∀ externalReference commandHash next,
      request.externalReference = some externalReference →
      request.commandHash config = some commandHash →
      afterLookup db externalReference commandHash next = .answer (.error idempotencyKeyReused) := by
    intro externalReference commandHash next hr hh
    obtain rfl := Option.some.inj (hr.symm.trans href)
    exact afterLookup_of_reused htx (fun h => hne (h ▸ hh)) next
  cases pc with
  | postLookup command failBeforeCommit =>
    obtain ⟨rfl, -⟩ := hpc
    exact congrArg (Prod.mk db) (hlookup _ _ _ rfl rfl)
  | fundLookup command customerId clearingId =>
    obtain rfl : request = .fund command := hpc
    exact congrArg (Prod.mk db) (hlookup _ _ _ rfl rfl)
  | reverseLookup command original reversed =>
    obtain ⟨rfl, -⟩ := hpc
    exact congrArg (Prod.mk db) (hlookup _ _ _ rfl rfl)
  | recover externalReference commandHash =>
    exact congrArg (Prod.mk db) (hlookup _ _ _ hpc.1 hpc.2)
  | _ => cases hcheck

/-- The references committed with another command than `command`. -/
def Reused (config : Config) (db : Database) (command : PostingCommand) : Prop :=
  ∃ tx ∈ db.transactions.rows, tx.externalReference = command.externalReference.value ∧
    tx.commandHash ≠ postHash config command

theorem reused_of_afterLookup {db : Database} {command : PostingCommand} {next : Next}
    (h : afterLookup db command.externalReference.value (postHash config command) next =
      .answer (.error idempotencyKeyReused)) :
    Reused config db command ∨ next = .answer (.error idempotencyKeyReused) := by
  unfold afterLookup findIdempotent at h
  cases hfind : db.findByReference command.externalReference.value with
  | none =>
    rw [hfind] at h
    exact .inr h
  | some tx =>
    rw [hfind] at h
    dsimp only at h
    obtain ⟨hmem, href⟩ := Database.findByReference_eq_some_iff.mp hfind
    by_cases hne : tx.commandHash ≠ postHash config command
    · exact .inl ⟨tx, hmem, href, hne⟩
    · rw [if_neg hne] at h
      cases h

theorem validateResolved_error {posting : ResolvedPosting} {error : HttpError}
    (h : validateResolved posting = .error error) : error ≠ idempotencyKeyReused := by
  unfold validateResolved at h
  repeat' split at h
  all_goals cases h
  all_goals decide

theorem lockBalances_error {db : Database} {posting : ResolvedPosting} {error : HttpError}
    (h : lockBalances db posting = .error (.http error)) : error ≠ idempotencyKeyReused := by
  unfold lockBalances at h
  dsimp only at h
  repeat' split at h
  all_goals cases h
  all_goals decide

theorem checkFunds_error {posting : ResolvedPosting} {locked : List (LedgerAccount × WalletBalance)}
    {error : HttpError} (h : checkFunds posting locked = .error (.http error)) :
    error ≠ idempotencyKeyReused := by
  unfold checkFunds at h
  split at h
  · cases h
    decide
  · cases h

/-- The inserts and updates of a posting fail in the database, not with an answer. -/
theorem recordPosting_error {db : Database} {posting : ResolvedPosting} {commandHash : Digest}
    {id : Uuid} {error : HttpError} : recordPosting db posting commandHash id ≠ .error (.http error) := by
  intro h
  unfold recordPosting at h
  split at h
  · cases h
  rcases bind_eq_error h with h | ⟨_, -, h⟩
  · unfold insertPosting at h
    repeat' split at h
    all_goals cases h
  · cases h

theorem settleBalances_error {db : Database} {posting : ResolvedPosting} {error : HttpError} :
    settleBalances db posting ≠ .error (.http error) := by
  intro h
  unfold settleBalances at h
  repeat' split at h
  all_goals cases h

theorem commitPosting_error {db : Database} {posting : ResolvedPosting} {commandHash : Digest}
    {id : Uuid} {error : HttpError} (h : commitPosting db posting commandHash id = .error (.http error)) :
    error ≠ idempotencyKeyReused := by
  unfold commitPosting at h
  rcases bind_eq_error h with h | ⟨locked, -, h⟩
  · exact lockBalances_error h
  rcases bind_eq_error h with h | ⟨_, -, h⟩
  · exact checkFunds_error h
  rcases bind_eq_error h with h | ⟨_, -, h⟩
  · exact absurd h recordPosting_error
  rcases bind_eq_error h with h | ⟨_, -, h⟩
  · exact absurd h settleBalances_error
  · cases h

theorem enterPostResolved_reused {attempted : Attempted} :
    enterPostResolved attempted ≠ .answer (.error idempotencyKeyReused) := by
  intro h
  unfold enterPostResolved at h
  split at h
  · cases h
  · next herror =>
    cases h
    exact validateResolved_error herror rfl

theorem resolveEntries_error {db : Database} {command : PostingCommand} {error : HttpError}
    (h : resolveEntries db command = .error error) : error ≠ idempotencyKeyReused := by
  have hentry : ∀ accounts entry, resolveEntry command accounts entry = .error error →
      error ≠ idempotencyKeyReused := by
    intro accounts entry h
    unfold resolveEntry at h
    repeat' split at h
    all_goals cases h
    all_goals decide
  unfold resolveEntries at h
  dsimp only at h
  split at h
  · cases h
    decide
  · generalize command.entries = entries at h
    revert h
    generalize db.accounts.rows.filter _ = accounts
    intro h
    induction entries with
    | nil => cases h
    | cons entry entries ih =>
      rw [List.mapM_cons] at h
      rcases bind_eq_error h with h | ⟨_, -, h⟩
      · exact hentry accounts entry h
      rcases bind_eq_error h with h | ⟨_, -, h⟩
      · exact ih h
      · cases h

theorem runEnsureClearing_error {db : Database} {choice : Choice} {currency : Currency}
    {clearing : EnsureClearing} {error : HttpError}
    (h : (runEnsureClearing choice db currency clearing).2 = .error error) :
    error ≠ idempotencyKeyReused := by
  unfold runEnsureClearing at h
  repeat' split at h
  all_goals cases h
  all_goals decide

/-- A posting is refused as reused only where its reference is committed with another command. -/
theorem reused_of_advance {db : Database} {command : PostingCommand} {failBeforeCommit : Bool}
    (choice : Choice) {pc : Pc} (hpc : PcOk config db (.post command failBeforeCommit) pc)
    (h : (advance config choice db pc).2 = .answer (.error idempotencyKeyReused)) :
    Reused config db command := by
  cases pc with
  | postLookup command failBeforeCommit =>
    obtain ⟨heq, -⟩ := hpc
    cases heq
    rcases reused_of_afterLookup h with h | h
    · exact h
    · cases h
  | postAccounts command failBeforeCommit =>
    exfalso
    change runPostAccounts config db command failBeforeCommit = _ at h
    unfold runPostAccounts at h
    split at h
    · next herror =>
      cases h
      exact resolveEntries_error herror rfl
    · split at h
      · cases h
      · exact enterPostResolved_reused h
  | postClearing command failBeforeCommit entries source target =>
    exfalso
    change (runPostClearing config choice db command failBeforeCommit entries source target).2 = _ at h
    unfold runPostClearing at h
    dsimp only at h
    split at h
    · next herror =>
      cases h
      split at herror
      · exact runEnsureClearing_error herror rfl
      · exact runEnsureClearing_error herror rfl
    · split at h
      · exact enterPostResolved_reused h
      · cases h
  | attempt attempted number =>
    exfalso
    have hfailure : ∀ failure, afterFailure attempted number failure =
        .answer (.error idempotencyKeyReused) → failure = .http idempotencyKeyReused := by
      intro failure h
      cases failure with
      | http error => cases h; rfl
      | uniqueViolation => cases h
      | serializationFailure =>
        unfold afterFailure at h
        dsimp only at h
        split at h <;> cases h
      | other => cases h
    change (runAttempt choice db attempted number).2 = _ at h
    unfold runAttempt at h
    repeat' split at h
    · cases h
    · cases h
    · next failure herror =>
      obtain rfl := hfailure _ h
      exact commitPosting_error herror rfl
    · exact absurd (hfailure .serializationFailure h) (by simp)
    · exact absurd (hfailure .uniqueViolation h) (by simp)
    · cases h
  | recover externalReference commandHash =>
    obtain ⟨href, hhash⟩ := hpc
    cases href
    cases hhash
    rcases reused_of_afterLookup h with h | h
    · exact h
    · exact absurd h (by decide)
  | provisionFind | provisionCreate | provisionRefind | fundAccount | fundClearing | fundLookup |
    reverseRead => cases hpc
  | reverseLookup => cases hpc.1

theorem entry_not_reused {command : PostingCommand} {failBeforeCommit : Bool} :
    (Request.entry config (.post command failBeforeCommit)).progress ≠
      .answered (.error idempotencyKeyReused) := by
  intro h
  unfold Request.entry at h
  dsimp only at h
  split at h
  · exact absurd h (by decide)
  split at h
  · cases h
  · next error herror =>
    cases h
    unfold validateFxShape at herror
    dsimp only at herror
    repeat' split at herror
    all_goals cases herror

/-- Before a call is refused as reused, its reference is committed with another command. -/
theorem reused_of_step {i : ι} {a : Action ι} (hi : Invariant config s)
    (h : step config s a = some s') {command : PostingCommand} {failBeforeCommit : Bool}
    (hc : s'.calls i = some ⟨.post command failBeforeCommit, .answered (.error idempotencyKeyReused)⟩) :
    s.calls i = some ⟨.post command failBeforeCommit, .answered (.error idempotencyKeyReused)⟩ ∨
      a = .refuse i (.post command failBeforeCommit) idempotencyKeyReused ∨
      Reused config s.db command := by
  rcases step_cases h with ⟨j, request, next, -, rfl, hnext⟩ | ⟨j, choice, request, pc, -, hrun, rfl⟩ |
    ⟨j, request, pc, -, hrun, rfl⟩
  · rcases calls_of_setCall s.db hc with ⟨rfl, hcall⟩ | hold
    · obtain ⟨rfl, hprogress⟩ := Call.mk.inj hcall
      rcases hnext with ⟨-, rfl⟩ | ⟨error, rfl, rfl⟩
      · exact absurd hprogress.symm entry_not_reused
      · cases hprogress
        exact .inr (.inl rfl)
    · exact .inl hold
  · rcases calls_of_setCall _ hc with ⟨rfl, hcall⟩ | hold
    · obtain ⟨rfl, hprogress⟩ := Call.mk.inj hcall
      refine .inr (.inr (reused_of_advance choice (hi.running _ _ pc hrun) ?_))
      cases hnext : (advance config choice s.db pc).2 with
      | goto pc' => simp [hnext, Next.progress] at hprogress
      | answer outcome =>
        rw [hnext] at hprogress
        cases hprogress
        rfl
    · exact .inl hold
  · rcases calls_of_setCall s.db hc with ⟨rfl, hcall⟩ | hold
    · cases hcall
    · exact .inl hold

/-- A step of a call that is later answered with an error wrote no journal row and no balance; it
opened a clearing account at most. -/
theorem step_of_failing {i : ι} {a : Action ι} {s'' : State ι} {request : Request} {error : HttpError}
    (hr : (system ι config).Reachable s) (ha : a.call = i) (h : step config s a = some s')
    (hs : (system ι config).Steps s' s'')
    (hend : s''.calls i = some ⟨request, .answered (.error error)⟩) :
    s'.db = s.db ∨ ∃ id currency, Opened s.db s'.db (clearingAccount id currency) := by
  subst ha
  rcases step_change (invariant_of_reachable hr) h with heq | ⟨request', next, hnext, hchange⟩
  · exact .inl heq
  have hnot : ∀ outcome, next = .answer outcome → outcome = .error error := by
    rintro outcome rfl
    have hsame := answered_of_steps (hr.next h) hs hnext
    rw [hend] at hsame
    cases hsame
    rfl
  generalize s'.db = db at hchange ⊢
  cases hchange with
  | unchanged => exact .inl rfl
  | provisioned => cases hnot _ rfl
  | cleared opened => exact .inr ⟨_, _, opened⟩
  | committed => cases hnot _ rfl

/-- Whatever the order of concurrent, repeated and failing calls: a reference has one committed
transaction, every successful answer for it shows that transaction, a command with another hash
is refused at its duplicate check and never succeeds, and a call that ends in an error changed no
transaction and no balance. -/
theorem postings_idempotent (h : (system ι config).Reachable s) :
    (∀ tx ∈ s.db.transactions.rows, ∀ tx' ∈ s.db.transactions.rows,
      tx.externalReference = tx'.externalReference → tx = tx') ∧
    (∀ i request response, s.calls i = some ⟨request, .answered (.posting response)⟩ →
      ∃ tx ∈ s.db.transactions.rows, request.externalReference = some tx.externalReference ∧
        request.commandHash config = some tx.commandHash ∧ response = toResponse tx) ∧
    (∀ tx ∈ s.db.transactions.rows, ∀ i request,
      request.externalReference = some tx.externalReference →
      request.commandHash config ≠ some tx.commandHash →
      (∀ response, s.calls i ≠ some ⟨request, .answered (.posting response)⟩) ∧
      ∀ pc choice s', s.calls i = some ⟨request, .running pc⟩ → pc.ChecksDuplicate →
        step config s (.run i choice) = some s' →
        s'.calls i = some ⟨request, .answered (.error idempotencyKeyReused)⟩) ∧
    (∀ i a s' s'' request error, a.call = i → step config s a = some s' →
      (system ι config).Steps s' s'' → s''.calls i = some ⟨request, .answered (.error error)⟩ →
      s'.db = s.db ∨ ∃ id currency, Opened s.db s'.db (clearingAccount id currency)) := by
  have hi := invariant_of_reachable h
  have hunique : ∀ tx ∈ s.db.transactions.rows, ∀ tx' ∈ s.db.transactions.rows,
      tx.externalReference = tx'.externalReference → tx = tx' := by
    intro tx htx tx' htx' heq
    have hfind := Database.findByReference_eq_some_iff.mpr ⟨htx, rfl⟩
    have hfind' := Database.findByReference_eq_some_iff.mpr ⟨htx', heq.symm⟩
    exact Option.some.inj (hfind.symm.trans hfind')
  refine ⟨hunique, hi.answered, fun tx htx i request href hne => ⟨fun response ha => ?_,
    fun pc choice s' hrun hcheck hstep => ?_⟩, fun i a s' s'' request error ha hs hss hend =>
    step_of_failing h ha hs hss hend⟩
  · obtain ⟨tx', htx', href', hhash', -⟩ := hi.answered i request response ha
    obtain rfl := hunique tx htx tx' htx' (Option.some.inj (href.symm.trans href'))
    exact hne hhash'
  · have hadvance : advance config choice s.db pc = (s.db, .answer (.error idempotencyKeyReused)) :=
      advance_of_reused (hi.running i request pc hrun) hcheck htx href hne
    simp only [step, hrun, hadvance] at hstep
    cases hstep
    exact State.setCall_calls_self

/-- Funding is enabled; the hash is the amount of the command. -/
def fundingConfig : Config where
  sha256 := fun
    | .object members => ((members.lookup "amount").map fun
        | .decimal d => d.units.toNat
        | _ => 0).getD 0
    | _ => 0
  localeCompare := fun _ _ => true
  enableTestFunding := true

def dollars : Currency := (20, 18, 3)

def tenDollars : MoneyText := ⟨⟨1000000000, 8⟩, by decide⟩

def twentyDollars : MoneyText := ⟨⟨2000000000, 8⟩, by decide⟩

def fundingOf (externalReference walletId : Uuid) (amount : MoneyText) : FundWallet :=
  ⟨⟨externalReference, 0⟩, ⟨0, 0⟩, ⟨walletId, 0⟩, amount, dollars⟩

def provisionRun (i : ℕ) (walletId accountId : Uuid) : List (Action ℕ) := [
  .start i (.provision ⟨walletId, 0⟩ dollars),
  .run i {},
  .run i { id := accountId }]

/-- A funding up to the duplicate check; the first one creates the clearing account. -/
def fundingStart (i : ℕ) (command : FundWallet) (first : Bool) : List (Action ℕ) :=
  [.start i (.fund command), .run i {}, .run i {}] ++ if first then [.run i { id := 99 }] else []

def fundingRun (i : ℕ) (command : FundWallet) (first : Bool) (id : Uuid) : List (Action ℕ) :=
  fundingStart i command first ++ [.run i {}, .run i { id := id }]

/-- The reference 5 is committed for one amount and comes back with another. -/
def reusedRun : List (Action ℕ) :=
  provisionRun 0 10 1 ++ fundingRun 1 (fundingOf 5 10 tenDollars) true 3 ++
    fundingStart 2 (fundingOf 5 10 twentyDollars) false

/-- The theorem at the end of `reusedRun`: the second funding is refused. -/
theorem postings_idempotent_reusedRun : ∃ s s' request,
    (system ℕ fundingConfig).run .initial reusedRun = some s ∧
      step fundingConfig s (.run 2 {}) = some s' ∧
      s'.calls 2 = some ⟨request, .answered (.error idempotencyKeyReused)⟩ := by
  let second := fundingOf 5 10 twentyDollars
  have hrun : ((system ℕ fundingConfig).run .initial reusedRun).map (fun s =>
      (s.calls 2, s.db.transactions.rows.map fun tx => (tx.externalReference, tx.commandHash))) =
      some (some ⟨.fund second, .running (.fundLookup second 1 99)⟩, [(5, 1000000000)]) := by
    decide +kernel
  obtain ⟨s, hs, hstate⟩ := Option.map_eq_some_iff.mp hrun
  obtain ⟨hcall, hrows⟩ := Prod.mk.inj hstate
  obtain ⟨tx, htx, hkey⟩ := List.mem_map.mp (hrows ▸ List.mem_singleton.mpr rfl)
  obtain ⟨href, hhash⟩ := Prod.mk.inj hkey
  have hne : Request.commandHash fundingConfig (.fund second) ≠ some tx.commandHash := by
    rw [hhash]
    decide +kernel
  have hthm := (postings_idempotent (System.reachable_of_run hs)).2.2.1 tx htx 2 (.fund second)
    (by rw [href]; rfl) hne
  obtain ⟨s', hs'⟩ : ∃ s', step fundingConfig s (.run 2 {}) = some s' := by
    simp [step, hcall]
  exact ⟨s, s', _, hs, hs', hthm.2 _ _ s' hcall trivial hs'⟩

end NovaPay.Ledger
