import NovaPay.Ledger.Failures

/-!
# Refused reversals

Why the Ledger refuses to reverse a posting, over every order of the statements of its calls.
-/

namespace NovaPay.Ledger

open DecimalArithmetic DoubleEntry Relational TransitionSystem

variable {config : Config} {db db' : Database} {request : Request} {posting : ResolvedPosting}
  {commandHash : Digest} {id : Uuid} {original tx : LedgerTransaction} {command : ReversePosting}

def Reversed (db : Database) (originalId : Uuid) : Prop :=
  ∃ tx ∈ db.transactions.rows, tx.reversesTransactionId = some originalId

theorem Reversed.mono (hg : Grows db db') (h : Reversed db id) : Reversed db' id := by
  obtain ⟨tx, htx, h⟩ := h
  exact ⟨tx, hg.transactions.subset htx, h⟩

/-- What stands in the way of a reversal. -/
inductive Refusable (config : Config) (db : Database) (command : ReversePosting)
    (original : LedgerTransaction) : Prop
  | reversed (h : Reversed db original.id)
  | reused (tx : LedgerTransaction) (mem : tx ∈ db.transactions.rows)
      (reference : tx.externalReference = command.externalReference.value)
      (other : tx.commandHash ≠ reverseHash config original.id command)
  | closed (e : LedgerEntry) (a : LedgerAccount) (mem : e ∈ original.entries)
      (account : db.findAccount e.ledgerAccountId = some a) (status : a.status = .closed)
  | overdrawn (e : LedgerEntry) (a : LedgerAccount) (b : WalletBalance) (mem : e ∈ original.entries)
      (account : db.findAccount e.ledgerAccountId = some a)
      (balance : db.findBalance e.ledgerAccountId = some b) (customer : a.accountType = .customer)
      (negative : nextBalance a b.availableBalance.value
        (original.entries.map LedgerEntry.undoing) < 0)

/-! ### Why a reversal does not commit -/

/-- The accounts of a committed posting are there, so one that does not allow its reversal is closed. -/
theorem closed_of_not_allowed (hs : Sound db) (hmem : original ∈ db.transactions.rows)
    (h : ¬ Allowed db (resolveReversal command original)) : ∃ e ∈ original.entries, ∃ a,
      db.findAccount e.ledgerAccountId = some a ∧ a.status = .closed := by
  by_contra hopen
  push Not at hopen
  refine h fun re hre => ?_
  rw [entries_resolveReversal] at hre
  obtain ⟨e, he, rfl⟩ := List.mem_map.mp hre
  obtain ⟨a, ha, hcurrency⟩ := hs.entries e (entries_of_transaction hmem he)
  refine ⟨a, ha, ?_⟩
  have hstatus := hopen e he a ha
  have hsame : a.currency = e.undoing.currency := hcurrency
  cases hs : a.status <;> simp_all [accountAllows, resolveReversal]

theorem overdrawn_of_not_funded (h : ¬ Funded db (resolveReversal command original)) :
    Refusable config db command original := by
  by_contra hnot
  refine h fun re hre a b ha hb hcustomer => ?_
  rw [entries_resolveReversal] at hre
  obtain ⟨e, he, rfl⟩ := List.mem_map.mp hre
  by_contra hneg
  exact hnot (.overdrawn e a b he ha hb hcustomer (not_le.mp hneg))

theorem holdsReference_reversal : holdsReference db (resolveReversal command original) = true ↔
    Reversed db original.id ∨
      ∃ tx ∈ db.transactions.rows, tx.externalReference = command.externalReference.value := by
  simp only [holdsReference, List.any_eq_true, Bool.or_eq_true, Bool.and_eq_true, decide_eq_true_eq]
  constructor
  · rintro ⟨tx, htx, href | ⟨-, hreverses⟩⟩
    · exact .inr ⟨tx, htx, href⟩
    · exact .inl ⟨tx, htx, hreverses⟩
  · rintro (⟨tx, htx, h⟩ | ⟨tx, htx, h⟩)
    · exact ⟨tx, htx, .inr ⟨rfl, h⟩⟩
    · exact ⟨tx, htx, .inl h⟩

theorem insertPosting_reversal (hmem : original ∈ db.transactions.rows)
    (htype : original.postingType ≠ .reversal) (hfresh : ∀ tx ∈ db.transactions.rows, tx.id ≠ id) :
    (∃ transactions, insertPosting db.transactions (original.reversedBy command commandHash id) =
      .ok transactions) ∨
    (insertPosting db.transactions (original.reversedBy command commandHash id) =
      .error .uniqueViolation ∧ holdsReference db (resolveReversal command original) = true) := by
  have hcheck := @reversedBy_check db commandHash id original command hmem htype
  have hown : (original.reversedBy command commandHash id).check = true := by
    simp only [transactionsSchema, Bool.and_eq_true] at hcheck
    exact hcheck.1.1
  unfold insertPosting
  rw [hown]
  by_cases hindexed : transactionsIndexed
      (db.transactions.rows ++ [original.reversedBy command commandHash id]) = true
  · left
    obtain ⟨transactions, hinsert⟩ := @Table.insertMany_of_indexed _ _ db.transactions
      [original.reversedBy command commandHash id] (by simpa using hcheck) hindexed
    simp [hindexed, hinsert]
  · right
    refine ⟨by simp [hindexed], ?_⟩
    by_contra hnone
    rw [holdsReference_reversal, not_or] at hnone
    obtain ⟨hreversed, hreference⟩ := hnone
    have hindexes := db.transactions.indexed
    refine hindexed ?_
    simp only [transactionsSchema, transactionsIndexed, Bool.and_eq_true] at hindexes ⊢
    obtain ⟨⟨hids, hreferences⟩, hreversals⟩ := hindexes
    refine ⟨⟨uniqueBy_append_new hids hfresh, uniqueBy_append_new hreferences fun tx htx href =>
      hreference ⟨tx, htx, href⟩⟩, uniqueWhere_append_new hreversals fun tx htx k hk hreverses => ?_⟩
    cases hk
    exact hreversed ⟨tx, htx, hreverses⟩

theorem recordPosting_reversal {failure : PostingFailure} (hmem : original ∈ db.transactions.rows)
    (htype : original.postingType ≠ .reversal) (hnumbered : Numbered 1 original.entries)
    (hfresh : ∀ tx ∈ db.transactions.rows, tx.id ≠ id)
    (h : recordPosting db (resolveReversal command original) commandHash id = .error failure) :
    failure = .uniqueViolation ∧ holdsReference db (resolveReversal command original) = true := by
  have hinsert := @insertPosting_reversal db commandHash id original command hmem htype hfresh
  unfold recordPosting at h
  rw [storePosting_resolveReversal hnumbered] at h
  dsimp only at h
  generalize insertPosting db.transactions (original.reversedBy command commandHash id) = inserted at h hinsert
  rcases hinsert with ⟨transactions, rfl⟩ | ⟨rfl, hholds⟩
  · cases h
  · cases h
    exact ⟨rfl, hholds⟩

/-- A reversal of a posting that is none itself fails to commit for one of these reasons. -/
theorem commitPosting_reversal (config : Config) {failure : PostingFailure} (hs : Sound db)
    (hmem : original ∈ db.transactions.rows) (htype : original.postingType ≠ .reversal)
    (hnumbered : Numbered 1 original.entries) (hfresh : ∀ tx ∈ db.transactions.rows, tx.id ≠ id)
    (h : commitPosting db (resolveReversal command original) commandHash id = .error failure) :
    (failure = .uniqueViolation ∧ holdsReference db (resolveReversal command original) = true) ∨
      (∃ error, failure = .http error ∧ Refusable config db command original) ∨
      (failure = .other ∧ Unstorable db (resolveReversal command original)) := by
  have hlocks := lockBalances_cases hs (resolveReversal command original)
  rcases commitPosting_error_cases h with herror | ⟨locked, hok, herror⟩ | herror | herror
  · rcases hlocks with ⟨-, locked, hlock, -⟩ | ⟨hnot, error, -, hlock⟩
    · rw [hlock] at herror
      cases herror
    · rw [hlock] at herror
      cases herror
      obtain ⟨e, he, a, ha, hclosed⟩ := closed_of_not_allowed hs hmem hnot
      exact .inr (.inl ⟨_, rfl, .closed e a he ha hclosed⟩)
  · rcases hlocks with ⟨-, locked', hlock, hpairs⟩ | ⟨-, error, -, hlock⟩
    · obtain rfl := Except.ok.inj (hok.symm.trans hlock)
      rcases checkFunds_cases hlock hpairs with ⟨-, hfunds⟩ | ⟨hnot, hfunds⟩
      · rw [hfunds] at herror
        cases herror
      · rw [hfunds] at herror
        cases herror
        exact .inr (.inl ⟨_, rfl, overdrawn_of_not_funded hnot⟩)
    · rw [hok] at hlock
      cases hlock
  · obtain ⟨rfl, hholds⟩ := recordPosting_reversal hmem htype hnumbered hfresh herror
    exact .inl ⟨rfl, hholds⟩
  · rcases settleBalances_cases db (resolveReversal command original) with
      ⟨-, balances, hsettle⟩ | ⟨hunstorable, hsettle⟩
    · rw [hsettle] at herror
      cases herror
    · rw [hsettle] at herror
      cases herror
      exact .inr (.inr ⟨rfl, hunstorable⟩)

/-! ### What a reversing call knows -/

/-- The statements of a call that reverses a posting, with what it has seen of the journal. -/
inductive Reversing (config : Config) (db : Database) (id : Uuid) (command : ReversePosting) : Pc → Prop
  | read : Reversing config db id command (.reverseRead id command)
  | lookup {original : LedgerTransaction} {reversed : Bool} (mem : original ∈ db.transactions.rows)
      (id_eq : original.id = id) (type : original.postingType ≠ .reversal)
      (seen : reversed = true → Reversed db id) :
      Reversing config db id command (.reverseLookup command original reversed)
  | attempt {original : LedgerTransaction} {number : ℕ} (mem : original ∈ db.transactions.rows)
      (id_eq : original.id = id) (type : original.postingType ≠ .reversal) :
      Reversing config db id command
        (.attempt ⟨resolveReversal command original, reverseHash config original.id command, false⟩ number)
  | recover (seen : Reversed db id ∨
      ∃ tx ∈ db.transactions.rows, tx.externalReference = command.externalReference.value) :
      Reversing config db id command
        (.recover command.externalReference.value (reverseHash config id command))

theorem Reversing.mono {pc : Pc} (hg : Grows db db') (h : Reversing config db id command pc) :
    Reversing config db' id command pc := by
  have hsub := hg.transactions.subset
  cases h with
  | read => exact .read
  | lookup mem id_eq type seen => exact .lookup (hsub mem) id_eq type fun h => (seen h).mono hg
  | attempt mem id_eq type => exact .attempt (hsub mem) id_eq type
  | recover seen =>
    refine .recover (seen.imp (Reversed.mono hg) ?_)
    rintro ⟨tx, htx, href⟩
    exact ⟨tx, hsub htx, href⟩

/-- What the statements of a reversal rely on. -/
structure Sure (db : Database) (c : Choice) (pc : Pc) : Prop where
  sound : Sound db
  numbered : ∀ tx ∈ db.transactions.rows, Numbered 1 tx.entries
  fresh : ∀ attempted number, pc = .attempt attempted number →
    ∀ tx ∈ db.transactions.rows, tx.id ≠ c.id

section Statements

variable {c : Choice} {pc pc' : Pc}

/-- Where an attempt at a reversal goes on. -/
theorem runAttempt_goto {number : ℕ} (hsure : Sure db c (.attempt
      ⟨resolveReversal command original, reverseHash config original.id command, false⟩ number))
    (mem : original ∈ db.transactions.rows) (type : original.postingType ≠ .reversal)
    (hnext : (runAttempt c db
      ⟨resolveReversal command original, reverseHash config original.id command, false⟩ number).2 =
        .goto pc') : Reversing config db original.id command pc' := by
  have hviolates : holdsReference db (resolveReversal command original) = true →
      Reversing config db original.id command
        (.recover command.externalReference.value (reverseHash config original.id command)) :=
    fun h => .recover (holdsReference_reversal.mp h)
  unfold runAttempt at hnext
  dsimp only at hnext
  split at hnext
  · split at hnext
    · cases hnext
    · next failure hcommit =>
      rcases commitPosting_reversal config hsure.sound mem type (hsure.numbered _ mem) (hsure.fresh _ _ rfl)
        hcommit with ⟨rfl, hholds⟩ | ⟨error, rfl, -⟩ | ⟨rfl, -⟩
      · cases hnext
        exact hviolates hholds
      · cases hnext
      · cases hnext
  · dsimp only [afterFailure] at hnext
    split at hnext
    · cases hnext
      exact .attempt mem rfl type
    · cases hnext
  · split at hnext
    · next hholds =>
      cases hnext
      exact hviolates hholds
    · cases hnext
      exact .attempt mem rfl type

theorem Reversing.goto (hsure : Sure db c pc) (h : Reversing config db id command pc)
    (hnext : (advance config c db pc).2 = .goto pc') :
    Reversing config (advance config c db pc).1 id command pc' := by
  cases h with
  | read =>
    change runReverseRead db id command = .goto pc' at hnext
    change Reversing config db id command pc'
    unfold runReverseRead at hnext
    split at hnext
    · cases hnext
    next original hfind =>
    split at hnext
    · cases hnext
    next htype =>
    cases hnext
    obtain ⟨hmem, hid⟩ := findBy_some hfind
    refine .lookup hmem hid htype fun hseen => ?_
    obtain ⟨tx, htx, hreverses⟩ := List.any_eq_true.mp hseen
    exact ⟨tx, htx, hid ▸ of_decide_eq_true hreverses⟩
  | @lookup original reversed mem id_eq type seen =>
    change runReverseLookup config db command original reversed = .goto pc' at hnext
    change Reversing config db id command pc'
    unfold runReverseLookup at hnext
    rcases afterLookup_cases db command.externalReference.value (reverseHash config original.id command)
      _ with ⟨_, -, -, -, heq⟩ | ⟨_, -, -, -, heq⟩ | ⟨-, heq⟩
    · rw [heq] at hnext
      cases hnext
    · rw [heq] at hnext
      cases hnext
    · rw [heq] at hnext
      split at hnext
      · cases hnext
      unfold enterPostResolved at hnext
      split at hnext
      · cases hnext
        exact .attempt mem id_eq type
      · cases hnext
  | @attempt original number mem id_eq type =>
    subst id_eq
    have hgrows : Grows db (advance config c db (.attempt ⟨resolveReversal command original,
        reverseHash config original.id command, false⟩ number)).1 :=
      (runAttempt_ok (.reverse mem)).1.grows
    exact (runAttempt_goto hsure mem type hnext).mono hgrows
  | recover =>
    change runRecover db _ _ = .goto pc' at hnext
    unfold runRecover at hnext
    rcases afterLookup_cases db command.externalReference.value (reverseHash config id command)
      (.answer (.error postingConflict)) with ⟨_, -, -, -, heq⟩ | ⟨_, -, -, -, heq⟩ | ⟨-, heq⟩ <;>
    · rw [heq] at hnext
      cases hnext

/-- The answer to a call that has failed to commit three times in a row. -/
def GivesUp (c : Choice) (pc : Pc) : Prop :=
  ∃ attempted number, pc = .attempt attempted number ∧ 3 ≤ number ∧ c.fate = .serializationFailure

/-- Why an attempt at a reversal ends. -/
theorem runAttempt_refused {number : ℕ} {error : HttpError} (hsure : Sure db c (.attempt
      ⟨resolveReversal command original, reverseHash config original.id command, false⟩ number))
    (mem : original ∈ db.transactions.rows) (type : original.postingType ≠ .reversal)
    (hnext : (runAttempt c db
      ⟨resolveReversal command original, reverseHash config original.id command, false⟩ number).2 =
        .answer (.error error)) :
    Refusable config db command original ∨ Unstorable db (resolveReversal command original) ∨
      3 ≤ number ∧ c.fate = .serializationFailure := by
  unfold runAttempt at hnext
  dsimp only at hnext
  split at hnext
  · -- A unique index sends the call to the lookup of the winner, so it is no reason here.
    split at hnext
    · cases hnext
    · next failure hcommit =>
      rcases commitPosting_reversal config hsure.sound mem type (hsure.numbered _ mem) (hsure.fresh _ _ rfl)
        hcommit with ⟨rfl, -⟩ | ⟨error, rfl, hrefusable⟩ | ⟨rfl, hunstorable⟩
      · cases hnext
      · exact .inl hrefusable
      · exact .inr (.inl hunstorable)
  · next hfate =>
    dsimp only [afterFailure] at hnext
    split at hnext
    · cases hnext
    · next hnumber => exact .inr (.inr ⟨not_lt.mp hnumber, hfate⟩)
  · split at hnext
    · cases hnext
    · cases hnext

/-- A reversing call ends in an error for one of six reasons. -/
theorem Reversing.refused (hsure : Sure db c pc) (h : Reversing config db original.id command pc)
    (mem : original ∈ db.transactions.rows) (type : original.postingType ≠ .reversal)
    (hvalid : validateResolved (resolveReversal command original) = .ok ()) {error : HttpError}
    (hnext : (advance config c db pc).2 = .answer (.error error)) :
    Refusable config db command original ∨ Unstorable db (resolveReversal command original) ∨ GivesUp c pc := by
  have hsame : ∀ {other}, other ∈ db.transactions.rows → other.id = original.id → other = original :=
    fun hother hid => eq_of_uniqueBy db.transaction_ids hother mem hid
  cases h with
  | read =>
    change runReverseRead db original.id command = _ at hnext
    rw [runReverseRead, findBy_of_mem db.transaction_ids mem] at hnext
    dsimp only at hnext
    rw [if_neg type] at hnext
    cases hnext
  | @lookup other reversed hother id_eq htype seen =>
    obtain rfl := hsame hother id_eq
    change runReverseLookup config db command other reversed = _ at hnext
    unfold runReverseLookup at hnext
    rcases afterLookup_cases db command.externalReference.value (reverseHash config other.id command)
      (if reversed then .answer (.error alreadyReversed) else enterPostResolved
        ⟨resolveReversal command other, reverseHash config other.id command, false⟩) with
      ⟨_, -, -, -, heq⟩ | ⟨tx, htx, href, hhash, -⟩ | ⟨-, heq⟩
    · rw [heq] at hnext
      cases hnext
    · exact .inl (.reused tx htx href hhash)
    · rw [heq] at hnext
      split at hnext
      · next hreversed => exact .inl (.reversed (seen hreversed))
      · rw [enterPostResolved, hvalid] at hnext
        cases hnext
  | @attempt other number hother id_eq htype =>
    obtain rfl := hsame hother id_eq
    rcases runAttempt_refused hsure mem type hnext with hrefusable | hunstorable | ⟨hnumber, hfate⟩
    · exact .inl hrefusable
    · exact .inr (.inl hunstorable)
    · exact .inr (.inr ⟨_, number, rfl, hnumber, hfate⟩)
  | recover seen =>
    change runRecover db _ _ = _ at hnext
    unfold runRecover at hnext
    rcases afterLookup_cases db command.externalReference.value (reverseHash config original.id command)
      (.answer (.error postingConflict)) with ⟨_, -, -, -, heq⟩ | ⟨tx, htx, href, hhash, -⟩ | ⟨hnone, -⟩
    · rw [heq] at hnext
      cases hnext
    · exact .inl (.reused tx htx href hhash)
    · rcases seen with hreversed | ⟨tx, htx, href⟩
      · exact .inl (.reversed hreversed)
      · exact absurd href (hnone tx htx)

end Statements

/-! ### Every order of the calls -/

section Runs

variable {ι : Type} [DecidableEq ι] {s s' : State ι} {i : ι} {pc : Pc}

/-- The id that an attempt draws for its transaction is none that is taken. -/
def DrawsNewId (s : State ι) : Action ι → Prop
  | .run i choice =>
    match s.calls i with
    | some ⟨_, .running (.attempt _ _)⟩ => ∀ tx ∈ s.db.transactions.rows, tx.id ≠ choice.id
    | _ => True
  | _ => True

/-- The same as a test. -/
def drawsNewId (s : State ι) : Action ι → Bool
  | .run i choice =>
    match s.calls i with
    | some ⟨_, .running (.attempt _ _)⟩ => s.db.transactions.rows.all fun tx => decide (tx.id ≠ choice.id)
    | _ => true
  | _ => true

omit [DecidableEq ι] in
theorem drawsNewId_sound {a : Action ι} (h : drawsNewId s a = true) : DrawsNewId s a := by
  cases a with
  | run i choice =>
    simp only [DrawsNewId]
    split
    · next hcall =>
      simp only [drawsNewId, hcall, List.all_eq_true, decide_eq_true_eq] at h
      exact h
    · trivial
  | _ => trivial

theorem numbered_of_reachable (h : (system ι config).Reachable s) :
    ∀ tx ∈ s.db.transactions.rows, Numbered 1 tx.entries := by
  intro tx htx
  obtain ⟨_, _, _, -, hposted⟩ := posted_of_reachable h tx htx
  exact hposted.numbered

theorem sure_of_reachable {choice : Choice} (h : (system ι config).Reachable s)
    (hrun : s.calls i = some ⟨request, .running pc⟩) (hid : DrawsNewId s (.run i choice)) :
    Sure s.db choice pc := by
  refine ⟨sound_of_reachable h, numbered_of_reachable h, ?_⟩
  rintro attempted number rfl
  simpa only [DrawsNewId, hrun] using hid

/-- A reversing call has reached its statement with what the statement relies on. -/
theorem reversing_of_reachable (h : (system ι config).ReachableBy DrawsNewId s)
    (hrun : s.calls i = some ⟨.reverse id command, .running pc⟩) :
    Reversing config s.db id command pc := by
  refine running_of_reachableBy (P := fun db request pc => ∀ id command,
    request = .reverse id command → Reversing config db id command pc)
    (fun hg hp id command hr => (hp id command hr).mono hg) ?_ ?_ h i _ pc hrun id command rfl
  · rintro db _ pc hentry id command rfl
    cases hentry
    exact .read
  · intro s i choice request pc pc' hr hok hrun hp hnext id command heq
    exact (hp id command heq).goto (sure_of_reachable hr hrun hok) hnext

/-- How a call can be found whose reversal was committed before it first looked. -/
def Repeats (original : LedgerTransaction) (command : ReversePosting) (response : LedgerPosting) :
    Progress → Prop
  | .running pc => pc = .reverseRead original.id command ∨
      ∃ reversed, pc = .reverseLookup command original reversed
  | .answered outcome => outcome = .posting response
  | .stopped => True

/-- The duplicate check of a repeat finds the reversal. -/
theorem repeats_of_advance {choice : Choice} (htx : tx ∈ db.transactions.rows)
    (href : tx.externalReference = command.externalReference.value)
    (hhash : tx.commandHash = reverseHash config original.id command)
    (hmem : original ∈ db.transactions.rows) (htype : original.postingType ≠ .reversal)
    (h : Repeats original command (toResponse tx) (.running pc)) :
    Repeats original command (toResponse tx) (advance config choice db pc).2.progress := by
  rcases h with rfl | ⟨reversed, rfl⟩
  · change Repeats original command _ (runReverseRead db original.id command).progress
    rw [runReverseRead, findBy_of_mem db.transaction_ids hmem]
    dsimp only
    rw [if_neg htype]
    exact .inr ⟨_, rfl⟩
  · change Repeats original command _ (runReverseLookup config db command original reversed).progress
    have hfind : db.findByReference command.externalReference.value = some tx :=
      Database.findByReference_eq_some_iff.mpr ⟨htx, href⟩
    simp [runReverseLookup, afterLookup, findIdempotent, hfind, hhash, Next.progress, Repeats]

theorem repeats_of_steps {progress : Progress} (hr : (system ι config).Reachable s)
    (htx : tx ∈ s.db.transactions.rows)
    (href : tx.externalReference = command.externalReference.value)
    (hhash : tx.commandHash = reverseHash config original.id command)
    (hmem : original ∈ s.db.transactions.rows) (htype : original.postingType ≠ .reversal)
    (hcall : s.calls i = some ⟨.reverse original.id command, progress⟩)
    (h : Repeats original command (toResponse tx) progress) (hs : (system ι config).Steps s s') :
    ∃ progress', s'.calls i = some ⟨.reverse original.id command, progress'⟩ ∧
      Repeats original command (toResponse tx) progress' := by
  refine (System.Steps.preserves (P := fun s => tx ∈ s.db.transactions.rows ∧
    original ∈ s.db.transactions.rows ∧ ∃ progress, s.calls i = some ⟨.reverse original.id command, progress⟩ ∧
      Repeats original command (toResponse tx) progress) ?_ hr ⟨htx, hmem, progress, hcall, h⟩ hs).2.2
  rintro s a s' hr ⟨htx, hmem, progress, hcall, h⟩ hstep
  have hsub := (step_grows (invariant_of_reachable hr) hstep).transactions.subset
  refine ⟨hsub htx, hsub hmem, ?_⟩
  rcases step_cases hstep with ⟨j, _, _, hfree, rfl, -⟩ | ⟨j, choice, _, pc, -, hrun, rfl⟩ |
    ⟨j, _, _, -, hrun, rfl⟩
  · have hne : i ≠ j := by
      rintro rfl
      rw [hcall] at hfree
      cases hfree
    exact ⟨progress, (State.setCall_calls_of_ne hne).trans hcall, h⟩
  · by_cases hij : i = j
    · subst hij
      rw [hcall] at hrun
      cases hrun
      exact ⟨_, State.setCall_calls_self, repeats_of_advance htx href hhash hmem htype h⟩
    · exact ⟨progress, (State.setCall_calls_of_ne hij).trans hcall, h⟩
  · by_cases hij : i = j
    · subst hij
      rw [hcall] at hrun
      cases hrun
      exact ⟨.stopped, State.setCall_calls_self, trivial⟩
    · exact ⟨progress, (State.setCall_calls_of_ne hij).trans hcall, h⟩

/-- The transaction takes the posting back: its entries in their order, each on the other side, so
that every account moves by the opposite of what the posting moved it by. -/
structure TakesBack (original tx : LedgerTransaction) : Prop where
  reverses : tx.postingType = .reversal ∧ tx.reversesTransactionId = some original.id
  declares : tx.sourceCurrency = original.sourceCurrency ∧ tx.targetCurrency = original.targetCurrency ∧
    tx.sourceAmount = original.sourceAmount ∧ tx.targetAmount = original.targetAmount ∧
    tx.fxQuoteId = original.fxQuoteId ∧ tx.lockedFxRate = original.lockedFxRate
  entries : tx.entries = original.entries.map LedgerEntry.flipped
  moves : ∀ normal account, journal.balance normal account tx.entries =
    -journal.balance normal account original.entries

theorem takesBack_reversedBy : TakesBack original (original.reversedBy command commandHash id) :=
  ⟨⟨rfl, rfl⟩, ⟨rfl, rfl, rfl, rfl, rfl, rfl⟩, rfl,
    fun normal account => undoes_flipped.balance normal account original.entries⟩

end Runs

/-! ### A reversal in four runs -/

/-- No reason to refuse the reversal. -/
def unhindered (config : Config) (db : Database) (command : ReversePosting)
    (original : LedgerTransaction) : Bool :=
  (db.transactions.rows.all fun tx => decide (tx.reversesTransactionId ≠ some original.id) &&
    (decide (tx.externalReference ≠ command.externalReference.value) ||
      decide (tx.commandHash = reverseHash config original.id command))) &&
  original.entries.all fun e => (db.findAccount e.ledgerAccountId).all fun a =>
    decide (a.status ≠ .closed) && (db.findBalance e.ledgerAccountId).all fun b =>
      decide (a.accountType ≠ .customer) ||
        decide (0 ≤ nextBalance a b.availableBalance.value (original.entries.map LedgerEntry.undoing))

theorem not_refusable (h : unhindered config db command original = true) :
    ¬ Refusable config db command original := by
  simp only [unhindered, Bool.and_eq_true, List.all_eq_true, Bool.or_eq_true, decide_eq_true_eq,
    Option.all_eq_true] at h
  obtain ⟨hrows, hentries⟩ := h
  intro hrefusable
  cases hrefusable with
  | reversed hreversed =>
    obtain ⟨tx, htx, hreverses⟩ := hreversed
    exact (hrows tx htx).1 hreverses
  | reused tx mem reference other =>
    rcases (hrows tx mem).2 with hne | heq
    · exact hne reference
    · exact other heq
  | closed e a mem account status => exact (hentries e mem a account).1 status
  | overdrawn e a b mem account balance customer negative =>
    rcases (hentries e mem a account).2 b balance with hne | hle
    · exact hne customer
    · exact absurd negative hle.not_gt

def reversalOf (externalReference : Uuid) : ReversePosting := ⟨⟨externalReference, 0⟩, ⟨0, 0⟩⟩

/-- A reversal up to its first attempt. -/
def reversalStart (i : ℕ) (transactionId externalReference : Uuid) : List (Action ℕ) :=
  [.start i (.reverse transactionId (reversalOf externalReference)), .run i {}, .run i {}]

/-- A wallet is provisioned and funded with ten dollars. -/
def fundedRun : List (Action ℕ) :=
  provisionRun 0 10 1 ++ fundingRun 1 (fundingOf 5 10 tenDollars) true 3

/-- A step of call 2 that answers the reversal of the transaction with an error, though there is no reason to
refuse it. -/
def failsUnhindered (transactionId externalReference : Uuid) (choice : Choice) (s : State ℕ) : Bool :=
  (findBy LedgerTransaction.id transactionId s.db.transactions.rows).any (fun original =>
    decide (original.postingType ≠ .reversal) &&
      unhindered fundingConfig s.db (reversalOf externalReference) original) &&
  (step fundingConfig s (.run 2 choice)).any fun s' => decide (s'.calls 2 =
    some ⟨.reverse transactionId (reversalOf externalReference), .answered (.error internalServerError)⟩)

/-- A reversing call is answered with an error only where there is a reason to refuse it. -/
def RefusedOnlyHindered : Prop :=
  ∀ (s s' : State ℕ) i choice original command error, (system ℕ fundingConfig).Reachable s →
    original ∈ s.db.transactions.rows → original.postingType ≠ .reversal →
    step fundingConfig s (.run i choice) = some s' →
    s'.calls i = some ⟨.reverse original.id command, .answered (.error error)⟩ →
    Refusable fundingConfig s.db command original

theorem not_refusedOnlyHindered {s : State ℕ} {transactionId externalReference : Uuid} {choice : Choice}
    (hr : (system ℕ fundingConfig).Reachable s)
    (h : failsUnhindered transactionId externalReference choice s = true) : ¬ RefusedOnlyHindered := by
  intro hall
  simp only [failsUnhindered, Bool.and_eq_true, Option.any_eq_true, decide_eq_true_eq] at h
  obtain ⟨⟨original, hfind, htype, hunhindered⟩, s', hstep, hanswer⟩ := h
  obtain ⟨hmem, rfl⟩ := findBy_some hfind
  exact not_refusable hunhindered (hall s s' 2 choice original _ _ hr hmem htype hstep hanswer)

def failsToSerialize : Choice := { fate := .serializationFailure }

theorem isMoney_one : isMoney ⟨100000000, 8⟩ = true := by decide

def oneDollar : MoneyText := ⟨⟨100000000, 8⟩, isMoney_one⟩

theorem isMoney_great : isMoney ⟨9999999999999999999900000000, 8⟩ = true := by decide

/-- The largest amount the columns hold, less its fraction. -/
def greatAmount : MoneyText := ⟨⟨9999999999999999999900000000, 8⟩, isMoney_great⟩

/-- One dollar for one euro. -/
def exchangeOfOne : PostingCommand where
  externalReference := ⟨7, 0⟩
  requestId := ⟨0, 0⟩
  postingType := .fxTransfer
  sourceCurrency := dollars
  targetCurrency := euros
  sourceAmount := oneDollar.val
  targetAmount := oneDollar.val
  fxQuoteId := some ⟨20, 0⟩
  lockedFxRate := some ⟨1000000000000, 12⟩
  entries := [⟨⟨10, 0⟩, .debit, oneDollar.val, dollars⟩, ⟨⟨11, 0⟩, .credit, oneDollar.val, euros⟩]

/-- A dollar is exchanged and funded anew, so that the account is as full as before. -/
def refilledRun : List (Action ℕ) :=
  provisionRun 0 10 1 ++ fundingRun 1 (fundingOf 5 10 greatAmount) true 3 ++
    [.start 3 (.provision ⟨11, 0⟩ euros), .run 3 {}, .run 3 { id := 2 },
      .start 4 (.post exchangeOfOne false), .run 4 {}, .run 4 {}, .run 4 {}, .run 4 { source := false },
      .run 4 { id := 98, source := false }, .run 4 { id := 8 }] ++
    fundingRun 5 (fundingOf 9 10 oneDollar) false 10

end NovaPay.Ledger
