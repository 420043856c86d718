import NovaPay.Settlement.Invariant
import NovaPay.Transaction.Lockstep

/-!
# The postings of a transfer

All postings that Transaction sends for one transfer are one command to the Ledger, and the one that
is committed debits the sender and credits the recipient of the completed transfer.
-/

namespace NovaPay.Settlement

open DecimalArithmetic Relational TransitionSystem

variable {config : Config} {s s' : State} {a : Action} {transferIds : Set Uuid}
  {e e' : Transaction.ExecId} {t t' : Transaction.Transfer}
  {sender recipient sender' recipient' : WalletValidation} {posting posting' : PostingCommand}
  {tx : Ledger.LedgerTransaction}

/-- Transfers draw their ids from `transferIds`, and nobody else uses these as references. -/
def KeepsApart (transferIds : Set Uuid) (s : State) : Action → Prop
  | .transaction (.run e choice) => ∀ origin request,
      s.transaction.executions e = some ⟨origin, some (.claimInsert request)⟩ →
      choice.ids.transferId ∈ transferIds
  | .ledger (.start (.inr _) request) | .ledger (.refuse (.inr _) request _) =>
    ∀ reference, request.externalReference = some reference → reference ∉ transferIds
  | _ => True

structure Apart (transferIds : Set Uuid) (s : State) : Prop where
  transfers : ∀ id t, s.transaction.db.findTransfer id = some t → id ∈ transferIds
  others : ∀ i call reference, s.ledger.calls (.inr i) = some call →
    call.request.externalReference = some reference → reference ∉ transferIds

theorem apart_initial : Apart transferIds .initial := by
  constructor
  · simp [State.initial, Transaction.State.initial, Transaction.Database.empty,
      Transaction.Database.findTransfer, findBy]
  · simp [State.initial, Ledger.State.initial]

theorem Apart.step (hi : Invariant config s) (ha : Apart transferIds s)
    (hok : KeepsApart transferIds s a) (h : step config s a = some s') : Apart transferIds s' := by
  obtain ⟨-, ⟨action, t, rfl, ht, rfl⟩ | ⟨action, fx, rfl, hfx, rfl⟩ |
    ⟨action, ledger, rfl, hledger, rfl⟩⟩ := step_cases h
  · refine ⟨fun id u hu => ?_, ha.others⟩
    rcases Transaction.rows_of_step hi.transaction ht hu with hold |
      ⟨e, choice, origin, pc, rfl, he, hw⟩
    · exact ha.transfers id u hold
    have hid : u.id = id := (Transaction.Database.findTransfer_eq_some_iff.mp hu).2
    rcases hw.old with ⟨request, rfl, hclaims⟩ | ⟨v, hv, -⟩
    · rw [← hid, hclaims.id]
      exact hok origin request he
    · exact ha.transfers id v (hid ▸ hv)
  · exact ⟨ha.transfers, ha.others⟩
  · refine ⟨ha.transfers, fun i call reference hcall href => ?_⟩
    rcases Ledger.calls_of_step hledger hcall with ⟨progress, hold⟩ | rfl | ⟨error, rfl⟩
    · exact ha.others i _ reference hold href
    · exact hok reference href
    · exact hok reference href

/-- The reference of a posting is its transfer. -/
theorem reference_of_post (h : Transaction.PostOk s.transaction e t sender recipient posting) :
    posting.externalReference = .ofUuid t.id := by
  obtain ⟨requestId, hcommand⟩ := h.command
  unfold Transaction.postingCommand at hcommand
  repeat' split at hcommand
  all_goals cases hcommand
  rfl

/-- The hash leaves the request id out. -/
theorem postHash_congr (config : Ledger.Config) {requestId : UuidText}
    (h : posting' = { posting with requestId := requestId }) :
    Ledger.postHash config posting' = Ledger.postHash config posting := by
  rw [h]
  rfl

theorem Invariant.posting_eq (hi : Invariant config s)
    (h : (e, .post t sender recipient posting) ∈ s.transaction.calls)
    (h' : (e', .post t' sender' recipient' posting') ∈ s.transaction.calls) (hid : t.id = t'.id) :
    posting' = { posting with requestId := posting'.requestId } ∧
      Ledger.postHash config.ledger posting' = Ledger.postHash config.ledger posting := by
  have heq := (hi.calls.posts _ _ _ _ _ h).command_eq (hi.calls.posts _ _ _ _ _ h') hid
  exact ⟨heq, postHash_congr config.ledger heq⟩

theorem reference_of_posted {config : Ledger.Config} {db : Ledger.Database}
    {request : Ledger.Request} (h : Ledger.Posted config db request tx) :
    request.externalReference = some tx.externalReference := by
  obtain ⟨p, hresolved, hstores⟩ := h
  rw [hresolved.externalReference, hstores.externalReference]

/-- What is committed under the id of a transfer was posted for it by Transaction. -/
theorem posted_of_transfer (hi : Invariant config s) (ha : Apart transferIds s)
    (htx : tx ∈ s.ledger.db.transactions.rows) (ht : s.transaction.db.findTransfer tx.externalReference = some t) :
    ∃ e u sender recipient posting,
      (e, .post u sender recipient posting) ∈ s.transaction.calls ∧ u.id = tx.externalReference ∧
      s.ledger.calls (.inl e) = some ⟨.post posting false, .answered (.posting (Ledger.toResponse tx))⟩ ∧
      Ledger.Posted config.ledger s.ledger.db (.post posting false) tx := by
  rcases hi.posted htx with ⟨e, u, sender, recipient, posting, hmem, hcall, hposted⟩ |
    ⟨i, request, hcall, -, hposted⟩
  · have href := Option.some.inj (reference_of_posted hposted)
    rw [reference_of_post (hi.calls.posts _ _ _ _ _ hmem)] at href
    exact ⟨e, u, sender, recipient, posting, hmem, href, hcall, hposted⟩
  · exact absurd (ha.transfers _ _ ht) (ha.others i _ _ hcall (reference_of_posted hposted))

/-- No posting of Transaction is refused as another command under its reference. -/
def NeverReused (s : State) : Prop :=
  ∀ e posting, s.ledger.calls (.inl e) ≠
    some ⟨.post posting false, .answered (.error Ledger.idempotencyKeyReused)⟩

theorem neverReused_initial : NeverReused .initial := by
  simp [NeverReused, State.initial, Ledger.State.initial]

theorem not_reused (hi : Invariant config s) (ha : Apart transferIds s)
    (h : (e, .post t sender recipient posting) ∈ s.transaction.calls) :
    ¬ Ledger.Reused config.ledger s.ledger.db posting := by
  rintro ⟨tx, htx, href, hhash⟩
  have hpost := hi.calls.posts _ _ _ _ _ h
  rw [reference_of_post hpost, UuidText.value_ofUuid] at href
  obtain ⟨u, hu, -⟩ := hpost.snapshot
  obtain ⟨e', v, sender', recipient', posting', hmem, hid, -, p, hresolved, -⟩ :=
    posted_of_transfer hi ha htx (href ▸ hu)
  have hsame := (hi.posting_eq h hmem (href.symm.trans hid.symm)).2
  exact hhash ((Option.some.inj hresolved.commandHash).symm.trans hsame)

theorem NeverReused.step (hi : Invariant config s) (ha : Apart transferIds s) (hn : NeverReused s)
    (h : step config s a = some s') : NeverReused s' := by
  obtain ⟨hpermits, ⟨_, _, -, -, rfl⟩ | ⟨_, _, -, -, rfl⟩ | ⟨action, ledger, rfl, hledger, rfl⟩⟩ :=
    step_cases h
  · exact hn
  · exact hn
  intro e posting hcall
  rcases Ledger.reused_of_step hi.ledger hledger hcall with hold | rfl | hreused
  · exact hn e posting hold
  · simp [State.permits, Ledger.postRejections] at hpermits
  · rcases Ledger.calls_of_step hledger hcall with ⟨progress, hold⟩ | rfl | ⟨error, rfl⟩
    · obtain ⟨t, sender, recipient, p, heq, hmem⟩ := sentPosting_iff.mp (hi.sent e _ hold)
      cases heq
      exact not_reused hi ha hmem hreused
    · obtain ⟨t, sender, recipient, p, heq, hmem⟩ := sentPosting_iff.mp hpermits
      cases heq
      exact not_reused hi ha hmem hreused
    · simp only [State.permits, Bool.and_eq_true] at hpermits
      obtain ⟨t, sender, recipient, p, heq, hmem⟩ := sentPosting_iff.mp hpermits.1
      cases heq
      exact not_reused hi ha hmem hreused

/-- The single entry that a transaction has on the account of a wallet. -/
def Moves (db : Ledger.Database) (tx : Ledger.LedgerTransaction) (walletId : Uuid)
    (direction : EntryDirection) (amount : Money) (currency : Currency) : Prop :=
  ∃ account ∈ db.accounts.rows, account.walletId = some walletId ∧ ∃ entry,
    (tx.entries.filter fun e => decide (e.ledgerAccountId = account.id)) = [entry] ∧
    entry.direction = direction ∧ entry.amount = amount ∧ entry.currency = currency

/-- A posting debits the sender of a transfer and credits its recipient. -/
structure Settles (db : Ledger.Database) (t : Transaction.Transfer) (tx : Ledger.LedgerTransaction) :
    Prop where
  debit : Moves db tx t.senderWalletId .debit t.sourceAmount t.sourceCurrency
  credit : ∃ targetAmount, t.targetAmount = some targetAmount ∧
    Moves db tx t.recipientWalletId .credit targetAmount t.targetCurrency

section Settles

variable {db : Ledger.Database} {account other : Ledger.LedgerAccount} {walletId walletId' : Uuid}

theorem account_eq (h : account ∈ db.accounts.rows) (h' : other ∈ db.accounts.rows)
    (hid : account.id = other.id) : account = other := eq_of_uniqueBy db.account_ids h h' hid

/-- A clearing account is no wallet's. -/
theorem not_clearing (h : account ∈ db.accounts.rows) (hw : account.walletId = some walletId) :
    ¬ Ledger.IsClearing db account.id := by
  rintro ⟨c, hc, hid, htype⟩
  obtain rfl := account_eq hc h hid
  have hcheck := db.accounts.checked c hc
  simp [Ledger.accountsSchema, Ledger.LedgerAccount.check, htype, hw] at hcheck

theorem clears_on {command : PostingCommand} {clearing : List Ledger.ResolvedEntry}
    (h : Ledger.Clears db command clearing) : ∀ e ∈ clearing, Ledger.IsClearing db e.ledgerAccountId := by
  rcases h with ⟨-, rfl⟩ | ⟨-, sourceId, targetId, hs, ht, rfl⟩
  · simp
  · simp only [Ledger.clearingEntries, List.mem_cons, List.not_mem_nil, or_false]
    rintro e (rfl | rfl)
    · exact hs
    · exact ht

theorem amount_of_stores {resolved : Ledger.ResolvedEntry} {entry : Ledger.LedgerEntry} {m : Money}
    (h : Ledger.Stores resolved entry) (hm : resolved.amount = (toFixed 8 m.value).value) :
    entry.amount = m := by
  have hamount := h.amount
  rw [hm, Numeric.value_toFixed, Numeric.ofRat?_value] at hamount
  exact (Option.some.inj hamount).symm

end Settles

/-- The posting of a transfer that has its terms. -/
theorem settles_of_posted {db : Ledger.Database} (hwallets : t.senderWalletId ≠ t.recipientWalletId)
    {targetAmount : Money} (htarget : t.targetAmount = some targetAmount) {requestId : UuidText}
    (hposted : Ledger.Posted config.ledger db
      (.post (Transaction.postingOf t targetAmount requestId) false) tx) : Settles db t tx := by
  obtain ⟨p, hresolved, hstores⟩ := hposted
  generalize hhash : tx.commandHash = commandHash at hresolved
  cases hresolved with
  | @post command failBeforeCommit entries clearing valid shape resolves clears =>
  -- the two customer entries, then the clearing legs
  obtain ⟨debit, credit, rfl, hdebit, hcredit⟩ : ∃ debit credit, entries = [debit, credit] ∧
      Ledger.Resolves db _ _ debit ∧ Ledger.Resolves db _ _ credit := by
    cases resolves with
    | cons h rest =>
      cases rest with
      | cons h' rest =>
        cases rest
        exact ⟨_, _, rfl, h, h'⟩
  obtain ⟨e₁, e₂, rest, hentries, h₁, h₂, hrest⟩ : ∃ e₁ e₂ rest, tx.entries = e₁ :: e₂ :: rest ∧
      Ledger.Stores debit e₁ ∧ Ledger.Stores credit e₂ ∧ List.Forall₂ Ledger.Stores clearing rest := by
    have h := hstores.entries
    generalize tx.entries = rows at h
    cases h with
    | cons h₁ h =>
      cases h with
      | cons h₂ h => exact ⟨_, _, _, rfl, h₁, h₂, h⟩
  obtain ⟨a, ha, hwa, hida⟩ := hdebit.account
  obtain ⟨b, hb, hwb, hidb⟩ := hcredit.account
  have hne : a.id ≠ b.id := by
    intro hid
    obtain rfl := account_eq ha hb hid
    exact hwallets (Option.some.inj (hwa.symm.trans hwb))
  have hclearing : ∀ e ∈ rest, Ledger.IsClearing db e.ledgerAccountId := by
    intro e he
    obtain ⟨r, hr, hs⟩ := exists_of_forall₂ hrest e he
    exact hs.ledgerAccountId ▸ clears_on clears r hr
  have hnone : ∀ account ∈ db.accounts.rows, account.walletId ≠ none →
      (rest.filter fun e => decide (e.ledgerAccountId = account.id)) = [] := by
    intro account hacc hw
    obtain ⟨w, hw⟩ := Option.ne_none_iff_exists'.mp hw
    rw [List.filter_eq_nil_iff]
    intro e he heq
    exact not_clearing hacc hw (of_decide_eq_true heq ▸ hclearing e he)
  have hid₁ : e₁.ledgerAccountId = a.id := h₁.ledgerAccountId.trans hida.symm
  have hid₂ : e₂.ledgerAccountId = b.id := h₂.ledgerAccountId.trans hidb.symm
  refine ⟨⟨a, ha, hwa, e₁, ?_, ?_, ?_, ?_⟩, targetAmount, htarget, b, hb, hwb, e₂, ?_, ?_, ?_, ?_⟩
  · simp [hentries, hid₁, hid₂, hne.symm, hnone a ha (by simp [hwa])]
  · exact h₁.direction.trans hdebit.direction
  · exact amount_of_stores h₁ hdebit.amount
  · exact h₁.currency.trans hdebit.currency
  · simp [hentries, hid₁, hid₂, hne, hnone b hb (by simp [hwb])]
  · exact h₂.direction.trans hcredit.direction
  · exact amount_of_stores h₂ hcredit.amount
  · exact h₂.currency.trans hcredit.currency

/-- The row of a transfer that a posting was sent for has its terms for good. -/
theorem settles_of_sent {db : Ledger.Database}
    (ht : s.transaction.db.findTransfer t.id = some t)
    (hpost : Transaction.PostOk s.transaction e t' sender recipient posting) (hid : t'.id = t.id)
    (hposted : Ledger.Posted config.ledger db (.post posting false) tx) : Settles db t tx := by
  obtain ⟨u, hu, hprog⟩ := hpost.snapshot
  obtain rfl : u = t := Option.some.inj (hu.symm.trans (hid ▸ ht))
  obtain ⟨hamount, -⟩ := hprog.terms.resolve_left (by simp [hpost.processing])
  have hsame := hprog.same
  have hcheck := s.transaction.db.transfers.checked u
    (Transaction.Database.findTransfer_eq_some_iff.mp ht).1
  simp only [Transaction.transfersSchema_check, Transaction.Transfer.check, Bool.and_eq_true,
    decide_eq_true_eq] at hcheck
  have hwallets : t'.senderWalletId ≠ t'.recipientWalletId := by
    rw [hsame.senderWalletId, hsame.recipientWalletId]
    exact hcheck.1.1.1.1.1.1
  obtain ⟨requestId, hcommand⟩ := hpost.command
  unfold Transaction.postingCommand at hcommand
  split at hcommand
  · next targetAmount htarget =>
    split at hcommand
    · cases hcommand
    cases hcommand
    have hsettles := settles_of_posted hwallets htarget hposted
    obtain ⟨target, heq, hcredit⟩ := hsettles.credit
    refine ⟨?_, target, hamount.trans heq, ?_⟩
    · rw [← hsame.senderWalletId, ← hsame.sourceAmount, ← hsame.sourceCurrency]
      exact hsettles.debit
    · rw [← hsame.recipientWalletId, ← hsame.targetCurrency]
      exact hcredit
  · cases hcommand

/-- What `validateWallets` accepts. -/
structure Validated (t : Transaction.Transfer) (sender recipient : WalletValidation) : Prop where
  owner : sender.ownerExternalRef = t.clientId
  active : sender.status = .active ∧ recipient.status = .active
  provisioned : sender.ledgerAccountId ≠ none ∧ recipient.ledgerAccountId ≠ none
  currencies : sender.currency = t.sourceCurrency ∧ recipient.currency = t.targetCurrency

theorem validated_of_ok (h : Transaction.validateWallets t sender recipient = .ok ()) :
    Validated t sender recipient := by
  unfold Transaction.validateWallets at h
  split at h
  · cases h
  next howner =>
  split at h
  · cases h
  next hready =>
  split at h
  · cases h
  next hcurrency =>
  push Not at howner hready hcurrency
  exact ⟨howner, ⟨hready.1, hready.2.1⟩, hready.2.2, hcurrency⟩

theorem apart_and_unused (h : (system config).ReachableBy (KeepsApart transferIds) s) :
    Apart transferIds s ∧ NeverReused s := by
  refine System.ReachableBy.invariant (P := fun s => Apart transferIds s ∧ NeverReused s)
    ⟨apart_initial, neverReused_initial⟩ ?_ h
  intro s a s' hr hp hok hs
  have hi := invariant_of_reachable hr.reachable
  exact ⟨hp.1.step hi hok hs, hp.2.step hi hp.1 hs⟩

/-- All postings sent for one transfer are one command but for the request id, with one hash, and
are never refused as another; each was sent after the transfer's wallets were validated; and a
completed transfer names the one posting under its id, which moves its amounts. -/
theorem transfers_settle_once (h : (system config).ReachableBy (KeepsApart transferIds) s) :
    (∀ e t sender recipient posting,
      (e, .post t sender recipient posting) ∈ s.transaction.calls →
      Validated t sender recipient ∧
      (e, .validation t.senderWalletId t.recipientWalletId) ∈ s.transaction.calls ∧
      s.ledger.calls (.inl e) ≠
        some ⟨.post posting false, .answered (.error Ledger.idempotencyKeyReused)⟩ ∧
      ∀ e' t' sender' recipient' posting',
        (e', .post t' sender' recipient' posting') ∈ s.transaction.calls → t.id = t'.id →
        posting' = { posting with requestId := posting'.requestId } ∧
        Ledger.postHash config.ledger posting' = Ledger.postHash config.ledger posting) ∧
    (∀ t ∈ s.transaction.db.transfers.rows, t.status = .completed →
      ∃ tx ∈ s.ledger.db.transactions.rows, t.ledgerTransactionId = some tx.id ∧
        tx.externalReference = t.id ∧
        (∀ tx' ∈ s.ledger.db.transactions.rows, tx'.externalReference = t.id → tx' = tx) ∧
        Settles s.ledger.db t tx) := by
  have hi := invariant_of_reachable h.reachable
  obtain ⟨ha, hn⟩ := apart_and_unused h
  refine ⟨fun e t sender recipient posting hmem => ?_, fun t hmem hs => ?_⟩
  · have hpost := hi.calls.posts _ _ _ _ _ hmem
    exact ⟨validated_of_ok hpost.validated, hpost.asked, hn e posting,
      fun e' t' sender' recipient' posting' hmem' hid => hi.posting_eq hmem hmem' hid⟩
  · have ht := Transaction.Database.findTransfer_eq_some_iff.mpr ⟨hmem, rfl⟩
    obtain ⟨x, hx, tx, htx, href, rfl⟩ := (hi.backed.rows t.id t ht).completed hs
    obtain ⟨e, u, sender, recipient, posting, hsent, hid, -, hposted⟩ :=
      posted_of_transfer hi ha htx (href ▸ ht)
    refine ⟨tx, htx, hx, href, fun tx' htx' href' => ?_,
      settles_of_sent ht (hi.calls.posts _ _ _ _ _ hsent) (hid.trans href) hposted⟩
    exact eq_of_uniqueBy s.ledger.db.external_references htx' htx (href'.trans href.symm)

open Transaction (usd senderWallet recipientWallet)

def settlementConfig : Config := ⟨Transaction.domesticConfig, Ledger.fundingConfig⟩

def fortyDollars : Ledger.FundWallet where
  externalReference := .ofUuid 5
  requestId := .ofUuid 0
  walletId := .ofUuid senderWallet
  amount := ⟨⟨4000, 2⟩, by decide⟩
  currency := usd

def provisionRun (i : ℕ) (walletId accountId : Uuid) (currency : Currency) : List Action := [
  .ledger (.start (.inr i) (.provision (.ofUuid walletId) currency)),
  .ledger (.run (.inr i) {}),
  .ledger (.run (.inr i) { id := accountId })]

def fundRun (i : ℕ) (command : Ledger.FundWallet) (clearingId id : Uuid) : List Action := [
  .ledger (.start (.inr i) (.fund command)),
  .ledger (.run (.inr i) {}),
  .ledger (.run (.inr i) {}),
  .ledger (.run (.inr i) { id := clearingId }),
  .ledger (.run (.inr i) {}),
  .ledger (.run (.inr i) { id := id })]

/-- The posting of the transfer 7 of `Transaction.domesticRequest`. -/
def domesticPosting : PostingCommand where
  externalReference := .ofUuid 7
  requestId := .ofUuid 0
  postingType := .transfer
  sourceCurrency := usd
  targetCurrency := usd
  sourceAmount := ⟨2500000000, 8⟩
  targetAmount := ⟨2500000000, 8⟩
  fxQuoteId := none
  lockedFxRate := none
  entries := [
    ⟨.ofUuid senderWallet, .debit, ⟨2500000000, 8⟩, usd⟩,
    ⟨.ofUuid recipientWallet, .credit, ⟨2500000000, 8⟩, usd⟩]

/-- A domestic transfer until its posting is on its way to the Ledger. -/
def requestedRun : List Action := [
  .transaction (.request 0 (.create Transaction.domesticRequest)),
  .transaction (.run 0 {}),
  .transaction (.run 0 { ids := ⟨7, 8, 9⟩ }),
  .transaction (.run 0 { date := 1 }),
  .transaction (.run 0 {}),
  .transaction (.run 0 {
    account := .ok (Transaction.walletOf senderWallet "client-a" 1,
      Transaction.walletOf recipientWallet "client-b" 2) }),
  .ledger (.start (.inl 0) (.post domesticPosting false))]

/-- A funded sender, and the transfer. -/
def sentRun : List Action :=
  provisionRun 0 senderWallet 1 usd ++ provisionRun 1 recipientWallet 2 usd ++
  fundRun 2 fortyDollars 3 4 ++ requestedRun

def committedRun : List Action := [
  .ledger (.run (.inl 0) {}),
  .ledger (.run (.inl 0) {}),
  .ledger (.run (.inl 0) { id := 100 })]

def completedRun : List Action := [
  .transaction (.run 0 { posting := .ok (some {
    id := 100
    externalReference := 7
    postingType := .transfer
    entries := [⟨1, .debit, ⟨2500000000, 8⟩, usd⟩, ⟨2, .credit, ⟨2500000000, 8⟩, usd⟩] }) }),
  .transaction (.run 0 { date := 2 })]

/-- The transfer is drawn the id 7, which nobody else uses as a reference. -/
def keepsSeven (s : State) : Action → Bool
  | .transaction (.run e choice) =>
    match s.transaction.executions e with
    | some ⟨_, some (.claimInsert _)⟩ => decide (choice.ids.transferId = 7)
    | _ => true
  | .ledger (.start (.inr _) request) | .ledger (.refuse (.inr _) request _) =>
    decide (request.externalReference ≠ some 7)
  | _ => true

theorem keepsApart_seven (s : State) (a : Action) (h : keepsSeven s a = true) :
    KeepsApart {7} s a := by
  cases a with
  | transaction action =>
    cases action with
    | run e choice =>
      intro origin request he
      simpa [keepsSeven, he] using h
    | _ => trivial
  | fx action => trivial
  | ledger action =>
    cases action with
    | start i request =>
      cases i with
      | inl e => trivial
      | inr i =>
        rintro reference href rfl
        simp [keepsSeven, href] at h
    | refuse i request error =>
      cases i with
      | inl e => trivial
      | inr i =>
        rintro reference href rfl
        simp [keepsSeven, href] at h
    | _ => trivial

/-- The theorem at the end of a domestic transfer that is completed. -/
theorem transfers_settle_once_completedRun : ∃ s t,
    (system settlementConfig).runWhere keepsSeven .initial (sentRun ++ committedRun ++ completedRun) =
      some s ∧ t ∈ s.transaction.db.transfers.rows ∧ t.status = .completed ∧
    ∃ tx ∈ s.ledger.db.transactions.rows, t.ledgerTransactionId = some tx.id ∧
      Settles s.ledger.db t tx := by
  have hrun : ((system settlementConfig).runWhere keepsSeven .initial
      (sentRun ++ committedRun ++ completedRun)).map (fun s =>
        s.transaction.db.transfers.rows.map Transaction.Transfer.status) = some [.completed] := by
    decide +kernel
  obtain ⟨s, hs, hrows⟩ := Option.map_eq_some_iff.mp hrun
  obtain ⟨t, ht, hstatus⟩ := List.mem_map.mp (hrows ▸ List.mem_singleton.mpr rfl)
  obtain ⟨-, hcompleted⟩ := transfers_settle_once
    (System.ReachableBy.runWhere keepsApart_seven .init hs)
  obtain ⟨tx, htx, hid, -, -, hsettles⟩ := hcompleted t ht hstatus
  exact ⟨s, t, hs, ht, hstatus, tx, htx, hid, hsettles⟩

end NovaPay.Settlement
