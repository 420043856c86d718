import NovaPay.Ledger.Totals
import NovaPay.Payroll.Submission
import NovaPay.Transaction.Idempotency

/-!
# Positive amounts

Transaction, Payroll and the Ledger each check the amounts of a command before they store them, and
their columns check them once more. Both are compared here over the commands of all three.
-/

namespace NovaPay

open DecimalArithmetic Relational

/-- A command that its service lets through the validation pipe. -/
inductive Submission
  | transfer (command : Transaction.Command)
  | payroll (command : Payroll.CreatePayrollJob) (nonempty : command.items ≠ [])
  | posting (config : Ledger.Config) (db : Ledger.Database) (command : PostingCommand)
      (failBeforeCommit : Bool) (resolved : Ledger.ResolvedPosting) (commandHash : Digest)
      (resolves : Ledger.Resolved config db (.post command failBeforeCommit) resolved commandHash)

namespace Submission

variable {s : Submission}

/-- The amounts of the command. -/
def amounts : Submission → List Text
  | .transfer (.domestic command) => [command.amount.val]
  | .transfer (.international command) => [command.sourceAmount.val]
  | .payroll command _ => command.items.map fun item => item.amount.val
  | .posting _ _ command _ _ _ _ => Ledger.amounts command

/-- What the checks of the service say of the command. -/
def verdict : Submission → Except HttpError Unit
  | .transfer command => command.validate
  | .payroll command _ => (Payroll.normalizeCommand command).map fun _ => ()
  | .posting _ _ _ _ resolved _ _ => Ledger.validateResolved resolved

/-- The errors of the positivity checks. -/
def amountErrors : List HttpError :=
  [Transaction.invalidAmount, Payroll.invalidAmount, Ledger.invalidPostingAmount,
    Ledger.invalidEntryAmount]

def RefusedForAmount (s : Submission) : Prop := ∃ error ∈ amountErrors, s.verdict = .error error

/-- No check that stands before those of the amounts refuses the command. -/
def Reached : Submission → Prop
  | .transfer (.domestic command) => command.senderWalletId ≠ command.recipientWalletId
  | .transfer (.international command) => command.senderWalletId ≠ command.recipientWalletId ∧
      command.sourceCurrency ≠ command.targetCurrency
  | .payroll command _ => command.items.length ≤ Payroll.maxItems ∧
      (command.items.map Payroll.PayrollItemInput.externalItemId).Nodup
  | .posting .. => True

/-- No row of the command is refused for an amount: the insert of a transfer is refused for its
wallets only, the items of a payroll and their total pass their checks, and so do the amounts of a
posting and of its entries. -/
def Storable : Submission → Prop
  | .transfer command => ∀ config db request c, request.command = command →
      Transaction.insertClaim config request c db = .error .rejected →
      match command with
      | .domestic command => command.senderWalletId.value = command.recipientWalletId.value
      | .international command => command.senderWalletId.value = command.recipientWalletId.value
  | .payroll command _ => ∀ normalized, Payroll.normalizeCommand command = .ok normalized →
      ∀ (jobId : Uuid) (itemIds : ℕ → Uuid), ∃ rows, (normalized.items.zipIdx.mapM fun item =>
          Payroll.itemRow jobId normalized.currency (itemIds item.2) item.2 item.1) = .ok rows ∧
        ∀ total : Money, Numeric.ofRat? (Payroll.totalAmount rows) = some total → 0 < total.value
  | .posting _ _ _ _ resolved commandHash _ => ∀ id tx,
      Ledger.storePosting resolved commandHash id = some tx → Ledger.AmountsChecked tx

/-- The checks of the amounts accept exactly the positive ones, so that the columns accept what
they accept. -/
structure ChecksAmounts (s : Submission) : Prop where
  accepts : s.Reached → (¬ s.RefusedForAmount ↔ ∀ amount ∈ s.amounts, 0 < amount.value)
  storable : s.verdict = .ok () → s.Storable

theorem isMoney_of_mem_amounts : ∀ amount ∈ s.amounts, isMoney amount = true := by
  cases s with
  | transfer command =>
    cases command with
    | domestic command => simpa [amounts] using command.amount.property
    | international command => simpa [amounts] using command.sourceAmount.property
  | payroll command _ =>
    intro amount h
    obtain ⟨item, -, rfl⟩ := List.mem_map.mp h
    exact item.amount.property
  | posting _ _ command _ _ _ resolves => exact Ledger.isMoney_of_mem_amounts resolves.valid

theorem isPositive_of_isMoney {t : Text} (h : isMoney t = true) : Transaction.isPositive t = true := by
  simp only [isMoney, Bool.and_eq_true, decide_eq_true_eq] at h
  exact decide_eq_true h.1.1.1

/-- `isPositive` tests the sign, and no text of an amount has one, so the checks refuse nothing. -/
theorem not_refusedForAmount : ¬ s.RefusedForAmount := by
  rintro ⟨error, herror, h⟩
  cases s with
  | transfer command =>
    cases command with
    | domestic command =>
      rw [verdict, Transaction.Command.validate, Transaction.validateCommand,
        isPositive_of_isMoney command.amount.property] at h
      split at h
      · cases h
        exact absurd herror (by decide)
      · cases h
    | international command =>
      rw [verdict, Transaction.Command.validate, Transaction.validateInternationalCommand,
        isPositive_of_isMoney command.sourceAmount.property] at h
      split at h
      · cases h
        exact absurd herror (by decide)
      split at h
      · cases h
        exact absurd herror (by decide)
      · cases h
  | payroll command _ =>
    have hnormalize : Payroll.normalizeCommand command = .error error := by
      cases hn : Payroll.normalizeCommand command with
      | ok _ => rw [verdict, hn] at h; cases h
      | error _ => rw [verdict, hn] at h; cases h; rfl
    rcases Payroll.normalizeCommand_error hnormalize with rfl | rfl | ⟨-, item, -, hsign⟩
    · exact absurd herror (by decide)
    · exact absurd herror (by decide)
    · rw [isPositive_of_isMoney item.amount.property] at hsign
      cases hsign
  | posting _ _ _ _ _ _ resolves =>
    rcases resolves.validateResolved_error h with rfl | rfl
    · exact absurd herror (by decide)
    · exact absurd herror (by decide)

theorem reached_of_accepted (h : s.verdict = .ok ()) : s.Reached := by
  cases s with
  | transfer command =>
    cases command with
    | domestic command =>
      rw [verdict, Transaction.Command.validate, Transaction.validateCommand] at h
      split at h
      · cases h
      · assumption
    | international command =>
      rw [verdict, Transaction.Command.validate, Transaction.validateInternationalCommand] at h
      split at h
      · cases h
      split at h
      · cases h
      · exact ⟨by assumption, by assumption⟩
  | payroll command _ =>
    obtain ⟨normalized, hnormalize, -⟩ := map_eq_ok h
    obtain ⟨hlength, hnodup, -⟩ := Payroll.normalizeCommand_eq_ok_iff.mp hnormalize
    exact ⟨hlength, hnodup⟩
  | posting => trivial

/-- The insert of a transfer with a positive amount can be refused for its wallets only. -/
theorem storable_transfer {command : Transaction.Command}
    (hpositive : ∀ amount ∈ (transfer command).amounts, 0 < amount.value)
    (hreached : (transfer command).Reached) : (transfer command).Storable := by
  intro config db request c hcommand hrejected
  cases command with
  | domestic command =>
    by_contra hne
    have hstorable : request.command.Storable :=
      hcommand ▸ ⟨hne, hpositive _ List.mem_cons_self⟩
    exact Transaction.insertClaim_storable hstorable hrejected
  | international command =>
    by_contra hne
    have hstorable : request.command.Storable :=
      hcommand ▸ ⟨hne, hpositive _ List.mem_cons_self, hreached.2⟩
    exact Transaction.insertClaim_storable hstorable hrejected

theorem itemRow_ok {item : Payroll.PayrollItemInput} (h : 0 < item.amount.val.value) (jobId : Uuid)
    (currency : Currency) (id : Uuid) (sequence : ℕ) :
    ∃ row, Payroll.itemRow jobId currency id sequence item = .ok row := by
  obtain ⟨m, hm, hvalue⟩ := exists_money item.amount.property
  rw [Payroll.itemRow, hm]
  dsimp only
  rw [dif_pos (hvalue ▸ h)]
  exact ⟨_, rfl⟩

/-- The smallest positive amount is one unit of its column. -/
theorem unit_le_value {m : Money} (h : 0 < m.value) : (10 : ℚ) ^ (-8 : ℤ) ≤ m.value := by
  rw [Numeric.value, div_pos_iff_of_pos_right (by positivity), Int.cast_pos] at h
  have hone : (1 : ℚ) ≤ m.units := by exact_mod_cast h
  rw [Numeric.value, zpow_neg, le_div_iff₀ (by positivity)]
  norm_num
  exact hone

theorem storable_payroll {command : Payroll.CreatePayrollJob} (nonempty : command.items ≠ [])
    (hpositive : ∀ amount ∈ (payroll command nonempty).amounts, 0 < amount.value) :
    (payroll command nonempty).Storable := by
  intro normalized hnormalize jobId itemIds
  obtain ⟨-, -, -, rfl⟩ := Payroll.normalizeCommand_eq_ok_iff.mp hnormalize
  have hitem : ∀ item ∈ Payroll.sortItems command.items, 0 < item.amount.val.value := fun item hitem =>
    hpositive _ (List.mem_map_of_mem (Payroll.mem_sortItems.mp hitem))
  obtain ⟨rows, hrows⟩ := mapM_of_forall (f := fun item : Payroll.PayrollItemInput × ℕ =>
    Payroll.itemRow jobId command.currency (itemIds item.2) item.2 item.1)
    fun item hmem => itemRow_ok (hitem item.1 (List.fst_mem_of_mem_zipIdx hmem)) jobId command.currency
      (itemIds item.2) item.2
  refine ⟨rows, hrows, fun total htotal => ?_⟩
  have hlength := (mapM_eq_ok hrows).length_eq
  rw [List.length_zipIdx, Payroll.length_sortItems] at hlength
  have hne : rows.map (fun row => row.amount.val.value) ≠ [] := by
    intro hnil
    rw [List.map_eq_nil_iff.mp hnil, List.length_nil] at hlength
    exact nonempty (List.length_eq_zero_iff.mp hlength)
  have hsum : Payroll.totalAmount rows = sumSig 20 (rows.map fun row => row.amount.val.value) := by
    rw [Payroll.totalAmount, sumSig, List.foldl_map]
  have hlow : (10 : ℚ) ^ (-8 : ℤ) ≤ Payroll.totalAmount rows := by
    rw [hsum]
    refine le_sumSig (by norm_num) hne fun x hx => ?_
    obtain ⟨row, -, rfl⟩ := List.mem_map.mp hx
    exact unit_le_value row.amount.property
  have hnonneg : 0 ≤ Payroll.totalAmount rows := le_trans (by positivity) hlow
  rw [Numeric.value_pos_iff_of_ofRat? htotal hnonneg]
  have hscaled := mul_le_mul_of_nonneg_right hlow (by positivity : (0 : ℚ) ≤ 10 ^ 8)
  norm_num at hscaled ⊢
  linarith

/-- The services check their amounts exactly when no amount that is looked at is zero. -/
theorem checksAmounts_iff (s : Submission) :
    s.ChecksAmounts ↔ (s.Reached → ∀ amount ∈ s.amounts, amount.value ≠ 0) := by
  have hnonneg : ∀ amount ∈ s.amounts, 0 ≤ amount.value := fun amount hamount =>
    Ledger.value_nonneg_of_isMoney (isMoney_of_mem_amounts amount hamount)
  constructor
  · intro h hreached amount hamount
    exact ((h.accepts hreached).mp not_refusedForAmount amount hamount).ne'
  · intro hcond
    have hpositive : s.Reached → ∀ amount ∈ s.amounts, 0 < amount.value := by
      intro hreached amount hamount
      exact lt_of_le_of_ne (hnonneg amount hamount) (hcond hreached amount hamount).symm
    refine ⟨fun hreached => ⟨fun _ => hpositive hreached, fun _ => not_refusedForAmount⟩,
      fun haccepted => ?_⟩
    have hreached := reached_of_accepted haccepted
    cases s with
    | transfer command => exact storable_transfer (hpositive hreached) hreached
    | payroll command nonempty => exact storable_payroll nonempty (hpositive hreached)
    | posting _ _ _ _ _ _ resolves =>
      intro id tx hstored
      exact resolves.amountsChecked (resolves.forall_amounts.mp (hpositive trivial)) hstored

/-- A transfer of `0.0` between two wallets. -/
def zeroTransfer : Transaction.CreateTransfer where
  senderWalletId := ⟨1, 0⟩
  recipientWalletId := ⟨2, 0⟩
  amount := Transaction.zeroAmount
  currency := Transaction.usd

/-- The transfer of `0.0` is accepted, and its insert is refused. -/
theorem zeroTransfer_accepted : (transfer (.domestic zeroTransfer)).verdict = .ok () ∧
    ¬ (transfer (.domestic zeroTransfer)).Storable ∧
    ¬ (transfer (.domestic zeroTransfer)).ChecksAmounts := by
  have hverdict : (transfer (.domestic zeroTransfer)).verdict = .ok () := rfl
  have hrefused : (Transaction.insertClaim Transaction.domesticConfig
      ⟨"ann", "k", .domestic zeroTransfer⟩ {} Transaction.Database.empty).map (fun _ => ()) =
        .error .rejected := by decide +kernel
  have hstorable : ¬ (transfer (.domestic zeroTransfer)).Storable := by
    intro h
    have hwallets := h Transaction.domesticConfig Transaction.Database.empty
      ⟨"ann", "k", .domestic zeroTransfer⟩ {} rfl
    cases hinsert : Transaction.insertClaim Transaction.domesticConfig
        ⟨"ann", "k", .domestic zeroTransfer⟩ {} Transaction.Database.empty with
    | ok _ =>
      rw [hinsert] at hrefused
      cases hrefused
    | error error =>
      rw [hinsert] at hrefused
      cases hrefused
      exact absurd (hwallets hinsert) (by decide)
  exact ⟨hverdict, hstorable, fun h => hstorable (h.storable hverdict)⟩

end Submission

end NovaPay
