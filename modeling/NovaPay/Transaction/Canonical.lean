import NovaPay.Texts
import NovaPay.Transaction.Operations

/-!
# The hash of a transfer request

What `canonicalTransferHash` and `canonicalInternationalTransferHash` tell apart, next to the transfer that
the claim of the request inserts: the hash keeps the letter case of the uuids, which the row does not.
-/

namespace NovaPay.Transaction

open DecimalArithmetic JsonText Relational

/-- The transfer that the claim of a command inserts. -/
def Command.row (clientId : Principal) (id : Uuid) (now : Time) (date : Date) : Command → Option Transfer
  | .domestic command =>
    (Numeric.ofRat? command.amount.val.value).map fun amount =>
      domesticTransfer clientId command amount id now date
  | .international command =>
    (Numeric.ofRat? command.sourceAmount.val.value).map fun amount =>
      internationalTransfer clientId command amount id now date

def Command.uuids : Command → List UuidText
  | .domestic command => [command.senderWalletId, command.recipientWalletId]
  | .international command => [command.senderWalletId, command.recipientWalletId, command.quoteId]

/-- The uuids have 128 bits. -/
def Command.WellFormed (command : Command) : Prop := ∀ u ∈ command.uuids, u.value < 16 ^ 32

/-- The two commands insert the same transfer, whoever sends them and whenever. -/
def SameInstruction (command command' : Command) : Prop :=
  ∀ clientId id now date, command.row clientId id now date = command'.row clientId id now date

def SameSpelling (command command' : Command) : Prop :=
  command.uuids.map spelled = command'.uuids.map spelled

variable {sha256 : String → Digest} {command command' : Command}

theorem value_eq_of_spelled {u v : UuidText} (hu : u.value < 16 ^ 32) (hv : v.value < 16 ^ 32)
    (h : spelled u = spelled v) : u.value = v.value := by
  rw [← uuidOf_spelled hu, h, uuidOf_spelled hv]

/-- Amounts that a request may carry are stored as they are. -/
theorem money_eq_iff {a b : MoneyText} {m n : Money} (hm : Numeric.ofRat? a.val.value = some m)
    (hn : Numeric.ofRat? b.val.value = some n) : m = n ↔ a.val.value = b.val.value := by
  obtain ⟨m', hm', hvalue⟩ := exists_money a.property
  obtain ⟨n', hn', hvalue'⟩ := exists_money b.property
  obtain rfl := Option.some.inj (hm.symm.trans hm')
  obtain rfl := Option.some.inj (hn.symm.trans hn')
  constructor
  · rintro rfl
    rw [← hvalue, ← hvalue']
  · intro h
    rw [h] at hm
    exact Option.some.inj (hm.symm.trans hn)

theorem row_domestic_eq_iff {a b : CreateTransfer} {clientId : Principal} {id : Uuid} {now : Time} {date : Date} :
    (Command.domestic a).row clientId id now date = (Command.domestic b).row clientId id now date ↔
      a.senderWalletId.value = b.senderWalletId.value ∧ a.recipientWalletId.value = b.recipientWalletId.value ∧
        a.amount.val.value = b.amount.val.value ∧ a.currency = b.currency := by
  obtain ⟨m, hm, -⟩ := exists_money a.amount.property
  obtain ⟨n, hn, -⟩ := exists_money b.amount.property
  have hmoney := money_eq_iff hm hn
  simp only [Command.row, hm, hn, Option.map_some, Option.some.injEq, domesticTransfer, Transfer.mk.injEq,
    ← hmoney, true_and, and_true]
  tauto

theorem row_international_eq_iff {a b : CreateInternationalTransfer} {clientId : Principal} {id : Uuid}
    {now : Time} {date : Date} :
    (Command.international a).row clientId id now date = (Command.international b).row clientId id now date ↔
      a.senderWalletId.value = b.senderWalletId.value ∧ a.recipientWalletId.value = b.recipientWalletId.value ∧
        a.sourceAmount.val.value = b.sourceAmount.val.value ∧ a.sourceCurrency = b.sourceCurrency ∧
        a.targetCurrency = b.targetCurrency ∧ a.quoteId.value = b.quoteId.value := by
  obtain ⟨m, hm, -⟩ := exists_money a.sourceAmount.property
  obtain ⟨n, hn, -⟩ := exists_money b.sourceAmount.property
  have hmoney := money_eq_iff hm hn
  simp only [Command.row, hm, hn, Option.map_some, Option.some.injEq, internationalTransfer, Transfer.mk.injEq,
    ← hmoney, true_and, and_true]
  tauto

theorem sameInstruction_domestic_iff {a b : CreateTransfer} : SameInstruction (.domestic a) (.domestic b) ↔
    a.senderWalletId.value = b.senderWalletId.value ∧ a.recipientWalletId.value = b.recipientWalletId.value ∧
      a.amount.val.value = b.amount.val.value ∧ a.currency = b.currency := by
  simp only [SameInstruction, row_domestic_eq_iff, forall_const]

theorem sameInstruction_international_iff {a b : CreateInternationalTransfer} :
    SameInstruction (.international a) (.international b) ↔
      a.senderWalletId.value = b.senderWalletId.value ∧ a.recipientWalletId.value = b.recipientWalletId.value ∧
        a.sourceAmount.val.value = b.sourceAmount.val.value ∧ a.sourceCurrency = b.sourceCurrency ∧
        a.targetCurrency = b.targetCurrency ∧ a.quoteId.value = b.quoteId.value := by
  simp only [SameInstruction, row_international_eq_iff, forall_const]

/-- A domestic and an international transfer have different types. -/
theorem not_sameInstruction {a : CreateTransfer} {b : CreateInternationalTransfer} :
    ¬ SameInstruction (.domestic a) (.international b) ∧ ¬ SameInstruction (.international b) (.domestic a) := by
  obtain ⟨m, hm, -⟩ := exists_money a.amount.property
  obtain ⟨n, hn, -⟩ := exists_money b.sourceAmount.property
  have hne : ∀ {t u : Transfer}, t.type ≠ u.type → some t ≠ some u := fun htype heq =>
    htype (congrArg Transfer.type (Option.some.inj heq))
  constructor
  all_goals
    intro h
    have hrow := h "" 0 0 0
    simp only [Command.row, hm, hn, Option.map_some] at hrow
    exact hne (by simp [domesticTransfer, internationalTransfer]) hrow

theorem requestHash_domestic_eq_iff (hsha256 : Function.Injective sha256) {a b : CreateTransfer}
    (h : (Command.domestic a).WellFormed) (h' : (Command.domestic b).WellFormed) :
    canonicalTransferHash (hashValue sha256) a = canonicalTransferHash (hashValue sha256) b ↔
      SameInstruction (.domestic a) (.domestic b) ∧ SameSpelling (.domestic a) (.domestic b) := by
  have hsender := value_eq_of_spelled (h a.senderWalletId (by simp [Command.uuids]))
    (h' b.senderWalletId (by simp [Command.uuids]))
  have hrecipient := value_eq_of_spelled (h a.recipientWalletId (by simp [Command.uuids]))
    (h' b.recipientWalletId (by simp [Command.uuids]))
  simp only [canonicalTransferHash, hashValue_eq_iff hsha256, sameInstruction_domestic_iff, SameSpelling,
    Command.uuids, List.map_cons, List.map_nil, List.cons.injEq, Json.value, Json.members,
    Value.object.injEq, Value.string.injEq, Prod.mk.injEq, true_and, and_true,
    decimalText_money_eq_iff a.amount.property b.amount.property, currencyText_injective.eq_iff]
  constructor
  · rintro ⟨hs, hr, hamount, hcurrency⟩
    exact ⟨⟨hsender hs, hrecipient hr, hamount, hcurrency⟩, hs, hr⟩
  · rintro ⟨⟨-, -, hamount, hcurrency⟩, hs, hr⟩
    exact ⟨hs, hr, hamount, hcurrency⟩

theorem requestHash_international_eq_iff (hsha256 : Function.Injective sha256)
    {a b : CreateInternationalTransfer} (h : (Command.international a).WellFormed)
    (h' : (Command.international b).WellFormed) :
    canonicalInternationalTransferHash (hashValue sha256) a =
        canonicalInternationalTransferHash (hashValue sha256) b ↔
      SameInstruction (.international a) (.international b) ∧ SameSpelling (.international a) (.international b) := by
  have hsender := value_eq_of_spelled (h a.senderWalletId (by simp [Command.uuids]))
    (h' b.senderWalletId (by simp [Command.uuids]))
  have hrecipient := value_eq_of_spelled (h a.recipientWalletId (by simp [Command.uuids]))
    (h' b.recipientWalletId (by simp [Command.uuids]))
  have hquote := value_eq_of_spelled (h a.quoteId (by simp [Command.uuids]))
    (h' b.quoteId (by simp [Command.uuids]))
  simp only [canonicalInternationalTransferHash, hashValue_eq_iff hsha256, sameInstruction_international_iff,
    SameSpelling, Command.uuids, List.map_cons, List.map_nil, List.cons.injEq, Json.value, Json.members,
    Value.object.injEq, Value.string.injEq, Prod.mk.injEq, true_and, and_true,
    decimalText_money_eq_iff a.sourceAmount.property b.sourceAmount.property, currencyText_injective.eq_iff]
  constructor
  · rintro ⟨hs, hr, hamount, hsource, htarget, hq⟩
    exact ⟨⟨hsender hs, hrecipient hr, hamount, hsource, htarget, hquote hq⟩, hs, hr, hq⟩
  · rintro ⟨⟨-, -, hamount, hsource, htarget, -⟩, hs, hr, hq⟩
    exact ⟨hs, hr, hamount, hsource, htarget, hq⟩

/-- The routes differ. -/
theorem requestHash_ne (hsha256 : Function.Injective sha256) (a : CreateTransfer)
    (b : CreateInternationalTransfer) :
    canonicalTransferHash (hashValue sha256) a ≠ canonicalInternationalTransferHash (hashValue sha256) b := by
  rw [canonicalTransferHash, canonicalInternationalTransferHash, Ne, hashValue_eq_iff hsha256]
  simp [Json.value, Json.members]

/-- The hash keeps the transfer and the spelling of its uuids, and nothing else. -/
theorem requestHash_eq_iff (hsha256 : Function.Injective sha256) (h : command.WellFormed)
    (h' : command'.WellFormed) :
    command.requestHash (hashValue sha256) = command'.requestHash (hashValue sha256) ↔
      SameInstruction command command' ∧ SameSpelling command command' := by
  cases command with
  | domestic a =>
    cases command' with
    | domestic b => exact requestHash_domestic_eq_iff hsha256 h h'
    | international b =>
      exact iff_of_false (requestHash_ne hsha256 a b) fun hsame => not_sameInstruction.1 hsame.1
  | international a =>
    cases command' with
    | domestic b =>
      exact iff_of_false (requestHash_ne hsha256 b a).symm fun hsame => not_sameInstruction.2 hsame.1
    | international b => exact requestHash_international_eq_iff hsha256 h h'

/-- A different instruction never has the hash of another; the same instruction has the same hash exactly
when its uuids come in the same letter case. -/
theorem requestHash_canonical (sha256 : String → Digest) (hsha256 : Function.Injective sha256)
    (command command' : Command) (h : command.WellFormed) (h' : command'.WellFormed) :
    (command.requestHash (hashValue sha256) = command'.requestHash (hashValue sha256) →
      SameInstruction command command') ∧
    ((command.requestHash (hashValue sha256) = command'.requestHash (hashValue sha256) ↔
        SameInstruction command command') ↔
      (SameInstruction command command' → SameSpelling command command')) := by
  rw [requestHash_eq_iff hsha256 h h']
  refine ⟨And.left, fun hiff hsame => (hiff.mpr hsame).2, fun hspelling => ?_⟩
  exact ⟨And.left, fun hsame => ⟨hsame, hspelling hsame⟩⟩

/-- A transfer of ten dollars whose sender is spelled with the given letters in upper case. -/
def sampleCommand (upper : ℕ) (amount : MoneyText) : Command :=
  .domestic ⟨⟨0xa0000000000040008000000000000001, upper⟩, .ofUuid 0xa0000000000040008000000000000002, amount,
    (20, 18, 3)⟩

theorem sampleCommand_wellFormed (upper : ℕ) (amount : MoneyText) :
    (sampleCommand upper amount).WellFormed := by
  intro u hu
  simp only [Command.uuids, sampleCommand, List.mem_cons, List.not_mem_nil, or_false] at hu
  obtain rfl | rfl := hu <;> norm_num [UuidText.ofUuid]

/-- The canonical text of that command and its digest. -/
def sampleDigest : List (String × Digest) := [
  ("\x7b\"method\":\"POST\",\"route\":\"/transfers\",\"senderWalletId\":\"a0000000-0000-4000-8" ++
    "000-000000000001\",\"recipientWalletId\":\"a0000000-0000-4000-8000-000000000002\",\"amount\":\"10." ++
    "00000000\",\"currency\":\"USD\"\x7d",
    0xe77927af990bbbde7e18eda26b7f2c64af9f0b19d1a0342b85d27418500dce70)]

theorem requestHash_canonical_sampleCommand :
    (sampleCommand 0 ⟨⟨1000, 2⟩, by decide⟩).requestHash (hashValue (digestWith sampleDigest)) =
      (sampleCommand 0 ⟨⟨100, 1⟩, by decide⟩).requestHash (hashValue (digestWith sampleDigest)) := by
  have hsame : SameInstruction (sampleCommand 0 ⟨⟨1000, 2⟩, by decide⟩) (sampleCommand 0 ⟨⟨100, 1⟩, by decide⟩) :=
    sameInstruction_domestic_iff.mpr ⟨rfl, rfl, by norm_num [Text.value], rfl⟩
  obtain ⟨-, hiff⟩ := requestHash_canonical (digestWith sampleDigest)
    (digestWith_injective (by decide +kernel) (by decide +kernel)) _ _
    (sampleCommand_wellFormed 0 ⟨⟨1000, 2⟩, by decide⟩) (sampleCommand_wellFormed 0 ⟨⟨100, 1⟩, by decide⟩)
  exact (hiff.mpr fun _ => rfl).mpr hsame

example : (sampleCommand 0 ⟨⟨1000, 2⟩, by decide⟩).requestHash (hashValue (digestWith sampleDigest)) =
    0xe77927af990bbbde7e18eda26b7f2c64af9f0b19d1a0342b85d27418500dce70 := by decide +kernel

/-- The first letter of the sender's id in upper case makes another hash of the same instruction. -/
theorem requestHash_letter_case : ¬ ∀ sha256 : String → Digest, Function.Injective sha256 →
    ∀ command command' : Command, command.WellFormed → command'.WellFormed →
      (command.requestHash (hashValue sha256) = command'.requestHash (hashValue sha256) ↔
        SameInstruction command command') := by
  intro hclaim
  have hsha256 : Function.Injective (digestWith []) := digestWith_injective (by simp) (by simp)
  have hall := hclaim (digestWith []) hsha256 (sampleCommand 0 ⟨⟨1000, 2⟩, by decide⟩)
    (sampleCommand 1 ⟨⟨1000, 2⟩, by decide⟩) (sampleCommand_wellFormed _ _) (sampleCommand_wellFormed _ _)
  have hsame : SameInstruction (sampleCommand 0 ⟨⟨1000, 2⟩, by decide⟩) (sampleCommand 1 ⟨⟨1000, 2⟩, by decide⟩) :=
    fun _ _ _ _ => rfl
  have hspelling := ((requestHash_eq_iff hsha256 (sampleCommand_wellFormed _ _)
    (sampleCommand_wellFormed _ _)).mp (hall.mpr hsame)).2
  have hdiffer : ¬ SameSpelling (sampleCommand 0 ⟨⟨1000, 2⟩, by decide⟩)
      (sampleCommand 1 ⟨⟨1000, 2⟩, by decide⟩) := by
    unfold SameSpelling
    decide +kernel
  exact hdiffer hspelling

end NovaPay.Transaction
