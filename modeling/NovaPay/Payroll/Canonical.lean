import NovaPay.Library.Keyset
import NovaPay.Payroll.Submission
import NovaPay.Texts

/-!
# The hash of a payroll

`canonicalPayrollHash` of what `normalizeCommand` returns: one hash for every order in which the items of a
payroll are submitted and every spelling of their amounts, and different hashes for different payrolls.
-/

namespace NovaPay.Payroll

open DecimalArithmetic JsonText Relational

def itemJson (item : PayrollItemInput) : Json :=
  .object [
    ("externalItemId", .text item.externalItemId),
    ("recipientWalletId", .uuid item.recipientWalletId),
    ("amount", .decimal (toFixed 8 item.amount.val.value))]

def canonicalPayrollHash (sha256 : String → Digest) (command : CreatePayrollJob) : Digest :=
  hashValue sha256 (.object [
    ("method", .text "POST"),
    ("route", .text "/payroll/jobs"),
    ("sourceWalletId", .uuid command.sourceWalletId),
    ("currency", .currency command.currency),
    ("items", .array (command.items.map itemJson))])

/-- What an item instructs: its id, the wallet as it is spelled and the amount as a number. -/
def instruction (item : PayrollItemInput) : String × String × ℚ :=
  (item.externalItemId, spelled item.recipientWalletId, item.amount.val.value)

variable {sha256 : String → Digest} {command command' normalized normalized' : CreatePayrollJob}

theorem itemJson_value_eq_iff {a b : PayrollItemInput} :
    (itemJson a).value = (itemJson b).value ↔ instruction a = instruction b := by
  simp [itemJson, Json.value, Json.members, instruction, decimalText_money_eq_iff a.amount.property b.amount.property]

theorem canonicalPayrollHash_eq_iff (hsha256 : Function.Injective sha256) :
    canonicalPayrollHash sha256 command = canonicalPayrollHash sha256 command' ↔
      spelled command.sourceWalletId = spelled command'.sourceWalletId ∧ command.currency = command'.currency ∧
        command.items.map instruction = command'.items.map instruction := by
  have hitems : (command.items.map fun item => (itemJson item).value) =
        (command'.items.map fun item => (itemJson item).value) ↔
      command.items.map instruction = command'.items.map instruction :=
    map_eq_map_iff_of_iff fun a _ b _ => itemJson_value_eq_iff
  rw [canonicalPayrollHash, canonicalPayrollHash, hashValue_eq_iff hsha256, ← hitems]
  simp [Json.value, Json.members, Json.elements_eq, currencyText_injective.eq_iff, Function.comp_def]

theorem sortItems_strict {items : List PayrollItemInput}
    (h : (items.map PayrollItemInput.externalItemId).Nodup) :
    (sortItems items).Pairwise fun a b => utf16 a.externalItemId < utf16 b.externalItemId := by
  have hperm : (sortItems items).Perm items := List.perm_insertionSort _ items
  have hkeys : ((sortItems items).map PayrollItemInput.externalItemId).Nodup :=
    ((hperm.map _).nodup_iff).mpr h
  have htotal : Std.Total fun a b : PayrollItemInput => utf16 a.externalItemId ≤ utf16 b.externalItemId :=
    ⟨fun a b => le_total _ _⟩
  have htrans : IsTrans PayrollItemInput fun a b => utf16 a.externalItemId ≤ utf16 b.externalItemId :=
    ⟨fun a b c => le_trans⟩
  have hsorted : (sortItems items).Pairwise fun a b => utf16 a.externalItemId ≤ utf16 b.externalItemId :=
    List.pairwise_insertionSort _ items
  refine (hsorted.and (List.pairwise_map.mp hkeys)).imp fun {a b} hab => ?_
  exact lt_of_le_of_ne hab.1 fun heq => hab.2 (utf16_injective heq)

/-- Two payrolls whose items are in strict order list the same instructions exactly when they list them in the
same order. -/
theorem map_instruction_eq_iff {items items' : List PayrollItemInput}
    (h : items.Pairwise fun a b => utf16 a.externalItemId < utf16 b.externalItemId)
    (h' : items'.Pairwise fun a b => utf16 a.externalItemId < utf16 b.externalItemId) :
    items.map instruction = items'.map instruction ↔
      ∀ x, x ∈ items.map instruction ↔ x ∈ items'.map instruction := by
  constructor
  · intro heq x
    rw [heq]
  · intro hsame
    have hstrict : (items.map instruction).Pairwise fun x y => utf16 x.1 < utf16 y.1 :=
      List.pairwise_map.mpr h
    have hstrict' : (items'.map instruction).Pairwise fun x y => utf16 x.1 < utf16 y.1 :=
      List.pairwise_map.mpr h'
    exact Keyset.eq_of_strict hstrict hstrict' hsame

def sampleItem (id : String) (walletId : Uuid) (amount : MoneyText) : PayrollItemInput :=
  ⟨id, .ofUuid walletId, amount⟩

def samplePayroll (items : List PayrollItemInput) : CreatePayrollJob :=
  ⟨.ofUuid 0x20000000000040008000000000000001, (20, 18, 3), items⟩

/-- Two items, and the same two in the other order with their amounts spelled otherwise. -/
def sampleItems : List PayrollItemInput := [
  sampleItem "b" 0x20000000000040008000000000000003 ⟨⟨20, 1⟩, by decide⟩,
  sampleItem "a" 0x20000000000040008000000000000002 ⟨⟨15, 1⟩, by decide⟩]

def sampleItems' : List PayrollItemInput := [
  sampleItem "a" 0x20000000000040008000000000000002 ⟨⟨150000000, 8⟩, by decide⟩,
  sampleItem "b" 0x20000000000040008000000000000003 ⟨⟨200, 2⟩, by decide⟩]

def sampleDigest : List (String × Digest) := [
  ("\x7b\"method\":\"POST\",\"route\":\"/payroll/jobs\",\"sourceWalletId\":\"20000000-0000-400" ++
    "0-8000-000000000001\",\"currency\":\"USD\",\"items\":[\x7b\"externalItemId\":\"a\",\"recipientWall" ++
    "etId\":\"20000000-0000-4000-8000-000000000002\",\"amount\":\"1.50000000\"\x7d,\x7b\"externalItemId" ++
    "\":\"b\",\"recipientWalletId\":\"20000000-0000-4000-8000-000000000003\",\"amount\":\"2.00000000\"" ++
    "\x7d]\x7d",
    0xc7f83a34fda2fe4a9d7dc1ecada288455ccae36c87c1c8e6ae93925e4bc6d57f)]

example : canonicalPayrollHash (digestWith sampleDigest) (samplePayroll (sortItems sampleItems)) =
    0xc7f83a34fda2fe4a9d7dc1ecada288455ccae36c87c1c8e6ae93925e4bc6d57f := by decide +kernel

end NovaPay.Payroll
