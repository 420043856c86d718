import NovaPay.Library.Jsonb
import NovaPay.Payroll.Processor
import NovaPay.Transaction.Operations

/-!
# Submitted payrolls

What `normalizeCommand` makes of the body of a payroll request before anything is stored.
-/

namespace NovaPay.Payroll

open DecimalArithmetic Relational JsonText
open Transaction (isPositive)

def maxItems : ℕ := 15000

def payrollTooLarge : HttpError :=
  ⟨413, "PAYROLL_TOO_LARGE", "Payroll jobs are limited to 15000 items."⟩

def duplicateExternalItemId : HttpError :=
  ⟨400, "DUPLICATE_EXTERNAL_ITEM_ID", "Each external item ID must be unique within a payroll job."⟩

def invalidAmount : HttpError :=
  ⟨400, "INVALID_AMOUNT", "Payroll item amounts must be greater than zero."⟩

/-- The loop over the items, with the ids it has seen. -/
def checkItems : List String → List PayrollItemInput → Except HttpError Unit
  | _, [] => .ok ()
  | seen, item :: items =>
    if item.externalItemId ∈ seen then .error duplicateExternalItemId
    else if !isPositive item.amount.val then .error invalidAmount
    else checkItems (item.externalItemId :: seen) items

/-- The sort with `compareItems`; JavaScript compares strings by their UTF-16 code units. -/
def sortItems (items : List PayrollItemInput) : List PayrollItemInput :=
  items.insertionSort fun left right => utf16 left.externalItemId ≤ utf16 right.externalItemId

def normalizeCommand (command : CreatePayrollJob) : Except HttpError CreatePayrollJob :=
  if maxItems < command.items.length then .error payrollTooLarge
  else do
    checkItems [] command.items
    return { command with items := sortItems command.items }

theorem checkItems_eq_ok_iff {seen : List String} {items : List PayrollItemInput} :
    checkItems seen items = .ok () ↔ (items.map PayrollItemInput.externalItemId).Nodup ∧
      (∀ item ∈ items, item.externalItemId ∉ seen) ∧
      ∀ item ∈ items, isPositive item.amount.val = true := by
  induction items generalizing seen with
  | nil => simp [checkItems]
  | cons item items ih =>
    by_cases hseen : item.externalItemId ∈ seen
    · simp [checkItems, hseen]
    by_cases hpos : isPositive item.amount.val = true
    · rw [checkItems, if_neg hseen, if_neg (by simp [hpos]), ih, List.forall_mem_cons,
        List.forall_mem_cons]
      simp only [List.map_cons, List.nodup_cons, List.mem_map, List.mem_cons, not_or]
      constructor
      · rintro ⟨hnodup, hfresh, hall⟩
        exact ⟨⟨fun ⟨other, hother, hid⟩ => (hfresh other hother).1 hid, hnodup⟩,
          ⟨hseen, fun other hother => (hfresh other hother).2⟩, hpos, hall⟩
      · rintro ⟨⟨hnew, hnodup⟩, ⟨-, hfresh⟩, -, hall⟩
        exact ⟨hnodup, fun other hother => ⟨fun hid => hnew ⟨other, hother, hid⟩, hfresh other hother⟩,
          hall⟩
    · simp [checkItems, hseen, hpos]

theorem normalizeCommand_eq_ok_iff {command normalized : CreatePayrollJob} :
    normalizeCommand command = .ok normalized ↔ command.items.length ≤ maxItems ∧
      (command.items.map PayrollItemInput.externalItemId).Nodup ∧
      (∀ item ∈ command.items, isPositive item.amount.val = true) ∧
      normalized = { command with items := sortItems command.items } := by
  by_cases hlarge : maxItems < command.items.length
  · simp [normalizeCommand, hlarge, Nat.not_le.mpr hlarge]
  rw [normalizeCommand, if_neg hlarge]
  constructor
  · intro h
    obtain ⟨_, hitems, h⟩ := bind_eq_ok h
    obtain ⟨hnodup, -, hpos⟩ := checkItems_eq_ok_iff.mp hitems
    cases h
    exact ⟨Nat.not_lt.mp hlarge, hnodup, hpos, rfl⟩
  · rintro ⟨-, hnodup, hpos, rfl⟩
    rw [checkItems_eq_ok_iff.mpr ⟨hnodup, by simp, hpos⟩]
    rfl

theorem checkItems_error {seen : List String} {items : List PayrollItemInput} {error : HttpError}
    (h : checkItems seen items = .error error) : error = duplicateExternalItemId ∨
      (error = invalidAmount ∧ ∃ item ∈ items, isPositive item.amount.val = false) := by
  induction items generalizing seen with
  | nil => cases h
  | cons item items ih =>
    rw [checkItems] at h
    split at h
    · cases h
      exact .inl rfl
    split at h
    · next hpos =>
      cases h
      exact .inr ⟨rfl, item, List.mem_cons_self, by simpa using hpos⟩
    · exact (ih h).imp_right fun ⟨he, other, hother, hpos⟩ =>
        ⟨he, other, List.mem_cons_of_mem item hother, hpos⟩

theorem normalizeCommand_error {command : CreatePayrollJob} {error : HttpError}
    (h : normalizeCommand command = .error error) : error = payrollTooLarge ∨
      error = duplicateExternalItemId ∨
      (error = invalidAmount ∧ ∃ item ∈ command.items, isPositive item.amount.val = false) := by
  rw [normalizeCommand] at h
  split at h
  · cases h
    exact .inl rfl
  · rcases bind_eq_error h with hitems | ⟨_, _, h⟩
    · exact .inr (checkItems_error hitems)
    · cases h

theorem mem_sortItems {item : PayrollItemInput} {items : List PayrollItemInput} :
    item ∈ sortItems items ↔ item ∈ items := List.mem_insertionSort _

theorem length_sortItems {items : List PayrollItemInput} : (sortItems items).length = items.length :=
  (List.perm_insertionSort _ items).length_eq

end NovaPay.Payroll
