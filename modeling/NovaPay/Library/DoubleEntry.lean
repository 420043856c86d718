import Mathlib.Algebra.BigOperators.Group.List.Basic
import Mathlib.Algebra.Order.BigOperators.Group.List
import Mathlib.Algebra.Group.Basic
import Mathlib.Data.List.Nodup
import Mathlib.Tactic.Abel

/-!
# Double-entry bookkeeping

A journal is a list of entries, each on one side of one account. An account is kept on its normal
side: an entry on that side increases its balance, one on the other side decreases it. The balance
of an account is the signed sum of its entries, and when debits equal credits the debit-normal
balances of all accounts have the same sum as the credit-normal ones.
-/

namespace DoubleEntry

inductive Side
  | debit
  | credit
deriving DecidableEq, Repr

def Side.opposite : Side → Side
  | .debit => .credit
  | .credit => .debit

variable {R ε α : Type*} [AddCommGroup R] [DecidableEq α]

/-- The change an amount on the side `d` makes to an account of the given normal side. -/
def signed (normal d : Side) (amount : R) : R := if d = normal then amount else -amount

theorem signed_credit (d : Side) (amount : R) : signed .credit d amount = -signed .debit d amount := by
  cases d <;> simp [signed]

theorem Side.opposite_opposite (d : Side) : d.opposite.opposite = d := by cases d <;> rfl

theorem Side.opposite_eq_iff {d e : Side} : d.opposite = e ↔ d = e.opposite := by
  cases d <;> cases e <;> simp [Side.opposite]

theorem signed_opposite (normal d : Side) (amount : R) :
    signed normal d.opposite amount = -signed normal d amount := by
  cases normal <;> cases d <;> simp [signed, Side.opposite]

/-- Of the accounts of a list exactly one is `a`. -/
theorem sum_indicator {accounts : List α} (hnodup : accounts.Nodup) {a : α} (ha : a ∈ accounts)
    (x : R) : (accounts.map fun b => if a = b then x else 0).sum = x := by
  induction accounts with
  | nil => cases ha
  | cons b accounts ih =>
    obtain ⟨hb, hnodup⟩ := List.nodup_cons.mp hnodup
    rw [List.map_cons, List.sum_cons]
    by_cases hab : a = b
    · subst hab
      have hzero : (accounts.map fun b => if a = b then x else 0) = accounts.map fun _ => (0 : R) :=
        List.map_congr_left fun c hc => if_neg fun (h : a = c) => hb (h ▸ hc)
      simp [hzero]
    · rw [if_neg hab, zero_add]
      exact ih hnodup ((List.mem_cons.mp ha).resolve_left hab)

/-- How a journal reads its entries. -/
structure Journal (ε α R : Type*) where
  account : ε → α
  side : ε → Side
  amount : ε → R

namespace Journal

variable (J : Journal ε α R)

/-- The balance of an account of the given normal side. -/
def balance (normal : Side) (a : α) (entries : List ε) : R :=
  ((entries.filter fun e => decide (J.account e = a)).map fun e =>
    signed normal (J.side e) (J.amount e)).sum

/-- The total of one side. -/
def total (d : Side) (entries : List ε) : R :=
  ((entries.filter fun e => decide (J.side e = d)).map J.amount).sum

@[simp] theorem balance_nil (normal : Side) (a : α) : J.balance normal a [] = 0 := rfl

theorem balance_append (normal : Side) (a : α) (entries more : List ε) :
    J.balance normal a (entries ++ more) = J.balance normal a entries + J.balance normal a more := by
  simp [balance]

theorem balance_cons (normal : Side) (a : α) (e : ε) (entries : List ε) :
    J.balance normal a (e :: entries) =
      (if J.account e = a then signed normal (J.side e) (J.amount e) else 0) +
        J.balance normal a entries := by
  by_cases h : J.account e = a <;> simp [balance, h]

theorem balance_of_untouched {normal : Side} {a : α} {entries : List ε}
    (h : ∀ e ∈ entries, J.account e ≠ a) : J.balance normal a entries = 0 := by
  have hnil : (entries.filter fun e => decide (J.account e = a)) = [] := by simpa using h
  simp [balance, hnil]

theorem balance_credit (a : α) (entries : List ε) :
    J.balance .credit a entries = -J.balance .debit a entries := by
  induction entries with
  | nil => simp
  | cons e entries ih =>
    rw [balance_cons, balance_cons, ih, signed_credit]
    split <;> simp [neg_add_rev, add_comm]

omit [DecidableEq α] in
theorem total_append (d : Side) (entries more : List ε) :
    J.total d (entries ++ more) = J.total d entries + J.total d more := by
  simp [total]

/-- The debit-normal balances of accounts that cover the journal sum up to the surplus of its
debits. -/
theorem sum_balance_debit {accounts : List α} (hnodup : accounts.Nodup) {entries : List ε}
    (hcover : ∀ e ∈ entries, J.account e ∈ accounts) :
    (accounts.map fun a => J.balance .debit a entries).sum =
      J.total .debit entries - J.total .credit entries := by
  induction entries with
  | nil => simp [total]
  | cons e entries ih =>
    have hrest := ih fun e' he' => hcover e' (List.mem_cons_of_mem e he')
    have hone := sum_indicator hnodup (hcover e List.mem_cons_self)
      (signed .debit (J.side e) (J.amount e))
    simp only [balance_cons, List.sum_map_add, hrest, hone]
    cases hs : J.side e <;> simp [total, hs, signed] <;> abel

/-- Dropping entries of other accounts does not change a balance. -/
theorem balance_filter {normal : Side} {a : α} {entries : List ε} {p : ε → Bool}
    (h : ∀ e ∈ entries, J.account e = a → p e = true) :
    J.balance normal a (entries.filter p) = J.balance normal a entries := by
  have hsame : (entries.filter p).filter (fun e => decide (J.account e = a)) =
      entries.filter fun e => decide (J.account e = a) := by
    rw [List.filter_filter]
    refine List.filter_congr fun e he => ?_
    by_cases ha : J.account e = a <;> simp [ha, h e he]
  rw [balance, hsame, balance]

/-- The trial balance: with equal debits and credits, the debit-normal accounts hold as much as
the credit-normal ones. -/
theorem trial_balance {γ : Type*} {accounts : List γ} {key : γ → α} {normal : γ → Side}
    (hnodup : (accounts.map key).Nodup) {entries : List ε}
    (hcover : ∀ e ∈ entries, J.account e ∈ accounts.map key)
    (heq : J.total .debit entries = J.total .credit entries) :
    ((accounts.filter fun a => decide (normal a = .debit)).map fun a =>
        J.balance (normal a) (key a) entries).sum =
      ((accounts.filter fun a => decide (normal a = .credit)).map fun a =>
        J.balance (normal a) (key a) entries).sum := by
  have hsum := J.sum_balance_debit hnodup hcover
  rw [heq, sub_self] at hsum
  clear hnodup hcover heq
  suffices h : ((accounts.filter fun a => decide (normal a = .debit)).map fun a =>
        J.balance (normal a) (key a) entries).sum -
      ((accounts.filter fun a => decide (normal a = .credit)).map fun a =>
        J.balance (normal a) (key a) entries).sum =
      ((accounts.map key).map fun a => J.balance .debit a entries).sum by
    rw [hsum] at h
    exact sub_eq_zero.mp h
  clear hsum
  induction accounts with
  | nil => simp
  | cons a accounts ih =>
    rw [List.map_cons, List.map_cons, List.sum_cons, ← ih]
    cases hn : normal a <;> simp [hn, balance_credit] <;> abel

/-! ### Opposite entries -/

/-- Each entry has one on the other side of its account with its amount. -/
structure Undoes (undo : ε → ε) : Prop where
  account : ∀ e, J.account (undo e) = J.account e
  side : ∀ e, J.side (undo e) = (J.side e).opposite
  amount : ∀ e, J.amount (undo e) = J.amount e

variable {J} {undo : ε → ε}

/-- The opposite entries move every account back. -/
theorem Undoes.balance (h : J.Undoes undo) (normal : Side) (a : α) (entries : List ε) :
    J.balance normal a (entries.map undo) = -J.balance normal a entries := by
  induction entries with
  | nil => simp
  | cons e entries ih =>
    rw [List.map_cons, balance_cons, balance_cons, ih, h.account, h.side, h.amount, signed_opposite]
    split <;> abel

omit [DecidableEq α] in
theorem Undoes.total (h : J.Undoes undo) (d : Side) (entries : List ε) :
    J.total d (entries.map undo) = J.total d.opposite entries := by
  induction entries with
  | nil => rfl
  | cons e entries ih =>
    simp only [Journal.total] at ih ⊢
    by_cases hd : J.side e = d.opposite <;>
      simp [h.side, h.amount, Side.opposite_eq_iff, hd, ih]

variable (J)

/-! ### One-sided journals -/

section Ordered

variable [PartialOrder R] [IsOrderedAddMonoid R] {entries : List ε} {d : Side}

omit [DecidableEq α] [PartialOrder R] [IsOrderedAddMonoid R] in
theorem total_of_one_sided (h : ∀ e ∈ entries, J.side e = d) :
    J.total d entries = (entries.map J.amount).sum := by
  rw [total, List.filter_eq_self.mpr]
  intro e he
  exact decide_eq_true (h e he)

omit [DecidableEq α] in
/-- A side of positive entries that comes to nothing is empty. -/
theorem side_empty_of_total (hpositive : ∀ e ∈ entries, 0 < J.amount e)
    (h : J.total d entries = 0) : ∀ e ∈ entries, J.side e ≠ d := by
  intro e he hd
  have hmem : J.amount e ∈ (entries.filter fun e => decide (J.side e = d)).map J.amount :=
    List.mem_map_of_mem (List.mem_filter.mpr ⟨he, decide_eq_true hd⟩)
  have hpos : 0 < J.total d entries := by
    refine List.sum_pos _ (fun x hx => ?_) (List.ne_nil_of_mem hmem)
    obtain ⟨e', he', rfl⟩ := List.mem_map.mp hx
    exact hpositive e' (List.mem_filter.mp he').1
  exact hpos.ne' h

omit [DecidableEq α] in
/-- Positive entries that one more entry balances are all on the side opposite to it exactly when
that side alone comes to its amount. -/
theorem one_sided_iff {settling : ε} (hpositive : ∀ e ∈ entries, 0 < J.amount e)
    (hside : J.side settling = d.opposite)
    (hbalanced : J.total .debit (entries ++ [settling]) = J.total .credit (entries ++ [settling])) :
    (∀ e ∈ entries, J.side e = d) ↔ J.total d entries = J.amount settling := by
  have hbalance : J.total d entries = J.total d.opposite entries + J.amount settling := by
    rw [total_append, total_append] at hbalanced
    cases d with
    | debit =>
      have hs : J.side settling = .credit := hside
      change J.total .debit entries = J.total .credit entries + J.amount settling
      simpa [total, hs] using hbalanced
    | credit =>
      have hs : J.side settling = .debit := hside
      change J.total .credit entries = J.total .debit entries + J.amount settling
      simpa [total, hs] using hbalanced.symm
  constructor
  · intro h
    have hnone : (entries.filter fun e => decide (J.side e = d.opposite)) = [] := by
      rw [List.filter_eq_nil_iff]
      intro e he
      rw [h e he]
      cases d <;> decide
    rw [hbalance, total, hnone, List.map_nil, List.sum_nil, zero_add]
  · intro h e he
    have hzero : J.total d.opposite entries = 0 := by
      rw [hbalance] at h
      exact add_eq_right.mp h
    have hne := J.side_empty_of_total hpositive hzero e he
    cases d <;> cases hs : J.side e <;> simp_all [Side.opposite]

end Ordered

end Journal

end DoubleEntry
