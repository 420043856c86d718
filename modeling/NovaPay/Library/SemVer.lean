import Mathlib.Data.Char
import Mathlib.Data.List.Lex
import Mathlib.Data.Prod.Lex
import Mathlib.Data.Sum.Order
import Mathlib.Order.WithBot

/-!
# The precedence of semantic versions

A version has three numbers and the identifiers of a prerelease. The numbers are compared first, in order;
a version without identifiers stands above those with them, and two lists of identifiers are compared
identifier by identifier, a numeric one below any other. The numbers may be of any ordered type.
-/

namespace SemVer

inductive Identifier (ν : Type*)
  | numeric (n : ν)
  | alphanumeric (cs : List Char)

structure Version (ν : Type*) where
  major : ν
  minor : ν
  patch : ν
  prerelease : List (Identifier ν)

variable {ν μ : Type*}

namespace Identifier

/-- Where an identifier stands. -/
def rank : Identifier ν → ν ⊕ₗ List Char
  | .numeric n => Sum.inlₗ n
  | .alphanumeric cs => Sum.inrₗ cs

def map (f : ν → μ) : Identifier ν → Identifier μ
  | .numeric n => .numeric (f n)
  | .alphanumeric cs => .alphanumeric cs

end Identifier

namespace Version

/-- Where a list of identifiers stands. -/
def prereleaseRank (identifiers : List (Identifier ν)) : WithTop (List (ν ⊕ₗ List Char)) :=
  if identifiers = [] then ⊤ else (identifiers.map Identifier.rank : List (ν ⊕ₗ List Char))

/-- Where a version stands among the others. -/
def rank (v : Version ν) : ν ×ₗ ν ×ₗ ν ×ₗ WithTop (List (ν ⊕ₗ List Char)) :=
  toLex (v.major, toLex (v.minor, toLex (v.patch, prereleaseRank v.prerelease)))

/-- The version with its numbers read in another way. -/
def map (f : ν → μ) (v : Version ν) : Version μ where
  major := f v.major
  minor := f v.minor
  patch := f v.patch
  prerelease := v.prerelease.map (Identifier.map f)

end Version

section Compare

/-- How the first of two members of an order compares with the second. -/
def order {α : Type*} [LinearOrder α] (a b : α) : Ordering := cmp a b

section Order

variable {α β : Type*} [LinearOrder α] [LinearOrder β] {a b : α}

theorem order_lt_iff : order a b = .lt ↔ a < b := cmp_eq_lt_iff a b

theorem order_gt_iff : order a b = .gt ↔ b < a := cmp_eq_gt_iff a b

theorem order_eq_iff : order a b = .eq ↔ a = b := cmp_eq_eq_iff a b

theorem order_self (a : α) : order a a = .eq := order_eq_iff.mpr rfl

theorem order_swap (a b : α) : (order a b).swap = order b a := cmp_swap a b

/-- An embedding into another order compares as before. -/
theorem order_map {f : α → β} (hf : StrictMono f) (a b : α) : order (f a) (f b) = order a b :=
  hf.cmp_map_eq a b

/-- A map that keeps the order, and these two apart, compares them as before. -/
theorem order_of_monotone {f : α → β} (hf : Monotone f) (h : f a = f b → a = b) :
    order (f a) (f b) = order a b := by
  cases hab : order a b with
  | lt =>
    rw [order_lt_iff] at hab ⊢
    exact lt_of_le_of_ne (hf hab.le) fun heq => hab.ne (h heq)
  | gt =>
    rw [order_gt_iff] at hab ⊢
    exact lt_of_le_of_ne (hf hab.le) fun heq => hab.ne (h heq.symm).symm
  | eq =>
    rw [order_eq_iff] at hab ⊢
    rw [hab]

theorem order_toLex (a b : α) (x y : β) :
    order (toLex (a, x)) (toLex (b, y)) = (order a b).then (order x y) := by
  cases hab : order a b with
  | lt => exact order_lt_iff.mpr (Prod.Lex.toLex_lt_toLex.mpr (.inl (order_lt_iff.mp hab)))
  | gt => exact order_gt_iff.mpr (Prod.Lex.toLex_lt_toLex.mpr (.inl (order_gt_iff.mp hab)))
  | eq =>
    rw [order_eq_iff] at hab
    subst hab
    change _ = order x y
    cases hxy : order x y with
    | lt => exact order_lt_iff.mpr (Prod.Lex.toLex_lt_toLex.mpr (.inr ⟨rfl, order_lt_iff.mp hxy⟩))
    | gt => exact order_gt_iff.mpr (Prod.Lex.toLex_lt_toLex.mpr (.inr ⟨rfl, order_gt_iff.mp hxy⟩))
    | eq => rw [order_eq_iff.mp hxy, order_self]

theorem order_cons (a b : α) (as bs : List α) :
    order (a :: as) (b :: bs) = (order a b).then (order as bs) := by
  cases hab : order a b with
  | lt => exact order_lt_iff.mpr (List.cons_lt_cons_iff.mpr (.inl (order_lt_iff.mp hab)))
  | gt => exact order_gt_iff.mpr (List.cons_lt_cons_iff.mpr (.inl (order_gt_iff.mp hab)))
  | eq =>
    rw [order_eq_iff] at hab
    subst hab
    change _ = order as bs
    cases hcmp : order as bs with
    | lt => exact order_lt_iff.mpr (List.cons_lt_cons_iff.mpr (.inr ⟨rfl, order_lt_iff.mp hcmp⟩))
    | gt => exact order_gt_iff.mpr (List.cons_lt_cons_iff.mpr (.inr ⟨rfl, order_gt_iff.mp hcmp⟩))
    | eq => rw [order_eq_iff.mp hcmp, order_self]

theorem order_nil_cons (b : α) (bs : List α) : order [] (b :: bs) = .lt :=
  order_lt_iff.mpr (List.nil_lt_cons b bs)

theorem order_cons_nil (a : α) (as : List α) : order (a :: as) [] = .gt :=
  order_gt_iff.mpr (List.nil_lt_cons a as)

end Order

variable [LinearOrder ν]

/-- How the precedence of the first version compares with that of the second. -/
def precedence (v w : Version ν) : Ordering := order v.rank w.rank

/-- The numbers decide first, the identifiers last. -/
theorem precedence_eq (v w : Version ν) : precedence v w =
    (order v.major w.major).then ((order v.minor w.minor).then ((order v.patch w.patch).then
      (order (Version.prereleaseRank v.prerelease) (Version.prereleaseRank w.prerelease)))) := by
  rw [precedence, Version.rank, Version.rank, order_toLex, order_toLex, order_toLex]

theorem order_numeric (m n : ν) :
    order (Identifier.numeric m).rank (Identifier.numeric n).rank = order m n :=
  order_map Sum.Lex.inl_strictMono m n

theorem order_alphanumeric (as bs : List Char) :
    order (Identifier.alphanumeric as : Identifier ν).rank (Identifier.alphanumeric bs).rank = order as bs :=
  order_map Sum.Lex.inr_strictMono as bs

theorem order_numeric_alphanumeric (m : ν) (bs : List Char) :
    order (Identifier.numeric m).rank (Identifier.alphanumeric bs).rank = .lt :=
  order_lt_iff.mpr (Sum.Lex.inl_lt_inr m bs)

theorem order_alphanumeric_numeric (as : List Char) (n : ν) :
    order (Identifier.alphanumeric as).rank (Identifier.numeric n).rank = .gt :=
  order_gt_iff.mpr (Sum.Lex.inl_lt_inr n as)

/-- Two lists of identifiers are compared as lists. -/
theorem order_prereleaseRank {is js : List (Identifier ν)} (hi : is ≠ []) (hj : js ≠ []) :
    order (Version.prereleaseRank is) (Version.prereleaseRank js) =
      order (is.map Identifier.rank) (js.map Identifier.rank) := by
  rw [Version.prereleaseRank, Version.prereleaseRank, if_neg hi, if_neg hj]
  exact order_map WithTop.coe_strictMono _ _

end Compare

end SemVer
