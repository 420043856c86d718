import Mathlib.Data.Rat.Floor
import Mathlib.Data.Int.Log
import Mathlib.Algebra.Order.Field.Power
import Mathlib.Tactic.Linarith
import Mathlib.Tactic.Positivity
import Mathlib.Tactic.FieldSimp

/-!
# Decimal arithmetic

Decimal numbers are rationals; what distinguishes the implementations is where they round.
`roundSig` keeps a number of significant digits, as a floating decimal does after an operation,
`toFixed` writes a number with a fixed number of places, and `Numeric` is a column of fixed
precision and scale, held as a count of its smallest unit. All three round half away from zero.
-/

namespace DecimalArithmetic

def roundHalfUp (x : ℚ) : ℤ := if 0 ≤ x then ⌊x + 1 / 2⌋ else -⌊-x + 1 / 2⌋

@[simp] theorem roundHalfUp_intCast (n : ℤ) : roundHalfUp n = n := by
  have hfloor : ∀ m : ℤ, ⌊(m : ℚ) + 1 / 2⌋ = m := by
    intro m
    rw [Int.floor_eq_iff]
    constructor <;> linarith
  unfold roundHalfUp
  split
  · exact hfloor n
  · have h := hfloor (-n)
    push_cast at h
    rw [h, neg_neg]

theorem roundHalfUp_nonneg {x : ℚ} (hx : 0 ≤ x) : 0 ≤ roundHalfUp x := by
  rw [roundHalfUp, if_pos hx]
  exact Int.floor_nonneg.mpr (by linarith)

theorem roundHalfUp_of_int {x : ℚ} {n : ℤ} (hx : x = n) : roundHalfUp x = n := by
  rw [hx, roundHalfUp_intCast]

/-- The place of the leading digit: `10 ^ exponent x ≤ |x| < 10 ^ (exponent x + 1)`. -/
def exponent (x : ℚ) : ℤ := Int.log 10 |x|

theorem zpow_exponent_le {x : ℚ} (hx : x ≠ 0) : (10 : ℚ) ^ exponent x ≤ |x| := by
  have h := Int.zpow_log_le_self (b := 10) (by norm_num) (abs_pos.mpr hx)
  exact_mod_cast h

theorem lt_zpow_exponent (x : ℚ) : |x| < (10 : ℚ) ^ (exponent x + 1) := by
  have h := Int.lt_zpow_succ_log_self (b := 10) (by norm_num) |x|
  exact_mod_cast h

def roundTo (place : ℤ) (x : ℚ) : ℚ := roundHalfUp (x / 10 ^ place) * 10 ^ place

/-- Round to `p` significant digits. -/
def roundSig (p : ℕ) (x : ℚ) : ℚ := if x = 0 then 0 else roundTo (exponent x - p + 1) x

/-- `x` has at most `p` significant digits. -/
def Fits (p : ℕ) (x : ℚ) : Prop := ∃ m e : ℤ, |m| < 10 ^ p ∧ x = m * 10 ^ e

theorem fits_zero (p : ℕ) : Fits p 0 := ⟨0, 0, by positivity, by simp⟩

/-- A number with at most `p` significant digits is a multiple of its last kept place. -/
theorem exists_int_div_of_fits {p : ℕ} {x : ℚ} (hx : x ≠ 0) (h : Fits p x) :
    ∃ k : ℤ, x / 10 ^ (exponent x - p + 1) = k := by
  obtain ⟨m, e, hm, he⟩ := h
  have hplace : exponent x - p + 1 ≤ e := by
    by_contra hlt
    push Not at hlt
    have hlow : (10 : ℚ) ^ exponent x ≤ |(m : ℚ)| * 10 ^ e := by
      have := zpow_exponent_le hx
      rwa [he, abs_mul, abs_of_pos (by positivity : (0 : ℚ) < 10 ^ e), ← he] at this
    have hhigh : |(m : ℚ)| * 10 ^ e < (10 : ℚ) ^ ((p : ℤ) + e) := by
      rw [zpow_add₀ (by norm_num), zpow_natCast]
      have hm' : |(m : ℚ)| < (10 : ℚ) ^ p := by exact_mod_cast hm
      exact mul_lt_mul_of_pos_right hm' (by positivity)
    have hle : (10 : ℚ) ^ ((p : ℤ) + e) ≤ 10 ^ exponent x :=
      zpow_le_zpow_right₀ (by norm_num) (by omega)
    linarith
  obtain ⟨n, hn⟩ := Int.eq_ofNat_of_zero_le (sub_nonneg.mpr hplace)
  refine ⟨m * 10 ^ n, ?_⟩
  have hsplit : e = (exponent x - p + 1) + n := by omega
  have hne : (10 : ℚ) ^ (exponent x - p + 1) ≠ 0 := by positivity
  calc x / 10 ^ (exponent x - p + 1)
      = m * 10 ^ ((exponent x - p + 1) + n) / 10 ^ (exponent x - p + 1) := by
        rw [← hsplit, ← he]
    _ = m * 10 ^ n := by
        rw [zpow_add₀ (by norm_num), zpow_natCast]
        field_simp
    _ = ((m * 10 ^ n : ℤ) : ℚ) := by push_cast; rfl

theorem roundSig_of_fits {p : ℕ} {x : ℚ} (h : Fits p x) : roundSig p x = x := by
  unfold roundSig
  split
  · next hx => exact hx.symm
  · next hx =>
    obtain ⟨k, hk⟩ := exists_int_div_of_fits hx h
    rw [roundTo, roundHalfUp_of_int hk, ← hk]
    field_simp

/-- Rounding leaves exactly the numbers with at most `p` significant digits unchanged. -/
theorem roundSig_eq_self_iff {p : ℕ} {x : ℚ} : roundSig p x = x ↔ Fits p x := by
  constructor
  · intro h
    by_cases hx : x = 0
    · exact hx ▸ fits_zero p
    rw [roundSig, if_neg hx, roundTo] at h
    refine ⟨roundHalfUp (x / 10 ^ (exponent x - p + 1)), exponent x - p + 1, ?_, h.symm⟩
    have hpos : (0 : ℚ) < 10 ^ (exponent x - p + 1) := by positivity
    have habs : |x| = |(roundHalfUp (x / 10 ^ (exponent x - p + 1)) : ℚ)| *
        10 ^ (exponent x - p + 1) := by
      rw [← abs_of_pos hpos, ← abs_mul, abs_of_pos hpos, h]
    have hsplit : (10 : ℚ) ^ (exponent x + 1) = 10 ^ p * 10 ^ (exponent x - p + 1) := by
      rw [← zpow_natCast, ← zpow_add₀ (by norm_num)]
      congr 1
      ring
    have hlt := lt_zpow_exponent x
    rw [habs, hsplit] at hlt
    exact_mod_cast lt_of_mul_lt_mul_right hlt hpos.le
  · exact roundSig_of_fits

/-- Digits with a fixed number of places: `units / 10 ^ places`. -/
structure Text where
  units : ℤ
  places : ℕ
deriving DecidableEq, Repr

def Text.value (t : Text) : ℚ := t.units / 10 ^ t.places

def toFixed (places : ℕ) (x : ℚ) : Text := ⟨roundHalfUp (x * 10 ^ places), places⟩

/-- A value of a column of fixed precision and scale, as a count of its smallest unit. -/
structure Numeric (precision scale : ℕ) where
  units : ℤ
  bound : |units| < 10 ^ precision
deriving DecidableEq, Repr

namespace Numeric

variable {precision scale : ℕ}

def value (x : Numeric precision scale) : ℚ := x.units / 10 ^ scale

/-- What the column stores for `x`: rounded to the scale, refused beyond the precision. -/
def ofRat? (x : ℚ) : Option (Numeric precision scale) :=
  if h : |roundHalfUp (x * 10 ^ scale)| < 10 ^ precision then
    some ⟨roundHalfUp (x * 10 ^ scale), h⟩
  else none

@[ext] theorem ext {x y : Numeric precision scale} (h : x.units = y.units) : x = y := by
  cases x; cases y; cases h; rfl

theorem value_mul_pow (x : Numeric precision scale) : x.value * 10 ^ scale = x.units := by
  rw [value]
  field_simp

theorem value_injective {x y : Numeric precision scale} (h : x.value = y.value) : x = y := by
  apply ext
  have hx := x.value_mul_pow
  rw [h, y.value_mul_pow] at hx
  exact_mod_cast hx.symm

@[simp] theorem toFixed_value (x : Numeric precision scale) :
    toFixed scale x.value = ⟨x.units, scale⟩ := by
  rw [toFixed, value_mul_pow, roundHalfUp_intCast]

/-- Writing a column value with as many places as its scale is exact. -/
@[simp] theorem value_toFixed (x : Numeric precision scale) :
    (toFixed scale x.value).value = x.value := by
  rw [toFixed_value]
  rfl

@[simp] theorem ofRat?_value (x : Numeric precision scale) : ofRat? x.value = some x := by
  have hu : roundHalfUp (x.value * 10 ^ scale) = x.units := by
    rw [value_mul_pow, roundHalfUp_intCast]
  rw [ofRat?, dif_pos (by rw [hu]; exact x.bound)]
  exact congrArg some (ext hu)

/-- A stored value denotes the number it was stored from when that number is on the grid. -/
theorem value_of_ofRat? {x : ℚ} {n : Numeric precision scale} (h : ofRat? x = some n)
    {k : ℤ} (hx : x * 10 ^ scale = k) : n.value = x := by
  rw [ofRat?] at h
  split at h
  · cases h
    simp only [value, roundHalfUp_of_int hx]
    rw [← hx]
    field_simp
  · cases h

theorem ofRat?_nonneg {x : ℚ} {n : Numeric precision scale} (h : ofRat? x = some n)
    (hx : 0 ≤ x) : 0 ≤ n.value := by
  rw [ofRat?] at h
  split at h
  · cases h
    have hr : 0 ≤ roundHalfUp (x * 10 ^ scale) := roundHalfUp_nonneg (by positivity)
    rw [value]
    positivity
  · cases h

def zero : Numeric precision scale := ⟨0, by positivity⟩

@[simp] theorem value_zero : (zero : Numeric precision scale).value = 0 := by simp [value, zero]

end Numeric

end DecimalArithmetic
