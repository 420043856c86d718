import Mathlib.Tactic.LinearCombination
import NovaPay.Library.DecimalArithmetic

/-!
# What rounding keeps

Rounding to an integer, to a place and to a number of significant digits keeps the order of numbers
and fixes what is already on the grid. From this follows when two roundings in a row, first to
significant digits and then to a number of places, give what the second alone would give.
-/

namespace DecimalArithmetic

variable {x y : ℚ} {n : ℤ} {place : ℤ} {p s : ℕ}

theorem roundHalfUp_eq_iff (hx : 0 ≤ x) :
    roundHalfUp x = n ↔ (n : ℚ) - 1 / 2 ≤ x ∧ x < n + 1 / 2 := by
  rw [roundHalfUp, if_pos hx, Int.floor_eq_iff]
  constructor
  · rintro ⟨hlow, hhigh⟩
    constructor <;> linarith
  · rintro ⟨hlow, hhigh⟩
    constructor <;> linarith

theorem roundHalfUp_bounds (hx : 0 ≤ x) :
    (roundHalfUp x : ℚ) - 1 / 2 ≤ x ∧ x < roundHalfUp x + 1 / 2 :=
  (roundHalfUp_eq_iff hx).mp rfl

theorem roundHalfUp_mono (hx : 0 ≤ x) (h : x ≤ y) : roundHalfUp x ≤ roundHalfUp y := by
  rw [roundHalfUp, if_pos hx, roundHalfUp, if_pos (hx.trans h)]
  apply Int.floor_le_floor
  linarith

theorem le_roundHalfUp (hn : 0 ≤ n) (h : n ≤ x) : n ≤ roundHalfUp x := by
  have hmono := roundHalfUp_mono (by exact_mod_cast hn) h
  rwa [roundHalfUp_intCast] at hmono

theorem roundHalfUp_le (hx : 0 ≤ x) (h : x ≤ n) : roundHalfUp x ≤ n := by
  have hmono := roundHalfUp_mono hx h
  rwa [roundHalfUp_intCast] at hmono

/-- A number that is not below half a unit is not rounded to zero. -/
theorem roundHalfUp_pos_iff (hx : 0 ≤ x) : 0 < roundHalfUp x ↔ 1 / 2 ≤ x := by
  rw [roundHalfUp, if_pos hx, Int.floor_pos]
  constructor
  · intro h
    linarith
  · intro h
    linarith

/-- A column keeps a number positive when the number reaches half a unit of the column. -/
theorem Numeric.value_pos_iff_of_ofRat? {precision scale : ℕ} {m : Numeric precision scale}
    (h : Numeric.ofRat? x = some m) (hx : 0 ≤ x) : 0 < m.value ↔ 1 / 2 ≤ x * 10 ^ scale := by
  have hunits : m.units = roundHalfUp (x * 10 ^ scale) := by
    rw [Numeric.ofRat?] at h
    split at h
    · exact congrArg Numeric.units (Option.some.inj h).symm
    · cases h
  rw [← roundHalfUp_pos_iff (by positivity), ← hunits, Numeric.value, div_pos_iff_of_pos_right
    (by positivity)]
  exact Int.cast_pos

/-! ### The leading digit -/

theorem exponent_eq_iff (hx : 0 < x) :
    exponent x = n ↔ (10 : ℚ) ^ n ≤ x ∧ x < (10 : ℚ) ^ (n + 1) := by
  have hlow := zpow_exponent_le hx.ne'
  have hhigh := lt_zpow_exponent x
  rw [abs_of_pos hx] at hlow hhigh
  constructor
  · rintro rfl
    exact ⟨hlow, hhigh⟩
  · intro ⟨hle, hlt⟩
    have h₁ : exponent x < n + 1 :=
      (zpow_lt_zpow_iff_right₀ (by norm_num : (1 : ℚ) < 10)).mp (hlow.trans_lt hlt)
    have h₂ : n < exponent x + 1 :=
      (zpow_lt_zpow_iff_right₀ (by norm_num : (1 : ℚ) < 10)).mp (hle.trans_lt hhigh)
    omega

theorem le_exponent_iff (hx : 0 < x) : n ≤ exponent x ↔ (10 : ℚ) ^ n ≤ x := by
  obtain ⟨hlow, hhigh⟩ := (exponent_eq_iff hx).mp rfl
  constructor
  · intro h
    exact (zpow_le_zpow_right₀ (by norm_num) h).trans hlow
  · intro h
    have hlt : n < exponent x + 1 :=
      (zpow_lt_zpow_iff_right₀ (by norm_num : (1 : ℚ) < 10)).mp (h.trans_lt hhigh)
    omega

/-! ### Rounding to a place -/

theorem roundTo_eq_iff (hx : 0 ≤ x) : roundTo place x = n * 10 ^ place ↔
    ((n : ℚ) - 1 / 2) * 10 ^ place ≤ x ∧ x < (n + 1 / 2) * 10 ^ place := by
  have hpos : (0 : ℚ) < 10 ^ place := by positivity
  rw [← le_div_iff₀ hpos, ← div_lt_iff₀ hpos, ← roundHalfUp_eq_iff (by positivity)]
  rw [roundTo, mul_left_inj' hpos.ne']
  exact Int.cast_inj

theorem roundTo_mono (hx : 0 ≤ x) (h : x ≤ y) : roundTo place x ≤ roundTo place y := by
  have hpos : (0 : ℚ) < 10 ^ place := by positivity
  have hround := roundHalfUp_mono (by positivity) (div_le_div_of_nonneg_right h hpos.le)
  exact mul_le_mul_of_nonneg_right (by exact_mod_cast hround) hpos.le

theorem roundTo_of_grid (hx : x = n * 10 ^ place) : roundTo place x = x := by
  have hdiv : x / 10 ^ place = n := by
    rw [hx]
    field_simp
  rw [roundTo, roundHalfUp_of_int hdiv, hx]

theorem roundSig_of_pos (hx : 0 < x) : roundSig p x = roundTo (exponent x - p + 1) x :=
  if_neg hx.ne'

/-- The leading digit of a number stands where it was, or one place higher. -/
theorem zpow_exponent_le_roundSig (hp : 0 < p) (hx : 0 < x) :
    (10 : ℚ) ^ exponent x ≤ roundSig p x := by
  obtain ⟨hlow, -⟩ := (exponent_eq_iff hx).mp rfl
  obtain ⟨k, hk⟩ := Int.eq_ofNat_of_zero_le (show 0 ≤ exponent x - (exponent x - p + 1) by omega)
  have hgrid : (10 : ℚ) ^ exponent x = ((10 ^ k : ℤ) : ℚ) * 10 ^ (exponent x - p + 1) := by
    push_cast
    rw [← zpow_natCast, ← zpow_add₀ (by norm_num)]
    congr 1
    omega
  have hmono := @roundTo_mono _ _ (exponent x - p + 1) (by positivity) hlow
  rwa [roundTo_of_grid hgrid, ← roundSig_of_pos hx] at hmono

theorem roundSig_pos (hp : 0 < p) (hx : 0 < x) : 0 < roundSig p x :=
  lt_of_lt_of_le (by positivity) (zpow_exponent_le_roundSig hp hx)

/-- What is rounded to `p` digits has at most `p` digits, also where it is rounded up to the next
power of ten. -/
theorem fits_roundSig (hp : 0 < p) (hx : 0 ≤ x) : Fits p (roundSig p x) := by
  rcases hx.eq_or_lt with rfl | hx
  · simpa [roundSig] using fits_zero p
  obtain ⟨-, hhigh⟩ := (exponent_eq_iff hx).mp rfl
  have hplace : (0 : ℚ) < 10 ^ (exponent x - p + 1) := by positivity
  have hquot : x / 10 ^ (exponent x - p + 1) ≤ ((10 ^ p : ℤ) : ℚ) := by
    rw [div_le_iff₀ hplace]
    push_cast
    rw [← zpow_natCast, ← zpow_add₀ (by norm_num)]
    exact hhigh.le.trans_eq (by congr 1; ring)
  have hle := roundHalfUp_le (by positivity) hquot
  have hnonneg : 0 ≤ roundHalfUp (x / 10 ^ (exponent x - p + 1)) := roundHalfUp_nonneg (by positivity)
  rw [roundSig_of_pos hx, roundTo]
  rcases hle.lt_or_eq with hlt | heq
  · exact ⟨_, _, by rwa [abs_of_nonneg hnonneg], rfl⟩
  · refine ⟨1, p + (exponent x - p + 1), ?_, ?_⟩
    · simpa using one_lt_pow₀ (by norm_num : (1 : ℤ) < 10) hp.ne'
    · rw [heq, zpow_add₀ (by norm_num) (p : ℤ), zpow_natCast]
      push_cast
      ring

/-! ### Two roundings -/

/-- Rounding to a multiple of `1 / (2 * h)` and then to an integer misses the integer next to `x` when
the first rounding reaches the tie above it. -/
theorem roundHalfUp_twice {h : ℕ} (hh : 0 < h) (hx : 0 ≤ x) :
    roundHalfUp (roundHalfUp (x * (2 * h)) / (2 * h)) = roundHalfUp x ↔
      x * (2 * h) < roundHalfUp x * (2 * h) + h - 1 / 2 := by
  have hcast : (0 : ℚ) < h := by exact_mod_cast hh
  have hfine : (0 : ℚ) ≤ x * (2 * h) := by positivity
  obtain ⟨hlow, hhigh⟩ := roundHalfUp_bounds hx
  have hround : 0 ≤ roundHalfUp (x * (2 * h)) := roundHalfUp_nonneg hfine
  set r := roundHalfUp x
  set j := roundHalfUp (x * (2 * h)) with hj
  -- the tie below `x` is on the finer grid, and so is the one above
  have hlower : r * (2 * h) - h ≤ j := by
    by_cases hneg : r * (2 * h) - h < 0
    · omega
    · apply le_roundHalfUp (not_lt.mp hneg)
      push_cast
      nlinarith
  have hupper : j ≤ r * (2 * h) + h := by
    apply roundHalfUp_le hfine
    push_cast
    nlinarith
  have hreach : j < r * (2 * h) + h ↔ x * (2 * h) < r * (2 * h) + h - 1 / 2 := by
    obtain ⟨hjlow, hjhigh⟩ := roundHalfUp_bounds hfine
    rw [← hj] at hjlow hjhigh
    constructor
    · intro hlt
      have hle : (j : ℚ) + 1 ≤ r * (2 * h) + h := by exact_mod_cast hlt
      linarith
    · intro hlt
      have hsum : (j : ℚ) < r * (2 * h) + h := by linarith
      exact_mod_cast hsum
  rw [← hreach, roundHalfUp_eq_iff (by positivity)]
  have hmul : (0 : ℚ) < 2 * h := by positivity
  rw [le_div_iff₀ hmul, div_lt_iff₀ hmul]
  constructor
  · intro ⟨_, hlt⟩
    have hsum : (j : ℚ) < r * (2 * h) + h := by linarith
    exact_mod_cast hsum
  · intro hlt
    have hle : (r : ℚ) * (2 * h) - h ≤ j := by exact_mod_cast hlower
    have hlt' : (j : ℚ) < r * (2 * h) + h := by exact_mod_cast hlt
    constructor <;> linarith

theorem toFixed_eq_iff : toFixed s x = toFixed s y ↔
    roundHalfUp (x * 10 ^ s) = roundHalfUp (y * 10 ^ s) := by
  simp [toFixed]

theorem zpow_split {a b : ℤ} (h : a ≤ b) : ∃ k : ℕ, (10 : ℚ) ^ b = 10 ^ k * 10 ^ a := by
  obtain ⟨k, hk⟩ := Int.eq_ofNat_of_zero_le (sub_nonneg.mpr h)
  refine ⟨k, ?_⟩
  rw [← zpow_natCast, ← zpow_add₀ (by norm_num)]
  congr 1
  omega

/-- The first number above `x` that lies halfway between two numbers of `s` places. -/
def nextTie (s : ℕ) (x : ℚ) : ℚ := (roundHalfUp (x * 10 ^ s) + 1 / 2) / 10 ^ s

/-- Where the digits go beyond the places, two roundings differ from one when the first reaches the
next tie. -/
theorem toFixed_roundSig_of_fine (hx : 0 < x) (hfine : exponent x - p + 1 < -s) :
    toFixed s (roundSig p x) = toFixed s x ↔ x + 10 ^ (exponent x - p + 1) / 2 < nextTie s x := by
  obtain ⟨k, hk⟩ := zpow_split (show exponent x - p + 1 ≤ -(s : ℤ) - 1 by omega)
  have hpow : (0 : ℚ) < 10 ^ s := by positivity
  have hplace : (0 : ℚ) < 10 ^ (exponent x - p + 1) := by positivity
  -- the last digit is this fraction of the last place
  have hunit : (10 : ℚ) ^ (exponent x - p + 1) * 10 ^ s * (2 * (5 * 10 ^ k : ℕ)) = 1 := by
    have hprod : (10 : ℚ) ^ (-(s : ℤ) - 1) * (10 ^ s * 10) = 1 := by
      rw [← zpow_natCast, ← zpow_add_one₀ (by norm_num), ← zpow_add₀ (by norm_num)]
      simp
    rw [hk] at hprod
    push_cast
    linarith
  have hm : (0 : ℚ) < 2 * (5 * 10 ^ k : ℕ) := by positivity
  have hfirst : x / 10 ^ (exponent x - p + 1) = x * 10 ^ s * (2 * (5 * 10 ^ k : ℕ)) := by
    rw [div_eq_iff hplace.ne']
    linear_combination -x * hunit
  have hsecond : roundSig p x * 10 ^ s =
      roundHalfUp (x * 10 ^ s * (2 * (5 * 10 ^ k : ℕ))) / (2 * (5 * 10 ^ k : ℕ)) := by
    rw [roundSig_of_pos hx, roundTo, hfirst, eq_div_iff hm.ne']
    linear_combination roundHalfUp (x * 10 ^ s * (2 * (5 * 10 ^ k : ℕ))) * hunit
  have hscaled : (x + 10 ^ (exponent x - p + 1) / 2) * 10 ^ s * (2 * (5 * 10 ^ k : ℕ)) =
      x * 10 ^ s * (2 * (5 * 10 ^ k : ℕ)) + 1 / 2 := by
    linear_combination (1 / 2) * hunit
  rw [toFixed_eq_iff, hsecond, roundHalfUp_twice (by positivity) (by positivity), nextTie,
    lt_div_iff₀ hpow]
  constructor
  · intro h
    apply lt_of_mul_lt_mul_right _ hm.le
    rw [hscaled]
    linarith
  · intro h
    have hmul := mul_lt_mul_of_pos_right h hm
    rw [hscaled] at hmul
    linarith

/-- Where the digits end before the places do, two roundings give what one gives when that has no
more digits. -/
theorem toFixed_roundSig_of_coarse (hp : 0 < p) (hx : 0 < x) (hcoarse : -(s : ℤ) ≤ exponent x - p + 1) :
    toFixed s (roundSig p x) = toFixed s x ↔ Fits p (toFixed s x).value := by
  have hpow : (0 : ℚ) < 10 ^ s := by positivity
  have hplace : (0 : ℚ) < 10 ^ (exponent x - p + 1) := by positivity
  obtain ⟨j, hj⟩ := zpow_split hcoarse
  rw [zpow_neg, zpow_natCast] at hj
  -- rounding to the places changes nothing after the first rounding
  have hkept : (toFixed s (roundSig p x)).value = roundSig p x := by
    have hint : roundSig p x * 10 ^ s =
        ((roundHalfUp (x / 10 ^ (exponent x - p + 1)) * 10 ^ j : ℤ) : ℚ) := by
      rw [roundSig_of_pos hx, roundTo, hj]
      push_cast
      field_simp
    rw [toFixed, Text.value, roundHalfUp_of_int hint, ← hint]
    field_simp
  have hvalue : toFixed s (roundSig p x) = toFixed s x ↔ roundSig p x = (toFixed s x).value := by
    constructor
    · intro h
      rw [← h, hkept]
    · intro h
      rw [toFixed_eq_iff, h, Text.value, toFixed]
      rw [div_mul_cancel₀ _ hpow.ne', roundHalfUp_intCast]
  rw [hvalue]
  constructor
  · intro h
    rw [← h]
    exact fits_roundSig hp hx.le
  · intro hfits
    obtain ⟨hlow, -⟩ := (exponent_eq_iff hx).mp rfl
    have hbounds := roundHalfUp_bounds (show 0 ≤ x * 10 ^ s by positivity)
    set z := (toFixed s x).value with hz
    have hscaled : z * 10 ^ s = roundHalfUp (x * 10 ^ s) := by
      rw [hz, toFixed, Text.value]
      field_simp
    -- the leading digit is a number of `s` places, so it is not above the rounded number
    have hlead : (10 : ℚ) ^ exponent x ≤ z := by
      obtain ⟨i, hi⟩ := zpow_split (show -(s : ℤ) ≤ exponent x by omega)
      rw [zpow_neg, zpow_natCast] at hi
      have hscaledlead : (10 : ℚ) ^ exponent x * 10 ^ s = ((10 ^ i : ℤ) : ℚ) := by
        rw [hi]
        push_cast
        field_simp
      have hle : (10 ^ i : ℤ) ≤ roundHalfUp (x * 10 ^ s) := by
        apply le_roundHalfUp (by positivity)
        rw [← hscaledlead]
        exact mul_le_mul_of_nonneg_right hlow hpow.le
      have hcast : ((10 ^ i : ℤ) : ℚ) ≤ roundHalfUp (x * 10 ^ s) := by exact_mod_cast hle
      rw [← hscaledlead, ← hscaled] at hcast
      exact le_of_mul_le_mul_right hcast hpow
    have hzpos : 0 < z := lt_of_lt_of_le (by positivity) hlead
    obtain ⟨n, hn⟩ := exists_int_div_of_fits hzpos.ne' hfits
    obtain ⟨l, hl⟩ := zpow_split (show exponent x - p + 1 ≤ exponent z - p + 1 by
      have hexp := (le_exponent_iff hzpos).mpr hlead
      omega)
    have hgrid : z = ((n * 10 ^ l : ℤ) : ℚ) * 10 ^ (exponent x - p + 1) := by
      rw [div_eq_iff (by positivity), hl] at hn
      push_cast
      linarith
    rw [roundSig_of_pos hx, hgrid, roundTo_eq_iff hx.le, sub_mul, add_mul, ← hgrid]
    have hunit : (1 : ℚ) / 10 ^ s ≤ 10 ^ (exponent x - p + 1) := by
      rw [one_div, ← zpow_natCast, ← zpow_neg]
      exact zpow_le_zpow_right₀ (by norm_num) hcoarse
    rw [← hscaled] at hbounds
    have hnear : z - 1 / 10 ^ s / 2 ≤ x ∧ x < z + 1 / 10 ^ s / 2 := by
      constructor
      · apply le_of_mul_le_mul_right _ hpow
        rw [sub_mul, div_mul_eq_mul_div, div_mul_cancel₀ _ hpow.ne']
        exact hbounds.1
      · apply lt_of_mul_lt_mul_right _ hpow.le
        rw [add_mul, div_mul_eq_mul_div, div_mul_cancel₀ _ hpow.ne']
        exact hbounds.2
    constructor
    · linarith [hnear.1]
    · linarith [hnear.2]

/-! ### Sums that are rounded at every step -/

/-- The sum, rounded after every addition. -/
def sumSig (p : ℕ) (xs : List ℚ) : ℚ := xs.foldl (fun total x => roundSig p (total + x)) 0

/-- Every partial sum that starts from `total` has at most `p` significant digits. -/
def PartialSumsFit (p : ℕ) : ℚ → List ℚ → Prop
  | _, [] => True
  | total, x :: xs => Fits p (total + x) ∧ PartialSumsFit p (total + x) xs

theorem foldl_roundSig_of_fits {xs : List ℚ} {total : ℚ} (h : PartialSumsFit p total xs) :
    xs.foldl (fun total x => roundSig p (total + x)) total = total + xs.sum := by
  induction xs generalizing total with
  | nil => simp
  | cons x xs ih => rw [List.foldl_cons, roundSig_of_fits h.1, ih h.2, List.sum_cons, add_assoc]

/-- A rounded sum has at most `p` digits, whatever was lost on the way. -/
theorem fits_sumSig {xs : List ℚ} (hp : 0 < p) (h : ∀ x ∈ xs, 0 ≤ x) : Fits p (sumSig p xs) := by
  have hrun : ∀ (ys : List ℚ) (total : ℚ), (∀ x ∈ ys, 0 ≤ x) → 0 ≤ total → Fits p total →
      Fits p (ys.foldl (fun total x => roundSig p (total + x)) total) := by
    intro ys
    induction ys with
    | nil => exact fun _ _ _ hfits => hfits
    | cons y ys ih =>
      intro total hys htotal _
      obtain ⟨hy, hys⟩ := List.forall_mem_cons.mp hys
      have hsum : 0 ≤ total + y := add_nonneg htotal hy
      have hround : 0 ≤ roundSig p (total + y) := by
        rcases hsum.eq_or_lt with hzero | hpos
        · simp [roundSig, ← hzero]
        · exact (roundSig_pos hp hpos).le
      exact ih _ hys hround (fits_roundSig hp hsum)
  exact hrun xs 0 h le_rfl (fits_zero p)

theorem sumSig_of_fits {xs : List ℚ} (h : PartialSumsFit p 0 xs) : sumSig p xs = xs.sum := by
  rw [sumSig, foldl_roundSig_of_fits h, zero_add]

/-- A rounded sum of numbers that are not below a power of ten is not below it either. -/
theorem le_sumSig {xs : List ℚ} (hp : 0 < p) (hne : xs ≠ []) (h : ∀ x ∈ xs, (10 : ℚ) ^ n ≤ x) :
    (10 : ℚ) ^ n ≤ sumSig p xs := by
  have hstep : ∀ total x : ℚ, 0 ≤ total → (10 : ℚ) ^ n ≤ x →
      (10 : ℚ) ^ n ≤ roundSig p (total + x) := by
    intro total x htotal hx
    have hpow : (0 : ℚ) < 10 ^ n := by positivity
    have hsum : (10 : ℚ) ^ n ≤ total + x := by linarith
    have hexp := (le_exponent_iff (hpow.trans_le hsum)).mpr hsum
    calc (10 : ℚ) ^ n ≤ 10 ^ exponent (total + x) := zpow_le_zpow_right₀ (by norm_num) hexp
      _ ≤ roundSig p (total + x) := zpow_exponent_le_roundSig hp (hpow.trans_le hsum)
  have hrun : ∀ (ys : List ℚ) (total : ℚ), (∀ x ∈ ys, (10 : ℚ) ^ n ≤ x) → (10 : ℚ) ^ n ≤ total →
      (10 : ℚ) ^ n ≤ ys.foldl (fun total x => roundSig p (total + x)) total := by
    intro ys
    induction ys with
    | nil => exact fun _ _ htotal => htotal
    | cons y ys ih =>
      intro total hys htotal
      obtain ⟨hy, hys⟩ := List.forall_mem_cons.mp hys
      have hpow : (0 : ℚ) < 10 ^ n := by positivity
      exact ih _ hys (hstep total y (hpow.le.trans htotal) hy)
  cases xs with
  | nil => exact absurd rfl hne
  | cons x xs =>
    obtain ⟨hx, hxs⟩ := List.forall_mem_cons.mp h
    exact hrun xs _ hxs (hstep 0 x le_rfl hx)

end DecimalArithmetic
