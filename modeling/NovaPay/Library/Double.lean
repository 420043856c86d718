import Mathlib.Order.WithBot
import NovaPay.Library.DecimalArithmetic
import NovaPay.Library.JsonText

/-!
# Double precision numbers

The finite numbers of the binary64 format as rationals, the nearest of them to a rational, and the
shortest decimal that is nearer to a number than to any other. A number and its negative zero are one.
Rounding keeps the order of numbers, and up to `2 ^ 53` it keeps whole numbers apart.
-/

/-- Round to an integer, a half to the even one. -/
def roundHalfEven (x : ℚ) : ℤ :=
  if x - ⌊x⌋ < 1 / 2 then ⌊x⌋
  else if 1 / 2 < x - ⌊x⌋ then ⌊x⌋ + 1
  else if ⌊x⌋ % 2 = 0 then ⌊x⌋ else ⌊x⌋ + 1

@[simp] theorem roundHalfEven_intCast (n : ℤ) : roundHalfEven n = n := by
  simp [roundHalfEven]

theorem roundHalfEven_bounds {x : ℚ} {n : ℤ} (h : |x| ≤ n) : |roundHalfEven x| ≤ n := by
  obtain ⟨hlow, hhigh⟩ := abs_le.mp h
  have hfloor : -n ≤ ⌊x⌋ := Int.le_floor.mpr (by exact_mod_cast hlow)
  have hle : ⌊x⌋ ≤ n := by exact_mod_cast (Int.floor_le x).trans hhigh
  by_cases hx : x = n
  · rw [hx, roundHalfEven_intCast]
    exact abs_le.mpr ⟨by omega, le_refl n⟩
  · have hlt : ⌊x⌋ < n := Int.floor_lt.mpr (lt_of_le_of_ne hhigh hx)
    rw [abs_le, roundHalfEven]
    repeat' split
    all_goals omega

theorem roundHalfEven_neg (x : ℚ) : roundHalfEven (-x) = -roundHalfEven x := by
  by_cases hint : x = ⌊x⌋
  · have hneg : -x = ((-⌊x⌋ : ℤ) : ℚ) := by rw [Int.cast_neg, ← hint]
    rw [hneg, roundHalfEven_intCast]
    conv_rhs => rw [hint, roundHalfEven_intCast]
  · have hfloor : ⌊-x⌋ = -⌊x⌋ - 1 := by
      have hlow : (⌊x⌋ : ℚ) < x := lt_of_le_of_ne (Int.floor_le x) (Ne.symm hint)
      have hhigh : x < ⌊x⌋ + 1 := Int.lt_floor_add_one x
      rw [Int.floor_eq_iff]
      push_cast
      constructor <;> linarith
    have hsub : -x - ((-⌊x⌋ - 1 : ℤ) : ℚ) = 1 - (x - ⌊x⌋) := by
      push_cast
      ring
    rw [roundHalfEven, roundHalfEven, hfloor, hsub]
    generalize x - ⌊x⌋ = y
    generalize ⌊x⌋ = n
    -- The two neighbours change places, and one of them is even.
    obtain hy | rfl | hy := lt_trichotomy y (1 / 2)
    · rw [if_neg (by linarith), if_pos (by linarith), if_pos hy]
      omega
    · norm_num
      split <;> split <;> omega
    · rw [if_pos (by linarith), if_neg (by linarith), if_pos hy]
      omega

theorem le_roundHalfEven {x : ℚ} {n : ℤ} (h : n ≤ x) : n ≤ roundHalfEven x := by
  have hfloor : n ≤ ⌊x⌋ := Int.le_floor.mpr h
  unfold roundHalfEven
  repeat' split
  all_goals omega

theorem roundHalfEven_le {x : ℚ} {n : ℤ} (h : x ≤ n) : roundHalfEven x ≤ n := by
  have hneg := le_roundHalfEven (x := -x) (n := -n) (by push_cast; linarith)
  rw [roundHalfEven_neg] at hneg
  omega

theorem roundHalfEven_mono {x y : ℚ} (h : x ≤ y) : roundHalfEven x ≤ roundHalfEven y := by
  have hfloor : ⌊x⌋ ≤ ⌊y⌋ := Int.floor_le_floor h
  by_cases heq : ⌊x⌋ = ⌊y⌋
  · -- between the same two integers only the distance to them decides
    rw [roundHalfEven, roundHalfEven, heq]
    have hsub : x - ⌊y⌋ ≤ y - ⌊y⌋ := by linarith
    generalize ⌊y⌋ = n at *
    repeat' split
    all_goals first | omega | linarith
  · have hnext : roundHalfEven x ≤ ⌊y⌋ := by
      apply roundHalfEven_le
      have hlt : x < ⌊x⌋ + 1 := Int.lt_floor_add_one x
      have hcast : ((⌊x⌋ : ℚ) + 1) ≤ ⌊y⌋ := by exact_mod_cast (by omega : ⌊x⌋ + 1 ≤ ⌊y⌋)
      exact hlt.le.trans hcast
    exact hnext.trans (le_roundHalfEven (Int.floor_le y))

namespace Double

/-- The last place of the least numbers, below the point. -/
def leastPlace : ℕ := 1074

/-- The place of the last of the 53 bits that are kept. -/
def place (x : ℚ) : ℤ := max (Int.log 2 |x| - 52) (-leastPlace)

/-- The nearest multiple of the last place. -/
def round (x : ℚ) : ℚ := roundHalfEven (x / 2 ^ place x) * 2 ^ place x

theorem round_neg (x : ℚ) : round (-x) = -round x := by
  have hplace : place (-x) = place x := by rw [place, place, abs_neg]
  rw [round, round, hplace, neg_div, roundHalfEven_neg]
  push_cast
  ring

/-- At most 53 bits, the last of them not below the least place. -/
def Representable (x : ℚ) : Prop := ∃ m e : ℤ, |m| ≤ 2 ^ 53 ∧ -leastPlace ≤ e ∧ x = m * 2 ^ e

theorem representable_round (x : ℚ) : Representable (round x) := by
  refine ⟨roundHalfEven (x / 2 ^ place x), place x, roundHalfEven_bounds ?_, le_max_right _ _, rfl⟩
  have hlog : |x| < (2 : ℚ) ^ (Int.log 2 |x| + 1) := by
    exact_mod_cast Int.lt_zpow_succ_log_self (b := 2) (by norm_num) |x|
  have hle : (2 : ℚ) ^ (Int.log 2 |x| + 1) ≤ 2 ^ (53 + place x) :=
    zpow_le_zpow_right₀ (by norm_num) (by unfold place; omega)
  have hpos : (0 : ℚ) < 2 ^ place x := by positivity
  rw [abs_div, abs_of_pos hpos, div_le_iff₀ hpos]
  calc |x| ≤ (2 : ℚ) ^ (53 + place x) := (hlog.trans_le hle).le
    _ = ((2 ^ 53 : ℤ) : ℚ) * 2 ^ place x := by
      rw [zpow_add₀ (by norm_num)]
      norm_num

/-- A number with 53 bits is a multiple of its last place, as a rounded one is. -/
theorem round_of_representable {x : ℚ} (h : Representable x) : round x = x := by
  obtain ⟨m, e, hm, he, hx⟩ := h
  have hmultiple : ∀ k : ℤ, x = k * 2 ^ place x → round x = x := by
    intro k hk
    have hpos : (2 : ℚ) ^ place x ≠ 0 := by positivity
    have hdiv : x / 2 ^ place x = k := by rw [div_eq_iff hpos]; exact hk
    rw [round, hdiv, roundHalfEven_intCast]
    exact hk.symm
  by_cases hzero : x = 0
  · exact hmultiple 0 (by simp [hzero])
  by_cases hplace : place x ≤ e
  · obtain ⟨n, hn⟩ := Int.eq_ofNat_of_zero_le (sub_nonneg.mpr hplace)
    have hpow : (2 : ℚ) ^ e = 2 ^ n * 2 ^ place x := by
      rw [← zpow_natCast, ← zpow_add₀ (by norm_num)]
      congr 1
      omega
    refine hmultiple (m * 2 ^ n) ?_
    calc x = m * (2 ^ n * 2 ^ place x) := by rw [← hpow]; exact hx
      _ = ((m * 2 ^ n : ℤ) : ℚ) * 2 ^ place x := by push_cast; ring
  · -- The only number on the finer grid that reaches a higher place is the power of two.
    have hlog : place x = Int.log 2 |x| - 52 := by
      unfold place at hplace ⊢
      omega
    have hlow : (2 : ℚ) ^ Int.log 2 |x| ≤ |x| := by
      exact_mod_cast Int.zpow_log_le_self (b := 2) (by norm_num) (abs_pos.mpr hzero)
    have hpos : (0 : ℚ) < 2 ^ e := by positivity
    have habs : |x| = |(m : ℚ)| * 2 ^ e := by rw [hx, abs_mul, abs_of_pos hpos]
    have hstep : (2 : ℚ) ^ (53 + e) ≤ 2 ^ Int.log 2 |x| :=
      zpow_le_zpow_right₀ (by norm_num) (by omega)
    have hmabs : (2 : ℚ) ^ 53 ≤ |(m : ℚ)| := by
      have hprod : (2 : ℚ) ^ 53 * 2 ^ e ≤ |(m : ℚ)| * 2 ^ e := by
        rw [← habs]
        calc (2 : ℚ) ^ 53 * 2 ^ e = 2 ^ (53 + e) := by
              rw [zpow_add₀ (by norm_num)]
              norm_num
          _ ≤ |x| := hstep.trans hlow
      exact le_of_mul_le_mul_right hprod hpos
    have hmeq : |m| = 2 ^ 53 := le_antisymm hm (by exact_mod_cast hmabs)
    have htop : |x| = 2 ^ (53 + e) := by
      have hcast : |(m : ℚ)| = 2 ^ 53 := by exact_mod_cast congrArg (Int.cast : ℤ → ℚ) hmeq
      rw [habs, hcast, zpow_add₀ (by norm_num)]
      norm_num
    have hexact : Int.log 2 |x| = 53 + e := by
      rw [htop]
      exact_mod_cast Int.log_zpow (R := ℚ) (b := 2) (by norm_num) (53 + e)
    have hfinal : place x = e + 1 := by omega
    have hhalf : (2 : ℚ) ^ e * 2 = 2 ^ place x := by
      rw [hfinal, zpow_add₀ (by norm_num), zpow_one]
    have hodd : m = 2 ^ 53 ∨ m = -2 ^ 53 := by
      rcases abs_choice m with hc | hc <;> omega
    obtain hm | hm := hodd
    · refine hmultiple (2 ^ 52) ?_
      rw [← hhalf, hx, hm]
      push_cast
      ring
    · refine hmultiple (-2 ^ 52) ?_
      rw [← hhalf, hx, hm]
      push_cast
      ring

end Double

/-- A finite number of the binary64 format. -/
abbrev Double := { x : ℚ // Double.Representable x ∧ |x| < 2 ^ 1024 }

namespace Double

/-- The nearest number, unless it is infinite. -/
def ofRat? (x : ℚ) : Option Double :=
  if h : |round x| < 2 ^ 1024 then some ⟨round x, representable_round x, h⟩ else none

/-! ### The order of whole numbers -/

section Order

variable {x y : ℚ}

theorem place_mono (hx : 0 < x) (h : x ≤ y) : place x ≤ place y := by
  have hlog : Int.log 2 |x| ≤ Int.log 2 |y| := by
    rw [abs_of_pos hx, abs_of_pos (hx.trans_le h)]
    exact Int.log_mono_right hx h
  unfold place
  omega

/-- A power of two between two numbers stays between them. -/
theorem round_mono_of_nonneg (hx : 0 ≤ x) (h : x ≤ y) : round x ≤ round y := by
  obtain rfl | hpos := hx.eq_or_lt
  · have hzero : round 0 = 0 := round_of_representable ⟨0, 0, by decide, by decide, by norm_num⟩
    rw [hzero, round]
    have hquot : (0 : ℚ) ≤ y / 2 ^ place y := by positivity
    have hround : (0 : ℤ) ≤ roundHalfEven (y / 2 ^ place y) := le_roundHalfEven (by exact_mod_cast hquot)
    positivity
  have hplace := place_mono hpos h
  obtain heq | hlt := hplace.eq_or_lt
  · rw [round, round, heq]
    have hunit : (0 : ℚ) < 2 ^ place y := by positivity
    refine mul_le_mul_of_nonneg_right ?_ hunit.le
    exact_mod_cast roundHalfEven_mono (div_le_div_of_nonneg_right h hunit.le)
  · have hy : 0 < y := hpos.trans_le h
    have hlow : (2 : ℚ) ^ (place y + 52) ≤ y := by
      have hlog : place y + 52 = Int.log 2 y := by
        have hbound : -(leastPlace : ℤ) ≤ place x := le_max_right _ _
        unfold place at hlt hbound ⊢
        rw [abs_of_pos hy] at *
        omega
      rw [hlog]
      exact_mod_cast Int.zpow_log_le_self (b := 2) (by norm_num) hy
    have hhigh : x ≤ (2 : ℚ) ^ (place x + 53) := by
      have hlog : x < (2 : ℚ) ^ (Int.log 2 x + 1) := by
        exact_mod_cast Int.lt_zpow_succ_log_self (b := 2) (by norm_num) x
      refine hlog.le.trans (zpow_le_zpow_right₀ (by norm_num) ?_)
      unfold place
      rw [abs_of_pos hpos]
      omega
    have hx' : round x ≤ 2 ^ (place x + 53) := by
      have hunit : (0 : ℚ) < 2 ^ place x := by positivity
      have hquot : x / 2 ^ place x ≤ ((2 ^ 53 : ℤ) : ℚ) := by
        rw [div_le_iff₀ hunit]
        refine hhigh.trans_eq ?_
        rw [zpow_add₀ (by norm_num)]
        push_cast
        ring
      have hround : ((roundHalfEven (x / 2 ^ place x) : ℤ) : ℚ) ≤ ((2 ^ 53 : ℤ) : ℚ) := by
        exact_mod_cast roundHalfEven_le hquot
      calc round x ≤ ((2 ^ 53 : ℤ) : ℚ) * 2 ^ place x := mul_le_mul_of_nonneg_right hround hunit.le
        _ = 2 ^ (place x + 53) := by
          rw [zpow_add₀ (by norm_num)]
          push_cast
          ring
    have hy' : (2 : ℚ) ^ (place y + 52) ≤ round y := by
      have hunit : (0 : ℚ) < 2 ^ place y := by positivity
      have hquot : ((2 ^ 52 : ℤ) : ℚ) ≤ y / 2 ^ place y := by
        rw [le_div_iff₀ hunit]
        refine Eq.trans_le ?_ hlow
        rw [zpow_add₀ (by norm_num)]
        push_cast
        ring
      have hround : ((2 ^ 52 : ℤ) : ℚ) ≤ ((roundHalfEven (y / 2 ^ place y) : ℤ) : ℚ) := by
        exact_mod_cast le_roundHalfEven hquot
      calc (2 : ℚ) ^ (place y + 52) = ((2 ^ 52 : ℤ) : ℚ) * 2 ^ place y := by
            rw [zpow_add₀ (by norm_num)]
            push_cast
            ring
        _ ≤ round y := mul_le_mul_of_nonneg_right hround hunit.le
    have hmid : (2 : ℚ) ^ (place x + 53) ≤ 2 ^ (place y + 52) :=
      zpow_le_zpow_right₀ (by norm_num) (by omega)
    exact hx'.trans (hmid.trans hy')

/-- The number that a text of digits denotes, infinite past the largest. -/
def ofNat (n : ℕ) : WithTop Double := ofRat? n

theorem ofNat_mono : Monotone ofNat := by
  intro m n h
  have hround : round m ≤ round n := round_mono_of_nonneg (by positivity) (by exact_mod_cast h)
  have hnonneg : 0 ≤ round m := by
    have hzero : round 0 = 0 := round_of_representable ⟨0, 0, by decide, by decide, by norm_num⟩
    rw [← hzero]
    exact round_mono_of_nonneg le_rfl (by positivity)
  unfold ofNat ofRat?
  by_cases hn : |round (n : ℚ)| < 2 ^ 1024
  · have hm : |round (m : ℚ)| < 2 ^ 1024 := by
      rw [abs_of_nonneg hnonneg]
      rw [abs_of_nonneg (hnonneg.trans hround)] at hn
      exact hround.trans_lt hn
    rw [dif_pos hm, dif_pos hn]
    exact WithTop.coe_le_coe.mpr (Subtype.mk_le_mk.mpr hround)
  · rw [dif_neg hn]
    exact le_top

/-- Up to `2 ^ 53` every whole number is a number. -/
theorem ofNat_injOn : Set.InjOn ofNat (Set.Iic (2 ^ 53)) := by
  have hround : ∀ n : ℕ, n ≤ 2 ^ 53 → round n = n := by
    intro n hn
    have habs : |(n : ℤ)| ≤ 2 ^ 53 := by
      rw [abs_of_nonneg (by positivity)]
      exact_mod_cast hn
    exact round_of_representable ⟨n, 0, habs, by decide, by norm_num⟩
  have hfinite : ∀ n : ℕ, n ≤ 2 ^ 53 → |round (n : ℚ)| < 2 ^ 1024 := by
    intro n hn
    have hle : (n : ℚ) ≤ 2 ^ 53 := by exact_mod_cast hn
    rw [hround n hn, abs_of_nonneg (by positivity)]
    exact hle.trans_lt (pow_lt_pow_right₀ (by norm_num) (by decide))
  intro m hm n hn h
  unfold ofNat ofRat? at h
  rw [dif_pos (hfinite m hm), dif_pos (hfinite n hn)] at h
  have hval : round (m : ℚ) = round n := congrArg Subtype.val (Option.some.inj h)
  rw [hround m hm, hround n hn] at hval
  exact_mod_cast hval

end Order

/-! ### The shortest decimal -/

/-- A decimal with at most `k` digits that rounds to `y`, the nearer one first. -/
def candidate (y : ℚ) (k : ℕ) : Option (ℕ × ℤ) :=
  let last := Int.log 10 y + 1 - k
  let low := ⌊y / 10 ^ last⌋₊
  let near := if y / 10 ^ last - low ≤ 1 / 2 then [low, low + 1] else [low + 1, low]
  (near.find? fun digits : ℕ => decide (round ((digits : ℚ) * 10 ^ last) = y)).map fun digits =>
    if digits = 10 ^ k then (1, last + k) else (digits, last)

/-- All the digits of a multiple of the least place. -/
def exact (y : ℚ) : ℕ × ℤ := ((y * 10 ^ leastPlace).num.natAbs, -leastPlace)

/-- The fewest digits that round to `y`. Seventeen are always enough. -/
def shortest (y : ℚ) : ℕ × ℤ :=
  ((List.range 17).findSome? fun i => candidate y (i + 1)).getD (exact y)

theorem round_candidate {y : ℚ} {k : ℕ} {decimal : ℕ × ℤ} (h : candidate y k = some decimal) :
    round (decimal.1 * 10 ^ decimal.2) = y := by
  obtain ⟨digits, hfind, rfl⟩ := Option.map_eq_some_iff.mp h
  have htest := List.find?_some hfind
  have hround : round (digits * 10 ^ (Int.log 10 y + 1 - k)) = y := of_decide_eq_true htest
  split
  · next hpow =>
    refine Eq.trans (congrArg round ?_) hround
    rw [hpow, zpow_add₀ (by norm_num), zpow_natCast]
    push_cast
    ring
  · exact hround

theorem exact_value {y : ℚ} (hy : 0 ≤ y) (h : Representable y) :
    ((exact y).1 : ℚ) * 10 ^ (exact y).2 = y := by
  obtain ⟨m, e, -, he, hx⟩ := h
  obtain ⟨n, hn⟩ := Int.eq_ofNat_of_zero_le (by omega : 0 ≤ e + leastPlace)
  have hint : y * 10 ^ leastPlace = ((m * 2 ^ n * 5 ^ leastPlace : ℤ) : ℚ) := by
    have hpow : (2 : ℚ) ^ e * 2 ^ leastPlace = 2 ^ n := by
      rw [← zpow_natCast, ← zpow_natCast, ← zpow_add₀ (by norm_num), hn]
    have hten : (10 : ℚ) ^ leastPlace = 2 ^ leastPlace * 5 ^ leastPlace := by
      rw [← mul_pow]
      norm_num
    rw [hx, hten]
    push_cast
    rw [← hpow]
    ring
  have hnum : ((y * 10 ^ leastPlace).num : ℚ) = y * 10 ^ leastPlace := by rw [hint, Rat.num_intCast]
  have hnonneg : 0 ≤ (y * 10 ^ leastPlace).num := Rat.num_nonneg.mpr (by positivity)
  have hcast : (((y * 10 ^ leastPlace).num.natAbs : ℕ) : ℚ) = y * 10 ^ leastPlace := by
    rw [Nat.cast_natAbs, abs_of_nonneg hnonneg, hnum]
  rw [exact, hcast, mul_assoc, ← zpow_natCast, ← zpow_add₀ (by norm_num), add_neg_cancel, zpow_zero,
    mul_one]

theorem round_shortest {y : ℚ} (hy : 0 ≤ y) (h : Representable y) :
    round ((shortest y).1 * 10 ^ (shortest y).2) = y := by
  unfold shortest
  cases hfind : (List.range 17).findSome? fun i => candidate y (i + 1) with
  | some decimal =>
    obtain ⟨_, _, _, -, hcandidate, -⟩ := List.findSome?_eq_some_iff.mp hfind
    exact round_candidate hcandidate
  | none => rw [Option.getD_none, exact_value hy h, round_of_representable h]

theorem representable_abs {x : ℚ} (h : Representable x) : Representable |x| := by
  obtain ⟨m, e, hm, he, rfl⟩ := h
  have hpos : (0 : ℚ) < 2 ^ e := by positivity
  refine ⟨|m|, e, by rwa [abs_abs], he, ?_⟩
  rw [abs_mul, abs_of_pos hpos, Int.cast_abs]

/-- The digits of a number without its sign, and the place of the last of them. -/
def decimal (d : Double) : ℕ × ℤ := if d.val = 0 then (0, 0) else shortest |d.val|

theorem round_decimal (d : Double) :
    round ((decimal d).1 * 10 ^ (decimal d).2) = |d.val| := by
  unfold decimal
  split
  · next hzero =>
    rw [hzero, abs_zero, Nat.cast_zero, zero_mul, round, zero_div]
    exact mul_eq_zero_of_left (by exact_mod_cast roundHalfEven_intCast 0) _
  · exact round_shortest (abs_nonneg _) (representable_abs d.property.1)

/-- The decimal that stands for a number. -/
def decimalValue (d : Double) : ℚ :=
  if d.val < 0 then -((decimal d).1 * 10 ^ (decimal d).2) else (decimal d).1 * 10 ^ (decimal d).2

theorem ofRat?_decimalValue (d : Double) : ofRat? (decimalValue d) = some d := by
  have hround : round (decimalValue d) = d.val := by
    unfold decimalValue
    split
    · next hneg => rw [round_neg, round_decimal, abs_of_neg hneg, neg_neg]
    · next hpos => rw [round_decimal, abs_of_nonneg (not_lt.mp hpos)]
  rw [ofRat?, dif_pos (by rw [hround]; exact d.property.2)]
  exact congrArg some (Subtype.ext hround)

/-! ### The text of a number -/

open Nat (toDigits ofDigitChars)

/-- The text of a decimal by its digits and the number of them before the point. -/
def format (digits : List Char) (n : ℤ) : List Char :=
  if digits.length ≤ n ∧ n ≤ 21 then digits ++ List.replicate (n - digits.length).toNat '0'
  else if 0 < n ∧ n ≤ 21 then digits.take n.toNat ++ '.' :: digits.drop n.toNat
  else if -6 < n ∧ n ≤ 0 then '0' :: '.' :: (List.replicate (-n).toNat '0' ++ digits)
  else
    let power := 'e' :: (if 0 ≤ n - 1 then '+' else '-') :: toDigits 10 (n - 1).natAbs
    if digits.length = 1 then digits ++ power else digits.take 1 ++ '.' :: (digits.drop 1 ++ power)

/-- `Number.prototype.toString` -/
def text (d : Double) : List Char :=
  (if d.val < 0 then ['-'] else []) ++
    format (toDigits 10 (decimal d).1) ((toDigits 10 (decimal d).1).length + (decimal d).2)

/-- The power of ten at the end of a text. -/
def readPower : List Char → ℤ
  | 'e' :: '+' :: r => ofDigitChars 10 r 0
  | 'e' :: '-' :: r => -ofDigitChars 10 r 0
  | _ => 0

/-- The value that a text without a sign denotes. -/
def readUnsigned (cs : List Char) : ℚ :=
  match cs.dropWhile Char.isDigit with
  | '.' :: r => ofDigitChars 10 (cs.takeWhile Char.isDigit ++ r.takeWhile Char.isDigit) 0 *
      10 ^ (readPower (r.dropWhile Char.isDigit) - (r.takeWhile Char.isDigit).length)
  | r => ofDigitChars 10 (cs.takeWhile Char.isDigit) 0 * 10 ^ readPower r

/-- What follows the digits. -/
def Ends (r : List Char) : Prop := ∀ c ∈ r.head?, c.isDigit = false ∧ c ≠ '.'

section Read

variable {a b r : List Char} (ha : ∀ c ∈ a, c.isDigit = true)

include ha

theorem takeWhile_digits (hr : ∀ c ∈ r.head?, c.isDigit = false) :
    (a ++ r).takeWhile Char.isDigit = a := by
  rw [List.takeWhile_append_of_pos ha]
  cases r with
  | nil => simp
  | cons c r => simp [hr c rfl]

theorem dropWhile_digits (hr : ∀ c ∈ r.head?, c.isDigit = false) :
    (a ++ r).dropWhile Char.isDigit = r := by
  rw [List.dropWhile_append_of_pos ha]
  cases r with
  | nil => rfl
  | cons c r => rw [List.dropWhile_cons_of_neg (by simp [hr c rfl])]

theorem readUnsigned_whole (hr : Ends r) :
    readUnsigned (a ++ r) = ofDigitChars 10 a 0 * 10 ^ readPower r := by
  have hdigit : ∀ c ∈ r.head?, c.isDigit = false := fun c hc => (hr c hc).1
  rw [readUnsigned, dropWhile_digits ha hdigit, takeWhile_digits ha hdigit]
  split
  · exact absurd rfl (hr _ rfl).2
  · rfl

theorem readUnsigned_point (hb : ∀ c ∈ b, c.isDigit = true) (hr : Ends r) :
    readUnsigned (a ++ '.' :: (b ++ r)) =
      ofDigitChars 10 (a ++ b) 0 * 10 ^ (readPower r - b.length) := by
  have hdigit : ∀ c ∈ r.head?, c.isDigit = false := fun c hc => (hr c hc).1
  have hpoint : ∀ c ∈ ('.' :: (b ++ r)).head?, c.isDigit = false := by
    intro c hc
    obtain rfl := Option.some.inj hc
    decide
  rw [readUnsigned, dropWhile_digits ha hpoint, takeWhile_digits ha hpoint]
  simp only [takeWhile_digits hb hdigit, dropWhile_digits hb hdigit]

end Read

theorem ends_nil : Ends [] := fun c hc => by cases hc

theorem ends_power (sign : Char) (r : List Char) : Ends ('e' :: sign :: r) := by
  intro c hc
  obtain rfl := Option.some.inj hc
  decide

theorem readPower_digits (m : ℤ) :
    readPower ('e' :: (if 0 ≤ m then '+' else '-') :: toDigits 10 m.natAbs) = m := by
  split
  · change ((ofDigitChars 10 (toDigits 10 m.natAbs) 0 : ℕ) : ℤ) = m
    rw [Nat.ofDigitChars_ten_toDigits]
    omega
  · change -((ofDigitChars 10 (toDigits 10 m.natAbs) 0 : ℕ) : ℤ) = m
    rw [Nat.ofDigitChars_ten_toDigits]
    omega

/-- The digits with the point among them, before them or after them denote one number. -/
theorem readUnsigned_format {digits : List Char} (hd : ∀ c ∈ digits, c.isDigit = true)
    (hne : digits ≠ []) (n : ℤ) :
    readUnsigned (format digits n) = ofDigitChars 10 digits 0 * 10 ^ (n - digits.length) := by
  have hzeros : ∀ k, ∀ c ∈ List.replicate k '0', c.isDigit = true := by
    intro k c hc
    rw [List.eq_of_mem_replicate hc]
    decide
  unfold format
  split
  · next hn =>
    have happend : ∀ c ∈ digits ++ List.replicate (n - digits.length).toNat '0', c.isDigit = true := by
      intro c hc
      exact (List.mem_append.mp hc).elim (hd c) (hzeros _ c)
    have hread := readUnsigned_whole happend ends_nil
    rw [List.append_nil] at hread
    rw [hread, Nat.ofDigitChars_append, Nat.ofDigitChars_replicate_zero]
    have hpow : (10 : ℚ) ^ (n - digits.length) = 10 ^ (n - digits.length).toNat := by
      rw [← zpow_natCast]
      congr 1
      omega
    rw [hpow]
    simp [readPower]
    ring
  split
  · next hn =>
    have hread := readUnsigned_point (fun c hc => hd c (List.mem_of_mem_take hc))
      (fun c hc => hd c (List.mem_of_mem_drop hc)) ends_nil (a := digits.take n.toNat)
      (b := digits.drop n.toNat)
    rw [List.append_nil] at hread
    rw [hread, List.take_append_drop, List.length_drop]
    congr 2
    have hle : n.toNat ≤ digits.length := by omega
    rw [Nat.cast_sub hle]
    simp only [readPower]
    omega
  split
  · next hn =>
    have happend : ∀ c ∈ List.replicate (-n).toNat '0' ++ digits, c.isDigit = true := by
      intro c hc
      exact (List.mem_append.mp hc).elim (hzeros _ c) (hd c)
    have hread := readUnsigned_point (a := ['0']) (by simp) happend ends_nil
    rw [List.append_nil] at hread
    refine hread.trans ?_
    rw [← List.append_assoc, Nat.ofDigitChars_append, Nat.ofDigitChars_append,
      Nat.ofDigitChars_replicate_zero, List.length_append, List.length_replicate]
    congr 2
    push_cast
    simp only [readPower]
    omega
  · have hends := ends_power (if 0 ≤ n - 1 then '+' else '-') (toDigits 10 (n - 1).natAbs)
    dsimp only
    split
    · next hone =>
      rw [readUnsigned_whole hd hends, readPower_digits, hone, Nat.cast_one]
    · next hone =>
      rw [readUnsigned_point (fun c hc => hd c (List.mem_of_mem_take hc))
        (fun c hc => hd c (List.mem_of_mem_drop hc)) hends, readPower_digits, List.take_append_drop,
        List.length_drop]
      congr 2
      have hpos : 0 < digits.length := List.length_pos_of_ne_nil hne
      omega

theorem format_head {digits : List Char} (hd : ∀ c ∈ digits, c.isDigit = true) (hne : digits ≠ [])
    (n : ℤ) : ∃ c r, format digits n = c :: r ∧ c.isDigit = true := by
  obtain ⟨c, r, rfl⟩ := List.exists_cons_of_ne_nil hne
  have hc : c.isDigit = true := hd c List.mem_cons_self
  unfold format
  split
  · exact ⟨c, _, rfl, hc⟩
  split
  · next hn =>
    obtain ⟨k, hk⟩ : ∃ k, n.toNat = k + 1 := ⟨n.toNat - 1, by omega⟩
    rw [hk]
    exact ⟨c, _, rfl, hc⟩
  split
  · exact ⟨'0', _, rfl, by decide⟩
  dsimp only
  split
  · exact ⟨c, _, rfl, hc⟩
  · exact ⟨c, _, rfl, hc⟩

theorem format_chars {digits : List Char} (hd : ∀ c ∈ digits, c.isDigit = true) (n : ℤ) :
    ∀ c ∈ format digits n, JsonText.isNumberChar c = true := by
  have hdigit : ∀ c : Char, c.isDigit = true → JsonText.isNumberChar c = true := by
    intro c hc
    simp [JsonText.isNumberChar, hc]
  have hzeros : ∀ k, ∀ c ∈ List.replicate k '0', JsonText.isNumberChar c = true := by
    intro k c hc
    rw [List.eq_of_mem_replicate hc]
    decide
  have hpower : ∀ c ∈ 'e' :: (if 0 ≤ n - 1 then '+' else '-') :: toDigits 10 (n - 1).natAbs,
      JsonText.isNumberChar c = true := by
    intro c hc
    obtain rfl | hc := List.mem_cons.mp hc
    · decide
    obtain rfl | hc := List.mem_cons.mp hc
    · split <;> decide
    · exact hdigit c (Nat.isDigit_of_mem_toDigits (by decide) (by decide) hc)
  intro c hc
  unfold format at hc
  split at hc
  · exact (List.mem_append.mp hc).elim (fun h => hdigit c (hd c h)) (hzeros _ c)
  split at hc
  · obtain hc | hc := List.mem_append.mp hc
    · exact hdigit c (hd c (List.mem_of_mem_take hc))
    obtain rfl | hc := List.mem_cons.mp hc
    · decide
    · exact hdigit c (hd c (List.mem_of_mem_drop hc))
  split at hc
  · obtain rfl | hc := List.mem_cons.mp hc
    · decide
    obtain rfl | hc := List.mem_cons.mp hc
    · decide
    · exact (List.mem_append.mp hc).elim (hzeros _ c) fun h => hdigit c (hd c h)
  dsimp only at hc
  split at hc
  · exact (List.mem_append.mp hc).elim (fun h => hdigit c (hd c h)) (hpower c)
  · obtain hc | hc := List.mem_append.mp hc
    · exact hdigit c (hd c (List.mem_of_mem_take hc))
    obtain rfl | hc := List.mem_cons.mp hc
    · decide
    · exact (List.mem_append.mp hc).elim (fun h => hdigit c (hd c (List.mem_of_mem_drop h))) (hpower c)

theorem isDigit_toDigits (n : ℕ) : ∀ c ∈ toDigits 10 n, c.isDigit = true :=
  fun _ hc => Nat.isDigit_of_mem_toDigits (by decide) (by decide) hc

/-- The digits of a number can be read from its text. -/
theorem readUnsigned_decimal (d : Double) :
    readUnsigned (format (toDigits 10 (decimal d).1)
      ((toDigits 10 (decimal d).1).length + (decimal d).2)) = (decimal d).1 * 10 ^ (decimal d).2 := by
  rw [readUnsigned_format (isDigit_toDigits _) Nat.toDigits_ne_nil, Nat.ofDigitChars_ten_toDigits, add_sub_cancel_left]

theorem text_injective : Function.Injective text := by
  have habs : ∀ {d e : Double}, format (toDigits 10 (decimal d).1)
      ((toDigits 10 (decimal d).1).length + (decimal d).2) =
      format (toDigits 10 (decimal e).1) ((toDigits 10 (decimal e).1).length + (decimal e).2) →
      |d.val| = |e.val| := by
    intro d e h
    have hvalue := congrArg readUnsigned h
    rw [readUnsigned_decimal, readUnsigned_decimal] at hvalue
    rw [← round_decimal, ← round_decimal, hvalue]
  have hsign : ∀ (d : Double) (r : List Char), format (toDigits 10 (decimal d).1)
      ((toDigits 10 (decimal d).1).length + (decimal d).2) ≠ '-' :: r := by
    intro d r h
    obtain ⟨c, cs, hc, hdigit⟩ := format_head (isDigit_toDigits (decimal d).1) Nat.toDigits_ne_nil
      ((toDigits 10 (decimal d).1).length + (decimal d).2)
    rw [hc] at h
    rw [(List.cons.inj h).1] at hdigit
    cases hdigit
  intro d e h
  unfold text at h
  split at h
  · next hd =>
    split at h
    · next he =>
      have hval := habs (List.append_cancel_left h)
      rw [abs_of_neg hd, abs_of_neg he] at hval
      exact Subtype.ext (neg_inj.mp hval)
    · exact absurd h.symm (hsign e _)
  · next hd =>
    split at h
    · exact absurd h (hsign d _)
    · next he =>
      have hval := habs (List.append_cancel_left h)
      rw [abs_of_nonneg (not_lt.mp hd), abs_of_nonneg (not_lt.mp he)] at hval
      exact Subtype.ext hval

/-- How JSON writes a number. -/
def jsonFormat : JsonText.NumberFormat Double where
  text := text
  chars := by
    intro d c hc
    obtain hc | hc := List.mem_append.mp hc
    · split at hc
      · rw [List.mem_singleton.mp hc]
        decide
      · cases hc
    · exact format_chars (isDigit_toDigits _) _ c hc
  ne_nil := by
    intro d h
    obtain ⟨c, r, hc, -⟩ := format_head (isDigit_toDigits (decimal d).1) Nat.toDigits_ne_nil
      ((toDigits 10 (decimal d).1).length + (decimal d).2)
    rw [text, hc] at h
    exact absurd (List.append_eq_nil_iff.mp h).2 (by simp)
  injective := text_injective

/-! ### Reading a number -/

def digits? (cs : List Char) : Option ℕ :=
  if cs ≠ [] ∧ cs.all Char.isDigit = true then some (ofDigitChars 10 cs 0) else none

/-- The exponent at the end of a number. -/
def power? : List Char → Option ℤ
  | [] => some 0
  | c :: r =>
    if c = 'e' ∨ c = 'E' then
      match r with
      | '+' :: ds => (digits? ds).map fun n => (n : ℤ)
      | '-' :: ds => (digits? ds).map fun n => -(n : ℤ)
      | ds => (digits? ds).map fun n => (n : ℤ)
    else none

/-- The value of a number without a sign in the grammar of JSON, which has no leading zeros. -/
def unsigned? (cs : List Char) : Option ℚ :=
  let whole := cs.takeWhile Char.isDigit
  let (fraction, r) := match cs.dropWhile Char.isDigit with
    | '.' :: r => (some (r.takeWhile Char.isDigit), r.dropWhile Char.isDigit)
    | r => (none, r)
  if whole = [] ∨ (whole.head? = some '0' ∧ whole.length ≠ 1) ∨ fraction = some [] then none
  else (power? r).map fun power : ℤ =>
    (ofDigitChars 10 (whole ++ fraction.getD []) 0 : ℚ) * 10 ^ (power - (fraction.getD []).length)

/-- The value of a number in the grammar of JSON. -/
def json? (cs : List Char) : Option ℚ :=
  match cs with
  | '-' :: r => (unsigned? r).map fun x => -x
  | cs => unsigned? cs

theorem representable_of_nat {m : ℤ} {n : ℕ} (hm : |m| ≤ 2 ^ 53) : Representable (m * 2 ^ n) :=
  ⟨m, n, hm, by omega, by rw [zpow_natCast]⟩

theorem largest_lt : |((2 ^ 53 - 1 : ℤ) : ℚ) * 2 ^ 971| < 2 ^ 1024 := by
  have hpos : (0 : ℚ) < 2 ^ 971 := by positivity
  have hbound : (2 : ℚ) ^ 1024 = 2 ^ 53 * 2 ^ 971 := by rw [← pow_add]
  rw [hbound, abs_mul, abs_of_pos hpos]
  refine mul_lt_mul_of_pos_right ?_ hpos
  norm_num [abs_of_pos]

def largest : Double := ⟨(2 ^ 53 - 1 : ℤ) * 2 ^ 971, representable_of_nat (by decide), largest_lt⟩

/-- The number that JSON reads of a text. The largest stands for one that the language makes infinite. -/
def ofJson? (cs : List Char) : Option Double := (json? cs).map fun x => (ofRat? x).getD largest

def one : Double := ⟨1, ⟨1, 0, by decide, by decide, by norm_num⟩, by rw [abs_one]; exact one_lt_pow₀ (by norm_num) (by decide)⟩

theorem ofJson?_one : ofJson? (text one) = some one := by
  have htext : text one = ['1'] := by decide +kernel
  have hread : json? ['1'] = some (decimalValue one) := by decide +kernel
  rw [ofJson?, htext, hread, Option.map_some, ofRat?_decimalValue]
  rfl

end Double
