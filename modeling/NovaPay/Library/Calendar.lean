import Mathlib.Algebra.Group.Nat.Defs
import Mathlib.Data.Nat.Find
import Mathlib.Data.List.Basic

/-!
# Dates and their text

The Gregorian calendar from a number of milliseconds since 1970, and the text of a date in the format of
ISO 8601. A text is that of one date only: from its fields the milliseconds can be computed back.
-/

namespace Calendar

open Nat (toDigits ofDigitChars)

/-- The days of a cycle of 400 years before one of its years; the first year is a leap year. -/
def yearStart (y : ℕ) : ℕ := 365 * y + (y + 3) / 4 - (y + 99) / 100 + (y + 399) / 400

def isLeap (y : ℕ) : Bool := decide (y % 4 = 0) && (decide (y % 100 ≠ 0) || decide (y % 400 = 0))

/-- The days of a year before one of its months. -/
def monthStart (leap : Bool) (month : ℕ) : ℕ :=
  [0, 31, 59, 90, 120, 151, 181, 212, 243, 273, 304, 334].getD month 0 +
    if leap ∧ 2 ≤ month then 1 else 0

/-- The fields of a date, with months and days counted from zero. -/
structure Fields where
  year : ℤ
  month : ℕ
  day : ℕ
  hour : ℕ
  minute : ℕ
  second : ℕ
  millisecond : ℕ
deriving DecidableEq, Repr

/-- The days from the first of January of the year 0 to that of 1970. -/
def epoch : ℤ := 719528

/-- The fields of a date. -/
def fields (ms : ℤ) : Fields :=
  let days := ms / 86400000 + epoch
  let inCycle := (days % 146097).toNat
  let year := Nat.findGreatest (fun y => yearStart y ≤ inCycle) 399
  let inYear := inCycle - yearStart year
  let month := Nat.findGreatest (fun m => monthStart (isLeap year) m ≤ inYear) 11
  let rest := (ms % 86400000).toNat
  { year := 400 * (days / 146097) + year
    month := month
    day := inYear - monthStart (isLeap year) month
    hour := rest / 3600000
    minute := rest / 60000 % 60
    second := rest / 1000 % 60
    millisecond := rest % 1000 }

/-- The milliseconds of a date by its fields. -/
def Fields.toMs (f : Fields) : ℤ :=
  let year := (f.year % 400).toNat
  let days := 146097 * (f.year / 400) + yearStart year + monthStart (isLeap year) f.month + f.day - epoch
  days * 86400000 + (f.hour * 3600000 + f.minute * 60000 + f.second * 1000 + f.millisecond : ℕ)

theorem toMs_fields (ms : ℤ) : (fields ms).toMs = ms := by
  have hyear : Nat.findGreatest (fun y => yearStart y ≤ ((ms / 86400000 + epoch) % 146097).toNat) 399 ≤ 399 :=
    Nat.findGreatest_le 399
  have hstart : yearStart (Nat.findGreatest
      (fun y => yearStart y ≤ ((ms / 86400000 + epoch) % 146097).toNat) 399) ≤
      ((ms / 86400000 + epoch) % 146097).toNat :=
    Nat.findGreatest_spec (P := fun y => yearStart y ≤ ((ms / 86400000 + epoch) % 146097).toNat)
      (Nat.zero_le 399) (Nat.zero_le _)
  simp only [fields, Fields.toMs]
  generalize Nat.findGreatest (fun y => yearStart y ≤ ((ms / 86400000 + epoch) % 146097).toNat) 399 = y
    at hyear hstart
  have hquot : (400 * ((ms / 86400000 + epoch) / 146097) + (y : ℤ)) / 400 =
      (ms / 86400000 + epoch) / 146097 := by omega
  have hrem : ((400 * ((ms / 86400000 + epoch) / 146097) + (y : ℤ)) % 400).toNat = y := by omega
  rw [hquot, hrem]
  have hmonth : monthStart (isLeap y) (Nat.findGreatest (fun m => monthStart (isLeap y) m ≤
      ((ms / 86400000 + epoch) % 146097).toNat - yearStart y) 11) ≤
      ((ms / 86400000 + epoch) % 146097).toNat - yearStart y := by
    refine Nat.findGreatest_spec (P := fun m => monthStart (isLeap y) m ≤
      ((ms / 86400000 + epoch) % 146097).toNat - yearStart y) (Nat.zero_le 11) ?_
    simp [monthStart]
  generalize Nat.findGreatest (fun m => monthStart (isLeap y) m ≤
      ((ms / 86400000 + epoch) % 146097).toNat - yearStart y) 11 = m at hmonth
  generalize monthStart (isLeap y) m = a at hmonth
  generalize yearStart y = b at hstart hmonth
  omega

/-! ### The text -/

/-- A number with zeros before it up to a width. -/
def pad (width n : ℕ) : List Char := (toDigits 10 n).leftpad width '0'

theorem pad_digits (width n : ℕ) : ∀ c ∈ pad width n, c.isDigit = true := by
  intro c hc
  rw [pad, List.leftpad] at hc
  obtain hc | hc := List.mem_append.mp hc
  · rw [List.eq_of_mem_replicate hc]
    decide
  · exact Nat.isDigit_of_mem_toDigits (by decide) (by decide) hc

theorem ofDigitChars_pad (width n : ℕ) : ofDigitChars 10 (pad width n) 0 = n := by
  rw [pad, List.leftpad, Nat.ofDigitChars_append, Nat.ofDigitChars_replicate_zero, Nat.mul_zero,
    Nat.ofDigitChars_ten_toDigits]

theorem digits_append_inj {a b : List Char} {c : Char} {r s : List Char}
    (ha : ∀ d ∈ a, d.isDigit = true) (hb : ∀ d ∈ b, d.isDigit = true) (hc : c.isDigit = false)
    (h : a ++ c :: r = b ++ c :: s) : a = b ∧ r = s := by
  have htake : ∀ {a r : List Char}, (∀ d ∈ a, d.isDigit = true) →
      (a ++ c :: r).takeWhile Char.isDigit = a := by
    intro a r ha
    rw [List.takeWhile_append_of_pos ha]
    simp [hc]
  have hab : a = b := by rw [← htake (r := r) ha, h, htake hb]
  subst hab
  exact ⟨rfl, (List.cons.inj (List.append_cancel_left h)).2⟩

theorem pad_append_inj {width n m : ℕ} {c : Char} {r s : List Char} (hc : c.isDigit = false)
    (h : pad width n ++ c :: r = pad width m ++ c :: s) : n = m ∧ r = s := by
  obtain ⟨hpad, hrest⟩ := digits_append_inj (pad_digits width n) (pad_digits width m) hc h
  refine ⟨?_, hrest⟩
  rw [← ofDigitChars_pad width n, hpad, ofDigitChars_pad]

def sign (year : ℤ) : Char := if 0 ≤ year then '+' else '-'

theorem sign_not_digit (year : ℤ) : (sign year).isDigit = false := by
  unfold sign
  split <;> decide

theorem sign_inj {y z : ℤ} (h : sign y = sign z) : 0 ≤ y ↔ 0 ≤ z := by
  unfold sign at h
  split at h <;> split at h
  all_goals first | omega | cases h

/-- A year of four digits, or a sign and six. -/
def yearText (year : ℤ) : List Char :=
  if 0 ≤ year ∧ year ≤ 9999 then pad 4 year.natAbs else sign year :: pad 6 year.natAbs

theorem yearText_append_inj {y z : ℤ} {r s : List Char}
    (h : yearText y ++ '-' :: r = yearText z ++ '-' :: s) : y = z ∧ r = s := by
  have hsign : ∀ (n : ℕ) (y : ℤ) (t u : List Char), pad 4 n ++ '-' :: t ≠ sign y :: u := by
    intro n y t u heq
    cases hpad : pad 4 n with
    | nil =>
      have hlen := congrArg List.length hpad
      rw [pad, List.length_leftpad, List.length_nil] at hlen
      omega
    | cons d ds =>
      rw [hpad] at heq
      have hd : d.isDigit = true := pad_digits 4 n d (by rw [hpad]; exact List.mem_cons_self)
      rw [(List.cons.inj heq).1, sign_not_digit] at hd
      cases hd
  unfold yearText at h
  split at h
  · split at h
    · obtain ⟨hn, hr⟩ := pad_append_inj (by decide) h
      exact ⟨by omega, hr⟩
    · exact absurd h (hsign _ z _ _)
  · split at h
    · exact absurd h.symm (hsign _ y _ _)
    · obtain ⟨hs, htail⟩ := List.cons.inj h
      obtain ⟨hn, hr⟩ := pad_append_inj (by decide) htail
      have hsame := sign_inj hs
      exact ⟨by omega, hr⟩

/-- The text of the fields. -/
def Fields.text (f : Fields) : List Char :=
  yearText f.year ++ '-' :: (pad 2 (f.month + 1) ++ '-' :: (pad 2 (f.day + 1) ++ 'T' ::
    (pad 2 f.hour ++ ':' :: (pad 2 f.minute ++ ':' :: (pad 2 f.second ++ '.' ::
      (pad 3 f.millisecond ++ ['Z']))))))

/-- `Date.prototype.toISOString` -/
def toISOString (ms : ℤ) : List Char := (fields ms).text

theorem Fields.text_injective : Function.Injective Fields.text := by
  intro f g h
  obtain ⟨hyear, h⟩ := yearText_append_inj h
  obtain ⟨hmonth, h⟩ := pad_append_inj (by decide) h
  obtain ⟨hday, h⟩ := pad_append_inj (by decide) h
  obtain ⟨hhour, h⟩ := pad_append_inj (by decide) h
  obtain ⟨hminute, h⟩ := pad_append_inj (by decide) h
  obtain ⟨hsecond, h⟩ := pad_append_inj (by decide) h
  obtain ⟨hms, -⟩ := pad_append_inj (by decide) h
  cases f
  cases g
  simp only at hyear hmonth hday hhour hminute hsecond hms
  simp only [Fields.mk.injEq]
  omega

theorem toISOString_injective : Function.Injective toISOString := by
  intro a b h
  rw [← toMs_fields a, Fields.text_injective h, toMs_fields]

/-! ### Reading the text -/

/-- A number, and what stands after the character that follows it. -/
def takeNumber (cs : List Char) : ℕ × List Char :=
  (ofDigitChars 10 (cs.takeWhile Char.isDigit) 0, (cs.dropWhile Char.isDigit).tail)

theorem takeNumber_pad {width n : ℕ} {c : Char} {r : List Char} (hc : c.isDigit = false) :
    takeNumber (pad width n ++ c :: r) = (n, r) := by
  rw [takeNumber, List.takeWhile_append_of_pos (pad_digits width n),
    List.dropWhile_append_of_pos (pad_digits width n), List.takeWhile_cons_of_neg (by simp [hc]),
    List.dropWhile_cons_of_neg (by simp [hc]), List.append_nil, ofDigitChars_pad, List.tail_cons]

def readYear (cs : List Char) : ℤ × List Char :=
  match cs with
  | '-' :: r => (-((takeNumber r).1 : ℤ), (takeNumber r).2)
  | '+' :: r => ((takeNumber r).1, (takeNumber r).2)
  | cs => ((takeNumber cs).1, (takeNumber cs).2)

/-- The fields of a text in the format of `toISOString`. -/
def readFields (cs : List Char) : Fields :=
  let (year, cs) := readYear cs
  let (month, cs) := takeNumber cs
  let (day, cs) := takeNumber cs
  let (hour, cs) := takeNumber cs
  let (minute, cs) := takeNumber cs
  let (second, cs) := takeNumber cs
  let (millisecond, _) := takeNumber cs
  ⟨year, month - 1, day - 1, hour, minute, second, millisecond⟩

theorem readYear_yearText (year : ℤ) (r : List Char) :
    readYear (yearText year ++ '-' :: r) = (year, r) := by
  unfold yearText
  split
  · next h =>
    have hread : takeNumber (pad 4 year.natAbs ++ '-' :: r) = (year.natAbs, r) := takeNumber_pad (by decide)
    cases hpad : pad 4 year.natAbs with
    | nil =>
      have hlen := congrArg List.length hpad
      rw [pad, List.length_leftpad, List.length_nil] at hlen
      omega
    | cons d ds =>
      have hd : d.isDigit = true := pad_digits 4 year.natAbs d (by rw [hpad]; exact List.mem_cons_self)
      rw [← hpad, readYear]
      · rw [hread]
        exact Prod.ext (by omega) rfl
      · rintro s heq
        rw [hpad] at heq
        rw [(List.cons.inj heq).1] at hd
        cases hd
      · rintro s heq
        rw [hpad] at heq
        rw [(List.cons.inj heq).1] at hd
        cases hd
  · next h =>
    have hread : takeNumber (pad 6 year.natAbs ++ '-' :: r) = (year.natAbs, r) := takeNumber_pad (by decide)
    unfold sign
    split
    · rw [List.cons_append, readYear, hread]
      exact Prod.ext (by omega) rfl
    · rw [List.cons_append, readYear, hread]
      exact Prod.ext (by omega) rfl

theorem readFields_text (f : Fields) : readFields f.text = f := by
  have hread : ∀ {width n : ℕ} {c : Char} {r : List Char}, c.isDigit = false →
      takeNumber (pad width n ++ c :: r) = (n, r) := takeNumber_pad
  simp only [readFields, Fields.text, readYear_yearText, hread (show '-'.isDigit = false by decide),
    hread (show 'T'.isDigit = false by decide), hread (show ':'.isDigit = false by decide),
    hread (show '.'.isDigit = false by decide), hread (show 'Z'.isDigit = false by decide),
    Nat.add_sub_cancel]

/-- The time whose text this is. -/
def ofISOString? (cs : List Char) : Option ℤ :=
  if toISOString (readFields cs).toMs = cs then some (readFields cs).toMs else none

theorem ofISOString?_eq_some_iff {cs : List Char} {ms : ℤ} :
    ofISOString? cs = some ms ↔ toISOString ms = cs := by
  unfold ofISOString?
  constructor
  · intro h
    split at h
    · next heq =>
      obtain rfl := Option.some.inj h
      exact heq
    · cases h
  · rintro rfl
    have hms : (readFields (toISOString ms)).toMs = ms := by
      rw [toISOString, readFields_text, toMs_fields]
    rw [hms, if_pos rfl]

example : String.ofList (toISOString 1788084000000) = "2026-08-30T10:00:00.000Z" := by decide +kernel

/-! ### The shape of the text -/

theorem length_pad_le (width : ℕ) {k n : ℕ} (hk : 0 < k) (hn : n < 10 ^ k) : (pad width n).length ≤ max width k := by
  have hdigits := (Nat.length_toDigits_le_iff (by decide) hk).mpr hn
  rw [pad, List.length_leftpad]
  omega

theorem natAbs_year_lt {ms : ℤ} (h : ms.natAbs ≤ 8640000000000000) : (fields ms).year.natAbs < 10 ^ 6 := by
  have hyear := Nat.findGreatest_le (P := fun y => yearStart y ≤ ((ms / 86400000 + epoch) % 146097).toNat) 399
  have hdays : epoch = 719528 := rfl
  change (400 * ((ms / 86400000 + epoch) / 146097) + (Nat.findGreatest _ 399 : ℕ) : ℤ).natAbs < _
  generalize Nat.findGreatest (fun y => yearStart y ≤ ((ms / 86400000 + epoch) % 146097).toNat) 399 = y at hyear ⊢
  omega

/-- The text of a time that the language can represent is short. -/
theorem length_toISOString_le {ms : ℤ} (h : ms.natAbs ≤ 8640000000000000) : (toISOString ms).length ≤ 31 := by
  have hyear : (yearText (fields ms).year).length ≤ 7 := by
    have hlt := natAbs_year_lt h
    unfold yearText
    split
    · exact Nat.le_succ_of_le (length_pad_le _ (by decide) hlt)
    · rw [List.length_cons]
      exact Nat.succ_le_succ (length_pad_le _ (by decide) hlt)
  have hmonth : (fields ms).month < 12 := by
    dsimp only [fields]
    exact Nat.lt_succ_of_le (Nat.findGreatest_le 11)
  have hday : (fields ms).day < 146097 := by
    have hcycle : ((ms / 86400000 + epoch) % 146097).toNat < 146097 := by omega
    dsimp only [fields]
    exact lt_of_le_of_lt (le_trans (Nat.sub_le _ _) (Nat.sub_le _ _)) hcycle
  have hhour : (fields ms).hour < 24 := by
    change (ms % 86400000).toNat / 3600000 < 24
    omega
  have hminute : (fields ms).minute < 60 := Nat.mod_lt _ (by decide)
  have hsecond : (fields ms).second < 60 := Nat.mod_lt _ (by decide)
  have hmillisecond : (fields ms).millisecond < 1000 := Nat.mod_lt _ (by decide)
  have hmonth' := length_pad_le 2 (k := 2) (n := (fields ms).month + 1) (by decide) (by omega)
  have hday' := length_pad_le 2 (k := 6) (n := (fields ms).day + 1) (by decide) (by omega)
  have hhour' := length_pad_le 2 (k := 2) (n := (fields ms).hour) (by decide) (by omega)
  have hminute' := length_pad_le 2 (k := 2) (n := (fields ms).minute) (by decide) (by omega)
  have hsecond' := length_pad_le 2 (k := 2) (n := (fields ms).second) (by decide) (by omega)
  have hms' := length_pad_le 3 (k := 3) (n := (fields ms).millisecond) (by decide) (by omega)
  simp only [toISOString, Fields.text, List.length_append, List.length_cons, List.length_nil]
  omega

/-- The characters of a date. -/
def isDateChar (c : Char) : Bool := c.isDigit || decide (c ∈ ['-', '+', 'T', ':', '.', 'Z'])

theorem toISOString_chars (ms : ℤ) : ∀ c ∈ toISOString ms, isDateChar c = true := by
  have hpad : ∀ width n, ∀ c ∈ pad width n, isDateChar c = true := by
    intro width n c hc
    rw [isDateChar, pad_digits width n c hc]
    rfl
  have hyear : ∀ year, ∀ c ∈ yearText year, isDateChar c = true := by
    intro year c hc
    unfold yearText at hc
    split at hc
    · exact hpad _ _ c hc
    · obtain rfl | hc := List.mem_cons.mp hc
      · unfold sign
        split <;> decide
      · exact hpad _ _ c hc
  intro c hc
  simp only [toISOString, Fields.text, List.mem_append, List.mem_cons, List.not_mem_nil, or_false] at hc
  obtain hc | rfl | hc | rfl | hc | rfl | hc | rfl | hc | rfl | hc | rfl | hc | rfl := hc
  all_goals first | exact hyear _ c hc | exact hpad _ _ c hc | decide

end Calendar
