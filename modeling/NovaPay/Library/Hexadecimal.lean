import Mathlib.Data.List.Basic
import Mathlib.Tactic.IntervalCases
import Mathlib.Tactic.Ring

/-!
# Hexadecimal texts of a fixed shape

A number as a fixed count of hexadecimal digits, read back whatever their letter case; and texts that
have a character of a given class at every place.
-/

namespace Hexadecimal

/-! ### Numbers -/

/-- The last `n` digits of a number. -/
def digits : ℕ → ℕ → List Char
  | 0, _ => []
  | n + 1, m => digits n (m / 16) ++ [(m % 16).digitChar]

@[simp] theorem length_digits (n m : ℕ) : (digits n m).length = n := by
  induction n generalizing m with
  | zero => rfl
  | succ n ih => rw [digits, List.length_append, ih, List.length_singleton]

theorem digits_add (a b m : ℕ) : digits (a + b) m = digits a (m / 16 ^ b) ++ digits b m := by
  induction b generalizing m with
  | zero => simp [digits]
  | succ b ih =>
    rw [← Nat.add_assoc, digits, digits, ih, Nat.div_div_eq_div_mul, Nat.pow_succ, Nat.mul_comm 16,
      List.append_assoc]

/-- Zeros before a number's digits make them as many as they should be. -/
theorem leftpad_toDigits {n m : ℕ} (h : m < 16 ^ (n + 1)) :
    (Nat.toDigits 16 m).leftpad (n + 1) '0' = digits (n + 1) m := by
  induction n generalizing m with
  | zero =>
    have hm : m < 16 := by simpa using h
    rw [Nat.toDigits_of_lt_base hm, digits, digits, Nat.mod_eq_of_lt hm]
    rfl
  | succ n ih =>
    have hdiv : m / 16 < 16 ^ (n + 1) := by
      rw [Nat.pow_succ] at h
      exact Nat.div_lt_of_lt_mul (by rwa [Nat.mul_comm] at h)
    by_cases hm : m < 16
    · have hzero := ih (m := 0) (by positivity)
      rw [Nat.toDigits_zero] at hzero
      rw [Nat.toDigits_of_lt_base hm, digits, Nat.div_eq_of_lt hm, ← hzero, Nat.mod_eq_of_lt hm]
      simp [List.leftpad, List.replicate_succ']
    · have hlast : Nat.toDigits 16 m = Nat.toDigits 16 (m / 16) ++ [(m % 16).digitChar] :=
        Nat.toDigits_of_base_le (by decide) (Nat.le_of_not_gt hm)
      rw [digits, ← ih hdiv, hlast, List.leftpad, List.leftpad, List.length_append, List.length_singleton,
        Nat.add_sub_add_right, List.append_assoc]

/-- The value of a digit of either letter case. -/
def digitValue (c : Char) : ℕ :=
  if c.toNat < 58 then c.toNat - 48 else if c.toNat < 71 then c.toNat - 55 else c.toNat - 87

theorem digitValue_digitChar {d : ℕ} (h : d < 16) : digitValue d.digitChar = d := by
  interval_cases d <;> rfl

/-- The number that digits spell. -/
def value (cs : List Char) : ℕ := cs.foldl (fun n c => n * 16 + digitValue c) 0

theorem value_digits {n m : ℕ} (h : m < 16 ^ n) : value (digits n m) = m := by
  induction n generalizing m with
  | zero =>
    rw [Nat.pow_zero, Nat.lt_one_iff] at h
    rw [h]
    rfl
  | succ n ih =>
    have hdiv : m / 16 < 16 ^ n := Nat.div_lt_of_lt_mul (by rwa [Nat.pow_succ, Nat.mul_comm] at h)
    have hvalue := ih hdiv
    rw [value] at hvalue
    rw [digits, value, List.foldl_append, hvalue, List.foldl_cons, List.foldl_nil,
      digitValue_digitChar (Nat.mod_lt _ (by decide))]
    omega

/-- The digits of any number, also of one that has more than it is padded to. -/
theorem exists_leftpad_eq_digits (k m : ℕ) :
    ∃ n, m < 16 ^ n ∧ (Nat.toDigits 16 m).leftpad k '0' = digits n m := by
  have hpos : 0 < (Nat.toDigits 16 m).length := List.length_pos_iff.mpr Nat.toDigits_ne_nil
  obtain ⟨n, hn⟩ : ∃ n, max k (Nat.toDigits 16 m).length = n + 1 :=
    Nat.exists_eq_succ_of_ne_zero (by omega)
  have hlt : m < 16 ^ (n + 1) :=
    (Nat.length_toDigits_le_iff (by decide) (by omega)).mp (by omega)
  refine ⟨n + 1, hlt, ?_⟩
  rw [← leftpad_toDigits hlt, List.leftpad, List.leftpad, ← hn]
  congr 2
  omega

/-! ### Classes of characters -/

/-- The characters of a class are those of a text. -/
def oneOf (s : String) (c : Char) : Bool := decide (c ∈ s.toList)

def isDigit : Char → Bool := oneOf "0123456789abcdefABCDEF"

theorem isDigit_of_mem_digits {n m : ℕ} {c : Char} (h : c ∈ digits n m) : isDigit c = true := by
  induction n generalizing m with
  | zero => cases h
  | succ n ih =>
    rw [digits, List.mem_append, List.mem_singleton] at h
    obtain h | rfl := h
    · exact ih h
    · have hlt : m % 16 < 16 := Nat.mod_lt _ (by decide)
      interval_cases m % 16 <;> decide

/-- The text has a character of every class, one after another. -/
def ofClasses : List (Char → Bool) → List Char → Bool
  | [], cs => cs.isEmpty
  | _ :: _, [] => false
  | p :: ps, c :: cs => p c && ofClasses ps cs

theorem ofClasses_append {ps qs : List (Char → Bool)} {cs ds : List Char}
    (h : ofClasses ps cs = true) (h' : ofClasses qs ds = true) : ofClasses (ps ++ qs) (cs ++ ds) = true := by
  induction ps generalizing cs with
  | nil =>
    rw [ofClasses, List.isEmpty_iff] at h
    rw [h]
    exact h'
  | cons p ps ih =>
    cases cs with
    | nil => cases h
    | cons c cs =>
      rw [ofClasses, Bool.and_eq_true] at h
      rw [List.cons_append, List.cons_append, ofClasses, h.1, ih h.2]
      rfl

theorem ofClasses_replicate {p : Char → Bool} {cs : List Char} (h : ∀ c ∈ cs, p c = true) :
    ofClasses (List.replicate cs.length p) cs = true := by
  induction cs with
  | nil => rfl
  | cons c cs ih =>
    rw [List.length_cons, List.replicate_succ, ofClasses, h c List.mem_cons_self,
      ih fun d hd => h d (List.mem_cons_of_mem _ hd)]
    rfl

theorem ofClasses_digits (n m : ℕ) : ofClasses (List.replicate n isDigit) (digits n m) = true := by
  have hdigits : ∀ c ∈ digits n m, isDigit c = true := fun c hc => isDigit_of_mem_digits hc
  have h := ofClasses_replicate hdigits
  rwa [length_digits] at h

theorem length_of_ofClasses {ps : List (Char → Bool)} {cs : List Char} (h : ofClasses ps cs = true) :
    cs.length = ps.length := by
  induction ps generalizing cs with
  | nil =>
    rw [ofClasses, List.isEmpty_iff] at h
    rw [h]
    rfl
  | cons p ps ih =>
    cases cs with
    | nil => cases h
    | cons c cs =>
      rw [ofClasses, Bool.and_eq_true] at h
      rw [List.length_cons, List.length_cons, ih h.2]

theorem exists_class_of_mem {ps : List (Char → Bool)} {cs : List Char} (h : ofClasses ps cs = true) :
    ∀ c ∈ cs, ∃ p ∈ ps, p c = true := by
  induction ps generalizing cs with
  | nil =>
    rw [ofClasses, List.isEmpty_iff] at h
    simp [h]
  | cons p ps ih =>
    cases cs with
    | nil => cases h
    | cons d cs =>
      rw [ofClasses, Bool.and_eq_true] at h
      intro c hc
      obtain rfl | hc := List.mem_cons.mp hc
      · exact ⟨p, List.mem_cons_self, h.1⟩
      · obtain ⟨q, hq, hclass⟩ := ih h.2 c hc
        exact ⟨q, List.mem_cons_of_mem _ hq, hclass⟩

/-! ### Letter case -/

/-- The text with the letters in upper case at which the binary digits of a number are set. -/
def spell : ℕ → List Char → List Char
  | _, [] => []
  | mask, c :: cs => (if mask % 2 = 1 then c.toUpper else c) :: spell (mask / 2) cs

theorem ofClasses_spell {ps : List (Char → Bool)} {cs : List Char}
    (hupper : ∀ p ∈ ps, ∀ c, p c = true → p c.toUpper = true) (h : ofClasses ps cs = true) (mask : ℕ) :
    ofClasses ps (spell mask cs) = true := by
  induction ps generalizing cs mask with
  | nil =>
    rw [ofClasses, List.isEmpty_iff] at h
    rw [h]
    rfl
  | cons p ps ih =>
    cases cs with
    | nil => cases h
    | cons c cs =>
      rw [ofClasses, Bool.and_eq_true] at h
      have hp : p (if mask % 2 = 1 then c.toUpper else c) = true := by
        split
        · exact hupper p List.mem_cons_self c h.1
        · exact h.1
      rw [spell, ofClasses, hp, ih (fun q hq => hupper q (List.mem_cons_of_mem _ hq)) h.2]
      rfl

theorem oneOf_toUpper {s : String} (h : ∀ c ∈ s.toList, c.toUpper ∈ s.toList) (c : Char)
    (hc : oneOf s c = true) : oneOf s c.toUpper = true := by
  rw [oneOf, decide_eq_true_eq] at hc ⊢
  exact h c hc

end Hexadecimal
