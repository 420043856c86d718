import Mathlib.Data.List.Basic
import Mathlib.Tactic.IntervalCases

/-!
# JSON values and their text

The text `JSON.stringify` writes of a value, with the members of an object in the order they are listed.
Two values with one text are one value: every text shows by its first character what it is of, and by
itself where it ends.
-/

namespace JsonText

/-- A JSON value over a type of numbers. The members of an object are listed in their order. -/
inductive Value (ν : Type*)
  | null
  | bool (b : Bool)
  | number (n : ν)
  | string (s : String)
  | array (elements : List (Value ν))
  | object (members : List (String × Value ν))

/-- The characters that the text of a number may have. -/
def isNumberChar (c : Char) : Bool :=
  c.isDigit || decide (c = '-') || decide (c = '+') || decide (c = '.') || decide (c = 'e')

/-- The texts of the numbers of a type. -/
structure NumberFormat (ν : Type*) where
  text : ν → List Char
  chars : ∀ n, ∀ c ∈ text n, isNumberChar c = true
  ne_nil : ∀ n, text n ≠ []
  injective : Function.Injective text

/-! ### Strings -/

def hexDigit (n : ℕ) : Char := n.digitChar

/-- The escape of a control character after its backslash. -/
def controlEscape : ℕ → List Char
  | 8 => ['b']
  | 9 => ['t']
  | 10 => ['n']
  | 12 => ['f']
  | 13 => ['r']
  | n => ['u', '0', '0', hexDigit (n / 16), hexDigit (n % 16)]

def escapeChar (c : Char) : List Char :=
  if c = '"' then ['\\', '"']
  else if c = '\\' then ['\\', '\\']
  else if c.toNat < 32 then '\\' :: controlEscape c.toNat
  else [c]

def escape : List Char → List Char
  | [] => []
  | c :: cs => escapeChar c ++ escape cs

def quote (s : String) : List Char := '"' :: (escape s.toList ++ ['"'])

/-- A control character by what stands after its backslash. -/
def controlOf : List Char → Option (Char × List Char)
  | 'b' :: r => some (Char.ofNat 8, r)
  | 't' :: r => some (Char.ofNat 9, r)
  | 'n' :: r => some (Char.ofNat 10, r)
  | 'f' :: r => some (Char.ofNat 12, r)
  | 'r' :: r => some (Char.ofNat 13, r)
  | 'u' :: '0' :: '0' :: a :: b :: r =>
    some (Char.ofNat
      (16 * (a.toNat - 48) + if b.toNat < 58 then b.toNat - 48 else b.toNat - 87), r)
  | _ => none

/-- The first character of a string by its escape. -/
def unescapeChar : List Char → Option (Char × List Char)
  | '\\' :: '"' :: r => some ('"', r)
  | '\\' :: '\\' :: r => some ('\\', r)
  | '\\' :: r => controlOf r
  | c :: r => some (c, r)
  | [] => none

theorem unescapeChar_escapeChar (c : Char) (r : List Char) :
    unescapeChar (escapeChar c ++ r) = some (c, r) := by
  unfold escapeChar
  split
  · next hc => rw [hc]; rfl
  split
  · next hc => rw [hc]; rfl
  split
  · next hc =>
    obtain ⟨n, hn⟩ : ∃ n, c.toNat = n := ⟨_, rfl⟩
    rw [← Char.ofNat_toNat c, hn] at hc ⊢
    rw [show (Char.ofNat n).toNat = n by rw [← hn, Char.ofNat_toNat]] at hc ⊢
    interval_cases n <;> rfl
  · next hslash _ =>
    change unescapeChar (c :: r) = some (c, r)
    unfold unescapeChar
    split
    all_goals simp_all

theorem escapeChar_append_inj {c d : Char} {r s : List Char}
    (h : escapeChar c ++ r = escapeChar d ++ s) : c = d ∧ r = s := by
  have hd := unescapeChar_escapeChar c r
  rw [h, unescapeChar_escapeChar d s] at hd
  obtain ⟨hchar, hrest⟩ := Prod.mk.inj (Option.some.inj hd)
  exact ⟨hchar.symm, hrest.symm⟩

/-- No escape starts with a quote, so a quote ends the string. -/
theorem escapeChar_ne_quote (c : Char) (r s : List Char) : escapeChar c ++ r ≠ '"' :: s := by
  intro h
  unfold escapeChar at h
  split at h
  · simp at h
  split at h
  · simp at h
  split at h
  · simp at h
  · next hquote _ _ => exact hquote (List.cons.inj h).1

theorem escape_append_inj : ∀ {s t : List Char} {r r' : List Char},
    escape s ++ '"' :: r = escape t ++ '"' :: r' → s = t ∧ r = r'
  | [], [], r, r', h => ⟨rfl, (List.cons.inj h).2⟩
  | [], d :: t, r, r', h => by
    rw [escape, escape, List.append_assoc] at h
    exact absurd h.symm (escapeChar_ne_quote d _ _)
  | c :: s, [], r, r', h => by
    rw [escape, escape, List.append_assoc] at h
    exact absurd h (escapeChar_ne_quote c _ _)
  | c :: s, d :: t, r, r', h => by
    rw [escape, escape, List.append_assoc, List.append_assoc] at h
    obtain ⟨rfl, hrest⟩ := escapeChar_append_inj h
    obtain ⟨rfl, rfl⟩ := escape_append_inj hrest
    exact ⟨rfl, rfl⟩

theorem quote_append_inj {s t : String} {r r' : List Char} (h : quote s ++ r = quote t ++ r') :
    s = t ∧ r = r' := by
  simp only [quote, List.cons_append, List.append_assoc, List.nil_append] at h
  obtain ⟨hst, hr⟩ := escape_append_inj (List.cons.inj h).2
  exact ⟨String.ext hst, hr⟩

/-- A text without quotes, backslashes and control characters is its own escape. -/
theorem escape_eq_self {cs : List Char} (h : ∀ c ∈ cs, c ≠ '"' ∧ c ≠ '\\' ∧ 32 ≤ c.toNat) :
    escape cs = cs := by
  induction cs with
  | nil => rfl
  | cons c cs ih =>
    obtain ⟨hquote, hslash, hcontrol⟩ := h c List.mem_cons_self
    rw [escape, escapeChar, if_neg hquote, if_neg hslash, if_neg (Nat.not_lt.mpr hcontrol),
      ih fun d hd => h d (List.mem_cons_of_mem _ hd)]
    rfl

/-! ### Numbers -/

/-- What follows does not go on with a number. -/
def Stops (r : List Char) : Prop := ∀ c ∈ r.head?, isNumberChar c = false

theorem stops_cons {c : Char} (h : isNumberChar c = false) (r : List Char) : Stops (c :: r) := by
  intro d hd
  rwa [← Option.some.inj hd]

theorem takeWhile_number {a r : List Char} (ha : ∀ c ∈ a, isNumberChar c = true) (hr : Stops r) :
    (a ++ r).takeWhile isNumberChar = a := by
  rw [List.takeWhile_append_of_pos ha]
  cases r with
  | nil => simp
  | cons c r => simp [hr c rfl]

theorem number_append_inj {a b r s : List Char} (ha : ∀ c ∈ a, isNumberChar c = true)
    (hb : ∀ c ∈ b, isNumberChar c = true) (hr : Stops r) (hs : Stops s) (h : a ++ r = b ++ s) :
    a = b ∧ r = s := by
  have hab : a = b := by
    rw [← takeWhile_number ha hr, h, takeWhile_number hb hs]
  subst hab
  exact ⟨rfl, List.append_cancel_left h⟩

/-! ### Values -/

section Values

variable {ν : Type*} (F : NumberFormat ν)

mutual

def stringify : Value ν → List Char
  | .null => ['n', 'u', 'l', 'l']
  | .bool true => ['t', 'r', 'u', 'e']
  | .bool false => ['f', 'a', 'l', 's', 'e']
  | .number n => F.text n
  | .string s => quote s
  | .array [] => ['[', ']']
  | .array (v :: vs) => '[' :: (stringify v ++ elementsText vs)
  | .object [] => ['{', '}']
  | .object ((k, v) :: ms) => '{' :: (quote k ++ ':' :: (stringify v ++ membersText ms))

/-- The elements of an array after the first, to its end. -/
def elementsText : List (Value ν) → List Char
  | [] => [']']
  | v :: vs => ',' :: (stringify v ++ elementsText vs)

/-- The members of an object after the first, to its end. -/
def membersText : List (String × Value ν) → List Char
  | [] => ['}']
  | (k, v) :: ms => ',' :: (quote k ++ ':' :: (stringify v ++ membersText ms))

end

theorem elementsText_stops (vs : List (Value ν)) (r : List Char) : Stops (elementsText F vs ++ r) := by
  cases vs with
  | nil => exact stops_cons (by decide) r
  | cons v vs =>
    rw [elementsText, List.cons_append]
    exact stops_cons (by decide) _

theorem membersText_stops (ms : List (String × Value ν)) (r : List Char) :
    Stops (membersText F ms ++ r) := by
  match ms with
  | [] => exact stops_cons (by decide) r
  | (k, v) :: ms =>
    rw [membersText, List.cons_append]
    exact stops_cons (by decide) _

/-- The kind of a value. -/
def kind : Value ν → ℕ
  | .null => 0
  | .bool true => 1
  | .bool false => 2
  | .number _ => 3
  | .string _ => 4
  | .array _ => 5
  | .object _ => 6

/-- The kind of the value whose text starts with a character; none starts with a bracket that
closes. -/
def kindOf (c : Char) : ℕ :=
  if c = 'n' then 0 else if c = 't' then 1 else if c = 'f' then 2 else if c = '"' then 4
  else if c = '[' then 5 else if c = '{' then 6 else if c = ']' then 7 else 3

theorem kindOf_number {c : Char} (h : isNumberChar c = true) : kindOf c = 3 := by
  unfold kindOf
  repeat' split
  all_goals first
    | rfl
    | next hc => rw [hc] at h; exact absurd h (by decide)

theorem kindOf_stringify (v : Value ν) (r : List Char) :
    ((stringify F v ++ r).head?).map kindOf = some (kind v) := by
  match v with
  | .null => rw [stringify]; rfl
  | .bool true => rw [stringify]; rfl
  | .bool false => rw [stringify]; rfl
  | .string s => rw [stringify]; rfl
  | .array [] => rw [stringify]; rfl
  | .array (v :: vs) => rw [stringify]; rfl
  | .object [] => rw [stringify]; rfl
  | .object ((k, v) :: ms) => rw [stringify]; rfl
  | .number n =>
    rw [stringify]
    cases htext : F.text n with
    | nil => exact absurd htext (F.ne_nil n)
    | cons c cs =>
      have hc : isNumberChar c = true := F.chars n c (by rw [htext]; exact List.mem_cons_self)
      exact congrArg some (kindOf_number hc)

theorem kind_eq_of_stringify {v w : Value ν} {r s : List Char}
    (h : stringify F v ++ r = stringify F w ++ s) : kind v = kind w := by
  have hv := kindOf_stringify F v r
  rw [h, kindOf_stringify F w s] at hv
  exact (Option.some.inj hv).symm

theorem stringify_ne_bracket (v : Value ν) (r s : List Char) : stringify F v ++ r ≠ ']' :: s := by
  intro h
  have hkind := kindOf_stringify F v r
  rw [h] at hkind
  have hseven : 7 = kind v := Option.some.inj hkind
  cases v with
  | bool b => cases b <;> cases hseven
  | _ => cases hseven

/-! The induction is on the first value; what stops a number is what follows it in the text. -/

mutual

theorem stringify_append_inj : ∀ (v w : Value ν) (r s : List Char), Stops r → Stops s →
    stringify F v ++ r = stringify F w ++ s → v = w ∧ r = s
  | .null, w, r, s, _, _, h => by
    have hkind := kind_eq_of_stringify F h
    match w, hkind with
    | .null, _ =>
      rw [stringify] at h
      exact ⟨rfl, List.append_cancel_left h⟩
  | .bool true, w, r, s, _, _, h => by
    have hkind := kind_eq_of_stringify F h
    match w, hkind with
    | .bool true, _ =>
      rw [stringify] at h
      exact ⟨rfl, List.append_cancel_left h⟩
  | .bool false, w, r, s, _, _, h => by
    have hkind := kind_eq_of_stringify F h
    match w, hkind with
    | .bool false, _ =>
      rw [stringify] at h
      exact ⟨rfl, List.append_cancel_left h⟩
  | .number n, w, r, s, hr, hs, h => by
    have hkind := kind_eq_of_stringify F h
    match w, hkind with
    | .number m, _ =>
      rw [stringify, stringify] at h
      obtain ⟨htext, hrest⟩ := number_append_inj (F.chars n) (F.chars m) hr hs h
      exact ⟨congrArg Value.number (F.injective htext), hrest⟩
  | .string t, w, r, s, _, _, h => by
    have hkind := kind_eq_of_stringify F h
    match w, hkind with
    | .string u, _ =>
      rw [stringify, stringify] at h
      obtain ⟨rfl, hrest⟩ := quote_append_inj h
      exact ⟨rfl, hrest⟩
  | .array [], w, r, s, _, _, h => by
    have hkind := kind_eq_of_stringify F h
    match w, hkind with
    | .array [], _ =>
      rw [stringify] at h
      exact ⟨rfl, List.append_cancel_left h⟩
    | .array (x :: xs), _ =>
      rw [stringify, stringify] at h
      simp only [List.cons_append, List.append_assoc, List.cons.injEq, true_and] at h
      exact absurd h.symm (stringify_ne_bracket F x _ _)
  | .array (v :: vs), w, r, s, _, _, h => by
    have hkind := kind_eq_of_stringify F h
    match w, hkind with
    | .array [], _ =>
      rw [stringify, stringify] at h
      simp only [List.cons_append, List.append_assoc, List.cons.injEq, true_and] at h
      exact absurd h (stringify_ne_bracket F v _ _)
    | .array (x :: xs), _ =>
      rw [stringify, stringify] at h
      simp only [List.cons_append, List.append_assoc, List.cons.injEq, true_and] at h
      obtain ⟨rfl, htail⟩ := stringify_append_inj v x _ _ (elementsText_stops F vs r)
        (elementsText_stops F xs s) h
      obtain ⟨rfl, hend⟩ := elementsText_append_inj vs xs r s htail
      exact ⟨rfl, hend⟩
  | .object [], w, r, s, _, _, h => by
    have hkind := kind_eq_of_stringify F h
    match w, hkind with
    | .object [], _ =>
      rw [stringify] at h
      exact ⟨rfl, List.append_cancel_left h⟩
    | .object ((k, x) :: xs), _ =>
      rw [stringify, stringify] at h
      cases h
  | .object ((k, v) :: vs), w, r, s, _, _, h => by
    have hkind := kind_eq_of_stringify F h
    match w, hkind with
    | .object [], _ =>
      rw [stringify, stringify] at h
      cases h
    | .object ((k', x) :: xs), _ =>
      rw [stringify, stringify] at h
      simp only [List.cons_append, List.append_assoc, List.cons.injEq, true_and] at h
      obtain ⟨rfl, hvalue⟩ := quote_append_inj h
      obtain ⟨rfl, htail⟩ := stringify_append_inj v x _ _ (membersText_stops F vs r)
        (membersText_stops F xs s) (List.cons.inj hvalue).2
      obtain ⟨rfl, hend⟩ := membersText_append_inj vs xs r s htail
      exact ⟨rfl, hend⟩

theorem elementsText_append_inj : ∀ (vs ws : List (Value ν)) (r s : List Char),
    elementsText F vs ++ r = elementsText F ws ++ s → vs = ws ∧ r = s
  | [], [], r, s, h => by
    rw [elementsText] at h
    exact ⟨rfl, List.append_cancel_left h⟩
  | [], w :: ws, r, s, h => by
    rw [elementsText, elementsText] at h
    cases h
  | v :: vs, [], r, s, h => by
    rw [elementsText, elementsText] at h
    cases h
  | v :: vs, w :: ws, r, s, h => by
    rw [elementsText, elementsText] at h
    simp only [List.cons_append, List.append_assoc, List.cons.injEq, true_and] at h
    obtain ⟨rfl, htail⟩ := stringify_append_inj v w _ _ (elementsText_stops F vs r)
      (elementsText_stops F ws s) h
    obtain ⟨rfl, hend⟩ := elementsText_append_inj vs ws r s htail
    exact ⟨rfl, hend⟩

theorem membersText_append_inj : ∀ (ms ns : List (String × Value ν)) (r s : List Char),
    membersText F ms ++ r = membersText F ns ++ s → ms = ns ∧ r = s
  | [], [], r, s, h => by
    rw [membersText] at h
    exact ⟨rfl, List.append_cancel_left h⟩
  | [], (k, w) :: ws, r, s, h => by
    rw [membersText, membersText] at h
    cases h
  | (k, v) :: vs, [], r, s, h => by
    rw [membersText, membersText] at h
    cases h
  | (k, v) :: vs, (k', w) :: ws, r, s, h => by
    rw [membersText, membersText] at h
    simp only [List.cons_append, List.append_assoc, List.cons.injEq, true_and] at h
    obtain ⟨rfl, hvalue⟩ := quote_append_inj h
    obtain ⟨rfl, htail⟩ := stringify_append_inj v w _ _ (membersText_stops F vs r)
      (membersText_stops F ws s) (List.cons.inj hvalue).2
    obtain ⟨rfl, hend⟩ := membersText_append_inj vs ws r s htail
    exact ⟨rfl, hend⟩

end

theorem stringify_injective : Function.Injective (stringify F) := by
  intro v w h
  have hstops : Stops [] := fun c hc => by cases hc
  exact (stringify_append_inj F v w [] [] hstops hstops (by rw [h])).1

end Values

end JsonText
