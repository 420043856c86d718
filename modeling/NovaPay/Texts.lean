import Mathlib.Data.Bool.AllAny
import Mathlib.Logic.Encodable.Pi
import NovaPay.Library.Hexadecimal
import NovaPay.Library.JsonText
import NovaPay.Wire

/-!
# The texts of values

The characters that a uuid, a currency and a decimal are written with, and the text that `JSON.stringify`
makes of the values that are hashed.
-/

namespace NovaPay

open DecimalArithmetic Hexadecimal JsonText

/-! ### Uuids -/

/-- The text of a uuid as a request spells it. -/
def spelled (u : UuidText) : String := String.ofList (spell u.upper (uuidText u.value).toList)

/-- What PostgreSQL reads of a uuid. -/
def uuidOf (s : String) : Uuid := value (s.toList.filter (· ≠ '-'))

theorem digits_groups (id : Uuid) : digits 32 id = digits 8 (id / 16 ^ 24) ++ (digits 4 (id / 16 ^ 20) ++
    (digits 4 (id / 16 ^ 16) ++ (digits 4 (id / 16 ^ 12) ++ digits 12 id))) := by
  rw [digits_add 8 24, digits_add 4 20, digits_add 4 16, digits_add 4 12]

theorem uuidText_eq {id : Uuid} (h : id < 16 ^ 32) : (uuidText id).toList =
    digits 8 (id / 16 ^ 24) ++ '-' :: (digits 4 (id / 16 ^ 20) ++ '-' :: (digits 4 (id / 16 ^ 16) ++
      '-' :: (digits 4 (id / 16 ^ 12) ++ '-' :: digits 12 id))) := by
  have hpast : ∀ {n k m : ℕ}, n ≤ k → (digits n m).drop k = [] := fun hle =>
    List.drop_of_length_le (by rwa [length_digits])
  rw [uuidText, leftpad_toDigits h, digits_groups, String.toList_ofList]
  simp [List.drop_append, hpast]

theorem uuidOf_uuidText {id : Uuid} (h : id < 16 ^ 32) : uuidOf (uuidText id) = id := by
  have hdash : ∀ n m : ℕ, (digits n m).filter (· ≠ '-') = digits n m := by
    intro n m
    refine List.filter_eq_self.mpr fun c hc => ?_
    have hdigit := isDigit_of_mem_digits hc
    rw [decide_eq_true_eq]
    rintro rfl
    exact absurd hdigit (by decide)
  rw [uuidOf, uuidText_eq h]
  simp only [List.filter_append, List.filter_cons, hdash, ne_eq, not_true_eq_false, decide_false,
    Bool.false_eq_true, if_false, ← digits_groups]
  exact value_digits h

theorem filter_uuidText (id : Uuid) : ∃ n, id < 16 ^ n ∧ (uuidText id).toList.filter (· ≠ '-') = digits n id := by
  obtain ⟨n, hlt, hdigits⟩ := exists_leftpad_eq_digits 32 id
  refine ⟨n, hlt, ?_⟩
  have hkeep : ∀ cs : List Char, (∀ c ∈ cs, c ∈ digits n id) → cs.filter (· ≠ '-') = cs := by
    intro cs hcs
    refine List.filter_eq_self.mpr fun c hc => ?_
    have hdigit := isDigit_of_mem_digits (hcs c hc)
    rw [decide_eq_true_eq]
    rintro rfl
    exact absurd hdigit (by decide)
  have hdrop : ∀ k, ∀ c ∈ (digits n id).drop k, c ∈ digits n id := fun k c => List.mem_of_mem_drop
  have htake : ∀ k m, ∀ c ∈ ((digits n id).drop k).take m, c ∈ digits n id := fun k m c hc =>
    hdrop k c (List.mem_of_mem_take hc)
  have hfirst : ∀ c ∈ (digits n id).take 8, c ∈ digits n id := fun c => List.mem_of_mem_take
  rw [uuidText, hdigits, String.toList_ofList]
  simp only [List.filter_append, List.filter_cons, hkeep _ hfirst, hkeep _ (htake _ _), hkeep _ (hdrop _),
    ne_eq, not_true_eq_false, decide_false, Bool.false_eq_true, if_false]
  have hgroup : ∀ k m, ((digits n id).drop k).take m ++ (digits n id).drop (k + m) = (digits n id).drop k := by
    intro k m
    rw [← List.drop_drop, List.take_append_drop]
  have h16 := hgroup 16 4
  have h12 := hgroup 12 4
  have h8 := hgroup 8 4
  simp only [List.append_assoc, h16, h12, h8, List.take_append_drop]

/-- Different numbers have different texts. -/
theorem uuidText_injective : Function.Injective uuidText := by
  intro a b h
  obtain ⟨n, hn, ha⟩ := filter_uuidText a
  obtain ⟨m, hm, hb⟩ := filter_uuidText b
  rw [h, hb] at ha
  rw [← value_digits hn, ← value_digits hm, ha]

/-- No text of a uuid has a colon. -/
theorem colon_notMem_uuidText (id : Uuid) : ':' ∉ (uuidText id).toList := by
  intro hmem
  obtain ⟨n, -, hfilter⟩ := filter_uuidText id
  have hcolon : ':' ∈ digits n id := hfilter ▸ List.mem_filter.mpr ⟨hmem, by decide⟩
  exact absurd (isDigit_of_mem_digits hcolon) (by decide)

/-- The letter case does not change what is read. -/
theorem value_filter_spell {cs : List Char} (h : ∀ c ∈ cs, oneOf "0123456789abcdefABCDEF-" c = true) (mask : ℕ) :
    value ((spell mask cs).filter (· ≠ '-')) = value (cs.filter (· ≠ '-')) := by
  have hvalue : ∀ cs : List Char, value cs = (cs.map digitValue).foldl (fun n d => n * 16 + d) 0 := by
    intro cs
    rw [value, List.foldl_map]
  have hupper : ∀ c ∈ "0123456789abcdefABCDEF-".toList,
      (c.toUpper = '-' ↔ c = '-') ∧ digitValue c.toUpper = digitValue c :=
    List.all_iff_forall_prop.mp (by decide)
  rw [hvalue, hvalue]
  congr 1
  induction cs generalizing mask with
  | nil => rfl
  | cons c cs ih =>
    obtain ⟨hdash, hdigit⟩ := hupper c (of_decide_eq_true (h c List.mem_cons_self))
    have hrest := ih (fun d hd => h d (List.mem_cons_of_mem _ hd)) (mask / 2)
    have hsame : ∀ d : Char, (d = '-' ↔ c = '-') → digitValue d = digitValue c →
        ((d :: spell (mask / 2) cs).filter (· ≠ '-')).map digitValue =
          ((c :: cs).filter (· ≠ '-')).map digitValue := by
      intro d hd hv
      by_cases hc : c = '-'
      · simpa [hc, hd.mpr hc] using hrest
      · simpa [hc, mt hd.mp hc, hv] using hrest
    rw [spell]
    split
    · exact hsame _ hdash hdigit
    · exact hsame _ Iff.rfl rfl

theorem uuidText_chars {id : Uuid} (h : id < 16 ^ 32) :
    ∀ c ∈ (uuidText id).toList, oneOf "0123456789abcdefABCDEF-" c = true := by
  have hdigits : ∀ {n m : ℕ}, ∀ c ∈ digits n m, oneOf "0123456789abcdefABCDEF-" c = true := by
    intro n m c hc
    have hall : ∀ d ∈ "0123456789abcdefABCDEF".toList, oneOf "0123456789abcdefABCDEF-" d = true :=
      List.all_iff_forall_prop.mp (by decide)
    exact hall c (of_decide_eq_true (isDigit_of_mem_digits hc))
  intro c hc
  simp only [uuidText_eq h, List.mem_append, List.mem_cons] at hc
  obtain hc | rfl | hc | rfl | hc | rfl | hc | rfl | hc := hc
  all_goals first | exact hdigits c hc | decide

/-- A uuid is read back in every spelling. -/
theorem uuidOf_spelled {u : UuidText} (h : u.value < 16 ^ 32) : uuidOf (spelled u) = u.value := by
  rw [uuidOf, spelled, String.toList_ofList, value_filter_spell (uuidText_chars h)]
  exact uuidOf_uuidText h

/-! ### Currencies and decimals -/

/-- The three letters of a currency. -/
def currencyText (currency : Currency) : String :=
  String.ofList [Char.ofNat (65 + currency.1), Char.ofNat (65 + currency.2.1),
    Char.ofNat (65 + currency.2.2)]

/-- The digits of a decimal before the point, and as many as its places after it. -/
def decimalText (t : Text) : String :=
  let digits := (Nat.toDigits 10 t.units.natAbs).leftpad (t.places + 1) '0'
  let whole := digits.length - t.places
  String.ofList ((if t.units < 0 then ['-'] else []) ++ digits.take whole ++
    (if t.places = 0 then [] else '.' :: digits.drop whole))

example : decimalText ⟨-150, 2⟩ = "-1.50" ∧ decimalText ⟨5, 8⟩ = "0.00000005" := by decide +kernel

theorem currencyText_injective : Function.Injective currencyText := by
  have hletter : ∀ a b : Fin 26, Char.ofNat (65 + a) = Char.ofNat (65 + b) → a = b := by decide
  intro c d h
  have hchars := congrArg String.toList h
  simp only [currencyText, String.toList_ofList, List.cons.injEq, and_true] at hchars
  exact Prod.ext (hletter _ _ hchars.1) (Prod.ext (hletter _ _ hchars.2.1) (hletter _ _ hchars.2.2))

theorem decimalText_parts {t : Text} (ht : 0 ≤ t.units) : ∃ whole fraction : List Char,
    fraction.length = t.places ∧
    whole ++ fraction = (Nat.toDigits 10 t.units.natAbs).leftpad (t.places + 1) '0' ∧
    (decimalText t).toList = whole ++ if t.places = 0 then [] else '.' :: fraction := by
  let digits := (Nat.toDigits 10 t.units.natAbs).leftpad (t.places + 1) '0'
  have hlength : t.places + 1 ≤ digits.length := by
    rw [List.length_leftpad]
    exact Nat.le_max_left _ _
  refine ⟨digits.take (digits.length - t.places), digits.drop (digits.length - t.places), ?_,
    List.take_append_drop _ _, ?_⟩
  · rw [List.length_drop]
    omega
  · rw [decimalText, String.toList_ofList, if_neg (Int.not_lt.mpr ht)]
    rfl

theorem decimalText_inj {a b : Text} (hplaces : a.places = b.places) (ha : 0 ≤ a.units) (hb : 0 ≤ b.units)
    (h : decimalText a = decimalText b) : a = b := by
  have hread : ∀ t : Text, Nat.ofDigitChars 10 ((Nat.toDigits 10 t.units.natAbs).leftpad (t.places + 1) '0') 0 =
      t.units.natAbs := by
    intro t
    rw [List.leftpad, Nat.ofDigitChars_append, Nat.ofDigitChars_replicate_zero, Nat.mul_zero,
      Nat.ofDigitChars_ten_toDigits]
  obtain ⟨w, f, hf, hwf, hw⟩ := decimalText_parts ha
  obtain ⟨w', f', hf', hwf', hw'⟩ := decimalText_parts hb
  have hsame : w ++ f = w' ++ f' := by
    rw [h, hw'] at hw
    by_cases hzero : b.places = 0
    · rw [if_pos hzero, if_pos (hplaces.trans hzero), List.append_nil, List.append_nil] at hw
      rw [List.eq_nil_of_length_eq_zero (hf.trans (hplaces.trans hzero)),
        List.eq_nil_of_length_eq_zero (hf'.trans hzero), hw]
    · rw [if_neg hzero, if_neg (hplaces ▸ hzero)] at hw
      obtain ⟨hwhole, hfraction⟩ := List.append_inj' hw (by simp [hf, hf', hplaces])
      rw [hwhole, (List.cons.inj hfraction).2]
  have hunits := congrArg (fun cs => Nat.ofDigitChars 10 cs 0) hsame
  simp only [hwf, hwf', hread] at hunits
  have heq : a.units = b.units := by omega
  cases a
  cases b
  rw [Text.mk.injEq]
  exact ⟨heq, hplaces⟩

/-- Decimals within the places that are written have one text exactly when they are equal. -/
theorem decimalText_toFixed_eq_iff {places : ℕ} {a b : Text} (ha : a.places ≤ places) (hb : b.places ≤ places)
    (hpos : 0 ≤ a.units) (hpos' : 0 ≤ b.units) :
    decimalText (toFixed places a.value) = decimalText (toFixed places b.value) ↔ a.value = b.value := by
  constructor
  · intro h
    have hunits : ∀ {t : Text}, 0 ≤ t.units → 0 ≤ (toFixed places t.value).units := by
      intro t ht
      refine roundHalfUp_nonneg ?_
      rw [Text.value]
      have hcast : (0 : ℚ) ≤ t.units := by exact_mod_cast ht
      positivity
    have hfixed : toFixed places a.value = toFixed places b.value :=
      decimalText_inj rfl (hunits hpos) (hunits hpos') h
    have ha' := value_mul_pow_of_places ha
    have hb' := value_mul_pow_of_places hb
    have heq := congrArg Text.units hfixed
    simp only [toFixed, roundHalfUp_of_int ha', roundHalfUp_of_int hb'] at heq
    have hten : (10 : ℚ) ^ places ≠ 0 := by positivity
    refine mul_right_cancel₀ hten ?_
    rw [ha', hb', heq]
  · intro h
    rw [h]

theorem decimalText_money_eq_iff {a b : Text} (ha : isMoney a = true) (hb : isMoney b = true) :
    decimalText (toFixed 8 a.value) = decimalText (toFixed 8 b.value) ↔ a.value = b.value := by
  simp only [isMoney, Bool.and_eq_true, decide_eq_true_eq] at ha hb
  exact decimalText_toFixed_eq_iff ha.1.2 hb.1.2 ha.1.1.1 hb.1.1.1

theorem decimalText_rate_eq_iff {a b : Text} (ha : isRate a = true) (hb : isRate b = true) :
    decimalText (toFixed 12 a.value) = decimalText (toFixed 12 b.value) ↔ a.value = b.value := by
  simp only [isRate, Bool.and_eq_true, decide_eq_true_eq] at ha hb
  exact decimalText_toFixed_eq_iff ha.1.2 hb.1.2 ha.1.1.1 hb.1.1.1

/-! ### Hashed values -/

mutual

/-- The value that is handed to `JSON.stringify`. -/
def Json.value : Json → Value Empty
  | .null => .null
  | .text s => .string s
  | .uuid u => .string (spelled u)
  | .currency c => .string (currencyText c)
  | .decimal d => .string (decimalText d)
  | .array elements => .array (Json.elements elements)
  | .object members => .object (Json.members members)

def Json.elements : List Json → List (Value Empty)
  | [] => []
  | j :: js => j.value :: Json.elements js

def Json.members : List (String × Json) → List (String × Value Empty)
  | [] => []
  | (name, j) :: ms => (name, j.value) :: Json.members ms

end

/-- There is no number to write. -/
def noNumbers : NumberFormat Empty where
  text := Empty.elim
  chars := fun n => n.elim
  ne_nil := fun n => n.elim
  injective := fun n => n.elim

/-- `createHash('sha256').update(JSON.stringify(value))` -/
def hashValue (sha256 : String → Digest) (value : Json) : Digest :=
  sha256 (String.ofList (stringify noNumbers value.value))

theorem hashValue_eq_iff {sha256 : String → Digest} (hsha256 : Function.Injective sha256) {a b : Json} :
    hashValue sha256 a = hashValue sha256 b ↔ a.value = b.value := by
  constructor
  · intro h
    have htext := congrArg String.toList (hsha256 h)
    rw [String.toList_ofList, String.toList_ofList] at htext
    exact stringify_injective noNumbers htext
  · intro h
    rw [hashValue, hashValue, h]

theorem Json.elements_eq (js : List Json) : Json.elements js = js.map Json.value := by
  induction js with
  | nil => rfl
  | cons j js ih => rw [Json.elements, ih, List.map_cons]

/-- Two functions that tell the same members of two lists apart tell the same lists apart. -/
theorem map_eq_map_iff_of_iff {α β γ : Type*} {f : α → β} {g : α → γ} {xs ys : List α}
    (h : ∀ x ∈ xs, ∀ y ∈ ys, f x = f y ↔ g x = g y) : xs.map f = ys.map f ↔ xs.map g = ys.map g := by
  induction xs generalizing ys with
  | nil => simp [eq_comm]
  | cons x xs ih =>
    cases ys with
    | nil => simp
    | cons y ys =>
      have hrest := ih fun a ha b hb => h a (List.mem_cons_of_mem _ ha) b (List.mem_cons_of_mem _ hb)
      rw [List.map_cons, List.map_cons, List.map_cons, List.map_cons, List.cons.injEq, List.cons.injEq,
        h x List.mem_cons_self y List.mem_cons_self, hrest]

/-- A table that is completed by a code beyond its values has no collisions if the table and the code have
none. -/
theorem lookup_getD_injective {κ : Type*} [BEq κ] [LawfulBEq κ] {known : List (κ × ℕ)} {code : κ → ℕ}
    {bound : ℕ} (hcode : Function.Injective code) (hbound : ∀ k, bound ≤ code k)
    (hlt : ∀ p ∈ known, p.2 < bound) (hnodup : (known.map Prod.snd).Nodup) :
    Function.Injective fun k => (known.lookup k).getD (code k) := by
  have hmem : ∀ {k : κ} {d : ℕ}, known.lookup k = some d → (k, d) ∈ known := by
    intro k d h
    obtain ⟨xs, ys, heq, -⟩ := List.lookup_eq_some_iff.mp h
    rw [heq]
    simp
  intro k l h
  simp only at h
  cases hk : known.lookup k with
  | some d =>
    have hsmall : d < bound := hlt _ (hmem hk)
    cases hl : known.lookup l with
    | some e =>
      rw [hk, hl, Option.getD_some, Option.getD_some] at h
      exact congrArg Prod.fst (List.inj_on_of_nodup_map hnodup (hmem hk) (hmem hl) h)
    | none =>
      rw [hk, hl, Option.getD_some, Option.getD_none] at h
      exact absurd (h ▸ hsmall) (Nat.not_lt.mpr (hbound l))
  | none =>
    cases hl : known.lookup l with
    | some e =>
      have hsmall : e < bound := hlt _ (hmem hl)
      rw [hk, hl, Option.getD_some, Option.getD_none] at h
      exact absurd (h ▸ hsmall) (Nat.not_lt.mpr (hbound k))
    | none =>
      rw [hk, hl, Option.getD_none, Option.getD_none] at h
      exact hcode h

/-- The code of a text, beyond the digests. -/
def textCode (cs : List Char) : ℕ := 2 ^ 256 + Encodable.encode (cs.map Char.toNat)

theorem textCode_injective : Function.Injective textCode := by
  intro cs ds h
  have hcodes := Encodable.encode_injective (Nat.add_left_cancel h)
  exact List.map_injective_iff.mpr (fun a b hab => Char.toNat_inj.mp hab) hcodes

/-- A function without collisions that has given digests on given texts. -/
def digestOf (known : List (List Char × Digest)) (cs : List Char) : Digest :=
  (known.lookup cs).getD (textCode cs)

theorem digestOf_injective {known : List (List Char × Digest)} (hlt : ∀ p ∈ known, p.2 < 2 ^ 256)
    (hnodup : (known.map Prod.snd).Nodup) : Function.Injective (digestOf known) :=
  lookup_getD_injective textCode_injective (fun _ => Nat.le_add_right _ _) hlt hnodup

/-- The same over strings. -/
def digestWith (known : List (String × Digest)) (s : String) : Digest :=
  (known.lookup s).getD (textCode s.toList)

theorem digestWith_injective {known : List (String × Digest)} (hlt : ∀ p ∈ known, p.2 < 2 ^ 256)
    (hnodup : (known.map Prod.snd).Nodup) : Function.Injective (digestWith known) :=
  lookup_getD_injective (textCode_injective.comp fun _ _ h => String.ext h)
    (fun _ => Nat.le_add_right _ _) hlt hnodup

/-- The bytes of a digest, the first one first. -/
def digestBytes (d : Digest) : List UInt8 := (List.range 32).map fun k => UInt8.ofNat (d / 256 ^ (31 - k))

@[simp] theorem length_digestBytes (d : Digest) : (digestBytes d).length = 32 := by simp [digestBytes]

/-- The codes that are known of messages under keys. -/
def macWith (known : List ((List UInt8 × List UInt8) × Digest)) (key message : List UInt8) : List UInt8 :=
  digestBytes ((known.lookup (key, message)).getD 0)

end NovaPay
