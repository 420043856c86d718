import Mathlib.Data.List.Basic
import Mathlib.Tactic.IntervalCases

/-!
# Base64 for URLs

Texts as bytes, and bytes as characters of the alphabet that is safe in URLs, without padding: four
characters for three bytes, and two or three for the last one or two. What is written is read back.
-/

namespace Base64Url

def alphabet : List Char := "ABCDEFGHIJKLMNOPQRSTUVWXYZabcdefghijklmnopqrstuvwxyz0123456789-_".toList

/-- The character of six bits. -/
def digit (n : ℕ) : Char := alphabet.getD n 'A'

def value? (c : Char) : Option ℕ := alphabet.idxOf? c

theorem value?_digit {n : ℕ} (h : n < 64) : value? (digit n) = some n := by
  have hall : ∀ n < 64, value? (digit n) = some n := by decide +kernel
  exact hall n h

/-- The six bits of every character that bytes are written with. -/
def sextets : List UInt8 → List ℕ
  | a :: b :: c :: r =>
    a.toNat / 4 :: (a.toNat % 4 * 16 + b.toNat / 16) :: (b.toNat % 16 * 4 + c.toNat / 64) ::
      c.toNat % 64 :: sextets r
  | [a, b] => [a.toNat / 4, a.toNat % 4 * 16 + b.toNat / 16, b.toNat % 16 * 4]
  | [a] => [a.toNat / 4, a.toNat % 4 * 16]
  | [] => []

/-- The bytes that six bits at a time make up. What is left at the end is dropped. -/
def octets : List ℕ → List UInt8
  | w :: x :: y :: z :: r =>
    UInt8.ofNat (w * 4 + x / 16) :: UInt8.ofNat (x % 16 * 16 + y / 4) :: UInt8.ofNat (y % 4 * 64 + z) ::
      octets r
  | [w, x, y] => [UInt8.ofNat (w * 4 + x / 16), UInt8.ofNat (x % 16 * 16 + y / 4)]
  | [w, x] => [UInt8.ofNat (w * 4 + x / 16)]
  | _ => []

def encode (bytes : List UInt8) : List Char := (sextets bytes).map digit

/-- Characters that are not of the alphabet are passed over. -/
def decode (cs : List Char) : List UInt8 := octets (cs.filterMap value?)

theorem sextets_lt (bytes : List UInt8) : ∀ n ∈ sextets bytes, n < 64 := by
  induction bytes using sextets.induct with
  | case1 a b c r ih =>
    have ha := a.toNat_lt
    have hb := b.toNat_lt
    have hc := c.toNat_lt
    intro n hn
    simp only [sextets, List.mem_cons] at hn
    obtain rfl | rfl | rfl | rfl | hn := hn
    · omega
    · omega
    · omega
    · omega
    · exact ih n hn
  | case2 a b =>
    have ha := a.toNat_lt
    have hb := b.toNat_lt
    intro n hn
    simp only [sextets, List.mem_cons, List.not_mem_nil, or_false] at hn
    omega
  | case3 a =>
    have ha := a.toNat_lt
    intro n hn
    simp only [sextets, List.mem_cons, List.not_mem_nil, or_false] at hn
    omega
  | case4 => simp [sextets]

theorem octets_sextets (bytes : List UInt8) : octets (sextets bytes) = bytes := by
  have hbyte : ∀ (b : UInt8) (n : ℕ), n = b.toNat → UInt8.ofNat n = b := by
    rintro b n rfl
    exact UInt8.ofNat_toNat
  induction bytes using sextets.induct with
  | case1 a b c r ih =>
    have ha := a.toNat_lt
    have hb := b.toNat_lt
    have hc := c.toNat_lt
    rw [sextets, octets, ih, hbyte a _ (by omega), hbyte b _ (by omega), hbyte c _ (by omega)]
  | case2 a b =>
    have ha := a.toNat_lt
    have hb := b.toNat_lt
    rw [sextets, octets, hbyte a _ (by omega), hbyte b _ (by omega)]
  | case3 a =>
    have ha := a.toNat_lt
    rw [sextets, octets, hbyte a _ (by omega)]
  | case4 => rfl

theorem decode_encode (bytes : List UInt8) : decode (encode bytes) = bytes := by
  have hvalues : ∀ ns : List ℕ, (∀ n ∈ ns, n < 64) → (ns.map digit).filterMap value? = ns := by
    intro ns hns
    induction ns with
    | nil => rfl
    | cons n ns ih =>
      rw [List.map_cons, List.filterMap_cons_some (value?_digit (hns n List.mem_cons_self)),
        ih fun m hm => hns m (List.mem_cons_of_mem _ hm)]
  rw [decode, encode, hvalues _ (sextets_lt bytes), octets_sextets]

theorem encode_chars (bytes : List UInt8) : ∀ c ∈ encode bytes, c ∈ alphabet := by
  have hall : ∀ n < 64, digit n ∈ alphabet := by decide +kernel
  intro c hc
  obtain ⟨n, hn, rfl⟩ := List.mem_map.mp hc
  exact hall n (sextets_lt bytes n hn)

theorem length_encode (bytes : List UInt8) : (encode bytes).length = (4 * bytes.length + 2) / 3 := by
  rw [encode, List.length_map]
  induction bytes using sextets.induct with
  | case1 a b c r ih =>
    simp only [sextets, List.length_cons, ih]
    omega
  | case2 a b => simp [sextets]
  | case3 a => simp [sextets]
  | case4 => rfl

/-! ### Texts -/

/-- A text in UTF-8. -/
def utf8 (s : String) : List UInt8 := s.toByteArray.data.toList

/-- The text that bytes are the UTF-8 of. -/
def ofUtf8? (bytes : List UInt8) : Option String := String.fromUTF8? ⟨bytes.toArray⟩

theorem ofUtf8?_utf8 (s : String) : ofUtf8? (utf8 s) = some s := by
  have hbytes : (⟨(utf8 s).toArray⟩ : ByteArray) = s.toByteArray := by
    rw [utf8, Array.toArray_toList]
  rw [ofUtf8?, hbytes, String.fromUTF8?, dif_pos s.isValidUTF8]
  rfl

/-- How far a character has been read: the bytes it still needs, the bounds of the next of them, and the bits
so far. -/
structure Partial where
  needed : ℕ
  lower : ℕ
  upper : ℕ
  bits : ℕ

def Partial.none : Partial := ⟨0, 0x80, 0xBF, 0⟩

/-- What stands for bytes that are not those of a character. -/
def replacement : Char := Char.ofNat 0xFFFD

/-- The first byte of a character. -/
def start (b : ℕ) : List Char × Partial :=
  if b < 0x80 then ([Char.ofNat b], .none)
  else if 0xC2 ≤ b ∧ b ≤ 0xDF then ([], ⟨1, 0x80, 0xBF, b % 32⟩)
  else if 0xE0 ≤ b ∧ b ≤ 0xEF then
    ([], ⟨2, if b = 0xE0 then 0xA0 else 0x80, if b = 0xED then 0x9F else 0xBF, b % 16⟩)
  else if 0xF0 ≤ b ∧ b ≤ 0xF4 then
    ([], ⟨3, if b = 0xF0 then 0x90 else 0x80, if b = 0xF4 then 0x8F else 0xBF, b % 8⟩)
  else ([replacement], .none)

def advance (p : Partial) (b : ℕ) : List Char × Partial :=
  if p.needed = 0 then start b
  else if p.lower ≤ b ∧ b ≤ p.upper then
    let bits := p.bits * 64 + b % 64
    if p.needed = 1 then ([Char.ofNat bits], .none) else ([], ⟨p.needed - 1, 0x80, 0xBF, bits⟩)
  else
    let (cs, q) := start b
    (replacement :: cs, q)

/-- The characters of bytes, with a replacement for each part that cannot be a character's. -/
def repaired (p : Partial) : List UInt8 → List Char
  | [] => if p.needed = 0 then [] else [replacement]
  | b :: r =>
    let (cs, q) := advance p b.toNat
    cs ++ repaired q r

/-- `Buffer.prototype.toString('utf8')` -/
def ofUtf8 (bytes : List UInt8) : List Char :=
  match ofUtf8? bytes with
  | some s => s.toList
  | none => repaired .none bytes

@[simp] theorem ofUtf8_utf8 (s : String) : ofUtf8 (utf8 s) = s.toList := by
  rw [ofUtf8, ofUtf8?_utf8]

theorem length_flatMap_utf8EncodeChar_le (cs : List Char) :
    (cs.flatMap String.utf8EncodeChar).length ≤ 4 * cs.length := by
  induction cs with
  | nil => simp
  | cons c cs ih =>
    have hc := c.utf8Size_le_four
    rw [List.flatMap_cons, List.length_append, String.length_utf8EncodeChar, List.length_cons]
    omega

/-- A text has at most four bytes a character. -/
theorem length_utf8_ofList_le (cs : List Char) : (utf8 (String.ofList cs)).length ≤ 4 * cs.length := by
  have h := length_flatMap_utf8EncodeChar_le cs
  simpa [utf8, List.utf8Encode] using h

/-- What is no UTF-8 is repaired as the standard says: an overlong form, a surrogate and a cut character. -/
example : ofUtf8 [0x61, 0xC0, 0x80, 0xED, 0xA0, 0x80, 0xE2, 0x82, 0x62, 0xF0] =
    'a' :: List.replicate 6 replacement ++ ['b', replacement] := by decide +kernel

end Base64Url
