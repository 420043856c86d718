import Mathlib.Data.List.Lex
import NovaPay.Library.Double
import NovaPay.Library.JsonOrder

/-!
# JSON in a column

What becomes of a JSON value of JavaScript in a column of type `JSONB`: numbers are kept as decimals of any
length, and objects list their members by the length of the name and then by its bytes. A value read back
lists them in that order, after the names that are array indexes.
-/

namespace JsonText

/-! ### The ranks of names -/

/-- The UTF-16 code units of a character. -/
def codeUnits (c : Char) : List ℕ :=
  if c.toNat < 0x10000 then [c.toNat]
  else [0xD800 + (c.toNat - 0x10000) / 0x400, 0xDC00 + (c.toNat - 0x10000) % 0x400]

def utf16 (s : String) : List ℕ := s.toList.flatMap codeUnits

def utf8 (s : String) : List ℕ := s.toByteArray.data.toList.map UInt8.toNat

/-- The number that a name spells as an array index. -/
def indexOf? (s : String) : Option ℕ :=
  let n := Nat.ofDigitChars 10 s.toList 0
  if Nat.toDigits 10 n = s.toList ∧ n < 4294967295 then some n else none

/-- Array indexes by their number, before the other names. -/
def indexFirst (rank : String → List ℕ) (s : String) : List ℕ :=
  match indexOf? s with
  | some n => [0, n]
  | none => 1 :: rank s

/-- The order in which an object lists names that were sorted before they were added. -/
def objectRank : String → List ℕ := indexFirst utf16

/-- The order of the names in a column. -/
def jsonbRank (s : String) : List ℕ := s.utf8ByteSize :: utf8 s

/-- The order in which an object lists the names read from a column. -/
def readRank : String → List ℕ := indexFirst jsonbRank

/-- A surrogate is no character, so the units of a character show where they end. -/
theorem codeUnits_append_inj {c d : Char} {r s : List ℕ} (h : codeUnits c ++ r = codeUnits d ++ s) :
    c = d ∧ r = s := by
  have hc : c.toNat < 0xD800 ∨ 0xDFFF < c.toNat ∧ c.toNat < 0x110000 := c.valid
  have hd : d.toNat < 0xD800 ∨ 0xDFFF < d.toNat ∧ d.toNat < 0x110000 := d.valid
  rw [← Char.toNat_inj]
  unfold codeUnits at h
  split at h <;> split at h
  all_goals simp only [List.cons_append, List.nil_append, List.cons.injEq] at h
  · exact h
  · omega
  · omega
  · exact ⟨by omega, h.2.2⟩

theorem utf16_injective : Function.Injective utf16 := by
  have hlist : ∀ a b : List Char, a.flatMap codeUnits = b.flatMap codeUnits → a = b := by
    intro a
    induction a with
    | nil =>
      intro b h
      cases b with
      | nil => rfl
      | cons d b =>
        rw [List.flatMap_nil, List.flatMap_cons] at h
        unfold codeUnits at h
        split at h <;> cases h
    | cons c a ih =>
      intro b h
      cases b with
      | nil =>
        rw [List.flatMap_nil, List.flatMap_cons] at h
        unfold codeUnits at h
        split at h <;> cases h
      | cons d b =>
        rw [List.flatMap_cons, List.flatMap_cons] at h
        obtain ⟨rfl, hrest⟩ := codeUnits_append_inj h
        rw [ih b hrest]
  exact fun s t h => String.ext (hlist s.toList t.toList h)

theorem utf8_injective : Function.Injective utf8 := by
  intro s t h
  have hbytes := List.map_injective_iff.mpr (fun _ _ h => UInt8.toNat_inj.mp h) h
  exact String.toByteArray_inj.mp (ByteArray.ext (Array.toList_inj.mp hbytes))

theorem jsonbRank_injective : Function.Injective jsonbRank :=
  fun _ _ h => utf8_injective (List.cons.inj h).2

theorem toDigits_of_indexOf? {s : String} {n : ℕ} (h : indexOf? s = some n) :
    s.toList = Nat.toDigits 10 n := by
  unfold indexOf? at h
  dsimp only at h
  split at h
  · next hs => rw [← Option.some.inj h, hs.1]
  · cases h

theorem indexFirst_injective {rank : String → List ℕ} (hrank : Function.Injective rank) :
    Function.Injective (indexFirst rank) := by
  intro s t h
  unfold indexFirst at h
  split at h <;> split at h
  · next n hs _ m ht =>
    have hnm : n = m := by simpa using h
    rw [hnm] at hs
    exact String.ext ((toDigits_of_indexOf? hs).trans (toDigits_of_indexOf? ht).symm)
  · cases h
  · cases h
  · exact hrank (List.cons.inj h).2

theorem objectRank_injective : Function.Injective objectRank := indexFirst_injective utf16_injective

theorem readRank_injective : Function.Injective readRank := indexFirst_injective jsonbRank_injective

/-! ### Strings in a column -/

section Strings

variable {ν : Type*}

mutual

/-- No string and no name has the character that a column cannot hold. -/
def withoutNul : Value ν → Bool
  | .array vs => elementsWithoutNul vs
  | .object ms => membersWithoutNul ms
  | .string s => !s.toList.contains '\x00'
  | .null => true
  | .bool _ => true
  | .number _ => true

def elementsWithoutNul : List (Value ν) → Bool
  | [] => true
  | v :: vs => withoutNul v && elementsWithoutNul vs

def membersWithoutNul : List (String × Value ν) → Bool
  | [] => true
  | (k, v) :: ms => !k.toList.contains '\x00' && withoutNul v && membersWithoutNul ms

end

end Strings

/-! ### The column -/

/-- A value of a column of type `JSONB`. -/
structure Jsonb where
  value : Value ℚ
  inOrder : everyObject (sorted jsonbRank) value = true

/-- The value that a column keeps, which is refused with a zero character. -/
def Jsonb.write? (v : Value Double) (h : everyObject unique v = true) : Option Jsonb :=
  if withoutNul v then
    some {
      value := sortDeep jsonbRank (mapNumbers (fun d => some d.decimalValue) v)
      inOrder := sorted_sortDeep jsonbRank_injective ((everyObject_mapNumbers _).mpr h) }
  else none

/-- The value that `JSON.parse` reads. A number beyond the doubles is read as infinite, which is written
as null. -/
def Jsonb.read (j : Jsonb) : Value Double := sortDeep readRank (mapNumbers Double.ofRat? j.value)

theorem Jsonb.sorted_read (j : Jsonb) : everyObject (sorted readRank) j.read = true :=
  sorted_sortDeep readRank_injective
    ((everyObject_mapNumbers _).mpr (unique_of_everySorted j.inOrder))

/-- A value comes back with its members in the order of the column. -/
theorem Jsonb.read_write {v : Value Double} {h : everyObject unique v = true} {j : Jsonb}
    (hj : Jsonb.write? v h = some j) : j.read = sortDeep readRank v := by
  unfold Jsonb.write? at hj
  split at hj
  · obtain rfl := Option.some.inj hj
    unfold Jsonb.read
    rw [mapNumbers_sortDeep, mapNumbers_mapNumbers _ Double.ofRat?_decimalValue,
      sortDeep_sortDeep readRank_injective h]
  · cases hj

end JsonText
