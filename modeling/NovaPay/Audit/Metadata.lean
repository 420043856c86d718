import NovaPay.Library.Jsonb
import NovaPay.Library.Relational
import NovaPay.Wire

/-!
# Audit metadata

What the audit service accepts as metadata, the order it gives the members, and when the order that a
`JSONB` column gives them is taken back by it.
-/

namespace NovaPay.Audit

open JsonText

/-- The members of a plain object, in the order it lists them. -/
abbrev Metadata := { ms : List (String × Value Double) // everyObject unique (.object ms) = true }

def rejectedMetadata : HttpError :=
  ⟨400, "AUDIT_METADATA_REJECTED", "Audit metadata contains a disallowed key or value."⟩

/-! ### What is accepted -/

/-- `^[A-Za-z][A-Za-z0-9_.-]{0,63}$` -/
def isSafeKey (key : String) : Bool :=
  match key.toList with
  | [] => false
  | c :: cs => c.isAlpha && decide (cs.length ≤ 63) &&
      cs.all fun c => c.isAlphanum || decide (c = '_') || decide (c = '.') || decide (c = '-')

/-- The words of `DENIED_METADATA_KEY` before `legal.?name` and after it. -/
def deniedWords : List String :=
  ["authorization", "cookie", "token", "password", "secret", "card", "kek", "dek", "plaintext", "email",
    "phone", "address", "government", "tax", "identity"]

/-- Whether a text has a word somewhere. -/
def mentions (word : String) (cs : List Char) : Bool := cs.tails.any fun t => word.toList.isPrefixOf t

/-- `legal.?name` -/
def mentionsLegalName (cs : List Char) : Bool :=
  cs.tails.any fun t => "legal".toList.isPrefixOf t &&
    ("name".toList.isPrefixOf (t.drop 5) || "name".toList.isPrefixOf (t.drop 6))

/-- `DENIED_METADATA_KEY`, for a key that passes `SAFE_METADATA_KEY`. -/
def isDeniedKey (key : String) : Bool :=
  let cs := key.toList.map Char.toLower
  deniedWords.any (fun word => mentions word cs) || mentionsLegalName cs

mutual

def sanitizeValue : Value Double → ℕ → Except HttpError (Value Double)
  | .null, depth => if 4 < depth then .error rejectedMetadata else .ok .null
  | .bool b, depth => if 4 < depth then .error rejectedMetadata else .ok (.bool b)
  | .number n, depth => if 4 < depth then .error rejectedMetadata else .ok (.number n)
  | .string s, depth =>
    if 4 < depth ∨ 256 < (utf16 s).length then .error rejectedMetadata else .ok (.string s)
  | .array vs, depth =>
    if 4 < depth ∨ 20 < vs.length then .error rejectedMetadata
    else (sanitizeElements vs (depth + 1)).map .array
  | .object ms, depth =>
    if 4 < depth ∨ 40 < ms.length then .error rejectedMetadata
    else (sanitizeMembers ms (depth + 1)).map fun result => .object (sortKeys objectRank result)

def sanitizeElements : List (Value Double) → ℕ → Except HttpError (List (Value Double))
  | [], _ => .ok []
  | v :: vs, depth => do
    let item ← sanitizeValue v depth
    let items ← sanitizeElements vs depth
    return item :: items

/-- The loop over the keys. It fails with one error wherever it fails, so the keys are sorted after it. -/
def sanitizeMembers : List (String × Value Double) → ℕ →
    Except HttpError (List (String × Value Double))
  | [], _ => .ok []
  | (key, v) :: ms, depth => do
    if !isSafeKey key || isDeniedKey key then throw rejectedMetadata
    let value ← sanitizeValue v depth
    let result ← sanitizeMembers ms depth
    return (key, value) :: result

end

/-- `sanitizeObject`; the keys in the order of their code units, as the object then lists them. -/
def sanitizeObject (ms : List (String × Value Double)) (depth : ℕ) :
    Except HttpError (List (String × Value Double)) :=
  if 4 < depth ∨ 40 < ms.length then .error rejectedMetadata
  else (sanitizeMembers ms (depth + 1)).map (sortKeys objectRank)

/-! What is accepted comes back as it was, in the order of the code units at every depth. -/

mutual

theorem sanitizeValue_eq {v w : Value Double} {depth : ℕ} (h : sanitizeValue v depth = .ok w) :
    w = sortDeep objectRank v := by
  cases v with
  | null | bool | number | string =>
    rw [sanitizeValue] at h
    split at h
    · cases h
    · exact (Except.ok.inj h).symm
  | array vs =>
    rw [sanitizeValue] at h
    split at h
    · cases h
    · obtain ⟨ws, hws, rfl⟩ := Relational.map_eq_ok h
      rw [sortDeep_array, sanitizeElements_eq hws]
  | object ms =>
    rw [sanitizeValue] at h
    split at h
    · cases h
    · obtain ⟨ns, hns, rfl⟩ := Relational.map_eq_ok h
      rw [sortDeep_object, sanitizeMembers_eq hns]

theorem sanitizeElements_eq {vs ws : List (Value Double)} {depth : ℕ}
    (h : sanitizeElements vs depth = .ok ws) : ws = vs.map (sortDeep objectRank) := by
  cases vs with
  | nil =>
    rw [sanitizeElements] at h
    cases h
    rfl
  | cons v vs =>
    rw [sanitizeElements] at h
    obtain ⟨item, hitem, h⟩ := Relational.bind_eq_ok h
    obtain ⟨items, hitems, h⟩ := Relational.bind_eq_ok h
    cases h
    rw [sanitizeValue_eq hitem, sanitizeElements_eq hitems, List.map_cons]

theorem sanitizeMembers_eq {ms ns : List (String × Value Double)} {depth : ℕ}
    (h : sanitizeMembers ms depth = .ok ns) : ns = ms.map (Prod.map id (sortDeep objectRank)) := by
  match ms with
  | [] =>
    rw [sanitizeMembers] at h
    cases h
    rfl
  | (key, v) :: ms =>
    rw [sanitizeMembers] at h
    split at h
    · cases h
    · obtain ⟨value, hvalue, h⟩ := Relational.bind_eq_ok h
      obtain ⟨result, hresult, h⟩ := Relational.bind_eq_ok h
      cases h
      rw [sanitizeValue_eq hvalue, sanitizeMembers_eq hresult, List.map_cons]
      rfl

end

theorem sanitizeObject_eq {ms ns : List (String × Value Double)} {depth : ℕ}
    (h : sanitizeObject ms depth = .ok ns) : Value.object ns = sortDeep objectRank (.object ms) := by
  unfold sanitizeObject at h
  split at h
  · cases h
  · obtain ⟨result, hresult, rfl⟩ := Relational.map_eq_ok h
    rw [sortDeep_object, sanitizeMembers_eq hresult]

/-- Metadata as it was accepted. -/
abbrev SafeMetadata :=
  { ms : List (String × Value Double) // everyObject (sorted objectRank) (.object ms) = true }

theorem sorted_sanitizeObject {m : Metadata} {ns : List (String × Value Double)} {depth : ℕ}
    (h : sanitizeObject m.val depth = .ok ns) :
    everyObject (sorted objectRank) (.object ns) = true := by
  rw [sanitizeObject_eq h]
  exact sorted_sortDeep objectRank_injective m.property

def sanitizeMetadata (m : Metadata) : Except HttpError SafeMetadata :=
  match h : sanitizeObject m.val 0 with
  | .error e => .error e
  | .ok ms => .ok ⟨ms, sorted_sanitizeObject h⟩

theorem sanitizeMetadata_eq {m : Metadata} {ms : SafeMetadata} (h : sanitizeMetadata m = .ok ms) :
    Value.object ms.val = sortDeep objectRank (.object m.val) := by
  unfold sanitizeMetadata at h
  split at h
  · cases h
  · next hm =>
    obtain rfl := Except.ok.inj h
    exact sanitizeObject_eq hm

/-! ### The order before hashing -/

section SortObject

variable {ν : Type*}

mutual

/-- A member's value or an element of an array as `sortObject` leaves it. The objects in an array are
sorted, an array in an array is not looked into. -/
def sortValue (element : Bool) : Value ν → Value ν
  | .object ms => .object (sortKeys objectRank (sortValues ms))
  | .array vs => if element then .array vs else .array (sortItems vs)
  | .null => .null
  | .bool b => .bool b
  | .number n => .number n
  | .string s => .string s

def sortItems : List (Value ν) → List (Value ν)
  | [] => []
  | v :: vs => sortValue true v :: sortItems vs

def sortValues : List (String × Value ν) → List (String × Value ν)
  | [] => []
  | (key, v) :: ms => (key, sortValue false v) :: sortValues ms

end

def sortObject (ms : List (String × Value ν)) : List (String × Value ν) :=
  sortKeys objectRank (sortValues ms)

theorem sortItems_eq (vs : List (Value ν)) : sortItems vs = vs.map (sortValue true) := by
  induction vs with
  | nil => rfl
  | cons v vs ih => rw [sortItems, ih, List.map_cons]

theorem sortValues_eq (ms : List (String × Value ν)) :
    sortValues ms = ms.map (Prod.map id (sortValue false)) := by
  induction ms with
  | nil => rfl
  | cons m ms ih => rw [sortValues, ih, List.map_cons]; rfl

theorem sortValue_array (vs : List (Value ν)) :
    sortValue false (.array vs) = .array (vs.map (sortValue true)) := by
  rw [sortValue, if_neg (by decide), sortItems_eq]

theorem sortValue_object (element : Bool) (ms : List (String × Value ν)) :
    sortValue element (.object ms) =
      .object (sortKeys objectRank (ms.map (Prod.map id (sortValue false)))) := by
  rw [sortValue, sortValues_eq]

theorem object_sortObject (ms : List (String × Value ν)) :
    Value.object (sortObject ms) = sortValue false (.object ms) := by
  rw [sortValue]
  rfl

/-- `sortObject` changes the order only. -/
theorem sortDeep_sortValue {κ : Type*} [LinearOrder κ] {rank : String → κ}
    (hrank : Function.Injective rank) {v : Value ν} (h : everyObject unique v = true) (element : Bool) :
    sortDeep rank (sortValue element v) = sortDeep rank v := by
  induction v generalizing element with
  | array vs ih =>
    cases element with
    | true => rw [sortValue, if_pos rfl]
    | false =>
      rw [everyObject_array] at h
      rw [sortValue_array, sortDeep_array, sortDeep_array, List.map_map]
      exact congrArg Value.array (List.map_congr_left fun v hv => ih v hv (h v hv) true)
  | object ms ih =>
    rw [everyObject_object] at h
    have hsame : (ms.map (Prod.map id (sortValue false))).map (Prod.map id (sortDeep rank)) =
        ms.map (Prod.map id (sortDeep rank)) := by
      rw [List.map_map]
      exact List.map_congr_left fun m hm => Prod.ext rfl (ih m hm (h.2 m hm) false)
    rw [sortValue_object, sortDeep_object, sortDeep_object, sortKeys_map, hsame,
      sortKeys_sortKeys hrank (by rw [keys_map]; exact h.1)]
  | _ => rfl

/-- A value in order at every depth stays as it is. -/
theorem sortValue_of_sorted {v : Value ν} (h : everyObject (sorted objectRank) v = true)
    (element : Bool) : sortValue element v = v := by
  induction v generalizing element with
  | array vs ih =>
    cases element with
    | true => rw [sortValue, if_pos rfl]
    | false =>
      rw [everyObject_array] at h
      rw [sortValue_array, map_eq_self_iff.mpr fun v hv => ih v hv (h v hv) true]
  | object ms ih =>
    rw [everyObject_object] at h
    rw [sortValue_object, map_values_eq_self_iff.mpr fun m hm => ih m hm (h.2 m hm) false,
      sortKeys_of_sorted h.1]
  | _ => rfl

end SortObject

/-! ### Arrays in arrays -/

section KeepsOrder

variable {ν : Type*}

mutual

/-- The objects in an array that lies directly in an array are, at every depth, in the order that a column
gives them. -/
def keepsOrder (element : Bool) : Value ν → Bool
  | .object ms => membersKeepOrder ms
  | .array vs => if element then everyObject (sorted readRank) (.array vs) else elementsKeepOrder vs
  | .null => true
  | .bool _ => true
  | .number _ => true
  | .string _ => true

def elementsKeepOrder : List (Value ν) → Bool
  | [] => true
  | v :: vs => keepsOrder true v && elementsKeepOrder vs

def membersKeepOrder : List (String × Value ν) → Bool
  | [] => true
  | (_, v) :: ms => keepsOrder false v && membersKeepOrder ms

end

theorem keepsOrder_array {vs : List (Value ν)} :
    keepsOrder false (.array vs) = true ↔ ∀ v ∈ vs, keepsOrder true v = true := by
  rw [keepsOrder, if_neg (by decide)]
  induction vs with
  | nil => simp [elementsKeepOrder]
  | cons v vs ih => simp [elementsKeepOrder, ih]

theorem keepsOrder_object {element : Bool} {ms : List (String × Value ν)} :
    keepsOrder element (.object ms) = true ↔ ∀ m ∈ ms, keepsOrder false m.2 = true := by
  rw [keepsOrder]
  induction ms with
  | nil => simp [membersKeepOrder]
  | cons m ms ih => simp [membersKeepOrder, ih]

/-- `sortObject` takes back the order of a column exactly if it kept the arrays it does not look into. -/
theorem sortValue_sortDeep_eq_iff {v : Value ν} (h : everyObject (sorted objectRank) v = true)
    (element : Bool) : sortValue element (sortDeep readRank v) = v ↔ keepsOrder element v = true := by
  induction v generalizing element with
  | array vs ih =>
    cases element with
    | true =>
      rw [sortDeep_array, sortValue, if_pos rfl, ← sortDeep_array, keepsOrder, if_pos rfl]
      constructor
      · intro heq
        rw [← heq]
        exact sorted_sortDeep readRank_injective (unique_of_everySorted h)
      · exact sortDeep_of_sorted
    | false =>
      rw [everyObject_array] at h
      rw [sortDeep_array, sortValue_array, keepsOrder_array, Value.array.injEq, List.map_map]
      constructor
      · intro heq v hv
        exact (ih v hv (h v hv) true).mp (map_eq_self_iff.mp heq v hv)
      · intro hkeeps
        exact map_eq_self_iff.mpr fun v hv => (ih v hv (h v hv) true).mpr (hkeeps v hv)
  | object ms ih =>
    rw [everyObject_object] at h
    rw [sortDeep_object, sortValue_object, sortKeys_map, map_values_map,
      sortKeys_sortKeys objectRank_injective (by rw [keys_map]; exact unique_of_sorted h.1),
      sortKeys_of_sorted (by rw [keys_map]; exact h.1), Value.object.injEq, map_values_eq_self_iff,
      keepsOrder_object]
    exact forall₂_congr fun m hm => ih m hm (h.2 m hm) false
  | null => simp [sortDeep, sortValue, keepsOrder]
  | bool => simp [sortDeep, sortValue, keepsOrder]
  | number => simp [sortDeep, sortValue, keepsOrder]
  | string => simp [sortDeep, sortValue, keepsOrder]

end KeepsOrder

/-! ### Metadata in a column -/

/-- The members of a value that was read; a value that is no object has none. -/
def asMetadata : Value Double → List (String × Value Double)
  | .object ms => ms
  | _ => []

def canonicalMetadata (ms : List (String × Value Double)) : List Char :=
  stringify Double.jsonFormat (.object (sortObject ms))

theorem canonicalMetadata_eq_iff {ms ns : List (String × Value Double)} :
    canonicalMetadata ms = canonicalMetadata ns ↔ sortObject ms = sortObject ns :=
  (stringify_injective _).eq_iff.trans (by rw [Value.object.injEq])

theorem sorted_asMetadata (j : Jsonb) :
    everyObject (sorted readRank) (.object (asMetadata j.read)) = true := by
  have h := j.sorted_read
  cases hread : j.read with
  | object ms =>
    rw [hread] at h
    exact h
  | _ => rfl

/-- The order that `sortObject` gives what was read of a column can be taken back. -/
theorem sortDeep_sortObject (j : Jsonb) :
    sortDeep readRank (.object (sortObject (asMetadata j.read))) = .object (asMetadata j.read) := by
  have hsorted := sorted_asMetadata j
  rw [object_sortObject, sortDeep_sortValue readRank_injective (unique_of_everySorted hsorted),
    sortDeep_of_sorted hsorted]

namespace SafeMetadata

variable {m n : SafeMetadata} {j : Jsonb}

/-- What the column keeps. -/
def write? (m : SafeMetadata) : Option Jsonb :=
  Jsonb.write? (.object m.val) (unique_of_everySorted m.property)

/-- An array in an array comes back from the column as it was. -/
def KeepsOrder (m : SafeMetadata) : Prop := keepsOrder false (.object m.val) = true

theorem sortObject_eq (m : SafeMetadata) : sortObject m.val = m.val := by
  have h := object_sortObject m.val
  rw [sortValue_of_sorted m.property] at h
  exact Value.object.inj h

theorem object_asMetadata (h : m.write? = some j) :
    Value.object (asMetadata j.read) = sortDeep readRank (.object m.val) := by
  rw [Jsonb.read_write h, sortDeep_object]
  rfl

theorem sortObject_read_iff (h : m.write? = some j) :
    sortObject (asMetadata j.read) = m.val ↔ m.KeepsOrder := by
  rw [KeepsOrder, ← sortValue_sortDeep_eq_iff m.property, ← object_asMetadata h, ← object_sortObject,
    Value.object.injEq]

/-- A column that `sortObject` makes the metadata of is read as the one that it was written to. -/
theorem asMetadata_eq_of_sortObject {k : Jsonb} (h : m.write? = some j)
    (hk : sortObject (asMetadata k.read) = m.val) : asMetadata k.read = asMetadata j.read := by
  have hobject := object_asMetadata h
  rw [← hk, sortDeep_sortObject] at hobject
  exact (Value.object.inj hobject).symm

/-- The metadata that was written can be told from what is read, whatever was sorted of it. -/
theorem eq_of_sortObject_read (h : m.write? = some j)
    (hn : sortObject (asMetadata j.read) = n.val) : m = n := by
  have hread := object_asMetadata h
  have hunique := unique_of_everySorted (sorted_asMetadata j)
  have hobject : Value.object m.val = .object n.val := calc
    Value.object m.val = sortDeep objectRank (.object m.val) := (sortDeep_of_sorted m.property).symm
    _ = sortDeep objectRank (.object (asMetadata j.read)) := by
      rw [hread, sortDeep_sortDeep objectRank_injective (unique_of_everySorted m.property)]
    _ = sortDeep objectRank (.object n.val) := by
      rw [← hn, object_sortObject, sortDeep_sortValue objectRank_injective hunique]
    _ = .object n.val := sortDeep_of_sorted n.property
  exact Subtype.ext (Value.object.inj hobject)

end SafeMetadata

end NovaPay.Audit
