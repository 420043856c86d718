import NovaPay.Audit.Metadata

/-!
# The sanitizer

`sanitizeMetadata` accepts exactly the metadata whose values are within its bounds wherever they stand, and
returns it with the keys of every object sorted. What it returns it accepts again, and returns as it is.
-/

namespace NovaPay.Audit

open JsonText

/-- What the sanitizer asks of a value, apart from where it stands. -/
def Allowed : Value Double → Prop
  | .null => True
  | .bool _ => True
  | .number _ => True
  | .string s => (utf16 s).length ≤ 256
  | .array vs => vs.length ≤ 20
  | .object ms => ms.length ≤ 40 ∧ ∀ m ∈ ms, isSafeKey m.1 = true ∧ isDeniedKey m.1 = false

/-- Every value in a value is allowed, and at most four deep when the first is at a depth. -/
def Bounded (depth : ℕ) (v : Value Double) : Prop :=
  ∀ n w, Within v n w → depth + n ≤ 4 ∧ Allowed w

/-! ### The bounds -/

theorem bounded_leaf {v : Value Double} {depth : ℕ} (h : ∀ n w, Within v n w → n = 0 ∧ w = v) :
    Bounded depth v ↔ depth ≤ 4 ∧ Allowed v := by
  constructor
  · exact fun hb => hb 0 v (.here v)
  · rintro hb n w hw
    obtain ⟨rfl, rfl⟩ := h n w hw
    exact hb

theorem bounded_array {vs : List (Value Double)} {depth : ℕ} : Bounded depth (.array vs) ↔
    depth ≤ 4 ∧ vs.length ≤ 20 ∧ ∀ v ∈ vs, Bounded (depth + 1) v := by
  rw [Bounded, forall_within_array, and_assoc]
  refine and_congr_right fun _ => and_congr_right fun _ => forall₂_congr fun v _ => ?_
  simp only [Bounded, Nat.add_assoc, Nat.add_comm 1]

theorem bounded_object {ms : List (String × Value Double)} {depth : ℕ} : Bounded depth (.object ms) ↔
    depth ≤ 4 ∧ (ms.length ≤ 40 ∧ ∀ m ∈ ms, isSafeKey m.1 = true ∧ isDeniedKey m.1 = false) ∧
      ∀ m ∈ ms, Bounded (depth + 1) m.2 := by
  rw [Bounded, forall_within_object, and_assoc]
  refine and_congr_right fun _ => and_congr_right fun _ => forall₂_congr fun m _ => ?_
  simp only [Bounded, Nat.add_assoc, Nat.add_comm 1]

theorem allowed_sortDeep {v : Value Double} : Allowed (sortDeep objectRank v) ↔ Allowed v := by
  cases v with
  | array vs => simp [sortDeep_array, Allowed]
  | object ms =>
    have hlength : (sortKeys objectRank (ms.map (Prod.map id (sortDeep objectRank)))).length = ms.length :=
      (perm_sortKeys objectRank _).length_eq.trans (List.length_map _)
    rw [sortDeep_object, Allowed, Allowed, hlength]
    simp only [mem_sortKeys, List.forall_mem_map]
    rfl
  | null | bool | number | string => exact Iff.rfl

theorem bounded_sortDeep {v : Value Double} {depth : ℕ} :
    Bounded depth (sortDeep objectRank v) ↔ Bounded depth v := by
  rw [Bounded, forall_within_sortDeep]
  exact forall₃_congr fun n w _ => and_congr_right fun _ => allowed_sortDeep

/-! ### What is accepted -/

section Accepted

variable {v : Value Double} {vs : List (Value Double)} {ms : List (String × Value Double)} {depth : ℕ}

theorem sanitizeElements_ok_iff : (∃ ws, sanitizeElements vs depth = .ok ws) ↔
    ∀ v ∈ vs, ∃ w, sanitizeValue v depth = .ok w := by
  induction vs with
  | nil => simp [sanitizeElements]
  | cons v vs ih =>
    rw [List.forall_mem_cons, ← ih, sanitizeElements]
    constructor
    · rintro ⟨ws, h⟩
      obtain ⟨item, hitem, h⟩ := Relational.bind_eq_ok h
      obtain ⟨items, hitems, -⟩ := Relational.bind_eq_ok h
      exact ⟨⟨item, hitem⟩, ⟨items, hitems⟩⟩
    · rintro ⟨⟨item, hitem⟩, ⟨items, hitems⟩⟩
      rw [hitem, Relational.ok_bind, hitems]
      exact ⟨_, rfl⟩

theorem sanitizeMembers_ok_iff : (∃ ns, sanitizeMembers ms depth = .ok ns) ↔
    ∀ m ∈ ms, (isSafeKey m.1 = true ∧ isDeniedKey m.1 = false) ∧
      ∃ w, sanitizeValue m.2 depth = .ok w := by
  induction ms with
  | nil => simp [sanitizeMembers]
  | cons m ms ih =>
    obtain ⟨key, v⟩ := m
    rw [List.forall_mem_cons, ← ih, sanitizeMembers]
    by_cases hkey : isSafeKey key = true ∧ isDeniedKey key = false
    · have hpasses : (!isSafeKey key || isDeniedKey key) = false := by simp [hkey]
      rw [hpasses]
      constructor
      · rintro ⟨ns, h⟩
        obtain ⟨value, hvalue, h⟩ := Relational.bind_eq_ok h
        obtain ⟨result, hresult, -⟩ := Relational.bind_eq_ok h
        exact ⟨⟨hkey, value, hvalue⟩, ⟨result, hresult⟩⟩
      · rintro ⟨⟨-, value, hvalue⟩, ⟨result, hresult⟩⟩
        simp only [Bool.false_eq_true, if_false]
        rw [hvalue, Relational.ok_bind, hresult]
        exact ⟨_, rfl⟩
    · have hfails : (!isSafeKey key || isDeniedKey key) = true := by
        by_contra hpasses
        exact hkey (by simpa using hpasses)
      rw [hfails]
      constructor
      · rintro ⟨ns, h⟩
        cases h
      · rintro ⟨⟨hpasses, -⟩, -⟩
        exact absurd hpasses hkey

/-- A value is accepted at a depth exactly if everything in it is within the bounds. -/
theorem sanitizeValue_ok_iff : (∃ w, sanitizeValue v depth = .ok w) ↔ Bounded depth v := by
  induction v generalizing depth with
  | array vs ih =>
    rw [bounded_array, sanitizeValue]
    split
    · next hbound =>
      constructor
      · rintro ⟨w, h⟩
        cases h
      · rintro ⟨hdepth, hlength, -⟩
        omega
    · next hbound =>
      have hall : (∀ v ∈ vs, Bounded (depth + 1) v) ↔ ∃ ws, sanitizeElements vs (depth + 1) = .ok ws :=
        (forall₂_congr fun v hv => (ih v hv).symm).trans sanitizeElements_ok_iff.symm
      rw [hall]
      constructor
      · rintro ⟨w, h⟩
        obtain ⟨ws, hws, -⟩ := Relational.map_eq_ok h
        exact ⟨by omega, by omega, ws, hws⟩
      · rintro ⟨-, -, ws, hws⟩
        rw [hws]
        exact ⟨_, rfl⟩
  | object ms ih =>
    rw [bounded_object, sanitizeValue]
    split
    · next hbound =>
      constructor
      · rintro ⟨w, h⟩
        cases h
      · rintro ⟨hdepth, ⟨hlength, -⟩, -⟩
        omega
    · next hbound =>
      have hall : (∃ ns, sanitizeMembers ms (depth + 1) = .ok ns) ↔
          (∀ m ∈ ms, isSafeKey m.1 = true ∧ isDeniedKey m.1 = false) ∧ ∀ m ∈ ms, Bounded (depth + 1) m.2 := by
        rw [sanitizeMembers_ok_iff, ← forall₂_and]
        exact forall₂_congr fun m hm => and_congr_right fun _ => ih m hm
      constructor
      · rintro ⟨w, h⟩
        obtain ⟨ns, hns, -⟩ := Relational.map_eq_ok h
        obtain ⟨hkeys, hvalues⟩ := hall.mp ⟨ns, hns⟩
        exact ⟨by omega, ⟨by omega, hkeys⟩, hvalues⟩
      · rintro ⟨-, ⟨-, hkeys⟩, hvalues⟩
        obtain ⟨ns, hns⟩ := hall.mpr ⟨hkeys, hvalues⟩
        rw [hns]
        exact ⟨_, rfl⟩
  | string s =>
    rw [bounded_leaf (fun n w hw => by cases hw; exact ⟨rfl, rfl⟩), sanitizeValue, Allowed]
    split
    · next hbound =>
      constructor
      · rintro ⟨w, h⟩
        cases h
      · rintro ⟨hdepth, hlength⟩
        omega
    · next hbound => exact ⟨fun _ => by omega, fun _ => ⟨_, rfl⟩⟩
  | null | bool | number =>
    rw [bounded_leaf (fun n w hw => by cases hw; exact ⟨rfl, rfl⟩), sanitizeValue, Allowed, and_true]
    split
    · next hbound =>
      constructor
      · rintro ⟨w, h⟩
        cases h
      · intro hdepth
        omega
    · next hbound => exact ⟨fun _ => by omega, fun _ => ⟨_, rfl⟩⟩

/-! There is one error, wherever the sanitizer stops. -/

theorem sanitizeElements_error {e : HttpError}
    (hvalue : ∀ v ∈ vs, ∀ e, sanitizeValue v depth = .error e → e = rejectedMetadata)
    (h : sanitizeElements vs depth = .error e) : e = rejectedMetadata := by
  induction vs with
  | nil =>
    rw [sanitizeElements] at h
    cases h
  | cons v vs ih =>
    obtain ⟨hv, hvs⟩ := List.forall_mem_cons.mp hvalue
    rw [sanitizeElements] at h
    rcases Relational.bind_eq_error h with hitem | ⟨item, -, h⟩
    · exact hv e hitem
    rcases Relational.bind_eq_error h with hitems | ⟨items, -, h⟩
    · exact ih hvs hitems
    · cases h

theorem sanitizeMembers_error {e : HttpError}
    (hvalue : ∀ m ∈ ms, ∀ e, sanitizeValue m.2 depth = .error e → e = rejectedMetadata)
    (h : sanitizeMembers ms depth = .error e) : e = rejectedMetadata := by
  induction ms with
  | nil =>
    rw [sanitizeMembers] at h
    cases h
  | cons m ms ih =>
    obtain ⟨key, v⟩ := m
    obtain ⟨hv, hms⟩ := List.forall_mem_cons.mp hvalue
    rw [sanitizeMembers] at h
    split at h
    · cases h
      rfl
    rcases Relational.bind_eq_error h with hvalue | ⟨value, -, h⟩
    · exact hv e hvalue
    rcases Relational.bind_eq_error h with hresult | ⟨result, -, h⟩
    · exact ih hms hresult
    · cases h

theorem sanitizeValue_error {e : HttpError} (h : sanitizeValue v depth = .error e) : e = rejectedMetadata := by
  induction v generalizing depth e with
  | array vs ih =>
    rw [sanitizeValue] at h
    split at h
    · cases h
      rfl
    · cases hitems : sanitizeElements vs (depth + 1) with
      | ok ws =>
        rw [hitems] at h
        cases h
      | error e' =>
        rw [hitems] at h
        cases h
        exact sanitizeElements_error (fun v hv e => ih v hv) hitems
  | object ms ih =>
    rw [sanitizeValue] at h
    split at h
    · cases h
      rfl
    · cases hresult : sanitizeMembers ms (depth + 1) with
      | ok ns =>
        rw [hresult] at h
        cases h
      | error e' =>
        rw [hresult] at h
        cases h
        exact sanitizeMembers_error (fun m hm e => ih m hm) hresult
  | null | bool | number | string =>
    rw [sanitizeValue] at h
    split at h <;> cases h
    rfl

end Accepted

/-! ### The order of safe keys -/

theorem not_isDigit_of_isAlpha {c : Char} (h : c.isAlpha = true) : ¬ c.isDigit = true := by
  have hletter : (decide (65 ≤ c.val ∧ c.val ≤ 90) || (decide (97 ≤ c.val) && decide (c.val ≤ 122))) =
    true := h
  intro hd
  have hdigit : (decide (48 ≤ c.val) && decide (c.val ≤ 57)) = true := hd
  simp only [Bool.or_eq_true, Bool.and_eq_true, decide_eq_true_eq, UInt32.le_iff_toNat_le] at hletter hdigit
  simp at hletter hdigit
  omega

theorem objectRank_of_isSafeKey {key : String} (h : isSafeKey key = true) : objectRank key = 1 :: utf16 key := by
  have hindex : indexOf? key = none := by
    cases hn : indexOf? key with
    | none => rfl
    | some n =>
      -- a safe key starts with a letter, an index with a digit
      have hdigits := toDigits_of_indexOf? hn
      rw [isSafeKey] at h
      cases hkey : key.toList with
      | nil =>
        rw [hkey] at h
        cases h
      | cons c cs =>
        rw [hkey] at h hdigits
        have hletter : c.isAlpha = true := by
          simp only [Bool.and_eq_true] at h
          exact h.1.1
        have hdigit : c.isDigit = true :=
          Nat.isDigit_of_mem_toDigits (by decide) (by decide) (hdigits ▸ List.mem_cons_self)
        exact absurd hdigit (not_isDigit_of_isAlpha hletter)
  rw [objectRank, indexFirst, hindex]

/-- Keys that are no indexes are listed in the order of their code units. -/
theorem sorted_utf16 {v : Value Double} {depth : ℕ} (h : everyObject (sorted objectRank) v = true)
    (hbounded : Bounded depth v) : everyObject (sorted utf16) v = true := by
  induction v generalizing depth with
  | array vs ih =>
    rw [everyObject_array] at h ⊢
    obtain ⟨-, -, hvs⟩ := bounded_array.mp hbounded
    exact fun v hv => ih v hv (h v hv) (hvs v hv)
  | object ms ih =>
    rw [everyObject_object] at h ⊢
    obtain ⟨-, ⟨-, hkeys⟩, hms⟩ := bounded_object.mp hbounded
    refine ⟨sorted_iff.mpr ((sorted_iff.mp h.1).imp_of_mem fun {a b} ha hb hlt => ?_),
      fun m hm => ih m hm (h.2 m hm) (hms m hm)⟩
    obtain ⟨m, hm, rfl⟩ := List.mem_map.mp ha
    obtain ⟨n, hn, rfl⟩ := List.mem_map.mp hb
    rw [objectRank_of_isSafeKey (hkeys m hm).1, objectRank_of_isSafeKey (hkeys n hn).1] at hlt
    simpa using hlt
  | null | bool | number | string => rfl

/-! ### Metadata -/

theorem SafeMetadata.unique_again (ms : SafeMetadata) : everyObject unique (.object ms.val) = true :=
  unique_of_everySorted ms.property

/-- What was accepted, as a request could carry it. -/
def SafeMetadata.again (ms : SafeMetadata) : Metadata := ⟨ms.val, ms.unique_again⟩

theorem sanitizeValue_object {ms : List (String × Value Double)} {depth : ℕ} :
    sanitizeValue (.object ms) depth = (sanitizeObject ms depth).map .object := by
  rw [sanitizeValue, sanitizeObject]
  split
  · rfl
  · cases sanitizeMembers ms (depth + 1) <;> rfl

theorem sanitizeMetadata_ok_iff {m : Metadata} :
    (∃ ms, sanitizeMetadata m = .ok ms) ↔ Bounded 0 (.object m.val) := by
  rw [← sanitizeValue_ok_iff, sanitizeValue_object]
  unfold sanitizeMetadata
  constructor
  · rintro ⟨ms, h⟩
    split at h
    · cases h
    · next hm =>
      rw [hm]
      exact ⟨_, rfl⟩
  · rintro ⟨w, h⟩
    obtain ⟨ns, hns, -⟩ := Relational.map_eq_ok h
    split
    · next hm =>
      rw [hns] at hm
      cases hm
    · exact ⟨_, rfl⟩

theorem sanitizeMetadata_error {m : Metadata} {e : HttpError} (h : sanitizeMetadata m = .error e) :
    e = rejectedMetadata := by
  unfold sanitizeMetadata at h
  split at h
  · next hm =>
    cases h
    have hvalue : sanitizeValue (.object m.val) 0 = .error e := by
      rw [sanitizeValue_object, hm]
      rfl
    exact sanitizeValue_error hvalue
  · cases h

theorem sanitizeMetadata_again {m : Metadata} {ms : SafeMetadata} (h : sanitizeMetadata m = .ok ms) :
    sanitizeMetadata ms.again = .ok ms := by
  have hbounded : Bounded 0 (.object ms.val) := by
    rw [sanitizeMetadata_eq h, bounded_sortDeep]
    exact sanitizeMetadata_ok_iff.mp ⟨ms, h⟩
  obtain ⟨ns, hns⟩ : ∃ ns, sanitizeMetadata ms.again = .ok ns := sanitizeMetadata_ok_iff.mpr hbounded
  have hsame : Value.object ns.val = .object ms.val :=
    (sanitizeMetadata_eq hns).trans (sortDeep_of_sorted ms.property)
  rw [hns, Subtype.ext (Value.object.inj hsame)]

/-- Metadata is rejected, or everything in it is within the bounds, and it is returned with the keys in
the order of their code units at every depth, and returned as it is when it is sanitised again. -/
theorem metadata_sanitized (m : Metadata) :
    match sanitizeMetadata m with
    | .error error => error = rejectedMetadata ∧ ¬ Bounded 0 (.object m.val)
    | .ok ms => Bounded 0 (.object m.val) ∧ Value.object ms.val = sortDeep utf16 (.object m.val) ∧
      everyObject (sorted utf16) (.object ms.val) = true ∧ sanitizeMetadata ms.again = .ok ms := by
  cases h : sanitizeMetadata m with
  | error error =>
    refine ⟨sanitizeMetadata_error h, fun hbounded => ?_⟩
    obtain ⟨ms, hms⟩ := sanitizeMetadata_ok_iff.mpr hbounded
    rw [h] at hms
    cases hms
  | ok ms =>
    have hbounded := sanitizeMetadata_ok_iff.mp ⟨ms, h⟩
    have heq := sanitizeMetadata_eq h
    have hsorted : everyObject (sorted utf16) (.object ms.val) = true := by
      refine @sorted_utf16 _ 0 ms.property ?_
      rw [heq, bounded_sortDeep]
      exact hbounded
    refine ⟨hbounded, ?_, hsorted, sanitizeMetadata_again h⟩
    have horder : sortDeep utf16 (sortDeep objectRank (.object m.val)) = sortDeep utf16 (.object m.val) :=
      sortDeep_sortDeep utf16_injective m.property
    rw [← horder, ← heq, sortDeep_of_sorted hsorted]

end NovaPay.Audit
