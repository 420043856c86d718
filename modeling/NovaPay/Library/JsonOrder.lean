import Mathlib.Data.List.Sort
import NovaPay.Library.JsonText

/-!
# The order of the members of objects

Objects with the same members in another order are different values here, as they are to whoever writes
their text. A rank of the names gives every object one order; putting a value in that order, at every
depth, forgets any order it had before.
-/

namespace JsonText

variable {ν μ κ κ' α β : Type*} [LinearOrder κ] [LinearOrder κ']

/-- A value is built from the values in it. -/
@[induction_eliminator]
theorem Value.ind {P : Value ν → Prop} (null : P .null) (bool : ∀ b, P (.bool b))
    (number : ∀ n, P (.number n)) (string : ∀ s, P (.string s))
    (array : ∀ vs, (∀ v ∈ vs, P v) → P (.array vs))
    (object : ∀ ms, (∀ m ∈ ms, P m.2) → P (.object ms)) (v : Value ν) : P v := by
  refine @Value.rec ν P (fun vs => ∀ v ∈ vs, P v) (fun ms => ∀ m ∈ ms, P m.2) (fun m => P m.2)
    null bool number string array object ?_ ?_ ?_ ?_ ?_ v
  · intro w hw
    cases hw
  · intro v vs hv hvs w hw
    obtain rfl | hw := List.mem_cons.mp hw
    · exact hv
    · exact hvs w hw
  · intro m hm
    cases hm
  · intro m ms hm hms m' hm'
    obtain rfl | hm' := List.mem_cons.mp hm'
    · exact hm
    · exact hms m' hm'
  · intro k v hv
    exact hv

/-! ### The order of a list of members -/

/-- The members in the order of a rank of their names. -/
def sortKeys (rank : String → κ) (ms : List (String × α)) : List (String × α) :=
  ms.insertionSort fun a b => rank a.1 ≤ rank b.1

/-- The names are listed in the order of a rank, none of them twice. -/
def sorted (rank : String → κ) (keys : List String) : Bool :=
  decide (keys.Pairwise fun a b => rank a < rank b)

/-- No name is listed twice. -/
def unique (keys : List String) : Bool := decide keys.Nodup

section SortKeys

variable {rank : String → κ} {ms : List (String × α)}

theorem sorted_iff {keys : List String} :
    sorted rank keys = true ↔ keys.Pairwise fun a b => rank a < rank b := decide_eq_true_iff

theorem unique_iff {keys : List String} : unique keys = true ↔ keys.Nodup := decide_eq_true_iff

theorem unique_of_sorted {keys : List String} (h : sorted rank keys = true) : unique keys = true :=
  unique_iff.mpr ((sorted_iff.mp h).imp fun hlt heq => hlt.ne (congrArg rank heq))

theorem perm_sortKeys (rank : String → κ) (ms : List (String × α)) : (sortKeys rank ms).Perm ms :=
  List.perm_insertionSort _ ms

theorem mem_sortKeys {m : String × α} : m ∈ sortKeys rank ms ↔ m ∈ ms := (perm_sortKeys rank ms).mem_iff

theorem pairwise_sortKeys (rank : String → κ) (ms : List (String × α)) :
    (sortKeys rank ms).Pairwise fun a b => rank a.1 ≤ rank b.1 := by
  have htotal : Std.Total fun a b : String × α => rank a.1 ≤ rank b.1 := ⟨fun _ _ => le_total _ _⟩
  have htrans : IsTrans (String × α) fun a b => rank a.1 ≤ rank b.1 := ⟨fun _ _ _ => le_trans⟩
  exact List.pairwise_insertionSort _ ms

theorem unique_sortKeys (h : unique (ms.map Prod.fst) = true) :
    unique ((sortKeys rank ms).map Prod.fst) = true :=
  unique_iff.mpr (((perm_sortKeys rank ms).map Prod.fst).nodup_iff.mpr (unique_iff.mp h))

theorem sorted_sortKeys (hrank : Function.Injective rank) (h : unique (ms.map Prod.fst) = true) :
    sorted rank ((sortKeys rank ms).map Prod.fst) = true := by
  have hne : (sortKeys rank ms).Pairwise fun a b => a.1 ≠ b.1 :=
    List.pairwise_map.mp (unique_iff.mp (unique_sortKeys h))
  have hlt := (pairwise_sortKeys rank ms).and hne
  exact sorted_iff.mpr (List.pairwise_map.mpr (hlt.imp fun hab =>
    lt_of_le_of_ne hab.1 fun heq => hab.2 (hrank heq)))

theorem sortKeys_of_sorted (h : sorted rank (ms.map Prod.fst) = true) : sortKeys rank ms = ms :=
  List.Pairwise.insertionSort_eq ((List.pairwise_map.mp (sorted_iff.mp h)).imp le_of_lt)

/-- What a list is before it is sorted does not show, when it has no name twice. -/
theorem sortKeys_eq_of_perm (hrank : Function.Injective rank) {ns : List (String × α)}
    (h : unique (ms.map Prod.fst) = true) (hperm : ms.Perm ns) : sortKeys rank ms = sortKeys rank ns := by
  have hsame : (sortKeys rank ms).Perm (sortKeys rank ns) :=
    (perm_sortKeys rank ms).trans (hperm.trans (perm_sortKeys rank ns).symm)
  refine hsame.eq_of_pairwise ?_ (pairwise_sortKeys rank ms) (pairwise_sortKeys rank ns)
  intro a b ha hb hab hba
  have hkey : a.1 = b.1 := hrank (le_antisymm hab hba)
  exact List.inj_on_of_nodup_map (unique_iff.mp h) (mem_sortKeys.mp ha)
    (hperm.mem_iff.mpr (mem_sortKeys.mp hb)) hkey

theorem sortKeys_sortKeys {rank' : String → κ'} (hrank : Function.Injective rank)
    (h : unique (ms.map Prod.fst) = true) : sortKeys rank (sortKeys rank' ms) = sortKeys rank ms :=
  (sortKeys_eq_of_perm hrank h (perm_sortKeys rank' ms).symm).symm

/-- Sorting looks at the names only. -/
theorem sortKeys_map (f : α → β) :
    (sortKeys rank ms).map (Prod.map id f) = sortKeys rank (ms.map (Prod.map id f)) :=
  List.map_insertionSort _ _ (Prod.map id f) ms fun _ _ _ _ => Iff.rfl

theorem keys_map (f : α → β) : (ms.map (Prod.map id f)).map Prod.fst = ms.map Prod.fst := by
  rw [List.map_map]
  rfl

theorem map_values_map {γ : Type*} (f : α → β) (g : β → γ) :
    (ms.map (Prod.map id f)).map (Prod.map id g) = ms.map (Prod.map id (g ∘ f)) := by
  rw [List.map_map]
  rfl

theorem map_values_eq_self_iff {f : α → α} :
    ms.map (Prod.map id f) = ms ↔ ∀ m ∈ ms, f m.2 = m.2 := by
  have hid : ms.map (Prod.map id f) = ms ↔ ms.map (Prod.map id f) = ms.map id := by rw [List.map_id]
  rw [hid, List.map_eq_map_iff]
  refine forall₂_congr fun m _ => ⟨fun h => congrArg Prod.snd h, fun h => Prod.ext rfl h⟩

end SortKeys

theorem map_eq_self_iff {f : α → α} {vs : List α} : vs.map f = vs ↔ ∀ v ∈ vs, f v = v := by
  have hid : vs.map f = vs ↔ vs.map f = vs.map id := by rw [List.map_id]
  rw [hid, List.map_eq_map_iff]
  rfl

/-! ### The order at every depth -/

section SortDeep

variable (rank : String → κ)

mutual

/-- The value with the members of every object in the order of a rank. -/
def sortDeep : Value ν → Value ν
  | .array vs => .array (sortElements vs)
  | .object ms => .object (sortKeys rank (sortMembers ms))
  | .null => .null
  | .bool b => .bool b
  | .number n => .number n
  | .string s => .string s

def sortElements : List (Value ν) → List (Value ν)
  | [] => []
  | v :: vs => sortDeep v :: sortElements vs

def sortMembers : List (String × Value ν) → List (String × Value ν)
  | [] => []
  | (k, v) :: ms => (k, sortDeep v) :: sortMembers ms

end

theorem sortDeep_array (vs : List (Value ν)) :
    sortDeep rank (.array vs) = .array (vs.map (sortDeep rank)) := by
  rw [sortDeep]
  congr 1
  induction vs with
  | nil => rfl
  | cons v vs ih => rw [sortElements, ih, List.map_cons]

theorem sortDeep_object (ms : List (String × Value ν)) :
    sortDeep rank (.object ms) = .object (sortKeys rank (ms.map (Prod.map id (sortDeep rank)))) := by
  rw [sortDeep]
  congr 2
  induction ms with
  | nil => rfl
  | cons m ms ih => rw [sortMembers, ih, List.map_cons]; rfl

end SortDeep

section EveryObject

variable (p q : List String → Bool)

mutual

/-- The names of every object, at every depth, pass a test. -/
def everyObject : Value ν → Bool
  | .array vs => everyElement vs
  | .object ms => p (ms.map Prod.fst) && everyMember ms
  | .null => true
  | .bool _ => true
  | .number _ => true
  | .string _ => true

def everyElement : List (Value ν) → Bool
  | [] => true
  | v :: vs => everyObject v && everyElement vs

def everyMember : List (String × Value ν) → Bool
  | [] => true
  | (_, v) :: ms => everyObject v && everyMember ms

end

@[simp] theorem everyObject_array {vs : List (Value ν)} :
    everyObject p (.array vs) = true ↔ ∀ v ∈ vs, everyObject p v = true := by
  rw [everyObject]
  induction vs with
  | nil => simp [everyElement]
  | cons v vs ih => simp [everyElement, ih]

@[simp] theorem everyObject_object {ms : List (String × Value ν)} :
    everyObject p (.object ms) = true ↔
      p (ms.map Prod.fst) = true ∧ ∀ m ∈ ms, everyObject p m.2 = true := by
  have hmembers : everyMember p ms = true ↔ ∀ m ∈ ms, everyObject p m.2 = true := by
    induction ms with
    | nil => simp [everyMember]
    | cons m ms ih => simp [everyMember, ih]
  rw [everyObject, Bool.and_eq_true, hmembers]

variable {p q}

theorem everyObject_mono (hpq : ∀ keys, p keys = true → q keys = true) {v : Value ν}
    (h : everyObject p v = true) : everyObject q v = true := by
  induction v with
  | array vs ih =>
    rw [everyObject_array] at h ⊢
    exact fun v hv => ih v hv (h v hv)
  | object ms ih =>
    rw [everyObject_object] at h ⊢
    exact ⟨hpq _ h.1, fun m hm => ih m hm (h.2 m hm)⟩
  | _ => rfl

end EveryObject

section Orders

variable {rank : String → κ} {rank' : String → κ'} {v w : Value ν}

theorem unique_of_everySorted (h : everyObject (sorted rank) v = true) : everyObject unique v = true :=
  everyObject_mono (fun _ => unique_of_sorted) h

/-- A value that is in order already. -/
theorem sortDeep_of_sorted (h : everyObject (sorted rank) v = true) : sortDeep rank v = v := by
  induction v with
  | array vs ih =>
    rw [everyObject_array] at h
    rw [sortDeep_array, map_eq_self_iff.mpr fun v hv => ih v hv (h v hv)]
  | object ms ih =>
    rw [everyObject_object] at h
    rw [sortDeep_object, map_values_eq_self_iff.mpr fun m hm => ih m hm (h.2 m hm),
      sortKeys_of_sorted h.1]
  | _ => rfl

theorem sorted_sortDeep (hrank : Function.Injective rank) (h : everyObject unique v = true) :
    everyObject (sorted rank) (sortDeep rank v) = true := by
  induction v with
  | array vs ih =>
    rw [everyObject_array] at h
    rw [sortDeep_array, everyObject_array]
    intro w hw
    obtain ⟨v, hv, rfl⟩ := List.mem_map.mp hw
    exact ih v hv (h v hv)
  | object ms ih =>
    rw [everyObject_object] at h
    rw [sortDeep_object, everyObject_object]
    refine ⟨sorted_sortKeys hrank (by rw [keys_map]; exact h.1), fun m hm => ?_⟩
    obtain ⟨n, hn, rfl⟩ := List.mem_map.mp (mem_sortKeys.mp hm)
    exact ih n hn (h.2 n hn)
  | _ => rfl

/-- The order before does not show in the order after. -/
theorem sortDeep_sortDeep (hrank : Function.Injective rank) (h : everyObject unique v = true) :
    sortDeep rank (sortDeep rank' v) = sortDeep rank v := by
  induction v with
  | array vs ih =>
    rw [everyObject_array] at h
    rw [sortDeep_array, sortDeep_array, sortDeep_array, List.map_map]
    exact congrArg Value.array (List.map_congr_left fun v hv => ih v hv (h v hv))
  | object ms ih =>
    rw [everyObject_object] at h
    have hsame : (ms.map (Prod.map id (sortDeep rank'))).map (Prod.map id (sortDeep rank)) =
        ms.map (Prod.map id (sortDeep rank)) := by
      rw [List.map_map]
      exact List.map_congr_left fun m hm => Prod.ext rfl (ih m hm (h.2 m hm))
    rw [sortDeep_object, sortDeep_object, sortDeep_object, sortKeys_map, hsame,
      sortKeys_sortKeys hrank (by rw [keys_map]; exact h.1)]
  | _ => rfl

end Orders

/-! ### The values in a value -/

/-- The second value stands in the first, so many arrays and objects deep. -/
inductive Within : Value ν → ℕ → Value ν → Prop
  | here (v : Value ν) : Within v 0 v
  | element {vs : List (Value ν)} {v w : Value ν} {n : ℕ} :
      v ∈ vs → Within v n w → Within (.array vs) (n + 1) w
  | member {ms : List (String × Value ν)} {m : String × Value ν} {w : Value ν} {n : ℕ} :
      m ∈ ms → Within m.2 n w → Within (.object ms) (n + 1) w

section Within

variable {P : ℕ → Value ν → Prop} {v : Value ν}

theorem forall_within_array {vs : List (Value ν)} : (∀ n w, Within (.array vs) n w → P n w) ↔
    P 0 (.array vs) ∧ ∀ v ∈ vs, ∀ n w, Within v n w → P (n + 1) w := by
  constructor
  · exact fun h => ⟨h _ _ (.here _), fun v hv n w hw => h _ _ (.element hv hw)⟩
  · rintro ⟨hhere, hin⟩ n w hw
    cases hw with
    | here => exact hhere
    | element hv hw => exact hin _ hv _ _ hw

theorem forall_within_object {ms : List (String × Value ν)} : (∀ n w, Within (.object ms) n w → P n w) ↔
    P 0 (.object ms) ∧ ∀ m ∈ ms, ∀ n w, Within m.2 n w → P (n + 1) w := by
  constructor
  · exact fun h => ⟨h _ _ (.here _), fun m hm n w hw => h _ _ (.member hm hw)⟩
  · rintro ⟨hhere, hin⟩ n w hw
    cases hw with
    | here => exact hhere
    | member hm hw => exact hin _ hm _ _ hw

/-- Putting a value in order leaves everything in it where it was, in order. -/
theorem forall_within_sortDeep {rank : String → κ} :
    (∀ n w, Within (sortDeep rank v) n w → P n w) ↔ ∀ n w, Within v n w → P n (sortDeep rank w) := by
  induction v generalizing P with
  | array vs ih =>
    rw [forall_within_array, sortDeep_array, forall_within_array, ← sortDeep_array, List.forall_mem_map]
    exact and_congr_right fun _ => forall₂_congr fun v hv => ih v hv
  | object ms ih =>
    rw [forall_within_object, sortDeep_object, forall_within_object, ← sortDeep_object]
    refine and_congr_right fun _ => ?_
    simp only [mem_sortKeys, List.forall_mem_map]
    exact forall₂_congr fun m hm => ih m hm
  | null | bool | number | string =>
    constructor
    · intro h n w hw
      cases hw
      exact h _ _ (.here _)
    · intro h n w hw
      cases hw
      exact h _ _ (.here _)

end Within

/-! ### Other numbers -/

section MapNumbers

variable (f : ν → Option μ)

mutual

/-- The value with other numbers; a number that has none is null. -/
def mapNumbers : Value ν → Value μ
  | .array vs => .array (mapElements vs)
  | .object ms => .object (mapMembers ms)
  | .number n => (f n).elim .null .number
  | .null => .null
  | .bool b => .bool b
  | .string s => .string s

def mapElements : List (Value ν) → List (Value μ)
  | [] => []
  | v :: vs => mapNumbers v :: mapElements vs

def mapMembers : List (String × Value ν) → List (String × Value μ)
  | [] => []
  | (k, v) :: ms => (k, mapNumbers v) :: mapMembers ms

end

theorem mapNumbers_array (vs : List (Value ν)) :
    mapNumbers f (.array vs) = .array (vs.map (mapNumbers f)) := by
  rw [mapNumbers]
  congr 1
  induction vs with
  | nil => rfl
  | cons v vs ih => rw [mapElements, ih, List.map_cons]

theorem mapNumbers_object (ms : List (String × Value ν)) :
    mapNumbers f (.object ms) = .object (ms.map (Prod.map id (mapNumbers f))) := by
  rw [mapNumbers]
  congr 1
  induction ms with
  | nil => rfl
  | cons m ms ih => rw [mapMembers, ih, List.map_cons]; rfl

/-- The names are those of before. -/
theorem everyObject_mapNumbers {p : List String → Bool} {v : Value ν} :
    everyObject p (mapNumbers f v) = true ↔ everyObject p v = true := by
  induction v with
  | array vs ih =>
    rw [mapNumbers_array, everyObject_array, everyObject_array, List.forall_mem_map]
    exact forall₂_congr ih
  | object ms ih =>
    rw [mapNumbers_object, everyObject_object, everyObject_object, keys_map, List.forall_mem_map]
    exact and_congr_right fun _ => forall₂_congr ih
  | number n => cases h : f n <;> simp [mapNumbers, h, everyObject]
  | _ => exact Iff.rfl

theorem mapNumbers_sortDeep {rank : String → κ} (v : Value ν) :
    mapNumbers f (sortDeep rank v) = sortDeep rank (mapNumbers f v) := by
  induction v with
  | array vs ih =>
    rw [sortDeep_array, mapNumbers_array, mapNumbers_array, sortDeep_array, List.map_map, List.map_map]
    exact congrArg Value.array (List.map_congr_left ih)
  | object ms ih =>
    rw [sortDeep_object, mapNumbers_object, mapNumbers_object, sortDeep_object, sortKeys_map,
      List.map_map, List.map_map]
    exact congrArg (fun ns => Value.object (sortKeys rank ns))
      (List.map_congr_left fun m hm => Prod.ext rfl (ih m hm))
  | number n => cases h : f n <;> simp [mapNumbers, h, sortDeep]
  | _ => rfl

/-- Numbers that come back. -/
theorem mapNumbers_mapNumbers {g : μ → Option ν} (h : ∀ n, (f n).bind g = some n) (v : Value ν) :
    mapNumbers g (mapNumbers f v) = v := by
  induction v with
  | array vs ih =>
    rw [mapNumbers_array, mapNumbers_array, List.map_map]
    exact congrArg Value.array (map_eq_self_iff.mpr ih)
  | object ms ih =>
    rw [mapNumbers_object, mapNumbers_object, map_values_map, map_values_eq_self_iff.mpr ih]
  | number n =>
    obtain ⟨m, hm, hn⟩ := Option.bind_eq_some_iff.mp (h n)
    simp [mapNumbers, hm, hn]
  | _ => rfl

end MapNumbers

end JsonText
