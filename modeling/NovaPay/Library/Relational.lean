import Mathlib.Data.List.Perm.Subperm
import Mathlib.Data.List.Nodup
import Mathlib.Data.List.Basic

/-!
# Relational tables with constraints

A table is a list of rows that all pass the CHECK constraint of its schema and among which its
unique indexes hold; both are fields, so no statement can leave a table that breaks them.
`insertMany` and `updateMany` are the two statements that write; each fails as a whole when a
row would break a constraint, and an update also when the row trigger refuses it.
-/

namespace Relational

universe u v

inductive DbError
  | uniqueViolation
  | rejected
deriving DecidableEq, Repr

/-- A sequence of statements succeeds when each of them does. -/
theorem bind_eq_ok {ε : Type u} {β γ : Type v} {x : Except ε β} {f : β → Except ε γ} {c : γ}
    (h : (x >>= f) = .ok c) : ∃ b, x = .ok b ∧ f b = .ok c := by
  cases x with
  | error e => cases h
  | ok b => exact ⟨b, rfl, h⟩

/-- A sequence of statements fails where one of them does. -/
theorem bind_eq_error {ε : Type u} {β γ : Type v} {x : Except ε β} {f : β → Except ε γ} {e : ε}
    (h : (x >>= f) = .error e) : x = .error e ∨ ∃ b, x = .ok b ∧ f b = .error e := by
  cases x with
  | error e' =>
    cases h
    exact .inl rfl
  | ok b => exact .inr ⟨b, rfl, h⟩

theorem ok_bind {ε : Type u} {β γ : Type v} {b : β} {f : β → Except ε γ} :
    (Except.ok b >>= f) = f b := rfl

theorem map_eq_ok {ε : Type u} {β γ : Type v} {x : Except ε β} {f : β → γ} {c : γ}
    (h : x.map f = .ok c) : ∃ b, x = .ok b ∧ c = f b := by
  cases x with
  | error e => cases h
  | ok b => exact ⟨b, rfl, (Except.ok.inj h).symm⟩

theorem eq_ok_of_toOption {ε : Type u} {β : Type v} {x : Except ε β} {b : β} (h : x.toOption = some b) :
    x = .ok b := by
  cases x with
  | error e => cases h
  | ok c => exact congrArg Except.ok (Option.some.inj h)

theorem mapM_eq_ok {ε : Type u} {α : Type*} {β : Type u} {f : α → Except ε β} {xs : List α} {ys : List β}
    (h : xs.mapM f = .ok ys) : List.Forall₂ (fun x y => f x = .ok y) xs ys := by
  induction xs generalizing ys with
  | nil =>
    cases h
    exact .nil
  | cons x xs ih =>
    rw [List.mapM_cons] at h
    obtain ⟨y, hy, h⟩ := bind_eq_ok h
    obtain ⟨zs, hzs, h⟩ := bind_eq_ok h
    cases h
    exact .cons hy (ih hzs)

theorem mapM_of_forall {ε : Type u} {α : Type*} {β : Type u} {f : α → Except ε β} {xs : List α}
    (h : ∀ x ∈ xs, ∃ y, f x = .ok y) : ∃ ys, xs.mapM f = .ok ys := by
  induction xs with
  | nil => exact ⟨[], rfl⟩
  | cons x xs ih =>
    obtain ⟨hx, hxs⟩ := List.forall_mem_cons.mp h
    obtain ⟨y, hy⟩ := hx
    obtain ⟨ys, hys⟩ := ih hxs
    refine ⟨y :: ys, ?_⟩
    rw [List.mapM_cons, hy, ok_bind, hys]
    rfl

theorem mapM_of_forall₂ {ε : Type u} {α : Type*} {β : Type u} {f : α → Except ε β} {xs : List α}
    {ys : List β} (h : List.Forall₂ (fun x y => f x = .ok y) xs ys) : xs.mapM f = .ok ys := by
  induction h with
  | nil => rfl
  | cons hxy _ ih =>
    rw [List.mapM_cons, hxy, ok_bind, ih]
    rfl

/-- A sequence of calls fails with its first failure. -/
theorem mapM_eq_error_iff {ε : Type u} {α : Type*} {β : Type u} {f : α → Except ε β} {xs : List α}
    {e : ε} : xs.mapM f = .error e ↔ ∃ before x after, xs = before ++ x :: after ∧
      (∀ y ∈ before, ∃ b, f y = .ok b) ∧ f x = .error e := by
  induction xs with
  | nil =>
    constructor
    · intro h
      cases h
    · rintro ⟨before, x, after, h, -⟩
      simp at h
  | cons x xs ih =>
    rw [List.mapM_cons]
    constructor
    · intro h
      rcases bind_eq_error h with hx | ⟨b, hx, h⟩
      · exact ⟨[], x, xs, rfl, by simp, hx⟩
      rcases bind_eq_error h with hxs | ⟨_, -, h⟩
      · obtain ⟨before, y, after, rfl, hbefore, hy⟩ := ih.mp hxs
        exact ⟨x :: before, y, after, rfl, List.forall_mem_cons.mpr ⟨⟨b, hx⟩, hbefore⟩, hy⟩
      · cases h
    · rintro ⟨before, y, after, heq, hbefore, hy⟩
      cases before with
      | nil =>
        obtain ⟨rfl, rfl⟩ := List.cons.inj heq
        rw [hy]
        rfl
      | cons z before =>
        obtain ⟨rfl, rfl⟩ := List.cons.inj heq
        obtain ⟨⟨b, hb⟩, hbefore⟩ := List.forall_mem_cons.mp hbefore
        rw [hb, ok_bind, ih.mpr ⟨before, y, after, rfl, hbefore, hy⟩]
        rfl

theorem exists_of_forall₂ {α β : Type*} {R : α → β → Prop} {xs : List α} {ys : List β}
    (h : List.Forall₂ R xs ys) : ∀ y ∈ ys, ∃ x ∈ xs, R x y := by
  induction h with
  | nil => simp
  | cons hxy _ ih =>
    intro z hz
    rcases List.mem_cons.mp hz with rfl | hz
    · exact ⟨_, List.mem_cons_self, hxy⟩
    · obtain ⟨x, hx, hr⟩ := ih z hz
      exact ⟨x, List.mem_cons_of_mem _ hx, hr⟩

structure Schema (α : Type*) where
  check : α → Bool
  indexed : List α → Bool
  guard : α → α → Bool := fun _ _ => true

structure Table {α : Type*} (S : Schema α) where
  rows : List α
  checked : ∀ r ∈ rows, S.check r = true
  indexed : S.indexed rows = true

variable {α κ : Type*} [DecidableEq κ]

/-- A unique index on a column that is never null. -/
def uniqueBy (key : α → κ) (rows : List α) : Bool := decide (rows.map key).Nodup

/-- A unique index on a column whose nulls are not compared. -/
def uniqueWhere (key : α → Option κ) (rows : List α) : Bool := decide (rows.filterMap key).Nodup

/-- The rows of an update: `f` where `p` holds, the old row elsewhere. -/
def updateWhere (p : α → Bool) (f : α → α) (rows : List α) : List α :=
  rows.map fun r => if p r then f r else r

variable {p : α → Bool} {f : α → α} {rows : List α} {a b : α}

theorem mem_updateWhere :
    a ∈ updateWhere p f rows ↔ (a ∈ rows ∧ p a = false) ∨ ∃ r ∈ rows, p r = true ∧ a = f r := by
  simp only [updateWhere, List.mem_map]
  constructor
  · rintro ⟨r, hr, rfl⟩
    cases hp : p r with
    | false => exact .inl ⟨by simpa using hr, by simpa using hp⟩
    | true => exact .inr ⟨r, hr, hp, if_pos rfl⟩
  · rintro (⟨ha, hp⟩ | ⟨r, hr, hp, rfl⟩)
    · exact ⟨a, ha, by simp [hp]⟩
    · exact ⟨r, hr, by simp [hp]⟩

/-- What an update does to a row, in terms of any reflexive relation. -/
theorem exists_updateWhere {R : α → α → Prop} (hrefl : ∀ r, R r r)
    (h : ∀ r ∈ rows, p r = true → R r (f r)) : ∀ r ∈ rows, ∃ a ∈ updateWhere p f rows, R r a := by
  intro r hr
  cases hp : p r with
  | false => exact ⟨r, mem_updateWhere.mpr (.inl ⟨hr, hp⟩), hrefl r⟩
  | true => exact ⟨f r, mem_updateWhere.mpr (.inr ⟨r, hr, hp, rfl⟩), h r hr hp⟩

theorem updateWhere_of_none (h : ∀ r ∈ rows, p r = false) : updateWhere p f rows = rows := by
  have hid : ∀ r ∈ rows, (if p r then f r else r) = r := fun r hr => by simp [h r hr]
  calc updateWhere p f rows = rows.map id := List.map_congr_left hid
    _ = rows := List.map_id rows

theorem updateWhere_of_all (h : ∀ r ∈ rows, p r = true) : updateWhere p f rows = rows.map f :=
  List.map_congr_left fun r hr => if_pos (h r hr)

/-- An update that keeps a column keeps the column of the whole table. -/
theorem map_updateWhere {β : Type*} {g : α → β} (h : ∀ r, g (f r) = g r) :
    (updateWhere p f rows).map g = rows.map g := by
  simp only [updateWhere, List.map_map]
  refine List.map_congr_left fun r _ => ?_
  simp only [Function.comp_apply]
  split
  · exact h r
  · rfl

theorem filter_updateWhere {q : α → Bool} (h : ∀ r, q (f r) = q r) :
    (updateWhere p f rows).filter q = updateWhere p f (rows.filter q) := by
  have hq : ∀ r, q (if p r then f r else r) = q r := fun r => by split <;> simp [h]
  simp only [updateWhere, List.filter_map]
  congr 1
  exact List.filter_congr fun r _ => by simp [hq]

theorem uniqueBy_iff {key : α → κ} : uniqueBy key rows = true ↔ (rows.map key).Nodup := by
  simp [uniqueBy]

theorem eq_of_uniqueBy {key : α → κ} (h : uniqueBy key rows = true) (ha : a ∈ rows)
    (hb : b ∈ rows) (hk : key a = key b) : a = b :=
  List.inj_on_of_nodup_map (uniqueBy_iff.mp h) ha hb hk

/-- Two rows with the same non-null value in a uniquely indexed column are one row. -/
theorem eq_of_uniqueWhere {key : α → Option κ} (h : uniqueWhere key rows = true) (ha : a ∈ rows)
    (hb : b ∈ rows) {k : κ} (hka : key a = some k) (hkb : key b = some k) : a = b := by
  have hn : (rows.filterMap key).Nodup := by simpa [uniqueWhere] using h
  clear h
  induction rows with
  | nil => simp at ha
  | cons r rows ih =>
    have hfresh : key r = some k → ∀ c ∈ rows, key c ≠ some k := by
      intro hr c hc hk
      rw [List.filterMap_cons_some hr, List.nodup_cons] at hn
      exact hn.1 (List.mem_filterMap.mpr ⟨c, hc, hk⟩)
    have hrest : (rows.filterMap key).Nodup :=
      hn.sublist (List.Sublist.filterMap key (List.sublist_cons_self r rows))
    rcases List.mem_cons.mp ha with har | har <;> rcases List.mem_cons.mp hb with hbr | hbr
    · exact har.trans hbr.symm
    · exact absurd hkb (hfresh (har ▸ hka) b hbr)
    · exact absurd hka (hfresh (hbr ▸ hkb) a har)
    · exact ih har hbr hrest

/-- The rows that have one of some values in a unique column are as many as the values exactly when
these differ and each is in a row. -/
theorem length_filter_key_iff {key : α → Option κ} {ks : List κ} (h : uniqueWhere key rows = true) :
    (rows.filter fun a => (key a).any fun k => decide (k ∈ ks)).length = ks.length ↔
      ks.Nodup ∧ ∀ k ∈ ks, ∃ a ∈ rows, key a = some k := by
  have hkeys : ∀ k, k ∈ (rows.filterMap key).filter (fun k => decide (k ∈ ks)) ↔
      k ∈ ks ∧ ∃ a ∈ rows, key a = some k := by
    intro k
    rw [List.mem_filter, List.mem_filterMap, decide_eq_true_eq, and_comm]
  have hlength : (rows.filter fun a => (key a).any fun k => decide (k ∈ ks)).length =
      ((rows.filterMap key).filter fun k => decide (k ∈ ks)).length := by
    clear h hkeys
    induction rows with
    | nil => rfl
    | cons r rows ih =>
      cases hr : key r with
      | none => simp [hr, ih]
      | some k => by_cases hk : k ∈ ks <;> simp [hr, hk, ih]
  have hnodup : ((rows.filterMap key).filter fun k => decide (k ∈ ks)).Nodup := by
    simp only [uniqueWhere, decide_eq_true_eq] at h
    exact h.sublist List.filter_sublist
  rw [hlength]
  constructor
  · intro heq
    have hperm : ((rows.filterMap key).filter fun k => decide (k ∈ ks)).Perm ks :=
      (List.Nodup.subperm hnodup fun k hk => ((hkeys k).mp hk).1).perm_of_length_le (by omega)
    exact ⟨hperm.nodup_iff.mp hnodup, fun k hk => ((hkeys k).mp (hperm.mem_iff.mpr hk)).2⟩
  · rintro ⟨hks, hall⟩
    have hsub : ks ⊆ (rows.filterMap key).filter fun k => decide (k ∈ ks) :=
      fun k hk => (hkeys k).mpr ⟨hk, hall k hk⟩
    have hle := (List.Nodup.subperm hnodup fun k hk => ((hkeys k).mp hk).1).length_le
    have hge := (List.Nodup.subperm hks hsub).length_le
    omega

/-- The row with a value in a uniquely indexed column. -/
def findBy (key : α → κ) (k : κ) (rows : List α) : Option α := rows.find? fun r => decide (key r = k)

theorem uniqueBy_updateWhere {key : α → κ} (hf : ∀ r, key (f r) = key r) :
    uniqueBy key (updateWhere p f rows) = uniqueBy key rows := by
  simp only [uniqueBy, map_updateWhere hf]

theorem uniqueWhere_updateWhere {key : α → Option κ} (hf : ∀ r, key (f r) = key r) :
    uniqueWhere key (updateWhere p f rows) = uniqueWhere key rows := by
  have hkeys : ∀ l : List α, l.filterMap key = (l.map key).filterMap id := fun l => by
    rw [List.filterMap_map, Function.id_comp]
  simp only [uniqueWhere, hkeys, map_updateWhere hf]

/-- An update of at most one row may set a unique column to a value that no other row holds. -/
theorem uniqueWhere_updateWhere_one {key : α → Option κ} (h : uniqueWhere key rows = true)
    (hone : rows.countP p ≤ 1) (hfresh : ∀ a ∈ rows, p a = true → ∀ k, key (f a) = some k →
      ∀ r ∈ rows, key r = some k → p r = true) : uniqueWhere key (updateWhere p f rows) = true := by
  simp only [uniqueWhere, decide_eq_true_eq] at h ⊢
  have hkeys := List.pairwise_filterMap.mp h
  have hsingle : (rows.filter p).Pairwise fun _ _ => False := by
    rw [List.countP_eq_length_filter] at hone
    obtain hnil | ⟨r, hr⟩ : rows.filter p = [] ∨ ∃ r, rows.filter p = [r] := by
      rw [← List.length_eq_zero_iff, ← List.length_eq_one_iff]
      omega
    · rw [hnil]
      exact .nil
    · rw [hr]
      exact List.pairwise_singleton _ r
  have hboth := List.pairwise_filter.mp hsingle
  refine List.pairwise_filterMap.mpr (List.pairwise_map.mpr ?_)
  refine (hkeys.and hboth).imp_of_mem fun {a b} ha hb hab k hk k' hk' => ?_
  obtain ⟨hdiffer, hnot⟩ := hab
  rintro rfl
  by_cases hpa : p a = true
  · by_cases hpb : p b = true
    · exact hnot hpa hpb
    · rw [if_pos hpa] at hk
      rw [if_neg hpb] at hk'
      exact hpb (hfresh a ha hpa k hk b hb hk')
  · rw [if_neg hpa] at hk
    by_cases hpb : p b = true
    · rw [if_pos hpb] at hk'
      exact hpa (hfresh b hb hpb k hk' a ha hk)
    · rw [if_neg hpb] at hk'
      exact hdiffer k hk k hk' rfl

/-- An update of one row may set a unique column to a value no row holds. -/
theorem uniqueWhere_updateWhere_fresh {key : α → Option κ} {k : κ}
    (h : uniqueWhere key rows = true) (hone : rows.countP p ≤ 1) (hset : ∀ r, key (f r) = some k)
    (hfresh : ∀ r ∈ rows, key r ≠ some k) : uniqueWhere key (updateWhere p f rows) = true := by
  refine uniqueWhere_updateWhere_one h hone fun a _ _ k' hk' r hr hrow => ?_
  rw [hset] at hk'
  exact absurd (hrow.trans hk'.symm) (hfresh r hr)

theorem findBy_some {key : α → κ} {k : κ} (h : findBy key k rows = some a) : a ∈ rows ∧ key a = k :=
  ⟨List.mem_of_find?_eq_some h, by simpa using List.find?_some h⟩

theorem findBy_eq_none_iff {key : α → κ} {k : κ} :
    findBy key k rows = none ↔ ∀ r ∈ rows, key r ≠ k := by
  simp [findBy]

theorem uniqueBy_filter {key : α → κ} {q : α → Bool} (h : uniqueBy key rows = true) :
    uniqueBy key (rows.filter q) = true :=
  uniqueBy_iff.mpr ((uniqueBy_iff.mp h).sublist (List.Sublist.map key List.filter_sublist))

/-- Looking a row up by a uniquely indexed column finds that row. -/
theorem findBy_of_mem {key : α → κ} (h : uniqueBy key rows = true) (ha : a ∈ rows) :
    findBy key (key a) rows = some a := by
  unfold findBy
  obtain ⟨b, hb⟩ : ∃ b, rows.find? (fun r => decide (key r = key a)) = some b := by
    apply Option.isSome_iff_exists.mp
    rw [List.find?_isSome]
    exact ⟨a, ha, by simp⟩
  have hk : key b = key a := by simpa using List.find?_some hb
  rw [hb, eq_of_uniqueBy h (List.mem_of_find?_eq_some hb) ha hk]

theorem findBy_eq_some_iff {key : α → κ} {k : κ} (h : uniqueBy key rows = true) :
    findBy key k rows = some a ↔ a ∈ rows ∧ key a = k := by
  constructor
  · exact findBy_some
  · rintro ⟨ha, rfl⟩
    exact findBy_of_mem h ha

/-- A row appended under a unique index has a value that no older row has. -/
theorem fresh_of_uniqueBy_append {key : α → κ} (h : uniqueBy key (rows ++ [a]) = true) :
    ∀ r ∈ rows, key r ≠ key a := by
  have hn := uniqueBy_iff.mp h
  rw [List.map_append, List.nodup_append] at hn
  exact fun r hr => hn.2.2 (key r) (List.mem_map_of_mem hr) (key a) (by simp)

/-- A row whose key no row has can be added. -/
theorem uniqueBy_append_new {key : α → κ} (h : uniqueBy key rows = true)
    (hfresh : ∀ r ∈ rows, key r ≠ key a) : uniqueBy key (rows ++ [a]) = true := by
  rw [uniqueBy_iff] at h ⊢
  rw [List.map_append, List.nodup_append]
  refine ⟨h, by simp, fun k hk k' hk' => ?_⟩
  obtain ⟨r, hr, rfl⟩ := List.mem_map.mp hk
  obtain rfl : k' = key a := by simpa using hk'
  exact hfresh r hr

theorem uniqueWhere_append_new {key : α → Option κ} (h : uniqueWhere key rows = true)
    (hfresh : ∀ r ∈ rows, ∀ k, key a = some k → key r ≠ some k) :
    uniqueWhere key (rows ++ [a]) = true := by
  simp only [uniqueWhere, decide_eq_true_eq] at h ⊢
  rw [List.filterMap_append, List.nodup_append]
  refine ⟨h, ?_, fun k hk k' hk' => ?_⟩
  · cases hkey : key a <;> simp [hkey]
  · obtain ⟨r, hr, hrk⟩ := List.mem_filterMap.mp hk
    have hak : key a = some k' := by simpa using hk'
    rintro rfl
    exact hfresh r hr k hak hrk

theorem findBy_append_new {key : α → κ} {k : κ} (hfresh : findBy key (key a) rows = none) :
    findBy key k (rows ++ [a]) = if k = key a then some a else findBy key k rows := by
  by_cases hk : k = key a
  · subst hk
    rw [if_pos rfl, findBy, List.find?_append]
    rw [findBy] at hfresh
    simp [hfresh]
  · rw [if_neg hk, findBy, List.find?_append, findBy]
    simp [Ne.symm hk]

theorem findBy_updateWhere {key : α → κ} {k : κ} (hf : ∀ r, key (f r) = key r) :
    findBy key k (updateWhere p f rows) = (findBy key k rows).map fun r => if p r then f r else r := by
  have hkey : ∀ r, key (if p r then f r else r) = key r := fun r => by split <;> simp [hf]
  simp only [findBy, updateWhere, List.find?_map]
  congr 2
  funext r
  simp [hkey]

/-- An update that does not change whether its rows are counted. -/
theorem countP_updateWhere_same {q : α → Bool} (h : ∀ r ∈ rows, p r = true → q (f r) = q r) :
    (updateWhere p f rows).countP q = rows.countP q := by
  rw [updateWhere, List.countP_map]
  refine List.countP_congr fun r hr => ?_
  cases hp : p r with
  | false => simp [hp]
  | true => simp [hp, h r hr hp]

/-- An update whose rows are counted after it, and were not before. -/
theorem countP_updateWhere_new {q : α → Bool}
    (h : ∀ r ∈ rows, p r = true → q r = false ∧ q (f r) = true) :
    (updateWhere p f rows).countP q = rows.countP q + rows.countP p := by
  induction rows with
  | nil => rfl
  | cons r rows ih =>
    have ih := ih fun r hr => h r (List.mem_cons_of_mem _ hr)
    have hcons : updateWhere p f (r :: rows) = (if p r then f r else r) :: updateWhere p f rows := rfl
    cases hp : p r with
    | false => simp only [hcons, List.countP_cons, hp, ih]; simp; omega
    | true =>
      obtain ⟨hold, hnew⟩ := h r List.mem_cons_self hp
      simp only [hcons, List.countP_cons, hp, ih, hold, if_true, hnew]
      simp
      omega

/-- At most one row matches a condition that pins a uniquely indexed column. -/
theorem countP_le_one_of_uniqueBy {key : α → κ} {k : κ} (h : uniqueBy key rows = true)
    (hp : ∀ r, p r = true → key r = k) : rows.countP p ≤ 1 := by
  have hsub : ((rows.filter p).map key).Sublist (rows.map key) :=
    List.Sublist.map key List.filter_sublist
  have hnodup : ((rows.filter p).map key).Nodup := (uniqueBy_iff.mp h).sublist hsub
  have hconst : (rows.filter p).map key = List.replicate (rows.filter p).length k := by
    rw [List.eq_replicate_iff]
    simp only [List.length_map, List.mem_map, true_and]
    rintro b ⟨r, hr, rfl⟩
    exact hp r (List.mem_filter.mp hr).2
  rw [hconst, List.nodup_replicate] at hnodup
  rw [List.countP_eq_length_filter]
  exact hnodup

namespace Table

variable {S : Schema α}

def insertMany (T : Table S) (new : List α) : Except DbError (Table S) :=
  if hc : ∀ r ∈ new, S.check r = true then
    if hi : S.indexed (T.rows ++ new) = true then
      .ok ⟨T.rows ++ new, fun r hr => (List.mem_append.mp hr).elim (T.checked r) (hc r), hi⟩
    else .error .uniqueViolation
  else .error .rejected

/-- The table after the update and the number of rows it matched. -/
def updateMany (T : Table S) (p : α → Bool) (f : α → α) : Except DbError (Table S × ℕ) :=
  if hc : ∀ r ∈ T.rows, p r = true → S.guard r (f r) = true ∧ S.check (f r) = true then
    if hi : S.indexed (updateWhere p f T.rows) = true then
      .ok (⟨updateWhere p f T.rows, by
        intro a ha
        rcases mem_updateWhere.mp ha with ⟨ha, _⟩ | ⟨r, hr, hp, rfl⟩
        · exact T.checked a ha
        · exact (hc r hr hp).2, hi⟩, T.rows.countP p)
    else .error .uniqueViolation
  else .error .rejected

theorem ext_rows {T U : Table S} (h : T.rows = U.rows) : T = U := by
  cases T; cases U; cases h; rfl

theorem insertMany_ok {T T' : Table S} {new : List α} (h : T.insertMany new = .ok T') :
    T'.rows = T.rows ++ new := by
  unfold insertMany at h
  split at h
  · split at h
    · cases h; rfl
    · cases h
  · cases h

/-- Rows that pass the checks are inserted unless a unique index holds one of their values. -/
theorem insertMany_of_check (T : Table S) (new : List α) (hc : ∀ r ∈ new, S.check r = true) :
    (∃ T', T.insertMany new = .ok T' ∧ S.indexed (T.rows ++ new) = true) ∨
      T.insertMany new = .error .uniqueViolation := by
  by_cases hi : S.indexed (T.rows ++ new) = true
  · left
    rw [insertMany, dif_pos hc, dif_pos hi]
    exact ⟨_, rfl, hi⟩
  · right
    rw [insertMany, dif_pos hc, dif_neg hi]

theorem insertMany_of_indexed {T : Table S} {new : List α} (hc : ∀ r ∈ new, S.check r = true)
    (hi : S.indexed (T.rows ++ new) = true) : ∃ T', T.insertMany new = .ok T' := by
  rw [insertMany, dif_pos hc, dif_pos hi]
  exact ⟨_, rfl⟩

/-- What a successful update leaves: the rows, the count, and the trigger's consent for every
row it matched. -/
theorem updateMany_ok {T T' : Table S} {n : ℕ} (h : T.updateMany p f = .ok (T', n)) :
    T'.rows = updateWhere p f T.rows ∧ n = T.rows.countP p ∧
      ∀ r ∈ T.rows, p r = true → S.guard r (f r) = true := by
  unfold updateMany at h
  split at h
  · next hc =>
    split at h
    · cases h
      exact ⟨rfl, rfl, fun r hr hp => (hc r hr hp).1⟩
    · cases h
  · cases h

/-- An update whose new rows pass the trigger, the checks and the indexes succeeds. -/
theorem updateMany_of_check {T : Table S}
    (hc : ∀ r ∈ T.rows, p r = true → S.guard r (f r) = true ∧ S.check (f r) = true)
    (hi : S.indexed (updateWhere p f T.rows) = true) :
    ∃ T', T.updateMany p f = .ok (T', T.rows.countP p) ∧ T'.rows = updateWhere p f T.rows := by
  rw [updateMany, dif_pos hc, dif_pos hi]
  exact ⟨_, rfl, rfl⟩

/-- An update that matches no row always succeeds and changes nothing. -/
theorem updateMany_of_none {T : Table S} (h : ∀ r ∈ T.rows, p r = false) :
    T.updateMany p f = .ok (T, 0) := by
  have hrows : updateWhere p f T.rows = T.rows := updateWhere_of_none h
  have hc : ∀ r ∈ T.rows, p r = true → S.guard r (f r) = true ∧ S.check (f r) = true := by
    intro r hr hp
    simp [h r hr] at hp
  have hi : S.indexed (updateWhere p f T.rows) = true := by rw [hrows]; exact T.indexed
  have hcount : T.rows.countP p = 0 := List.countP_eq_zero.mpr fun r hr => by simp [h r hr]
  rw [updateMany, dif_pos hc, dif_pos hi]
  exact congrArg Except.ok (Prod.ext (ext_rows hrows) hcount)

/-- An update that pins a uniquely indexed column matches no row and changes nothing, or it
matches one row and replaces it. -/
theorem updateMany_keyed {T T' : Table S} {n : ℕ} {key : α → κ} {k : κ}
    (huniq : uniqueBy key T.rows = true) (hp : ∀ r, p r = true → key r = k)
    (hf : ∀ r, key (f r) = key r) (h : T.updateMany p f = .ok (T', n)) :
    (n = 0 ∧ T' = T ∧ ∀ r ∈ T.rows, p r = false) ∨
      (n = 1 ∧ ∃ a ∈ T.rows, p a = true ∧ key a = k ∧ S.guard a (f a) = true ∧
        f a ∈ T'.rows ∧
        ∀ k', findBy key k' T'.rows = if k' = k then some (f a) else findBy key k' T.rows) := by
  obtain ⟨hrows, hcount, hguard⟩ := updateMany_ok h
  by_cases hnone : ∀ r ∈ T.rows, p r = false
  · left
    rw [updateMany_of_none hnone] at h
    cases h
    exact ⟨rfl, rfl, hnone⟩
  right
  push Not at hnone
  obtain ⟨a, ha, hpa⟩ := hnone
  replace hpa : p a = true := by simpa using hpa
  have hone : T.rows.countP p = 1 := by
    have hpos : 0 < T.rows.countP p := List.countP_pos_iff.mpr ⟨a, ha, hpa⟩
    have hle := countP_le_one_of_uniqueBy huniq hp
    omega
  refine ⟨hcount.trans hone, a, ha, hpa, hp a hpa, hguard a ha hpa, ?_, fun k' => ?_⟩
  · rw [hrows]
    exact mem_updateWhere.mpr (.inr ⟨a, ha, hpa, rfl⟩)
  · rw [hrows, findBy_updateWhere hf]
    by_cases hk : k' = k
    · rw [if_pos hk, hk, ← hp a hpa, findBy_of_mem huniq ha]
      simp [hpa]
    · rw [if_neg hk]
      cases hfind : findBy key k' T.rows with
      | none => rfl
      | some b =>
        have hpb : p b = false := by
          by_contra hpb
          exact hk ((findBy_some hfind).2.symm.trans (hp b (by simpa using hpb)))
        simp [hpb]

/-- The table without the rows of a condition and their number, where the unique indexes hold of
what is left. -/
def deleteMany (T : Table S) (p : α → Bool) (hi : S.indexed (T.rows.filter fun r => !p r) = true) :
    Table S × ℕ :=
  (⟨T.rows.filter fun r => !p r, fun r hr => T.checked r (List.mem_of_mem_filter hr), hi⟩,
    T.rows.countP p)

theorem count_eq_zero_iff {T : Table S} : T.rows.countP p = 0 ↔ ∀ r ∈ T.rows, p r = false := by
  rw [List.countP_eq_zero]
  simp

end Table

end Relational
