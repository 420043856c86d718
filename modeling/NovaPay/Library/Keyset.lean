import Mathlib.Data.List.Sort
import Mathlib.Data.List.Nodup
import Mathlib.Order.WellFoundedSet

/-!
# Keyset pagination

Rows read in ascending order of a key, a page at a time: a page holds the first rows whose key lies
strictly beyond a cursor, and the last key of a page is the cursor of the next one.
-/

namespace Keyset

variable {α κ : Type*} [LinearOrder κ] {key : α → κ} {after : Option κ} {n : ℕ} {rows xs : List α}
  {a r : α}

/-- Every row lies beyond the missing cursor. -/
def Beyond (key : α → κ) (after : Option κ) (r : α) : Prop := ∀ k ∈ after, k < key r

theorem beyond_none : Beyond key none r := by simp [Beyond]

theorem beyond_some {k : κ} : Beyond key (some k) r ↔ k < key r := by
  simp [Beyond]

/-- The rows beyond a cursor, in order. -/
def rest (key : α → κ) (after : Option κ) (rows : List α) : List α :=
  (rows.filter fun r => after.all fun k => decide (k < key r)).insertionSort fun a b => key a ≤ key b

def page (key : α → κ) (after : Option κ) (n : ℕ) (rows : List α) : List α :=
  (rest key after rows).take n

theorem mem_rest : r ∈ rest key after rows ↔ r ∈ rows ∧ Beyond key after r := by
  rw [rest, List.mem_insertionSort, List.mem_filter]
  cases after <;> simp [Beyond]

theorem mem_of_mem_page (h : r ∈ page key after n rows) : r ∈ rows ∧ Beyond key after r :=
  mem_rest.mp (List.mem_of_mem_take h)

theorem length_page_le : (page key after n rows).length ≤ n := List.length_take_le _ _

theorem sorted_rest : (rest key after rows).Pairwise fun a b => key a ≤ key b := by
  have htotal : Std.Total fun a b : α => key a ≤ key b := ⟨fun a b => le_total (key a) (key b)⟩
  have htrans : IsTrans α fun a b => key a ≤ key b := ⟨fun a b c => le_trans⟩
  exact List.pairwise_insertionSort _ _

theorem rest_none_perm : (rest key none rows).Perm rows := by
  have hall : (rows.filter fun r => (none : Option κ).all fun k => decide (k < key r)) = rows := by simp
  rw [rest, hall]
  exact List.perm_insertionSort _ _

theorem keys_rest_nodup (after : Option κ) (hu : (rows.map key).Nodup) : ((rest key after rows).map key).Nodup := by
  have hperm := List.perm_insertionSort (fun a b => key a ≤ key b)
    (rows.filter fun r => after.all fun k => decide (k < key r))
  refine ((hperm.map key).nodup_iff).mpr (hu.sublist ?_)
  exact List.Sublist.map key List.filter_sublist

/-- With unique keys the order is strict. -/
theorem strict_rest (hu : (rows.map key).Nodup) :
    (rest key after rows).Pairwise fun a b => key a < key b := by
  have hne := List.pairwise_map.mp (keys_rest_nodup after hu)
  refine (sorted_rest.and hne).imp fun {a b} h => ?_
  exact lt_of_le_of_ne h.1 h.2

/-- A list in strict order is determined by its members. -/
theorem eq_of_strict {ys : List α} (hx : xs.Pairwise fun a b => key a < key b)
    (hy : ys.Pairwise fun a b => key a < key b) (h : ∀ r, r ∈ xs ↔ r ∈ ys) : xs = ys := by
  have hnodup : ∀ {l : List α}, (l.Pairwise fun a b => key a < key b) → l.Nodup := fun hl =>
    hl.imp fun {a b} hab heq => absurd (heq ▸ hab) (lt_irrefl _)
  refine ((List.perm_ext_iff_of_nodup (hnodup hx) (hnodup hy)).mpr h).eq_of_pairwise ?_ hx hy
  intro a b _ _ hab hba
  exact absurd (lt_trans hab hba) (lt_irrefl _)

/-- The rows beyond the last row of a page are those the page left. -/
theorem rest_last (hu : (rows.map key).Nodup) (h : page key after n rows = xs ++ [a]) :
    rest key (some (key a)) rows = (rest key after rows).drop n := by
  have hstrict : (rest key after rows).Pairwise fun a b => key a < key b := strict_rest hu
  have hsplit : rest key after rows = (xs ++ [a]) ++ (rest key after rows).drop n := by
    rw [← h, page, List.take_append_drop]
  refine eq_of_strict (strict_rest hu) (hstrict.sublist (List.drop_sublist _ _)) fun r => ?_
  have hlast : a ∈ page key after n rows := by simp [h]
  have ha : Beyond key after a := (mem_of_mem_page hlast).2
  rw [hsplit] at hstrict
  obtain ⟨hpage, -, hcross⟩ := List.pairwise_append.mp hstrict
  constructor
  · intro hr
    obtain ⟨hmem, hbeyond⟩ := mem_rest.mp hr
    have hlt := beyond_some.mp hbeyond
    have hrest : r ∈ rest key after rows := mem_rest.mpr ⟨hmem, fun k hk => (ha k hk).trans hlt⟩
    rw [hsplit, List.mem_append] at hrest
    refine hrest.resolve_left fun hin => ?_
    -- a row of the page does not lie beyond its last row
    rcases List.mem_append.mp hin with hx | hx
    · have := (List.pairwise_append.mp hpage).2.2 r hx a List.mem_cons_self
      exact absurd (hlt.trans this) (lt_irrefl _)
    · rw [List.mem_singleton.mp hx] at hlt
      exact absurd hlt (lt_irrefl _)
  · intro hr
    have hlt := hcross a (by simp) r hr
    have hmem := (mem_rest.mp (List.mem_of_mem_drop hr)).1
    exact mem_rest.mpr ⟨hmem, beyond_some.mpr hlt⟩

/-- A row that a page leaves out follows every row of the page. -/
theorem le_of_not_mem_page (hr : r ∈ rest key after rows) (hout : r ∉ page key after n rows) :
    ∀ b ∈ page key after n rows, key b ≤ key r := by
  intro b hb
  have hsorted : (rest key after rows).Pairwise fun a b => key a ≤ key b := sorted_rest
  rw [← List.take_append_drop n (rest key after rows)] at hsorted hr
  exact (List.pairwise_append.mp hsorted).2.2 b hb r ((List.mem_append.mp hr).resolve_left hout)

/-- A page that is not full leaves nothing out. -/
theorem page_of_length_lt (h : (page key after n rows).length < n) :
    page key after n rows = rest key after rows := by
  rw [page, List.length_take] at h
  exact List.take_of_length_le (by omega)

theorem page_eq_nil_iff (hn : 0 < n) :
    page key after n rows = [] ↔ ∀ r ∈ rows, ¬ Beyond key after r := by
  rw [page, List.take_eq_nil_iff, or_iff_right hn.ne', List.eq_nil_iff_forall_not_mem]
  exact ⟨fun h r hr hb => h r (mem_rest.mpr ⟨hr, hb⟩), fun h r hr => h r (mem_rest.mp hr).1 (mem_rest.mp hr).2⟩

/-! ### Following the cursor -/

/-- The pages from one request to the last, each of the rows of its own table that lie beyond the last row
of the page before. One row more than a page holds shows that there is a next page. -/
inductive Follows (key : α → κ) (n : ℕ) (tables : ℕ → List α) : ℕ → Option κ → List (List α) → Prop
  | last {k : ℕ} {after : Option κ} :
    (page key after (n + 1) (tables k)).length ≤ n →
    Follows key n tables k after [page key after n (tables k)]
  | more {k : ℕ} {after : Option κ} {xs : List α} {a : α} {ps : List (List α)} :
    n < (page key after (n + 1) (tables k)).length →
    page key after n (tables k) = xs ++ [a] →
    Follows key n tables (k + 1) (some (key a)) ps →
    Follows key n tables k after (page key after n (tables k) :: ps)

variable {tables : ℕ → List α} {k : ℕ} {ps : List (List α)}

theorem page_of_length_le (h : (page key after (n + 1) rows).length ≤ n) :
    page key after n rows = rest key after rows := by
  have hrest := page_of_length_lt (Nat.lt_succ_of_le h)
  rw [hrest] at h
  exact List.take_of_length_le h

theorem length_page_of_lt (h : n < (page key after (n + 1) rows).length) :
    (page key after n rows).length = n := by
  rw [page, List.length_take] at h ⊢
  omega

theorem key_le_last (h : page key after n rows = xs ++ [a]) (hr : r ∈ page key after n rows) :
    key r ≤ key a := by
  have hsorted : (page key after n rows).Pairwise fun a b => key a ≤ key b :=
    sorted_rest.sublist (List.take_sublist _ _)
  rw [h] at hsorted hr
  obtain hr | hr := List.mem_append.mp hr
  · exact (List.pairwise_append.mp hsorted).2.2 r hr a List.mem_cons_self
  · rw [List.mem_singleton.mp hr]

theorem Follows.ne_nil (h : Follows key n tables k after ps) : ps ≠ [] := by
  cases h <;> simp

theorem Follows.length_of_mem_dropLast (h : Follows key n tables k after ps) :
    ∀ p ∈ ps.dropLast, p.length = n := by
  induction h with
  | last => simp
  | more hmore _ hnext ih =>
    intro p hp
    rw [List.dropLast_cons_of_ne_nil hnext.ne_nil] at hp
    obtain rfl | hp := List.mem_cons.mp hp
    · exact length_page_of_lt hmore
    · exact ih p hp

/-- Every row that is read is a row of the table of its request, beyond the first cursor. -/
theorem Follows.mem (h : Follows key n tables k after ps) (hr : r ∈ ps.flatten) :
    (∃ j < ps.length, r ∈ tables (k + j)) ∧ Beyond key after r := by
  induction h with
  | last =>
    rw [List.flatten_singleton] at hr
    obtain ⟨hmem, hbeyond⟩ := mem_of_mem_page hr
    exact ⟨⟨0, by simp, hmem⟩, hbeyond⟩
  | @more k after xs a ps hmore hpage hnext ih =>
    rw [List.flatten_cons, List.mem_append] at hr
    obtain hr | hr := hr
    · obtain ⟨hmem, hbeyond⟩ := mem_of_mem_page hr
      exact ⟨⟨0, by simp, hmem⟩, hbeyond⟩
    · obtain ⟨⟨j, hj, hmem⟩, hbeyond⟩ := ih hr
      have ha : a ∈ page key after n (tables k) := by simp [hpage]
      refine ⟨⟨j + 1, Nat.succ_lt_succ hj, ?_⟩, fun c hc => ?_⟩
      · rwa [Nat.add_right_comm] at hmem
      · exact ((mem_of_mem_page ha).2 c hc).trans (beyond_some.mp hbeyond)

/-- While the table stays as it is, the pages hold its rows in order. -/
theorem Follows.flatten_eq (h : Follows key n tables k after ps) (hu : (rows.map key).Nodup)
    (hrows : ∀ j, tables j = rows) : ps.flatten = rest key after rows := by
  induction h with
  | last hlast =>
    rw [List.flatten_singleton, page_of_length_le hlast, hrows]
  | more _ hpage _ ih =>
    rw [hrows] at hpage
    rw [List.flatten_cons, ih, rest_last hu hpage, hrows, page, List.take_append_drop]

/-- A row that is in every table from the first request to the last is read exactly once, whatever rows
come and go. -/
theorem Follows.count_eq_one [DecidableEq κ] {x : κ} (h : Follows key n tables k after ps)
    (hu : ∀ j, ((tables j).map key).Nodup) (hx : ∀ c ∈ after, c < x)
    (hin : ∀ j < ps.length, x ∈ (tables (k + j)).map key) : (ps.flatten.map key).count x = 1 := by
  induction h with
  | @last k after hlast =>
    rw [List.flatten_singleton, page_of_length_le hlast]
    refine List.count_eq_one_of_mem (keys_rest_nodup after (hu k)) ?_
    obtain ⟨r, hr, rfl⟩ := List.mem_map.mp (hin 0 (by simp))
    exact List.mem_map_of_mem (mem_rest.mpr ⟨hr, hx⟩)
  | @more k after xs a ps hmore hpage hnext ih =>
    obtain ⟨r, hr, rfl⟩ := List.mem_map.mp (hin 0 (by simp))
    have hrest : r ∈ rest key after (tables k) := mem_rest.mpr ⟨hr, hx⟩
    have hnodup : ((page key after n (tables k)).map key).Nodup :=
      (keys_rest_nodup after (hu k)).sublist ((List.take_sublist _ _).map key)
    have ha : a ∈ page key after n (tables k) := by simp [hpage]
    rw [List.flatten_cons, List.map_append, List.count_append]
    by_cases hread : key r ∈ (page key after n (tables k)).map key
    · -- what is read later lies beyond the last row of the page
      have hlater : key r ∉ ps.flatten.map key := by
        intro hmem
        obtain ⟨s, hs, hkey⟩ := List.mem_map.mp hmem
        have hlt := beyond_some.mp (hnext.mem hs).2
        have hle : key r ≤ key a := by
          obtain ⟨r', hr', hsame⟩ := List.mem_map.mp hread
          exact hsame ▸ key_le_last hpage hr'
        exact absurd (hkey ▸ hlt) (not_lt.mpr hle)
      rw [List.count_eq_one_of_mem hnodup hread, List.count_eq_zero_of_not_mem hlater]
    · have hlt : key a < key r := by
        have hout : r ∉ page key after n (tables k) := fun hmem => hread (List.mem_map_of_mem hmem)
        refine lt_of_le_of_ne (le_of_not_mem_page hrest hout a ha) fun heq => ?_
        exact hread (heq ▸ List.mem_map_of_mem ha)
      have hone := ih (by simpa using hlt) fun j hj => by
        have hmem := hin (j + 1) (Nat.succ_lt_succ hj)
        rwa [Nat.add_right_comm, Nat.add_assoc] 
      rw [List.count_eq_zero_of_not_mem hread, hone]

/-- A request is followed to the last page if every request beyond its cursor is. -/
theorem exists_follows_of_beyond (hn : 0 < n)
    (hnext : ∀ a ∈ tables k, Beyond key after a → ∃ ps, Follows key n tables (k + 1) (some (key a)) ps) :
    ∃ ps, Follows key n tables k after ps := by
  by_cases hmore : n < (page key after (n + 1) (tables k)).length
  · have hne : page key after n (tables k) ≠ [] := by
      rw [← List.length_pos_iff, length_page_of_lt hmore]
      exact hn
    obtain ⟨xs, a, hpage⟩ := (List.eq_nil_or_concat' _).resolve_left hne
    have ha : a ∈ page key after n (tables k) := by simp [hpage]
    obtain ⟨ps, hps⟩ := hnext a (mem_of_mem_page ha).1 (mem_of_mem_page ha).2
    exact ⟨_, .more hmore hpage hps⟩
  · exact ⟨_, .last (not_lt.mp hmore)⟩

/-- Where the keys of the tables cannot ascend for ever, there is a last page. -/
theorem exists_follows (hn : 0 < n)
    (hwf : {x | ∃ j, ∃ r ∈ tables j, key r = x}.WellFoundedOn (· > ·)) (k : ℕ) :
    ∃ ps, Follows key n tables k none ps := by
  have hsome : ∀ x ∈ {x | ∃ j, ∃ r ∈ tables j, key r = x}, ∀ k, ∃ ps, Follows key n tables k (some x) ps := by
    intro x hx
    refine hwf.induction (P := fun x => ∀ k, ∃ ps, Follows key n tables k (some x) ps) hx ?_
    intro x _ ih k
    refine exists_follows_of_beyond hn fun a ha hbeyond => ?_
    exact ih (key a) ⟨k, a, ha, rfl⟩ (beyond_some.mp hbeyond) (k + 1)
  exact exists_follows_of_beyond hn fun a ha _ => hsome (key a) ⟨k, a, ha, rfl⟩ (k + 1)

end Keyset
