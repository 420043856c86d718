import Mathlib.Data.Bool.AllAny
import Mathlib.Data.List.Basic

/-!
# Character columns of a bounded length

What an assignment to a column `VARCHAR(n)` stores. A text that is too long is stored where only
blanks are past the length, and without these; no column holds a NUL.
-/

namespace Varchar

/-- What an assignment makes of a text before the column takes or refuses it. -/
def assign (n : ℕ) (s : String) : String :=
  if (s.toList.drop n).all (fun c => decide (c = ' ')) then String.ofList (s.toList.take n) else s

/-- The texts that a column of a length holds. -/
def fitsColumn (length : ℕ) (s : String) : Bool := decide (s.length ≤ length) && !s.toList.contains '\x00'

variable {n : ℕ} {s : String}

theorem assign_of_length_le (h : s.length ≤ n) : assign n s = s := by
  have hdrop : s.toList.drop n = [] := List.drop_of_length_le (by rwa [String.length_toList])
  rw [assign, hdrop, List.all_nil, if_pos rfl, List.take_of_length_le (by rwa [String.length_toList]), String.ofList_toList]

/-- What does not fill the column was assigned as it is. -/
theorem eq_of_assign (h : (assign n s).length < n) : assign n s = s := by
  by_cases hblank : (s.toList.drop n).all (fun c => decide (c = ' ')) = true
  · rw [assign, if_pos hblank, String.length_ofList, List.length_take, String.length_toList] at h
    exact assign_of_length_le (by omega)
  · rw [assign, if_neg hblank]

theorem assign_eq_of_length_lt {t : String} (ht : t.length < n) : assign n s = t ↔ s = t := by
  constructor
  · intro h
    exact (eq_of_assign (h ▸ ht)).symm.trans h
  · rintro rfl
    exact assign_of_length_le (Nat.le_of_lt ht)

/-- A text is stored if it has no NUL, and nothing but blanks past the length. -/
theorem fitsColumn_assign_iff :
    fitsColumn n (assign n s) = true ↔ '\x00' ∉ s.toList ∧ ∀ c ∈ s.toList.drop n, c = ' ' := by
  by_cases hblank : (s.toList.drop n).all (fun c => decide (c = ' ')) = true
  · have hall : ∀ c ∈ s.toList.drop n, c = ' ' := by simpa using hblank
    rw [assign, if_pos hblank, fitsColumn, String.length_ofList, String.toList_ofList, List.length_take]
    have hmem : '\x00' ∈ s.toList.take n ↔ '\x00' ∈ s.toList := by
      refine ⟨List.mem_of_mem_take, fun h => ?_⟩
      rw [← List.take_append_drop n s.toList] at h
      obtain htake | hdrop := List.mem_append.mp h
      · exact htake
      · exact absurd (hall _ hdrop) (by decide)
    simp only [Bool.and_eq_true, decide_eq_true_eq, Bool.not_eq_true', List.contains_eq_mem,
      decide_eq_false_iff_not, hmem]
    exact ⟨fun h => ⟨h.2, hall⟩, fun h => ⟨Nat.min_le_left _ _, h.1⟩⟩
  · rw [assign, if_neg hblank]
    refine iff_of_false (fun h => hblank ?_) fun h => hblank (by simpa using h.2)
    rw [fitsColumn, Bool.and_eq_true, decide_eq_true_eq] at h
    rw [List.drop_of_length_le (by rw [String.length_toList]; exact h.1)]
    rfl

end Varchar
