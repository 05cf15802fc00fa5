/-
  Kremlin.Library.Differences — neighbour differences in place.

  `differences n` walks down from index `n` and replaces every entry by its
  difference from the entry before; `sums n` walks up and adds them again.
  Nothing is assumed of the entries but that they form a group, so words that
  wrap are covered.
-/
import Mathlib.Algebra.Group.Basic
import Mathlib.Tactic.Common

namespace Kremlin.Library

variable {α : Type}

/-- `for i = n, …, 1 : a[i] = a[i] - a[i-1]`. -/
def differences [Zero α] [Sub α] : ℕ → List α → List α
  | 0, a => a
  | i + 1, a => differences i (a.set (i + 1) (a.getD (i + 1) 0 - a.getD i 0))

/-- `for i = 1, …, n : a[i] = a[i] + a[i-1]`. -/
def sums [Zero α] [Add α] : ℕ → List α → List α
  | 0, a => a
  | i + 1, a => (sums i a).set (i + 1) ((sums i a).getD (i + 1) 0 + (sums i a).getD i 0)

/-- The number of entries stays. -/
@[simp] theorem length_differences [Zero α] [Sub α] (n : ℕ) (a : List α) :
    (differences n a).length = a.length := by
  induction n generalizing a with
  | zero => rfl
  | succ i ih => simp [differences, ih]

/-- **One entry after the walk**: its difference from the one before, if the walk
came to it. -/
theorem getD_differences [Zero α] [Sub α] {n : ℕ} {a : List α} (h : n < a.length) (j : ℕ) :
    (differences n a).getD j 0
      = if 0 < j ∧ j ≤ n then a.getD j 0 - a.getD (j - 1) 0 else a.getD j 0 := by
  induction n generalizing a with
  | zero => rw [if_neg (by omega), differences]
  | succ i ih =>
      -- the walk starts by writing entry `i + 1`, and comes to the others later
      have hset : ∀ j', (a.set (i + 1) (a.getD (i + 1) 0 - a.getD i 0)).getD j' 0
          = if j' = i + 1 then a.getD (i + 1) 0 - a.getD i 0 else a.getD j' 0 := by
        intro j'
        simp only [List.getD_eq_getElem?_getD, List.getElem?_set]
        by_cases hj : i + 1 = j'
        · subst hj
          simp [h]
        · rw [if_neg hj, if_neg (Ne.symm hj)]
      rw [differences, ih (by rw [List.length_set]; omega), hset, hset]
      by_cases hj : j = i + 1
      · subst hj
        rw [if_neg (by omega), if_pos rfl, if_pos (by omega), Nat.add_sub_cancel]
      · rw [if_neg hj]
        by_cases hin : 0 < j ∧ j ≤ i
        · rw [if_pos hin, if_neg (by omega), if_pos (by omega)]
        · rw [if_neg hin, if_neg (by omega)]

variable [AddCommGroup α]

/-- **Summing up undoes taking differences.**  Induction on the number of
entries walked: the upward walk ends where the downward walk began. -/
theorem sums_differences {n : ℕ} {a : List α} (h : n < a.length) :
    sums n (differences n a) = a := by
  induction n generalizing a with
  | zero => rfl
  | succ i ih =>
      have hback : sums i (differences (i + 1) a)
          = a.set (i + 1) (a.getD (i + 1) 0 - a.getD i 0) := by
        apply ih
        rw [List.length_set]
        omega
      show (sums i (differences (i + 1) a)).set (i + 1) _ = a
      rw [hback]
      apply List.ext_getElem (by simp)
      intro j hj hj'
      simp only [List.set_set, List.getElem_set, List.getD_eq_getElem?_getD]
      by_cases hji : i + 1 = j
      · subst hji
        simp [h]
      · rw [if_neg hji]

end Kremlin.Library
