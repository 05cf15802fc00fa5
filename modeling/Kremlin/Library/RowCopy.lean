/-
  Kremlin.Library.RowCopy — laying rows out with another stride.

  A memory is a function from cells; with stride `d`, row `i` begins at cell
  `d * i`.  A loop that overwrites one block for each row leaves in row `i` what
  round `i` wrote there, as long as the blocks are not longer than the stride
  (`writeRows_inside`, `writeRows_outside`).  `memcpy_shifted` is about a block
  that is copied twice, the second time one cell further on.
-/
import Mathlib.Data.Nat.Notation
import Mathlib.Tactic.Common

namespace Kremlin.Library

variable {α : Type}

/-- The `width` cells from `start` on, replaced by those of `row`. -/
def overwrite (mem : ℕ → α) (start width : ℕ) (row : ℕ → α) : ℕ → α :=
  fun j => if start ≤ j ∧ j < start + width then row (j - start) else mem j

/-- `memcpy(dst + d, src + source, n)`, counted in cells. -/
def memcpy (dst : ℕ → α) (d : ℕ) (src : ℕ → α) (source n : ℕ) : ℕ → α :=
  overwrite dst d n fun k => src (source + k)

/-- The first `n` rounds of a loop that overwrites the block at `stride * i` in
round `i`. -/
def writeRows (stride width : ℕ) (row : ℕ → ℕ → α) (mem : ℕ → α) : ℕ → ℕ → α
  | 0 => mem
  | n + 1 => overwrite (writeRows stride width row mem n) (stride * n) width (row n)

/-- Inside the block the new row. -/
theorem overwrite_inside (mem : ℕ → α) (start : ℕ) {width k : ℕ} (row : ℕ → α) (hk : k < width) :
    overwrite mem start width row (start + k) = row k := by
  unfold overwrite
  rw [if_pos ⟨by omega, by omega⟩, Nat.add_sub_cancel_left]

/-- Outside of it what was there. -/
theorem overwrite_outside (mem : ℕ → α) {start width j : ℕ} (row : ℕ → α)
    (hj : j < start ∨ start + width ≤ j) : overwrite mem start width row j = mem j := by
  unfold overwrite
  exact if_neg (by omega)

/-- Overwriting the end of a block overwrites the block, with its beginning left
as it was. -/
theorem overwrite_end (mem : ℕ → α) (start : ℕ) {width skip : ℕ} (h : skip ≤ width)
    (row : ℕ → α) :
    overwrite mem (start + skip) (width - skip) row
      = overwrite mem start width fun k => if k < skip then mem (start + k) else row (k - skip) := by
  funext j
  unfold overwrite
  by_cases hin : start ≤ j ∧ j < start + width
  · rw [if_pos hin]
    by_cases hskip : j - start < skip
    · rw [if_neg (by omega)]
      simp only [if_pos hskip, Nat.add_sub_cancel' hin.1]
    · rw [if_pos (by omega)]
      simp only [if_neg hskip, Nat.sub_sub]
  · rw [if_neg hin, if_neg (by omega)]

/-- An earlier row ends before a later one begins. -/
theorem row_le (stride : ℕ) {i m : ℕ} (h : i < m) : stride * i + stride ≤ stride * m := by
  rw [← Nat.mul_succ]
  exact Nat.mul_le_mul_left stride h

variable {stride width : ℕ} (hw : width ≤ stride) (row : ℕ → ℕ → α) (mem : ℕ → α)
include hw

/-- Row `i` begins with what round `i` wrote. -/
theorem writeRows_inside {n i k : ℕ} (hi : i < n) (hk : k < width) :
    writeRows stride width row mem n (stride * i + k) = row i k := by
  induction n with
  | zero => exact absurd hi (Nat.not_lt_zero i)
  | succ n ih =>
      unfold writeRows
      by_cases hin : i = n
      · subst hin
        exact overwrite_inside _ _ _ hk
      · have hle := row_le stride (show i < n by omega)
        rw [overwrite_outside _ _ (.inl (by omega))]
        exact ih (by omega)

/-- Behind the block, and in the rows no round wrote, it is as it was. -/
theorem writeRows_outside {n i k : ℕ} (hk : k < stride) (hout : width ≤ k ∨ n ≤ i) :
    writeRows stride width row mem n (stride * i + k) = mem (stride * i + k) := by
  induction n with
  | zero => rfl
  | succ n ih =>
      unfold writeRows
      rw [overwrite_outside]
      · exact ih (hout.imp id fun h => by omega)
      · rcases Nat.lt_trichotomy i n with hlt | heq | hgt
        · have hle := row_le stride hlt
          exact .inl (by omega)
        · subst heq
          exact .inr (by omega)
        · have hle := row_le stride hgt
          exact .inr (by omega)

omit hw

/-- **Copying twice**, the second time one cell further on: the first cell of
the block is left from the first copy. -/
theorem memcpy_shifted (dst src : ℕ → α) (d source : ℕ) {n : ℕ} (hn : 0 < n) :
    memcpy (memcpy dst d src source n) (d + 1) src source n
      = overwrite dst d (n + 1) fun k => src (source + (k - 1)) := by
  funext j
  unfold memcpy overwrite
  by_cases hfirst : j = d
  · subst hfirst
    rw [if_neg (by omega), if_pos (by omega), if_pos (by omega), Nat.sub_self]
  · by_cases hin : d + 1 ≤ j ∧ j < d + 1 + n
    · rw [if_pos hin, if_pos (by omega)]
      show src (source + (j - (d + 1))) = src (source + (j - d - 1))
      rw [Nat.sub_sub]
    · rw [if_neg hin, if_neg (by omega), if_neg (by omega)]

end Kremlin.Library
