/-
  Kremlin.Shadow.ActiveLevels — the versions an access is made with.

  Every region gets a version when it is entered, larger than all before it, and
  the version stays in the array when the region is left.  The first `levels`
  versions are those of the active regions: they increase with the level, and
  the memory of what was stored before a region was entered has nothing under
  its version.
-/
import Kremlin.Library.VersionedMap
import Mathlib.Logic.Function.Basic

namespace Kremlin.Shadow

open Kremlin.Library

/-- The regions that are open: the version of each level and the number of levels. -/
structure ActiveLevels where
  versions : ℕ → ℕ
  levels : ℕ
  /-- Above every version so far. -/
  next : ℕ

namespace ActiveLevels

/-- No region is open. -/
def start : ActiveLevels := ⟨fun _ => 0, 0, 0⟩

/-- A region is entered: the next level gets its version. -/
def enter (a : ActiveLevels) (version : ℕ) : ActiveLevels where
  versions := Function.update a.versions a.levels version
  levels := a.levels + 1
  next := version + 1

/-- The innermost region is left; its version stays in the array. -/
def exit (a : ActiveLevels) : ActiveLevels := { a with levels := a.levels - 1 }

/-- The versions of the active levels increase. -/
structure Ordered (a : ActiveLevels) : Prop where
  lt : ∀ i j, i < j → j < a.levels → a.versions i < a.versions j
  below : ∀ i < a.levels, a.versions i < a.next

theorem ordered_start : start.Ordered where
  lt _ j _ hj := absurd hj (Nat.not_lt_zero j)
  below i hi := absurd hi (Nat.not_lt_zero i)

theorem Ordered.le {a : ActiveLevels} (h : a.Ordered) {i j : ℕ} (hij : i ≤ j)
    (hj : j < a.levels) : a.versions i ≤ a.versions j := by
  rcases Nat.lt_or_eq_of_le hij with hlt | heq
  · exact Nat.le_of_lt (h.lt i j hlt hj)
  · exact heq ▸ Nat.le_refl _

@[simp] theorem versions_enter_self (a : ActiveLevels) (version : ℕ) :
    (a.enter version).versions a.levels = version := Function.update_self _ _ _

theorem versions_enter_of_lt (a : ActiveLevels) (version : ℕ) {i : ℕ} (hi : i < a.levels) :
    (a.enter version).versions i = a.versions i := Function.update_of_ne (by omega) _ _

theorem Ordered.enter {a : ActiveLevels} (h : a.Ordered) {version : ℕ}
    (hnew : a.next ≤ version) : (a.enter version).Ordered := by
  have hold : ∀ i < a.levels, (a.enter version).versions i < version := by
    intro i hi
    rw [a.versions_enter_of_lt version hi]
    exact Nat.lt_of_lt_of_le (h.below i hi) hnew
  constructor
  · intro i j hij hj
    rcases Nat.lt_or_eq_of_le (Nat.le_of_lt_succ hj) with hlt | heq
    · rw [a.versions_enter_of_lt version hlt, a.versions_enter_of_lt version (Nat.lt_trans hij hlt)]
      exact h.lt i j hij hlt
    · subst heq
      rw [versions_enter_self]
      exact hold i hij
  · intro i hi
    rcases Nat.lt_or_eq_of_le (Nat.le_of_lt_succ hi) with hlt | heq
    · exact Nat.lt_succ_of_lt (hold i hlt)
    · subst heq
      rw [versions_enter_self]
      exact Nat.lt_succ_self _

theorem Ordered.exit {a : ActiveLevels} (h : a.Ordered) : a.exit.Ordered where
  lt i j hij hj := h.lt i j hij (Nat.lt_of_lt_of_le hj (Nat.sub_le _ _))
  below i hi := h.below i (Nat.lt_of_lt_of_le hi (Nat.sub_le _ _))

/-- A word read at the level just entered is 0, and elsewhere as before. -/
theorem view_enter {W : Type} {m : VersionedMap W} {a : ActiveLevels} (hm : m.Below a.next)
    {version : ℕ} (hnew : a.next ≤ version) (w : W) {l : ℕ} (hl : l < (a.enter version).levels) :
    m.view (a.enter version).versions w l
      = if l < a.levels then m.view a.versions w l else 0 := by
  split
  next hold => exact m.view_congr (a.versions_enter_of_lt version hold) w
  next hlast =>
    have heq : l = a.levels := by
      have := Nat.le_of_lt_succ hl
      omega
    subst heq
    exact hm.view_fresh (by rw [versions_enter_self]; exact hnew) w

end ActiveLevels

end Kremlin.Shadow
