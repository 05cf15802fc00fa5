/-
  Kremlin.Library.VersionedMap — a map whose levels are cleared by renaming.

  Every word holds, level by level, a time and the version it was written
  under.  A reader names the version each level has now; an entry written
  under another version reads as 0.  Giving a level a fresh version therefore
  clears that level in every word at once, without touching the words.
-/
import Mathlib.Data.Nat.Notation
import Mathlib.Tactic.Common

namespace Kremlin.Library

/-- Word and level to the version and the time last stored there. -/
structure VersionedMap (W : Type) where
  cell : W → ℕ → Option (ℕ × ℕ)

namespace VersionedMap

variable {W : Type}

/-- Nothing stored. -/
def empty : VersionedMap W where
  cell _ _ := none

/-- What word `w` holds at level `l` when the levels have versions `ver`. -/
def view (m : VersionedMap W) (ver : ℕ → ℕ) (w : W) (l : ℕ) : ℕ :=
  match m.cell w l with
  | some (v, t) => if v = ver l then t else 0
  | none => 0

/-- Write the first `n` levels of a word. -/
def store [DecidableEq W] (m : VersionedMap W) (ver : ℕ → ℕ) (w : W) (n : ℕ)
    (times : ℕ → ℕ) : VersionedMap W where
  cell w' l := if w' = w ∧ l < n then some (ver l, times l) else m.cell w' l

/-- Every version in the map was issued before `next`. -/
def Below (m : VersionedMap W) (next : ℕ) : Prop :=
  ∀ w l v t, m.cell w l = some (v, t) → v < next

/-- Nothing was written. -/
@[simp] theorem view_empty (ver : ℕ → ℕ) (w : W) (l : ℕ) :
    (empty : VersionedMap W).view ver w l = 0 := rfl

/-- A view reads the version of its own level only. -/
theorem view_congr (m : VersionedMap W) {ver ver' : ℕ → ℕ} {l : ℕ} (h : ver l = ver' l)
    (w : W) : m.view ver w l = m.view ver' w l := by
  unfold view
  rw [h]

/-- A word that is written, up to the level. -/
theorem view_store [DecidableEq W] (m : VersionedMap W) (ver : ℕ → ℕ) (w w' : W) (n l : ℕ)
    (times : ℕ → ℕ) :
    (m.store ver w n times).view ver w' l
      = if w' = w ∧ l < n then times l else m.view ver w' l := by
  by_cases h : w' = w ∧ l < n
  · show (match (if w' = w ∧ l < n then some (ver l, times l) else m.cell w' l) with
      | some (v, t) => if v = ver l then t else 0
      | none => 0) = _
    simp only [if_pos h, if_true]
  · show (match (if w' = w ∧ l < n then some (ver l, times l) else m.cell w' l) with
      | some (v, t) => if v = ver l then t else 0
      | none => 0) = _
    rw [if_neg h, if_neg h]
    rfl

/-- Writing no level. -/
@[simp] theorem store_zero [DecidableEq W] (m : VersionedMap W) (ver : ℕ → ℕ) (w : W)
    (times : ℕ → ℕ) : m.store ver w 0 times = m := by
  unfold store
  simp only [Nat.not_lt_zero, and_false, if_false]

/-- No version is used. -/
theorem below_empty (next : ℕ) : (empty : VersionedMap W).Below next := by
  intro w l v t h
  cases h

/-- Versions stay below a larger one. -/
theorem Below.mono {m : VersionedMap W} {next next' : ℕ} (h : m.Below next)
    (hle : next ≤ next') : m.Below next' :=
  fun w l v t hc => Nat.lt_of_lt_of_le (h w l v t hc) hle

/-- **A level under a version not issued before reads 0 everywhere.** -/
theorem Below.view_fresh {m : VersionedMap W} {next : ℕ} (h : m.Below next) {ver : ℕ → ℕ}
    {l : ℕ} (hver : next ≤ ver l) (w : W) : m.view ver w l = 0 := by
  unfold view
  cases hc : m.cell w l with
  | none => rfl
  | some p =>
      obtain ⟨v, t⟩ := p
      have hlt : v < next := h w l v t hc
      show (if v = ver l then t else 0) = 0
      rw [if_neg (by omega)]

/-- A write uses the versions of its levels. -/
theorem Below.store [DecidableEq W] {m : VersionedMap W} {next n : ℕ} (h : m.Below next)
    {ver : ℕ → ℕ} (hver : ∀ l < n, ver l < next) (w : W) (times : ℕ → ℕ) :
    (m.store ver w n times).Below next := by
  intro w' l v t hc
  by_cases hw : w' = w ∧ l < n
  · have hp : some (ver l, times l) = some (v, t) := by
      simpa only [VersionedMap.store, if_pos hw] using hc
    have hv : ver l = v := by simpa using congrArg (Option.map Prod.fst) hp
    exact hv ▸ hver l hw.2
  · exact h w' l v t (by simpa only [VersionedMap.store, if_neg hw] using hc)

end VersionedMap

end Kremlin.Library
