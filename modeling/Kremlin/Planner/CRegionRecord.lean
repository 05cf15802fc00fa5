/-
  Kremlin.Planner.CRegionRecord — the records of a plan, and sorting them.

  `CRegionRecord.compareTo` never returns 0, so two records with one saving each
  come before the other.  `Collections.sort` asks of a comparison that it does not
  do that.  It may throw where it notices, and on short lists it does not look:
  they are sorted by insertion.

  Main results:
    * `opposite_iff`, `transitive` — which of the laws the comparison keeps;
    * `sortsRecords_checkedSort` — a sort that always throws where it may.
-/
import Kremlin.Library.ExactDouble
import Mathlib.Data.List.Perm.Basic
import Mathlib.Order.Basic

namespace Kremlin.Planner

open Kremlin.Library

/-- `CRegionRecord`. -/
structure CRegionRecord where
  info : ℕ
  nCore : ℤ
  timeSave : Double
  deriving DecidableEq

/-- `CRegionRecord.compareTo`. -/
def CRegionRecord.compareTo (record target : CRegionRecord) : ℤ :=
  if (Double.fin 0).lt (target.timeSave.sub record.timeSave) then 1 else -1

/-! ## §1. The laws. -/

/-- `sgn(x.compareTo(y)) == -sgn(y.compareTo(x))` -/
def Opposite {α : Type} (cmp : α → α → ℤ) (x y : α) : Prop :=
  (cmp x y).sign = -(cmp y x).sign

/-- `x.compareTo(y) > 0 && y.compareTo(z) > 0` implies `x.compareTo(z) > 0`. -/
def Transitive {α : Type} (cmp : α → α → ℤ) (x y z : α) : Prop :=
  0 < cmp x y → 0 < cmp y z → 0 < cmp x z

namespace CRegionRecord

/-- The comparison, by the savings. -/
theorem compareTo_eq (record target : CRegionRecord) :
    record.compareTo target = if record.timeSave.lt target.timeSave = true then 1 else -1 := by
  unfold compareTo
  rw [Double.zero_lt_sub]

/-- A record comes later when it saves less. -/
theorem compareTo_pos (record target : CRegionRecord) :
    0 < record.compareTo target ↔ record.timeSave.lt target.timeSave = true := by
  rw [compareTo_eq]
  split
  · next h => exact iff_of_true Int.one_pos h
  · next h => exact iff_of_false (by decide) h

/-- Otherwise it comes first. -/
theorem compareTo_ne_one (record target : CRegionRecord) :
    record.compareTo target ≠ 1 ↔ ¬record.timeSave.lt target.timeSave = true := by
  rw [compareTo_eq]
  split
  · next h => exact iff_of_false (fun hne => hne rfl) fun hnot => hnot h
  · next h => exact iff_of_true (by decide) h

/-- Two records compare the opposite way round when one saving is the less. -/
theorem opposite_iff (x y : CRegionRecord) :
    Opposite compareTo x y ↔
      x.timeSave.lt y.timeSave = true ∨ y.timeSave.lt x.timeSave = true := by
  unfold Opposite
  rw [compareTo_eq, compareTo_eq]
  by_cases hxy : x.timeSave.lt y.timeSave = true
  · rw [if_pos hxy, if_neg (Double.lt_asymm hxy)]
    exact iff_of_true (by decide) (.inl hxy)
  · by_cases hyx : y.timeSave.lt x.timeSave = true
    · rw [if_neg hxy, if_pos hyx]
      exact iff_of_true (by decide) (.inr hyx)
    · rw [if_neg hxy, if_neg hyx]
      exact iff_of_false (by decide) (not_or.mpr ⟨hxy, hyx⟩)

/-- The comparison is transitive. -/
theorem transitive (x y z : CRegionRecord) : Transitive compareTo x y z := by
  intro hxy hyz
  rw [compareTo_pos] at hxy hyz ⊢
  exact Double.lt_chain hxy hyz

instance (x y : CRegionRecord) : Decidable (Opposite compareTo x y) :=
  inferInstanceAs (Decidable (_ = _))

end CRegionRecord

/-! ## §2. `Collections.sort`. -/

/-- What is relied on of `Collections.sort`, which is the library's; `none` is the exception
that the comparison violates its contract. -/
structure SortsRecords (sort : List CRegionRecord → Option (List CRegionRecord)) : Prop where
  /-- What is returned are the records, in order where their savings are numbers. -/
  sorted : ∀ xs ys, sort xs = some ys → ys.Perm xs ∧
    ((∀ record ∈ xs, record.timeSave ≠ .nan) →
      ys.Pairwise fun record later => record.compareTo later ≠ 1)
  /-- Fewer than 32 records are inserted one by one, whatever the comparison says. -/
  few : ∀ xs, xs.length < 32 → (sort xs).isSome
  /-- Nothing is thrown where the contract is kept. -/
  lawful : ∀ xs, xs.Pairwise (Opposite CRegionRecord.compareTo) →
    (∀ x ∈ xs, ∀ y ∈ xs, ∀ z ∈ xs, Transitive CRegionRecord.compareTo x y z) → (sort xs).isSome

/-- Savings that are no numbers come last. -/
def CRegionRecord.notBefore (record later : CRegionRecord) : Bool :=
  later.timeSave = .nan ∨ record.timeSave ≠ .nan ∧ ¬record.timeSave.lt later.timeSave = true

/-- **A sort that throws wherever it may.** -/
def checkedSort (xs : List CRegionRecord) : Option (List CRegionRecord) :=
  if xs.length < 32 ∨ xs.Pairwise (Opposite CRegionRecord.compareTo) then
    some (xs.mergeSort CRegionRecord.notBefore)
  else none

/-- The sort returns on short lists and on those without ties. -/
theorem checkedSort_isSome_iff (xs : List CRegionRecord) :
    (checkedSort xs).isSome ↔
      xs.length < 32 ∨ xs.Pairwise (Opposite CRegionRecord.compareTo) := by
  unfold checkedSort
  split
  · next h => exact iff_of_true rfl h
  · next h => exact iff_of_false Bool.false_ne_true h

/-- The order of the savings is transitive -/
theorem CRegionRecord.notBefore_trans (x y z : CRegionRecord) (hxy : x.notBefore y = true)
    (hyz : y.notBefore z = true) : x.notBefore z = true := by
  simp only [notBefore, decide_eq_true_eq] at hxy hyz ⊢
  rcases hyz with hz | ⟨hy, hyz⟩
  · exact .inl hz
  obtain ⟨hx, hxy⟩ := hxy.resolve_left hy
  exact .inr ⟨hx, fun hxz => (Double.lt_split hy hxz).elim hxy hyz⟩

/-- and total. -/
theorem CRegionRecord.notBefore_total (x y : CRegionRecord) :
    (x.notBefore y || y.notBefore x) = true := by
  rw [Bool.or_eq_true]
  simp only [notBefore, decide_eq_true_eq]
  by_cases hx : x.timeSave = .nan
  · exact .inr (.inl hx)
  by_cases hy : y.timeSave = .nan
  · exact .inl (.inl hy)
  by_cases hlt : x.timeSave.lt y.timeSave = true
  · exact .inr (.inr ⟨hy, Double.lt_asymm hlt⟩)
  · exact .inl (.inr ⟨hx, hlt⟩)

/-- The checked sort is one that the planner may have. -/
theorem sortsRecords_checkedSort : SortsRecords checkedSort where
  sorted xs ys h := by
    unfold checkedSort at h
    split at h
    · cases h
      refine ⟨List.mergeSort_perm _ _, fun hnumbers => ?_⟩
      have hsorted := List.pairwise_mergeSort CRegionRecord.notBefore_trans
        CRegionRecord.notBefore_total xs
      refine hsorted.imp_of_mem fun {record later} _ hlater h => ?_
      simp only [CRegionRecord.notBefore, decide_eq_true_eq] at h
      rw [CRegionRecord.compareTo_ne_one]
      exact (h.resolve_left (hnumbers later (List.mem_mergeSort.mp hlater))).2
    · cases h
  few xs h := (checkedSort_isSome_iff xs).mpr (.inl h)
  lawful xs h _ := (checkedSort_isSome_iff xs).mpr (.inr h)

end Kremlin.Planner
