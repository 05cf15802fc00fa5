/-
  Kremlin.Planner.SRegion — static regions, and the comparisons used for sorting.

  `SRegion.compareTo` subtracts two 64-bit ids and keeps the lower half of the
  difference; `CRegionRecord.compareTo` never returns 0.  What `Collections.sort`
  asks of a comparison holds of them only for some regions and records
  (`compareTo_orders_iff`).
-/
import Kremlin.Planner.PlanPrinter
import Mathlib.Data.BitVec

namespace Kremlin.Planner

open Kremlin.Library

/-! ## §1. Regions. -/

/-- `RegionType`. -/
inductive SRegionType where
  | func
  | loop
  | body
  | callsite
  deriving DecidableEq

/-- `SRegion`. -/
structure SRegion where
  id : BitVec 64
  name : String
  module : String
  func : String
  startLine : ℤ
  endLine : ℤ
  type : SRegionType
  deriving DecidableEq

/-- `SRegion.compareTo`: `(int)(target.id - this.id)`. -/
def SRegion.compareTo (region target : SRegion) : ℤ :=
  ((target.id - region.id).setWidth 32).toInt

/-! ## §2. The laws. -/

/-- The laws among the elements of a list. -/
structure OrdersOn {α : Type} (cmp : α → α → ℤ) (xs : List α) : Prop where
  opposite : ∀ x ∈ xs, ∀ y ∈ xs, Opposite cmp x y
  transitive : ∀ x ∈ xs, ∀ y ∈ xs, ∀ z ∈ xs, Transitive cmp x y z

/-- What is ordered stays so when there is less of it. -/
theorem OrdersOn.sublist {α : Type} {cmp : α → α → ℤ} {xs ys : List α} (h : OrdersOn cmp xs)
    (hsub : ∀ x ∈ ys, x ∈ xs) : OrdersOn cmp ys where
  opposite x hx y hy := h.opposite x (hsub x hx) y (hsub y hy)
  transitive x hx y hy z hz := h.transitive x (hsub x hx) y (hsub y hy) z (hsub z hz)

/-! ## §3. Their ids. -/

/-- The distance from one id to another, modulo `2 ^ 32`. -/
def idDistance (x y : SRegion) : ℤ := ((y.id.toNat : ℤ) - x.id.toNat) % 2 ^ 32

/-- The lower half of the difference, with its sign. -/
theorem SRegion.compareTo_eq (x y : SRegion) :
    x.compareTo y = if idDistance x y < 2 ^ 31 then idDistance x y else idDistance x y - 2 ^ 32 := by
  unfold SRegion.compareTo idDistance
  rw [BitVec.toInt_eq_toNat_cond, BitVec.toNat_setWidth, BitVec.toNat_sub]
  have hx := x.id.isLt
  have hy := y.id.isLt
  split <;> split <;> omega

/-- A distance is a lower half. -/
theorem idDistance_bounds (x y : SRegion) : 0 ≤ idDistance x y ∧ idDistance x y < 2 ^ 32 := by
  unfold idDistance
  omega

/-- Distances add up. -/
theorem idDistance_add (x y z : SRegion) :
    idDistance x z = (idDistance x y + idDistance y z) % 2 ^ 32 := by
  unfold idDistance
  omega

/-- **When the regions are within half a turn, the comparison is that of their
distances.** -/
theorem SRegion.compareTo_of_window {a x y : SRegion} (hx : idDistance a x < 2 ^ 31)
    (hy : idDistance a y < 2 ^ 31) : x.compareTo y = idDistance a y - idDistance a x := by
  rw [compareTo_eq]
  have hax := idDistance_bounds a x
  have hay := idDistance_bounds a y
  have hxy := idDistance_bounds x y
  have hadd := idDistance_add a x y
  split <;> omega

/-- Ids of one half of the circle are in order. -/
theorem SRegion.ordersOn_of_window {xs : List SRegion} {a : SRegion}
    (h : ∀ x ∈ xs, idDistance a x < 2 ^ 31) : OrdersOn SRegion.compareTo xs where
  opposite x hx y hy := by
    unfold Opposite
    rw [compareTo_of_window (h x hx) (h y hy), compareTo_of_window (h y hy) (h x hx),
      ← Int.sign_neg, neg_sub]
  transitive x hx y hy z hz := by
    intro hxy hyz
    rw [compareTo_of_window (h x hx) (h y hy)] at hxy
    rw [compareTo_of_window (h y hy) (h z hz)] at hyz
    rw [compareTo_of_window (h x hx) (h z hz)]
    omega

/-- A region comes first when the distance is the smaller half. -/
theorem SRegion.compareTo_nonneg_iff (x y : SRegion) :
    0 ≤ x.compareTo y ↔ idDistance x y < 2 ^ 31 := by
  rw [compareTo_eq]
  have hxy := idDistance_bounds x y
  split <;> omega

/-- Where the laws hold, some region comes before all others. -/
theorem SRegion.exists_first {xs : List SRegion} (hne : xs ≠ [])
    (h : OrdersOn SRegion.compareTo xs) : ∃ a ∈ xs, ∀ x ∈ xs, 0 ≤ a.compareTo x := by
  induction xs with
  | nil => exact absurd rfl hne
  | cons first xs ih =>
      -- the induction is on the list: the first region of the rest, or the new one
      have hself : ∀ x : SRegion, x.compareTo x = 0 := by
        intro x
        rw [compareTo_eq]
        simp [idDistance]
      by_cases hnil : xs = []
      · subst hnil
        refine ⟨first, List.mem_cons_self, fun x hx => ?_⟩
        rw [List.mem_singleton.mp hx, hself]
      · obtain ⟨a, ha, hall⟩ := ih hnil (h.sublist fun x hx => List.mem_cons_of_mem _ hx)
        have hmem : a ∈ first :: xs := List.mem_cons_of_mem _ ha
        by_cases hfirst : 0 ≤ a.compareTo first
        · refine ⟨a, hmem, fun x hx => ?_⟩
          rcases List.mem_cons.mp hx with rfl | hx
          · exact hfirst
          · exact hall x hx
        · -- `first` comes before `a`, and so before all others
          have hopp := h.opposite first List.mem_cons_self a hmem
          have hpos : 0 < first.compareTo a := by
            rw [← Int.sign_eq_one_iff_pos]
            rw [Opposite, Int.sign_eq_neg_one_of_neg (not_le.mp hfirst), neg_neg] at hopp
            exact hopp
          refine ⟨first, List.mem_cons_self, fun x hx => ?_⟩
          rcases List.mem_cons.mp hx with rfl | hx
          · rw [hself]
          · rcases (hall x hx).lt_or_eq with hlt | heq
            · exact le_of_lt (h.transitive first List.mem_cons_self a hmem x
                (List.mem_cons_of_mem _ hx) hpos hlt)
            · -- the same lower half: the same distance
              rw [compareTo_nonneg_iff]
              rw [compareTo_eq] at heq hpos
              have hadd := idDistance_add first a x
              have hbounds := idDistance_bounds a x
              have hbounds' := idDistance_bounds first a
              split at heq <;> split at hpos <;> omega

/-! ## §4. When the comparisons are orders. -/

/-- **When the comparisons used for sorting are orders.**  Two records compare
the opposite way round if and only if one saving is less than the other; chains
of records are always transitive.  A list of regions is compared by the laws if
and only if their ids, modulo `2 ^ 32`, lie less than `2 ^ 31` from the id of
one of them. -/
theorem compareTo_orders_iff (x y z : CRegionRecord) (xs : List SRegion) :
    (Opposite CRegionRecord.compareTo x y ↔
      x.timeSave.lt y.timeSave = true ∨ y.timeSave.lt x.timeSave = true) ∧
      Transitive CRegionRecord.compareTo x y z ∧
      (OrdersOn SRegion.compareTo xs ↔
        (xs ≠ [] → ∃ a ∈ xs, ∀ x ∈ xs, ((x.id.toNat : ℤ) - a.id.toNat) % 2 ^ 32 < 2 ^ 31)) := by
  refine ⟨CRegionRecord.opposite_iff x y, CRegionRecord.transitive x y z, ?_, ?_⟩
  · intro h hne
    obtain ⟨a, ha, hall⟩ := SRegion.exists_first hne h
    exact ⟨a, ha, fun x hx => (SRegion.compareTo_nonneg_iff a x).mp (hall x hx)⟩
  · intro h
    by_cases hnil : xs = []
    · subst hnil
      exact ⟨fun x hx => (by cases hx), fun x hx => (by cases hx)⟩
    · obtain ⟨a, -, hall⟩ := h hnil
      exact SRegion.ordersOn_of_window hall

/-- A region with the given id. -/
def regionOfId (id : BitVec 64) : SRegion := ⟨id, "N/A", "", "", 0, 0, .func⟩

/-- Equal savings give -1 both ways; so do ids that are `2 ^ 31` apart, and three
ids a quarter of `2 ^ 32` apart break transitivity. -/
theorem compareTo_breaks_laws :
    ¬Opposite CRegionRecord.compareTo ⟨1, 4, .fin 5⟩ ⟨2, 4, .fin 5⟩ ∧
      ¬Opposite SRegion.compareTo (regionOfId 0) (regionOfId (2 ^ 31)) ∧
      ¬Transitive SRegion.compareTo (regionOfId 0) (regionOfId (2 ^ 30)) (regionOfId (2 ^ 31)) := by
  refine ⟨?_, ?_, ?_⟩
  · unfold Opposite
    decide +kernel
  · unfold Opposite
    decide +kernel
  · unfold Transitive
    decide +kernel

end Kremlin.Planner
