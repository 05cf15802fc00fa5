/-
  Kremlin.Planner.CRegionTimeStatus — execution times under parallelization.

  `CRegionTimeStatus.java`.  The status keeps an estimated time for every
  region.  Parallelizing a region re-estimates that region and what is above it;
  the times are the same as those of an evaluation of the whole tree from its
  leaves (`FromScratch`), whatever came before.

  `none` is an exception: a failed assertion (the planner is run with `-ea`), an
  absent value that is used, or an exception of a getter.  A `double` is an
  exact one and a `long` an integer.
-/
import Kremlin.Library.TreeEvaluation
import Kremlin.Planner.RegionForest
import Kremlin.Planner.SelfParallelism
import Mathlib.Algebra.Order.Field.Rat
import Mathlib.Data.Finset.Insert
import Mathlib.Data.Rat.Floor
import Mathlib.Tactic.Linarith

namespace Kremlin.Planner

open Kremlin.Library Relation

/-! ## §1. The status. -/

/-- `CRegionTimeStatus`; its root is the manager's. -/
structure CRegionTimeStatus where
  manager : CRegionManager
  timeMap : KeyMap ℕ ℤ
  speedupMap : KeyMap ℕ Double
  parallelSet : Finset ℕ

/-- The loop of `estimateCRegionTime` over the children. -/
def sumTimes (tMap : ℕ → Option ℤ) (sum : ℤ) (children : List ℕ) : Option ℤ :=
  children.foldlM (fun sum child => do
    let time ← tMap child
    some (sum + time)) sum

/-- `estimateCRegionTime`. -/
def estimateCRegionTime (regionMap : RegionMap) (entry : CRegion) (speedup : Double)
    (tMap : ℕ → Option ℤ) (serial : Bool) : Option ℤ := do
  let sum ← sumTimes tMap 0 entry.children
  let serialTime := (← entry.getExclusiveWork regionMap) + sum
  if serial then some serialTime
  else
    let parallelTime := ((Double.fin serialTime).div speedup).ceil.toLong
    some (if parallelTime > serialTime then serialTime else parallelTime)

namespace CRegionTimeStatus

/-- The constructor: every region takes its total work. -/
def new (manager : CRegionManager) : Option CRegionTimeStatus := do
  let timeMap ← manager.regionMap.keys.foldlM (fun (timeMap : KeyMap ℕ ℤ) each => do
    let region ← manager.regionMap.get each
    let work ← region.getTotalWork
    some (timeMap.put each work)) KeyMap.empty
  some ⟨manager, timeMap, KeyMap.empty, ∅⟩

/-- The body of the work-list loop; the flag is `rootHandled`. -/
def visitRegion (s : CRegionTimeStatus × Bool) (current : ℕ) :
    Option ((CRegionTimeStatus × Bool) × List ℕ) := do
  let region ← s.1.manager.regionMap.get current
  let isSerial := decide (current ∉ s.1.parallelSet)
  let speedup ← if isSerial then some (.fin 1) else s.1.speedupMap.get current
  let updatedTime ← estimateCRegionTime s.1.manager.regionMap region speedup s.1.timeMap.get isSerial
  some (({ s.1 with timeMap := s.1.timeMap.put current updatedTime },
    s.2 || decide (current = s.1.manager.root)), region.parent.toList)

/-- `calculateTimeAfterParallelization`.  The loop works on the maps of the
status itself when `update` is set, and on copies of them otherwise. -/
def calculateTimeAfterParallelization (fuel : ℕ) (s : CRegionTimeStatus) (target : ℕ)
    (inSpeedup : Double) (update : Bool) : Option (CRegionTimeStatus × ℤ) := do
  if (Double.fin 1).le inSpeedup then do
    let temp := { s with
      parallelSet := insert target s.parallelSet
      speedupMap := s.speedupMap.put target inSpeedup }
    let (temp, rootHandled) ← traverse visitRegion fuel [target] (temp, false)
    if rootHandled then do
      let ret ← temp.timeMap.get s.manager.root
      some (if update then temp else s, ret)
    else none
  else none

/-- The time is computed and the status restored. -/
def peekParallelTime (fuel : ℕ) (s : CRegionTimeStatus) (region : ℕ) (speedup : Double) :
    Option (CRegionTimeStatus × ℤ) :=
  s.calculateTimeAfterParallelization fuel region speedup false

/-- The region is parallelized for good. -/
def parallelize (fuel : ℕ) (s : CRegionTimeStatus) (region : ℕ) (speedup : Double) :
    Option CRegionTimeStatus := do
  let (s, _) ← s.calculateTimeAfterParallelization fuel region speedup true
  some s

/-- `getExecTime()`, of the whole program. -/
def getExecTime (s : CRegionTimeStatus) : Option ℤ := s.timeMap.get s.manager.root

end CRegionTimeStatus

/-! ## §2. One region. -/

/-- The time of a region of the given speedup, if it has one. -/
def timeOf (speedup : Option Double) (serialTime : ℤ) : ℤ :=
  match speedup with
  | none => serialTime
  | some speedup =>
      let parallelTime := ((Double.fin serialTime).div speedup).ceil.toLong
      if parallelTime > serialTime then serialTime else parallelTime

/-- A speedup is a factor between zero and one. -/
theorem exists_factor {speedup : Double} (h : (Double.fin 1).le speedup = true) :
    ∃ q : ℚ, 0 ≤ q ∧ q ≤ 1 ∧
      ∀ s : ℤ, ((Double.fin s).div speedup).ceil.toLong = ⌈(s : ℚ) * q⌉ := by
  cases speedup with
  | fin v =>
      have hv := (Double.fin_le 1 v).mp h
      have hpos : (0 : ℚ) < v := by linarith
      refine ⟨v⁻¹, inv_nonneg.mpr hpos.le, inv_le_one_of_one_le₀ hv, fun s => ?_⟩
      rw [Double.fin_div hpos.ne', Double.toLong_ceil_fin, div_eq_mul_inv]
  | posInf =>
      refine ⟨0, le_refl 0, zero_le_one, fun s => ?_⟩
      rw [mul_zero]
      exact Double.toLong_ceil_fin 0
  | negInf => cases h
  | nan => cases h

section TimeOf

variable {speedup : Option Double} {s s' : ℤ}

/-- A parallel region takes no longer than a serial one. -/
theorem timeOf_eq (h : ∀ v ∈ speedup, (Double.fin 1).le v = true) :
    ∃ q : ℚ, 0 ≤ q ∧ q ≤ 1 ∧ ∀ s : ℤ, 0 ≤ s → timeOf speedup s = ⌈(s : ℚ) * q⌉ := by
  cases speedup with
  | none =>
      refine ⟨1, zero_le_one, le_refl 1, fun s _ => ?_⟩
      rw [mul_one, Int.ceil_intCast]
      rfl
  | some v =>
      obtain ⟨q, hq, hq', hceil⟩ := exists_factor (h v rfl)
      refine ⟨q, hq, hq', fun s hs => ?_⟩
      have hs' : (0 : ℚ) ≤ s := by exact_mod_cast hs
      have hle : ⌈(s : ℚ) * q⌉ ≤ s := Int.ceil_le.mpr (mul_le_of_le_one_right hs' hq')
      unfold timeOf
      simp only [hceil]
      rw [if_neg (not_lt.mpr hle)]

/-- No time is negative. -/
theorem timeOf_nonneg (h : ∀ v ∈ speedup, (Double.fin 1).le v = true) (hs : 0 ≤ s) :
    0 ≤ timeOf speedup s := by
  obtain ⟨q, hq, -, heq⟩ := timeOf_eq h
  rw [heq s hs]
  have hs' : (0 : ℚ) ≤ s := by exact_mod_cast hs
  exact Int.ceil_nonneg (mul_nonneg hs' hq)

/-- A speedup of at least 1 makes nothing slower -/
theorem timeOf_le (h : ∀ v ∈ speedup, (Double.fin 1).le v = true) (hs : 0 ≤ s) :
    timeOf speedup s ≤ s := by
  obtain ⟨q, -, hq', heq⟩ := timeOf_eq h
  rw [heq s hs]
  have hs' : (0 : ℚ) ≤ s := by exact_mod_cast hs
  exact Int.ceil_le.mpr (mul_le_of_le_one_right hs' hq')

/-- and keeps the order. -/
theorem timeOf_mono (h : ∀ v ∈ speedup, (Double.fin 1).le v = true) (hs : 0 ≤ s) (hle : s ≤ s') :
    timeOf speedup s ≤ timeOf speedup s' := by
  obtain ⟨q, hq, -, heq⟩ := timeOf_eq h
  rw [heq s hs, heq s' (hs.trans hle)]
  have hle' : (s : ℚ) ≤ s' := by exact_mod_cast hle
  exact Int.ceil_le_ceil (mul_le_mul_of_nonneg_right hle' hq)

end TimeOf

section Sums

variable {t t' : ℕ → Option ℤ} {children : List ℕ}

/-- The times of the children are added in order. -/
theorem sumTimes_cons (t : ℕ → Option ℤ) (a : ℤ) (c : ℕ) (children : List ℕ) :
    sumTimes t a (c :: children) = (t c).bind fun time => sumTimes t (a + time) children := by
  unfold sumTimes
  rw [List.foldlM_cons]
  cases t c <;> rfl

/-- Only the children's times count. -/
theorem sumTimes_congr (h : ∀ c ∈ children, t c = t' c) (a : ℤ) :
    sumTimes t a children = sumTimes t' a children := by
  induction children generalizing a with
  | nil => rfl
  | cons c children ih =>
      rw [sumTimes_cons, sumTimes_cons, h c List.mem_cons_self]
      congr 1
      funext time
      exact ih (fun d hd => h d (List.mem_cons_of_mem _ hd)) _

/-- Two sums of times that are not negative, the one below the other. -/
theorem sumTimes_le
    (h : ∀ c ∈ children, ∃ v w, t c = some v ∧ t' c = some w ∧ 0 ≤ v ∧ v ≤ w) {a b : ℤ}
    (ha : 0 ≤ a) (hab : a ≤ b) :
    ∃ v w, sumTimes t a children = some v ∧ sumTimes t' b children = some w ∧ 0 ≤ v ∧ v ≤ w := by
  induction children generalizing a b with
  | nil => exact ⟨a, b, rfl, rfl, ha, hab⟩
  | cons c children ih =>
      obtain ⟨v, w, hv, hw, hnonneg, hle⟩ := h c List.mem_cons_self
      rw [sumTimes_cons, sumTimes_cons, hv, hw]
      exact ih (fun d hd => h d (List.mem_cons_of_mem _ hd)) (by omega) (by omega)

end Sums

end Kremlin.Planner
