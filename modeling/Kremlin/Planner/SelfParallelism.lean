/-
  Kremlin.Planner.SelfParallelism — what the planner reads off a region.

  The getters of `CRegionStat.java`, `CRegionN.java` and `CRegionR.java`.  A
  `double` is an exact one; `none` is an exception: a page index out of range,
  or an integer division by zero.

  A `CRegionR` caches its self-parallelism once it is at least one; the pages
  do not change any more by then, so the cache is not modelled.
-/
import Kremlin.Library.ExactDouble
import Kremlin.Planner.CRegionManager

namespace Kremlin.Planner

open Kremlin.Library

namespace CRegionStat

/-- The work on a page. -/
def getTotalWork (stat : CRegionStat) : ℕ := stat.work

/-- An integer division. -/
def getAvgWork (stat : CRegionStat) : Option ℕ :=
  if stat.nInstance = 0 then none else some (stat.getTotalWork / stat.nInstance)

/-- The self-parallelism of a page. -/
def getSelfP (stat : CRegionStat) : Double :=
  (Double.fin stat.work).div (.fin stat.spWork)

end CRegionStat

namespace CRegion

def getTotalWork (region : CRegion) : Option ℕ := do
  let stat ← region.getStat 0
  some stat.getTotalWork

def getAvgWork (region : CRegion) : Option ℕ := do
  let stat ← region.getStat 0
  stat.getAvgWork

/-- The loop of `computeSelfP`, from the last page to the first. -/
def computeSaving (stats : List CRegionStat) : Double :=
  stats.foldr (fun stat saving =>
    let totalWork := Double.fin stat.getTotalWork
    let adjusted := totalWork.sub (saving.mul stat.rWeight)
    totalWork.sub (adjusted.div stat.getSelfP)) (.fin 0)

/-- `computeSelfP`. -/
def computeSelfP (region : CRegion) : Option Double := do
  let saving := computeSaving region.stats
  let totalWork := Double.fin (← region.getTotalWork)
  some (totalWork.div (totalWork.sub saving))

def getSelfP (region : CRegion) : Option Double :=
  if region.isR then region.computeSelfP
  else do
    let stat ← region.getStat 0
    some stat.getSelfP

/-- `getExclusiveWork`: what is left of the total work without the children. -/
def getExclusiveWork (regionMap : RegionMap) (region : CRegion) : Option ℤ := do
  let ret ← region.getTotalWork
  region.children.foldlM (fun (ret : ℤ) each => do
    let each ← regionMap.get each
    let work ← each.getTotalWork
    some (ret - work)) ret

end CRegion

end Kremlin.Planner
