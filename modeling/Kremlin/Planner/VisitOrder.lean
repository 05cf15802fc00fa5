/-
  Kremlin.Planner.VisitOrder — the weights under any iteration order.

  `calculateRecursiveWeight` iterates over hash sets and maps whose elements
  have no hash of their own, so a run visits them in an order that depends on
  where its objects lie.  Here each of its loops visits its elements in an
  order that is a parameter; `CRegionManager` is the case in which every loop
  goes by insertion.
-/
import Kremlin.Planner.SelfParallelism

namespace Kremlin.Planner

open Kremlin.Library

/-- The loops over hash sets and maps. -/
inductive HashLoop where
  | addInits
  | addSinks
  | inits
  | maxSize (init : ℕ)
  | sinks (init depth : ℕ)
  | weights (init depth : ℕ)

/-- The order in which each loop visits its elements. -/
structure VisitOrder where
  visit : HashLoop → List ℕ → List ℕ
  perm : ∀ loop xs, (visit loop xs).Perm xs

namespace VisitOrder

/-- Every loop goes by insertion. -/
def insertion : VisitOrder := ⟨fun _ xs => xs, fun _ xs => List.Perm.refl xs⟩

/-- Every element is visited. -/
@[simp] theorem mem_visit (o : VisitOrder) {loop : HashLoop} {xs : List ℕ} {x : ℕ} :
    x ∈ o.visit loop xs ↔ x ∈ xs :=
  (o.perm loop xs).mem_iff

/-- By insertion, but the inits `xs` are visited as `ys`. -/
def initsAs (xs ys : List ℕ) (h : ys.Perm xs) : VisitOrder where
  visit loop zs := match loop with
    | .inits => if zs = xs then ys else zs
    | _ => zs
  perm loop zs := by
    cases loop with
    | inits =>
        show (if zs = xs then ys else zs).Perm zs
        split
        · next heq => exact heq ▸ h
        · exact List.Perm.refl zs
    | _ => exact List.Perm.refl zs

end VisitOrder

/-- The body of the loop over `depth`. -/
def setWeightsAtIn (o : VisitOrder) (fuel : ℕ) (init : ℕ) (sinks : List ℕ)
    (regionMap : RegionMap) (depth : ℕ) : Option RegionMap := do
  let initRegion ← regionMap.get init
  let map ← (o.visit (.sinks init depth) sinks).foldlM
    (addSinkWork regionMap fuel initRegion depth) KeyMap.empty
  let totalWork ← map.get init
  (o.visit (.weights init depth) map.keys).foldlM (fun regionMap each => do
    let work ← map.get each
    let region ← regionMap.get each
    let region ← region.asR
    let region ← region.setWeight depth ((Double.fin work).div (.fin totalWork))
    some (regionMap.put each region)) regionMap

/-- `setRecursionWeight`. -/
def setRecursionWeightIn (o : VisitOrder) (fuel : ℕ) (regionMap : RegionMap) (init : ℕ)
    (sinks : List ℕ) : Option RegionMap := do
  let maxSize ← (o.visit (.maxSize init) sinks).foldlM (fun maxSize s => do
    let region ← regionMap.get s
    let current ← region.asR
    some (if current.stats.length > maxSize then current.stats.length else maxSize)) 0
  (List.range maxSize).foldlM (setWeightsAtIn o fuel init sinks) regionMap

/-- `calculateRecursiveWeight`. -/
def calculateRecursiveWeightIn (o : VisitOrder) (fuel : ℕ) (regionMap : RegionMap) :
    Option RegionMap := do
  let map ← (o.visit .addInits regionMap.keys).foldlM (addInit regionMap) KeyMap.empty
  let map ← (o.visit .addSinks regionMap.keys).foldlM (addSink regionMap) map
  (o.visit .inits map.keys).foldlM (fun regionMap each => do
    let init ← regionMap.get each
    let _ ← init.asR
    let sinks ← map.get each
    setRecursionWeightIn o fuel regionMap each sinks) regionMap

/-- The weights by insertion. -/
theorem calculateRecursiveWeight_eq (fuel : ℕ) (regionMap : RegionMap) :
    calculateRecursiveWeight fuel regionMap
      = calculateRecursiveWeightIn .insertion fuel regionMap := rfl

/-! ## What two orders can differ in. -/

/-- The weight on page `depth` of the region `id`. -/
def weightAt (regionMap : RegionMap) (id depth : ℕ) : Option Double := do
  let region ← regionMap.get id
  let stat ← region.getStat depth
  some stat.rWeight

/-- The self-parallelism of the region `id`. -/
def selfPAt (regionMap : RegionMap) (id : ℕ) : Option Double := do
  let region ← regionMap.get id
  region.getSelfP

/-- Both orders succeed, with the same weights and the same self-parallelism. -/
def SameWeights (fuel : ℕ) (regionMap : RegionMap) (o o' : VisitOrder) : Prop :=
  ∃ H H', calculateRecursiveWeightIn o fuel regionMap = some H ∧
    calculateRecursiveWeightIn o' fuel regionMap = some H' ∧
    (∀ id depth, weightAt H id depth = weightAt H' id depth) ∧
    ∀ id, selfPAt H id = selfPAt H' id

end Kremlin.Planner
