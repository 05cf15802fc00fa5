/-
  Kremlin.Planner.CRegionManager — how the planner links the node records.

  `readBinaryFile`, `calculateRecursiveWeight` and `setRecursionWeight` of
  `CRegionManager.java`, with `CRegion.create` and the casts to `CRegionR`.
  Objects are named by the uid of their record, which is unique in a file; a
  mutable object is a value in a map that is put again.

  `none` is an exception: a lookup that finds nothing and is used, a cast to
  `CRegionR` of a `CRegionN`, a page index out of range, or an assertion that
  fails.  The lookups of static regions and call sites are those of
  `CRegionManager.new`, which runs `readBinaryFile` with them; a `double` is an
  exact one.
-/
import Kremlin.Library.WorkQueue
import Kremlin.Planner.TraceEntry

namespace Kremlin.Planner

open Kremlin.Library

/-! ## §1. Regions. -/

/-- `enum CRecursiveType`. -/
inductive CRecursiveType where
  | normal
  | recInit
  | recSink
  | recNorm
  deriving Repr, DecidableEq

/-- A `CRegion`; `isR` tells a `CRegionR` from a `CRegionN`, which has a single
page. -/
structure CRegion where
  id : ℕ
  type : CRecursiveType
  isR : Bool
  stats : List CRegionStat
  recursionTarget : Option ℕ := none
  parent : Option ℕ := none
  children : List ℕ := []
  numInstance : ℕ := 0

namespace CRegion

/-- The constructor's translation of `entry.type`. -/
def typeOf : ℕ → Option CRecursiveType
  | 0 => some .normal
  | 1 => some .recInit
  | 2 => some .recSink
  | 3 => some .recNorm
  | _ => none

/-- `CRegion.create`.  The constructor of `CRegionN` takes page 0 and asserts
that there is no other. -/
def create (entry : TraceEntry) : Option CRegion := do
  let type ← typeOf entry.type
  if entry.type > 0 then
    some { id := entry.uid, type := type, isR := true, stats := entry.statList,
           numInstance := entry.cnt }
  else if entry.statList.length = 1 then
    some { id := entry.uid, type := type, isR := false, stats := entry.statList,
           numInstance := entry.cnt }
  else none

/-- The cast `(CRegionR)`. -/
def asR (region : CRegion) : Option CRegion := if region.isR then some region else none

/-- `CRegionR.getStat`. -/
def getStat (region : CRegion) (index : ℕ) : Option CRegionStat := region.stats[index]?

/-- `getStat(depth).setRecursionWeight(weight)`. -/
def setWeight (region : CRegion) (depth : ℕ) (weight : Double) : Option CRegion := do
  let _ ← region.getStat depth
  some { region with
    stats := region.stats.modify depth fun stat => { stat with rWeight := weight } }

end CRegion

/-- `regionMap`. -/
abbrev RegionMap := KeyMap ℕ CRegion

/-! ## §2. Recursion weights. -/

/-- The walk `while (target != init.getParent())` up from a sink's parent: the
regions it passes. -/
def walkUp (regionMap : RegionMap) (stop : Option ℕ) : ℕ → Option ℕ → Option (List ℕ)
  | 0, _ => none
  | fuel + 1, target =>
      if target = stop then some []
      else do
        let id ← target
        let region ← regionMap.get id
        let path ← walkUp regionMap stop fuel region.parent
        some (id :: path)

/-- One sink's share of the work map at `depth`. -/
def addSinkWork (regionMap : RegionMap) (fuel : ℕ) (init : CRegion) (depth : ℕ)
    (map : KeyMap ℕ ℕ) (s : ℕ) : Option (KeyMap ℕ ℕ) := do
  let region ← regionMap.get s
  let sink ← region.asR
  if sink.stats.length ≤ depth then some map
  else do
    let stat ← sink.getStat depth
    let path ← walkUp regionMap init.parent fuel sink.parent
    some (path.foldl (fun map target => map.put target ((map.get target).getD 0 + stat.work)) map)

/-- The body of the loop over `depth`. -/
def setWeightsAt (fuel : ℕ) (init : ℕ) (sinks : List ℕ) (regionMap : RegionMap) (depth : ℕ) :
    Option RegionMap := do
  let initRegion ← regionMap.get init
  let map ← sinks.foldlM (addSinkWork regionMap fuel initRegion depth) KeyMap.empty
  let totalWork ← map.get init
  map.keys.foldlM (fun regionMap each => do
    let work ← map.get each
    let region ← regionMap.get each
    let region ← region.asR
    let region ← region.setWeight depth ((Double.fin work).div (.fin totalWork))
    some (regionMap.put each region)) regionMap

/-- `setRecursionWeight`. -/
def setRecursionWeight (fuel : ℕ) (regionMap : RegionMap) (init : ℕ) (sinks : List ℕ) :
    Option RegionMap := do
  let maxSize ← sinks.foldlM (fun maxSize s => do
    let region ← regionMap.get s
    let current ← region.asR
    some (if current.stats.length > maxSize then current.stats.length else maxSize)) 0
  (List.range maxSize).foldlM (setWeightsAt fuel init sinks) regionMap

/-- Step 2 of `calculateRecursiveWeight`: a sink joins the set of its target. -/
def addSink (regionMap : RegionMap) (map : KeyMap ℕ (List ℕ)) (uid : ℕ) :
    Option (KeyMap ℕ (List ℕ)) := do
  let each ← regionMap.get uid
  if each.type = .recSink then do
    let each ← each.asR
    let target ← each.recursionTarget
    let sinkSet ← map.get target
    some (map.put target (sinkSet ++ [uid]))
  else some map

/-- Step 1: an empty set for every init; the assert is that it is a `CRegionR`. -/
def addInit (regionMap : RegionMap) (map : KeyMap ℕ (List ℕ)) (uid : ℕ) :
    Option (KeyMap ℕ (List ℕ)) := do
  let each ← regionMap.get uid
  if each.type = .recInit then do
    let _ ← each.asR
    some (map.put uid [])
  else some map

/-- `calculateRecursiveWeight`. -/
def calculateRecursiveWeight (fuel : ℕ) (regionMap : RegionMap) : Option RegionMap := do
  let map ← regionMap.keys.foldlM (addInit regionMap) KeyMap.empty
  let map ← regionMap.keys.foldlM (addSink regionMap) map
  map.keys.foldlM (fun regionMap each => do
    let init ← regionMap.get each
    let _ ← init.asR
    let sinks ← map.get each
    setRecursionWeight fuel regionMap each sinks) regionMap

/-! ## §3. Reading the records. -/

/-- One round of the loop that marks what lies below an init. -/
def markEntry (childrenMap : KeyMap ℕ (List ℕ)) (entries : KeyMap ℕ TraceEntry) (uid : ℕ) :
    Option (KeyMap ℕ TraceEntry × List ℕ) := do
  let current ← entries.get uid
  let current := if current.type = 0 then { current with type := 3 } else current
  let children ← childrenMap.get current.uid
  some (entries.put uid current, children)

/-- Everything below an entry of type 1 becomes recursive. -/
def markBelow (fuel : ℕ) (childrenMap : KeyMap ℕ (List ℕ)) (entries : KeyMap ℕ TraceEntry)
    (uid : ℕ) : Option (KeyMap ℕ TraceEntry) := do
  let entry ← entries.get uid
  if entry.type = 1 then traverse (markEntry childrenMap) fuel [uid] entries
  else some entries

/-- A region for an entry; the second map holds the recursion targets. -/
def addRegion (entries : KeyMap ℕ TraceEntry) (maps : RegionMap × KeyMap ℕ ℕ) (uid : ℕ) :
    Option (RegionMap × KeyMap ℕ ℕ) := do
  let entry ← entries.get uid
  let region ← CRegion.create entry
  some (maps.1.put uid region,
    if entry.recursionTarget > 0 then maps.2.put uid entry.recursionTarget else maps.2)

/-- `childRegion.setParent(region)`. -/
def setParent (uid : ℕ) (regionMap : RegionMap) (child : ℕ) : Option RegionMap := do
  let childRegion ← regionMap.get child
  let regionMap := regionMap.put child { childRegion with parent := some uid }
  let region ← regionMap.get uid
  some (regionMap.put uid { region with children := region.children ++ [child] })

/-- The parents of one entry's children. -/
def linkChildren (childrenMap : KeyMap ℕ (List ℕ)) (regionMap : RegionMap) (uid : ℕ) :
    Option RegionMap := do
  let _ ← regionMap.get uid
  let children ← childrenMap.get uid
  children.foldlM (setParent uid) regionMap

/-- The recursion target of one sink. -/
def linkTarget (recursionTarget : KeyMap ℕ ℕ) (regionMap : RegionMap) (each : ℕ) :
    Option RegionMap := do
  let region ← regionMap.get each
  let region ← region.asR
  let id ← recursionTarget.get each
  let target ← regionMap.get id
  if target.type = .recInit then
    some (regionMap.put each { region with recursionTarget := some id })
  else none

/-- The regions of a file, linked, before the weights. -/
def linkRegions (fuel : ℕ) (traceList : List TraceEntry) : Option RegionMap := do
  let uids := traceList.map TraceEntry.uid
  let childrenMap := traceList.foldl (fun map entry => map.put entry.uid entry.childrenSet)
    KeyMap.empty
  let entries := traceList.foldl (fun map entry => map.put entry.uid entry) KeyMap.empty
  let entries ← uids.foldlM (markBelow fuel childrenMap) entries
  let (regionMap, recursionTarget) ← uids.foldlM (addRegion entries) (KeyMap.empty, KeyMap.empty)
  let regionMap ← regionMap.keys.foldlM (linkChildren childrenMap) regionMap
  recursionTarget.keys.foldlM (linkTarget recursionTarget) regionMap

/-- `readBinaryFile`, from the records of the file on, but for what it looks up in the
`SRegionManager`. -/
def readBinaryFile (fuel : ℕ) (traceList : List TraceEntry) : Option RegionMap := do
  let regionMap ← linkRegions fuel traceList
  calculateRecursiveWeight fuel regionMap

end Kremlin.Planner
