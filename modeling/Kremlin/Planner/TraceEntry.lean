/-
  Kremlin.Planner.TraceEntry — what the planner holds of one node record.

  `TraceEntry.java` and the statistics of `CRegionStat.java`.  A Java `long`
  is kept as the unsigned value of its 64 bits; the two self-parallelism bounds
  are kept as the integer hundredths of the file.
-/
import Kremlin.Library.ExactDouble

namespace Kremlin.Planner

open Kremlin.Library

/-- `CRegionStat`, with the field order of its constructor. -/
structure CRegionStat where
  nInstance : ℕ
  work : ℕ
  tpWork : ℕ
  spWork : ℕ
  minSP : ℕ
  maxSP : ℕ
  totalIter : ℕ
  minIter : ℕ
  maxIter : ℕ
  /-- The recursion weight, which the file does not hold. -/
  rWeight : Double := .fin 0
  deriving DecidableEq

/-- `TraceEntry`. -/
structure TraceEntry where
  uid : ℕ
  sid : ℕ
  callsiteID : ℕ
  /-- 0 normal, 1 recursion init, 2 recursion sink; 3 below an init. -/
  type : ℕ
  recursionTarget : ℕ := 0
  cnt : ℕ := 0
  pbit : Bool := false
  childrenSet : List ℕ := []
  statList : List CRegionStat := []
  deriving DecidableEq

namespace TraceEntry

/-- `setRecursionTarget`. -/
def setRecursionTarget (e : TraceEntry) (id : ℕ) : TraceEntry := { e with recursionTarget := id }

/-- `setNumInstance`. -/
def setNumInstance (e : TraceEntry) (instances : ℕ) : TraceEntry := { e with cnt := instances }

/-- `setPBit`. -/
def setPBit (e : TraceEntry) (p : Bool) : TraceEntry := { e with pbit := p }

/-- `addChild`: a set, so an id that is there is not added again. -/
def addChild (e : TraceEntry) (id : ℕ) : TraceEntry :=
  { e with childrenSet := if id ∈ e.childrenSet then e.childrenSet else e.childrenSet ++ [id] }

/-- `addStat`. -/
def addStat (e : TraceEntry) (stat : CRegionStat) : TraceEntry :=
  { e with statList := e.statList ++ [stat] }

end TraceEntry

end Kremlin.Planner
