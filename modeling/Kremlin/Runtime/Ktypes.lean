/-
  Kremlin.Runtime.Ktypes — the scalar types of `ktypes.h`.

  Static region ids, callsite ids, register numbers and levels are natural
  numbers: the runtime only compares and stores them.  A place where the
  width of the machine integer matters says so where it is used.
-/
import Mathlib.Data.Nat.Notation

namespace Kremlin.Runtime

/-- Static region id. -/
abbrev SID := ℕ

/-- Callsite id. -/
abbrev CID := ℕ

/-- `typedef enum RegionType {RegionFunc, RegionLoop, RegionLoopBody}`. -/
inductive RegionType where
  | regionFunc
  | regionLoop
  | regionLoopBody
  deriving Repr, DecidableEq

/-- `struct RegionStats` of `CRegion.h`: what one region instance hands to the
region tree when it is left. -/
structure RegionStats where
  work : ℕ
  cp : ℕ
  callSite : CID
  spWork : ℕ
  is_doall : ℕ
  childCnt : ℕ
  deriving Repr, DecidableEq

end Kremlin.Runtime
