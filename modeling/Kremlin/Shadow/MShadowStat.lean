/-
  Kremlin.Shadow.MShadowStat — the counters of the shadow memory.

  The constructors and destructors of the tables, the width conversion and the
  compression report to the global `_stat`.  An operation of the model returns
  the reports it makes, in order, and `MemStat.record` is what a report does to
  the counters that are read back: the number of active tables of either width
  and the bytes they occupy.  The first decides when garbage is collected.

  `int` arguments are 32-bit words, widened with their sign where they meet the
  64-bit totals.
-/
import Kremlin.Shadow.TimeTable
import Mathlib.Data.BitVec

namespace Kremlin.Shadow

/-- The counters that the collection and the statistics read. -/
@[ext]
structure MemStat where
  nActive_64bit : BitVec 64
  nActive_32bit : BitVec 64
  timeTableOverhead : BitVec 64
  deriving Repr, DecidableEq

/-- A call of one of the `event…` functions. -/
inductive MemEvent where
  | timeTableAlloc (sizeType : TableType) (size : BitVec 32)
  | timeTableFree (type : TableType) (size : BitVec 32)
  | timeTableConvertTo32
  | compression (gain : BitVec 32)
  deriving Repr, DecidableEq

namespace MemStat

/-- `_stat` before the first access. -/
def zero : MemStat := ⟨0, 0, 0⟩

/-- `MemStat::increaseTimeTableMemSize`. -/
def increaseTimeTableMemSize (s : MemStat) (size : BitVec 32) : MemStat :=
  { s with timeTableOverhead := s.timeTableOverhead + size.signExtend 64 }

/-- `MemStat::decreaseTimeTableMemSize`. -/
def decreaseTimeTableMemSize (s : MemStat) (size : BitVec 32) : MemStat :=
  { s with timeTableOverhead := s.timeTableOverhead - size.signExtend 64 }

/-- `nActive++` of `AStatAlloc` and `AStatConvertIn`. -/
def activate (s : MemStat) : TableType → MemStat
  | .type_64bit => { s with nActive_64bit := s.nActive_64bit + 1 }
  | .type_32bit => { s with nActive_32bit := s.nActive_32bit + 1 }

/-- `nActive--` of `AStatDealloc` and `AStatConvertOut`. -/
def deactivate (s : MemStat) : TableType → MemStat
  | .type_64bit => { s with nActive_64bit := s.nActive_64bit - 1 }
  | .type_32bit => { s with nActive_32bit := s.nActive_32bit - 1 }

/-- What one event does to the counters. -/
def record (s : MemStat) : MemEvent → MemStat
  | .timeTableAlloc sizeType size => (s.activate sizeType).increaseTimeTableMemSize size
  | .timeTableFree type size => (s.deactivate type).decreaseTimeTableMemSize size
  | .timeTableConvertTo32 => (s.deactivate .type_64bit).activate .type_32bit
  | .compression gain => s.decreaseTimeTableMemSize gain

/-- What a list of events does to them, in order. -/
def recordAll (s : MemStat) (es : List MemEvent) : MemStat := es.foldl record s

/-- `MemStat::getActiveTimeTableSize`. -/
def getActiveTimeTableSize (s : MemStat) : BitVec 64 := s.nActive_64bit + s.nActive_32bit

/-! An `int` that fits is the same number in 32 and in 64 bits. -/

theorem signExtend_intCast {z : ℤ} (hlo : -2 ^ 31 ≤ z) (hhi : z < 2 ^ 31) :
    (z : BitVec 32).signExtend 64 = (z : BitVec 64) := by
  have h : (z : BitVec 32).toInt = z := by
    show (BitVec.ofInt 32 z).toInt = z
    rw [BitVec.toInt_ofInt]
    apply Int.bmod_eq_of_le <;> omega
  show BitVec.ofInt 64 (z : BitVec 32).toInt = _
  rw [h]
  rfl

theorem setWidth_intCast (z : ℤ) : (z : BitVec 64).setWidth 32 = (z : BitVec 32) := by
  apply BitVec.eq_of_toNat_eq
  show (BitVec.setWidth 32 (BitVec.ofInt 64 z)).toNat = (BitVec.ofInt 32 z).toNat
  rw [BitVec.toNat_setWidth, BitVec.toNat_ofInt, BitVec.toNat_ofInt]
  omega

theorem signExtend_ofNat {n : ℕ} (h : n < 2 ^ 31) :
    (BitVec.ofNat 32 n).signExtend 64 = (n : BitVec 64) := by
  have hn := signExtend_intCast (z := (n : ℤ)) (by omega) (by omega)
  simpa using hn

@[simp] theorem recordAll_nil (s : MemStat) : s.recordAll [] = s := rfl

@[simp] theorem recordAll_append (s : MemStat) (es es' : List MemEvent) :
    s.recordAll (es ++ es') = (s.recordAll es).recordAll es' := List.foldl_append

end MemStat

end Kremlin.Shadow
