/-
  Kremlin.Planner.TraceReader — reading `kremlin.bin`.

  The constructor of `TraceReader`: records until the input ends, each a
  sequence of `Long.reverseBytes(input.readLong())`.  A record that the end of
  the input cuts short is dropped (the `EOFException` is caught, and the entry
  is not yet in the list).  The two assertions of the reader are failures of
  their own.
-/
import Kremlin.Library.ByteCodec
import Kremlin.Planner.TraceEntry

namespace Kremlin.Planner

open Kremlin.Library

/-! ## §1. `DataInputStream`. -/

/-- What ends a read: an `EOFException`, or an assertion of the reader. -/
inductive ReadError where
  | eof
  | assertion
  deriving DecidableEq

/-- A reader of the input stream. -/
abbrev Input := Reader UInt8 ReadError

/-- `readLong`: eight bytes, highest first. -/
def readLong : Input UInt64 := fun bs =>
  if 8 ≤ bs.length then .ok (UInt64.ofNat (leValue (bs.take 8).reverse), bs.drop 8)
  else .error .eof

/-- `Long.reverseBytes`. -/
def reverseBytes (x : UInt64) : UInt64 := UInt64.ofNat (leValue (leBytes 8 x.toNat).reverse)

/-- `Long.reverseBytes(input.readLong())`. -/
def readReversed : Input UInt64 := reverseBytes <$> readLong

/-- `assert(cond)`. -/
def assert (cond : Bool) : Input Unit := if cond then pure () else throw .assertion

/-- The number of rounds of `for (int i=0; i<n; i++)` with a `long` bound: none
when it is negative. -/
def rounds (n : UInt64) : ℕ := if n.toNat < 2 ^ 63 then n.toNat else 0

/-! ## §2. Records. -/

/-- One round of the loop over the children. -/
def readChild (entry : TraceEntry) : Input TraceEntry := do
  let childUid ← readReversed
  pure (entry.addChild childUid.toNat)

/-- One round of the loop over the pages. -/
def readStat (entry : TraceEntry) : Input TraceEntry := do
  let nInstance ← readReversed
  let work ← readReversed
  let tpWork ← readReversed
  let spWork ← readReversed
  let minSP ← readReversed
  let maxSP ← readReversed
  let totalIter ← readReversed
  let minIter ← readReversed
  let maxIter ← readReversed
  pure (entry.addStat {
    nInstance := nInstance.toNat, work := work.toNat, tpWork := tpWork.toNat,
    spWork := spWork.toNat, minSP := minSP.toNat, maxSP := maxSP.toNat,
    totalIter := totalIter.toNat, minIter := minIter.toNat, maxIter := maxIter.toNat })

/-- `if (recurse != 0) entry.setRecursionTarget(recurse)`, with the assertion
of `setRecursionTarget`. -/
def readTarget (entry : TraceEntry) (recurse : UInt64) : Input TraceEntry := do
  if recurse ≠ 0 then
    assert (entry.type = 2)
    pure (entry.setRecursionTarget recurse.toNat)
  else pure entry

/-- The body of the reader's loop. -/
def readEntry : Input TraceEntry := do
  let uid ← readReversed
  let sid ← readReversed
  let callsiteID ← readReversed
  let type ← readReversed
  assert (type.toNat ≤ 2)
  let entry : TraceEntry :=
    { uid := uid.toNat, sid := sid.toNat, callsiteID := callsiteID.toNat, type := type.toNat }
  let recurse ← readReversed
  let entry ← readTarget entry recurse
  let cnt ← readReversed
  let pbit ← readReversed
  let entry := (entry.setNumInstance cnt.toNat).setPBit (pbit ≠ 0)
  let nChildren ← readReversed
  let entry ← loop readChild (rounds nChildren) entry
  let nStats ← readReversed
  loop readStat (rounds nStats) entry

/-- `TraceReader`: every round of its loop takes bytes off the input, so there
are no more rounds than bytes. -/
def traceReader (bytes : List UInt8) : Except ReadError (List TraceEntry) :=
  readAll .eof readEntry (bytes.length + 1) bytes

end Kremlin.Planner
