/-
  Kremlin.Instrument.Terminator — how basic blocks end.

  A terminator is known by its kind and its successors, in the order of
  `getSuccessor`.  What it decides by, and the values of the cases of a switch,
  are left out: the passes look at the successors only.
-/
import Mathlib.Data.Finset.Card
import Mathlib.Data.List.Basic
import Mathlib.Tactic.Common

namespace Kremlin.Instrument

variable {B : Type}

/-- `llvm::TerminatorInst`.  `ret` stands for those without a successor: `ret`,
`resume` and `unreachable`. -/
inductive TerminatorInst (B : Type) where
  | br (dest : B)
  | condBr (ifTrue ifFalse : B)
  | switch (defaultDest : B) (cases : List B)
  | invoke (normalDest unwindDest : B)
  | indirectBr (dests : List B)
  | ret
  deriving DecidableEq

namespace TerminatorInst

/-- `getSuccessor(0)`, `getSuccessor(1)`, … -/
def successors : TerminatorInst B → List B
  | .br dest => [dest]
  | .condBr ifTrue ifFalse => [ifTrue, ifFalse]
  | .switch defaultDest cases => defaultDest :: cases
  | .invoke normalDest unwindDest => [normalDest, unwindDest]
  | .indirectBr dests => dests
  | .ret => []

/-- The terminator with other successors in their places. -/
def map {C : Type} (f : B → C) : TerminatorInst B → TerminatorInst C
  | .br dest => .br (f dest)
  | .condBr ifTrue ifFalse => .condBr (f ifTrue) (f ifFalse)
  | .switch defaultDest cases => .switch (f defaultDest) (cases.map f)
  | .invoke normalDest unwindDest => .invoke (f normalDest) (f unwindDest)
  | .indirectBr dests => .indirectBr (dests.map f)
  | .ret => .ret

/-- Renaming the blocks renames the successors. -/
@[simp] theorem successors_map {C : Type} (f : B → C) (t : TerminatorInst B) :
    (t.map f).successors = t.successors.map f := by
  cases t <;> rfl

/-- `isa<BranchInst>(t) || isa<SwitchInst>(t)`. -/
def isBranchOrSwitch : TerminatorInst B → Bool
  | .br _ | .condBr _ _ | .switch _ _ => true
  | _ => false

end TerminatorInst

/-- A control-flow graph: the blocks of a function and how they end. -/
structure Cfg (B : Type) where
  blocks : Finset B
  entryBlock : B
  getTerminator : B → TerminatorInst B
  entry_mem : entryBlock ∈ blocks
  successor_mem : ∀ b ∈ blocks, ∀ s ∈ (getTerminator b).successors, s ∈ blocks

/-- The successors of a block. -/
def Cfg.successors (cfg : Cfg B) (b : B) : List B := (cfg.getTerminator b).successors

end Kremlin.Instrument
