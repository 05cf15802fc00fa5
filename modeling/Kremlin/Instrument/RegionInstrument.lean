/-
  Kremlin.Instrument.RegionInstrument — new blocks around and in loops.

  `instrumentLoop` of `RegionInstrument.cpp` puts a preheader in front of a loop,
  a pre-exit block on each edge that leaves it, and a block for the edges back to
  the header.  Each time edges are redirected to the new block, and
  `promotePHIsToOtherBlock` moves the phi entries that the redirected edges had.

  The blocks of a function are numbers, and a new block takes the next one.  A
  terminator is known by its successors, so a path may take any of its edges; the
  value of an `invoke` is that of its last instruction.  `none` is an assertion
  that fails.  `loop->contains` and `getBlocks` know the blocks that the loop had
  before the pass: `LoopInfo` is not told of new ones.
-/
import Kremlin.Instrument.Terminator
import Kremlin.Library.EdgeSplitting
import Mathlib.Logic.Relation

namespace Kremlin.Instrument.RegionInstrument

open Kremlin.Library.Ssa

variable {X V M : Type}

/-! ## §1. Functions. -/

/-- `Region::RegionType`. -/
inductive RegionType where
  | func
  | loop
  | loopBody
  deriving DecidableEq

/-- `_KEnterRegion`, `_KExitRegion` and `_KLandingPad`. -/
inductive RegionFunc where
  | enterRegion
  | exitRegion
  | landingPad
  deriving DecidableEq

/-- An instruction that is neither a phi nor a terminator.  The calls that the
pass inserts are told apart; they leave all values alone. -/
inductive Instruction (X V M : Type) where
  | op (name : Name X) (operands : List (Value X V)) (compute : List V → M → V × M)
  | landingpad (name : Name X) (compute : M → V × M)
  | call (func : RegionFunc) (id : ℕ) (type : RegionType)

/-- A call of this function of the library. -/
def Instruction.isCall (func : RegionFunc) : Instruction X V M → Bool
  | .call f _ _ => decide (f = func)
  | _ => false

/-- The phis stand in front. -/
structure BasicBlock (X V M : Type) where
  phis : List (Phi X V)
  insts : List (Instruction X V M)
  terminator : TerminatorInst ℕ

/-- `BasicBlock::isLandingPad`. -/
def BasicBlock.isLandingPad (bb : BasicBlock X V M) : Bool :=
  match bb.insts with
  | .landingpad _ _ :: _ => true
  | _ => false

/-- `bb->getTerminator()->replaceUsesOfWith(oldDest, newDest)`. -/
def BasicBlock.replaceUsesOfWith (oldDest newDest : ℕ) (bb : BasicBlock X V M) :
    BasicBlock X V M := { bb with terminator := bb.terminator.map (redirect oldDest newDest) }

/-- `inst->insertBefore(bb->getFirstNonPHI())`. -/
def BasicBlock.insertFirst (inst : Instruction X V M) (bb : BasicBlock X V M) :
    BasicBlock X V M := { bb with insts := inst :: bb.insts }

/-- `inst->insertBefore(bb->getTerminator())`. -/
def BasicBlock.insertLast (inst : Instruction X V M) (bb : BasicBlock X V M) :
    BasicBlock X V M := { bb with insts := bb.insts ++ [inst] }

/-- Inserting before `bb->getFirstInsertionPt()`, which is behind a `landingpad`. -/
def BasicBlock.insertAtFirstInsertionPt (inst : Instruction X V M) (bb : BasicBlock X V M) :
    BasicBlock X V M :=
  match bb.insts with
  | .landingpad name compute :: insts =>
      { bb with insts := .landingpad name compute :: inst :: insts }
  | insts => { bb with insts := inst :: insts }

/-- Blocks from `count` on do not exist. -/
structure Function (X V M : Type) where
  count : ℕ
  entryBlock : ℕ
  block : ℕ → BasicBlock X V M

/-- `llvm::Loop`: the header, and the blocks in the order of `getBlocks`. -/
structure Loop where
  header : ℕ
  blocks : List ℕ

/-- The entries to promote, and the indices to remove them at: each counts those
removed before it. -/
def collectIncoming (isPredecessor : ℕ → Bool) : ℕ → List (Value X V × ℕ) →
    List ℕ × List (Value X V × ℕ) → List ℕ × List (Value X V × ℕ)
  | _, [], found => found
  | i, e :: incoming, (toRemove, promoted) =>
      if isPredecessor e.2 then collectIncoming isPredecessor (i + 1) incoming (toRemove, promoted)
      else collectIncoming isPredecessor (i + 1) incoming
        (toRemove ++ [i - toRemove.length], promoted ++ [e])

/-- The loop of `promotePHIsToOtherBlock`: the phis of the block, and those that
the other block gets. -/
def promotePHIs (isPredecessor : ℕ → Bool) (dest : ℕ) :
    List (Phi X V) → List (Phi X V) × List (Phi X V)
  | [] => ([], [])
  | phi :: phis =>
      let (toRemove, promoted) := collectIncoming isPredecessor 0 phi.incoming ([], [])
      -- nothing to promote: the function returns
      if promoted.length = 0 then (phi :: phis, [])
      else
        let incoming := toRemove.foldl List.eraseIdx phi.incoming
        let (rest, dests) := promotePHIs isPredecessor dest phis
        match promoted with
        | [e] => (⟨phi.name, incoming ++ [(e.1, dest)]⟩ :: rest, dests)
        | _ =>
            (⟨phi.name, incoming ++ [(.name (.promoted phi.name dest), dest)]⟩ :: rest,
              ⟨.promoted phi.name dest, promoted⟩ :: dests)

namespace Function

variable (F : Function X V M)

/-- The edges out of a block. -/
def successors (b : ℕ) : List ℕ := (F.block b).terminator.successors

/-- The predecessors of a block, one for each edge. -/
def preds (b : ℕ) : List ℕ :=
  (List.range F.count).flatMap fun p => ((F.successors p).filter fun s => s = b).map fun _ => p

/-- A change of one block. -/
def modifyBlock (b : ℕ) (f : BasicBlock X V M → BasicBlock X V M) : Function X V M :=
  { F with block := Function.update F.block b (f (F.block b)) }

/-- `BasicBlock::Create`: a block without a terminator has no successors. -/
def createBlock : Function X V M where
  count := F.count + 1
  entryBlock := F.entryBlock
  block := Function.update F.block F.count ⟨[], [], .ret⟩

/-- `BranchInst::Create(dest, b)`. -/
def createBr (dest b : ℕ) : Function X V M :=
  F.modifyBlock b fun bb => { bb with terminator := .br dest }

/-- One round of the second loop of `replaceAllJumps`. -/
def replaceJumps (oldDest newDest : ℕ) (F : Function X V M) (pred : ℕ) :
    Option (Function X V M) :=
  match (F.block pred).terminator with
  | .br _ | .condBr _ _ | .switch _ _ | .invoke _ _ =>
      some (F.modifyBlock pred (.replaceUsesOfWith oldDest newDest))
  | _ => none

/-- The jumps from outside the loop, or those from inside. -/
def replaceAllJumps (oldDest newDest : ℕ) (loop : Loop) (predsInLoop : Bool) :
    Option (Function X V M) :=
  ((F.preds oldDest).filter fun pred => (!predsInLoop && !decide (pred ∈ loop.blocks)) ||
    (predsInLoop && decide (pred ∈ loop.blocks))).foldlM (replaceJumps oldDest newDest) F

/-- `isPredecessor` looks for the block among the predecessors. -/
def isPredecessor (bb possiblePred : ℕ) : Bool := decide (possiblePred ∈ F.preds bb)

/-- Entries of blocks that are no predecessors any more go to `dest`. -/
def promotePHIsToOtherBlock (src dest : ℕ) : Function X V M :=
  let (phis, promoted) := promotePHIs (F.isPredecessor src) dest (F.block src).phis
  (F.modifyBlock src fun bb => { bb with phis := phis }).modifyBlock dest fun bb =>
    { bb with phis := bb.phis ++ promoted }

end Function

/-! ## §2. Loops. -/

/-- The options of the pass, and the order in which a `std::set` of blocks is
walked. -/
structure Options where
  noMultiExitLoops : Bool
  loopBodyRegions : Bool
  byAddress : List ℕ → List ℕ
  byAddress_perm : ∀ l, (byAddress l).Perm l

/-- A loop, the ids of its regions and the landing pads that it is the innermost
loop of. -/
structure LoopRegions extends Loop where
  regionId : ℕ
  bodyRegionId : ℕ
  landingPads : List ℕ

/-- The function as it is now.  For each use of edge redirection so far, `uses`
has the function before and after it; no step reads it. -/
structure Rewriting (X V M : Type) where
  func : Function X V M
  uses : List (Function X V M × Function X V M)

namespace Rewriting

variable (r : Rewriting X V M)

/-- Go on with the function that a use of edge redirection gives. -/
def use (func : Function X V M) : Rewriting X V M := ⟨func, r.uses ++ [(r.func, func)]⟩

/-- Insert or move calls. -/
def modifyBlock (b : ℕ) (f : BasicBlock X V M → BasicBlock X V M) : Rewriting X V M :=
  { r with func := r.func.modifyBlock b f }

end Rewriting

namespace Function

variable (F : Function X V M)

/-- `getExitBlocks`. -/
def exitBlocks (loop : Loop) : List ℕ :=
  (loop.blocks.flatMap F.successors).filter fun succ => succ ∉ loop.blocks

/-- `getExitingBlocks`. -/
def exitingBlocks (loop : Loop) : List ℕ :=
  loop.blocks.filter fun b => (F.successors b).any fun succ => succ ∉ loop.blocks

/-- The preheader. -/
def redirectToPreheader (loop : Loop) : Option (Function X V M) := do
  let preheader := F.count
  let F ← F.createBlock.replaceAllJumps loop.header preheader loop false
  let F := F.createBr loop.header preheader
  some (F.promotePHIsToOtherBlock loop.header preheader)

/-- The pre-exit block between an exiting block and a target, and its calls. -/
def redirectToPreExit (options : Options) (loop : LoopRegions) (exiting target : ℕ) :
    Function X V M :=
  let preExit := F.count
  let F := F.createBlock.createBr target preExit
  let isSwitch := match (F.block loop.header).terminator with
    | .switch _ _ => true
    | _ => false
  let F := if options.loopBodyRegions && (decide (exiting ≠ loop.header) || isSwitch) then
      F.modifyBlock preExit (.insertLast (.call .exitRegion loop.bodyRegionId .loopBody))
    else F
  let F := F.modifyBlock preExit (.insertLast (.call .exitRegion loop.regionId .loop))
  let F := F.modifyBlock exiting (.replaceUsesOfWith target preExit)
  F.promotePHIsToOtherBlock target preExit

/-- The block that all edges back to the header go to, and its call. -/
def redirectToCont (loop : LoopRegions) : Option (Function X V M) := do
  let cont := F.count
  let F := F.createBlock.createBr loop.header cont
  let F := F.modifyBlock cont (.insertLast (.call .exitRegion loop.bodyRegionId .loopBody))
  let F ← F.replaceAllJumps loop.header cont loop.toLoop true
  some (F.promotePHIsToOtherBlock loop.header cont)

/-- The block that `_KEnterRegion` of the loop body goes to; `none` is `NULL`. -/
def bodyEntry (loop : Loop) : Option ℕ :=
  let isBranch := match (F.block loop.header).terminator with
    | .br _ | .condBr _ _ => true
    | _ => false
  if isBranch = false ∨ loop.blocks.length = 1 then some loop.header
  else if ∃ succ ∈ F.successors loop.header, succ ∉ loop.blocks then
    ((F.successors loop.header).filter fun succ => succ ∈ loop.blocks).getLast?
  else some loop.header

end Function

variable (options : Options) (loop : LoopRegions)

/-- The calls at the entry of a loop: those to `_KEnterRegion` that stand in the
header move to the preheader, and the one for the loop comes behind them. -/
def enterLoop (preheader : ℕ) (r : Rewriting X V M) : Rewriting X V M :=
  let toMove := (r.func.block loop.header).insts.filter (Instruction.isCall .enterRegion)
  let r := r.modifyBlock loop.header fun bb =>
    { bb with insts := bb.insts.filter fun inst => !inst.isCall .enterRegion }
  let r := r.modifyBlock preheader fun bb => { bb with insts := bb.insts ++ toMove }
  r.modifyBlock preheader (.insertLast (.call .enterRegion loop.regionId .loop))

/-- One round of the loop over the targets of an exiting block. -/
def instrumentTarget (exiting : ℕ) (r : Rewriting X V M) (target : ℕ) : Rewriting X V M :=
  if (r.func.block target).isLandingPad then r
  else r.use (r.func.redirectToPreExit options loop exiting target)

/-- One round of the loop over the exiting blocks. -/
def instrumentExiting (r : Rewriting X V M) (exiting : ℕ) : Option (Rewriting X V M) :=
  let targets := options.byAddress
    ((r.func.successors exiting).filter fun succ => succ ∉ loop.blocks).dedup
  -- the assertion that there is a target
  if targets.length = 0 then none
  else some (targets.foldl (instrumentTarget options loop exiting) r)

/-- Where `_KEnterRegion` and `_KExitRegion` of the loop body go. -/
def instrumentBody (r : Rewriting X V M) : Option (Rewriting X V M) := do
  let entry ← r.func.bodyEntry loop.toLoop
  let r := r.modifyBlock entry (.insertFirst (.call .enterRegion loop.bodyRegionId .loopBody))
  if loop.blocks.length = 1 then
    some (r.modifyBlock loop.header
      (.insertLast (.call .exitRegion loop.bodyRegionId .loopBody)))
  else do
    let F ← r.func.redirectToCont loop
    some (r.use F)

/-- `_KLandingPad` in the landing pads of the loop. -/
def instrumentLandingPads (r : Rewriting X V M) : Rewriting X V M :=
  let call := if options.loopBodyRegions then .call .landingPad loop.bodyRegionId .loopBody
    else .call .landingPad loop.regionId .loop
  loop.landingPads.foldl (fun r b => r.modifyBlock b (.insertAtFirstInsertionPt call)) r

/-- The rewriting of one loop. -/
def instrumentLoop (r : Rewriting X V M) : Option (Rewriting X V M) :=
  if options.noMultiExitLoops ∧ 1 < (r.func.exitBlocks loop.toLoop).dedup.length then some r
  else do
    let preheader := r.func.count
    let F ← r.func.redirectToPreheader loop.toLoop
    let r := enterLoop loop preheader (r.use F)
    let r ← (r.func.exitingBlocks loop.toLoop).foldlM (instrumentExiting options loop) r
    let r ← if options.loopBodyRegions then instrumentBody loop r else some r
    some (instrumentLandingPads options loop r)

/-- The loops of a function, one after the other. -/
def instrumentLoops (loops : List LoopRegions) (r : Rewriting X V M) :
    Option (Rewriting X V M) :=
  loops.foldlM (fun r loop => instrumentLoop options loop r) r

end Kremlin.Instrument.RegionInstrument
