/-
  Kremlin.Instrument.AssociativeDependenceBreak — chains become trees.

  `runOnBasicBlock` of `AssociativeDependenceBreak.cpp` looks for chains of additions
  or multiplications, each of which is used by the next one only, and combines their
  inputs pairwise instead.  Conventions:

    * an instruction is known by its number, and an erased one has none any more:
      asking for it is `none`, and so is an assertion that fails;
    * an operand that is no instruction of the block is a value from outside;
    * `set_of_chains` is ordered by addresses, so that the order is an argument.
-/
import Kremlin.Library.StraightLine

namespace Kremlin.Instrument.AssociativeDependenceBreak

open Kremlin.Library.StraightLine

variable {E V M : Type}

/-! ## §1. Blocks. -/

/-- `getOpcode`, as far as the pass tells them apart. -/
inductive Opcode where
  | add
  | fadd
  | mul
  | fmul
  | phi
  | other (code : ℕ)
  deriving DecidableEq

/-- The opcodes of the first test. -/
def Opcode.isAssociative : Opcode → Bool
  | .add | .fadd | .mul | .fmul => true
  | .phi | .other _ => false

/-- The opcode of an instruction, and whether its type is a pointer. -/
structure Op where
  opcode : Opcode
  isPointer : Bool
  deriving DecidableEq

/-- A phi reads its operands when the block is left. -/
def reads (op : Op) : Bool := op.opcode ≠ .phi

/-- An instruction of the block. -/
abbrev Instruction (E : Type) := Inst Op E

/-- A block of such instructions. -/
abbrev BasicBlock (E : Type) := Block Op E

section Pass

variable [DecidableEq E] (BB : BasicBlock E)

/-- `getNumUses`: the uses in this block and in others. -/
def getNumUses (x : ℕ) : ℕ :=
  (BB.insts.flatMap Inst.operands ++ BB.outside).count (.inst x)

/-- `*use_begin()` in this block. -/
def firstUser (x : ℕ) : Option (Instruction E) :=
  BB.insts.find? fun i => decide (.inst x ∈ i.operands)

/-- The instruction of a number, while it is there. -/
def getInst (x : ℕ) : Option (Instruction E) := BB.insts.find? fun i => decide (i.id = x)

/-! ## §2. Chains. -/

/-- What a user is to a chain. -/
inductive ChainStatus where
  | none
  | link
  | chainEnd
  deriving DecidableEq

/-- The status in the first loop. -/
def basicStatus (inst : Instruction E) : ChainStatus :=
  if inst.op.opcode.isAssociative && !inst.op.isPointer then
    if getNumUses BB inst.id = 1 then .link
    else if 1 < getNumUses BB inst.id then .chainEnd
    else .none
  else .none

/-- One round of the second loop. -/
def checkUser (chain_status : ℕ → ChainStatus) (inst : Instruction E) : ℕ → ChainStatus :=
  if chain_status inst.id ≠ .link then chain_status
  else
    match firstUser BB inst.id with
    | none => Function.update chain_status inst.id .chainEnd
    | some first_user =>
        if chain_status first_user.id = .none ∨ first_user.op.opcode ≠ inst.op.opcode then
          Function.update chain_status inst.id .chainEnd
        else chain_status

/-- `chain_status` behind both loops. -/
def chainStatus : ℕ → ChainStatus :=
  BB.insts.foldl (checkUser BB) <|
    BB.insts.foldl (fun status inst => Function.update status inst.id (basicStatus BB inst))
      fun _ => .none

/-- The chain from an instruction; the number bounds its length. -/
def chainFrom (chain_status : ℕ → ChainStatus) : ℕ → Instruction E → Option (List ℕ)
  | 0, _ => none
  | fuel + 1, curr_inst =>
      match chain_status curr_inst.id with
      | .link => do
          let user ← firstUser BB curr_inst.id
          let chain ← chainFrom chain_status fuel user
          some (curr_inst.id :: chain)
      | .chainEnd => some [curr_inst.id]
      -- the assertion that the chain has an end
      | .none => none

/-- The default of the option. -/
def minChainLength : ℕ := 3

/-- One round of the third loop: the chains so far, and the instructions in them. -/
def findChain (chain_status : ℕ → ChainStatus) (found : List (List ℕ) × List ℕ)
    (inst : Instruction E) : Option (List (List ℕ) × List ℕ) :=
  if inst.id ∈ found.2 ∨ chain_status inst.id = .none then some found
  else do
    let chain ← chainFrom BB chain_status BB.insts.length inst
    if minChainLength ≤ chain.length then some (found.1 ++ [chain], found.2 ++ chain)
    else some found

/-- The chains of a block, in the order their last instructions come in. -/
def findChains : Option (List (List ℕ)) := do
  let found ← BB.insts.foldlM (findChain BB (chainStatus BB)) ([], [])
  some found.1

/-! ## §3. Breaking a chain. -/

/-- The operands that come into a chain behind its first instruction. -/
def externalInputs : ℕ → List ℕ → Option (List (Operand E))
  | _, [] => some []
  | prev, curr :: chain => do
      let curr_inst ← getInst BB curr
      let op0 ← curr_inst.operands[0]?
      let op1 ← curr_inst.operands[1]?
      let inputs ← externalInputs curr chain
      some ((if op0 = .inst prev then op1 else op0) :: inputs)

end Pass

/-- New instructions for pairs of operands, with numbers from `next` on. -/
def pairUp (opcode : Opcode) : ℕ → List (Operand E) → List (Operand E) × List (Instruction E)
  | next, x :: y :: curr_chain =>
      let (next_chain, insts) := pairUp opcode (next + 1) curr_chain
      (.inst next :: next_chain, ⟨next, ⟨opcode, false⟩, [x, y]⟩ :: insts)
  | _, _ => ([], [])

/-- The loop that combines the inputs: an odd one out goes to the front. -/
def combine (opcode : Opcode) : ℕ → ℕ → List (Operand E) →
    Option (Operand E × List (Instruction E))
  | 0, _, _ => none
  | fuel + 1, next, next_chain =>
      match next_chain with
      | [x] => some (x, [])
      | curr_chain => do
          let (front, rest) := if curr_chain.length % 2 = 1 then
              (curr_chain.getLast?.toList, curr_chain.dropLast)
            else ([], curr_chain)
          let (paired, insts) := pairUp opcode next rest
          let (res, more) ← combine opcode fuel (next + insts.length) (front ++ paired)
          some (res, insts ++ more)

section Pass

variable [DecidableEq E]

/-- `eraseFromParent`. -/
def eraseFromParent (BB : BasicBlock E) (x : ℕ) : Option (BasicBlock E) :=
  if (getInst BB x).isSome then some { BB with insts := BB.insts.filter fun i => i.id ≠ x }
  else none

/-- `replaceAllUsesWith`. -/
def replaceAllUsesWith (BB : BasicBlock E) (x : ℕ) (v : Operand E) : BasicBlock E :=
  { BB with
    insts := BB.insts.map (Inst.replace x v)
    outside := BB.outside.map (Operand.replace x v) }

/-- `insertBefore`, for instructions with new numbers. -/
def insertBefore (BB : BasicBlock E) (x : ℕ) (insts : List (Instruction E)) :
    Option (BasicBlock E) :=
  if (getInst BB x).isSome then
    some { BB with
      insts := BB.insts.flatMap fun i => if i.id = x then insts ++ [i] else [i]
      next := BB.next + insts.length }
  else none

/-- The loop over the chains. -/
def breakChain (BB : BasicBlock E) (chain : List ℕ) : Option (BasicBlock E) := do
  let front ← chain.head?
  let back ← chain.getLast?
  let bin_op ← getInst BB front
  let inputs ← externalInputs BB front chain.tail
  let (res, insts) ← combine bin_op.op.opcode chain.length BB.next (.inst front :: inputs)
  let BB ← insertBefore BB back insts
  chain.tail.reverse.foldlM eraseFromParent (replaceAllUsesWith BB back res)

/-- All chains are found first and then broken one by one. -/
def runOnBasicBlock (byAddress : List (List ℕ) → List (List ℕ)) (BB : BasicBlock E) :
    Option (BasicBlock E) := do
  let chains ← findChains BB
  (byAddress chains).foldlM breakChain BB

end Pass

end Kremlin.Instrument.AssociativeDependenceBreak
