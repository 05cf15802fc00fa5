/-
  Kremlin.Runtime.CRegion — the region tree and its context stack.

  `openRegionContext` and `closeRegionContext` of `CRegion.cpp`, with the
  `ProfileNode` methods that follow pointers (`getChild`, `addChild`,
  `getAncestorWithSameStaticID`, `handleRecursion`).  The file's statics
  (`region_tree_root`, `curr_region_node`, `c_region_stack`, `lastId`) and the
  heap of nodes are one state record, `RegionTree`.

  `none` is an operation the source has no behaviour for: a null pointer is
  followed or an empty stack is popped.
-/
import Kremlin.Library.Run
import Kremlin.Runtime.ProfileNode
import Mathlib.Logic.Function.Basic

namespace Kremlin.Runtime

open Kremlin.Library

/-! ## §1. The state. -/

/-- The heap of nodes in allocation order, and the statics of `CRegion.cpp`.
`summarize` is `kremlin_config.summarizeRecursiveRegions()`. -/
structure RegionTree where
  node : NodeRef → ProfileNode
  size : ℕ
  lastId : ℕ
  region_tree_root : NodeRef
  curr_region_node : NodeRef
  c_region_stack : List NodeRef
  summarize : Bool

/-- What an unallocated heap cell holds; no node points to one. -/
def blankNode : ProfileNode := .new 0 0 .regionFunc 0

/-- `initRegionTree`: a single root node with static id 0. -/
def initRegionTree (summarize : Bool) : RegionTree where
  node := Function.update (fun _ => blankNode) 0 (.new 0 0 .regionFunc 1)
  size := 1
  lastId := 1
  region_tree_root := 0
  curr_region_node := 0
  c_region_stack := []
  summarize := summarize

namespace RegionTree

/-- Overwrite one node of the heap. -/
def setNode (t : RegionTree) (r : NodeRef) (n : ProfileNode) : RegionTree :=
  { t with node := Function.update t.node r n }

/-- `ProfileNode::getChild`: the first child that matches. -/
def getChild (t : RegionTree) (r : NodeRef) (static_id : SID) (callsite_id : CID) :
    Option NodeRef :=
  (t.node r).children.find? fun c => (t.node c).isMatch static_id callsite_id

/-- `new ProfileNode(...)` followed by `addChild`. -/
def addNewChild (t : RegionTree) (parent : NodeRef) (static_id : SID) (callsite_id : CID)
    (type : RegionType) : RegionTree :=
  let child := t.size
  let id := t.lastId + 1
  let t := { t with size := t.size + 1, lastId := id }
  let t := t.setNode child (.new static_id callsite_id type id)
  let t := t.setNode parent { t.node parent with children := (t.node parent).children ++ [child] }
  t.setNode child { t.node child with parent := some parent }

/-- The loop of `getAncestorWithSameStaticID`; `fuel` bounds the number of
pointers followed. -/
def findAncestor (t : RegionTree) (static_id : SID) : ℕ → Option NodeRef → Option NodeRef
  | _, none => none
  | 0, some _ => none
  | fuel + 1, some ancestor =>
      if (t.node ancestor).static_id = static_id then some ancestor
      else findAncestor t static_id fuel (t.node ancestor).parent

/-- `ProfileNode::getAncestorWithSameStaticID`: a walk up from the parent.  No
path up the tree is longer than the heap. -/
def getAncestorWithSameStaticID (t : RegionTree) (r : NodeRef) : Option NodeRef :=
  findAncestor t (t.node r).static_id t.size (t.node r).parent

/-- `ProfileNode::handleRecursion`. -/
def handleRecursion (t : RegionTree) (r : NodeRef) : RegionTree :=
  match t.getAncestorWithSameStaticID r with
  | none => t
  | some ancestor =>
      let t := t.setNode ancestor { t.node ancestor with node_type := .rInit }
      t.setNode r { t.node r with node_type := .rSink, recursion := some ancestor }

/-- The child `openRegionContext` descends to, created when there is none. -/
def findOrCreateChild (t : RegionTree) (static_id : SID) (callsite_id : CID)
    (type : RegionType) : RegionTree × NodeRef :=
  match t.getChild t.curr_region_node static_id callsite_id with
  | some child => (t, child)
  | none =>
      let child := t.size
      let t := t.addNewChild t.curr_region_node static_id callsite_id type
      (if t.summarize then t.handleRecursion child else t, child)

/-- The rest of `openRegionContext`: advance the child's page, move the current
position (through the recursion pointer when the child is a sink) and push the
child. -/
def enterChild (t : RegionTree) (child : NodeRef) : Option RegionTree :=
  let t := t.setNode child (t.node child).moveToNextStats
  match (t.node child).node_type with
  | .rSink =>
      match (t.node child).recursion with
      | none => none
      | some target =>
          let t := t.setNode target (t.node target).moveToNextStats
          some { t with curr_region_node := target, c_region_stack := child :: t.c_region_stack }
  | _ => some { t with curr_region_node := child, c_region_stack := child :: t.c_region_stack }

end RegionTree

/-- `openRegionContext`. -/
def openRegionContext (region_static_id : SID) (region_callsite_id : CID)
    (region_type : RegionType) (t : RegionTree) : Option RegionTree :=
  let (t, child) := t.findOrCreateChild region_static_id region_callsite_id region_type
  t.enterChild child

/-- `closeRegionContext`. -/
def closeRegionContext (region_stats : RegionStats) (t : RegionTree) : Option RegionTree := do
  let curr := t.curr_region_node
  let n ← (t.node curr).addStats region_stats
  let t := t.setNode curr n.moveToPrevStats
  match t.c_region_stack with
  | [] => none
  | exited :: rest =>
      let t := { t with c_region_stack := rest }
      let next ←
        if (t.node curr).node_type = .rInit then (t.node exited).parent else (t.node curr).parent
      let t := { t with curr_region_node := next }
      if (t.node exited).node_type = .rSink then
        let n ← (t.node exited).addStats region_stats
        some (t.setNode exited n.moveToPrevStats)
      else some t

/-! ## §2. Runs of open and close. -/

/-- One call into the region tree. -/
inductive TreeCall where
  | openCtx (sid : SID) (cid : CID) (type : RegionType)
  | closeCtx (stats : RegionStats)
  deriving Repr, DecidableEq

/-- What one call does. -/
def treeStep (t : RegionTree) : TreeCall → Option RegionTree
  | .openCtx sid cid type => openRegionContext sid cid type t
  | .closeCtx stats => closeRegionContext stats t

/-- A call of a properly nested run: static ids are not zero, and a context is
closed only while one is open. -/
def TreeCall.Nested (t : RegionTree) : TreeCall → Prop
  | .openCtx sid _ _ => sid ≠ 0
  | .closeCtx _ => t.c_region_stack ≠ []

instance (t : RegionTree) : (call : TreeCall) → Decidable (call.Nested t)
  | .openCtx sid _ _ => inferInstanceAs (Decidable (sid ≠ 0))
  | .closeCtx _ => inferInstanceAs (Decidable (t.c_region_stack ≠ []))

/-- Balanced call sequences: every open has its close. -/
inductive BalancedCalls : List TreeCall → Prop
  | nil : BalancedCalls []
  | block (sid : SID) (cid : CID) (type : RegionType) (stats : RegionStats)
      {inner rest : List TreeCall} :
      BalancedCalls inner → BalancedCalls rest →
      BalancedCalls (.openCtx sid cid type :: inner ++ .closeCtx stats :: rest)

/-- The nodes a close adds its stats to: the current node and, when the context
was opened on a sink, that sink. -/
def closeTargets (t : RegionTree) : List NodeRef :=
  match t.c_region_stack with
  | [] => []
  | exited :: _ =>
      if (t.node exited).node_type = .rSink then [t.curr_region_node, exited]
      else [t.curr_region_node]

/-- How many closes of a run added stats to `r`. -/
def closesOn (r : NodeRef) : RegionTree → List TreeCall → ℕ
  | _, [] => 0
  | t, call :: calls =>
      (match call with
        | .closeCtx _ => (closeTargets t).count r
        | .openCtx _ _ _ => 0)
        + ((treeStep t call).map fun t' => closesOn r t' calls).getD 0

end Kremlin.Runtime
