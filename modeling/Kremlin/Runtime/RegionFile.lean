/-
  Kremlin.Runtime.RegionFile — writing `kremlin.bin`.

  `isEmittable`, `writeNodeStats`, `emitStat` and `writeRegionStats` of
  `CRegion.cpp`, on the finished region tree.  Here the tree is a value: the
  recursion pointer of a node is the id of the node it points to, since the
  writer reads nothing else through it.  The self-parallelism bounds are the
  integer hundredths that are written.
-/
import Kremlin.Library.ByteCodec
import Kremlin.Runtime.ProfileNode

namespace Kremlin.Runtime

open Kremlin.Library

/-! ## §1. The tree. -/

/-- A page of statistics, in the writer's field order. -/
structure StatPage where
  num_instances : UInt64
  total_work : UInt64
  total_par_per_work : UInt64
  self_par_per_work : UInt64
  minSPInt : UInt64
  maxSPInt : UInt64
  num_dynamic_child_regions : UInt64
  min_dynamic_child_regions : UInt64
  max_dynamic_child_regions : UInt64
  deriving Repr, DecidableEq

/-- What the writer reads of a node. -/
structure NodeInfo where
  id : UInt64
  static_id : UInt64
  callsite_id : UInt64
  node_type : ProfileNodeType
  recursion : Option UInt64
  num_instances : UInt64
  is_doall : UInt64
  stats : List StatPage
  deriving Repr, DecidableEq

/-- A node with its children. -/
inductive Node where
  | mk (info : NodeInfo) (children : List Node)

namespace Node

/-- What a node is. -/
def info : Node → NodeInfo
  | .mk info _ => info

/-- The children, the first one created first. -/
def children : Node → List Node
  | .mk _ children => children

/-- The id of a node. -/
def id (n : Node) : UInt64 := n.info.id

end Node

/-! ## §2. The writer. -/

/-- `fwrite(&x, sizeof(Int64), 1, fp)` on a little-endian host. -/
def fwrite (x : UInt64) : List UInt8 := leBytes 8 x.toNat

/-- The value of an `enum ProfileNodeType`. -/
def ProfileNodeType.code : ProfileNodeType → UInt64
  | .normal => 0
  | .rInit => 1
  | .rSink => 2

/-- The window of levels, `kremlin_config.getMinProfiledLevel()` and
`getMaxProfiledLevel()`. -/
structure Window where
  minLevel : ℕ
  maxLevel : ℕ
  deriving Repr, DecidableEq

/-- `isEmittable`. -/
def isEmittable (w : Window) (level : ℕ) : Bool := level ≥ w.minLevel && level < w.maxLevel

/-- `writeNodeStats`: the children from the last to the first. -/
def writeNodeStats (info : NodeInfo) (children : List Node) : List UInt8 :=
  fwrite info.id ++ fwrite info.static_id ++ fwrite info.callsite_id ++
    fwrite info.node_type.code ++ fwrite (info.recursion.getD 0) ++
    fwrite info.num_instances ++ fwrite info.is_doall ++
    fwrite (UInt64.ofNat children.length) ++
    children.reverse.flatMap fun child => fwrite child.id

/-- `emitStat`. -/
def emitStat (stat : StatPage) : List UInt8 :=
  fwrite stat.num_instances ++ fwrite stat.total_work ++ fwrite stat.total_par_per_work ++
    fwrite stat.self_par_per_work ++ fwrite stat.minSPInt ++ fwrite stat.maxSPInt ++
    fwrite stat.num_dynamic_child_regions ++ fwrite stat.min_dynamic_child_regions ++
    fwrite stat.max_dynamic_child_regions

/-- What `writeRegionStats` writes for the node itself. -/
def writeRecord (info : NodeInfo) (children : List Node) : List UInt8 :=
  writeNodeStats info children ++ fwrite (UInt64.ofNat info.stats.length) ++
    info.stats.flatMap emitStat

mutual

/-- `writeRegionStats`. -/
def writeRegionStats (w : Window) (level : ℕ) : Node → List UInt8
  | .mk info children =>
      (if isEmittable w level then writeRecord info children else [])
        ++ writeChildren w (level + 1) children

/-- Its loop over the children, from the last to the first. -/
def writeChildren (w : Window) (level : ℕ) : List Node → List UInt8
  | [] => []
  | child :: rest => writeChildren w level rest ++ writeRegionStats w level child

end

/-! ## §3. Which nodes are written. -/

mutual

/-- The nodes of a tree with their levels, in the writer's order. -/
def levels (level : ℕ) : Node → List (ℕ × Node)
  | .mk info children => (level, .mk info children) :: levelsOf (level + 1) children

/-- The nodes of a list of trees, the last tree first. -/
def levelsOf (level : ℕ) : List Node → List (ℕ × Node)
  | [] => []
  | child :: rest => levelsOf level rest ++ levels level child

end

/-- The nodes written, in order. -/
def emitted (w : Window) (root : Node) : List Node :=
  ((levels 0 root).filter fun p => isEmittable w p.1).map Prod.snd

/-- The record of a node. -/
def Node.record (n : Node) : List UInt8 := writeRecord n.info n.children

mutual

/-- The records of the emittable nodes below a level, one after another. -/
theorem writeRegionStats_eq (w : Window) (level : ℕ) : (n : Node) →
    writeRegionStats w level n
      = ((levels level n).filter fun p => isEmittable w p.1).flatMap fun p => p.2.record
  | .mk info children => by
      rw [writeRegionStats, levels, writeChildren_eq w (level + 1) children, List.filter_cons]
      by_cases h : isEmittable w level = true
      · rw [if_pos h, if_pos h, List.flatMap_cons]
        rfl
      · rw [if_neg h, if_neg h, List.nil_append]

/-- The children are written one after the other. -/
theorem writeChildren_eq (w : Window) (level : ℕ) : (ns : List Node) →
    writeChildren w level ns
      = ((levelsOf level ns).filter fun p => isEmittable w p.1).flatMap fun p => p.2.record
  | [] => by simp [writeChildren, levelsOf]
  | child :: rest => by
      rw [writeChildren, levelsOf, writeChildren_eq w level rest,
        writeRegionStats_eq w level child, List.filter_append, List.flatMap_append]

end

/-- **The file is the records of the emitted nodes**, in order. -/
theorem file_eq (w : Window) (root : Node) :
    writeRegionStats w 0 root = (emitted w root).flatMap Node.record := by
  rw [writeRegionStats_eq, emitted, List.flatMap_map]

/-- A region tree the writer can be given: distinct non-zero ids, recursion
targets on sinks only, and containers an `int` can index. -/
structure Node.RegionTreeOk (root : Node) : Prop where
  ids_nodup : ((levels 0 root).map fun p => p.2.id).Nodup
  id_ne : ∀ p ∈ levels 0 root, p.2.id ≠ 0
  target_sink : ∀ p ∈ levels 0 root, p.2.info.recursion ≠ none → p.2.info.node_type = .rSink
  children_int : ∀ p ∈ levels 0 root, p.2.children.length < 2 ^ 31
  stats_int : ∀ p ∈ levels 0 root, p.2.info.stats.length < 2 ^ 31

/-- Recursion pointers point up the tree. -/
def Node.TargetsAbove (root : Node) : Prop :=
  ∀ p ∈ levels 0 root, ∀ target ∈ p.2.info.recursion,
    ∃ q ∈ levels 0 root, q.2.id = target ∧ q.1 < p.1

/-- A node with one page. -/
def NodeInfo.onePage (id : UInt64) (node_type : ProfileNodeType) (recursion : Option UInt64) :
    NodeInfo where
  id := id
  static_id := id + 100
  callsite_id := 0
  node_type := node_type
  recursion := recursion
  num_instances := 1
  is_doall := 1
  stats := [⟨1, 10, 5, 7, 143, 143, 0, 0, 0⟩]

end Kremlin.Runtime
