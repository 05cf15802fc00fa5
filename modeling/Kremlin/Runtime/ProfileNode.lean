/-
  Kremlin.Runtime.ProfileNode — one node of the region tree.

  `ProfileNode` and `ProfileNodeStats` as in `ProfileNode.hpp`,
  `ProfileNodeStats.hpp` and `ProfileNode.cpp`.  A pointer to a node is the
  node's position in allocation order (`NodeRef`), so `NULL` is `none`.
  Self-parallelism bounds are exact rationals where the source has `double`.

  The runtime is compiled with `NDEBUG` (`kremlin.h` defines it), so the
  source's asserts are not part of the behaviour.  `none` stands for an access
  outside an array.
-/
import Kremlin.Runtime.Ktypes
import Mathlib.Data.Rat.Defs
import Mathlib.Tactic.Common
import Mathlib.Algebra.Ring.Nat

namespace Kremlin.Runtime

/-! ## §1. Statistics pages. -/

/-- One page of statistics (`ProfileNodeStats`). -/
structure ProfileNodeStats where
  total_work : ℕ
  min_self_par : ℚ
  max_self_par : ℚ
  self_par_per_work : ℕ
  total_par_per_work : ℕ
  num_dynamic_child_regions : ℕ
  min_dynamic_child_regions : ℕ
  max_dynamic_child_regions : ℕ
  num_instances : ℕ

/-- The constructor `ProfileNodeStats()`.  Both minima start at `-1`; for the
unsigned `min_dynamic_child_regions` that is the largest 64-bit value. -/
def ProfileNodeStats.new : ProfileNodeStats where
  total_work := 0
  min_self_par := -1
  max_self_par := 0
  self_par_per_work := 0
  total_par_per_work := 0
  num_dynamic_child_regions := 0
  min_dynamic_child_regions := 2 ^ 64 - 1
  max_dynamic_child_regions := 0
  num_instances := 0

/-- The body of `updateCurrentStats` on the page it selects. -/
def ProfileNodeStats.update (stat : ProfileNodeStats) (new_stats : RegionStats) :
    ProfileNodeStats :=
  let new_self_par : ℚ := (new_stats.work : ℚ) / (new_stats.spWork : ℚ)
  { stat with
    num_instances := stat.num_instances + 1
    min_self_par := if stat.min_self_par > new_self_par then new_self_par else stat.min_self_par
    max_self_par := if stat.max_self_par < new_self_par then new_self_par else stat.max_self_par
    total_work := stat.total_work + new_stats.work
    total_par_per_work := stat.total_par_per_work + new_stats.cp
    self_par_per_work := stat.self_par_per_work + new_stats.spWork
    num_dynamic_child_regions := stat.num_dynamic_child_regions + new_stats.childCnt
    min_dynamic_child_regions :=
      if stat.min_dynamic_child_regions > new_stats.childCnt then new_stats.childCnt
      else stat.min_dynamic_child_regions
    max_dynamic_child_regions :=
      if stat.max_dynamic_child_regions < new_stats.childCnt then new_stats.childCnt
      else stat.max_dynamic_child_regions }

/-- One instance more. -/
@[simp] theorem ProfileNodeStats.update_num_instances (stat : ProfileNodeStats)
    (new_stats : RegionStats) :
    (stat.update new_stats).num_instances = stat.num_instances + 1 := rfl

/-! ## §2. Nodes. -/

/-- `enum ProfileNodeType {NORMAL, R_INIT, R_SINK}`. -/
inductive ProfileNodeType where
  | normal
  | rInit
  | rSink
  deriving Repr, DecidableEq

/-- A `ProfileNode*`: the node's position in allocation order. -/
abbrev NodeRef := ℕ

/-- A node of the region tree.  `curr_stat_index` is a C `int` that starts at
`-1`. -/
structure ProfileNode where
  region_type : RegionType
  id : ℕ
  static_id : SID
  callsite_id : CID
  num_instances : ℕ
  is_doall : ℕ
  node_type : ProfileNodeType
  recursion : Option NodeRef
  stats : List ProfileNodeStats
  curr_stat_index : ℤ
  parent : Option NodeRef
  children : List NodeRef

/-- The constructor `ProfileNode(static_id, callsite_id, type)`; `id` is the
value `allocId` returned. -/
def ProfileNode.new (static_id : SID) (callsite_id : CID) (type : RegionType) (id : ℕ) :
    ProfileNode where
  region_type := type
  id := id
  static_id := static_id
  callsite_id := callsite_id
  num_instances := 0
  is_doall := 1
  node_type := .normal
  recursion := none
  stats := []
  curr_stat_index := -1
  parent := none
  children := []

namespace ProfileNode

/-- The test of `getChild`: a function region is looked up by static id and
callsite id, any other region by its static id alone. -/
def isMatch (child : ProfileNode) (static_id : SID) (callsite_id : CID) : Bool :=
  child.static_id == static_id
    && (child.region_type != .regionFunc || child.callsite_id == callsite_id)

/-- `updateCurrentStats`: the page at `curr_stat_index` absorbs the stats. -/
def updateCurrentStats (n : ProfileNode) (new_stats : RegionStats) : Option ProfileNode :=
  if 0 ≤ n.curr_stat_index ∧ n.curr_stat_index < n.stats.length then
    some { n with
      stats := n.stats.modify n.curr_stat_index.toNat fun stat => stat.update new_stats }
  else none

/-- `addStats`. -/
def addStats (n : ProfileNode) (new_stats : RegionStats) : Option ProfileNode :=
  let n := if new_stats.is_doall = 0 then { n with is_doall := 0 } else n
  let n := { n with num_instances := n.num_instances + 1 }
  n.updateCurrentStats new_stats

/-- `moveToNextStats`: the next page, appended when there is none. -/
def moveToNextStats (n : ProfileNode) : ProfileNode :=
  let stat_index := n.curr_stat_index + 1
  { n with
    curr_stat_index := stat_index
    stats := if stat_index ≥ n.stats.length then n.stats ++ [ProfileNodeStats.new] else n.stats }

/-- `moveToPrevStats`. -/
def moveToPrevStats (n : ProfileNode) : ProfileNode :=
  { n with curr_stat_index := n.curr_stat_index - 1 }

end ProfileNode

/-! ## §3. What the node operations leave alone. -/

namespace ProfileNode

variable {n n' : ProfileNode} {new_stats : RegionStats}

/-- The part of a node that only the construction of the tree writes. -/
structure SameShape (n n' : ProfileNode) : Prop where
  region_type : n'.region_type = n.region_type
  id : n'.id = n.id
  static_id : n'.static_id = n.static_id
  callsite_id : n'.callsite_id = n.callsite_id
  node_type : n'.node_type = n.node_type
  recursion : n'.recursion = n.recursion
  parent : n'.parent = n.parent
  children : n'.children = n.children

/-- Nothing changed. -/
theorem SameShape.refl (n : ProfileNode) : SameShape n n := by
  constructor <;> rfl

/-- One change after another. -/
theorem SameShape.trans {n₁ n₂ n₃ : ProfileNode} (h : SameShape n₁ n₂) (h' : SameShape n₂ n₃) :
    SameShape n₁ n₃ where
  region_type := h'.region_type.trans h.region_type
  id := h'.id.trans h.id
  static_id := h'.static_id.trans h.static_id
  callsite_id := h'.callsite_id.trans h.callsite_id
  node_type := h'.node_type.trans h.node_type
  recursion := h'.recursion.trans h.recursion
  parent := h'.parent.trans h.parent
  children := h'.children.trans h.children

/-- Going to another page is no change of shape, -/
theorem sameShape_moveToNextStats (n : ProfileNode) : SameShape n n.moveToNextStats := by
  constructor <;> rfl

/-- in either direction. -/
theorem sameShape_moveToPrevStats (n : ProfileNode) : SameShape n n.moveToPrevStats := by
  constructor <;> rfl

@[simp] theorem moveToNextStats_curr_stat_index (n : ProfileNode) :
    n.moveToNextStats.curr_stat_index = n.curr_stat_index + 1 := rfl

@[simp] theorem moveToPrevStats_curr_stat_index (n : ProfileNode) :
    n.moveToPrevStats.curr_stat_index = n.curr_stat_index - 1 := rfl

@[simp] theorem moveToPrevStats_stats (n : ProfileNode) : n.moveToPrevStats.stats = n.stats := rfl

@[simp] theorem moveToNextStats_num_instances (n : ProfileNode) :
    n.moveToNextStats.num_instances = n.num_instances := rfl

@[simp] theorem moveToPrevStats_num_instances (n : ProfileNode) :
    n.moveToPrevStats.num_instances = n.num_instances := rfl

/-- Everything `addStats` can do: it needs a current page, counts the instance
on the node and on that page, and leaves the shape of the tree alone. -/
theorem addStats_eq_some (h : n.addStats new_stats = some n') :
    0 ≤ n.curr_stat_index ∧ n.curr_stat_index < n.stats.length ∧ SameShape n n' ∧
      n'.curr_stat_index = n.curr_stat_index ∧ n'.num_instances = n.num_instances + 1 ∧
      n'.stats = n.stats.modify n.curr_stat_index.toNat fun stat => stat.update new_stats := by
  unfold addStats updateCurrentStats at h
  by_cases hd : new_stats.is_doall = 0 <;>
    simp only [hd, if_true, if_false, Option.ite_none_right_eq_some, Option.some.injEq] at h <;>
    obtain ⟨⟨h₀, h₁⟩, rfl⟩ := h <;>
    exact ⟨h₀, h₁, by constructor <;> rfl, rfl, rfl, rfl⟩

/-- `addStats` succeeds as soon as there is a current page. -/
theorem addStats_isSome (h₀ : 0 ≤ n.curr_stat_index) (h₁ : n.curr_stat_index < n.stats.length) :
    (n.addStats new_stats).isSome := by
  unfold addStats updateCurrentStats
  by_cases hd : new_stats.is_doall = 0 <;> simp [hd, h₀, h₁]

/-- The number of pages after `moveToNextStats`. -/
theorem moveToNextStats_length (h : n.curr_stat_index < n.stats.length) :
    (n.moveToNextStats.stats.length : ℤ) = max (n.stats.length : ℤ) (n.curr_stat_index + 2) := by
  unfold moveToNextStats
  by_cases hge : n.curr_stat_index + 1 ≥ (n.stats.length : ℤ)
  · simp only [if_pos hge, List.length_append, List.length_singleton]
    omega
  · simp only [if_neg hge]
    omega

/-- The instances counted over all pages of the node. -/
def pageInstances (n : ProfileNode) : ℕ := (n.stats.map ProfileNodeStats.num_instances).sum

/-- A new page has no instances. -/
theorem pageInstances_moveToNextStats (n : ProfileNode) :
    n.moveToNextStats.pageInstances = n.pageInstances := by
  unfold pageInstances moveToNextStats
  by_cases hge : n.curr_stat_index + 1 ≥ (n.stats.length : ℤ)
  · simp [if_pos hge, ProfileNodeStats.new]
  · simp [if_neg hge]

/-- One page has one instance more. -/
theorem sum_instances_modify (l : List ProfileNodeStats) (i : ℕ) (hi : i < l.length)
    (new_stats : RegionStats) :
    ((l.modify i fun stat => stat.update new_stats).map ProfileNodeStats.num_instances).sum
      = (l.map ProfileNodeStats.num_instances).sum + 1 := by
  induction l generalizing i with
  | nil => exact absurd hi (Nat.not_lt_zero i)
  | cons stat l ih =>
      cases i with
      | zero =>
          simp only [List.modify_zero_cons, List.map_cons, List.sum_cons,
            ProfileNodeStats.update_num_instances]
          omega
      | succ i =>
          simp only [List.modify_succ_cons, List.map_cons, List.sum_cons]
          rw [ih i (by simpa using hi)]
          omega

/-- `addStats` counts one instance over the pages, too. -/
theorem pageInstances_addStats (h : n.addStats new_stats = some n') :
    n'.pageInstances = n.pageInstances + 1 := by
  obtain ⟨h₀, h₁, -, -, -, hs⟩ := addStats_eq_some h
  unfold pageInstances
  rw [hs]
  exact sum_instances_modify _ _ (by omega) _

end ProfileNode

end Kremlin.Runtime
