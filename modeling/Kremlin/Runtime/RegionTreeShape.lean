/-
  Kremlin.Runtime.RegionTreeShape — what the construction of the region tree
  keeps.

  `TreeShape` says that the heap is a tree of parent pointers with the root at
  position 0, and what a sink (`rSink`) is: childless, with a recursion target
  that is a proper ancestor, marked `rInit` and of the same static id.  Nodes
  are created by `findOrCreateChild` only, so that is where the invariant is
  proved; everything else leaves the shape alone (`TreeShape.congr`).
-/
import Kremlin.Library.JumpStack
import Kremlin.Runtime.CRegion

namespace Kremlin.Runtime

open Kremlin.Library Relation

namespace RegionTree

/-! ## §1. Ancestors and landings. -/

/-- `a` is `c` or an ancestor of `c`. -/
def Anc (t : RegionTree) (a c : NodeRef) : Prop :=
  ReflTransGen (fun p c => (t.node c).parent = some p) a c

/-- `a` is a proper ancestor of `c`. -/
def ProperAnc (t : RegionTree) (a c : NodeRef) : Prop :=
  ∃ p, (t.node c).parent = some p ∧ t.Anc a p

/-- Where the position goes when the region of node `c` is entered. -/
def land (t : RegionTree) (c : NodeRef) : NodeRef :=
  if (t.node c).node_type = .rSink then (t.node c).recursion.getD c else c

/-- What a sink has to be. -/
structure SinkOk (t : RegionTree) (s : NodeRef) : Prop where
  childless : (t.node s).children = []
  target : ∃ a, (t.node s).recursion = some a ∧ (t.node a).node_type = .rInit ∧
    (t.node a).static_id = (t.node s).static_id ∧ t.ProperAnc a s

/-- The shape of the region tree. -/
structure TreeShape (t : RegionTree) : Prop where
  root : t.region_tree_root = 0
  root_sid : (t.node 0).static_id = 0
  root_type : (t.node 0).node_type ≠ .rSink
  root_parent : (t.node 0).parent = none
  size_pos : 0 < t.size
  /-- Beyond the allocated part the heap is blank. -/
  blank : ∀ c, t.size ≤ c → t.node c = blankNode
  parent_lt : ∀ {p c : NodeRef}, (t.node c).parent = some p → p < c
  has_parent : ∀ c, c < t.size → c ≠ 0 → ∃ p, (t.node c).parent = some p
  mem_children : ∀ p c, c ∈ (t.node p).children ↔ (t.node c).parent = some p
  sink : ∀ s, (t.node s).node_type = .rSink → t.SinkOk s
  recursion_sink : ∀ c a, (t.node c).recursion = some a → (t.node c).node_type = .rSink

variable {t t' : RegionTree}

namespace TreeShape

/-- The parent pointers as a forest; allocation order is its rank. -/
def forest (h : t.TreeShape) : Forest NodeRef where
  parent c := (t.node c).parent
  rank c := c
  rank_lt hp := h.parent_lt hp

/-- The two notions of an ancestor are one. -/
theorem anc_forest (h : t.TreeShape) {a c : NodeRef} : h.forest.Anc a c ↔ t.Anc a c := Iff.rfl

/-- A node with a parent is allocated. -/
theorem lt_size (h : t.TreeShape) {p c : NodeRef} (hp : (t.node c).parent = some p) :
    c < t.size := by
  by_contra hge
  rw [h.blank c (Nat.le_of_not_lt hge)] at hp
  exact absurd hp (by simp [blankNode, ProfileNode.new])

/-- Ancestors are older. -/
theorem anc_le (h : t.TreeShape) {a c : NodeRef} (ha : t.Anc a c) : a ≤ c :=
  (h.anc_forest.mpr ha).rank_le

/-- What is below an allocated node is allocated. -/
theorem anc_lt_size (h : t.TreeShape) {a c : NodeRef} (ha : t.Anc a c) (hlt : a < t.size) :
    c < t.size := by
  rcases ReflTransGen.cases_tail ha with rfl | ⟨p, -, hp⟩
  · exact hlt
  · exact h.lt_size hp

/-- The root is above nothing but what hangs below it; nothing is above it. -/
theorem eq_root_of_anc (h : t.TreeShape) {a : NodeRef} (ha : t.Anc a 0) : a = 0 :=
  Nat.le_zero.mp (h.anc_le ha)

/-- A proper ancestor has a child. -/
theorem children_ne_nil (h : t.TreeShape) {a c : NodeRef} (ha : t.ProperAnc a c) :
    (t.node a).children ≠ [] := by
  obtain ⟨p, hp, hap⟩ := ha
  rcases ReflTransGen.cases_head hap with rfl | ⟨d, had, _⟩
  · exact List.ne_nil_of_mem ((h.mem_children _ _).mpr hp)
  · exact List.ne_nil_of_mem ((h.mem_children _ _).mpr had)

/-- What is above something is no sink. -/
theorem not_sink_of_properAnc (h : t.TreeShape) {a c : NodeRef} (ha : t.ProperAnc a c) :
    (t.node a).node_type ≠ .rSink :=
  fun hs => h.children_ne_nil ha (h.sink a hs).childless

/-! ### Landings. -/

/-- Other nodes are landed on themselves, -/
theorem land_of_not_sink {c : NodeRef} (hc : (t.node c).node_type ≠ .rSink) : t.land c = c := by
  unfold land
  rw [if_neg hc]

/-- a sink on its target. -/
theorem land_of_sink {s a : NodeRef} (hs : (t.node s).node_type = .rSink)
    (ha : (t.node s).recursion = some a) : t.land s = a := by
  unfold land
  rw [if_pos hs, ha, Option.getD_some]

/-- A landing is never a sink. -/
theorem land_not_sink (h : t.TreeShape) (c : NodeRef) :
    (t.node (t.land c)).node_type ≠ .rSink := by
  by_cases hc : (t.node c).node_type = .rSink
  · obtain ⟨a, ha, hinit, -, -⟩ := (h.sink c hc).target
    rw [land_of_sink hc ha, hinit]
    exact fun h => by cases h
  · rw [land_of_not_sink hc]
    exact hc

/-- A landing is at or above the node entered. -/
theorem land_anc (h : t.TreeShape) (c : NodeRef) : t.Anc (t.land c) c := by
  by_cases hc : (t.node c).node_type = .rSink
  · obtain ⟨a, ha, -, -, p, hp, hap⟩ := (h.sink c hc).target
    rw [land_of_sink hc ha]
    exact hap.tail hp
  · rw [land_of_not_sink hc]
    exact ReflTransGen.refl

theorem land_lt_size (h : t.TreeShape) {c : NodeRef} (hc : c < t.size) : t.land c < t.size :=
  Nat.lt_of_le_of_lt (h.anc_le (h.land_anc c)) hc

/-- A node is a landing of another one only when it is marked `rInit`. -/
theorem land_eq (h : t.TreeShape) {c y : NodeRef} (hl : t.land c = y)
    (hy : (t.node y).node_type ≠ .rInit) : c = y := by
  by_cases hc : (t.node c).node_type = .rSink
  · obtain ⟨a, ha, hinit, -, -⟩ := (h.sink c hc).target
    rw [land_of_sink hc ha] at hl
    exact absurd (hl ▸ hinit) hy
  · rwa [land_of_not_sink hc] at hl

/-! ### Where the shape comes from. -/

/-- The tree of the root alone. -/
theorem init (summarize : Bool) : (initRegionTree summarize).TreeShape := by
  have hnode : ∀ c, (initRegionTree summarize).node c
      = if c = 0 then .new 0 0 .regionFunc 1 else blankNode := by
    intro c
    simp only [initRegionTree, Function.update_apply]
  have hpar : ∀ c, ((initRegionTree summarize).node c).parent = none := by
    intro c
    rw [hnode]
    split <;> rfl
  have hchild : ∀ c, ((initRegionTree summarize).node c).children = [] := by
    intro c
    rw [hnode]
    split <;> rfl
  have htype : ∀ c, ((initRegionTree summarize).node c).node_type = .normal := by
    intro c
    rw [hnode]
    split <;> rfl
  have hrec : ∀ c, ((initRegionTree summarize).node c).recursion = none := by
    intro c
    rw [hnode]
    split <;> rfl
  refine ⟨rfl, rfl, ?_, hpar 0, Nat.one_pos, ?_, ?_, ?_, ?_, ?_, ?_⟩
  · rw [htype]
    exact fun h => by cases h
  · intro c hc
    have hc' : 1 ≤ c := hc
    rw [hnode, if_neg (Nat.pos_iff_ne_zero.mp hc')]
  · intro p c hp
    exact absurd hp (by rw [hpar]; simp)
  · intro c hc h0
    have hc' : c < 1 := hc
    exact absurd (Nat.lt_one_iff.mp hc') h0
  · intro p c
    rw [hchild, hpar]
    simp
  · intro s hs
    rw [htype] at hs
    cases hs
  · intro c a ha
    rw [hrec] at ha
    cases ha

/-- The shape depends on the shapes of the nodes only. -/
theorem congr (h : t.TreeShape) (hroot : t'.region_tree_root = t.region_tree_root)
    (hsize : t'.size = t.size) (hnode : ∀ c, (t.node c).SameShape (t'.node c))
    (hblank : ∀ c, t.size ≤ c → t'.node c = t.node c) : t'.TreeShape := by
  -- the parents are the same, so are the ancestors
  have hanc : ∀ {a c : NodeRef}, t.Anc a c → t'.Anc a c := by
    intro a c ha
    refine ReflTransGen.mono ?_ a c ha
    intro p d hd
    rw [(hnode d).parent]
    exact hd
  refine ⟨hroot.trans h.root, ?_, ?_, ?_, ?_, ?_, ?_, ?_, ?_, ?_, ?_⟩
  · rw [(hnode 0).static_id, h.root_sid]
  · rw [(hnode 0).node_type]
    exact h.root_type
  · rw [(hnode 0).parent, h.root_parent]
  · rw [hsize]; exact h.size_pos
  · intro c hc
    rw [hsize] at hc
    rw [hblank c hc, h.blank c hc]
  · intro p c hp
    rw [(hnode c).parent] at hp
    exact h.parent_lt hp
  · intro c hc h0
    rw [(hnode c).parent]
    exact h.has_parent c (hsize ▸ hc) h0
  · intro p c
    rw [(hnode p).children, (hnode c).parent]
    exact h.mem_children p c
  · intro s hs
    rw [(hnode s).node_type] at hs
    -- a sink is one by its links and types, which stay
    obtain ⟨hchild, a, ha, hinit, hsid, p, hp, hap⟩ := h.sink s hs
    refine ⟨by rw [(hnode s).children, hchild], a, ?_, ?_, ?_, p, ?_, hanc hap⟩
    · rw [(hnode s).recursion, ha]
    · rw [(hnode a).node_type, hinit]
    · rw [(hnode a).static_id, (hnode s).static_id, hsid]
    · rw [(hnode s).parent, hp]
  · intro c a ha
    rw [(hnode c).recursion] at ha
    rw [(hnode c).node_type]
    exact h.recursion_sink c a ha

end TreeShape

/-! ## §2. Growth of the tree. -/

/-- The later tree has the nodes of the earlier one, at their places; a node
may have become an `rInit`, but none has become a sink. -/
structure Grows (t t' : RegionTree) : Prop where
  size_le : t.size ≤ t'.size
  static_id : ∀ c, c < t.size → (t'.node c).static_id = (t.node c).static_id
  parent : ∀ c, c < t.size → (t'.node c).parent = (t.node c).parent
  recursion : ∀ c, c < t.size → (t'.node c).recursion = (t.node c).recursion
  sink_iff : ∀ c, c < t.size →
    ((t'.node c).node_type = .rSink ↔ (t.node c).node_type = .rSink)
  init : ∀ c, c < t.size → (t.node c).node_type = .rInit → (t'.node c).node_type = .rInit

namespace Grows

/-- Nothing was added. -/
theorem refl (t : RegionTree) : Grows t t :=
  ⟨Nat.le_refl _, fun _ _ => rfl, fun _ _ => rfl, fun _ _ => rfl, fun _ _ => Iff.rfl,
    fun _ _ h => h⟩

/-- One growth after another. -/
theorem trans {t₁ t₂ t₃ : RegionTree} (h : Grows t₁ t₂) (h' : Grows t₂ t₃) : Grows t₁ t₃ := by
  have hlt : ∀ c, c < t₁.size → c < t₂.size := fun c hc => Nat.lt_of_lt_of_le hc h.size_le
  refine ⟨Nat.le_trans h.size_le h'.size_le, ?_, ?_, ?_, ?_, ?_⟩
  · exact fun c hc => (h'.static_id c (hlt c hc)).trans (h.static_id c hc)
  · exact fun c hc => (h'.parent c (hlt c hc)).trans (h.parent c hc)
  · exact fun c hc => (h'.recursion c (hlt c hc)).trans (h.recursion c hc)
  · exact fun c hc => (h'.sink_iff c (hlt c hc)).trans (h.sink_iff c hc)
  · exact fun c hc hi => h'.init c (hlt c hc) (h.init c hc hi)

/-- Nodes that keep their shapes have grown by nothing. -/
theorem of_sameShape (hsize : t'.size = t.size)
    (hnode : ∀ c, (t.node c).SameShape (t'.node c)) : Grows t t' := by
  refine ⟨Nat.le_of_eq hsize.symm, ?_, ?_, ?_, ?_, ?_⟩
  · exact fun c _ => (hnode c).static_id
  · exact fun c _ => (hnode c).parent
  · exact fun c _ => (hnode c).recursion
  · exact fun c _ => by rw [(hnode c).node_type]
  · exact fun c _ h => by rw [(hnode c).node_type, h]

/-- Old nodes land where they did. -/
theorem land_eq (h : Grows t t') {c : NodeRef} (hc : c < t.size) : t'.land c = t.land c := by
  unfold land
  rw [h.recursion c hc]
  by_cases hs : (t.node c).node_type = .rSink
  · rw [if_pos hs, if_pos ((h.sink_iff c hc).mpr hs)]
  · rw [if_neg hs, if_neg fun hs' => hs ((h.sink_iff c hc).mp hs')]

/-- Ancestry of a node of the earlier tree does not change. -/
theorem anc_iff (h : Grows t t') (ht : t.TreeShape) {a c : NodeRef} (hc : c < t.size) :
    t'.Anc a c ↔ t.Anc a c := by
  constructor
  · intro ha
    induction ha with
    | refl => exact ReflTransGen.refl
    | tail _ hp ih =>
        rw [h.parent _ hc] at hp
        exact (ih (Nat.lt_trans (ht.parent_lt hp) hc)).tail hp
  · intro ha
    induction ha with
    | refl => exact ReflTransGen.refl
    | tail _ hp ih =>
        have hp' := hp
        rw [← h.parent _ hc] at hp'
        exact (ih (Nat.lt_trans (ht.parent_lt hp) hc)).tail hp'

end Grows

/-! ## §3. Creating a child. -/

/-- The statistics of a node are untouched. -/
structure SameStats (n n' : ProfileNode) : Prop where
  stats : n'.stats = n.stats
  curr_stat_index : n'.curr_stat_index = n.curr_stat_index
  num_instances : n'.num_instances = n.num_instances

theorem SameStats.refl (n : ProfileNode) : SameStats n n := ⟨rfl, rfl, rfl⟩

@[simp] theorem setNode_node (t : RegionTree) (r : NodeRef) (n : ProfileNode) (c : NodeRef) :
    (t.setNode r n).node c = if c = r then n else t.node c :=
  Function.update_apply ..

@[simp] theorem setNode_size (t : RegionTree) (r : NodeRef) (n : ProfileNode) :
    (t.setNode r n).size = t.size := rfl

@[simp] theorem setNode_c_region_stack (t : RegionTree) (r : NodeRef) (n : ProfileNode) :
    (t.setNode r n).c_region_stack = t.c_region_stack := rfl

/-- The heap after `addNewChild`. -/
theorem addNewChild_node {p : NodeRef} (hp : p < t.size) (sid : SID) (cid : CID)
    (type : RegionType) (c : NodeRef) :
    (t.addNewChild p sid cid type).node c =
      if c = t.size then { ProfileNode.new sid cid type (t.lastId + 1) with parent := some p }
      else if c = p then { t.node p with children := (t.node p).children ++ [t.size] }
      else t.node c := by
  have hne : p ≠ t.size := Nat.ne_of_lt hp
  unfold addNewChild
  simp only [setNode_node]
  by_cases hc : c = t.size
  · simp [hc, hne.symm]
  · by_cases hcp : c = p <;> simp [hc, hcp, hne]

/-- A sink stays one when its links do and its target stays an init. -/
theorem SinkOk.mono {s : NodeRef} (h : t.SinkOk s) (hchild : (t'.node s).children = [])
    (hrec : (t'.node s).recursion = (t.node s).recursion)
    (hsid : ∀ c, c ≤ s → (t'.node c).static_id = (t.node c).static_id)
    (hparent : ∀ c, c ≤ s → (t'.node c).parent = (t.node c).parent)
    (hinit : ∀ a, t.ProperAnc a s → (t.node a).node_type = .rInit →
      (t'.node a).node_type = .rInit)
    (hlt : ∀ {p c : NodeRef}, (t.node c).parent = some p → p < c) : t'.SinkOk s := by
  obtain ⟨-, a, ha, htype, hs, p, hp, hap⟩ := h
  have hle : ∀ {x y : NodeRef}, t.Anc x y → x ≤ y := by
    intro x y hxy
    induction hxy with
    | refl => exact Nat.le_refl _
    | tail _ hq ih => exact Nat.le_trans ih (Nat.le_of_lt (hlt hq))
  have hps : p ≤ s := Nat.le_of_lt (hlt hp)
  have hanc : ∀ {x y : NodeRef}, y ≤ s → t.Anc x y → t'.Anc x y := by
    intro x y hy hxy
    induction hxy with
    | refl => exact ReflTransGen.refl
    | tail _ hq ih =>
        have hq' := hq
        rw [← hparent _ hy] at hq'
        exact (ih (Nat.le_trans (Nat.le_of_lt (hlt hq)) hy)).tail hq'
  refine ⟨hchild, a, hrec.trans ha, hinit a ⟨p, hp, hap⟩ htype, ?_, p, ?_, hanc hps hap⟩
  · rw [hsid a (Nat.le_trans (hle hap) hps), hsid s (Nat.le_refl s), hs]
  · rw [hparent s (Nat.le_refl s), hp]

/-- A fresh childless node below an allocated, non-sink node keeps the shape. -/
theorem TreeShape.addNewChild (h : t.TreeShape) {p : NodeRef} (hp : p < t.size)
    (hsink : (t.node p).node_type ≠ .rSink) (sid : SID) (cid : CID) (type : RegionType) :
    (t.addNewChild p sid cid type).TreeShape := by
  have hnode := addNewChild_node hp sid cid type
  have hold : ∀ c, c ≠ t.size → ((t.addNewChild p sid cid type).node c).parent = (t.node c).parent
      ∧ ((t.addNewChild p sid cid type).node c).static_id = (t.node c).static_id
      ∧ ((t.addNewChild p sid cid type).node c).node_type = (t.node c).node_type
      ∧ ((t.addNewChild p sid cid type).node c).recursion = (t.node c).recursion := by
    intro c hc
    rw [hnode, if_neg hc]
    by_cases hcp : c = p
    · rw [if_pos hcp, hcp]
      exact ⟨rfl, rfl, rfl, rfl⟩
    · rw [if_neg hcp]
      exact ⟨rfl, rfl, rfl, rfl⟩
  -- the new node is normal and has a parent only
  have hnew : (t.addNewChild p sid cid type).node t.size
      = { ProfileNode.new sid cid type (t.lastId + 1) with parent := some p } := by
    rw [hnode, if_pos rfl]
  have h0 : (0 : NodeRef) ≠ t.size := Nat.ne_of_lt h.size_pos
  refine ⟨h.root, ?_, ?_, ?_, Nat.succ_pos _, ?_, ?_, ?_, ?_, ?_, ?_⟩
  · rw [(hold 0 h0).2.1, h.root_sid]
  · rw [(hold 0 h0).2.2.1]
    exact h.root_type
  · rw [(hold 0 h0).1, h.root_parent]
  · intro c hc
    have hc' : t.size + 1 ≤ c := hc
    rw [hnode, if_neg (Nat.ne_of_gt hc'),
      if_neg (Nat.ne_of_gt (Nat.lt_trans hp hc')), h.blank c (Nat.le_of_succ_le hc')]
  · intro q c hq
    by_cases hc : c = t.size
    · rw [hc, hnew] at hq
      obtain rfl : p = q := Option.some.inj hq
      rw [hc]
      exact hp
    · rw [(hold c hc).1] at hq
      exact h.parent_lt hq
  · intro c hc hc0
    by_cases hcs : c = t.size
    · exact ⟨p, by rw [hcs, hnew]⟩
    · rw [(hold c hcs).1]
      exact h.has_parent c (Nat.lt_of_le_of_ne (Nat.le_of_lt_succ hc) hcs) hc0
  · intro q c
    have hblank : (t.node t.size).children = [] ∧ (t.node t.size).parent = none := by
      rw [h.blank _ (Nat.le_refl _)]
      exact ⟨rfl, rfl⟩
    -- one list of children is one longer
    have hchildren : ((t.addNewChild p sid cid type).node q).children
        = (t.node q).children ++ if q = p then [t.size] else [] := by
      rw [hnode]
      by_cases hq : q = t.size
      · rw [if_pos hq, hq, hblank.1, if_neg (Nat.ne_of_gt hp)]
        rfl
      · rw [if_neg hq]
        by_cases hqp : q = p
        · rw [if_pos hqp, if_pos hqp, hqp]
        · rw [if_neg hqp, if_neg hqp, List.append_nil]
    rw [hchildren, List.mem_append, h.mem_children q c]
    by_cases hc : c = t.size
    · rw [hc, hnew, hblank.2]
      by_cases hqp : q = p
      · simp [hqp]
      · simp [hqp, Ne.symm hqp]
    · rw [(hold c hc).1]
      by_cases hqp : q = p
      · simp [hqp, hc]
      · simp [hqp]
  · intro s hs
    -- the new node is no sink, and no sink gets a child
    have hss : s ≠ t.size := by
      intro hss
      rw [hss, hnew] at hs
      cases hs
    rw [(hold s hss).2.2.1] at hs
    have hsp : s ≠ p := fun h => hsink (h ▸ hs)
    have hlt : s < t.size := by
      by_contra hge
      rw [h.blank s (Nat.le_of_not_lt hge)] at hs
      cases hs
    refine (h.sink s hs).mono ?_ (hold s hss).2.2.2 ?_ ?_ ?_ h.parent_lt
    · rw [hnode, if_neg hss, if_neg hsp, (h.sink s hs).childless]
    · exact fun c hc => (hold c (Nat.ne_of_lt (Nat.lt_of_le_of_lt hc hlt))).2.1
    · exact fun c hc => (hold c (Nat.ne_of_lt (Nat.lt_of_le_of_lt hc hlt))).1
    · intro a ha htype
      obtain ⟨q, hq, haq⟩ := ha
      have hle : a ≤ s := Nat.le_trans (h.anc_le haq) (Nat.le_of_lt (h.parent_lt hq))
      rw [(hold a (Nat.ne_of_lt (Nat.lt_of_le_of_lt hle hlt))).2.2.1, htype]
  · intro c a ha
    by_cases hcs : c = t.size
    · rw [hcs, hnew] at ha
      cases ha
    · rw [(hold c hcs).2.2.2] at ha
      rw [(hold c hcs).2.2.1]
      exact h.recursion_sink c a ha

end RegionTree

end Kremlin.Runtime
