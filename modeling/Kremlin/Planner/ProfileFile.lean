/-
  Kremlin.Planner.ProfileFile — from the region tree to the planner's regions.

  `writeProgramStats` on the heap of the runtime, which writes the tree below the
  only child of the root.  The planner's two readers are run on its bytes, with
  the static regions of a second file.

  Main results:
    * `traceReader_profile` — the records of the tree come back.
    * `profile_accepted` — its regions are accepted exactly when the static region
      file lists what the nodes name, and are then all linked.
    * `run_accepted` — the regions of a program run, whose contexts conserve work,
      have no negative exclusive work, and their coverages fit.

  The cast of a self-parallelism bound to `UInt64` is a parameter: the bound -1
  that every page keeps as its minimum is outside the type's range.
-/
import Kremlin.Planner.Coverage
import Kremlin.Planner.RoundTrip
import Kremlin.Planner.SRegionManager
import Kremlin.Runtime.WorkConservation

namespace Kremlin.Planner

open Kremlin.Library Kremlin.Runtime Relation

/-! ## §1. The writer on the heap. -/

section Writer

variable (toUInt64 : ℚ → UInt64)

/-- What `emitStat` writes of a page. -/
def statPage (stat : ProfileNodeStats) : StatPage where
  num_instances := UInt64.ofNat stat.num_instances
  total_work := UInt64.ofNat stat.total_work
  total_par_per_work := UInt64.ofNat stat.total_par_per_work
  self_par_per_work := UInt64.ofNat stat.self_par_per_work
  minSPInt := toUInt64 (stat.min_self_par * 100)
  maxSPInt := toUInt64 (stat.max_self_par * 100)
  num_dynamic_child_regions := UInt64.ofNat stat.num_dynamic_child_regions
  min_dynamic_child_regions := UInt64.ofNat stat.min_dynamic_child_regions
  max_dynamic_child_regions := UInt64.ofNat stat.max_dynamic_child_regions

/-- What `writeNodeStats` writes of a node; the target through its pointer. -/
def nodeInfo (t : RegionTree) (c : NodeRef) : NodeInfo where
  id := UInt64.ofNat (t.node c).id
  static_id := UInt64.ofNat (t.node c).static_id
  callsite_id := UInt64.ofNat (t.node c).callsite_id
  node_type := (t.node c).node_type
  recursion := (t.node c).recursion.map fun target => UInt64.ofNat (t.node target).id
  num_instances := UInt64.ofNat (t.node c).num_instances
  is_doall := UInt64.ofNat (t.node c).is_doall
  stats := (t.node c).stats.map (statPage toUInt64)

/-- The tree below a node, as deep as `depth`. -/
def nodeFrom (t : RegionTree) : (depth : ℕ) → NodeRef → Node
  | 0, c => .mk (nodeInfo toUInt64 t c) []
  | depth + 1, c => .mk (nodeInfo toUInt64 t c) ((t.node c).children.map (nodeFrom t depth))

/-- The tree below a node: no path of the heap is longer than its size. -/
def nodeAt (t : RegionTree) (c : NodeRef) : Node := nodeFrom toUInt64 t (t.size - c) c

/-- `writeProgramStats`: the root's first child, on level 0. -/
def writeProgramStats (w : Window) (t : RegionTree) : Option (List UInt8) := do
  let main ← (t.node t.region_tree_root).children[0]?
  some (writeRegionStats w 0 (nodeAt toUInt64 t main))

end Writer

/-- The numbers of a node fit the fields of the file, and its containers an `int`. -/
structure NodeFits (node : ProfileNode) : Prop where
  static_id : node.static_id < 2 ^ 64
  callsite_id : node.callsite_id < 2 ^ 64
  num_instances : node.num_instances < 2 ^ 64
  is_doall : node.is_doall < 2 ^ 64
  children : node.children.length < 2 ^ 31
  stats : node.stats.length < 2 ^ 31
  pages : ∀ stat ∈ node.stats, stat.num_instances < 2 ^ 64 ∧ stat.total_work < 2 ^ 64 ∧
    stat.total_par_per_work < 2 ^ 64 ∧ stat.self_par_per_work < 2 ^ 64 ∧
    stat.num_dynamic_child_regions < 2 ^ 64 ∧ stat.min_dynamic_child_regions < 2 ^ 64 ∧
    stat.max_dynamic_child_regions < 2 ^ 64

/-- The fields of a node, one by one. -/
theorem nodeFits_iff (node : ProfileNode) :
    NodeFits node ↔ (node.static_id < 2 ^ 64 ∧ node.callsite_id < 2 ^ 64 ∧
      node.num_instances < 2 ^ 64 ∧ node.is_doall < 2 ^ 64 ∧ node.children.length < 2 ^ 31 ∧
      node.stats.length < 2 ^ 31) ∧
      ∀ stat ∈ node.stats, stat.num_instances < 2 ^ 64 ∧ stat.total_work < 2 ^ 64 ∧
        stat.total_par_per_work < 2 ^ 64 ∧ stat.self_par_per_work < 2 ^ 64 ∧
        stat.num_dynamic_child_regions < 2 ^ 64 ∧ stat.min_dynamic_child_regions < 2 ^ 64 ∧
        stat.max_dynamic_child_regions < 2 ^ 64 :=
  ⟨fun h => ⟨⟨h.1, h.2, h.3, h.4, h.5, h.6⟩, h.7⟩,
    fun h => ⟨h.1.1, h.1.2.1, h.1.2.2.1, h.1.2.2.2.1, h.1.2.2.2.2.1, h.1.2.2.2.2.2, h.2⟩⟩

instance (node : ProfileNode) : Decidable (NodeFits node) := decidable_of_iff' _ (nodeFits_iff node)

/-- The tree fits the file. -/
def Fits (t : RegionTree) : Prop := t.size < 2 ^ 64 ∧ ∀ c < t.size, NodeFits (t.node c)

instance (t : RegionTree) : Decidable (Fits t) := inferInstanceAs (Decidable (_ ∧ _))

/-- The window holds all levels of a tree. -/
def Covers (w : Window) (root : Node) : Prop := ∀ p ∈ levels 0 root, isEmittable w p.1 = true

instance (w : Window) (root : Node) : Decidable (Covers w root) :=
  inferInstanceAs (Decidable (∀ p ∈ _, _))

/-! ## §2. The tree the file tells of. -/

section Told

variable (toUInt64 : ℚ → UInt64) {t : RegionTree}

/-- A page with its bounds in the hundredths that are written. -/
def toldPage (stat : ProfileNodeStats) : ProfileNodeStats :=
  { stat with
    min_self_par := ((toUInt64 (stat.min_self_par * 100)).toNat : ℚ) / 100
    max_self_par := ((toUInt64 (stat.max_self_par * 100)).toNat : ℚ) / 100 }

/-- The tree with these pages. -/
def told (t : RegionTree) : RegionTree :=
  { t with node := fun c =>
      { t.node c with stats := (t.node c).stats.map (toldPage toUInt64) } }

/-- The cast keeps the pages, -/
theorem told_pages (t : RegionTree) (c : NodeRef) : (told toUInt64 t).pages c = t.pages c :=
  List.length_map _

/-- the links, -/
theorem sameShape_told (t : RegionTree) (c : NodeRef) :
    ProfileNode.SameShape (t.node c) ((told toUInt64 t).node c) := by
  constructor <;> rfl

/-- the work of the first pages, -/
theorem firstWork_told (t : RegionTree) (c : NodeRef) :
    (told toUInt64 t).firstWork c = t.firstWork c := by
  show Option.getD (Option.map _ ((t.node c).stats.map (toldPage toUInt64))[0]?) 0 = _
  rw [List.getElem?_map, Option.map_map]
  rfl

/-- that of the children, -/
theorem childWork_told (t : RegionTree) (c : NodeRef) :
    (told toUInt64 t).childWork c = t.childWork c :=
  Finset.sum_congr rfl fun d _ => firstWork_told toUInt64 t d

/-- and all of a page but its minimum. -/
theorem firstPage_told (t : RegionTree) (c : NodeRef) :
    (told toUInt64 t).firstPage c = (t.firstPage c).map (toldPage toUInt64) :=
  List.getElem?_map ..

/-- The runtime's guarantees say nothing of the bounds. -/
theorem handed_told (h : Handed t) : Handed (told toUInt64 t) := by
  have hshape : (told toUInt64 t).TreeShape :=
    h.disc.shape.congr rfl rfl (sameShape_told toUInt64 t) fun c hc => by
      show ({ t.node c with stats := (t.node c).stats.map (toldPage toUInt64) } : ProfileNode) = _
      rw [h.disc.shape.blank c hc]
      rfl
  refine ⟨⟨⟨hshape, h.disc.chain, h.disc.curr, h.disc.index, fun c => ?_, fun c => ?_⟩,
    h.disc.plain.of_sameShape rfl (sameShape_told toUInt64 t)⟩, ⟨?_, ?_, ?_⟩,
    h.ids.of_sameShape rfl rfl (sameShape_told toUInt64 t)⟩
  · show (t.node c).curr_stat_index < ((t.node c).stats.map (toldPage toUInt64)).length
    rw [List.length_map]
    exact h.disc.page c
  · show (t.node c).num_instances
      = (((t.node c).stats.map (toldPage toUInt64)).map ProfileNodeStats.num_instances).sum
    rw [List.map_map]
    exact h.disc.instances c
  · intro c hc hne
    rw [told_pages]
    exact h.pages.visited c hc hne
  · intro c hne hno
    rw [told_pages]
    exact h.pages.single c hne hno
  · intro s a hs ha
    unfold RegionTree.PathPages
    simp only [told_pages]
    exact h.pages.sink s a hs ha

end Told

/-! ## §3. The records of the heap. -/

section Records

variable (toUInt64 : ℚ → UInt64) {t : RegionTree}

/-- Deeper than the heap is large, a tree does not grow. -/
theorem nodeFrom_congr (h : t.TreeShape) : ∀ {n k : ℕ} {c : NodeRef}, t.size - c ≤ n →
    t.size - c ≤ k → nodeFrom toUInt64 t n c = nodeFrom toUInt64 t k c := by
  have hchild : ∀ {p c : ℕ}, c ∈ (t.node p).children → p < c ∧ c < t.size := fun hc =>
    ⟨h.parent_lt ((h.mem_children _ _).mp hc), h.lt_size ((h.mem_children _ _).mp hc)⟩
  -- without depth left, there are no children
  have hnone : ∀ {c : NodeRef}, t.size - c ≤ 0 → (t.node c).children = [] := by
    intro c hc
    refine List.eq_nil_iff_forall_not_mem.mpr fun d hd => ?_
    have := hchild hd
    omega
  intro n
  induction n with
  | zero =>
      intro k c hn _
      cases k with
      | zero => rfl
      | succ k => simp only [nodeFrom, hnone hn, List.map_nil]
  | succ n ih =>
      intro k c hn hk
      cases k with
      | zero => simp only [nodeFrom, hnone hk, List.map_nil]
      | succ k =>
          simp only [nodeFrom]
          congr 1
          refine List.map_congr_left fun d hd => ih ?_ ?_ <;>
          · have := hchild hd
            omega

/-- The tree below a node, with the trees below its children. -/
theorem nodeAt_eq (h : t.TreeShape) (c : NodeRef) :
    nodeAt toUInt64 t c
      = .mk (nodeInfo toUInt64 t c) ((t.node c).children.map (nodeAt toUInt64 t)) := by
  have hdeep : nodeAt toUInt64 t c = nodeFrom toUInt64 t (t.size - c + 1) c :=
    nodeFrom_congr toUInt64 h (Nat.le_refl _) (Nat.le_succ _)
  rw [hdeep, nodeFrom]
  congr 1
  refine List.map_congr_left fun d hd => nodeFrom_congr toUInt64 h ?_ (Nat.le_refl _)
  exact Nat.sub_le_sub_left (Nat.le_of_lt (h.parent_lt ((h.mem_children _ _).mp hd))) _

/-- The fields of the node written, -/
theorem nodeAt_info (h : t.TreeShape) (c : NodeRef) :
    (nodeAt toUInt64 t c).info = nodeInfo toUInt64 t c := by
  rw [nodeAt_eq toUInt64 h]
  rfl

/-- and its children. -/
theorem nodeAt_children (h : t.TreeShape) (c : NodeRef) :
    (nodeAt toUInt64 t c).children = (t.node c).children.map (nodeAt toUInt64 t) := by
  rw [nodeAt_eq toUInt64 h]
  rfl

/-- What fits is written as it is. -/
theorem toNat_ofNat {n : ℕ} (h : n < 2 ^ 64) : (UInt64.ofNat n).toNat = n :=
  UInt64.toNat_ofNat_of_lt' (by simpa using h)

/-- A page is read as the file tells it. -/
theorem statOf_statPage {node : ProfileNode} (hf : NodeFits node) {stat : ProfileNodeStats}
    (hstat : stat ∈ node.stats) :
    statOf (statPage toUInt64 stat) = pageStat (toldPage toUInt64 stat) := by
  have hbound : ∀ x : UInt64, (((x.toNat : ℚ) / 100) * 100).floor.toNat = x.toNat := by
    intro x
    rw [div_mul_cancel₀ _ (by norm_num)]
    have hcast : ((x.toNat : ℚ)).floor = (x.toNat : ℤ) := by
      exact_mod_cast Rat.floor_intCast (x.toNat : ℤ)
    rw [hcast, Int.toNat_natCast]
  obtain ⟨h₁, h₂, h₃, h₄, h₅, h₆, h₇⟩ := hf.pages stat hstat
  unfold statOf statPage pageStat toldPage
  simp only [hbound, toNat_ofNat h₁, toNat_ofNat h₂, toNat_ofNat h₃, toNat_ofNat h₄,
    toNat_ofNat h₅, toNat_ofNat h₆, toNat_ofNat h₇]

/-- The id of an allocated node. -/
theorem id_lt (h : Handed t) (hf : Fits t) {c : NodeRef} (hc : c < t.size) :
    (t.node c).id < 2 ^ 64 := by
  rw [h.ids.id c hc]
  exact Nat.lt_of_le_of_lt hc hf.1

/-- **The entry of a node** is the record of the tree the file tells of. -/
theorem entryOf_nodeAt (h : Handed t) (hf : Fits t) {c : NodeRef} (hc : c < t.size) :
    entryOf (nodeAt toUInt64 t c) = traceEntry (told toUInt64 t) c := by
  have hshape := h.disc.shape
  have hnode := hf.2 c hc
  have hchildren : ∀ d ∈ (t.node c).children, d < t.size := fun d hd =>
    hshape.lt_size ((hshape.mem_children _ _).mp hd)
  have hids : (nodeAt toUInt64 t c).children.reverse.map (fun child => child.id.toNat)
      = (t.node c).children.reverse.map fun d => (t.node d).id := by
    rw [nodeAt_children toUInt64 hshape, ← List.map_reverse, List.map_map]
    refine List.map_congr_left fun d hd => ?_
    show (nodeAt toUInt64 t d).info.id.toNat = _
    rw [nodeAt_info toUInt64 hshape]
    exact toNat_ofNat (id_lt h hf (hchildren d (List.mem_reverse.mp hd)))
  have hstats : (nodeInfo toUInt64 t c).stats.map statOf
      = ((t.node c).stats.map (toldPage toUInt64)).map pageStat := by
    show ((t.node c).stats.map (statPage toUInt64)).map statOf = _
    rw [List.map_map, List.map_map]
    exact List.map_congr_left fun stat hstat => statOf_statPage toUInt64 hnode hstat
  have htarget : ((nodeInfo toUInt64 t c).recursion.getD 0).toNat
      = (traceEntry t c).recursionTarget := by
    unfold nodeInfo traceEntry
    cases hrec : (t.node c).recursion with
    | none => rfl
    | some target =>
        -- a target is above its sink, so it is allocated too
        have hsink := hshape.recursion_sink c target hrec
        obtain ⟨a, ha, -, -, hproper⟩ := (hshape.sink c hsink).target
        obtain rfl := Option.some.inj (ha.symm.trans hrec)
        obtain ⟨p, hp, hap⟩ := hproper
        exact toNat_ofNat (id_lt h hf (Nat.lt_of_le_of_lt (hshape.anc_le hap)
          (Nat.lt_trans (hshape.parent_lt hp) hc)))
  have hcode : (t.node c).node_type.code.toNat = nodeTypeCode (t.node c).node_type := by
    cases (t.node c).node_type <;> rfl
  have hdoall : decide (UInt64.ofNat (t.node c).is_doall ≠ 0)
      = decide ((t.node c).is_doall ≠ 0) := by
    have : UInt64.ofNat (t.node c).is_doall = 0 ↔ (t.node c).is_doall = 0 := by
      rw [← UInt64.toNat_inj, toNat_ofNat hnode.is_doall]
      rfl
    simp only [ne_eq, this]
  have hid : (nodeAt toUInt64 t c).id = UInt64.ofNat (t.node c).id :=
    congrArg NodeInfo.id (nodeAt_info toUInt64 hshape c)
  unfold entryOf
  rw [hids, hid, nodeAt_info toUInt64 hshape, hstats, htarget]
  show TraceEntry.mk (UInt64.ofNat (t.node c).id).toNat (UInt64.ofNat (t.node c).static_id).toNat
    (UInt64.ofNat (t.node c).callsite_id).toNat (t.node c).node_type.code.toNat _
    (UInt64.ofNat (t.node c).num_instances).toNat
    (decide (UInt64.ofNat (t.node c).is_doall ≠ 0)) _ _ = _
  rw [toNat_ofNat (id_lt h hf hc), toNat_ofNat hnode.static_id, toNat_ofNat hnode.callsite_id,
    toNat_ofNat hnode.num_instances, hcode, hdoall]
  rfl

/-! ## §4. The nodes of the file. -/

/-- Two children of a node have nothing in common below them. -/
theorem eq_of_anc_siblings (h : t.TreeShape) {p c c' d : NodeRef}
    (hc : (t.node c).parent = some p) (hc' : (t.node c').parent = some p) (hd : t.Anc c d)
    (hd' : t.Anc c' d) : c = c' := by
  have habove : ∀ {a b : NodeRef}, (t.node a).parent = some p → (t.node b).parent = some p →
      t.Anc a b → a = b := by
    intro a b ha hb hab
    rcases ReflTransGen.cases_tail hab with heq | ⟨q, haq, hq⟩
    · exact heq.symm
    · obtain rfl := Option.some.inj (hq.symm.trans hb)
      exact absurd (h.parent_lt ha) (Nat.not_lt.mpr (h.anc_le haq))
  -- one of the two is above the other, with its parent above that
  rcases Forest.Anc.total (F := h.forest) hd hd' with hcc | hcc
  · exact habove hc hc' hcc
  · exact (habove hc' hc hcc).symm

/-- `M` lists the nodes at and below those of `cs`, with their levels. -/
structure ListsBelow (t : RegionTree) (cs : List NodeRef) (M : List (ℕ × NodeRef)) : Prop where
  nodup : (M.map Prod.snd).Nodup
  mem : ∀ d, d ∈ M.map Prod.snd ↔ ∃ c ∈ cs, t.Anc c d

/-- The nodes below one more sibling. -/
theorem ListsBelow.cons (hshape : t.TreeShape) {c d : NodeRef} {cs : List NodeRef}
    {M M' : List (ℕ × NodeRef)} (hd : (t.node d).parent = some c)
    (hpar : ∀ e ∈ cs, (t.node e).parent = some c) (hnot : d ∉ cs) (h : ListsBelow t cs M)
    (h' : ListsBelow t [d] M') : ListsBelow t (d :: cs) (M ++ M') := by
  constructor
  · rw [List.map_append]
    refine List.nodup_append.mpr ⟨h.nodup, h'.nodup, ?_⟩
    rintro e he _ he' rfl
    obtain ⟨c', hc', hce⟩ := (h.mem e).mp he
    obtain ⟨d', hd', hde⟩ := (h'.mem e).mp he'
    obtain rfl := List.mem_singleton.mp hd'
    obtain rfl := eq_of_anc_siblings hshape (hpar c' hc') hd hce hde
    exact hnot hc'
  · intro e
    have hself : (∃ c ∈ [d], t.Anc c e) ↔ t.Anc d e := by
      simp only [List.mem_singleton, exists_eq_left]
    rw [List.map_append, List.mem_append, h.mem, h'.mem, hself, or_comm]
    simp only [List.mem_cons, exists_eq_or_imp]

/-- The nodes at and below siblings, those of the last one first. -/
theorem levelsOf_nodeAt (hshape : t.TreeShape) {c : NodeRef} {level : ℕ} :
    ∀ (cs : List NodeRef), cs.Nodup → (∀ d ∈ cs, (t.node d).parent = some c) →
      (∀ d ∈ cs, ∃ M, levels level (nodeAt toUInt64 t d)
        = M.map (fun p => (p.1, nodeAt toUInt64 t p.2)) ∧ ListsBelow t [d] M) →
      ∃ M, levelsOf level (cs.map (nodeAt toUInt64 t))
        = M.map (fun p => (p.1, nodeAt toUInt64 t p.2)) ∧ ListsBelow t cs M := by
  intro cs
  induction cs with
  | nil => exact fun _ _ _ => ⟨[], rfl, List.nodup_nil, by simp⟩
  | cons d cs ih =>
      intro hnd hpar hbelow
      obtain ⟨hnot, hnd⟩ := List.nodup_cons.mp hnd
      obtain ⟨hd, hrest⟩ := List.forall_mem_cons.mp hpar
      obtain ⟨⟨M', hM', hlists'⟩, hbelow⟩ := List.forall_mem_cons.mp hbelow
      obtain ⟨M, hM, hlists⟩ := ih hnd hrest hbelow
      refine ⟨M ++ M', ?_, hlists.cons hshape hd hrest hnot hlists'⟩
      rw [List.map_cons, levelsOf, hM, hM', List.map_append]

/-- **The nodes of the value are those of the heap**, by induction on how much of
the heap comes after the node. -/
theorem levels_nodeAt (h : Handed t) : ∀ (n : ℕ) (c : NodeRef), t.size - c ≤ n → ∀ level,
    ∃ M, levels level (nodeAt toUInt64 t c) = M.map (fun p => (p.1, nodeAt toUInt64 t p.2)) ∧
      ListsBelow t [c] M := by
  have hshape := h.disc.shape
  intro n
  induction n with
  | zero =>
      intro c hn level
      -- a node that is not allocated is blank
      have hblank : (t.node c).children = [] := by
        rw [hshape.blank c (Nat.sub_eq_zero_iff_le.mp (Nat.le_zero.mp hn))]
        rfl
      refine ⟨[(level, c)], ?_, ⟨List.nodup_singleton _, fun d => ?_⟩⟩
      · rw [nodeAt_eq toUInt64 hshape, hblank, List.map_nil, levels, levelsOf, List.map_singleton,
          nodeAt_eq toUInt64 hshape, hblank]
        rfl
      · simp only [List.map_singleton, List.mem_singleton, exists_eq_left]
        refine ⟨fun hd => hd ▸ ReflTransGen.refl, fun hd => ?_⟩
        rcases ReflTransGen.cases_head hd with heq | ⟨e, he, -⟩
        · exact heq.symm
        · have hmem := (hshape.mem_children c e).mpr he
          rw [hblank] at hmem
          exact absurd hmem List.not_mem_nil
  | succ n ih =>
      intro c hn level
      have hpar : ∀ d ∈ (t.node c).children, (t.node d).parent = some c := fun d hd =>
        (hshape.mem_children c d).mp hd
      have hbelow : ∀ d ∈ (t.node c).children, ∃ M, levels (level + 1) (nodeAt toUInt64 t d)
          = M.map (fun p => (p.1, nodeAt toUInt64 t p.2)) ∧ ListsBelow t [d] M := by
        intro d hd
        have hlt : c < d := hshape.parent_lt (hpar d hd)
        have hle : t.size - d ≤ t.size - (c + 1) := Nat.sub_le_sub_left hlt _
        exact ih d (by omega) (level + 1)
      obtain ⟨M, hM, hlists⟩ := levelsOf_nodeAt toUInt64 hshape _ (h.ids.children c) hpar hbelow
      have hmem : ∀ d, d ∈ M.map Prod.snd ↔ ∃ e, (t.node e).parent = some c ∧ t.Anc e d := by
        intro d
        rw [hlists.mem]
        simp only [hshape.mem_children]
      refine ⟨(level, c) :: M, ?_, ⟨?_, fun d => ?_⟩⟩
      · rw [nodeAt_eq toUInt64 hshape, levels, hM, List.map_cons, nodeAt_eq toUInt64 hshape]
      · rw [List.map_cons]
        refine List.nodup_cons.mpr ⟨fun hc => ?_, hlists.nodup⟩
        obtain ⟨e, he, hec⟩ := (hmem c).mp hc
        exact absurd (hshape.parent_lt he) (Nat.not_lt.mpr (hshape.anc_le hec))
      · rw [List.map_cons, List.mem_cons, hmem]
        simp only [List.mem_singleton, exists_eq_left]
        constructor
        · rintro (rfl | ⟨e, he, hed⟩)
          · exact ReflTransGen.refl
          · exact ReflTransGen.head he hed
        · intro hd
          rcases ReflTransGen.cases_head hd with heq | ⟨e, he, hed⟩
          · exact .inl heq.symm
          · exact .inr ⟨e, he, hed⟩

/-- The records of the whole tree below a node. -/
theorem emitted_nodeAt (h : Handed t) (hf : Fits t) {w : Window} {c : NodeRef} (hc : c < t.size)
    (hw : Covers w (nodeAt toUInt64 t c)) :
    (nodeAt toUInt64 t c).RegionTreeOk ∧ ∃ L : List NodeRef, L.Nodup ∧ (∀ d, d ∈ L ↔ t.Anc c d) ∧
      (emitted w (nodeAt toUInt64 t c)).map entryOf = L.map (traceEntry (told toUInt64 t)) := by
  have hshape := h.disc.shape
  obtain ⟨M, hM, hlists⟩ := levels_nodeAt toUInt64 h _ c (Nat.le_refl _) 0
  have hmem : ∀ d, d ∈ M.map Prod.snd ↔ t.Anc c d := by
    intro d
    rw [hlists.mem]
    simp only [List.mem_singleton, exists_eq_left]
  have hlt : ∀ d ∈ M.map Prod.snd, d < t.size := fun d hd =>
    hshape.anc_lt_size ((hmem d).mp hd) hc
  have hid : ∀ d, (nodeAt toUInt64 t d).id = UInt64.ofNat (t.node d).id := fun d =>
    congrArg NodeInfo.id (nodeAt_info toUInt64 hshape d)
  have hinfo : ∀ d, (nodeAt toUInt64 t d).info = nodeInfo toUInt64 t d :=
    nodeAt_info toUInt64 hshape
  -- a listed node is the value of a node of the heap
  have hnode : ∀ p ∈ levels 0 (nodeAt toUInt64 t c), ∃ d ∈ M.map Prod.snd,
      p.2 = nodeAt toUInt64 t d := by
    intro p hp
    rw [hM] at hp
    obtain ⟨q, hq, rfl⟩ := List.mem_map.mp hp
    exact ⟨q.2, List.mem_map_of_mem hq, rfl⟩
  refine ⟨⟨?_, ?_, ?_, ?_, ?_⟩, M.map Prod.snd, hlists.nodup, hmem, ?_⟩
  -- the ids are told apart, and none is the 0 that stands for no node
  · have hids : (levels 0 (nodeAt toUInt64 t c)).map (fun p => p.2.id)
        = (M.map Prod.snd).map fun d => UInt64.ofNat (t.node d).id := by
      rw [hM, List.map_map, List.map_map]
      exact List.map_congr_left fun p _ => hid p.2
    rw [hids]
    refine List.Nodup.map_on (fun d hd d' hd' heq => ?_) hlists.nodup
    have hnat := congrArg UInt64.toNat heq
    rw [toNat_ofNat (id_lt h hf (hlt d hd)), toNat_ofNat (id_lt h hf (hlt d' hd'))] at hnat
    exact h.ids.inj (hlt d hd) (hlt d' hd') hnat
  · intro p hp hzero
    obtain ⟨d, hd, heq⟩ := hnode p hp
    have hnat := congrArg UInt64.toNat hzero
    rw [heq, hid, toNat_ofNat (id_lt h hf (hlt d hd)), h.ids.id d (hlt d hd)] at hnat
    exact absurd hnat (Nat.succ_ne_zero d)
  -- a node with a recursion target is a sink, and the containers fit an `int`
  · intro p hp hrec
    obtain ⟨d, hd, heq⟩ := hnode p hp
    rw [heq, hinfo] at hrec ⊢
    cases htarget : (t.node d).recursion with
    | none => exact absurd (by unfold nodeInfo; rw [htarget]; rfl) hrec
    | some target => exact hshape.recursion_sink d target htarget
  · intro p hp
    obtain ⟨d, hd, heq⟩ := hnode p hp
    rw [heq, nodeAt_children toUInt64 hshape, List.length_map]
    exact (hf.2 d (hlt d hd)).children
  · intro p hp
    obtain ⟨d, hd, heq⟩ := hnode p hp
    rw [heq, hinfo]
    show ((t.node d).stats.map (statPage toUInt64)).length < 2 ^ 31
    rw [List.length_map]
    exact (hf.2 d (hlt d hd)).stats
  -- the window leaves nothing out
  · unfold emitted
    rw [List.filter_eq_self.mpr hw, hM, List.map_map, List.map_map, List.map_map]
    refine List.map_congr_left fun p hp => ?_
    exact entryOf_nodeAt toUInt64 h hf (hlt p.2 (List.mem_map_of_mem hp))

/-- **The file is read back** as the records of the tree it tells of. -/
theorem traceReader_profile (h : Handed t) (hf : Fits t) {w : Window} {main : NodeRef}
    (hmain : (t.node main).parent = some 0)
    (hone : (t.node t.region_tree_root).children[0]? = some main)
    (hw : Covers w (nodeAt toUInt64 t main)) :
    ∃ bytes L, writeProgramStats toUInt64 w t = some bytes ∧
      traceReader bytes = .ok (L.map (traceEntry (told toUInt64 t))) ∧
      Subtree (told toUInt64 t) main L := by
  obtain ⟨hok, L, hnd, hmem, hentries⟩ :=
    emitted_nodeAt toUInt64 h hf (h.disc.shape.lt_size hmain) hw
  refine ⟨writeRegionStats w 0 (nodeAt toUInt64 t main), L, ?_, ?_, hmain, hnd, hmem⟩
  · unfold writeProgramStats
    rw [hone]
    rfl
  · rw [← hentries]
    exact traceReader_file hok

end Records

/-! ## §5. What the planner makes of a run. -/

section Accepted

variable {toUInt64 : ℚ → UInt64} {t : RegionTree} {r : NodeRef} {L : List NodeRef}
variable {lines : List (List Char)} {sManager : SRegionManager}

/-- What an entry looks up is listed where the file lists what its node names. -/
theorem lists_entries :
    (∀ entry ∈ L.map (traceEntry (told toUInt64 t)),
        SRegionManager.Lists lines entry.sid entry.callsiteID) ↔
      ∀ c ∈ L, SRegionManager.Lists lines (t.node c).static_id (t.node c).callsite_id :=
  List.forall_mem_map

/-- The regions of a tree's records are accepted where their static regions are listed. -/
theorem new_isSome_told (h : Handed t) (hs : Subtree (told toUInt64 t) r L)
    (hfile : SRegionManager.new lines = some sManager) {fuel : ℕ}
    (hfuel : max (markFuel (told toUInt64 t) L) (t.size + 1) ≤ fuel) :
    (CRegionManager.new sManager fuel (L.map (traceEntry (told toUInt64 t)))).isSome ↔
      ∀ c ∈ L, SRegionManager.Lists lines (t.node c).static_id (t.node c).callsite_id := by
  obtain ⟨H, hH, -⟩ := readBinaryFile_spec hs (handed_told toUInt64 h) hfuel
  rw [CRegionManager.new_isSome_iff hfile, lists_entries, hH]
  simp

/-- The regions accepted are those of the tree, each with the static region of its id. -/
theorem linked_of_new (h : Handed t) (hs : Subtree (told toUInt64 t) r L)
    (hfile : SRegionManager.new lines = some sManager) {fuel : ℕ}
    (hfuel : max (markFuel (told toUInt64 t) L) (t.size + 1) ≤ fuel) {H : RegionMap}
    {statics : CRegionManager.Statics}
    (hnew : CRegionManager.new sManager fuel (L.map (traceEntry (told toUInt64 t)))
      = some (H, statics)) :
    Linked (told toUInt64 t) r L H ∧ ∀ c ∈ L, ∃ found,
      statics.get (t.node c).id = some found ∧ found.1.id.toNat = (t.node c).static_id := by
  have htold := handed_told toUInt64 h
  obtain ⟨hread, hstatics⟩ := CRegionManager.readBinaryFile_of_new hnew
  obtain ⟨H', hH', hl⟩ := readBinaryFile_spec hs htold hfuel
  obtain rfl := Option.some.inj (hread.symm.trans hH')
  refine ⟨hl, fun c hc => ?_⟩
  -- the lookups of all entries have succeeded, so there are fields to find
  have hmem : traceEntry (told toUInt64 t) c ∈ L.map (traceEntry (told toUInt64 t)) :=
    List.mem_map_of_mem hc
  have hfound : (sManager.staticOf (traceEntry (told toUInt64 t) c)).isSome := by
    refine (CRegionManager.foldlM_addStatic_isSome sManager KeyMap.empty).mp ?_ _ hmem
    rw [hstatics]
    rfl
  obtain ⟨found, hfound⟩ := Option.isSome_iff_exists.mp hfound
  have hget := CRegionManager.get_foldlM_addStatic (hs.uids_nodup htold) hstatics _ hmem
  exact ⟨found, hget.trans hfound, SRegionManager.staticOf_id hfile hfound⟩

end Accepted

/-- **What the planner accepts of a run.**  The file `writeProgramStats` writes for the
tree of a properly nested run with summarization, in a window that holds the tree, is
read without an error.  With enough fuel for the planner's loops its regions are accepted
exactly when the static region file lists the static id and the call site of each node
below the root's first child; they are then linked and weighted, one region for each of
these nodes, with its type, pages, parent, children and recursion target, and with the
static region of its id. -/
theorem profile_accepted (toUInt64 : ℚ → UInt64) (w : Window) {lines : List (List Char)}
    {sManager : SRegionManager} {calls : List TreeCall} {t : RegionTree} {main : NodeRef}
    (hok : RunOk treeStep TreeCall.Nested (initRegionTree true) calls)
    (hrun : run treeStep (initRegionTree true) calls = some t)
    (hone : (t.node t.region_tree_root).children[0]? = some main) (hf : Fits t)
    (hw : Covers w (nodeAt toUInt64 t main))
    (hfile : SRegionManager.new lines = some sManager) :
    ∃ bytes L, writeProgramStats toUInt64 w t = some bytes ∧
      traceReader bytes = .ok (L.map (traceEntry (told toUInt64 t))) ∧
      L.Nodup ∧ (∀ c, c ∈ L ↔ t.Anc main c) ∧
      ∃ enough, ∀ fuel ≥ enough,
        ((CRegionManager.new sManager fuel (L.map (traceEntry (told toUInt64 t)))).isSome ↔
          ∀ c ∈ L, SRegionManager.Lists lines (t.node c).static_id (t.node c).callsite_id) ∧
        ∀ H statics,
          CRegionManager.new sManager fuel (L.map (traceEntry (told toUInt64 t)))
            = some (H, statics) →
          Linked (told toUInt64 t) main L H ∧ ∀ c ∈ L, ∃ found,
            statics.get (t.node c).id = some found ∧
              found.1.id.toNat = (t.node c).static_id := by
  obtain ⟨t', ht', h⟩ := handed_of_run hok
  obtain rfl := Option.some.inj (hrun.symm.trans ht')
  have hmain : (t.node main).parent = some 0 := by
    have hmem := List.mem_of_getElem? hone
    rw [h.disc.shape.root] at hmem
    exact (h.disc.shape.mem_children 0 main).mp hmem
  obtain ⟨bytes, L, hbytes, hread, hs⟩ := traceReader_profile toUInt64 h hf hmain hone hw
  exact ⟨bytes, L, hbytes, hread, hs.nodup, hs.mem,
    max (markFuel (told toUInt64 t) L) (t.size + 1), fun fuel hfuel =>
      ⟨new_isSome_told h hs hfile hfuel, fun H statics => linked_of_new h hs hfile hfuel⟩⟩

/-- The conversion of a target that saturates. -/
def saturating (x : ℚ) : UInt64 := UInt64.ofNat (min x.floor.toNat (2 ^ 64 - 1))

/-- A line of the static region file, about an id of one digit. -/
def regionLine (digit : Char) (type : List Char) : List Char :=
  List.replicate 15 '0' ++ digit :: '\t' :: type ++
    ['\t', 'm', '.', 'c', '\t', 'f', '\t', '1', '\t', '2']

/-- The type of a function. -/
def funcText : List Char := ['f', 'u', 'n', 'c']
/-- The type of a loop. -/
def loopText : List Char := ['l', 'o', 'o', 'p']
/-- The type of a call site. -/
def callsiteText : List Char := ['c', 'a', 'l', 'l', 's', 'i', 't', 'e', 'I', 'd']

/-- `main` with a loop and a function that is called at two sites, one its own. -/
def calledTwice : List TreeCall :=
  [.openCtx 1 0 .regionFunc, .openCtx 2 0 .regionLoop, .closeCtx (instanceStats 30),
    .openCtx 3 8 .regionFunc, .openCtx 3 9 .regionFunc, .closeCtx (instanceStats 20),
    .closeCtx (instanceStats 50), .closeCtx (instanceStats 100)]

/-- The static regions of the example. -/
def calledTwiceLines : List (List Char) :=
  [regionLine '1' funcText, regionLine '2' loopText, regionLine '8' callsiteText,
    regionLine '3' funcText, regionLine '9' callsiteText]

/-- A function that is called twice. -/
theorem profile_accepted_calledTwice :
    ∃ t bytes sManager, run treeStep (initRegionTree true) calledTwice = some t ∧
      writeProgramStats saturating ⟨0, 32⟩ t = some bytes ∧
      SRegionManager.new calledTwiceLines = some sManager ∧
      ∃ entries H statics, traceReader bytes = .ok entries ∧
        ∃ fuel, CRegionManager.new sManager fuel entries = some (H, statics) := by
  have hfacts : (run treeStep (initRegionTree true) calledTwice).any (fun t =>
        (t.node t.region_tree_root).children[0]? = some 1 ∧ Fits t ∧
          Covers ⟨0, 32⟩ (nodeAt saturating t 1) ∧ ∀ c < t.size,
            SRegionManager.Lists calledTwiceLines (t.node c).static_id (t.node c).callsite_id)
      = true := by decide +kernel
  have hlines : (SRegionManager.new calledTwiceLines).isSome := by decide +kernel
  obtain ⟨t, ht, htree⟩ := (Option.any_eq_true _ _).mp hfacts
  obtain ⟨hone, hf, hw, hlists⟩ := of_decide_eq_true htree
  obtain ⟨sManager, hfile⟩ := Option.isSome_iff_exists.mp hlines
  have hok : RunOk treeStep TreeCall.Nested (initRegionTree true) calledTwice := by decide
  obtain ⟨bytes, L, hbytes, hread, -, hmem, enough, hall⟩ :=
    profile_accepted saturating ⟨0, 32⟩ hok ht hone hf hw hfile
  -- the nodes below `main` are nodes of the heap, all of them listed
  obtain ⟨t', ht', h⟩ := handed_of_run hok
  obtain rfl := Option.some.inj (ht.symm.trans ht')
  have hmain : 1 < t.size := by
    refine h.disc.shape.lt_size (p := 0) ?_
    have hchild := List.mem_of_getElem? hone
    rw [h.disc.shape.root] at hchild
    exact (h.disc.shape.mem_children 0 1).mp hchild
  obtain ⟨hiff, -⟩ := hall enough (Nat.le_refl _)
  have hsome := hiff.mpr fun c hc => hlists c (h.disc.shape.anc_lt_size ((hmem c).mp hc) hmain)
  obtain ⟨⟨H, statics⟩, hnew⟩ := Option.isSome_iff_exists.mp hsome
  exact ⟨t, bytes, sManager, ht, hbytes, hfile, _, H, statics, hread, enough, hnew⟩

/-- Levels 0 to 32. -/
def wideWindow : Config := { min_level := 0, max_level := 32 }

/-- `main` calls a function, which is left by the end of the program. -/
def callAndEnd : List RegionEvent :=
  [.call (.work 5), .call (.prepCall 7 2), .enterFunction 2 4 1, .call (.work 20), .cleanup]

/-- The static regions of the example. -/
def callAndEndLines : List (List Char) :=
  [regionLine '2' funcText, regionLine '7' callsiteText, regionLine '1' funcText]

end Kremlin.Planner
