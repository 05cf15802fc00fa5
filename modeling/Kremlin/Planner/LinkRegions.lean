/-
  Kremlin.Planner.LinkRegions — the planner links the records of a runtime tree.

  The records are those of the nodes at and below `r`, a child of the root.  A
  section variable block says what the runtime guarantees of the tree; each
  pass of `linkRegions` is one invariant over the map it fills:

    * `Marked` — types are as the runtime wrote them, except that a normal
      node may have become recursive;
    * `Built` — one region per record, a `CRegionR` wherever there is an init
      above;
    * `Linked` — parents, children and recursion targets as in the tree.
-/
import Kremlin.Planner.CRegionManager
import Kremlin.Runtime.RegionTreePages
import Mathlib.Algebra.Order.BigOperators.Group.List
import Mathlib.Algebra.Order.Group.Nat

namespace Kremlin.Planner

open Kremlin.Library Kremlin.Runtime Relation

/-! ## §1. The record of a node. -/

/-- The numbers of `enum ProfileNodeType`. -/
def nodeTypeCode : ProfileNodeType → ℕ
  | .normal => 0
  | .rInit => 1
  | .rSink => 2

/-- The page as the file holds it; the bounds are written in hundredths. -/
def pageStat (stat : ProfileNodeStats) : CRegionStat where
  nInstance := stat.num_instances
  work := stat.total_work
  tpWork := stat.total_par_per_work
  spWork := stat.self_par_per_work
  minSP := (stat.min_self_par * 100).floor.toNat
  maxSP := (stat.max_self_par * 100).floor.toNat
  totalIter := stat.num_dynamic_child_regions
  minIter := stat.min_dynamic_child_regions
  maxIter := stat.max_dynamic_child_regions

/-- The record of node `c` of a region tree. -/
def traceEntry (t : RegionTree) (c : NodeRef) : TraceEntry where
  uid := (t.node c).id
  sid := (t.node c).static_id
  callsiteID := (t.node c).callsite_id
  type := nodeTypeCode (t.node c).node_type
  recursionTarget := match (t.node c).recursion with
    | none => 0
    | some target => (t.node target).id
  cnt := (t.node c).num_instances
  pbit := (t.node c).is_doall ≠ 0
  childrenSet := (t.node c).children.reverse.map fun d => (t.node d).id
  statList := (t.node c).stats.map pageStat

/-- What the runtime guarantees of a tree it hands over. -/
structure Handed (t : RegionTree) : Prop where
  disc : t.Discipline
  pages : t.PagesOk
  ids : t.IdsOk

/-- `L` lists the nodes at and below `r`, a child of the root. -/
structure Subtree (t : RegionTree) (r : NodeRef) (L : List NodeRef) : Prop where
  top : (t.node r).parent = some 0
  nodup : L.Nodup
  mem : ∀ c, c ∈ L ↔ t.Anc r c

section Link

variable {t : RegionTree} {r : NodeRef} {L : List NodeRef}

/-- The uid under which a node goes. -/
abbrev uid (t : RegionTree) (c : NodeRef) : ℕ := (t.node c).id

namespace Subtree

/-- The nodes written are nodes of the tree. -/
theorem lt_size (hs : Subtree t r L) (h : Handed t) {c : NodeRef} (hc : c ∈ L) :
    c < t.size :=
  h.disc.shape.anc_lt_size ((hs.mem c).mp hc) (h.disc.shape.lt_size hs.top)

/-- The top node is not the root, -/
theorem top_ne (hs : Subtree t r L) (h : Handed t) : r ≠ 0 := by
  have := h.disc.shape.parent_lt hs.top
  exact Nat.pos_iff_ne_zero.mp this

/-- so none of them is. -/
theorem ne_root (hs : Subtree t r L) (h : Handed t) {c : NodeRef} (hc : c ∈ L) : c ≠ 0 := by
  rintro rfl
  exact hs.top_ne h (h.disc.shape.eq_root_of_anc ((hs.mem 0).mp hc))

/-- With a node its children are written, -/
theorem child_mem (hs : Subtree t r L) {p c : NodeRef} (hp : p ∈ L)
    (hc : (t.node c).parent = some p) : c ∈ L :=
  (hs.mem c).mpr (((hs.mem p).mp hp).tail hc)

/-- and everything below it. -/
theorem mem_of_anc (hs : Subtree t r L) {a c : NodeRef} (ha : a ∈ L) (hac : t.Anc a c) : c ∈ L :=
  (hs.mem c).mpr (((hs.mem a).mp ha).trans hac)

/-- A node above a node of the list is in the list, unless it is the root. -/
theorem anc_mem (hs : Subtree t r L) (h : Handed t) {a c : NodeRef} (hc : c ∈ L)
    (ha : t.Anc a c) (ha0 : a ≠ 0) : a ∈ L := by
  rw [hs.mem]
  rcases Forest.Anc.total (F := h.disc.shape.forest) ha ((hs.mem c).mp hc) with har | hra
  · rcases har.cases_parent (p := 0) hs.top with rfl | ha'
    · exact ReflTransGen.refl
    · exact absurd (h.disc.shape.eq_root_of_anc ha') ha0
  · exact hra

/-- The parent of a node of the list is in the list, unless the node is the top. -/
theorem parent_mem (hs : Subtree t r L) {p c : NodeRef} (hc : c ∈ L) (hne : c ≠ r)
    (hp : (t.node c).parent = some p) : p ∈ L := by
  rcases ReflTransGen.cases_tail ((hs.mem c).mp hc) with heq | ⟨q, hq, hqc⟩
  · exact absurd heq hne
  · obtain rfl := Option.some.inj (hqc.symm.trans hp)
    exact (hs.mem q).mpr hq

/-- Different nodes have different uids. -/
theorem uid_inj (hs : Subtree t r L) (h : Handed t) {c d : NodeRef} (hc : c ∈ L) (hd : d ∈ L)
    (heq : uid t c = uid t d) : c = d :=
  h.ids.inj (hs.lt_size h hc) (hs.lt_size h hd) heq

/-- So no uid is written twice. -/
theorem uids_nodup (hs : Subtree t r L) (h : Handed t) :
    ((L.map (traceEntry t)).map TraceEntry.uid).Nodup := by
  rw [List.map_map]
  exact List.Nodup.map_on (fun c hc d hd heq => hs.uid_inj h hc hd heq) hs.nodup

/-- The uids are those of the nodes. -/
theorem mem_uids {x : ℕ} :
    x ∈ (L.map (traceEntry t)).map TraceEntry.uid ↔ ∃ c ∈ L, uid t c = x := by
  rw [List.map_map, List.mem_map]
  rfl

/-- The target of a sink of the list is in the list. -/
theorem target_mem (hs : Subtree t r L) (h : Handed t) {s a : NodeRef} (hsL : s ∈ L)
    (ha : (t.node s).recursion = some a) :
    a ∈ L ∧ (t.node a).node_type = .rInit ∧ t.ProperAnc a s := by
  have hsink := h.disc.shape.recursion_sink s a ha
  obtain ⟨a', ha', hinit, -, hproper⟩ := (h.disc.shape.sink s hsink).target
  obtain rfl := Option.some.inj (ha.symm.trans ha')
  obtain ⟨p, hp, hap⟩ := hproper
  exact ⟨hs.anc_mem h hsL (hap.tail hp) (h.disc.target_ne_root hsink ha), hinit, p, hp, hap⟩

end Subtree

/-! ## §2. The maps filled from the records. -/

/-- `childrenMap`. -/
def childrenMapOf (t : RegionTree) (L : List NodeRef) : KeyMap ℕ (List ℕ) :=
  (L.map (traceEntry t)).foldl (fun map entry => map.put entry.uid entry.childrenSet) KeyMap.empty

/-- The children a record names. -/
theorem childrenMap_get (hs : Subtree t r L) (h : Handed t) {c : NodeRef} (hc : c ∈ L) :
    (childrenMapOf t L).get (uid t c) = some (traceEntry t c).childrenSet :=
  KeyMap.get_foldl_put TraceEntry.uid TraceEntry.childrenSet
    (x := traceEntry t c) (hs.uids_nodup h) (List.mem_map_of_mem hc)

/-- Nothing is known of other uids. -/
theorem childrenMap_get_none {x : ℕ} (hx : ¬ ∃ c ∈ L, uid t c = x) :
    (childrenMapOf t L).get x = none :=
  KeyMap.get_foldl_put_of_not_mem TraceEntry.uid TraceEntry.childrenSet
    fun hmem => hx (Subtree.mem_uids.mp hmem)

/-- The uids below one uid. -/
def below (t : RegionTree) (L : List NodeRef) (x : ℕ) : List ℕ :=
  ((childrenMapOf t L).get x).getD []

/-- What is below a uid are the children of its node. -/
theorem mem_below (hs : Subtree t r L) (h : Handed t) {x y : ℕ} :
    y ∈ below t L x ↔ ∃ c ∈ L, ∃ d, uid t c = x ∧ uid t d = y ∧ (t.node d).parent = some c := by
  unfold below
  by_cases hx : ∃ c ∈ L, uid t c = x
  · obtain ⟨c, hc, rfl⟩ := hx
    rw [childrenMap_get hs h hc, Option.getD_some]
    show y ∈ (t.node c).children.reverse.map _ ↔ _
    rw [List.mem_map]
    constructor
    · rintro ⟨d, hd, rfl⟩
      exact ⟨c, hc, d, rfl, rfl, (h.disc.shape.mem_children c d).mp (List.mem_reverse.mp hd)⟩
    · rintro ⟨c', hc', d, hcc, rfl, hd⟩
      obtain rfl := hs.uid_inj h hc' hc hcc
      exact ⟨d, List.mem_reverse.mpr ((h.disc.shape.mem_children _ d).mpr hd), rfl⟩
  · rw [childrenMap_get_none hx]
    constructor
    · intro hy
      exact absurd hy (by simp)
    · rintro ⟨c, hc, d, hcx, -, -⟩
      exact absurd ⟨c, hc, hcx⟩ hx

/-- Uids grow towards the leaves. -/
theorem below_rank (hs : Subtree t r L) (h : Handed t) :
    ∀ x y, y ∈ below t L x → t.size + 1 - y < t.size + 1 - x := by
  intro x y hy
  obtain ⟨c, hc, d, rfl, rfl, hd⟩ := (mem_below hs h).mp hy
  have hclt := hs.lt_size h hc
  have hdlt := h.disc.shape.lt_size hd
  have hcd := h.disc.shape.parent_lt hd
  rw [uid, uid, h.ids.id c hclt, h.ids.id d hdlt]
  exact Nat.sub_lt_sub_left (Nat.succ_lt_succ hclt) (Nat.succ_lt_succ hcd)

/-- What is below in the tree is below in the map. -/
theorem below_of_anc (hs : Subtree t r L) (h : Handed t) {a c : NodeRef} (ha : a ∈ L)
    (hac : t.Anc a c) : Below (below t L) (uid t a) (uid t c) := by
  induction hac with
  | refl => exact ReflTransGen.refl
  | tail had hdc ih =>
      exact ih.tail ((mem_below hs h).mpr ⟨_, hs.mem_of_anc ha had, _, rfl, rfl, hdc⟩)

/-! ## §3. Marking. -/

/-- The entries while descendants are being marked. -/
def Marked (t : RegionTree) (L : List NodeRef) (entries : KeyMap ℕ TraceEntry) : Prop :=
  ∀ c ∈ L, ∃ e, entries.get (uid t c) = some e ∧ e = { traceEntry t c with type := e.type } ∧
    (e.type = (traceEntry t c).type ∨ (traceEntry t c).type = 0 ∧ e.type = 3)

/-- The entry named `x` is recursive. -/
def Recursive (entries : KeyMap ℕ TraceEntry) (x : ℕ) : Prop :=
  ∃ e, entries.get x = some e ∧ e.type ≠ 0

/-- A visit marks a normal record as recursive and goes on to its children. -/
theorem markEntry_marks (hs : Subtree t r L) (h : Handed t) :
    Marks (markEntry (childrenMapOf t L)) (below t L) (Marked t L)
      (fun x => ∃ c ∈ L, uid t c = x) Recursive := by
  refine ⟨?_, ?_⟩
  · rintro entries x hm ⟨c, hc, rfl⟩
    obtain ⟨e, he, hsame, htype⟩ := hm c hc
    have huid : e.uid = uid t c := by rw [hsame]; rfl
    set e' : TraceEntry := if e.type = 0 then { e with type := 3 } else e with he'
    have huid' : e'.uid = uid t c := by
      rw [he', ← huid]
      split <;> rfl
    have hget := childrenMap_get hs h hc
    refine ⟨entries.put (uid t c) e', ?_, ?_, ?_, ?_⟩
    · unfold markEntry below
      simp only [he, Option.bind_eq_bind, Option.bind_some]
      rw [← he', huid', hget, Option.bind_some, Option.getD_some]
    · intro d hd
      -- the entry of `c` may become recursive, the others are as before
      by_cases hdc : uid t d = uid t c
      · obtain rfl := hs.uid_inj h hd hc hdc
        refine ⟨e', KeyMap.get_put_self, ?_, ?_⟩
        · rw [he']
          split
          · rw [hsame]
          · exact hsame
        · rw [he']
          rcases htype with ht | ⟨ht, ht'⟩
          · by_cases h0 : e.type = 0
            · rw [if_pos h0]
              exact Or.inr ⟨by rw [← ht, h0], rfl⟩
            · rw [if_neg h0]
              exact Or.inl ht
          · rw [if_neg (by rw [ht']; decide)]
            exact Or.inr ⟨ht, ht'⟩
      · obtain ⟨f, hf⟩ := hm d hd
        exact ⟨f, by rw [KeyMap.get_put_ne hdc]; exact hf.1, hf.2⟩
    · refine ⟨e', KeyMap.get_put_self, ?_⟩
      rw [he']
      by_cases h0 : e.type = 0
      · rw [if_pos h0]
        exact Nat.succ_ne_zero 2
      · rw [if_neg h0]
        exact h0
    · rintro y ⟨f, hf, hne⟩
      by_cases hy : y = uid t c
      · subst hy
        obtain rfl := Option.some.inj (he.symm.trans hf)
        refine ⟨e', KeyMap.get_put_self, ?_⟩
        rw [he', if_neg hne]
        exact hne
      · exact ⟨f, by rw [KeyMap.get_put_ne hy]; exact hf, hne⟩
  · rintro x y ⟨c, hc, rfl⟩ hy
    obtain ⟨c', hc', d, -, rfl, hd⟩ := (mem_below hs h).mp hy
    exact ⟨d, hs.child_mem hc' hd, rfl⟩

/-- The visits it takes to mark below every node of the list. -/
def markFuel (t : RegionTree) (L : List NodeRef) : ℕ :=
  (L.map fun c => visitCost (below t L) (t.size + 1 - uid t c) (uid t c)).sum

/-- The fuel is enough for each walk. -/
theorem le_markFuel {c : NodeRef} (hc : c ∈ L) :
    visitCost (below t L) (t.size + 1 - uid t c) (uid t c) ≤ markFuel t L :=
  List.single_le_sum (fun _ _ => Nat.zero_le _) _ (List.mem_map_of_mem hc)

/-- Marking below one entry. -/
theorem markBelow_spec (hs : Subtree t r L) (h : Handed t) {fuel : ℕ}
    (hfuel : markFuel t L ≤ fuel) {entries : KeyMap ℕ TraceEntry} (hm : Marked t L entries)
    {c : NodeRef} (hc : c ∈ L) :
    ∃ entries', markBelow fuel (childrenMapOf t L) entries (uid t c) = some entries' ∧
      Marked t L entries' ∧
      ((t.node c).node_type = .rInit → ∀ d, t.Anc c d → Recursive entries' (uid t d)) ∧
      ∀ y, Recursive entries y → Recursive entries' y := by
  obtain ⟨e, he, hsame, htype⟩ := hm c hc
  unfold markBelow
  simp only [he, Option.bind_eq_bind, Option.bind_some]
  by_cases h1 : e.type = 1
  · rw [if_pos h1]
    obtain ⟨s', h', hm', hmono, hall⟩ := traverse_complete (markEntry_marks hs h)
      (below_rank hs h) fuel [uid t c] hm
      (by
        intro x hx
        exact ⟨c, hc, (List.mem_singleton.mp hx).symm⟩)
      (by
        rw [List.map_singleton, List.sum_singleton]
        exact Nat.le_trans (le_markFuel hc) hfuel)
    refine ⟨s', h', hm', fun _ d hd => ?_, hmono⟩
    exact hall (uid t c) List.mem_cons_self (uid t d) (below_of_anc hs h hc hd)
  · -- only inits are walked from
    rw [if_neg h1]
    refine ⟨entries, rfl, hm, fun hinit => ?_, fun _ h => h⟩
    have hcode : (traceEntry t c).type = 1 := by
      show nodeTypeCode (t.node c).node_type = 1
      rw [hinit]
      rfl
    rcases htype with ht | ⟨ht, -⟩
    · exact absurd (ht.trans hcode) h1
    · rw [hcode] at ht
      cases ht

/-- **After the marking loop, every entry below an init is recursive.** -/
theorem markAll_spec (hs : Subtree t r L) (h : Handed t) {fuel : ℕ}
    (hfuel : markFuel t L ≤ fuel) :
    ∃ entries, ((L.map (traceEntry t)).map TraceEntry.uid).foldlM
        (markBelow fuel (childrenMapOf t L))
        ((L.map (traceEntry t)).foldl (fun map entry => map.put entry.uid entry) KeyMap.empty)
          = some entries ∧
      Marked t L entries ∧ ∀ c ∈ L, ¬ t.NoInit c → Recursive entries (uid t c) := by
  have hstart : Marked t L
      ((L.map (traceEntry t)).foldl (fun map entry => map.put entry.uid entry) KeyMap.empty) := by
    intro c hc
    refine ⟨traceEntry t c, ?_, rfl, Or.inl rfl⟩
    exact KeyMap.get_foldl_put TraceEntry.uid id (x := traceEntry t c)
      (hs.uids_nodup h) (List.mem_map_of_mem hc)
  obtain ⟨entries, hrun, hm, hall, -⟩ := foldlM_marks
    (f := markBelow fuel (childrenMapOf t L)) (Marked t L)
    (fun entries x => ∀ c ∈ L, uid t c = x → (t.node c).node_type = .rInit →
      ∀ d, t.Anc c d → Recursive entries (uid t d))
    ((L.map (traceEntry t)).map TraceEntry.uid)
    (by
      intro entries x hx hm
      obtain ⟨c, hc, rfl⟩ := Subtree.mem_uids.mp hx
      obtain ⟨entries', h', hm', hinit, hmono⟩ := markBelow_spec hs h hfuel hm hc
      refine ⟨entries', h', hm', ?_, ?_⟩
      · intro d hd hdc
        obtain rfl := hs.uid_inj h hd hc hdc
        exact hinit
      · intro y hy d hd hdy hi e he
        exact hmono _ (hy d hd hdy hi e he))
    hstart
  refine ⟨entries, hrun, hm, ?_⟩
  intro c hc hno
  unfold RegionTree.NoInit at hno
  push Not at hno
  -- the init above the node is written, too, as the root is none
  obtain ⟨a, ha, hinit⟩ := hno
  have ha0 : a ≠ 0 := by
    rintro rfl
    exact h.disc.plain.root_normal hinit
  have haL := hs.anc_mem h hc ha ha0
  exact hall (uid t a) (Subtree.mem_uids.mpr ⟨a, haL, rfl⟩) a haL rfl hinit c ha

/-! ## §4. Building the regions. -/

/-- A page without its weight, which the records do not hold. -/
def unweighted (stat : CRegionStat) : CRegionStat := { stat with rWeight := .fin 0 }

/-- A region of the planner as the region of node `c`. -/
structure RegionOk (t : RegionTree) (L : List NodeRef) (c : NodeRef) (region : CRegion) : Prop where
  init : region.type = .recInit ↔ (t.node c).node_type = .rInit
  sink : region.type = .recSink ↔ (t.node c).node_type = .rSink
  isR : ¬ t.NoInit c → region.isR = true
  records : region.stats.map unweighted = (t.node c).stats.map pageStat
  parent : ∀ x, region.parent = some x → ∃ p ∈ L, (t.node c).parent = some p ∧ x = uid t p
  target : ∀ x, region.recursionTarget = some x →
    ∃ a, (t.node c).recursion = some a ∧ x = uid t a

/-- The region has the pages of the node. -/
theorem RegionOk.stats {c : NodeRef} {region : CRegion} (hok : RegionOk t L c region) :
    region.stats.length = t.pages c := by
  have := congrArg List.length hok.records
  rwa [List.length_map, List.length_map] at this

/-- What a page of the region holds. -/
theorem RegionOk.getStat {c : NodeRef} {region : CRegion} (hok : RegionOk t L c region)
    {depth : ℕ} {page : ProfileNodeStats} (hpage : (t.node c).stats[depth]? = some page) :
    ∃ stat, region.getStat depth = some stat ∧ unweighted stat = pageStat page := by
  have hrecord := congrArg (fun records => records[depth]?) hok.records
  simp only [List.getElem?_map, hpage, Option.map_some] at hrecord
  exact Option.map_eq_some_iff.mp hrecord

/-- One region per node, while they are being linked. -/
structure Built (t : RegionTree) (L : List NodeRef) (regionMap : RegionMap) : Prop where
  total : regionMap.Total
  nodup : regionMap.keys.Nodup
  keys : ∀ x, x ∈ regionMap.keys ↔ ∃ c ∈ L, uid t c = x
  node : ∀ c ∈ L, ∃ region, regionMap.get (uid t c) = some region ∧ RegionOk t L c region

/-- A region may be put in place of another for the same node. -/
theorem Built.put (hs : Subtree t r L) (h : Handed t) {regionMap : RegionMap}
    (hb : Built t L regionMap) {c : NodeRef} (hc : c ∈ L) {region : CRegion}
    (hr : RegionOk t L c region) : Built t L (regionMap.put (uid t c) region) := by
  refine ⟨hb.total.put _ _, KeyMap.nodup_put hb.nodup, fun x => ?_, fun d hd => ?_⟩
  · rw [KeyMap.keys_put_of_mem ((hb.keys _).mpr ⟨c, hc, rfl⟩)]
    exact hb.keys x
  · by_cases hdc : uid t d = uid t c
    · obtain rfl := hs.uid_inj h hd hc hdc
      exact ⟨region, KeyMap.get_put_self, hr⟩
    · obtain ⟨R, hR, hok⟩ := hb.node d hd
      exact ⟨R, by rw [KeyMap.get_put_ne hdc]; exact hR, hok⟩

/-- A node with no init above has a single page. -/
theorem pages_of_noInit (hs : Subtree t r L) (h : Handed t) {c : NodeRef} (hc : c ∈ L)
    (hno : t.NoInit c) : t.pages c = 1 :=
  Nat.le_antisymm (h.pages.single c (hs.ne_root h hc) hno)
    (h.pages.visited c (hs.lt_size h hc) (hs.ne_root h hc))

/-- `CRegion.create` succeeds on every marked entry. -/
theorem create_spec (hs : Subtree t r L) (h : Handed t) {c : NodeRef} (hc : c ∈ L)
    {e : TraceEntry} (hsame : e = { traceEntry t c with type := e.type })
    (htype : e.type = (traceEntry t c).type ∨ (traceEntry t c).type = 0 ∧ e.type = 3)
    (hrec : ¬ t.NoInit c → e.type ≠ 0) :
    ∃ region, CRegion.create e = some region ∧ RegionOk t L c region ∧ region.children = [] := by
  have hrecords : e.statList.map unweighted = (t.node c).stats.map pageStat := by
    rw [hsame]
    exact List.map_map ..
  have hlen : e.statList.length = t.pages c := by
    rw [hsame]
    exact List.length_map ..
  have hcode : (traceEntry t c).type = nodeTypeCode (t.node c).node_type := rfl
  -- a region built with `isR` unless the entry is of type 0
  have key : ∀ type, CRegion.typeOf e.type = some type →
      (type = .recInit ↔ (t.node c).node_type = .rInit) →
      (type = .recSink ↔ (t.node c).node_type = .rSink) →
      ∃ region, CRegion.create e = some region ∧ RegionOk t L c region ∧
        region.children = [] := by
    intro type hof hinit hsink
    unfold CRegion.create
    simp only [hof, Option.bind_eq_bind, Option.bind_some]
    by_cases h0 : e.type > 0
    · rw [if_pos h0]
      exact ⟨_, rfl, ⟨hinit, hsink, fun _ => rfl, hrecords, fun x hx => (by cases hx),
        fun x hx => (by cases hx)⟩, rfl⟩
    · rw [if_neg h0]
      have hno : t.NoInit c := by
        by_contra hno
        exact hrec hno (Nat.eq_zero_of_not_pos h0)
      rw [if_pos (by rw [hlen, pages_of_noInit hs h hc hno])]
      exact ⟨_, rfl, ⟨hinit, hsink, fun hn => absurd hno hn, hrecords, fun x hx => (by cases hx),
        fun x hx => (by cases hx)⟩, rfl⟩
  cases hn : (t.node c).node_type with
  | normal =>
      rw [hn] at hcode key
      rcases htype with ht | ⟨-, ht⟩
      · exact key .normal (by rw [ht, hcode]; rfl) (by simp) (by simp)
      · exact key .recNorm (by rw [ht]; rfl) (by simp) (by simp)
  | rInit =>
      rw [hn] at hcode key
      rcases htype with ht | ⟨ht, -⟩
      · exact key .recInit (by rw [ht, hcode]; rfl) (by simp) (by simp)
      · rw [hcode] at ht
        cases ht
  | rSink =>
      rw [hn] at hcode key
      rcases htype with ht | ⟨ht, -⟩
      · exact key .recSink (by rw [ht, hcode]; rfl) (by simp) (by simp)
      · rw [hcode] at ht
        cases ht

/-- The children a region has so far. -/
def childrenOf (regionMap : RegionMap) (x : ℕ) : Option (List ℕ) :=
  (regionMap.get x).map CRegion.children

/-- The recursion targets collected so far. -/
def Targets (t : RegionTree) (L : List NodeRef) (recursionTarget : KeyMap ℕ ℕ) : Prop :=
  ∀ x ∈ recursionTarget.keys, ∃ s ∈ L, ∃ a, uid t s = x ∧ (t.node s).recursion = some a ∧
    recursionTarget.get x = some (uid t a)

/-- **Every entry gets its region, and every sink its target.** -/
theorem addRegions_spec (hs : Subtree t r L) (h : Handed t) {entries : KeyMap ℕ TraceEntry}
    (hm : Marked t L entries) (hrec : ∀ c ∈ L, ¬ t.NoInit c → Recursive entries (uid t c)) :
    ∃ maps, ((L.map (traceEntry t)).map TraceEntry.uid).foldlM (addRegion entries)
        (KeyMap.empty, KeyMap.empty) = some maps ∧
      Built t L maps.1 ∧ (∀ c ∈ L, childrenOf maps.1 (uid t c) = some []) ∧
      Targets t L maps.2 ∧ ∀ s ∈ L, ∀ a, (t.node s).recursion = some a → uid t s ∈ maps.2.keys := by
  obtain ⟨maps, hrun, ⟨⟨htotal, hnodup, hnode⟩, htarget⟩, hall, -⟩ := foldlM_marks (f := addRegion entries)
    (fun maps => (maps.1.Total ∧ maps.1.keys.Nodup ∧ ∀ x ∈ maps.1.keys, ∃ c ∈ L, uid t c = x ∧
        ∃ region, maps.1.get x = some region ∧ RegionOk t L c region ∧ region.children = []) ∧
      Targets t L maps.2)
    (fun maps x => x ∈ maps.1.keys ∧
      ∀ s ∈ L, uid t s = x → ∀ a, (t.node s).recursion = some a → x ∈ maps.2.keys)
    ((L.map (traceEntry t)).map TraceEntry.uid) (s := (KeyMap.empty, KeyMap.empty))
    (by
      rintro ⟨regionMap, recursionTarget⟩ x hx ⟨⟨htotal, hnodup, hnode⟩, htarget⟩
      obtain ⟨c, hc, rfl⟩ := Subtree.mem_uids.mp hx
      obtain ⟨e, he, hsame, htype⟩ := hm c hc
      obtain ⟨region, hcreate, hregion⟩ := create_spec hs h hc hsame htype (fun hno => by
        obtain ⟨e', he', hne⟩ := hrec c hc hno
        obtain rfl := Option.some.inj (he.symm.trans he')
        exact hne)
      -- a target of 0 stands for none; uids start at 1
      have htgt : e.recursionTarget = match (t.node c).recursion with
          | none => 0
          | some target => (t.node target).id := by
        rw [hsame]
        rfl
      refine ⟨_, by simp only [addRegion, he, hcreate, Option.bind_eq_bind, Option.bind_some]; rfl,
        ⟨⟨htotal.put _ _, KeyMap.nodup_put hnodup, ?_⟩, ?_⟩, ⟨?_, ?_⟩, ?_⟩
      · intro y hy
        by_cases hyc : y = uid t c
        · subst hyc
          exact ⟨c, hc, rfl, region, KeyMap.get_put_self, hregion⟩
        · obtain ⟨d, hd, hdy, R, hR, hok⟩ := hnode y ((KeyMap.mem_keys_put.mp hy).resolve_left hyc)
          exact ⟨d, hd, hdy, R, by rw [KeyMap.get_put_ne hyc]; exact hR, hok⟩
      · cases ha : (t.node c).recursion with
        | none =>
            rw [ha] at htgt
            simp only [htgt, gt_iff_lt, Nat.lt_irrefl, if_false]
            exact htarget
        | some a =>
            rw [ha] at htgt
            have haL := (hs.target_mem h hc ha).1
            have hpos : e.recursionTarget > 0 := by
              rw [htgt]
              show 0 < (t.node a).id
              rw [h.ids.id a (hs.lt_size h haL)]
              exact Nat.succ_pos _
            simp only [if_pos hpos]
            intro y hy
            by_cases hyc : y = uid t c
            · subst hyc
              exact ⟨c, hc, a, rfl, ha, by rw [KeyMap.get_put_self, htgt]⟩
            · obtain ⟨s, hsL, b, hsy, hb, hget⟩ :=
                htarget y ((KeyMap.mem_keys_put.mp hy).resolve_left hyc)
              exact ⟨s, hsL, b, hsy, hb, by rw [KeyMap.get_put_ne hyc]; exact hget⟩
      · exact KeyMap.mem_keys_put.mpr (Or.inl rfl)
      · intro s hsL hsc a ha
        obtain rfl := hs.uid_inj h hsL hc hsc
        rw [ha] at htgt
        have haL := (hs.target_mem h hc ha).1
        have hpos : e.recursionTarget > 0 := by
          rw [htgt]
          show 0 < (t.node a).id
          rw [h.ids.id a (hs.lt_size h haL)]
          exact Nat.succ_pos _
        simp only [if_pos hpos]
        exact KeyMap.mem_keys_put.mpr (Or.inl rfl)
      · rintro y ⟨hy, hty⟩
        refine ⟨KeyMap.mem_keys_put.mpr (Or.inr hy), fun s hsL hsy a ha => ?_⟩
        have := hty s hsL hsy a ha
        show y ∈ (if e.recursionTarget > 0 then _ else _ : KeyMap ℕ ℕ).keys
        split
        · exact KeyMap.mem_keys_put.mpr (Or.inr this)
        · exact this)
    ⟨⟨KeyMap.total_empty, List.nodup_nil, fun x hx => absurd hx List.not_mem_nil⟩,
      fun x hx => absurd hx List.not_mem_nil⟩
  have hregion : ∀ c ∈ L, ∃ R, maps.1.get (uid t c) = some R ∧ RegionOk t L c R ∧
      R.children = [] := by
    intro c hc
    obtain ⟨d, hd, hdc, R, hR, hok⟩ :=
      hnode _ (hall _ (Subtree.mem_uids.mpr ⟨c, hc, rfl⟩)).1
    obtain rfl := hs.uid_inj h hd hc hdc
    exact ⟨R, hR, hok⟩
  refine ⟨maps, hrun, ⟨htotal, hnodup, fun x => ⟨fun hx => ?_, ?_⟩, fun c hc => ?_⟩,
    fun c hc => ?_, htarget, ?_⟩
  · obtain ⟨c, hc, hcx, -⟩ := hnode x hx
    exact ⟨c, hc, hcx⟩
  · rintro ⟨c, hc, rfl⟩
    exact (hall _ (Subtree.mem_uids.mpr ⟨c, hc, rfl⟩)).1
  · obtain ⟨R, hR, hok, -⟩ := hregion c hc
    exact ⟨R, hR, hok⟩
  · obtain ⟨R, hR, -, hchildren⟩ := hregion c hc
    unfold childrenOf
    rw [hR, Option.map_some, hchildren]
  · intro s hsL a ha
    exact (hall _ (Subtree.mem_uids.mpr ⟨s, hsL, rfl⟩)).2 s hsL rfl a ha

/-! ## §5. Linking them. -/

/-- The region of `c` knows its parent. -/
def HasParent (t : RegionTree) (regionMap : RegionMap) (c : NodeRef) : Prop :=
  ∃ region p, regionMap.get (uid t c) = some region ∧ (t.node c).parent = some p ∧
    region.parent = some (uid t p)

/-- The region of the sink `s` knows its target. -/
def HasTarget (t : RegionTree) (regionMap : RegionMap) (s : NodeRef) : Prop :=
  ∃ region a, regionMap.get (uid t s) = some region ∧ (t.node s).recursion = some a ∧
    region.recursionTarget = some (uid t a)

/-- Putting a region that knows what the old one knew. -/
theorem HasParent.put (hs : Subtree t r L) (h : Handed t) {regionMap : RegionMap} {c d : NodeRef}
    (hc : c ∈ L) (hd : d ∈ L) (hp : HasParent t regionMap d) {old new : CRegion}
    (hold : regionMap.get (uid t c) = some old)
    (hkeep : ∀ x, old.parent = some x → new.parent = some x) :
    HasParent t (regionMap.put (uid t c) new) d := by
  obtain ⟨R, p, hR, hpar, hRp⟩ := hp
  by_cases hdc : uid t d = uid t c
  · obtain rfl := hs.uid_inj h hd hc hdc
    obtain rfl := Option.some.inj (hold.symm.trans hR)
    exact ⟨new, p, KeyMap.get_put_self, hpar, hkeep _ hRp⟩
  · exact ⟨R, p, by rw [KeyMap.get_put_ne hdc]; exact hR, hpar, hRp⟩

/-- A link to a target stays. -/
theorem HasTarget.put (hs : Subtree t r L) (h : Handed t) {regionMap : RegionMap} {c d : NodeRef}
    (hc : c ∈ L) (hd : d ∈ L) (hp : HasTarget t regionMap d) {old new : CRegion}
    (hold : regionMap.get (uid t c) = some old)
    (hkeep : ∀ x, old.recursionTarget = some x → new.recursionTarget = some x) :
    HasTarget t (regionMap.put (uid t c) new) d := by
  obtain ⟨R, a, hR, hrec, hRa⟩ := hp
  by_cases hdc : uid t d = uid t c
  · obtain rfl := hs.uid_inj h hd hc hdc
    obtain rfl := Option.some.inj (hold.symm.trans hR)
    exact ⟨new, a, KeyMap.get_put_self, hrec, hkeep _ hRa⟩
  · exact ⟨R, a, by rw [KeyMap.get_put_ne hdc]; exact hR, hrec, hRa⟩

/-- `setParent` on a child and its parent. -/
theorem setParent_spec (hs : Subtree t r L) (h : Handed t) {regionMap : RegionMap}
    (hb : Built t L regionMap) {p c : NodeRef} (hp : p ∈ L) (hpar : (t.node c).parent = some p) :
    ∃ regionMap', setParent (uid t p) regionMap (uid t c) = some regionMap' ∧
      Built t L regionMap' ∧ HasParent t regionMap' c ∧
      (∀ d ∈ L, HasParent t regionMap d → HasParent t regionMap' d) ∧
      ∀ x, childrenOf regionMap' x = if x = uid t p then
        (childrenOf regionMap x).map (· ++ [uid t c]) else childrenOf regionMap x := by
  have hc := hs.child_mem hp hpar
  obtain ⟨R, hR, hok⟩ := hb.node c hc
  have hok' : RegionOk t L c { R with parent := some (uid t p) } :=
    ⟨hok.init, hok.sink, hok.isR, hok.records,
      fun x hx => ⟨p, hp, hpar, (Option.some.inj hx).symm⟩, hok.target⟩
  have hb' := hb.put hs h hc hok'
  obtain ⟨P, hP, hPok⟩ := hb'.node p hp
  have hPok' : RegionOk t L p { P with children := P.children ++ [uid t c] } :=
    ⟨hPok.init, hPok.sink, hPok.isR, hPok.records, hPok.parent, hPok.target⟩
  have hmono : ∀ d ∈ L, HasParent t regionMap d →
      HasParent t (regionMap.put (uid t c) { R with parent := some (uid t p) }) d := by
    refine fun d hd hpd => hpd.put hs h hc hd hR fun x hx => ?_
    obtain ⟨q, -, hq, rfl⟩ := hok.parent x hx
    obtain rfl := Option.some.inj (hpar.symm.trans hq)
    rfl
  have hself : HasParent t (regionMap.put (uid t c) { R with parent := some (uid t p) }) c :=
    ⟨_, p, KeyMap.get_put_self, hpar, rfl⟩
  -- setting a parent leaves the lists of children alone
  have hmid : ∀ x, childrenOf (regionMap.put (uid t c) { R with parent := some (uid t p) }) x
      = childrenOf regionMap x := by
    intro x
    unfold childrenOf
    by_cases hx : x = uid t c
    · rw [hx, KeyMap.get_put_self, hR]
      rfl
    · rw [KeyMap.get_put_ne hx]
  refine ⟨_, by
    simp only [setParent, hR, hP, Option.bind_eq_bind, Option.bind_some],
    hb'.put hs h hp hPok', ?_, fun d hd hpd => ?_, fun x => ?_⟩
  · exact hself.put hs h hp hc hP fun x hx => hx
  · exact (hmono d hd hpd).put hs h hp hd hP fun x hx => hx
  · rw [← hmid]
    unfold childrenOf
    by_cases hx : x = uid t p
    · rw [if_pos hx, hx, KeyMap.get_put_self, hP]
      rfl
    · rw [if_neg hx, KeyMap.get_put_ne hx]

/-- The children of one entry learn their parent, and it learns them. -/
theorem linkChildren_spec (hs : Subtree t r L) (h : Handed t) {H : RegionMap}
    (hb : Built t L H) {p : NodeRef} (hp : p ∈ L) :
    ∃ H', linkChildren (childrenMapOf t L) H (uid t p) = some H' ∧ Built t L H' ∧
      (∀ d ∈ L, HasParent t H d → HasParent t H' d) ∧
      (∀ c, (t.node c).parent = some p → HasParent t H' c) ∧
      ∀ x, childrenOf H' x = if x = uid t p then
        (childrenOf H x).map (· ++ (traceEntry t p).childrenSet) else childrenOf H x := by
  obtain ⟨P, hP, -⟩ := hb.node p hp
  -- one child after the other; the list of children grows in the order of the record
  have hget := childrenMap_get hs h hp
  obtain ⟨H', hrun, hb', hkeep, hall, hchildren⟩ := foldlM_done (f := setParent (uid t p))
    (fun past H' => Built t L H' ∧ (∀ d ∈ L, HasParent t H d → HasParent t H' d) ∧
      (∀ c, uid t c ∈ past → (t.node c).parent = some p → HasParent t H' c) ∧
      ∀ x, childrenOf H' x = if x = uid t p then
        (childrenOf H x).map (· ++ past) else childrenOf H x)
    ((traceEntry t p).childrenSet) (s := H)
    (by
      rintro past y rest H' heq ⟨hH', hkeep, hall, hchildren⟩
      have hy : y ∈ (traceEntry t p).childrenSet := by
        rw [heq]
        simp
      obtain ⟨c, hc, rfl⟩ := List.mem_map.mp hy
      have hpar := (h.disc.shape.mem_children p c).mp (List.mem_reverse.mp hc)
      obtain ⟨H'', h'', hb'', hself, hmono, hadd⟩ := setParent_spec hs h hH' hp hpar
      refine ⟨H'', h'', hb'', fun d hd hd' => hmono d hd (hkeep d hd hd'), ?_, fun x => ?_⟩
      · intro d hmem hdp
        rcases List.mem_append.mp hmem with hmem | hmem
        · exact hmono d (hs.child_mem hp hdp) (hall d hmem hdp)
        · obtain rfl := hs.uid_inj h (hs.child_mem hp hdp) (hs.child_mem hp hpar)
            (List.mem_singleton.mp hmem)
          exact hself
      · rw [hadd, hchildren]
        split
        · rw [Option.map_map]
          congr 1
          funext xs
          exact (List.append_assoc ..)
        · rfl)
    ⟨hb, fun _ _ hd => hd, fun _ hmem => absurd hmem List.not_mem_nil, fun x => by simp⟩
  refine ⟨H', ?_, hb', hkeep, fun c hc => hall c ?_ hc, hchildren⟩
  · simp only [linkChildren, hP, hget, Option.bind_eq_bind, Option.bind_some]
    exact hrun
  · exact List.mem_map_of_mem (List.mem_reverse.mpr ((h.disc.shape.mem_children _ c).mpr hc))

/-- **Every node but the top learns its parent, and every node its children.** -/
theorem linkAllChildren_spec (hs : Subtree t r L) (h : Handed t) {regionMap : RegionMap}
    (hb : Built t L regionMap) (hnone : ∀ c ∈ L, childrenOf regionMap (uid t c) = some []) :
    ∃ regionMap', regionMap.keys.foldlM (linkChildren (childrenMapOf t L)) regionMap
        = some regionMap' ∧
      Built t L regionMap' ∧ (∀ c ∈ L, c ≠ r → HasParent t regionMap' c) ∧
      ∀ c ∈ L, childrenOf regionMap' (uid t c) = some (traceEntry t c).childrenSet := by
  obtain ⟨H, hrun, hb', hall, hchildren⟩ := foldlM_done
    (f := linkChildren (childrenMapOf t L))
    (fun past H => Built t L H ∧
      (∀ p ∈ L, uid t p ∈ past → ∀ c, (t.node c).parent = some p → HasParent t H c) ∧
      ∀ p ∈ L, childrenOf H (uid t p)
        = some (if uid t p ∈ past then (traceEntry t p).childrenSet else []))
    (regionMap.keys)
    (by
      rintro past x rest H heq ⟨hH, hall, hchildren⟩
      obtain ⟨p, hp, rfl⟩ := (hb.keys x).mp (by rw [heq]; simp)
      obtain ⟨H', h', hb', hkeep, hnew, hadd⟩ := linkChildren_spec hs h hH hp
      -- no key comes twice, so the list was empty
      have hfresh : uid t p ∉ past := by
        have hnodup := hb.nodup
        rw [heq] at hnodup
        exact fun hmem => (List.nodup_append.mp hnodup).2.2 _ hmem _ List.mem_cons_self rfl
      refine ⟨H', h', hb', ?_, ?_⟩
      · intro q hq hmem c hc
        rcases List.mem_append.mp hmem with hmem | hmem
        · exact hkeep c (hs.child_mem hq hc) (hall q hq hmem c hc)
        · obtain rfl := hs.uid_inj h hq hp (List.mem_singleton.mp hmem)
          exact hnew c hc
      · intro q hq
        rw [hadd, hchildren q hq]
        by_cases hqp : uid t q = uid t p
        · obtain rfl := hs.uid_inj h hq hp hqp
          simp [hfresh]
        · simp [hqp])
    ⟨hb, fun _ _ hmem => absurd hmem List.not_mem_nil, by simpa using hnone⟩
  refine ⟨H, hrun, hb', fun c hc hne => ?_, fun c hc => ?_⟩
  · obtain ⟨p, hp⟩ := h.disc.shape.has_parent c (hs.lt_size h hc) (hs.ne_root h hc)
    have hpL := hs.parent_mem hc hne hp
    exact hall p hpL ((hb.keys _).mpr ⟨p, hpL, rfl⟩) c hp
  · rw [hchildren c hc, if_pos ((hb.keys _).mpr ⟨c, hc, rfl⟩)]

/-- An init above makes a node recursive. -/
theorem not_noInit_of_target (hs : Subtree t r L) (h : Handed t) {s a : NodeRef} (hsL : s ∈ L)
    (ha : (t.node s).recursion = some a) {y : NodeRef} (hay : t.Anc a y) : ¬ t.NoInit y :=
  fun hno => hno a hay (hs.target_mem h hsL ha).2.1

/-- The regions as the weights find them. -/
structure Linked (t : RegionTree) (r : NodeRef) (L : List NodeRef) (regionMap : RegionMap) :
    Prop where
  built : Built t L regionMap
  parent : ∀ c ∈ L, c ≠ r → HasParent t regionMap c
  children : ∀ c ∈ L, childrenOf regionMap (uid t c) = some (traceEntry t c).childrenSet
  target : ∀ s ∈ L, ∀ a, (t.node s).recursion = some a → HasTarget t regionMap s

/-- **`linkRegions` succeeds on the records of a runtime tree.** -/
theorem linkRegions_spec (hs : Subtree t r L) (h : Handed t) {fuel : ℕ}
    (hfuel : markFuel t L ≤ fuel) :
    ∃ regionMap, linkRegions fuel (L.map (traceEntry t)) = some regionMap ∧
      Linked t r L regionMap := by
  obtain ⟨entries, hmark, hm, hrec⟩ := markAll_spec hs h hfuel
  obtain ⟨⟨H₁, T⟩, hadd, hb₁, hnone, hT, hTall⟩ := addRegions_spec hs h hm hrec
  obtain ⟨H₂, hlink, hb₂, hp₂, hc₂⟩ := linkAllChildren_spec hs h hb₁ hnone
  obtain ⟨H₃, htgt, ⟨hb₃, hp₃, hc₃⟩, hall, -⟩ := foldlM_marks (f := linkTarget T)
    (fun H => Built t L H ∧ (∀ c ∈ L, c ≠ r → HasParent t H c) ∧
      ∀ x, childrenOf H x = childrenOf H₂ x)
    (fun H x => ∀ s ∈ L, uid t s = x → HasTarget t H s)
    (T.keys)
    (by
      rintro H x hx ⟨hb, hp, hsame⟩
      obtain ⟨s, hsL, a, rfl, ha, hget⟩ := hT x hx
      have hget : T.get (uid t s) = some (uid t a) := hget
      obtain ⟨haL, hinit, hproper⟩ := hs.target_mem h hsL ha
      obtain ⟨R, hR, hok⟩ := hb.node s hsL
      obtain ⟨A, hA, hAok⟩ := hb.node a haL
      -- a recursive sink lies below its init, so its record was marked
      have hisR : R.isR = true := by
        obtain ⟨p, hp, hap⟩ := hproper
        exact hok.isR (not_noInit_of_target hs h hsL ha (hap.tail hp))
      have hasR : R.asR = some R := by
        unfold CRegion.asR
        rw [if_pos hisR]
      have hAinit : A.type = .recInit := hAok.init.mpr hinit
      have hok' : RegionOk t L s { R with recursionTarget := some (uid t a) } :=
        ⟨hok.init, hok.sink, hok.isR, hok.records, hok.parent,
          fun x hx => ⟨a, ha, (Option.some.inj hx).symm⟩⟩
      refine ⟨H.put (uid t s) { R with recursionTarget := some (uid t a) }, ?_,
        ⟨hb.put hs h hsL hok', ?_, ?_⟩, ?_, ?_⟩
      · simp only [linkTarget, hR, hasR, hget, hA, hAinit, if_true, Option.bind_eq_bind,
          Option.bind_some]
      · exact fun c hc hne => (hp c hc hne).put hs h hsL hc hR fun x hx => hx
      · intro x
        rw [← hsame]
        unfold childrenOf
        by_cases hx : x = uid t s
        · rw [hx, KeyMap.get_put_self, hR]
          rfl
        · rw [KeyMap.get_put_ne hx]
      · intro s' hs' hss
        obtain rfl := hs.uid_inj h hs' hsL hss
        exact ⟨_, a, KeyMap.get_put_self, ha, rfl⟩
      · intro y hy s' hs' hsy
        refine (hy s' hs' hsy).put hs h hsL hs' hR fun x hx => ?_
        obtain ⟨b, hb, rfl⟩ := hok.target x hx
        obtain rfl := Option.some.inj (ha.symm.trans hb)
        rfl)
    ⟨hb₂, hp₂, fun _ => rfl⟩
  refine ⟨H₃, ?_, hb₃, hp₃, fun c hc => (hc₃ _).trans (hc₂ c hc), ?_⟩
  · have hchildren : (L.map (traceEntry t)).foldl
        (fun map entry => map.put entry.uid entry.childrenSet) KeyMap.empty
          = childrenMapOf t L := rfl
    simp only [linkRegions, Option.bind_eq_bind, hchildren, hmark, hadd, hlink,
      Option.bind_some]
    exact htgt
  · intro s hsL a ha
    exact hall (uid t s) (hTall s hsL a ha) s hsL rfl

end Link

end Kremlin.Planner
