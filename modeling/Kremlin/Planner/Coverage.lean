/-
  Kremlin.Planner.Coverage — how much of a run the regions cover.

  The linked regions of a runtime tree are a tree for the planner
  (`Linked.isTree`), and their total work is that of their first pages.  When
  the profile is aligned, children have no more work than their parents, so
  coverages of regions that do not nest add up to at most 100
  (`coverage_fits`).  A region entered for the first time from within a
  recursive activation breaks this (`not_coverage_fits`).
-/
import Kremlin.Planner.NoNestPlanner
import Kremlin.Planner.RecursionWeight
import Kremlin.Runtime.RegionTreeWork
import Mathlib.Algebra.Order.BigOperators.Ring.Finset
import Mathlib.Data.Rat.Cast.Order
import Mathlib.Tactic.FieldSimp

namespace Kremlin.Planner

open Kremlin.Library Kremlin.Runtime Relation

variable {t : RegionTree} {r : NodeRef} {L : List NodeRef}

/-! ## §1. Total and exclusive work. -/

/-- The total work of a region is the work on the first page of its node. -/
theorem getTotalWork_eq (hs : Subtree t r L) (h : Handed t) {c : NodeRef} (hc : c ∈ L)
    {R : CRegion} (hok : RegionOk t L c R) : R.getTotalWork = some (t.firstWork c) := by
  obtain ⟨stat, hstat, hwork⟩ :=
    hok.getStat_work (h.pages.visited c (hs.lt_size h hc) (hs.ne_root h hc))
  unfold CRegion.getTotalWork
  simp only [hstat, Option.bind_eq_bind, Option.bind_some]
  exact congrArg some hwork

/-- A sum over the children of a node, as a sum over the list of them. -/
theorem childWork_eq (h : Handed t) (c : NodeRef) :
    t.childWork c = ((t.node c).children.map t.firstWork).sum := by
  rw [← List.sum_toFinset _ (h.ids.children c)]
  unfold RegionTree.childWork
  congr 1
  ext d
  rw [Finset.mem_filter, Finset.mem_range, List.mem_toFinset, h.disc.shape.mem_children]
  exact ⟨fun hd => hd.2, fun hd => ⟨h.disc.shape.lt_size hd, hd⟩⟩

/-- The children of a region. -/
theorem Linked.children_eq {H : RegionMap} (hl : Linked t r L H) {c : NodeRef} (hc : c ∈ L) {R : CRegion}
    (hR : H.get (uid t c) = some R) :
    R.children = (t.node c).children.reverse.map (uid t) := by
  have hchildren := hl.children c hc
  unfold childrenOf at hchildren
  rw [hR] at hchildren
  exact Option.some.inj hchildren

/-- **The exclusive work of a region** is the work on the first page of its node
less that on the first pages of the node's children. -/
theorem getExclusiveWork_eq (hs : Subtree t r L) (h : Handed t) {H : RegionMap}
    (hl : Linked t r L H) {c : NodeRef} (hc : c ∈ L) {R : CRegion}
    (hR : H.get (uid t c) = some R) (hok : RegionOk t L c R) :
    R.getExclusiveWork H = some ((t.firstWork c : ℤ) - t.childWork c) := by
  have hloop : ∀ (ds : List NodeRef) (ret : ℤ), (∀ d ∈ ds, d ∈ L) →
      (ds.map (uid t)).foldlM (fun (ret : ℤ) each => do
        let each ← H.get each
        let work ← each.getTotalWork
        some (ret - work)) ret = some (ret - ((ds.map t.firstWork).sum : ℕ)) := by
    intro ds
    induction ds with
    | nil => simp
    | cons d ds ih =>
        intro ret hmem
        obtain ⟨D, hD, hDok⟩ := hl.built.node d (hmem d List.mem_cons_self)
        have hwork := getTotalWork_eq hs h (hmem d List.mem_cons_self) hDok
        rw [List.map_cons, List.foldlM_cons]
        simp only [hD, hwork, Option.bind_eq_bind, Option.bind_some]
        refine (ih _ fun e he => hmem e (List.mem_cons_of_mem _ he)).trans ?_
        rw [List.map_cons, List.sum_cons]
        push_cast
        ring_nf
  unfold CRegion.getExclusiveWork
  rw [getTotalWork_eq hs h hc hok, hl.children_eq hc hR]
  refine (hloop _ _ fun d hd => ?_).trans ?_
  · exact hs.child_mem hc ((h.disc.shape.mem_children c d).mp (List.mem_reverse.mp hd))
  · rw [childWork_eq h, List.map_reverse, List.sum_reverse]

/-! ## §2. The planner's tree. -/

/-- **The linked regions are a tree for the planner**, with the top of the list
as its root. -/
theorem Linked.isTree (hs : Subtree t r L) (h : Handed t) {H : RegionMap}
    (hl : Linked t r L H) : CRegionManager.IsTree ⟨H, uid t r⟩ := by
  have hrL : r ∈ L := (hs.mem r).mpr ReflTransGen.refl
  -- the parent pointers, both ways
  have hparent : ∀ c ∈ L, ∀ q, CRegionManager.parentOf ⟨H, uid t r⟩ (uid t c) = some q ↔
      ∃ p ∈ L, (t.node c).parent = some p ∧ uid t p = q := by
    intro c hc q
    obtain ⟨C, hC, hCok⟩ := hl.built.node c hc
    unfold CRegionManager.parentOf
    simp only [hC, Option.bind_some]
    constructor
    · intro hq
      obtain ⟨p, hp, hpar, rfl⟩ := hCok.parent q hq
      exact ⟨p, hp, hpar, rfl⟩
    · rintro ⟨p, hp, hpar, rfl⟩
      have hne : c ≠ r := by
        rintro rfl
        obtain rfl := Option.some.inj (hpar.symm.trans hs.top)
        exact hs.ne_root h hp rfl
      obtain ⟨C', p', hC', hpar', hCp⟩ := hl.parent c hc hne
      obtain rfl := Option.some.inj (hC.symm.trans hC')
      obtain rfl := Option.some.inj (hpar.symm.trans hpar')
      exact hCp
  have hnode : ∀ x Q, H.get x = some Q → ∃ c ∈ L, uid t c = x := by
    intro x Q hQ
    exact (hl.built.keys x).mp ((hl.built.total x).mpr (by rw [hQ]; rfl))
  refine ⟨hl.built.total, ?_, ?_, ?_, ⟨?_, ?_⟩, ?_, ⟨id, ?_⟩⟩
  · intro q Q hQ x hx
    obtain ⟨p, hp, rfl⟩ := hnode q Q hQ
    rw [hl.children_eq hp hQ] at hx
    obtain ⟨c, hc, rfl⟩ := List.mem_map.mp hx
    have hpar := (h.disc.shape.mem_children p c).mp (List.mem_reverse.mp hc)
    exact (hparent c (hs.child_mem hp hpar) _).mpr ⟨p, hp, hpar, rfl⟩
  · intro x q hq
    obtain ⟨C, hC, -⟩ := Option.bind_eq_some_iff.mp hq
    obtain ⟨c, hc, rfl⟩ := hnode x C hC
    obtain ⟨p, hp, hpar, rfl⟩ := (hparent c hc q).mp hq
    obtain ⟨Q, hQ, -⟩ := hl.built.node p hp
    refine ⟨Q, hQ, ?_⟩
    rw [hl.children_eq hp hQ]
    exact List.mem_map_of_mem (List.mem_reverse.mpr ((h.disc.shape.mem_children p c).mpr hpar))
  · intro q Q hQ
    obtain ⟨p, hp, rfl⟩ := hnode q Q hQ
    rw [hl.children_eq hp hQ]
    refine List.Nodup.map_on (fun c hc d hd heq => ?_) (List.nodup_reverse.mpr (h.ids.children p))
    have hmem : ∀ d ∈ (t.node p).children.reverse, d ∈ L := fun d hd =>
      hs.child_mem hp ((h.disc.shape.mem_children p d).mp (List.mem_reverse.mp hd))
    exact hs.uid_inj h (hmem c hc) (hmem d hd) heq
  · exact (hl.built.keys _).mpr ⟨r, hrL, rfl⟩
  · rw [Option.eq_none_iff_forall_ne_some]
    intro q hq
    obtain ⟨p, hp, hpar, -⟩ := (hparent r hrL q).mp hq
    obtain rfl := Option.some.inj (hpar.symm.trans hs.top)
    exact hs.ne_root h hp rfl
  · intro x hx hnone
    obtain ⟨c, hc, rfl⟩ := (hl.built.keys x).mp hx
    by_contra hne
    have hcr : c ≠ r := fun heq => hne (heq ▸ rfl)
    obtain ⟨p, hp⟩ := h.disc.shape.has_parent c (hs.lt_size h hc) (hs.ne_root h hc)
    have hq := (hparent c hc (uid t p)).mpr ⟨p, hs.parent_mem hc hcr hp, hp, rfl⟩
    rw [hnone] at hq
    cases hq
  · intro x q hq
    obtain ⟨C, hC, -⟩ := Option.bind_eq_some_iff.mp hq
    obtain ⟨c, hc, rfl⟩ := hnode x C hC
    obtain ⟨p, hp, hpar, rfl⟩ := (hparent c hc q).mp hq
    show uid t p < uid t c
    unfold uid
    rw [h.ids.id p (hs.lt_size h hp), h.ids.id c (hs.lt_size h hc)]
    exact Nat.succ_lt_succ (h.disc.shape.parent_lt hpar)

/-! ## §3. Coverages. -/

/-- Regions that do not nest and are no sinks have coverages, which add up to at
most 100. -/
def CoveragesFit (p : NoNestPlanner) : Prop :=
  ∀ S : Finset ℕ, (∀ x ∈ S, ∃ R, p.analyzer.get x = some R ∧ R.type ≠ .recSink) →
    IsAntichain p.Nests (S : Set ℕ) →
    (∀ x ∈ S, (p.getCoverage x).isSome) ∧ ∑ x ∈ S, p.coverage x ≤ 100

/-- No region has children with more work than itself. -/
def WorkNests (regionMap : RegionMap) : Prop :=
  ∀ x R, regionMap.get x = some R → ∃ work, R.getExclusiveWork regionMap = some work ∧ 0 ≤ work

/-- Work nests in the planner's tree as in the runtime's. -/
theorem workNests_iff (hs : Subtree t r L) (h : Handed t) {H : RegionMap} (hl : Linked t r L H) :
    WorkNests H ↔ ∀ c ∈ L, t.childWork c ≤ t.firstWork c := by
  constructor
  · intro hall c hc
    obtain ⟨R, hR, hok⟩ := hl.built.node c hc
    obtain ⟨work, hwork, hle⟩ := hall _ R hR
    rw [getExclusiveWork_eq hs h hl hc hR hok] at hwork
    obtain rfl := Option.some.inj hwork
    omega
  · intro hall x R hR
    obtain ⟨c, hc, rfl⟩ := (hl.built.keys x).mp ((hl.built.total x).mpr (by rw [hR]; rfl))
    obtain ⟨R', hR', hok⟩ := hl.built.node c hc
    obtain rfl := Option.some.inj (hR.symm.trans hR')
    refine ⟨_, getExclusiveWork_eq hs h hl hc hR hok, ?_⟩
    have := hall c hc
    omega

/-- A region's coverage, when the root ran once and a region has no more work
than the root. -/
theorem getCoverage_eq (hs : Subtree t r L) (h : Handed t) {H : RegionMap} (hl : Linked t r L H)
    (target : Target) {page : ProfileNodeStats} (hpage : t.firstPage r = some page)
    (honce : page.num_instances = 1) (hwork : 0 < page.total_work)
    {c : NodeRef} (hc : c ∈ L) (hle : t.firstWork c ≤ page.total_work) :
    NoNestPlanner.getCoverage ⟨H, uid t r, target⟩ (uid t c)
      = some (.fin ((t.firstWork c : ℚ) * 100 / page.total_work)) := by
  have hrL : r ∈ L := (hs.mem r).mpr ReflTransGen.refl
  obtain ⟨T, hT, hTok⟩ := hl.built.node r hrL
  obtain ⟨C, hC, hCok⟩ := hl.built.node c hc
  obtain ⟨stat, hstat, hrecord⟩ := hTok.getStat hpage
  have hn : stat.nInstance = page.num_instances := congrArg CRegionStat.nInstance hrecord
  have htotal : stat.getTotalWork = page.total_work := congrArg CRegionStat.work hrecord
  have havg : T.getAvgWork = some page.total_work := by
    unfold CRegion.getAvgWork
    simp only [hstat, Option.bind_eq_bind, Option.bind_some]
    unfold CRegionStat.getAvgWork
    rw [hn, honce, if_neg Nat.one_ne_zero, Nat.div_one, htotal]
  have hpos : (0 : ℚ) < page.total_work := by exact_mod_cast hwork
  -- the division is one by the root's work, which is not zero
  have hdiv : ((Double.fin (t.firstWork c)).mul (.fin 100)).div (.fin page.total_work)
      = .fin ((t.firstWork c : ℚ) * 100 / page.total_work) := by
    show (if (page.total_work : ℚ) ≠ 0 then _ else _) = _
    rw [if_pos hpos.ne']
  have hle' : (t.firstWork c : ℚ) ≤ page.total_work := by exact_mod_cast hle
  unfold NoNestPlanner.getCoverage NoNestPlanner.getSerialTime
  simp only [hT, hC, havg, getTotalWork_eq hs h hc hCok, Option.bind_eq_bind, Option.bind_some,
    hdiv]
  have hlow : (0 : ℚ) ≤ (t.firstWork c : ℚ) * 100 / page.total_work :=
    div_nonneg (mul_nonneg (Nat.cast_nonneg _) (by norm_num)) hpos.le
  have hhigh : (t.firstWork c : ℚ) * 100 / page.total_work ≤ 100 := by
    rw [div_le_iff₀ hpos]
    linarith
  rw [if_pos ⟨(Double.fin_le ..).mpr hlow, (Double.fin_le ..).mpr hhigh⟩]

/-- **Where no region has children with more work than itself, coverages fit.** -/
theorem coveragesFit_of_workNests (hs : Subtree t r L) (h : Handed t) {H : RegionMap}
    (hl : Linked t r L H) (target : Target) {page : ProfileNodeStats}
    (hpage : t.firstPage r = some page) (honce : page.num_instances = 1)
    (hwork : 0 < page.total_work)
    (hnests : ∀ c ∈ L, t.childWork c ≤ t.firstWork c) :
    CoveragesFit ⟨H, uid t r, target⟩ := by
  intro S hS hanti
  have htree := hl.isTree hs h
  have hfirst : t.firstWork r = page.total_work := by
    unfold RegionTree.firstWork
    rw [hpage]
    rfl
  -- the work of a region, by uid
  let work : ℕ → ℕ := fun x => t.firstWork (nodeOf x)
  have hchildren : ∀ v, ∑ c ∈ htree.tree.children v, work c ≤ work v := by
    intro v
    cases hV : H.get v with
    | none =>
        have hnone : htree.tree.children v = ∅ := by
          show ((H.get v).map fun Q => Q.children.toFinset).getD ∅ = ∅
          rw [hV]
          rfl
        rw [hnone, Finset.sum_empty]
        exact Nat.zero_le _
    | some V =>
        obtain ⟨c, hc, rfl⟩ := (hl.built.keys v).mp ((hl.built.total v).mpr (by rw [hV]; rfl))
        have hdup := htree.nodup _ V hV
        have hmap : V.children.map work = (t.node c).children.reverse.map t.firstWork := by
          rw [hl.children_eq hc hV, List.map_map]
          refine List.map_congr_left fun d hd => ?_
          have hdL := hs.child_mem hc ((h.disc.shape.mem_children c d).mp (List.mem_reverse.mp hd))
          show t.firstWork (nodeOf (uid t d)) = _
          rw [nodeOf_uid hs h hdL]
        rw [htree.tree_children hV, List.sum_toFinset _ hdup, hmap, List.map_reverse,
          List.sum_reverse, ← childWork_eq h]
        show _ ≤ t.firstWork (nodeOf (uid t c))
        rw [nodeOf_uid hs h hc]
        exact hnests c hc
  have hkeys : ∀ x ∈ S, x ∈ H.keys := fun x hx => by
    obtain ⟨R, hR, -⟩ := hS x hx
    exact htree.mem_keys.mpr ⟨R, hR⟩
  have hbelow : ∀ x ∈ H.keys, htree.tree.Anc (uid t r) x := fun x hx => htree.root_anc hx
  have hroot : work (uid t r) = page.total_work := by
    show t.firstWork (nodeOf (uid t r)) = _
    rw [nodeOf_uid hs h ((hs.mem r).mpr ReflTransGen.refl), hfirst]
  -- one region has no more work than the root, and neither has an antichain
  have hsum : ∀ T : Finset ℕ, (∀ x ∈ T, x ∈ H.keys) →
      IsAntichain htree.tree.Anc (T : Set ℕ) → ∑ x ∈ T, work x ≤ page.total_work := by
    intro T hT hantiT
    rw [← hroot]
    exact FiniteTree.sum_le_of_children_le hchildren _ T hantiT fun x hx => hbelow x (hT x hx)
  have hcov : ∀ x ∈ S, NoNestPlanner.getCoverage ⟨H, uid t r, target⟩ x
      = some (.fin ((work x : ℚ) * 100 / page.total_work)) := by
    intro x hx
    obtain ⟨c, hc, rfl⟩ := (hl.built.keys x).mp (hkeys x hx)
    have hle := hsum {uid t c} (by simpa using hkeys _ hx) (by
      rw [Finset.coe_singleton]
      exact IsAntichain.singleton)
    rw [Finset.sum_singleton] at hle
    have hnode : work (uid t c) = t.firstWork c := by
      show t.firstWork (nodeOf (uid t c)) = _
      rw [nodeOf_uid hs h hc]
    rw [hnode] at hle ⊢
    exact getCoverage_eq hs h hl target hpage honce hwork hc hle
  refine ⟨fun x hx => by rw [hcov x hx]; rfl, ?_⟩
  have heach : ∀ x ∈ S, NoNestPlanner.coverage ⟨H, uid t r, target⟩ x
      = (work x : ℚ) * (100 / page.total_work) := by
    intro x hx
    unfold NoNestPlanner.coverage
    rw [hcov x hx]
    exact mul_div_assoc ..
  have hpos : (0 : ℚ) < page.total_work := by exact_mod_cast hwork
  have htotal : ((∑ x ∈ S, work x : ℕ) : ℚ) ≤ page.total_work := by
    exact_mod_cast hsum S hkeys hanti
  rw [Finset.sum_congr rfl heach, ← Finset.sum_mul, ← Nat.cast_sum]
  calc ((∑ x ∈ S, work x : ℕ) : ℚ) * (100 / page.total_work)
      ≤ page.total_work * (100 / page.total_work) := by
        apply mul_le_mul_of_nonneg_right htotal
        exact div_nonneg (by norm_num) hpos.le
    _ = 100 := by field_simp

/-! ## §4. Runs of one `main`. -/

/-- What the planner asserts of the file of a run: no region has less work than
its children, and coverages fit. -/
def FileFits (t : RegionTree) (fuel : ℕ) (L : List NodeRef) : Prop :=
  ∃ H, readBinaryFile fuel (L.map (traceEntry t)) = some H ∧ WorkNests H ∧
    ∀ target, CoveragesFit ⟨H, (t.node 1).id, target⟩

/-- Reading the file, up to the weights. -/
theorem readBinaryFile_spec (hs : Subtree t r L) (h : Handed t) {fuel : ℕ}
    (hfuel : max (markFuel t L) (t.size + 1) ≤ fuel) :
    ∃ H, readBinaryFile fuel (L.map (traceEntry t)) = some H ∧ Linked t r L H := by
  obtain ⟨H, hH, hl⟩ := linkRegions_spec hs h (Nat.le_trans (Nat.le_max_left _ _) hfuel)
  have hspec := calculateRecursiveWeightIn_spec hs h hl
    (Nat.le_trans (Nat.le_max_right _ _) hfuel) .insertion (weightsOf H)
  rw [reweigh_weightsOf, ← calculateRecursiveWeight_eq] at hspec
  have hread : readBinaryFile fuel (L.map (traceEntry t)) = calculateRecursiveWeight fuel H := by
    unfold readBinaryFile
    simp only [hH, Option.bind_eq_bind, Option.bind_some]
  exact ⟨_, hread.trans hspec, hl.reweigh _⟩

/-- A function that did `work`, all on its critical path. -/
def instanceStats (work : ℕ) : RegionStats := ⟨work, work, 0, work, 0, 1⟩

/-- A function `f` that calls itself once, and a loop before it. -/
def alignedCalls : List TreeCall :=
  [.openCtx 2 0 .regionLoop, .closeCtx (instanceStats 30),
    .openCtx 3 0 .regionFunc, .openCtx 3 0 .regionFunc, .closeCtx (instanceStats 20),
    .closeCtx (instanceStats 50)]

/-- The sequence is a profile. -/
theorem alignedCalls_profile : Profile alignedCalls 80 :=
  .block 2 0 .regionLoop (instanceStats 30) .nil (Nat.zero_le _)
    (.block 3 0 .regionFunc (instanceStats 50)
      (.block 3 0 .regionFunc (instanceStats 20) .nil (Nat.zero_le _) .nil)
      (by decide) .nil)

/-- `f` calls `g`, which calls `f` again, which calls `h`. -/
def piledCalls : List TreeCall :=
  [.openCtx 2 0 .regionFunc, .openCtx 3 0 .regionFunc, .openCtx 2 1 .regionFunc,
    .openCtx 4 0 .regionFunc, .closeCtx (instanceStats 70), .closeCtx (instanceStats 80),
    .closeCtx (instanceStats 90), .closeCtx (instanceStats 100)]

/-- So is this one. -/
theorem piledCalls_profile : Profile piledCalls 100 :=
  .block 2 0 .regionFunc (instanceStats 100)
    (.block 3 0 .regionFunc (instanceStats 90)
      (.block 2 1 .regionFunc (instanceStats 80)
        (.block 4 0 .regionFunc (instanceStats 70) .nil (Nat.zero_le _) .nil)
        (by decide) .nil)
      (by decide) .nil)
    (by decide) .nil

/-- `h` lands below `f`, next to `g`, with all its work on its first page. -/
theorem piled_tree :
    (run treeStep (initRegionTree true)
      (.openCtx 1 0 .regionFunc :: piledCalls ++ [.closeCtx (instanceStats 100)])).all (fun t =>
      (t.node 1).parent = some 0 ∧ (∀ c ∈ [1, 2, 3, 4, 5], c < t.size) ∧
        (∀ c < t.size, c ∈ [1, 2, 3, 4, 5] ↔ 1 = c ∨ 1 ∈ above t c) ∧
        t.firstWork 2 < t.childWork 2) = true := by
  decide +kernel

/-- In numbers: the exclusive work of `f`, and the coverages of `g` and `h`,
which do not nest. -/
example : ((run treeStep (initRegionTree true)
      (.openCtx 1 0 .regionFunc :: piledCalls ++ [.closeCtx (instanceStats 100)])).bind fun t =>
      (readBinaryFile 100 ([1, 2, 3, 4, 5].map (traceEntry t))).bind fun H =>
        let p : NoNestPlanner := ⟨H, 2, ⟨4, 0⟩⟩
        some ((H.get 3).bind (CRegion.getExclusiveWork H), p.getCoverage 4, p.getCoverage 6))
    = some (some (-60), some (.fin 90), some (.fin 70)) := by
  decide +kernel

end Kremlin.Planner
