/-
  Kremlin.Planner.GreedyPlanner — the best region first.

  `GreedyPlanner.java`.  The regions are sorted by their points and taken one
  after the other; a region that is taken retires what is above it and what is
  below it.  What is taken is an antichain, and every region that is left out is
  above or below one with as many points (`greedy_plan_maximal`).

  The order in which the hash set of regions is iterated is an argument
  (`order`).  `none` is an exception: an absent value that is used, or an
  exception of a getter.  A `double` is an exact one.
-/
import Kremlin.Library.GreedySelection
import Kremlin.Library.Run
import Kremlin.Planner.NoNestPlanner
import Kremlin.Planner.RegionForest
import Kremlin.Library.TreeLoads

namespace Kremlin.Planner

open Kremlin.Library Relation

/-! ## §1. The planner. -/

/-- The constructor takes `maxCore` and `overhead` from the target. -/
structure GreedyPlanner where
  analyzer : CRegionManager
  target : Target
  pointMap : KeyMap ℕ Double

namespace GreedyPlanner

section Points

variable (analyzer : CRegionManager) (target : Target)

/-- The getters both planners have. -/
def timing : NoNestPlanner := ⟨analyzer.regionMap, analyzer.root, target⟩

/-- The serial time is that of the other analyses. -/
def getSerialTime (region : ℕ) : Option Double := (timing analyzer target).getSerialTime region

/-- So is the parallel time. -/
def getParallelTime (region : ℕ) : Option Double := (timing analyzer target).getParallelTime region

/-- A region's share of the run, less what is left of it in parallel. -/
def getPoint (current : ℕ) : Option Double := do
  let parallelTime ← getParallelTime analyzer target current
  let serialTime ← getSerialTime analyzer target current
  let speedup := if serialTime.lt parallelTime then .fin 1 else serialTime.div parallelTime
  let region ← analyzer.regionMap.get current
  let rootTime ← getSerialTime analyzer target analyzer.root
  let coverage := ((serialTime.mul (.fin region.numInstance)).div rootTime).mul (.fin 100)
  some (coverage.sub (coverage.div speedup))

/-- The constructor, with `initPointMap`. -/
def new : Option GreedyPlanner := do
  let pointMap ← analyzer.regionMap.keys.foldlM (fun (pointMap : KeyMap ℕ Double) each => do
    let point ← getPoint analyzer target each
    some (pointMap.put each point)) KeyMap.empty
  some ⟨analyzer, target, pointMap⟩

end Points

/-- `Sorter.compare`, on the points of the two regions. -/
def compare (point0 point1 : Double) : ℤ :=
  let diff := point0.sub point1
  if diff = .fin 0 then 0 else if (Double.fin 0).lt diff then -1 else 1

/-- The points of a region of the list; all of them have some. -/
def pointOf (p : GreedyPlanner) (region : ℕ) : Double := (p.pointMap.get region).getD .nan

/-- `getSortedCRegionList`, by a stable sort. -/
def getSortedCRegionList (p : GreedyPlanner) (order : List ℕ) : List ℕ :=
  order.mergeSort fun r0 r1 => compare (p.pointOf r0) (p.pointOf r1) ≤ 0

/-- The loop of `getExcludeSet` over the descendants. -/
def addDescendant (regionMap : RegionMap) (ret : Finset ℕ) (current : ℕ) :
    Option (Finset ℕ × List ℕ) := do
  let region ← regionMap.get current
  some (insert current ret, region.children)

/-- What is above the region and what is below it. -/
def getExcludeSet (p : GreedyPlanner) (fuel : ℕ) (region : ℕ) : Option (Finset ℕ) := do
  let region ← p.analyzer.regionMap.get region
  let ancestors ← walkUp p.analyzer.regionMap none fuel region.parent
  traverse (addDescendant p.analyzer.regionMap) fuel region.children ancestors.toFinset

/-- What the loop of `plan` keeps. -/
structure Selection where
  ret : List CRegionRecord := []
  total : Double := .fin 0
  retired : Finset ℕ

/-- The body of the loop of `plan`. -/
def selectRegion (p : GreedyPlanner) (fuel : ℕ) (s : Selection) (region : ℕ) :
    Option Selection := do
  if region ∈ s.retired then some s
  else do
    let point ← p.pointMap.get region
    let excludeSet ← p.getExcludeSet fuel region
    some
      { ret := s.ret ++ [⟨region, p.target.numCore, point⟩]
        total := s.total.add point
        retired := s.retired ∪ excludeSet }

/-- The regions in the order of their points. -/
def plan (p : GreedyPlanner) (toExclude : Finset ℕ) (fuel : ℕ) (order : List ℕ) :
    Option Plan := do
  let s ← (p.getSortedCRegionList order).foldlM (p.selectRegion fuel) { retired := toExclude }
  let serialTime ← getSerialTime p.analyzer p.target p.analyzer.root
  some ⟨s.ret, p.target, s.total, serialTime⟩

/-! ## §2. What a region excludes. -/

variable {m : CRegionManager} {h : m.IsTree} {region fuel x y : ℕ} {R : CRegion}

/-- The regions properly above and below. -/
def Excludes (h : m.IsTree) (region y : ℕ) : Prop :=
  h.tree.ProperAnc y region ∨ h.tree.ProperAnc region y

/-- Exclusion is symmetric. -/
theorem Excludes.symm (hy : Excludes h region y) : Excludes h y region := Or.symm hy

/-- The walk over the ancestors. -/
theorem ancestors_eq (hR : m.regionMap.get region = some R) (hfuel : h.tree.bound + 2 ≤ fuel) :
    ∃ ancestors, walkUp m.regionMap none fuel R.parent = some ancestors ∧
      ∀ x, x ∈ ancestors ↔ h.tree.ProperAnc x region := by
  have hparent : m.parentOf region = R.parent := by
    unfold CRegionManager.parentOf
    rw [hR]
    rfl
  obtain ⟨fuel, rfl⟩ : ∃ n, fuel = n + 1 := ⟨fuel - 1, by omega⟩
  -- the walk starts at the parent, the root has none
  cases hp : R.parent with
  | none =>
      refine ⟨[], if_pos rfl, fun x => ?_⟩
      constructor
      · intro hx
        cases hx
      · rintro ⟨q, hq, -⟩
        rw [h.tree_parent, hparent, hp] at hq
        cases hq
  | some q =>
      have hq : m.parentOf region = some q := hparent.trans hp
      obtain ⟨Q, hQ, -⟩ := h.parent region q hq
      obtain ⟨A, hA⟩ := h.mem_keys.mp h.root.1
      have hroot : A.parent = none := by
        have hnone := h.root.2
        unfold CRegionManager.parentOf at hnone
        rwa [hA] at hnone
      have hrank : h.tree.rank q < h.tree.rank region := h.tree.rank_lt hq
      have hbound : h.tree.rank region ≤ h.tree.bound := h.tree.rank_le hq
      obtain ⟨path, hpath, -, hmem⟩ := @CRegionManager.IsTree.walkUp_eq m h m.root A hA
        (fuel + 1) q (h.root_anc (h.mem_keys.mpr ⟨Q, hQ⟩)) (by omega)
      rw [hroot] at hpath
      refine ⟨path, hpath, fun x => ?_⟩
      rw [hmem, Forest.properAnc_iff hq]
      constructor
      · exact fun hx => hx.2
      · intro hx
        obtain ⟨X, hX⟩ := h.exists_of_anc ⟨Q, hQ⟩ hx
        exact ⟨h.root_anc (h.mem_keys.mpr ⟨X, hX⟩), hx⟩

/-- The children of a region, in their order. -/
def childrenOfRegion (m : CRegionManager) (x : ℕ) : List ℕ :=
  ((m.regionMap.get x).map CRegion.children).getD []

/-- The children are those of the tree. -/
theorem mem_childrenOfRegion : y ∈ childrenOfRegion m x ↔ y ∈ h.tree.children x := by
  unfold childrenOfRegion
  cases hX : m.regionMap.get x with
  | none =>
      have hno : y ∉ h.tree.children x := by
        intro hy
        obtain ⟨X, hX', -⟩ := h.parent y x (h.tree.mem_children.mp hy)
        rw [hX] at hX'
        cases hX'
      exact iff_of_false List.not_mem_nil hno
  | some X =>
      rw [h.tree_children hX, List.mem_toFinset]
      rfl

/-- What can be reached from a region is what is below it. -/
theorem below_iff : Below (childrenOfRegion m) x y ↔ h.tree.Anc x y := by
  have hstep : (fun x y => y ∈ childrenOfRegion m x) = fun x y => h.tree.parent y = some x := by
    funext x y
    rw [mem_childrenOfRegion (h := h), h.tree.mem_children]
  unfold Below Forest.Anc
  rw [hstep]

/-- The rounds it takes to visit what is below a region. -/
noncomputable def descentFuel (h : m.IsTree) (x : ℕ) : ℕ :=
  ((childrenOfRegion m x).map fun c =>
    visitCost (childrenOfRegion m) (h.tree.height c) c).sum

/-- The loop over the descendants adds them and nothing else. -/
theorem descendants_eq (hR : m.regionMap.get region = some R) (hfuel : descentFuel h region ≤ fuel)
    (ret : Finset ℕ) :
    ∃ set, traverse (addDescendant m.regionMap) fuel R.children ret = some set ∧
      ∀ x, x ∈ set ↔ x ∈ ret ∨ h.tree.ProperAnc region x := by
  have hchildren : childrenOfRegion m region = R.children := by
    unfold childrenOfRegion
    rw [hR]
    rfl
  -- the queue adds what is below the region, and nothing else
  have hmarks : Marks (addDescendant m.regionMap) (childrenOfRegion m)
      (fun set => (∀ x ∈ ret, x ∈ set) ∧ ∀ x ∈ set, x ∈ ret ∨ h.tree.ProperAnc region x)
      (h.tree.ProperAnc region) (fun set x => x ∈ set) := by
    constructor
    case visit =>
      rintro set x ⟨hkeep, hset⟩ hx
      obtain ⟨p, hp, hpr⟩ := id hx
      obtain ⟨X, hX, -⟩ := CRegionManager.exists_of_parent hp
      refine ⟨insert x set, ?_, ⟨fun y hy => Finset.mem_insert_of_mem (hkeep y hy), ?_⟩,
        Finset.mem_insert_self x set, fun y hy => Finset.mem_insert_of_mem hy⟩
      · unfold addDescendant childrenOfRegion
        rw [hX]
        rfl
      · intro y hy
        rcases Finset.mem_insert.mp hy with rfl | hy
        · exact .inr hx
        · exact hset y hy
    case closed =>
      intro x y hx hy
      exact ⟨x, h.tree.mem_children.mp ((mem_childrenOfRegion (h := h)).mp hy), hx.anc⟩
  have hrank : ∀ x y, y ∈ childrenOfRegion m x → h.tree.height y < h.tree.height x :=
    fun x y hy => FiniteTree.height_lt ((mem_childrenOfRegion (h := h)).mp hy)
  obtain ⟨set, hrun, ⟨hkeep, hset⟩, -, hall⟩ := traverse_complete hmarks hrank fuel R.children
    ⟨fun x hx => hx, fun x hx => .inl hx⟩
    (fun x hx => by
      rw [← hchildren, mem_childrenOfRegion (h := h), h.tree.mem_children] at hx
      exact ⟨region, hx, Forest.Anc.refl region⟩)
    (by rwa [← hchildren])
  refine ⟨set, hrun, fun x => ⟨hset x, ?_⟩⟩
  rintro (hx | ⟨p, hp, hrp⟩)
  · exact hkeep x hx
  · have hin : ∀ {c : ℕ}, c ∈ h.tree.children region → h.tree.Anc c x → x ∈ set := by
      intro c hc hcx
      rw [← mem_childrenOfRegion, hchildren] at hc
      exact hall c hc x ((below_iff (h := h)).mpr hcx)
    rcases FiniteTree.properAnc_cases.mp (⟨p, hp, hrp⟩ : h.tree.ProperAnc region x) with
      hchild | ⟨c, hc, hcx⟩
    · exact hin (h.tree.mem_children.mpr hchild) (Forest.Anc.refl x)
    · exact hin hc hcx.anc

open Classical in
/-- The regions above and below, as a set. -/
noncomputable def exclusionSet (h : m.IsTree) (region : ℕ) : Finset ℕ :=
  m.regionMap.keys.toFinset.filter (Excludes h region)

/-- What a region excludes. -/
theorem mem_exclusionSet : y ∈ exclusionSet h x ↔ y ∈ m.regionMap.keys ∧ Excludes h x y := by
  simp only [exclusionSet, Finset.mem_filter, List.mem_toFinset]

/-- It excludes regions only. -/
theorem Excludes.mem_keys (hx : x ∈ m.regionMap.keys) (hy : Excludes h x y) :
    y ∈ m.regionMap.keys := by
  rcases hy with hyx | ⟨p, hp, -⟩
  · exact h.mem_keys.mpr (h.exists_of_anc (h.mem_keys.mp hx) hyx.anc)
  · exact h.mem_of_parent hp

/-- The rounds that suffice for all loops. -/
noncomputable def enoughFuel (h : m.IsTree) : ℕ :=
  max (h.tree.bound + 2) (m.regionMap.keys.map (descentFuel h)).sum

/-- **What a region excludes** is what lies above and below it. -/
theorem getExcludeSet_eq {p : GreedyPlanner} (hp : p.analyzer = m)
    (hregion : region ∈ m.regionMap.keys) (hfuel : enoughFuel h ≤ fuel) :
    p.getExcludeSet fuel region = some (exclusionSet h region) := by
  obtain ⟨R, hR⟩ := h.mem_keys.mp hregion
  unfold enoughFuel at hfuel
  have hdescent : descentFuel h region ≤ fuel := by
    have hle := List.single_le_sum (fun _ _ => Nat.zero_le _) _
      (List.mem_map_of_mem hregion : descentFuel h region ∈ m.regionMap.keys.map (descentFuel h))
    omega
  obtain ⟨ancestors, hup, hanc⟩ := ancestors_eq (h := h) hR (by omega : _ ≤ fuel)
  obtain ⟨set, hdown, hset⟩ := descendants_eq hR hdescent ancestors.toFinset
  unfold getExcludeSet
  simp only [hp, hR, hup, Option.bind_eq_bind, Option.bind_some]
  rw [hdown]
  congr 1
  ext x
  rw [hset, List.mem_toFinset, hanc, mem_exclusionSet]
  constructor
  · exact fun hx => ⟨Excludes.mem_keys hregion hx, hx⟩
  · exact fun hx => hx.2

/-! ## §3. The plan. -/

variable {p : GreedyPlanner} {toExclude : Finset ℕ} {order : List ℕ} {point : ℕ → ℚ}

/-- The planner has the given points for its regions. -/
structure HasPoints (p : GreedyPlanner) (m : CRegionManager) (point : ℕ → ℚ) : Prop where
  analyzer : p.analyzer = m
  point : ∀ r ∈ m.regionMap.keys, p.pointMap.get r = some (.fin (point r))

/-- The record of a region that is taken. -/
def recordOf (p : GreedyPlanner) (point : ℕ → ℚ) (region : ℕ) : CRegionRecord :=
  ⟨region, p.target.numCore, .fin (point region)⟩

/-- **The loop is a greedy selection.** -/
theorem selectRegions_eq (hp : HasPoints p m point) (hfuel : enoughFuel h ≤ fuel) :
    ∀ (regions : List ℕ) {s : Selection} {total : ℚ}, (∀ r ∈ regions, r ∈ m.regionMap.keys) →
      s.total = .fin total → ∃ s', regions.foldlM (p.selectRegion fuel) s = some s' ∧
        s'.ret = s.ret ++ (greedy (exclusionSet h) s.retired regions).map (recordOf p point) ∧
        s'.total = .fin (total + ((greedy (exclusionSet h) s.retired regions).map point).sum) := by
  intro regions
  induction regions with
  | nil =>
      intro s total _ htotal
      refine ⟨s, rfl, ?_, ?_⟩
      · unfold greedy
        rw [List.map_nil, List.append_nil]
      · unfold greedy
        rw [List.map_nil, List.sum_nil, add_zero, htotal]
  | cons r regions ih =>
      intro s total hkeys htotal
      have hrest := fun x hx => hkeys x (List.mem_cons_of_mem r hx)
      have hr := hkeys r List.mem_cons_self
      rw [List.foldlM_cons]
      unfold selectRegion greedy
      by_cases hretired : r ∈ s.retired
      · -- a retired region is passed over in both
        rw [if_pos hretired, if_pos hretired]
        exact ih hrest htotal
      · rw [if_neg hretired, if_neg hretired]
        simp only [hp.point r hr, getExcludeSet_eq hp.analyzer hr hfuel, Option.bind_eq_bind,
          Option.bind_some]
        obtain ⟨s', hrun, hret, htotal'⟩ := @ih
          { ret := s.ret ++ [⟨r, p.target.numCore, .fin (point r)⟩]
            total := s.total.add (.fin (point r))
            retired := s.retired ∪ exclusionSet h r } (total + point r) hrest
          (by rw [htotal]; rfl)
        refine ⟨s', hrun, ?_, ?_⟩
        · rw [hret, List.map_cons, List.append_assoc]
          rfl
        · rw [htotal', List.map_cons, List.sum_cons, add_assoc]

/-- The comparison on rational points. -/
theorem compare_le_zero (a b : ℚ) :
    decide (compare (.fin a) (.fin b) ≤ 0) = decide (b ≤ a) := by
  have hdiff : (Double.fin a).sub (.fin b) = .fin (a - b) := by
    show Double.fin (a + -b) = _
    rw [← sub_eq_add_neg]
  unfold compare
  rw [hdiff]
  simp only [Double.fin.injEq, Double.fin_lt]
  split
  · simp only [le_refl, decide_true]
    exact (decide_eq_true (by linarith)).symm
  · split
    · have hle : b ≤ a := by linarith
      simp [hle]
    · next hne hlt =>
        have hlt' : ¬ b ≤ a := by
          intro hle
          rcases hle.lt_or_eq with h | h
          · exact hlt (by linarith)
          · exact hne (by linarith)
        simp [hlt']

/-- The list is sorted by decreasing points. -/
theorem sorted_getSortedCRegionList (hp : HasPoints p m point)
    (horder : ∀ r ∈ order, r ∈ m.regionMap.keys) :
    (p.getSortedCRegionList order).Pairwise fun x y => point y ≤ point x := by
  refine pairwise_mergeSort_of_key fun x hx y hy => ?_
  unfold pointOf
  rw [hp.point x (horder x hx), hp.point y (horder y hy)]
  exact compare_le_zero _ _

/-- The constructor computes the points. -/
theorem new_hasPoints (target : Target)
    (hpoint : ∀ r ∈ m.regionMap.keys, getPoint m target r = some (.fin (point r))) :
    ∃ p, GreedyPlanner.new m target = some p ∧ p.target = target ∧ HasPoints p m point := by
  obtain ⟨pointMap, hloop, hpoints⟩ := foldlM_done
    (f := fun (pointMap : KeyMap ℕ Double) each => do
      let point ← getPoint m target each
      some (pointMap.put each point))
    (fun past pointMap => ∀ r ∈ past, pointMap.get r = some (.fin (point r)))
    m.regionMap.keys (s := KeyMap.empty)
    (by
      intro past r rest pointMap heq hpoints
      rw [hpoint r (by rw [heq]; simp)]
      refine ⟨_, rfl, fun x hx => ?_⟩
      rw [KeyMap.get_put]
      split
      · next hxr => rw [hxr]
      · next hxr =>
          refine hpoints x ?_
          simpa [hxr] using hx)
    (fun r hr => absurd hr List.not_mem_nil)
  refine ⟨⟨m, target, pointMap⟩, ?_, rfl, rfl, hpoints⟩
  unfold GreedyPlanner.new
  simp only [Option.bind_eq_bind] at hloop ⊢
  rw [hloop]
  rfl

/-- **A maximal plan without nesting.**  For every tree of regions with finite
points, every exclude set and every order of the hash set, with enough fuel for
the walks: what `plan` chooses are regions that are not excluded, each once and
none above another; every other region that is not excluded lies above or below
a chosen one with at least as many points; every record carries the points of
its region, and the total reduction is their sum. -/
theorem greedy_plan_maximal (m : CRegionManager) (h : m.IsTree) (target : Target) (point : ℕ → ℚ)
    (hpoint : ∀ r ∈ m.regionMap.keys, getPoint m target r = some (.fin (point r))) :
    ∃ p enough, GreedyPlanner.new m target = some p ∧ ∀ fuel ≥ enough,
      ∀ (toExclude : Finset ℕ) (order : List ℕ), order.Nodup →
        (∀ r, r ∈ order ↔ r ∈ m.regionMap.keys) →
        ∃ plan, p.plan toExclude fuel order = some plan ∧
          (plan.list.map CRegionRecord.info).Nodup ∧
          IsAntichain h.tree.Anc {r | r ∈ plan.list.map CRegionRecord.info} ∧
          (∀ r ∈ plan.list.map CRegionRecord.info, r ∈ m.regionMap.keys ∧ r ∉ toExclude) ∧
          (∀ r ∈ m.regionMap.keys, r ∉ toExclude → r ∉ plan.list.map CRegionRecord.info →
            ∃ c ∈ plan.list.map CRegionRecord.info,
              (h.tree.Anc c r ∨ h.tree.Anc r c) ∧ point r ≤ point c) ∧
          (∀ record ∈ plan.list, record.timeSave = .fin (point record.info)) ∧
          plan.totalReduction
            = .fin ((plan.list.map fun record => point record.info).sum) := by
  obtain ⟨p, hnew, htarget, hp⟩ := new_hasPoints target hpoint
  refine ⟨p, enoughFuel h, hnew, fun fuel hfuel toExclude order hnodup horder => ?_⟩
  have hperm : (p.getSortedCRegionList order).Perm order := List.mergeSort_perm _ _
  have hmem : ∀ r, r ∈ p.getSortedCRegionList order ↔ r ∈ m.regionMap.keys := fun r =>
    hperm.mem_iff.trans (horder r)
  have hsorted := sorted_getSortedCRegionList hp fun r hr => (horder r).mp hr
  obtain ⟨s, hrun, hret, htotal⟩ := selectRegions_eq (h := h) hp hfuel
    (p.getSortedCRegionList order) (s := { retired := toExclude }) (fun r hr => (hmem r).mp hr) rfl
  -- the points of the root need its serial time
  obtain ⟨serialTime, hserial⟩ : ∃ t, getSerialTime m p.target m.root = some t := by
    have hroot := hpoint m.root h.root.1
    rw [htarget]
    unfold getPoint at hroot
    simp only [Option.bind_eq_bind, Option.bind_eq_some_iff] at hroot
    obtain ⟨-, -, t, ht, -⟩ := hroot
    exact ⟨t, ht⟩
  have hplan : p.plan toExclude fuel order = some ⟨s.ret, p.target, s.total, serialTime⟩ := by
    unfold plan
    simp only [hrun, hp.analyzer, hserial, Option.bind_eq_bind, Option.bind_some]
  set chosen := greedy (exclusionSet h) toExclude (p.getSortedCRegionList order) with hchosen
  have hinfo : s.ret.map CRegionRecord.info = chosen := by
    rw [hret, List.nil_append, List.map_map]
    exact List.map_id chosen
  have hsub : chosen.Sublist (p.getSortedCRegionList order) := greedy_sublist _ _
  have hkeys : ∀ r ∈ chosen, r ∈ m.regionMap.keys := fun r hr => (hmem r).mp (hsub.subset hr)
  have hapart : ∀ x ∈ chosen, ∀ y ∈ chosen, x ≠ y → ¬ Excludes h x y := by
    have hpairs : chosen.Pairwise fun x y => ¬ Excludes h x y :=
      (pairwise_greedy _ _).imp_of_mem fun {x y} _ hy hxy hexcl =>
        hxy (mem_exclusionSet.mpr ⟨hkeys y hy, hexcl⟩)
    have hsymm : Std.Symm fun x y => ¬ Excludes h x y := ⟨fun x y hxy hyx => hxy hyx.symm⟩
    exact fun x hx y hy hne => hpairs.forall hx hy hne
  refine ⟨_, hplan, ?_⟩
  simp only [hinfo]
  refine ⟨hsub.nodup (hperm.nodup_iff.mpr hnodup), ?_, ?_, ?_, ?_, ?_⟩
  · intro x hx y hy hne hxy
    exact hapart x hx y hy hne (.inr (.of_ne hxy hne))
  · exact fun r hr => ⟨hkeys r hr, not_mem_retired hr⟩
  · intro r hr hne hout
    obtain ⟨c, hc, hrc, hle⟩ := exists_excluding hsorted ((hmem r).mpr hr) hne hout
    refine ⟨c, hc, ?_, hle⟩
    rcases (mem_exclusionSet.mp hrc).2 with hrc | hcr
    · exact .inr hrc.anc
    · exact .inl hcr.anc
  · intro record hrecord
    rw [hret, List.nil_append] at hrecord
    obtain ⟨r, -, rfl⟩ := List.mem_map.mp hrecord
    rfl
  · rw [htotal, zero_add, hret, List.nil_append, List.map_map]
    rfl

/-- The points of the program with two loops on four cores. -/
def loopPoints : ℕ → ℚ
  | 1 => 50
  | 2 => 45
  | _ => 45 / 2

/-- `main` has the most points, and its loops lie below it. -/
theorem greedy_plan_maximal_loops :
    ∃ p enough, GreedyPlanner.new CRegionManager.mainWithLoops ⟨4, 0⟩ = some p ∧ ∀ fuel ≥ enough,
      ∀ (toExclude : Finset ℕ) (order : List ℕ), order.Nodup →
        (∀ r, r ∈ order ↔ r ∈ CRegionManager.mainWithLoops.regionMap.keys) →
        ∃ plan, p.plan toExclude fuel order = some plan ∧
          (plan.list.map CRegionRecord.info).Nodup ∧
          IsAntichain CRegionManager.mainWithLoops_isTree.tree.Anc
            {r | r ∈ plan.list.map CRegionRecord.info} ∧
          (∀ r ∈ plan.list.map CRegionRecord.info,
            r ∈ CRegionManager.mainWithLoops.regionMap.keys ∧ r ∉ toExclude) ∧
          (∀ r ∈ CRegionManager.mainWithLoops.regionMap.keys, r ∉ toExclude →
            r ∉ plan.list.map CRegionRecord.info →
            ∃ c ∈ plan.list.map CRegionRecord.info,
              (CRegionManager.mainWithLoops_isTree.tree.Anc c r ∨
                CRegionManager.mainWithLoops_isTree.tree.Anc r c) ∧ loopPoints r ≤ loopPoints c) ∧
          (∀ record ∈ plan.list, record.timeSave = .fin (loopPoints record.info)) ∧
          plan.totalReduction
            = .fin ((plan.list.map fun record => loopPoints record.info).sum) :=
  greedy_plan_maximal CRegionManager.mainWithLoops CRegionManager.mainWithLoops_isTree ⟨4, 0⟩
    loopPoints (by decide +kernel)

end GreedyPlanner

end Kremlin.Planner
