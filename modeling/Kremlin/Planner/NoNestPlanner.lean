/-
  Kremlin.Planner.NoNestPlanner — planning without nested regions.

  `NoNestPlanner.java`.  A set is a `Finset`; where the source iterates over a
  hash set whose order could matter, the order is an argument (`leaves`) or
  does not change the result, sums being exact.

  `none` is an exception: a failed assertion (the planner is run with `-ea`),
  an absent value that is used, or an exception of a getter or of the sort, which
  is an argument too.

  Main results:
    * `evaluate_spec` — the loop over the regions ends, and what it leaves;
    * `plan_optimal` — the regions chosen are the best ones, and when there is a
      plan of them.
-/
import Kremlin.Library.TreeSelection
import Kremlin.Planner.CRegionRecord
import Kremlin.Planner.RegionForest
import Kremlin.Planner.SelfParallelism
import Mathlib.Data.Finset.Sort
import Mathlib.Tactic.Linarith
import Mathlib.Order.Lattice.Nat

namespace Kremlin.Planner

open Kremlin.Library

/-! ## §1. The planner. -/

/-- `Target`. -/
structure Target where
  numCore : ℤ
  overhead : ℤ
  deriving Repr, DecidableEq

/-- The constructor takes `maxCore` and `overhead` from the target. -/
structure NoNestPlanner where
  analyzer : RegionMap
  root : ℕ
  target : Target

/-- `Plan`. -/
structure Plan where
  list : List CRegionRecord
  target : Target
  totalReduction : Double
  serialTime : Double

/-- The maps a planner fills, and the retired regions in the order they came. -/
structure PlanState where
  retired : List ℕ := []
  pointMap : ℕ → Option Double := fun _ => none
  setMap : ℕ → Option (Finset ℕ) := fun _ => none

namespace NoNestPlanner

variable (p : NoNestPlanner)

/-- The average work of an instance. -/
def getSerialTime (region : ℕ) : Option Double := do
  let region ← p.analyzer.get region
  some (.fin (← region.getAvgWork))

/-- No more cores are used than there are. -/
def getParallelTime (region : ℕ) : Option Double := do
  let region ← p.analyzer.get region
  let selfP ← region.getSelfP
  let maxCore := Double.fin p.target.numCore
  let spSpeedup := if maxCore.lt selfP then maxCore else selfP
  some (((Double.fin (← region.getAvgWork)).div spSpeedup).add (.fin p.target.overhead))

/-- The assertion wants a share of the run. -/
def getCoverage (region : ℕ) : Option Double := do
  let totalTime ← p.getSerialTime p.root
  let region ← p.analyzer.get region
  let regionTime := Double.fin (← region.getTotalWork)
  let ret := (regionTime.mul (.fin 100)).div totalTime
  if (Double.fin 0).le ret ∧ ret.le (.fin 100) then some ret else none

/-- A region that would be slower in parallel stays serial. -/
def getSpeedup (region : ℕ) : Option Double := do
  let parallelTime ← p.getParallelTime region
  let serialTime ← p.getSerialTime region
  let speedup := serialTime.div parallelTime
  some (if serialTime.lt parallelTime then .fin 1 else speedup)

/-- What parallelizing the region saves; excluded regions and sinks save nothing. -/
def getSelfPoint (current : ℕ) (excludeSet : Finset ℕ) : Option Double :=
  if current ∈ excludeSet then some (.fin 0)
  else do
    let region ← p.analyzer.get current
    if region.type = .recSink then some (.fin 0)
    else do
      let speedup ← p.getSpeedup current
      let coverage ← p.getCoverage current
      let selfPoint := coverage.sub (coverage.div speedup)
      let selfPoint := if selfPoint.le (.fin 0) then .fin 0 else selfPoint
      if selfPoint.le (.fin 100) then some selfPoint else none

/-- The savings of the children. -/
def getChildrenPoint (st : PlanState) (region : CRegion) : Option Double :=
  region.children.foldlM (fun sum child => do
    let point ← st.pointMap child
    some (sum.add point)) (.fin 0)

/-- The regions that make them. -/
def getChildrenUnionSet (st : PlanState) (info : CRegion) : Option (Finset ℕ) :=
  info.children.foldlM (fun ret child => do
    let set ← st.setMap child
    some (ret ∪ set)) ∅

/-- The best set below a region is remembered. -/
def setParallelRegionSet (st : PlanState) (target : ℕ) (set : Finset ℕ) (timeSaved : Double) :
    PlanState :=
  { st with
    setMap := Function.update st.setMap target (some set)
    pointMap := Function.update st.pointMap target (some timeSaved) }

/-- `isReady`, for a region that is not `null`. -/
def isReady (region : ℕ) (retired : List ℕ) : Option Bool := do
  if region ∈ retired then none
  else do
    let region ← p.analyzer.get region
    some (region.children.all (· ∈ retired))

/-- The body of the loop of `plan`; the list is what it adds to the queue. -/
def planStep (toExclude : Finset ℕ) (st : PlanState) (current : ℕ) :
    Option (PlanState × List ℕ) := do
  let region ← p.analyzer.get current
  let st := { st with retired := if current ∈ st.retired then st.retired else st.retired ++ [current] }
  let childrenPoint ← getChildrenPoint st region
  let selfPoint ← p.getSelfPoint current toExclude
  let (bestSet, bestPoint) ←
    (if childrenPoint.lt selfPoint then some ({current}, selfPoint)
    else do
      let parallelSet ← getChildrenUnionSet st region
      some (parallelSet, childrenPoint))
  let st := setParallelRegionSet st current bestSet bestPoint
  match region.parent with
  | none => some (st, [])
  | some parent => do
      let ready ← p.isReady parent st.retired
      some (st, if ready then [parent] else [])

/-- The loop of `plan`.  `leaves` is the leaf set in the order of its iterator. -/
def evaluate (toExclude : Finset ℕ) (fuel : ℕ) (leaves : List ℕ) : Option PlanState :=
  traverse (p.planStep toExclude) fuel leaves {}

/-- The record of a chosen region; the coverages so far must not exceed 100. -/
def addRecord (st : PlanState) (ret : List CRegionRecord × Double) (each : ℕ) :
    Option (List CRegionRecord × Double) := do
  let timeSaved ← st.pointMap each
  let coverage ← p.getCoverage each
  let coverageSum := ret.2.add coverage
  if coverageSum.le (.fin 100) then
    some (ret.1 ++ [⟨each, p.target.numCore, timeSaved⟩], coverageSum)
  else none

/-- `sort` is `Collections.sort`; with `some` in its place the records stay as they were
added. -/
def plan (sort : List CRegionRecord → Option (List CRegionRecord)) (toExclude : Finset ℕ)
    (fuel : ℕ) (leaves : List ℕ) : Option Plan := do
  let st ← p.evaluate toExclude fuel leaves
  let set ← st.setMap p.root
  let (ret, _) ← (set.sort (· ≤ ·)).foldlM (p.addRecord st) ([], .fin 0)
  let ret ← sort ret
  let totalReduction ← st.pointMap p.root
  let serialTime ← p.getSerialTime p.root
  some ⟨ret, p.target, totalReduction, serialTime⟩

end NoNestPlanner

/-- `Collections.sort` of the records.  The comparison is never zero, so records
of the same saving may come in any order. -/
structure Plan.SortsTo (plan sorted : Plan) : Prop where
  same : sorted = { plan with list := sorted.list }
  perm : sorted.list.Perm plan.list
  order : sorted.list.Pairwise fun record later => record.compareTo later ≠ 1

/-! ## §2. The regions as a tree. -/

namespace NoNestPlanner

/-- The manager the planner was made for. -/
def manager (p : NoNestPlanner) : CRegionManager := ⟨p.analyzer, p.root⟩

/-- `a` is `b` or one of its ancestors. -/
def Nests (p : NoNestPlanner) (a b : ℕ) : Prop :=
  Relation.ReflTransGen (fun q c => p.manager.parentOf c = some q) a b

variable {p : NoNestPlanner}

/-- The keys are the regions. -/
theorem mem_keys (h : p.manager.IsTree) {r : ℕ} :
    r ∈ p.analyzer.keys ↔ ∃ R, p.analyzer.get r = some R := h.mem_keys

/-! ## §3. Evaluating the regions. -/

variable {toExclude : Finset ℕ} {st : PlanState}

/-- The self point of a region, where it is a number. -/
def selfPoint (p : NoNestPlanner) (toExclude : Finset ℕ) (region : ℕ) : ℚ :=
  match p.getSelfPoint region toExclude with
  | some (.fin q) => q
  | _ => 0

/-- The retired regions have their best points and sets. -/
structure Evaluated (h : p.manager.IsTree) (toExclude : Finset ℕ) (st : PlanState) : Prop where
  point : ∀ r ∈ st.retired,
    st.pointMap r = some (.fin (h.tree.best (p.selfPoint toExclude) r))
  set : ∀ r ∈ st.retired, st.setMap r = some (h.tree.pick (p.selfPoint toExclude) r)

/-- The children's savings add up. -/
theorem getChildrenPoint_eq (f : ℕ → ℚ) {region : CRegion} (hnodup : region.children.Nodup)
    (h : ∀ c ∈ region.children, st.pointMap c = some (.fin (f c))) :
    getChildrenPoint st region = some (.fin (∑ c ∈ region.children.toFinset, f c)) := by
  have hloop : ∀ (xs : List ℕ) (a : ℚ), (∀ c ∈ xs, st.pointMap c = some (.fin (f c))) →
      xs.foldlM (fun sum child => (st.pointMap child).bind fun point => some (sum.add point))
        (Double.fin a) = some (.fin (a + (xs.map f).sum)) := by
    intro xs
    induction xs with
    | nil => simp
    | cons c xs ih =>
        intro a hall
        rw [List.foldlM_cons, hall c List.mem_cons_self]
        show xs.foldlM _ ((Double.fin a).add (.fin (f c))) = _
        rw [Double.fin_add, ih _ fun d hd => hall d (List.mem_cons_of_mem _ hd), List.map_cons,
          List.sum_cons, add_assoc]
  rw [List.sum_toFinset f hnodup]
  exact (hloop region.children 0 h).trans (by rw [zero_add])

/-- Their sets come together. -/
theorem getChildrenUnionSet_eq (g : ℕ → Finset ℕ) {region : CRegion}
    (h : ∀ c ∈ region.children, st.setMap c = some (g c)) :
    getChildrenUnionSet st region = some (region.children.toFinset.biUnion g) := by
  have hloop : ∀ (xs : List ℕ) (a : Finset ℕ), (∀ c ∈ xs, st.setMap c = some (g c)) →
      xs.foldlM (fun ret child => (st.setMap child).bind fun set => some (ret ∪ set)) a
        = some (a ∪ xs.toFinset.biUnion g) := by
    intro xs
    induction xs with
    | nil => simp
    | cons c xs ih =>
        intro a hall
        rw [List.foldlM_cons, hall c List.mem_cons_self]
        show xs.foldlM _ (a ∪ g c) = _
        rw [ih _ fun d hd => hall d (List.mem_cons_of_mem _ hd), List.toFinset_cons,
          Finset.biUnion_insert, Finset.union_assoc]
  exact (hloop region.children ∅ h).trans (by rw [Finset.empty_union])

/-- A region is ready when its children are retired. -/
theorem isReady_eq {q : ℕ} {Q : CRegion} {retired : List ℕ} (hQ : p.analyzer.get q = some Q)
    (hq : q ∉ retired) :
    p.isReady q retired = some (decide (∀ c ∈ Q.children.toFinset, c ∈ retired)) := by
  rw [isReady, if_neg hq, hQ]
  show some (Q.children.all (· ∈ retired)) = _
  congr 1
  rw [Bool.eq_iff_iff, List.all_eq_true, decide_eq_true_eq]
  simp

/-- What the loop appends to its queue. -/
theorem readyParent_eq (h : p.manager.IsTree) {x : ℕ} {R : CRegion} (hR : p.analyzer.get x = some R)
    {retired : List ℕ} (hparent : ∀ q, h.tree.parent x = some q → q ∉ retired) {st : PlanState} :
    (match R.parent with
      | none => some (st, [])
      | some parent => (p.isReady parent retired).bind fun ready =>
          some (st, if ready = true then [parent] else []))
      = some (st, h.tree.readyParent retired x) := by
  have hpx : h.tree.parent x = R.parent := by
    show (p.analyzer.get x).bind CRegion.parent = R.parent
    rw [hR]
    rfl
  unfold FiniteTree.readyParent
  rw [hpx]
  cases hp : R.parent with
  | none => rfl
  | some q =>
      obtain ⟨Q, hQ, -⟩ := h.parent x q (hpx.trans hp)
      show (p.isReady q retired).bind _ = some (st, if _ then [q] else [])
      rw [isReady_eq hQ (hparent q (hpx.trans hp)), h.tree_children hQ]
      simp only [Option.bind_some, decide_eq_true_eq]

/-- **One turn of the loop** retires a region with its best point and set, and
appends its parent when that is ready. -/
theorem planStep_spec (h : p.manager.IsTree) (hpoint : ∀ r ∈ p.analyzer.keys, ∃ q, 0 ≤ q ∧
      p.getSelfPoint r toExclude = some (.fin q)) :
    h.tree.BottomUp p.analyzer.keys.toFinset (p.planStep toExclude) PlanState.retired
      (Evaluated h toExclude) where
  parent_mem x _ q hq := by
    obtain ⟨Q, hQ, -⟩ := h.parent x q hq
    exact List.mem_toFinset.mpr (h.mem_keys.mpr ⟨Q, hQ⟩)
  child_mem x _ c hc := List.mem_toFinset.mpr (h.mem_of_parent (h.tree.mem_children.mp hc))
  visit st x hst hx hnew hchildren hparent := by
    have hx := List.mem_toFinset.mp hx
    obtain ⟨R, hR⟩ := (mem_keys h).mp hx
    obtain ⟨q, -, hq⟩ := hpoint x hx
    rw [h.tree_children hR] at hchildren
    have hself : p.selfPoint toExclude x = q := by rw [selfPoint, hq]
    -- the children have their points and sets
    have hsum : getChildrenPoint { st with retired := st.retired ++ [x] } R = _ :=
      getChildrenPoint_eq (h.tree.best (p.selfPoint toExclude)) (h.nodup x R hR)
        fun c hc => hst.point c (hchildren c (List.mem_toFinset.mpr hc))
    have hunion : getChildrenUnionSet { st with retired := st.retired ++ [x] } R = _ :=
      getChildrenUnionSet_eq (h.tree.pick (p.selfPoint toExclude))
        fun c hc => hst.set c (hchildren c (List.mem_toFinset.mpr hc))
    rw [← h.tree_children hR] at hsum hunion
    have hbest : (if (Double.fin (h.tree.childrenBest (p.selfPoint toExclude) x)).lt (.fin q) then
          some ({x}, Double.fin q)
        else some ((h.tree.children x).biUnion (h.tree.pick (p.selfPoint toExclude)),
          Double.fin (h.tree.childrenBest (p.selfPoint toExclude) x)))
        = some (h.tree.pick (p.selfPoint toExclude) x,
            .fin (h.tree.best (p.selfPoint toExclude) x)) := by
      rw [FiniteTree.pick_eq, FiniteTree.best_eq, hself]
      by_cases hlt : h.tree.childrenBest (p.selfPoint toExclude) x < q
      · rw [if_pos ((Double.fin_lt _ _).mpr hlt), if_pos hlt, max_eq_left hlt.le]
      · rw [if_neg (fun hin => hlt ((Double.fin_lt _ _).mp hin)), if_neg hlt,
          max_eq_right (not_lt.mp hlt)]
    refine ⟨setParallelRegionSet { st with retired := st.retired ++ [x] } x
      (h.tree.pick (p.selfPoint toExclude) x) (.fin (h.tree.best (p.selfPoint toExclude) x)),
      ?_, ?_, rfl⟩
    · unfold planStep
      simp only [hR, if_neg hnew, Option.bind_eq_bind, Option.bind_some, hq]
      rw [hsum, hunion]
      simp only [Option.bind_some]
      rw [show ∑ c ∈ h.tree.children x, h.tree.best (p.selfPoint toExclude) c
        = h.tree.childrenBest (p.selfPoint toExclude) x from rfl, hbest]
      exact readyParent_eq h hR fun y hy hin => by
        rcases List.mem_append.mp hin with hin | hin
        · exact hparent y hy hin
        · exact (h.tree.rank_lt hy).ne (by rw [List.mem_singleton.mp hin])
    · -- the maps of the other regions are as they were
      have hother : ∀ r ∈ st.retired ++ [x], r ≠ x → r ∈ st.retired := by
        intro r hr hne
        rcases List.mem_append.mp hr with hr | hr
        · exact hr
        · exact absurd (List.mem_singleton.mp hr) hne
      constructor
      · intro r hr
        show Function.update st.pointMap x _ r = _
        by_cases hrx : r = x
        · rw [hrx, Function.update_self]
        · rw [Function.update_of_ne hrx]
          exact hst.point r (hother r hr hrx)
      · intro r hr
        show Function.update st.setMap x _ r = _
        by_cases hrx : r = x
        · rw [hrx, Function.update_self]
        · rw [Function.update_of_ne hrx]
          exact hst.set r (hother r hr hrx)

/-- **The loop ends** after as many turns as there are regions: each has been
retired once, after its children, with its best point and set. -/
theorem evaluate_spec (h : p.manager.IsTree) (hpoint : ∀ r ∈ p.analyzer.keys, ∃ q, 0 ≤ q ∧
      p.getSelfPoint r toExclude = some (.fin q)) {leaves : List ℕ} (hnodup : leaves.Nodup)
    (hleaves : ∀ r, r ∈ leaves ↔ ∃ R, p.analyzer.get r = some R ∧ R.children = []) :
    ∃ st, p.evaluate toExclude p.analyzer.keys.length leaves = some st ∧
      Evaluated h toExclude st ∧ st.retired.Nodup ∧
      (∀ r, r ∈ st.retired ↔ r ∈ p.analyzer.keys) ∧ h.tree.ChildrenFirst st.retired := by
  have hagenda : h.tree.Agenda p.analyzer.keys.toFinset [] leaves := by
    apply FiniteTree.agenda_leaves hnodup
    intro r
    rw [hleaves, List.mem_toFinset, mem_keys h]
    constructor
    · rintro ⟨R, hR, hnil⟩
      exact ⟨⟨R, hR⟩, by rw [h.tree_children hR, hnil]; rfl⟩
    · rintro ⟨⟨R, hR⟩, hempty⟩
      rw [h.tree_children hR] at hempty
      exact ⟨R, hR, (List.toFinset_eq_empty_iff _).mp hempty⟩
  obtain ⟨st, hrun, hst, hnd, hall, horder⟩ := (planStep_spec h hpoint).traverse
    p.analyzer.keys.length leaves (s := {}) ⟨by simp, by simp⟩ hagenda
    (List.toFinset_card_le _)
  exact ⟨st, hrun, hst, hnd, fun r => (hall r).trans List.mem_toFinset, horder⟩

/-! ## §4. The plan. -/

/-- The coverage of a region, where it is a number. -/
def coverage (p : NoNestPlanner) (region : ℕ) : ℚ :=
  match p.getCoverage region with
  | some (.fin q) => q
  | _ => 0

/-- A coverage that passes its assertion is a percentage. -/
theorem getCoverage_eq_some {r : ℕ} {x : Double} (hx : p.getCoverage r = some x) :
    x = .fin (p.coverage r) ∧ 0 ≤ p.coverage r := by
  have hbounds : (Double.fin 0).le x = true ∧ x.le (.fin 100) = true := by
    unfold getCoverage at hx
    simp only [Option.bind_eq_bind, Option.bind_eq_some_iff] at hx
    obtain ⟨totalTime, -, R, -, work, -, hx⟩ := hx
    split at hx
    · next hassert => exact Option.some.inj hx ▸ hassert
    · cases hx
  obtain ⟨q, rfl, hq, -⟩ := Double.eq_fin_of_le hbounds.1 hbounds.2
  rw [coverage, hx]
  exact ⟨rfl, hq⟩

/-- A region with a self point is neither excluded nor a sink, and it has a
coverage. -/
theorem of_selfPoint_pos {r : ℕ} (hpos : 0 < p.selfPoint toExclude r) :
    r ∉ toExclude ∧ (∀ R, p.analyzer.get r = some R → R.type ≠ .recSink) ∧
      (p.getCoverage r).isSome := by
  unfold selfPoint getSelfPoint at hpos
  split at hpos
  · next q hq =>
      split at hq
      · cases hq
        exact absurd hpos (lt_irrefl 0)
      · next hex =>
          simp only [Option.bind_eq_bind, Option.bind_eq_some_iff] at hq
          obtain ⟨R, hR, hq⟩ := hq
          split at hq
          · cases hq
            exact absurd hpos (lt_irrefl 0)
          · next htype =>
              simp only [Option.bind_eq_some_iff] at hq
              obtain ⟨speedup, -, cov, hcov, -⟩ := hq
              refine ⟨hex, fun R' hR' => ?_, by rw [hcov]; rfl⟩
              obtain rfl := Option.some.inj (hR.symm.trans hR')
              exact htype
  · exact absurd hpos (lt_irrefl 0)

/-- The records of the chosen regions, as long as the coverages stay within
100. -/
theorem addRecords_eq {st : PlanState} (time : ℕ → Double) (xs : List ℕ)
    (h : ∀ r ∈ xs, st.pointMap r = some (time r) ∧ (p.getCoverage r).isSome)
    {ret : List CRegionRecord} {a : ℚ} (hsum : a + (xs.map p.coverage).sum ≤ 100) :
    xs.foldlM (p.addRecord st) (ret, .fin a)
      = some (ret ++ xs.map fun r => ⟨r, p.target.numCore, time r⟩,
          .fin (a + (xs.map p.coverage).sum)) := by
  induction xs generalizing ret a with
  | nil => simp
  | cons r xs ih =>
      obtain ⟨htime, hcov⟩ := h r List.mem_cons_self
      obtain ⟨x, hx⟩ := Option.isSome_iff_exists.mp hcov
      -- coverages are not negative, so every partial sum is at most 100
      have hrest : 0 ≤ (xs.map p.coverage).sum := by
        apply List.sum_nonneg
        intro c hc
        obtain ⟨y, hy, rfl⟩ := List.mem_map.mp hc
        obtain ⟨z, hz⟩ := Option.isSome_iff_exists.mp (h y (List.mem_cons_of_mem _ hy)).2
        exact (getCoverage_eq_some hz).2
      have hsum : a + p.coverage r + (xs.map p.coverage).sum ≤ 100 := by
        rw [add_assoc]
        exact hsum
      have hle : (Double.fin (a + p.coverage r)).le (.fin 100) = true := by
        rw [Double.fin_le]
        linarith
      have hadd : p.addRecord st (ret, .fin a) r
          = some (ret ++ [⟨r, p.target.numCore, time r⟩], .fin (a + p.coverage r)) := by
        unfold addRecord
        rw [htime, hx, (getCoverage_eq_some hx).1]
        exact if_pos hle
      rw [List.foldlM_cons, hadd]
      show xs.foldlM (p.addRecord st) _ = _
      rw [ih (fun y hy => h y (List.mem_cons_of_mem _ hy)) hsum, List.append_assoc, add_assoc]
      rfl

/-- The coverages that were added up stay within 100. -/
theorem sum_le_of_addRecords {st : PlanState} {ret' : List CRegionRecord × Double} {xs : List ℕ}
    (h : ∀ r ∈ xs, (p.getCoverage r).isSome) {ret : List CRegionRecord} {a : ℚ} (ha : a ≤ 100)
    (hrun : xs.foldlM (p.addRecord st) (ret, .fin a) = some ret') :
    a + (xs.map p.coverage).sum ≤ 100 := by
  induction xs generalizing ret a with
  | nil => simpa using ha
  | cons r xs ih =>
      obtain ⟨x, hx⟩ := Option.isSome_iff_exists.mp (h r List.mem_cons_self)
      rw [List.foldlM_cons] at hrun
      obtain ⟨next, hnext, hrun⟩ := Option.bind_eq_some_iff.mp hrun
      unfold addRecord at hnext
      simp only [Option.bind_eq_bind, Option.bind_eq_some_iff] at hnext
      obtain ⟨time, -, y, hy, hnext⟩ := hnext
      obtain rfl := Option.some.inj (hx.symm.trans hy)
      rw [(getCoverage_eq_some hx).1] at hnext
      split at hnext
      · next hle =>
          rw [← Option.some.inj hnext] at hrun
          rw [List.map_cons, List.sum_cons, ← add_assoc]
          exact ih (fun s hs => h s (List.mem_cons_of_mem _ hs)) ((Double.fin_le _ _).mp hle) hrun
      · cases hnext

/-- The regions that the root ends up with: a region whose own point is more than the best of
what is below it stands for all of that. -/
noncomputable def chosen (h : p.manager.IsTree) (toExclude : Finset ℕ) : Finset ℕ :=
  h.tree.pick (p.selfPoint toExclude) p.root

/-- **What `plan` does up to the records.**  The loop ends, having retired each region once and
after its children; the set of the root is an antichain without excluded regions and sinks, its
self points add up to the point of the root, and no antichain of regions has more. -/
structure ChoosesBest (p : NoNestPlanner) (toExclude : Finset ℕ) (leaves : List ℕ)
    (st : PlanState) (set : Finset ℕ) (point : ℚ) : Prop where
  run : p.evaluate toExclude p.analyzer.keys.length leaves = some st
  once : st.retired.Nodup
  all : ∀ r, r ∈ st.retired ↔ r ∈ p.analyzer.keys
  childrenFirst : ∀ l₁ r l₂ c, st.retired = l₁ ++ r :: l₂ → p.manager.parentOf c = some r → c ∈ l₁
  set_root : st.setMap p.root = some set
  point_root : st.pointMap p.root = some (.fin point)
  regions : ∀ r ∈ set, r ∈ p.analyzer.keys
  antichain : IsAntichain p.Nests (set : Set ℕ)
  allowed : ∀ r ∈ set, r ∉ toExclude ∧ ∀ R, p.analyzer.get r = some R → R.type ≠ .recSink
  total : ∑ r ∈ set, p.selfPoint toExclude r = point
  greatest : IsGreatest {m | ∃ S : Finset ℕ, (∀ r ∈ S, r ∈ p.analyzer.keys) ∧
    IsAntichain p.Nests (S : Set ℕ) ∧ ∑ r ∈ S, p.selfPoint toExclude r = m} point

section Plan

variable {leaves : List ℕ} (h : p.manager.IsTree) (hpoint : ∀ r ∈ p.analyzer.keys, ∃ q, 0 ≤ q ∧
  p.getSelfPoint r toExclude = some (.fin q))

/-- What is chosen is a region. -/
theorem mem_keys_of_chosen {r : ℕ} (hr : r ∈ chosen h toExclude) : r ∈ p.analyzer.keys := by
  obtain ⟨R, hR⟩ := CRegionManager.IsTree.exists_below (h.mem_keys.mp h.root.1).choose_spec
    (FiniteTree.anc_of_mem_pick (T := h.tree) p.root r hr)
  exact h.mem_keys.mpr ⟨R, hR⟩

include hpoint in
/-- A chosen region has a point of its own. -/
theorem selfPoint_pos_of_chosen {r : ℕ} (hr : r ∈ chosen h toExclude) :
    0 < p.selfPoint toExclude r := by
  apply lt_of_le_of_lt _ (FiniteTree.childrenBest_lt_of_mem_pick p.root r hr)
  apply Finset.sum_nonneg
  intro c hc
  obtain ⟨q, hq, hself⟩ := hpoint c (h.mem_of_parent (h.tree.mem_children.mp hc))
  rw [FiniteTree.best_eq, selfPoint, hself]
  exact le_max_of_le_left hq

/-- What it saves is that point. -/
theorem best_of_chosen {r : ℕ} (hr : r ∈ chosen h toExclude) :
    h.tree.best (p.selfPoint toExclude) r = p.selfPoint toExclude r := by
  rw [FiniteTree.best_eq]
  exact max_eq_left (FiniteTree.childrenBest_lt_of_mem_pick p.root r hr).le

include hpoint in
/-- The loop leaves the best choice. -/
theorem choosesBest (hnodup : leaves.Nodup)
    (hleaves : ∀ r, r ∈ leaves ↔ ∃ R, p.analyzer.get r = some R ∧ R.children = []) :
    ∃ st, p.ChoosesBest toExclude leaves st (chosen h toExclude)
        (h.tree.best (p.selfPoint toExclude) p.root) ∧ Evaluated h toExclude st := by
  obtain ⟨st, hrun, hst, hnd, hall, horder⟩ := evaluate_spec h hpoint hnodup hleaves
  have hroot := (hall p.root).mpr h.root.1
  refine ⟨st, ⟨hrun, hnd, hall, ?_, hst.set p.root hroot, hst.point p.root hroot,
    fun r hr => mem_keys_of_chosen h hr, FiniteTree.isAntichain_pick p.root, ?_,
    FiniteTree.sum_pick p.root, ?_⟩, hst⟩
  · intro l₁ r l₂ c hsplit hc
    exact horder l₁ r l₂ hsplit c (h.tree.mem_children.mpr hc)
  · intro r hr
    obtain ⟨hex, htype, -⟩ := of_selfPoint_pos (selfPoint_pos_of_chosen h hpoint hr)
    exact ⟨hex, htype⟩
  · constructor
    · exact ⟨_, fun r hr => mem_keys_of_chosen h hr, FiniteTree.isAntichain_pick p.root,
        FiniteTree.sum_pick p.root⟩
    · rintro m ⟨S, hS, hanti, rfl⟩
      exact FiniteTree.sum_le_best p.root S hanti fun r hr => h.root_anc (hS r hr)

/-- The records of the chosen regions, before they are sorted. -/
noncomputable def recordsOf (toExclude : Finset ℕ) : List CRegionRecord :=
  ((chosen h toExclude).sort (· ≤ ·)).map fun r =>
    ⟨r, p.target.numCore, .fin (p.selfPoint toExclude r)⟩

/-- The savings are different. -/
theorem pairwise_recordsOf_iff : (recordsOf h toExclude).Pairwise (Opposite CRegionRecord.compareTo) ↔
    Set.InjOn (p.selfPoint toExclude) (chosen h toExclude) := by
  have hopposite : ∀ r r' : ℕ, Opposite CRegionRecord.compareTo
      ⟨r, p.target.numCore, .fin (p.selfPoint toExclude r)⟩
      ⟨r', p.target.numCore, .fin (p.selfPoint toExclude r')⟩ ↔
        p.selfPoint toExclude r ≠ p.selfPoint toExclude r' := by
    intro r r'
    rw [CRegionRecord.opposite_iff, Double.fin_lt, Double.fin_lt, ne_iff_lt_or_gt]
  unfold recordsOf
  rw [List.pairwise_map]
  simp only [hopposite]
  constructor
  · intro hpair r hr r' hr' heq
    by_contra hne
    have hsymm : Std.Symm fun r r' => p.selfPoint toExclude r ≠ p.selfPoint toExclude r' :=
      ⟨fun _ _ => Ne.symm⟩
    exact hpair.forall ((Finset.mem_sort _).mpr hr) ((Finset.mem_sort _).mpr hr') hne heq
  · intro hinj
    refine (Finset.sort_nodup _ _).pairwise_of_forall_ne fun r hr r' hr' hne heq => hne ?_
    exact hinj ((Finset.mem_sort _).mp hr) ((Finset.mem_sort _).mp hr') heq

include hpoint in
/-- **What becomes of the records**: an assertion about their coverages, and the sort. -/
theorem plan_eq_some_iff (hnodup : leaves.Nodup)
    (hleaves : ∀ r, r ∈ leaves ↔ ∃ R, p.analyzer.get r = some R ∧ R.children = [])
    (sort : List CRegionRecord → Option (List CRegionRecord)) (plan : Plan) :
    p.plan sort toExclude p.analyzer.keys.length leaves = some plan ↔
      ∑ r ∈ chosen h toExclude, p.coverage r ≤ 100 ∧
        sort (recordsOf h toExclude) = some plan.list ∧
        plan.target = p.target ∧
        plan.totalReduction = .fin (h.tree.best (p.selfPoint toExclude) p.root) ∧
        p.getSerialTime p.root = some plan.serialTime := by
  obtain ⟨st, hbest, hst⟩ := choosesBest h hpoint hnodup hleaves
  have hsum : (((chosen h toExclude).sort (· ≤ ·)).map p.coverage).sum =
      ∑ r ∈ chosen h toExclude, p.coverage r := by
    rw [← List.sum_toFinset _ (Finset.sort_nodup _ _), Finset.sort_toFinset]
  have hcov : ∀ r ∈ (chosen h toExclude).sort (· ≤ ·), (p.getCoverage r).isSome := fun r hr =>
    (of_selfPoint_pos (selfPoint_pos_of_chosen h hpoint ((Finset.mem_sort _).mp hr))).2.2
  unfold NoNestPlanner.plan
  rw [hbest.run]
  simp only [Option.bind_eq_bind, Option.bind_some, hbest.set_root, hbest.point_root]
  -- the assertion on the sum decides
  by_cases hle : ∑ r ∈ chosen h toExclude, p.coverage r ≤ 100
  · have htimes : ∀ r ∈ (chosen h toExclude).sort (· ≤ ·),
        st.pointMap r = some (.fin (p.selfPoint toExclude r)) ∧ (p.getCoverage r).isSome := by
      intro r hr
      have hr' := (Finset.mem_sort _).mp hr
      refine ⟨?_, hcov r hr⟩
      rw [hst.point r ((hbest.all r).mpr (hbest.regions r hr')), best_of_chosen h hr']
    have hadd := @addRecords_eq p st _ _ htimes [] 0 (by rw [zero_add, hsum]; exact hle)
    rw [hadd]
    simp only [Option.bind_some, List.nil_append, Option.bind_eq_some_iff, Option.some.injEq]
    constructor
    · rintro ⟨list, hlist, serialTime, hserial, rfl⟩
      exact ⟨hle, hlist, rfl, rfl, hserial⟩
    · rintro ⟨-, hlist, htarget, htotal, hserial⟩
      exact ⟨plan.list, hlist, plan.serialTime, hserial, by rw [← htarget, ← htotal]⟩
  · refine iff_of_false (fun hrun => hle ?_) fun hrun => hle hrun.1
    simp only [Option.bind_eq_some_iff] at hrun
    obtain ⟨ret, hret, -⟩ := hrun
    have hbound := sum_le_of_addRecords hcov (by decide) hret
    rwa [zero_add, hsum] at hbound

end Plan

/-- **`NoNestPlanner` is optimal.**  For every tree of regions, every exclude set and every order
of the leaves the regions are chosen as they should be.  That there is a plan of them, whatever
the sort does where it may throw, takes that their coverages pass the final assertion and that
they are less than 32 or have different savings. -/
theorem plan_optimal (p : NoNestPlanner) (h : p.manager.IsTree) (toExclude : Finset ℕ)
    (hpoint : ∀ r ∈ p.analyzer.keys, ∃ q, 0 ≤ q ∧ p.getSelfPoint r toExclude = some (.fin q))
    (leaves : List ℕ) (hnodup : leaves.Nodup)
    (hleaves : ∀ r, r ∈ leaves ↔ ∃ R, p.analyzer.get r = some R ∧ R.children = []) :
    ∃ st point, p.ChoosesBest toExclude leaves st (chosen h toExclude) point ∧
      ((∀ sort, SortsRecords sort →
          ∃ plan, p.plan sort toExclude p.analyzer.keys.length leaves = some plan ∧
            (plan.list.map (·.info)).Perm ((chosen h toExclude).sort (· ≤ ·)) ∧
            plan.list.Pairwise (fun record later => record.compareTo later ≠ 1) ∧
            plan.totalReduction = .fin point) ↔
        (p.getSerialTime p.root).isSome ∧ ∑ r ∈ chosen h toExclude, p.coverage r ≤ 100 ∧
          ((chosen h toExclude).card < 32 ∨
            Set.InjOn (p.selfPoint toExclude) (chosen h toExclude))) := by
  obtain ⟨st, hbest, -⟩ := choosesBest h hpoint hnodup hleaves
  have hplan := plan_eq_some_iff h hpoint hnodup hleaves
  have hlength : (recordsOf h toExclude).length = (chosen h toExclude).card := by
    rw [recordsOf, List.length_map, Finset.length_sort (· ≤ ·)]
  refine ⟨st, _, hbest, ?_, ?_⟩
  · intro hall
    -- a sort that throws wherever it may shows that the condition is needed
    obtain ⟨plan, hrun, -⟩ := hall checkedSort sortsRecords_checkedSort
    obtain ⟨hcov, hsort, -, -, hserial⟩ := (hplan _ _).mp hrun
    refine ⟨by rw [hserial]; rfl, hcov, ?_⟩
    rw [← hlength, ← pairwise_recordsOf_iff h]
    exact (checkedSort_isSome_iff _).mp (by rw [hsort]; rfl)
  · rintro ⟨hserial, hcov, hrecords⟩ sort hsort
    obtain ⟨serialTime, hserial⟩ := Option.isSome_iff_exists.mp hserial
    have hsome : (sort (recordsOf h toExclude)).isSome := by
      rcases hrecords with hfew | hinj
      · exact hsort.few _ (by rw [hlength]; exact hfew)
      · exact hsort.lawful _ ((pairwise_recordsOf_iff h).mpr hinj)
          fun x _ y _ z _ => CRegionRecord.transitive x y z
    obtain ⟨list, hlist⟩ := Option.isSome_iff_exists.mp hsome
    obtain ⟨hperm, hordered⟩ := hsort.sorted _ _ hlist
    refine ⟨⟨list, p.target, _, serialTime⟩, (hplan _ _).mpr ⟨hcov, hlist, rfl, rfl, hserial⟩,
      ?_, hordered fun record hrecord => ?_, rfl⟩
    · refine (hperm.map _).trans (List.Perm.of_eq ?_)
      rw [recordsOf, List.map_map]
      exact List.map_id _
    · obtain ⟨r, -, rfl⟩ := List.mem_map.mp hrecord
      exact Double.noConfusion

/-- `main` and two loops in it, for four cores. -/
def twoLoops : NoNestPlanner where
  analyzer := CRegionManager.mainWithLoops.regionMap
  root := 1
  target := ⟨4, 0⟩

/-- The two loops are worth more than `main`, and there is a plan of them. -/
theorem plan_optimal_twoLoops :
    IsGreatest {m | ∃ S : Finset ℕ, (∀ r ∈ S, r ∈ twoLoops.analyzer.keys) ∧
        IsAntichain twoLoops.Nests (S : Set ℕ) ∧ ∑ r ∈ S, twoLoops.selfPoint ∅ r = m} (135 / 2) ∧
      ∀ sort, SortsRecords sort → ∃ plan, twoLoops.plan sort ∅ 3 [2, 3] = some plan ∧
        (plan.list.map (·.info)).Perm [2, 3] ∧ plan.totalReduction = .fin (135 / 2) := by
  have hpoint : ∀ r ∈ twoLoops.analyzer.keys,
      ∃ q, 0 ≤ q ∧ twoLoops.getSelfPoint r ∅ = some (.fin q) := by
    intro r hr
    have hr : r = 1 ∨ r = 2 ∨ r = 3 := by
      simpa [twoLoops, CRegionManager.mainWithLoops] using hr
    rcases hr with rfl | rfl | rfl
    · exact ⟨50, by decide, by decide +kernel⟩
    · exact ⟨45, by decide, by decide +kernel⟩
    · exact ⟨45 / 2, by decide +kernel, by decide +kernel⟩
  have hleaves : ∀ r, r ∈ [2, 3] ↔ ∃ R, twoLoops.analyzer.get r = some R ∧ R.children = [] := by
    intro r
    rcases r with _ | _ | _ | _ | r
    all_goals simp [twoLoops, CRegionManager.mainWithLoops]
  obtain ⟨st, point, hbest, hplan⟩ := plan_optimal twoLoops CRegionManager.mainWithLoops_isTree ∅
    hpoint [2, 3] (by decide) hleaves
  -- what the loop leaves for this file
  have hvalue : (twoLoops.evaluate ∅ 3 [2, 3]).bind (fun st =>
      some (st.setMap 1, st.pointMap 1)) = some (some {2, 3}, some (.fin (135 / 2))) := by
    decide +kernel
  rw [show twoLoops.evaluate ∅ 3 [2, 3] = some st from hbest.run] at hvalue
  obtain ⟨hset, htotal⟩ := Prod.mk.inj (Option.some.inj hvalue)
  obtain rfl : point = 135 / 2 := by
    have h := hbest.point_root.symm.trans htotal
    simpa using h
  have hchosen := Option.some.inj (hbest.set_root.symm.trans hset)
  have hsort : ({2, 3} : Finset ℕ).sort (· ≤ ·) = [2, 3] := by
    rw [Finset.sort_insert _ (by decide) (by decide), Finset.sort_singleton]
  rw [hchosen, hsort] at hplan
  refine ⟨hbest.greatest, fun sort hconforms => ?_⟩
  obtain ⟨plan, hrun, hinfos, -, hreduction⟩ := hplan.mpr
    ⟨by decide +kernel, by decide +kernel, .inl (by decide)⟩ sort hconforms
  exact ⟨plan, hrun, hinfos, hreduction⟩

/-- `main` calls `f`, which calls `g`, which calls `f` again, which calls `h`: the profiler puts
`h` below `f`, next to `g`, though the work of `h` is part of that of `g`. -/
def piledRegions : NoNestPlanner where
  analyzer :=
    { keys := [1, 2, 3, 4, 5]
      get := fun
        | 1 => some ⟨1, .normal, false, [⟨1, 100, 100, 100, 0, 0, 0, 0, 0, .fin 0⟩],
            none, none, [2], 1⟩
        | 2 => some ⟨2, .recInit, true, [⟨1, 100, 100, 100, 0, 0, 0, 0, 0, .fin 0⟩,
            ⟨1, 80, 80, 80, 0, 0, 0, 0, 0, .fin 0⟩], none, some 1, [5, 3], 2⟩
        | 3 => some ⟨3, .recNorm, true, [⟨1, 90, 9, 9, 0, 0, 0, 0, 0, .fin 0⟩],
            none, some 2, [4], 1⟩
        | 4 => some ⟨4, .recSink, true, [⟨1, 80, 80, 80, 0, 0, 0, 0, 0, .fin 0⟩],
            some 2, some 3, [], 1⟩
        | 5 => some ⟨5, .recNorm, true, [⟨1, 70, 7, 7, 0, 0, 0, 0, 0, .fin 0⟩],
            none, some 2, [], 1⟩
        | _ => none }
  root := 1
  target := ⟨4, 0⟩

/-- The example is a tree. -/
theorem piledRegions_isTree : piledRegions.manager.IsTree where
  total k := by
    match k with
    | 0 | 1 | 2 | 3 | 4 | 5 => decide
    | k + 6 => simp [manager, piledRegions]
  child q Q hQ := by
    match q, hQ with
    | 1, hQ | 2, hQ | 3, hQ | 4, hQ | 5, hQ =>
        cases hQ
        decide
  parent c q hq := by
    match c, hq with
    | 2, hq | 3, hq | 4, hq | 5, hq =>
        cases hq
        exact ⟨_, rfl, by decide⟩
  nodup q Q hQ := by
    match q, hQ with
    | 1, hQ | 2, hQ | 3, hQ | 4, hQ | 5, hQ =>
        cases hQ
        decide
  root := by decide
  single := by decide
  acyclic := by
    refine ⟨fun r => if r = 5 then 3 else r, fun c q hq => ?_⟩
    match c, hq with
    | 2, hq | 3, hq | 4, hq | 5, hq =>
        cases hq
        decide

/-- The plan would be `g` and `h`, which cover 160 per cent: the assertion fails. -/
theorem piledRegions_noPlan :
    piledRegions.manager.IsTree ∧
      (∀ r ∈ piledRegions.analyzer.keys,
        ∃ q, 0 ≤ q ∧ piledRegions.getSelfPoint r ∅ = some (.fin q)) ∧
      (∀ r, r ∈ [4, 5] ↔ ∃ R, piledRegions.analyzer.get r = some R ∧ R.children = []) ∧
      ∀ sort, piledRegions.plan sort ∅ 5 [4, 5] = none := by
  have hpoint : ∀ r ∈ piledRegions.analyzer.keys,
      ∃ q, 0 ≤ q ∧ piledRegions.getSelfPoint r ∅ = some (.fin q) := by
    intro r hr
    have hr : r = 1 ∨ r = 2 ∨ r = 3 ∨ r = 4 ∨ r = 5 := by simpa [piledRegions] using hr
    rcases hr with rfl | rfl | rfl | rfl | rfl
    · exact ⟨0, by decide, by decide +kernel⟩
    · exact ⟨0, by decide, by decide +kernel⟩
    · exact ⟨135 / 2, by decide +kernel, by decide +kernel⟩
    · exact ⟨0, by decide, by decide +kernel⟩
    · exact ⟨105 / 2, by decide +kernel, by decide +kernel⟩
  have hleaves : ∀ r, r ∈ [4, 5] ↔
      ∃ R, piledRegions.analyzer.get r = some R ∧ R.children = [] := by
    intro r
    match r with
    | 0 | 1 | 2 | 3 | 4 | 5 => simp [piledRegions]
    | r + 6 => simp [piledRegions]
  refine ⟨piledRegions_isTree, hpoint, hleaves, fun sort => ?_⟩
  obtain ⟨st, hbest, -⟩ := choosesBest piledRegions_isTree hpoint (by decide) hleaves
  -- regions 3 and 5 are chosen, which cover more than the whole run
  have hvalue : (piledRegions.evaluate ∅ 5 [4, 5]).bind (fun st => st.setMap 1)
      = some {3, 5} := by decide +kernel
  rw [show piledRegions.evaluate ∅ 5 [4, 5] = some st from hbest.run] at hvalue
  have hchosen := Option.some.inj (hbest.set_root.symm.trans hvalue)
  rw [Option.eq_none_iff_forall_ne_some]
  intro plan hplan
  have hcov := ((plan_eq_some_iff piledRegions_isTree hpoint (by decide) hleaves sort plan).mp
    hplan).1
  rw [hchosen] at hcov
  exact absurd hcov (by decide +kernel)

end NoNestPlanner

end Kremlin.Planner
