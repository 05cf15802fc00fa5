/-
  Kremlin.Planner.PlanPrinter — what is printed of a plan.

  `PlanPrinter.print`, with `getCoverage` and `getTimeReduction` of
  `CRegionManager.java`.  The printer stops at the first region below the
  threshold.  The plan is sorted by the saving on the target's cores and the
  threshold is about the ideal one, so a region above the threshold may come
  after one below it.

  The lines above the list and the texts of the regions are left out.

  Main results:
    * `plan_records`, `plan_sortsTo` — the regions of a plan, and their order;
    * `print_complete_iff` — when all are printed that should be.
-/
import Kremlin.Planner.NoNestPlanner
import Kremlin.Planner.RegionForest
import Mathlib.Data.List.TakeWhile

namespace Kremlin.Planner

open Kremlin.Library

/-! ## §1. The printer. -/

namespace CRegionManager

/-- A share of the root's total work. -/
def getCoverage (m : CRegionManager) (region : ℕ) : Option Double := do
  let region ← m.regionMap.get region
  let root ← m.regionMap.get m.root
  some (((Double.fin (← region.getTotalWork)).div (.fin (← root.getTotalWork))).mul (.fin 100))

/-- What ideal parallelism would save. -/
def getTimeReduction (m : CRegionManager) (region : ℕ) : Option Double := do
  let coverage ← m.getCoverage region
  let region ← m.regionMap.get region
  let selfP ← region.getSelfP
  some (coverage.mul ((Double.fin 1).sub ((Double.fin 1).div selfP)))

/-- The loop of `print`: the records it prints, with their numbers. -/
def printRecords (m : CRegionManager) (threshold : Double) :
    ℕ → List CRegionRecord → Option (List (ℕ × CRegionRecord))
  | _, [] => some []
  | index, each :: list => do
      let reduction ← m.getTimeReduction each.info
      if reduction.lt threshold then some []
      else do
        let rest ← m.printRecords threshold (index + 1) list
        some ((index, each) :: rest)

/-- `PlanPrinter.print`. -/
def print (m : CRegionManager) (plan : Plan) (threshold : Double) :
    Option (List (ℕ × CRegionRecord)) :=
  m.printRecords threshold 0 plan.list

end CRegionManager

/-! ## §2. Stopping early. -/

/-- A list stops at its first bad item exactly when no good item comes later. -/
theorem takeWhile_eq_filter_iff {α : Type} (P : α → Bool) (xs : List α) :
    xs.takeWhile P = xs.filter P ↔ xs.Pairwise fun x y => P x = false → P y = false := by
  induction xs with
  | nil => simp
  | cons x xs ih =>
      rw [List.pairwise_cons]
      by_cases hx : P x = true
      · rw [List.takeWhile_cons_of_pos hx, List.filter_cons_of_pos hx, List.cons_inj_right, ih]
        have hfree : ∀ y ∈ xs, P x = false → P y = false := by
          intro y _ hno
          rw [hx] at hno
          cases hno
        exact ⟨fun h => ⟨hfree, h⟩, fun h => h.2⟩
      · rw [List.takeWhile_cons_of_neg hx, List.filter_cons_of_neg hx]
        have hx' : P x = false := by simpa using hx
        constructor
        · intro h
          have hnone : ∀ y ∈ xs, P y = false := by
            intro y hy
            by_contra hyes
            have hmem : y ∈ xs.filter P := List.mem_filter.mpr ⟨hy, by simpa using hyes⟩
            rw [← h] at hmem
            cases hmem
          exact ⟨fun y hy _ => hnone y hy, List.pairwise_of_forall_mem_list fun a _ b hb _ => hnone b hb⟩
        · rintro ⟨h, -⟩
          refine (List.filter_eq_nil_iff.mpr fun y hy => ?_).symm
          rw [h y hy hx']
          simp

/-- The loop prints up to the first record below the threshold. -/
theorem CRegionManager.printRecords_eq {m : CRegionManager} {threshold : Double}
    {reduction : ℕ → Double} :
    ∀ {list : List CRegionRecord} (index : ℕ),
      (∀ record ∈ list, m.getTimeReduction record.info = some (reduction record.info)) →
      ∃ printed, m.printRecords threshold index list = some printed ∧
        printed.map Prod.snd = list.takeWhile fun record =>
          !(reduction record.info).lt threshold := by
  intro list
  induction list with
  | nil => exact fun index _ => ⟨[], rfl, rfl⟩
  | cons record list ih =>
      intro index h
      unfold CRegionManager.printRecords
      rw [h record List.mem_cons_self]
      simp only [Option.bind_eq_bind, Option.bind_some]
      by_cases hlt : (reduction record.info).lt threshold = true
      · rw [if_pos hlt, List.takeWhile_cons_of_neg (by simp [hlt])]
        exact ⟨[], rfl, rfl⟩
      · rw [if_neg hlt, List.takeWhile_cons_of_pos (by simpa using hlt)]
        obtain ⟨printed, hrun, hprinted⟩ :=
          ih (index + 1) fun r hr => h r (List.mem_cons_of_mem _ hr)
        rw [hrun]
        refine ⟨(index, record) :: printed, rfl, ?_⟩
        rw [List.map_cons, hprinted]

/-! ## §3. Reductions are numbers. -/

namespace NoNestPlanner

variable {p : NoNestPlanner} {toExclude : Finset ℕ} {r : ℕ}

/-- What a coverage is computed from, when it passes its assertion: the work of
the root is not zero. -/
theorem of_getCoverage {x : Double} (hx : p.getCoverage r = some x) :
    ∃ R root work rootWork, p.analyzer.get r = some R ∧ p.analyzer.get p.root = some root ∧
      R.getTotalWork = some work ∧ root.getTotalWork = some rootWork ∧ rootWork ≠ 0 ∧
      (work = 0 → x = .fin 0) := by
  obtain ⟨hfin, -⟩ := getCoverage_eq_some hx
  unfold getCoverage getSerialTime CRegion.getAvgWork at hx
  simp only [Option.bind_eq_bind, Option.bind_eq_some_iff] at hx
  obtain ⟨totalTime, ⟨root, hroot, avg, ⟨stat, hstat, havg⟩, htotal⟩, R, hR, work, hwork, hx⟩ := hx
  obtain rfl := Option.some.inj htotal
  have hx : ((Double.fin work).mul (.fin 100)).div (.fin avg) = x := by
    split at hx
    · exact Option.some.inj hx
    · cases hx
  -- a division by zero gives no number
  have havg0 : (avg : ℚ) ≠ 0 := by
    intro h0
    rw [hfin, h0] at hx
    unfold Double.mul Double.div Double.infinity at hx
    simp only [ne_eq, not_true_eq_false, if_false] at hx
    split at hx
    · cases hx
    · split at hx <;> cases hx
  refine ⟨R, root, work, stat.getTotalWork, hR, hroot, hwork, ?_, ?_, ?_⟩
  · unfold CRegion.getTotalWork
    rw [hstat]
    rfl
  · -- an average of no work would be zero
    intro h0
    unfold CRegionStat.getAvgWork at havg
    split at havg
    · cases havg
    · rw [h0, Nat.zero_div] at havg
      rw [← Option.some.inj havg] at havg0
      exact havg0 rfl
  · intro h0
    rw [← hx, h0]
    show Double.div (.fin ((0 : ℕ) * 100)) (.fin avg) = .fin 0
    rw [Double.fin_div havg0, Nat.cast_zero, zero_mul, zero_div]

/-- A speedup without a self-parallelism is no number. -/
theorem getSpeedup_nan {R : CRegion} {speedup : Double} (hR : p.analyzer.get r = some R)
    (hself : R.getSelfP = some .nan) (h : p.getSpeedup r = some speedup) : speedup = .nan := by
  unfold getSpeedup getParallelTime at h
  simp only [Option.bind_eq_bind, Option.bind_eq_some_iff, hR, hself, Option.bind_some] at h
  obtain ⟨parallelTime, ⟨avg, -, hpar⟩, serialTime, -, h⟩ := h
  have hpar : parallelTime = .nan := by
    rw [← Option.some.inj hpar]
    show (((Double.fin avg).div .nan).add _) = _
    rw [Double.div_nan, Double.nan_add]
  rw [← Option.some.inj h, hpar, if_neg (by cases serialTime <;> exact Bool.false_ne_true),
    Double.div_nan]

/-- A point that is not zero is what the speedup saves of the coverage, and both
are numbers; the coverage is not zero. -/
theorem of_point {cov speedup : Double} {q : ℚ} (hq : 0 < q)
    (h : (if (if (cov.sub (cov.div speedup)).le (.fin 0) then .fin 0
        else cov.sub (cov.div speedup)).le (.fin 100)
      then some (if (cov.sub (cov.div speedup)).le (.fin 0) then Double.fin 0
        else cov.sub (cov.div speedup)) else none) = some (.fin q)) :
    speedup ≠ .nan ∧ cov ≠ .fin 0 := by
  -- the point is positive, so nothing was cut off
  have hself : cov.sub (cov.div speedup) = .fin q := by
    generalize cov.sub (cov.div speedup) = point at h
    by_cases hneg : point.le (.fin 0) = true
    · rw [if_pos hneg, if_pos (by decide)] at h
      rw [← Double.fin.inj (Option.some.inj h)] at hq
      exact absurd hq (lt_irrefl 0)
    · rw [if_neg hneg] at h
      split at h
      · exact Option.some.inj h
      · cases h
  constructor
  · rintro rfl
    rw [Double.div_nan, Double.sub_nan] at hself
    cases hself
  · rintro rfl
    have hdiv : (Double.fin 0).div speedup = .fin 0 ∨ (Double.fin 0).div speedup = .nan := by
      cases speedup with
      | fin b =>
          by_cases hb : b = 0
          · rw [hb]
            exact Or.inr rfl
          · rw [Double.fin_div hb, zero_div]
            exact Or.inl rfl
      | nan => exact Or.inr rfl
      | _ => exact Or.inl rfl
    rcases hdiv with hdiv | hdiv
    · rw [hdiv] at hself
      have hzero : (0 : ℚ) + -0 = q := Double.fin.inj hself
      rw [neg_zero, add_zero] at hzero
      exact absurd hq (hzero ▸ lt_irrefl 0)
    · rw [hdiv, Double.sub_nan] at hself
      cases hself

/-- **The reduction of a region with a point is a number**: its self-parallelism
is one, and neither its coverage nor the work of the root is zero. -/
theorem getTimeReduction_of_point {q : ℚ} (hq : 0 < q)
    (hpoint : p.getSelfPoint r toExclude = some (.fin q)) :
    ∃ reduction, p.manager.getTimeReduction r = some reduction ∧ reduction ≠ .nan := by
  unfold getSelfPoint at hpoint
  split at hpoint
  · cases hpoint
    exact absurd hq (lt_irrefl 0)
  simp only [Option.bind_eq_bind, Option.bind_eq_some_iff] at hpoint
  obtain ⟨R, hR, hpoint⟩ := hpoint
  split at hpoint
  · cases hpoint
    exact absurd hq (lt_irrefl 0)
  simp only [Option.bind_eq_some_iff] at hpoint
  obtain ⟨speedup, hspeedup, cov, hcov, hpoint⟩ := hpoint
  obtain ⟨hspeed, hcov0⟩ := of_point hq hpoint
  obtain ⟨R', root, work, rootWork, hR', hroot, hwork, hrootWork, hne, hzero⟩ := of_getCoverage hcov
  obtain rfl := Option.some.inj (hR.symm.trans hR')
  have hrootWork0 : (rootWork : ℚ) ≠ 0 := Nat.cast_ne_zero.mpr hne
  have hwork0 : (work : ℚ) ≠ 0 := Nat.cast_ne_zero.mpr fun h0 => hcov0 (hzero h0)
  -- the self-parallelism is a number, as the speedup is one
  obtain ⟨selfP, hselfP⟩ : ∃ selfP, R.getSelfP = some selfP := by
    unfold getSpeedup getParallelTime at hspeedup
    simp only [Option.bind_eq_bind, Option.bind_eq_some_iff, hR, Option.bind_some] at hspeedup
    obtain ⟨-, ⟨selfP, hselfP, -⟩, -⟩ := hspeedup
    exact ⟨selfP, hselfP⟩
  have hself : selfP ≠ .nan := by
    rintro rfl
    exact hspeed (getSpeedup_nan hR hselfP hspeedup)
  refine ⟨(((Double.fin work).div (.fin rootWork)).mul (.fin 100)).mul
    ((Double.fin 1).sub ((Double.fin 1).div selfP)), ?_, ?_⟩
  · unfold CRegionManager.getTimeReduction CRegionManager.getCoverage
    simp only [manager, hR, hroot, hwork, hrootWork, hselfP, Option.bind_eq_bind, Option.bind_some]
  · rw [Double.fin_div hrootWork0]
    exact Double.mul_saved_ne_nan (mul_ne_zero (div_ne_zero hwork0 hrootWork0) (by decide)) hself

/-! ## §4. The regions of a plan. -/

/-- A region whose point is more than nothing. -/
def HasPoint (p : NoNestPlanner) (toExclude : Finset ℕ) (r : ℕ) : Prop :=
  ∃ q : ℚ, 0 < q ∧ p.getSelfPoint r toExclude = some (.fin q)

/-- Points are not negative, and only regions with a point are in a set. -/
structure PointsOk (p : NoNestPlanner) (toExclude : Finset ℕ) (st : PlanState) : Prop where
  point : ∀ r d, st.pointMap r = some d → ∃ q : ℚ, 0 ≤ q ∧ d = .fin q
  set : ∀ r S, st.setMap r = some S → ∀ x ∈ S, p.HasPoint toExclude x

/-- A self point passes its assertion only as a percentage. -/
theorem getSelfPoint_fin {x : Double} (hx : p.getSelfPoint r toExclude = some x) :
    ∃ q : ℚ, 0 ≤ q ∧ x = .fin q := by
  unfold getSelfPoint at hx
  split at hx
  · exact ⟨0, le_refl 0, (Option.some.inj hx).symm⟩
  simp only [Option.bind_eq_bind, Option.bind_eq_some_iff] at hx
  obtain ⟨R, -, hx⟩ := hx
  split at hx
  · exact ⟨0, le_refl 0, (Option.some.inj hx).symm⟩
  simp only [Option.bind_eq_some_iff] at hx
  obtain ⟨speedup, -, cov, -, hx⟩ := hx
  generalize cov.sub (cov.div speedup) = point at hx
  by_cases hneg : point.le (.fin 0) = true
  · rw [if_pos hneg] at hx
    split at hx
    · exact ⟨0, le_refl 0, (Option.some.inj hx).symm⟩
    · cases hx
  · rw [if_neg hneg] at hx
    split at hx
    · next hle =>
        rw [← Option.some.inj hx]
        cases point with
        | fin q => exact ⟨q, (not_le.mp fun h => hneg ((Double.fin_le q 0).mpr h)).le, rfl⟩
        | posInf => cases hle
        | negInf => exact absurd rfl hneg
        | nan => cases hle
    · cases hx

/-- Sums of points are points. -/
theorem getChildrenPoint_fin {st : PlanState}
    (h : ∀ r d, st.pointMap r = some d → ∃ q : ℚ, 0 ≤ q ∧ d = .fin q) {region : CRegion}
    {x : Double} (hx : getChildrenPoint st region = some x) : ∃ q : ℚ, 0 ≤ q ∧ x = .fin q := by
  have hloop : ∀ (xs : List ℕ) (a : ℚ), 0 ≤ a →
      xs.foldlM (fun sum child => (st.pointMap child).bind fun point => some (sum.add point))
        (Double.fin a) = some x → ∃ q : ℚ, 0 ≤ q ∧ x = .fin q := by
    intro xs
    induction xs with
    | nil => exact fun a ha hrun => ⟨a, ha, (Option.some.inj hrun).symm⟩
    | cons c xs ih =>
        intro a ha hrun
        rw [List.foldlM_cons] at hrun
        obtain ⟨sum, hsum, hrun⟩ := Option.bind_eq_some_iff.mp hrun
        obtain ⟨point, hpoint, hsum⟩ := Option.bind_eq_some_iff.mp hsum
        obtain ⟨b, hb, rfl⟩ := h c point hpoint
        rw [← Option.some.inj hsum] at hrun
        exact ih (a + b) (add_nonneg ha hb) hrun
  exact hloop region.children 0 (le_refl 0) hx

/-- A member of the union comes from a child. -/
theorem getChildrenUnionSet_mem {st : PlanState} {region : CRegion} {S : Finset ℕ}
    (hS : getChildrenUnionSet st region = some S) {x : ℕ} (hx : x ∈ S) :
    ∃ c T, st.setMap c = some T ∧ x ∈ T := by
  have hloop : ∀ (xs : List ℕ) (a : Finset ℕ),
      xs.foldlM (fun ret child => (st.setMap child).bind fun set => some (ret ∪ set)) a = some S →
      x ∈ a ∨ ∃ c T, st.setMap c = some T ∧ x ∈ T := by
    intro xs
    induction xs with
    | nil => exact fun a hrun => Or.inl (Option.some.inj hrun ▸ hx)
    | cons c xs ih =>
        intro a hrun
        rw [List.foldlM_cons] at hrun
        obtain ⟨b, hb, hrun⟩ := Option.bind_eq_some_iff.mp hrun
        obtain ⟨T, hT, hb⟩ := Option.bind_eq_some_iff.mp hb
        rw [← Option.some.inj hb] at hrun
        rcases ih _ hrun with hin | hout
        · rcases Finset.mem_union.mp hin with hin | hin
          · exact Or.inl hin
          · exact Or.inr ⟨c, T, hT, hin⟩
        · exact Or.inr hout
  rcases hloop region.children ∅ hS with hin | hout
  · exact absurd hin (Finset.notMem_empty x)
  · exact hout

/-- **One turn of the loop** takes a region into a set only for a point. -/
theorem planStep_pointsOk {st : PlanState} {current : ℕ} {next : PlanState × List ℕ}
    (hst : PointsOk p toExclude st) (hstep : p.planStep toExclude st current = some next) :
    PointsOk p toExclude next.1 := by
  unfold planStep at hstep
  simp only [Option.bind_eq_bind, Option.bind_eq_some_iff] at hstep
  obtain ⟨region, -, childrenPoint, hchildren, selfPoint, hself, ⟨bestSet, bestPoint⟩, hbest, hstep⟩ :=
    hstep
  obtain ⟨a, ha, rfl⟩ := getChildrenPoint_fin hst.point hchildren
  obtain ⟨q, hq, rfl⟩ := getSelfPoint_fin hself
  -- either the region itself is best, or what its children chose
  have hok : (∃ b : ℚ, 0 ≤ b ∧ bestPoint = .fin b) ∧ ∀ x ∈ bestSet, p.HasPoint toExclude x := by
    split at hbest
    · next hlt =>
        obtain ⟨rfl, rfl⟩ := Prod.mk.inj (Option.some.inj hbest)
        refine ⟨⟨q, hq, rfl⟩, fun x hx => ?_⟩
        rw [Finset.mem_singleton.mp hx]
        exact ⟨q, lt_of_le_of_lt ha ((Double.fin_lt a q).mp hlt), hself⟩
    · simp only [Option.bind_eq_some_iff] at hbest
      obtain ⟨S, hS, hbest⟩ := hbest
      obtain ⟨rfl, rfl⟩ := Prod.mk.inj (Option.some.inj hbest)
      refine ⟨⟨a, ha, rfl⟩, fun x hx => ?_⟩
      obtain ⟨c, T, hT, hxT⟩ := getChildrenUnionSet_mem hS hx
      exact hst.set c T hT x hxT
  have hset : PointsOk p toExclude (setParallelRegionSet
      { st with retired := if current ∈ st.retired then st.retired else st.retired ++ [current] }
      current bestSet bestPoint) := by
    constructor
    · intro r d hd
      by_cases hr : r = current
      · rw [hr] at hd
        obtain rfl : bestPoint = d := by simpa [setParallelRegionSet] using hd
        exact hok.1
      · exact hst.point r d (by simpa [setParallelRegionSet, hr] using hd)
    · intro r S hS
      by_cases hr : r = current
      · rw [hr] at hS
        obtain rfl : bestSet = S := by simpa [setParallelRegionSet] using hS
        exact hok.2
      · exact hst.set r S (by simpa [setParallelRegionSet, hr] using hS)
  split at hstep
  · exact Option.some.inj hstep ▸ hset
  · obtain ⟨ready, -, hstep⟩ := Option.bind_eq_some_iff.mp hstep
    exact Option.some.inj hstep ▸ hset

/-- One record for each region, in order. -/
theorem addRecords_infos {st : PlanState} :
    ∀ (xs : List ℕ) {ret ret' : List CRegionRecord × Double},
      xs.foldlM (p.addRecord st) ret = some ret' →
      ret'.1.map (·.info) = ret.1.map (·.info) ++ xs := by
  intro xs
  induction xs with
  | nil =>
      intro ret ret' h
      rw [← Option.some.inj h, List.append_nil]
  | cons r xs ih =>
      intro ret ret' h
      rw [List.foldlM_cons] at h
      obtain ⟨next, hnext, h⟩ := Option.bind_eq_some_iff.mp h
      have hinfo : next.1.map (·.info) = ret.1.map (·.info) ++ [r] := by
        unfold addRecord at hnext
        simp only [Option.bind_eq_bind, Option.bind_eq_some_iff] at hnext
        obtain ⟨timeSaved, -, coverage, -, hnext⟩ := hnext
        split at hnext
        · rw [← Option.some.inj hnext, List.map_append]
          rfl
        · cases hnext
      rw [ih h, hinfo, List.append_assoc]
      rfl

/-- What a record saves is the point of its region. -/
theorem addRecords_timeSave {st : PlanState} :
    ∀ (xs : List ℕ) {ret ret' : List CRegionRecord × Double},
      (∀ record ∈ ret.1, st.pointMap record.info = some record.timeSave) →
      xs.foldlM (p.addRecord st) ret = some ret' →
      ∀ record ∈ ret'.1, st.pointMap record.info = some record.timeSave := by
  intro xs
  induction xs with
  | nil =>
      intro ret ret' hret h
      exact Option.some.inj h ▸ hret
  | cons r xs ih =>
      intro ret ret' hret h
      rw [List.foldlM_cons] at h
      obtain ⟨next, hnext, h⟩ := Option.bind_eq_some_iff.mp h
      refine ih (fun record hrecord => ?_) h
      unfold addRecord at hnext
      simp only [Option.bind_eq_bind, Option.bind_eq_some_iff] at hnext
      obtain ⟨timeSaved, htime, coverage, -, hnext⟩ := hnext
      split at hnext
      · rw [← Option.some.inj hnext] at hrecord
        rcases List.mem_append.mp hrecord with hold | hnew
        · exact hret record hold
        · rw [List.mem_singleton.mp hnew]
          exact htime
      · cases hnext

/-- The maps while the loop runs. -/
theorem pointsOk_of_evaluate {fuel : ℕ} {leaves : List ℕ} {st : PlanState}
    (hrun : p.evaluate toExclude fuel leaves = some st) : PointsOk p toExclude st := by
  have hinit : PointsOk p toExclude {} := ⟨fun r d h => (by cases h), fun r S h => (by cases h)⟩
  exact traverse_preserves (fun s x next hs hstep => planStep_pointsOk hs hstep) fuel leaves hinit
    hrun

/-- **What `plan` returns** are the records it added, sorted. -/
theorem plan_sortsTo {sort : List CRegionRecord → Option (List CRegionRecord)}
    (hsort : SortsRecords sort) {fuel : ℕ} {leaves : List ℕ} {plan : Plan}
    (hplan : p.plan sort toExclude fuel leaves = some plan) :
    ∃ unsorted, p.plan some toExclude fuel leaves = some unsorted ∧ unsorted.SortsTo plan := by
  unfold NoNestPlanner.plan at hplan ⊢
  simp only [Option.bind_eq_bind, Option.bind_eq_some_iff] at hplan
  obtain ⟨st, hrun, set, hset, ret, hret, list, hlist, totalReduction, htotal, serialTime, hserial,
    hplan⟩ := hplan
  obtain ⟨hperm, hordered⟩ := hsort.sorted _ _ hlist
  refine ⟨⟨ret.1, p.target, totalReduction, serialTime⟩, ?_, ?_⟩
  · simp only [Option.bind_eq_bind, hrun, hset, hret, htotal, hserial, Option.bind_some]
  · rw [← Option.some.inj hplan]
    refine ⟨rfl, hperm, hordered fun record hrecord => ?_⟩
    obtain ⟨q, -, hq⟩ := (pointsOk_of_evaluate hrun).point record.info record.timeSave
      (addRecords_timeSave _ (fun _ h => (by cases h)) hret record hrecord)
    rw [hq]
    exact Double.noConfusion

/-- **The records of a plan** are of different regions, and each has a point. -/
theorem plan_records {fuel : ℕ} {leaves : List ℕ} {plan : Plan}
    (hplan : p.plan some toExclude fuel leaves = some plan) :
    (plan.list.map (·.info)).Nodup ∧ ∀ record ∈ plan.list, p.HasPoint toExclude record.info := by
  unfold NoNestPlanner.plan at hplan
  simp only [Option.bind_eq_bind, Option.bind_eq_some_iff] at hplan
  obtain ⟨st, hrun, set, hset, ret, hret, list, hlist, totalReduction, -, serialTime, -, hplan⟩ :=
    hplan
  obtain rfl := Option.some.inj hlist
  have hst := pointsOk_of_evaluate hrun
  have hinfos : plan.list.map (·.info) = set.sort (· ≤ ·) := by
    rw [← Option.some.inj hplan]
    exact addRecords_infos _ hret
  rw [hinfos]
  refine ⟨Finset.sort_nodup _ _, fun record hrecord => ?_⟩
  have hmem : record.info ∈ plan.list.map (·.info) := List.mem_map_of_mem hrecord
  rw [hinfos] at hmem
  exact hst.set p.root set hset record.info ((Finset.mem_sort _).mp hmem)

/-! ## §5. When the print is complete. -/

/-- **A printed plan is complete exactly when it is ordered for its threshold.**
For every plan and every threshold: the plan names each region once, the
reductions of its regions are numbers, and the regions printed are those at the
threshold or above it if and only if no such region comes after one below.  A
threshold that is no number prints everything. -/
theorem print_complete_iff (p : NoNestPlanner) (toExclude : Finset ℕ) (fuel : ℕ)
    (leaves : List ℕ) {unsorted plan : Plan}
    (hplan : p.plan some toExclude fuel leaves = some unsorted) (hsort : unsorted.SortsTo plan)
    (threshold : Double) :
    (plan.list.map (·.info)).Nodup ∧
      ∃ (reduction : ℕ → Double) (printed : List (ℕ × CRegionRecord)),
        (∀ record ∈ plan.list,
          p.manager.getTimeReduction record.info = some (reduction record.info)) ∧
        p.manager.print plan threshold = some printed ∧
        (printed.map Prod.snd
            = plan.list.filter (fun record => threshold.le (reduction record.info)) ↔
          (threshold = .nan → plan.list = []) ∧
            plan.list.Pairwise fun record later =>
              (reduction record.info).lt threshold = true →
                (reduction later.info).lt threshold = true) := by
  obtain ⟨hnodup, hunsorted⟩ := plan_records hplan
  have hpoint : ∀ record ∈ plan.list, p.HasPoint toExclude record.info :=
    fun record hrecord => hunsorted record (hsort.perm.mem_iff.mp hrecord)
  -- the reduction of every printed region is a number
  let reduction : ℕ → Double := fun r => (p.manager.getTimeReduction r).getD .nan
  have hreduction : ∀ record ∈ plan.list,
      p.manager.getTimeReduction record.info = some (reduction record.info) ∧
        reduction record.info ≠ .nan := by
    intro record hrecord
    obtain ⟨q, hq, hself⟩ := hpoint record hrecord
    obtain ⟨x, hx, hne⟩ := getTimeReduction_of_point hq hself
    have hvalue : reduction record.info = x := by
      show (p.manager.getTimeReduction record.info).getD .nan = x
      rw [hx]
      rfl
    rw [hvalue]
    exact ⟨hx, hne⟩
  obtain ⟨printed, hrun, hprinted⟩ := @CRegionManager.printRecords_eq p.manager threshold reduction
    plan.list 0 fun record hrecord => (hreduction record hrecord).1
  refine ⟨(hsort.perm.map _).nodup_iff.mpr hnodup, reduction, printed,
    fun record hrecord => (hreduction record hrecord).1, hrun, ?_⟩
  rw [hprinted]
  by_cases hnan : threshold = .nan
  · -- nothing is below it, and nothing is at least it
    have hlt : ∀ x : Double, x.lt threshold = false := by
      rw [hnan]
      intro x
      cases x <;> rfl
    have hle : ∀ x : Double, threshold.le x = false := by
      rw [hnan]
      intro x
      cases x <;> rfl
    have hall : plan.list.takeWhile (fun _ => true) = plan.list :=
      List.takeWhile_eq_self_iff.mpr fun _ _ => rfl
    have hfree : plan.list.Pairwise fun _ _ => True :=
      List.pairwise_of_forall fun _ _ => trivial
    simp [hlt, hle, forall_prop_of_true hnan, hall, hfree]
  · have hfilter : plan.list.filter (fun record => threshold.le (reduction record.info))
        = plan.list.filter fun record => !(reduction record.info).lt threshold := by
      refine List.filter_congr fun record hrecord => ?_
      rw [Double.lt_eq_not_le (hreduction record hrecord).2 hnan, Bool.not_not]
    rw [hfilter, takeWhile_eq_filter_iff]
    simp [hnan]

/-- Two cores, and two loops in `main`: the first has just enough parallelism
for them, the second a hundred times the parallelism of its work. -/
def cappedLoops : NoNestPlanner where
  analyzer :=
    { keys := [1, 2, 3]
      get := fun
        | 1 => some ⟨1, .normal, false, [⟨1, 1000, 1000, 1000, 0, 0, 0, 0, 0, .fin 0⟩],
            none, none, [2, 3], 1⟩
        | 2 => some ⟨2, .normal, false, [⟨1, 400, 200, 200, 0, 0, 0, 0, 0, .fin 0⟩],
            none, some 1, [], 1⟩
        | 3 => some ⟨3, .normal, false, [⟨1, 300, 3, 3, 0, 0, 0, 0, 0, .fin 0⟩],
            none, some 1, [], 1⟩
        | _ => none }
  root := 1
  target := ⟨2, 0⟩

/-- The plan for `cappedLoops`. -/
def cappedPlan : Plan :=
  ⟨[⟨2, 2, .fin 20⟩, ⟨3, 2, .fin 15⟩], ⟨2, 0⟩, .fin 35, .fin 1000⟩

/-- The example's plan. -/
theorem cappedLoops_plan : cappedLoops.plan some ∅ 3 [2, 3] = some cappedPlan := by
  have hvalues : (cappedLoops.evaluate ∅ 3 [2, 3]).bind (fun st =>
        some (st.setMap 1, st.pointMap 1, st.pointMap 2, st.pointMap 3))
      = some (some {2, 3}, some (.fin 35), some (.fin 20), some (.fin 15)) := by decide +kernel
  obtain ⟨st, hrun, hst⟩ := Option.bind_eq_some_iff.mp hvalues
  obtain ⟨hset, hst⟩ := Prod.mk.inj (Option.some.inj hst)
  obtain ⟨hpoint, hst⟩ := Prod.mk.inj hst
  obtain ⟨htwo, hthree⟩ := Prod.mk.inj hst
  have hsort : ({2, 3} : Finset ℕ).sort (· ≤ ·) = [2, 3] := by
    rw [Finset.sort_insert _ (by decide) (by decide), Finset.sort_singleton]
  have hcov : cappedLoops.getCoverage 2 = some (.fin 40) ∧
      cappedLoops.getCoverage 3 = some (.fin 30) := by decide +kernel
  have hserial : cappedLoops.getSerialTime 1 = some (.fin 1000) := by decide +kernel
  have hsum : 0 + ([2, 3].map cappedLoops.coverage).sum ≤ 100 := by decide +kernel
  have hadd := @addRecords_eq cappedLoops st (fun r => if r = 2 then .fin 20 else .fin 15) [2, 3]
    (by simp [htwo, hthree, hcov]) [] 0 hsum
  unfold NoNestPlanner.plan
  rw [hrun]
  simp only [Option.bind_eq_bind, Option.bind_some]
  rw [show cappedLoops.root = 1 from rfl, hset, Option.bind_some, hsort, hadd]
  simp only [Option.bind_some, hpoint, hserial]
  rfl

/-- It is sorted already. -/
theorem cappedPlan_sortsTo : cappedPlan.SortsTo cappedPlan where
  same := rfl
  perm := List.Perm.refl _
  order := by decide +kernel

/-- With a threshold of 20 both loops are printed: the first reaches it, and so
does the second. -/
theorem print_complete_cappedLoops :
    ∃ (reduction : ℕ → Double) (printed : List (ℕ × CRegionRecord)),
      (∀ record ∈ cappedPlan.list,
        cappedLoops.manager.getTimeReduction record.info = some (reduction record.info)) ∧
      cappedLoops.manager.print cappedPlan (.fin 20) = some printed ∧
      printed.map Prod.snd = cappedPlan.list.filter
        fun record => (Double.fin 20).le (reduction record.info) := by
  obtain ⟨-, reduction, printed, hreduction, hprint, hiff⟩ :=
    print_complete_iff cappedLoops ∅ 3 [2, 3] cappedLoops_plan cappedPlan_sortsTo (.fin 20)
  have htwo : (reduction 2).lt (.fin 20) = false := by
    have h := hreduction ⟨2, 2, .fin 20⟩ (by decide)
    rw [show cappedLoops.manager.getTimeReduction 2 = some (.fin 20) by decide +kernel] at h
    rw [← Option.some.inj h]
    decide +kernel
  refine ⟨reduction, printed, hreduction, hprint, hiff.mpr ⟨fun h => (by cases h), ?_⟩⟩
  refine List.pairwise_pair.mpr fun h => ?_
  rw [htwo] at h
  cases h

/-- With a threshold of 25 nothing is printed, though the second loop would
reduce the time by 29.7 per cent. -/
theorem print_stops_early :
    cappedLoops.plan some ∅ 3 [2, 3] = some cappedPlan ∧ cappedPlan.SortsTo cappedPlan ∧
      cappedLoops.manager.print cappedPlan (.fin 25) = some [] ∧
      ⟨3, 2, .fin 15⟩ ∈ cappedPlan.list ∧
      cappedLoops.manager.getTimeReduction 3 = some (.fin (297 / 10)) ∧
      (Double.fin 25).le (.fin (297 / 10)) = true := by
  refine ⟨cappedLoops_plan, cappedPlan_sortsTo, ?_, by decide, ?_, ?_⟩
  · decide +kernel
  · decide +kernel
  · decide +kernel

end NoNestPlanner

end Kremlin.Planner
