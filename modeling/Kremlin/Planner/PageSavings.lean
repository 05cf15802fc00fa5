/-
  Kremlin.Planner.PageSavings — the self-parallelism of a recursive region.

  `computeSelfP` folds the savings of the deeper pages into those above, each
  saving weighted by the recursion weight.  On pages with positive,
  non-increasing work the saving of every page stays below the work of the page
  (`saving_step`, by induction from the last page), so no divisor is zero and
  the result is no smaller than the self-parallelism of page 0.
-/
import Kremlin.Planner.SelfParallelism
import Mathlib.Algebra.Order.Field.Basic
import Mathlib.Tactic.FieldSimp
import Mathlib.Tactic.Linarith
import Mathlib.Tactic.Positivity

namespace Kremlin.Planner

open Kremlin.Library

/-! ## §1. The pages of a recursive region. -/

/-- One page: some work, and no more self-parallel work than work. -/
structure CRegionStat.PageOk (stat : CRegionStat) : Prop where
  work_pos : 0 < stat.work
  spWork_pos : 0 < stat.spWork
  spWork_le : stat.spWork ≤ stat.work
  weight_nonneg : (Double.fin 0).le stat.rWeight = true
  weight_le_one : stat.rWeight.le (.fin 1) = true

/-- All pages, whose total works do not increase with the page index. -/
structure PagesOk (stats : List CRegionStat) : Prop where
  each : ∀ stat ∈ stats, stat.PageOk
  nonincreasing : stats.Pairwise fun stat deeper => deeper.work ≤ stat.work

/-- The self-parallelism of a page. -/
theorem CRegionStat.PageOk.getSelfP_eq {stat : CRegionStat} (h : stat.PageOk) :
    stat.getSelfP = .fin (stat.work / stat.spWork) ∧ 1 ≤ (stat.work / stat.spWork : ℚ) := by
  have hsp : (0 : ℚ) < stat.spWork := by exact_mod_cast h.spWork_pos
  have hle : (stat.spWork : ℚ) ≤ stat.work := by exact_mod_cast h.spWork_le
  refine ⟨if_pos hsp.ne', ?_⟩
  rw [le_div_iff₀ hsp]
  linarith

/-! ## §2. One round of the loop. -/

/-- What is left of the page's work after the saving of the deeper pages. -/
def adjustedWork (stat : CRegionStat) (saving weight : ℚ) : ℚ := stat.work - saving * weight

section Round

variable {stat : CRegionStat} {saving weight : ℚ} (h : stat.PageOk)
  (hsaving : 0 ≤ saving) (hbelow : saving < stat.work) (hweight : 0 ≤ weight) (hone : weight ≤ 1)

include hsaving hbelow hone in
/-- Some work is left on a page -/
theorem adjustedWork_pos : 0 < adjustedWork stat saving weight := by
  have hle : saving * weight ≤ saving := mul_le_of_le_one_right hsaving hone
  unfold adjustedWork
  linarith

include hsaving hweight in
/-- and no more than there was. -/
theorem adjustedWork_le : adjustedWork stat saving weight ≤ stat.work := by
  have hnonneg := mul_nonneg hsaving hweight
  unfold adjustedWork
  linarith

/-- The work that remains after the page's own parallelism. -/
def remainingWork (stat : CRegionStat) (saving weight : ℚ) : ℚ :=
  adjustedWork stat saving weight / (stat.work / stat.spWork)

include h hsaving hbelow hone in
/-- So the divisor is not zero. -/
theorem remainingWork_pos : 0 < remainingWork stat saving weight :=
  div_pos (adjustedWork_pos hsaving hbelow hone) (by linarith [h.getSelfP_eq.2])

include h hsaving hweight in
/-- At most the self-parallel work remains. -/
theorem remainingWork_le : remainingWork stat saving weight ≤ stat.spWork := by
  have hwork : (0 : ℚ) < stat.work := by exact_mod_cast h.work_pos
  have hsp : (0 : ℚ) < stat.spWork := by exact_mod_cast h.spWork_pos
  unfold remainingWork
  calc adjustedWork stat saving weight / (stat.work / stat.spWork)
      ≤ stat.work / (stat.work / stat.spWork) :=
        div_le_div_of_nonneg_right (adjustedWork_le hsaving hweight) (div_pos hwork hsp).le
    _ = stat.spWork := by field_simp

end Round

/-! ## §3. The loop. -/

variable {stats : List CRegionStat} {stat : CRegionStat}

/-- One round on exact numbers: the next saving is the work less what remains. -/
theorem computeSaving_cons (h : stat.PageOk) {saving weight : ℚ}
    (hsaving : CRegion.computeSaving stats = .fin saving) (hweight : stat.rWeight = .fin weight) :
    CRegion.computeSaving (stat :: stats)
      = .fin (stat.work - remainingWork stat saving weight) := by
  have hne : (stat.work / stat.spWork : ℚ) ≠ 0 := by linarith [h.getSelfP_eq.2]
  have hcons : CRegion.computeSaving (stat :: stats)
      = (Double.fin stat.work).sub
          (((Double.fin stat.work).sub ((CRegion.computeSaving stats).mul stat.rWeight)).div
            stat.getSelfP) := rfl
  rw [hcons, hsaving, hweight, h.getSelfP_eq.1]
  show (Double.fin stat.work).sub
    ((Double.fin (stat.work + -(saving * weight))).div (.fin (stat.work / stat.spWork))) = _
  rw [Double.fin_div hne]
  show Double.fin (stat.work + -((stat.work + -(saving * weight)) / (stat.work / stat.spWork))) = _
  simp only [← sub_eq_add_neg]
  rfl

/-- The saving of the pages that are done, and the page it was computed for. -/
structure SavingAt (stats : List CRegionStat) (saving : ℚ) : Prop where
  eq : CRegion.computeSaving stats = .fin saving
  nonneg : 0 ≤ saving
  below : ∀ stat ∈ stats.head?, saving < stat.work

/-- The invariant: one round keeps the saving between zero and the page's work,
and leaves at most the page's self-parallel work. -/
theorem saving_step (h : PagesOk (stat :: stats)) {saving : ℚ} (hsaving : SavingAt stats saving) :
    ∃ next, SavingAt (stat :: stats) next ∧ stat.work - next ≤ stat.spWork := by
  have hpage := h.each stat List.mem_cons_self
  obtain ⟨weight, hweight, hnonneg, hone⟩ :=
    Double.eq_fin_of_le hpage.weight_nonneg hpage.weight_le_one
  have hbelow : saving < stat.work := by
    cases stats with
    | nil =>
        have hzero : CRegion.computeSaving [] = .fin 0 := rfl
        rw [hsaving.eq, Double.fin.injEq] at hzero
        rw [hzero]
        exact_mod_cast hpage.work_pos
    | cons deeper stats =>
        have hle := (List.pairwise_cons.mp h.nonincreasing).1 deeper List.mem_cons_self
        calc saving < deeper.work := hsaving.below deeper rfl
          _ ≤ stat.work := by exact_mod_cast hle
  have hpos := remainingWork_pos hpage hsaving.nonneg hbelow hone
  have hle := remainingWork_le hpage hsaving.nonneg hnonneg
  have hsp : (stat.spWork : ℚ) ≤ stat.work := by exact_mod_cast hpage.spWork_le
  refine ⟨stat.work - remainingWork stat saving weight,
    ⟨computeSaving_cons hpage hsaving.eq hweight, by linarith, ?_⟩, by linarith⟩
  intro top htop
  have heq : stat = top := Option.some.inj htop
  rw [← heq]
  linarith

/-- The deeper pages are as good. -/
theorem PagesOk.tail (h : PagesOk (stat :: stats)) : PagesOk stats where
  each := fun stat hstat => h.each stat (List.mem_cons_of_mem _ hstat)
  nonincreasing := (List.pairwise_cons.mp h.nonincreasing).2

/-- The saving of any number of pages. -/
theorem exists_savingAt (h : PagesOk stats) : ∃ saving, SavingAt stats saving := by
  induction stats with
  | nil => exact ⟨0, rfl, le_refl 0, fun _ hstat => (Option.not_mem_none _ hstat).elim⟩
  | cons stat stats ih =>
      obtain ⟨saving, hsaving⟩ := ih h.tail
      obtain ⟨next, hnext, -⟩ := saving_step h hsaving
      exact ⟨next, hnext⟩

/-- So are all from a page on. -/
theorem PagesOk.drop (h : PagesOk stats) (i : ℕ) : PagesOk (stats.drop i) where
  each := fun stat hstat => h.each stat (List.mem_of_mem_drop hstat)
  nonincreasing := h.nonincreasing.sublist (List.drop_sublist i stats)

/-! ## §4. `computeSelfP`. -/

/-- The self-parallelism of a recursive region is well defined and never
pessimistic: every page's own self-parallelism is a number from 1 on, the saving
that the loop computes for the page stays between zero and its work, the last
divisor is not zero, and the result is at least the self-parallelism of page 0. -/
theorem computeSelfP_ge (region : CRegion) (hpages : region.stats ≠ [])
    (h : PagesOk region.stats) :
    (∀ i stat, region.getStat i = some stat →
      (stat.spWork ≠ 0 ∧ ∃ selfP : ℚ, stat.getSelfP = .fin selfP ∧ 1 ≤ selfP) ∧
      ∃ saving : ℚ, CRegion.computeSaving (region.stats.drop i) = .fin saving ∧
        0 ≤ saving ∧ saving < stat.getTotalWork) ∧
    ∃ first saving pageSelfP selfP, region.getStat 0 = some first ∧
      CRegion.computeSaving region.stats = .fin saving ∧
      (first.getTotalWork : ℚ) - saving ≠ 0 ∧
      first.getSelfP = .fin pageSelfP ∧ region.computeSelfP = some (.fin selfP) ∧
      1 ≤ pageSelfP ∧ pageSelfP ≤ selfP := by
  constructor
  · intro i stat hstat
    have hmem : stat ∈ region.stats := List.mem_of_getElem? hstat
    have hpage := h.each stat hmem
    obtain ⟨saving, hsaving⟩ := exists_savingAt (h.drop i)
    refine ⟨⟨hpage.spWork_pos.ne', _, hpage.getSelfP_eq⟩, saving, hsaving.eq, hsaving.nonneg, ?_⟩
    exact hsaving.below stat (by rw [List.head?_drop]; exact hstat)
  · obtain ⟨first, deeper, hstats⟩ := List.exists_cons_of_ne_nil hpages
    rw [hstats] at h
    have hpage := h.each first List.mem_cons_self
    obtain ⟨before, hbefore⟩ := exists_savingAt h.tail
    -- one more step of the fold, from the pages below the first
    obtain ⟨saving, hsaving, hremains⟩ := saving_step h hbefore
    have hbelow : saving < first.work := hsaving.below first rfl
    have hpos : (0 : ℚ) < first.work - saving := by linarith
    have hwork : (0 : ℚ) ≤ first.work := first.work.cast_nonneg
    have hfirst : region.getStat 0 = some first := by
      unfold CRegion.getStat
      rw [hstats]
      rfl
    refine ⟨first, saving, _, first.work / (first.work - saving), hfirst, ?_, hpos.ne',
      hpage.getSelfP_eq.1, ?_, hpage.getSelfP_eq.2, ?_⟩
    · rw [hstats]
      exact hsaving.eq
    · unfold CRegion.computeSelfP CRegion.getTotalWork
      rw [hfirst, hstats, hsaving.eq]
      show some ((Double.fin first.work).div (.fin (first.work + -saving))) = _
      rw [← sub_eq_add_neg, Double.fin_div hpos.ne']
    · exact div_le_div_of_nonneg_left hwork hpos hremains

/-- A region of two pages, whose deeper page counts by half. -/
def twoPages : CRegion where
  id := 1
  type := .recInit
  isR := true
  stats :=
    [{ nInstance := 1, work := 8, tpWork := 4, spWork := 4, minSP := 2, maxSP := 2,
       totalIter := 1, minIter := 1, maxIter := 1, rWeight := .fin 1 },
     { nInstance := 1, work := 6, tpWork := 3, spWork := 3, minSP := 2, maxSP := 2,
       totalIter := 1, minIter := 1, maxIter := 1, rWeight := .fin (1 / 2) }]

/-- The example's pages satisfy the assumptions. -/
theorem twoPages_ok : PagesOk twoPages.stats where
  each := by
    intro stat hstat
    rcases List.mem_pair.mp hstat with rfl | rfl
    · constructor <;> decide +kernel
    · constructor <;> decide +kernel
  nonincreasing := by decide

/-- A region with two pages. -/
theorem computeSelfP_ge_twoPages :
    (∀ i stat, twoPages.getStat i = some stat →
      (stat.spWork ≠ 0 ∧ ∃ selfP : ℚ, stat.getSelfP = .fin selfP ∧ 1 ≤ selfP) ∧
      ∃ saving : ℚ, CRegion.computeSaving (twoPages.stats.drop i) = .fin saving ∧
        0 ≤ saving ∧ saving < stat.getTotalWork) ∧
    ∃ first saving pageSelfP selfP, twoPages.getStat 0 = some first ∧
      CRegion.computeSaving twoPages.stats = .fin saving ∧
      (first.getTotalWork : ℚ) - saving ≠ 0 ∧
      first.getSelfP = .fin pageSelfP ∧ twoPages.computeSelfP = some (.fin selfP) ∧
      1 ≤ pageSelfP ∧ pageSelfP ≤ selfP :=
  computeSelfP_ge twoPages (List.cons_ne_nil _ _) twoPages_ok

end Kremlin.Planner
