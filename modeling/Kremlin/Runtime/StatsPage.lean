/-
  Kremlin.Runtime.StatsPage — what a page of statistics says of its instances.

  A page starts as `ProfileNodeStats()` and absorbs one `RegionStats` for each
  `updateCurrentStats`.  The counter, the four sums, the maximum of the
  self-parallelism and both extremes of the child count come out right
  (`Totals`): the start values are neutral, since `-1` in the unsigned
  `min_dynamic_child_regions` is the largest value of the type.  The same `-1`
  in the `double` `min_self_par` is smaller than every self-parallelism, so the
  minimum is never replaced (`min_self_par_never_replaced`).

  The sums are natural numbers here, which is what the 64-bit fields hold as
  long as they do not wrap.
-/
import Kremlin.Library.RunningExtremes
import Kremlin.Runtime.ProfileNode
import Mathlib.Algebra.Order.Field.Basic
import Mathlib.Algebra.Order.BigOperators.Group.List
import Mathlib.Algebra.BigOperators.Group.List.Basic
import Mathlib.Algebra.Order.Ring.Rat
import Mathlib.Tactic.Linarith

namespace Kremlin.Runtime

open Kremlin.Library

/-! ## §1. What a page should say. -/

/-- `new_self_par`. -/
def RegionStats.selfPar (s : RegionStats) : ℚ := (s.work : ℚ) / (s.spWork : ℚ)

theorem RegionStats.selfPar_nonneg (s : RegionStats) : 0 ≤ s.selfPar :=
  div_nonneg s.work.cast_nonneg s.spWork.cast_nonneg

namespace ProfileNodeStats

/-- The counter, the sums and all extremes but the smallest self-parallelism. -/
structure Totals (page : ProfileNodeStats) (calls : List RegionStats) : Prop where
  num_instances : page.num_instances = calls.length
  total_work : page.total_work = (calls.map RegionStats.work).sum
  total_par_per_work : page.total_par_per_work = (calls.map RegionStats.cp).sum
  self_par_per_work : page.self_par_per_work = (calls.map RegionStats.spWork).sum
  num_dynamic_child_regions :
    page.num_dynamic_child_regions = (calls.map RegionStats.childCnt).sum
  max_self_par : IsGreatest (valuesOf RegionStats.selfPar calls) page.max_self_par
  min_dynamic_child_regions :
    IsLeast (valuesOf RegionStats.childCnt calls) page.min_dynamic_child_regions
  max_dynamic_child_regions :
    IsGreatest (valuesOf RegionStats.childCnt calls) page.max_dynamic_child_regions

/-- A page that summarises its instances. -/
structure Summarises (page : ProfileNodeStats) (calls : List RegionStats) : Prop
    extends Totals page calls where
  min_self_par : IsLeast (valuesOf RegionStats.selfPar calls) page.min_self_par

/-! ## §2. One page after any number of updates. -/

/-- The page after the updates. -/
def updates (page : ProfileNodeStats) (calls : List RegionStats) : ProfileNodeStats :=
  calls.foldl update page

/-- One update, with the comparisons as minima and maxima. -/
theorem update_eq (page : ProfileNodeStats) (s : RegionStats) :
    page.update s =
      { total_work := page.total_work + s.work
        min_self_par := min page.min_self_par s.selfPar
        max_self_par := max page.max_self_par s.selfPar
        self_par_per_work := page.self_par_per_work + s.spWork
        total_par_per_work := page.total_par_per_work + s.cp
        num_dynamic_child_regions := page.num_dynamic_child_regions + s.childCnt
        min_dynamic_child_regions := min page.min_dynamic_child_regions s.childCnt
        max_dynamic_child_regions := max page.max_dynamic_child_regions s.childCnt
        num_instances := page.num_instances + 1 } := by
  rw [min_comm page.min_self_par, min_def_lt, max_def_lt, min_comm page.min_dynamic_child_regions,
    min_def_lt, max_def_lt]
  rfl

/-- Every field of the page is a fold of its own. -/
theorem updates_eq (page : ProfileNodeStats) (calls : List RegionStats) :
    page.updates calls =
      { total_work := page.total_work + (calls.map RegionStats.work).sum
        min_self_par := runningMin RegionStats.selfPar page.min_self_par calls
        max_self_par := runningMax RegionStats.selfPar page.max_self_par calls
        self_par_per_work := page.self_par_per_work + (calls.map RegionStats.spWork).sum
        total_par_per_work := page.total_par_per_work + (calls.map RegionStats.cp).sum
        num_dynamic_child_regions :=
          page.num_dynamic_child_regions + (calls.map RegionStats.childCnt).sum
        min_dynamic_child_regions :=
          runningMin RegionStats.childCnt page.min_dynamic_child_regions calls
        max_dynamic_child_regions :=
          runningMax RegionStats.childCnt page.max_dynamic_child_regions calls
        num_instances := page.num_instances + calls.length } := by
  induction calls generalizing page with
  | nil => rfl
  | cons s calls ih =>
      show (page.update s).updates calls = _
      rw [ih]
      rw [update_eq]
      simp only [List.map_cons, List.sum_cons, List.length_cons, Nat.add_assoc,
        Nat.add_comm 1, runningMin_cons, runningMax_cons]

variable {calls : List RegionStats}

/-- The `-1` of the constructor stays. -/
theorem min_self_par_never_replaced (calls : List RegionStats) :
    (new.updates calls).min_self_par = -1 := by
  rw [updates_eq]
  refine runningMin_eq_start fun s _ => ?_
  have hnonneg := s.selfPar_nonneg
  show (-1 : ℚ) ≤ s.selfPar
  linarith

/-- Everything else comes out right. -/
theorem totals_updates (hne : calls ≠ []) (hcnt : (calls.map RegionStats.childCnt).sum < 2 ^ 64) :
    Totals (new.updates calls) calls := by
  rw [updates_eq]
  constructor
  case num_instances => exact Nat.zero_add _
  case total_work => exact Nat.zero_add _
  case total_par_per_work => exact Nat.zero_add _
  case self_par_per_work => exact Nat.zero_add _
  case num_dynamic_child_regions => exact Nat.zero_add _
  case max_self_par =>
    exact isGreatest_runningMax_of_le hne fun s _ => s.selfPar_nonneg
  case min_dynamic_child_regions =>
    refine isLeast_runningMin_of_le hne fun s hs => ?_
    have hle : s.childCnt ≤ (calls.map RegionStats.childCnt).sum :=
      List.single_le_sum (fun _ _ => Nat.zero_le _) _ (List.mem_map_of_mem hs)
    show s.childCnt ≤ 2 ^ 64 - 1
    omega
  case max_dynamic_child_regions =>
    exact isGreatest_runningMax_of_le hne fun s _ => Nat.zero_le _

/-- A page never summarises its instances: no instance has self-parallelism `-1`. -/
theorem not_summarises_updates (calls : List RegionStats) :
    ¬ Summarises (new.updates calls) calls := by
  intro h
  obtain ⟨s, -, hs⟩ := h.min_self_par.1
  rw [min_self_par_never_replaced] at hs
  have hnonneg := s.selfPar_nonneg
  linarith

end ProfileNodeStats

/-! ## §3. The page of a node. -/

namespace ProfileNode

open ProfileNodeStats

variable {n : ProfileNode} {i : ℕ} {page : ProfileNodeStats}

/-- One call: the current page absorbs the stats. -/
theorem updateCurrentStats_eq (hcur : n.curr_stat_index = i) (hpage : n.stats[i]? = some page)
    (s : RegionStats) :
    n.updateCurrentStats s = some { n with stats := n.stats.set i (page.update s) } := by
  obtain ⟨hlt, heq⟩ := List.getElem?_eq_some_iff.mp hpage
  unfold updateCurrentStats
  have hok : 0 ≤ n.curr_stat_index ∧ n.curr_stat_index < n.stats.length := by omega
  rw [if_pos hok, hcur, Int.toNat_natCast, List.modify_eq_set_getElem? , hpage]
  rfl

/-- Any number of calls: the current page absorbs them one after the other. -/
theorem foldlM_updateCurrentStats (hcur : n.curr_stat_index = i)
    (hpage : n.stats[i]? = some page) (calls : List RegionStats) :
    calls.foldlM updateCurrentStats n
      = some { n with stats := n.stats.set i (page.updates calls) } := by
  induction calls generalizing n page with
  | nil =>
      obtain ⟨hlt, heq⟩ := List.getElem?_eq_some_iff.mp hpage
      show some n = some { n with stats := n.stats.set i page }
      rw [← heq, List.set_getElem_self]
  | cons s calls ih =>
      obtain ⟨hlt, -⟩ := List.getElem?_eq_some_iff.mp hpage
      rw [List.foldlM_cons, updateCurrentStats_eq hcur hpage]
      show calls.foldlM updateCurrentStats { n with stats := n.stats.set i (page.update s) } = _
      have hnext := @ih { n with stats := n.stats.set i (page.update s) } (page.update s) hcur
        (List.getElem?_set_self hlt)
      rw [hnext]
      show some { n with stats := (n.stats.set i (page.update s)).set i _ } = _
      rw [List.set_set]
      rfl

/-- For every sequence of instances: a fresh page ends with every aggregate
right except the smallest self-parallelism, which is `-1`. -/
theorem page_never_summarises (n : ProfileNode) (i : ℕ) (hcur : n.curr_stat_index = i)
    (hpage : n.stats[i]? = some .new) (calls : List RegionStats) (hne : calls ≠ [])
    (_ : ∀ s ∈ calls, 0 < s.spWork)
    (hcnt : (calls.map RegionStats.childCnt).sum < 2 ^ 64) :
    ∃ n' page, calls.foldlM updateCurrentStats n = some n' ∧ n'.stats[i]? = some page ∧
      Totals page calls ∧ page.min_self_par = -1 ∧ ¬ Summarises page calls := by
  obtain ⟨hlt, -⟩ := List.getElem?_eq_some_iff.mp hpage
  refine ⟨_, _, foldlM_updateCurrentStats hcur hpage calls, List.getElem?_set_self hlt,
    totals_updates hne hcnt, min_self_par_never_replaced calls, not_summarises_updates calls⟩

/-- A node with one fresh page. -/
def freshNode : ProfileNode := (ProfileNode.new 1 0 .regionLoop 2).moveToNextStats

/-- One instance with work 4 and self-parallel work 2. -/
def halvedInstance : RegionStats where
  work := 4
  cp := 2
  callSite := 0
  spWork := 2
  is_doall := 0
  childCnt := 2

/-- One instance of self-parallelism 2: the page reports the minimum `-1`. -/
theorem page_never_summarises_once :
    ∃ n' page, [halvedInstance].foldlM updateCurrentStats freshNode = some n' ∧
      n'.stats[0]? = some page ∧ Totals page [halvedInstance] ∧ page.min_self_par = -1 ∧
      ¬ Summarises page [halvedInstance] :=
  page_never_summarises freshNode 0 rfl rfl [halvedInstance] (List.cons_ne_nil _ _)
    (by decide) (by decide)

/-- The page of that instance is not a summary. -/
theorem not_page_summarises :
    ¬ ∀ (n : ProfileNode) (i : ℕ), n.curr_stat_index = i → n.stats[i]? = some .new →
      ∀ calls : List RegionStats, calls ≠ [] → (∀ s ∈ calls, 0 < s.spWork) →
        (∀ f ∈ [RegionStats.work, RegionStats.cp, RegionStats.spWork, RegionStats.childCnt],
          (calls.map f).sum < 2 ^ 64) →
        ∀ n' page, calls.foldlM updateCurrentStats n = some n' → n'.stats[i]? = some page →
          Summarises page calls := by
  intro h
  have hone := h freshNode 0 rfl rfl [halvedInstance] (List.cons_ne_nil _ _) (by decide)
    (by decide) _ _ rfl rfl
  exact not_summarises_updates [halvedInstance] hone

end ProfileNode

end Kremlin.Runtime
