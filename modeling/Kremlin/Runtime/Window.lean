/-
  Kremlin.Runtime.Window — profiling a window of levels.

  Two profilers see the same events, one with every level instrumented and one
  with the window `[min_level, max_level]`.  Both compute the analysis, so they
  agree inside the window (`window_measures`) as long as neither loses a time
  (`KeepsTimes`).  The window does lose one: below `max_level` the level that
  `handleDequeueArgument` and `handleReturn` leave out is not the callee's own
  but the deepest one of the window (`window_loses_argument`).
-/
import Kremlin.Runtime.RefinementRun

namespace Kremlin.Runtime

open Kremlin.Library
open KremlinProfiler

/-- What is measured of the open region at a level: its work so far, its critical
path and the totals of its children. -/
structure Measures where
  work : ℕ
  cp : ℕ
  childrenWork : ℕ
  childrenCP : ℕ
  childMaxCP : ℕ
  deriving Repr, DecidableEq

namespace KremlinProfiler

/-- The measures `handleRegionExit` would take of the region at level `l` now. -/
def measures (s : KremlinProfiler) (l : ℕ) : Measures where
  work := usub s.curr_time (s.program_regions l).start
  cp := (s.program_regions l).cp
  childrenWork := (s.program_regions l).childrenWork
  childrenCP := (s.program_regions l).childrenCP
  childMaxCP := (s.program_regions l).childMaxCP

end KremlinProfiler

/-- The analysis's measures of an open region. -/
def Analysis.measures (m : Analysis) (l : ℕ) : Measures where
  work := usub m.time (m.region l).start
  cp := (m.region l).cp
  childrenWork := (m.region l).childrenWork
  childrenCP := (m.region l).childrenCP
  childMaxCP := (m.region l).childMaxCP

/-- Inside the window the profiler measures what the analysis does. -/
theorem Refines.measures {cfg : Config} {limit : ℕ} {p : Program} {m : Analysis}
    {s : KremlinProfiler} (h : Refines cfg limit p m s) {l : ℕ} (hdepth : l < p.depth)
    (hmin : cfg.min_level ≤ l) (hmax : l < cfg.max_level) : s.measures l = m.measures l := by
  have hr := h.regions.regions l hdepth
  obtain ⟨hwork, -⟩ := hr.work hmin
  obtain ⟨hchildren, hchild⟩ := hr.children hmin (.inl hmax)
  rw [KremlinProfiler.measures, Analysis.measures, h.regions.now, hr.start, hwork,
    hr.cp hmin (by omega), hchildren, hchild]

/-- **Inside the window the measures do not depend on the window**: a run that
completes with all levels instrumented completes with the window, and at every
level `l` with `min_level ≤ l < max_level` the open region has the same measures,
in every state reached and so when it is left. -/
theorem window_measures {limit last min_level max_level v w : ℕ} {es : List Event} {p : Program}
    {s : KremlinProfiler} (hlast : limit ≤ last) (hwin : min_level ≤ max_level)
    (hp : run (Program.step limit) Program.start es = some p)
    (hs : run (step { min_level := 0, max_level := last })
      (init { min_level := 0, max_level := last } v) es = some s)
    (hfull : RunOk (step { min_level := 0, max_level := last })
      (KeepsTimes { min_level := 0, max_level := last })
      (init { min_level := 0, max_level := last } v) es)
    (hkeep : RunOk (step { min_level, max_level }) (KeepsTimes { min_level, max_level })
      (init { min_level, max_level } w) es) :
    ∃ s', run (step { min_level, max_level }) (init { min_level, max_level } w) es = some s' ∧
      ∀ l < p.depth, min_level ≤ l → l < max_level → s'.measures l = s.measures l := by
  have hall : Config.AllLevels { min_level := 0, max_level := last } limit :=
    ⟨rfl, Nat.le_succ_of_le hlast⟩
  obtain ⟨hroom, m, hm, -, hr⟩ := refines_run ordered_start
    (refines_init { min_level := 0, max_level := last } limit v (Nat.succ_pos 255))
    hall hp hs hfull
  -- room in the arrays does not depend on the window
  obtain ⟨s', hs', hr'⟩ := refines_run_window ordered_start
    (refines_init { min_level, max_level } limit w (Nat.succ_pos 255)) hwin hm hroom hkeep
  refine ⟨s', hs', fun l hl hmin hmax => ?_⟩
  have hwithin := hr.levels.within
  rw [hr'.measures hl hmin hmax,
    hr.measures hl (Nat.zero_le l) (Nat.lt_of_lt_of_le (Nat.lt_of_lt_of_le hl hwithin) hlast)]

/-- `main` calls `f`, and `f` passes a register on to `g`, which computes from it. -/
def argumentBelowWindow : List Event :=
  [.enterRegion 1 .regionFunc, .prepRTable 1 0, .prepCall 7 2, .enterRegion 2 .regionFunc,
   .prepRTable 2 0, .work 20, .instr (.timestamp1 1 (0, 10)), .prepCall 8 3, .enqArg 1,
   .enterRegion 3 .regionFunc, .prepRTable 2 0, .deqArg 0, .work 20,
   .instr (.timestamp1 1 (0, 5)), .exitRegion 3 .regionFunc, .exitRegion 2 .regionFunc]

/-- With the window `[0, 2]` all three functions run inside. -/
theorem window_measures_argument :
    ∃ s s', run (step { min_level := 0, max_level := 64 })
        (init { min_level := 0, max_level := 64 } 1) argumentBelowWindow = some s ∧
      run (step { min_level := 0, max_level := 2 }) (init { min_level := 0, max_level := 2 } 1)
        argumentBelowWindow = some s' ∧ s'.measures 0 = s.measures 0 := by
  obtain ⟨p, hp⟩ := Option.isSome_iff_exists.mp
    (show (run (Program.step 64) Program.start argumentBelowWindow).isSome by decide)
  obtain ⟨s, hs⟩ := Option.isSome_iff_exists.mp
    (show (run (step { min_level := 0, max_level := 64 })
      (init { min_level := 0, max_level := 64 } 1) argumentBelowWindow).isSome by decide +kernel)
  have hdepth : (run (Program.step 64) Program.start argumentBelowWindow).map Program.depth
      = some 1 := by decide
  rw [hp, Option.map_some, Option.some.injEq] at hdepth
  obtain ⟨s', hs', hsame⟩ := window_measures (le_refl 64) (Nat.zero_le 2) hp hs
    (by decide +kernel) (w := 1) (by decide +kernel)
  exact ⟨s, s', hs, hs', hsame 0 (by rw [hdepth]; exact Nat.one_pos) le_rfl Nat.two_pos⟩

/-- **The window `[0, 1]` loses the argument**, since `g` runs below it: about to
leave `main`, the critical path of its child is 15 with all levels and 10 with the
window. -/
theorem window_loses_argument :
    ¬ ∀ {limit last min_level max_level v w : ℕ} {es : List Event} {p : Program}
      {s : KremlinProfiler}, limit ≤ last → min_level ≤ max_level →
      run (Program.step limit) Program.start es = some p →
      run (step { min_level := 0, max_level := last })
        (init { min_level := 0, max_level := last } v) es = some s →
      ∃ s', run (step { min_level, max_level }) (init { min_level, max_level } w) es = some s' ∧
        ∀ l < p.depth, min_level ≤ l → l < max_level → s'.measures l = s.measures l := by
  intro hclaim
  obtain ⟨p, hp⟩ := Option.isSome_iff_exists.mp
    (show (run (Program.step 64) Program.start argumentBelowWindow).isSome by decide)
  have hdepth : (run (Program.step 64) Program.start argumentBelowWindow).map Program.depth
      = some 1 := by decide
  have hall : (run (step { min_level := 0, max_level := 64 })
      (init { min_level := 0, max_level := 64 } 1) argumentBelowWindow).map (·.measures 0)
      = some ⟨40, 15, 40, 15, 15⟩ := by decide +kernel
  have hwindow : (run (step { min_level := 0, max_level := 1 })
      (init { min_level := 0, max_level := 1 } 1) argumentBelowWindow).map (·.measures 0)
      = some ⟨40, 15, 40, 10, 10⟩ := by decide +kernel
  obtain ⟨s, hs, hm⟩ := Option.map_eq_some_iff.mp hall
  obtain ⟨s', hs', hsame⟩ := hclaim (w := 1) (le_refl 64) (Nat.zero_le 1) hp hs
  rw [hs', Option.map_some, Option.some.injEq] at hwindow
  rw [hp, Option.map_some, Option.some.injEq] at hdepth
  have heq := hsame 0 (by rw [hdepth]; exact Nat.one_pos) le_rfl Nat.one_pos
  rw [hm, hwindow] at heq
  exact absurd heq (by decide)

end Kremlin.Runtime
