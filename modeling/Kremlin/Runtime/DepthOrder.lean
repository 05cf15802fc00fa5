/-
  Kremlin.Runtime.DepthOrder — the profiler's times do not increase with depth.

  The shadow memory stops an eviction at the first zero and its cache asserts
  the order on every access; the handlers keep it.  `OrderedTimes` proves the
  order of the analysis; here it is read off the profiler's own tables.
-/
import Kremlin.Runtime.RefinementRun

namespace Kremlin.Runtime

open Kremlin.Library
open KremlinProfiler

/-- The times at adjacent active levels: those of the current function's
registers, of the current control dependence, and of every word at the current
versions. -/
structure DepthOrdered (cfg : Config) (p : Program) (s : KremlinProfiler) : Prop where
  registers : ∀ a ∈ p.current, ∀ r < a.rows, ∀ i, i + 1 < p.depth →
    ∃ outer inner, s.getRegisterTimeAtIndex r i = some outer ∧
      s.getRegisterTimeAtIndex r (i + 1) = some inner ∧ inner ≤ outer
  control : ∀ i, i + 1 < p.depth →
    ∃ outer inner, s.getControlDependenceAtIndex i = some outer ∧
      s.getControlDependenceAtIndex (i + 1) = some inner ∧ inner ≤ outer
  memory : ∀ addr i, i + 1 < p.depth → memTimes cfg s addr (i + 1) ≤ memTimes cfg s addr i

section Order

variable {cfg : Config} {limit : ℕ} {p : Program} {m : Analysis} {s : KremlinProfiler}

/-- A profiler that computes an ordered analysis is ordered. -/
theorem Refines.depthOrdered (ho : Ordered p m) (h : Refines cfg limit p m s)
    (hall : cfg.AllLevels limit) : DepthOrdered cfg p s := by
  have hfirst := hall.first
  have hlast := hall.last
  have hwithin := h.levels.within
  have hwin : cfg.min_level ≤ cfg.max_level := by omega
  have hinstr : p.depth ≠ 0 → cfg.instrumented p.depth = p.depth := by
    intro hdepth
    rw [Config.instrumented, hfirst, if_neg (Nat.not_lt_zero _)]
    omega
  refine ⟨fun a ha r hr i hi => ?_, fun i hi => ?_, fun addr i hi => ?_⟩
  · obtain ⟨rest, hacts, hphase⟩ := Program.current_eq_some ha
    obtain ⟨reg, regs, f, fs, t, hregs, hown, htable, -, -⟩ := h.current hacts hphase
    have hdeep := htable.deep
    -- the window starts at 0, so an index is a level
    have hread : ∀ j < p.depth, s.getRegisterTimeAtIndex r j = some (m.reg r j) := by
      intro j hj
      have he := htable.entry r hr j (by omega) (by omega)
      rw [hfirst, Nat.zero_add] at he
      rw [hown.getTime (by rw [htable.row]; exact hr) (by omega), he, Analysis.reg, hregs]
      rfl
    exact ⟨_, _, hread i (by omega), hread (i + 1) hi, ((ho.now hacts).reg r).1 (Nat.le_succ i)⟩
  · have hread : ∀ j < p.depth, s.getControlDependenceAtIndex j = some (m.cdep j) := by
      intro j hj
      rw [h.getCdep hwin (by omega) (by rw [hinstr (by omega)]; exact hj), hfirst, Nat.zero_add]
    exact ⟨_, _, hread i (by omega), hread (i + 1) hi, ho.cdep.1 (Nat.le_succ i)⟩
  · have hread : ∀ j < p.depth, memTimes cfg s addr j = m.mem (wordOf addr) j := by
      intro j hj
      have hv := h.mem.view (wordOf addr) j (by omega) (by omega)
      rw [show cfg.min_level + j = j by omega] at hv
      exact hv
    rw [hread i (by omega), hread (i + 1) hi]
    exact (ho.mem _).1 (Nat.le_succ i)

end Order

/-- **Times do not increase with depth**, in every state a well-formed run
reaches with all levels, at most 64, instrumented. -/
theorem times_nonincreasing {limit max_level v : ℕ} {es : List Event} {p : Program}
    {s : KremlinProfiler} (hlimit : limit ≤ 64) (hmax : limit ≤ max_level + 1)
    (hp : run (Program.step limit) Program.start es = some p)
    (hs : run (step { min_level := 0, max_level }) (init { min_level := 0, max_level } v) es
      = some s) :
    DepthOrdered { min_level := 0, max_level } p s := by
  have hall : Config.AllLevels { min_level := 0, max_level } limit := ⟨rfl, hmax⟩
  have hinit := refines_init { min_level := 0, max_level } limit v (Nat.succ_pos 255)
  have hkeep := runOk_keepsTimes ordered_start hinit hall hlimit hp
  obtain ⟨-, m, -, ho, hr⟩ := refines_run ordered_start hinit hall hp hs hkeep
  exact hr.depthOrdered ho hall

/-- A loop in a function that was called with an argument, after a load under a
control dependence. -/
def loopInCallee : List Event :=
  [.enterRegion 1 .regionFunc, .prepRTable 4 1, .work 10, .instr (.timestamp1 1 (0, 3)),
   .store 1 64 8, .prepCall 7 2, .enqArg 1, .linkReturn 2, .enterRegion 2 .regionFunc,
   .prepRTable 4 1, .deqArg 0, .work 20, .enterRegion 3 .regionLoop, .pushCDep 0, .work 9,
   .instr (.load1 64 2 0 8), .instr (.timestamp2 3 (2, 1) (0, 5))]

/-- A loop in a function that is called. -/
theorem times_nonincreasing_loopInCallee :
    ∃ p s, run (Program.step 64) Program.start loopInCallee = some p ∧ p.depth = 3 ∧
      run (step { min_level := 0, max_level := 63 }) (init { min_level := 0, max_level := 63 } 1)
        loopInCallee = some s ∧ DepthOrdered { min_level := 0, max_level := 63 } p s := by
  obtain ⟨p, hp⟩ := Option.isSome_iff_exists.mp
    (show (run (Program.step 64) Program.start loopInCallee).isSome by decide)
  obtain ⟨s, hs⟩ := Option.isSome_iff_exists.mp
    (show (run (step { min_level := 0, max_level := 63 })
      (init { min_level := 0, max_level := 63 } 1) loopInCallee).isSome by decide +kernel)
  have hdepth : ((run (Program.step 64) Program.start loopInCallee).map Program.depth) = some 3 := by
    decide
  rw [hp] at hdepth
  exact ⟨p, s, hp, Option.some_inj.mp hdepth, hs,
    times_nonincreasing (by decide) (by decide) hp hs⟩

end Kremlin.Runtime
