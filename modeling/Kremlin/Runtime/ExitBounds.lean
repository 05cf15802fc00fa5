/-
  Kremlin.Runtime.ExitBounds — the measures of a region when it is left.

  `handleRegionExit` subtracts unsigned times and divides by the critical path.
  In the analysis every time is paid for (`PathBounds`); here the bounds are read
  off the profiler's own region at every exit of a run (`exits_bounded`).  They
  fail when an instruction with more than five sources reads back the
  destination it has just written: its offset is then added twice.
-/
import Kremlin.Runtime.PathBounds
import Kremlin.Runtime.Window

namespace Kremlin.Runtime

open Kremlin.Library
open KremlinProfiler

/-- What makes the arithmetic of `handleRegionExit` meaningful; the last bound
says that the self-parallelism is at least 1. -/
structure Measures.Bounded (x : Measures) : Prop where
  childMaxCP_le : x.childMaxCP ≤ x.childrenCP
  childrenCP_le : x.childrenCP ≤ x.childrenWork
  childrenWork_le : x.childrenWork ≤ x.work
  childMaxCP_le_cp : x.childMaxCP ≤ x.cp
  cp_le_work : x.cp ≤ x.work
  cp_le_parallel : x.cp ≤ x.work - x.childrenWork + x.childrenCP

/-- The region about to be left started in the past, and its measures are
bounded: no subtraction of `handleRegionExit` wraps. -/
structure KremlinProfiler.ExitBounded (s : KremlinProfiler) : Prop where
  started : (s.program_regions s.curr_level).start ≤ s.curr_time
  measures : (s.measures s.curr_level).Bounded

/-- Every region is left within the bounds. -/
def BoundedAtExit (s : KremlinProfiler) : Event → Prop
  | .exitRegion _ _ => s.ExitBounded
  | _ => True

section Exits

variable {cfg : Config} {limit : ℕ} {p p' : Program} {m : Analysis} {s : KremlinProfiler}

/-- The measures of the innermost region of the analysis. -/
theorem RegionsBounded.measures {r : OpenRegion} {rs : List OpenRegion}
    (h : RegionsBounded limit p m) (hregions : p.regions = r :: rs) (hpaid : r.cost ≤ r.work) :
    (m.measures rs.length).Bounded := by
  have hd : p.depth = rs.length + 1 := by rw [Program.depth, hregions, List.length_cons]
  have htotals := h.totals rs.length (by omega)
  obtain ⟨hclock, hcp⟩ := h.innermost hregions
  have hwork : (m.measures rs.length).work = r.work + (m.region rs.length).childrenWork := by
    show usub m.time (m.region rs.length).start = _
    rw [usub_of_le (by omega)]
    omega
  have h₁ := htotals.max_le
  have h₂ := htotals.path_le
  refine ⟨h₁, h₂, ?_, htotals.max_le_cp, ?_, ?_⟩
  · rw [hwork]
    exact Nat.le_add_left _ _
  · rw [hwork]
    show (m.region rs.length).cp ≤ _
    omega
  · rw [hwork]
    show (m.region rs.length).cp ≤ _ + (m.region rs.length).childrenWork
      - (m.region rs.length).childrenWork + (m.region rs.length).childrenCP
    omega

/-- A profiler that computes a bounded analysis leaves its region in bounds. -/
theorem Refines.exitBounded {r : OpenRegion} {rs : List OpenRegion}
    (h : Refines cfg limit p m s) (hb : Bounded limit p m) (hall : cfg.AllLevels limit)
    (hregions : p.regions = r :: rs) (hpaid : p.Paid) : s.ExitBounded := by
  have hd : p.depth = rs.length + 1 := by rw [Program.depth, hregions, List.length_cons]
  have hwithin := h.levels.within
  have hfirst := hall.first
  have hlast := hall.last
  have hlevel : s.curr_level = rs.length := by
    rw [h.levels.atLevel, hd]
    exact if_neg (Nat.succ_ne_zero _)
  have hr := h.regions.regions rs.length (by omega)
  -- the deepest instrumented level has had no children
  have hsees : rs.length < cfg.max_level ∨ (m.region rs.length).childCount = 0 := by
    by_cases hdeep : rs.length < cfg.max_level
    · exact .inl hdeep
    · exact .inr (hb.regions.last rs.length (by omega) (by omega))
  obtain ⟨hwork, -⟩ := hr.work (by omega)
  obtain ⟨hchildren, hmax⟩ := hr.children (by omega) hsees
  have hsame : s.measures rs.length = m.measures rs.length := by
    rw [KremlinProfiler.measures, Analysis.measures, h.regions.now, hr.start, hwork,
      hr.cp (by omega) (by omega), hchildren, hmax]
  refine ⟨?_, ?_⟩
  · rw [hlevel, h.regions.now, hr.start]
    exact h.regions.started rs.length (by omega)
  · rw [hlevel, hsame]
    exact hb.regions.measures hregions (hpaid r (by rw [hregions]; exact List.mem_cons_self))

/-- The bounds hold at every exit of a run. -/
theorem runOk_boundedAtExit (ho : Ordered p m) (hb : Bounded limit p m)
    (h : Refines cfg limit p m s) (hall : cfg.AllLevels limit) (hcol : limit ≤ cfg.cdep_col)
    {es : List Event} (hp : run (Program.step limit) p es = some p')
    (hpaid : RunOk (Program.step limit) (fun p _ => p.Paid) p es)
    (hback : ∀ e ∈ es, ¬ e.ReadsBack) :
    RunOk (KremlinProfiler.step cfg) BoundedAtExit s es := by
  induction es generalizing p m s with
  | nil => trivial
  | cons e es ih =>
      obtain ⟨p₁, hp₁, hp₂⟩ := run_cons_eq_some.mp hp
      have hmove := Program.step_move hp₁
      have hwin : cfg.min_level ≤ cfg.max_level := by rw [hall.first]; exact Nat.zero_le _
      have hkeep := keepsTimes_all ho h hall hcol hmove
      refine ⟨?_, fun s₁ hs₁ => ?_⟩
      · cases hmove with
        | exitFunction hacts hphase hregions hty hcdeps hlevel =>
            exact h.exitBounded hb hall hregions hpaid.1
        | exitLoop hacts hphase hregions hty hcdeps hlevel =>
            exact h.exitBounded hb hall hregions hpaid.1
        | work | enterMain | enterFunction | enterLoop | instr | store | storeConst | pushCDep
        | popCDep | prepCall | enqArg | enqArgConst | deqArg | prepRTable | linkReturn | ret
        | retConst => trivial
      · obtain ⟨s₁', hs₁', h₁⟩ :=
          h.step ho hwin hmove (roomy_of_step ho h hall hmove hkeep hs₁) hkeep
        rw [hs₁] at hs₁'
        cases hs₁'
        exact ih (ho.apply hmove)
          (hb.apply ho hmove hpaid.1 (hback e List.mem_cons_self)) h₁ hp₂
          (hpaid.2 p₁ hp₁) fun e' he' => hback e' (List.mem_cons_of_mem e he')

end Exits

/-- **Self-parallelism is at least 1**: in a well-formed run that charges every
region at most its `_KWork`, with all levels, at most 64, instrumented, every
region is left within the bounds, as long as no instruction reads back the
destination it has written. -/
theorem exits_bounded {limit max_level v : ℕ} {es : List Event} {p : Program}
    (hlimit : limit ≤ 64) (hmax : limit ≤ max_level + 1)
    (hp : run (Program.step limit) Program.start es = some p)
    (hpaid : RunOk (Program.step limit) (fun p _ => p.Paid) Program.start es)
    (hback : ∀ e ∈ es, ¬ e.ReadsBack) :
    RunOk (step { min_level := 0, max_level }) BoundedAtExit
      (init { min_level := 0, max_level } v) es :=
  runOk_boundedAtExit ordered_start (bounded_start limit)
    (refines_init { min_level := 0, max_level } limit v (Nat.succ_pos 255)) ⟨rfl, hmax⟩ hlimit hp
    hpaid hback

/-- A call with an argument and a loop in the callee; both are left. -/
def callWithLoop : List Event :=
  [.enterRegion 1 .regionFunc, .prepRTable 4 0, .work 10, .instr (.timestamp1 1 (0, 3)),
   .store 1 64 8, .prepCall 7 2, .enqArg 1, .linkReturn 2, .enterRegion 2 .regionFunc,
   .prepRTable 4 1, .deqArg 0, .work 20, .enterRegion 3 .regionLoop, .pushCDep 0, .work 30,
   .instr (.load1 64 2 0 8), .instr (.timestamp6 3 (2, 1) (0, 5) (1, 0) (1, 0) (1, 0) (0, 4)),
   .popCDep, .exitRegion 3 .regionLoop, .ret 3, .exitRegion 2 .regionFunc,
   .instr (.phi1To1 3 2 1), .exitRegion 1 .regionFunc]

/-- A call with a loop. -/
theorem exits_bounded_callWithLoop :
    RunOk (step { min_level := 0, max_level := 2 }) BoundedAtExit
      (init { min_level := 0, max_level := 2 } 1) callWithLoop := by
  obtain ⟨p, hp⟩ := Option.isSome_iff_exists.mp
    (show (run (Program.step 3) Program.start callWithLoop).isSome by decide)
  exact @exits_bounded 3 2 1 callWithLoop p (by decide) (by decide) hp (by decide) (by decide)

/-- A timestamp of six sources, the last of which is its destination. -/
def readsBack : List Event :=
  [.enterRegion 1 .regionFunc, .prepRTable 2 0, .work 10,
   .instr (.timestamp6 1 (0, 10) (0, 10) (0, 10) (0, 10) (0, 10) (1, 10))]

/-- **The offset of a source that is the destination is added twice**: `main` has
10 units of work and is left with a critical path of 20. -/
theorem not_exits_bounded :
    ¬ ∀ {limit max_level v : ℕ} {es : List Event} {p : Program}, limit ≤ 64 →
      limit ≤ max_level + 1 → run (Program.step limit) Program.start es = some p →
      RunOk (Program.step limit) (fun p _ => p.Paid) Program.start es →
      RunOk (step { min_level := 0, max_level }) BoundedAtExit
        (init { min_level := 0, max_level } v) es := by
  intro hclaim
  obtain ⟨p, hp⟩ := Option.isSome_iff_exists.mp
    (show (run (Program.step 1) Program.start (readsBack ++ [.exitRegion 1 .regionFunc])).isSome
      by decide)
  have hok := @hclaim 1 0 1 _ p (by decide) (by decide) hp (by decide)
  have hcomputed : (run (step { min_level := 0, max_level := 0 })
      (init { min_level := 0, max_level := 0 } 1) readsBack).map
      (fun s => s.measures s.curr_level) = some ⟨10, 20, 0, 0, 0⟩ := by decide +kernel
  obtain ⟨s, hs, hm⟩ := Option.map_eq_some_iff.mp hcomputed
  have hexit : s.ExitBounded := (runOk_append hok hs).1
  have hcp := hexit.measures.cp_le_work
  rw [hm] at hcp
  exact absurd hcp (by decide)

end Kremlin.Runtime
