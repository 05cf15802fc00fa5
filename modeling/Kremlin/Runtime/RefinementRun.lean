/-
  Kremlin.Runtime.RefinementRun — the refinement over whole runs.

  A profiler that instruments every level fails exactly when an array is too
  small, so what it succeeds in is `Roomy` (§1).  Runs follow by induction
  (§2): such a profiler computes the analysis, and so does any other window on
  the same events, as long as no event loses a time.
-/
import Kremlin.Runtime.RefinementCalls

namespace Kremlin.Runtime

open Kremlin.Library
open KremlinProfiler

/-- All of `limit` levels are instrumented. -/
structure Config.AllLevels (cfg : Config) (limit : ℕ) : Prop where
  first : cfg.min_level = 0
  last : limit ≤ cfg.max_level + 1

section Runs

variable {cfg : Config} {limit : ℕ} {p p' : Program} {m : Analysis} {s s' : KremlinProfiler}

/-! ## §1. What succeeds has room. -/

/-- Cleaning the registers on entry does not touch the control dependences. -/
theorem enterRegisters_keeps {ty : RegionType} (h : enterRegisters cfg ty s = some s') :
    s'.control_dependence_table = s.control_dependence_table ∧
      s'.cdt_read_ptr = s.cdt_read_ptr ∧ s'.curr_level = s.curr_level ∧
      s'.instrument_curr_level = s.instrument_curr_level := by
  unfold enterRegisters at h
  split at h
  · cases h
    exact ⟨rfl, rfl, rfl, rfl⟩
  split at h
  · simp only [zeroRegistersAtIndex, Option.bind_eq_bind, Option.bind_eq_some_iff] at h
    obtain ⟨t, -, hloop⟩ := h
    refine foldlM_relates (R := fun s s' : KremlinProfiler =>
      s'.control_dependence_table = s.control_dependence_table ∧
        s'.cdt_read_ptr = s.cdt_read_ptr ∧ s'.curr_level = s.curr_level ∧
        s'.instrument_curr_level = s.instrument_curr_level)
      (fun _ => ⟨rfl, rfl, rfl, rfl⟩) (fun h h' => ?_) (fun s i s' h => ?_) hloop
    · exact ⟨h'.1.trans h.1, h'.2.1.trans h.2.1, h'.2.2.1.trans h.2.2.1, h'.2.2.2.trans h.2.2.2⟩
    · simp only [setRegisterTimeAtIndex, writeRegisterFileTable, Option.bind_eq_bind,
        Option.bind_eq_some_iff, Option.some.injEq] at h
      obtain ⟨t, -, t', -, owner, -, rfl⟩ := h
      exact ⟨rfl, rfl, rfl, rfl⟩
  · cases h
    exact ⟨rfl, rfl, rfl, rfl⟩

/-- A write that succeeds is inside the array. -/
theorem Table.setValue_inside {t t' : Table} {time r c : ℕ} (h : t.setValue time r c = some t') :
    t.getOffset r c < t.row * t.col := by
  simp only [Table.setValue] at h
  split at h
  · next hlt => exact hlt
  · cases h

/-- An entry that succeeds had room. -/
theorem roomy_enter {id : SID} {ty : RegionType} (h : Refines cfg limit p m s)
    (hall : cfg.AllLevels limit) (hlimit : p.depth < limit)
    (hstep : handleRegionEntry cfg id ty s = some s') : Roomy cfg p (.enterRegion id ty) := by
  have hfirst := hall.first
  have hlast := hall.last
  have hnext : nextLevel s.curr_level = p.depth := by
    rw [h.levels.atLevel, nextLevel_prevLevel h.levels.bounded]
  have hlevel := handleRegionEntry_level_lt h.levels.on hstep
  rw [handleRegionEntry_eq h.levels.on hlevel (by rw [hnext]; exact h.levels.room)
    h.levels.nonempty] at hstep
  rw [hnext] at hlevel
  refine ⟨hlevel, ?_⟩
  obtain ⟨s₁, h₁, h₂⟩ := Option.bind_eq_some_iff.mp hstep
  obtain ⟨htable, hptr, hcurr, hinstr⟩ := enterRegisters_keeps h₁
  -- every level is instrumented, so the dependences are written
  have hon : s₁.instrument_curr_level = true := by
    rw [hinstr]
    show decide (nextLevel s.curr_level ≥ cfg.min_level ∧ nextLevel s.curr_level ≤ cfg.max_level) = _
    rw [hnext]
    exact decide_eq_true ⟨by omega, by omega⟩
  have hcurr' : s₁.curr_level = p.depth := hcurr.trans hnext
  unfold enterControlDependences at h₂
  rw [if_pos (show (s₁.openContext id s₁.contextCallSite ty).instrument_curr_level = true from hon)]
    at h₂
  obtain ⟨t', ht', -⟩ := Option.bind_eq_some_iff.mp h₂
  -- the write was inside the table
  have hlt := Table.setValue_inside ht'
  have hoff : s₁.control_dependence_table.getOffset s₁.cdt_read_ptr (s₁.curr_level - cfg.min_level)
      < s₁.control_dependence_table.row * s₁.control_dependence_table.col := hlt
  have hc := h.cdep
  rw [htable, hptr, hcurr', Table.getOffset] at hoff
  have hoff' : s.control_dependence_table.col * s.cdt_read_ptr + (p.depth - cfg.min_level)
      < s.control_dependence_table.row * s.control_dependence_table.col := hoff
  rw [hc.row, hc.col, hc.height, hfirst, Nat.sub_zero] at hoff'
  exact hoff'

/-- A push that succeeds had room. -/
theorem roomy_push {cond : ℕ} (h : Refines cfg limit p m s) (hall : cfg.AllLevels limit)
    (hdepth : p.depth ≠ 0) (hkeep : s.curr_num_instrumented_levels ≤ cfg.cdep_col)
    (hstep : handlePushCDep cond s = some s') : Roomy cfg p (.pushCDep cond) := by
  have hfirst := hall.first
  have hlast := hall.last
  have hc := h.cdep
  have hwithin := h.levels.within
  have hn : s.curr_num_instrumented_levels = p.depth := by
    rw [h.num_eq hdepth, Config.instrumented, hfirst, if_neg (Nat.not_lt_zero _)]
    omega
  unfold handlePushCDep at hstep
  rw [if_pos h.levels.on] at hstep
  simp only [Option.bind_eq_bind, Option.bind_eq_some_iff] at hstep
  obtain ⟨t, -, t', ht', -⟩ := hstep
  unfold Table.copyToDest at ht'
  rw [if_neg (by omega)] at ht'
  dsimp only at ht'
  split at ht'
  · next hin =>
      have hlt := hin.2
      rw [Table.getOffset, hc.row, hc.col, hc.height, hn] at hlt
      refine ⟨?_, by omega⟩
      -- the row starts before the end of the array
      have hpos : cfg.cdep_col * (p.cdeps.length + 1) < cfg.cdep_col * cfg.cdep_row := by
        rw [Nat.mul_comm cfg.cdep_col cfg.cdep_row]
        omega
      exact Nat.lt_of_mul_lt_mul_left hpos
  · cases ht'

/-- A return that succeeds had room for each column it read. -/
theorem roomy_retConst {a : Activation} {rest : List Activation} (ho : Ordered p m)
    (h : Refines cfg limit p m s) (hacts : p.acts = a :: rest) (hphase : a.phase ≠ .entered)
    (hstep : handleReturnConst s = some s') : Roomy cfg p .retConst := by
  intro caller hcaller i hi
  cases rest with
  | nil =>
      rw [hacts] at hcaller
      cases hcaller
  | cons b rest =>
      have hb : b = caller := by
        rw [hacts] at hcaller
        exact Option.some_inj.mp hcaller
      subst hb
      obtain ⟨reg, creg, regs, f, cf, fs, t, ct, hregs, hstack, ht, hct, htable, hctable, -, -, -⟩ :=
        h.calling ho hacts hphase
      have hcalling : s.getCallingFunction = some (some cf) := by rw [getCallingFunction, hstack]
      unfold handleReturnConst at hstep
      rw [if_pos h.levels.on] at hstep
      simp only [hcalling, hct, Option.bind_eq_bind, Option.bind_some, Option.bind_eq_some_iff]
        at hstep
      obtain ⟨ct', hloop, -⟩ := hstep
      -- each load of the loop succeeded
      have hload := foldlM_forall (P := fun i => (s.getControlDependenceAtIndex i).isSome)
        (fun t i t' h => by
          obtain ⟨v, hv, -⟩ := Option.bind_eq_some_iff.mp h
          rw [hv]
          rfl) hloop i (List.mem_range.mpr (by rw [hctable.col]; exact hi))
      have hc := h.cdep
      rw [getControlDependenceAtIndex] at hload
      rcases hc.atRow with hnone | hbase
      · rw [hnone] at hload
        cases hload
      · rw [hbase] at hload
        have hload' : (s.control_dependence_table.load
            (s.control_dependence_table.getOffset s.cdt_read_ptr 0 + i)).isSome := hload
        rw [Table.load, Table.getOffset, hc.row, hc.col, hc.height, Nat.add_zero] at hload'
        split at hload'
        · next hlt => exact hlt
        · cases hload'

/-- **What a profiler of all levels succeeds in fits the arrays.** -/
theorem roomy_of_step {e : Event} (ho : Ordered p m) (h : Refines cfg limit p m s)
    (hall : cfg.AllLevels limit) (hmove : p.Move limit e p') (hkeep : KeepsTimes cfg s e)
    (hstep : KremlinProfiler.step cfg s e = some s') : Roomy cfg p e := by
  have hqueue : ∀ src, s.functionArgQueuePushBack src = some s' →
      p.enqueued < FUNC_ARG_QUEUE_SIZE := by
    intro src hpush
    unfold functionArgQueuePushBack at hpush
    split at hpush
    · next hlt => rwa [h.args.written] at hlt
    · cases hpush
  cases hmove with
  | enterMain id hlimit hacts => exact roomy_enter h hall hlimit hstep
  | enterFunction id hlimit hacts hphase => exact roomy_enter h hall hlimit hstep
  | enterLoop id hlimit hacts hphase hty hnested => exact roomy_enter h hall hlimit hstep
  | @enqArg arg a rest hacts hphase harg =>
      exact hqueue arg ((if_pos h.levels.on).symm.trans hstep)
  | enqArgConst hacts hphase => exact hqueue _ ((if_pos h.levels.on).symm.trans hstep)
  | pushCDep hacts hphase hcond =>
      exact roomy_push h hall (Refines.depth_ne_zero ho hacts) hkeep hstep
  | retConst hacts hphase hret => exact roomy_retConst ho h hacts hphase hstep
  | work | exitFunction | exitLoop | instr | store | storeConst | popCDep | prepCall | deqArg
  | prepRTable | linkReturn | ret => trivial

/-! ## §2. Runs. -/

/-- **A run of a profiler that instruments all levels computes the analysis.** -/
theorem refines_run (ho : Ordered p m) (h : Refines cfg limit p m s)
    (hall : cfg.AllLevels limit) {es : List Event}
    (hp : run (Program.step limit) p es = some p') (hs : run (KremlinProfiler.step cfg) s es = some s')
    (hkeep : RunOk (KremlinProfiler.step cfg) (KeepsTimes cfg) s es) :
    RunOk (Program.step limit) (Roomy cfg) p es ∧
      ∃ m', run (analyse limit) (p, m) es = some (p', m') ∧ Ordered p' m' ∧
        Refines cfg limit p' m' s' := by
  induction es generalizing p m s with
  | nil =>
      cases hp
      cases hs
      exact ⟨trivial, m, rfl, ho, h⟩
  | cons e es ih =>
      obtain ⟨p₁, hp₁, hp₂⟩ := run_cons_eq_some.mp hp
      obtain ⟨s₁, hs₁, hs₂⟩ := run_cons_eq_some.mp hs
      have hmove := Program.step_move hp₁
      have hwin : cfg.min_level ≤ cfg.max_level := by rw [hall.first]; exact Nat.zero_le _
      have hroom := roomy_of_step ho h hall hmove hkeep.1 hs₁
      obtain ⟨s₁', hs₁', h₁⟩ := h.step ho hwin hmove hroom hkeep.1
      rw [hs₁] at hs₁'
      cases hs₁'
      obtain ⟨hrooms, m', hm', ho', h'⟩ := ih (ho.apply hmove) h₁ hp₂ hs₂ (hkeep.2 s₁ hs₁)
      refine ⟨⟨hroom, fun p₂ hp₂' => ?_⟩, m', ?_, ho', h'⟩
      · rw [hp₁] at hp₂'
        cases hp₂'
        exact hrooms
      · rw [run_cons, analyse, hp₁]
        exact hm'

/-- **A profiler of a window completes every run that fits the arrays and loses
no time**, and computes the analysis inside the window. -/
theorem refines_run_window (ho : Ordered p m) (h : Refines cfg limit p m s)
    (hwin : cfg.min_level ≤ cfg.max_level) {es : List Event} {m' : Analysis}
    (hp : run (analyse limit) (p, m) es = some (p', m'))
    (hroom : RunOk (Program.step limit) (Roomy cfg) p es)
    (hkeep : RunOk (KremlinProfiler.step cfg) (KeepsTimes cfg) s es) :
    ∃ s', run (KremlinProfiler.step cfg) s es = some s' ∧ Refines cfg limit p' m' s' := by
  induction es generalizing p m s with
  | nil =>
      cases hp
      exact ⟨s, rfl, h⟩
  | cons e es ih =>
      obtain ⟨⟨p₁, m₁⟩, hp₁, hp₂⟩ := run_cons_eq_some.mp hp
      obtain ⟨p₁', hstep, hpair⟩ := Option.map_eq_some_iff.mp hp₁
      cases hpair
      have hmove := Program.step_move hstep
      obtain ⟨s₁, hs₁, h₁⟩ := h.step ho hwin hmove hroom.1 hkeep.1
      obtain ⟨s', hs', h'⟩ := ih (ho.apply hmove) h₁ hp₂ (hroom.2 p₁ hstep) (hkeep.2 s₁ hs₁)
      exact ⟨s', run_cons_eq_some.mpr ⟨s₁, hs₁, hs'⟩, h'⟩

/-- A profiler of all levels loses a time only where a control dependence does
not fit its row. -/
theorem keepsTimes_all {e : Event} (ho : Ordered p m) (h : Refines cfg limit p m s)
    (hall : cfg.AllLevels limit) (hcol : limit ≤ cfg.cdep_col) (hmove : p.Move limit e p') :
    KeepsTimes cfg s e := by
  have hfirst := hall.first
  have hlast := hall.last
  have hwithin := h.levels.within
  have hlevel : p.depth ≠ 0 → s.curr_level ≤ cfg.max_level := by
    intro hdepth
    rw [h.levels.atLevel, show prevLevel p.depth = p.depth - 1 from if_neg hdepth]
    omega
  cases hmove with
  | pushCDep hacts hphase hcond =>
      have hdepth := Refines.depth_ne_zero ho hacts
      show s.curr_num_instrumented_levels ≤ cfg.cdep_col
      rw [h.num_eq hdepth, Config.instrumented]
      split <;> omega
  | deqArg hacts hphase hargs hdest hsrc => exact .inl (hlevel (Refines.depth_ne_zero ho hacts))
  | ret hacts hphase hsrc hret => exact hlevel (Refines.depth_ne_zero ho hacts)
  | retConst hacts hphase hret =>
      have hdepth := Refines.depth_ne_zero ho hacts
      exact .inr (Option.isSome_iff_ne_none.mpr (h.cdep.baseSet (by omega)))
  | work | enterMain | enterFunction | enterLoop | exitFunction | exitLoop | instr | store
  | storeConst | popCDep | prepCall | enqArg | enqArgConst | prepRTable | linkReturn => trivial

/-- A profiler with all levels and wide rows loses no time. -/
theorem runOk_keepsTimes (ho : Ordered p m) (h : Refines cfg limit p m s)
    (hall : cfg.AllLevels limit) (hcol : limit ≤ cfg.cdep_col) {es : List Event}
    (hp : run (Program.step limit) p es = some p') :
    RunOk (KremlinProfiler.step cfg) (KeepsTimes cfg) s es := by
  induction es generalizing p m s with
  | nil => trivial
  | cons e es ih =>
      obtain ⟨p₁, hp₁, hp₂⟩ := run_cons_eq_some.mp hp
      have hmove := Program.step_move hp₁
      have hwin : cfg.min_level ≤ cfg.max_level := by rw [hall.first]; exact Nat.zero_le _
      have hkeep := keepsTimes_all ho h hall hcol hmove
      refine ⟨hkeep, fun s₁ hs₁ => ?_⟩
      obtain ⟨s₁', hs₁', h₁⟩ :=
        h.step ho hwin hmove (roomy_of_step ho h hall hmove hkeep hs₁) hkeep
      rw [hs₁] at hs₁'
      cases hs₁'
      exact ih (ho.apply hmove) h₁ hp₂

end Runs

end Kremlin.Runtime
