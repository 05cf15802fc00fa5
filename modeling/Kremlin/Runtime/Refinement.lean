/-
  Kremlin.Runtime.Refinement — the profiler and the analysis.

  `Refines cfg limit p m s`: at the levels of the window `[min_level, max_level]`
  the profiler state `s` has what the analysis `m` of the program `p` has.
  Column `i` of a register table, a row of the control dependence table or a
  vector of the shadow memory is level `min_level + i`.  The relation is a
  conjunction of parts, each about a few fields (§2 to §6), so that an event
  only has to show the parts it touches.
-/
import Kremlin.Runtime.CriticalPath
import Kremlin.Runtime.UpdateLoops

namespace Kremlin.Runtime

open Kremlin.Library
open KremlinProfiler

/-! ## §1. The window. -/

/-- How many levels are instrumented when `n` regions are open. -/
def Config.instrumented (cfg : Config) (n : ℕ) : ℕ :=
  if n - 1 < cfg.min_level then 0 else min cfg.max_level (n - 1) - cfg.min_level + 1

/-- The indices of the open levels of the window. -/
theorem Config.lt_instrumented {cfg : Config} {n i : ℕ} (hwin : cfg.min_level ≤ cfg.max_level)
    (hn : n ≠ 0) :
    i < cfg.instrumented n ↔ cfg.min_level + i ≤ cfg.max_level ∧ cfg.min_level + i < n := by
  unfold Config.instrumented
  split <;> omega

/-! ## §2. Levels. -/

/-- Levels, their count and the array of regions. -/
structure LevelsOk (cfg : Config) (limit depth : ℕ) (enabled : Bool) (level num : ℕ)
    (current : Bool) (capacity : ℕ) : Prop where
  within : depth ≤ limit
  on : enabled = true
  atLevel : level = prevLevel depth
  bounded : depth ≤ arraySize
  room : depth ≤ capacity
  nonempty : 0 < capacity
  count : depth ≠ 0 → num = cfg.instrumented depth
  inWindow : depth ≠ 0 →
    current = decide (cfg.min_level ≤ depth - 1 ∧ depth - 1 ≤ cfg.max_level)

/-! ## §3. Regions. -/

/-- One open region.  Outside the window the profiler measures no critical path,
and at the deepest level of the window it does not see its children's, if there
are any. -/
structure RegionOk (cfg : Config) (l : ℕ) (a b : ProgramRegion) : Prop where
  id : b.regionId = a.regionId
  type : b.regionType = a.regionType
  start : b.start = a.start
  work : cfg.min_level ≤ l → b.childrenWork = a.childrenWork ∧ b.childCount = a.childCount
  cp : cfg.min_level ≤ l → l ≤ cfg.max_level → b.cp = a.cp
  children : cfg.min_level ≤ l → (l < cfg.max_level ∨ a.childCount = 0) →
    b.childrenCP = a.childrenCP ∧ b.childMaxCP = a.childMaxCP

/-- A region agrees with itself. -/
theorem RegionOk.refl (cfg : Config) (l : ℕ) (r : ProgramRegion) : RegionOk cfg l r r :=
  ⟨rfl, rfl, rfl, fun _ => ⟨rfl, rfl⟩, fun _ _ => rfl, fun _ _ => ⟨rfl, rfl⟩⟩

/-- The clock and the open regions. -/
structure RegionsOk (cfg : Config) (depth time : ℕ) (region : ℕ → ProgramRegion)
    (curr_time : ℕ) (program_regions : ℕ → ProgramRegion) : Prop where
  now : curr_time = time
  started : ∀ l < depth, (region l).start ≤ time
  regions : ∀ l < depth, RegionOk cfg l (region l) (program_regions l)

/-- Both sides extend their critical paths. -/
theorem RegionsOk.extend {cfg : Config} {depth : ℕ} {m : Analysis} {s : KremlinProfiler}
    (h : RegionsOk cfg depth m.time m.region s.curr_time s.program_regions)
    (hwin : cfg.min_level ≤ cfg.max_level) (hdepth : depth ≠ 0) {v w : ℕ → ℕ}
    (hvw : ∀ i < cfg.instrumented depth, w i = v (cfg.min_level + i)) :
    RegionsOk cfg depth m.time (m.extendPaths depth v).region s.curr_time
      (extendedRegions cfg s (cfg.instrumented depth) w) := by
  refine ⟨h.now, fun l hl => ?_, fun l hl => ?_⟩
  · show ((if l < depth then (m.region l).updateCriticalPathLength (v l) else m.region l)).start ≤ _
    rw [if_pos hl]
    exact h.started l hl
  · have hr := h.regions l hl
    show RegionOk cfg l (if l < depth then (m.region l).updateCriticalPathLength (v l)
      else m.region l) (extendedRegions cfg s _ w l)
    rw [if_pos hl, extendedRegions]
    by_cases hin : cfg.min_level ≤ l ∧ l < cfg.min_level + cfg.instrumented depth
    · rw [if_pos hin]
      have hi : l - cfg.min_level < cfg.instrumented depth := by omega
      have hval : w (l - cfg.min_level) = v l := by
        rw [hvw _ hi, show cfg.min_level + (l - cfg.min_level) = l by omega]
      refine ⟨hr.id, hr.type, hr.start, hr.work, fun hmin hmax => ?_, hr.children⟩
      show max _ _ = max _ _
      rw [hval, hr.cp hmin hmax]
    · rw [if_neg hin]
      refine ⟨hr.id, hr.type, hr.start, hr.work, fun hmin hmax => absurd ?_ hin, hr.children⟩
      have hi := (Config.lt_instrumented (i := l - cfg.min_level) hwin hdepth).mpr
        ⟨by omega, by omega⟩
      omega

/-! ## §4. Registers. -/

/-- A register table, in the window and above the next function. -/
structure TableOk (cfg : Config) (top : ℕ) (a : Activation) (reg : Registers) (t : Table) :
    Prop where
  row : t.row = a.rows
  col : t.col = a.level + a.nested + 1
  deep : top ≤ t.col
  entry : ∀ r < a.rows, ∀ i, cfg.min_level + i ≤ cfg.max_level → cfg.min_level + i < top →
    t.entry r i = reg r (cfg.min_level + i)

/-- An activation and its entry on the callstack. -/
structure FrameOk (cfg : Config) (top : ℕ) (a : Activation) (x : Registers × FunctionRegion) :
    Prop where
  linked : ∀ r ∈ a.linked, x.2.return_register = r ∧ r < a.rows
  fresh : a.phase = .entered → a.linked = none ∧ x.1 = fun _ _ => 0
  table : a.phase ≠ .entered → ∃ t, x.2.table = some t ∧ TableOk cfg top a x.1 t

/-- One register table for each activation. -/
def TablesOk (cfg : Config) (top : ℕ) (acts : List Activation) (regs : List Registers)
    (callstack : List FunctionRegion) : Prop :=
  ∃ xs, regs = xs.map Prod.fst ∧ callstack = xs.map Prod.snd ∧
    LevelFrames Activation.level (FrameOk cfg) top acts xs

/-- No activation, no table. -/
theorem tablesOk_nil {cfg : Config} {top : ℕ} {regs : List Registers}
    {callstack : List FunctionRegion} :
    TablesOk cfg top [] regs callstack ↔ regs = [] ∧ callstack = [] := by
  constructor
  · rintro ⟨xs, rfl, rfl, h⟩
    rw [frames_nil.mp h]
    exact ⟨rfl, rfl⟩
  · rintro ⟨rfl, rfl⟩
    exact ⟨[], rfl, rfl, trivial⟩

/-- The current activation has the table in front. -/
theorem tablesOk_cons {cfg : Config} {top : ℕ} {a : Activation} {acts : List Activation}
    {regs : List Registers} {callstack : List FunctionRegion} :
    TablesOk cfg top (a :: acts) regs callstack ↔
      ∃ reg regs' f fs, regs = reg :: regs' ∧ callstack = f :: fs ∧ FrameOk cfg top a (reg, f) ∧
        TablesOk cfg a.level acts regs' fs := by
  constructor
  · rintro ⟨xs, rfl, rfl, h⟩
    obtain ⟨⟨reg, f⟩, xs', rfl, hf, hrest⟩ := frames_cons.mp h
    exact ⟨reg, xs'.map Prod.fst, f, xs'.map Prod.snd, rfl, rfl, hf, xs', rfl, rfl, hrest⟩
  · rintro ⟨reg, regs', f, fs, rfl, rfl, hf, xs, rfl, rfl, hrest⟩
    exact ⟨(reg, f) :: xs, rfl, rfl, hf, hrest⟩

/-- Once its table is set up, the current function's is the register file. -/
def FileOk (acts : List Activation) (shadow_reg_file : Option ℕ) (height : ℕ) : Prop :=
  ∀ a ∈ acts.head?, a.phase ≠ .entered → shadow_reg_file = some (height - 1)

/-! ## §5. Control dependences. -/

/-- The rows below the current one.  A row is in use up to the level at which the
next one was pushed. -/
def OuterRows (cfg : Config) (t : Table) : List ℕ → List (ℕ → ℕ) → Prop
  | [], [] => True
  | q :: qs, c :: cs =>
      (∀ i < cfg.cdep_col, cfg.min_level + i ≤ cfg.max_level → cfg.min_level + i ≤ q →
        t.entry qs.length i = c (cfg.min_level + i)) ∧ OuterRows cfg t qs cs
  | _, _ => False

/-- Rows in use do not change when later rows do. -/
theorem OuterRows.congr {cfg : Config} {t t' : Table} {qs : List ℕ} {cs : List (ℕ → ℕ)}
    (h : OuterRows cfg t qs cs)
    (hrows : ∀ r < qs.length, ∀ i < cfg.cdep_col, t'.entry r i = t.entry r i) :
    OuterRows cfg t' qs cs := by
  induction qs generalizing cs with
  | nil => cases cs <;> exact h
  | cons q qs ih =>
      cases cs with
      | nil => exact h
      | cons c cs =>
          refine ⟨fun i hi hmax hq => ?_, ih h.2 fun r hr => hrows r (Nat.lt_succ_of_lt hr)⟩
          rw [hrows qs.length (Nat.lt_succ_self _) i hi]
          exact h.1 i hi hmax hq

/-- The current row may run past the end of the table's row, which is free: the
next row is pushed where all levels still fit (`narrow`). -/
structure CdepOk (cfg : Config) (depth : ℕ) (cdeps : List ℕ) (cdep : ℕ → ℕ)
    (outer : List (ℕ → ℕ)) (t : Table) (ptr : ℕ) (base : Option ℕ) : Prop where
  row : t.row = cfg.cdep_row
  col : t.col = cfg.cdep_col
  height : ptr = cdeps.length
  room : ptr < cfg.cdep_row
  atRow : base = none ∨ base = some (t.getOffset ptr 0)
  baseSet : cfg.min_level < depth → base ≠ none
  inside : ∀ i, cfg.min_level + i ≤ cfg.max_level → cfg.min_level + i < depth →
    t.getOffset ptr i < t.row * t.col
  current : ∀ i, cfg.min_level + i ≤ cfg.max_level → cfg.min_level + i < depth →
    t.entry ptr i = cdep (cfg.min_level + i)
  narrow : ∀ q ∈ cdeps, cfg.instrumented (q + 1) ≤ cfg.cdep_col
  below : OuterRows cfg t cdeps outer

/-! ## §6. Arguments and memory. -/

/-- The arguments between the two indices of the queue. -/
structure ArgsOk (args : List ℕ) (enqueued : ℕ) (queue : ℕ → ℕ) (read write : ℕ) : Prop where
  written : write = enqueued
  pending : read + args.length = enqueued
  bounded : enqueued ≤ FUNC_ARG_QUEUE_SIZE
  content : ∀ j (hj : j < args.length), queue (read + j) = args[j]

/-- The words as the current versions show them. -/
structure MemOk (cfg : Config) (depth : ℕ) (mem : ℕ → ℕ → ℕ) (shadow : VersionedMap ℕ)
    (versions : ℕ → ℕ) (nextVersion : ℕ) : Prop where
  view : ∀ w i, cfg.min_level + i ≤ cfg.max_level → cfg.min_level + i < depth →
    shadow.view (fun j => versions (cfg.min_level + j)) w i = mem w (cfg.min_level + i)
  below : shadow.Below nextVersion
  issued : ∀ l < depth, versions l < nextVersion

/-! ## §7. The relation. -/

/-- The relation, part by part. -/
structure Refines (cfg : Config) (limit : ℕ) (p : Program) (m : Analysis) (s : KremlinProfiler) :
    Prop where
  levels : LevelsOk cfg limit p.depth s.enabled s.curr_level s.curr_num_instrumented_levels
    s.instrument_curr_level s.num_regions
  regions : RegionsOk cfg p.depth m.time m.region s.curr_time s.program_regions
  tables : TablesOk cfg p.depth p.acts m.regs s.callstack
  file : FileOk p.acts s.shadow_reg_file s.callstack.length
  cdep : CdepOk cfg p.depth p.cdeps m.cdep m.outer s.control_dependence_table s.cdt_read_ptr
    s.cdt_current_base
  args : ArgsOk p.args p.enqueued s.function_arg_queue s.arg_queue_read_index
    s.arg_queue_write_index
  mem : MemOk cfg p.depth m.mem s.shadow_mem s.level_versions s.nextVersion

/-- It holds at the start. -/
theorem refines_init (cfg : Config) (limit v : ℕ) (hrow : 0 < cfg.cdep_row) :
    Refines cfg limit Program.start Analysis.start (init cfg v) where
  levels :=
    { within := Nat.zero_le _
      on := rfl
      atLevel := rfl
      bounded := Nat.zero_le _
      room := Nat.zero_le _
      nonempty := by show 0 < INIT_NUM_REGIONS; decide
      count := fun h => absurd rfl h
      inWindow := fun h => absurd rfl h }
  regions := ⟨rfl, fun l hl => absurd hl (Nat.not_lt_zero l), fun l hl => absurd hl (Nat.not_lt_zero l)⟩
  tables := tablesOk_nil.mpr ⟨rfl, rfl⟩
  file := fun a ha => absurd ha (by simp [Program.start])
  cdep :=
    { row := rfl
      col := rfl
      height := rfl
      room := hrow
      atRow := .inl rfl
      baseSet := fun h => absurd h (Nat.not_lt_zero _)
      inside := fun _ _ h => absurd h (Nat.not_lt_zero _)
      current := fun _ _ h => absurd h (Nat.not_lt_zero _)
      narrow := fun q hq => absurd hq List.not_mem_nil
      below := trivial }
  args := ⟨rfl, rfl, Nat.zero_le _, fun j hj => absurd hj (Nat.not_lt_zero j)⟩
  mem := ⟨fun _ _ _ h => absurd h (Nat.not_lt_zero _), VersionedMap.below_empty v,
    fun l hl => absurd hl (Nat.not_lt_zero l)⟩

section Use

variable {cfg : Config} {limit : ℕ} {p : Program} {m : Analysis} {s : KremlinProfiler}
  {a : Activation} {rest : List Activation}

/-- The number of instrumented levels. -/
theorem Refines.num_eq (h : Refines cfg limit p m s) (hdepth : p.depth ≠ 0) :
    s.curr_num_instrumented_levels = cfg.instrumented p.depth := h.levels.count hdepth

/-- The control dependence at an instrumented index. -/
theorem Refines.getCdep (h : Refines cfg limit p m s) (hwin : cfg.min_level ≤ cfg.max_level)
    (hdepth : p.depth ≠ 0) {i : ℕ} (hi : i < cfg.instrumented p.depth) :
    s.getControlDependenceAtIndex i = some (m.cdep (cfg.min_level + i)) := by
  obtain ⟨hmax, hlt⟩ := (Config.lt_instrumented hwin hdepth).mp hi
  have hc := h.cdep
  have hbase : s.cdt_current_base
      = some (s.control_dependence_table.getOffset s.cdt_read_ptr 0) := by
    rcases hc.atRow with hnone | hsome
    · exact absurd hnone (hc.baseSet (by omega))
    · exact hsome
  rw [getControlDependenceAtIndex, hbase]
  show s.control_dependence_table.load (_ * s.cdt_read_ptr + 0 + i) = _
  rw [Nat.add_zero, ← hc.current i hmax hlt]
  exact if_pos (hc.inside i hmax hlt)

/-- The current activation on both sides. -/
theorem Refines.current (h : Refines cfg limit p m s) (hacts : p.acts = a :: rest)
    (hphase : a.phase ≠ .entered) :
    ∃ reg regs f fs t, m.regs = reg :: regs ∧ OwnTable s f fs t ∧ TableOk cfg p.depth a reg t ∧
      (∀ r ∈ a.linked, f.return_register = r ∧ r < a.rows) ∧ TablesOk cfg a.level rest regs fs := by
  have htables := h.tables
  rw [hacts] at htables
  obtain ⟨reg, regs, f, fs, hregs, hstack, hframe, hrest⟩ := tablesOk_cons.mp htables
  obtain ⟨t, ht, htable⟩ := hframe.table hphase
  have hfile := h.file a (by rw [hacts]; rfl) hphase
  rw [hstack, List.length_cons, Nat.add_sub_cancel] at hfile
  exact ⟨reg, regs, f, fs, t, hregs, ⟨hstack, hfile, ht⟩, htable, hframe.linked, hrest⟩

/-- The state with another register table, and the analysis with other
registers. -/
theorem Refines.withTable (h : Refines cfg limit p m s) (hacts : p.acts = a :: rest)
    (hphase : a.phase ≠ .entered) {f : FunctionRegion} {fs : List FunctionRegion} {regs : List Registers} {reg : Registers}
    {t : Table} (hstack : s.callstack = f :: fs)
    (hlinked : ∀ r ∈ a.linked, f.return_register = r ∧ r < a.rows)
    (htable : TableOk cfg p.depth a reg t) (hrest : TablesOk cfg a.level rest regs fs)
    {region regions : ℕ → ProgramRegion}
    (hregions : RegionsOk cfg p.depth m.time region s.curr_time regions) :
    Refines cfg limit p { m with regs := reg :: regs, region := region }
      (s.withTable f fs t regions) where
  levels := h.levels
  regions := hregions
  tables := by
    rw [hacts]
    exact tablesOk_cons.mpr ⟨reg, regs, _, fs, rfl, rfl, ⟨hlinked,
      fun he => absurd he hphase, fun _ => ⟨t, rfl, htable⟩⟩, hrest⟩
  file := by
    have hf := h.file
    rw [hstack] at hf
    exact hf
  cdep := h.cdep
  args := h.args
  mem := h.mem

end Use

end Kremlin.Runtime
