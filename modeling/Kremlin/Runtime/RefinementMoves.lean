/-
  Kremlin.Runtime.RefinementMoves — regions and control dependences.

  The events that open and close regions, and those that push and pop control
  dependences, each with what it keeps of the relation of `RefinementStep`.
  Calls and returns follow in `RefinementCalls`.
-/
import Kremlin.Runtime.RefinementStep

namespace Kremlin.Runtime

open Kremlin.Library
open KremlinProfiler

section Moves

variable {cfg : Config} {limit : ℕ} {p p' : Program} {m : Analysis} {s : KremlinProfiler}
  {a : Activation} {rest : List Activation}

/-! ## §1. Entering a region. -/

/-- A region starts now. -/
theorem RegionsOk.enter {depth time : ℕ} {region regions : ℕ → ProgramRegion} {curr_time : ℕ}
    (h : RegionsOk cfg depth time region curr_time regions) (id : SID) (ty : RegionType) :
    RegionsOk cfg (depth + 1) time
      (fun l => if l = depth then .init id ty time else region l) curr_time
      (fun l => if l = depth then .init id ty curr_time else regions l) := by
  refine ⟨h.now, fun l hl => ?_, fun l hl => ?_⟩
  · by_cases hd : l = depth
    · rw [if_pos hd]
      exact le_rfl
    · rw [if_neg hd]
      exact h.started l (by omega)
  · by_cases hd : l = depth
    · rw [if_pos hd, if_pos hd, h.now]
      exact .refl cfg l _
    · rw [if_neg hd, if_neg hd]
      exact h.regions l (by omega)

/-- A fresh version clears the new level in every word. -/
theorem MemOk.enter {depth next : ℕ} {mem : ℕ → ℕ → ℕ} {shadow : VersionedMap ℕ}
    {versions : ℕ → ℕ} (h : MemOk cfg depth mem shadow versions next)
    (hmem : ∀ w, mem w depth = 0) :
    MemOk cfg (depth + 1) mem shadow (fun l => if l = depth then next else versions l)
      (next + 1) := by
  refine ⟨fun w i hmax hlt => ?_, h.below.mono (Nat.le_succ _), fun l hl => ?_⟩
  · by_cases hd : cfg.min_level + i = depth
    · rw [h.below.view_fresh (by rw [if_pos hd]) w, hd, hmem w]
    · rw [← h.view w i hmax (by omega)]
      exact shadow.view_congr (if_neg hd) w
  · by_cases hd : l = depth
    · rw [if_pos hd]
      omega
    · rw [if_neg hd]
      have := h.issued l (by omega)
      omega

/-- The control dependence is cleaned at the new level. -/
theorem CdepOk.enter {depth ptr : ℕ} {cdeps : List ℕ} {cdep : ℕ → ℕ} {outer : List (ℕ → ℕ)}
    {base : Option ℕ}
    (h : CdepOk cfg depth cdeps cdep outer s.control_dependence_table ptr base)
    (hptr : s.cdt_read_ptr = ptr) (hbase : s.cdt_current_base = base)
    (hwin : cfg.min_level ≤ cfg.max_level) (hlevel : s.curr_level = depth)
    (hcurr : s.instrument_curr_level
      = decide (cfg.min_level ≤ depth ∧ depth ≤ cfg.max_level)) (hcdep : cdep depth = 0)
    (hroom : cfg.cdep_col * cdeps.length + depth < cfg.cdep_row * cfg.cdep_col) :
    ∃ t' base', enterControlDependences cfg s
        = some { s with control_dependence_table := t', cdt_current_base := base' } ∧
      CdepOk cfg (depth + 1) cdeps cdep outer t' ptr base' := by
  have hrow := h.row
  have hcol := h.col
  have hheight := h.height
  unfold enterControlDependences
  by_cases hin : cfg.min_level ≤ depth ∧ depth ≤ cfg.max_level
  · -- inside the window: the region's own column is set to 0
    have hon : s.instrument_curr_level = true := by rw [hcurr]; exact decide_eq_true hin
    have hnew : s.control_dependence_table.getOffset ptr (depth - cfg.min_level)
        < s.control_dependence_table.row * s.control_dependence_table.col := by
      rw [Table.getOffset, hrow, hcol, hheight]
      omega
    obtain ⟨t', ht', hrow', hcol', hentry⟩ := s.control_dependence_table.setValue_flat 0 hnew
    have hoffset : ∀ r c, t'.getOffset r c = s.control_dependence_table.getOffset r c := by
      intro r c
      rw [Table.getOffset, Table.getOffset, hcol']
    refine ⟨t', some (t'.getOffset ptr 0), ?_, ?_⟩
    · rw [if_pos hon, initRegionControlDependences, getCurrentLevelIndex, hlevel, hptr, ht']
      simp only [Option.bind_eq_bind, Option.bind_some, setCdtBase]
    · refine ⟨hrow'.trans hrow, hcol'.trans hcol, hheight, h.room, .inr rfl,
        fun _ => Option.some_ne_none _, fun i hmax hlt => ?_, fun i hmax hlt => ?_, h.narrow,
        h.below.congr fun r hr i hi => ?_⟩
      · rw [hoffset, hrow', hcol']
        by_cases hd : cfg.min_level + i = depth
        · rw [show i = depth - cfg.min_level by omega]
          exact hnew
        · exact h.inside i hmax (by omega)
      · rw [hentry]
        by_cases hd : cfg.min_level + i = depth
        · rw [show i = depth - cfg.min_level by omega, if_pos rfl,
            show cfg.min_level + (depth - cfg.min_level) = depth by omega, hcdep]
        · rw [if_neg, h.current i hmax (by omega)]
          rw [Table.getOffset, Table.getOffset]
          omega
      · -- rows below end before the current one starts
        rw [hentry, if_neg]
        rw [Table.getOffset, Table.getOffset, hcol]
        have hrows : cfg.cdep_col * (r + 1) ≤ cfg.cdep_col * ptr :=
          Nat.mul_le_mul_left _ (by omega)
        rw [Nat.mul_succ] at hrows
        omega
  · -- outside of it nothing is written
    have hoff : s.instrument_curr_level = false := by rw [hcurr]; exact decide_eq_false hin
    refine ⟨s.control_dependence_table, s.cdt_current_base,
      if_neg (by rw [hoff]; exact Bool.false_ne_true), ?_⟩
    rw [hbase]
    exact ⟨hrow, hcol, hheight, h.room, h.atRow, fun hlt => h.baseSet (by omega),
      fun i hmax hlt => h.inside i hmax (by omega), fun i hmax hlt => h.current i hmax (by omega),
      h.narrow, h.below⟩

/-- The levels after `incrementLevel`. -/
theorem LevelsOk.enter {depth level num capacity : ℕ} {enabled current : Bool}
    (h : LevelsOk cfg limit depth enabled level num current capacity) (hlimit : depth < limit)
    (hroom : depth < arraySize) :
    LevelsOk cfg limit (depth + 1) enabled depth
      (if depth < cfg.min_level then 0 else min cfg.max_level depth - cfg.min_level + 1)
      (decide (depth ≥ cfg.min_level ∧ depth ≤ cfg.max_level))
      (if depth = capacity then capacity + capacity else capacity) where
  within := hlimit
  on := h.on
  atLevel := (prevLevel_succ depth).symm
  bounded := hroom
  room := by
    have := h.room
    have := h.nonempty
    split <;> omega
  nonempty := by
    have := h.nonempty
    split <;> omega
  count _ := rfl
  inWindow _ := rfl

/-- A function is entered, by the first call of the program or by another
function. -/
theorem Refines.enterFunction (ho : Ordered p m) (h : Refines cfg limit p m s)
    (hwin : cfg.min_level ≤ cfg.max_level) (hlimit : p.depth < limit) (id : SID)
    (hroom : Roomy cfg p (.enterRegion id .regionFunc))
    {acts : List Activation}
    (htables : TablesOk cfg p.depth acts m.regs s.callstack) :
    ∃ s', handleRegionEntry cfg id .regionFunc s = some s' ∧
      Refines cfg limit
        { p with
          regions := ⟨id, .regionFunc, 0, 0⟩ :: p.regions
          acts := ⟨p.depth, .entered, 0, 0, none⟩ :: acts }
        (m.apply p (.enterRegion id .regionFunc)) s' := by
  -- the level entered is the number of open regions
  have hnext : nextLevel s.curr_level = p.depth := by
    rw [h.levels.atLevel, nextLevel_prevLevel h.levels.bounded]
  rw [handleRegionEntry_eq h.levels.on (by rw [hnext]; exact hroom.1)
    (by rw [hnext]; exact h.levels.room) h.levels.nonempty]
  have hregs : enterRegisters cfg .regionFunc (opened cfg id .regionFunc s)
      = some ((opened cfg id .regionFunc s).addFunctionToStack s.last_callsite_id) := if_pos rfl
  rw [hregs, Option.bind_some]
  generalize hs₁ : ((opened cfg id .regionFunc s).addFunctionToStack s.last_callsite_id).openContext
    id ((opened cfg id .regionFunc s).addFunctionToStack s.last_callsite_id).contextCallSite
    .regionFunc = s₁
  have hlevels := h.levels.enter hlimit hroom.1
  -- the control dependences come last
  obtain ⟨t', base', hstep, hcdep⟩ := CdepOk.enter (s := s₁)
    (by rw [← hs₁]; exact h.cdep) (by rw [← hs₁]; rfl) (by rw [← hs₁]; rfl) hwin
    (by rw [← hs₁]; exact hnext)
    (by rw [← hs₁]; show decide _ = _; rw [hnext]) (ho.cdep.2 p.depth le_rfl) hroom.2
  refine ⟨_, hstep, ?_⟩
  rw [← hs₁]
  refine ⟨?_, ?_, ?_, ?_, hcdep, h.args, ?_⟩
  · show LevelsOk cfg limit (p.depth + 1) s.enabled (nextLevel s.curr_level)
      (if nextLevel s.curr_level < cfg.min_level then 0
        else min cfg.max_level (nextLevel s.curr_level) - cfg.min_level + 1)
      (decide (nextLevel s.curr_level ≥ cfg.min_level ∧ nextLevel s.curr_level ≤ cfg.max_level))
      (if nextLevel s.curr_level = s.num_regions then s.num_regions + s.num_regions
        else s.num_regions)
    rw [hnext]
    exact hlevels
  · show RegionsOk cfg (p.depth + 1) m.time _ s.curr_time fun l =>
      if l = nextLevel s.curr_level then .init id .regionFunc s.curr_time else s.program_regions l
    rw [hnext]
    exact h.regions.enter id .regionFunc
  · exact tablesOk_cons.mpr ⟨_, m.regs, _, s.callstack, rfl, rfl,
      ⟨fun r hr => absurd hr (Option.not_mem_none r), fun _ => ⟨rfl, rfl⟩, fun hne => absurd rfl hne⟩, htables⟩
  · intro b hb hne
    cases hb
    exact absurd rfl hne
  · show MemOk cfg (p.depth + 1) m.mem s.shadow_mem
      (fun l => if l = nextLevel s.curr_level then s.nextVersion else s.level_versions l) _
    rw [hnext]
    exact h.mem.enter fun w => (ho.mem w).2 p.depth le_rfl

/-- A loop or a loop body is entered: its level is cleaned in the current
register table. -/
theorem Refines.enterLoop (ho : Ordered p m) (h : Refines cfg limit p m s)
    (hwin : cfg.min_level ≤ cfg.max_level) (hlimit : p.depth < limit) (id : SID)
    {ty : RegionType} (hroom : Roomy cfg p (.enterRegion id ty)) (hty : ty ≠ .regionFunc) (hacts : p.acts = a :: rest)
    (hphase : a.phase ≠ .entered) (hnested : p.depth ≤ a.level + a.nested) :
    ∃ s', handleRegionEntry cfg id ty s = some s' ∧
      Refines cfg limit
        { p with
          regions := ⟨id, ty, 0, 0⟩ :: p.regions
          acts := { a with phase := .body } :: rest }
        (m.apply p (.enterRegion id ty)) s' := by
  have hnext : nextLevel s.curr_level = p.depth := by
    rw [h.levels.atLevel, nextLevel_prevLevel h.levels.bounded]
  obtain ⟨reg, regs, f, fs, t, hregs, hown, htable, hlinked, hrest⟩ := h.current hacts hphase
  rw [handleRegionEntry_eq h.levels.on (by rw [hnext]; exact hroom.1)
    (by rw [hnext]; exact h.levels.room) h.levels.nonempty]
  have hcurr : (opened cfg id ty s).instrument_curr_level
      = decide (cfg.min_level ≤ p.depth ∧ p.depth ≤ cfg.max_level) := by
    show decide (nextLevel s.curr_level ≥ cfg.min_level ∧ nextLevel s.curr_level ≤ cfg.max_level) = _
    rw [hnext]
  have hown₀ : OwnTable (opened cfg id ty s) f fs t := ⟨hown.stack, hown.file, hown.table⟩
  obtain ⟨reg', regs', hregs', hoframe, -⟩ := ho.current hacts
  rw [hregs] at hregs'
  cases hregs'
  -- the table after cleaning, if the level is in the window
  obtain ⟨t', henter, htable'⟩ : ∃ t', enterRegisters cfg ty (opened cfg id ty s)
        = some ((opened cfg id ty s).withTable f fs t' (opened cfg id ty s).program_regions) ∧
      TableOk cfg (p.depth + 1) { a with phase := .body } reg t' := by
    unfold enterRegisters
    rw [if_neg hty]
    have hdeep : p.depth < t.col := by
      have := htable.col
      omega
    by_cases hin : cfg.min_level ≤ p.depth ∧ p.depth ≤ cfg.max_level
    · have hon : (opened cfg id ty s).instrument_curr_level = true := by
        rw [hcurr]; exact decide_eq_true hin
      obtain ⟨t', hz, hrow, hcol, hentry⟩ := hown₀.zeroRegisters
        (show p.depth - cfg.min_level < t.col by omega)
      refine ⟨t', ?_, hrow.trans htable.row, hcol.trans htable.col, by omega,
        fun r hr i hmax hlt => ?_⟩
      · rw [if_pos hon, getCurrentLevelIndex,
          show (opened cfg id ty s).curr_level = p.depth from hnext]
        exact hz
      · have hic : i < t.col := by omega
        rw [hentry r i (by rw [htable.row]; exact hr) hic]
        by_cases hd : cfg.min_level + i = p.depth
        · rw [if_pos (by omega), hd]
          exact ((hoframe.ordered r).2 p.depth le_rfl).symm
        · rw [if_neg (by omega)]
          exact htable.entry r hr i hmax (by omega)
    · have hoff : (opened cfg id ty s).instrument_curr_level = false := by
        rw [hcurr]; exact decide_eq_false hin
      refine ⟨t, ?_, htable.row, htable.col, by omega, fun r hr i hmax hlt => ?_⟩
      · rw [if_neg (by rw [hoff]; exact Bool.false_ne_true), hown₀.withTable_self]
      · exact htable.entry r hr i hmax (by omega)
  rw [henter, Option.bind_some]
  generalize hs₁ : ((opened cfg id ty s).withTable f fs t' (opened cfg id ty s).program_regions).openContext
    id ((opened cfg id ty s).withTable f fs t' (opened cfg id ty s).program_regions).contextCallSite
    ty = s₁
  obtain ⟨t'', base', hstep, hcdep⟩ := CdepOk.enter (s := s₁)
    (by rw [← hs₁]; exact h.cdep) (by rw [← hs₁]; rfl) (by rw [← hs₁]; rfl) hwin
    (by rw [← hs₁]; exact hnext) (by rw [← hs₁]; exact hcurr) (ho.cdep.2 p.depth le_rfl) hroom.2
  refine ⟨_, hstep, ?_⟩
  rw [← hs₁]
  have happly : m.apply p (.enterRegion id ty) = { m with
      region := fun l => if l = p.depth then .init id ty m.time else m.region l } := if_neg hty
  rw [happly]
  refine ⟨?_, ?_, ?_, ?_, hcdep, h.args, ?_⟩
  · show LevelsOk cfg limit (p.depth + 1) s.enabled (nextLevel s.curr_level)
      (if nextLevel s.curr_level < cfg.min_level then 0
        else min cfg.max_level (nextLevel s.curr_level) - cfg.min_level + 1)
      (decide (nextLevel s.curr_level ≥ cfg.min_level ∧ nextLevel s.curr_level ≤ cfg.max_level))
      (if nextLevel s.curr_level = s.num_regions then s.num_regions + s.num_regions
        else s.num_regions)
    rw [hnext]
    exact h.levels.enter hlimit hroom.1
  · show RegionsOk cfg (p.depth + 1) m.time _ s.curr_time fun l =>
      if l = nextLevel s.curr_level then .init id ty s.curr_time else s.program_regions l
    rw [hnext]
    exact h.regions.enter id ty
  · exact tablesOk_cons.mpr ⟨reg, regs, _, fs, hregs, rfl,
      ⟨hlinked, Phase.noConfusion, fun _ => ⟨t', rfl, htable'⟩⟩, hrest⟩
  · intro b hb hne
    exact hown.file
  · show MemOk cfg (p.depth + 1) m.mem s.shadow_mem
      (fun l => if l = nextLevel s.curr_level then s.nextVersion else s.level_versions l) _
    rw [hnext]
    exact h.mem.enter fun w => (ho.mem w).2 p.depth le_rfl

/-! ## §2. Leaving a region. -/

/-- The parent is charged on both sides. -/
theorem RegionsOk.leave {n : ℕ}
    (h : RegionsOk cfg (n + 1) m.time m.region s.curr_time s.program_regions)
    (hlevel : s.curr_level = n) :
    RegionsOk cfg n m.time (m.leave n).region s.curr_time (chargedRegions cfg s) := by
  -- the work is the time since the start
  have hwork : s.deepestWork = m.time - (m.region n).start := by
    have hstart := h.started n (Nat.lt_succ_self n)
    rw [deepestWork, hlevel, h.now, (h.regions n (Nat.lt_succ_self n)).start, usub_of_le hstart]
  have hregion : ∀ l, (m.leave n).region l = if l + 1 = n then
      (m.region l).addChild (m.time - (m.region n).start) (m.region n).cp else m.region l :=
    fun _ => rfl
  refine ⟨h.now, fun l hl => ?_, fun l hl => ?_⟩
  · rw [hregion]
    split <;> exact h.started l (by omega)
  · have hr := h.regions l (by omega)
    rw [hregion, chargedRegions, hlevel]
    by_cases hparent : l + 1 = n
    · rw [if_pos hparent]
      by_cases hmin : cfg.min_level < n
      · rw [if_pos ⟨hmin, by omega⟩]
        refine ⟨hr.id, hr.type, hr.start, fun hl => ?_, hr.cp, fun hl hmax => ?_⟩
        · obtain ⟨hw, hc⟩ := hr.work hl
          show _ + _ = _ + _ ∧ _ + 1 = _ + 1
          rw [hw, hc, hwork]
          exact ⟨rfl, rfl⟩
        · -- the child is still inside the window
          have hmax : l < cfg.max_level := hmax.resolve_right (Nat.succ_ne_zero _)
          obtain ⟨hc, hm⟩ := hr.children hl (.inl hmax)
          have hcp := (h.regions n (Nat.lt_succ_self n)).cp (by omega) (by omega)
          show _ + _ = _ + _ ∧ (if _ then _ else _) = if _ then _ else _
          rw [hc, hm, hcp]
          exact ⟨rfl, rfl⟩
      · rw [if_neg (fun hand => hmin hand.1)]
        exact ⟨hr.id, hr.type, hr.start, fun hl => absurd hl (by omega), hr.cp,
          fun hl => absurd hl (by omega)⟩
    · rw [if_neg hparent, if_neg (by omega)]
      exact hr

/-- One level less. -/
theorem LevelsOk.leave {n level num capacity : ℕ} {enabled current : Bool}
    (h : LevelsOk cfg limit (n + 1) enabled level num current capacity) :
    LevelsOk cfg limit n enabled (prevLevel n)
      (if prevLevel n < cfg.min_level then 0
        else min cfg.max_level (prevLevel n) - cfg.min_level + 1)
      (decide (prevLevel n ≥ cfg.min_level ∧ prevLevel n ≤ cfg.max_level)) capacity where
  within := by have := h.within; omega
  on := h.on
  atLevel := rfl
  bounded := by have := h.bounded; omega
  room := by have := h.room; omega
  nonempty := h.nonempty
  count hn := by
    rw [show prevLevel n = n - 1 from if_neg hn]
    rfl
  inWindow hn := by
    rw [show prevLevel n = n - 1 from if_neg hn]

/-- The words lose the component. -/
theorem MemOk.leave {n next : ℕ} {mem : ℕ → ℕ → ℕ} {shadow : VersionedMap ℕ} {versions : ℕ → ℕ}
    (h : MemOk cfg (n + 1) mem shadow versions next) :
    MemOk cfg n (fun w => cut n (mem w)) shadow versions next where
  view w i hmax hlt := by
    rw [cut_of_lt _ hlt]
    exact h.view w i hmax (by omega)
  below := h.below
  issued l hl := h.issued l (by omega)

/-- So do the dependences. -/
theorem CdepOk.leave {n ptr : ℕ} {cdeps : List ℕ} {cdep : ℕ → ℕ} {outer : List (ℕ → ℕ)}
    {t : Table} {base : Option ℕ} (h : CdepOk cfg (n + 1) cdeps cdep outer t ptr base) :
    CdepOk cfg n cdeps (cut n cdep) outer t ptr base where
  row := h.row
  col := h.col
  height := h.height
  room := h.room
  atRow := h.atRow
  baseSet hlt := h.baseSet (by omega)
  inside i hmax hlt := h.inside i hmax (by omega)
  current i hmax hlt := by
    rw [cut_of_lt _ hlt]
    exact h.current i hmax (by omega)
  narrow := h.narrow
  below := h.below

/-- The deepest region is closed; what is left to show is that the registers of
the functions still active are in order. -/
theorem Refines.leave (h : Refines cfg limit p m s) {r : OpenRegion} {rs : List OpenRegion}
    (hregions : p.regions = r :: rs) {ty : RegionType} {f : FunctionRegion}
    {fs : List FunctionRegion} (hstack : s.callstack = f :: fs) {acts : List Activation}
    {regs : List Registers}
    (htables : TablesOk cfg rs.length acts regs (if ty = .regionFunc then fs else f :: fs))
    (hfile : FileOk acts
      (if ty = .regionFunc ∧ fs ≠ [] then some (fs.length - 1) else s.shadow_reg_file)
      (if ty = .regionFunc then fs else f :: fs).length) :
    ∃ s', s.closeDeepest cfg ty = some s' ∧
      Refines cfg limit { p with regions := rs, acts := acts }
        { m.leave rs.length with regs := regs } s' := by
  have hdepth : p.depth = rs.length + 1 := by rw [Program.depth, hregions, List.length_cons]
  have hlevels := h.levels
  have hreg := h.regions
  have hcdep := h.cdep
  have hmem := h.mem
  rw [hdepth] at hlevels hreg hcdep hmem
  have hlevel : s.curr_level = rs.length := hlevels.atLevel.trans (prevLevel_succ _)
  have hroom := hlevels.room
  refine ⟨_, closeDeepest_eq cfg ty (by omega) hstack, ?_, hreg.leave hlevel, htables, hfile,
    hcdep.leave, h.args, hmem.leave⟩
  show LevelsOk cfg limit rs.length s.enabled (prevLevel s.curr_level)
    (if prevLevel s.curr_level < cfg.min_level then 0
      else min cfg.max_level (prevLevel s.curr_level) - cfg.min_level + 1)
    (decide (prevLevel s.curr_level ≥ cfg.min_level ∧ prevLevel s.curr_level ≤ cfg.max_level))
    s.num_regions
  rw [hlevel]
  exact hlevels.leave

/-- A function is left. -/
theorem Refines.exitFunction (h : Refines cfg limit p m s)
    (hacts : p.acts = a :: rest) (hphase : a.phase ≠ .entered) {r : OpenRegion}
    {rs : List OpenRegion} (hregions : p.regions = r :: rs) (hlevel : a.level = rs.length) :
    ∃ s', handleRegionExit cfg r.id .regionFunc s = some s' ∧
      Refines cfg limit { p with regions := rs, acts := rest } (m.leaveFunction rs.length) s' := by
  obtain ⟨reg, regs, f, fs, t, hregs, hown, -, -, hrest⟩ := h.current hacts hphase
  have htail : m.regs.tail = regs := by rw [hregs, List.tail_cons]
  rw [handleRegionExit, if_pos h.levels.on, Analysis.leaveFunction, htail]
  refine h.leave hregions hown.stack (by rw [if_pos rfl, ← hlevel]; exact hrest) ?_
  intro b hb _
  rw [if_pos rfl, if_pos]
  refine ⟨rfl, fun hnil => ?_⟩
  -- a caller has a table on the callstack
  cases rest with
  | nil => cases hb
  | cons c cs =>
      obtain ⟨-, -, g, gs, -, hg, -⟩ := tablesOk_cons.mp hrest
      rw [hnil] at hg
      cases hg

/-- A loop or its body is left. -/
theorem Refines.exitLoop (h : Refines cfg limit p m s)
    (hacts : p.acts = a :: rest) (hphase : a.phase ≠ .entered) {r : OpenRegion}
    {rs : List OpenRegion} (hregions : p.regions = r :: rs) {ty : RegionType}
    (hty : ty ≠ .regionFunc) :
    ∃ s', handleRegionExit cfg r.id ty s = some s' ∧
      Refines cfg limit { p with regions := rs, acts := { a with phase := .body } :: rest }
        (m.leaveLoop rs.length) s' := by
  obtain ⟨reg, regs, f, fs, t, hregs, hown, htable, hlinked, hrest⟩ := h.current hacts hphase
  have hdepth : p.depth = rs.length + 1 := by rw [Program.depth, hregions, List.length_cons]
  rw [handleRegionExit, if_pos h.levels.on]
  refine h.leave hregions hown.stack ?_ ?_
  · rw [if_neg hty, hregs, List.tail_cons]
    have hdeep := htable.deep
    refine tablesOk_cons.mpr ⟨_, regs, f, fs, rfl, rfl, ⟨hlinked, Phase.noConfusion, fun _ => ⟨t, hown.table,
      htable.row, htable.col, by omega, fun x hx i hmax hlt => ?_⟩⟩, hrest⟩
    show t.entry x i = cut rs.length (m.reg x) (cfg.min_level + i)
    rw [cut_of_lt _ hlt, Analysis.reg, hregs]
    exact htable.entry x hx i hmax (by omega)
  · rw [if_neg hty, if_neg (fun hand => hty hand.1)]
    intro b hb _
    rw [hown.file, List.length_cons, Nat.add_sub_cancel]

/-! ## §3. Control dependences. -/

/-- A condition is pushed. -/
theorem Refines.pushCDep (ho : Ordered p m) (h : Refines cfg limit p m s)
    (hwin : cfg.min_level ≤ cfg.max_level) (hacts : p.acts = a :: rest)
    (hphase : a.phase ≠ .entered) {cond : ℕ} (hcond : cond < a.rows)
    (hroom : p.cdeps.length + 1 < cfg.cdep_row ∧ p.depth ≤ cfg.cdep_col) :
    ∃ s', handlePushCDep cond s = some s' ∧
      Refines cfg limit { p.inBody a with cdeps := (p.depth - 1) :: p.cdeps }
        { m with cdep := m.reg cond, outer := m.cdep :: m.outer } s' := by
  have hdepth := Refines.depth_ne_zero ho hacts
  obtain ⟨reg, regs, f, fs, t, hregs, hown, htable, -, -⟩ := h.current hacts hphase
  have hreg : m.reg = reg := by rw [Analysis.reg, hregs]; rfl
  have hbody := h.inBody hacts hphase
  have hc := h.cdep
  have hrow := hc.row
  have hcol := hc.col
  have hheight := hc.height
  have hn := h.num_eq hdepth
  have hcolumns : cfg.instrumented p.depth ≤ cfg.cdep_col := by
    by_contra hlt
    have hi := (Config.lt_instrumented (i := cfg.cdep_col) hwin hdepth).mp (by omega)
    omega
  have hi : ∀ i, cfg.min_level + i ≤ cfg.max_level → cfg.min_level + i < p.depth →
      i < cfg.instrumented p.depth :=
    fun i hmax hlt => (Config.lt_instrumented hwin hdepth).mpr ⟨hmax, hlt⟩
  obtain ⟨t', ht', hrow', hcol', hentry⟩ := t.copyToDest_spec s.control_dependence_table
    (s.cdt_read_ptr + 1) cond s.curr_num_instrumented_levels
    (by omega) (by rw [htable.row]; exact hcond) (by omega)
    (by rw [hn]; exact htable.columns hwin hdepth)
  -- the new row only
  have hold : ∀ r ≤ s.cdt_read_ptr, ∀ i < cfg.cdep_col,
      t'.entry r i = s.control_dependence_table.entry r i := by
    intro r hr i hic
    rw [hentry r i (by omega), if_neg (by omega)]
  refine ⟨{ s with cdt_read_ptr := s.cdt_read_ptr + 1, control_dependence_table := t' }.setCdtBase,
    ?_, ?_⟩
  · unfold handlePushCDep
    rw [if_pos h.levels.on]
    dsimp only
    have hfile : ({ s with cdt_read_ptr := s.cdt_read_ptr + 1 } : KremlinProfiler).getRegisterFileTable
        = some t := hown.getRegisterFileTable
    rw [hfile, Option.bind_eq_bind, Option.bind_some, ht']
    rfl
  · refine ⟨hbody.levels, hbody.regions, hbody.tables, hbody.file, ?_, h.args, h.mem⟩
    have hptr : s.cdt_read_ptr + 1 < t'.row := by omega
    refine ⟨hrow'.trans hrow, hcol'.trans hcol, ?_, by show s.cdt_read_ptr + 1 < _; omega, .inr rfl,
      fun _ => Option.some_ne_none _, fun i hmax hlt => ?_, fun i hmax hlt => ?_, fun q hq => ?_,
      fun i hi hmax hq => ?_, hc.below.congr fun r hr i hi => hold r (by omega) i hi⟩
    · show s.cdt_read_ptr + 1 = (_ :: p.cdeps).length
      rw [hheight, List.length_cons]
    · have := hi i hmax hlt
      exact t'.getOffset_lt hptr (by omega)
    · have := hi i hmax hlt
      show t'.entry (s.cdt_read_ptr + 1) i = m.reg cond _
      rw [hentry _ i (by omega), if_pos ⟨rfl, by omega⟩, hreg]
      exact htable.entry cond hcond i hmax hlt
    · rcases List.mem_cons.mp hq with rfl | hq
      · rwa [ho.depth_pos hacts]
      · exact hc.narrow q hq
    · show t'.entry p.cdeps.length i = m.cdep _
      rw [← hheight, hold _ le_rfl i hi]
      exact hc.current i hmax (by omega)

/-- The dependences below are in force again. -/
theorem Refines.popCDep (ho : Ordered p m) (h : Refines cfg limit p m s)
    (hwin : cfg.min_level ≤ cfg.max_level) (hacts : p.acts = a :: rest) (hphase : a.phase ≠ .entered) {qs : List ℕ}
    (hcdeps : p.cdeps = (p.depth - 1) :: qs) :
    ∃ s', handlePopCDep s = some s' ∧
      Refines cfg limit { p.inBody a with cdeps := qs }
        { m with cdep := m.outer.headD fun _ => 0, outer := m.outer.tail } s' := by
  have hdepth := Refines.depth_ne_zero ho hacts
  have hbody := h.inBody hacts hphase
  have hc := h.cdep
  have hheight : s.cdt_read_ptr = qs.length + 1 := by rw [hc.height, hcdeps, List.length_cons]
  obtain ⟨c, cs, houter, hhead, hbelow⟩ : ∃ c cs, m.outer = c :: cs ∧
      (∀ i < cfg.cdep_col, cfg.min_level + i ≤ cfg.max_level → cfg.min_level + i ≤ p.depth - 1 →
        s.control_dependence_table.entry qs.length i = c (cfg.min_level + i)) ∧
      OuterRows cfg s.control_dependence_table qs cs := by
    have hb := hc.below
    rw [hcdeps] at hb
    cases ho : m.outer with
    | nil => rw [ho] at hb; exact hb.elim
    | cons c cs => rw [ho] at hb; exact ⟨c, cs, rfl, hb.1, hb.2⟩
  refine ⟨{ s with cdt_read_ptr := qs.length }.setCdtBase, ?_, ?_⟩
  · unfold handlePopCDep
    rw [if_pos h.levels.on, hheight]
  · have hroom := hc.room
    refine ⟨hbody.levels, hbody.regions, hbody.tables, hbody.file, ?_, h.args, h.mem⟩
    have hrow := hc.row
    have hcol := hc.col
    -- the row was pushed at this depth, so its columns fit
    have hnarrow : cfg.instrumented p.depth ≤ cfg.cdep_col := by
      have hq := hc.narrow (p.depth - 1) (by rw [hcdeps]; exact List.mem_cons_self)
      rwa [ho.depth_pos hacts] at hq
    have hi : ∀ i, cfg.min_level + i ≤ cfg.max_level → cfg.min_level + i < p.depth →
        i < cfg.cdep_col := by
      intro i hmax hlt
      have := (Config.lt_instrumented hwin hdepth).mpr ⟨hmax, hlt⟩
      omega
    refine ⟨hrow, hcol, rfl, by show qs.length < _; omega, .inr rfl,
      fun _ => Option.some_ne_none _, fun i hmax hlt => ?_, fun i hmax hlt => ?_,
      fun q hq => hc.narrow q (by rw [hcdeps]; exact List.mem_cons_of_mem _ hq), ?_⟩
    · have := hi i hmax hlt
      exact s.control_dependence_table.getOffset_lt
        (show qs.length < s.control_dependence_table.row by omega)
        (show i < s.control_dependence_table.col by omega)
    · show s.control_dependence_table.entry qs.length i = (m.outer.headD fun _ => 0) _
      rw [houter]
      exact hhead i (hi i hmax hlt) hmax (by
        have hlt' : cfg.min_level + i < p.depth := hlt
        omega)
    · show OuterRows cfg s.control_dependence_table qs m.outer.tail
      rw [houter]
      exact hbelow

end Moves

end Kremlin.Runtime
