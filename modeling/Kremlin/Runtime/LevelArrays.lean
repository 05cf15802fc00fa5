/-
  Kremlin.Runtime.LevelArrays — the indices of the per-level arrays.

  `program_regions` grows with the nesting depth.  The arrays beside it do not:
  `level_versions` and `level_times` have `arraySize` entries, a register table
  is as wide as its function expected at entry, and a row of control
  dependences has a fixed width.  §1 lists the accesses each handler makes to
  them; §3 bounds their indices in terms of the open regions.
-/
import Kremlin.Runtime.ParallelStacks

namespace Kremlin.Runtime

open Kremlin.Library
open KremlinProfiler

/-! ## §1. The accesses. -/

/-- An access to a per-level array: the index and the number of entries. -/
structure Access where
  index : ℕ
  size : ℕ
  deriving Repr, DecidableEq

/-- The entries of a row of a register table; there are none behind a null
pointer. -/
def rowLength (t : Option Table) : ℕ := (t.map Table.col).getD 0

namespace KremlinProfiler

/-- The entries of the row `cdt_current_base` points to. -/
def cdepRowLength (s : KremlinProfiler) : ℕ :=
  if s.cdt_current_base.isSome then s.control_dependence_table.col else 0

/-- `issueVersionToLevel`, then `zeroRegistersAtIndex` (one access for each
register, all alike) and `initRegionControlDependences`. -/
def handleRegionEntryAccesses (cfg : Config) (regionType : RegionType) (s : KremlinProfiler) :
    List Access :=
  let s := s.incrementLevel cfg
  [⟨s.curr_level, arraySize⟩] ++
    (if regionType ≠ .regionFunc ∧ s.instrument_curr_level then
      [⟨s.getCurrentLevelIndex cfg, rowLength s.getRegisterFileTable⟩] else []) ++
    (if s.instrument_curr_level then
      [⟨s.getCurrentLevelIndex cfg, s.control_dependence_table.col⟩] else [])

/-- A load reads the versions of all the indices. -/
def timestampUpdaterAccesses (cfg : Config) (u : TimestampUpdate) (s : KremlinProfiler) :
    List Access :=
  (List.range s.curr_num_instrumented_levels).flatMap fun index =>
    (if u.src_addr.isSome then [⟨getLevelForIndex cfg index, arraySize⟩] else []) ++
      (if u.use_ctrl_dependence then [⟨index, s.cdepRowLength⟩] else []) ++
      (u.srcs.map fun _ => ⟨index, rowLength s.getRegisterFileTable⟩) ++
      [⟨index, rowLength s.getRegisterFileTable⟩]

/-- A store writes `level_times` and hands it to the shadow memory with the
versions. -/
def timestampUpdaterStoreAccesses (cfg : Config) (src_reg : Option ℕ) (s : KremlinProfiler) :
    List Access :=
  (List.range s.curr_num_instrumented_levels).flatMap fun index =>
    [⟨index, s.cdepRowLength⟩] ++
      (if src_reg.isSome then [⟨index, rowLength s.getRegisterFileTable⟩] else []) ++
      [⟨index, arraySize⟩, ⟨getLevelForIndex cfg index, arraySize⟩]

/-- The first `size` columns of a row of two tables. -/
def copyAccesses (src dest : ℕ) (size : ℕ) : List Access :=
  (List.range size).flatMap fun index => [⟨index, src⟩, ⟨index, dest⟩]

/-- A row of registers is copied into a row of control dependences. -/
def handlePushCDepAccesses (s : KremlinProfiler) : List Access :=
  copyAccesses (rowLength s.getRegisterFileTable) s.control_dependence_table.col
    s.curr_num_instrumented_levels

/-- A row of the callee is copied into the caller's. -/
def handleReturnAccesses (s : KremlinProfiler) : List Access :=
  match s.callstack with
  | callee :: caller :: _ =>
      copyAccesses (rowLength callee.table) (rowLength caller.table)
        (s.curr_num_instrumented_levels - 1)
  | _ => []

/-- Unlike `handleReturn`, this runs over the whole width of the caller's table. -/
def handleReturnConstAccesses (s : KremlinProfiler) : List Access :=
  match s.callstack with
  | _ :: caller :: _ =>
      copyAccesses s.cdepRowLength (rowLength caller.table) (rowLength caller.table)
  | _ => []

/-- A row of the caller is copied into the callee's. -/
def handleDequeueArgumentAccesses (s : KremlinProfiler) : List Access :=
  match s.callstack with
  | callee :: caller :: _ =>
      if s.function_arg_queue s.arg_queue_read_index ≠ DUMMY_ARG ∧
          s.curr_num_instrumented_levels > 0 then
        copyAccesses (rowLength caller.table) (rowLength callee.table)
          (s.curr_num_instrumented_levels - 1)
      else []
  | _ => []

/-- The accesses of one call. -/
def levelAccesses (cfg : Config) (s : KremlinProfiler) : Event → List Access
  | .enterRegion _ ty => if s.enabled then handleRegionEntryAccesses cfg ty s else []
  | .instr i =>
      if s.enabled then (updates i).flatMap fun u => timestampUpdaterAccesses cfg u s else []
  | .store src_reg _ _ =>
      if s.enabled then timestampUpdaterStoreAccesses cfg (some src_reg) s else []
  | .storeConst _ _ => if s.enabled then timestampUpdaterStoreAccesses cfg none s else []
  | .pushCDep _ => if s.enabled then handlePushCDepAccesses s else []
  | .ret _ => if s.enabled then handleReturnAccesses s else []
  | .retConst => if s.enabled then handleReturnConstAccesses s else []
  | .deqArg _ => if s.enabled then handleDequeueArgumentAccesses s else []
  | _ => []

end KremlinProfiler

/-- The accesses of one event of the program. -/
def eventAccesses (cfg : Config) (s : KremlinProfiler) : RegionEvent → List Access
  | .enterFunction id _ _ => levelAccesses cfg s (.enterRegion id .regionFunc)
  | .call e => levelAccesses cfg s e
  | .cleanup => []

/-- Every access of the event is to an entry of its array. -/
def InBounds (cfg : Config) (x : List OpenFrame × KremlinProfiler) (e : RegionEvent) : Prop :=
  ∀ a ∈ eventAccesses cfg x.2 e, a.index < a.size

instance (cfg : Config) (x : List OpenFrame × KremlinProfiler) (e : RegionEvent) :
    Decidable (InBounds cfg x e) :=
  inferInstanceAs (Decidable (∀ a ∈ eventAccesses cfg x.2 e, a.index < a.size))

/-! ## §2. Well-formed runs. -/

/-- The deepest level the register table of the innermost function is for: its
own plus its `nested_depth`. -/
def deepestLevel : List OpenFrame → ℕ
  | [] => 0
  | f :: fs => if f.isFunc then fs.length + f.nested else deepestLevel fs

/-- The call enters a region. -/
def opensRegion : Event → Bool
  | .enterRegion _ _ => true
  | _ => false

/-- The calls that pass a value between a function and its caller. -/
def crossesCall : Event → Bool
  | .deqArg _ | .ret _ | .retConst => true
  | _ => false

/-- What the instrumentation promises.  Everything but entering a function
happens inside one; a function nests its regions no deeper than its
`nested_depth`, and takes its arguments and returns outside of its loops. -/
def WellFormed (x : List OpenFrame × KremlinProfiler) : RegionEvent → Prop
  | .enterFunction _ _ _ | .cleanup => True
  | .call e =>
      (stackStep x.2 x.1 (.call e)).isSome ∧ x.1 ≠ [] ∧
        (opensRegion e → x.1.length ≤ deepestLevel x.1) ∧
        (crossesCall e → x.1.head?.any OpenFrame.isFunc)

instance : ∀ x e, Decidable (WellFormed x e)
  | _, .enterFunction _ _ _ => .isTrue trivial
  | _, .cleanup => .isTrue trivial
  | _, .call _ => inferInstanceAs (Decidable (_ ∧ _ ∧ (_ → _) ∧ (_ → _)))

/-- A region is entered at a level that has a version, and a constant is
returned where a control dependence is current and its row is as wide as the
caller's register table. -/
def Fits (cfg : Config) (x : List OpenFrame × KremlinProfiler) : RegionEvent → Prop
  | .enterFunction _ _ _ => x.1.length < arraySize
  | .cleanup => True
  | .call e =>
      (opensRegion e → x.1.length < arraySize) ∧
        (e = .retConst → x.1.tail ≠ [] →
          x.2.cdt_current_base.isSome ∧ deepestLevel x.1.tail < cfg.cdep_col)

instance (cfg : Config) : ∀ x e, Decidable (Fits cfg x e)
  | x, .enterFunction _ _ _ => inferInstanceAs (Decidable (x.1.length < arraySize))
  | _, .cleanup => .isTrue trivial
  | _, .call _ => inferInstanceAs (Decidable ((_ → _) ∧ (_ → _ → _)))

/-! ## §3. The widths the open regions ask for. -/

/-- The widths of the register tables of the open functions, innermost first. -/
def tableWidths : List OpenFrame → List ℕ
  | [] => []
  | f :: fs => if f.isFunc then (fs.length + f.nested + 1) :: tableWidths fs else tableWidths fs

/-- Every loop and loop body is within the reach of its function's table. -/
def NestedOk : List OpenFrame → Prop
  | [] => True
  | f :: fs => (f.isFunc = false → fs.length ≤ deepestLevel fs) ∧ NestedOk fs

/-- The per-level arrays are wide enough for the open regions. -/
structure LevelsFit (cfg : Config) (fs : List OpenFrame) (s : KremlinProfiler) : Prop where
  agree : StacksAgree cfg true fs s
  widths : s.callstack.map FunctionRegion.width = (tableWidths fs).map some
  nested : NestedOk fs
  base : cfg.min_level < fs.length → s.cdt_current_base.isSome
  col : s.control_dependence_table.col = cfg.cdep_col

variable {cfg : Config} {fs : List OpenFrame} {f : OpenFrame} {s s' : KremlinProfiler}

/-- The open regions are no deeper than their functions expected. -/
theorem NestedOk.le_deepestLevel (h : NestedOk (f :: fs)) : fs.length ≤ deepestLevel (f :: fs) := by
  rw [deepestLevel]
  by_cases hf : f.isFunc
  · rw [if_pos hf]
    omega
  · rw [if_neg hf]
    exact h.1 (by simpa using hf)

/-- The innermost function's table reaches the deepest level it is for. -/
theorem tableWidths_head {w : ℕ} {ws : List ℕ} (h : tableWidths fs = w :: ws) :
    w = deepestLevel fs + 1 := by
  induction fs with
  | nil => cases h
  | cons f fs ih =>
      rw [tableWidths] at h
      rw [deepestLevel]
      by_cases hf : f.isFunc
      · rw [if_pos hf] at h ⊢
        exact (List.cons.inj h).1.symm
      · rw [if_neg hf] at h ⊢
        exact ih h

/-- A function adds its table. -/
theorem tableWidths_func (hf : f.isFunc = true) :
    tableWidths (f :: fs) = (fs.length + f.nested + 1) :: tableWidths fs := by
  rw [tableWidths, if_pos hf]

/-- A loop adds none. -/
theorem tableWidths_loop (hf : ¬ f.isFunc = true) : tableWidths (f :: fs) = tableWidths fs := by
  rw [tableWidths, if_neg hf]

/-- The rows of a table are as long as it is wide. -/
theorem rowLength_of_width {t : Option Table} {w : ℕ} (h : t.map Table.col = some w) :
    rowLength t = w := by
  rw [rowLength, h]
  rfl

/-- At the start nothing is open. -/
theorem levelsFit_init (cfg : Config) (v : ℕ) : LevelsFit cfg [] (init cfg v) where
  agree := stacksAgree_init cfg true v
  widths := rfl
  nested := trivial
  base h := by cases h
  col := rfl

namespace LevelsFit

/-! ### What each kind of step keeps. -/

/-- Leaving the innermost region. -/
theorem exit (h : LevelsFit cfg (f :: fs) s) :
    ∃ s', step cfg s (exitOf f.key) = some s' ∧ LevelsFit cfg fs s' := by
  obtain ⟨g, rest, hstack, hstep, hagree⟩ := h.agree.exit
  refine ⟨_, hstep, hagree, ?_, h.nested.2, fun hlt => h.base (Nat.lt_succ_of_lt hlt), h.col⟩
  show (if f.key.2 = .regionFunc then rest else g :: rest).map FunctionRegion.width = _
  have hwidths := h.widths
  rw [hstack] at hwidths
  by_cases hf : f.key.2 = .regionFunc
  · rw [tableWidths_func (by simpa [OpenFrame.isFunc] using hf)] at hwidths
    rw [if_pos hf]
    exact (List.cons.inj hwidths).2
  · rw [tableWidths_loop (by simpa [OpenFrame.isFunc] using hf)] at hwidths
    rw [if_neg hf, hwidths]

/-- Regions can be left one after the other, from the innermost out. -/
theorem run_exits (ks : List OpenFrame) (h : LevelsFit cfg (ks ++ fs) s) :
    ∃ s', run (step cfg) s (ks.map fun f => exitOf f.key) = some s' ∧ LevelsFit cfg fs s' :=
  Runtime.run_exits (P := LevelsFit cfg) (fun _ _ _ h => h.exit) ks fs h

/-- A region entered at the outermost level of the window makes a control
dependence current. -/
theorem base_entered {base : Option ℕ} {level row : ℕ} (hwin : cfg.min_level ≤ cfg.max_level)
    (h : cfg.min_level < level → s.cdt_current_base.isSome)
    (hbase : base = if decide (level ≥ cfg.min_level ∧ level ≤ cfg.max_level) then some row
      else s.cdt_current_base) (hlt : cfg.min_level < level + 1) : base.isSome := by
  rw [hbase]
  split
  · rfl
  · next hout =>
      apply h
      by_contra hge
      exact hout (by rw [decide_eq_true_eq]; omega)

/-- **Entering a loop or a loop body** within the reach of its function. -/
theorem enterRegion {id : SID} {ty : RegionType} (hwin : cfg.min_level ≤ cfg.max_level)
    (h : LevelsFit cfg fs s) (hfirst : ¬ (fs = [] ∨ ty = .regionFunc))
    (hdeep : fs.length ≤ deepestLevel fs) (hstep : handleRegionEntry cfg id ty s = some s') :
    LevelsFit cfg (⟨(id, ty), s.curr_time, s.last_callsite_id, 0⟩ :: fs) s' := by
  obtain ⟨-, hty⟩ := not_or.mp hfirst
  have hnext := h.agree.nextLevel_eq
  have hagree := h.agree.enterRegion hfirst hstep
  obtain ⟨s₁, cdeps, base, -, hloop, rfl, hcol, hbase⟩ :=
    handleRegionEntry_eq_some h.agree.tracks.enabled
      (hnext ▸ (List.length_map OpenFrame.key ▸ h.agree.tracks.capacity)) h.agree.tracks.nonempty
      hstep
  have hsame := hloop hty
  rw [hsame.status.2, hsame.base] at hbase
  have hbase : base = if decide (fs.length ≥ cfg.min_level ∧ fs.length ≤ cfg.max_level) then
      some (cdeps.getOffset s₁.cdt_read_ptr 0) else s.cdt_current_base := by
    rw [hbase, ← hnext]
    rfl
  refine ⟨hagree, ?_, ⟨fun _ => hdeep, h.nested⟩, fun hlt => base_entered hwin h.base hbase hlt,
    hcol.trans (hsame.cdeps ▸ h.col)⟩
  rw [tableWidths_loop (by simpa [OpenFrame.isFunc] using hty)]
  exact hsame.widths.trans h.widths

/-- **Entering a function and setting up its register table.** -/
theorem enterFunction {id : SID} {n d : ℕ} (hwin : cfg.min_level ≤ cfg.max_level)
    (h : LevelsFit cfg fs s)
    (hstep : run (step cfg) s [.enterRegion id .regionFunc, .prepRTable n d] = some s') :
    LevelsFit cfg (⟨(id, .regionFunc), s.curr_time, s.last_callsite_id, d⟩ :: fs) s' := by
  have hagree := h.agree.enterFunction hstep
  have hnext := h.agree.nextLevel_eq
  obtain ⟨s₁, h₁, hprep⟩ := run_cons_eq_some.mp hstep
  obtain ⟨s₂, h₂, hend⟩ := run_cons_eq_some.mp hprep
  obtain rfl := Option.some.inj hend
  obtain ⟨s₀, cdeps, base, hfunc, -, hs₁, hcol, hbase⟩ :=
    handleRegionEntry_eq_some h.agree.tracks.enabled
      (hnext ▸ (List.length_map OpenFrame.key ▸ h.agree.tracks.capacity)) h.agree.tracks.nonempty h₁
  have hs₀ := hfunc rfl
  -- entering does not turn the profiler off, so the register table is made
  have hon : s₁.enabled = true := by
    rw [hs₁, hs₀]
    exact h.agree.tracks.enabled
  obtain ⟨f, rest, hstack, hs₂⟩ := handlePrepRTable_eq_some hon h₂
  have hrest : rest = s.callstack := by
    rw [hs₁, hs₀] at hstack
    exact (List.cons.inj hstack).2.symm
  subst hs₂ hs₁ hs₀ hrest
  have hbase : base = if decide (fs.length ≥ cfg.min_level ∧ fs.length ≤ cfg.max_level) then
      some (cdeps.getOffset s.cdt_read_ptr 0) else s.cdt_current_base := by
    rw [hbase, ← hnext]
    rfl
  -- by cases hloop), h.nested⟩, => what is left are the widths of the tables, the new one in
  -- front
  refine ⟨hagree, ?_, ⟨(fun hloop => by cases hloop), h.nested⟩,
    fun hlt => base_entered hwin h.base hbase hlt, hcol.trans h.col⟩
  rw [tableWidths_func rfl, List.map_cons, List.map_cons, h.widths, ← hnext]
  show some (nextLevel s.curr_level + d + 1) :: _ = _
  rfl

/-- **What every step keeps.** -/
theorem joint {x : List OpenFrame × KremlinProfiler} {e : RegionEvent}
    (hwin : cfg.min_level ≤ cfg.max_level) (h : LevelsFit cfg fs s) (hwf : WellFormed (fs, s) e)
    (hstep : stackJoint cfg (fs, s) e = some x) : LevelsFit cfg x.1 x.2 := by
  have hmove := h.agree.stackMove hstep
  have hagree := h.agree.joint hstep
  obtain ⟨fs', s'⟩ := x
  cases hmove with
  | enterFunction id n d _ hrun => exact h.enterFunction hwin hrun
  | enterRegion id ty _ hfirst hentry => exact h.enterRegion hwin hfirst (hwf.2.2.1 rfl) hentry
  | leave _ ks _ _ hfs hrun =>
      obtain ⟨s₁, h₁, hfit⟩ := run_exits ks (hfs ▸ h)
      obtain rfl := Option.some.inj (h₁.symm.trans hrun)
      exact hfit
  | setCDeps _ t ptr base hcol =>
      exact ⟨hagree, h.widths, h.nested, fun _ => rfl, hcol.trans h.col⟩
  | stay _ _ hsame =>
      refine ⟨hagree, hsame.widths.trans h.widths, h.nested, fun hlt => ?_, ?_⟩
      · rw [hsame.base]
        exact h.base hlt
      · rw [hsame.cdeps]
        exact h.col

/-! ### The quantities the handlers take their indices from. -/

/-- The instrumented levels are in the window and not deeper than the current
one. -/
theorem instrumented (h : LevelsFit cfg (f :: fs) s) {index : ℕ}
    (hindex : index < s.curr_num_instrumented_levels) :
    cfg.min_level + index ≤ fs.length ∧ index ≤ cfg.max_level - cfg.min_level := by
  have hlevel := (show Tracks (f.key :: fs.map OpenFrame.key) s from h.agree.tracks).level_cons
  rw [List.length_map] at hlevel
  rw [(h.agree.status (List.cons_ne_nil f fs)).2, hlevel] at hindex
  split at hindex
  · omega
  · omega

/-- The current function's table reaches the deepest level it is for. -/
theorem registerFile (h : LevelsFit cfg (f :: fs) s) :
    rowLength s.getRegisterFileTable = deepestLevel (f :: fs) + 1 := by
  obtain ⟨g, rest, hstack⟩ :=
    (show Tracks (f.key :: fs.map OpenFrame.key) s from h.agree.tracks).callstack_cons
  have hreg := h.agree.registerFile (List.cons_ne_nil f fs)
  have hwidths := h.widths
  have htable : s.getRegisterFileTable = g.table := by
    rw [getRegisterFileTable, hreg, hstack]
    show (((g :: rest).reverse[(g :: rest).length - 1]?).bind fun f => f.table) = g.table
    rw [List.reverse_cons, List.getElem?_append_right (by simp), List.length_reverse,
      List.length_cons, Nat.add_sub_cancel, Nat.sub_self]
    rfl
  rw [hstack] at hwidths
  cases hw : tableWidths (f :: fs) with
  | nil =>
      rw [hw] at hwidths
      cases hwidths
  | cons w ws =>
      rw [hw] at hwidths
      have hrow : rowLength g.table = w := rowLength_of_width (List.cons.inj hwidths).1
      rw [htable, hrow, tableWidths_head hw]

/-- The current function's table and its caller's, where the innermost region is
the function itself. -/
theorem callTables (h : LevelsFit cfg (f :: fs) s) (hf : f.isFunc = true) {callee caller : FunctionRegion}
    {rest : List FunctionRegion} (hstack : s.callstack = callee :: caller :: rest) :
    fs.length < rowLength callee.table ∧ rowLength caller.table = deepestLevel fs + 1 ∧ fs ≠ [] ∧
      fs.length ≤ rowLength caller.table := by
  have hwidths := h.widths
  rw [hstack, tableWidths_func hf] at hwidths
  have hcallee : rowLength callee.table = fs.length + f.nested + 1 :=
    rowLength_of_width (List.cons.inj hwidths).1
  have hrest := (List.cons.inj hwidths).2
  cases fs with
  | nil => cases hrest
  | cons g fs =>
      cases hw : tableWidths (g :: fs) with
      | nil =>
          rw [hw] at hrest
          cases hrest
      | cons w ws =>
          rw [hw] at hrest
          have hcaller : rowLength caller.table = w := rowLength_of_width (List.cons.inj hrest).1
          have hdeep := h.nested.2.le_deepestLevel
          rw [hcallee, hcaller, tableWidths_head hw, List.length_cons]
          refine ⟨by omega, rfl, List.cons_ne_nil g fs, by omega⟩

/-- A function that is not the outermost region has a caller. -/
theorem hasCaller (h : LevelsFit cfg (f :: fs) s) (hf : f.isFunc = true) (hfs : fs ≠ []) :
    ∃ callee caller rest, s.callstack = callee :: caller :: rest := by
  obtain ⟨callee, rest, hstack, -, hagree⟩ := h.agree.exit
  obtain ⟨g, fs, rfl⟩ := List.exists_cons_of_ne_nil hfs
  -- the caller is the current function once this one is left
  obtain ⟨caller, rest', hrest⟩ :=
    (show Tracks (g.key :: fs.map OpenFrame.key) _ from hagree.tracks).callstack_cons
  have hrest : (if f.key.2 = .regionFunc then rest else callee :: rest) = caller :: rest' := hrest
  rw [if_pos (by simpa [OpenFrame.isFunc] using hf)] at hrest
  exact ⟨callee, caller, rest', by rw [hstack, hrest]⟩

/-- Inside the window a control dependence is current. -/
theorem cdepRow (h : LevelsFit cfg (f :: fs) s) (hlt : cfg.min_level ≤ fs.length) :
    s.cdepRowLength = cfg.cdep_col := by
  rw [cdepRowLength, if_pos (h.base (Nat.lt_succ_of_le hlt)), h.col]

/-- An instrumented index is an index of all the arrays. -/
theorem index_lt (h : LevelsFit cfg (f :: fs) s) (hsize : cfg.max_level - cfg.min_level < cfg.cdep_col)
    {index : ℕ} (hindex : index < s.curr_num_instrumented_levels) :
    index < rowLength s.getRegisterFileTable ∧ index < s.cdepRowLength ∧ index < cfg.cdep_col ∧
      cfg.min_level + index < arraySize := by
  obtain ⟨hlevel, hwindow⟩ := h.instrumented hindex
  have hdeep := h.nested.le_deepestLevel
  have hbounded := h.agree.tracks.bounded
  rw [List.length_map, List.length_cons] at hbounded
  rw [h.registerFile, h.cdepRow (by omega)]
  refine ⟨by omega, by omega, by omega, by omega⟩

end LevelsFit

/-- The leading columns of two rows. -/
theorem copyAccesses_inBounds {src dest size : ℕ} :
    (∀ a ∈ copyAccesses src dest size, a.index < a.size) ↔ size ≤ src ∧ size ≤ dest := by
  unfold copyAccesses
  constructor
  · intro h
    cases size with
    | zero => omega
    | succ size =>
        -- the last column tells
        have hlast : ∀ n, n = src ∨ n = dest → size < n := by
          intro n hn
          apply h ⟨size, n⟩
          rw [List.mem_flatMap]
          refine ⟨size, List.mem_range.mpr (Nat.lt_succ_self size), ?_⟩
          rcases hn with rfl | rfl <;> simp
        exact ⟨hlast src (.inl rfl), hlast dest (.inr rfl)⟩
  · intro h a ha
    obtain ⟨index, hindex, ha⟩ := List.mem_flatMap.mp ha
    have hindex := List.mem_range.mp hindex
    simp only [List.mem_cons, List.not_mem_nil, or_false] at ha
    rcases ha with rfl | rfl
    · show index < src
      omega
    · show index < dest
      omega

namespace LevelsFit

/-! ## §4. Each handler stays within bounds. -/

/-- An update stays inside its arrays. -/
theorem timestampUpdater_inBounds (h : LevelsFit cfg (f :: fs) s)
    (hsize : cfg.max_level - cfg.min_level < cfg.cdep_col) (u : TimestampUpdate) :
    ∀ a ∈ timestampUpdaterAccesses cfg u s, a.index < a.size := by
  intro a ha
  obtain ⟨index, hindex, ha⟩ := List.mem_flatMap.mp ha
  obtain ⟨hreg, hrow, -, hversion⟩ := h.index_lt hsize (List.mem_range.mp hindex)
  simp only [List.mem_append, List.mem_ite_nil_right, List.mem_map, List.mem_singleton] at ha
  rcases ha with ((⟨-, rfl⟩ | ⟨-, rfl⟩) | ⟨-, -, rfl⟩) | rfl
  · exact hversion
  · exact hrow
  · exact hreg
  · exact hreg

/-- A store stays inside its arrays. -/
theorem timestampUpdaterStore_inBounds (h : LevelsFit cfg (f :: fs) s)
    (hsize : cfg.max_level - cfg.min_level < cfg.cdep_col) (hcol : cfg.cdep_col ≤ arraySize)
    (src_reg : Option ℕ) :
    ∀ a ∈ timestampUpdaterStoreAccesses cfg src_reg s, a.index < a.size := by
  intro a ha
  obtain ⟨index, hindex, ha⟩ := List.mem_flatMap.mp ha
  obtain ⟨hreg, hrow, hlt, hversion⟩ := h.index_lt hsize (List.mem_range.mp hindex)
  simp only [List.mem_append, List.mem_ite_nil_right, List.mem_cons, List.not_mem_nil,
    or_false] at ha
  rcases ha with (rfl | ⟨-, rfl⟩) | rfl | rfl
  · exact hrow
  · exact hreg
  · exact Nat.lt_of_lt_of_le hlt hcol
  · exact hversion

/-- The row of control dependences is as wide as the window. -/
theorem pushCDep_inBounds (h : LevelsFit cfg (f :: fs) s)
    (hsize : cfg.max_level - cfg.min_level < cfg.cdep_col) :
    ∀ a ∈ handlePushCDepAccesses s, a.index < a.size := by
  apply copyAccesses_inBounds.mpr
  rw [h.col]
  cases hnum : s.curr_num_instrumented_levels with
  | zero => omega
  | succ n =>
      obtain ⟨hreg, -, hlt, -⟩ := h.index_lt hsize (show n < s.curr_num_instrumented_levels by omega)
      omega

/-- A return and a dequeued argument leave the callee's own level out. -/
theorem call_inBounds (h : LevelsFit cfg (f :: fs) s) (hf : f.isFunc = true)
    {callee caller : FunctionRegion} {rest : List FunctionRegion}
    (hstack : s.callstack = callee :: caller :: rest) :
    s.curr_num_instrumented_levels - 1 ≤ rowLength callee.table ∧
      s.curr_num_instrumented_levels - 1 ≤ rowLength caller.table := by
  obtain ⟨hcallee, -, -, hcaller⟩ := h.callTables hf hstack
  cases hnum : s.curr_num_instrumented_levels with
  | zero => omega
  | succ n =>
      have hlevel := (h.instrumented (show n < s.curr_num_instrumented_levels by omega)).1
      omega

/-- A return stays inside both tables. -/
theorem ret_inBounds (h : LevelsFit cfg (f :: fs) s) (hf : f.isFunc = true) :
    ∀ a ∈ handleReturnAccesses s, a.index < a.size := by
  unfold handleReturnAccesses
  split
  · next hstack => exact copyAccesses_inBounds.mpr (h.call_inBounds hf hstack)
  · simp

/-- Taking an argument stays inside both tables. -/
theorem deqArg_inBounds (h : LevelsFit cfg (f :: fs) s) (hf : f.isFunc = true) :
    ∀ a ∈ handleDequeueArgumentAccesses s, a.index < a.size := by
  unfold handleDequeueArgumentAccesses
  split
  · next hstack =>
      split
      · exact copyAccesses_inBounds.mpr (h.call_inBounds hf hstack).symm
      · simp
  · simp

/-- **Where returning a constant stays within bounds.** -/
theorem retConst_inBounds_iff (h : LevelsFit cfg (f :: fs) s) (hf : f.isFunc = true) :
    (∀ a ∈ handleReturnConstAccesses s, a.index < a.size) ↔
      (fs ≠ [] → s.cdt_current_base.isSome ∧ deepestLevel fs < cfg.cdep_col) := by
  unfold handleReturnConstAccesses
  split
  · next hstack =>
      obtain ⟨-, hcaller, hfs, -⟩ := h.callTables hf hstack
      rw [copyAccesses_inBounds, hcaller, cdepRowLength, h.col]
      cases hbase : s.cdt_current_base with
      | none => simpa using hfs
      | some base =>
          simp only [Option.isSome_some, if_true, true_and]
          exact ⟨fun hle _ => by omega, fun hlt => ⟨by have := hlt hfs; omega, Nat.le_refl _⟩⟩
  · next hstack =>
      simp only [List.not_mem_nil, false_imp_iff, implies_true, true_iff]
      intro hfs
      obtain ⟨callee, caller, rest, hcaller⟩ := h.hasCaller hf hfs
      exact absurd hcaller (hstack callee caller rest)

/-- **Where entering a region stays within bounds.** -/
theorem enter_inBounds_iff {ty : RegionType} (h : LevelsFit cfg fs s)
    (hsize : cfg.max_level - cfg.min_level < cfg.cdep_col)
    (hdeep : ty ≠ .regionFunc → fs ≠ [] ∧ fs.length ≤ deepestLevel fs) :
    (∀ a ∈ handleRegionEntryAccesses cfg ty s, a.index < a.size) ↔ fs.length < arraySize := by
  have hnext := h.agree.nextLevel_eq
  constructor
  · intro hall
    have hlevel := hall ⟨nextLevel s.curr_level, arraySize⟩
      (List.mem_append_left _ (List.mem_append_left _ List.mem_cons_self))
    rwa [hnext] at hlevel
  · intro hlt a ha
    simp only [handleRegionEntryAccesses, List.mem_append, List.mem_ite_nil_right,
      List.mem_singleton] at ha
    rcases ha with (rfl | ⟨⟨hty, -⟩, rfl⟩) | ⟨hin, rfl⟩
    · show nextLevel s.curr_level < arraySize
      rwa [hnext]
    · obtain ⟨hfs, hdeep⟩ := hdeep hty
      obtain ⟨f, fs, rfl⟩ := List.exists_cons_of_ne_nil hfs
      show nextLevel s.curr_level - cfg.min_level < rowLength s.getRegisterFileTable
      rw [hnext, h.registerFile]
      omega
    · show nextLevel s.curr_level - cfg.min_level < s.control_dependence_table.col
      have hin : decide (nextLevel s.curr_level ≥ cfg.min_level ∧
        nextLevel s.curr_level ≤ cfg.max_level) = true := hin
      rw [decide_eq_true_eq] at hin
      rw [h.col]
      omega

/-- A profiler that is turned off accesses nothing. -/
theorem enabled_inBounds {as : List Access} (hon : s.enabled = true)
    (h : ∀ a ∈ as, a.index < a.size) :
    ∀ a ∈ (if s.enabled then as else []), a.index < a.size := by
  rw [if_pos hon]
  exact h

/-- A call that neither enters a region nor returns a constant. -/
theorem call_inBounds_of {e : Event} (h : LevelsFit cfg (f :: fs) s)
    (hsize : cfg.max_level - cfg.min_level < cfg.cdep_col) (hcol : cfg.cdep_col ≤ arraySize)
    (hopen : opensRegion e = false) (hconst : e ≠ .retConst)
    (hf : crossesCall e → f.isFunc = true) : InBounds cfg (f :: fs, s) (.call e) := by
  have hon := h.agree.tracks.enabled
  cases e with
  | enterRegion id ty => cases hopen
  | retConst => exact absurd rfl hconst
  | instr i =>
      refine enabled_inBounds hon fun a ha => ?_
      obtain ⟨u, -, ha⟩ := List.mem_flatMap.mp ha
      exact h.timestampUpdater_inBounds hsize u a ha
  | store r addr size =>
      exact enabled_inBounds hon (h.timestampUpdaterStore_inBounds hsize hcol (some r))
  | storeConst addr size =>
      exact enabled_inBounds hon (h.timestampUpdaterStore_inBounds hsize hcol none)
  | pushCDep cond => exact enabled_inBounds hon (h.pushCDep_inBounds hsize)
  | ret src => exact enabled_inBounds hon (h.ret_inBounds (hf rfl))
  | deqArg dest => exact enabled_inBounds hon (h.deqArg_inBounds (hf rfl))
  | _ => exact fun a ha => by cases ha

/-- **An event stays within bounds exactly where it fits.** -/
theorem inBounds_iff {e : RegionEvent} (h : LevelsFit cfg fs s)
    (hsize : cfg.max_level - cfg.min_level < cfg.cdep_col) (hcol : cfg.cdep_col ≤ arraySize)
    (hwf : WellFormed (fs, s) e) : InBounds cfg (fs, s) e ↔ Fits cfg (fs, s) e := by
  have hon := h.agree.tracks.enabled
  cases e with
  | enterFunction id n d =>
      show (∀ a ∈ (if s.enabled then handleRegionEntryAccesses cfg .regionFunc s else []), _) ↔ _
      rw [if_pos hon]
      exact h.enter_inBounds_iff hsize fun hne => absurd rfl hne
  | cleanup => exact iff_of_true (fun a ha => by cases ha) trivial
  | call e =>
      obtain ⟨-, hfs, hdeep, hcross⟩ := hwf
      obtain ⟨f, fs, rfl⟩ := List.exists_cons_of_ne_nil hfs
      by_cases hopen : opensRegion e = true
      · cases e with
        | enterRegion id ty =>
            show (∀ a ∈ (if s.enabled then handleRegionEntryAccesses cfg ty s else []), _) ↔ _
            rw [if_pos hon, h.enter_inBounds_iff hsize fun _ => ⟨hfs, hdeep rfl⟩]
            exact ⟨fun hlt => ⟨fun _ => hlt, fun hconst => by cases hconst⟩, fun hfit => hfit.1 rfl⟩
        | _ => cases hopen
      · by_cases hconst : e = .retConst
        · rw [hconst] at hcross ⊢
          show (∀ a ∈ (if s.enabled then handleReturnConstAccesses s else []), _) ↔ _
          rw [if_pos hon, h.retConst_inBounds_iff (hcross rfl)]
          exact ⟨fun hret => ⟨fun ho => (by cases ho), fun _ => hret⟩, fun hfit => hfit.2 rfl⟩
        · refine iff_of_true ?_ ⟨fun ho => absurd ho hopen, fun hc => absurd hc hconst⟩
          exact h.call_inBounds_of hsize hcol (by simpa using hopen) hconst hcross

end LevelsFit

/-! ## §5. Runs. -/

/-- **Every access is in bounds all along a well-formed run if and only if each
of its regions has a version and each of its constants is returned to a table no
wider than the current row of control dependences.** -/
theorem accesses_in_bounds_iff (cfg : Config) (hwin : cfg.min_level ≤ cfg.max_level)
    (hsize : cfg.max_level - cfg.min_level + 1 ≤ 64) (hcol : cfg.cdep_col = 64) (nextVersion : ℕ)
    (events : List RegionEvent)
    (hwf : RunOk (stackJoint cfg) WellFormed ([], init cfg nextVersion) events) :
    RunOk (stackJoint cfg) (InBounds cfg) ([], init cfg nextVersion) events ↔
      RunOk (stackJoint cfg) (Fits cfg) ([], init cfg nextVersion) events := by
  apply runOk_congr_of WellFormed (P := fun x => LevelsFit cfg x.1 x.2) ?_ ?_
    (levelsFit_init cfg nextVersion) hwf
  · intro x e h hadm
    apply h.inBounds_iff _ _ hadm
    · omega
    · rw [hcol, arraySize]
      omega
  · intro x e x' h hadm _ hstep
    exact h.joint hwin hadm hstep

/-- Loops nested 32 deep in `main`, which calls a function that returns a
constant. -/
def returnToDeepLoops : List RegionEvent :=
  [.enterFunction 1 4 64, .call (.prepCall 1 2), .call (.linkReturn 1), .enterFunction 2 4 0,
   .call .retConst]

/-- The caller's table has 65 columns, the row of control dependences 64. -/
theorem not_accesses_in_bounds :
    RunOk (stackJoint { min_level := 0, max_level := 63 }) WellFormed
        ([], init { min_level := 0, max_level := 63 } 0) returnToDeepLoops ∧
      ¬ RunOk (stackJoint { min_level := 0, max_level := 63 })
        (InBounds { min_level := 0, max_level := 63 })
        ([], init { min_level := 0, max_level := 63 } 0) returnToDeepLoops := by
  constructor <;> decide +kernel

/-- With loops nested 31 deep the table still fits. -/
theorem accesses_in_bounds_iff_loops :
    RunOk (stackJoint { min_level := 0, max_level := 63 })
      (InBounds { min_level := 0, max_level := 63 }) ([], init { min_level := 0, max_level := 63 } 0)
      [.enterFunction 1 4 62, .call (.prepCall 1 2), .call (.linkReturn 1), .enterFunction 2 4 0,
       .call .retConst] :=
  (accesses_in_bounds_iff { min_level := 0, max_level := 63 } (by decide) (by decide) rfl 0 _
    (by decide +kernel)).mpr (by decide +kernel)

end Kremlin.Runtime
