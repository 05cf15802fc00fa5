/-
  Kremlin.Runtime.ShadowedProfiler — the profiler on a shadow memory.

  `KremlinProfiler` keeps times of memory in a map.  Here the handlers of loads
  and stores call `get` and `set` of a shadow memory instead, with the versions
  and the number of instrumented levels as `Handlers.cpp` passes them; all else
  is as before.

  Main result:
    * `step_withMem` — the other handlers do not look at the map.
-/
import Kremlin.Library.Run
import Kremlin.Runtime.RegionMoves
import Kremlin.Shadow.ShadowMemory

namespace Kremlin.Runtime

open Kremlin.Library Kremlin.Shadow

namespace KremlinProfiler

/-! ## §1. Loads and stores. -/

section Handlers

variable {M : Type} (sh : MShadow M) (cfg : Config)

/-- `timestampUpdater`: a load asks the memory for the times of its address. -/
def timestampUpdaterOn (width : ℕ) (sm : KremlinProfiler × M) (u : TimestampUpdate) :
    Option (KremlinProfiler × M) := do
  let end_index := sm.1.curr_num_instrumented_levels
  let (src_addr_times, m) ←
    match u.src_addr with
    | some src_addr => sh.get src_addr end_index (versions cfg sm.1) width sm.2
    | none => some (fun _ => 0, sm.2)
  let s ← (List.range end_index).foldlM (timestampUpdaterAt cfg u src_addr_times) sm.1
  some (s, m)

/-- `mem_access_size`. -/
def accessSize : Instr → ℕ
  | .load _ _ size _ => size
  | .load0 _ _ size => size
  | .load1 _ _ _ size => size
  | _ => 0

/-- The updates of an instruction, with the shadow memory. -/
def handleInstrOn (i : Instr) (sm : KremlinProfiler × M) : Option (KremlinProfiler × M) :=
  if sm.1.enabled then (updates i).foldlM (timestampUpdaterOn sh cfg (accessSize i)) sm
  else some sm

/-- `timestampUpdaterStore`. -/
def timestampUpdaterStoreOn (src_reg : Option ℕ) (dest_addr width : ℕ)
    (sm : KremlinProfiler × M) : Option (KremlinProfiler × M) := do
  let end_index := sm.1.curr_num_instrumented_levels
  let s ← (List.range end_index).foldlM (timestampUpdaterStoreAt cfg src_reg) sm.1
  let m ← sh.set dest_addr end_index (versions cfg s) s.level_times width sm.2
  some (s, m)

/-- A store, with the shadow memory. -/
def handleStoreOn (src_reg : Option ℕ) (dest_addr width : ℕ) (sm : KremlinProfiler × M) :
    Option (KremlinProfiler × M) :=
  if sm.1.enabled then timestampUpdaterStoreOn sh cfg src_reg dest_addr width sm else some sm

/-- What one call does to the profiler and its shadow memory. -/
def stepOn (sm : KremlinProfiler × M) : Event → Option (KremlinProfiler × M)
  | .instr i => handleInstrOn sh cfg i sm
  | .store src_reg dest_addr width => handleStoreOn sh cfg (some src_reg) dest_addr width sm
  | .storeConst dest_addr width => handleStoreOn sh cfg none dest_addr width sm
  | e => (step cfg sm.1 e).map fun s => (s, sm.2)

end Handlers

/-! ## §2. What the other handlers do not look at. -/

/-- The profiler with another map. -/
def withMem (x : VersionedMap ℕ) (s : KremlinProfiler) : KremlinProfiler :=
  { s with shadow_mem := x }

/-- A handler that neither reads nor writes the map. -/
def Frames (f : KremlinProfiler → Option KremlinProfiler) : Prop :=
  ∀ x s, f (s.withMem x) = (f s).map (withMem x)

/-- A change of other fields. -/
theorem Frames.pure {g : KremlinProfiler → KremlinProfiler}
    (hg : ∀ x s, g (withMem x s) = (g s).withMem x) : Frames fun s => some (g s) :=
  fun x s => congrArg some (hg x s)

/-- After such a change. -/
theorem Frames.comp {f : KremlinProfiler → Option KremlinProfiler}
    {g : KremlinProfiler → KremlinProfiler} (hf : Frames f)
    (hg : ∀ x s, g (withMem x s) = (g s).withMem x) : Frames fun s => f (g s) := by
  intro x s
  show f (g (withMem x s)) = _
  rw [hg]
  exact hf x (g s)

/-- One step after another. -/
theorem Frames.bind {f g : KremlinProfiler → Option KremlinProfiler} (hf : Frames f)
    (hg : Frames g) : Frames fun s => (f s).bind g := by
  intro x s
  show (f (withMem x s)).bind g = ((f s).bind g).map (withMem x)
  rw [hf, Option.map_bind, Option.bind_map]
  exact congrArg _ (funext fun s' => hg x s')

/-- What frames the map runs with any map. -/
theorem Frames.apply {f : KremlinProfiler → Option KremlinProfiler} (hf : Frames f)
    {s s' : KremlinProfiler} (h : f s = some s') (x : VersionedMap ℕ) :
    f (s.withMem x) = some (s'.withMem x) := by
  rw [hf, h]
  rfl

/-- What is never taken. -/
theorem frames_none : Frames fun _ => none := fun _ _ => rfl

/-- What is read is no part of the map. -/
theorem Frames.read {α : Type} {r : KremlinProfiler → Option α}
    {f : α → KremlinProfiler → Option KremlinProfiler}
    (hr : ∀ x s, r (withMem x s) = r s) (hf : ∀ a, Frames (f a)) :
    Frames fun s => (r s).bind fun a => f a s := by
  intro x s
  show (r (withMem x s)).bind (fun a => f a (withMem x s)) = ((r s).bind fun a => f a s).map _
  rw [hr, Option.map_bind]
  exact congrArg _ (funext fun a => hf a x s)

/-- A choice that does not look at the map. -/
theorem Frames.ite {c : KremlinProfiler → Prop} [DecidablePred c]
    {f g : KremlinProfiler → Option KremlinProfiler} (hc : ∀ x s, c (withMem x s) ↔ c s)
    (hf : Frames f) (hg : Frames g) : Frames fun s => if c s then f s else g s := by
  intro x s
  show (if c (withMem x s) then f (withMem x s) else g (withMem x s)) =
    (if c s then f s else g s).map (withMem x)
  by_cases h : c s
  · rw [if_pos h, if_pos ((hc x s).mpr h)]
    exact hf x s
  · rw [if_neg h, if_neg fun h' => h ((hc x s).mp h')]
    exact hg x s

/-- A loop. -/
theorem Frames.foldlM {α : Type} {f : KremlinProfiler → α → Option KremlinProfiler}
    (hf : ∀ a, Frames fun s => f s a) (l : List α) : Frames fun s => l.foldlM f s := by
  induction l with
  | nil => exact Frames.pure fun _ _ => rfl
  | cons a l ih => exact (hf a).bind ih

variable {cfg : Config}

/-- Handlers are disabled as a whole. -/
theorem Frames.gate {f : KremlinProfiler → Option KremlinProfiler} (hf : Frames f) :
    Frames fun s => if s.enabled then f s else some s :=
  hf.ite (fun _ _ => Iff.rfl) (Frames.pure fun _ _ => rfl)

/-- A value that is no part of the map. -/
theorem Frames.field {α : Type} {r : KremlinProfiler → α}
    {f : α → KremlinProfiler → Option KremlinProfiler}
    (hr : ∀ x s, r (withMem x s) = r s) (hf : ∀ a, Frames (f a)) : Frames fun s => f (r s) s := by
  intro x s
  show f (r (withMem x s)) (withMem x s) = _
  rw [hr]
  exact hf (r s) x s

theorem frames_setRegisterTimeAtIndex (time reg index : ℕ) :
    Frames fun s => s.setRegisterTimeAtIndex time reg index :=
  Frames.read (fun _ _ => rfl) fun _ => Frames.read (fun _ _ => rfl) fun _ =>
    Frames.read (fun _ _ => rfl) fun _ => Frames.pure fun _ _ => rfl

theorem frames_zeroRegistersAtIndex (index : ℕ) : Frames fun s => s.zeroRegistersAtIndex index :=
  Frames.read (fun _ _ => rfl) fun t =>
    Frames.foldlM (fun i => frames_setRegisterTimeAtIndex 0 i index) (List.range t.row)

theorem setCurrentFunction_withMem (f : FunctionRegion) (x : VersionedMap ℕ)
    (s : KremlinProfiler) :
    (s.withMem x).setCurrentFunction f = (s.setCurrentFunction f).withMem x := by
  cases h : s.callstack <;> simp only [setCurrentFunction, withMem, h]

theorem setCallingFunction_withMem (f : FunctionRegion) (x : VersionedMap ℕ)
    (s : KremlinProfiler) :
    (s.withMem x).setCallingFunction f = (s.setCallingFunction f).withMem x := by
  rcases h : s.callstack with _ | ⟨_, _ | ⟨_, _⟩⟩ <;> simp only [setCallingFunction, withMem, h]

theorem frames_enterRegisters (cfg : Config) (regionType : RegionType) :
    Frames (enterRegisters cfg regionType) :=
  Frames.ite (fun _ _ => Iff.rfl) (Frames.pure fun _ _ => rfl)
    (Frames.ite (fun _ _ => Iff.rfl)
      (Frames.field (fun _ _ => rfl) fun index => frames_zeroRegistersAtIndex index)
      (Frames.pure fun _ _ => rfl))

theorem frames_enterControlDependences (cfg : Config) : Frames (enterControlDependences cfg) :=
  Frames.ite (fun _ _ => Iff.rfl)
    (Frames.read (fun _ _ => rfl) fun _ => Frames.pure fun _ _ => rfl)
    (Frames.pure fun _ _ => rfl)

theorem frames_issueVersionToLevel (level : ℕ) : Frames fun s => s.issueVersionToLevel level := by
  intro x s
  unfold issueVersionToLevel
  split <;> rfl

theorem frames_handleRegionEntry (cfg : Config) (regionId : SID) (regionType : RegionType) :
    Frames (handleRegionEntry cfg regionId regionType) := by
  have hopened : Frames fun s => enterControlDependences cfg (s.openContext regionId
      ((s.getCurrentFunction.map (·.call_site_id)).getD 0) regionType) :=
    (frames_enterControlDependences cfg).comp fun _ _ => rfl
  have hissued : ∀ level, Frames fun s => (enterRegisters cfg regionType
      (s.setRegion level (.init regionId regionType s.curr_time))).bind fun s =>
        enterControlDependences cfg (s.openContext regionId
          ((s.getCurrentFunction.map (·.call_site_id)).getD 0) regionType) := fun level =>
    ((frames_enterRegisters cfg regionType).comp fun _ _ => rfl).bind hopened
  have hgrown : ∀ level x s, (if level = (withMem x s).num_regions
      then (withMem x s).doubleNumRegions else withMem x s) =
      (if level = s.num_regions then s.doubleNumRegions else s).withMem x := by
    intro level x s
    show (if level = s.num_regions then _ else _) = _
    split <;> rfl
  have hlevel : ∀ level, Frames fun s => (s.getRegionAtLevel level).bind fun _ =>
      (s.issueVersionToLevel level).bind fun s => (enterRegisters cfg regionType
        (s.setRegion level (.init regionId regionType s.curr_time))).bind fun s =>
          enterControlDependences cfg (s.openContext regionId
            ((s.getCurrentFunction.map (·.call_site_id)).getD 0) regionType) := fun level =>
    Frames.read (fun _ _ => rfl) fun _ => (frames_issueVersionToLevel level).bind (hissued level)
  have hrest : Frames fun s => ((if s.curr_level = s.num_regions then s.doubleNumRegions
      else s).getRegionAtLevel s.curr_level).bind fun _ =>
        ((if s.curr_level = s.num_regions then s.doubleNumRegions
          else s).issueVersionToLevel s.curr_level).bind fun s₁ => (enterRegisters cfg regionType
            (s₁.setRegion s.curr_level (.init regionId regionType s₁.curr_time))).bind fun s =>
              enterControlDependences cfg (s.openContext regionId
                ((s.getCurrentFunction.map (·.call_site_id)).getD 0) regionType) :=
    Frames.field (r := curr_level) (fun _ _ => rfl) fun level => (hlevel level).comp
      (g := fun s => if level = s.num_regions then s.doubleNumRegions else s) (hgrown level)
  -- the handler is these parts, behind the switch
  exact Frames.gate (hrest.comp (g := incrementLevel cfg) fun _ _ => rfl)

theorem frames_handleFunctionExit : Frames handleFunctionExit := by
  intro x s
  rcases h : s.callstack with _ | ⟨_, _ | ⟨_, _⟩⟩ <;>
    simp only [handleFunctionExit, withMem, h] <;> rfl

/-- The parent of a region that is left. -/
theorem frames_parent (cfg : Config) (level : ℕ) (g : ProgramRegion → ProgramRegion) :
    Frames fun s => if level > cfg.min_level then
      (s.getRegionAtLevel (level - 1)).bind fun parent => some (s.setRegion (level - 1) (g parent))
    else some s :=
  Frames.ite (fun _ _ => Iff.rfl)
    (Frames.read (fun _ _ => rfl) fun _ => Frames.pure fun _ _ => rfl) (Frames.pure fun _ _ => rfl)

theorem frames_left (cfg : Config) (ends : Bool) (stats : FunctionRegion → RegionStats) :
    Frames fun s => s.getCurrentFunction.bind fun f =>
      (if ends then (s.closeContext (stats f)).handleFunctionExit
        else some (s.closeContext (stats f))).bind fun s => some (s.decrementLevel cfg) := by
  refine Frames.read (fun _ _ => rfl) fun f => Frames.bind ?_ (Frames.pure fun _ _ => rfl)
  exact Frames.ite (fun _ _ => Iff.rfl) (frames_handleFunctionExit.comp fun _ _ => rfl)
    (Frames.pure fun _ _ => rfl)

theorem frames_closeDeepest (cfg : Config) (regionType : RegionType) :
    Frames (closeDeepest cfg regionType) := by
  have hleft : ∀ level region work, Frames fun s => (if level > cfg.min_level then
      (s.getRegionAtLevel (level - 1)).bind fun parent =>
        some (s.setRegion (level - 1) (parent.addChild work region.cp))
      else some s).bind fun s => s.getCurrentFunction.bind fun f =>
        (if regionType = .regionFunc then
          (s.closeContext (fillRegionStats regionType work f.call_site_id region)).handleFunctionExit
          else some (s.closeContext (fillRegionStats regionType work f.call_site_id region))).bind
            fun s => some (s.decrementLevel cfg) := by
    intro level region work
    refine (frames_parent cfg level fun parent => parent.addChild work region.cp).bind ?_
    simpa using frames_left cfg (decide (regionType = .regionFunc)) fun f =>
      fillRegionStats regionType work f.call_site_id region
  have hread : ∀ level, Frames fun s => (s.getRegionAtLevel level).bind fun region => _ := fun level =>
    Frames.read (fun _ _ => rfl) fun region =>
      Frames.field (r := fun s => usub s.curr_time region.start) (fun _ _ => rfl) (hleft level region)
  exact Frames.field (r := curr_level) (fun _ _ => rfl) hread

theorem frames_unwindDeepest (cfg : Config) : Frames (unwindDeepest cfg) := by
  have hread : Frames fun s => (s.getRegionAtLevel s.curr_level).bind fun region =>
      s.closeDeepest cfg region.regionType :=
    Frames.read (fun _ _ => rfl) fun region => frames_closeDeepest cfg region.regionType
  have heq : unwindDeepest cfg = fun s => (s.getRegionAtLevel s.curr_level).bind fun region =>
      s.closeDeepest cfg region.regionType :=
    funext (unwindDeepest_eq cfg)
  rw [heq]
  exact hread

theorem frames_closeDownTo (cfg : Config) (end_level fuel : ℕ) :
    Frames (closeDownTo cfg end_level fuel) := by
  induction fuel with
  | zero =>
      intro x s
      unfold closeDownTo
      show (if s.curr_level > end_level then none else _) = _
      split <;> rfl
  | succ fuel ih =>
      exact Frames.ite (fun _ _ => Iff.rfl) ((frames_unwindDeepest cfg).bind ih)
        (Frames.pure fun _ _ => rfl)

/-- The search looks at the regions only. -/
theorem findDeepest_withMem (regionId : SID) (x : VersionedMap ℕ) (s : KremlinProfiler) (l : ℕ) :
    (s.withMem x).findDeepest regionId l = s.findDeepest regionId l := by
  induction l with
  | zero => rfl
  | succ l ih =>
      unfold findDeepest
      rw [ih]
      rfl

theorem frames_handleLandingPad (cfg : Config) (regionId : SID) (regionType : RegionType) :
    Frames (handleLandingPad cfg regionId regionType) := by
  have hclose : ∀ end_level, Frames fun s => s.closeDownTo cfg end_level s.curr_level :=
    fun end_level => Frames.field (r := curr_level) (fun _ _ => rfl)
      fun level => frames_closeDownTo cfg end_level level
  exact Frames.gate (Frames.read (r := fun s => s.findDeepest regionId s.curr_level)
    (fun x s => findDeepest_withMem regionId x s s.curr_level) hclose)

theorem frames_handlePushCDep (cond : ℕ) : Frames (handlePushCDep cond) := by
  have hcopy : Frames fun s => s.getRegisterFileTable.bind fun lTable =>
      (lTable.copyToDest s.control_dependence_table s.cdt_read_ptr cond 0
        s.curr_num_instrumented_levels).bind fun t =>
          some { s with control_dependence_table := t }.setCdtBase :=
    Frames.read (fun _ _ => rfl) fun _ => Frames.read (fun _ _ => rfl) fun _ =>
      Frames.pure fun _ _ => rfl
  exact Frames.gate (hcopy.comp (g := fun s => { s with cdt_read_ptr := s.cdt_read_ptr + 1 })
    fun _ _ => rfl)

theorem frames_handlePopCDep : Frames handlePopCDep := by
  refine Frames.gate fun x s => ?_
  simp only [withMem]
  cases s.cdt_read_ptr <;> rfl

theorem frames_functionArgQueuePushBack (src : ℕ) :
    Frames fun s => s.functionArgQueuePushBack src :=
  Frames.ite (fun _ _ => Iff.rfl) (Frames.pure fun _ _ => rfl) frames_none

theorem frames_handleDequeueArgument (dest : ℕ) : Frames (handleDequeueArgument dest) := by
  have hcopy : ∀ src, Frames fun s =>
      if src ≠ DUMMY_ARG ∧ s.curr_num_instrumented_levels > 0 then
        s.getCallingFunction.bind fun caller => caller.bind fun caller =>
          s.getCurrentFunction.bind fun callee => caller.table.bind fun callerT =>
            callee.table.bind fun calleeT =>
              (callerT.copyToDest calleeT dest src 0
                (s.curr_num_instrumented_levels - 1)).bind fun t =>
                  some (s.setCurrentFunction { callee with table := some t })
      else some s := by
    refine fun src => Frames.ite (fun _ _ => Iff.rfl) ?_ (Frames.pure fun _ _ => rfl)
    exact Frames.read (fun _ _ => rfl) fun _ => Frames.read (fun _ _ => rfl) fun _ =>
      Frames.read (fun _ _ => rfl) fun _ => Frames.read (fun _ _ => rfl) fun _ =>
        Frames.read (fun _ _ => rfl) fun _ => Frames.read (fun _ _ => rfl) fun _ =>
          Frames.pure fun x s => setCurrentFunction_withMem _ x s
  refine Frames.gate fun x s => ?_
  by_cases h : s.arg_queue_read_index < FUNC_ARG_QUEUE_SIZE
  · have hpop : ∀ s : KremlinProfiler, s.arg_queue_read_index < FUNC_ARG_QUEUE_SIZE →
        s.functionArgQueuePopFront = some (s.function_arg_queue s.arg_queue_read_index,
          { s with arg_queue_read_index := s.arg_queue_read_index + 1 }) := fun s h => if_pos h
    rw [hpop s h, hpop (s.withMem x) h]
    exact hcopy _ x { s with arg_queue_read_index := s.arg_queue_read_index + 1 }
  · have hpop : ∀ s : KremlinProfiler, ¬ s.arg_queue_read_index < FUNC_ARG_QUEUE_SIZE →
        s.functionArgQueuePopFront = none := fun s h => if_neg h
    rw [hpop s h, hpop (s.withMem x) h]
    rfl

theorem frames_handlePrepRTable (num_virt_regs nested_depth : ℕ) :
    Frames (handlePrepRTable num_virt_regs nested_depth) := by
  have hset : ∀ table, Frames fun s => s.getCurrentFunction.bind fun funcHead =>
      some { s.setCurrentFunction { funcHead with table := some table } with
        shadow_reg_file := some
          ((s.setCurrentFunction { funcHead with table := some table }).callstack.length - 1)
        waiting_for_register_table_init := false } := by
    refine fun table => Frames.read (fun _ _ => rfl) fun funcHead => Frames.pure fun x s => ?_
    rw [setCurrentFunction_withMem]
    rfl
  exact Frames.gate (Frames.field
    (r := fun s => Table.new num_virt_regs (s.curr_level + nested_depth + 1)) (fun _ _ => rfl) hset)

theorem frames_handleLinkReturn (dest : ℕ) : Frames (handleLinkReturn dest) :=
  Frames.gate (Frames.read (fun _ _ => rfl) fun _ =>
    Frames.pure fun x s => setCurrentFunction_withMem _ x s)

theorem frames_handleReturn (src : ℕ) : Frames (handleReturn src) := by
  have hcopy : ∀ callee caller : FunctionRegion, Frames fun s =>
      if s.curr_num_instrumented_levels - 1 > 0 then
        callee.table.bind fun calleeT => caller.table.bind fun callerT =>
          (calleeT.copyToDest callerT caller.return_register src 0
            (s.curr_num_instrumented_levels - 1)).bind fun t =>
              some (s.setCallingFunction { caller with table := some t })
      else some s := by
    refine fun callee caller => Frames.ite (fun _ _ => Iff.rfl) ?_ (Frames.pure fun _ _ => rfl)
    exact Frames.read (fun _ _ => rfl) fun _ => Frames.read (fun _ _ => rfl) fun _ =>
      Frames.read (fun _ _ => rfl) fun _ => Frames.pure fun x s => setCallingFunction_withMem _ x s
  refine Frames.gate (Frames.read (fun _ _ => rfl) fun callee =>
    Frames.read (fun _ _ => rfl) fun caller => ?_)
  cases caller with
  | none => exact Frames.pure fun _ _ => rfl
  | some caller => exact hcopy callee caller

theorem frames_handleReturnConst : Frames handleReturnConst := by
  refine Frames.gate (Frames.read (fun _ _ => rfl) fun caller => ?_)
  cases caller with
  | none => exact Frames.pure fun _ _ => rfl
  | some caller =>
      exact Frames.read (fun _ _ => rfl) fun _ => Frames.read (fun _ _ => rfl) fun _ =>
        Frames.pure fun x s => setCallingFunction_withMem _ x s

/-- The calls that load or store. -/
def UsesMemory : Event → Prop
  | .instr _ | .store _ _ _ | .storeConst _ _ => True
  | _ => False

/-- **The other handlers do not look at the map.** -/
theorem step_withMem (cfg : Config) {e : Event} (he : ¬ UsesMemory e) :
    Frames fun s => step cfg s e := by
  cases e with
  | work amount => exact Frames.pure fun _ _ => rfl
  | enterRegion id ty => exact frames_handleRegionEntry cfg id ty
  | exitRegion id ty => exact Frames.gate (frames_closeDeepest cfg ty)
  | landingPad id ty => exact frames_handleLandingPad cfg id ty
  | instr i => exact absurd trivial he
  | store r a size => exact absurd trivial he
  | storeConst a size => exact absurd trivial he
  | pushCDep cond => exact frames_handlePushCDep cond
  | popCDep => exact frames_handlePopCDep
  | prepCall c r => exact Frames.gate (Frames.pure fun _ _ => rfl)
  | enqArg arg => exact Frames.gate (frames_functionArgQueuePushBack arg)
  | enqArgConst => exact Frames.gate (frames_functionArgQueuePushBack DUMMY_ARG)
  | deqArg dest => exact frames_handleDequeueArgument dest
  | prepRTable n d => exact frames_handlePrepRTable n d
  | linkReturn dest => exact frames_handleLinkReturn dest
  | ret src => exact frames_handleReturn src
  | retConst => exact frames_handleReturnConst

/-! ## §3. Updates with equal times. -/

theorem frames_timestampUpdaterAt (cfg : Config) (u : TimestampUpdate) (times : ℕ → ℕ)
    (index : ℕ) : Frames fun s => timestampUpdaterAt cfg u times s index := by
  have hdest : ∀ x s, destTime u times (withMem x s) index = destTime u times s index :=
    fun _ _ => rfl
  have hset : ∀ i dest_time (region : ProgramRegion), Frames fun s =>
      (s.setRegisterTimeAtIndex dest_time u.dest_reg index).bind fun s =>
        some (if u.update_cp then s.setRegion i (region.updateCriticalPathLength dest_time)
          else s) := by
    refine fun i dest_time region => (frames_setRegisterTimeAtIndex _ _ _).bind
      (Frames.pure fun x s => ?_)
    split <;> rfl
  exact Frames.read (fun _ _ => rfl) fun region => Frames.read hdest fun dest_time =>
    hset _ dest_time region

theorem frames_timestampUpdaterStoreAt (cfg : Config) (src_reg : Option ℕ) (index : ℕ) :
    Frames fun s => timestampUpdaterStoreAt cfg src_reg s index := by
  have htime : ∀ x s, storeTime src_reg (withMem x s) index = storeTime src_reg s index :=
    fun _ _ => rfl
  exact Frames.read (fun _ _ => rfl) fun region => Frames.read htime fun dest_time =>
    Frames.pure fun _ _ => rfl

/-- Only the times below the number of levels count. -/
theorem foldlM_timestampUpdaterAt (cfg : Config) (u : TimestampUpdate) {times times' : ℕ → ℕ}
    {n : ℕ} (h : ∀ l < n, times l = times' l) (s : KremlinProfiler) :
    (List.range n).foldlM (timestampUpdaterAt cfg u times) s =
      (List.range n).foldlM (timestampUpdaterAt cfg u times') s := by
  induction n with
  | zero => rfl
  | succ n ih =>
      have hlast : ∀ s, timestampUpdaterAt cfg u times s n = timestampUpdaterAt cfg u times' s n := by
        intro s
        unfold timestampUpdaterAt destTime
        rw [h n (Nat.lt_succ_self n)]
      rw [List.range_succ, List.foldlM_append, List.foldlM_append,
        ih fun l hl => h l (Nat.lt_succ_of_lt hl)]
      simp only [List.foldlM_cons, List.foldlM_nil, hlast]

end KremlinProfiler

end Kremlin.Runtime
