/-
  Kremlin.Runtime.KremlinProfiler — the state of the profiler.

  `KremlinProfiler.hpp`, `ProgramRegion.hpp`, `FunctionRegion.hpp` and the
  accessors of `kremlin.cpp`.  Conventions:

    * `min_level` and `max_level` are fixed when the profiler is built; they
      are the `Config`.  `curr_level` is a `UInt32` that starts at `-1`.
    * the callstack lists its back first; `shadow_reg_file` is a pointer into
      it and becomes the callstack position of the owning function.
    * the shadow memory is an ideal versioned map over 8-byte words.
    * levels, indices, versions, registers, addresses and times are natural
      numbers; times do not overflow 64 bits, and the unsigned subtractions
      wrap (`usub`).
    * the calls the profiler makes on the region tree are recorded in order;
      running them is `treeStep` of `CRegion`.

  `none` is an access outside an array or through a null pointer.
-/
import Kremlin.Library.VersionedMap
import Kremlin.Runtime.CRegion
import Kremlin.Runtime.Table

namespace Kremlin.Runtime

open Kremlin.Library

/-! ## §1. Constants. -/

/-- What a load takes. -/
def LOAD_COST : ℕ := 4
/-- What a store takes. -/
def STORE_COST : ℕ := 1

/-- Length of `level_versions` and `level_times`. -/
def arraySize : ℕ := 512
/-- The length of the queue of arguments. -/
def FUNC_ARG_QUEUE_SIZE : ℕ := 64
/-- The length `program_regions` starts with. -/
def INIT_NUM_REGIONS : ℕ := 64
/-- A loop is a doall if its own path is shorter than this. -/
def doall_threshold : ℕ := 5

/-- `-1` as a `UInt32`. -/
def minusOne : ℕ := 2 ^ 32 - 1

/-- `#define DUMMY_ARG -1`, compared with an unsigned register number. -/
def DUMMY_ARG : ℕ := minusOne

/-- `DUMMY_RETURN_REG` of `FunctionRegion`. -/
def DUMMY_RETURN_REG : ℕ := minusOne

/-- `UInt64` subtraction of values below `2 ^ 64`. -/
def usub (a b : ℕ) : ℕ := if b ≤ a then a - b else a + 2 ^ 64 - b

/-- Without a borrow the subtraction is that of the numbers. -/
theorem usub_of_le {a b : ℕ} (h : b ≤ a) : usub a b = a - b := if_pos h

/-- `++` on a `UInt32` level. -/
def nextLevel (level : ℕ) : ℕ := if level = minusOne then 0 else level + 1

/-- `--` on a `UInt32` level. -/
def prevLevel (level : ℕ) : ℕ := if level = 0 then minusOne else level - 1

/-- A level that is not the first has one below it. -/
@[simp] theorem prevLevel_succ (level : ℕ) : prevLevel (level + 1) = level := by
  rw [prevLevel, if_neg (Nat.succ_ne_zero level), Nat.add_sub_cancel]

/-- Leaving a level and entering one again comes back to it. -/
theorem nextLevel_prevLevel {level : ℕ} (h : level ≤ arraySize) :
    nextLevel (prevLevel level) = level := by
  cases level with
  | zero => rfl
  | succ level =>
      have hne : level ≠ minusOne := by
        simp only [arraySize, minusOne] at h ⊢
        omega
      rw [prevLevel_succ, nextLevel, if_neg hne]

/-- The profiled window and the size of the control dependence table. -/
structure Config where
  min_level : ℕ
  max_level : ℕ
  cdep_row : ℕ := 256
  cdep_col : ℕ := 64

/-! ## §2. Regions and functions. -/

/-- `class ProgramRegion`: the open region of one level. -/
structure ProgramRegion where
  regionId : SID
  regionType : RegionType
  start : ℕ
  cp : ℕ
  childrenWork : ℕ
  childrenCP : ℕ
  childMaxCP : ℕ
  childCount : ℕ
  deriving Repr, DecidableEq

namespace ProgramRegion

/-- `ProgramRegion::init`, and the constructor for `init 0 regionFunc 0`. -/
def init (sid : SID) (regionType : RegionType) (start_time : ℕ) : ProgramRegion where
  regionId := sid
  regionType := regionType
  start := start_time
  cp := 0
  childrenWork := 0
  childrenCP := 0
  childMaxCP := 0
  childCount := 0

/-- The path of a region is as long as the latest time in it. -/
def updateCriticalPathLength (r : ProgramRegion) (value : ℕ) : ProgramRegion :=
  { r with cp := max value r.cp }

/-- The update of `parentRegion` when a child is left. -/
def addChild (parent : ProgramRegion) (work cp : ℕ) : ProgramRegion :=
  { parent with
    childrenWork := parent.childrenWork + work
    childrenCP := parent.childrenCP + cp
    childCount := parent.childCount + 1
    childMaxCP := if parent.childMaxCP < cp then cp else parent.childMaxCP }

end ProgramRegion

/-- `class FunctionRegion`: one activation on the callstack. -/
structure FunctionRegion where
  return_register : ℕ
  call_site_id : CID
  table : Option Table

/-- A function is entered without a register table. -/
def FunctionRegion.new (callsite_id : CID) : FunctionRegion where
  return_register := DUMMY_RETURN_REG
  call_site_id := callsite_id
  table := none

/-! ## §3. The profiler. -/

/-- `class KremlinProfiler`. -/
structure KremlinProfiler where
  enabled : Bool
  curr_time : ℕ
  curr_level : ℕ
  curr_num_instrumented_levels : ℕ
  instrument_curr_level : Bool
  program_regions : ℕ → ProgramRegion
  num_regions : ℕ
  level_versions : ℕ → ℕ
  level_times : ℕ → ℕ
  nextVersion : ℕ
  callstack : List FunctionRegion
  last_callsite_id : CID
  function_arg_queue : ℕ → ℕ
  arg_queue_read_index : ℕ
  arg_queue_write_index : ℕ
  waiting_for_register_table_init : Bool
  control_dependence_table : Table
  cdt_read_ptr : ℕ
  cdt_current_base : Option ℕ
  shadow_reg_file : Option ℕ
  shadow_mem : VersionedMap ℕ
  treeCalls : List TreeCall

namespace KremlinProfiler

/-- The profiler after `init` and `enable`.  `nextVersion` is not initialised
by the source. -/
def init (cfg : Config) (nextVersion : ℕ) : KremlinProfiler where
  enabled := true
  curr_time := 0
  curr_level := minusOne
  curr_num_instrumented_levels := 0
  instrument_curr_level := false
  program_regions _ := .init 0 .regionFunc 0
  num_regions := INIT_NUM_REGIONS
  level_versions _ := 0
  level_times _ := 0
  nextVersion := nextVersion
  callstack := []
  last_callsite_id := 0
  function_arg_queue _ := DUMMY_ARG
  arg_queue_read_index := 0
  arg_queue_write_index := 0
  waiting_for_register_table_init := false
  control_dependence_table := .new cfg.cdep_row cfg.cdep_col
  cdt_read_ptr := 0
  cdt_current_base := none
  shadow_reg_file := none
  shadow_mem := .empty
  treeCalls := []

/-! ### Levels. -/

/-- `updateCurrLevelInstrumentableStatus` and `updateCurrNumInstrumentedLevels`. -/
def updateLevelStatus (cfg : Config) (s : KremlinProfiler) : KremlinProfiler :=
  { s with
    instrument_curr_level :=
      decide (s.curr_level ≥ cfg.min_level ∧ s.curr_level ≤ cfg.max_level)
    curr_num_instrumented_levels :=
      if s.curr_level < cfg.min_level then 0
      else min cfg.max_level s.curr_level - cfg.min_level + 1 }

/-- One level up. -/
def incrementLevel (cfg : Config) (s : KremlinProfiler) : KremlinProfiler :=
  updateLevelStatus cfg { s with curr_level := nextLevel s.curr_level }

/-- One level down. -/
def decrementLevel (cfg : Config) (s : KremlinProfiler) : KremlinProfiler :=
  updateLevelStatus cfg { s with curr_level := prevLevel s.curr_level }

/-- The level of a column. -/
def getLevelForIndex (cfg : Config) (index : ℕ) : ℕ := cfg.min_level + index

/-- The column of the current level. -/
def getCurrentLevelIndex (cfg : Config) (s : KremlinProfiler) : ℕ :=
  s.curr_level - cfg.min_level

/-- The region of a level that was allocated. -/
def getRegionAtLevel (s : KremlinProfiler) (l : ℕ) : Option ProgramRegion :=
  if l < s.num_regions then some (s.program_regions l) else none

/-- Overwrite the region of a level. -/
def setRegion (s : KremlinProfiler) (l : ℕ) (r : ProgramRegion) : KremlinProfiler :=
  { s with program_regions := fun i => if i = l then r else s.program_regions i }

/-- Room for as many regions again. -/
def doubleNumRegions (s : KremlinProfiler) : KremlinProfiler :=
  { s with num_regions := s.num_regions + s.num_regions }

/-- `issueVersionToLevel`. -/
def issueVersionToLevel (s : KremlinProfiler) (level : ℕ) : Option KremlinProfiler :=
  if level < arraySize then
    some { s with
      level_versions := fun l => if l = level then s.nextVersion else s.level_versions l
      nextVersion := s.nextVersion + 1 }
  else none

/-- `getVersionAtLevel(min_level)` as the array the shadow memory is handed. -/
def versions (cfg : Config) (s : KremlinProfiler) : ℕ → ℕ :=
  fun index => s.level_versions (cfg.min_level + index)

/-! ### Functions. -/

/-- The back of the callstack. -/
def getCurrentFunction (s : KremlinProfiler) : Option FunctionRegion := s.callstack.head?

/-- `getCallingFunction`; the inner `none` is its `NULL`. -/
def getCallingFunction (s : KremlinProfiler) : Option (Option FunctionRegion) :=
  match s.callstack with
  | [] => none
  | [_] => some none
  | _ :: caller :: _ => some (some caller)

/-- Overwrite the caller's activation. -/
def setCallingFunction (s : KremlinProfiler) (f : FunctionRegion) : KremlinProfiler :=
  match s.callstack with
  | callee :: _ :: rest => { s with callstack := callee :: f :: rest }
  | _ => s

/-- The back of the callstack replaced. -/
def setCurrentFunction (s : KremlinProfiler) (f : FunctionRegion) : KremlinProfiler :=
  match s.callstack with
  | _ :: rest => { s with callstack := f :: rest }
  | [] => s

/-! ### The shadow register file. -/

/-- The table `shadow_reg_file` points to. -/
def getRegisterFileTable (s : KremlinProfiler) : Option Table := do
  let owner ← s.shadow_reg_file
  let f ← s.callstack.reverse[owner]?
  f.table

/-- Overwrite that table. -/
def writeRegisterFileTable (s : KremlinProfiler) (t : Table) : Option KremlinProfiler := do
  let owner ← s.shadow_reg_file
  some { s with
    callstack := (s.callstack.reverse.modify owner fun f => { f with table := some t }).reverse }

/-- The time of a register in the table of the innermost function that has one. -/
def getRegisterTimeAtIndex (s : KremlinProfiler) (reg : ℕ) (index : ℕ) : Option ℕ := do
  let t ← s.getRegisterFileTable
  t.getValue reg index

/-- The same time rewritten. -/
def setRegisterTimeAtIndex (s : KremlinProfiler) (time : ℕ) (reg : ℕ) (index : ℕ) :
    Option KremlinProfiler := do
  let t ← s.getRegisterFileTable
  let t ← t.setValue time reg index
  s.writeRegisterFileTable t

/-- `zeroRegistersAtIndex`: one column of the current table. -/
def zeroRegistersAtIndex (s : KremlinProfiler) (index : ℕ) : Option KremlinProfiler := do
  let t ← s.getRegisterFileTable
  (List.range t.row).foldlM (fun s i => s.setRegisterTimeAtIndex 0 i index) s

/-! ### Control dependences. -/

/-- `*(cdt_current_base + index)`. -/
def getControlDependenceAtIndex (s : KremlinProfiler) (index : ℕ) : Option ℕ := do
  let base ← s.cdt_current_base
  s.control_dependence_table.load (base + index)

/-- `cdt_current_base = control_dependence_table->getElementAddr(cdt_read_ptr, 0)`. -/
def setCdtBase (s : KremlinProfiler) : KremlinProfiler :=
  { s with cdt_current_base := some (s.control_dependence_table.getOffset s.cdt_read_ptr 0) }

/-- A level just entered depends on nothing yet. -/
def initRegionControlDependences (s : KremlinProfiler) (index : ℕ) :
    Option KremlinProfiler := do
  let t ← s.control_dependence_table.setValue 0 s.cdt_read_ptr index
  some { s with control_dependence_table := t }.setCdtBase

/-! ### The argument queue. -/

/-- An argument is put behind the others. -/
def functionArgQueuePushBack (s : KremlinProfiler) (src : ℕ) : Option KremlinProfiler :=
  if s.arg_queue_write_index < FUNC_ARG_QUEUE_SIZE then
    some { s with
      function_arg_queue := fun i =>
        if i = s.arg_queue_write_index then src else s.function_arg_queue i
      arg_queue_write_index := s.arg_queue_write_index + 1 }
  else none

/-- The first argument that was not read is taken. -/
def functionArgQueuePopFront (s : KremlinProfiler) : Option (ℕ × KremlinProfiler) :=
  if s.arg_queue_read_index < FUNC_ARG_QUEUE_SIZE then
    some (s.function_arg_queue s.arg_queue_read_index,
      { s with arg_queue_read_index := s.arg_queue_read_index + 1 })
  else none

/-- The queue is read and written from its first entry again. -/
def clearFunctionArgQueue (s : KremlinProfiler) : KremlinProfiler :=
  { s with arg_queue_read_index := 0, arg_queue_write_index := 0 }

end KremlinProfiler

end Kremlin.Runtime
