/-
  Kremlin.Runtime.Handlers — the event handlers of the profiler.

  `Handlers.cpp`, function by function.  The templates are ordinary functions:
  the template arguments of `timestampUpdater` and the sources in use are one
  record (`TimestampUpdate`), and a variable argument list is a list.  The
  interface functions `_KXyz` of `kremlin.cpp` only forward to the handlers;
  `Event` has one constructor for each, and `step` is what one call does.

  Messages, debug printing and asserts are left out (`NDEBUG`).
-/
import Kremlin.Runtime.KremlinProfiler
import Mathlib.Data.Rat.Floor
import Mathlib.Algebra.Order.Field.Power

namespace Kremlin.Runtime

open Kremlin.Library

/-! ## §1. The calls of the instrumented program. -/

/-- A source register and the offset added to its time. -/
abbrev Source := ℕ × ℕ

/-- The instrumentation calls that compute the time of a virtual register. -/
inductive Instr where
  | assignConst (dest_reg : ℕ)
  | induction (dest_reg : ℕ)
  | reduction (op_cost : ℕ) (dest_reg : ℕ)
  | timestamp (dest_reg : ℕ) (srcs : List Source)
  | timestamp0 (dest_reg : ℕ)
  | timestamp1 (dest_reg : ℕ) (src1 : Source)
  | timestamp2 (dest_reg : ℕ) (src1 src2 : Source)
  | timestamp3 (dest_reg : ℕ) (src1 src2 src3 : Source)
  | timestamp4 (dest_reg : ℕ) (src1 src2 src3 src4 : Source)
  | timestamp5 (dest_reg : ℕ) (src1 src2 src3 src4 src5 : Source)
  | timestamp6 (dest_reg : ℕ) (src1 src2 src3 src4 src5 src6 : Source)
  | timestamp7 (dest_reg : ℕ) (src1 src2 src3 src4 src5 src6 src7 : Source)
  | load (src_addr : ℕ) (dest_reg : ℕ) (mem_access_size : ℕ) (srcs : List ℕ)
  | load0 (src_addr : ℕ) (dest_reg : ℕ) (mem_access_size : ℕ)
  | load1 (src_addr : ℕ) (dest_reg src_reg : ℕ) (mem_access_size : ℕ)
  | phi (dest_reg src_reg : ℕ) (ctrls : List ℕ)
  | phi1To1 (dest_reg src_reg ctrl_reg : ℕ)
  | phi2To1 (dest_reg src_reg ctrl1_reg ctrl2_reg : ℕ)
  | phi3To1 (dest_reg src_reg ctrl1_reg ctrl2_reg ctrl3_reg : ℕ)
  | phi4To1 (dest_reg src_reg ctrl1_reg ctrl2_reg ctrl3_reg ctrl4_reg : ℕ)
  | phiCond4To1 (dest_reg ctrl1_reg ctrl2_reg ctrl3_reg ctrl4_reg : ℕ)
  | phiAddCond (dest_reg src_reg : ℕ)
  deriving Repr, DecidableEq

/-- One call of the interface. -/
inductive Event where
  | work (amount : ℕ)
  | enterRegion (regionId : SID) (regionType : RegionType)
  | exitRegion (regionId : SID) (regionType : RegionType)
  | landingPad (regionId : SID) (regionType : RegionType)
  | instr (i : Instr)
  | store (src_reg : ℕ) (dest_addr : ℕ) (mem_access_size : ℕ)
  | storeConst (dest_addr : ℕ) (mem_access_size : ℕ)
  | pushCDep (cond : ℕ)
  | popCDep
  | prepCall (callSiteId : CID) (calledRegionId : SID)
  | enqArg (arg : ℕ)
  | enqArgConst
  | deqArg (dest : ℕ)
  | prepRTable (num_virt_regs nested_depth : ℕ)
  | linkReturn (dest : ℕ)
  | ret (src : ℕ)
  | retConst
  deriving Repr, DecidableEq

namespace KremlinProfiler

/-! ## §2. Timestamp updates. -/

/-- One instance of `timestampUpdater`: its template arguments, the sources in
use (at most five) and, for a load, the address read. -/
structure TimestampUpdate where
  use_ctrl_dependence : Bool
  update_cp : Bool
  dest_reg : ℕ
  srcs : List Source
  src_addr : Option ℕ
  deriving Repr, DecidableEq

/-- `calcMaxTime` for a data dependence in use. -/
def calcMaxTime (ignore_offset : Bool) (s : KremlinProfiler) (curr_time : ℕ) (src : Source)
    (l : ℕ) : Option ℕ := do
  let dep_time ← s.getRegisterTimeAtIndex src.1 l
  some (max curr_time (if ignore_offset then dep_time else dep_time + src.2))

/-- The new time of the destination at one index.  `src_addr_times` are the
times the shadow memory returned. -/
def destTime (u : TimestampUpdate) (src_addr_times : ℕ → ℕ) (s : KremlinProfiler)
    (index : ℕ) : Option ℕ := do
  let dest_time ←
    (if u.use_ctrl_dependence then s.getControlDependenceAtIndex index else some 0)
  let dest_time := if u.src_addr.isSome then max dest_time (src_addr_times index) else dest_time
  let dest_time ←
    u.srcs.foldlM (fun t src => calcMaxTime u.src_addr.isSome s t src index) dest_time
  some (if u.src_addr.isSome then dest_time + LOAD_COST else dest_time)

/-- The loop body of `timestampUpdater`. -/
def timestampUpdaterAt (cfg : Config) (u : TimestampUpdate) (src_addr_times : ℕ → ℕ)
    (s : KremlinProfiler) (index : ℕ) : Option KremlinProfiler := do
  let i := getLevelForIndex cfg index
  let region ← s.getRegionAtLevel i
  let dest_time ← destTime u src_addr_times s index
  let s ← s.setRegisterTimeAtIndex dest_time u.dest_reg index
  some (if u.update_cp then s.setRegion i (region.updateCriticalPathLength dest_time) else s)

/-- The word an address lies in; the shadow memory drops the low three bits. -/
def wordOf (addr : ℕ) : ℕ := addr / 8

/-- What the shadow memory holds for an address at the current versions. -/
def memTimes (cfg : Config) (s : KremlinProfiler) (addr : ℕ) : ℕ → ℕ :=
  s.shadow_mem.view (versions cfg s) (wordOf addr)

/-- One update at all instrumented levels; the times of the address are read before the loop. -/
def timestampUpdater (cfg : Config) (u : TimestampUpdate) (s : KremlinProfiler) :
    Option KremlinProfiler :=
  let end_index := s.curr_num_instrumented_levels
  let src_addr_times : ℕ → ℕ :=
    match u.src_addr with
    | some src_addr => memTimes cfg s src_addr
    | none => fun _ => 0
  (List.range end_index).foldlM (timestampUpdaterAt cfg u src_addr_times) s

/-- The source lists `handleVariableNumArgs` hands to `timestampUpdater`, from
`arg_idx` on.  `srcs` is the array of five sources, `src_reg` the extra source
when `use_src_reg` is set. -/
def variableArgChunks (src_reg : Option ℕ) : ℕ → List Source → List Source → List (List Source)
  | arg_idx, srcs, arg :: args =>
      let index := arg_idx % 5
      -- the first source of a round is copied over all five
      let srcs := if index = 0 then List.replicate 5 arg else srcs.set index arg
      if index = 4 then srcs :: variableArgChunks src_reg (arg_idx + 1) srcs args
      else variableArgChunks src_reg (arg_idx + 1) srcs args
  | arg_idx, srcs, [] =>
      match src_reg with
      | some r => [srcs.modify (arg_idx % 5) fun src => (r, src.2)]
      | none => if arg_idx % 5 ≠ 0 then [srcs] else []

/-- The updates `handleVariableNumArgs` makes, in order. -/
def handleVariableNumArgs (use_ctrl_dependence update_cp : Bool) (src_reg : Option ℕ)
    (src_addr : Option ℕ) (dest_reg : ℕ) (args : List Source) : List TimestampUpdate :=
  (variableArgChunks src_reg 0 (List.replicate 5 (0, 0)) args).map fun srcs =>
    { use_ctrl_dependence, update_cp, dest_reg, srcs, src_addr }

/-- A register without an offset. -/
def noOffset (r : ℕ) : Source := (r, 0)

/-! ### The handlers of §1's instructions, as the updates each one makes. -/

/-- A constant is available from the start. -/
def handleAssignConst (dest_reg : ℕ) : List TimestampUpdate :=
  [⟨true, true, dest_reg, [], none⟩]

/-- So is an induction variable. -/
def handleInduction (dest_reg : ℕ) : List TimestampUpdate :=
  [⟨true, true, dest_reg, [], none⟩]

/-- `handleReduction` does nothing. -/
def handleReduction (_op_cost : ℕ) (_dest_reg : ℕ) : List TimestampUpdate := []

/-- Any number of sources, in rounds of five. -/
def handleTimestamp (dest_reg : ℕ) (srcs : List Source) : List TimestampUpdate :=
  handleVariableNumArgs true true none none dest_reg srcs

/-- A time of nothing but the control dependence. -/
def handleTimestamp0 (dest_reg : ℕ) : List TimestampUpdate :=
  [⟨true, true, dest_reg, [], none⟩]

/-- One source, with its offset. -/
def handleTimestamp1 (dest_reg : ℕ) (src1 : Source) : List TimestampUpdate :=
  [⟨true, true, dest_reg, [src1], none⟩]

/-- Two sources. -/
def handleTimestamp2 (dest_reg : ℕ) (src1 src2 : Source) : List TimestampUpdate :=
  [⟨true, true, dest_reg, [src1, src2], none⟩]

/-- Three sources. -/
def handleTimestamp3 (dest_reg : ℕ) (src1 src2 src3 : Source) : List TimestampUpdate :=
  [⟨true, true, dest_reg, [src1, src2, src3], none⟩]

/-- Four sources. -/
def handleTimestamp4 (dest_reg : ℕ) (src1 src2 src3 src4 : Source) : List TimestampUpdate :=
  [⟨true, true, dest_reg, [src1, src2, src3, src4], none⟩]

/-- Five sources, the most that one update takes. -/
def handleTimestamp5 (dest_reg : ℕ) (src1 src2 src3 src4 src5 : Source) :
    List TimestampUpdate :=
  [⟨true, true, dest_reg, [src1, src2, src3, src4, src5], none⟩]

/-- The sixth source needs a second update, which reads back the first. -/
def handleTimestamp6 (dest_reg : ℕ) (src1 src2 src3 src4 src5 src6 : Source) :
    List TimestampUpdate :=
  [⟨true, false, dest_reg, [src1, src2, src3, src4, src5], none⟩,
   ⟨false, true, dest_reg, [noOffset dest_reg, src6], none⟩]

/-- Seven sources take a second update, which reads the destination back. -/
def handleTimestamp7 (dest_reg : ℕ) (src1 src2 src3 src4 src5 src6 src7 : Source) :
    List TimestampUpdate :=
  [⟨true, false, dest_reg, [src1, src2, src3, src4, src5], none⟩,
   ⟨false, true, dest_reg, [noOffset dest_reg, src6, src7], none⟩]

/-- A load with any number of dependences of its address. -/
def handleLoad (src_addr : ℕ) (dest_reg : ℕ) (_mem_access_size : ℕ) (srcs : List ℕ) :
    List TimestampUpdate :=
  handleVariableNumArgs true true none (some src_addr) dest_reg (srcs.map noOffset)

/-- A load from an address that depends on nothing. -/
def handleLoad0 (src_addr : ℕ) (dest_reg : ℕ) (_mem_access_size : ℕ) :
    List TimestampUpdate :=
  [⟨true, true, dest_reg, [], some src_addr⟩]

/-- A load from an address that depends on one register. -/
def handleLoad1 (src_addr : ℕ) (dest_reg src_reg : ℕ) (_mem_access_size : ℕ) :
    List TimestampUpdate :=
  [⟨true, true, dest_reg, [noOffset src_reg], some src_addr⟩]

/-- A phi takes the time of the value chosen and of the conditions it was chosen by. -/
def handlePhi (dest_reg src_reg : ℕ) (ctrls : List ℕ) : List TimestampUpdate :=
  if ctrls.length > 0 then
    handleVariableNumArgs false false (some src_reg) none dest_reg (ctrls.map noOffset)
  else [⟨true, true, dest_reg, [noOffset src_reg], none⟩]

/-- The phi handlers with a fixed number of controls. -/
def phiUpdate (update_cp : Bool) (dest_reg : ℕ) (srcs : List ℕ) : List TimestampUpdate :=
  [⟨false, update_cp, dest_reg, srcs.map noOffset, none⟩]

/-- A phi with one condition. -/
def handlePhi1To1 (dest_reg src_reg ctrl_reg : ℕ) : List TimestampUpdate :=
  phiUpdate false dest_reg [src_reg, ctrl_reg]

/-- A phi with two conditions. -/
def handlePhi2To1 (dest_reg src_reg ctrl1_reg ctrl2_reg : ℕ) : List TimestampUpdate :=
  phiUpdate false dest_reg [src_reg, ctrl1_reg, ctrl2_reg]

/-- A phi with three conditions. -/
def handlePhi3To1 (dest_reg src_reg ctrl1_reg ctrl2_reg ctrl3_reg : ℕ) :
    List TimestampUpdate :=
  phiUpdate false dest_reg [src_reg, ctrl1_reg, ctrl2_reg, ctrl3_reg]

/-- A phi with four conditions. -/
def handlePhi4To1 (dest_reg src_reg ctrl1_reg ctrl2_reg ctrl3_reg ctrl4_reg : ℕ) :
    List TimestampUpdate :=
  phiUpdate false dest_reg [src_reg, ctrl1_reg, ctrl2_reg, ctrl3_reg, ctrl4_reg]

/-- Four more conditions of a phi, which reads its destination back. -/
def handlePhiCond4To1 (dest_reg ctrl1_reg ctrl2_reg ctrl3_reg ctrl4_reg : ℕ) :
    List TimestampUpdate :=
  phiUpdate false dest_reg [dest_reg, ctrl1_reg, ctrl2_reg, ctrl3_reg, ctrl4_reg]

/-- Unlike the other phis this one updates the critical path. -/
def handlePhiAddCond (dest_reg src_reg : ℕ) : List TimestampUpdate :=
  phiUpdate true dest_reg [dest_reg, src_reg]

/-- The calls of `timestampUpdater` an instruction makes. -/
def updates : Instr → List TimestampUpdate
  | .assignConst d => handleAssignConst d
  | .induction d => handleInduction d
  | .reduction c d => handleReduction c d
  | .timestamp d srcs => handleTimestamp d srcs
  | .timestamp0 d => handleTimestamp0 d
  | .timestamp1 d s1 => handleTimestamp1 d s1
  | .timestamp2 d s1 s2 => handleTimestamp2 d s1 s2
  | .timestamp3 d s1 s2 s3 => handleTimestamp3 d s1 s2 s3
  | .timestamp4 d s1 s2 s3 s4 => handleTimestamp4 d s1 s2 s3 s4
  | .timestamp5 d s1 s2 s3 s4 s5 => handleTimestamp5 d s1 s2 s3 s4 s5
  | .timestamp6 d s1 s2 s3 s4 s5 s6 => handleTimestamp6 d s1 s2 s3 s4 s5 s6
  | .timestamp7 d s1 s2 s3 s4 s5 s6 s7 => handleTimestamp7 d s1 s2 s3 s4 s5 s6 s7
  | .load a d size srcs => handleLoad a d size srcs
  | .load0 a d size => handleLoad0 a d size
  | .load1 a d r size => handleLoad1 a d r size
  | .phi d r ctrls => handlePhi d r ctrls
  | .phi1To1 d r c1 => handlePhi1To1 d r c1
  | .phi2To1 d r c1 c2 => handlePhi2To1 d r c1 c2
  | .phi3To1 d r c1 c2 c3 => handlePhi3To1 d r c1 c2 c3
  | .phi4To1 d r c1 c2 c3 c4 => handlePhi4To1 d r c1 c2 c3 c4
  | .phiCond4To1 d c1 c2 c3 c4 => handlePhiCond4To1 d c1 c2 c3 c4
  | .phiAddCond d r => handlePhiAddCond d r

/-- A handler is disabled as a whole. -/
def handleInstr (cfg : Config) (i : Instr) (s : KremlinProfiler) : Option KremlinProfiler :=
  if s.enabled then (updates i).foldlM (fun s u => timestampUpdater cfg u s) s else some s

/-- The time a store leaves at one index; no source register is `store_const`. -/
def storeTime (src_reg : Option ℕ) (s : KremlinProfiler) (index : ℕ) : Option ℕ := do
  let control_dep_time ← s.getControlDependenceAtIndex index
  match src_reg with
  | none => some (control_dep_time + STORE_COST)
  | some r => do
      let src_time ← s.getRegisterTimeAtIndex r index
      some (max control_dep_time src_time + STORE_COST)

/-- The loop body of `timestampUpdaterStore`. -/
def timestampUpdaterStoreAt (cfg : Config) (src_reg : Option ℕ) (s : KremlinProfiler)
    (index : ℕ) : Option KremlinProfiler := do
  let i := getLevelForIndex cfg index
  let region ← s.getRegionAtLevel i
  let dest_time ← storeTime src_reg s index
  let s := { s with level_times := fun j => if j = index then dest_time else s.level_times j }
  some (s.setRegion i (region.updateCriticalPathLength dest_time))

/-- The times of a stored value, and of a constant for no register, go to the shadow memory. -/
def timestampUpdaterStore (cfg : Config) (src_reg : Option ℕ) (dest_addr : ℕ)
    (s : KremlinProfiler) : Option KremlinProfiler := do
  let end_index := s.curr_num_instrumented_levels
  let s ← (List.range end_index).foldlM (timestampUpdaterStoreAt cfg src_reg) s
  some { s with
    shadow_mem :=
      s.shadow_mem.store (versions cfg s) (wordOf dest_addr) end_index s.level_times }

/-- A register is stored. -/
def handleStore (cfg : Config) (src_reg : ℕ) (dest_addr : ℕ) (s : KremlinProfiler) :
    Option KremlinProfiler :=
  if s.enabled then timestampUpdaterStore cfg (some src_reg) dest_addr s else some s

/-- A constant is stored. -/
def handleStoreConst (cfg : Config) (dest_addr : ℕ) (s : KremlinProfiler) :
    Option KremlinProfiler :=
  if s.enabled then timestampUpdaterStore cfg none dest_addr s else some s

/-! ## §3. Regions. -/

/-- `addFunctionToStack` and `waitForRegisterTableSetup`. -/
def addFunctionToStack (s : KremlinProfiler) (callsite_id : CID) : KremlinProfiler :=
  { s with
    callstack := .new callsite_id :: s.callstack
    waiting_for_register_table_init := true }

/-- `openRegionContext`, recorded. -/
def openContext (s : KremlinProfiler) (sid : SID) (cid : CID) (type : RegionType) :
    KremlinProfiler :=
  { s with treeCalls := s.treeCalls ++ [.openCtx sid cid type] }

/-- `closeRegionContext`, recorded. -/
def closeContext (s : KremlinProfiler) (stats : RegionStats) : KremlinProfiler :=
  { s with treeCalls := s.treeCalls ++ [.closeCtx stats] }

/-- On entry a function gets a new register table; any other region cleans its
level in the current one. -/
def enterRegisters (cfg : Config) (regionType : RegionType) (s : KremlinProfiler) :
    Option KremlinProfiler :=
  if regionType = .regionFunc then some (s.addFunctionToStack s.last_callsite_id)
  else if s.instrument_curr_level then s.zeroRegistersAtIndex (s.getCurrentLevelIndex cfg)
  else some s

/-- On entry the control dependence is cleaned at the new level. -/
def enterControlDependences (cfg : Config) (s : KremlinProfiler) : Option KremlinProfiler :=
  if s.instrument_curr_level then s.initRegionControlDependences (s.getCurrentLevelIndex cfg)
  else some s

/-- A region is entered: its level gets a version, a region, cleared registers and a control
dependence. -/
def handleRegionEntry (cfg : Config) (regionId : SID) (regionType : RegionType)
    (s : KremlinProfiler) : Option KremlinProfiler :=
  if s.enabled then do
    let s := s.incrementLevel cfg
    let level := s.curr_level
    let s := if level = s.num_regions then s.doubleNumRegions else s
    let _ ← s.getRegionAtLevel level
    let s ← s.issueVersionToLevel level
    let s := s.setRegion level (.init regionId regionType s.curr_time)
    let s ← enterRegisters cfg regionType s
    let callSiteId := (s.getCurrentFunction.map (·.call_site_id)).getD 0
    let s := s.openContext regionId callSiteId regionType
    enterControlDependences cfg s
  else some s

/-- `callstackPop` and `handleFunctionExit`. -/
def handleFunctionExit (s : KremlinProfiler) : Option KremlinProfiler :=
  match s.callstack with
  | [] => none
  | [_] => some { s with callstack := [] }
  | _ :: rest => some { s with callstack := rest, shadow_reg_file := some (rest.length - 1) }

/-- The `double` nearest to a number that is not negative, the even one of two.  What is rounded
here is 0 or between `2 ^ (-64)` and `2 ^ 128`. -/
def toDouble (q : ℚ) : ℚ :=
  let k : ℤ := (q.num.natAbs.log2 : ℤ) - q.den.log2
  -- the last of the 53 digits
  let ulp : ℚ := 2 ^ (if (2 : ℚ) ^ k ≤ q then k - 52 else k - 53)
  let m : ℤ := ⌊q / ulp⌋
  let rest : ℚ := q / ulp - m
  ulp * (if 1 / 2 < rest ∨ rest = 1 / 2 ∧ m % 2 = 1 then m + 1 else m : ℤ)

/-- `(UInt64)((double)work / sp)`, capped at `work`.  A quotient by zero is 0, which is what the
conversion gives for `work / inf`; that of a `sp` of 0 or `nan` is undefined. -/
def selfParWork (work childrenWork childrenCP cp : ℕ) : ℕ :=
  let childrenAside : ℕ := (usub work childrenWork + childrenCP) % 2 ^ 64
  let spTemp := toDouble (toDouble childrenAside / toDouble cp)
  let sp : ℚ := if work > 0 then spTemp else 1
  min work ⌊toDouble (toDouble work / sp)⌋₊

/-- The quotient 9 / 7 is rounded up, so 9 / (9 / 7) stays below 7. -/
example : selfParWork 9 0 0 7 = 6 := by decide +kernel

/-- `fillRegionStats` on the values `handleRegionExit` computes. -/
def fillRegionStats (regionType : RegionType) (work : ℕ) (callSite : CID)
    (region : ProgramRegion) : RegionStats where
  work := work
  cp := region.cp
  callSite := callSite
  spWork := selfParWork work region.childrenWork region.childrenCP region.cp
  is_doall :=
    if regionType ≠ .regionLoop then 0
    else if usub region.cp region.childMaxCP < doall_threshold then 1 else 0
  childCnt := region.childCount

/-- Close the deepest region: the body of `handleRegionExit`. -/
def closeDeepest (cfg : Config) (regionType : RegionType) (s : KremlinProfiler) :
    Option KremlinProfiler := do
  let level := s.curr_level
  let region ← s.getRegionAtLevel level
  let work := usub s.curr_time region.start
  let s ←
    (if level > cfg.min_level then do
       let parent ← s.getRegionAtLevel (level - 1)
       some (s.setRegion (level - 1) (parent.addChild work region.cp))
     else some s)
  let f ← s.getCurrentFunction
  let s := s.closeContext (fillRegionStats regionType work f.call_site_id region)
  let s ← (if regionType = .regionFunc then s.handleFunctionExit else some s)
  some (s.decrementLevel cfg)

/-- The deepest region is left, with the type the call gives. -/
def handleRegionExit (cfg : Config) (_regionId : SID) (regionType : RegionType)
    (s : KremlinProfiler) : Option KremlinProfiler :=
  if s.enabled then s.closeDeepest cfg regionType else some s

/-- The deepest level at or above `l` whose region has this id.  Past level 0
the unsigned counter of the source wraps and leaves the vector. -/
def findDeepest (s : KremlinProfiler) (regionId : SID) : ℕ → Option ℕ
  | 0 => do
      let region ← s.getRegionAtLevel 0
      if region.regionId = regionId then some 0 else none
  | l + 1 => do
      let region ← s.getRegionAtLevel (l + 1)
      if region.regionId = regionId then some (l + 1) else findDeepest s regionId l

/-- The loop body of `handleLandingPad`.  The source spells the accounting of
`handleRegionExit` out a second time; so does this definition. -/
def unwindDeepest (cfg : Config) (s : KremlinProfiler) : Option KremlinProfiler := do
  let level := s.curr_level
  let region ← s.getRegionAtLevel level
  let work := usub s.curr_time region.start
  let cp := region.cp
  let is_doall := if usub cp region.childMaxCP < doall_threshold then 1 else 0
  let is_doall := if region.regionType ≠ .regionLoop then 0 else is_doall
  let s ←
    (if level > cfg.min_level then do
       let parentRegion ← s.getRegionAtLevel (level - 1)
       some (s.setRegion (level - 1) { parentRegion with
         childrenWork := parentRegion.childrenWork + work
         childrenCP := parentRegion.childrenCP + cp
         childCount := parentRegion.childCount + 1
         childMaxCP := if parentRegion.childMaxCP < cp then cp else parentRegion.childMaxCP })
     else some s)
  let childrenAside : ℕ := (usub work region.childrenWork + region.childrenCP) % 2 ^ 64
  let spTemp := toDouble (toDouble childrenAside / toDouble cp)
  let sp : ℚ := if work > 0 then spTemp else 1
  let spWork := ⌊toDouble (toDouble work / sp)⌋₊
  let spWork := if spWork > work then work else spWork
  let funcHead ← s.getCurrentFunction
  let stats : RegionStats :=
    { work, cp, callSite := funcHead.call_site_id, spWork, is_doall, childCnt := region.childCount }
  let s := s.closeContext stats
  let s ← (if region.regionType = .regionFunc then s.handleFunctionExit else some s)
  some (s.decrementLevel cfg)

/-- The `while` of `handleLandingPad`; every turn lowers the level by one. -/
def closeDownTo (cfg : Config) (end_level : ℕ) : ℕ → KremlinProfiler → Option KremlinProfiler
  | 0, s => if s.curr_level > end_level then none else some s
  | fuel + 1, s =>
      if s.curr_level > end_level then do
        let s ← s.unwindDeepest cfg
        closeDownTo cfg end_level fuel s
      else some s

/-- All regions deeper than the one of an id are left. -/
def handleLandingPad (cfg : Config) (regionId : SID) (_regionType : RegionType)
    (s : KremlinProfiler) : Option KremlinProfiler :=
  if s.enabled then do
    let end_level ← s.findDeepest regionId s.curr_level
    s.closeDownTo cfg end_level s.curr_level
  else some s

/-- The loop of `cleanup`, from the level below `i` up to level 0. -/
def cleanupFrom (cfg : Config) : ℕ → KremlinProfiler → Option KremlinProfiler
  | 0, s => some s
  | i + 1, s => do
      let region ← s.getRegionAtLevel i
      let s ← handleRegionExit cfg region.regionId region.regionType s
      cleanupFrom cfg i s

/-- `cleanup`: a program that ends outside `main` leaves its regions. -/
def cleanup (cfg : Config) (s : KremlinProfiler) : Option KremlinProfiler :=
  cleanupFrom cfg (nextLevel s.curr_level) s

/-! ## §4. Control dependences. -/

/-- A row of the condition's times is pushed on the control dependences. -/
def handlePushCDep (cond : ℕ) (s : KremlinProfiler) : Option KremlinProfiler :=
  if s.enabled then do
    let s := { s with cdt_read_ptr := s.cdt_read_ptr + 1 }
    let indexSize := s.curr_num_instrumented_levels
    -- a table that "requires resizing" is reported and used as it is
    let lTable ← s.getRegisterFileTable
    let t ← lTable.copyToDest s.control_dependence_table s.cdt_read_ptr cond 0 indexSize
    some { s with control_dependence_table := t }.setCdtBase
  else some s

/-- The last row is given up; its times stay in the table. -/
def handlePopCDep (s : KremlinProfiler) : Option KremlinProfiler :=
  if s.enabled then
    match s.cdt_read_ptr with
    | 0 => none
    | k + 1 => some { s with cdt_read_ptr := k }.setCdtBase
  else some s

/-! ## §5. Calls. -/

/-- The arguments of the next call are collected from here. -/
def handlePrepCall (callSiteId : CID) (_calledRegionId : SID) (s : KremlinProfiler) :
    Option KremlinProfiler :=
  if s.enabled then some { s.clearFunctionArgQueue with last_callsite_id := callSiteId }
  else some s

/-- An argument in a register. -/
def handleEnqueueArgument (arg : ℕ) (s : KremlinProfiler) : Option KremlinProfiler :=
  if s.enabled then s.functionArgQueuePushBack arg else some s

/-- An argument without a time. -/
def handleEnqueueConstArgument (s : KremlinProfiler) : Option KremlinProfiler :=
  if s.enabled then s.functionArgQueuePushBack DUMMY_ARG else some s

/-- `handleDequeueArgument`.  The level of the callee itself is not copied. -/
def handleDequeueArgument (dest : ℕ) (s : KremlinProfiler) : Option KremlinProfiler :=
  if s.enabled then do
    let (src, s) ← s.functionArgQueuePopFront
    if src ≠ DUMMY_ARG ∧ s.curr_num_instrumented_levels > 0 then do
      let caller ← (← s.getCallingFunction)
      let callee ← s.getCurrentFunction
      let callerT ← caller.table
      let calleeT ← callee.table
      let indexSize := s.curr_num_instrumented_levels - 1
      let t ← callerT.copyToDest calleeT dest src 0 indexSize
      some (s.setCurrentFunction { callee with table := some t })
    else some s
  else some s

/-- The callee gets its register table, as wide as its regions will nest. -/
def handlePrepRTable (num_virt_regs nested_depth : ℕ) (s : KremlinProfiler) :
    Option KremlinProfiler :=
  if s.enabled then do
    let table := Table.new num_virt_regs (s.curr_level + nested_depth + 1)
    let funcHead ← s.getCurrentFunction
    let s := s.setCurrentFunction { funcHead with table := some table }
    some { s with
      shadow_reg_file := some (s.callstack.length - 1)
      waiting_for_register_table_init := false }
  else some s

/-- The register of the caller that takes the return value. -/
def handleLinkReturn (dest : ℕ) (s : KremlinProfiler) : Option KremlinProfiler :=
  if s.enabled then do
    let caller ← s.getCurrentFunction
    some (s.setCurrentFunction { caller with return_register := dest })
  else some s

/-- `handleReturn`.  The level of the callee itself is not copied. -/
def handleReturn (src : ℕ) (s : KremlinProfiler) : Option KremlinProfiler :=
  if s.enabled then do
    let callee ← s.getCurrentFunction
    match ← s.getCallingFunction with
    | none => some s
    | some caller =>
        let indexSize := s.curr_num_instrumented_levels - 1
        if indexSize > 0 then do
          let calleeT ← callee.table
          let callerT ← caller.table
          let t ← calleeT.copyToDest callerT caller.return_register src 0 indexSize
          some (s.setCallingFunction { caller with table := some t })
        else some s
  else some s

/-- The loop body of `handleReturnConst`. -/
def returnConstAt (s : KremlinProfiler) (ret : ℕ) (t : Table) (index : ℕ) :
    Option Table := do
  let cdt ← s.getControlDependenceAtIndex index
  t.setValue cdt ret index

/-- A constant is returned: the caller's register gets the times of the control dependence. -/
def handleReturnConst (s : KremlinProfiler) : Option KremlinProfiler :=
  if s.enabled then do
    match ← s.getCallingFunction with
    | none => some s
    | some caller =>
        let callerT ← caller.table
        let t ← (List.range callerT.col).foldlM (returnConstAt s caller.return_register) callerT
        some (s.setCallingFunction { caller with table := some t })
  else some s

/-! ## §6. One call, and runs. -/

/-- `_KWork` is not gated by `enabled`. -/
def increaseTime (amount : ℕ) (s : KremlinProfiler) : KremlinProfiler :=
  { s with curr_time := s.curr_time + amount }

/-- What one call does to the profiler. -/
def step (cfg : Config) (s : KremlinProfiler) : Event → Option KremlinProfiler
  | .work amount => some (increaseTime amount s)
  | .enterRegion regionId regionType => handleRegionEntry cfg regionId regionType s
  | .exitRegion regionId regionType => handleRegionExit cfg regionId regionType s
  | .landingPad regionId regionType => handleLandingPad cfg regionId regionType s
  | .instr i => handleInstr cfg i s
  | .store src_reg dest_addr _ => handleStore cfg src_reg dest_addr s
  | .storeConst dest_addr _ => handleStoreConst cfg dest_addr s
  | .pushCDep cond => handlePushCDep cond s
  | .popCDep => handlePopCDep s
  | .prepCall callSiteId calledRegionId => handlePrepCall callSiteId calledRegionId s
  | .enqArg arg => handleEnqueueArgument arg s
  | .enqArgConst => handleEnqueueConstArgument s
  | .deqArg dest => handleDequeueArgument dest s
  | .prepRTable num_virt_regs nested_depth => handlePrepRTable num_virt_regs nested_depth s
  | .linkReturn dest => handleLinkReturn dest s
  | .ret src => handleReturn src s
  | .retConst => handleReturnConst s

end KremlinProfiler

end Kremlin.Runtime
