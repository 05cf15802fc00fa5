/-
  Kremlin.Runtime.CriticalPath — what the profiler is meant to compute.

  The abstract analysis: every register, memory word and control dependence has
  a time for each open region (the length of the critical path to it from that
  region's start), and every region has its work, its critical path and the
  totals of its children.  There are no tables, versions, windows or argument
  buffers here: a value simply loses its component when the region is left.

  `Runtime.Refinement` connects the profiler to it.
-/
import Kremlin.Library.LevelTimes
import Kremlin.Runtime.Program

namespace Kremlin.Runtime

open Kremlin.Library
open KremlinProfiler

/-- The times of the registers of one activation. -/
abbrev Registers := ℕ → ℕ → ℕ

/-- The state of the analysis.  `regs` has the current activation first, `outer`
are the control dependences below the current one, newest first. -/
structure Analysis where
  time : ℕ
  region : ℕ → ProgramRegion
  regs : List Registers
  cdep : ℕ → ℕ
  outer : List (ℕ → ℕ)
  mem : ℕ → ℕ → ℕ

namespace Analysis

/-- Nothing has been measured. -/
def start : Analysis where
  time := 0
  region _ := .init 0 .regionFunc 0
  regs := []
  cdep _ := 0
  outer := []
  mem _ _ := 0

/-- The registers of the current activation. -/
def reg (m : Analysis) : Registers := m.regs.headD fun _ _ => 0

/-- Set a register of the current activation. -/
def setReg (m : Analysis) (r : ℕ) (v : ℕ → ℕ) : Analysis :=
  { m with regs := (fun r' => if r' = r then v else m.reg r') :: m.regs.tail }

/-- Set a register of the caller. -/
def setCallerReg (m : Analysis) (r : ℕ) (v : ℕ → ℕ) : Analysis :=
  { m with
    regs :=
      match m.regs with
      | callee :: caller :: rest => callee :: (fun r' => if r' = r then v else caller r') :: rest
      | regs => regs }

/-- Every open region's critical path is at least `v`. -/
def extendPaths (m : Analysis) (n : ℕ) (v : ℕ → ℕ) : Analysis :=
  { m with
    region := fun l => if l < n then (m.region l).updateCriticalPathLength (v l) else m.region l }

/-- The time a source register contributes. -/
def sourceTime (m : Analysis) (u : TimestampUpdate) (l : ℕ) (src : Source) : ℕ :=
  if u.src_addr.isSome then m.reg src.1 l else m.reg src.1 l + src.2

/-- The control dependence, if the update uses it. -/
def ctrlTime (m : Analysis) (u : TimestampUpdate) (l : ℕ) : ℕ :=
  if u.use_ctrl_dependence then m.cdep l else 0

/-- What an update starts from: the control dependence and the word read. -/
def baseTime (m : Analysis) (u : TimestampUpdate) (l : ℕ) : ℕ :=
  match u.src_addr with
  | some a => max (m.ctrlTime u l) (m.mem (wordOf a) l)
  | none => m.ctrlTime u l

/-- The new time of an update's destination. -/
def destTime (m : Analysis) (n : ℕ) (u : TimestampUpdate) : ℕ → ℕ :=
  cut n fun l =>
    let t := maxOver (m.sourceTime u l) (m.baseTime u l) u.srcs
    if u.src_addr.isSome then t + LOAD_COST else t

/-- The destination gets its time, and the path may get longer. -/
def update (n : ℕ) (m : Analysis) (u : TimestampUpdate) : Analysis :=
  let v := m.destTime n u
  let m := m.setReg u.dest_reg v
  if u.update_cp then m.extendPaths n v else m

/-- The time a store gives to the word. -/
def storeTime (m : Analysis) (n : ℕ) (src : Option ℕ) : ℕ → ℕ :=
  cut n fun l =>
    (match src with
      | some r => max (m.cdep l) (m.reg r l)
      | none => m.cdep l) + STORE_COST

/-- The word gets its time. -/
def store (m : Analysis) (n : ℕ) (src : Option ℕ) (addr : ℕ) : Analysis :=
  let v := m.storeTime n src
  { m.extendPaths n v with mem := fun w => if w = wordOf addr then v else m.mem w }

/-- Leave the innermost of `n + 1` regions. -/
def leave (m : Analysis) (n : ℕ) : Analysis :=
  { m with
    region := fun l =>
      if l + 1 = n then
        (m.region l).addChild (m.time - (m.region n).start) (m.region n).cp
      else m.region l
    cdep := cut n m.cdep
    mem := fun w => cut n (m.mem w) }

/-- Leave a function: its registers disappear. -/
def leaveFunction (m : Analysis) (n : ℕ) : Analysis :=
  { m.leave n with regs := m.regs.tail }

/-- Leave a loop or a loop body: the function's registers lose a component. -/
def leaveLoop (m : Analysis) (n : ℕ) : Analysis :=
  { m.leave n with regs := (fun r => cut n (m.reg r)) :: m.regs.tail }

/-- What an event of the program does to the analysis. -/
def apply (p : Program) (m : Analysis) : Event → Analysis
  | .work amount => { m with time := m.time + amount }
  | .enterRegion id ty =>
      let m := { m with
        region := fun l => if l = p.depth then .init id ty m.time else m.region l }
      if ty = .regionFunc then { m with regs := (fun _ _ => 0) :: m.regs } else m
  | .exitRegion _ ty =>
      if ty = .regionFunc then m.leaveFunction (p.depth - 1) else m.leaveLoop (p.depth - 1)
  | .instr i => (updates i).foldl (update p.depth) m
  | .store src addr _ => m.store p.depth (some src) addr
  | .storeConst addr _ => m.store p.depth none addr
  | .pushCDep cond => { m with cdep := m.reg cond, outer := m.cdep :: m.outer }
  | .popCDep => { m with cdep := m.outer.headD fun _ => 0, outer := m.outer.tail }
  | .deqArg dest =>
      match p.args, m.regs with
      | src :: _, callee :: caller :: _ =>
          -- the component of the callee's own region is not the argument's
          if src = DUMMY_ARG then m
          else m.setReg dest fun l => if l + 1 < p.depth then caller src l else callee dest l
      | _, _ => m
  | .ret src =>
      match p.callerRegister with
      | some r => m.setCallerReg r (cut (p.depth - 1) (m.reg src))
      | none => m
  | .retConst =>
      match p.callerRegister with
      | some r => m.setCallerReg r (cut (p.depth - 1) m.cdep)
      | none => m
  | .landingPad _ _ | .prepCall _ _ | .enqArg _ | .enqArgConst | .prepRTable _ _
  | .linkReturn _ => m

end Analysis

/-- One event, seen by the program and by the analysis. -/
def analyse (limit : ℕ) (x : Program × Analysis) (e : Event) : Option (Program × Analysis) :=
  (x.1.step limit e).map fun p => (p, x.2.apply x.1 e)

end Kremlin.Runtime
