/-
  Kremlin.Runtime.OrderedTimes — times do not increase with depth.

  In the analysis every time of a register, of a memory word and of a control
  dependence is ordered (`OrderedBelow`): an outer region has seen at least as
  much as an inner one.  The invariant is `Ordered`; each event of a
  well-formed program keeps it (`Ordered.analyse`).
-/
import Kremlin.Runtime.CriticalPath

namespace Kremlin.Runtime

open Kremlin.Library
open KremlinProfiler

/-! ## §1. The invariant. -/

/-- Components for `n` regions, not increasing with depth. -/
def OrderedBelow (n : ℕ) (v : ℕ → ℕ) : Prop := Antitone v ∧ Supported n v

/-- No time is ordered. -/
theorem orderedBelow_zero (n : ℕ) : OrderedBelow n fun _ => 0 :=
  ⟨antitone_zero, supported_zero n⟩

/-- More levels may be open. -/
theorem OrderedBelow.mono {n n' : ℕ} {v : ℕ → ℕ} (h : OrderedBelow n v) (hn : n ≤ n') :
    OrderedBelow n' v := ⟨h.1, h.2.mono hn⟩

/-- A cut keeps the order. -/
theorem OrderedBelow.cut {n : ℕ} {v : ℕ → ℕ} (h : Antitone v) : OrderedBelow n (cut n v) :=
  ⟨antitone_cut fun l _ => h (Nat.le_succ l), supported_cut n v⟩

/-- The registers of one activation.  Until its body runs, no time has passed in
the function's own region. -/
structure OrderedFrame (top : ℕ) (a : Activation) (reg : Registers) : Prop where
  level : a.level < top
  ordered : ∀ r, OrderedBelow top (reg r)
  fresh : a.phase ≠ .body → a.level + 1 = top ∧ ∀ r, Supported a.level (reg r)

/-- Every time the program can read is ordered. -/
structure Ordered (p : Program) (m : Analysis) : Prop where
  suspended : ∀ b ∈ p.acts.tail, b.phase = .body
  frames : LevelFrames Activation.level OrderedFrame p.depth p.acts m.regs
  cdep : OrderedBelow p.depth m.cdep
  outer : List.Forall₂ (fun q c => OrderedBelow (q + 1) c) p.cdeps m.outer
  mem : ∀ w, OrderedBelow p.depth (m.mem w)

/-- Nothing has a time. -/
theorem ordered_start : Ordered Program.start Analysis.start where
  suspended _ hb := absurd hb List.not_mem_nil
  frames := trivial
  cdep := orderedBelow_zero 0
  outer := .nil
  mem _ := orderedBelow_zero 0

/-! ## §2. Updates. -/

/-- The register that is set, and the others. -/
@[simp] theorem Analysis.reg_setReg (m : Analysis) (r : ℕ) (v : ℕ → ℕ) (r' : ℕ) :
    (m.setReg r v).reg r' = if r' = r then v else m.reg r' := rfl

/-- An update rewrites one register of the current activation, and regions. -/
theorem Analysis.update_eq (n : ℕ) (m : Analysis) (u : TimestampUpdate) :
    ∃ region, m.update n u = { m.setReg u.dest_reg (m.destTime n u) with region := region } := by
  unfold Analysis.update
  by_cases hcp : u.update_cp
  · exact ⟨_, if_pos hcp⟩
  · exact ⟨_, if_neg hcp⟩

/-- The new time of an update is ordered when the times it reads are. -/
theorem Analysis.destTime_ordered {m : Analysis} {n : ℕ} (hreg : ∀ r, Antitone (m.reg r))
    (hcdep : Antitone m.cdep) (hmem : ∀ w, Antitone (m.mem w)) (u : TimestampUpdate) :
    OrderedBelow n (m.destTime n u) := by
  refine ⟨antitone_cut fun l _ => ?_, supported_cut n _⟩
  have hbase : m.baseTime u (l + 1) ≤ m.baseTime u l := by
    have hc : m.ctrlTime u (l + 1) ≤ m.ctrlTime u l := by
      unfold Analysis.ctrlTime
      split
      · exact hcdep (Nat.le_succ l)
      · exact le_rfl
    unfold Analysis.baseTime
    split
    · exact max_le_max hc (hmem _ (Nat.le_succ l))
    · exact hc
  have hsrc : ∀ src ∈ u.srcs, m.sourceTime u (l + 1) src ≤ m.sourceTime u l src := by
    intro src _
    have h : m.reg src.1 (l + 1) ≤ m.reg src.1 l := hreg src.1 (Nat.le_succ l)
    unfold Analysis.sourceTime
    split <;> omega
  have hmax := maxOver_mono hbase hsrc
  show (if u.src_addr.isSome then _ else _) ≤ if u.src_addr.isSome then _ else _
  split <;> omega

/-- The time of a store is ordered. -/
theorem Analysis.storeTime_ordered {m : Analysis} {n : ℕ} (hreg : ∀ r, Antitone (m.reg r))
    (hcdep : Antitone m.cdep) (src : Option ℕ) : OrderedBelow n (m.storeTime n src) := by
  refine ⟨antitone_cut fun l _ => ?_, supported_cut n _⟩
  have hc := hcdep (Nat.le_succ l)
  cases src with
  | none => exact Nat.add_le_add_right hc STORE_COST
  | some r => exact Nat.add_le_add_right (max_le_max hc (hreg r (Nat.le_succ l))) STORE_COST

/-- What the updates of an instruction read and write is ordered. -/
structure OrderedNow (n : ℕ) (m : Analysis) : Prop where
  reg : ∀ r, OrderedBelow n (m.reg r)
  cdep : Antitone m.cdep
  mem : ∀ w, Antitone (m.mem w)

/-- An update keeps the order. -/
theorem OrderedNow.update {n : ℕ} {m : Analysis} (h : OrderedNow n m) (u : TimestampUpdate) :
    OrderedNow n (m.update n u) := by
  obtain ⟨region, hm⟩ := m.update_eq n u
  rw [hm]
  refine ⟨fun r => ?_, h.cdep, h.mem⟩
  show OrderedBelow n (if r = u.dest_reg then _ else m.reg r)
  split
  · exact Analysis.destTime_ordered (fun r => (h.reg r).1) h.cdep h.mem u
  · exact h.reg r

/-- The updates of an instruction leave everything but the current registers. -/
theorem OrderedNow.foldl {n : ℕ} {m : Analysis} (h : OrderedNow n m)
    (us : List TimestampUpdate) :
    let m' := us.foldl (Analysis.update n) m
    OrderedNow n m' ∧ m'.regs.tail = m.regs.tail ∧ m'.cdep = m.cdep ∧ m'.outer = m.outer ∧
      m'.mem = m.mem ∧ (m.regs ≠ [] → m'.regs ≠ []) := by
  induction us generalizing m with
  | nil => exact ⟨h, rfl, rfl, rfl, rfl, id⟩
  | cons u us ih =>
      obtain ⟨region, hm⟩ := m.update_eq n u
      have hnext := ih (h.update u)
      rw [hm] at hnext
      simp only [List.foldl_cons, hm]
      obtain ⟨h₁, h₂, h₃, h₄, h₅, h₆⟩ := hnext
      exact ⟨h₁, h₂, h₃, h₄, h₅, fun _ => h₆ (List.cons_ne_nil _ _)⟩

/-! ## §3. Events. -/

section Events

variable {limit : ℕ} {p p' : Program} {m : Analysis} {a : Activation} {rest : List Activation}

/-- The current activation and its registers. -/
theorem Ordered.current (h : Ordered p m) (hacts : p.acts = a :: rest) :
    ∃ reg regs, m.regs = reg :: regs ∧ OrderedFrame p.depth a reg ∧
      LevelFrames Activation.level OrderedFrame a.level rest regs := by
  have hframes := h.frames
  rw [hacts] at hframes
  exact frames_cons.mp hframes

/-- The order in the current function. -/
theorem Ordered.now (h : Ordered p m) (hacts : p.acts = a :: rest) : OrderedNow p.depth m := by
  obtain ⟨reg, regs, hregs, hframe, -⟩ := h.current hacts
  refine ⟨fun r => ?_, h.cdep.1, fun w => (h.mem w).1⟩
  rw [Analysis.reg, hregs]
  exact hframe.ordered r

/-- The current activation goes on in its body, with new registers. -/
theorem Ordered.body_frames {n : ℕ} {reg : Registers} {regs : List Registers} {a' : Activation}
    (hlevel : a'.level = a.level) (hbody : a'.phase = .body) (hn : a.level < n)
    (hreg : ∀ r, OrderedBelow n (reg r))
    (hrest : LevelFrames Activation.level OrderedFrame a.level rest regs) :
    LevelFrames Activation.level OrderedFrame n (a' :: rest) (reg :: regs) :=
  ⟨⟨hlevel ▸ hn, hreg, fun hne => absurd hbody hne⟩, hlevel ▸ hrest⟩

/-- An event after which the current activation is in its body and nothing the
analysis sees has changed. -/
theorem Ordered.continue (h : Ordered p m) (hacts : p.acts = a :: rest) (a' : Activation)
    (hlevel : a'.level = a.level) (hbody : a'.phase = .body) (p' : Program)
    (hdepth : p'.depth = p.depth) (hacts' : p'.acts = a' :: rest) (hcdeps : p'.cdeps = p.cdeps) :
    Ordered p' m := by
  obtain ⟨reg, regs, hregs, hframe, hrest⟩ := h.current hacts
  refine ⟨?_, ?_, by rw [hdepth]; exact h.cdep, by rw [hcdeps]; exact h.outer,
    by rw [hdepth]; exact h.mem⟩
  · have hs := h.suspended
    rw [hacts] at hs
    rw [hacts']
    exact hs
  · rw [hacts', hregs, hdepth]
    exact body_frames hlevel hbody hframe.level hframe.ordered hrest

/-- The same for the calls that set the phase only. -/
theorem Ordered.inBody (h : Ordered p m) (hacts : p.acts = a :: rest) :
    Ordered (p.inBody a) m :=
  h.continue hacts { a with phase := .body } rfl rfl _ rfl (Program.inBody_acts hacts) rfl

/-- The innermost region is one of the current activation. -/
theorem Ordered.depth_pos (h : Ordered p m) (hacts : p.acts = a :: rest) :
    p.depth - 1 + 1 = p.depth := by
  obtain ⟨reg, regs, -, hframe, -⟩ := h.current hacts
  have hlt := hframe.level
  omega

/-- Returning a value to the caller's register. -/
theorem Ordered.setCaller (h : Ordered p m) (hacts : p.acts = a :: rest) (hret : p.CanReturn a)
    {v : ℕ → ℕ} (hv : Antitone v) :
    Ordered (p.inBody a)
      (match p.callerRegister with
        | some r => m.setCallerReg r (cut (p.depth - 1) v)
        | none => m) := by
  have h' := h.inBody hacts
  cases hcaller : p.callerRegister with
  | none => exact h'
  | some r =>
      obtain ⟨reg, regs, hregs, hframe, hrest⟩ := h.current hacts
      cases rest with
      | nil =>
          rw [Program.callerRegister, hacts] at hcaller
          cases hcaller
      | cons caller rest =>
          obtain ⟨creg, cregs, rfl, hcframe, hcrest⟩ := frames_cons.mp hrest
          have hcbody : caller.phase = .body :=
            h.suspended caller (by rw [hacts]; exact List.mem_cons_self)
          have hn : p.depth - 1 = a.level := by
            have := hret.1
            omega
          refine ⟨h'.suspended, ?_, h'.cdep, h'.outer, h'.mem⟩
          show LevelFrames _ _ p.depth (p.inBody a).acts (m.setCallerReg r (cut (p.depth - 1) v)).regs
          rw [Program.inBody_acts hacts, Analysis.setCallerReg, hregs, hn]
          refine body_frames rfl rfl hframe.level hframe.ordered
            ⟨⟨hcframe.level, fun r' => ?_, fun hne => absurd hcbody hne⟩, hcrest⟩
          dsimp only
          split
          · exact .cut hv
          · exact hcframe.ordered r'

/-- Storing the time of a word. -/
theorem Ordered.store (h : Ordered p m) (hacts : p.acts = a :: rest) (src : Option ℕ)
    (addr cost : ℕ) : Ordered ((p.inBody a).charge 0 cost) (m.store p.depth src addr) := by
  have hnow := h.now hacts
  have hd : ((p.inBody a).charge 0 cost).depth = p.depth := Program.depth_charge _ _ _
  have h' : Ordered ((p.inBody a).charge 0 cost) m :=
    h.continue hacts { a with phase := .body } rfl rfl _ hd (Program.inBody_acts hacts) rfl
  refine ⟨h'.suspended, h'.frames, h'.cdep, h'.outer, fun w => ?_⟩
  show OrderedBelow _ (if w = wordOf addr then m.storeTime p.depth src else m.mem w)
  split
  · rw [hd]
    exact Analysis.storeTime_ordered (fun r => (hnow.reg r).1) hnow.cdep src
  · exact h'.mem w

/-- Entering a region gives every time one more component, which is 0. -/
theorem Ordered.enter (h : Ordered p m) {acts : List Activation} {regs : List Registers}
    {region : ℕ → ProgramRegion} {r : OpenRegion} (hs : ∀ b ∈ acts.tail, b.phase = .body)
    (hframes : LevelFrames Activation.level OrderedFrame (p.depth + 1) acts regs) :
    Ordered { p with regions := r :: p.regions, acts := acts }
      { m with region := region, regs := regs } where
  suspended := hs
  frames := hframes
  cdep := h.cdep.mono (Nat.le_succ _)
  outer := h.outer
  mem w := (h.mem w).mono (Nat.le_succ _)

/-- A function that was just entered. -/
theorem orderedFrame_entered (n : ℕ) :
    OrderedFrame (n + 1) ⟨n, .entered, 0, 0, none⟩ fun _ _ => 0 where
  level := Nat.lt_succ_self n
  ordered _ := orderedBelow_zero _
  fresh _ := ⟨rfl, fun _ => supported_zero _⟩

/-- A function is entered. -/
theorem Ordered.enterFunction (id : SID) {a : Activation} {rest : List Activation}
    (h : Ordered p m) (hacts : p.acts = a :: rest) :
    Ordered { p with
      regions := ⟨id, .regionFunc, 0, 0⟩ :: p.regions
      acts := ⟨p.depth, .entered, 0, 0, none⟩ :: { a with phase := .body } :: rest }
      (m.apply p (.enterRegion id .regionFunc)) := by
  obtain ⟨reg, regs, hregs, hframe, hrest⟩ := h.current hacts
  have hs := h.suspended
  rw [hacts] at hs
  refine h.enter (fun b hb => ?_) ?_
  · rcases List.mem_cons.mp hb with rfl | hb
    · rfl
    · exact hs b hb
  · rw [hregs]
    exact ⟨orderedFrame_entered p.depth, body_frames rfl rfl hframe.level hframe.ordered hrest⟩

/-- A loop or its body is entered. -/
theorem Ordered.enterLoop (id : SID) {ty : RegionType} {a : Activation} {rest : List Activation}
    (h : Ordered p m) (hacts : p.acts = a :: rest) (hty : ty ≠ .regionFunc) :
    Ordered { p with
      regions := ⟨id, ty, 0, 0⟩ :: p.regions
      acts := { a with phase := .body } :: rest } (m.apply p (.enterRegion id ty)) := by
  obtain ⟨reg, regs, hregs, hframe, hrest⟩ := h.current hacts
  have hlt := hframe.level
  have hs := h.suspended
  rw [hacts] at hs
  simp only [Analysis.apply, if_neg hty]
  refine h.enter hs ?_
  rw [hregs]
  exact body_frames rfl rfl (show a.level < p.depth + 1 by omega)
    (fun r => (hframe.ordered r).mono (Nat.le_succ _)) hrest

/-- Leaving a function drops its frame; what stays is cut at its level. -/
theorem Ordered.exitFunction {a : Activation} {rest : List Activation} {r : OpenRegion}
    {rs : List OpenRegion} (h : Ordered p m) (hacts : p.acts = a :: rest)
    (hregions : p.regions = r :: rs) (hlevel : a.level = rs.length) :
    Ordered { p with regions := rs, acts := rest }
      (m.apply p (.exitRegion r.id .regionFunc)) := by
  obtain ⟨reg, regs, hregs, hframe, hrest⟩ := h.current hacts
  have hs := h.suspended
  rw [hacts] at hs
  have hn : p.depth - 1 = rs.length := by
    rw [Program.depth, hregions, List.length_cons, Nat.add_sub_cancel]
  show Ordered _ (m.leaveFunction (p.depth - 1))
  rw [hn]
  refine ⟨fun b hb => hs b (List.mem_of_mem_tail hb), ?_, .cut h.cdep.1, h.outer,
    fun w => .cut (h.mem w).1⟩
  show LevelFrames _ _ rs.length rest m.regs.tail
  rw [hregs, ← hlevel]
  exact hrest

/-- Leaving a loop keeps the frame of its function, cut at the loop's level as well. -/
theorem Ordered.exitLoop {a : Activation} {rest : List Activation} {r : OpenRegion}
    {rs : List OpenRegion} (h : Ordered p m) (hacts : p.acts = a :: rest)
    (hregions : p.regions = r :: rs) (hty : r.type ≠ .regionFunc) (hlevel : a.level < rs.length) :
    Ordered { p with regions := rs, acts := { a with phase := .body } :: rest }
      (m.apply p (.exitRegion r.id r.type)) := by
  obtain ⟨reg, regs, hregs, hframe, hrest⟩ := h.current hacts
  have hs := h.suspended
  rw [hacts] at hs
  have hn : p.depth - 1 = rs.length := by
    rw [Program.depth, hregions, List.length_cons, Nat.add_sub_cancel]
  rw [show m.apply p (.exitRegion r.id r.type) = m.leaveLoop (p.depth - 1) from if_neg hty, hn]
  refine ⟨hs, ?_, .cut h.cdep.1, h.outer, fun w => .cut (h.mem w).1⟩
  show LevelFrames _ _ rs.length _ ((fun r => cut rs.length (m.reg r)) :: m.regs.tail)
  rw [hregs]
  exact body_frames rfl rfl hlevel (fun r => .cut ((h.now hacts).reg r).1) hrest

/-- The updates of an instruction write the registers of the innermost function only. -/
theorem Ordered.instr (i : Instr) {a : Activation} {rest : List Activation} (h : Ordered p m)
    (hacts : p.acts = a :: rest) :
    Ordered ((p.inBody a).charge 0 i.cost) (m.apply p (.instr i)) := by
  obtain ⟨reg, regs, hregs, hframe, hrest⟩ := h.current hacts
  obtain ⟨hnow, htail, hcdep, houter, hmem, hne⟩ := (h.now hacts).foldl (updates i)
  have hd : ((p.inBody a).charge 0 i.cost).depth = p.depth := Program.depth_charge _ _ _
  have h' : Ordered ((p.inBody a).charge 0 i.cost) m :=
    h.continue hacts { a with phase := .body } rfl rfl _ hd (Program.inBody_acts hacts) rfl
  show Ordered _ ((updates i).foldl (Analysis.update p.depth) m)
  -- memory and the control dependences are untouched
  refine ⟨h'.suspended, ?_, by rw [hcdep]; exact h'.cdep, by rw [houter]; exact h'.outer,
    by rw [hmem]; exact h'.mem⟩
  obtain ⟨reg', regs', hr'⟩ := List.exists_cons_of_ne_nil
    (hne (by rw [hregs]; exact List.cons_ne_nil _ _))
  rw [hr', hregs, List.tail_cons, List.tail_cons] at htail
  rw [hr', htail, hd, Program.acts_charge, Program.inBody_acts hacts]
  refine body_frames rfl rfl hframe.level (fun r => ?_) hrest
  have hreg' := hnow.reg r
  rw [Analysis.reg, hr'] at hreg'
  exact hreg'

/-- A popped dependence leaves the one below it, which was pushed at the same depth. -/
theorem Ordered.popCDep {qs : List ℕ} {a : Activation} {rest : List Activation}
    (h : Ordered p m) (hacts : p.acts = a :: rest) (hcdeps : p.cdeps = (p.depth - 1) :: qs) :
    Ordered { p.inBody a with cdeps := qs } (m.apply p .popCDep) := by
  have h' := h.inBody hacts
  have houter := h.outer
  rw [hcdeps] at houter
  cases hc : m.outer with
  | nil => rw [hc] at houter; cases houter
  | cons c cs =>
      rw [hc] at houter
      cases houter with
      | cons hhead htail =>
          rw [h.depth_pos hacts] at hhead
          refine ⟨h'.suspended, h'.frames, ?_, ?_, h'.mem⟩
          · show OrderedBelow p.depth (m.outer.headD fun _ => 0)
            rw [hc]
            exact hhead
          · show List.Forall₂ _ qs m.outer.tail
            rw [hc]
            exact htail

/-- In the callee an argument is exactly the caller's time: the levels that the handler copies
are the caller's, and neither time reaches the callee's own. -/
theorem argument_eq {n level : ℕ} {t u : ℕ → ℕ} (hlevel : level + 1 = n)
    (hfresh : Supported level t) (hcaller : OrderedBelow level u) :
    (fun l => if l + 1 < n then u l else t l) = u := by
  funext l
  split
  · rfl
  · rw [hfresh l (by omega), hcaller.2 l (by omega)]

/-- A taken argument has the caller's time at every level, the callee's own being 0. -/
theorem Ordered.deqArg {dest src : ℕ} {args : List ℕ} {a caller : Activation}
    {rest : List Activation} (h : Ordered p m) (hacts : p.acts = a :: caller :: rest)
    (hphase : a.phase = .arguments) (hargs : p.args = src :: args) :
    Ordered { p with args := args } (m.apply p (.deqArg dest)) := by
  obtain ⟨reg, regs, hregs, hframe, hrest⟩ := h.current hacts
  obtain ⟨creg, cregs, rfl, hcframe, hcrest⟩ := frames_cons.mp hrest
  obtain ⟨htop, hfresh⟩ := hframe.fresh (by rw [hphase]; exact Phase.noConfusion)
  simp only [Analysis.apply, hargs, hregs]
  by_cases hdummy : src = DUMMY_ARG
  · rw [if_pos hdummy]
    exact ⟨h.suspended, h.frames, h.cdep, h.outer, h.mem⟩
  · rw [if_neg hdummy]
    rw [argument_eq htop (hfresh dest) (hcframe.ordered src)]
    refine ⟨h.suspended, ?_, h.cdep, h.outer, h.mem⟩
    show LevelFrames _ _ p.depth p.acts ((fun r' => if r' = dest then creg src else m.reg r')
      :: m.regs.tail)
    rw [hacts, hregs]
    have hreg : m.reg = reg := by rw [Analysis.reg, hregs]; rfl
    rw [hreg]
    refine ⟨⟨hframe.level, fun r => ?_, fun _ => ⟨htop, fun r => ?_⟩⟩, hrest⟩
    · split
      · exact (hcframe.ordered src).mono (by omega)
      · exact hframe.ordered r
    · split
      · exact (hcframe.ordered src).2
      · exact hfresh r

/-- A register table for a function just entered: its registers are still all 0. -/
theorem Ordered.prepRTable {rows nested : ℕ} {a : Activation} {rest : List Activation}
    (h : Ordered p m) (hacts : p.acts = a :: rest) (hphase : a.phase = .entered) :
    Ordered (p.setCurrent { a with phase := .arguments, rows := rows, nested := nested })
      (m.apply p (.prepRTable rows nested)) := by
  obtain ⟨reg, regs, hregs, hframe, hrest⟩ := h.current hacts
  have hfresh := hframe.fresh (by rw [hphase]; exact Phase.noConfusion)
  have hs := h.suspended
  rw [hacts] at hs
  refine ⟨?_, ?_, h.cdep, h.outer, h.mem⟩
  · rw [Program.setCurrent_acts hacts]
    exact hs
  · show LevelFrames _ _ p.depth _ m.regs
    rw [Program.setCurrent_acts hacts, hregs]
    exact ⟨⟨hframe.level, hframe.ordered, fun _ => hfresh⟩, hrest⟩

/-- **One event keeps the invariant.** -/
theorem Ordered.apply {e : Event} (h : Ordered p m) (hmove : p.Move limit e p') :
    Ordered p' (m.apply p e) := by
  cases hmove with
  | work amount =>
      have hd := Program.depth_charge p amount 0
      exact ⟨h.suspended, by rw [hd]; exact h.frames, by rw [hd]; exact h.cdep, h.outer,
        by rw [hd]; exact h.mem⟩
  | enterMain id hlimit hacts =>
      have hframes := h.frames
      rw [hacts, frames_nil] at hframes
      refine h.enter (fun b hb => absurd hb List.not_mem_nil) ?_
      rw [hframes]
      exact ⟨orderedFrame_entered p.depth, trivial⟩
  | enterFunction id hlimit hacts hphase => exact h.enterFunction id hacts
  | enterLoop id hlimit hacts hphase hty hnested => exact h.enterLoop id hacts hty
  | exitFunction hacts hphase hregions hty hcdeps hlevel =>
      exact h.exitFunction hacts hregions hlevel
  | exitLoop hacts hphase hregions hty hcdeps hlevel =>
      exact h.exitLoop hacts hregions hty hlevel
  | @instr i a rest hacts hphase hr => exact h.instr i hacts
  | @store src addr size a rest hacts hphase hsrc => exact h.store hacts (some src) addr _
  | @storeConst addr size a rest hacts hphase => exact h.store hacts none addr _
  | @pushCDep cond a rest hacts hphase hcond =>
      have h' := h.inBody hacts
      refine ⟨h'.suspended, h'.frames, (h.now hacts).reg cond, .cons ?_ h.outer, h'.mem⟩
      rw [h.depth_pos hacts]
      exact h.cdep
  | popCDep hacts hphase hcdeps => exact h.popCDep hacts hcdeps
  | @prepCall c r a rest hacts hphase =>
      exact h.continue hacts { a with phase := .body } rfl rfl _ rfl (Program.inBody_acts hacts) rfl
  | @enqArg arg a rest hacts hphase harg =>
      exact h.continue hacts { a with phase := .body } rfl rfl _ rfl (Program.inBody_acts hacts) rfl
  | @enqArgConst a rest hacts hphase =>
      exact h.continue hacts { a with phase := .body } rfl rfl _ rfl (Program.inBody_acts hacts) rfl
  | deqArg hacts hphase hargs hdest hsrc => exact h.deqArg hacts hphase hargs
  | prepRTable hacts hphase => exact h.prepRTable hacts hphase
  | @linkReturn dest a rest hacts hphase hdest =>
      exact h.continue hacts { a with phase := .body, linked := some dest } rfl rfl _ rfl
        (Program.setCurrent_acts hacts _) rfl
  | @ret src a rest hacts hphase hsrc hret =>
      exact h.setCaller hacts hret ((h.now hacts).reg src).1
  | @retConst a rest hacts hphase hret => exact h.setCaller hacts hret h.cdep.1

end Events

end Kremlin.Runtime
