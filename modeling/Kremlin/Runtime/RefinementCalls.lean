/-
  Kremlin.Runtime.RefinementCalls — calls, and one event of the refinement.

  Arguments and return values cross from one register table to another; each
  copies the columns above the callee's own level.  With these the events are
  complete (`Refines.step`); `RefinementRun` goes on to whole runs.
-/
import Kremlin.Runtime.RefinementMoves

namespace Kremlin.Runtime

open Kremlin.Library
open KremlinProfiler

section Calls

variable {cfg : Config} {limit : ℕ} {p p' : Program} {m : Analysis} {s : KremlinProfiler}
  {a caller : Activation} {rest : List Activation}

/-! ## §1. Arguments. -/

/-- One argument more. -/
theorem ArgsOk.push {args : List ℕ} {enqueued read write : ℕ} {queue : ℕ → ℕ}
    (h : ArgsOk args enqueued queue read write) (hroom : enqueued < FUNC_ARG_QUEUE_SIZE)
    (src : ℕ) :
    ArgsOk (args ++ [src]) (enqueued + 1) (fun i => if i = write then src else queue i) read
      (write + 1) := by
  have hw := h.written
  have hp := h.pending
  refine ⟨by omega, by rw [List.length_append, List.length_singleton]; omega, hroom,
    fun j hj => ?_⟩
  rw [List.length_append, List.length_singleton] at hj
  by_cases hlast : j = args.length
  · subst hlast
    rw [if_pos (by omega), List.getElem_concat_length]
    rfl
  · rw [if_neg (by omega), List.getElem_append_left (by omega)]
    exact h.content j (by omega)

/-- An argument is queued. -/
theorem Refines.enqueue (h : Refines cfg limit p m s) (hacts : p.acts = a :: rest)
    (hphase : a.phase ≠ .entered) (hroom : p.enqueued < FUNC_ARG_QUEUE_SIZE) (src : ℕ) :
    ∃ s', s.functionArgQueuePushBack src = some s' ∧
      Refines cfg limit
        { p.inBody a with args := p.args ++ [src], enqueued := p.enqueued + 1 } m s' := by
  have hbody := h.inBody hacts hphase
  refine ⟨_, if_pos (by rw [h.args.written]; exact hroom), ?_⟩
  exact ⟨hbody.levels, hbody.regions, hbody.tables, hbody.file, hbody.cdep, h.args.push hroom src,
    hbody.mem⟩

/-- The arguments of the next call are collected from here. -/
theorem Refines.prepCall (h : Refines cfg limit p m s) (hacts : p.acts = a :: rest)
    (hphase : a.phase ≠ .entered) (callSiteId : CID) :
    Refines cfg limit { p.inBody a with args := [], enqueued := 0 } m
      { s.clearFunctionArgQueue with last_callsite_id := callSiteId } := by
  have hbody := h.inBody hacts hphase
  refine ⟨hbody.levels, hbody.regions, hbody.tables, hbody.file, hbody.cdep, ?_, hbody.mem⟩
  exact ⟨rfl, rfl, Nat.zero_le _, fun j hj => absurd hj (Nat.not_lt_zero j)⟩

/-- The callee and its caller on both sides. -/
theorem Refines.calling (ho : Ordered p m) (h : Refines cfg limit p m s)
    (hacts : p.acts = a :: caller :: rest) (hphase : a.phase ≠ .entered) :
    ∃ reg creg regs f cf fs t ct, m.regs = reg :: creg :: regs ∧ s.callstack = f :: cf :: fs ∧
      f.table = some t ∧ cf.table = some ct ∧ TableOk cfg p.depth a reg t ∧
      TableOk cfg a.level caller creg ct ∧ (∀ r ∈ a.linked, f.return_register = r ∧ r < a.rows) ∧
      FrameOk cfg a.level caller (creg, cf) ∧
      TablesOk cfg caller.level rest regs fs := by
  obtain ⟨reg, regs, f, fs, t, hregs, hown, htable, hlinked, hrest⟩ := h.current hacts hphase
  obtain ⟨creg, cregs, cf, cfs, rfl, rfl, hcframe, hcrest⟩ := tablesOk_cons.mp hrest
  have hbody : caller.phase = .body :=
    ho.suspended caller (by rw [hacts]; exact List.mem_cons_self)
  obtain ⟨ct, hct, hctable⟩ := hcframe.table (by rw [hbody]; exact Phase.noConfusion)
  exact ⟨reg, creg, cregs, f, cf, cfs, t, ct, hregs, hown.stack, hown.table, hct, htable, hctable,
    hlinked, hcframe, hcrest⟩

/-- A table with one register rewritten. -/
theorem TableOk.setReg {top : ℕ} {reg : Registers} {t t' : Table} (h : TableOk cfg top a reg t)
    (hrow : t'.row = t.row) (hcol : t'.col = t.col) {d : ℕ} {v : ℕ → ℕ}
    (hd : ∀ i, cfg.min_level + i ≤ cfg.max_level → cfg.min_level + i < top →
      t'.entry d i = v (cfg.min_level + i))
    (hother : ∀ r ≠ d, ∀ i < t.col, t'.entry r i = t.entry r i) :
    TableOk cfg top a (fun r => if r = d then v else reg r) t' where
  row := hrow.trans h.row
  col := hcol.trans h.col
  deep := hcol ▸ h.deep
  entry r hr i hmax hlt := by
    have hdeep := h.deep
    by_cases hrd : r = d
    · rw [if_pos hrd, hrd]
      exact hd i hmax hlt
    · rw [if_neg hrd, hother r hrd i (by omega)]
      exact h.entry r hr i hmax hlt

/-- The front of the queue, and the arguments behind it. -/
theorem ArgsOk.pop {src : ℕ} {args : List ℕ} {enqueued read write : ℕ} {queue : ℕ → ℕ}
    (h : ArgsOk (src :: args) enqueued queue read write) :
    read < FUNC_ARG_QUEUE_SIZE ∧ queue read = src ∧
      ArgsOk args enqueued queue (read + 1) write := by
  have hpending := h.pending
  have hbounded := h.bounded
  rw [List.length_cons] at hpending
  have hfront : queue read = src := h.content 0 (by rw [List.length_cons]; omega)
  refine ⟨by omega, hfront, ⟨h.written, by omega, h.bounded, fun j hj => ?_⟩⟩
  have hc := h.content (j + 1) (by rw [List.length_cons]; omega)
  rw [List.getElem_cons_succ] at hc
  rw [show read + 1 + j = read + (j + 1) by omega, hc]

/-- Taking an argument from the queue, which changes nothing else. -/
theorem Refines.popFront (h : Refines cfg limit p m s) {src : ℕ} {args : List ℕ}
    (hargs : p.args = src :: args) :
    s.functionArgQueuePopFront
        = some (src, { s with arg_queue_read_index := s.arg_queue_read_index + 1 }) ∧
      s.function_arg_queue s.arg_queue_read_index = src ∧
      Refines cfg limit { p with args := args } m
        { s with arg_queue_read_index := s.arg_queue_read_index + 1 } := by
  have hq := h.args
  rw [hargs] at hq
  obtain ⟨hread, hfront, hargs'⟩ := hq.pop
  refine ⟨by rw [functionArgQueuePopFront, if_pos hread, hfront], hfront, ?_⟩
  exact ⟨h.levels, h.regions, h.tables, h.file, h.cdep, hargs', h.mem⟩

/-- One register of the innermost function rewritten, in its table and in the analysis. -/
theorem Refines.rewriteReg (h : Refines cfg limit p m s) {reg : Registers}
    {regs : List Registers} {f : FunctionRegion} {fs : List FunctionRegion} {t : Table} (t' : Table)
    (d : ℕ) (v : ℕ → ℕ) (hacts : p.acts = a :: rest) (hphase : a.phase ≠ .entered) (hregs : m.regs = reg :: regs)
    (hstack : s.callstack = f :: fs) (htable : TableOk cfg p.depth a reg t)
    (hlinked : ∀ r ∈ a.linked, f.return_register = r ∧ r < a.rows)
    (hrest : TablesOk cfg a.level rest regs fs) (hrow : t'.row = t.row) (hcol : t'.col = t.col)
    (hd : ∀ i, cfg.min_level + i ≤ cfg.max_level → cfg.min_level + i < p.depth →
      t'.entry d i = v (cfg.min_level + i))
    (hother : ∀ r ≠ d, ∀ i < t.col, t'.entry r i = t.entry r i) :
    Refines cfg limit p (m.setReg d v)
      { s with callstack := { f with table := some t' } :: fs } := by
  have hmreg : m.reg = reg := by rw [Analysis.reg, hregs]; rfl
  refine ⟨h.levels, h.regions, ?_, ?_, h.cdep, h.args, h.mem⟩
  · show TablesOk cfg p.depth p.acts ((fun r => if r = d then v else m.reg r) :: m.regs.tail) _
    rw [hacts, hregs, List.tail_cons, hmreg]
    exact tablesOk_cons.mpr ⟨_, _, _, _, rfl, rfl, ⟨hlinked, fun he => absurd he hphase,
      fun _ => ⟨t', rfl, htable.setReg hrow hcol hd hother⟩⟩, hrest⟩
  · have hfile := h.file
    rw [hstack] at hfile
    exact hfile

/-- The columns that a call copies are those of the levels above the callee's own. -/
theorem Config.lt_instrumented_pred {n : ℕ} (hwin : 0 < cfg.instrumented n)
    (hmax : n - 1 ≤ cfg.max_level) (i : ℕ) :
    i < cfg.instrumented n - 1 ↔ cfg.min_level + i + 1 < n := by
  unfold Config.instrumented at hwin ⊢
  split at hwin
  · omega
  · rw [if_neg (by omega)]
    omega

/-- **Taking an argument.**  The times come from the caller's table, so the callee must be in
the window, or the argument a constant. -/
theorem Refines.deqArg (ho : Ordered p m) (h : Refines cfg limit p m s)
    (hacts : p.acts = a :: caller :: rest) (hphase : a.phase = .arguments) {dest src : ℕ}
    {args : List ℕ} (hargs : p.args = src :: args) (hdest : dest < a.rows)
    (hsrc : src ≠ DUMMY_ARG → src < caller.rows)
    (hkeep : s.curr_level ≤ cfg.max_level ∨
      s.function_arg_queue s.arg_queue_read_index = DUMMY_ARG) :
    ∃ s', handleDequeueArgument dest s = some s' ∧
      Refines cfg limit { p with args := args } (m.apply p (.deqArg dest)) s' := by
  have hdepth := Refines.depth_ne_zero ho hacts
  have hne : a.phase ≠ .entered := by rw [hphase]; exact Phase.noConfusion
  obtain ⟨reg, creg, regs, f, cf, fs, t, ct, hregs, hstack, ht, hct, htable, hctable, hlinked,
    hcframe, hrest⟩ := h.calling ho hacts hne
  -- the callee has just been entered: its level is the innermost one
  obtain ⟨oreg, oregs, horegs, hframe, -⟩ := ho.current hacts
  obtain ⟨htop, -⟩ := hframe.fresh (by rw [hphase]; exact Phase.noConfusion)
  obtain ⟨hpop, hfront, hskip⟩ := h.popFront hargs
  have happly : m.apply p (.deqArg dest) = if src = DUMMY_ARG then m
      else m.setReg dest fun l => if l + 1 < p.depth then creg src l else reg dest l := by
    simp only [Analysis.apply, hargs, hregs]
  have hn : s.curr_num_instrumented_levels = cfg.instrumented p.depth := h.num_eq hdepth
  unfold handleDequeueArgument
  rw [if_pos h.levels.on, hpop, Option.bind_eq_bind, Option.bind_some]
  dsimp only
  by_cases hdummy : src = DUMMY_ARG
  · rw [if_neg (fun hand => hand.1 hdummy), happly, if_pos hdummy]
    exact ⟨_, rfl, hskip⟩
  · rw [happly, if_neg hdummy]
    have hsrc' := hsrc hdummy
    -- the callee is still in the window
    have hmax : p.depth - 1 ≤ cfg.max_level := by
      rcases hkeep with hle | hd
      · have hlevel := h.levels.atLevel
        rw [show prevLevel p.depth = p.depth - 1 from if_neg hdepth] at hlevel
        omega
      · exact absurd (hfront.symm.trans hd) hdummy
    have hdepth' : ({ p with args := args } : Program).depth = p.depth := rfl
    have hfinish := fun t' => hskip.rewriteReg t' dest
      (fun l => if l + 1 < p.depth then creg src l else reg dest l) hacts hne hregs hstack htable
      hlinked (tablesOk_cons.mpr ⟨creg, regs, cf, fs, rfl, rfl, hcframe, hrest⟩)
    by_cases hzero : s.curr_num_instrumented_levels > 0
    · rw [if_pos ⟨hdummy, hzero⟩]
      have hdeep := hctable.deep
      have hdeep' := htable.deep
      have hcount : ∀ i, i < s.curr_num_instrumented_levels - 1 ↔
          cfg.min_level + i + 1 < p.depth := by
        rw [hn] at hzero ⊢
        exact Config.lt_instrumented_pred hzero hmax
      obtain ⟨t', ht', hrow, hcol, hentry⟩ := ct.copyToDest_spec t dest src
        (s.curr_num_instrumented_levels - 1)
        (by rw [htable.row]; exact hdest) (by rw [hctable.row]; exact hsrc')
        (by
          by_contra hlt
          have := (hcount t.col).mp (by omega)
          omega)
        (by
          by_contra hlt
          have := (hcount ct.col).mp (by omega)
          omega)
      refine ⟨_, ?_, hfinish t' hrow hcol (fun i hmax hlt => ?_) fun r hr i hi => ?_⟩
      · simp only [getCallingFunction, getCurrentFunction, setCurrentFunction, hstack, hct, ht, ht',
          List.head?_cons, Option.bind_eq_bind, Option.bind_some]
      · rw [hentry dest i (by omega)]
        by_cases hi : cfg.min_level + i + 1 < p.depth
        · rw [if_pos ⟨rfl, (hcount i).mpr hi⟩, if_pos hi]
          exact hctable.entry src hsrc' i hmax (by omega)
        · rw [if_neg (fun hand => hi ((hcount i).mp hand.2)), if_neg hi]
          exact htable.entry dest hdest i hmax hlt
      · rw [hentry r i hi, if_neg (fun hand => hr hand.1)]
    · rw [if_neg (fun hand => hzero hand.2)]
      -- above the window there is nothing to copy
      have habove : p.depth - 1 < cfg.min_level := by
        rw [hn] at hzero
        unfold Config.instrumented at hzero
        split at hzero <;> omega
      have hself := hfinish t rfl rfl (fun i _ hlt => absurd hlt (by omega)) fun _ _ _ _ => rfl
      rw [table_self ht, ← hstack] at hself
      exact ⟨_, rfl, hself⟩

/-! ## §2. Register tables and return values. -/

/-- A function sets up its table, which is as wide as the regions it may open. -/
theorem Refines.prepRTable (ho : Ordered p m) (h : Refines cfg limit p m s)
    (hacts : p.acts = a :: rest) (hphase : a.phase = .entered) (rows nested : ℕ) :
    ∃ s', handlePrepRTable rows nested s = some s' ∧
      Refines cfg limit
        (p.setCurrent { a with phase := .arguments, rows := rows, nested := nested }) m s' := by
  have htables := h.tables
  rw [hacts] at htables
  obtain ⟨reg, regs, f, fs, hregs, hstack, hframe, hrest⟩ := tablesOk_cons.mp htables
  obtain ⟨reg', regs', hregs', hoframe, -⟩ := ho.current hacts
  rw [hregs] at hregs'
  cases hregs'
  have htop := (hoframe.fresh (by rw [hphase]; exact Phase.noConfusion)).1
  -- the function has opened no other region yet
  have hlevel : s.curr_level = a.level := by
    rw [h.levels.atLevel, ← htop, prevLevel_succ]
  have hset : ∀ g, s.setCurrentFunction g = { s with callstack := g :: fs } := by
    intro g
    rw [setCurrentFunction, hstack]
  refine ⟨{ s with
      callstack := { f with table := some (.new rows (s.curr_level + nested + 1)) } :: fs
      shadow_reg_file := some fs.length
      waiting_for_register_table_init := false }, ?_, ?_⟩
  · unfold handlePrepRTable
    rw [if_pos h.levels.on]
    simp only [getCurrentFunction, hstack, List.head?_cons, Option.bind_eq_bind, Option.bind_some,
      hset, List.length_cons, Nat.add_sub_cancel]
  · refine ⟨h.levels, h.regions, ?_, ?_, h.cdep, h.args, h.mem⟩
    · show TablesOk cfg p.depth (p.setCurrent _).acts m.regs _
      rw [Program.setCurrent_acts hacts, hregs]
      refine tablesOk_cons.mpr ⟨reg, regs, _, fs, rfl, rfl, ⟨fun r hr => ?_, Phase.noConfusion,
        fun _ => ⟨_, rfl, rfl, by rw [hlevel]; rfl, ?_, fun r _ i _ _ => ?_⟩⟩, hrest⟩
      · -- it has linked no return either
        have hlinked : a.linked = some r := hr
        rw [(hframe.fresh hphase).1] at hlinked
        cases hlinked
      · show p.depth ≤ s.curr_level + nested + 1
        omega
      · rw [Table.entry_new, (hframe.fresh hphase).2]
    · intro b _ _
      rfl

/-- The caller names the register that will hold the value of the call. -/
theorem Refines.linkReturn (h : Refines cfg limit p m s) (hacts : p.acts = a :: rest)
    (hphase : a.phase ≠ .entered) {dest : ℕ} (hdest : dest < a.rows) :
    ∃ s', handleLinkReturn dest s = some s' ∧
      Refines cfg limit (p.setCurrent { a with phase := .body, linked := some dest }) m s' := by
  obtain ⟨reg, regs, f, fs, t, hregs, hown, htable, -, hrest⟩ := h.current hacts hphase
  refine ⟨{ s with callstack := { f with return_register := dest } :: fs }, ?_, ?_⟩
  · unfold handleLinkReturn
    rw [if_pos h.levels.on]
    simp only [getCurrentFunction, hown.stack, List.head?_cons, Option.bind_eq_bind,
      Option.bind_some, setCurrentFunction]
  · refine ⟨h.levels, h.regions, ?_, ?_, h.cdep, h.args, h.mem⟩
    · show TablesOk cfg p.depth (p.setCurrent _).acts m.regs _
      rw [Program.setCurrent_acts hacts, hregs]
      refine tablesOk_cons.mpr ⟨reg, regs, _, fs, rfl, rfl, ⟨fun r hr => ?_, Phase.noConfusion,
        fun _ => ⟨t, hown.table, htable.row, htable.col, htable.deep, htable.entry⟩⟩, hrest⟩
      have hr' : dest = r := Option.some_inj.mp hr
      rw [← hr']
      exact ⟨rfl, hdest⟩
    · intro b _ _
      exact hown.file

/-- A value `v` reaches the caller's linked register, on both sides. -/
theorem Refines.setCaller (ho : Ordered p m) (h : Refines cfg limit p m s)
    (hacts : p.acts = a :: caller :: rest) (hphase : a.phase ≠ .entered) (r : ℕ) {f cf : FunctionRegion} {fs : List FunctionRegion}
    {ct ct' : Table} (hstack : s.callstack = f :: cf :: fs) (hct : cf.table = some ct)
    (hrow : ct'.row = ct.row) (hcol : ct'.col = ct.col) {v : ℕ → ℕ}
    (hval : ∀ i, cfg.min_level + i ≤ cfg.max_level → cfg.min_level + i < a.level →
      ct'.entry r i = v (cfg.min_level + i))
    (hother : ∀ r' ≠ r, ∀ i < ct.col, ct'.entry r' i = ct.entry r' i) :
    Refines cfg limit (p.inBody a) (m.setCallerReg r v)
      (s.setCallingFunction { cf with table := some ct' }) := by
  obtain ⟨reg, creg, regs, f', cf', fs', t, ct₀, hregs, hstack', ht, hct₀, htable, hctable, hlink,
    hcframe, hrest⟩ := h.calling ho hacts hphase
  rw [hstack] at hstack'
  cases hstack'
  rw [hct] at hct₀
  cases hct₀
  have hbody := h.inBody hacts hphase
  have hcphase : caller.phase ≠ .entered := by
    rw [ho.suspended caller (by rw [hacts]; exact List.mem_cons_self)]
    exact Phase.noConfusion
  -- only the caller's table changes
  have hset : s.setCallingFunction { cf with table := some ct' }
      = { s with callstack := f :: { cf with table := some ct' } :: fs } := by
    rw [setCallingFunction, hstack]
  rw [hset]
  refine ⟨hbody.levels, hbody.regions, ?_, ?_, hbody.cdep, hbody.args, hbody.mem⟩
  · show TablesOk cfg p.depth (p.inBody a).acts (m.setCallerReg r v).regs _
    rw [Program.inBody_acts hacts, Analysis.setCallerReg, hregs]
    refine tablesOk_cons.mpr ⟨reg, _, f, _, rfl, rfl, ⟨hlink, Phase.noConfusion, fun _ => ⟨t, ht,
      htable.row, htable.col, htable.deep, htable.entry⟩⟩, tablesOk_cons.mpr ⟨_, regs, _, fs, rfl,
      rfl, ⟨hcframe.linked, fun he => absurd he hcphase, fun _ => ⟨ct', rfl, ?_⟩⟩, hrest⟩⟩
    exact hctable.setReg hrow hcol hval hother
  · have hfile := hbody.file
    rw [hstack] at hfile
    exact hfile

/-- The caller of the current function, if there is one, has a linked register. -/
theorem Program.CanReturn.cases (hret : p.CanReturn a) (hacts : p.acts = a :: rest) :
    (rest = [] ∧ p.callerRegister = none) ∨
      ∃ caller rest' r, rest = caller :: rest' ∧ caller.linked = some r ∧
        p.callerRegister = some r := by
  cases rest with
  | nil =>
      refine .inl ⟨rfl, ?_⟩
      rw [Program.callerRegister, hacts]
      rfl
  | cons caller rest' =>
      have hsome := hret.2 caller (by rw [hacts]; rfl)
      obtain ⟨r, hr⟩ := Option.isSome_iff_exists.mp hsome
      refine .inr ⟨caller, rest', r, rfl, hr, ?_⟩
      rw [Program.callerRegister, hacts]
      exact hr

/-- `main` has nobody to return to. -/
theorem Refines.noCaller (h : Refines cfg limit p m s) (hacts : p.acts = [a])
    (hphase : a.phase ≠ .entered) : s.getCallingFunction = some none := by
  obtain ⟨reg, regs, f, fs, t, -, hown, -, -, hrest⟩ := h.current hacts hphase
  rw [getCallingFunction, hown.stack, (tablesOk_nil.mp hrest).2]

/-- A value is returned to the caller's register. -/
theorem Refines.ret (ho : Ordered p m) (h : Refines cfg limit p m s)
    (hacts : p.acts = a :: rest) (hphase : a.phase ≠ .entered) {src : ℕ} (hsrc : src < a.rows)
    (hret : p.CanReturn a) (hkeep : s.curr_level ≤ cfg.max_level) :
    ∃ s', handleReturn src s = some s' ∧
      Refines cfg limit (p.inBody a) (m.apply p (.ret src)) s' := by
  have hdepth := Refines.depth_ne_zero ho hacts
  have hlevel := hret.1
  rcases hret.cases hacts with ⟨rfl, hnone⟩ | ⟨caller, rest', r, rfl, hlinked, hsome⟩
  · obtain ⟨reg, regs, f, fs, t, -, hown, -⟩ := h.current hacts hphase
    refine ⟨s, ?_, ?_⟩
    · unfold handleReturn
      rw [if_pos h.levels.on]
      simp only [h.noCaller hacts hphase, getCurrentFunction, hown.stack, List.head?_cons,
        Option.bind_eq_bind, Option.bind_some]
    · simp only [Analysis.apply, hnone]
      exact h.inBody hacts hphase
  · obtain ⟨reg, creg, regs, f, cf, fs, t, ct, hregs, hstack, ht, hct, htable, hctable, hlink,
      hcframe, hrest⟩ := h.calling ho hacts hphase
    have hmreg : m.reg = reg := by rw [Analysis.reg, hregs]; rfl
    have hn := h.num_eq hdepth
    have hmax : p.depth - 1 ≤ cfg.max_level := by
      have hl := h.levels.atLevel
      rw [show prevLevel p.depth = p.depth - 1 from if_neg hdepth] at hl
      omega
    have hcalling : s.getCallingFunction = some (some cf) := by rw [getCallingFunction, hstack]
    simp only [Analysis.apply, hsome]
    unfold handleReturn
    rw [if_pos h.levels.on]
    simp only [hcalling, getCurrentFunction, hstack, List.head?_cons, Option.bind_eq_bind,
      Option.bind_some, ht, hct]
    have hcount : ∀ i, cfg.min_level + i < a.level → i < s.curr_num_instrumented_levels - 1 := by
      intro i hi
      rw [hn, Config.instrumented, if_neg (by omega)]
      omega
    by_cases hpos : s.curr_num_instrumented_levels - 1 > 0
    · rw [if_pos hpos]
      have hdeep := hctable.deep
      have hdeep' := htable.deep
      have hsize : s.curr_num_instrumented_levels - 1 ≤ a.level := by
        rw [hn]
        unfold Config.instrumented
        split <;> omega
      obtain ⟨hr, hrrow⟩ := hcframe.linked r hlinked
      obtain ⟨ct', ht', hrow, hcol, hentry⟩ := t.copyToDest_spec ct
        cf.return_register src (s.curr_num_instrumented_levels - 1)
        (by rw [hctable.row, show cf.return_register = r from hr]; exact hrrow)
        (by rw [htable.row]; exact hsrc) (by omega) (by omega)
      rw [ht', Option.bind_some]
      have hr' : cf.return_register = r := hr
      refine ⟨_, rfl, h.setCaller ho hacts hphase r hstack hct hrow hcol
        (fun i hi hlt => ?_) fun r' hne i hi => ?_⟩
      · rw [hentry r i (by omega), if_pos ⟨hr'.symm, hcount i hlt⟩, cut_of_lt _ (by omega), hmreg]
        exact htable.entry src hsrc i hi (by omega)
      · rw [hentry r' i hi, if_neg (fun hand => hne (hand.1.trans hr'))]
    · rw [if_neg hpos]
      -- no level above the callee is in the window
      have hself := h.setCaller ho hacts hphase r hstack hct rfl rfl
        (v := cut (p.depth - 1) (m.reg src))
        (fun i _ hlt => absurd (hcount i hlt) (by omega)) fun _ _ _ _ => rfl
      have hsame : s.setCallingFunction { cf with table := some ct } = s := by
        rw [table_self hct, setCallingFunction, hstack]
        dsimp only
        rw [← hstack]
      rw [hsame] at hself
      exact ⟨s, rfl, hself⟩

/-- Here the loop runs over the caller's whole table. -/
theorem Refines.retConst (ho : Ordered p m) (h : Refines cfg limit p m s)
    (hacts : p.acts = a :: rest) (hphase : a.phase ≠ .entered) (hret : p.CanReturn a)
    (hroom : ∀ caller ∈ p.acts.tail.head?, ∀ i < caller.level + caller.nested + 1,
      cfg.cdep_col * p.cdeps.length + i < cfg.cdep_row * cfg.cdep_col)
    (hkeep : s.callstack.length = 1 ∨ s.cdt_current_base.isSome) :
    ∃ s', handleReturnConst s = some s' ∧
      Refines cfg limit (p.inBody a) (m.apply p .retConst) s' := by
  have hlevel := hret.1
  rcases hret.cases hacts with ⟨rfl, hnone⟩ | ⟨caller, rest', r, rfl, hlinked, hsome⟩
  · refine ⟨s, ?_, ?_⟩
    · unfold handleReturnConst
      rw [if_pos h.levels.on]
      simp only [h.noCaller hacts hphase, Option.bind_eq_bind, Option.bind_some]
    · simp only [Analysis.apply, hnone]
      exact h.inBody hacts hphase
  · obtain ⟨reg, creg, regs, f, cf, fs, t, ct, hregs, hstack, ht, hct, htable, hctable, hlink,
      hcframe, hrest⟩ := h.calling ho hacts hphase
    have hcalling : s.getCallingFunction = some (some cf) := by rw [getCallingFunction, hstack]
    have hc := h.cdep
    -- the row of the dependences in force is the one at the read pointer
    have hbase : s.cdt_current_base
        = some (s.control_dependence_table.getOffset s.cdt_read_ptr 0) := by
      rcases hkeep with hlen | hbase
      · rw [hstack] at hlen
        simp at hlen
      · rcases hc.atRow with hb | hb
        · rw [hb] at hbase
          cases hbase
        · exact hb
    have hcol := hctable.col
    -- the loop goes over the caller's columns, so the row must have as many
    have hcdep : ∀ i < ct.col, s.getControlDependenceAtIndex i
        = some (s.control_dependence_table.entry s.cdt_read_ptr i) := by
      intro i hi
      have hlt := hroom caller (by rw [hacts]; rfl) i (by omega)
      rw [getControlDependenceAtIndex, hbase]
      show s.control_dependence_table.load (_ * s.cdt_read_ptr + 0 + i) = _
      rw [Nat.add_zero, Table.load, hc.row, hc.col, hc.height, if_pos hlt]
      rw [Table.entry, Table.getOffset, hc.col]
    obtain ⟨hr, hrrow⟩ := hcframe.linked r hlinked
    have hr' : cf.return_register = r := hr
    obtain ⟨ct', ht', hrow, hcol', hentry⟩ := returnConst_loop (s := s) (t := ct)
      cf.return_register (by rw [hctable.row, hr']; exact hrrow) hcdep
    simp only [Analysis.apply, hsome]
    refine ⟨s.setCallingFunction { cf with table := some ct' }, ?_, ?_⟩
    · unfold handleReturnConst
      rw [if_pos h.levels.on]
      simp only [hcalling, hct, ht', Option.bind_eq_bind, Option.bind_some]
    · have hdeep := hctable.deep
      have hwithin := h.levels.within
      refine h.setCaller ho hacts hphase r hstack hct hrow hcol' (fun i hi hlt => ?_)
        fun r' hne i hi => ?_
      · rw [hentry r i (by omega), if_pos hr'.symm, cut_of_lt _ (by omega)]
        exact hc.current i hi (by omega)
      · rw [hentry r' i hi, if_neg (fun heq => hne (heq.trans hr'))]

/-! ## §3. One event. -/

/-- **One event of a well-formed program keeps the refinement**, if it fits the
arrays and does not lose a time at the edge of the window. -/
theorem Refines.step {e : Event} (ho : Ordered p m) (h : Refines cfg limit p m s)
    (hwin : cfg.min_level ≤ cfg.max_level) (hmove : p.Move limit e p') (hroom : Roomy cfg p e)
    (hkeep : KeepsTimes cfg s e) :
    ∃ s', KremlinProfiler.step cfg s e = some s' ∧ Refines cfg limit p' (m.apply p e) s' := by
  cases hmove with
  | work amount => exact ⟨_, rfl, h.work amount⟩
  | enterMain id hlimit hacts =>
      -- no call is open yet, so `main` finds the tables the run started with
      have htables := h.tables
      rw [hacts] at htables
      exact h.enterFunction ho hwin hlimit id hroom htables
  | enterFunction id hlimit hacts hphase =>
      have hbody := (h.inBody hacts hphase).tables
      rw [Program.inBody_acts hacts] at hbody
      exact h.enterFunction ho hwin hlimit id hroom hbody
  | enterLoop id hlimit hacts hphase hty hnested =>
      exact h.enterLoop ho hwin hlimit id hroom hty hacts hphase hnested
  | @exitFunction a rest r rs hacts hphase hregions hty hcdeps hlevel =>
      have hd : p.depth - 1 = rs.length := by
        rw [Program.depth, hregions, List.length_cons, Nat.add_sub_cancel]
      show ∃ s', _ ∧ Refines cfg limit _ (m.leaveFunction (p.depth - 1)) s'
      rw [hd]
      exact h.exitFunction hacts hphase hregions hlevel
  | @exitLoop a rest r rs hacts hphase hregions hty hcdeps hlevel =>
      have hd : p.depth - 1 = rs.length := by
        rw [Program.depth, hregions, List.length_cons, Nat.add_sub_cancel]
      rw [show m.apply p (.exitRegion r.id r.type) = m.leaveLoop (p.depth - 1) from if_neg hty, hd]
      exact h.exitLoop hacts hphase hregions hty
  | instr hacts hphase hregs => exact h.instr ho hwin hacts hphase hregs
  | @store src addr size a rest hacts hphase hsrc =>
      obtain ⟨s', hs', hr⟩ := h.store ho hwin hacts hphase (some src) addr
        fun r hr => by rw [← Option.some_inj.mp hr]; exact hsrc
      exact ⟨s', (if_pos h.levels.on).trans hs', hr⟩
  | @storeConst addr size a rest hacts hphase =>
      obtain ⟨s', hs', hr⟩ := h.store ho hwin hacts hphase none addr
        fun r hr => absurd hr (Option.not_mem_none r)
      exact ⟨s', (if_pos h.levels.on).trans hs', hr⟩
  | pushCDep hacts hphase hcond => exact h.pushCDep ho hwin hacts hphase hcond hroom
  | popCDep hacts hphase hcdeps => exact h.popCDep ho hwin hacts hphase hcdeps
  | @prepCall c r a rest hacts hphase =>
      exact ⟨_, if_pos h.levels.on, h.prepCall hacts hphase c⟩
  | @enqArg arg a rest hacts hphase harg =>
      obtain ⟨s', hs', hr⟩ := h.enqueue hacts hphase hroom arg
      exact ⟨s', (if_pos h.levels.on).trans hs', hr⟩
  | enqArgConst hacts hphase =>
      obtain ⟨s', hs', hr⟩ := h.enqueue hacts hphase hroom DUMMY_ARG
      exact ⟨s', (if_pos h.levels.on).trans hs', hr⟩
  | deqArg hacts hphase hargs hdest hsrc =>
      exact h.deqArg ho hacts hphase hargs hdest hsrc hkeep
  | prepRTable hacts hphase => exact h.prepRTable ho hacts hphase _ _
  | linkReturn hacts hphase hdest => exact h.linkReturn hacts hphase hdest
  | ret hacts hphase hsrc hret => exact h.ret ho hacts hphase hsrc hret hkeep
  | retConst hacts hphase hret => exact h.retConst ho hacts hphase hret hroom hkeep

end Calls

end Kremlin.Runtime
