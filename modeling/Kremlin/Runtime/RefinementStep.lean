/-
  Kremlin.Runtime.RefinementStep — every event keeps the refinement.

  One lemma for each kind of event: the handler succeeds and the relation holds
  of the states it and the analysis leave.  `Roomy` is what an event needs of
  the profiler's fixed-size arrays, `KeepsTimes` what it needs for no time to be
  lost.
-/
import Kremlin.Runtime.OrderedTimes
import Kremlin.Runtime.Refinement
import Kremlin.Runtime.RegionMoves

namespace Kremlin.Runtime

open Kremlin.Library
open KremlinProfiler

/-! ## §1. What an event needs. -/

/-- The event fits the fixed-size arrays. -/
def Roomy (cfg : Config) (p : Program) : Event → Prop
  | .enterRegion _ _ => p.depth < arraySize ∧
      cfg.cdep_col * p.cdeps.length + p.depth < cfg.cdep_row * cfg.cdep_col
  | .enqArg _ | .enqArgConst => p.enqueued < FUNC_ARG_QUEUE_SIZE
  | .pushCDep _ => p.cdeps.length + 1 < cfg.cdep_row ∧ p.depth ≤ cfg.cdep_col
  | .retConst => ∀ caller ∈ p.acts.tail.head?, ∀ i < caller.level + caller.nested + 1,
      cfg.cdep_col * p.cdeps.length + i < cfg.cdep_row * cfg.cdep_col
  | _ => True

/-- The event does not lose a time: all levels fit a row of the control dependence
table when one is pushed, arguments and return values are registers' only while
the callee is in the window, and a constant is returned once a control dependence
has been set up. -/
def KeepsTimes (cfg : Config) (s : KremlinProfiler) : Event → Prop
  | .pushCDep _ => s.curr_num_instrumented_levels ≤ cfg.cdep_col
  | .deqArg _ => s.curr_level ≤ cfg.max_level ∨
      s.function_arg_queue s.arg_queue_read_index = DUMMY_ARG
  | .ret _ => s.curr_level ≤ cfg.max_level
  | .retConst => s.callstack.length = 1 ∨ s.cdt_current_base.isSome
  | _ => True

instance (cfg : Config) (s : KremlinProfiler) : (e : Event) → Decidable (KeepsTimes cfg s e)
  | .pushCDep _ | .ret _ => inferInstanceAs (Decidable (_ ≤ _))
  | .deqArg _ | .retConst => inferInstanceAs (Decidable (_ ∨ _))
  | .work _ | .enterRegion _ _ | .exitRegion _ _ | .landingPad _ _ | .instr _ | .store _ _ _
  | .storeConst _ _ | .popCDep | .prepCall _ _ | .enqArg _ | .enqArgConst | .prepRTable _ _
  | .linkReturn _ => .isTrue trivial

section Events

variable {cfg : Config} {limit : ℕ} {p p' : Program} {m : Analysis} {s : KremlinProfiler}
  {a : Activation} {rest : List Activation}

/-! ## §2. Phases and charges. -/

/-- Charges are not seen by the profiler. -/
theorem Refines.charge (h : Refines cfg limit p m s) (work cost : ℕ) :
    Refines cfg limit (p.charge work cost) m s := by
  have hd := Program.depth_charge p work cost
  exact ⟨by rw [hd]; exact h.levels, by rw [hd]; exact h.regions, by rw [hd]; exact h.tables,
    h.file, by rw [hd]; exact h.cdep, h.args, by rw [hd]; exact h.mem⟩

/-- The current activation moves to its body. -/
theorem Refines.inBody (h : Refines cfg limit p m s) (hacts : p.acts = a :: rest)
    (hphase : a.phase ≠ .entered) : Refines cfg limit (p.inBody a) m s := by
  have htables := h.tables
  rw [hacts] at htables
  obtain ⟨reg, regs, f, fs, hregs, hstack, hframe, hrest⟩ := tablesOk_cons.mp htables
  obtain ⟨t, ht, htable⟩ := hframe.table hphase
  refine ⟨h.levels, h.regions, ?_, ?_, h.cdep, h.args, h.mem⟩
  · rw [Program.inBody_acts hacts]
    exact tablesOk_cons.mpr ⟨reg, regs, f, fs, hregs, hstack,
      ⟨hframe.linked, Phase.noConfusion, fun _ => ⟨t, ht, htable.row, htable.col, htable.deep, htable.entry⟩⟩, hrest⟩
  · rw [Program.inBody_acts hacts]
    intro b hb _
    exact h.file a (by rw [hacts]; rfl) hphase

/-- A function is open, so a region is. -/
theorem Refines.depth_ne_zero (ho : Ordered p m) (hacts : p.acts = a :: rest) : p.depth ≠ 0 := by
  have := ho.depth_pos hacts
  omega

/-- The clock goes on. -/
theorem Refines.work (h : Refines cfg limit p m s) (amount : ℕ) :
    Refines cfg limit (p.charge amount 0) { m with time := m.time + amount }
      (increaseTime amount s) := by
  have h' := h.charge amount 0
  refine ⟨h'.levels, ⟨?_, fun l hl => ?_, h'.regions.regions⟩, h'.tables, h'.file, h'.cdep,
    h'.args, h'.mem⟩
  · show s.curr_time + amount = m.time + amount
    rw [h.regions.now]
  · show (m.region l).start ≤ m.time + amount
    have := h'.regions.started l hl
    omega

/-! ## §3. Timestamps and stores. -/

/-- The regions the loops touch exist. -/
theorem Refines.regions_room (h : Refines cfg limit p m s) (hwin : cfg.min_level ≤ cfg.max_level)
    (hdepth : p.depth ≠ 0) :
    ∀ i < s.curr_num_instrumented_levels, cfg.min_level + i < s.num_regions := by
  intro i hi
  rw [h.num_eq hdepth] at hi
  have hlt := ((Config.lt_instrumented hwin hdepth).mp hi).2
  have hroom := h.levels.room
  omega

/-- The instrumented levels are columns of the current register table. -/
theorem TableOk.columns {top : ℕ} {reg : Registers} {t : Table} (h : TableOk cfg top a reg t)
    (hwin : cfg.min_level ≤ cfg.max_level) (hdepth : top ≠ 0) : cfg.instrumented top ≤ t.col := by
  by_contra hlt
  have hi := (Config.lt_instrumented (i := t.col) hwin hdepth).mp (by omega)
  have := h.deep
  omega

/-- The time an update computes in a column is the analysis's at that level. -/
theorem updateTime_eq {reg : Registers} {regs : List Registers} {t : Table}
    {u : TimestampUpdate} {times : ℕ → ℕ} (hregs : m.regs = reg :: regs)
    (htable : TableOk cfg p.depth a reg t) (hsrcs : ∀ src ∈ u.srcs, src.1 < a.rows) {i : ℕ}
    (hmax : cfg.min_level + i ≤ cfg.max_level) (hlt : cfg.min_level + i < p.depth)
    (htimes : ∀ addr ∈ u.src_addr, times i = m.mem (wordOf addr) (cfg.min_level + i)) :
    updateTime u (fun i => m.cdep (cfg.min_level + i)) times t i
      = m.destTime p.depth u (cfg.min_level + i) := by
  have hreg : m.reg = reg := by rw [Analysis.reg, hregs]; rfl
  have hsrc : ∀ b, maxOver (fun src : Source =>
        if u.src_addr.isSome then t.entry src.1 i else t.entry src.1 i + src.2) b u.srcs
      = maxOver (m.sourceTime u (cfg.min_level + i)) b u.srcs := by
    intro b
    have hval : ∀ src ∈ u.srcs,
        (if u.src_addr.isSome then t.entry src.1 i else t.entry src.1 i + src.2)
          = m.sourceTime u (cfg.min_level + i) src := by
      intro src hmem
      rw [Analysis.sourceTime, hreg, htable.entry src.1 (hsrcs src hmem) i hmax hlt]
    exact Nat.le_antisymm (maxOver_mono le_rfl fun src hmem => (hval src hmem).le)
      (maxOver_mono le_rfl fun src hmem => (hval src hmem).ge)
  rw [Analysis.destTime, cut_of_lt _ hlt]
  simp only [updateTime, hsrc]
  unfold Analysis.baseTime Analysis.ctrlTime
  cases haddr : u.src_addr with
  | none => rfl
  | some addr =>
      rw [htimes addr haddr]
      rfl

/-- **One timestamp update.** -/
theorem Refines.update (ho : Ordered p m) (h : Refines cfg limit p m s) (hwin : cfg.min_level ≤ cfg.max_level)
    (hacts : p.acts = a :: rest) (hphase : a.phase ≠ .entered) {u : TimestampUpdate}
    (hu : TimestampUpdate.InRange u a.rows) :
    ∃ s', timestampUpdater cfg u s = some s' ∧
      Refines cfg limit p (m.update p.depth u) s' := by
  have hdepth := Refines.depth_ne_zero ho hacts
  obtain ⟨reg, regs, f, fs, t, hregs, hown, htable, hlinked, hrest⟩ := h.current hacts hphase
  have hn := h.num_eq hdepth
  have hreg : m.reg = reg := by rw [Analysis.reg, hregs]; rfl
  -- the times of the word read, if one is
  let times : ℕ → ℕ := (u.src_addr.map (memTimes cfg s)).getD fun _ => 0
  obtain ⟨t', hstep, hrow, hcol, hentry⟩ := hown.timestampUpdater cfg u
    (fun i => m.cdep (cfg.min_level + i)) times
    (fun src hsrc => by rw [htable.row]; exact hu.2 src hsrc)
    (by rw [htable.row]; exact hu.1)
    (by rw [hn]; exact htable.columns hwin hdepth)
    (h.regions_room hwin hdepth)
    (fun _ i hi => h.getCdep hwin hdepth (by rwa [hn] at hi))
    (fun addr haddr => by
      have hsome : u.src_addr = some addr := haddr
      simp only [times, hsome, Option.map_some, Option.getD_some])
  -- column by column the new time is the analysis's
  have hval : ∀ i, cfg.min_level + i ≤ cfg.max_level → cfg.min_level + i < p.depth →
      updateTime u (fun i => m.cdep (cfg.min_level + i)) times t i
        = m.destTime p.depth u (cfg.min_level + i) := by
    intro i hmax hlt
    refine updateTime_eq hregs htable hu.2 hmax hlt fun addr haddr => ?_
    have hsome : u.src_addr = some addr := haddr
    simp only [times, hsome, Option.map_some, Option.getD_some]
    exact h.mem.view (wordOf addr) i hmax hlt
  refine ⟨_, hstep, ?_⟩
  -- so the table agrees after the write
  have htable' : TableOk cfg p.depth a
      (fun r => if r = u.dest_reg then m.destTime p.depth u else m.reg r) t' := by
    refine ⟨hrow.trans htable.row, hcol.trans htable.col, hcol ▸ htable.deep,
      fun r hr i hmax hlt => ?_⟩
    have hi : i < cfg.instrumented p.depth := (Config.lt_instrumented hwin hdepth).mpr ⟨hmax, hlt⟩
    have hic : i < t.col := by
      have := htable.columns hwin hdepth
      omega
    rw [hentry r i hic, hn]
    by_cases hd : r = u.dest_reg
    · rw [if_pos ⟨hd, hi⟩, hval i hmax hlt, if_pos hd]
    · rw [if_neg (fun h' => hd h'.1), if_neg hd, hreg]
      exact htable.entry r hr i hmax hlt
  have htail : m.regs.tail = regs := by rw [hregs, List.tail_cons]
  unfold Analysis.update
  by_cases hcp : u.update_cp
  · simp only [hcp, if_true, hn]
    have hext := h.regions.extend hwin hdepth (w := updateTime u
        (fun i => m.cdep (cfg.min_level + i)) times t) (v := m.destTime p.depth u) fun i hi => by
      obtain ⟨hmax, hlt⟩ := (Config.lt_instrumented hwin hdepth).mp hi
      exact hval i hmax hlt
    have hres := h.withTable hacts hphase hown.stack hlinked htable' hrest hext
    rw [← htail] at hres
    exact hres
  · simp only [hcp, Bool.false_eq_true, if_false]
    have hres := h.withTable hacts hphase hown.stack hlinked htable' hrest h.regions
    rw [← htail] at hres
    exact hres

/-- The invariant of the analysis through the updates of one instruction. -/
theorem Ordered.update (ho : Ordered p m) (hacts : p.acts = a :: rest) (hbody : a.phase = .body)
    (u : TimestampUpdate) : Ordered p (m.update p.depth u) := by
  obtain ⟨reg, regs, hregs, hframe, hrest⟩ := ho.current hacts
  have hnow := (ho.now hacts).update u
  obtain ⟨region, hm⟩ := m.update_eq p.depth u
  rw [hm] at hnow ⊢
  refine ⟨ho.suspended, ?_, ho.cdep, ho.outer, ho.mem⟩
  rw [hacts]
  show LevelFrames _ _ p.depth (a :: rest) (_ :: m.regs.tail)
  rw [hregs, List.tail_cons]
  exact body_frames rfl hbody hframe.level hnow.reg hrest

/-- All updates of an instruction. -/
theorem Refines.foldUpdates (ho : Ordered p m) (h : Refines cfg limit p m s)
    (hwin : cfg.min_level ≤ cfg.max_level) (hacts : p.acts = a :: rest) (hbody : a.phase = .body)
    {us : List TimestampUpdate} (hus : ∀ u ∈ us, TimestampUpdate.InRange u a.rows) :
    ∃ s', us.foldlM (fun s u => timestampUpdater cfg u s) s = some s' ∧
      Refines cfg limit p (us.foldl (Analysis.update p.depth) m) s' := by
  have hphase : a.phase ≠ .entered := by rw [hbody]; exact Phase.noConfusion
  induction us generalizing m s with
  | nil => exact ⟨s, rfl, h⟩
  | cons u us ih =>
      obtain ⟨s₁, h₁, hr₁⟩ := h.update ho hwin hacts hphase (hus u List.mem_cons_self)
      obtain ⟨s', h', hr'⟩ := ih (ho.update hacts hbody u) hr₁
        fun u' hu' => hus u' (List.mem_cons_of_mem u hu')
      refine ⟨s', ?_, hr'⟩
      rw [List.foldlM_cons, h₁]
      exact h'

/-- An instruction is a fold over its updates. -/
theorem Refines.instr (ho : Ordered p m) (h : Refines cfg limit p m s) (hwin : cfg.min_level ≤ cfg.max_level)
    (hacts : p.acts = a :: rest) (hphase : a.phase ≠ .entered) {i : Instr}
    (hi : ∀ u ∈ updates i, TimestampUpdate.InRange u a.rows) :
    ∃ s', handleInstr cfg i s = some s' ∧
      Refines cfg limit ((p.inBody a).charge 0 i.cost)
        ((updates i).foldl (Analysis.update p.depth) m) s' := by
  obtain ⟨s', h', hr⟩ := (h.inBody hacts hphase).foldUpdates (ho.inBody hacts) hwin
    (Program.inBody_acts hacts) rfl hi
  exact ⟨s', (if_pos h.levels.on).trans h', hr.charge 0 i.cost⟩

/-- **A store.** -/
theorem Refines.store (ho : Ordered p m) (h : Refines cfg limit p m s) (hwin : cfg.min_level ≤ cfg.max_level)
    (hacts : p.acts = a :: rest) (hphase : a.phase ≠ .entered) (src : Option ℕ) (addr : ℕ)
    (hsrc : ∀ r ∈ src, r < a.rows) :
    ∃ s', timestampUpdaterStore cfg src addr s = some s' ∧
      Refines cfg limit ((p.inBody a).charge 0 STORE_COST) (m.store p.depth src addr) s' := by
  have hdepth := Refines.depth_ne_zero ho hacts
  obtain ⟨reg, regs, f, fs, t, hregs, hown, htable, hlinked, hrest⟩ := h.current hacts hphase
  have hn := h.num_eq hdepth
  have hreg : m.reg = reg := by rw [Analysis.reg, hregs]; rfl
  obtain ⟨times, hstep, htimes⟩ := hown.timestampUpdaterStore cfg src addr
    (fun i => m.cdep (cfg.min_level + i))
    (fun r hr => by rw [htable.row]; exact hsrc r hr)
    (by rw [hn]; exact htable.columns hwin hdepth)
    (h.regions_room hwin hdepth)
    (fun i hi => h.getCdep hwin hdepth (by rwa [hn] at hi))
  -- the stored times are the analysis's
  have hval : ∀ i < cfg.instrumented p.depth,
      storedTime src (fun i => m.cdep (cfg.min_level + i)) t i
        = m.storeTime p.depth src (cfg.min_level + i) := by
    intro i hi
    obtain ⟨hmax, hlt⟩ := (Config.lt_instrumented hwin hdepth).mp hi
    rw [Analysis.storeTime, cut_of_lt _ hlt]
    cases src with
    | none => rfl
    | some r =>
        show max _ (t.entry r i) + STORE_COST = max _ (m.reg r _) + STORE_COST
        rw [hreg, htable.entry r (hsrc r rfl) i hmax hlt]
  refine ⟨_, hstep, ?_⟩
  have hbody := (h.inBody hacts hphase).charge 0 STORE_COST
  have hd : ((p.inBody a).charge 0 STORE_COST).depth = p.depth := Program.depth_charge _ _ _
  refine ⟨hbody.levels, ?_, hbody.tables, hbody.file, hbody.cdep, hbody.args, ?_, ?_, ?_⟩
  · rw [hd, hn]
    exact h.regions.extend hwin hdepth hval
  · -- the word written, and the others
    intro w i hmax hlt
    rw [hd] at hlt
    have hi := (Config.lt_instrumented hwin hdepth).mpr ⟨hmax, hlt⟩
    show (s.shadow_mem.store (versions cfg s) (wordOf addr) s.curr_num_instrumented_levels
      times).view (versions cfg s) w i
      = (if w = wordOf addr then m.storeTime p.depth src else m.mem w) (cfg.min_level + i)
    rw [VersionedMap.view_store, hn]
    by_cases hw : w = wordOf addr
    · rw [if_pos ⟨hw, hi⟩, if_pos hw, htimes i (by rw [hn]; exact hi), hval i hi]
    · rw [if_neg (fun h' => hw h'.1), if_neg hw]
      exact h.mem.view w i hmax hlt
  · refine h.mem.below.store (fun i hi => ?_) _ _
    rw [hn] at hi
    exact h.mem.issued _ ((Config.lt_instrumented hwin hdepth).mp hi).2
  · intro l hl
    rw [hd] at hl
    exact h.mem.issued l hl

end Events

end Kremlin.Runtime
