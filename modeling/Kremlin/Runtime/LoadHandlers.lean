/-
  Kremlin.Runtime.LoadHandlers — what the load calls account for.

  A load depends on its address, on the control dependence and on the registers
  its address was computed from.  `_KLoad0` and `_KLoad1` read all of them.
  `_KLoad2` to `_KLoad4` forward to `_KLoad0` and drop their registers, and the
  variadic `_KLoad` keeps those of its last round of five only; without a
  register it does nothing at all.

  Main result:
    * `load_calls_iff` — for each call, the states in which it accounts for
      every register.
-/
import Kremlin.Runtime.NaryHandlers

namespace Kremlin.Runtime

open Kremlin.Library
open KremlinProfiler

/-! ## §1. The load calls. -/

/-- Any number of registers. -/
def KLoad (src_addr dest_reg mem_access_size : ℕ) (srcs : List ℕ) : Instr :=
  .load src_addr dest_reg mem_access_size srcs

/-- No register. -/
def KLoad0 (src_addr dest_reg mem_access_size : ℕ) : Instr :=
  .load0 src_addr dest_reg mem_access_size

/-- One register. -/
def KLoad1 (src_addr dest_reg src_reg mem_access_size : ℕ) : Instr :=
  .load1 src_addr dest_reg src_reg mem_access_size

-- the calls to `_KLoad` in the next three are commented out in the source

/-- The two registers are dropped, -/
def KLoad2 (src_addr dest_reg _src1_reg _src2_reg mem_access_size : ℕ) : Instr :=
  KLoad0 src_addr dest_reg mem_access_size

/-- and so are three -/
def KLoad3 (src_addr dest_reg _src1_reg _src2_reg _src3_reg mem_access_size : ℕ) : Instr :=
  KLoad0 src_addr dest_reg mem_access_size

/-- and four. -/
def KLoad4 (src_addr dest_reg _src1_reg _src2_reg _src3_reg _src4_reg mem_access_size : ℕ) :
    Instr :=
  KLoad0 src_addr dest_reg mem_access_size

/-- The call of fixed arity for these registers, if there is one. -/
def fixedLoads (src_addr dest_reg mem_access_size : ℕ) : List ℕ → List Instr
  | [] => [KLoad0 src_addr dest_reg mem_access_size]
  | [s1] => [KLoad1 src_addr dest_reg s1 mem_access_size]
  | [s1, s2] => [KLoad2 src_addr dest_reg s1 s2 mem_access_size]
  | [s1, s2, s3] => [KLoad3 src_addr dest_reg s1 s2 s3 mem_access_size]
  | [s1, s2, s3, s4] => [KLoad4 src_addr dest_reg s1 s2 s3 s4 mem_access_size]
  | _ => []

/-- `max(cdep[i], mem[i], T[s1][i], .., T[sn][i]) + LOAD_COST`. -/
def loadTime (cfg : Config) (src_addr : ℕ) (srcs : List ℕ) (s : KremlinProfiler) (index : ℕ) :
    Option ℕ :=
  (latest s ((s.getControlDependenceAtIndex index).map (max · (memTimes cfg s src_addr index)))
    (srcs.map noOffset) index).map (· + LOAD_COST)

/-- At every instrumented level of `s`, the destination has the load time in `s'`
and the critical path reaches it. -/
def LoadDone (cfg : Config) (src_addr dest_reg : ℕ) (srcs : List ℕ) (s s' : KremlinProfiler) :
    Prop :=
  ∀ index < s.curr_num_instrumented_levels, ∃ time region,
    loadTime cfg src_addr srcs s index = some time ∧
      s'.getRegisterTimeAtIndex dest_reg index = some time ∧
      s'.getRegionAtLevel (getLevelForIndex cfg index) = some region ∧ time ≤ region.cp

/-- The call accounts for the registers `srcs` in the state `s`. -/
def Accounts (cfg : Config) (i : Instr) (src_addr dest_reg : ℕ) (srcs : List ℕ)
    (s : KremlinProfiler) : Prop :=
  ∃ s', handleInstr cfg i s = some s' ∧ LoadDone cfg src_addr dest_reg srcs s s'

/-- No register of `srcs` is later than the control dependence, the memory and
the registers that are read. -/
def CoveredBy (cfg : Config) (src_addr : ℕ) (read srcs : List ℕ) (s : KremlinProfiler) : Prop :=
  ∀ index < s.curr_num_instrumented_levels, ∀ src ∈ srcs, ∀ time bound,
    s.getRegisterTimeAtIndex src index = some time →
      loadTime cfg src_addr read s index = some bound → time + LOAD_COST ≤ bound

/-! ## §2. The updates of a load. -/

section Updates

variable {cfg : Config} {s : KremlinProfiler} {f : FunctionRegion} {rest : List FunctionRegion}
  {t : Table} {cdep : ℕ → ℕ} {a d : ℕ}

/-- An update a load makes: it reads the address and other registers than the
destination. -/
structure LoadUpdate (rows a d : ℕ) (u : TimestampUpdate) : Prop where
  control : u.use_ctrl_dependence = true
  path : u.update_cp = true
  memory : u.src_addr = some a
  dest : u.dest_reg = d
  srcs : ∀ src ∈ u.srcs, src.1 < rows ∧ src.1 ≠ d

/-- The time of an update does not depend on the registers it does not read. -/
theorem updateTime_congr {u : TimestampUpdate} {times : ℕ → ℕ} {t t' : Table} {index : ℕ}
    (h : ∀ src ∈ u.srcs, t'.entry src.1 index = t.entry src.1 index) :
    updateTime u cdep times t' index = updateTime u cdep times t index := by
  have hfold : ∀ base, maxOver (fun src : Source =>
        if u.src_addr.isSome then t'.entry src.1 index else t'.entry src.1 index + src.2) base u.srcs
      = maxOver (fun src : Source =>
        if u.src_addr.isSome then t.entry src.1 index else t.entry src.1 index + src.2) base u.srcs :=
    fun base => Nat.le_antisymm
      (maxOver_mono le_rfl fun src hsrc => by rw [h src hsrc])
      (maxOver_mono le_rfl fun src hsrc => by rw [h src hsrc])
  unfold updateTime
  simp only [hfold]

/-- **The last update of a load decides**: the destination has its time, and the
critical paths reach it. -/
theorem loadUpdates_spec {us : List TimestampUpdate} {u : TimestampUpdate}
    (h : OwnTable s f rest t) (hd : d < t.row) (hcol : s.curr_num_instrumented_levels ≤ t.col)
    (hregions : ∀ i < s.curr_num_instrumented_levels, cfg.min_level + i < s.num_regions)
    (hcdep : ∀ i < s.curr_num_instrumented_levels,
      s.getControlDependenceAtIndex i = some (cdep i))
    (hus : ∀ u' ∈ us ++ [u], LoadUpdate t.row a d u') :
    ∃ s', (us ++ [u]).foldlM (fun s u => timestampUpdater cfg u s) s = some s' ∧
      ∀ index < s.curr_num_instrumented_levels,
        s'.getRegisterTimeAtIndex d index = some (updateTime u cdep (memTimes cfg s a) t index) ∧
        ∃ region, s'.getRegionAtLevel (getLevelForIndex cfg index) = some region ∧
          updateTime u cdep (memTimes cfg s a) t index ≤ region.cp := by
  induction us generalizing s f t with
  | nil =>
      -- one update: its sources are other rows than the destination
      have hu := hus u (by rw [List.nil_append]; exact List.mem_singleton_self u)
      obtain ⟨t₁, h₁, hrow, hcol₁, hentry⟩ := h.timestampUpdater cfg u cdep (memTimes cfg s a)
        (fun src hsrc => (hu.srcs src hsrc).1) (by rw [hu.dest]; exact hd) hcol hregions
        (fun _ => hcdep) (fun a' ha' => by
          rw [hu.memory] at ha'
          rw [Option.some.inj ha'])
      rw [hu.path, if_pos rfl] at h₁
      refine ⟨_, by rw [List.nil_append, List.foldlM_cons, h₁]; rfl, fun index hindex => ⟨?_, ?_⟩⟩
      · rw [(h.withTable t₁ _).getTime (by rw [hrow]; exact hd) (by omega), hentry d index (by omega),
          hu.dest, if_pos ⟨rfl, hindex⟩]
      · refine ⟨_, getRegionAtLevel_of_lt (hregions index hindex), ?_⟩
        show _ ≤ (extendedRegions cfg s s.curr_num_instrumented_levels _
          (cfg.min_level + index)).cp
        unfold extendedRegions
        rw [if_pos (by omega), Nat.add_sub_cancel_left]
        exact Nat.le_max_left _ _
  | cons u' us ih =>
      have hu' := hus u' List.mem_cons_self
      have hu := hus u (List.mem_append_right _ (List.mem_singleton_self u))
      obtain ⟨t₁, h₁, hrow, hcol₁, hentry⟩ := h.timestampUpdater cfg u' cdep (memTimes cfg s a)
        (fun src hsrc => (hu'.srcs src hsrc).1) (by rw [hu'.dest]; exact hd) hcol hregions
        (fun _ => hcdep) (fun a' ha' => by
          rw [hu'.memory] at ha'
          rw [Option.some.inj ha'])
      obtain ⟨s', hs', hread⟩ := ih (h.withTable t₁ _) (by rw [hrow]; exact hd)
        (by rw [hcol₁]; exact hcol) hregions hcdep
        (fun v hv => by rw [hrow]; exact hus v (List.mem_cons_of_mem u' hv))
      refine ⟨s', ?_, fun index hindex => ?_⟩
      · rw [List.cons_append, List.foldlM_cons, h₁]
        exact hs'
      · -- the sources of the last update have not been written
        have hsame : updateTime u cdep (memTimes cfg s a) t₁ index
            = updateTime u cdep (memTimes cfg s a) t index := by
          refine updateTime_congr fun src hsrc => ?_
          rw [hentry src.1 index (by omega), hu'.dest]
          exact if_neg fun hd' => (hu.srcs src hsrc).2 hd'.1
        rw [← hsame]
        exact hread index hindex

end Updates

/-! ## §3. What a load accounts for. -/

section Loads

variable {cfg : Config} {rows a d size : ℕ} {s : KremlinProfiler} {i : Instr} {read srcs : List ℕ}

/-- The last update of the instruction reads the registers `read`, the address
and the control dependence. -/
def LastReads (i : Instr) (rows a d : ℕ) (read : List ℕ) : Prop :=
  ∃ us u, updates i = us ++ [u] ∧ (∀ u' ∈ us ++ [u], LoadUpdate rows a d u') ∧
    ∀ src, src ∈ u.srcs ↔ src ∈ read.map noOffset

/-- Registers without offsets. -/
theorem maxOver_noOffset (x : ℕ → ℕ) (b : ℕ) (xs : List ℕ) :
    maxOver (fun src : Source => x src.1 + src.2) b (xs.map noOffset) = maxOver x b xs := by
  unfold maxOver
  rw [List.foldl_map]
  rfl

/-- The load time in terms of the times read. -/
theorem loadTime_eq {x : ℕ → ℕ} {c index : ℕ}
    (hcdep : s.getControlDependenceAtIndex index = some c)
    (hsrcs : ∀ r ∈ srcs, s.getRegisterTimeAtIndex r index = some (x r)) :
    loadTime cfg a srcs s index
      = some (maxOver x (max c (memTimes cfg s a index)) srcs + LOAD_COST) := by
  have hread : ∀ src ∈ srcs.map noOffset,
      s.getRegisterTimeAtIndex src.1 index = some ((fun r (_ : ℕ) => x r) src.1 index) := by
    intro src hsrc
    obtain ⟨r, hr, rfl⟩ := List.mem_map.mp hsrc
    exact hsrcs r hr
  unfold loadTime
  rw [hcdep, Option.map_some, latest_eq (x := fun r _ => x r) hread, maxOver_noOffset x]
  rfl

/-- **A load accounts for its registers exactly when those it reads cover the
others.** -/
theorem LastReads.accounts_iff (h : LastReads i rows a d read) (hs : Ready cfg rows s)
    (hd : d < rows) (hsrcs : ∀ r ∈ srcs, r < rows) (hsub : ∀ r ∈ read, r ∈ srcs) :
    Accounts cfg i a d srcs s ↔ CoveredBy cfg a read srcs s := by
  obtain ⟨us, u, hupdates, hus, hslots⟩ := h
  obtain ⟨f, rest, t, hown, rfl, hcol⟩ := hs.table
  obtain ⟨cdep, hcdep⟩ : ∃ cdep : ℕ → ℕ, ∀ index < s.curr_num_instrumented_levels,
      s.getControlDependenceAtIndex index = some (cdep index) := by
    refine ⟨fun index => (s.getControlDependenceAtIndex index).getD 0, fun index hindex => ?_⟩
    obtain ⟨c, hc⟩ := Option.isSome_iff_exists.mp (hs.control index hindex)
    show _ = some ((s.getControlDependenceAtIndex index).getD 0)
    rw [hc, Option.getD_some]
  obtain ⟨s', hs', hdone⟩ := loadUpdates_spec hown hd hcol hs.regions hcdep hus
  have hstep : handleInstr cfg i s = some s' := by
    rw [handleInstr, if_pos hs.on, hupdates]
    exact hs'
  have hu := hus u (List.mem_append_right _ (List.mem_singleton_self u))
  -- the time written, and the times defined
  have hvalue : ∀ r ∈ srcs, ∀ index < s.curr_num_instrumented_levels,
      s.getRegisterTimeAtIndex r index = some (t.entry r index) :=
    fun r hr index hindex => hown.getTime (hsrcs r hr) (by omega)
  let base := fun index => max (cdep index) (memTimes cfg s a index)
  have hwritten : ∀ index, updateTime u cdep (memTimes cfg s a) t index
      = maxOver (fun r => t.entry r index) (base index) read + LOAD_COST := by
    intro index
    rw [← maxOver_noOffset (fun r => t.entry r index), ← maxOver_congr_mem hslots]
    unfold updateTime
    simp only [hu.control, hu.memory, Option.isSome_some, if_true, base]
    refine congrArg (· + LOAD_COST) (Nat.le_antisymm ?_ ?_)
    · exact maxOver_mono le_rfl fun src _ => Nat.le_add_right _ _
    · refine maxOver_mono le_rfl fun src hsrc => ?_
      obtain ⟨r, -, rfl⟩ := List.mem_map.mp ((hslots src).mp hsrc)
      exact le_rfl
  have hdefined : ∀ index < s.curr_num_instrumented_levels, loadTime cfg a srcs s index
      = some (maxOver (fun r => t.entry r index) (base index) srcs + LOAD_COST) :=
    fun index hindex => loadTime_eq (hcdep index hindex) fun r hr => hvalue r hr index hindex
  have hbound : ∀ index < s.curr_num_instrumented_levels, loadTime cfg a read s index
      = some (maxOver (fun r => t.entry r index) (base index) read + LOAD_COST) :=
    fun index hindex => loadTime_eq (hcdep index hindex)
      fun r hr => hvalue r (hsub r hr) index hindex
  constructor
  · intro haccounts index hindex src hsrc time bound htime hread
    obtain ⟨s'', hs'', hload⟩ := haccounts
    obtain ⟨time', -, htime', hreg, -, -⟩ := hload index hindex
    rw [hstep, Option.some.injEq] at hs''
    rw [hdefined index hindex, Option.some.injEq] at htime'
    rw [← hs'', (hdone index hindex).1, hwritten, ← htime', Option.some.injEq] at hreg
    rw [hvalue src hsrc index hindex, Option.some.injEq] at htime
    rw [hbound index hindex, hreg, Option.some.injEq] at hread
    have hle := le_maxOver_of_mem (f := fun r => t.entry r index) (t := base index) hsrc
    omega
  · intro hcovered
    refine ⟨s', hstep, fun index hindex => ?_⟩
    obtain ⟨hreg, region, hregion, hpath⟩ := hdone index hindex
    have heq : maxOver (fun r => t.entry r index) (base index) srcs
        = maxOver (fun r => t.entry r index) (base index) read := by
      apply Nat.le_antisymm
      · refine maxOver_le_iff.mpr ⟨le_maxOver _ _ _, fun src hsrc => ?_⟩
        exact Nat.add_le_add_iff_right.mp (hcovered index hindex src hsrc _ _
          (hvalue src hsrc index hindex) (hbound index hindex))
      · exact maxOver_le_iff.mpr ⟨le_maxOver _ _ _, fun r hr =>
          le_maxOver_of_mem (f := fun r => t.entry r index) (hsub r hr)⟩
    refine ⟨_, region, hdefined index hindex, ?_, hregion, ?_⟩
    · rw [hreg, hwritten, heq]
    · rw [heq, ← hwritten]
      exact hpath

/-- What is read covers itself. -/
theorem coveredBy_self (hs : Ready cfg rows s) (hsrcs : ∀ r ∈ srcs, r < rows) :
    CoveredBy cfg a srcs srcs s := by
  intro index hindex src hsrc time bound htime hbound
  obtain ⟨f, rest, t, hown, rfl, hcol⟩ := hs.table
  obtain ⟨c, hc⟩ := Option.isSome_iff_exists.mp (hs.control index hindex)
  have hvalue : ∀ r ∈ srcs, s.getRegisterTimeAtIndex r index = some (t.entry r index) :=
    fun r hr => hown.getTime (hsrcs r hr) (by omega)
  rw [loadTime_eq hc hvalue, Option.some.injEq] at hbound
  rw [hvalue src hsrc, Option.some.injEq] at htime
  have hle := le_maxOver_of_mem (f := fun r => t.entry r index)
    (t := max c (memTimes cfg s a index)) hsrc
  omega

/-! ## §4. Each call. -/

/-- A single update reads what it is given. -/
theorem lastReads_single (hup : updates i = [⟨true, true, d, srcs.map noOffset, some a⟩])
    (h : ∀ r ∈ srcs, r < rows ∧ r ≠ d) : LastReads i rows a d srcs := by
  refine ⟨[], _, hup, fun u' hu' => ?_, fun src => Iff.rfl⟩
  rw [List.nil_append, List.mem_singleton] at hu'
  subst hu'
  refine ⟨rfl, rfl, rfl, rfl, fun src hsrc => ?_⟩
  obtain ⟨r, hr, rfl⟩ := List.mem_map.mp hsrc
  exact h r hr

/-- The variadic load reads its last round last. -/
theorem lastReads_KLoad (hne : srcs ≠ []) (h : ∀ r ∈ srcs, r < rows ∧ r ≠ d) :
    LastReads (KLoad a d size srcs) rows a d (lastRound srcs) := by
  have hne' : srcs.map noOffset ≠ [] := by
    rw [ne_eq, List.map_eq_nil_iff]
    exact hne
  obtain ⟨calls, slots, hcalls, hearlier, hslots⟩ := variableArgChunks_last hne'
  rw [lastRound_map] at hslots
  refine ⟨calls.map fun srcs => ⟨true, true, d, srcs, some a⟩, ⟨true, true, d, slots, some a⟩, ?_,
    fun u hu => ?_, hslots⟩
  · show (variableArgChunks none 0 _ (srcs.map noOffset)).map _ = _
    rw [hcalls, List.map_append, List.map_singleton]
  · -- every round reads some of the registers
    have hround : ∀ chunk, (∀ src ∈ chunk, src ∈ srcs.map noOffset) →
        LoadUpdate rows a d ⟨true, true, d, chunk, some a⟩ := by
      intro chunk hchunk
      refine ⟨rfl, rfl, rfl, rfl, fun src hsrc => ?_⟩
      obtain ⟨r, hr, rfl⟩ := List.mem_map.mp (hchunk src hsrc)
      exact h r hr
    rcases List.mem_append.mp hu with hu | hu
    · obtain ⟨chunk, hchunk, rfl⟩ := List.mem_map.mp hu
      exact hround chunk (hearlier chunk hchunk)
    · rw [List.mem_singleton.mp hu]
      refine hround slots fun src hsrc => ?_
      obtain ⟨r, hr, rfl⟩ := List.mem_map.mp ((hslots src).mp hsrc)
      exact List.mem_map_of_mem (lastRound_subset hr)

/-- Without a register the variadic load does nothing. -/
theorem accounts_KLoad_nil (hs : Ready cfg rows s) :
    Accounts cfg (KLoad a d size []) a d [] s ↔ LoadDone cfg a d [] s s := by
  have hstep : handleInstr cfg (KLoad a d size []) s = some s := if_pos hs.on
  constructor
  · intro h
    obtain ⟨s', hs', hdone⟩ := h
    rw [hstep, Option.some.injEq] at hs'
    rw [← hs'] at hdone
    exact hdone
  · exact fun h => ⟨s, hstep, h⟩

/-- The calls of fixed arity read their registers up to arity 1, and none from 2. -/
theorem fixedLoads_accounts_iff (hs : Ready cfg rows s) (hd : d < rows)
    (hsrcs : ∀ r ∈ srcs, r < rows ∧ r ≠ d) (hi : i ∈ fixedLoads a d size srcs) :
    Accounts cfg i a d srcs s ↔ srcs.length ≤ 1 ∨ CoveredBy cfg a [] srcs s := by
  have hregs : ∀ r ∈ srcs, r < rows := fun r hr => (hsrcs r hr).1
  have hall : LastReads i rows a d srcs → Accounts cfg i a d srcs s := fun h =>
    (h.accounts_iff hs hd hregs fun _ hr => hr).mpr (coveredBy_self hs hregs)
  have hnone : i = KLoad0 a d size → (Accounts cfg i a d srcs s ↔ CoveredBy cfg a [] srcs s) := by
    rintro rfl
    have hread : LastReads (KLoad0 a d size) rows a d [] :=
      lastReads_single rfl fun _ h => absurd h List.not_mem_nil
    exact hread.accounts_iff hs hd hregs fun _ h => absurd h List.not_mem_nil
  unfold fixedLoads at hi
  split at hi
  · obtain rfl := List.mem_singleton.mp hi
    exact ⟨fun _ => .inl (Nat.zero_le 1), fun _ => hall (lastReads_single rfl hsrcs)⟩
  · obtain rfl := List.mem_singleton.mp hi
    exact ⟨fun _ => .inl le_rfl, fun _ => hall (lastReads_single rfl hsrcs)⟩
  -- from two registers on the call is `_KLoad0`
  any_goals
    rw [hnone (List.mem_singleton.mp hi)]
    refine ⟨.inr, fun h => h.resolve_left fun hlen => ?_⟩
    simp only [List.length_cons, List.length_nil] at hlen
    omega
  exact absurd hi List.not_mem_nil

end Loads

/-- **When the load calls account for every register.**  Those of fixed arity do up
to one register, and from two on exactly where no register is later than the
control dependence and the memory.  The variadic one does exactly where its last
round covers the earlier ones, and without a register where the destination
and the critical path are already right. -/
theorem load_calls_iff {cfg : Config} {rows a d size : ℕ} {s : KremlinProfiler} {srcs : List ℕ}
    (hs : Ready cfg rows s) (hd : d < rows) (hsrcs : ∀ r ∈ srcs, r < rows ∧ r ≠ d) :
    (∀ i ∈ fixedLoads a d size srcs,
      (Accounts cfg i a d srcs s ↔ srcs.length ≤ 1 ∨ CoveredBy cfg a [] srcs s)) ∧
    (Accounts cfg (KLoad a d size srcs) a d srcs s ↔
      (srcs = [] ∧ LoadDone cfg a d [] s s) ∨
        (srcs ≠ [] ∧ CoveredBy cfg a (lastRound srcs) srcs s)) := by
  refine ⟨fun i hi => fixedLoads_accounts_iff hs hd hsrcs hi, ?_⟩
  by_cases hne : srcs = []
  · subst hne
    rw [accounts_KLoad_nil hs]
    exact ⟨fun h => .inl ⟨rfl, h⟩, fun h => h.elim And.right fun h => absurd rfl h.1⟩
  · rw [(lastReads_KLoad hne hsrcs).accounts_iff hs hd (fun r hr => (hsrcs r hr).1)
      fun r hr => lastRound_subset hr]
    exact ⟨fun h => .inr ⟨hne, h⟩, fun h => h.elim (fun h => absurd h.1 hne) And.right⟩

/-- The calls with two registers. -/
theorem load_calls_iff_probe :
    Accounts { min_level := 0, max_level := 0 } (KLoad 64 7 8 [1, 2]) 64 7 [1, 2] (probe 8 id) ↔
      ([1, 2] = ([] : List ℕ) ∧
        LoadDone { min_level := 0, max_level := 0 } 64 7 [] (probe 8 id) (probe 8 id)) ∨
      ([1, 2] ≠ ([] : List ℕ) ∧ CoveredBy { min_level := 0, max_level := 0 } 64 (lastRound [1, 2])
        [1, 2] (probe 8 id)) :=
  (load_calls_iff (probe_ready 8 id) (by decide) (by decide)).2

/-- A late first register: the load time of register 7 is 9, and `_KLoad2` gives
it 4. -/
theorem not_load_calls :
    (run (step { min_level := 0, max_level := 63 }) (init { min_level := 0, max_level := 63 } 1)
      [.enterRegion 1 .regionFunc, .prepRTable 8 0, .work 9, .instr (.timestamp1 1 (0, 5))]).bind
      (fun s => (handleInstr { min_level := 0, max_level := 63 } (KLoad2 64 7 1 2 8) s).map
        fun s' => (loadTime { min_level := 0, max_level := 63 } 64 [1, 2] s 0,
          s'.getRegisterTimeAtIndex 7 0)) = some (some 9, some 4) ∧
    ¬ ∀ cfg s, Ready cfg 8 s → ∀ srcs : List ℕ, (∀ r ∈ srcs, r < 8 ∧ r ≠ 7) →
      ∀ i ∈ KLoad 64 7 8 srcs :: fixedLoads 64 7 8 srcs, Accounts cfg i 64 7 srcs s := by
  refine ⟨by decide +kernel, fun hclaim => ?_⟩
  have hload := hclaim _ _ (probe_ready 8 id) [1, 2] (by decide) (KLoad2 64 7 1 2 8)
    (List.mem_cons_of_mem _ (List.mem_singleton_self _))
  have hcovered := ((fixedLoads_accounts_iff (probe_ready 8 id) (by decide) (by decide)
    (List.mem_singleton_self _)).mp hload).resolve_left (by decide)
  have hlate := hcovered 0 Nat.one_pos 1 (by decide) 1 4 rfl rfl
  exact absurd hlate (by decide)

end Kremlin.Runtime
