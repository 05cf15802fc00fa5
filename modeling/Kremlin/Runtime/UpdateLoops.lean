/-
  Kremlin.Runtime.UpdateLoops — the loops of the handlers over level indices.

  Every such loop reads and writes its own column only, so a loop over `n`
  columns leaves what it would compute from the state it started in.  One
  specification for each loop; the callers use these and never unfold a loop.
-/
import Kremlin.Library.LevelTimes
import Kremlin.Runtime.LevelStack

namespace Kremlin.Runtime

open Kremlin.Library

namespace KremlinProfiler

variable {cfg : Config} {s : KremlinProfiler} {f : FunctionRegion} {rest : List FunctionRegion}
  {t : Table}

/-! ## §1. The register table of the current function. -/

/-- The shadow register file is the table of the function on top. -/
structure OwnTable (s : KremlinProfiler) (f : FunctionRegion) (rest : List FunctionRegion)
    (t : Table) : Prop where
  stack : s.callstack = f :: rest
  file : s.shadow_reg_file = some rest.length
  table : f.table = some t

/-- The state with another table and other regions. -/
def withTable (s : KremlinProfiler) (f : FunctionRegion) (rest : List FunctionRegion)
    (t : Table) (regions : ℕ → ProgramRegion) : KremlinProfiler :=
  { s with
    callstack := { f with table := some t } :: rest
    program_regions := regions }

theorem OwnTable.withTable (h : OwnTable s f rest t) (t' : Table) (regions : ℕ → ProgramRegion) :
    OwnTable (s.withTable f rest t' regions) { f with table := some t' } rest t' :=
  ⟨rfl, h.file, rfl⟩

/-- An activation keeps its own table. -/
theorem table_self (h : f.table = some t) : ({ f with table := some t } : FunctionRegion) = f := by
  obtain ⟨r, c, tbl⟩ := f
  rw [show tbl = some t from h]

theorem OwnTable.withTable_self (h : OwnTable s f rest t) :
    s.withTable f rest t s.program_regions = s := by
  rw [KremlinProfiler.withTable, table_self h.table, ← h.stack]

theorem OwnTable.getRegisterFileTable (h : OwnTable s f rest t) :
    s.getRegisterFileTable = some t := by
  simp [KremlinProfiler.getRegisterFileTable, h.file, h.stack, h.table]

theorem modify_append_last {α : Type} (xs : List α) (x : α) (g : α → α) :
    (xs ++ [x]).modify xs.length g = xs ++ [g x] := by
  induction xs with
  | nil => rfl
  | cons y ys ih => simp [ih]

theorem OwnTable.writeRegisterFileTable (h : OwnTable s f rest t) (t' : Table) :
    s.writeRegisterFileTable t' = some (s.withTable f rest t' s.program_regions) := by
  have hmod : ((f :: rest).reverse.modify rest.length fun f => { f with table := some t' }).reverse
      = { f with table := some t' } :: rest := by
    have h' := modify_append_last rest.reverse f (fun f => { f with table := some t' })
    rw [List.length_reverse] at h'
    rw [List.reverse_cons, h']
    simp
  refine Option.bind_eq_some_iff.mpr ⟨rest.length, h.file, ?_⟩
  rw [h.stack, hmod]
  rfl

/-- A register's time is an entry of the table. -/
theorem OwnTable.getTime (h : OwnTable s f rest t) {r i : ℕ} (hr : r < t.row) (hi : i < t.col) :
    s.getRegisterTimeAtIndex r i = some (t.entry r i) := by
  rw [getRegisterTimeAtIndex, h.getRegisterFileTable]
  exact t.getValue_eq hr hi

/-- Setting one time. -/
theorem OwnTable.setTime (h : OwnTable s f rest t) (time : ℕ) {r i : ℕ} (hr : r < t.row)
    (hi : i < t.col) :
    ∃ t', s.setRegisterTimeAtIndex time r i = some (s.withTable f rest t' s.program_regions) ∧
      t'.row = t.row ∧ t'.col = t.col ∧ ∀ r' i', i' < t.col →
        t'.entry r' i' = if r' = r ∧ i' = i then time else t.entry r' i' := by
  obtain ⟨t', ht', hrow, hcol, hentry⟩ := t.setValue_spec time hr hi
  refine ⟨t', ?_, hrow, hcol, hentry⟩
  rw [setRegisterTimeAtIndex, h.getRegisterFileTable]
  show ((t.setValue time r i).bind fun t' => s.writeRegisterFileTable t') = _
  rw [ht']
  exact h.writeRegisterFileTable t'

/-! ## §2. Cleaning a level. -/

theorem OwnTable.zeroRegisters (h : OwnTable s f rest t) {index : ℕ} (hi : index < t.col) :
    ∃ t', s.zeroRegistersAtIndex index = some (s.withTable f rest t' s.program_regions) ∧
      t'.row = t.row ∧ t'.col = t.col ∧ ∀ r i, r < t.row → i < t.col →
        t'.entry r i = if i = index then 0 else t.entry r i := by
  -- after `k` turns the first `k` rows are clean
  have hloop : ∀ k, k ≤ t.row → ∃ t',
      (List.range k).foldlM (fun s i => s.setRegisterTimeAtIndex 0 i index) s
        = some (s.withTable f rest t' s.program_regions) ∧
      t'.row = t.row ∧ t'.col = t.col ∧ ∀ r i, i < t.col →
        t'.entry r i = if r < k ∧ i = index then 0 else t.entry r i := by
    intro k
    induction k with
    | zero =>
        intro _
        refine ⟨t, by rw [h.withTable_self]; rfl, rfl, rfl, fun r i _ => ?_⟩
        rw [if_neg (by omega)]
    | succ k ih =>
        intro hk
        obtain ⟨t₁, h₁, hrow₁, hcol₁, hentry₁⟩ := ih (by omega)
        obtain ⟨t₂, h₂, hrow₂, hcol₂, hentry₂⟩ :=
          (h.withTable t₁ s.program_regions).setTime 0 (show k < t₁.row by omega)
            (show index < t₁.col by omega)
        refine ⟨t₂, ?_, hrow₂.trans hrow₁, hcol₂.trans hcol₁, fun r i hic => ?_⟩
        · rw [List.range_succ, List.foldlM_append, h₁]
          rw [Option.bind_eq_bind, Option.bind_some, List.foldlM_cons, h₂]
          rfl
        · rw [hentry₂ r i (by omega), hentry₁ r i hic]
          by_cases hrk : r = k ∧ i = index
          · rw [if_pos hrk, if_pos (by omega)]
          · rw [if_neg hrk]
            by_cases hlt : r < k ∧ i = index
            · rw [if_pos hlt, if_pos (by omega)]
            · rw [if_neg hlt, if_neg (by omega)]
  obtain ⟨t', h', hrow, hcol, hentry⟩ := hloop t.row le_rfl
  refine ⟨t', ?_, hrow, hcol, fun r i hr hic => ?_⟩
  · rw [zeroRegistersAtIndex, h.getRegisterFileTable]
    exact h'
  · rw [hentry r i hic]
    simp only [hr, true_and]

/-! ## §3. Timestamp updates. -/

/-- The regions after the first `k` indices have extended their paths. -/
def extendedRegions (cfg : Config) (s : KremlinProfiler) (k : ℕ) (v : ℕ → ℕ) :
    ℕ → ProgramRegion := fun l =>
  if cfg.min_level ≤ l ∧ l < cfg.min_level + k then
    (s.program_regions l).updateCriticalPathLength (v (l - cfg.min_level))
  else s.program_regions l

/-- Before the first level nothing changed. -/
theorem extendedRegions_zero (cfg : Config) (s : KremlinProfiler) (v : ℕ → ℕ) :
    extendedRegions cfg s 0 v = s.program_regions := by
  funext l
  exact if_neg (by omega)

/-- One more index. -/
theorem extendedRegions_succ (cfg : Config) (s : KremlinProfiler) (k : ℕ) (v : ℕ → ℕ) :
    (fun l => if l = getLevelForIndex cfg k then
        (extendedRegions cfg s k v (getLevelForIndex cfg k)).updateCriticalPathLength (v k)
      else extendedRegions cfg s k v l) = extendedRegions cfg s (k + 1) v := by
  funext l
  unfold extendedRegions getLevelForIndex
  by_cases hl : l = cfg.min_level + k
  · subst hl
    rw [if_pos rfl, if_neg (by omega), if_pos (by omega), Nat.add_sub_cancel_left]
  · rw [if_neg hl]
    by_cases hin : cfg.min_level ≤ l ∧ l < cfg.min_level + k
    · rw [if_pos hin, if_pos (by omega)]
    · rw [if_neg hin, if_neg (by omega)]

/-- The time an update gives to one index. -/
def updateTime (u : TimestampUpdate) (cdep times : ℕ → ℕ) (t : Table) (i : ℕ) : ℕ :=
  let base := if u.use_ctrl_dependence then cdep i else 0
  let base := if u.src_addr.isSome then max base (times i) else base
  let time := maxOver
    (fun src => if u.src_addr.isSome then t.entry src.1 i else t.entry src.1 i + src.2) base u.srcs
  if u.src_addr.isSome then time + LOAD_COST else time

theorem OwnTable.destTime (h : OwnTable s f rest t) (u : TimestampUpdate) (cdep : ℕ → ℕ)
    {times : ℕ → ℕ} {i : ℕ} (hsrcs : ∀ src ∈ u.srcs, src.1 < t.row) (hi : i < t.col)
    (hcdep : u.use_ctrl_dependence = true → s.getControlDependenceAtIndex i = some (cdep i)) :
    KremlinProfiler.destTime u times s i = some (updateTime u cdep times t i) := by
  have hbase : (if u.use_ctrl_dependence then s.getControlDependenceAtIndex i else some 0)
      = some (if u.use_ctrl_dependence then cdep i else 0) := by
    split
    · next hu => exact hcdep hu
    · rfl
  unfold KremlinProfiler.destTime
  rw [hbase]
  have hread : ∀ src ∈ u.srcs, (s.getRegisterTimeAtIndex src.1 i).map
      (fun dep_time => if u.src_addr.isSome then dep_time else dep_time + src.2)
      = some (if u.src_addr.isSome then t.entry src.1 i else t.entry src.1 i + src.2) := by
    intro src hsrc
    rw [h.getTime (hsrcs src hsrc) hi]
    rfl
  have hcalc : ∀ base, u.srcs.foldlM (fun t src => calcMaxTime u.src_addr.isSome s t src i) base
      = some (maxOver (fun src =>
          if u.src_addr.isSome then t.entry src.1 i else t.entry src.1 i + src.2) base u.srcs) := by
    intro base
    rw [← foldlM_max_eq hread]
    congr 1
    funext time src
    unfold calcMaxTime
    cases s.getRegisterTimeAtIndex src.1 i <;> rfl
  simp only [Option.bind_eq_bind, Option.bind_some, hcalc]
  rfl

/-- **What one `timestampUpdater` does**: the destination gets `updateTime` at
every instrumented index, and the regions extend their paths if asked to. -/
theorem OwnTable.timestampUpdater (h : OwnTable s f rest t) (cfg : Config) (u : TimestampUpdate)
    (cdep times : ℕ → ℕ) (hsrcs : ∀ src ∈ u.srcs, src.1 < t.row) (hdest : u.dest_reg < t.row)
    (hcol : s.curr_num_instrumented_levels ≤ t.col)
    (hregions : ∀ i < s.curr_num_instrumented_levels, cfg.min_level + i < s.num_regions)
    (hcdep : u.use_ctrl_dependence = true → ∀ i < s.curr_num_instrumented_levels,
      s.getControlDependenceAtIndex i = some (cdep i))
    (htimes : ∀ a ∈ u.src_addr, times = memTimes cfg s a) :
    ∃ t', KremlinProfiler.timestampUpdater cfg u s = some (s.withTable f rest t'
        (if u.update_cp then extendedRegions cfg s s.curr_num_instrumented_levels
          (updateTime u cdep times t) else s.program_regions)) ∧
      t'.row = t.row ∧ t'.col = t.col ∧ ∀ r i, i < t.col →
        t'.entry r i = if r = u.dest_reg ∧ i < s.curr_num_instrumented_levels then
          updateTime u cdep times t i else t.entry r i := by
  have hrange : ∀ times' : ℕ → ℕ, (u.src_addr.isSome = true → times' = times) → ∀ k,
      k ≤ s.curr_num_instrumented_levels → ∃ t',
      (List.range k).foldlM (timestampUpdaterAt cfg u times') s = some (s.withTable f rest t'
        (if u.update_cp then extendedRegions cfg s k (updateTime u cdep times t)
          else s.program_regions)) ∧
      t'.row = t.row ∧ t'.col = t.col ∧ ∀ r i, i < t.col →
        t'.entry r i = if r = u.dest_reg ∧ i < k then updateTime u cdep times t i
          else t.entry r i := by
    intro times' htimes' k
    induction k with
    | zero =>
        intro _
        refine ⟨t, ?_, rfl, rfl, fun r i _ => by rw [if_neg (by omega)]⟩
        have hreg : (if u.update_cp then extendedRegions cfg s 0 (updateTime u cdep times t)
            else s.program_regions) = s.program_regions := by
          split
          · exact extendedRegions_zero cfg s _
          · rfl
        rw [hreg, h.withTable_self]
        rfl
    | succ k ih =>
        intro hk
        obtain ⟨t₁, h₁, hrow₁, hcol₁, hentry₁⟩ := ih (by omega)
        have hown := h.withTable t₁ (if u.update_cp then
          extendedRegions cfg s k (updateTime u cdep times t) else s.program_regions)
        generalize hs₁ : s.withTable f rest t₁ (if u.update_cp then
          extendedRegions cfg s k (updateTime u cdep times t) else s.program_regions) = s₁
          at h₁ hown
        have hnum : s₁.num_regions = s.num_regions := by rw [← hs₁]; rfl
        have hcd : s₁.getControlDependenceAtIndex k = s.getControlDependenceAtIndex k := by
          rw [← hs₁]; rfl
        -- column `k` has not been written yet
        have htime : KremlinProfiler.destTime u times' s₁ k
            = some (updateTime u cdep times t k) := by
          rw [hown.destTime u cdep (fun src hsrc => by
              rw [hrow₁]; exact hsrcs src hsrc) (by omega)
            (fun hu => by rw [hcd]; exact hcdep hu k (by omega))]
          have hent : ∀ r, t₁.entry r k = t.entry r k := by
            intro r
            rw [hentry₁ r k (by omega), if_neg (by omega)]
          simp only [updateTime, hent]
          by_cases hu : u.src_addr.isSome
          · rw [htimes' hu]
          · simp only [hu, Bool.false_eq_true, if_false]
        obtain ⟨t₂, h₂, hrow₂, hcol₂, hentry₂⟩ :=
          hown.setTime (updateTime u cdep times t k) (show u.dest_reg < t₁.row by omega)
            (show k < t₁.col by omega)
        refine ⟨t₂, ?_, hrow₂.trans hrow₁, hcol₂.trans hcol₁, fun r i hic => ?_⟩
        · rw [List.range_succ, List.foldlM_append, h₁]
          rw [Option.bind_eq_bind, Option.bind_some, List.foldlM_cons, timestampUpdaterAt,
            getRegionAtLevel_of_lt (show getLevelForIndex cfg k < s₁.num_regions by
            rw [hnum]; exact hregions k (by omega))]
          simp only [Option.bind_eq_bind, Option.bind_some, htime, h₂, List.foldlM_nil]
          rw [← hs₁]
          by_cases hcp : u.update_cp
          · simp only [hcp, if_true]
            rw [← extendedRegions_succ]
            rfl
          · simp only [hcp, Bool.false_eq_true, if_false]
            rfl
        · rw [hentry₂ r i (by omega), hentry₁ r i hic]
          by_cases hik : r = u.dest_reg ∧ i = k
          · rw [if_pos hik, if_pos (by omega), hik.2]
          · rw [if_neg hik]
            by_cases hlt : r = u.dest_reg ∧ i < k
            · rw [if_pos hlt, if_pos (by omega)]
            · rw [if_neg hlt, if_neg (by omega)]
  unfold KremlinProfiler.timestampUpdater
  cases ha : u.src_addr with
  | none => exact hrange _ (fun hsome => by rw [ha] at hsome; cases hsome) _ le_rfl
  | some a => exact hrange _ (fun _ => (htimes a ha).symm) _ le_rfl

/-! ## §4. Stores. -/

/-- The time a store gives to one index. -/
def storedTime (src : Option ℕ) (cdep : ℕ → ℕ) (t : Table) (i : ℕ) : ℕ :=
  (match src with
    | some r => max (cdep i) (t.entry r i)
    | none => cdep i) + STORE_COST

/-- **What `timestampUpdaterStore` does**: the word gets `storedTime` at every
instrumented index, and the regions extend their paths. -/
theorem OwnTable.timestampUpdaterStore (h : OwnTable s f rest t) (cfg : Config) (src : Option ℕ)
    (addr : ℕ) (cdep : ℕ → ℕ) (hsrc : ∀ r ∈ src, r < t.row)
    (hcol : s.curr_num_instrumented_levels ≤ t.col)
    (hregions : ∀ i < s.curr_num_instrumented_levels, cfg.min_level + i < s.num_regions)
    (hcdep : ∀ i < s.curr_num_instrumented_levels,
      s.getControlDependenceAtIndex i = some (cdep i)) :
    ∃ times, KremlinProfiler.timestampUpdaterStore cfg src addr s = some { s with
        program_regions :=
          extendedRegions cfg s s.curr_num_instrumented_levels (storedTime src cdep t)
        level_times := times
        shadow_mem := s.shadow_mem.store (versions cfg s) (wordOf addr)
          s.curr_num_instrumented_levels times } ∧
      ∀ i < s.curr_num_instrumented_levels, times i = storedTime src cdep t i := by
  have hrange : ∀ k, k ≤ s.curr_num_instrumented_levels → ∃ times,
      (List.range k).foldlM (timestampUpdaterStoreAt cfg src) s = some { s with
        program_regions := extendedRegions cfg s k (storedTime src cdep t)
        level_times := times } ∧ ∀ i < k, times i = storedTime src cdep t i := by
    intro k
    induction k with
    | zero =>
        intro _
        refine ⟨s.level_times, ?_, fun i hi => absurd hi (Nat.not_lt_zero i)⟩
        rw [extendedRegions_zero]
        rfl
    | succ k ih =>
        intro hk
        obtain ⟨times, h₁, htimes⟩ := ih (by omega)
        refine ⟨fun i => if i = k then storedTime src cdep t k else times i, ?_, fun i hi => ?_⟩
        · generalize hs₁ : ({ s with
              program_regions := extendedRegions cfg s k (storedTime src cdep t)
              level_times := times } : KremlinProfiler) = s₁ at h₁
          -- the store leaves the table alone
          have hown : OwnTable s₁ f rest t := by
            rw [← hs₁]
            exact ⟨h.stack, h.file, h.table⟩
          have hcd : s₁.getControlDependenceAtIndex k = some (cdep k) := by
            rw [← hs₁]
            exact hcdep k (by omega)
          have hnum : s₁.num_regions = s.num_regions := by rw [← hs₁]
          -- the loop reads its own column only
          have htime : KremlinProfiler.storeTime src s₁ k = some (storedTime src cdep t k) := by
            unfold KremlinProfiler.storeTime
            rw [hcd]
            cases src with
            | none => rfl
            | some r =>
                simp only [Option.bind_eq_bind, Option.bind_some,
                  hown.getTime (hsrc r rfl) (show k < t.col by omega)]
                rfl
          rw [List.range_succ, List.foldlM_append, h₁]
          rw [Option.bind_eq_bind, Option.bind_some, List.foldlM_cons, timestampUpdaterStoreAt,
            getRegionAtLevel_of_lt (show getLevelForIndex cfg k < s₁.num_regions by
              rw [hnum]; exact hregions k (by omega))]
          simp only [Option.bind_eq_bind, Option.bind_some, htime, List.foldlM_nil]
          rw [← hs₁, ← extendedRegions_succ]
          rfl
        · by_cases hik : i = k
          · rw [hik]
            exact if_pos rfl
          · exact (if_neg hik).trans (htimes i (by omega))
  obtain ⟨times, h₁, htimes⟩ := hrange _ le_rfl
  refine ⟨times, ?_, htimes⟩
  simp only [KremlinProfiler.timestampUpdaterStore, h₁, Option.bind_eq_bind, Option.bind_some]
  rfl

/-! ## §5. Returning a constant. -/

/-- **The loop of `handleReturnConst`** copies the control dependence into a row
of the caller's table, all columns of it. -/
theorem returnConst_loop {cdep : ℕ → ℕ} (ret : ℕ) (hret : ret < t.row)
    (hcdep : ∀ i < t.col, s.getControlDependenceAtIndex i = some (cdep i)) :
    ∃ t', (List.range t.col).foldlM (returnConstAt s ret) t = some t' ∧ t'.row = t.row ∧
      t'.col = t.col ∧ ∀ r i, i < t.col → t'.entry r i = if r = ret then cdep i else t.entry r i := by
  -- by induction on the columns that are done
  have hrange : ∀ k, k ≤ t.col → ∃ t',
      (List.range k).foldlM (returnConstAt s ret) t = some t' ∧ t'.row = t.row ∧ t'.col = t.col ∧
      ∀ r i, i < t.col → t'.entry r i = if r = ret ∧ i < k then cdep i else t.entry r i := by
    intro k
    induction k with
    | zero =>
        intro _
        exact ⟨t, rfl, rfl, rfl, fun r i _ => by rw [if_neg (by omega)]⟩
    | succ k ih =>
        intro hk
        obtain ⟨t₁, h₁, hrow₁, hcol₁, hentry₁⟩ := ih (by omega)
        obtain ⟨t₂, h₂, hrow₂, hcol₂, hentry₂⟩ := t₁.setValue_spec (cdep k)
          (show ret < t₁.row by omega) (show k < t₁.col by omega)
        refine ⟨t₂, ?_, hrow₂.trans hrow₁, hcol₂.trans hcol₁, fun r i hi => ?_⟩
        · rw [List.range_succ, List.foldlM_append, h₁, Option.bind_eq_bind, Option.bind_some,
            List.foldlM_cons, returnConstAt, hcdep k (by omega)]
          simp only [Option.bind_eq_bind, Option.bind_some, h₂, List.foldlM_nil]
          rfl
        · rw [hentry₂ r i (by omega), hentry₁ r i hi]
          by_cases hik : r = ret ∧ i = k
          · rw [if_pos hik, if_pos (by omega), hik.2]
          · rw [if_neg hik]
            by_cases hlt : r = ret ∧ i < k
            · rw [if_pos hlt, if_pos (by omega)]
            · rw [if_neg hlt, if_neg (by omega)]
  obtain ⟨t', h', hrow, hcol, hentry⟩ := hrange t.col le_rfl
  refine ⟨t', h', hrow, hcol, fun r i hi => ?_⟩
  rw [hentry r i hi]
  simp only [hi, and_true]

end KremlinProfiler

end Kremlin.Runtime
