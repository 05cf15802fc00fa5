/-
  Kremlin.Runtime.LevelStack — the stack of open regions.

  The profiler's open regions are the static ids and types of its levels up to
  `curr_level`.  Only region entry, region exit and landing pads change them:
  every other handler satisfies `SameLevels` (§2).  What else the profiler
  keeps in step with its levels (`SameStacks`) is left alone too, except by the
  handlers of the register table and of control dependences.
-/
import Kremlin.Runtime.Handlers

namespace Kremlin.Runtime

open Kremlin.Library
open KremlinProfiler

/-- An open region: its static id and its type. -/
abbrev RegionKey := SID × RegionType

/-- The row length of an activation's register table, once it is set up. -/
def FunctionRegion.width (f : FunctionRegion) : Option ℕ := f.table.map Table.col

namespace KremlinProfiler

/-! ## §1. The open regions. -/

/-- What the profiler keeps at a level. -/
def regionKey (s : KremlinProfiler) (l : ℕ) : RegionKey :=
  ((s.program_regions l).regionId, (s.program_regions l).regionType)

/-- The regions of the `n` outermost levels, innermost first. -/
def openFrom (s : KremlinProfiler) : ℕ → List RegionKey
  | 0 => []
  | n + 1 => s.regionKey n :: openFrom s n

/-- The profiler's open regions, innermost first. -/
def openRegions (s : KremlinProfiler) : List RegionKey :=
  s.openFrom (nextLevel s.curr_level)

/-- One region for each level. -/
@[simp] theorem openFrom_length (s : KremlinProfiler) (n : ℕ) : (s.openFrom n).length = n := by
  induction n with
  | zero => rfl
  | succ n ih => rw [openFrom, List.length_cons, ih]

/-- Only the levels below `n` count. -/
theorem openFrom_congr {s s' : KremlinProfiler} {n : ℕ}
    (h : ∀ l < n, s'.regionKey l = s.regionKey l) : s'.openFrom n = s.openFrom n := by
  induction n with
  | zero => rfl
  | succ n ih =>
      rw [openFrom, openFrom, h n (Nat.lt_succ_self n), ih fun l hl => h l (by omega)]

/-- Dropping the innermost regions leaves the outer levels. -/
theorem openFrom_drop (s : KremlinProfiler) (m k : ℕ) :
    (s.openFrom (m + k)).drop k = s.openFrom m := by
  induction k with
  | zero => rfl
  | succ k ih => rw [← Nat.add_assoc, openFrom, List.drop_succ_cons, ih]

/-- An open region is the one of a level. -/
theorem mem_openFrom {s : KremlinProfiler} {n : ℕ} {k : RegionKey} :
    k ∈ s.openFrom n ↔ ∃ l < n, s.regionKey l = k := by
  induction n with
  | zero => simp [openFrom]
  | succ n ih =>
      rw [openFrom, List.mem_cons, ih]
      constructor
      · rintro (rfl | ⟨l, hl, h⟩)
        · exact ⟨n, by omega, rfl⟩
        · exact ⟨l, by omega, h⟩
      · rintro ⟨l, hl, h⟩
        by_cases hln : l = n
        · exact .inl (hln ▸ h).symm
        · exact .inr ⟨l, by omega, h⟩

/-! ## §2. What the other handlers leave alone. -/

/-- Same open regions, and as many functions on the callstack. -/
structure SameLevels (s s' : KremlinProfiler) : Prop where
  enabled : s'.enabled = s.enabled
  level : s'.curr_level = s.curr_level
  capacity : s'.num_regions = s.num_regions
  functions : s'.callstack.length = s.callstack.length
  key : ∀ l, s'.regionKey l = s.regionKey l

/-- Nothing changes its own levels. -/
theorem SameLevels.refl (s : KremlinProfiler) : SameLevels s s :=
  ⟨rfl, rfl, rfl, rfl, fun _ => rfl⟩

/-- One handler after the other. -/
theorem SameLevels.trans {s₁ s₂ s₃ : KremlinProfiler} (h : SameLevels s₁ s₂)
    (h' : SameLevels s₂ s₃) : SameLevels s₁ s₃ where
  enabled := h'.enabled.trans h.enabled
  level := h'.level.trans h.level
  capacity := h'.capacity.trans h.capacity
  functions := h'.functions.trans h.functions
  key l := (h'.key l).trans (h.key l)

/-- The other stacks are the same as well: start times, callsites, register
tables, register file, calls on the region tree and control dependences. -/
structure SameStacks (s s' : KremlinProfiler) : Prop extends SameLevels s s' where
  start : ∀ l, (s'.program_regions l).start = (s.program_regions l).start
  status : s'.curr_num_instrumented_levels = s.curr_num_instrumented_levels ∧
    s'.instrument_curr_level = s.instrument_curr_level
  callSites : s'.callstack.map (·.call_site_id) = s.callstack.map (·.call_site_id)
  widths : s'.callstack.map FunctionRegion.width = s.callstack.map FunctionRegion.width
  registerFile : s'.shadow_reg_file = s.shadow_reg_file
  tree : s'.treeCalls = s.treeCalls
  readPtr : s'.cdt_read_ptr = s.cdt_read_ptr
  base : s'.cdt_current_base = s.cdt_current_base
  cdeps : s'.control_dependence_table = s.control_dependence_table

/-- Nothing changes its own stacks. -/
theorem SameStacks.refl (s : KremlinProfiler) : SameStacks s s :=
  ⟨.refl s, fun _ => rfl, ⟨rfl, rfl⟩, rfl, rfl, rfl, rfl, rfl, rfl, rfl⟩

/-- One handler after the other. -/
theorem SameStacks.trans {s₁ s₂ s₃ : KremlinProfiler} (h : SameStacks s₁ s₂)
    (h' : SameStacks s₂ s₃) : SameStacks s₁ s₃ where
  toSameLevels := h.toSameLevels.trans h'.toSameLevels
  start l := (h'.start l).trans (h.start l)
  status := ⟨h'.status.1.trans h.status.1, h'.status.2.trans h.status.2⟩
  callSites := h'.callSites.trans h.callSites
  widths := h'.widths.trans h.widths
  registerFile := h'.registerFile.trans h.registerFile
  tree := h'.tree.trans h.tree
  readPtr := h'.readPtr.trans h.readPtr
  base := h'.base.trans h.base
  cdeps := h'.cdeps.trans h.cdeps

/-- Rewriting a region under its own id, type and start time. -/
theorem setRegion_sameStacks {s : KremlinProfiler} {l : ℕ} {r : ProgramRegion}
    (hr : (r.regionId, r.regionType) = s.regionKey l)
    (hstart : r.start = (s.program_regions l).start) : SameStacks s (s.setRegion l r) where
  enabled := rfl
  level := rfl
  capacity := rfl
  functions := rfl
  key i := by
    by_cases hi : i = l
    · subst hi
      show ((if i = i then r else _).regionId, (if i = i then r else _).regionType) = _
      rw [if_pos rfl]
      exact hr
    · show ((if i = l then r else s.program_regions i).regionId,
        (if i = l then r else s.program_regions i).regionType) = _
      rw [if_neg hi]
      rfl
  start i := by
    show (if i = l then r else s.program_regions i).start = _
    split
    · next hi => rw [hi, hstart]
    · rfl
  status := ⟨rfl, rfl⟩
  callSites := rfl
  widths := rfl
  registerFile := rfl
  tree := rfl
  readPtr := rfl
  base := rfl
  cdeps := rfl

/-- What is found at a level is its region. -/
theorem getRegionAtLevel_eq_some {s : KremlinProfiler} {l : ℕ} {r : ProgramRegion}
    (h : s.getRegionAtLevel l = some r) : l < s.num_regions ∧ r = s.program_regions l := by
  unfold getRegionAtLevel at h
  split at h
  · next hl => exact ⟨hl, (Option.some.inj h).symm⟩
  · cases h

/-- There is one at every level that was allocated. -/
theorem getRegionAtLevel_of_lt {s : KremlinProfiler} {l : ℕ} (hl : l < s.num_regions) :
    s.getRegionAtLevel l = some (s.program_regions l) := if_pos hl

/-- Giving an activation a new table keeps the callsites. -/
theorem map_modify_table (fs : List FunctionRegion) (owner : ℕ) (t : Table) :
    (fs.modify owner fun f => { f with table := some t }).map (·.call_site_id)
      = fs.map (·.call_site_id) := by
  induction fs generalizing owner with
  | nil => cases owner <;> rfl
  | cons f fs ih =>
      cases owner with
      | zero => rfl
      | succ owner => exact congrArg (f.call_site_id :: ·) (ih owner)

/-- A table of the same row length keeps the row lengths. -/
theorem map_modify_width {fs : List FunctionRegion} {owner : ℕ} {t : Table} {f : FunctionRegion}
    (hf : fs[owner]? = some f) (ht : f.width = some t.col) :
    (fs.modify owner fun f => { f with table := some t }).map FunctionRegion.width
      = fs.map FunctionRegion.width := by
  induction fs generalizing owner with
  | nil => cases hf
  | cons g fs ih =>
      cases owner with
      | zero =>
          obtain rfl := Option.some.inj hf
          exact congrArg (· :: fs.map FunctionRegion.width) ht.symm
      | succ owner => exact congrArg (g.width :: ·) (ih hf)

/-- Setting a value keeps the shape of a table. -/
theorem setValue_col {t t' : Table} {time row col : ℕ} (h : t.setValue time row col = some t') :
    t'.col = t.col := by
  unfold Table.setValue at h
  dsimp only at h
  split at h
  · cases h
    rfl
  · cases h

/-- So does copying into it. -/
theorem copyToDest_col {src dest t : Table} {dest_reg src_reg start size : ℕ}
    (h : src.copyToDest dest dest_reg src_reg start size = some t) : t.col = dest.col := by
  unfold Table.copyToDest at h
  split at h
  · cases h
    rfl
  · dsimp only at h
    split at h
    · cases h
      rfl
    · cases h

/-- A time in a register table is no stack's. -/
theorem setRegisterTimeAtIndex_sameStacks {s s' : KremlinProfiler} {time : ℕ} {reg : ℕ}
    {index : ℕ} (h : s.setRegisterTimeAtIndex time reg index = some s') :
    SameStacks s s' := by
  simp only [setRegisterTimeAtIndex, writeRegisterFileTable, Option.bind_eq_bind,
    Option.bind_eq_some_iff, Option.some.injEq] at h
  obtain ⟨t, hfile, t', ht', owner, howner, rfl⟩ := h
  refine ⟨⟨rfl, rfl, rfl, by simp, fun _ => rfl⟩, fun _ => rfl, ⟨rfl, rfl⟩, ?_, ?_, rfl, rfl, rfl,
    rfl, rfl⟩
  · show List.map _ (List.reverse _) = _
    rw [List.map_reverse, map_modify_table, ← List.map_reverse, List.reverse_reverse]
  · simp only [getRegisterFileTable, Option.bind_eq_bind, Option.bind_eq_some_iff] at hfile
    obtain ⟨owner', howner', f, hf, ht⟩ := hfile
    obtain rfl := Option.some.inj (howner'.symm.trans howner)
    show List.map _ (List.reverse _) = _
    rw [List.map_reverse, map_modify_width hf (by rw [FunctionRegion.width, ht, setValue_col ht']; rfl),
      ← List.map_reverse, List.reverse_reverse]

/-- Nor are the times of a column. -/
theorem zeroRegistersAtIndex_sameStacks {s s' : KremlinProfiler} {index : ℕ}
    (h : s.zeroRegistersAtIndex index = some s') : SameStacks s s' := by
  simp only [zeroRegistersAtIndex, Option.bind_eq_bind, Option.bind_eq_some_iff] at h
  obtain ⟨t, -, h⟩ := h
  exact foldlM_relates SameStacks.refl SameStacks.trans
    (fun _ _ _ h => setRegisterTimeAtIndex_sameStacks h) h

/-- An update at one level leaves the stacks alone. -/
theorem timestampUpdaterAt_sameStacks {cfg : Config} {u : TimestampUpdate}
    {times : ℕ → ℕ} {s s' : KremlinProfiler} {index : ℕ}
    (h : timestampUpdaterAt cfg u times s index = some s') : SameStacks s s' := by
  simp only [timestampUpdaterAt, Option.bind_eq_bind, Option.bind_eq_some_iff,
    Option.some.injEq] at h
  obtain ⟨region, hregion, time, -, s₁, h₁, rfl⟩ := h
  have h₁ := setRegisterTimeAtIndex_sameStacks h₁
  by_cases hcp : u.update_cp
  · rw [if_pos hcp]
    refine h₁.trans (setRegion_sameStacks ?_ ?_)
    · rw [h₁.key, (getRegionAtLevel_eq_some hregion).2]
      rfl
    · rw [h₁.start, (getRegionAtLevel_eq_some hregion).2]
      rfl
  · rw [if_neg hcp]
    exact h₁

/-- And so it does at all levels. -/
theorem timestampUpdater_sameStacks {cfg : Config} {u : TimestampUpdate}
    {s s' : KremlinProfiler} (h : timestampUpdater cfg u s = some s') : SameStacks s s' :=
  foldlM_relates SameStacks.refl SameStacks.trans
    (fun _ _ _ h => timestampUpdaterAt_sameStacks h) h

/-- A change of the times, the shadow memory, the clock or the argument queue. -/
theorem sameStacks_of_eq {s s' : KremlinProfiler}
    (h : s' = { s with
      curr_time := s'.curr_time
      level_times := s'.level_times
      shadow_mem := s'.shadow_mem
      last_callsite_id := s'.last_callsite_id
      function_arg_queue := s'.function_arg_queue
      arg_queue_read_index := s'.arg_queue_read_index
      arg_queue_write_index := s'.arg_queue_write_index }) : SameStacks s s' := by
  rw [h]
  exact ⟨⟨rfl, rfl, rfl, rfl, fun _ => rfl⟩, fun _ => rfl, ⟨rfl, rfl⟩, rfl, rfl, rfl, rfl, rfl, rfl,
    rfl⟩

/-- A store at one level leaves them alone. -/
theorem timestampUpdaterStoreAt_sameStacks {cfg : Config} {src_reg : Option ℕ}
    {s s' : KremlinProfiler} {index : ℕ}
    (h : timestampUpdaterStoreAt cfg src_reg s index = some s') : SameStacks s s' := by
  simp only [timestampUpdaterStoreAt, Option.bind_eq_bind, Option.bind_eq_some_iff,
    Option.some.injEq] at h
  obtain ⟨region, hregion, time, -, rfl⟩ := h
  have hkey : SameStacks s { s with
      level_times := fun j => if j = index then time else s.level_times j } :=
    sameStacks_of_eq rfl
  refine hkey.trans (setRegion_sameStacks ?_ ?_) <;>
    rw [(getRegionAtLevel_eq_some hregion).2] <;> rfl

/-- And so it does at all levels. -/
theorem timestampUpdaterStore_sameStacks {cfg : Config} {src_reg : Option ℕ} {a : ℕ}
    {s s' : KremlinProfiler} (h : timestampUpdaterStore cfg src_reg a s = some s') :
    SameStacks s s' := by
  simp only [timestampUpdaterStore, Option.bind_eq_bind, Option.bind_eq_some_iff,
    Option.some.injEq] at h
  obtain ⟨s₁, h₁, rfl⟩ := h
  have h₁ : SameStacks s s₁ := foldlM_relates SameStacks.refl SameStacks.trans
    (fun _ _ _ h => timestampUpdaterStoreAt_sameStacks h) h₁
  exact h₁.trans (sameStacks_of_eq rfl)

/-- The calls that enter or leave regions. -/
def MovesLevels : Event → Prop
  | .enterRegion _ _ | .exitRegion _ _ | .landingPad _ _ => True
  | _ => False

/-- The calls that set up a register table or stack control dependences. -/
def SetsStacks : Event → Prop
  | .prepRTable _ _ | .pushCDep _ | .popCDep => True
  | _ => False

/-- An activation that keeps its callsite replaces the current one. -/
theorem setCurrentFunction_sameStacks {s : KremlinProfiler} {f g : FunctionRegion}
    (hf : s.getCurrentFunction = some f) (hg : g.call_site_id = f.call_site_id)
    (hwidth : g.width = f.width) : SameStacks s (s.setCurrentFunction g) := by
  unfold setCurrentFunction
  split
  · next f' rest h =>
      rw [getCurrentFunction, h, List.head?_cons, Option.some.injEq] at hf
      refine ⟨⟨rfl, rfl, rfl, by rw [h]; rfl, fun _ => rfl⟩, fun _ => rfl, ⟨rfl, rfl⟩, ?_, ?_, rfl,
        rfl, rfl, rfl, rfl⟩
      · rw [h, List.map_cons, List.map_cons, hg, hf]
      · rw [h, List.map_cons, List.map_cons, hwidth, hf]
  · exact .refl s

/-- A caller may be rewritten, but not its call site or the width of its table. -/
theorem setCallingFunction_sameStacks {s : KremlinProfiler} {f g : FunctionRegion}
    (hf : s.getCallingFunction = some (some f)) (hg : g.call_site_id = f.call_site_id)
    (hwidth : g.width = f.width) : SameStacks s (s.setCallingFunction g) := by
  unfold setCallingFunction
  split
  · next callee f' rest h =>
      have hf : some (some f') = some (some f) := by
        rw [← hf, getCallingFunction, h]
      simp only [Option.some.injEq] at hf
      refine ⟨⟨rfl, rfl, rfl, by rw [h]; rfl, fun _ => rfl⟩, fun _ => rfl, ⟨rfl, rfl⟩, ?_, ?_, rfl,
        rfl, rfl, rfl, rfl⟩
      · rw [h, List.map_cons, List.map_cons, List.map_cons, List.map_cons, hg, hf]
      · rw [h, List.map_cons, List.map_cons, List.map_cons, List.map_cons, hwidth, hf]
  · exact .refl s

/-- The queue of arguments is no stack. -/
theorem functionArgQueuePushBack_sameStacks {s s' : KremlinProfiler} {src : ℕ}
    (h : s.functionArgQueuePushBack src = some s') : SameStacks s s' := by
  unfold functionArgQueuePushBack at h
  split at h
  · cases h
    exact sameStacks_of_eq rfl
  · cases h

/-- A disabled profiler does nothing. -/
theorem enabled_gate {s s' : KremlinProfiler} {f : Option KremlinProfiler}
    {R : KremlinProfiler → KremlinProfiler → Prop} (hrefl : R s s)
    (h : (if s.enabled then f else some s) = some s') (hon : f = some s' → R s s') : R s s' := by
  split at h
  · exact hon h
  · cases h
    exact hrefl

/-- **Calls that neither move levels nor set up a table or a control dependence
keep every stack.** -/
theorem step_sameStacks {cfg : Config} {s s' : KremlinProfiler} {e : Event}
    (he : ¬ MovesLevels e) (hset : ¬ SetsStacks e) (h : step cfg s e = some s') :
    SameStacks s s' := by
  cases e with
  -- exact absurd trivial he => the calls that move levels or set a stack are excluded
  | enterRegion id ty => exact absurd trivial he
  | exitRegion id ty => exact absurd trivial he
  | landingPad id ty => exact absurd trivial he
  | prepRTable n d => exact absurd trivial hset
  | pushCDep cond => exact absurd trivial hset
  | popCDep => exact absurd trivial hset
  | work amount =>
      cases h
      exact sameStacks_of_eq rfl
  | instr i =>
      exact enabled_gate (.refl s) h fun h => foldlM_relates SameStacks.refl SameStacks.trans
        (fun _ _ _ h => timestampUpdater_sameStacks h) h
  | store r a size => exact enabled_gate (.refl s) h timestampUpdaterStore_sameStacks
  | storeConst a size => exact enabled_gate (.refl s) h timestampUpdaterStore_sameStacks
  | prepCall c r =>
      refine enabled_gate (.refl s) h fun h => ?_
      cases h
      exact sameStacks_of_eq rfl
  | enqArg r => exact enabled_gate (.refl s) h functionArgQueuePushBack_sameStacks
  | enqArgConst => exact enabled_gate (.refl s) h functionArgQueuePushBack_sameStacks
  | deqArg r =>
      refine enabled_gate (.refl s) h fun h => ?_
      simp only [functionArgQueuePopFront, Option.bind_eq_bind, Option.bind_eq_some_iff] at h
      obtain ⟨⟨src, s₁⟩, hpop, h⟩ := h
      have h₁ : SameStacks s s₁ := by
        split at hpop
        · cases hpop
          exact sameStacks_of_eq rfl
        · cases hpop
      dsimp only at h
      split at h
      · simp only [Option.bind_eq_some_iff, Option.some.injEq] at h
        -- the callee's table is rewritten in place, so it stays as wide
        obtain ⟨_, -, _, -, callee, hcallee, _, -, calleeT, ht, t, hcopy, rfl⟩ := h
        refine h₁.trans (setCurrentFunction_sameStacks hcallee rfl ?_)
        rw [FunctionRegion.width, FunctionRegion.width, ht, Option.map_some, Option.map_some,
          copyToDest_col hcopy]
      · cases h
        exact h₁
  | linkReturn r =>
      refine enabled_gate (.refl s) h fun h => ?_
      simp only [Option.bind_eq_bind, Option.bind_eq_some_iff, Option.some.injEq] at h
      obtain ⟨f, hf, rfl⟩ := h
      exact setCurrentFunction_sameStacks hf rfl rfl
  | ret r =>
      refine enabled_gate (.refl s) h fun h => ?_
      simp only [Option.bind_eq_bind, Option.bind_eq_some_iff] at h
      obtain ⟨callee, -, caller, hcaller, h⟩ := h
      cases caller with
      | none =>
          cases h
          exact .refl s
      | some caller =>
          dsimp only at h
          split at h
          · simp only [Option.bind_eq_some_iff, Option.some.injEq] at h
            obtain ⟨_, -, callerT, ht, t, hcopy, rfl⟩ := h
            refine setCallingFunction_sameStacks hcaller rfl ?_
            rw [FunctionRegion.width, FunctionRegion.width, ht, Option.map_some, Option.map_some,
              copyToDest_col hcopy]
          · cases h
            exact .refl s
  | retConst =>
      refine enabled_gate (.refl s) h fun h => ?_
      simp only [Option.bind_eq_bind, Option.bind_eq_some_iff] at h
      obtain ⟨caller, hcaller, h⟩ := h
      cases caller with
      | none =>
          cases h
          exact .refl s
      | some caller =>
          simp only [Option.bind_eq_some_iff, Option.some.injEq] at h
          obtain ⟨callerT, ht, t, hloop, rfl⟩ := h
          -- no turn of the loop changes the width
          have hcol : t.col = callerT.col := foldlM_relates (R := fun t t' : Table => t'.col = t.col)
            (fun _ => rfl) (fun h h' => h'.trans h)
            (fun t index t' h => by
              obtain ⟨cdt, -, hset⟩ := Option.bind_eq_some_iff.mp h
              exact setValue_col hset) hloop
          refine setCallingFunction_sameStacks hcaller rfl ?_
          rw [FunctionRegion.width, FunctionRegion.width, ht, Option.map_some, Option.map_some, hcol]

/-- The call sizes the table of the current function. -/
theorem handlePrepRTable_eq_some {n d : ℕ} {s s' : KremlinProfiler} (hs : s.enabled = true)
    (h : handlePrepRTable n d s = some s') :
    ∃ f rest, s.callstack = f :: rest ∧
      s' = { s with
        callstack := { f with table := some (.new n (s.curr_level + d + 1)) } :: rest
        shadow_reg_file := some rest.length
        waiting_for_register_table_init := false } := by
  rw [handlePrepRTable, if_pos hs] at h
  cases hstack : s.callstack with
  | nil =>
      rw [getCurrentFunction, hstack] at h
      cases h
  | cons f rest =>
      simp only [getCurrentFunction, hstack, List.head?_cons, Option.bind_eq_bind, Option.bind_some,
        setCurrentFunction, Option.some.injEq] at h
      exact ⟨f, rest, rfl, h.symm⟩

/-- **Every call that does not move levels keeps the open regions.** -/
theorem step_sameLevels {cfg : Config} {s s' : KremlinProfiler} {e : Event}
    (he : ¬ MovesLevels e) (h : step cfg s e = some s') : SameLevels s s' := by
  by_cases hset : SetsStacks e
  · cases e with
    | prepRTable n d =>
        by_cases hs : s.enabled = true
        · obtain ⟨f, rest, hstack, rfl⟩ := handlePrepRTable_eq_some hs h
          exact ⟨rfl, rfl, rfl, by rw [hstack]; rfl, fun _ => rfl⟩
        · have hoff : handlePrepRTable n d s = some s := if_neg hs
          obtain rfl := Option.some.inj (hoff.symm.trans h)
          exact .refl s
    | pushCDep cond =>
        refine enabled_gate (.refl s) h fun h => ?_
        simp only [Option.bind_eq_bind, Option.bind_eq_some_iff, Option.some.injEq] at h
        obtain ⟨t, -, t', -, rfl⟩ := h
        exact ⟨rfl, rfl, rfl, rfl, fun _ => rfl⟩
    | popCDep =>
        refine enabled_gate (.refl s) h fun h => ?_
        split at h
        · cases h
        · cases h
          exact ⟨rfl, rfl, rfl, rfl, fun _ => rfl⟩
    | _ => exact hset.elim
  · exact (step_sameStacks he hset h).toSameLevels

end KremlinProfiler

end Kremlin.Runtime
