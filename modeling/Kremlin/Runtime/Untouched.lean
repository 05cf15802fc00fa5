/-
  Kremlin.Runtime.Untouched — what the calls inside a region leave alone.

  The handlers of registers and control dependences write activations, the
  regions of the levels and the control-dependence table; the handlers of
  arguments write the queue too.  Neither changes the clock, the levels, their
  versions or the memory.

  Main results:
    * `step_untouched` — the handlers of registers also keep the queue;
    * `step_sameWindow` — the handlers of arguments.
-/
import Kremlin.Runtime.LevelStack

namespace Kremlin.Runtime

open Kremlin.Library

namespace KremlinProfiler

/-! ## §1. The two relations. -/

/-- The clock, the levels with their versions, and the memory. -/
structure SameWindow (s s' : KremlinProfiler) : Prop where
  enabled : s'.enabled = s.enabled
  clock : s'.curr_time = s.curr_time
  level : s'.curr_level = s.curr_level
  instrumented : s'.curr_num_instrumented_levels = s.curr_num_instrumented_levels
  versions : s'.level_versions = s.level_versions
  next : s'.nextVersion = s.nextVersion
  mem : s'.shadow_mem = s.shadow_mem

/-- One event after another. -/
theorem SameWindow.trans {s₁ s₂ s₃ : KremlinProfiler} (h : SameWindow s₁ s₂)
    (h' : SameWindow s₂ s₃) : SameWindow s₁ s₃ where
  enabled := h'.enabled.trans h.enabled
  clock := h'.clock.trans h.clock
  level := h'.level.trans h.level
  instrumented := h'.instrumented.trans h.instrumented
  versions := h'.versions.trans h.versions
  next := h'.next.trans h.next
  mem := h'.mem.trans h.mem

/-- The argument queue as well. -/
structure Untouched (s s' : KremlinProfiler) : Prop extends SameWindow s s' where
  queue : s'.function_arg_queue = s.function_arg_queue
  read : s'.arg_queue_read_index = s.arg_queue_read_index
  write : s'.arg_queue_write_index = s.arg_queue_write_index

/-- Nothing changed. -/
theorem Untouched.refl (s : KremlinProfiler) : Untouched s s :=
  ⟨⟨rfl, rfl, rfl, rfl, rfl, rfl, rfl⟩, rfl, rfl, rfl⟩

/-- One change after another. -/
theorem Untouched.trans {s₁ s₂ s₃ : KremlinProfiler} (h : Untouched s₁ s₂)
    (h' : Untouched s₂ s₃) : Untouched s₁ s₃ :=
  ⟨h.toSameWindow.trans h'.toSameWindow, h'.queue.trans h.queue, h'.read.trans h.read,
    h'.write.trans h.write⟩

/-- What the handlers of registers may write. -/
theorem untouched_of_eq {s s' : KremlinProfiler}
    (h : s' = { s with
      program_regions := s'.program_regions
      level_times := s'.level_times
      callstack := s'.callstack
      waiting_for_register_table_init := s'.waiting_for_register_table_init
      control_dependence_table := s'.control_dependence_table
      cdt_read_ptr := s'.cdt_read_ptr
      cdt_current_base := s'.cdt_current_base
      shadow_reg_file := s'.shadow_reg_file }) : Untouched s s' := by
  rw [h]
  exact ⟨⟨rfl, rfl, rfl, rfl, rfl, rfl, rfl⟩, rfl, rfl, rfl⟩

variable {cfg : Config} {s s' : KremlinProfiler} {e : Event}

/-! ## §2. Registers and control dependences. -/

theorem setCurrentFunction_untouched (s : KremlinProfiler) (f : FunctionRegion) :
    Untouched s (s.setCurrentFunction f) := by
  unfold setCurrentFunction
  split <;> exact untouched_of_eq rfl

theorem setCallingFunction_untouched (s : KremlinProfiler) (f : FunctionRegion) :
    Untouched s (s.setCallingFunction f) := by
  unfold setCallingFunction
  split <;> exact untouched_of_eq rfl

theorem setRegisterTimeAtIndex_untouched {time reg index : ℕ}
    (h : s.setRegisterTimeAtIndex time reg index = some s') : Untouched s s' := by
  simp only [setRegisterTimeAtIndex, writeRegisterFileTable, Option.bind_eq_bind,
    Option.bind_eq_some_iff, Option.some.injEq] at h
  obtain ⟨t, -, t', -, owner, -, rfl⟩ := h
  exact untouched_of_eq rfl

theorem timestampUpdaterAt_untouched {u : TimestampUpdate} {times : ℕ → ℕ} {index : ℕ}
    (h : timestampUpdaterAt cfg u times s index = some s') : Untouched s s' := by
  simp only [timestampUpdaterAt, Option.bind_eq_bind, Option.bind_eq_some_iff,
    Option.some.injEq] at h
  obtain ⟨region, -, time, -, s₁, h₁, rfl⟩ := h
  refine (setRegisterTimeAtIndex_untouched h₁).trans ?_
  split
  · exact untouched_of_eq rfl
  · exact .refl s₁

/-- An update sets registers and paths. -/
theorem timestampUpdater_untouched {u : TimestampUpdate}
    (h : timestampUpdater cfg u s = some s') : Untouched s s' :=
  foldlM_relates Untouched.refl Untouched.trans (fun _ _ _ h => timestampUpdaterAt_untouched h) h

/-- The times of a store, before they go to the memory. -/
theorem timestampUpdaterStoreAt_untouched {src_reg : Option ℕ} {index : ℕ}
    (h : timestampUpdaterStoreAt cfg src_reg s index = some s') : Untouched s s' := by
  simp only [timestampUpdaterStoreAt, Option.bind_eq_bind, Option.bind_eq_some_iff,
    Option.some.injEq] at h
  obtain ⟨region, -, time, -, rfl⟩ := h
  exact untouched_of_eq rfl

/-- Of a store only the memory is new. -/
theorem timestampUpdaterStore_untouched {src_reg : Option ℕ} {a : ℕ}
    (h : timestampUpdaterStore cfg src_reg a s = some s') :
    Untouched s { s' with shadow_mem := s.shadow_mem } := by
  simp only [timestampUpdaterStore, Option.bind_eq_bind, Option.bind_eq_some_iff,
    Option.some.injEq] at h
  obtain ⟨s₁, h₁, rfl⟩ := h
  have hkeep : Untouched s s₁ := foldlM_relates Untouched.refl Untouched.trans
    (fun _ _ _ h => timestampUpdaterStoreAt_untouched h) h₁
  exact ⟨⟨hkeep.enabled, hkeep.clock, hkeep.level, hkeep.instrumented, hkeep.versions, hkeep.next,
    rfl⟩, hkeep.queue, hkeep.read, hkeep.write⟩

theorem enterRegisters_untouched {regionType : RegionType}
    (h : enterRegisters cfg regionType s = some s') : Untouched s s' := by
  unfold enterRegisters at h
  split at h
  · cases h
    exact untouched_of_eq rfl
  · split at h
    · simp only [zeroRegistersAtIndex, Option.bind_eq_bind, Option.bind_eq_some_iff] at h
      obtain ⟨t, -, h⟩ := h
      exact foldlM_relates Untouched.refl Untouched.trans
        (fun _ _ _ h => setRegisterTimeAtIndex_untouched h) h
    · cases h
      exact .refl s

theorem enterControlDependences_untouched (h : enterControlDependences cfg s = some s') :
    Untouched s s' := by
  unfold enterControlDependences at h
  split at h
  · simp only [initRegionControlDependences, Option.bind_eq_bind, Option.bind_eq_some_iff,
      Option.some.injEq] at h
    obtain ⟨t, -, rfl⟩ := h
    exact untouched_of_eq rfl
  · cases h
    exact .refl s

/-- The calls that set registers or control dependences, and do nothing else. -/
def SetsRegisters : Event → Prop
  | .instr _ | .pushCDep _ | .popCDep | .prepRTable _ _ | .linkReturn _ | .ret _ | .retConst => True
  | _ => False

/-- **The handlers of registers** change nothing else. -/
theorem step_untouched (h : step cfg s e = some s') (he : SetsRegisters e) : Untouched s s' := by
  cases e with
  | instr i =>
      exact enabled_gate (.refl s) h fun h => foldlM_relates Untouched.refl Untouched.trans
        (fun _ _ _ h => timestampUpdater_untouched h) h
  | pushCDep cond =>
      refine enabled_gate (.refl s) h fun h => ?_
      simp only [Option.bind_eq_bind, Option.bind_eq_some_iff, Option.some.injEq] at h
      obtain ⟨lTable, -, t, -, rfl⟩ := h
      exact untouched_of_eq rfl
  | popCDep =>
      refine enabled_gate (.refl s) h fun h => ?_
      split at h
      · cases h
      · cases h
        exact untouched_of_eq rfl
  | prepRTable n d =>
      refine enabled_gate (.refl s) h fun h => ?_
      simp only [Option.bind_eq_bind, Option.bind_eq_some_iff, Option.some.injEq] at h
      obtain ⟨f, -, rfl⟩ := h
      exact (setCurrentFunction_untouched s _).trans (untouched_of_eq rfl)
  | linkReturn r =>
      refine enabled_gate (.refl s) h fun h => ?_
      simp only [Option.bind_eq_bind, Option.bind_eq_some_iff, Option.some.injEq] at h
      obtain ⟨f, -, rfl⟩ := h
      exact setCurrentFunction_untouched s _
  | ret r =>
      refine enabled_gate (.refl s) h fun h => ?_
      simp only [Option.bind_eq_bind, Option.bind_eq_some_iff] at h
      -- a return without a caller, or to one that linked nothing, does nothing
      obtain ⟨callee, -, caller, -, h⟩ := h
      split at h
      · cases h
        exact .refl s
      · split at h
        · simp only [Option.bind_eq_some_iff, Option.some.injEq] at h
          obtain ⟨_, -, _, -, t, -, rfl⟩ := h
          exact setCallingFunction_untouched s _
        · cases h
          exact .refl s
  | retConst =>
      refine enabled_gate (.refl s) h fun h => ?_
      simp only [Option.bind_eq_bind, Option.bind_eq_some_iff] at h
      obtain ⟨caller, -, h⟩ := h
      split at h
      · cases h
        exact .refl s
      · simp only [Option.bind_eq_some_iff, Option.some.injEq] at h
        obtain ⟨_, -, t, -, rfl⟩ := h
        exact setCallingFunction_untouched s _
  | _ => exact False.elim he

/-! ## §3. Arguments. -/

/-- The calls that pass arguments. -/
def PassesArguments : Event → Prop
  | .prepCall _ _ | .enqArg _ | .enqArgConst | .deqArg _ => True
  | _ => False

/-- What the handlers of arguments may write besides activations. -/
theorem sameWindow_of_eq
    (h : s' = { s with
      last_callsite_id := s'.last_callsite_id
      function_arg_queue := s'.function_arg_queue
      arg_queue_read_index := s'.arg_queue_read_index
      arg_queue_write_index := s'.arg_queue_write_index }) : SameWindow s s' := by
  rw [h]
  exact ⟨rfl, rfl, rfl, rfl, rfl, rfl, rfl⟩

theorem functionArgQueuePushBack_sameWindow {src : ℕ}
    (h : s.functionArgQueuePushBack src = some s') : SameWindow s s' := by
  unfold functionArgQueuePushBack at h
  split at h
  · cases h
    exact sameWindow_of_eq rfl
  · cases h

/-- **The handlers of arguments** change the queue and the callee's registers only. -/
theorem step_sameWindow (h : step cfg s e = some s') (he : PassesArguments e) :
    SameWindow s s' := by
  have hrefl := (Untouched.refl s).toSameWindow
  cases e with
  | prepCall c r =>
      refine enabled_gate hrefl h fun h => ?_
      cases h
      exact sameWindow_of_eq rfl
  | enqArg arg => exact enabled_gate hrefl h functionArgQueuePushBack_sameWindow
  | enqArgConst => exact enabled_gate hrefl h functionArgQueuePushBack_sameWindow
  | deqArg dest =>
      refine enabled_gate hrefl h fun h => ?_
      rw [Option.bind_eq_bind, Option.bind_eq_some_iff] at h
      obtain ⟨⟨src, s₁⟩, hpop, h⟩ := h
      have h₁ : SameWindow s s₁ := by
        unfold functionArgQueuePopFront at hpop
        split at hpop
        · cases hpop
          exact sameWindow_of_eq rfl
        · cases hpop
      dsimp only at h
      split at h
      · simp only [Option.bind_eq_bind, Option.bind_eq_some_iff, Option.some.injEq] at h
        obtain ⟨_, -, _, -, _, -, _, -, _, -, _, -, rfl⟩ := h
        exact h₁.trans (setCurrentFunction_untouched s₁ _).toSameWindow
      · cases h
        exact h₁
  | _ => exact False.elim he

end KremlinProfiler

end Kremlin.Runtime
