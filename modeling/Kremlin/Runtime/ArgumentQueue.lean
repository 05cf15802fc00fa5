/-
  Kremlin.Runtime.ArgumentQueue — what the argument queue does along a run.

  `_KEnqArg`, `_KEnqArgConst` and `_KDeqArg` work on one queue, which `_KPrepCall`
  clears.  The copies that `_KDeqArg` makes are recorded beside the run.

  Main results:
    * `enqueue_run` — what a caller's calls leave in the queue;
    * `dequeue_run` — which copies a callee's calls make of it;
    * both whatever other calls stand in between, if these open and close no region.
-/
import Kremlin.Library.Run
import Kremlin.Runtime.RefinementCalls
import Kremlin.Runtime.SharedLevels
import Kremlin.Runtime.Untouched

namespace Kremlin.Runtime

open Kremlin.Library

/-! ## §1. The calls that work on the queue. -/

/-- The calls that use the queue. -/
def Event.onQueue : Event → Bool
  | .prepCall _ _ | .enqArg _ | .enqArgConst | .deqArg _ => true
  | _ => false

namespace KremlinProfiler

/-- The calls between the calls for arguments: no region is opened or closed, and no
register table set up. -/
def Quiet : Event → Prop
  | .enterRegion _ _ | .exitRegion _ _ | .landingPad _ _ | .prepRTable _ _ => False
  | _ => True

/-- What the calls for arguments depend on. -/
structure SameCall (s s' : KremlinProfiler) : Prop where
  enabled : s'.enabled = s.enabled
  functions : s'.callstack.length = s.callstack.length
  instrumented : s'.curr_num_instrumented_levels = s.curr_num_instrumented_levels
  level : s'.curr_level = s.curr_level

/-- What changes no stack changes no call. -/
theorem SameStacks.sameCall {s s' : KremlinProfiler} (h : SameStacks s s') : SameCall s s' :=
  ⟨h.enabled, h.functions, h.status.1, h.level⟩

/-- One event after another. -/
theorem SameCall.trans {s₁ s₂ s₃ : KremlinProfiler} (h : SameCall s₁ s₂) (h' : SameCall s₂ s₃) :
    SameCall s₁ s₃ :=
  ⟨h'.enabled.trans h.enabled, h'.functions.trans h.functions,
    h'.instrumented.trans h.instrumented, h'.level.trans h.level⟩

variable {cfg : Config} {s s' : KremlinProfiler} {e : Event}

/-- A quiet event. -/
theorem step_sameCall (he : Quiet e) (h : step cfg s e = some s') : SameCall s s' := by
  by_cases hset : SetsStacks e
  · cases e with
    | pushCDep cond =>
        refine enabled_gate (SameStacks.refl s).sameCall h fun h => ?_
        simp only [Option.bind_eq_bind, Option.bind_eq_some_iff, Option.some.injEq] at h
        obtain ⟨lTable, -, t, -, rfl⟩ := h
        exact ⟨rfl, rfl, rfl, rfl⟩
    | popCDep =>
        refine enabled_gate (SameStacks.refl s).sameCall h fun h => ?_
        split at h
        · cases h
        · cases h
          exact ⟨rfl, rfl, rfl, rfl⟩
    | prepRTable n d => exact absurd he (fun h => h)
    | _ => exact absurd hset (fun h => h)
  · refine (step_sameStacks (fun hmoves => ?_) hset h).sameCall
    cases e <;> first | exact hmoves | exact he

/-! ## §2. The queue is left alone by the others. -/

/-- The queue and its two indices. -/
structure SameQueue (s s' : KremlinProfiler) : Prop where
  queue : s'.function_arg_queue = s.function_arg_queue
  read : s'.arg_queue_read_index = s.arg_queue_read_index
  write : s'.arg_queue_write_index = s.arg_queue_write_index

/-- No event. -/
theorem SameQueue.refl (s : KremlinProfiler) : SameQueue s s := ⟨rfl, rfl, rfl⟩

/-- What is not touched stays. -/
theorem Untouched.sameQueue (h : Untouched s s') : SameQueue s s' := ⟨h.queue, h.read, h.write⟩

/-- **The other calls leave the queue as it is.** -/
theorem step_sameQueue (he : Quiet e) (hqueue : e.onQueue = false)
    (h : step cfg s e = some s') : SameQueue s s' := by
  cases e with
  | enterRegion id ty | exitRegion id ty | landingPad id ty | prepRTable n d => exact False.elim he
  | prepCall c r | enqArg r | enqArgConst | deqArg r => cases hqueue
  | work amount =>
      cases h
      exact ⟨rfl, rfl, rfl⟩
  | store r a size | storeConst a size =>
      refine enabled_gate (.refl s) h fun h => ?_
      have hkeep := timestampUpdaterStore_untouched h
      exact ⟨hkeep.queue, hkeep.read, hkeep.write⟩
  | instr i | pushCDep cond | popCDep | linkReturn r | ret r | retConst =>
      exact (step_untouched h trivial).sameQueue

/-! ## §3. A function is entered. -/

/-- The callee in front of the functions that were open, and the queue as it was. -/
structure Entered (cfg : Config) (s s' : KremlinProfiler) : Prop extends SameQueue s s' where
  enabled : s'.enabled = true
  stack : ∃ callee, s'.callstack = callee :: s.callstack
  level : s'.curr_level = nextLevel s.curr_level
  instrumented : s'.curr_num_instrumented_levels =
    if nextLevel s.curr_level < cfg.min_level then 0
    else min cfg.max_level (nextLevel s.curr_level) - cfg.min_level + 1

/-- The entry changes the control dependences and nothing else. -/
theorem enterControlDependences_eq (h : enterControlDependences cfg s = some s') :
    s' = { s with
      control_dependence_table := s'.control_dependence_table
      cdt_current_base := s'.cdt_current_base } := by
  unfold enterControlDependences at h
  split at h
  · simp only [initRegionControlDependences, Option.bind_eq_bind, Option.bind_eq_some_iff,
      Option.some.injEq] at h
    obtain ⟨t, -, rfl⟩ := h
    rfl
  · cases h
    rfl

/-- Entering a function leaves the queue alone. -/
theorem step_enterFunction {rid : SID} (hon : s.enabled = true)
    (h : step cfg s (.enterRegion rid .regionFunc) = some s') : Entered cfg s s' := by
  have h : handleRegionEntry cfg rid .regionFunc s = some s' := h
  unfold handleRegionEntry at h
  rw [if_pos hon] at h
  simp only [Option.bind_eq_bind, Option.bind_eq_some_iff] at h
  obtain ⟨-, -, s₁, hissue, s₂, hregs, hcdep⟩ := h
  unfold enterRegisters at hregs
  rw [if_pos rfl, Option.some.injEq] at hregs
  unfold issueVersionToLevel at hissue
  split at hissue
  · cases hissue
    rw [enterControlDependences_eq hcdep, ← hregs]
    -- doubling the regions changes their number only
    split <;> exact ⟨⟨rfl, rfl, rfl⟩, hon, ⟨_, rfl⟩, rfl, rfl⟩
  · cases hissue

/-- The register table of the callee is set up. -/
theorem step_prepRTable {n d : ℕ} (hon : s.enabled = true)
    (h : step cfg s (.prepRTable n d) = some s') :
    SameQueue s s' ∧ SameCall s s' ∧ ∃ callee callee' rest, s.callstack = callee :: rest ∧
      s'.callstack = callee' :: rest ∧
      callee'.table = some (Table.new n (s.curr_level + d + 1)) := by
  have h : handlePrepRTable n d s = some s' := h
  unfold handlePrepRTable at h
  rw [if_pos hon] at h
  simp only [Option.bind_eq_bind, Option.bind_eq_some_iff, Option.some.injEq] at h
  obtain ⟨callee, hcallee, rfl⟩ := h
  obtain ⟨rest, hstack⟩ : ∃ rest, s.callstack = callee :: rest := by
    unfold getCurrentFunction at hcallee
    cases hs : s.callstack with
    | nil =>
        rw [hs] at hcallee
        cases hcallee
    | cons f rest =>
        rw [hs, List.head?_cons, Option.some.injEq] at hcallee
        exact ⟨rest, by rw [hcallee]⟩
  have hset : s.setCurrentFunction
      { callee with table := some (Table.new n (s.curr_level + d + 1)) } =
      { s with callstack :=
        { callee with table := some (Table.new n (s.curr_level + d + 1)) } :: rest } := by
    unfold setCurrentFunction
    rw [hstack]
  rw [hset]
  refine ⟨⟨rfl, rfl, rfl⟩, ⟨rfl, ?_, rfl, rfl⟩, callee, _, rest, hstack, rfl, rfl⟩
  rw [hstack]
  rfl

/-! ## §4. The copies. -/

/-- A copy from a register of one function to a register of another; the functions are
known by their places on the callstack, counted from its bottom. -/
structure Copy where
  caller : ℕ
  src : ℕ
  callee : ℕ
  dest : ℕ
  deriving DecidableEq

/-- The copy that `_KDeqArg` makes. -/
def copyOf (s : KremlinProfiler) : Event → Option Copy
  | .deqArg dest =>
      if s.enabled ∧ s.frontArgument ≠ DUMMY_ARG ∧ s.curr_num_instrumented_levels > 0 then
        some ⟨s.callstack.length - 2, s.frontArgument, s.callstack.length - 1, dest⟩
      else none
  | _ => none

/-- The copies along a run. -/
def copies (cfg : Config) : KremlinProfiler → List Event → List Copy
  | _, [] => []
  | s, e :: es =>
      (copyOf s e).toList ++
        match step cfg s e with
        | some s' => copies cfg s' es
        | none => []

/-- The copies of the first event come first. -/
theorem copies_cons (h : step cfg s e = some s') (es : List Event) :
    copies cfg s (e :: es) = (copyOf s e).toList ++ copies cfg s' es := by
  rw [copies, h]

/-- The copies of two parts. -/
theorem copies_append {xs : List Event} (ys : List Event) (h : run (step cfg) s xs = some s') :
    copies cfg s (xs ++ ys) = copies cfg s xs ++ copies cfg s' ys := by
  induction xs generalizing s with
  | nil =>
      cases h
      rfl
  | cons e xs ih =>
      obtain ⟨s₁, h₁, h₂⟩ := run_cons_eq_some.mp h
      rw [List.cons_append, copies_cons h₁, copies_cons h₁, ih h₂, List.append_assoc]

/-- The queue holds `args`, with `n` entries written since it was cleared. -/
def Holds (s : KremlinProfiler) (args : List ℕ) (n : ℕ) : Prop :=
  ArgsOk args n s.function_arg_queue s.arg_queue_read_index s.arg_queue_write_index

/-- The queue holds the same as long as nobody uses it. -/
theorem Holds.same {args : List ℕ} {n : ℕ} (h : s.Holds args n) (hsame : SameQueue s s') :
    s'.Holds args n := by
  unfold Holds
  rw [hsame.queue, hsame.read, hsame.write]
  exact h

/-! ## §5. The caller's calls. -/

/-- The call for one argument: a register, or a constant. -/
def enqueueCall : Option ℕ → Event
  | some r => .enqArg r
  | none => .enqArgConst

/-- What it leaves in the queue. -/
def queued (arg : Option ℕ) : ℕ := arg.getD DUMMY_ARG

/-- An argument is put behind those that are there. -/
theorem step_enqueueCall (cfg : Config) {args : List ℕ} {n : ℕ} (hon : s.enabled = true)
    (h : s.Holds args n) (hroom : n < FUNC_ARG_QUEUE_SIZE) (arg : Option ℕ) :
    ∃ s', step cfg s (enqueueCall arg) = some s' ∧ SameCall s s' ∧
      s'.callstack = s.callstack ∧ s'.Holds (args ++ [queued arg]) (n + 1) := by
  have hpush : s.functionArgQueuePushBack (queued arg) = some { s with
      function_arg_queue := fun i =>
        if i = s.arg_queue_write_index then queued arg else s.function_arg_queue i
      arg_queue_write_index := s.arg_queue_write_index + 1 } :=
    if_pos (by rw [h.written]; exact hroom)
  have hstep : step cfg s (enqueueCall arg) = s.functionArgQueuePushBack (queued arg) := by
    cases arg with
    | none => exact if_pos hon
    | some r => exact if_pos hon
  exact ⟨_, hstep.trans hpush, ⟨rfl, rfl, rfl, rfl⟩, rfl, ArgsOk.push h hroom _⟩

/-- That copies nothing, -/
theorem copyOf_enqueueCall (arg : Option ℕ) : copyOf s (enqueueCall arg) = none := by
  cases arg <;> rfl

/-- and neither does a call without the queue. -/
theorem copyOf_of_not_onQueue (h : e.onQueue = false) : copyOf s e = none := by
  cases e <;> first | rfl | cases h

/-- **What a caller leaves in the queue**, whatever other calls stand between its own. -/
theorem enqueue_run {es : List Event} : ∀ {s s' : KremlinProfiler} {args : List (Option ℕ)}
    {done : List ℕ} {n : ℕ}, (∀ e ∈ es, Quiet e) →
      es.filter Event.onQueue = args.map enqueueCall → n + args.length ≤ FUNC_ARG_QUEUE_SIZE →
      s.enabled = true → s.Holds done n → run (step cfg) s es = some s' →
      SameCall s s' ∧ s'.Holds (done ++ args.map queued) (n + args.length) ∧
        copies cfg s es = [] := by
  induction es with
  | nil =>
      intro s s' args done n _ hfilter _ _ hholds hrun
      cases hrun
      have hnil : args = [] := List.map_eq_nil_iff.mp hfilter.symm
      subst hnil
      refine ⟨(SameStacks.refl s).sameCall, ?_, rfl⟩
      rw [List.map_nil, List.append_nil]
      exact hholds
  | cons e es ih =>
      intro s s' args done n hquiet hfilter hroom hon hholds hrun
      obtain ⟨s₁, h₁, h₂⟩ := run_cons_eq_some.mp hrun
      have hquiet' := fun e he => hquiet e (List.mem_cons_of_mem _ he)
      have hcall := step_sameCall (hquiet e List.mem_cons_self) h₁
      have hon₁ : s₁.enabled = true := hcall.enabled.trans hon
      cases hqueue : e.onQueue with
      | false =>
          rw [List.filter_cons_of_neg (by rw [hqueue]; exact Bool.false_ne_true)] at hfilter
          have hsame := step_sameQueue (hquiet e List.mem_cons_self) hqueue h₁
          obtain ⟨hcall', hholds', hnone⟩ :=
            ih hquiet' hfilter hroom hon₁ (hholds.same hsame) h₂
          refine ⟨hcall.trans hcall', hholds', ?_⟩
          rw [copies_cons h₁, hnone, copyOf_of_not_onQueue hqueue]
          rfl
      | true =>
          rw [List.filter_cons_of_pos hqueue] at hfilter
          -- the next of the caller's calls
          cases args with
          | nil => cases hfilter
          | cons arg args =>
              rw [List.map_cons] at hfilter
              obtain ⟨rfl, hrest⟩ := List.cons.inj hfilter
              rw [List.length_cons] at hroom
              obtain ⟨s₁', h₁', -, -, hholds₁⟩ :=
                step_enqueueCall cfg hon hholds (by omega) arg
              rw [h₁, Option.some.injEq] at h₁'
              subst h₁'
              obtain ⟨hcall', hholds', hnone⟩ :=
                ih hquiet' hrest (by omega) hon₁ hholds₁ h₂
              refine ⟨hcall.trans hcall', ?_, ?_⟩
              · rw [List.append_assoc, List.singleton_append] at hholds'
                rw [List.map_cons, List.length_cons, ← Nat.add_assoc, Nat.add_right_comm]
                exact hholds'
              · rw [copies_cons h₁, hnone, copyOf_enqueueCall]
                rfl

/-- Calls that do not work on the queue copy nothing. -/
theorem other_run {es : List Event} : ∀ {s s' : KremlinProfiler}, (∀ e ∈ es, Quiet e) →
    (∀ e ∈ es, e.onQueue = false) → run (step cfg) s es = some s' →
      SameCall s s' ∧ copies cfg s es = [] := by
  induction es with
  | nil =>
      intro s s' _ _ hrun
      cases hrun
      exact ⟨(SameStacks.refl s).sameCall, rfl⟩
  | cons e es ih =>
      intro s s' hquiet hother hrun
      obtain ⟨s₁, h₁, h₂⟩ := run_cons_eq_some.mp hrun
      obtain ⟨hcall, hnone⟩ := ih (fun e he => hquiet e (List.mem_cons_of_mem _ he))
        (fun e he => hother e (List.mem_cons_of_mem _ he)) h₂
      refine ⟨(step_sameCall (hquiet e List.mem_cons_self) h₁).trans hcall, ?_⟩
      rw [copies_cons h₁, hnone, copyOf_of_not_onQueue (hother e List.mem_cons_self)]
      rfl

/-- The queue is cleared. -/
theorem step_prepCall (cfg : Config) (c : CID) (r : SID) (hon : s.enabled = true) :
    ∃ s', step cfg s (.prepCall c r) = some s' ∧ SameCall s s' ∧ s'.callstack = s.callstack ∧
      s'.Holds [] 0 :=
  ⟨_, if_pos hon, ⟨rfl, rfl, rfl, rfl⟩, rfl, rfl, rfl, Nat.zero_le _,
    fun j hj => absurd hj (Nat.not_lt_zero j)⟩

/-- **What the queue holds at a call**: the queue is cleared before the arguments come,
so that nothing of earlier calls is left in it. -/
theorem call_run {es : List Event} {s s' : KremlinProfiler} {args : List (Option ℕ)} {c : CID}
    {r : SID} (hquiet : ∀ e ∈ es, Quiet e)
    (hfilter : es.filter Event.onQueue = .prepCall c r :: args.map enqueueCall)
    (hroom : args.length ≤ FUNC_ARG_QUEUE_SIZE) (hon : s.enabled = true)
    (hrun : run (step cfg) s es = some s') :
    SameCall s s' ∧ s'.Holds (args.map queued) args.length ∧ copies cfg s es = [] := by
  obtain ⟨pre, post, rfl, hpre, -, hpost⟩ := List.filter_eq_cons_iff.mp hfilter
  obtain ⟨s₁, h₁, hrun⟩ := run_append_eq_some.mp hrun
  obtain ⟨s₂, h₂, h₃⟩ := run_cons_eq_some.mp hrun
  obtain ⟨hcall₁, hnone₁⟩ := other_run (fun e he => hquiet e (List.mem_append_left _ he))
    (fun e he => Bool.eq_false_iff.mpr (hpre e he)) h₁
  have hon₁ : s₁.enabled = true := hcall₁.enabled.trans hon
  obtain ⟨s₂', h₂', hcall₂, -, hholds₂⟩ := step_prepCall cfg c r hon₁
  rw [h₂, Option.some.injEq] at h₂'
  subst h₂'
  obtain ⟨hcall₃, hholds₃, hnone₃⟩ := enqueue_run
    (fun e he => hquiet e (List.mem_append_right _ (List.mem_cons_of_mem _ he))) hpost
    (by omega) (hcall₂.enabled.trans hon₁) hholds₂ h₃
  refine ⟨(hcall₁.trans hcall₂).trans hcall₃, ?_, ?_⟩
  · rw [List.nil_append, Nat.zero_add] at hholds₃
    exact hholds₃
  · rw [copies_append _ h₁, hnone₁, copies_cons h₂, hnone₃]
    rfl

/-- The calls for the arguments can be made. -/
theorem enqueue_total (cfg : Config) : ∀ (args : List (Option ℕ)) {s : KremlinProfiler} {done : List ℕ} {n : ℕ},
    n + args.length ≤ FUNC_ARG_QUEUE_SIZE → s.enabled = true → s.Holds done n →
      ∃ s', run (step cfg) s (args.map enqueueCall) = some s' ∧ SameCall s s' ∧
        s'.callstack = s.callstack ∧ s'.Holds (done ++ args.map queued) (n + args.length)
  | [], s, done, n, _, _, hholds => by
      refine ⟨s, rfl, (SameStacks.refl s).sameCall, rfl, ?_⟩
      rw [List.map_nil, List.append_nil]
      exact hholds
  | arg :: args, s, done, n, hroom, hon, hholds => by
      rw [List.length_cons] at hroom
      obtain ⟨s₁, h₁, hcall₁, hstack₁, hholds₁⟩ :=
        step_enqueueCall cfg hon hholds (by omega) arg
      obtain ⟨s', h', hcall', hstack', hholds'⟩ := enqueue_total cfg args
        (show n + 1 + args.length ≤ FUNC_ARG_QUEUE_SIZE by omega) (hcall₁.enabled.trans hon) hholds₁
      refine ⟨s', ?_, hcall₁.trans hcall', hstack'.trans hstack₁, ?_⟩
      · rw [List.map_cons, run_cons, h₁]
        exact h'
      · rw [List.append_assoc, List.singleton_append] at hholds'
        rw [List.map_cons, List.length_cons, ← Nat.add_assoc, Nat.add_right_comm]
        exact hholds'

/-! ## §6. The callee's calls. -/

/-- Taking an argument from the front. -/
theorem Holds.pop {src : ℕ} {args : List ℕ} {n : ℕ} (h : s.Holds (src :: args) n) :
    s.frontArgument = src ∧
      s.functionArgQueuePopFront =
        some (src, { s with arg_queue_read_index := s.arg_queue_read_index + 1 }) ∧
      Holds { s with arg_queue_read_index := s.arg_queue_read_index + 1 } args n := by
  have hpending := h.pending
  have hbounded := h.bounded
  rw [List.length_cons] at hpending
  have hfront : s.frontArgument = src := h.content 0 (Nat.succ_pos _)
  refine ⟨hfront, ?_, h.written, ?_, hbounded, fun j hj => ?_⟩
  · have hread : s.arg_queue_read_index < FUNC_ARG_QUEUE_SIZE := by omega
    unfold functionArgQueuePopFront
    rw [if_pos hread, ← hfront]
    rfl
  · show s.arg_queue_read_index + 1 + args.length = n
    omega
  · have hcontent := h.content (j + 1) (Nat.succ_lt_succ hj)
    show s.function_arg_queue (s.arg_queue_read_index + 1 + j) = args[j]
    rw [Nat.add_right_comm, Nat.add_assoc]
    exact hcontent

/-- The copy into a parameter. -/
def copyInto (depth : ℕ) (arg : ℕ × ℕ) : Option Copy :=
  if arg.1 = DUMMY_ARG then none else some ⟨depth - 2, arg.1, depth - 1, arg.2⟩

/-- Of an argument that `_KDeqArg` takes: the queue is one shorter. -/
theorem step_deqArg {src dest : ℕ} {args : List ℕ} {n : ℕ} (hon : s.enabled = true)
    (h : s.Holds (src :: args) n) (hlevels : 0 < s.curr_num_instrumented_levels)
    (hstep : step cfg s (.deqArg dest) = some s') :
    s'.Holds args n ∧ copyOf s (.deqArg dest) = copyInto s.callstack.length (src, dest) := by
  obtain ⟨hfront, hpop, hrest⟩ := h.pop
  constructor
  · have hstep : handleDequeueArgument dest s = some s' := hstep
    unfold handleDequeueArgument at hstep
    rw [if_pos hon, hpop, Option.bind_eq_bind, Option.bind_some] at hstep
    dsimp only at hstep
    split at hstep
    · simp only [Option.bind_eq_bind, Option.bind_eq_some_iff, Option.some.injEq] at hstep
      obtain ⟨_, -, _, -, _, -, _, -, _, -, _, -, rfl⟩ := hstep
      exact hrest.same (setCurrentFunction_untouched _ _).sameQueue
    · cases hstep
      exact hrest
  · unfold copyOf copyInto
    dsimp only
    rw [hfront]
    by_cases hdummy : src = DUMMY_ARG
    · rw [if_pos hdummy, if_neg fun hand => hand.2.1 hdummy]
    · rw [if_neg hdummy, if_pos ⟨hon, hdummy, hlevels⟩]

/-- **Which copies a callee makes**, whatever other calls stand between its own: its
parameters take the arguments in the order in which these were queued. -/
theorem dequeue_run {es : List Event} : ∀ {s s' : KremlinProfiler} {args dests : List ℕ} {n : ℕ},
    (∀ e ∈ es, Quiet e) → es.filter Event.onQueue = dests.map .deqArg →
      args.length = dests.length → s.enabled = true → 0 < s.curr_num_instrumented_levels →
      s.Holds args n → run (step cfg) s es = some s' →
      copies cfg s es = (args.zip dests).filterMap (copyInto s.callstack.length) := by
  induction es with
  | nil =>
      intro s s' args dests n _ hfilter _ _ _ _ _
      have hnil : dests = [] := List.map_eq_nil_iff.mp hfilter.symm
      rw [hnil, List.zip_nil_right]
      rfl
  | cons e es ih =>
      intro s s' args dests n hquiet hfilter hlength hon hlevels hholds hrun
      obtain ⟨s₁, h₁, h₂⟩ := run_cons_eq_some.mp hrun
      have hquiet' := fun e he => hquiet e (List.mem_cons_of_mem _ he)
      have hcall := step_sameCall (hquiet e List.mem_cons_self) h₁
      have hon₁ : s₁.enabled = true := hcall.enabled.trans hon
      have hlevels₁ : 0 < s₁.curr_num_instrumented_levels := by
        rw [hcall.instrumented]
        exact hlevels
      rw [copies_cons h₁]
      cases hqueue : e.onQueue with
      | false =>
          rw [List.filter_cons_of_neg (by rw [hqueue]; exact Bool.false_ne_true)] at hfilter
          have hsame := step_sameQueue (hquiet e List.mem_cons_self) hqueue h₁
          rw [ih hquiet' hfilter hlength hon₁ hlevels₁ (hholds.same hsame) h₂,
            copyOf_of_not_onQueue hqueue, hcall.functions]
          rfl
      | true =>
          rw [List.filter_cons_of_pos hqueue] at hfilter
          -- the next parameter takes the argument at the front
          cases dests with
          | nil => cases hfilter
          | cons dest dests =>
              cases args with
              | nil => cases hlength
              | cons src args =>
                  rw [List.map_cons] at hfilter
                  obtain ⟨rfl, hrest⟩ := List.cons.inj hfilter
                  obtain ⟨hholds₁, hcopy⟩ := step_deqArg hon hholds hlevels h₁
                  rw [ih hquiet' hrest (Nat.succ.inj hlength) hon₁ hlevels₁ hholds₁ h₂, hcopy,
                    hcall.functions, List.zip_cons_cons, List.filterMap_cons]
                  cases copyInto s.callstack.length (src, dest) <;> rfl

/-- One call for a parameter can be made, if both register tables have its row and its
columns. -/
theorem deqArg_total (cfg : Config) {caller callee : FunctionRegion}
    {callers : List FunctionRegion} {T t : Table} {src dest : ℕ} {args : List ℕ} {n : ℕ} (hon : s.enabled = true)
    (hstack : s.callstack = callee :: caller :: callers) (ht : callee.table = some t)
    (hT : caller.table = some T) (hsrc : src = DUMMY_ARG ∨ src < T.row) (hdest : dest < t.row)
    (hTcol : s.curr_num_instrumented_levels - 1 ≤ T.col)
    (htcol : s.curr_num_instrumented_levels - 1 ≤ t.col) (hholds : s.Holds (src :: args) n) :
    ∃ s' callee' t', step cfg s (.deqArg dest) = some s' ∧ SameCall s s' ∧
      s'.callstack = callee' :: caller :: callers ∧ callee'.table = some t' ∧
      t'.row = t.row ∧ t'.col = t.col ∧ s'.Holds args n ∧
      ∀ r, ∀ i < t.col, t'.entry r i =
        if r = dest ∧ src ≠ DUMMY_ARG ∧ i < s.curr_num_instrumented_levels - 1 then T.entry src i
        else t.entry r i := by
  obtain ⟨-, hpop, hrest⟩ := hholds.pop
  have hstep : step cfg s (.deqArg dest) = handleDequeueArgument dest s := rfl
  unfold handleDequeueArgument at hstep
  rw [if_pos hon, hpop, Option.bind_eq_bind, Option.bind_some] at hstep
  dsimp only at hstep
  by_cases hcopy : src ≠ DUMMY_ARG ∧ s.curr_num_instrumented_levels > 0
  · -- a register of the caller: its row is copied, up to the caller's levels
    obtain ⟨t', ht', hrow, hcol, hentry⟩ := T.copyToDest_spec t dest src
      (s.curr_num_instrumented_levels - 1) hdest (hsrc.resolve_left hcopy.1) htcol hTcol
    rw [if_pos hcopy] at hstep
    simp only [getCallingFunction, getCurrentFunction, setCurrentFunction, hstack, List.head?_cons,
      Option.bind_eq_bind, Option.bind_some, hT, ht, ht'] at hstep
    refine ⟨_, { callee with table := some t' }, t', hstep, ⟨rfl, ?_, rfl, rfl⟩, rfl, rfl, hrow, hcol,
      hrest, fun r i hi => ?_⟩
    · rw [hstack]
      rfl
    · rw [hentry r i hi]
      exact if_congr ⟨fun h => ⟨h.1, hcopy.1, h.2⟩, fun h => ⟨h.1, h.2.2⟩⟩ rfl rfl
  · rw [if_neg hcopy] at hstep
    refine ⟨_, callee, t, hstep, ⟨rfl, rfl, rfl, rfl⟩, hstack, ht, rfl, rfl, hrest, fun r i _ => ?_⟩
    rw [if_neg]
    rintro ⟨-, hne, hi⟩
    exact hcopy ⟨hne, by omega⟩

/-- **The calls for the parameters can be made**, and each parameter has its argument's
times then, or those it had. -/
theorem dequeue_total (cfg : Config) {caller : FunctionRegion} {callers : List FunctionRegion} {T : Table} :
    ∀ (args dests : List ℕ) {s : KremlinProfiler} {callee : FunctionRegion} {t : Table} {n : ℕ},
      args.length = dests.length → dests.Nodup → s.enabled = true →
      s.callstack = callee :: caller :: callers → callee.table = some t →
      caller.table = some T → (∀ src ∈ args, src = DUMMY_ARG ∨ src < T.row) →
      (∀ dest ∈ dests, dest < t.row) → s.curr_num_instrumented_levels - 1 ≤ T.col →
      s.curr_num_instrumented_levels - 1 ≤ t.col → s.Holds args n →
      ∃ s' callee' t', run (step cfg) s (dests.map .deqArg) = some s' ∧
        s'.callstack = callee' :: caller :: callers ∧ callee'.table = some t' ∧
        t'.row = t.row ∧ t'.col = t.col ∧
        (∀ src dest, (src, dest) ∈ args.zip dests → ∀ i < t.col, t'.entry dest i =
          if src ≠ DUMMY_ARG ∧ i < s.curr_num_instrumented_levels - 1 then T.entry src i
          else t.entry dest i) ∧
        ∀ r, r ∉ dests → ∀ i < t.col, t'.entry r i = t.entry r i
  | [], [], s, callee, t, n, _, _, _, hstack, ht, _, _, _, _, _, _ =>
      ⟨s, callee, t, rfl, hstack, ht, rfl, rfl, fun _ _ h => absurd h List.not_mem_nil,
        fun _ _ _ _ => rfl⟩
  | src :: args, dest :: dests, s, callee, t, n, hlength, hnodup, hon, hstack, ht, hT, hsrc,
      hdest, hTcol, htcol, hholds => by
      obtain ⟨hnotin, hnodup⟩ := List.nodup_cons.mp hnodup
      obtain ⟨s₁, callee₁, t₁, h₁, hcall₁, hstack₁, ht₁, hrow₁, hcol₁, hholds₁, hentry₁⟩ :=
        deqArg_total cfg hon hstack ht hT (hsrc src List.mem_cons_self)
          (hdest dest List.mem_cons_self) hTcol htcol hholds
      obtain ⟨s', callee', t', h', hstack', ht', hrow', hcol', hin, hout⟩ :=
        dequeue_total cfg args dests (Nat.succ.inj hlength) hnodup (hcall₁.enabled.trans hon)
          hstack₁ ht₁ hT (fun src hmem => hsrc src (List.mem_cons_of_mem _ hmem))
          (fun dest hmem => hrow₁ ▸ hdest dest (List.mem_cons_of_mem _ hmem))
          (hcall₁.instrumented ▸ hTcol) (hcol₁ ▸ hcall₁.instrumented ▸ htcol) hholds₁
      rw [hcol₁, hcall₁.instrumented] at hin
      rw [hcol₁] at hout
      refine ⟨s', callee', t', ?_, hstack', ht', hrow'.trans hrow₁, hcol'.trans hcol₁, ?_, ?_⟩
      · rw [List.map_cons, run_cons, h₁]
        exact h'
      · intro src' dest' hmem i hi
        rw [List.zip_cons_cons] at hmem
        rcases List.mem_cons.mp hmem with heq | hlater
        · cases heq
          -- the later parameters are other registers
          rw [hout dest hnotin i hi, hentry₁ dest i hi]
          exact if_congr ⟨fun h => h.2, fun h => ⟨rfl, h⟩⟩ rfl rfl
        · have hne : dest' ≠ dest := fun heq => hnotin (heq ▸ (List.of_mem_zip hlater).2)
          have hkeep : t₁.entry dest' i = t.entry dest' i := by
            rw [hentry₁ dest' i hi, if_neg fun h => hne h.1]
          rw [hin src' dest' hlater i hi, hkeep]
      · intro r hr i hi
        rw [List.mem_cons, not_or] at hr
        rw [hout r hr.2 i hi, hentry₁ r i hi, if_neg fun h => hr.1 h.1]

end KremlinProfiler

end Kremlin.Runtime
