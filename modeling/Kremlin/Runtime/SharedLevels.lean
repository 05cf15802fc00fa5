/-
  Kremlin.Runtime.SharedLevels — what a call and a return carry over.

  `_KDeqArg` copies a row of the caller's register table to the callee's, and
  `_KReturn` one the other way.  Both leave out the last instrumented column as
  the callee's own.  It is, while the callee is in the window; in a callee below
  the window the last column is `max_level`, which caller and callee share.

  Main result:
    * `call_copies_iff` — where all shared levels are carried over, in any state
      of a well-formed run.
-/
import Kremlin.Runtime.LevelArrays
import Kremlin.Runtime.UpdateLoops

namespace Kremlin.Runtime

open Kremlin.Library
open KremlinProfiler

/-! ## §1. Shared levels. -/

/-- A function, its caller and their register tables. -/
structure Link where
  callee : FunctionRegion
  caller : FunctionRegion
  rest : List FunctionRegion
  calleeT : Table
  callerT : Table

/-- The innermost call. -/
def KremlinProfiler.link (s : KremlinProfiler) : Option Link :=
  match s.callstack with
  | callee :: caller :: rest => do
      let calleeT ← callee.table
      let callerT ← caller.table
      some { callee, caller, rest, calleeT, callerT }
  | _ => none

/-- The level of this column is instrumented and one of the regions `fs` that are
open around the callee, so not deeper than the caller's innermost one. -/
def Shared (cfg : Config) (fs : List OpenFrame) (i : ℕ) : Prop :=
  cfg.min_level + i ≤ cfg.max_level ∧ cfg.min_level + i < fs.length

/-- Row `dest` has the shared times of row `src` of `source`; all else is as
before. -/
structure Carried (shared : ℕ → Prop) (source before after : Table) (src dest : ℕ) : Prop where
  row : after.row = before.row
  col : after.col = before.col
  carried : ∀ i, shared i → after.entry dest i = source.entry src i
  remaining : ∀ i < before.col, ¬ shared i → after.entry dest i = before.entry dest i
  others : ∀ r ≠ dest, ∀ i < before.col, after.entry r i = before.entry r i

/-- The register the next `_KDeqArg` reads. -/
def KremlinProfiler.frontArgument (s : KremlinProfiler) : ℕ :=
  s.function_arg_queue s.arg_queue_read_index

/-- The parameter `dest` has the argument's times at the shared levels. -/
def ArgumentCarried (cfg : Config) (fs : List OpenFrame) (dest : ℕ) (s s' : KremlinProfiler) :
    Prop :=
  ∃ l t, s.link = some l ∧
    s'.callstack = { l.callee with table := some t } :: l.caller :: l.rest ∧
    Carried (Shared cfg fs) l.callerT l.calleeT t s.frontArgument dest

/-- The caller's return register has the times of `src` at the shared levels. -/
def ReturnCarried (cfg : Config) (fs : List OpenFrame) (src : ℕ) (s s' : KremlinProfiler) : Prop :=
  ∃ l t, s.link = some l ∧
    s'.callstack = l.callee :: { l.caller with table := some t } :: l.rest ∧
    Carried (Shared cfg fs) l.calleeT l.callerT t src l.caller.return_register

/-- The column of `max_level`. -/
def Config.lastColumn (cfg : Config) : ℕ := cfg.max_level - cfg.min_level

/-! ## §2. The copy. -/

section Copy

variable {cfg : Config} {fs : List OpenFrame} {source before after : Table} {src dest size : ℕ}

/-- What a copy has done, if it stayed within both arrays. -/
theorem Table.copyToDest_eq_some
    (h : source.copyToDest before dest src 0 size = some after) (hbefore : size ≤ before.col)
    (hsource : size ≤ source.col) :
    after.row = before.row ∧ after.col = before.col ∧ ∀ r c, c < before.col →
      after.entry r c = if r = dest ∧ c < size then source.entry src c else before.entry r c := by
  by_cases hsize : size = 0
  · have hsame : before = after := by
      unfold copyToDest at h
      rw [if_pos hsize] at h
      exact Option.some.inj h
    subst hsame
    refine ⟨rfl, rfl, fun r c _ => ?_⟩
    rw [if_neg (by omega)]
  · have hin := h
    unfold copyToDest at hin
    rw [if_neg hsize] at hin
    dsimp only at hin
    split at hin
    · next hbounds =>
        -- a row that starts inside the array is a row of the table
        have hrow : ∀ (t : Table) (r : ℕ), t.getOffset r 0 + size ≤ t.row * t.col → r < t.row := by
          intro t r hle
          have hlt : t.col * r < t.col * t.row := by
            have hle' : t.col * r + 0 + size ≤ t.row * t.col := hle
            rw [Nat.mul_comm t.col t.row]
            omega
          exact Nat.lt_of_mul_lt_mul_left hlt
        obtain ⟨t', ht', hspec⟩ := source.copyToDest_spec before dest src size
          (hrow before dest hbounds.2) (hrow source src hbounds.1) hbefore hsource
        rw [h, Option.some.injEq] at ht'
        rw [ht']
        exact hspec
    · cases hin

/-- **The copy of all columns but the last** carries the shared levels over exactly
if the callee is in the window or the last column needs no copy. -/
theorem carried_iff {num : ℕ} (hwin : cfg.min_level ≤ cfg.max_level)
    (hnum : num = if fs.length < cfg.min_level then 0
      else min cfg.max_level fs.length - cfg.min_level + 1)
    (hbefore : fs.length ≤ before.col) (hsource : fs.length ≤ source.col)
    (h : source.copyToDest before dest src 0 (num - 1) = some after) :
    Carried (Shared cfg fs) source before after src dest ↔
      fs.length ≤ cfg.max_level ∨
        before.entry dest cfg.lastColumn = source.entry src cfg.lastColumn := by
  -- the columns that are copied
  have hcopied : num - 1 = min cfg.max_level fs.length - cfg.min_level := by
    rw [hnum]
    split <;> omega
  obtain ⟨hrow, hcol, hentry⟩ :=
    Table.copyToDest_eq_some h (by omega) (by omega)
  have hothers : ∀ r ≠ dest, ∀ i < before.col, after.entry r i = before.entry r i := by
    intro r hr i hi
    rw [hentry r i hi, if_neg fun h => hr h.1]
  constructor
  · intro hcarried
    by_cases hinside : fs.length ≤ cfg.max_level
    · exact .inl hinside
    · -- the last column is shared, and has not been copied
      have hlast := hcarried.carried cfg.lastColumn (by unfold Shared Config.lastColumn; omega)
      rw [hentry dest _ (by unfold Config.lastColumn; omega),
        if_neg (by unfold Config.lastColumn; omega)] at hlast
      exact .inr hlast
  · intro hlast
    refine ⟨hrow, hcol, fun i hi => ?_, fun i hi hi' => ?_, hothers⟩
    · unfold Shared at hi
      rw [hentry dest i (by omega)]
      by_cases hlt : i < num - 1
      · rw [if_pos ⟨rfl, hlt⟩]
      · rw [if_neg fun h => hlt h.2]
        have hi' : i = cfg.lastColumn := by unfold Config.lastColumn; omega
        rw [hi']
        exact hlast.resolve_left (by omega)
    · unfold Shared at hi'
      rw [hentry dest i hi, if_neg (by omega)]

end Copy

/-! ## §3. Calls. -/

section Calls

variable {cfg : Config} {f : OpenFrame} {fs : List OpenFrame} {s s' : KremlinProfiler}

/-- Inside a function that has a caller, the tables reach all shared levels. -/
theorem LevelsFit.link (h : LevelsFit cfg (f :: fs) s) (hf : f.isFunc = true) (hfs : fs ≠ []) :
    ∃ l, s.link = some l ∧ s.callstack = l.callee :: l.caller :: l.rest ∧
      l.callee.table = some l.calleeT ∧ l.caller.table = some l.callerT ∧
      fs.length ≤ l.calleeT.col ∧ fs.length ≤ l.callerT.col := by
  obtain ⟨callee, caller, rest, hstack⟩ := h.hasCaller hf hfs
  obtain ⟨hcallee, -, -, hcaller⟩ := h.callTables hf hstack
  have htables := h.agree.tables
  rw [hstack] at htables
  obtain ⟨calleeT, ht⟩ := Option.isSome_iff_exists.mp (htables callee List.mem_cons_self)
  obtain ⟨callerT, hct⟩ := Option.isSome_iff_exists.mp
    (htables caller (List.mem_cons_of_mem _ List.mem_cons_self))
  rw [ht] at hcallee
  rw [hct] at hcaller
  refine ⟨⟨callee, caller, rest, calleeT, callerT⟩, ?_, hstack, ht, hct, Nat.le_of_lt hcallee,
    hcaller⟩
  simp only [KremlinProfiler.link, hstack, ht, hct, Option.bind_eq_bind, Option.bind_some]

/-- The instrumented levels in a function at level `fs.length`. -/
theorem LevelsFit.num_eq (h : LevelsFit cfg (f :: fs) s) :
    s.curr_num_instrumented_levels = if fs.length < cfg.min_level then 0
      else min cfg.max_level fs.length - cfg.min_level + 1 := by
  have hlevel := (show Tracks (f.key :: fs.map OpenFrame.key) s from h.agree.tracks).level_cons
  rw [List.length_map] at hlevel
  rw [(h.agree.status (List.cons_ne_nil f fs)).2, hlevel]

/-- What `handleDequeueArgument` leaves. -/
theorem handleDequeueArgument_eq_some {l : Link} {dest : ℕ} (hon : s.enabled = true)
    (hlink : s.callstack = l.callee :: l.caller :: l.rest) (ht : l.callee.table = some l.calleeT)
    (hct : l.caller.table = some l.callerT) (harg : s.frontArgument ≠ DUMMY_ARG)
    (hstep : handleDequeueArgument dest s = some s') :
    ∃ t, l.callerT.copyToDest l.calleeT dest s.frontArgument 0
        (s.curr_num_instrumented_levels - 1) = some t ∧
      s'.callstack = { l.callee with table := some t } :: l.caller :: l.rest := by
  unfold handleDequeueArgument at hstep
  rw [if_pos hon, functionArgQueuePopFront] at hstep
  split at hstep
  · rw [Option.bind_eq_bind, Option.bind_some] at hstep
    dsimp only at hstep
    by_cases hnum : s.curr_num_instrumented_levels > 0
    · rw [if_pos ⟨harg, hnum⟩] at hstep
      simp only [getCallingFunction, getCurrentFunction, hlink, ht, hct, List.head?_cons,
        Option.bind_eq_bind, Option.bind_some, Option.bind_eq_some_iff] at hstep
      obtain ⟨t, hcopy, hs'⟩ := hstep
      refine ⟨t, hcopy, ?_⟩
      rw [← Option.some.inj hs', setCurrentFunction]
    · rw [if_neg fun hand => hnum hand.2] at hstep
      refine ⟨l.calleeT, if_pos (by omega), ?_⟩
      rw [← Option.some.inj hstep, table_self ht]
      exact hlink
  · cases hstep

/-- What `handleReturn` leaves. -/
theorem handleReturn_eq_some {l : Link} {src : ℕ} (hon : s.enabled = true)
    (hlink : s.callstack = l.callee :: l.caller :: l.rest) (ht : l.callee.table = some l.calleeT)
    (hct : l.caller.table = some l.callerT) (hstep : handleReturn src s = some s') :
    ∃ t, l.calleeT.copyToDest l.callerT l.caller.return_register src 0
        (s.curr_num_instrumented_levels - 1) = some t ∧
      s'.callstack = l.callee :: { l.caller with table := some t } :: l.rest := by
  unfold handleReturn at hstep
  rw [if_pos hon] at hstep
  simp only [getCallingFunction, getCurrentFunction, hlink, List.head?_cons, Option.bind_eq_bind,
    Option.bind_some] at hstep
  by_cases hsize : s.curr_num_instrumented_levels - 1 > 0
  · rw [if_pos hsize] at hstep
    simp only [ht, hct, Option.bind_some, Option.bind_eq_some_iff] at hstep
    obtain ⟨t, hcopy, hs'⟩ := hstep
    refine ⟨t, hcopy, ?_⟩
    rw [← Option.some.inj hs', setCallingFunction, hlink]
  · rw [if_neg hsize] at hstep
    refine ⟨l.callerT, if_pos (by omega), ?_⟩
    rw [← Option.some.inj hstep, table_self hct]
    exact hlink

/-- **Taking an argument.** -/
theorem LevelsFit.argumentCarried_iff {dest : ℕ} (hwin : cfg.min_level ≤ cfg.max_level)
    (h : LevelsFit cfg (f :: fs) s) (hf : f.isFunc = true) (hfs : fs ≠ [])
    (harg : s.frontArgument ≠ DUMMY_ARG) (hstep : step cfg s (.deqArg dest) = some s') :
    ArgumentCarried cfg fs dest s s' ↔ fs.length ≤ cfg.max_level ∨ ∃ l, s.link = some l ∧
      l.calleeT.entry dest cfg.lastColumn = l.callerT.entry s.frontArgument cfg.lastColumn := by
  obtain ⟨l, hlink, hstack, ht, hct, hcallee, hcaller⟩ := h.link hf hfs
  obtain ⟨t, hcopy, hstack'⟩ :=
    handleDequeueArgument_eq_some h.agree.tracks.enabled hstack ht hct harg hstep
  have hiff := carried_iff hwin h.num_eq hcallee hcaller hcopy
  constructor
  · intro hcarried
    obtain ⟨l', t', hlink', hstack'', hcarried⟩ := hcarried
    rw [hlink, Option.some.injEq] at hlink'
    subst hlink'
    rw [hstack', List.cons.injEq] at hstack''
    obtain rfl := Option.some.inj (congrArg FunctionRegion.table hstack''.1)
    exact (hiff.mp hcarried).imp_right fun hlast => ⟨l, hlink, hlast⟩
  · intro hlast
    refine ⟨l, t, hlink, hstack', hiff.mpr (hlast.imp_right fun hlast => ?_)⟩
    obtain ⟨l', hlink', hlast⟩ := hlast
    rw [hlink, Option.some.injEq] at hlink'
    rw [hlink']
    exact hlast

/-- **Returning a value.** -/
theorem LevelsFit.returnCarried_iff {src : ℕ} (hwin : cfg.min_level ≤ cfg.max_level)
    (h : LevelsFit cfg (f :: fs) s) (hf : f.isFunc = true) (hfs : fs ≠ [])
    (hstep : step cfg s (.ret src) = some s') :
    ReturnCarried cfg fs src s s' ↔ fs.length ≤ cfg.max_level ∨ ∃ l, s.link = some l ∧
      l.callerT.entry l.caller.return_register cfg.lastColumn
        = l.calleeT.entry src cfg.lastColumn := by
  obtain ⟨l, hlink, hstack, ht, hct, hcallee, hcaller⟩ := h.link hf hfs
  obtain ⟨t, hcopy, hstack'⟩ := handleReturn_eq_some h.agree.tracks.enabled hstack ht hct hstep
  have hiff := carried_iff hwin h.num_eq hcaller hcallee hcopy
  constructor
  · intro hcarried
    obtain ⟨l', t', hlink', hstack'', hcarried⟩ := hcarried
    rw [hlink, Option.some.injEq] at hlink'
    subst hlink'
    rw [hstack', List.cons.injEq, List.cons.injEq] at hstack''
    obtain rfl := Option.some.inj (congrArg FunctionRegion.table hstack''.2.1)
    exact (hiff.mp hcarried).imp_right fun hlast => ⟨l, hlink, hlast⟩
  · intro hlast
    refine ⟨l, t, hlink, hstack', hiff.mpr (hlast.imp_right fun hlast => ?_)⟩
    obtain ⟨l', hlink', hlast⟩ := hlast
    rw [hlink, Option.some.injEq] at hlink'
    rw [hlink']
    exact hlast

end Calls

/-! ## §4. Runs. -/

/-- The levels fit all along a well-formed run. -/
theorem LevelsFit.of_run {cfg : Config} {events : List RegionEvent} {nextVersion : ℕ}
    {x : List OpenFrame × KremlinProfiler} (hwin : cfg.min_level ≤ cfg.max_level)
    (hwf : RunOk (stackJoint cfg) WellFormed ([], init cfg nextVersion) events)
    (hrun : run (stackJoint cfg) ([], init cfg nextVersion) events = some x) :
    LevelsFit cfg x.1 x.2 :=
  run_invariant_of (P := fun x => LevelsFit cfg x.1 x.2)
    (fun _ _ _ h hok hstep => h.joint hwin hok hstep) (levelsFit_init cfg nextVersion) hwf hrun

/-- **Where a call and a return carry all shared levels over**, in every state of a
well-formed run: where the callee is in the window, and below it where the two
registers agree at `max_level` already. -/
theorem call_copies_iff (cfg : Config) (hwin : cfg.min_level ≤ cfg.max_level) (nextVersion : ℕ)
    (events : List RegionEvent) (f : OpenFrame) (fs : List OpenFrame) (s s' : KremlinProfiler)
    (hwf : RunOk (stackJoint cfg) WellFormed ([], init cfg nextVersion) events)
    (hrun : run (stackJoint cfg) ([], init cfg nextVersion) events = some (f :: fs, s))
    (hf : f.isFunc = true) (hfs : fs ≠ []) :
    (∀ dest, s.frontArgument ≠ DUMMY_ARG → step cfg s (.deqArg dest) = some s' →
      (ArgumentCarried cfg fs dest s s' ↔ fs.length ≤ cfg.max_level ∨ ∃ l, s.link = some l ∧
        l.calleeT.entry dest cfg.lastColumn = l.callerT.entry s.frontArgument cfg.lastColumn)) ∧
    ∀ src, step cfg s (.ret src) = some s' →
      (ReturnCarried cfg fs src s s' ↔ fs.length ≤ cfg.max_level ∨ ∃ l, s.link = some l ∧
        l.callerT.entry l.caller.return_register cfg.lastColumn
          = l.calleeT.entry src cfg.lastColumn) := by
  have hfit : LevelsFit cfg (f :: fs) s := LevelsFit.of_run hwin hwf hrun
  exact ⟨fun _ harg hstep => hfit.argumentCarried_iff hwin hf hfs harg hstep,
    fun _ hstep => hfit.returnCarried_iff hwin hf hfs hstep⟩

/-- `main` calls a function, which computes register 1 and passes it on. -/
def passDown : List RegionEvent :=
  [.enterFunction 1 3 0, .call (.prepCall 1 2), .enterFunction 2 3 0,
   .call (.instr (.timestamp1 1 (0, 5))), .call (.prepCall 2 3), .call (.enqArg 1),
   .enterFunction 3 3 0]

/-- The open regions, the argument, and at level 1 the times of the parameter and
of the argument, where the argument can be taken. -/
def aboutToTake (cfg : Config) (x : List OpenFrame × KremlinProfiler) :
    Option (List Bool × ℕ × ℕ × ℕ) :=
  (step cfg x.2 (.deqArg 2)).bind fun _ => x.2.link.map fun l =>
    (x.1.map OpenFrame.isFunc, x.2.frontArgument, l.calleeT.entry 2 1, l.callerT.entry 1 1)

/-- The example's state, read off the run. -/
theorem aboutToTake_eq_some (cfg : Config) (events : List RegionEvent) (arg a b : ℕ)
    (h : (run (stackJoint cfg) ([], init cfg 0) events).bind (aboutToTake cfg)
      = some ([true, true, true], arg, a, b)) :
    ∃ f fs s s' l, run (stackJoint cfg) ([], init cfg 0) events = some (f :: fs, s) ∧
      f.isFunc = true ∧ fs.length = 2 ∧ step cfg s (.deqArg 2) = some s' ∧
      s.frontArgument = arg ∧ s.link = some l ∧ l.calleeT.entry 2 1 = a ∧
      l.callerT.entry 1 1 = b := by
  obtain ⟨⟨frames, s⟩, hrun, htake⟩ := Option.bind_eq_some_iff.mp h
  obtain ⟨s', hstep, hlink⟩ := Option.bind_eq_some_iff.mp htake
  obtain ⟨l, hl, heq⟩ := Option.map_eq_some_iff.mp hlink
  simp only [Prod.mk.injEq] at heq
  obtain ⟨hframes, harg, ha, hb⟩ := heq
  cases frames with
  | nil => cases hframes
  | cons f fs =>
      rw [List.map_cons, List.cons.injEq] at hframes
      have hlen := congrArg List.length hframes.2
      rw [List.length_map] at hlen
      exact ⟨f, fs, s, s', l, hrun, hframes.1, hlen, hstep, harg, hl, ha, hb⟩

/-- A callee in the window. -/
theorem call_copies_iff_inside :
    ∃ fs s s', step { min_level := 0, max_level := 63 } s (.deqArg 2) = some s' ∧
      ArgumentCarried { min_level := 0, max_level := 63 } fs 2 s s' := by
  obtain ⟨f, fs, s, s', l, hrun, hf, hlen, hstep, harg, -, -, -⟩ :=
    aboutToTake_eq_some { min_level := 0, max_level := 63 } passDown 1 0 5 (by decide +kernel)
  have hfs : fs ≠ [] := by
    rintro rfl
    cases hlen
  have hiff := (call_copies_iff { min_level := 0, max_level := 63 } (by decide) 0 passDown f fs s s'
    (by decide +kernel) hrun hf hfs).1 2 (by rw [harg]; decide) hstep
  exact ⟨fs, s, s', hstep, hiff.mpr (.inl (by rw [hlen]; decide))⟩

/-- With `max_level` 1 the callee is below the window.  Its parameter does not get
the 5 the argument has at level 1. -/
theorem not_call_copies :
    (run (stackJoint { min_level := 0, max_level := 1 })
        ([], init { min_level := 0, max_level := 1 } 0) (passDown ++ [.call (.deqArg 2)])).bind
      (fun x => x.2.link.map fun l =>
        (l.calleeT.getValue 2 0, l.calleeT.getValue 2 1, l.callerT.getValue 1 1))
      = some (some 5, some 0, some 5) ∧
    ¬ ∀ (cfg : Config) (events : List RegionEvent) f fs s s' dest,
      cfg.min_level ≤ cfg.max_level →
      RunOk (stackJoint cfg) WellFormed ([], init cfg 0) events →
      run (stackJoint cfg) ([], init cfg 0) events = some (f :: fs, s) →
      f.isFunc = true → fs ≠ [] → s.frontArgument ≠ DUMMY_ARG →
      step cfg s (.deqArg dest) = some s' → ArgumentCarried cfg fs dest s s' := by
  refine ⟨by decide +kernel, fun hclaim => ?_⟩
  obtain ⟨f, fs, s, s', l, hrun, hf, hlen, hstep, harg, hlink, hparam, hcaller⟩ :=
    aboutToTake_eq_some { min_level := 0, max_level := 1 } passDown 1 0 5 (by decide +kernel)
  have hfs : fs ≠ [] := by
    rintro rfl
    cases hlen
  have hwf : RunOk (stackJoint { min_level := 0, max_level := 1 }) WellFormed
      ([], init { min_level := 0, max_level := 1 } 0) passDown := by decide +kernel
  have hfit := LevelsFit.of_run (by decide) hwf hrun
  have hcarried := hclaim _ _ f fs s s' 2 (by decide) hwf hrun hf hfs (by rw [harg]; decide) hstep
  rcases (hfit.argumentCarried_iff (by decide) hf hfs (by rw [harg]; decide) hstep).mp hcarried
    with hinside | ⟨l', hlink', hlast⟩
  · rw [hlen] at hinside
    exact absurd hinside (by decide)
  · rw [hlink, Option.some.injEq] at hlink'
    subst hlink'
    -- column 1 is the last one
    have hlast : l.calleeT.entry 2 1 = l.callerT.entry s.frontArgument 1 := hlast
    rw [harg, hparam, hcaller] at hlast
    cases hlast

end Kremlin.Runtime
