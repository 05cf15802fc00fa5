/-
  Kremlin.Runtime.WorkConservation — no region does less work than its children.

  Only `_KWork` advances the clock, and a region's work is the time between its
  entry and its exit.  Whatever the window, and however regions are left, the
  contexts a run has closed are a `Profile`: the work of an instance is at least
  that of its direct child instances together.  Of the contexts still open the
  same holds for what was closed inside them (`Spent`).
-/
import Kremlin.Runtime.ParallelStacks
import Kremlin.Runtime.RegionTreeWork
import Kremlin.Runtime.Untouched

namespace Kremlin.Runtime

open Kremlin.Library

/-! ## §1. Closed and open contexts. -/

/-- Instances side by side. -/
theorem Profile.append {calls calls' : List TreeCall} {w w' : ℕ} (h : Profile calls w)
    (h' : Profile calls' w') : Profile (calls ++ calls') (w + w') := by
  induction h with
  | nil => rwa [Nat.zero_add]
  | @block sid cid type stats inner rest w₁ w₂ hinner hle _ _ ih =>
      rw [List.append_assoc, List.cons_append, Nat.add_assoc]
      exact Profile.block sid cid type stats hinner hle ih

/-- The calls so far, made after `before`, a time `since`, when the contexts entered
at `starts` (innermost first) are open and the time is `now`: what was closed inside
a context took place after it was entered. -/
def Spent (before : List TreeCall) (since : ℕ) :
    (now : ℕ) → (starts : List ℕ) → List TreeCall → Prop
  | now, [], calls =>
      ∃ inner w, calls = before ++ inner ∧ Profile inner w ∧ since + w ≤ now
  | now, start :: starts, calls =>
      ∃ outer sid cid type inner w, calls = outer ++ .openCtx sid cid type :: inner ∧
        Profile inner w ∧ start + w ≤ now ∧ Spent before since start starts outer

section Contexts

variable {before : List TreeCall} {since now now' : ℕ} {starts : List ℕ} {calls : List TreeCall}

/-- Time passes. -/
theorem Spent.later (h : Spent before since now starts calls) (hle : now ≤ now') :
    Spent before since now' starts calls := by
  cases starts with
  | nil =>
      obtain ⟨inner, w, heq, hw, hnow⟩ := h
      exact ⟨inner, w, heq, hw, Nat.le_trans hnow hle⟩
  | cons start starts =>
      obtain ⟨outer, sid, cid, type, inner, w, heq, hw, hnow, houter⟩ := h
      exact ⟨outer, sid, cid, type, inner, w, heq, hw, Nat.le_trans hnow hle, houter⟩

/-- A context is opened. -/
theorem Spent.openCtx (h : Spent before since now starts calls) (sid : SID) (cid : CID)
    (type : RegionType) :
    Spent before since now (now :: starts) (calls ++ [.openCtx sid cid type]) :=
  ⟨calls, sid, cid, type, [], 0, rfl, .nil, Nat.le_refl now, h⟩

/-- The innermost context was entered in the past. -/
theorem Spent.start_le {start : ℕ} (h : Spent before since now (start :: starts) calls) :
    start ≤ now := by
  obtain ⟨_, _, _, _, _, w, -, -, hnow, -⟩ := h
  omega

/-- **A context is closed**, with the time since it was entered for its work. -/
theorem Spent.closeCtx {start : ℕ} {stats : RegionStats}
    (h : Spent before since now (start :: starts) calls) (hwork : stats.work = now - start) :
    Spent before since now starts (calls ++ [.closeCtx stats]) := by
  obtain ⟨outer, sid, cid, type, inner, w, rfl, hinner, hnow, houter⟩ := h
  have hblock : Profile (.openCtx sid cid type :: inner ++ [.closeCtx stats]) (stats.work + 0) :=
    .block sid cid type stats hinner (by omega) .nil
  -- the context around it had something inside so far, and now has this instance too
  cases starts with
  | nil =>
      obtain ⟨inner', v, rfl, hv, hstart⟩ := houter
      refine ⟨inner' ++ (.openCtx sid cid type :: inner ++ [.closeCtx stats]),
        v + (stats.work + 0), ?_, hv.append hblock, by omega⟩
      simp
  | cons start' starts =>
      obtain ⟨outer', sid', cid', type', inner', v, rfl, hv, hstart, houter'⟩ := houter
      refine ⟨outer', sid', cid', type', inner' ++ (.openCtx sid cid type :: inner ++
        [.closeCtx stats]), v + (stats.work + 0), ?_, hv.append hblock, by omega, houter'⟩
      simp

end Contexts

/-! ## §2. The clock. -/

namespace KremlinProfiler

variable {cfg : Config} {summarize : Bool} {fs : List OpenFrame} {s s' : KremlinProfiler}
  {e : Event}

/-- The clock shows the same. -/
def SameClock (s s' : KremlinProfiler) : Prop := s'.curr_time = s.curr_time

theorem SameClock.refl (s : KremlinProfiler) : SameClock s s := rfl

theorem SameClock.trans {s₁ s₂ s₃ : KremlinProfiler} (h : SameClock s₁ s₂)
    (h' : SameClock s₂ s₃) : SameClock s₁ s₃ := Eq.trans h' h

theorem handleRegionEntry_sameClock {id : SID} {ty : RegionType}
    (h : handleRegionEntry cfg id ty s = some s') : SameClock s s' := by
  refine enabled_gate (.refl s) h fun h => ?_
  dsimp only at h
  rw [grow_eq] at h
  simp only [Option.bind_eq_bind, Option.bind_eq_some_iff] at h
  obtain ⟨-, -, s₁, hissue, s₂, h₂, h₃⟩ := h
  unfold issueVersionToLevel at hissue
  split at hissue
  · cases hissue
    have hregisters := (enterRegisters_untouched h₂).clock
    have hcdeps := (enterControlDependences_untouched h₃).clock
    exact Eq.trans hcdeps hregisters
  · cases hissue

theorem closeDeepest_sameClock {ty : RegionType} (h : s.closeDeepest cfg ty = some s') :
    SameClock s s' := by
  obtain ⟨-, f, rest, -, rfl⟩ := closeDeepest_eq_some h
  rfl

theorem closeDownTo_sameClock {level : ℕ} : ∀ {fuel : ℕ} {s : KremlinProfiler},
    s.closeDownTo cfg level fuel = some s' → SameClock s s' := by
  intro fuel
  induction fuel with
  | zero =>
      intro s h
      unfold closeDownTo at h
      split at h
      · cases h
      · cases h
        rfl
  | succ fuel ih =>
      intro s h
      unfold closeDownTo at h
      split at h
      · simp only [Option.bind_eq_bind, Option.bind_eq_some_iff, unwindDeepest_eq] at h
        obtain ⟨s₁, ⟨region, -, h₁⟩, h₂⟩ := h
        exact (closeDeepest_sameClock h₁).trans (ih h₂)
      · cases h
        rfl

/-- The work an event charges. -/
def charged : Event → ℕ
  | .work amount => amount
  | _ => 0

/-- **Only `_KWork` advances the clock.** -/
theorem step_clock (h : step cfg s e = some s') : s'.curr_time = s.curr_time + charged e := by
  cases e with
  | work amount =>
      cases h
      rfl
  | enterRegion id ty => exact handleRegionEntry_sameClock h
  | exitRegion id ty => exact enabled_gate (R := SameClock) (.refl s) h closeDeepest_sameClock
  | landingPad id ty =>
      refine enabled_gate (R := SameClock) (.refl s) h fun h => ?_
      rw [Option.bind_eq_bind, Option.bind_eq_some_iff] at h
      obtain ⟨level, -, h⟩ := h
      exact closeDownTo_sameClock h
  | store r a size | storeConst a size =>
      exact enabled_gate (R := SameClock) (.refl s) h fun h => (timestampUpdaterStore_untouched h).clock
  | prepCall c r | enqArg arg | enqArgConst | deqArg dest => exact (step_sameWindow h trivial).clock
  | instr i | pushCDep cond | popCDep | prepRTable n d | linkReturn r | ret r | retConst =>
      exact (step_untouched h trivial).clock

/-- The cleanup takes no time. -/
theorem cleanupFrom_clock : ∀ {i : ℕ} {s : KremlinProfiler}, cleanupFrom cfg i s = some s' →
    s'.curr_time = s.curr_time := by
  intro i
  induction i with
  | zero =>
      intro s h
      cases h
      rfl
  | succ i ih =>
      intro s h
      simp only [cleanupFrom, Option.bind_eq_bind, Option.bind_eq_some_iff] at h
      obtain ⟨region, -, s₁, hexit, h⟩ := h
      have h₁ : s₁.curr_time = s.curr_time :=
        step_clock (show step cfg s (.exitRegion region.regionId region.regionType) = some s₁ from hexit)
      exact (ih h).trans h₁

/-- The clock never goes back. -/
theorem regionStep_clock {e : RegionEvent} (h : regionStep cfg s e = some s') :
    s.curr_time ≤ s'.curr_time := by
  cases e with
  | enterFunction id n d =>
      obtain ⟨s₁, h₁, hprep⟩ := run_cons_eq_some.mp h
      obtain ⟨s₂, h₂, hend⟩ := run_cons_eq_some.mp hprep
      obtain rfl := Option.some.inj hend
      rw [step_clock h₂, step_clock h₁]
      exact Nat.le_refl _
  | call e =>
      rw [step_clock (show step cfg s e = some s' from h)]
      exact Nat.le_add_right _ _
  | cleanup => exact Nat.le_of_eq (cleanupFrom_clock h).symm

/-! ## §3. Runs. -/

section Runs

variable {before : List TreeCall} {since : ℕ} {fs₀ : List OpenFrame}

/-- What the calls made since `before` say about the regions `fs`, opened since. -/
def SpentIn (before : List TreeCall) (since : ℕ) (fs : List OpenFrame) (s : KremlinProfiler) :
    Prop :=
  Spent before since s.curr_time (fs.map OpenFrame.start) s.treeCalls

/-- The region tree is told of an entry. -/
theorem handleRegionEntry_treeCalls {id : SID} {ty : RegionType}
    (h : StacksAgree cfg summarize fs s) (hentry : handleRegionEntry cfg id ty s = some s') :
    ∃ cid, s'.treeCalls = s.treeCalls ++ [.openCtx id cid ty] := by
  have hcap : nextLevel s.curr_level ≤ s.num_regions := by
    rw [h.nextLevel_eq]
    exact List.length_map OpenFrame.key ▸ h.tracks.capacity
  obtain ⟨s₁, cdeps, base, hfunc, hloop, rfl, -, -⟩ :=
    handleRegionEntry_eq_some h.tracks.enabled hcap h.tracks.nonempty hentry
  refine ⟨s₁.contextCallSite, ?_⟩
  show s₁.treeCalls ++ _ = _
  by_cases hty : ty = .regionFunc
  · rw [hfunc hty]
    rfl
  · rw [(hloop hty).tree]
    rfl

/-- **Entering a region** opens a context now. -/
theorem SpentIn.enter {id : SID} {ty : RegionType} {cid : CID} {d : ℕ}
    (hspent : SpentIn before since fs s) (h : StacksAgree cfg summarize (fs ++ fs₀) s)
    (hentry : handleRegionEntry cfg id ty s = some s') :
    SpentIn before since (⟨(id, ty), s.curr_time, cid, d⟩ :: fs) s' := by
  obtain ⟨site, htree⟩ := handleRegionEntry_treeCalls h hentry
  have hclock : s'.curr_time = s.curr_time := handleRegionEntry_sameClock hentry
  unfold SpentIn
  rw [htree, hclock]
  exact Spent.openCtx hspent id site ty

/-- The work of the innermost region. -/
theorem deepestWork_eq {f : OpenFrame} (h : StacksAgree cfg summarize (f :: fs) s)
    (hle : f.start ≤ s.curr_time) : s.deepestWork = s.curr_time - f.start := by
  have hlevel : s.curr_level = fs.length := by
    have := (show Tracks (f.key :: fs.map OpenFrame.key) s from h.tracks).level_cons
    rwa [List.length_map] at this
  unfold deepestWork
  rw [hlevel, h.regions.2.1]
  exact usub_of_le hle

/-- **Leaving the innermost region** closes its context with the time since. -/
theorem SpentIn.exit {f : OpenFrame} {g : FunctionRegion} {rest : List FunctionRegion}
    (hspent : SpentIn before since (f :: fs) s)
    (h : StacksAgree cfg summarize (f :: fs ++ fs₀) s) :
    SpentIn before since fs (closed cfg f.key.2 g rest s) :=
  Spent.closeCtx hspent (deepestWork_eq
    (show StacksAgree cfg summarize (f :: (fs ++ fs₀)) s from h) (Spent.start_le hspent))

/-- Several exits, one after the other. -/
theorem SpentIn.exits (ks : List OpenFrame) {s s' : KremlinProfiler}
    (hspent : SpentIn before since (ks ++ fs) s)
    (h : StacksAgree cfg summarize (ks ++ fs ++ fs₀) s)
    (hrun : run (step cfg) s (ks.map fun f => exitOf f.key) = some s') :
    SpentIn before since fs s' := by
  -- the induction is on the regions left
  induction ks generalizing s with
  | nil =>
      obtain rfl := Option.some.inj hrun
      exact hspent
  | cons k ks ih =>
      obtain ⟨g, rest, -, hstep, hagree⟩ := StacksAgree.exit
        (show StacksAgree cfg summarize (k :: (ks ++ fs ++ fs₀)) s from h)
      rw [List.map_cons] at hrun
      obtain ⟨s₁, h₁, hrun⟩ := run_cons_eq_some.mp hrun
      obtain rfl := Option.some.inj (hstep.symm.trans h₁)
      have hspent : SpentIn before since (k :: (ks ++ fs)) s := hspent
      exact ih (hspent.exit h) hagree hrun

/-- **One event** that leaves none of the regions `fs₀`. -/
theorem SpentIn.joint {fs' : List OpenFrame} {e : RegionEvent}
    (hspent : SpentIn before since fs s) (h : StacksAgree cfg summarize (fs ++ fs₀) s)
    (hstep : stackJoint cfg (fs ++ fs₀, s) e = some (fs', s')) (hlen : fs₀.length ≤ fs'.length) :
    ∃ fs₁, fs' = fs₁ ++ fs₀ ∧ SpentIn before since fs₁ s' := by
  have hmove := h.stackMove hstep
  have hclock : s.curr_time ≤ s'.curr_time := by
    simp only [stackJoint, Option.bind_eq_bind, Option.bind_eq_some_iff, Option.some.injEq] at hstep
    obtain ⟨fs₂, -, s₂, hprof, heq⟩ := hstep
    obtain rfl := (Prod.mk.inj heq).2
    exact regionStep_clock hprof
  -- the cases are about any stack, so the shape of this one is put in an equation
  generalize hfs : fs ++ fs₀ = all at hmove
  dsimp only at hmove
  cases hmove with
  | enterFunction id n d _ hrun =>
      obtain ⟨s₁, h₁, hprep⟩ := run_cons_eq_some.mp hrun
      obtain ⟨s₂, h₂, hend⟩ := run_cons_eq_some.mp hprep
      obtain rfl := Option.some.inj hend
      have hsp : SpentIn before since
          (⟨(id, .regionFunc), s.curr_time, s.last_callsite_id, d⟩ :: fs) s₁ := hspent.enter h h₁
      have hlevels := h.tracks.enterRegion (fun hf => hf.2 rfl) h₁
      obtain ⟨f, rest, -, rfl⟩ := handlePrepRTable_eq_some hlevels.enabled h₂
      exact ⟨_ :: fs, congrArg _ hfs.symm, hsp⟩
  | enterRegion id ty _ hfirst hentry =>
      exact ⟨_ :: fs, congrArg _ hfs.symm, hspent.enter h hentry⟩
  | leave _ ks _ _ hleft hrun =>
      -- what is left is no longer than `fs`, as `fs₀` stays
      obtain ⟨fs₁, rfl⟩ : ∃ fs₁, fs = ks ++ fs₁ := by
        have hks : ks <+: fs ++ fs₀ := ⟨fs', by rw [hfs, hleft]⟩
        have hle : ks.length ≤ fs.length := by
          have := congrArg List.length (hfs.trans hleft)
          rw [List.length_append, List.length_append] at this
          omega
        obtain ⟨fs₁, hfs₁⟩ := List.prefix_of_prefix_length_le hks (List.prefix_append fs fs₀) hle
        exact ⟨fs₁, hfs₁.symm⟩
      refine ⟨fs₁, ?_, SpentIn.exits ks hspent h hrun⟩
      rw [List.append_assoc] at hfs
      exact (List.append_cancel_left (hfs.trans hleft)).symm
  | setCDeps => exact ⟨fs, hfs.symm, hspent⟩
  | stay _ _ hsame =>
      refine ⟨fs, hfs.symm, ?_⟩
      unfold SpentIn
      rw [hsame.tree]
      exact Spent.later hspent hclock

end Runs

/-- **The calls of every reachable state.** -/
theorem spentIn_of_run {events : List RegionEvent} {nextVersion : ℕ}
    (h : run (stackJoint cfg) ([], init cfg nextVersion) events = some (fs, s)) :
    SpentIn [] 0 fs s := by
  have hstart : SpentIn [] 0 [] (init cfg nextVersion) := ⟨[], 0, rfl, .nil, Nat.le_refl 0⟩
  refine (run_invariant (P := fun x => StacksAgree cfg true x.1 x.2 ∧ SpentIn [] 0 x.1 x.2)
    (fun x _ x' hx hstep => ⟨hx.1.joint hstep, ?_⟩)
    ⟨stacksAgree_init cfg true nextVersion, hstart⟩ h).2
  have hagree : StacksAgree cfg true (x.1 ++ []) x.2 := by
    rw [List.append_nil]
    exact hx.1
  obtain ⟨fs₁, heq, hspent⟩ := hx.2.joint hagree (by rw [List.append_nil]; exact hstep)
    (Nat.zero_le _)
  rw [List.append_nil] at heq
  rw [heq]
  exact hspent

/-- **Work is conserved.**  In any window, and with regions left by exits, landing
pads or the end of the program, a run that has left all its regions has told the
region tree of contexts none of which did less work than its direct child
contexts together, and the outermost ones did no more than the program. -/
theorem work_conserved (cfg : Config) (nextVersion : ℕ) {events : List RegionEvent}
    (hrun : run (stackJoint cfg) ([], init cfg nextVersion) events = some ([], s)) :
    ∃ w, Profile s.treeCalls w ∧ w ≤ s.curr_time := by
  obtain ⟨inner, w, heq, hprofile, hle⟩ := spentIn_of_run hrun
  rw [Nat.zero_add] at hle
  exact ⟨w, heq ▸ hprofile, hle⟩

/-- A landing pad leaves two functions, and the end of the program the other two. -/
theorem work_conserved_unwind :
    ∃ s w, run (stackJoint { min_level := 0, max_level := 32 })
        ([], init { min_level := 0, max_level := 32 } 0) (unwindAndCall ++ [.cleanup])
          = some ([], s) ∧ Profile s.treeCalls w ∧ w ≤ s.curr_time := by
  have hrun : (run (stackJoint { min_level := 0, max_level := 32 })
      ([], init { min_level := 0, max_level := 32 } 0) (unwindAndCall ++ [.cleanup])).map Prod.fst
      = some [] := by decide +kernel
  obtain ⟨⟨fs, s⟩, hs, hfs⟩ := Option.map_eq_some_iff.mp hrun
  obtain rfl : fs = [] := hfs
  obtain ⟨w, hw, hle⟩ := work_conserved { min_level := 0, max_level := 32 } 0 hs
  exact ⟨s, w, hs, hw, hle⟩

/-! ## §4. One `main`. -/

/-- `main` is open, and the calls since it was entered say what is open in it. -/
def InMain (id : SID) (x : List OpenFrame × KremlinProfiler) : Prop :=
  ∃ cid main fs, x.1 = fs ++ [main] ∧ main.start = 0 ∧
    SpentIn [.openCtx id cid .regionFunc] 0 fs x.2

/-- `main` was the one outermost context, and has the whole time for its work. -/
def WholeMain (id : SID) (s : KremlinProfiler) : Prop :=
  ∃ cid stats inner w, s.treeCalls = .openCtx id cid .regionFunc :: inner ++ [.closeCtx stats] ∧
    Profile inner w ∧ w ≤ stats.work ∧ stats.work = s.curr_time

/-- The program starts with a call of `main`. -/
theorem inMain_start {nextVersion n d : ℕ} {id : SID} {x : List OpenFrame × KremlinProfiler}
    (h : stackJoint cfg ([], init cfg nextVersion) (.enterFunction id n d) = some x) :
    InMain id x := by
  simp only [stackJoint, stackStep, Option.bind_eq_bind, Option.bind_some, Option.bind_eq_some_iff,
    Option.some.injEq] at h
  obtain ⟨s, hprof, rfl⟩ := h
  obtain ⟨s₁, h₁, hprep⟩ := run_cons_eq_some.mp hprof
  obtain ⟨s₂, h₂, hend⟩ := run_cons_eq_some.mp hprep
  obtain rfl := Option.some.inj hend
  have hagree : StacksAgree cfg true [] (init cfg nextVersion) := stacksAgree_init cfg true nextVersion
  obtain ⟨cid, htree⟩ := handleRegionEntry_treeCalls hagree h₁
  have hlevels := hagree.tracks.enterRegion (fun hf => hf.2 rfl) h₁
  obtain ⟨f, rest, -, rfl⟩ := handlePrepRTable_eq_some hlevels.enabled h₂
  exact ⟨cid, _, [], rfl, rfl, [], 0, htree, .nil, Nat.zero_le _⟩

/-- **`main` is left**, by whatever leaves it. -/
theorem InMain.left {id : SID} {x : List OpenFrame × KremlinProfiler} {e : RegionEvent}
    (hx : InMain id x) (h : StacksAgree cfg true x.1 x.2)
    (hstep : stackJoint cfg x e = some ([], s')) : WholeMain id s' := by
  obtain ⟨cid, main, fs, hfs, hstart, hspent⟩ := hx
  obtain ⟨all, s⟩ := x
  dsimp only at hfs h hspent
  subst hfs
  have hmove := h.stackMove hstep
  generalize hall : fs ++ [main] = all at hmove
  generalize hnil : (([], s') : List OpenFrame × KremlinProfiler).1 = fs' at hmove
  have hne : all ≠ [] := by
    rw [← hall]
    exact List.append_ne_nil_of_right_ne_nil _ (List.cons_ne_nil _ _)
  -- only what leaves regions can leave none
  cases hmove with
  | enterFunction id n d _ hrun => exact absurd hnil.symm (List.cons_ne_nil _ _)
  | enterRegion id ty _ hfirst hentry => exact absurd hnil.symm (List.cons_ne_nil _ _)
  | setCDeps => exact absurd hnil.symm hne
  | stay _ _ hsame => exact absurd hnil.symm hne
  | leave _ ks _ _ hleft hrun =>
      have hks : ks = fs ++ [main] := by
        rw [hall, hleft, ← hnil, List.append_nil]
      rw [hks, List.map_append, List.map_singleton] at hrun
      obtain ⟨s₁, hfs, hlast⟩ := run_append_eq_some.mp hrun
      have hspent₁ : SpentIn [.openCtx id cid .regionFunc] 0 [] s₁ :=
        SpentIn.exits fs (by rw [List.append_nil]; exact hspent)
          (show StacksAgree cfg true (fs ++ [] ++ [main]) s by rw [List.append_nil]; exact h) hfs
      obtain ⟨s₁', hfs', hagree⟩ := StacksAgree.run_exits fs h
      obtain rfl := Option.some.inj (hfs'.symm.trans hfs)
      obtain ⟨g, rest, -, hexit, -⟩ := hagree.exit
      obtain ⟨s₂, h₂, hend⟩ := run_cons_eq_some.mp hlast
      obtain rfl := Option.some.inj hend
      obtain rfl := Option.some.inj (hexit.symm.trans h₂)
      obtain ⟨inner, w, htree, hw, hle⟩ := hspent₁
      have hwork : s₁'.deepestWork = s₁'.curr_time := by
        rw [deepestWork_eq hagree (by rw [hstart]; exact Nat.zero_le _), hstart, Nat.sub_zero]
      refine ⟨cid, fillRegionStats main.key.2 s₁'.deepestWork g.call_site_id
        (s₁'.program_regions s₁'.curr_level), inner, w, ?_, hw, ?_, hwork⟩
      · show s₁'.treeCalls ++ _ = _
        rw [htree]
        rfl
      · show w ≤ s₁'.deepestWork
        rw [hwork]
        omega

/-- **The calls of a program run**: one context for `main`, with all the time. -/
theorem wholeMain_of_run {nextVersion n d : ℕ} {id : SID} {x : List OpenFrame × KremlinProfiler}
    {events : List RegionEvent}
    (hmain : stackJoint cfg ([], init cfg nextVersion) (.enterFunction id n d) = some x)
    (hopen : RunOk (stackJoint cfg) (fun x _ => x.1 ≠ []) x events)
    (hrun : run (stackJoint cfg) x events = some ([], s)) : WholeMain id s := by
  have hagree : StacksAgree cfg true x.1 x.2 :=
    (stacksAgree_init cfg true nextVersion).joint hmain
  have hin : InMain id x := inMain_start hmain
  clear hmain
  induction events generalizing x with
  | nil =>
      obtain ⟨cid, main, fs, hfs, -⟩ := hin
      obtain rfl := Option.some.inj hrun
      exact absurd hfs.symm (List.append_ne_nil_of_right_ne_nil _ (List.cons_ne_nil _ _))
  | cons e events ih =>
      obtain ⟨x', hx', hrest⟩ := run_cons_eq_some.mp hrun
      have hnext := hopen.2 x' hx'
      cases hfs : x'.1 with
      | nil =>
          -- nothing happens once `main` is left
          cases events with
          | nil =>
              obtain rfl := Option.some.inj hrest
              exact hin.left hagree hx'
          | cons e' events => exact absurd hfs hnext.1
      | cons f fs' =>
          refine ih hnext hrest (hagree.joint hx') ?_
          obtain ⟨cid, main, fs, hx, hstart, hspent⟩ := hin
          obtain ⟨all, s₁⟩ := x
          dsimp only at hx hspent hagree
          subst hx
          obtain ⟨fs₁, heq, hspent'⟩ := hspent.joint hagree
            (show stackJoint cfg (fs ++ [main], s₁) e = some (x'.1, x'.2) from hx')
            (by rw [hfs]; simp)
          exact ⟨cid, main, fs₁, heq, hstart, hspent'⟩

end KremlinProfiler

/-! ## §5. One outermost context. -/

namespace RegionTree

variable {t t' : RegionTree}

/-- The root has no child but the first node created. -/
def OneTop (t : RegionTree) : Prop := ∀ c, (t.node c).parent = some 0 → c = 1

/-- Within a context the position is not the root. -/
theorem curr_ne_root (h : t.Discipline) (hstack : t.c_region_stack ≠ []) :
    t.curr_region_node ≠ 0 := by
  obtain ⟨e, rest, he⟩ := List.exists_cons_of_ne_nil hstack
  have hcurr := h.curr
  rw [he, pos_cons] at hcurr
  rw [hcurr]
  by_cases hs : (t.node e).node_type = .rSink
  · obtain ⟨a, ha, -⟩ := (h.shape.sink e hs).target
    rw [TreeShape.land_of_sink hs ha]
    exact h.target_ne_root hs ha
  · rw [TreeShape.land_of_not_sink hs]
    rintro rfl
    obtain ⟨p, hp⟩ := h.chain.exists_parent 0 (he ▸ List.mem_cons_self)
    have hnone := h.shape.root_parent
    exact absurd (hnone.symm.trans hp) (by simp)

theorem OneTop.found {sid : SID} {child : NodeRef} (h : t.OneTop) (hd : t.Discipline)
    (hstack : t.c_region_stack ≠ []) (hf : Found t sid t' child) : t'.OneTop := by
  intro c hc
  by_cases hold : c < t.size
  · exact h c ((hf.grows.parent c hold).symm.trans hc)
  · obtain rfl := hf.fresh c (Nat.le_of_not_lt hold) (hf.shape.lt_size hc)
    exact absurd (Option.some.inj (hf.parent.symm.trans hc)) (curr_ne_root hd hstack)

theorem OneTop.of_sameShape (h : t.OneTop) (hnode : ∀ c, (t.node c).SameShape (t'.node c)) :
    t'.OneTop := fun c hc => h c ((hnode c).parent.symm.trans hc)

/-- **What happens inside a context adds no child to the root.** -/
theorem OneTop.inner {inner : List TreeCall} {w : ℕ} (hp : Profile inner w) :
    ∀ {t : RegionTree} (rest : List TreeCall), t.Discipline → t.c_region_stack ≠ [] → t.OneTop →
      RunOk treeStep TreeCall.Nested t (inner ++ rest) →
      ∃ t', run treeStep t inner = some t' ∧ t'.Discipline ∧ Grows t t' ∧
        t'.c_region_stack = t.c_region_stack ∧ t'.OneTop := by
  induction hp with
  | nil => exact fun {t} _ hd _ h _ => ⟨t, rfl, hd, Grows.refl t, rfl, h⟩
  | @block sid cid type stats inner rest w w' _ _ _ ihi ihr =>
      intro t post hd hne h hok
      -- the context is opened, what is inside it runs, it is closed, and the rest runs
      rw [List.append_assoc, List.cons_append, List.cons_append] at hok
      obtain ⟨t₁, child, t₂, hf, he, h₂, hd₂⟩ := hd.openRegionContext_spec hok.1 cid type
      have hok₂ := hok.2 t₂ h₂
      have hstack₂ : t₂.c_region_stack = child :: t.c_region_stack := by
        rw [he.stack, hf.stack]
      obtain ⟨t₃, h₃, hd₃, hg₃, hs₃, ho₃⟩ := ihi _ hd₂ (by rw [hstack₂]; exact List.cons_ne_nil _ _)
        ((h.found hd hne hf).of_sameShape he.sameShape) hok₂
      have hok₃ := runOk_append hok₂ h₃
      obtain ⟨t₄, h₄, hc, hd₄, -⟩ := hd₃.closeRegionContext_spec stats (hs₃.trans hstack₂)
      obtain ⟨t₅, h₅, hd₅, hg₅, hs₅, ho₅⟩ := ihr _ hd₄ (by rw [hc.stack]; exact hne)
        (ho₃.of_sameShape hc.sameShape) (hok₃.2 t₄ h₄)
      refine ⟨t₅, ?_, hd₅, (hf.grows.trans he.grows).trans (hg₃.trans (hc.grows.trans hg₅)),
        hs₅.trans hc.stack, ho₅⟩
      rw [List.cons_append]
      exact run_cons_eq_some.mpr ⟨t₂, h₂, run_append_eq_some.mpr
        ⟨t₃, h₃, run_cons_eq_some.mpr ⟨t₄, h₄, h₅⟩⟩⟩

/-- **The root has one child**, which `writeProgramStats` asks for, after a run with one
outermost context. -/
theorem children_root {inner : List TreeCall} {w : ℕ} (hp : Profile inner w) {summarize : Bool}
    {sid : SID} {cid : CID} {type : RegionType} {stats : RegionStats} {t : RegionTree}
    (hok : RunOk treeStep TreeCall.Nested (initRegionTree summarize)
      (.openCtx sid cid type :: inner ++ [.closeCtx stats]))
    (ht : run treeStep (initRegionTree summarize)
      (.openCtx sid cid type :: inner ++ [.closeCtx stats]) = some t) :
    (t.node t.region_tree_root).children = [1] := by
  have hd := Discipline.init summarize
  have hids := (IdsOk.init summarize).run hd hok ht
  obtain ⟨t₂, hf, he, h₂, hd₂⟩ := hd.open_spec hok.1 cid type
  have hchild : ((initRegionTree summarize).findOrCreateChild sid cid type).2 = 1 := rfl
  generalize ((initRegionTree summarize).findOrCreateChild sid cid type).1 = t₁ at hf he
  rw [hchild] at hf he
  have hfirst₂ : (t₂.node 1).parent = some 0 := (he.sameShape 1).parent.trans hf.parent
  have hone₂ : t₂.OneTop := by
    intro c hc
    rw [(he.sameShape c).parent] at hc
    by_cases hold : c < (initRegionTree summarize).size
    · obtain rfl := Nat.lt_one_iff.mp hold
      have hnone := hf.shape.root_parent
      exact absurd (hnone.symm.trans hc) (by simp)
    · exact hf.fresh c (Nat.le_of_not_lt hold) (hf.shape.lt_size hc)
  obtain ⟨t₃, h₃, hd₃, hg₃, hs₃, ho₃⟩ := OneTop.inner hp _ hd₂
    (by rw [he.stack]; exact List.cons_ne_nil _ _) hone₂ (hok.2 t₂ h₂)
  obtain ⟨t₄, h₄, hc, hd₄, -⟩ := hd₃.closeRegionContext_spec stats (hs₃.trans he.stack)
  have hrun : run treeStep (initRegionTree summarize)
      (.openCtx sid cid type :: inner ++ [.closeCtx stats]) = some t₄ :=
    run_cons_eq_some.mpr ⟨t₂, h₂, run_append_eq_some.mpr
      ⟨t₃, h₃, run_cons_eq_some.mpr ⟨t₄, h₄, rfl⟩⟩⟩
  obtain rfl := Option.some.inj (hrun.symm.trans ht)
  have hgrows : Grows t₂ t₄ := hg₃.trans hc.grows
  have hfirst : (t₄.node 1).parent = some 0 :=
    (hgrows.parent 1 (hd₂.shape.lt_size hfirst₂)).trans hfirst₂
  rw [hd₄.shape.root]
  -- a list of 1s without repetitions that has a 1
  have hall : ∀ c ∈ (t₄.node 0).children, c = 1 := fun c hmem =>
    ho₃.of_sameShape hc.sameShape c ((hd₄.shape.mem_children 0 c).mp hmem)
  have hmem : 1 ∈ (t₄.node 0).children := (hd₄.shape.mem_children 0 1).mpr hfirst
  have hnodup := hids.children 0
  cases hcs : (t₄.node 0).children with
  | nil =>
      rw [hcs] at hmem
      exact absurd hmem List.not_mem_nil
  | cons c cs =>
      rw [hcs] at hall hnodup
      obtain rfl := hall c List.mem_cons_self
      cases cs with
      | nil => rfl
      | cons d ds =>
          have heq := hall d (List.mem_cons_of_mem _ List.mem_cons_self)
          exact absurd (heq ▸ List.mem_cons_self) (List.nodup_cons.mp hnodup).1

end RegionTree

end Kremlin.Runtime
