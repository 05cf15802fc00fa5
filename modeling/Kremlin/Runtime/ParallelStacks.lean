/-
  Kremlin.Runtime.ParallelStacks — the stacks the profiler keeps side by side.

  `program_regions` and `curr_level`, the callstack, the register file pointer,
  the region-context stack of `CRegion.cpp` and the instrumentation status are
  updated by different code in different orders.  `StacksAgree` relates all of
  them to one list, the program's open regions; each kind of event keeps it.
-/
import Kremlin.Runtime.RegionTreeDiscipline
import Kremlin.Runtime.Unwinding

namespace Kremlin.Runtime

open Kremlin.Library
open KremlinProfiler

/-! ## §1. The program's regions. -/

/-- An open region: its id and type, the time it was entered at, the callsite of
the last `_KPrepCall` before and, for a function, the `nested_depth` of its
register table. -/
structure OpenFrame where
  key : RegionKey
  start : ℕ
  callSite : CID
  nested : ℕ
  deriving Repr, DecidableEq

/-- What the program does.  A function is entered and sets up its register table
in one go; `cleanup` is the end of the program. -/
inductive RegionEvent where
  | enterFunction (regionId : SID) (num_virt_regs nested_depth : ℕ)
  | call (e : Event)
  | cleanup
  deriving Repr, DecidableEq

/-- What an event does to the open regions, innermost first.  The outermost one
is a function, a region is left under its own id and type, and a landing pad
names an open region. -/
def stackStep (s : KremlinProfiler) (fs : List OpenFrame) : RegionEvent → Option (List OpenFrame)
  | .enterFunction id _ nested_depth =>
      some (⟨(id, .regionFunc), s.curr_time, s.last_callsite_id, nested_depth⟩ :: fs)
  | .call (.enterRegion id ty) =>
      if fs = [] ∨ ty = .regionFunc then none
      else some (⟨(id, ty), s.curr_time, s.last_callsite_id, 0⟩ :: fs)
  | .call (.exitRegion id ty) =>
      if (fs.map OpenFrame.key).head? = some (id, ty) then some fs.tail else none
  | .call (.landingPad id _) =>
      if id ∈ (fs.map OpenFrame.key).map Prod.fst then
        some (fs.dropWhile fun f => f.key.1 ≠ id)
      else none
  | .call (.prepRTable _ _) => none
  | .call _ => some fs
  | .cleanup => some []

/-- What an event does to the profiler. -/
def regionStep (cfg : Config) (s : KremlinProfiler) : RegionEvent → Option KremlinProfiler
  | .enterFunction id num_virt_regs nested_depth =>
      run (step cfg) s [.enterRegion id .regionFunc, .prepRTable num_virt_regs nested_depth]
  | .call e => step cfg s e
  | .cleanup => cleanup cfg s

/-- The program and its profiler. -/
def stackJoint (cfg : Config) (x : List OpenFrame × KremlinProfiler) (e : RegionEvent) :
    Option (List OpenFrame × KremlinProfiler) := do
  let fs ← stackStep x.2 x.1 e
  let s ← regionStep cfg x.2 e
  some (fs, s)

/-- The five things an event can do to the open regions and the profiler. -/
inductive StackMove (cfg : Config) (fs : List OpenFrame) (s : KremlinProfiler) :
    RegionEvent → List OpenFrame → KremlinProfiler → Prop
  | enterFunction (id : SID) (n d : ℕ) (s' : KremlinProfiler)
      (h : run (step cfg) s [.enterRegion id .regionFunc, .prepRTable n d] = some s') :
      StackMove cfg fs s (.enterFunction id n d)
        (⟨(id, .regionFunc), s.curr_time, s.last_callsite_id, d⟩ :: fs) s'
  | enterRegion (id : SID) (ty : RegionType) (s' : KremlinProfiler)
      (hfirst : ¬ (fs = [] ∨ ty = .regionFunc)) (h : handleRegionEntry cfg id ty s = some s') :
      StackMove cfg fs s (.call (.enterRegion id ty))
        (⟨(id, ty), s.curr_time, s.last_callsite_id, 0⟩ :: fs) s'
  | leave (e : RegionEvent) (ks fs' : List OpenFrame) (s' : KremlinProfiler) (hfs : fs = ks ++ fs')
      (h : run (step cfg) s (ks.map fun f => exitOf f.key) = some s') : StackMove cfg fs s e fs' s'
  | setCDeps (e : RegionEvent) (t : Table) (ptr base : ℕ)
      (hcol : t.col = s.control_dependence_table.col) :
      StackMove cfg fs s e fs { s with
        control_dependence_table := t, cdt_read_ptr := ptr, cdt_current_base := some base }
  | stay (e : RegionEvent) (s' : KremlinProfiler) (h : SameStacks s s') : StackMove cfg fs s e fs s'

/-! ## §2. The stacks agree. -/

/-- A function's frame. -/
def OpenFrame.isFunc (f : OpenFrame) : Bool := f.key.2 = .regionFunc

/-- Level by level, the region vector holds the open regions and their start
times. -/
def FramesOk (s : KremlinProfiler) : List OpenFrame → Prop
  | [] => True
  | f :: fs =>
      s.regionKey fs.length = f.key ∧ (s.program_regions fs.length).start = f.start ∧
        FramesOk s fs

/-- The calls made so far have left the region tree with `n` open contexts. -/
def TreeOk (summarize : Bool) (calls : List TreeCall) (n : ℕ) : Prop :=
  ∃ t, run treeStep (initRegionTree summarize) calls = some t ∧ t.ContextOk ∧
    t.c_region_stack.length = n

/-- All the stacks belong to the same open regions. -/
structure StacksAgree (cfg : Config) (summarize : Bool) (fs : List OpenFrame)
    (s : KremlinProfiler) : Prop where
  tracks : Tracks (fs.map OpenFrame.key) s
  regions : FramesOk s fs
  callSites : s.callstack.map (·.call_site_id) = (fs.filter OpenFrame.isFunc).map (·.callSite)
  tables : ∀ f ∈ s.callstack, f.table.isSome
  registerFile : fs ≠ [] → s.shadow_reg_file = some (s.callstack.length - 1)
  status : fs ≠ [] → s.instrument_curr_level =
      decide (s.curr_level ≥ cfg.min_level ∧ s.curr_level ≤ cfg.max_level) ∧
    s.curr_num_instrumented_levels =
      if s.curr_level < cfg.min_level then 0
      else min cfg.max_level s.curr_level - cfg.min_level + 1
  tree : TreeOk summarize s.treeCalls fs.length

variable {cfg : Config} {summarize : Bool} {fs : List OpenFrame} {s s' : KremlinProfiler}

/-- Frames are known by their keys and starts. -/
theorem FramesOk.congr (h : FramesOk s fs)
    (hkey : ∀ l, l < fs.length → s'.regionKey l = s.regionKey l)
    (hstart : ∀ l, l < fs.length →
      (s'.program_regions l).start = (s.program_regions l).start) : FramesOk s' fs := by
  induction fs with
  | nil => trivial
  | cons f fs ih =>
      rw [List.length_cons] at hkey hstart
      obtain ⟨hk, hs, hrest⟩ := h
      refine ⟨?_, ?_, ih hrest (fun l hl => hkey l (by omega)) fun l hl => hstart l (by omega)⟩
      · rw [hkey _ (by omega), hk]
      · rw [hstart _ (by omega), hs]

/-- The region at a level. -/
theorem FramesOk.get (h : FramesOk s fs) {l : ℕ} {f : OpenFrame}
    (hf : fs.reverse[l]? = some f) :
    s.regionKey l = f.key ∧ (s.program_regions l).start = f.start := by
  induction fs with
  | nil => cases hf
  | cons g fs ih =>
      obtain ⟨hk, hs, hrest⟩ := h
      rw [List.reverse_cons] at hf
      rcases Nat.lt_trichotomy l fs.length with hl | hl | hl
      · rw [List.getElem?_append_left (by rwa [List.length_reverse])] at hf
        exact ih hrest hf
      · rw [hl, List.getElem?_append_right (by rw [List.length_reverse]), List.length_reverse,
          Nat.sub_self] at hf
        cases hf
        rw [hl]
        exact ⟨hk, hs⟩
      · rw [List.getElem?_eq_none (by simp; omega)] at hf
        cases hf

/-- A context is opened. -/
theorem TreeOk.openCtx {calls : List TreeCall} {n : ℕ} (h : TreeOk summarize calls n)
    (sid : SID) (cid : CID) (type : RegionType) :
    TreeOk summarize (calls ++ [.openCtx sid cid type]) (n + 1) := by
  obtain ⟨t, ht, hctx, hlen⟩ := h
  obtain ⟨t₁, child, t', hf, he, hopen, hctx'⟩ := hctx.openRegionContext_spec sid cid type
  refine ⟨t', run_append_eq_some.mpr ⟨t, ht, run_cons_eq_some.mpr ⟨t', hopen, rfl⟩⟩, hctx', ?_⟩
  rw [he.stack, hf.stack, List.length_cons, hlen]

/-- A context is closed. -/
theorem TreeOk.closeCtx {calls : List TreeCall} {n : ℕ} (h : TreeOk summarize calls (n + 1))
    (stats : RegionStats) : TreeOk summarize (calls ++ [.closeCtx stats]) n := by
  obtain ⟨t, ht, hctx, hlen⟩ := h
  obtain ⟨exited, rest, hstack⟩ := List.exists_cons_of_length_eq_add_one hlen
  obtain ⟨t', hclose, hc, hctx', -⟩ := hctx.closeRegionContext_spec stats hstack
  refine ⟨t', run_append_eq_some.mpr ⟨t, ht, run_cons_eq_some.mpr ⟨t', hclose, rfl⟩⟩, hctx', ?_⟩
  rw [hstack, List.length_cons] at hlen
  rw [hc.stack]
  omega

/-- Activations with the same row lengths have their tables set up alike. -/
theorem isSome_of_widths {gs gs' : List FunctionRegion}
    (h : gs'.map FunctionRegion.width = gs.map FunctionRegion.width) :
    (∀ f ∈ gs', f.table.isSome) ↔ ∀ f ∈ gs, f.table.isSome := by
  have hsome : ∀ gs : List FunctionRegion, (∀ f ∈ gs, f.table.isSome) ↔
      ∀ w ∈ gs.map FunctionRegion.width, w.isSome := by
    intro gs
    simp [FunctionRegion.width]
  rw [hsome, h, ← hsome]

/-- At the start all stacks are empty. -/
theorem stacksAgree_init (cfg : Config) (summarize : Bool) (v : ℕ) :
    StacksAgree cfg summarize [] (init cfg v) where
  tracks := tracks_init cfg v
  regions := trivial
  callSites := rfl
  tables f hf := by cases hf
  registerFile h := absurd rfl h
  status h := absurd rfl h
  tree := ⟨initRegionTree summarize, rfl, .init summarize, rfl⟩

namespace StacksAgree

/-! ## §3. Each event keeps them. -/

/-- Other calls leave them alone. -/
theorem of_sameStacks (h : StacksAgree cfg summarize fs s) (h' : SameStacks s s') :
    StacksAgree cfg summarize fs s' where
  tracks := h.tracks.of_sameLevels h'.toSameLevels
  regions := h.regions.congr (fun l _ => h'.key l) fun l _ => h'.start l
  callSites := h'.callSites.trans h.callSites
  tables := (isSome_of_widths h'.widths).mpr h.tables
  registerFile hfs := by rw [h'.registerFile, h'.functions, h.registerFile hfs]
  status hfs := by rw [h'.status.1, h'.status.2, h'.level]; exact h.status hfs
  tree := by rw [h'.tree]; exact h.tree

/-- Pushing and popping control dependences is none of these stacks' business. -/
theorem of_cdeps (h : StacksAgree cfg summarize fs s) {t : Table} {ptr : ℕ} {base : Option ℕ} :
    StacksAgree cfg summarize fs { s with
      control_dependence_table := t, cdt_read_ptr := ptr, cdt_current_base := base } where
  tracks := h.tracks.of_sameLevels ⟨rfl, rfl, rfl, rfl, fun _ => rfl⟩
  regions := h.regions.congr (fun _ _ => rfl) fun _ _ => rfl
  callSites := h.callSites
  tables := h.tables
  registerFile := h.registerFile
  status := h.status
  tree := h.tree

/-- **Leaving the innermost region.** -/
theorem exit {f : OpenFrame} (h : StacksAgree cfg summarize (f :: fs) s) :
    ∃ g rest, s.callstack = g :: rest ∧
      step cfg s (exitOf f.key) = some (closed cfg f.key.2 g rest s) ∧
      StacksAgree cfg summarize fs (closed cfg f.key.2 g rest s) := by
  obtain ⟨g, rest, hstack, hstep, ht⟩ := Tracks.exit cfg
    (show Tracks (f.key :: fs.map OpenFrame.key) s from h.tracks)
  refine ⟨g, rest, hstack, hstep, ht, ?_, ?_, ?_, ?_, fun _ => ⟨rfl, rfl⟩, h.tree.closeCtx _⟩
  · refine h.regions.2.2.congr (fun l _ => closed_regionKey cfg _ g rest s l) fun l _ => ?_
    show (chargedRegions cfg s l).start = _
    unfold chargedRegions
    split <;> rfl
  · -- a function takes its call site with it, a loop none
    have hsites := h.callSites
    rw [hstack, List.map_cons, List.filter_cons] at hsites
    show (if f.key.2 = .regionFunc then rest else g :: rest).map _ = _
    by_cases hf : f.key.2 = .regionFunc
    · rw [if_pos (by simpa [OpenFrame.isFunc] using hf), List.map_cons] at hsites
      rw [if_pos hf]
      exact (List.cons.inj hsites).2
    · rw [if_neg (by simpa [OpenFrame.isFunc] using hf)] at hsites
      rw [if_neg hf, List.map_cons]
      exact hsites
  · intro k hk
    have hk : k ∈ if f.key.2 = .regionFunc then rest else g :: rest := hk
    refine h.tables k ?_
    rw [hstack]
    split at hk
    · exact List.mem_cons_of_mem _ hk
    · exact hk
  · intro hfs
    have hreg := h.registerFile (List.cons_ne_nil f fs)
    have hsome : (closed cfg f.key.2 g rest s).callstack ≠ [] := by
      cases fs with
      | nil => exact absurd rfl hfs
      | cons f' fs =>
          obtain ⟨g', rest', hcs⟩ :=
            (show Tracks (f'.key :: fs.map OpenFrame.key) _ from ht).callstack_cons
          rw [hcs]
          exact List.cons_ne_nil _ _
    have hsome : (if f.key.2 = .regionFunc then rest else g :: rest) ≠ [] := hsome
    show (if f.key.2 = .regionFunc ∧ rest ≠ [] then some (rest.length - 1) else s.shadow_reg_file)
      = some ((if f.key.2 = .regionFunc then rest else g :: rest).length - 1)
    by_cases hf : f.key.2 = .regionFunc
    · rw [if_pos hf] at hsome ⊢
      rw [if_pos ⟨hf, hsome⟩]
    · rw [if_neg hf, if_neg fun hand => hf hand.1, hreg, hstack]

/-- A landing pad for an open region is a run of exits. -/
theorem landingPad_eq_run {id : SID} (ty : RegionType) (h : StacksAgree cfg summarize fs s)
    (hopen : id ∈ (fs.map OpenFrame.key).map Prod.fst) :
    handleLandingPad cfg id ty s
      = run (step cfg) s ((fs.takeWhile fun f => f.key.1 ≠ id).map fun f => exitOf f.key) := by
  rw [h.tracks.landingPad_eq_run hopen, List.takeWhile_map, List.map_map]
  rfl

/-- The next level is the number of open regions. -/
theorem nextLevel_eq (h : StacksAgree cfg summarize fs s) : nextLevel s.curr_level = fs.length := by
  rw [h.tracks.level, nextLevel_prevLevel h.tracks.bounded, List.length_map]

/-- **The cleanup loop is a run of exits too**, by induction on the regions
still open. -/
theorem cleanup_eq_run (h : StacksAgree cfg summarize fs s) :
    cleanup cfg s = run (step cfg) s (fs.map fun f => exitOf f.key) := by
  rw [cleanup, h.nextLevel_eq]
  induction fs generalizing s with
  | nil => rfl
  | cons f fs ih =>
      obtain ⟨g, rest, -, hstep, hagree⟩ := h.exit
      have hcap : fs.length < s.num_regions := by
        have hcap := h.tracks.capacity
        rw [List.length_map, List.length_cons] at hcap
        exact hcap
      have hexit : handleRegionExit cfg (s.program_regions fs.length).regionId
          (s.program_regions fs.length).regionType s = some (closed cfg f.key.2 g rest s) := by
        have hkey : ((s.program_regions fs.length).regionId,
          (s.program_regions fs.length).regionType) = f.key := h.regions.1
        rw [← hstep, ← hkey]
        rfl
      rw [List.length_cons, cleanupFrom, getRegionAtLevel_of_lt hcap, List.map_cons, run_cons, hstep]
      show (handleRegionExit cfg _ _ s).bind _ = _
      rw [hexit]
      exact ih hagree

/-- Leaving regions one after the other. -/
theorem run_exits (ks : List OpenFrame) (h : StacksAgree cfg summarize (ks ++ fs) s) :
    ∃ s', run (step cfg) s (ks.map fun f => exitOf f.key) = some s' ∧
      StacksAgree cfg summarize fs s' :=
  Runtime.run_exits (P := StacksAgree cfg summarize)
    (fun _ _ _ h => by
      obtain ⟨g, rest, -, hstep, hagree⟩ := h.exit
      exact ⟨_, hstep, hagree⟩) ks fs h

/-- What entering a region leaves of the invariant, whatever its type; `s₁` is
the state once the registers are cleaned or the activation is there. -/
theorem regions_opened {id : SID} {ty : RegionType} (d : ℕ) (h : StacksAgree cfg summarize fs s)
    (hkey : ∀ l, s'.regionKey l = (opened cfg id ty s).regionKey l)
    (hstart : ∀ l, (s'.program_regions l).start = ((opened cfg id ty s).program_regions l).start)
    (hnext : nextLevel s.curr_level = fs.length) :
    FramesOk s' (⟨(id, ty), s.curr_time, s.last_callsite_id, d⟩ :: fs) := by
  have hother : ∀ l, l < fs.length →
      (opened cfg id ty s).program_regions l = s.program_regions l := by
    intro l hl
    exact if_neg (by rw [hnext]; omega)
  refine ⟨?_, ?_, h.regions.congr (fun l hl => ?_) fun l hl => ?_⟩
  · rw [hkey, opened_regionKey, hnext, if_pos rfl]
  · rw [hstart]
    show (if fs.length = nextLevel s.curr_level then ProgramRegion.init id ty s.curr_time
      else s.program_regions fs.length).start = _
    rw [hnext, if_pos rfl]
    rfl
  · rw [hkey, opened_regionKey, hnext, if_neg (by omega)]
  · rw [hstart, hother l hl]

/-- **Entering a loop or a loop body.** -/
theorem enterRegion {id : SID} {ty : RegionType} (h : StacksAgree cfg summarize fs s)
    (hfirst : ¬ (fs = [] ∨ ty = .regionFunc))
    (hstep : handleRegionEntry cfg id ty s = some s') :
    StacksAgree cfg summarize (⟨(id, ty), s.curr_time, s.last_callsite_id, 0⟩ :: fs) s' := by
  obtain ⟨hfs, hty⟩ := not_or.mp hfirst
  have hnext := h.nextLevel_eq
  have ht := h.tracks.enterRegion (fun hf => hfs (List.map_eq_nil_iff.mp hf.1)) hstep
  obtain ⟨s₁, cdeps, base, -, hloop, rfl, -, -⟩ :=
    handleRegionEntry_eq_some h.tracks.enabled
      (hnext ▸ (List.length_map OpenFrame.key ▸ h.tracks.capacity)) h.tracks.nonempty hstep
  have hsame := hloop hty
  refine ⟨ht, h.regions_opened 0 hsame.key hsame.start hnext, ?_, ?_, ?_, ?_, ?_⟩
  · rw [List.filter_cons_of_neg (by simpa [OpenFrame.isFunc] using hty)]
    exact hsame.callSites.trans h.callSites
  · exact (isSome_of_widths hsame.widths).mpr h.tables
  · intro _
    show s₁.shadow_reg_file = some (s₁.callstack.length - 1)
    rw [hsame.registerFile, hsame.functions]
    exact h.registerFile hfs
  · intro _
    show s₁.instrument_curr_level
        = decide (s₁.curr_level ≥ cfg.min_level ∧ s₁.curr_level ≤ cfg.max_level) ∧
      s₁.curr_num_instrumented_levels = if s₁.curr_level < cfg.min_level then 0
        else min cfg.max_level s₁.curr_level - cfg.min_level + 1
    rw [hsame.status.1, hsame.status.2, hsame.level]
    exact ⟨rfl, rfl⟩
  · show TreeOk summarize (s₁.treeCalls ++ [_]) (fs.length + 1)
    rw [hsame.tree]
    exact TreeOk.openCtx h.tree _ _ _

/-- **Entering a function and setting up its register table.** -/
theorem enterFunction {id : SID} {n d : ℕ} (h : StacksAgree cfg summarize fs s)
    (hstep : run (step cfg) s [.enterRegion id .regionFunc, .prepRTable n d] = some s') :
    StacksAgree cfg summarize
      (⟨(id, .regionFunc), s.curr_time, s.last_callsite_id, d⟩ :: fs) s' := by
  obtain ⟨s₁, h₁, hprep⟩ := run_cons_eq_some.mp hstep
  obtain ⟨s₂, h₂, hend⟩ := run_cons_eq_some.mp hprep
  obtain rfl := Option.some.inj hend
  have hnext := h.nextLevel_eq
  have ht := h.tracks.enterRegion (fun hf => hf.2 rfl) h₁
  obtain ⟨s₀, cdeps, base, hfunc, -, hs₁, -, -⟩ :=
    handleRegionEntry_eq_some h.tracks.enabled
      (hnext ▸ (List.length_map OpenFrame.key ▸ h.tracks.capacity)) h.tracks.nonempty h₁
  have hs₀ := hfunc rfl
  have ht₂ := ht.of_sameLevels (step_sameLevels (show ¬ MovesLevels (.prepRTable n d) from fun hmove => hmove) h₂)
  obtain ⟨f, rest, hstack, hs₂⟩ := handlePrepRTable_eq_some ht.enabled h₂
  -- the new activation is the one that gets the table
  have hnew : f = .new s.last_callsite_id ∧ rest = s.callstack := by
    rw [hs₁, hs₀] at hstack
    exact ⟨(List.cons.inj hstack).1.symm, (List.cons.inj hstack).2.symm⟩
  obtain ⟨rfl, rfl⟩ := hnew
  subst hs₂
  subst hs₁
  subst hs₀
  refine ⟨ht₂, h.regions_opened d (fun _ => rfl) (fun _ => rfl) hnext, ?_, ?_, fun _ => rfl,
    fun _ => ⟨rfl, rfl⟩, TreeOk.openCtx h.tree _ _ _⟩
  · rw [List.filter_cons_of_pos (by rfl)]
    exact congrArg (s.last_callsite_id :: ·) h.callSites
  · exact List.forall_mem_cons.mpr ⟨rfl, h.tables⟩

/-- **What an event can do**, from any state in which the stacks agree. -/
theorem stackMove {x : List OpenFrame × KremlinProfiler} {e : RegionEvent}
    (h : StacksAgree cfg summarize fs s) (hstep : stackJoint cfg (fs, s) e = some x) :
    StackMove cfg fs s e x.1 x.2 := by
  simp only [stackJoint, Option.bind_eq_bind, Option.bind_eq_some_iff, Option.some.injEq] at hstep
  obtain ⟨fs', hprog, s', hprof, rfl⟩ := hstep
  cases e with
  | enterFunction id n d =>
      cases hprog
      exact .enterFunction id n d s' hprof
  | cleanup =>
      cases hprog
      exact .leave _ fs [] s' (List.append_nil fs).symm (h.cleanup_eq_run.symm.trans hprof)
  | call e =>
      have hprof : step cfg s e = some s' := hprof
      by_cases hmove : MovesLevels e
      · cases e with
        | enterRegion id ty =>
            have hprog : (if fs = [] ∨ ty = .regionFunc then none
                else some (⟨(id, ty), s.curr_time, s.last_callsite_id, 0⟩ :: fs)) = some fs' := hprog
            split at hprog
            · cases hprog
            · next hfirst =>
                cases hprog
                exact .enterRegion id ty s' hfirst hprof
        | exitRegion id ty =>
            have hprog : (if (fs.map OpenFrame.key).head? = some (id, ty) then some fs.tail
                else none) = some fs' := hprog
            split at hprog
            · next hhead =>
                cases hprog
                cases fs with
                | nil => cases hhead
                | cons f fs =>
                    have hkey : f.key = (id, ty) := Option.some.inj hhead
                    refine .leave _ [f] fs s' rfl (run_cons_eq_some.mpr ⟨s', ?_, rfl⟩)
                    show step cfg s (exitOf f.key) = some s'
                    rw [hkey]
                    exact hprof
            · cases hprog
        | landingPad id ty =>
            have hprog : (if id ∈ (fs.map OpenFrame.key).map Prod.fst then
                some (fs.dropWhile fun f => f.key.1 ≠ id) else none) = some fs' := hprog
            split at hprog
            · next hopen =>
                cases hprog
                exact .leave _ (fs.takeWhile fun f => f.key.1 ≠ id) _ s'
                  List.takeWhile_append_dropWhile.symm
                  ((h.landingPad_eq_run ty hopen).symm.trans hprof)
            · cases hprog
        | _ => exact hmove.elim
      · by_cases hset : SetsStacks e
        · cases e with
          | prepRTable n d => cases hprog
          | pushCDep cond =>
              cases hprog
              have hprof : handlePushCDep cond s = some s' := hprof
              rw [handlePushCDep, if_pos h.tracks.enabled] at hprof
              simp only [Option.bind_eq_bind, Option.bind_eq_some_iff, Option.some.injEq] at hprof
              obtain ⟨lTable, -, t, hcopy, rfl⟩ := hprof
              exact .setCDeps _ t _ _ (copyToDest_col hcopy)
          | popCDep =>
              cases hprog
              have hprof : handlePopCDep s = some s' := hprof
              rw [handlePopCDep, if_pos h.tracks.enabled] at hprof
              split at hprof
              · cases hprof
              · cases hprof
                exact .setCDeps _ s.control_dependence_table _ _ rfl
          | _ => exact hset.elim
        · -- no other call moves the open regions
          have hfs : fs' = fs := by
            -- the program's move says what the call is
            cases e with
            | enterRegion id ty => exact absurd trivial hmove
            | exitRegion id ty => exact absurd trivial hmove
            | landingPad id ty => exact absurd trivial hmove
            | prepRTable n d => exact absurd trivial hset
            | pushCDep cond => exact absurd trivial hset
            | popCDep => exact absurd trivial hset
            | _ => exact (Option.some.inj hprog).symm
          rw [hfs]
          exact .stay _ s' (step_sameStacks hmove hset hprof)

/-- **What every event keeps.** -/
theorem joint {x : List OpenFrame × KremlinProfiler} {e : RegionEvent}
    (h : StacksAgree cfg summarize fs s) (hstep : stackJoint cfg (fs, s) e = some x) :
    StacksAgree cfg summarize x.1 x.2 := by
  obtain ⟨fs', s'⟩ := x
  cases h.stackMove hstep with
  | enterFunction id n d _ hrun => exact h.enterFunction hrun
  | enterRegion id ty _ hfirst hentry => exact h.enterRegion hfirst hentry
  | leave _ ks _ _ hfs hrun =>
      obtain ⟨s₁, h₁, hagree⟩ := run_exits ks (hfs ▸ h)
      obtain rfl := Option.some.inj (h₁.symm.trans hrun)
      exact hagree
  | setCDeps => exact h.of_cdeps
  | stay _ _ hsame => exact h.of_sameStacks hsame

/-- The stacks agree after every run. -/
theorem of_run {events : List RegionEvent} {nextVersion : ℕ}
    (h : run (stackJoint cfg) ([], init cfg nextVersion) events = some (fs, s)) :
    StacksAgree cfg summarize fs s :=
  run_invariant (P := fun x => StacksAgree cfg summarize x.1 x.2)
    (fun _ _ _ hx hstep => hx.joint hstep) (stacksAgree_init cfg summarize nextVersion) h

end StacksAgree

/-! ## §4. Every reachable state. -/

/-- The levels of the window among the `n` outermost ones. -/
theorem countP_window (hwin : cfg.min_level ≤ cfg.max_level) (n : ℕ) :
    (List.range (n + 1)).countP (fun l => cfg.min_level ≤ l ∧ l ≤ cfg.max_level)
      = if n < cfg.min_level then 0 else min cfg.max_level n - cfg.min_level + 1 := by
  induction n with
  | zero =>
      simp only [List.range_succ, List.range_zero, List.nil_append, List.countP_singleton,
        decide_eq_true_eq]
      split <;> split <;> omega
  | succ n ih =>
      rw [List.range_succ, List.countP_append, ih, List.countP_singleton]
      simp only [decide_eq_true_eq]
      split <;> split <;> split <;> omega

/-- **The parallel stacks agree** in every state of a run, and cleanup empties
them. -/
theorem stacks_agree (cfg : Config) (hwin : cfg.min_level ≤ cfg.max_level) (summarize : Bool)
    (nextVersion : ℕ) (events : List RegionEvent) (fs : List OpenFrame) (s : KremlinProfiler)
    (hrun : run (stackJoint cfg) ([], init cfg nextVersion) events = some (fs, s)) :
    (fs ≠ [] → fs.length = s.curr_level + 1 ∧
      (∃ t, run treeStep (initRegionTree summarize) s.treeCalls = some t ∧
        t.c_region_stack.length = s.curr_level + 1) ∧
      (∀ l f, fs.reverse[l]? = some f → (s.program_regions l).regionId = f.key.1 ∧
        (s.program_regions l).regionType = f.key.2 ∧ (s.program_regions l).start = f.start) ∧
      s.callstack.map (·.call_site_id)
        = (fs.filter fun f => f.key.2 = .regionFunc).map (·.callSite) ∧
      (∃ f rest t, s.callstack = f :: rest ∧ f.table = some t ∧
        s.shadow_reg_file = some rest.length ∧ s.getRegisterFileTable = some t) ∧
      s.curr_num_instrumented_levels = (List.range (s.curr_level + 1)).countP
        (fun l => cfg.min_level ≤ l ∧ l ≤ cfg.max_level) ∧
      (s.instrument_curr_level = true ↔
        cfg.min_level ≤ s.curr_level ∧ s.curr_level ≤ cfg.max_level)) ∧
    ∃ s', KremlinProfiler.cleanup cfg s = some s' ∧ s'.callstack = [] ∧
      ∃ t, run treeStep (initRegionTree summarize) s'.treeCalls = some t ∧
        t.c_region_stack = [] := by
  have h : StacksAgree cfg summarize fs s := .of_run hrun
  constructor
  · intro hfs
    have hlevel : fs.length = s.curr_level + 1 := by
      obtain ⟨f, rest, rfl⟩ := List.exists_cons_of_ne_nil hfs
      rw [(show Tracks (f.key :: rest.map OpenFrame.key) s from h.tracks).level_cons,
        List.length_map, List.length_cons]
    obtain ⟨t, ht, -, hlen⟩ := h.tree
    refine ⟨hlevel, ⟨t, ht, hlen.trans hlevel⟩, ?_, h.callSites, ?_, ?_, ?_⟩
    · intro l f hf
      obtain ⟨hkey, hstart⟩ := h.regions.get hf
      exact ⟨congrArg Prod.fst hkey, congrArg Prod.snd hkey, hstart⟩
    · obtain ⟨f, rest, rfl⟩ := List.exists_cons_of_ne_nil hfs
      obtain ⟨g, rest', hstack⟩ :=
        (show Tracks (f.key :: rest.map OpenFrame.key) s from h.tracks).callstack_cons
      have hreg := h.registerFile hfs
      rw [hstack, List.length_cons, Nat.add_sub_cancel] at hreg
      obtain ⟨t, ht⟩ := Option.isSome_iff_exists.mp
        (h.tables g (hstack ▸ List.mem_cons_self))
      refine ⟨g, rest', t, hstack, ht, hreg, ?_⟩
      -- the register file pointer is the callstack position of the current function
      rw [getRegisterFileTable, hreg, hstack]
      show (((g :: rest').reverse[rest'.length]?).bind fun f => f.table) = some t
      rw [List.reverse_cons, List.getElem?_append_right (by rw [List.length_reverse]),
        List.length_reverse, Nat.sub_self]
      exact ht
    · rw [(h.status hfs).2, countP_window hwin]
    · rw [(h.status hfs).1, decide_eq_true_eq]
  · obtain ⟨s', h', hagree⟩ := StacksAgree.run_exits fs
      (show StacksAgree cfg summarize (fs ++ []) s by
        rw [List.append_nil]
        exact h)
    obtain ⟨t, ht, -, hlen⟩ := hagree.tree
    refine ⟨s', h.cleanup_eq_run.trans h', ?_, t, ht, List.length_eq_zero_iff.mp hlen⟩
    exact List.map_eq_nil_iff.mp hagree.callSites

/-- Two activations and a loop in the inner one; a landing pad goes back to the
outer function, which calls again. -/
def unwindAndCall : List RegionEvent :=
  [.enterFunction 1 4 2, .call (.prepCall 7 2), .enterFunction 2 4 2,
   .call (.enterRegion 3 .regionLoop), .call (.work 5), .call (.landingPad 1 .regionFunc),
   .call (.prepCall 9 2), .enterFunction 2 4 2]

/-- The call stack is that of the two open functions. -/
theorem stacks_agree_unwind :
    ∃ fs s, run (stackJoint { min_level := 0, max_level := 32 })
        ([], init { min_level := 0, max_level := 32 } 0) unwindAndCall = some (fs, s) ∧
      fs.map OpenFrame.key = [(2, .regionFunc), (1, .regionFunc)] ∧
      s.callstack.map (·.call_site_id) = [9, 0] := by
  have hrun : (run (stackJoint { min_level := 0, max_level := 32 })
      ([], init { min_level := 0, max_level := 32 } 0) unwindAndCall).map Prod.fst
      = some [⟨(2, .regionFunc), 5, 9, 2⟩, ⟨(1, .regionFunc), 0, 0, 2⟩] := by decide +kernel
  obtain ⟨⟨fs, s⟩, hs, rfl⟩ := Option.map_eq_some_iff.mp hrun
  have hagree := stacks_agree { min_level := 0, max_level := 32 } (by decide) true 0 unwindAndCall
    _ s hs
  exact ⟨_, s, hs, rfl, (hagree.1 (List.cons_ne_nil _ _)).2.2.2.1⟩

end Kremlin.Runtime
