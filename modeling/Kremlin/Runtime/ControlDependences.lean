/-
  Kremlin.Runtime.ControlDependences — the control-dependence stack over a run.

  A block pushes the condition it depends on and pops it before its terminator
  (`ControlDependencePlacer.cpp`), so a region that is left through its exit has
  popped what it pushed.  A landing pad leaves regions in the middle of their
  blocks; `handleLandingPad` restores the levels and the register file, and
  leaves `cdt_read_ptr` as it is.

  `CDepFrame` is an open region with what the stack was at its entry and the
  pushes it has not popped.
-/
import Kremlin.Runtime.Unwinding

namespace Kremlin.Runtime

open Kremlin.Library
open KremlinProfiler

/-! ## §1. Regions and their pushes. -/

/-- An open region: the stack at its entry, and its pushes not yet popped. -/
structure CDepFrame where
  key : RegionKey
  entry_ptr : ℕ
  entry_base : Option ℕ
  pending : ℕ
  deriving Repr, DecidableEq

/-- The blocks that are live: every push that has not been popped. -/
def livePushes (fs : List CDepFrame) : ℕ := (fs.map CDepFrame.pending).sum

/-- What a call does to the program's regions, innermost first.  A region is
left by its exit once its own pushes are popped; a landing pad goes back to the
deepest region with its id. -/
def cdepStep (s : KremlinProfiler) (fs : List CDepFrame) : Event → Option (List CDepFrame)
  | .enterRegion id ty =>
      if fs = [] ∧ ty ≠ .regionFunc then none
      else some (⟨(id, ty), s.cdt_read_ptr, s.cdt_current_base, 0⟩ :: fs)
  | .exitRegion id ty =>
      match fs with
      | [] => none
      | f :: rest => if f.key = (id, ty) ∧ f.pending = 0 then some rest else none
  | .landingPad id _ =>
      if id ∈ (fs.map CDepFrame.key).map Prod.fst then
        some (fs.dropWhile fun f => f.key.1 ≠ id)
      else none
  | .pushCDep _ =>
      match fs with
      | [] => none
      | f :: rest => some ({ f with pending := f.pending + 1 } :: rest)
  | .popCDep =>
      match fs with
      | [] => none
      | f :: rest =>
          if 0 < f.pending then some ({ f with pending := f.pending - 1 } :: rest) else none
  | _ => some fs

/-- The program and its profiler. -/
def cdepJoint (cfg : Config) (x : List CDepFrame × KremlinProfiler) (e : Event) :
    Option (List CDepFrame × KremlinProfiler) := do
  let fs ← cdepStep x.2 x.1 e
  let s ← step cfg x.2 e
  some (fs, s)

/-- The regions a call leaves, deepest first. -/
def leaves (fs : List CDepFrame) : Event → List CDepFrame
  | .exitRegion _ _ => fs.take 1
  | .landingPad id _ => fs.takeWhile fun f => f.key.1 ≠ id
  | _ => []

/-- A call restores the control-dependence stack: once the outermost region it
leaves is left, the stack is what it was at that region's entry, and the stack
is never deeper than the live blocks. -/
def RestoresCDeps (cfg : Config) (x : List CDepFrame × KremlinProfiler) (e : Event) : Prop :=
  ∀ x', cdepJoint cfg x e = some x' →
    (∀ f ∈ (leaves x.1 e).getLast?, x'.2.cdt_read_ptr = f.entry_ptr ∧
      ∀ b ∈ f.entry_base, x'.2.cdt_current_base = some b) ∧
    x'.2.cdt_read_ptr ≤ livePushes x'.1

/-- A landing pad unwinds no region that has a push it has not popped. -/
def UnwindsPopped (x : List CDepFrame × KremlinProfiler) : Event → Prop
  | .landingPad id _ => id ∈ (x.1.map CDepFrame.key).map Prod.fst →
      ∀ f ∈ x.1.takeWhile (fun f => f.key.1 ≠ id), f.pending = 0
  | _ => True

instance (x : List CDepFrame × KremlinProfiler) : (e : Event) → Decidable (UnwindsPopped x e)
  | .landingPad id _ => inferInstanceAs (Decidable (id ∈ (x.1.map CDepFrame.key).map Prod.fst →
      ∀ f ∈ x.1.takeWhile (fun f => f.key.1 ≠ id), f.pending = 0))
  | .work _ | .enterRegion _ _ | .exitRegion _ _ | .instr _ | .store _ _ _ | .storeConst _ _
  | .pushCDep _ | .popCDep | .prepCall _ _ | .enqArg _ | .enqArgConst | .deqArg _
  | .prepRTable _ _ | .linkReturn _ | .ret _ | .retConst => .isTrue trivial

/-! ## §2. The stack follows the live blocks. -/

/-- Each region was entered at the pushes around it.  `set` says that the base
pointer has been set by now. -/
def EntriesOk (col : ℕ) (set : Bool) : List CDepFrame → Prop
  | [] => True
  | f :: fs =>
      (f.entry_ptr = livePushes fs ∧
        ∀ b ∈ f.entry_base, b = col * livePushes fs ∧ set = true) ∧ EntriesOk col set fs

/-- While no unpopped push has been unwound, the stack is as deep as the live
blocks, and the base is that of its row. -/
structure CDepStackOk (cfg : Config) (fs : List CDepFrame) (s : KremlinProfiler) : Prop where
  tracks : Tracks (fs.map CDepFrame.key) s
  col : s.control_dependence_table.col = cfg.cdep_col
  ptr : s.cdt_read_ptr = livePushes fs
  base : ∀ b ∈ s.cdt_current_base, b = cfg.cdep_col * s.cdt_read_ptr
  entries : EntriesOk cfg.cdep_col s.cdt_current_base.isSome fs

variable {cfg : Config} {fs : List CDepFrame} {s s' : KremlinProfiler}

/-- The pushes of one more region. -/
theorem livePushes_cons (f : CDepFrame) (fs : List CDepFrame) :
    livePushes (f :: fs) = f.pending + livePushes fs := by
  rw [livePushes, List.map_cons, List.sum_cons, livePushes]

/-- The pushes of two parts. -/
theorem livePushes_append (fs fs' : List CDepFrame) :
    livePushes (fs ++ fs') = livePushes fs + livePushes fs' := by
  rw [livePushes, List.map_append, List.sum_append, livePushes, livePushes]

/-- There are none when no region has one. -/
theorem livePushes_eq_zero : livePushes fs = 0 ↔ ∀ f ∈ fs, f.pending = 0 := by
  induction fs with
  | nil => exact ⟨fun _ f hf => absurd hf List.not_mem_nil, fun _ => rfl⟩
  | cons f fs ih => rw [livePushes_cons, Nat.add_eq_zero_iff, ih, List.forall_mem_cons]

/-- The entries may be told of the table. -/
theorem EntriesOk.set {col : ℕ} {set : Bool} (h : EntriesOk col set fs) :
    EntriesOk col true fs := by
  induction fs with
  | nil => trivial
  | cons f fs ih => exact ⟨⟨h.1.1, fun b hb => ⟨(h.1.2 b hb).1, rfl⟩⟩, ih h.2⟩

/-- The outer regions keep theirs. -/
theorem EntriesOk.right {col : ℕ} {set : Bool} {fs' : List CDepFrame}
    (h : EntriesOk col set (fs' ++ fs)) : EntriesOk col set fs := by
  induction fs' with
  | nil => exact h
  | cons f fs' ih => exact ih h.2

/-- The outermost of the innermost regions was entered at the pushes around
them all. -/
theorem EntriesOk.getLast {col : ℕ} {set : Bool} {f : CDepFrame} {fs' : List CDepFrame}
    (h : EntriesOk col set (fs' ++ fs)) (hf : f ∈ fs'.getLast?) :
    f.entry_ptr = livePushes fs ∧ ∀ b ∈ f.entry_base, b = col * livePushes fs ∧ set = true := by
  induction fs' with
  | nil => cases hf
  | cons g fs' ih =>
      cases fs' with
      | nil =>
          cases hf
          exact h.1
      | cons g' fs' =>
          rw [List.getLast?_cons_cons] at hf
          exact ih h.2 hf

/-- At the start nothing was pushed. -/
theorem cdepStackOk_init (cfg : Config) (v : ℕ) : CDepStackOk cfg [] (init cfg v) where
  tracks := tracks_init cfg v
  col := rfl
  ptr := rfl
  base b hb := by cases hb
  entries := trivial

namespace CDepStackOk

/-- A call that keeps the stacks. -/
theorem of_sameStacks (h : CDepStackOk cfg fs s) (h' : SameStacks s s') :
    CDepStackOk cfg fs s' where
  tracks := h.tracks.of_sameLevels h'.toSameLevels
  col := by rw [h'.cdeps]; exact h.col
  ptr := h'.readPtr.trans h.ptr
  base := by rw [h'.base, h'.readPtr]; exact h.base
  entries := by rw [h'.base]; exact h.entries

/-- Moving to the row of the pushes sets the base to it. -/
theorem of_setCdtBase {fs' : List CDepFrame} (ht : Tracks (fs'.map CDepFrame.key) s')
    (hcol : s'.control_dependence_table.col = cfg.cdep_col)
    (hptr : s'.cdt_read_ptr = livePushes fs')
    (hbase : s'.cdt_current_base
      = some (s'.control_dependence_table.getOffset s'.cdt_read_ptr 0))
    (hentries : EntriesOk cfg.cdep_col true fs') : CDepStackOk cfg fs' s' where
  tracks := ht
  col := hcol
  ptr := hptr
  base b hb := by
    rw [hbase] at hb
    cases hb
    rw [← hcol]
    rfl
  entries := by rw [hbase]; exact hentries

/-- An entry remembers where the stack stands. -/
theorem enterRegion {id : SID} {ty : RegionType} (h : CDepStackOk cfg fs s)
    (hfirst : ¬ (fs = [] ∧ ty ≠ .regionFunc))
    (hstep : handleRegionEntry cfg id ty s = some s') :
    CDepStackOk cfg (⟨(id, ty), s.cdt_read_ptr, s.cdt_current_base, 0⟩ :: fs) s' := by
  have hnext : nextLevel s.curr_level = (fs.map CDepFrame.key).length := by
    rw [h.tracks.level, nextLevel_prevLevel h.tracks.bounded]
  have ht := h.tracks.enterRegion (fun hf => hfirst ⟨List.map_eq_nil_iff.mp hf.1, hf.2⟩) hstep
  obtain ⟨s₁, cdeps, base, hfunc, hloop, rfl, hcol, hbase⟩ :=
    handleRegionEntry_eq_some h.tracks.enabled (hnext ▸ h.tracks.capacity) h.tracks.nonempty hstep
  -- neither kind of region touches the stack before its row is set
  have hkept : s₁.cdt_read_ptr = s.cdt_read_ptr ∧ s₁.cdt_current_base = s.cdt_current_base ∧
      s₁.control_dependence_table = s.control_dependence_table := by
    by_cases hty : ty = .regionFunc
    · rw [hfunc hty]
      exact ⟨rfl, rfl, rfl⟩
    · have hsame := hloop hty
      exact ⟨hsame.readPtr, hsame.base, hsame.cdeps⟩
  obtain ⟨hptr₁, hbase₁, hcdeps₁⟩ := hkept
  have hcol : cdeps.col = cfg.cdep_col := by rw [hcol, hcdeps₁, h.col]
  have hptr : s₁.cdt_read_ptr = livePushes fs := hptr₁.trans h.ptr
  have hlive : ∀ key p b, livePushes (⟨key, p, b, 0⟩ :: fs) = livePushes fs := by
    intro key p b
    rw [livePushes_cons, Nat.zero_add]
  have hentry : ∀ b ∈ s.cdt_current_base, b = cfg.cdep_col * livePushes fs := by
    intro b hb
    rw [← h.ptr]
    exact h.base b hb
  by_cases hinst : s₁.instrument_curr_level = true
  · rw [if_pos hinst] at hbase
    subst hbase
    refine .of_setCdtBase ht hcol (hptr.trans (hlive _ _ _).symm) rfl ⟨⟨h.ptr, fun b hb => ?_⟩, ?_⟩
    · exact ⟨hentry b hb, rfl⟩
    · exact h.entries.set
  · rw [if_neg hinst] at hbase
    subst hbase
    refine ⟨ht, hcol, hptr.trans (hlive _ _ _).symm, ?_, ⟨h.ptr, fun b hb => ?_⟩, ?_⟩
    · intro b hb
      show b = cfg.cdep_col * s₁.cdt_read_ptr
      rw [hptr, ← h.ptr]
      exact h.base b (hbase₁ ▸ hb)
    · have hb : s.cdt_current_base = some b := hb
      refine ⟨hentry b hb, ?_⟩
      rw [hbase₁, hb]
      rfl
    · rw [hbase₁]
      exact h.entries

/-- A push belongs to the innermost region, -/
theorem pushCDep {f : CDepFrame} {cond : ℕ} (h : CDepStackOk cfg (f :: fs) s)
    (hstep : handlePushCDep cond s = some s') :
    CDepStackOk cfg ({ f with pending := f.pending + 1 } :: fs) s' := by
  rw [handlePushCDep, if_pos h.tracks.enabled] at hstep
  simp only [Option.bind_eq_bind, Option.bind_eq_some_iff, Option.some.injEq] at hstep
  obtain ⟨lTable, -, t, ht, rfl⟩ := hstep
  refine .of_setCdtBase (h.tracks.of_sameLevels ⟨rfl, rfl, rfl, rfl, fun _ => rfl⟩)
    ((copyToDest_col ht).trans h.col) ?_ rfl ⟨⟨h.entries.1.1, fun b hb => ⟨(h.entries.1.2 b hb).1, rfl⟩⟩,
      h.entries.2.set⟩
  show s.cdt_read_ptr + 1 = _
  rw [h.ptr, livePushes_cons, livePushes_cons]
  show f.pending + livePushes fs + 1 = f.pending + 1 + livePushes fs
  omega

/-- and so does a pop. -/
theorem popCDep {f : CDepFrame} (h : CDepStackOk cfg (f :: fs) s) (hpos : 0 < f.pending)
    (hstep : handlePopCDep s = some s') :
    CDepStackOk cfg ({ f with pending := f.pending - 1 } :: fs) s' := by
  have hptr := h.ptr
  rw [livePushes_cons] at hptr
  rw [handlePopCDep, if_pos h.tracks.enabled] at hstep
  cases hread : s.cdt_read_ptr with
  | zero => omega
  | succ k =>
      rw [hread] at hstep hptr
      cases hstep
      refine .of_setCdtBase (h.tracks.of_sameLevels ⟨rfl, rfl, rfl, rfl, fun _ => rfl⟩) h.col ?_
        rfl ⟨⟨h.entries.1.1, fun b hb => ⟨(h.entries.1.2 b hb).1, rfl⟩⟩, h.entries.2.set⟩
      rw [livePushes_cons]
      show k = f.pending - 1 + livePushes fs
      omega

/-- The exit of a region leaves the stack alone. -/
theorem exit (cfg : Config) {f : CDepFrame} (h : Tracks ((f :: fs).map CDepFrame.key) s) :
    ∃ s', step cfg s (exitOf f.key) = some s' ∧ Tracks (fs.map CDepFrame.key) s' ∧
      s'.cdt_read_ptr = s.cdt_read_ptr ∧ s'.cdt_current_base = s.cdt_current_base ∧
      s'.control_dependence_table = s.control_dependence_table := by
  obtain ⟨g, rest, -, hstep, ht⟩ := Tracks.exit cfg
    (show Tracks (f.key :: fs.map CDepFrame.key) s from h)
  exact ⟨_, hstep, ht, rfl, rfl, rfl⟩

/-- A landing pad leaves the first of the two parts. -/
theorem takeWhile_append (id : SID) (fs : List CDepFrame) :
    (fs.takeWhile fun f => f.key.1 ≠ id) ++ (fs.dropWhile fun f => f.key.1 ≠ id) = fs :=
  List.takeWhile_append_dropWhile

/-- So does a landing pad. -/
theorem landingPad (cfg : Config) {id : SID} (ty : RegionType) (h : Tracks (fs.map CDepFrame.key) s)
    (hopen : id ∈ (fs.map CDepFrame.key).map Prod.fst) :
    ∃ s', handleLandingPad cfg id ty s = some s' ∧
      Tracks ((fs.dropWhile fun f => f.key.1 ≠ id).map CDepFrame.key) s' ∧
      s'.cdt_read_ptr = s.cdt_read_ptr ∧ s'.cdt_current_base = s.cdt_current_base ∧
      s'.control_dependence_table = s.control_dependence_table := by
  have hexits : ((fs.map CDepFrame.key).takeWhile fun k => k.1 ≠ id).map exitOf
      = (fs.takeWhile fun f => f.key.1 ≠ id).map fun f => exitOf f.key := by
    rw [List.takeWhile_map, List.map_map]
    rfl
  rw [h.landingPad_eq_run hopen, hexits]
  refine run_exits (P := fun fs s' => Tracks (fs.map CDepFrame.key) s' ∧
    s'.cdt_read_ptr = s.cdt_read_ptr ∧ s'.cdt_current_base = s.cdt_current_base ∧
    s'.control_dependence_table = s.control_dependence_table) ?_ _ _ ?_
  · intro f fs s₁ hP
    obtain ⟨s', hstep, ht, hptr, hbase, hcdeps⟩ := exit cfg hP.1
    exact ⟨s', hstep, ht, hptr.trans hP.2.1, hbase.trans hP.2.2.1, hcdeps.trans hP.2.2.2⟩
  · rw [takeWhile_append]
    exact ⟨h, rfl, rfl, rfl⟩

/-- Unwinding regions without unpopped pushes. -/
theorem unwound {fs' : List CDepFrame} (h : CDepStackOk cfg (fs' ++ fs) s)
    (hpopped : ∀ f ∈ fs', f.pending = 0) (ht : Tracks (fs.map CDepFrame.key) s')
    (hptr : s'.cdt_read_ptr = s.cdt_read_ptr) (hbase : s'.cdt_current_base = s.cdt_current_base)
    (hcdeps : s'.control_dependence_table = s.control_dependence_table) :
    CDepStackOk cfg fs s' where
  tracks := ht
  col := by rw [hcdeps]; exact h.col
  ptr := by
    rw [hptr, h.ptr, livePushes_append, livePushes_eq_zero.mpr hpopped, Nat.zero_add]
  base := by rw [hbase, hptr]; exact h.base
  entries := by rw [hbase]; exact h.entries.right

/-- What is restored when regions without unpopped pushes are left. -/
theorem restored {fs' : List CDepFrame} (h : CDepStackOk cfg (fs' ++ fs) s)
    (h' : CDepStackOk cfg fs s') (hbase : s'.cdt_current_base = s.cdt_current_base) :
    ∀ f ∈ fs'.getLast?, s'.cdt_read_ptr = f.entry_ptr ∧
      ∀ b ∈ f.entry_base, s'.cdt_current_base = some b := by
  intro f hf
  obtain ⟨hentry, hrow⟩ := h.entries.getLast hf
  refine ⟨h'.ptr.trans hentry.symm, fun b hb => ?_⟩
  obtain ⟨hb, hset⟩ := hrow b hb
  rw [← hbase] at hset
  obtain ⟨b', hb'⟩ := Option.isSome_iff_exists.mp hset
  have hb'' := h'.base b' hb'
  rw [h'.ptr] at hb''
  rw [hb', hb, hb'']

/-! ## §3. One step. -/

/-- **A step that unwinds no unpopped push keeps the stack in order**, and
restores it. -/
theorem joint {x : List CDepFrame × KremlinProfiler} {e : Event} (h : CDepStackOk cfg fs s)
    (hpopped : UnwindsPopped (fs, s) e) (hstep : cdepJoint cfg (fs, s) e = some x) :
    CDepStackOk cfg x.1 x.2 ∧
      ∀ f ∈ (leaves fs e).getLast?, x.2.cdt_read_ptr = f.entry_ptr ∧
        ∀ b ∈ f.entry_base, x.2.cdt_current_base = some b := by
  simp only [cdepJoint, Option.bind_eq_bind, Option.bind_eq_some_iff, Option.some.injEq] at hstep
  obtain ⟨fs', hprog, s', hprof, rfl⟩ := hstep
  have hnone : ∀ f ∈ ([] : List CDepFrame).getLast?, s'.cdt_read_ptr = f.entry_ptr ∧
      ∀ b ∈ f.entry_base, s'.cdt_current_base = some b := fun f hf => by cases hf
  by_cases hmove : MovesLevels e
  · cases e with
    | enterRegion id ty =>
        have hprog : (if fs = [] ∧ ty ≠ .regionFunc then none
            else some (⟨(id, ty), s.cdt_read_ptr, s.cdt_current_base, 0⟩ :: fs)) = some fs' := hprog
        split at hprog
        · cases hprog
        · next hfirst =>
            cases hprog
            exact ⟨h.enterRegion hfirst hprof, hnone⟩
    | exitRegion id ty =>
        cases fs with
        | nil => cases hprog
        | cons f rest =>
            have hprog : (if f.key = (id, ty) ∧ f.pending = 0 then some rest else none)
              = some fs' := hprog
            have hsplit : CDepStackOk cfg ([f] ++ rest) s := h
            split at hprog
            · next hok =>
                obtain rfl := Option.some.inj hprog
                obtain ⟨s₁, h₁, ht, hptr, hbase, hcdeps⟩ := exit cfg h.tracks
                rw [hok.1] at h₁
                obtain rfl := Option.some.inj (h₁.symm.trans hprof)
                have hkept := hsplit.unwound (by simpa using hok.2) ht hptr hbase hcdeps
                exact ⟨hkept, hsplit.restored hkept hbase⟩
            · cases hprog
    | landingPad id ty =>
        have hprog : (if id ∈ (fs.map CDepFrame.key).map Prod.fst then
            some (fs.dropWhile fun f => f.key.1 ≠ id) else none) = some fs' := hprog
        split at hprog
        · next hopen =>
            cases hprog
            obtain ⟨s₁, h₁, ht, hptr, hbase, hcdeps⟩ := landingPad cfg ty h.tracks hopen
            obtain rfl := Option.some.inj (h₁.symm.trans hprof)
            rw [← takeWhile_append id fs] at h
            have hkept := h.unwound (hpopped hopen) ht hptr hbase hcdeps
            exact ⟨hkept, h.restored hkept hbase⟩
        · cases hprog
    | _ => exact hmove.elim
  · by_cases hset : SetsStacks e
    · cases e with
      | prepRTable n d =>
          cases hprog
          -- a register table is no part of the stack
          obtain ⟨f, rest, hstack, rfl⟩ := handlePrepRTable_eq_some h.tracks.enabled hprof
          refine ⟨?_, hnone⟩
          have ht := h.tracks.of_sameLevels (step_sameLevels hmove hprof)
          exact ⟨ht, h.col, h.ptr, h.base, h.entries⟩
      | pushCDep cond =>
          cases fs with
          | nil => cases hprog
          | cons f rest =>
              cases hprog
              exact ⟨h.pushCDep hprof, hnone⟩
      | popCDep =>
          cases fs with
          | nil => cases hprog
          | cons f rest =>
              have hprog : (if 0 < f.pending then
                some ({ f with pending := f.pending - 1 } :: rest) else none) = some fs' := hprog
              split at hprog
              · next hpos =>
                  cases hprog
                  exact ⟨h.popCDep hpos hprof, hnone⟩
              · cases hprog
      | _ => exact hset.elim
    · -- no other call touches the levels or the stack
      have hsame := step_sameStacks hmove hset hprof
      have hfs : fs' = fs := by
        cases e with
        | enterRegion id ty => exact absurd trivial hmove
        | exitRegion id ty => exact absurd trivial hmove
        | landingPad id ty => exact absurd trivial hmove
        | prepRTable n d => exact absurd trivial hset
        | pushCDep cond => exact absurd trivial hset
        | popCDep => exact absurd trivial hset
        | _ => exact (Option.some.inj hprog).symm
      have hleaves : leaves fs e = [] := by
        cases e with
        | exitRegion id ty => exact absurd trivial hmove
        | landingPad id ty => exact absurd trivial hmove
        | _ => rfl
      rw [hfs, hleaves]
      exact ⟨h.of_sameStacks hsame, hnone⟩

/-- A step restores the stack exactly when it unwinds no unpopped push. -/
theorem restores_iff (h : CDepStackOk cfg fs s) (e : Event) :
    RestoresCDeps cfg (fs, s) e ↔ UnwindsPopped (fs, s) e := by
  constructor
  · intro hrestores
    cases e with
    | landingPad id ty =>
        intro hopen
        obtain ⟨s', h', ht, hptr, -, -⟩ := landingPad cfg ty h.tracks hopen
        have hjoint : cdepJoint cfg (fs, s) (.landingPad id ty)
            = some (fs.dropWhile fun f => f.key.1 ≠ id, s') := by
          have hprog : cdepStep s fs (.landingPad id ty)
              = some (fs.dropWhile fun f => f.key.1 ≠ id) := if_pos hopen
          rw [cdepJoint, hprog]
          show (step cfg s (.landingPad id ty)).bind _ = _
          rw [show step cfg s (.landingPad id ty) = some s' from h']
          rfl
        have hdeep : s'.cdt_read_ptr ≤ livePushes (fs.dropWhile fun f => f.key.1 ≠ id) :=
          (hrestores _ hjoint).2
        -- the pushes of the unwound regions are still on the stack
        rw [hptr, h.ptr] at hdeep
        have hsplit := livePushes_append (fs.takeWhile fun f => f.key.1 ≠ id)
          (fs.dropWhile fun f => f.key.1 ≠ id)
        rw [takeWhile_append] at hsplit
        have hzero : livePushes (fs.takeWhile fun f => f.key.1 ≠ id) = 0 := by omega
        exact livePushes_eq_zero.mp hzero
    | _ => exact trivial
  · intro hpopped x hx
    obtain ⟨hkept, hrestored⟩ := h.joint hpopped hx
    exact ⟨hrestored, Nat.le_of_eq hkept.ptr⟩

end CDepStackOk

/-! ## §4. Runs. -/

/-- **Leaving regions restores the control-dependence stack all along a run if
and only if no landing pad of the run unwinds a region with a push it has not
popped.** -/
theorem leaving_restores_iff (cfg : Config) (nextVersion : ℕ) (calls : List Event) :
    RunOk (cdepJoint cfg) (RestoresCDeps cfg) ([], init cfg nextVersion) calls ↔
      RunOk (cdepJoint cfg) UnwindsPopped ([], init cfg nextVersion) calls :=
  runOk_congr (P := fun x => CDepStackOk cfg x.1 x.2) (fun _ e h => h.restores_iff e)
    (fun _ _ _ h hpopped hstep => (h.joint hpopped hstep).1) (cdepStackOk_init cfg nextVersion)
    calls

/-- A function called from a conditional block throws, and its caller's caller
catches. -/
def throwFromBlock : List Event :=
  [.enterRegion 1 .regionFunc, .prepRTable 4 0, .prepCall 1 2, .enterRegion 2 .regionFunc,
   .prepRTable 4 0, .pushCDep 1, .prepCall 2 3, .enterRegion 3 .regionFunc, .prepRTable 4 0,
   .landingPad 1 .regionFunc]

/-- The condition of the block stays on the stack. -/
theorem not_leaving_restores :
    ¬ RunOk (cdepJoint { min_level := 0, max_level := 32 })
      (RestoresCDeps { min_level := 0, max_level := 32 })
      ([], init { min_level := 0, max_level := 32 } 0) throwFromBlock := by
  rw [runOk_congr (P := fun x => CDepStackOk { min_level := 0, max_level := 32 } x.1 x.2)
    (fun _ e h => h.restores_iff e)
    (fun _ _ _ h hpopped hstep => (h.joint hpopped hstep).1) (cdepStackOk_init _ 0)]
  decide +kernel

end Kremlin.Runtime
