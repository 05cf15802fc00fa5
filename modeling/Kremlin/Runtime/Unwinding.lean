/-
  Kremlin.Runtime.Unwinding — a landing pad is a sequence of region exits.

  `handleLandingPad` closes regions in a loop of its own and does not call
  `handleRegionExit`.  The two agree in every state the profiler can be
  brought to, whatever calls brought it there: `LevelsBounded` is all the argument
  needs of a state, and every call keeps it.
-/
import Kremlin.Runtime.LandingPad

namespace Kremlin.Runtime

open Kremlin.Library
open KremlinProfiler

/-! ## §1. Reachable states. -/

/-- Some sequence of calls leads to the state. -/
def Reachable (cfg : Config) (s : KremlinProfiler) : Prop :=
  ∃ nextVersion calls, run (step cfg) (init cfg nextVersion) calls = some s

/-- The current level is none or has its place in the region vector, which no
`UInt32` level outgrows. -/
structure LevelsBounded (s : KremlinProfiler) : Prop where
  enabled : s.enabled = true
  level : s.curr_level = minusOne ∨ s.curr_level < s.num_regions
  nonempty : 0 < s.num_regions
  bounded : s.num_regions ≤ 2 * arraySize

variable {cfg : Config} {s s' : KremlinProfiler}

namespace LevelsBounded

/-- At the start no level is open. -/
theorem init (cfg : Config) (nextVersion : ℕ) : LevelsBounded (init cfg nextVersion) where
  enabled := rfl
  level := .inl rfl
  nonempty := by show 0 < INIT_NUM_REGIONS; decide
  bounded := by show INIT_NUM_REGIONS ≤ 2 * arraySize; decide

/-- No level is `minusOne` once it has a region. -/
theorem ne_minusOne (h : LevelsBounded s) (hlevel : s.curr_level < s.num_regions) :
    s.curr_level ≠ minusOne := by
  have hb := h.bounded
  simp only [arraySize, minusOne] at hb ⊢
  omega

/-- There is room for the next level. -/
theorem nextLevel_le (h : LevelsBounded s) : nextLevel s.curr_level ≤ s.num_regions := by
  unfold nextLevel
  rcases h.level with hnone | hlt
  · rw [if_pos hnone]
    exact Nat.zero_le _
  · rw [if_neg (h.ne_minusOne hlt)]
    exact hlt

theorem of_sameLevels (h : LevelsBounded s) (h' : SameLevels s s') : LevelsBounded s' where
  enabled := h'.enabled.trans h.enabled
  level := by rw [h'.level, h'.capacity]; exact h.level
  nonempty := h'.capacity ▸ h.nonempty
  bounded := h'.capacity ▸ h.bounded

/-- An entry keeps the bounds, -/
theorem enterRegion {id : SID} {ty : RegionType} (h : LevelsBounded s)
    (hstep : handleRegionEntry cfg id ty s = some s') : LevelsBounded s' := by
  have hlt := handleRegionEntry_level_lt h.enabled hstep
  have hle := h.nextLevel_le
  have hpos := h.nonempty
  have hb := h.bounded
  obtain ⟨hen, hlev, hnum, -, -⟩ := handleRegionEntry_levels h.enabled hle hpos hstep
  have hnum : s'.num_regions = if nextLevel s.curr_level = s.num_regions then
      s.num_regions + s.num_regions else s.num_regions := hnum
  -- the vector doubles only at a level that still has a version
  have hgrown : nextLevel s.curr_level < s'.num_regions ∧ s'.num_regions ≤ 2 * arraySize := by
    rw [hnum]
    split <;> omega
  exact ⟨hen, .inr (hlev ▸ hgrown.1), by omega, hgrown.2⟩

/-- and so does a region that is closed, -/
theorem closed {ty : RegionType} {f : FunctionRegion} {rest : List FunctionRegion}
    (h : LevelsBounded s) (hlevel : s.curr_level < s.num_regions) :
    LevelsBounded (closed cfg ty f rest s) where
  enabled := h.enabled
  level := by
    show prevLevel s.curr_level = minusOne ∨ prevLevel s.curr_level < s.num_regions
    unfold prevLevel
    split
    · exact .inl rfl
    · exact .inr (by omega)
  nonempty := h.nonempty
  bounded := h.bounded

/-- by its own exit -/
theorem closeDeepest {ty : RegionType} (h : LevelsBounded s)
    (hclose : s.closeDeepest cfg ty = some s') : LevelsBounded s' := by
  obtain ⟨hlevel, f, rest, -, rfl⟩ := closeDeepest_eq_some hclose
  exact h.closed hlevel

/-- or by a landing pad. -/
theorem closeDownTo {end_level fuel : ℕ} (h : LevelsBounded s)
    (hclose : s.closeDownTo cfg end_level fuel = some s') : LevelsBounded s' := by
  induction fuel generalizing s with
  | zero =>
      rw [KremlinProfiler.closeDownTo] at hclose
      split at hclose
      · cases hclose
      · cases hclose
        exact h
  | succ fuel ih =>
      rw [KremlinProfiler.closeDownTo] at hclose
      split at hclose
      · rw [Option.bind_eq_bind, unwindDeepest_eq] at hclose
        obtain ⟨s₁, h₁, h₂⟩ := Option.bind_eq_some_iff.mp hclose
        obtain ⟨region, -, h₁⟩ := Option.bind_eq_some_iff.mp h₁
        exact ih (h.closeDeepest h₁) h₂
      · cases hclose
        exact h

/-- **Every call keeps `LevelsBounded`.** -/
theorem step {e : Event} (h : LevelsBounded s) (hstep : step cfg s e = some s') : LevelsBounded s' := by
  by_cases hmove : MovesLevels e
  · cases e with
    | enterRegion id ty => exact h.enterRegion hstep
    | exitRegion id ty =>
        have hclose : handleRegionExit cfg id ty s = some s' := hstep
        rw [handleRegionExit, if_pos h.enabled] at hclose
        exact h.closeDeepest hclose
    | landingPad id ty =>
        have hpad : handleLandingPad cfg id ty s = some s' := hstep
        rw [handleLandingPad, if_pos h.enabled] at hpad
        obtain ⟨end_level, -, hclose⟩ := Option.bind_eq_some_iff.mp hpad
        exact h.closeDownTo hclose
    | _ => exact hmove.elim
  · exact h.of_sameLevels (step_sameLevels hmove hstep)

end LevelsBounded

theorem Reachable.levelsBounded (h : Reachable cfg s) : LevelsBounded s := by
  obtain ⟨nextVersion, calls, hrun⟩ := h
  exact run_invariant (fun _ _ _ hs hstep => hs.step hstep) (LevelsBounded.init cfg nextVersion) hrun

/-! ## §2. The exits of a landing pad. -/

/-- The exit of a region under its own id and type. -/
def exitOf (k : RegionKey) : Event := .exitRegion k.1 k.2

/-- The exits of the regions deeper than the deepest one with an id, deepest
first. -/
def KremlinProfiler.deeperExits (s : KremlinProfiler) (id : SID) : List Event :=
  (s.openRegions.takeWhile fun k => k.1 ≠ id).map exitOf

/-- Up to the deepest region with the id, `takeWhile` counts levels. -/
theorem takeWhile_openFrom {id : SID} {e : ℕ} (hid : (s.regionKey e).1 = id) (d : ℕ)
    (hlast : ∀ l, e < l → l ≤ e + d → (s.regionKey l).1 ≠ id) :
    (s.openFrom (e + d + 1)).takeWhile (fun k => k.1 ≠ id) = (s.openFrom (e + d + 1)).take d := by
  induction d with
  | zero =>
      show (s.regionKey e :: s.openFrom e).takeWhile _ = []
      rw [List.takeWhile_cons_of_neg]
      simpa using hid
  | succ d ih =>
      have hdeep : (s.regionKey (e + d + 1)).1 ≠ id := hlast _ (by omega) (by omega)
      show (s.regionKey (e + d + 1) :: s.openFrom (e + d + 1)).takeWhile _
        = (s.regionKey (e + d + 1) :: s.openFrom (e + d + 1)).take (d + 1)
      rw [List.takeWhile_cons_of_pos (by simpa using hdeep), List.take_succ_cons,
        ih fun l hl hl' => hlast l hl (by omega)]

/-- **The loop of `handleLandingPad` is a run of `handleRegionExit`**, by
induction on the levels it closes. -/
theorem closeDownTo_eq_run {e d fuel : ℕ} (hs : s.enabled = true) (hlevel : s.curr_level = e + d)
    (hcap : e + d < s.num_regions) (hfuel : d ≤ fuel) :
    s.closeDownTo cfg e fuel =
      run (step cfg) s (((s.openFrom (e + d + 1)).take d).map exitOf) := by
  induction d generalizing s fuel with
  | zero =>
      have hdone : s.closeDownTo cfg e fuel = some s := by
        cases fuel <;> exact if_neg (by omega)
      rw [hdone, List.take_zero]
      rfl
  | succ d ih =>
      cases fuel with
      | zero => omega
      | succ fuel =>
          have hregion := getRegionAtLevel_of_lt (s := s) (l := s.curr_level) (by omega)
          have hstep : step cfg s (exitOf (s.regionKey (e + d + 1)))
              = s.closeDeepest cfg (s.program_regions s.curr_level).regionType := by
            rw [hlevel]
            exact if_pos hs
          have hexits : (s.openFrom (e + (d + 1) + 1)).take (d + 1)
              = s.regionKey (e + d + 1) :: (s.openFrom (e + d + 1)).take d := rfl
          rw [closeDownTo, if_pos (by omega), unwindDeepest_eq, hregion, hexits, List.map_cons,
            run_cons, hstep]
          show (s.closeDeepest cfg _).bind _ = _
          cases hclose : s.closeDeepest cfg (s.program_regions s.curr_level).regionType with
          | none => rfl
          | some s₁ =>
              obtain ⟨-, f, rest, -, hs₁⟩ := closeDeepest_eq_some hclose
              have hlevel₁ : s₁.curr_level = e + d := by
                rw [hs₁, closed_level, hlevel]
                exact prevLevel_succ _
              have hcap₁ : s₁.num_regions = s.num_regions := by rw [hs₁]; rfl
              -- closing a region keeps the ids and types of the ones around it
              have hkeys : s₁.openFrom (e + d + 1) = s.openFrom (e + d + 1) := by
                rw [hs₁]
                exact openFrom_congr fun l _ => closed_regionKey cfg _ f rest s l
              rw [← hkeys]
              exact ih (by rw [hs₁]; exact hs) hlevel₁ (by omega) (by omega)

/-- A landing pad for an open region, where the current level is a real one. -/
theorem handleLandingPad_eq_run {regionId : SID} {regionType : RegionType}
    (hs : s.enabled = true) (hlt : s.curr_level < s.num_regions)
    (hne : s.curr_level ≠ minusOne) (hopen : regionId ∈ s.openRegions.map Prod.fst) :
    handleLandingPad cfg regionId regionType s = run (step cfg) s (s.deeperExits regionId) := by
  have hnext : nextLevel s.curr_level = s.curr_level + 1 := if_neg hne
  obtain ⟨k, hk, hid⟩ := List.mem_map.mp hopen
  obtain ⟨c, hc, hkey⟩ := mem_openFrom.mp hk
  rw [hnext] at hc
  obtain ⟨e, -, hel, hfind, heid, hlast⟩ :=
    findDeepest_spec hlt (Nat.le_of_lt_succ hc) (show (s.regionKey c).1 = regionId from hkey ▸ hid)
  obtain ⟨d, hd⟩ := Nat.exists_eq_add_of_le hel
  have hexits : s.deeperExits regionId = ((s.openFrom (e + d + 1)).take d).map exitOf := by
    rw [deeperExits, openRegions, hnext, hd, takeWhile_openFrom heid d]
    intro l hl hl'
    exact hlast l hl (by omega)
  rw [handleLandingPad, if_pos hs, hfind, hexits]
  exact closeDownTo_eq_run hs hd (by omega) (by omega)

/-- Whatever one exit of the innermost frame keeps, a run of exits keeps. -/
theorem run_exits {α : Type} {key : α → RegionKey} {P : List α → KremlinProfiler → Prop}
    (hexit : ∀ f fs s, P (f :: fs) s → ∃ s', step cfg s (exitOf (key f)) = some s' ∧ P fs s')
    (ks fs : List α) (h : P (ks ++ fs) s) :
    ∃ s', run (step cfg) s (ks.map fun f => exitOf (key f)) = some s' ∧ P fs s' := by
  induction ks generalizing s with
  | nil => exact ⟨s, rfl, h⟩
  | cons k ks ih =>
      obtain ⟨s₁, h₁, hP⟩ := hexit k (ks ++ fs) s h
      obtain ⟨s', h', hP'⟩ := ih hP
      exact ⟨s', run_cons_eq_some.mpr ⟨s₁, h₁, h'⟩, hP'⟩

/-- Leaving the innermost region of a tracked stack. -/
theorem Tracks.exit {fs : Frames} {k : RegionKey} (cfg : Config) (h : Tracks (k :: fs) s) :
    ∃ f rest, s.callstack = f :: rest ∧
      step cfg s (exitOf k) = some (KremlinProfiler.closed cfg k.2 f rest s) ∧
      Tracks fs (KremlinProfiler.closed cfg k.2 f rest s) := by
  obtain ⟨s', hclose, ht⟩ := h.closeDeepest cfg
  obtain ⟨-, f, rest, hstack, rfl⟩ := closeDeepest_eq_some hclose
  exact ⟨f, rest, hstack, (if_pos h.enabled).trans hclose, ht⟩

/-- The exits of a landing pad, for the program's own stack of regions. -/
theorem Tracks.landingPad_eq_run {fs : Frames} {id : SID} {ty : RegionType} (h : Tracks fs s)
    (hopen : id ∈ fs.map Prod.fst) :
    handleLandingPad cfg id ty s
      = run (step cfg) s ((fs.takeWhile fun k => k.1 ≠ id).map exitOf) := by
  cases fs with
  | nil => exact absurd hopen List.not_mem_nil
  | cons k fs =>
      have hlev := h.level_cons
      have hcap := h.capacity
      have hb := h.bounded
      rw [List.length_cons] at hcap hb
      have hne : s.curr_level ≠ minusOne := by
        simp only [arraySize, minusOne] at hb ⊢
        omega
      rw [handleLandingPad_eq_run h.enabled (by omega) hne (h.openRegions.symm ▸ hopen),
        deeperExits, h.openRegions]

/-- **`handleLandingPad` is the composition of region exits.**  In every state
any sequence of calls can reach, and for every id that is open at some level,
it does to the profiler, the calls it has made on the region tree included,
what `handleRegionExit` does on each deeper region's own id and type in turn;
where an exit would fail, it fails too. -/
theorem landingPad_eq_exits (cfg : Config) (s : KremlinProfiler) (regionId : SID)
    (regionType : RegionType) (hs : Reachable cfg s)
    (hopen : regionId ∈ s.openRegions.map Prod.fst) :
    handleLandingPad cfg regionId regionType s = run (step cfg) s (s.deeperExits regionId) := by
  have hok := hs.levelsBounded
  -- an open region makes the current level a real one
  have hlt : s.curr_level < s.num_regions := by
    rcases hok.level with hnone | hlt
    · rw [openRegions, hnone] at hopen
      exact absurd hopen List.not_mem_nil
    · exact hlt
  exact handleLandingPad_eq_run hok.enabled hlt (hok.ne_minusOne hlt) hopen

/-- A function calls a function with a loop in it, and an exception leaves the
loop body for the outer function. -/
def throwFromLoop : List Event :=
  [.enterRegion 1 .regionFunc, .prepRTable 4 2, .work 3, .enterRegion 2 .regionFunc,
   .prepRTable 4 2, .enterRegion 3 .regionLoop, .enterRegion 4 .regionLoopBody, .work 2,
   .instr (.timestamp0 1)]

/-- The landing pad leaves the loop body, the loop and the inner function. -/
theorem landingPad_eq_exits_throw :
    ∃ s, run (step { min_level := 0, max_level := 32 })
        (init { min_level := 0, max_level := 32 } 0) throwFromLoop = some s ∧
      handleLandingPad { min_level := 0, max_level := 32 } 1 .regionFunc s
        = run (step { min_level := 0, max_level := 32 }) s (s.deeperExits 1) ∧
      s.deeperExits 1
        = [.exitRegion 4 .regionLoopBody, .exitRegion 3 .regionLoop, .exitRegion 2 .regionFunc] := by
  have hopen : (run (step { min_level := 0, max_level := 32 })
      (init { min_level := 0, max_level := 32 } 0) throwFromLoop).map openRegions
      = some [(4, .regionLoopBody), (3, .regionLoop), (2, .regionFunc), (1, .regionFunc)] := by
    decide +kernel
  obtain ⟨s, hs, hregions⟩ := Option.map_eq_some_iff.mp hopen
  refine ⟨s, hs, landingPad_eq_exits _ s 1 .regionFunc ⟨0, throwFromLoop, hs⟩ ?_, ?_⟩
  · rw [hregions]
    decide
  · rw [deeperExits, hregions]
    decide

end Kremlin.Runtime
