/-
  Kremlin.Runtime.RegionMoves — what entering and leaving a region does.

  `handleRegionEntry` and the body of `handleRegionExit`, each as one equation:
  the state the handler leaves, on the states it succeeds in.  The body of
  `handleLandingPad` is brought back to that of `handleRegionExit`.
-/
import Kremlin.Runtime.LevelStack

namespace Kremlin.Runtime

open Kremlin.Library

namespace KremlinProfiler

variable {cfg : Config} {s s' : KremlinProfiler}

/-! ## §1. Entering a region. -/

/-- The state in which a region has been opened and neither the registers nor
the control dependences have been cleaned. -/
def opened (cfg : Config) (regionId : SID) (regionType : RegionType) (s : KremlinProfiler) :
    KremlinProfiler :=
  let level := nextLevel s.curr_level
  updateLevelStatus cfg { s with
    curr_level := level
    num_regions := if level = s.num_regions then s.num_regions + s.num_regions else s.num_regions
    level_versions := fun l => if l = level then s.nextVersion else s.level_versions l
    nextVersion := s.nextVersion + 1
    program_regions := fun l =>
      if l = level then .init regionId regionType s.curr_time else s.program_regions l }

/-- The region vector doubles when the new level does not fit. -/
theorem grow_eq (s : KremlinProfiler) :
    (if s.curr_level = s.num_regions then s.doubleNumRegions else s)
      = { s with num_regions :=
            if s.curr_level = s.num_regions then s.num_regions + s.num_regions
            else s.num_regions } := by
  split <;> rfl

/-- The callsite id the region tree is told. -/
def contextCallSite (s : KremlinProfiler) : CID :=
  (s.getCurrentFunction.map (·.call_site_id)).getD 0

/-- The entry in three parts: levels, registers, control dependences. -/
theorem handleRegionEntry_eq {regionId : SID} {regionType : RegionType}
    (hs : s.enabled = true) (hlevel : nextLevel s.curr_level < arraySize)
    (hcap : nextLevel s.curr_level ≤ s.num_regions) (hpos : 0 < s.num_regions) :
    handleRegionEntry cfg regionId regionType s
      = (enterRegisters cfg regionType (opened cfg regionId regionType s)).bind fun s₁ =>
          enterControlDependences cfg
            (s₁.openContext regionId s₁.contextCallSite regionType) := by
  have hgrown : nextLevel s.curr_level
      < (if nextLevel s.curr_level = s.num_regions then s.num_regions + s.num_regions
          else s.num_regions) := by
    split <;> omega
  unfold handleRegionEntry
  rw [if_pos hs]
  dsimp only
  rw [grow_eq, getRegionAtLevel_of_lt hgrown, issueVersionToLevel]
  rw [if_pos (show (incrementLevel cfg s).curr_level < arraySize from hlevel)]
  rfl

/-- A region entry that succeeds found room in the version array. -/
theorem handleRegionEntry_level_lt {regionId : SID} {regionType : RegionType}
    (hs : s.enabled = true) (h : handleRegionEntry cfg regionId regionType s = some s') :
    nextLevel s.curr_level < arraySize := by
  unfold handleRegionEntry at h
  rw [if_pos hs] at h
  dsimp only at h
  rw [grow_eq] at h
  simp only [Option.bind_eq_bind, Option.bind_eq_some_iff] at h
  obtain ⟨-, -, s₁, hissue, -⟩ := h
  unfold issueVersionToLevel at hissue
  split at hissue
  · next hlt => exact hlt
  · cases hissue

/-- **What an entry that succeeds did**: it opened the level, gave a function an
activation, told the region tree and, at a level in the window, set the row of
control dependences. -/
theorem handleRegionEntry_eq_some {regionId : SID} {regionType : RegionType}
    (hs : s.enabled = true) (hcap : nextLevel s.curr_level ≤ s.num_regions)
    (hpos : 0 < s.num_regions) (h : handleRegionEntry cfg regionId regionType s = some s') :
    ∃ s₁ cdeps base,
      (regionType = .regionFunc →
        s₁ = (opened cfg regionId regionType s).addFunctionToStack s.last_callsite_id) ∧
      (regionType ≠ .regionFunc → SameStacks (opened cfg regionId regionType s) s₁) ∧
      s' = { s₁.openContext regionId s₁.contextCallSite regionType with
        control_dependence_table := cdeps
        cdt_current_base := base } ∧
      cdeps.col = s₁.control_dependence_table.col ∧
      base = (if s₁.instrument_curr_level then some (cdeps.getOffset s₁.cdt_read_ptr 0)
        else s₁.cdt_current_base) := by
  rw [handleRegionEntry_eq hs (handleRegionEntry_level_lt hs h) hcap hpos] at h
  obtain ⟨s₁, h₁, h₂⟩ := Option.bind_eq_some_iff.mp h
  -- a function gets a table of its own later, a loop zeroes its column now
  have hregs : (regionType = .regionFunc →
        s₁ = (opened cfg regionId regionType s).addFunctionToStack s.last_callsite_id) ∧
      (regionType ≠ .regionFunc → SameStacks (opened cfg regionId regionType s) s₁) := by
    unfold enterRegisters at h₁
    by_cases hty : regionType = .regionFunc
    · rw [if_pos hty] at h₁
      cases h₁
      exact ⟨fun _ => rfl, fun hne => absurd hty hne⟩
    · rw [if_neg hty] at h₁
      refine ⟨fun heq => absurd heq hty, fun _ => ?_⟩
      split at h₁
      · exact zeroRegistersAtIndex_sameStacks h₁
      · cases h₁
        exact .refl _
  unfold enterControlDependences at h₂
  by_cases hinst : s₁.instrument_curr_level = true
  · rw [if_pos (show (s₁.openContext _ _ _).instrument_curr_level = true from hinst)] at h₂
    simp only [initRegionControlDependences, Option.bind_eq_bind, Option.bind_eq_some_iff,
      Option.some.injEq] at h₂
    obtain ⟨t, ht, rfl⟩ := h₂
    exact ⟨s₁, t, _, hregs.1, hregs.2, rfl, setValue_col ht, (if_pos hinst).symm⟩
  · rw [if_neg (show ¬ (s₁.openContext _ _ _).instrument_curr_level = true from hinst)] at h₂
    cases h₂
    exact ⟨s₁, _, _, hregs.1, hregs.2, rfl, rfl, (if_neg hinst).symm⟩

/-- The region that was opened, and those around it. -/
theorem opened_regionKey (cfg : Config) (regionId : SID) (regionType : RegionType)
    (s : KremlinProfiler) (l : ℕ) :
    (opened cfg regionId regionType s).regionKey l
      = if l = nextLevel s.curr_level then (regionId, regionType) else s.regionKey l := by
  show (((if l = nextLevel s.curr_level then _ else _) : ProgramRegion).regionId,
    ((if l = nextLevel s.curr_level then _ else _) : ProgramRegion).regionType) = _
  by_cases hl : l = nextLevel s.curr_level
  · rw [if_pos hl, if_pos hl]
    rfl
  · rw [if_neg hl, if_neg hl]
    rfl

/-- What an entry does to the levels: it opens the new one and keeps the rest. -/
theorem handleRegionEntry_levels {regionId : SID} {regionType : RegionType}
    (hs : s.enabled = true) (hcap : nextLevel s.curr_level ≤ s.num_regions)
    (hpos : 0 < s.num_regions) (h : handleRegionEntry cfg regionId regionType s = some s') :
    s'.enabled = true ∧ s'.curr_level = nextLevel s.curr_level ∧
      s'.num_regions = (opened cfg regionId regionType s).num_regions ∧
      s'.callstack.length = s.callstack.length + (if regionType = .regionFunc then 1 else 0) ∧
      ∀ l, s'.regionKey l
        = if l = nextLevel s.curr_level then (regionId, regionType) else s.regionKey l := by
  obtain ⟨s₁, cdeps, base, hfunc, hloop, rfl, -, -⟩ := handleRegionEntry_eq_some hs hcap hpos h
  by_cases hty : regionType = .regionFunc
  · obtain rfl := hfunc hty
    exact ⟨hs, rfl, rfl, by rw [if_pos hty]; rfl, opened_regionKey cfg regionId regionType s⟩
  · have hsame := hloop hty
    rw [if_neg hty]
    exact ⟨hsame.enabled.trans hs, hsame.level, hsame.capacity, hsame.functions,
      fun l => (hsame.key l).trans (opened_regionKey cfg regionId regionType s l)⟩

/-! ## §2. Leaving a region. -/

/-- The work of the deepest open region. -/
def deepestWork (s : KremlinProfiler) : ℕ :=
  usub s.curr_time (s.program_regions s.curr_level).start

/-- The regions once the deepest one is charged to its parent. -/
def chargedRegions (cfg : Config) (s : KremlinProfiler) : ℕ → ProgramRegion := fun l =>
  if cfg.min_level < s.curr_level ∧ l = s.curr_level - 1 then
    (s.program_regions l).addChild s.deepestWork (s.program_regions s.curr_level).cp
  else s.program_regions l

/-- The state a closed region leaves. -/
def closed (cfg : Config) (regionType : RegionType) (f : FunctionRegion)
    (rest : List FunctionRegion) (s : KremlinProfiler) : KremlinProfiler :=
  decrementLevel cfg { s with
    program_regions := chargedRegions cfg s
    callstack := if regionType = .regionFunc then rest else f :: rest
    shadow_reg_file :=
      if regionType = .regionFunc ∧ rest ≠ [] then some (rest.length - 1) else s.shadow_reg_file
    treeCalls := s.treeCalls ++ [.closeCtx (fillRegionStats regionType s.deepestWork
      f.call_site_id (s.program_regions s.curr_level))] }

@[simp] theorem closed_level (cfg : Config) (ty : RegionType) (f : FunctionRegion)
    (rest : List FunctionRegion) (s : KremlinProfiler) :
    (closed cfg ty f rest s).curr_level = prevLevel s.curr_level := rfl

/-- Charging the parent rewrites a region under its own id and type. -/
theorem closed_regionKey (cfg : Config) (ty : RegionType) (f : FunctionRegion)
    (rest : List FunctionRegion) (s : KremlinProfiler) (l : ℕ) :
    (closed cfg ty f rest s).regionKey l = s.regionKey l := by
  show ((chargedRegions cfg s l).regionId, (chargedRegions cfg s l).regionType) = _
  unfold chargedRegions
  by_cases hc : cfg.min_level < s.curr_level ∧ l = s.curr_level - 1
  · rw [if_pos hc]
    rfl
  · rw [if_neg hc]
    rfl

/-- The update of the parent in `closeDeepest`. -/
theorem chargeParent_eq (cfg : Config) (hlevel : s.curr_level < s.num_regions) :
    (if s.curr_level > cfg.min_level then
        (s.getRegionAtLevel (s.curr_level - 1)).bind fun parent =>
          some (s.setRegion (s.curr_level - 1)
            (parent.addChild s.deepestWork (s.program_regions s.curr_level).cp))
      else some s) = some { s with program_regions := chargedRegions cfg s } := by
  by_cases hmin : cfg.min_level < s.curr_level
  · have hch : chargedRegions cfg s = fun l =>
        if l = s.curr_level - 1 then
          (s.program_regions (s.curr_level - 1)).addChild s.deepestWork
            (s.program_regions s.curr_level).cp
        else s.program_regions l := by
      funext l
      unfold chargedRegions
      by_cases hl : l = s.curr_level - 1
      · rw [if_pos ⟨hmin, hl⟩, if_pos hl, hl]
      · rw [if_neg (fun h => hl h.2), if_neg hl]
    rw [if_pos hmin, getRegionAtLevel_of_lt (show s.curr_level - 1 < s.num_regions by omega), hch]
    rfl
  · have hch : chargedRegions cfg s = s.program_regions := by
      funext l
      exact if_neg fun h => hmin h.1
    rw [if_neg hmin, hch]

/-- **Closing the deepest region**, on any state with a region and a function
open. -/
theorem closeDeepest_eq (cfg : Config) (regionType : RegionType) {f : FunctionRegion}
    {rest : List FunctionRegion} (hlevel : s.curr_level < s.num_regions)
    (hstack : s.callstack = f :: rest) :
    s.closeDeepest cfg regionType = some (closed cfg regionType f rest s) := by
  have hparent := chargeParent_eq cfg hlevel
  unfold closeDeepest
  dsimp only
  rw [getRegionAtLevel_of_lt hlevel]
  simp only [Option.bind_eq_bind, Option.bind_some]
  rw [show usub s.curr_time (s.program_regions s.curr_level).start = s.deepestWork from rfl,
    hparent]
  simp only [Option.bind_some, getCurrentFunction, hstack, List.head?_cons]
  by_cases hty : regionType = .regionFunc
  · simp only [hty, if_true, handleFunctionExit, closeContext]
    cases rest with
    | nil => simp [closed]
    | cons g rest => simp [closed]
  · simp [hty, closed, closeContext]

/-- A region that could be closed was there, and so was a function. -/
theorem closeDeepest_eq_some {regionType : RegionType}
    (h : s.closeDeepest cfg regionType = some s') :
    s.curr_level < s.num_regions ∧ ∃ f rest, s.callstack = f :: rest ∧
      s' = closed cfg regionType f rest s := by
  by_cases hlevel : s.curr_level < s.num_regions
  · cases hstack : s.callstack with
    | nil =>
        exfalso
        have hparent := chargeParent_eq cfg hlevel
        unfold closeDeepest at h
        dsimp only at h
        rw [getRegionAtLevel_of_lt hlevel] at h
        simp only [Option.bind_eq_bind, Option.bind_some] at h
        rw [show usub s.curr_time (s.program_regions s.curr_level).start = s.deepestWork from rfl,
          hparent] at h
        simp only [Option.bind_some, getCurrentFunction, hstack, List.head?_nil,
          Option.bind_none] at h
        cases h
    | cons f rest =>
        rw [closeDeepest_eq cfg regionType hlevel hstack] at h
        exact ⟨hlevel, f, rest, rfl, (Option.some.inj h).symm⟩
  · unfold closeDeepest at h
    dsimp only at h
    rw [getRegionAtLevel, if_neg hlevel] at h
    cases h

/-- **The body of `handleLandingPad` is that of `handleRegionExit`**, with the
type the deepest region records. -/
theorem unwindDeepest_eq (cfg : Config) (s : KremlinProfiler) :
    s.unwindDeepest cfg = (s.getRegionAtLevel s.curr_level).bind fun region =>
      s.closeDeepest cfg region.regionType := by
  unfold unwindDeepest closeDeepest
  dsimp only
  cases hregion : s.getRegionAtLevel s.curr_level with
  | none => rfl
  | some region =>
      -- the cap of `spWork` is a minimum
      have hcap : ∀ work spWork : ℕ, (if spWork > work then work else spWork) = min work spWork := by
        intro work spWork
        split <;> omega
      simp only [Option.bind_eq_bind, Option.bind_some, hcap]
      rfl

end KremlinProfiler

end Kremlin.Runtime
