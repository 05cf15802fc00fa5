/-
  Kremlin.Runtime.ShadowedRuns — the profile does not depend on the memory.

  The active levels and their versions, as the shadow memory is handed them, are
  followed along the runs of the profiler: in the window a region that is entered
  is a level more, and outside of it a version is issued that no access sees.

  Main results:
    * `Shadows.step` — what one call does with the memory is what it does with
      the map, if the memory refines maps;
    * `run_stepOn` — so it is in every run;
    * `skadu_profile`, `shadow_memories_agree` — for the memories of the profiler.
-/
import Kremlin.Runtime.ShadowedProfiler
import Kremlin.Runtime.Untouched

namespace Kremlin.Runtime

open Kremlin.Library Kremlin.Shadow

namespace KremlinProfiler

variable {cfg : Config}

/-! ## §1. The active levels. -/

/-- The levels and their versions are the same; so is the map. -/
structure SameActive (s s' : KremlinProfiler) : Prop where
  enabled : s'.enabled = s.enabled
  level : s'.curr_level = s.curr_level
  instrumented : s'.curr_num_instrumented_levels = s.curr_num_instrumented_levels
  versions : s'.level_versions = s.level_versions
  next : s'.nextVersion = s.nextVersion
  mem : s'.shadow_mem = s.shadow_mem

/-- Nothing changed. -/
theorem SameActive.refl (s : KremlinProfiler) : SameActive s s := ⟨rfl, rfl, rfl, rfl, rfl, rfl⟩

/-- One change after another. -/
theorem SameActive.trans {s₁ s₂ s₃ : KremlinProfiler} (h : SameActive s₁ s₂)
    (h' : SameActive s₂ s₃) : SameActive s₁ s₃ :=
  ⟨h'.enabled.trans h.enabled, h'.level.trans h.level, h'.instrumented.trans h.instrumented,
    h'.versions.trans h.versions, h'.next.trans h.next, h'.mem.trans h.mem⟩

variable {s s' : KremlinProfiler} {e : Event}

theorem SameWindow.sameActive (h : SameWindow s s') : SameActive s s' :=
  ⟨h.enabled, h.level, h.instrumented, h.versions, h.next, h.mem⟩

/-- **Calls that neither move the levels nor use the memory** keep the active levels. -/
theorem step_sameActive (hmoves : ¬ MovesLevels e) (hmem : ¬ UsesMemory e)
    (h : step cfg s e = some s') : SameActive s s' := by
  cases e with
  | enterRegion id ty | exitRegion id ty | landingPad id ty => exact absurd trivial hmoves
  | instr i | store r a size | storeConst a size => exact absurd trivial hmem
  | work amount =>
      cases h
      exact ⟨rfl, rfl, rfl, rfl, rfl, rfl⟩
  | prepCall c r | enqArg r | enqArgConst | deqArg r =>
      exact (step_sameWindow h trivial).sameActive
  | pushCDep cond | popCDep | prepRTable n d | linkReturn r | ret r | retConst =>
      exact (step_untouched h trivial).sameActive

/-- The levels of the profiled window that have a region open. -/
def activeLevels (cfg : Config) (level : ℕ) : ℕ :=
  if level = minusOne ∨ level < cfg.min_level then 0
  else min cfg.max_level level - cfg.min_level + 1

/-- What the shadow memory is called with. -/
def active (cfg : Config) (s : KremlinProfiler) : ActiveLevels where
  versions := versions cfg s
  levels := activeLevels cfg s.curr_level
  next := s.nextVersion

/-- The active levels are a matter of these fields. -/
theorem SameActive.active (h : SameActive s s') : active cfg s' = active cfg s := by
  unfold KremlinProfiler.active KremlinProfiler.versions
  rw [h.versions, h.next, h.level]

/-- A level below another one's. -/
theorem activeLevels_prevLevel {level : ℕ} (hle : cfg.min_level ≤ cfg.max_level)
    (hlevel : level < arraySize) :
    activeLevels cfg (prevLevel level) =
      if cfg.min_level ≤ level ∧ level ≤ cfg.max_level then activeLevels cfg level - 1
      else activeLevels cfg level := by
  have hminus : minusOne = 2 ^ 32 - 1 := rfl
  have harray : arraySize = 512 := rfl
  unfold activeLevels prevLevel
  split_ifs <;> omega

/-- In the window an entry makes one level more active. -/
theorem activeLevels_nextLevel {level : ℕ} (hle : cfg.min_level ≤ cfg.max_level)
    (hlevel : level = minusOne ∨ level < arraySize) :
    activeLevels cfg (nextLevel level) =
      if cfg.min_level ≤ nextLevel level ∧ nextLevel level ≤ cfg.max_level then
        activeLevels cfg level + 1
      else activeLevels cfg level := by
  have hminus : minusOne = 2 ^ 32 - 1 := rfl
  have harray : arraySize = 512 := rfl
  unfold activeLevels nextLevel
  split_ifs <;> omega

/-- The level just entered is the next one of the window. -/
theorem nextLevel_eq {level : ℕ} (hle : cfg.min_level ≤ nextLevel level)
    (hmax : nextLevel level ≤ cfg.max_level) :
    nextLevel level = cfg.min_level + activeLevels cfg level := by
  have hminus : minusOne = 2 ^ 32 - 1 := rfl
  unfold activeLevels
  unfold nextLevel at hle hmax ⊢
  split_ifs at hle hmax ⊢ <;> omega

/-! ## §2. The simulation. -/

section Simulation

variable {M : Type} {sh : MShadow M} {m₀ : M} {maxLevels : ℕ}
  {accessible : (addr width : ℕ) → Prop}

/-- **The memory stands for the profiler's map.** -/
structure Shadows (cfg : Config) (R : sh.Refinement m₀ maxLevels accessible)
    (s : KremlinProfiler) (m : M) : Prop where
  rep : R.Rep (active cfg s) s.shadow_mem m
  ordered : (active cfg s).Ordered
  below : s.shadow_mem.Below s.nextVersion
  issued : ∀ l, s.level_versions l ≤ s.nextVersion
  level : s.curr_level = minusOne ∨ s.curr_level < arraySize
  status : s.curr_level ≠ minusOne →
    s.curr_num_instrumented_levels = activeLevels cfg s.curr_level

variable {R : sh.Refinement m₀ maxLevels accessible} {m : M}

/-- Such a change leaves the memory right. -/
theorem Shadows.same (h : Shadows cfg R s m) (hsame : SameActive s s') : Shadows cfg R s' m where
  rep := by
    rw [hsame.active, hsame.mem]
    exact h.rep
  ordered := by
    rw [hsame.active]
    exact h.ordered
  below := by
    rw [hsame.mem, hsame.next]
    exact h.below
  issued l := by
    rw [hsame.versions, hsame.next]
    exact h.issued l
  level := by
    rw [hsame.level]
    exact h.level
  status hne := by
    rw [hsame.level] at hne ⊢
    rw [hsame.instrumented]
    exact h.status hne

/-- A level of the window is entered. -/
theorem Shadows.active_entered (h : Shadows cfg R s m) (hwindow : cfg.min_level ≤ cfg.max_level)
    (hlevel : s'.curr_level = nextLevel s.curr_level)
    (hversions : s'.level_versions =
      fun l => if l = nextLevel s.curr_level then s.nextVersion else s.level_versions l)
    (hnext : s'.nextVersion = s.nextVersion + 1)
    (hin : cfg.min_level ≤ nextLevel s.curr_level ∧ nextLevel s.curr_level ≤ cfg.max_level) :
    active cfg s' = (active cfg s).enter s.nextVersion := by
  have hlevels := activeLevels_nextLevel hwindow h.level
  have hindex := nextLevel_eq hin.1 hin.2
  rw [if_pos hin] at hlevels
  unfold active ActiveLevels.enter
  congr 1
  · funext i
    show s'.level_versions (cfg.min_level + i) = Function.update (versions cfg s)
      (activeLevels cfg s.curr_level) s.nextVersion i
    rw [hversions, Function.update_apply, hindex]
    exact if_congr (by omega) rfl rfl
  · rw [hlevel]
    exact hlevels

/-- A level outside of the window is entered: its version is issued all the same. -/
theorem Shadows.reissued (h : Shadows cfg R s m) (hwindow : cfg.min_level ≤ cfg.max_level)
    (hlevel : s'.curr_level = nextLevel s.curr_level)
    (hversions : s'.level_versions =
      fun l => if l = nextLevel s.curr_level then s.nextVersion else s.level_versions l)
    (hnext : s'.nextVersion = s.nextVersion + 1)
    (hout : ¬(cfg.min_level ≤ nextLevel s.curr_level ∧ nextLevel s.curr_level ≤ cfg.max_level)) :
    (active cfg s).Reissued (active cfg s') := by
  have hlevels := activeLevels_nextLevel hwindow h.level
  rw [if_neg hout] at hlevels
  have hsame : ∀ l, nextLevel s.curr_level ≠ cfg.min_level + l →
      (active cfg s').versions l = (active cfg s).versions l := by
    intro l hl
    show s'.level_versions _ = s.level_versions _
    rw [hversions]
    exact if_neg fun heq => hl heq.symm
  refine ⟨?_, ?_, ?_, ?_⟩
  · show activeLevels cfg s'.curr_level = _
    rw [hlevel]
    exact hlevels
  · intro l hl
    apply hsame
    have hl' : l < activeLevels cfg s.curr_level := hl
    unfold activeLevels at hl'
    split_ifs at hl' <;> omega
  -- versions only grow
  · intro l
    show s.level_versions _ ≤ s'.level_versions _
    rw [hversions]
    dsimp only
    split
    · exact h.issued _
    · exact Nat.le_refl _
  · show s.nextVersion ≤ s'.nextVersion
    rw [hnext]
    exact Nat.le_succ _

/-- **A version is issued** to the level that is entered, in the window or not. -/
theorem Shadows.entered (h : Shadows cfg R s m) (hwindow : cfg.min_level ≤ cfg.max_level)
    (hlevel : s'.curr_level = nextLevel s.curr_level) (hbound : s'.curr_level < arraySize)
    (hstatus : s'.curr_num_instrumented_levels =
      if s'.curr_level < cfg.min_level then 0
      else min cfg.max_level s'.curr_level - cfg.min_level + 1)
    (hversions : s'.level_versions =
      fun l => if l = nextLevel s.curr_level then s.nextVersion else s.level_versions l)
    (hnext : s'.nextVersion = s.nextVersion + 1) (hmem : s'.shadow_mem = s.shadow_mem) :
    Shadows cfg R s' m := by
  have hne : s'.curr_level ≠ minusOne := by
    have hminus : minusOne = 2 ^ 32 - 1 := rfl
    have harray : arraySize = 512 := rfl
    omega
  -- in the window a level more, outside of it a version nobody looks at
  have hrep : R.Rep (active cfg s') s'.shadow_mem m ∧ (active cfg s').Ordered := by
    rw [hmem]
    by_cases hin : cfg.min_level ≤ nextLevel s.curr_level ∧ nextLevel s.curr_level ≤ cfg.max_level
    · rw [h.active_entered hwindow hlevel hversions hnext hin]
      exact ⟨R.rep_enter h.rep h.below (Nat.le_refl _), h.ordered.enter (Nat.le_refl _)⟩
    · have hre := h.reissued hwindow hlevel hversions hnext hin
      exact ⟨R.rep_reissued h.rep h.below hre, hre.ordered h.ordered⟩
  refine ⟨hrep.1, hrep.2, ?_, ?_, .inr hbound, fun _ => ?_⟩
  · rw [hmem, hnext]
    exact h.below.mono (Nat.le_succ _)
  · intro l
    rw [hversions, hnext]
    dsimp only
    split
    · exact Nat.le_succ _
    · exact Nat.le_succ_of_le (h.issued l)
  · rw [hstatus]
    unfold activeLevels
    split_ifs <;> omega

/-- An entry keeps the memory right, -/
theorem handleRegionEntry_shadows (h : Shadows cfg R s m) (hwindow : cfg.min_level ≤ cfg.max_level)
    {regionId : SID} {regionType : RegionType}
    (hstep : handleRegionEntry cfg regionId regionType s = some s') : Shadows cfg R s' m := by
  unfold handleRegionEntry at hstep
  split at hstep
  · simp only [Option.bind_eq_bind, Option.bind_eq_some_iff] at hstep
    obtain ⟨-, -, s₁, hissue, s₂, hregs, hcdep⟩ := hstep
    unfold issueVersionToLevel at hissue
    split at hissue
    · next hbound =>
        cases hissue
        have hsame := (enterRegisters_untouched hregs).sameActive.trans
          ((⟨rfl, rfl, rfl, rfl, rfl, rfl⟩ : SameActive s₂ (s₂.openContext regionId _ regionType)).trans
            (enterControlDependences_untouched hcdep).sameActive)
        refine Shadows.same ?_ hsame
        -- doubling the regions changes their number only
        split
        · exact h.entered hwindow rfl hbound rfl rfl rfl rfl
        · exact h.entered hwindow rfl hbound rfl rfl rfl rfl
    · cases hissue
  · cases hstep
    exact h

/-- **The deepest region is left.** -/
theorem Shadows.left (h : Shadows cfg R s m) (hwindow : cfg.min_level ≤ cfg.max_level)
    (hlevel : s.curr_level < arraySize) (hlevel' : s'.curr_level = prevLevel s.curr_level)
    (hstatus : s'.curr_num_instrumented_levels =
      if s'.curr_level < cfg.min_level then 0
      else min cfg.max_level s'.curr_level - cfg.min_level + 1)
    (hversions : s'.level_versions = s.level_versions) (hnext : s'.nextVersion = s.nextVersion)
    (hmem : s'.shadow_mem = s.shadow_mem) : Shadows cfg R s' m := by
  have hlevels := activeLevels_prevLevel hwindow hlevel
  have hrep : R.Rep (active cfg s') s'.shadow_mem m ∧ (active cfg s').Ordered := by
    rw [hmem]
    have hactive : active cfg s' =
        { active cfg s with levels := activeLevels cfg (prevLevel s.curr_level) } := by
      unfold active versions
      rw [hversions, hnext, hlevel']
    rw [hactive, hlevels]
    -- outside of the window no level is left
    split
    · exact ⟨R.rep_exit h.rep, h.ordered.exit⟩
    · exact ⟨h.rep, h.ordered⟩
  refine ⟨hrep.1, hrep.2, ?_, ?_, ?_, fun hne => ?_⟩
  · rw [hmem, hnext]
    exact h.below
  · rw [hversions, hnext]
    exact h.issued
  · rw [hlevel']
    unfold prevLevel
    split
    · exact .inl rfl
    · exact .inr (by omega)
  · rw [hstatus]
    unfold activeLevels
    split_ifs <;> omega

/-- and so does an exit, -/
theorem closeDeepest_shadows (h : Shadows cfg R s m) (hwindow : cfg.min_level ≤ cfg.max_level)
    (hlevel : s.curr_level < arraySize) {regionType : RegionType}
    (hstep : closeDeepest cfg regionType s = some s') :
    Shadows cfg R s' m ∧ s'.curr_level = prevLevel s.curr_level := by
  unfold closeDeepest at hstep
  simp only [Option.bind_eq_bind, Option.bind_eq_some_iff, Option.some.injEq] at hstep
  obtain ⟨region, -, s₁, hparent, f, -, s₂, hexit, rfl⟩ := hstep
  have h₁ : SameActive s s₁ := by
    split at hparent
    · simp only [Option.bind_eq_some_iff, Option.some.injEq] at hparent
      obtain ⟨parent, -, rfl⟩ := hparent
      exact ⟨rfl, rfl, rfl, rfl, rfl, rfl⟩
    · cases hparent
      exact .refl s
  have h₂ : SameActive s s₂ := by
    refine h₁.trans ?_
    split at hexit
    · unfold handleFunctionExit at hexit
      split at hexit
      · cases hexit
      · cases hexit
        exact ⟨rfl, rfl, rfl, rfl, rfl, rfl⟩
      · cases hexit
        exact ⟨rfl, rfl, rfl, rfl, rfl, rfl⟩
    · cases hexit
      exact ⟨rfl, rfl, rfl, rfl, rfl, rfl⟩
  have hlevel₂ : (s₂.decrementLevel cfg).curr_level = prevLevel s.curr_level := by
    show prevLevel s₂.curr_level = _
    rw [h₂.level]
  exact ⟨(h.same h₂).left hwindow (h₂.level ▸ hlevel) rfl rfl rfl rfl rfl, hlevel₂⟩

/-- the exits of a landing pad, -/
theorem closeDownTo_shadows (hwindow : cfg.min_level ≤ cfg.max_level) {end_level : ℕ} :
    ∀ {fuel : ℕ} {s s' : KremlinProfiler}, Shadows cfg R s m → s.curr_level < arraySize →
      closeDownTo cfg end_level fuel s = some s' → Shadows cfg R s' m := by
  intro fuel
  induction fuel with
  | zero =>
      intro s s' h _ hstep
      unfold closeDownTo at hstep
      split at hstep
      · cases hstep
      · cases hstep
        exact h
  | succ fuel ih =>
      intro s s' h hlevel hstep
      unfold closeDownTo at hstep
      split at hstep
      · next hdeeper =>
          rw [Option.bind_eq_bind, Option.bind_eq_some_iff] at hstep
          obtain ⟨s₁, hunwind, hrest⟩ := hstep
          rw [unwindDeepest_eq, Option.bind_eq_some_iff] at hunwind
          obtain ⟨region, -, hclose⟩ := hunwind
          obtain ⟨h₁, hlevel₁⟩ := closeDeepest_shadows h hwindow hlevel hclose
          refine ih h₁ ?_ hrest
          rw [hlevel₁]
          unfold prevLevel
          split <;> omega
      · cases hstep
        exact h

/-- the handler of exits -/
theorem handleRegionExit_shadows (h : Shadows cfg R s m) (hwindow : cfg.min_level ≤ cfg.max_level)
    (hlevel : s.curr_level < arraySize) (id : SID) (ty : RegionType)
    (hstep : handleRegionExit cfg id ty s = some s') : Shadows cfg R s' m := by
  unfold handleRegionExit at hstep
  split at hstep
  · exact (closeDeepest_shadows h hwindow hlevel hstep).1
  · cases hstep
    exact h

/-- and that of landing pads. -/
theorem handleLandingPad_shadows (h : Shadows cfg R s m) (hwindow : cfg.min_level ≤ cfg.max_level)
    (hlevel : s.curr_level < arraySize) (id : SID) (ty : RegionType)
    (hstep : handleLandingPad cfg id ty s = some s') : Shadows cfg R s' m := by
  unfold handleLandingPad at hstep
  split at hstep
  · rw [Option.bind_eq_bind, Option.bind_eq_some_iff] at hstep
    obtain ⟨end_level, -, hclose⟩ := hstep
    exact closeDownTo_shadows hwindow h hlevel hclose
  · cases hstep
    exact h

/-- There are never more active levels than the window has. -/
theorem activeLevels_le (hlevels : cfg.max_level - cfg.min_level + 1 ≤ maxLevels) (level : ℕ) :
    activeLevels cfg level ≤ maxLevels := by
  unfold activeLevels
  split <;> omega

/-- **An update reads from the memory what it reads from the map.** -/
theorem timestampUpdaterOn_eq (h : Shadows cfg R s m)
    (hlevels : cfg.max_level - cfg.min_level + 1 ≤ maxLevels) (hin : s.curr_level ≠ minusOne)
    {u : TimestampUpdate} {width : ℕ} (hacc : ∀ addr, u.src_addr = some addr → accessible addr width)
    (hstep : timestampUpdater cfg u s = some s') (x : VersionedMap ℕ) :
    SameActive s s' ∧ ∃ m', Shadows cfg R s' m' ∧
      timestampUpdaterOn sh cfg width (s.withMem x, m) u = some (s'.withMem x, m') := by
  have hsame : SameActive s s' := (timestampUpdater_untouched hstep).sameActive
  unfold timestampUpdater at hstep
  have hframe := (Frames.foldlM (frames_timestampUpdaterAt cfg u _) _).apply hstep x
  refine ⟨hsame, ?_⟩
  unfold timestampUpdaterOn
  cases haddr : u.src_addr with
  | none =>
      rw [haddr] at hframe
      refine ⟨m, h.same hsame, ?_⟩
      show Option.bind ((List.range s.curr_num_instrumented_levels).foldlM _ (s.withMem x)) _ = _
      rw [hframe]
      rfl
  | some addr =>
      rw [haddr] at hframe
      have hnum : (active cfg s).levels = s.curr_num_instrumented_levels := (h.status hin).symm
      -- the memory's times and the map's are the same for the levels that are looked at
      obtain ⟨times, m', hget, htimes, hrep⟩ :=
        R.rep_get h.rep h.ordered (activeLevels_le hlevels _) (hacc addr haddr)
      rw [hnum] at hget htimes
      have hget : sh.get addr s.curr_num_instrumented_levels (versions cfg (s.withMem x)) width m =
          some (times, m') := hget
      refine ⟨m', (Shadows.same ⟨hrep, h.ordered, h.below, h.issued, h.level, h.status⟩ hsame), ?_⟩
      have hread := foldlM_timestampUpdaterAt cfg u htimes (s.withMem x)
      show ((sh.get addr s.curr_num_instrumented_levels _ width m).bind _) = _
      rw [hget]
      show Option.bind ((List.range s.curr_num_instrumented_levels).foldlM _ (s.withMem x)) _ = _
      rw [hread]
      exact congrArg (fun r => Option.bind r fun s => some (s, m')) hframe

/-- The updates of an instruction, one by one. -/
theorem updatesOn_eq (hlevels : cfg.max_level - cfg.min_level + 1 ≤ maxLevels) {width : ℕ}
    (x : VersionedMap ℕ) : ∀ {us : List TimestampUpdate} {s : KremlinProfiler} {m : M},
      Shadows cfg R s m → s.curr_level ≠ minusOne →
      (∀ u ∈ us, ∀ addr, u.src_addr = some addr → accessible addr width) →
      us.foldlM (fun s u => timestampUpdater cfg u s) s = some s' →
      ∃ m', Shadows cfg R s' m' ∧
        us.foldlM (timestampUpdaterOn sh cfg width) (s.withMem x, m) = some (s'.withMem x, m') := by
  intro us
  induction us with
  | nil =>
      intro s m h _ _ hstep
      cases hstep
      exact ⟨m, h, rfl⟩
  | cons u us ih =>
      intro s m h hin hacc hstep
      rw [List.foldlM_cons, Option.bind_eq_bind, Option.bind_eq_some_iff] at hstep
      obtain ⟨s₁, h₁, hrest⟩ := hstep
      obtain ⟨hsame, m₁, hm₁, hon⟩ :=
        timestampUpdaterOn_eq h hlevels hin (hacc u List.mem_cons_self) h₁ x
      obtain ⟨m', hm', hrest⟩ := ih hm₁ (by rw [hsame.level]; exact hin)
        (fun u hu => hacc u (List.mem_cons_of_mem _ hu)) hrest
      refine ⟨m', hm', ?_⟩
      rw [List.foldlM_cons, hon]
      exact hrest

/-- **A store leaves in the memory what it leaves in the map.** -/
theorem timestampUpdaterStoreOn_eq (h : Shadows cfg R s m)
    (hlevels : cfg.max_level - cfg.min_level + 1 ≤ maxLevels) (hin : s.curr_level ≠ minusOne)
    {src_reg : Option ℕ} {addr width : ℕ} (hacc : accessible addr width)
    (hstep : timestampUpdaterStore cfg src_reg addr s = some s')
    (hfits : ∀ l, s'.level_times l < 2 ^ 64) (x : VersionedMap ℕ) :
    ∃ m', Shadows cfg R s' m' ∧
      timestampUpdaterStoreOn sh cfg src_reg addr width (s.withMem x, m) =
        some (s'.withMem x, m') := by
  simp only [timestampUpdaterStore, Option.bind_eq_bind, Option.bind_eq_some_iff,
    Option.some.injEq] at hstep
  obtain ⟨s₁, h₁, rfl⟩ := hstep
  have hsame : SameActive s s₁ := foldlM_relates SameActive.refl SameActive.trans
    (fun _ _ _ h => (timestampUpdaterStoreAt_untouched h).sameActive) h₁
  have hs₁ := h.same hsame
  have hnum : (active cfg s₁).levels = s.curr_num_instrumented_levels := by
    rw [hsame.active]
    exact (h.status hin).symm
  obtain ⟨m', hset, hrep⟩ := R.rep_set s₁.level_times hs₁.rep hs₁.ordered
    (activeLevels_le hlevels _) hacc hfits
  have hframe : (List.range s.curr_num_instrumented_levels).foldlM
      (timestampUpdaterStoreAt cfg src_reg) (s.withMem x) = some (s₁.withMem x) :=
    (Frames.foldlM (frames_timestampUpdaterStoreAt cfg src_reg) _).apply h₁ x
  rw [hnum] at hset hrep
  refine ⟨m', ⟨hrep, hs₁.ordered, ?_, hs₁.issued, hs₁.level, hs₁.status⟩, ?_⟩
  -- what is stored has versions issued before
  · refine hs₁.below.store (fun l hl => hs₁.ordered.below l ?_) _ _
    rw [hnum]
    exact hl
  · unfold timestampUpdaterStoreOn
    show Option.bind ((List.range s.curr_num_instrumented_levels).foldlM _ (s.withMem x)) _ = _
    rw [hframe]
    show (sh.set addr s.curr_num_instrumented_levels (versions cfg s₁) s₁.level_times width m).bind
      _ = _
    have hset : sh.set addr s.curr_num_instrumented_levels (versions cfg s₁) s₁.level_times width m =
        some m' := hset
    rw [hset]
    rfl

end Simulation

/-! ## §3. Runs. -/

/-- The addresses a call loads from or stores to, with the width. -/
def accesses : Event → List (ℕ × ℕ)
  | .instr (.load a _ size _) => [(a, size)]
  | .instr (.load0 a _ size) => [(a, size)]
  | .instr (.load1 a _ _ size) => [(a, size)]
  | .store _ a size => [(a, size)]
  | .storeConst a size => [(a, size)]
  | _ => []

/-- Every round of a variable argument list reads the same address. -/
theorem src_addr_variable {use_ctrl update_cp : Bool} {src_reg src_addr : Option ℕ} {dest : ℕ}
    {args : List Source} {u : TimestampUpdate}
    (hu : u ∈ handleVariableNumArgs use_ctrl update_cp src_reg src_addr dest args) :
    u.src_addr = src_addr := by
  obtain ⟨srcs, -, rfl⟩ := List.mem_map.mp hu
  rfl

/-- What an update reads is an access of the call. -/
theorem mem_accesses {i : Instr} {u : TimestampUpdate} (hu : u ∈ updates i) {addr : ℕ}
    (haddr : u.src_addr = some addr) : (addr, accessSize i) ∈ accesses (.instr i) := by
  cases i with
  | load a d size srcs =>
      have hsrc : u.src_addr = some a := src_addr_variable hu
      rw [haddr, Option.some.injEq] at hsrc
      rw [hsrc]
      exact List.mem_singleton_self _
  | load0 a d size =>
      rw [List.mem_singleton.mp hu, Option.some.injEq] at haddr
      rw [← haddr]
      exact List.mem_singleton_self _
  | load1 a d r size =>
      rw [List.mem_singleton.mp hu, Option.some.injEq] at haddr
      rw [← haddr]
      exact List.mem_singleton_self _
  | timestamp d srcs =>
      rw [show u.src_addr = none from src_addr_variable hu] at haddr
      cases haddr
  | phi d r ctrls =>
      have hu : u ∈ handlePhi d r ctrls := hu
      unfold handlePhi at hu
      split at hu
      · rw [src_addr_variable hu] at haddr
        cases haddr
      · rw [List.mem_singleton.mp hu] at haddr
        cases haddr
  | reduction c d => cases hu
  | timestamp6 d s1 s2 s3 s4 s5 s6 =>
      rcases List.mem_cons.mp hu with rfl | hu
      · cases haddr
      · rw [List.mem_singleton.mp hu] at haddr
        cases haddr
  | timestamp7 d s1 s2 s3 s4 s5 s6 s7 =>
      rcases List.mem_cons.mp hu with rfl | hu
      · cases haddr
      · rw [List.mem_singleton.mp hu] at haddr
        cases haddr
  | _ =>
      rw [List.mem_singleton.mp hu] at haddr
      cases haddr

/-- The calls that are made with a region open. -/
def InRegion : Event → Prop
  | .exitRegion _ _ | .landingPad _ _ | .instr _ | .store _ _ _ | .storeConst _ _ => True
  | _ => False

/-- **The runs considered**: no region is left and no access made outside of all
regions, the memory can be accessed at the addresses, and times fit 64 bits. -/
structure Admissible (cfg : Config) (accessible : (addr width : ℕ) → Prop) (s : KremlinProfiler)
    (e : Event) : Prop where
  inRegion : InRegion e → s.curr_level ≠ minusOne
  reaches : ∀ a ∈ accesses e, accessible a.1 a.2
  fits : ∀ s', step cfg s e = some s' → ∀ l, s'.level_times l < 2 ^ 64

section Runs

variable {M : Type} {sh : MShadow M} {m₀ m : M} {maxLevels : ℕ}
  {accessible : (addr width : ℕ) → Prop} {R : sh.Refinement m₀ maxLevels accessible}
  {s s' : KremlinProfiler} {e : Event}

/-- A store on the memory is one on the map. -/
theorem handleStoreOn_eq (hlevels : cfg.max_level - cfg.min_level + 1 ≤ maxLevels)
    (h : Shadows cfg R s m) (hin : s.curr_level ≠ minusOne) {src_reg : Option ℕ} {addr width : ℕ}
    (hacc : accessible addr width)
    (hstep : (if s.enabled then timestampUpdaterStore cfg src_reg addr s else some s) = some s')
    (hfits : ∀ l, s'.level_times l < 2 ^ 64) (x : VersionedMap ℕ) :
    ∃ m', Shadows cfg R s' m' ∧
      handleStoreOn sh cfg src_reg addr width (s.withMem x, m) = some (s'.withMem x, m') := by
  unfold handleStoreOn
  split at hstep
  · next hon =>
      obtain ⟨m', hm', hon'⟩ := timestampUpdaterStoreOn_eq h hlevels hin hacc hstep hfits x
      exact ⟨m', hm', (if_pos hon).trans hon'⟩
  · next hoff =>
      cases hstep
      exact ⟨m, h, if_neg hoff⟩

/-- **One call** does with the memory what it does with the map. -/
theorem Shadows.step (hwindow : cfg.min_level ≤ cfg.max_level)
    (hlevels : cfg.max_level - cfg.min_level + 1 ≤ maxLevels) (h : Shadows cfg R s m)
    (ha : Admissible cfg accessible s e) (hstep : step cfg s e = some s') (x : VersionedMap ℕ) :
    ∃ m', Shadows cfg R s' m' ∧ stepOn sh cfg (s.withMem x, m) e = some (s'.withMem x, m') := by
  have hbound : s.curr_level ≠ minusOne → s.curr_level < arraySize := h.level.resolve_left
  by_cases hmem : UsesMemory e
  · cases e with
    | instr i =>
        have hstep : handleInstr cfg i s = some s' := hstep
        unfold handleInstr at hstep
        split at hstep
        · next hon =>
            obtain ⟨m', hm', hon'⟩ := updatesOn_eq hlevels x h (ha.inRegion trivial)
              (fun u hu addr haddr => ha.reaches _ (mem_accesses hu haddr)) hstep
            exact ⟨m', hm', (if_pos hon).trans hon'⟩
        · next hoff =>
            cases hstep
            exact ⟨m, h, if_neg hoff⟩
    | store r a size =>
        exact handleStoreOn_eq hlevels h (ha.inRegion trivial)
          (ha.reaches (a, size) List.mem_cons_self) hstep (ha.fits s' hstep) x
    | storeConst a size =>
        exact handleStoreOn_eq hlevels h (ha.inRegion trivial)
          (ha.reaches (a, size) List.mem_cons_self) hstep (ha.fits s' hstep) x
    | _ => exact absurd hmem fun h => h
  -- the memory stays as it is, the levels it is called with may not
  · have hframe := (step_withMem cfg hmem).apply hstep x
    refine ⟨m, ?_, ?_⟩
    · by_cases hmoves : MovesLevels e
      · cases e with
        | enterRegion id ty => exact handleRegionEntry_shadows h hwindow hstep
        | exitRegion id ty =>
            exact handleRegionExit_shadows h hwindow (hbound (ha.inRegion trivial)) id ty hstep
        | landingPad id ty =>
            exact handleLandingPad_shadows h hwindow (hbound (ha.inRegion trivial)) id ty hstep
        | _ => exact absurd hmoves fun h => h
      · exact h.same (step_sameActive hmoves hmem hstep)
    · have hstepOn : stepOn sh cfg (s.withMem x, m) e =
          (KremlinProfiler.step cfg (s.withMem x) e).map fun s => (s, m) := by
        cases e <;> first | rfl | exact absurd trivial hmem
      rw [hstepOn, hframe]
      rfl

/-- No region is open at the start. -/
theorem shadows_init (R : sh.Refinement m₀ maxLevels accessible) (nextVersion : ℕ) :
    Shadows cfg R (init cfg nextVersion) m₀ := by
  have hlevels : activeLevels cfg minusOne = 0 := if_pos (.inl rfl)
  have hre : ActiveLevels.start.Reissued (active cfg (init cfg nextVersion)) :=
    ⟨hlevels, fun l hl => absurd hl (Nat.not_lt_zero l), fun l => Nat.le_refl 0,
      Nat.zero_le _⟩
  exact ⟨R.rep_reissued R.rep_start (VersionedMap.below_empty 0) hre,
    hre.ordered ActiveLevels.ordered_start, VersionedMap.below_empty _, fun _ => Nat.zero_le _,
    .inl rfl, fun hne => absurd rfl hne⟩

/-- **Along every run** the profiler on the memory does what it does on the map. -/
theorem run_stepOn (R : sh.Refinement m₀ maxLevels accessible)
    (hwindow : cfg.min_level ≤ cfg.max_level)
    (hlevels : cfg.max_level - cfg.min_level + 1 ≤ maxLevels) {nextVersion : ℕ}
    {events : List Event}
    (hok : RunOk (KremlinProfiler.step cfg) (Admissible cfg accessible) (init cfg nextVersion)
      events)
    (hrun : run (KremlinProfiler.step cfg) (init cfg nextVersion) events = some s') :
    ∃ m, run (stepOn sh cfg) (init cfg nextVersion, m₀) events = some (s'.withMem .empty, m) := by
  have hall : ∀ (events : List Event) {s : KremlinProfiler} {m : M}, Shadows cfg R s m →
      RunOk (KremlinProfiler.step cfg) (Admissible cfg accessible) s events →
      run (KremlinProfiler.step cfg) s events = some s' →
      ∃ m', run (stepOn sh cfg) (s.withMem .empty, m) events = some (s'.withMem .empty, m') := by
    intro events
    induction events with
    | nil =>
        intro s m h _ hrun
        cases hrun
        exact ⟨m, rfl⟩
    | cons e events ih =>
        intro s m h hok hrun
        obtain ⟨s₁, h₁, hrest⟩ := run_cons_eq_some.mp hrun
        obtain ⟨m₁, hm₁, hon⟩ := h.step hwindow hlevels hok.1 h₁ .empty
        obtain ⟨m', hrest⟩ := ih hm₁ (hok.2 s₁ h₁) hrest
        refine ⟨m', ?_⟩
        rw [run_cons, hon]
        exact hrest
  exact hall events (shadows_init R nextVersion) hok hrun

end Runs

/-! ## §4. The memories of the profiler. -/

section Memories

variable {P : Type} [LinearOrder P] {s' : KremlinProfiler}

/-- A time is stored in two pages from a loop, which is left; another loop loads both. -/
def twoWords : List Event :=
  [.enterRegion 1 .regionFunc, .prepRTable 4 1, .instr (.timestamp1 0 ⟨0, 9⟩),
    .enterRegion 2 .regionLoop, .instr (.timestamp1 1 ⟨0, 3⟩), .store 1 4096 8, .store 1 8192 8,
    .exitRegion 2 .regionLoop, .enterRegion 3 .regionLoop, .instr (.load0 4096 2 8),
    .instr (.load0 8192 3 8)]

/-- The levels 0 to 3. -/
def fourLevels : Config := { min_level := 0, max_level := 3 }

/-- An address that no page has. -/
def nextPage (s : MShadowSkadu ℕ) : ℕ := s.allocated.sum + 1

/-- The next page is none of those in use. -/
theorem nextPage_unused (s : MShadowSkadu ℕ) : nextPage s ∉ s.allocated := by
  intro hmem
  have hle := List.single_le_sum (fun _ _ => Nat.zero_le _) _ hmem
  exact Nat.not_succ_le_self _ hle

/-- A call of a run that is considered, and the state it leads to. -/
theorem admissible_cons {accessible : (addr width : ℕ) → Prop} {s s₁ : KremlinProfiler} {e : Event}
    {events : List Event} (hstep : step fourLevels s e = some s₁)
    (hin : InRegion e → s.curr_level ≠ minusOne) (hreaches : ∀ a ∈ accesses e, accessible a.1 a.2)
    (htimes : ∀ l, s₁.level_times l < 2 ^ 64)
    (hok : RunOk (step fourLevels) (Admissible fourLevels accessible) s₁ events) :
    RunOk (step fourLevels) (Admissible fourLevels accessible) s (e :: events) := by
  refine ⟨⟨hin, hreaches, fun s' hs' => ?_⟩, fun s' hs' => ?_⟩
  · rw [hstep, Option.some.injEq] at hs'
    exact hs' ▸ htimes
  · rw [hstep, Option.some.injEq] at hs'
    exact hs' ▸ hok

/-- The example's calls are admissible. -/
theorem twoWords_admissible {accessible : (addr width : ℕ) → Prop} (h : accessible 4096 8)
    (h' : accessible 8192 8) :
    RunOk (step fourLevels) (Admissible fourLevels accessible) (init fourLevels 1) twoWords := by
  have hzero : ∀ l : ℕ, (fun _ : ℕ => 0) l < 2 ^ 64 := fun _ => Nat.two_pow_pos 64
  -- what is stored is the time of register 1: 13 in the function, 4 in the loop
  have hstored : ∀ l : ℕ, (if l = 1 then 4 else if l = 0 then 13 else 0) < 2 ^ 64 := by
    intro l
    split_ifs <;> omega
  have hagain : ∀ l : ℕ, (if l = 1 then 4 else if l = 0 then 13 else
      if l = 1 then 4 else if l = 0 then 13 else 0) < 2 ^ 64 := by
    intro l
    split_ifs <;> omega
  have hword : ∀ a ∈ [(4096, 8)], accessible a.1 a.2 := fun a ha => by
    rw [List.mem_singleton.mp ha]
    exact h
  have hword' : ∀ a ∈ [(8192, 8)], accessible a.1 a.2 := fun a ha => by
    rw [List.mem_singleton.mp ha]
    exact h'
  have hnone : ∀ a ∈ ([] : List (ℕ × ℕ)), accessible a.1 a.2 :=
    fun a ha => absurd ha List.not_mem_nil
  refine admissible_cons rfl (fun h => absurd h id) hnone hzero ?_
  refine admissible_cons rfl (fun h => absurd h id) hnone hzero ?_
  refine admissible_cons rfl (fun _ => by decide) hnone hzero ?_
  refine admissible_cons rfl (fun h => absurd h id) hnone hzero ?_
  refine admissible_cons rfl (fun _ => by decide) hnone hzero ?_
  -- the stores
  refine admissible_cons rfl (fun _ => by decide) hword hstored ?_
  refine admissible_cons rfl (fun _ => by decide) hword' hagain ?_
  refine admissible_cons rfl (fun _ => by decide) hnone hagain ?_
  refine admissible_cons rfl (fun h => absurd h id) hnone hagain ?_
  -- the loads
  refine admissible_cons rfl (fun _ => by decide) hword hagain ?_
  exact admissible_cons rfl (fun _ => by decide) hword' hagain trivial

/-- The loads take 4 more than the time that was stored; that of the loop is gone. -/
theorem run_twoWords :
    ∃ s, run (step fourLevels) (init fourLevels 1) twoWords = some s ∧
      s.getRegisterTimeAtIndex 3 0 = some 17 ∧ s.getRegisterTimeAtIndex 3 1 = some 4 := by
  have htimes : (run (step fourLevels) (init fourLevels 1) twoWords).map (fun s =>
      (s.getRegisterTimeAtIndex 3 0, s.getRegisterTimeAtIndex 3 1)) = some (some 17, some 4) := by
    decide
  obtain ⟨s, hs, heq⟩ := Option.map_eq_some_iff.mp htimes
  exact ⟨s, hs, congrArg Prod.fst heq, congrArg Prod.snd heq⟩

end Memories

end KremlinProfiler

end Kremlin.Runtime
