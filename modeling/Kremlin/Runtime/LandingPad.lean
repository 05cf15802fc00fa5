/-
  Kremlin.Runtime.LandingPad — exceptions and the stack of open regions.

  The instrumented program is a stack of regions it has entered and not left
  (`Frames`).  An exception unwinds it to an open function or loop body; the
  landing pad found there calls `_KLandingPad` with that region's static id
  (`RegionInstrument.cpp` puts the id of the innermost loop body, or of the
  function, into the call).  The profiler gets the id only and looks for the
  deepest open region that has it.
-/
import Kremlin.Runtime.RegionMoves

namespace Kremlin.Runtime

open Kremlin.Library
open KremlinProfiler

/-! ## §1. The program. -/

/-- The regions the program is in, innermost first. -/
abbrev Frames := List RegionKey

/-- A step of the program: an instrumentation call, or an exception that is
caught in the region open at a level. -/
inductive ProgramEvent where
  | call (e : Event)
  | catchAt (level : ℕ)
  deriving Repr, DecidableEq

/-- The frames left when everything deeper than `level` is unwound. -/
def Frames.unwindTo (fs : Frames) (level : ℕ) : Frames := fs.drop (fs.length - (level + 1))

/-- What a step does to the program's regions.  A program starts in a function,
leaves the region it is in, and catches in a function or a loop body. -/
def programStep (fs : Frames) : ProgramEvent → Option Frames
  | .call (.enterRegion id ty) =>
      if fs = [] ∧ ty ≠ .regionFunc then none else some ((id, ty) :: fs)
  | .call (.exitRegion id ty) => if fs.head? = some (id, ty) then some fs.tail else none
  | .call (.landingPad _ _) => none
  | .call _ => some fs
  | .catchAt level =>
      if level < fs.length ∧ (fs.unwindTo level).head?.map Prod.snd ≠ some .regionLoop then
        some (fs.unwindTo level)
      else none

/-- The instrumentation call a step makes. -/
def ProgramEvent.emitted (fs : Frames) : ProgramEvent → Event
  | .call e => e
  | .catchAt level =>
      match (fs.unwindTo level).head? with
      | some (id, ty) => .landingPad id ty
      | none => .landingPad 0 .regionFunc

/-- The program and its profiler. -/
def jointStep (cfg : Config) (x : Frames × KremlinProfiler) (e : ProgramEvent) :
    Option (Frames × KremlinProfiler) := do
  let fs ← programStep x.1 e
  let s ← step cfg x.2 (e.emitted x.1)
  some (fs, s)

/-- A landing pad of the program brings the profiler to the regions of the
catching activation. -/
def PadReturns (cfg : Config) (x : Frames × KremlinProfiler) : ProgramEvent → Prop
  | .call _ => True
  | .catchAt level => (programStep x.1 (.catchAt level)).isSome →
      ∃ s, step cfg x.2 ((ProgramEvent.catchAt level).emitted x.1) = some s ∧
        s.openRegions = x.1.unwindTo level

/-- No region deeper than the catching one has its static id. -/
def NoDeeperActivation (x : Frames × KremlinProfiler) : ProgramEvent → Prop
  | .call _ => True
  | .catchAt level => (programStep x.1 (.catchAt level)).isSome →
      ∀ k ∈ x.1.take (x.1.length - (level + 1)),
        (x.1.unwindTo level).head?.map Prod.fst ≠ some k.1

instance (x : Frames × KremlinProfiler) : (e : ProgramEvent) → Decidable (NoDeeperActivation x e)
  | .call _ => .isTrue trivial
  | .catchAt level => inferInstanceAs (Decidable ((programStep x.1 (.catchAt level)).isSome →
      ∀ k ∈ x.1.take (x.1.length - (level + 1)),
        (x.1.unwindTo level).head?.map Prod.fst ≠ some k.1))

/-! ## §2. The profiler follows the program. -/

/-- The profiler's open regions are `fs`, and it can enter and leave more. -/
structure Tracks (fs : Frames) (s : KremlinProfiler) : Prop where
  enabled : s.enabled = true
  level : s.curr_level = prevLevel fs.length
  bounded : fs.length ≤ arraySize
  capacity : fs.length ≤ s.num_regions
  nonempty : 0 < s.num_regions
  regions : s.openFrom fs.length = fs
  functions : s.callstack.length = fs.countP fun k => k.2 = .regionFunc
  outermost : ∀ k ∈ fs.getLast?, k.2 = .regionFunc

variable {cfg : Config} {fs : Frames} {s s' : KremlinProfiler} {k : RegionKey}

/-- No region is open. -/
theorem tracks_init (cfg : Config) (v : ℕ) : Tracks [] (init cfg v) where
  enabled := rfl
  level := rfl
  bounded := by simp
  capacity := by simp
  nonempty := by show 0 < INIT_NUM_REGIONS; decide
  regions := rfl
  functions := rfl
  outermost := by simp

/-- The profiler's regions are the program's. -/
theorem Tracks.openRegions (h : Tracks fs s) : s.openRegions = fs := by
  have hlen : nextLevel s.curr_level = fs.length := by
    rw [h.level, nextLevel_prevLevel h.bounded]
  rw [KremlinProfiler.openRegions, hlen, h.regions]

/-- Inside a region, the level is one less than the number of open regions. -/
theorem Tracks.level_cons (h : Tracks (k :: fs) s) : s.curr_level = fs.length := by
  rw [h.level, List.length_cons, prevLevel_succ]

/-- Other calls leave them alone. -/
theorem Tracks.of_sameLevels (h : Tracks fs s) (h' : SameLevels s s') : Tracks fs s' where
  enabled := h'.enabled.trans h.enabled
  level := h'.level.trans h.level
  bounded := h.bounded
  capacity := h'.capacity ▸ h.capacity
  nonempty := h'.capacity ▸ h.nonempty
  regions := (openFrom_congr fun l _ => h'.key l).trans h.regions
  functions := h'.functions.trans h.functions
  outermost := h.outermost

/-- Some function is open wherever a region is. -/
theorem Tracks.callstack_cons (h : Tracks (k :: fs) s) :
    ∃ f rest, s.callstack = f :: rest := by
  obtain ⟨last, hlast⟩ : ∃ last, (k :: fs).getLast? = some last :=
    ⟨_, List.getLast?_eq_getLast_of_ne_nil (List.cons_ne_nil k fs)⟩
  have hfunc := h.outermost last hlast
  have hpos : 0 < s.callstack.length := by
    rw [h.functions, List.countP_pos_iff]
    exact ⟨last, List.mem_of_getLast? hlast, by simpa using hfunc⟩
  cases hc : s.callstack with
  | nil => rw [hc] at hpos; exact absurd hpos (by simp)
  | cons f rest => exact ⟨f, rest, rfl⟩

/-- **Leaving the innermost region always succeeds.** -/
theorem Tracks.closeDeepest (cfg : Config) (h : Tracks (k :: fs) s) :
    ∃ s', s.closeDeepest cfg k.2 = some s' ∧ Tracks fs s' := by
  obtain ⟨f, rest, hstack⟩ := h.callstack_cons
  have hlevel := h.level_cons
  have hcap := h.capacity
  have hb := h.bounded
  rw [List.length_cons] at hcap hb
  refine ⟨_, closeDeepest_eq cfg k.2 (by omega) hstack, ?_⟩
  refine ⟨h.enabled, ?_, by omega, ?_, h.nonempty, ?_, ?_, ?_⟩
  · rw [closed_level, hlevel]
  · show fs.length ≤ s.num_regions
    omega
  · rw [openFrom_congr fun l _ => closed_regionKey cfg k.2 f rest s l]
    have hreg := h.regions
    rw [List.length_cons, openFrom] at hreg
    exact (List.cons.inj hreg).2
  · have hfun := h.functions
    show (if k.2 = .regionFunc then rest else f :: rest).length = _
    rw [hstack, List.countP_cons, List.length_cons] at hfun
    by_cases hk : k.2 = .regionFunc
    · simp only [hk, decide_true, if_true] at hfun ⊢
      omega
    · simp only [hk, decide_false, if_false] at hfun ⊢
      simpa using hfun
  · intro k' hk'
    cases fs with
    | nil => cases hk'
    | cons k₂ fs => exact h.outermost k' (by rw [List.getLast?_cons_cons]; exact hk')

/-- The deepest region is the last one entered. -/
theorem Tracks.regionKey_level (h : Tracks (k :: fs) s) : s.regionKey s.curr_level = k := by
  have hreg := h.regions
  rw [List.length_cons, openFrom] at hreg
  rw [h.level_cons]
  exact (List.cons.inj hreg).1

/-- Entering a region, when it succeeds. -/
theorem Tracks.enterRegion {id : SID} {ty : RegionType} (h : Tracks fs s)
    (hfirst : ¬ (fs = [] ∧ ty ≠ .regionFunc))
    (hstep : handleRegionEntry cfg id ty s = some s') : Tracks ((id, ty) :: fs) s' := by
  have hlt := handleRegionEntry_level_lt h.enabled hstep
  have hnext : nextLevel s.curr_level = fs.length := by
    rw [h.level, nextLevel_prevLevel h.bounded]
  obtain ⟨hen, hlev, hnum, hstack, hkey⟩ :=
    handleRegionEntry_levels h.enabled (hnext ▸ h.capacity) h.nonempty hstep
  rw [hnext] at hlt hlev
  -- the array has grown if it was full
  have hcap : fs.length < (opened cfg id ty s).num_regions := by
    show _ < if nextLevel s.curr_level = s.num_regions then _ else _
    have h₁ := h.capacity
    have h₂ := h.nonempty
    rw [hnext]
    split <;> omega
  refine ⟨hen, ?_, Nat.succ_le_of_lt hlt, ?_, ?_, ?_, ?_, ?_⟩
  · rw [hlev, List.length_cons, prevLevel_succ]
  · rw [hnum, List.length_cons]
    omega
  · rw [hnum]
    omega
  · show s'.regionKey fs.length :: s'.openFrom fs.length = _
    rw [hkey, hnext, if_pos rfl]
    congr 1
    refine (openFrom_congr fun l hl => ?_).trans h.regions
    rw [hkey, hnext, if_neg (by omega)]
  · rw [hstack, h.functions, List.countP_cons]
    simp
  · intro k hk
    cases fs with
    | nil =>
        cases hk
        by_contra hty
        exact hfirst ⟨rfl, hty⟩
    | cons k₂ fs => exact h.outermost k (by rwa [List.getLast?_cons_cons] at hk)

/-! ## §3. Landing pads. -/

/-- The search stops at the deepest region with the id. -/
theorem findDeepest_spec {id : SID} {c l : ℕ} (hl : l < s.num_regions) (hc : c ≤ l)
    (hid : (s.regionKey c).1 = id) :
    ∃ e, c ≤ e ∧ e ≤ l ∧ s.findDeepest id l = some e ∧ (s.regionKey e).1 = id ∧
      ∀ l', e < l' → l' ≤ l → (s.regionKey l').1 ≠ id := by
  induction l with
  | zero =>
      have hc0 : c = 0 := by omega
      subst hc0
      refine ⟨0, le_rfl, le_rfl, ?_, hid, fun l' h h' => by omega⟩
      rw [findDeepest, getRegionAtLevel_of_lt hl]
      exact if_pos hid
  | succ l ih =>
      rw [findDeepest, getRegionAtLevel_of_lt hl]
      by_cases hmatch : (s.regionKey (l + 1)).1 = id
      · exact ⟨l + 1, hc, le_rfl, if_pos hmatch, hmatch, fun l' h h' => by omega⟩
      · have hcl : c ≤ l := by
          rcases Nat.lt_or_ge l c with h | h
          · have : c = l + 1 := by omega
            exact absurd (this ▸ hid) hmatch
          · exact h
        obtain ⟨e, hce, hel, hfind, hkey, hlast⟩ := ih (by omega) hcl
        refine ⟨e, hce, by omega, (if_neg hmatch).trans hfind, hkey, fun l' h h' => ?_⟩
        by_cases hl' : l' = l + 1
        · exact hl' ▸ hmatch
        · exact hlast l' h (by omega)

/-- **The loop of `handleLandingPad`** closes every region deeper than the
level it is given, and none else. -/
theorem Tracks.closeDownTo (cfg : Config) {m : ℕ} (fuel : ℕ) (h : Tracks fs s) (hm : m < fs.length)
    (hfuel : fs.length ≤ m + 1 + fuel) :
    ∃ s', closeDownTo cfg m fuel s = some s' ∧ Tracks (fs.unwindTo m) s' := by
  induction fuel generalizing fs s with
  | zero =>
      have hlen : fs.length = m + 1 := by omega
      refine ⟨s, if_neg ?_, ?_⟩
      · rw [h.level, hlen, prevLevel_succ]
        omega
      · rw [Frames.unwindTo, hlen, Nat.sub_self]
        exact h
  | succ fuel ih =>
      cases fs with
      | nil => exact absurd hm (Nat.not_lt_zero m)
      | cons k fs =>
          have hlev := h.level_cons
          rw [List.length_cons] at hm hfuel
          by_cases hdeep : m < fs.length
          · obtain ⟨s₁, h₁, ht₁⟩ := h.closeDeepest cfg
            obtain ⟨s', h', ht'⟩ := ih ht₁ hdeep (by omega)
            have hcap := h.capacity
            rw [List.length_cons] at hcap
            refine ⟨s', ?_, ?_⟩
            · -- the region closed is the one the program entered last
              have hty : (s.program_regions s.curr_level).regionType = k.2 :=
                congrArg Prod.snd h.regionKey_level
              rw [KremlinProfiler.closeDownTo, if_pos (by omega), unwindDeepest_eq,
                getRegionAtLevel_of_lt (by omega)]
              show (s.closeDeepest cfg (s.program_regions s.curr_level).regionType).bind _ = _
              rw [hty, h₁]
              exact h'
            · have hdrop : Frames.unwindTo (k :: fs) m = Frames.unwindTo fs m := by
                show List.drop (fs.length + 1 - (m + 1)) (k :: fs) = List.drop _ fs
                rw [show fs.length + 1 - (m + 1) = (fs.length - (m + 1)) + 1 by omega,
                  List.drop_succ_cons]
              rw [hdrop]
              exact ht'
          · -- level `m` is reached
            refine ⟨s, if_neg (by omega), ?_⟩
            rw [Frames.unwindTo, List.length_cons, show fs.length + 1 - (m + 1) = 0 by omega]
            exact h

/-- The region open at a level heads the frames unwound to it. -/
theorem Tracks.unwindTo_eq {m : ℕ} (h : Tracks fs s) (hm : m < fs.length) :
    fs.unwindTo m = s.regionKey m :: s.openFrom m := by
  obtain ⟨n, hn⟩ := Nat.exists_eq_add_of_lt hm
  have hlen : fs.length - (m + 1) = n := by omega
  rw [Frames.unwindTo, hlen]
  conv_lhs => rw [← h.regions, hn, show m + n + 1 = m + 1 + n by omega]
  exact openFrom_drop s (m + 1) n

/-- The regions deeper than a level. -/
theorem Tracks.mem_deeper {m : ℕ} (h : Tracks fs s) (hm : m < fs.length) :
    k ∈ fs.take (fs.length - (m + 1)) ↔ ∃ l, m < l ∧ l < fs.length ∧ s.regionKey l = k := by
  have hcount : ∀ a b, k ∈ (s.openFrom (a + b)).take b ↔
      ∃ l, a ≤ l ∧ l < a + b ∧ s.regionKey l = k := by
    intro a b
    induction b with
    | zero =>
        rw [List.take_zero]
        exact ⟨fun h => absurd h List.not_mem_nil, fun ⟨l, h, h', _⟩ => by omega⟩
    | succ b ih =>
        rw [← Nat.add_assoc, openFrom, List.take_succ_cons, List.mem_cons, ih]
        constructor
        · rintro (rfl | ⟨l, hl, hl', hk⟩)
          · exact ⟨a + b, by omega, by omega, rfl⟩
          · exact ⟨l, hl, by omega, hk⟩
        · rintro ⟨l, hl, hl', hk⟩
          by_cases hlast : l = a + b
          · exact .inl (hlast ▸ hk).symm
          · exact .inr ⟨l, hl, by omega, hk⟩
  have h' := hcount (m + 1) (fs.length - (m + 1))
  rw [show m + 1 + (fs.length - (m + 1)) = fs.length by omega, h.regions] at h'
  exact h'

/-- An exception is caught in an open region. -/
theorem programStep_catchAt {m : ℕ} {fs' : Frames}
    (h : programStep fs (.catchAt m) = some fs') : m < fs.length ∧ fs' = fs.unwindTo m := by
  simp only [programStep] at h
  split at h
  · next hok => exact ⟨hok.1, (Option.some.inj h).symm⟩
  · cases h

/-- What `_KLandingPad` does: it returns to the deepest region with the id of
the catching one. -/
theorem Tracks.landingPad (cfg : Config) {m : ℕ} (h : Tracks fs s)
    (hprog : (programStep fs (.catchAt m)).isSome) :
    ∃ e s', m ≤ e ∧ e < fs.length ∧ (s.regionKey e).1 = (s.regionKey m).1 ∧
      (∀ l, e < l → l < fs.length → (s.regionKey l).1 ≠ (s.regionKey m).1) ∧
      step cfg s ((ProgramEvent.catchAt m).emitted fs) = some s' ∧
      Tracks (fs.unwindTo e) s' := by
  obtain ⟨fs', hfs'⟩ := Option.isSome_iff_exists.mp hprog
  have hm := (programStep_catchAt hfs').1
  have hcap := h.capacity
  obtain ⟨n, hn⟩ : ∃ n, fs.length = n + 1 := ⟨fs.length - 1, by omega⟩
  have hlev : s.curr_level = n := by rw [h.level, hn, prevLevel_succ]
  obtain ⟨e, hme, hen, hfind, hid, hlast⟩ :=
    findDeepest_spec (s := s) (show n < s.num_regions by omega) (show m ≤ n by omega) rfl
  obtain ⟨s', hclose, ht⟩ :=
    h.closeDownTo cfg n (show e < fs.length by omega) (by omega)
  refine ⟨e, s', hme, by omega, hid, fun l hl hl' => hlast l hl (by omega), ?_, ht⟩
  have hemit : (ProgramEvent.catchAt m).emitted fs
      = .landingPad (s.regionKey m).1 (s.regionKey m).2 := by
    show (match (fs.unwindTo m).head? with
      | some (id, ty) => Event.landingPad id ty
      | none => Event.landingPad 0 .regionFunc) = _
    rw [h.unwindTo_eq hm]
    rfl
  rw [hemit]
  show handleLandingPad cfg (s.regionKey m).1 (s.regionKey m).2 s = _
  rw [handleLandingPad, if_pos h.enabled, hlev, hfind]
  exact hclose

/-- A landing pad returns to the catching activation exactly when no deeper
region has its id. -/
theorem Tracks.padReturns_iff (cfg : Config) (h : Tracks fs s) (e : ProgramEvent) :
    PadReturns cfg (fs, s) e ↔ NoDeeperActivation (fs, s) e := by
  cases e with
  | call e => exact Iff.rfl
  | catchAt m =>
      refine forall_congr' fun hprog => ?_
      obtain ⟨e, s', hme, he, hid, hlast, hstep, ht⟩ := h.landingPad cfg hprog
      have hm : m < fs.length := by omega
      rw [h.unwindTo_eq hm]
      constructor
      · rintro ⟨s₂, h₂, hopen⟩ k hk hkid
        rw [hstep] at h₂
        cases h₂
        -- the two stacks have the same height, so the search stopped at `m`
        have hheight := congrArg List.length (ht.openRegions.symm.trans hopen)
        rw [h.unwindTo_eq he, List.length_cons, List.length_cons, openFrom_length,
          openFrom_length] at hheight
        have hem : e = m := by omega
        obtain ⟨l, hml, hl, rfl⟩ := (h.mem_deeper hm).mp hk
        exact hlast l (by omega) hl (Option.some.inj hkid).symm
      · intro hno
        have hem : e = m := by
          by_contra hne
          exact hno _ ((h.mem_deeper hm).mpr ⟨e, by omega, he, rfl⟩) (congrArg some hid.symm)
        subst hem
        exact ⟨s', hstep, by rw [ht.openRegions, h.unwindTo_eq hm]⟩

/-- A step of program and profiler whose landing pad, if it is one, meets no
deeper activation. -/
theorem Tracks.jointStep {e : ProgramEvent} {x : Frames × KremlinProfiler} (h : Tracks fs s)
    (hno : NoDeeperActivation (fs, s) e) (hstep : jointStep cfg (fs, s) e = some x) :
    Tracks x.1 x.2 := by
  simp only [Runtime.jointStep, Option.bind_eq_bind, Option.bind_eq_some_iff,
    Option.some.injEq] at hstep
  obtain ⟨fs', hprog, s', hprof, rfl⟩ := hstep
  cases e with
  | call e =>
      by_cases hmove : MovesLevels e
      · cases e with
        | enterRegion id ty =>
            simp only [programStep] at hprog
            split at hprog
            · cases hprog
            · next hfirst =>
                cases hprog
                exact h.enterRegion hfirst hprof
        | exitRegion id ty =>
            simp only [programStep] at hprog
            split at hprog
            · next hhead =>
                cases hprog
                cases fs with
                | nil => cases hhead
                | cons k fs =>
                    cases hhead
                    have hgate : step cfg s (.exitRegion id ty) = s.closeDeepest cfg ty :=
                      if_pos h.enabled
                    obtain ⟨s₂, h₂, ht⟩ := h.closeDeepest cfg
                    rw [show (ProgramEvent.call (.exitRegion id ty)).emitted ((id, ty) :: fs)
                      = .exitRegion id ty from rfl, hgate, h₂] at hprof
                    cases hprof
                    exact ht
            · cases hprog
        | landingPad id ty => cases hprog
        | _ => exact hmove.elim
      · have hfs : fs' = fs := by
          cases e with
          | enterRegion id ty => exact absurd trivial hmove
          | exitRegion id ty => exact absurd trivial hmove
          | landingPad id ty => exact absurd trivial hmove
          | _ => exact (Option.some.inj hprog).symm
        rw [hfs]
        exact h.of_sameLevels (step_sameLevels hmove hprof)
  | catchAt m =>
      -- the pad finds the deepest region with the id; without a deeper activation it is the one
      -- meant
      have hsome : (programStep fs (.catchAt m)).isSome := by rw [hprog]; rfl
      obtain ⟨s₂, h₂, -⟩ := (h.padReturns_iff cfg (.catchAt m)).mpr hno hsome
      obtain ⟨e, s₃, hme, he, hid, hlast, h₃, ht⟩ := h.landingPad cfg hsome
      have hm : m < fs.length := by omega
      have hem : e = m := by
        by_contra hne
        refine hno hsome _ ((h.mem_deeper hm).mpr ⟨e, by omega, he, rfl⟩) ?_
        show (fs.unwindTo m).head?.map Prod.fst = _
        rw [h.unwindTo_eq hm]
        exact congrArg some hid.symm
      subst hem
      rw [h₃] at hprof
      cases hprof
      rw [(programStep_catchAt hprog).2]
      exact ht

/-- **Every landing pad of a run brings the profiler back to the regions of the
catching activation if and only if no landing pad of the run is reached while a
deeper activation of the catching region is open.** -/
theorem landingPads_return_iff (cfg : Config) (nextVersion : ℕ) (es : List ProgramEvent) :
    RunOk (jointStep cfg) (PadReturns cfg) ([], init cfg nextVersion) es ↔
      RunOk (jointStep cfg) NoDeeperActivation ([], init cfg nextVersion) es :=
  runOk_congr (P := fun x => Tracks x.1 x.2) (fun _ e h => h.padReturns_iff cfg e)
    (fun _ _ _ h hno hstep => h.jointStep hno hstep) (tracks_init cfg nextVersion) es

/-- A function calls itself, the inner activation throws and the outer one
catches. -/
def catchInRecursion : List ProgramEvent :=
  [.call (.enterRegion 1 .regionFunc), .call (.prepRTable 4 0),
   .call (.enterRegion 1 .regionFunc), .call (.prepRTable 4 0), .catchAt 0]

/-- The landing pad leaves the inner activation open. -/
theorem not_landingPads_return :
    ¬ RunOk (jointStep { min_level := 0, max_level := 32 })
      (PadReturns { min_level := 0, max_level := 32 })
      ([], init { min_level := 0, max_level := 32 } 0) catchInRecursion := by
  rw [runOk_congr (P := fun x => Tracks x.1 x.2) (fun _ e h => h.padReturns_iff _ e)
    (fun _ _ _ h hno hstep => h.jointStep hno hstep) (tracks_init _ 0)]
  decide +kernel

end Kremlin.Runtime
