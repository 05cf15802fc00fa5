/-
  Kremlin.Runtime.NaryHandlers — one definition for timestamps and phis.

  `_KTimestamp0` to `_KTimestamp7` and `_KPhi1To1` to `_KPhi4To1` compute one
  maximum whatever their arity.  The variadic handlers compute it for the last
  round of sources only, since every call of `timestampUpdater` overwrites the
  destination: they agree exactly when the last round covers the earlier ones.
-/
import Kremlin.Runtime.ArgumentRounds
import Kremlin.Runtime.UpdateLoops

namespace Kremlin.Runtime

open Kremlin.Library
open KremlinProfiler

/-! ## §1. The definition. -/

/-- The largest of a start time and the times of the sources with their offsets. -/
def latest (s : KremlinProfiler) (start : Option ℕ) (srcs : List Source) (index : ℕ) :
    Option ℕ := do
  let start ← start
  srcs.foldlM (fun time src => do
    some (max time ((← s.getRegisterTimeAtIndex src.1 index) + src.2))) start

/-- `max(cdep[i], max_k (T[src_k][i] + off_k))`. -/
def timestampTime (srcs : List Source) (s : KremlinProfiler) (index : ℕ) : Option ℕ :=
  latest s (s.getControlDependenceAtIndex index) srcs index

/-- `max(T[src][i], max_k T[ctrl_k][i])`. -/
def phiTime (src : ℕ) (ctrls : List ℕ) (s : KremlinProfiler) (index : ℕ) : Option ℕ :=
  latest s (some 0) ((src :: ctrls).map noOffset) index

/-- A state in which `rows` registers can be read and written at every
instrumented level. -/
structure Ready (cfg : Config) (rows : ℕ) (s : KremlinProfiler) : Prop where
  on : s.enabled = true
  table : ∃ f rest t, OwnTable s f rest t ∧ t.row = rows ∧ s.curr_num_instrumented_levels ≤ t.col
  regions : ∀ i < s.curr_num_instrumented_levels, cfg.min_level + i < s.num_regions
  control : ∀ i < s.curr_num_instrumented_levels, (s.getControlDependenceAtIndex i).isSome

/-- The instruction gives `dest_reg` the defined time at every instrumented level. -/
def Computes (i : Instr) (rows dest_reg : ℕ) (time : KremlinProfiler → ℕ → Option ℕ) : Prop :=
  ∀ cfg s, Ready cfg rows s → ∃ s', handleInstr cfg i s = some s' ∧
    ∀ index < s.curr_num_instrumented_levels,
      s'.getRegisterTimeAtIndex dest_reg index = time s index

/-- The handlers a timestamp of these sources can be compiled to. -/
def timestampHandlers (dest_reg : ℕ) (srcs : List Source) : List Instr :=
  .timestamp dest_reg srcs ::
    match srcs with
    | [] => [.timestamp0 dest_reg]
    | [s1] => [.timestamp1 dest_reg s1]
    | [s1, s2] => [.timestamp2 dest_reg s1 s2]
    | [s1, s2, s3] => [.timestamp3 dest_reg s1 s2 s3]
    | [s1, s2, s3, s4] => [.timestamp4 dest_reg s1 s2 s3 s4]
    | [s1, s2, s3, s4, s5] => [.timestamp5 dest_reg s1 s2 s3 s4 s5]
    | [s1, s2, s3, s4, s5, s6] => [.timestamp6 dest_reg s1 s2 s3 s4 s5 s6]
    | [s1, s2, s3, s4, s5, s6, s7] => [.timestamp7 dest_reg s1 s2 s3 s4 s5 s6 s7]
    | _ => []

/-- The handlers a phi with these controls can be compiled to. -/
def phiHandlers (dest_reg src_reg : ℕ) (ctrls : List ℕ) : List Instr :=
  .phi dest_reg src_reg ctrls ::
    match ctrls with
    | [c1] => [.phi1To1 dest_reg src_reg c1]
    | [c1, c2] => [.phi2To1 dest_reg src_reg c1 c2]
    | [c1, c2, c3] => [.phi3To1 dest_reg src_reg c1 c2 c3]
    | [c1, c2, c3, c4] => [.phi4To1 dest_reg src_reg c1 c2 c3 c4]
    | _ => []

/-! ## §2. Updates as functions on times. -/

/-- The time an update without memory gives to one index. -/
def newTime (u : TimestampUpdate) (cdep : ℕ → ℕ) (x : ℕ → ℕ → ℕ) (i : ℕ) : ℕ :=
  maxOver (fun src => x src.1 i + src.2) (if u.use_ctrl_dependence then cdep i else 0) u.srcs

/-- The register times after some updates at the first `n` indices. -/
def afterUpdates (n : ℕ) (cdep : ℕ → ℕ) (us : List TimestampUpdate) (x : ℕ → ℕ → ℕ) :
    ℕ → ℕ → ℕ :=
  us.foldl (fun x u r i => if r = u.dest_reg ∧ i < n then newTime u cdep x i else x r i) x

/-- Without memory the time comes from registers. -/
theorem updateTime_noMemory {u : TimestampUpdate} (hmem : u.src_addr = none) (cdep times : ℕ → ℕ)
    (t : Table) (i : ℕ) : updateTime u cdep times t i = newTime u cdep t.entry i := by
  simp [updateTime, newTime, hmem]

/-- A register that no update writes keeps its times. -/
theorem afterUpdates_of_ne {n : ℕ} {cdep : ℕ → ℕ} {us : List TimestampUpdate} {r : ℕ}
    (hr : ∀ u ∈ us, u.dest_reg ≠ r) (x : ℕ → ℕ → ℕ) (i : ℕ) :
    afterUpdates n cdep us x r i = x r i := by
  induction us generalizing x with
  | nil => rfl
  | cons u us ih =>
      show afterUpdates n cdep us _ r i = _
      rw [ih fun u' hu' => hr u' (List.mem_cons_of_mem u hu')]
      exact if_neg fun h => hr u List.mem_cons_self h.1.symm

/-- The times of one index depend on those of that index only. -/
theorem afterUpdates_congr {n : ℕ} {cdep : ℕ → ℕ} {us : List TimestampUpdate} {i : ℕ}
    {x y : ℕ → ℕ → ℕ} (h : ∀ r, x r i = y r i) (r : ℕ) :
    afterUpdates n cdep us x r i = afterUpdates n cdep us y r i := by
  induction us generalizing x y with
  | nil => exact h r
  | cons u us ih =>
      apply ih
      intro r'
      simp only [newTime, h]

/-- **Only the last update counts** when all write one register and the last one
does not read it. -/
theorem afterUpdates_last {n : ℕ} {cdep : ℕ → ℕ} {us : List TimestampUpdate} {d : ℕ}
    {u : TimestampUpdate} (hus : ∀ u' ∈ us, u'.dest_reg = d) (hd : u.dest_reg = d)
    (hsrcs : ∀ src ∈ u.srcs, src.1 ≠ d) (x : ℕ → ℕ → ℕ) {i : ℕ} (hi : i < n) :
    afterUpdates n cdep (us ++ [u]) x d i = newTime u cdep x i := by
  unfold afterUpdates
  rw [List.foldl_append, List.foldl_cons, List.foldl_nil, if_pos ⟨hd.symm, hi⟩]
  have hkeep : ∀ src ∈ u.srcs, afterUpdates n cdep us x src.1 i = x src.1 i :=
    fun src hsrc => afterUpdates_of_ne (fun u' hu' h => hsrcs src hsrc (h.symm.trans (hus u' hu'))) x i
  apply Nat.le_antisymm
  · exact maxOver_mono le_rfl fun src hsrc => by
      show afterUpdates n cdep us x src.1 i + src.2 ≤ _
      rw [hkeep src hsrc]
  · exact maxOver_mono le_rfl fun src hsrc => by
      show _ ≤ afterUpdates n cdep us x src.1 i + src.2
      rw [hkeep src hsrc]

/-- The largest time depends on which sources there are, not on their order or
number. -/
theorem maxOver_congr_mem {f : Source → ℕ} {b : ℕ} {xs ys : List Source}
    (h : ∀ x, x ∈ xs ↔ x ∈ ys) : maxOver f b xs = maxOver f b ys := by
  apply Nat.le_antisymm
  · exact maxOver_le_iff.mpr
      ⟨le_maxOver f b ys, fun x hx => le_maxOver_of_mem ((h x).mp hx)⟩
  · exact maxOver_le_iff.mpr
      ⟨le_maxOver f b xs, fun x hx => le_maxOver_of_mem ((h x).mpr hx)⟩

/-! ## §3. What an instruction computes. -/

/-- The updates of an instruction on a ready state. -/
theorem foldUpdates_spec {cfg : Config} {s : KremlinProfiler} {f : FunctionRegion}
    {rest : List FunctionRegion} {t : Table} {cdep : ℕ → ℕ} (h : OwnTable s f rest t)
    (hcol : s.curr_num_instrumented_levels ≤ t.col)
    (hregions : ∀ i < s.curr_num_instrumented_levels, cfg.min_level + i < s.num_regions)
    (hcdep : ∀ i < s.curr_num_instrumented_levels,
      s.getControlDependenceAtIndex i = some (cdep i)) {us : List TimestampUpdate}
    (hus : ∀ u ∈ us, u.src_addr = none ∧ u.dest_reg < t.row ∧ ∀ src ∈ u.srcs, src.1 < t.row) :
    ∃ s', us.foldlM (fun s u => timestampUpdater cfg u s) s = some s' ∧
      ∀ r < t.row, ∀ i < s.curr_num_instrumented_levels, s'.getRegisterTimeAtIndex r i
        = some (afterUpdates s.curr_num_instrumented_levels cdep us t.entry r i) := by
  induction us generalizing s f t with
  | nil =>
      refine ⟨s, rfl, fun r hr i hi => ?_⟩
      exact h.getTime hr (by omega)
  | cons u us ih =>
      obtain ⟨hmem, hdest, hsrcs⟩ := hus u List.mem_cons_self
      obtain ⟨t₁, h₁, hrow, hcol₁, hentry⟩ := h.timestampUpdater cfg u cdep (fun _ => 0) hsrcs hdest
        hcol hregions (fun _ => hcdep) (fun a ha => by rw [hmem] at ha; cases ha)
      obtain ⟨s', hs', hread⟩ := ih (h.withTable t₁ _) (by rw [hcol₁]; exact hcol) hregions hcdep
        fun u' hu' => by
          rw [hrow]
          exact hus u' (List.mem_cons_of_mem u hu')
      refine ⟨s', ?_, fun r hr i hi => ?_⟩
      · rw [List.foldlM_cons, h₁]
        exact hs'
      · rw [hread r (by rw [hrow]; exact hr) i hi]
        refine congrArg some (afterUpdates_congr (fun r' => ?_) r)
        rw [hentry r' i (by omega), updateTime_noMemory hmem]

/-- The defined time in terms of the times read. -/
theorem latest_eq {s : KremlinProfiler} {b index : ℕ} {srcs : List Source} {x : ℕ → ℕ → ℕ}
    (h : ∀ src ∈ srcs, s.getRegisterTimeAtIndex src.1 index = some (x src.1 index)) :
    latest s (some b) srcs index
      = some (maxOver (fun src => x src.1 index + src.2) b srcs) := by
  have hread : ∀ src ∈ srcs, (s.getRegisterTimeAtIndex src.1 index).map (· + src.2)
      = some (x src.1 index + src.2) := by
    intro src hsrc
    rw [h src hsrc]
    rfl
  rw [← foldlM_max_eq hread, latest, Option.bind_eq_bind, Option.bind_some]
  congr 1
  funext time src
  cases s.getRegisterTimeAtIndex src.1 index <;> rfl

/-- The register times of the updates are the maximum over `srcs`, from the
control dependence or from 0. -/
def MaxOfSources (ctrl : Bool) (us : List TimestampUpdate) (d : ℕ) (srcs : List Source) : Prop :=
  ∀ n (cdep : ℕ → ℕ) (x : ℕ → ℕ → ℕ), ∀ i < n, afterUpdates n cdep us x d i
    = maxOver (fun src => x src.1 i + src.2) (if ctrl then cdep i else 0) srcs

/-- The defined time over these sources, from the control dependence or from 0. -/
def definedTime (ctrl : Bool) (srcs : List Source) (s : KremlinProfiler) (index : ℕ) : Option ℕ :=
  latest s (if ctrl then s.getControlDependenceAtIndex index else some 0) srcs index

/-- The time of a timestamp, -/
theorem timestampTime_eq (srcs : List Source) : timestampTime srcs = definedTime true srcs := rfl

/-- and that of a phi. -/
theorem phiTime_eq (src : ℕ) (ctrls : List ℕ) :
    phiTime src ctrls = definedTime false ((src :: ctrls).map noOffset) := rfl

/-- No memory is read, and all registers exist. -/
def RegistersOnly (rows : ℕ) (us : List TimestampUpdate) : Prop :=
  ∀ u ∈ us, u.src_addr = none ∧ u.dest_reg < rows ∧ ∀ src ∈ u.srcs, src.1 < rows

section Instructions

variable {i : Instr} {rows d : ℕ} {ctrl : Bool} {srcs : List Source}

/-- A handler that takes the maximum computes the time. -/
theorem MaxOfSources.computes (h : MaxOfSources ctrl (updates i) d srcs) (hd : d < rows)
    (hsrcs : ∀ src ∈ srcs, src.1 < rows) (hus : RegistersOnly rows (updates i)) :
    Computes i rows d (definedTime ctrl srcs) := by
  intro cfg s hs
  obtain ⟨f, rest, t, hown, hrow, hcol⟩ := hs.table
  have hcdep : ∀ index < s.curr_num_instrumented_levels, s.getControlDependenceAtIndex index
      = some ((s.getControlDependenceAtIndex index).getD 0) := by
    intro index hindex
    obtain ⟨c, hc⟩ := Option.isSome_iff_exists.mp (hs.control index hindex)
    rw [hc, Option.getD_some]
  obtain ⟨s', hs', hread⟩ := foldUpdates_spec hown hcol hs.regions hcdep
    (show ∀ u ∈ updates i, _ from by rw [hrow]; exact hus)
  refine ⟨s', (if_pos hs.on).trans hs', fun index hindex => ?_⟩
  rw [hread d (by omega) index hindex, h _ _ _ index hindex]
  have hvalues : ∀ src ∈ srcs, s.getRegisterTimeAtIndex src.1 index
      = some (t.entry src.1 index) := fun src hsrc =>
    hown.getTime (by rw [hrow]; exact hsrcs src hsrc) (by omega)
  unfold definedTime
  cases ctrl with
  | false => exact (latest_eq hvalues).symm
  | true =>
      rw [if_pos rfl, if_pos rfl, hcdep index hindex, Option.getD_some]
      exact (latest_eq hvalues).symm

/-- A state with one instrumented level, a given time in each register, and no
control dependence. -/
def probe (rows : ℕ) (time : ℕ → ℕ) : KremlinProfiler :=
  { init { min_level := 0, max_level := 0 } 0 with
    curr_level := 0
    curr_num_instrumented_levels := 1
    callstack := [{ FunctionRegion.new 0 with table := some ⟨rows, 1, time⟩ }]
    cdt_current_base := some 0
    shadow_reg_file := some 0 }

/-- The probe has one open region. -/
theorem probe_ready (rows : ℕ) (time : ℕ → ℕ) :
    Ready { min_level := 0, max_level := 0 } rows (probe rows time) where
  on := rfl
  table := ⟨_, [], _, ⟨rfl, rfl, rfl⟩, rfl, le_rfl⟩
  regions i hi := by
    have hi' : i < 1 := hi
    show 0 + i < INIT_NUM_REGIONS
    rw [show INIT_NUM_REGIONS = 64 from rfl]
    omega
  control i hi := by
    have hi' : i < 1 := hi
    obtain rfl : i = 0 := by omega
    rfl

/-- What an instruction that computes the defined time does to the times of a
probe. -/
theorem Computes.on_probe (h : Computes i rows d (definedTime ctrl srcs)) (hd : d < rows)
    (hsrcs : ∀ src ∈ srcs, src.1 < rows) (hus : RegistersOnly rows (updates i)) (time : ℕ → ℕ) :
    afterUpdates 1 (fun _ => 0) (updates i) (fun r _ => time r) d 0
      = maxOver (fun src => time src.1 + src.2) 0 srcs := by
  have hs := probe_ready rows time
  obtain ⟨f, rest, t, hown, hrow, hcol⟩ : ∃ f rest t, OwnTable (probe rows time) f rest t ∧
      t = ⟨rows, 1, time⟩ ∧ 1 ≤ t.col := ⟨_, [], _, ⟨rfl, rfl, rfl⟩, rfl, le_rfl⟩
  have hcdep : ∀ index < (probe rows time).curr_num_instrumented_levels,
      (probe rows time).getControlDependenceAtIndex index = some 0 := by
    intro index hindex
    have hindex' : index < 1 := hindex
    obtain rfl : index = 0 := by omega
    rfl
  have hentry : ∀ r, t.entry r 0 = time r := by
    intro r
    rw [hrow]
    show time (1 * r + 0) = time r
    rw [Nat.one_mul, Nat.add_zero]
  obtain ⟨s', hs', hvalue⟩ := h _ _ hs
  obtain ⟨s'', hs'', hread⟩ := foldUpdates_spec hown hcol hs.regions hcdep
    (show ∀ u ∈ updates i, _ from by rw [hrow]; exact hus)
  -- the handler is the fold over its updates
  have hsame : s' = s'' := by
    have hstep : handleInstr { min_level := 0, max_level := 0 } i (probe rows time)
        = some s'' := (if_pos rfl).trans hs''
    rw [hs'] at hstep
    exact Option.some_inj.mp hstep
  have hd' : d < t.row := by rw [hrow]; exact hd
  have hresult := hvalue 0 (Nat.lt_succ_self 0)
  rw [hsame, hread d hd' 0 (Nat.lt_succ_self 0)] at hresult
  have hvalues : ∀ src ∈ srcs, (probe rows time).getRegisterTimeAtIndex src.1 0
      = some (t.entry src.1 0) := fun src hsrc =>
    hown.getTime (by rw [hrow]; exact hsrcs src hsrc) (by omega)
  have hdefined : definedTime ctrl srcs (probe rows time) 0
      = some (maxOver (fun src => t.entry src.1 0 + src.2) 0 srcs) := by
    rw [definedTime]
    cases ctrl with
    | false => exact latest_eq hvalues
    | true =>
        rw [if_pos rfl, hcdep 0 (Nat.lt_succ_self 0)]
        exact latest_eq hvalues
  rw [hdefined, Option.some.injEq] at hresult
  simp only [hentry] at hresult
  rw [← hresult]
  exact afterUpdates_congr (fun r => (hentry r).symm) d

/-! ## §4. Fixed arities. -/

/-- The sources `xs` stand for `ys`: nothing else is read, and every source of
`ys` is read with at least its offset. -/
structure Covers (xs ys : List Source) : Prop where
  only : ∀ src ∈ xs, src ∈ ys
  covered : ∀ src ∈ ys, ∃ src' ∈ xs, src'.1 = src.1 ∧ src.2 ≤ src'.2

/-- Sources cover themselves. -/
theorem Covers.refl (xs : List Source) : Covers xs xs :=
  ⟨fun _ h => h, fun src h => ⟨src, h, rfl, le_rfl⟩⟩

/-- Sources that cover each other have one maximum. -/
theorem Covers.maxOver_eq {xs ys : List Source} (h : Covers xs ys) (x : ℕ → ℕ) (b : ℕ) :
    maxOver (fun src => x src.1 + src.2) b xs = maxOver (fun src => x src.1 + src.2) b ys := by
  apply Nat.le_antisymm
  · exact maxOver_le_iff.mpr ⟨le_maxOver _ b ys, fun src hsrc =>
      le_maxOver_of_mem (f := fun src : Source => x src.1 + src.2) (h.only src hsrc)⟩
  · refine maxOver_le_iff.mpr ⟨le_maxOver _ b xs, fun src hsrc => ?_⟩
    obtain ⟨src', hmem, hreg, hoff⟩ := h.covered src hsrc
    have hle := le_maxOver_of_mem (f := fun src : Source => x src.1 + src.2) (t := b) hmem
    rw [hreg] at hle
    omega

/-- A handler whose last update reads sources that stand for all. -/
theorem maxOfSources_last {us : List TimestampUpdate} {u : TimestampUpdate}
    (hus : ∀ u' ∈ us, u'.dest_reg = d) (hd : u.dest_reg = d)
    (hctrl : u.use_ctrl_dependence = ctrl) (hne : ∀ src ∈ u.srcs, src.1 ≠ d)
    (hcovers : Covers u.srcs srcs) : MaxOfSources ctrl (us ++ [u]) d srcs := by
  intro n cdep x index hindex
  rw [afterUpdates_last hus hd hne x hindex, newTime, hctrl]
  exact hcovers.maxOver_eq (fun r => x r index) _

/-- A handler with one update. -/
theorem maxOfSources_single (update_cp : Bool) (hne : ∀ src ∈ srcs, src.1 ≠ d) :
    MaxOfSources ctrl [⟨ctrl, update_cp, d, srcs, none⟩] d srcs :=
  @maxOfSources_last _ _ _ [] _ (fun _ h => absurd h List.not_mem_nil) rfl rfl hne (.refl srcs)

/-- A handler with a second update that reads back the first. -/
theorem maxOfSources_pair (xs : List Source) {ys : List Source} (hys : ∀ src ∈ ys, src.1 ≠ d) :
    MaxOfSources true [⟨true, false, d, xs, none⟩, ⟨false, true, d, noOffset d :: ys, none⟩] d
      (xs ++ ys) := by
  intro n cdep x index hindex
  unfold afterUpdates
  rw [List.foldl_cons, List.foldl_cons, List.foldl_nil, if_pos ⟨rfl, hindex⟩]
  -- the first update's result is read back as a source without an offset
  have hback : newTime ⟨true, false, d, xs, none⟩ cdep x index
      = maxOver (fun src => x src.1 index + src.2) (cdep index) xs := rfl
  have happend : maxOver (fun src => x src.1 index + src.2) (cdep index) (xs ++ ys)
      = maxOver (fun src => x src.1 index + src.2)
          (maxOver (fun src => x src.1 index + src.2) (cdep index) xs) ys := List.foldl_append
  rw [if_pos rfl, happend, ← hback]
  generalize hfirst : newTime ⟨true, false, d, xs, none⟩ cdep x index = first
  have hsecond : ∀ y : ℕ → ℕ → ℕ, y d index = first →
      (∀ src ∈ ys, y src.1 index = x src.1 index) →
      newTime ⟨false, true, d, noOffset d :: ys, none⟩ cdep y index
        = maxOver (fun src => x src.1 index + src.2) first ys := by
    intro y hy hother
    show maxOver (fun src => y src.1 index + src.2) (max 0 (y d index + 0)) ys = _
    rw [hy, Nat.zero_max, Nat.add_zero]
    exact Nat.le_antisymm
      (maxOver_mono le_rfl fun src hsrc => by rw [hother src hsrc])
      (maxOver_mono le_rfl fun src hsrc => by rw [hother src hsrc])
  exact hsecond _ ((if_pos ⟨rfl, hindex⟩).trans hfirst)
    fun src hsrc => if_neg fun h => hys src hsrc h.1

/-! ## §5. Variable arity. -/

/-- The last round of a variadic timestamp covers the earlier ones. -/
structure RoundsCovered (srcs : List Source) : Prop where
  nonempty : srcs ≠ []
  covered : ∀ src ∈ srcs, ∃ src' ∈ lastRound srcs, src'.1 = src.1 ∧ src.2 ≤ src'.2

/-- The controls of the last call of a variadic phi are all there are. -/
def ControlsCovered (src_reg : ℕ) (ctrls : List ℕ) : Prop :=
  ∀ c ∈ ctrls, c = src_reg ∨ c ∈ lastControls ctrls

/-- The last update of a timestamp holds the last round. -/
theorem updates_timestamp (hne : srcs ≠ []) :
    ∃ us slots, updates (.timestamp d srcs) = us ++ [⟨true, true, d, slots, none⟩] ∧
      (∀ u ∈ us, u.src_addr = none ∧ u.dest_reg = d ∧ ∀ src ∈ u.srcs, src ∈ srcs) ∧
      ∀ src, src ∈ slots ↔ src ∈ lastRound srcs := by
  obtain ⟨calls, slots, hcalls, hearlier, hmem⟩ := variableArgChunks_last hne
  refine ⟨calls.map fun srcs => ⟨true, true, d, srcs, none⟩, slots, ?_, fun u hu => ?_, hmem⟩
  · show (variableArgChunks none 0 _ srcs).map _ = _
    rw [hcalls, List.map_append, List.map_singleton]
  · obtain ⟨srcs', hsrcs', rfl⟩ := List.mem_map.mp hu
    exact ⟨rfl, rfl, hearlier srcs' hsrcs'⟩

/-- So does that of a phi, with its source. -/
theorem updates_phi (src_reg : ℕ) {ctrls : List ℕ} (hne : ctrls ≠ []) :
    ∃ us slots, updates (.phi d src_reg ctrls) = us ++ [⟨false, false, d, slots, none⟩] ∧
      (∀ u ∈ us, u.src_addr = none ∧ u.dest_reg = d ∧ ∀ src ∈ u.srcs, src ∈ ctrls.map noOffset) ∧
      ∀ src, src ∈ slots ↔ src = noOffset src_reg ∨ src ∈ (lastControls ctrls).map noOffset := by
  obtain ⟨calls, slots, hcalls, hearlier, hmem⟩ := variableArgChunks_last_src hne src_reg
  refine ⟨calls.map fun srcs => ⟨false, false, d, srcs, none⟩, slots, ?_, fun u hu => ?_, hmem⟩
  · have hvariadic : updates (.phi d src_reg ctrls)
        = handleVariableNumArgs false false (some src_reg) none d (ctrls.map noOffset) :=
      if_pos (List.length_pos_iff.mpr hne)
    rw [hvariadic, handleVariableNumArgs, hcalls, List.map_append, List.map_singleton]
  · obtain ⟨srcs', hsrcs', rfl⟩ := List.mem_map.mp hu
    exact ⟨rfl, rfl, hearlier srcs' hsrcs'⟩

/-- A source that the last update reads with less than its offset, or not at all,
is lost when its register is late enough. -/
theorem Computes.covered {us : List TimestampUpdate} {slots : List Source} {update_cp : Bool}
    (h : Computes i rows d (definedTime ctrl srcs)) (hd : d < rows)
    (hsrcs : ∀ src ∈ srcs, src.1 < rows ∧ src.1 ≠ d)
    (hus : RegistersOnly rows (updates i))
    (hupdates : updates i = us ++ [⟨ctrl, update_cp, d, slots, none⟩])
    (hdest : ∀ u ∈ us, u.dest_reg = d) (honly : ∀ src ∈ slots, src ∈ srcs) {src : Source}
    (hsrc : src ∈ srcs) : ∃ src' ∈ slots, src'.1 = src.1 ∧ src.2 ≤ src'.2 := by
  by_contra hnone
  have hlost : ∀ src' ∈ slots, src'.1 = src.1 → src'.2 < src.2 := fun src' hmem hreg => by
    by_contra hle
    exact hnone ⟨src', hmem, hreg, by omega⟩
  -- the lost source is later than every offset
  let late := maxOver Prod.snd 0 slots + 1
  have hprobe := h.on_probe hd (fun src hsrc => (hsrcs src hsrc).1) hus
    fun r => if r = src.1 then late else 0
  rw [hupdates, afterUpdates_last hdest rfl (fun src hmem => (hsrcs src (honly src hmem)).2) _
    Nat.one_pos] at hprobe
  have hbase : (if ctrl then (0 : ℕ) else 0) = 0 := by
    split <;> rfl
  have hle : newTime ⟨ctrl, update_cp, d, slots, none⟩ (fun _ => 0)
      (fun r _ => if r = src.1 then late else 0) 0 ≤ late + src.2 - 1 := by
    show maxOver _ (if ctrl then 0 else 0) slots ≤ _
    rw [hbase]
    refine maxOver_le_iff.mpr ⟨Nat.zero_le _, fun src' hmem => ?_⟩
    have hoff := le_maxOver_of_mem (f := Prod.snd) (t := 0) hmem
    dsimp only
    split
    · next hreg =>
        have := hlost src' hmem hreg
        omega
    · omega
  have hge := le_maxOver_of_mem (t := 0) hsrc
    (f := fun s : Source => (if s.1 = src.1 then late else 0) + s.2)
  rw [← hprobe, if_pos rfl] at hge
  omega

/-- The updates of a variable argument list touch registers only. -/
theorem registersOnly_variadic {us : List TimestampUpdate} {u : TimestampUpdate} {all : List Source}
    (hd : d < rows) (hall : ∀ src ∈ all, src.1 < rows)
    (hus : ∀ u ∈ us, u.src_addr = none ∧ u.dest_reg = d ∧ ∀ src ∈ u.srcs, src ∈ all)
    (hu : u.src_addr = none ∧ u.dest_reg = d ∧ ∀ src ∈ u.srcs, src ∈ all) :
    RegistersOnly rows (us ++ [u]) := by
  intro u' hu'
  have h : u'.src_addr = none ∧ u'.dest_reg = d ∧ ∀ src ∈ u'.srcs, src ∈ all := by
    rcases List.mem_append.mp hu' with hmem | hmem
    · exact hus u' hmem
    · rw [List.mem_singleton.mp hmem]
      exact hu
  exact ⟨h.1, by rw [h.2.1]; exact hd, fun src hsrc => hall src (h.2.2 src hsrc)⟩

/-- A handler with one update. -/
theorem computes_single {update_cp : Bool} (hup : updates i = [⟨ctrl, update_cp, d, srcs, none⟩])
    (hd : d < rows) (hsrcs : ∀ src ∈ srcs, src.1 < rows ∧ src.1 ≠ d) :
    Computes i rows d (definedTime ctrl srcs) := by
  have hregs : ∀ src ∈ srcs, src.1 < rows := fun src hsrc => (hsrcs src hsrc).1
  have hmax : MaxOfSources ctrl [⟨ctrl, update_cp, d, srcs, none⟩] d srcs :=
    maxOfSources_single update_cp fun src hsrc => (hsrcs src hsrc).2
  rw [← hup] at hmax
  refine hmax.computes hd hregs ?_
  rw [hup]
  exact @registersOnly_variadic _ _ [] _ _ hd hregs (fun _ h => absurd h List.not_mem_nil)
    ⟨rfl, rfl, fun _ h => h⟩

/-- A handler with two updates; the second reads what the first wrote. -/
theorem computes_pair (xs ys : List Source)
    (hup : updates i = [⟨true, false, d, xs, none⟩, ⟨false, true, d, noOffset d :: ys, none⟩])
    (hd : d < rows) (hsrcs : ∀ src ∈ xs ++ ys, src.1 < rows ∧ src.1 ≠ d) :
    Computes i rows d (definedTime true (xs ++ ys)) := by
  have hmax := maxOfSources_pair xs fun src hsrc =>
    (hsrcs src (List.mem_append_right _ hsrc)).2
  rw [← hup] at hmax
  refine hmax.computes hd (fun src hsrc => (hsrcs src hsrc).1) ?_
  rw [hup]
  intro u hu
  rcases List.mem_cons.mp hu with rfl | hu
  · exact ⟨rfl, hd, fun src hsrc => (hsrcs src (List.mem_append_left _ hsrc)).1⟩
  · rw [List.mem_singleton.mp hu]
    refine ⟨rfl, hd, fun src hsrc => ?_⟩
    rcases List.mem_cons.mp hsrc with rfl | hsrc
    · exact hd
    · exact (hsrcs src (List.mem_append_right _ hsrc)).1

end Instructions

section Handlers

variable {rows d : ℕ} {srcs : List Source}

/-- **Every timestamp handler of fixed arity computes the definition.** -/
theorem fixedTimestamps (hd : d < rows) (hsrcs : ∀ src ∈ srcs, src.1 < rows ∧ src.1 ≠ d) :
    ∀ i ∈ (timestampHandlers d srcs).tail, Computes i rows d (timestampTime srcs) := by
  intro i hi
  rw [timestampTime_eq]
  unfold timestampHandlers at hi
  rw [List.tail_cons] at hi
  split at hi
  any_goals
    obtain rfl := List.mem_singleton.mp hi
    exact computes_single rfl hd hsrcs
  · obtain rfl := List.mem_singleton.mp hi
    exact computes_pair [_, _, _, _, _] [_] rfl hd hsrcs
  · obtain rfl := List.mem_singleton.mp hi
    exact computes_pair [_, _, _, _, _] [_, _] rfl hd hsrcs
  · exact absurd hi List.not_mem_nil

/-- **Timestamps.**  All handlers compute the definition exactly when the last
round of the variadic one covers the earlier ones. -/
theorem timestampHandlers_iff (hd : d < rows)
    (hsrcs : ∀ src ∈ srcs, src.1 < rows ∧ src.1 ≠ d) :
    (∀ i ∈ timestampHandlers d srcs, Computes i rows d (timestampTime srcs)) ↔
      RoundsCovered srcs := by
  have hregs : ∀ src ∈ srcs, src.1 < rows := fun src hsrc => (hsrcs src hsrc).1
  constructor
  · intro h
    have hvariadic := h (.timestamp d srcs) List.mem_cons_self
    rw [timestampTime_eq] at hvariadic
    by_cases hempty : srcs = []
    · -- without a source the destination is not written at all
      subst hempty
      have hprobe : (1 : ℕ) = 0 := hvariadic.on_probe hd
        (fun _ h => absurd h List.not_mem_nil) (fun _ h => absurd h List.not_mem_nil) fun _ => 1
      omega
    · obtain ⟨us, slots, hup, hus, hslots⟩ := updates_timestamp (d := d) hempty
      have hsub : ∀ src ∈ slots, src ∈ srcs :=
        fun src hsrc => lastRound_subset ((hslots src).mp hsrc)
      have hreg := registersOnly_variadic hd hregs hus (u := ⟨true, true, d, slots, none⟩)
        ⟨rfl, rfl, hsub⟩
      rw [← hup] at hreg
      refine ⟨hempty, fun src hsrc => ?_⟩
      -- a source that is not covered shows on a probe
      obtain ⟨src', hmem, h'⟩ := hvariadic.covered hd hsrcs hreg hup
        (fun u hu => (hus u hu).2.1) hsub hsrc
      exact ⟨src', (hslots src').mp hmem, h'⟩
  · intro hcovered i hi
    rcases List.mem_cons.mp hi with rfl | hi
    · obtain ⟨us, slots, hup, hus, hslots⟩ := updates_timestamp (d := d) hcovered.nonempty
      have hsub : ∀ src ∈ slots, src ∈ srcs :=
        fun src hsrc => lastRound_subset ((hslots src).mp hsrc)
      have hreg := registersOnly_variadic hd hregs hus (u := ⟨true, true, d, slots, none⟩)
        ⟨rfl, rfl, hsub⟩
      have hmax : MaxOfSources true (us ++ [⟨true, true, d, slots, none⟩]) d srcs := by
        refine maxOfSources_last (fun u hu => (hus u hu).2.1) rfl rfl
          (fun src hmem => (hsrcs src (hsub src hmem)).2) ⟨hsub, fun src hsrc => ?_⟩
        obtain ⟨src', hmem, h'⟩ := hcovered.covered src hsrc
        exact ⟨src', (hslots src').mpr hmem, h'⟩
      rw [← hup] at hreg hmax
      exact hmax.computes hd hregs hreg
    · exact fixedTimestamps hd hsrcs i hi

variable {src_reg : ℕ} {ctrls : List ℕ}

/-- The registers of a phi as sources. -/
theorem phi_sources (h : ∀ r ∈ src_reg :: ctrls, r < rows ∧ r ≠ d) :
    ∀ src ∈ (src_reg :: ctrls).map noOffset, src.1 < rows ∧ src.1 ≠ d := by
  intro src hsrc
  obtain ⟨r, hr, rfl⟩ := List.mem_map.mp hsrc
  exact h r hr

/-- **Every phi handler of fixed arity computes the definition.** -/
theorem fixedPhis (hd : d < rows) (h : ∀ r ∈ src_reg :: ctrls, r < rows ∧ r ≠ d) :
    ∀ i ∈ (phiHandlers d src_reg ctrls).tail, Computes i rows d (phiTime src_reg ctrls) := by
  intro i hi
  rw [phiTime_eq]
  unfold phiHandlers at hi
  rw [List.tail_cons] at hi
  split at hi
  any_goals
    obtain rfl := List.mem_singleton.mp hi
    exact computes_single rfl hd (phi_sources h)
  exact absurd hi List.not_mem_nil

/-- **Phis.**  All handlers compute the definition exactly when the last call of
the variadic one sees every control. -/
theorem phiHandlers_iff (hd : d < rows) (hne : ctrls ≠ [])
    (h : ∀ r ∈ src_reg :: ctrls, r < rows ∧ r ≠ d) :
    (∀ i ∈ phiHandlers d src_reg ctrls, Computes i rows d (phiTime src_reg ctrls)) ↔
      ControlsCovered src_reg ctrls := by
  have hsrcs := phi_sources h
  have hregs : ∀ src ∈ (src_reg :: ctrls).map noOffset, src.1 < rows :=
    fun src hsrc => (hsrcs src hsrc).1
  obtain ⟨us, slots, hup, hus, hslots⟩ := updates_phi (d := d) src_reg hne
  have hsub : ∀ src ∈ slots, src ∈ (src_reg :: ctrls).map noOffset := by
    intro src hsrc
    rw [List.map_cons, List.mem_cons]
    rcases (hslots src).mp hsrc with heq | hmem
    · exact .inl heq
    · obtain ⟨c, hc, rfl⟩ := List.mem_map.mp hmem
      refine .inr (List.mem_map_of_mem ?_)
      unfold lastControls at hc
      split at hc
      · exact lastRound_subset (List.mem_of_mem_tail hc)
      · exact lastRound_subset hc
  have hreg := registersOnly_variadic hd hregs
    (fun u hu => ⟨(hus u hu).1, (hus u hu).2.1, fun src hsrc =>
      List.mem_cons_of_mem _ ((hus u hu).2.2 src hsrc)⟩)
    (u := ⟨false, false, d, slots, none⟩) ⟨rfl, rfl, hsub⟩
  rw [← hup] at hreg
  constructor
  · intro hall c hc
    -- a control that no slot holds is missed by the last round
    have hvariadic := hall (.phi d src_reg ctrls) List.mem_cons_self
    rw [phiTime_eq] at hvariadic
    obtain ⟨src', hmem, hsame, -⟩ := hvariadic.covered hd hsrcs hreg hup
      (fun u hu => (hus u hu).2.1) hsub (List.mem_map_of_mem (List.mem_cons_of_mem _ hc))
    rcases (hslots src').mp hmem with rfl | hlast
    · exact .inl hsame.symm
    · obtain ⟨c', hc', rfl⟩ := List.mem_map.mp hlast
      have heq : c' = c := hsame
      rw [← heq]
      exact .inr hc'
  · intro hcovered i hi
    rcases List.mem_cons.mp hi with rfl | hi
    · -- the source is read again in every round, the controls only once
      have hmax : MaxOfSources false (us ++ [⟨false, false, d, slots, none⟩]) d
          ((src_reg :: ctrls).map noOffset) := by
        refine maxOfSources_last (fun u hu => (hus u hu).2.1) rfl rfl
          (fun src hmem => (hsrcs src (hsub src hmem)).2) ⟨hsub, fun src hsrc => ?_⟩
        refine ⟨src, (hslots src).mpr ?_, rfl, le_rfl⟩
        obtain ⟨r, hr, rfl⟩ := List.mem_map.mp hsrc
        rcases List.mem_cons.mp hr with rfl | hr
        · exact .inl rfl
        · rcases hcovered r hr with rfl | hlast
          · exact .inl rfl
          · exact .inr (List.mem_map_of_mem hlast)
      rw [← hup] at hmax
      exact hmax.computes hd hregs hreg
    · exact fixedPhis hd h i hi

end Handlers

/-! ## §6. All handlers. -/

/-- **When the n-ary handlers agree with the definition.**  Those of fixed arity
always do; with the variadic ones all do exactly when the last round covers the
earlier ones. -/
theorem nary_handlers_iff {rows d : ℕ} (hd : d < rows) :
    (∀ srcs : List Source, (∀ src ∈ srcs, src.1 < rows ∧ src.1 ≠ d) →
      (∀ i ∈ (timestampHandlers d srcs).tail, Computes i rows d (timestampTime srcs)) ∧
      ((∀ i ∈ timestampHandlers d srcs, Computes i rows d (timestampTime srcs)) ↔
        RoundsCovered srcs)) ∧
    (∀ src_reg (ctrls : List ℕ), ctrls ≠ [] → (∀ r ∈ src_reg :: ctrls, r < rows ∧ r ≠ d) →
      (∀ i ∈ (phiHandlers d src_reg ctrls).tail, Computes i rows d (phiTime src_reg ctrls)) ∧
      ((∀ i ∈ phiHandlers d src_reg ctrls, Computes i rows d (phiTime src_reg ctrls)) ↔
        ControlsCovered src_reg ctrls)) :=
  ⟨fun _ hsrcs => ⟨fixedTimestamps hd hsrcs, timestampHandlers_iff hd hsrcs⟩,
    fun _ _ hne h => ⟨fixedPhis hd h, phiHandlers_iff hd hne h⟩⟩

/-- Two sources and eight registers. -/
theorem nary_handlers_iff_eight :
    (∀ i ∈ timestampHandlers 7 [(1, 0), (2, 3)], Computes i 8 7 (timestampTime [(1, 0), (2, 3)])) ↔
      RoundsCovered [(1, 0), (2, 3)] :=
  ((nary_handlers_iff (show 7 < 8 by decide)).1 [(1, 0), (2, 3)] (by decide)).2

/-- Six sources, the first of them late: about to run `_KTimestamp` the definition
gives the destination 5, and the handler gives it 0. -/
theorem not_nary_handlers :
    (run (step { min_level := 0, max_level := 63 }) (init { min_level := 0, max_level := 63 } 1)
      [.enterRegion 1 .regionFunc, .prepRTable 8 0, .work 9, .instr (.timestamp1 1 (0, 5))]).bind
      (fun s => (handleInstr { min_level := 0, max_level := 63 }
        (.timestamp 7 [(1, 0), (2, 0), (3, 0), (4, 0), (5, 0), (6, 0)]) s).map fun s' =>
          (timestampTime [(1, 0), (2, 0), (3, 0), (4, 0), (5, 0), (6, 0)] s 0,
            s'.getRegisterTimeAtIndex 7 0)) = some (some 5, some 0) ∧
    ¬ ∀ srcs : List Source, (∀ src ∈ srcs, src.1 < 8 ∧ src.1 ≠ 7) →
      ∀ i ∈ timestampHandlers 7 srcs, Computes i 8 7 (timestampTime srcs) := by
  refine ⟨by decide +kernel, fun hclaim => ?_⟩
  have hsrcs : ∀ src ∈ ([(1, 0), (2, 0), (3, 0), (4, 0), (5, 0), (6, 0)] : List Source),
      src.1 < 8 ∧ src.1 ≠ 7 := by decide
  have hcovered := (timestampHandlers_iff (by decide) hsrcs).mp (hclaim _ hsrcs)
  obtain ⟨src', hmem, hreg, -⟩ := hcovered.covered (1, 0) (by decide)
  -- the last round is the sixth source alone
  obtain rfl := List.mem_singleton.mp hmem
  exact absurd hreg (by decide)

end Kremlin.Runtime
