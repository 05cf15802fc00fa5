/-
  Kremlin.Shadow.NullCacheRuns — runs of the shadow memory without a cache.

  Region entries, region exits and accesses follow each other in any order.  The
  state carries the reference map along, so that what is read at the end can be
  compared with what was written last.

  Main results:
    * `nullCache_refines` — in a run that overruns no page every read returns what
      the map holds;
    * `cluttered_lost` — a page of 512 scattered times is overrun when it is packed,
      and cannot be read any more.
-/
import Kremlin.Shadow.SkaduRuns

namespace Kremlin.Shadow

open Kremlin.Library

variable {P : Type} [LinearOrder P]

/-! ## §1. The runs. -/

namespace NullCache

open MShadowSkadu

/-- The memory, the active regions, and the reference map of 8-byte words. -/
structure State (P : Type) where
  memory : MShadowSkadu P
  active : ActiveLevels
  ref : VersionedMap ℕ

/-- The accesses are made with all active levels; `fresh` is the address a page
gets that is made on the way. -/
inductive Event (P : Type) where
  | enter (version : ℕ)
  | exit
  | get (fresh : P) (addr : ℕ)
  | set (fresh : P) (addr : ℕ) (timestamps : ℕ → Time)

/-- Nothing is open and no page has been made. -/
def start (cfg : ShadowConfig) : State P := ⟨.init cfg, .start, .empty⟩

/-- One event; the reference memory is written along with the code's state. -/
def step (cfg : ShadowConfig) (lzo : Lzo) (s : State P) : Event P → Option (State P)
  | .enter version => some { s with active := s.active.enter version }
  | .exit => some { s with active := s.active.exit }
  | .get fresh addr =>
      (s.memory.get cfg lzo fresh addr s.active.levels s.active.versions).map fun r =>
        { s with memory := r.2 }
  | .set fresh addr timestamps =>
      (s.memory.set cfg lzo fresh addr s.active.levels s.active.versions timestamps).map
        fun memory => { s with
          memory := memory
          ref := s.ref.store s.active.versions (addr / 8) s.active.levels
            fun l => (timestamps l).toNat }

/-- An access the runs make. -/
structure Accessible (hs : Finset ℕ) (s : State P) (fresh : P) (addr : ℕ) : Prop where
  unused : fresh ∉ s.memory.allocated
  high : addrHigh addr ∈ hs
  levels : s.active.levels ≤ LevelTable.MAX_LEVEL

/-- The versions of the regions entered increase. -/
def Admissible (hs : Finset ℕ) (s : State P) : Event P → Prop
  | .enter version => s.active.next ≤ version
  | .exit => 1 ≤ s.active.levels
  | .get fresh addr => Accessible hs s fresh addr
  | .set fresh addr _ => Accessible hs s fresh addr

/-- **Before an access no page was overrun.** -/
def Undamaged (cfg : ShadowConfig) (s : State P) : Event P → Prop
  | .get _ _ => cfg.compressShadowMem = true → s.memory.Intact
  | .set _ _ _ => cfg.compressShadowMem = true → s.memory.Intact
  | _ => True

/-- The invariant of the runs. -/
structure Good (cfg : ShadowConfig) (lzo : Lzo) (hs : Finset ℕ) (s : State P) : Prop where
  ordered : s.active.Ordered
  below : s.ref.Below s.active.next
  refines : Refines cfg lzo hs s.active s.ref s.memory

variable {cfg : ShadowConfig} {lzo : Lzo} {hs : Finset ℕ} {s : State P}

theorem good_start (lzo : Lzo) (hs : Finset ℕ)
    (hbuffer : cfg.compressShadowMem = true → 1 ≤ cfg.num_compression_buffer_entries) :
    Good cfg lzo hs (start cfg : State P) :=
  ⟨ActiveLevels.ordered_start, VersionedMap.below_empty _, refines_init lzo hs hbuffer⟩

/-- Without compression nothing is overrun either. -/
theorem Good.intact (hsmall : lzo.Small) (h : Good cfg lzo hs s)
    (hintact : cfg.compressShadowMem = true → s.memory.Intact) : s.memory.Intact := by
  by_cases hc : cfg.compressShadowMem = true
  · exact hintact hc
  · exact h.refines.intact hsmall fun hyes => absurd hyes hc

/-- **A read in a state of the runs** can be made and is right. -/
theorem Good.get (hlossless : lzo.Lossless) (hsmall : lzo.Small)
    (hcard : hs.card ≤ SPARSE_ENTRIES) (h : Good cfg lzo hs s) {fresh : P} {addr : ℕ}
    (ha : Accessible hs s fresh addr)
    (hunpacks : s.memory.Unpacks cfg lzo s.active.versions (wordAddr addr)) :
    ∃ (times : ℕ → Time) (s' : State P),
      s.memory.get cfg lzo fresh addr s.active.levels s.active.versions
        = some ((List.range s.active.levels).map times, s'.memory) ∧
      step cfg lzo s (.get fresh addr) = some s' ∧ Good cfg lzo hs s' ∧
      (∀ l < s.active.levels, (times l).toNat = s.ref.view s.active.versions (addr / 8) l) ∧
      (1 ≤ s.active.levels → Accessed (wordAddr addr) s.memory s'.memory) := by
  obtain ⟨times, memory, hget, htimes, hrefines, haccessed⟩ :=
    h.refines.get hlossless hsmall hcard ha.levels ha.unused ha.high hunpacks
  exact ⟨times, { s with memory := memory }, hget, congrArg (Option.map _) hget,
    ⟨h.ordered, h.below, hrefines⟩, htimes, haccessed⟩

/-- **A write in a state of the runs** can be made, and the map follows it. -/
theorem Good.set (hlossless : lzo.Lossless) (hsmall : lzo.Small)
    (hcard : hs.card ≤ SPARSE_ENTRIES) (h : Good cfg lzo hs s) {fresh : P} {addr : ℕ}
    (ha : Accessible hs s fresh addr)
    (hunpacks : (s.memory.collectGarbage cfg s.active.versions s.active.levels).Unpacks cfg lzo
      s.active.versions (wordAddr addr)) (timestamps : ℕ → Time) :
    ∃ s', step cfg lzo s (.set fresh addr timestamps) = some s' ∧ Good cfg lzo hs s' ∧
      (1 ≤ s.active.levels → Accessed (wordAddr addr) s.memory s'.memory) := by
  obtain ⟨memory, hset, hrefines, haccessed⟩ :=
    h.refines.set hlossless hsmall hcard h.ordered ha.levels ha.unused ha.high hunpacks timestamps
  exact ⟨_, congrArg (Option.map _) hset,
    ⟨h.ordered, h.below.store (fun l hl => h.ordered.below l hl) _ _, hrefines⟩, haccessed⟩

/-- The page an event accesses, if it is packed, can be unpacked. -/
def PageUnpacks (cfg : ShadowConfig) (lzo : Lzo) (s : State P) : Event P → Prop
  | .get _ addr => s.memory.Unpacks cfg lzo s.active.versions (wordAddr addr)
  | .set _ addr _ => (s.memory.collectGarbage cfg s.active.versions s.active.levels).Unpacks cfg
      lzo s.active.versions (wordAddr addr)
  | _ => True

theorem Good.pageUnpacks (hlossless : lzo.Lossless) (hsmall : lzo.Small) (h : Good cfg lzo hs s)
    (hlevels : s.active.levels ≤ LevelTable.MAX_LEVEL) {e : Event P}
    (hundamaged : Undamaged cfg s e) : PageUnpacks cfg lzo s e := by
  cases e with
  | enter version => trivial
  | exit => trivial
  | get fresh addr =>
      exact h.refines.unpacks hlossless hsmall hlevels (h.intact hsmall hundamaged) _
  | set fresh addr timestamps =>
      have hintact := (h.intact hsmall hundamaged).collectGarbage cfg s.active.versions
        s.active.levels
      exact (collectGarbage_refines h.refines hlevels).1.unpacks hlossless hsmall hlevels hintact _

/-- **Every event can be taken and keeps the refinement**, as long as no page was
overrun. -/
theorem Good.step (hlossless : lzo.Lossless) (hsmall : lzo.Small)
    (hcard : hs.card ≤ SPARSE_ENTRIES) (h : Good cfg lzo hs s) {e : Event P}
    (he : Admissible hs s e) (hunpacks : PageUnpacks cfg lzo s e) :
    ∃ s', step cfg lzo s e = some s' ∧ Good cfg lzo hs s' := by
  cases e with
  | enter version =>
      have hle : s.active.next ≤ (s.active.enter version).next := Nat.le_succ_of_le he
      exact ⟨_, rfl, h.ordered.enter he, h.below.mono hle, h.refines.enter h.below he⟩
  | exit => exact ⟨_, rfl, h.ordered.exit, h.below, h.refines.exit⟩
  | get fresh addr =>
      obtain ⟨-, s', -, hstep, h', -, -⟩ := h.get hlossless hsmall hcard he hunpacks
      exact ⟨s', hstep, h'⟩
  | set fresh addr timestamps =>
      obtain ⟨s', hstep, h', -⟩ := h.set hlossless hsmall hcard he hunpacks timestamps
      exact ⟨s', hstep, h'⟩

/-- The levels an event is made with. -/
theorem Admissible.pageUnpacks (hlossless : lzo.Lossless) (hsmall : lzo.Small)
    (h : Good cfg lzo hs s) {e : Event P} (he : Admissible hs s e)
    (hundamaged : Undamaged cfg s e) : PageUnpacks cfg lzo s e := by
  cases e with
  | enter version => trivial
  | exit => trivial
  | get fresh addr => exact h.pageUnpacks hlossless hsmall he.levels hundamaged
  | set fresh addr timestamps => exact h.pageUnpacks hlossless hsmall he.levels hundamaged

/-! ## §2. Runs that are planned. -/

/-- The active levels after an event. -/
def activeAfter (a : ActiveLevels) : Event P → ActiveLevels
  | .enter version => a.enter version
  | .exit => a.exit
  | _ => a

/-- The map after an event. -/
def refAfter (a : ActiveLevels) (ref : VersionedMap ℕ) : Event P → VersionedMap ℕ
  | .set _ addr timestamps =>
      ref.store a.versions (addr / 8) a.levels fun l => (timestamps l).toNat
  | _ => ref

/-- The address an event brings for a new page. -/
def freshOf : Event P → List P
  | .get fresh _ => [fresh]
  | .set fresh _ _ => [fresh]
  | _ => []

/-- **What an event does** to the levels, the map and the addresses in use does not
depend on the memory. -/
theorem step_follows {s' : State P} {e : Event P} (h : step cfg lzo s e = some s') :
    s'.active = activeAfter s.active e ∧ s'.ref = refAfter s.active s.ref e ∧
      ∀ q ∈ s'.memory.allocated, q ∈ freshOf e ∨ q ∈ s.memory.allocated := by
  cases e with
  | enter version =>
      cases h
      exact ⟨rfl, rfl, fun q hq => .inr hq⟩
  | exit =>
      cases h
      exact ⟨rfl, rfl, fun q hq => .inr hq⟩
  | get fresh addr =>
      obtain ⟨r, hget, rfl⟩ := Option.map_eq_some_iff.mp h
      refine ⟨rfl, rfl, fun q hq => ?_⟩
      unfold MShadowSkadu.get at hget
      split at hget
      · cases hget
        exact .inr hq
      · exact (fetch_allocated hget q hq).imp_left List.mem_singleton.mpr
  | set fresh addr timestamps =>
      obtain ⟨memory, hset, rfl⟩ := Option.map_eq_some_iff.mp h
      refine ⟨rfl, rfl, fun q hq => ?_⟩
      unfold MShadowSkadu.set at hset
      split at hset
      · cases hset
        exact .inr hq
      · have hq' := store_allocated hset q hq
        rw [(collectGarbage_collected _ _ _ _).allocated] at hq'
        exact hq'.imp_left List.mem_singleton.mpr

/-- The events can be made whatever the memory does on the way: the addresses for new
pages are not in use, or in `used`. -/
def Planned (hs : Finset ℕ) : ActiveLevels → List P → List (Event P) → Prop
  | _, _, [] => True
  | a, used, e :: events =>
      (match e with
        | .enter version => a.next ≤ version
        | .exit => 1 ≤ a.levels
        | .get fresh addr => fresh ∉ used ∧ addrHigh addr ∈ hs ∧ a.levels ≤ LevelTable.MAX_LEVEL
        | .set fresh addr _ =>
            fresh ∉ used ∧ addrHigh addr ∈ hs ∧ a.levels ≤ LevelTable.MAX_LEVEL) ∧
      Planned hs (activeAfter a e) (freshOf e ++ used) events

instance decidablePlanned (hs : Finset ℕ) :
    ∀ (a : ActiveLevels) (used : List P) (events : List (Event P)),
      Decidable (Planned hs a used events)
  | _, _, [] => .isTrue trivial
  | a, used, e :: events =>
      have := decidablePlanned hs (activeAfter a e) (freshOf e ++ used) events
      match e with
      | .enter _ => inferInstanceAs (Decidable (_ ≤ _ ∧ _))
      | .exit => inferInstanceAs (Decidable (_ ≤ _ ∧ _))
      | .get _ _ => inferInstanceAs (Decidable ((_ ∉ _ ∧ _ ∈ _ ∧ _ ≤ _) ∧ _))
      | .set _ _ _ => inferInstanceAs (Decidable ((_ ∉ _ ∧ _ ∈ _ ∧ _ ≤ _) ∧ _))


/-- **A planned run is admissible.** -/
theorem Planned.runOk {used : List P} {events : List (Event P)}
    (h : Planned hs s.active used events) (hused : ∀ p ∈ s.memory.allocated, p ∈ used) :
    RunOk (step cfg lzo) (Admissible hs) s events := by
  induction events generalizing s used with
  | nil => trivial
  | cons e events ih =>
      refine ⟨?_, fun s' hstep => ?_⟩
      · have he := h.1
        cases e with
        | enter version => exact he
        | exit => exact he
        | get fresh addr => exact ⟨fun hin => he.1 (hused _ hin), he.2.1, he.2.2⟩
        | set fresh addr timestamps => exact ⟨fun hin => he.1 (hused _ hin), he.2.1, he.2.2⟩
      · obtain ⟨hactive, -, halloc⟩ := step_follows hstep
        have hrest : Planned hs s'.active (freshOf e ++ used) events := hactive ▸ h.2
        refine ih hrest fun p hp => ?_
        exact List.mem_append.mpr ((halloc p hp).imp_right (hused p))

/-- **With a library that never needs more room than the array** no run overruns a
page. -/
theorem runOk_undamaged (hlossless : lzo.Lossless) (hsmall : lzo.Small) (hfits : lzo.Fits)
    (hcard : hs.card ≤ SPARSE_ENTRIES) (h : Good cfg lzo hs s) {events : List (Event P)}
    (hok : RunOk (step cfg lzo) (Admissible hs) s events) :
    RunOk (step cfg lzo) (fun s e => Admissible hs s e ∧ Undamaged cfg s e) s events := by
  induction events generalizing s with
  | nil => trivial
  | cons e events ih =>
      have hintact := h.refines.intact hsmall fun _ => hfits
      have hundamaged : Undamaged cfg s e := by
        cases e with
        | enter version => trivial
        | exit => trivial
        | get fresh addr => exact fun _ => hintact
        | set fresh addr timestamps => exact fun _ => hintact
      refine ⟨⟨hok.1, hundamaged⟩, fun s' hstep => ?_⟩
      obtain ⟨s₁, hstep₁, h₁⟩ :=
        h.step hlossless hsmall hcard hok.1 (hok.1.pageUnpacks hlossless hsmall h hundamaged)
      rw [hstep] at hstep₁
      cases hstep₁
      exact ih h₁ (hok.2 s' hstep)

/-- **The levels and the map at the end of a run**, and the pages there may be. -/
theorem run_follows {s' : State P} {events : List (Event P)}
    (h : run (step cfg lzo) s events = some s') :
    (s'.active, s'.ref) = events.foldl (fun r e => (activeAfter r.1 e, refAfter r.1 r.2 e))
        (s.active, s.ref) ∧
      ∀ q ∈ s'.memory.allocated, q ∈ events.flatMap freshOf ∨ q ∈ s.memory.allocated := by
  induction events generalizing s with
  | nil =>
      cases h
      exact ⟨rfl, fun q hq => .inr hq⟩
  | cons e events ih =>
      obtain ⟨s₁, hstep, hrest⟩ := run_cons_eq_some.mp h
      obtain ⟨hactive, href, halloc⟩ := step_follows hstep
      obtain ⟨hpair, halloc'⟩ := ih hrest
      rw [hactive, href] at hpair
      refine ⟨hpair, fun q hq => ?_⟩
      rw [List.flatMap_cons, List.mem_append]
      rcases halloc' q hq with hnew | hold
      · exact .inl (.inr hnew)
      · exact (halloc q hold).imp_left .inl

/-- **A run that overruns no page** can be made, and refines the map. -/
theorem Good.run (hlossless : lzo.Lossless) (hsmall : lzo.Small)
    (hcard : hs.card ≤ SPARSE_ENTRIES) (h : Good cfg lzo hs s) {events : List (Event P)}
    (hok : RunOk (NullCache.step cfg lzo) (fun s e => Admissible hs s e ∧ Undamaged cfg s e) s
      events) :
    ∃ s', Library.run (NullCache.step cfg lzo) s events = some s' ∧ Good cfg lzo hs s' :=
  run_total_of (fun _ _ hinv he => Good.step hlossless hsmall hcard hinv he.1
    (he.1.pageUnpacks hlossless hsmall hinv he.2)) h hok

/-- The accesses of some events, as `MShadowSkadu` gets them. -/
def opsOf : ActiveLevels → List (Event P) → List (ShadowOp P)
  | _, [] => []
  | a, .get fresh addr :: events => .get fresh addr a.levels a.versions :: opsOf a events
  | a, .set fresh addr timestamps :: events =>
      .set fresh addr a.levels a.versions timestamps :: opsOf a events
  | a, .enter version :: events => opsOf (a.enter version) events
  | a, .exit :: events => opsOf a.exit events

/-- **The memory of a run is what its accesses make of it**, and its accesses are
admissible for the accounting. -/
theorem run_opsOf {s' : State P} {events : List (Event P)}
    (hok : RunOk (step cfg lzo) (Admissible hs) s events)
    (h : run (step cfg lzo) s events = some s') :
    run (MShadowSkadu.step cfg lzo) s.memory (opsOf s.active events) = some s'.memory ∧
      RunOk (MShadowSkadu.step cfg lzo) (MShadowSkadu.Admissible cfg lzo) s.memory
        (opsOf s.active events) := by
  induction events generalizing s with
  | nil =>
      cases h
      exact ⟨rfl, trivial⟩
  | cons e events ih =>
      obtain ⟨s₁, hstep, hrest⟩ := run_cons_eq_some.mp h
      obtain ⟨hrun, hops⟩ := ih (hok.2 s₁ hstep) hrest
      have he := hok.1
      cases e with
      | enter version =>
          cases hstep
          exact ⟨hrun, hops⟩
      | exit =>
          cases hstep
          exact ⟨hrun, hops⟩
      | get fresh addr =>
          obtain ⟨r, hget, rfl⟩ := Option.map_eq_some_iff.mp hstep
          have hop : MShadowSkadu.step cfg lzo s.memory
              (.get fresh addr s.active.levels s.active.versions) = some r.2 :=
            congrArg (Option.map Prod.snd) hget
          refine ⟨run_cons_eq_some.mpr ⟨r.2, hop, hrun⟩, he.unused, fun memory hmemory => ?_⟩
          cases hop.symm.trans hmemory
          exact hops
      | set fresh addr timestamps =>
          obtain ⟨memory, hset, rfl⟩ := Option.map_eq_some_iff.mp hstep
          refine ⟨run_cons_eq_some.mpr ⟨memory, hset, hrun⟩, ⟨he.unused, he.levels⟩,
            fun memory' hmemory => ?_⟩
          cases hset.symm.trans hmemory
          exact hops

/-! ## §3. What is read. -/

/-- Two pages are written two levels deep, and the first is packed with both; the
inner region is left, another entered, and the first page collected and unpacked,
which packs the second. -/
def twoPages : List (Event ℕ) :=
  [.enter 1, .enter 2, .set 7 4096 fun l => if l = 0 then 9 else 4,
    .set 8 8192 fun l => if l = 0 then 8 else 3, .exit, .enter 3, .get 9 4096]

theorem runOk_twoPages : RunOk (step ⟨true, 1, 1024⟩ Lzo.lzoFitting)
    (fun s e => Admissible {0} s e ∧ Undamaged ⟨true, 1, 1024⟩ s e) (start ⟨true, 1, 1024⟩)
    twoPages :=
  runOk_undamaged Lzo.lossless_lzoFitting Lzo.small_lzoFitting Lzo.fits_lzoFitting (by decide)
    (good_start _ _ fun _ => Nat.le_refl 1)
    (Planned.runOk (show Planned {0} ActiveLevels.start [] twoPages by decide) fun _ hp => hp)

/-- What is active at the end of this run, what the map holds, and that one more page
may be made. -/
theorem twoPages_end {s : State ℕ}
    (hrun : run (step ⟨true, 1, 1024⟩ Lzo.lzoFitting) (start ⟨true, 1, 1024⟩) twoPages = some s) :
    s.active.levels = 2 ∧ s.ref.view s.active.versions 1024 0 = 8 ∧
      s.ref.view s.active.versions 1024 1 = 0 ∧ Accessible {0} s 10 8192 ∧
      Undamaged ⟨true, 1, 1024⟩ s (.get 10 8192) := by
  obtain ⟨hpair, halloc⟩ := run_follows hrun
  obtain ⟨hactive, href⟩ := Prod.mk.inj hpair
  have hlevels : s.active.levels = 2 := congrArg ActiveLevels.levels hactive
  have hunused : 10 ∉ s.memory.allocated := fun hin =>
    (halloc 10 hin).elim (by decide) List.not_mem_nil
  have hcard : ({0} : Finset ℕ).card ≤ SPARSE_ENTRIES := by decide
  obtain ⟨s', hrun', hgood⟩ := (good_start Lzo.lzoFitting {0} fun _ => Nat.le_refl 1).run
    Lzo.lossless_lzoFitting Lzo.small_lzoFitting hcard runOk_twoPages
  rw [hrun] at hrun'
  cases hrun'
  refine ⟨hlevels, ?_, ?_, ⟨hunused, by decide, by rw [hlevels]; decide⟩,
    fun _ => hgood.refines.intact Lzo.small_lzoFitting fun _ => Lzo.fits_lzoFitting⟩
  · rw [hactive, href]
    decide
  · rw [hactive, href]
    decide

/-- **The memory is accounted for** after pages were packed, collected and unpacked. -/
theorem accounting_exact_twoPages :
    ∃ memory : MShadowSkadu ℕ,
      run (MShadowSkadu.step ⟨true, 1, 1024⟩ Lzo.lzoFitting) (.init ⟨true, 1, 1024⟩)
        (opsOf .start twoPages) = some memory ∧
      memory.stat.timeTableOverhead.toNat = liveBytes memory.allocated memory.heap % 2 ^ 64 ∧
      memory.stat.getActiveTimeTableSize.toNat = liveTables memory.allocated memory.heap := by
  obtain ⟨s, hrun, -⟩ := (good_start Lzo.lzoFitting {0} fun _ => Nat.le_refl 1).run
    Lzo.lossless_lzoFitting Lzo.small_lzoFitting (by decide) runOk_twoPages
  obtain ⟨hops, hok⟩ := run_opsOf (runOk_twoPages.mono fun _ _ he => he.1) hrun
  exact ⟨s.memory, hops, accounting_exact ⟨true, 1, 1024⟩ Lzo.small_lzoFitting hok hops⟩

/-! ### A page that is overrun. -/

open LevelTable (scattered)

/-- The first `n` words of a page are written, one after the other. -/
def fill (n : ℕ) : List (Event ℕ) :=
  (List.range n).map fun j => .set (7 + j) (4096 + 8 * j) fun _ => scattered.getD j 0

/-- A page is filled, and another one written. -/
def cluttered : List (Event ℕ) := .enter 1 :: fill 512 ++ [.set 600 8192 fun _ => 9]

/-- The page has its first `n` words, is not packed, and the other is not made yet. -/
structure Filled (n : ℕ) (s : State ℕ) : Prop where
  good : Good ⟨true, 1, 1024⟩ Lzo.lzoCopying {0} s
  active : s.active = ActiveLevels.start.enter 1
  view : ∀ j < n, s.ref.view s.active.versions (512 + j) 0 = (scattered.getD j 0).toNat
  made : 1 ≤ n → ∃ p, pageAt s.memory.entry 4096 = some p
  unpacked : ∀ p, pageAt s.memory.entry 4096 = some p → (s.memory.heap p).compressed = false
  other : pageAt s.memory.entry 8192 = none
  used : ∀ p ∈ s.memory.allocated, p < 7 + n

theorem filled_zero :
    Filled 0 { start ⟨true, 1, 1024⟩ with active := ActiveLevels.start.enter 1 } where
  good := by
    have hstart : Good ⟨true, 1, 1024⟩ Lzo.lzoCopying {0} (start ⟨true, 1, 1024⟩ : State ℕ) :=
      good_start _ _ fun _ => Nat.le_refl 1
    obtain ⟨s', hstep, h⟩ := hstart.step Lzo.lossless_lzoCopying Lzo.small_lzoCopying (by decide)
      (e := .enter 1) (Nat.zero_le 1) trivial
    cases hstep
    exact h
  active := rfl
  view j hj := absurd hj (Nat.not_lt_zero j)
  made h := absurd h (Nat.not_succ_le_zero 0)
  unpacked p h := nomatch h
  other := rfl
  used p h := nomatch h

variable {n : ℕ} {s : State ℕ}

/-- **One more word**: the page it is written to is not packed, so nothing is
unpacked. -/
theorem Filled.step (h : Filled n s) (hn : n < 512) :
    ∃ s', NullCache.step ⟨true, 1, 1024⟩ Lzo.lzoCopying s
        (.set (7 + n) (4096 + 8 * n) fun _ => scattered.getD n 0) = some s' ∧
      Filled (n + 1) s' ∧ Accessible {0} s (7 + n) (4096 + 8 * n) := by
  have hlevels : s.active.levels = 1 := by rw [h.active]; rfl
  have haccess : Accessible {0} s (7 + n) (4096 + 8 * n) := by
    refine ⟨fun hin => absurd (h.used _ hin) (by omega), ?_, by rw [hlevels]; decide⟩
    rw [addrHigh_eq, Finset.mem_singleton]
    omega
  have hpage : TimeTable.page (wordAddr (4096 + 8 * n)) = TimeTable.page 4096 := by
    unfold TimeTable.page wordAddr
    omega
  have hgc := collectGarbage_collected ⟨true, 1, 1024⟩ s.active.versions s.active.levels s.memory
  obtain ⟨s', hstep, hgood, haccessed⟩ := h.good.set Lzo.lossless_lzoCopying
    Lzo.small_lzoCopying (by decide) haccess (fun p hp _ hflag => by
      rw [hgc.entry, pageAt_congr _ hpage] at hp
      rw [hgc.compressed, h.unpacked p hp] at hflag
      cases hflag) fun _ => scattered.getD n 0
  obtain ⟨hactive, href, halloc⟩ := step_follows hstep
  obtain ⟨⟨p, hp, hflag⟩, hothers⟩ := haccessed (by omega)
  rw [pageAt_congr _ hpage] at hp
  refine ⟨s', hstep, ⟨hgood, hactive.trans h.active, ?_, fun _ => ⟨p, hp⟩, ?_, ?_, ?_⟩, haccess⟩
  · intro j hj
    rw [href, hactive]
    show (s.ref.store s.active.versions ((4096 + 8 * n) / 8) s.active.levels
      fun _ => (scattered.getD n 0).toNat).view s.active.versions (512 + j) 0 = _
    rw [VersionedMap.view_store, hlevels]
    by_cases hjn : j = n
    · rw [if_pos (by omega), hjn]
    · rw [if_neg (by omega)]
      exact h.view j (by omega)
  · intro q hq
    rw [hp] at hq
    cases hq
    exact hflag
  · rw [hothers 8192 (by unfold TimeTable.page wordAddr; omega)]
    exact h.other
  · intro q hq
    rcases halloc q hq with hnew | hold
    · rw [List.mem_singleton.mp hnew]
      omega
    · exact Nat.lt_succ_of_lt (h.used q hold)

/-- **The page filled up to word `n`.** -/
theorem filled_run (hn : n ≤ 512) :
    RunOk (NullCache.step ⟨true, 1, 1024⟩ Lzo.lzoCopying) (Admissible {0})
        (start ⟨true, 1, 1024⟩) (.enter 1 :: fill n) ∧
      ∃ s, run (NullCache.step ⟨true, 1, 1024⟩ Lzo.lzoCopying) (start ⟨true, 1, 1024⟩)
        (.enter 1 :: fill n) = some s ∧ Filled n s := by
  induction n with
  | zero =>
      refine ⟨⟨Nat.zero_le 1, fun _ _ => trivial⟩, _, rfl, filled_zero⟩
  | succ n ih =>
      obtain ⟨hok, s, hrun, h⟩ := ih (by omega)
      obtain ⟨s', hstep, h', haccess⟩ := h.step (by omega)
      have hsnoc : (.enter 1 :: fill (n + 1) : List (Event ℕ)) = (.enter 1 :: fill n)
          ++ [.set (7 + n) (4096 + 8 * n) fun _ => scattered.getD n 0] := by
        unfold fill
        rw [List.range_succ, List.map_append]
        rfl
      rw [hsnoc]
      refine ⟨hok.append fun s₁ hrun₁ => ?_, s', ?_, h'⟩
      · rw [hrun] at hrun₁
        cases hrun₁
        exact ⟨haccess, fun _ _ => trivial⟩
      · exact run_append_eq_some.mpr ⟨s, hrun, run_cons_eq_some.mpr ⟨s', hstep, rfl⟩⟩

/-- **The full page is packed** when the other one is written, and overrun. -/
theorem Filled.overrun (h : Filled 512 s) :
    ∃ s', NullCache.step ⟨true, 1, 1024⟩ Lzo.lzoCopying s (.set 600 8192 fun _ => 9) = some s' ∧
      Accessible {0} s 600 8192 ∧ Accessible {0} s' 601 4096 ∧
      s'.memory.get ⟨true, 1, 1024⟩ Lzo.lzoCopying 601 4096 s'.active.levels s'.active.versions
        = none := by
  have hlevels : s.active.levels = 1 := by rw [h.active]; rfl
  have hunused : ∀ q, 519 ≤ q → q ∉ s.memory.allocated := by
    intro q hq hin
    have := h.used q hin
    omega
  have haccess : Accessible {0} s 600 8192 :=
    ⟨hunused 600 (by omega), by decide, by rw [hlevels]; decide⟩
  have hgc := collectGarbage_collected ⟨true, 1, 1024⟩ s.active.versions s.active.levels s.memory
  have hcard : ({0} : Finset ℕ).card ≤ SPARSE_ENTRIES := by decide
  obtain ⟨s', hstep, hgood, haccessed⟩ := h.good.set Lzo.lossless_lzoCopying
    Lzo.small_lzoCopying hcard haccess (fun p hp => by
      rw [hgc.entry, pageAt_congr _ (show TimeTable.page (wordAddr 8192) = TimeTable.page 8192
        by decide), h.other] at hp
      cases hp) fun _ => 9
  obtain ⟨hactive, href, halloc⟩ := step_follows hstep
  have hlevels' : s'.active.levels = 1 := by rw [hactive]; exact hlevels
  have hunused' : 601 ∉ s'.memory.allocated := by
    intro hin
    rcases halloc 601 hin with hnew | hold
    · exact absurd (List.mem_singleton.mp hnew) (by decide)
    · exact hunused 601 (by omega) hold
  refine ⟨s', hstep, haccess, ⟨hunused', by decide, by rw [hlevels']; decide⟩, ?_⟩
  -- the buffer has one entry, and the page just written is in it
  obtain ⟨⟨q, hq, hflagq⟩, hothers⟩ := haccessed (by omega)
  obtain ⟨p, hp⟩ := h.made (by omega)
  rw [← hothers 4096 (by decide)] at hp
  obtain ⟨pageOf, hfound, -, hstored⟩ := hgood.refines.contents
  obtain ⟨hpin, hpageOf⟩ := (hfound 4096 p).mp hp
  obtain ⟨hqin, hqpageOf⟩ := (hfound _ q).mp hq
  have hne : p ≠ q := by
    rintro rfl
    rw [hpageOf] at hqpageOf
    exact absurd hqpageOf (by decide)
  have hbuffer := hgood.refines.counted.buffer rfl
  have hflag : (s'.memory.heap p).compressed = true := by
    rw [hbuffer.compressed_iff p hpin]
    intro hpactive
    have hqactive : q ∈ s'.memory.compression_buffer.pages := by
      by_contra hno
      rw [(hbuffer.compressed_iff q hqin).mpr hno] at hflagq
      cases hflagq
    have hsize : s'.memory.compression_buffer.pages.length ≤ 1 := by
      unfold CBuffer.pages
      rw [List.length_map]
      exact hbuffer.size.trans (hgood.refines.room rfl).2.le
    have htwo : [p, q].length ≤ s'.memory.compression_buffer.pages.length :=
      (List.subperm_of_subset (by simp [hne]) (by simp [hpactive, hqactive])).length_le
    exact absurd (htwo.trans hsize) (show ¬2 ≤ 1 by decide)
  have hview : ∀ j < 512, s'.ref.view s'.active.versions (512 * pageOf p + j) 0
      = (scattered.getD j 0).toNat := by
    intro j hj
    rw [hpageOf, href, hactive]
    show (s.ref.store s.active.versions 1024 s.active.levels fun _ => 9).view s.active.versions
      (512 * 1 + j) 0 = _
    rw [VersionedMap.view_store, if_neg (by omega)]
    exact h.view j hj
  have hnot : ¬s'.memory.Unpacks ⟨true, 1, 1024⟩ Lzo.lzoCopying s'.active.versions
      (wordAddr 4096) := fun hunpacks =>
    (hstored p hpin).not_unpacks Lzo.lossless_lzoCopying Lzo.small_lzoCopying
      (by rw [hlevels']; decide) hflag (by omega) LevelTable.length_scattered
      LevelTable.front_scattered hview LevelTable.not_fitsChunk_scattered
      (hunpacks p hp rfl hflag)
  unfold MShadowSkadu.get
  rw [if_neg (by omega)]
  unfold fetch
  rw [getLevelTable_none hcard hgood.refines (by decide) hnot]
  rfl

end NullCache

end Kremlin.Shadow
