/-
  Kremlin.Shadow.ShadowMemory — what the profiler asks of a shadow memory.

  `MShadow.h` is the interface.  The profiler hands over the versions of its
  levels at every access; a region outside of the profiled window gets a version
  too, at a level that no access reaches.

  Main results:
    * `skaduRefinement` — `MShadowSkadu` refines the reference map, with and
      without compression and whenever garbage is collected;
    * `stvRefinement` — so does `MShadowSTV` at 8-byte accesses.
-/
import Kremlin.Shadow.MShadowSTV
import Kremlin.Shadow.SkaduRuns

namespace Kremlin.Shadow

open Kremlin.Library

/-! ## §1. The interface. -/

/-- `class MShadow`.  The times are those of the levels below `size`. -/
structure MShadow (M : Type) where
  get : (addr size : ℕ) → (versions : ℕ → ℕ) → (width : ℕ) → M → Option ((ℕ → ℕ) × M)
  set : (addr size : ℕ) → (versions times : ℕ → ℕ) → (width : ℕ) → M → Option M

namespace ActiveLevels

/-- Versions are given to levels that are not active. -/
structure Reissued (a a' : ActiveLevels) : Prop where
  levels : a'.levels = a.levels
  same : ∀ l < a.levels, a'.versions l = a.versions l
  le : ∀ l, a.versions l ≤ a'.versions l
  next : a.next ≤ a'.next

variable {a a' : ActiveLevels}

theorem Reissued.ordered (h : Reissued a a') (hordered : a.Ordered) : a'.Ordered where
  lt i j hij hj := by
    rw [h.levels] at hj
    rw [h.same i (by omega), h.same j hj]
    exact hordered.lt i j hij hj
  below i hi := by
    rw [h.levels] at hi
    rw [h.same i hi]
    exact Nat.lt_of_lt_of_le (hordered.below i hi) h.next

theorem Reissued.view {W : Type} (h : Reissued a a') (ref : VersionedMap W) (w : W) {l : ℕ}
    (hl : l < a'.levels) : ref.view a'.versions w l = ref.view a.versions w l :=
  ref.view_congr (h.same l (h.levels ▸ hl)) w

end ActiveLevels

/-- **The memory refines the reference map of 8-byte words**: `Rep` says which
memories represent a map, and every access at all active levels keeps to it. -/
structure MShadow.Refinement {M : Type} (sh : MShadow M) (start : M) (maxLevels : ℕ)
    (accessible : (addr width : ℕ) → Prop) where
  Rep : ActiveLevels → VersionedMap ℕ → M → Prop
  rep_start : Rep .start .empty start
  rep_enter : ∀ {a ref m version}, Rep a ref m → ref.Below a.next → a.next ≤ version →
    Rep (a.enter version) ref m
  rep_exit : ∀ {a ref m}, Rep a ref m → Rep a.exit ref m
  rep_reissued : ∀ {a a' ref m}, Rep a ref m → ref.Below a.next → a.Reissued a' → Rep a' ref m
  rep_get : ∀ {a ref m addr width}, Rep a ref m → a.Ordered → a.levels ≤ maxLevels →
    accessible addr width → ∃ times m', sh.get addr a.levels a.versions width m = some (times, m') ∧
      (∀ l < a.levels, times l = ref.view a.versions (addr / 8) l) ∧ Rep a ref m'
  rep_set : ∀ {a ref m addr width} (times : ℕ → ℕ), Rep a ref m → a.Ordered →
    a.levels ≤ maxLevels → accessible addr width → (∀ l, times l < 2 ^ 64) →
    ∃ m', sh.set addr a.levels a.versions times width m = some m' ∧
      Rep a (ref.store a.versions (addr / 8) a.levels times) m'

/-! ## §2. `MShadowSkadu`. -/

section Skadu

variable {P : Type} [LinearOrder P]

namespace LevelTable

variable {a a' : ActiveLevels} {ref : VersionedMap ℕ} {pg : ℕ} {lt : LevelTable}

theorem Holds.reissued (h : lt.Holds a ref pg) (hre : a.Reissued a') : lt.Holds a' ref pg := by
  have hcurrent : ∀ l < a'.levels, (lt.Current a'.versions l ↔ lt.Current a.versions l) := by
    intro l hl
    unfold Current
    rw [hre.same l (hre.levels ▸ hl)]
  refine ⟨⟨?_, ?_, ?_⟩, ?_⟩
  · intro l hl hne
    exact Nat.lt_of_lt_of_le (h.seen l hl hne) hre.next
  · intro l hl hne
    exact (h.old l hl hne).trans (hre.le l)
  · intro i j hij hj hmax hc
    rw [hcurrent i (by omega)]
    exact h.closed i j hij (hre.levels ▸ hj) hmax ((hcurrent j hj).mp hc)
  · intro addr hpage l hl hmax
    rw [hre.view ref _ hl, hre.same l (hre.levels ▸ hl)]
    exact h.reads addr hpage l (hre.levels ▸ hl) hmax

end LevelTable

namespace MShadowSkadu

variable {cfg : ShadowConfig} {lzo : Lzo} {hs : Finset ℕ} {a a' : ActiveLevels}
  {ref : VersionedMap ℕ} {s : MShadowSkadu P}

theorem Refines.reissued (h : Refines cfg lzo hs a ref s) (hre : a.Reissued a') :
    Refines cfg lzo hs a' ref s := by
  obtain ⟨pageOf, hfound, hmissing, hstored⟩ := h.contents
  refine ⟨h.counted, h.room, h.flat, h.segmented, pageOf, hfound, ?_, ?_⟩
  · intro addr hnone l hl hmax
    rw [hre.view ref _ hl]
    exact hmissing addr hnone l (hre.levels ▸ hl) hmax
  · intro p hp
    obtain ⟨plain, k, hstores, hholds⟩ := hstored p hp
    exact ⟨plain, k, hstores, hholds.reissued hre⟩

/-- `MShadowSkadu` with `NullCache`, which drops the width; `fresh` is the address of
the next page. -/
def shadow (cfg : ShadowConfig) (lzo : Lzo) (fresh : MShadowSkadu P → P) :
    MShadow (MShadowSkadu P) where
  get addr size versions _ s :=
    (s.get cfg lzo (fresh s) addr size versions).map fun r =>
      (fun l => (r.1.getD l 0).toNat, r.2)
  set addr size versions times _ s :=
    s.set cfg lzo (fresh s) addr size versions fun l => BitVec.ofNat 64 (times l)

end MShadowSkadu

open MShadowSkadu in
/-- **`MShadowSkadu` is a shadow memory.**  At most 32 upper halves are in use, and
what is packed fits its chunk. -/
def skaduRefinement (cfg : ShadowConfig) {lzo : Lzo} (hlossless : lzo.Lossless)
    (hsmall : lzo.Small) (hfits : cfg.compressShadowMem = true → lzo.Fits)
    (hbuffer : cfg.compressShadowMem = true → 1 ≤ cfg.num_compression_buffer_entries)
    {hs : Finset ℕ} (hcard : hs.card ≤ SPARSE_ENTRIES) {fresh : MShadowSkadu P → P}
    (hfresh : ∀ s, fresh s ∉ s.allocated) :
    (shadow cfg lzo fresh).Refinement (.init cfg) LevelTable.MAX_LEVEL
      fun addr _ => addrHigh addr ∈ hs where
  Rep := Refines cfg lzo hs
  rep_start := refines_init lzo hs hbuffer
  rep_enter h hbelow hnew := h.enter hbelow hnew
  rep_exit h := h.exit
  rep_reissued h _ hre := h.reissued hre
  rep_get := by
    intro a ref s addr width h _ hlevels haddr
    obtain ⟨times, s', hget, htimes, h', -⟩ :=
      h.get hlossless hsmall hcard hlevels (hfresh s) haddr
        (h.unpacks_of_fits hlossless hsmall hfits hlevels _)
    -- the buffer is read at the active levels only, which it has
    refine ⟨_, s', congrArg (Option.map _) hget, fun l hl => ?_, h'⟩
    rw [← htimes l hl]
    show (((List.range a.levels).map times).getD l 0).toNat = _
    rw [List.getD_eq_getElem _ _ (by simpa using hl), List.getElem_map, List.getElem_range]
  rep_set := by
    intro a ref s addr width times h hordered hlevels haddr hbelow
    have hgc := (collectGarbage_refines h hlevels).1
    obtain ⟨s', hset, h', -⟩ := h.set hlossless hsmall hcard hordered hlevels (hfresh s) haddr
      (hgc.unpacks_of_fits hlossless hsmall hfits hlevels _) fun l => BitVec.ofNat 64 (times l)
    -- no time is cut off
    have htimes : (fun l => (BitVec.ofNat 64 (times l)).toNat) = times :=
      funext fun l => (BitVec.toNat_ofNat _ _).trans (Nat.mod_eq_of_lt (hbelow l))
    rw [htimes] at h'
    exact ⟨s', hset, h'⟩

end Skadu

/-! ## §3. `MShadowSTV`. -/

namespace STV

variable {numProfiledLevels : ℕ} {hs : Finset ℕ} {sTable : STable} {a a' : ActiveLevels}
  {ref : VersionedMap ℕ}

theorem Refines.reissued (h : Refines numProfiledLevels hs ⟨sTable, a, ref⟩)
    (hre : a.Reissued a') : Refines numProfiledLevels hs ⟨sTable, a', ref⟩ := by
  refine ⟨hre.ordered h.ordered, h.below.mono hre.next, h.fits, h.wide, h.zero, ?_, ?_⟩
  · intro addr htable
    exact Nat.lt_of_lt_of_le (h.seen addr htable) hre.next
  · intro addr l hl hprofiled
    have hold := h.valid addr l (hre.levels ▸ hl) hprofiled
    show validTime _ a'.versions addr l = ref.view a'.versions (addr / 8) l
    rw [hre.view ref _ hl, ← hold]
    unfold validTime
    rw [hre.same l (hre.levels ▸ hl)]

/-- A null pointer is returned when no level is active. -/
def shadow (numProfiledLevels : ℕ) : MShadow STable where
  get addr size versions width sTable :=
    (STV.get numProfiledLevels addr size versions width sTable).map fun r =>
      (r.1.getD fun _ => 0, r.2)
  set addr size versions times width sTable :=
    STV.set numProfiledLevels addr size versions times width sTable

end STV

open STV in
/-- **`MShadowSTV` is a shadow memory** for 8-byte words. -/
def stvRefinement (numProfiledLevels : ℕ) {hs : Finset ℕ} (hcard : hs.card ≤ STABLE_SIZE) :
    (STV.shadow numProfiledLevels).Refinement [] numProfiledLevels
      fun addr width => width = 8 ∧ 8 ∣ addr ∧ highAddr addr ∈ hs where
  Rep a ref sTable := STV.Refines numProfiledLevels hs ⟨sTable, a, ref⟩
  rep_start := refines_start numProfiledLevels hs
  rep_enter h _ hnew := h.enter hnew
  rep_exit h := h.exit
  rep_reissued h _ hre := h.reissued hre
  rep_get := by
    intro a ref sTable addr width h _ hlevels haddr
    obtain ⟨rfl, haligned, hhigh⟩ := haddr
    -- without an active level `get` returns at once
    by_cases hsize : a.levels < 1
    · refine ⟨_, sTable, congrArg (Option.map _) (if_pos hsize), ?_, h⟩
      intro l hl
      omega
    · obtain ⟨times, sTable', hget, htimes, h'⟩ :=
        h.get hcard ⟨haligned, hhigh, Nat.le_of_not_lt hsize, hlevels⟩
      exact ⟨times, sTable', congrArg (Option.map _) hget, htimes, h'⟩
  rep_set := by
    intro a ref sTable addr width times h _ hlevels haddr _
    obtain ⟨rfl, haligned, hhigh⟩ := haddr
    by_cases hsize : a.levels < 1
    · have hzero : a.levels = 0 := by omega
      refine ⟨sTable, if_pos hsize, ?_⟩
      rw [hzero, VersionedMap.store_zero]
      exact h
    · obtain ⟨sTable', hset, h'⟩ := h.set hcard ⟨haligned, hhigh, Nat.le_of_not_lt hsize, hlevels⟩ times
      exact ⟨sTable', hset, h'⟩

end Kremlin.Shadow
