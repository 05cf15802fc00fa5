/-
  Kremlin.Shadow.SkaduCacheRuns — when the cache is transparent.

  The line of a word tells which of its times are those of active regions: the
  ones at levels whose version is not above the line's.  At a hit that is exact.
  An eviction looks for the deepest such level below the line's old size, and
  the version array still has the stale versions of levels that were left.  If
  one of these is not above the line's version, all levels above it are written
  back — also those of regions entered since, with the times of the regions
  before them.  And the line of word 0 is never written back.

  Main results:
    * `evict_memory` — what an eviction writes;
    * `Coherent.written_back` — the condition (`WritesBack`) under which that is
      what the line holds;
    * `skaduCache_refines` — in a run whose evictions all meet it, every read
      returns what was last written.
-/
import Kremlin.Shadow.SkaduCache
import Kremlin.Shadow.SkaduRuns
import Mathlib.Data.Nat.Bitwise

namespace Kremlin.Shadow

open Kremlin.Library

/-! ## §1. The search for the first invalid level. -/

theorem firstInvalidFrom_le (lastVer : ℕ) (vArray : ℕ → ℕ) (size : ℕ) :
    firstInvalidFrom lastVer vArray size ≤ size := by
  induction size with
  | zero => exact Nat.le_refl 0
  | succ n ih =>
      unfold firstInvalidFrom
      split
      · exact Nat.le_refl _
      · exact Nat.le_succ_of_le ih

theorem getStartInvalidLevel_le (lastVer : ℕ) (vArray : ℕ → ℕ) (size : ℕ) :
    getStartInvalidLevel lastVer vArray size ≤ size := by
  unfold getStartInvalidLevel
  split
  · exact Nat.zero_le _
  · split
    · exact Nat.le_refl _
    · exact firstInvalidFrom_le _ _ _

/-- No valid level is missed. -/
theorem lt_getStartInvalidLevel {lastVer : ℕ} {vArray : ℕ → ℕ} {size l : ℕ} (hl : l < size)
    (hver : vArray l ≤ lastVer) : l < getStartInvalidLevel lastVer vArray size := by
  have hscan : ∀ n, l < n → l < firstInvalidFrom lastVer vArray n := by
    intro n
    induction n with
    | zero => intro h; exact absurd h (Nat.not_lt_zero l)
    | succ n ih =>
        intro h
        unfold firstInvalidFrom
        split
        · exact h
        next hn =>
          apply ih
          have hne : l ≠ n := fun heq => hn (heq ▸ hver)
          omega
  unfold getStartInvalidLevel
  rw [if_neg (by omega)]
  split
  · exact hl
  · exact hscan size hl

/-- The search stops below a valid level. -/
theorem version_getStartInvalidLevel {lastVer : ℕ} {vArray : ℕ → ℕ} {size : ℕ}
    (h : 0 < getStartInvalidLevel lastVer vArray size) :
    vArray (getStartInvalidLevel lastVer vArray size - 1) ≤ lastVer := by
  have hscan : ∀ n, 0 < firstInvalidFrom lastVer vArray n →
      vArray (firstInvalidFrom lastVer vArray n - 1) ≤ lastVer := by
    intro n
    induction n with
    | zero => intro h; exact absurd h (Nat.lt_irrefl 0)
    | succ n ih =>
        intro h
        unfold firstInvalidFrom at h ⊢
        split
        next hn => exact hn
        next hn =>
          rw [if_neg hn] at h
          exact ih h
  unfold getStartInvalidLevel at h ⊢
  split
  next hzero =>
    rw [if_pos hzero] at h
    exact absurd h (Nat.lt_irrefl 0)
  next hpos =>
    rw [if_neg hpos] at h
    split
    next heq => exact Nat.le_of_eq heq.symm
    next hne =>
      rw [if_neg hne] at h
      exact hscan size h

/-- **Among the active levels the search is exact.** -/
theorem lt_getStartInvalidLevel_iff {a : ActiveLevels} (h : a.Ordered) (lastVer : ℕ) {l : ℕ}
    (hl : l < a.levels) :
    l < getStartInvalidLevel lastVer a.versions a.levels ↔ a.versions l ≤ lastVer := by
  refine ⟨?_, lt_getStartInvalidLevel hl⟩
  intro hlt
  have hle := getStartInvalidLevel_le lastVer a.versions a.levels
  have hver := version_getStartInvalidLevel (Nat.zero_lt_of_lt hlt)
  exact Nat.le_trans (h.le (by omega) (by omega)) hver

theorem intVersion_eq {version : ℕ} (h : version < 2 ^ 31) : intVersion version = version := by
  have htoNat : (BitVec.ofNat 32 version).toNat = version := by
    rw [BitVec.toNat_ofNat]
    exact Nat.mod_eq_of_lt (by omega)
  have hmsb : (BitVec.ofNat 32 version).msb = false := by
    rw [BitVec.msb_eq_decide, htoNat]
    exact decide_eq_false (by omega)
  unfold intVersion
  rw [BitVec.signExtend_eq_setWidth_of_msb_false hmsb, BitVec.toNat_setWidth, htoNat]
  exact Nat.mod_eq_of_lt (by omega)

theorem isHit_iff {line : TagVectorCacheLine} {addr : ℕ} (htag : line.tag % 8 = 0)
    (haddr : addr % 8 = 0) : line.isHit addr = true ↔ line.tag = addr := by
  have hxor : ∀ x y : ℕ, x ^^^ y = 0 ↔ x = y := by
    intro x y
    exact Nat.xor_eq_zero_iff
  unfold TagVectorCacheLine.isHit
  rw [beq_iff_eq, Nat.shiftRight_xor_distrib, hxor, Nat.shiftRight_eq_div_pow,
    Nat.shiftRight_eq_div_pow]
  omega

/-! ## §2. What the lines hold. -/

namespace SkaduCache

/-- **A line holds the times of its word**: those of the levels with a version not
above its own; the word has 0 at the other levels. -/
structure LineHolds (a : ActiveLevels) (ref : VersionedMap ℕ) (line : TagVectorCacheLine)
    (data : ℕ → Time) : Prop where
  reads : ∀ l < a.levels, ref.view a.versions (line.tag / 8) l
    = if a.versions l ≤ line.version then (data l).toNat else 0
  stamped : line.version < a.next ∨ ∀ l, data l = 0
  sized : line.tag ≠ 0 → line.version < a.next ∧
    ∀ l < a.levels, a.versions l ≤ line.version → l < line.lastSize
  issued : ∀ l < line.lastSize, a.versions l < a.next
  small : line.version < 2 ^ 31
  bounded : line.lastSize ≤ LevelTable.MAX_LEVEL

/-- **The cache is coherent**: its lines hold the times of their words in `ref`,
and the memory behind it, as `mem`, those of all other words. -/
structure Coherent (hs : Finset ℕ) (a : ActiveLevels) (ref mem : VersionedMap ℕ)
    (c : TagVectorCache) : Prop where
  tagged : ∀ i, (c.tagTable i).tag = 0 ∨ c.getLineIndex (c.tagTable i).tag = i ∧
    (c.tagTable i).tag % 8 = 0 ∧ MShadowSkadu.addrHigh (c.tagTable i).tag ∈ hs
  held : ∀ i, c.getLineIndex (c.tagTable i).tag = i →
    LineHolds a ref (c.tagTable i) (c.valueTable i)
  passed : ∀ w, (c.tagTable (c.getLineIndex (8 * w))).tag ≠ 8 * w →
    ∀ l < a.levels, ref.view a.versions w l = mem.view a.versions w l
  zero : ∀ w, ∀ l < a.levels, ref.view a.versions w l = 0 → mem.view a.versions w l = 0
  closed : ∀ w i j, i ≤ j → j < a.levels →
    ref.view a.versions w i = 0 → ref.view a.versions w j = 0

variable {hs : Finset ℕ} {a : ActiveLevels} {ref mem : VersionedMap ℕ} {c : TagVectorCache}
  {line : TagVectorCacheLine} {data : ℕ → Time}

theorem Coherent.aligned (h : Coherent hs a ref mem c) (i : ℕ) : (c.tagTable i).tag % 8 = 0 := by
  rcases h.tagged i with hzero | ⟨-, hmod, -⟩
  · rw [hzero]
  · exact hmod

/-- An empty cache. -/
theorem coherent_start (hs : Finset ℕ) (line_count depth : ℕ) :
    Coherent hs .start .empty .empty (.configure line_count depth) where
  tagged _ := .inl rfl
  held _ _ :=
    { reads := fun l hl => absurd hl (Nat.not_lt_zero l)
      stamped := .inr fun _ => rfl
      sized := fun hne => absurd rfl hne
      issued := fun l hl => absurd hl (Nat.not_lt_zero l)
      small := Nat.two_pow_pos 31
      bounded := Nat.zero_le _ }
  passed _ _ _ _ := rfl
  zero _ _ _ _ := rfl
  closed _ _ _ _ _ _ := rfl

/-- A region is entered: the line has no time for it. -/
theorem LineHolds.enter (h : LineHolds a ref line data) (hbelow : ref.Below a.next)
    {version : ℕ} (hnew : a.next ≤ version) :
    LineHolds (a.enter version) ref line data := by
  have hlevel : ∀ l < (a.enter version).levels, ¬l < a.levels → l = a.levels := by
    intro l hl hnot
    have := Nat.le_of_lt_succ hl
    omega
  have hnext : a.next < (a.enter version).next := Nat.lt_succ_of_le hnew
  have hlast : line.version < a.next →
      ¬(a.enter version).versions a.levels ≤ line.version := by
    rw [a.versions_enter_self]
    omega
  refine ⟨?_, h.stamped.imp_left fun hlt => Nat.lt_trans hlt hnext, ?_, ?_, h.small, h.bounded⟩
  · intro l hl
    rw [ActiveLevels.view_enter hbelow hnew _ hl]
    by_cases hold : l < a.levels
    · rw [if_pos hold, a.versions_enter_of_lt version hold]
      exact h.reads l hold
    · rw [if_neg hold]
      split
      next hle =>
        rcases h.stamped with hlt | hzero
        · exact absurd (hlevel l hl hold ▸ hle) (hlast hlt)
        · rw [hzero l]
          rfl
      next => rfl
  · intro htag
    obtain ⟨hlt, hsized⟩ := h.sized htag
    refine ⟨Nat.lt_trans hlt hnext, ?_⟩
    intro l hl hver
    by_cases hold : l < a.levels
    · rw [a.versions_enter_of_lt version hold] at hver
      exact hsized l hold hver
    · exact absurd (hlevel l hl hold ▸ hver) (hlast hlt)
  · intro l hl
    show Function.update a.versions a.levels version l < version + 1
    rw [Function.update_apply]
    split
    · exact Nat.lt_succ_self _
    · have := h.issued l hl
      omega

theorem LineHolds.exit (h : LineHolds a ref line data) : LineHolds a.exit ref line data where
  reads l hl := h.reads l (Nat.lt_of_lt_of_le hl (Nat.sub_le _ _))
  stamped := h.stamped
  sized htag := ⟨(h.sized htag).1, fun l hl =>
    (h.sized htag).2 l (Nat.lt_of_lt_of_le hl (Nat.sub_le _ _))⟩
  issued := h.issued
  small := h.small
  bounded := h.bounded

/-- **A region is entered.** -/
theorem Coherent.enter (h : Coherent hs a ref mem c) (href : ref.Below a.next)
    (hmem : mem.Below a.next) {version : ℕ} (hnew : a.next ≤ version) :
    Coherent hs (a.enter version) ref mem c := by
  refine ⟨h.tagged, fun i hi => (h.held i hi).enter href hnew, ?_, ?_, ?_⟩
  · intro w hw l hl
    rw [ActiveLevels.view_enter href hnew _ hl, ActiveLevels.view_enter hmem hnew _ hl]
    split
    next hold => exact h.passed w hw l hold
    next => rfl
  · intro w l hl
    rw [ActiveLevels.view_enter href hnew _ hl, ActiveLevels.view_enter hmem hnew _ hl]
    split
    next hold => exact h.zero w l hold
    next => exact id
  · intro w i j hij hj
    rw [ActiveLevels.view_enter href hnew _ hj,
      ActiveLevels.view_enter href hnew _ (Nat.lt_of_le_of_lt hij hj)]
    by_cases hold : j < a.levels
    · rw [if_pos hold, if_pos (by omega)]
      exact h.closed w i j hij hold
    · rw [if_neg hold]
      exact fun _ => rfl

/-- **A region is left.** -/
theorem Coherent.exit (h : Coherent hs a ref mem c) : Coherent hs a.exit ref mem c := by
  have hle : ∀ l < a.exit.levels, l < a.levels :=
    fun l hl => Nat.lt_of_lt_of_le hl (Nat.sub_le _ _)
  refine ⟨h.tagged, fun i hi => (h.held i hi).exit, ?_, ?_, ?_⟩
  · exact fun w hw l hl => h.passed w hw l (hle l hl)
  · exact fun w l hl => h.zero w l (hle l hl)
  · exact fun w i j hij hj => h.closed w i j hij (hle j hj)

/-! ## §3. Accesses. -/

/-- The line an access leaves. -/
def lineAfter (a : ActiveLevels) (addr : ℕ) : TagVectorCacheLine :=
  { tag := addr, version := a.versions (a.levels - 1), lastSize := a.levels }

/-- The line of a word whose times at all active levels are in it. -/
theorem lineHolds_after (hordered : a.Ordered) (hpos : 1 ≤ a.levels)
    (hmax : a.levels ≤ LevelTable.MAX_LEVEL) (hsmall : a.next ≤ 2 ^ 31) {addr : ℕ}
    (hdata : ∀ l < a.levels, ref.view a.versions (addr / 8) l = (data l).toNat) :
    LineHolds a ref (lineAfter a addr) data := by
  have hlast := hordered.below (a.levels - 1) (by omega)
  refine ⟨?_, .inl hlast, fun _ => ⟨hlast, fun l hl _ => hl⟩, fun l hl => hordered.below l hl,
    ?_, hmax⟩
  · intro l hl
    have hle : a.versions l ≤ (lineAfter a addr).version := hordered.le (by omega) (by omega)
    rw [if_pos hle]
    exact hdata l hl
  · show a.versions (a.levels - 1) < 2 ^ 31
    omega

/-- **Replacing a line**: the words it can hold, other than the new one, are
passed on to the memory; nothing changes for the words of other lines. -/
theorem Coherent.setLine (h : Coherent hs a ref mem c) {ref' mem' : VersionedMap ℕ} {addr : ℕ}
    (haligned : addr % 8 = 0) (haddr : MShadowSkadu.addrHigh addr ∈ hs)
    (hline : LineHolds a ref' (lineAfter a addr) data)
    (href : ∀ w, w ≠ addr / 8 → ∀ l < a.levels,
      ref'.view a.versions w l = ref.view a.versions w l)
    (hpassed : ∀ w, c.getLineIndex (8 * w) = c.getLineIndex addr → w ≠ addr / 8 →
      ∀ l < a.levels, ref.view a.versions w l = mem'.view a.versions w l)
    (hother : ∀ w, c.getLineIndex (8 * w) ≠ c.getLineIndex addr →
      ∀ l < a.levels, mem'.view a.versions w l = mem.view a.versions w l)
    (hzero : ∀ l < a.levels, ref'.view a.versions (addr / 8) l = 0 →
      mem'.view a.versions (addr / 8) l = 0)
    (hclosed : ∀ i j, i ≤ j → j < a.levels → ref'.view a.versions (addr / 8) i = 0 →
      ref'.view a.versions (addr / 8) j = 0) :
    Coherent hs a ref' mem' (c.setLine (c.getLineIndex addr) (lineAfter a addr) data) := by
  have hword : 8 * (addr / 8) = addr := by omega
  have hhere : (c.setLine (c.getLineIndex addr) (lineAfter a addr) data).tagTable
      (c.getLineIndex addr) = lineAfter a addr := Function.update_self _ _ _
  have hthere : ∀ i, i ≠ c.getLineIndex addr →
      (c.setLine (c.getLineIndex addr) (lineAfter a addr) data).tagTable i = c.tagTable i :=
    fun i hi => Function.update_of_ne hi _ _
  have hdata : ∀ i, i ≠ c.getLineIndex addr →
      (c.setLine (c.getLineIndex addr) (lineAfter a addr) data).valueTable i = c.valueTable i :=
    fun i hi => Function.update_of_ne hi _ _
  -- the tags, the line itself, the words not in a line, and the two facts about zero times
  refine ⟨?_, ?_, ?_, ?_, ?_⟩
  · intro i
    by_cases hi : i = c.getLineIndex addr
    · subst hi
      rw [hhere]
      exact .inr ⟨rfl, haligned, haddr⟩
    · rw [hthere i hi]
      exact h.tagged i
  · intro i hi
    by_cases hia : i = c.getLineIndex addr
    · subst hia
      rw [hhere]
      rw [show (c.setLine (c.getLineIndex addr) (lineAfter a addr) data).valueTable
        (c.getLineIndex addr) = data from Function.update_self _ _ _]
      exact hline
    · rw [hthere i hia] at hi
      rw [hthere i hia, hdata i hia]
      have hold := h.held i hi
      -- two lines never hold one word
      have hne : (c.tagTable i).tag / 8 ≠ addr / 8 := by
        intro heq
        apply hia
        have hmod := h.aligned i
        have htag : (c.tagTable i).tag = addr := by omega
        rw [← htag]
        exact hi.symm
      refine ⟨?_, hold.stamped, hold.sized, hold.issued, hold.small, hold.bounded⟩
      intro l hl
      rw [href _ hne l hl]
      exact hold.reads l hl
  · intro w hw l hl
    by_cases hi : c.getLineIndex (8 * w) = c.getLineIndex addr
    · have hne : w ≠ addr / 8 := by
        intro heq
        apply hw
        rw [heq, hword]
        exact congrArg TagVectorCacheLine.tag hhere
      rw [href w hne l hl]
      exact hpassed w hi hne l hl
    · -- a word of another index misses as it did before
      have hw' : (c.tagTable (c.getLineIndex (8 * w))).tag ≠ 8 * w := by
        intro heq
        apply hw
        exact (congrArg TagVectorCacheLine.tag (hthere _ hi)).trans heq
      have hne : w ≠ addr / 8 := by
        rintro rfl
        rw [hword] at hi
        exact hi rfl
      rw [href w hne l hl, hother w hi l hl]
      exact h.passed w hw' l hl
  · intro w l hl
    by_cases hw : w = addr / 8
    · subst hw
      exact hzero l hl
    · rw [href w hw l hl]
      by_cases hi : c.getLineIndex (8 * w) = c.getLineIndex addr
      · rw [hpassed w hi hw l hl]
        exact id
      · rw [hother w hi l hl]
        exact h.zero w l hl
  · intro w i j hij hj
    by_cases hw : w = addr / 8
    · subst hw
      exact hclosed i j hij hj
    · rw [href w hw i (by omega), href w hw j hj]
      exact h.closed w i j hij hj

/-! ## §4. Evictions. -/

/-- **What the line holds is written back**: no stale version of a left level is
among those the search finds valid, unless all active levels are valid, or a time
0 ends the eviction in time.  Word 0 has nothing to be written. -/
def WritesBack (a : ActiveLevels) (line : TagVectorCacheLine) (data : ℕ → Time) : Prop :=
  if line.tag = 0 then ∀ l < a.levels, a.versions l ≤ line.version → data l = 0
  else ∀ i, a.levels ≤ i → i < line.lastSize → a.versions i ≤ line.version →
    ∀ l < a.levels, line.version < a.versions l → ∃ j ≤ l, data j = 0

/-- From `mem` to `mem'` the line was evicted. -/
def Evicted (a : ActiveLevels) (line : TagVectorCacheLine) (data : ℕ → Time)
    (mem mem' : VersionedMap ℕ) : Prop :=
  if line.tag = 0 then mem' = mem
  else ∃ m ≤ getStartInvalidLevel line.version a.versions line.lastSize,
    (∀ l < m, data l ≠ 0) ∧
    (m < getStartInvalidLevel line.version a.versions line.lastSize → data m = 0) ∧
    mem' = mem.store a.versions (line.tag / 8) m fun l => (data l).toNat

/-- An eviction writes to the word of the line. -/
theorem Evicted.other {mem' : VersionedMap ℕ} (h : Evicted a line data mem mem') {w : ℕ}
    (hw : line.tag ≠ 0 → w ≠ line.tag / 8) (l : ℕ) :
    mem'.view a.versions w l = mem.view a.versions w l := by
  unfold Evicted at h
  split at h
  next => rw [h]
  next htag =>
    obtain ⟨m, -, -, -, rfl⟩ := h
    rw [VersionedMap.view_store, if_neg fun hc => hw htag hc.1]

/-- **Under the condition the memory has the times of the word afterwards.** -/
theorem Coherent.written_back (h : Coherent hs a ref mem c) (hordered : a.Ordered) {i : ℕ}
    (hi : c.getLineIndex (c.tagTable i).tag = i) {mem' : VersionedMap ℕ}
    (hevicted : Evicted a (c.tagTable i) (c.valueTable i) mem mem')
    (hback : WritesBack a (c.tagTable i) (c.valueTable i)) :
    ∀ l < a.levels, ref.view a.versions ((c.tagTable i).tag / 8) l
      = mem'.view a.versions ((c.tagTable i).tag / 8) l := by
  intro l hl
  have hline := h.held i hi
  -- where the line has nothing to say the memory has nothing either
  have hnothing : ref.view a.versions ((c.tagTable i).tag / 8) l = 0 →
      mem.view a.versions ((c.tagTable i).tag / 8) l = 0 := h.zero _ l hl
  have hreads := hline.reads l hl
  unfold Evicted at hevicted
  unfold WritesBack at hback
  by_cases htag : (c.tagTable i).tag = 0
  · rw [if_pos htag] at hevicted hback
    have hzero : ref.view a.versions ((c.tagTable i).tag / 8) l = 0 := by
      rw [hreads]
      split
      next hver =>
        rw [hback l hl hver]
        rfl
      next => rfl
    rw [hevicted, hzero, hnothing hzero]
  · rw [if_neg htag] at hevicted hback
    obtain ⟨m, hm, hne, hstop, rfl⟩ := hevicted
    rw [VersionedMap.view_store]
    by_cases hver : a.versions l ≤ (c.tagTable i).version
    · rw [if_pos hver] at hreads
      by_cases hlm : l < m
      · rw [if_pos ⟨rfl, hlm⟩]
        exact hreads
      · -- the eviction ended at a time 0, at this level or above
        have hsize := (hline.sized htag).2 l hl hver
        have hlt := lt_getStartInvalidLevel hsize hver
        have hmzero : ref.view a.versions ((c.tagTable i).tag / 8) m = 0 := by
          rw [hline.reads m (by omega), hstop (by omega)]
          exact ite_self 0
        have hzero := h.closed _ m l (by omega) hl hmzero
        rw [if_neg fun hc => hlm hc.2, hzero, hnothing hzero]
    · rw [if_neg hver] at hreads
      have hnot : ¬l < m := by
        intro hlm
        -- the search ended at a level that was left
        have hfound := version_getStartInvalidLevel
          (show 0 < getStartInvalidLevel (c.tagTable i).version a.versions
            (c.tagTable i).lastSize by omega)
        have hle := getStartInvalidLevel_le (c.tagTable i).version a.versions
          (c.tagTable i).lastSize
        by_cases hin : getStartInvalidLevel (c.tagTable i).version a.versions
            (c.tagTable i).lastSize - 1 < a.levels
        · exact hver (Nat.le_trans (hordered.le (by omega) hin) hfound)
        · obtain ⟨j, hj, hjzero⟩ := hback _ (Nat.le_of_not_lt hin) (by omega) hfound l hl
            (Nat.lt_of_not_le hver)
          exact hne j (by omega) hjzero
      rw [if_neg fun hc => hnot hc.2, hreads, hnothing hreads]

section Memory

variable {P : Type} [LinearOrder P] {cfg : ShadowConfig} {lzo : Lzo} {s : SkaduCache P}

/-- **What an eviction writes to the memory.** -/
theorem evict_memory (hlossless : lzo.Lossless) (hsmall : lzo.Small)
    (hfits : cfg.compressShadowMem = true → lzo.Fits)
    (hcard : hs.card ≤ SPARSE_ENTRIES)
    (h : Coherent hs a ref mem s.tag_vector_cache)
    (hmem : MShadowSkadu.Refines cfg lzo hs a mem s.mem_shadow) (hbelow : mem.Below a.next)
    (hlevels : a.levels ≤ LevelTable.MAX_LEVEL) {fresh : P}
    (hfresh : fresh ∉ s.mem_shadow.allocated) (i : ℕ) :
    ∃ mem' mem_shadow, s.evict cfg lzo fresh i a.versions
        = some { s with mem_shadow := mem_shadow } ∧
      Evicted a (s.tag_vector_cache.tagTable i) (s.tag_vector_cache.valueTable i) mem mem' ∧
      MShadowSkadu.Refines cfg lzo hs a mem' mem_shadow ∧ mem'.Below a.next ∧
      ∀ q ∈ mem_shadow.allocated, q = fresh ∨ q ∈ s.mem_shadow.allocated := by
  unfold SkaduCache.evict Evicted
  by_cases htag : (s.tag_vector_cache.tagTable i).tag = 0
  · simp only [if_pos htag]
    exact ⟨mem, s.mem_shadow, rfl, rfl, hmem, hbelow, fun q hq => .inr hq⟩
  · simp only [if_neg htag]
    obtain ⟨hi, haligned, hhigh⟩ := (h.tagged i).resolve_left htag
    have hline := h.held i hi
    have hle := getStartInvalidLevel_le (s.tag_vector_cache.tagTable i).version a.versions
      (s.tag_vector_cache.tagTable i).lastSize
    have hissued : ∀ l < getStartInvalidLevel (s.tag_vector_cache.tagTable i).version a.versions
        (s.tag_vector_cache.tagTable i).lastSize, a.versions l < a.next :=
      fun l hl => hline.issued l (by omega)
    obtain ⟨m, mem_shadow, hstore, hm, -, hne, hstop, hrefines, -⟩ :=
      hmem.store hlossless hsmall hcard hlevels true hissued
        (Nat.le_trans hle hline.bounded) hfresh haligned hhigh
        (hmem.unpacks_of_fits hlossless hsmall hfits hlevels _) (s.tag_vector_cache.valueTable i)
    rw [intVersion_eq hline.small]
    refine ⟨_, mem_shadow, ?_, ⟨m, hm, fun l hl => hne l hl rfl, hstop, rfl⟩, hrefines,
      hbelow.store (fun l hl => hissued l (by omega)) _ _,
      MShadowSkadu.store_allocated hstore⟩
    unfold MShadowSkadu.evict
    rw [hstore]
    rfl

/-- The line an access replaces can be written back, if it is replaced. -/
def EvictsSafely (a : ActiveLevels) (c : TagVectorCache) (addr : ℕ) : Prop :=
  (c.tagTable (c.getLineIndex addr)).isHit addr = true ∨
    WritesBack a (c.tagTable (c.getLineIndex addr)) (c.valueTable (c.getLineIndex addr))

/-- **After an eviction** the words of the line, and no others, are passed on. -/
theorem Coherent.passed_on (h : Coherent hs a ref mem c) (hordered : a.Ordered) {addr : ℕ}
    (haligned : addr % 8 = 0) {mem' : VersionedMap ℕ}
    (hmiss : (c.tagTable (c.getLineIndex addr)).tag ≠ addr)
    (hevicted : Evicted a (c.tagTable (c.getLineIndex addr)) (c.valueTable (c.getLineIndex addr))
      mem mem') :
    (WritesBack a (c.tagTable (c.getLineIndex addr)) (c.valueTable (c.getLineIndex addr)) →
      ∀ w, c.getLineIndex (8 * w) = c.getLineIndex addr → w ≠ addr / 8 →
        ∀ l < a.levels, ref.view a.versions w l = mem'.view a.versions w l) ∧
      (∀ w, c.getLineIndex (8 * w) ≠ c.getLineIndex addr →
        ∀ l < a.levels, mem'.view a.versions w l = mem.view a.versions w l) ∧
      ∀ l < a.levels, ref.view a.versions (addr / 8) l
        = mem'.view a.versions (addr / 8) l := by
  have hmod := h.aligned (c.getLineIndex addr)
  have hword : 8 * (addr / 8) = addr := by omega
  refine ⟨?_, ?_, ?_⟩
  · intro hback w hw _ l hl
    by_cases htag : (c.tagTable (c.getLineIndex addr)).tag = 8 * w
    · have heq : w = (c.tagTable (c.getLineIndex addr)).tag / 8 := by omega
      rw [heq]
      exact h.written_back hordered (by rw [htag, hw]) hevicted hback l hl
    · rw [hevicted.other (fun _ heq => htag (by omega))]
      exact h.passed w (by rw [hw]; exact htag) l hl
  · intro w hw l _
    apply hevicted.other
    intro htag heq
    apply hw
    obtain ⟨hi, -, -⟩ := (h.tagged (c.getLineIndex addr)).resolve_left htag
    rw [show 8 * w = (c.tagTable (c.getLineIndex addr)).tag by omega]
    exact hi
  · intro l hl
    rw [hevicted.other (fun _ heq => hmiss (by omega))]
    exact h.passed _ (by rw [hword]; exact hmiss) l hl

/-- What the accesses of a run need: unused addresses for the pages made on the
way, an upper half among those in use, and levels within the cache's depth. -/
structure Reachable (hs : Finset ℕ) (a : ActiveLevels) (s : SkaduCache P) (fresh : ℕ → P)
    (addr : ℕ) : Prop where
  distinct : ∀ i j, i ≠ j → fresh i ≠ fresh j
  unused : ∀ i, fresh i ∉ s.mem_shadow.allocated
  high : MShadowSkadu.addrHigh addr ∈ hs
  levels : a.levels ≤ LevelTable.MAX_LEVEL
  depth : a.levels ≤ s.tag_vector_cache.depth

/-- The invariant of the runs. -/
structure Tracks (cfg : ShadowConfig) (lzo : Lzo) (hs : Finset ℕ) (a : ActiveLevels)
    (ref : VersionedMap ℕ) (s : SkaduCache P) : Prop where
  ordered : a.Ordered
  small : a.next ≤ 2 ^ 31
  below : ref.Below a.next
  coherent : ∃ mem : VersionedMap ℕ, mem.Below a.next ∧
    Coherent hs a ref mem s.tag_vector_cache ∧
    MShadowSkadu.Refines cfg lzo hs a mem s.mem_shadow

/-- **A hit** returns the times of the word. -/
theorem Coherent.validated (h : Coherent hs a ref mem c) (hordered : a.Ordered) {addr : ℕ}
    (hhit : (c.tagTable (c.getLineIndex addr)).tag = addr) :
    ∀ l < a.levels, ref.view a.versions (addr / 8) l
      = ((c.tagTable (c.getLineIndex addr)).validateTag (c.valueTable (c.getLineIndex addr))
          a.versions a.levels l).toNat := by
  intro l hl
  have hline := h.held (c.getLineIndex addr) (by rw [hhit])
  have hreads := hline.reads l hl
  rw [hhit] at hreads
  rw [hreads]
  unfold TagVectorCacheLine.validateTag
  have hiff := lt_getStartInvalidLevel_iff hordered
    (c.tagTable (c.getLineIndex addr)).version hl
  by_cases hver : a.versions l ≤ (c.tagTable (c.getLineIndex addr)).version
  · have hvalid := hiff.mpr hver
    rw [if_pos hver, if_neg (by omega)]
  · have hinvalid : ¬l < _ := fun hlt => hver (hiff.mp hlt)
    rw [if_neg hver, if_pos ⟨Nat.le_of_not_lt hinvalid, hl⟩]
    rfl

/-- An access does not go beyond the depth of the cache. -/
theorem checkResize_eq {size : ℕ} (h : size ≤ s.tag_vector_cache.depth) (fresh : ℕ → P)
    (vArray : ℕ → ℕ) : s.checkResize cfg lzo fresh size vArray = some s :=
  if_neg (Nat.not_lt_of_le h)

/-- **A read** returns what was last written, whatever it evicts. -/
theorem Tracks.get (hlossless : lzo.Lossless) (hsmall : lzo.Small)
    (hfits : cfg.compressShadowMem = true → lzo.Fits)
    (hcard : hs.card ≤ SPARSE_ENTRIES) (h : Tracks cfg lzo hs a ref s) {fresh : ℕ → P}
    {addr : ℕ} (ha : Reachable hs a s fresh addr) (hpos : 1 ≤ a.levels)
    (haligned : addr % 8 = 0) :
    ∃ times s', s.get cfg lzo fresh addr a.levels a.versions = some (times, s') ∧
      (∀ l < a.levels, (times l).toNat = ref.view a.versions (addr / 8) l) ∧
      (EvictsSafely a s.tag_vector_cache addr → Tracks cfg lzo hs a ref s') := by
  obtain ⟨mem, hbelow, hcoherent, hrefines⟩ := h.coherent
  have hmod := hcoherent.aligned (s.tag_vector_cache.getLineIndex addr)
  have hhit_iff := isHit_iff hmod haligned
  unfold SkaduCache.get
  rw [checkResize_eq ha.depth]
  simp only [Option.bind_eq_bind, Option.bind_some]
  by_cases hhit : (s.tag_vector_cache.tagTable (s.tag_vector_cache.getLineIndex addr)).isHit addr
  · -- the memory below does not change; the line is validated and stamped
    have htag := hhit_iff.mp hhit
    have hreads := hcoherent.validated h.ordered htag
    rw [if_pos hhit]
    refine ⟨_, _, rfl, fun l hl => (hreads l hl).symm, fun _ => ⟨h.ordered, h.small, h.below,
      mem, hbelow, ?_, hrefines⟩⟩
    have hline := lineHolds_after h.ordered hpos ha.levels h.small hreads
    have hafter : ({ s.tag_vector_cache.tagTable (s.tag_vector_cache.getLineIndex addr) with
        version := a.versions (a.levels - 1), lastSize := a.levels } : TagVectorCacheLine)
          = lineAfter a addr := by
      unfold lineAfter
      rw [← htag]
      simp only [htag]
    rw [hafter]
    refine hcoherent.setLine haligned ha.high hline (fun _ _ _ _ => rfl) ?_ (fun _ _ _ _ => rfl)
      (hcoherent.zero _) (hcoherent.closed _)
    intro w hw hne l hl
    refine hcoherent.passed w ?_ l hl
    rw [hw, htag]
    omega
  · rw [if_neg hhit]
    have hmiss := fun heq => hhit (hhit_iff.mpr heq)
    -- the line is written back, then the word is read below
    obtain ⟨mem', mem_shadow, hevict, hevicted, hrefines', hbelow', halloc⟩ :=
      evict_memory hlossless hsmall hfits hcard hcoherent hrefines hbelow ha.levels
        (ha.unused s.tag_vector_cache.line_count) (s.tag_vector_cache.getLineIndex addr)
    obtain ⟨hpassed, hother, hhere⟩ :=
      hcoherent.passed_on h.ordered haligned hmiss hevicted
    -- the eviction may have taken a page of its own
    have hunused : fresh (s.tag_vector_cache.line_count + 1) ∉ mem_shadow.allocated := by
      intro hin
      rcases halloc _ hin with heq | hold
      · exact ha.distinct _ _ (Nat.succ_ne_self _) heq
      · exact ha.unused _ hold
    obtain ⟨times, mem_shadow', hfetch, htimes, hrefines'', -⟩ :=
      hrefines'.fetch hlossless hsmall hcard ha.levels hunused ha.high
        (hrefines'.unpacks_of_fits hlossless hsmall hfits ha.levels _)
    have hdata : ∀ l < a.levels, ref.view a.versions (addr / 8) l
        = (copyTimes (s.tag_vector_cache.valueTable (s.tag_vector_cache.getLineIndex addr))
          (fun l => ((List.range a.levels).map times).getD l 0) a.levels l).toNat := by
      intro l hl
      unfold copyTimes
      rw [if_pos hl]
      show _ = (((List.range a.levels).map times).getD l 0).toNat
      rw [List.getD_eq_getElem?_getD, List.getElem?_map, List.getElem?_range hl, hhere l hl]
      exact (htimes l hl).symm
    rw [hevict]
    simp only [Option.bind_some, hfetch]
    refine ⟨_, _, rfl, fun l hl => (hdata l hl).symm, fun hsafe => ⟨h.ordered, h.small, h.below,
      mem', hbelow', ?_, hrefines''⟩⟩
    refine hcoherent.setLine haligned ha.high
      (lineHolds_after h.ordered hpos ha.levels h.small hdata) (fun _ _ _ _ => rfl)
      (hpassed (hsafe.resolve_left hhit)) hother ?_ (hcoherent.closed _)
    intro l hl hzero
    rw [← hhere l hl]
    exact hzero

/-- **A write** stores what the reference map stores. -/
theorem Tracks.set (hlossless : lzo.Lossless) (hsmall : lzo.Small)
    (hfits : cfg.compressShadowMem = true → lzo.Fits)
    (hcard : hs.card ≤ SPARSE_ENTRIES) (h : Tracks cfg lzo hs a ref s) {fresh : ℕ → P}
    {addr : ℕ} (ha : Reachable hs a s fresh addr) (hpos : 1 ≤ a.levels)
    (haligned : addr % 8 = 0) {times : ℕ → Time} (htimes : ∀ l < a.levels, times l ≠ 0)
    (hsafe : EvictsSafely a s.tag_vector_cache addr) :
    ∃ s', s.set cfg lzo fresh addr a.levels a.versions times = some s' ∧
      Tracks cfg lzo hs a
        (ref.store a.versions (addr / 8) a.levels fun l => (times l).toNat) s' := by
  obtain ⟨mem, hbelow, hcoherent, hrefines⟩ := h.coherent
  have hmod := hcoherent.aligned (s.tag_vector_cache.getLineIndex addr)
  have hhit_iff := isHit_iff hmod haligned
  have hbelow' : (ref.store a.versions (addr / 8) a.levels fun l => (times l).toNat).Below
      a.next := h.below.store (fun l hl => h.ordered.below l hl) _ _
  -- the word's times are those written, and none is 0
  have hwritten : ∀ l < a.levels,
      (ref.store a.versions (addr / 8) a.levels fun l => (times l).toNat).view a.versions
        (addr / 8) l = (times l).toNat := by
    intro l hl
    rw [VersionedMap.view_store, if_pos ⟨rfl, hl⟩]
  have hnonzero : ∀ l < a.levels,
      (ref.store a.versions (addr / 8) a.levels fun l => (times l).toNat).view a.versions
        (addr / 8) l ≠ 0 := by
    intro l hl hzero
    rw [hwritten l hl] at hzero
    exact htimes l hl (BitVec.eq_of_toNat_eq hzero)
  have hothers : ∀ w, w ≠ addr / 8 → ∀ l < a.levels,
      (ref.store a.versions (addr / 8) a.levels fun l => (times l).toNat).view a.versions w l
        = ref.view a.versions w l := by
    intro w hw l _
    rw [VersionedMap.view_store, if_neg fun hc => hw hc.1]
  have hdata : ∀ l < a.levels,
      (ref.store a.versions (addr / 8) a.levels fun l => (times l).toNat).view a.versions
        (addr / 8) l
        = (copyTimes (s.tag_vector_cache.valueTable (s.tag_vector_cache.getLineIndex addr))
          times a.levels l).toNat := by
    intro l hl
    unfold copyTimes
    rw [if_pos hl]
    exact hwritten l hl
  have hline := lineHolds_after h.ordered hpos ha.levels h.small hdata
  unfold SkaduCache.set
  rw [checkResize_eq ha.depth]
  simp only [Option.bind_eq_bind, Option.bind_some]
  by_cases hhit : (s.tag_vector_cache.tagTable (s.tag_vector_cache.getLineIndex addr)).isHit addr
  · have htag := hhit_iff.mp hhit
    rw [if_pos hhit]
    refine ⟨_, rfl, h.ordered, h.small, hbelow', mem, hbelow, ?_, hrefines⟩
    refine hcoherent.setLine haligned ha.high hline hothers ?_ (fun _ _ _ _ => rfl)
      (fun l hl hzero => absurd hzero (hnonzero l hl))
      (fun i j hij hj hzero => absurd hzero (hnonzero i (by omega)))
    intro w hw hne l hl
    refine hcoherent.passed w ?_ l hl
    rw [hw, htag]
    omega
  · rw [if_neg hhit]
    have hmiss := fun heq => hhit (hhit_iff.mpr heq)
    obtain ⟨mem', mem_shadow, hevict, hevicted, hrefines', hbelow'', -⟩ :=
      evict_memory hlossless hsmall hfits hcard hcoherent hrefines hbelow ha.levels
        (ha.unused s.tag_vector_cache.line_count) (s.tag_vector_cache.getLineIndex addr)
    obtain ⟨hpassed, hother, -⟩ := hcoherent.passed_on h.ordered haligned hmiss hevicted
    rw [hevict]
    refine ⟨_, rfl, h.ordered, h.small, hbelow', mem', hbelow'', ?_, hrefines'⟩
    exact hcoherent.setLine haligned ha.high hline hothers (hpassed (hsafe.resolve_left hhit))
      hother (fun l hl hzero => absurd hzero (hnonzero l hl))
      (fun i j hij hj hzero => absurd hzero (hnonzero i (by omega)))

end Memory

/-! ## §5. Runs. -/

variable {P : Type} [LinearOrder P]

open MShadowSkadu (wordAddr)

/-- The cached memory, the active regions, and the reference map of 8-byte
words. -/
structure State (P : Type) where
  cached : SkaduCache P
  active : ActiveLevels
  ref : VersionedMap ℕ

/-- The accesses are made with all active levels; `fresh` are the addresses of
the pages made on the way. -/
inductive Event (P : Type) where
  | enter (version : ℕ)
  | exit
  | get (fresh : ℕ → P) (addr : ℕ)
  | set (fresh : ℕ → P) (addr : ℕ) (timestamps : ℕ → Time)

/-- Nothing is open, the cache is empty and no page has been made. -/
def start (cfg : ShadowConfig) (line_count depth : ℕ) : State P :=
  ⟨⟨.configure line_count depth, .init cfg⟩, .start, .empty⟩

/-- One event; the reference memory is written along with the code's state. -/
def step (cfg : ShadowConfig) (lzo : Lzo) (s : State P) : Event P → Option (State P)
  | .enter version => some { s with active := s.active.enter version }
  | .exit => some { s with active := s.active.exit }
  | .get fresh addr =>
      (s.cached.shadowGet cfg lzo fresh addr s.active.levels s.active.versions).map fun r =>
        { s with cached := r.2 }
  | .set fresh addr timestamps =>
      (s.cached.shadowSet cfg lzo fresh addr s.active.levels s.active.versions timestamps).map
        fun cached => { s with
          cached := cached
          ref := s.ref.store s.active.versions (addr / 8) s.active.levels
            fun l => (timestamps l).toNat }

/-- The versions of the regions entered increase and are below `2 ^ 31`; no time
is 0. -/
def Admissible (hs : Finset ℕ) (s : State P) : Event P → Prop
  | .enter version => s.active.next ≤ version ∧ version < 2 ^ 31
  | .exit => 1 ≤ s.active.levels
  | .get fresh addr => Reachable hs s.active s.cached fresh addr
  | .set fresh addr timestamps => Reachable hs s.active s.cached fresh addr ∧
      (∀ l < s.active.levels, timestamps l ≠ 0) ∧
      ∀ l m, l ≤ m → m < s.active.levels → timestamps m ≤ timestamps l

/-- No access loses a time by what it evicts, or brings back an old one. -/
def Safe (s : State P) : Event P → Prop
  | .get _ addr => EvictsSafely s.active s.cached.tag_vector_cache (wordAddr addr)
  | .set _ addr _ => EvictsSafely s.active s.cached.tag_vector_cache (wordAddr addr)
  | _ => True

variable {cfg : ShadowConfig} {lzo : Lzo} {s : SkaduCache P}

theorem tracks_start (lzo : Lzo) (hs : Finset ℕ) (line_count depth : ℕ)
    (hbuffer : cfg.compressShadowMem = true → 1 ≤ cfg.num_compression_buffer_entries) :
    Tracks cfg lzo hs .start .empty (⟨.configure line_count depth, .init cfg⟩ : SkaduCache P) where
  ordered := ActiveLevels.ordered_start
  small := Nat.zero_le _
  below := VersionedMap.below_empty _
  coherent := ⟨.empty, VersionedMap.below_empty _, coherent_start hs line_count depth,
    MShadowSkadu.refines_init lzo hs hbuffer⟩

theorem Tracks.enter (h : Tracks cfg lzo hs a ref s) {version : ℕ} (hnew : a.next ≤ version)
    (hsmall : version < 2 ^ 31) : Tracks cfg lzo hs (a.enter version) ref s := by
  obtain ⟨mem, hbelow, hcoherent, hrefines⟩ := h.coherent
  have hle : a.next ≤ (a.enter version).next := Nat.le_succ_of_le hnew
  exact ⟨h.ordered.enter hnew, hsmall, h.below.mono hle, mem, hbelow.mono hle,
    hcoherent.enter h.below hbelow hnew, hrefines.enter hbelow hnew⟩

theorem Tracks.exit (h : Tracks cfg lzo hs a ref s) : Tracks cfg lzo hs a.exit ref s := by
  obtain ⟨mem, hbelow, hcoherent, hrefines⟩ := h.coherent
  exact ⟨h.ordered.exit, h.small, h.below, mem, hbelow, hcoherent.exit, hrefines.exit⟩

/-- **A read through the cache.** -/
theorem Tracks.shadowGet (hlossless : lzo.Lossless) (hsmall : lzo.Small)
    (hfits : cfg.compressShadowMem = true → lzo.Fits)
    (hcard : hs.card ≤ SPARSE_ENTRIES) (h : Tracks cfg lzo hs a ref s) {fresh : ℕ → P}
    {addr : ℕ} (ha : Reachable hs a s fresh addr) :
    ∃ times s', s.shadowGet cfg lzo fresh addr a.levels a.versions = some (times, s') ∧
      (∀ l < a.levels, (times l).toNat = ref.view a.versions (addr / 8) l) ∧
      (EvictsSafely a s.tag_vector_cache (wordAddr addr) → Tracks cfg lzo hs a ref s') := by
  unfold SkaduCache.shadowGet
  by_cases hsize : a.levels < 1
  · rw [if_pos hsize]
    exact ⟨fun _ => 0, s, rfl, fun l hl => by omega, fun _ => h⟩
  · have ha' : Reachable hs a s fresh (wordAddr addr) :=
      ⟨ha.distinct, ha.unused, by rw [MShadowSkadu.addrHigh_wordAddr]; exact ha.high,
        ha.levels, ha.depth⟩
    rw [if_neg hsize, ← MShadowSkadu.wordAddr_div]
    exact h.get hlossless hsmall hfits hcard ha' (by omega) (MShadowSkadu.wordAddr_mod addr)

/-- **A write through the cache.** -/
theorem Tracks.shadowSet (hlossless : lzo.Lossless) (hsmall : lzo.Small)
    (hfits : cfg.compressShadowMem = true → lzo.Fits)
    (hcard : hs.card ≤ SPARSE_ENTRIES) (h : Tracks cfg lzo hs a ref s) {fresh : ℕ → P}
    {addr : ℕ} (ha : Reachable hs a s fresh addr) {times : ℕ → Time}
    (htimes : ∀ l < a.levels, times l ≠ 0)
    (hsafe : EvictsSafely a s.tag_vector_cache (wordAddr addr)) :
    ∃ s', s.shadowSet cfg lzo fresh addr a.levels a.versions times = some s' ∧
      Tracks cfg lzo hs a
        (ref.store a.versions (addr / 8) a.levels fun l => (times l).toNat) s' := by
  unfold SkaduCache.shadowSet
  by_cases hsize : a.levels < 1
  · rw [if_pos hsize, show a.levels = 0 by omega, VersionedMap.store_zero]
    exact ⟨s, rfl, h⟩
  · obtain ⟨mem, hbelow, hcoherent, hrefines⟩ := h.coherent
    obtain ⟨hgc, halloc⟩ := MShadowSkadu.collectGarbage_refines hrefines ha.levels
    let s₁ : SkaduCache P :=
      { s with mem_shadow := s.mem_shadow.collectGarbage cfg a.versions a.levels }
    have h₁ : Tracks cfg lzo hs a ref s₁ :=
      ⟨h.ordered, h.small, h.below, mem, hbelow, hcoherent, hgc⟩
    have ha₁ : Reachable hs a s₁ fresh (wordAddr addr) :=
      ⟨ha.distinct, fun i => halloc ▸ ha.unused i,
        by rw [MShadowSkadu.addrHigh_wordAddr]; exact ha.high, ha.levels, ha.depth⟩
    rw [if_neg hsize, ← MShadowSkadu.wordAddr_div]
    exact h₁.set hlossless hsmall hfits hcard ha₁ (by omega) (MShadowSkadu.wordAddr_mod addr) htimes
      hsafe

/-- **Every safe event can be taken and is tracked.** -/
theorem Tracks.step (hlossless : lzo.Lossless) (hsmall : lzo.Small)
    (hfits : cfg.compressShadowMem = true → lzo.Fits)
    (hcard : hs.card ≤ SPARSE_ENTRIES) {s : State P}
    (h : Tracks cfg lzo hs s.active s.ref s.cached) {e : Event P}
    (he : Admissible hs s e ∧ Safe s e) :
    ∃ s', step cfg lzo s e = some s' ∧ Tracks cfg lzo hs s'.active s'.ref s'.cached := by
  cases e with
  | enter version => exact ⟨_, rfl, h.enter he.1.1 he.1.2⟩
  | exit => exact ⟨_, rfl, h.exit⟩
  | get fresh addr =>
      obtain ⟨times, cached, hget, -, htracks⟩ := h.shadowGet hlossless hsmall hfits hcard he.1
      exact ⟨_, congrArg (Option.map _) hget, htracks he.2⟩
  | set fresh addr timestamps =>
      obtain ⟨cached, hset, htracks⟩ :=
        h.shadowSet hlossless hsmall hfits hcard he.1.1 he.1.2.1 he.2
      exact ⟨_, congrArg (Option.map _) hset, htracks⟩

/-- The run can be made, and at its end every word reads as it was last written
under the current version of each active level, else as 0. -/
def ReadsRight (cfg : ShadowConfig) (lzo : Lzo) (hs : Finset ℕ) (line_count depth : ℕ)
    (events : List (Event P)) : Prop :=
  ∃ s, run (step cfg lzo) (start cfg line_count depth) events = some s ∧
    ∀ fresh addr, Reachable hs s.active s.cached fresh addr → ∃ times cached,
      s.cached.shadowGet cfg lzo fresh addr s.active.levels s.active.versions
        = some (times, cached) ∧
      ∀ l < s.active.levels, (times l).toNat = s.ref.view s.active.versions (addr / 8) l

/-- **In a run of safe evictions every read returns what was last written**, without
compression or where what is packed fits its chunk. -/
theorem skaduCache_refines (cfg : ShadowConfig) (hlossless : lzo.Lossless) (hsmall : lzo.Small)
    (hfits : cfg.compressShadowMem = true → lzo.Fits)
    (hbuffer : cfg.compressShadowMem = true → 1 ≤ cfg.num_compression_buffer_entries)
    (hcard : hs.card ≤ SPARSE_ENTRIES) (line_count depth : ℕ) {events : List (Event P)}
    (hok : RunOk (step cfg lzo) (fun s e => Admissible hs s e ∧ Safe s e)
      (start cfg line_count depth) events) :
    ReadsRight cfg lzo hs line_count depth events := by
  obtain ⟨s, hrun, h⟩ := run_total_of (P := fun s : State P =>
      Tracks cfg lzo hs s.active s.ref s.cached)
    (fun _ _ hinv he => Tracks.step hlossless hsmall hfits hcard hinv he)
    (tracks_start lzo hs line_count depth hbuffer) hok
  refine ⟨s, hrun, fun fresh addr ha => ?_⟩
  obtain ⟨times, cached, hget, htimes, -⟩ := h.shadowGet hlossless hsmall hfits hcard ha
  exact ⟨times, cached, hget, htimes⟩

/-- A cache of 1 MB. -/
def oneMegabyte : ℕ := 131072

/-- No compression and no garbage collection. -/
def plainConfig : ShadowConfig := ⟨false, 1, 0⟩

/-- A word is written, and its line is evicted while its region is still open. -/
theorem skaduCache_refines_evicted :
    ReadsRight plainConfig Lzo.lzoCopying {0} oneMegabyte 1
      [.enter 1, .set id 8 fun _ => 5, .get id 0x100000] := by
  have hok : RunOk (step plainConfig Lzo.lzoCopying)
      (fun s e => Admissible {0} s e ∧ Safe s e)
      (start plainConfig oneMegabyte 1 : State ℕ)
      [.enter 1, .set id 8 fun _ => 5, .get id 0x100000] := by
    refine ⟨⟨⟨Nat.zero_le _, by decide⟩, trivial⟩, ?_⟩
    rintro _ ⟨⟩
    refine ⟨⟨⟨⟨fun _ _ h => h, fun _ => List.not_mem_nil, by decide, by decide, by decide⟩,
      fun _ _ => (by decide : (5 : Time) ≠ 0), fun _ _ _ _ => BitVec.le_refl _⟩,
      .inr fun _ _ _ => rfl⟩, ?_⟩
    rintro _ ⟨⟩
    refine ⟨⟨⟨fun _ _ h => h, fun _ => List.not_mem_nil, by decide, by decide, by decide⟩,
      .inr ?_⟩, ?_⟩
    · -- the line was last used with as many levels as are active now
      intro i hi hsize
      have hlevels : 1 ≤ i := hi
      have hlast : i < 1 := hsize
      omega
    · intro _ _
      trivial
  exact skaduCache_refines plainConfig Lzo.lossless_lzoCopying Lzo.small_lzoCopying
    (fun h => nomatch h) (fun _ => Nat.le_refl 1) (by decide) oneMegabyte 1 hok

/-- A word is written three levels deep, the two inner regions are left, another
one is entered, and a word of the same line is read. -/
def staleWriteBack : List (Event ℕ) :=
  [.enter 1, .enter 2, .enter 3, .set id 8 fun _ => 9, .exit, .exit, .enter 4, .get id 0x100000]

theorem admissible_staleWriteBack : RunOk (step plainConfig Lzo.lzoCopying) (Admissible {0})
    (start plainConfig oneMegabyte 3) staleWriteBack := by
  refine ⟨⟨Nat.zero_le _, by decide⟩, ?_⟩
  rintro _ ⟨⟩
  refine ⟨⟨by decide, by decide⟩, ?_⟩
  rintro _ ⟨⟩
  refine ⟨⟨by decide, by decide⟩, ?_⟩
  rintro _ ⟨⟩
  refine ⟨⟨⟨fun _ _ h => h, fun _ => List.not_mem_nil, by decide, by decide, by decide⟩,
    fun _ _ => (by decide : (9 : Time) ≠ 0), fun _ _ _ _ => BitVec.le_refl _⟩, ?_⟩
  rintro _ ⟨⟩
  refine ⟨(by decide : 1 ≤ 3), ?_⟩
  rintro _ ⟨⟩
  refine ⟨(by decide : 1 ≤ 2), ?_⟩
  rintro _ ⟨⟩
  refine ⟨⟨by decide, by decide⟩, ?_⟩
  rintro _ ⟨⟩
  refine ⟨⟨fun _ _ h => h, fun _ => List.not_mem_nil, by decide, by decide, by decide⟩, ?_⟩
  intro _ _
  trivial

/-- What a read of the first word returns, and what the map holds for it. -/
def readFirst (s : State ℕ) : Option (List ℕ × List ℕ) :=
  (s.cached.shadowGet plainConfig Lzo.lzoCopying (fun i => i + 200000) 8 s.active.levels
    s.active.versions).map fun r =>
      ((List.range s.active.levels).map fun l => (r.1 l).toNat,
        (List.range s.active.levels).map fun l => s.ref.view s.active.versions 1 l)

/-- The pages made, the levels and the depth after the run, and that read. -/
theorem read_staleWriteBack :
    ((run (step plainConfig Lzo.lzoCopying) (start plainConfig oneMegabyte 3)
      staleWriteBack).bind fun s => (readFirst s).map fun r =>
        (s.cached.mem_shadow.allocated, s.active.levels, s.cached.tag_vector_cache.depth, r))
      = some ([131073, 131072], 2, 3, [9, 9], [9, 0]) := by decide +kernel

/-- **The cache is not transparent**: the region entered last reads the time of
the one before it. -/
theorem not_transparent :
    RunOk (step plainConfig Lzo.lzoCopying) (Admissible {0})
      (start plainConfig oneMegabyte 3) staleWriteBack ∧
      ¬ReadsRight plainConfig Lzo.lzoCopying {0} oneMegabyte 3 staleWriteBack := by
  refine ⟨admissible_staleWriteBack, ?_⟩
  rintro ⟨s, hrun, hreads⟩
  have hread := read_staleWriteBack
  rw [hrun, Option.bind_some] at hread
  obtain ⟨r, hr, heq⟩ := Option.map_eq_some_iff.mp hread
  simp only [Prod.mk.injEq] at heq
  obtain ⟨halloc, hlevels, hdepth, rfl⟩ := heq
  have haccess : Reachable {0} s.active s.cached (fun i => i + 200000) 8 := by
    refine ⟨fun i j h heq => h (by omega), ?_, by decide, ?_, ?_⟩
    · intro i
      rw [halloc]
      simp
    · rw [hlevels]
      decide
    · rw [hlevels, hdepth]
      decide
  obtain ⟨times, cached, hget, htimes⟩ := hreads _ 8 haccess
  have hone : (times 1).toNat = s.ref.view s.active.versions 1 1 := htimes 1 (by omega)
  unfold readFirst at hr
  rw [hget, hlevels] at hr
  simp [List.range_succ] at hr
  obtain ⟨⟨-, hnine⟩, -, hzero⟩ := hr
  rw [hnine, hzero] at hone
  cases hone

end SkaduCache

end Kremlin.Shadow
