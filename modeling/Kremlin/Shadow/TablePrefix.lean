/-
  Kremlin.Shadow.TablePrefix — the levels of a page that have a time table.

  Two collectors delete tables, by comparing versions level by level, and
  `compress` and `decompress` walk the levels until a table is missing.  In every
  state that can be reached the tables of a page are those of levels 0 to k - 1
  (`present_tables_prefix`), so the walks meet all of them.

  An access fails in two cases only: for a 33rd upper half of the addresses, and
  in a memory that compresses with a buffer of no entries, where no page is ever
  made.
-/
import Kremlin.Shadow.AddressSlots
import Kremlin.Shadow.NullCacheRuns

namespace Kremlin.Shadow

open Kremlin.Library

/-! ## §1. One page. -/

namespace LevelTable

/-- **The tables of a page are those of its first `k` levels**, and both walks
over the levels reach all of them.  What comes back from a packed page does so if
no array of it was overrun. -/
structure PrefixTables (lzo : Lzo) (lt : LevelTable) (k : ℕ) : Prop where
  le : k ≤ MAX_LEVEL
  present : ∀ l < MAX_LEVEL, lt.time_tables l ≠ .null ↔ l < k
  /-- An unpacked page can be packed, and comes back. -/
  packs : lt.compressed = false → ∃ lt' savings, lt.compress lzo = some (lt', savings) ∧
    (lt'.Intact → ∃ cost, lt'.decompress lzo = some (lt, cost))
  /-- A packed page is unpacked at all its levels; packed again it is the same. -/
  unpacks : lt.compressed = true → ∃ lt' savings, lt'.Occupies k ∧
    lt'.compress lzo = some (lt, savings) ∧
    (lt.Intact → ∃ cost, lt.decompress lzo = some (lt', cost))

variable {lzo : Lzo} {lt plain : LevelTable} {k : ℕ}

theorem Occupies.present (h : lt.Occupies k) (hk : k ≤ MAX_LEVEL) {l : ℕ} (hl : l < MAX_LEVEL) :
    lt.time_tables l ≠ .null ↔ l < k := by
  by_cases hlk : l < k
  · rw [(h.table hk hlk).1]
    simp [hlk]
  · rw [h.null (by omega) hl]
    simp [hlk]

/-- The plain page comes back from the packed one. -/
theorem Stores.decompress_plain (hlossless : lzo.Lossless) (hsmall : lzo.Small)
    (h : Stores lzo lt plain k) (hintact : (packed lzo plain k).Intact) :
    ∃ cost, (packed lzo plain k).decompress lzo = some (plain, cost) := by
  obtain ⟨cost, hdecompress⟩ := decompress_packed hlossless hsmall h.le h.occupies
    ((intact_packed hsmall h.le h.occupies).mp hintact)
  have hplain : ({ plain with compressed := false } : LevelTable) = plain := by
    rw [← h.flag]
  rw [hplain] at hdecompress
  exact ⟨cost, hdecompress⟩

/-- A page that is some unpacked page, or that page packed. -/
theorem Stores.prefixTables (hlossless : lzo.Lossless) (hsmall : lzo.Small)
    (h : Stores lzo lt plain k) : PrefixTables lzo lt k where
  le := h.le
  present l hl := by
    have hsame := h.current_iff lt.versions l
    have hversions : lt.versions = plain.versions := by
      rcases h.eq with rfl | rfl <;> rfl
    unfold Current at hsame
    rw [hversions] at hsame
    simp only [and_true] at hsame
    rw [hsame]
    exact h.occupies.present h.le hl
  packs hflag := by
    rw [h.plain_eq hflag]
    obtain ⟨savings, hcompress⟩ := compress_eq lzo h.le h.occupies
    exact ⟨_, savings, hcompress, h.decompress_plain hlossless hsmall⟩
  unpacks hflag := by
    obtain ⟨savings, hcompress⟩ := compress_eq lzo h.le h.occupies
    rw [h.packed_eq hflag]
    exact ⟨plain, savings, h.occupies, hcompress, h.decompress_plain hlossless hsmall⟩

end LevelTable

/-! ## §2. Accesses that fail. -/

namespace MShadowSkadu

variable {P : Type} [LinearOrder P] {cfg : ShadowConfig} {lzo : Lzo} {s : MShadowSkadu P}

/-- There is an entry for the upper half of the address, or room for one. -/
def HasElement (s : MShadowSkadu P) (addr : ℕ) : Prop :=
  addrHigh addr ∈ s.highs ∨ s.entry.length < SPARSE_ENTRIES

theorem fetch_none {fresh : P} {addr size : ℕ} {versions : ℕ → ℕ}
    (h : s.getLevelTable cfg lzo fresh addr versions = none) :
    s.fetch cfg lzo fresh addr size versions = none := by
  unfold fetch
  rw [h]
  rfl

theorem store_none {stopAtZero : Bool} {fresh : P} {addr size : ℕ} {versions : ℕ → ℕ}
    {times : ℕ → Time} (h : s.getLevelTable cfg lzo fresh addr versions = none) :
    s.store stopAtZero cfg lzo fresh addr size versions times = none := by
  unfold store
  rw [h]
  rfl

/-- **A 33rd upper half** has no page. -/
theorem getLevelTable_full {addr : ℕ} (h : ¬s.HasElement addr) (fresh : P)
    (versions : ℕ → ℕ) : s.getLevelTable cfg lzo fresh addr versions = none := by
  unfold getLevelTable
  rw [(getElement_eq addr s).2 h]
  rfl

/-- The memory has no page, and its buffer no room for one. -/
structure Barren (s : MShadowSkadu P) : Prop where
  entry : s.entry = []
  active : s.compression_buffer.active_set = []
  room : s.compression_buffer.num_entries = 0

/-- **The first page of a barren memory** needs another one to be packed. -/
theorem Barren.getLevelTable (h : s.Barren) (hc : cfg.compressShadowMem = true) (fresh : P)
    (addr : ℕ) (versions : ℕ → ℕ) : s.getLevelTable cfg lzo fresh addr versions = none := by
  have helement : s.getElement addr
      = some (0, { s with entry := [⟨addrHigh addr, fun _ => none⟩] }) := by
    unfold getElement
    rw [h.entry]
    rfl
  have hadd : ∀ heap : Heap P, s.compression_buffer.add true lzo fresh heap = none := by
    intro heap
    unfold CBuffer.add
    rw [if_pos rfl, if_pos (by rw [h.room]; exact Nat.zero_le _),
      CBuffer.evictFromBuffer_nil h.active]
    rfl
  unfold MShadowSkadu.getLevelTable
  rw [helement]
  simp only [Option.bind_eq_bind, Option.bind_some, List.getElem?_cons_zero]
  unfold newLevelTable
  simp only [hc, if_true, hadd]
  rfl

omit [LinearOrder P] in
theorem barren_init (cfg : ShadowConfig) (h : cfg.num_compression_buffer_entries = 0) :
    (init cfg : MShadowSkadu P).Barren := ⟨rfl, rfl, h⟩

theorem Barren.collectGarbage (h : s.Barren) (cfg : ShadowConfig) (versions : ℕ → ℕ)
    (size : ℕ) : (s.collectGarbage cfg versions size).Barren := by
  have hsame := collectGarbage_collected cfg versions size s
  exact ⟨hsame.entry.trans h.entry, hsame.buffer ▸ h.active, hsame.buffer ▸ h.room⟩

end MShadowSkadu

/-! ## §3. Runs. -/

namespace NullCache

open MShadowSkadu

variable {P : Type} [LinearOrder P] {cfg : ShadowConfig} {lzo : Lzo} {hs hs' : Finset ℕ}
  {s s' : State P}

/-- Every region gets a version above all before it, and the accesses are made
with at most 64 levels. -/
def Disciplined (s : State P) : Event P → Prop
  | .enter version => s.active.next ≤ version
  | .exit => 1 ≤ s.active.levels
  | .get fresh _ => fresh ∉ s.memory.allocated ∧ s.active.levels ≤ LevelTable.MAX_LEVEL
  | .set fresh _ _ => fresh ∉ s.memory.allocated ∧ s.active.levels ≤ LevelTable.MAX_LEVEL

/-- The buffer has room for a page, where there is a buffer. -/
def BufferRoom (cfg : ShadowConfig) : Prop :=
  cfg.compressShadowMem = true → 1 ≤ cfg.num_compression_buffer_entries

/-- An access that does not fail: to no level, or to a page that is there or has
room. -/
def Reaches (cfg : ShadowConfig) (s : State P) (addr : ℕ) : Prop :=
  1 ≤ s.active.levels → s.memory.HasElement addr ∧ BufferRoom cfg

/-- An event that does not fail. -/
def Takes (cfg : ShadowConfig) (s : State P) : Event P → Prop
  | .get _ addr => Reaches cfg s addr
  | .set _ addr _ => Reaches cfg s addr
  | _ => True

/-- Only the upper halves that have an entry count. -/
theorem Good.restrict (h : Good cfg lzo hs s) (hsub : ∀ x ∈ s.memory.highs, x ∈ hs') :
    Good cfg lzo hs' s where
  ordered := h.ordered
  below := h.below
  refines :=
    { counted := h.refines.counted
      room := h.refines.room
      flat := h.refines.flat
      segmented := ⟨h.refines.segmented.nodup, hsub⟩
      contents := h.refines.contents }

/-- **There is a set of 32 upper halves** for a memory with room for one more. -/
theorem Good.with_high (h : Good cfg lzo hs s) (hcard : hs.card ≤ SPARSE_ENTRIES) {addr : ℕ}
    (helement : s.memory.HasElement addr) :
    ∃ hs' : Finset ℕ, hs'.card ≤ SPARSE_ENTRIES ∧ addrHigh addr ∈ hs' ∧ Good cfg lzo hs' s := by
  by_cases hin : addrHigh addr ∈ hs
  · exact ⟨hs, hcard, hin, h⟩
  · have hnew : addrHigh addr ∉ s.memory.highs :=
      fun hmem => hin (h.refines.segmented.subset _ hmem)
    have hlt := helement.resolve_left hnew
    refine ⟨insert (addrHigh addr) s.memory.highs.toFinset, ?_, Finset.mem_insert_self _ _, ?_⟩
    · have hle : s.memory.highs.toFinset.card ≤ s.memory.entry.length := by
        have hdup := List.toFinset_card_le s.memory.highs
        unfold MShadowSkadu.highs at hdup ⊢
        rwa [List.length_map] at hdup
      have hinsert := Finset.card_insert_le (addrHigh addr) s.memory.highs.toFinset
      omega
    · apply h.restrict
      intro x hx
      exact Finset.mem_insert_of_mem (List.mem_toFinset.mpr hx)

/-- One of the upper halves in use has an entry or room for one. -/
theorem Good.hasElement (h : Good cfg lzo hs s) (hcard : hs.card ≤ SPARSE_ENTRIES) {addr : ℕ}
    (hhigh : addrHigh addr ∈ hs) : s.memory.HasElement addr := by
  by_cases hin : addrHigh addr ∈ s.memory.highs
  · exact .inl hin
  · exact .inr ((h.refines.segmented.length_lt hhigh hin).trans_le hcard)

/-- With no active level nothing is accessed. -/
theorem step_get_zero (fresh : P) (addr : ℕ) (h : s.active.levels < 1) :
    step cfg lzo s (.get fresh addr) = some s := by
  show (MShadowSkadu.get _ _ _ _ _ _ _).map _ = _
  unfold MShadowSkadu.get
  rw [if_pos h]
  rfl

theorem step_set_zero (fresh : P) (addr : ℕ) (timestamps : ℕ → Time)
    (h : s.active.levels < 1) : step cfg lzo s (.set fresh addr timestamps) = some s := by
  show (MShadowSkadu.set _ _ _ _ _ _ _ _).map _ = _
  unfold MShadowSkadu.set
  rw [if_pos h, show s.active.levels = 0 by omega, VersionedMap.store_zero]
  rfl

/-- An access with no page for it. -/
theorem step_get_none {fresh : P} {addr : ℕ} (hlevels : 1 ≤ s.active.levels)
    (h : s.memory.getLevelTable cfg lzo fresh (wordAddr addr) s.active.versions = none) :
    step cfg lzo s (.get fresh addr) = none := by
  show (MShadowSkadu.get _ _ _ _ _ _ _).map _ = _
  unfold MShadowSkadu.get
  rw [if_neg (by omega), fetch_none h]
  rfl

theorem step_set_none {fresh : P} {addr : ℕ} {timestamps : ℕ → Time}
    (hlevels : 1 ≤ s.active.levels)
    (h : (s.memory.collectGarbage cfg s.active.versions s.active.levels).getLevelTable cfg lzo
      fresh (wordAddr addr) s.active.versions = none) :
    step cfg lzo s (.set fresh addr timestamps) = none := by
  show (MShadowSkadu.set _ _ _ _ _ _ _ _).map _ = _
  unfold MShadowSkadu.set
  rw [if_neg (by omega), store_none h]
  rfl

/-- **An access to a page that cannot be unpacked** fails. -/
theorem Good.step_none (h : Good cfg lzo hs s) (hcard : hs.card ≤ SPARSE_ENTRIES)
    (hlevels : 1 ≤ s.active.levels) (hmax : s.active.levels ≤ LevelTable.MAX_LEVEL) {e : Event P}
    (hhigh : ∀ fresh addr timestamps, e = .get fresh addr ∨ e = .set fresh addr timestamps →
      addrHigh addr ∈ hs) (hnot : ¬PageUnpacks cfg lzo s e) :
    NullCache.step cfg lzo s e = none := by
  cases e with
  | enter version => exact absurd trivial hnot
  | exit => exact absurd trivial hnot
  | get fresh addr =>
      have hin := hhigh fresh addr (fun _ => 0) (.inl rfl)
      rw [← addrHigh_wordAddr] at hin
      exact step_get_none hlevels (getLevelTable_none hcard h.refines hin hnot fresh)
  | set fresh addr timestamps =>
      have hin := hhigh fresh addr timestamps (.inr rfl)
      rw [← addrHigh_wordAddr] at hin
      have hgc := (collectGarbage_refines h.refines hmax).1
      exact step_set_none hlevels (getLevelTable_none hcard hgc hin hnot fresh)

/-- **An event that is not among those that fail** keeps the invariant, perhaps with
one upper half more, or meets a page that was overrun. -/
theorem takes_of_good (hlossless : lzo.Lossless) (hsmall : lzo.Small) (h : Good cfg lzo hs s)
    (hcard : hs.card ≤ SPARSE_ENTRIES) {e : Event P} (he : Disciplined s e)
    (htakes : Takes cfg s e) :
    (∃ s' hs', step cfg lzo s e = some s' ∧ hs'.card ≤ SPARSE_ENTRIES ∧ Good cfg lzo hs' s') ∨
      (step cfg lzo s e = none ∧ ¬Undamaged cfg s e) := by
  -- an access with an entry for its upper half
  have haccess : ∀ {hs' : Finset ℕ}, hs'.card ≤ SPARSE_ENTRIES → Good cfg lzo hs' s →
      1 ≤ s.active.levels → s.active.levels ≤ LevelTable.MAX_LEVEL → Admissible hs' s e →
      (∀ fresh addr timestamps, e = .get fresh addr ∨ e = .set fresh addr timestamps →
        addrHigh addr ∈ hs') →
      (∃ s' hs', step cfg lzo s e = some s' ∧ hs'.card ≤ SPARSE_ENTRIES ∧ Good cfg lzo hs' s') ∨
        (step cfg lzo s e = none ∧ ¬Undamaged cfg s e) := by
    intro hs' hcard' hgood hlevels hmax hadm hhigh
    by_cases hunpacks : PageUnpacks cfg lzo s e
    · obtain ⟨s', hstep, h'⟩ := hgood.step hlossless hsmall hcard' hadm hunpacks
      exact .inl ⟨s', hs', hstep, hcard', h'⟩
    · exact .inr ⟨hgood.step_none hcard' hlevels hmax hhigh hunpacks,
        fun hundamaged => hunpacks (hgood.pageUnpacks hlossless hsmall hmax hundamaged)⟩
  cases e with
  | enter version =>
      obtain ⟨s', hstep, h'⟩ := h.step hlossless hsmall hcard (e := .enter version) he trivial
      exact .inl ⟨s', hs, hstep, hcard, h'⟩
  | exit =>
      obtain ⟨s', hstep, h'⟩ := h.step hlossless hsmall hcard (e := .exit) he trivial
      exact .inl ⟨s', hs, hstep, hcard, h'⟩
  | get fresh addr =>
      by_cases hzero : s.active.levels < 1
      · exact .inl ⟨s, hs, step_get_zero fresh addr hzero, hcard, h⟩
      · obtain ⟨hs', hcard', haddr, hgood⟩ := h.with_high hcard (htakes (by omega)).1
        refine haccess hcard' hgood (by omega) he.2 ⟨he.1, haddr, he.2⟩ fun _ _ _ heq => ?_
        rcases heq with heq | heq
        all_goals cases heq
        exact haddr
  | set fresh addr timestamps =>
      by_cases hzero : s.active.levels < 1
      · exact .inl ⟨s, hs, step_set_zero fresh addr timestamps hzero, hcard, h⟩
      · obtain ⟨hs', hcard', haddr, hgood⟩ := h.with_high hcard (htakes (by omega)).1
        refine haccess hcard' hgood (by omega) he.2 ⟨he.1, haddr, he.2⟩ fun _ _ _ heq => ?_
        rcases heq with heq | heq
        all_goals cases heq
        exact haddr

omit [LinearOrder P] in
theorem hasElement_congr {m m' : MShadowSkadu P} (h : m'.entry = m.entry) (addr : ℕ) :
    m'.HasElement (wordAddr addr) ↔ m.HasElement addr := by
  unfold HasElement MShadowSkadu.highs
  rw [h, addrHigh_wordAddr]

/-- **A 33rd upper half** fails. -/
theorem step_full {e : Event P} (hroom : BufferRoom cfg) (h : ¬Takes cfg s e) :
    step cfg lzo s e = none := by
  cases e with
  | enter version => exact absurd trivial h
  | exit => exact absurd trivial h
  | get fresh addr =>
      obtain ⟨hlevels, hnot⟩ := Classical.not_imp.mp h
      apply step_get_none hlevels
      apply getLevelTable_full
      rw [hasElement_congr rfl]
      exact fun helement => hnot ⟨helement, hroom⟩
  | set fresh addr timestamps =>
      obtain ⟨hlevels, hnot⟩ := Classical.not_imp.mp h
      apply step_set_none hlevels
      apply getLevelTable_full
      rw [hasElement_congr (collectGarbage_collected _ _ _ _).entry]
      exact fun helement => hnot ⟨helement, hroom⟩

/-- **With a buffer of no entries** no page is made: only events that touch no
page can be taken. -/
theorem step_barren {e : Event P} (hroom : ¬BufferRoom cfg)
    (hm : s.memory = .init cfg) :
    (Takes cfg s e → ∃ s', step cfg lzo s e = some s' ∧ s'.memory = .init cfg) ∧
      (¬Takes cfg s e → step cfg lzo s e = none) := by
  obtain ⟨hc, hzero⟩ := Classical.not_imp.mp hroom
  have hbarren : s.memory.Barren := by
    rw [hm]
    exact barren_init cfg (by omega)
  cases e with
  | enter version => exact ⟨fun _ => ⟨_, rfl, hm⟩, fun h => absurd trivial h⟩
  | exit => exact ⟨fun _ => ⟨_, rfl, hm⟩, fun h => absurd trivial h⟩
  | get fresh addr =>
      constructor
      · intro htakes
        have hlevels : s.active.levels < 1 := by
          by_contra hpos
          exact hroom (htakes (by omega)).2
        exact ⟨s, step_get_zero fresh addr hlevels, hm⟩
      · intro h
        obtain ⟨hlevels, -⟩ := Classical.not_imp.mp h
        exact step_get_none hlevels (hbarren.getLevelTable hc fresh _ _)
  | set fresh addr timestamps =>
      constructor
      · intro htakes
        have hlevels : s.active.levels < 1 := by
          by_contra hpos
          exact hroom (htakes (by omega)).2
        exact ⟨s, step_set_zero fresh addr timestamps hlevels, hm⟩
      · intro h
        obtain ⟨hlevels, -⟩ := Classical.not_imp.mp h
        exact step_set_none hlevels
          ((hbarren.collectGarbage cfg _ _).getLevelTable hc fresh _ _)

/-- What every reachable state has: 32 upper halves at most, or no page at all. -/
def Reached (cfg : ShadowConfig) (lzo : Lzo) (s : State P) : Prop :=
  (BufferRoom cfg ∧ ∃ hs : Finset ℕ, hs.card ≤ SPARSE_ENTRIES ∧ Good cfg lzo hs s) ∨
    (¬BufferRoom cfg ∧ s.memory = .init cfg)

theorem reached_start (cfg : ShadowConfig) (lzo : Lzo) : Reached cfg lzo (start cfg : State P) := by
  by_cases hroom : BufferRoom cfg
  · refine .inl ⟨hroom, ∅, Nat.zero_le _, ActiveLevels.ordered_start, VersionedMap.below_empty _, ?_⟩
    exact refines_init lzo ∅ hroom
  · exact .inr ⟨hroom, rfl⟩

/-- **One event**: it keeps what every reachable state has, or it fails; that it does
where `Takes` says so, and otherwise only if a page was overrun. -/
theorem Reached.step (hlossless : lzo.Lossless) (hsmall : lzo.Small) (h : Reached cfg lzo s)
    {e : Event P} (he : Disciplined s e) :
    (∃ s', step cfg lzo s e = some s' ∧ Reached cfg lzo s' ∧ Takes cfg s e) ∨
      (step cfg lzo s e = none ∧ (Takes cfg s e → ¬Undamaged cfg s e)) := by
  by_cases htakes : Takes cfg s e
  · rcases h with ⟨hroom, hs, hcard, hgood⟩ | ⟨hroom, hm⟩
    · rcases takes_of_good hlossless hsmall hgood hcard he htakes with
        ⟨s', hs', hstep, hcard', hgood'⟩ | ⟨hnone, hdamaged⟩
      · exact .inl ⟨s', hstep, .inl ⟨hroom, hs', hcard', hgood'⟩, htakes⟩
      · exact .inr ⟨hnone, fun _ => hdamaged⟩
    · obtain ⟨s', hstep, hm'⟩ := (step_barren hroom hm).1 htakes
      exact .inl ⟨s', hstep, .inr ⟨hroom, hm'⟩, htakes⟩
  · refine .inr ⟨?_, fun hyes => absurd hyes htakes⟩
    rcases h with ⟨hroom, -⟩ | ⟨hroom, hm⟩
    · exact step_full hroom htakes
    · exact (step_barren hroom hm).2 htakes

theorem Reached.prefixTables (hlossless : lzo.Lossless) (hsmall : lzo.Small)
    (h : Reached cfg lzo s) {p : P} (hp : p ∈ s.memory.allocated) :
    ∃ k, LevelTable.PrefixTables lzo (s.memory.heap p) k := by
  rcases h with ⟨-, hs, -, hgood⟩ | ⟨-, hm⟩
  · obtain ⟨pageOf, -, -, hstored⟩ := hgood.refines.contents
    obtain ⟨plain, k, hstores, -⟩ := hstored p hp
    exact ⟨k, hstores.prefixTables hlossless hsmall⟩
  · rw [hm] at hp
    cases hp

/-- **A run of events that do not fail** can be taken, if it overruns no page. -/
theorem run_taken (hlossless : lzo.Lossless) (hsmall : lzo.Small) {events : List (Event P)}
    (hok : RunOk (NullCache.step cfg lzo)
      (fun s e => (Disciplined s e ∧ Takes cfg s e) ∧ Undamaged cfg s e) (start cfg) events) :
    ∃ s, run (NullCache.step cfg lzo) (start cfg) events = some s := by
  have htotal := run_total_of (P := Reached cfg lzo) (fun s e hinv he => by
    rcases hinv.step hlossless hsmall he.1.1 with ⟨s', hstep, h', -⟩ | ⟨-, hdamaged⟩
    · exact ⟨s', hstep, h'⟩
    · exact absurd he.2 (hdamaged he.1.2)) (reached_start cfg lzo) hok
  obtain ⟨s, hrun, -⟩ := htotal
  exact ⟨s, hrun⟩

/-- **In every reachable state the tables of a page fill its first levels**, and a
page can be packed and unpacked with all its tables.  An event fails only for want of
an entry or of a buffer, unless a page was overrun. -/
theorem present_tables_prefix (cfg : ShadowConfig) (hlossless : lzo.Lossless)
    (hsmall : lzo.Small) {events : List (Event P)}
    (hok : RunOk (step cfg lzo) Disciplined (start cfg) events) {s : State P}
    (hrun : run (step cfg lzo) (start cfg) events = some s) :
    (∀ p ∈ s.memory.allocated, ∃ k, LevelTable.PrefixTables lzo (s.memory.heap p) k) ∧
      ∀ e, Disciplined s e → ((step cfg lzo s e).isSome → Takes cfg s e) ∧
        (Undamaged cfg s e → Takes cfg s e → (step cfg lzo s e).isSome) := by
  have hreached : Reached cfg lzo s := by
    refine run_invariant_of ?_ (reached_start cfg lzo) hok hrun
    intro s e s' hinv he hstep
    rcases hinv.step hlossless hsmall he with ⟨s₁, hstep₁, h₁, -⟩ | ⟨hnone, -⟩
    · rw [hstep] at hstep₁
      cases hstep₁
      exact h₁
    · rw [hnone] at hstep
      cases hstep
  refine ⟨fun p hp => hreached.prefixTables hlossless hsmall hp, ?_⟩
  intro e he
  rcases hreached.step hlossless hsmall he with ⟨s', hstep, -, htakes⟩ | ⟨hnone, hdamaged⟩
  · exact ⟨fun _ => htakes, fun _ _ => by rw [hstep]; rfl⟩
  · refine ⟨fun hsome => ?_, fun hundamaged htakes => absurd hundamaged (hdamaged htakes)⟩
    rw [hnone] at hsome
    cases hsome

/-- **After pages were packed, collected and unpacked** their tables fill their first
levels, and one more event can be made. -/
theorem present_tables_prefix_twoPages :
    ∃ s : State ℕ, run (step ⟨true, 1, 1024⟩ Lzo.lzoFitting) (start ⟨true, 1, 1024⟩) twoPages
        = some s ∧
      (∀ p ∈ s.memory.allocated, ∃ k,
        LevelTable.PrefixTables Lzo.lzoFitting (s.memory.heap p) k) ∧
      (step ⟨true, 1, 1024⟩ Lzo.lzoFitting s (.get 10 8192)).isSome := by
  have hok : RunOk (step ⟨true, 1, 1024⟩ Lzo.lzoFitting) Disciplined
      (start ⟨true, 1, 1024⟩ : State ℕ) twoPages := by
    refine runOk_twoPages.mono fun s e he => ?_
    cases e with
    | enter version => exact he.1
    | exit => exact he.1
    | get fresh addr => exact ⟨he.1.unused, he.1.levels⟩
    | set fresh addr timestamps => exact ⟨he.1.unused, he.1.levels⟩
  have hcard : ({0} : Finset ℕ).card ≤ SPARSE_ENTRIES := by decide
  obtain ⟨s, hrun, hgood⟩ := (good_start Lzo.lzoFitting {0} fun _ => Nat.le_refl 1).run
    Lzo.lossless_lzoFitting Lzo.small_lzoFitting hcard runOk_twoPages
  obtain ⟨-, -, -, haccess, hundamaged⟩ := twoPages_end hrun
  obtain ⟨hpages, hevents⟩ := present_tables_prefix ⟨true, 1, 1024⟩ Lzo.lossless_lzoFitting
    Lzo.small_lzoFitting hok hrun
  have hdisciplined : Disciplined s (.get 10 8192) := ⟨haccess.unused, haccess.levels⟩
  exact ⟨s, hrun, hpages, (hevents _ hdisciplined).2 hundamaged fun _ =>
    ⟨hgood.hasElement hcard haccess.high, fun _ => Nat.le_refl 1⟩⟩

end NullCache

end Kremlin.Shadow
