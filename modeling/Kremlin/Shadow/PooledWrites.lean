/-
  Kremlin.Shadow.PooledWrites — a sequence of writes to a page whose tables are in the pool.

  A level's table is made at its first write and gets the next chunk of the pool.
  Two levels whose tables share a word of the pool read the same time there, so the
  page reads its last writes if, besides keeping their widths, the writes leave
  the two levels with the same time.  In a pool that was just made a table shares
  words with no other than the one made before it, and only if it is a 32-bit table.

  Main results:
    * `readsLast_iff` — when a page reads its last writes;
    * `agreesWhereShared_of_wide` — no words are shared if all tables but the first
      are 64-bit tables.
-/
import Kremlin.Shadow.MixedWidths
import Kremlin.Shadow.PooledTables
import Mathlib.Data.List.Perm.Subperm

namespace Kremlin.Shadow

open Kremlin.Library
open TimeTable (page GetNumEntries)

/-! ## §1. The word of the pool an address is looked up in. -/

/-- The levels in the order of their first writes. -/
def writeOrder (ws : List LevelWrite) : List ℕ :=
  ws.foldl (fun order w => if w.level ∈ order then order else order ++ [w.level]) []

/-- The chunk that the table of a level gets. -/
def chunkOf (p : Pool) (ws : List LevelWrite) (level : ℕ) : ℕ :=
  p.handedOut ((writeOrder ws).idxOf level)

/-- The word of the pool that has the time of `word` at a level: the table is as wide as
the write it was made by. -/
def cellOf (p : Pool) (ws : List LevelWrite) (level word : ℕ) : Option ℕ :=
  (firstWrite ws level).map fun first => chunkOf p ws level + 8 * first.type.getIndex word

/-- **Two levels that share a word of the pool** were last given the same time for it. -/
def AgreesWhereShared (p : Pool) (pg : ℕ) (ws : List LevelWrite) : Prop :=
  ∀ level level' word word' a, level ≠ level' → word % 4 = 0 → word' % 4 = 0 →
    page word = pg → page word' = pg →
    cellOf p ws level word = some a → cellOf p ws level' word' = some a →
      lastTime ws level word (lastVersion ws level) =
        lastTime ws level' word' (lastVersion ws level')

theorem writeOrder_concat (ws : List LevelWrite) (w : LevelWrite) :
    writeOrder (ws ++ [w]) =
      if w.level ∈ writeOrder ws then writeOrder ws else writeOrder ws ++ [w.level] := by
  unfold writeOrder
  rw [List.foldl_append]
  rfl

theorem mem_writeOrder {ws : List LevelWrite} {l : ℕ} :
    l ∈ writeOrder ws ↔ firstWrite ws l ≠ none := by
  induction ws using List.reverseRecOn with
  | nil => simp [writeOrder, firstWrite]
  | append_singleton ws w ih =>
      rw [writeOrder_concat, firstWrite_concat]
      by_cases hl : w.level = l
      · subst hl
        rw [if_pos rfl]
        split
        · next hmem => simp [hmem]
        · simp
      · rw [if_neg hl, Option.or_none, ← ih]
        split
        · rfl
        · simp [Ne.symm hl]

theorem firstWrite_mem {ws : List LevelWrite} {level : ℕ} {first : LevelWrite}
    (h : firstWrite ws level = some first) : first ∈ ws ∧ first.level = level := by
  have hlevel := List.find?_some h
  simp only [decide_eq_true_eq] at hlevel
  exact ⟨List.mem_of_find?_eq_some h, hlevel⟩

theorem nodup_writeOrder (ws : List LevelWrite) : (writeOrder ws).Nodup := by
  induction ws using List.reverseRecOn with
  | nil => exact List.nodup_nil
  | append_singleton ws w ih =>
      rw [writeOrder_concat]
      split
      · exact ih
      · next hnew =>
          rw [List.nodup_append]
          refine ⟨ih, List.nodup_singleton _, fun a ha b hb => ?_⟩
          rintro rfl
          exact hnew (List.mem_singleton.mp hb ▸ ha)

/-- A page has no more tables than levels. -/
theorem length_writeOrder_le {pg : ℕ} {ws : List LevelWrite} (hpg : PageWrites pg ws) :
    (writeOrder ws).length ≤ LevelTable.MAX_LEVEL := by
  have hsub : writeOrder ws ⊆ List.range LevelTable.MAX_LEVEL := by
    intro l hl
    obtain ⟨w, hw⟩ := Option.ne_none_iff_exists'.mp (mem_writeOrder.mp hl)
    obtain ⟨hmem, rfl⟩ := firstWrite_mem hw
    exact List.mem_range.mpr (hpg.levels w hmem)
  have hle := (List.subperm_of_subset (nodup_writeOrder ws) hsub).length_le
  rwa [List.length_range] at hle

/-- A table stays in its chunk. -/
theorem chunkOf_concat (p : Pool) {ws : List LevelWrite} {w : LevelWrite} {l : ℕ}
    (hl : l ∈ writeOrder ws) : chunkOf p (ws ++ [w]) l = chunkOf p ws l := by
  unfold chunkOf
  rw [writeOrder_concat]
  split
  · rfl
  · rw [List.idxOf_append, if_pos hl]

/-- A new table gets the next chunk. -/
theorem chunkOf_new (p : Pool) {ws : List LevelWrite} {w : LevelWrite}
    (hnew : w.level ∉ writeOrder ws) :
    chunkOf p (ws ++ [w]) w.level = p.handedOut (writeOrder ws).length := by
  unfold chunkOf
  rw [writeOrder_concat, if_neg hnew, List.idxOf_append, if_neg hnew, List.idxOf_cons_self,
    Nat.zero_add]

namespace PooledLevelTable

/-- The page after one write. -/
def write (lt : PooledLevelTable) (w : LevelWrite) : Option PooledLevelTable :=
  lt.setTimeForAddrAtLevel w.level w.addr w.ver w.value w.type

/-- The page after the writes, from a new one. -/
def writes (p : Pool) (ws : List LevelWrite) : Option PooledLevelTable :=
  run write (new p) ws

/-- Every 4-byte word of the page reads, at every level, the time of the last
write.  The version asked for is the level's, so it is not older than the one
of the level's last write. -/
def ReadsLast (p : Pool) (pg : ℕ) (ws : List LevelWrite) : Prop :=
  ∀ level word ver, level < LevelTable.MAX_LEVEL → word % 4 = 0 → page word = pg →
    lastVersion ws level ≤ ver →
    ((writes p ws).bind fun lt => lt.getTimeForAddrAtLevel level word ver)
      = some (lastTime ws level word ver)

theorem writes_concat (p : Pool) (ws : List LevelWrite) (w : LevelWrite) :
    writes p (ws ++ [w]) = (writes p ws).bind fun lt => lt.write w := by
  rw [writes, run_append]
  show (writes p ws).bind _ = _
  congr 1
  funext lt
  show (lt.write w).bind some = _
  exact Option.bind_fun_some (lt.write w)

/-! ## §2. Writes that keep their widths. -/

/-- The pool has the page's tables in the chunks they got, and the next ones to hand out. -/
structure Placed (p : Pool) (ws : List LevelWrite) (lt : LevelTable) (pt : PooledLevelTable) :
    Prop extends Stores lt pt where
  chunk : ∀ l t, pt.time_tables l = .table t → l ∈ writeOrder ws ∧ t.array = chunkOf p ws l
  next : ∀ n, pt.pool.handedOut n = p.handedOut ((writeOrder ws).length + n)

theorem placed_new (compressed : Bool) (p : Pool) : Placed p [] (.new compressed) (.new p) where
  toStores := stores_new compressed p
  chunk _ _ h := by cases h
  next n := by
    show p.handedOut n = p.handedOut (0 + n)
    rw [Nat.zero_add]

variable {p : Pool} {pg : ℕ} {ws : List LevelWrite} {w : LevelWrite} {lt lt' : LevelTable}
  {pt : PooledLevelTable}

theorem mem_writeOrder_concat {l : ℕ} (hl : l ∈ writeOrder ws) : l ∈ writeOrder (ws ++ [w]) := by
  rw [writeOrder_concat]
  split
  · exact hl
  · exact List.mem_append_left _ hl

/-- A first write at a level. -/
theorem Placed.write_new (h : Placed p ws lt pt)
    (haligned : w.type = .type_64bit → w.addr % 8 = 0) (hnew : w.level ∉ writeOrder ws)
    (hnull : lt.time_tables w.level = .null) (hw : lt.write w = some lt') :
    ∃ pt', pt.write w = some pt' ∧ Placed p (ws ++ [w]) lt' pt' := by
  rw [LevelTable.write_of_null hnull, Option.some.injEq] at hw
  subst hw
  refine ⟨_, set_of_null ((h.null_iff _).mpr hnull), h.set_null haligned hnull,
    fun l t ht => ?_, fun n => ?_⟩
  · replace ht : Function.update pt.time_tables w.level
      (.table (PooledTable.new w.type pt.pool).1) l = .table t := ht
    by_cases hl : l = w.level
    · subst hl
      rw [Function.update_self, PooledTablePtr.table.injEq] at ht
      rw [← ht, chunkOf_new p hnew, writeOrder_concat, if_neg hnew]
      exact ⟨List.mem_append_right _ (List.mem_singleton_self _), h.next 0⟩
    · rw [Function.update_of_ne hl] at ht
      obtain ⟨hmem, hchunk⟩ := h.chunk l t ht
      exact ⟨mem_writeOrder_concat hmem, hchunk.trans (chunkOf_concat p hmem).symm⟩
  · show Pool.handedOut (PooledTable.setTimeAtAddr _ _ _ _ _) n = _
    rw [PooledTable.handedOut_setTimeAtAddr, PooledTable.handedOut_new, h.next,
      writeOrder_concat, if_neg hnew, List.length_append, List.length_singleton]
    congr 1
    omega

/-- A later write. -/
theorem Placed.write_again (h : Placed p ws lt pt)
    (haligned : w.type = .type_64bit → w.addr % 8 = 0) {own : TimeTable}
    (hown : lt.time_tables w.level = .table own)
    (hnot : ¬(w.type = .type_32bit ∧ own.type = .type_64bit)) (hw : lt.write w = some lt') :
    ∃ pt', pt.write w = some pt' ∧ Placed p (ws ++ [w]) lt' pt' := by
  obtain ⟨t, ht, htype⟩ := h.table hown
  have hmem := (h.chunk _ t ht).1
  rw [LevelTable.write_of_table hown hnot, Option.some.injEq] at hw
  subst hw
  refine ⟨_, set_of_table ht (htype ▸ hnot), h.set_table haligned hown ht htype,
    fun l t' ht' => ?_, fun n => ?_⟩
  · replace ht' : Function.update pt.time_tables w.level (.table t) l = .table t' := ht'
    rw [← ht, Function.update_eq_self] at ht'
    obtain ⟨hl, hchunk⟩ := h.chunk l t' ht'
    exact ⟨mem_writeOrder_concat hl, hchunk.trans (chunkOf_concat p hl).symm⟩
  · show Pool.handedOut (PooledTable.setTimeAtAddr _ _ _ _ _) n = _
    rw [PooledTable.handedOut_setTimeAtAddr, writeOrder_concat, if_pos hmem, ← h.next]
    split
    · rfl
    · rw [PooledTable.handedOut_clean]

/-- **Any number of writes of the right widths.** -/
theorem placed_writes (p : Pool) {pg : ℕ} {ws : List LevelWrite} (hpg : PageWrites pg ws)
    (hk : KeepsWidth ws) :
    ∃ lt pt, writes p ws = some pt ∧ LevelTable.Tracks pg ws lt ∧ Placed p ws lt pt := by
  induction ws using List.reverseRecOn with
  | nil => exact ⟨_, _, rfl, LevelTable.tracks_new false pg, placed_new false p⟩
  | append_singleton ws w ih =>
      obtain ⟨lt, pt, hrun, htracks, hplaced⟩ := ih hpg.left hk.left
      obtain ⟨lt', hw, htracks'⟩ := htracks.write hpg hk
      have haligned := hpg.aligned_64 w (List.mem_append_right _ (List.mem_singleton_self w))
      have hstep : ∃ pt', pt.write w = some pt' ∧ Placed p (ws ++ [w]) lt' pt' := by
        cases hf : firstWrite ws w.level with
        | none =>
            exact hplaced.write_new haligned (fun hl => mem_writeOrder.mp hl hf)
              (htracks.untouched w.level hf) hw
        | some first =>
            obtain ⟨own, hown, -⟩ := htracks.table w.level first hf
            exact hplaced.write_again haligned hown (htracks.not_narrow hk hown) hw
      obtain ⟨pt', hw', hplaced'⟩ := hstep
      exact ⟨lt', pt', by rw [writes_concat, hrun]; exact hw', htracks', hplaced'⟩

/-! ## §3. Reading. -/

/-- Every entry is that of an address of the page. -/
theorem exists_word (type : TableType) (pg : ℕ) {i : ℕ} (hi : i < GetNumEntries type) :
    ∃ word, word % 4 = 0 ∧ page word = pg ∧ type.getIndex word = i := by
  cases type with
  | type_64bit =>
      rw [TimeTable.GetNumEntries_64bit] at hi
      refine ⟨4096 * pg + 8 * i, by omega, ?_, ?_⟩
      · unfold page
        omega
      · rw [TimeTable.type_getIndex_eq, if_pos rfl]
        omega
  | type_32bit =>
      rw [TimeTable.GetNumEntries_32bit] at hi
      refine ⟨4096 * pg + 4 * i, by omega, ?_, ?_⟩
      · unfold page
        omega
      · rw [TimeTable.type_getIndex_eq, if_neg (by decide)]
        omega

/-- A level that was written: its table, and the word of the pool for an address. -/
theorem Placed.cell (h : Placed p ws lt pt) (htracks : LevelTable.Tracks pg ws lt) {l : ℕ}
    {first : LevelWrite} (hf : firstWrite ws l = some first) {word : ℕ} (hword : page word = pg) :
    ∃ a, cellOf p ws l word = some a ∧ pt.Cell l (first.type.getIndex word) a ∧
      pt.getTimeForAddrAtLevel l word (lastVersion ws l) = some (pt.pool.words a) ∧
      lt.entry l (first.type.getIndex word) = lastTime ws l word (lastVersion ws l) := by
  obtain ⟨own, hown, -, htype, hread⟩ := htracks.table l first hf
  obtain ⟨t, ht, hsame⟩ := h.table hown
  obtain ⟨-, hchunk⟩ := h.chunk l t ht
  have hfirst : t.type = first.type := hsame.trans htype
  refine ⟨t.array + 8 * first.type.getIndex word, ?_, ⟨t, ht, ?_, rfl⟩, ?_, ?_⟩
  · rw [cellOf, hf, hchunk]
    rfl
  · rw [hfirst]
    exact TimeTable.type_getIndex_lt _ _
  · unfold getTimeForAddrAtLevel
    rw [h.versions, htracks.version, if_pos rfl, ht, ← hfirst]
    rfl
  · rw [← hread word hword, LevelTable.entry, hown, ← htype]
    rfl

/-- **What a word reads**, if the tables that share its word of the pool agree. -/
theorem Placed.readsLast (h : Placed p ws lt pt) (htracks : LevelTable.Tracks pg ws lt)
    (hpg : PageWrites pg ws) (hagree : AgreesWhereShared p pg ws) {level word ver : ℕ}
    (haligned : word % 4 = 0) (hword : page word = pg) (hver : lastVersion ws level ≤ ver) :
    pt.getTimeForAddrAtLevel level word ver = some (lastTime ws level word ver) := by
  by_cases hv : lastVersion ws level = ver
  · subst hv
    cases hf : firstWrite ws level with
    | none =>
        have hnull := htracks.untouched level hf
        rw [← htracks.readsLast hpg hword hver]
        unfold getTimeForAddrAtLevel LevelTable.getTimeForAddrAtLevel
        rw [h.versions, hnull, (h.null_iff level).mpr hnull]
    | some first =>
        obtain ⟨a, ha, hcell, hget, hentry⟩ := h.cell htracks hf hword
        rw [hget, h.words_eq hcell, hentry]
        rintro l' i' ⟨t', ht', hi', rfl⟩
        by_cases hl : l' = level
        · -- the word is one entry of one table only
          subst hl
          obtain ⟨t, ht, -, haddr⟩ := hcell
          rw [ht', PooledTablePtr.table.injEq] at ht
          rw [← ht] at haddr
          rw [show i' = first.type.getIndex word by omega]
        · obtain ⟨first', hf'⟩ := Option.ne_none_iff_exists'.mp
            (mem_writeOrder.mp (h.chunk l' t' ht').1)
          obtain ⟨own', hown', -, htype', -⟩ := htracks.table l' first' hf'
          obtain ⟨t'', ht'', hsame⟩ := h.table hown'
          rw [ht', PooledTablePtr.table.injEq] at ht''
          subst ht''
          have hwide : t'.type = first'.type := hsame.trans htype'
          obtain ⟨word', haligned', hword', hindex⟩ := exists_word t'.type pg hi'
          obtain ⟨a', ha', ⟨t'', ht'', -, rfl⟩, -, hentry'⟩ := h.cell htracks hf' hword'
          rw [ht', PooledTablePtr.table.injEq] at ht''
          subst ht''
          rw [← hwide, hindex] at ha' hentry'
          rw [hentry, hentry']
          exact (hagree level l' word word' _ (Ne.symm hl) haligned haligned' hword hword' ha
            ha').symm
  · unfold getTimeForAddrAtLevel
    rw [h.versions, htracks.version, if_neg hv, hpg.lastTime_newer (by omega)]

/-- Levels that share a word read one time there. -/
theorem agreesWhereShared_of_readsLast (hpg : PageWrites pg ws) (hk : KeepsWidth ws)
    (hreads : ReadsLast p pg ws) : AgreesWhereShared p pg ws := by
  obtain ⟨lt, pt, hrun, htracks, h⟩ := placed_writes p hpg hk
  -- what is read at a level is the word of the pool
  have hword : ∀ l word a, word % 4 = 0 → page word = pg → cellOf p ws l word = some a →
      pt.pool.words a = lastTime ws l word (lastVersion ws l) := by
    intro l word a haligned hword ha
    obtain ⟨first, hf, -⟩ := Option.map_eq_some_iff.mp ha
    obtain ⟨a', ha', -, hget, -⟩ := h.cell htracks hf hword
    rw [ha, Option.some.injEq] at ha'
    subst ha'
    have hlevel : l < LevelTable.MAX_LEVEL := by
      obtain ⟨hmem, rfl⟩ := firstWrite_mem hf
      exact hpg.levels first hmem
    have hread := hreads l word _ hlevel haligned hword (Nat.le_refl _)
    rw [hrun, Option.bind_some, hget, Option.some.injEq] at hread
    exact hread
  intro level level' word word' a _ haligned haligned' hpage hpage' ha ha'
  rw [← hword level word a haligned hpage ha, hword level' word' a haligned' hpage' ha']

/-- The two pages meet a deleted table together. -/
theorem shaped_writes (p : Pool) (ws : List LevelWrite) :
    (LevelTable.writes false ws = none ∧ writes p ws = none) ∨
      ∃ lt pt, LevelTable.writes false ws = some lt ∧ writes p ws = some pt ∧ Shaped lt pt := by
  induction ws using List.reverseRecOn with
  | nil => exact .inr ⟨_, _, rfl, rfl, shaped_new false p⟩
  | append_singleton ws w ih =>
      rw [LevelTable.writes_concat, writes_concat]
      rcases ih with ⟨hown, hpool⟩ | ⟨lt, pt, hown, hpool, hshaped⟩
      · exact .inl ⟨by rw [hown]; rfl, by rw [hpool]; rfl⟩
      · rw [hown, hpool, Option.bind_some, Option.bind_some]
        rcases hshaped.set w.level w.addr w.ver w.value w.type with
          ⟨hnone, hnone'⟩ | ⟨lt', es, pt', hset, hset', hshaped'⟩
        · exact .inl ⟨by rw [LevelTable.write, hnone]; rfl, hnone'⟩
        · exact .inr ⟨lt', pt', by rw [LevelTable.write, hset]; rfl, hset', hshaped'⟩

/-- Writes that do not keep their widths leave a level that reads a deleted table. -/
theorem keepsWidth_of_readsLast (hpg : PageWrites pg ws) (hreads : ReadsLast p pg ws) :
    KeepsWidth ws := by
  by_contra hbad
  have hread := fun level (hlevel : level < LevelTable.MAX_LEVEL) =>
    hreads level (pg * 4096) (lastVersion ws level) hlevel (by omega)
      (Nat.mul_div_cancel pg (by decide)) (Nat.le_refl _)
  rcases shaped_writes p ws with ⟨-, hnone⟩ | ⟨lt, pt, hown, hpool, hshaped⟩
  · have h := hread 0 (by decide)
    rw [hnone] at h
    cases h
  · obtain ⟨w, hw, hfreed⟩ := LevelTable.freed_of_not_keepsWidth hpg hbad hown
    have h := hread w.level (hpg.levels w hw)
    rw [hpool, Option.bind_some, getTimeForAddrAtLevel, hshaped.versions,
      LevelTable.versions_writes hown, if_pos rfl, hshaped.freed hfreed] at h
    cases h

/-- **Only tables made one after the other share words**, and of these the later one is a
32-bit table. -/
theorem next_of_shared (mmap64 : ℕ → ℕ) (hpg : PageWrites pg ws) {level level' word word' a : ℕ}
    (ha : cellOf (.initPool mmap64) ws level word = some a)
    (ha' : cellOf (.initPool mmap64) ws level' word' = some a)
    (hbefore : (writeOrder ws).idxOf level < (writeOrder ws).idxOf level') :
    (writeOrder ws).idxOf level' = (writeOrder ws).idxOf level + 1 ∧
      ∃ first, firstWrite ws level' = some first ∧ first.type = .type_32bit := by
  obtain ⟨first, hf, ha⟩ := Option.map_eq_some_iff.mp ha
  obtain ⟨first', hf', ha'⟩ := Option.map_eq_some_iff.mp ha'
  have hlen := length_writeOrder_le hpg
  have hmax : LevelTable.MAX_LEVEL = 64 := rfl
  have hlast : (writeOrder ws).idxOf level' < (writeOrder ws).length :=
    List.idxOf_lt_length_of_mem (mem_writeOrder.mpr (by rw [hf']; exact Option.some_ne_none _))
  rw [chunkOf, Pool.handedOut_initPool mmap64 (by omega)] at ha ha'
  have hindex := TimeTable.type_getIndex_lt first'.type word'
  cases htype : first'.type with
  | type_64bit =>
      rw [htype, TimeTable.GetNumEntries_64bit] at hindex
      rw [htype] at ha'
      omega
  | type_32bit =>
      rw [htype, TimeTable.GetNumEntries_32bit] at hindex
      rw [htype] at ha'
      exact ⟨by omega, first', hf', htype⟩

/-- **No words are shared** if no table but the first is a 32-bit table. -/
theorem agreesWhereShared_of_wide (mmap64 : ℕ → ℕ) (hpg : PageWrites pg ws)
    (hwide : ∀ level first, firstWrite ws level = some first → first.type = .type_32bit →
      (writeOrder ws).idxOf level = 0) : AgreesWhereShared (.initPool mmap64) pg ws := by
  intro level level' word word' a hne _ _ _ _ ha ha'
  have hmem : level ∈ writeOrder ws := by
    obtain ⟨first, hf, -⟩ := Option.map_eq_some_iff.mp ha
    exact mem_writeOrder.mpr (by rw [hf]; exact Option.some_ne_none _)
  rcases Nat.lt_trichotomy ((writeOrder ws).idxOf level) ((writeOrder ws).idxOf level') with
    hlt | heq | hgt
  · obtain ⟨hnext, first, hf, h32⟩ := next_of_shared mmap64 hpg ha ha' hlt
    have hzero := hwide level' first hf h32
    omega
  · exact absurd ((List.idxOf_inj hmem).mp heq) hne
  · obtain ⟨hnext, first, hf, h32⟩ := next_of_shared mmap64 hpg ha' ha hgt
    have hzero := hwide level first hf h32
    omega

/-- **A page of 64-bit tables**, as `MShadowSkadu` makes them, reads its last writes. -/
theorem readsLast_of_64bit (mmap64 : ℕ → ℕ) (hpg : PageWrites pg ws)
    (hwide : ∀ w ∈ ws, w.type = .type_64bit) : ReadsLast (.initPool mmap64) pg ws := by
  intro level word ver _ haligned hword hver
  have hk : KeepsWidth ws := fun _ _ _ _ w hw _ => hwide w hw
  have hagree := agreesWhereShared_of_wide mmap64 hpg fun level first hf h32 => by
    rw [hwide first (firstWrite_mem hf).1] at h32
    cases h32
  obtain ⟨lt, pt, hrun, htracks, h⟩ := placed_writes (.initPool mmap64) hpg hk
  rw [hrun]
  exact h.readsLast htracks hpg hagree haligned hword hver

/-! ### Two writes that are lost, and four that are not. -/

/-- Somewhere to put a mapping. -/
def oneMapping (n : ℕ) : ℕ := 2 ^ 46 + 2 ^ 30 * n

/-- Sixteen bytes into a page: a 64-bit write, then a 32-bit write to its upper
half under the same version. -/
def narrowWrites : List LevelWrite :=
  [⟨0, 16, 1, 7, .type_64bit⟩, ⟨0, 20, 1, 9, .type_32bit⟩]

/-- A 32-bit write at one level, and then at the next. -/
def narrowTables : List LevelWrite :=
  [⟨0, 16, 1, 5, .type_32bit⟩, ⟨1, 16, 1, 7, .type_32bit⟩]

/-- The second table is zeroed over the first one's chunk. -/
theorem narrowTables_zeroed (p : Pool) (h : p.handedOut 0 = p.handedOut 1 + 4096) :
    ((writes p narrowTables).bind fun lt => lt.getTimeForAddrAtLevel 0 16 1) = some 0 := by
  -- the pool after the first write, and its next chunk
  let p₁ := (p.MemPoolAlloc.2.memset (p.handedOut 0) 1024).write (p.handedOut 0) 4 5
  have hnext : p₁.MemPoolAlloc.1 = p.handedOut 1 := by
    show p₁.handedOut 0 = _
    rw [Pool.handedOut_write, Pool.handedOut_memset]
    rfl
  show some (((p₁.MemPoolAlloc.2.memset p₁.MemPoolAlloc.1 1024).write p₁.MemPoolAlloc.1 4 7).words
    (p.handedOut 0 + 8 * 4)) = _
  rw [hnext, h, show p.handedOut 1 + 4096 + 8 * 4 = p.handedOut 1 + 8 * 516 by omega,
    Pool.words_write, if_neg (by decide), Pool.words_memset _ (by decide)]

/-- A 32-bit table, which is written with 64 bits too, and then a 64-bit table, which is
written again under a new version. -/
def widenWrites : List LevelWrite :=
  [⟨0, 20, 1, 9, .type_32bit⟩, ⟨1, 16, 1, 5, .type_64bit⟩, ⟨0, 16, 1, 7, .type_64bit⟩,
    ⟨1, 24, 2, 6, .type_64bit⟩]

end PooledLevelTable

end Kremlin.Shadow
