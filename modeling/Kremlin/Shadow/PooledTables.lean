/-
  Kremlin.Shadow.PooledTables — the tables of a page with their arrays in the pool.

  `LevelTable` gives every table an array of its own.  Here a table has the address
  of its chunk, as in the source, and writes to the memory of the pool.  A 32-bit
  table has twice as many entries as its chunk has words: the upper half of them are
  words of the chunk above, which another table may have.

  Main result:
    * `Stores.set_null`, `Stores.set_table` — a word that tables share has the time
      that one of them, on an array of its own, would have there.
-/
import Kremlin.Shadow.LevelTable
import Kremlin.Shadow.MemMapAllocator

namespace Kremlin.Shadow

open TimeTable (GetNumEntries)

/-! ## §1. The operations. -/

/-- A `TimeTable`: `array` is where its chunk starts. -/
structure PooledTable where
  type : TableType
  size : ℕ
  array : ℕ

namespace PooledTable

/-- The constructor: as much is zeroed as the type has entries, whatever the chunk has. -/
def new (size_type : TableType) (p : Pool) : PooledTable × Pool :=
  let array := p.MemPoolAlloc.1
  (⟨size_type, TIMETABLE_BYTES, array⟩, p.MemPoolAlloc.2.memset array (GetNumEntries size_type))

/-- The destructor. -/
def delete (t : PooledTable) (p : Pool) : Pool := p.MemPoolFree t.array

/-- `TimeTable::clean`: as many words are cleared as the table's width has, whatever the chunk
holds. -/
def clean (t : PooledTable) (p : Pool) : Pool := p.memset t.array (GetNumEntries t.type)

/-- `TimeTable::getIndex`. -/
def getIndex (t : PooledTable) (addr : ℕ) : ℕ := t.type.getIndex addr

/-- `TimeTable::getTimeAtAddr`. -/
def getTimeAtAddr (t : PooledTable) (p : Pool) (addr : ℕ) : Time :=
  p.words (t.array + 8 * t.getIndex addr)

/-- `TimeTable::setTimeAtAddr`: a wide access fills both words of a narrow table. -/
def setTimeAtAddr (t : PooledTable) (p : Pool) (addr : ℕ) (time : Time)
    (access_type : TableType) : Pool :=
  let index := t.getIndex addr
  let p := p.write t.array index time
  if t.type = .type_32bit ∧ access_type = .type_64bit then p.write t.array (index + 1) time
  else p

/-- The entries are copied one by one: where the two arrays overlap, later ones read
what was written for the ones before. -/
def create32BitClone (t : PooledTable) (p : Pool) : PooledTable × Pool :=
  let ret := (new .type_32bit p).1
  let copy (p : Pool) (i : ℕ) : Pool :=
    let p := p.write ret.array (i * 2) (p.words (t.array + 8 * i))
    p.write ret.array (i * 2 + 1) (p.words (t.array + 8 * i))
  (ret, (List.range (TIMETABLE_SIZE / 2)).foldl copy (new .type_32bit p).2)

end PooledTable

/-- What an entry of `time_tables` points to, as `TimeTablePtr` has it. -/
inductive PooledTablePtr where
  | null
  | table (t : PooledTable)
  | freed

/-- A `LevelTable`, and the pool. -/
structure PooledLevelTable where
  versions : ℕ → ℕ
  time_tables : ℕ → PooledTablePtr
  pool : Pool

namespace PooledLevelTable

/-- A page without tables over a pool. -/
def new (pool : Pool) : PooledLevelTable where
  versions _ := 0
  time_tables _ := .null
  pool := pool

/-- `LevelTable::getTimeForAddrAtLevel`, read from the pool's words. -/
def getTimeForAddrAtLevel (lt : PooledLevelTable) (level addr curr_ver : ℕ) : Option Time :=
  if lt.versions level = curr_ver then
    match lt.time_tables level with
    | .null => some 0
    | .table table => some (table.getTimeAtAddr lt.pool addr)
    | .freed => none
  else some 0

/-- The pointer and the version of a level, and the memory, are written. -/
def put (lt : PooledLevelTable) (level ver : ℕ) (table : PooledTablePtr) (pool : Pool) :
    PooledLevelTable where
  versions := Function.update lt.versions level ver
  time_tables := Function.update lt.time_tables level table
  pool := pool

/-- `LevelTable::setTimeForAddrAtLevel`, with the tables in the pool. -/
def setTimeForAddrAtLevel (lt : PooledLevelTable) (level addr curr_ver : ℕ) (value : Time)
    (type : TableType) : Option PooledLevelTable :=
  match lt.time_tables level with
  | .freed => none
  | .null =>
      let (table, pool) := PooledTable.new type lt.pool
      some (lt.put level curr_ver (.table table) (table.setTimeAtAddr pool addr value type))
  | .table old =>
      if type = .type_32bit ∧ old.type = .type_64bit then
        -- the clone is written and dropped: `time_tables` keeps the pointer to `old`
        let (table, pool) := old.create32BitClone lt.pool
        let pool := old.delete pool
        let pool := if lt.versions level = curr_ver then pool else table.clean pool
        some (lt.put level curr_ver .freed (table.setTimeAtAddr pool addr value type))
      else
        let pool := if lt.versions level = curr_ver then lt.pool else old.clean lt.pool
        some (lt.put level curr_ver (.table old) (old.setTimeAtAddr pool addr value type))

end PooledLevelTable

/-! ## §2. The entries of one table. -/

namespace Pool

theorem words_write (p : Pool) (array i j : ℕ) (time : Time) :
    (p.write array i time).words (array + 8 * j) =
      if j = i then time else p.words (array + 8 * j) := by
  show (if array + 8 * j = array + 8 * i then time else p.words (array + 8 * j)) = _
  exact if_congr (by omega) rfl rfl

theorem words_memset (p : Pool) {array size j : ℕ} (hj : j < size) :
    (p.memset array size).words (array + 8 * j) = 0 :=
  if_pos ⟨by omega, by omega, by omega⟩

/-- Nothing but the array is zeroed. -/
theorem words_memset_of_ne (p : Pool) {array size a : ℕ}
    (ha : ∀ j < size, a ≠ array + 8 * j) : (p.memset array size).words a = p.words a := by
  refine if_neg fun h => ha ((a - array) / 8) ?_ ?_ <;> omega

end Pool

namespace PooledTable

variable {t : PooledTable} {own : TimeTable} {addr : ℕ} {time : Time} {access_type : TableType}

variable (addr time access_type) in
/-- **A write changes the entry in both**, the table of the pool and the one on its own
array, or in neither. -/
theorem words_setTimeAtAddr (htype : t.type = own.type) (hsized : own.Sized) (p : Pool) {j : ℕ}
    (hj : j < GetNumEntries t.type) :
    (t.setTimeAtAddr p addr time access_type).words (t.array + 8 * j) = time ∧
        (own.setTimeAtAddr addr time access_type).array.getD j 0 = time ∨
      (t.setTimeAtAddr p addr time access_type).words (t.array + 8 * j) =
          p.words (t.array + 8 * j) ∧
        (own.setTimeAtAddr addr time access_type).array.getD j 0 = own.array.getD j 0 := by
  have hlen : j < own.array.length := by rwa [hsized, ← htype]
  have hset : ∀ (a : List Time) (i : ℕ), j < a.length →
      (a.set i time).getD j 0 = if j = i then time else a.getD j 0 := by
    intro a i hja
    rw [List.getD_eq_getElem?_getD, List.getElem?_set, List.getD_eq_getElem?_getD]
    by_cases hi : i = j
    · subst hi
      rw [if_pos rfl, if_pos hja, if_pos rfl]
      rfl
    · rw [if_neg hi, if_neg fun h => hi h.symm]
  have hindex : own.getIndex addr = t.getIndex addr := by
    unfold TimeTable.getIndex getIndex
    rw [htype]
  unfold setTimeAtAddr TimeTable.setTimeAtAddr
  dsimp only
  rw [hindex, ← htype]
  -- a 64-bit write to a 32-bit table goes to two entries
  by_cases hboth : t.type = .type_32bit ∧ access_type = .type_64bit
  · rw [if_pos hboth, if_pos hboth, Pool.words_write, Pool.words_write,
      hset _ _ (by rwa [List.length_set]), hset _ _ hlen]
    by_cases h1 : j = t.getIndex addr + 1
    · exact .inl ⟨if_pos h1, if_pos h1⟩
    · rw [if_neg h1, if_neg h1]
      by_cases h0 : j = t.getIndex addr
      · exact .inl ⟨if_pos h0, if_pos h0⟩
      · exact .inr ⟨if_neg h0, if_neg h0⟩
  · rw [if_neg hboth, if_neg hboth, Pool.words_write, hset _ _ hlen]
    by_cases h0 : j = t.getIndex addr
    · exact .inl ⟨if_pos h0, if_pos h0⟩
    · exact .inr ⟨if_neg h0, if_neg h0⟩

/-- A write goes to no word outside of the array. -/
theorem words_setTimeAtAddr_of_ne (haligned : access_type = .type_64bit → addr % 8 = 0)
    (p : Pool) {a : ℕ} (ha : ∀ j < GetNumEntries t.type, a ≠ t.array + 8 * j) :
    (t.setTimeAtAddr p addr time access_type).words a = p.words a := by
  have hindex := TimeTable.type_getIndex_lt t.type addr
  have hfirst : (p.write t.array (t.getIndex addr) time).words a = p.words a :=
    if_neg (ha _ hindex)
  unfold setTimeAtAddr
  dsimp only
  split
  · next hboth =>
      have hnext : t.getIndex addr + 1 < GetNumEntries t.type := by
        have heven := haligned hboth.2
        unfold getIndex at hindex ⊢
        rw [TimeTable.type_getIndex_eq, hboth.1] at hindex ⊢
        simp only [reduceCtorEq, if_false, TimeTable.GetNumEntries_32bit] at hindex ⊢
        omega
      exact (if_neg (ha _ hnext)).trans hfirst
  · exact hfirst

/-- A new table takes one chunk. -/
theorem handedOut_new (type : TableType) (p : Pool) (n : ℕ) :
    (new type p).2.handedOut n = p.handedOut (n + 1) := by
  unfold new
  rw [Pool.handedOut_memset]
  rfl

@[simp] theorem handedOut_clean (p : Pool) (n : ℕ) :
    (t.clean p).handedOut n = p.handedOut n := by
  unfold clean
  rw [Pool.handedOut_memset]

@[simp] theorem handedOut_setTimeAtAddr (p : Pool) (n : ℕ) :
    (t.setTimeAtAddr p addr time access_type).handedOut n = p.handedOut n := by
  unfold setTimeAtAddr
  dsimp only
  split
  · rw [Pool.handedOut_write, Pool.handedOut_write]
  · rw [Pool.handedOut_write]

end PooledTable

/-! ## §3. A page in the pool and a page whose tables have their own arrays. -/

namespace PooledLevelTable

/-- One pointer of each, to tables of one type. -/
def SamePtr : PooledTablePtr → TimeTablePtr → Prop
  | .null, .null => True
  | .freed, .freed => True
  | .table t, .table own => t.type = own.type
  | _, _ => False

/-- The two pages have the same versions and pointers. -/
structure Shaped (lt : LevelTable) (pt : PooledLevelTable) : Prop where
  versions : pt.versions = lt.versions
  tables : ∀ l, SamePtr (pt.time_tables l) (lt.time_tables l)

theorem shaped_new (compressed : Bool) (p : Pool) : Shaped (.new compressed) (.new p) :=
  ⟨rfl, fun _ => trivial⟩

variable {lt : LevelTable} {pt : PooledLevelTable} {level addr ver : ℕ} {value : Time}
  {type : TableType}

theorem Shaped.null_iff (h : Shaped lt pt) (l : ℕ) :
    pt.time_tables l = .null ↔ lt.time_tables l = .null := by
  have htables := h.tables l
  cases hp : pt.time_tables l <;> cases hl : lt.time_tables l <;> rw [hp, hl] at htables <;>
    simp_all [SamePtr]

theorem Shaped.freed (h : Shaped lt pt) {l : ℕ} (hfreed : lt.time_tables l = .freed) :
    pt.time_tables l = .freed := by
  have htables := h.tables l
  rw [hfreed] at htables
  cases hp : pt.time_tables l with
  | freed => rfl
  | null | table t =>
      rw [hp] at htables
      exact htables.elim

theorem Shaped.table (h : Shaped lt pt) {l : ℕ} {own : TimeTable}
    (hown : lt.time_tables l = .table own) :
    ∃ t, pt.time_tables l = .table t ∧ t.type = own.type := by
  have htables := h.tables l
  rw [hown] at htables
  cases hp : pt.time_tables l with
  | table t =>
      rw [hp] at htables
      exact ⟨t, rfl, htables⟩
  | null | freed =>
      rw [hp] at htables
      exact htables.elim

/-- The pointer and the version of one level are written in both. -/
theorem Shaped.put (h : Shaped lt pt) {ptr : PooledTablePtr} {own : TimeTablePtr} (pool : Pool)
    (hptr : SamePtr ptr own) :
    Shaped ((lt.setTimeTableAtLevel level own).setVersionAtLevel level ver)
      (pt.put level ver ptr pool) := by
  refine ⟨?_, fun l => ?_⟩
  · show Function.update pt.versions level ver = Function.update lt.versions level ver
    rw [h.versions]
  show SamePtr (Function.update pt.time_tables level ptr l)
    (Function.update lt.time_tables level own l)
  rw [Function.update_apply, Function.update_apply]
  split
  · exact hptr
  · exact h.tables l

variable (level addr ver value type) in
/-- **Each write of the one is a write of the other**, and both reach a deleted table or
neither does. -/
theorem Shaped.set (h : Shaped lt pt) :
    (lt.setTimeForAddrAtLevel level addr ver value type = none ∧
        pt.setTimeForAddrAtLevel level addr ver value type = none) ∨
      ∃ lt' es pt', lt.setTimeForAddrAtLevel level addr ver value type = some (lt', es) ∧
        pt.setTimeForAddrAtLevel level addr ver value type = some pt' ∧ Shaped lt' pt' := by
  cases hl : lt.time_tables level with
  | freed =>
      refine .inl ⟨?_, ?_⟩
      · rw [LevelTable.setTimeForAddrAtLevel, hl]
      · rw [setTimeForAddrAtLevel, h.freed hl]
  | null =>
      right
      rw [LevelTable.setTimeForAddrAtLevel, hl, setTimeForAddrAtLevel, (h.null_iff level).mpr hl]
      exact ⟨_, _, _, rfl, rfl, h.put _ rfl⟩
  | table own =>
      right
      obtain ⟨t, ht, htype⟩ := h.table hl
      rw [LevelTable.setTimeForAddrAtLevel, hl, setTimeForAddrAtLevel, ht]
      dsimp only
      rw [htype]
      split
      · exact ⟨_, _, _, rfl, rfl, h.put _ trivial⟩
      · refine ⟨_, _, _, rfl, rfl, h.put _ ?_⟩
        show t.type = _
        split <;> exact htype

/-- A first write at a level makes its table. -/
theorem set_of_null (hp : pt.time_tables level = .null) :
    pt.setTimeForAddrAtLevel level addr ver value type =
      some (pt.put level ver (.table (PooledTable.new type pt.pool).1)
        ((PooledTable.new type pt.pool).1.setTimeAtAddr (PooledTable.new type pt.pool).2 addr value
          type)) := by
  unfold setTimeForAddrAtLevel
  rw [hp]

/-- A later one keeps the table, cleaned if its version is old. -/
theorem set_of_table {t : PooledTable} (hp : pt.time_tables level = .table t)
    (hnot : ¬(type = .type_32bit ∧ t.type = .type_64bit)) :
    pt.setTimeForAddrAtLevel level addr ver value type =
      some (pt.put level ver (.table t) (t.setTimeAtAddr
        (if pt.versions level = ver then pt.pool else t.clean pt.pool) addr value type)) := by
  unfold setTimeForAddrAtLevel
  rw [hp]
  exact if_neg hnot

/-- The word of the pool that is entry `i` of the table of level `l`. -/
def Cell (pt : PooledLevelTable) (l i a : ℕ) : Prop :=
  ∃ t, pt.time_tables l = .table t ∧ i < GetNumEntries t.type ∧ a = t.array + 8 * i

end PooledLevelTable

/-- Entry `i` of the table of level `l`. -/
def LevelTable.entry (lt : LevelTable) (l i : ℕ) : Time :=
  match lt.time_tables l with
  | .table own => own.array.getD i 0
  | _ => 0

namespace PooledLevelTable

/-- **What is in the pool**: in each word of a table, what one of the tables that have this
word would have there on an array of its own. -/
structure Stores (lt : LevelTable) (pt : PooledLevelTable) : Prop extends Shaped lt pt where
  sized : ∀ l own, lt.time_tables l = .table own → own.Sized
  content : ∀ l i a, pt.Cell l i a →
    ∃ l' i', pt.Cell l' i' a ∧ pt.pool.words a = lt.entry l' i'

theorem stores_new (compressed : Bool) (p : Pool) : Stores (.new compressed) (.new p) where
  toShaped := shaped_new compressed p
  sized _ _ h := by cases h
  content _ _ _ h := by
    obtain ⟨t, ht, -⟩ := h
    cases ht

variable {lt : LevelTable} {pt : PooledLevelTable} {level addr ver : ℕ} {value : Time}
  {type : TableType}

/-- **One table is written.**  Its entries then have what they would have on its own array,
or had already been written by another table that has them; all else is as it was. -/
theorem Stores.put (h : Stores lt pt) {t : PooledTable} {own : TimeTable} {pool : Pool}
    (htype : t.type = own.type) (hsized : own.Sized)
    (hold : pt.time_tables level = .null ∨ pt.time_tables level = .table t)
    (hwords : ∀ j < GetNumEntries t.type,
      pool.words (t.array + 8 * j) = own.array.getD j 0 ∨
        pt.time_tables level = .table t ∧
          pool.words (t.array + 8 * j) = pt.pool.words (t.array + 8 * j) ∧
          own.array.getD j 0 = lt.entry level j)
    (hother : ∀ a, (∀ j < GetNumEntries t.type, a ≠ t.array + 8 * j) →
      pool.words a = pt.pool.words a) :
    Stores ((lt.setTimeTableAtLevel level (.table own)).setVersionAtLevel level ver)
      (pt.put level ver (.table t) pool) := by
  have hself : ∀ j, LevelTable.entry
      ((lt.setTimeTableAtLevel level (.table own)).setVersionAtLevel level ver) level j =
        own.array.getD j 0 := by
    intro j
    simp only [LevelTable.entry, LevelTable.time_tables_setVersionAtLevel,
      LevelTable.time_tables_setTimeTableAtLevel, Function.update_self]
  have hentry : ∀ l i, l ≠ level → LevelTable.entry
      ((lt.setTimeTableAtLevel level (.table own)).setVersionAtLevel level ver) l i =
        lt.entry l i := by
    intro l i hl
    simp only [LevelTable.entry, LevelTable.time_tables_setVersionAtLevel,
      LevelTable.time_tables_setTimeTableAtLevel, Function.update_of_ne hl]
  have hcell : ∀ j < GetNumEntries t.type,
      (pt.put level ver (.table t) pool).Cell level j (t.array + 8 * j) :=
    fun j hj => ⟨t, Function.update_self _ _ _, hj, rfl⟩
  have hcells : ∀ l i a, l ≠ level →
      ((pt.put level ver (.table t) pool).Cell l i a ↔ pt.Cell l i a) := by
    intro l i a hl
    unfold Cell PooledLevelTable.put
    dsimp only
    rw [Function.update_of_ne hl]
  refine ⟨h.toShaped.put pool htype, ?_, ?_⟩
  · intro l own' hown'
    by_cases hl : l = level
    · subst hl
      have hself' : Function.update lt.time_tables l (.table own) l = .table own' := hown'
      rw [Function.update_self, TimeTablePtr.table.injEq] at hself'
      exact hself' ▸ hsized
    · refine h.sized l own' ?_
      rw [← hown']
      exact (Function.update_of_ne hl _ _).symm
  · intro l i a ha
    by_cases hin : ∃ j < GetNumEntries t.type, a = t.array + 8 * j
    · obtain ⟨j, hj, rfl⟩ := hin
      rcases hwords j hj with hnew | ⟨htable, hsame, hkept⟩
      · exact ⟨level, j, hcell j hj, hnew.trans (hself j).symm⟩
      -- the word was not written: the table that had its time has it still
      · obtain ⟨l', i', hcell', htime⟩ := h.content level j _ ⟨t, htable, hj, rfl⟩
        by_cases hl' : l' = level
        · subst hl'
          refine ⟨l', j, hcell j hj, ?_⟩
          obtain ⟨t', ht', -, haddr⟩ := hcell'
          rw [htable, PooledTablePtr.table.injEq] at ht'
          have hi' : i' = j := by
            rw [← ht'] at haddr
            omega
          show pool.words _ = _
          rw [hsame, htime, hi', hself, hkept]
        · refine ⟨l', i', (hcells l' i' _ hl').mpr hcell', ?_⟩
          show pool.words _ = _
          rw [hsame, htime, hentry l' i' hl']
    · have hout : ∀ j < GetNumEntries t.type, a ≠ t.array + 8 * j :=
        fun j hj heq => hin ⟨j, hj, heq⟩
      have hnot : ∀ l' i', pt.Cell l' i' a → l' ≠ level := by
        rintro l' i' ⟨t', ht', hi', rfl⟩ rfl
        rcases hold with hnull | htable
        · rw [hnull] at ht'
          cases ht'
        · rw [htable, PooledTablePtr.table.injEq] at ht'
          subst ht'
          exact hout i' hi' rfl
      have hl : l ≠ level := by
        rintro rfl
        obtain ⟨t', ht', hi', rfl⟩ := ha
        have hself' : Function.update pt.time_tables l (.table t) l = .table t' := ht'
        rw [Function.update_self, PooledTablePtr.table.injEq] at hself'
        subst hself'
        exact hout i hi' rfl
      obtain ⟨l', i', hcell', htime⟩ := h.content l i a ((hcells l i a hl).mp ha)
      have hl' := hnot l' i' hcell'
      refine ⟨l', i', (hcells l' i' a hl').mpr hcell', ?_⟩
      show pool.words a = _
      rw [hother a hout, htime, hentry l' i' hl']

/-- A write to a table that is made for it. -/
theorem Stores.set_null (h : Stores lt pt) (haligned : type = .type_64bit → addr % 8 = 0)
    (hl : lt.time_tables level = .null) :
    Stores ((lt.setTimeTableAtLevel level
        (.table ((TimeTable.new type).setTimeAtAddr addr value type))).setVersionAtLevel level ver)
      (pt.put level ver (.table (PooledTable.new type pt.pool).1)
        ((PooledTable.new type pt.pool).1.setTimeAtAddr (PooledTable.new type pt.pool).2 addr value
          type)) := by
  have htype : (PooledTable.new type pt.pool).1.type = (TimeTable.new type).type := rfl
  refine h.put htype ((TimeTable.sized_new type).setTimeAtAddr addr value type)
    (.inl ((h.null_iff level).mpr hl)) (fun j hj => .inl ?_) fun a ha => ?_
  · rcases PooledTable.words_setTimeAtAddr addr value type
      htype (TimeTable.sized_new type) (PooledTable.new type pt.pool).2 hj with
      ⟨hpool, hown⟩ | ⟨hpool, hown⟩
    · exact hpool.trans hown.symm
    -- what is not written was zeroed when the table was made
    · have hzero : (TimeTable.new type).array.getD j 0 = 0 := by
        show (List.replicate _ 0).getD j 0 = 0
        rw [List.getD_eq_getElem?_getD, List.getElem?_replicate]
        split <;> rfl
      rw [hpool, hown, hzero]
      exact Pool.words_memset _ hj
  · rw [PooledTable.words_setTimeAtAddr_of_ne haligned _ ha]
    refine (Pool.words_memset_of_ne _ ha).trans ?_
    rw [Pool.words_MemPoolAlloc]

/-- A write to a table that is there. -/
theorem Stores.set_table (h : Stores lt pt) (haligned : type = .type_64bit → addr % 8 = 0)
    {own : TimeTable} (hl : lt.time_tables level = .table own) {t : PooledTable}
    (ht : pt.time_tables level = .table t) (htype : t.type = own.type) :
    Stores ((lt.setTimeTableAtLevel level
        (.table ((if lt.versions level = ver then own else own.clean).setTimeAtAddr addr value
          type))).setVersionAtLevel level ver)
      (pt.put level ver (.table t) (t.setTimeAtAddr
        (if pt.versions level = ver then pt.pool else t.clean pt.pool) addr value type)) := by
  have hentry : ∀ j, lt.entry level j = own.array.getD j 0 := by
    intro j
    unfold LevelTable.entry
    rw [hl]
  rw [h.versions]
  split
  · refine h.put htype ((h.sized level own hl).setTimeAtAddr addr value type) (.inr ht)
      (fun j hj => ?_) fun a ha => PooledTable.words_setTimeAtAddr_of_ne haligned _ ha
    rcases PooledTable.words_setTimeAtAddr addr value type
      htype (h.sized level own hl) pt.pool hj with ⟨hpool, hown⟩ | ⟨hpool, hown⟩
    · exact .inl (hpool.trans hown.symm)
    · exact .inr ⟨ht, hpool, hown.trans (hentry j).symm⟩
  -- a table of an older version is zeroed first, so all of its words are written
  · refine h.put htype ((TimeTable.Sized.clean own).setTimeAtAddr addr value type) (.inr ht)
      (fun j hj => .inl ?_) fun a ha => ?_
    · rcases PooledTable.words_setTimeAtAddr addr value type
        (show t.type = own.clean.type from htype) (TimeTable.Sized.clean own) (t.clean pt.pool) hj
        with ⟨hpool, hown⟩ | ⟨hpool, hown⟩
      · exact hpool.trans hown.symm
      · have hzero : own.clean.array.getD j 0 = 0 := by
          show (List.replicate _ 0).getD j 0 = 0
          rw [List.getD_eq_getElem?_getD, List.getElem?_replicate]
          split <;> rfl
        rw [hpool, hown, hzero]
        exact Pool.words_memset _ hj
    · rw [PooledTable.words_setTimeAtAddr_of_ne haligned _ ha]
      exact Pool.words_memset_of_ne _ ha

/-- A word that all the tables that have it agree on. -/
theorem Stores.words_eq (h : Stores lt pt) {l i a : ℕ} (hcell : pt.Cell l i a)
    (hagree : ∀ l' i', pt.Cell l' i' a → lt.entry l' i' = lt.entry l i) :
    pt.pool.words a = lt.entry l i := by
  obtain ⟨l', i', hcell', htime⟩ := h.content l i a hcell
  exact htime.trans (hagree l' i' hcell')

end PooledLevelTable

end Kremlin.Shadow
