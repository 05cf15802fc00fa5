/-
  Kremlin.Shadow.MShadowBase — a version for every time.

  `MShadowBase` keeps, next to the table of times, a table of versions of the
  same shape, and takes the times of a word as valid up to its last level whose
  version is the current one.  Both tables come from `malloc`, which leaves them
  as it finds them.  §3 says what an access does to the cells of an entry.
-/
import Kremlin.Shadow.Segments

namespace Kremlin.Shadow.Base

open Kremlin.Library

/-! ## §1. An entry. -/

/-- What the two calls of `malloc` an access may make return. -/
structure Malloc where
  times : ℕ → ℕ
  versions : ℕ → ℕ

/-- `startInvalid`, looking at the levels below `size`: behind the last level
whose version is the current one. -/
def startInvalid (vAddr vArray : ℕ → ℕ) : ℕ → ℕ
  | 0 => 0
  | i + 1 => if vArray i = vAddr i then i + 1 else startInvalid vAddr vArray i

/-- `TimeTableGetAddr`: the row of an address, one cell for each level. -/
def timeTableGetAddr (entry : SegEntry) (addr : ℕ) : Option (ℕ → ℕ) :=
  entry.tTable.map fun tTable l => tTable (timeTableGetIndex addr entry.depth entry.type + l)

/-- `convertTable` and, of the versions, `convertVersion`; `ret` is what `malloc`
returned. -/
def convertTable (ret table : ℕ → ℕ) (depth : ℕ) : ℕ → ℕ :=
  splitRows ret table depth (getTimeTableEntrySize .type_64bit)

/-- `checkRefresh`: a wide entry that meets a narrow access is split, its times and its versions
alike. -/
def checkRefresh (m : Malloc) (type : TableType) (entry : SegEntry) : SegEntry :=
  if type = .type_32bit ∧ entry.type = .type_64bit then
    { entry with
      tTable := entry.tTable.map fun tTable => convertTable m.times tTable entry.depth
      versions := convertTable m.versions entry.versions entry.depth
      type := .type_32bit }
  else entry

/-- The first lines of `SegTableSetTime` and `SegTableGetTime`.  The type of a
new entry is not set. -/
def segEntryReady (m : Malloc) (type : TableType) (entry : SegEntry) : SegEntry :=
  match entry.tTable with
  | none => { entry with tTable := some m.times, versions := m.versions }
  | some _ => checkRefresh m type entry

/-- `SegTableSetTime`: the times and the versions of the row are overwritten. -/
def segTableSetTime (m : Malloc) (addr size : ℕ) (vArray tArray : ℕ → ℕ) (type : TableType)
    (entry : SegEntry) : Unit × SegEntry :=
  let entry := segEntryReady m type entry
  let index := timeTableGetIndex addr entry.depth entry.type
  ((), { entry with
    tTable := entry.tTable.map fun tTable => memcpy tTable index tArray 0 size
    versions := memcpy entry.versions index vArray 0 size })

/-- `SegTableGetTime`: the levels from the first stale one on are set to 0 before the row is read.
-/
def segTableGetTime (m : Malloc) (addr size : ℕ) (vArray : ℕ → ℕ) (type : TableType)
    (entry : SegEntry) : Option (ℕ → ℕ) × SegEntry :=
  let entry := segEntryReady m type entry
  let index := timeTableGetIndex addr entry.depth entry.type
  -- `TagValidate`
  let start := startInvalid (fun i => entry.versions (index + i)) vArray size
  let entry' := { entry with
    tTable := entry.tTable.map fun tTable =>
      overwrite tTable (index + start) (size - start) fun _ => 0
    versions := memcpy entry.versions (index + start) vArray start (size - start) }
  (timeTableGetAddr entry' addr, entry')

/-! ## §2. The interface. -/

/-- The length of the counters `reqRead` and `reqWrite`. -/
def REQ_SIZE : ℕ := 64

/-- The pointer returned, as what it points to; `none` inside is `NULL`.  The access
counts in `stat.reqRead[size]`, which is out of range (`none`) from 64 levels on; what
the counters hold is only printed. -/
def get (numProfiledLevels : ℕ) (m : Malloc) (addr size : ℕ) (vArray : ℕ → ℕ) (width : ℕ)
    (sTable : STable) : Option (Option (ℕ → ℕ) × STable) :=
  if size < 1 then some (none, sTable)
  else if REQ_SIZE ≤ size then none
  else withEntry numProfiledLevels addr
    (segTableGetTime m addr size vArray (accessType width)) sTable

/-- `set`; it counts in `stat.reqWrite[size]`. -/
def set (numProfiledLevels : ℕ) (m : Malloc) (addr size : ℕ) (vArray tArray : ℕ → ℕ)
    (width : ℕ) (sTable : STable) : Option STable :=
  if size < 1 then some sTable
  else if REQ_SIZE ≤ size then none
  else (withEntry numProfiledLevels addr
    (segTableSetTime m addr size vArray tArray (accessType width)) sTable).map Prod.snd

/-! ## §3. The cells of a word. -/

/-- The version cell of a level that the access finds. -/
def metVersion (m : Malloc) (entry : SegEntry) (addr l : ℕ) : ℕ :=
  (if entry.tTable = none then m.versions else entry.versions)
    (timeTableGetIndex addr entry.depth entry.type + l)

/-- The time cell it finds. -/
def metTime (m : Malloc) (entry : SegEntry) (addr l : ℕ) : ℕ :=
  entry.tTable.getD m.times (timeTableGetIndex addr entry.depth entry.type + l)

/-- The version cell of a level. -/
def versionCell (entry : SegEntry) (addr l : ℕ) : ℕ :=
  entry.versions (timeTableGetIndex addr entry.depth entry.type + l)

/-- The time cell of a level. -/
def timeCell (tTable : ℕ → ℕ) (entry : SegEntry) (addr l : ℕ) : ℕ :=
  tTable (timeTableGetIndex addr entry.depth entry.type + l)

/-- The access splits the words of an entry only where that goes well. -/
def Splits (type : TableType) (entry : SegEntry) : Prop :=
  type = .type_32bit → entry.type = .type_64bit → entry.tTable ≠ none → entry.depth ≤ 1

instance (type : TableType) (entry : SegEntry) : Decidable (Splits type entry) :=
  inferInstanceAs (Decidable (_ → _ → ¬_ → _))

/-- The type of the entry from this access on. -/
def readyType (type : TableType) (entry : SegEntry) : TableType :=
  if entry.tTable = none then entry.type
  else if type = .type_32bit then .type_32bit else entry.type

/-- **Before the access the cells of every word are as they were**, or those
`malloc` returned. -/
theorem segEntryReady_spec (m : Malloc) {type : TableType} {entry : SegEntry}
    (hsplit : Splits type entry) :
    ∃ tTable, (segEntryReady m type entry).tTable = some tTable ∧
      (segEntryReady m type entry).depth = entry.depth ∧
      (segEntryReady m type entry).type = readyType type entry ∧
      ∀ a, ∀ l < entry.depth,
        versionCell (segEntryReady m type entry) a l = metVersion m entry a l ∧
        timeCell tTable (segEntryReady m type entry) a l = metTime m entry a l := by
  unfold readyType
  cases htable : entry.tTable with
  | none =>
      have hready : segEntryReady m type entry
          = { entry with tTable := some m.times, versions := m.versions } := by
        unfold segEntryReady
        rw [htable]
      rw [hready, if_pos rfl]
      refine ⟨m.times, rfl, rfl, rfl, fun a l _ => ⟨?_, ?_⟩⟩
      · unfold metVersion
        rw [if_pos htable]
        rfl
      · unfold metTime
        rw [htable]
        rfl
  | some tTable =>
      -- an entry in use is refreshed and otherwise kept
      have hready : segEntryReady m type entry = checkRefresh m type entry := by
        unfold segEntryReady
        rw [htable]
      have hne : entry.tTable ≠ none := by
        rw [htable]
        exact Option.some_ne_none _
      have hmet : ∀ a l, metVersion m entry a l = versionCell entry a l := by
        intro a l
        unfold metVersion
        rw [if_neg hne]
        rfl
      have hmet' : ∀ a l, metTime m entry a l = timeCell tTable entry a l := by
        intro a l
        unfold metTime
        rw [htable]
        rfl
      rw [hready, if_neg (Option.some_ne_none _)]
      unfold checkRefresh
      by_cases hconv : type = .type_32bit ∧ entry.type = .type_64bit
      · -- the rows are at most one cell long
        have hdepth := hsplit hconv.1 hconv.2 hne
        rw [if_pos hconv, if_pos hconv.1, htable]
        refine ⟨convertTable m.times tTable entry.depth, rfl, rfl, rfl, fun a l hl => ?_⟩
        have hrow : ∀ ret table : ℕ → ℕ,
            convertTable ret table entry.depth (a / 4 % 2 ^ 14 * entry.depth + l)
              = table (a / 8 % 2 ^ 13 * entry.depth + l) := by
          intro ret table
          have hi : a / 8 % 2 ^ 13 < getTimeTableEntrySize .type_64bit := Nat.mod_lt _ (by decide)
          unfold convertTable
          -- the lower half is copied from the wide row; the upper half only in its last cell,
          -- which here is its only one
          rcases Nat.mod_two_eq_zero_or_one (a / 4) with heven | hodd
          · rw [show a / 4 % 2 ^ 14 = 2 * (a / 8 % 2 ^ 13) by omega,
              splitRows_lower _ _ hi hl, show l = 0 by omega, Nat.mul_comm]
          · rw [show a / 4 % 2 ^ 14 = 2 * (a / 8 % 2 ^ 13) + 1 by omega,
              splitRows_upper _ _ hi hl, if_pos (by omega), show l = 0 by omega,
              show entry.depth - 1 = 0 by omega, Nat.mul_comm]
        rw [hmet, hmet']
        unfold versionCell timeCell timeTableGetIndex
        rw [hconv.2, segTableEntryOffset_64]
        show convertTable _ _ _ (segTableEntryOffset a .type_32bit * entry.depth + l) = _ ∧
          convertTable _ _ _ (segTableEntryOffset a .type_32bit * entry.depth + l) = _
        rw [segTableEntryOffset_32]
        exact ⟨hrow _ _, hrow _ _⟩
      · rw [if_neg hconv, htable]
        refine ⟨tTable, rfl, rfl, ?_, fun a l _ => ⟨(hmet a l).symm, (hmet' a l).symm⟩⟩
        by_cases h32 : type = .type_32bit
        · rw [if_pos h32]
          cases htype : entry.type with
          | type_64bit => exact absurd ⟨h32, htype⟩ hconv
          | type_32bit => rfl
        · rw [if_neg h32]

/-- The levels from `startInvalid` on do not have the current version, and the
one before it has. -/
theorem startInvalid_spec (vAddr vArray : ℕ → ℕ) (n : ℕ) :
    startInvalid vAddr vArray n ≤ n ∧
      (0 < startInvalid vAddr vArray n →
        vArray (startInvalid vAddr vArray n - 1) = vAddr (startInvalid vAddr vArray n - 1)) ∧
      ∀ l, startInvalid vAddr vArray n ≤ l → l < n → vArray l ≠ vAddr l := by
  induction n with
  | zero =>
      refine ⟨Nat.le_refl 0, fun h => absurd h (Nat.lt_irrefl 0), ?_⟩
      intro l _ hl
      exact absurd hl (Nat.not_lt_zero l)
  | succ n ih =>
      unfold startInvalid
      split
      next heq =>
        refine ⟨Nat.le_refl _, fun _ => heq, ?_⟩
        intro l h h'
        exact absurd (Nat.lt_of_le_of_lt h h') (Nat.lt_irrefl _)
      next hne =>
        obtain ⟨hn, hvalid, hinvalid⟩ := ih
        refine ⟨Nat.le_succ_of_le hn, hvalid, ?_⟩
        intro l hl hln
        rcases Nat.lt_or_eq_of_le (Nat.le_of_lt_succ hln) with hlt | heq
        · exact hinvalid l hl hlt
        · subst heq
          exact hne

/-- Two addresses have one row in a table of the type. -/
def SameRow (type : TableType) (a addr : ℕ) : Prop :=
  segTableEntryOffset a type = segTableEntryOffset addr type

instance (type : TableType) (a addr : ℕ) : Decidable (SameRow type a addr) :=
  inferInstanceAs (Decidable (_ = _))

/-- The cells after the first `size` cells of the row of `addr` were written. -/
theorem cell_memcpy {entry : SegEntry} {size : ℕ} (hsize : size ≤ entry.depth)
    (mem : ℕ → ℕ) (addr : ℕ) (row : ℕ → ℕ) (a : ℕ) {l : ℕ} (hl : l < entry.depth) :
    overwrite mem (timeTableGetIndex addr entry.depth entry.type) size row
        (timeTableGetIndex a entry.depth entry.type + l)
      = if SameRow entry.type a addr ∧ l < size then row l
        else mem (timeTableGetIndex a entry.depth entry.type + l) := by
  unfold SameRow timeTableGetIndex
  by_cases hrow : segTableEntryOffset a entry.type = segTableEntryOffset addr entry.type
  · by_cases hls : l < size
    · rw [if_pos ⟨hrow, hls⟩, hrow, overwrite_inside _ _ _ hls]
    · rw [if_neg fun h => hls h.2, hrow, overwrite_outside _ _ (.inr (by omega))]
  · rw [if_neg fun h => hrow h.1, overwrite_outside _ _ (row_disjoint hrow hl hsize)]

section Access

variable {m : Malloc} {type : TableType} {entry : SegEntry} (hsplit : Splits type entry)
  {addr size : ℕ} (hsize : size ≤ entry.depth) {vArray : ℕ → ℕ}
include hsplit hsize

/-- **A write** gives the first levels of its row the current versions and the
times it was given, and leaves the other cells. -/
theorem segTableSetTime_spec (tArray : ℕ → ℕ) :
    ∃ entry' tTable, segTableSetTime m addr size vArray tArray type entry = ((), entry') ∧
      entry'.tTable = some tTable ∧ entry'.depth = entry.depth ∧
      entry'.type = readyType type entry ∧
      ∀ a, ∀ l < entry.depth,
        versionCell entry' a l
          = (if SameRow (readyType type entry) a addr ∧ l < size then vArray l
            else metVersion m entry a l) ∧
        timeCell tTable entry' a l
          = if SameRow (readyType type entry) a addr ∧ l < size then tArray l
            else metTime m entry a l := by
  obtain ⟨tTable, htable, hdepth, htype, hcells⟩ := segEntryReady_spec m hsplit
  have hset : segTableSetTime m addr size vArray tArray type entry = ((),
      { segEntryReady m type entry with
        tTable := some (memcpy tTable (timeTableGetIndex addr (segEntryReady m type entry).depth
          (segEntryReady m type entry).type) tArray 0 size)
        versions := memcpy (segEntryReady m type entry).versions (timeTableGetIndex addr
          (segEntryReady m type entry).depth (segEntryReady m type entry).type) vArray 0 size }) := by
    unfold segTableSetTime
    simp only [htable, Option.map_some]
  refine ⟨_, _, hset, rfl, hdepth, htype, fun a l hl => ?_⟩
  rw [← (hcells a l hl).1, ← (hcells a l hl).2, ← htype]
  rw [← hdepth] at hsize hl
  have hversions := cell_memcpy hsize (segEntryReady m type entry).versions addr
    (fun k => vArray (0 + k)) a hl
  have htimes := cell_memcpy hsize tTable addr (fun k => tArray (0 + k)) a hl
  rw [Nat.zero_add] at hversions htimes
  exact ⟨hversions, htimes⟩

/-- **A read** validates the first levels of its row, and returns them. -/
theorem segTableGetTime_spec
    (hdown : ∀ i < size, metVersion m entry addr i = vArray i →
      ∀ j < i, metVersion m entry addr j = vArray j) :
    ∃ times entry' tTable,
      segTableGetTime m addr size vArray type entry = (some times, entry') ∧
      entry'.tTable = some tTable ∧ entry'.depth = entry.depth ∧
      entry'.type = readyType type entry ∧
      (∀ a, ∀ l < entry.depth,
        versionCell entry' a l
          = (if SameRow (readyType type entry) a addr ∧ l < size then vArray l
            else metVersion m entry a l) ∧
        timeCell tTable entry' a l
          = if SameRow (readyType type entry) a addr ∧ l < size then times l
            else metTime m entry a l) ∧
      ∀ l < size, times l
        = if metVersion m entry addr l = vArray l then metTime m entry addr l else 0 := by
  obtain ⟨tTable, htable, hdepth, htype, hcells⟩ := segEntryReady_spec m hsplit
  generalize hready : segEntryReady m type entry = ready at htable hdepth htype hcells
  let index := timeTableGetIndex addr ready.depth ready.type
  let start := startInvalid (fun i => ready.versions (index + i)) vArray size
  obtain ⟨hstart, hlast, hrest⟩ :=
    startInvalid_spec (fun i => ready.versions (index + i)) vArray size
  have hmet : ∀ l < size, ready.versions (index + l) = metVersion m entry addr l :=
    fun l hl => (hcells addr l (by omega)).1
  -- below `start` the versions are the current ones, from there on they are not
  have hvalid : ∀ l < size, metVersion m entry addr l = vArray l ↔ l < start := by
    intro l hl
    constructor
    · intro heq
      by_contra hge
      exact hrest l (Nat.le_of_not_lt hge) hl (by rw [hmet l hl, heq])
    · intro hlt
      have hend : metVersion m entry addr (start - 1) = vArray (start - 1) := by
        rw [← hmet _ (by omega)]
        exact (hlast (by omega)).symm
      rcases Nat.lt_or_eq_of_le (show l ≤ start - 1 by omega) with hbefore | heq
      · exact hdown (start - 1) (by omega) hend l hbefore
      · rw [heq]
        exact hend
  let times : ℕ → ℕ := fun l => if l < start then tTable (index + l) else 0
  let versions : ℕ → ℕ := fun l => if l < start then ready.versions (index + l) else vArray l
  let entry' : SegEntry := { ready with
    tTable := some (overwrite tTable index size times)
    versions := overwrite ready.versions index size versions }
  have hdepth' : size ≤ ready.depth := hdepth.symm ▸ hsize
  have htimes : ∀ l < size, overwrite tTable index size times (index + l) = times l :=
    fun l hl => overwrite_inside _ _ _ hl
  have hget : segTableGetTime m addr size vArray type entry
      = (some fun l => overwrite tTable index size times (index + l), entry') := by
    have hv : memcpy ready.versions (index + start) vArray start (size - start)
        = overwrite ready.versions index size versions := by
      unfold memcpy
      rw [overwrite_end _ _ hstart]
      congr 1
      funext l
      show (if l < start then _ else _) = if l < start then _ else _
      split
      · rfl
      next hge => rw [Nat.add_sub_cancel' (Nat.le_of_not_lt hge)]
    have ht : overwrite tTable (index + start) (size - start) (fun _ => 0)
        = overwrite tTable index size times := overwrite_end _ _ hstart _
    unfold segTableGetTime
    rw [hready]
    show (timeTableGetAddr { ready with tTable := ready.tTable.map _, versions := _ } addr, _) = _
    rw [htable]
    show (timeTableGetAddr { ready with
        tTable := some (overwrite tTable (index + start) (size - start) fun _ => 0)
        versions := memcpy ready.versions (index + start) vArray start (size - start) } addr,
      ({ ready with
        tTable := some (overwrite tTable (index + start) (size - start) fun _ => 0)
        versions := memcpy ready.versions (index + start) vArray start (size - start) } :
          SegEntry)) = _
    rw [hv, ht]
    rfl
  refine ⟨_, entry', overwrite tTable index size times, hget, rfl, hdepth, htype, ?_, ?_⟩
  · intro a l hl
    have hl' : l < ready.depth := hdepth.symm ▸ hl
    rw [← (hcells a l hl).1, ← (hcells a l hl).2, ← htype]
    constructor
    · refine (cell_memcpy hdepth' ready.versions addr versions a hl').trans ?_
      split
      next hin =>
        show (if l < start then _ else _) = _
        split
        next hls => rw [hmet l hin.2, (hvalid l hin.2).mpr hls]
        next => rfl
      next => rfl
    · refine (cell_memcpy hdepth' tTable addr times a hl').trans ?_
      split
      next hin => exact (htimes l hin.2).symm
      next => rfl
  · intro l hl
    rw [htimes l hl]
    show (if l < start then tTable (index + l) else 0) = _
    rw [← (hcells addr l (by omega)).2]
    simp only [hvalid l hl]
    rfl

end Access

end Kremlin.Shadow.Base
