/-
  Kremlin.Shadow.LevelTable — one page of shadow memory, level by level.

  A `LevelTable` has, for each of its 64 levels, a pointer to a `TimeTable` and
  the version all entries of that table belong to.  A level whose version
  differs from the one asked for reads as 0; a write under another version
  cleans the table first.

  The pointer is null, live, or — after a width conversion — left pointing to a
  table that was deleted.  Reading through the last kind has no defined result,
  and the operations return `none` there.
-/
import Kremlin.Shadow.MShadowStat
import Mathlib.Logic.Function.Basic

namespace Kremlin.Shadow

/-- What an entry of `time_tables` points to. -/
inductive TimeTablePtr where
  | null
  | table (t : TimeTable)
  /-- The table was deleted, the pointer was not overwritten. -/
  | freed

/-- The page of a 4 KB block: for each level a version and a time table, and whether the tables
are packed. -/
structure LevelTable where
  versions : ℕ → ℕ
  time_tables : ℕ → TimeTablePtr
  compressed : Bool

namespace LevelTable

/-- `LevelTable::MAX_LEVEL`. -/
def MAX_LEVEL : ℕ := 64

/-! ## §1. Access. -/

/-- The constructor.  It leaves `compressed` as it finds it. -/
def new (compressed : Bool) : LevelTable where
  versions _ := 0
  time_tables _ := .null
  compressed := compressed

/-- `LevelTable::setVersionAtLevel`. -/
def setVersionAtLevel (lt : LevelTable) (level ver : ℕ) : LevelTable :=
  { lt with versions := Function.update lt.versions level ver }

/-- `LevelTable::setTimeTableAtLevel`. -/
def setTimeTableAtLevel (lt : LevelTable) (level : ℕ) (table : TimeTablePtr) : LevelTable :=
  { lt with time_tables := Function.update lt.time_tables level table }

/-- `LevelTable::getTimeForAddrAtLevel`: a level of another version reads as 0. -/
def getTimeForAddrAtLevel (lt : LevelTable) (level addr curr_ver : ℕ) : Option Time :=
  if lt.versions level = curr_ver then
    match lt.time_tables level with
    | .null => some 0
    | .table table => some (table.getTimeAtAddr addr)
    | .freed => none
  else some 0

/-- The new state, and what is reported to the counters. -/
def setTimeForAddrAtLevel (lt : LevelTable) (level addr curr_ver : ℕ) (value : Time)
    (type : TableType) : Option (LevelTable × List MemEvent) :=
  match lt.time_tables level with
  | .freed => none
  | .null =>
      let table := (TimeTable.new type).setTimeAtAddr addr value type
      some ((lt.setTimeTableAtLevel level (.table table)).setVersionAtLevel level curr_ver,
        [.timeTableAlloc type (BitVec.ofNat 32 table.size)])
  | .table old =>
      if type = .type_32bit ∧ old.type = .type_64bit then
        -- the clone is written and dropped: `time_tables` keeps the pointer to `old`
        let table := old.create32BitClone
        some ((lt.setTimeTableAtLevel level .freed).setVersionAtLevel level curr_ver,
          [.timeTableAlloc table.type (BitVec.ofNat 32 table.size), .timeTableConvertTo32,
            .timeTableFree old.type (BitVec.ofNat 32 old.size)])
      else
        let table := if lt.versions level = curr_ver then old else old.clean
        some ((lt.setTimeTableAtLevel level
            (.table (table.setTimeAtAddr addr value type))).setVersionAtLevel level curr_ver, [])

/-! ## §2. Garbage collection. -/

/-- `delete t`: the report of the destructor.  A pointer to a table deleted
before is not met here: only 32-bit writes leave one. -/
def deleteEvents : TimeTablePtr → List MemEvent
  | .table t => [.timeTableFree t.type (BitVec.ofNat 32 t.size)]
  | _ => []

/-- `findLowestInvalidIndex`, looking at `n` more levels from `lowest_valid`. -/
def lowestInvalidFrom (lt : LevelTable) (curr_versions : ℕ → ℕ) : ℕ → ℕ → ℕ
  | 0, lowest_valid => lowest_valid
  | n + 1, lowest_valid =>
      match lt.time_tables lowest_valid with
      | .null => lowest_valid
      | _ =>
          if curr_versions lowest_valid ≤ lt.versions lowest_valid then
            lowestInvalidFrom lt curr_versions n (lowest_valid + 1)
          else lowest_valid

/-- `LevelTable::findLowestInvalidIndex`. -/
def findLowestInvalidIndex (lt : LevelTable) (curr_versions : ℕ → ℕ) : ℕ :=
  lt.lowestInvalidFrom curr_versions MAX_LEVEL 0

/-- Delete the tables of the levels `i, …, i + n - 1` that `doomed` names. -/
def deleteLevels (lt : LevelTable) (doomed : ℕ → Bool) : ℕ → ℕ → LevelTable × List MemEvent
  | 0, _ => (lt, [])
  | n + 1, i =>
      if doomed i then
        let (lt', es) := (lt.setTimeTableAtLevel i .null).deleteLevels doomed n (i + 1)
        (lt', deleteEvents (lt.time_tables i) ++ es)
      else lt.deleteLevels doomed n (i + 1)

/-- `LevelTable::cleanTimeTablesFromLevel`: every table from a level on is deleted. -/
def cleanTimeTablesFromLevel (lt : LevelTable) (start_level : ℕ) :
    LevelTable × List MemEvent :=
  lt.deleteLevels (fun _ => true) (MAX_LEVEL - start_level) start_level

/-- `LevelTable::collectGarbageWithinBounds`: below the bound the stale tables go, from the bound
on all of them. -/
def collectGarbageWithinBounds (lt : LevelTable) (curr_versions : ℕ → ℕ) (end_index : ℕ) :
    LevelTable × List MemEvent :=
  let (lt', es) :=
    lt.deleteLevels (fun i => decide (lt.versions i < curr_versions i)) end_index 0
  let (lt'', es') := lt'.cleanTimeTablesFromLevel end_index
  (lt'', es ++ es')

/-- `LevelTable::collectGarbageUnbounded`: the tables from the lowest stale level on go. -/
def collectGarbageUnbounded (lt : LevelTable) (curr_versions : ℕ → ℕ) :
    LevelTable × List MemEvent :=
  lt.cleanTimeTablesFromLevel (lt.findLowestInvalidIndex curr_versions)

/-! ## §3. What the operations leave. -/

@[simp] theorem versions_setVersionAtLevel (lt : LevelTable) (level ver : ℕ) :
    (lt.setVersionAtLevel level ver).versions = Function.update lt.versions level ver := rfl

@[simp] theorem time_tables_setVersionAtLevel (lt : LevelTable) (level ver : ℕ) :
    (lt.setVersionAtLevel level ver).time_tables = lt.time_tables := rfl

@[simp] theorem compressed_setVersionAtLevel (lt : LevelTable) (level ver : ℕ) :
    (lt.setVersionAtLevel level ver).compressed = lt.compressed := rfl

@[simp] theorem versions_setTimeTableAtLevel (lt : LevelTable) (level : ℕ) (p : TimeTablePtr) :
    (lt.setTimeTableAtLevel level p).versions = lt.versions := rfl

@[simp] theorem time_tables_setTimeTableAtLevel (lt : LevelTable) (level : ℕ)
    (p : TimeTablePtr) :
    (lt.setTimeTableAtLevel level p).time_tables = Function.update lt.time_tables level p := rfl

@[simp] theorem compressed_setTimeTableAtLevel (lt : LevelTable) (level : ℕ)
    (p : TimeTablePtr) : (lt.setTimeTableAtLevel level p).compressed = lt.compressed := rfl

/-- A collection of garbage removes tables and changes nothing else. -/
theorem deleteLevels_eq (lt : LevelTable) (doomed : ℕ → Bool) (n i : ℕ) :
    (lt.deleteLevels doomed n i).1
      = { lt with
          time_tables := fun l =>
            if i ≤ l ∧ l < i + n ∧ doomed l then .null else lt.time_tables l } := by
  induction n generalizing lt i with
  | zero =>
      show lt = _
      have hnone : ∀ l, ¬(i ≤ l ∧ l < i + 0 ∧ doomed l) := by
        intro l h
        omega
      simp only [hnone, if_false]
  | succ n ih =>
      unfold deleteLevels
      by_cases hd : doomed i
      · rw [if_pos hd]
        show (deleteLevels _ doomed n (i + 1)).1 = _
        rw [ih]
        congr 1
        funext l
        simp only [time_tables_setTimeTableAtLevel, Function.update_apply]
        by_cases hl : l = i
        · subst hl
          rw [if_pos rfl, ite_self, if_pos ⟨by omega, by omega, hd⟩]
        · rw [if_neg hl]
          have hrange : (i + 1 ≤ l ∧ l < i + 1 + n) ↔ (i ≤ l ∧ l < i + (n + 1)) := by omega
          simp only [← and_assoc, hrange]
      · rw [if_neg hd, ih]
        congr 1
        funext l
        by_cases hl : l = i
        · subst hl
          simp [hd]
        · have hrange : (i + 1 ≤ l ∧ l < i + 1 + n) ↔ (i ≤ l ∧ l < i + (n + 1)) := by omega
          simp only [← and_assoc, hrange]

/-- `lowest_valid` is beyond levels with a table of a version not too old only. -/
theorem lowestInvalidFrom_le (lt : LevelTable) (curr_versions : ℕ → ℕ) (n i : ℕ) :
    i ≤ lt.lowestInvalidFrom curr_versions n i ∧
      lt.lowestInvalidFrom curr_versions n i ≤ i + n ∧
      ∀ l, i ≤ l → l < lt.lowestInvalidFrom curr_versions n i →
        lt.time_tables l ≠ .null ∧ curr_versions l ≤ lt.versions l := by
  -- the scan goes up from the start level
  induction n generalizing i with
  | zero => exact ⟨Nat.le_refl _, Nat.le_refl _, fun l h h' => absurd (Nat.lt_of_le_of_lt h h')
      (Nat.lt_irrefl _)⟩
  | succ n ih =>
      have hstop : i ≤ i ∧ i ≤ i + (n + 1) ∧ ∀ l, i ≤ l → l < i →
          lt.time_tables l ≠ .null ∧ curr_versions l ≤ lt.versions l :=
        ⟨Nat.le_refl _, by omega, fun l h h' => absurd (Nat.lt_of_le_of_lt h h') (Nat.lt_irrefl _)⟩
      have hgo : lt.time_tables i ≠ .null → curr_versions i ≤ lt.versions i →
          i ≤ lt.lowestInvalidFrom curr_versions n (i + 1) ∧
          lt.lowestInvalidFrom curr_versions n (i + 1) ≤ i + (n + 1) ∧
          ∀ l, i ≤ l → l < lt.lowestInvalidFrom curr_versions n (i + 1) →
            lt.time_tables l ≠ .null ∧ curr_versions l ≤ lt.versions l := by
        intro hne hver
        obtain ⟨h₁, h₂, h₃⟩ := ih (i + 1)
        refine ⟨by omega, by omega, ?_⟩
        intro l hil hl
        by_cases heq : l = i
        · exact heq ▸ ⟨hne, hver⟩
        · exact h₃ l (by omega) hl
      unfold lowestInvalidFrom
      cases hp : lt.time_tables i with
      | null => exact hstop
      | table t =>
          dsimp only
          split
          next hver => exact hgo (by simp [hp]) hver
          next => exact hstop
      | freed =>
          dsimp only
          split
          next hver => exact hgo (by simp [hp]) hver
          next => exact hstop

/-- The search ends early at a level without a table or with an older version. -/
theorem lowestInvalidFrom_invalid {lt : LevelTable} {curr_versions : ℕ → ℕ} {n i : ℕ}
    (h : lt.lowestInvalidFrom curr_versions n i < i + n) :
    lt.time_tables (lt.lowestInvalidFrom curr_versions n i) = .null ∨
      lt.versions (lt.lowestInvalidFrom curr_versions n i)
        < curr_versions (lt.lowestInvalidFrom curr_versions n i) := by
  induction n generalizing i with
  | zero => exact absurd h (Nat.lt_irrefl i)
  | succ n ih =>
      have hgo : lt.lowestInvalidFrom curr_versions n (i + 1) < i + (n + 1) →
          lt.lowestInvalidFrom curr_versions n (i + 1) < i + 1 + n := by omega
      unfold lowestInvalidFrom at h ⊢
      cases hp : lt.time_tables i with
      | null => exact .inl hp
      | table t =>
          simp only [hp] at h ⊢
          by_cases hver : curr_versions i ≤ lt.versions i
          · rw [if_pos hver] at h ⊢
            exact ih (hgo h)
          · rw [if_neg hver]
            exact .inr (Nat.lt_of_not_le hver)
      | freed =>
          simp only [hp] at h ⊢
          by_cases hver : curr_versions i ≤ lt.versions i
          · rw [if_pos hver] at h ⊢
            exact ih (hgo h)
          · rw [if_neg hver]
            exact .inr (Nat.lt_of_not_le hver)

/-- `setTimeForAddrAtLevel` records the version it was given. -/
theorem versions_of_set {lt lt' : LevelTable} {level addr ver : ℕ} {value : Time}
    {type : TableType} {es : List MemEvent}
    (h : lt.setTimeForAddrAtLevel level addr ver value type = some (lt', es)) :
    lt'.versions = Function.update lt.versions level ver := by
  unfold setTimeForAddrAtLevel at h
  split at h
  · cases h
  · cases h
    rfl
  · split at h <;> cases h <;> rfl

/-- A write at one level leaves the tables of the others alone. -/
theorem time_tables_of_set {lt lt' : LevelTable} {level addr ver : ℕ} {value : Time}
    {type : TableType} {es : List MemEvent}
    (h : lt.setTimeForAddrAtLevel level addr ver value type = some (lt', es)) {l : ℕ}
    (hl : l ≠ level) : lt'.time_tables l = lt.time_tables l := by
  unfold setTimeForAddrAtLevel at h
  split at h
  · cases h
  · cases h
    exact Function.update_of_ne hl _ _
  · split at h <;> cases h <;> exact Function.update_of_ne hl _ _

theorem compressed_of_set {lt lt' : LevelTable} {level addr ver : ℕ} {value : Time}
    {type : TableType} {es : List MemEvent}
    (h : lt.setTimeForAddrAtLevel level addr ver value type = some (lt', es)) :
    lt'.compressed = lt.compressed := by
  unfold setTimeForAddrAtLevel at h
  split at h
  · cases h
  · cases h
    rfl
  · split at h <;> cases h <;> rfl

end LevelTable

end Kremlin.Shadow
