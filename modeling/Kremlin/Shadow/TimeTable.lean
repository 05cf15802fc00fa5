/-
  Kremlin.Shadow.TimeTable — the timestamps of one page at one level.

  A `TimeTable` covers 4 KB of memory with one entry for every 8-byte word
  (64-bit table) or every 4-byte word (32-bit table).  Times are 64-bit machine
  words; addresses, versions and levels are only compared and divided, so they
  are natural numbers.

  A compressed table keeps its compressed bytes behind the same pointer as its
  times, so `array` is the memory behind that pointer in either case.  That memory
  is the table's own, which the chunks of the pool are for 64-bit tables;
  `PooledTables` has the tables with their arrays in the pool.
-/
import Mathlib.Data.List.Basic
import Mathlib.Tactic.Common

namespace Kremlin.Shadow

/-- `typedef UInt64 Time`. -/
abbrev Time := BitVec 64

/-- The width of an access, and of the entries of a table. -/
inductive TableType where
  | type_64bit
  | type_32bit
  deriving Repr, DecidableEq

/-- `TimeTable::TIMETABLE_MASK`. -/
def TIMETABLE_MASK : ℕ := 0x3ff
/-- `TimeTable::TIMETABLE_SIZE`: one entry for each 4 bytes of a 4 KB block. -/
def TIMETABLE_SIZE : ℕ := TIMETABLE_MASK + 1

/-- The size of the buffers the tables are compressed from, in bytes:
`sizeof(Time)*TimeTable::TIMETABLE_SIZE/2`. -/
def TIMETABLE_BYTES : ℕ := 8 * TIMETABLE_SIZE / 2

/-- The entry of an address, in a table of this type. -/
def TableType.getIndex (type : TableType) (addr : ℕ) : ℕ :=
  let ret := (addr >>> 2) &&& TIMETABLE_MASK
  if type = .type_64bit then ret >>> 1 else ret

/-- A table with an array of its own. -/
structure TimeTable where
  type : TableType
  /-- `UInt32 size`: the number of bytes in `array`. -/
  size : ℕ
  array : List Time
  deriving Repr, DecidableEq

namespace TimeTable

/-! ## §1. The operations. -/

/-- `TimeTable::GetNumEntries`. -/
def GetNumEntries : TableType → ℕ
  | .type_64bit => TIMETABLE_SIZE / 2
  | .type_32bit => TIMETABLE_SIZE

/-- The constructor.  The size is that of a 64-bit table for either type. -/
def new (size_type : TableType) : TimeTable where
  type := size_type
  size := TIMETABLE_BYTES
  array := List.replicate (GetNumEntries size_type) 0

/-- `TimeTable::clean`. -/
def clean (t : TimeTable) : TimeTable :=
  { t with array := List.replicate (GetNumEntries t.type) 0 }

/-- `TimeTable::getIndex`. -/
def getIndex (t : TimeTable) (addr : ℕ) : ℕ := t.type.getIndex addr

/-- `TimeTable::getTimeAtAddr`. -/
def getTimeAtAddr (t : TimeTable) (addr : ℕ) : Time :=
  t.array.getD (t.getIndex addr) 0

/-- Each entry becomes two: the table of the same page with 32-bit entries. -/
def create32BitClone (t : TimeTable) : TimeTable :=
  { new .type_32bit with
    array := (List.range TIMETABLE_SIZE).map fun i => t.array.getD (i / 2) 0 }

/-- `TimeTable::setTimeAtAddr`: a wide access fills both words of a narrow table. -/
def setTimeAtAddr (t : TimeTable) (addr : ℕ) (time : Time) (access_type : TableType) :
    TimeTable :=
  let index := t.getIndex addr
  let array := t.array.set index time
  { t with
    array :=
      if t.type = .type_32bit ∧ access_type = .type_64bit then array.set (index + 1) time
      else array }

/-! ## §2. Their effect on the entries. -/

/-- The array is as long as the type says. -/
def Sized (t : TimeTable) : Prop := t.array.length = GetNumEntries t.type

/-- Does an access of width `type` at `addr` cover the 4-byte word at `word`? -/
def Covers (type : TableType) (addr word : ℕ) : Prop :=
  match type with
  | .type_64bit => addr / 8 = word / 8
  | .type_32bit => addr / 4 = word / 4

instance (type : TableType) (addr word : ℕ) : Decidable (Covers type addr word) := by
  cases type <;> exact inferInstanceAs (Decidable (_ = _))

/-- The 4 KB page of an address. -/
def page (addr : ℕ) : ℕ := addr / 4096

@[simp] theorem GetNumEntries_64bit : GetNumEntries .type_64bit = 512 := rfl

@[simp] theorem GetNumEntries_32bit : GetNumEntries .type_32bit = 1024 := rfl

theorem type_getIndex_eq (type : TableType) (addr : ℕ) :
    type.getIndex addr
      = if type = .type_64bit then addr / 8 % 512 else addr / 4 % 1024 := by
  have hmask : (addr >>> 2) &&& TIMETABLE_MASK = addr / 4 % 1024 := by
    rw [Nat.shiftRight_eq_div_pow]
    exact Nat.and_two_pow_sub_one_eq_mod (addr / 4) 10
  unfold TableType.getIndex
  simp only [hmask]
  rw [Nat.shiftRight_eq_div_pow]
  split <;> omega

theorem type_getIndex_lt (type : TableType) (addr : ℕ) : type.getIndex addr < GetNumEntries type := by
  rw [type_getIndex_eq]
  cases type <;> simp <;> omega

theorem getIndex_eq (t : TimeTable) (addr : ℕ) :
    t.getIndex addr
      = if t.type = .type_64bit then addr / 8 % 512 else addr / 4 % 1024 :=
  type_getIndex_eq t.type addr

theorem getIndex_lt (t : TimeTable) (addr : ℕ) : t.getIndex addr < GetNumEntries t.type :=
  type_getIndex_lt t.type addr

theorem sized_new (type : TableType) : (new type).Sized := by
  simp [Sized, new]

theorem Sized.clean (t : TimeTable) : t.clean.Sized := by
  simp [Sized, TimeTable.clean]

theorem Sized.setTimeAtAddr {t : TimeTable} (h : t.Sized) (addr : ℕ) (time : Time)
    (access_type : TableType) : (t.setTimeAtAddr addr time access_type).Sized := by
  unfold Sized TimeTable.setTimeAtAddr at *
  dsimp only
  split <;> simpa using h

@[simp] theorem type_new (type : TableType) : (new type).type = type := rfl

@[simp] theorem type_clean (t : TimeTable) : t.clean.type = t.type := rfl

@[simp] theorem type_setTimeAtAddr (t : TimeTable) (addr : ℕ) (time : Time)
    (access_type : TableType) : (t.setTimeAtAddr addr time access_type).type = t.type := rfl

@[simp] theorem size_setTimeAtAddr (t : TimeTable) (addr : ℕ) (time : Time)
    (access_type : TableType) : (t.setTimeAtAddr addr time access_type).size = t.size := rfl

@[simp] theorem getTimeAtAddr_new (type : TableType) (addr : ℕ) :
    (new type).getTimeAtAddr addr = 0 := by
  simp [getTimeAtAddr, new, List.getD_eq_getElem?_getD, List.getElem?_replicate]
  split <;> rfl

@[simp] theorem getTimeAtAddr_clean (t : TimeTable) (addr : ℕ) :
    t.clean.getTimeAtAddr addr = 0 := by
  simp [getTimeAtAddr, clean, List.getD_eq_getElem?_getD, List.getElem?_replicate]
  split <;> rfl

/-- **A write is read back from every 4-byte word it covers, and from no other
word of the page.**  A 64-bit write to a 32-bit table fills both entries of its
word; a 32-bit write to a 64-bit table has no entry of its own and is excluded. -/
theorem getTimeAtAddr_setTimeAtAddr {t : TimeTable} (hsized : t.Sized) {addr word : ℕ}
    {time : Time} {access_type : TableType}
    (hwidth : access_type = .type_32bit → t.type = .type_32bit)
    (haligned : access_type = .type_64bit → addr % 8 = 0) (hpage : page addr = page word) :
    (t.setTimeAtAddr addr time access_type).getTimeAtAddr word
      = if Covers access_type addr word then time else t.getTimeAtAddr word := by
  have hlen := getIndex_lt t addr
  have hword := getIndex_lt t word
  unfold Sized at hsized
  have hi : (t.setTimeAtAddr addr time access_type).getIndex word = t.getIndex word := rfl
  unfold getTimeAtAddr
  rw [hi]
  unfold page at hpage
  cases ht : t.type with
  | type_64bit =>
      cases access_type with
      | type_32bit => exact absurd (hwidth rfl) (by simp [ht])
      | type_64bit =>
          simp only [setTimeAtAddr, ht, reduceCtorEq, false_and, if_false, Covers,
            List.getD_eq_getElem?_getD, List.getElem?_set]
          simp only [getIndex_eq, ht, if_true, GetNumEntries_64bit] at hlen hword hsized ⊢
          by_cases hc : addr / 8 = word / 8
          · rw [if_pos hc, if_pos (by omega), if_pos (by omega)]
            rfl
          · rw [if_neg hc, if_neg (by omega)]
  | type_32bit =>
      cases access_type with
      | type_32bit =>
          simp only [setTimeAtAddr, ht, reduceCtorEq, and_false, if_false, Covers,
            List.getD_eq_getElem?_getD, List.getElem?_set]
          simp only [getIndex_eq, ht, reduceCtorEq, if_false,
            GetNumEntries_32bit] at hlen hword hsized ⊢
          by_cases hc : addr / 4 = word / 4
          · rw [if_pos hc, if_pos (by omega), if_pos (by omega)]
            rfl
          · rw [if_neg hc, if_neg (by omega)]
      | type_64bit =>
          have h8 := haligned rfl
          simp only [setTimeAtAddr, ht, and_self, if_true, Covers,
            List.getD_eq_getElem?_getD, List.getElem?_set, List.length_set]
          simp only [getIndex_eq, ht, reduceCtorEq, if_false,
            GetNumEntries_32bit] at hlen hword hsized ⊢
          by_cases hc : addr / 8 = word / 8
          · rw [if_pos hc]
            -- the word is the lower or the upper half of the one written
            by_cases hlow : addr / 4 % 1024 + 1 = word / 4 % 1024
            · rw [if_pos hlow, if_pos (by omega)]
              rfl
            · rw [if_neg hlow, if_pos (by omega), if_pos (by omega)]
              rfl
          · rw [if_neg hc, if_neg (by omega), if_neg (by omega)]

end TimeTable

end Kremlin.Shadow
