/-
  Kremlin.Runtime.Table — the flat table of times of `Table.h`.

  `Table` is one `calloc`ed array with a row length: `getOffset` is
  `col * row + col`, and `copyToDest` is a `memcpy` on the arrays.  With asserts
  compiled out a column beyond the row length runs into the next row, so the
  model keeps the flat array; `none` is an access outside the array.

  §2 gives the reader the two-dimensional view (`entry`) that holds as long as
  columns stay below the row length.
-/
import Kremlin.Runtime.Ktypes
import Mathlib.Algebra.Order.Ring.Nat
import Mathlib.Tactic.Common
import Mathlib.Tactic.Linarith

namespace Kremlin.Runtime

/-! ## §1. The table. -/

/-- `class Table`. -/
structure Table where
  row : ℕ
  col : ℕ
  array : ℕ → ℕ

namespace Table

/-- The constructor: zeroed memory. -/
def new (row col : ℕ) : Table where
  row := row
  col := col
  array _ := 0

/-- Where a row and a column are in the array. -/
def getOffset (t : Table) (row col : ℕ) : ℕ := t.col * row + col

/-- Read the array at an offset. -/
def load (t : Table) (offset : ℕ) : Option ℕ :=
  if offset < t.row * t.col then some (t.array offset) else none

/-- The time at a row and a column. -/
def getValue (t : Table) (row col : ℕ) : Option ℕ :=
  t.load (t.getOffset row col)

/-- The time at a row and a column rewritten. -/
def setValue (t : Table) (time : ℕ) (row col : ℕ) : Option Table :=
  let offset := t.getOffset row col
  if offset < t.row * t.col then
    some { t with array := fun o => if o = offset then time else t.array o }
  else none

/-- `copyToDest`; `src` is `this`. -/
def copyToDest (src dest : Table) (dest_reg src_reg : ℕ) (start size : ℕ) : Option Table :=
  if size = 0 then some dest
  else
    let srcAddr := src.getOffset src_reg start
    let destAddr := dest.getOffset dest_reg start
    if srcAddr + size ≤ src.row * src.col ∧ destAddr + size ≤ dest.row * dest.col then
      some { dest with array := fun o =>
        if destAddr ≤ o ∧ o < destAddr + size then src.array (srcAddr + (o - destAddr))
        else dest.array o }
    else none

/-! ## §2. The two-dimensional view. -/

/-- The time at a row and a column. -/
def entry (t : Table) (r c : ℕ) : ℕ := t.array (t.getOffset r c)

/-- A new table is 0 everywhere. -/
@[simp] theorem entry_new (row col r c : ℕ) : (new row col).entry r c = 0 := rfl

/-- Rows and columns of the table are inside the array. -/
theorem getOffset_lt (t : Table) {r c : ℕ} (hr : r < t.row) (hc : c < t.col) :
    t.getOffset r c < t.row * t.col := by
  have h : t.col * (r + 1) ≤ t.col * t.row := Nat.mul_le_mul_left _ hr
  show t.col * r + c < t.row * t.col
  rw [Nat.mul_comm t.row]
  rw [Nat.mul_succ] at h
  omega

/-- No two of them share a place. -/
theorem getOffset_eq_iff (t : Table) {r c r' c' : ℕ} (hc : c < t.col) (hc' : c' < t.col) :
    t.getOffset r c = t.getOffset r' c' ↔ r = r' ∧ c = c' := by
  constructor
  · intro h
    -- the row is the quotient by the row length, the column the remainder
    have hrow : ∀ r c, c < t.col → t.getOffset r c / t.col = r := by
      intro r c hc
      show (t.col * r + c) / t.col = r
      rw [Nat.mul_add_div (by omega), Nat.div_eq_of_lt hc, Nat.add_zero]
    have hr : r = r' := by rw [← hrow r c hc, h, hrow r' c' hc']
    have h' : t.col * r + c = t.col * r' + c' := h
    exact ⟨hr, by rw [hr] at h'; omega⟩
  · rintro ⟨rfl, rfl⟩
    rfl

/-- A value of the table is its entry. -/
theorem getValue_eq (t : Table) {r c : ℕ} (hr : r < t.row) (hc : c < t.col) :
    t.getValue r c = some (t.entry r c) := by
  show (if t.getOffset r c < t.row * t.col then _ else _) = _
  rw [if_pos (t.getOffset_lt hr hc)]
  rfl

/-- A write inside the array, at a column that may lie beyond the row. -/
theorem setValue_flat (t : Table) (time : ℕ) {r c : ℕ} (h : t.getOffset r c < t.row * t.col) :
    ∃ t', t.setValue time r c = some t' ∧ t'.row = t.row ∧ t'.col = t.col ∧
      ∀ r' c', t'.entry r' c'
        = if t.getOffset r' c' = t.getOffset r c then time else t.entry r' c' :=
  ⟨_, if_pos h, rfl, rfl, fun _ _ => rfl⟩

/-- A write inside the table changes one entry. -/
theorem setValue_spec (t : Table) (time : ℕ) {r c : ℕ} (hr : r < t.row) (hc : c < t.col) :
    ∃ t', t.setValue time r c = some t' ∧ t'.row = t.row ∧ t'.col = t.col ∧
      ∀ r' c', c' < t.col →
        t'.entry r' c' = if r' = r ∧ c' = c then time else t.entry r' c' := by
  obtain ⟨t', ht', hrow, hcol, hentry⟩ := t.setValue_flat time (t.getOffset_lt hr hc)
  refine ⟨t', ht', hrow, hcol, fun r' c' hc' => ?_⟩
  rw [hentry]
  simp only [t.getOffset_eq_iff hc' hc]

/-- A copy of leading columns inside both tables changes those columns of one
row. -/
theorem copyToDest_spec (src dest : Table) (dest_reg src_reg size : ℕ)
    (hd : dest_reg < dest.row) (hs : src_reg < src.row) (hdc : size ≤ dest.col)
    (hsc : size ≤ src.col) :
    ∃ t', src.copyToDest dest dest_reg src_reg 0 size = some t' ∧ t'.row = dest.row ∧
      t'.col = dest.col ∧ ∀ r c, c < dest.col →
        t'.entry r c = if r = dest_reg ∧ c < size then src.entry src_reg c else dest.entry r c := by
  by_cases h0 : size = 0
  · refine ⟨dest, if_pos h0, rfl, rfl, fun r c _ => ?_⟩
    rw [if_neg (by omega)]
  · have hlast : ∀ (t : Table) (r : ℕ), r < t.row → size ≤ t.col →
        t.getOffset r 0 + size ≤ t.row * t.col := by
      intro t r hr hc
      have h := t.getOffset_lt hr (show size - 1 < t.col by omega)
      show t.col * r + 0 + size ≤ t.row * t.col
      have h' : t.col * r + (size - 1) < t.row * t.col := h
      omega
    refine ⟨_, (if_neg h0).trans (if_pos ⟨hlast src src_reg hs hsc, hlast dest dest_reg hd hdc⟩),
      rfl, rfl, fun r c hc => ?_⟩
    show (if dest.getOffset dest_reg 0 ≤ dest.getOffset r c ∧
      dest.getOffset r c < dest.getOffset dest_reg 0 + size then _ else _) = _
    have hiff : (dest.getOffset dest_reg 0 ≤ dest.getOffset r c ∧
        dest.getOffset r c < dest.getOffset dest_reg 0 + size) ↔ r = dest_reg ∧ c < size := by
      constructor
      · rintro ⟨hle, hlt⟩
        -- the offset lies `c'` columns into row `dest_reg`, for some `c' < size`
        obtain ⟨c', hc'⟩ := Nat.exists_eq_add_of_le hle
        have hc'lt : c' < size := by omega
        have heq : dest.getOffset r c = dest.getOffset dest_reg c' := by
          show dest.col * r + c = dest.col * dest_reg + c'
          have : dest.col * r + c = dest.col * dest_reg + 0 + c' := hc'
          omega
        obtain ⟨hr, hcc⟩ := (dest.getOffset_eq_iff hc (by omega)).mp heq
        exact ⟨hr, by omega⟩
      · rintro ⟨rfl, hlt⟩
        show dest.col * r + 0 ≤ dest.col * r + c ∧ dest.col * r + c < dest.col * r + 0 + size
        omega
    by_cases h : r = dest_reg ∧ c < size
    · rw [if_pos (hiff.mpr h), if_pos h]
      show src.array (src.col * src_reg + 0 + (dest.col * r + c - (dest.col * dest_reg + 0))) = _
      rw [h.1, show src.col * src_reg + 0 + (dest.col * dest_reg + c - (dest.col * dest_reg + 0))
        = src.col * src_reg + c by omega]
      rfl
    · rw [if_neg (fun h' => h (hiff.mp h')), if_neg h]
      rfl

end Table

end Kremlin.Runtime
