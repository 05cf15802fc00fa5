/-
  Kremlin.Shadow.SegEntry — the entries of `MShadowSTV`.

  An entry has a row of times and one version for each of its words.  Two
  functions lay it out again: `SegEntryConvertTo32bit` splits every 8-byte word
  in two of 4 bytes, `SegEntryExpandDepth` makes the rows longer.  Neither keeps
  every entry as it was; §3 says which it does.

  The first uses `splitRows`.  The second copies as many rows as an entry of
  8-byte words has, whatever the entry's type.
-/
import Kremlin.Library.RowCopy
import Kremlin.Shadow.Segments
import Mathlib.Logic.Function.Basic
import Mathlib.Tactic.Ring

namespace Kremlin.Shadow.STV

open Kremlin.Library

/-! ## §1. The operations. -/

/-- `calloc`. -/
def zeros : ℕ → ℕ := fun _ => 0

/-- The time vector of an address: what the pointer points to. -/
def timeTableGetAddr (entry : SegEntry) (addr : ℕ) : Option (ℕ → ℕ) :=
  entry.tTable.map fun tTable l => tTable (timeTableGetIndex addr entry.depth entry.type + l)

/-- `VersionGetAddr`: the one version of an address. -/
def versionGetAddr (entry : SegEntry) (addr : ℕ) : ℕ :=
  entry.versions (segTableEntryOffset addr entry.type)

/-- `newVersion` after the first rounds. -/
def convertVersions (oldVersion : ℕ → ℕ) : ℕ → ℕ → ℕ
  | 0 => zeros
  | i + 1 =>
      let newVersion := Function.update (convertVersions oldVersion i) (i * 2) (oldVersion i)
      Function.update newVersion (i * 2 + 1) (oldVersion i)

/-- `SegEntryConvertTo32bit`: each row and each version is copied to both halves. -/
def segEntryConvertTo32bit (entry : SegEntry) : SegEntry where
  tTable := entry.tTable.map fun oldTime =>
    splitRows zeros oldTime entry.depth (getTimeTableEntrySize .type_64bit)
  versions := convertVersions entry.versions (getTimeTableEntrySize .type_64bit)
  type := .type_32bit
  depth := entry.depth

/-- `ret` after the first rounds of the loop. -/
def expandTimes (oldDepth newDepth : ℕ) (tTable : ℕ → ℕ) : ℕ → ℕ → ℕ
  | 0 => zeros
  | i + 1 =>
      memcpy (expandTimes oldDepth newDepth tTable i) (newDepth * i) tTable (oldDepth * i) oldDepth

/-- `SegEntryExpandDepth`: the rows move apart; the row count is that of a wide table. -/
def segEntryExpandDepth (entry : SegEntry) (newDepth : ℕ) : SegEntry :=
  { entry with
    tTable := entry.tTable.map fun tTable =>
      expandTimes entry.depth newDepth tTable (getTimeTableEntrySize .type_64bit)
    depth := newDepth }

/-! ## §2. The loops. -/

theorem expandTimes_eq (oldDepth newDepth : ℕ) (tTable : ℕ → ℕ) (n : ℕ) :
    expandTimes oldDepth newDepth tTable n
      = writeRows newDepth oldDepth (fun i k => tTable (oldDepth * i + k)) zeros n := by
  induction n with
  | zero => rfl
  | succ n ih =>
      unfold expandTimes writeRows
      rw [ih]
      rfl

/-- Both halves of a word get its version. -/
theorem convertVersions_apply (oldVersion : ℕ → ℕ) {n j : ℕ} (hj : j < n * 2) :
    convertVersions oldVersion n j = oldVersion (j / 2) := by
  induction n with
  | zero => exact absurd hj (Nat.not_lt_zero _)
  | succ n ih =>
      unfold convertVersions
      by_cases hodd : j = n * 2 + 1
      · subst hodd
        rw [Function.update_self]
        congr 1
        omega
      · rw [Function.update_of_ne hodd]
        by_cases heven : j = n * 2
        · subst heven
          rw [Function.update_self]
          congr 1
          omega
        · rw [Function.update_of_ne heven]
          exact ih (by omega)

/-! ## §3. What they keep. -/

/-- At every address the version is as before, and so is the time of every
level the entry had. -/
def SameContents (old new : SegEntry) : Prop :=
  ∀ addr, versionGetAddr new addr = versionGetAddr old addr ∧
    ∀ l < old.depth, (timeTableGetAddr new addr).map (· l) = (timeTableGetAddr old addr).map (· l)

/-- All times of the rows `lo, …, hi - 1` are 0. -/
def ZeroRows (entry : SegEntry) (tTable : ℕ → ℕ) (lo hi : ℕ) : Prop :=
  ∀ i, lo ≤ i → i < hi → ∀ l < entry.depth, tTable (i * entry.depth + l) = 0

variable {entry : SegEntry} {tTable : ℕ → ℕ}

/-- The version of an address stays. -/
theorem versionGetAddr_convert (h64 : entry.type = .type_64bit) (addr : ℕ) :
    versionGetAddr (segEntryConvertTo32bit entry) addr = versionGetAddr entry addr := by
  unfold versionGetAddr
  show convertVersions _ _ (segTableEntryOffset addr .type_32bit) = _
  rw [h64, segTableEntryOffset_32, segTableEntryOffset_64, convertVersions_apply]
  · congr 1
    omega
  · exact Nat.mod_lt _ (by decide)

/-- **Splitting the words** keeps the contents of an entry exactly when a row is
one cell long or there is nothing but zeros. -/
theorem convert_iff (htable : entry.tTable = some tTable) (h64 : entry.type = .type_64bit) :
    SameContents entry (segEntryConvertTo32bit entry) ↔
      entry.depth ≤ 1 ∨ ZeroRows entry tTable 0 (getTimeTableEntrySize .type_64bit) := by
  have hold : ∀ addr l, (timeTableGetAddr entry addr).map (· l)
      = some (tTable (addr / 8 % 2 ^ 13 * entry.depth + l)) := by
    intro addr l
    unfold timeTableGetAddr timeTableGetIndex
    rw [htable, h64, segTableEntryOffset_64]
    rfl
  have hnew : ∀ addr l, (timeTableGetAddr (segEntryConvertTo32bit entry) addr).map (· l)
      = some (splitRows zeros tTable entry.depth (2 ^ 13)
          (addr / 4 % 2 ^ 14 * entry.depth + l)) := by
    intro addr l
    unfold timeTableGetAddr timeTableGetIndex segEntryConvertTo32bit
    rw [htable, ← segTableEntryOffset_32]
    rfl
  constructor
  · intro h
    by_cases hd : entry.depth ≤ 1
    · exact .inl hd
    · refine .inr fun i _ hi => ?_
      have hi' : i < 2 ^ 13 := hi
      -- the upper half of word `i`: everything but its first cell was left 0
      have hupper : ∀ l, 0 < l → l < entry.depth → tTable (i * entry.depth + l) = 0 := by
        intro l hpos hl
        have hsame := (h (8 * i + 4)).2 l hl
        rw [hold, hnew, show (8 * i + 4) / 8 % 2 ^ 13 = i by omega,
          show (8 * i + 4) / 4 % 2 ^ 14 = 2 * i + 1 by omega,
          splitRows_upper zeros tTable hi' hl, if_neg (by omega)] at hsame
        exact (Option.some.inj hsame).symm
      intro l hl
      by_cases hpos : 0 < l
      · exact hupper l hpos hl
      · -- the lower half: its second cell is the first one again
        have hsame := (h (8 * i)).2 1 (by omega)
        rw [hold, hnew, show 8 * i / 8 % 2 ^ 13 = i by omega,
          show 8 * i / 4 % 2 ^ 14 = 2 * i by omega,
          splitRows_lower zeros tTable hi' (show 1 < entry.depth by omega),
          hupper 1 (by omega) (by omega), Nat.mul_comm] at hsame
        rw [show l = 0 by omega]
        exact Option.some.inj hsame
  · intro h addr
    refine ⟨versionGetAddr_convert h64 addr, fun l hl => ?_⟩
    rw [hold, hnew]
    congr 1
    have hi : addr / 8 % 2 ^ 13 < 2 ^ 13 := Nat.mod_lt _ (by decide)
    have hzero : ∀ k, k < entry.depth → ¬entry.depth ≤ 1 →
        tTable (addr / 8 % 2 ^ 13 * entry.depth + k) = 0 := by
      intro k hk hd
      exact h.resolve_left hd _ (Nat.zero_le _) hi k hk
    rcases Nat.mod_two_eq_zero_or_one (addr / 4) with heven | hodd
    · rw [show addr / 4 % 2 ^ 14 = 2 * (addr / 8 % 2 ^ 13) by omega,
        splitRows_lower zeros tTable hi hl, Nat.mul_comm entry.depth]
      by_cases hd : entry.depth ≤ 1
      · rw [show l = 0 by omega]
      · rw [hzero _ (by omega) hd, hzero _ hl hd]
    · rw [show addr / 4 % 2 ^ 14 = 2 * (addr / 8 % 2 ^ 13) + 1 by omega,
        splitRows_upper zeros tTable hi hl, Nat.mul_comm entry.depth]
      by_cases hd : entry.depth ≤ 1
      · rw [show l = 0 by omega, if_pos rfl, show entry.depth - 1 = 0 by omega]
      · split
        · rw [hzero _ (by omega) hd, hzero _ hl hd]
        · rw [hzero _ hl hd]
          rfl

/-- A row of the longer table. -/
theorem expandTimes_row {oldDepth newDepth : ℕ} (hle : oldDepth ≤ newDepth) (tTable : ℕ → ℕ)
    {n i l : ℕ} (hl : l < oldDepth) :
    expandTimes oldDepth newDepth tTable n (i * newDepth + l)
      = if i < n then tTable (i * oldDepth + l) else 0 := by
  rw [expandTimes_eq, Nat.mul_comm i newDepth]
  split
  next hi => rw [writeRows_inside hle _ _ hi hl, Nat.mul_comm]
  next hi => exact writeRows_outside hle _ _ (by omega) (.inr (by omega))

/-- **Lengthening the rows** keeps the contents of an entry exactly when it has
8-byte words or nothing but zeros in the upper half of its rows. -/
theorem expand_iff (htable : entry.tTable = some tTable) {newDepth : ℕ}
    (hle : entry.depth ≤ newDepth) :
    SameContents entry (segEntryExpandDepth entry newDepth) ↔
      entry.type = .type_64bit ∨
        ZeroRows entry tTable (getTimeTableEntrySize .type_64bit)
          (getTimeTableEntrySize .type_32bit) := by
  have hold : ∀ addr l, (timeTableGetAddr entry addr).map (· l)
      = some (tTable (segTableEntryOffset addr entry.type * entry.depth + l)) := by
    intro addr l
    unfold timeTableGetAddr timeTableGetIndex
    rw [htable]
    rfl
  -- only the first 2^13 rows are copied
  have hnew : ∀ addr l, l < entry.depth →
      (timeTableGetAddr (segEntryExpandDepth entry newDepth) addr).map (· l)
        = some (if segTableEntryOffset addr entry.type < 2 ^ 13
            then tTable (segTableEntryOffset addr entry.type * entry.depth + l) else 0) := by
    intro addr l hl
    rw [← expandTimes_row hle tTable hl]
    unfold timeTableGetAddr timeTableGetIndex segEntryExpandDepth
    rw [htable]
    rfl
  constructor
  · intro h
    cases h64 : entry.type with
    | type_64bit => exact .inl rfl
    | type_32bit =>
        -- row `i` is the row of the address `4 * i`
        refine .inr fun i hlo hhi l hl => ?_
        have hlo' : 2 ^ 13 ≤ i := hlo
        have hhi' : i < 2 ^ 14 := hhi
        have hsame := (h (4 * i)).2 l hl
        rw [hold, hnew _ _ hl, h64, segTableEntryOffset_32,
          show 4 * i / 4 % 2 ^ 14 = i by omega, if_neg (by omega)] at hsame
        exact (Option.some.inj hsame).symm
  · intro h addr
    refine ⟨rfl, fun l hl => ?_⟩
    rw [hold, hnew _ _ hl]
    congr 1
    split
    · rfl
    next hout =>
      have hlt := segTableEntryOffset_lt addr entry.type
      cases h64 : entry.type with
      | type_64bit =>
          rw [h64] at hlt hout
          exact absurd hlt hout
      | type_32bit =>
          rw [h64] at hlt hout h
          have hzero := h.resolve_left (by simp)
          exact (hzero _ (Nat.le_of_not_lt hout) hlt l hl).symm

/-- **Laying an entry out again** keeps its contents exactly as far as said
above. -/
theorem relayout_iff (htable : entry.tTable = some tTable) :
    (entry.type = .type_64bit →
      (SameContents entry (segEntryConvertTo32bit entry) ↔
        entry.depth ≤ 1 ∨ ZeroRows entry tTable 0 (getTimeTableEntrySize .type_64bit))) ∧
    ∀ newDepth, entry.depth ≤ newDepth →
      (SameContents entry (segEntryExpandDepth entry newDepth) ↔
        entry.type = .type_64bit ∨
          ZeroRows entry tTable (getTimeTableEntrySize .type_64bit)
            (getTimeTableEntrySize .type_32bit)) :=
  ⟨convert_iff htable, fun _ => expand_iff htable⟩

/-- Two levels of the first word are set. -/
def twoLevels : SegEntry where
  tTable := some fun j => if j = 0 then 5 else if j = 1 then 3 else 0
  versions := fun i => if i = 0 then 2 else 0
  type := .type_64bit
  depth := 2

theorem relayout_iff_twoLevels :
    SameContents twoLevels (segEntryExpandDepth twoLevels 4) ↔
      TableType.type_64bit = .type_64bit ∨
        ZeroRows twoLevels (fun j => if j = 0 then 5 else if j = 1 then 3 else 0)
          (getTimeTableEntrySize .type_64bit) (getTimeTableEntrySize .type_32bit) :=
  (relayout_iff (show twoLevels.tTable = some _ from rfl)).2 4 (by decide)

/-- Splitting the words of that entry loses a time. -/
theorem convert_twoLevels : ¬SameContents twoLevels (segEntryConvertTo32bit twoLevels) := by
  rw [convert_iff (show twoLevels.tTable = some _ from rfl) rfl]
  rintro (hdepth | hzero)
  · exact absurd hdepth (by decide)
  · exact absurd (hzero 0 (Nat.le_refl 0) (by decide) 0 (by decide)) (by decide)

end Kremlin.Shadow.STV
