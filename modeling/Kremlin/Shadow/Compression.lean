/-
  Kremlin.Shadow.Compression — packing the tables of a page.

  `compress` stores each level as its difference from the level above, and the
  uppermost level as it is; each such array is replaced by the differences of
  neighbouring entries and given to LZO.  It walks the levels downwards and
  destroys their arrays on the way.  `decompress` walks upwards and rebuilds
  each level from the one above.  All arithmetic is that of 64-bit words.

  LZO is a parameter: what it makes of a buffer, and how many bytes that takes.
  `compressData` mallocs as many bytes for the output as the array has.  LZO is
  given no bound, so an output that is longer runs past the end of its chunk: the
  table keeps the length it was told, and the `free` in `decompressData` stops the
  program.

  Main results:
    * `compress_eq` — compressing a page packs its levels;
    * `decompress_packed`, `decompress_packed_none` — decompressing gives the page,
      if the outputs for all its levels fit their chunks, and fails if one does not;
    * `decompress_compress_iff` — so a page comes back exactly when they fit.
-/
import Kremlin.Shadow.LevelTable
import Kremlin.Shadow.Lzo
import Kremlin.Library.Differences
import Mathlib.Data.List.GetD

namespace Kremlin.Shadow

open Kremlin.Library

/-! ## §1. The operations. -/

namespace LevelTable

/-- `makeDiff`: each word of the first half becomes its difference to the one before. -/
def makeDiff (array : List Time) : List Time := differences (TIMETABLE_SIZE / 2 - 1) array

/-- `restoreDiff`: the running sums. -/
def restoreDiff (array : List Time) : List Time := sums (TIMETABLE_SIZE / 2 - 1) array

/-- `for (j…) dst[j] = a[j] - b[j]`. -/
def subtract (a b : List Time) : List Time :=
  (List.range (TIMETABLE_SIZE / 2)).map fun j => a.getD j 0 - b.getD j 0

/-- `malloc(decomp_size)` in `compressData`: the chunk an output is written to. -/
def CHUNK_BYTES : ℕ := TIMETABLE_BYTES

/-- Table `t` with `diffs` packed behind its pointer.  Of an output of more than
`CHUNK_BYTES` the end is not in the chunk. -/
def pack (lzo : Lzo) (t : TimeTable) (diffs : List Time) : TimeTable :=
  let compressed := lzo.compress (makeDiff diffs)
  { t with array := compressed.1, size := compressed.2 % 2 ^ 32 }

/-- What is packed behind the pointer of `t`; `none` where the output ran past its
chunk and over the heap's own data, which `free` finds. -/
def unpack (lzo : Lzo) (t : TimeTable) : Option (List Time) :=
  if t.size ≤ CHUNK_BYTES then some (restoreDiff (lzo.decompress t.array t.size)) else none

/-- `srcLen - compLen`. -/
def gain (compLen : ℕ) : BitVec 64 := BitVec.ofNat 64 TIMETABLE_BYTES - BitVec.ofNat 64 compLen

/-- `for (i = n; i >= 1; --i)` of `compress`.  A level whose upper neighbour is
missing makes it read through a null pointer. -/
def compressLevels (lzo : Lzo) : ℕ → LevelTable → BitVec 64 → Option (LevelTable × BitVec 64)
  | 0, lt, compressionSavings => some (lt, compressionSavings)
  | i + 1, lt, compressionSavings =>
      match lt.time_tables (i + 1), lt.time_tables i with
      | .null, _ => compressLevels lzo i lt compressionSavings
      | .table tt2, .table ttPrev =>
          let tt2' := pack lzo tt2 (subtract ttPrev.array tt2.array)
          compressLevels lzo i (lt.setTimeTableAtLevel (i + 1) (.table tt2'))
            (compressionSavings + gain (lzo.compress (makeDiff
              (subtract ttPrev.array tt2.array))).2)
      | _, _ => none

/-- `LevelTable::compress`: the levels above the lowest as differences, from the highest down,
then the lowest one. -/
def compress (lzo : Lzo) (lt : LevelTable) : Option (LevelTable × BitVec 64) :=
  match lt.time_tables 0 with
  | .null => some ({ lt with compressed := true }, 0)
  | .freed => none
  | .table tt1 => do
      let (lt', compressionSavings) ← compressLevels lzo (MAX_LEVEL - 1) lt 0
      some ({ lt'.setTimeTableAtLevel 0 (.table (pack lzo tt1 tt1.array)) with
          compressed := true },
        compressionSavings + gain (lzo.compress (makeDiff tt1.array)).2)

/-- `n` rounds of the loop of `decompress`, after the one for level `i`. -/
def decompressLevels (lzo : Lzo) : ℕ → ℕ → LevelTable → BitVec 64 →
    Option (LevelTable × BitVec 64)
  | 0, _, lt, decompressionCost => some (lt, decompressionCost)
  | n + 1, i, lt, decompressionCost =>
      match lt.time_tables (i + 1), lt.time_tables i with
      | .null, _ => some (lt, decompressionCost)
      | .table tt2, .table ttPrev => do
          let diffBuffer ← unpack lzo tt2
          let tt2' := { tt2 with
            array := subtract ttPrev.array diffBuffer, size := TIMETABLE_BYTES }
          decompressLevels lzo n (i + 1) (lt.setTimeTableAtLevel (i + 1) (.table tt2'))
            (decompressionCost + gain tt2.size)
      | _, _ => none

/-- `LevelTable::decompress`: the lowest level first, then each level from the one below. -/
def decompress (lzo : Lzo) (lt : LevelTable) : Option (LevelTable × BitVec 64) :=
  match lt.time_tables 0 with
  | .null => some ({ lt with compressed := false }, 0)
  | .freed => none
  | .table tt1 => do
      let decompedArray ← unpack lzo tt1
      let tt1' := { tt1 with array := decompedArray, size := TIMETABLE_BYTES }
      let (lt', decompressionCost) ←
        decompressLevels lzo (MAX_LEVEL - 1) 0 (lt.setTimeTableAtLevel 0 (.table tt1'))
          (gain tt1.size)
      some ({ lt' with compressed := false }, decompressionCost)

theorem compressed_of_compress {lzo : Lzo} {lt lt' : LevelTable} {savings : BitVec 64}
    (h : lt.compress lzo = some (lt', savings)) : lt'.compressed = true := by
  unfold compress at h
  split at h
  · cases h
    rfl
  · cases h
  · obtain ⟨r, _, hr⟩ := Option.bind_eq_some_iff.mp h
    cases hr
    rfl

theorem compressed_of_decompress {lzo : Lzo} {lt lt' : LevelTable} {cost : BitVec 64}
    (h : lt.decompress lzo = some (lt', cost)) : lt'.compressed = false := by
  unfold decompress at h
  split at h
  · cases h
    rfl
  · cases h
  · obtain ⟨_, _, h⟩ := Option.bind_eq_some_iff.mp h
    obtain ⟨r, _, hr⟩ := Option.bind_eq_some_iff.mp h
    cases hr
    rfl

/-! ## §2. One array. -/

/-- A 64-bit table that is not packed. -/
structure Plain (t : TimeTable) : Prop where
  type : t.type = .type_64bit
  size : t.size = TIMETABLE_BYTES
  length : t.array.length = TIMETABLE_SIZE / 2

theorem restoreDiff_makeDiff {array : List Time} (h : array.length = TIMETABLE_SIZE / 2) :
    restoreDiff (makeDiff array) = array := by
  apply sums_differences
  rw [h]
  decide

@[simp] theorem length_makeDiff (array : List Time) : (makeDiff array).length = array.length :=
  length_differences _ _

@[simp] theorem length_subtract (a b : List Time) :
    (subtract a b).length = TIMETABLE_SIZE / 2 := by
  simp only [subtract, List.length_map, List.length_range]

theorem getD_subtract (a b : List Time) {j : ℕ} (hj : j < TIMETABLE_SIZE / 2) :
    (subtract a b).getD j 0 = a.getD j 0 - b.getD j 0 := by
  rw [List.getD_eq_getElem?_getD, subtract, List.getElem?_map, List.getElem?_range hj]
  rfl

/-- Subtracting the differences from the level above gives the level back. -/
theorem subtract_subtract (a : List Time) {b : List Time} (h : b.length = TIMETABLE_SIZE / 2) :
    subtract a (subtract a b) = b := by
  apply List.ext_getElem (by rw [length_subtract, h])
  intro j hj hj'
  rw [length_subtract] at hj
  have hentry := getD_subtract a (subtract a b) hj
  rw [getD_subtract a b hj, sub_sub_cancel, List.getD_eq_getElem _ _ hj',
    List.getD_eq_getElem _ _ (by rw [length_subtract]; exact hj)] at hentry
  exact hentry

/-- The output for `diffs` is no longer than its chunk. -/
def FitsChunk (lzo : Lzo) (diffs : List Time) : Prop :=
  (lzo.compress (makeDiff diffs)).2 ≤ CHUNK_BYTES

instance (lzo : Lzo) (diffs : List Time) : Decidable (FitsChunk lzo diffs) :=
  inferInstanceAs (Decidable (_ ≤ _))

variable {lzo : Lzo} (hlossless : lzo.Lossless) (hsmall : lzo.Small)
include hsmall

/-- The length of the output is stored as it is. -/
theorem size_pack (t : TimeTable) (diffs : List Time) :
    (pack lzo t diffs).size = (lzo.compress (makeDiff diffs)).2 := by
  have h := hsmall (makeDiff diffs)
  exact Nat.mod_eq_of_lt (by omega)

/-- An output that ran past its chunk is not unpacked. -/
theorem unpack_pack_none (t : TimeTable) {diffs : List Time} (h : ¬FitsChunk lzo diffs) :
    unpack lzo (pack lzo t diffs) = none := by
  unfold unpack
  rw [size_pack hsmall]
  exact if_neg h

include hlossless

/-- What was packed comes out again. -/
theorem unpack_pack (t : TimeTable) {diffs : List Time}
    (h : diffs.length = TIMETABLE_SIZE / 2) (hfits : FitsChunk lzo diffs) :
    unpack lzo (pack lzo t diffs) = some diffs := by
  have hdiff : (makeDiff diffs).length = TIMETABLE_SIZE / 2 := by rw [length_makeDiff, h]
  unfold unpack
  rw [size_pack hsmall, if_pos (show (lzo.compress (makeDiff diffs)).2 ≤ CHUNK_BYTES from hfits)]
  show some (restoreDiff (lzo.decompress (lzo.compress (makeDiff diffs)).1 _)) = _
  rw [hlossless _ hdiff, restoreDiff_makeDiff h]

/-! ## §3. A whole page. -/

/-- The tables of the page fill its first `k` levels, and none is packed. -/
def Occupies (lt : LevelTable) (k : ℕ) : Prop :=
  ∀ l < MAX_LEVEL,
    if l < k then ∃ t, lt.time_tables l = .table t ∧ Plain t else lt.time_tables l = .null

/-- The table of level `l`; any table where there is none. -/
def tableAt (lt : LevelTable) (l : ℕ) : TimeTable :=
  match lt.time_tables l with
  | .table t => t
  | _ => .new .type_64bit

/-- What is packed for level `l`: its difference from the level above. -/
def levelDiffs (lt : LevelTable) : ℕ → List Time
  | 0 => (lt.tableAt 0).array
  | l + 1 => subtract (lt.tableAt l).array (lt.tableAt (l + 1)).array

/-- **The outputs for the first `k` levels fit their chunks.** -/
def FitsChunks (lzo : Lzo) (lt : LevelTable) (k : ℕ) : Prop :=
  ∀ l < k, FitsChunk lzo (lt.levelDiffs l)

/-- No table of the page is longer than a chunk. -/
def Intact (lt : LevelTable) : Prop :=
  ∀ l < MAX_LEVEL, ∀ t, lt.time_tables l = .table t → t.size ≤ CHUNK_BYTES

/-- The table of level `l + 1` once it is packed. -/
def packedAt (lzo : Lzo) (lt : LevelTable) (l : ℕ) : TimeTable :=
  pack lzo (lt.tableAt (l + 1)) (subtract (lt.tableAt l).array (lt.tableAt (l + 1)).array)

/-- The page with the levels `n + 1, …, k - 1` packed. -/
def packedAbove (lzo : Lzo) (lt : LevelTable) (k n : ℕ) : LevelTable :=
  { lt with
    time_tables := fun l =>
      if n < l ∧ l < k then .table (packedAt lzo lt (l - 1)) else lt.time_tables l }

section Occupies

omit hlossless hsmall

variable {lt : LevelTable} {k : ℕ}

theorem Occupies.table (h : lt.Occupies k) (hk : k ≤ MAX_LEVEL) {l : ℕ} (hl : l < k) :
    lt.time_tables l = .table (lt.tableAt l) ∧ Plain (lt.tableAt l) := by
  have hocc := h l (by omega)
  rw [if_pos hl] at hocc
  obtain ⟨t, ht, hplain⟩ := hocc
  unfold tableAt
  rw [ht]
  exact ⟨rfl, hplain⟩

theorem Occupies.null (h : lt.Occupies k) {l : ℕ} (hkl : k ≤ l) (hl : l < MAX_LEVEL) :
    lt.time_tables l = .null := by
  have hocc := h l hl
  rw [if_neg (by omega)] at hocc
  exact hocc

/-- With no level left to pack the page is as it was. -/
theorem packedAbove_of_le (lzo : Lzo) (lt : LevelTable) {k n : ℕ} (h : k ≤ n + 1) :
    packedAbove lzo lt k n = lt := by
  have hnone : ∀ l, ¬(n < l ∧ l < k) := by omega
  simp only [packedAbove, hnone, if_false]

/-- Writing the packed table of one more level. -/
theorem packedAbove_pack (lzo : Lzo) {k n : ℕ} (h : n + 1 < k) :
    (packedAbove lzo lt k (n + 1)).setTimeTableAtLevel (n + 1) (.table (packedAt lzo lt n))
      = packedAbove lzo lt k n := by
  simp only [packedAbove, setTimeTableAtLevel]
  congr 1
  funext l
  rw [Function.update_apply]
  by_cases hl : l = n + 1
  · subst hl
    rw [if_pos rfl, if_pos ⟨by omega, h⟩]
    rfl
  · rw [if_neg hl]
    have hiff : n + 1 < l ∧ l < k ↔ n < l ∧ l < k := by omega
    simp only [hiff]

/-- Writing the plain table of one more level. -/
theorem packedAbove_unpack (lzo : Lzo) (hocc : lt.Occupies k) (hk : k ≤ MAX_LEVEL) {n : ℕ}
    (h : n + 1 < k) :
    (packedAbove lzo lt k n).setTimeTableAtLevel (n + 1) (.table (lt.tableAt (n + 1)))
      = packedAbove lzo lt k (n + 1) := by
  simp only [packedAbove, setTimeTableAtLevel]
  congr 1
  funext l
  rw [Function.update_apply]
  by_cases hl : l = n + 1
  · subst hl
    rw [if_pos rfl, if_neg (by omega), (hocc.table hk h).1]
  · rw [if_neg hl]
    have hiff : n < l ∧ l < k ↔ n + 1 < l ∧ l < k := by omega
    simp only [hiff]

/-- **The downward walk packs every level but the uppermost.** -/
theorem compressLevels_packedAbove (lzo : Lzo) (hocc : lt.Occupies k) (hk : k ≤ MAX_LEVEL)
    {n : ℕ} (hn : n < MAX_LEVEL) (savings : BitVec 64) :
    ∃ savings', compressLevels lzo n (packedAbove lzo lt k n) savings
      = some (packedAbove lzo lt k 0, savings') := by
  induction n generalizing savings with
  | zero => exact ⟨savings, rfl⟩
  | succ n ih =>
      have hhere : (packedAbove lzo lt k (n + 1)).time_tables (n + 1) = lt.time_tables (n + 1) :=
        if_neg (by omega)
      have hprev : (packedAbove lzo lt k (n + 1)).time_tables n = lt.time_tables n :=
        if_neg (by omega)
      unfold compressLevels
      rw [hhere, hprev]
      by_cases h : n + 1 < k
      · rw [(hocc.table hk h).1, (hocc.table hk (show n < k by omega)).1]
        show ∃ savings', compressLevels lzo n
          ((packedAbove lzo lt k (n + 1)).setTimeTableAtLevel (n + 1)
            (.table (packedAt lzo lt n))) _ = _
        rw [packedAbove_pack lzo h]
        exact ih (by omega) _
      · rw [hocc.null (by omega) hn]
        have hsame : packedAbove lzo lt k (n + 1) = packedAbove lzo lt k n := by
          rw [packedAbove_of_le lzo lt (by omega), packedAbove_of_le lzo lt (by omega)]
        rw [hsame]
        exact ih (by omega) _

end Occupies

variable {lt : LevelTable} {k : ℕ}

/-- One round of the upward walk, for a level that fits its chunk. -/
theorem decompressLevels_succ (hocc : lt.Occupies k) (hk : k ≤ MAX_LEVEL) {i : ℕ} (h : i + 1 < k)
    (hfits : FitsChunk lzo (lt.levelDiffs (i + 1))) (n : ℕ) (cost : BitVec 64) :
    decompressLevels lzo (n + 1) i (packedAbove lzo lt k i) cost
      = decompressLevels lzo n (i + 1) (packedAbove lzo lt k (i + 1))
          (cost + gain (packedAt lzo lt i).size) := by
  have hprev : (packedAbove lzo lt k i).time_tables i = lt.time_tables i := if_neg (by omega)
  have hhere : (packedAbove lzo lt k i).time_tables (i + 1) = .table (packedAt lzo lt i) :=
    if_pos ⟨by omega, h⟩
  have hplain := (hocc.table hk h).2
  have hback : unpack lzo (packedAt lzo lt i)
      = some (subtract (lt.tableAt i).array (lt.tableAt (i + 1)).array) :=
    unpack_pack hlossless hsmall _ (length_subtract _ _) hfits
  have htable : ({ packedAt lzo lt i with
      array := subtract (lt.tableAt i).array
        (subtract (lt.tableAt i).array (lt.tableAt (i + 1)).array),
      size := TIMETABLE_BYTES } : TimeTable) = lt.tableAt (i + 1) := by
    rw [subtract_subtract _ hplain.length, ← hplain.size]
    rfl
  rw [decompressLevels, hhere, hprev, (hocc.table hk (show i < k by omega)).1]
  simp only [hback, Option.bind_eq_bind, Option.bind_some, htable]
  rw [packedAbove_unpack lzo hocc hk h]

/-- **The upward walk restores every level from the one above it.** -/
theorem decompressLevels_packedAbove (hocc : lt.Occupies k) (hk : k ≤ MAX_LEVEL) {n i : ℕ}
    (hn : i + n + 1 = MAX_LEVEL)
    (hfits : ∀ l, i < l → l < k → FitsChunk lzo (lt.levelDiffs l)) (cost : BitVec 64) :
    ∃ cost', decompressLevels lzo n i (packedAbove lzo lt k i) cost = some (lt, cost') := by
  induction n generalizing i cost with
  | zero =>
      have hdone : packedAbove lzo lt k i = lt := packedAbove_of_le lzo lt (by omega)
      rw [hdone]
      exact ⟨cost, rfl⟩
  | succ n ih =>
      by_cases h : i + 1 < k
      · rw [decompressLevels_succ hlossless hsmall hocc hk h (hfits (i + 1) (by omega) h)]
        exact ih (by omega) (fun l hl => hfits l (by omega)) _
      · have hhere : (packedAbove lzo lt k i).time_tables (i + 1) = .null := by
          rw [← hocc.null (show k ≤ i + 1 by omega) (by omega)]
          exact if_neg (by omega)
        rw [decompressLevels, hhere, packedAbove_of_le lzo lt (by omega)]
        exact ⟨cost, rfl⟩

/-- **The upward walk stops at a level that does not fit.** -/
theorem decompressLevels_none (hocc : lt.Occupies k) (hk : k ≤ MAX_LEVEL) {n i l : ℕ}
    (hn : i + n + 1 = MAX_LEVEL) (hil : i < l) (hl : l < k)
    (hover : ¬FitsChunk lzo (lt.levelDiffs l)) (cost : BitVec 64) :
    decompressLevels lzo n i (packedAbove lzo lt k i) cost = none := by
  induction n generalizing i cost with
  | zero => omega
  | succ n ih =>
      have h : i + 1 < k := by omega
      by_cases hfits : FitsChunk lzo (lt.levelDiffs (i + 1))
      · -- this level comes back; the one that does not is further down
        have hne : i + 1 ≠ l := fun heq => hover (heq ▸ hfits)
        rw [decompressLevels_succ hlossless hsmall hocc hk h hfits]
        exact ih (by omega) (by omega) _
      · have hprev : (packedAbove lzo lt k i).time_tables i = lt.time_tables i :=
          if_neg (by omega)
        have hhere : (packedAbove lzo lt k i).time_tables (i + 1) = .table (packedAt lzo lt i) :=
          if_pos ⟨by omega, h⟩
        have hnone : unpack lzo (packedAt lzo lt i) = none := unpack_pack_none hsmall _ hfits
        rw [decompressLevels, hhere, hprev, (hocc.table hk (show i < k by omega)).1]
        simp only [hnone, Option.bind_eq_bind, Option.bind_none]

/-- The page with all its levels packed. -/
def packed (lzo : Lzo) (lt : LevelTable) (k : ℕ) : LevelTable where
  versions := lt.versions
  time_tables l :=
    if l < k then
      .table (if l = 0 then pack lzo (lt.tableAt 0) (lt.tableAt 0).array
        else packedAt lzo lt (l - 1))
    else lt.time_tables l
  compressed := true

omit hlossless hsmall in
/-- The uppermost level is packed last. -/
theorem packed_eq (lzo : Lzo) (lt : LevelTable) (hk : 0 < k) :
    packed lzo lt k = { (packedAbove lzo lt k 0).setTimeTableAtLevel 0
      (.table (pack lzo (lt.tableAt 0) (lt.tableAt 0).array)) with compressed := true } := by
  simp only [packed, packedAbove, setTimeTableAtLevel]
  congr 1
  funext l
  rw [Function.update_apply]
  by_cases hl : l = 0
  · subst hl
    rw [if_pos hk, if_pos rfl, if_pos rfl]
  · have hiff : l < k ↔ 0 < l ∧ l < k := by omega
    rw [if_neg hl, if_neg hl]
    exact if_congr hiff rfl rfl

omit hlossless hsmall in
theorem packed_zero (lzo : Lzo) (lt : LevelTable) :
    packed lzo lt 0 = { lt with compressed := true } := rfl

omit hlossless hsmall in
/-- **Compressing a page packs its levels.** -/
theorem compress_eq (lzo : Lzo) (hk : k ≤ MAX_LEVEL) (hocc : lt.Occupies k) :
    ∃ savings, lt.compress lzo = some (packed lzo lt k, savings) := by
  rcases Nat.eq_zero_or_pos k with rfl | hpos
  · have hnull := hocc.null (l := 0) (Nat.le_refl 0) (by decide)
    refine ⟨0, ?_⟩
    unfold compress
    rw [hnull, packed_zero]
  · obtain ⟨savings, hdown⟩ :=
      compressLevels_packedAbove lzo hocc hk (show MAX_LEVEL - 1 < MAX_LEVEL by decide) 0
    rw [packedAbove_of_le lzo lt (show k ≤ MAX_LEVEL - 1 + 1 by
      rw [Nat.sub_add_cancel (by decide)]; exact hk)] at hdown
    refine ⟨savings + gain (lzo.compress (makeDiff (lt.tableAt 0).array)).2, ?_⟩
    unfold compress
    rw [(hocc.table hk hpos).1]
    show (compressLevels lzo (MAX_LEVEL - 1) lt 0).bind _ = _
    rw [hdown, packed_eq lzo lt hpos]
    rfl

omit hlossless hsmall in
/-- The uppermost table is the first to be unpacked. -/
theorem decompress_packed_eq (lzo : Lzo) (lt : LevelTable) (hk : 0 < k) :
    (packed lzo lt k).decompress lzo =
      (unpack lzo (pack lzo (lt.tableAt 0) (lt.tableAt 0).array)).bind fun decompedArray =>
        (decompressLevels lzo (MAX_LEVEL - 1) 0
          ((packed lzo lt k).setTimeTableAtLevel 0 (.table
            { pack lzo (lt.tableAt 0) (lt.tableAt 0).array with
              array := decompedArray, size := TIMETABLE_BYTES }))
          (gain (pack lzo (lt.tableAt 0) (lt.tableAt 0).array).size)).map
            fun r => ({ r.1 with compressed := false }, r.2) := by
  have htop : (packed lzo lt k).time_tables 0
      = .table (pack lzo (lt.tableAt 0) (lt.tableAt 0).array) := if_pos hk
  unfold decompress
  rw [htop]
  refine congrArg (Option.bind _) (funext fun decompedArray => ?_)
  exact (Option.map_eq_bind).symm

omit hlossless hsmall in
/-- With the uppermost table in place, the levels below it are still packed. -/
theorem packed_restore (lzo : Lzo) (hocc : lt.Occupies k) (hk : k ≤ MAX_LEVEL) (hpos : 0 < k) :
    (packed lzo lt k).setTimeTableAtLevel 0 (.table
        { pack lzo (lt.tableAt 0) (lt.tableAt 0).array with
          array := (lt.tableAt 0).array, size := TIMETABLE_BYTES })
      = packedAbove lzo { lt with compressed := true } k 0 := by
  have htop := hocc.table hk hpos
  have htable : ({ pack lzo (lt.tableAt 0) (lt.tableAt 0).array with
      array := (lt.tableAt 0).array, size := TIMETABLE_BYTES } : TimeTable) = lt.tableAt 0 := by
    rw [← htop.2.size]
    rfl
  rw [htable, packed_eq lzo lt hpos]
  have hzero : (packedAbove lzo lt k 0).time_tables 0 = .table (lt.tableAt 0) := htop.1
  simp only [setTimeTableAtLevel, Function.update_idem]
  rw [← hzero, Function.update_eq_self]
  rfl

/-- **Decompressing the packed levels** gives the page, if they all fit. -/
theorem decompress_packed (hk : k ≤ MAX_LEVEL) (hocc : lt.Occupies k)
    (hfits : lt.FitsChunks lzo k) :
    ∃ cost, (packed lzo lt k).decompress lzo
      = some ({ lt with compressed := false }, cost) := by
  rcases Nat.eq_zero_or_pos k with rfl | hpos
  · -- an empty page: only the flag moves
    have hnull := hocc.null (l := 0) (Nat.le_refl 0) (by decide)
    refine ⟨0, ?_⟩
    unfold decompress
    rw [packed_zero, show ({ lt with compressed := true } : LevelTable).time_tables 0 = .null
      from hnull]
  · have hback : unpack lzo (pack lzo (lt.tableAt 0) (lt.tableAt 0).array)
        = some (lt.tableAt 0).array :=
      unpack_pack hlossless hsmall _ (hocc.table hk hpos).2.length (hfits 0 hpos)
    -- from here on the page is `lt` with the flag set
    have hocc₁ : ({ lt with compressed := true } : LevelTable).Occupies k := hocc
    obtain ⟨cost, hup⟩ := decompressLevels_packedAbove hlossless hsmall hocc₁ hk
      (show 0 + (MAX_LEVEL - 1) + 1 = MAX_LEVEL by decide) (fun l _ hl => hfits l hl)
      (gain (pack lzo (lt.tableAt 0) (lt.tableAt 0).array).size)
    refine ⟨cost, ?_⟩
    rw [decompress_packed_eq lzo lt hpos, hback, Option.bind_some, packed_restore lzo hocc hk hpos,
      hup]
    rfl

/-- **A level that does not fit** keeps the page from being decompressed. -/
theorem decompress_packed_none (hk : k ≤ MAX_LEVEL) (hocc : lt.Occupies k)
    (hover : ¬lt.FitsChunks lzo k) : (packed lzo lt k).decompress lzo = none := by
  obtain ⟨l, hl, hnot⟩ : ∃ l, l < k ∧ ¬FitsChunk lzo (lt.levelDiffs l) := by
    simpa [FitsChunks] using hover
  have hpos : 0 < k := by omega
  rw [decompress_packed_eq lzo lt hpos]
  by_cases htop : FitsChunk lzo (lt.tableAt 0).array
  · have hback : unpack lzo (pack lzo (lt.tableAt 0) (lt.tableAt 0).array)
        = some (lt.tableAt 0).array :=
      unpack_pack hlossless hsmall _ (hocc.table hk hpos).2.length htop
    have hne : l ≠ 0 := by
      rintro rfl
      exact hnot htop
    have hocc₁ : ({ lt with compressed := true } : LevelTable).Occupies k := hocc
    rw [hback, Option.bind_some, packed_restore lzo hocc hk hpos,
      decompressLevels_none hlossless hsmall hocc₁ hk
        (show 0 + (MAX_LEVEL - 1) + 1 = MAX_LEVEL by decide) (by omega) hl hnot]
    rfl
  · rw [unpack_pack_none hsmall _ htop]
    rfl

omit hlossless in
/-- A packed page is intact if its levels fit. -/
theorem intact_packed (hk : k ≤ MAX_LEVEL) (hocc : lt.Occupies k) :
    (packed lzo lt k).Intact ↔ lt.FitsChunks lzo k := by
  have hsize : ∀ l < k, ∃ t, (packed lzo lt k).time_tables l = .table t ∧
      t.size = (lzo.compress (makeDiff (lt.levelDiffs l))).2 := by
    intro l hl
    refine ⟨_, if_pos hl, ?_⟩
    cases l with
    | zero => exact size_pack hsmall _ _
    | succ l => exact size_pack hsmall _ _
  constructor
  · intro h l hl
    obtain ⟨t, ht, hlen⟩ := hsize l hl
    have hle := h l (by omega) t ht
    rwa [hlen] at hle
  · intro h l hl t ht
    by_cases hlk : l < k
    · obtain ⟨u, hu, hlen⟩ := hsize l hlk
      rw [hu] at ht
      cases ht
      rw [hlen]
      exact h l hlk
    · rw [show (packed lzo lt k).time_tables l = lt.time_tables l from if_neg hlk,
        hocc.null (by omega) hl] at ht
      cases ht

omit hlossless hsmall in
/-- An unpacked page is intact: a chunk has the length of an array. -/
theorem Occupies.intact (hocc : lt.Occupies k) (hk : k ≤ MAX_LEVEL) : lt.Intact := by
  intro l hl t ht
  by_cases hlk : l < k
  · obtain ⟨htable, hplain⟩ := hocc.table hk hlk
    rw [htable] at ht
    cases ht
    exact hplain.size.le
  · rw [hocc.null (by omega) hl] at ht
    cases ht

omit hlossless hsmall in
theorem Occupies.length_levelDiffs (hocc : lt.Occupies k) (hk : k ≤ MAX_LEVEL) {l : ℕ}
    (hl : l < k) : (lt.levelDiffs l).length = TIMETABLE_SIZE / 2 := by
  cases l with
  | zero => exact (hocc.table hk hl).2.length
  | succ l => exact length_subtract _ _

omit hlossless hsmall in
/-- With a library that never needs more room than the array, every page fits. -/
theorem Occupies.fitsChunks (hfits : lzo.Fits) (hocc : lt.Occupies k) (hk : k ≤ MAX_LEVEL) :
    lt.FitsChunks lzo k :=
  fun _ hl => hfits _ ((length_makeDiff _).trans (hocc.length_levelDiffs hk hl))

/-- **A page comes back from compression exactly when every level fits its chunk**,
with the arrays, the sizes and the flag it had. -/
theorem decompress_compress_iff (hk : k ≤ MAX_LEVEL) (hocc : lt.Occupies k)
    (hplain : lt.compressed = false) :
    (∃ packed savings cost, lt.compress lzo = some (packed, savings) ∧
        packed.compressed = true ∧ packed.decompress lzo = some (lt, cost)) ↔
      lt.FitsChunks lzo k := by
  obtain ⟨savings, hcompress⟩ := compress_eq lzo hk hocc
  constructor
  · rintro ⟨page, _, cost, hpage, -, hdecompress⟩
    rw [hcompress] at hpage
    cases hpage
    by_contra hover
    rw [decompress_packed_none hlossless hsmall hk hocc hover] at hdecompress
    cases hdecompress
  · intro hfits
    obtain ⟨cost, hdecompress⟩ := decompress_packed hlossless hsmall hk hocc hfits
    have hflag : ({ lt with compressed := false } : LevelTable) = lt := by
      rw [← hplain]
    rw [hflag] at hdecompress
    exact ⟨packed lzo lt k, savings, cost, hcompress, rfl, hdecompress⟩

omit hlossless hsmall

/-! ## §4. Pages that fit and pages that do not. -/

/-- A 64-bit table with these times. -/
def tableOf (times : List Time) : TimeTable := { TimeTable.new .type_64bit with array := times }

theorem plain_tableOf {times : List Time} (h : times.length = TIMETABLE_SIZE / 2) :
    Plain (tableOf times) := ⟨rfl, rfl, h⟩

/-- A page with one table. -/
def pageOfOne (times : List Time) : LevelTable :=
  (new false).setTimeTableAtLevel 0 (.table (tableOf times))

theorem occupies_pageOfOne {times : List Time} (h : times.length = TIMETABLE_SIZE / 2) :
    (pageOfOne times).Occupies 1 := by
  intro l _
  unfold pageOfOne
  rw [time_tables_setTimeTableAtLevel, Function.update_apply]
  by_cases hl : l < 1
  · obtain rfl : l = 0 := by omega
    rw [if_pos hl, if_pos rfl]
    exact ⟨_, rfl, plain_tableOf h⟩
  · rw [if_neg hl, if_neg (by omega)]
    rfl

theorem levelDiffs_pageOfOne (times : List Time) : (pageOfOne times).levelDiffs 0 = times := rfl

/-- A page with two tables. -/
def pageOfTwo (times times' : List Time) : LevelTable :=
  (pageOfOne times).setTimeTableAtLevel 1 (.table (tableOf times'))

theorem occupies_pageOfTwo {times times' : List Time} (h : times.length = TIMETABLE_SIZE / 2)
    (h' : times'.length = TIMETABLE_SIZE / 2) : (pageOfTwo times times').Occupies 2 := by
  intro l hl
  have hone := occupies_pageOfOne h l hl
  unfold pageOfTwo
  rw [time_tables_setTimeTableAtLevel, Function.update_apply]
  by_cases hl1 : l = 1
  · rw [if_pos hl1, if_pos (by omega)]
    exact ⟨_, rfl, plain_tableOf h'⟩
  · rw [if_neg hl1]
    have hiff : l < 2 ↔ l < 1 := by omega
    simp only [hiff]
    exact hone

/-- Neighbours of an entry, after `makeDiff`. -/
theorem getD_makeDiff {array : List Time} (h : array.length = TIMETABLE_SIZE / 2) (j : ℕ) :
    (makeDiff array).getD j 0
      = if 0 < j ∧ j ≤ TIMETABLE_SIZE / 2 - 1 then array.getD j 0 - array.getD (j - 1) 0
        else array.getD j 0 := by
  apply getD_differences
  rw [h]
  decide

/-- An array with one time in front. -/
def timeInFront (c : Time) : List Time := c :: List.replicate 511 0

theorem length_timeInFront (c : Time) : (timeInFront c).length = TIMETABLE_SIZE / 2 := by
  rw [timeInFront, List.length_cons, List.length_replicate]
  rfl

theorem getD_timeInFront (c : Time) (j : ℕ) :
    (timeInFront c).getD j 0 = if j = 0 then c else 0 := by
  cases j with
  | zero => rfl
  | succ j =>
      rw [if_neg (Nat.succ_ne_zero j), List.getD_eq_getElem?_getD]
      simp only [timeInFront, List.getElem?_cons_succ, List.getElem?_replicate]
      split <;> rfl

/-- The differences of neighbours are those `lzo` knows. -/
theorem makeDiff_timeInFront (c : Time) : makeDiff (timeInFront c) = Lzo.oneTime c := by
  apply List.ext_getElem
  · rw [length_makeDiff, length_timeInFront, Lzo.oneTime, List.length_cons, List.length_cons,
      List.length_replicate]
    decide
  · intro j hj hj'
    have hentry := getD_makeDiff (length_timeInFront c) j
    rw [List.getD_eq_getElem _ _ hj] at hentry
    rw [hentry, getD_timeInFront, getD_timeInFront]
    rcases j with _ | _ | j
    · rw [if_neg (by omega), if_pos rfl]
      rfl
    · rw [if_pos ⟨by omega, by decide⟩, if_neg (by omega), if_pos rfl]
      exact zero_sub c
    · simp only [Lzo.oneTime, List.getElem_cons_succ, List.getElem_replicate]
      split <;> simp

theorem subtract_timeInFront (c d : Time) :
    subtract (timeInFront c) (timeInFront d) = timeInFront (c - d) := by
  apply List.ext_getElem
  · rw [length_subtract, length_timeInFront]
  · intro j hj hj'
    rw [length_subtract] at hj
    have hentry := getD_subtract (timeInFront c) (timeInFront d) hj
    rw [List.getD_eq_getElem _ _ (by rw [length_subtract]; exact hj)] at hentry
    rw [hentry, ← List.getD_eq_getElem _ 0 hj']
    simp only [getD_timeInFront]
    split <;> simp

/-- An array with a small time in front takes 57 bytes. -/
theorem fitsChunk_timeInFront {c : Time} (h : 2 ≤ c.toNat) (h' : c.toNat < 256) :
    FitsChunk Lzo.lzoCopying (timeInFront c) := by
  have hknown : Lzo.known (Lzo.oneTime c) ≠ none := by
    unfold Lzo.known
    split
    · exact Option.some_ne_none _
    · rw [if_pos ⟨h, h', rfl⟩]
      exact Option.some_ne_none _
  obtain ⟨r, hr⟩ := Option.ne_none_iff_exists'.mp hknown
  unfold FitsChunk
  rw [makeDiff_timeInFront, Lzo.lzoCopying_compress, hr]
  exact (Lzo.size_known hr).trans (by decide)

/-- Two levels with other times come back. -/
theorem decompress_compress_iff_twoLevels :
    ∃ packed savings cost,
      (pageOfTwo (timeInFront 9) (timeInFront 4)).compress Lzo.lzoCopying
        = some (packed, savings) ∧ packed.compressed = true ∧
      packed.decompress Lzo.lzoCopying
        = some (pageOfTwo (timeInFront 9) (timeInFront 4), cost) := by
  refine (decompress_compress_iff Lzo.lossless_lzoCopying Lzo.small_lzoCopying (by decide)
    (occupies_pageOfTwo (length_timeInFront 9) (length_timeInFront 4)) rfl).mpr ?_
  intro l hl
  match l, hl with
  | 0, _ => exact fitsChunk_timeInFront (c := 9) (by decide) (by decide)
  | 1, _ =>
      show FitsChunk _ (subtract (timeInFront 9) (timeInFront 4))
      rw [subtract_timeInFront]
      exact fitsChunk_timeInFront (c := 9 - 4) (by decide) (by decide)

/-- 512 times whose differences are the multiples of an odd number: nothing comes
twice where LZO looks for it. -/
def scattered : List Time :=
  (List.range 512).map fun j => BitVec.ofNat 64 (0x9e3779b97f4a7c15 * ((j + 1) * (j + 2) / 2))

theorem length_scattered : scattered.length = TIMETABLE_SIZE / 2 := by
  rw [scattered, List.length_map, List.length_range]
  rfl

theorem scattered_zero : scattered.getD 0 0 = 0x9e3779b97f4a7c15 := by
  rw [List.getD_eq_getElem?_getD, scattered, List.getElem?_map, List.getElem?_range (by omega)]
  decide

theorem front_scattered : scattered.getD 0 0 ≠ 0 := by
  rw [scattered_zero]
  decide

/-- These differences are copied: 4116 bytes. -/
theorem not_fitsChunk_scattered : ¬FitsChunk Lzo.lzoCopying scattered := by
  have hfront : (makeDiff scattered).getD 0 0 = 0x9e3779b97f4a7c15 := by
    rw [getD_makeDiff length_scattered, if_neg (by omega), scattered_zero]
  have hsize : (Lzo.lzoCopying.compress (makeDiff scattered)).2 = 4116 := by
    apply Lzo.size_lzoCopying
    rw [hfront]
    decide
  unfold FitsChunk
  rw [hsize]
  decide

/-- **A page that does not come back**: its one array runs 20 bytes past the chunk. -/
theorem scattered_lost :
    Lzo.lzoCopying.Lossless ∧ Lzo.lzoCopying.Small ∧ (pageOfOne scattered).Occupies 1 ∧
      (pageOfOne scattered).compressed = false ∧
      ¬∃ packed savings cost, (pageOfOne scattered).compress Lzo.lzoCopying
          = some (packed, savings) ∧ packed.compressed = true ∧
        packed.decompress Lzo.lzoCopying = some (pageOfOne scattered, cost) := by
  have hocc := occupies_pageOfOne length_scattered
  refine ⟨Lzo.lossless_lzoCopying, Lzo.small_lzoCopying, hocc, rfl, ?_⟩
  rintro ⟨page, savings, cost, hcompress, -, hdecompress⟩
  have hk : 1 ≤ MAX_LEVEL := by decide
  obtain ⟨_, hpacked⟩ := compress_eq Lzo.lzoCopying hk hocc
  rw [hpacked] at hcompress
  cases hcompress
  rw [decompress_packed_none Lzo.lossless_lzoCopying Lzo.small_lzoCopying hk hocc
    fun hfits => not_fitsChunk_scattered
      (levelDiffs_pageOfOne scattered ▸ hfits 0 Nat.one_pos)] at hdecompress
  cases hdecompress

end LevelTable

end Kremlin.Shadow
