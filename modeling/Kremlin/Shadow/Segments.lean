/-
  Kremlin.Shadow.Segments — the address map of `MShadowBase` and `MShadowSTV`.

  Both files split an address in the same three parts: the upper half selects a
  segment of 4 GB, bits 16 to 31 an entry of 64 KB, and bits 2 to 15 a word of
  the entry; with 8-byte words the last of them is dropped.  They differ in how
  an entry stores its words, which `SegEntry` leaves open: memory is a function
  from cells, and a table that was not allocated is `none`.

  Both split the 8-byte words of a table with the same loop (`splitRows`).  It
  copies the row of a word twice, to cell `2 * depth * i` and to the cell behind
  it, where the row of the word's upper half would begin `depth` cells further
  on.
-/
import Kremlin.Library.KeyedList
import Kremlin.Library.RowCopy
import Kremlin.Shadow.TimeTable
import Mathlib.Data.Finset.Card
import Mathlib.Data.List.Basic
import Mathlib.Tactic.Ring

namespace Kremlin.Shadow

open Kremlin.Library

/-! ## §1. Entries. -/

/-- The number of 4-byte words of an entry. -/
def L2_SIZE : ℕ := 0x3fff + 1

/-- The tables of a 64 KB chunk.  Times and versions are only ever copied and
compared. -/
structure SegEntry where
  tTable : Option (ℕ → ℕ)
  versions : ℕ → ℕ
  type : TableType
  depth : ℕ

/-- `getTimeTableEntrySize`: the rows of a table of each width. -/
def getTimeTableEntrySize : TableType → ℕ
  | .type_64bit => L2_SIZE / 2
  | .type_32bit => L2_SIZE

/-- `SegTableEntryOffset`: the row of an address. -/
def segTableEntryOffset (addr : ℕ) (type : TableType) : ℕ :=
  let ret := (addr >>> 2) &&& 0x3fff
  match type with
  | .type_64bit => ret / 2
  | .type_32bit => ret

/-- `TimeTableGetIndex`: the first cell of the row. -/
def timeTableGetIndex (addr depth : ℕ) (type : TableType) : ℕ :=
  segTableEntryOffset addr type * depth

/-- `if (width > 4) type = TYPE_64BIT`. -/
def accessType (width : ℕ) : TableType := if 4 < width then .type_64bit else .type_32bit

/-- The first rounds of the loop that splits a table into 4-byte words; `ret` is
the new table before it. -/
def splitRows (ret table : ℕ → ℕ) (depth : ℕ) : ℕ → ℕ → ℕ
  | 0 => ret
  | i + 1 =>
      let ret' := memcpy (splitRows ret table depth i) (depth * 2 * i) table (depth * i) depth
      memcpy ret' (depth * 2 * i + 1) table (depth * i) depth

/-- A round writes `depth + 1` cells. -/
theorem splitRows_eq (ret table : ℕ → ℕ) {depth : ℕ} (hd : 0 < depth) (n : ℕ) :
    splitRows ret table depth n
      = writeRows (depth * 2) (depth + 1) (fun i k => table (depth * i + (k - 1))) ret n := by
  induction n with
  | zero => rfl
  | succ n ih =>
      unfold splitRows writeRows
      rw [memcpy_shifted _ _ _ _ hd, ih]

/-- The row of the lower half: the first cell is copied, the others come one
cell late. -/
theorem splitRows_lower (ret table : ℕ → ℕ) {depth n i l : ℕ} (hi : i < n) (hl : l < depth) :
    splitRows ret table depth n (2 * i * depth + l) = table (depth * i + (l - 1)) := by
  rw [splitRows_eq _ _ (by omega), show 2 * i * depth = depth * 2 * i by ring]
  exact writeRows_inside (by omega) _ _ hi (by omega)

/-- The row of the upper half begins with the last cell of the block. -/
theorem splitRows_upper (ret table : ℕ → ℕ) {depth n i l : ℕ} (hi : i < n) (hl : l < depth) :
    splitRows ret table depth n ((2 * i + 1) * depth + l)
      = if l = 0 then table (depth * i + (depth - 1)) else ret ((2 * i + 1) * depth + l) := by
  rw [splitRows_eq _ _ (by omega),
    show (2 * i + 1) * depth + l = depth * 2 * i + (depth + l) by ring]
  split
  next hzero =>
    subst hzero
    exact writeRows_inside (by omega) _ _ hi (by omega)
  next hpos =>
    exact writeRows_outside (by omega) _ _ (by omega) (.inl (by omega))

/-- Rows of different words do not meet. -/
theorem row_disjoint {depth size i j l : ℕ} (hij : i ≠ j) (hl : l < depth) (hsize : size ≤ depth) :
    i * depth + l < j * depth ∨ j * depth + size ≤ i * depth + l := by
  rcases Nat.lt_or_gt_of_ne hij with hlt | hgt
  · have hle := row_le depth hlt
    rw [Nat.mul_comm depth, Nat.mul_comm depth] at hle
    exact .inl (by omega)
  · have hle := row_le depth hgt
    rw [Nat.mul_comm depth, Nat.mul_comm depth] at hle
    exact .inr (by omega)

/-! ## §2. Segments. -/

/-- A segment of 4 GB: the entries by index. -/
abbrev SegTable := ℕ → SegEntry

/-- `calloc`, with the number of profiled levels as the depth of every entry. -/
def segTableAlloc (numProfiledLevels : ℕ) : SegTable :=
  fun _ => ⟨none, fun _ => 0, .type_64bit, numProfiledLevels⟩

/-- `SegTableGetIndex`: bits 16 to 31 of the address. -/
def segTableGetIndex (addr : ℕ) : ℕ := (addr >>> 16) &&& 0xffff

/-- An entry of the sparse table: the upper half of the addresses and their segments. -/
structure SEntry where
  addrHigh : ℕ
  segTable : SegTable

/-- `STABLE_SIZE`. -/
def STABLE_SIZE : ℕ := 32

/-- The sparse table up to `writePtr`. -/
abbrev STable := List SEntry

/-- The upper 32 bits of an address. -/
def highAddr (addr : ℕ) : ℕ := addr >>> 32

/-- The index of the segment.  A 33rd one would be written behind the table. -/
def sTableGetSegTable (numProfiledLevels addr : ℕ) (sTable : STable) : Option (ℕ × STable) :=
  match sTable.findIdx? fun e => e.addrHigh = highAddr addr with
  | some i => some (i, sTable)
  | none =>
      if sTable.length < STABLE_SIZE then
        some (sTable.length, sTable ++ [⟨highAddr addr, segTableAlloc numProfiledLevels⟩])
      else none

/-- What `get` and `set` do between finding the entry and returning: `access` is
the call made with it. -/
def withEntry {β : Type} (numProfiledLevels addr : ℕ) (access : SegEntry → β × SegEntry)
    (sTable : STable) : Option (β × STable) := do
  let (i, sTable) ← sTableGetSegTable numProfiledLevels addr sTable
  let segTable ← sTable[i]?
  let (ret, segEntry) := access (segTable.segTable (segTableGetIndex addr))
  some (ret, sTable.modify i fun e =>
    { e with segTable := Function.update e.segTable (segTableGetIndex addr) segEntry })

/-! ## §3. The entry of an address. -/

/-- The entry an access finds. -/
def entryAt (numProfiledLevels : ℕ) (sTable : STable) (addr : ℕ) : SegEntry :=
  match sTable.find? fun e => e.addrHigh = highAddr addr with
  | some e => e.segTable (segTableGetIndex addr)
  | none => segTableAlloc numProfiledLevels (segTableGetIndex addr)

/-- The 64 KB chunk of an address. -/
def chunk (addr : ℕ) : ℕ := addr / 2 ^ 16

theorem segTableGetIndex_eq (addr : ℕ) : segTableGetIndex addr = addr / 2 ^ 16 % 2 ^ 16 := by
  unfold segTableGetIndex
  rw [show (0xffff : ℕ) = 2 ^ 16 - 1 from rfl, Nat.and_two_pow_sub_one_eq_mod,
    Nat.shiftRight_eq_div_pow]

theorem highAddr_eq (addr : ℕ) : highAddr addr = addr / 2 ^ 32 := Nat.shiftRight_eq_div_pow _ _

theorem segTableEntryOffset_64 (addr : ℕ) :
    segTableEntryOffset addr .type_64bit = addr / 8 % 2 ^ 13 := by
  show (addr >>> 2 &&& 0x3fff) / 2 = _
  rw [show (0x3fff : ℕ) = 2 ^ 14 - 1 from rfl, Nat.and_two_pow_sub_one_eq_mod,
    Nat.shiftRight_eq_div_pow]
  omega

theorem segTableEntryOffset_32 (addr : ℕ) :
    segTableEntryOffset addr .type_32bit = addr / 4 % 2 ^ 14 := by
  show addr >>> 2 &&& 0x3fff = _
  rw [show (0x3fff : ℕ) = 2 ^ 14 - 1 from rfl, Nat.and_two_pow_sub_one_eq_mod,
    Nat.shiftRight_eq_div_pow]

theorem segTableEntryOffset_lt (addr : ℕ) (type : TableType) :
    segTableEntryOffset addr type < getTimeTableEntrySize type := by
  cases type with
  | type_64bit =>
      rw [segTableEntryOffset_64]
      exact Nat.mod_lt _ (by decide)
  | type_32bit =>
      rw [segTableEntryOffset_32]
      exact Nat.mod_lt _ (by decide)

/-- The segment and the entry in it are those of the chunk. -/
theorem chunk_eq_iff (a addr : ℕ) :
    chunk a = chunk addr ↔
      highAddr a = highAddr addr ∧ segTableGetIndex a = segTableGetIndex addr := by
  rw [segTableGetIndex_eq, segTableGetIndex_eq, highAddr_eq, highAddr_eq]
  unfold chunk
  omega

/-- The upper halves in use. -/
def highs (sTable : STable) : List ℕ := sTable.map SEntry.addrHigh

/-- The segment of an address, where it is the first one for its upper half. -/
theorem entryAt_split (numProfiledLevels : ℕ) {pre post : STable} {e : SEntry}
    (hpre : ∀ x ∈ pre, x.addrHigh ≠ e.addrHigh) (a : ℕ) :
    entryAt numProfiledLevels (pre ++ e :: post) a
      = if highAddr a = e.addrHigh then e.segTable (segTableGetIndex a)
        else entryAt numProfiledLevels (pre ++ post) a := by
  unfold entryAt
  rw [find?_mid SEntry.addrHigh hpre]
  by_cases ha : highAddr a = e.addrHigh
  · rw [if_pos ha, if_pos ha.symm]
  · rw [if_neg ha, if_neg fun h => ha h.symm]

/-- Finding the segment of an address makes one if there is none. -/
theorem sTableGetSegTable_spec {numProfiledLevels addr : ℕ} {sTable : STable}
    (hroom : highAddr addr ∈ highs sTable ∨ sTable.length < STABLE_SIZE) :
    ∃ pre e post,
      sTableGetSegTable numProfiledLevels addr sTable = some (pre.length, pre ++ e :: post) ∧
      e.addrHigh = highAddr addr ∧ (∀ x ∈ pre, x.addrHigh ≠ e.addrHigh) ∧
      (∀ a, entryAt numProfiledLevels (pre ++ e :: post) a
        = entryAt numProfiledLevels sTable a) ∧
      highs (pre ++ e :: post) = if highAddr addr ∈ highs sTable then highs sTable
        else highs sTable ++ [highAddr addr] := by
  unfold sTableGetSegTable
  cases hf : sTable.findIdx? fun e => decide (e.addrHigh = highAddr addr) with
  | some i =>
      obtain ⟨pre, e, post, hsplit, hlen, hhere, hpre⟩ := findIdx?_split SEntry.addrHigh hf
      have hin : highAddr addr ∈ highs sTable := by
        rw [hsplit, ← hhere]
        exact List.mem_map_of_mem (List.mem_append_right _ List.mem_cons_self)
      refine ⟨pre, e, post, ?_, hhere, ?_, ?_, ?_⟩
      · rw [hlen, ← hsplit]
      · rw [hhere]
        exact hpre
      · intro a
        rw [← hsplit]
      · rw [← hsplit, if_pos hin]
  | none =>
      have hpre := ne_of_findIdx?_none SEntry.addrHigh hf
      have hnot : highAddr addr ∉ highs sTable := by
        intro hin
        obtain ⟨e, he, heq⟩ := List.mem_map.mp hin
        exact hpre e he heq
      refine ⟨sTable, ⟨highAddr addr, segTableAlloc numProfiledLevels⟩, [], ?_, rfl, hpre, ?_, ?_⟩
      · exact if_pos (hroom.resolve_left hnot)
      · intro a
        rw [entryAt_split numProfiledLevels hpre, List.append_nil]
        split
        next ha =>
          unfold entryAt
          rw [ha, find?_eq_none_of_ne SEntry.addrHigh hpre]
        next => rfl
      · rw [if_neg hnot]
        exact List.map_append

/-- **An access** changes the entry of its chunk, and no other. -/
theorem withEntry_spec {β : Type} {numProfiledLevels addr : ℕ}
    (access : SegEntry → β × SegEntry) {sTable : STable}
    (hroom : highAddr addr ∈ highs sTable ∨ sTable.length < STABLE_SIZE) :
    ∃ sTable',
      withEntry numProfiledLevels addr access sTable
        = some ((access (entryAt numProfiledLevels sTable addr)).1, sTable') ∧
      (∀ a, entryAt numProfiledLevels sTable' a
        = if chunk a = chunk addr then (access (entryAt numProfiledLevels sTable addr)).2
          else entryAt numProfiledLevels sTable a) ∧
      highs sTable' = if highAddr addr ∈ highs sTable then highs sTable
        else highs sTable ++ [highAddr addr] := by
  -- the segment is found, or made at the end of the table
  obtain ⟨pre, e, post, hget, hhigh, hpre, hsame, hhighs⟩ :=
    sTableGetSegTable_spec hroom
  have hentry : entryAt numProfiledLevels sTable addr
      = e.segTable (segTableGetIndex addr) := by
    rw [← hsame, entryAt_split numProfiledLevels hpre, if_pos hhigh.symm]
  let e' : SEntry := { e with
    segTable := Function.update e.segTable (segTableGetIndex addr)
      (access (entryAt numProfiledLevels sTable addr)).2 }
  refine ⟨pre ++ e' :: post, ?_, ?_, ?_⟩
  · unfold withEntry
    rw [hget]
    simp only [Option.bind_eq_bind, Option.bind_some, List.getElem?_append_right (Nat.le_refl _),
      Nat.sub_self, List.getElem?_cons_zero, ← hentry, modify_mid]
    rfl
  · intro a
    rw [entryAt_split numProfiledLevels (e := e') hpre, ← hsame a,
      entryAt_split numProfiledLevels hpre]
    by_cases ha : highAddr a = e.addrHigh
    · rw [if_pos ha, if_pos ha]
      show Function.update _ _ _ _ = _
      rw [Function.update_apply]
      -- under one upper half the chunk is the segment's index
      have hiff : chunk a = chunk addr ↔ segTableGetIndex a = segTableGetIndex addr := by
        rw [chunk_eq_iff, ha, hhigh]
        simp
      simp only [hiff]
    · have hne : chunk a ≠ chunk addr := by
        intro heq
        apply ha
        rw [hhigh]
        exact ((chunk_eq_iff a addr).mp heq).1
      rw [if_neg ha, if_neg ha, if_neg hne]
  · rw [← hhighs]
    unfold highs
    rw [List.map_append, List.map_append]
    rfl

/-- Addresses of one chunk have one entry. -/
theorem entryAt_congr (numProfiledLevels : ℕ) (sTable : STable) {a addr : ℕ}
    (h : chunk a = chunk addr) :
    entryAt numProfiledLevels sTable a = entryAt numProfiledLevels sTable addr := by
  obtain ⟨hhigh, hindex⟩ := (chunk_eq_iff a addr).mp h
  unfold entryAt
  rw [hhigh, hindex]

/-- The segments are for different upper halves, all of them among `hs`. -/
structure Fits (hs : Finset ℕ) (sTable : STable) : Prop where
  nodup : (highs sTable).Nodup
  subset : ∀ h ∈ highs sTable, h ∈ hs

theorem fits_nil (hs : Finset ℕ) : Fits hs [] where
  nodup := List.nodup_nil
  subset _ h := by cases h

theorem Fits.keyed {hs : Finset ℕ} {sTable : STable} (h : Fits hs sTable) :
    Keyed SEntry.addrHigh hs sTable := ⟨h.nodup, h.subset⟩

/-- **With at most 32 upper halves every access finds its entry.** -/
theorem Fits.withEntry {β : Type} {hs : Finset ℕ} {sTable : STable} (h : Fits hs sTable)
    (hcard : hs.card ≤ STABLE_SIZE) (numProfiledLevels : ℕ) {addr : ℕ} (haddr : highAddr addr ∈ hs)
    (access : SegEntry → β × SegEntry) :
    ∃ sTable',
      withEntry numProfiledLevels addr access sTable
        = some ((access (entryAt numProfiledLevels sTable addr)).1, sTable') ∧
      (∀ a, entryAt numProfiledLevels sTable' a
        = if chunk a = chunk addr then (access (entryAt numProfiledLevels sTable addr)).2
          else entryAt numProfiledLevels sTable a) ∧
      Fits hs sTable' := by
  have hroom : highAddr addr ∈ highs sTable ∨ sTable.length < STABLE_SIZE := by
    by_cases hin : highAddr addr ∈ highs sTable
    · exact .inl hin
    · exact .inr (Nat.lt_of_lt_of_le (h.keyed.length_lt haddr hin) hcard)
  obtain ⟨sTable', hget, hentry, hhighs⟩ :=
    withEntry_spec access hroom
  refine ⟨sTable', hget, hentry, ?_, ?_⟩
  · rw [hhighs]
    split
    · exact h.nodup
    next hin =>
      rw [List.nodup_append_comm]
      exact List.nodup_cons.mpr ⟨hin, h.nodup⟩
  · intro x hx
    rw [hhighs] at hx
    split at hx
    · exact h.subset x hx
    · rcases List.mem_append.mp hx with hold | hnew
      · exact h.subset x hold
      · exact List.mem_singleton.mp hnew ▸ haddr

end Kremlin.Shadow
