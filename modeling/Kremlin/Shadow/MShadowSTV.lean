/-
  Kremlin.Shadow.MShadowSTV — one version for each word.

  An access of the first `size` levels stores the version of the innermost one,
  and the next access takes the times of all levels whose version is not above
  the stored one as still valid.  §1 and §2 are the code; §3 is the reason why a
  single version is enough, and §4 carries it through the runs of accesses
  between region entries and exits, to the reference map.

  The accesses of §4 are those of 8-byte words.
-/
import Kremlin.Library.Run
import Kremlin.Shadow.ActiveLevels
import Kremlin.Shadow.SegEntry

namespace Kremlin.Shadow.STV

open Kremlin.Library

/-! ## §1. An entry. -/

/-- `startInvalid`, looking at the levels below `size`: behind the last level
whose version is not above `oldVersion`. -/
def startInvalid (oldVersion : ℕ) (vArray : ℕ → ℕ) : ℕ → ℕ
  | 0 => 0
  | i + 1 => if vArray i ≤ oldVersion then i + 1 else startInvalid oldVersion vArray i

/-- The table with the times at `tAddr` validated. -/
def tagValidate (tTable : ℕ → ℕ) (tAddr oldVersion : ℕ) (vArray : ℕ → ℕ) (size : ℕ) : ℕ → ℕ :=
  let start := startInvalid oldVersion vArray size
  overwrite tTable (tAddr + start) (size - start) zeros

/-- `SegEntryCheckConversion`: a width and a depth too small for the access are changed first. -/
def segEntryCheckConversion (entry : SegEntry) (size : ℕ) (type : TableType) : SegEntry :=
  let entry :=
    if type = .type_32bit ∧ entry.type = .type_64bit then segEntryConvertTo32bit entry else entry
  if entry.depth ≤ size then segEntryExpandDepth entry (entry.depth * 2) else entry

/-- The first lines of `SegTableSetTime` and `SegTableGetTime`.  A table is made
for words of the given type; the entry's `type` stays as it is. -/
def segEntryReady (entry : SegEntry) (size : ℕ) (type : TableType) : SegEntry :=
  match entry.tTable with
  | none => { entry with tTable := some zeros, versions := zeros }
  | some _ => segEntryCheckConversion entry size type

/-- `SegTableSetTime`: the times of the row are overwritten, and one version stands for all of
them. -/
def segTableSetTime (addr size : ℕ) (vArray tArray : ℕ → ℕ) (type : TableType)
    (entry : SegEntry) : Unit × SegEntry :=
  let entry := segEntryReady entry size type
  ((), { entry with
    tTable := entry.tTable.map fun tTable =>
      memcpy tTable (timeTableGetIndex addr entry.depth entry.type) tArray 0 size
    versions := Function.update entry.versions (segTableEntryOffset addr entry.type)
      (vArray (size - 1)) })

/-- `SegTableGetTime`: the row is validated against that version and stamped with the current one.
-/
def segTableGetTime (addr size : ℕ) (vArray : ℕ → ℕ) (type : TableType) (entry : SegEntry) :
    Option (ℕ → ℕ) × SegEntry :=
  let entry := segEntryReady entry size type
  let entry' := { entry with
    tTable := entry.tTable.map fun tTable =>
      tagValidate tTable (timeTableGetIndex addr entry.depth entry.type)
        (versionGetAddr entry addr) vArray size
    versions := Function.update entry.versions (segTableEntryOffset addr entry.type)
      (vArray (size - 1)) }
  (timeTableGetAddr entry' addr, entry')

/-! ## §2. The interface. -/

/-- The pointer returned, as what it points to; `none` is `NULL`. -/
def get (numProfiledLevels addr size : ℕ) (vArray : ℕ → ℕ) (width : ℕ) (sTable : STable) :
    Option (Option (ℕ → ℕ) × STable) :=
  if size < 1 then some (none, sTable)
  else withEntry numProfiledLevels addr (segTableGetTime addr size vArray (accessType width)) sTable

/-- `MShadowSTV::set`. -/
def set (numProfiledLevels addr size : ℕ) (vArray tArray : ℕ → ℕ) (width : ℕ)
    (sTable : STable) : Option STable :=
  if size < 1 then some sTable
  else (withEntry numProfiledLevels addr
    (segTableSetTime addr size vArray tArray (accessType width)) sTable).map Prod.snd

/-! ## §3. Validity. -/

/-- The levels from `startInvalid` on are above the stored version, and the one
before it is not. -/
theorem startInvalid_spec (oldVersion : ℕ) (vArray : ℕ → ℕ) (n : ℕ) :
    startInvalid oldVersion vArray n ≤ n ∧
      (0 < startInvalid oldVersion vArray n →
        vArray (startInvalid oldVersion vArray n - 1) ≤ oldVersion) ∧
      ∀ l, startInvalid oldVersion vArray n ≤ l → l < n → oldVersion < vArray l := by
  induction n with
  | zero =>
      refine ⟨Nat.le_refl 0, fun h => absurd h (Nat.lt_irrefl 0), ?_⟩
      intro l _ hl
      exact absurd hl (Nat.not_lt_zero l)
  | succ n ih =>
      unfold startInvalid
      split
      next hle =>
        refine ⟨Nat.le_refl _, fun _ => hle, ?_⟩
        intro l h h'
        exact absurd (Nat.lt_of_le_of_lt h h') (Nat.lt_irrefl _)
      next hgt =>
        obtain ⟨hn, hvalid, hinvalid⟩ := ih
        refine ⟨Nat.le_succ_of_le hn, hvalid, ?_⟩
        intro l hl hln
        rcases Nat.lt_or_eq_of_le (Nat.le_of_lt_succ hln) with hlt | heq
        · exact hinvalid l hl hlt
        · subst heq
          exact Nat.lt_of_not_le hgt

/-- The time of a level as the next access will take it. -/
def validTime (entry : SegEntry) (vArray : ℕ → ℕ) (addr l : ℕ) : ℕ :=
  if vArray l ≤ versionGetAddr entry addr then
    entry.tTable.getD zeros (timeTableGetIndex addr entry.depth entry.type + l)
  else 0

/-- An entry of 8-byte words with rows for `levels` levels. -/
structure Wide (levels : ℕ) (entry : SegEntry) : Prop where
  type : entry.type = .type_64bit
  depth : levels ≤ entry.depth

/-- The access makes a table or lengthens its rows; neither changes a time. -/
theorem segEntryReady_spec {levels : ℕ} {entry : SegEntry} (size : ℕ) (h : Wide levels entry)
    (hzero : entry.tTable = none → entry.versions = zeros) :
    ∃ tTable, (segEntryReady entry size .type_64bit).tTable = some tTable ∧
      Wide levels (segEntryReady entry size .type_64bit) ∧
      (segEntryReady entry size .type_64bit).versions = entry.versions ∧
      ∀ vArray addr, ∀ l < levels,
        validTime (segEntryReady entry size .type_64bit) vArray addr l
          = validTime entry vArray addr l := by
  cases htable : entry.tTable with
  | none =>
      have hready : segEntryReady entry size .type_64bit
          = { entry with tTable := some zeros, versions := zeros } := by
        unfold segEntryReady
        rw [htable]
      rw [hready]
      refine ⟨zeros, rfl, ⟨h.type, h.depth⟩, (hzero htable).symm, ?_⟩
      -- an entry without a table has no version either, so nothing is read from it before or
      -- after
      intro vArray addr l _
      unfold validTime versionGetAddr
      rw [htable, hzero htable]
      rfl
  | some tTable =>
      have hready : segEntryReady entry size .type_64bit
          = if entry.depth ≤ size then segEntryExpandDepth entry (entry.depth * 2) else entry := by
        unfold segEntryReady segEntryCheckConversion
        rw [htable]
        simp
      rw [hready]
      split
      next hgrow =>
        let tTable' := expandTimes entry.depth (entry.depth * 2) tTable
          (getTimeTableEntrySize .type_64bit)
        have hnew : (segEntryExpandDepth entry (entry.depth * 2)).tTable = some tTable' := by
          unfold segEntryExpandDepth
          rw [htable]
          rfl
        refine ⟨tTable', hnew, ⟨h.type, ?_⟩, rfl, ?_⟩
        · show levels ≤ entry.depth * 2
          have hdepth := h.depth
          omega
        · intro vArray addr l hl
          -- the entry is wide, so the rows below the old depth are kept
          have hkeep := (expand_iff htable (show entry.depth ≤ entry.depth * 2 by omega)).mpr
            (.inl h.type) addr
          have htime := hkeep.2 l (Nat.lt_of_lt_of_le hl h.depth)
          unfold timeTableGetAddr at htime
          rw [hnew, htable] at htime
          unfold validTime
          rw [hkeep.1, hnew, htable]
          split
          · exact Option.some.inj htime
          · rfl
      next =>
        refine ⟨tTable, htable, h, rfl, ?_⟩
        intro vArray addr l _
        rfl

/-- The word of an address in its entry. -/
def word (addr : ℕ) : ℕ := segTableEntryOffset addr .type_64bit

/-- What an access leaves: other times, and a version for the word of `addr`. -/
def stored (entry : SegEntry) (tTable : ℕ → ℕ) (addr version : ℕ) : SegEntry :=
  { entry with
    tTable := some tTable
    versions := Function.update entry.versions (segTableEntryOffset addr entry.type) version }

theorem timeTableGetIndex_wide {levels : ℕ} {entry : SegEntry} (h : Wide levels entry) (a : ℕ) :
    timeTableGetIndex a entry.depth entry.type = word a * entry.depth := by
  unfold timeTableGetIndex word
  rw [h.type]

theorem versionGetAddr_stored {levels : ℕ} {entry : SegEntry} (h : Wide levels entry)
    (tTable : ℕ → ℕ) (addr version a : ℕ) :
    versionGetAddr (stored entry tTable addr version) a
      = if word a = word addr then version else versionGetAddr entry a := by
  show Function.update _ _ _ (segTableEntryOffset a entry.type) = _
  rw [Function.update_apply]
  unfold versionGetAddr word
  rw [h.type]

theorem validTime_stored {levels : ℕ} {entry : SegEntry} (h : Wide levels entry)
    (tTable vArray : ℕ → ℕ) (addr version a l : ℕ) :
    validTime (stored entry tTable addr version) vArray a l
      = if vArray l ≤ (if word a = word addr then version else versionGetAddr entry a)
        then tTable (word a * entry.depth + l) else 0 := by
  unfold validTime
  rw [versionGetAddr_stored h, ← timeTableGetIndex_wide h]
  rfl

/-- Addresses of one word read the same times. -/
theorem validTime_word {levels : ℕ} {entry : SegEntry} (h : Wide levels entry) {a addr : ℕ}
    (ha : word a = word addr) (vArray : ℕ → ℕ) (l : ℕ) :
    validTime entry vArray a l = validTime entry vArray addr l := by
  unfold validTime versionGetAddr
  rw [timeTableGetIndex_wide h, timeTableGetIndex_wide h, ha, h.type]
  show (if vArray l ≤ entry.versions (word a) then _ else 0) = _
  rw [ha]
  rfl

section Access

variable {levels size : ℕ} {vArray : ℕ → ℕ} {entry : SegEntry} (addr : ℕ)
  (h : Wide levels entry) (hzero : entry.tTable = none → entry.versions = zeros)
  (hpos : 1 ≤ size) (hsize : size ≤ levels) (hle : ∀ i j, i ≤ j → j < size → vArray i ≤ vArray j)
include h hzero hpos hsize hle

/-- **A write** makes the first levels of its word valid, with the times it was
given, and leaves the other words. -/
theorem segTableSetTime_spec (tArray : ℕ → ℕ) :
    ∃ entry', segTableSetTime addr size vArray tArray .type_64bit entry = ((), entry') ∧
      Wide levels entry' ∧ entry'.tTable ≠ none ∧
      (∀ a, versionGetAddr entry' a
        = if word a = word addr then vArray (size - 1) else versionGetAddr entry a) ∧
      ∀ a, ∀ l < size, validTime entry' vArray a l
        = if word a = word addr then tArray l else validTime entry vArray a l := by
  obtain ⟨tTable, ready, hset, htable, hwide, hversion, hvalid⟩ :
      ∃ tTable ready, segTableSetTime addr size vArray tArray .type_64bit entry
          = ((), stored ready (memcpy tTable (word addr * ready.depth) tArray 0 size) addr
            (vArray (size - 1))) ∧ ready.tTable = some tTable ∧ Wide levels ready ∧
        (∀ a, versionGetAddr ready a = versionGetAddr entry a) ∧
        ∀ a, ∀ l < levels, validTime ready vArray a l = validTime entry vArray a l := by
    obtain ⟨tTable, htable, hwide, hversions, hvalid⟩ :=
      segEntryReady_spec size h hzero
    refine ⟨tTable, segEntryReady entry size .type_64bit, ?_, htable, hwide, ?_, hvalid vArray⟩
    · rw [← timeTableGetIndex_wide hwide]
      unfold segTableSetTime stored
      simp only [htable, Option.map_some]
    · intro a
      unfold versionGetAddr
      rw [hversions, hwide.type, h.type]
  refine ⟨_, hset, ⟨hwide.type, hwide.depth⟩, Option.some_ne_none _, ?_, ?_⟩
  · intro a
    rw [versionGetAddr_stored hwide, hversion]
  · intro a l hl
    have hdepth := Nat.le_trans hsize hwide.depth
    rw [validTime_stored hwide, ← hvalid a l (by omega)]
    unfold memcpy
    by_cases ha : word a = word addr
    · rw [if_pos ha, if_pos ha, if_pos (hle l _ (by omega) (by omega)), ha,
        overwrite_inside _ _ _ hl, Nat.zero_add]
    · rw [if_neg ha, if_neg ha, overwrite_outside _ _
        (row_disjoint ha (Nat.lt_of_lt_of_le hl hdepth) hdepth)]
      unfold validTime
      rw [htable, timeTableGetIndex_wide hwide]
      rfl

/-- **A read** keeps the valid times of all words, and returns those of its own. -/
theorem segTableGetTime_spec :
    ∃ times entry', segTableGetTime addr size vArray .type_64bit entry = (some times, entry') ∧
      Wide levels entry' ∧ entry'.tTable ≠ none ∧
      (∀ a, versionGetAddr entry' a
        = if word a = word addr then vArray (size - 1) else versionGetAddr entry a) ∧
      (∀ a, ∀ l < size, validTime entry' vArray a l = validTime entry vArray a l) ∧
      ∀ l < size, times l = validTime entry vArray addr l := by
  obtain ⟨tTable, ready, hget, htable, hwide, hversion, hvalid⟩ :
      ∃ tTable ready, segTableGetTime addr size vArray .type_64bit entry
          = (timeTableGetAddr (stored ready (tagValidate tTable (word addr * ready.depth)
              (versionGetAddr ready addr) vArray size) addr (vArray (size - 1))) addr,
            stored ready (tagValidate tTable (word addr * ready.depth)
              (versionGetAddr ready addr) vArray size) addr (vArray (size - 1))) ∧
        ready.tTable = some tTable ∧ Wide levels ready ∧
        (∀ a, versionGetAddr ready a = versionGetAddr entry a) ∧
        ∀ a, ∀ l < levels, validTime ready vArray a l = validTime entry vArray a l := by
    obtain ⟨tTable, htable, hwide, hversions, hvalid⟩ :=
      segEntryReady_spec size h hzero
    refine ⟨tTable, segEntryReady entry size .type_64bit, ?_, htable, hwide, ?_, hvalid vArray⟩
    · rw [← timeTableGetIndex_wide hwide]
      unfold segTableGetTime stored
      simp only [htable, Option.map_some]
    · intro a
      unfold versionGetAddr
      rw [hversions, hwide.type, h.type]
  let start := startInvalid (versionGetAddr ready addr) vArray size
  let tTable' := tagValidate tTable (word addr * ready.depth) (versionGetAddr ready addr) vArray size
  have hdepth := Nat.le_trans hsize hwide.depth
  obtain ⟨hstart, hbelow, habove⟩ := startInvalid_spec (versionGetAddr ready addr) vArray size
  -- the row of the word: valid times as they were, and 0
  have hrow : ∀ l < size, tTable' (word addr * ready.depth + l)
      = validTime ready vArray addr l := by
    intro l hl
    show overwrite tTable (word addr * ready.depth + start) (size - start) zeros _ = _
    unfold validTime
    by_cases hls : l < start
    · have hold : vArray l ≤ versionGetAddr ready addr :=
        Nat.le_trans (hle l (start - 1) (by omega) (by omega)) (hbelow (by omega))
      rw [overwrite_outside _ _ (.inl (by omega)), if_pos hold, htable,
        timeTableGetIndex_wide hwide]
      rfl
    · have hgt := habove l (Nat.le_of_not_lt hls) hl
      rw [if_neg (by omega), show word addr * ready.depth + l
        = word addr * ready.depth + start + (l - start) by omega,
        overwrite_inside _ _ _ (by omega)]
      rfl
  -- the other rows
  have hother : ∀ a, word a ≠ word addr → ∀ l < size, tTable' (word a * ready.depth + l)
      = tTable (word a * ready.depth + l) := by
    intro a ha l hl
    apply overwrite_outside
    rcases row_disjoint ha (Nat.lt_of_lt_of_le hl hdepth) hdepth with hlt | hge
    · exact .inl (by omega)
    · exact .inr (by omega)
  let entry' := stored ready tTable' addr (vArray (size - 1))
  have hptr : timeTableGetAddr entry' addr
      = some fun l => tTable' (timeTableGetIndex addr ready.depth ready.type + l) := rfl
  refine ⟨fun l => tTable' (word addr * ready.depth + l), entry', ?_, ⟨hwide.type, hwide.depth⟩,
    Option.some_ne_none _, ?_, ?_, ?_⟩
  · rw [hget]
    show (timeTableGetAddr entry' addr, entry') = _
    rw [hptr, timeTableGetIndex_wide hwide]
  · intro a
    rw [versionGetAddr_stored hwide, hversion]
  · intro a l hl
    rw [validTime_stored hwide, ← hvalid a l (by omega)]
    by_cases ha : word a = word addr
    · rw [if_pos ha, if_pos (hle l _ (by omega) (by omega)), ha, validTime_word hwide ha]
      exact hrow l hl
    · rw [if_neg ha]
      show (if _ then tTable' _ else 0) = _
      rw [hother a ha l hl]
      unfold validTime
      rw [htable, timeTableGetIndex_wide hwide]
      rfl
  · intro l hl
    rw [← hvalid addr l (by omega)]
    exact hrow l hl

end Access

/-! ## §4. Runs. -/

/-- The memory, the active regions, and the reference map of 8-byte words. -/
structure State where
  sTable : STable
  active : ActiveLevels
  ref : VersionedMap ℕ

/-- The accesses are 8 bytes wide and made with all active levels. -/
inductive Event where
  | enter (version : ℕ)
  | exit
  | get (addr : ℕ)
  | set (addr : ℕ) (tArray : ℕ → ℕ)

/-- Nothing is open and nothing was written. -/
def start : State := ⟨[], .start, .empty⟩

/-- One event; the reference memory is written along with the code's state. -/
def step (numProfiledLevels : ℕ) (s : State) : Event → Option State
  | .enter version => some { s with active := s.active.enter version }
  | .exit => some { s with active := s.active.exit }
  | .get addr =>
      (get numProfiledLevels addr s.active.levels s.active.versions 8 s.sTable).map fun r =>
        { s with sTable := r.2 }
  | .set addr tArray =>
      (set numProfiledLevels addr s.active.levels s.active.versions tArray 8 s.sTable).map
        fun sTable => { s with
          sTable := sTable
          ref := s.ref.store s.active.versions (addr / 8) s.active.levels tArray }

/-- An address the runs access, and a level to access it at. -/
structure Accessible (numProfiledLevels : ℕ) (hs : Finset ℕ) (s : State) (addr : ℕ) : Prop where
  aligned : 8 ∣ addr
  high : highAddr addr ∈ hs
  pos : 1 ≤ s.active.levels
  profiled : s.active.levels ≤ numProfiledLevels

theorem accessible_iff {numProfiledLevels : ℕ} {hs : Finset ℕ} {s : State} {addr : ℕ} :
    Accessible numProfiledLevels hs s addr ↔ 8 ∣ addr ∧ highAddr addr ∈ hs ∧
      1 ≤ s.active.levels ∧ s.active.levels ≤ numProfiledLevels :=
  ⟨fun h => ⟨h.1, h.2, h.3, h.4⟩, fun h => ⟨h.1, h.2.1, h.2.2.1, h.2.2.2⟩⟩

instance (numProfiledLevels : ℕ) (hs : Finset ℕ) (s : State) (addr : ℕ) :
    Decidable (Accessible numProfiledLevels hs s addr) :=
  decidable_of_iff' _ accessible_iff

/-- Versions never repeat, a region is open when one is left, and accesses stay within the table. -/
def Admissible (numProfiledLevels : ℕ) (hs : Finset ℕ) (s : State) : Event → Prop
  | .enter version => s.active.next ≤ version
  | .exit => 1 ≤ s.active.levels
  | .get addr => Accessible numProfiledLevels hs s addr
  | .set addr _ => Accessible numProfiledLevels hs s addr

instance (numProfiledLevels : ℕ) (hs : Finset ℕ) (s : State) :
    ∀ e, Decidable (Admissible numProfiledLevels hs s e)
  | .enter _ => inferInstanceAs (Decidable (_ ≤ _))
  | .exit => inferInstanceAs (Decidable (_ ≤ _))
  | .get addr => inferInstanceAs (Decidable (Accessible numProfiledLevels hs s addr))
  | .set addr _ => inferInstanceAs (Decidable (Accessible numProfiledLevels hs s addr))

/-- **The memory refines the reference map**: the valid times of every word are
what the map holds under the current versions. -/
structure Refines (numProfiledLevels : ℕ) (hs : Finset ℕ) (s : State) : Prop where
  ordered : s.active.Ordered
  below : s.ref.Below s.active.next
  fits : Fits hs s.sTable
  wide : ∀ a, Wide numProfiledLevels (entryAt numProfiledLevels s.sTable a)
  zero : ∀ a, (entryAt numProfiledLevels s.sTable a).tTable = none →
    (entryAt numProfiledLevels s.sTable a).versions = zeros
  seen : ∀ a, (entryAt numProfiledLevels s.sTable a).tTable ≠ none →
    versionGetAddr (entryAt numProfiledLevels s.sTable a) a < s.active.next
  valid : ∀ a, ∀ l < s.active.levels, l < numProfiledLevels →
    validTime (entryAt numProfiledLevels s.sTable a) s.active.versions a l
      = s.ref.view s.active.versions (a / 8) l

theorem refines_start (numProfiledLevels : ℕ) (hs : Finset ℕ) :
    Refines numProfiledLevels hs start where
  ordered := ActiveLevels.ordered_start
  below := VersionedMap.below_empty _
  fits := fits_nil hs
  wide _ := ⟨rfl, Nat.le_refl _⟩
  zero _ _ := rfl
  seen _ h := absurd rfl h
  valid _ l hl := absurd hl (Nat.not_lt_zero l)

variable {numProfiledLevels : ℕ} {hs : Finset ℕ} {s : State}

/-- The words of a chunk are told apart by their place in the entry. -/
theorem word_eq_iff {a addr : ℕ} (h : chunk a = chunk addr) :
    word a = word addr ↔ a / 8 = addr / 8 := by
  unfold word
  rw [segTableEntryOffset_64, segTableEntryOffset_64]
  unfold chunk at h
  omega

/-- **A region is entered**: nothing is valid at the new level. -/
theorem Refines.enter (h : Refines numProfiledLevels hs s) {version : ℕ}
    (hnew : s.active.next ≤ version) :
    Refines numProfiledLevels hs { s with active := s.active.enter version } := by
  have hle : s.active.next ≤ (s.active.enter version).next := Nat.le_succ_of_le hnew
  refine ⟨h.ordered.enter hnew, h.below.mono hle, h.fits, h.wide, h.zero, ?_, ?_⟩
  · intro a ha
    exact Nat.lt_of_lt_of_le (h.seen a ha) hle
  · intro a l hl hlp
    show validTime _ (s.active.enter version).versions a l = _
    rw [ActiveLevels.view_enter h.below hnew _ hl]
    split
    next hold =>
      rw [← h.valid a l hold hlp]
      unfold validTime
      rw [s.active.versions_enter_of_lt version hold]
    next hlast =>
      have heq : l = s.active.levels := by
        have := Nat.le_of_lt_succ hl
        omega
      subst heq
      unfold validTime
      rw [ActiveLevels.versions_enter_self]
      cases htable : (entryAt numProfiledLevels s.sTable a).tTable with
      | none =>
          show (if _ then 0 else 0) = 0
          exact ite_self 0
      | some tTable =>
          have hlt := h.seen a (by rw [htable]; exact Option.some_ne_none _)
          exact if_neg (Nat.not_le_of_lt (Nat.lt_of_lt_of_le hlt hnew))

/-- **A region is left**: the other levels stay valid. -/
theorem Refines.exit (h : Refines numProfiledLevels hs s) :
    Refines numProfiledLevels hs { s with active := s.active.exit } :=
  ⟨h.ordered.exit, h.below, h.fits, h.wide, h.zero, h.seen,
    fun a l hl => h.valid a l (Nat.lt_of_lt_of_le hl (Nat.sub_le _ _))⟩

/-- What an access needs to know of the active levels. -/
theorem Accessible.versions {addr : ℕ} (ha : Accessible numProfiledLevels hs s addr)
    (h : Refines numProfiledLevels hs s) :
    (∀ i j, i ≤ j → j < s.active.levels → s.active.versions i ≤ s.active.versions j) ∧
      s.active.versions (s.active.levels - 1) < s.active.next := by
  have hpos := ha.pos
  exact ⟨fun i j hij hj => h.ordered.le hij hj, h.ordered.below _ (by omega)⟩

/-- The version of every word after an access is one that was issued. -/
theorem Accessible.seen {addr : ℕ} (ha : Accessible numProfiledLevels hs s addr)
    (h : Refines numProfiledLevels hs s) (a : ℕ) :
    (if word a = word addr then s.active.versions (s.active.levels - 1)
      else versionGetAddr (entryAt numProfiledLevels s.sTable a) a) < s.active.next := by
  have hlast := (ha.versions h).2
  split
  · exact hlast
  · by_cases htable : (entryAt numProfiledLevels s.sTable a).tTable = none
    · unfold versionGetAddr
      rw [h.zero a htable]
      exact Nat.lt_of_le_of_lt (Nat.zero_le _) hlast
    · exact h.seen a htable

/-- **A read** returns what the reference map holds. -/
theorem Refines.get (hcard : hs.card ≤ STABLE_SIZE) (h : Refines numProfiledLevels hs s)
    {addr : ℕ} (ha : Accessible numProfiledLevels hs s addr) :
    ∃ times sTable,
      STV.get numProfiledLevels addr s.active.levels s.active.versions 8 s.sTable
        = some (some times, sTable) ∧
      (∀ l < s.active.levels, times l = s.ref.view s.active.versions (addr / 8) l) ∧
      Refines numProfiledLevels hs { s with sTable := sTable } := by
  have hpos := ha.pos
  have hprofiled := ha.profiled
  obtain ⟨hle, hlast⟩ := ha.versions h
  obtain ⟨times, entry', hget, hwide, htable, hversion, hvalid, htimes⟩ :=
    segTableGetTime_spec addr (h.wide addr) (h.zero addr) hpos hprofiled hle
  -- only the entry of the address changes
  obtain ⟨sTable, hfound, hentry, hfits⟩ := h.fits.withEntry hcard
    numProfiledLevels ha.high
    (segTableGetTime addr s.active.levels s.active.versions .type_64bit)
  rw [hget] at hfound hentry
  refine ⟨times, sTable, ?_, ?_, ?_⟩
  · unfold STV.get
    rw [if_neg (by omega)]
    exact hfound
  · intro l hl
    rw [htimes l hl]
    exact h.valid addr l hl (by omega)
  · refine ⟨h.ordered, h.below, hfits, ?_, ?_, ?_, ?_⟩
    · intro a
      show Wide _ (entryAt numProfiledLevels sTable a)
      rw [hentry]
      split
      · exact hwide
      · exact h.wide a
    · intro a
      show (entryAt numProfiledLevels sTable a).tTable = none → _
      rw [hentry]
      split
      · exact fun hnone => absurd hnone htable
      · exact h.zero a
    · intro a
      show (entryAt numProfiledLevels sTable a).tTable ≠ none → _
      rw [hentry]
      split
      next hchunk =>
        intro _
        have hseen := ha.seen h a
        rw [entryAt_congr _ _ hchunk] at hseen
        rw [hversion]
        exact hseen
      · exact h.seen a
    · intro a l hl hlp
      show validTime (entryAt numProfiledLevels sTable a) _ a l = _
      rw [hentry]
      split
      next hchunk =>
        rw [hvalid a l hl, ← entryAt_congr _ _ hchunk]
        exact h.valid a l hl hlp
      · exact h.valid a l hl hlp

/-- **A write** stores what the reference map stores. -/
theorem Refines.set (hcard : hs.card ≤ STABLE_SIZE) (h : Refines numProfiledLevels hs s)
    {addr : ℕ} (ha : Accessible numProfiledLevels hs s addr) (tArray : ℕ → ℕ) :
    ∃ sTable,
      STV.set numProfiledLevels addr s.active.levels s.active.versions tArray 8 s.sTable
        = some sTable ∧
      Refines numProfiledLevels hs { s with
        sTable := sTable
        ref := s.ref.store s.active.versions (addr / 8) s.active.levels tArray } := by
  have hpos := ha.pos
  have hprofiled := ha.profiled
  obtain ⟨hle, hlast⟩ := ha.versions h
  obtain ⟨entry', hset, hwide, htable, hversion, hvalid⟩ :=
    segTableSetTime_spec addr (h.wide addr) (h.zero addr) hpos hprofiled hle tArray
  -- only the entry of the address changes
  obtain ⟨sTable, hfound, hentry, hfits⟩ := h.fits.withEntry hcard
    numProfiledLevels ha.high
    (segTableSetTime addr s.active.levels s.active.versions tArray .type_64bit)
  rw [hset] at hfound hentry
  refine ⟨sTable, ?_, ?_⟩
  · unfold STV.set
    rw [if_neg (by omega)]
    exact congrArg (Option.map Prod.snd) hfound
  · refine ⟨h.ordered, h.below.store (fun l hl => h.ordered.below l hl) _ _, hfits, ?_, ?_, ?_, ?_⟩
    · intro a
      show Wide _ (entryAt numProfiledLevels sTable a)
      rw [hentry]
      split
      · exact hwide
      · exact h.wide a
    · intro a
      show (entryAt numProfiledLevels sTable a).tTable = none → _
      rw [hentry]
      split
      · exact fun hnone => absurd hnone htable
      · exact h.zero a
    · intro a
      show (entryAt numProfiledLevels sTable a).tTable ≠ none → _
      rw [hentry]
      split
      next hchunk =>
        intro _
        have hseen := ha.seen h a
        rw [entryAt_congr _ _ hchunk] at hseen
        rw [hversion]
        exact hseen
      · exact h.seen a
    · intro a l hl hlp
      show validTime (entryAt numProfiledLevels sTable a) _ a l
        = (s.ref.store _ _ _ _).view _ (a / 8) l
      rw [hentry, VersionedMap.view_store]
      split
      next hchunk =>
        rw [hvalid a l hl, ← entryAt_congr _ _ hchunk, h.valid a l hl hlp]
        simp only [word_eq_iff hchunk, hl, and_true]
      next hchunk =>
        -- a word of another entry is another word
        have hne : ¬(a / 8 = addr / 8 ∧ l < s.active.levels) := by
          rintro ⟨heq, -⟩
          apply hchunk
          unfold chunk
          omega
        rw [if_neg hne]
        exact h.valid a l hl hlp

/-- **Every event can be taken and keeps the refinement.** -/
theorem Refines.step (hcard : hs.card ≤ STABLE_SIZE) (h : Refines numProfiledLevels hs s)
    {e : Event} (he : Admissible numProfiledLevels hs s e) :
    ∃ s', step numProfiledLevels s e = some s' ∧ Refines numProfiledLevels hs s' := by
  cases e with
  | enter version => exact ⟨_, rfl, h.enter he⟩
  | exit => exact ⟨_, rfl, h.exit⟩
  | get addr =>
      obtain ⟨times, sTable, hget, -, hs'⟩ := h.get hcard he
      exact ⟨_, congrArg (Option.map _) hget, hs'⟩
  | set addr tArray =>
      obtain ⟨sTable, hset, hs'⟩ := h.set hcard he tArray
      exact ⟨_, congrArg (Option.map _) hset, hs'⟩

/-- **In every run the reads return what was last written** under the current
version of each level, else 0.  At most 32 upper halves are in use. -/
theorem run_refines (numProfiledLevels : ℕ) {hs : Finset ℕ} (hcard : hs.card ≤ STABLE_SIZE)
    {events : List Event}
    (hok : RunOk (step numProfiledLevels) (Admissible numProfiledLevels hs) start events) :
    ∃ s, run (step numProfiledLevels) start events = some s ∧
      ∀ addr, Accessible numProfiledLevels hs s addr → ∃ times sTable,
        get numProfiledLevels addr s.active.levels s.active.versions 8 s.sTable
          = some (some times, sTable) ∧
        ∀ l < s.active.levels, times l = s.ref.view s.active.versions (addr / 8) l := by
  obtain ⟨s, hrun, h⟩ := run_total_of (fun _ _ hinv he => Refines.step hcard hinv he)
    (refines_start numProfiledLevels hs) hok
  refine ⟨s, hrun, fun addr ha => ?_⟩
  obtain ⟨times, sTable, hget, htimes, -⟩ := h.get hcard ha
  exact ⟨times, sTable, hget, htimes⟩

/-- A word is written on one level; the access to another word of its entry on two
levels makes room for four, and the word is written again in a third region. -/
def deeperAccess : List Event :=
  [.enter 1, .set 8 fun _ => 5, .enter 2, .set 16 fun l => 6 + l, .get 8, .exit, .enter 3,
    .set 8 fun l => 8 + l]

theorem run_refines_deeperAccess :
    ∃ s, run (step 2) start deeperAccess = some s ∧ (entryAt 2 s.sTable 8).depth = 4 ∧
      (∃ times sTable, get 2 8 s.active.levels s.active.versions 8 s.sTable
        = some (some times, sTable) ∧ times 0 = 8 ∧ times 1 = 9) ∧
      ∃ times sTable, get 2 16 s.active.levels s.active.versions 8 s.sTable
        = some (some times, sTable) ∧ times 0 = 6 ∧ times 1 = 0 := by
  have hok : RunOk (step 2) (Admissible 2 {0}) start deeperAccess := by decide +kernel
  have hfacts : (run (step 2) start deeperAccess).all (fun s => s.active.levels = 2 ∧
      (entryAt 2 s.sTable 8).depth = 4 ∧ (Accessible 2 {0} s 8 ∧
        s.ref.view s.active.versions 1 0 = 8 ∧ s.ref.view s.active.versions 1 1 = 9) ∧
      Accessible 2 {0} s 16 ∧ s.ref.view s.active.versions 2 0 = 6 ∧
        s.ref.view s.active.versions 2 1 = 0) = true := by decide +kernel
  obtain ⟨s, hrun, hread⟩ := run_refines 2 (by decide) hok
  rw [hrun] at hfacts
  obtain ⟨hlevels, hdepth, ⟨hacc, hzero, hone⟩, hacc', hzero', hone'⟩ := of_decide_eq_true hfacts
  obtain ⟨times, sTable, hget, htimes⟩ := hread 8 hacc
  obtain ⟨times', sTable', hget', htimes'⟩ := hread 16 hacc'
  exact ⟨s, hrun, hdepth,
    ⟨times, sTable, hget, (htimes 0 (by omega)).trans hzero, (htimes 1 (by omega)).trans hone⟩,
    times', sTable', hget', (htimes' 0 (by omega)).trans hzero',
    (htimes' 1 (by omega)).trans hone'⟩

end Kremlin.Shadow.STV
