/-
  Kremlin.Shadow.MShadowBaseRuns — mixed access widths in `MShadowBase`.

  The memory is right in every run in which the first access of an entry is not
  a 32-bit write, no entry of 8-byte words with more than one level meets a
  32-bit access, no entry of 4-byte words a 64-bit write, and no read a version
  from `malloc` that happens to be the current one (`Meets`).  The first three
  are slips: the type of a new entry is not recorded, `splitRows` is wrong for
  longer rows, and the upper half of the word is not written.
-/
import Kremlin.Library.Run
import Kremlin.Shadow.ActiveLevels
import Kremlin.Shadow.MShadowBase

namespace Kremlin.Shadow.Base

open Kremlin.Library

/-! ## §1. Runs. -/

/-- The word `w` of 4 bytes is in the row of `addr`. -/
def InRow (type : TableType) (w addr : ℕ) : Prop :=
  match type with
  | .type_64bit => w / 2 = addr / 8
  | .type_32bit => w = addr / 4

instance (type : TableType) (w addr : ℕ) : Decidable (InRow type w addr) := by
  unfold InRow
  cases type <;> infer_instance

/-- The reference map after a write: the 4-byte words the access covers. -/
def storeWords (ref : VersionedMap ℕ) (vArray : ℕ → ℕ) (addr size : ℕ) (tArray : ℕ → ℕ)
    (width : ℕ) : VersionedMap ℕ :=
  let ref := ref.store vArray (addr / 4) size tArray
  if 4 < width then ref.store vArray (addr / 4 + 1) size tArray else ref

/-- The memory, the active regions, and the reference map of 4-byte words. -/
structure State where
  sTable : STable
  active : ActiveLevels
  ref : VersionedMap ℕ
  /-- The version cells that an access has written, by word and level; the
  others are as `malloc` left them. -/
  written : ℕ → ℕ → Bool

/-- Regions are entered and left, words are read and written. -/
inductive Event where
  | enter (version : ℕ)
  | exit
  | get (m : Malloc) (addr width : ℕ)
  | set (m : Malloc) (addr width : ℕ) (tArray : ℕ → ℕ)

/-- Nothing is open and nothing was written. -/
def start : State := ⟨[], .start, .empty, fun _ _ => false⟩

/-- The cells of the row of `addr`, up to `size`, are written. -/
def writeRow (type : TableType) (addr size : ℕ) (written : ℕ → ℕ → Bool) : ℕ → ℕ → Bool :=
  fun w l => written w l || decide (InRow type w addr ∧ l < size)

/-- One event; the reference memory and the rows written are recorded beside the code's state. -/
def step (numProfiledLevels : ℕ) (s : State) : Event → Option State
  | .enter version => some { s with active := s.active.enter version }
  | .exit => some { s with active := s.active.exit }
  | .get m addr width =>
      (get numProfiledLevels m addr s.active.levels s.active.versions width s.sTable).map
        fun r => { s with
          sTable := r.2
          written := writeRow (entryAt numProfiledLevels r.2 addr).type addr s.active.levels
            s.written }
  | .set m addr width tArray =>
      (set numProfiledLevels m addr s.active.levels s.active.versions tArray width s.sTable).map
        fun sTable => { s with
          sTable := sTable
          ref := storeWords s.ref s.active.versions addr s.active.levels tArray width
          written := writeRow (entryAt numProfiledLevels sTable addr).type addr s.active.levels
            s.written }

/-- An aligned access at some active level. -/
structure Accessible (numProfiledLevels : ℕ) (s : State) (addr width : ℕ) : Prop where
  natural : width ∈ [1, 2, 4, 8]
  aligned : width ∣ addr
  pos : 1 ≤ s.active.levels
  profiled : s.active.levels ≤ numProfiledLevels

theorem accessible_iff {numProfiledLevels : ℕ} {s : State} {addr width : ℕ} :
    Accessible numProfiledLevels s addr width ↔ width ∈ [1, 2, 4, 8] ∧ width ∣ addr ∧
      1 ≤ s.active.levels ∧ s.active.levels ≤ numProfiledLevels :=
  ⟨fun h => ⟨h.1, h.2, h.3, h.4⟩, fun h => ⟨h.1, h.2.1, h.2.2.1, h.2.2.2⟩⟩

instance (numProfiledLevels : ℕ) (s : State) (addr width : ℕ) :
    Decidable (Accessible numProfiledLevels s addr width) :=
  decidable_of_iff' _ accessible_iff

/-- Versions never repeat, a region is open when one is left, and accesses stay within the table. -/
def Admissible (numProfiledLevels : ℕ) (s : State) : Event → Prop
  | .enter version => s.active.next ≤ version
  | .exit => 1 ≤ s.active.levels
  | .get _ addr width => Accessible numProfiledLevels s addr width
  | .set _ addr width _ => Accessible numProfiledLevels s addr width

instance (numProfiledLevels : ℕ) (s : State) : ∀ e, Decidable (Admissible numProfiledLevels s e)
  | .enter _ => inferInstanceAs (Decidable (_ ≤ _))
  | .exit => inferInstanceAs (Decidable (_ ≤ _))
  | .get _ addr width => inferInstanceAs (Decidable (Accessible numProfiledLevels s addr width))
  | .set _ addr width _ => inferInstanceAs (Decidable (Accessible numProfiledLevels s addr width))

/-- **What keeps clear of the slips**: there are counters for as many levels and a segment for the
address, no entry of long rows is split, a read does not meet an unwritten version that is the
current one, and a write is as wide as the words of its entry. -/
def Meets (numProfiledLevels : ℕ) (s : State) : Event → Prop
  | .enter _ => True
  | .exit => True
  | .get m addr width =>
      s.active.levels < REQ_SIZE ∧
      (highAddr addr ∈ highs s.sTable ∨ s.sTable.length < STABLE_SIZE) ∧
      Splits (accessType width) (entryAt numProfiledLevels s.sTable addr) ∧
      ∀ l < s.active.levels, s.written (addr / 4) l = false →
        metVersion m (entryAt numProfiledLevels s.sTable addr) addr l ≠ s.active.versions l
  | .set _ addr width _ =>
      s.active.levels < REQ_SIZE ∧
      (highAddr addr ∈ highs s.sTable ∨ s.sTable.length < STABLE_SIZE) ∧
      Splits (accessType width) (entryAt numProfiledLevels s.sTable addr) ∧
      (accessType width = .type_32bit →
        (entryAt numProfiledLevels s.sTable addr).tTable ≠ none) ∧
      (accessType width = .type_64bit →
        (entryAt numProfiledLevels s.sTable addr).type = .type_64bit)

instance (numProfiledLevels : ℕ) (s : State) : ∀ e, Decidable (Meets numProfiledLevels s e)
  | .enter _ => .isTrue trivial
  | .exit => .isTrue trivial
  | .get _ _ _ => inferInstanceAs (Decidable (_ ∧ (_ ∨ _) ∧ _ ∧ ∀ l < _, _ → ¬_))
  | .set _ _ _ _ => inferInstanceAs (Decidable (_ ∧ (_ ∨ _) ∧ _ ∧ (_ → ¬_) ∧ (_ → _)))

/-! ## §2. The invariant. -/

/-- The cell of the level was written under the current version. -/
def Current (numProfiledLevels : ℕ) (s : State) (a l : ℕ) : Prop :=
  s.written (a / 4) l = true ∧
    versionCell (entryAt numProfiledLevels s.sTable a) a l = s.active.versions l

/-- **The memory is right**: current cells hold what the reference map does, the
levels above a current one are current too, and where a cell is not current
nothing was set. -/
structure Right (numProfiledLevels : ℕ) (s : State) : Prop where
  ordered : s.active.Ordered
  below : s.ref.Below s.active.next
  depth : ∀ a, (entryAt numProfiledLevels s.sTable a).depth = numProfiledLevels
  untouched : ∀ a, (entryAt numProfiledLevels s.sTable a).tTable = none →
    (entryAt numProfiledLevels s.sTable a).type = .type_64bit ∧ ∀ l, s.written (a / 4) l = false
  halves : ∀ a b, (entryAt numProfiledLevels s.sTable a).type = .type_64bit → a / 8 = b / 8 →
    ∀ l, s.written (a / 4) l = s.written (b / 4) l
  seen : ∀ a, ∀ l < numProfiledLevels, s.written (a / 4) l = true →
    versionCell (entryAt numProfiledLevels s.sTable a) a l < s.active.next
  valid : ∀ a, ∀ l < s.active.levels, l < numProfiledLevels → Current numProfiledLevels s a l →
    (∀ m, metTime m (entryAt numProfiledLevels s.sTable a) a l
      = s.ref.view s.active.versions (a / 4) l) ∧ ∀ j < l, Current numProfiledLevels s a j
  invalid : ∀ a, ∀ l < s.active.levels, l < numProfiledLevels → ¬Current numProfiledLevels s a l →
    s.ref.view s.active.versions (a / 4) l = 0

theorem right_start (numProfiledLevels : ℕ) : Right numProfiledLevels start where
  ordered := ActiveLevels.ordered_start
  below := VersionedMap.below_empty _
  depth _ := rfl
  untouched _ _ := ⟨rfl, fun _ => rfl⟩
  halves _ _ _ _ _ := rfl
  seen _ _ _ h := by cases h
  valid _ l hl := absurd hl (Nat.not_lt_zero l)
  invalid _ l hl := absurd hl (Nat.not_lt_zero l)

variable {numProfiledLevels : ℕ} {s : State}

/-- **A region is entered**: its level is current nowhere. -/
theorem Right.enter (h : Right numProfiledLevels s) {version : ℕ}
    (hnew : s.active.next ≤ version) :
    Right numProfiledLevels { s with active := s.active.enter version } := by
  let s' : State := { s with active := s.active.enter version }
  have hle : s.active.next ≤ (s.active.enter version).next := Nat.le_succ_of_le hnew
  have hsame : ∀ a, ∀ l < s.active.levels,
      Current numProfiledLevels s' a l ↔ Current numProfiledLevels s a l := by
    intro a l hl
    show (_ ∧ _ = (s.active.enter version).versions l) ↔ _
    rw [s.active.versions_enter_of_lt version hl]
    rfl
  have hnone : ∀ a, s.active.levels < numProfiledLevels →
      ¬Current numProfiledLevels s' a s.active.levels := by
    rintro a hl ⟨hwritten, hcell⟩
    have hlt := h.seen a _ hl hwritten
    rw [show s'.active.versions s.active.levels = version from
      ActiveLevels.versions_enter_self _ _] at hcell
    exact absurd (hcell ▸ hlt) (Nat.not_lt_of_le hnew)
  have hlast : ∀ l < (s.active.enter version).levels, ¬l < s.active.levels →
      l = s.active.levels := by
    intro l hl hge
    have := Nat.le_of_lt_succ hl
    omega
  refine ⟨h.ordered.enter hnew, h.below.mono hle, h.depth, h.untouched, h.halves, ?_, ?_, ?_⟩
  · intro a l hl hwritten
    exact Nat.lt_of_lt_of_le (h.seen a l hl hwritten) hle
  · intro a l hl hlp hcur
    by_cases hold : l < s.active.levels
    · obtain ⟨htime, hdown⟩ := h.valid a l hold hlp ((hsame a l hold).mp hcur)
      refine ⟨fun m => ?_, fun j hj => (hsame a j (by omega)).mpr (hdown j hj)⟩
      rw [htime m]
      exact (s.ref.view_congr (s.active.versions_enter_of_lt version hold) _).symm
    · cases hlast l hl hold
      exact absurd hcur (hnone a hlp)
  · intro a l hl hlp hcur
    show s.ref.view (s.active.enter version).versions (a / 4) l = 0
    rw [ActiveLevels.view_enter h.below hnew _ hl]
    split
    next hold => exact h.invalid a l hold hlp fun hc => hcur ((hsame a l hold).mpr hc)
    next => rfl

theorem Right.exit (h : Right numProfiledLevels s) :
    Right numProfiledLevels { s with active := s.active.exit } :=
  ⟨h.ordered.exit, h.below, h.depth, h.untouched, h.halves, h.seen,
    fun a l hl => h.valid a l (Nat.lt_of_lt_of_le hl (Nat.sub_le _ _)),
    fun a l hl => h.invalid a l (Nat.lt_of_lt_of_le hl (Nat.sub_le _ _))⟩

/-! ## §3. The accesses. -/

theorem sameRow_iff {type : TableType} {a addr : ℕ} (h : chunk a = chunk addr) :
    SameRow type a addr ↔ InRow type (a / 4) addr := by
  unfold SameRow InRow
  unfold chunk at h
  cases type with
  | type_64bit =>
      rw [segTableEntryOffset_64, segTableEntryOffset_64]
      show _ ↔ a / 4 / 2 = addr / 8
      omega
  | type_32bit =>
      rw [segTableEntryOffset_32, segTableEntryOffset_32]
      show _ ↔ a / 4 = addr / 4
      omega

/-- A word of the row is in the chunk. -/
theorem chunk_of_inRow {type : TableType} {a addr : ℕ} (h : InRow type (a / 4) addr) :
    chunk a = chunk addr := by
  unfold chunk
  cases type with
  | type_64bit =>
      replace h : a / 4 / 2 = addr / 8 := h
      omega
  | type_32bit =>
      replace h : a / 4 = addr / 4 := h
      omega

/-- What `access` may do to the entry: the row of `addr` gets the current
versions and the times `times`. -/
structure Wrote (m : Malloc) (type : TableType) (addr size : ℕ) (vArray times : ℕ → ℕ)
    (entry entry' : SegEntry) : Prop where
  table : entry'.tTable ≠ none
  depth : entry'.depth = entry.depth
  type : entry'.type = readyType type entry
  version : ∀ a, ∀ l < entry.depth, versionCell entry' a l
    = if SameRow entry'.type a addr ∧ l < size then vArray l else metVersion m entry a l
  time : ∀ m', ∀ a, ∀ l < entry.depth, metTime m' entry' a l
    = if SameRow entry'.type a addr ∧ l < size then times l else metTime m entry a l

/-- A cell that was written is met as it is. -/
theorem Right.met (h : Right numProfiledLevels s) {a l : ℕ} (hw : s.written (a / 4) l = true)
    (m : Malloc) :
    metVersion m (entryAt numProfiledLevels s.sTable a) a l
      = versionCell (entryAt numProfiledLevels s.sTable a) a l := by
  have htable : (entryAt numProfiledLevels s.sTable a).tTable ≠ none := by
    intro hnone
    rw [(h.untouched a hnone).2 l] at hw
    cases hw
  unfold metVersion
  rw [if_neg htable]
  rfl

/-- An entry with a table is read as it is. -/
theorem metTime_congr {entry : SegEntry} (h : entry.tTable ≠ none) (m m' : Malloc) (a l : ℕ) :
    metTime m entry a l = metTime m' entry a l := by
  unfold metTime
  cases htable : entry.tTable with
  | none => exact absurd htable h
  | some tTable => rfl

/-- What an access makes of a state: the entry of `addr` is written as `Wrote` says,
the other entries stay, and the reference map holds the times of the row in all its
words. -/
structure Accessed (numProfiledLevels : ℕ) (m : Malloc) (type : TableType) (addr : ℕ)
    (times : ℕ → ℕ) (entry' : SegEntry) (s s' : State) : Prop where
  active : s'.active = s.active
  wrote : Wrote m type addr s.active.levels s.active.versions times
    (entryAt numProfiledLevels s.sTable addr) entry'
  entry : ∀ a, entryAt numProfiledLevels s'.sTable a
    = if chunk a = chunk addr then entry' else entryAt numProfiledLevels s.sTable a
  written : s'.written = writeRow entry'.type addr s.active.levels s.written
  below : s'.ref.Below s.active.next
  view : ∀ a, ∀ l < s.active.levels, s'.ref.view s.active.versions (a / 4) l
    = if InRow entry'.type (a / 4) addr then times l
      else s.ref.view s.active.versions (a / 4) l

section Accessed

variable {m : Malloc} {type : TableType} {addr : ℕ} {times : ℕ → ℕ} {entry' : SegEntry}
  {s' : State} (h : Right numProfiledLevels s)
  (ha : Accessed numProfiledLevels m type addr times entry' s s')
include ha

omit h in
theorem Accessed.written_iff (a l : ℕ) : s'.written (a / 4) l = true ↔
    s.written (a / 4) l = true ∨ InRow entry'.type (a / 4) addr ∧ l < s.active.levels := by
  rw [ha.written]
  show (s.written (a / 4) l || decide _) = true ↔ _
  rw [Bool.or_eq_true, decide_eq_true_eq]

include h

/-- Outside the row nothing moves. -/
theorem Accessed.outside {a l : ℕ} (hl : l < numProfiledLevels)
    (hout : ¬(InRow entry'.type (a / 4) addr ∧ l < s.active.levels))
    (hw : s.written (a / 4) l = true) :
    versionCell (entryAt numProfiledLevels s'.sTable a) a l
        = versionCell (entryAt numProfiledLevels s.sTable a) a l ∧
      ∀ m', metTime m' (entryAt numProfiledLevels s'.sTable a) a l
        = metTime m' (entryAt numProfiledLevels s.sTable a) a l := by
  rw [ha.entry]
  split
  next hchunk =>
    have hsame := entryAt_congr numProfiledLevels s.sTable hchunk
    have htable : (entryAt numProfiledLevels s.sTable a).tTable ≠ none := by
      intro hnone
      rw [(h.untouched a hnone).2 l] at hw
      cases hw
    have hl' : l < (entryAt numProfiledLevels s.sTable addr).depth := by
      rw [h.depth]
      exact hl
    rw [← sameRow_iff hchunk] at hout
    constructor
    · rw [ha.wrote.version a l hl', if_neg hout, ← hsame, h.met hw]
    · intro m'
      rw [ha.wrote.time m' a l hl', if_neg hout, ← hsame]
      exact metTime_congr htable m m' a l
  next => exact ⟨rfl, fun _ => rfl⟩

/-- Inside it all active levels are current, and hold the times of the access. -/
theorem Accessed.inside (hprofiled : s.active.levels ≤ numProfiledLevels) {a l : ℕ}
    (hin : InRow entry'.type (a / 4) addr) (hl : l < s.active.levels) :
    Current numProfiledLevels s' a l ∧
      ∀ m', metTime m' (entryAt numProfiledLevels s'.sTable a) a l = times l := by
  have hchunk := chunk_of_inRow hin
  have hl' : l < (entryAt numProfiledLevels s.sTable addr).depth := by
    rw [h.depth]
    omega
  have hrow : SameRow entry'.type a addr ∧ l < s.active.levels :=
    ⟨(sameRow_iff hchunk).mpr hin, hl⟩
  refine ⟨⟨(ha.written_iff a l).mpr (.inr ⟨hin, hl⟩), ?_⟩, fun m' => ?_⟩
  · rw [ha.entry, if_pos hchunk, ha.wrote.version a l hl', if_pos hrow, ha.active]
  · rw [ha.entry, if_pos hchunk, ha.wrote.time m' a l hl', if_pos hrow]

/-- The cells of other words are current as before. -/
theorem Accessed.current_iff {a l : ℕ} (hl : l < numProfiledLevels)
    (hout : ¬InRow entry'.type (a / 4) addr) :
    Current numProfiledLevels s' a l ↔ Current numProfiledLevels s a l := by
  have hiff : s'.written (a / 4) l = true ↔ s.written (a / 4) l = true := by
    rw [ha.written_iff]
    exact ⟨fun hor => hor.resolve_right fun hin => hout hin.1, .inl⟩
  unfold Current
  rw [hiff, ha.active]
  refine and_congr_right fun hw => ?_
  rw [(ha.outside h hl (fun hin => hout hin.1) hw).1]

/-- An entry that is without a table was so before, and nothing is written there. -/
theorem Accessed.untouched {a : ℕ} (hnone : (entryAt numProfiledLevels s'.sTable a).tTable = none) :
    (entryAt numProfiledLevels s'.sTable a).type = .type_64bit ∧
      ∀ l, s'.written (a / 4) l = false := by
  rw [ha.entry] at hnone ⊢
  split at hnone
  next => exact absurd hnone ha.wrote.table
  next hchunk =>
    rw [if_neg hchunk]
    refine ⟨(h.untouched a hnone).1, fun l => ?_⟩
    rw [← Bool.not_eq_true, ha.written_iff]
    rintro (hw | hin)
    · rw [(h.untouched a hnone).2 l] at hw
      cases hw
    · exact hchunk (chunk_of_inRow hin.1)

/-- In an entry of 8-byte words the halves of a word are written together. -/
theorem Accessed.halves {a b : ℕ}
    (h64 : (entryAt numProfiledLevels s'.sTable a).type = .type_64bit) (hab : a / 8 = b / 8)
    (l : ℕ) : s'.written (a / 4) l = s'.written (b / 4) l := by
  rw [Bool.eq_iff_iff, ha.written_iff, ha.written_iff]
  rw [ha.entry] at h64
  split at h64
  next hchunk =>
    rw [h64]
    -- words of 8 bytes are words of 8 bytes before the access too
    have hold : (entryAt numProfiledLevels s.sTable a).type = .type_64bit := by
      rw [ha.wrote.type] at h64
      rw [entryAt_congr numProfiledLevels s.sTable hchunk]
      unfold readyType at h64
      split at h64
      · exact h64
      · split at h64
        · cases h64
        · exact h64
    rw [h.halves a b hold hab l]
    show _ ∨ a / 4 / 2 = addr / 8 ∧ _ ↔ _ ∨ b / 4 / 2 = addr / 8 ∧ _
    rw [show a / 4 / 2 = b / 4 / 2 by omega]
  next hchunk =>
    have hnot : ¬InRow entry'.type (a / 4) addr := fun hin => hchunk (chunk_of_inRow hin)
    have hnot' : ¬InRow entry'.type (b / 4) addr := by
      intro hin
      apply hchunk
      rw [← chunk_of_inRow hin]
      unfold chunk
      omega
    simp only [hnot, hnot', false_and, or_false]
    rw [h.halves a b h64 hab l]

/-- The versions written have been given out. -/
theorem Accessed.seen (hprofiled : s.active.levels ≤ numProfiledLevels) {a l : ℕ}
    (hl : l < numProfiledLevels) (hw : s'.written (a / 4) l = true) :
    versionCell (entryAt numProfiledLevels s'.sTable a) a l < s'.active.next := by
  rw [ha.active]
  by_cases hin : InRow entry'.type (a / 4) addr ∧ l < s.active.levels
  · rw [(ha.inside h hprofiled hin.1 hin.2).1.2, ha.active]
    exact h.ordered.below l hin.2
  · have hw' := ((ha.written_iff a l).mp hw).resolve_right hin
    rw [(ha.outside h hl hin hw').1]
    exact h.seen a l hl hw'

/-- A current cell holds what the reference map does. -/
theorem Accessed.valid (hprofiled : s.active.levels ≤ numProfiledLevels) {a l : ℕ}
    (hl : l < s.active.levels) (hcur : Current numProfiledLevels s' a l) :
    (∀ m', metTime m' (entryAt numProfiledLevels s'.sTable a) a l
      = s'.ref.view s.active.versions (a / 4) l) ∧ ∀ j < l, Current numProfiledLevels s' a j := by
  rw [ha.view a l hl]
  by_cases hin : InRow entry'.type (a / 4) addr
  · rw [if_pos hin]
    exact ⟨(ha.inside h hprofiled hin hl).2, fun j hj =>
      (ha.inside h hprofiled hin (Nat.lt_trans hj hl)).1⟩
  · rw [if_neg hin]
    have hlp := Nat.lt_of_lt_of_le hl hprofiled
    have hold := (ha.current_iff h hlp hin).mp hcur
    obtain ⟨htime, hdown⟩ := h.valid a l hl hlp hold
    refine ⟨fun m' => ?_, fun j hj => (ha.current_iff h (by omega) hin).mpr (hdown j hj)⟩
    rw [(ha.outside h hlp (fun hh => hin hh.1) hold.1).2]
    exact htime m'

/-- Where a cell is not current, nothing was set. -/
theorem Accessed.invalid (hprofiled : s.active.levels ≤ numProfiledLevels) {a l : ℕ}
    (hl : l < s.active.levels) (hcur : ¬Current numProfiledLevels s' a l) :
    s'.ref.view s.active.versions (a / 4) l = 0 := by
  have hlp := Nat.lt_of_lt_of_le hl hprofiled
  rw [ha.view a l hl]
  by_cases hin : InRow entry'.type (a / 4) addr
  · exact absurd (ha.inside h hprofiled hin hl).1 hcur
  · rw [if_neg hin]
    exact h.invalid a l hl hlp fun hc => hcur ((ha.current_iff h hlp hin).mpr hc)

/-- **An access keeps the memory right.** -/
theorem Right.access (hprofiled : s.active.levels ≤ numProfiledLevels) :
    Right numProfiledLevels s' where
  ordered := ha.active.symm ▸ h.ordered
  below := ha.active.symm ▸ ha.below
  depth a := by
    rw [ha.entry]
    split
    · exact ha.wrote.depth.trans (h.depth addr)
    · exact h.depth a
  untouched a := ha.untouched h
  halves a b h64 hab := ha.halves h h64 hab
  seen a l := ha.seen h hprofiled
  valid a l hl _ hcur := by
    rw [ha.active] at hl ⊢
    exact ha.valid h hprofiled hl hcur
  invalid a l hl _ hcur := by
    rw [ha.active] at hl ⊢
    exact ha.invalid h hprofiled hl hcur

end Accessed

/-- The state after an access to the entry of `addr`. -/
theorem Right.after (h : Right numProfiledLevels s) {m : Malloc} {type : TableType}
    {addr : ℕ} {times : ℕ → ℕ} {entry' : SegEntry} {sTable : STable} {ref : VersionedMap ℕ}
    (hprofiled : s.active.levels ≤ numProfiledLevels)
    (hwrote : Wrote m type addr s.active.levels s.active.versions times
      (entryAt numProfiledLevels s.sTable addr) entry')
    (hentry : ∀ a, entryAt numProfiledLevels sTable a
      = if chunk a = chunk addr then entry' else entryAt numProfiledLevels s.sTable a)
    (hbelow : ref.Below s.active.next)
    (hview : ∀ a, ∀ l < s.active.levels, ref.view s.active.versions (a / 4) l
      = if InRow entry'.type (a / 4) addr then times l
        else s.ref.view s.active.versions (a / 4) l) :
    Right numProfiledLevels { s with
      sTable := sTable
      ref := ref
      written := writeRow (entryAt numProfiledLevels sTable addr).type addr s.active.levels
        s.written } := by
  have htype : (entryAt numProfiledLevels sTable addr).type = entry'.type := by
    rw [hentry, if_pos rfl]
  have ha : Accessed numProfiledLevels m type addr times entry' s { s with
      sTable := sTable
      ref := ref
      written := writeRow (entryAt numProfiledLevels sTable addr).type addr s.active.levels
        s.written } :=
    ⟨rfl, hwrote, hentry, congrArg (fun t => writeRow t addr s.active.levels s.written) htype,
      hbelow, hview⟩
  exact h.access ha hprofiled

/-- **A read** returns what the reference map holds. -/
theorem Right.get (h : Right numProfiledLevels s) {m : Malloc} {addr width : ℕ}
    (ha : Accessible numProfiledLevels s addr width)
    (hm : Meets numProfiledLevels s (.get m addr width)) :
    ∃ times sTable,
      Base.get numProfiledLevels m addr s.active.levels s.active.versions width s.sTable
        = some (some times, sTable) ∧
      (∀ l < s.active.levels, times l = s.ref.view s.active.versions (addr / 4) l) ∧
      Right numProfiledLevels { s with
        sTable := sTable
        written := writeRow (entryAt numProfiledLevels sTable addr).type addr s.active.levels
          s.written } := by
  obtain ⟨hcounted, hroom, hsplit, hfresh⟩ := hm
  have hpos := ha.pos
  have hprofiled := ha.profiled
  let entry := entryAt numProfiledLevels s.sTable addr
  have hsize : s.active.levels ≤ entry.depth := by
    rw [show entry.depth = numProfiledLevels from h.depth addr]
    exact hprofiled
  -- where the version met is the current one, the cell is current
  have hcurrent : ∀ l < s.active.levels,
      metVersion m entry addr l = s.active.versions l ↔ Current numProfiledLevels s addr l := by
    intro l hl
    constructor
    · intro heq
      have hw : s.written (addr / 4) l = true := by
        by_contra hno
        exact hfresh l hl (Bool.eq_false_iff.mpr hno) heq
      exact ⟨hw, (h.met hw m).symm.trans heq⟩
    · intro hcur
      exact (h.met hcur.1 m).trans hcur.2
  have hdown : ∀ i < s.active.levels, metVersion m entry addr i = s.active.versions i →
      ∀ j < i, metVersion m entry addr j = s.active.versions j := by
    intro i hi heq j hj
    have hcur := (h.valid addr i hi (by omega) ((hcurrent i hi).mp heq)).2 j hj
    exact (hcurrent j (by omega)).mpr hcur
  obtain ⟨times, entry', tTable, hget, htable, hdepth, htype, hcells, htimes⟩ :=
    segTableGetTime_spec hsplit hsize hdown
  obtain ⟨sTable, hfound, hentry, -⟩ := withEntry_spec
    (segTableGetTime m addr s.active.levels s.active.versions (accessType width)) hroom
  rw [hget] at hfound hentry
  have hwrote : Wrote m (accessType width) addr s.active.levels s.active.versions times entry
      entry' := by
    refine ⟨by rw [htable]; exact Option.some_ne_none _, hdepth, htype, ?_, ?_⟩
    · intro a l hl
      rw [htype]
      exact (hcells a l hl).1
    · intro m' a l hl
      rw [htype, ← (hcells a l hl).2]
      unfold metTime
      rw [htable]
      rfl
  -- what is returned for the row is what the map holds for each of its words
  have hread : ∀ a, InRow entry'.type (a / 4) addr → ∀ l < s.active.levels,
      times l = s.ref.view s.active.versions (a / 4) l := by
    intro a hin l hl
    have hchunk := chunk_of_inRow hin
    have hsame : entryAt numProfiledLevels s.sTable a = entry := entryAt_congr _ _ hchunk
    have hindex : timeTableGetIndex a entry.depth entry.type
          = timeTableGetIndex addr entry.depth entry.type ∧
        s.written (a / 4) l = s.written (addr / 4) l := by
      unfold timeTableGetIndex
      cases h64 : entry.type with
      | type_32bit =>
          have htype' : entry'.type = .type_32bit := by
            rw [htype]
            unfold readyType
            rw [show (entryAt numProfiledLevels s.sTable addr).type = .type_32bit from h64]
            simp
          rw [htype'] at hin
          replace hin : a / 4 = addr / 4 := hin
          rw [hin, segTableEntryOffset_32, segTableEntryOffset_32, hin]
          exact ⟨rfl, rfl⟩
      | type_64bit =>
          have hword : a / 8 = addr / 8 := by
            cases htype' : entry'.type with
            | type_64bit =>
                rw [htype'] at hin
                replace hin : a / 4 / 2 = addr / 8 := hin
                omega
            | type_32bit =>
                rw [htype'] at hin
                replace hin : a / 4 = addr / 4 := hin
                omega
          rw [segTableEntryOffset_64, segTableEntryOffset_64, hword]
          exact ⟨rfl, h.halves a addr (hsame ▸ h64) hword l⟩
    have hiff : Current numProfiledLevels s a l ↔ Current numProfiledLevels s addr l := by
      unfold Current versionCell
      rw [hsame, hindex.1, hindex.2]
    rw [htimes l hl]
    by_cases hcur : Current numProfiledLevels s addr l
    · rw [if_pos ((hcurrent l hl).mpr hcur),
        ← (h.valid a l hl (by omega) (hiff.mpr hcur)).1 m, hsame]
      unfold metTime
      rw [hindex.1]
    · rw [if_neg fun heq => hcur ((hcurrent l hl).mp heq),
        h.invalid a l hl (by omega) fun hc => hcur (hiff.mp hc)]
  refine ⟨times, sTable, ?_, ?_, ?_⟩
  · unfold Base.get
    rw [if_neg (by omega), if_neg (Nat.not_le.mpr hcounted)]
    exact hfound
  · intro l hl
    refine hread addr ?_ l hl
    unfold InRow
    split
    · omega
    · rfl
  · apply h.after hprofiled hwrote hentry h.below
    intro a l hl
    split
    next hin => exact (hread a hin l hl).symm
    next => rfl

/-- The words an access covers get the times. -/
theorem view_storeWords {ref : VersionedMap ℕ} {vArray tArray : ℕ → ℕ} {addr size width : ℕ}
    (hnatural : width ∈ [1, 2, 4, 8]) (haligned : width ∣ addr) (w : ℕ) {l : ℕ} (hl : l < size) :
    (storeWords ref vArray addr size tArray width).view vArray w l
      = if InRow (accessType width) w addr then tArray l else ref.view vArray w l := by
  unfold storeWords accessType
  by_cases hwide : 4 < width
  · have h8 : width = 8 := by
      simp only [List.mem_cons, List.not_mem_nil, or_false] at hnatural
      omega
    subst h8
    simp only [hwide, if_true, VersionedMap.view_store, hl, and_true]
    show _ = if w / 2 = addr / 8 then _ else _
    by_cases hin : w / 2 = addr / 8
    · rw [if_pos hin]
      by_cases hupper : w = addr / 4 + 1
      · rw [if_pos hupper]
      · rw [if_neg hupper, if_pos (by omega)]
    · rw [if_neg hin, if_neg (by omega), if_neg (by omega)]
  · simp only [hwide, if_false, VersionedMap.view_store, hl, and_true]
    rfl

/-- **A write** stores what the reference map stores. -/
theorem Right.set (h : Right numProfiledLevels s) {m : Malloc} {addr width : ℕ}
    {tArray : ℕ → ℕ} (ha : Accessible numProfiledLevels s addr width)
    (hm : Meets numProfiledLevels s (.set m addr width tArray)) :
    ∃ sTable,
      Base.set numProfiledLevels m addr s.active.levels s.active.versions tArray width s.sTable
        = some sTable ∧
      Right numProfiledLevels { s with
        sTable := sTable
        ref := storeWords s.ref s.active.versions addr s.active.levels tArray width
        written := writeRow (entryAt numProfiledLevels sTable addr).type addr s.active.levels
          s.written } := by
  obtain ⟨hcounted, hroom, hsplit, hnarrow, hwide⟩ := hm
  have hpos := ha.pos
  have hprofiled := ha.profiled
  have hsize : s.active.levels ≤ (entryAt numProfiledLevels s.sTable addr).depth := by
    rw [h.depth]
    exact hprofiled
  obtain ⟨entry', tTable, hset, htable, hdepth, htype, hcells⟩ :=
    segTableSetTime_spec hsplit hsize tArray
  obtain ⟨sTable, hfound, hentry, -⟩ := withEntry_spec
    (segTableSetTime m addr s.active.levels s.active.versions tArray (accessType width)) hroom
  rw [hset] at hfound hentry
  have hwrote : Wrote m (accessType width) addr s.active.levels s.active.versions tArray
      (entryAt numProfiledLevels s.sTable addr) entry' := by
    refine ⟨by rw [htable]; exact Option.some_ne_none _, hdepth, htype, ?_, ?_⟩
    · intro a l hl
      rw [htype]
      exact (hcells a l hl).1
    · intro m' a l hl
      rw [htype, ← (hcells a l hl).2]
      unfold metTime
      rw [htable]
      rfl
  -- the entry has words as wide as the access
  have hsame : entry'.type = accessType width := by
    rw [htype]
    unfold readyType
    cases hacc : accessType width with
    | type_32bit => rw [if_neg (hnarrow hacc), if_pos rfl]
    | type_64bit => simp [hwide hacc]
  refine ⟨sTable, ?_, ?_⟩
  · unfold Base.set
    rw [if_neg (by omega), if_neg (Nat.not_le.mpr hcounted)]
    exact congrArg (Option.map Prod.snd) hfound
  · apply h.after hprofiled hwrote hentry
    · unfold storeWords
      have hver : ∀ l < s.active.levels, s.active.versions l < s.active.next :=
        fun l hl => h.ordered.below l hl
      split
      · exact (h.below.store hver _ _).store hver _ _
      · exact h.below.store hver _ _
    · intro a l hl
      rw [hsame]
      exact view_storeWords ha.natural ha.aligned _ hl

/-- **Every event that keeps clear of the slips can be taken and keeps the memory
right.** -/
theorem Right.step (h : Right numProfiledLevels s) {e : Event}
    (he : Admissible numProfiledLevels s e ∧ Meets numProfiledLevels s e) :
    ∃ s', step numProfiledLevels s e = some s' ∧ Right numProfiledLevels s' := by
  obtain ⟨hadm, hm⟩ := he
  cases e with
  | enter version => exact ⟨_, rfl, h.enter hadm⟩
  | exit => exact ⟨_, rfl, h.exit⟩
  | get m addr width =>
      obtain ⟨times, sTable, hget, -, hs'⟩ := h.get hadm hm
      exact ⟨_, congrArg (Option.map _) hget, hs'⟩
  | set m addr width tArray =>
      obtain ⟨sTable, hset, hs'⟩ := h.set hadm hm
      exact ⟨_, congrArg (Option.map _) hset, hs'⟩

/-- **In every run that keeps clear of the slips the reads return what was last
set** for their 4-byte word under the current version of each level, else 0. -/
theorem run_right (numProfiledLevels : ℕ) {events : List Event}
    (hok : RunOk (step numProfiledLevels)
      (fun s e => Admissible numProfiledLevels s e ∧ Meets numProfiledLevels s e) start events) :
    ∃ s, run (step numProfiledLevels) start events = some s ∧
      ∀ m addr width, Accessible numProfiledLevels s addr width →
        Meets numProfiledLevels s (.get m addr width) → ∃ times sTable,
          get numProfiledLevels m addr s.active.levels s.active.versions width s.sTable
            = some (some times, sTable) ∧
          ∀ l < s.active.levels, times l = s.ref.view s.active.versions (addr / 4) l := by
  obtain ⟨s, hrun, h⟩ := run_total_of (fun _ _ hinv he => Right.step hinv he)
    (right_start numProfiledLevels) hok
  refine ⟨s, hrun, fun m addr width ha hm => ?_⟩
  obtain ⟨times, sTable, hget, htimes, -⟩ := h.get ha hm
  exact ⟨times, sTable, hget, htimes⟩

/-- `malloc` returns memory full of zeros. -/
def zeroed : Malloc := ⟨fun _ => 0, fun _ => 0⟩

/-- An 8-byte word is written and its entry split by a 4-byte read; then its upper half
is written, and in another region its lower half. -/
def splitWord : List Event :=
  [.enter 1, .set zeroed 8 8 fun _ => 5, .get zeroed 8 4, .set zeroed 12 4 fun _ => 7, .exit,
    .enter 3, .set zeroed 8 4 fun _ => 9]

theorem run_right_split :
    ∃ s, run (step 1) start splitWord = some s ∧
      (∃ times sTable, get 1 zeroed 8 s.active.levels s.active.versions 4 s.sTable
        = some (some times, sTable) ∧ times 0 = 9) ∧
      ∃ times sTable, get 1 zeroed 12 s.active.levels s.active.versions 4 s.sTable
        = some (some times, sTable) ∧ times 0 = 0 := by
  have hok : RunOk (step 1) (fun s e => Admissible 1 s e ∧ Meets 1 s e) start splitWord := by
    decide +kernel
  have hfacts : (run (step 1) start splitWord).all (fun s => s.active.levels = 1 ∧
      (Accessible 1 s 8 4 ∧ Meets 1 s (.get zeroed 8 4) ∧ s.ref.view s.active.versions 2 0 = 9) ∧
      Accessible 1 s 12 4 ∧ Meets 1 s (.get zeroed 12 4) ∧
        s.ref.view s.active.versions 3 0 = 0) = true := by decide +kernel
  obtain ⟨s, hrun, hread⟩ := run_right 1 hok
  rw [hrun] at hfacts
  obtain ⟨hlevels, ⟨hacc, hmeets, hview⟩, hacc', hmeets', hview'⟩ := of_decide_eq_true hfacts
  have hlt : 0 < s.active.levels := by omega
  obtain ⟨times, sTable, hget, htimes⟩ := hread zeroed 8 4 hacc hmeets
  obtain ⟨times', sTable', hget', htimes'⟩ := hread zeroed 12 4 hacc' hmeets'
  exact ⟨s, hrun, ⟨times, sTable, hget, (htimes 0 hlt).trans hview⟩, times', sTable', hget',
    (htimes' 0 hlt).trans hview'⟩

/-- A 4-byte word is written first; its neighbour is read with it. -/
def narrowFirst : List Event := [.enter 1, .set zeroed 4 4 fun _ => 5]

/-- What an 8-byte read at address 0 returns then, and what was set for that word. -/
def readNeighbour : Option (ℕ × ℕ) := do
  let s ← run (step 1) start narrowFirst
  let r ← get 1 zeroed 0 s.active.levels s.active.versions 8 s.sTable
  let times ← r.1
  some (times 0, s.ref.view s.active.versions 0 0)

/-- The time of the upper half is returned for the lower one. -/
theorem narrowFirst_read :
    ¬∀ (numProfiledLevels : ℕ) (events : List Event),
      RunOk (step numProfiledLevels) (Admissible numProfiledLevels) start events →
      ∀ s, run (step numProfiledLevels) start events = some s →
      ∀ m addr width, Accessible numProfiledLevels s addr width →
      ∀ times sTable, get numProfiledLevels m addr s.active.levels s.active.versions width s.sTable
          = some (some times, sTable) →
      ∀ l < s.active.levels, times l = s.ref.view s.active.versions (addr / 4) l := by
  intro h
  have hok : RunOk (step 1) (Admissible 1) start narrowFirst := by
    refine ⟨Nat.zero_le _, ?_⟩
    rintro _ ⟨⟩
    refine ⟨⟨by decide, Nat.dvd_refl 4, Nat.le_refl 1, Nat.le_refl 1⟩, ?_⟩
    intro _ _
    trivial
  have hread : readNeighbour = some (5, 0) := by decide
  unfold readNeighbour at hread
  simp only [Option.bind_eq_bind, Option.bind_eq_some_iff] at hread
  obtain ⟨s, hrun, r, hget, times, htimes, heq⟩ := hread
  have hlevels : s.active.levels = 1 := by
    have hmap : (run (step 1) start narrowFirst).map (fun s => s.active.levels) = some 1 := by
      decide
    rw [hrun] at hmap
    exact Option.some.inj hmap
  have hacc : Accessible 1 s 0 8 := ⟨by decide, Nat.dvd_zero 8, by omega, by omega⟩
  have hsame := h 1 narrowFirst hok s hrun zeroed 0 8 hacc times r.2
    (hget.trans (by rw [← htimes])) 0 (by omega)
  rw [Option.some.injEq, Prod.mk.injEq] at heq
  rw [heq.1] at hsame
  rw [show (0 / 4 : ℕ) = 0 from rfl, heq.2] at hsame
  cases hsame

end Kremlin.Shadow.Base
