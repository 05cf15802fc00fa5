/-
  Kremlin.Shadow.CacheHalves — both halves of a cache line.

  A line has two rows of times.  While its type is 32 bits the rows belong to the
  two halves of the word; while it is 64 bits, row 0 belongs to both.  `lookupRead`,
  `lookupWrite` and `set` change from one to the other.

  The accesses below have the line to themselves: each hits it, or is a write to an
  empty line, and all have the same versions and the same number of levels.  What
  a miss reads from the memory and writes to it is left out.

  Main results:
    * `access_right_iff` — when one access reads and leaves what it should;
    * `accesses_right_iff` — when all of a sequence do.
-/
import Kremlin.Library.Run
import Kremlin.Shadow.SkaduCacheRuns

namespace Kremlin.Shadow.CacheHalves

open Kremlin.Library

/-! ## §1. The cache. -/

/-- `TagVectorCacheLine`; `version` and `lastSize` are arrays of two. -/
structure TagVectorCacheLine where
  tag : ℕ
  version : ℕ → ℕ
  lastSize : ℕ → ℕ
  type : TableType

/-- `TagVectorCache`: lines with their tags, and two rows of times for each line. -/
structure TagVectorCache where
  line_count : ℕ
  tagTable : ℕ → TagVectorCacheLine
  /-- Two rows for each line. -/
  valueTable : ℕ → ℕ → Time

namespace TagVectorCache

/-- `configure`: the tables are zeroed, and 0 is `TYPE_64BIT`. -/
def configure (new_line_count : ℕ) : TagVectorCache where
  line_count := new_line_count
  tagTable _ := ⟨0, fun _ => 0, fun _ => 0, .type_64bit⟩
  valueTable _ _ := 0

/-- `TagVectorCache::getLineIndex`. -/
def getLineIndex (c : TagVectorCache) (addr : ℕ) : ℕ :=
  let nShift := 3
  let lineMask := c.line_count - 1
  let lineShift := Shadow.TagVectorCache.getFirstOnePosition c.line_count
  let val0 := (addr >>> nShift) &&& lineMask
  let val1 := (addr >>> (nShift + lineShift)) &&& lineMask
  val0 ^^^ val1

/-- The row `getData(index, offset)` points to. -/
def getData (c : TagVectorCache) (index offset : ℕ) : ℕ → Time := c.valueTable (index * 2 + offset)

/-- Write a row through that pointer. -/
def setData (c : TagVectorCache) (index offset : ℕ) (data : ℕ → Time) : TagVectorCache :=
  { c with valueTable := Function.update c.valueTable (index * 2 + offset) data }

/-- The line at an index is replaced. -/
def setLine (c : TagVectorCache) (index : ℕ) (line : TagVectorCacheLine) : TagVectorCache :=
  { c with tagTable := Function.update c.tagTable index line }

/-- Which half of the word an address is in. -/
def offsetOf (addr : ℕ) : ℕ := (addr >>> 2) &&& 0x1

/-- Index and offset. -/
def lookupRead (addr : ℕ) (type : TableType) (c : TagVectorCache) : ℕ × ℕ :=
  let index := c.getLineIndex addr
  let line := c.tagTable index
  let offset :=
    if line.type = .type_32bit ∧ type = .type_64bit then
      -- the more recent one, by the first item
      if c.getData index 0 0 > c.getData index 1 0 then 0 else 1
    else offsetOf addr
  (index, offset)

/-- A 64-bit line that is written with 32 bits gets two rows; `lastSize[1]` is
assigned to itself. -/
def lookupWrite (addr : ℕ) (type : TableType) (c : TagVectorCache) : TagVectorCache × ℕ × ℕ :=
  let index := c.getLineIndex addr
  let offset := offsetOf addr
  let line := c.tagTable index
  if line.type = .type_64bit ∧ type = .type_32bit then
    let line' := { line with
      type := .type_32bit
      version := Function.update line.version 1 (line.version 0)
      lastSize := Function.update line.lastSize 1 (line.lastSize 1) }
    let option1 := SkaduCache.copyTimes (c.getData index 1) (c.getData index 0) (line.lastSize 0)
    ((c.setLine index line').setData index 1 option1, index, offset)
  else (c, index, offset)

end TagVectorCache

/-- `TagVectorCacheLine::isHit`: the tag and the address agree above the low three bits. -/
def TagVectorCacheLine.isHit (line : TagVectorCacheLine) (addr : ℕ) : Bool :=
  (line.tag ^^^ addr) >>> 3 == 0

/-- `validateTag`, whatever the row: it looks at `version[0]`. -/
def TagVectorCacheLine.validateTag (line : TagVectorCacheLine) (destAddr : ℕ → Time)
    (vArray : ℕ → ℕ) (size : ℕ) : ℕ → Time :=
  let firstInvalid := getStartInvalidLevel (line.version 0) vArray size
  fun l => if firstInvalid ≤ l ∧ l < size then 0 else destAddr l

/-- `setVersion` and `setValidSize`. -/
def TagVectorCacheLine.stamp (line : TagVectorCacheLine) (offset version size : ℕ) :
    TagVectorCacheLine :=
  { line with
    version := Function.update line.version offset version
    lastSize := Function.update line.lastSize offset size }

/-- `SkaduCache::get` on a hit, with the times it returns. -/
def get (addr size : ℕ) (vArray : ℕ → ℕ) (type : TableType) (c : TagVectorCache) :
    Option ((ℕ → Time) × TagVectorCache) :=
  let (index, offset) := c.lookupRead addr type
  let entry := c.tagTable index
  if entry.isHit addr then
    let destAddr := entry.validateTag (c.getData index offset) vArray size
    some (destAddr, (c.setData index offset destAddr).setLine index
      (entry.stamp offset (vArray (size - 1)) size))
  else none

/-- `SkaduCache::set` on a hit or on an empty line, which is not evicted. -/
def set (addr size : ℕ) (vArray : ℕ → ℕ) (tArray : ℕ → Time) (type : TableType)
    (c : TagVectorCache) : Option TagVectorCache :=
  let (c, index, offset) := c.lookupWrite addr type
  let entry := c.tagTable index
  if entry.isHit addr ∨ entry.tag = 0 then
    let c := c.setData index offset (SkaduCache.copyTimes (c.getData index offset) tArray size)
    let c :=
      if entry.type = .type_32bit ∧ type = .type_64bit then
        -- the duplicate goes to the same row
        c.setData index offset (SkaduCache.copyTimes (c.getData index offset) tArray size)
      else c
    some (c.setLine index
      ({ entry with type := type, tag := addr }.stamp offset (vArray (size - 1)) size))
  else none

/-! ## §2. Accesses to one word. -/

/-- 64 bits at the word's address, or 32 bits at one of its halves. -/
inductive Access where
  | word
  | lower
  | upper
  deriving DecidableEq

namespace Access

/-- The width of an access. -/
def type : Access → TableType
  | word => .type_64bit
  | _ => .type_32bit

/-- The address of an access to the word at `w`. -/
def addr (w : ℕ) : Access → ℕ
  | upper => w + 4
  | _ => w

/-- The halves an access covers. -/
def Covers : Access → ℕ → Prop
  | word, _ => True
  | lower, h => h = 0
  | upper, h => h = 1

instance (a : Access) (h : ℕ) : Decidable (a.Covers h) := by
  cases a <;> unfold Covers <;> infer_instance

/-- The half of a 32-bit access, and the first half of the word. -/
def half : Access → ℕ
  | upper => 1
  | _ => 0

end Access

/-- A read or a write of the word. -/
inductive Call where
  | get (a : Access)
  | set (a : Access) (tArray : ℕ → Time)

/-- The cache, and of each half the times of the last write that covers it. -/
structure Session where
  cache : TagVectorCache
  last : ℕ → Option (ℕ → Time)

variable (w size : ℕ) (vArray : ℕ → ℕ)

/-- One access, with the times it returns. -/
def access (s : Session) : Call → Option (Option (ℕ → Time) × Session)
  | .get a => (get (a.addr w) size vArray a.type s.cache).map fun r =>
      (some r.1, { s with cache := r.2 })
  | .set a tArray => (set (a.addr w) size vArray tArray a.type s.cache).map fun c =>
      (none, { cache := c, last := fun h => if a.Covers h then some tArray else s.last h })

/-- The state after one call. -/
def step (s : Session) (c : Call) : Option Session := (access w size vArray s c).map Prod.snd

/-- The line of the word. -/
def line (s : Session) : TagVectorCacheLine := s.cache.tagTable (s.cache.getLineIndex w)

/-- Row 0 or 1 of that line. -/
def row (s : Session) (offset : ℕ) : ℕ → Time :=
  s.cache.getData (s.cache.getLineIndex w) offset

/-- The row that belongs to a half. -/
def rowOf (s : Session) (h : ℕ) : ℕ := if (line w s).type = .type_64bit then 0 else h

/-- The first `size` times agree. -/
def SameTimes (f g : ℕ → Time) : Prop := ∀ l < size, f l = g l

/-- **A half has the version, the size and the times of the last write that covers
it.** -/
def HalfKept (s : Session) (h : ℕ) : Prop :=
  ∀ tArray, s.last h = some tArray →
    (line w s).version (rowOf w s h) = vArray (size - 1) ∧
      (line w s).lastSize (rowOf w s h) = size ∧
      SameTimes size (row w s (rowOf w s h)) tArray

/-- Both halves. -/
def Kept (s : Session) : Prop := HalfKept w size vArray s 0 ∧ HalfKept w size vArray s 1

/-- **An access is right**: a read of a half returns the times of the last write
that covers it, and both halves are kept. -/
def Right (s : Session) (c : Call) : Prop :=
  ∃ times s', access w size vArray s c = some (times, s') ∧ Kept w size vArray s' ∧
    ∀ a tArray found, c = .get a → a ≠ .word → s.last a.half = some tArray →
      times = some found → SameTimes size found tArray

/-- An access that hits the line, or a write to an empty line. -/
def Present (s : Session) : Call → Prop
  | .get _ => (line w s).isHit w = true
  | .set _ _ => (line w s).isHit w = true ∨ (line w s).tag = 0

/-- The times of the upper half survive a read of row 1. -/
def UpperSurvives (s : Session) : Prop :=
  s.last 1 ≠ none → ∀ l, getStartInvalidLevel ((line w s).version 0) vArray size ≤ l →
    l < size → row w s 1 l = 0

/-- **When an access is right.**  A 32-bit write to the lower half of a 64-bit line
needs the size in `lastSize[1]`; a 32-bit read of the upper half of a 64-bit line
the same times in row 1 as in row 0; and a read of row 1 of a 32-bit line may clear
none of its times for the version of row 0. -/
def Sound (s : Session) : Call → Prop
  | .set .lower _ => (line w s).type = .type_64bit → s.last 1 ≠ none →
      (line w s).lastSize 1 = size
  | .get .upper =>
      if (line w s).type = .type_64bit then
        s.last 1 ≠ none → SameTimes size (row w s 1) (row w s 0)
      else UpperSurvives w size vArray s
  | .get .word => (line w s).type = .type_32bit → ¬row w s 0 0 > row w s 1 0 →
      UpperSurvives w size vArray s
  | _ => True

instance (s : Session) : ∀ c, Decidable (Present w s c)
  | .get _ => inferInstanceAs (Decidable (_ = _))
  | .set _ _ => inferInstanceAs (Decidable (_ ∨ _))

theorem upperSurvives_iff (s : Session) :
    UpperSurvives w size vArray s ↔ (¬s.last 1 = none → ∀ l < size,
      getStartInvalidLevel ((line w s).version 0) vArray size ≤ l → row w s 1 l = 0) :=
  ⟨fun h hne l hl hstart => h hne l hstart hl, fun h hne l hstart hl => h hne l hl hstart⟩

instance (s : Session) : Decidable (UpperSurvives w size vArray s) :=
  decidable_of_iff' _ (upperSurvives_iff w size vArray s)

instance (f g : ℕ → Time) : Decidable (SameTimes size f g) :=
  inferInstanceAs (Decidable (∀ l < size, _))

instance (s : Session) : ∀ c, Decidable (Sound w size vArray s c)
  | .set .lower _ => inferInstanceAs (Decidable (_ → ¬s.last 1 = none → _))
  | .set .word _ => .isTrue trivial
  | .set .upper _ => .isTrue trivial
  | .get .lower => .isTrue trivial
  | .get .upper => inferInstanceAs (Decidable (if (line w s).type = .type_64bit then
      ¬s.last 1 = none → SameTimes size (row w s 1) (row w s 0)
      else UpperSurvives w size vArray s))
  | .get .word => inferInstanceAs (Decidable (_ → ¬_ → UpperSurvives w size vArray s))

/-! ## §3. What an access does to the line. -/

variable {w size vArray} {s : Session}

theorem offsetOf_addr (hw : w % 8 = 0) (a : Access) :
    TagVectorCache.offsetOf (a.addr w) = a.half := by
  unfold TagVectorCache.offsetOf
  rw [Nat.and_one_is_mod, Nat.shiftRight_eq_div_pow]
  cases a with
  | word =>
      show w / 2 ^ 2 % 2 = 0
      omega
  | lower =>
      show w / 2 ^ 2 % 2 = 0
      omega
  | upper =>
      show (w + 4) / 2 ^ 2 % 2 = 1
      omega

theorem addr_shiftRight (hw : w % 8 = 0) (a : Access) : a.addr w >>> 3 = w >>> 3 := by
  rw [Nat.shiftRight_eq_div_pow, Nat.shiftRight_eq_div_pow]
  cases a with
  | word => rfl
  | lower => rfl
  | upper =>
      show (w + 4) / 2 ^ 3 = w / 2 ^ 3
      omega

theorem getLineIndex_addr (hw : w % 8 = 0) (a : Access) (c : TagVectorCache) :
    c.getLineIndex (a.addr w) = c.getLineIndex w := by
  unfold TagVectorCache.getLineIndex
  simp only [Nat.shiftRight_add, addr_shiftRight hw a]

theorem isHit_addr (hw : w % 8 = 0) (a : Access) (l : TagVectorCacheLine) :
    l.isHit (a.addr w) = l.isHit w := by
  unfold TagVectorCacheLine.isHit
  rw [Nat.shiftRight_xor_distrib, Nat.shiftRight_xor_distrib, addr_shiftRight hw a]

/-- The line and its rows after a row and the line are written. -/
theorem line_written (c : TagVectorCache) (last : ℕ → Option (ℕ → Time)) (o : ℕ)
    (data : ℕ → Time) (l : TagVectorCacheLine) :
    line w ⟨(c.setData (c.getLineIndex w) o data).setLine (c.getLineIndex w) l, last⟩ = l :=
  Function.update_self ..

theorem row_written (c : TagVectorCache) (last : ℕ → Option (ℕ → Time)) (o : ℕ)
    (data : ℕ → Time) (l : TagVectorCacheLine) (o' : ℕ) :
    row w ⟨(c.setData (c.getLineIndex w) o data).setLine (c.getLineIndex w) l, last⟩ o'
      = if o' = o then data else c.getData (c.getLineIndex w) o' := by
  show Function.update c.valueTable (c.getLineIndex w * 2 + o) data
    (c.getLineIndex w * 2 + o') = _
  rw [Function.update_apply]
  by_cases h : o' = o
  · rw [if_pos (by omega), if_pos h]
  · rw [if_neg (by omega), if_neg h]
    rfl

/-- The row a read uses. -/
def readOffset (w : ℕ) (s : Session) (a : Access) : ℕ :=
  if (line w s).type = .type_32bit ∧ a.type = .type_64bit then
    if row w s 0 0 > row w s 1 0 then 0 else 1
  else a.half

/-- The row a read uses, after `validateTag`. -/
def validated (w size : ℕ) (vArray : ℕ → ℕ) (s : Session) (a : Access) : ℕ → Time :=
  (line w s).validateTag (row w s (readOffset w s a)) vArray size

/-- **A read** stamps the row it uses. -/
theorem access_get (hw : w % 8 = 0) (hhit : (line w s).isHit w = true) (a : Access)
    (size : ℕ) (vArray : ℕ → ℕ) :
    ∃ s', access w size vArray s (.get a) = some (some (validated w size vArray s a), s') ∧
      s'.last = s.last ∧
      line w s' = (line w s).stamp (readOffset w s a) (vArray (size - 1)) size ∧
      ∀ o, row w s' o = if o = readOffset w s a then validated w size vArray s a
        else row w s o := by
  have hlookup : s.cache.lookupRead (a.addr w) a.type
      = (s.cache.getLineIndex w, readOffset w s a) := by
    unfold TagVectorCache.lookupRead
    rw [getLineIndex_addr hw a, offsetOf_addr hw a]
    rfl
  refine ⟨⟨(s.cache.setData (s.cache.getLineIndex w) (readOffset w s a)
    (validated w size vArray s a)).setLine (s.cache.getLineIndex w)
    ((line w s).stamp (readOffset w s a) (vArray (size - 1)) size), s.last⟩, ?_, rfl, ?_, ?_⟩
  · unfold access get
    simp only [hlookup]
    have hhit' : (s.cache.tagTable (s.cache.getLineIndex w)).isHit (a.addr w) = true :=
      (isHit_addr hw a _).trans hhit
    rw [if_pos hhit']
    rfl
  · exact line_written ..
  · intro o
    exact row_written ..

/-- A 32-bit write that finds a 64-bit line. -/
def Converts (w : ℕ) (s : Session) (a : Access) : Prop :=
  (line w s).type = .type_64bit ∧ a.type = .type_32bit

instance (w : ℕ) (s : Session) (a : Access) : Decidable (Converts w s a) :=
  inferInstanceAs (Decidable (_ ∧ _))

/-- The rows a write finds. -/
def converted (w : ℕ) (s : Session) (a : Access) (o : ℕ) : ℕ → Time :=
  if Converts w s a ∧ o = 1 then
    SkaduCache.copyTimes (row w s 1) (row w s 0) ((line w s).lastSize 0)
  else row w s o

theorem copyTimes_twice (dest src : ℕ → Time) (n : ℕ) :
    SkaduCache.copyTimes (SkaduCache.copyTimes dest src n) src n
      = SkaduCache.copyTimes dest src n := by
  funext l
  unfold SkaduCache.copyTimes
  split <;> rfl

/-- **A write** fills one row. -/
theorem access_set (hw : w % 8 = 0) (hhere : (line w s).isHit w = true ∨ (line w s).tag = 0)
    (a : Access) (tArray : ℕ → Time) (size : ℕ) (vArray : ℕ → ℕ) :
    ∃ s', access w size vArray s (.set a tArray) = some (none, s') ∧
      s'.last = (fun h => if a.Covers h then some tArray else s.last h) ∧
      (line w s').type = a.type ∧
      (line w s').version = Function.update
        (if Converts w s a then Function.update (line w s).version 1 ((line w s).version 0)
          else (line w s).version) a.half (vArray (size - 1)) ∧
      (line w s').lastSize = Function.update (line w s).lastSize a.half size ∧
      ∀ o, row w s' o = if o = a.half then
          SkaduCache.copyTimes (converted w s a o) tArray size
        else converted w s a o := by
  -- the line and the rows that `lookupWrite` leaves
  obtain ⟨c, l, hlookup, hcount, hline, htag, htype, hversion, hsize, hrows⟩ :
      ∃ (c : TagVectorCache) (l : TagVectorCacheLine),
        s.cache.lookupWrite (a.addr w) a.type = (c, s.cache.getLineIndex w, a.half) ∧
        c.getLineIndex w = s.cache.getLineIndex w ∧
        c.tagTable (s.cache.getLineIndex w) = l ∧ l.tag = (line w s).tag ∧
        (l.type = .type_32bit ∧ a.type = .type_64bit ↔
          (line w s).type = .type_32bit ∧ a.type = .type_64bit) ∧
        l.version = (if Converts w s a then
          Function.update (line w s).version 1 ((line w s).version 0)
          else (line w s).version) ∧
        l.lastSize = (line w s).lastSize ∧
        ∀ o, c.getData (s.cache.getLineIndex w) o = converted w s a o := by
    unfold TagVectorCache.lookupWrite
    rw [getLineIndex_addr hw a, offsetOf_addr hw a]
    by_cases hc : Converts w s a
    · have hc' : (s.cache.tagTable (s.cache.getLineIndex w)).type = .type_64bit ∧
          a.type = .type_32bit := hc
      refine ⟨_, _, if_pos hc', rfl, Function.update_self .., rfl, ?_, (if_pos hc).symm, ?_, ?_⟩
      · rw [hc.2]
        simp
      · exact Function.update_eq_self ..
      · intro o
        unfold converted
        show Function.update s.cache.valueTable _ _ (_ * 2 + o) = _
        rw [Function.update_apply]
        by_cases ho : o = 1
        · rw [if_pos (by omega), if_pos ⟨hc, ho⟩]
          rfl
        · rw [if_neg (by omega), if_neg fun h => ho h.2]
          rfl
    · have hc' : ¬((s.cache.tagTable (s.cache.getLineIndex w)).type = .type_64bit ∧
          a.type = .type_32bit) := hc
      refine ⟨_, _, if_neg hc', rfl, rfl, rfl, Iff.rfl, (if_neg hc).symm, rfl, ?_⟩
      intro o
      unfold converted
      rw [if_neg fun h => hc h.1]
      rfl
  let l' : TagVectorCacheLine :=
    { l with type := a.type, tag := a.addr w }.stamp a.half (vArray (size - 1)) size
  let data := SkaduCache.copyTimes (converted w s a a.half) tArray size
  refine ⟨⟨(c.setData (c.getLineIndex w) a.half data).setLine (c.getLineIndex w) l',
    fun h => if a.Covers h then some tArray else s.last h⟩, ?_, rfl, ?_, ?_, ?_, ?_⟩
  · unfold access set
    have hhere' : l.isHit (a.addr w) = true ∨ l.tag = 0 := by
      rw [isHit_addr hw a]
      unfold TagVectorCacheLine.isHit
      rw [htag]
      exact hhere
    simp only [hlookup, hline, htype]
    rw [if_pos hhere']
    have htwice : ∀ c' : TagVectorCache, c' = c.setData (s.cache.getLineIndex w) a.half data →
        c'.setData (s.cache.getLineIndex w) a.half (SkaduCache.copyTimes
          (c'.getData (s.cache.getLineIndex w) a.half) tArray size) = c' := by
      rintro _ rfl
      unfold TagVectorCache.setData TagVectorCache.getData
      simp only [Function.update_self, Function.update_idem]
      rw [show data = SkaduCache.copyTimes (converted w s a a.half) tArray size from rfl,
        copyTimes_twice]
    rw [hrows a.half, hcount]
    split
    · rw [htwice _ rfl]
      rfl
    · rfl
  · rw [line_written]
    rfl
  · rw [line_written, ← hversion]
    rfl
  · rw [line_written, ← hsize]
    rfl
  · intro o
    rw [row_written, hcount, hrows o]
    by_cases ho : o = a.half
    · rw [if_pos ho, if_pos ho, ho]
    · rw [if_neg ho, if_neg ho]

/-! ## §4. One access. -/

/-- Both halves are kept; those of a 64-bit line are covered by one write. -/
structure Inv (w size : ℕ) (vArray : ℕ → ℕ) (s : Session) : Prop where
  kept : Kept w size vArray s
  whole : (line w s).type = .type_64bit → s.last 0 = s.last 1

theorem rowOf_zero (w : ℕ) (s : Session) : rowOf w s 0 = 0 := by
  unfold rowOf
  split <;> rfl

theorem rowOf_64 (h : (line w s).type = .type_64bit) (half : ℕ) : rowOf w s half = 0 := if_pos h

theorem rowOf_32 (h : (line w s).type = .type_32bit) (half : ℕ) : rowOf w s half = half := by
  unfold rowOf
  rw [h]
  rfl

theorem type_cases (t : TableType) : t = .type_64bit ∨ t = .type_32bit := by
  cases t
  · exact .inl rfl
  · exact .inr rfl

theorem sameTimes_copy (dest src : ℕ → Time) (n : ℕ) :
    SameTimes n (SkaduCache.copyTimes dest src n) src := fun _ hl => if_pos hl

/-- Under the current version nothing is cleared. -/
theorem validated_current (hsize : 1 ≤ size) (a : Access)
    (h : (line w s).version 0 = vArray (size - 1)) :
    validated w size vArray s a = row w s (readOffset w s a) := by
  have hall : getStartInvalidLevel ((line w s).version 0) vArray size = size := by
    unfold getStartInvalidLevel
    rw [if_neg (by omega), if_pos h]
  funext l
  show (if getStartInvalidLevel _ _ _ ≤ l ∧ l < size then 0 else _) = _
  rw [hall, if_neg (by omega)]

theorem version_zero (hkept : Kept w size vArray s) {tArray : ℕ → Time}
    (h : s.last 0 = some tArray) : (line w s).version 0 = vArray (size - 1) := by
  have hver := (hkept.1 tArray h).1
  rwa [rowOf_zero] at hver

/-- **A write of the whole word** is right. -/
theorem kept_set_word (hw : w % 8 = 0)
    (hhere : (line w s).isHit w = true ∨ (line w s).tag = 0) (tArray : ℕ → Time) :
    ∃ s', access w size vArray s (.set .word tArray) = some (none, s') ∧
      Inv w size vArray s' := by
  obtain ⟨s', haccess, hlast, htype, hversion, hlastSize, hrow⟩ :=
    access_set hw hhere .word tArray size vArray
  have hboth : ∀ h, HalfKept w size vArray s' h := by
    intro h times htimes
    rw [hlast] at htimes
    cases htimes
    rw [rowOf_64 htype, hversion, hlastSize, hrow 0, if_pos (show 0 = Access.half .word from rfl)]
    exact ⟨Function.update_self .., Function.update_self .., sameTimes_copy _ _ _⟩
  refine ⟨s', haccess, ⟨hboth 0, hboth 1⟩, fun _ => ?_⟩
  rw [hlast]
  rfl

/-- **A write of the upper half** is right. -/
theorem kept_set_upper (hw : w % 8 = 0)
    (hhere : (line w s).isHit w = true ∨ (line w s).tag = 0) (hinv : Inv w size vArray s)
    (tArray : ℕ → Time) :
    ∃ s', access w size vArray s (.set .upper tArray) = some (none, s') ∧
      Inv w size vArray s' := by
  obtain ⟨s', haccess, hlast, htype, hversion, hlastSize, hrow⟩ :=
    access_set hw hhere .upper tArray size vArray
  refine ⟨s', haccess, ⟨?_, ?_⟩, fun h64 => ?_⟩
  · intro times htimes
    rw [hlast] at htimes
    have hold := hinv.kept.1 times htimes
    rw [rowOf_zero] at hold ⊢
    have hver : (line w s').version 0 = (line w s).version 0 := by
      rw [hversion, Function.update_of_ne (by decide)]
      split
      · exact Function.update_of_ne (by decide) ..
      · rfl
    have hrow0 : row w s' 0 = row w s 0 := by
      rw [hrow 0, if_neg (by decide)]
      exact if_neg fun h => absurd h.2 (by decide)
    rw [hver, hlastSize, Function.update_of_ne (by decide), hrow0]
    exact hold
  · intro times htimes
    rw [hlast] at htimes
    cases htimes
    rw [rowOf_32 htype, hversion, hlastSize, hrow 1, if_pos (show 1 = Access.half .upper from rfl)]
    exact ⟨Function.update_self .., Function.update_self .., sameTimes_copy _ _ _⟩
  · rw [htype] at h64
    cases h64

/-- **A write of the lower half** keeps the upper one, but for the size of it. -/
theorem kept_set_lower (hw : w % 8 = 0)
    (hhere : (line w s).isHit w = true ∨ (line w s).tag = 0) (hinv : Inv w size vArray s)
    (tArray : ℕ → Time) :
    ∃ s', access w size vArray s (.set .lower tArray) = some (none, s') ∧
      (line w s').type = .type_32bit ∧
      (Kept w size vArray s' ↔ Sound w size vArray s (.set .lower tArray)) := by
  obtain ⟨s', haccess, hlast, htype, hversion, hlastSize, hrow⟩ :=
    access_set hw hhere .lower tArray size vArray
  have hlower : HalfKept w size vArray s' 0 := by
    intro times htimes
    rw [hlast] at htimes
    cases htimes
    rw [rowOf_zero, hversion, hlastSize, hrow 0, if_pos (show 0 = Access.half .lower from rfl)]
    exact ⟨Function.update_self .., Function.update_self .., sameTimes_copy _ _ _⟩
  have hsize1 : (line w s').lastSize 1 = (line w s).lastSize 1 := by
    rw [hlastSize]
    exact Function.update_of_ne (by decide) ..
  have hver1 : (line w s').version 1 = if Converts w s .lower then (line w s).version 0
      else (line w s).version 1 := by
    rw [hversion, Function.update_of_ne (by decide)]
    split
    · exact Function.update_self ..
    · rfl
  have hrow1 : row w s' 1 = converted w s .lower 1 := by
    rw [hrow 1]
    exact if_neg (by decide)
  refine ⟨s', haccess, htype, ?_⟩
  constructor
  · -- the size of the upper half is the one it had before
    intro hkept h64 hcovered
    obtain ⟨times, htimes⟩ := Option.ne_none_iff_exists'.mp hcovered
    have hupper := hkept.2 times (by rw [hlast]; exact htimes)
    rw [rowOf_32 htype, hsize1] at hupper
    exact hupper.2.1
  · intro hsound
    refine ⟨hlower, ?_⟩
    intro times htimes
    rw [hlast] at htimes
    have hold := hinv.kept.2 times htimes
    rw [rowOf_32 htype, hver1, hsize1, hrow1]
    rcases type_cases (line w s).type with h64 | h32
    · -- row 1 is a copy of row 0
      have hc : Converts w s .lower := ⟨h64, rfl⟩
      rw [rowOf_64 h64] at hold
      rw [if_pos hc, hsound h64 (by rw [show s.last 1 = some times from htimes]; simp)]
      refine ⟨hold.1, rfl, ?_⟩
      intro l hl
      unfold converted
      rw [if_pos ⟨hc, rfl⟩, hold.2.1]
      exact (if_pos hl).trans (hold.2.2 l hl)
    · -- no conversion: the upper half is untouched
      have hc : ¬Converts w s .lower := by
        intro hc
        have hno := h32.symm.trans hc.1
        cases hno
      rw [rowOf_32 h32] at hold
      unfold converted
      rw [if_neg hc, if_neg fun h => hc h.1]
      exact hold

/-- **A read** keeps both halves, but for the times it clears in row 1. -/
theorem kept_get (hw : w % 8 = 0) (hsize : 1 ≤ size) (hhit : (line w s).isHit w = true)
    (hinv : Inv w size vArray s) (a : Access) :
    ∃ s', access w size vArray s (.get a) = some (some (validated w size vArray s a), s') ∧
      s'.last = s.last ∧ (line w s').type = (line w s).type ∧
      (Kept w size vArray s' ↔ ((line w s).type = .type_32bit → readOffset w s a = 1 →
        UpperSurvives w size vArray s)) := by
  obtain ⟨s', haccess, hlast, hline, hrow⟩ := access_get hw hhit a size vArray
  have htype : (line w s').type = (line w s).type := by
    rw [hline]
    rfl
  have hrowOf : ∀ h, rowOf w s' h = rowOf w s h := by
    intro h
    unfold rowOf
    rw [htype]
  -- a half is kept if its times are
  have hhalf : ∀ h, (∀ times, s.last h = some times → rowOf w s h = readOffset w s a →
      SameTimes size (validated w size vArray s a) times) → HalfKept w size vArray s h →
      HalfKept w size vArray s' h := by
    intro h hclear hkept times htimes
    rw [hlast] at htimes
    obtain ⟨hver, hlen, hsame⟩ := hkept times htimes
    rw [hrowOf, hline, hrow]
    unfold TagVectorCacheLine.stamp
    by_cases ho : rowOf w s h = readOffset w s a
    · simp only [ho, Function.update_self, if_true]
      exact ⟨trivial, trivial, hclear times htimes ho⟩
    · simp only [Function.update_of_ne ho, if_neg ho]
      exact ⟨hver, hlen, hsame⟩
  have hlower : HalfKept w size vArray s' 0 := by
    refine hhalf 0 ?_ hinv.kept.1
    intro times htimes ho
    have hold := hinv.kept.1 times htimes
    rw [validated_current hsize a (version_zero hinv.kept htimes), ← ho]
    exact hold.2.2
  refine ⟨s', haccess, hlast, htype, ?_⟩
  constructor
  · intro hkept h32 ho hcovered l hle hl
    obtain ⟨times, htimes⟩ := Option.ne_none_iff_exists'.mp hcovered
    have hnew := (hkept.2 times (by rw [hlast]; exact htimes)).2.2 l hl
    have hold := (hinv.kept.2 times htimes).2.2 l hl
    rw [hrowOf, rowOf_32 h32] at hnew
    rw [rowOf_32 h32] at hold
    rw [hrow 1, if_pos ho.symm] at hnew
    have hzero : validated w size vArray s a l = 0 := if_pos ⟨hle, hl⟩
    rw [hold, ← hnew, hzero]
  · intro hsurvives
    refine ⟨hlower, hhalf 1 ?_ hinv.kept.2⟩
    intro times htimes ho l hl
    have hold := (hinv.kept.2 times htimes).2.2 l hl
    rcases type_cases (line w s).type with h64 | h32
    · -- both halves are in row 0
      have hzero : s.last 0 = some times := (hinv.whole h64).trans htimes
      rw [validated_current hsize a (version_zero hinv.kept hzero), ← ho]
      exact hold
    · rw [rowOf_32 h32] at ho hold
      have hclear := hsurvives h32 ho.symm (by rw [htimes]; simp)
      show (if getStartInvalidLevel _ _ _ ≤ l ∧ l < size then 0 else row w s _ l) = _
      rw [← ho]
      split
      next hcut =>
        rw [← hold]
        exact (hclear l hcut.1 hl).symm
      next => exact hold

/-- A step is the access without what it returns. -/
theorem step_eq {c : Call} {times : Option (ℕ → Time)} {s₁ s' : Session}
    (haccess : access w size vArray s c = some (times, s₁))
    (hs' : step w size vArray s c = some s') : s' = s₁ := by
  unfold step at hs'
  rw [haccess] at hs'
  exact (Option.some.inj hs').symm

/-- A write returns nothing: it is right if it keeps both halves. -/
theorem right_set_iff {a : Access} {tArray : ℕ → Time} {s₁ : Session}
    (haccess : access w size vArray s (.set a tArray) = some (none, s₁)) :
    Right w size vArray s (.set a tArray) ↔ Kept w size vArray s₁ := by
  constructor
  · rintro ⟨times, s₂, haccess', hkept, -⟩
    rw [haccess] at haccess'
    cases haccess'
    exact hkept
  · intro hkept
    refine ⟨none, s₁, haccess, hkept, ?_⟩
    intro b times found hb
    cases hb

/-- A read must clear nothing of the upper half, and return the times of its own. -/
def ReadsRight (w size : ℕ) (vArray : ℕ → ℕ) (s : Session) (a : Access) : Prop :=
  ((line w s).type = .type_32bit → readOffset w s a = 1 → UpperSurvives w size vArray s) ∧
    (a ≠ .word → ∀ tArray, s.last a.half = some tArray →
      SameTimes size (validated w size vArray s a) tArray)

theorem right_get_iff {a : Access} {s₁ : Session}
    (haccess : access w size vArray s (.get a) = some (some (validated w size vArray s a), s₁))
    (hiff : Kept w size vArray s₁ ↔ ((line w s).type = .type_32bit → readOffset w s a = 1 →
      UpperSurvives w size vArray s)) :
    Right w size vArray s (.get a) ↔ ReadsRight w size vArray s a := by
  constructor
  · rintro ⟨times, s₂, haccess', hkept, hread⟩
    rw [haccess] at haccess'
    cases haccess'
    exact ⟨hiff.mp hkept, fun hne tArray ht => hread a tArray _ rfl hne ht rfl⟩
  · rintro ⟨hkept, hread⟩
    refine ⟨_, s₁, haccess, hiff.mpr hkept, ?_⟩
    rintro b tArray found hb hne ht hfound
    cases hb
    cases hfound
    exact hread hne tArray ht

/-- A word is read from the row whose first time is later. -/
theorem readsRight_word :
    ReadsRight w size vArray s .word ↔ Sound w size vArray s (.get .word) := by
  unfold ReadsRight
  rcases type_cases (line w s).type with h64 | h32
  · refine iff_of_true ⟨?_, fun hne => absurd rfl hne⟩ ?_
    · intro h32
      rw [h64] at h32
      cases h32
    · intro h32
      rw [h64] at h32
      cases h32
  · have hoffset : readOffset w s .word = if row w s 0 0 > row w s 1 0 then 0 else 1 :=
      if_pos ⟨h32, rfl⟩
    rw [hoffset]
    constructor
    · intro h _ hgt
      exact h.1 h32 (if_neg hgt)
    · intro h
      refine ⟨fun _ ho => h h32 ?_, fun hne => absurd rfl hne⟩
      intro hgt
      rw [if_pos hgt] at ho
      cases ho

/-- Row 0 always has the lower half. -/
theorem readsRight_lower (hsize : 1 ≤ size) (hinv : Inv w size vArray s) :
    ReadsRight w size vArray s .lower := by
  have hoffset : readOffset w s .lower = 0 := if_neg fun h => by cases h.2
  refine ⟨?_, ?_⟩
  · intro _ ho
    rw [hoffset] at ho
    cases ho
  · intro _ tArray htimes
    have hold := hinv.kept.1 tArray htimes
    rw [validated_current hsize _ (version_zero hinv.kept htimes), hoffset]
    rw [rowOf_zero] at hold
    exact hold.2.2

/-- The upper half is read from row 1, though a 64-bit line keeps it in row 0. -/
theorem readsRight_upper (hsize : 1 ≤ size) (hinv : Inv w size vArray s) :
    ReadsRight w size vArray s .upper ↔ Sound w size vArray s (.get .upper) := by
  have hoffset : readOffset w s .upper = 1 := if_neg fun h => by cases h.2
  unfold ReadsRight Sound
  rcases type_cases (line w s).type with h64 | h32
  · rw [if_pos h64]
    constructor
    · intro h hcovered l hl
      obtain ⟨times, htimes⟩ := Option.ne_none_iff_exists'.mp hcovered
      have hzero : s.last 0 = some times := (hinv.whole h64).trans htimes
      have hread := h.2 (by decide) times htimes l hl
      have hold := (hinv.kept.1 times hzero).2.2 l hl
      rw [validated_current hsize _ (version_zero hinv.kept hzero), hoffset] at hread
      rw [rowOf_zero] at hold
      exact hread.trans hold.symm
    · intro h
      refine ⟨?_, ?_⟩
      · intro h32
        rw [h64] at h32
        cases h32
      · intro _ times htimes l hl
        have hzero : s.last 0 = some times := (hinv.whole h64).trans htimes
        have hold := (hinv.kept.1 times hzero).2.2 l hl
        have hsame := h (by rw [show s.last 1 = some times from htimes]; simp) l hl
        rw [validated_current hsize _ (version_zero hinv.kept hzero), hoffset]
        rw [rowOf_zero] at hold
        exact hsame.trans hold
  · rw [if_neg fun h64 => by rw [h32] at h64; cases h64]
    constructor
    · intro h
      exact h.1 h32 hoffset
    · intro h
      refine ⟨fun _ _ => h, ?_⟩
      intro _ times htimes l hl
      have hold := (hinv.kept.2 times htimes).2.2 l hl
      rw [rowOf_32 h32] at hold
      show (if getStartInvalidLevel _ _ _ ≤ l ∧ l < size then 0 else row w s _ l) = _
      rw [hoffset]
      split
      next hcut =>
        -- what the read clears was 0 already
        rw [← hold]
        exact (h (by rw [show s.last 1 = some times from htimes]; simp) l hcut.1 hl).symm
      next => exact hold

/-- **When an access is right**, and then it keeps what all of them rest on. -/
theorem access_right_iff (hw : w % 8 = 0) (hsize : 1 ≤ size) (hinv : Inv w size vArray s)
    {c : Call} (hpresent : Present w s c) :
    (Right w size vArray s c ↔ Sound w size vArray s c) ∧
      ∀ s', Sound w size vArray s c → step w size vArray s c = some s' → Inv w size vArray s' := by
  cases c with
  | set a tArray =>
      cases a with
      | word =>
          have hset : ∃ s₁, access w size vArray s (.set .word tArray) = some (none, s₁) ∧
              Inv w size vArray s₁ := kept_set_word hw hpresent tArray
          obtain ⟨s₁, haccess, hinv'⟩ := hset
          refine ⟨(right_set_iff haccess).trans (iff_of_true hinv'.kept trivial), ?_⟩
          intro s' _ hs'
          rw [step_eq haccess hs']
          exact hinv'
      | upper =>
          obtain ⟨s₁, haccess, hinv'⟩ := kept_set_upper hw hpresent hinv tArray
          refine ⟨(right_set_iff haccess).trans (iff_of_true hinv'.kept trivial), ?_⟩
          intro s' _ hs'
          rw [step_eq haccess hs']
          exact hinv'
      | lower =>
          obtain ⟨s₁, haccess, htype, hiff⟩ := kept_set_lower hw hpresent hinv tArray
          refine ⟨(right_set_iff haccess).trans hiff, ?_⟩
          intro s' hsound hs'
          rw [step_eq haccess hs']
          -- the line is a 32-bit one from here on
          refine ⟨hiff.mpr hsound, fun h64 => ?_⟩
          rw [htype] at h64
          cases h64
  | get a =>
      obtain ⟨s₁, haccess, hlast, htype, hiff⟩ := kept_get hw hsize hpresent hinv a
      have hright := right_get_iff haccess hiff
      have hsound : ReadsRight w size vArray s a ↔ Sound w size vArray s (.get a) := by
        cases a with
        | word => exact readsRight_word
        | lower => exact iff_of_true (readsRight_lower hsize hinv) trivial
        | upper => exact readsRight_upper hsize hinv
      refine ⟨hright.trans hsound, ?_⟩
      intro s' hok hs'
      rw [step_eq haccess hs']
      refine ⟨hiff.mpr (hsound.mpr hok).1, fun h64 => ?_⟩
      rw [hlast]
      exact hinv.whole (htype.symm.trans h64)

/-! ## §5. Sequences of accesses. -/

/-- A cache of which nothing is known but that it has the line. -/
def opened (c : TagVectorCache) : Session := ⟨c, fun _ => none⟩

theorem inv_opened (w size : ℕ) (vArray : ℕ → ℕ) (c : TagVectorCache) :
    Inv w size vArray (opened c) where
  kept := ⟨fun _ h => (by cases h), fun _ h => (by cases h)⟩
  whole _ := rfl

/-- **When all accesses of a sequence are right.**  From any cache on, for any
versions and number of levels: every access reads and leaves what it should if and
only if every access meets its condition. -/
theorem accesses_right_iff (hw : w % 8 = 0) (hsize : 1 ≤ size) (vArray : ℕ → ℕ)
    (c : TagVectorCache) {calls : List Call}
    (hpresent : RunOk (step w size vArray) (Present w) (opened c) calls) :
    RunOk (step w size vArray) (Right w size vArray) (opened c) calls ↔
      RunOk (step w size vArray) (Sound w size vArray) (opened c) calls :=
  runOk_congr_of (Present w)
    (fun _ _ hinv hp => (access_right_iff hw hsize hinv hp).1)
    (fun _ _ s' hinv hp hsound hs' => (access_right_iff hw hsize hinv hp).2 s' hsound hs')
    (inv_opened w size vArray c) hpresent

/-- A word is written to an empty line, then its upper half, and both halves are read. -/
theorem accesses_right_halves :
    RunOk (step 8 1 fun _ => 1) (Right 8 1 fun _ => 1) (opened (.configure 4))
      [.set .word fun _ => 5, .set .upper fun _ => 6, .get .upper, .get .lower] := by
  have hpresent : RunOk (step 8 1 fun _ => 1) (Present 8) (opened (.configure 4))
      [.set .word fun _ => 5, .set .upper fun _ => 6, .get .upper, .get .lower] := by decide
  have hsound : RunOk (step 8 1 fun _ => 1) (Sound 8 1 fun _ => 1) (opened (.configure 4))
      [.set .word fun _ => 5, .set .upper fun _ => 6, .get .upper, .get .lower] := by decide
  exact (accesses_right_iff (by decide) (by decide) (fun _ => 1) (.configure 4) hpresent).mpr
    hsound

/-- **The upper half is read from row 1** after the word was written to row 0. -/
theorem upper_half_lost :
    RunOk (step 8 1 fun _ => 1) (Present 8) (opened (.configure 4))
        [.set .word fun _ => 5, .get .upper] ∧
      ¬RunOk (step 8 1 fun _ => 1) (Right 8 1 fun _ => 1) (opened (.configure 4))
        [.set .word fun _ => 5, .get .upper] := by
  constructor
  · refine ⟨.inr rfl, fun s₁ h₁ => ?_⟩
    cases h₁
    exact ⟨rfl, fun _ _ => trivial⟩
  · intro h
    obtain ⟨times, s₂, haccess, -, hread⟩ := (h.2 _ rfl).1
    cases haccess
    have hfive := hread .upper (fun _ => 5) _ rfl (by decide) rfl rfl 0 (by decide)
    exact absurd hfive (by decide)

end Kremlin.Shadow.CacheHalves
