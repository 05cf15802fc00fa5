/-
  Kremlin.Shadow.MShadowSkadu — the shadow memory as a whole.

  An address is split in three: its upper half selects an entry of the sparse
  table, bits 12 to 31 a page of that entry's segment, and the rest a word of
  the page.  Pages are made on first use and never removed; with compression on,
  `getLevelTable` also decompresses the page it returns, which may compress
  another one.

  Every access is 64 bits wide, whatever width it is called with.  The address a
  new page gets is an argument (`fresh`): any that is not in use.

  `get` and `set` go through a cache.  `NullCache` passes them on; `SkaduCache`
  calls `fetch` and `evict` when it misses and when it flushes.
-/
import Kremlin.Shadow.CompressionBuffer

namespace Kremlin.Shadow

variable {P : Type} [LinearOrder P]

/-! ## §1. The state. -/

/-- `kremlin_config`, as far as the shadow memory reads it. -/
structure ShadowConfig where
  compressShadowMem : Bool
  num_compression_buffer_entries : ℕ
  garbage_collection_period : ℕ

/-- The upper half of the addresses, and the `MemorySegment` for them: the page
pointer at each index. -/
structure SparseTableElement (P : Type) where
  addrHigh : ℕ
  segTable : ℕ → Option P

/-- `SparseTable::NUM_ENTRIES`. -/
def SPARSE_ENTRIES : ℕ := 32

/-- `MemorySegment::NUM_ENTRIES`. -/
def SEGMENT_ENTRIES : ℕ := 0xfffff + 1

/-- `MShadowSkadu` over a heap of pages; a page is named by its address. -/
structure MShadowSkadu (P : Type) where
  /-- The sparse table up to `writePtr`. -/
  entry : List (SparseTableElement P)
  heap : Heap P
  /-- The addresses of the level tables made so far. -/
  allocated : List P
  compression_buffer : CBuffer P
  next_gc_time : BitVec 64
  stat : MemStat

namespace MShadowSkadu

/-- `init` and `initGarbageCollector`. -/
def init (cfg : ShadowConfig) : MShadowSkadu P where
  entry := []
  heap _ := .new false
  allocated := []
  compression_buffer := .init cfg.num_compression_buffer_entries
  next_gc_time :=
    if cfg.garbage_collection_period = 0 then BitVec.allOnes 64
    else BitVec.ofNat 64 cfg.garbage_collection_period
  stat := .zero

/-! ## §2. Finding a page. -/

/-- The upper 32 bits of an address, the key of the sparse table. -/
def addrHigh (addr : ℕ) : ℕ := addr >>> 32

/-- `MemorySegment::GetIndex`. -/
def segIndex (addr : ℕ) : ℕ := (addr >>> 12) &&& 0xfffff

/-- `SparseTable::getElement`: the index of the entry.  A 33rd entry would be
written behind the table. -/
def getElement (addr : ℕ) (s : MShadowSkadu P) : Option (ℕ × MShadowSkadu P) :=
  match s.entry.findIdx? fun e => e.addrHigh = addrHigh addr with
  | some i => some (i, s)
  | none =>
      if s.entry.length < SPARSE_ENTRIES then
        some (s.entry.length, { s with entry := s.entry ++ [⟨addrHigh addr, fun _ => none⟩] })
      else none

/-- `lTable = new LevelTable()`, registered with the buffer and the segment. -/
def newLevelTable (cfg : ShadowConfig) (lzo : Lzo) (fresh : P) (i addr : ℕ)
    (s : MShadowSkadu P) : Option (MShadowSkadu P) := do
  let heap := Function.update s.heap fresh (.new false)
  let (compressGain, heap, buffer) ←
    if cfg.compressShadowMem then
      s.compression_buffer.add cfg.compressShadowMem lzo fresh heap
    else some (0, heap, s.compression_buffer)
  let stat :=
    if cfg.compressShadowMem then s.stat.record (.compression compressGain) else s.stat
  some { s with
    heap := heap
    allocated := fresh :: s.allocated
    compression_buffer := buffer
    stat := stat
    entry := s.entry.modify i fun e =>
      { e with segTable := Function.update e.segTable (segIndex addr) (some fresh) } }

/-- The collection and decompression of a compressed page. -/
def decompressLevelTable (cfg : ShadowConfig) (lzo : Lzo) (lTable : P)
    (curr_versions : ℕ → ℕ) (s : MShadowSkadu P) : Option (MShadowSkadu P) := do
  let (lt, es) := (s.heap lTable).collectGarbageUnbounded curr_versions
  let (gain, heap, buffer) ←
    s.compression_buffer.decompress cfg.compressShadowMem lzo lTable
      (Function.update s.heap lTable lt)
  some { s with
    heap := heap
    compression_buffer := buffer
    stat := (s.stat.recordAll es).record (.compression gain) }

/-- `MShadowSkadu::getLevelTable`: the page of an address is made when it is missing and unpacked
when it is packed. -/
def getLevelTable (cfg : ShadowConfig) (lzo : Lzo) (fresh : P) (addr : ℕ)
    (curr_versions : ℕ → ℕ) (s : MShadowSkadu P) : Option (P × MShadowSkadu P) := do
  let (i, s) ← s.getElement addr
  let e ← s.entry[i]?
  let (lTable, s) ←
    match e.segTable (segIndex addr) with
    | some lTable => some (lTable, s)
    | none => (s.newLevelTable cfg lzo fresh i addr).map fun s => (fresh, s)
  if cfg.compressShadowMem ∧ (s.heap lTable).compressed then
    (s.decompressLevelTable cfg lzo lTable curr_versions).map fun s => (lTable, s)
  else some (lTable, s)

/-! ## §3. Reading and writing a page. -/

/-- `if (useCompression()) compression_buffer->touch(lTable)`. -/
def touch (cfg : ShadowConfig) (lTable : P) (s : MShadowSkadu P) : Option (MShadowSkadu P) :=
  if cfg.compressShadowMem then
    (s.compression_buffer.touch cfg.compressShadowMem lTable).map fun buffer =>
      { s with compression_buffer := buffer }
  else some s

/-- The times of the levels below `size`. -/
def readLevels (lt : LevelTable) (addr : ℕ) (curr_versions : ℕ → ℕ) (size : ℕ) :
    Option (List Time) :=
  (List.range size).mapM fun i => lt.getTimeForAddrAtLevel i addr (curr_versions i)

/-- Write `n` levels from level `i` on; `evict` stops at the first time 0. -/
def writeLevels (stopAtZero : Bool) (addr : ℕ) (curr_versions : ℕ → ℕ) (times : ℕ → Time) :
    ℕ → ℕ → LevelTable → Option (LevelTable × List MemEvent)
  | 0, _, lt => some (lt, [])
  | n + 1, i, lt =>
      if stopAtZero ∧ times i = 0 then some (lt, [])
      else do
        let (lt, es) ←
          lt.setTimeForAddrAtLevel i addr (curr_versions i) (times i) .type_64bit
        let (lt, es') ← writeLevels stopAtZero addr curr_versions times n (i + 1) lt
        some (lt, es ++ es')

/-- `MShadowSkadu::fetch` and `NullCache::get`. -/
def fetch (cfg : ShadowConfig) (lzo : Lzo) (fresh : P) (addr size : ℕ)
    (curr_versions : ℕ → ℕ) (s : MShadowSkadu P) : Option (List Time × MShadowSkadu P) := do
  let (lTable, s) ← s.getLevelTable cfg lzo fresh addr curr_versions
  let times ← readLevels (s.heap lTable) addr curr_versions size
  let s ← s.touch cfg lTable
  some (times, s)

/-- `MShadowSkadu::evict` with `stopAtZero`, else `NullCache::set`. -/
def store (stopAtZero : Bool) (cfg : ShadowConfig) (lzo : Lzo) (fresh : P) (addr size : ℕ)
    (curr_versions : ℕ → ℕ) (times : ℕ → Time) (s : MShadowSkadu P) :
    Option (MShadowSkadu P) := do
  let (lTable, s) ← s.getLevelTable cfg lzo fresh addr curr_versions
  let (lt, es) ← writeLevels stopAtZero addr curr_versions times size 0 (s.heap lTable)
  { s with
    heap := Function.update s.heap lTable lt
    stat := s.stat.recordAll es }.touch cfg lTable

/-- `MShadowSkadu::evict`: the times of a line that leaves the cache are written to its page. -/
def evict (cfg : ShadowConfig) (lzo : Lzo) (fresh : P) (addr size : ℕ)
    (curr_versions : ℕ → ℕ) (new_timestamps : ℕ → Time) (s : MShadowSkadu P) :
    Option (MShadowSkadu P) :=
  s.store true cfg lzo fresh addr size curr_versions new_timestamps

/-! ## §4. Garbage collection. -/

/-- `collectGarbageWithinBounds` on one page. -/
def collectPage (curr_versions : ℕ → ℕ) (size : ℕ) (s : MShadowSkadu P) (lTable : P) :
    MShadowSkadu P :=
  let (lt, es) := (s.heap lTable).collectGarbageWithinBounds curr_versions size
  { s with heap := Function.update s.heap lTable lt, stat := s.stat.recordAll es }

/-- The pages of the segments, in the order of the walk. -/
def pages (s : MShadowSkadu P) : List P :=
  s.entry.flatMap fun e => (List.range SEGMENT_ENTRIES).filterMap e.segTable

/-- `MShadowSkadu::runGarbageCollector`: the collection runs over every page of the sparse table. -/
def runGarbageCollector (curr_versions : ℕ → ℕ) (size : ℕ) (s : MShadowSkadu P) :
    MShadowSkadu P :=
  s.pages.foldl (collectPage curr_versions size) s

/-- The first lines of `set`: collect when there are many tables. -/
def collectGarbage (cfg : ShadowConfig) (curr_versions : ℕ → ℕ) (size : ℕ)
    (s : MShadowSkadu P) : MShadowSkadu P :=
  if s.next_gc_time ≤ s.stat.getActiveTimeTableSize then
    { s.runGarbageCollector curr_versions size with
      next_gc_time := s.next_gc_time + BitVec.ofNat 64 cfg.garbage_collection_period }
  else s

/-! ## §5. The interface. -/

/-- `(UInt64)addr & ~(UInt64)0x7`. -/
def wordAddr (addr : ℕ) : ℕ := addr / 8 * 8

/-- `get` through `NullCache`. -/
def get (cfg : ShadowConfig) (lzo : Lzo) (fresh : P) (addr size : ℕ)
    (curr_versions : ℕ → ℕ) (s : MShadowSkadu P) : Option (List Time × MShadowSkadu P) :=
  if size < 1 then some ([], s)
  else s.fetch cfg lzo fresh (wordAddr addr) size curr_versions

/-- `set` through `NullCache`. -/
def set (cfg : ShadowConfig) (lzo : Lzo) (fresh : P) (addr size : ℕ)
    (curr_versions : ℕ → ℕ) (timestamps : ℕ → Time) (s : MShadowSkadu P) :
    Option (MShadowSkadu P) :=
  if size < 1 then some s
  else (s.collectGarbage cfg curr_versions size).store false cfg lzo fresh (wordAddr addr) size
    curr_versions timestamps

end MShadowSkadu

end Kremlin.Shadow
