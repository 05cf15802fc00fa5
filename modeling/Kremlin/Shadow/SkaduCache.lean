/-
  Kremlin.Shadow.SkaduCache — a direct-mapped cache before the shadow memory.

  A line keeps the times of one word, the word's address as its tag, and of the
  last access the number of levels (`lastSize`) and the version of the deepest
  of them.  Times of levels entered later are recognised by their larger version
  (`getStartInvalidLevel`); a hit clears them, an eviction does not write them.

  Every access is 64 bits wide, so the second half of a line, for 32-bit
  accesses, is never used.  A line whose tag is 0 counts as empty.

  The pages an operation makes on the way get the addresses `fresh 0`,
  `fresh 1`, …: that of line `i`, when the cache is flushed, gets `fresh i`.
-/
import Kremlin.Shadow.MShadowSkadu

namespace Kremlin.Shadow

variable {P : Type} [LinearOrder P]

/-! ## §1. The lines. -/

/-- The tag of a line, the version and the depth of the last access. -/
structure TagVectorCacheLine where
  tag : ℕ
  version : ℕ
  /-- `int lastSize`: the region depth at the last access. -/
  lastSize : ℕ

/-- The lines and the times they hold. -/
structure TagVectorCache where
  line_count : ℕ
  depth : ℕ
  tagTable : ℕ → TagVectorCacheLine
  /-- The times of a line by level. -/
  valueTable : ℕ → ℕ → Time

namespace TagVectorCache

/-- `configure`: new tables, zeroed. -/
def configure (new_line_count new_depth : ℕ) : TagVectorCache where
  line_count := new_line_count
  depth := new_depth
  tagTable _ := ⟨0, 0, 0⟩
  valueTable _ _ := 0

/-- `getFirstOnePosition`. -/
def getFirstOnePosition (input : ℕ) : ℕ :=
  ((List.range 32).find? fun i => input.testBit i).getD 0

/-- `TagVectorCache::getLineMask`. -/
def getLineMask (c : TagVectorCache) : ℕ := c.line_count - 1

/-- `TagVectorCache::getLineShift`. -/
def getLineShift (c : TagVectorCache) : ℕ := getFirstOnePosition c.line_count

/-- `TagVectorCache::getLineIndex`. -/
def getLineIndex (c : TagVectorCache) (addr : ℕ) : ℕ :=
  let nShift := 3
  let val0 := (addr >>> nShift) &&& c.getLineMask
  let val1 := (addr >>> (nShift + c.getLineShift)) &&& c.getLineMask
  val0 ^^^ val1

/-- Replace a line and its times. -/
def setLine (c : TagVectorCache) (index : ℕ) (line : TagVectorCacheLine) (data : ℕ → Time) :
    TagVectorCache :=
  { c with
    tagTable := Function.update c.tagTable index line
    valueTable := Function.update c.valueTable index data }

end TagVectorCache

/-- From `i - 1` down to 0, the first level with a version not above `lastVer`. -/
def firstInvalidFrom (lastVer : ℕ) (vArray : ℕ → ℕ) : ℕ → ℕ
  | 0 => 0
  | i + 1 => if vArray i ≤ lastVer then i + 1 else firstInvalidFrom lastVer vArray i

/-- `getStartInvalidLevel`: an unchanged version keeps every level; else the scan goes outward to
the first level whose version is not newer. -/
def getStartInvalidLevel (lastVer : ℕ) (vArray : ℕ → ℕ) (size : ℕ) : ℕ :=
  if size = 0 then 0
  else if lastVer = vArray (size - 1) then size
  else firstInvalidFrom lastVer vArray size

/-- `int lastVer = line->version[0]`, widened again for the comparisons. -/
def intVersion (version : ℕ) : ℕ := ((BitVec.ofNat 32 version).signExtend 64).toNat

namespace TagVectorCacheLine

/-- `TagVectorCacheLine::isHit`: the tag and the address agree above the low three bits. -/
def isHit (line : TagVectorCacheLine) (addr : ℕ) : Bool := (line.tag ^^^ addr) >>> 3 == 0

/-- The times that are left. -/
def validateTag (line : TagVectorCacheLine) (destAddr : ℕ → Time) (vArray : ℕ → ℕ) (size : ℕ) :
    ℕ → Time :=
  let firstInvalid := getStartInvalidLevel line.version vArray size
  fun l => if firstInvalid ≤ l ∧ l < size then 0 else destAddr l

end TagVectorCacheLine

/-! ## §2. The cache. -/

/-- The cache and the memory behind it. -/
structure SkaduCache (P : Type) where
  tag_vector_cache : TagVectorCache
  mem_shadow : MShadowSkadu P

namespace SkaduCache

/-- `memcpy` of the first `size` times. -/
def copyTimes (dest src : ℕ → Time) (size : ℕ) : ℕ → Time :=
  fun l => if l < size then src l else dest l

/-- `SkaduCache::evict`: an empty line has nothing to write; else the levels that are still valid
are written back. -/
def evict (cfg : ShadowConfig) (lzo : Lzo) (fresh : P) (index : ℕ) (vArray : ℕ → ℕ)
    (s : SkaduCache P) : Option (SkaduCache P) :=
  let line := s.tag_vector_cache.tagTable index
  if line.tag = 0 then some s
  else
    let evictSize := getStartInvalidLevel (intVersion line.version) vArray line.lastSize
    (s.mem_shadow.evict cfg lzo fresh line.tag evictSize vArray
      (s.tag_vector_cache.valueTable index)).map fun mem_shadow =>
        { s with mem_shadow := mem_shadow }

/-- `SkaduCache::flush`: every line is evicted, in order. -/
def flush (cfg : ShadowConfig) (lzo : Lzo) (fresh : ℕ → P) (vArray : ℕ → ℕ)
    (s : SkaduCache P) : Option (SkaduCache P) :=
  (List.range s.tag_vector_cache.line_count).foldlM
    (fun s i => s.evict cfg lzo (fresh i) i vArray) s

/-- `resize`, which takes the new depth from the old one. -/
def resize (cfg : ShadowConfig) (lzo : Lzo) (fresh : ℕ → P) (vArray : ℕ → ℕ)
    (s : SkaduCache P) : Option (SkaduCache P) :=
  (s.flush cfg lzo fresh vArray).map fun s =>
    { s with tag_vector_cache :=
        .configure s.tag_vector_cache.line_count (s.tag_vector_cache.depth + 10) }

/-- `SkaduCache::checkResize`. -/
def checkResize (cfg : ShadowConfig) (lzo : Lzo) (fresh : ℕ → P) (size : ℕ) (vArray : ℕ → ℕ)
    (s : SkaduCache P) : Option (SkaduCache P) :=
  if s.tag_vector_cache.depth < size then s.resize cfg lzo fresh vArray else some s

/-- The end of `get` and `set`: the line of `addr` after the access. -/
def finish (addr size : ℕ) (vArray : ℕ → ℕ) (data : ℕ → Time) (s : SkaduCache P) :
    SkaduCache P :=
  let index := s.tag_vector_cache.getLineIndex addr
  let line : TagVectorCacheLine :=
    { tag := addr, version := vArray (size - 1), lastSize := size }
  { s with tag_vector_cache := s.tag_vector_cache.setLine index line data }

/-- `SkaduCache::get`: a hit validates the line, a miss evicts it and fetches the word. -/
def get (cfg : ShadowConfig) (lzo : Lzo) (fresh : ℕ → P) (addr size : ℕ) (vArray : ℕ → ℕ)
    (s : SkaduCache P) : Option ((ℕ → Time) × SkaduCache P) := do
  let s ← s.checkResize cfg lzo fresh size vArray
  let index := s.tag_vector_cache.getLineIndex addr
  let entry := s.tag_vector_cache.tagTable index
  let destAddr := s.tag_vector_cache.valueTable index
  if entry.isHit addr then
    let destAddr := entry.validateTag destAddr vArray size
    let entry := { entry with version := vArray (size - 1), lastSize := size }
    some (destAddr,
      { s with tag_vector_cache := s.tag_vector_cache.setLine index entry destAddr })
  else do
    let s ← s.evict cfg lzo (fresh s.tag_vector_cache.line_count) index vArray
    let (timestamps, mem_shadow) ← s.mem_shadow.fetch cfg lzo
      (fresh (s.tag_vector_cache.line_count + 1)) addr size vArray
    let destAddr := copyTimes destAddr (fun l => timestamps.getD l 0) size
    some (destAddr, finish addr size vArray destAddr { s with mem_shadow := mem_shadow })

/-- `SkaduCache::set`: a miss evicts the line; the times are written to the line only. -/
def set (cfg : ShadowConfig) (lzo : Lzo) (fresh : ℕ → P) (addr size : ℕ) (vArray : ℕ → ℕ)
    (tArray : ℕ → Time) (s : SkaduCache P) : Option (SkaduCache P) := do
  let s ← s.checkResize cfg lzo fresh size vArray
  let index := s.tag_vector_cache.getLineIndex addr
  let entry := s.tag_vector_cache.tagTable index
  let s ←
    if entry.isHit addr then some s
    else s.evict cfg lzo (fresh s.tag_vector_cache.line_count) index vArray
  some (finish addr size vArray (copyTimes (s.tag_vector_cache.valueTable index) tArray size) s)

end SkaduCache

/-! ## §3. The shadow memory with the cache. -/

namespace SkaduCache

open MShadowSkadu (wordAddr)

/-- `MShadowSkadu::get`. -/
def shadowGet (cfg : ShadowConfig) (lzo : Lzo) (fresh : ℕ → P) (addr size : ℕ)
    (curr_versions : ℕ → ℕ) (s : SkaduCache P) : Option ((ℕ → Time) × SkaduCache P) :=
  if size < 1 then some (fun _ => 0, s)
  else s.get cfg lzo fresh (wordAddr addr) size curr_versions

/-- `MShadowSkadu::set`. -/
def shadowSet (cfg : ShadowConfig) (lzo : Lzo) (fresh : ℕ → P) (addr size : ℕ)
    (curr_versions : ℕ → ℕ) (timestamps : ℕ → Time) (s : SkaduCache P) :
    Option (SkaduCache P) :=
  if size < 1 then some s
  else
    { s with mem_shadow := s.mem_shadow.collectGarbage cfg curr_versions size }.set cfg lzo fresh
      (wordAddr addr) size curr_versions timestamps

end SkaduCache

end Kremlin.Shadow
