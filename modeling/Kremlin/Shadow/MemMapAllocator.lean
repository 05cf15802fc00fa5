/-
  Kremlin.Shadow.MemMapAllocator — the pool that the arrays of the tables are cut from.

  The pool maps 1 GB at a time and cuts it into chunks of one size, which
  `MShadowSkadu::init` makes that of a 64-bit table.  `MemPoolAlloc` is not told how
  much is asked for: a 32-bit table gets a chunk of that size too, and `memset`s twice
  as much.  A free list that has just been filled is handed out from its uppermost
  chunk down, so the bytes behind a chunk are those of the chunk handed out before.

  Main results:
    * `fill_eq` — what the loop that fills the free list leaves;
    * `handedOut_initPool` — the chunks a new pool hands out, one after the other.
-/
import Kremlin.Shadow.TimeTable
import Mathlib.Tactic.Ring
import Mathlib.Tactic.NormNum

namespace Kremlin.Shadow

/-- The statics of the allocator, and the memory it has mapped.  Addresses count bytes;
`words` has the 8-byte word that starts at an address. -/
structure Pool where
  mmapSizeMB : ℕ
  chunkSize : ℕ
  freeList : List ℕ
  words : ℕ → Time
  /-- The number of mappings made, and where `mmap64` puts each. -/
  mappings : ℕ
  mmap64 : ℕ → ℕ

namespace Pool

/-! ## §1. The allocator. -/

/-- `MemPoolInit`: the sizes are set and no chunk is free yet. -/
def MemPoolInit (mmap64 : ℕ → ℕ) (nMB sizeEach : ℕ) : Pool where
  mmapSizeMB := nMB
  chunkSize := sizeEach
  freeList := []
  words _ := 0
  mappings := 0
  mmap64 := mmap64

/-- The loop of `FillFreeList`: `cnt` chunks from `current` up, each put in front. -/
def fill (chunkSize : ℕ) : (cnt current : ℕ) → List ℕ → List ℕ
  | 0, _, freeList => freeList
  | cnt + 1, current, freeList => fill chunkSize cnt (current + chunkSize) (current :: freeList)

/-- The loop goes on while `current + chunkSize < data + mmapSizeMB * 1024 * 1024`: the
chunk that ends with the mapping is left out. -/
def FillFreeList (p : Pool) : Pool :=
  let data := p.mmap64 p.mappings
  { p with
    freeList := fill p.chunkSize ((p.mmapSizeMB * 1024 * 1024 - 1) / p.chunkSize) data p.freeList
    mappings := p.mappings + 1 }

/-- The chunk in front of the free list. -/
def removeHead (p : Pool) : ℕ × Pool :=
  (p.freeList.headD 0, { p with freeList := p.freeList.tail })

/-- `MemPoolAlloc`: the head of the free list, filled when it is empty. -/
def MemPoolAlloc (p : Pool) : ℕ × Pool :=
  removeHead (if p.freeList = [] then p.FillFreeList else p)

/-- `MemPoolFree`: the chunk becomes the head of the free list. -/
def MemPoolFree (p : Pool) (addr : ℕ) : Pool :=
  { p with freeList := addr :: p.freeList }

/-- `array[index] = time`. -/
def write (p : Pool) (array index : ℕ) (time : Time) : Pool :=
  { p with words := fun a => if a = array + 8 * index then time else p.words a }

/-- `memset(array, 0, sizeof(Time) * size)`. -/
def memset (p : Pool) (array size : ℕ) : Pool :=
  { p with
    words := fun a =>
      if array ≤ a ∧ a < array + 8 * size ∧ (a - array) % 8 = 0 then 0 else p.words a }

/-- The pool as `MShadowSkadu::init` makes it. -/
def initPool (mmap64 : ℕ → ℕ) : Pool :=
  MemPoolInit mmap64 1024 (TimeTable.GetNumEntries .type_64bit * 8)

/-! ## §2. What is handed out. -/

/-- The chunk that the `n`-th of the next allocations gets, if nothing is freed. -/
def handedOut (p : Pool) : ℕ → ℕ
  | 0 => p.MemPoolAlloc.1
  | n + 1 => p.MemPoolAlloc.2.handedOut n

@[simp] theorem words_MemPoolAlloc (p : Pool) : p.MemPoolAlloc.2.words = p.words := by
  unfold MemPoolAlloc
  split <;> rfl

theorem MemPoolAlloc_cons {p : Pool} {addr : ℕ} {rest : List ℕ} (h : p.freeList = addr :: rest) :
    p.MemPoolAlloc = (addr, { p with freeList := rest }) := by
  unfold MemPoolAlloc
  rw [if_neg (by rw [h]; exact List.cons_ne_nil _ _), removeHead, h]
  rfl

/-- What is in the memory does not matter. -/
theorem handedOut_withWords (p : Pool) (words : ℕ → Time) (n : ℕ) :
    handedOut { p with words := words } n = p.handedOut n := by
  have halloc : ∀ p : Pool, MemPoolAlloc { p with words := words } =
      (p.MemPoolAlloc.1, { p.MemPoolAlloc.2 with words := words }) := by
    intro p
    unfold MemPoolAlloc
    dsimp only
    split <;> rfl
  induction n generalizing p with
  | zero =>
      show (MemPoolAlloc { p with words := words }).1 = _
      rw [halloc]
      rfl
  | succ n ih =>
      show (MemPoolAlloc { p with words := words }).2.handedOut n = p.MemPoolAlloc.2.handedOut n
      rw [halloc]
      exact ih p.MemPoolAlloc.2

@[simp] theorem handedOut_write (p : Pool) (array index : ℕ) (time : Time) (n : ℕ) :
    (p.write array index time).handedOut n = p.handedOut n := p.handedOut_withWords _ n

@[simp] theorem handedOut_memset (p : Pool) (array size n : ℕ) :
    (p.memset array size).handedOut n = p.handedOut n := p.handedOut_withWords _ n

/-- `cnt` chunks from `current` up, the uppermost first. -/
def downTo (chunkSize current : ℕ) : ℕ → List ℕ
  | 0 => []
  | cnt + 1 => (current + chunkSize * cnt) :: downTo chunkSize current cnt

/-- **The loop leaves the uppermost chunk in front.** -/
theorem fill_eq (chunkSize cnt current : ℕ) (freeList : List ℕ) :
    fill chunkSize cnt current freeList = downTo chunkSize current cnt ++ freeList := by
  -- the lowest chunk, which is put in first, ends up last
  have hlast : ∀ cnt current, downTo chunkSize (current + chunkSize) cnt ++ [current] =
      downTo chunkSize current (cnt + 1) := by
    intro cnt current
    induction cnt with
    | zero => simp only [downTo, Nat.mul_zero, Nat.add_zero, List.nil_append]
    | succ cnt ih =>
        rw [downTo, List.cons_append, ih, downTo, downTo, downTo,
          show current + chunkSize + chunkSize * cnt = current + chunkSize * (cnt + 1) by ring]
  induction cnt generalizing current freeList with
  | zero => rfl
  | succ cnt ih =>
      rw [fill, ih, ← hlast, List.append_assoc, List.singleton_append]

theorem handedOut_downTo {p : Pool} {chunkSize current cnt : ℕ}
    (hfree : p.freeList = downTo chunkSize current cnt) {n : ℕ} (hn : n < cnt) :
    p.handedOut n = current + chunkSize * (cnt - 1 - n) := by
  induction cnt generalizing p n with
  | zero => exact absurd hn (Nat.not_lt_zero n)
  | succ cnt ih =>
      have halloc := MemPoolAlloc_cons hfree
      cases n with
      | zero =>
          rw [handedOut, halloc]
          rfl
      | succ n =>
          rw [handedOut, halloc, ih rfl (by omega)]
          congr 2
          omega

/-- An empty free list is filled first. -/
theorem handedOut_fill {p : Pool} (h : p.freeList = []) {addr : ℕ} {rest : List ℕ}
    (hfill : p.FillFreeList.freeList = addr :: rest) (n : ℕ) :
    p.handedOut n = p.FillFreeList.handedOut n := by
  have halloc : p.MemPoolAlloc = p.FillFreeList.MemPoolAlloc := by
    rw [MemPoolAlloc_cons hfill, MemPoolAlloc, if_pos h, removeHead, hfill]
    rfl
  cases n with
  | zero => rw [handedOut, handedOut, halloc]
  | succ n => rw [handedOut, handedOut, halloc]

/-- The chunks of the first mapping. -/
theorem freeList_init (mmap64 : ℕ → ℕ) (nMB sizeEach : ℕ) :
    (MemPoolInit mmap64 nMB sizeEach).FillFreeList.freeList =
      downTo sizeEach (mmap64 0) ((nMB * 1024 * 1024 - 1) / sizeEach) := by
  rw [← List.append_nil (downTo _ _ _), ← fill_eq]
  rfl

/-- **A new pool hands out the chunks of its mapping downward.** -/
theorem handedOut_initPool (mmap64 : ℕ → ℕ) {n : ℕ} (hn : n < 262143) :
    (initPool mmap64).handedOut n = mmap64 0 + 4096 * (262142 - n) := by
  have hfill : (initPool mmap64).FillFreeList.freeList = downTo 4096 (mmap64 0) (262142 + 1) := by
    have hcnt : (1024 * 1024 * 1024 - 1) / (512 * 8) = 262142 + 1 := by norm_num
    rw [initPool, TimeTable.GetNumEntries_64bit, freeList_init, hcnt]
  rw [handedOut_fill rfl hfill, handedOut_downTo hfill hn, Nat.add_sub_cancel]

end Pool

end Kremlin.Shadow
