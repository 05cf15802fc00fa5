/-
  Kremlin.Common.HashMap — the hash map of chained buckets.

  A bucket is a slot of the table; its nodes are linked to a chain that ends with
  a null pointer.  Growing the table moves the nodes to another table one by one,
  in place, and removing a node links its neighbours, or the bucket, past it.

  An allocation of the table may fail, which leaves the map as it was.  `debug` and
  `delete_func` print and deallocate; `copy_func` is stored and never called.
-/
import Kremlin.Library.Chains
import Kremlin.Library.Run
import Mathlib.Algebra.Ring.Nat

namespace Kremlin.Common

open Kremlin.Library

/-! ## §1. The data. -/

/-- A node of a chain: a key, its value and the node behind it. -/
structure HashMapNode where
  key : Pointer
  value : Pointer
  next : Pointer

instance : Link HashMapNode where
  next := HashMapNode.next
  setNext n p := { n with next := p }
  next_setNext _ _ := rfl

/-- `hash_func` and `compare_func`, and how `put` finds the map to be full: what
`(float)map->occupancy / map->size >= map->load` gives. -/
structure HashMapConfig (Load : Type) where
  hash_func : Pointer → BitVec 64
  compare_func : Pointer → Pointer → Bool
  full : BitVec 64 → BitVec 64 → Load → Bool
  default_load : Load

/-- `struct hash_map` and the nodes of the heap. -/
structure HashMap (Load : Type) where
  heap : NodeHeap HashMapNode
  map : ℕ → Pointer
  load : Load
  occupancy : BitVec 64
  size : BitVec 64

/-- `DEFAULT_SIZE`. -/
def DEFAULT_SIZE : BitVec 64 := 16

variable {Load : Type} (cfg : HashMapConfig Load)

namespace HashMap

/-- `hash_map_create`. -/
def create : HashMap Load where
  heap _ := none
  map _ := NULL
  load := cfg.default_load
  occupancy := 0
  size := DEFAULT_SIZE

/-! ## §2. The operations.

A chain is walked in at most as many rounds as there are nodes, and one. -/

/-- The bucket of a key. -/
def hash_map_get_index (m : HashMap Load) (key : Pointer) : ℕ :=
  (cfg.hash_func key).toNat % m.size.toNat

/-- No walk along a chain takes more turns. -/
def fuel (m : HashMap Load) : ℕ := m.occupancy.toNat + 1

/-- The place of the key's node in its chain, or of the null pointer at its end. -/
def hash_map_locate (m : HashMap Load) (key : Pointer) : Option Spot :=
  Spot.walk (fun node => cfg.compare_func node.key key) m.map m.heap m.fuel
    (.slot (m.hash_map_get_index cfg key))

/-- The value the pointer that is returned points to. -/
def hash_map_get (m : HashMap Load) (key : Pointer) : Option (Option Pointer) := do
  let found_node ← m.hash_map_locate cfg key
  let p ← found_node.read m.map m.heap
  if p = NULL then some none
  else (m.heap.deref p).map fun node => some node.value

/-- `while(link_node)` of `hash_map_reserve`. -/
def relink (rounds : ℕ) (size : BitVec 64) :
    ℕ → Pointer → (ℕ → Pointer) × NodeHeap HashMapNode →
      Option ((ℕ → Pointer) × NodeHeap HashMapNode)
  | 0, _, _ => none
  | n + 1, link_node, (new_map, heap) =>
      if link_node = NULL then some (new_map, heap)
      else do
        let node ← heap.deref link_node
        let new_spot ← Spot.walk (fun _ => false) new_map heap rounds
          (.slot ((cfg.hash_func node.key).toNat % size.toNat))
        let (new_map, heap) ← new_spot.write new_map heap link_node
        let node ← heap.deref link_node
        relink rounds size n node.next
          (new_map, heap.put link_node { node with next := NULL })

/-- `hash_map_reserve`; `alloc` says whether `calloc` succeeds, which it cannot
where the bytes wrap. -/
def hash_map_reserve (alloc : Bool) (size : BitVec 64) (m : HashMap Load) :
    Option (HashMap Load) :=
  if ¬(alloc = true ∧ size.toNat * 8 < 2 ^ 64) then some m
  else do
    let (new_map, heap) ← (List.range m.size.toNat).foldlM
      (fun s i => relink cfg m.fuel size m.fuel (m.map i) s) (fun _ => NULL, m.heap)
    some { m with heap := heap, map := new_map, size := size }

/-- `hash_map_put`; `fresh` is the address of a new node. -/
def hash_map_put (fresh : Pointer) (alloc : Bool) (key value : Pointer) (force : Bool)
    (m : HashMap Load) : Option (Pointer × HashMap Load) := do
  let found_node ← m.hash_map_locate cfg key
  let p ← found_node.read m.map m.heap
  if p ≠ NULL then do
    let node ← m.heap.deref p
    if force then some (node.value, { m with heap := m.heap.put p { node with value := value } })
    else some (node.value, m)
  else do
    let (map, heap) ← found_node.write m.map m.heap fresh
    let m := { m with
      heap := heap.put fresh ⟨key, value, NULL⟩, map := map, occupancy := m.occupancy + 1 }
    if cfg.full m.occupancy m.size m.load then
      (m.hash_map_reserve cfg alloc (m.size * 2)).map fun m => (value, m)
    else some (value, m)

/-- The loop of `hash_map_remove`, with the node before the spot. -/
def removeLoop (key : Pointer) (m : HashMap Load) :
    ℕ → Pointer → Spot → Option (Pointer × Spot)
  | 0, _, _ => none
  | n + 1, last_node, working_node => do
      let p ← working_node.read m.map m.heap
      if p = NULL then some (last_node, working_node)
      else do
        let node ← m.heap.deref p
        if cfg.compare_func node.key key then some (last_node, working_node)
        else removeLoop key m n p (.next p)

/-- `if(last_node) … else …`: the link that led to the node leads past it. -/
def unlink (last_node : Pointer) (working_node : Spot) (next : Pointer) (m : HashMap Load) :
    Option ((ℕ → Pointer) × NodeHeap HashMapNode) :=
  if last_node ≠ NULL then
    (m.heap.deref last_node).map fun last =>
      (m.map, m.heap.put last_node { last with next := next })
  else working_node.write m.map m.heap next

/-- `hash_map_remove`. -/
def hash_map_remove (key : Pointer) (m : HashMap Load) : Option (Pointer × HashMap Load) := do
  let (last_node, working_node) ← removeLoop cfg key m m.fuel NULL
    (.slot (m.hash_map_get_index cfg key))
  let to_be_deleted ← working_node.read m.map m.heap
  if to_be_deleted ≠ NULL then do
    let node ← m.heap.deref to_be_deleted
    let (map, heap) ← m.unlink last_node working_node node.next
    let heap ← heap.free to_be_deleted
    some (node.value, { m with heap := heap, map := map, occupancy := m.occupancy - 1 })
  else some (NULL, m)

/-- `while(working_element)` of `hash_map_clear`. -/
def clearChain : ℕ → Pointer → NodeHeap HashMapNode → Option (NodeHeap HashMapNode)
  | 0, _, _ => none
  | n + 1, working_element, heap =>
      if working_element = NULL then some heap
      else do
        let node ← heap.deref working_element
        let heap ← heap.free working_element
        clearChain n node.next heap

/-- `hash_map_clear`. -/
def hash_map_clear (m : HashMap Load) : Option (HashMap Load) := do
  let (map, heap) ← (List.range m.size.toNat).foldlM
    (fun (s : (ℕ → Pointer) × NodeHeap HashMapNode) i => do
      let heap ← clearChain m.fuel (s.1 i) s.2
      some (Function.update s.1 i NULL, heap)) (m.map, m.heap)
  some { m with heap := heap, map := map, occupancy := 0 }

/-- Another load at which the table grows. -/
def hash_map_set_load (load : Load) (m : HashMap Load) : HashMap Load := { m with load := load }

/-- The number of nodes. -/
def hash_map_size (m : HashMap Load) : ℕ := m.occupancy.toNat

/-! ## §3. Iterators. -/

/-- `struct hash_map_iterator`: the index is an `int`. -/
structure Iterator where
  index : BitVec 32
  current_node : Pointer
  last_node : Pointer

/-- `hash_map_it_next`, in fewer than `n` rounds. -/
def hash_map_it_next (m : HashMap Load) : ℕ → Iterator → Option (Pointer × Iterator)
  | 0, _ => none
  | n + 1, it =>
      if it.current_node = NULL then
        if it.index.signExtend 64 < m.size then
          hash_map_it_next m n { it with
            current_node := m.map it.index.toNat, index := it.index + 1 }
        else some (NULL, { it with last_node := NULL })
      else do
        let node ← m.heap.deref it.current_node
        some (node.key, { it with last_node := it.current_node, current_node := node.next })

/-- `hash_map_it_value`: the value the pointer that is returned points to. -/
def hash_map_it_value (m : HashMap Load) (it : Iterator) : Option (Option Pointer) :=
  if (it.index - 1).signExtend 64 < m.size ∧ it.last_node ≠ NULL then
    (m.heap.deref it.last_node).map fun node => some node.value
  else some none

/-- The keys from `key` on, until the iterator returns `NULL`, each with what
`hash_map_it_value` gives for it. -/
def visit (m : HashMap Load) : ℕ → Pointer × Iterator → Option (List (Pointer × Option Pointer))
  | 0, _ => none
  | n + 1, (key, it) =>
      if key = NULL then some []
      else do
        let value ← m.hash_map_it_value it
        let next ← m.hash_map_it_next (m.size.toNat + 2) it
        let rest ← visit m n next
        some ((key, value) :: rest)

/-- `hash_map_it_init`, and all calls of `hash_map_it_next`. -/
def iterate (m : HashMap Load) : Option (List (Pointer × Option Pointer)) := do
  let first ← m.hash_map_it_next (m.size.toNat + 2) ⟨0, NULL, NULL⟩
  m.visit m.fuel first

end HashMap

/-! ## §4. Sequences of operations, on a hash map and on a finite map. -/

/-- The operations, with the address and the success of what they allocate. -/
inductive HashMapCall (Load : Type) where
  | put (fresh : Pointer) (alloc : Bool) (key value : Pointer) (force : Bool)
  | get (key : Pointer)
  | remove (key : Pointer)
  | reserve (alloc : Bool) (size : BitVec 64)
  | set_load (load : Load)
  | clear
  | size

/-- What an operation returns. -/
inductive HashMapResult where
  | done
  | value (v : Pointer)
  | found (v : Option Pointer)
  | size (n : ℕ)
  deriving DecidableEq

/-- One call on a hash map. -/
def HashMap.call (m : HashMap Load) : HashMapCall Load → Option (HashMapResult × HashMap Load)
  | .put fresh alloc key value force =>
      (m.hash_map_put cfg fresh alloc key value force).map fun r => (.value r.1, r.2)
  | .get key => (m.hash_map_get cfg key).map fun v => (.found v, m)
  | .remove key => (m.hash_map_remove cfg key).map fun r => (.value r.1, r.2)
  | .reserve alloc size => (m.hash_map_reserve cfg alloc size).map fun m => (.done, m)
  | .set_load load => some (.done, m.hash_map_set_load load)
  | .clear => m.hash_map_clear.map fun m => (.done, m)
  | .size => some (.size m.hash_map_size, m)

/-- A finite map: its keys, no two of them equal by `compare_func`, with their
values. -/
abbrev FiniteMap := List (Pointer × Pointer)

namespace FiniteMap

/-- The value of the first key that compares equal. -/
def lookup (M : FiniteMap) (key : Pointer) : Option Pointer :=
  (M.find? fun e => cfg.compare_func e.1 key).map Prod.snd

/-- The value that is stored for a key that is in the map; another key is added. -/
def store (M : FiniteMap) (key value : Pointer) : FiniteMap :=
  if (M.lookup cfg key).isSome then
    M.map fun e => if cfg.compare_func e.1 key then (e.1, value) else e
  else M ++ [(key, value)]

/-- The map without such a key. -/
def erase (M : FiniteMap) (key : Pointer) : FiniteMap :=
  M.filter fun e => !cfg.compare_func e.1 key

/-- One call on a finite map: `put` returns the value there was, else the one it
stores; without `force` it stores for new keys only. -/
def call (M : FiniteMap) : HashMapCall Load → HashMapResult × FiniteMap
  | .put _ _ key value force =>
      (.value ((M.lookup cfg key).getD value),
        if force ∨ M.lookup cfg key = none then M.store cfg key value else M)
  | .get key => (.found (M.lookup cfg key), M)
  | .remove key => (.value ((M.lookup cfg key).getD NULL), M.erase cfg key)
  | .reserve _ _ => (.done, M)
  | .set_load _ => (.done, M)
  | .clear => (.done, [])
  | .size => (.size M.length, M)

end FiniteMap

end Kremlin.Common
