/-
  Kremlin.Common.KremlinDeque — the double ended queue.

  The queue is a chain of nodes linked both ways.  A single node points to itself
  in both directions, and the links that leave the chain at its ends are not kept
  up: the node at the tail may point to itself or to null, and so may the one at
  the head.

  Main results:
    * `QueueOf` — which nodes are the queue: those linked from head to tail,
      whatever the links at the ends;
    * `step_queueOf` — every operation does to them what it does to a list;
    * `deque_simulates_list` — so do sequences of operations, and no link to a node
      that was freed is followed.
-/
import Kremlin.Library.NodeHeap
import Kremlin.Library.Run

namespace Kremlin.Common

open Kremlin.Library

/-! ## §1. The data. -/

/-- A node of the queue, linked both ways. -/
structure DequeNode where
  data : Pointer
  next : Pointer
  prev : Pointer

/-- `struct deque`: of the two functions, whether they are given. -/
structure Deque where
  head : Pointer
  tail : Pointer
  occupancy : BitVec 64
  copy_func : Bool
  delete_func : Bool

/-- A queue and the nodes of the heap. -/
structure DequeState where
  heap : NodeHeap DequeNode
  d : Deque

namespace DequeState

/-- `deque_create`. -/
def create (copy_func delete_func : Bool) : DequeState where
  heap _ := none
  d := ⟨NULL, NULL, 0, copy_func, delete_func⟩

/-! ## §2. The operations.

`fresh` is the address `malloc` returns, and `copy` what the copy function does in
this call.  An operation that follows a null pointer or a pointer to a node that
was freed, frees a node twice, or violates an assertion has no result. -/

/-- The element that is stored. -/
def stored (s : DequeState) (element : Pointer) (copy : Pointer → Pointer) : Pointer :=
  if s.d.copy_func then copy element else element

/-- A node that was just allocated. -/
def deque_node_create (fresh data next prev : Pointer) (heap : NodeHeap DequeNode) :
    NodeHeap DequeNode :=
  heap.put fresh ⟨data, next, prev⟩

/-- The first node points to itself in both directions. -/
def deque_push_first_element (fresh element : Pointer) (copy : Pointer → Pointer)
    (s : DequeState) : Option DequeState :=
  if ¬(s.d.occupancy = 0 ∧ s.d.head = NULL ∧ s.d.tail = NULL) then none
  else do
    let heap := deque_node_create fresh (s.stored element copy) NULL NULL s.heap
    let tail ← heap.deref fresh
    let heap := heap.put fresh { tail with next := fresh }
    let tail ← heap.deref fresh
    let heap := heap.put fresh { tail with prev := fresh }
    some { heap := heap, d := { s.d with
      head := fresh, tail := fresh, occupancy := s.d.occupancy + 1 } }

/-- A node behind the tail. -/
def deque_push_back (fresh element : Pointer) (copy : Pointer → Pointer) (s : DequeState) :
    Option DequeState :=
  if s.d.occupancy = 0 then s.deque_push_first_element fresh element copy
  else do
    let heap := deque_node_create fresh (s.stored element copy) NULL s.d.tail s.heap
    let tail ← heap.deref s.d.tail
    some { heap := heap.put s.d.tail { tail with next := fresh }, d := { s.d with
      tail := fresh, occupancy := s.d.occupancy + 1 } }

/-- A node in front of the head. -/
def deque_push_front (fresh element : Pointer) (copy : Pointer → Pointer) (s : DequeState) :
    Option DequeState :=
  if s.d.occupancy = 0 then s.deque_push_first_element fresh element copy
  else do
    let heap := deque_node_create fresh (s.stored element copy) s.d.head NULL s.heap
    let head ← heap.deref s.d.head
    some { heap := heap.put s.d.head { head with prev := fresh }, d := { s.d with
      head := fresh, occupancy := s.d.occupancy + 1 } }

/-- The only node goes; head and tail are null. -/
def deque_pop_last_element (s : DequeState) : Option (Pointer × DequeState) :=
  if ¬(s.d.occupancy = 1 ∧ s.d.head = s.d.tail) then none
  else do
    let head ← s.heap.deref s.d.head
    let heap ← s.heap.free s.d.head
    some (head.data, { heap := heap, d := { s.d with
      head := NULL, tail := NULL, occupancy := s.d.occupancy - 1 } })

/-- The tail goes, and the node before it becomes the tail. -/
def deque_pop_back (s : DequeState) : Option (Pointer × DequeState) :=
  if s.d.occupancy ≤ 0 then some (NULL, s)
  else if s.d.occupancy = 1 then s.deque_pop_last_element
  else do
    let tail ← s.heap.deref s.d.tail
    let new_tail ← s.heap.deref tail.prev
    let heap ← (s.heap.put tail.prev { new_tail with next := NULL }).free s.d.tail
    some (tail.data, { heap := heap, d := { s.d with
      tail := tail.prev, occupancy := s.d.occupancy - 1 } })

/-- The head goes, and the node behind it becomes the head. -/
def deque_pop_front (s : DequeState) : Option (Pointer × DequeState) :=
  if s.d.occupancy ≤ 0 then some (NULL, s)
  else if s.d.occupancy = 1 then s.deque_pop_last_element
  else do
    let head ← s.heap.deref s.d.head
    let new_head ← s.heap.deref head.next
    let heap ← (s.heap.put head.next { new_head with prev := NULL }).free s.d.head
    some (head.data, { heap := heap, d := { s.d with
      head := head.next, occupancy := s.d.occupancy - 1 } })

/-- `while(d->occupancy > 0)` of `deque_clear`, in `n` rounds at most, with the
elements it took out. -/
def clearLoop : ℕ → DequeState → Option (List Pointer × DequeState)
  | 0, s => if s.d.occupancy > 0 then none else some ([], s)
  | n + 1, s =>
      if s.d.occupancy > 0 then do
        let (data, s) ← s.deque_pop_front
        let (rest, s) ← clearLoop n s
        some (data :: rest, s)
      else some ([], s)

/-- `deque_clear`: the elements the delete function is called with, if it is
given. -/
def deque_clear (s : DequeState) : Option (List Pointer × DequeState) := do
  let (taken, s) ← clearLoop s.d.occupancy.toNat s
  some (if s.d.delete_func then taken else [], s)

/-- The data at the head; an empty queue gives the null pointer. -/
def deque_front (s : DequeState) : Option Pointer :=
  if s.d.head = NULL then some NULL else (s.heap.deref s.d.head).map DequeNode.data

/-- The data at the tail; an empty queue gives the null pointer. -/
def deque_back (s : DequeState) : Option Pointer :=
  if s.d.tail = NULL then some NULL else (s.heap.deref s.d.tail).map DequeNode.data

/-- The number of nodes. -/
def deque_size (s : DequeState) : ℕ := s.d.occupancy.toNat

end DequeState

/-! ## §3. Sequences of operations, on a queue and on a list. -/

/-- The operations, with the address that a new node gets. -/
inductive DequeCall where
  | push_back (fresh element : Pointer) (copy : Pointer → Pointer)
  | push_front (fresh element : Pointer) (copy : Pointer → Pointer)
  | pop_back
  | pop_front
  | clear
  | front
  | back
  | size

/-- What a call returns; `clear` the elements it deleted. -/
inductive DequeResult where
  | pushed
  | element (data : Pointer)
  | cleared (deleted : List Pointer)
  | size (n : ℕ)
  deriving DecidableEq

/-- One call on a queue. -/
def DequeState.call (s : DequeState) : DequeCall → Option (DequeResult × DequeState)
  | .push_back fresh element copy =>
      (s.deque_push_back fresh element copy).map fun s => (.pushed, s)
  | .push_front fresh element copy =>
      (s.deque_push_front fresh element copy).map fun s => (.pushed, s)
  | .pop_back => s.deque_pop_back.map fun r => (.element r.1, r.2)
  | .pop_front => s.deque_pop_front.map fun r => (.element r.1, r.2)
  | .clear => s.deque_clear.map fun r => (.cleared r.1, r.2)
  | .front => s.deque_front.map fun data => (.element data, s)
  | .back => s.deque_back.map fun data => (.element data, s)
  | .size => some (.size s.deque_size, s)

/-- The same call on a list of elements. -/
def listCall (copies deletes : Bool) (xs : List Pointer) :
    DequeCall → DequeResult × List Pointer
  | .push_back _ element copy =>
      (.pushed, xs ++ [if copies then copy element else element])
  | .push_front _ element copy =>
      (.pushed, (if copies then copy element else element) :: xs)
  | .pop_back => (.element (xs.getLast?.getD NULL), xs.dropLast)
  | .pop_front => (.element (xs.head?.getD NULL), xs.tail)
  | .clear => (.cleared (if deletes then xs else []), [])
  | .front => (.element (xs.head?.getD NULL), xs)
  | .back => (.element (xs.getLast?.getD NULL), xs)
  | .size => (.size xs.length, xs)

/-! ## §4. The nodes of a queue. -/

/-- `q` comes after `p`. -/
def Linked (heap : NodeHeap DequeNode) (p q : Pointer) : Prop :=
  heap.field DequeNode.next p = some q ∧ heap.field DequeNode.prev q = some p

/-- The nodes `ps` hold the elements `xs` and are linked with each other. -/
structure Holds (heap : NodeHeap DequeNode) (ps xs : List Pointer) : Prop where
  nonnull : NULL ∉ ps
  nodup : ps.Nodup
  data : ps.map (heap.field DequeNode.data) = xs.map some
  linked : ps.IsChain (Linked heap)

/-- **The nodes of a queue, from head to tail.** -/
structure QueueOf (copies deletes : Bool) (s : DequeState) (ps xs : List Pointer) : Prop
    extends Holds s.heap ps xs where
  copy_func : s.d.copy_func = copies
  delete_func : s.d.delete_func = deletes
  head : s.d.head = ps.head?.getD NULL
  tail : s.d.tail = ps.getLast?.getD NULL
  occupancy : s.d.occupancy.toNat = ps.length

variable {heap heap' : NodeHeap DequeNode} {ps xs : List Pointer} {s : DequeState}

/-- There are as many nodes as data. -/
theorem Holds.length_eq (h : Holds heap ps xs) : ps.length = xs.length := by
  have hlen := congrArg List.length h.data
  rwa [List.length_map, List.length_map] at hlen

/-- A heap with the same data, and the same links between the nodes. -/
theorem Holds.frame (h : Holds heap ps xs)
    (hdata : ∀ p ∈ ps, heap'.field DequeNode.data p = heap.field DequeNode.data p)
    (hlinked : ps.IsChain (Linked heap')) : Holds heap' ps xs where
  nonnull := h.nonnull
  nodup := h.nodup
  data := by
    rw [← h.data]
    exact List.map_congr_left hdata
  linked := hlinked

/-- The node of an element. -/
theorem Holds.node (h : Holds heap ps xs) {p : Pointer} (hp : p ∈ ps) :
    p ≠ NULL ∧ ∃ n, heap.deref p = some n ∧ heap p = some n := by
  have hne : p ≠ NULL := fun heq => h.nonnull (heq ▸ hp)
  have hmem : heap.field DequeNode.data p ∈ xs.map some := by
    rw [← h.data]
    exact List.mem_map_of_mem hp
  obtain ⟨x, -, hx⟩ := List.mem_map.mp hmem
  obtain ⟨n, hderef, hn, -⟩ := NodeHeap.deref_of_field hne hx.symm
  exact ⟨hne, n, hderef, hn⟩

/-- A node that is not allocated is none of the queue's. -/
theorem Holds.fresh (h : Holds heap ps xs) {fresh : Pointer} (hfresh : heap fresh = none) :
    fresh ∉ ps := by
  intro hmem
  obtain ⟨-, n, -, hn⟩ := h.node hmem
  rw [hfresh] at hn
  cases hn

/-- **A node is put behind the last one.** -/
theorem Holds.push_back {t : Pointer} (h : Holds heap (ps ++ [t]) xs) {fresh : Pointer}
    (hfresh : heap fresh = none) (hne : fresh ≠ NULL) (data prev : Pointer) (hprev : prev = t) :
    ∃ node, (heap.put fresh ⟨data, NULL, prev⟩).deref t = some node ∧
      Holds ((heap.put fresh ⟨data, NULL, prev⟩).put t { node with next := fresh })
        (ps ++ [t] ++ [fresh]) (xs ++ [data]) := by
  subst hprev
  have hnot := h.fresh hfresh
  obtain ⟨htne, node, -, hnode⟩ := h.node (p := prev) (by simp)
  have hpt : prev ≠ fresh := fun heq => hnot (by simp [heq])
  have hput : (heap.put fresh ⟨data, NULL, prev⟩) prev = some node := by
    rw [NodeHeap.put, Function.update_of_ne hpt]
    exact hnode
  refine ⟨node, ?_, ?_⟩
  · unfold NodeHeap.deref
    rw [if_neg htne]
    exact hput
  -- the new heap, field by field
  let heap' := (heap.put fresh ⟨data, NULL, prev⟩).put prev { node with next := fresh }
  have hsame : ∀ (f : DequeNode → Pointer), (∀ n : DequeNode, f { n with next := fresh } = f n) →
      ∀ q, q ≠ fresh → heap'.field f q = heap.field f q := by
    intro f hf q hq
    rw [NodeHeap.field_put_same hput (hf node), NodeHeap.field_put_of_ne _ _ _ hq]
  have hdata := hsame DequeNode.data fun _ => rfl
  have hprevs := hsame DequeNode.prev fun _ => rfl
  have hnext : ∀ q, q ≠ fresh → q ≠ prev →
      heap'.field DequeNode.next q = heap.field DequeNode.next q := by
    intro q hq hqt
    rw [NodeHeap.field_put_of_ne _ _ _ hqt, NodeHeap.field_put_of_ne _ _ _ hq]
  have hmem : ∀ q ∈ ps ++ [prev], q ≠ fresh := fun q hq heq => hnot (heq ▸ hq)
  refine ⟨?_, ?_, ?_, ?_⟩
  · rw [List.mem_append, List.mem_singleton]
    rintro (hin | heq)
    · exact h.nonnull hin
    · exact hne heq.symm
  · rw [List.nodup_append_comm]
    exact List.nodup_cons.mpr ⟨hnot, h.nodup⟩
  · have hold : (ps ++ [prev]).map (heap'.field DequeNode.data) = xs.map some := by
      rw [← h.data]
      exact List.map_congr_left fun q hq => hdata q (hmem q hq)
    have hnew : heap'.field DequeNode.data fresh = some data := by
      rw [NodeHeap.field_put_of_ne _ _ _ hpt.symm, NodeHeap.field_put_self]
    calc (ps ++ [prev] ++ [fresh]).map (heap'.field DequeNode.data)
        = (ps ++ [prev]).map (heap'.field DequeNode.data)
          ++ [heap'.field DequeNode.data fresh] := List.map_append
      _ = xs.map some ++ [some data] := by rw [hold, hnew]
      _ = (xs ++ [data]).map some := by rw [List.map_append, List.map_singleton]
  · show (ps ++ [prev] ++ [fresh]).IsChain (Linked heap')
    rw [List.append_assoc]
    show (ps ++ prev :: [fresh]).IsChain (Linked heap')
    rw [List.isChain_split]
    constructor
    · apply isChain_but_last h.linked
      rintro a ha b hb ⟨hab, hba⟩
      have hap : a ≠ prev := by
        have hdisjoint := List.nodup_append.mp h.nodup
        exact hdisjoint.2.2 a ha prev (List.mem_singleton_self prev)
      refine ⟨?_, ?_⟩
      · rw [hnext a (hmem a (List.mem_append_left _ ha)) hap]
        exact hab
      · rw [hprevs b (hmem b hb)]
        exact hba
    · rw [List.isChain_pair]
      refine ⟨NodeHeap.field_put_self .., ?_⟩
      rw [NodeHeap.field_put_of_ne _ _ _ hpt.symm, NodeHeap.field_put_self]

/-- The data of the last node are the last element. -/
theorem map_some_concat {f : Pointer → Option Pointer} {t : Pointer}
    (h : (ps ++ [t]).map f = xs.map some) :
    ∃ ys y, xs = ys ++ [y] ∧ ps.map f = ys.map some ∧ f t = some y := by
  rcases List.eq_nil_or_concat xs with rfl | ⟨ys, y, rfl⟩
  · simp at h
  · rw [List.concat_eq_append] at h ⊢
    refine ⟨ys, y, rfl, ?_⟩
    rw [List.map_append, List.map_append] at h
    obtain ⟨hinit, hlast⟩ := List.append_inj' h rfl
    exact ⟨hinit, List.head_eq_of_cons_eq hlast⟩

/-- **The last node is taken away.** -/
theorem Holds.pop_back {q t : Pointer} (h : Holds heap (ps ++ [q, t]) xs) :
    ∃ tail new_tail heap', heap.deref t = some tail ∧ some tail.data = xs.getLast? ∧
      tail.prev = q ∧ heap.deref q = some new_tail ∧
      (heap.put q { new_tail with next := NULL }).free t = some heap' ∧
      Holds heap' (ps ++ [q]) xs.dropLast := by
  obtain ⟨htne, tail, htail, ht⟩ := h.node (p := t) (by simp)
  obtain ⟨hqne, new_tail, hnew, hq⟩ := h.node (p := q) (by simp)
  have hsplit := List.isChain_append_cons_cons.mp h.linked
  have hprev : tail.prev = q := by
    have hlink := hsplit.2.1.2
    unfold NodeHeap.field at hlink
    rw [ht] at hlink
    exact Option.some.inj hlink
  have hlast : ps ++ [q, t] = (ps ++ [q]) ++ [t] := by simp
  have hnodup := h.nodup
  rw [hlast, List.nodup_append_comm, List.singleton_append, List.nodup_cons] at hnodup
  obtain ⟨hnot, hnodup⟩ := hnodup
  have hqt : t ≠ q := fun heq => hnot (by simp [heq])
  -- cutting the link to the tail leaves the tail itself
  have hput : (heap.put q { new_tail with next := NULL }) t = some tail := by
    rw [NodeHeap.put, Function.update_of_ne hqt]
    exact ht
  obtain ⟨heap', hfree, -, hother⟩ := NodeHeap.free_of_allocated htne hput
  have hdata := h.data
  rw [hlast] at hdata
  obtain ⟨ys, y, rfl, hys, hy⟩ := map_some_concat hdata
  have hlastdata : some tail.data = some y := by
    unfold NodeHeap.field at hy
    rwa [ht] at hy
  rw [List.getLast?_append, List.dropLast_concat]
  refine ⟨tail, new_tail, heap', htail, hlastdata, hprev, hnew, hfree, ?_⟩
  have hmem : ∀ p ∈ ps ++ [q], p ≠ t := fun p hp heq => hnot (heq ▸ hp)
  refine ⟨?_, hnodup, ?_, ?_⟩
  · intro hin
    apply h.nonnull
    rw [hlast]
    exact List.mem_append_left _ hin
  · rw [← hys]
    apply List.map_congr_left
    intro p hp
    rw [NodeHeap.field_congr (hother p (hmem p hp))]
    exact NodeHeap.field_put_same hq (by rfl) p
  · -- the links before the new tail are untouched
    apply isChain_but_last (List.isChain_split.mp h.linked).1
    rintro a ha b hb ⟨hab, hba⟩
    have haq : a ≠ q := (List.nodup_append.mp hnodup).2.2 a ha q (List.mem_singleton_self q)
    constructor
    · rw [NodeHeap.field_congr (hother a (hmem a (List.mem_append_left _ ha))),
        NodeHeap.field_put_of_ne _ _ _ haq]
      exact hab
    · rw [NodeHeap.field_congr (hother b (hmem b hb)), NodeHeap.field_put_same hq (by rfl)]
      exact hba

/-! ## §5. The other end.

Seen from the tail, with the two links of every node exchanged, a queue is the
reversed list: what was proved for the tail holds for the head. -/

/-- A node seen from behind. -/
def DequeNode.mirror (n : DequeNode) : DequeNode := ⟨n.data, n.prev, n.next⟩

/-- A heap of nodes seen from behind. -/
def mirror (heap : NodeHeap DequeNode) : NodeHeap DequeNode :=
  fun p => (heap p).map DequeNode.mirror

/-- Twice from behind is from the front. -/
theorem mirror_mirror (heap : NodeHeap DequeNode) : mirror (mirror heap) = heap := by
  funext p
  unfold mirror
  cases heap p <;> rfl

/-- A node written is written from behind. -/
theorem mirror_put (heap : NodeHeap DequeNode) (p : Pointer) (n : DequeNode) :
    mirror (heap.put p n) = (mirror heap).put p n.mirror := by
  funext q
  show (Function.update heap p (some n) q).map _ = Function.update (mirror heap) p _ q
  rw [Function.update_apply, Function.update_apply]
  split <;> rfl

/-- A node read is read from behind. -/
theorem mirror_deref (heap : NodeHeap DequeNode) (p : Pointer) :
    (mirror heap).deref p = (heap.deref p).map DequeNode.mirror := by
  unfold NodeHeap.deref
  split <;> rfl

/-- A node freed is freed from behind. -/
theorem mirror_free (heap : NodeHeap DequeNode) (p : Pointer) :
    (mirror heap).free p = (heap.free p).map mirror := by
  unfold NodeHeap.free
  split
  next => rfl
  next =>
    show ((heap p).map _).map _ = ((heap p).map _).map _
    cases heap p with
    | none => rfl
    | some n =>
        have hupdate : Function.update (mirror heap) p none
            = mirror (Function.update heap p none) := by
          funext q
          show _ = (Function.update heap p none q).map _
          rw [Function.update_apply, Function.update_apply]
          split <;> rfl
        exact congrArg some hupdate

/-- A field from behind is the one it is swapped with. -/
theorem field_mirror (heap : NodeHeap DequeNode) (f g : DequeNode → Pointer)
    (h : ∀ n, f (DequeNode.mirror n) = g n) (p : Pointer) :
    (mirror heap).field f p = heap.field g p := by
  unfold NodeHeap.field mirror
  cases heap p with
  | none => rfl
  | some n => exact congrArg some (h n)

/-- A queue from behind is the reversed queue. -/
theorem Holds.reversed (h : Holds heap ps xs) : Holds (mirror heap) ps.reverse xs.reverse where
  nonnull hin := h.nonnull (List.mem_reverse.mp hin)
  nodup := List.nodup_reverse.mpr h.nodup
  data := by
    rw [List.map_reverse, List.map_reverse, ← h.data]
    congr 1
    apply List.map_congr_left
    intro p _
    exact field_mirror heap _ _ (fun _ => rfl) p
  linked := by
    rw [List.isChain_reverse]
    apply h.linked.imp
    rintro p q ⟨hnext, hprev⟩
    constructor
    · rw [field_mirror heap _ DequeNode.prev fun _ => rfl]
      exact hprev
    · rw [field_mirror heap _ DequeNode.next fun _ => rfl]
      exact hnext

/-- **A node is put before the first one.** -/
theorem Holds.push_front {t : Pointer} (h : Holds heap (t :: ps) xs) {fresh : Pointer}
    (hfresh : heap fresh = none) (hne : fresh ≠ NULL) (data next : Pointer) (hnext : next = t) :
    ∃ node, (heap.put fresh ⟨data, next, NULL⟩).deref t = some node ∧
      Holds ((heap.put fresh ⟨data, next, NULL⟩).put t { node with prev := fresh })
        (fresh :: t :: ps) (data :: xs) := by
  have hmirror := h.reversed
  rw [List.reverse_cons] at hmirror
  have hfree : mirror heap fresh = none := by
    unfold mirror
    rw [hfresh]
    rfl
  obtain ⟨node, hderef, hholds⟩ := hmirror.push_back hfree hne data next hnext
  have hcreated : (mirror heap).put fresh ⟨data, NULL, next⟩
      = mirror (heap.put fresh ⟨data, next, NULL⟩) := (mirror_put heap fresh ⟨data, next, NULL⟩).symm
  rw [hcreated] at hderef hholds
  rw [mirror_deref] at hderef
  obtain ⟨node, hnode, rfl⟩ := Option.map_eq_some_iff.mp hderef
  refine ⟨node, hnode, ?_⟩
  have hback := hholds.reversed
  rw [mirror_put, mirror_mirror, List.reverse_append, List.reverse_append,
    List.reverse_append, List.reverse_reverse, List.reverse_reverse] at hback
  exact hback

/-- **The first node is taken away.** -/
theorem Holds.pop_front {q t : Pointer} (h : Holds heap (t :: q :: ps) xs) :
    ∃ head new_head heap', heap.deref t = some head ∧ some head.data = xs.head? ∧
      head.next = q ∧ heap.deref q = some new_head ∧
      (heap.put q { new_head with prev := NULL }).free t = some heap' ∧
      Holds heap' (q :: ps) xs.tail := by
  have hmirror := h.reversed
  rw [List.reverse_cons, List.reverse_cons, List.append_assoc] at hmirror
  obtain ⟨head, new_head, heap', hhead, hdata, hnext, hnew, hfree, hholds⟩ := hmirror.pop_back
  rw [mirror_deref] at hhead hnew
  obtain ⟨head, hhead', rfl⟩ := Option.map_eq_some_iff.mp hhead
  obtain ⟨new_head, hnew', rfl⟩ := Option.map_eq_some_iff.mp hnew
  have hput : (mirror heap).put q { new_head.mirror with next := NULL }
      = mirror (heap.put q { new_head with prev := NULL }) :=
    (mirror_put heap q { new_head with prev := NULL }).symm
  rw [hput, mirror_free] at hfree
  obtain ⟨heap', hfree', rfl⟩ := Option.map_eq_some_iff.mp hfree
  refine ⟨head, new_head, heap', hhead', ?_, hnext, hnew', hfree', ?_⟩
  · rw [List.getLast?_reverse] at hdata
    exact hdata
  · have hback := hholds.reversed
    rw [mirror_mirror] at hback
    simpa using hback

/-! ## §6. The operations on the nodes. -/

section Operations

variable {copies deletes : Bool}

/-- A new queue has no nodes. -/
theorem queueOf_create (copies deletes : Bool) :
    QueueOf copies deletes (DequeState.create copies deletes) [] [] where
  nonnull := List.not_mem_nil
  nodup := List.nodup_nil
  data := rfl
  linked := .nil
  copy_func := rfl
  delete_func := rfl
  head := rfl
  tail := rfl
  occupancy := rfl

/-- Empty queues are those with occupancy 0. -/
theorem QueueOf.occupancy_zero (h : QueueOf copies deletes s ps xs) :
    s.d.occupancy = 0 ↔ ps = [] := by
  rw [← BitVec.toNat_inj, h.occupancy]
  exact List.length_eq_zero_iff

/-- A single node is occupancy 1. -/
theorem QueueOf.occupancy_one (h : QueueOf copies deletes s ps xs) :
    s.d.occupancy = 1 ↔ ps.length = 1 := by
  rw [← BitVec.toNat_inj, h.occupancy]
  rfl

/-- What is stored is the copy, if the queue has a copy function. -/
theorem QueueOf.stored_eq (h : QueueOf copies deletes s ps xs) (element : Pointer)
    (copy : Pointer → Pointer) :
    s.stored element copy = if copies then copy element else element := by
  unfold DequeState.stored
  rw [h.copy_func]

/-- One node more: the count does not wrap. -/
theorem Holds.occupancy_succ (h : Holds heap ps xs) {n : BitVec 64} {k : ℕ}
    (hn : n.toNat = k) (hk : k + 1 = ps.length) : (n + 1).toNat = ps.length := by
  have hlt := length_lt_of_addresses h.nodup h.nonnull
  rw [← hk]
  exact toNat_succ hn (hk ▸ hlt)

/-- **The first node** points to itself. -/
theorem QueueOf.push_first (h : QueueOf copies deletes s [] xs) {fresh : Pointer}
    (hne : fresh ≠ NULL) (element : Pointer) (copy : Pointer → Pointer) :
    ∃ s', s.deque_push_first_element fresh element copy = some s' ∧
      QueueOf copies deletes s' [fresh] [if copies then copy element else element] := by
  have hempty : s.d.occupancy = 0 ∧ s.d.head = NULL ∧ s.d.tail = NULL :=
    ⟨h.occupancy_zero.mpr rfl, h.head, h.tail⟩
  let node : DequeNode := ⟨s.stored element copy, fresh, fresh⟩
  have hderef : ∀ (heap : NodeHeap DequeNode) n, (heap.put fresh n).deref fresh = some n := by
    intro heap n
    unfold NodeHeap.deref
    rw [if_neg hne]
    exact Function.update_self ..
  refine ⟨⟨((s.heap.put fresh ⟨s.stored element copy, NULL, NULL⟩).put fresh
    ⟨s.stored element copy, fresh, NULL⟩).put fresh node,
    { s.d with head := fresh, tail := fresh, occupancy := s.d.occupancy + 1 }⟩, ?_, ?_⟩
  · unfold DequeState.deque_push_first_element DequeState.deque_node_create
    rw [if_neg (not_not_intro hempty)]
    simp only [hderef, Option.bind_eq_bind, Option.bind_some]
    rfl
  · have hholds : Holds (((s.heap.put fresh ⟨s.stored element copy, NULL, NULL⟩).put fresh
        ⟨s.stored element copy, fresh, NULL⟩).put fresh node) [fresh]
        [if copies then copy element else element] := by
      refine ⟨?_, List.nodup_singleton _, ?_, .singleton _⟩
      · intro hin
        exact hne (List.mem_singleton.mp hin).symm
      · rw [List.map_singleton, NodeHeap.field_put_self, ← h.stored_eq element copy]
        rfl
    exact ⟨hholds, h.copy_func, h.delete_func, rfl, rfl,
      hholds.occupancy_succ h.occupancy rfl⟩

/-- **`deque_push_back`** appends the element that is stored. -/
theorem QueueOf.push_back (h : QueueOf copies deletes s ps xs) {fresh : Pointer}
    (hfresh : s.heap fresh = none) (hne : fresh ≠ NULL) (element : Pointer)
    (copy : Pointer → Pointer) :
    ∃ s', s.deque_push_back fresh element copy = some s' ∧
      QueueOf copies deletes s' (ps ++ [fresh])
        (xs ++ [if copies then copy element else element]) := by
  unfold DequeState.deque_push_back
  -- the queue is empty, or it has a tail to link behind
  rcases List.eq_nil_or_concat ps with rfl | ⟨init, t, rfl⟩
  · have hxs : xs = [] := List.length_eq_zero_iff.mp h.length_eq.symm
    rw [if_pos (h.occupancy_zero.mpr rfl), hxs]
    exact h.push_first hne element copy
  · rw [List.concat_eq_append] at h ⊢
    have hpos : ¬s.d.occupancy = 0 := by
      rw [h.occupancy_zero]
      simp
    have htail : s.d.tail = t := by
      rw [h.tail]
      simp
    obtain ⟨node, hderef, hholds⟩ :=
      h.toHolds.push_back hfresh hne (s.stored element copy) s.d.tail htail
    rw [if_neg hpos]
    refine ⟨⟨(s.heap.put fresh ⟨s.stored element copy, NULL, s.d.tail⟩).put s.d.tail
      { node with next := fresh },
      { s.d with tail := fresh, occupancy := s.d.occupancy + 1 }⟩, ?_, ?_⟩
    · unfold DequeState.deque_node_create
      rw [htail] at hderef ⊢
      simp only [hderef, Option.bind_eq_bind, Option.bind_some]
    · rw [← htail, h.stored_eq] at hholds
      rw [h.stored_eq]
      rw [htail] at hholds ⊢
      refine ⟨hholds, h.copy_func, h.delete_func, ?_, ?_, ?_⟩
      · show s.d.head = _
        rw [h.head]
        cases init <;> rfl
      · simp
      · exact hholds.occupancy_succ h.occupancy (by simp)

/-- **`deque_push_front`** puts it in front. -/
theorem QueueOf.push_front (h : QueueOf copies deletes s ps xs) {fresh : Pointer}
    (hfresh : s.heap fresh = none) (hne : fresh ≠ NULL) (element : Pointer)
    (copy : Pointer → Pointer) :
    ∃ s', s.deque_push_front fresh element copy = some s' ∧
      QueueOf copies deletes s' (fresh :: ps)
        ((if copies then copy element else element) :: xs) := by
  unfold DequeState.deque_push_front
  cases ps with
  | nil =>
      have hxs : xs = [] := List.length_eq_zero_iff.mp h.length_eq.symm
      rw [if_pos (h.occupancy_zero.mpr rfl), hxs]
      exact h.push_first hne element copy
  | cons t rest =>
      have hpos : ¬s.d.occupancy = 0 := by
        rw [h.occupancy_zero]
        simp
      have hhead : s.d.head = t := h.head
      -- there is a head to link in front of
      obtain ⟨node, hderef, hholds⟩ :=
        h.toHolds.push_front hfresh hne (s.stored element copy) s.d.head hhead
      rw [if_neg hpos]
      refine ⟨⟨(s.heap.put fresh ⟨s.stored element copy, s.d.head, NULL⟩).put s.d.head
        { node with prev := fresh },
        { s.d with head := fresh, occupancy := s.d.occupancy + 1 }⟩, ?_, ?_⟩
      · unfold DequeState.deque_node_create
        rw [hhead] at hderef ⊢
        simp only [hderef, Option.bind_eq_bind, Option.bind_some]
      · rw [h.stored_eq] at hholds ⊢
        rw [hhead] at hholds ⊢
        refine ⟨hholds, h.copy_func, h.delete_func, rfl, ?_, ?_⟩
        · show s.d.tail = _
          rw [h.tail]
          rfl
        · exact hholds.occupancy_succ h.occupancy rfl

/-- **The only node** is taken away. -/
theorem QueueOf.pop_last {p : Pointer} (h : QueueOf copies deletes s [p] xs) :
    ∃ s', s.deque_pop_last_element = some (xs.head?.getD NULL, s') ∧
      QueueOf copies deletes s' [] [] := by
  obtain ⟨hne, node, hderef, hnode⟩ := h.node (List.mem_singleton_self p)
  obtain ⟨heap', hfree, -, -⟩ := NodeHeap.free_of_allocated hne hnode
  have hhead : s.d.head = p := h.head
  have htail : s.d.tail = p := h.tail
  have hone : s.d.occupancy = 1 ∧ s.d.head = s.d.tail :=
    ⟨h.occupancy_one.mpr rfl, hhead.trans htail.symm⟩
  have hdata : xs.map some = [some node.data] := by
    rw [← h.data]
    unfold NodeHeap.field
    rw [List.map_singleton, hnode]
    rfl
  have hxs : xs.head?.getD NULL = node.data := by
    cases xs with
    | nil => cases hdata
    | cons x rest => exact Option.some.inj (List.head_eq_of_cons_eq hdata)
  refine ⟨⟨heap', { s.d with head := NULL, tail := NULL, occupancy := s.d.occupancy - 1 }⟩,
    ?_, ?_⟩
  · unfold DequeState.deque_pop_last_element
    rw [if_neg (not_not_intro hone), hhead, hxs]
    simp only [hderef, hfree, Option.bind_eq_bind, Option.bind_some]
  · refine ⟨⟨List.not_mem_nil, List.nodup_nil, rfl, .nil⟩, h.copy_func, h.delete_func, rfl, rfl, ?_⟩
    exact toNat_pred h.occupancy

/-- The occupancy is never negative. -/
theorem QueueOf.occupancy_nonpos (h : QueueOf copies deletes s ps xs) :
    s.d.occupancy ≤ 0 ↔ ps = [] := by
  rw [← h.occupancy_zero, ← BitVec.toNat_inj, BitVec.le_def]
  exact Nat.le_zero

/-- **`deque_pop_back`** takes the last element. -/
theorem QueueOf.pop_back (h : QueueOf copies deletes s ps xs) :
    ∃ s', s.deque_pop_back = some (xs.getLast?.getD NULL, s') ∧
      QueueOf copies deletes s' ps.dropLast xs.dropLast := by
  unfold DequeState.deque_pop_back
  rcases List.eq_nil_or_concat ps with rfl | ⟨init, t, rfl⟩
  · have hxs : xs = [] := List.length_eq_zero_iff.mp h.length_eq.symm
    subst hxs
    rw [if_pos (h.occupancy_nonpos.mpr rfl)]
    exact ⟨s, rfl, h⟩
  rw [List.concat_eq_append] at h ⊢
  rw [if_neg (by rw [h.occupancy_nonpos]; simp)]
  rcases List.eq_nil_or_concat init with rfl | ⟨init, q, rfl⟩
  · -- the only node
    rw [if_pos (h.occupancy_one.mpr rfl)]
    obtain ⟨s', hpop, h'⟩ := h.pop_last
    have hlen : xs.length = 1 := h.length_eq.symm
    obtain ⟨x, rfl⟩ := List.length_eq_one_iff.mp hlen
    exact ⟨s', hpop, h'⟩
  · rw [List.concat_eq_append, List.append_assoc] at h
    rw [if_neg (by rw [h.occupancy_one]; simp)]
    -- the node before the tail becomes the tail
    obtain ⟨tail, new_tail, heap', htail, hdata, hprev, hnew, hfree, hholds⟩ :=
      h.toHolds.pop_back
    have ht : s.d.tail = t := by
      rw [h.tail]
      simp
    refine ⟨⟨heap', { s.d with tail := tail.prev, occupancy := s.d.occupancy - 1 }⟩, ?_, ?_⟩
    · rw [← hdata, ht]
      simp only [htail, hprev, hnew, hfree, Option.bind_eq_bind, Option.bind_some]
      rfl
    · rw [List.dropLast_concat, List.concat_eq_append]
      refine ⟨hholds, h.copy_func, h.delete_func, ?_, ?_, ?_⟩
      · show s.d.head = _
        rw [h.head]
        cases init <;> rfl
      · show tail.prev = _
        rw [hprev]
        simp
      · have hocc := h.occupancy
        rw [show (init ++ ([q] ++ [t])).length = (init ++ [q]).length + 1 by simp] at hocc
        exact toNat_pred hocc

/-- **`deque_pop_front`** takes the first one. -/
theorem QueueOf.pop_front (h : QueueOf copies deletes s ps xs) :
    ∃ s', s.deque_pop_front = some (xs.head?.getD NULL, s') ∧
      QueueOf copies deletes s' ps.tail xs.tail := by
  unfold DequeState.deque_pop_front
  rcases ps with _ | ⟨t, _ | ⟨q, rest⟩⟩
  · have hxs : xs = [] := List.length_eq_zero_iff.mp h.length_eq.symm
    subst hxs
    rw [if_pos (h.occupancy_nonpos.mpr rfl)]
    exact ⟨s, rfl, h⟩
  · -- the only node
    rw [if_neg (by rw [h.occupancy_nonpos]; simp), if_pos (h.occupancy_one.mpr rfl)]
    obtain ⟨s', hpop, h'⟩ := h.pop_last
    have hlen : xs.length = 1 := h.length_eq.symm
    obtain ⟨x, rfl⟩ := List.length_eq_one_iff.mp hlen
    exact ⟨s', hpop, h'⟩
  · rw [if_neg (by rw [h.occupancy_nonpos]; simp), if_neg (by rw [h.occupancy_one]; simp)]
    obtain ⟨head, new_head, heap', hhead, hdata, hnext, hnew, hfree, hholds⟩ :=
      h.toHolds.pop_front
    have ht : s.d.head = t := h.head
    refine ⟨⟨heap', { s.d with head := head.next, occupancy := s.d.occupancy - 1 }⟩, ?_, ?_⟩
    · rw [← hdata, ht]
      simp only [hhead, hnext, hnew, hfree, Option.bind_eq_bind, Option.bind_some]
      rfl
    · refine ⟨hholds, h.copy_func, h.delete_func, hnext, ?_, toNat_pred h.occupancy⟩
      show s.d.tail = _
      rw [h.tail]
      rfl

/-- The loop takes the elements one by one; a round for each is enough. -/
theorem QueueOf.clearLoop (h : QueueOf copies deletes s ps xs) :
    ∃ s', DequeState.clearLoop xs.length s = some (xs, s') ∧
      QueueOf copies deletes s' [] [] := by
  induction xs generalizing s ps with
  | nil =>
      have hps : ps = [] := List.length_eq_zero_iff.mp h.length_eq
      subst hps
      have hzero := h.occupancy_zero.mpr rfl
      refine ⟨s, ?_, h⟩
      show (if s.d.occupancy > 0 then _ else _) = _
      rw [hzero]
      rfl
  | cons x xs ih =>
      obtain ⟨s₁, hpop, h₁⟩ := h.pop_front
      obtain ⟨s', hrest, h'⟩ := ih h₁
      have hpos : s.d.occupancy > 0 := by
        have hocc := h.occupancy
        rw [h.length_eq] at hocc
        show (0 : BitVec 64) < s.d.occupancy
        rw [BitVec.lt_def, hocc]
        exact Nat.succ_pos _
      refine ⟨s', ?_, h'⟩
      show (if s.d.occupancy > 0 then _ else _) = _
      rw [if_pos hpos, hpop]
      simp only [Option.bind_eq_bind, Option.bind_some]
      show (DequeState.clearLoop xs.length s₁).bind _ = _
      rw [hrest]
      rfl

/-- **`deque_clear`** ends, with no element left. -/
theorem QueueOf.clear (h : QueueOf copies deletes s ps xs) :
    ∃ s', s.deque_clear = some (if deletes then xs else [], s') ∧
      QueueOf copies deletes s' [] [] := by
  obtain ⟨s', hloop, h'⟩ := h.clearLoop
  refine ⟨s', ?_, h'⟩
  unfold DequeState.deque_clear
  rw [h.occupancy, h.length_eq, hloop]
  show some (if s'.d.delete_func then xs else [], s') = _
  rw [h'.delete_func]

/-- `deque_front` and `deque_back` find the node at their end, if there is one. -/
theorem QueueOf.front (h : QueueOf copies deletes s ps xs) :
    s.deque_front = some (xs.head?.getD NULL) := by
  unfold DequeState.deque_front
  cases ps with
  | nil =>
      have hxs : xs = [] := List.length_eq_zero_iff.mp h.length_eq.symm
      have hhead : s.d.head = NULL := h.head
      rw [if_pos hhead, hxs]
      rfl
  | cons p rest =>
      obtain ⟨hne, node, hderef, hnode⟩ := h.node List.mem_cons_self
      have hhead : s.d.head = p := h.head
      have hdata := h.data
      cases xs with
      | nil => cases hdata
      | cons x xs =>
          have hx : s.heap.field DequeNode.data p = some x := List.head_eq_of_cons_eq hdata
          unfold NodeHeap.field at hx
          rw [hnode] at hx
          rw [hhead, if_neg hne, hderef]
          exact hx

/-- The data at the tail is the last one. -/
theorem QueueOf.back (h : QueueOf copies deletes s ps xs) :
    s.deque_back = some (xs.getLast?.getD NULL) := by
  unfold DequeState.deque_back
  rcases List.eq_nil_or_concat ps with rfl | ⟨init, p, rfl⟩
  · have hxs : xs = [] := List.length_eq_zero_iff.mp h.length_eq.symm
    have htail : s.d.tail = NULL := h.tail
    rw [if_pos htail, hxs]
    rfl
  · rw [List.concat_eq_append] at h
    obtain ⟨hne, node, hderef, hnode⟩ := h.node (p := p) (by simp)
    have htail : s.d.tail = p := by
      rw [h.tail]
      simp
    obtain ⟨ys, y, rfl, -, hy⟩ := map_some_concat h.data
    unfold NodeHeap.field at hy
    rw [hnode] at hy
    rw [htail, if_neg hne, hderef]
    simpa using hy

end Operations

/-! ## §7. Sequences of operations. -/

/-- `malloc` returns an address that is not in use. -/
def Allocates (s : DequeState) : DequeCall → Prop
  | .push_back fresh _ _ => fresh ≠ NULL ∧ s.heap fresh = none
  | .push_front fresh _ _ => fresh ≠ NULL ∧ s.heap fresh = none
  | _ => True

/-- **One call** does to the nodes what it does to a list. -/
theorem step_queueOf {copies deletes : Bool} (h : QueueOf copies deletes s ps xs)
    {c : DequeCall} (hc : Allocates s c) :
    ∃ s' ps', s.call c = some ((listCall copies deletes xs c).1, s') ∧
      QueueOf copies deletes s' ps' (listCall copies deletes xs c).2 := by
  cases c with
  | push_back fresh element copy =>
      obtain ⟨s', hpush, h'⟩ := h.push_back hc.2 hc.1 element copy
      exact ⟨s', _, congrArg (Option.map _) hpush, h'⟩
  | push_front fresh element copy =>
      obtain ⟨s', hpush, h'⟩ := h.push_front hc.2 hc.1 element copy
      exact ⟨s', _, congrArg (Option.map _) hpush, h'⟩
  | pop_back =>
      obtain ⟨s', hpop, h'⟩ := h.pop_back
      exact ⟨s', _, congrArg (Option.map _) hpop, h'⟩
  | pop_front =>
      obtain ⟨s', hpop, h'⟩ := h.pop_front
      exact ⟨s', _, congrArg (Option.map _) hpop, h'⟩
  | clear =>
      obtain ⟨s', hclear, h'⟩ := h.clear
      exact ⟨s', _, congrArg (Option.map _) hclear, h'⟩
  | front => exact ⟨s, ps, congrArg (Option.map _) h.front, h⟩
  | back => exact ⟨s, ps, congrArg (Option.map _) h.back, h⟩
  | size =>
      refine ⟨s, ps, ?_, h⟩
      have hsize : s.deque_size = xs.length := h.occupancy.trans h.length_eq
      exact congrArg (fun n => some (DequeResult.size n, s)) hsize

/-- A queue in use, with the results of the calls so far. -/
def sessionStep (session : DequeState × List DequeResult) (c : DequeCall) :
    Option (DequeState × List DequeResult) :=
  (session.1.call c).map fun r => (r.2, session.2 ++ [r.1])

/-- The same on a list. -/
def listStep (copies deletes : Bool) (session : List Pointer × List DequeResult)
    (c : DequeCall) : List Pointer × List DequeResult :=
  ((listCall copies deletes session.1 c).2,
    session.2 ++ [(listCall copies deletes session.1 c).1])

/-- **A sequence of calls**, from a queue and the list of its elements on. -/
theorem session_queueOf {copies deletes : Bool} {calls : List DequeCall}
    {results : List DequeResult} (h : QueueOf copies deletes s ps xs)
    (hok : RunOk sessionStep (fun session c => Allocates session.1 c) (s, results) calls) :
    ∃ s' ps', run sessionStep (s, results) calls
        = some (s', (calls.foldl (listStep copies deletes) (xs, results)).2) ∧
      QueueOf copies deletes s' ps'
        (calls.foldl (listStep copies deletes) (xs, results)).1 := by
  induction calls generalizing s ps xs results with
  | nil => exact ⟨s, ps, rfl, h⟩
  | cons c calls ih =>
      obtain ⟨s₁, ps₁, hcall, h₁⟩ := step_queueOf h hok.1
      have hstep : sessionStep (s, results) c
          = some (s₁, results ++ [(listCall copies deletes xs c).1]) := by
        unfold sessionStep
        rw [hcall]
        rfl
      obtain ⟨s', ps', hrun, h'⟩ := ih h₁ (hok.2 _ hstep)
      exact ⟨s', ps', run_cons_eq_some.mpr ⟨_, hstep, hrun⟩, h'⟩

/-- **A queue simulates a list.**  Every sequence of calls, with any copy and
delete functions, can be made without following a link to a freed node, returns
what it returns on a list, and leaves the elements it leaves there. -/
theorem deque_simulates_list (copies deletes : Bool) {calls : List DequeCall}
    (hok : RunOk sessionStep (fun session c => Allocates session.1 c)
      (DequeState.create copies deletes, []) calls) :
    ∃ s ps, run sessionStep (DequeState.create copies deletes, []) calls
        = some (s, (calls.foldl (listStep copies deletes) ([], [])).2) ∧
      QueueOf copies deletes s ps (calls.foldl (listStep copies deletes) ([], [])).1 :=
  session_queueOf (queueOf_create copies deletes) hok

/-- Two elements are put in at different ends, and one is taken out in front and
one at the back: the second of the two is the only node. -/
theorem deque_simulates_list_mixed :
    ∃ s ps, run sessionStep (DequeState.create true false, [])
        [.push_back 16 5 (· + 1), .push_front 32 7 (· + 2), .pop_front, .pop_back, .size]
        = some (s, [.pushed, .pushed, .element 9, .element 6, .size 0]) ∧
      QueueOf true false s ps [] := by
  have hok : RunOk sessionStep (fun session c => Allocates session.1 c)
      (DequeState.create true false, [])
      [.push_back 16 5 (· + 1), .push_front 32 7 (· + 2), .pop_front, .pop_back, .size] := by
    refine ⟨⟨by decide, rfl⟩, fun s₁ h₁ => ?_⟩
    cases h₁
    refine ⟨⟨by decide, rfl⟩, fun s₂ h₂ => ?_⟩
    cases h₂
    refine ⟨trivial, fun s₃ _ => ⟨trivial, fun s₄ _ => ⟨trivial, fun _ _ => trivial⟩⟩⟩
  exact deque_simulates_list true false hok

end Kremlin.Common
