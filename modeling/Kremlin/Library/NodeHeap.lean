/-
  Kremlin.Library.NodeHeap — nodes behind 64-bit addresses.

  An address holds a node while the node is allocated, and nothing before and
  after.  Address 0 is the null pointer and holds none.  The rules:

    * `field_put`, `field_free` — a write, an allocation and a deallocation change
      the fields of one node;
    * `isChain_but_last` — changing the last item of a chain of different items
      matters to the pairs in which it comes second only;
    * `length_lt_of_addresses` — there are fewer than 2^64 nodes, so a 64-bit count
      of them does not wrap (`toNat_succ`, `toNat_pred`).
-/
import Mathlib.Data.Finset.Card
import Mathlib.Data.List.Chain
import Mathlib.Data.List.Nodup
import Mathlib.Tactic.Common
import Mathlib.Algebra.Ring.Nat

namespace Kremlin.Library

/-! ## §1. Addresses. -/

/-- An address. -/
abbrev Pointer := BitVec 64

/-- The null pointer. -/
def NULL : Pointer := 0

/-- **Different non-null addresses are fewer than 2^64.** -/
theorem length_lt_of_addresses {ps : List Pointer} (hnodup : ps.Nodup) (hnull : NULL ∉ ps) :
    ps.length < 2 ^ 64 := by
  have hcons : (NULL :: ps).Nodup := List.nodup_cons.mpr ⟨hnull, hnodup⟩
  have hmap : ((NULL :: ps).map BitVec.toNat).Nodup :=
    hcons.map fun _ _ h => BitVec.eq_of_toNat_eq h
  have hsub : ((NULL :: ps).map BitVec.toNat).toFinset ⊆ Finset.range (2 ^ 64) := by
    intro n hn
    obtain ⟨p, -, rfl⟩ := List.mem_map.mp (List.mem_toFinset.mp hn)
    exact Finset.mem_range.mpr p.isLt
  have hle := Finset.card_le_card hsub
  rw [List.toFinset_card_of_nodup hmap, List.length_map, List.length_cons,
    Finset.card_range] at hle
  omega

/-- A count of one more, and one less. -/
theorem toNat_succ {n : BitVec 64} {k : ℕ} (hn : n.toNat = k) (hk : k + 1 < 2 ^ 64) :
    (n + 1).toNat = k + 1 := by
  rw [BitVec.toNat_add, hn]
  show (k + 1) % 2 ^ 64 = k + 1
  omega

/-- A count of at least one goes down by one. -/
theorem toNat_pred {n : BitVec 64} {k : ℕ} (hn : n.toNat = k + 1) : (n - 1).toNat = k := by
  have hlt := n.isLt
  rw [BitVec.toNat_sub, hn]
  show (2 ^ 64 - 1 + (k + 1)) % 2 ^ 64 = k
  omega

/-! ## §2. Heaps. -/

/-- What is behind each address. -/
abbrev NodeHeap (N : Type) := Pointer → Option N

namespace NodeHeap

variable {N F : Type}

/-- The node a pointer points to; following a null pointer, or one to a node that
is not allocated, is a fault. -/
def deref (heap : NodeHeap N) (p : Pointer) : Option N := if p = NULL then none else heap p

/-- Write a node, or allocate one. -/
def put (heap : NodeHeap N) (p : Pointer) (n : N) : NodeHeap N := Function.update heap p (some n)

/-- `free(p)`.  A node is not freed twice. -/
def free (heap : NodeHeap N) (p : Pointer) : Option (NodeHeap N) :=
  if p = NULL then some heap
  else (heap p).map fun _ => Function.update heap p none

/-- A field of the node at an address. -/
def field (heap : NodeHeap N) (f : N → F) (p : Pointer) : Option F := (heap p).map f

/-- A write changes one node. -/
theorem field_put (heap : NodeHeap N) (p : Pointer) (n : N) (f : N → F) (q : Pointer) :
    (heap.put p n).field f q = if q = p then some (f n) else heap.field f q := by
  unfold field put
  rw [Function.update_apply]
  split <;> rfl

/-- The node that was written, -/
theorem field_put_self (heap : NodeHeap N) (p : Pointer) (n : N) (f : N → F) :
    (heap.put p n).field f p = some (f n) := by
  rw [field_put, if_pos rfl]

/-- and the others. -/
theorem field_put_of_ne (heap : NodeHeap N) {p q : Pointer} (n : N) (f : N → F) (h : q ≠ p) :
    (heap.put p n).field f q = heap.field f q := by
  rw [field_put, if_neg h]

/-- A write that leaves a field as it is. -/
theorem field_put_same {heap : NodeHeap N} {p : Pointer} {old n : N} {f : N → F}
    (hold : heap p = some old) (hsame : f n = f old) (q : Pointer) :
    (heap.put p n).field f q = heap.field f q := by
  rw [field_put]
  split
  next h =>
    subst h
    unfold field
    rw [hold, hsame]
    rfl
  next => rfl

/-- A node with a field can be read. -/
theorem deref_of_field {heap : NodeHeap N} {p : Pointer} {f : N → F} {x : F} (hp : p ≠ NULL)
    (h : heap.field f p = some x) : ∃ n, heap.deref p = some n ∧ heap p = some n ∧ f n = x := by
  obtain ⟨n, hn, hx⟩ := Option.map_eq_some_iff.mp h
  refine ⟨n, ?_, hn, hx⟩
  unfold deref
  rw [if_neg hp, hn]

/-- **A node that is allocated can be freed**, which leaves the others. -/
theorem free_of_allocated {heap : NodeHeap N} {p : Pointer} {n : N} (hp : p ≠ NULL)
    (h : heap p = some n) : ∃ heap', heap.free p = some heap' ∧ heap' p = none ∧
      ∀ q, q ≠ p → heap' q = heap q := by
  refine ⟨Function.update heap p none, ?_, Function.update_self .., ?_⟩
  · unfold free
    rw [if_neg hp, h]
    rfl
  · intro q hq
    exact Function.update_of_ne hq ..

/-- The same node has the same fields. -/
theorem field_congr {heap heap' : NodeHeap N} {p : Pointer} (h : heap' p = heap p) (f : N → F) :
    heap'.field f p = heap.field f p := by
  unfold field
  rw [h]

end NodeHeap

/-! ## §3. Chains. -/

/-- **The last item of a chain comes first in no pair.** -/
theorem isChain_but_last {α : Type} {R S : α → α → Prop} {l : List α} {t : α}
    (h : (l ++ [t]).IsChain R) (himp : ∀ a ∈ l, ∀ b ∈ l ++ [t], R a b → S a b) :
    (l ++ [t]).IsChain S := by
  induction l with
  | nil => exact .singleton t
  | cons a l ih =>
      rw [List.cons_append, List.isChain_cons] at h ⊢
      refine ⟨?_, ih h.2 ?_⟩
      · intro b hb
        have hmem : b ∈ l ++ [t] := List.mem_of_mem_head? hb
        exact himp a List.mem_cons_self b (List.mem_cons_of_mem a hmem) (h.1 b hb)
      · intro x hx b hb
        exact himp x (List.mem_cons_of_mem a hx) b (List.mem_cons_of_mem a hb)

end Kremlin.Library
