/-
  Kremlin.Library.Chains — nodes linked one way, and tables of such chains.

  A chain starts in a slot of a table and goes on from node to node.  The places
  that hold a link, a slot or the link of a node, are its spots; a chain is changed
  by a write to the spot behind some of its nodes.  The rules:

    * `walk_spec` — a walk stops at the first node that is wanted, or at the end;
    * `write_after` — a write behind the nodes `ps` of a slot keeps these nodes in
      front, and touches no other node and no other slot;
    * `flatMap_update` — what the slots hold when one of them changes;
    * `flatMap_classes` — distributing items over slots loses and repeats none.
-/
import Kremlin.Library.NodeHeap
import Mathlib.Data.List.Perm.Basic

namespace Kremlin.Library

/-- A node with a link. -/
class Link (N : Type) where
  next : N → Pointer
  setNext : N → Pointer → N
  next_setNext : ∀ n p, next (setNext n p) = p

/-- Where a link is held. -/
inductive Spot where
  | slot (i : ℕ)
  | next (p : Pointer)

variable {N : Type} [Link N]

/-! ## §1. Paths. -/

/-- From `a` through the nodes `ps` to `b`. -/
def Trail (heap : NodeHeap N) : Pointer → List Pointer → Pointer → Prop
  | a, [], b => a = b
  | a, p :: ps, b => a = p ∧ p ≠ NULL ∧ ∃ n, heap p = some n ∧ Trail heap (Link.next n) ps b

variable {heap heap' : NodeHeap N} {a b c : Pointer} {ps qs : List Pointer}

/-- A trail may be cut at any of its nodes. -/
theorem trail_append :
    Trail heap a (ps ++ qs) c ↔ ∃ b, Trail heap a ps b ∧ Trail heap b qs c := by
  induction ps generalizing a with
  | nil =>
      constructor
      · exact fun h => ⟨a, rfl, h⟩
      · rintro ⟨_, rfl, h⟩
        exact h
  | cons p ps ih =>
      show (a = p ∧ p ≠ NULL ∧ ∃ n, heap p = some n ∧ Trail heap (Link.next n) (ps ++ qs) c) ↔ _
      simp only [ih, Trail]
      constructor
      · rintro ⟨ha, hp, n, hn, b, hps, hqs⟩
        exact ⟨b, ⟨ha, hp, n, hn, hps⟩, hqs⟩
      · rintro ⟨b, ⟨ha, hp, n, hn, hps⟩, hqs⟩
        exact ⟨ha, hp, n, hn, b, hps, hqs⟩

/-- **A path depends on the links of its nodes only.** -/
theorem Trail.frame (h : Trail heap a ps b)
    (hsame : ∀ p ∈ ps, heap'.field Link.next p = heap.field Link.next p) :
    Trail heap' a ps b := by
  induction ps generalizing a with
  | nil => exact h
  | cons p ps ih =>
      obtain ⟨ha, hp, n, hn, hrest⟩ := h
      have hnext := hsame p List.mem_cons_self
      unfold NodeHeap.field at hnext
      rw [hn] at hnext
      obtain ⟨n', hn', heq⟩ := Option.map_eq_some_iff.mp hnext
      refine ⟨ha, hp, n', hn', ?_⟩
      rw [heq]
      exact ih hrest fun q hq => hsame q (List.mem_cons_of_mem p hq)

/-- The nodes of a trail exist. -/
theorem Trail.node (h : Trail heap a ps b) {p : Pointer} (hp : p ∈ ps) :
    p ≠ NULL ∧ ∃ n, heap p = some n := by
  induction ps generalizing a with
  | nil => cases hp
  | cons q ps ih =>
      obtain ⟨-, hq, n, hn, hrest⟩ := h
      rcases List.mem_cons.mp hp with rfl | hp
      · exact ⟨hq, n, hn⟩
      · exact ih hrest hp

/-! ## §2. Spots. -/

namespace Spot

/-- `*spot`. -/
def read (table : ℕ → Pointer) (heap : NodeHeap N) : Spot → Option Pointer
  | slot i => some (table i)
  | next p => (heap.deref p).map Link.next

/-- `*spot = v`. -/
def write (table : ℕ → Pointer) (heap : NodeHeap N) (v : Pointer) :
    Spot → Option ((ℕ → Pointer) × NodeHeap N)
  | slot i => some (Function.update table i v, heap)
  | next p => (heap.deref p).map fun n => (table, heap.put p (Link.setNext n v))

/-- `while(*spot && !stop(*spot)) spot = &(*spot)->next`, in fewer than `n` rounds. -/
def walk (stop : N → Bool) (table : ℕ → Pointer) (heap : NodeHeap N) : ℕ → Spot → Option Spot
  | 0, _ => none
  | n + 1, spot => do
      let p ← spot.read table heap
      if p = NULL then some spot
      else do
        let node ← heap.deref p
        if stop node then some spot else walk stop table heap n (next p)

/-- The spot behind the nodes of a path. -/
def after (spot : Spot) : List Pointer → Spot
  | [] => spot
  | p :: ps => after (next p) ps

end Spot

variable {table : ℕ → Pointer} {spot : Spot}

omit [Link N] in
/-- Following a pointer to a node. -/
theorem deref_of_node {p : Pointer} {n : N} (hp : p ≠ NULL) (h : heap p = some n) :
    heap.deref p = some n := by
  unfold NodeHeap.deref
  rw [if_neg hp, h]

/-- What stands in the link of a node. -/
theorem read_next {p : Pointer} {n : N} (hp : p ≠ NULL) (h : heap p = some n) :
    (Spot.next p).read table heap = some (Link.next n) := by
  show (heap.deref p).map _ = _
  rw [deref_of_node hp h]
  rfl

/-- **A walk stops** behind the nodes it passes, at the end of the chain or at a
node that is wanted. -/
theorem walk_spec {stop : N → Bool} {fuel : ℕ} (hread : spot.read table heap = some a)
    (h : Trail heap a ps b) (hpass : ∀ p ∈ ps, ∀ n, heap p = some n → stop n = false)
    (hstop : b = NULL ∨ b ≠ NULL ∧ ∃ n, heap b = some n ∧ stop n = true)
    (hfuel : ps.length < fuel) :
    spot.walk stop table heap fuel = some (spot.after ps) := by
  induction fuel generalizing spot a ps with
  | zero => exact absurd hfuel (Nat.not_lt_zero _)
  | succ fuel ih =>
      unfold Spot.walk
      rw [hread]
      simp only [Option.bind_eq_bind, Option.bind_some]
      cases ps with
      | nil =>
          have hab : a = b := h
          subst hab
          rcases hstop with hnull | ⟨hne, n, hn, hyes⟩
          · rw [if_pos hnull]
            rfl
          · rw [if_neg hne, deref_of_node hne hn]
            simp only [Option.bind_some, hyes, if_true]
            rfl
      | cons p ps =>
          obtain ⟨rfl, hne, n, hn, hrest⟩ := h
          rw [if_neg hne, deref_of_node hne hn]
          simp only [Option.bind_some, hpass a List.mem_cons_self n hn, Bool.false_eq_true,
            if_false]
          exact ih (read_next hne hn) hrest
            (fun q hq => hpass q (List.mem_cons_of_mem a hq)) (Nat.lt_of_succ_lt_succ hfuel)

/-- What stands behind the nodes of a trail. -/
theorem read_after (hread : spot.read table heap = some a) (h : Trail heap a ps b) :
    (spot.after ps).read table heap = some b := by
  induction ps generalizing spot a with
  | nil =>
      have hab : a = b := h
      exact hab ▸ hread
  | cons p ps ih =>
      obtain ⟨rfl, hne, n, hn, hrest⟩ := h
      exact ih (read_next hne hn) hrest

/-- Behind the last node is its link. -/
theorem after_concat (spot : Spot) (ps : List Pointer) (p : Pointer) :
    spot.after (ps ++ [p]) = .next p := by
  induction ps generalizing spot with
  | nil => rfl
  | cons q ps ih => exact ih (.next q)

/-- What a write to a spot of slot `i` leaves as it was. -/
structure Written (table table' : ℕ → Pointer) (heap heap' : NodeHeap N) (i : ℕ)
    (ps : List Pointer) : Prop where
  slots : ∀ j, j ≠ i → table' j = table j
  nodes : ∀ q, q ∉ ps → heap' q = heap q
  /-- Nothing but links changes. -/
  fields : ∀ {F : Type} (f : N → F), (∀ n v, f (Link.setNext n v) = f n) →
    ∀ q, heap'.field f q = heap.field f q

/-- **A write behind the nodes of a slot.** -/
theorem write_after {i : ℕ} (h : Trail heap (table i) ps b) (hnodup : ps.Nodup) (v : Pointer) :
    ∃ table' heap', ((Spot.slot i).after ps).write table heap v = some (table', heap') ∧
      Trail heap' (table' i) ps v ∧ Written table table' heap heap' i ps := by
  rcases List.eq_nil_or_concat ps with rfl | ⟨init, p, rfl⟩
  · refine ⟨Function.update table i v, heap, rfl, ?_, ?_, fun _ _ => rfl, fun _ _ _ => rfl⟩
    · exact Function.update_self i v table
    · intro j hj
      exact Function.update_of_ne hj v table
  · rw [List.concat_eq_append] at h hnodup ⊢
    obtain ⟨c, hinit, rfl, hp, n, hn, hnext⟩ := trail_append.mp h
    have hnot : c ∉ init := by
      intro hin
      exact (List.nodup_append.mp hnodup).2.2 c hin c (List.mem_singleton_self c) rfl
    refine ⟨table, heap.put c (Link.setNext n v), ?_, ?_, fun _ _ => rfl, ?_, ?_⟩
    · rw [after_concat]
      show (heap.deref c).map _ = _
      rw [deref_of_node hp hn]
      rfl
    · refine trail_append.mpr ⟨c, hinit.frame ?_, rfl, hp, _, Function.update_self .., ?_⟩
      · intro q hq
        exact NodeHeap.field_put_of_ne _ _ _ fun heq => hnot (heq ▸ hq)
      · exact Link.next_setNext n v
    · intro q hq
      have hne : q ≠ c := fun heq => hq (by simp [heq])
      exact Function.update_of_ne hne ..
    · intro F f hf q
      exact NodeHeap.field_put_same hn (hf n v) q

omit [Link N] in
/-- Fields at nodes that are as they were. -/
theorem field_of_eq {F : Type} (f : N → F) {q : Pointer} (h : heap' q = heap q) :
    heap'.field f q = heap.field f q := by
  unfold NodeHeap.field
  rw [h]

/-! ## §3. What the slots hold. -/

section Slots

variable {α : Type}

/-- **One slot changes**: the others hold `rest`, in some order. -/
theorem flatMap_update (B : ℕ → List α) {i n : ℕ} (hi : i < n) :
    ∃ rest, ∀ l, ((List.range n).flatMap (Function.update B i l)).Perm (l ++ rest) := by
  induction n with
  | zero => exact absurd hi (Nat.not_lt_zero i)
  | succ n ih =>
      simp only [List.range_succ, List.flatMap_append, List.flatMap_singleton]
      by_cases hin : i = n
      · subst hin
        refine ⟨(List.range i).flatMap B, fun l => ?_⟩
        have hbefore : (List.range i).flatMap (Function.update B i l)
            = (List.range i).flatMap B := by
          rw [List.flatMap_def, List.flatMap_def]
          congr 1
          apply List.map_congr_left
          intro j hj
          exact Function.update_of_ne (Nat.ne_of_lt (List.mem_range.mp hj)) l B
        rw [hbefore, Function.update_self]
        exact List.perm_append_comm
      · obtain ⟨rest, hrest⟩ := ih (by omega)
        refine ⟨rest ++ B n, fun l => ?_⟩
        rw [Function.update_of_ne (fun heq => hin heq.symm), ← List.append_assoc]
        exact (hrest l).append_right (B n)

/-- A slot's items stand together, and may be exchanged for others. -/
theorem flatMap_slot (B : ℕ → List α) {i n : ℕ} (hi : i < n) :
    ∃ rest, ((List.range n).flatMap B).Perm (B i ++ rest) ∧
      ∀ l, ((List.range n).flatMap (Function.update B i l)).Perm (l ++ rest) := by
  obtain ⟨rest, hrest⟩ := flatMap_update B hi
  refine ⟨rest, ?_, hrest⟩
  have hself := hrest (B i)
  rwa [Function.update_eq_self] at hself

/-- An item is in one of the slots. -/
theorem mem_flatMap_range {B : ℕ → List α} {n : ℕ} {x : α} :
    x ∈ (List.range n).flatMap B ↔ ∃ i < n, x ∈ B i := by
  simp only [List.mem_flatMap, List.mem_range]

/-- **Distributing items over slots.** -/
theorem flatMap_classes (f : α → ℕ) {n : ℕ} {xs : List α} (h : ∀ x ∈ xs, f x < n) :
    ((List.range n).flatMap fun i => xs.filter fun x => f x = i).Perm xs := by
  induction xs with
  | nil => simp
  | cons x xs ih =>
      have hx := h x List.mem_cons_self
      have hxs := ih fun y hy => h y (List.mem_cons_of_mem x hy)
      obtain ⟨rest, hold, hnew⟩ := flatMap_slot (fun i => xs.filter fun y => f y = i) hx
      have hupdate : (fun i => (x :: xs).filter fun y => f y = i)
          = Function.update (fun i => xs.filter fun y => f y = i) (f x)
            (x :: xs.filter fun y => f y = f x) := by
        funext i
        rw [Function.update_apply]
        by_cases hi : i = f x
        · subst hi
          rw [if_pos rfl, List.filter_cons_of_pos (by simp)]
        · rw [if_neg hi, List.filter_cons_of_neg (by simpa using fun heq => hi heq.symm)]
      rw [hupdate]
      exact (hnew _).trans ((hold.symm.trans hxs).cons x)

end Slots

end Kremlin.Library
