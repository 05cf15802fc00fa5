/-
  Kremlin.Common.HashMapRehash — growing and clearing the table of a hash map.

  `hash_map_reserve` walks the old buckets and links every node behind the chain of
  its new bucket, where it writes the new link before it cuts the old one.  After
  some nodes each new bucket holds those of them that belong there, in the order of
  the walk, and the rest of the old chain is as it was (`relink_spec`).
-/
import Kremlin.Common.HashMapChains

namespace Kremlin.Common

open Kremlin.Library

variable {Load : Type} {cfg : HashMapConfig Load}

/-! ## §1. One chain. -/

/-- The bucket of a node's key in a table of `size` buckets. -/
def bucketOf (cfg : HashMapConfig Load) (size : BitVec 64) (heap : NodeHeap HashMapNode)
    (p : Pointer) : ℕ :=
  match heap p with
  | some n => (cfg.hash_func n.key).toNat % size.toNat
  | none => 0

/-- A node whose key is kept stays in its bucket. -/
theorem bucketOf_congr (cfg : HashMapConfig Load) (size : BitVec 64)
    {heap heap' : NodeHeap HashMapNode} {p : Pointer}
    (h : heap'.field HashMapNode.key p = heap.field HashMapNode.key p) :
    bucketOf cfg size heap' p = bucketOf cfg size heap p := by
  unfold NodeHeap.field at h
  unfold bucketOf
  cases hp : heap p with
  | none =>
      rw [hp] at h
      rw [Option.map_eq_none_iff.mp h]
  | some n =>
      rw [hp] at h
      obtain ⟨n', hn', hkey⟩ := Option.map_eq_some_iff.mp h
      rw [hn']
      show (cfg.hash_func n'.key).toNat % _ = (cfg.hash_func n.key).toNat % _
      rw [hkey]

/-- Key and value of every node are as they were. -/
def SameEntries (heap heap' : NodeHeap HashMapNode) : Prop :=
  ∀ q, heap'.field HashMapNode.entry q = heap.field HashMapNode.entry q

/-- Nodes that keep their entries keep their keys. -/
theorem SameEntries.key {heap heap' : NodeHeap HashMapNode} (h : SameEntries heap heap')
    (q : Pointer) : heap'.field HashMapNode.key q = heap.field HashMapNode.key q := by
  have hfst : ∀ heap : NodeHeap HashMapNode, heap.field HashMapNode.key q
      = (heap.field HashMapNode.entry q).map Prod.fst := by
    intro heap
    unfold NodeHeap.field
    rw [Option.map_map]
    rfl
  rw [hfst, hfst, h q]

/-- One change of the links after the other. -/
theorem SameEntries.trans {h₁ h₂ h₃ : NodeHeap HashMapNode} (h : SameEntries h₁ h₂)
    (h' : SameEntries h₂ h₃) : SameEntries h₁ h₃ := fun q => (h' q).trans (h q)

/-- **The new table after the nodes `done`.** -/
structure Relinked (cfg : HashMapConfig Load) (size : BitVec 64) (heap₀ : NodeHeap HashMapNode)
    (done : List Pointer) (s : (ℕ → Pointer) × NodeHeap HashMapNode) : Prop where
  trails : ∀ i < size.toNat,
    Trail s.2 (s.1 i) (done.filter fun p => bucketOf cfg size heap₀ p = i) NULL
  others : ∀ q, q ∉ done → s.2 q = heap₀ q
  entries : SameEntries heap₀ s.2

variable {size : BitVec 64} {heap₀ : NodeHeap HashMapNode} {done rest : List Pointer}
  {s : (ℕ → Pointer) × NodeHeap HashMapNode} {rounds : ℕ}

/-- **One node** goes to the end of its new bucket. -/
theorem Relinked.step (h : Relinked cfg size heap₀ done s) (hsize : 0 < size.toNat)
    {p : Pointer} {n : HashMapNode} (hne : p ≠ NULL) (hn : heap₀ p = some n)
    (hnodup : (done ++ [p]).Nodup) (hrounds : done.length < rounds) :
    ∃ new_spot map heap, Spot.walk (fun _ => false) s.1 s.2 rounds
        (.slot ((cfg.hash_func n.key).toNat % size.toNat)) = some new_spot ∧
      new_spot.write s.1 s.2 p = some (map, heap) ∧ heap p = some n ∧
      Relinked cfg size heap₀ (done ++ [p]) (map, heap.put p { n with next := NULL }) := by
  let i := (cfg.hash_func n.key).toNat % size.toNat
  have hi : i < size.toNat := Nat.mod_lt _ hsize
  have hbucket : bucketOf cfg size heap₀ p = i := by
    unfold bucketOf
    rw [hn]
  obtain ⟨hdone, -, hapart⟩ := List.nodup_append.mp hnodup
  have hpdone : p ∉ done := fun hin => hapart p hin p (List.mem_singleton_self p) rfl
  have htrail := h.trails i hi
  have hlen : (done.filter fun p => bucketOf cfg size heap₀ p = i).length < rounds :=
    Nat.lt_of_le_of_lt (List.length_filter_le _ _) hrounds
  have hread : (Spot.slot i).read s.1 s.2 = some (s.1 i) := rfl
  have hnone : ∀ q ∈ done.filter (fun p => bucketOf cfg size heap₀ p = i), ∀ n : HashMapNode,
      s.2 q = some n → (fun _ : HashMapNode => false) n = false := fun _ _ _ _ => rfl
  have hwalk := walk_spec hread htrail hnone (.inl rfl) hlen
  -- the node is linked behind the chain of its new bucket
  obtain ⟨map, heap, hwrite, hnew, hw⟩ := write_after htrail (hdone.filter _) p
  have hpfilter : ∀ j, p ∉ done.filter fun q => bucketOf cfg size heap₀ q = j :=
    fun j hin => hpdone (List.mem_filter.mp hin).1
  have hp : heap p = some n :=
    (hw.nodes p (hpfilter i)).trans ((h.others p hpdone).trans hn)
  refine ⟨_, map, heap, hwalk, hwrite, hp, ?_, ?_, ?_⟩
  · intro j hj
    rw [List.filter_append]
    by_cases hji : j = i
    · subst hji
      rw [List.filter_cons_of_pos (by simpa using hbucket), List.filter_nil]
      refine trail_append.mpr ⟨p, hnew.frame ?_, rfl, hne, _, Function.update_self .., rfl⟩
      intro q hq
      exact NodeHeap.field_put_of_ne _ _ _ fun heq => hpfilter i (heq ▸ hq)
    · rw [List.filter_cons_of_neg (by rw [hbucket]; simpa using fun heq => hji heq.symm),
        List.filter_nil, List.append_nil]
      -- the other buckets have none of the nodes written
      show Trail _ (map j) _ NULL
      rw [hw.slots j hji]
      refine (h.trails j hj).frame fun q hq => ?_
      have hqp : q ≠ p := fun heq => hpfilter j (heq ▸ hq)
      rw [NodeHeap.field_put_of_ne _ _ _ hqp]
      apply field_of_eq
      apply hw.nodes
      intro hqi
      have hqj := of_decide_eq_true (List.mem_filter.mp hq).2
      have hqi' := of_decide_eq_true (List.mem_filter.mp hqi).2
      exact hji (hqj.symm.trans hqi')
  · intro q hq
    -- a node that is not moved yet is as it was
    have hqp : q ≠ p := fun heq => hq (by simp [heq])
    have hqd : q ∉ done := fun hin => hq (List.mem_append_left _ hin)
    show (heap.put p _) q = _
    rw [NodeHeap.put, Function.update_of_ne hqp,
      hw.nodes q fun hin => hqd (List.mem_filter.mp hin).1]
    exact h.others q hqd
  · intro q
    show (heap.put p _).field HashMapNode.entry q = _
    rw [NodeHeap.field_put_same hp (by rfl)]
    exact (hw.fields HashMapNode.entry (fun _ _ => rfl) q).trans (h.entries q)

/-- **The rest of a chain** is linked node by node. -/
theorem relink_spec {fuel : ℕ} {link_node : Pointer} (h : Relinked cfg size heap₀ done s)
    (hsize : 0 < size.toNat) (htrail : Trail heap₀ link_node rest NULL)
    (hnodup : (done ++ rest).Nodup) (hfuel : rest.length < fuel)
    (hrounds : done.length + rest.length < rounds) :
    ∃ s', HashMap.relink cfg rounds size fuel link_node s = some s' ∧
      Relinked cfg size heap₀ (done ++ rest) s' := by
  induction rest generalizing done link_node s fuel with
  | nil =>
      obtain ⟨fuel, rfl⟩ : ∃ k, fuel = k + 1 := ⟨fuel - 1, by simp at hfuel; omega⟩
      have hnull : link_node = NULL := htrail
      refine ⟨s, ?_, (List.append_nil done).symm ▸ h⟩
      unfold HashMap.relink
      rw [if_pos hnull]
  | cons p rest ih =>
      obtain ⟨fuel, rfl⟩ : ∃ k, fuel = k + 1 := ⟨fuel - 1, by simp at hfuel; omega⟩
      obtain ⟨rfl, hne, n, hn, hrest⟩ := htrail
      rw [List.append_cons] at hnodup
      have hfirst := (List.nodup_append.mp hnodup).1
      rw [List.length_cons] at hfuel hrounds
      have hfew : done.length < rounds := by omega
      -- one node is moved; the rest of the old chain is still linked
      obtain ⟨new_spot, map, heap, hwalk, hwrite, hp, h'⟩ := h.step hsize hne hn hfirst hfew
      have hlen : (done ++ [link_node]).length + rest.length < rounds := by
        rw [List.length_append, List.length_singleton]
        omega
      obtain ⟨s', hloop, hs'⟩ := ih h' hrest hnodup (Nat.lt_of_succ_lt_succ hfuel) hlen
      refine ⟨s', ?_, (List.append_cons done link_node rest).symm ▸ hs'⟩
      have hpdone : link_node ∉ done := by
        intro hin
        exact (List.nodup_append.mp hfirst).2.2 _ hin _ (List.mem_singleton_self _) rfl
      have hs : s.2 link_node = some n := (h.others _ hpdone).trans hn
      unfold HashMap.relink
      rw [if_neg hne, deref_of_node hne hs]
      simp only [Option.bind_eq_bind, Option.bind_some, hwalk, hwrite, deref_of_node hne hp]
      exact hloop

/-! ## §2. The whole table. -/

variable {m : HashMap Load} {B : ℕ → List Pointer} {M : FiniteMap}

/-- The nodes of the first buckets. -/
theorem range_succ_flatMap (B : ℕ → List Pointer) (k : ℕ) :
    (List.range (k + 1)).flatMap B = (List.range k).flatMap B ++ B k := by
  rw [List.range_succ, List.flatMap_append, List.flatMap_singleton]

/-- The nodes of the first buckets are among all nodes. -/
theorem buckets_sublist (B : ℕ → List Pointer) {k : ℕ} (hk : k ≤ m.size.toNat) :
    ((List.range k).flatMap B).Sublist (nodesOf m B) := by
  obtain ⟨d, hd⟩ := Nat.exists_eq_add_of_le hk
  unfold nodesOf
  rw [hd, List.range_add, List.flatMap_append]
  exact List.sublist_append_left _ _

/-- **`hash_map_reserve`** moves every node to its new bucket. -/
theorem Represents.reserve (h : Represents cfg m B M) (alloc : Bool) {size : BitVec 64}
    (hsize : 0 < size.toNat) :
    ∃ m' B', m.hash_map_reserve cfg alloc size = some m' ∧ Represents cfg m' B' M := by
  unfold HashMap.hash_map_reserve
  by_cases hfail : ¬(alloc = true ∧ size.toNat * 8 < 2 ^ 64)
  · rw [if_pos hfail]
    exact ⟨m, B, rfl, h⟩
  obtain ⟨-, hbytes⟩ := not_not.mp hfail
  have hall := h.occupancy
  have hloop := foldlM_range
    (f := fun s i => HashMap.relink cfg m.fuel size m.fuel (m.map i) s) (n := m.size.toNat)
    (fun k s => Relinked cfg size m.heap ((List.range k).flatMap B) s)
    (by
      intro k s hk hs
      have hsub := buckets_sublist B (Nat.succ_le_of_lt hk)
      have hsucc := range_succ_flatMap B k
      rw [hsucc] at hsub ⊢
      have hlen := hsub.length_le
      rw [List.length_append, ← hall] at hlen
      apply relink_spec hs hsize (h.trails k hk) (h.nodup.sublist hsub)
      · exact h.length_lt_fuel hk
      · unfold HashMap.fuel
        omega)
    (s := (fun _ => NULL, m.heap)) (by
      refine ⟨fun _ _ => rfl, fun _ _ => rfl, fun _ => rfl⟩)
  obtain ⟨⟨map, heap⟩, hrun, hdone⟩ := hloop
  rw [if_neg hfail, hrun]
  -- => all nodes are moved: bucket `i` has those that belong there
  let B' : ℕ → List Pointer := fun i =>
    (nodesOf m B).filter fun p => bucketOf cfg size m.heap p = i
  have hperm : ((List.range size.toNat).flatMap B').Perm (nodesOf m B) := by
    apply flatMap_classes
    intro p hp
    obtain ⟨-, n, hn⟩ := h.node hp
    unfold bucketOf
    rw [hn]
    exact Nat.mod_lt _ hsize
  refine ⟨{ m with heap := heap, map := map, size := size }, B', rfl, ?_⟩
  refine ⟨hdone.trails, hperm.nodup_iff.mpr h.nodup, ?_, ?_, h.distinct, h.nonnull, ?_, hsize,
    hbytes⟩
  · -- a node is in the bucket of its key
    intro i _ p hp n hn
    have hin : bucketOf cfg size m.heap p = i := of_decide_eq_true (List.mem_filter.mp hp).2
    rw [← bucketOf_congr cfg size (hdone.entries.key p)] at hin
    have hn' : (map, heap).2 p = some n := hn
    unfold bucketOf at hin
    rw [hn'] at hin
    exact hin
  · -- the entries are the old ones in another order
    have hsame : ((List.range size.toNat).flatMap B').map (heap.field HashMapNode.entry)
        = ((List.range size.toNat).flatMap B').map (m.heap.field HashMapNode.entry) :=
      List.map_congr_left fun q _ => hdone.entries q
    show (((List.range size.toNat).flatMap B').map (heap.field HashMapNode.entry)).Perm _
    rw [hsame]
    exact (hperm.map _).trans h.entries
  · exact h.occupancy.trans hperm.length_eq.symm

/-! ## §3. Clearing. -/

/-- **The nodes of a chain are freed**, and no others. -/
theorem clearChain_spec {fuel : ℕ} {a : Pointer} {ps : List Pointer}
    {heap : NodeHeap HashMapNode} (h : Trail heap a ps NULL) (hnodup : ps.Nodup)
    (hfuel : ps.length < fuel) :
    ∃ heap', HashMap.clearChain fuel a heap = some heap' ∧ ∀ q, q ∉ ps → heap' q = heap q := by
  induction ps generalizing fuel a heap with
  | nil =>
      obtain ⟨fuel, rfl⟩ : ∃ k, fuel = k + 1 := ⟨fuel - 1, by simp at hfuel; omega⟩
      have hnull : a = NULL := h
      refine ⟨heap, ?_, fun _ _ => rfl⟩
      unfold HashMap.clearChain
      rw [if_pos hnull]
  | cons p ps ih =>
      obtain ⟨fuel, rfl⟩ : ∃ k, fuel = k + 1 := ⟨fuel - 1, by simp at hfuel; omega⟩
      obtain ⟨rfl, hne, n, hn, hrest⟩ := h
      obtain ⟨hnot, hnodup⟩ := List.nodup_cons.mp hnodup
      obtain ⟨heap₁, hfree, -, hother⟩ := NodeHeap.free_of_allocated hne hn
      have hframe : Trail heap₁ n.next ps NULL :=
        hrest.frame fun q hq => field_of_eq _ (hother q fun heq => hnot (heq ▸ hq))
      obtain ⟨heap', hloop, hsame⟩ := ih hframe hnodup (Nat.lt_of_succ_lt_succ hfuel)
      refine ⟨heap', ?_, ?_⟩
      · unfold HashMap.clearChain
        rw [if_neg hne, deref_of_node hne hn]
        simp only [Option.bind_eq_bind, Option.bind_some, hfree, hloop]
      · intro q hq
        rw [hsame q fun hin => hq (List.mem_cons_of_mem _ hin)]
        exact hother q fun heq => hq (heq ▸ List.mem_cons_self)

/-- **`hash_map_clear`** leaves no key. -/
theorem Represents.clear (h : Represents cfg m B M) :
    ∃ m', m.hash_map_clear = some m' ∧ Represents cfg m' (fun _ => []) [] := by
  unfold HashMap.hash_map_clear
  have hloop := foldlM_range
    (f := fun (s : (ℕ → Pointer) × NodeHeap HashMapNode) i => do
      let heap ← HashMap.clearChain m.fuel (s.1 i) s.2
      some (Function.update s.1 i NULL, heap)) (n := m.size.toNat)
    (fun k s => (∀ i < k, s.1 i = NULL) ∧ (∀ i, k ≤ i → s.1 i = m.map i) ∧
      ∀ q, q ∉ (List.range k).flatMap B → s.2 q = m.heap q)
    (by
      rintro k ⟨map, heap⟩ hk ⟨hnull, hmap, hheap⟩
      have hnodup := h.nodup.sublist (buckets_sublist B (Nat.succ_le_of_lt hk))
      rw [range_succ_flatMap] at hnodup
      have hapart := (List.nodup_append.mp hnodup).2.2
      -- the chains of the later buckets are untouched, so this one can be freed
      have htrail : Trail heap (map k) (B k) NULL := by
        rw [show map k = m.map k from hmap k (Nat.le_refl k)]
        refine (h.trails k hk).frame fun q hq => field_of_eq _ (hheap q ?_)
        exact fun hin => hapart q hin q hq rfl
      obtain ⟨heap', hclear, hsame⟩ :=
        clearChain_spec htrail (h.nodup_bucket hk) (h.length_lt_fuel hk)
      refine ⟨(Function.update map k NULL, heap'), ?_, ?_, ?_, ?_⟩
      · simp only [hclear, Option.bind_eq_bind, Option.bind_some]
      · intro i hi
        show Function.update map k NULL i = NULL
        rw [Function.update_apply]
        split
        next => rfl
        next hik => exact hnull i (by omega)
      · intro i hi
        show Function.update map k NULL i = _
        rw [Function.update_of_ne (by omega)]
        exact hmap i (by omega)
      · intro q hq
        rw [range_succ_flatMap, List.mem_append] at hq
        show heap' q = _
        rw [hsame q fun hin => hq (.inr hin)]
        exact hheap q fun hin => hq (.inl hin))
    (s := (m.map, m.heap)) (by
      refine ⟨?_, fun _ _ => rfl, fun _ _ => rfl⟩
      intro i hi
      exact absurd hi (Nat.not_lt_zero i))
  obtain ⟨⟨map, heap⟩, hrun, hnull, -, -⟩ := hloop
  rw [hrun]
  refine ⟨{ m with heap := heap, map := map, occupancy := 0 }, rfl, ?_⟩
  -- ([] : List Pointer)) = [] := by => no bucket has a node any more
  have hempty : (List.range m.size.toNat).flatMap (fun _ => ([] : List Pointer)) = [] := by
    rw [List.flatMap_eq_nil_iff]
    exact fun _ _ => rfl
  refine ⟨hnull, ?_, ?_, ?_, .nil, ?_, ?_, h.size_pos, h.size_lt⟩
  · show ((List.range m.size.toNat).flatMap _).Nodup
    rw [hempty]
    exact List.nodup_nil
  · intro i _ p hp
    cases hp
  · show (((List.range m.size.toNat).flatMap _).map _).Perm _
    rw [hempty]
    exact .nil
  · intro e he
    cases he
  · show (0 : BitVec 64).toNat = ((List.range m.size.toNat).flatMap _).length
    rw [hempty]
    rfl

end Kremlin.Common
