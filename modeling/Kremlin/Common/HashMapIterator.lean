/-
  Kremlin.Common.HashMapIterator — the hash map as a finite map.

  Every sequence of operations returns what it returns on a finite map.  The
  iterator counts the buckets with an `int`, which wraps behind bucket 2^31 - 1 and
  then ends the iteration: the keys of the later buckets are not visited.

  Main results:
    * `call_represents` — one operation;
    * `iterate_eq` — the iterator visits the nodes of the first 2^31 buckets;
    * `hash_map_is_finite_map_iff` — sequences of operations, and when the keys that
      are visited are those of the map.
-/
import Kremlin.Common.HashMapRehash
import Mathlib.Data.BitVec

namespace Kremlin.Common

open Kremlin.Library

variable {Load : Type} {cfg : HashMapConfig Load} {m : HashMap Load} {B : ℕ → List Pointer}
  {M : FiniteMap} {key : Pointer}

/-! ## §1. The operations. -/

/-- **`hash_map_put`** stores as the finite map does. -/
theorem Represents.put (h : Represents cfg m B M) (hc : Compatible cfg) {fresh : Pointer}
    (hne : fresh ≠ NULL) (hfresh : m.heap fresh = none) (alloc : Bool) (hkey : key ≠ NULL)
    (value : Pointer) (force : Bool) :
    ∃ m' B', m.hash_map_put cfg fresh alloc key value force
        = some ((M.lookup cfg key).getD value, m') ∧
      Represents cfg m' B'
        (if force ∨ M.lookup cfg key = none then M.store cfg key value else M) := by
  unfold HashMap.hash_map_put
  cases h.located hc key with
  | found pre post p n hsplit hn hequal hpre =>
      obtain ⟨hlocate, hread⟩ := h.locate_found hsplit hn hequal hpre
      have hp := h.mem_nodes hsplit
      have hpne := (h.trail_split hsplit hn).2.1
      rw [hlocate, h.lookup_found hc hp hn hequal]
      simp only [Option.bind_eq_bind, Option.bind_some, hread]
      rw [if_pos hpne, deref_of_node hpne hn]
      cases force with
      | true => exact ⟨_, B, rfl, h.store_found hc hp hn hequal value⟩
      | false => exact ⟨m, B, rfl, h⟩
  | missing hnone =>
      obtain ⟨hlocate, hread⟩ := h.locate_missing hnone
      have hlookup : M.lookup cfg key = none := FiniteMap.lookup_none (h.notMem_missing hnone)
      obtain ⟨map, heap, hwrite, hstore⟩ := h.store_missing hnone hne hfresh hkey value
      rw [hlocate, hlookup, if_pos (.inr rfl)]
      simp only [Option.bind_eq_bind, Option.bind_some, hread]
      rw [if_neg (not_not_intro rfl), hwrite]
      simp only [Option.bind_some]
      split
      · -- the load was reached: the table grows to twice its size
        have hdouble : 0 < (m.size * 2).toNat := by
          have hpos := h.size_pos
          have hlt := h.size_lt
          rw [BitVec.toNat_mul]
          show 0 < m.size.toNat * 2 % 2 ^ 64
          omega
        obtain ⟨m', B', hreserve, h'⟩ := hstore.reserve alloc hdouble
        exact ⟨m', B', congrArg (Option.map _) hreserve, h'⟩
      · exact ⟨_, _, rfl, hstore⟩

/-- The loop of `hash_map_remove` keeps the node before the spot. -/
theorem removeLoop_spec {fuel : ℕ} {last_node : Pointer} {spot : Spot} {a b : Pointer}
    {ps : List Pointer} (hread : spot.read m.map m.heap = some a) (h : Trail m.heap a ps b)
    (hpass : ∀ p ∈ ps, ∀ n, m.heap p = some n → cfg.compare_func n.key key = false)
    (hstop : b = NULL ∨ b ≠ NULL ∧ ∃ n, m.heap b = some n ∧ cfg.compare_func n.key key = true)
    (hfuel : ps.length < fuel) :
    HashMap.removeLoop cfg key m fuel last_node spot
      = some (ps.getLast?.getD last_node, spot.after ps) := by
  induction fuel generalizing spot a ps last_node with
  | zero => exact absurd hfuel (Nat.not_lt_zero _)
  | succ fuel ih =>
      unfold HashMap.removeLoop
      rw [hread]
      simp only [Option.bind_eq_bind, Option.bind_some]
      cases ps with
      | nil =>
          have hab : a = b := h
          subst hab
          rcases hstop with hnull | ⟨hne, n, hn, hyes⟩
          · rw [if_pos hnull]
            rfl
          · rw [if_neg hne, deref_of_node hne hn]
            simp only [Option.bind_some, hyes, if_true]
            rfl
      | cons p ps =>
          obtain ⟨rfl, hne, n, hn, hrest⟩ := h
          rw [if_neg hne, deref_of_node hne hn]
          simp only [Option.bind_some, hpass a List.mem_cons_self n hn, Bool.false_eq_true,
            if_false]
          rw [ih (read_next hne hn) hrest (fun q hq => hpass q (List.mem_cons_of_mem a hq))
            (Nat.lt_of_succ_lt_succ hfuel)]
          cases ps <;> rfl

/-- **Both ways of unlinking** write the spot the node was found at. -/
theorem unlink_eq {i : ℕ} {pre : List Pointer} {b : Pointer}
    (h : Trail m.heap (m.map i) pre b) (v : Pointer) :
    m.unlink (pre.getLast?.getD NULL) ((Spot.slot i).after pre) v
      = ((Spot.slot i).after pre).write m.map m.heap v := by
  unfold HashMap.unlink
  rcases List.eq_nil_or_concat pre with rfl | ⟨init, q, rfl⟩
  · rfl
  · rw [List.concat_eq_append] at h ⊢
    have hq : (init ++ [q]).getLast?.getD NULL = q := by simp
    have hne := (h.node (p := q) (by simp)).1
    rw [hq, if_pos hne, after_concat]
    rfl

/-- **`hash_map_remove`** takes the key away. -/
theorem Represents.remove (h : Represents cfg m B M) (hc : Compatible cfg) (key : Pointer) :
    ∃ m' B', m.hash_map_remove cfg key = some ((M.lookup cfg key).getD NULL, m') ∧
      Represents cfg m' B' (M.erase cfg key) := by
  unfold HashMap.hash_map_remove
  cases h.located hc key with
  | found pre post p n hsplit hn hequal hpre =>
      obtain ⟨htrail, hne, -⟩ := h.trail_split hsplit hn
      have hslot : (Spot.slot (m.hash_map_get_index cfg key)).read m.map m.heap
          = some (m.map (m.hash_map_get_index cfg key)) := rfl
      have hread := read_after hslot htrail
      have hlen := h.length_lt_fuel (h.index_lt key)
      rw [hsplit, List.length_append] at hlen
      have hfew : pre.length < m.fuel := by omega
      have hloop : HashMap.removeLoop cfg key m m.fuel NULL _ = _ :=
        removeLoop_spec hslot htrail hpre (.inr ⟨hne, n, hn, hequal⟩) hfew
      obtain ⟨map, heap, heap', hwrite, hfree, h'⟩ := h.erase_found hc hsplit hn hequal
      refine ⟨_, _, ?_, h'⟩
      rw [hloop, h.lookup_found hc (h.mem_nodes hsplit) hn hequal]
      simp only [Option.bind_eq_bind, Option.bind_some, hread]
      rw [if_pos hne, deref_of_node hne hn]
      simp only [Option.bind_some, unlink_eq htrail n.next, hwrite, hfree]
      rfl
  | missing hnone =>
      have htrail := h.trails _ (h.index_lt key)
      have hslot : (Spot.slot (m.hash_map_get_index cfg key)).read m.map m.heap
          = some (m.map (m.hash_map_get_index cfg key)) := rfl
      have hread := read_after hslot htrail
      -- without the key the loop runs to the end of the chain
      have hpass : ∀ q ∈ B (m.hash_map_get_index cfg key), ∀ n, m.heap q = some n →
          cfg.compare_func n.key key = false :=
        fun q hq => hnone q (mem_flatMap_range.mpr ⟨_, h.index_lt key, hq⟩)
      have hloop : HashMap.removeLoop cfg key m m.fuel NULL _ = _ :=
        removeLoop_spec hslot htrail hpass (.inl rfl) (h.length_lt_fuel (h.index_lt key))
      have hno := h.notMem_missing hnone
      refine ⟨m, B, ?_, (FiniteMap.erase_of_notMem hno).symm ▸ h⟩
      rw [hloop, FiniteMap.lookup_none hno]
      simp only [Option.bind_eq_bind, Option.bind_some, hread]
      rfl

/-- A new map is empty. -/
theorem represents_create (cfg : HashMapConfig Load) :
    Represents cfg (HashMap.create cfg) (fun _ => []) [] where
  trails _ _ := rfl
  nodup := by
    unfold nodesOf
    rw [List.flatMap_eq_nil_iff.mpr fun _ _ => rfl]
    exact List.nodup_nil
  placed _ _ _ hp := by cases hp
  entries := by
    unfold nodesOf
    rw [List.flatMap_eq_nil_iff.mpr fun _ _ => rfl]
    exact .nil
  distinct := .nil
  nonnull _ he := by cases he
  occupancy := by
    unfold nodesOf
    rw [List.flatMap_eq_nil_iff.mpr fun _ _ => rfl]
    rfl
  size_pos := by
    show 0 < DEFAULT_SIZE.toNat
    decide
  size_lt := by
    show DEFAULT_SIZE.toNat * 8 < 2 ^ 64
    decide

/-- The occupancy is the number of keys. -/
theorem Represents.size_eq (h : Represents cfg m B M) : m.hash_map_size = M.length := by
  have hlen := h.entries.length_eq
  rw [List.length_map, List.length_map] at hlen
  exact h.occupancy.trans hlen

/-- Keys are not null, nodes get an address that is not in use, and a table at least
one bucket. -/
def Proper (m : HashMap Load) : HashMapCall Load → Prop
  | .put fresh _ key _ _ => fresh ≠ NULL ∧ m.heap fresh = none ∧ key ≠ NULL
  | .reserve _ size => 1 ≤ size.toNat
  | _ => True

/-- **One call** does what it does to a finite map. -/
theorem call_represents (h : Represents cfg m B M) (hc : Compatible cfg)
    {c : HashMapCall Load} (hproper : Proper m c) :
    ∃ m' B', m.call cfg c = some ((M.call cfg c).1, m') ∧
      Represents cfg m' B' (M.call cfg c).2 := by
  cases c with
  | put fresh alloc key value force =>
      obtain ⟨m', B', hput, h'⟩ :=
        h.put hc hproper.1 hproper.2.1 alloc hproper.2.2 value force
      exact ⟨m', B', congrArg (Option.map _) hput, h'⟩
  | get key => exact ⟨m, B, congrArg (Option.map _) (h.get hc key), h⟩
  | remove key =>
      obtain ⟨m', B', hremove, h'⟩ := h.remove hc key
      exact ⟨m', B', congrArg (Option.map _) hremove, h'⟩
  | reserve alloc size =>
      obtain ⟨m', B', hreserve, h'⟩ := h.reserve alloc hproper
      exact ⟨m', B', congrArg (Option.map _) hreserve, h'⟩
  | set_load load =>
      exact ⟨m.hash_map_set_load load, B, rfl, ⟨h.trails, h.nodup, h.placed, h.entries,
        h.distinct, h.nonnull, h.occupancy, h.size_pos, h.size_lt⟩⟩
  | clear =>
      obtain ⟨m', hclear, h'⟩ := h.clear
      exact ⟨m', _, congrArg (Option.map _) hclear, h'⟩
  | size => exact ⟨m, B, congrArg (fun n => some (HashMapResult.size n, m)) h.size_eq, h⟩

/-! ## §2. Iterating. -/

/-- The buckets the iterator gets to. -/
def visited (m : HashMap Load) : ℕ := min m.size.toNat (2 ^ 31)

/-- The index of bucket `j` as an `unsigned long long`. -/
theorem signExtend_index {j : ℕ} (hj : j ≤ 2 ^ 31) :
    ((BitVec.ofNat 32 j).signExtend 64).toNat = if j < 2 ^ 31 then j else 2 ^ 64 - 2 ^ 31 := by
  rw [BitVec.toNat_signExtend, BitVec.msb_eq_decide, BitVec.toNat_setWidth, BitVec.toNat_ofNat]
  have hsmall : j % 2 ^ 32 = j := by omega
  rw [hsmall]
  by_cases hlt : j < 2 ^ 31
  · rw [if_pos hlt, if_neg (by simpa using hlt)]
    omega
  · rw [if_neg hlt, if_pos (by simpa using Nat.le_of_not_lt hlt)]
    omega

/-- **The comparison of the iterator** holds for the buckets it gets to. -/
theorem index_lt_size (hsize : m.size.toNat * 8 < 2 ^ 64) {j : ℕ} (hj : j ≤ visited m) :
    (BitVec.ofNat 32 j).signExtend 64 < m.size ↔ j < visited m := by
  unfold visited at hj ⊢
  rw [BitVec.lt_def, signExtend_index (by omega)]
  split <;> omega

/-- The nodes the iterator has still to visit are those of `ps` and of the buckets
from `j` on. -/
structure At (m : HashMap Load) (it : HashMap.Iterator) (j : ℕ) (ps : List Pointer) : Prop where
  index : it.index = BitVec.ofNat 32 j
  le : j ≤ visited m
  pos : ps ≠ [] → 1 ≤ j
  trail : Trail m.heap it.current_node ps NULL

/-- The nodes of the buckets from `j` on. -/
def bucketsFrom (m : HashMap Load) (B : ℕ → List Pointer) (j : ℕ) : List Pointer :=
  (List.range' j (visited m - j)).flatMap B

/-- The iterator has this bucket before it, and the later ones. -/
theorem bucketsFrom_of_lt (B : ℕ → List Pointer) {j : ℕ} (hj : j < visited m) :
    bucketsFrom m B j = B j ++ bucketsFrom m B (j + 1) := by
  unfold bucketsFrom
  rw [show visited m - j = (visited m - (j + 1)) + 1 by omega, List.range'_succ,
    List.flatMap_cons]

/-- Behind the last bucket there is nothing. -/
theorem bucketsFrom_of_eq (B : ℕ → List Pointer) {j : ℕ} (hj : j = visited m) :
    bucketsFrom m B j = [] := by
  unfold bucketsFrom
  rw [hj, Nat.sub_self]
  rfl

/-- What a call of `hash_map_it_next` finds: the first of the nodes `ps` that are
left. -/
inductive Next (m : HashMap Load) (B : ℕ → List Pointer) (ps : List Pointer) :
    Pointer × HashMap.Iterator → Prop where
  | ended (it : HashMap.Iterator) (none : ps = []) : Next m B ps (NULL, it)
  | node (p : Pointer) (n : HashMapNode) (it : HashMap.Iterator) (j : ℕ) (qs : List Pointer)
      (here : m.heap p = some n) (nonnull : p ≠ NULL) (last : it.last_node = p) (pos : 1 ≤ j)
      (at_ : At m it j qs) (left : ps = p :: (qs ++ bucketsFrom m B j)) :
      Next m B ps (n.key, it)

/-- **One call of `hash_map_it_next`.** -/
theorem Represents.it_next (h : Represents cfg m B M) {it : HashMap.Iterator} {j : ℕ}
    {ps : List Pointer} (hat : At m it j ps) {rounds : ℕ} (hrounds : visited m - j + 1 < rounds) :
    ∃ r, m.hash_map_it_next rounds it = some r ∧ Next m B (ps ++ bucketsFrom m B j) r := by
  induction rounds generalizing it j ps with
  | zero => exact absurd hrounds (Nat.not_lt_zero _)
  | succ rounds ih =>
      unfold HashMap.hash_map_it_next
      cases ps with
      | cons p ps =>
          obtain ⟨hcur, hne, n, hn, hrest⟩ := hat.trail
          rw [hcur, if_neg hne, deref_of_node hne hn]
          exact ⟨_, rfl, .node p n _ j ps hn hne rfl (hat.pos (List.cons_ne_nil _ _))
            ⟨hat.index, hat.le, fun _ => hat.pos (List.cons_ne_nil _ _), hrest⟩ rfl⟩
      | nil =>
          have hnull : it.current_node = NULL := hat.trail
          rw [if_pos hnull, hat.index]
          have hiff := index_lt_size h.size_lt hat.le
          -- at the end of a chain the next bucket is taken, if the `int` still counts it
          by_cases hlt : j < visited m
          · rw [if_pos (hiff.mpr hlt)]
            have hjsize : j < m.size.toNat := by
              unfold visited at hlt
              omega
            have hjnat : (BitVec.ofNat 32 j).toNat = j := by
              rw [BitVec.toNat_ofNat]
              unfold visited at hlt
              omega
            have hnext : At m { it with
                current_node := m.map (BitVec.ofNat 32 j).toNat,
                index := BitVec.ofNat 32 j + 1 } (j + 1) (B j) := by
              refine ⟨?_, hlt, fun _ => Nat.succ_pos j, ?_⟩
              · show BitVec.ofNat 32 j + 1 = BitVec.ofNat 32 (j + 1)
                rw [BitVec.ofNat_add]
                rfl
              · show Trail m.heap (m.map (BitVec.ofNat 32 j).toNat) (B j) NULL
                rw [hjnat]
                exact h.trails j hjsize
            obtain ⟨r, hr, hnextr⟩ := ih hnext (by omega)
            refine ⟨r, hr, ?_⟩
            rw [List.nil_append, bucketsFrom_of_lt B hlt]
            exact hnextr
          · rw [if_neg fun hyes => hlt (hiff.mp hyes)]
            refine ⟨_, rfl, .ended _ ?_⟩
            have hle := hat.le
            rw [List.nil_append]
            exact bucketsFrom_of_eq B (by omega)

/-- **`hash_map_it_value`** finds the value of the node that was visited last. -/
theorem Represents.it_value (h : Represents cfg m B M) {it : HashMap.Iterator} {j : ℕ}
    {qs : List Pointer} (hat : At m it j qs) (hpos : 1 ≤ j) {p : Pointer} {n : HashMapNode}
    (hlast : it.last_node = p) (hne : p ≠ NULL) (hn : m.heap p = some n) :
    m.hash_map_it_value it = some (some n.value) := by
  have hle := hat.le
  have hindex : it.index - 1 = BitVec.ofNat 32 (j - 1) := by
    rw [hat.index]
    obtain ⟨k, rfl⟩ : ∃ k, j = k + 1 := ⟨j - 1, by omega⟩
    rw [BitVec.ofNat_add, Nat.add_sub_cancel]
    exact BitVec.add_sub_cancel _ _
  have hlt := (index_lt_size h.size_lt (show j - 1 ≤ visited m by omega)).mpr (by omega)
  unfold HashMap.hash_map_it_value
  rw [hindex, hlast, if_pos ⟨hlt, hne⟩, deref_of_node hne hn]
  rfl

/-- What the iterator gives for a node. -/
def shown (e : Pointer × Pointer) : Pointer × Option Pointer := (e.1, some e.2)

/-- **The calls of `hash_map_it_next`** from some nodes on. -/
theorem Represents.visit (h : Represents cfg m B M) {fuel : ℕ} {ps : List Pointer}
    {r : Pointer × HashMap.Iterator} (hnext : Next m B ps r)
    (hmem : ∀ p ∈ ps, p ∈ nodesOf m B) (hfuel : ps.length < fuel) :
    m.visit fuel r = some ((ps.filterMap (m.heap.field HashMapNode.entry)).map shown) := by
  induction fuel generalizing ps r with
  | zero => exact absurd hfuel (Nat.not_lt_zero _)
  | succ fuel ih =>
      cases hnext with
      | ended it hnone =>
          rw [hnone]
          unfold HashMap.visit
          rw [if_pos rfl]
          rfl
      | node p n it j qs hn hne hlast hpos hat hleft =>
          have hp : p ∈ nodesOf m B := hmem p (hleft ▸ List.mem_cons_self)
          have hkey : n.key ≠ NULL := h.nonnull _ (h.mem_of_node hp hn)
          have hrounds : visited m - j + 1 < m.size.toNat + 2 := by
            unfold visited
            omega
          obtain ⟨r', hr', hnext'⟩ := h.it_next hat hrounds
          -- the rest of the nodes is shown by the rest of the rounds
          have hrest := ih hnext'
            (fun q hq => hmem q (hleft ▸ List.mem_cons_of_mem p hq))
            (by rw [hleft, List.length_cons] at hfuel; omega)
          have hentry : m.heap.field HashMapNode.entry p = some n.entry := by
            unfold NodeHeap.field
            rw [hn]
            rfl
          unfold HashMap.visit
          rw [if_neg hkey, h.it_value hat hpos hlast hne hn, hr']
          simp only [Option.bind_eq_bind, Option.bind_some, hrest]
          rw [hleft, List.filterMap_cons_some hentry, List.map_cons]
          rfl

/-- From the first bucket on all that are visited are before it. -/
theorem bucketsFrom_zero (m : HashMap Load) (B : ℕ → List Pointer) :
    bucketsFrom m B 0 = (List.range (visited m)).flatMap B := by
  unfold bucketsFrom
  rw [Nat.sub_zero, ← List.range_eq_range']

/-- **The iterator visits the nodes of the first 2^31 buckets.** -/
theorem Represents.iterate_eq (h : Represents cfg m B M) :
    m.iterate = some ((((List.range (visited m)).flatMap B).filterMap
      (m.heap.field HashMapNode.entry)).map shown) := by
  have hstart : At m ⟨0, NULL, NULL⟩ 0 [] := by
    exact ⟨rfl, Nat.zero_le _, fun hne => absurd rfl hne, rfl⟩
  have hrounds : visited m - 0 + 1 < m.size.toNat + 2 := by
    unfold visited
    omega
  obtain ⟨r, hr, hnext⟩ := h.it_next hstart hrounds
  rw [List.nil_append, bucketsFrom_zero] at hnext
  have hsub : ((List.range (visited m)).flatMap B).Sublist (nodesOf m B) :=
    buckets_sublist B (Nat.min_le_left _ _)
  have hfuel : ((List.range (visited m)).flatMap B).length < m.fuel := by
    have hlen := hsub.length_le
    rw [← h.occupancy] at hlen
    unfold HashMap.fuel
    omega
  have hvisit := h.visit hnext (fun p hp => hsub.subset hp) hfuel
  unfold HashMap.iterate
  rw [hr]
  exact hvisit

/-- The nodes hold the entries of the map, in some order. -/
theorem Represents.entries_perm (h : Represents cfg m B M) :
    ((nodesOf m B).filterMap (m.heap.field HashMapNode.entry)).Perm M := by
  have hperm := h.entries.filterMap id
  rw [List.filterMap_map, List.filterMap_map] at hperm
  simpa using hperm

/-- **Every key is visited once, with its value**, if and only if no key has a
bucket from 2^31 on. -/
theorem Represents.visits_iff (h : Represents cfg m B M) :
    (∃ L, m.iterate = some L ∧ L.Perm (M.map shown)) ↔
      ∀ e ∈ M, (cfg.hash_func e.1).toNat % m.size.toNat < 2 ^ 31 := by
  have hsub : ((List.range (visited m)).flatMap B).Sublist (nodesOf m B) :=
    buckets_sublist B (Nat.min_le_left _ _)
  constructor
  · rintro ⟨L, hiter, hperm⟩ e he
    rw [h.iterate_eq] at hiter
    cases hiter
    -- as many nodes are visited as there are keys
    have hlen := hperm.length_eq
    rw [List.length_map, List.length_map] at hlen
    have hvisited := List.length_filterMap_le (m.heap.field HashMapNode.entry)
      ((List.range (visited m)).flatMap B)
    have hcount : (nodesOf m B).length = M.length := h.occupancy.symm.trans h.size_eq
    have hall : (List.range (visited m)).flatMap B = nodesOf m B :=
      hsub.eq_of_length_le (by omega)
    obtain ⟨p, hp, n, hn, rfl⟩ := h.node_of_mem he
    rw [← hall] at hp
    obtain ⟨i, hi, hpi⟩ := mem_flatMap_range.mp hp
    unfold visited at hi
    have hplaced := h.placed i (by omega) p hpi n hn
    show (cfg.hash_func n.key).toNat % _ < _
    omega
  · intro hsmall
    refine ⟨_, h.iterate_eq, ?_⟩
    have hall : (List.range (visited m)).flatMap B = nodesOf m B := by
      obtain ⟨d, hd⟩ := Nat.exists_eq_add_of_le (Nat.min_le_left m.size.toNat (2 ^ 31))
      unfold nodesOf
      rw [hd, List.range_add, List.flatMap_append]
      have hlate : ((List.range d).map (min m.size.toNat (2 ^ 31) + ·)).flatMap B = [] := by
        rw [List.flatMap_eq_nil_iff]
        intro i hi
        obtain ⟨k, hk, rfl⟩ := List.mem_map.mp hi
        have hik : min m.size.toNat (2 ^ 31) + k < m.size.toNat := by
          have hkd := List.mem_range.mp hk
          omega
        by_contra hne
        obtain ⟨p, hp⟩ := List.exists_mem_of_ne_nil _ hne
        have hpn : p ∈ nodesOf m B := mem_flatMap_range.mpr ⟨_, hik, hp⟩
        obtain ⟨-, n, hn⟩ := h.node hpn
        have hplaced := h.placed _ hik p hp n hn
        have hlt : (cfg.hash_func n.key).toNat % m.size.toNat < 2 ^ 31 :=
          hsmall _ (h.mem_of_node hpn hn)
        omega
      rw [hlate, List.append_nil]
      rfl
    rw [hall]
    exact h.entries_perm.map shown

/-! ## §3. Sequences of operations. -/

/-- A map in use, with the results of the calls so far. -/
def mapStep (cfg : HashMapConfig Load) (session : HashMap Load × List HashMapResult)
    (c : HashMapCall Load) : Option (HashMap Load × List HashMapResult) :=
  (session.1.call cfg c).map fun r => (r.2, session.2 ++ [r.1])

/-- The same with a finite map. -/
def finiteMapStep (cfg : HashMapConfig Load) (session : FiniteMap × List HashMapResult)
    (c : HashMapCall Load) : FiniteMap × List HashMapResult :=
  ((session.1.call cfg c).2, session.2 ++ [(session.1.call cfg c).1])

/-- The finite map after some calls, with their results. -/
def finiteMapRun (cfg : HashMapConfig Load) (calls : List (HashMapCall Load)) :
    FiniteMap × List HashMapResult :=
  calls.foldl (finiteMapStep cfg) ([], [])

/-- **A sequence of calls**, from a hash map and the finite map it represents on. -/
theorem session_represents (hc : Compatible cfg) {calls : List (HashMapCall Load)}
    {results : List HashMapResult} (h : Represents cfg m B M)
    (hok : RunOk (mapStep cfg) (fun session c => Proper session.1 c) (m, results) calls) :
    ∃ m' B', run (mapStep cfg) (m, results) calls
        = some (m', (calls.foldl (finiteMapStep cfg) (M, results)).2) ∧
      Represents cfg m' B' (calls.foldl (finiteMapStep cfg) (M, results)).1 := by
  induction calls generalizing m B M results with
  | nil => exact ⟨m, B, rfl, h⟩
  | cons c calls ih =>
      obtain ⟨m₁, B₁, hcall, h₁⟩ := call_represents h hc hok.1
      have hstep : mapStep cfg (m, results) c = some (m₁, results ++ [(M.call cfg c).1]) := by
        unfold mapStep
        rw [hcall]
        rfl
      obtain ⟨m', B', hrun, h'⟩ := ih h₁ (hok.2 _ hstep)
      exact ⟨m', B', run_cons_eq_some.mpr ⟨_, hstep, hrun⟩, h'⟩

/-- The calls return what they return on a finite map, the size is its number of
keys, and the iterator visits each of its keys once, with its value. -/
structure IsFiniteMap (cfg : HashMapConfig Load) (calls : List (HashMapCall Load))
    (session : HashMap Load × List HashMapResult) : Prop where
  results : session.2 = (finiteMapRun cfg calls).2
  size : session.1.hash_map_size = (finiteMapRun cfg calls).1.length
  visits : ∃ L, session.1.iterate = some L ∧ L.Perm ((finiteMapRun cfg calls).1.map shown)

/-- **When a hash map is a finite map.**  Every sequence of calls can be made; its
results, and the size after it, are those of a finite map.  The iterator visits
every key once if and only if no key is in a bucket from 2^31 on. -/
theorem hash_map_is_finite_map_iff (hc : Compatible cfg) {calls : List (HashMapCall Load)}
    (hok : RunOk (mapStep cfg) (fun session c => Proper session.1 c)
      (HashMap.create cfg, []) calls) :
    ∃ session, run (mapStep cfg) (HashMap.create cfg, []) calls = some session ∧
      session.2 = (finiteMapRun cfg calls).2 ∧
      session.1.hash_map_size = (finiteMapRun cfg calls).1.length ∧
      (IsFiniteMap cfg calls session ↔ ∀ e ∈ (finiteMapRun cfg calls).1,
        (cfg.hash_func e.1).toNat % session.1.size.toNat < 2 ^ 31) := by
  obtain ⟨m, B, hrun, h⟩ := session_represents hc (represents_create cfg) hok
  refine ⟨_, hrun, rfl, h.size_eq, ?_⟩
  constructor
  · intro hmap
    exact h.visits_iff.mp hmap.visits
  · intro hsmall
    exact ⟨rfl, h.size_eq, h.visits_iff.mpr hsmall⟩

/-- Keys are their own hashes; the table grows at three quarters. -/
def wordKeys : HashMapConfig Unit where
  hash_func k := k
  compare_func k k' := decide (k = k')
  full occupancy size _ := decide (3 * size.toNat ≤ 4 * occupancy.toNat)
  default_load := ()

/-- Keys compared as words are compatible with their hash. -/
theorem compatible_wordKeys : Compatible wordKeys where
  refl _ := decide_eq_true rfl
  symm h := decide_eq_true (of_decide_eq_true h).symm
  trans h h' := decide_eq_true ((of_decide_eq_true h).trans (of_decide_eq_true h'))
  hash h := of_decide_eq_true h

/-- Two keys of one bucket are stored, and the first is taken away. -/
theorem hash_map_is_finite_map_iff_removed :
    ∃ session, run (mapStep wordKeys) (HashMap.create wordKeys, [])
        [.put 64 true 3 5 false, .put 80 true 19 7 false, .remove 3] = some session ∧
      session.2 = [.value 5, .value 7, .value 5] ∧ session.1.hash_map_size = 1 ∧
      (IsFiniteMap wordKeys [.put 64 true 3 5 false, .put 80 true 19 7 false, .remove 3] session
        ↔ ∀ e ∈ [((19 : Pointer), (7 : Pointer))],
          (wordKeys.hash_func e.1).toNat % session.1.size.toNat < 2 ^ 31) := by
  have hok : RunOk (mapStep wordKeys) (fun session c => Proper session.1 c)
      (HashMap.create wordKeys, [])
      [.put 64 true 3 5 false, .put 80 true 19 7 false, .remove 3] := by
    refine ⟨⟨by decide, rfl, by decide⟩, fun s₁ h₁ => ?_⟩
    have hheap : (mapStep wordKeys (HashMap.create wordKeys, [])
        (.put 64 true 3 5 false)).all (fun s => (s.1.heap 80).isNone) = true := by
      decide +kernel
    rw [h₁] at hheap
    refine ⟨⟨by decide, Option.isNone_iff_eq_none.mp hheap, by decide⟩, fun s₂ _ => ?_⟩
    exact ⟨trivial, fun _ _ => trivial⟩
  exact hash_map_is_finite_map_iff compatible_wordKeys hok

/-- **A key behind bucket 2^31 - 1 is not visited**, although it is found. -/
theorem hash_map_misses_key :
    RunOk (mapStep wordKeys) (fun session c => Proper session.1 c) (HashMap.create wordKeys, [])
        [.reserve true (2 ^ 31 + 16), .put 64 true (2 ^ 31) 5 false] ∧
      ∀ session, run (mapStep wordKeys) (HashMap.create wordKeys, [])
        [.reserve true (2 ^ 31 + 16), .put 64 true (2 ^ 31) 5 false] = some session →
        session.1.hash_map_get wordKeys (2 ^ 31) = some (some 5) ∧
        ¬IsFiniteMap wordKeys
          [.reserve true (2 ^ 31 + 16), .put 64 true (2 ^ 31) 5 false] session := by
  have hok : RunOk (mapStep wordKeys) (fun session c => Proper session.1 c)
      (HashMap.create wordKeys, [])
      [.reserve true (2 ^ 31 + 16), .put 64 true (2 ^ 31) 5 false] := by
    refine ⟨show 1 ≤ (2 ^ 31 + 16 : BitVec 64).toNat by decide, fun s₁ h₁ => ?_⟩
    have hheap : (mapStep wordKeys (HashMap.create wordKeys, [])
        (.reserve true (2 ^ 31 + 16))).all (fun s => (s.1.heap 64).isNone) = true := by
      decide +kernel
    rw [h₁] at hheap
    exact ⟨⟨by decide, Option.isNone_iff_eq_none.mp hheap, by decide⟩, fun _ _ => trivial⟩
  refine ⟨hok, ?_⟩
  intro session hsession
  obtain ⟨m, B, hrun, h⟩ :=
    session_represents compatible_wordKeys (represents_create wordKeys) hok
  rw [hrun] at hsession
  cases hsession
  have hsize : (run (mapStep wordKeys) (HashMap.create wordKeys, [])
      [.reserve true (2 ^ 31 + 16), .put 64 true (2 ^ 31) 5 false]).all
      (fun s => decide (s.1.size = (2 ^ 31 + 16 : BitVec 64))) = true := by
    decide +kernel
  rw [hrun] at hsize
  have hsize' : m.size = (2 ^ 31 + 16 : BitVec 64) := of_decide_eq_true hsize
  refine ⟨h.get compatible_wordKeys _, ?_⟩
  -- the key is in bucket 2^31, which no `int` counts
  intro hmap
  have hsmall := h.visits_iff.mp hmap.visits (2 ^ 31, 5) (by decide)
  rw [hsize'] at hsmall
  exact absurd hsmall (by decide)

end Kremlin.Common
