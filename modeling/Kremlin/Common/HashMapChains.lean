/-
  Kremlin.Common.HashMapChains — the operations of the hash map on its chains.

  A hash map represents a finite map (`Represents`) when its chains hold the keys
  of the map, each in the bucket of its hash and none twice, and the occupancy is
  the number of nodes.  Every operation keeps this, for the finite map it makes
  (`call_represents`).
-/
import Kremlin.Common.HashMap

namespace Kremlin.Common

open Kremlin.Library

variable {Load : Type} {cfg : HashMapConfig Load}

/-! ## §1. The functions of the map. -/

/-- The compare function is an equivalence, and equal keys have one hash. -/
structure Compatible (cfg : HashMapConfig Load) : Prop where
  refl : ∀ k, cfg.compare_func k k = true
  symm : ∀ {k k'}, cfg.compare_func k k' = true → cfg.compare_func k' k = true
  trans : ∀ {k k' k''}, cfg.compare_func k k' = true → cfg.compare_func k' k'' = true →
    cfg.compare_func k k'' = true
  hash : ∀ {k k'}, cfg.compare_func k k' = true → cfg.hash_func k = cfg.hash_func k'

/-- No two keys of the map are equal. -/
def Distinct (cfg : HashMapConfig Load) (M : FiniteMap) : Prop :=
  M.Pairwise fun a b => cfg.compare_func a.1 b.1 = false

namespace FiniteMap

variable {M : FiniteMap} {key value : Pointer}

/-- **The key of the map that is equal to a key** is the only one. -/
theorem lookup_of_mem (hc : Compatible cfg) (hd : Distinct cfg M) {e : Pointer × Pointer}
    (he : e ∈ M) (hkey : cfg.compare_func e.1 key = true) : M.lookup cfg key = some e.2 := by
  unfold lookup
  induction M with
  | nil => cases he
  | cons x M ih =>
      obtain ⟨hx, hd⟩ := List.pairwise_cons.mp hd
      rw [List.find?_cons]
      by_cases hxe : x = e
      · subst hxe
        rw [hkey]
        rfl
      · have hin : e ∈ M := (List.mem_cons.mp he).resolve_left fun heq => hxe heq.symm
        have hno : cfg.compare_func x.1 key = false := by
          by_contra hyes
          rw [Bool.not_eq_false] at hyes
          have hxe' := hc.trans hyes (hc.symm hkey)
          rw [hx e hin] at hxe'
          cases hxe'
        rw [hno]
        exact ih hd hin

/-- A key that compares equal to none is not in the map. -/
theorem lookup_none (h : ∀ e ∈ M, cfg.compare_func e.1 key = false) :
    M.lookup cfg key = none := by
  unfold lookup
  rw [List.find?_eq_none.mpr]
  · rfl
  · intro e he
    rw [h e he]
    exact Bool.false_ne_true

/-- **Taking the key away** takes its entry and no other. -/
theorem erase_of_mem (hc : Compatible cfg) (hd : Distinct cfg M) {e : Pointer × Pointer}
    (he : e ∈ M) (hkey : cfg.compare_func e.1 key = true) :
    M.Perm (e :: M.erase cfg key) := by
  unfold erase
  induction M with
  | nil => cases he
  | cons x M ih =>
      obtain ⟨hx, hd⟩ := List.pairwise_cons.mp hd
      by_cases hxe : x = e
      · subst hxe
        -- the entry itself goes, and no other one compares equal
        rw [List.filter_cons_of_neg (by rw [hkey]; simp)]
        have hall : M.filter (fun a => !cfg.compare_func a.1 key) = M := by
          rw [List.filter_eq_self]
          intro a ha
          have hno : cfg.compare_func a.1 key = false := by
            by_contra hyes
            rw [Bool.not_eq_false] at hyes
            have hxa := hc.trans hkey (hc.symm hyes)
            rw [hx a ha] at hxa
            cases hxa
          rw [hno]
          rfl
        rw [hall]
      · have hin : e ∈ M := (List.mem_cons.mp he).resolve_left fun heq => hxe heq.symm
        have hno : cfg.compare_func x.1 key = false := by
          by_contra hyes
          rw [Bool.not_eq_false] at hyes
          have hxe' := hc.trans hyes (hc.symm hkey)
          rw [hx e hin] at hxe'
          cases hxe'
        rw [List.filter_cons_of_pos (by rw [hno]; rfl)]
        exact ((ih hd hin).cons x).trans (List.Perm.swap e x _)

/-- Nothing is erased of a map without the key. -/
theorem erase_of_notMem (h : ∀ e ∈ M, cfg.compare_func e.1 key = false) :
    M.erase cfg key = M := by
  unfold erase
  rw [List.filter_eq_self]
  intro e he
  rw [h e he]
  rfl

end FiniteMap

/-! ## §2. The nodes of a map. -/

/-- What a node holds. -/
def HashMapNode.entry (n : HashMapNode) : Pointer × Pointer := (n.key, n.value)

/-- The nodes, bucket by bucket. -/
def nodesOf (m : HashMap Load) (B : ℕ → List Pointer) : List Pointer :=
  (List.range m.size.toNat).flatMap B

/-- **The buckets hold the nodes `B`, and these the entries of `M`.** -/
structure Represents (cfg : HashMapConfig Load) (m : HashMap Load) (B : ℕ → List Pointer)
    (M : FiniteMap) : Prop where
  trails : ∀ i < m.size.toNat, Trail m.heap (m.map i) (B i) NULL
  nodup : (nodesOf m B).Nodup
  placed : ∀ i < m.size.toNat, ∀ p ∈ B i, ∀ n, m.heap p = some n →
    (cfg.hash_func n.key).toNat % m.size.toNat = i
  entries : ((nodesOf m B).map (m.heap.field HashMapNode.entry)).Perm (M.map some)
  distinct : Distinct cfg M
  nonnull : ∀ e ∈ M, e.1 ≠ NULL
  occupancy : m.occupancy.toNat = (nodesOf m B).length
  size_pos : 0 < m.size.toNat
  size_lt : m.size.toNat * 8 < 2 ^ 64

variable {m m' : HashMap Load} {B : ℕ → List Pointer} {M : FiniteMap} {key : Pointer}

namespace Represents

/-- The nodes of the chains are allocated. -/
theorem node (h : Represents cfg m B M) {p : Pointer} (hp : p ∈ nodesOf m B) :
    p ≠ NULL ∧ ∃ n, m.heap p = some n := by
  obtain ⟨i, hi, hpi⟩ := mem_flatMap_range.mp hp
  exact (h.trails i hi).node hpi

/-- What a node of the chains holds is in the map. -/
theorem mem_of_node (h : Represents cfg m B M) {p : Pointer} (hp : p ∈ nodesOf m B)
    {n : HashMapNode} (hn : m.heap p = some n) : n.entry ∈ M := by
  have hmem : m.heap.field HashMapNode.entry p ∈ M.map some :=
    h.entries.mem_iff.mp (List.mem_map_of_mem hp)
  unfold NodeHeap.field at hmem
  rw [hn] at hmem
  obtain ⟨e, he, heq⟩ := List.mem_map.mp hmem
  exact Option.some.inj heq ▸ he

/-- What is in the map is held by a node of the chains. -/
theorem node_of_mem (h : Represents cfg m B M) {e : Pointer × Pointer} (he : e ∈ M) :
    ∃ p ∈ nodesOf m B, ∃ n, m.heap p = some n ∧ n.entry = e := by
  have hmem : some e ∈ (nodesOf m B).map (m.heap.field HashMapNode.entry) :=
    h.entries.mem_iff.mpr (List.mem_map_of_mem he)
  obtain ⟨p, hp, heq⟩ := List.mem_map.mp hmem
  obtain ⟨n, hn, hentry⟩ := Option.map_eq_some_iff.mp heq
  exact ⟨p, hp, n, hn, hentry⟩

/-- Two nodes with equal keys are one. -/
theorem unique (h : Represents cfg m B M) (hc : Compatible cfg) {p q : Pointer}
    (hp : p ∈ nodesOf m B) (hq : q ∈ nodesOf m B) {n n' : HashMapNode} (hn : m.heap p = some n)
    (hn' : m.heap q = some n') (heq : cfg.compare_func n.key n'.key = true) : p = q := by
  by_contra hne
  let R : Option (Pointer × Pointer) → Option (Pointer × Pointer) → Prop :=
    fun a b => ∀ x y, a = some x → b = some y → cfg.compare_func x.1 y.1 = false
  have hsymm : ∀ {a b}, R a b → R b a := by
    intro a b hab x y hx hy
    by_contra hyes
    rw [Bool.not_eq_false] at hyes
    have hback := hc.symm hyes
    rw [hab y x hy hx] at hback
    cases hback
  have hpairs : (M.map some).Pairwise R := by
    rw [List.pairwise_map]
    exact h.distinct.imp fun hab x y hx hy => Option.some.inj hx ▸ Option.some.inj hy ▸ hab
  have hnodes := (h.entries.pairwise_iff hsymm).mpr hpairs
  rw [List.pairwise_map] at hnodes
  have hboth : ∀ x ∈ nodesOf m B, ∀ y ∈ nodesOf m B, x ≠ y →
      R (m.heap.field HashMapNode.entry x) (m.heap.field HashMapNode.entry y) := by
    have : Std.Symm fun x y =>
        R (m.heap.field HashMapNode.entry x) (m.heap.field HashMapNode.entry y) :=
      ⟨fun _ _ hab => hsymm hab⟩
    exact fun x hx y hy hxy => hnodes.forall hx hy hxy
  have hno := hboth p hp q hq hne n.entry n'.entry (by unfold NodeHeap.field; rw [hn]; rfl)
    (by unfold NodeHeap.field; rw [hn']; rfl)
  rw [show cfg.compare_func n.entry.1 n'.entry.1 = true from heq] at hno
  cases hno

/-- No node is twice in its bucket. -/
theorem nodup_bucket (h : Represents cfg m B M) {i : ℕ} (hi : i < m.size.toNat) :
    (B i).Nodup :=
  (List.nodup_flatMap.mp h.nodup).1 i (List.mem_range.mpr hi)

/-- No node is in two buckets. -/
theorem disjoint (h : Represents cfg m B M) {i j : ℕ} (hi : i < m.size.toNat)
    (hj : j < m.size.toNat) (hij : i ≠ j) {p : Pointer} (hp : p ∈ B i) : p ∉ B j := by
  intro hpj
  have hpi : ∀ k < m.size.toNat, p ∈ B k → k = (match m.heap p with
      | some n => (cfg.hash_func n.key).toNat % m.size.toNat
      | none => 0) := by
    intro k hk hpk
    obtain ⟨-, n, hn⟩ := (h.trails k hk).node hpk
    rw [hn]
    exact (h.placed k hk p hpk n hn).symm
  exact hij ((hpi i hi hp).trans (hpi j hj hpj).symm)

/-- Every key has a bucket. -/
theorem index_lt (h : Represents cfg m B M) (key : Pointer) :
    m.hash_map_get_index cfg key < m.size.toNat := Nat.mod_lt _ h.size_pos

/-- The fuel is enough for every chain. -/
theorem length_lt_fuel (h : Represents cfg m B M) {i : ℕ} (hi : i < m.size.toNat) :
    (B i).length < m.fuel := by
  obtain ⟨rest, hperm, -⟩ := flatMap_slot B hi
  have hlen := hperm.length_eq
  have hocc := h.occupancy
  unfold nodesOf at hocc
  rw [hlen, List.length_append] at hocc
  unfold HashMap.fuel
  omega

/-- A key in the map is in the bucket of its hash. -/
theorem bucket_of_key (h : Represents cfg m B M) (hc : Compatible cfg) {p : Pointer}
    (hp : p ∈ nodesOf m B) {n : HashMapNode} (hn : m.heap p = some n)
    (hkey : cfg.compare_func n.key key = true) : p ∈ B (m.hash_map_get_index cfg key) := by
  obtain ⟨i, hi, hpi⟩ := mem_flatMap_range.mp hp
  have hplaced := h.placed i hi p hpi n hn
  rw [hc.hash hkey] at hplaced
  unfold HashMap.hash_map_get_index
  rwa [hplaced]

end Represents

/-! ## §3. Finding a key. -/

/-- The node has a key that is equal to `key`. -/
def Matches (cfg : HashMapConfig Load) (m : HashMap Load) (key p : Pointer) : Bool :=
  (m.heap p).any fun n => cfg.compare_func n.key key

/-- **A key is found** behind the nodes `pre`, or it is not in the map. -/
inductive Located (cfg : HashMapConfig Load) (m : HashMap Load) (B : ℕ → List Pointer)
    (M : FiniteMap) (key : Pointer) : Prop where
  | found (pre post : List Pointer) (p : Pointer) (n : HashMapNode)
      (split : B (m.hash_map_get_index cfg key) = pre ++ p :: post)
      (node : m.heap p = some n) (equal : cfg.compare_func n.key key = true)
      (before : ∀ q ∈ pre, ∀ n, m.heap q = some n → cfg.compare_func n.key key = false)
  | missing (none : ∀ p ∈ nodesOf m B, ∀ n, m.heap p = some n →
      cfg.compare_func n.key key = false)

/-- A walk finds the key, or there is none. -/
theorem Represents.located (h : Represents cfg m B M) (hc : Compatible cfg) (key : Pointer) :
    Located cfg m B M key := by
  cases hf : (B (m.hash_map_get_index cfg key)).find? (Matches cfg m key) with
  | some p =>
      obtain ⟨hp, pre, post, hsplit, hpre⟩ := List.find?_eq_some_iff_append.mp hf
      have hyes : (m.heap p).any (fun n => cfg.compare_func n.key key) = true := hp
      obtain ⟨n, hn, hkey⟩ := (Option.any_eq_true _ _).mp hyes
      refine .found pre post p n hsplit hn hkey ?_
      intro q hq n' hn'
      have hno := hpre q hq
      unfold Matches at hno
      rw [hn'] at hno
      simpa using hno
  | none =>
      refine .missing ?_
      intro p hp n hn
      by_contra hyes
      rw [Bool.not_eq_false] at hyes
      have hin := h.bucket_of_key hc hp hn hyes
      have hno := List.find?_eq_none.mp hf p hin
      unfold Matches at hno
      rw [hn] at hno
      exact hno hyes

namespace Represents

variable {pre post : List Pointer} {p : Pointer} {n : HashMapNode}

/-- The key that was found has the value of its node. -/
theorem lookup_found (h : Represents cfg m B M) (hc : Compatible cfg)
    (hp : p ∈ nodesOf m B) (hn : m.heap p = some n)
    (hkey : cfg.compare_func n.key key = true) : M.lookup cfg key = some n.value :=
  FiniteMap.lookup_of_mem hc h.distinct (h.mem_of_node hp hn) hkey

/-- The key that was not found is not in the map. -/
theorem notMem_missing (h : Represents cfg m B M)
    (hmissing : ∀ p ∈ nodesOf m B, ∀ n, m.heap p = some n →
      cfg.compare_func n.key key = false) : ∀ e ∈ M, cfg.compare_func e.1 key = false := by
  intro e he
  obtain ⟨p, hp, n, hn, rfl⟩ := h.node_of_mem he
  exact hmissing p hp n hn

/-- The node found is one of the chains. -/
theorem mem_nodes (h : Represents cfg m B M)
    (hsplit : B (m.hash_map_get_index cfg key) = pre ++ p :: post) : p ∈ nodesOf m B := by
  refine mem_flatMap_range.mpr ⟨_, h.index_lt key, ?_⟩
  rw [hsplit]
  simp

/-- The trail to a node of a bucket. -/
theorem trail_split (h : Represents cfg m B M)
    (hsplit : B (m.hash_map_get_index cfg key) = pre ++ p :: post) (hn : m.heap p = some n) :
    Trail m.heap (m.map (m.hash_map_get_index cfg key)) pre p ∧ p ≠ NULL ∧
      Trail m.heap n.next post NULL := by
  have htrail := h.trails _ (h.index_lt key)
  rw [hsplit] at htrail
  obtain ⟨b, hpre, rfl, hne, n', hn', hpost⟩ := trail_append.mp htrail
  rw [hn] at hn'
  cases hn'
  exact ⟨hpre, hne, hpost⟩

/-- **`hash_map_locate`** stops at the node of the key. -/
theorem locate_found (h : Represents cfg m B M)
    (hsplit : B (m.hash_map_get_index cfg key) = pre ++ p :: post) (hn : m.heap p = some n)
    (hkey : cfg.compare_func n.key key = true)
    (hpre : ∀ q ∈ pre, ∀ n, m.heap q = some n → cfg.compare_func n.key key = false) :
    m.hash_map_locate cfg key = some ((Spot.slot (m.hash_map_get_index cfg key)).after pre) ∧
      ((Spot.slot (m.hash_map_get_index cfg key)).after pre).read m.map m.heap = some p := by
  obtain ⟨htrail, hne, -⟩ := h.trail_split hsplit hn
  have hlen := h.length_lt_fuel (h.index_lt key)
  rw [hsplit, List.length_append] at hlen
  refine ⟨walk_spec rfl htrail hpre (.inr ⟨hne, n, hn, hkey⟩) (by omega), ?_⟩
  exact read_after rfl htrail

/-- Or at the end of the chain. -/
theorem locate_missing (h : Represents cfg m B M)
    (hmissing : ∀ p ∈ nodesOf m B, ∀ n, m.heap p = some n →
      cfg.compare_func n.key key = false) :
    m.hash_map_locate cfg key
        = some ((Spot.slot (m.hash_map_get_index cfg key)).after
          (B (m.hash_map_get_index cfg key))) ∧
      ((Spot.slot (m.hash_map_get_index cfg key)).after
        (B (m.hash_map_get_index cfg key))).read m.map m.heap = some NULL := by
  have htrail := h.trails _ (h.index_lt key)
  refine ⟨walk_spec rfl htrail ?_ (.inl rfl) (h.length_lt_fuel (h.index_lt key)), ?_⟩
  · intro q hq n hn
    exact hmissing q (mem_flatMap_range.mpr ⟨_, h.index_lt key, hq⟩) n hn
  · exact read_after rfl htrail

/-- **`hash_map_get`** looks the key up. -/
theorem get (h : Represents cfg m B M) (hc : Compatible cfg) (key : Pointer) :
    m.hash_map_get cfg key = some (M.lookup cfg key) := by
  unfold HashMap.hash_map_get
  cases h.located hc key with
  | found pre post p n hsplit hn hkey hpre =>
      obtain ⟨hlocate, hread⟩ := h.locate_found hsplit hn hkey hpre
      have hne := (h.trail_split hsplit hn).2.1
      rw [hlocate, h.lookup_found hc (h.mem_nodes hsplit) hn hkey]
      simp only [Option.bind_eq_bind, Option.bind_some, hread]
      rw [if_neg hne, deref_of_node hne hn]
      rfl
  | missing hnone =>
      obtain ⟨hlocate, hread⟩ := h.locate_missing hnone
      rw [hlocate, FiniteMap.lookup_none (h.notMem_missing hnone)]
      simp only [Option.bind_eq_bind, Option.bind_some, hread]
      rfl

end Represents

/-! ## §4. Storing and taking away. -/

/-- One node more in a bucket. -/
theorem nodes_add {i : ℕ} (hi : i < m.size.toNat) (fresh : Pointer) :
    ((List.range m.size.toNat).flatMap (Function.update B i (B i ++ [fresh]))).Perm
      (fresh :: nodesOf m B) := by
  obtain ⟨rest, hold, hnew⟩ := flatMap_slot B hi
  have hmove : (B i ++ [fresh] ++ rest).Perm (fresh :: (B i ++ rest)) := by
    rw [List.append_assoc]
    exact List.perm_middle
  exact (hnew _).trans (hmove.trans (hold.symm.cons fresh))

/-- One node less. -/
theorem nodes_cut {pre post : List Pointer} {p : Pointer} {i : ℕ} (hi : i < m.size.toNat)
    (hsplit : B i = pre ++ p :: post) :
    (nodesOf m B).Perm
      (p :: (List.range m.size.toNat).flatMap (Function.update B i (pre ++ post))) := by
  obtain ⟨rest, hold, hnew⟩ := flatMap_slot B hi
  have hmove : (B i ++ rest).Perm (p :: (pre ++ post ++ rest)) := by
    rw [hsplit, List.append_assoc, List.append_assoc]
    exact List.perm_middle
  exact hold.trans (hmove.trans ((hnew _).symm.cons p))

namespace Represents

variable {pre post : List Pointer} {p : Pointer} {n : HashMapNode}

/-- A heap with the same links and keys: what the nodes hold may have changed. -/
theorem of_entries (h : Represents cfg m B M) {heap : NodeHeap HashMapNode} {M' : FiniteMap}
    (hlinks : ∀ q, heap.field Link.next q = m.heap.field Link.next q)
    (hkeys : ∀ q, heap.field HashMapNode.key q = m.heap.field HashMapNode.key q)
    (hentries : ((nodesOf m B).map (heap.field HashMapNode.entry)).Perm (M'.map some))
    (hdistinct : Distinct cfg M') (hnonnull : ∀ e ∈ M', e.1 ≠ NULL) :
    Represents cfg { m with heap := heap } B M' where
  trails i hi := (h.trails i hi).frame fun q _ => hlinks q
  nodup := h.nodup
  placed i hi q hq n hn := by
    have hkey := hkeys q
    obtain ⟨-, n', hn'⟩ := (h.trails i hi).node hq
    unfold NodeHeap.field at hkey
    have hn₁ : heap q = some n := hn
    rw [hn₁, hn'] at hkey
    have hsame : n.key = n'.key := Option.some.inj hkey
    rw [hsame]
    exact h.placed i hi q hq n' hn'
  entries := hentries
  distinct := hdistinct
  nonnull := hnonnull
  occupancy := h.occupancy
  size_pos := h.size_pos
  size_lt := h.size_lt

/-- **A value is stored** at the node of its key. -/
theorem store_found (h : Represents cfg m B M) (hc : Compatible cfg) (hp : p ∈ nodesOf m B)
    (hn : m.heap p = some n) (hkey : cfg.compare_func n.key key = true) (value : Pointer) :
    Represents cfg { m with heap := m.heap.put p { n with value := value } } B
      (M.store cfg key value) := by
  have hstore : M.store cfg key value
      = M.map fun e => if cfg.compare_func e.1 key then (e.1, value) else e := by
    unfold FiniteMap.store
    rw [h.lookup_found hc hp hn hkey]
    rfl
  have hfst : ∀ e : Pointer × Pointer,
      (if cfg.compare_func e.1 key then (e.1, value) else e).1 = e.1 := by
    intro e
    split <;> rfl
  rw [hstore]
  refine h.of_entries (NodeHeap.field_put_same hn rfl) (NodeHeap.field_put_same hn rfl) ?_ ?_ ?_
  · -- every entry changes as its node does
    have hmap : (nodesOf m B).map ((m.heap.put p { n with value := value }).field
          HashMapNode.entry)
        = ((nodesOf m B).map (m.heap.field HashMapNode.entry)).map
          (Option.map fun e => if cfg.compare_func e.1 key then (e.1, value) else e) := by
      rw [List.map_map]
      apply List.map_congr_left
      intro q hq
      obtain ⟨-, n', hn'⟩ := h.node hq
      show _ = (m.heap.field HashMapNode.entry q).map _
      rw [NodeHeap.field_put]
      unfold NodeHeap.field
      by_cases hqp : q = p
      · subst hqp
        rw [hn] at hn' ⊢
        rw [if_pos rfl]
        show _ = some (if cfg.compare_func n.key key then (n.key, value) else _)
        rw [if_pos hkey]
        rfl
      · have hno : ¬cfg.compare_func n'.entry.1 key = true := by
          intro hyes
          -- two nodes of one key would be the same
          exact hqp (h.unique hc hq hp hn' hn (hc.trans hyes (hc.symm hkey)))
        rw [if_neg hqp, hn']
        show some n'.entry = some (if cfg.compare_func n'.entry.1 key then _ else _)
        rw [if_neg hno]
    rw [hmap]
    have hperm := h.entries.map
      (Option.map fun e => if cfg.compare_func e.1 key then (e.1, value) else e)
    rw [List.map_map] at hperm ⊢
    rw [List.map_map] at hperm
    rw [List.map_map]
    exact hperm
  · unfold Distinct
    rw [List.pairwise_map]
    exact h.distinct.imp fun hab => by rw [hfst, hfst]; exact hab
  · intro e he
    obtain ⟨e', he', rfl⟩ := List.mem_map.mp he
    rw [hfst]
    exact h.nonnull e' he'

/-- A node that is not allocated is none of the map's. -/
theorem fresh_notMem (h : Represents cfg m B M) {fresh : Pointer} (hfresh : m.heap fresh = none) :
    fresh ∉ nodesOf m B := by
  intro hin
  obtain ⟨-, n, hn⟩ := h.node hin
  rw [hfresh] at hn
  cases hn

/-- **A key is added** at the end of its bucket. -/
theorem store_missing (h : Represents cfg m B M)
    (hmissing : ∀ p ∈ nodesOf m B, ∀ n, m.heap p = some n → cfg.compare_func n.key key = false)
    {fresh : Pointer} (hne : fresh ≠ NULL) (hfresh : m.heap fresh = none) (hkey : key ≠ NULL) (value : Pointer) :
    ∃ map heap, ((Spot.slot (m.hash_map_get_index cfg key)).after
        (B (m.hash_map_get_index cfg key))).write m.map m.heap fresh = some (map, heap) ∧
      Represents cfg { m with
        heap := heap.put fresh ⟨key, value, NULL⟩, map := map, occupancy := m.occupancy + 1 }
        (Function.update B (m.hash_map_get_index cfg key)
          (B (m.hash_map_get_index cfg key) ++ [fresh]))
        (M.store cfg key value) := by
  let i := m.hash_map_get_index cfg key
  have hi : i < m.size.toNat := h.index_lt key
  obtain ⟨map, heap, hwrite, htrail, hw⟩ :=
    write_after (h.trails i hi) (h.nodup_bucket hi) fresh
  have hnot := h.fresh_notMem hfresh
  have hnodes := nodes_add (B := B) hi fresh
  have hstore : M.store cfg key value = M ++ [(key, value)] := by
    unfold FiniteMap.store
    rw [FiniteMap.lookup_none (h.notMem_missing hmissing)]
    rfl
  have hbucket : ∀ j < m.size.toNat, ∀ q ∈ B j, q ≠ fresh := by
    intro j hj q hq heq
    exact hnot (heq ▸ mem_flatMap_range.mpr ⟨j, hj, hq⟩)
  have hentry : ∀ q, q ≠ fresh → (heap.put fresh ⟨key, value, NULL⟩).field HashMapNode.entry q
      = m.heap.field HashMapNode.entry q := by
    intro q hq
    rw [NodeHeap.field_put_of_ne _ _ _ hq]
    exact hw.fields HashMapNode.entry (fun _ _ => rfl) q
  have hkeys : ∀ q n, q ≠ fresh → (heap.put fresh ⟨key, value, NULL⟩) q = some n →
      ∃ n', m.heap q = some n' ∧ n'.key = n.key := by
    intro q n hq hn
    have hsame := hentry q hq
    unfold NodeHeap.field at hsame
    rw [hn] at hsame
    obtain ⟨n', hn', heq⟩ := Option.map_eq_some_iff.mp hsame.symm
    exact ⟨n', hn', congrArg Prod.fst heq⟩
  -- only the bucket of the key has another chain, with the new node at its end
  refine ⟨map, heap, hwrite, ?_, ?_, ?_, ?_, ?_, ?_, ?_, h.size_pos, h.size_lt⟩
  · intro j hj
    by_cases hji : j = i
    · subst hji
      show Trail _ (map i) (Function.update B i _ i) NULL
      rw [Function.update_self]
      refine trail_append.mpr ⟨fresh, htrail.frame ?_, rfl, hne, _, Function.update_self .., rfl⟩
      intro q hq
      exact NodeHeap.field_put_of_ne _ _ _ (hbucket i hi q hq)
    · show Trail _ (map j) (Function.update B i _ j) NULL
      rw [Function.update_of_ne hji, hw.slots j hji]
      refine (h.trails j hj).frame fun q hq => ?_
      rw [NodeHeap.field_put_of_ne _ _ _ (hbucket j hj q hq)]
      exact field_of_eq _ (hw.nodes q (h.disjoint hj hi hji hq))
  · -- no node is in two chains
    exact hnodes.nodup_iff.mpr (List.nodup_cons.mpr ⟨hnot, h.nodup⟩)
  · -- every key is in the bucket of its hash
    intro j hj q hq n hn
    have hold : ∀ k < m.size.toNat, q ∈ B k →
        (cfg.hash_func n.key).toNat % m.size.toNat = k := by
      intro k hk hqk
      obtain ⟨n', hn', heq⟩ := hkeys q n (hbucket k hk q hqk) hn
      rw [← heq]
      exact h.placed k hk q hqk n' hn'
    by_cases hji : j = i
    · subst hji
      rw [Function.update_self] at hq
      rcases List.mem_append.mp hq with hqi | hqf
      · exact hold i hi hqi
      · -- the new node
        rw [List.mem_singleton.mp hqf] at hn
        have hnew : some n = some ⟨key, value, NULL⟩ := hn.symm.trans (Function.update_self ..)
        cases hnew
        rfl
    · rw [Function.update_of_ne hji] at hq
      exact hold j hj hq
  · -- the entries of the nodes are those of the map
    rw [hstore, List.map_append]
    refine (hnodes.map _).trans ?_
    have hold : (nodesOf m B).map ((heap.put fresh ⟨key, value, NULL⟩).field HashMapNode.entry)
        = (nodesOf m B).map (m.heap.field HashMapNode.entry) := by
      apply List.map_congr_left
      intro q hq
      exact hentry q fun heq => hnot (heq ▸ hq)
    rw [List.map_cons, NodeHeap.field_put_self, hold]
    exact (h.entries.cons _).trans (List.perm_append_singleton _ _).symm
  · rw [hstore]
    refine List.pairwise_append.mpr ⟨h.distinct, List.pairwise_singleton _ _, ?_⟩
    intro e he e' he'
    rw [List.mem_singleton.mp he']
    exact h.notMem_missing hmissing e he
  · intro e he
    rw [hstore] at he
    rcases List.mem_append.mp he with hold | hnew
    · exact h.nonnull e hold
    · rw [List.mem_singleton.mp hnew]
      exact hkey
  · -- the occupancy is below the number of addresses, so it does not wrap
    have hlen := hnodes.length_eq
    have hnodup := hnodes.nodup_iff.mpr (List.nodup_cons.mpr ⟨hnot, h.nodup⟩)
    have hnull : NULL ∉ (List.range m.size.toNat).flatMap (Function.update B i (B i ++ [fresh])) := by
      intro hin
      rcases List.mem_cons.mp (hnodes.mem_iff.mp hin) with heq | hold
      · exact hne heq.symm
      · exact (h.node hold).1 rfl
    have hlt := length_lt_of_addresses hnodup hnull
    show (m.occupancy + 1).toNat = ((List.range m.size.toNat).flatMap _).length
    rw [hlen, List.length_cons] at hlt ⊢
    exact toNat_succ h.occupancy hlt

/-- **The node of a key is unlinked** and freed. -/
theorem erase_found (h : Represents cfg m B M) (hc : Compatible cfg)
    (hsplit : B (m.hash_map_get_index cfg key) = pre ++ p :: post) (hn : m.heap p = some n)
    (hkey : cfg.compare_func n.key key = true) :
    ∃ map heap heap', ((Spot.slot (m.hash_map_get_index cfg key)).after pre).write m.map m.heap
        n.next = some (map, heap) ∧ heap.free p = some heap' ∧
      Represents cfg { m with heap := heap', map := map, occupancy := m.occupancy - 1 }
        (Function.update B (m.hash_map_get_index cfg key) (pre ++ post))
        (M.erase cfg key) := by
  let i := m.hash_map_get_index cfg key
  have hi : i < m.size.toNat := h.index_lt key
  obtain ⟨hpre, hne, hpost⟩ := h.trail_split hsplit hn
  have hbucket := h.nodup_bucket hi
  rw [hsplit] at hbucket
  obtain ⟨hnodup, -, hapart⟩ := List.nodup_append.mp hbucket
  have hcut : (p :: (pre ++ post)).Nodup :=
    (List.perm_middle.nodup_iff).mp hbucket
  obtain ⟨hnot, hkept⟩ := List.nodup_cons.mp hcut
  obtain ⟨map, heap, hwrite, htrail, hw⟩ := write_after hpre hnodup n.next
  have hnp : p ∉ pre := fun hin => hnot (List.mem_append_left _ hin)
  obtain ⟨heap', hfree, -, hother⟩ :=
    NodeHeap.free_of_allocated hne ((hw.nodes p hnp).trans hn)
  have hnodes := nodes_cut (B := B) hi hsplit
  have hpn : p ∉ (List.range m.size.toNat).flatMap (Function.update B i (pre ++ post)) :=
    (List.nodup_cons.mp (hnodes.nodup_iff.mp h.nodup)).1
  -- what is left are the old nodes but `p`
  have hmem : ∀ j < m.size.toNat, ∀ q ∈ Function.update B i (pre ++ post) j,
      q ≠ p ∧ q ∈ B j := by
    intro j hj q hq
    refine ⟨fun heq => hpn (heq ▸ mem_flatMap_range.mpr ⟨j, hj, hq⟩), ?_⟩
    by_cases hji : j = i
    · subst hji
      rw [Function.update_self] at hq
      rw [show B i = pre ++ p :: post from hsplit]
      rcases List.mem_append.mp hq with hl | hr
      · exact List.mem_append_left _ hl
      · exact List.mem_append_right _ (List.mem_cons_of_mem p hr)
    · rwa [Function.update_of_ne hji] at hq
  have hentry : ∀ q, q ≠ p →
      heap'.field HashMapNode.entry q = m.heap.field HashMapNode.entry q := by
    intro q hq
    rw [field_of_eq _ (hother q hq)]
    exact hw.fields HashMapNode.entry (fun _ _ => rfl) q
  refine ⟨map, heap, heap', hwrite, hfree, ?_, ?_, ?_, ?_, ?_, ?_, ?_, h.size_pos, h.size_lt⟩
  · intro j hj
    have hne' : ∀ q ∈ Function.update B i (pre ++ post) j, heap' q = heap q :=
      fun q hq => hother q (hmem j hj q hq).1
    by_cases hji : j = i
    · subst hji
      show Trail heap' (map i) (Function.update B i _ i) NULL
      rw [Function.update_self] at hne' ⊢
      refine trail_append.mpr ⟨n.next, htrail.frame ?_, hpost.frame ?_⟩
      · exact fun q hq => field_of_eq _ (hne' q (List.mem_append_left _ hq))
      · intro q hq
        rw [field_of_eq _ (hne' q (List.mem_append_right _ hq))]
        apply field_of_eq
        apply hw.nodes
        intro hqp
        exact hapart q hqp q (List.mem_cons_of_mem p hq) rfl
    · show Trail heap' (map j) (Function.update B i _ j) NULL
      rw [Function.update_of_ne hji] at hne' ⊢
      rw [hw.slots j hji]
      refine (h.trails j hj).frame fun q hq => ?_
      rw [field_of_eq _ (hne' q hq)]
      apply field_of_eq
      apply hw.nodes
      intro hqp
      refine h.disjoint hj hi hji hq ?_
      rw [show B i = pre ++ p :: post from hsplit]
      exact List.mem_append_left _ hqp
  · exact (List.nodup_cons.mp (hnodes.nodup_iff.mp h.nodup)).2
  · -- the keys that are left stay in their buckets
    intro j hj q hq n' hn'
    obtain ⟨hqp, hqB⟩ := hmem j hj q hq
    obtain ⟨-, n₀, hn₀⟩ := (h.trails j hj).node hqB
    have hsame := hentry q hqp
    unfold NodeHeap.field at hsame
    have hn₁ : heap' q = some n' := hn'
    rw [hn₁, hn₀] at hsame
    have hfst : n'.key = n₀.key := congrArg Prod.fst (Option.some.inj hsame)
    rw [hfst]
    exact h.placed j hj q hqB n₀ hn₀
  · -- the entries that are left are those of the map without the key
    have hold : ((List.range m.size.toNat).flatMap (Function.update B i (pre ++ post))).map
          (heap'.field HashMapNode.entry)
        = ((List.range m.size.toNat).flatMap (Function.update B i (pre ++ post))).map
          (m.heap.field HashMapNode.entry) := by
      apply List.map_congr_left
      intro q hq
      exact hentry q fun heq => hpn (heq ▸ hq)
    have hentryp : m.heap.field HashMapNode.entry p = some n.entry := by
      unfold NodeHeap.field
      rw [hn]
      rfl
    have hbefore := (hnodes.map (m.heap.field HashMapNode.entry)).symm.trans h.entries
    have herase := FiniteMap.erase_of_mem hc h.distinct
      (h.mem_of_node (h.mem_nodes hsplit) hn) hkey
    rw [List.map_cons, hentryp] at hbefore
    show (((List.range m.size.toNat).flatMap _).map (heap'.field HashMapNode.entry)).Perm _
    rw [hold]
    exact (hbefore.trans (herase.map some)).cons_inv
  · exact h.distinct.filter _
  · intro e he
    exact h.nonnull e (List.mem_filter.mp he).1
  · have hlen := hnodes.length_eq
    exact toNat_pred ((h.occupancy.trans hlen).trans List.length_cons)

end Represents

end Kremlin.Common
