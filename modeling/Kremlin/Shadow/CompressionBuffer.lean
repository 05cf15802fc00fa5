/-
  Kremlin.Shadow.CompressionBuffer — which pages stay uncompressed.

  `CBuffer` keeps the uncompressed pages in `active_set`, a map from the page's
  `LevelTable` pointer to a reference bit, in the order of the pointers.  When
  the map is full a clock hand looks for a page to compress: it clears the
  reference bits it passes and takes the first page whose bit was clear.

  The hand is an iterator into the map.  Reading through it when the page it
  points to has been erased has no defined result; the operations return `none`
  there, and where `LevelTable::compress` or `decompress` do.
-/
import Kremlin.Shadow.Compression
import Kremlin.Library.ClockRing
import Kremlin.Library.Run
import Mathlib.Data.List.TakeWhile
import Mathlib.Order.Defs.LinearOrder

namespace Kremlin.Shadow

open Kremlin.Library

variable {P : Type} [LinearOrder P]

/-! ## §1. The operations. -/

/-- The members of `CBuffer` and its static map; `P` are the addresses of the
level tables. -/
structure CBuffer (P : Type) where
  num_entries : ℕ
  active_set : List (P × Bool)
  /-- `none` until the first page is added. -/
  active_set_clock_hand : Option P

/-- The level tables behind the pointers. -/
abbrev Heap (P : Type) := P → LevelTable

namespace CBuffer

/-- The buffer before the first page. -/
def init (size : ℕ) : CBuffer P where
  num_entries := size
  active_set := []
  active_set_clock_hand := none

/-- `++active_set_clock_hand`, from the end on to the beginning. -/
def advanceClockHand (s : CBuffer P) : Option (CBuffer P) := do
  let hand ← s.active_set_clock_hand
  let next ← nextKey s.active_set hand
  some { s with active_set_clock_hand := some next }

/-- The reference bit of a page in the map. -/
def r_bit (s : CBuffer P) (table : P) : Option Bool :=
  (s.active_set.find? fun e => e.1 = table).map Prod.snd

/-- `getVictim` with a bound on the number of steps of the hand; also the number
of steps taken. -/
def getVictim : ℕ → CBuffer P → Option (P × CBuffer P × ℕ)
  | 0, _ => none
  | fuel + 1, s => do
      let hand ← s.active_set_clock_hand
      let bit ← s.r_bit hand
      if bit then
        let s' ← advanceClockHand { s with active_set := setAt s.active_set hand false }
        let (victim, s'', steps) ← getVictim fuel s'
        some (victim, s'', steps + 1)
      else
        let s' ← s.advanceClockHand
        some (hand, s', 1)

/-- `CBuffer::addToBuffer`: the set is ordered by address, and the hand points to a page that is
alone in it. -/
def addToBuffer (l_table : P) (s : CBuffer P) : CBuffer P :=
  let active_set :=
    if l_table ∈ s.active_set.map Prod.fst then s.active_set
    else s.active_set.takeWhile (fun e => e.1 < l_table) ++
      (l_table, true) :: s.active_set.dropWhile fun e => e.1 < l_table
  { s with
    active_set := active_set
    active_set_clock_hand :=
      if active_set.length = 1 then active_set.head?.map Prod.fst
      else s.active_set_clock_hand }

/-- `int bytes_gained = lTable->compress()`. -/
def evictFromBuffer (lzo : Lzo) (heap : Heap P) (s : CBuffer P) :
    Option (BitVec 32 × Heap P × CBuffer P) := do
  let (victim, s', _) ← getVictim (s.active_set.length + 1) s
  let (lTable, bytes_gained) ← (heap victim).compress lzo
  some (bytes_gained.setWidth 32, Function.update heap victim lTable,
    { s' with active_set := s'.active_set.filter fun e => e.1 ≠ victim })

/-- `CBuffer::add`: a full buffer packs a victim first. -/
def add (compressShadowMem : Bool) (lzo : Lzo) (table : P) (heap : Heap P) (s : CBuffer P) :
    Option (BitVec 32 × Heap P × CBuffer P) :=
  if compressShadowMem then do
    let (bytes_gained, heap', s') ←
      if s.num_entries ≤ s.active_set.length then s.evictFromBuffer lzo heap
      else some (0, heap, s)
    some (bytes_gained, heap', s'.addToBuffer table)
  else some (0, heap, s)

/-- `CBuffer::decompress`: the page is unpacked and enters the buffer. -/
def decompress (compressShadowMem : Bool) (lzo : Lzo) (table : P) (heap : Heap P)
    (s : CBuffer P) : Option (BitVec 32 × Heap P × CBuffer P) := do
  let (lTable, loss) ← (heap table).decompress lzo
  let (gain, heap', s') ← s.add compressShadowMem lzo table (Function.update heap table lTable)
  some (gain - loss.setWidth 32, heap', s')

/-- `none` if the page is not in the map. -/
def touch (compressShadowMem : Bool) (table : P) (s : CBuffer P) : Option (CBuffer P) :=
  if compressShadowMem then do
    let _ ← s.r_bit table
    some { s with active_set := setAt s.active_set table true }
  else some s

/-! ## §2. The hand. -/

/-- The addresses of the pages in the map. -/
def pages (s : CBuffer P) : List P := s.active_set.map Prod.fst

/-- The map's pages are in order, and a hand of a non-empty map points into it. -/
structure Pointed (s : CBuffer P) : Prop where
  sorted : s.pages.Pairwise (· < ·)
  hand : s.active_set ≠ [] → ∃ h ∈ s.pages, s.active_set_clock_hand = some h

theorem Pointed.nodup {s : CBuffer P} (h : s.Pointed) : (s.active_set.map Prod.fst).Nodup :=
  h.sorted.imp fun hlt => ne_of_lt hlt

/-- The reference bit of the page the ring starts with. -/
theorem r_bit_of_ring {s : CBuffer P} {h : P} {b : Bool} {rest : List (P × Bool)}
    (hring : ringFrom s.active_set h = (h, b) :: rest)
    (hnodup : (s.active_set.map Prod.fst).Nodup) : s.r_bit h = some b := by
  have hmem : (h, b) ∈ s.active_set := by
    rw [← mem_ringFrom _ h, hring]
    exact List.mem_cons_self
  obtain ⟨pre, post, hl⟩ := List.append_of_mem hmem
  rw [hl, List.map_append, List.map_cons, List.nodup_append] at hnodup
  have hnone : pre.find? (fun e => decide (e.1 = h)) = none := by
    rw [List.find?_eq_none]
    intro e he heq
    exact hnodup.2.2 e.1 (List.mem_map_of_mem he) h List.mem_cons_self (of_decide_eq_true heq)
  unfold r_bit
  rw [hl, List.find?_append, hnone]
  simp

/-- **The search for a victim is a sweep of the ring.**  Induction on the bound:
a set bit turns the ring by one entry. -/
theorem getVictim_of_sweep {fuel : ℕ} {s : CBuffer P} {h v : P} {r : List (P × Bool)} {n : ℕ}
    (hnodup : s.pages.Nodup) (hhand : s.active_set_clock_hand = some h) (hmem : h ∈ s.pages)
    (hsweep : sweep fuel (ringFrom s.active_set h) = some (v, r, n)) :
    ∃ s', getVictim fuel s = some (v, s', n) ∧ s'.num_entries = s.num_entries ∧
      s'.pages = s.pages ∧
      ∃ k ∈ s'.pages, s'.active_set_clock_hand = some k ∧ ringFrom s'.active_set k = r := by
  induction fuel generalizing s h r n with
  | zero => cases hsweep
  | succ fuel ih =>
      obtain ⟨b, rest, k, hring, hnext, hk, hturn⟩ := ringFrom_nextKey hnodup hmem
      have hbit := r_bit_of_ring hring hnodup
      have hh : h ∉ rest.map Prod.fst := by
        have hperm : (ringFrom s.active_set k).map Prod.fst
            = rest.map Prod.fst ++ [h] := by
          rw [hturn, List.map_append]
          rfl
        have hnd : ((ringFrom s.active_set k).map Prod.fst).Nodup := by
          unfold ringFrom
          rw [List.map_append, List.nodup_append_comm, ← List.map_append,
            List.takeWhile_append_dropWhile]
          exact hnodup
        rw [hperm, List.nodup_append] at hnd
        intro hin
        exact hnd.2.2 h hin h (List.mem_singleton_self h) rfl
      rw [hring] at hsweep
      unfold getVictim
      rw [hhand]
      simp only [Option.bind_eq_bind, Option.bind_some, hbit]
      cases b with
      | false =>
          -- the bit was clear: this is the victim
          cases hsweep
          refine ⟨{ s with active_set_clock_hand := some k }, ?_, rfl, rfl, k, hk, rfl, hturn⟩
          simp [advanceClockHand, hhand, hnext]
      | true =>
          obtain ⟨⟨v', r', n'⟩, hrec, heq⟩ := Option.map_eq_some_iff.mp hsweep
          cases heq
          let s₁ : CBuffer P :=
            { s with active_set := setAt s.active_set h false, active_set_clock_hand := some k }
          have hpages : s₁.pages = s.pages := map_fst_setAt _ _ _
          have hring₁ : ringFrom s₁.active_set k = rest ++ [(h, false)] := by
            show ringFrom (setAt s.active_set h false) k = _
            rw [ringFrom_setAt, hturn, setAt, List.map_append]
            congr 1
            · exact setAt_of_notMem hh false
            · simp
          obtain ⟨s', hs', hnum, hpg, hrest⟩ :=
            ih (s := s₁) (h := k) (by rw [hpages]; exact hnodup) rfl (by rw [hpages]; exact hk)
              (by rw [hring₁]; exact hrec)
          refine ⟨s', ?_, hnum, hpg.trans hpages, hrest⟩
          have hadvance : advanceClockHand
              { s with active_set := setAt s.active_set h false } = some s₁ := by
            unfold advanceClockHand
            simp [hhand, nextKey_setAt, hnext, s₁]
          rw [hhand] at hadvance
          simp [hadvance, hs']

/-- A larger bound finds the same victim. -/
theorem getVictim_mono {fuel fuel' : ℕ} (hle : fuel ≤ fuel') {s : CBuffer P}
    {r : P × CBuffer P × ℕ} (h : getVictim fuel s = some r) : getVictim fuel' s = some r := by
  induction fuel generalizing fuel' s r with
  | zero => cases h
  | succ fuel ih =>
      cases fuel' with
      | zero => exact absurd hle (by omega)
      | succ fuel' =>
          unfold getVictim at h ⊢
          simp only [Option.bind_eq_bind, Option.bind_eq_some_iff] at h ⊢
          obtain ⟨hand, hh, bit, hb, hrest⟩ := h
          refine ⟨hand, hh, bit, hb, ?_⟩
          cases bit with
          | false => exact hrest
          | true =>
              simp only [if_true, Option.bind_eq_some_iff] at hrest ⊢
              obtain ⟨s', hs', r', hr', heq⟩ := hrest
              exact ⟨s', hs', r', ih (by omega) hr', heq⟩

/-- **The victim.**  Any bound beyond a lap gives the same victim, found within
one lap and one step; its bit was clear unless all were set; and if it is not
alone the hand is on another page. -/
theorem getVictim_spec {s : CBuffer P} (hs : s.Pointed) (hne : s.active_set ≠ []) :
    ∃ victim s' steps,
      (∀ fuel, s.active_set.length < fuel → getVictim fuel s = some (victim, s', steps)) ∧
      steps ≤ s.active_set.length + 1 ∧
      ((victim, false) ∈ s.active_set ∨ ∀ e ∈ s.active_set, e.2 = true) ∧
      victim ∈ s.pages ∧ s'.num_entries = s.num_entries ∧ s'.pages = s.pages ∧
      (s.pages ≠ [victim] →
        ∃ k ∈ s'.pages, s'.active_set_clock_hand = some k ∧ k ≠ victim) := by
  obtain ⟨h, hmem, hhand⟩ := hs.hand hne
  have hring : ringFrom s.active_set h ≠ [] := by
    intro hnil
    have hlen := length_ringFrom s.active_set h
    rw [hnil] at hlen
    exact hne (List.length_eq_zero_iff.mp hlen.symm)
  obtain ⟨v, rest, n, hsweep, hn, hbit, hperm⟩ := sweep_spec hring
  rw [length_ringFrom] at hsweep hn
  have hkeys : ((ringFrom s.active_set h).map Prod.fst).Perm s.pages := by
    unfold ringFrom pages
    rw [List.map_append]
    refine List.perm_append_comm.trans ?_
    rw [← List.map_append, List.takeWhile_append_dropWhile]
  obtain ⟨s', hs', hnum, hpages, k, hk, hhand', hring'⟩ :=
    getVictim_of_sweep hs.nodup hhand hmem (hsweep _ (Nat.lt_succ_self _))
  refine ⟨v, s', n, fun fuel hfuel => getVictim_mono hfuel hs', hn, ?_, ?_, hnum, hpages, ?_⟩
  · rcases hbit with hv | hall
    · exact .inl ((mem_ringFrom _ h _).mp hv)
    · exact .inr fun e he => hall e ((mem_ringFrom _ h e).mpr he)
  · exact (hperm.trans hkeys).subset (by simp)
  · intro hother
    refine ⟨k, hk, hhand', ?_⟩
    rintro rfl
    -- the hand on the victim again: then the victim is the only page
    have hnd : ((rest ++ [(k, false)]).map Prod.fst).Nodup :=
      (hperm.trans hkeys).nodup_iff.mpr hs.nodup
    have hhead : ∃ b tl, ringFrom s'.active_set k = (k, b) :: tl := by
      obtain ⟨b, tl, _, htl, _⟩ := ringFrom_nextKey
        (by rw [show s'.active_set.map Prod.fst = s.pages from hpages]; exact hs.nodup) hk
      exact ⟨b, tl, htl⟩
    obtain ⟨b, tl, htl⟩ := hhead
    rw [hring'] at htl
    cases rest with
    | nil =>
        have hone : List.Perm [k] s.pages := hperm.trans hkeys
        exact hother (List.perm_singleton.mp hone.symm)
    | cons e rest =>
        rw [List.cons_append, List.cons.injEq] at htl
        rw [List.cons_append, List.map_cons, List.nodup_cons, htl.1] at hnd
        exact hnd.1 (by simp)

/-! ## §3. Adding and evicting. -/

/-- **An eviction** compresses one page of the map, removes it, and leaves the
hand on another page if there is one. -/
theorem evictFromBuffer_spec {lzo : Lzo} {heap heap' : Heap P} {s s' : CBuffer P}
    {gain : BitVec 32} (hs : s.Pointed) (hne : s.active_set ≠ [])
    (h : s.evictFromBuffer lzo heap = some (gain, heap', s')) :
    ∃ victim ∈ s.pages, ∃ lt savings, (heap victim).compress lzo = some (lt, savings) ∧
      gain = savings.setWidth 32 ∧ heap' = Function.update heap victim lt ∧
      s'.Pointed ∧ s'.num_entries = s.num_entries ∧
      s'.active_set.length < s.active_set.length ∧
      (∀ t, t ∈ s'.pages ↔ t ∈ s.pages ∧ t ≠ victim) := by
  obtain ⟨victim, s₁, steps, hfound, -, -, hmem, hnum, hpages, hhand⟩ := getVictim_spec hs hne
  unfold evictFromBuffer at h
  rw [hfound _ (Nat.lt_succ_self _)] at h
  simp only [Option.bind_eq_bind, Option.bind_some, Option.bind_eq_some_iff] at h
  obtain ⟨⟨lt, savings⟩, hc, heq⟩ := h
  cases heq
  have hfilter : ∀ l : List (P × Bool), (l.filter fun e => decide (e.1 ≠ victim)).map Prod.fst
      = (l.map Prod.fst).filter fun t => decide (t ≠ victim) := by
    intro l
    rw [List.filter_map]
    rfl
  have hiff : ∀ t, t ∈ (s₁.active_set.filter fun e => decide (e.1 ≠ victim)).map Prod.fst ↔
      t ∈ s.pages ∧ t ≠ victim := by
    intro t
    rw [hfilter, List.mem_filter, decide_eq_true_eq, show s₁.active_set.map Prod.fst = s.pages
      from hpages]
  have hlen : s₁.active_set.length = s.active_set.length := by
    have := congrArg List.length hpages
    simpa [pages] using this
  refine ⟨victim, hmem, lt, savings, hc, rfl, rfl, ⟨?_, ?_⟩, hnum, ?_, hiff⟩
  · show ((s₁.active_set.filter fun e => decide (e.1 ≠ victim)).map Prod.fst).Pairwise _
    rw [hfilter, show s₁.active_set.map Prod.fst = s.pages from hpages]
    exact hs.sorted.filter _
  · -- the hand points to a page that is left, unless the victim was the only one
    intro hne'
    have hother : s.pages ≠ [victim] := by
      intro hone
      apply hne'
      rw [← List.map_eq_nil_iff, hfilter, show s₁.active_set.map Prod.fst = s.pages from hpages,
        hone]
      simp
    obtain ⟨k, hk, hhand', hkv⟩ := hhand hother
    exact ⟨k, (hiff k).mpr ⟨hpages ▸ hk, hkv⟩, hhand'⟩
  · show (s₁.active_set.filter _).length < _
    rw [← hlen]
    -- the victim is filtered out, so the set gets shorter
    have hin : victim ∈ s₁.pages := by
      rw [hpages]
      exact hmem
    obtain ⟨e, he, hev⟩ := List.mem_map.mp hin
    exact List.length_filter_lt_length_iff_exists.mpr ⟨e, he, by simp [hev]⟩

/-- There is nothing to evict from an empty map. -/
theorem evictFromBuffer_nil {lzo : Lzo} {heap : Heap P} {s : CBuffer P}
    (hnil : s.active_set = []) : s.evictFromBuffer lzo heap = none := by
  have hbit : ∀ t, s.r_bit t = none := by
    intro t
    unfold r_bit
    rw [hnil]
    rfl
  unfold evictFromBuffer getVictim
  cases s.active_set_clock_hand <;> simp [hbit]

/-- An eviction is held up by nothing but the compression of the victim. -/
theorem evictFromBuffer_isSome {lzo : Lzo} {heap : Heap P} {s : CBuffer P} (hs : s.Pointed)
    (hne : s.active_set ≠ []) (hc : ∀ t ∈ s.pages, ((heap t).compress lzo).isSome) :
    (s.evictFromBuffer lzo heap).isSome := by
  obtain ⟨victim, s₁, steps, hfound, -, -, hmem, -⟩ := getVictim_spec hs hne
  obtain ⟨r, hr⟩ := Option.isSome_iff_exists.mp (hc victim hmem)
  unfold evictFromBuffer
  rw [hfound _ (Nat.lt_succ_self _)]
  simp [hr]

/-- **A page joins the map** with its bit set; the hand stays where it is,
unless the map was empty. -/
theorem addToBuffer_spec {s : CBuffer P} {table : P} (hs : s.Pointed)
    (hnew : table ∉ s.pages) :
    (s.addToBuffer table).Pointed ∧
      (s.addToBuffer table).active_set.length = s.active_set.length + 1 ∧
      (∀ t, t ∈ (s.addToBuffer table).pages ↔ t = table ∨ t ∈ s.pages) := by
  let before := s.active_set.takeWhile fun e => decide (e.1 < table)
  let after := s.active_set.dropWhile fun e => decide (e.1 < table)
  have hsplit : before ++ after = s.active_set := List.takeWhile_append_dropWhile
  have hset : (s.addToBuffer table).active_set = before ++ (table, true) :: after :=
    if_neg hnew
  have hsorted : (before.map Prod.fst ++ after.map Prod.fst).Pairwise (· < ·) := by
    rw [← List.map_append, hsplit]
    exact hs.sorted
  have hmem : ∀ t, t ∈ (s.addToBuffer table).pages ↔ t = table ∨ t ∈ s.pages := by
    intro t
    rw [pages, hset, pages, ← hsplit]
    simp only [List.map_append, List.map_cons, List.mem_append, List.mem_cons]
    tauto
  have hbefore : ∀ t ∈ before.map Prod.fst, t < table := by
    intro t ht
    obtain ⟨e, he, rfl⟩ := List.mem_map.mp ht
    have hlt := List.mem_takeWhile_imp (show e ∈ s.active_set.takeWhile
      fun e => decide (e.1 < table) from he)
    exact of_decide_eq_true hlt
  have hafter : ∀ t ∈ after.map Prod.fst, table < t := by
    cases hd : after with
    | nil => intro t ht; cases ht
    | cons e rest =>
        -- the first page not below the new one is above it, and so are those behind
        have hfirst : ¬e.1 < table := by
          have := List.head?_dropWhile_not (fun e : P × Bool => decide (e.1 < table)) s.active_set
          rw [show s.active_set.dropWhile _ = e :: rest from hd] at this
          simpa using this
        have hne : e.1 ≠ table := by
          intro heq
          apply hnew
          rw [pages, ← hsplit, List.map_append, hd]
          simp [heq]
        have hlt : table < e.1 := lt_of_le_of_ne (not_lt.mp hfirst) hne.symm
        rw [hd] at hsorted
        have htail := (List.pairwise_append.mp hsorted).2.1
        rw [List.map_cons, List.pairwise_cons] at htail
        intro t ht
        rcases List.mem_cons.mp ht with rfl | hin
        · exact hlt
        · exact hlt.trans (htail.1 t hin)
  refine ⟨⟨?_, ?_⟩, ?_, hmem⟩
  · rw [pages, hset, List.map_append, List.map_cons, List.pairwise_append, List.pairwise_cons]
    rw [List.pairwise_append] at hsorted
    refine ⟨hsorted.1, ⟨hafter, hsorted.2.1⟩, ?_⟩
    intro t ht u hu
    rcases List.mem_cons.mp hu with rfl | hin
    · exact hbefore t ht
    · exact hsorted.2.2 t ht u hin
  · intro _
    have hhand : (s.addToBuffer table).active_set_clock_hand
        = if (s.addToBuffer table).active_set.length = 1
          then (s.addToBuffer table).active_set.head?.map Prod.fst
          else s.active_set_clock_hand := rfl
    rw [hhand]
    by_cases hone : (s.addToBuffer table).active_set.length = 1
    · obtain ⟨e, he⟩ := List.length_eq_one_iff.mp hone
      rw [if_pos hone, he]
      exact ⟨e.1, by rw [pages, he]; simp, rfl⟩
    · have hold : s.active_set ≠ [] := by
        intro hnil
        apply hone
        rw [hset, List.length_append, List.length_cons, ← Nat.add_assoc, ← List.length_append,
          hsplit, hnil]
        rfl
      obtain ⟨k, hk, hhand'⟩ := hs.hand hold
      rw [if_neg hone]
      exact ⟨k, (hmem k).mpr (.inr hk), hhand'⟩
  · rw [hset, List.length_append, List.length_cons, ← Nat.add_assoc, ← List.length_append, hsplit]

/-! ## §4. The buffer and the pages. -/

/-- **The buffer is sound**: the hand points into the map, the map is not too
long, and the pages added so far are compressed exactly when they are not in
it. -/
structure Sound (s : CBuffer P) (heap : Heap P) (added : List P) : Prop extends Pointed s where
  size : s.active_set.length ≤ s.num_entries
  added_of_mem : ∀ t ∈ s.pages, t ∈ added
  compressed_iff : ∀ t ∈ added, (heap t).compressed = true ↔ t ∉ s.pages

/-- Adding an uncompressed page that is not in the map to a buffer that is
sound for the others. -/
theorem add_sound {lzo : Lzo} {table : P} {heap heap' : Heap P} {s s' : CBuffer P}
    {gain : BitVec 32} {added : List P} (hs : s.Pointed)
    (hsize : s.active_set.length ≤ s.num_entries) (hadded : ∀ t ∈ s.pages, t ∈ added)
    (hiff : ∀ t ∈ added, t ≠ table → ((heap t).compressed = true ↔ t ∉ s.pages))
    (hnew : table ∉ s.pages) (hflag : (heap table).compressed = false)
    (h : s.add true lzo table heap = some (gain, heap', s')) :
    s'.Sound heap' (table :: added) ∧ s'.num_entries = s.num_entries := by
  unfold add at h
  by_cases hfull : s.num_entries ≤ s.active_set.length
  · -- a victim leaves first
    simp only [if_true, if_pos hfull, Option.bind_eq_bind, Option.bind_eq_some_iff] at h
    obtain ⟨⟨gain₁, heap₁, s₁⟩, hevict, heq⟩ := h
    cases heq
    have hne : s.active_set ≠ [] := by
      intro hnil
      rw [evictFromBuffer_nil hnil] at hevict
      cases hevict
    obtain ⟨victim, hv, lt, savings, hc, -, rfl, hs₁, hnum₁, hlen₁, hmem₁⟩ :=
      evictFromBuffer_spec hs hne hevict
    have hvt : victim ≠ table := by
      rintro rfl
      exact hnew hv
    have hnew₁ : table ∉ s₁.pages := fun hin => hnew ((hmem₁ table).mp hin).1
    obtain ⟨hpt, hlen, hmem⟩ := addToBuffer_spec hs₁ hnew₁
    refine ⟨⟨hpt, ?_, ?_, ?_⟩, hnum₁⟩
    · show (s₁.addToBuffer table).active_set.length ≤ s₁.num_entries
      omega
    · intro t ht
      rcases (hmem t).mp ht with rfl | hin
      · exact List.mem_cons_self
      · exact List.mem_cons_of_mem _ (hadded t ((hmem₁ t).mp hin).1)
    · intro t ht
      show (Function.update heap victim lt t).compressed = true ↔ t ∉ (s₁.addToBuffer table).pages
      rw [hmem, hmem₁]
      by_cases htt : t = table
      · -- the new page is in the buffer and unpacked
        subst htt
        rw [Function.update_of_ne hvt.symm, hflag]
        simp
      · have hta : t ∈ added := (List.mem_cons.mp ht).resolve_left htt
        -- the victim has left the buffer and is packed; the other pages keep both
        by_cases htv : t = victim
        · subst htv
          rw [Function.update_self, LevelTable.compressed_of_compress hc]
          simp [htt]
        · rw [Function.update_of_ne htv, hiff t hta htt]
          simp [htt, htv]
  · simp only [if_true, if_neg hfull, Option.bind_eq_bind, Option.bind_some] at h
    cases h
    obtain ⟨hpt, hlen, hmem⟩ := addToBuffer_spec hs hnew
    refine ⟨⟨hpt, ?_, ?_, ?_⟩, rfl⟩
    · show _ ≤ s.num_entries
      omega
    · intro t ht
      rcases (hmem t).mp ht with rfl | hin
      · exact List.mem_cons_self
      · exact List.mem_cons_of_mem _ (hadded t hin)
    · intro t ht
      rw [hmem]
      by_cases htt : t = table
      · subst htt
        rw [hflag]
        simp
      · rw [hiff t ((List.mem_cons.mp ht).resolve_left htt) htt]
        simp [htt]

theorem add_isSome {lzo : Lzo} {table : P} {heap : Heap P} {s : CBuffer P} (hs : s.Pointed)
    (hnum : 1 ≤ s.num_entries) (hc : ∀ t ∈ s.pages, ((heap t).compress lzo).isSome) :
    (s.add true lzo table heap).isSome := by
  unfold add
  by_cases hfull : s.num_entries ≤ s.active_set.length
  · have hne : s.active_set ≠ [] := by
      intro hnil
      rw [hnil, List.length_nil] at hfull
      omega
    obtain ⟨r, hr⟩ := Option.isSome_iff_exists.mp (evictFromBuffer_isSome hs hne hc)
    simp [hfull, hr]
  · simp [hfull]

/-- Adding a page to the buffer packs at most one page of the buffer. -/
theorem add_heap {lzo : Lzo} {table : P} {heap heap' : Heap P} {s s' : CBuffer P}
    {gain : BitVec 32} (hs : s.Pointed) (h : s.add true lzo table heap = some (gain, heap', s')) :
    s'.num_entries = s.num_entries ∧
      (heap' = heap ∨ ∃ victim ∈ s.pages, ∃ lt savings,
        (heap victim).compress lzo = some (lt, savings) ∧
        heap' = Function.update heap victim lt) := by
  unfold add at h
  by_cases hfull : s.num_entries ≤ s.active_set.length
  · simp only [if_true, if_pos hfull, Option.bind_eq_bind, Option.bind_eq_some_iff] at h
    obtain ⟨⟨gain₁, heap₁, s₁⟩, hevict, heq⟩ := h
    cases heq
    have hne : s.active_set ≠ [] := by
      intro hnil
      rw [evictFromBuffer_nil hnil] at hevict
      cases hevict
    obtain ⟨victim, hv, lt, savings, hc, -, rfl, -, hnum, -⟩ := evictFromBuffer_spec hs hne hevict
    exact ⟨hnum, .inr ⟨victim, hv, lt, savings, hc, rfl⟩⟩
  · simp only [if_true, if_neg hfull, Option.bind_eq_bind, Option.bind_some] at h
    cases h
    exact ⟨rfl, .inl rfl⟩

theorem decompress_sound {lzo : Lzo} {table : P} {heap heap' : Heap P} {s s' : CBuffer P}
    {gain : BitVec 32} {added : List P} (hs : s.Sound heap added)
    (hmem : table ∈ added) (hflag : (heap table).compressed = true)
    (h : s.decompress true lzo table heap = some (gain, heap', s')) :
    s'.Sound heap' added ∧ s'.num_entries = s.num_entries := by
  unfold decompress at h
  simp only [Option.bind_eq_bind, Option.bind_eq_some_iff] at h
  obtain ⟨⟨lt, loss⟩, hd, ⟨gain₁, heap₁, s₁⟩, hadd, heq⟩ := h
  cases heq
  have hnew : table ∉ s.pages := (hs.compressed_iff table hmem).mp hflag
  have hflag' : (Function.update heap table lt table).compressed = false := by
    rw [Function.update_self]
    exact LevelTable.compressed_of_decompress hd
  have hiff : ∀ t ∈ added, t ≠ table →
      ((Function.update heap table lt t).compressed = true ↔ t ∉ s.pages) := by
    intro t ht htt
    rw [Function.update_of_ne htt]
    exact hs.compressed_iff t ht
  obtain ⟨hsound, hnum'⟩ :=
    add_sound hs.toPointed hs.size hs.added_of_mem hiff hnew hflag' hadd
  have hsame : ∀ t, t ∈ table :: added ↔ t ∈ added := by
    intro t
    rw [List.mem_cons]
    exact ⟨fun ht => ht.elim (fun heq => heq ▸ hmem) id, .inr⟩
  exact ⟨⟨hsound.toPointed, hsound.size, fun t ht => (hsame t).mp (hsound.added_of_mem t ht),
    fun t ht => hsound.compressed_iff t ((hsame t).mpr ht)⟩, hnum'⟩

/-- A page of the map can be touched, and that only sets its bit. -/
theorem touch_spec {s : CBuffer P} {heap : Heap P} {added : List P} (hs : s.Sound heap added)
    {table : P} (hmem : table ∈ added) (hflag : (heap table).compressed = false) :
    ∃ s', s.touch true table = some s' ∧ s'.Sound heap added ∧
      s'.num_entries = s.num_entries := by
  have hin : table ∈ s.pages := by
    by_contra hnot
    have := (hs.compressed_iff table hmem).mpr hnot
    rw [hflag] at this
    cases this
  have hbit : ∃ b, s.r_bit table = some b := by
    obtain ⟨e, he, rfl⟩ := List.mem_map.mp hin
    unfold r_bit
    cases hf : s.active_set.find? fun e' => decide (e'.1 = e.1) with
    | none => exact absurd (by simp) (List.find?_eq_none.mp hf e he)
    | some e' => exact ⟨e'.2, rfl⟩
  obtain ⟨b, hb⟩ := hbit
  refine ⟨{ s with active_set := setAt s.active_set table true }, ?_, ?_, rfl⟩
  · simp [touch, hb]
  · have hpages : pages { s with active_set := setAt s.active_set table true } = s.pages :=
      map_fst_setAt _ _ _
    refine ⟨⟨?_, ?_⟩, ?_, ?_, ?_⟩
    · rw [hpages]
      exact hs.sorted
    · intro hne
      rw [hpages]
      apply hs.hand
      intro hnil
      apply hne
      show setAt s.active_set table true = []
      rw [hnil]
      rfl
    · show (setAt s.active_set table true).length ≤ s.num_entries
      rw [setAt, List.length_map]
      exact hs.size
    · rw [hpages]
      exact hs.added_of_mem
    · rw [hpages]
      exact hs.compressed_iff

/-- A touched page was in the map. -/
theorem touch_sound {s s' : CBuffer P} {heap : Heap P} {added : List P}
    (hs : s.Sound heap added) {table : P} (hmem : table ∈ added)
    (h : s.touch true table = some s') : s'.Sound heap added := by
  have hbit : ∃ b, s.r_bit table = some b := by
    unfold touch at h
    simp only [if_true, Option.bind_eq_bind, Option.bind_eq_some_iff] at h
    obtain ⟨b, hb, -⟩ := h
    exact ⟨b, hb⟩
  have hin : table ∈ s.pages := by
    obtain ⟨b, hb⟩ := hbit
    obtain ⟨e, he, -⟩ := Option.map_eq_some_iff.mp hb
    have heq := List.find?_some he
    rw [decide_eq_true_eq] at heq
    exact heq ▸ List.mem_map_of_mem (List.mem_of_find?_eq_some he)
  have hflag : (heap table).compressed = false := by
    cases hc : (heap table).compressed with
    | false => rfl
    | true => exact absurd hin ((hs.compressed_iff table hmem).mp hc)
  obtain ⟨s₁, hs₁, hsound, -⟩ := touch_spec hs hmem hflag
  rw [hs₁, Option.some.injEq] at h
  exact h ▸ hsound

end CBuffer

/-! ## §5. Runs. -/

/-- The buffer, the level tables, and the addresses of those added so far. -/
structure PageStore (P : Type) where
  buffer : CBuffer P
  heap : Heap P
  added : List P

/-- What happens to the buffer.  Between the calls the accesses write to the
level tables (`modify`). -/
inductive BufferOp (P : Type) where
  | add (table : P)
  | decompress (table : P)
  | touch (table : P)
  | modify (table : P) (lt : LevelTable)

namespace PageStore

open CBuffer

/-- No page has been added. -/
def start (size : ℕ) (heap : Heap P) : PageStore P := ⟨.init size, heap, []⟩

/-- One call to the buffer; `modify` stands for what the shadow memory does to a page between two
calls. -/
def step (lzo : Lzo) (st : PageStore P) : BufferOp P → Option (PageStore P)
  | .add table =>
      (st.buffer.add true lzo table (Function.update st.heap table (.new false))).map
        fun r => ⟨r.2.2, r.2.1, table :: st.added⟩
  | .decompress table =>
      (st.buffer.decompress true lzo table st.heap).map fun r => ⟨r.2.2, r.2.1, st.added⟩
  | .touch table => (st.buffer.touch true table).map fun s => { st with buffer := s }
  | .modify table lt => some { st with heap := Function.update st.heap table lt }

/-- `add` gets a new table, `decompress` a compressed one, `touch` one that was
just added, decompressed or found uncompressed. -/
def Admissible (st : PageStore P) : BufferOp P → Prop
  | .add table => table ∉ st.added
  | .decompress table => table ∈ st.added ∧ (st.heap table).compressed = true
  | .touch table => table ∈ st.added ∧ (st.heap table).compressed = false
  | .modify table lt => table ∈ st.added ∧ lt.compressed = (st.heap table).compressed

/-- The invariant of the runs. -/
def Good (st : PageStore P) : Prop :=
  st.buffer.Sound st.heap st.added ∧ 1 ≤ st.buffer.num_entries

theorem good_start {size : ℕ} (hsize : 1 ≤ size) (heap : Heap P) : (start size heap).Good := by
  refine ⟨⟨⟨List.Pairwise.nil, fun hne => absurd rfl hne⟩, Nat.zero_le _, ?_, ?_⟩, hsize⟩
  · intro t ht
    cases ht
  · intro t ht
    cases ht

/-- **Every call keeps the buffer sound.** -/
theorem Good.step {lzo : Lzo} {st st' : PageStore P} {op : BufferOp P} (hst : st.Good)
    (hop : st.Admissible op) (h : step lzo st op = some st') : st'.Good := by
  obtain ⟨hs, hnum⟩ := hst
  cases op with
  | add table =>
      obtain ⟨⟨gain, heap', s'⟩, hadd, rfl⟩ := Option.map_eq_some_iff.mp h
      have hnew : table ∉ st.buffer.pages := fun hin => hop (hs.added_of_mem table hin)
      have hiff : ∀ t ∈ st.added, t ≠ table →
          ((Function.update st.heap table (.new false) t).compressed = true ↔
            t ∉ st.buffer.pages) := by
        intro t ht htt
        rw [Function.update_of_ne htt]
        exact hs.compressed_iff t ht
      obtain ⟨hs', hnum'⟩ := add_sound hs.toPointed hs.size hs.added_of_mem hiff hnew
        (by rw [Function.update_self]; rfl) hadd
      exact ⟨hs', hnum' ▸ hnum⟩
  | decompress table =>
      obtain ⟨⟨gain, heap', s'⟩, hd, rfl⟩ := Option.map_eq_some_iff.mp h
      obtain ⟨hs', hnum'⟩ := decompress_sound hs hop.1 hop.2 hd
      exact ⟨hs', hnum' ▸ hnum⟩
  | touch table =>
      obtain ⟨s', ht, rfl⟩ := Option.map_eq_some_iff.mp h
      obtain ⟨s₁, ht₁, hs₁, hnum₁⟩ := touch_spec hs hop.1 hop.2
      rw [ht] at ht₁
      cases ht₁
      exact ⟨hs₁, hnum₁ ▸ hnum⟩
  | modify table lt =>
      cases h
      refine ⟨⟨hs.toPointed, hs.size, hs.added_of_mem, ?_⟩, hnum⟩
      intro t ht
      show (Function.update st.heap table lt t).compressed = true ↔ _
      by_cases htt : t = table
      · subst htt
        rw [Function.update_self, hop.2]
        exact hs.compressed_iff t ht
      · rw [Function.update_of_ne htt]
        exact hs.compressed_iff t ht

/-- A call is held up by nothing but the compression of a page of the map or the
decompression of the page it is called with. -/
theorem Good.step_isSome {lzo : Lzo} {st : PageStore P} {op : BufferOp P} (hst : st.Good)
    (hop : st.Admissible op) (hc : ∀ table ∈ st.added, ((st.heap table).compress lzo).isSome)
    (hd : ∀ table, op = .decompress table → ((st.heap table).decompress lzo).isSome) :
    (PageStore.step lzo st op).isSome := by
  obtain ⟨hs, hnum⟩ := hst
  cases op with
  | add table =>
      show (Option.map _ _).isSome
      rw [Option.isSome_map]
      apply add_isSome hs.toPointed hnum
      intro t ht
      have hne : t ≠ table := by
        rintro rfl
        exact hop (hs.added_of_mem t ht)
      rw [Function.update_of_ne hne]
      exact hc t (hs.added_of_mem t ht)
  | decompress table =>
      obtain ⟨⟨lt, loss⟩, hr⟩ := Option.isSome_iff_exists.mp (hd table rfl)
      have hnew : table ∉ st.buffer.pages := (hs.compressed_iff table hop.1).mp hop.2
      have hadd : (st.buffer.add true lzo table (Function.update st.heap table lt)).isSome := by
        apply add_isSome hs.toPointed hnum
        intro t ht
        have hne : t ≠ table := by
          rintro rfl
          exact hnew ht
        rw [Function.update_of_ne hne]
        exact hc t (hs.added_of_mem t ht)
      obtain ⟨r, hr'⟩ := Option.isSome_iff_exists.mp hadd
      simp [PageStore.step, CBuffer.decompress, hr, hr']
  | touch table =>
      obtain ⟨s', hs', -⟩ := touch_spec hs hop.1 hop.2
      simp [PageStore.step, hs']
  | modify table lt => rfl

/-- **The clock is sound in every run**: the hand points into a non-empty map,
the map has at most `num_entries` pages, the pages added are compressed exactly
when they are not in it, `touch` finds the page it is called with, the search
for a victim ends within one lap and one step with a page whose bit was clear,
unless all bits were set, and no call is held up by the buffer itself. -/
theorem clock_sound (lzo : Lzo) {size : ℕ} (hsize : 1 ≤ size) (heap : Heap P)
    {ops : List (BufferOp P)} {st : PageStore P}
    (hok : RunOk (step lzo) Admissible (start size heap) ops)
    (hrun : run (step lzo) (start size heap) ops = some st) :
    st.buffer.Sound st.heap st.added ∧
      (∀ table ∈ st.added, (st.heap table).compressed = false →
        ∃ s', st.buffer.touch true table = some s') ∧
      (st.buffer.active_set ≠ [] → ∃ victim s' steps,
        (∀ fuel, st.buffer.active_set.length < fuel →
          getVictim fuel st.buffer = some (victim, s', steps)) ∧
        steps ≤ st.buffer.active_set.length + 1 ∧
        ((victim, false) ∈ st.buffer.active_set ∨ ∀ e ∈ st.buffer.active_set, e.2 = true)) ∧
      (∀ op, st.Admissible op → (∀ table ∈ st.added, ((st.heap table).compress lzo).isSome) →
        (∀ table, op = .decompress table → ((st.heap table).decompress lzo).isSome) →
        (step lzo st op).isSome) := by
  have hgood : st.Good :=
    run_invariant_of (fun _ _ _ hst hop h => hst.step hop h) (good_start hsize heap) hok hrun
  refine ⟨hgood.1, ?_, ?_, fun op hop hc hd => hgood.step_isSome hop hc hd⟩
  · intro table hmem hflag
    obtain ⟨s', hs', -⟩ := touch_spec hgood.1 hmem hflag
    exact ⟨s', hs'⟩
  · intro hne
    obtain ⟨victim, s', steps, hfound, hsteps, hbit, -⟩ := getVictim_spec hgood.1.toPointed hne
    exact ⟨victim, s', steps, hfound, hsteps, hbit⟩

/-- A buffer for one page after two were added: the first was evicted. -/
def twoPages : PageStore ℕ where
  buffer := ⟨1, [(1, true)], some 1⟩
  heap := Function.update (Function.update (Function.update (fun _ => .new false) 0 (.new false)) 1
    (.new false)) 0 { LevelTable.new false with compressed := true }
  added := [1, 0]

theorem clock_sound_twoPages : twoPages.buffer.Sound twoPages.heap twoPages.added := by
  have hok : RunOk (step Lzo.lzoCopying) Admissible (start 1 fun _ => .new false)
      [.add 0, .add 1] := by
    refine ⟨by simp [Admissible, start], ?_⟩
    rintro _ ⟨⟩
    refine ⟨by simp [Admissible, start], ?_⟩
    rintro _ _
    trivial
  exact (clock_sound Lzo.lzoCopying (Nat.le_refl 1) _ hok
    (show run (step Lzo.lzoCopying) (start 1 fun _ => .new false) [.add 0, .add 1]
      = some twoPages from rfl)).1

end PageStore

end Kremlin.Shadow
