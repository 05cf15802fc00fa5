/-
  Kremlin.Shadow.Accounting — the memory totals are exact.

  What §2 and §3 of `PageAccounts` say about one page is carried to all pages
  and to the runs of the shadow memory.  The counters are 64-bit words; the
  savings and costs of packing reach them as 32-bit `int`s, which are wide
  enough for the change of two pages.
-/
import Kremlin.Shadow.MShadowSkadu
import Kremlin.Shadow.PageAccounts
import Mathlib.Algebra.Order.BigOperators.Group.Finset

namespace Kremlin.Shadow

open Kremlin.Library

variable {P : Type} [LinearOrder P]

/-! ## §1. The totals of the memory. -/

/-- The sum of the `size` fields of the tables of the pages. -/
def liveBytes (pages : List P) (heap : Heap P) : ℕ := ∑ p ∈ pages.toFinset, (heap p).bytes

/-- The number of their tables. -/
def liveTables (pages : List P) (heap : Heap P) : ℕ := ∑ p ∈ pages.toFinset, (heap p).tables

/-- What the counters should read. -/
def totals (pages : List P) (heap : Heap P) : MemStat :=
  ⟨BitVec.ofNat 64 (liveTables pages heap), 0, BitVec.ofNat 64 (liveBytes pages heap)⟩

/-- The pages have 64-bit tables, and packed ones only where they are compressed. -/
def Sized (pages : List P) (heap : Heap P) : Prop :=
  ∀ p ∈ pages, (heap p).Wide ∧ ((heap p).compressed = false → (heap p).Full)

section Totals

variable {pages : List P} {heap heap' heap'' : Heap P} {p : P} {lt : LevelTable}

/-- One page is exchanged. -/
theorem liveBytes_update (heap : Heap P) (lt : LevelTable) (hp : p ∈ pages) :
    liveBytes pages (Function.update heap p lt) + (heap p).bytes
      = liveBytes pages heap + lt.bytes :=
  sum_update LevelTable.bytes heap (List.mem_toFinset.mpr hp) lt

/-- So are its tables. -/
theorem liveTables_update (heap : Heap P) (lt : LevelTable) (hp : p ∈ pages) :
    liveTables pages (Function.update heap p lt) + (heap p).tables
      = liveTables pages heap + lt.tables :=
  sum_update LevelTable.tables heap (List.mem_toFinset.mpr hp) lt

/-- Reports that account for the change of one page account for the change of
the memory. -/
theorem recordAll_totals (hp : p ∈ pages) {es : List MemEvent}
    (h : LevelTable.Accounts es (heap p) lt) :
    (totals pages heap).recordAll es = totals pages (Function.update heap p lt) := by
  have hb := LevelTable.cast_bytes (liveBytes_update heap lt hp)
  have ht := LevelTable.cast_bytes (liveTables_update heap lt hp)
  rw [h]
  unfold LevelTable.moved totals
  apply MemStat.ext
  · show (liveTables pages heap : BitVec 64) + _ = (liveTables pages _ : BitVec 64)
    linear_combination - ht
  · rfl
  · show (liveBytes pages heap : BitVec 64) + _ = (liveBytes pages _ : BitVec 64)
    linear_combination - hb

/-- A new page adds nothing. -/
theorem totals_cons (hp : p ∉ pages) (compressed : Bool) :
    totals (p :: pages) (Function.update heap p (.new compressed)) = totals pages heap := by
  have hkeep : ∀ q ∈ pages.toFinset, Function.update heap p (.new compressed) q = heap q := by
    intro q hq
    apply Function.update_of_ne
    rintro rfl
    exact hp (List.mem_toFinset.mp hq)
  have hnew : p ∉ pages.toFinset := fun hin => hp (List.mem_toFinset.mp hin)
  unfold totals liveTables liveBytes
  rw [List.toFinset_cons, Finset.sum_insert hnew, Finset.sum_insert hnew, Function.update_self,
    LevelTable.tables_new, LevelTable.bytes_new, Nat.zero_add, Nat.zero_add,
    Finset.sum_congr rfl fun q hq => congrArg LevelTable.tables (hkeep q hq),
    Finset.sum_congr rfl fun q hq => congrArg LevelTable.bytes (hkeep q hq)]

/-- The page that is put there is one of the sizes known. -/
theorem Sized.update (h : Sized pages heap) (hwide : lt.Wide)
    (hfull : lt.compressed = false → lt.Full) : Sized pages (Function.update heap p lt) := by
  intro q hq
  by_cases hqp : q = p
  · subst hqp
    rw [Function.update_self]
    exact ⟨hwide, hfull⟩
  · rw [Function.update_of_ne hqp]
    exact h q hq

/-! ## §2. Packing in the memory. -/

/-- From `heap` to `heap'` the tables stay, and take `saved` bytes less. -/
structure Resized (pages : List P) (heap heap' : Heap P) (saved : ℤ) : Prop where
  sized : Sized pages heap'
  bytes : (liveBytes pages heap' : ℤ) + saved = liveBytes pages heap
  tables : liveTables pages heap' = liveTables pages heap

/-- One page after another. -/
theorem Resized.trans {saved saved' : ℤ} (h : Resized pages heap heap' saved)
    (h' : Resized pages heap' heap'' saved') : Resized pages heap heap'' (saved' + saved) :=
  ⟨h'.sized, by rw [← h.bytes, ← h'.bytes]; ring, h'.tables.trans h.tables⟩

/-- What is saved, as an `int`, is what the counter of bytes needs. -/
theorem Resized.record {saved : ℤ} (h : Resized pages heap heap' saved)
    (hlo : -2 ^ 31 ≤ saved) (hhi : saved < 2 ^ 31) :
    (totals pages heap).record (.compression (saved : BitVec 32)) = totals pages heap' := by
  have hcast := congrArg (fun z : ℤ => (z : BitVec 64)) h.bytes
  push_cast at hcast
  show (totals pages heap).decreaseTimeTableMemSize _ = _
  unfold MemStat.decreaseTimeTableMemSize
  rw [MemStat.signExtend_intCast hlo hhi]
  apply MemStat.ext
  · show BitVec.ofNat 64 (liveTables pages heap) = BitVec.ofNat 64 (liveTables pages heap')
    rw [h.tables]
  · rfl
  · show (liveBytes pages heap : BitVec 64) - _ = (liveBytes pages heap' : BitVec 64)
    linear_combination - hcast

/-- A page has at most 4 MiB. -/
theorem bytes_le (h : lt.Wide) : lt.bytes ≤ 2 ^ 22 := by
  have hone : ∀ l ∈ Finset.range LevelTable.MAX_LEVEL, (lt.time_tables l).bytes ≤ 2 ^ 16 := by
    intro l _
    cases hp : lt.time_tables l with
    | table t => exact Nat.le_of_lt (h.size l t hp)
    | null => exact Nat.zero_le _
    | freed => exact Nat.zero_le _
  have hsum := Finset.sum_le_card_nsmul _ _ _ hone
  rw [Finset.card_range, smul_eq_mul] at hsum
  exact hsum

/-- Replacing a page by one with as many tables. -/
theorem Resized.update (hsized : Sized pages heap) (hp : p ∈ pages)
    (htables : lt.tables = (heap p).tables) (hwide : lt.Wide)
    (hfull : lt.compressed = false → lt.Full) :
    Resized pages heap (Function.update heap p lt) ((heap p).bytes - lt.bytes : ℤ) := by
  have hb := liveBytes_update heap lt hp
  have ht := liveTables_update heap lt hp
  refine ⟨hsized.update hwide hfull, ?_, ?_⟩
  · omega
  · omega

/-- Packing a page changes its size by less than 32 bits hold, -/
theorem compress_resized {lzo : Lzo} (hsmall : lzo.Small) (hsized : Sized pages heap)
    (hp : p ∈ pages) (hflag : (heap p).compressed = false) {savings : BitVec 64}
    (h : (heap p).compress lzo = some (lt, savings)) :
    ∃ z : ℤ, Resized pages heap (Function.update heap p lt) z ∧ -2 ^ 22 ≤ z ∧ z ≤ 2 ^ 22 ∧
      savings.setWidth 32 = (z : BitVec 32) := by
  obtain ⟨hwide, hfull⟩ := hsized p hp
  obtain ⟨hsum, htables, hwide'⟩ := LevelTable.compress_gain hsmall hwide (hfull hflag) h
  have hle := bytes_le hwide
  have hle' := bytes_le hwide'
  have hpacked : lt.compressed = false → lt.Full := by
    rw [LevelTable.compressed_of_compress h]
    intro hno
    cases hno
  refine ⟨(heap p).bytes - lt.bytes, Resized.update hsized hp htables hwide' hpacked, ?_, ?_, ?_⟩
  · omega
  · omega
  · have hcast : savings = (((heap p).bytes - lt.bytes : ℤ) : BitVec 64) := by
      push_cast
      exact eq_sub_of_add_eq hsum
    rw [hcast, MemStat.setWidth_intCast]

/-- and so does unpacking. -/
theorem decompress_resized {lzo : Lzo} (hsized : Sized pages heap) (hp : p ∈ pages)
    (hclosed : (heap p).Prefix) {loss : BitVec 64}
    (h : (heap p).decompress lzo = some (lt, loss)) :
    ∃ z : ℤ, Resized pages heap (Function.update heap p lt) (-z) ∧ -2 ^ 22 ≤ z ∧ z ≤ 2 ^ 22 ∧
      loss.setWidth 32 = (z : BitVec 32) := by
  obtain ⟨hwide, -⟩ := hsized p hp
  obtain ⟨hsum, htables, hwide', hfull'⟩ := LevelTable.decompress_cost hwide hclosed h
  have hle := bytes_le hwide
  have hle' := bytes_le hwide'
  refine ⟨lt.bytes - (heap p).bytes, ?_, ?_, ?_, ?_⟩
  · rw [neg_sub]
    exact Resized.update hsized hp htables hwide' fun _ => hfull'
  · omega
  · omega
  · have hcast : loss = ((lt.bytes - (heap p).bytes : ℤ) : BitVec 64) := by
      push_cast
      exact eq_sub_of_add_eq hsum
    rw [hcast, MemStat.setWidth_intCast]

/-- **A page joins the buffer**: at most one other is packed, and what that saves
is returned. -/
theorem add_resized {lzo : Lzo} (hsmall : lzo.Small) (hsized : Sized pages heap)
    {s s' : CBuffer P} (hs : s.Pointed)
    (hactive : ∀ t ∈ s.pages, t ∈ pages ∧ (heap t).compressed = false) {gain : BitVec 32}
    (h : s.add true lzo p heap = some (gain, heap', s')) :
    ∃ z : ℤ, Resized pages heap heap' z ∧ -2 ^ 22 ≤ z ∧ z ≤ 2 ^ 22 ∧ gain = (z : BitVec 32) := by
  unfold CBuffer.add at h
  by_cases hfull : s.num_entries ≤ s.active_set.length
  · simp only [if_true, if_pos hfull, Option.bind_eq_bind, Option.bind_eq_some_iff] at h
    obtain ⟨⟨gain₁, heap₁, s₁⟩, hevict, heq⟩ := h
    cases heq
    have hne : s.active_set ≠ [] := by
      intro hnil
      rw [CBuffer.evictFromBuffer_nil hnil] at hevict
      cases hevict
    obtain ⟨victim, hv, lt, savings, hc, rfl, rfl, -⟩ :=
      CBuffer.evictFromBuffer_spec hs hne hevict
    exact compress_resized hsmall hsized (hactive victim hv).1 (hactive victim hv).2 hc
  · simp only [if_true, if_neg hfull, Option.bind_eq_bind, Option.bind_some] at h
    cases h
    exact ⟨0, ⟨hsized, add_zero _, rfl⟩, by omega, by omega, by simp⟩

end Totals

/-! ## §3. The invariant. -/

namespace MShadowSkadu

/-- **The counters read what they should**, the pages of the segments are those
made so far, and the buffer is sound for them. -/
structure Exact (cfg : ShadowConfig) (s : MShadowSkadu P) : Prop where
  entries : s.entry.length ≤ SPARSE_ENTRIES
  mem_pages : ∀ p, p ∈ s.pages ↔ p ∈ s.allocated
  sized : Sized s.allocated s.heap
  buffer : cfg.compressShadowMem = true → s.compression_buffer.Sound s.heap s.allocated
  stat : s.stat = totals s.allocated s.heap

variable {cfg : ShadowConfig} {s s' : MShadowSkadu P} {p : P}

/-- Nothing is counted, and there is nothing. -/
theorem exact_init (cfg : ShadowConfig) : Exact cfg (init cfg : MShadowSkadu P) where
  entries := Nat.zero_le _
  mem_pages _ := Iff.rfl
  sized _ hp := by cases hp
  buffer _ :=
    { sorted := List.Pairwise.nil
      hand := fun hne => absurd rfl hne
      size := Nat.zero_le _
      added_of_mem := fun _ ht => by cases ht
      compressed_iff := fun _ ht => by cases ht }
  stat := rfl

omit [LinearOrder P] in
/-- The pages are what the segments point to. -/
theorem mem_pages_iff (p : P) : p ∈ s.pages ↔
    ∃ (i : ℕ) (e : SparseTableElement P), s.entry[i]? = some e ∧
      ∃ j < SEGMENT_ENTRIES, e.segTable j = some p := by
  unfold pages
  rw [List.mem_flatMap]
  simp only [List.mem_filterMap, List.mem_range]
  constructor
  · rintro ⟨e, he, hp⟩
    obtain ⟨i, hi⟩ := List.mem_iff_getElem?.mp he
    exact ⟨i, e, hi, hp⟩
  · rintro ⟨i, e, hi, hp⟩
    exact ⟨e, List.mem_of_getElem? hi, hp⟩

theorem segIndex_lt (addr : ℕ) : segIndex addr < SEGMENT_ENTRIES :=
  Nat.lt_succ_of_le Nat.and_le_right

/-- Looking up the segment may append an empty one. -/
theorem getElement_exact {addr i : ℕ} (h : s.Exact cfg)
    (hget : s.getElement addr = some (i, s')) :
    s'.Exact cfg ∧ s'.allocated = s.allocated := by
  unfold getElement at hget
  split at hget
  · cases hget
    exact ⟨h, rfl⟩
  · split at hget
    next hroom =>
      cases hget
      refine ⟨⟨?_, ?_, h.sized, h.buffer, h.stat⟩, rfl⟩
      · rw [List.length_append]
        exact hroom
      · intro p
        rw [← h.mem_pages p]
        show p ∈ List.flatMap _ (s.entry ++ [_]) ↔ _
        have hnone : (List.range SEGMENT_ENTRIES).filterMap (fun _ => (none : Option P)) = [] :=
          List.filterMap_eq_nil_iff.mpr fun _ _ => rfl
        rw [List.flatMap_append, List.flatMap_singleton, hnone, List.append_nil]
        rfl
    next => cases hget

/-- **An operation on one page** that reports what it does. -/
theorem Exact.update (h : s.Exact cfg) (hp : p ∈ s.allocated) {lt : LevelTable}
    {es : List MemEvent} (hes : LevelTable.Accounts es (s.heap p) lt) (hwide : lt.Wide)
    (hfull : (s.heap p).Full → lt.Full) (hflag : lt.compressed = (s.heap p).compressed) :
    Exact cfg { s with
      heap := Function.update s.heap p lt, stat := s.stat.recordAll es } := by
  refine ⟨h.entries, h.mem_pages, ?_, ?_, ?_⟩
  · apply h.sized.update hwide
    intro hplain
    exact hfull ((h.sized p hp).2 (hflag.symm.trans hplain))
  · intro hc
    have hs := h.buffer hc
    refine ⟨hs.toPointed, hs.size, hs.added_of_mem, ?_⟩
    intro t ht
    show (Function.update s.heap p lt t).compressed = true ↔ _
    by_cases htp : t = p
    · subst htp
      rw [Function.update_self, hflag]
      exact hs.compressed_iff t ht
    · rw [Function.update_of_ne htp]
      exact hs.compressed_iff t ht
  · show s.stat.recordAll es = _
    rw [h.stat, recordAll_totals hp hes]

/-- What the pages of the buffer are like. -/
theorem Exact.active (h : s.Exact cfg) (hc : cfg.compressShadowMem = true) :
    ∀ t ∈ s.compression_buffer.pages, t ∈ s.allocated ∧ (s.heap t).compressed = false := by
  intro t ht
  have hs := h.buffer hc
  have hmem := hs.added_of_mem t ht
  refine ⟨hmem, ?_⟩
  cases hflag : (s.heap t).compressed with
  | false => rfl
  | true => exact absurd ht ((hs.compressed_iff t hmem).mp hflag)

/-! ## §4. The steps. -/

omit [LinearOrder P] in
/-- Registering a page where there was none. -/
theorem mem_pages_modify {i : ℕ} {e : SparseTableElement P} {j : ℕ} (he : s.entry[i]? = some e)
    (hj : j < SEGMENT_ENTRIES) (hnull : e.segTable j = none) (fresh q : P) :
    q ∈ pages { s with entry := s.entry.modify i fun e =>
        { e with segTable := Function.update e.segTable j (some fresh) } }
      ↔ q = fresh ∨ q ∈ s.pages := by
  -- the other segments stay
  have hother : ∀ m, i ≠ m → (s.entry.modify i fun e =>
      { e with segTable := Function.update e.segTable j (some fresh) })[m]? = s.entry[m]? := by
    intro m him
    rw [List.getElem?_modify]
    simp only [if_neg him]
    exact id_map _
  -- => in this one a page more
  have hhere : (s.entry.modify i fun e =>
      { e with segTable := Function.update e.segTable j (some fresh) })[i]?
        = some { e with segTable := Function.update e.segTable j (some fresh) } := by
    rw [List.getElem?_modify, he]
    simp only [if_true]
    rfl
  rw [mem_pages_iff, mem_pages_iff]
  constructor
  · rintro ⟨m, e', hm, k, hk, hq⟩
    by_cases him : i = m
    · subst him
      cases hhere.symm.trans hm
      by_cases hkj : k = j
      · subst hkj
        simp only [Function.update_self] at hq
        cases hq
        exact .inl rfl
      · simp only [Function.update_of_ne hkj] at hq
        exact .inr ⟨i, e, he, k, hk, hq⟩
    · exact .inr ⟨m, e', (hother m him).symm.trans hm, k, hk, hq⟩
  · rintro (rfl | ⟨m, e', hm, k, hk, hq⟩)
    · exact ⟨i, _, hhere, j, hj, Function.update_self _ _ _⟩
    · by_cases him : i = m
      · subst him
        cases he.symm.trans hm
        have hkj : k ≠ j := by
          rintro rfl
          rw [hnull] at hq
          cases hq
        exact ⟨i, _, hhere, k, hk, (Function.update_of_ne hkj _ _).trans hq⟩
      · exact ⟨m, e', (hother m him).trans hm, k, hk, hq⟩

variable {lzo : Lzo}

/-- **A new page** is empty; adding it to the buffer may pack another one. -/
theorem newLevelTable_exact (hsmall : lzo.Small) {fresh : P} {i addr : ℕ}
    {e : SparseTableElement P} (h : s.Exact cfg) (hfresh : fresh ∉ s.allocated)
    (he : s.entry[i]? = some e) (hnull : e.segTable (segIndex addr) = none)
    (hnew : s.newLevelTable cfg lzo fresh i addr = some s') :
    s'.Exact cfg ∧ s'.allocated = fresh :: s.allocated := by
  let heap := Function.update s.heap fresh (.new false)
  have hhere : heap fresh = .new false := Function.update_self _ _ _
  have hkeep : ∀ t, t ≠ fresh → heap t = s.heap t := fun t ht => Function.update_of_ne ht _ _
  have hsized : Sized (fresh :: s.allocated) heap := by
    intro q hq
    by_cases hqf : q = fresh
    · rw [hqf, hhere]
      exact ⟨LevelTable.wide_new _, fun _ => LevelTable.full_new _⟩
    · rw [hkeep q hqf]
      exact h.sized q ((List.mem_cons.mp hq).resolve_left hqf)
  have htotals : totals (fresh :: s.allocated) heap = s.stat :=
    (totals_cons hfresh false).trans h.stat.symm
  have hpages : ∀ q, q ∈ pages { s with entry := s.entry.modify i fun e =>
      { e with segTable := Function.update e.segTable (segIndex addr) (some fresh) } }
        ↔ q ∈ fresh :: s.allocated := by
    intro q
    rw [mem_pages_modify he (segIndex_lt addr) hnull, h.mem_pages, List.mem_cons]
  have hentries : (s.entry.modify i fun e =>
      { e with segTable := Function.update e.segTable (segIndex addr) (some fresh) }).length
        ≤ SPARSE_ENTRIES := by
    rw [List.length_modify]
    exact h.entries
  unfold newLevelTable at hnew
  -- the new page may push a page out of the buffer, which is packed first
  by_cases hc : cfg.compressShadowMem = true
  · have hs := h.buffer hc
    simp only [hc, if_true, Option.bind_eq_bind, Option.bind_eq_some_iff] at hnew
    obtain ⟨⟨gain, heap', buffer⟩, hadd, heq⟩ := hnew
    cases heq
    have hnotin : fresh ∉ s.compression_buffer.pages :=
      fun hin => hfresh (hs.added_of_mem fresh hin)
    have hactive : ∀ t ∈ s.compression_buffer.pages,
        t ∈ fresh :: s.allocated ∧ (heap t).compressed = false := by
      intro t ht
      have hne : t ≠ fresh := fun heq => hnotin (heq ▸ ht)
      rw [hkeep t hne]
      exact ⟨List.mem_cons_of_mem _ (h.active hc t ht).1, (h.active hc t ht).2⟩
    obtain ⟨z, hz, hlo, hhi, hgain⟩ := add_resized hsmall hsized hs.toPointed hactive hadd
    obtain ⟨hsound, -⟩ := CBuffer.add_sound hs.toPointed hs.size hs.added_of_mem
      (fun t ht htf => by rw [hkeep t htf]; exact hs.compressed_iff t ht) hnotin
      (show (heap fresh).compressed = false by rw [hhere]; rfl) hadd
    refine ⟨⟨hentries, hpages, hz.sized, fun _ => hsound, ?_⟩, rfl⟩
    show s.stat.record (.compression gain) = _
    rw [hgain, ← htotals]
    exact hz.record (by omega) (by omega)
  · rw [Bool.not_eq_true] at hc
    simp only [hc, Bool.false_eq_true, if_false, Option.bind_eq_bind, Option.bind_some] at hnew
    cases hnew
    refine ⟨⟨hentries, hpages, hsized, ?_, htotals.symm⟩, rfl⟩
    intro hyes
    rw [hc] at hyes
    cases hyes

/-- **A compressed page is collected and unpacked**; adding it to the buffer may
pack another one. -/
theorem decompressLevelTable_exact (hsmall : lzo.Small) {lTable : P} {curr_versions : ℕ → ℕ}
    (h : s.Exact cfg) (hc : cfg.compressShadowMem = true) (hmem : lTable ∈ s.allocated)
    (hflag : (s.heap lTable).compressed = true)
    (hd : s.decompressLevelTable cfg lzo lTable curr_versions = some s') :
    s'.Exact cfg ∧ s'.allocated = s.allocated := by
  let lt := ((s.heap lTable).collectGarbageUnbounded curr_versions).1
  let es := ((s.heap lTable).collectGarbageUnbounded curr_versions).2
  have hwide := (h.sized lTable hmem).1
  have hlt : lt.compressed = (s.heap lTable).compressed :=
    LevelTable.compressed_deleteLevels _ _ _ _
  -- the collection
  let s₁ : MShadowSkadu P :=
    { s with heap := Function.update s.heap lTable lt, stat := s.stat.recordAll es }
  have h₁ : s₁.Exact cfg :=
    h.update hmem (LevelTable.unbounded_accounts hwide curr_versions)
      (hwide.deleteLevels _ _ _) (fun hfull => hfull.deleteLevels _ _ _) hlt
  have hhere : s₁.heap lTable = lt := Function.update_self _ _ _
  unfold decompressLevelTable CBuffer.decompress at hd
  simp only [hc, Option.bind_eq_bind, Option.bind_eq_some_iff] at hd
  obtain ⟨⟨gain, heap', buffer⟩, ⟨⟨lt', loss⟩, hloss, ⟨gain₁, heap₁, buffer₁⟩, hadd, heq⟩, heq'⟩ :=
    hd
  cases heq
  cases heq'
  have hs₁ := h₁.buffer hc
  have hflag₁ : (s₁.heap lTable).compressed = true := by
    rw [hhere, hlt]
    exact hflag
  have hnotin : lTable ∉ s.compression_buffer.pages :=
    (hs₁.compressed_iff lTable hmem).mp hflag₁
  -- the decompression, and the page packed instead
  obtain ⟨z, hz, hlo, hhi, hloss'⟩ := decompress_resized h₁.sized hmem
    (show (s₁.heap lTable).Prefix by
      rw [hhere]
      exact LevelTable.unbounded_prefix _ _) hloss
  have hactive : ∀ t ∈ s.compression_buffer.pages, t ∈ s.allocated ∧
      (Function.update s₁.heap lTable lt' t).compressed = false := by
    intro t ht
    have hne : t ≠ lTable := fun heq => hnotin (heq ▸ ht)
    rw [Function.update_of_ne hne]
    exact h₁.active hc t ht
  obtain ⟨z', hz', hlo', hhi', hgain⟩ :=
    add_resized hsmall hz.sized hs₁.toPointed hactive hadd
  have hdec : s₁.compression_buffer.decompress true lzo lTable s₁.heap
      = some (gain₁ - loss.setWidth 32, heap₁, buffer₁) := by
    unfold CBuffer.decompress
    simp only [Option.bind_eq_bind, Option.bind_eq_some_iff]
    exact ⟨(lt', loss), hloss, (gain₁, heap₁, buffer₁), hadd, rfl⟩
  obtain ⟨hsound, -⟩ := CBuffer.decompress_sound hs₁ hmem hflag₁ hdec
  have hboth := hz.trans hz'
  refine ⟨⟨h.entries, h.mem_pages, hboth.sized, fun _ => hsound, ?_⟩, rfl⟩
  show s₁.stat.record (.compression (gain₁ - loss.setWidth 32)) = _
  have hcast : gain₁ - loss.setWidth 32 = ((z' + -z : ℤ) : BitVec 32) := by
    rw [hgain, hloss']
    push_cast
    ring
  rw [hcast, h₁.stat]
  exact hboth.record (by omega) (by omega)

/-- The end of `getLevelTable`. -/
theorem unpacked_exact (hsmall : lzo.Small) {table lTable : P} {curr_versions : ℕ → ℕ}
    (h : s.Exact cfg) (hmem : table ∈ s.allocated)
    (hget : (if cfg.compressShadowMem ∧ (s.heap table).compressed then
      (s.decompressLevelTable cfg lzo table curr_versions).map fun s => (table, s)
      else some (table, s)) = some (lTable, s')) :
    s'.Exact cfg ∧ lTable ∈ s'.allocated := by
  by_cases hcomp : cfg.compressShadowMem = true ∧ (s.heap table).compressed = true
  · rw [if_pos hcomp] at hget
    obtain ⟨s₃, hd, heq⟩ := Option.map_eq_some_iff.mp hget
    cases heq
    obtain ⟨hexact, halloc⟩ := decompressLevelTable_exact hsmall h hcomp.1 hmem hcomp.2 hd
    exact ⟨hexact, halloc ▸ hmem⟩
  · rw [if_neg hcomp] at hget
    cases hget
    exact ⟨h, hmem⟩

theorem getLevelTable_exact (hsmall : lzo.Small) {fresh lTable : P} {addr : ℕ}
    {curr_versions : ℕ → ℕ} (h : s.Exact cfg) (hfresh : fresh ∉ s.allocated)
    (hget : s.getLevelTable cfg lzo fresh addr curr_versions = some (lTable, s')) :
    s'.Exact cfg ∧ lTable ∈ s'.allocated := by
  unfold getLevelTable at hget
  simp only [Option.bind_eq_bind, Option.bind_eq_some_iff] at hget
  obtain ⟨⟨i, s₁⟩, helem, e, he, hrest⟩ := hget
  obtain ⟨h₁, halloc₁⟩ := getElement_exact h helem
  cases hp : e.segTable (segIndex addr) with
  | some old =>
      rw [hp] at hrest
      have hold : old ∈ s₁.allocated :=
        (h₁.mem_pages _).mp ((mem_pages_iff _).mpr ⟨i, e, he, segIndex addr, segIndex_lt addr, hp⟩)
      exact unpacked_exact hsmall h₁ hold hrest
  | none =>
      rw [hp] at hrest
      obtain ⟨⟨table, s₂⟩, hmap, hlast⟩ := Option.bind_eq_some_iff.mp hrest
      obtain ⟨s₃, hnew, heq⟩ := Option.map_eq_some_iff.mp hmap
      cases heq
      obtain ⟨h₂, halloc⟩ := newLevelTable_exact hsmall h₁ (halloc₁ ▸ hfresh) he hp hnew
      exact unpacked_exact hsmall h₂ (halloc ▸ List.mem_cons_self) hlast

theorem touch_exact {lTable : P} (h : s.Exact cfg) (hmem : lTable ∈ s.allocated)
    (ht : s.touch cfg lTable = some s') : s'.Exact cfg := by
  unfold touch at ht
  by_cases hc : cfg.compressShadowMem = true
  · simp only [hc, if_true] at ht
    obtain ⟨buffer, hb, rfl⟩ := Option.map_eq_some_iff.mp ht
    exact ⟨h.entries, h.mem_pages, h.sized,
      fun _ => CBuffer.touch_sound (h.buffer hc) hmem hb, h.stat⟩
  · rw [if_neg hc] at ht
    cases ht
    exact h

theorem fetch_exact (hsmall : lzo.Small) {fresh : P} {addr size : ℕ} {curr_versions : ℕ → ℕ}
    {times : List Time} (h : s.Exact cfg) (hfresh : fresh ∉ s.allocated)
    (hf : s.fetch cfg lzo fresh addr size curr_versions = some (times, s')) :
    s'.Exact cfg := by
  unfold fetch at hf
  simp only [Option.bind_eq_bind, Option.bind_eq_some_iff] at hf
  obtain ⟨⟨lTable, s₁⟩, hget, ts, -, s₂, ht, heq⟩ := hf
  cases heq
  obtain ⟨h₁, hmem⟩ := getLevelTable_exact hsmall h hfresh hget
  exact touch_exact h₁ hmem ht

/-- Writing `n` levels of a page. -/
theorem writeLevels_accounts {stopAtZero : Bool} {addr : ℕ} {curr_versions : ℕ → ℕ}
    {times : ℕ → Time} {n i : ℕ} {lt lt' : LevelTable} {es : List MemEvent}
    (hn : i + n ≤ LevelTable.MAX_LEVEL) (hwide : lt.Wide)
    (h : writeLevels stopAtZero addr curr_versions times n i lt = some (lt', es)) :
    LevelTable.Accounts es lt lt' ∧ lt'.Wide ∧ (lt.Full → lt'.Full) ∧
      lt'.compressed = lt.compressed := by
  induction n generalizing lt i es with
  | zero =>
      cases h
      exact ⟨LevelTable.Accounts.of_eq rfl rfl, hwide, id, rfl⟩
  | succ n ih =>
      unfold writeLevels at h
      by_cases hstop : stopAtZero = true ∧ times i = 0
      · rw [if_pos hstop] at h
        cases h
        exact ⟨LevelTable.Accounts.of_eq rfl rfl, hwide, id, rfl⟩
      · rw [if_neg hstop] at h
        simp only [Option.bind_eq_bind, Option.bind_eq_some_iff] at h
        obtain ⟨⟨lt₁, es₁⟩, hone, ⟨lt₂, es₂⟩, hrest, heq⟩ := h
        cases heq
        obtain ⟨hacc, hwide₁, hfull₁⟩ :=
          LevelTable.setTime_accounts (show i < LevelTable.MAX_LEVEL by omega) hwide hone
        obtain ⟨hacc', hwide', hfull', hflag'⟩ := ih (by omega) hwide₁ hrest
        exact ⟨hacc.trans hacc', hwide', fun hf => hfull' (hfull₁ hf),
          hflag'.trans (LevelTable.compressed_of_set hone)⟩

theorem store_exact (hsmall : lzo.Small) {stopAtZero : Bool} {fresh : P} {addr size : ℕ}
    {curr_versions : ℕ → ℕ} {times : ℕ → Time} (h : s.Exact cfg) (hfresh : fresh ∉ s.allocated)
    (hsize : size ≤ LevelTable.MAX_LEVEL)
    (hs : s.store stopAtZero cfg lzo fresh addr size curr_versions times = some s') :
    s'.Exact cfg := by
  unfold store at hs
  simp only [Option.bind_eq_bind, Option.bind_eq_some_iff] at hs
  obtain ⟨⟨lTable, s₁⟩, hget, ⟨lt, es⟩, hwrite, ht⟩ := hs
  obtain ⟨h₁, hmem⟩ := getLevelTable_exact hsmall h hfresh hget
  obtain ⟨hacc, hwide, hfull, hflag⟩ :=
    writeLevels_accounts (by omega) (h₁.sized lTable hmem).1 hwrite
  have h₂ := h₁.update hmem hacc hwide hfull hflag
  exact touch_exact h₂ hmem ht

/-- Collecting the garbage of some pages. -/
theorem foldl_collectPage_exact (curr_versions : ℕ → ℕ) {size : ℕ}
    (hsize : size ≤ LevelTable.MAX_LEVEL) {ps : List P} (h : s.Exact cfg)
    (hps : ∀ p ∈ ps, p ∈ s.allocated) :
    (ps.foldl (collectPage curr_versions size) s).Exact cfg ∧
      (ps.foldl (collectPage curr_versions size) s).allocated = s.allocated := by
  induction ps generalizing s with
  | nil => exact ⟨h, rfl⟩
  | cons p ps ih =>
      have hmem := hps p List.mem_cons_self
      have hwide := (h.sized p hmem).1
      have hone : (collectPage curr_versions size s p).Exact cfg := by
        apply h.update hmem (LevelTable.withinBounds_accounts hwide curr_versions hsize)
        · exact (hwide.deleteLevels _ _ _).deleteLevels _ _ _
        · exact fun hfull => (hfull.deleteLevels _ _ _).deleteLevels _ _ _
        · exact (LevelTable.compressed_deleteLevels _ _ _ _).trans
            (LevelTable.compressed_deleteLevels _ _ _ _)
      exact ih hone fun q hq => hps q (List.mem_cons_of_mem _ hq)

theorem collectGarbage_exact (curr_versions : ℕ → ℕ) {size : ℕ}
    (hsize : size ≤ LevelTable.MAX_LEVEL) (h : s.Exact cfg) :
    (s.collectGarbage cfg curr_versions size).Exact cfg ∧
      (s.collectGarbage cfg curr_versions size).allocated = s.allocated := by
  unfold collectGarbage
  split
  · obtain ⟨hrun, halloc⟩ := foldl_collectPage_exact curr_versions hsize h
      fun p hp => (h.mem_pages p).mp hp
    exact ⟨⟨hrun.entries, hrun.mem_pages, hrun.sized, hrun.buffer, hrun.stat⟩, halloc⟩
  · exact ⟨h, rfl⟩

/-! ## §5. Runs. -/

/-- A call `SkaduCache` makes. -/
inductive CacheCall (P : Type) where
  | fetch (fresh : P) (addr size : ℕ) (curr_versions : ℕ → ℕ)
  | evict (fresh : P) (addr size : ℕ) (curr_versions : ℕ → ℕ) (new_timestamps : ℕ → Time)

/-- An access.  Those through `SkaduCache` come with the calls it makes, which
may be any. -/
inductive ShadowOp (P : Type) where
  | get (fresh : P) (addr size : ℕ) (curr_versions : ℕ → ℕ)
  | set (fresh : P) (addr size : ℕ) (curr_versions : ℕ → ℕ) (timestamps : ℕ → Time)
  | cachedGet (calls : List (CacheCall P))
  | cachedSet (size : ℕ) (curr_versions : ℕ → ℕ) (calls : List (CacheCall P))

/-- One access of the tag cache to the pages below it. -/
def call (cfg : ShadowConfig) (lzo : Lzo) (s : MShadowSkadu P) :
    CacheCall P → Option (MShadowSkadu P)
  | .fetch fresh addr size curr_versions =>
      (s.fetch cfg lzo fresh addr size curr_versions).map Prod.snd
  | .evict fresh addr size curr_versions new_timestamps =>
      s.evict cfg lzo fresh addr size curr_versions new_timestamps

/-- One operation of the shadow memory; a cached one is the list of the accesses it makes. -/
def step (cfg : ShadowConfig) (lzo : Lzo) (s : MShadowSkadu P) :
    ShadowOp P → Option (MShadowSkadu P)
  | .get fresh addr size curr_versions =>
      (s.get cfg lzo fresh addr size curr_versions).map Prod.snd
  | .set fresh addr size curr_versions timestamps =>
      s.set cfg lzo fresh addr size curr_versions timestamps
  | .cachedGet calls => run (call cfg lzo) s calls
  | .cachedSet size curr_versions calls =>
      if size < 1 then some s
      else run (call cfg lzo) (s.collectGarbage cfg curr_versions size) calls

/-- A new page is not in use, and no level is beyond the last. -/
def CallOk (s : MShadowSkadu P) : CacheCall P → Prop
  | .fetch fresh _ _ _ => fresh ∉ s.allocated
  | .evict fresh _ size _ _ => fresh ∉ s.allocated ∧ size ≤ LevelTable.MAX_LEVEL

/-- New pages are new, and no more levels are asked for than a page has. -/
def Admissible (cfg : ShadowConfig) (lzo : Lzo) (s : MShadowSkadu P) : ShadowOp P → Prop
  | .get fresh _ _ _ => fresh ∉ s.allocated
  | .set fresh _ size _ _ => fresh ∉ s.allocated ∧ size ≤ LevelTable.MAX_LEVEL
  | .cachedGet calls => RunOk (call cfg lzo) CallOk s calls
  | .cachedSet size curr_versions calls => size ≤ LevelTable.MAX_LEVEL ∧
      RunOk (call cfg lzo) CallOk (s.collectGarbage cfg curr_versions size) calls

theorem call_exact (hsmall : lzo.Small) {c : CacheCall P} (h : s.Exact cfg) (hc : s.CallOk c)
    (hs : call cfg lzo s c = some s') : s'.Exact cfg := by
  cases c with
  | fetch fresh addr size curr_versions =>
      obtain ⟨⟨times, s₁⟩, hf, rfl⟩ := Option.map_eq_some_iff.mp hs
      exact fetch_exact hsmall h hc hf
  | evict fresh addr size curr_versions new_timestamps =>
      exact store_exact hsmall h hc.1 hc.2 hs

theorem calls_exact (hsmall : lzo.Small) {calls : List (CacheCall P)} (h : s.Exact cfg)
    (hok : RunOk (call cfg lzo) CallOk s calls) (hs : run (call cfg lzo) s calls = some s') :
    s'.Exact cfg :=
  run_invariant_of (fun _ _ _ hinv hc hcall => call_exact hsmall hinv hc hcall) h hok hs

/-- **Every access keeps the counters exact.** -/
theorem Exact.step (hsmall : lzo.Small) {op : ShadowOp P} (h : s.Exact cfg)
    (hop : s.Admissible cfg lzo op) (hs : step cfg lzo s op = some s') : s'.Exact cfg := by
  cases op with
  | get fresh addr size curr_versions =>
      obtain ⟨⟨times, s₁⟩, hg, rfl⟩ := Option.map_eq_some_iff.mp hs
      unfold get at hg
      split at hg
      · cases hg
        exact h
      · exact fetch_exact hsmall h hop hg
  | set fresh addr size curr_versions timestamps =>
      replace hs : s.set cfg lzo fresh addr size curr_versions timestamps = some s' := hs
      unfold set at hs
      split at hs
      · cases hs
        exact h
      · obtain ⟨hgc, halloc⟩ := collectGarbage_exact curr_versions hop.2 h
        exact store_exact hsmall hgc (halloc ▸ hop.1) hop.2 hs
  | cachedGet calls => exact calls_exact hsmall h hop hs
  | cachedSet size curr_versions calls =>
      replace hs : (if size < 1 then some s
        else run (call cfg lzo) (s.collectGarbage cfg curr_versions size) calls) = some s' := hs
      split at hs
      · cases hs
        exact h
      · obtain ⟨hgc, -⟩ := collectGarbage_exact curr_versions hop.1 h
        exact calls_exact hsmall hgc hop.2 hs

/-- There is room for the number of tables in a word: 32 segments of `2 ^ 20`
pages of 64 levels. -/
theorem Exact.liveTables_lt (h : s.Exact cfg) : liveTables s.allocated s.heap < 2 ^ 64 := by
  have hpage : ∀ lt : LevelTable, lt.tables ≤ LevelTable.MAX_LEVEL := by
    intro lt
    have hone : ∀ l ∈ Finset.range LevelTable.MAX_LEVEL, (lt.time_tables l).tables ≤ 1 := by
      intro l _
      cases lt.time_tables l with
      | table t => exact Nat.le_refl 1
      | null => exact Nat.zero_le 1
      | freed => exact Nat.zero_le 1
    have hsum := Finset.sum_le_card_nsmul _ _ _ hone
    rw [Finset.card_range, smul_eq_mul, Nat.mul_one] at hsum
    exact hsum
  have hsegments : ∀ l : List (SparseTableElement P),
      (l.flatMap fun e => (List.range SEGMENT_ENTRIES).filterMap e.segTable).length
        ≤ l.length * SEGMENT_ENTRIES := by
    intro l
    induction l with
    | nil => exact Nat.zero_le _
    | cons e l ih =>
        have hseg := List.length_filterMap_le e.segTable (List.range SEGMENT_ENTRIES)
        rw [List.length_range] at hseg
        rw [List.flatMap_cons, List.length_append, List.length_cons, Nat.succ_mul]
        omega
  have hcard : s.allocated.toFinset.card ≤ SPARSE_ENTRIES * SEGMENT_ENTRIES := by
    calc s.allocated.toFinset.card
        ≤ s.pages.toFinset.card := Finset.card_le_card fun p hp =>
          List.mem_toFinset.mpr ((h.mem_pages p).mpr (List.mem_toFinset.mp hp))
      _ ≤ s.pages.length := List.toFinset_card_le _
      _ ≤ s.entry.length * SEGMENT_ENTRIES := hsegments _
      _ ≤ SPARSE_ENTRIES * SEGMENT_ENTRIES := Nat.mul_le_mul_right _ h.entries
  have hsum : liveTables s.allocated s.heap ≤ s.allocated.toFinset.card • LevelTable.MAX_LEVEL :=
    Finset.sum_le_card_nsmul _ _ _ fun p _ => hpage (s.heap p)
  calc liveTables s.allocated s.heap
      ≤ s.allocated.toFinset.card * LevelTable.MAX_LEVEL := hsum
    _ ≤ SPARSE_ENTRIES * SEGMENT_ENTRIES * LevelTable.MAX_LEVEL := Nat.mul_le_mul_right _ hcard
    _ < 2 ^ 64 := by decide

/-- **Memory accounting is exact in every run**, whatever LZO makes of a buffer:
the bytes counted are the sizes of the live tables, modulo `2 ^ 64`, and the
tables counted are the live ones. -/
theorem accounting_exact (cfg : ShadowConfig) {lzo : Lzo} (hsmall : lzo.Small)
    {ops : List (ShadowOp P)} {s : MShadowSkadu P}
    (hok : RunOk (step cfg lzo) (Admissible cfg lzo) (init cfg) ops)
    (hrun : run (step cfg lzo) (init cfg) ops = some s) :
    s.stat.timeTableOverhead.toNat = liveBytes s.allocated s.heap % 2 ^ 64 ∧
      s.stat.getActiveTimeTableSize.toNat = liveTables s.allocated s.heap := by
  have h : s.Exact cfg :=
    run_invariant_of (fun _ _ _ hinv hop hs => hinv.step hsmall hop hs) (exact_init cfg) hok hrun
  rw [h.stat]
  constructor
  · exact BitVec.toNat_ofNat _ _
  · show (BitVec.ofNat 64 (liveTables s.allocated s.heap) + 0#64).toNat = _
    rw [BitVec.add_zero, BitVec.toNat_ofNat, Nat.mod_eq_of_lt h.liveTables_lt]

end MShadowSkadu

end Kremlin.Shadow
