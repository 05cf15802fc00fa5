/-
  Kremlin.Shadow.SkaduRuns — an access to the shadow memory refines a map.

  The reference map has one entry for each 8-byte word and level, with the
  version it was written under.  The memory keeps these times in pages, and one
  version for a whole page and level; it drops tables when it collects garbage
  and packs pages when the compression buffer is full.  A packed page is found
  again only if none of its arrays was packed into more bytes than its chunk has.

  Main results:
    * `getLevelTable_refines` — finding a page for an access makes, unpacks and
      packs pages, and changes nothing that can be read;
    * `Refines.get`, `Refines.set` — an access can be made, reads what the map
      holds and stores what the map stores;
    * `Refines.unpacks`, `Refines.intact` — every page can be unpacked as long as none
      was overrun, and none is where outputs are never longer than arrays.
-/
import Kremlin.Shadow.Accounting
import Kremlin.Shadow.SkaduPages
import Kremlin.Shadow.SkaduSegments

namespace Kremlin.Shadow

open Kremlin.Library

variable {P : Type} [LinearOrder P]

namespace MShadowSkadu

/-! ## §1. The invariant. -/

/-- The pages found by their addresses hold the times of the reference map; a
page not made yet would hold none. -/
structure Contents (lzo : Lzo) (a : ActiveLevels) (ref : VersionedMap ℕ) (pageOf : P → ℕ)
    (s : MShadowSkadu P) : Prop where
  found : ∀ addr p, pageAt s.entry addr = some p ↔
    p ∈ s.allocated ∧ pageOf p = TimeTable.page addr
  missing : ∀ addr, pageAt s.entry addr = none → ∀ l < a.levels, l < LevelTable.MAX_LEVEL →
    ref.view a.versions (addr / 8) l = 0
  stored : ∀ p ∈ s.allocated, LevelTable.Stored lzo a ref (pageOf p) (s.heap p)

/-- **The memory refines the reference map.** -/
structure Refines (cfg : ShadowConfig) (lzo : Lzo) (hs : Finset ℕ) (a : ActiveLevels)
    (ref : VersionedMap ℕ) (s : MShadowSkadu P) : Prop where
  counted : s.Exact cfg
  room : cfg.compressShadowMem = true → 1 ≤ s.compression_buffer.num_entries ∧
    s.compression_buffer.num_entries = cfg.num_compression_buffer_entries
  flat : cfg.compressShadowMem = false → ∀ p ∈ s.allocated, (s.heap p).compressed = false
  segmented : Segmented hs s.entry
  contents : ∃ pageOf, Contents lzo a ref pageOf s

variable {cfg : ShadowConfig} {lzo : Lzo} {hs : Finset ℕ} {a : ActiveLevels}
  {ref : VersionedMap ℕ} {s s' : MShadowSkadu P}

theorem refines_init (lzo : Lzo) (hs : Finset ℕ)
    (hbuffer : cfg.compressShadowMem = true → 1 ≤ cfg.num_compression_buffer_entries) :
    Refines cfg lzo hs .start .empty (init cfg : MShadowSkadu P) := by
  refine ⟨exact_init cfg, fun hc => ⟨hbuffer hc, rfl⟩, ?_, keyed_nil _ hs, fun _ => 0, ?_, ?_, ?_⟩
  · intro _ p hp
    cases hp
  · intro addr p
    constructor
    · intro hp
      cases hp
    · intro hp
      cases hp.1
  · intro _ _ l hl
    exact absurd hl (Nat.not_lt_zero l)
  · intro p hp
    cases hp

/-- **A region is entered.** -/
theorem Refines.enter (h : Refines cfg lzo hs a ref s) (hbelow : ref.Below a.next) {version : ℕ}
    (hnew : a.next ≤ version) : Refines cfg lzo hs (a.enter version) ref s := by
  obtain ⟨pageOf, hfound, hmissing, hstored⟩ := h.contents
  refine ⟨h.counted, h.room, h.flat, h.segmented, pageOf, hfound, ?_, ?_⟩
  · intro addr hnone l hl hmax
    rw [ActiveLevels.view_enter hbelow hnew _ hl]
    split
    next hold => exact hmissing addr hnone l hold hmax
    next => rfl
  · intro p hp
    exact (hstored p hp).enter hbelow hnew

/-- **A region is left.** -/
theorem Refines.exit (h : Refines cfg lzo hs a ref s) : Refines cfg lzo hs a.exit ref s := by
  obtain ⟨pageOf, hfound, hmissing, hstored⟩ := h.contents
  refine ⟨h.counted, h.room, h.flat, h.segmented, pageOf, hfound, ?_, ?_⟩
  · intro addr hnone l hl
    exact hmissing addr hnone l (Nat.lt_of_lt_of_le hl (Nat.sub_le _ _))
  · intro p hp
    exact (hstored p hp).exit

/-- Changing one page. -/
theorem Contents.update {pageOf : P → ℕ} {heap : Heap P} {pages : List P} {p : P}
    (h : ∀ q ∈ pages, LevelTable.Stored lzo a ref (pageOf q) (heap q)) {lt : LevelTable}
    (hlt : LevelTable.Stored lzo a ref (pageOf p) lt) :
    ∀ q ∈ pages, LevelTable.Stored lzo a ref (pageOf q) (Function.update heap p lt q) := by
  intro q hq
  by_cases hqp : q = p
  · subst hqp
    rw [Function.update_self]
    exact hlt
  · rw [Function.update_of_ne hqp]
    exact h q hq

/-- **A page joins the buffer**: all pages hold what they held, and those that
were not in the buffer are as they were. -/
theorem add_stored {pageOf : P → ℕ} {heap : Heap P} {pages : List P} {buffer : CBuffer P}
    (hb : buffer.Pointed) (hroom : 1 ≤ buffer.num_entries)
    (hactive : ∀ t ∈ buffer.pages, t ∈ pages ∧ (heap t).compressed = false)
    (h : ∀ q ∈ pages, LevelTable.Stored lzo a ref (pageOf q) (heap q)) (table : P) :
    ∃ gain heap' buffer', buffer.add true lzo table heap = some (gain, heap', buffer') ∧
      buffer'.num_entries = buffer.num_entries ∧
      (∀ q ∈ pages, LevelTable.Stored lzo a ref (pageOf q) (heap' q)) ∧
      ∀ q, q ∉ buffer.pages → heap' q = heap q := by
  have hpack : ∀ t ∈ buffer.pages, ∃ lt savings, (heap t).compress lzo = some (lt, savings) ∧
      LevelTable.Stored lzo a ref (pageOf t) lt :=
    fun t ht => (h t (hactive t ht).1).compress (hactive t ht).2
  have hsome : (buffer.add true lzo table heap).isSome := by
    apply CBuffer.add_isSome hb hroom
    intro t ht
    obtain ⟨lt, savings, hc, -⟩ := hpack t ht
    rw [hc]
    rfl
  obtain ⟨⟨gain, heap', buffer'⟩, hadd⟩ := Option.isSome_iff_exists.mp hsome
  obtain ⟨hnum, hheap⟩ := CBuffer.add_heap hb hadd
  refine ⟨gain, heap', buffer', hadd, hnum, ?_⟩
  rcases hheap with rfl | ⟨victim, hv, lt, savings, hc, rfl⟩
  · exact ⟨h, fun _ _ => rfl⟩
  · obtain ⟨lt', savings', hc', hstored⟩ := hpack victim hv
    rw [hc] at hc'
    cases hc'
    refine ⟨Contents.update h hstored, ?_⟩
    intro q hq
    apply Function.update_of_ne
    intro heq
    exact hq (heq ▸ hv)

/-! ## §2. Making and unpacking pages. -/

/-- The pages with a new one among them. -/
theorem Contents.stored_new {pageOf : P → ℕ} (h : Contents lzo a ref pageOf s) {fresh : P}
    {addr : ℕ} (hnone : pageAt s.entry addr = none) :
    ∀ q ∈ fresh :: s.allocated,
      LevelTable.Stored lzo a ref (Function.update pageOf fresh (TimeTable.page addr) q)
        (Function.update s.heap fresh (.new false) q) := by
  intro q hq
  by_cases hqf : q = fresh
  · subst hqf
    rw [Function.update_self, Function.update_self]
    apply LevelTable.stored_new
    intro a' ha' l hl hmax
    exact h.missing a' ((pageAt_congr s.entry ha').trans hnone) l hl hmax
  · rw [Function.update_of_ne hqf, Function.update_of_ne hqf]
    exact h.stored q ((List.mem_cons.mp hq).resolve_left hqf)

/-- **A page is registered** where there was none. -/
theorem Contents.register {pageOf : P → ℕ} (h : Contents lzo a ref pageOf s) {fresh : P}
    (hfresh : fresh ∉ s.allocated) {addr : ℕ} (hnone : pageAt s.entry addr = none)
    (hentry : ∀ a', pageAt s'.entry a'
      = if TimeTable.page a' = TimeTable.page addr then some fresh else pageAt s.entry a')
    (halloc : s'.allocated = fresh :: s.allocated)
    (hstored : ∀ q ∈ fresh :: s.allocated,
      LevelTable.Stored lzo a ref (Function.update pageOf fresh (TimeTable.page addr) q)
        (s'.heap q)) :
    Contents lzo a ref (Function.update pageOf fresh (TimeTable.page addr)) s' := by
  refine ⟨?_, ?_, halloc ▸ hstored⟩
  · intro a' p
    rw [hentry, halloc, List.mem_cons]
    by_cases hpf : p = fresh
    · subst hpf
      have hold : pageAt s.entry a' ≠ some p := fun hin => hfresh ((h.found a' p).mp hin).1
      rw [Function.update_self, and_iff_right (.inl rfl)]
      by_cases hpage : TimeTable.page a' = TimeTable.page addr
      · rw [if_pos hpage]
        exact iff_of_true rfl hpage.symm
      · rw [if_neg hpage]
        exact iff_of_false hold fun heq => hpage heq.symm
    · rw [Function.update_of_ne hpf, or_iff_right hpf, ← h.found a' p]
      by_cases hpage : TimeTable.page a' = TimeTable.page addr
      · rw [if_pos hpage, (pageAt_congr s.entry hpage).trans hnone]
        refine iff_of_false ?_ (by simp)
        intro heq
        cases heq
        exact hpf rfl
      · rw [if_neg hpage]
  · intro a' hp
    rw [hentry] at hp
    split at hp
    · cases hp
    · exact h.missing a' hp

/-- What the buffer makes of the heap when a page is made. -/
theorem newLevelTable_heap (h : Refines cfg lzo hs a ref s) {pageOf : P → ℕ} {fresh : P}
    (hfresh : fresh ∉ s.allocated)
    (hstored : ∀ q ∈ fresh :: s.allocated,
      LevelTable.Stored lzo a ref (pageOf q) (Function.update s.heap fresh (.new false) q))
    (i addr : ℕ) :
    ∃ s', s.newLevelTable cfg lzo fresh i addr = some s' ∧
      s'.entry = (s.entry.modify i fun e =>
        { e with segTable := Function.update e.segTable (segIndex addr) (some fresh) }) ∧
      (cfg.compressShadowMem = true → 1 ≤ s'.compression_buffer.num_entries ∧
        s'.compression_buffer.num_entries = cfg.num_compression_buffer_entries) ∧
      (cfg.compressShadowMem = false → ∀ q ∈ fresh :: s.allocated,
        (s'.heap q).compressed = false) ∧ (s'.heap fresh).compressed = false ∧
      ∀ q ∈ fresh :: s.allocated, LevelTable.Stored lzo a ref (pageOf q) (s'.heap q) := by
  unfold newLevelTable
  by_cases hc : cfg.compressShadowMem = true
  · have hbuffer := h.counted.buffer hc
    -- the buffer may pack another page; the new one is not in it yet
    have hnotin : fresh ∉ s.compression_buffer.pages :=
      fun hin => hfresh (hbuffer.added_of_mem fresh hin)
    have hactive : ∀ t ∈ s.compression_buffer.pages, t ∈ fresh :: s.allocated ∧
        (Function.update s.heap fresh (.new false) t).compressed = false := by
      intro t ht
      have hne : t ≠ fresh := fun heq => hnotin (heq ▸ ht)
      obtain ⟨hmem, hflag⟩ := h.counted.active hc t ht
      rw [Function.update_of_ne hne]
      exact ⟨List.mem_cons_of_mem _ hmem, hflag⟩
    obtain ⟨gain, heap', buffer', hadd, hnum, hheap', hkeep⟩ :=
      add_stored hbuffer.toPointed (h.room hc).1 hactive hstored fresh
    simp only [hc, if_true, hadd, Option.bind_eq_bind, Option.bind_some]
    refine ⟨_, rfl, rfl, fun _ => hnum ▸ h.room hc, ?_, ?_, hheap'⟩
    · intro hno
      cases hno
    · show (heap' fresh).compressed = false
      rw [hkeep fresh hnotin, Function.update_self]
      rfl
  · rw [Bool.not_eq_true] at hc
    simp only [hc, Bool.false_eq_true, if_false, Option.bind_eq_bind, Option.bind_some]
    refine ⟨_, rfl, rfl, ?_, ?_, ?_, hstored⟩
    · intro hyes
      cases hyes
    · intro _ q hq
      show (Function.update s.heap fresh _ q).compressed = false
      rw [Function.update_apply]
      split
      · rfl
      next hne => exact h.flat hc q ((List.mem_cons.mp hq).resolve_left hne)
    · show (Function.update s.heap fresh _ fresh).compressed = false
      rw [Function.update_self]
      rfl

/-- **A page is made** where there was none. -/
theorem newLevelTable_refines (hsmall : lzo.Small) (h : Refines cfg lzo hs a ref s) {fresh : P}
    (hfresh : fresh ∉ s.allocated) {addr : ℕ} {pre post : List (SparseTableElement P)}
    {e : SparseTableElement P} (hentry : s.entry = pre ++ e :: post)
    (hhigh : e.addrHigh = addrHigh addr) (hpre : ∀ x ∈ pre, x.addrHigh ≠ e.addrHigh)
    (hnull : e.segTable (segIndex addr) = none) :
    ∃ s', s.newLevelTable cfg lzo fresh pre.length addr = some s' ∧
      Refines cfg lzo hs a ref s' ∧ (s'.heap fresh).compressed = false ∧
      ∀ a', pageAt s'.entry a'
        = if TimeTable.page a' = TimeTable.page addr then some fresh else pageAt s.entry a' := by
  obtain ⟨pageOf, hcontents⟩ := h.contents
  have hget : s.entry[pre.length]? = some e := by
    rw [hentry, List.getElem?_append_right (Nat.le_refl _), Nat.sub_self]
    rfl
  have hnone : pageAt s.entry addr = none := by
    rw [hentry, pageAt_split hpre, if_pos hhigh.symm]
    exact hnull
  obtain ⟨s', hnew, hentry', hroom, hflat, hflag, hstored⟩ :=
    newLevelTable_heap h hfresh (hcontents.stored_new hnone) pre.length addr
  obtain ⟨hexact, halloc⟩ := newLevelTable_exact hsmall h.counted hfresh hget hnull hnew
  have hpages : ∀ a', pageAt s'.entry a'
      = if TimeTable.page a' = TimeTable.page addr then some fresh else pageAt s.entry a' := by
    intro a'
    rw [hentry', hentry]
    exact pageAt_register hhigh hpre fresh a'
  refine ⟨s', hnew, ⟨hexact, hroom, ?_, ?_, _,
    hcontents.register hfresh hnone hpages halloc hstored⟩, hflag, hpages⟩
  · rw [halloc]
    exact hflat
  · rw [hentry', hentry, modify_mid]
    exact (hentry ▸ h.segmented).replace rfl

/-- **A packed page is collected and unpacked.** -/
theorem decompressLevelTable_refines (hlossless : lzo.Lossless) (hsmall : lzo.Small)
    (h : Refines cfg lzo hs a ref s) (hlevels : a.levels ≤ LevelTable.MAX_LEVEL)
    (hc : cfg.compressShadowMem = true) {p : P} (hp : p ∈ s.allocated)
    (hflag : (s.heap p).compressed = true) (hunpacks : (s.heap p).Unpacks lzo a.versions) :
    ∃ s', s.decompressLevelTable cfg lzo p a.versions = some s' ∧
      Refines cfg lzo hs a ref s' ∧ s'.entry = s.entry ∧ s'.allocated = s.allocated ∧
      (s'.heap p).compressed = false := by
  obtain ⟨pageOf, hfound, hmissing, hstored⟩ := h.contents
  have hbuffer := h.counted.buffer hc
  have hnotin : p ∉ s.compression_buffer.pages := (hbuffer.compressed_iff p hp).mp hflag
  obtain ⟨lt', cost, hdecompress, hlt'⟩ :=
    (hstored p hp).decompress hlossless hsmall hlevels hflag hunpacks
  let heap := Function.update s.heap p lt'
  have hactive : ∀ t ∈ s.compression_buffer.pages,
      t ∈ s.allocated ∧ (heap t).compressed = false := by
    intro t ht
    have hne : t ≠ p := fun heq => hnotin (heq ▸ ht)
    obtain ⟨hmem, hflag⟩ := h.counted.active hc t ht
    refine ⟨hmem, ?_⟩
    show (Function.update s.heap p _ t).compressed = false
    rw [Function.update_of_ne hne]
    exact hflag
  obtain ⟨gain, heap', buffer', hadd, hnum, hheap', hkeep⟩ :=
    add_stored hbuffer.toPointed (h.room hc).1 hactive (Contents.update hstored hlt') p
  let es := ((s.heap p).collectGarbageUnbounded a.versions).2
  let s' : MShadowSkadu P := { s with
    heap := heap'
    compression_buffer := buffer'
    stat := (s.stat.recordAll es).record (.compression (gain - cost.setWidth 32)) }
  have hd : s.decompressLevelTable cfg lzo p a.versions = some s' := by
    unfold decompressLevelTable CBuffer.decompress
    simp only [hc, Function.update_self, Function.update_idem, Option.bind_eq_bind,
      Option.bind_some, hdecompress]
    rw [show Function.update s.heap p lt' = heap from rfl, hadd]
    rfl
  obtain ⟨hexact, halloc⟩ := decompressLevelTable_exact hsmall h.counted hc hp hflag hd
  refine ⟨s', hd, ⟨hexact, fun _ => hnum ▸ h.room hc, ?_, h.segmented, pageOf, hfound, hmissing,
    hheap'⟩, rfl, rfl, ?_⟩
  · intro hno
    exact absurd (hc.symm.trans hno) (by decide)
  · show (heap' p).compressed = false
    rw [hkeep p hnotin]
    show (Function.update s.heap p lt' p).compressed = false
    rw [Function.update_self]
    exact LevelTable.compressed_of_decompress hdecompress

/-- The page of the address, if it is packed, can be unpacked. -/
def Unpacks (cfg : ShadowConfig) (lzo : Lzo) (versions : ℕ → ℕ) (addr : ℕ)
    (s : MShadowSkadu P) : Prop :=
  ∀ p, pageAt s.entry addr = some p → cfg.compressShadowMem = true →
    (s.heap p).compressed = true → (s.heap p).Unpacks lzo versions

/-- The end of `getLevelTable`: the page is unpacked if it is packed. -/
theorem unpacked_refines (hlossless : lzo.Lossless) (hsmall : lzo.Small)
    (h : Refines cfg lzo hs a ref s) (hlevels : a.levels ≤ LevelTable.MAX_LEVEL) {addr : ℕ}
    (hunpacks : s.Unpacks cfg lzo a.versions addr) {p : P} (hpage : pageAt s.entry addr = some p) :
    ∃ s', (if cfg.compressShadowMem ∧ (s.heap p).compressed then
        (s.decompressLevelTable cfg lzo p a.versions).map fun s => (p, s)
        else some (p, s)) = some (p, s') ∧
      Refines cfg lzo hs a ref s' ∧ s'.entry = s.entry ∧ (s'.heap p).compressed = false := by
  obtain ⟨pageOf, hfound, -, -⟩ := h.contents
  have hp := ((hfound addr p).mp hpage).1
  by_cases hcomp : cfg.compressShadowMem = true ∧ (s.heap p).compressed = true
  · obtain ⟨s', hd, hrefines, hentry, -, hflag⟩ :=
      decompressLevelTable_refines hlossless hsmall h hlevels hcomp.1 hp hcomp.2
        (hunpacks p hpage hcomp.1 hcomp.2)
    refine ⟨s', ?_, hrefines, hentry, hflag⟩
    rw [if_pos hcomp, hd]
    rfl
  · refine ⟨s, if_neg hcomp, h, rfl, ?_⟩
    cases hc : cfg.compressShadowMem with
    | false => exact h.flat hc p hp
    | true =>
        rw [hc] at hcomp
        simpa using hcomp

/-- An access leaves the page of its address unpacked, and makes no other page. -/
structure Accessed (addr : ℕ) (s s' : MShadowSkadu P) : Prop where
  page : ∃ p, pageAt s'.entry addr = some p ∧ (s'.heap p).compressed = false
  others : ∀ a', TimeTable.page a' ≠ TimeTable.page addr →
    pageAt s'.entry a' = pageAt s.entry a'

/-- **Finding the page of an access**: there is one, it is not packed, and the
memory refines the same map. -/
theorem getLevelTable_refines (hlossless : lzo.Lossless) (hsmall : lzo.Small)
    (hcard : hs.card ≤ SPARSE_ENTRIES) (h : Refines cfg lzo hs a ref s)
    (hlevels : a.levels ≤ LevelTable.MAX_LEVEL) {fresh : P} (hfresh : fresh ∉ s.allocated)
    {addr : ℕ} (haddr : addrHigh addr ∈ hs) (hunpacks : s.Unpacks cfg lzo a.versions addr) :
    ∃ p s', s.getLevelTable cfg lzo fresh addr a.versions = some (p, s') ∧
      Refines cfg lzo hs a ref s' ∧ pageAt s'.entry addr = some p ∧
      (s'.heap p).compressed = false ∧ Accessed addr s s' := by
  obtain ⟨pre, e, post, helem, hhigh, hpre, hsame, hsegmented⟩ :=
    getElement_spec h.segmented hcard haddr
  let s₁ : MShadowSkadu P := { s with entry := pre ++ e :: post }
  have h₁ : Refines cfg lzo hs a ref s₁ := by
    obtain ⟨hexact, -⟩ := getElement_exact h.counted helem
    obtain ⟨pageOf, hfound, hmissing, hstored⟩ := h.contents
    refine ⟨hexact, h.room, h.flat, hsegmented, pageOf, ?_, ?_, hstored⟩
    · intro a' p
      rw [← hfound a' p, ← hsame a']
    · intro a' hp
      exact hmissing a' ((hsame a').symm.trans hp)
  have hget : s₁.entry[pre.length]? = some e := by
    show (pre ++ e :: post)[pre.length]? = some e
    rw [List.getElem?_append_right (Nat.le_refl _), Nat.sub_self]
    rfl
  unfold getLevelTable
  rw [helem]
  simp only [Option.bind_eq_bind, Option.bind_some]
  rw [show (pre ++ e :: post)[pre.length]? = some e from hget]
  simp only [Option.bind_some]
  cases hp : e.segTable (segIndex addr) with
  | some p =>
      have hpage : pageAt s₁.entry addr = some p := by
        show pageAt (pre ++ e :: post) addr = some p
        rw [pageAt_split hpre, if_pos hhigh.symm]
        exact hp
      have hunpacks₁ : s₁.Unpacks cfg lzo a.versions addr :=
        fun q hq => hunpacks q ((hsame addr).symm.trans hq)
      obtain ⟨s', hs', h', hentry, hflag⟩ :=
        unpacked_refines hlossless hsmall h₁ hlevels hunpacks₁ hpage
      have hpage' : pageAt s'.entry addr = some p := by
        rw [hentry]
        exact hpage
      refine ⟨p, s', hs', h', hpage', hflag, ⟨p, hpage', hflag⟩, fun a' _ => ?_⟩
      rw [hentry]
      exact hsame a'
  | none =>
      obtain ⟨s₂, hnew, h₂, hflag, hpages⟩ :=
        newLevelTable_refines hsmall h₁ hfresh rfl hhigh hpre hp
      have hpage : pageAt s₂.entry addr = some fresh := by rw [hpages, if_pos rfl]
      -- a page just made is not packed
      have hunpacks₂ : s₂.Unpacks cfg lzo a.versions addr := by
        intro q hq _ hpacked
        rw [hpage] at hq
        cases hq
        exact absurd (hflag.symm.trans hpacked) (by decide)
      obtain ⟨s', hs', h', hentry, hflag'⟩ :=
        unpacked_refines hlossless hsmall h₂ hlevels hunpacks₂ hpage
      have hpage' : pageAt s'.entry addr = some fresh := hentry ▸ hpage
      refine ⟨fresh, s', ?_, h', hpage', hflag', ⟨fresh, hpage', hflag'⟩, fun a' ha' => ?_⟩
      swap
      · rw [hentry, hpages, if_neg ha']
        exact hsame a'
      rw [show newLevelTable cfg lzo fresh pre.length addr { s with entry := pre ++ e :: post }
        = some s₂ from hnew]
      exact hs'

/-- **A page that cannot be unpacked** is not found. -/
theorem getLevelTable_none (hcard : hs.card ≤ SPARSE_ENTRIES) (h : Refines cfg lzo hs a ref s)
    {addr : ℕ} (haddr : addrHigh addr ∈ hs) {versions : ℕ → ℕ}
    (hnot : ¬s.Unpacks cfg lzo versions addr) (fresh : P) :
    s.getLevelTable cfg lzo fresh addr versions = none := by
  obtain ⟨pre, e, post, helem, hhigh, hpre, hsame, -⟩ := getElement_spec h.segmented hcard haddr
  simp only [Unpacks, not_forall] at hnot
  obtain ⟨p, hpage, hc, hflag, hnot⟩ := hnot
  rw [← hsame addr, pageAt_split hpre, if_pos hhigh.symm] at hpage
  have hnone : ((s.heap p).collectGarbageUnbounded versions).1.decompress lzo = none := by
    unfold LevelTable.Unpacks at hnot
    simpa using hnot
  unfold getLevelTable
  rw [helem]
  simp only [Option.bind_eq_bind, Option.bind_some]
  rw [show (pre ++ e :: post)[pre.length]? = some e by
    rw [List.getElem?_append_right (Nat.le_refl _), Nat.sub_self, List.getElem?_cons_zero]]
  simp only [Option.bind_some, hpage, hc, hflag, and_self, if_true]
  unfold decompressLevelTable CBuffer.decompress
  simp only [Function.update_self, Option.bind_eq_bind, hnone, Option.bind_none, Option.map_none]

/-- The end of an access. -/
theorem touch_refines (h : Refines cfg lzo hs a ref s) {addr : ℕ} {p : P}
    (hpage : pageAt s.entry addr = some p) (hflag : (s.heap p).compressed = false) :
    ∃ s', s.touch cfg p = some s' ∧ Refines cfg lzo hs a ref s' ∧ s'.entry = s.entry ∧
      s'.heap = s.heap := by
  obtain ⟨pageOf, hfound, hmissing, hstored⟩ := h.contents
  have hp := ((hfound addr p).mp hpage).1
  unfold touch
  by_cases hc : cfg.compressShadowMem = true
  · obtain ⟨buffer, htouch, hsound, hnum⟩ := CBuffer.touch_spec (h.counted.buffer hc) hp hflag
    simp only [hc, if_true, htouch]
    have h' : Refines cfg lzo hs a ref { s with compression_buffer := buffer } :=
      ⟨⟨h.counted.entries, h.counted.mem_pages, h.counted.sized, fun _ => hsound, h.counted.stat⟩,
        fun _ => hnum ▸ h.room hc, fun hno => absurd (hc.symm.trans hno) (by decide),
        h.segmented, pageOf, hfound, hmissing, hstored⟩
    exact ⟨{ s with compression_buffer := buffer }, rfl, h', rfl, rfl⟩
  · rw [if_neg hc]
    exact ⟨s, rfl, h, rfl, rfl⟩

/-- The pages of an access are the old ones and perhaps the new one. -/
theorem getLevelTable_allocated {fresh p : P} {addr : ℕ} {curr_versions : ℕ → ℕ}
    (h : s.getLevelTable cfg lzo fresh addr curr_versions = some (p, s')) :
    ∀ q ∈ s'.allocated, q = fresh ∨ q ∈ s.allocated := by
  -- unpacking a page makes none
  have hunpack : ∀ {s₁ s₂ : MShadowSkadu P} {p q : P},
      (if cfg.compressShadowMem ∧ (s₁.heap p).compressed then
        (s₁.decompressLevelTable cfg lzo p curr_versions).map fun s => (p, s)
        else some (p, s₁)) = some (q, s₂) → s₂.allocated = s₁.allocated := by
    intro s₁ s₂ p q hif
    split at hif
    · obtain ⟨s₃, hd, heq⟩ := Option.map_eq_some_iff.mp hif
      cases heq
      unfold decompressLevelTable at hd
      simp only [Option.bind_eq_bind, Option.bind_eq_some_iff] at hd
      obtain ⟨r, -, heq⟩ := hd
      cases heq
      rfl
    · cases hif
      rfl
  unfold getLevelTable at h
  simp only [Option.bind_eq_bind, Option.bind_eq_some_iff] at h
  obtain ⟨⟨i, s₁⟩, helem, e, -, hrest⟩ := h
  have halloc₁ : s₁.allocated = s.allocated := by
    unfold getElement at helem
    split at helem
    · cases helem
      rfl
    · split at helem
      · cases helem
        rfl
      · cases helem
  intro q hq
  -- a page is made only where the segment has none
  cases hp : e.segTable (segIndex addr) with
  | some old =>
      rw [hp] at hrest
      rw [hunpack hrest, halloc₁] at hq
      exact .inr hq
  | none =>
      rw [hp] at hrest
      obtain ⟨⟨table, s₂⟩, hmap, hlast⟩ := Option.bind_eq_some_iff.mp hrest
      obtain ⟨s₃, hnew, heq⟩ := Option.map_eq_some_iff.mp hmap
      cases heq
      have halloc₂ : s₂.allocated = fresh :: s₁.allocated := by
        unfold newLevelTable at hnew
        simp only [Option.bind_eq_bind] at hnew
        split at hnew
        · obtain ⟨r, -, heq⟩ := Option.bind_eq_some_iff.mp hnew
          cases heq
          rfl
        · cases hnew
          rfl
      rw [hunpack hlast, halloc₂] at hq
      rcases List.mem_cons.mp hq with hfresh | hold
      · exact .inl hfresh
      · exact .inr (halloc₁ ▸ hold)

theorem touch_allocated {p : P} (h : s.touch cfg p = some s') : s'.allocated = s.allocated := by
  unfold touch at h
  split at h
  · obtain ⟨buffer, -, rfl⟩ := Option.map_eq_some_iff.mp h
    rfl
  · cases h
    rfl

theorem fetch_allocated {fresh : P} {addr size : ℕ} {curr_versions : ℕ → ℕ} {times : List Time}
    (h : s.fetch cfg lzo fresh addr size curr_versions = some (times, s')) :
    ∀ q ∈ s'.allocated, q = fresh ∨ q ∈ s.allocated := by
  unfold fetch at h
  simp only [Option.bind_eq_bind, Option.bind_eq_some_iff] at h
  obtain ⟨⟨p, s₁⟩, hget, _, -, s₂, ht, heq⟩ := h
  cases heq
  rw [touch_allocated ht]
  exact getLevelTable_allocated hget

theorem store_allocated {stopAtZero : Bool} {fresh : P} {addr size : ℕ} {curr_versions : ℕ → ℕ}
    {times : ℕ → Time}
    (h : s.store stopAtZero cfg lzo fresh addr size curr_versions times = some s') :
    ∀ q ∈ s'.allocated, q = fresh ∨ q ∈ s.allocated := by
  unfold store at h
  simp only [Option.bind_eq_bind, Option.bind_eq_some_iff] at h
  obtain ⟨⟨p, s₁⟩, hget, ⟨lt, es⟩, -, ht⟩ := h
  rw [touch_allocated ht]
  exact fun q hq => getLevelTable_allocated hget q hq

/-! ## §3. The accesses. -/

/-- **A page is collected.** -/
theorem collectPage_refines (h : Refines cfg lzo hs a ref s)
    (hlevels : a.levels ≤ LevelTable.MAX_LEVEL) {p : P} (hp : p ∈ s.allocated) :
    Refines cfg lzo hs a ref (collectPage a.versions a.levels s p) := by
  obtain ⟨pageOf, hfound, hmissing, hstored⟩ := h.contents
  have hmem : ∀ q ∈ [p], q ∈ s.allocated := fun q hq => List.mem_singleton.mp hq ▸ hp
  obtain ⟨hexact, -⟩ := foldl_collectPage_exact a.versions hlevels h.counted hmem
  refine ⟨hexact, h.room, ?_, h.segmented, pageOf, hfound, hmissing, ?_⟩
  · intro hc q hq
    show (Function.update s.heap p _ q).compressed = false
    rw [Function.update_apply]
    split
    next heq =>
      have hkeep : ((s.heap p).collectGarbageWithinBounds a.versions a.levels).1.compressed
          = (s.heap p).compressed :=
        (LevelTable.compressed_deleteLevels _ _ _ _).trans
          (LevelTable.compressed_deleteLevels _ _ _ _)
      exact hkeep.trans (h.flat hc p hp)
    next => exact h.flat hc q hq
  · exact Contents.update hstored ((hstored p hp).collect hlevels)

theorem collectPages_refines (h : Refines cfg lzo hs a ref s)
    (hlevels : a.levels ≤ LevelTable.MAX_LEVEL) {ps : List P}
    (hps : ∀ p ∈ ps, p ∈ s.allocated) :
    Refines cfg lzo hs a ref (ps.foldl (collectPage a.versions a.levels) s) ∧
      (ps.foldl (collectPage a.versions a.levels) s).allocated = s.allocated := by
  induction ps generalizing s with
  | nil => exact ⟨h, rfl⟩
  | cons p ps ih =>
      have hone := collectPage_refines h hlevels (hps p List.mem_cons_self)
      exact ih hone fun q hq => hps q (List.mem_cons_of_mem _ hq)

theorem collectGarbage_refines (h : Refines cfg lzo hs a ref s)
    (hlevels : a.levels ≤ LevelTable.MAX_LEVEL) :
    Refines cfg lzo hs a ref (s.collectGarbage cfg a.versions a.levels) ∧
      (s.collectGarbage cfg a.versions a.levels).allocated = s.allocated := by
  unfold collectGarbage
  split
  · obtain ⟨hrun, halloc⟩ := collectPages_refines h hlevels
      fun p hp => (h.counted.mem_pages p).mp hp
    obtain ⟨pageOf, hfound, hmissing, hstored⟩ := hrun.contents
    exact ⟨⟨⟨hrun.counted.entries, hrun.counted.mem_pages, hrun.counted.sized,
      hrun.counted.buffer, hrun.counted.stat⟩, hrun.room, hrun.flat, hrun.segmented,
      pageOf, hfound, hmissing, hstored⟩, halloc⟩
  · exact ⟨h, rfl⟩

/-- What collecting garbage leaves as it is: where the pages are, which are packed,
and the buffer. -/
structure Collected (s s' : MShadowSkadu P) : Prop where
  entry : s'.entry = s.entry
  buffer : s'.compression_buffer = s.compression_buffer
  allocated : s'.allocated = s.allocated
  compressed : ∀ p, (s'.heap p).compressed = (s.heap p).compressed

theorem collectPages_collected (versions : ℕ → ℕ) (size : ℕ) (ps : List P)
    (s : MShadowSkadu P) : Collected s (ps.foldl (collectPage versions size) s) := by
  induction ps generalizing s with
  | nil => exact ⟨rfl, rfl, rfl, fun _ => rfl⟩
  | cons p ps ih =>
      have hrest := ih (collectPage versions size s p)
      refine ⟨hrest.entry, hrest.buffer, hrest.allocated, fun q => (hrest.compressed q).trans ?_⟩
      show (Function.update s.heap p _ q).compressed = _
      rw [Function.update_apply]
      split
      next heq =>
        rw [heq]
        exact (LevelTable.compressed_deleteLevels _ _ _ _).trans
          (LevelTable.compressed_deleteLevels _ _ _ _)
      next => rfl

theorem collectGarbage_collected (cfg : ShadowConfig) (versions : ℕ → ℕ) (size : ℕ)
    (s : MShadowSkadu P) : Collected s (s.collectGarbage cfg versions size) := by
  unfold collectGarbage
  split
  · have h := collectPages_collected versions size s.pages s
    exact ⟨h.entry, h.buffer, h.allocated, h.compressed⟩
  · exact ⟨rfl, rfl, rfl, fun _ => rfl⟩

/-- An access is made at the address of its word. -/
theorem addrHigh_wordAddr (addr : ℕ) : addrHigh (wordAddr addr) = addrHigh addr := by
  rw [addrHigh_eq, addrHigh_eq]
  unfold wordAddr
  omega

theorem wordAddr_div (addr : ℕ) : wordAddr addr / 8 = addr / 8 := by
  unfold wordAddr
  omega

theorem wordAddr_mod (addr : ℕ) : wordAddr addr % 8 = 0 := by
  unfold wordAddr
  omega

/-- **A word is read** from its page. -/
theorem Refines.fetch (hlossless : lzo.Lossless) (hsmall : lzo.Small)
    (hcard : hs.card ≤ SPARSE_ENTRIES) (h : Refines cfg lzo hs a ref s)
    (hlevels : a.levels ≤ LevelTable.MAX_LEVEL) {fresh : P} (hfresh : fresh ∉ s.allocated)
    {addr : ℕ} (haddr : addrHigh addr ∈ hs) (hunpacks : s.Unpacks cfg lzo a.versions addr) :
    ∃ (times : ℕ → Time) (s' : MShadowSkadu P),
      s.fetch cfg lzo fresh addr a.levels a.versions
        = some ((List.range a.levels).map times, s') ∧
      (∀ l < a.levels, (times l).toNat = ref.view a.versions (addr / 8) l) ∧
      Refines cfg lzo hs a ref s' ∧ Accessed addr s s' := by
  obtain ⟨p, s₁, hget, h₁, hpage, hflag, haccessed⟩ :=
    getLevelTable_refines hlossless hsmall hcard h hlevels hfresh haddr hunpacks
  obtain ⟨pageOf, hfound, hmissing, hstored⟩ := h₁.contents
  obtain ⟨hp, hpageOf⟩ := (hfound _ _).mp hpage
  obtain ⟨times, hread, htimes⟩ := (hstored p hp).read hlevels hflag hpageOf.symm
  obtain ⟨s', htouch, h', hentry, hheap⟩ := touch_refines h₁ hpage hflag
  refine ⟨times, s', ?_, htimes, h', ?_, fun a' ha' => hentry ▸ haccessed.others a' ha'⟩
  swap
  · exact ⟨p, hentry ▸ hpage, hheap ▸ hflag⟩
  unfold MShadowSkadu.fetch
  rw [hget]
  simp only [Option.bind_eq_bind, Option.bind_some, hread, htouch]

/-- **A word is written** to its page, at the first `n` levels or up to the first
time 0. -/
theorem Refines.store (hlossless : lzo.Lossless) (hsmall : lzo.Small)
    (hcard : hs.card ≤ SPARSE_ENTRIES) (h : Refines cfg lzo hs a ref s)
    (hlevels : a.levels ≤ LevelTable.MAX_LEVEL) (stopAtZero : Bool) {n : ℕ}
    (hissued : ∀ l < n, a.versions l < a.next) (hmax : n ≤ LevelTable.MAX_LEVEL) {fresh : P}
    (hfresh : fresh ∉ s.allocated) {addr : ℕ} (haligned : addr % 8 = 0)
    (haddr : addrHigh addr ∈ hs) (hunpacks : s.Unpacks cfg lzo a.versions addr)
    (times : ℕ → Time) :
    ∃ m s', s.store stopAtZero cfg lzo fresh addr n a.versions times = some s' ∧ m ≤ n ∧
      (stopAtZero = false → m = n) ∧ (∀ l < m, stopAtZero = true → times l ≠ 0) ∧
      (m < n → times m = 0) ∧
      Refines cfg lzo hs a (ref.store a.versions (addr / 8) m fun l => (times l).toNat) s' ∧
      Accessed addr s s' := by
  obtain ⟨p, s₁, hget, h₁, hpage, hflag, haccessed⟩ :=
    getLevelTable_refines hlossless hsmall hcard h hlevels hfresh haddr hunpacks
  obtain ⟨pageOf, hfound, hmissing, hstored⟩ := h₁.contents
  obtain ⟨hp, hpageOf⟩ := (hfound _ _).mp hpage
  obtain ⟨lt, es, m, hwrite, hflag', hm, hall, hne, hstop, hlt⟩ :=
    (hstored p hp).write hflag stopAtZero hissued hmax haligned hpageOf.symm times
  let s₂ : MShadowSkadu P := { s₁ with
    heap := Function.update s₁.heap p lt, stat := s₁.stat.recordAll es }
  have hplain : (s₂.heap p).compressed = false := by
    show (Function.update s₁.heap p lt p).compressed = false
    rw [Function.update_self]
    exact hflag'
  have h₂ : Refines cfg lzo hs a
      (ref.store a.versions (addr / 8) m fun l => (times l).toNat) s₂ := by
    obtain ⟨hacc, hwide, hfull, hsame⟩ :=
      writeLevels_accounts (by omega) (h₁.counted.sized p hp).1 hwrite
    refine ⟨h₁.counted.update hp hacc hwide hfull hsame, h₁.room, ?_, h₁.segmented, pageOf,
      hfound, ?_, ?_⟩
    · intro hc q hq
      by_cases hqp : q = p
      · exact hqp ▸ hplain
      · show (Function.update s₁.heap p lt q).compressed = false
        rw [Function.update_of_ne hqp]
        exact h₁.flat hc q hq
    · intro a' hnone l hl hmax
      have hother : ¬(a' / 8 = addr / 8 ∧ l < m) := by
        rintro ⟨heq, -⟩
        have hsamepage : TimeTable.page a' = TimeTable.page addr := by
          unfold TimeTable.page
          omega
        rw [show pageAt s₂.entry a' = pageAt s₁.entry a' from rfl,
          pageAt_congr _ hsamepage, hpage] at hnone
        cases hnone
      rw [VersionedMap.view_store, if_neg hother]
      exact hmissing a' hnone l hl hmax
    · intro q hq
      by_cases hqp : q = p
      · subst hqp
        show LevelTable.Stored lzo a _ (pageOf q) (Function.update s₁.heap q lt q)
        rw [Function.update_self]
        exact hlt
      · show LevelTable.Stored lzo a _ (pageOf q) (Function.update s₁.heap p lt q)
        rw [Function.update_of_ne hqp]
        apply (hstored q hq).store_other
        -- two pages of one address would be the same
        intro heq
        apply hqp
        have hq' := (hfound addr q).mpr ⟨hq, heq.symm⟩
        rw [hpage] at hq'
        exact (Option.some.inj hq').symm
  have hpage₂ : pageAt s₂.entry addr = some p := hpage
  obtain ⟨s', htouch, h', hentry, hheap⟩ := touch_refines h₂ hpage₂ hplain
  refine ⟨m, s', ?_, hm, hall, hne, hstop, h', ⟨p, hentry ▸ hpage₂, hheap ▸ hplain⟩,
    fun a' ha' => hentry ▸ haccessed.others a' ha'⟩
  unfold MShadowSkadu.store
  rw [hget]
  simp only [Option.bind_eq_bind, Option.bind_some, hwrite]
  exact htouch

/-- No page of the memory was overrun. -/
def Intact (s : MShadowSkadu P) : Prop := ∀ p ∈ s.allocated, (s.heap p).Intact

/-- **In a memory that was not overrun** every page can be unpacked. -/
theorem Refines.unpacks (hlossless : lzo.Lossless) (hsmall : lzo.Small)
    (h : Refines cfg lzo hs a ref s) (hlevels : a.levels ≤ LevelTable.MAX_LEVEL)
    (hintact : s.Intact) (addr : ℕ) : s.Unpacks cfg lzo a.versions addr := by
  intro p hpage _ hflag
  obtain ⟨pageOf, hfound, -, hstored⟩ := h.contents
  have hp := ((hfound addr p).mp hpage).1
  exact (hstored p hp).unpacks hlossless hsmall hlevels hflag (hintact p hp)

/-- **A library that never needs more room than the array** overruns no page, and
without compression there is nothing to overrun. -/
theorem Refines.intact (hsmall : lzo.Small) (h : Refines cfg lzo hs a ref s)
    (hfits : cfg.compressShadowMem = true → lzo.Fits) : s.Intact := by
  intro p hp
  obtain ⟨pageOf, -, -, hstored⟩ := h.contents
  refine (hstored p hp).intact hsmall fun hflag => hfits ?_
  by_contra hc
  exact absurd (hflag.symm.trans (h.flat (by simpa using hc) p hp)) (by decide)

theorem Refines.unpacks_of_fits (hlossless : lzo.Lossless) (hsmall : lzo.Small)
    (hfits : cfg.compressShadowMem = true → lzo.Fits) (h : Refines cfg lzo hs a ref s)
    (hlevels : a.levels ≤ LevelTable.MAX_LEVEL) (addr : ℕ) :
    s.Unpacks cfg lzo a.versions addr :=
  h.unpacks hlossless hsmall hlevels (h.intact hsmall hfits) addr

/-- Collecting garbage only takes tables away. -/
theorem Intact.collectPages (h : s.Intact) (versions : ℕ → ℕ) (size : ℕ) (ps : List P) :
    (ps.foldl (collectPage versions size) s).Intact := by
  induction ps generalizing s with
  | nil => exact h
  | cons p ps ih =>
      apply ih
      intro q hq
      show (Function.update s.heap p _ q).Intact
      rw [Function.update_apply]
      split
      next heq => exact (h p (heq ▸ hq)).collectWithinBounds versions size
      next => exact h q hq

theorem Intact.collectGarbage (h : s.Intact) (cfg : ShadowConfig) (versions : ℕ → ℕ)
    (size : ℕ) : (s.collectGarbage cfg versions size).Intact := by
  unfold MShadowSkadu.collectGarbage
  split
  · exact h.collectPages versions size s.pages
  · exact h

/-- **A read** returns what the reference map holds. -/
theorem Refines.get (hlossless : lzo.Lossless) (hsmall : lzo.Small)
    (hcard : hs.card ≤ SPARSE_ENTRIES) (h : Refines cfg lzo hs a ref s)
    (hlevels : a.levels ≤ LevelTable.MAX_LEVEL) {fresh : P} (hfresh : fresh ∉ s.allocated)
    {addr : ℕ} (haddr : addrHigh addr ∈ hs)
    (hunpacks : s.Unpacks cfg lzo a.versions (wordAddr addr)) :
    ∃ (times : ℕ → Time) (s' : MShadowSkadu P),
      s.get cfg lzo fresh addr a.levels a.versions = some ((List.range a.levels).map times, s') ∧
      (∀ l < a.levels, (times l).toNat = ref.view a.versions (addr / 8) l) ∧
      Refines cfg lzo hs a ref s' ∧ (1 ≤ a.levels → Accessed (wordAddr addr) s s') := by
  unfold MShadowSkadu.get
  by_cases hsize : a.levels < 1
  · have hzero : a.levels = 0 := by omega
    rw [if_pos hsize, hzero]
    exact ⟨fun _ => 0, s, rfl, fun l hl => absurd hl (Nat.not_lt_zero l), h,
      fun hpos => absurd hpos (Nat.not_succ_le_zero 0)⟩
  · rw [← addrHigh_wordAddr] at haddr
    obtain ⟨times, s', hfetch, htimes, h', haccessed⟩ :=
      h.fetch hlossless hsmall hcard hlevels hfresh haddr hunpacks
    rw [if_neg hsize, ← wordAddr_div]
    exact ⟨times, s', hfetch, htimes, h', fun _ => haccessed⟩

/-- **A write** stores what the reference map stores. -/
theorem Refines.set (hlossless : lzo.Lossless) (hsmall : lzo.Small)
    (hcard : hs.card ≤ SPARSE_ENTRIES) (h : Refines cfg lzo hs a ref s) (hordered : a.Ordered)
    (hlevels : a.levels ≤ LevelTable.MAX_LEVEL) {fresh : P} (hfresh : fresh ∉ s.allocated)
    {addr : ℕ} (haddr : addrHigh addr ∈ hs)
    (hunpacks : (s.collectGarbage cfg a.versions a.levels).Unpacks cfg lzo a.versions
      (wordAddr addr)) (times : ℕ → Time) :
    ∃ s', s.set cfg lzo fresh addr a.levels a.versions times = some s' ∧
      Refines cfg lzo hs a
        (ref.store a.versions (addr / 8) a.levels fun l => (times l).toNat) s' ∧
      (1 ≤ a.levels → Accessed (wordAddr addr) s s') := by
  unfold MShadowSkadu.set
  by_cases hsize : a.levels < 1
  · -- no level is written
    have hzero : a.levels = 0 := by omega
    rw [if_pos hsize, hzero, VersionedMap.store_zero]
    exact ⟨s, rfl, h, fun hpos => absurd hpos (Nat.not_succ_le_zero 0)⟩
  · obtain ⟨hgc, halloc⟩ := collectGarbage_refines h hlevels
    rw [← addrHigh_wordAddr] at haddr
    obtain ⟨m, s', hstore, -, hall, -, -, h', haccessed⟩ :=
      hgc.store hlossless hsmall hcard hlevels false (fun l hl => hordered.below l hl) hlevels
        (halloc ▸ hfresh) (wordAddr_mod addr) haddr hunpacks times
    rw [hall rfl, wordAddr_div] at h'
    rw [if_neg hsize]
    refine ⟨s', hstore, h', fun _ => ⟨haccessed.page, fun a' ha' => ?_⟩⟩
    rw [haccessed.others a' ha', (collectGarbage_collected cfg a.versions a.levels s).entry]

end MShadowSkadu

end Kremlin.Shadow
