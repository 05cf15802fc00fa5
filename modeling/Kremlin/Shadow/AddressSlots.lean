/-
  Kremlin.Shadow.AddressSlots — from an address to a time.

  The upper half of an address selects an entry of the sparse table, bits 12 to
  31 a page of its segment, and bits 3 to 11 a time of a 64-bit table.  The
  sparse table has room for 32 entries, which is all that can go wrong
  (`address_slots_iff`).
-/
import Kremlin.Shadow.SkaduSegments
import Mathlib.Data.Finset.Card
import Mathlib.Data.List.Nodup

namespace Kremlin.Shadow

open Kremlin.Library

namespace MShadowSkadu

variable {P : Type}

/-! ## §1. Lookups. -/

/-- The upper halves that have an entry, in the order of the entries. -/
def highs (s : MShadowSkadu P) : List ℕ := s.entry.map SparseTableElement.addrHigh

/-- Where the time of an address is: the entry with its segment, the page in the
segment and the time in its table. -/
structure Slot where
  element : ℕ
  page : ℕ
  time : ℕ
  deriving DecidableEq

/-- `getElement`, `GetIndex` and `getIndex` for a 64-bit table. -/
def lookup (addr : ℕ) (s : MShadowSkadu P) : Option (Slot × MShadowSkadu P) := do
  let (element, s) ← s.getElement addr
  some (⟨element, segIndex addr, (TimeTable.new .type_64bit).getIndex addr⟩, s)

/-- A sequence of lookups. -/
def lookupAll : List ℕ → MShadowSkadu P → Option (List Slot × MShadowSkadu P)
  | [], s => some ([], s)
  | addr :: addrs, s => do
      let (slot, s) ← s.lookup addr
      let (slots, s) ← lookupAll addrs s
      some (slot :: slots, s)

/-- The slot of an address, when the entries are for these upper halves. -/
def slotIn (highs : List ℕ) (addr : ℕ) : Slot :=
  ⟨highs.idxOf (addrHigh addr), segIndex addr, (TimeTable.new .type_64bit).getIndex addr⟩

/-! ## §2. The entries. -/

/-- The upper halves after one more is looked up. -/
def addHigh (highs : List ℕ) (high : ℕ) : List ℕ :=
  if high ∈ highs then highs else highs ++ [high]

/-- `getElement` finds the entry or makes it, as long as there is room. -/
theorem getElement_eq (addr : ℕ) (s : MShadowSkadu P) :
    (addrHigh addr ∈ s.highs ∨ s.entry.length < SPARSE_ENTRIES →
      ∃ s', s.getElement addr = some (s'.highs.idxOf (addrHigh addr), s') ∧
        s'.highs = addHigh s.highs (addrHigh addr)) ∧
      (¬(addrHigh addr ∈ s.highs ∨ s.entry.length < SPARSE_ENTRIES) →
        s.getElement addr = none) := by
  unfold getElement
  cases hf : s.entry.findIdx? fun e => decide (e.addrHigh = addrHigh addr) with
  | some i =>
      obtain ⟨pre, e, post, hsplit, hlen, hhere, hpre⟩ :=
        findIdx?_split SparseTableElement.addrHigh hf
      have hhighs : s.highs = pre.map SparseTableElement.addrHigh ++
          addrHigh addr :: post.map SparseTableElement.addrHigh := by
        unfold highs
        rw [hsplit, List.map_append, List.map_cons, hhere]
      have hin : addrHigh addr ∈ s.highs := by
        rw [hhighs]
        simp
      have hnot : addrHigh addr ∉ pre.map SparseTableElement.addrHigh := by
        intro hin
        obtain ⟨x, hx, heq⟩ := List.mem_map.mp hin
        exact hpre x hx heq
      refine ⟨fun _ => ⟨s, ?_, (if_pos hin).symm⟩, fun h => absurd (.inl hin) h⟩
      rw [hhighs, List.idxOf_append_of_notMem hnot, List.idxOf_cons_self, List.length_map, hlen]
      rfl
  | none =>
      -- the upper half is new: it goes to the end, when there is room
      have hpre := ne_of_findIdx?_none SparseTableElement.addrHigh hf
      have hnot : addrHigh addr ∉ s.highs := by
        intro hin
        obtain ⟨e, he, heq⟩ := List.mem_map.mp hin
        exact hpre e he heq
      refine ⟨fun h => ?_, fun h => if_neg fun hlt => h (.inr hlt)⟩
      have hlt := h.resolve_left hnot
      refine ⟨{ s with entry := s.entry ++ [⟨addrHigh addr, fun _ => none⟩] }, ?_, ?_⟩
      · show (if s.entry.length < SPARSE_ENTRIES then _ else _) = _
        rw [if_pos hlt]
        unfold highs at hnot ⊢
        rw [List.map_append, List.idxOf_append_of_notMem hnot, List.length_map]
        simp
      · unfold addHigh
        rw [if_neg hnot]
        exact List.map_append

/-! ## §3. Sequences of lookups. -/

/-- The upper halves after a sequence of lookups. -/
def addHighs (highs addrs : List ℕ) : List ℕ :=
  addrs.foldl (fun highs addr => addHigh highs (addrHigh addr)) highs

theorem addHigh_prefix (highs : List ℕ) (high : ℕ) : ∃ new, addHigh highs high = highs ++ new := by
  unfold addHigh
  split
  · exact ⟨[], (List.append_nil _).symm⟩
  · exact ⟨[high], rfl⟩

theorem mem_addHigh {highs : List ℕ} {high x : ℕ} :
    x ∈ addHigh highs high ↔ x ∈ highs ∨ x = high := by
  unfold addHigh
  split
  · next h => exact ⟨.inl, fun hx => hx.elim id fun heq => heq ▸ h⟩
  · rw [List.mem_append, List.mem_singleton]

theorem nodup_addHigh {highs : List ℕ} (h : highs.Nodup) (high : ℕ) :
    (addHigh highs high).Nodup := by
  unfold addHigh
  split
  · exact h
  · next hnot => exact List.nodup_append.mpr ⟨h, List.nodup_singleton _, by
      intro x hx y hy heq
      rw [List.mem_singleton.mp hy] at heq
      exact hnot (heq ▸ hx)⟩

/-- Later lookups append entries, they leave the entries there are. -/
theorem addHighs_prefix (highs addrs : List ℕ) : ∃ new, addHighs highs addrs = highs ++ new := by
  induction addrs generalizing highs with
  | nil => exact ⟨[], (List.append_nil _).symm⟩
  | cons addr addrs ih =>
      obtain ⟨new, hnew⟩ := addHigh_prefix highs (addrHigh addr)
      obtain ⟨more, hmore⟩ := ih (addHigh highs (addrHigh addr))
      refine ⟨new ++ more, ?_⟩
      rw [← List.append_assoc, ← hnew]
      exact hmore

theorem mem_addHighs {highs addrs : List ℕ} {x : ℕ} :
    x ∈ addHighs highs addrs ↔ x ∈ highs ∨ x ∈ addrs.map addrHigh := by
  induction addrs generalizing highs with
  | nil => exact (or_iff_left List.not_mem_nil).symm
  | cons addr addrs ih =>
      show x ∈ addHighs (addHigh highs (addrHigh addr)) addrs ↔ _
      rw [ih, mem_addHigh, List.map_cons, List.mem_cons, or_assoc]

theorem nodup_addHighs {highs : List ℕ} (h : highs.Nodup) (addrs : List ℕ) :
    (addHighs highs addrs).Nodup := by
  induction addrs generalizing highs with
  | nil => exact h
  | cons addr addrs ih => exact ih (nodup_addHigh h _)

/-- **The lookups of a sequence** find the slots of the addresses, if there is room
for all of their upper halves. -/
theorem lookupAll_eq (addrs : List ℕ) (s : MShadowSkadu P) (hs : s.highs.length ≤ SPARSE_ENTRIES) :
    ((addHighs s.highs addrs).length ≤ SPARSE_ENTRIES →
      ∃ s', lookupAll addrs s = some (addrs.map (slotIn s'.highs), s') ∧
        s'.highs = addHighs s.highs addrs) ∧
      (¬(addHighs s.highs addrs).length ≤ SPARSE_ENTRIES → lookupAll addrs s = none) := by
  induction addrs generalizing s with
  | nil => exact ⟨fun _ => ⟨s, rfl, rfl⟩, fun h => absurd hs h⟩
  | cons addr addrs ih =>
      obtain ⟨hsome, hnone⟩ := getElement_eq addr s
      have hlength : s.highs.length = s.entry.length := List.length_map _
      by_cases hroom : addrHigh addr ∈ s.highs ∨ s.entry.length < SPARSE_ENTRIES
      · obtain ⟨s₁, hget, hhighs⟩ := hsome hroom
        have hs₁ : s₁.highs.length ≤ SPARSE_ENTRIES := by
          rw [hhighs]
          unfold addHigh
          split
          · exact hs
          · next hnot =>
              rw [List.length_append, List.length_singleton, hlength]
              exact hroom.resolve_left hnot
        have hcons : addHighs s.highs (addr :: addrs) = addHighs s₁.highs addrs := by
          rw [hhighs]
          rfl
        have hlookup : s.lookup addr = some (slotIn s₁.highs addr, s₁) := by
          unfold lookup
          rw [hget]
          rfl
        obtain ⟨ihsome, ihnone⟩ := ih s₁ hs₁
        rw [hcons]
        unfold lookupAll
        rw [hlookup]
        constructor
        · intro hle
          obtain ⟨s', hall, hhighs'⟩ := ihsome hle
          refine ⟨s', ?_, hhighs'⟩
          -- the entry found for `addr` keeps its place
          have hkeep : slotIn s₁.highs addr = slotIn s'.highs addr := by
            obtain ⟨new, hnew⟩ := addHighs_prefix s₁.highs addrs
            have hin : addrHigh addr ∈ s₁.highs := by
              rw [hhighs]
              exact mem_addHigh.mpr (.inr rfl)
            unfold slotIn
            rw [hhighs', hnew, List.idxOf_append_of_mem hin]
          rw [hkeep]
          show ((lookupAll addrs s₁).bind _) = _
          rw [hall]
          rfl
        · intro hlt
          show ((lookupAll addrs s₁).bind _) = none
          rw [ihnone hlt]
          rfl
      · rw [not_or] at hroom
        have hfull : ¬(addHighs s.highs (addr :: addrs)).length ≤ SPARSE_ENTRIES := by
          obtain ⟨new, hnew⟩ := addHighs_prefix (addHigh s.highs (addrHigh addr)) addrs
          show ¬(addHighs (addHigh s.highs (addrHigh addr)) addrs).length ≤ SPARSE_ENTRIES
          rw [hnew]
          unfold addHigh
          rw [if_neg hroom.1, List.length_append, List.length_append, List.length_singleton]
          omega
        refine ⟨fun hle => absurd hle hfull, fun _ => ?_⟩
        unfold lookupAll lookup
        rw [hnone (not_or.mpr hroom)]
        rfl

/-! ## §4. The slots of addresses. -/

/-- Two addresses have the same slot when they are in the same 8-byte word. -/
theorem slotIn_eq_iff {highs : List ℕ} {addr addr' : ℕ} (h : addrHigh addr ∈ highs) :
    slotIn highs addr = slotIn highs addr' ↔ addr / 8 = addr' / 8 := by
  have hparts : slotIn highs addr = slotIn highs addr' ↔
      addrHigh addr = addrHigh addr' ∧ segIndex addr = segIndex addr' ∧
        addr / 8 % 512 = addr' / 8 % 512 := by
    unfold slotIn
    rw [Slot.mk.injEq, List.idxOf_inj h, TimeTable.getIndex_eq, TimeTable.getIndex_eq,
      if_pos (by rfl), if_pos (by rfl)]
  rw [hparts, addrHigh_eq, addrHigh_eq, segIndex_eq, segIndex_eq]
  omega

/-- What the lookups of a sequence of addresses are to do: every index is within
its table, there is one entry for each upper half seen, addresses with the same
upper half get the same segment, and two addresses get the same slot if and only
if they are in the same word. -/
structure Maps (addrs : List ℕ) (slots : List Slot) (s : MShadowSkadu P) : Prop where
  length : slots.length = addrs.length
  within : ∀ slot ∈ slots, slot.element < s.entry.length ∧ slot.page < SEGMENT_ENTRIES ∧
    slot.time < TimeTable.GetNumEntries .type_64bit
  room : s.entry.length ≤ SPARSE_ENTRIES
  once : s.highs.Nodup
  seen : ∀ high, high ∈ s.highs ↔ ∃ addr ∈ addrs, addrHigh addr = high
  segment : ∀ i < addrs.length, ∀ j < addrs.length,
    (slots[i]?.map Slot.element = slots[j]?.map Slot.element ↔
      addrs[i]?.map addrHigh = addrs[j]?.map addrHigh)
  word : ∀ i < addrs.length, ∀ j < addrs.length,
    (slots[i]? = slots[j]? ↔ addrs[i]?.map (· / 8) = addrs[j]?.map (· / 8))

theorem maps_slotIn {addrs : List ℕ} {s : MShadowSkadu P} (hroom : s.entry.length ≤ SPARSE_ENTRIES)
    (hhighs : s.highs = addHighs [] addrs) : Maps addrs (addrs.map (slotIn s.highs)) s := by
  have hseen : ∀ high, high ∈ s.highs ↔ ∃ addr ∈ addrs, addrHigh addr = high := by
    intro high
    rw [hhighs, mem_addHighs, List.mem_map]
    exact or_iff_right List.not_mem_nil
  have hmem : ∀ i < addrs.length, ∃ addr, addrs[i]? = some addr ∧ addrHigh addr ∈ s.highs := by
    intro i hi
    refine ⟨addrs[i], List.getElem?_eq_getElem hi, ?_⟩
    exact (hseen _).mpr ⟨addrs[i], List.getElem_mem hi, rfl⟩
  refine ⟨List.length_map _, ?_, hroom, ?_, hseen, ?_, ?_⟩
  · intro slot hslot
    obtain ⟨addr, haddr, rfl⟩ := List.mem_map.mp hslot
    refine ⟨?_, ?_, TimeTable.getIndex_lt (TimeTable.new .type_64bit) addr⟩
    · have hlt := List.idxOf_lt_length_of_mem ((hseen _).mpr ⟨addr, haddr, rfl⟩)
      rw [highs, List.length_map] at hlt
      exact hlt
    · show segIndex addr < SEGMENT_ENTRIES
      rw [segIndex_eq]
      exact Nat.mod_lt _ (by decide)
  · rw [hhighs]
    exact nodup_addHighs List.nodup_nil addrs
  · intro i hi j hj
    obtain ⟨addr, haddr, hin⟩ := hmem i hi
    obtain ⟨addr', haddr', -⟩ := hmem j hj
    rw [List.getElem?_map, List.getElem?_map, haddr, haddr']
    simp only [Option.map_some, Option.some.injEq]
    exact List.idxOf_inj hin
  · intro i hi j hj
    obtain ⟨addr, haddr, hin⟩ := hmem i hi
    obtain ⟨addr', haddr', -⟩ := hmem j hj
    rw [List.getElem?_map, List.getElem?_map, haddr, haddr']
    simp only [Option.map_some, Option.some.injEq]
    exact slotIn_eq_iff hin

/-- **Addresses are mapped to words exactly as long as the sparse table has
room.**  For every sequence of 64-bit addresses, the lookups are made and map the
addresses as they should if and only if the addresses have at most 32 different
upper halves. -/
theorem address_slots_iff (cfg : ShadowConfig) (addrs : List (BitVec 64)) :
    (∃ slots s, lookupAll (addrs.map BitVec.toNat) (init cfg : MShadowSkadu P) = some (slots, s) ∧
        Maps (addrs.map BitVec.toNat) slots s) ↔
      ((addrs.map fun addr => addrHigh addr.toNat).toFinset).card ≤ SPARSE_ENTRIES := by
  have hempty : (init cfg : MShadowSkadu P).highs = [] := rfl
  obtain ⟨hsome, hnone⟩ := lookupAll_eq (addrs.map BitVec.toNat) (init cfg : MShadowSkadu P)
    (Nat.zero_le _)
  rw [hempty] at hsome hnone
  have hcard : (addHighs [] (addrs.map BitVec.toNat)).length
      = ((addrs.map fun addr => addrHigh addr.toNat).toFinset).card := by
    rw [← List.toFinset_card_of_nodup (nodup_addHighs List.nodup_nil _)]
    congr 1
    ext high
    rw [List.mem_toFinset, List.mem_toFinset, mem_addHighs, List.map_map]
    exact or_iff_right List.not_mem_nil
  rw [← hcard]
  constructor
  · rintro ⟨slots, s, hrun, -⟩
    by_contra hlt
    rw [hnone hlt] at hrun
    cases hrun
  · intro hle
    obtain ⟨s, hrun, hhighs⟩ := hsome hle
    refine ⟨_, s, hrun, maps_slotIn ?_ hhighs⟩
    have hlength : s.highs.length = s.entry.length := List.length_map _
    rw [← hlength, hhighs]
    exact hle

/-- Addresses with 33 different upper halves. -/
def manyHighs : List (BitVec 64) := (List.range 33).map fun i => BitVec.ofNat 64 (i * 2 ^ 32)

/-- The 33rd upper half has no room: its entry would be behind the table. -/
theorem lookups_overflow : ¬∃ slots s,
    lookupAll (manyHighs.map BitVec.toNat) (init ⟨false, 0, 0⟩ : MShadowSkadu ℕ) = some (slots, s) ∧
      Maps (manyHighs.map BitVec.toNat) slots s := by
  rintro ⟨slots, s, hrun, -⟩
  have hnone := (lookupAll_eq (manyHighs.map BitVec.toNat) (init ⟨false, 0, 0⟩ : MShadowSkadu ℕ)
    (Nat.zero_le _)).2 (by decide +kernel)
  rw [hnone] at hrun
  cases hrun

end MShadowSkadu

end Kremlin.Shadow
