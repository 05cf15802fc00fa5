/-
  Kremlin.Shadow.SkaduSegments — the page of an address in `MShadowSkadu`.

  The sparse table has one entry for each upper half of the addresses, the
  entry's segment one pointer for each page.  §1 reads the two together
  (`pageAt`); §2 says what finding an entry and registering a page do to that.
-/
import Kremlin.Library.KeyedList
import Kremlin.Shadow.MShadowSkadu
import Kremlin.Shadow.TimeTable

namespace Kremlin.Shadow

open Kremlin.Library

namespace MShadowSkadu

variable {P : Type}

/-! ## §1. The page of an address. -/

/-- The page of an address, if it was made. -/
def pageAt (entry : List (SparseTableElement P)) (addr : ℕ) : Option P :=
  (entry.find? fun e => e.addrHigh = addrHigh addr).bind fun e => e.segTable (segIndex addr)

/-- The entries are for different upper halves, all of them among `hs`. -/
abbrev Segmented (hs : Finset ℕ) (entry : List (SparseTableElement P)) : Prop :=
  Keyed SparseTableElement.addrHigh hs entry

theorem addrHigh_eq (addr : ℕ) : addrHigh addr = addr / 2 ^ 32 := Nat.shiftRight_eq_div_pow _ _

theorem segIndex_eq (addr : ℕ) : segIndex addr = addr / 2 ^ 12 % 2 ^ 20 := by
  unfold segIndex
  rw [show (0xfffff : ℕ) = 2 ^ 20 - 1 from rfl, Nat.and_two_pow_sub_one_eq_mod,
    Nat.shiftRight_eq_div_pow]

/-- The entry and the index in its segment are those of the page. -/
theorem page_eq_iff (addr addr' : ℕ) : TimeTable.page addr = TimeTable.page addr' ↔
    addrHigh addr = addrHigh addr' ∧ segIndex addr = segIndex addr' := by
  rw [addrHigh_eq, addrHigh_eq, segIndex_eq, segIndex_eq]
  unfold TimeTable.page
  omega

theorem pageAt_congr (entry : List (SparseTableElement P)) {addr addr' : ℕ}
    (h : TimeTable.page addr = TimeTable.page addr') : pageAt entry addr = pageAt entry addr' := by
  obtain ⟨hhigh, hindex⟩ := (page_eq_iff addr addr').mp h
  unfold pageAt
  rw [hhigh, hindex]

variable {pre post : List (SparseTableElement P)} {e : SparseTableElement P}

/-- The page of an address, where the entry is the first one for its upper
half. -/
theorem pageAt_split (hpre : ∀ x ∈ pre, x.addrHigh ≠ e.addrHigh) (addr : ℕ) :
    pageAt (pre ++ e :: post) addr
      = if addrHigh addr = e.addrHigh then e.segTable (segIndex addr)
        else pageAt (pre ++ post) addr := by
  unfold pageAt
  rw [find?_mid SparseTableElement.addrHigh hpre]
  by_cases ha : addrHigh addr = e.addrHigh
  · rw [if_pos ha, if_pos ha.symm]
    rfl
  · rw [if_neg ha, if_neg fun h => ha h.symm]

/-! ## §2. Finding entries and registering pages. -/

/-- **Finding the entry of an address** makes one if there is none. -/
theorem getElement_spec {hs : Finset ℕ} {s : MShadowSkadu P} (h : Segmented hs s.entry)
    (hcard : hs.card ≤ SPARSE_ENTRIES) {addr : ℕ} (haddr : addrHigh addr ∈ hs) :
    ∃ pre e post,
      s.getElement addr = some (pre.length, { s with entry := pre ++ e :: post }) ∧
      e.addrHigh = addrHigh addr ∧ (∀ x ∈ pre, x.addrHigh ≠ e.addrHigh) ∧
      (∀ a, pageAt (pre ++ e :: post) a = pageAt s.entry a) ∧
      Segmented hs (pre ++ e :: post) := by
  unfold getElement
  cases hf : s.entry.findIdx? fun e => decide (e.addrHigh = addrHigh addr) with
  | some i =>
      obtain ⟨pre, e, post, hsplit, hlen, hhere, hpre⟩ :=
        findIdx?_split SparseTableElement.addrHigh hf
      refine ⟨pre, e, post, ?_, hhere, ?_, ?_, ?_⟩
      · rw [hlen, ← hsplit]
      · rw [hhere]
        exact hpre
      · intro a
        rw [← hsplit]
      · rw [← hsplit]
        exact h
  | none =>
      have hpre := ne_of_findIdx?_none SparseTableElement.addrHigh hf
      have hnot : addrHigh addr ∉ s.entry.map SparseTableElement.addrHigh := by
        intro hin
        obtain ⟨e, he, heq⟩ := List.mem_map.mp hin
        exact hpre e he heq
      refine ⟨s.entry, ⟨addrHigh addr, fun _ => none⟩, [], ?_, rfl, hpre, ?_, ?_⟩
      · exact if_pos (Nat.lt_of_lt_of_le (h.length_lt haddr hnot) hcard)
      · intro a
        rw [pageAt_split hpre, List.append_nil]
        split
        next ha =>
          unfold pageAt
          rw [ha, find?_eq_none_of_ne SparseTableElement.addrHigh hpre]
          rfl
        next => rfl
      · exact h.append haddr hnot

/-- **Registering a page** under its index. -/
theorem pageAt_register {addr : ℕ} (hhigh : e.addrHigh = addrHigh addr)
    (hpre : ∀ x ∈ pre, x.addrHigh ≠ e.addrHigh) (p : P) (a : ℕ) :
    pageAt ((pre ++ e :: post).modify pre.length fun e =>
        { e with segTable := Function.update e.segTable (segIndex addr) (some p) }) a
      = if TimeTable.page a = TimeTable.page addr then some p
        else pageAt (pre ++ e :: post) a := by
  let e' : SparseTableElement P :=
    { e with segTable := Function.update e.segTable (segIndex addr) (some p) }
  rw [modify_mid, pageAt_split (e := e') hpre, pageAt_split hpre]
  by_cases ha : addrHigh a = e.addrHigh
  · have hiff : TimeTable.page a = TimeTable.page addr ↔ segIndex a = segIndex addr := by
      rw [page_eq_iff, ha, hhigh]
      simp
    rw [if_pos ha, if_pos ha]
    show Function.update e.segTable (segIndex addr) (some p) (segIndex a) = _
    rw [Function.update_apply]
    simp only [hiff]
  · have hne : TimeTable.page a ≠ TimeTable.page addr := by
      intro heq
      apply ha
      rw [hhigh]
      exact ((page_eq_iff a addr).mp heq).1
    rw [if_neg ha, if_neg ha, if_neg hne]

end MShadowSkadu

end Kremlin.Shadow
