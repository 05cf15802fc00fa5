/-
  Kremlin.Library.RunningExtremes — minima and maxima kept one value at a time.

  A running minimum starts at a value that is not one of those seen.  It ends as
  the least of the start and the values (`isLeast_runningMin`): the true minimum
  if the start is at least as large as they are, and the start itself if it is
  smaller than all of them (`runningMin_eq_start`).
-/
import Mathlib.Order.Bounds.OrderIso
import Mathlib.Order.MinMax
import Mathlib.Tactic.Common

namespace Kremlin.Library

variable {α β : Type} [LinearOrder β]

/-- Keep the smaller value, from the left. -/
def runningMin (f : α → β) (start : β) (xs : List α) : β :=
  xs.foldl (fun least x => min least (f x)) start

/-- Keep the larger value, from the left. -/
def runningMax (f : α → β) (start : β) (xs : List α) : β :=
  xs.foldl (fun greatest x => max greatest (f x)) start

/-- One value more. -/
theorem runningMin_cons (f : α → β) (start : β) (x : α) (xs : List α) :
    runningMin f start (x :: xs) = runningMin f (min start (f x)) xs := rfl

/-- One value more. -/
theorem runningMax_cons (f : α → β) (start : β) (x : α) (xs : List α) :
    runningMax f start (x :: xs) = runningMax f (max start (f x)) xs := rfl

/-- The values of `f` on a list. -/
def valuesOf (f : α → β) (xs : List α) : Set β := {y | ∃ x ∈ xs, f x = y}

omit [LinearOrder β] in
/-- A value of an item. -/
theorem mem_valuesOf {f : α → β} {xs : List α} {x : α} (hx : x ∈ xs) : f x ∈ valuesOf f xs :=
  ⟨x, hx, rfl⟩

omit [LinearOrder β] in
/-- The first item's value may be counted with the start. -/
theorem insert_valuesOf_cons (f : α → β) (start : β) (x : α) (xs : List α) :
    insert start (valuesOf f (x :: xs)) = insert start (insert (f x) (valuesOf f xs)) := by
  ext y
  constructor
  · rintro (rfl | ⟨z, hz, rfl⟩)
    · exact Set.mem_insert _ _
    · rcases List.mem_cons.mp hz with rfl | hz
      · exact Set.mem_insert_of_mem _ (Set.mem_insert _ _)
      · exact Set.mem_insert_of_mem _ (Set.mem_insert_of_mem _ (mem_valuesOf hz))
  · rintro (rfl | rfl | ⟨z, hz, rfl⟩)
    · exact Set.mem_insert _ _
    · exact Set.mem_insert_of_mem _ (mem_valuesOf List.mem_cons_self)
    · exact Set.mem_insert_of_mem _ (mem_valuesOf (List.mem_cons_of_mem _ hz))

/-- The running minimum is the least of the start and the values. -/
theorem isLeast_runningMin (f : α → β) (start : β) (xs : List α) :
    IsLeast (insert start (valuesOf f xs)) (runningMin f start xs) := by
  induction xs generalizing start with
  | nil =>
      have hnone : valuesOf f [] = ∅ := by simp [valuesOf]
      rw [hnone]
      simp [runningMin]
  | cons x xs ih =>
      rw [insert_valuesOf_cons, runningMin_cons]
      obtain ⟨hmem, hle⟩ := ih (min start (f x))
      have hstart := hle (Set.mem_insert _ _)
      refine ⟨?_, fun y hy => ?_⟩
      · -- the running value is one of those seen
        rcases Set.mem_insert_iff.mp hmem with heq | hmem
        · rw [heq]
          rcases min_choice start (f x) with h | h
          · rw [h]
            exact Set.mem_insert _ _
          · rw [h]
            exact Set.mem_insert_of_mem _ (Set.mem_insert _ _)
        · exact Set.mem_insert_of_mem _ (Set.mem_insert_of_mem _ hmem)
      · rcases Set.mem_insert_iff.mp hy with rfl | hy
        · exact hstart.trans (min_le_left _ _)
        · rcases Set.mem_insert_iff.mp hy with rfl | hy
          · exact hstart.trans (min_le_right _ _)
          · exact hle (Set.mem_insert_of_mem _ hy)

variable {f : α → β} {start : β} {xs : List α}

/-- A start that is large enough does not show. -/
theorem isLeast_runningMin_of_le (hne : xs ≠ []) (h : ∀ x ∈ xs, f x ≤ start) :
    IsLeast (valuesOf f xs) (runningMin f start xs) := by
  obtain ⟨hmem, hle⟩ := isLeast_runningMin f start xs
  refine ⟨?_, fun y hy => hle (Set.mem_insert_of_mem _ hy)⟩
  rcases Set.mem_insert_iff.mp hmem with heq | hmem
  · -- then some value equals the start
    obtain ⟨x, hx⟩ := List.exists_mem_of_ne_nil xs hne
    have hmin := hle (Set.mem_insert_of_mem _ (mem_valuesOf hx))
    rw [heq] at hmin ⊢
    exact ⟨x, hx, le_antisymm (h x hx) hmin⟩
  · exact hmem

/-- A start below the values does not show. -/
theorem isGreatest_runningMax_of_le (hne : xs ≠ []) (h : ∀ x ∈ xs, start ≤ f x) :
    IsGreatest (valuesOf f xs) (runningMax f start xs) :=
  @isLeast_runningMin_of_le α βᵒᵈ _ f start xs hne h

/-- A start that is smaller than every value stays. -/
theorem runningMin_eq_start (h : ∀ x ∈ xs, start ≤ f x) : runningMin f start xs = start := by
  obtain ⟨hmem, hle⟩ := isLeast_runningMin f start xs
  refine le_antisymm (hle (Set.mem_insert _ _)) ?_
  rcases Set.mem_insert_iff.mp hmem with heq | ⟨x, hx, heq⟩
  · exact heq.ge
  · rw [← heq]
    exact h x hx

end Kremlin.Library
