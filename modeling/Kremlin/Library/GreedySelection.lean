/-
  Kremlin.Library.GreedySelection — taking from a list what is left.

  The items of a list are taken one after the other; each taken item retires
  the items it excludes.  When exclusion is symmetric, no taken item excludes
  another (`pairwise_greedy`); and when the list is sorted by decreasing value,
  every item that is left out is excluded by a taken one of at least its value
  (`exists_excluding`).
-/
import Mathlib.Data.Finset.Lattice.Lemmas
import Mathlib.Data.List.Sort
import Mathlib.Tactic.Common

namespace Kremlin.Library

variable {α β : Type} [DecidableEq α] {excl : α → Finset α} {retired : Finset α} {xs : List α}
  {x y : α}

/-- Take the items that are not retired, in their order. -/
def greedy (excl : α → Finset α) (retired : Finset α) : List α → List α
  | [] => []
  | x :: xs =>
      if x ∈ retired then greedy excl retired xs
      else x :: greedy excl (retired ∪ excl x) xs

/-- What is taken stays in order. -/
theorem greedy_sublist (xs : List α) (retired : Finset α) :
    (greedy excl retired xs).Sublist xs := by
  induction xs generalizing retired with
  | nil => exact List.Sublist.refl _
  | cons x xs ih =>
      unfold greedy
      split
      · exact (ih retired).cons x
      · exact (ih _).cons_cons x

/-- Nothing retired is taken. -/
theorem not_mem_retired (h : x ∈ greedy excl retired xs) : x ∉ retired := by
  induction xs generalizing retired with
  | nil => cases h
  | cons y xs ih =>
      unfold greedy at h
      split at h
      · exact ih h
      · next hy =>
          rcases List.mem_cons.mp h with rfl | h
          · exact hy
          · exact fun hx => ih h (Finset.mem_union_left _ hx)

/-- **What is taken later is not excluded by what was taken before.** -/
theorem pairwise_greedy (xs : List α) (retired : Finset α) :
    (greedy excl retired xs).Pairwise fun x y => y ∉ excl x := by
  induction xs generalizing retired with
  | nil => exact List.Pairwise.nil
  | cons x xs ih =>
      unfold greedy
      split
      · exact ih retired
      · refine List.pairwise_cons.mpr ⟨fun y hy hxy => ?_, ih _⟩
        exact not_mem_retired hy (Finset.mem_union_right _ hxy)

/-- **What is left out is excluded by something taken that is worth as much.** -/
theorem exists_excluding [LE β] {f : α → β} (hsorted : xs.Pairwise fun x y => f y ≤ f x)
    (hx : x ∈ xs) (hretired : x ∉ retired) (hout : x ∉ greedy excl retired xs) :
    ∃ y ∈ greedy excl retired xs, x ∈ excl y ∧ f x ≤ f y := by
  induction xs generalizing retired with
  | nil => cases hx
  | cons y xs ih =>
      obtain ⟨hy, hsorted⟩ := List.pairwise_cons.mp hsorted
      unfold greedy at hout ⊢
      by_cases hretiredy : y ∈ retired
      · rw [if_pos hretiredy] at hout ⊢
        have hne : x ≠ y := fun heq => hretired (heq ▸ hretiredy)
        exact ih hsorted ((List.mem_cons.mp hx).resolve_left hne) hretired hout
      · rw [if_neg hretiredy] at hout ⊢
        have hne : x ≠ y := fun heq => hout (heq ▸ List.mem_cons_self)
        have hx := (List.mem_cons.mp hx).resolve_left hne
        by_cases hxy : x ∈ excl y
        · -- the item just taken retires it
          exact ⟨y, List.mem_cons_self, hxy, hy x hx⟩
        · have hretired' : x ∉ retired ∪ excl y := by
            rw [Finset.mem_union]
            exact not_or.mpr ⟨hretired, hxy⟩
          obtain ⟨z, hz, hxz, hle⟩ :=
            ih hsorted hx hretired' fun hmem => hout (List.mem_cons_of_mem _ hmem)
          exact ⟨z, List.mem_cons_of_mem _ hz, hxz, hle⟩

omit [DecidableEq α] in
/-- Sorting by a key, the largest first, whatever the comparison does elsewhere. -/
theorem pairwise_mergeSort_of_key [LinearOrder β] {f : α → β} {le : α → α → Bool} {xs : List α}
    (h : ∀ x ∈ xs, ∀ y ∈ xs, le x y = decide (f y ≤ f x)) :
    (xs.mergeSort le).Pairwise fun x y => f y ≤ f x := by
  have hsame := List.map_mergeSort (s := fun x y => decide (f y ≤ f x)) (f := id) h
  rw [List.map_id, List.map_id] at hsame
  rw [hsame]
  have hsorted : (xs.mergeSort fun x y => decide (f y ≤ f x)).Pairwise
      fun x y => decide (f y ≤ f x) = true := by
    apply List.pairwise_mergeSort
    · intro a b c hab hbc
      rw [decide_eq_true_eq] at hab hbc ⊢
      exact hbc.trans hab
    · intro a b
      rw [Bool.or_eq_true, decide_eq_true_eq, decide_eq_true_eq]
      exact le_total _ _
  exact hsorted.imp fun hle => of_decide_eq_true hle

end Kremlin.Library
