/-
  Kremlin.Library.PairwiseReduction — combining a list pair by pair.

  A round combines neighbours; of an odd number the last goes to the front.  For an
  associative and commutative operation the list keeps its total (`total_round`).
-/
import Mathlib.Data.List.Perm.Basic
import Mathlib.Tactic.Common

namespace Kremlin.Library

variable {V : Type} (op : V → V → V)

/-- Neighbours are combined. -/
def pairs : List V → List V
  | x :: y :: xs => op x y :: pairs xs
  | xs => xs

/-- All elements, from the left. -/
def total : List V → Option V
  | [] => none
  | x :: xs => some (xs.foldl op x)

/-- An even number of elements keeps its order; of an odd number the last goes to the
front, by itself. -/
def oddFront {α : Type} (xs : List α) : List α × List α :=
  if xs.length % 2 = 1 then (xs.getLast?.toList, xs.dropLast) else ([], xs)

/-- What is left makes pairs. -/
theorem oddFront_even {α : Type} (xs : List α) : (oddFront xs).2.length % 2 = 0 := by
  unfold oddFront
  split
  · next hodd =>
    show xs.dropLast.length % 2 = 0
    rw [List.length_dropLast]
    omega
  · next heven =>
    show xs.length % 2 = 0
    omega

/-- The elements are the same. -/
theorem oddFront_perm {α : Type} (xs : List α) :
    ((oddFront xs).1 ++ (oddFront xs).2).Perm xs := by
  unfold oddFront
  split
  · next hodd =>
    have hne : xs ≠ [] := by
      rintro rfl
      cases hodd
    show (xs.getLast?.toList ++ xs.dropLast).Perm xs
    rw [List.getLast?_eq_some_getLast hne]
    refine List.perm_append_comm.trans ?_
    show (xs.dropLast ++ [xs.getLast hne]).Perm xs
    rw [List.dropLast_concat_getLast hne]
  · exact List.Perm.refl xs

/-- No item is lost. -/
theorem length_oddFront {α : Type} (xs : List α) :
    (oddFront xs).1.length + (oddFront xs).2.length = xs.length := by
  rw [← List.length_append]
  exact (oddFront_perm xs).length_eq

/-- At most one item goes to the front. -/
theorem length_oddFront_front {α : Type} (xs : List α) : (oddFront xs).1.length ≤ 1 := by
  unfold oddFront
  split
  · show xs.getLast?.toList.length ≤ 1
    cases xs.getLast? <;> simp
  · exact Nat.zero_le _

/-- The lengths alone decide. -/
theorem oddFront_map {α β : Type} (f : α → β) (xs : List α) :
    oddFront (xs.map f) = ((oddFront xs).1.map f, (oddFront xs).2.map f) := by
  unfold oddFront
  rw [List.length_map]
  split
  · rw [List.getLast?_map, List.map_dropLast]
    cases xs.getLast? <;> rfl
  · rfl

section Total

variable [Std.Associative op]

/-- Combining pairs first gives the same total. -/
theorem foldl_pairs {xs : List V} (h : xs.length % 2 = 0) (x : V) :
    (pairs op xs).foldl op x = xs.foldl op x := by
  induction xs using pairs.induct generalizing x with
  | case1 y z xs ih =>
      rw [List.length_cons, List.length_cons] at h
      rw [pairs, List.foldl_cons, List.foldl_cons, List.foldl_cons, ih (by omega)]
      exact congrArg (xs.foldl op) (Std.Associative.assoc x y z).symm
  | case2 xs hno =>
      match xs with
      | [] => simp [pairs]
      | [x] => cases h
      | x :: y :: xs => exact absurd rfl (hno x y xs)

/-- Behind other elements, combining neighbours keeps the total. -/
theorem total_pairs (front : List V) {xs : List V} (h : xs.length % 2 = 0) :
    total op (front ++ pairs op xs) = total op (front ++ xs) := by
  cases front with
  | cons x front =>
      rw [List.cons_append, List.cons_append]
      show some ((front ++ pairs op xs).foldl op x) = some ((front ++ xs).foldl op x)
      rw [List.foldl_append, List.foldl_append, foldl_pairs op h]
  | nil =>
      match xs with
      | [] => simp [pairs]
      | [x] => cases h
      | x :: y :: xs =>
          rw [List.length_cons, List.length_cons] at h
          rw [List.nil_append, List.nil_append, pairs]
          exact congrArg some (foldl_pairs op (by omega) (op x y))

variable [Std.Commutative op]

/-- The order does not matter. -/
theorem total_perm {xs ys : List V} (h : xs.Perm ys) : total op xs = total op ys := by
  have hassoc : ∀ a b c, op (op a b) c = op a (op b c) := Std.Associative.assoc
  have hcomm : ∀ a b, op a b = op b a := Std.Commutative.comm
  have hright : RightCommutative op := ⟨fun a b c => by rw [hassoc, hcomm b c, hassoc]⟩
  induction h with
  | nil => rfl
  | cons x h ih => exact congrArg some (h.foldl_eq x)
  | swap x y xs =>
      show some (xs.foldl op (op y x)) = some (xs.foldl op (op x y))
      rw [hcomm]
  | trans _ _ ih ih' => exact ih.trans ih'

/-- **A round keeps the total.** -/
theorem total_round (xs : List V) :
    total op ((oddFront xs).1 ++ pairs op (oddFront xs).2) = total op xs := by
  rw [total_pairs op _ (oddFront_even xs)]
  exact total_perm op (oddFront_perm xs)

end Total

end Kremlin.Library
