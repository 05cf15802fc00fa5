/-
  Kremlin.Library.Overlay — several writers of one table.

  Each writer fills the cells it covers and leaves the others alone; they write
  one after the other.  The last writer of a cell wins, so the order shows as
  soon as two writers disagree about a cell that both cover, and in no other
  case (`overlay_perm_iff`).
-/
import Mathlib.Data.List.Induction
import Mathlib.Data.List.Perm.Basic
import Mathlib.Tactic.Common

namespace Kremlin.Library

variable {ι κ β : Type}

/-- Let the writers `xs` write over `w`, the first one first. -/
def overlay (f : ι → κ → Option β) (xs : List ι) (w : κ → β) : κ → β :=
  xs.foldl (fun w x k => (f x k).getD (w k)) w

/-- Writers that cover the same cell write the same. -/
def Agree (f : ι → κ → Option β) (xs : List ι) : Prop :=
  ∀ a ∈ xs, ∀ b ∈ xs, ∀ k u v, f a k = some u → f b k = some v → u = v

variable {f : ι → κ → Option β}

/-- Nobody writes. -/
@[simp] theorem overlay_nil (w : κ → β) : overlay f [] w = w := rfl

/-- **The last writer wins.** -/
theorem overlay_concat (xs : List ι) (x : ι) (w : κ → β) (k : κ) :
    overlay f (xs ++ [x]) w k = (f x k).getD (overlay f xs w k) := by
  unfold overlay
  rw [List.foldl_append]
  rfl

/-- A cell nobody covers keeps its value. -/
theorem overlay_of_none {xs : List ι} {k : κ} (h : ∀ x ∈ xs, f x k = none) (w : κ → β) :
    overlay f xs w k = w k := by
  induction xs using List.reverseRecOn with
  | nil => rfl
  | append_singleton xs x ih =>
      rw [overlay_concat, h x (by simp), Option.getD_none]
      exact ih fun y hy => h y (List.mem_append_left _ hy)

/-- A cell that is covered has what its writers write, when they all write the
same. -/
theorem overlay_of_some {xs : List ι} {k : κ} {v : β} (hx : ∃ x ∈ xs, f x k = some v)
    (hall : ∀ x ∈ xs, ∀ u, f x k = some u → u = v) (w : κ → β) : overlay f xs w k = v := by
  induction xs using List.reverseRecOn with
  | nil => simp at hx
  | append_singleton xs y ih =>
      rw [overlay_concat]
      cases hy : f y k with
      | some u => exact hall y (by simp) u hy
      | none =>
          obtain ⟨x, hx, hv⟩ := hx
          have hne : x ≠ y := by
            rintro rfl
            rw [hy] at hv
            cases hv
          have hx : x ∈ xs := by simpa [hne] using hx
          exact ih ⟨x, hx, hv⟩ fun z hz => hall z (List.mem_append_left _ hz)

/-- Writers that agree can write in any order. -/
theorem overlay_perm {xs ys : List ι} (hagree : Agree f xs) (h : xs.Perm ys) (w : κ → β) :
    overlay f xs w = overlay f ys w := by
  unfold overlay
  apply h.foldl_eq' (f := fun w x k => (f x k).getD (w k))
  intro a ha b hb w
  funext k
  show (f b k).getD ((f a k).getD (w k)) = (f a k).getD ((f b k).getD (w k))
  cases hfa : f a k with
  | none => rfl
  | some u =>
      cases hfb : f b k with
      | none => rfl
      | some v => exact (hagree a ha b hb k u v hfa hfb).symm

/-- A list with one of its items moved to the end. -/
def moveToEnd [DecidableEq ι] (x : ι) (xs : List ι) : List ι := xs.erase x ++ [x]

/-- Moving a writer to the end leaves the writers the same. -/
theorem moveToEnd_perm [DecidableEq ι] {x : ι} {xs : List ι} (hx : x ∈ xs) :
    (moveToEnd x xs).Perm xs := by
  unfold moveToEnd
  exact (List.perm_append_singleton x _).trans (List.perm_cons_erase hx).symm

/-- What the item moved to the end covers is as that item wrote it. -/
theorem overlay_moveToEnd [DecidableEq ι] {x : ι} (xs : List ι) {k : κ} {v : β}
    (h : f x k = some v) (w : κ → β) : overlay f (moveToEnd x xs) w k = v := by
  unfold moveToEnd
  rw [overlay_concat, h, Option.getD_some]

/-- **All orders of the writers leave the same table if and only if the writers
agree.** -/
theorem overlay_perm_iff [DecidableEq ι] (xs : List ι) (w : κ → β) :
    (∀ ys, ys.Perm xs → overlay f ys w = overlay f xs w) ↔ Agree f xs := by
  constructor
  · intro h a ha b hb k u v hu hv
    rw [← overlay_moveToEnd xs hu w, h _ (moveToEnd_perm ha), ← h _ (moveToEnd_perm hb),
      overlay_moveToEnd xs hv w]
  · intro h ys hys
    exact (overlay_perm h hys.symm w).symm

end Kremlin.Library
