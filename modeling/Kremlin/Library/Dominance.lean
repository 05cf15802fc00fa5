/-
  Kremlin.Library.Dominance — nodes that every path to another goes through.

  One node dominates another when no path from the entry reaches the second
  without the first.  A function that gives a common dominator of two nodes
  gives one of any number of nodes when it is folded over them
  (`foldl_dominates`).
-/
import Kremlin.Library.DepthFirst
import Mathlib.Data.List.Chain

namespace Kremlin.Library

variable {V : Type} {succ : V → List V} {entry : V}

/-- A path from the entry to `b`, by its nodes. -/
structure EntryPath (succ : V → List V) (entry b : V) (path : List V) : Prop where
  chain : path.IsChain (Next succ)
  first : path.head? = some entry
  last : path.getLast? = some b

/-- Every path from the entry to `b` goes through `a`. -/
def Dominates (succ : V → List V) (entry a b : V) : Prop :=
  ∀ path, EntryPath succ entry b path → a ∈ path

/-- A node is on every path to itself. -/
theorem Dominates.refl (a : V) : Dominates succ entry a a :=
  fun _ hpath => List.mem_of_getLast? hpath.last

/-- Dominators of dominators dominate. -/
theorem Dominates.trans {a b c : V} (hab : Dominates succ entry a b)
    (hbc : Dominates succ entry b c) : Dominates succ entry a c := by
  intro path hpath
  -- the path to `c` begins with one to `b`
  obtain ⟨l₁, l₂, rfl⟩ := List.append_of_mem (hbc path hpath)
  have hsplit : l₁ ++ b :: l₂ = (l₁ ++ [b]) ++ l₂ := by
    rw [List.append_assoc]
    rfl
  have hprefix : EntryPath succ entry b (l₁ ++ [b]) := by
    refine ⟨?_, ?_, by simp⟩
    · exact (hsplit ▸ hpath.chain).left_of_append
    · have hfirst := hpath.first
      cases l₁ <;> simpa using hfirst
  rw [hsplit]
  exact List.mem_append_left l₂ (hab _ hprefix)

/-- `d` is the nearest common dominator of `a` and `b`. -/
structure NearestCommon (succ : V → List V) (entry a b d : V) : Prop where
  left : Dominates succ entry d a
  right : Dominates succ entry d b
  nearest : ∀ x, Dominates succ entry x a → Dominates succ entry x b → Dominates succ entry x d

/-- **Common dominators, folded over a list.** -/
theorem foldl_dominates {common : V → V → V} {ok : V → Prop}
    (h : ∀ a b, ok a → ok b → ok (common a b) ∧ NearestCommon succ entry a b (common a b))
    (xs : List V) {first : V} (hfirst : ok first) (hxs : ∀ x ∈ xs, ok x) :
    ok (xs.foldl common first) ∧ Dominates succ entry (xs.foldl common first) first ∧
      ∀ x ∈ xs, Dominates succ entry (xs.foldl common first) x := by
  induction xs generalizing first with
  | nil => exact ⟨hfirst, Dominates.refl first, fun x hx => by cases hx⟩
  | cons x xs ih =>
      obtain ⟨hok, hcommon⟩ := h first x hfirst (hxs x List.mem_cons_self)
      obtain ⟨hok', hle, hall⟩ := ih hok fun y hy => hxs y (List.mem_cons_of_mem x hy)
      refine ⟨hok', hle.trans hcommon.left, fun y hy => ?_⟩
      rcases List.mem_cons.mp hy with rfl | hy
      · exact hle.trans hcommon.right
      · exact hall y hy

end Kremlin.Library
