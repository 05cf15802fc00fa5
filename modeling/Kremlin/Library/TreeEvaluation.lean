/-
  Kremlin.Library.TreeEvaluation — evaluating a tree from its leaves up.

  The value of a node comes from the values of its children by a rule of its
  own; a rule may fail.  When the rule of a single node changes, the values off
  the path from that node to the root stay (`CurrentOff.of_change`), and
  re-evaluating the path from the node upwards restores all of them
  (`CurrentOff.step`, `CurrentOff.last`).
-/
import Kremlin.Library.TreeSelection

namespace Kremlin.Library

namespace FiniteTree

variable {α β : Type} [DecidableEq α]

/-- The value of `v`, by the rules `f`. -/
def evaluate (T : FiniteTree α) (f : α → (α → Option β) → Option β) (v : α) : Option β :=
  f v fun c => if _ : c ∈ T.children v then T.evaluate f c else none
termination_by T.height v
decreasing_by exact height_lt ‹_›

variable {T : FiniteTree α} {f g : α → (α → Option β) → Option β} {t : α → Option β} {c p v x : α}

/-- Rules that look at nothing but the values of the children. -/
def Local (T : FiniteTree α) (f : α → (α → Option β) → Option β) : Prop :=
  ∀ v t t', (∀ c ∈ T.children v, t c = t' c) → f v t = f v t'

omit [DecidableEq α] in
/-- A rule looks at the children only. -/
theorem Local.eq (hf : T.Local f) {t' : α → Option β} (h : ∀ c ∈ T.children v, t c = t' c) :
    f v t = f v t' :=
  hf v t t' h

/-- The values satisfy the rules. -/
theorem evaluate_eq (hf : T.Local f) (v : α) : T.evaluate f v = f v (T.evaluate f) := by
  rw [evaluate]
  refine hf.eq fun c hc => ?_
  rw [dif_pos hc]

/-- Only the rules at and below a node count. -/
theorem evaluate_congr (hf : T.Local f) (hg : T.Local g) (h : ∀ y, T.Anc v y → f y = g y) :
    T.evaluate f v = T.evaluate g v := by
  induction v using induction_children (T := T) with
  | h v ih =>
      rw [evaluate_eq hf, evaluate_eq hg, h v (Forest.Anc.refl v)]
      refine hg.eq fun c hc => ?_
      exact ih c hc fun y hy => h y ((anc_of_child hc).trans hy)

/-- The table holds the values of all nodes that are not at or above `c`. -/
def CurrentOff (T : FiniteTree α) (f : α → (α → Option β) → Option β) (c : α)
    (t : α → Option β) : Prop :=
  ∀ v, ¬ T.Anc v c → t v = T.evaluate f v

/-- A change of one rule. -/
theorem CurrentOff.of_change (hf : T.Local f) (hg : T.Local g) (h : ∀ v, t v = T.evaluate f v)
    (hx : ∀ v, v ≠ x → f v = g v) : T.CurrentOff g x t := by
  intro v hv
  rw [h v]
  refine evaluate_congr hf hg fun y hy => hx y ?_
  rintro rfl
  exact hv hy

/-- The node itself can be evaluated. -/
theorem CurrentOff.value (hg : T.Local g) (h : T.CurrentOff g c t) :
    g c t = T.evaluate g c := by
  rw [evaluate_eq hg]
  exact hg.eq fun d hd => h d (not_anc_of_child hd)

/-- Evaluating it leaves what is above it. -/
theorem CurrentOff.step (hg : T.Local g) (h : T.CurrentOff g c t) (hp : T.parent c = some p) :
    T.CurrentOff g p (Function.update t c (g c t)) := by
  intro v hv
  by_cases hvc : v = c
  · subst hvc
    rw [Function.update_self, h.value hg]
  · rw [Function.update_of_ne hvc]
    refine h v fun hanc => ?_
    rcases hanc.cases_parent hp with heq | hvp
    · exact hvc heq
    · exact hv hvp

/-- At a node without a parent nothing is left. -/
theorem CurrentOff.last (hg : T.Local g) (h : T.CurrentOff g c t) (hp : T.parent c = none) :
    ∀ v, Function.update t c (g c t) v = T.evaluate g v := by
  intro v
  by_cases hvc : v = c
  · subst hvc
    rw [Function.update_self, h.value hg]
  · rw [Function.update_of_ne hvc]
    exact h v fun hanc => hvc (hanc.eq_of_root hp)

end FiniteTree

end Kremlin.Library
