/-
  Kremlin.Library.TreeLoads — loads that hang on the nodes of a tree.

  Every node of a list carries a load, which counts below each of its proper
  ancestors.  What is below a node is what is below its children and what hangs
  on it directly (`loadBelow_eq`).
-/
import Kremlin.Library.TreeSelection
import Mathlib.Algebra.Order.BigOperators.Group.List

namespace Kremlin.Library

open Relation

namespace Forest

variable {α : Type} (F : Forest α) {a b c v x p : α}

/-- `a` is above `x` and not `x` itself. -/
def ProperAnc (a x : α) : Prop := ∃ p, F.parent x = some p ∧ F.Anc a p

variable {F}

/-- A proper ancestor is an ancestor. -/
theorem ProperAnc.anc (h : F.ProperAnc a x) : F.Anc a x := by
  obtain ⟨p, hp, hap⟩ := h
  exact hap.trans (Anc.of_parent hp)

/-- What is above an ancestor is above the node. -/
theorem ProperAnc.of_anc (h : F.Anc a b) (hx : F.ProperAnc b x) : F.ProperAnc a x := by
  obtain ⟨p, hp, hbp⟩ := hx
  exact ⟨p, hp, h.trans hbp⟩

/-- An ancestor other than the node is proper. -/
theorem ProperAnc.of_ne (h : F.Anc a x) (hne : a ≠ x) : F.ProperAnc a x := by
  rcases ReflTransGen.cases_tail h with heq | ⟨p, hap, hp⟩
  · exact absurd heq.symm hne
  · exact ⟨p, hp, hap⟩

/-- The proper ancestors are those of the parent. -/
theorem properAnc_iff (hp : F.parent x = some p) : F.ProperAnc a x ↔ F.Anc a p := by
  constructor
  · rintro ⟨q, hq, haq⟩
    rw [hp, Option.some.injEq] at hq
    exact hq ▸ haq
  · intro h
    exact ⟨p, hp, h⟩

end Forest

namespace FiniteTree

open Classical in
/-- What the nodes of the list carry that lie properly below `v`. -/
noncomputable def loadBelow {α M : Type} [AddCommMonoid M] (T : FiniteTree α) (load : α → M)
    (xs : List α) (v : α) : M :=
  (xs.map fun x => if T.ProperAnc v x then load x else 0).sum

open Classical in
/-- What the nodes of the list carry whose parent is `v`. -/
noncomputable def loadAt {α M : Type} [AddCommMonoid M] (T : FiniteTree α) (load : α → M)
    (xs : List α) (v : α) : M :=
  (xs.map fun x => if T.parent x = some v then load x else 0).sum

section Conservation

variable {α M : Type} [AddCommMonoid M] {T : FiniteTree α} {load : α → M} {v x : α}

/-- Below `v` is below one child of it, or directly below `v`. -/
theorem properAnc_cases :
    T.ProperAnc v x ↔ T.parent x = some v ∨ ∃ c ∈ T.children v, T.ProperAnc c x := by
  constructor
  · rintro ⟨p, hp, hvp⟩
    rcases anc_cases hvp with rfl | ⟨c, hc, hcp⟩
    · exact .inl hp
    · exact .inr ⟨c, hc, p, hp, hcp⟩
  · rintro (hp | ⟨c, hc, hcx⟩)
    · exact ⟨v, hp, Forest.Anc.refl v⟩
    · exact hcx.of_anc (anc_of_child hc)

open Classical in
/-- The load of one node, counted below `v`, is counted in one place further down. -/
theorem load_eq_sum_children (v x : α) :
    (if T.ProperAnc v x then load x else 0)
      = ∑ c ∈ T.children v, (if T.ProperAnc c x then load x else 0)
        + if T.parent x = some v then load x else 0 := by
  by_cases hp : T.parent x = some v
  · have hnone : ∀ c ∈ T.children v, (if T.ProperAnc c x then load x else 0) = 0 := by
      intro c hc
      rw [if_neg]
      intro hcx
      exact not_anc_of_child hc ((Forest.properAnc_iff hp).mp hcx)
    rw [if_pos (properAnc_cases.mpr (.inl hp)), if_pos hp, Finset.sum_eq_zero hnone, zero_add]
  · rw [if_neg hp, add_zero]
    by_cases hv : T.ProperAnc v x
    · obtain ⟨c, hc, hcx⟩ := (properAnc_cases.mp hv).resolve_left hp
      rw [if_pos hv, Finset.sum_eq_single_of_mem c hc, if_pos hcx]
      intro d hd hdc
      rw [if_neg]
      intro hdx
      exact hdc (child_unique hd hc hdx.anc hcx.anc)
    · rw [if_neg hv, Finset.sum_eq_zero]
      intro c hc
      rw [if_neg]
      intro hcx
      exact hv (properAnc_cases.mpr (.inr ⟨c, hc, hcx⟩))

/-- **Conservation**: what is below a node is what is below its children and
what hangs on it directly. -/
theorem loadBelow_eq (xs : List α) (v : α) :
    T.loadBelow load xs v = ∑ c ∈ T.children v, T.loadBelow load xs c + T.loadAt load xs v := by
  induction xs with
  | nil => simp [loadBelow, loadAt]
  | cons x xs ih =>
      unfold loadBelow loadAt at ih ⊢
      simp only [List.map_cons, List.sum_cons, Finset.sum_add_distrib]
      rw [ih, load_eq_sum_children v x]
      exact add_add_add_comm _ _ _ _

/-- Only the children with some of the list below them count. -/
theorem loadBelow_eq_zero {xs : List α} (h : ∀ x ∈ xs, T.ProperAnc v x → load x = 0) :
    T.loadBelow load xs v = 0 := by
  refine List.sum_eq_zero fun y hy => ?_
  obtain ⟨x, hx, rfl⟩ := List.mem_map.mp hy
  split
  · next hvx => exact h x hx hvx
  · rfl

end Conservation

section Order

variable {α : Type} {T : FiniteTree α} {load : α → ℕ} {xs : List α} {a v x : α}

/-- Further up there is no less. -/
theorem loadBelow_le (h : T.Anc a v) : T.loadBelow load xs v ≤ T.loadBelow load xs a := by
  classical
  refine List.sum_le_sum fun x _ => ?_
  by_cases hv : T.ProperAnc v x
  · rw [if_pos hv, if_pos (hv.of_anc h)]
  · rw [if_neg hv]
    exact Nat.zero_le _

/-- A load below a node counts. -/
theorem loadBelow_pos (hx : x ∈ xs) (hv : T.ProperAnc v x) (hpos : 0 < load x) :
    0 < T.loadBelow load xs v := by
  classical
  have hmem : (if T.ProperAnc v x then load x else 0)
      ∈ xs.map fun x => if T.ProperAnc v x then load x else 0 := List.mem_map_of_mem hx
  have hle := List.single_le_sum (fun _ _ => Nat.zero_le _) _ hmem
  rw [if_pos hv] at hle
  exact Nat.lt_of_lt_of_le hpos hle

end Order

end FiniteTree

end Kremlin.Library
