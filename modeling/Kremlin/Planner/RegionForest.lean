/-
  Kremlin.Planner.RegionForest — the regions of a manager as a tree.

  What the planners see of a `CRegionManager` is its regions and its root.
  Parents and children point to each other and no region is above itself
  (`CRegionManager.IsTree`), so the regions are a finite tree (`IsTree.tree`).
-/
import Kremlin.Library.TreeSelection
import Kremlin.Planner.CRegionManager
import Mathlib.Order.Lattice.Nat

namespace Kremlin.Planner

open Kremlin.Library Relation

/-- The regions and `getRoot()`. -/
structure CRegionManager where
  regionMap : RegionMap
  root : ℕ

namespace CRegionManager

/-- `getParent`, by name. -/
def parentOf (m : CRegionManager) (region : ℕ) : Option ℕ :=
  (m.regionMap.get region).bind CRegion.parent

/-- A region with a parent is in the file. -/
theorem exists_of_parent {m : CRegionManager} {c q : ℕ} (hp : m.parentOf c = some q) :
    ∃ C, m.regionMap.get c = some C ∧ C.parent = some q :=
  Option.bind_eq_some_iff.mp hp

/-- The regions form a finite tree with a single root. -/
structure IsTree (m : CRegionManager) : Prop where
  total : m.regionMap.Total
  child : ∀ q Q, m.regionMap.get q = some Q → ∀ c ∈ Q.children, m.parentOf c = some q
  parent : ∀ c q, m.parentOf c = some q → ∃ Q, m.regionMap.get q = some Q ∧ c ∈ Q.children
  nodup : ∀ q Q, m.regionMap.get q = some Q → Q.children.Nodup
  root : m.root ∈ m.regionMap.keys ∧ m.parentOf m.root = none
  single : ∀ r ∈ m.regionMap.keys, m.parentOf r = none → r = m.root
  acyclic : ∃ rank : ℕ → ℕ, ∀ c q, m.parentOf c = some q → rank q < rank c

namespace IsTree

variable {m : CRegionManager} (h : m.IsTree) {r c q : ℕ} {R : CRegion}

include h in
/-- The keys are the regions. -/
theorem mem_keys : r ∈ m.regionMap.keys ↔ ∃ R, m.regionMap.get r = some R := by
  rw [h.total r, Option.isSome_iff_exists]

include h in
/-- So is a region with a parent. -/
theorem mem_of_parent (hp : m.parentOf c = some q) : c ∈ m.regionMap.keys := by
  obtain ⟨C, hC, -⟩ := Option.bind_eq_some_iff.mp hp
  exact h.mem_keys.mpr ⟨C, hC⟩

/-- The children of a region as a set. -/
def childSet (m : CRegionManager) (q : ℕ) : Finset ℕ :=
  ((m.regionMap.get q).map fun Q => Q.children.toFinset).getD ∅

/-- The children of a region as a set. -/
theorem childSet_eq (hR : m.regionMap.get r = some R) : childSet m r = R.children.toFinset := by
  unfold childSet
  rw [hR]
  rfl

/-- The tree of the manager's regions. -/
noncomputable def tree : FiniteTree ℕ where
  parent := m.parentOf
  rank := h.acyclic.choose
  rank_lt hp := h.acyclic.choose_spec _ _ hp
  children := childSet m
  mem_children {q c} := by
    constructor
    · intro hc
      cases hQ : m.regionMap.get q with
      | none =>
          unfold childSet at hc
          rw [hQ] at hc
          exact absurd hc (Finset.notMem_empty c)
      | some Q =>
          rw [childSet_eq hQ] at hc
          exact h.child q Q hQ c (List.mem_toFinset.mp hc)
    · intro hp
      obtain ⟨Q, hQ, hc⟩ := h.parent c q hp
      rw [childSet_eq hQ]
      exact List.mem_toFinset.mpr hc
  bound := m.regionMap.keys.toFinset.sup h.acyclic.choose
  rank_le hp := Finset.le_sup (f := h.acyclic.choose) (List.mem_toFinset.mpr (h.mem_of_parent hp))

/-- The tree has the parents of the manager -/
theorem tree_parent (c : ℕ) : h.tree.parent c = m.parentOf c := rfl

/-- and its children. -/
theorem tree_children (hR : m.regionMap.get r = some R) :
    h.tree.children r = R.children.toFinset :=
  childSet_eq hR

/-- A region that has something below it is one of the manager's. -/
theorem exists_of_anc (hr : ∃ R, m.regionMap.get r = some R) (ha : h.tree.Anc q r) :
    ∃ Q, m.regionMap.get q = some Q := by
  rcases ReflTransGen.cases_head ha with rfl | ⟨c, hqc, -⟩
  · exact hr
  · obtain ⟨Q, hQ, -⟩ := h.parent c q hqc
    exact ⟨Q, hQ⟩

/-- Every region is below the root: going up, the tree ends nowhere else. -/
theorem root_anc (hr : r ∈ m.regionMap.keys) : h.tree.Anc m.root r := by
  induction hn : h.tree.rank r using Nat.strongRecOn generalizing r with
  | ind n ih =>
      cases hp : m.parentOf r with
      | none =>
          rw [h.single r hr hp]
          exact Forest.Anc.refl _
      | some q =>
          obtain ⟨Q, hQ, -⟩ := h.parent r q hp
          have hlt : h.tree.rank q < h.tree.rank r := h.tree.rank_lt hp
          exact (ih _ (hn ▸ hlt) (h.mem_keys.mpr ⟨Q, hQ⟩) rfl).tail hp

/-! ## Walking up. -/

variable {h} {init x : ℕ} {A : CRegion}

/-- What is at or below a region of the manager is one. -/
theorem exists_below (hA : m.regionMap.get init = some A) (hx : h.tree.Anc init x) :
    ∃ X, m.regionMap.get x = some X := by
  rcases ReflTransGen.cases_tail hx with rfl | ⟨q, -, hq⟩
  · exact ⟨A, hA⟩
  · obtain ⟨X, hX, -⟩ := exists_of_parent hq
    exact ⟨X, hX⟩

/-- **The walk from `p` up to the init** passes what lies between, each once. -/
theorem walkUp_eq (hA : m.regionMap.get init = some A) :
    ∀ {fuel p : ℕ}, h.tree.Anc init p → h.tree.rank p + 2 ≤ fuel →
      ∃ path, walkUp m.regionMap A.parent fuel (some p) = some path ∧ path.Nodup ∧
        ∀ x, x ∈ path ↔ h.tree.Anc init x ∧ h.tree.Anc x p := by
  have hstop : m.parentOf init = A.parent := by
    unfold parentOf
    rw [hA]
    rfl
  intro fuel
  induction fuel with
  | zero =>
      intro p _ hfuel
      omega
  | succ fuel ih =>
      intro p hp hfuel
      obtain ⟨P, hP⟩ := exists_below hA hp
      -- the init's parent is not below the init
      have hne : some p ≠ A.parent := by
        intro heq
        exact Forest.not_anc_parent (F := h.tree.toForest) (hstop.trans heq.symm) hp
      unfold walkUp
      rw [if_neg hne]
      simp only [Option.bind_eq_bind, Option.bind_some, hP]
      rcases ReflTransGen.cases_tail hp with rfl | ⟨q, hq, hqp⟩
      · -- the init itself: the walk stops above it
        obtain rfl := Option.some.inj (hA.symm.trans hP)
        obtain ⟨fuel, rfl⟩ : ∃ n, fuel = n + 1 := ⟨fuel - 1, by omega⟩
        have hnil : walkUp m.regionMap A.parent (fuel + 1) A.parent = some [] := if_pos rfl
        rw [hnil]
        refine ⟨[p], rfl, List.nodup_singleton p, fun x => ?_⟩
        rw [List.mem_singleton]
        constructor
        · rintro rfl
          exact ⟨Forest.Anc.refl x, Forest.Anc.refl x⟩
        · rintro ⟨hpx, hxp⟩
          exact hxp.antisymm hpx
      · have hPq : P.parent = some q := by
          obtain ⟨P', hP', hPq⟩ := exists_of_parent hqp
          rwa [Option.some.inj (hP.symm.trans hP')]
        have hrank : h.tree.rank q < h.tree.rank p := h.tree.rank_lt hqp
        obtain ⟨path, hpath, hnd, hmem⟩ := ih hq (by omega)
        rw [hPq, hpath]
        refine ⟨p :: path, rfl, List.nodup_cons.mpr ⟨?_, hnd⟩, fun x => ?_⟩
        · -- what the rest of the walk passes lies above `p`
          intro hmemp
          exact Forest.not_anc_parent hqp ((hmem p).mp hmemp).2
        · rw [List.mem_cons, hmem]
          constructor
          · rintro (rfl | ⟨hix, hxq⟩)
            · exact ⟨hp, Forest.Anc.refl x⟩
            · exact ⟨hix, hxq.tail hqp⟩
          · rintro ⟨hix, hxp⟩
            rcases hxp.cases_parent hqp with heq | hxq
            · exact .inl heq
            · exact .inr ⟨hix, hxq⟩

end IsTree

/-! ## A program with two loops. -/

/-- `main`, which does 10 units of work itself, and two loops in it. -/
def mainWithLoops : CRegionManager where
  regionMap :=
    { keys := [1, 2, 3]
      get := fun
        | 1 => some ⟨1, .normal, false, [⟨1, 100, 50, 50, 0, 0, 0, 0, 0, .fin 0⟩], none, none, [2, 3], 1⟩
        | 2 => some ⟨2, .normal, false, [⟨1, 60, 6, 6, 0, 0, 0, 0, 0, .fin 0⟩], none, some 1, [], 1⟩
        | 3 => some ⟨3, .normal, false, [⟨1, 30, 3, 3, 0, 0, 0, 0, 0, .fin 0⟩], none, some 1, [], 1⟩
        | _ => none }
  root := 1

/-- The example is a tree. -/
theorem mainWithLoops_isTree : mainWithLoops.IsTree where
  total k := by
    match k with
    | 0 | 1 | 2 | 3 => decide
    | k + 4 => simp [mainWithLoops]
  child q Q hQ := by
    match q, hQ with
    | 1, hQ | 2, hQ | 3, hQ =>
        cases hQ
        decide
  parent c q hq := by
    match c, hq with
    | 2, hq | 3, hq =>
        cases hq
        exact ⟨_, rfl, by decide⟩
  nodup q Q hQ := by
    match q, hQ with
    | 1, hQ | 2, hQ | 3, hQ =>
        cases hQ
        decide
  root := by decide
  single := by decide
  acyclic := by
    refine ⟨id, fun c q hq => ?_⟩
    match c, hq with
    | 2, hq | 3, hq =>
        cases hq
        decide

end CRegionManager

end Kremlin.Planner
