/-
  Kremlin.Library.TreeSelection — choosing nodes of a tree bottom up.

  §2 assigns weights to the nodes of a finite tree.  `best` compares each node
  with the sum over its children and `pick` keeps the winner: an antichain
  (`isAntichain_pick`) of that weight (`sum_pick`), which no other antichain
  exceeds (`sum_le_best`).

  §3 is about the order in which a work queue evaluates such a tree: it starts
  with the leaves and appends a parent once all its children have been visited.
  The queue runs empty, and every node has been visited once, after its children
  (`BottomUp.traverse`).
-/
import Kremlin.Library.JumpStack
import Kremlin.Library.WorkQueue
import Mathlib.Algebra.BigOperators.Group.Finset.Basic
import Mathlib.Algebra.Order.BigOperators.Group.Finset
import Mathlib.Order.Antichain
import Mathlib.Data.Finset.Union

namespace Kremlin.Library

open Relation

/-! ## §1. Finite trees. -/

/-- A forest with finitely many children at each node and a bound on the depth
of nodes that have a parent. -/
structure FiniteTree (α : Type) extends Forest α where
  children : α → Finset α
  mem_children : ∀ {p c : α}, c ∈ children p ↔ parent c = some p
  bound : ℕ
  rank_le : ∀ {p c : α}, parent c = some p → rank c ≤ bound

namespace FiniteTree

variable {α : Type} (T : FiniteTree α) {v x y c : α}

/-- How far a node is above the bound; it falls from parents to children. -/
def height (v : α) : ℕ := T.bound - T.rank v

variable {T}

/-- Children are lower. -/
theorem height_lt (h : c ∈ T.children v) : T.height c < T.height v := by
  have hparent := T.mem_children.mp h
  have hrank := T.rank_lt hparent
  have hle := T.rank_le hparent
  unfold height
  omega

/-- Every node below `v` is `v` itself or below one of its children. -/
theorem anc_cases (h : T.Anc v x) : x = v ∨ ∃ c ∈ T.children v, T.Anc c x := by
  rcases ReflTransGen.cases_head h with heq | ⟨c, hvc, hcx⟩
  · exact .inl heq.symm
  · exact .inr ⟨c, T.mem_children.mpr hvc, hcx⟩

/-- A node is above its children -/
theorem anc_of_child (h : c ∈ T.children v) : T.Anc v c :=
  Forest.Anc.of_parent (T.mem_children.mp h)

/-- and they are not above it. -/
theorem not_anc_of_child (h : c ∈ T.children v) : ¬ T.Anc c v :=
  Forest.not_anc_parent (T.mem_children.mp h)

/-- Different children have nothing below them in common. -/
theorem child_unique {d : α} (hc : c ∈ T.children v) (hd : d ∈ T.children v) (hcx : T.Anc c x)
    (hdx : T.Anc d x) : c = d := by
  have hcd : ∀ {c d : α}, c ∈ T.children v → d ∈ T.children v → T.Anc c d → c = d := by
    intro c d hc hd h
    rcases h.cases_parent (T.mem_children.mp hd) with heq | hcv
    · exact heq
    · exact absurd hcv (not_anc_of_child hc)
  rcases hcx.total hdx with h | h
  · exact hcd hc hd h
  · exact (hcd hd hc h).symm

end FiniteTree

/-! ## §2. The heaviest antichain. -/

namespace FiniteTree

variable {α : Type} {M : Type} [AddCommMonoid M] [LinearOrder M]

/-- The better of a node's own weight and what its children offer. -/
def best (T : FiniteTree α) (w : α → M) (v : α) : M :=
  max (w v) (∑ c ∈ (T.children v).attach, T.best w c)
termination_by T.height v
decreasing_by exact height_lt c.2

/-- The nodes `best` counts; a tie goes to the children. -/
def pick [DecidableEq α] (T : FiniteTree α) (w : α → M) (v : α) : Finset α :=
  if ∑ c ∈ (T.children v).attach, T.best w c < w v then {v}
  else (T.children v).attach.biUnion fun c => T.pick w c
termination_by T.height v
decreasing_by exact height_lt c.2

/-- What the children of a node offer together. -/
def childrenBest (T : FiniteTree α) (w : α → M) (v : α) : M := ∑ c ∈ T.children v, T.best w c

variable {T : FiniteTree α} {w : α → M} {v x y : α}

/-- The better of the node and its children. -/
theorem best_eq (v : α) : T.best w v = max (w v) (T.childrenBest w v) := by
  rw [best, Finset.sum_attach (T.children v) (T.best w), childrenBest]

/-- Induction from the leaves up. -/
theorem induction_children {P : α → Prop} (h : ∀ v, (∀ c ∈ T.children v, P c) → P v) (v : α) :
    P v := by
  induction hn : T.height v using Nat.strongRecOn generalizing v with
  | ind n ih =>
      apply h
      intro c hc
      exact ih (T.height c) (hn ▸ height_lt hc) c rfl

variable [DecidableEq α]

/-- The node is picked if it is worth more than its children. -/
theorem pick_eq (v : α) :
    T.pick w v = if T.childrenBest w v < w v then {v} else (T.children v).biUnion (T.pick w) := by
  rw [pick, Finset.sum_attach (T.children v) (T.best w), childrenBest]
  congr 1
  ext x
  simp only [Finset.mem_biUnion, Finset.mem_attach, true_and, Subtype.exists, exists_prop]

/-- The nodes picked are below the node they are picked for. -/
theorem anc_of_mem_pick (v : α) : ∀ x ∈ T.pick w v, T.Anc v x := by
  induction v using induction_children (T := T) with
  | h v ih =>
      intro x hx
      rw [pick_eq] at hx
      split at hx
      · rw [Finset.mem_singleton.mp hx]
        exact Forest.Anc.refl v
      · obtain ⟨c, hc, hx⟩ := Finset.mem_biUnion.mp hx
        exact (anc_of_child hc).trans (ih c hc x hx)

/-- A node is picked where it weighs more than its children offer. -/
theorem childrenBest_lt_of_mem_pick (v : α) : ∀ x ∈ T.pick w v, T.childrenBest w x < w x := by
  induction v using induction_children (T := T) with
  | h v ih =>
      intro x hx
      rw [pick_eq] at hx
      split at hx
      · next hlt =>
          rw [Finset.mem_singleton.mp hx]
          exact hlt
      · obtain ⟨c, hc, hx⟩ := Finset.mem_biUnion.mp hx
        exact ih c hc x hx

/-- **What is picked is an antichain.** -/
theorem isAntichain_pick (v : α) : IsAntichain T.Anc (T.pick w v : Set α) := by
  induction v using induction_children (T := T) with
  | h v ih =>
      rw [pick_eq]
      split
      · rw [Finset.coe_singleton]
        exact IsAntichain.singleton
      · intro x hx y hy hne hxy
        obtain ⟨c, hc, hx⟩ := Finset.mem_biUnion.mp hx
        obtain ⟨d, hd, hy⟩ := Finset.mem_biUnion.mp hy
        -- both are below the same child
        obtain rfl := child_unique hc hd ((anc_of_mem_pick c x hx).trans hxy)
          (anc_of_mem_pick d y hy)
        exact ih c hc hx hy hne hxy

/-- **What is picked weighs `best`.** -/
theorem sum_pick (v : α) : ∑ x ∈ T.pick w v, w x = T.best w v := by
  induction v using induction_children (T := T) with
  | h v ih =>
      rw [pick_eq, best_eq]
      split
      · next hlt => rw [Finset.sum_singleton, max_eq_left hlt.le]
      · next hle =>
          rw [max_eq_right (not_lt.mp hle), childrenBest, Finset.sum_biUnion]
          · exact Finset.sum_congr rfl ih
          · intro c hc d hd hne
            rw [Function.onFun, Finset.disjoint_left]
            intro x hxc hxd
            exact hne (child_unique hc hd (anc_of_mem_pick c x hxc) (anc_of_mem_pick d x hxd))

variable [IsOrderedAddMonoid M]

open Classical in
/-- **No antichain below a node weighs more than `best`**, by induction from the
leaves up: an antichain is the node itself or splits over its children. -/
theorem sum_le_best (v : α) (S : Finset α) (hS : IsAntichain T.Anc (S : Set α))
    (hbelow : ∀ x ∈ S, T.Anc v x) : ∑ x ∈ S, w x ≤ T.best w v := by
  induction v using induction_children (T := T) generalizing S with
  | h v ih =>
      rw [best_eq]
      by_cases hv : v ∈ S
      · have hsingle : S = {v} := by
          rw [Finset.eq_singleton_iff_unique_mem]
          refine ⟨hv, fun x hx => ?_⟩
          by_contra hne
          exact hS hv hx (Ne.symm hne) (hbelow x hx)
        rw [hsingle, Finset.sum_singleton]
        exact le_max_left _ _
      · -- an antichain without the node is one below each child
        have hsplit : S = (T.children v).biUnion fun c => S.filter (T.Anc c) := by
          ext x
          rw [Finset.mem_biUnion]
          constructor
          · intro hx
            rcases anc_cases (hbelow x hx) with rfl | ⟨c, hc, hcx⟩
            · exact absurd hx hv
            · exact ⟨c, hc, Finset.mem_filter.mpr ⟨hx, hcx⟩⟩
          · rintro ⟨c, -, hx⟩
            exact (Finset.mem_filter.mp hx).1
        have hsum : ∑ x ∈ S, w x = ∑ c ∈ T.children v, ∑ x ∈ S.filter (T.Anc c), w x := by
          conv_lhs => rw [hsplit]
          apply Finset.sum_biUnion
          intro c hc d hd hne
          rw [Function.onFun, Finset.disjoint_left]
          intro x hxc hxd
          exact hne (child_unique hc hd (Finset.mem_filter.mp hxc).2 (Finset.mem_filter.mp hxd).2)
        rw [hsum]
        apply le_max_of_le_right
        apply Finset.sum_le_sum
        intro c hc
        apply ih c hc
        · exact hS.subset (Finset.coe_subset.mpr (Finset.filter_subset _ S))
        · intro x hx
          exact (Finset.mem_filter.mp hx).2

omit [DecidableEq α] [IsOrderedAddMonoid M] in
/-- Where every node weighs at least what its children weigh together, a node
is its own best choice. -/
theorem best_of_children_le (hw : ∀ v, ∑ c ∈ T.children v, w c ≤ w v) (v : α) :
    T.best w v = w v := by
  induction v using induction_children (T := T) with
  | h v ih =>
      rw [best_eq, childrenBest, Finset.sum_congr rfl ih]
      exact max_eq_left (hw v)

/-- Then no antichain below it weighs more than it does. -/
theorem sum_le_of_children_le (hw : ∀ v, ∑ c ∈ T.children v, w c ≤ w v) (v : α) (S : Finset α)
    (hS : IsAntichain T.Anc (S : Set α)) (hbelow : ∀ x ∈ S, T.Anc v x) :
    ∑ x ∈ S, w x ≤ w v := by
  rw [← best_of_children_le hw v]
  exact sum_le_best v S hS hbelow

end FiniteTree

/-! ## §3. Evaluating a tree bottom up. -/

namespace FiniteTree

variable {α : Type}

/-- Every node comes after its children. -/
def ChildrenFirst (T : FiniteTree α) (visited : List α) : Prop :=
  ∀ l₁ x l₂, visited = l₁ ++ x :: l₂ → ∀ c ∈ T.children x, c ∈ l₁

variable [DecidableEq α]

/-- The parent of a node, if all its children have been visited. -/
def readyParent (T : FiniteTree α) (visited : List α) (x : α) : List α :=
  match T.parent x with
  | none => []
  | some p => if ∀ c ∈ T.children p, c ∈ visited then [p] else []

/-- The queue holds the nodes that are ready and have not been visited. -/
structure Agenda (T : FiniteTree α) (nodes : Finset α) (visited queue : List α) : Prop where
  nodup : (visited ++ queue).Nodup
  mem : ∀ x ∈ visited ++ queue, x ∈ nodes
  ready : ∀ x ∈ queue, ∀ c ∈ T.children x, c ∈ visited
  complete : ∀ x ∈ nodes, x ∉ visited → (∀ c ∈ T.children x, c ∈ visited) → x ∈ queue
  order : T.ChildrenFirst visited

/-- A visit that records a node and appends its parent once it is ready. -/
structure BottomUp {σ : Type} (T : FiniteTree α) (nodes : Finset α)
    (visit : σ → α → Option (σ × List α)) (visited : σ → List α) (inv : σ → Prop) : Prop where
  parent_mem : ∀ x ∈ nodes, ∀ p, T.parent x = some p → p ∈ nodes
  child_mem : ∀ x ∈ nodes, ∀ c ∈ T.children x, c ∈ nodes
  visit : ∀ s x, inv s → x ∈ nodes → x ∉ visited s → (∀ c ∈ T.children x, c ∈ visited s) →
    (∀ p, T.parent x = some p → p ∉ visited s) →
    ∃ s', visit s x = some (s', T.readyParent (visited s ++ [x]) x) ∧ inv s' ∧
      visited s' = visited s ++ [x]

variable {T : FiniteTree α} {nodes : Finset α} {visited queue : List α} {x : α}

omit [DecidableEq α] in
/-- The queue starts with the leaves. -/
theorem agenda_leaves {leaves : List α} (hnodup : leaves.Nodup)
    (hmem : ∀ x, x ∈ leaves ↔ x ∈ nodes ∧ T.children x = ∅) : T.Agenda nodes [] leaves where
  nodup := hnodup
  mem x hx := ((hmem x).mp hx).1
  ready x hx c hc := by
    rw [((hmem x).mp hx).2] at hc
    exact absurd hc (Finset.notMem_empty c)
  complete x hx _ hall :=
    (hmem x).mpr ⟨hx, Finset.eq_empty_of_forall_notMem fun c hc => List.not_mem_nil (hall c hc)⟩
  order l₁ x l₂ h := by
    have hlen := congrArg List.length h
    simp at hlen

omit [DecidableEq α] in
/-- A visited node comes after its children. -/
theorem ChildrenFirst.mem (h : T.ChildrenFirst visited) (hx : x ∈ visited) :
    ∀ c ∈ T.children x, c ∈ visited := by
  obtain ⟨l₁, l₂, rfl⟩ := List.append_of_mem hx
  intro c hc
  exact List.mem_append_left _ (h l₁ x l₂ rfl c hc)

omit [DecidableEq α] in
/-- A node may be visited after its children. -/
theorem ChildrenFirst.snoc (h : T.ChildrenFirst visited) (hx : ∀ c ∈ T.children x, c ∈ visited) :
    T.ChildrenFirst (visited ++ [x]) := by
  intro l₁ y l₂ heq c hc
  rcases List.eq_nil_or_concat l₂ with rfl | ⟨l₂, z, rfl⟩
  · obtain ⟨rfl, hy⟩ := List.append_inj' heq rfl
    obtain rfl := List.singleton_inj.mp hy
    exact hx c hc
  · rw [List.concat_eq_append, ← List.cons_append, ← List.append_assoc] at heq
    obtain ⟨hvisited, -⟩ := List.append_inj' heq rfl
    exact h l₁ y l₂ hvisited c hc

namespace Agenda

omit [DecidableEq α] in
/-- The parent of a node that waits has not been visited. -/
theorem parent_not_mem (h : T.Agenda nodes visited (x :: queue)) {p : α}
    (hp : T.parent x = some p) : p ∉ visited := by
  intro hmem
  have hx := h.order.mem hmem x (T.mem_children.mpr hp)
  exact (List.disjoint_of_nodup_append h.nodup) hx List.mem_cons_self

/-- **What one visit does to the queue**: the parent joins it exactly when the
node was its last child. -/
theorem visit (h : T.Agenda nodes visited (x :: queue))
    (hparent : ∀ p, T.parent x = some p → p ∈ nodes) :
    T.Agenda nodes (visited ++ [x]) (queue ++ T.readyParent (visited ++ [x]) x) := by
  have hready := h.ready x List.mem_cons_self
  have hnodup : (visited ++ [x] ++ queue).Nodup := by
    rw [List.append_assoc]
    exact h.nodup
  have hdisj := List.disjoint_of_nodup_append hnodup
  have hxq : x ∉ queue := fun hx => hdisj (List.mem_append_right _ (List.mem_singleton_self x)) hx
  have hxv : x ∉ visited :=
    fun hx => List.disjoint_of_nodup_append h.nodup hx List.mem_cons_self
  have hmem : ∀ p ∈ T.readyParent (visited ++ [x]) x,
      T.parent x = some p ∧ ∀ c ∈ T.children p, c ∈ visited ++ [x] := by
    intro p hp
    unfold readyParent at hp
    split at hp
    · cases hp
    · next q hq =>
        split at hp
        · next hall => exact List.mem_singleton.mp hp ▸ ⟨hq, hall⟩
        · cases hp
  -- the parent waited for `x`, so it is new to both lists
  have hfresh : ∀ p ∈ T.readyParent (visited ++ [x]) x, p ∉ visited ++ [x] ++ queue := by
    intro p hp hin
    have hparent := (hmem p hp).1
    rcases List.mem_append.mp hin with hin | hin
    · rcases List.mem_append.mp hin with hin | hin
      · exact h.parent_not_mem hparent hin
      · have hrank := T.rank_lt hparent
        rw [List.mem_singleton.mp hin] at hrank
        exact Nat.lt_irrefl _ hrank
    · exact hxv (h.ready p (List.mem_cons_of_mem _ hin) x (T.mem_children.mpr hparent))
  refine ⟨?_, ?_, ?_, ?_, h.order.snoc hready⟩
  · rw [← List.append_assoc]
    apply List.Nodup.append hnodup
    · unfold readyParent
      split
      · exact List.nodup_nil
      · split
        · exact List.nodup_singleton _
        · exact List.nodup_nil
    · intro y hy hyp
      exact hfresh y hyp hy
  · intro y hy
    rw [← List.append_assoc] at hy
    rcases List.mem_append.mp hy with hy | hy
    · rw [List.append_assoc] at hy
      exact h.mem y hy
    · exact hparent y (hmem y hy).1
  · intro y hy c hc
    rcases List.mem_append.mp hy with hy | hy
    · exact List.mem_append_left _ (h.ready y (List.mem_cons_of_mem _ hy) c hc)
    · exact (hmem y hy).2 c hc
  · intro y hy hyv hall
    rw [List.mem_append, not_or, List.mem_singleton] at hyv
    by_cases hxy : x ∈ T.children y
    · apply List.mem_append_right
      have hp := T.mem_children.mp hxy
      unfold readyParent
      rw [hp]
      show y ∈ if _ then [y] else []
      rw [if_pos hall]
      exact List.mem_singleton_self y
    · -- `y` was ready before
      apply List.mem_append_left
      have hin : y ∈ x :: queue := by
        apply h.complete y hy hyv.1
        intro c hc
        rcases List.mem_append.mp (hall c hc) with hcv | hcx
        · exact hcv
        · exact absurd (List.mem_singleton.mp hcx ▸ hc) hxy
      exact (List.mem_cons.mp hin).resolve_left hyv.2

omit [DecidableEq α] in
/-- An empty queue has visited every node. -/
theorem done (h : T.Agenda nodes visited [])
    (hchild : ∀ x ∈ nodes, ∀ c ∈ T.children x, c ∈ nodes) :
    visited.Nodup ∧ (∀ x, x ∈ visited ↔ x ∈ nodes) ∧ T.ChildrenFirst visited := by
  have hnodup := h.nodup
  rw [List.append_nil] at hnodup
  refine ⟨hnodup, fun x => ⟨fun hx => h.mem x (List.mem_append_left _ hx), ?_⟩, h.order⟩
  induction x using induction_children (T := T) with
  | h x ih =>
      intro hx
      by_contra hv
      exact List.not_mem_nil (h.complete x hx hv fun c hc => ih c hc (hchild x hx c hc))

end Agenda

/-- **A bottom-up traversal ends, and has visited every node once, after its
children.** -/
theorem BottomUp.traverse {σ : Type} {visit : σ → α → Option (σ × List α)} {seen : σ → List α}
    {inv : σ → Prop} (hb : T.BottomUp nodes visit seen inv) (fuel : ℕ) (queue : List α) {s : σ}
    (hs : inv s) (hq : T.Agenda nodes (seen s) queue) (hfuel : nodes.card ≤ fuel + (seen s).length) :
    ∃ s', Library.traverse visit fuel queue s = some s' ∧ inv s' ∧ (seen s').Nodup ∧
      (∀ x, x ∈ seen s' ↔ x ∈ nodes) ∧ T.ChildrenFirst (seen s') := by
  induction fuel generalizing queue s with
  | zero =>
      cases queue with
      | nil => exact ⟨s, by unfold Library.traverse; rfl, hs, hq.done hb.child_mem⟩
      | cons x queue =>
          have hcard : (seen s ++ x :: queue).toFinset.card ≤ nodes.card := by
            apply Finset.card_le_card
            intro y hy
            exact hq.mem y (List.mem_toFinset.mp hy)
          rw [List.toFinset_card_of_nodup hq.nodup, List.length_append, List.length_cons] at hcard
          omega
  | succ fuel ih =>
      cases queue with
      | nil => exact ⟨s, by unfold Library.traverse; rfl, hs, hq.done hb.child_mem⟩
      | cons x queue =>
          have hx : x ∈ nodes := hq.mem x (List.mem_append_right _ List.mem_cons_self)
          -- the queue names no node twice, so the visit is the first
          have hnew : x ∉ seen s :=
            fun hin => List.disjoint_of_nodup_append hq.nodup hin List.mem_cons_self
          obtain ⟨s₁, h₁, hs₁, hseen⟩ := hb.visit s x hs hx hnew (hq.ready x List.mem_cons_self)
            fun p hp => hq.parent_not_mem hp
          have hq₁ := hq.visit (hb.parent_mem x hx)
          rw [← hseen] at hq₁
          obtain ⟨s', h', hrest⟩ := ih _ hs₁ hq₁ (by
            rw [hseen, List.length_append, List.length_singleton]
            omega)
          refine ⟨s', ?_, hrest⟩
          unfold Library.traverse
          rw [h₁]
          show Library.traverse visit fuel (queue ++ T.readyParent (seen s ++ [x]) x) s₁ = some s'
          rw [← hseen]
          exact h'

end FiniteTree

end Kremlin.Library
