/-
  Kremlin.Library.WorkQueue — breadth-first traversals, and maps keyed by name.

  A traversal takes the first item of a queue, visits it, and appends what the
  visit names.  When the items named lie below the visited one in some rank,
  the queue runs empty and every item reachable from it has been visited
  (`traverse_complete`).

  `KeyMap` is a map that remembers the order in which its keys came.
-/
import Mathlib.Logic.Relation
import Mathlib.Data.List.Basic
import Mathlib.Logic.Function.Basic
import Mathlib.Tactic.Common
import Mathlib.Algebra.Ring.Nat

namespace Kremlin.Library

open Relation

/-! ## §1. Traversals. -/

section WorkQueue

variable {α σ : Type}

/-- Visit the items of a queue; `fuel` bounds the number of visits. -/
def traverse (visit : σ → α → Option (σ × List α)) : ℕ → List α → σ → Option σ
  | _, [], s => some s
  | 0, _ :: _, _ => none
  | fuel + 1, x :: rest, s => (visit s x).bind fun r => traverse visit fuel (rest ++ r.2) r.1

/-- `y` is `x` or can be reached from it. -/
def Below (succ : α → List α) : α → α → Prop := ReflTransGen fun x y => y ∈ succ x

/-- Visits that never fail on admissible items, name the successors of the
visited item and mark it (`done`) for good. -/
structure Marks (visit : σ → α → Option (σ × List α)) (succ : α → List α)
    (inv : σ → Prop) (ok : α → Prop) (done : σ → α → Prop) : Prop where
  visit : ∀ s x, inv s → ok x → ∃ s', visit s x = some (s', succ x) ∧ inv s' ∧ done s' x ∧
    ∀ y, done s y → done s' y
  closed : ∀ x y, ok x → y ∈ succ x → ok y

/-- How many visits an item costs, looking `k` levels down. -/
def visitCost (succ : α → List α) : ℕ → α → ℕ
  | 0, _ => 1
  | k + 1, x => 1 + ((succ x).map (visitCost succ k)).sum

/-- More fuel makes the cost no larger. -/
theorem visitCost_congr {succ : α → List α} {rank : α → ℕ}
    (hrank : ∀ x y, y ∈ succ x → rank y < rank x) :
    ∀ {k : ℕ} {x : α}, rank x ≤ k → visitCost succ k x = visitCost succ (rank x) x := by
  intro k x
  induction hr : rank x using Nat.strongRecOn generalizing k x with
  | ind r ih =>
    intro hk
    match k, r, hk with
    | 0, 0, _ => rfl
    | k + 1, r, hk =>
        have hsum : ∀ (m : ℕ), r ≤ m + 1 → (succ x).map (visitCost succ m)
            = (succ x).map fun y => visitCost succ (rank y) y := by
          intro m hm
          refine List.map_congr_left fun y hy => ?_
          have hlt : rank y < r := hr ▸ hrank x y hy
          exact ih (rank y) hlt rfl (by omega)
        match r with
        | 0 =>
            have hnil : succ x = [] := by
              rw [List.eq_nil_iff_forall_not_mem]
              intro y hy
              have := hrank x y hy
              omega
            unfold visitCost
            rw [hnil]
            rfl
        | r + 1 =>
            show 1 + _ = 1 + _
            rw [hsum k (by omega), hsum r (Nat.le_refl _)]

/-- An item costs one visit more than its successors. -/
theorem visitCost_rank {succ : α → List α} {rank : α → ℕ}
    (hrank : ∀ x y, y ∈ succ x → rank y < rank x) (x : α) :
    visitCost succ (rank x) x = 1 + ((succ x).map fun y => visitCost succ (rank y) y).sum := by
  have h := visitCost_congr hrank (Nat.le_succ (rank x))
  rw [← h]
  show 1 + _ = 1 + _
  congr 2
  refine List.map_congr_left fun y hy => ?_
  exact visitCost_congr hrank (Nat.le_of_lt (hrank x y hy))

variable {visit : σ → α → Option (σ × List α)} {succ : α → List α} {inv : σ → Prop}
  {ok : α → Prop} {done : σ → α → Prop}

/-- What every visit preserves holds at the end of a traversal that ends. -/
theorem traverse_preserves (hinv : ∀ s x r, inv s → visit s x = some r → inv r.1) :
    ∀ (fuel : ℕ) (queue : List α) {s s' : σ}, inv s → traverse visit fuel queue s = some s' →
      inv s'
  | _, [], s, s', hs, hrun => by
      unfold traverse at hrun
      exact Option.some.inj hrun ▸ hs
  | 0, _ :: _, _, _, _, hrun => by
      unfold traverse at hrun
      cases hrun
  | fuel + 1, x :: rest, s, s', hs, hrun => by
      unfold traverse at hrun
      obtain ⟨r, hvisit, hrest⟩ := Option.bind_eq_some_iff.mp hrun
      exact traverse_preserves hinv fuel _ (hinv s x r hs hvisit) hrest

/-- **A traversal over ranked items ends, and has visited everything below the
queue.** -/
theorem traverse_complete (hm : Marks visit succ inv ok done) {rank : α → ℕ}
    (hrank : ∀ x y, y ∈ succ x → rank y < rank x) :
    ∀ (fuel : ℕ) (queue : List α) {s : σ}, inv s → (∀ x ∈ queue, ok x) →
      (queue.map fun x => visitCost succ (rank x) x).sum ≤ fuel →
      ∃ s', traverse visit fuel queue s = some s' ∧ inv s' ∧ (∀ y, done s y → done s' y) ∧
        ∀ x ∈ queue, ∀ y, Below succ x y → done s' y
  | _, [], s, hs, _, _ => ⟨s, by unfold traverse; rfl, hs, fun _ h => h, by simp⟩
  | 0, x :: rest, s, _, _, hfuel => by
      have hcost := visitCost_rank hrank x
      simp only [List.map_cons, List.sum_cons] at hfuel
      omega
  | fuel + 1, x :: rest, s, hs, hok, hfuel => by
      obtain ⟨s₁, h₁, hs₁, hdone, hmono⟩ := hm.visit s x hs (hok x List.mem_cons_self)
      have hok₁ : ∀ y ∈ rest ++ succ x, ok y := by
        intro y hy
        rcases List.mem_append.mp hy with hy | hy
        · exact hok y (List.mem_cons_of_mem _ hy)
        · exact hm.closed x y (hok x List.mem_cons_self) hy
      have hcost := visitCost_rank hrank x
      simp only [List.map_cons, List.sum_cons] at hfuel
      -- a visit pays for the items it names
      have hfuel₁ : ((rest ++ succ x).map fun y => visitCost succ (rank y) y).sum ≤ fuel := by
        rw [List.map_append, List.sum_append]
        omega
      obtain ⟨s', h', hs', hmono', hall⟩ := traverse_complete hm hrank fuel _ hs₁ hok₁ hfuel₁
      refine ⟨s', ?_, hs', fun y hy => hmono' y (hmono y hy), ?_⟩
      · unfold traverse
        rw [h₁]
        exact h'
      · intro z hz y hzy
        rcases List.mem_cons.mp hz with rfl | hz
        · rcases ReflTransGen.cases_head hzy with rfl | ⟨w, hw, hwy⟩
          · exact hmono' _ hdone
          · exact hall w (List.mem_append.mpr (Or.inr hw)) y hwy
        · exact hall z (List.mem_append.mpr (Or.inl hz)) y hzy

end WorkQueue

/-! ## §2. Keyed maps. -/

/-- A map that remembers the order in which its keys were first put. -/
structure KeyMap (κ β : Type) where
  keys : List κ
  get : κ → Option β

namespace KeyMap

variable {κ β : Type} [DecidableEq κ]

/-- The map without keys. -/
def empty : KeyMap κ β := ⟨[], fun _ => none⟩

/-- Put a value; a key that is there keeps its place. -/
def put (m : KeyMap κ β) (k : κ) (v : β) : KeyMap κ β where
  keys := if k ∈ m.keys then m.keys else m.keys ++ [k]
  get := Function.update m.get k (some v)

variable {m : KeyMap κ β} {k k' : κ} {v : β}

/-- What a key has after a write. -/
theorem get_put (m : KeyMap κ β) (k : κ) (v : β) (k' : κ) :
    (m.put k v).get k' = if k' = k then some v else m.get k' :=
  Function.update_apply ..

/-- The key that was written, -/
@[simp] theorem get_put_self : (m.put k v).get k = some v := by
  rw [get_put, if_pos rfl]

/-- and the others. -/
theorem get_put_ne (h : k' ≠ k) : (m.put k v).get k' = m.get k' := by
  rw [get_put, if_neg h]

/-- The keys after a write. -/
theorem mem_keys_put : k' ∈ (m.put k v).keys ↔ k' = k ∨ k' ∈ m.keys := by
  unfold put
  by_cases hk : k ∈ m.keys
  · simp only [if_pos hk]
    exact ⟨Or.inr, fun h => h.elim (fun h => h ▸ hk) id⟩
  · simp only [if_neg hk, List.mem_append, List.mem_singleton]
    exact or_comm

/-- A key that is there keeps its place. -/
theorem keys_put_of_mem (h : k ∈ m.keys) : (m.put k v).keys = m.keys := by
  unfold put
  exact if_pos h

/-- No key comes twice. -/
theorem nodup_put (h : m.keys.Nodup) : (m.put k v).keys.Nodup := by
  unfold put
  by_cases hk : k ∈ m.keys
  · rw [if_pos hk]
    exact h
  · rw [if_neg hk]
    exact List.nodup_append.mpr ⟨h, by simp, by
      rintro x hx y hy rfl
      exact hk (List.mem_singleton.mp hy ▸ hx)⟩

/-- Putting a list of items leaves other keys alone. -/
theorem get_foldl_put_of_not_mem {γ : Type} (key : γ → κ) (val : γ → β) {k : κ} :
    ∀ {items : List γ} {m : KeyMap κ β}, k ∉ items.map key →
      (items.foldl (fun m x => m.put (key x) (val x)) m).get k = m.get k
  | [], _, _ => rfl
  | x :: items, m, h => by
      rw [List.map_cons, List.mem_cons, not_or] at h
      rw [List.foldl_cons, get_foldl_put_of_not_mem key val h.2, get_put_ne h.1]

/-- Putting a list of items with distinct keys. -/
theorem get_foldl_put {γ : Type} (key : γ → κ) (val : γ → β) {x : γ} :
    ∀ {items : List γ} {m : KeyMap κ β}, (items.map key).Nodup → x ∈ items →
      (items.foldl (fun m x => m.put (key x) (val x)) m).get (key x) = some (val x)
  | [], _, _, hx => absurd hx List.not_mem_nil
  | y :: items, m, hnd, hx => by
      rw [List.map_cons, List.nodup_cons] at hnd
      rw [List.foldl_cons]
      rcases List.mem_cons.mp hx with rfl | hx
      · rw [get_foldl_put_of_not_mem key val hnd.1, get_put_self]
      · exact get_foldl_put key val hnd.2 hx

/-- Every key has a value, and every value a key. -/
def Total (m : KeyMap κ β) : Prop := ∀ k, k ∈ m.keys ↔ (m.get k).isSome

omit [DecidableEq κ] in
/-- No key, no value. -/
theorem total_empty : (empty : KeyMap κ β).Total := by
  intro k
  simp [empty]

/-- Every key still has a value. -/
theorem Total.put (h : m.Total) (k : κ) (v : β) : (m.put k v).Total := by
  intro k'
  rw [mem_keys_put, get_put]
  by_cases hk : k' = k
  · simp [hk]
  · rw [if_neg hk]
    exact ⟨fun hm => (h k').mp (hm.resolve_left hk), fun hs => Or.inr ((h k').mpr hs)⟩

end KeyMap

end Kremlin.Library
