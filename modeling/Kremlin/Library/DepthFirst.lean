/-
  Kremlin.Library.DepthFirst — depth-first searches and the paths they take.

  A search goes through the successors of a node in order and enters no node
  twice.  `search` lists the nodes in the order in which they are entered, each
  with the path that led to it.

  Main results:
    * `search_spec` — with fuel for every node the search ends; it enters each
      node once, and the successors of what it enters;
    * `mem_visited_search` — from nothing, it enters what can be reached;
    * `search_isPath` — it enters each node by a path to it.
-/
import Mathlib.Data.Finset.Card
import Mathlib.Logic.Relation
import Mathlib.Tactic.Common

namespace Kremlin.Library

open Relation

variable {V : Type}

/-! ## §1. Searches. -/

/-- A step of a path: the node, the successors looked at before, and the one that
is taken. -/
structure Step (V : Type) where
  node : V
  earlier : List V
  next : V
  deriving DecidableEq

/-- The last step comes first. -/
abbrev Path (V : Type) := List (Step V)

/-- A node that is entered, with the path to it. -/
abbrev Visit (V : Type) := Path V × V

/-- The nodes on a path. -/
def pathNodes (path : Path V) : List V := path.map Step.node

/-- The nodes entered. -/
def visited (visits : List (Visit V)) : List V := visits.map Prod.snd

/-- The nodes of two runs of visits. -/
theorem visited_append (visits new : List (Visit V)) :
    visited (visits ++ new) = visited visits ++ visited new := List.map_append

/-- Search from the successors of `x` that are left. -/
def searchNext (enter : Path V → V → List (Visit V) → Option (List (Visit V))) (path : Path V)
    (x : V) : List V → List V → List (Visit V) → Option (List (Visit V))
  | _, [], visits => some visits
  | earlier, y :: rest, visits =>
      (enter (⟨x, earlier, y⟩ :: path) y visits).bind
        (searchNext enter path x (earlier ++ [y]) rest)

/-- Search from `x`; `fuel` bounds the depth. -/
def search [DecidableEq V] (succ : V → List V) :
    ℕ → Path V → V → List (Visit V) → Option (List (Visit V))
  | 0, _, _, _ => none
  | fuel + 1, path, x, visits =>
      if x ∈ visited visits then some visits
      else searchNext (search succ fuel) path x [] (succ x) (visits ++ [(path, x)])

/-! ## §2. What a search enters. -/

/-- `y` comes right after `x`. -/
def Next (succ : V → List V) (x y : V) : Prop := y ∈ succ x

instance [DecidableEq V] (succ : V → List V) : DecidableRel (Next succ) :=
  fun x y => inferInstanceAs (Decidable (y ∈ succ x))

variable {succ : V → List V} {univ : Finset V} {visits new more : List (Visit V)}

/-- The new visits are of new nodes, and none of their successors is left out. -/
structure Grown (succ : V → List V) (univ : Finset V) (visits new : List (Visit V)) : Prop where
  nodup : (visited (visits ++ new)).Nodup
  mem : ∀ y ∈ visited (visits ++ new), y ∈ univ
  closed : ∀ y ∈ visited new, ∀ z ∈ succ y, z ∈ visited (visits ++ new)

/-- Nothing was added. -/
theorem Grown.refl (hnodup : (visited visits).Nodup) (hmem : ∀ y ∈ visited visits, y ∈ univ) :
    Grown succ univ visits [] := by
  refine ⟨?_, ?_, fun y hy => by cases hy⟩
  · rwa [List.append_nil]
  · rwa [List.append_nil]

/-- One search after another. -/
theorem Grown.trans (h : Grown succ univ visits new) (h' : Grown succ univ (visits ++ new) more) :
    Grown succ univ visits (new ++ more) := by
  refine ⟨?_, ?_, fun y hy z hz => ?_⟩
  · rw [← List.append_assoc]
    exact h'.nodup
  · rw [← List.append_assoc]
    exact h'.mem
  · rw [← List.append_assoc]
    rw [visited_append, List.mem_append] at hy
    rcases hy with hy | hy
    · rw [visited_append]
      exact List.mem_append_left _ (h.closed y hy z hz)
    · exact h'.closed y hy z hz

/-- No more nodes are entered than there are. -/
theorem Grown.length_le (h : Grown succ univ visits new) :
    visits.length + new.length ≤ univ.card := by
  classical
  have hcard := List.toFinset_card_of_nodup h.nodup
  have hsub : (visited (visits ++ new)).toFinset ⊆ univ :=
    fun y hy => h.mem y (List.mem_toFinset.mp hy)
  have hlen : (visited (visits ++ new)).length = visits.length + new.length := by
    rw [visited, List.length_map, List.length_append]
  have hle := Finset.card_le_card hsub
  omega

/-- With `fuel` and the nodes entered before more than the nodes there are, `enter`
ends and enters what lies after a node. -/
def Searches (succ : V → List V) (univ : Finset V) (fuel : ℕ)
    (enter : Path V → V → List (Visit V) → Option (List (Visit V))) : Prop :=
  ∀ (path : Path V) (x : V) (visits : List (Visit V)), x ∈ univ → (visited visits).Nodup →
    (∀ y ∈ visited visits, y ∈ univ) → univ.card < fuel + visits.length →
    ∃ new, enter path x visits = some (visits ++ new) ∧ Grown succ univ visits new ∧
      x ∈ visited (visits ++ new) ∧ ∀ y ∈ visited new, ReflTransGen (Next succ) x y

/-- A loop over successors of `x`. -/
theorem Searches.next {fuel : ℕ} {enter : Path V → V → List (Visit V) → Option (List (Visit V))}
    (h : Searches succ univ fuel enter) {path : Path V} {x : V} :
    ∀ (rest earlier : List V) (visits : List (Visit V)), (∀ y ∈ rest, y ∈ succ x) →
      (∀ y ∈ rest, y ∈ univ) → (visited visits).Nodup → (∀ y ∈ visited visits, y ∈ univ) →
      univ.card < fuel + visits.length →
      ∃ new, searchNext enter path x earlier rest visits = some (visits ++ new) ∧
        Grown succ univ visits new ∧ (∀ y ∈ rest, y ∈ visited (visits ++ new)) ∧
        ∀ y ∈ visited new, TransGen (Next succ) x y := by
  intro rest
  induction rest with
  | nil =>
      intro earlier visits _ _ hnodup hmem _
      refine ⟨[], ?_, Grown.refl hnodup hmem, fun y hy => (by cases hy), fun y hy => by cases hy⟩
      rw [List.append_nil]
      rfl
  | cons y rest ih =>
      intro earlier visits hrest huniv hnodup hmem hfuel
      have hy : y ∈ succ x := hrest y List.mem_cons_self
      obtain ⟨new, hrun, hgrown, hentered, hreach⟩ := h (⟨x, earlier, y⟩ :: path) y visits
        (huniv y List.mem_cons_self) hnodup hmem hfuel
      -- a visit makes up for the fuel of its search
      have hlen : univ.card < fuel + (visits ++ new).length := by
        rw [List.length_append]
        omega
      obtain ⟨more, hrun', hgrown', hentered', hreach'⟩ := ih (earlier ++ [y]) (visits ++ new)
        (fun z hz => hrest z (List.mem_cons_of_mem y hz))
        (fun z hz => huniv z (List.mem_cons_of_mem y hz)) hgrown.nodup hgrown.mem hlen
      refine ⟨new ++ more, ?_, hgrown.trans hgrown', ?_, ?_⟩
      · unfold searchNext
        rw [hrun, Option.bind_some, hrun', List.append_assoc]
      · intro z hz
        rw [← List.append_assoc]
        rcases List.mem_cons.mp hz with rfl | hz
        · rw [visited_append]
          exact List.mem_append_left _ hentered
        · exact hentered' z hz
      · intro z hz
        rw [visited_append, List.mem_append] at hz
        rcases hz with hz | hz
        · exact TransGen.head' hy (hreach z hz)
        · exact hreach' z hz

/-- **A search ends**, if its fuel and the nodes entered before are more than the
nodes there are. -/
theorem search_spec [DecidableEq V] (hsucc : ∀ x ∈ univ, ∀ y ∈ succ x, y ∈ univ) (fuel : ℕ) :
    Searches succ univ fuel (search succ fuel) := by
  induction fuel with
  | zero =>
      intro path x visits hx hnodup hmem hfuel
      have hle := (@Grown.refl V succ univ visits hnodup hmem).length_le
      rw [List.length_nil] at hle
      omega
  | succ fuel ih =>
      intro path x visits hx hnodup hmem hfuel
      unfold search
      by_cases hin : x ∈ visited visits
      · -- the node was entered before
        rw [if_pos hin]
        refine ⟨[], by rw [List.append_nil], Grown.refl hnodup hmem, ?_, fun y hy => by cases hy⟩
        rwa [List.append_nil]
      · rw [if_neg hin]
        have hvisits : visited (visits ++ [(path, x)]) = visited visits ++ [x] := visited_append _ _
        have hnodup₁ : (visited (visits ++ [(path, x)])).Nodup := by
          rw [hvisits]
          exact List.nodup_append.mpr ⟨hnodup, List.nodup_singleton x,
            fun a ha b hb hab => hin (List.mem_singleton.mp hb ▸ hab ▸ ha)⟩
        have hmem₁ : ∀ y ∈ visited (visits ++ [(path, x)]), y ∈ univ := by
          intro y hy
          rw [hvisits, List.mem_append, List.mem_singleton] at hy
          rcases hy with hy | rfl
          · exact hmem y hy
          · exact hx
        obtain ⟨new, hrun, hgrown, hentered, hreach⟩ := @Searches.next _ _ _ _ _ ih path x (succ x) []
          (visits ++ [(path, x)]) (fun y hy => hy) (hsucc x hx) hnodup₁ hmem₁ (by
            rw [List.length_append, List.length_singleton]
            omega)
        have hassoc : visits ++ (path, x) :: new = visits ++ [(path, x)] ++ new := by
          rw [List.append_assoc]
          rfl
        refine ⟨(path, x) :: new, ?_, ⟨?_, ?_, ?_⟩, ?_, ?_⟩
        · rw [hrun, hassoc]
        · rw [hassoc]
          exact hgrown.nodup
        · rw [hassoc]
          exact hgrown.mem
        · intro y hy z hz
          rw [hassoc]
          rcases List.mem_cons.mp hy with rfl | hy
          · exact hentered z hz
          · exact hgrown.closed y hy z hz
        · rw [hassoc, visited_append, hvisits]
          simp
        · intro y hy
          rcases List.mem_cons.mp hy with rfl | hy
          · exact ReflTransGen.refl
          · exact (hreach y hy).to_reflTransGen

/-- **A search from nothing enters what can be reached.** -/
theorem mem_visited_search [DecidableEq V] (hsucc : ∀ x ∈ univ, ∀ y ∈ succ x, y ∈ univ) {x : V}
    (hx : x ∈ univ) :
    ∃ visits, search succ (univ.card + 1) [] x [] = some visits ∧
      ∀ y, y ∈ visited visits ↔ ReflTransGen (Next succ) x y := by
  obtain ⟨visits, hrun, hgrown, hentered, hreach⟩ := search_spec hsucc (univ.card + 1) [] x [] hx
    List.nodup_nil (fun y hy => by cases hy) (by simp)
  refine ⟨visits, hrun, fun y => ⟨hreach y, fun hxy => ?_⟩⟩
  induction hxy with
  | refl => exact hentered
  | tail _ hstep ih => exact hgrown.closed _ ih _ hstep

/-- **A search from the successors of a node enters what comes after it.** -/
theorem mem_visited_searchNext [DecidableEq V] (hsucc : ∀ x ∈ univ, ∀ y ∈ succ x, y ∈ univ) {x : V}
    (hx : x ∈ univ) :
    ∃ visits, searchNext (search succ (univ.card + 1)) [] x [] (succ x) [] = some visits ∧
      ∀ y, y ∈ visited visits ↔ TransGen (Next succ) x y := by
  obtain ⟨visits, hrun, hgrown, hentered, hreach⟩ :=
    @Searches.next _ _ _ _ _ (search_spec hsucc (univ.card + 1)) [] x (succ x) [] []
      (fun y hy => hy) (hsucc x hx) List.nodup_nil (fun y hy => by cases hy) (by simp)
  refine ⟨visits, hrun, fun y => ⟨hreach y, fun hxy => ?_⟩⟩
  induction hxy with
  | single hstep => exact hentered _ hstep
  | tail _ hstep ih => exact hgrown.closed _ ih _ hstep

/-! ## §3. The paths. -/

/-- A path to `x`: each step goes on from its node, and has looked at the
successors in order. -/
def IsPath (succ : V → List V) : Path V → V → Prop
  | [], _ => True
  | step :: path, x => step.next = x ∧ (∃ rest, succ step.node = step.earlier ++ x :: rest) ∧
      IsPath succ path step.node

/-- The nodes of a path come before its end. -/
theorem IsPath.reaches {path : Path V} {x y : V} (h : IsPath succ path x)
    (hy : y ∈ pathNodes path) : TransGen (Next succ) y x := by
  induction path generalizing x with
  | nil => cases hy
  | cons step path ih =>
      obtain ⟨-, ⟨rest, hrest⟩, hpath⟩ := h
      have hstep : Next succ step.node x := by
        unfold Next
        rw [hrest]
        simp
      rcases List.mem_cons.mp hy with rfl | hy
      · exact TransGen.single hstep
      · exact (ih hpath hy).tail hstep

/-- **A search enters nodes by paths to them.** -/
theorem search_isPath [DecidableEq V] {fuel : ℕ} {path : Path V} {x : V}
    {visits visits' : List (Visit V)} (h : search succ fuel path x visits = some visits')
    (hpath : IsPath succ path x) (hvisits : ∀ v ∈ visits, IsPath succ v.1 v.2) :
    ∀ v ∈ visits', IsPath succ v.1 v.2 := by
  induction fuel generalizing path x visits visits' with
  | zero =>
      unfold search at h
      cases h
  | succ fuel ih =>
      unfold search at h
      by_cases hin : x ∈ visited visits
      · rw [if_pos hin] at h
        cases h
        exact hvisits
      · rw [if_neg hin] at h
        -- the successors before the one that is entered belong to the path
        have hloop : ∀ (rest earlier : List V) (visits : List (Visit V)),
            succ x = earlier ++ rest → (∀ v ∈ visits, IsPath succ v.1 v.2) →
            searchNext (search succ fuel) path x earlier rest visits = some visits' →
            ∀ v ∈ visits', IsPath succ v.1 v.2 := by
          intro rest
          induction rest with
          | nil =>
              intro earlier visits _ hvisits h
              cases h
              exact hvisits
          | cons y rest ihrest =>
              intro earlier visits hsucc hvisits h
              unfold searchNext at h
              obtain ⟨visits₁, henter, h⟩ := Option.bind_eq_some_iff.mp h
              refine ihrest (earlier ++ [y]) visits₁ ?_ (ih henter ⟨rfl, ⟨rest, hsucc⟩, hpath⟩ hvisits) h
              rw [hsucc, List.append_cons]
        refine hloop (succ x) [] _ rfl (fun v hv => ?_) h
        rcases List.mem_append.mp hv with hv | hv
        · exact hvisits v hv
        · rw [List.mem_singleton.mp hv]
          exact hpath

end Kremlin.Library
