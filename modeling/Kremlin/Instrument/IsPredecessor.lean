/-
  Kremlin.Instrument.IsPredecessor — the blocks before and after a block.

  The function objects `IsPredecessor` of `PhiHandler.cpp` and `IsSuccessor` of
  `ControlDependence.cpp`.  Both search depth first.  `IsPredecessor` learns on
  the way back which blocks lie before the target; where the search comes back
  to a block it is still busy with, it may ask too early
  (`predecessor_search_iff`).  `IsSuccessor` finds all blocks.

  `none` is a search that has not ended.
-/
import Kremlin.Instrument.Terminator
import Kremlin.Library.DepthFirst
import Mathlib.Data.Fintype.Basic

namespace Kremlin.Instrument

open Kremlin.Library Relation

variable {B : Type}

/-! ## §1. The searches. -/

namespace Cfg

section Search

variable [DecidableEq B]

/-- The body of the loop of `getClosestPredecessors`, with the call it makes. -/
def checkSuccessor (search : B → Finset B × Finset B → Option (Finset B × Finset B))
    (target predecessor : B) (st : Finset B × Finset B) (successor : B) :
    Option (Finset B × Finset B) := do
  let results := if successor = target then insert predecessor st.1 else st.1
  let (results, searched) ← search successor (results, st.2)
  some (if successor ∈ results then insert predecessor results else results, searched)

variable (cfg : Cfg B)

/-- `getClosestPredecessors`; the sets are `results` and `searched`. -/
def getClosestPredecessors (target : B) : ℕ → B → Finset B × Finset B →
    Option (Finset B × Finset B)
  | 0, _, _ => none
  | fuel + 1, predecessor, (results, searched) =>
      if predecessor ∈ searched then some (results, searched)
      else
        let searched := insert predecessor searched
        let terminator := cfg.getTerminator predecessor
        if terminator.isBranchOrSwitch then
          terminator.successors.foldlM
            (checkSuccessor (getClosestPredecessors target fuel) target predecessor)
            (results, searched)
        else some (results, searched)

/-- The constructor of `IsPredecessor`. -/
def isPredecessor (target : B) : Option (Finset B) := do
  let (predecessors, _) ←
    cfg.getClosestPredecessors target (cfg.blocks.card + 1) cfg.entryBlock (∅, ∅)
  some predecessors

/-- `addSuccessors`. -/
def addSuccessors : ℕ → B → Finset B → Option (Finset B)
  | 0, _, _ => none
  | fuel + 1, target, successors =>
      let terminator := cfg.getTerminator target
      if terminator.isBranchOrSwitch then
        terminator.successors.foldlM (fun successors successor =>
          if successor ∉ successors then addSuccessors fuel successor (insert successor successors)
          else some successors) successors
      else some successors

/-- The constructor of `IsSuccessor`. -/
def isSuccessor (target : B) : Option (Finset B) :=
  cfg.addSuccessors (cfg.blocks.card + 2) target ∅

end Search

variable (cfg : Cfg B)

/-- The terminators are branches and switches, but for those that end a
function. -/
def BranchesAndSwitches : Prop :=
  ∀ b, (cfg.getTerminator b).isBranchOrSwitch = true ∨ (cfg.getTerminator b).successors = []

variable {cfg}

/-- A loop over the successors that a search goes through. -/
theorem BranchesAndSwitches.loop {σ : Type} (h : cfg.BranchesAndSwitches) (b : B)
    (f : σ → B → Option σ) (s : σ) :
    (if (cfg.getTerminator b).isBranchOrSwitch = true then
        (cfg.getTerminator b).successors.foldlM f s
      else some s) = (cfg.successors b).foldlM f s := by
  unfold successors
  rcases h b with hb | hb
  · rw [if_pos hb]
  · rw [hb, List.foldlM_nil]
    split <;> rfl

end Cfg

/-! ## §2. What is known on the way. -/

variable (succ : B → List B) (target : B)

/-- The target can be reached by at least one edge. -/
def Before (b : B) : Prop := TransGen (Next succ) b target

/-- The blocks on a path that the search has found to be before the target: the
path goes on to the target itself, or a successor looked at before told so. -/
def Known : Path B → B → Prop
  | [], _ => False
  | step :: path, b => Known path b ∨ b = step.node ∧ (step.next = target ∨
      ∃ u ∈ step.earlier, u = target ∨ Known path u ∨
        Before succ target u ∧ u ≠ step.node ∧ u ∉ pathNodes path)

/-- A successor `u` of `b` that tells the search that `b` is before the target:
`u` is the target; it is on the path and known; or it is before the target and
the search is not busy with it. -/
def Tells (path : Path B) (b u : B) : Prop :=
  u = target ∨ Known succ target path u ∨ Before succ target u ∧ u ≠ b ∧ u ∉ pathNodes path

/-- Some successor of the block tells that it is before the target. -/
def Told (visit : Visit B) : Prop := ∃ u ∈ succ visit.2, Tells succ target visit.1 visit.2 u

variable {succ target}

/-- What is known on a path is known before its last step, or learnt at that step. -/
theorem known_cons {step : Step B} {path : Path B} {b : B} :
    Known succ target (step :: path) b ↔ Known succ target path b ∨ b = step.node ∧
      (step.next = target ∨ ∃ u ∈ step.earlier, Tells succ target path step.node u) := Iff.rfl

/-- Only blocks of the path are known by it. -/
theorem Known.mem {path : Path B} {b : B} (h : Known succ target path b) : b ∈ pathNodes path := by
  induction path with
  | nil => cases h
  | cons step path ih =>
      rcases known_cons.mp h with h | ⟨rfl, -⟩
      · exact List.mem_cons_of_mem _ (ih h)
      · exact List.mem_cons_self

/-- A block is before the target if one of its successors is. -/
theorem before_of_succ {b u : B} (hu : u ∈ succ b) (h : u = target ∨ Before succ target u) :
    Before succ target b := by
  rcases h with rfl | h
  · exact TransGen.single hu
  · exact TransGen.head hu h

/-- A block before the target has a successor that is the target or before it. -/
theorem Before.exists_succ {b : B} (h : Before succ target b) :
    ∃ u ∈ succ b, u = target ∨ Before succ target u := by
  obtain ⟨u, hu, hut⟩ := TransGen.head'_iff.mp h
  rcases reflTransGen_iff_eq_or_transGen.mp hut with heq | hut
  · exact ⟨u, hu, .inl heq.symm⟩
  · exact ⟨u, hu, .inr hut⟩

/-! ## §3. The search and what it knows. -/

/-- The results while the search is busy with some blocks: those are found as far
as they are known, and of the others none is missing. -/
structure Searching (succ : B → List B) (target : B) (busy : List B) (known : B → Prop)
    (results : Finset B) (visits : List (Visit B)) : Prop where
  found : ∀ y ∈ results, y ∈ visited visits
  before : ∀ y ∈ results, Before succ target y
  status : ∀ y ∈ busy, y ∈ visited visits ∧ (y ∈ results ↔ known y)
  done : ∀ y ∈ visited visits, y ∉ busy → Before succ target y → y ∈ results

/-- The search is busy with the blocks of a path. -/
abbrev Seen (succ : B → List B) (target : B) (path : Path B) (results : Finset B)
    (visits : List (Visit B)) : Prop :=
  Searching succ target (pathNodes path) (Known succ target path) results visits

/-- Only what the busy blocks know counts. -/
theorem Searching.congr {busy : List B} {known known' : B → Prop} {results : Finset B}
    {visits : List (Visit B)} (h : Searching succ target busy known results visits)
    (hknown : ∀ y ∈ busy, known y ↔ known' y) :
    Searching succ target busy known' results visits where
  found := h.found
  before := h.before
  status y hy := ⟨(h.status y hy).1, (h.status y hy).2.trans (hknown y hy)⟩
  done := h.done

/-- What a search does whatever it knows: of the blocks entered before, it adds
at most those of `busy` to the results. -/
structure Ran (busy : List B) (visits new : List (Visit B))
    (results results' searched' : Finset B) : Prop where
  searched : ∀ y, y ∈ searched' ↔ y ∈ visited (visits ++ new)
  mono : results ⊆ results'
  added : ∀ y ∈ results', y ∈ results ∨ y ∈ busy ∨ y ∈ visited new
  fresh : ∀ y ∈ visited new, y ∉ visited visits

/-- Every new block before the target is told. -/
def Fine (succ : B → List B) (target : B) (new : List (Visit B)) : Prop :=
  ∀ visit ∈ new, Before succ target visit.2 → Told succ target visit

/-- Every new block before the target is found. -/
def Complete (succ : B → List B) (target : B) (new : List (Visit B)) (results : Finset B) : Prop :=
  ∀ y ∈ visited new, Before succ target y → y ∈ results

/-- Entering a block: nothing is known of it. -/
theorem Searching.enter {path : Path B} {u : B} {results : Finset B} {visits : List (Visit B)}
    (h : Seen succ target path results visits) (hu : u ∉ visited visits) :
    Searching succ target (u :: pathNodes path)
      (fun y => Known succ target path y ∨ y = u ∧ ∃ w ∈ ([] : List B), Tells succ target path u w)
      results (visits ++ [(path, u)]) := by
  have hvisits : visited (visits ++ [(path, u)]) = visited visits ++ [u] := visited_append _ _
  constructor
  · intro y hy
    rw [hvisits]
    exact List.mem_append_left _ (h.found y hy)
  · exact h.before
  · intro y hy
    rw [hvisits]
    rcases List.mem_cons.mp hy with rfl | hy
    · refine ⟨by simp, fun hin => absurd (h.found y hin) hu, ?_⟩
      rintro (hknown | ⟨-, w, hw, -⟩)
      · exact absurd (h.status y hknown.mem).1 hu
      · cases hw
    · obtain ⟨hin, hiff⟩ := h.status y hy
      refine ⟨List.mem_append_left _ hin, hiff.trans (or_iff_left ?_).symm⟩
      rintro ⟨-, w, hw, -⟩
      cases hw
  · intro y hy hbusy hbefore
    rw [List.mem_cons, not_or] at hbusy
    rw [hvisits, List.mem_append, List.mem_singleton] at hy
    exact h.done y (hy.resolve_right hbusy.1) hbusy.2 hbefore

section Learning

variable [DecidableEq B] {path : Path B} {u v : B} {earlier : List B} {results : Finset B}
  {visits : List (Visit B)}

/-- Learning that a block the search is busy with is before the target. -/
theorem Searching.learn {busy : List B} {known : B → Prop} {c : Prop} [Decidable c]
    (h : Searching succ target busy known results visits) (hu : u ∈ busy)
    (hc : c → Before succ target u) :
    Searching succ target busy (fun y => known y ∨ y = u ∧ c)
      (if c then insert u results else results) visits := by
  by_cases hin : c
  · rw [if_pos hin]
    constructor
    · intro y hy
      rcases Finset.mem_insert.mp hy with rfl | hy
      · exact (h.status y hu).1
      · exact h.found y hy
    · intro y hy
      rcases Finset.mem_insert.mp hy with rfl | hy
      · exact hc hin
      · exact h.before y hy
    · intro y hy
      refine ⟨(h.status y hy).1, ?_⟩
      rw [Finset.mem_insert, (h.status y hy).2]
      tauto
    · exact fun y hy hbusy hbefore => Finset.mem_insert_of_mem (h.done y hy hbusy hbefore)
  · rw [if_neg hin]
    exact h.congr fun y _ => (or_iff_left fun hy => hin hy.2).symm

/-- Following an edge to `v`. -/
theorem Searching.follow
    (h : Searching succ target (u :: pathNodes path)
      (fun y => Known succ target path y ∨ y = u ∧ ∃ w ∈ earlier, Tells succ target path u w)
      results visits) (hv : v ∈ succ u) :
    Seen succ target (⟨u, earlier, v⟩ :: path)
      (if v = target then insert u results else results) visits := by
  refine (h.learn List.mem_cons_self fun heq => before_of_succ hv (.inl heq)).congr fun y _ => ?_
  rw [known_cons, or_assoc, ← and_or_left]
  exact or_congr_right (and_congr_right fun _ => or_comm)

/-- Coming back over the edge to `v`: the block is found if `v` is, and that is if
`v` tells so. -/
theorem Searching.back (h : Seen succ target (⟨u, earlier, v⟩ :: path) results visits)
    (hv : v ∈ succ u) (hvisited : v ∈ visited visits) :
    Searching succ target (u :: pathNodes path)
      (fun y => Known succ target path y ∨
        y = u ∧ ∃ w ∈ earlier ++ [v], Tells succ target path u w)
      (if v ∈ results then insert u results else results) visits := by
  refine (h.learn List.mem_cons_self
    fun hin => before_of_succ hv (.inr (h.before v hin))).congr fun y _ => ?_
  rw [known_cons, or_assoc, ← and_or_left]
  refine or_congr_right (and_congr_right fun _ => ⟨?_, ?_⟩)
  · rintro ((htarget | ⟨w, hw, htell⟩) | hin)
    · exact ⟨v, by simp, .inl htarget⟩
    · exact ⟨w, List.mem_append_left _ hw, htell⟩
    · by_cases hbusy : v ∈ u :: pathNodes path
      · -- the search is busy with `v`, so it knew of it
        rcases known_cons.mp ((h.status v hbusy).2.mp hin) with hknown | ⟨-, htarget | ⟨w, hw, htell⟩⟩
        · exact ⟨v, by simp, .inr (.inl hknown)⟩
        · exact ⟨v, by simp, .inl htarget⟩
        · exact ⟨w, List.mem_append_left _ hw, htell⟩
      · rw [List.mem_cons, not_or] at hbusy
        exact ⟨v, by simp, .inr (.inr ⟨h.before v hin, hbusy.1, hbusy.2⟩)⟩
  · -- what `v` tells is the target, what was known before, or what the search has found
    rintro ⟨w, hw, htell⟩
    rcases List.mem_append.mp hw with hw | hw
    · exact .inl (.inr ⟨w, hw, htell⟩)
    · rw [List.mem_singleton.mp hw] at htell
      rcases htell with htarget | hknown | ⟨hbefore, hne, hpath⟩
      · exact .inl (.inl htarget)
      · refine .inr ((h.status v (List.mem_cons_of_mem _ hknown.mem)).2.mpr ?_)
        exact known_cons.mpr (.inl hknown)
      · refine .inr (h.done v hvisited ?_ hbefore)
        rw [pathNodes, List.map_cons, List.mem_cons, not_or]
        exact ⟨hne, hpath⟩

end Learning

/-! ## §4. One search for both. -/

section Lockstep

variable {visits new more : List (Visit B)} {busy : List B}
  {results results₁ results₂ searched₁ searched₂ : Finset B}

/-- One part of a search after the other. -/
theorem Ran.trans (h : Ran busy visits new results results₁ searched₁)
    (h' : Ran busy (visits ++ new) more results₁ results₂ searched₂) :
    Ran busy visits (new ++ more) results results₂ searched₂ := by
  constructor
  · rw [← List.append_assoc]
    exact h'.searched
  · exact h.mono.trans h'.mono
  · intro y hy
    rw [visited_append, List.mem_append]
    rcases h'.added y hy with hy | hy | hy
    · exact (h.added y hy).imp id (Or.imp id .inl)
    · exact .inr (.inl hy)
    · exact .inr (.inr (.inr hy))
  · intro y hy hin
    rw [visited_append, List.mem_append] at hy
    rcases hy with hy | hy
    · exact h.fresh y hy hin
    · refine h'.fresh y hy ?_
      rw [visited_append]
      exact List.mem_append_left _ hin

/-- A search for a successor of `u`, with what is learnt of `u` before and
after. -/
theorem Ran.marked [DecidableEq B] {u : B} {c c' : Prop} [Decidable c] [Decidable c']
    (h : Ran [] visits new (if c then insert u results else results) results₁ searched₁) :
    Ran [u] visits new results (if c' then insert u results₁ else results₁) searched₁ := by
  have hinsert : ∀ {d : Prop} [Decidable d] {set : Finset B} {y : B},
      y ∈ (if d then insert u set else set) → y ∈ set ∨ y = u := by
    intro d _ set y hy
    split at hy
    · exact (Finset.mem_insert.mp hy).symm
    · exact .inl hy
  have hmono : ∀ {d : Prop} [Decidable d] {set : Finset B},
      set ⊆ if d then insert u set else set := by
    intro d _ set
    split
    · exact Finset.subset_insert u set
    · exact Finset.Subset.refl set
  refine ⟨h.searched, (hmono.trans h.mono).trans hmono, fun y hy => ?_, h.fresh⟩
  rcases hinsert hy with hy | rfl
  · rcases h.added y hy with hy | hy | hy
    · rcases hinsert hy with hy | rfl
      · exact .inl hy
      · exact .inr (.inl (by simp))
    · cases hy
    · exact .inr (.inr hy)
  · exact .inr (.inl (by simp))

/-- The visits of two parts are fine if those of each are. -/
theorem fine_append :
    Fine succ target (new ++ more) ↔ Fine succ target new ∧ Fine succ target more := by
  unfold Fine
  simp only [List.mem_append]
  exact ⟨fun h => ⟨fun v hv => h v (.inl hv), fun v hv => h v (.inr hv)⟩,
    fun h v hv => hv.elim (h.1 v) (h.2 v)⟩

/-- The first visit and the others. -/
theorem fine_cons {visit : Visit B} : Fine succ target (visit :: new) ↔
    (Before succ target visit.2 → Told succ target visit) ∧ Fine succ target new :=
  List.forall_mem_cons

/-- The first visit and the others. -/
theorem complete_cons {visit : Visit B} : Complete succ target (visit :: new) results ↔
    (Before succ target visit.2 → visit.2 ∈ results) ∧ Complete succ target new results :=
  List.forall_mem_cons

/-- The visits of two parts are complete if those of each are. -/
theorem complete_append : Complete succ target (new ++ more) results ↔
    Complete succ target new results ∧ Complete succ target more results := by
  unfold Complete
  simp only [visited_append, List.mem_append]
  exact ⟨fun h => ⟨fun v hv => h v (.inl hv), fun v hv => h v (.inr hv)⟩,
    fun h v hv => hv.elim (h.1 v) (h.2 v)⟩

/-- What is found or missing among the blocks entered before stays so, but for
the busy ones. -/
theorem Ran.complete_iff (h : Ran busy visits more results results₁ searched₁)
    (hbusy : ∀ y ∈ busy, y ∉ visited new) (hnew : ∀ y ∈ visited new, y ∈ visited visits) :
    Complete succ target new results₁ ↔ Complete succ target new results := by
  constructor
  · intro hc y hy hbefore
    rcases h.added y (hc y hy hbefore) with hin | hin | hin
    · exact hin
    · exact absurd hy (hbusy y hin)
    · exact absurd (hnew y hy) (h.fresh y hin)
  · exact fun hc y hy hbefore => h.mono (hc y hy hbefore)

end Lockstep

section Main

variable [DecidableEq B] {cfg : Cfg B}

/-- A search and its paths: `enter` and `get` enter the same blocks; and if the
results are as far as they can be known, then of the new blocks none is missing
exactly when each is told. -/
def Enters (succ : B → List B) (target : B)
    (enter : Path B → B → List (Visit B) → Option (List (Visit B)))
    (get : B → Finset B × Finset B → Option (Finset B × Finset B)) : Prop :=
  ∀ (path : Path B) (u : B) (visits visits' : List (Visit B)) (results searched : Finset B),
    (∀ y, y ∈ searched ↔ y ∈ visited visits) → enter path u visits = some visits' →
    ∃ new results' searched', visits' = visits ++ new ∧
      get u (results, searched) = some (results', searched') ∧ u ∈ visited visits' ∧
      Ran [] visits new results results' searched' ∧
      (Seen succ target path results visits →
        (Fine succ target new ↔ Complete succ target new results') ∧
        (Fine succ target new → Seen succ target path results' visits'))

/-- What is known while the search goes through the successors of `u`, with those
in `earlier` behind it. -/
abbrev Busy (succ : B → List B) (target : B) (path : Path B) (u : B) (earlier : List B)
    (results : Finset B) (visits : List (Visit B)) : Prop :=
  Searching succ target (u :: pathNodes path)
    (fun y => Known succ target path y ∨ y = u ∧ ∃ w ∈ earlier, Tells succ target path u w)
    results visits

/-- **The loop over the successors of `u`.** -/
theorem Enters.loop {enter : Path B → B → List (Visit B) → Option (List (Visit B))}
    {get : B → Finset B × Finset B → Option (Finset B × Finset B)} {path : Path B} {u : B}
    (h : Enters succ target enter get) :
    ∀ (rest earlier : List B) (visits visits' : List (Visit B)) (results searched : Finset B),
      (∀ y, y ∈ searched ↔ y ∈ visited visits) → u ∈ visited visits → (∀ v ∈ rest, v ∈ succ u) →
      searchNext enter path u earlier rest visits = some visits' →
      ∃ new results' searched', visits' = visits ++ new ∧
        rest.foldlM (Cfg.checkSuccessor get target u) (results, searched)
          = some (results', searched') ∧
        Ran [u] visits new results results' searched' ∧
        (Busy succ target path u earlier results visits →
          (Fine succ target new ↔ Complete succ target new results') ∧
          (Fine succ target new → Busy succ target path u (earlier ++ rest) results' visits')) := by
  intro rest
  induction rest with
  | nil =>
      intro earlier visits visits' results searched hsearched _ _ hsearch
      cases hsearch
      refine ⟨[], results, searched, by rw [List.append_nil], rfl, ?_, fun hbusy => ?_⟩
      · refine ⟨?_, Finset.Subset.refl _, fun y hy => .inl hy, fun y hy => by cases hy⟩
        rw [List.append_nil]
        exact hsearched
      · rw [List.append_nil]
        exact ⟨⟨fun _ y hy => (by cases hy), fun _ v hv => (by cases hv)⟩, fun _ => hbusy⟩
  | cons v rest ihrest =>
      intro earlier visits visits' results searched hsearched hu hrest hsearch
      have hv : v ∈ succ u := hrest v List.mem_cons_self
      unfold searchNext at hsearch
      obtain ⟨visits₁, henter, hsearch⟩ := Option.bind_eq_some_iff.mp hsearch
      -- the search of `v`, then the rest of the loop
      obtain ⟨new, results₁, searched₁, rfl, hget, hvisited, hran, hseen⟩ :=
        h (⟨u, earlier, v⟩ :: path) v visits visits₁
          (if v = target then insert u results else results) searched hsearched henter
      have hu₁ : u ∈ visited (visits ++ new) := by
        rw [visited_append]
        exact List.mem_append_left _ hu
      obtain ⟨more, results₂, searched₂, rfl, hloop, hran', hbusy'⟩ :=
        ihrest (earlier ++ [v]) (visits ++ new) visits'
          (if v ∈ results₁ then insert u results₁ else results₁) searched₁ hran.searched hu₁
          (fun w hw => hrest w (List.mem_cons_of_mem v hw)) hsearch
      have hmarked : Ran [u] visits new results
          (if v ∈ results₁ then insert u results₁ else results₁) searched₁ := hran.marked
      refine ⟨new ++ more, results₂, searched₂, by rw [List.append_assoc], ?_,
        hmarked.trans hran', fun hbusy => ?_⟩
      · rw [List.foldlM_cons]
        unfold Cfg.checkSuccessor
        simp only [hget, Option.bind_eq_bind, Option.bind_some]
        exact hloop
      · -- `u` was entered before, so the results keep their new blocks
        have hfresh : ∀ y ∈ [u], y ∉ visited new := by
          intro y hy hin
          rw [List.mem_singleton.mp hy] at hin
          exact hran.fresh u hin hu
        have hkeep : Complete succ target new results₂ ↔ Complete succ target new results₁ := by
          rw [hran'.complete_iff hfresh fun y hy => by
            rw [visited_append]
            exact List.mem_append_right _ hy]
          unfold Complete
          refine forall_congr' fun y => forall_congr' fun hy => forall_congr' fun _ => ?_
          have hne : y ≠ u := fun heq => hfresh u (by simp) (heq ▸ hy)
          split
          · rw [Finset.mem_insert, or_iff_right hne]
          · exact Iff.rfl
        obtain ⟨hiff, hnext⟩ := hseen (hbusy.follow hv)
        rw [fine_append, complete_append, hkeep, ← hiff, List.append_cons]
        constructor
        · refine and_congr_right fun hfine => ?_
          exact (hbusy' ((hnext hfine).back hv hvisited)).1
        · rintro ⟨hfine, hmore⟩
          exact (hbusy' ((hnext hfine).back hv hvisited)).2 hmore

/-- **The search knows its paths.** -/
theorem getClosestPredecessors_enters (hterm : cfg.BranchesAndSwitches) (target : B) (fuel : ℕ) :
    Enters cfg.successors target (search cfg.successors fuel)
      (cfg.getClosestPredecessors target fuel) := by
  induction fuel with
  | zero =>
      intro path u visits visits' results searched _ hsearch
      unfold search at hsearch
      cases hsearch
  | succ fuel ih =>
      intro path u visits visits' results searched hsearched hsearch
      unfold search at hsearch
      unfold Cfg.getClosestPredecessors
      by_cases hin : u ∈ visited visits
      · rw [if_pos hin] at hsearch
        cases hsearch
        rw [if_pos ((hsearched u).mpr hin)]
        refine ⟨[], results, searched, by rw [List.append_nil], rfl, hin, ?_, fun hseen => ?_⟩
        · refine ⟨?_, Finset.Subset.refl _, fun y hy => .inl hy, fun y hy => by cases hy⟩
          rw [List.append_nil]
          exact hsearched
        · exact ⟨⟨fun _ y hy => (by cases hy), fun _ v hv => (by cases hv)⟩, fun _ => hseen⟩
      · rw [if_neg hin] at hsearch
        rw [if_neg fun hu => hin ((hsearched u).mp hu), hterm.loop]
        have hvisits : visited (visits ++ [(path, u)]) = visited visits ++ [u] :=
          visited_append _ _
        have hsearched₁ : ∀ y, y ∈ insert u searched ↔ y ∈ visited (visits ++ [(path, u)]) := by
          intro y
          rw [Finset.mem_insert, hvisits, List.mem_append, List.mem_singleton, hsearched y, or_comm]
        obtain ⟨new, results', searched', rfl, hloop, hran, hbusy⟩ :=
          ih.loop (cfg.successors u) [] _ visits' results (insert u searched) hsearched₁
            (by rw [hvisits]; simp) (fun v hv => hv) hsearch
        have hassoc : visits ++ [(path, u)] ++ new = visits ++ (path, u) :: new := by
          rw [List.append_assoc]
          rfl
        have hran' : Ran [] visits ((path, u) :: new) results results' searched' := by
          refine ⟨?_, hran.mono, fun y hy => ?_, fun y hy => ?_⟩
          · rw [← hassoc]
            exact hran.searched
          · rcases hran.added y hy with hy | hy | hy
            · exact .inl hy
            · rw [List.mem_singleton.mp hy]
              exact .inr (.inr List.mem_cons_self)
            · exact .inr (.inr (List.mem_cons_of_mem _ hy))
          · rcases List.mem_cons.mp hy with rfl | hy
            · exact hin
            · intro hold
              refine hran.fresh y hy ?_
              rw [hvisits]
              exact List.mem_append_left _ hold
        refine ⟨(path, u) :: new, results', searched', hassoc, hloop, ?_, hran', fun hseen => ?_⟩
        · rw [hassoc, visited_append]
          exact List.mem_append_right _ List.mem_cons_self
        · obtain ⟨hiff, hnext⟩ := hbusy (hseen.enter hin)
          have hpath : u ∉ pathNodes path := fun hu => hin (hseen.status u hu).1
          -- with all its successors behind it, `u` is found if it is told
          have htold : Fine cfg.successors target new →
              (u ∈ results' ↔ Told cfg.successors target (path, u)) := by
            intro hfine
            rw [((hnext hfine).status u List.mem_cons_self).2, List.nil_append]
            exact (or_iff_right fun hknown => hpath hknown.mem).trans (and_iff_right rfl)
          rw [fine_cons, complete_cons, ← hiff]
          refine ⟨?_, fun hfine => ?_⟩
          · refine and_congr_left fun hfine => ?_
            rw [htold hfine]
          · have hbusy' := hnext hfine.2
            refine ⟨hbusy'.found, hbusy'.before, fun y hy => ?_, fun y hy hout hbefore => ?_⟩
            · obtain ⟨hy', hstatus⟩ := hbusy'.status y (List.mem_cons_of_mem u hy)
              refine ⟨hy', hstatus.trans (or_iff_left ?_)⟩
              rintro ⟨rfl, -⟩
              exact hpath hy
            · by_cases hyu : y = u
              · rw [hyu] at hbefore ⊢
                exact (htold hfine.2).mpr (hfine.1 hbefore)
              · exact hbusy'.done y hy (List.not_mem_cons_of_ne_of_not_mem hyu hout) hbefore

/-- `addSuccessors` is a search from the successors. -/
theorem addSuccessors_eq (hterm : cfg.BranchesAndSwitches) :
    ∀ (fuel : ℕ) (path : Path B) (x : B) (earlier rest : List B) (visits visits' : List (Visit B))
      (successors : Finset B), (∀ y, y ∈ successors ↔ y ∈ visited visits) →
      searchNext (search cfg.successors fuel) path x earlier rest visits = some visits' →
      ∃ successors', rest.foldlM (fun successors successor =>
          if successor ∉ successors then
            cfg.addSuccessors fuel successor (insert successor successors)
          else some successors) successors = some successors' ∧
        ∀ y, y ∈ successors' ↔ y ∈ visited visits' := by
  intro fuel
  induction fuel with
  | zero =>
      intro path x earlier rest visits visits' successors hsame hsearch
      cases rest with
      | nil =>
          cases hsearch
          exact ⟨successors, rfl, hsame⟩
      | cons y rest => cases hsearch
  | succ fuel ih =>
      intro path x earlier rest
      induction rest generalizing earlier with
      | nil =>
          intro visits visits' successors hsame hsearch
          cases hsearch
          exact ⟨successors, rfl, hsame⟩
      | cons y rest ihrest =>
          intro visits visits' successors hsame hsearch
          unfold searchNext at hsearch
          obtain ⟨visits₁, henter, hsearch⟩ := Option.bind_eq_some_iff.mp hsearch
          rw [List.foldlM_cons]
          unfold search at henter
          -- both searches skip a block that was visited, and enter any other one
          by_cases hin : y ∈ visited visits
          · rw [if_pos hin] at henter
            cases henter
            rw [if_neg (not_not.mpr ((hsame y).mpr hin))]
            exact ihrest (earlier ++ [y]) visits visits' successors hsame hsearch
          · rw [if_neg hin] at henter
            rw [if_pos fun hy => hin ((hsame y).mp hy)]
            have hsame₁ : ∀ z, z ∈ insert y successors ↔
                z ∈ visited (visits ++ [(⟨x, earlier, y⟩ :: path, y)]) := by
              intro z
              rw [Finset.mem_insert, hsame z, visited_append, List.mem_append, or_comm]
              exact or_congr_right List.mem_singleton.symm
            obtain ⟨successors₁, hloop, hsame₂⟩ :=
              ih _ y [] (cfg.successors y) _ visits₁ (insert y successors) hsame₁ henter
            unfold Cfg.addSuccessors
            rw [hterm.loop, hloop]
            exact ihrest (earlier ++ [y]) visits₁ visits' successors₁ hsame₂ hsearch

end Main

/-! ## §5. Which blocks are found. -/

/-- **`IsPredecessor` is complete exactly when its paths tell.**  For every graph
of branches and switches and every target, both searches end.  `IsSuccessor`
finds the blocks that can be reached from the target by at least one edge.
`IsPredecessor` finds the blocks that can be reached from the entry and from
which the target can be reached by at least one edge, if and only if each such
block is told so on the path by which the search first enters it. -/
theorem predecessor_search_iff [DecidableEq B] (cfg : Cfg B) (hterm : cfg.BranchesAndSwitches)
    (target : B) (htarget : target ∈ cfg.blocks) :
    ∃ visits predecessors successors,
      search cfg.successors (cfg.blocks.card + 1) [] cfg.entryBlock [] = some visits ∧
      cfg.isPredecessor target = some predecessors ∧ cfg.isSuccessor target = some successors ∧
      (∀ b, b ∈ successors ↔ TransGen (Next cfg.successors) target b) ∧
      ((∀ b, b ∈ predecessors ↔ ReflTransGen (Next cfg.successors) cfg.entryBlock b ∧
          TransGen (Next cfg.successors) b target) ↔
        ∀ visit ∈ visits, Before cfg.successors target visit.2 →
          Told cfg.successors target visit) := by
  obtain ⟨visits, hsearch, hreach⟩ := mem_visited_search cfg.successor_mem cfg.entry_mem
  obtain ⟨after, hafter, hreach'⟩ := mem_visited_searchNext cfg.successor_mem htarget
  obtain ⟨new, predecessors, searched, hnew, hget, -, hran, hseen⟩ :=
    getClosestPredecessors_enters hterm target (cfg.blocks.card + 1) [] cfg.entryBlock [] visits
      ∅ ∅ (by simp [visited]) hsearch
  obtain ⟨successors, hadd, hsame⟩ := addSuccessors_eq hterm (cfg.blocks.card + 1) [] target []
    (cfg.successors target) [] after ∅ (by simp [visited]) hafter
  rw [List.nil_append] at hnew
  subst hnew
  refine ⟨visits, predecessors, successors, hsearch, ?_, ?_, fun b => (hsame b).trans (hreach' b), ?_⟩
  · unfold Cfg.isPredecessor
    rw [hget]
    rfl
  · unfold Cfg.isSuccessor Cfg.addSuccessors
    rw [hterm.loop, hadd]
  · -- at the start nothing is known and nothing found
    have hnone : Seen cfg.successors target [] ∅ [] := by
      constructor
      · exact fun y hy => absurd hy (Finset.notMem_empty y)
      · exact fun y hy => absurd hy (Finset.notMem_empty y)
      · exact fun y hy => by cases hy
      · exact fun y hy => by cases hy
    obtain ⟨hiff, hdone⟩ := hseen hnone
    show _ ↔ Fine cfg.successors target visits
    constructor
    · intro hexact
      refine hiff.mpr fun y hy hbefore => ?_
      exact (hexact y).mpr ⟨(hreach y).mp hy, hbefore⟩
    · intro hfine b
      have hknow := hdone hfine
      refine ⟨fun hb => ⟨(hreach b).mp (hknow.found b hb), hknow.before b hb⟩, ?_⟩
      exact fun h => hiff.mp hfine b ((hreach b).mpr h.1) h.2

/-- A loop: the block 1 goes on to 2, which goes back, or leaves to 3.  The order
of its successors is an argument. -/
def loopCfg (first second : Fin 4) : Cfg (Fin 4) where
  blocks := Finset.univ
  entryBlock := 0
  getTerminator
    | 0 => .br 1
    | 1 => .condBr first second
    | 2 => .br 1
    | 3 => .ret
  entry_mem := Finset.mem_univ _
  successor_mem _ _ s _ := Finset.mem_univ s

/-- The example has branches only. -/
theorem loopCfg_branches (first second : Fin 4) : (loopCfg first second).BranchesAndSwitches := by
  intro b
  match b with
  | 0 | 1 | 2 => exact .inl (by rfl)
  | 3 => exact .inr (by rfl)

/-- When the exit comes first, block 1 is known to be before block 3 by the time
the search comes back to it. -/
theorem predecessor_search_loop :
    ∃ predecessors, (loopCfg 3 2).isPredecessor 3 = some predecessors ∧
      ∀ b, b ∈ predecessors ↔ ReflTransGen (Next (loopCfg 3 2).successors) 0 b ∧
        TransGen (Next (loopCfg 3 2).successors) b 3 := by
  obtain ⟨visits, predecessors, successors, hsearch, hpre, -, -, hiff⟩ :=
    predecessor_search_iff (loopCfg 3 2) (loopCfg_branches 3 2) 3 (Finset.mem_univ _)
  have hvisits : search (loopCfg 3 2).successors 5 [] 0 []
      = some [([], 0), ([⟨0, [], 1⟩], 1), ([⟨1, [], 3⟩, ⟨0, [], 1⟩], 3),
        ([⟨1, [3], 2⟩, ⟨0, [], 1⟩], 2)] := by decide
  have hone : Before (loopCfg 3 2).successors 3 1 :=
    before_of_succ (by decide : (3 : Fin 4) ∈ (loopCfg 3 2).successors 1) (.inl rfl)
  refine ⟨predecessors, hpre, hiff.mpr fun visit hvisit hbefore => ?_⟩
  rw [Option.some.inj (hsearch.symm.trans hvisits)] at hvisit
  simp only [List.mem_cons, List.not_mem_nil, or_false] at hvisit
  rcases hvisit with rfl | rfl | rfl | rfl
  · exact ⟨1, by decide, .inr (.inr ⟨hone, by decide, by decide⟩)⟩
  · exact ⟨3, by decide, .inl rfl⟩
  · obtain ⟨u, hu, -⟩ := hbefore.exists_succ
    cases hu
  · exact ⟨1, by decide, .inr (.inl (known_cons.mpr (.inr ⟨rfl, .inr ⟨3, by decide, .inl rfl⟩⟩)))⟩

/-- When the loop comes first, block 2 is not found, though block 3 can be reached
from it. -/
theorem predecessor_search_misses :
    (loopCfg 2 3).BranchesAndSwitches ∧ (loopCfg 2 3).isPredecessor 3 = some {0, 1} ∧
      ReflTransGen (Next (loopCfg 2 3).successors) 0 2 ∧
      TransGen (Next (loopCfg 2 3).successors) 2 3 := by
  have h01 : Next (loopCfg 2 3).successors 0 1 := by decide
  have h12 : Next (loopCfg 2 3).successors 1 2 := by decide
  have h21 : Next (loopCfg 2 3).successors 2 1 := by decide
  have h13 : Next (loopCfg 2 3).successors 1 3 := by decide
  exact ⟨loopCfg_branches 2 3, by decide +kernel, (ReflTransGen.single h01).tail h12,
    (TransGen.single h21).tail h13⟩

end Kremlin.Instrument
