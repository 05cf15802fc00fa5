/-
  Kremlin.Runtime.RegionTreeStep — what opening and closing a context do.

  One lemma per operation, saying everything the later invariants need:

    * `findOrCreateChild_spec` — the child is a child of the current node, the
      shape is kept, no statistics change;
    * `openRegionContext_spec` (`Opened`) — the nodes visited move to their
      next page, the child is pushed, the position is where the child lands;
    * `closeRegionContext_spec` (`Closed`) — the same nodes absorb the stats
      and move back, the position is the parent of what was pushed.
-/
import Kremlin.Runtime.RegionTreeShape

namespace Kremlin.Runtime

open Kremlin.Library Relation

namespace RegionTree

variable {t t' : RegionTree}

/-! ## §1. Recursion. -/

/-- What the search finds is an ancestor with the static id. -/
theorem findAncestor_eq_some {sid : SID} :
    ∀ {fuel : ℕ} {p a : NodeRef}, findAncestor t sid fuel (some p) = some a →
      t.Anc a p ∧ (t.node a).static_id = sid
  | 0, p, a, h => by cases h
  | fuel + 1, p, a, h => by
      unfold findAncestor at h
      by_cases hp : (t.node p).static_id = sid
      · rw [if_pos hp, Option.some.injEq] at h
        subst h
        exact ⟨ReflTransGen.refl, hp⟩
      · rw [if_neg hp] at h
        match hq : (t.node p).parent with
        | none =>
            rw [hq] at h
            cases fuel <;> cases h
        | some q =>
            rw [hq] at h
            obtain ⟨haq, hs⟩ := findAncestor_eq_some h
            exact ⟨haq.tail hq, hs⟩

/-- With enough fuel the search misses no ancestor. -/
theorem findAncestor_eq_none (ht : t.TreeShape) {sid : SID} :
    ∀ {fuel : ℕ} {p : NodeRef}, p < fuel → findAncestor t sid fuel (some p) = none →
      ∀ a, t.Anc a p → (t.node a).static_id ≠ sid
  | 0, p, hlt, _, _, _ => absurd hlt (Nat.not_lt_zero p)
  | fuel + 1, p, hlt, h, a, ha => by
      unfold findAncestor at h
      by_cases hp : (t.node p).static_id = sid
      · rw [if_pos hp] at h
        cases h
      · rw [if_neg hp] at h
        rcases ReflTransGen.cases_tail ha with heq | ⟨q, haq, hq⟩
        · exact heq ▸ hp
        · rw [hq] at h
          exact findAncestor_eq_none ht (Nat.lt_of_lt_of_le (ht.parent_lt hq)
            (Nat.le_of_lt_succ hlt)) h a haq

/-- `getAncestorWithSameStaticID` finds a proper ancestor when there is one,
and nothing else. -/
theorem getAncestorWithSameStaticID_spec (ht : t.TreeShape) (r : NodeRef) :
    match t.getAncestorWithSameStaticID r with
    | some a => t.ProperAnc a r ∧ (t.node a).static_id = (t.node r).static_id
    | none => ∀ a, t.ProperAnc a r → (t.node a).static_id ≠ (t.node r).static_id := by
  unfold getAncestorWithSameStaticID
  match hp : (t.node r).parent with
  | none =>
      cases t.size <;>
      · rintro a ⟨p, hp', -⟩
        rw [hp] at hp'
        cases hp'
  | some p =>
      have hlt : p < t.size := Nat.lt_trans (ht.parent_lt hp) (ht.lt_size hp)
      match ha : findAncestor t (t.node r).static_id t.size (some p) with
      | some a =>
          obtain ⟨hap, hs⟩ := findAncestor_eq_some ha
          exact ⟨⟨p, hp, hap⟩, hs⟩
      | none =>
          rintro a ⟨p', hp', hap⟩
          rw [hp, Option.some.injEq] at hp'
          exact findAncestor_eq_none ht hlt ha a (hp' ▸ hap)

/-- The nodes after `handleRecursion` found the ancestor `a`. -/
theorem handleRecursion_node {r a : NodeRef} (ha : t.getAncestorWithSameStaticID r = some a)
    (hne : a ≠ r) (c : NodeRef) :
    (t.handleRecursion r).node c =
      if c = r then { t.node r with node_type := .rSink, recursion := some a }
      else if c = a then { t.node a with node_type := .rInit }
      else t.node c := by
  unfold handleRecursion
  rw [ha]
  simp only [setNode_node, if_neg hne.symm]

/-- Without an ancestor of the same id nothing happens. -/
theorem handleRecursion_of_none {r : NodeRef} (ha : t.getAncestorWithSameStaticID r = none) :
    t.handleRecursion r = t := by
  unfold handleRecursion
  rw [ha]

/-- No node is added. -/
theorem handleRecursion_size (r : NodeRef) : (t.handleRecursion r).size = t.size := by
  unfold handleRecursion
  split <;> rfl

/-- What `handleRecursion` writes: the node types of `r` and of an ancestor,
and the recursion pointer of `r`. -/
theorem handleRecursion_kept (r c : NodeRef) :
    ((t.handleRecursion r).node c).static_id = (t.node c).static_id ∧
    ((t.handleRecursion r).node c).parent = (t.node c).parent ∧
    ((t.handleRecursion r).node c).children = (t.node c).children ∧
    ((t.handleRecursion r).node c).region_type = (t.node c).region_type ∧
    ((t.handleRecursion r).node c).callsite_id = (t.node c).callsite_id ∧
    SameStats (t.node c) ((t.handleRecursion r).node c) := by
  unfold handleRecursion
  match ha : t.getAncestorWithSameStaticID r with
  | none => exact ⟨rfl, rfl, rfl, rfl, rfl, SameStats.refl _⟩
  | some a =>
      simp only [setNode_node]
      by_cases hcr : c = r
      · rw [if_pos hcr, hcr]
        by_cases hra : r = a
        · rw [if_pos hra, hra]
          exact ⟨rfl, rfl, rfl, rfl, rfl, rfl, rfl, rfl⟩
        · rw [if_neg hra]
          exact ⟨rfl, rfl, rfl, rfl, rfl, rfl, rfl, rfl⟩
      · rw [if_neg hcr]
        by_cases hca : c = a
        · rw [if_pos hca, hca]
          exact ⟨rfl, rfl, rfl, rfl, rfl, rfl, rfl, rfl⟩
        · rw [if_neg hca]
          exact ⟨rfl, rfl, rfl, rfl, rfl, SameStats.refl _⟩

/-- `handleRecursion` on a childless allocated node keeps the shape. -/
theorem TreeShape.handleRecursion (h : t.TreeShape) {r : NodeRef} (hr : r < t.size)
    (hr0 : r ≠ 0) (hchild : (t.node r).children = []) : (t.handleRecursion r).TreeShape := by
  have hspec := getAncestorWithSameStaticID_spec h r
  match ha : t.getAncestorWithSameStaticID r with
  | none =>
      rw [handleRecursion_of_none ha]
      exact h
  | some a =>
      rw [ha] at hspec
      obtain ⟨hanc, hsid⟩ := hspec
      -- h.children_ne_nil hanc (heq ▸ hchild) => the ancestor has a child, the node has none
      have hne : a ≠ r := fun heq => h.children_ne_nil hanc (heq ▸ hchild)
      have hnode := handleRecursion_node ha hne
      have hkept := handleRecursion_kept (t := t) r
      have halt : a < t.size := by
        obtain ⟨p, hp, hap⟩ := hanc
        exact Nat.lt_trans (Nat.lt_of_le_of_lt (h.anc_le hap) (h.parent_lt hp)) hr
      have hanc' : ∀ {x y : NodeRef}, t.Anc x y → (t.handleRecursion r).Anc x y := by
        intro x y hxy
        refine ReflTransGen.mono ?_ x y hxy
        intro p d hd
        rw [(hkept d).2.1]
        exact hd
      refine ⟨?_, ?_, ?_, ?_, ?_, ?_, ?_, ?_, ?_, ?_, ?_⟩
      · unfold RegionTree.handleRecursion
        rw [ha]
        exact h.root
      · rw [(hkept 0).1, h.root_sid]
      · -- a root with the static id of `r` becomes an `rInit`
        rw [hnode, if_neg (Ne.symm hr0)]
        split
        · exact fun h => by cases h
        · exact h.root_type
      · rw [(hkept 0).2.1, h.root_parent]
      · rw [handleRecursion_size]; exact h.size_pos
      · intro c hc
        rw [handleRecursion_size] at hc
        rw [hnode, if_neg (Nat.ne_of_gt (Nat.lt_of_lt_of_le hr hc)),
          if_neg (Nat.ne_of_gt (Nat.lt_of_lt_of_le halt hc)), h.blank c hc]
      · intro p c hp
        rw [(hkept c).2.1] at hp
        exact h.parent_lt hp
      · intro c hc hc0
        rw [handleRecursion_size] at hc
        rw [(hkept c).2.1]
        exact h.has_parent c hc hc0
      · intro p c
        rw [(hkept p).2.2.1, (hkept c).2.1]
        exact h.mem_children p c
      · intro s hs
        by_cases hsr : s = r
        · subst hsr
          refine ⟨by rw [(hkept s).2.2.1, hchild], a, ?_, ?_, ?_, ?_⟩
          · rw [hnode, if_pos rfl]
          · rw [hnode, if_neg hne, if_pos rfl]
          · rw [(hkept a).1, (hkept s).1, hsid]
          · obtain ⟨p, hp, hap⟩ := hanc
            exact ⟨p, by rw [(hkept s).2.1, hp], hanc' hap⟩
        · -- another sink is not the ancestor, which is an init now
          have hsa : s ≠ a := by
            intro hsa
            rw [hnode, if_neg hsr, if_pos hsa] at hs
            cases hs
          have hsame : (t.handleRecursion r).node s = t.node s := by
            rw [hnode, if_neg hsr, if_neg hsa]
          rw [hsame] at hs
          refine (h.sink s hs).mono ?_ (by rw [hsame]) (fun c _ => (hkept c).1)
            (fun c _ => (hkept c).2.1) ?_ h.parent_lt
          · rw [hsame, (h.sink s hs).childless]
          · intro b hb htype
            have hbr : b ≠ r := fun heq => h.children_ne_nil hb (heq ▸ hchild)
            rw [hnode, if_neg hbr]
            by_cases hba : b = a
            · rw [if_pos hba]
            · rw [if_neg hba, htype]
      · intro c b hb
        rw [hnode] at hb ⊢
        by_cases hcr : c = r
        · rw [if_pos hcr]
        · rw [if_neg hcr] at hb ⊢
          by_cases hca : c = a
          · rw [if_pos hca] at hb
            exact absurd (h.recursion_sink a b hb) (h.not_sink_of_properAnc hanc)
          · rw [if_neg hca] at hb ⊢
            exact h.recursion_sink c b hb

/-! ## §2. Finding or creating the child. -/

/-- What `findOrCreateChild` leaves behind. -/
structure Found (t : RegionTree) (sid : SID) (t' : RegionTree) (child : NodeRef) : Prop where
  shape : t'.TreeShape
  grows : Grows t t'
  /-- No node but the child is new. -/
  fresh : ∀ c, t.size ≤ c → c < t'.size → c = child
  parent : (t'.node child).parent = some t.curr_region_node
  static_id : (t'.node child).static_id = sid
  /-- Only a node of the same static id is turned into an `rInit`. -/
  init : ∀ c, (t'.node c).node_type = .rInit →
    (t.node c).node_type = .rInit ∨ (t'.node c).static_id = sid
  stats : ∀ c, SameStats (t.node c) (t'.node c)
  curr : t'.curr_region_node = t.curr_region_node
  stack : t'.c_region_stack = t.c_region_stack
  summarize : t'.summarize = t.summarize

/-- Creating the child, before recursion is looked at. -/
theorem addNewChild_found (h : t.TreeShape) (hcurr : t.curr_region_node < t.size)
    (hsink : (t.node t.curr_region_node).node_type ≠ .rSink) (sid : SID) (cid : CID)
    (type : RegionType) :
    Found t sid (t.addNewChild t.curr_region_node sid cid type) t.size := by
  have hnode := addNewChild_node hcurr sid cid type
  have hold : ∀ c, c < t.size →
      (t.addNewChild t.curr_region_node sid cid type).node c
        = if c = t.curr_region_node then
            { t.node t.curr_region_node with
              children := (t.node t.curr_region_node).children ++ [t.size] }
          else t.node c := by
    intro c hc
    rw [hnode, if_neg (Nat.ne_of_lt hc)]
  -- old nodes keep everything but their children
  have hcase : ∀ c, c < t.size → ∀ {β : Type} (f : ProfileNode → β),
      (∀ n l, f { n with children := l } = f n) →
      f ((t.addNewChild t.curr_region_node sid cid type).node c) = f (t.node c) := by
    intro c hc β f hf
    rw [hold c hc]
    by_cases hcc : c = t.curr_region_node
    · rw [if_pos hcc, hf, hcc]
    · rw [if_neg hcc]
  have hfresh : ∀ c, t.size ≤ c →
      c < (t.addNewChild t.curr_region_node sid cid type).size → c = t.size :=
    fun c hge hlt => Nat.le_antisymm (Nat.le_of_lt_succ hlt) hge
  refine ⟨h.addNewChild hcurr hsink sid cid type, ?_, hfresh, ?_, ?_, ?_, ?_, rfl, rfl, rfl⟩
  · refine ⟨Nat.le_succ _, ?_, ?_, ?_, ?_, ?_⟩
    · exact fun c hc => hcase c hc (·.static_id) fun _ _ => rfl
    · exact fun c hc => hcase c hc (·.parent) fun _ _ => rfl
    · exact fun c hc => hcase c hc (·.recursion) fun _ _ => rfl
    · exact fun c hc => by rw [hcase c hc (·.node_type) fun _ _ => rfl]
    · exact fun c hc hi => by rw [hcase c hc (·.node_type) fun _ _ => rfl, hi]
  · rw [hnode, if_pos rfl]
  · rw [hnode, if_pos rfl]
    rfl
  · intro c hi
    by_cases hc : c = t.size
    · rw [hnode, if_pos hc] at hi
      cases hi
    · refine .inl ?_
      rw [hnode, if_neg hc] at hi
      by_cases hcc : c = t.curr_region_node
      · rw [if_pos hcc] at hi
        rw [hcc]
        exact hi
      · rw [if_neg hcc] at hi
        exact hi
  · intro c
    by_cases hc : c < t.size
    · exact ⟨hcase c hc (·.stats) fun _ _ => rfl, hcase c hc (·.curr_stat_index) fun _ _ => rfl,
        hcase c hc (·.num_instances) fun _ _ => rfl⟩
    · have hblank := h.blank c (Nat.le_of_not_lt hc)
      have hcc : c ≠ t.curr_region_node := fun heq => hc (heq ▸ hcurr)
      rw [hnode, hblank]
      by_cases hcs : c = t.size
      · rw [if_pos hcs]
        exact ⟨rfl, rfl, rfl⟩
      · rw [if_neg hcs, if_neg hcc]
        exact SameStats.refl _

/-- Looking at recursion after the child has been created. -/
theorem Found.handleRecursion {t₁ : RegionTree} {sid : SID} {child : NodeRef}
    (hf : Found t sid t₁ child) (hnew : t.size ≤ child) (hlt : child < t₁.size)
    (hpos : 0 < t.size) (hchild : (t₁.node child).children = []) :
    Found t sid (t₁.handleRecursion child) child := by
  have hkept := handleRecursion_kept (t := t₁) child
  have hspec := getAncestorWithSameStaticID_spec hf.shape child
  have hne : ∀ c, c < t.size → c ≠ child := fun c hc => Nat.ne_of_lt (Nat.lt_of_lt_of_le hc hnew)
  -- an old node is at most turned into an `rInit`, and it was no sink then
  have hold : ∀ c, c < t.size →
      (t₁.handleRecursion child).node c = t₁.node c ∨
        ((t₁.handleRecursion child).node c = { t₁.node c with node_type := .rInit } ∧
          (t₁.node c).node_type ≠ .rSink) := by
    intro c hc
    match ha : t₁.getAncestorWithSameStaticID child with
    | none =>
        rw [handleRecursion_of_none ha]
        exact Or.inl rfl
    | some a =>
        rw [ha] at hspec
        have hac : a ≠ child := fun heq => hf.shape.children_ne_nil hspec.1 (heq ▸ hchild)
        rw [handleRecursion_node ha hac, if_neg (hne c hc)]
        by_cases hca : c = a
        · rw [if_pos hca, hca]
          exact Or.inr ⟨rfl, hf.shape.not_sink_of_properAnc hspec.1⟩
        · rw [if_neg hca]
          exact Or.inl rfl
  have hstat : (t₁.handleRecursion child).curr_region_node = t₁.curr_region_node ∧
      (t₁.handleRecursion child).c_region_stack = t₁.c_region_stack ∧
      (t₁.handleRecursion child).summarize = t₁.summarize := by
    unfold RegionTree.handleRecursion
    split <;> exact ⟨rfl, rfl, rfl⟩
  refine ⟨hf.shape.handleRecursion hlt (Ne.symm (hne 0 hpos)) hchild, ?_, ?_, ?_, ?_, ?_, ?_, ?_,
    ?_, ?_⟩
  · refine ⟨?_, ?_, ?_, ?_, ?_, ?_⟩
    · rw [handleRecursion_size]
      exact hf.grows.size_le
    · exact fun c hc => (hkept c).1.trans (hf.grows.static_id c hc)
    · exact fun c hc => (hkept c).2.1.trans (hf.grows.parent c hc)
    · intro c hc
      rw [← hf.grows.recursion c hc]
      rcases hold c hc with h | ⟨h, -⟩ <;> rw [h]
    · intro c hc
      rw [← hf.grows.sink_iff c hc]
      rcases hold c hc with h | ⟨h, hns⟩
      · rw [h]
      · rw [h]
        exact ⟨fun h => (by cases h), fun h => absurd h hns⟩
    · intro c hc hi
      have hi' := hf.grows.init c hc hi
      rcases hold c hc with h | ⟨h, -⟩
      · rw [h, hi']
      · rw [h]
  · intro c hge hlt'
    rw [handleRecursion_size] at hlt'
    exact hf.fresh c hge hlt'
  · rw [(hkept child).2.1, hf.parent]
  · rw [(hkept child).1, hf.static_id]
  · intro c hi
    rw [(hkept c).1]
    match ha : t₁.getAncestorWithSameStaticID child with
    | none =>
        rw [handleRecursion_of_none ha] at hi
        exact hf.init c hi
    | some a =>
        rw [ha] at hspec
        have hac : a ≠ child := fun heq => hf.shape.children_ne_nil hspec.1 (heq ▸ hchild)
        rw [handleRecursion_node ha hac] at hi
        by_cases hcc : c = child
        · rw [if_pos hcc] at hi
          cases hi
        · rw [if_neg hcc] at hi
          by_cases hca : c = a
          · rw [hca, hspec.2, hf.static_id]
            exact .inr rfl
          · rw [if_neg hca] at hi
            exact hf.init c hi
  · intro c
    have hk := (hkept c).2.2.2.2.2
    have hs := hf.stats c
    exact ⟨hk.stats.trans hs.stats, hk.curr_stat_index.trans hs.curr_stat_index,
      hk.num_instances.trans hs.num_instances⟩
  · rw [hstat.1, hf.curr]
  · rw [hstat.2.1, hf.stack]
  · rw [hstat.2.2, hf.summarize]

/-- **What `findOrCreateChild` does**, in any well-shaped tree. -/
theorem findOrCreateChild_spec (h : t.TreeShape) (hcurr : t.curr_region_node < t.size)
    (hsink : (t.node t.curr_region_node).node_type ≠ .rSink) (sid : SID) (cid : CID)
    (type : RegionType) :
    Found t sid (t.findOrCreateChild sid cid type).1 (t.findOrCreateChild sid cid type).2 := by
  unfold findOrCreateChild
  match hget : t.getChild t.curr_region_node sid cid with
  | some child =>
      have hmem := List.mem_of_find?_eq_some hget
      have hmatch := List.find?_some hget
      have hs : (t.node child).static_id = sid := by
        unfold ProfileNode.isMatch at hmatch
        rw [Bool.and_eq_true] at hmatch
        exact eq_of_beq hmatch.1
      exact ⟨h, Grows.refl t, fun c hge hlt => absurd hlt (Nat.not_lt.mpr hge),
        (h.mem_children _ _).mp hmem, hs, fun c hi => .inl hi, fun c => SameStats.refl _,
        rfl, rfl, rfl⟩
  | none =>
      have hadd := addNewChild_found h hcurr hsink sid cid type
      have hchild : ((t.addNewChild t.curr_region_node sid cid type).node t.size).children = [] := by
        rw [addNewChild_node hcurr, if_pos rfl]
        rfl
      show Found t sid (if t.summarize then _ else _) t.size
      by_cases hsum : t.summarize = true
      · rw [if_pos hsum]
        exact hadd.handleRecursion (Nat.le_refl _) (Nat.lt_succ_self _) h.size_pos hchild
      · rw [if_neg hsum]
        exact hadd

/-! ## §3. Opening. -/

/-- What entering `child` does to a tree: every node visited moves to its next
page, the child is pushed, and the position is where the child lands. -/
structure Entered (t : RegionTree) (child : NodeRef) (t' : RegionTree) : Prop where
  node : ∀ c, t'.node c =
    if c ∈ visits t.land child then (t.node c).moveToNextStats else t.node c
  root : t'.region_tree_root = t.region_tree_root
  size : t'.size = t.size
  lastId : t'.lastId = t.lastId
  curr : t'.curr_region_node = t.land child
  stack : t'.c_region_stack = child :: t.c_region_stack
  summarize : t'.summarize = t.summarize

/-- Entering a child moves it, and the target it lands on, to the next page. -/
theorem enterChild_spec (h : t.TreeShape) (child : NodeRef) :
    ∃ t', t.enterChild child = some t' ∧ Entered t child t' := by
  unfold enterChild
  by_cases hs : (t.node child).node_type = .rSink
  · -- a sink: its target is entered as well
    obtain ⟨a, ha, hinit, -, -⟩ := (h.sink child hs).target
    have hne : a ≠ child := fun heq => by rw [heq, hs] at hinit; cases hinit
    have hland : t.land child = a := TreeShape.land_of_sink hs ha
    have hs' : ((t.setNode child (t.node child).moveToNextStats).node child).node_type = .rSink := by
      rw [setNode_node, if_pos rfl]
      exact hs
    have hr' : ((t.setNode child (t.node child).moveToNextStats).node child).recursion = some a := by
      rw [setNode_node, if_pos rfl]
      exact ha
    simp only [hs', hr']
    refine ⟨_, rfl, ?_, rfl, rfl, rfl, hland.symm, rfl, rfl⟩
    intro c
    unfold visits
    rw [hland, if_neg hne]
    simp only [setNode_node, List.mem_cons, List.not_mem_nil, or_false, if_neg hne]
    by_cases hca : c = a
    · simp [hca]
    · by_cases hcc : c = child <;> simp [hca, hcc, hne.symm]
  · have hland : t.land child = child := TreeShape.land_of_not_sink hs
    have hs' : ((t.setNode child (t.node child).moveToNextStats).node child).node_type ≠ .rSink := by
      rw [setNode_node, if_pos rfl]
      exact hs
    refine ⟨{ t.setNode child (t.node child).moveToNextStats with
      curr_region_node := child, c_region_stack := child :: t.c_region_stack }, ?_, ?_, rfl, rfl,
      rfl, hland.symm, rfl, rfl⟩
    · simp only [setNode_c_region_stack]
    · intro c
      show (t.setNode child _).node c = _
      rw [setNode_node]
      by_cases hc : c = child
      · rw [if_pos hc, if_pos (mem_visits.mpr (Or.inl hc)), hc]
      · rw [if_neg hc, if_neg]
        intro hmem
        rcases mem_visits.mp hmem with h | h
        · exact hc h
        · exact hc (h.trans hland)

namespace Entered

variable {child : NodeRef}

/-- Links and types stay. -/
theorem sameShape (h : Entered t child t') (c : NodeRef) : (t.node c).SameShape (t'.node c) := by
  rw [h.node]
  split
  · exact ProfileNode.sameShape_moveToNextStats _
  · exact ProfileNode.SameShape.refl _

/-- So the tree has only grown. -/
theorem grows (h : Entered t child t') : Grows t t' := Grows.of_sameShape h.size h.sameShape

/-- It keeps its shape. -/
theorem shape (h : Entered t child t') (ht : t.TreeShape) (hc : child < t.size) :
    t'.TreeShape := by
  refine ht.congr h.root h.size h.sameShape ?_
  intro c hge
  rw [h.node, if_neg]
  intro hmem
  rcases mem_visits.mp hmem with rfl | rfl
  · exact Nat.lt_irrefl _ (Nat.lt_of_lt_of_le hc hge)
  · exact Nat.lt_irrefl _ (Nat.lt_of_lt_of_le (ht.land_lt_size hc) hge)

end Entered

/-! ## §4. Closing. -/

/-- What closing the context opened on `exited` does: every node visited takes
the stats and moves back one page, and the position is the parent of `exited`. -/
structure Closed (t : RegionTree) (stats : RegionStats) (exited : NodeRef) (rest : List NodeRef)
    (t' : RegionTree) : Prop where
  node : ∀ c, if c ∈ visits t.land exited
    then ∃ n, (t.node c).addStats stats = some n ∧ t'.node c = n.moveToPrevStats
    else t'.node c = t.node c
  root : t'.region_tree_root = t.region_tree_root
  size : t'.size = t.size
  lastId : t'.lastId = t.lastId
  curr : (t.node exited).parent = some t'.curr_region_node
  stack : t'.c_region_stack = rest
  summarize : t'.summarize = t.summarize

/-- A node with a current page. -/
def HasPage (n : ProfileNode) : Prop := 0 ≤ n.curr_stat_index ∧ n.curr_stat_index < n.stats.length

/-- Closing adds the statistics where the entry had moved on, and moves back. -/
theorem closeRegionContext_spec (h : t.TreeShape) (stats : RegionStats) {exited : NodeRef}
    {rest : List NodeRef} (hstack : t.c_region_stack = exited :: rest)
    (hcurr : t.curr_region_node = t.land exited)
    (hparent : ∃ p, (t.node exited).parent = some p)
    (hpage : ∀ c ∈ visits t.land exited, HasPage (t.node c)) :
    ∃ t', closeRegionContext stats t = some t' ∧ Closed t stats exited rest t' := by
  obtain ⟨p, hp⟩ := hparent
  -- the nodes entered have a page to add to
  have hadd : ∀ c ∈ visits t.land exited, ∃ n, (t.node c).addStats stats = some n := by
    intro c hc
    obtain ⟨h₀, h₁⟩ := hpage c hc
    exact Option.isSome_iff_exists.mp (ProfileNode.addStats_isSome h₀ h₁)
  obtain ⟨n, hn⟩ := hadd (t.land exited) (mem_visits.mpr (Or.inr rfl))
  have hshape := (ProfileNode.addStats_eq_some hn).2.2.1
  have hcn : t.curr_region_node = t.land exited := hcurr
  unfold closeRegionContext
  simp only [hcn, hn, Option.bind_eq_bind, Option.bind_some, setNode_c_region_stack, hstack]
  by_cases hs : (t.node exited).node_type = .rSink
  · obtain ⟨a, ha, hinit, -, -⟩ := (h.sink exited hs).target
    have hland : t.land exited = a := TreeShape.land_of_sink hs ha
    have hne : exited ≠ a := fun heq => by rw [← heq, hs] at hinit; cases hinit
    rw [hland] at hn hshape
    obtain ⟨m, hm⟩ := hadd exited (mem_visits.mpr (Or.inl rfl))
    have htype : n.moveToPrevStats.node_type = .rInit := hshape.node_type.trans hinit
    simp only [setNode_node, hland, if_true, if_neg hne, htype, hp, hs, hm, Option.bind_some]
    refine ⟨_, rfl, ?_, rfl, rfl, rfl, hp, rfl, rfl⟩
    intro c
    unfold visits
    simp only [hland, if_neg hne.symm, List.mem_cons, List.not_mem_nil, or_false, setNode_node]
    by_cases hca : c = a
    · rw [if_pos (Or.inl hca), if_neg (fun h => hne (h.symm.trans hca)), if_pos hca, hca]
      exact ⟨n, hn, rfl⟩
    · by_cases hce : c = exited
      · rw [if_pos (Or.inr hce), if_pos hce, hce]
        exact ⟨m, hm, rfl⟩
      · rw [if_neg (by simp [hca, hce]), if_neg hce, if_neg hca]
  · have hland : t.land exited = exited := TreeShape.land_of_not_sink hs
    rw [hland] at hn hshape
    have htype : n.moveToPrevStats.node_type ≠ .rSink := by
      show n.node_type ≠ .rSink
      rw [hshape.node_type]
      exact hs
    have hpar : n.moveToPrevStats.parent = some p := hshape.parent.trans hp
    simp only [setNode_node, hland, if_true, hpar, ite_self, Option.bind_some, if_neg htype]
    refine ⟨_, rfl, ?_, rfl, rfl, rfl, hp, rfl, rfl⟩
    intro c
    unfold visits
    rw [hland, if_pos rfl]
    show if c ∈ [exited] then _ else (t.setNode exited _).node c = _
    simp only [List.mem_singleton, setNode_node]
    by_cases hc : c = exited
    · rw [if_pos hc, if_pos hc, hc]
      exact ⟨n, hn, rfl⟩
    · rw [if_neg hc, if_neg hc]

namespace Closed

variable {stats : RegionStats} {exited : NodeRef} {rest : List NodeRef}

theorem sameShape (h : Closed t stats exited rest t') (c : NodeRef) :
    (t.node c).SameShape (t'.node c) := by
  have hc := h.node c
  by_cases hmem : c ∈ visits t.land exited
  · rw [if_pos hmem] at hc
    obtain ⟨n, hn, heq⟩ := hc
    rw [heq]
    exact (ProfileNode.addStats_eq_some hn).2.2.1.trans (ProfileNode.sameShape_moveToPrevStats n)
  · rw [if_neg hmem] at hc
    rw [hc]
    exact ProfileNode.SameShape.refl _

theorem grows (h : Closed t stats exited rest t') : Grows t t' :=
  Grows.of_sameShape h.size h.sameShape

theorem shape (h : Closed t stats exited rest t') (ht : t.TreeShape) (hc : exited < t.size) :
    t'.TreeShape := by
  refine ht.congr h.root h.size h.sameShape ?_
  intro c hge
  have hnode := h.node c
  rw [if_neg] at hnode
  · exact hnode
  intro hmem
  rcases mem_visits.mp hmem with rfl | rfl
  · exact Nat.lt_irrefl _ (Nat.lt_of_lt_of_le hc hge)
  · exact Nat.lt_irrefl _ (Nat.lt_of_lt_of_le (ht.land_lt_size hc) hge)

end Closed

end RegionTree

end Kremlin.Runtime
