/-
  Kremlin.Runtime.RegionTreePages — how many statistics pages a node has.

  A node gets a page for each activation that is open at once, so its number of
  pages is the largest number of simultaneous activations so far.  The counting
  rules of `Library.JumpStack` compare these numbers between nodes:

    * a node with no `rInit` at or above it is activated once at a time;
    * a sink is entered at most as often as the nodes between it and its
      target, and the target once more.
-/
import Kremlin.Runtime.RegionTreeDiscipline

namespace Kremlin.Runtime

open Kremlin.Library

namespace RegionTree

/-! ## §1. The invariant. -/

/-- No node at or above `c` is marked `rInit`. -/
def NoInit (t : RegionTree) (c : NodeRef) : Prop :=
  ∀ a, t.Anc a c → (t.node a).node_type ≠ .rInit

/-- The number of statistics pages of a node. -/
def pages (t : RegionTree) (c : NodeRef) : ℕ := (t.node c).stats.length

/-- What a sink `s` with target `a` needs of the path between them. -/
def PathPages (t : RegionTree) (s a : NodeRef) : Prop :=
  (∀ y, t.ProperAnc y s → t.Anc a y → t.pages s ≤ t.pages y) ∧ t.pages s + 1 ≤ t.pages a

/-- How the page counts of the nodes relate. -/
structure PagesOk (t : RegionTree) : Prop where
  visited : ∀ c, c < t.size → c ≠ 0 → 1 ≤ t.pages c
  single : ∀ c, c ≠ 0 → t.NoInit c → t.pages c ≤ 1
  sink : ∀ s a, (t.node s).node_type = .rSink → (t.node s).recursion = some a → t.PathPages s a

variable {t t' : RegionTree}

/-! ## §2. Activations bound each other. -/

namespace Discipline

/-- A node has a page for each open activation. -/
theorem activations_le_pages (h : t.Discipline) (c : NodeRef) :
    activations t.land t.c_region_stack c ≤ t.pages c := by
  have hidx := h.index c
  have hlt := h.page c
  unfold pages
  omega

/-- A jump goes upwards. -/
theorem hland (h : t.Discipline) (e : NodeRef) : h.shape.forest.Anc (t.land e) e :=
  h.shape.land_anc e

/-- Nothing but the root is above it. -/
theorem not_anc_root (h : t.Discipline) {c : NodeRef} (hc : c ≠ 0) : ¬ h.shape.forest.Anc c 0 :=
  fun ha => hc (h.shape.eq_root_of_anc ha)

/-- With no `rInit` above it, a node is activated at most once at a time. -/
theorem activations_le_one (h : t.Discipline) {c : NodeRef} (hc : c ≠ 0) (hno : t.NoInit c) :
    activations t.land t.c_region_stack c ≤ 1 := by
  refine (Library.activations_le_one h.hland ?_ ?_ (h.not_anc_root hc) h.chain).1
  · -- a sink below `c` lands below `c`, since its target is an `rInit`
    intro e hce
    by_cases hs : (t.node e).node_type = .rSink
    · obtain ⟨a, ha, hinit, -, p, hp, hap⟩ := (h.shape.sink e hs).target
      rw [TreeShape.land_of_sink hs ha]
      have hae : h.shape.forest.Anc a e := hap.tail hp
      rcases hce.total hae with hca | hac
      · exact hca
      · exact absurd hinit (hno a hac)
    · rw [TreeShape.land_of_not_sink hs]
      exact hce
  · intro e he
    exact h.shape.land_eq he (hno c (Forest.Anc.refl c : h.shape.forest.Anc c c))

variable {s a : NodeRef}

/-- No recursion leads to the root. -/
theorem target_ne_root (h : t.Discipline) (hs : (t.node s).node_type = .rSink)
    (ha : (t.node s).recursion = some a) : a ≠ 0 := by
  obtain ⟨a', ha', hinit, -⟩ := (h.shape.sink s hs).target
  obtain rfl := Option.some.inj (ha.symm.trans ha')
  rintro rfl
  exact h.plain.root_normal hinit

/-- A sink is activated once per entry on the stack. -/
theorem activations_sink (h : t.Discipline) (hs : (t.node s).node_type = .rSink) :
    activations t.land t.c_region_stack s = t.c_region_stack.count s :=
  activations_eq_count (fun e he => h.shape.land_not_sink e (by rw [he]; exact hs)) _

/-- The nodes between a sink and its target are activated at least as often as
the sink, and the target at least once more while the sink is open. -/
theorem activations_path (h : t.Discipline) (hs : (t.node s).node_type = .rSink)
    (ha : (t.node s).recursion = some a) :
    (∀ y, t.ProperAnc y s → t.Anc a y →
      activations t.land t.c_region_stack s ≤ activations t.land t.c_region_stack y) ∧
    (0 < activations t.land t.c_region_stack s →
      activations t.land t.c_region_stack s + 1 ≤ activations t.land t.c_region_stack a) := by
  have hland : t.land s = a := TreeShape.land_of_sink hs ha
  have ha0 := h.target_ne_root hs ha
  obtain ⟨a', ha', hinit, -, hproper⟩ := (h.shape.sink s hs).target
  obtain rfl := Option.some.inj (ha.symm.trans ha')
  have hsa : s ≠ a := by
    rintro rfl
    rw [hs] at hinit
    cases hinit
  have haa : t.land a = a := TreeShape.land_of_not_sink (by rw [hinit]; exact fun h => by cases h)
  -- the target: its own entries and those of the sink
  have htarget : 0 < t.c_region_stack.count s →
      t.c_region_stack.count s + 1 ≤ activations t.land t.c_region_stack a := by
    intro hpos
    have hmem := count_pos_of_jump h.hland hland (h.not_anc_root ha0) h.chain
      (List.count_pos_iff.mp hpos)
    have hone := List.count_pos_iff.mpr hmem
    have hadd := count_add_count_le_activations hland hsa haa t.c_region_stack
    omega
  rw [h.activations_sink hs]
  refine ⟨fun y hy hay => ?_, htarget⟩
  by_cases hya : y = a
  · subst hya
    by_cases hpos : 0 < t.c_region_stack.count s
    · exact Nat.le_of_succ_le (htarget hpos)
    · omega
  · -- strictly between: every entry of the sink needs a new entry of `y`
    have hys : t.Anc y s := by
      obtain ⟨p, hp, hyp⟩ := hy
      exact hyp.tail hp
    have hne : y ≠ s := fun heq => h.shape.not_sink_of_properAnc hy (heq ▸ hs)
    have hyy : t.land y = y := TreeShape.land_of_not_sink (h.shape.not_sink_of_properAnc hy)
    have hout : ¬ h.shape.forest.Anc y (t.land s) := by
      rw [hland]
      exact fun hya' => hya (Forest.Anc.antisymm (F := h.shape.forest) hya' hay)
    have hy0 : y ≠ 0 := by
      rintro rfl
      exact ha0 (h.shape.eq_root_of_anc hay)
    have hcount := count_le_of_jump h.hland hys hne hyy hout (h.not_anc_root hy0) h.chain
    have hle : _ ≤ activations t.land t.c_region_stack y := count_le_activations _ y
    split at hcount <;> omega

end Discipline

/-! ## §3. Every call keeps it. -/

namespace PagesOk

/-- No node but the root, which has no page. -/
theorem init (summarize : Bool) : (initRegionTree summarize).PagesOk := by
  have hpages : ∀ c, (initRegionTree summarize).pages c = 0 := by
    intro c
    simp only [pages, initRegionTree, Function.update_apply]
    split <;> rfl
  refine ⟨?_, ?_, ?_⟩
  · intro c hc h0
    have hc' : c < 1 := hc
    exact absurd (Nat.lt_one_iff.mp hc') h0
  · intro c _ _
    rw [hpages]
    exact Nat.zero_le 1
  · intro s a hs _
    have htype : ((initRegionTree summarize).node s).node_type = .normal := by
      simp only [initRegionTree, Function.update_apply]
      split <;> rfl
    rw [htype] at hs
    cases hs

/-- A page count after an open: unchanged, or the number of activations now. -/
theorem pages_opened (h : t.Discipline) (h' : t'.Discipline) {sid : SID} {t₁ : RegionTree}
    {child : NodeRef} (hf : Found t sid t₁ child) (he : Entered t₁ child t') (c : NodeRef) :
    t.pages c ≤ t'.pages c ∧
      (t'.pages c = t.pages c ∨ t'.pages c = activations t'.land t'.c_region_stack c) := by
  have hidx := h'.index c
  have hold : t.pages c = t₁.pages c := by
    unfold pages
    rw [(hf.stats c).stats]
  have hpage := (h.found hf).page c
  rw [he.node] at hidx
  unfold pages at hold ⊢
  rw [hold, he.node]
  by_cases hc : c ∈ visits t₁.land child
  · rw [if_pos hc, ProfileNode.moveToNextStats_curr_stat_index] at hidx
    rw [if_pos hc]
    have hlen := ProfileNode.moveToNextStats_length hpage
    omega
  · rw [if_neg hc]
    exact ⟨Nat.le_refl _, Or.inl rfl⟩

/-- Opening a context. -/
theorem opened (hp : t.PagesOk) (h : t.Discipline) (h' : t'.Discipline) {sid : SID}
    {t₁ : RegionTree} {child : NodeRef} (hf : Found t sid t₁ child) (he : Entered t₁ child t') :
    t'.PagesOk := by
  have hgrow : Grows t t' := hf.grows.trans he.grows
  have hopen := pages_opened h h' hf he
  -- a node that was not there had no page
  have hblank : ∀ c, t.size ≤ c → t.pages c = 0 := by
    intro c hc
    unfold pages
    rw [h.shape.blank c hc]
    rfl
  have hvisited : ∀ c, c < t'.size → c ≠ 0 → 1 ≤ t'.pages c := by
    intro c hc hc0
    by_cases hlt : c < t.size
    · exact Nat.le_trans (hp.visited c hlt hc0) (hopen c).1
    · obtain rfl := hf.fresh c (Nat.le_of_not_lt hlt) (he.size ▸ hc)
      have hact : 0 < activations t'.land t'.c_region_stack c := by
        refine Nat.lt_of_lt_of_le ?_ (count_le_activations _ _)
        rw [he.stack]
        exact List.count_pos_iff.mpr List.mem_cons_self
      exact Nat.le_trans hact (h'.activations_le_pages c)
  refine ⟨hvisited, ?_, ?_⟩
  · intro c hc0 hno
    rcases (hopen c).2 with heq | heq
    · rw [heq]
      by_cases hlt : c < t.size
      · -- ?_ => an init above the node was none before, as types only become inits
        refine hp.single c hc0 fun a ha hinit => ?_
        have hac : a < t.size := Nat.lt_of_le_of_lt (h.shape.anc_le ha) hlt
        exact hno a ((hgrow.anc_iff h.shape hlt).mpr ha) (hgrow.init a hac hinit)
      · rw [hblank c (Nat.le_of_not_lt hlt)]
        exact Nat.zero_le 1
    · rw [heq]
      exact h'.activations_le_one hc0 hno
  · intro s a hs ha
    have ha0 := h'.target_ne_root hs ha
    obtain ⟨a', ha', -, -, p, hpar, hap⟩ := (h'.shape.sink s hs).target
    obtain rfl := Option.some.inj (ha.symm.trans ha')
    have hslt : s < t'.size := h'.shape.lt_size hpar
    have hps : p < s := h'.shape.parent_lt hpar
    have hle : ∀ y, t'.Anc y p → y < s := fun y hy =>
      Nat.lt_of_le_of_lt (h'.shape.anc_le hy) hps
    rcases (hopen s).2 with heq | heq
    · by_cases hlt : s < t.size
      · -- an old sink that got no new page
        have hold := hp.sink s a ((hgrow.sink_iff s hlt).mp hs) (hgrow.recursion s hlt ▸ ha)
        have hpar' : (t.node s).parent = some p := hgrow.parent s hlt ▸ hpar
        have hplt : p < t.size := Nat.lt_trans hps hlt
        refine ⟨?_, ?_⟩
        · rintro y ⟨q, hq, hyq⟩ hay
          obtain rfl := Option.some.inj (hq.symm.trans hpar)
          have hyt : t.Anc y q := (hgrow.anc_iff h.shape hplt).mp hyq
          have hylt : y < t.size := Nat.lt_of_le_of_lt (h.shape.anc_le hyt) hplt
          rw [heq]
          exact Nat.le_trans
            (hold.1 y ⟨q, hpar', hyt⟩ ((hgrow.anc_iff h.shape hylt).mp hay)) (hopen y).1
        · rw [heq]
          exact Nat.le_trans hold.2 (hopen a).1
      · -- a node that was not there has no page yet
        rw [PathPages, heq, hblank s (Nat.le_of_not_lt hlt)]
        refine ⟨fun y _ _ => Nat.zero_le _, ?_⟩
        exact hvisited a (Nat.lt_trans (hle a hap) hslt) ha0
    · -- the sink got a page now, so its activations say what is above it
      obtain ⟨hpath, htarget⟩ := h'.activations_path hs ha
      rw [PathPages, heq]
      refine ⟨fun y hy hay => Nat.le_trans (hpath y hy hay) (h'.activations_le_pages y), ?_⟩
      by_cases hpos : 0 < activations t'.land t'.c_region_stack s
      · exact Nat.le_trans (htarget hpos) (h'.activations_le_pages a)
      · have hzero : activations t'.land t'.c_region_stack s = 0 := by omega
        rw [hzero]
        exact hvisited a (Nat.lt_trans (hle a hap) hslt) ha0

/-- Closing a context adds no page. -/
theorem closed (hp : t.PagesOk) {stats : RegionStats} {exited : NodeRef} {rest : List NodeRef}
    (hc : Closed t stats exited rest t') : t'.PagesOk := by
  -- a close writes to a page and makes none
  have hpages : ∀ c, t'.pages c = t.pages c := by
    intro c
    have hcn := hc.node c
    unfold pages
    by_cases hmem : c ∈ visits t.land exited
    · rw [if_pos hmem] at hcn
      obtain ⟨n, hn, heq⟩ := hcn
      obtain ⟨-, -, -, -, -, hstats⟩ := ProfileNode.addStats_eq_some hn
      rw [heq, ProfileNode.moveToPrevStats_stats, hstats, List.length_modify]
    · rw [if_neg hmem] at hcn
      rw [hcn]
  -- the links stay
  have hanc : ∀ {a c : NodeRef}, t.Anc a c ↔ t'.Anc a c := by
    intro a c
    have hrel : (fun p d => (t'.node d).parent = some p) = fun p d => (t.node d).parent = some p :=
      funext fun p => funext fun d => by rw [(hc.sameShape d).parent]
    unfold Anc
    rw [hrel]
  refine ⟨?_, ?_, ?_⟩
  · intro c hlt h0
    rw [hpages]
    exact hp.visited c (hc.size ▸ hlt) h0
  · intro c h0 hno
    rw [hpages]
    refine hp.single c h0 fun a ha hinit => ?_
    exact hno a (hanc.mp ha) (by rw [(hc.sameShape a).node_type, hinit])
  · intro s a hs ha
    rw [(hc.sameShape s).node_type] at hs
    rw [(hc.sameShape s).recursion] at ha
    obtain ⟨h₁, h₂⟩ := hp.sink s a hs ha
    rw [PathPages, hpages, hpages]
    refine ⟨?_, h₂⟩
    rintro y ⟨p, hpar, hyp⟩ hay
    rw [(hc.sameShape s).parent] at hpar
    rw [hpages]
    exact h₁ y ⟨p, hpar, hanc.mpr hyp⟩ (hanc.mpr hay)

/-- **Every nested run keeps the page counts related.** -/
theorem run (hp : t.PagesOk) (h : t.Discipline) {calls : List TreeCall}
    (hok : RunOk treeStep TreeCall.Nested t calls) (hrun : Library.run treeStep t calls = some t') :
    t'.PagesOk := by
  induction calls generalizing t with
  | nil =>
      obtain rfl := Option.some.inj hrun
      exact hp
  | cons call calls ih =>
      obtain ⟨t₁, h₁, h₂⟩ := run_cons_eq_some.mp hrun
      have hok₁ := hok.2 t₁ h₁
      cases call with
      | openCtx sid cid type =>
          obtain ⟨t₂, child, t₃, hf, he, h₃, hd₃⟩ := h.openRegionContext_spec hok.1 cid type
          obtain rfl := Option.some.inj (h₃.symm.trans h₁)
          exact ih (hp.opened h hd₃ hf he) hd₃ hok₁ h₂
      | closeCtx stats =>
          obtain ⟨exited, rest, hstack⟩ := List.exists_cons_of_ne_nil hok.1
          obtain ⟨t₃, h₃, hc, hd₃, -⟩ := h.closeRegionContext_spec stats hstack
          obtain rfl := Option.some.inj (h₃.symm.trans h₁)
          exact ih (hp.closed hc) hd₃ hok₁ h₂

end PagesOk

/-! ## §4. Ids. -/

/-- Ids are given out in allocation order, from 1, and no child is listed twice. -/
structure IdsOk (t : RegionTree) : Prop where
  lastId : t.lastId = t.size
  id : ∀ c, c < t.size → (t.node c).id = c + 1
  children : ∀ p, (t.node p).children.Nodup

namespace IdsOk

theorem init (summarize : Bool) : (initRegionTree summarize).IdsOk := by
  refine ⟨rfl, fun c hc => ?_, fun p => ?_⟩
  · have hc' : c < 1 := hc
    obtain rfl := Nat.lt_one_iff.mp hc'
    rfl
  · have hchild : ((initRegionTree summarize).node p).children = [] := by
      simp only [initRegionTree, Function.update_apply]
      split <;> rfl
    rw [hchild]
    exact List.nodup_nil

/-- Different nodes have different ids. -/
theorem inj (h : t.IdsOk) {c d : NodeRef} (hc : c < t.size) (hd : d < t.size)
    (heq : (t.node c).id = (t.node d).id) : c = d := by
  rw [h.id c hc, h.id d hd] at heq
  exact Nat.succ.inj heq

theorem of_sameShape (h : t.IdsOk) (hsize : t'.size = t.size) (hlast : t'.lastId = t.lastId)
    (hnode : ∀ c, (t.node c).SameShape (t'.node c)) : t'.IdsOk := by
  refine ⟨by rw [hlast, hsize, h.lastId], fun c hc => ?_, fun p => ?_⟩
  · rw [(hnode c).id]
    exact h.id c (hsize ▸ hc)
  · rw [(hnode p).children]
    exact h.children p

/-- Recursion changes no id, -/
theorem handleRecursion (h : t.IdsOk) (r : NodeRef) : (t.handleRecursion r).IdsOk := by
  have hid : ∀ c, ((t.handleRecursion r).node c).id = (t.node c).id := by
    intro c
    unfold RegionTree.handleRecursion
    match t.getAncestorWithSameStaticID r with
    | none => rfl
    | some a =>
        simp only [setNode_node]
        by_cases hcr : c = r <;> by_cases hra : r = a <;> by_cases hca : c = a <;>
          simp_all
  refine ⟨?_, fun c hc => ?_, fun p => ?_⟩
  · rw [handleRecursion_size, ← h.lastId]
    unfold RegionTree.handleRecursion
    split <;> rfl
  · rw [hid]
    exact h.id c (handleRecursion_size (t := t) r ▸ hc)
  · rw [(handleRecursion_kept (t := t) r p).2.2.1]
    exact h.children p

/-- and a new child gets the next one. -/
theorem findOrCreateChild (h : t.IdsOk) (hd : t.Discipline) (sid : SID) (cid : CID)
    (type : RegionType) : (t.findOrCreateChild sid cid type).1.IdsOk := by
  unfold RegionTree.findOrCreateChild
  match t.getChild t.curr_region_node sid cid with
  | some child => exact h
  | none =>
      have hadd : (t.addNewChild t.curr_region_node sid cid type).IdsOk := by
        refine ⟨congrArg (· + 1) h.lastId, fun c hc => ?_, fun p => ?_⟩
        · rw [addNewChild_node hd.curr_lt_size]
          by_cases hcs : c = t.size
          · rw [if_pos hcs, hcs, ← h.lastId]
            rfl
          · have hlt := Nat.lt_of_le_of_ne (Nat.le_of_lt_succ hc) hcs
            rw [if_neg hcs]
            by_cases hcc : c = t.curr_region_node
            · rw [if_pos hcc, hcc]
              exact h.id _ hd.curr_lt_size
            · rw [if_neg hcc]
              exact h.id c hlt
        · rw [addNewChild_node hd.curr_lt_size]
          by_cases hps : p = t.size
          · rw [if_pos hps]
            exact List.nodup_nil
          · rw [if_neg hps]
            by_cases hpc : p = t.curr_region_node
            · -- the new child is not among the old ones
              rw [if_pos hpc]
              show ((t.node t.curr_region_node).children ++ [t.size]).Nodup
              refine List.nodup_append.mpr ⟨h.children _, by simp, ?_⟩
              rintro c hc d hd' rfl
              obtain rfl := List.mem_singleton.mp hd'
              exact Nat.lt_irrefl _ (hd.shape.lt_size ((hd.shape.mem_children _ _).mp hc))
            · rw [if_neg hpc]
              exact h.children p
      show (if t.summarize then _ else _ : RegionTree).IdsOk
      by_cases hsum : t.summarize = true
      · rw [if_pos hsum]
        exact hadd.handleRecursion _
      · rw [if_neg hsum]
        exact hadd

/-- Ids stay different along a run. -/
theorem run (hi : t.IdsOk) (h : t.Discipline) {calls : List TreeCall}
    (hok : RunOk treeStep TreeCall.Nested t calls) (hrun : Library.run treeStep t calls = some t') :
    t'.IdsOk := by
  induction calls generalizing t with
  | nil =>
      obtain rfl := Option.some.inj hrun
      exact hi
  | cons call calls ih =>
      obtain ⟨t₁, h₁, h₂⟩ := run_cons_eq_some.mp hrun
      have hok₁ := hok.2 t₁ h₁
      cases call with
      | openCtx sid cid type =>
          have hf := findOrCreateChild_spec h.shape h.curr_lt_size h.curr_not_sink sid cid type
          obtain ⟨t₃, h₃, he⟩ := enterChild_spec hf.shape (t.findOrCreateChild sid cid type).2
          obtain rfl := Option.some.inj (h₃.symm.trans h₁)
          obtain ⟨-, -, t₄, -, -, h₄, hd₄⟩ := h.openRegionContext_spec hok.1 cid type
          obtain rfl := Option.some.inj (h₄.symm.trans h₁)
          exact ih ((hi.findOrCreateChild h sid cid type).of_sameShape he.size he.lastId
            he.sameShape) hd₄ hok₁ h₂
      | closeCtx stats =>
          obtain ⟨exited, rest, hstack⟩ := List.exists_cons_of_ne_nil hok.1
          obtain ⟨t₃, h₃, hc, hd₃, -⟩ := h.closeRegionContext_spec stats hstack
          obtain rfl := Option.some.inj (h₃.symm.trans h₁)
          exact ih (hi.of_sameShape hc.size hc.lastId hc.sameShape) hd₃ hok₁ h₂

end IdsOk

end RegionTree

end Kremlin.Runtime
