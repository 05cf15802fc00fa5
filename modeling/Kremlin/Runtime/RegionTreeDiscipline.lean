/-
  Kremlin.Runtime.RegionTreeDiscipline — the invariant of opening and closing.

  The stack of entered children determines everything that moves
  (`ContextOk`): the current node is the position of the stack, and the page
  index of a node is one less than the number of its activations on the stack.
  So two states with the same stack have the same current node and the same
  indices (`ContextOk.restored`), however much the tree has grown in between.

  `ContextOk` needs nothing of the static ids.  When none is 0, the static id of
  the root, the root is no recursion target either (`Discipline`).
-/
import Kremlin.Runtime.RegionTreeStep
import Mathlib.Data.List.Nodup

namespace Kremlin.Runtime

open Kremlin.Library

namespace RegionTree

/-! ## §1. The invariant. -/

/-- What holds of the region tree between two calls. -/
structure ContextOk (t : RegionTree) : Prop where
  shape : t.TreeShape
  chain : Chain shape.forest 0 t.land t.c_region_stack
  curr : t.curr_region_node = pos 0 t.land t.c_region_stack
  index : ∀ c, (t.node c).curr_stat_index = (activations t.land t.c_region_stack c : ℤ) - 1
  page : ∀ c, (t.node c).curr_stat_index < (t.node c).stats.length
  instances : ∀ c, (t.node c).num_instances = (t.node c).pageInstances

variable {t t' : RegionTree}

namespace ContextOk

/-- No context is open. -/
theorem init (summarize : Bool) : (initRegionTree summarize).ContextOk := by
  have hnode : ∀ c, (initRegionTree summarize).node c
      = if c = 0 then .new 0 0 .regionFunc 1 else blankNode := by
    intro c
    simp only [initRegionTree, Function.update_apply]
  refine ⟨TreeShape.init summarize, trivial, rfl, ?_, ?_, ?_⟩ <;> intro c <;> rw [hnode] <;>
    split <;> first | rfl | decide

/-- What is on the stack is in the tree, -/
theorem mem_lt_size (h : t.ContextOk) {e : NodeRef} (he : e ∈ t.c_region_stack) :
    e < t.size := by
  obtain ⟨p, hp⟩ := h.chain.exists_parent e he
  exact h.shape.lt_size hp

/-- and so is the current node. -/
theorem curr_lt_size (h : t.ContextOk) : t.curr_region_node < t.size := by
  rw [h.curr]
  match hstack : t.c_region_stack with
  | [] => exact h.shape.size_pos
  | e :: rest => exact h.shape.land_lt_size (h.mem_lt_size (hstack ▸ List.mem_cons_self))

/-- **The current node is never a sink.** -/
theorem curr_not_sink (h : t.ContextOk) :
    (t.node t.curr_region_node).node_type ≠ .rSink := by
  rw [h.curr]
  match t.c_region_stack with
  | [] => exact h.shape.root_type
  | e :: rest => exact h.shape.land_not_sink e

/-- **The stack determines the current node and every page index.** -/
theorem restored (h : t.ContextOk) (h' : t'.ContextOk) (hgrow : Grows t t')
    (hstack : t'.c_region_stack = t.c_region_stack) :
    t'.curr_region_node = t.curr_region_node ∧
      ∀ c, (t'.node c).curr_stat_index = (t.node c).curr_stat_index := by
  have hland : ∀ e ∈ t.c_region_stack, t'.land e = t.land e :=
    fun e he => hgrow.land_eq (h.mem_lt_size he)
  refine ⟨?_, fun c => ?_⟩
  · rw [h'.curr, h.curr, hstack, pos_congr hland]
  · rw [h'.index, h.index, hstack, activations_congr hland]

/-! ## §2. Opening keeps it. -/

/-- A found or created child leaves the context as it is. -/
theorem found (h : t.ContextOk) {sid : SID} {child : NodeRef} (hf : Found t sid t' child) :
    t'.ContextOk := by
  have hland : ∀ e ∈ t'.c_region_stack, t'.land e = t.land e := by
    rw [hf.stack]
    exact fun e he => hf.grows.land_eq (h.mem_lt_size he)
  have hparent : ∀ e ∈ t'.c_region_stack, hf.shape.forest.parent e = h.shape.forest.parent e := by
    rw [hf.stack]
    exact fun e he => hf.grows.parent e (h.mem_lt_size he)
  refine ⟨hf.shape, ?_, ?_, ?_, ?_, ?_⟩
  · exact chain_congr hland hparent (hf.stack ▸ h.chain)
  · rw [hf.curr, pos_congr hland, hf.stack, h.curr]
  · intro c
    rw [(hf.stats c).curr_stat_index, activations_congr hland, hf.stack, h.index]
  · intro c
    rw [(hf.stats c).curr_stat_index, (hf.stats c).stats]
    exact h.page c
  · intro c
    unfold ProfileNode.pageInstances
    rw [(hf.stats c).num_instances, (hf.stats c).stats]
    exact h.instances c

/-- Entering a node moves its page on, and that of the target it lands on. -/
theorem index_entered {child : NodeRef} (he : Entered t child t') (c : NodeRef) :
    (t'.node c).curr_stat_index
      = (t.node c).curr_stat_index + ((visits t.land child).count c : ℤ) := by
  rw [he.node]
  by_cases hc : c ∈ visits t.land child
  · have hone : (visits t.land child).count c = 1 := List.count_eq_one_of_mem (visits_nodup _) hc
    rw [if_pos hc, hone, ProfileNode.moveToNextStats_curr_stat_index]
    rfl
  · rw [if_neg hc, List.count_eq_zero_of_not_mem hc]
    omega

/-- Entering a child of the current node. -/
theorem entered (h : t.ContextOk) {child : NodeRef} (he : Entered t child t')
    (hp : (t.node child).parent = some t.curr_region_node) : t'.ContextOk := by
  have hlt := h.shape.lt_size hp
  have hshape := he.shape h.shape hlt
  -- the move changes no links, so the stack means what it meant
  have hland : ∀ e, t'.land e = t.land e := by
    intro e
    unfold land
    rw [(he.sameShape e).node_type, (he.sameShape e).recursion]
  have hparent : ∀ e, hshape.forest.parent e = h.shape.forest.parent e :=
    fun e => (he.sameShape e).parent
  refine ⟨hshape, ?_, ?_, ?_, ?_, ?_⟩
  · rw [he.stack]
    refine ⟨?_, chain_congr (fun e _ => hland e) (fun e _ => hparent e) h.chain⟩
    rw [hparent, pos_congr (fun e _ => hland e), ← h.curr]
    exact hp
  · rw [he.curr, he.stack, pos_cons, hland]
  · intro c
    rw [index_entered he, he.stack, activations_congr (fun e _ => hland e), activations_cons,
      h.index]
    push_cast
    omega
  · intro c
    rw [he.node]
    split
    · have hlen := ProfileNode.moveToNextStats_length (h.page c)
      rw [ProfileNode.moveToNextStats_curr_stat_index, hlen]
      omega
    · exact h.page c
  · intro c
    rw [he.node]
    split
    · rw [ProfileNode.moveToNextStats_num_instances, ProfileNode.pageInstances_moveToNextStats]
      exact h.instances c
    · exact h.instances c

/-- **Opening succeeds and keeps the context.** -/
theorem openRegionContext_spec (h : t.ContextOk) (sid : SID) (cid : CID) (type : RegionType) :
    ∃ t₁ child t', Found t sid t₁ child ∧ Entered t₁ child t' ∧
      openRegionContext sid cid type t = some t' ∧ t'.ContextOk := by
  have hf := findOrCreateChild_spec h.shape h.curr_lt_size h.curr_not_sink sid cid type
  obtain ⟨t', ht', he⟩ := enterChild_spec hf.shape (t.findOrCreateChild sid cid type).2
  refine ⟨_, _, t', hf, he, ht', (h.found hf).entered he ?_⟩
  rw [hf.curr]
  exact hf.parent

/-! ## §3. Closing keeps it. -/

/-- A node that is entered has a page. -/
theorem hasPage (h : t.ContextOk) {exited : NodeRef} {rest : List NodeRef}
    (hstack : t.c_region_stack = exited :: rest) :
    ∀ c ∈ visits t.land exited, HasPage (t.node c) := by
  intro c hc
  refine ⟨?_, h.page c⟩
  have hpos : 0 < (visits t.land exited).count c := List.count_pos_iff.mpr hc
  rw [h.index, hstack, activations_cons]
  omega

/-- The nodes a close adds its stats to are those its open visited. -/
theorem closeTargets_count (h : t.ContextOk) {exited : NodeRef} {rest : List NodeRef}
    (hstack : t.c_region_stack = exited :: rest) (c : NodeRef) :
    (closeTargets t).count c = (visits t.land exited).count c := by
  have hcurr : t.curr_region_node = t.land exited := by rw [h.curr, hstack, pos_cons]
  unfold closeTargets visits
  simp only [hstack, hcurr]
  by_cases hs : (t.node exited).node_type = .rSink
  · have hne : t.land exited ≠ exited := fun heq => h.shape.land_not_sink exited (heq.symm ▸ hs)
    rw [if_pos hs, if_neg hne]
  · rw [if_neg hs, if_pos (TreeShape.land_of_not_sink hs), TreeShape.land_of_not_sink hs]

/-- Closing the innermost context. -/
theorem closed (h : t.ContextOk) {stats : RegionStats} {exited : NodeRef} {rest : List NodeRef}
    (hstack : t.c_region_stack = exited :: rest) (hc : Closed t stats exited rest t') :
    t'.ContextOk ∧
      ∀ c, (t'.node c).num_instances = (t.node c).num_instances + (closeTargets t).count c := by
  have hlt := h.mem_lt_size (hstack ▸ List.mem_cons_self : exited ∈ t.c_region_stack)
  have hshape := hc.shape h.shape hlt
  have hland : ∀ e, t'.land e = t.land e := by
    intro e
    unfold land
    rw [(hc.sameShape e).node_type, (hc.sameShape e).recursion]
  have hparent : ∀ e, hshape.forest.parent e = h.shape.forest.parent e :=
    fun e => (hc.sameShape e).parent
  have hchain : (t.node exited).parent = some (pos 0 t.land rest) ∧
      Chain h.shape.forest 0 t.land rest := by
    have := h.chain
    rw [hstack] at this
    exact this
  -- node by node: the visited ones move back one page and count one instance
  have hnode : ∀ c,
      (t'.node c).curr_stat_index
        = (t.node c).curr_stat_index - ((visits t.land exited).count c : ℤ) ∧
      (t'.node c).stats.length = (t.node c).stats.length ∧
      (t'.node c).num_instances = (t.node c).num_instances + (visits t.land exited).count c ∧
      (t'.node c).pageInstances = (t.node c).pageInstances + (visits t.land exited).count c := by
    intro c
    have hcn := hc.node c
    by_cases hmem : c ∈ visits t.land exited
    · have hone : (visits t.land exited).count c = 1 :=
        List.count_eq_one_of_mem (visits_nodup _) hmem
      rw [if_pos hmem] at hcn
      obtain ⟨n, hn, heq⟩ := hcn
      obtain ⟨-, -, -, hidx, hnum, hstats⟩ := ProfileNode.addStats_eq_some hn
      rw [heq, hone, ProfileNode.moveToPrevStats_curr_stat_index, hidx,
        ProfileNode.moveToPrevStats_stats, hstats, List.length_modify,
        ProfileNode.moveToPrevStats_num_instances, hnum]
      exact ⟨rfl, rfl, rfl, (rfl : _ = n.pageInstances).trans (ProfileNode.pageInstances_addStats hn)⟩
    · rw [if_neg hmem] at hcn
      rw [hcn, List.count_eq_zero_of_not_mem hmem]
      simp
  refine ⟨⟨hshape, ?_, ?_, ?_, ?_, ?_⟩, ?_⟩
  · rw [hc.stack]
    exact chain_congr (fun e _ => hland e) (fun e _ => hparent e) hchain.2
  · have hcurr := hc.curr
    rw [hchain.1, Option.some.injEq] at hcurr
    rw [hc.stack, pos_congr (fun e _ => hland e), hcurr]
  · intro c
    rw [(hnode c).1, hc.stack, activations_congr (fun e _ => hland e), h.index, hstack,
      activations_cons]
    push_cast
    omega
  · intro c
    rw [(hnode c).1, (hnode c).2.1]
    have := h.page c
    omega
  · intro c
    rw [(hnode c).2.2.1, (hnode c).2.2.2, h.instances]
  · intro c
    rw [h.closeTargets_count hstack, (hnode c).2.2.1]

/-- **Closing an open context succeeds and keeps the context.** -/
theorem closeRegionContext_spec (h : t.ContextOk) (stats : RegionStats) {exited : NodeRef}
    {rest : List NodeRef} (hstack : t.c_region_stack = exited :: rest) :
    ∃ t', closeRegionContext stats t = some t' ∧ Closed t stats exited rest t' ∧ t'.ContextOk ∧
      ∀ c, (t'.node c).num_instances = (t.node c).num_instances + (closeTargets t).count c := by
  have hcurr : t.curr_region_node = t.land exited := by rw [h.curr, hstack, pos_cons]
  have hparent := h.chain.exists_parent exited (hstack ▸ List.mem_cons_self)
  obtain ⟨t', ht', hc⟩ := RegionTree.closeRegionContext_spec h.shape stats hstack hcurr
    hparent (h.hasPage hstack)
  exact ⟨t', ht', hc, h.closed hstack hc⟩

end ContextOk

/-- The root is nobody's recursion target, and no other node has its static
id. -/
structure RootPlain (t : RegionTree) : Prop where
  root_normal : (t.node 0).node_type ≠ .rInit
  sid_ne : ∀ c, c < t.size → c ≠ 0 → (t.node c).static_id ≠ 0

/-- What holds of the region tree between two calls of a run whose static ids
are not 0. -/
structure Discipline (t : RegionTree) : Prop extends ContextOk t where
  plain : t.RootPlain

namespace RootPlain

/-- Finding or creating a child leaves the root plain, -/
theorem found {sid : SID} {child : NodeRef} (h : t.RootPlain) (hsid : sid ≠ 0)
    (hf : Found t sid t' child) : t'.RootPlain := by
  constructor
  · intro hinit
    rcases hf.init 0 hinit with h0 | h0
    · exact h.root_normal h0
    · rw [hf.shape.root_sid] at h0
      exact hsid h0.symm
  · intro c hc hc0
    by_cases hold : c < t.size
    · rw [hf.grows.static_id c hold]
      exact h.sid_ne c hold hc0
    · obtain rfl := hf.fresh c (Nat.le_of_not_lt hold) hc
      rw [hf.static_id]
      exact hsid

/-- and so does what keeps the shape. -/
theorem of_sameShape (h : t.RootPlain) (hsize : t'.size = t.size)
    (hnode : ∀ c, (t.node c).SameShape (t'.node c)) : t'.RootPlain := by
  constructor
  · rw [(hnode 0).node_type]
    exact h.root_normal
  · intro c hc hc0
    rw [(hnode c).static_id]
    exact h.sid_ne c (hsize ▸ hc) hc0

end RootPlain

namespace Discipline

theorem init (summarize : Bool) : (initRegionTree summarize).Discipline where
  toContextOk := .init summarize
  plain := by
    constructor
    · intro h
      cases h
    · intro c hc hc0
      have hc : c < 1 := hc
      omega

/-- Opening a static id that is not 0. -/
theorem openRegionContext_spec (h : t.Discipline) {sid : SID} (hsid : sid ≠ 0) (cid : CID)
    (type : RegionType) :
    ∃ t₁ child t', Found t sid t₁ child ∧ Entered t₁ child t' ∧
      openRegionContext sid cid type t = some t' ∧ t'.Discipline := by
  obtain ⟨t₁, child, t', hf, he, ht', hc⟩ := h.toContextOk.openRegionContext_spec sid cid type
  exact ⟨t₁, child, t', hf, he, ht', hc,
    (h.plain.found hsid hf).of_sameShape he.size he.sameShape⟩

/-- Closing goes back to where the context was opened and counts an instance. -/
theorem closeRegionContext_spec (h : t.Discipline) (stats : RegionStats) {exited : NodeRef}
    {rest : List NodeRef} (hstack : t.c_region_stack = exited :: rest) :
    ∃ t', closeRegionContext stats t = some t' ∧ Closed t stats exited rest t' ∧ t'.Discipline ∧
      ∀ c, (t'.node c).num_instances = (t.node c).num_instances + (closeTargets t).count c := by
  obtain ⟨t', ht', hc, hctx, hnum⟩ := h.toContextOk.closeRegionContext_spec stats hstack
  exact ⟨t', ht', hc, ⟨hctx, h.plain.of_sameShape hc.size hc.sameShape⟩, hnum⟩

end Discipline

/-! ## §4. Runs. -/

/-- One nested call: it succeeds, keeps the discipline, grows the tree and
counts its instances. -/
theorem treeStep_spec (h : t.Discipline) {call : TreeCall} (hok : call.Nested t) :
    ∃ t', treeStep t call = some t' ∧ t'.Discipline ∧ Grows t t' ∧
      ∀ c, (t'.node c).num_instances = (t.node c).num_instances + closesOn c t [call] := by
  cases call with
  | openCtx sid cid type =>
      obtain ⟨t₁, child, t', hf, he, ht', hd⟩ := h.openRegionContext_spec hok cid type
      refine ⟨t', ht', hd, hf.grows.trans he.grows, fun c => ?_⟩
      have hnum : (t'.node c).num_instances = (t₁.node c).num_instances := by
        rw [he.node]
        split <;> rfl
      have hstep : treeStep t (.openCtx sid cid type) = some t' := ht'
      simp only [closesOn, hstep, Option.map_some, Option.getD_some, Nat.add_zero]
      rw [hnum, (hf.stats c).num_instances]
  | closeCtx stats =>
      obtain ⟨exited, rest, hstack⟩ := List.exists_cons_of_ne_nil hok
      obtain ⟨t', ht', hc, hd, hnum⟩ := h.closeRegionContext_spec stats hstack
      refine ⟨t', ht', hd, hc.grows, fun c => ?_⟩
      have hstep : treeStep t (.closeCtx stats) = some t' := ht'
      simp only [closesOn, hstep, Option.map_some, Option.getD_some, Nat.add_zero]
      exact hnum c

/-- The closes of a longer sequence. -/
theorem closesOn_cons {call : TreeCall} (calls : List TreeCall) (hstep : treeStep t call = some t')
    (c : NodeRef) : closesOn c t (call :: calls) = closesOn c t [call] + closesOn c t' calls := by
  simp only [closesOn, hstep, Option.map_some, Option.getD_some, Nat.add_zero]

/-- **Every nested run succeeds and keeps the discipline.** -/
theorem run_spec (h : t.Discipline) {calls : List TreeCall}
    (hok : RunOk treeStep TreeCall.Nested t calls) :
    ∃ t', run treeStep t calls = some t' ∧ t'.Discipline ∧ Grows t t' ∧
      ∀ c, (t'.node c).num_instances = (t.node c).num_instances + closesOn c t calls := by
  induction calls generalizing t with
  | nil => exact ⟨t, rfl, h, Grows.refl t, fun c => rfl⟩
  | cons call calls ih =>
      obtain ⟨t₁, h₁, hd, hg, hn⟩ := treeStep_spec h hok.1
      obtain ⟨t', h', hd', hg', hn'⟩ := ih hd (hok.2 t₁ h₁)
      refine ⟨t', run_cons_eq_some.mpr ⟨t₁, h₁, h'⟩, hd', hg.trans hg', fun c => ?_⟩
      rw [hn', closesOn_cons calls h₁, hn, Nat.add_assoc]

/-- A balanced run gives the stack back. -/
theorem run_balanced {inner : List TreeCall} (hb : BalancedCalls inner) :
    ∀ {t : RegionTree} (rest : List TreeCall), t.Discipline →
      RunOk treeStep TreeCall.Nested t (inner ++ rest) →
      ∃ t', run treeStep t inner = some t' ∧ t'.Discipline ∧ Grows t t' ∧
        t'.c_region_stack = t.c_region_stack := by
  induction hb with
  | nil => exact fun {t} _ h _ => ⟨t, rfl, h, Grows.refl t, rfl⟩
  | @block sid cid type stats inner rest _ _ ihi ihr =>
      intro t post h hok
      rw [List.append_assoc, List.cons_append, List.cons_append] at hok
      obtain ⟨t₁, child, t₂, hf, he, h₂, hd₂⟩ := h.openRegionContext_spec hok.1 cid type
      have hok₂ := hok.2 t₂ h₂
      obtain ⟨t₃, h₃, hd₃, hg₃, hs₃⟩ := ihi _ hd₂ hok₂
      have hok₃ := runOk_append hok₂ h₃
      have hstack : t₃.c_region_stack = child :: t.c_region_stack := by
        rw [hs₃, he.stack, hf.stack]
      obtain ⟨t₄, h₄, hc, hd₄, -⟩ := hd₃.closeRegionContext_spec stats hstack
      obtain ⟨t₅, h₅, hd₅, hg₅, hs₅⟩ := ihr _ hd₄ (hok₃.2 t₄ h₄)
      refine ⟨t₅, ?_, hd₅, ?_, by rw [hs₅, hc.stack]⟩
      · rw [List.cons_append]
        refine run_cons_eq_some.mpr ⟨t₂, h₂, run_append_eq_some.mpr ⟨t₃, h₃, ?_⟩⟩
        exact run_cons_eq_some.mpr ⟨t₄, h₄, h₅⟩
      · exact (hf.grows.trans he.grows).trans (hg₃.trans (hc.grows.trans hg₅))

/-! ## §5. Lookups. -/

/-- Every region has the type its static id stands for, and a lookup matches at
most one child. -/
structure LookupOk (typeOf : SID → RegionType) (t : RegionTree) : Prop where
  type_eq : ∀ c, c < t.size → c ≠ 0 → (t.node c).region_type = typeOf (t.node c).static_id
  unique : ∀ p sid cid,
    (t.node p).children.countP (fun c => (t.node c).isMatch sid cid) ≤ 1

/-- A match is a matter of the ids and the type. -/
theorem isMatch_congr {n n' : ProfileNode} (hs : n'.static_id = n.static_id)
    (ht : n'.region_type = n.region_type) (hc : n'.callsite_id = n.callsite_id)
    (sid : SID) (cid : CID) : n'.isMatch sid cid = n.isMatch sid cid := by
  unfold ProfileNode.isMatch
  rw [hs, ht, hc]

/-- Functions match by call site, too. -/
theorem isMatch_iff {n : ProfileNode} {sid : SID} {cid : CID} :
    n.isMatch sid cid = true ↔
      n.static_id = sid ∧ (n.region_type = .regionFunc → n.callsite_id = cid) := by
  unfold ProfileNode.isMatch
  by_cases ht : n.region_type = .regionFunc <;> simp [ht]

namespace LookupOk

variable {typeOf : SID → RegionType}

theorem init (summarize : Bool) : LookupOk typeOf (initRegionTree summarize) := by
  refine ⟨?_, ?_⟩
  · intro c hc h0
    have hc' : c < 1 := hc
    exact absurd (Nat.lt_one_iff.mp hc') h0
  · intro p sid cid
    have hchild : ((initRegionTree summarize).node p).children = [] := by
      simp only [initRegionTree, Function.update_apply]
      split <;> rfl
    rw [hchild]
    exact Nat.zero_le 1

/-- Lookups depend on ids, types and children only. -/
theorem congr (h : LookupOk typeOf t) (hsize : t'.size = t.size)
    (hs : ∀ c, (t'.node c).static_id = (t.node c).static_id)
    (ht : ∀ c, (t'.node c).region_type = (t.node c).region_type)
    (hc : ∀ c, (t'.node c).callsite_id = (t.node c).callsite_id)
    (hchild : ∀ c, (t'.node c).children = (t.node c).children) : LookupOk typeOf t' := by
  refine ⟨?_, ?_⟩
  · intro c hlt h0
    rw [hs, ht]
    exact h.type_eq c (hsize ▸ hlt) h0
  · intro p sid cid
    have hm : (fun c => (t'.node c).isMatch sid cid) = fun c => (t.node c).isMatch sid cid :=
      funext fun c => isMatch_congr (hs c) (ht c) (hc c) sid cid
    rw [hchild, hm]
    exact h.unique p sid cid

theorem of_sameShape (h : LookupOk typeOf t) (hsize : t'.size = t.size)
    (hnode : ∀ c, (t.node c).SameShape (t'.node c)) : LookupOk typeOf t' :=
  h.congr hsize (fun c => (hnode c).static_id) (fun c => (hnode c).region_type)
    (fun c => (hnode c).callsite_id) (fun c => (hnode c).children)

/-- A child that the lookup missed is the only one its own lookups match: any
other match would have the same static id, hence the same type, and would have
answered the lookup that missed. -/
theorem addNewChild (h : LookupOk typeOf t) (ht : t.TreeShape) {p : NodeRef} (hp : p < t.size)
    {sid : SID} {cid : CID} (hmiss : t.getChild p sid cid = none) :
    LookupOk typeOf (t.addNewChild p sid cid (typeOf sid)) := by
  have hnode := addNewChild_node hp sid cid (typeOf sid)
  -- old nodes keep everything but their children
  have hkept : ∀ c, c ≠ t.size → ∀ {β : Type} (f : ProfileNode → β),
      (∀ n l, f { n with children := l } = f n) →
      f ((t.addNewChild p sid cid (typeOf sid)).node c) = f (t.node c) := by
    intro c hc β f hf
    rw [hnode, if_neg hc]
    by_cases hcp : c = p
    · rw [if_pos hcp, hf, hcp]
    · rw [if_neg hcp]
  have hmatch : ∀ c, c ≠ t.size → ∀ sid' cid',
      ((t.addNewChild p sid cid (typeOf sid)).node c).isMatch sid' cid'
        = (t.node c).isMatch sid' cid' := by
    intro c hc sid' cid'
    exact hkept c hc (fun n => n.isMatch sid' cid') fun _ _ => rfl
  have hchild_lt : ∀ q, ∀ c ∈ (t.node q).children, c ≠ t.size := by
    intro q c hc
    exact Nat.ne_of_lt (ht.lt_size ((ht.mem_children q c).mp hc))
  have hcount : ∀ q sid' cid', (t.node q).children.countP
      (fun c => ((t.addNewChild p sid cid (typeOf sid)).node c).isMatch sid' cid')
        = (t.node q).children.countP fun c => (t.node c).isMatch sid' cid' := by
    intro q sid' cid'
    refine List.countP_congr fun c hc => ?_
    rw [hmatch c (hchild_lt q c hc)]
  refine ⟨?_, ?_⟩
  · intro c hc h0
    by_cases hcs : c = t.size
    · rw [hnode, if_pos hcs]
      rfl
    · rw [hkept c hcs (·.region_type) fun _ _ => rfl, hkept c hcs (·.static_id) fun _ _ => rfl]
      exact h.type_eq c (Nat.lt_of_le_of_ne (Nat.le_of_lt_succ hc) hcs) h0
  · intro q sid' cid'
    by_cases hq : q = p
    · have hchildren : ((t.addNewChild p sid cid (typeOf sid)).node q).children
          = (t.node p).children ++ [t.size] := by
        rw [hnode, if_neg (hq ▸ Nat.ne_of_lt hp), if_pos hq]
      rw [hchildren, List.countP_append, hcount, List.countP_singleton, hnode, if_pos rfl]
      by_cases hnew : ({ ProfileNode.new sid cid (typeOf sid) (t.lastId + 1) with
          parent := some p } : ProfileNode).isMatch sid' cid' = true
      · obtain ⟨hs, hc⟩ := isMatch_iff.mp hnew
        have hs : sid = sid' := hs
        have hc : typeOf sid = .regionFunc → cid = cid' := hc
        -- the lookup found none, so no old child matches
        have hzero : (t.node p).children.countP (fun c => (t.node c).isMatch sid' cid') = 0 := by
          rw [List.countP_eq_zero]
          intro c hmem hm
          obtain ⟨hcs, hcc⟩ := isMatch_iff.mp hm
          have hpar := (ht.mem_children p c).mp hmem
          have hc0 : c ≠ 0 := by
            rintro rfl
            rw [ht.root_parent] at hpar
            cases hpar
          have htype := h.type_eq c (ht.lt_size hpar) hc0
          have hfind := List.find?_eq_none.mp hmiss c hmem
          refine hfind (isMatch_iff.mpr ⟨hcs.trans hs.symm, fun hfunc => ?_⟩)
          rw [hcc hfunc, hc]
          rw [hs, ← hcs, ← htype, hfunc]
        rw [hzero]
        split <;> simp
      · rw [if_neg hnew]
        exact h.unique p sid' cid'
    · by_cases hqs : q = t.size
      · have hchildren : ((t.addNewChild p sid cid (typeOf sid)).node q).children = [] := by
          rw [hnode, if_pos hqs]
          rfl
        rw [hchildren]
        exact Nat.zero_le 1
      · have hchildren : ((t.addNewChild p sid cid (typeOf sid)).node q).children
            = (t.node q).children := by
          rw [hnode, if_neg hqs, if_neg hq]
        rw [hchildren, hcount]
        exact h.unique q sid' cid'

/-- A child that is not found is the only one of its kind afterwards. -/
theorem findOrCreateChild (h : LookupOk typeOf t) (hd : t.Discipline) (sid : SID) (cid : CID) :
    LookupOk typeOf (t.findOrCreateChild sid cid (typeOf sid)).1 := by
  unfold RegionTree.findOrCreateChild
  match hget : t.getChild t.curr_region_node sid cid with
  | some child => exact h
  | none =>
      have hadd := h.addNewChild hd.shape hd.curr_lt_size hget
      show LookupOk typeOf (if t.summarize then _ else _)
      by_cases hsum : t.summarize = true
      · rw [if_pos hsum]
        have hkept := handleRecursion_kept
          (t := t.addNewChild t.curr_region_node sid cid (typeOf sid)) t.size
        exact hadd.congr (handleRecursion_size _) (fun c => (hkept c).1)
          (fun c => (hkept c).2.2.2.1) (fun c => (hkept c).2.2.2.2.1) (fun c => (hkept c).2.2.1)
      · rw [if_neg hsum]
        exact hadd

/-- Runs that open each static id with one type keep lookups unambiguous. -/
theorem run (h : LookupOk typeOf t) (hd : t.Discipline) {calls : List TreeCall}
    (hok : RunOk treeStep TreeCall.Nested t calls)
    (htypes : ∀ sid cid type, .openCtx sid cid type ∈ calls → type = typeOf sid)
    (hrun : Library.run treeStep t calls = some t') : LookupOk typeOf t' := by
  induction calls generalizing t with
  | nil =>
      obtain rfl := Option.some.inj hrun
      exact h
  | cons call calls ih =>
      obtain ⟨t₁, h₁, h₂⟩ := run_cons_eq_some.mp hrun
      obtain ⟨t₁', h₁', hd₁, -, -⟩ := treeStep_spec hd hok.1
      obtain rfl := Option.some.inj (h₁.symm.trans h₁')
      refine ih ?_ hd₁ (hok.2 t₁ h₁) (fun sid cid type hm =>
        htypes sid cid type (List.mem_cons_of_mem _ hm)) h₂
      cases call with
      | openCtx sid cid type =>
          obtain rfl := htypes sid cid type List.mem_cons_self
          have hf := findOrCreateChild_spec hd.shape hd.curr_lt_size hd.curr_not_sink sid cid
            (typeOf sid)
          obtain ⟨t₂, h₂', he⟩ := enterChild_spec hf.shape (t.findOrCreateChild sid cid (typeOf sid)).2
          obtain rfl := Option.some.inj (h₂'.symm.trans h₁)
          exact (h.findOrCreateChild hd sid cid).of_sameShape he.size he.sameShape
      | closeCtx stats =>
          obtain ⟨exited, rest, hstack⟩ := List.exists_cons_of_ne_nil hok.1
          obtain ⟨t₂, h₂', hc, -, -⟩ := hd.closeRegionContext_spec stats hstack
          obtain rfl := Option.some.inj (h₂'.symm.trans h₁)
          exact h.of_sameShape hc.size hc.sameShape

end LookupOk

/-! ## §6. The discipline of a run. -/

/-- **Open/close discipline.**  Every nested run of opens and closes succeeds.
In the state it reaches the current node is no sink and every sink is as
`SinkOk` says; a context that was opened and closed again left the current node
and all page indices as they were; once every context is closed, the instances
of a node are those of its pages and those of the closes that counted on it;
and when each static id is opened with one region type, no lookup matches two
children of a node. -/
theorem open_close_discipline (summarize : Bool) (calls : List TreeCall)
    (hok : RunOk treeStep TreeCall.Nested (initRegionTree summarize) calls) :
    ∃ t, run treeStep (initRegionTree summarize) calls = some t ∧
      (t.node t.curr_region_node).node_type ≠ .rSink ∧
      (∀ s, (t.node s).node_type = .rSink → t.SinkOk s) ∧
      (∀ pre sid cid type inner stats post,
        calls = pre ++ .openCtx sid cid type :: inner ++ .closeCtx stats :: post →
        BalancedCalls inner →
        ∃ t₀ t₁, run treeStep (initRegionTree summarize) pre = some t₀ ∧
          run treeStep t₀ (.openCtx sid cid type :: inner ++ [.closeCtx stats]) = some t₁ ∧
          t₁.curr_region_node = t₀.curr_region_node ∧
          ∀ c, (t₁.node c).curr_stat_index = (t₀.node c).curr_stat_index) ∧
      (t.c_region_stack = [] → ∀ c,
        (t.node c).num_instances = (t.node c).pageInstances ∧
          (t.node c).num_instances = closesOn c (initRegionTree summarize) calls) ∧
      ∀ typeOf : SID → RegionType,
        (∀ sid cid type, .openCtx sid cid type ∈ calls → type = typeOf sid) →
        ∀ p sid cid, (t.node p).children.countP (fun c => (t.node c).isMatch sid cid) ≤ 1 := by
  have hinit := Discipline.init summarize
  obtain ⟨t, ht, hd, -, hnum⟩ := run_spec hinit hok
  refine ⟨t, ht, hd.curr_not_sink, hd.shape.sink, ?_, ?_, ?_⟩
  · intro pre sid cid type inner stats post hcalls hb
    rw [hcalls, List.append_assoc] at ht hok
    obtain ⟨t₀, h₀, -⟩ := run_append_eq_some.mp ht
    have hok₀ := runOk_append hok h₀
    obtain ⟨t₀', h₀', hd₀, -, -⟩ := run_spec hinit (runOk_left hok)
    obtain rfl := Option.some.inj (h₀.symm.trans h₀')
    -- a call with what is inside it is balanced
    have hblock : BalancedCalls (.openCtx sid cid type :: inner ++ .closeCtx stats :: []) :=
      .block sid cid type stats hb .nil
    obtain ⟨t₁, h₁, hd₁, hg₁, hs₁⟩ := run_balanced hblock post hd₀
      (by simpa using hok₀)
    obtain ⟨hcurr, hidx⟩ := hd₀.restored hd₁.toContextOk hg₁ hs₁
    exact ⟨t₀, t₁, h₀, h₁, hcurr, hidx⟩
  · intro _ c
    refine ⟨hd.instances c, ?_⟩
    have hzero : ((initRegionTree summarize).node c).num_instances = 0 := by
      simp only [initRegionTree, Function.update_apply]
      split <;> rfl
    rw [hnum c, hzero, Nat.zero_add]
  · intro typeOf htypes
    exact ((LookupOk.init summarize).run hinit hok htypes ht).unique

/-- Three activations of one function: the second is a sink of the first, and
the third lands on it again. -/
theorem open_close_discipline_recursive :
    ∃ t, run treeStep (initRegionTree true)
      [.openCtx 1 0 .regionFunc, .openCtx 1 2 .regionFunc, .openCtx 1 2 .regionFunc] = some t ∧
      (t.node t.curr_region_node).node_type ≠ .rSink :=
  (open_close_discipline true
    [.openCtx 1 0 .regionFunc, .openCtx 1 2 .regionFunc, .openCtx 1 2 .regionFunc]
    (by decide)).imp fun _ h => ⟨h.1, h.2.1⟩

/-- One static id opened as a function and then as a loop: the lookup of the
function's callsite matches both children. -/
theorem lookup_ambiguous :
    ∃ t, RunOk treeStep TreeCall.Nested (initRegionTree true)
        [.openCtx 1 1 .regionFunc, .closeCtx ⟨1, 1, 1, 1, 1, 0⟩,
          .openCtx 1 2 .regionLoop, .closeCtx ⟨1, 1, 2, 1, 1, 0⟩] ∧
      run treeStep (initRegionTree true)
        [.openCtx 1 1 .regionFunc, .closeCtx ⟨1, 1, 1, 1, 1, 0⟩,
          .openCtx 1 2 .regionLoop, .closeCtx ⟨1, 1, 2, 1, 1, 0⟩] = some t ∧
      (t.node 0).children.countP (fun c => (t.node c).isMatch 1 1) = 2 := by
  have hcount : (run treeStep (initRegionTree true)
      [.openCtx 1 1 .regionFunc, .closeCtx ⟨1, 1, 1, 1, 1, 0⟩,
        .openCtx 1 2 .regionLoop, .closeCtx ⟨1, 1, 2, 1, 1, 0⟩]).map
      (fun t => (t.node 0).children.countP fun c => (t.node c).isMatch 1 1) = some 2 := by decide
  obtain ⟨t, ht, hc⟩ := Option.map_eq_some_iff.mp hcount
  exact ⟨t, by decide, ht, hc⟩

end RegionTree

end Kremlin.Runtime
