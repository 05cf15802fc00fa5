/-
  Kremlin.Instrument.PlacementOrder — where `placeInsts` puts the instructions.

  The loop of `placeInsts` takes a node when it has taken all its users, so the
  users are in blocks by then.  What it has placed stays in front of its users:
  later insertions move nothing.

  Main result: `placeInsts_respects`.
-/
import Kremlin.Instrument.Placer
import Kremlin.Instrument.Terminator
import Kremlin.Library.Dominance

namespace Kremlin.Instrument

open Kremlin.Library Relation

/-! ## §1. Dominance. -/

namespace Cfg

/-- Every path from the entry block to `b` goes through `a`. -/
def Dominates {B : Type} (cfg : Cfg B) (a b : B) : Prop :=
  Library.Dominates cfg.successors cfg.entryBlock a b

/-- The block can be reached from the entry block. -/
def Reachable {B : Type} (cfg : Cfg B) (b : B) : Prop :=
  b ∈ cfg.blocks ∧ ReflTransGen (Next cfg.successors) cfg.entryBlock b

end Cfg

variable {I : Type} [DecidableEq I]

/-- The dominator tree is right: it finds the nearest common dominator of two
blocks that can be reached. -/
def PlacerContext.FindsDominators {I : Type} (ctx : PlacerContext I) (cfg : Cfg ℕ) : Prop :=
  ∀ a b, cfg.Reachable a → cfg.Reachable b →
    ctx.findNearestCommonDominator a b ∈ cfg.blocks ∧
      NearestCommon cfg.successors cfg.entryBlock a b (ctx.findNearestCommonDominator a b)

/-! ## §2. In front of the users. -/

/-- `d` is in a block that dominates the one of `u`; if it is the same, `d` comes
before `u`. -/
def InFront (cfg : Cfg ℕ) (code : Code I) (d u : I) : Prop :=
  ∃ b c bb cc, code[b]? = some bb ∧ d ∈ bb ∧ code[c]? = some cc ∧ u ∈ cc ∧
    cfg.Dominates b c ∧ (b = c → [d, u].Sublist bb)

variable {ctx : PlacerContext I} {cs : List (Constraint I)} {cfg : Cfg ℕ} {code : Code I}

/-- A block after an insertion. -/
theorem getElem?_insert {k b : ℕ} {x e : I} {bb : List I} (hb : code[b]? = some bb) :
    ∃ bb', (code.modify k (insertBefore x e))[b]? = some bb' ∧ bb.Sublist bb' := by
  by_cases hkb : k = b
  · refine ⟨insertBefore x e bb, ?_, sublist_insertBefore x e bb⟩
    rw [hkb, List.getElem?_modify_eq, hb]
    rfl
  · exact ⟨bb, by rw [List.getElem?_modify_ne _ _ hkb, hb], List.Sublist.refl bb⟩

/-- An insertion moves nothing. -/
theorem InFront.insert {d u x e : I} {k : ℕ} (h : InFront cfg code d u) :
    InFront cfg (code.modify k (insertBefore x e)) d u := by
  obtain ⟨b, c, bb, cc, hb, hd, hc, hu, hdom, hbefore⟩ := h
  obtain ⟨bb', hb', hsub⟩ := @getElem?_insert _ _ code k b x e bb hb
  obtain ⟨cc', hc', hsub'⟩ := @getElem?_insert _ _ code k c x e cc hc
  exact ⟨b, c, bb', cc', hb', hsub.subset hd, hc', hsub'.subset hu, hdom,
    fun hbc => (hbefore hbc).trans hsub⟩

omit [DecidableEq I] in
/-- In code without repetitions an instruction is in one block. -/
theorem block_unique (hnodup : code.flatten.Nodup) {b c : ℕ} {bb cc : List I}
    (hb : code[b]? = some bb) (hc : code[c]? = some cc) {i : I} (hib : i ∈ bb) (hic : i ∈ cc) :
    b = c := by
  have hpair := List.pairwise_iff_getElem.mp (List.nodup_flatten.mp hnodup).2
  obtain ⟨hlb, rfl⟩ := List.getElem?_eq_some_iff.mp hb
  obtain ⟨hlc, rfl⟩ := List.getElem?_eq_some_iff.mp hc
  rcases Nat.lt_trichotomy b c with hlt | heq | hlt
  · exact absurd hic (hpair b c hlb hlc hlt hib)
  · exact heq
  · exact absurd hib (hpair c b hlc hlb hlt hic)

/-- An instruction that is once in the code has one block. -/
theorem getParent_of_mem (hnodup : code.flatten.Nodup) {b : ℕ} {bb : List I}
    (hb : code[b]? = some bb) {i : I} (hi : i ∈ bb) : getParent code i = some b := by
  cases hp : getParent code i with
  | none => exact absurd hi (getParent_eq_none.mp hp bb (List.mem_of_getElem? hb))
  | some c =>
      obtain ⟨cc, hc, hic⟩ := getParent_eq_some hp
      rw [block_unique hnodup hb hc hi hic]

/-- An instruction of the code has a block. -/
theorem exists_getParent {i : I} (hi : i ∈ code.flatten) : ∃ b, getParent code i = some b := by
  cases hp : getParent code i with
  | some b => exact ⟨b, rfl⟩
  | none =>
      obtain ⟨bb, hbb, hi⟩ := List.mem_flatten.mp hi
      exact absurd hi (getParent_eq_none.mp hp bb hbb)

/-- One more instruction in one block. -/
theorem perm_insert {k : ℕ} {x e : I} {bb : List I} (hk : code[k]? = some bb) (he : e ∈ bb) :
    (code.modify k (insertBefore x e)).flatten.Perm (x :: code.flatten) := by
  induction code generalizing k with
  | nil => cases hk
  | cons block code ih =>
      cases k with
      | zero =>
          rw [List.getElem?_cons_zero, Option.some.injEq] at hk
          rw [← hk] at he
          show (insertBefore x e block ++ code.flatten).Perm (x :: (block ++ code.flatten))
          exact (perm_insertBefore he).append_right code.flatten
      | succ k =>
          rw [List.getElem?_cons_succ] at hk
          show (block ++ (code.modify k (insertBefore x e)).flatten).Perm
            (x :: (block ++ code.flatten))
          exact ((ih hk).append_left block).trans List.perm_middle

/-! ## §3. One placement. -/

/-- The code after some nodes were taken: those that were in no block are in one,
in front of their users, and nothing else has changed. -/
structure Settled (cs : List (Constraint I)) (cfg : Cfg ℕ) (base : Code I) (taken : List I)
    (code : Code I) : Prop where
  perm : code.flatten.Perm (base.flatten ++ taken.filter (· ∉ base.flatten))
  kept : code.map (List.filter (· ∈ base.flatten)) = base
  inFront : ∀ d ∈ taken, d ∉ base.flatten → ∀ u ∈ usersOf cs d, InFront cfg code d u

variable {base : Code I} {taken : List I}

omit [DecidableEq I] in
/-- A map that fails nowhere is a map. -/
theorem mapM_eq_map {β : Type} {f : I → Option β} {g : I → β} {xs : List I}
    (h : ∀ x ∈ xs, f x = some (g x)) : xs.mapM f = some (xs.map g) := by
  induction xs with
  | nil => rfl
  | cons x xs ih =>
      rw [List.mapM_cons, h x List.mem_cons_self, ih fun y hy => h y (List.mem_cons_of_mem x hy)]
      rfl

theorem Settled.mem_iff (h : Settled cs cfg base taken code) {i : I} :
    i ∈ code.flatten ↔ i ∈ base.flatten ∨ i ∈ taken := by
  rw [h.perm.mem_iff, List.mem_append, List.mem_filter]
  by_cases hi : i ∈ base.flatten
  · simp [hi]
  · simp [hi]

theorem Settled.length_eq (h : Settled cs cfg base taken code) : code.length = base.length := by
  rw [← h.kept, List.length_map]

/-- **One placement.**  All users of the node have been taken. -/
theorem Settled.step (h : Settled cs cfg base taken code)
    (hblocks : ∀ b, b ∈ cfg.blocks ↔ b < base.length) (hterm : ∀ bb ∈ base, bb ≠ [])
    (hreach : ∀ b ∈ cfg.blocks, cfg.Reachable b) (hdom : ctx.FindsDominators cfg) {x : I}
    (hx : x ∉ taken) (husers : ∀ u ∈ usersOf cs x, u ∈ taken)
    (hsome : x ∉ base.flatten → usersOf cs x ≠ []) :
    ∃ code', placeInst ctx cs code x = some code' ∧ Settled cs cfg base (x :: taken) code' := by
  unfold placeInst
  cases hp : getParent code x with
  | some b =>
      -- the instruction was in a block from the start
      obtain ⟨bb, hb, hin⟩ := getParent_eq_some hp
      have hmem : x ∈ code.flatten := List.mem_flatten.mpr ⟨bb, List.mem_of_getElem? hb, hin⟩
      have hbase : x ∈ base.flatten := (h.mem_iff.mp hmem).resolve_right hx
      refine ⟨code, rfl, ?_, h.kept, fun d hd hnew u hu => ?_⟩
      · rw [List.filter_cons_of_neg (by simpa using hbase)]
        exact h.perm
      · rcases List.mem_cons.mp hd with rfl | hd
        · exact absurd hbase hnew
        · exact h.inFront d hd hnew u hu
  | none =>
      have hnone := getParent_eq_none.mp hp
      have hout : x ∉ code.flatten := by
        intro hmem
        obtain ⟨bb, hbb, hin⟩ := List.mem_flatten.mp hmem
        exact hnone bb hbb hin
      have hnew : x ∉ base.flatten := fun hin => hout (h.mem_iff.mpr (.inl hin))
      -- the users are in blocks
      have hparent : ∀ u ∈ usersOf cs x, ∃ b, getParent code u = some b := fun u hu =>
        exists_getParent (h.mem_iff.mpr (.inr (husers u hu)))
      let parent : I → ℕ := fun u => (getParent code u).getD 0
      have hparents : ∀ u ∈ ctx.byInstruction (usersOf cs x),
          getParent code u = some (parent u) := by
        intro u hu
        obtain ⟨b, hb⟩ := hparent u ((ctx.byInstruction_perm _).mem_iff.mp hu)
        show _ = some ((getParent code u).getD 0)
        rw [hb]
        rfl
      have hlt : ∀ b bb, code[b]? = some bb → cfg.Reachable b := by
        intro b bb hb
        obtain ⟨hlb, -⟩ := List.getElem?_eq_some_iff.mp hb
        exact hreach b ((hblocks b).mpr (h.length_eq ▸ hlb))
      have hok : ∀ u ∈ ctx.byInstruction (usersOf cs x), cfg.Reachable (parent u) := by
        intro u hu
        obtain ⟨bb, hb, -⟩ := getParent_eq_some (hparents u hu)
        exact hlt _ bb hb
      obtain ⟨u₀, us, hus⟩ : ∃ u₀ us, ctx.byInstruction (usersOf cs x) = u₀ :: us := by
        refine List.exists_cons_of_ne_nil fun hnil => hsome hnew ?_
        have hlen := (ctx.byInstruction_perm (usersOf cs x)).length_eq
        rw [hnil] at hlen
        exact List.length_eq_zero_iff.mp hlen.symm
      -- the common dominator
      obtain ⟨hcommon, -, hdominates⟩ := foldl_dominates (fun a b ha hb =>
          ⟨hreach _ (hdom a b ha hb).1, (hdom a b ha hb).2⟩)
        ((ctx.byInstruction (usersOf cs x)).map parent)
        (hok u₀ (by rw [hus]; exact List.mem_cons_self))
        (fun b hb => by
          obtain ⟨u, hu, rfl⟩ := List.mem_map.mp hb
          exact hok u hu)
      generalize hk : ((ctx.byInstruction (usersOf cs x)).map parent).foldl
        ctx.findNearestCommonDominator (parent u₀) = k at hcommon hdominates
      have hklt : k < code.length := by
        rw [h.length_eq]
        exact (hblocks k).mp hcommon.1
      obtain ⟨bb, hkget⟩ : ∃ bb, code[k]? = some bb := ⟨_, List.getElem?_eq_getElem hklt⟩
      have hbb : bb ≠ [] := by
        have hfilter : bb.filter (· ∈ base.flatten) ∈ base := by
          have hmem := List.mem_map_of_mem (f := List.filter (· ∈ base.flatten))
            (List.mem_of_getElem? hkget)
          rwa [h.kept] at hmem
        rintro rfl
        exact hterm _ hfilter rfl
      obtain ⟨e, hearliest⟩ : ∃ e, earliestUser (ctx.byInstruction (usersOf cs x)) bb = some e := by
        unfold earliestUser
        rw [List.getLast?_eq_some_getLast hbb]
        cases bb.find? fun i => decide (i ∈ ctx.byInstruction (usersOf cs x)) with
        | none => exact ⟨_, rfl⟩
        | some e => exact ⟨e, rfl⟩
      have he : e ∈ bb := earliestUser_mem hearliest
      have hfirst : ((ctx.byInstruction (usersOf cs x)).map parent).head? = some (parent u₀) := by
        rw [hus]
        rfl
      refine ⟨code.modify k (insertBefore x e), ?_, ?_, ?_, fun d hd hdnew u hu => ?_⟩
      · simp only [mapM_eq_map hparents, Option.bind_eq_bind, Option.bind_some, hfirst, hk, hkget,
          hearliest]
      · rw [List.filter_cons_of_pos (by simpa using hnew)]
        exact ((perm_insert hkget he).trans (h.perm.cons x)).trans List.perm_middle.symm
      · refine Eq.trans ?_ h.kept
        apply List.ext_getElem?
        intro b
        rw [List.getElem?_map, List.getElem?_map]
        by_cases hkb : k = b
        · rw [← hkb, List.getElem?_modify_eq, hkget]
          exact congrArg some (filter_insertBefore_of_neg (by simpa using hnew) bb)
        · rw [List.getElem?_modify_ne _ _ hkb]
      · rcases List.mem_cons.mp hd with rfl | hd
        · -- the new instruction is in front of its users
          have hu' : u ∈ ctx.byInstruction (usersOf cs d) :=
            (ctx.byInstruction_perm _).mem_iff.mpr hu
          obtain ⟨cc, hc, huc⟩ := getParent_eq_some (hparents u hu')
          obtain ⟨cc', hc', hsub⟩ := @getElem?_insert _ _ code k _ d e cc hc
          have hinsert : (code.modify k (insertBefore d e))[k]? = some (insertBefore d e bb) := by
            rw [List.getElem?_modify_eq, hkget]
            rfl
          refine ⟨k, parent u, insertBefore d e bb, cc', hinsert,
            (mem_insertBefore he).mpr (.inl rfl), hc', hsub.subset huc,
            hdominates _ (List.mem_map_of_mem hu'), fun hkc => ?_⟩
          rw [← hkc, hkget, Option.some.injEq] at hc
          rw [← hc] at huc
          have hfind : bb.find? (fun i => decide (i ∈ ctx.byInstruction (usersOf cs d))) = some e := by
            unfold earliestUser at hearliest
            cases hf : bb.find? fun i => decide (i ∈ ctx.byInstruction (usersOf cs d)) with
            | none =>
                have hno := List.find?_eq_none.mp hf u huc
                exact absurd (decide_eq_true hu') hno
            | some e' =>
                rw [hf] at hearliest
                exact hearliest
          exact sublist_insertBefore_find hfind huc (decide_eq_true hu')
        · exact (h.inFront d hd hdnew u hu).insert

/-! ## §4. The loop. -/

/-- **What every placement preserves holds at the end of the loop**, and the loop
ends: it takes a node when it has taken all its users, and none twice. -/
theorem placeLoop_run {P : List I → Code I → Prop}
    (hstep : ∀ taken code x, x ∈ nodes ctx cs → x ∉ taken → (∀ u ∈ usersOf cs x, u ∈ taken) →
      P taken code → ∃ code', placeInst ctx cs code x = some code' ∧ P (x :: taken) code') :
    ∀ (fuel : ℕ) (taken : List I) (st : PlaceState I), Tracked ctx cs taken st → P taken st.code →
      (nodes ctx cs).length ≤ taken.length + fuel →
      ∃ taken' st', placeLoop ctx cs fuel st = some st' ∧ st'.placeable_nodes = [] ∧
        Tracked ctx cs taken' st' ∧ P taken' st'.code := by
  intro fuel
  induction fuel with
  | zero =>
      intro taken st htracked hP hfuel
      have hlen := (List.subperm_of_subset htracked.nodup htracked.nodes).length_le
      rw [List.length_append] at hlen
      have hnil : st.placeable_nodes = [] := List.length_eq_zero_iff.mp (by omega)
      exact ⟨taken, st, by rw [placeLoop, if_pos hnil], hnil, htracked, hP⟩
  | succ fuel ih =>
      intro taken st htracked hP hfuel
      rw [placeLoop]
      cases hst : st.placeable_nodes with
      | nil => exact ⟨taken, st, rfl, hst, htracked, hP⟩
      | cons x rest =>
          have hin : x ∈ taken ++ st.placeable_nodes := by
            rw [hst]
            simp
          -- the last placeable node was not taken yet, and all its users were
          have hnew : x ∉ taken := by
            intro hmem
            have hnodup := htracked.nodup
            rw [hst] at hnodup
            exact (List.disjoint_of_nodup_append hnodup) hmem List.mem_cons_self
          have hx := htracked.nodes x hin
          obtain ⟨code', hplace, hP'⟩ := hstep taken st.code x hx hnew
            ((htracked.ready x hx).mp hin) hP
          obtain ⟨new, heq, -, -⟩ := foldl_decrement (nodup_dependencies ctx cs x)
            { st with placeable_nodes := rest }
          obtain ⟨taken', st', hloop, hrest⟩ := ih (x :: taken) _ (htracked.step hst code') hP' (by
            rw [List.length_cons]
            omega)
          have hcode : ((dependencies ctx cs x).foldl decrement
              { st with placeable_nodes := rest }).code = st.code := by rw [heq]
          refine ⟨taken', st', ?_, hrest⟩
          dsimp only
          rw [hcode, hplace]
          exact hloop

/-- In a graph without cycles the users can be ranked below. -/
theorem exists_rank (ctx : PlacerContext I) (cs : List (Constraint I))
    (hacyclic : ∀ i, ¬TransGen (fun d u => (d, u) ∈ cs) i i) :
    ∃ rank : I → ℕ, ∀ c ∈ cs, rank c.2 < rank c.1 := by
  classical
  refine ⟨fun i => ((nodes ctx cs).toFinset.filter
    fun u => TransGen (fun d u => (d, u) ∈ cs) i u).card, fun c hc => ?_⟩
  apply Finset.card_lt_card
  rw [Finset.ssubset_iff_of_subset]
  · refine ⟨c.2, ?_, fun hin => hacyclic c.2 (Finset.mem_filter.mp hin).2⟩
    rw [Finset.mem_filter, List.mem_toFinset]
    exact ⟨mem_nodes.mpr ⟨c, hc, .inr rfl⟩, TransGen.single hc⟩
  · intro u hu
    rw [Finset.mem_filter] at hu ⊢
    exact ⟨hu.1, TransGen.head hc hu.2⟩

/-- **Placement respects all constraints.**  For every graph of users without
cycles in which what is in no block has a user, in a function whose blocks can
all be reached, and with the right dominator tree: `placeInsts` ends; the code
has each instruction it had and each node that was in no block, once; what was
in a block is where it was; and each inserted instruction is in a block that
dominates the blocks of its users, before those in its own. -/
theorem placeInsts_respects (ctx : PlacerContext I) (cs : List (Constraint I)) (cfg : Cfg ℕ)
    (code : Code I) (hblocks : ∀ b, b ∈ cfg.blocks ↔ b < code.length)
    (hterm : ∀ bb ∈ code, bb ≠ []) (hnodup : code.flatten.Nodup)
    (hreach : ∀ b ∈ cfg.blocks, cfg.Reachable b) (hdom : ctx.FindsDominators cfg)
    (hacyclic : ∀ i, ¬TransGen (fun d u => (d, u) ∈ cs) i i)
    (husers : ∀ d ∈ nodes ctx cs, d ∉ code.flatten → usersOf cs d ≠ []) :
    ∃ code', placeInsts ctx cs code = some code' ∧ code'.flatten.Nodup ∧
      (∀ i, i ∈ code'.flatten ↔ i ∈ code.flatten ∨ i ∈ nodes ctx cs) ∧
      code'.map (List.filter (· ∈ code.flatten)) = code ∧
      ∀ d u, (d, u) ∈ cs → d ∉ code.flatten →
        ∃ b c, getParent code' d = some b ∧ getParent code' u = some c ∧ cfg.Dominates b c ∧
          (b = c → ∃ bb, code'[b]? = some bb ∧ [d, u].Sublist bb) := by
  have hstart : Settled cs cfg code [] code := by
    refine ⟨by simp, ?_, fun d hd => by cases hd⟩
    conv_rhs => rw [← List.map_id code]
    refine List.map_congr_left fun bb hbb => List.filter_eq_self.mpr fun i hi => ?_
    exact decide_eq_true (List.mem_flatten.mpr ⟨bb, hbb, hi⟩)
  obtain ⟨taken, st', hloop, hdone, htracked, hsettled⟩ := placeLoop_run
    (fun taken code' x hx hnew hall hP => hP.step hblocks hterm hreach hdom hnew hall (husers x hx))
    (nodes ctx cs).length [] (initialState ctx cs code) (tracked_initial code) hstart (by simp)
  -- all nodes have been taken
  obtain ⟨rank, hrank⟩ := exists_rank ctx cs hacyclic
  have hnodes := htracked.nodes
  have hready := htracked.ready
  have hnd := htracked.nodup
  rw [hdone, List.append_nil] at hnodes hready hnd
  have hall : ∀ d, d ∈ taken ↔ d ∈ nodes ctx cs := fun d => ⟨hnodes d,
    mem_of_rank hrank (fun d hd h => (hready d hd).mpr h) d⟩
  have hnodup' : st'.code.flatten.Nodup := by
    rw [hsettled.perm.nodup_iff, List.nodup_append]
    refine ⟨hnodup, hnd.filter _, fun a ha b hb hab => ?_⟩
    have hb' := (List.mem_filter.mp hb).2
    rw [← hab] at hb'
    exact of_decide_eq_true hb' ha
  refine ⟨st'.code, ?_, hnodup', fun i => ?_, hsettled.kept, fun d u hdu hnew => ?_⟩
  · unfold placeInsts
    rw [hloop]
    rfl
  · rw [hsettled.mem_iff, hall]
  · have hd : d ∈ taken := (hall d).mpr (mem_nodes.mpr ⟨(d, u), hdu, .inl rfl⟩)
    obtain ⟨b, c, bb, cc, hb, hdb, hc, huc, hle, hbefore⟩ :=
      hsettled.inFront d hd hnew u (mem_usersOf.mpr hdu)
    exact ⟨b, c, getParent_of_mem hnodup' hb hdb, getParent_of_mem hnodup' hc huc, hle,
      fun hbc => ⟨bb, hb, hbefore hbc⟩⟩

/-- Two blocks, one after the other. -/
def twoBlocks : Cfg ℕ where
  blocks := {0, 1}
  entryBlock := 0
  getTerminator b := if b = 0 then .br 1 else .ret
  entry_mem := by decide
  successor_mem := by decide

/-- Sets are walked in the order of the constraints. -/
def twoBlocksContext : PlacerContext ℕ where
  findNearestCommonDominator := min
  dominator_self := min_self
  byInstruction l := l
  byNode l := l
  byInstruction_perm _ := List.Perm.refl _
  byNode_perm _ := List.Perm.refl _

/-- The dominators of the example are found. -/
theorem twoBlocks_dominators : twoBlocksContext.FindsDominators twoBlocks := by
  have hentry : ∀ b, twoBlocks.Dominates 0 b := fun b path hpath => List.mem_of_head? hpath.first
  intro a b ha hb
  have ha : a = 0 ∨ a = 1 := by simpa [twoBlocks] using ha.1
  have hb : b = 0 ∨ b = 1 := by simpa [twoBlocks] using hb.1
  rcases ha with rfl | rfl
  · exact ⟨by simp [twoBlocksContext, twoBlocks], hentry 0, hentry b, fun x hx _ => hx⟩
  · rcases hb with rfl | rfl
    · exact ⟨by decide, hentry 1, hentry 0, fun x _ hx => hx⟩
    · exact ⟨by decide, Dominates.refl 1, Dominates.refl 1, fun x hx _ => hx⟩

/-- Three instructions to place: 20 is used by 11, 21 by 20, and 22 in both
blocks. -/
theorem placeInsts_respects_twoBlocks :
    ∃ code', placeInsts twoBlocksContext [(20, 11), (21, 20), (22, 10), (22, 12)]
        [[10], [11, 12]] = some code' ∧
      code'.map (List.filter (· ∈ [10, 11, 12])) = [[10], [11, 12]] ∧
      ∃ b c, getParent code' 22 = some b ∧ getParent code' 12 = some c ∧
        twoBlocks.Dominates b c := by
  have hreach : ∀ b ∈ twoBlocks.blocks, twoBlocks.Reachable b := by
    intro b hb
    refine ⟨hb, ?_⟩
    have hb : b = 0 ∨ b = 1 := by simpa [twoBlocks] using hb
    rcases hb with rfl | rfl
    · exact ReflTransGen.refl
    · exact ReflTransGen.single (by decide)
  have hacyclic : ∀ i, ¬TransGen
      (fun d u => (d, u) ∈ [((20 : ℕ), (11 : ℕ)), (21, 20), (22, 10), (22, 12)]) i i := by
    -- every constraint leads to a smaller number
    have hless : ∀ d u, TransGen
        (fun d u => (d, u) ∈ [((20 : ℕ), (11 : ℕ)), (21, 20), (22, 10), (22, 12)]) d u → u < d := by
      intro d u h
      induction h with
      | single h =>
          simp only [List.mem_cons, Prod.mk.injEq, List.not_mem_nil, or_false] at h
          omega
      | tail _ h ih =>
          simp only [List.mem_cons, Prod.mk.injEq, List.not_mem_nil, or_false] at h
          omega
    exact fun i h => lt_irrefl i (hless i i h)
  obtain ⟨code', hplace, -, -, hkept, hfront⟩ := placeInsts_respects twoBlocksContext
    [(20, 11), (21, 20), (22, 10), (22, 12)] twoBlocks [[10], [11, 12]]
    (by intro b; simp [twoBlocks]; omega) (by decide) (by decide) hreach twoBlocks_dominators
    hacyclic (by decide)
  obtain ⟨b, c, hb, hc, hdom, -⟩ := hfront 22 12 (by decide) (by decide)
  exact ⟨code', hplace, hkept, b, c, hb, hc, hdom⟩

end Kremlin.Instrument
