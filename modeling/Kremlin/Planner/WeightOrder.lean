/-
  Kremlin.Planner.WeightOrder — when the weights depend on the hash order.

  The passes of two inits overlap where a region lies on the way to sinks of
  both: they write the same cell, each its own share, and the later pass wins.
  So the weights are the same for all visit orders exactly when the shares
  agree (`weights_order_iff`).  They need not agree when an init lies below
  another one (`weights_depend_on_order`).
-/
import Kremlin.Planner.RecursionWeight
import Mathlib.Algebra.Order.Field.Rat
import Mathlib.Data.Nat.Cast.Order.Ring
import Mathlib.Tactic.NormNum

namespace Kremlin.Planner

open Kremlin.Library Kremlin.Runtime Relation

/-! ## §1. All orders. -/

/-- The sinks below `x` did the same part of the work of all sinks of `a` as of
all sinks of `b`; no work at all has no parts. -/
def SamePart (t : RegionTree) (L : List NodeRef) (a b x : NodeRef) (depth : ℕ) : Prop :=
  (workBelow t L a a depth = 0 ↔ workBelow t L b b depth = 0) ∧
    workBelow t L a x depth * workBelow t L b b depth
      = workBelow t L b x depth * workBelow t L a a depth

instance (t : RegionTree) (L : List NodeRef) (a b x : NodeRef) (depth : ℕ) :
    Decidable (SamePart t L a b x depth) :=
  inferInstanceAs (Decidable (_ ∧ _))

/-- A region on the way to the same page of sinks of two inits carries the same
part of the work of either's sinks. -/
def SharesAgree (t : RegionTree) (L : List NodeRef) : Prop :=
  ∀ a b x depth, OnWay t L a x depth → OnWay t L b x depth → SamePart t L a b x depth

variable {t : RegionTree} {r : NodeRef} {L : List NodeRef}

/-- All sinks of an init lie below it. -/
theorem workBelow_le (hs : Subtree t r L) (h : Handed t) (a x : NodeRef) (depth : ℕ) :
    workBelow t L a x depth ≤ workBelow t L a a depth := by
  unfold workBelow
  apply List.sum_le_sum
  intro s hmem
  obtain ⟨hsL, hrec⟩ := mem_sinksOf.mp hmem
  have habove := (mem_above h.disc.shape).mpr (hs.target_mem h hsL hrec).2.2
  rw [if_pos habove]
  split
  · exact Nat.le_refl _
  · exact Nat.zero_le _

/-- A share is a quotient, unless there is no work to share. -/
theorem share_eq (hs : Subtree t r L) (h : Handed t) (a x : NodeRef) (depth : ℕ) :
    share t L a x depth = if workBelow t L a a depth = 0 then .nan
      else .fin ((workBelow t L a x depth : ℚ) / workBelow t L a a depth) := by
  have hle := workBelow_le hs h a x depth
  unfold share Double.div
  by_cases htotal : workBelow t L a a depth = 0
  · have hbelow : workBelow t L a x depth = 0 := by omega
    simp [htotal, hbelow]
  · simp [htotal]

/-- Two shares are the same when the products are. -/
theorem share_eq_iff (hs : Subtree t r L) (h : Handed t) (a b x : NodeRef) (depth : ℕ) :
    share t L a x depth = share t L b x depth ↔ SamePart t L a b x depth := by
  rw [share_eq hs h, share_eq hs h]
  unfold SamePart
  by_cases ha : workBelow t L a a depth = 0 <;> by_cases hb : workBelow t L b b depth = 0
  · simp [ha, hb]
  · simp [ha, hb]
  · simp [ha, hb]
  · have ha' : (workBelow t L a a depth : ℚ) ≠ 0 := Nat.cast_ne_zero.mpr ha
    have hb' : (workBelow t L b b depth : ℚ) ≠ 0 := Nat.cast_ne_zero.mpr hb
    simp only [ha, hb, if_false, iff_self, true_and, Double.fin.injEq]
    rw [div_eq_div_iff ha' hb']
    exact_mod_cast Iff.rfl

/-- Shares that agree are writers that agree. -/
theorem SharesAgree.agree (hs : Subtree t r L) (h : Handed t) (hshares : SharesAgree t L)
    (xs : List ℕ) : Agree (weightFrom t L) xs := by
  intro a _ b _ cell u v hu hv
  unfold weightFrom at hu hv
  split at hu
  · next ha =>
      split at hv
      · next hb =>
          rw [← Option.some.inj hu, ← Option.some.inj hv]
          exact (share_eq_iff hs h _ _ _ _).mpr (hshares _ _ _ _ ha hb)
      · cases hv
  · cases hu

/-- Writers that agree are shares that agree. -/
theorem sharesAgree_of_agree (hs : Subtree t r L) (h : Handed t) (xs : List ℕ)
    (hxs : ∀ a ∈ L, (t.node a).node_type = .rInit → uid t a ∈ xs)
    (hagree : Agree (weightFrom t L) xs) : SharesAgree t L := by
  intro a b x depth ha hb
  obtain ⟨hx, haL, hainit, -⟩ := ha.page hs h
  obtain ⟨-, hbL, hbinit, -⟩ := hb.page hs h
  rw [← share_eq_iff hs h]
  apply hagree (uid t a) (hxs a haL hainit) (uid t b) (hxs b hbL hbinit) (uid t x, depth)
  · unfold weightFrom
    rw [nodeOf_uid hs h haL, nodeOf_uid hs h hx, if_pos ha]
  · unfold weightFrom
    rw [nodeOf_uid hs h hbL, nodeOf_uid hs h hx, if_pos hb]

/-- A cell some init writes is a page of a region. -/
theorem weightAt_of_weightFrom (hs : Subtree t r L) (h : Handed t) {H : RegionMap}
    (hl : Linked t r L H) {a : ℕ} {cell : ℕ × ℕ} {v : Double}
    (hv : weightFrom t L a cell = some v) : (weightAt H cell.1 cell.2).isSome := by
  unfold weightFrom at hv
  split at hv
  · next hon =>
      obtain ⟨hx, -, -, hpage⟩ := hon.page hs h
      obtain ⟨X, hX, hXok⟩ := hl.built.node _ hx
      obtain ⟨stat, hstat, -⟩ := hXok.getStat_work hpage
      rw [uid_nodeOf hs h hx] at hX
      unfold weightAt
      simp [hX, hstat]
  · cases hv

/-- **On linked regions, all visit orders leave the same weights if and only if
the shares agree.** -/
theorem sameWeights_iff (hs : Subtree t r L) (h : Handed t) {H : RegionMap}
    (hl : Linked t r L H) {fuel : ℕ} (hfuel : t.size + 1 ≤ fuel) :
    (∀ o o', SameWeights fuel H o o') ↔ SharesAgree t L := by
  have hspec : ∀ o, calculateRecursiveWeightIn o fuel H = some (reweigh (overlay (weightFrom t L)
      (o.visit .inits ((o.visit .addInits H.keys).filter (IsInit t))) (weightsOf H)) H) := by
    intro o
    have hspec := calculateRecursiveWeightIn_spec hs h hl hfuel o (weightsOf H)
    rwa [reweigh_weightsOf] at hspec
  constructor
  · intro hsame
    -- every order of the inits is the order of some visit
    refine sharesAgree_of_agree hs h (H.keys.filter (IsInit t)) (fun a ha hinit => ?_)
      ((overlay_perm_iff _ (weightsOf H)).mp fun ys hys => ?_)
    · refine List.mem_filter.mpr ⟨(hl.built.keys _).mpr ⟨a, ha, rfl⟩, ?_⟩
      rw [decide_eq_true_eq]
      unfold IsInit
      rw [nodeOf_uid hs h ha]
      exact hinit
    · obtain ⟨H₁, H₂, h₁, h₂, hweight, -⟩ := hsame (.initsAs _ ys hys) .insertion
      have hvisit : (VisitOrder.initsAs _ ys hys).visit .inits (((VisitOrder.initsAs _ ys hys).visit
          .addInits H.keys).filter (IsInit t)) = ys := if_pos rfl
      rw [hspec, hvisit] at h₁
      rw [hspec] at h₂
      obtain rfl := Option.some.inj h₁
      obtain rfl := Option.some.inj h₂
      funext cell
      by_cases hcov : ∃ a ∈ H.keys.filter (IsInit t), ∃ v, weightFrom t L a cell = some v
      · obtain ⟨a, -, v, hv⟩ := hcov
        obtain ⟨u, hu⟩ := Option.isSome_iff_exists.mp (weightAt_of_weightFrom hs h hl hv)
        have heq := hweight cell.1 cell.2
        rw [weightAt_reweigh, weightAt_reweigh, hu] at heq
        exact Option.some.inj heq
      · have hnone : ∀ a ∈ H.keys.filter (IsInit t), weightFrom t L a cell = none := by
          intro a ha
          cases hv : weightFrom t L a cell with
          | none => rfl
          | some v => exact absurd ⟨a, ha, v, hv⟩ hcov
        rw [overlay_of_none fun a ha => hnone a (hys.mem_iff.mp ha), overlay_of_none hnone]
  · intro hshares o o'
    have hinits : ∀ o : VisitOrder, (o.visit .inits
        ((o.visit .addInits H.keys).filter (IsInit t))).Perm (H.keys.filter (IsInit t)) :=
      fun o => (o.perm _ _).trans ((o.perm _ _).filter _)
    have hsame := overlay_perm (hshares.agree hs h _) ((hinits o).trans (hinits o').symm) (weightsOf H)
    refine ⟨_, _, hspec o, hspec o', ?_, ?_⟩
    · intro id depth
      rw [hsame]
    · intro id
      rw [hsame]

/-- **Recursion weights and the order of the hash tables.**  For every tree a
nested run can build, on the records below a child `r` of the root and with
enough fuel: all orders in which the inits, the sinks of each and the work maps
are visited leave the same weight on every page of every region, and the same
self-parallelism, if and only if the shares of any two inits agree on what lies
on the way to sinks of both. -/
theorem weights_order_iff (summarize : Bool) (calls : List TreeCall)
    (hok : RunOk treeStep TreeCall.Nested (initRegionTree summarize) calls) :
    ∃ t, run treeStep (initRegionTree summarize) calls = some t ∧
      ∀ (r : NodeRef) (L : List NodeRef), (t.node r).parent = some t.region_tree_root →
        L.Nodup → (∀ c, c ∈ L ↔ t.Anc r c) →
        ∃ enough, ∀ fuel ≥ enough, ∃ H, linkRegions fuel (L.map (traceEntry t)) = some H ∧
          ((∀ o o', SameWeights fuel H o o') ↔ SharesAgree t L) := by
  obtain ⟨t, ht, h⟩ := handed_of_run hok
  refine ⟨t, ht, fun r L htop hnd hmem => ?_⟩
  have hs : Subtree t r L := ⟨by rw [htop, h.disc.shape.root], hnd, hmem⟩
  refine ⟨max (markFuel t L) (t.size + 1), fun fuel hfuel => ?_⟩
  obtain ⟨H, hH, hl⟩ := linkRegions_spec hs h (Nat.le_trans (Nat.le_max_left _ _) hfuel)
  exact ⟨H, hH, sameWeights_iff hs h hl (Nat.le_trans (Nat.le_max_right _ _) hfuel)⟩

/-! ## §2. Crossing recursions. -/

/-- A function with static id `sid` is entered. -/
def enterFunc (sid : SID) : TreeCall := .openCtx sid 0 .regionFunc

/-- It is left, having done `work`, of which `spWork` on its own critical path. -/
def leaveFunc (work spWork : ℕ) : TreeCall := .closeCtx ⟨work, work, 0, spWork, 0, 1⟩

/-- `main` calls `f`, which calls `g` and itself; `g` calls `f` and itself. -/
def crossingCalls : List TreeCall :=
  [enterFunc 1, enterFunc 2,
    enterFunc 3, enterFunc 2, leaveFunc 10 5, enterFunc 3, leaveFunc 10 5, leaveFunc 30 15,
    enterFunc 2, leaveFunc 20 20, leaveFunc 60 30, leaveFunc 100 50]

/-- Some two inits disagree on the first page. -/
def Disagree (t : RegionTree) (L : List NodeRef) : Prop :=
  ∃ a ∈ L, ∃ b ∈ L, ∃ x ∈ L, OnWay t L a x 0 ∧ OnWay t L b x 0 ∧
    ¬ SamePart t L a b x 0

instance (t : RegionTree) (L : List NodeRef) : Decidable (Disagree t L) :=
  inferInstanceAs (Decidable (∃ a ∈ L, _))

/-- The tree of the crossing recursions: six nodes below the root, all below
`main`, and the inits `f` and `g` disagree about `g`. -/
theorem crossing_tree :
    (run treeStep (initRegionTree true) crossingCalls).all (fun t =>
      (t.node 1).parent = some 0 ∧ (∀ c ∈ [1, 2, 3, 4, 5, 6], c < t.size) ∧
        (∀ c < t.size, c ∈ [1, 2, 3, 4, 5, 6] ↔ 1 = c ∨ 1 ∈ above t c) ∧
        Disagree t [1, 2, 3, 4, 5, 6]) = true := by
  decide +kernel

/-- **The weights depend on the order**, already for two recursions that cross:
`g` has a third of the work of the sinks of `f`, and all of that of its own. -/
theorem weights_depend_on_order :
    ¬ ∀ (summarize : Bool) (calls : List TreeCall),
      RunOk treeStep TreeCall.Nested (initRegionTree summarize) calls →
      ∃ t, run treeStep (initRegionTree summarize) calls = some t ∧
        ∀ (r : NodeRef) (L : List NodeRef), (t.node r).parent = some t.region_tree_root →
          L.Nodup → (∀ c, c ∈ L ↔ t.Anc r c) →
          ∃ enough, ∀ fuel ≥ enough, ∃ H, linkRegions fuel (L.map (traceEntry t)) = some H ∧
            ∀ o o', SameWeights fuel H o o' := by
  intro hall
  have hok : RunOk treeStep TreeCall.Nested (initRegionTree true) crossingCalls := by decide
  obtain ⟨t, ht, hclaim⟩ := hall true crossingCalls hok
  obtain ⟨t', ht', h⟩ := handed_of_run hok
  obtain rfl := Option.some.inj (ht.symm.trans ht')
  have hfacts := crossing_tree
  rw [ht] at hfacts
  obtain ⟨htop, hlt, hbelow, a, -, b, -, x, -, ha, hb, hne⟩ := of_decide_eq_true hfacts
  have hs : Subtree t 1 [1, 2, 3, 4, 5, 6] := .of_above h htop (by decide) hlt hbelow
  obtain ⟨enough, hfuel⟩ := hclaim 1 [1, 2, 3, 4, 5, 6] (by rw [htop, h.disc.shape.root])
    hs.nodup hs.mem
  obtain ⟨H, hH, hsame⟩ := hfuel (max enough (max (markFuel t [1, 2, 3, 4, 5, 6]) (t.size + 1)))
    (Nat.le_max_left _ _)
  obtain ⟨H', hH', hl⟩ := linkRegions_spec hs h
    (Nat.le_trans (Nat.le_max_left _ (t.size + 1)) (Nat.le_max_right enough _))
  obtain rfl := Option.some.inj (hH.symm.trans hH')
  exact hne ((sameWeights_iff hs h hl (Nat.le_trans (Nat.le_max_right _ _)
    (Nat.le_max_right enough _))).mp hsame a b x 0 ha hb)

/-- The example's weights depend on the order. -/
theorem weights_order_iff_crossing :
    ∃ t, run treeStep (initRegionTree true) crossingCalls = some t ∧
      ∀ (r : NodeRef) (L : List NodeRef), (t.node r).parent = some t.region_tree_root →
        L.Nodup → (∀ c, c ∈ L ↔ t.Anc r c) →
        ∃ enough, ∀ fuel ≥ enough, ∃ H, linkRegions fuel (L.map (traceEntry t)) = some H ∧
          ((∀ o o', SameWeights fuel H o o') ↔ SharesAgree t L) :=
  weights_order_iff true crossingCalls (by decide)

/-- In numbers: `g` weighs one when the pass of its own recursion comes last, a
third when that of `f` does, and its self-parallelism differs. -/
example : ((run treeStep (initRegionTree true) crossingCalls).bind fun t =>
      (linkRegions 100 ([1, 2, 3, 4, 5, 6].map (traceEntry t))).bind fun H =>
        [VisitOrder.insertion, .initsAs [3, 4] [4, 3] (by decide)].mapM fun o =>
          (calculateRecursiveWeightIn o 100 H).map fun H' => (weightAt H' 4 0, selfPAt H' 4))
    = some [(some (.fin 1), some (.fin (12 / 5))), (some (.fin (1 / 3)), some (.fin (36 / 17)))] := by
  decide +kernel

end Kremlin.Planner
