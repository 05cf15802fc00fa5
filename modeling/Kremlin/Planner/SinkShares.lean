/-
  Kremlin.Planner.SinkShares — the recursion weights, read off the tree.

  The weight of a region on a page is a share of the work its init's sinks did
  on that page: the work of the sinks below the region over that of all of
  them.  A pass of `setRecursionWeight` changes weights and nothing else, so
  the regions in between passes are the linked ones, reweighed.
-/
import Kremlin.Library.Overlay
import Kremlin.Planner.LinkRegions
import Kremlin.Planner.VisitOrder

namespace Kremlin.Planner

open Kremlin.Library Kremlin.Runtime Relation

/-! ## §1. Shares. -/

/-- The nodes above `c`, the nearest first, at most `fuel` of them. -/
def aboveFrom (t : RegionTree) : ℕ → NodeRef → List NodeRef
  | 0, _ => []
  | fuel + 1, c =>
      match (t.node c).parent with
      | none => []
      | some p => p :: aboveFrom t fuel p

/-- The nodes above `c`; a parent is older than its children. -/
def above (t : RegionTree) (c : NodeRef) : List NodeRef := aboveFrom t c c

/-- The sinks of `a`. -/
def sinksOf (t : RegionTree) (L : List NodeRef) (a : NodeRef) : List NodeRef :=
  L.filter fun s => (t.node s).recursion = some a

/-- The work on page `depth` of `s`. -/
def pageWork (t : RegionTree) (s : NodeRef) (depth : ℕ) : ℕ :=
  (((t.node s).stats[depth]?).map ProfileNodeStats.total_work).getD 0

/-- The work on page `depth` of the sinks of `a` that lie below `x`. -/
def workBelow (t : RegionTree) (L : List NodeRef) (a x : NodeRef) (depth : ℕ) : ℕ :=
  ((sinksOf t L a).map fun s => if x ∈ above t s then pageWork t s depth else 0).sum

/-- `x` lies on the way from `a` to one of its sinks that has page `depth`. -/
def OnWay (t : RegionTree) (L : List NodeRef) (a x : NodeRef) (depth : ℕ) : Prop :=
  (a = x ∨ a ∈ above t x) ∧ ∃ s ∈ sinksOf t L a, depth < t.pages s ∧ x ∈ above t s

instance (t : RegionTree) (L : List NodeRef) (a x : NodeRef) (depth : ℕ) :
    Decidable (OnWay t L a x depth) :=
  inferInstanceAs (Decidable (_ ∧ _))

/-- The share of `x` in the work that the sinks of `a` did on page `depth`. -/
def share (t : RegionTree) (L : List NodeRef) (a x : NodeRef) (depth : ℕ) : Double :=
  (Double.fin (workBelow t L a x depth)).div (.fin (workBelow t L a a depth))

/-- The node behind a uid. -/
def nodeOf (x : ℕ) : NodeRef := x - 1

/-- What the pass of the init `a` writes, cell by cell: a region and a page. -/
def weightFrom (t : RegionTree) (L : List NodeRef) (a : ℕ) (cell : ℕ × ℕ) : Option Double :=
  if OnWay t L (nodeOf a) (nodeOf cell.1) cell.2 then
    some (share t L (nodeOf a) (nodeOf cell.1) cell.2)
  else none

variable {t : RegionTree} {r : NodeRef} {L : List NodeRef}

/-- An ancestor is the node or a proper one. -/
theorem anc_iff_proper {a c : NodeRef} : t.Anc a c ↔ a = c ∨ t.ProperAnc a c := by
  constructor
  · intro h
    rcases ReflTransGen.cases_tail h with heq | ⟨p, hap, hp⟩
    · exact Or.inl heq.symm
    · exact Or.inr ⟨p, hp, hap⟩
  · rintro (rfl | ⟨p, hp, hap⟩)
    · exact ReflTransGen.refl
    · exact hap.tail hp

/-- The list of what is above a node. -/
theorem mem_above (h : t.TreeShape) {a c : NodeRef} : a ∈ above t c ↔ t.ProperAnc a c := by
  have hfrom : ∀ (fuel : ℕ) (c : NodeRef), c ≤ fuel → (a ∈ aboveFrom t fuel c ↔ t.ProperAnc a c) := by
    intro fuel
    induction fuel with
    | zero =>
        intro c hc
        obtain rfl := Nat.le_zero.mp hc
        unfold aboveFrom RegionTree.ProperAnc
        simp [h.root_parent]
    | succ fuel ih =>
        intro c hc
        unfold aboveFrom
        cases hp : (t.node c).parent with
        | none =>
            unfold RegionTree.ProperAnc
            simp [hp]
        | some p =>
            have hlt := h.parent_lt hp
            show a ∈ p :: aboveFrom t fuel p ↔ _
            rw [List.mem_cons, ih p (Nat.le_of_lt_succ (Nat.lt_of_lt_of_le hlt hc)), ← anc_iff_proper]
            unfold RegionTree.ProperAnc
            simp [hp]
  exact hfrom c c (Nat.le_refl c)

/-- A list that holds what is at and below `r`, as far as the heap goes. -/
theorem Subtree.of_above (h : Handed t) (htop : (t.node r).parent = some 0) (hnd : L.Nodup)
    (hlt : ∀ c ∈ L, c < t.size) (hmem : ∀ c < t.size, c ∈ L ↔ r = c ∨ r ∈ above t c) :
    Subtree t r L := by
  refine ⟨htop, hnd, fun c => ?_⟩
  by_cases hc : c < t.size
  · rw [hmem c hc, mem_above h.disc.shape, anc_iff_proper]
  · have hne : r ≠ c := by
      rintro rfl
      exact hc (h.disc.shape.lt_size htop)
    have hnot : ¬ t.ProperAnc r c := by
      -- beyond the heap there is no parent
      rintro ⟨p, hp, -⟩
      exact hc (h.disc.shape.lt_size hp)
    rw [anc_iff_proper]
    exact ⟨fun hcL => absurd (hlt c hcL) hc, fun hanc => (hanc.elim hne hnot).elim⟩

/-- The sinks of an init. -/
theorem mem_sinksOf {a s : NodeRef} : s ∈ sinksOf t L a ↔ s ∈ L ∧ (t.node s).recursion = some a := by
  unfold sinksOf
  simp

/-- A region on the way lies between the init and a sink with the page. -/
theorem onWay_iff (h : t.TreeShape) {a x : NodeRef} {depth : ℕ} :
    OnWay t L a x depth ↔ t.Anc a x ∧ ∃ s ∈ sinksOf t L a, depth < t.pages s ∧ t.ProperAnc x s := by
  unfold OnWay
  simp only [mem_above h, anc_iff_proper]

/-- The node is found by its uid. -/
theorem nodeOf_uid (hs : Subtree t r L) (h : Handed t) {c : NodeRef} (hc : c ∈ L) :
    nodeOf (uid t c) = c := by
  unfold nodeOf uid
  rw [h.ids.id c (hs.lt_size h hc)]
  rfl

/-- The root is not in the list, so only one uid stands for a node of it. -/
theorem uid_nodeOf (hs : Subtree t r L) (h : Handed t) {x : ℕ} (hx : nodeOf x ∈ L) :
    uid t (nodeOf x) = x := by
  have hne := hs.ne_root h hx
  unfold uid
  rw [h.ids.id _ (hs.lt_size h hx)]
  show x - 1 + 1 = x
  apply Nat.sub_add_cancel
  apply Nat.pos_of_ne_zero
  rintro rfl
  exact hne rfl

/-- What lies on the way has the page. -/
theorem OnWay.page (hs : Subtree t r L) (h : Handed t) {a x : NodeRef} {depth : ℕ}
    (hw : OnWay t L a x depth) : x ∈ L ∧ a ∈ L ∧ (t.node a).node_type = .rInit ∧
      depth < t.pages x := by
  obtain ⟨hax, s, hsa, hlt, hxs⟩ := (onWay_iff h.disc.shape).mp hw
  obtain ⟨hsL, hrec⟩ := mem_sinksOf.mp hsa
  obtain ⟨haL, hinit, -⟩ := hs.target_mem h hsL hrec
  have hbound := (h.pages.sink s a (h.disc.shape.recursion_sink s a hrec) hrec).1 x hxs hax
  exact ⟨hs.mem_of_anc haL hax, haL, hinit, Nat.lt_of_lt_of_le hlt hbound⟩

/-! ## §2. Reweighing. -/

/-- The region with other weights, one for each page. -/
def CRegion.reweigh (w : ℕ → Double) (region : CRegion) : CRegion :=
  { region with stats := region.stats.mapIdx fun depth stat => { stat with rWeight := w depth } }

/-- All regions with other weights. -/
def reweigh (w : ℕ × ℕ → Double) (H : RegionMap) : RegionMap where
  keys := H.keys
  get x := (H.get x).map (CRegion.reweigh fun depth => w (x, depth))

/-- The weights the regions have. -/
def weightsOf (H : RegionMap) (cell : ℕ × ℕ) : Double :=
  (weightAt H cell.1 cell.2).getD (.fin 0)

/-- The number of pages stays -/
theorem CRegion.reweigh_length (w : ℕ → Double) (region : CRegion) :
    (region.reweigh w).stats.length = region.stats.length :=
  List.length_mapIdx

/-- and all of a page but its weight. -/
theorem CRegion.reweigh_getStat (w : ℕ → Double) (region : CRegion) (depth : ℕ) :
    (region.reweigh w).getStat depth
      = (region.getStat depth).map fun stat => { stat with rWeight := w depth } :=
  List.getElem?_mapIdx

/-- Setting one weight. -/
theorem CRegion.reweigh_setWeight (w : ℕ → Double) (region : CRegion) {depth : ℕ}
    (hlt : depth < region.stats.length) (v : Double) :
    (region.reweigh w).setWeight depth v
      = some (region.reweigh fun d => if d = depth then v else w d) := by
  unfold CRegion.setWeight
  have hstat : (region.reweigh w).getStat depth = some _ := List.getElem?_eq_getElem
    (by rw [CRegion.reweigh_length]; exact hlt)
  simp only [hstat, Option.bind_eq_bind, Option.bind_some]
  congr 2
  unfold CRegion.reweigh
  apply List.ext_getElem?
  intro d
  simp only [List.getElem?_modify, List.getElem?_mapIdx]
  by_cases hd : depth = d
  · subst hd
    cases region.stats[depth]? <;> simp
  · cases region.stats[d]? <;> simp [hd, Ne.symm hd]

/-- Putting a region with other weights. -/
theorem put_reweigh {H : RegionMap} {x : ℕ} {region : CRegion} (hget : H.get x = some region)
    (hkey : x ∈ H.keys) (w : ℕ × ℕ → Double) (v : ℕ → Double) :
    (reweigh w H).put x (region.reweigh v)
      = reweigh (fun cell => if cell.1 = x then v cell.2 else w cell) H := by
  unfold reweigh KeyMap.put
  simp only [if_pos hkey]
  congr 1
  funext y
  by_cases hy : y = x
  · subst hy
    simp [hget]
  · simp [hy]

/-- The regions are themselves, reweighed. -/
theorem reweigh_weightsOf (H : RegionMap) : reweigh (weightsOf H) H = H := by
  unfold reweigh
  congr 1
  funext x
  cases hx : H.get x with
  | none => rfl
  | some region =>
      show some (region.reweigh _) = some region
      congr 1
      unfold CRegion.reweigh
      congr 1
      apply List.ext_getElem?
      intro depth
      rw [List.getElem?_mapIdx]
      cases hstat : region.stats[depth]? with
      | none => rfl
      | some stat =>
          have hw : weightsOf H (x, depth) = stat.rWeight := by
            unfold weightsOf weightAt CRegion.getStat
            simp [hx, hstat]
          show some { stat with rWeight := weightsOf H (x, depth) } = some stat
          rw [hw]

/-- The weights are the new ones. -/
theorem weightAt_reweigh (w : ℕ × ℕ → Double) (H : RegionMap) (x depth : ℕ) :
    weightAt (reweigh w H) x depth = (weightAt H x depth).map fun _ => w (x, depth) := by
  unfold weightAt
  cases hx : H.get x with
  | none => simp [reweigh, hx]
  | some region =>
      have hget : (reweigh w H).get x = some (region.reweigh fun d => w (x, d)) := by
        simp [reweigh, hx]
      simp only [hget, Option.bind_eq_bind, Option.bind_some, CRegion.reweigh_getStat]
      cases region.getStat depth <;> rfl

/-- A loop whose turns rewrite cells rewrites them one turn after the other. -/
theorem foldlM_reweigh {ι : Type} {H : RegionMap} {body : RegionMap → ι → Option RegionMap}
    {f : ι → ℕ × ℕ → Option Double} {xs : List ι}
    (hbody : ∀ w, ∀ x ∈ xs, body (reweigh w H) x
      = some (reweigh (fun cell => (f x cell).getD (w cell)) H)) (w : ℕ × ℕ → Double) :
    xs.foldlM body (reweigh w H) = some (reweigh (overlay f xs w) H) := by
  induction xs generalizing w with
  | nil => rfl
  | cons x xs ih =>
      rw [List.foldlM_cons, hbody w x List.mem_cons_self]
      exact ih (fun w y hy => hbody w y (List.mem_cons_of_mem _ hy)) _

/-- Weights are no part of what the runtime wrote. -/
theorem RegionOk.reweigh {c : NodeRef} {region : CRegion} (hok : RegionOk t L c region)
    (w : ℕ → Double) : RegionOk t L c (region.reweigh w) := by
  refine ⟨hok.init, hok.sink, hok.isR, ?_, hok.parent, hok.target⟩
  rw [← hok.records]
  unfold CRegion.reweigh
  apply List.ext_getElem?
  intro depth
  simp only [List.getElem?_map, List.getElem?_mapIdx]
  cases region.stats[depth]? <;> rfl

/-- Linked regions stay linked. -/
theorem Linked.reweigh {H : RegionMap} (hl : Linked t r L H) (w : ℕ × ℕ → Double) :
    Linked t r L (reweigh w H) := by
  refine ⟨⟨fun x => ?_, hl.built.nodup, hl.built.keys, fun c hc => ?_⟩, fun c hc hne => ?_,
    fun c hc => ?_, fun s hsL a ha => ?_⟩
  · show x ∈ H.keys ↔ (Option.map _ (H.get x)).isSome
    rw [Option.isSome_map]
    exact hl.built.total x
  · obtain ⟨region, hget, hok⟩ := hl.built.node c hc
    exact ⟨_, congrArg (Option.map _) hget, hok.reweigh _⟩
  · obtain ⟨region, p, hget, hp, hpar⟩ := hl.parent c hc hne
    exact ⟨_, p, congrArg (Option.map _) hget, hp, hpar⟩
  · rw [← hl.children c hc]
    exact Option.map_map ..
  · obtain ⟨region, b, hget, hb, htarget⟩ := hl.target s hsL a ha
    exact ⟨_, b, congrArg (Option.map _) hget, hb, htarget⟩

end Kremlin.Planner
