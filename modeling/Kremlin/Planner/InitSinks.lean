/-
  Kremlin.Planner.InitSinks — one call of `setRecursionWeight`.

  In a tree of regions, the call walks from the parent of each sink up to the
  init and gives the regions it passes their share of the sinks' work, page by
  page.  Whatever the order of its loops, it writes the share of every region on
  a path (`setRecursionWeightIn_shares`) and nothing else; the shares add up
  along the tree (`sinkWork_eq`).
-/
import Kremlin.Library.TreeLoads
import Kremlin.Planner.RegionForest
import Kremlin.Planner.SinkShares
import Mathlib.Algebra.BigOperators.Field
import Mathlib.Algebra.Order.Field.Basic
import Mathlib.Algebra.Order.Field.Rat
import Mathlib.Data.Nat.Cast.Order.Field

namespace Kremlin.Planner

open Kremlin.Library Relation

/-! ## §1. Sinks and the paths up from them. -/

/-- The cast of a `CRegionR` succeeds. -/
theorem asR_of_isR {region : CRegion} (h : region.isR = true) : region.asR = some region := by
  unfold CRegion.asR
  rw [if_pos h]

namespace CRegionManager

/-- `getStatSize` of a region. -/
def pages (m : CRegionManager) (x : ℕ) : ℕ :=
  ((m.regionMap.get x).map fun X => X.stats.length).getD 0

/-- The total work on page `depth` of a region. -/
def workAt (m : CRegionManager) (depth x : ℕ) : ℕ :=
  (((m.regionMap.get x).bind fun X => X.getStat depth).map CRegionStat.work).getD 0

/-- The pages of a region. -/
theorem pages_eq {m : CRegionManager} {x : ℕ} {X : CRegion} (hX : m.regionMap.get x = some X) :
    m.pages x = X.stats.length := by
  unfold pages
  rw [hX]
  rfl

/-- The work on one page. -/
theorem workAt_eq {m : CRegionManager} {x depth : ℕ} {X : CRegion} {stat : CRegionStat}
    (hX : m.regionMap.get x = some X) (hstat : X.getStat depth = some stat) :
    m.workAt depth x = stat.work := by
  unfold workAt
  rw [hX, Option.bind_some, hstat]
  rfl

/-- There is none beyond the last page. -/
theorem workAt_eq_zero {m : CRegionManager} {x depth : ℕ} (h : m.pages x ≤ depth) :
    m.workAt depth x = 0 := by
  unfold workAt
  cases hX : m.regionMap.get x with
  | none => rfl
  | some X =>
      have hnone : X.getStat depth = none := List.getElem?_eq_none (pages_eq hX ▸ h)
      rw [Option.bind_some, hnone]
      rfl

namespace IsTree

variable {m : CRegionManager} (h : m.IsTree)

/-- What the sinks of an init are: regions properly below it.  From the parent
of each up to the init, the regions are `CRegionR`s with at least the pages of
the sink. -/
structure SinksOk (init : ℕ) (sinks : List ℕ) : Prop where
  below : ∀ s ∈ sinks, h.tree.ProperAnc init s
  cast : ∀ x X, h.tree.Anc init x → m.regionMap.get x = some X → X.isR = true
  pages : ∀ s ∈ sinks, ∀ x, h.tree.Anc init x → h.tree.ProperAnc x s → m.pages s ≤ m.pages x

/-- `x` lies on the path from the parent of a sink with page `depth` up to the init. -/
def OnPath (init : ℕ) (sinks : List ℕ) (depth x : ℕ) : Prop :=
  h.tree.Anc init x ∧ ∃ s ∈ sinks, depth < m.pages s ∧ h.tree.ProperAnc x s

/-- The work on page `depth` of the sinks below `x`. -/
noncomputable def sinkWork (sinks : List ℕ) (depth x : ℕ) : ℕ :=
  h.tree.loadBelow (m.workAt depth) sinks x

open Classical in
/-- What the call writes, cell by cell: a region and a page. -/
noncomputable def shareOf (init : ℕ) (sinks : List ℕ) (cell : ℕ × ℕ) : Option Double :=
  if h.OnPath init sinks cell.2 cell.1 then
    some ((Double.fin (h.sinkWork sinks cell.2 cell.1)).div
      (.fin (h.sinkWork sinks cell.2 init)))
  else none

end IsTree

end CRegionManager

/-! ## §2. The work map. -/

/-- Adding work along a path: its ids become keys, and each gains the work. -/
theorem addPath_spec (work : ℕ) :
    ∀ (path : List ℕ) {map : KeyMap ℕ ℕ}, map.Total → path.Nodup →
      (path.foldl (fun map target => map.put target ((map.get target).getD 0 + work)) map).Total ∧
      ∀ x, (x ∈ (path.foldl
          (fun map target => map.put target ((map.get target).getD 0 + work)) map).keys ↔
            x ∈ map.keys ∨ x ∈ path) ∧
        ((path.foldl
          (fun map target => map.put target ((map.get target).getD 0 + work)) map).get x).getD 0
            = (map.get x).getD 0 + if x ∈ path then work else 0
  | [], _, hm, _ => ⟨hm, by simp⟩
  | y :: path, map, hm, hnd => by
      obtain ⟨hy, hnd⟩ := List.nodup_cons.mp hnd
      obtain ⟨htotal, hrest⟩ := addPath_spec work path
        (hm.put y ((map.get y).getD 0 + work)) hnd
      refine ⟨htotal, fun x => ⟨?_, ?_⟩⟩
      · rw [List.foldl_cons, (hrest x).1, KeyMap.mem_keys_put, List.mem_cons]
        tauto
      · rw [List.foldl_cons, (hrest x).2]
        by_cases hxy : x = y
        · subst hxy
          simp [hy]
        · simp [KeyMap.get_put_ne hxy, hxy]

namespace CRegionManager.IsTree

variable {m : CRegionManager} {h : m.IsTree} {init : ℕ} {sinks past : List ℕ} {A : CRegion}
  {depth x s fuel : ℕ} {map : KeyMap ℕ ℕ}

/-- The sinks `past` have been added to the work map. -/
structure WorkMapOf (h : m.IsTree) (init depth : ℕ) (past : List ℕ) (map : KeyMap ℕ ℕ) : Prop where
  total : map.Total
  keys : ∀ x, x ∈ map.keys ↔ h.OnPath init past depth x
  work : ∀ x, h.tree.Anc init x → (map.get x).getD 0 = h.sinkWork past depth x

/-- One sink more. -/
theorem onPath_append :
    h.OnPath init (past ++ [s]) depth x ↔ h.OnPath init past depth x ∨
      h.tree.Anc init x ∧ depth < m.pages s ∧ h.tree.ProperAnc x s := by
  unfold OnPath
  simp only [List.mem_append, List.mem_singleton, or_and_right, exists_or, exists_eq_left,
    and_or_left]

open Classical in
/-- A sink adds its work above it. -/
theorem sinkWork_append :
    h.sinkWork (past ++ [s]) depth x = h.sinkWork past depth x
      + if h.tree.ProperAnc x s then m.workAt depth s else 0 := by
  unfold sinkWork FiniteTree.loadBelow
  rw [List.map_append, List.sum_append]
  simp

/-- A sink without the page adds nothing. -/
theorem WorkMapOf.skip (hm : WorkMapOf h init depth past map) (hs : m.pages s ≤ depth) :
    WorkMapOf h init depth (past ++ [s]) map where
  total := hm.total
  keys x := by
    rw [hm.keys, onPath_append]
    have hno : ¬ depth < m.pages s := by omega
    simp only [hno, false_and, and_false, or_false]
  work x hx := by
    rw [hm.work x hx, sinkWork_append, workAt_eq_zero hs, ite_self, Nat.add_zero]

/-- One sink: its work is added along its path. -/
theorem addSinkWork_eq (hsinks : h.SinksOk init sinks) (hA : m.regionMap.get init = some A)
    (hfuel : h.tree.bound + 2 ≤ fuel) (hm : WorkMapOf h init depth past map) (hs : s ∈ sinks) :
    ∃ map', addSinkWork m.regionMap fuel A depth map s = some map' ∧
      WorkMapOf h init depth (past ++ [s]) map' := by
  obtain ⟨p, hp, hip⟩ := hsinks.below s hs
  obtain ⟨S, hS, hSp⟩ := exists_of_parent hp
  have hSR : S.asR = some S := asR_of_isR (hsinks.cast s S (hip.tail hp) hS)
  unfold addSinkWork
  simp only [hS, hSR, Option.bind_eq_bind, Option.bind_some]
  by_cases hd : S.stats.length ≤ depth
  · rw [if_pos hd]
    exact ⟨map, rfl, hm.skip (pages_eq hS ▸ hd)⟩
  · rw [if_neg hd]
    have hlt : depth < S.stats.length := by omega
    have hstat : S.getStat depth = some _ := List.getElem?_eq_getElem hlt
    have hrank : h.tree.rank p < h.tree.rank s := h.tree.rank_lt hp
    have hbound : h.tree.rank s ≤ h.tree.bound := h.tree.rank_le hp
    obtain ⟨path, hpath, hnd, hmem⟩ := @walkUp_eq m h init A hA fuel p hip (by omega)
    simp only [hstat, hSp, hpath, Option.bind_some]
    obtain ⟨htotal, hadd⟩ := addPath_spec _ path hm.total hnd
    have hon : ∀ x, x ∈ path ↔ h.tree.Anc init x ∧ h.tree.ProperAnc x s := by
      intro x
      rw [hmem, Forest.properAnc_iff hp]
    refine ⟨_, rfl, htotal, fun x => ?_, fun x hx => ?_⟩
    · rw [(hadd x).1, hm.keys, onPath_append, hon, pages_eq hS]
      simp only [hlt, true_and]
    · rw [(hadd x).2, hm.work x hx, sinkWork_append, workAt_eq hS hstat]
      have hiff : x ∈ path ↔ h.tree.ProperAnc x s := (hon x).trans (and_iff_right hx)
      by_cases hxs : h.tree.ProperAnc x s
      · rw [if_pos hxs, if_pos (hiff.mpr hxs)]
      · rw [if_neg hxs, if_neg (mt hiff.mp hxs)]

/-- **The work map of one page**, whatever the order of the sinks. -/
theorem workMapOf_spec (hsinks : h.SinksOk init sinks) (hA : m.regionMap.get init = some A)
    (hfuel : h.tree.bound + 2 ≤ fuel) (depth : ℕ) :
    ∃ map, sinks.foldlM (addSinkWork m.regionMap fuel A depth) KeyMap.empty = some map ∧
      (∀ x, x ∈ map.keys ↔ h.OnPath init sinks depth x) ∧
      ∀ x ∈ map.keys, map.get x = some (h.sinkWork sinks depth x) := by
  obtain ⟨map, hmap, hm⟩ := foldlM_done (f := addSinkWork m.regionMap fuel A depth)
    (WorkMapOf h init depth) sinks (s := KeyMap.empty)
    (by
      intro past s rest map heq hm
      exact addSinkWork_eq hsinks hA hfuel hm (by rw [heq]; simp))
    ⟨KeyMap.total_empty, fun x => by simp [KeyMap.empty, OnPath], fun x _ => rfl⟩
  refine ⟨map, hmap, hm.keys, fun x hx => ?_⟩
  obtain ⟨work, hget⟩ := Option.isSome_iff_exists.mp ((hm.total x).mp hx)
  have hwork := hm.work x ((hm.keys x).mp hx).1
  rw [hget, Option.getD_some] at hwork
  rw [hget, hwork]

/-! ## §3. The weights. -/

end CRegionManager.IsTree

/-- Weights are no links. -/
theorem CRegion.reweigh_parent (w : ℕ → Double) (region : CRegion) :
    (region.reweigh w).parent = region.parent := rfl

/-- Walks do not look at the weights. -/
theorem walkUp_reweigh (w : ℕ × ℕ → Double) (H : RegionMap) (stop : Option ℕ) :
    ∀ (fuel : ℕ) (target : Option ℕ),
      walkUp (reweigh w H) stop fuel target = walkUp H stop fuel target := by
  intro fuel
  induction fuel with
  | zero =>
      intro target
      rfl
  | succ fuel ih =>
      intro target
      unfold walkUp
      by_cases htarget : target = stop
      · rw [if_pos htarget, if_pos htarget]
      · rw [if_neg htarget, if_neg htarget]
        cases target with
        | none => rfl
        | some id =>
            cases hid : H.get id with
            | none => simp [reweigh, hid]
            | some region =>
                have hget : (reweigh w H).get id = some (region.reweigh fun d => w (id, d)) := by
                  simp [reweigh, hid]
                simp only [hget, hid, Option.bind_eq_bind, Option.bind_some, CRegion.reweigh_parent, ih]

/-- The cast is the same after a change of weights. -/
theorem asR_reweigh (w : ℕ → Double) (region : CRegion) :
    (region.reweigh w).asR = region.asR.map (CRegion.reweigh w) := by
  unfold CRegion.asR CRegion.reweigh
  by_cases hR : region.isR = true
  · rw [if_pos hR, if_pos hR]
    rfl
  · rw [if_neg hR, if_neg hR]
    rfl

/-- The work map does not look at the weights. -/
theorem addSinkWork_reweigh (w : ℕ × ℕ → Double) (H : RegionMap) (v : ℕ → Double) (A : CRegion)
    (fuel depth : ℕ) (map : KeyMap ℕ ℕ) (s : ℕ) :
    addSinkWork (reweigh w H) fuel (A.reweigh v) depth map s
      = addSinkWork H fuel A depth map s := by
  unfold addSinkWork
  cases hs : H.get s with
  | none => simp [reweigh, hs]
  | some S =>
      have hget : (reweigh w H).get s = some (S.reweigh fun d => w (s, d)) := by
        simp [reweigh, hs]
      simp only [hget, Option.bind_eq_bind, Option.bind_some, asR_reweigh]
      cases hR : S.asR with
      | none => rfl
      | some R =>
          simp only [Option.map_some, Option.bind_some, CRegion.reweigh_length,
            CRegion.reweigh_getStat, walkUp_reweigh]
          cases R.getStat depth <;> rfl

namespace CRegionManager.IsTree

variable {m : CRegionManager} {h : m.IsTree} {init : ℕ} {sinks : List ℕ} {A : CRegion}
  {depth x fuel : ℕ}

/-- What lies on a path is a `CRegionR` with the page. -/
theorem OnPath.region (hsinks : h.SinksOk init sinks) (hA : m.regionMap.get init = some A)
    (hx : h.OnPath init sinks depth x) :
    ∃ X, m.regionMap.get x = some X ∧ X.asR = some X ∧ depth < X.stats.length := by
  obtain ⟨hix, s, hs, hlt, hxs⟩ := hx
  obtain ⟨X, hX⟩ := exists_below hA hix
  have hle := hsinks.pages s hs x hix hxs
  rw [pages_eq hX] at hle
  exact ⟨X, hX, asR_of_isR (hsinks.cast x X hix hX), by omega⟩

/-- The share on a path. -/
theorem shareOf_of_onPath (hx : h.OnPath init sinks depth x) :
    h.shareOf init sinks (x, depth) = some ((Double.fin (h.sinkWork sinks depth x)).div
      (.fin (h.sinkWork sinks depth init))) :=
  if_pos hx

/-- Off the paths nothing is written. -/
theorem shareOf_of_not (hx : ¬ h.OnPath init sinks depth x) :
    h.shareOf init sinks (x, depth) = none :=
  if_neg hx

/-- The sinks may come in any order. -/
theorem onPath_perm {sinks' : List ℕ} (hperm : sinks'.Perm sinks) :
    h.OnPath init sinks' depth x ↔ h.OnPath init sinks depth x := by
  unfold OnPath
  simp only [hperm.mem_iff]

/-- The order of the sinks does not matter. -/
theorem sinkWork_perm {sinks' : List ℕ} (hperm : sinks'.Perm sinks) :
    h.sinkWork sinks' depth x = h.sinkWork sinks depth x :=
  (hperm.map _).sum_eq

/-- One page: every region on a path gets its share. -/
theorem setWeightsAtIn_eq (hsinks : h.SinksOk init sinks) (hA : m.regionMap.get init = some A)
    (hfuel : h.tree.bound + 2 ≤ fuel) (o : VisitOrder)
    (hdepth : h.OnPath init sinks depth init) (w : ℕ × ℕ → Double) :
    setWeightsAtIn o fuel init sinks (reweigh w m.regionMap) depth
      = some (reweigh (fun cell => (if cell.2 = depth then h.shareOf init sinks cell
          else none).getD (w cell)) m.regionMap) := by
  have hperm := o.perm (.sinks init depth) sinks
  have hvisit : h.SinksOk init (o.visit (.sinks init depth) sinks) :=
    ⟨fun s hs => hsinks.below s (hperm.mem_iff.mp hs), hsinks.cast,
      fun s hs => hsinks.pages s (hperm.mem_iff.mp hs)⟩
  obtain ⟨map, hmap, hkeys, hget⟩ := workMapOf_spec hvisit hA hfuel depth
  simp only [onPath_perm hperm, sinkWork_perm hperm] at hkeys hget
  have hA' : (reweigh w m.regionMap).get init = some (A.reweigh fun d => w (init, d)) :=
    congrArg (Option.map _) hA
  have htotal := hget init ((hkeys init).mpr hdepth)
  have hadd : addSinkWork (reweigh w m.regionMap) fuel (A.reweigh fun d => w (init, d)) depth
      = addSinkWork m.regionMap fuel A depth := by
    funext map s
    exact addSinkWork_reweigh w m.regionMap _ A fuel depth map s
  unfold setWeightsAtIn
  simp only [hA', hadd, hmap, htotal, Option.bind_eq_bind, Option.bind_some]
  -- each turn writes the cell of one region
  refine (foldlM_reweigh (f := fun x cell => if cell = (x, depth) then
    h.shareOf init sinks cell else none) (fun w' x hx => ?_) w).trans ?_
  · rw [o.mem_visit] at hx
    obtain ⟨X, hX, hXR, hlt⟩ := OnPath.region hsinks hA ((hkeys x).mp hx)
    have hX' : (reweigh w' m.regionMap).get x = some (X.reweigh fun d => w' (x, d)) :=
      congrArg (Option.map _) hX
    simp only [hget x hx, hX', asR_reweigh, hXR, Option.map_some, Option.bind_some,
      CRegion.reweigh_setWeight (fun d => w' (x, d)) X hlt,
      put_reweigh hX (h.mem_keys.mpr ⟨X, hX⟩)]
    congr 2
    funext cell
    obtain ⟨y, d⟩ := cell
    by_cases hy : y = x
    · subst hy
      by_cases hd : d = depth
      · subst hd
        simp [shareOf_of_onPath ((hkeys y).mp hx)]
      · simp [hd]
    · simp [hy]
  · congr 2
    funext cell
    obtain ⟨y, d⟩ := cell
    by_cases hd : d = depth
    · subst hd
      rw [if_pos rfl]
      by_cases hy : h.OnPath init sinks d y
      · rw [shareOf_of_onPath hy, Option.getD_some]
        refine overlay_of_some ⟨y, o.mem_visit.mpr ((hkeys y).mpr hy), ?_⟩ (fun x _ u hu => ?_) w
        · rw [if_pos rfl, shareOf_of_onPath hy]
        · split at hu
          · rw [shareOf_of_onPath hy] at hu
            exact (Option.some.inj hu).symm
          · cases hu
      · rw [shareOf_of_not hy, Option.getD_none]
        refine overlay_of_none (fun x _ => ?_) w
        rw [shareOf_of_not hy, ite_self]
    · rw [if_neg hd, Option.getD_none]
      have hnone : ∀ x, (if (y, d) = (x, depth) then h.shareOf init sinks (y, d) else none) = none := by
        intro x
        rw [if_neg]
        intro heq
        exact hd (congrArg Prod.snd heq)
      refine overlay_of_none (fun x _ => ?_) w
      exact hnone x

/-- The loop over the pages goes as far as some sink has one. -/
theorem maxSize_eq (hsinks : h.SinksOk init sinks) (w : ℕ × ℕ → Double) :
    ∃ maxSize, sinks.foldlM (fun maxSize s => do
        let region ← (reweigh w m.regionMap).get s
        let current ← region.asR
        some (if current.stats.length > maxSize then current.stats.length else maxSize)) 0
          = some maxSize ∧
      ∀ depth, depth < maxSize ↔ ∃ s ∈ sinks, depth < m.pages s := by
  refine foldlM_done (fun past maxSize =>
    ∀ depth, depth < maxSize ↔ ∃ s ∈ past, depth < m.pages s) sinks ?_ (by simp)
  intro past s rest maxSize heq hmax
  obtain ⟨p, hp, hip⟩ := hsinks.below s (by rw [heq]; simp)
  obtain ⟨S, hS, -⟩ := exists_of_parent hp
  have hSR : S.asR = some S := asR_of_isR (hsinks.cast s S (hip.tail hp) hS)
  have hS' : (reweigh w m.regionMap).get s = some (S.reweigh fun d => w (s, d)) :=
    congrArg (Option.map _) hS
  simp only [hS', asR_reweigh, hSR, Option.map_some, Option.bind_eq_bind, Option.bind_some,
    CRegion.reweigh_length]
  refine ⟨_, rfl, fun depth => ?_⟩
  simp only [List.mem_append, List.mem_singleton, or_and_right, exists_or, exists_eq_left,
    pages_eq hS, ← hmax]
  split <;> omega

/-- **One call writes the shares**, whatever the order of its loops. -/
theorem setRecursionWeightIn_shares (hsinks : h.SinksOk init sinks)
    (hA : m.regionMap.get init = some A) (hfuel : h.tree.bound + 2 ≤ fuel) (o : VisitOrder)
    (w : ℕ × ℕ → Double) :
    setRecursionWeightIn o fuel (reweigh w m.regionMap) init sinks
      = some (reweigh (fun cell => (h.shareOf init sinks cell).getD (w cell)) m.regionMap) := by
  have hperm := o.perm (.maxSize init) sinks
  have hvisit : h.SinksOk init (o.visit (.maxSize init) sinks) :=
    ⟨fun s hs => hsinks.below s (hperm.mem_iff.mp hs), hsinks.cast,
      fun s hs => hsinks.pages s (hperm.mem_iff.mp hs)⟩
  obtain ⟨maxSize, hmax, hreach⟩ := maxSize_eq hvisit w
  simp only [hperm.mem_iff] at hreach
  have hinit : ∀ depth, depth < maxSize → h.OnPath init sinks depth init := by
    intro depth hlt
    obtain ⟨s, hs, hpage⟩ := (hreach depth).mp hlt
    exact ⟨Forest.Anc.refl _, s, hs, hpage, hsinks.below s hs⟩
  unfold setRecursionWeightIn
  simp only [Option.bind_eq_bind] at hmax ⊢
  rw [hmax, Option.bind_some]
  refine (foldlM_reweigh (f := fun depth cell =>
    if cell.2 = depth then h.shareOf init sinks cell else none) (fun w' depth hdepth => ?_)
    w).trans ?_
  · exact setWeightsAtIn_eq hsinks hA hfuel o (hinit depth (List.mem_range.mp hdepth)) w'
  · congr 2
    funext cell
    obtain ⟨x, d⟩ := cell
    by_cases hx : h.OnPath init sinks d x
    · rw [shareOf_of_onPath hx, Option.getD_some]
      -- a page that is written is one of the pages counted
      have hlt : d < maxSize := by
        obtain ⟨-, s, hs, hpage, -⟩ := hx
        exact (hreach d).mpr ⟨s, hs, hpage⟩
      refine overlay_of_some ⟨d, List.mem_range.mpr hlt, ?_⟩ (fun depth _ u hu => ?_) w
      · rw [if_pos rfl, shareOf_of_onPath hx]
      · split at hu
        · rw [shareOf_of_onPath hx] at hu
          exact (Option.some.inj hu).symm
        · cases hu
    · rw [shareOf_of_not hx, Option.getD_none]
      refine overlay_of_none (fun depth _ => ?_) w
      rw [shareOf_of_not hx, ite_self]

/-! ## §4. The shares along the tree. -/

/-- The work of all sinks on page `depth`. -/
def totalSinkWork (m : CRegionManager) (sinks : List ℕ) (depth : ℕ) : ℕ :=
  (sinks.map (m.workAt depth)).sum

/-- All sinks lie below the init. -/
theorem sinkWork_init (hsinks : h.SinksOk init sinks) (depth : ℕ) :
    h.sinkWork sinks depth init = totalSinkWork m sinks depth := by
  classical
  unfold sinkWork FiniteTree.loadBelow totalSinkWork
  refine congrArg List.sum (List.map_congr_left fun s hs => ?_)
  exact if_pos (hsinks.below s hs)

/-- On a path there is work. -/
theorem sinkWork_pos (hwork : ∀ s ∈ sinks, ∀ depth < m.pages s, 0 < m.workAt depth s)
    (hx : h.OnPath init sinks depth x) : 0 < h.sinkWork sinks depth x := by
  obtain ⟨-, s, hs, hlt, hxs⟩ := hx
  exact FiniteTree.loadBelow_pos hs hxs (hwork s hs depth hlt)

/-- Below a region on no path there is no work on the page. -/
theorem sinkWork_eq_zero (hix : h.tree.Anc init x) (hx : ¬ h.OnPath init sinks depth x) :
    h.sinkWork sinks depth x = 0 := by
  refine FiniteTree.loadBelow_eq_zero fun s hs hxs => workAt_eq_zero ?_
  by_contra hlt
  exact hx ⟨hix, s, hs, Nat.lt_of_not_le hlt, hxs⟩

/-- The work of the sinks whose parent is `x`. -/
theorem loadAt_eq (load : ℕ → ℕ) (sinks : List ℕ) (x : ℕ) :
    h.tree.loadAt load sinks x = ((sinks.filter fun s => m.parentOf s = some x).map load).sum := by
  unfold FiniteTree.loadAt
  induction sinks with
  | nil => rfl
  | cons s sinks ih =>
      rw [List.map_cons, List.sum_cons, ih]
      rw [tree_parent]
      by_cases hs : m.parentOf s = some x
      · rw [if_pos hs, List.filter_cons_of_pos (by simpa using hs), List.map_cons, List.sum_cons]
      · rw [if_neg hs, List.filter_cons_of_neg (by simpa using hs), Nat.zero_add]

open Classical in
/-- **The work below a region** is that below its children on paths and that of
its own direct sinks. -/
theorem sinkWork_eq (hix : h.tree.Anc init x) (sinks : List ℕ) (depth : ℕ) :
    h.sinkWork sinks depth x
      = ∑ c ∈ h.tree.children x with h.OnPath init sinks depth c, h.sinkWork sinks depth c
        + ((sinks.filter fun s => m.parentOf s = some x).map (m.workAt depth)).sum := by
  rw [← loadAt_eq (h := h)]
  unfold sinkWork
  rw [FiniteTree.loadBelow_eq]
  congr 1
  refine (Finset.sum_filter_of_ne fun c hc hne => ?_).symm
  by_contra hoff
  exact hne (sinkWork_eq_zero (hix.trans (FiniteTree.anc_of_child hc)) hoff)

/-- The share of `x` in the work of all sinks. -/
noncomputable def sinkShare (h : m.IsTree) (sinks : List ℕ) (depth x : ℕ) : ℚ :=
  (h.sinkWork sinks depth x : ℚ) / totalSinkWork m sinks depth

open Classical in
/-- **The shares add up along the tree.** -/
theorem sinkShare_eq (hix : h.tree.Anc init x) (sinks : List ℕ) (depth : ℕ) :
    sinkShare h sinks depth x
      = ∑ c ∈ h.tree.children x with h.OnPath init sinks depth c, sinkShare h sinks depth c
        + ((sinks.filter fun s => m.parentOf s = some x).map fun s =>
            (m.workAt depth s : ℚ) / totalSinkWork m sinks depth).sum := by
  have hdirect : ∀ xs : List ℕ, (((xs.map (m.workAt depth)).sum : ℕ) : ℚ)
      / totalSinkWork m sinks depth
      = (xs.map fun s => (m.workAt depth s : ℚ) / totalSinkWork m sinks depth).sum := by
    intro xs
    induction xs with
    | nil => simp
    | cons s xs ih => rw [List.map_cons, List.sum_cons, List.map_cons, List.sum_cons, ← ih,
        Nat.cast_add, add_div]
  unfold sinkShare
  rw [sinkWork_eq hix, Nat.cast_add, Nat.cast_sum, add_div, Finset.sum_div, hdirect]

/-- Every page has a weight. -/
theorem weightAt_eq {X : CRegion} (hX : m.regionMap.get x = some X)
    (hlt : depth < X.stats.length) : (weightAt m.regionMap x depth).isSome := by
  unfold weightAt CRegion.getStat
  simp [hX, hlt]

open Classical in
/-- **Recursion weights are shares of sink work.**  With enough fuel, and
whatever the order of its loops, one call gives each region on a path from a
sink up to the init the part of all sinks' work on the page that lies below it.
The init gets 1, every weight given is in `(0, 1]`, and the weight of a region is
that of its children on paths plus the shares of its direct sinks.  A region
below the init that is on no path of the page has none of that work below it and
keeps its weight. -/
theorem recursion_weights_are_shares (m : CRegionManager) (h : m.IsTree) (init : ℕ)
    (hinit : ∃ A, m.regionMap.get init = some A ∧ A.type = .recInit) (sinks : List ℕ)
    (hsinks : h.SinksOk init sinks)
    (hwork : ∀ s ∈ sinks, ∀ depth < m.pages s, 0 < m.workAt depth s) :
    ∃ enough, ∀ fuel ≥ enough, ∀ o : VisitOrder, ∃ regionMap,
      setRecursionWeightIn o fuel m.regionMap init sinks = some regionMap ∧
      ∀ depth, (∃ s ∈ sinks, depth < m.pages s) →
        ∃ w : ℕ → ℚ, h.OnPath init sinks depth init ∧ w init = 1 ∧
          (∀ x, h.OnPath init sinks depth x →
            weightAt regionMap x depth = some (.fin (w x)) ∧
            w x = (h.sinkWork sinks depth x : ℚ) / totalSinkWork m sinks depth ∧
            0 < w x ∧ w x ≤ 1 ∧
            w x = ∑ c ∈ h.tree.children x with h.OnPath init sinks depth c, w c
              + ((sinks.filter fun s => m.parentOf s = some x).map fun s =>
                  (m.workAt depth s : ℚ) / totalSinkWork m sinks depth).sum) ∧
          ∀ x, h.tree.Anc init x → ¬ h.OnPath init sinks depth x →
            h.sinkWork sinks depth x = 0 ∧
              weightAt regionMap x depth = weightAt m.regionMap x depth := by
  obtain ⟨A, hA, -⟩ := hinit
  refine ⟨h.tree.bound + 2, fun fuel hfuel o => ?_⟩
  have hcall := setRecursionWeightIn_shares hsinks hA hfuel o (weightsOf m.regionMap)
  rw [reweigh_weightsOf] at hcall
  refine ⟨_, hcall, fun depth hdepth => ⟨sinkShare h sinks depth, ?_, ?_, fun x hx => ?_,
    fun x hix hx => ⟨sinkWork_eq_zero hix hx, ?_⟩⟩⟩
  · obtain ⟨s, hs, hlt⟩ := hdepth
    exact ⟨Forest.Anc.refl _, s, hs, hlt, hsinks.below s hs⟩
  · obtain ⟨s, hs, hlt⟩ := hdepth
    have hpos := sinkWork_pos hwork
      (⟨Forest.Anc.refl _, s, hs, hlt, hsinks.below s hs⟩ : h.OnPath init sinks depth init)
    unfold sinkShare
    rw [sinkWork_init hsinks] at hpos ⊢
    exact div_self (Nat.cast_ne_zero.mpr hpos.ne')
  · obtain ⟨X, hX, -, hlt⟩ := hx.region hsinks hA
    have hpos := sinkWork_pos hwork hx
    -- the sinks below the region are among all sinks
    have hle : h.sinkWork sinks depth x ≤ totalSinkWork m sinks depth := by
      rw [← sinkWork_init hsinks]
      exact FiniteTree.loadBelow_le hx.1
    have htotal : (0 : ℚ) < totalSinkWork m sinks depth := by
      exact_mod_cast Nat.lt_of_lt_of_le hpos hle
    obtain ⟨before, hbefore⟩ := Option.isSome_iff_exists.mp (weightAt_eq hX hlt)
    refine ⟨?_, rfl, ?_, ?_, sinkShare_eq hx.1 sinks depth⟩
    · rw [weightAt_reweigh, hbefore, shareOf_of_onPath hx, sinkWork_init hsinks,
        Double.fin_div htotal.ne']
      rfl
    · exact div_pos (by exact_mod_cast hpos) htotal
    · rw [sinkShare, div_le_one htotal]
      exact_mod_cast hle
  · rw [weightAt_reweigh, shareOf_of_not hx, Option.getD_none]
    cases hold : weightAt m.regionMap x depth with
    | none => rfl
    | some v =>
        unfold weightsOf
        rw [hold]
        rfl

/-- One page with the given work. -/
def pageOf (work : ℕ) : CRegionStat := ⟨1, work, work, work, 0, 0, 0, 0, 0, .fin 0⟩

/-- A recursive `main` that calls itself, and once more through a function. -/
def recursiveMain : CRegionManager where
  regionMap :=
    { keys := [1, 2, 3, 4]
      get := fun
        | 1 => some ⟨1, .recInit, true, [pageOf 100, pageOf 60, pageOf 10], none, none, [2, 4], 1⟩
        | 2 => some ⟨2, .recNorm, true, [pageOf 20], none, some 1, [3], 1⟩
        | 3 => some ⟨3, .recSink, true, [pageOf 10], some 1, some 2, [], 1⟩
        | 4 => some ⟨4, .recSink, true, [pageOf 30, pageOf 5], some 1, some 1, [], 1⟩
        | _ => none }
  root := 1

/-- The example is a tree. -/
theorem recursiveMain_isTree : recursiveMain.IsTree where
  total k := by
    match k with
    | 0 | 1 | 2 | 3 | 4 => decide
    | k + 5 => simp [recursiveMain]
  child q Q hQ := by
    match q, hQ with
    | 1, hQ | 2, hQ | 3, hQ | 4, hQ =>
        cases hQ
        decide
  parent c q hq := by
    match c, hq with
    | 2, hq | 3, hq | 4, hq =>
        cases hq
        exact ⟨_, rfl, by decide⟩
  nodup q Q hQ := by
    match q, hQ with
    | 1, hQ | 2, hQ | 3, hQ | 4, hQ =>
        cases hQ
        decide
  root := by decide
  single := by decide
  acyclic := by
    refine ⟨id, fun c q hq => ?_⟩
    match c, hq with
    | 2, hq | 3, hq | 4, hq =>
        cases hq
        decide

/-- Its two sinks are below the init. -/
theorem recursiveMain_sinksOk : recursiveMain_isTree.SinksOk 1 [3, 4] where
  below s hs := by
    rcases List.mem_pair.mp hs with rfl | rfl
    · exact ⟨2, rfl, ReflTransGen.single rfl⟩
    · exact ⟨1, rfl, ReflTransGen.refl⟩
  cast x X _ hX := by
    match x, hX with
    | 1, hX | 2, hX | 3, hX | 4, hX =>
        cases hX
        rfl
  pages s hs x _ hxs := by
    obtain ⟨p, hp, hxp⟩ := hxs
    rcases List.mem_pair.mp hs with rfl | rfl
    · obtain rfl : 2 = p := Option.some.inj hp
      rcases hxp.cases_parent (p := 1) rfl with rfl | hx
      · decide
      · rw [hx.eq_of_root rfl]
        decide
    · obtain rfl : 1 = p := Option.some.inj hp
      rw [hxp.eq_of_root rfl]
      decide

open Classical in
/-- The weights of the example, with two sinks. -/
theorem recursion_weights_are_shares_main :
    ∃ enough, ∀ fuel ≥ enough, ∀ o : VisitOrder, ∃ regionMap,
      setRecursionWeightIn o fuel recursiveMain.regionMap 1 [3, 4] = some regionMap ∧
      ∀ depth, (∃ s ∈ [3, 4], depth < recursiveMain.pages s) →
        ∃ w : ℕ → ℚ, recursiveMain_isTree.OnPath 1 [3, 4] depth 1 ∧ w 1 = 1 ∧
          (∀ x, recursiveMain_isTree.OnPath 1 [3, 4] depth x →
            weightAt regionMap x depth = some (.fin (w x)) ∧
            w x = (recursiveMain_isTree.sinkWork [3, 4] depth x : ℚ)
              / totalSinkWork recursiveMain [3, 4] depth ∧
            0 < w x ∧ w x ≤ 1 ∧
            w x = ∑ c ∈ recursiveMain_isTree.tree.children x
                with recursiveMain_isTree.OnPath 1 [3, 4] depth c, w c
              + (([3, 4].filter fun s => recursiveMain.parentOf s = some x).map fun s =>
                  (recursiveMain.workAt depth s : ℚ)
                    / totalSinkWork recursiveMain [3, 4] depth).sum) ∧
          ∀ x, recursiveMain_isTree.tree.Anc 1 x → ¬ recursiveMain_isTree.OnPath 1 [3, 4] depth x →
            recursiveMain_isTree.sinkWork [3, 4] depth x = 0 ∧
              weightAt regionMap x depth = weightAt recursiveMain.regionMap x depth :=
  recursion_weights_are_shares recursiveMain recursiveMain_isTree 1 ⟨_, rfl, rfl⟩ [3, 4]
    recursiveMain_sinksOk (by decide)

/-- On the first page the function has a quarter of the work of the sinks. -/
example : (setRecursionWeight 5 recursiveMain.regionMap 1 [3, 4]).map (fun regionMap =>
    [(1, 0), (2, 0), (1, 1)].map fun cell => weightAt regionMap cell.1 cell.2)
      = some [some (.fin 1), some (.fin (1 / 4)), some (.fin 1)] := by
  decide +kernel

end CRegionManager.IsTree

end Kremlin.Planner
