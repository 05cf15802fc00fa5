/-
  Kremlin.Planner.RecursionWeight — the planner accepts every runtime tree.

  `calculateRecursiveWeight` walks from the parent of each sink up to the
  sink's target and needs page `depth` of every region it passes, for every
  page the sink has.  That is what `PathPages` gives.  Whatever the order of
  its loops, the pass of one init writes the shares of that init
  (`setRecursionWeightIn_spec`), and the passes write one over the other
  (`calculateRecursiveWeightIn_spec`).

  The main result, `planner_accepts`, states the page bounds and the planner's
  success for every tree a nested run can build.
-/
import Kremlin.Planner.InitSinks

namespace Kremlin.Planner

open Kremlin.Library Kremlin.Runtime Relation

variable {t : RegionTree} {r : NodeRef} {L : List NodeRef}

/-! ## §1. Walking up from a sink. -/

/-- **The walk from a node at or below `a` ends above `a`**: it has passed what
lies between, each once. -/
theorem walkUp_spec (hs : Subtree t r L) (h : Handed t) {H : RegionMap} (hl : Linked t r L H)
    {a : NodeRef} (ha : a ∈ L) {A : CRegion} (hA : H.get (uid t a) = some A)
    (hAok : RegionOk t L a A) :
    ∀ {fuel : ℕ} {p : NodeRef}, p ∈ L → t.Anc a p → p + 2 ≤ fuel →
      ∃ path, walkUp H A.parent fuel (some (uid t p)) = some path ∧ path.Nodup ∧
        ∀ x, x ∈ path ↔ ∃ y, uid t y = x ∧ t.Anc a y ∧ t.Anc y p
  | 0, p, _, _, hfuel => absurd hfuel (Nat.not_succ_le_zero _)
  | fuel + 1, p, hp, hap, hfuel => by
      -- the walk stops above the init, which no node below it is
      have hstop : some (uid t p) ≠ A.parent := by
        intro heq
        obtain ⟨q, hq, haq, hx⟩ := hAok.parent _ heq.symm
        obtain rfl := hs.uid_inj h hp hq hx
        exact Forest.not_anc_parent (F := h.disc.shape.forest) haq hap
      by_cases hpa : p = a
      · subst hpa
        refine ⟨[uid t p], ?_, by simp, fun x => ?_⟩
        · have hnil : walkUp H A.parent fuel A.parent = some [] := by
            match fuel, hfuel with
            | fuel + 1, _ =>
                unfold walkUp
                rw [if_pos rfl]
          unfold walkUp
          rw [if_neg hstop]
          simp only [Option.bind_eq_bind, Option.bind_some, hA, hnil]
        · rw [List.mem_singleton]
          constructor
          · rintro rfl
            exact ⟨p, rfl, ReflTransGen.refl, ReflTransGen.refl⟩
          · rintro ⟨y, rfl, hpy, hyp⟩
            rw [Forest.Anc.antisymm (F := h.disc.shape.forest) hpy hyp]
      · have hpr : p ≠ r := by
          rintro rfl
          exact hpa (Forest.Anc.antisymm (F := h.disc.shape.forest) ((hs.mem a).mp ha) hap)
        obtain ⟨P, q, hP, hq, hPq⟩ := hl.parent p hp hpr
        have haq : t.Anc a q := by
          rcases Forest.Anc.cases_parent (F := h.disc.shape.forest) hap hq with heq | haq
          · exact absurd heq.symm hpa
          · exact haq
        have hqp : q + 1 ≤ p := h.disc.shape.parent_lt hq
        obtain ⟨path, hpath, hnd, hmem⟩ := walkUp_spec hs h hl ha hA hAok
          (hs.parent_mem hp hpr hq) haq
          (Nat.le_trans (Nat.add_le_add_right hqp 1) (Nat.le_of_succ_le_succ hfuel))
        refine ⟨uid t p :: path, ?_, List.nodup_cons.mpr ⟨?_, hnd⟩, fun x => ?_⟩
        · unfold walkUp
          rw [if_neg hstop]
          simp only [Option.bind_eq_bind, Option.bind_some, hP, hPq, hpath]
        · -- what the rest of the walk passes lies above `p`
          intro hx
          obtain ⟨y, hy, hay, hyq⟩ := (hmem _).mp hx
          obtain rfl := hs.uid_inj h (hs.mem_of_anc ha hay) hp hy
          exact Forest.not_anc_parent (F := h.disc.shape.forest) hq hyq
        · rw [List.mem_cons, hmem]
          constructor
          · rintro (rfl | ⟨y, hy, hay, hyq⟩)
            · exact ⟨p, rfl, hap, ReflTransGen.refl⟩
            · exact ⟨y, hy, hay, hyq.tail hq⟩
          · rintro ⟨y, hy, hay, hyp⟩
            rcases Forest.Anc.cases_parent (F := h.disc.shape.forest) hyp hq with rfl | hyq
            · exact Or.inl hy.symm
            · exact Or.inr ⟨y, hy, hay, hyq⟩

/-! ## §2. The work map. -/

/-- The sinks `past` have been added to the work map of `a`. -/
structure WorkMap (t : RegionTree) (L : List NodeRef) (a : NodeRef) (depth : ℕ) (past : List ℕ)
    (map : KeyMap ℕ ℕ) : Prop where
  total : map.Total
  keys : ∀ y ∈ L, uid t y ∈ map.keys ↔
    t.Anc a y ∧ ∃ s ∈ past, depth < t.pages (nodeOf s) ∧ y ∈ above t (nodeOf s)
  known : ∀ x ∈ map.keys, ∃ y ∈ L, uid t y = x
  work : ∀ y ∈ L, t.Anc a y → (map.get (uid t y)).getD 0
    = (past.map fun s => if y ∈ above t (nodeOf s) then pageWork t (nodeOf s) depth else 0).sum

/-- The sinks of `a`, as a list of uids. -/
def SinkUids (t : RegionTree) (L : List NodeRef) (a : NodeRef) (sinks : List ℕ) : Prop :=
  (sinks.map nodeOf).Perm (sinksOf t L a)

/-- A uid of the list belongs to a sink of the init. -/
theorem SinkUids.mem (hs : Subtree t r L) (h : Handed t) {a : NodeRef} {sinks : List ℕ}
    (hsinks : SinkUids t L a sinks) {x : ℕ} (hx : x ∈ sinks) :
    ∃ s ∈ L, uid t s = x ∧ (t.node s).recursion = some a := by
  obtain ⟨hmem, hrec⟩ := mem_sinksOf.mp (hsinks.mem_iff.mp (List.mem_map_of_mem hx))
  exact ⟨nodeOf x, hmem, uid_nodeOf hs h hmem, hrec⟩

/-- The region of a sink. -/
theorem sink_region (hs : Subtree t r L) (h : Handed t) {H : RegionMap} (hl : Linked t r L H)
    {s a : NodeRef} (hsL : s ∈ L) (hrec : (t.node s).recursion = some a) :
    ∃ S, H.get (uid t s) = some S ∧ RegionOk t L s S ∧ S.asR = some S := by
  obtain ⟨S, hS, hSok⟩ := hl.built.node s hsL
  obtain ⟨-, -, p, hp, hap⟩ := hs.target_mem h hsL hrec
  exact ⟨S, hS, hSok, asR_of_isR (hSok.isR (not_noInit_of_target hs h hsL hrec (hap.tail hp)))⟩

/-- A page that exists has the work of the node's page. -/
theorem RegionOk.getStat_work {c : NodeRef} {region : CRegion} (hok : RegionOk t L c region)
    {depth : ℕ} (hlt : depth < t.pages c) :
    ∃ stat, region.getStat depth = some stat ∧ stat.work = pageWork t c depth := by
  have hpage : (t.node c).stats[depth]? = some _ := List.getElem?_eq_getElem hlt
  obtain ⟨stat, hstat, hrecord⟩ := hok.getStat hpage
  refine ⟨stat, hstat, ?_⟩
  unfold pageWork
  rw [hpage]
  exact congrArg CRegionStat.work hrecord

/-- One sink more. -/
theorem addSinkWork_spec (hs : Subtree t r L) (h : Handed t) {H : RegionMap}
    (hl : Linked t r L H) {fuel : ℕ} (hfuel : t.size + 1 ≤ fuel) {a : NodeRef} (ha : a ∈ L)
    {A : CRegion} (hA : H.get (uid t a) = some A) (hAok : RegionOk t L a A) {depth : ℕ}
    {past : List ℕ} {map : KeyMap ℕ ℕ} (hm : WorkMap t L a depth past map) {s : NodeRef}
    (hsL : s ∈ L) (hrec : (t.node s).recursion = some a) :
    ∃ map', addSinkWork H fuel A depth map (uid t s) = some map' ∧
      WorkMap t L a depth (past ++ [uid t s]) map' := by
  have hnode := nodeOf_uid hs h hsL
  obtain ⟨S, hS, hSok, hSR⟩ := sink_region hs h hl hsL hrec
  unfold addSinkWork
  simp only [hS, hSR, Option.bind_eq_bind, Option.bind_some, hSok.stats]
  by_cases hd : t.pages s ≤ depth
  · rw [if_pos hd]
    refine ⟨map, rfl, hm.total, fun y hy => ?_, hm.known, fun y hy hay => ?_⟩
    · rw [hm.keys y hy]
      simp only [List.mem_append, List.mem_singleton, or_and_right, exists_or, exists_eq_left,
        hnode, Nat.not_lt_of_le hd, false_and, or_false]
    · have hzero : pageWork t s depth = 0 := by
        unfold pageWork
        rw [List.getElem?_eq_none hd]
        rfl
      rw [hm.work y hy hay, List.map_append, List.sum_append]
      simp [hnode, hzero]
  · rw [if_neg hd]
    have hdlt : depth < t.pages s := Nat.lt_of_not_le hd
    obtain ⟨-, -, p, hp, hap⟩ := hs.target_mem h hsL hrec
    have hsr : s ≠ r := by
      rintro rfl
      refine Forest.not_anc_parent (F := h.disc.shape.forest) hp ?_
      exact Forest.Anc.trans (F := h.disc.shape.forest) ((hs.mem a).mp ha) hap
    have hpL := hs.parent_mem hsL hsr hp
    -- the sink's own pointer to its parent starts the walk
    obtain ⟨S', q, hS', hq, hSq⟩ := hl.parent s hsL hsr
    obtain rfl := Option.some.inj (hS.symm.trans hS')
    obtain rfl := Option.some.inj (hp.symm.trans hq)
    obtain ⟨path, hpath, hnd, hmem⟩ := walkUp_spec hs h hl ha hA hAok
      hpL hap (Nat.le_trans (Nat.succ_le_succ (hs.lt_size h hpL)) hfuel)
    have hon : ∀ y ∈ L, uid t y ∈ path ↔ t.Anc a y ∧ y ∈ above t s := by
      intro y hy
      rw [hmem, mem_above h.disc.shape]
      constructor
      · rintro ⟨z, hz, haz, hzp⟩
        obtain rfl := hs.uid_inj h (hs.mem_of_anc ha haz) hy hz
        exact ⟨haz, _, hp, hzp⟩
      · rintro ⟨hay, p', hp', hyp⟩
        obtain rfl := Option.some.inj (hp.symm.trans hp')
        exact ⟨y, rfl, hay, hyp⟩
    obtain ⟨stat, hstat, hwork⟩ := hSok.getStat_work hdlt
    simp only [hstat, hSq, hpath, Option.bind_some]
    obtain ⟨htotal, hadd⟩ := addPath_spec stat.work path hm.total hnd
    refine ⟨_, rfl, htotal, fun y hy => ?_, fun x hx => ?_, fun y hy hay => ?_⟩
    · rw [(hadd _).1, hm.keys y hy, hon y hy]
      simp only [List.mem_append, List.mem_singleton, or_and_right, exists_or, exists_eq_left,
        hnode, hdlt, true_and, and_or_left]
    · rcases ((hadd x).1).mp hx with hx | hx
      · exact hm.known x hx
      · obtain ⟨y, hy, hay, -⟩ := (hmem x).mp hx
        exact ⟨y, hs.mem_of_anc ha hay, hy⟩
    · rw [(hadd _).2, hm.work y hy hay, List.map_append, List.sum_append, hwork]
      simp [hnode, hon y hy, hay]

/-- **The work map of one page**, whatever the order of the sinks. -/
theorem workMap_spec (hs : Subtree t r L) (h : Handed t) {H : RegionMap} (hl : Linked t r L H)
    {fuel : ℕ} (hfuel : t.size + 1 ≤ fuel) {a : NodeRef} (ha : a ∈ L) {A : CRegion}
    (hA : H.get (uid t a) = some A) (hAok : RegionOk t L a A) (depth : ℕ) {sinks : List ℕ}
    (hsinks : SinkUids t L a sinks) :
    ∃ map, sinks.foldlM (addSinkWork H fuel A depth) KeyMap.empty = some map ∧
      (∀ x, x ∈ map.keys ↔ OnWay t L a (nodeOf x) depth) ∧
      ∀ x ∈ map.keys, map.get x = some (workBelow t L a (nodeOf x) depth) := by
  obtain ⟨map, hmap, hm⟩ := foldlM_done (f := addSinkWork H fuel A depth)
    (WorkMap t L a depth) sinks (s := KeyMap.empty)
    (by
      intro past x rest map heq hm
      obtain ⟨s, hsL, rfl, hrec⟩ := hsinks.mem hs h (x := x) (by rw [heq]; simp)
      exact addSinkWork_spec hs h hl hfuel ha hA hAok hm hsL hrec)
    ⟨KeyMap.total_empty, fun y _ => by simp [KeyMap.empty], fun x hx => absurd hx List.not_mem_nil,
      fun y _ _ => rfl⟩
  -- the loop goes over uids, the path over nodes
  have hkey : ∀ y ∈ L, uid t y ∈ map.keys ↔ OnWay t L a y depth := by
    intro y hy
    rw [hm.keys y hy, onWay_iff h.disc.shape]
    refine and_congr_right fun _ => ?_
    constructor
    · rintro ⟨s, hmem, hlt, hys⟩
      exact ⟨nodeOf s, hsinks.mem_iff.mp (List.mem_map_of_mem hmem), hlt,
        (mem_above h.disc.shape).mp hys⟩
    · rintro ⟨s, hmem, hlt, hys⟩
      obtain ⟨x, hx, rfl⟩ := List.mem_map.mp (hsinks.mem_iff.mpr hmem)
      exact ⟨x, hx, hlt, (mem_above h.disc.shape).mpr hys⟩
  refine ⟨map, hmap, fun x => ⟨fun hx => ?_, fun hx => ?_⟩, fun x hx => ?_⟩
  · obtain ⟨y, hy, rfl⟩ := hm.known x hx
    rw [nodeOf_uid hs h hy]
    exact (hkey y hy).mp hx
  · have hxL := (hx.page hs h).1
    rw [← uid_nodeOf hs h hxL]
    exact (hkey _ hxL).mpr hx
  · obtain ⟨y, hy, rfl⟩ := hm.known x hx
    obtain ⟨work, hget⟩ := Option.isSome_iff_exists.mp ((hm.total _).mp hx)
    have hwork := hm.work y hy ((hm.keys y hy).mp hx).1
    rw [hget, Option.getD_some] at hwork
    rw [hget, hwork, nodeOf_uid hs h hy]
    unfold workBelow
    rw [← (hsinks.map _).sum_eq, List.map_map]
    rfl

/-! ## §3. The weights of one init. -/

/-- One page: every region on the way gets its share. -/
theorem setWeightsAtIn_spec (hs : Subtree t r L) (h : Handed t) {H : RegionMap}
    (hl : Linked t r L H) {fuel : ℕ} (hfuel : t.size + 1 ≤ fuel) (o : VisitOrder) {a : NodeRef}
    (ha : a ∈ L) {sinks : List ℕ} (hsinks : SinkUids t L a sinks) {depth : ℕ}
    (hdepth : OnWay t L a a depth) (w : ℕ × ℕ → Double) :
    setWeightsAtIn o fuel (uid t a) sinks (reweigh w H) depth
      = some (reweigh (fun cell =>
          (if cell.2 = depth then weightFrom t L (uid t a) cell else none).getD (w cell)) H) := by
  obtain ⟨A, hA, hAok⟩ := (hl.reweigh w).built.node a ha
  have hperm : SinkUids t L a (o.visit (.sinks (uid t a) depth) sinks) :=
    ((o.perm _ sinks).map nodeOf).trans hsinks
  obtain ⟨map, hmap, hkeys, hget⟩ :=
    workMap_spec hs h (hl.reweigh w) hfuel ha hA hAok depth hperm
  have hnode := nodeOf_uid hs h ha
  have htotal := hget (uid t a) ((hkeys _).mpr (by rw [hnode]; exact hdepth))
  unfold setWeightsAtIn
  simp only [hA, hmap, htotal, Option.bind_eq_bind, Option.bind_some]
  refine (foldlM_reweigh (f := fun x cell => if cell = (x, depth) then
    weightFrom t L (uid t a) cell else none) (fun w' x hx => ?_) w).trans ?_
  · have hx := o.mem_visit.mp hx
    -- a region of the map is below the init and has the page
    have hway := (hkeys x).mp hx
    obtain ⟨hxL, -, hinit, hpage⟩ := hway.page hs h
    obtain ⟨X, hX, hXok⟩ := hl.built.node _ hxL
    rw [uid_nodeOf hs h hxL] at hX
    have hXR : (X.reweigh fun d => w' (x, d)).asR = some _ := asR_of_isR
      (hXok.isR fun hno => hno a ((onWay_iff h.disc.shape).mp hway).1 hinit)
    have hX' : (reweigh w' H).get x = some (X.reweigh fun d => w' (x, d)) :=
      congrArg (Option.map _) hX
    have hkey : x ∈ H.keys :=
      (hl.built.keys x).mpr ⟨nodeOf x, hxL, uid_nodeOf hs h hxL⟩
    have hlt : depth < X.stats.length := by
      rw [hXok.stats]
      exact hpage
    simp only [hget x hx, hX', hXR, Option.bind_some,
      CRegion.reweigh_setWeight (fun d => w' (x, d)) X hlt, put_reweigh hX hkey]
    congr 2
    funext cell
    obtain ⟨y, d⟩ := cell
    unfold weightFrom share
    by_cases hy : y = x
    · subst hy
      by_cases hd : d = depth
      · subst hd
        simp [hnode, hway]
      · simp [hd]
    · simp [hy]
  · congr 2
    funext cell
    by_cases hcell : cell.2 = depth ∧ OnWay t L a (nodeOf cell.1) depth
    · obtain ⟨hd, hway⟩ := hcell
      have hvalue : weightFrom t L (uid t a) cell = some (share t L a (nodeOf cell.1) depth) := by
        unfold weightFrom
        rw [hnode, hd, if_pos hway]
      rw [if_pos hd, hvalue, Option.getD_some]
      refine overlay_of_some ⟨cell.1, o.mem_visit.mpr ((hkeys _).mpr hway), ?_⟩
        (fun x _ u hu => ?_) w
      · have hcell : cell = (cell.1, depth) := Prod.ext (Eq.refl cell.1) hd
        rw [← hcell, if_pos (Eq.refl cell), hvalue]
      · by_cases hx : cell = (x, depth)
        · rw [if_pos hx, hvalue] at hu
          exact (Option.some.inj hu).symm
        · rw [if_neg hx] at hu
          cases hu
    · have hnone : (if cell.2 = depth then weightFrom t L (uid t a) cell else none) = none := by
        split
        · next hd =>
            unfold weightFrom
            rw [hnode, hd, if_neg fun hway => hcell ⟨hd, hway⟩]
        · rfl
      rw [hnone, Option.getD_none]
      refine overlay_of_none (fun x _ => ?_) w
      by_cases hx : cell = (x, depth)
      · rw [if_pos hx, ← hnone, if_pos (congrArg Prod.snd hx)]
      · exact if_neg hx

/-- The first loop finds the largest page count of a sink. -/
theorem maxSize_spec (hs : Subtree t r L) (h : Handed t) {H : RegionMap} (hl : Linked t r L H)
    {a : NodeRef} {sinks : List ℕ} (hsinks : SinkUids t L a sinks) :
    ∃ maxSize, sinks.foldlM (fun maxSize s => do
        let region ← H.get s
        let current ← region.asR
        some (if current.stats.length > maxSize then current.stats.length else maxSize)) 0
          = some maxSize ∧
      ∀ depth, depth < maxSize ↔ ∃ s ∈ sinks, depth < t.pages (nodeOf s) := by
  refine foldlM_done (fun past maxSize =>
    ∀ depth, depth < maxSize ↔ ∃ s ∈ past, depth < t.pages (nodeOf s)) sinks ?_ (by simp)
  intro past x rest maxSize heq hmax
  obtain ⟨s, hsL, rfl, hrec⟩ := hsinks.mem hs h (x := x) (by rw [heq]; simp)
  obtain ⟨S, hS, hSok, hSR⟩ := sink_region hs h hl hsL hrec
  simp only [hS, hSR, Option.bind_eq_bind, Option.bind_some, hSok.stats]
  refine ⟨_, rfl, fun depth => ?_⟩
  simp only [List.mem_append, List.mem_singleton, or_and_right, exists_or, exists_eq_left,
    nodeOf_uid hs h hsL, ← hmax]
  split <;> omega

/-- A page some sink has is on the way from `a` itself. -/
theorem onWay_self (hs : Subtree t r L) (h : Handed t) {a : NodeRef} {sinks : List ℕ}
    (hsinks : SinkUids t L a sinks) {depth : ℕ} :
    OnWay t L a a depth ↔ ∃ s ∈ sinks, depth < t.pages (nodeOf s) := by
  rw [onWay_iff h.disc.shape]
  constructor
  · rintro ⟨-, s, hmem, hlt, -⟩
    obtain ⟨x, hx, rfl⟩ := List.mem_map.mp (hsinks.mem_iff.mpr hmem)
    exact ⟨x, hx, hlt⟩
  · rintro ⟨x, hx, hlt⟩
    have hmem := hsinks.mem_iff.mp (List.mem_map_of_mem hx)
    obtain ⟨hsL, hrec⟩ := mem_sinksOf.mp hmem
    exact ⟨ReflTransGen.refl, nodeOf x, hmem, hlt, (hs.target_mem h hsL hrec).2.2⟩

/-- A region on the way to a sink is so because `a` is. -/
theorem OnWay.self (h : t.TreeShape) {a x : NodeRef} {depth : ℕ} (hw : OnWay t L a x depth) :
    OnWay t L a a depth := by
  rw [onWay_iff h] at hw ⊢
  obtain ⟨hax, s, hmem, hlt, p, hp, hxp⟩ := hw
  exact ⟨ReflTransGen.refl, s, hmem, hlt, p, hp, hax.trans hxp⟩

/-- **The pass of one init writes its shares**, whatever the order of its loops. -/
theorem setRecursionWeightIn_spec (hs : Subtree t r L) (h : Handed t) {H : RegionMap}
    (hl : Linked t r L H) {fuel : ℕ} (hfuel : t.size + 1 ≤ fuel) (o : VisitOrder) {a : NodeRef}
    (ha : a ∈ L) {sinks : List ℕ} (hsinks : SinkUids t L a sinks) (w : ℕ × ℕ → Double) :
    setRecursionWeightIn o fuel (reweigh w H) (uid t a) sinks
      = some (reweigh (fun cell => (weightFrom t L (uid t a) cell).getD (w cell)) H) := by
  have hperm : SinkUids t L a (o.visit (.maxSize (uid t a)) sinks) :=
    ((o.perm _ sinks).map nodeOf).trans hsinks
  obtain ⟨maxSize, hmax, hreach⟩ := maxSize_spec hs h (hl.reweigh w) hperm
  -- the loop runs over the pages that some sink has
  have hway : ∀ depth, depth < maxSize ↔ OnWay t L a a depth := fun depth =>
    (hreach depth).trans (onWay_self hs h hperm).symm
  unfold setRecursionWeightIn
  simp only [Option.bind_eq_bind] at hmax ⊢
  rw [hmax, Option.bind_some]
  refine (foldlM_reweigh (f := fun depth cell =>
    if cell.2 = depth then weightFrom t L (uid t a) cell else none) (fun w' depth hdepth => ?_)
    w).trans ?_
  · exact setWeightsAtIn_spec hs h hl hfuel o ha hsinks
      ((hway depth).mp (List.mem_range.mp hdepth)) w'
  · congr 2
    funext cell
    cases hcell : weightFrom t L (uid t a) cell with
    | none =>
        refine overlay_of_none (fun depth _ => ?_) w
        rw [hcell]
        exact ite_self _
    | some v =>
        rw [Option.getD_some]
        refine overlay_of_some ⟨cell.2, ?_, ?_⟩ (fun depth _ u hu => ?_) w
        · -- a page that is written is one of the pages counted
          unfold weightFrom at hcell
          split at hcell
          · next hon =>
              rw [nodeOf_uid hs h ha] at hon
              exact List.mem_range.mpr ((hway _).mpr (hon.self h.disc.shape))
          · cases hcell
        · rw [if_pos rfl, hcell]
        · split at hu
          · rw [hcell] at hu
            exact (Option.some.inj hu).symm
          · cases hu

/-! ## §4. All inits. -/

/-- `x` is the uid of an init. -/
def IsInit (t : RegionTree) (x : ℕ) : Prop := (t.node (nodeOf x)).node_type = .rInit

instance (t : RegionTree) : DecidablePred (IsInit t) := fun _ => inferInstanceAs (Decidable (_ = _))

/-- `x` is the uid of a sink of `a`. -/
def IsSinkOf (t : RegionTree) (a : NodeRef) (x : ℕ) : Prop :=
  (t.node (nodeOf x)).recursion = some a

instance (t : RegionTree) (a : NodeRef) : DecidablePred (IsSinkOf t a) :=
  fun _ => inferInstanceAs (Decidable (_ = _))

/-- Step 1: an empty set for each init. -/
theorem initMap_spec (hs : Subtree t r L) (h : Handed t) {H : RegionMap} (hl : Linked t r L H)
    {xs : List ℕ} (hxs : xs.Perm H.keys) :
    ∃ map, xs.foldlM (addInit H) KeyMap.empty = some map ∧ map.keys = xs.filter (IsInit t) ∧
      ∀ x ∈ map.keys, map.get x = some [] := by
  have hnodup := hxs.nodup_iff.mpr hl.built.nodup
  refine foldlM_done (fun past (map : KeyMap ℕ (List ℕ)) =>
    map.keys = past.filter (IsInit t) ∧ ∀ x ∈ map.keys, map.get x = some []) xs ?_
    ⟨rfl, fun x hx => absurd hx List.not_mem_nil⟩
  rintro past x rest map heq ⟨hkeys, hempty⟩
  obtain ⟨c, hc, rfl⟩ := (hl.built.keys x).mp (hxs.mem_iff.mp (by rw [heq]; simp))
  obtain ⟨R, hR, hok⟩ := hl.built.node c hc
  -- every region comes once
  have hnew : uid t c ∉ past := by
    rw [heq] at hnodup
    exact fun hmem => (List.nodup_append.mp hnodup).2.2 _ hmem _ List.mem_cons_self rfl
  have hiff : IsInit t (uid t c) ↔ R.type = .recInit := by
    unfold IsInit
    rw [nodeOf_uid hs h hc]
    exact hok.init.symm
  unfold addInit
  simp only [hR, Option.bind_eq_bind, Option.bind_some]
  by_cases hi : R.type = .recInit
  · have hasR : R.asR = some R :=
      asR_of_isR (hok.isR fun hno => hno c ReflTransGen.refl (hok.init.mp hi))
    rw [if_pos hi, hasR, Option.bind_some]
    refine ⟨_, rfl, ?_, fun y hy => ?_⟩
    · have hnot : uid t c ∉ map.keys := by
        rw [hkeys]
        exact fun hmem => hnew (List.mem_filter.mp hmem).1
      show (if uid t c ∈ map.keys then map.keys else map.keys ++ [uid t c]) = _
      rw [if_neg hnot, hkeys, List.filter_append]
      simp [hiff.mpr hi]
    · by_cases hy' : y = uid t c
      · rw [hy', KeyMap.get_put_self]
      · rw [KeyMap.get_put_ne hy']
        exact hempty y ((KeyMap.mem_keys_put.mp hy).resolve_left hy')
  · rw [if_neg hi]
    refine ⟨map, rfl, ?_, hempty⟩
    rw [hkeys, List.filter_append]
    simp [mt hiff.mp hi]

/-- Step 2: every sink joins the set of its target. -/
theorem sinkMap_spec (hs : Subtree t r L) (h : Handed t) {H : RegionMap} (hl : Linked t r L H)
    {xs : List ℕ} (hxs : xs.Perm H.keys) {map₁ : KeyMap ℕ (List ℕ)}
    (hinits : ∀ a ∈ L, (t.node a).node_type = .rInit → uid t a ∈ map₁.keys)
    (hempty : ∀ x ∈ map₁.keys, map₁.get x = some []) :
    ∃ map₂, xs.foldlM (addSink H) map₁ = some map₂ ∧ map₂.keys = map₁.keys ∧
      ∀ a ∈ L, uid t a ∈ map₁.keys →
        map₂.get (uid t a) = some (xs.filter (IsSinkOf t a)) := by
  refine foldlM_done (fun past (map : KeyMap ℕ (List ℕ)) => map.keys = map₁.keys ∧
    ∀ a ∈ L, uid t a ∈ map₁.keys → map.get (uid t a) = some (past.filter (IsSinkOf t a))) xs ?_
    ⟨rfl, fun a _ hkey => hempty _ hkey⟩
  rintro past x rest map heq ⟨hkeys, hget⟩
  obtain ⟨s, hsL, rfl⟩ := (hl.built.keys x).mp (hxs.mem_iff.mp (by rw [heq]; simp))
  obtain ⟨R, hR, hok⟩ := hl.built.node s hsL
  -- a sink belongs to the init it names
  have hiff : ∀ a, IsSinkOf t a (uid t s) ↔ (t.node s).recursion = some a := by
    intro a
    unfold IsSinkOf
    rw [nodeOf_uid hs h hsL]
  unfold addSink
  simp only [hR, Option.bind_eq_bind, Option.bind_some]
  by_cases hi : R.type = .recSink
  · obtain ⟨a, hrec, -⟩ := (h.disc.shape.sink s (hok.sink.mp hi)).target
    obtain ⟨haL, hinit, -⟩ := hs.target_mem h hsL hrec
    obtain ⟨R', hR', -, hasR⟩ := sink_region hs h hl hsL hrec
    obtain rfl := Option.some.inj (hR.symm.trans hR')
    obtain ⟨R', a', hR', hrec', htgt⟩ := hl.target s hsL a hrec
    obtain rfl := Option.some.inj (hR.symm.trans hR')
    obtain rfl := Option.some.inj (hrec.symm.trans hrec')
    have hkey := hinits a haL hinit
    rw [if_pos hi, hasR, Option.bind_some, htgt, Option.bind_some, hget a haL hkey,
      Option.bind_some]
    refine ⟨_, rfl, ?_, fun b hb hbkey => ?_⟩
    · rw [KeyMap.keys_put_of_mem (hkeys ▸ hkey), hkeys]
    · rw [List.filter_append]
      by_cases hba : uid t b = uid t a
      · obtain rfl := hs.uid_inj h hb haL hba
        rw [KeyMap.get_put_self]
        simp [(hiff b).mpr hrec]
      · have hne : ¬ IsSinkOf t b (uid t s) := by
          rw [hiff, hrec]
          rintro heq
          exact hba (Option.some.inj heq ▸ rfl)
        rw [KeyMap.get_put_ne hba, hget b hb hbkey]
        simp [hne]
  · rw [if_neg hi]
    refine ⟨map, rfl, hkeys, fun b hb hbkey => ?_⟩
    have hne : ¬ IsSinkOf t b (uid t s) := by
      rw [hiff]
      intro hrec
      exact hi (hok.sink.mpr (h.disc.shape.recursion_sink s b hrec))
    rw [hget b hb hbkey, List.filter_append]
    simp [hne]

/-- The set of sinks of an init holds its sinks. -/
theorem sinkUids_filter (hs : Subtree t r L) (h : Handed t) {H : RegionMap} (hl : Linked t r L H)
    {xs : List ℕ} (hxs : xs.Perm H.keys) (a : NodeRef) :
    SinkUids t L a (xs.filter (IsSinkOf t a)) := by
  have huids : (L.map (uid t)).Nodup :=
    List.Nodup.map_on (fun c hc d hd heq => hs.uid_inj h hc hd heq) hs.nodup
  have hkeys : xs.Perm (L.map (uid t)) := hxs.trans
    ((List.perm_ext_iff_of_nodup hl.built.nodup huids).mpr fun x => by
      rw [hl.built.keys, List.mem_map])
  have hnodes : (xs.map nodeOf).Perm L := by
    have hmap := hkeys.map nodeOf
    rw [List.map_map] at hmap
    have hid : L.map (nodeOf ∘ uid t) = L :=
      (List.map_congr_left fun c hc => nodeOf_uid hs h hc).trans L.map_id
    rwa [hid] at hmap
  have hfilter : (xs.filter (IsSinkOf t a)).map nodeOf = sinksOf t (xs.map nodeOf) a := by
    unfold sinksOf
    rw [List.filter_map]
    rfl
  unfold SinkUids
  rw [hfilter]
  exact hnodes.filter _

/-- **The passes of the inits write one over the other**, in the order in which
the inits are visited. -/
theorem calculateRecursiveWeightIn_spec (hs : Subtree t r L) (h : Handed t) {H : RegionMap}
    (hl : Linked t r L H) {fuel : ℕ} (hfuel : t.size + 1 ≤ fuel) (o : VisitOrder)
    (w : ℕ × ℕ → Double) :
    calculateRecursiveWeightIn o fuel (reweigh w H) = some (reweigh (overlay (weightFrom t L)
      (o.visit .inits ((o.visit .addInits H.keys).filter (IsInit t))) w) H) := by
  obtain ⟨map₁, h₁, hkeys₁, hempty⟩ :=
    initMap_spec hs h (hl.reweigh w) (o.perm .addInits H.keys)
  have hmem : ∀ x, x ∈ map₁.keys ↔ x ∈ H.keys ∧ IsInit t x := by
    intro x
    rw [hkeys₁, List.mem_filter, VisitOrder.mem_visit, decide_eq_true_eq]
  obtain ⟨map₂, h₂, hkeys₂, hsinks⟩ := sinkMap_spec hs h (hl.reweigh w) (o.perm .addSinks H.keys)
    (fun a ha hinit => (hmem _).mpr ⟨(hl.built.keys _).mpr ⟨a, ha, rfl⟩, by
      unfold IsInit
      rw [nodeOf_uid hs h ha]
      exact hinit⟩) hempty
  have hkeys : (reweigh w H).keys = H.keys := rfl
  unfold calculateRecursiveWeightIn
  simp only [hkeys, h₁, h₂, hkeys₂, hkeys₁, Option.bind_eq_bind, Option.bind_some]
  refine foldlM_reweigh (fun w' x hx => ?_) w
  rw [VisitOrder.mem_visit, ← hkeys₁] at hx
  obtain ⟨hxH, hinit⟩ := (hmem x).mp hx
  obtain ⟨a, ha, rfl⟩ := (hl.built.keys x).mp hxH
  unfold IsInit at hinit
  rw [nodeOf_uid hs h ha] at hinit
  obtain ⟨A, hA, hAok⟩ := (hl.reweigh w').built.node a ha
  have hAR : A.asR = some A :=
    asR_of_isR (hAok.isR fun hno => hno a ReflTransGen.refl hinit)
  simp only [hA, hAR, hsinks a ha hx, Option.bind_some]
  exact setRecursionWeightIn_spec hs h hl hfuel o ha
    (sinkUids_filter hs h hl (o.perm .addSinks H.keys) a) w'

/-- **All weights can be set.** -/
theorem calculateRecursiveWeight_isSome (hs : Subtree t r L) (h : Handed t) {H : RegionMap}
    (hl : Linked t r L H) {fuel : ℕ} (hfuel : t.size + 1 ≤ fuel) :
    (calculateRecursiveWeight fuel H).isSome := by
  have hspec := calculateRecursiveWeightIn_spec hs h hl hfuel .insertion (weightsOf H)
  rw [reweigh_weightsOf] at hspec
  rw [calculateRecursiveWeight_eq, hspec]
  rfl

/-! ## §5. Every tree the runtime can build. -/

/-- A nested run hands over a tree the planner can link. -/
theorem handed_of_run {summarize : Bool} {calls : List TreeCall}
    (hok : RunOk treeStep TreeCall.Nested (initRegionTree summarize) calls) :
    ∃ t, run treeStep (initRegionTree summarize) calls = some t ∧ Handed t := by
  have hinit := RegionTree.Discipline.init summarize
  obtain ⟨t, ht, hd, -, -⟩ := RegionTree.run_spec hinit hok
  exact ⟨t, ht, hd, (RegionTree.PagesOk.init summarize).run hinit hok ht,
    (RegionTree.IdsOk.init summarize).run hinit hok ht⟩

/-- **Every tree the runtime can build meets what the planner assumes.**  A node
with no `rInit` at or above it has one page; the nodes from a sink's parent up
to its target have at least the sink's pages, the target one more; and on the
records of the whole tree below a child `r` of the root, in any order, with
enough fuel for its loops, the planner links all regions and sets all weights. -/
theorem planner_accepts (calls : List TreeCall)
    (hok : RunOk treeStep TreeCall.Nested (initRegionTree true) calls) :
    ∃ t, run treeStep (initRegionTree true) calls = some t ∧
      (∀ c, c < t.size → c ≠ t.region_tree_root →
        (∀ a, t.Anc a c → (t.node a).node_type ≠ .rInit) → (t.node c).stats.length = 1) ∧
      (∀ s a, (t.node s).node_type = .rSink → (t.node s).recursion = some a →
        (∀ y, t.ProperAnc y s → t.Anc a y → (t.node s).stats.length ≤ (t.node y).stats.length) ∧
          (t.node s).stats.length + 1 ≤ (t.node a).stats.length) ∧
      ∀ (r : NodeRef) (L : List NodeRef), (t.node r).parent = some t.region_tree_root → L.Nodup → (∀ c, c ∈ L ↔ t.Anc r c) →
        ∃ enough, ∀ fuel ≥ enough, (readBinaryFile fuel (L.map (traceEntry t))).isSome := by
  obtain ⟨t, ht, h⟩ := handed_of_run hok
  have hroot := h.disc.shape.root
  refine ⟨t, ht, ?_, h.pages.sink, ?_⟩
  · intro c hc hne hno
    rw [hroot] at hne
    exact Nat.le_antisymm (h.pages.single c hne hno) (h.pages.visited c hc hne)
  · intro r L htop hnd hmem
    have hs : Subtree t r L := ⟨by rw [htop, hroot], hnd, hmem⟩
    refine ⟨max (markFuel t L) (t.size + 1), fun fuel hfuel => ?_⟩
    obtain ⟨H, hH, hl⟩ := linkRegions_spec hs h (Nat.le_trans (Nat.le_max_left _ _) hfuel)
    unfold readBinaryFile
    simp only [hH, Option.bind_eq_bind, Option.bind_some]
    exact calculateRecursiveWeight_isSome hs h hl (Nat.le_trans (Nat.le_max_right _ _) hfuel)

/-- Two functions that call each other, three deep: `f` becomes an init, the
inner `f` a sink with one page, and `f` and `g` have two. -/
theorem planner_accepts_mutual :
    ∃ t, run treeStep (initRegionTree true)
        [.openCtx 1 0 .regionFunc, .openCtx 2 1 .regionFunc, .openCtx 1 2 .regionFunc,
          .openCtx 2 1 .regionFunc] = some t ∧
      ∀ s a, (t.node s).node_type = .rSink → (t.node s).recursion = some a →
        (t.node s).stats.length + 1 ≤ (t.node a).stats.length :=
  (planner_accepts [.openCtx 1 0 .regionFunc, .openCtx 2 1 .regionFunc, .openCtx 1 2 .regionFunc,
    .openCtx 2 1 .regionFunc] (by decide)).imp
    fun _ h => ⟨h.1, fun s a hs ha => (h.2.2.1 s a hs ha).2⟩

end Kremlin.Planner
