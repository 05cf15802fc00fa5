/-
  Kremlin.Planner.ParallelTimes — re-estimating a path is re-estimating all.

  `fromScratch` evaluates `estimateCRegionTime` over the whole tree, from the
  leaves.  The status holds these times for the last speedup of each region
  (`StatusOk`): the constructor does (`StatusOk.new`), and a call of
  `parallelize` keeps it (`StatusOk.parallelize`), since only regions above the
  target look at it.  `incremental_times` states what follows for runs.
-/
import Kremlin.Library.Run
import Kremlin.Planner.CRegionTimeStatus

namespace Kremlin.Planner

open Kremlin.Library Relation

/-! ## §1. Evaluating the tree. -/

namespace CRegionManager

variable {m : CRegionManager}

/-- The time of a region, from those of its children. -/
def timeRule (m : CRegionManager) (speedups : ℕ → Option Double) (x : ℕ) (times : ℕ → Option ℤ) :
    Option ℤ := do
  let region ← m.regionMap.get x
  estimateCRegionTime m.regionMap region ((speedups x).getD (.fin 1)) times (speedups x).isNone

/-- Every region evaluated by `estimateCRegionTime`, from the leaves up. -/
noncomputable def IsTree.fromScratch (h : m.IsTree) (speedups : ℕ → Option Double) :
    ℕ → Option ℤ :=
  h.tree.evaluate (m.timeRule speedups)

/-- Exclusive works are not negative. -/
def ExclusiveOk (m : CRegionManager) : Prop :=
  ∀ x X, m.regionMap.get x = some X → ∃ w, X.getExclusiveWork m.regionMap = some w ∧ 0 ≤ w

/-- Speedups are at least one. -/
def SpeedupsOk (speedups : ℕ → Option Double) : Prop :=
  ∀ x, ∀ v ∈ speedups x, (Double.fin 1).le v = true

/-- The rule looks at the children only. -/
theorem IsTree.timeRule_local (h : m.IsTree) (speedups : ℕ → Option Double) :
    h.tree.Local (m.timeRule speedups) := by
  intro x t t' heq
  unfold timeRule
  cases hX : m.regionMap.get x with
  | none => rfl
  | some X =>
      have hsum : sumTimes t 0 X.children = sumTimes t' 0 X.children := by
        refine sumTimes_congr (fun c hc => heq c ?_) 0
        rw [h.tree_children hX]
        exact List.mem_toFinset.mpr hc
      simp only [Option.bind_eq_bind, Option.bind_some, estimateCRegionTime, hsum]

/-- What the rule computes. -/
theorem timeRule_eq {speedups : ℕ → Option Double} {x : ℕ} {X : CRegion} {t : ℕ → Option ℤ}
    {work sum : ℤ} (hX : m.regionMap.get x = some X)
    (hwork : X.getExclusiveWork m.regionMap = some work) (hsum : sumTimes t 0 X.children = some sum) :
    m.timeRule speedups x t = some (timeOf (speedups x) (work + sum)) := by
  unfold timeRule
  simp only [hX, Option.bind_eq_bind, Option.bind_some, estimateCRegionTime, hwork, hsum]
  cases speedups x <;> rfl

/-- Giving no speedup, or giving one, to regions that had none. -/
def Faster (speedups speedups' : ℕ → Option Double) : Prop :=
  ∀ x, speedups' x = speedups x ∨ speedups x = none

/-- **More parallel regions take no longer**, and all regions have a time. -/
theorem IsTree.fromScratch_le (h : m.IsTree) (hwork : m.ExclusiveOk)
    {speedups speedups' : ℕ → Option Double} (hsp : SpeedupsOk speedups)
    (hsp' : SpeedupsOk speedups') (hfaster : Faster speedups speedups') (x : ℕ) :
    x ∈ m.regionMap.keys → ∃ v w, h.fromScratch speedups' x = some v ∧
      h.fromScratch speedups x = some w ∧ 0 ≤ v ∧ v ≤ w := by
  induction x using FiniteTree.induction_children (T := h.tree) with
  | h x ih =>
      intro hx
      obtain ⟨X, hX⟩ := h.mem_keys.mp hx
      obtain ⟨work, hexcl, hnonneg⟩ := hwork x X hX
      have hchildren : ∀ c ∈ X.children, ∃ v w, h.fromScratch speedups' c = some v ∧
          h.fromScratch speedups c = some w ∧ 0 ≤ v ∧ v ≤ w := by
        intro c hc
        have hchild : c ∈ h.tree.children x := by
          rw [h.tree_children hX]
          exact List.mem_toFinset.mpr hc
        exact ih c hchild (h.mem_of_parent (h.tree.mem_children.mp hchild))
      obtain ⟨v, w, hv, hw, hv₀, hvw⟩ := sumTimes_le hchildren (le_refl (0 : ℤ)) (le_refl 0)
      have htime : ∀ {sp : ℕ → Option Double} {sum : ℤ},
          sumTimes (h.fromScratch sp) 0 X.children = some sum →
            h.fromScratch sp x = some (timeOf (sp x) (work + sum)) := by
        intro sp sum hsum
        unfold IsTree.fromScratch at hsum ⊢
        rw [FiniteTree.evaluate_eq (h.timeRule_local sp), timeRule_eq hX hexcl hsum]
      refine ⟨_, _, htime hv, htime hw, timeOf_nonneg (hsp' x) (by omega), ?_⟩
      rcases hfaster x with heq | hnone
      · rw [heq]
        exact timeOf_mono (hsp x) (by omega) (by omega)
      · rw [hnone]
        calc timeOf (speedups' x) (work + v) ≤ work + v := timeOf_le (hsp' x) (by omega)
          _ ≤ work + w := by omega

/-- Every region has a time. -/
theorem IsTree.exists_fromScratch (h : m.IsTree) (hwork : m.ExclusiveOk)
    {speedups : ℕ → Option Double} (hsp : SpeedupsOk speedups) {x : ℕ}
    (hx : x ∈ m.regionMap.keys) : ∃ v, h.fromScratch speedups x = some v := by
  obtain ⟨v, -, hv, -⟩ := h.fromScratch_le hwork hsp hsp (fun _ => .inl rfl) x hx
  exact ⟨v, hv⟩

/-! ## §2. Total works. -/

/-- What the constructor puts for a region. -/
def totalTime (m : CRegionManager) (x : ℕ) : Option ℤ :=
  ((m.regionMap.get x).bind CRegion.getTotalWork).map Nat.cast

/-- The exclusive work is what the children leave of the total work. -/
theorem sumTimes_totalTime {X : CRegion} {work : ℤ}
    (h : X.getExclusiveWork m.regionMap = some work) :
    ∃ total : ℕ, X.getTotalWork = some total ∧
      sumTimes m.totalTime 0 X.children = some (total - work) := by
  unfold CRegion.getExclusiveWork at h
  obtain ⟨total, htotal, hloop⟩ := Option.bind_eq_some_iff.mp h
  refine ⟨total, htotal, ?_⟩
  -- one loop subtracts what the other adds
  have hsum : ∀ (children : List ℕ) (a b : ℤ),
      children.foldlM (fun (ret : ℤ) each => do
        let each ← m.regionMap.get each
        let work ← each.getTotalWork
        some (ret - work)) a = some work →
      sumTimes m.totalTime b children = some (b + a - work) := by
    intro children
    induction children with
    | nil =>
        intro a b hrun
        obtain rfl := Option.some.inj hrun
        show some b = some (b + a - a)
        rw [Int.add_sub_cancel]
    | cons c children ih =>
        intro a b hrun
        rw [List.foldlM_cons] at hrun
        simp only [Option.bind_eq_bind, Option.bind_eq_some_iff] at hrun
        obtain ⟨next, ⟨C, hC, w, hw, hnext⟩, hrest⟩ := hrun
        obtain rfl := Option.some.inj hnext
        have htime : m.totalTime c = some (w : ℤ) := by
          unfold totalTime
          rw [hC, Option.bind_some, hw]
          rfl
        rw [sumTimes_cons, htime, Option.bind_some, ih (a - w) (b + w) hrest]
        congr 1
        omega
  rw [hsum X.children total 0 hloop, Int.zero_add]

/-- **Without parallel regions, the times are the total works.** -/
theorem IsTree.fromScratch_none (h : m.IsTree) (hwork : m.ExclusiveOk) (x : ℕ) :
    h.fromScratch (fun _ => none) x = m.totalTime x := by
  induction x using FiniteTree.induction_children (T := h.tree) with
  | h x ih =>
      unfold IsTree.fromScratch at ih ⊢
      rw [FiniteTree.evaluate_eq (h.timeRule_local _)]
      cases hX : m.regionMap.get x with
      | none =>
          unfold timeRule totalTime
          rw [hX]
          rfl
      | some X =>
          obtain ⟨work, hexcl, -⟩ := hwork x X hX
          obtain ⟨total, htotal, hsum⟩ := sumTimes_totalTime hexcl
          have hsum' : sumTimes (h.tree.evaluate (m.timeRule fun _ => none)) 0 X.children
              = some (total - work) := by
            rw [← hsum]
            refine sumTimes_congr (fun c hc => ih c ?_) 0
            rw [h.tree_children hX]
            exact List.mem_toFinset.mpr hc
          rw [timeRule_eq hX hexcl hsum']
          unfold totalTime timeOf
          rw [hX, Option.bind_some, htotal]
          show some (work + (total - work)) = some (total : ℤ)
          rw [add_sub_cancel]

end CRegionManager

/-! ## §3. Parallelizing regions. -/

namespace CRegionTimeStatus

open CRegionManager

variable {m : CRegionManager} {h : m.IsTree} {speedups : ℕ → Option Double}
  {s : CRegionTimeStatus} {fuel target x : ℕ} {speedup : Double}

/-- The speedups the status has. -/
structure HasSpeedups (m : CRegionManager) (speedups : ℕ → Option Double)
    (s : CRegionTimeStatus) : Prop where
  manager : s.manager = m
  speedupMap : ∀ x, s.speedupMap.get x = speedups x
  parallelSet : ∀ x, x ∈ s.parallelSet ↔ (speedups x).isSome

/-- **The invariant**: the times are those of an evaluation from scratch. -/
structure StatusOk (h : m.IsTree) (speedups : ℕ → Option Double) (s : CRegionTimeStatus) : Prop
    extends HasSpeedups m speedups s where
  times : ∀ x, s.timeMap.get x = h.fromScratch speedups x

/-- A new time is no speedup. -/
theorem HasSpeedups.put (hs : HasSpeedups m speedups s) (x : ℕ) (time : ℤ) :
    HasSpeedups m speedups { s with timeMap := s.timeMap.put x time } :=
  ⟨hs.manager, hs.speedupMap, hs.parallelSet⟩

/-- One round of the loop. -/
theorem visitRegion_eq (hs : HasSpeedups m speedups s) {current : ℕ} {X : CRegion} {time : ℤ}
    (hX : m.regionMap.get current = some X)
    (htime : m.timeRule speedups current s.timeMap.get = some time) (rootHandled : Bool) :
    visitRegion (s, rootHandled) current
      = some (({ s with timeMap := s.timeMap.put current time },
          rootHandled || decide (current = m.root)), X.parent.toList) := by
  unfold timeRule at htime
  simp only [hX, Option.bind_eq_bind, Option.bind_some] at htime
  unfold visitRegion
  simp only [hs.manager, hX, hs.parallelSet, hs.speedupMap, Option.bind_eq_bind, Option.bind_some]
  cases hsp : speedups current with
  | none =>
      rw [hsp] at htime
      simp only [Option.isSome_none, Option.isNone_none, Option.getD_none, Bool.false_eq_true,
        not_false_eq_true, decide_true, if_true] at htime ⊢
      rw [htime]
      rfl
  | some v =>
      rw [hsp] at htime
      simp only [Option.isSome_some, Option.isNone_some, Option.getD_some, not_true_eq_false,
        decide_false, Bool.false_eq_true, if_false, Option.bind_some] at htime ⊢
      rw [htime]
      rfl

/-- **The walk up restores the invariant.** -/
theorem traverse_visitRegion (hwork : m.ExclusiveOk) (hsp : SpeedupsOk speedups) :
    ∀ {fuel current : ℕ} {s : CRegionTimeStatus} (rootHandled : Bool),
      HasSpeedups m speedups s → h.tree.CurrentOff (m.timeRule speedups) current s.timeMap.get →
      current ∈ m.regionMap.keys → h.tree.rank current + 1 ≤ fuel →
      ∃ s', traverse visitRegion fuel [current] (s, rootHandled) = some (s', true) ∧
        StatusOk h speedups s' := by
  intro fuel
  induction fuel with
  | zero =>
      intro current s rootHandled _ _ _ hfuel
      omega
  | succ fuel ih =>
      intro current s rootHandled hs hoff hkey hfuel
      have hlocal := h.timeRule_local speedups
      obtain ⟨X, hX⟩ := h.mem_keys.mp hkey
      obtain ⟨time, htime⟩ := h.exists_fromScratch hwork hsp hkey
      have hvalue : m.timeRule speedups current s.timeMap.get = some time :=
        (hoff.value hlocal).trans htime
      have hparent : m.parentOf current = X.parent := by
        unfold parentOf
        rw [hX]
        rfl
      have hupdate : (s.timeMap.put current time).get = Function.update s.timeMap.get current
          (m.timeRule speedups current s.timeMap.get) := by
        rw [hvalue]
        rfl
      unfold Library.traverse
      rw [visitRegion_eq hs hX hvalue]
      cases hp : X.parent with
      | none =>
          -- a region without a parent is the root
          have hroot : current = m.root := h.single current hkey (hparent.trans hp)
          have hend : traverse visitRegion fuel ([] ++ (none : Option ℕ).toList)
              ({ s with timeMap := s.timeMap.put current time },
                rootHandled || decide (current = m.root))
              = some ({ s with timeMap := s.timeMap.put current time },
                rootHandled || decide (current = m.root)) := by
            cases fuel <;> rfl
          refine ⟨_, ?_, hs.put current time, fun x => ?_⟩
          · rw [Option.bind_some, hend, decide_eq_true hroot, Bool.or_true]
          · show (s.timeMap.put current time).get x = _
            rw [hupdate]
            exact hoff.last hlocal (hparent.trans hp) x
      | some p =>
          have hcp : m.parentOf current = some p := hparent.trans hp
          obtain ⟨P, hP, -⟩ := h.parent current p hcp
          have hrank : h.tree.rank p < h.tree.rank current := h.tree.rank_lt hcp
          refine ih _ (hs.put current time) ?_ (h.mem_keys.mpr ⟨P, hP⟩) (by omega)
          show h.tree.CurrentOff (m.timeRule speedups) p (s.timeMap.put current time).get
          rw [hupdate]
          exact hoff.step hlocal hcp

/-- As many rounds as any walk up takes. -/
noncomputable def walkFuel (h : m.IsTree) : ℕ := max h.tree.bound (h.tree.rank m.root) + 1

/-- The fuel is enough for the walk up. -/
theorem rank_le_walkFuel (hx : x ∈ m.regionMap.keys) : h.tree.rank x + 1 ≤ walkFuel h := by
  unfold walkFuel
  cases hp : m.parentOf x with
  | none =>
      rw [h.single x hx hp]
      omega
  | some p =>
      have hle : h.tree.rank x ≤ h.tree.bound := h.tree.rank_le hp
      omega

/-- The speedups after one more. -/
theorem HasSpeedups.insert (hs : HasSpeedups m speedups s) (target : ℕ) (speedup : Double) :
    HasSpeedups m (Function.update speedups target (some speedup))
      { s with
        parallelSet := Insert.insert target s.parallelSet
        speedupMap := s.speedupMap.put target speedup } where
  manager := hs.manager
  speedupMap x := by
    show (s.speedupMap.put target speedup).get x = _
    rw [KeyMap.get_put, Function.update_apply, hs.speedupMap]
  parallelSet x := by
    show x ∈ Insert.insert target s.parallelSet ↔ _
    rw [Finset.mem_insert, Function.update_apply, hs.parallelSet]
    by_cases hx : x = target
    · simp [hx]
    · simp [hx]

/-- One more speedup of at least 1. -/
theorem SpeedupsOk.update (hsp : SpeedupsOk speedups) (hv : (Double.fin 1).le speedup = true)
    (target : ℕ) : SpeedupsOk (Function.update speedups target (some speedup)) := by
  intro x v hx
  rw [Function.update_apply] at hx
  split at hx
  · obtain rfl := Option.some.inj hx
    exact hv
  · exact hsp x v hx

/-- **One call**, updating or not: the time it reports is that of the status
with the new speedup, which it leaves when it updates. -/
theorem calculate_eq (hwork : m.ExclusiveOk) (hsp : SpeedupsOk speedups)
    (hs : StatusOk h speedups s) (hkey : target ∈ m.regionMap.keys)
    (hv : (Double.fin 1).le speedup = true) (hfuel : walkFuel h ≤ fuel) :
    ∃ s' time, (∀ update, s.calculateTimeAfterParallelization fuel target speedup update
        = some (if update then s' else s, time)) ∧
      StatusOk h (Function.update speedups target (some speedup)) s' ∧
      s'.getExecTime = some time := by
  have hsp' := SpeedupsOk.update hsp hv target
  have hoff : h.tree.CurrentOff (m.timeRule (Function.update speedups target (some speedup)))
      target s.timeMap.get := by
    refine .of_change (h.timeRule_local speedups) (h.timeRule_local _) hs.times fun x hx => ?_
    funext times
    unfold timeRule
    rw [Function.update_of_ne hx]
  obtain ⟨s', hrun, hs'⟩ := traverse_visitRegion hwork hsp' false
    (hs.toHasSpeedups.insert target speedup) hoff hkey ((rank_le_walkFuel hkey).trans hfuel)
  obtain ⟨time, htime⟩ := h.exists_fromScratch hwork hsp' h.root.1
  have hroot : s'.timeMap.get m.root = some time := (hs'.times m.root).trans htime
  refine ⟨s', time, fun update => ?_, hs', ?_⟩
  · unfold calculateTimeAfterParallelization
    rw [if_pos hv]
    simp only [hrun, Option.bind_eq_bind, Option.bind_some, if_true]
    rw [hs.manager, hroot]
    rfl
  · unfold getExecTime
    rw [hs'.manager]
    exact hroot

/-- The status after the constructor. -/
theorem StatusOk.new (h : m.IsTree) (hwork : m.ExclusiveOk) :
    ∃ s, CRegionTimeStatus.new m = some s ∧ StatusOk h (fun _ => none) s := by
  obtain ⟨timeMap, hloop, htimes⟩ := foldlM_done
    (f := fun (timeMap : KeyMap ℕ ℤ) each => do
      let region ← m.regionMap.get each
      let work ← region.getTotalWork
      some (timeMap.put each work))
    (fun past timeMap => ∀ x, timeMap.get x = if x ∈ past then m.totalTime x else none)
    m.regionMap.keys (s := KeyMap.empty)
    (by
      intro past x rest timeMap heq htimes
      have hx : x ∈ m.regionMap.keys := by
        rw [heq]
        simp
      obtain ⟨X, hX⟩ := h.mem_keys.mp hx
      obtain ⟨work, hexcl, -⟩ := hwork x X hX
      obtain ⟨total, htotal, -⟩ := sumTimes_totalTime hexcl
      -- without speedups a region takes its total work
      have htime : m.totalTime x = some (total : ℤ) := by
        unfold totalTime
        rw [hX, Option.bind_some, htotal]
        rfl
      simp only [hX, htotal, Option.bind_eq_bind, Option.bind_some]
      refine ⟨_, rfl, fun y => ?_⟩
      rw [KeyMap.get_put, htimes]
      by_cases hy : y = x
      · subst hy
        simp [htime]
      · simp [hy])
    (fun x => by simp [KeyMap.empty])
  refine ⟨⟨m, timeMap, KeyMap.empty, ∅⟩, ?_, ⟨rfl, fun x => rfl, fun x => by simp⟩, fun x => ?_⟩
  · unfold CRegionTimeStatus.new
    simp only [Option.bind_eq_bind] at hloop ⊢
    rw [hloop]
    rfl
  · show timeMap.get x = _
    rw [htimes, h.fromScratch_none hwork]
    by_cases hx : x ∈ m.regionMap.keys
    · rw [if_pos hx]
    · have hnone : m.regionMap.get x = none := by
        cases hX : m.regionMap.get x with
        | none => rfl
        | some X => exact absurd (h.mem_keys.mpr ⟨X, hX⟩) hx
      rw [if_neg hx]
      unfold totalTime
      rw [hnone]
      rfl

/-! ## §4. Runs. -/

/-- The last speedup a region was given. -/
def lastSpeedup (calls : List (ℕ × Double)) (x : ℕ) : Option Double := calls.reverse.lookup x

/-- The last call counts. -/
theorem lastSpeedup_append (calls : List (ℕ × Double)) (c : ℕ × Double) :
    lastSpeedup (calls ++ [c]) = Function.update (lastSpeedup calls) c.1 (some c.2) := by
  funext x
  unfold lastSpeedup
  rw [List.reverse_append, List.reverse_singleton, List.singleton_append, Function.update_apply]
  obtain ⟨y, v⟩ := c
  rw [List.lookup_cons]
  by_cases hx : x = y
  · simp [hx]
  · have hne : (x == y) = false := by simpa using hx
    rw [hne, if_neg hx]

/-- Calls of `parallelize` on regions of the manager, with speedups from 1 on. -/
def CallsOk (m : CRegionManager) (calls : List (ℕ × Double)) : Prop :=
  ∀ c ∈ calls, c.1 ∈ m.regionMap.keys ∧ (Double.fin 1).le c.2 = true

/-- The status after the calls. -/
def parallelizeAll (fuel : ℕ) (s : CRegionTimeStatus) (calls : List (ℕ × Double)) :
    Option CRegionTimeStatus :=
  calls.foldlM (fun s c => s.parallelize fuel c.1 c.2) s

/-- **Any run keeps the invariant.** -/
theorem parallelizeAll_ok (hwork : m.ExclusiveOk) (hfuel : walkFuel h ≤ fuel)
    {start : CRegionTimeStatus} (hstart : StatusOk h (fun _ => none) start)
    {calls : List (ℕ × Double)} (hcalls : CallsOk m calls) :
    ∃ s, parallelizeAll fuel start calls = some s ∧ SpeedupsOk (lastSpeedup calls) ∧
      StatusOk h (lastSpeedup calls) s := by
  refine foldlM_done (f := fun s c => CRegionTimeStatus.parallelize fuel s c.1 c.2)
    (fun past s => SpeedupsOk (lastSpeedup past) ∧ StatusOk h (lastSpeedup past) s) calls ?_
    ⟨fun x v hv => (Option.not_mem_none v hv).elim, hstart⟩
  rintro past c rest s heq ⟨hsp, hs⟩
  obtain ⟨hkey, hv⟩ := hcalls c (by rw [heq]; simp)
  obtain ⟨s', time, hrun, hs', -⟩ := calculate_eq hwork hsp hs hkey hv hfuel
  refine ⟨s', ?_, ?_⟩
  · unfold parallelize
    rw [hrun true]
    rfl
  · rw [lastSpeedup_append]
    exact ⟨SpeedupsOk.update hsp hv c.1, hs'⟩

/-- **Incremental time estimation is recomputation.**  After any calls of
`parallelize`, with enough fuel for the walks: the times are those evaluated from
scratch with the last speedup of each region, and any other calls that give the
regions the same last speedups lead to the same times; `peekParallelTime`
reports what `parallelize` would lead to and leaves the status as it is; and
parallelizing a region that is not parallel yet never increases the time of the
program. -/
theorem incremental_times (m : CRegionManager) (h : m.IsTree) (hwork : m.ExclusiveOk) :
    ∃ start enough, CRegionTimeStatus.new m = some start ∧ ∀ fuel ≥ enough,
      ∀ calls, CallsOk m calls → ∃ s, parallelizeAll fuel start calls = some s ∧
        (∀ x ∈ m.regionMap.keys, ∃ time, s.timeMap.get x = some time ∧
          h.fromScratch (lastSpeedup calls) x = some time) ∧
        (∀ calls', CallsOk m calls' → (∀ x, lastSpeedup calls' x = lastSpeedup calls x) →
          ∃ s', parallelizeAll fuel start calls' = some s' ∧
            ∀ x, s'.timeMap.get x = s.timeMap.get x) ∧
        ∀ region ∈ m.regionMap.keys, ∀ speedup, (Double.fin 1).le speedup = true →
          ∃ s' before after, s.parallelize fuel region speedup = some s' ∧
            s.getExecTime = some before ∧ s'.getExecTime = some after ∧
            s.peekParallelTime fuel region speedup = some (s, after) ∧
            (region ∉ s.parallelSet → after ≤ before) := by
  obtain ⟨start, hnew, hstart⟩ := StatusOk.new h hwork
  refine ⟨start, walkFuel h, hnew, fun fuel hfuel calls hcalls => ?_⟩
  obtain ⟨s, hrun, hsp, hs⟩ := parallelizeAll_ok hwork hfuel hstart hcalls
  refine ⟨s, hrun, fun x hx => ?_, fun calls' hcalls' hlast => ?_,
    fun region hregion speedup hv => ?_⟩
  · obtain ⟨time, htime⟩ := h.exists_fromScratch hwork hsp hx
    exact ⟨time, (hs.times x).trans htime, htime⟩
  · obtain ⟨s', hrun', -, hs'⟩ := parallelizeAll_ok hwork hfuel hstart hcalls'
    refine ⟨s', hrun', fun x => ?_⟩
    rw [hs'.times, hs.times, funext hlast]
  · obtain ⟨s', after, hcall, hs', hafter⟩ := calculate_eq hwork hsp hs hregion hv hfuel
    obtain ⟨before, hbefore⟩ := h.exists_fromScratch hwork hsp h.root.1
    refine ⟨s', before, after, ?_, ?_, hafter, hcall false, fun hnew => ?_⟩
    · unfold parallelize
      rw [hcall true]
      rfl
    · unfold getExecTime
      rw [hs.manager, hs.times, hbefore]
    · have hnone : lastSpeedup calls region = none := by
        rwa [hs.parallelSet, Option.not_isSome_iff_eq_none] at hnew
      -- the region had no speedup before, so none gets smaller
      have hfaster : Faster (lastSpeedup calls)
          (Function.update (lastSpeedup calls) region (some speedup)) := by
        intro x
        by_cases hx : x = region
        · exact .inr (hx ▸ hnone)
        · exact .inl (Function.update_of_ne hx ..)
      obtain ⟨v, w, hv', hw, -, hle⟩ := h.fromScratch_le hwork hsp
        (SpeedupsOk.update hsp hv region) hfaster m.root h.root.1
      have hafter' : s'.timeMap.get m.root = some after := by
        rw [← hafter, getExecTime, hs'.manager]
      obtain rfl := Option.some.inj (hv'.symm.trans ((hs'.times m.root).symm.trans hafter'))
      obtain rfl := Option.some.inj (hw.symm.trans hbefore)
      exact hle

/-- In the example no exclusive work is negative. -/
theorem mainWithLoops_exclusiveOk : mainWithLoops.ExclusiveOk := by
  intro x X hX
  match x, hX with
  | 1, hX | 2, hX | 3, hX =>
      cases hX
      exact ⟨_, rfl, by decide⟩

/-- The times of a file with two loops. -/
theorem incremental_times_loops :
    ∃ start enough, CRegionTimeStatus.new mainWithLoops = some start ∧ ∀ fuel ≥ enough,
      ∀ calls, CallsOk mainWithLoops calls → ∃ s, parallelizeAll fuel start calls = some s ∧
        (∀ x ∈ mainWithLoops.regionMap.keys, ∃ time, s.timeMap.get x = some time ∧
          mainWithLoops_isTree.fromScratch (lastSpeedup calls) x = some time) ∧
        (∀ calls', CallsOk mainWithLoops calls' →
          (∀ x, lastSpeedup calls' x = lastSpeedup calls x) →
          ∃ s', parallelizeAll fuel start calls' = some s' ∧
            ∀ x, s'.timeMap.get x = s.timeMap.get x) ∧
        ∀ region ∈ mainWithLoops.regionMap.keys, ∀ speedup, (Double.fin 1).le speedup = true →
          ∃ s' before after, s.parallelize fuel region speedup = some s' ∧
            s.getExecTime = some before ∧ s'.getExecTime = some after ∧
            s.peekParallelTime fuel region speedup = some (s, after) ∧
            (region ∉ s.parallelSet → after ≤ before) :=
  incremental_times mainWithLoops mainWithLoops_isTree mainWithLoops_exclusiveOk

/-- Both loops on seven cores: 10 units, and 60 and 30 units by seven, rounded up. -/
example : ((CRegionTimeStatus.new mainWithLoops).bind fun start =>
    (parallelizeAll 3 start [(2, .fin 7), (3, .fin 7)]).bind getExecTime) = some 24 := by
  decide +kernel

end CRegionTimeStatus

end Kremlin.Planner
