/-
  Kremlin.Runtime.RegionTreeWork — whose work the first pages hold.

  A close adds the work of its instance to the page the node is on.  Summed
  over first pages, children never have more work than their parent, as long as
  no context opens the first page of its region from a later page of the region
  around it.  The induction is on the shape of a profile, and the invariant
  counts, for the node in charge, the work its children added so far
  (`profile_work`).
-/
import Kremlin.Runtime.RegionTreePages
import Mathlib.Algebra.BigOperators.Group.Finset.Piecewise
import Mathlib.Algebra.Order.BigOperators.Group.Finset

namespace Kremlin.Runtime

open Kremlin.Library

/-! ## §1. Profiles. -/

/-- Balanced calls in which no instance did less work than its direct child
instances together; the second argument is the work of the outermost ones. -/
inductive Profile : List TreeCall → ℕ → Prop
  | nil : Profile [] 0
  | block (sid : SID) (cid : CID) (type : RegionType) (stats : RegionStats)
      {inner rest : List TreeCall} {w w' : ℕ} :
      Profile inner w → w ≤ stats.work → Profile rest w' →
      Profile (.openCtx sid cid type :: inner ++ .closeCtx stats :: rest) (stats.work + w')

/-- A context on the first page of its region is opened from the first page of
the region around it. -/
def TreeCall.Aligned (t : RegionTree) : TreeCall → Prop
  | .openCtx sid cid type =>
      let found := t.findOrCreateChild sid cid type
      (found.1.node found.2).curr_stat_index = -1 →
        (t.node t.curr_region_node).curr_stat_index ≤ 0
  | .closeCtx _ => True

instance (t : RegionTree) : (call : TreeCall) → Decidable (call.Aligned t)
  | .openCtx _ _ _ => inferInstanceAs (Decidable (_ → _))
  | .closeCtx _ => inferInstanceAs (Decidable True)

/-- A call of a nested run that is aligned. -/
def TreeCall.NestedAligned (t : RegionTree) (call : TreeCall) : Prop :=
  call.Nested t ∧ call.Aligned t

instance (t : RegionTree) (call : TreeCall) : Decidable (call.NestedAligned t) :=
  inferInstanceAs (Decidable (_ ∧ _))

namespace RegionTree

/-- The first page of a node. -/
def firstPage (t : RegionTree) (c : NodeRef) : Option ProfileNodeStats := (t.node c).stats[0]?

/-- The work on it. -/
def firstWork (t : RegionTree) (c : NodeRef) : ℕ :=
  ((t.firstPage c).map ProfileNodeStats.total_work).getD 0

/-- The work on the first pages of the children of `c`. -/
def childWork (t : RegionTree) (c : NodeRef) : ℕ :=
  ∑ d ∈ Finset.range t.size with (t.node d).parent = some c, t.firstWork d

variable {t t' : RegionTree}

/-! ## §2. What a call does to first pages. -/

/-- The work of the first page is a matter of that page. -/
theorem firstWork_congr {c : NodeRef} (h : t'.firstPage c = t.firstPage c) :
    t'.firstWork c = t.firstWork c := by
  unfold firstWork
  rw [h]

/-- Looking up or creating a child leaves all pages alone. -/
theorem Found.firstPage {sid : SID} {child : NodeRef} (hf : Found t sid t' child) (c : NodeRef) :
    t'.firstPage c = t.firstPage c := by
  unfold RegionTree.firstPage
  rw [(hf.stats c).stats]

/-- A child that is found or created has added no work. -/
theorem Found.childWork {sid : SID} {child : NodeRef} (h : t.TreeShape) (hf : Found t sid t' child)
    (c : NodeRef) : t'.childWork c = t.childWork c := by
  have hsub : (Finset.range t.size).filter (fun d => (t.node d).parent = some c)
      ⊆ (Finset.range t'.size).filter fun d => (t'.node d).parent = some c := by
    intro d hd
    obtain ⟨hlt, hpar⟩ := Finset.mem_filter.mp hd
    have hlt := Finset.mem_range.mp hlt
    exact Finset.mem_filter.mpr ⟨Finset.mem_range.mpr (Nat.lt_of_lt_of_le hlt hf.grows.size_le),
      (hf.grows.parent d hlt).trans hpar⟩
  unfold RegionTree.childWork
  rw [← Finset.sum_subset hsub ?_]
  · exact Finset.sum_congr rfl fun d _ => firstWork_congr (hf.firstPage d)
  · -- what is new has no work yet
    intro d hd hnot
    obtain ⟨hlt, hpar⟩ := Finset.mem_filter.mp hd
    have hnew : t.size ≤ d := by
      by_contra hold
      have hold := Nat.lt_of_not_le hold
      exact hnot (Finset.mem_filter.mpr ⟨Finset.mem_range.mpr hold,
        (hf.grows.parent d hold).symm.trans hpar⟩)
    unfold firstWork
    rw [hf.firstPage]
    unfold RegionTree.firstPage
    rw [h.blank d hnew]
    rfl

/-- Entering a child gives it an empty page at most. -/
theorem Entered.firstWork {child : NodeRef} (he : Entered t child t') (c : NodeRef) :
    t'.firstWork c = t.firstWork c := by
  unfold RegionTree.firstWork RegionTree.firstPage
  rw [he.node]
  split
  · show (((if _ then _ else _ : List ProfileNodeStats)[0]?).map _).getD 0 = _
    split
    · cases (t.node c).stats <;> rfl
    · rfl
  · rfl

/-- Neither has one that is entered. -/
theorem Entered.childWork {child : NodeRef} (he : Entered t child t') (c : NodeRef) :
    t'.childWork c = t.childWork c := by
  unfold RegionTree.childWork
  rw [he.size]
  refine Finset.sum_congr ?_ fun d _ => he.firstWork d
  exact Finset.filter_congr fun d _ => by rw [(he.sameShape d).parent]

/-- Entering a child keeps the first pages of what is open. -/
theorem Entered.firstPage {child : NodeRef} (he : Entered t child t') {c : NodeRef}
    (hopen : 0 ≤ (t.node c).curr_stat_index)
    (hpage : (t.node c).curr_stat_index < (t.node c).stats.length) :
    t'.firstPage c = t.firstPage c := by
  unfold RegionTree.firstPage
  rw [he.node]
  split
  · show (if _ then _ else _ : List ProfileNodeStats)[0]? = _
    split
    · rw [List.getElem?_append_left (by omega)]
    · rfl
  · rfl

variable {stats : RegionStats} {exited : NodeRef} {rest : List NodeRef}

/-- A close changes the first pages of the nodes it visits on them. -/
theorem Closed.firstPage (hc : Closed t stats exited rest t') (c : NodeRef) :
    t'.firstPage c = if c ∈ visits t.land exited ∧ (t.node c).curr_stat_index = 0 then
      (t.firstPage c).map (·.update stats) else t.firstPage c := by
  have hcn := hc.node c
  unfold RegionTree.firstPage
  by_cases hmem : c ∈ visits t.land exited
  · rw [if_pos hmem] at hcn
    obtain ⟨n, hn, heq⟩ := hcn
    obtain ⟨h₀, -, -, -, -, hstats⟩ := ProfileNode.addStats_eq_some hn
    rw [heq, ProfileNode.moveToPrevStats_stats, hstats, List.getElem?_modify]
    by_cases hidx : (t.node c).curr_stat_index = 0
    · rw [if_pos ⟨hmem, hidx⟩, hidx]
      rfl
    · have hne : (t.node c).curr_stat_index.toNat ≠ 0 := by omega
      rw [if_neg fun h => hidx h.2]
      simp [hne]
  · rw [if_neg hmem] at hcn
    rw [hcn, if_neg fun h => hmem h.1]

/-- A close adds its work to the first pages among those it visits, -/
theorem Closed.firstWork (h : t.ContextOk) (hstack : t.c_region_stack = exited :: rest)
    (hc : Closed t stats exited rest t') (c : NodeRef) :
    t'.firstWork c = t.firstWork c +
      if c ∈ visits t.land exited ∧ (t.node c).curr_stat_index = 0 then stats.work else 0 := by
  unfold RegionTree.firstWork
  rw [hc.firstPage]
  split
  · next hcond =>
      have hpos : 0 < (t.node c).stats.length := by
        have hpage := (h.hasPage hstack c hcond.1).2
        omega
      unfold RegionTree.firstPage
      rw [List.getElem?_eq_getElem hpos]
      rfl
  · rfl

/-- Of the nodes a close visits, only the exited one can be on its first page
without being in charge: the target of a sink is open once more. -/
theorem Discipline.first_visited (h : t.Discipline) (hstack : t.c_region_stack = exited :: rest)
    {d : NodeRef} (hd : d ∈ visits t.land exited) (hidx : (t.node d).curr_stat_index = 0) :
    d = exited := by
  rcases mem_visits.mp hd with heq | rfl
  · exact heq
  · by_cases hs : (t.node exited).node_type = .rSink
    · obtain ⟨a, ha, -⟩ := (h.shape.sink exited hs).target
      rw [TreeShape.land_of_sink hs ha] at hidx
      have hopen : 0 < activations t.land t.c_region_stack exited := by
        refine Nat.lt_of_lt_of_le ?_ (count_le_activations _ _)
        rw [hstack]
        exact List.count_pos_iff.mpr List.mem_cons_self
      have htarget := (h.activations_path hs ha).2 hopen
      have hindex := h.index a
      omega
    · exact TreeShape.land_of_not_sink hs

/-- and to what the children of its parent have done. -/
theorem Closed.childWork (h : t.Discipline) (hstack : t.c_region_stack = exited :: rest)
    (hc : Closed t stats exited rest t') (c : NodeRef) :
    t'.childWork c = t.childWork c +
      if (t.node exited).parent = some c ∧ (t.node exited).curr_stat_index = 0 then
        stats.work else 0 := by
  have hvisited : ∀ d, (d ∈ visits t.land exited ∧ (t.node d).curr_stat_index = 0) ↔
      exited = d ∧ (t.node exited).curr_stat_index = 0 := by
    intro d
    constructor
    · rintro ⟨hd, hidx⟩
      obtain rfl := h.first_visited hstack hd hidx
      exact ⟨rfl, hidx⟩
    · rintro ⟨rfl, hidx⟩
      exact ⟨mem_visits.mpr (Or.inl rfl), hidx⟩
  have hlt := h.mem_lt_size (hstack ▸ List.mem_cons_self : exited ∈ t.c_region_stack)
  unfold RegionTree.childWork
  have hfilter : (Finset.range t'.size).filter (fun d => (t'.node d).parent = some c)
      = (Finset.range t.size).filter fun d => (t.node d).parent = some c := by
    rw [hc.size]
    exact Finset.filter_congr fun d _ => by rw [(hc.sameShape d).parent]
  rw [hfilter, Finset.sum_congr rfl fun d _ => hc.firstWork h.toContextOk hstack d,
    Finset.sum_add_distrib]
  congr 1
  simp only [hvisited, ite_and, Finset.sum_ite_eq, Finset.mem_filter, Finset.mem_range, hlt,
    true_and]

/-- Opening, with the child that is found. -/
theorem Discipline.open_spec (h : t.Discipline) {sid : SID} (hsid : sid ≠ 0) (cid : CID)
    (type : RegionType) :
    ∃ t', Found t sid (t.findOrCreateChild sid cid type).1 (t.findOrCreateChild sid cid type).2 ∧
      Entered (t.findOrCreateChild sid cid type).1 (t.findOrCreateChild sid cid type).2 t' ∧
      openRegionContext sid cid type t = some t' ∧ t'.Discipline := by
  have hf := findOrCreateChild_spec h.shape h.curr_lt_size h.curr_not_sink sid cid type
  obtain ⟨t₁, h₁, he⟩ := enterChild_spec hf.shape (t.findOrCreateChild sid cid type).2
  obtain ⟨-, -, t', -, -, h', hd⟩ := h.openRegionContext_spec hsid cid type
  obtain rfl := Option.some.inj (h'.symm.trans h₁)
  exact ⟨t', hf, he, h', hd⟩

/-! ## §3. What a profile does to first pages. -/

/-- What a balanced part of a run leaves: the stack as it was, first pages of
open nodes as they were, and at most `w` more work below the current node, and
that only while it is on its first page. -/
structure Charged (t : RegionTree) (w : ℕ) (t' : RegionTree) : Prop where
  disc : t'.Discipline
  grows : Grows t t'
  stack : t'.c_region_stack = t.c_region_stack
  openPage : ∀ c, 0 ≤ (t.node c).curr_stat_index → t'.firstPage c = t.firstPage c
  work : ∀ c, t'.childWork c + t.firstWork c ≤ t.childWork c + t'.firstWork c +
    if c = t.curr_region_node ∧ (t.node c).curr_stat_index ≤ 0 then w else 0

/-- One instance: what it opens, what runs inside and what it closes. -/
theorem charged_instance (h : t.Discipline) {sid : SID} (hsid : sid ≠ 0) {cid : CID}
    {type : RegionType} (haligned : (TreeCall.openCtx sid cid type).Aligned t) {t₂ : RegionTree}
    (h₂ : openRegionContext sid cid type t = some t₂) {w : ℕ} {t₃ : RegionTree}
    (hinner : Charged t₂ w t₃) (hw : w ≤ stats.work) :
    ∃ t₄, closeRegionContext stats t₃ = some t₄ ∧ Charged t stats.work t₄ := by
  obtain ⟨t₂', hf, he, h₂', hd₂⟩ := h.open_spec hsid cid type
  obtain rfl := Option.some.inj (h₂'.symm.trans h₂)
  generalize hchild : (t.findOrCreateChild sid cid type).2 = child at hf he
  generalize hfound : (t.findOrCreateChild sid cid type).1 = t₁ at hf he
  have hstack : t₃.c_region_stack = child :: t.c_region_stack := by
    rw [hinner.stack, he.stack, hf.stack]
  obtain ⟨t₄, h₄, hc, hd₄, -⟩ := hinner.disc.closeRegionContext_spec stats hstack
  have hgrow₂ : Grows t t₂' := hf.grows.trans he.grows
  have hgrow := hgrow₂.trans (hinner.grows.trans hc.grows)
  -- page indices: those of `t` outside, those of `t₂'` inside
  have hidx₂ : ∀ c, (t₃.node c).curr_stat_index = (t₂'.node c).curr_stat_index :=
    (hd₂.restored hinner.disc.toContextOk hinner.grows hinner.stack).2
  have hidx₁ : ∀ c, (t₂'.node c).curr_stat_index
      = (t.node c).curr_stat_index + ((visits t₁.land child).count c : ℤ) := by
    intro c
    rw [ContextOk.index_entered he, (hf.stats c).curr_stat_index]
  have hcount : ∀ c ∈ visits t₁.land child, (visits t₁.land child).count c = 1 :=
    fun c hmem => List.count_eq_one_of_mem (visits_nodup _) hmem
  have hlow : ∀ c, -1 ≤ (t.node c).curr_stat_index := fun c => by
    have := h.index c
    omega
  have hlt : child < t₁.size := hf.shape.lt_size hf.parent
  have hland : t₃.land child = t₁.land child := (he.grows.trans hinner.grows).land_eq hlt
  have hvisits : visits t₃.land child = visits t₁.land child := by
    unfold visits
    rw [hland]
  have hparent : (t₃.node child).parent = some t.curr_region_node := by
    rw [(he.grows.trans hinner.grows).parent child hlt]
    exact hf.parent
  refine ⟨t₄, h₄, hd₄, hgrow, hc.stack, fun c hopen => ?_, fun c => ?_⟩
  · -- what was open has moved to a later page, if it was visited at all
    have hnot : ¬ (c ∈ visits t₃.land child ∧ (t₃.node c).curr_stat_index = 0) := by
      rintro ⟨hmem, hidx⟩
      rw [hvisits] at hmem
      rw [hidx₂, hidx₁, hcount c hmem] at hidx
      omega
    have hopen₁ : 0 ≤ (t₁.node c).curr_stat_index := by
      rw [(hf.stats c).curr_stat_index]
      exact hopen
    have hopen₂ : 0 ≤ (t₂'.node c).curr_stat_index := by
      rw [hidx₁]
      omega
    have hpage₁ : (t₁.node c).curr_stat_index < (t₁.node c).stats.length := by
      rw [(hf.stats c).curr_stat_index, (hf.stats c).stats]
      exact h.page c
    rw [hc.firstPage, if_neg hnot, hinner.openPage c hopen₂, he.firstPage hopen₁ hpage₁,
      hf.firstPage]
  · have hcw₂ : t₂'.childWork c = t.childWork c := (he.childWork c).trans (hf.childWork h.shape c)
    have hfw₂ : t₂'.firstWork c = t.firstWork c :=
      (he.firstWork c).trans (firstWork_congr (hf.firstPage c))
    have hwork := hinner.work c
    have hcw₄ := hc.childWork hinner.disc hstack c
    have hfw₄ := hc.firstWork hinner.disc.toContextOk hstack c
    rw [hcw₂, hfw₂, he.curr] at hwork
    rw [hvisits] at hfw₄
    rw [hparent] at hcw₄
    -- what runs inside is charged to the page that the instance is on
    have hcharge : (if c = t₁.land child ∧ (t₂'.node c).curr_stat_index ≤ 0 then w else 0)
        ≤ if c ∈ visits t₁.land child ∧ (t₃.node c).curr_stat_index = 0 then stats.work else 0 := by
      split
      · next hin =>
          have hmem : c ∈ visits t₁.land child := mem_visits.mpr (Or.inr hin.1)
          have hzero : (t₃.node c).curr_stat_index = 0 := by
            have hidx := hidx₁ c
            rw [hcount c hmem] at hidx
            have := hlow c
            rw [hidx₂]
            omega
          rw [if_pos ⟨hmem, hzero⟩]
          exact hw
      · exact Nat.zero_le _
    -- and the instance to its parent, when that is on its first page
    have hpay : (if some t.curr_region_node = some c ∧ (t₃.node child).curr_stat_index = 0 then
          stats.work else 0)
        ≤ if c = t.curr_region_node ∧ (t.node c).curr_stat_index ≤ 0 then stats.work else 0 := by
      split
      · next hin =>
          obtain ⟨hcurr, hzero⟩ := hin
          have hcurr := Option.some.inj hcurr
          subst hcurr
          have hmem : child ∈ visits t₁.land child := mem_visits.mpr (Or.inl rfl)
          have hfirst : (t₁.node child).curr_stat_index = -1 := by
            rw [hidx₂, hidx₁, hcount child hmem, ← (hf.stats child).curr_stat_index] at hzero
            omega
          have hidx : (t.node t.curr_region_node).curr_stat_index ≤ 0 := by
            apply haligned
            show ((t.findOrCreateChild sid cid type).1.node
              (t.findOrCreateChild sid cid type).2).curr_stat_index = -1
            rw [hchild, hfound]
            exact hfirst
          rw [if_pos ⟨rfl, hidx⟩]
      · exact Nat.zero_le _
    omega

/-- **First pages over a profile.** -/
theorem profile_work {calls : List TreeCall} {w : ℕ} (hp : Profile calls w) :
    ∀ {t : RegionTree} (rest : List TreeCall), t.Discipline →
      RunOk treeStep TreeCall.NestedAligned t (calls ++ rest) →
      ∃ t', run treeStep t calls = some t' ∧ Charged t w t' := by
  induction hp with
  | nil =>
      intro t _ h _
      refine ⟨t, rfl, h, Grows.refl t, rfl, fun _ _ => rfl, fun c => ?_⟩
      rw [ite_self]
      exact Nat.le_refl _
  | @block sid cid type stats inner rest w w' _ hw _ ihi ihr =>
      intro t post h hok
      rw [List.append_assoc, List.cons_append, List.cons_append] at hok
      obtain ⟨t₂, -, -, h₂, hd₂⟩ := h.open_spec hok.1.1 cid type
      have hok₂ := hok.2 t₂ h₂
      -- what is inside the context first
      obtain ⟨t₃, h₃, hinner⟩ := ihi _ hd₂ hok₂
      obtain ⟨t₄, h₄, hinst⟩ := charged_instance h hok.1.1 hok.1.2 h₂ hinner hw
      have hok₃ := runOk_append hok₂ h₃
      -- then what follows it, from the state that the close restores
      obtain ⟨t₅, h₅, hrest⟩ := ihr _ hinst.disc (hok₃.2 t₄ h₄)
      obtain ⟨hcurr, hidx⟩ := h.restored hinst.disc.toContextOk hinst.grows hinst.stack
      refine ⟨t₅, ?_, hrest.disc, hinst.grows.trans hrest.grows,
        hrest.stack.trans hinst.stack, fun c hopen => ?_, fun c => ?_⟩
      · rw [List.cons_append]
        refine run_cons_eq_some.mpr ⟨t₂, h₂, run_append_eq_some.mpr ⟨t₃, h₃, ?_⟩⟩
        exact run_cons_eq_some.mpr ⟨t₄, h₄, h₅⟩
      · rw [hrest.openPage c (by rw [hidx]; exact hopen), hinst.openPage c hopen]
      · have hwork₁ := hinst.work c
        have hwork₂ := hrest.work c
        rw [hcurr, hidx] at hwork₂
        split at hwork₁ <;> rename_i hin
        · rw [if_pos hin] at hwork₂ ⊢
          omega
        · rw [if_neg hin] at hwork₂ ⊢
          omega

/-- **After a profile that is aligned throughout, no node has more work on the
first pages of its children than on its own.** -/
theorem childWork_le {calls : List TreeCall} {w : ℕ} (hp : Profile calls w) {summarize : Bool}
    (hok : RunOk treeStep TreeCall.NestedAligned (initRegionTree summarize) calls) :
    ∃ t, run treeStep (initRegionTree summarize) calls = some t ∧
      ∀ c, c ≠ 0 → t.childWork c ≤ t.firstWork c := by
  obtain ⟨t, ht, hcharged⟩ := profile_work hp [] (Discipline.init summarize)
    (by rw [List.append_nil]; exact hok)
  refine ⟨t, ht, fun c hc => ?_⟩
  have hcurr : c ≠ (initRegionTree summarize).curr_region_node := hc
  have hwork := hcharged.work c
  have hnone : (initRegionTree summarize).childWork c = 0 := by
    unfold childWork
    refine Finset.sum_eq_zero fun d hd => ?_
    have hd : d < 1 := Finset.mem_range.mp (Finset.mem_filter.mp hd).1
    obtain rfl := Nat.lt_one_iff.mp hd
    rfl
  rw [if_neg fun h => hcurr h.1, hnone] at hwork
  omega

/-- Runs that are aligned throughout are nested. -/
theorem runOk_nested {t : RegionTree} {calls : List TreeCall}
    (hok : RunOk treeStep TreeCall.NestedAligned t calls) : RunOk treeStep TreeCall.Nested t calls := by
  induction calls generalizing t with
  | nil => trivial
  | cons call calls ih => exact ⟨hok.1.1, fun t' h' => ih (hok.2 t' h')⟩

/-- **`main`, opened once, has all its work on its first page**, which counts
one instance. -/
theorem main_page {inner : List TreeCall} {w : ℕ} (hp : Profile inner w) {summarize : Bool}
    {sid : SID} {cid : CID} {type : RegionType} {t : RegionTree}
    (hok : RunOk treeStep TreeCall.NestedAligned (initRegionTree summarize)
      (.openCtx sid cid type :: inner ++ [.closeCtx stats]))
    (ht : run treeStep (initRegionTree summarize)
      (.openCtx sid cid type :: inner ++ [.closeCtx stats]) = some t) :
    (t.node 1).parent = some 0 ∧ t.firstPage 1 = some (ProfileNodeStats.new.update stats) := by
  have h := Discipline.init summarize
  obtain ⟨t₂, hf, he, h₂, hd₂⟩ := h.open_spec hok.1.1 cid type
  have hchild : ((initRegionTree summarize).findOrCreateChild sid cid type).2 = 1 := rfl
  generalize ((initRegionTree summarize).findOrCreateChild sid cid type).1 = t₁ at hf he
  rw [hchild] at hf he
  obtain ⟨t₃, h₃, hinner⟩ := profile_work hp _ hd₂ (hok.2 t₂ h₂)
  have hstack : t₃.c_region_stack = 1 :: [] := by
    rw [hinner.stack, he.stack, hf.stack]
    rfl
  obtain ⟨t₄, h₄, hc, -, -⟩ := hinner.disc.closeRegionContext_spec stats hstack
  have hrun : run treeStep (initRegionTree summarize)
      (.openCtx sid cid type :: inner ++ [.closeCtx stats]) = some t₄ :=
    run_cons_eq_some.mpr ⟨t₂, h₂, run_append_eq_some.mpr
      ⟨t₃, h₃, run_cons_eq_some.mpr ⟨t₄, h₄, rfl⟩⟩⟩
  obtain rfl := Option.some.inj (hrun.symm.trans ht)
  have hmem : ∀ land : NodeRef → NodeRef, 1 ∈ visits land 1 := fun land => mem_visits.mpr (Or.inl rfl)
  have hblank : (t₁.node 1).stats = [] ∧ (t₁.node 1).curr_stat_index = -1 :=
    ⟨(hf.stats 1).stats, (hf.stats 1).curr_stat_index⟩
  have hnode : t₂.node 1 = (t₁.node 1).moveToNextStats := by
    rw [he.node, if_pos (hmem _)]
  -- the first context opens the first page of the first node
  have hidx₂ : (t₂.node 1).curr_stat_index = 0 := by
    rw [hnode, ProfileNode.moveToNextStats_curr_stat_index, hblank.2]
    rfl
  have hpage₂ : t₂.firstPage 1 = some ProfileNodeStats.new := by
    unfold firstPage
    rw [hnode]
    unfold ProfileNode.moveToNextStats
    rw [hblank.1, hblank.2]
    rfl
  have hidx₃ : (t₃.node 1).curr_stat_index = 0 := by
    rw [(hd₂.restored hinner.disc.toContextOk hinner.grows hinner.stack).2, hidx₂]
  constructor
  · have hlt : 1 < t₂.size := hd₂.shape.lt_size ((he.sameShape 1).parent.trans hf.parent)
    rw [(hinner.grows.trans hc.grows).parent 1 hlt, (he.sameShape 1).parent]
    exact hf.parent
  · rw [hc.firstPage, if_pos ⟨hmem _, hidx₃⟩, hinner.openPage 1 (by rw [hidx₂]), hpage₂]
    rfl

end RegionTree

end Kremlin.Runtime
