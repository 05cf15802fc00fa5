/-
  Kremlin.Runtime.UpdateCosts — what the updates of an instruction add.

  An instruction is charged its largest offset (or `LOAD_COST`) once, but may
  update its destination several times.  An update that reads the destination
  back adds to what the earlier ones added (`Instr.ReadsBack`); all others are
  paid for by the one charge (`foldl_paid`).
-/
import Kremlin.Library.NestedPaths
import Kremlin.Runtime.NaryHandlers
import Kremlin.Runtime.OrderedTimes

namespace Kremlin.Runtime

open Kremlin.Library
open KremlinProfiler

/-! ## §1. The updates of an instruction. -/

/-- The register an instruction computes. -/
def Instr.dest : Instr → ℕ
  | .assignConst d | .induction d | .reduction _ d | .timestamp d _ | .timestamp0 d
  | .timestamp1 d _ | .timestamp2 d _ _ | .timestamp3 d _ _ _ | .timestamp4 d _ _ _ _
  | .timestamp5 d _ _ _ _ _ | .timestamp6 d _ _ _ _ _ _ | .timestamp7 d _ _ _ _ _ _ _
  | .load _ d _ _ | .load0 _ d _ | .load1 _ d _ _ | .phi d _ _ | .phi1To1 d _ _
  | .phi2To1 d _ _ _ | .phi3To1 d _ _ _ _ | .phi4To1 d _ _ _ _ _ | .phiCond4To1 d _ _ _ _
  | .phiAddCond d _ => d

/-- The sources after the fifth, with what reading each one adds: they are read
when the destination has already been written. -/
def Instr.laterSources : Instr → List Source
  | .timestamp _ srcs => srcs.drop 5
  | .timestamp6 _ _ _ _ _ _ src6 => [src6]
  | .timestamp7 _ _ _ _ _ _ src6 src7 => [src6, src7]
  | .load _ _ _ srcs => (srcs.drop 5).map fun r => (r, LOAD_COST)
  | _ => []

/-- The destination is one of the later sources, and reading it adds something. -/
def Instr.ReadsBack (i : Instr) : Prop := ∃ src ∈ i.laterSources, src.1 = i.dest ∧ src.2 ≠ 0

instance (i : Instr) : Decidable i.ReadsBack := inferInstanceAs (Decidable (∃ _ ∈ _, _))

/-- All rounds write the same register. -/
theorem handleVariableNumArgs_mem {ctrl cp : Bool} {src_reg src_addr : Option ℕ} {d : ℕ}
    {args : List Source} {u : TimestampUpdate}
    (hu : u ∈ handleVariableNumArgs ctrl cp src_reg src_addr d args) :
    u.dest_reg = d ∧ u.update_cp = cp ∧ u.src_addr = src_addr := by
  obtain ⟨srcs, -, rfl⟩ := List.mem_map.mp hu
  exact ⟨rfl, rfl, rfl⟩

/-- A phi adds nothing. -/
theorem updates_phi_noOffset {d src_reg : ℕ} {ctrls : List ℕ} {u : TimestampUpdate}
    (hu : u ∈ updates (.phi d src_reg ctrls)) :
    u.dest_reg = d ∧ u.src_addr = none ∧ ∀ src ∈ u.srcs, src.2 = 0 := by
  by_cases hne : ctrls = []
  · subst hne
    obtain rfl := List.mem_singleton.mp hu
    refine ⟨rfl, rfl, fun src hsrc => ?_⟩
    rw [List.mem_singleton.mp hsrc]
    rfl
  · obtain ⟨us, slots, hup, hus, hslots⟩ := updates_phi (d := d) src_reg hne
    rw [hup] at hu
    rcases List.mem_append.mp hu with hu | hu
    · refine ⟨(hus u hu).2.1, (hus u hu).1, fun src hsrc => ?_⟩
      obtain ⟨c, -, rfl⟩ := List.mem_map.mp ((hus u hu).2.2 src hsrc)
      rfl
    · obtain rfl := List.mem_singleton.mp hu
      refine ⟨rfl, rfl, fun src hsrc => ?_⟩
      rcases (hslots src).mp hsrc with rfl | hmem
      · rfl
      · obtain ⟨c, -, rfl⟩ := List.mem_map.mp hmem
        rfl

/-- All updates of an instruction write its destination. -/
theorem updates_dest (i : Instr) : ∀ u ∈ updates i, u.dest_reg = i.dest := by
  intro u hu
  cases i with
  | timestamp d srcs => exact (handleVariableNumArgs_mem hu).1
  | load a d size srcs => exact (handleVariableNumArgs_mem hu).1
  | phi d r ctrls => exact (updates_phi_noOffset hu).1
  | reduction c d => exact absurd hu List.not_mem_nil
  | timestamp6 | timestamp7 =>
      rcases List.mem_cons.mp hu with rfl | hu
      · rfl
      · rw [List.mem_singleton.mp hu]
        rfl
  | _ =>
      rw [List.mem_singleton.mp hu]
      rfl

/-- The last update is on the critical path, or none of them adds anything. -/
theorem updates_shape (i : Instr) :
    (∃ us u, updates i = us ++ [u] ∧ u.update_cp = true) ∨
      ∀ u ∈ updates i, u.src_addr = none ∧ ∀ src ∈ u.srcs, src.2 = 0 := by
  have hvariadic : ∀ {us : List TimestampUpdate}, (∀ u ∈ us, u.update_cp = true) →
      (∃ us' u, us = us' ++ [u] ∧ u.update_cp = true) ∨
        ∀ u ∈ us, u.src_addr = none ∧ ∀ src ∈ u.srcs, src.2 = 0 := by
    intro us hus
    rcases List.eq_nil_or_concat us with rfl | ⟨us', u, rfl⟩
    · exact .inr fun u hu => absurd hu List.not_mem_nil
    · rw [List.concat_eq_append] at hus ⊢
      exact .inl ⟨us', u, rfl, hus u (List.mem_append_right _ (List.mem_singleton_self u))⟩
  have hphi : ∀ (cp : Bool) (d : ℕ) (srcs : List ℕ), ∀ u ∈ phiUpdate cp d srcs,
      u.src_addr = none ∧ ∀ src ∈ u.srcs, src.2 = 0 := by
    intro cp d srcs u hu
    obtain rfl := List.mem_singleton.mp hu
    refine ⟨rfl, fun src hsrc => ?_⟩
    obtain ⟨r, -, rfl⟩ := List.mem_map.mp hsrc
    rfl
  cases i with
  | timestamp d srcs => exact hvariadic fun u hu => (handleVariableNumArgs_mem hu).2.1
  | load a d size srcs => exact hvariadic fun u hu => (handleVariableNumArgs_mem hu).2.1
  | phi d r ctrls => exact .inr fun u hu => (updates_phi_noOffset hu).2
  | reduction c d => exact .inr fun u hu => absurd hu List.not_mem_nil
  | phi1To1 | phi2To1 | phi3To1 | phi4To1 | phiCond4To1 | phiAddCond => exact .inr (hphi _ _ _)
  | timestamp6 | timestamp7 => exact .inl ⟨[_], _, rfl, rfl⟩
  | _ => exact .inl ⟨[], _, rfl, rfl⟩

/-- A later update reads the destination back only for free. -/
theorem updates_later {i : Instr} (h : ¬ i.ReadsBack) :
    ∀ u ∈ (updates i).tail, ∀ src ∈ u.srcs, src.1 = i.dest → u.src_addr = none ∧ src.2 = 0 := by
  intro u hu src hsrc hdest
  -- an instruction that does not read back has no offset on its own destination
  have hlater : src ∈ i.laterSources → src.2 = 0 := by
    intro hmem
    by_contra hne
    exact h ⟨src, hmem, hdest, hne⟩
  cases i with
  | timestamp d srcs =>
      change u ∈ (List.map _ _).tail at hu
      rw [← List.map_tail] at hu
      obtain ⟨call, hcall, rfl⟩ := List.mem_map.mp hu
      exact ⟨rfl, hlater (variableArgChunks_tail _ _ call hcall src hsrc)⟩
  | load a d size srcs =>
      change u ∈ (List.map _ _).tail at hu
      rw [← List.map_tail] at hu
      obtain ⟨call, hcall, rfl⟩ := List.mem_map.mp hu
      have hmem := variableArgChunks_tail _ _ call hcall src hsrc
      rw [← List.map_drop] at hmem
      obtain ⟨r, hr, rfl⟩ := List.mem_map.mp hmem
      exact absurd ⟨(r, LOAD_COST), List.mem_map_of_mem hr, hdest,
        show LOAD_COST ≠ 0 by decide⟩ h
  | phi d r ctrls => exact (updates_phi_noOffset (List.mem_of_mem_tail hu)).2.imp id fun h => h src hsrc
  | reduction c d => exact absurd hu List.not_mem_nil
  | timestamp6 =>
      obtain rfl := List.mem_singleton.mp hu
      rcases List.mem_cons.mp hsrc with rfl | hsrc
      · exact ⟨rfl, rfl⟩
      · exact ⟨rfl, hlater hsrc⟩
  | timestamp7 =>
      obtain rfl := List.mem_singleton.mp hu
      rcases List.mem_cons.mp hsrc with rfl | hsrc
      · exact ⟨rfl, rfl⟩
      · exact ⟨rfl, hlater hsrc⟩
  | _ => exact absurd hu List.not_mem_nil

/-- An instruction costs as much as each of its updates. -/
theorem Instr.cost_ge {i : Instr} {u : TimestampUpdate} (hu : u ∈ updates i) :
    TimestampUpdate.cost u ≤ i.cost :=
  le_maxOver_of_mem (f := id) (List.mem_map_of_mem hu)

/-- An offset is at most the cost. -/
theorem TimestampUpdate.offset_le {u : TimestampUpdate} (hmem : u.src_addr = none) {src : Source}
    (hsrc : src ∈ u.srcs) : src.2 ≤ TimestampUpdate.cost u := by
  unfold TimestampUpdate.cost
  rw [hmem]
  exact le_maxOver_of_mem (f := id) (List.mem_map_of_mem hsrc)

/-! ## §2. What an update adds. -/

section Updates

variable {L : Ledger} {n c d : ℕ} {m : Analysis} {u : TimestampUpdate}

/-- What an update starts from is paid for. -/
theorem Analysis.baseTime_accounted (hcdep : Accounted L.allow n 0 m.cdep)
    (hmem : ∀ w, Accounted L.allow n 0 (m.mem w)) (u : TimestampUpdate) :
    Accounted L.allow n 0 (m.baseTime u) := by
  have hctrl : Accounted L.allow n 0 (m.ctrlTime u) := by
    cases hu : u.use_ctrl_dependence with
    | true =>
        refine hcdep.congr fun l _ => ?_
        rw [Analysis.ctrlTime, hu, if_pos rfl]
    | false =>
        refine (accounted_zero _ _ _).congr fun l _ => ?_
        rw [Analysis.ctrlTime, hu]
        rfl
  cases hu : u.src_addr with
  | none =>
      refine hctrl.congr fun l _ => ?_
      rw [Analysis.baseTime, hu]
  | some a =>
      refine (hctrl.max (hmem (wordOf a))).congr fun l _ => ?_
      rw [Analysis.baseTime, hu]

/-- **The charge of an instruction pays for an update** whose sources are paid
for without it, or are read for free. -/
theorem Analysis.destTime_accounted (hcost : TimestampUpdate.cost u ≤ c)
    (hcdep : Accounted L.allow n 0 m.cdep) (hmem : ∀ w, Accounted L.allow n 0 (m.mem w))
    (hsrcs : ∀ src ∈ u.srcs, Accounted L.allow n 0 (m.reg src.1) ∨
      Accounted (L.pay n c).allow n 0 (m.reg src.1) ∧ u.src_addr = none ∧ src.2 = 0) :
    Accounted (L.pay n c).allow n 0 (m.destTime n u) := by
  have hbase := m.baseTime_accounted hcdep hmem u
  cases hu : u.src_addr with
  | none =>
      have hsource : ∀ src ∈ u.srcs, Accounted (L.pay n c).allow n 0
          fun l => m.sourceTime u l src := by
        intro src hsrc
        have hoffset := (TimestampUpdate.offset_le hu hsrc).trans hcost
        -- without memory a source is a register and its offset
        have hread : ∀ l, m.sourceTime u l src = m.reg src.1 l + src.2 := by
          intro l
          rw [Analysis.sourceTime, hu]
          rfl
        rcases hsrcs src hsrc with hpaid | ⟨hpaid, -, hfree⟩
        · exact (Ledger.accounted_pay hpaid hoffset).congr fun l _ => hread l
        · refine hpaid.congr fun l _ => ?_
          rw [hread, hfree, Nat.add_zero]
      refine (hbase.pay.maxOver hsource).congr fun l hl => ?_
      rw [Analysis.destTime, cut_of_lt _ hl, hu]
      rfl
  | some a =>
      -- a load is charged its own cost
      have hload : LOAD_COST ≤ c := by
        rw [TimestampUpdate.cost, hu] at hcost
        exact hcost
      have hsource : ∀ src ∈ u.srcs, Accounted L.allow n 0 fun l => m.sourceTime u l src := by
        intro src hsrc
        rcases hsrcs src hsrc with hpaid | ⟨-, hnone, -⟩
        · refine hpaid.congr fun l _ => ?_
          rw [Analysis.sourceTime, hu]
          rfl
        · rw [hu] at hnone
          cases hnone
      refine (Ledger.accounted_pay (hbase.maxOver hsource) hload).congr fun l hl => ?_
      rw [Analysis.destTime, cut_of_lt _ hl, hu]
      rfl

/-- The critical paths after an update: those before, extended. -/
theorem Analysis.update_region (n : ℕ) (m : Analysis) (u : TimestampUpdate) :
    (m.update n u).region
      = (m.extendPaths n (if u.update_cp then m.destTime n u else fun _ => 0)).region := by
  unfold Analysis.update
  by_cases hcp : u.update_cp
  · rw [if_pos hcp, if_pos hcp]
    rfl
  · rw [if_neg hcp, if_neg hcp]
    funext l
    show m.region l = if l < n then (m.region l).updateCriticalPathLength 0 else m.region l
    rw [ProgramRegion.updateCriticalPathLength, Nat.zero_max, ite_self]

/-- Paths only get longer. -/
theorem Analysis.le_extendPaths (m : Analysis) (n : ℕ) (v : ℕ → ℕ) (l : ℕ) :
    (m.region l).cp ≤ ((m.extendPaths n v).region l).cp := by
  show _ ≤ (if l < n then (m.region l).updateCriticalPathLength (v l) else m.region l).cp
  split
  · exact le_max_right _ _
  · exact le_rfl

/-- What an instruction that charges `c` does: one register gets a time that is
paid for, and the critical paths are extended by such a time. -/
structure Paid (L : Ledger) (n c d : ℕ) (m m' : Analysis) : Prop where
  dest : Accounted (L.pay n c).allow n 0 (m'.reg d)
  others : ∀ r ≠ d, m'.reg r = m.reg r
  time : m'.time = m.time
  paths : ∃ w, m'.region = (m.extendPaths n w).region ∧
    Accounted (L.pay n c).allow n 0 w ∧ Antitone w

/-- Nothing was done. -/
theorem Paid.refl (h : Accounted (L.pay n c).allow n 0 (m.reg d)) : Paid L n c d m m := by
  refine ⟨h, fun _ _ => rfl, rfl, fun _ => 0, ?_, accounted_zero _ _ _, antitone_zero⟩
  funext l
  show m.region l = if l < n then (m.region l).updateCriticalPathLength 0 else m.region l
  rw [ProgramRegion.updateCriticalPathLength, Nat.zero_max, ite_self]

/-- One update after another, on one charge. -/
theorem Paid.trans {m' m'' : Analysis} (h : Paid L n c d m m') (h' : Paid L n c d m' m'') :
    Paid L n c d m m'' := by
  obtain ⟨w, hregion, hw, horder⟩ := h.paths
  obtain ⟨w', hregion', hw', horder'⟩ := h'.paths
  refine ⟨h'.dest, fun r hr => (h'.others r hr).trans (h.others r hr), h'.time.trans h.time,
    fun l => max (w' l) (w l), ?_, hw'.max hw, fun _ _ hle => max_le_max (horder' hle) (horder hle)⟩
  rw [hregion']
  funext l
  show (if l < n then (m'.region l).updateCriticalPathLength (w' l) else m'.region l)
    = if l < n then (m.region l).updateCriticalPathLength (max (w' l) (w l)) else m.region l
  rw [hregion]
  by_cases hl : l < n
  · simp only [Analysis.extendPaths, if_pos hl, ProgramRegion.updateCriticalPathLength, max_assoc]
  · simp only [Analysis.extendPaths, if_neg hl]

/-- One update. -/
theorem Analysis.update_paid (ho : OrderedNow n m) (hd : u.dest_reg = d)
    (hdest : Accounted (L.pay n c).allow n 0 (m.destTime n u)) :
    Paid L n c d m (m.update n u) := by
  have hregion := m.update_region n u
  have hreg : ∀ r, (m.update n u).reg r = if r = u.dest_reg then m.destTime n u else m.reg r := by
    intro r
    obtain ⟨region, hm⟩ := m.update_eq n u
    rw [hm]
    rfl
  have horder : Antitone (m.destTime n u) :=
    (Analysis.destTime_ordered (fun r => (ho.reg r).1) ho.cdep ho.mem u).1
  refine ⟨?_, fun r hr => ?_, ?_, _, hregion, ?_, ?_⟩
  · rw [hreg, if_pos hd.symm]
    exact hdest
  · rw [hreg, hd, if_neg hr]
  · obtain ⟨region, hm⟩ := m.update_eq n u
    rw [hm]
    rfl
  · split
    · exact hdest
    · exact accounted_zero _ _ _
  · split
    · exact horder
    · exact antitone_zero

/-- The updates after the first: the destination is paid for by the charge, all
else without it. -/
theorem foldl_paid {us : List TimestampUpdate} (ho : OrderedNow n m)
    (hus : ∀ u ∈ us, u.dest_reg = d ∧ TimestampUpdate.cost u ≤ c)
    (hback : ∀ u ∈ us, ∀ src ∈ u.srcs, src.1 = d → u.src_addr = none ∧ src.2 = 0)
    (hothers : ∀ r ≠ d, Accounted L.allow n 0 (m.reg r))
    (hd : Accounted (L.pay n c).allow n 0 (m.reg d)) (hcdep : Accounted L.allow n 0 m.cdep)
    (hmem : ∀ w, Accounted L.allow n 0 (m.mem w)) :
    Paid L n c d m (us.foldl (Analysis.update n) m) := by
  induction us generalizing m with
  | nil => exact .refl hd
  | cons u us ih =>
      obtain ⟨hdest, hcost⟩ := hus u List.mem_cons_self
      have hstep : Paid L n c d m (m.update n u) := by
        refine m.update_paid ho hdest (m.destTime_accounted hcost hcdep hmem fun src hsrc => ?_)
        by_cases hsame : src.1 = d
        · rw [hsame]
          exact .inr ⟨hd, hback u List.mem_cons_self src hsrc hsame⟩
        · exact .inl (hothers _ hsame)
      obtain ⟨-, -, hcdep', -, hmem', -⟩ := ho.foldl [u]
      refine hstep.trans (ih (ho.update u) (fun u' hu' => hus u' (List.mem_cons_of_mem u hu'))
        (fun u' hu' => hback u' (List.mem_cons_of_mem u hu')) (fun r hr => ?_) hstep.dest ?_ ?_)
      · rw [hstep.others r hr]
        exact hothers r hr
      · rw [show (m.update n u).cdep = m.cdep from hcdep']
        exact hcdep
      · rw [show (m.update n u).mem = m.mem from hmem']
        exact hmem

variable {i : Instr}

/-- **The charge of an instruction that does not read its destination back pays
for all its updates.** -/
theorem instr_paid (hback : ¬ i.ReadsBack) (ho : OrderedNow n m)
    (hreg : ∀ r, Accounted L.allow n 0 (m.reg r)) (hcdep : Accounted L.allow n 0 m.cdep)
    (hmem : ∀ w, Accounted L.allow n 0 (m.mem w)) :
    Paid L n i.cost i.dest m ((updates i).foldl (Analysis.update n) m) := by
  have hlater := updates_later hback
  have hall : ∀ u ∈ updates i, u.dest_reg = i.dest ∧ TimestampUpdate.cost u ≤ i.cost :=
    fun u hu => ⟨updates_dest i u hu, Instr.cost_ge hu⟩
  cases hup : updates i with
  | nil => exact .refl (hreg i.dest).pay
  | cons u us =>
      rw [hup, List.tail_cons] at hlater
      rw [hup] at hall
      obtain ⟨hdest, hcost⟩ := hall u List.mem_cons_self
      have hfirst : Paid L n i.cost i.dest m (m.update n u) :=
        m.update_paid ho hdest
          (m.destTime_accounted hcost hcdep hmem fun src _ => .inl (hreg src.1))
      obtain ⟨-, -, hcdep', -, hmem', -⟩ := ho.foldl [u]
      refine hfirst.trans (foldl_paid (ho.update u)
        (fun u' hu' => hall u' (List.mem_cons_of_mem u hu')) hlater (fun r hr => ?_) hfirst.dest ?_ ?_)
      · rw [hfirst.others r hr]
        exact hreg r
      · rw [show (m.update n u).cdep = m.cdep from hcdep']
        exact hcdep
      · rw [show (m.update n u).mem = m.mem from hmem']
        exact hmem

/-- The times of the current registers are on the critical paths. -/
def OnPath (n : ℕ) (m : Analysis) : Prop := ∀ r, ∀ l < n, m.reg r l ≤ (m.region l).cp

/-- Updates that add nothing stay on the critical paths. -/
theorem OnPath.foldl {us : List TimestampUpdate} (h : OnPath n m)
    (hcdep : ∀ l < n, m.cdep l ≤ (m.region l).cp)
    (hus : ∀ u ∈ us, u.src_addr = none ∧ ∀ src ∈ u.srcs, src.2 = 0) :
    OnPath n (us.foldl (Analysis.update n) m) := by
  induction us generalizing m with
  | nil => exact h
  | cons u us ih =>
      obtain ⟨hnone, hfree⟩ := hus u List.mem_cons_self
      obtain ⟨region, hm⟩ := m.update_eq n u
      -- paths only get longer, so old times stay on them
      have hgrow : ∀ l, (m.region l).cp ≤ ((m.update n u).region l).cp := by
        rw [m.update_region n u]
        exact m.le_extendPaths n _
      have hcdep' : (m.update n u).cdep = m.cdep := by rw [hm]; rfl
      refine ih (m := m.update n u) (fun r l hl => ?_) (fun l hl => ?_)
        fun u' hu' => hus u' (List.mem_cons_of_mem u hu')
      · refine le_trans ?_ (hgrow l)
        rw [hm]
        show (if r = u.dest_reg then m.destTime n u else m.reg r) l ≤ _
        split
        · rw [Analysis.destTime, cut_of_lt _ hl, hnone]
          refine maxOver_le_iff.mpr ⟨?_, fun src hsrc => ?_⟩
          · rw [Analysis.baseTime, hnone]
            show m.ctrlTime u l ≤ _
            unfold Analysis.ctrlTime
            split
            · exact hcdep l hl
            · exact Nat.zero_le _
          · rw [Analysis.sourceTime, hnone, hfree src hsrc]
            exact h src.1 l hl
        · exact h r l hl
      · rw [hcdep']
        exact (hcdep l hl).trans (hgrow l)

/-- **After an instruction the registers are on the critical paths.** -/
theorem instr_onPath (h : OnPath n m) (hcdep : ∀ l < n, m.cdep l ≤ (m.region l).cp)
    (hpaid : Paid L n c i.dest m ((updates i).foldl (Analysis.update n) m)) :
    OnPath n ((updates i).foldl (Analysis.update n) m) := by
  rcases updates_shape i with ⟨us, u, hup, hcp⟩ | hfree
  · intro r l hl
    by_cases hr : r = i.dest
    · -- the last update has put its own time on the paths
      have hlast : (updates i).foldl (Analysis.update n) m
          = (us.foldl (Analysis.update n) m).update n u := by
        rw [hup, List.foldl_append, List.foldl_cons, List.foldl_nil]
      have hdest : u.dest_reg = i.dest :=
        updates_dest i u (by rw [hup]; exact List.mem_append_right _ (List.mem_singleton_self u))
      generalize us.foldl (Analysis.update n) m = x at hlast
      obtain ⟨region, hm⟩ := x.update_eq n u
      have hreg : (x.update n u).reg r = x.destTime n u := by
        rw [hm]
        show (if r = u.dest_reg then x.destTime n u else x.reg r) = _
        rw [if_pos (hr.trans hdest.symm)]
      rw [hlast, hreg, x.update_region n u, if_pos hcp]
      show _ ≤ (if l < n then (x.region l).updateCriticalPathLength (x.destTime n u l)
        else x.region l).cp
      rw [if_pos hl]
      exact le_max_left _ _
    · obtain ⟨w, hregion, -, -⟩ := hpaid.paths
      rw [hpaid.others r hr, hregion]
      exact (h r l hl).trans (m.le_extendPaths n w l)
  · exact h.foldl hcdep hfree

end Updates

end Kremlin.Runtime
