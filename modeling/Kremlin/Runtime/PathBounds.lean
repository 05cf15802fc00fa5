/-
  Kremlin.Runtime.PathBounds — every time is paid for.

  In the analysis a time has at each level at most what was charged directly in
  that region and the critical paths of its closed children, on top of its
  component in the child (`Ledger.Within`).  The invariant is `Bounded`: it
  holds of every register, memory word and control dependence, and of the
  critical paths themselves.  Each event of a well-formed program keeps it
  (`Bounded.apply`), if no region is charged more than its `_KWork` and no
  instruction reads its destination back.
-/
import Kremlin.Runtime.UpdateCosts

namespace Kremlin.Runtime

open Kremlin.Library
open KremlinProfiler

/-! ## §1. Charges by level. -/

/-- A quantity of the open regions, by level. -/
def ofLevel (f : OpenRegion → ℕ) : List OpenRegion → ℕ → ℕ
  | [], _ => 0
  | r :: rs, l => if l = rs.length then f r else ofLevel f rs l

/-- The innermost region. -/
theorem ofLevel_top (f : OpenRegion → ℕ) (r : OpenRegion) (rs : List OpenRegion) :
    ofLevel f (r :: rs) rs.length = f r := if_pos rfl

/-- The regions around it. -/
theorem ofLevel_below {l : ℕ} (f : OpenRegion → ℕ) (r : OpenRegion) {rs : List OpenRegion}
    (hl : l < rs.length) : ofLevel f (r :: rs) l = ofLevel f rs l := if_neg (by omega)

/-- No region is charged more than its `_KWork`. -/
def Program.Paid (p : Program) : Prop := ∀ r ∈ p.regions, r.cost ≤ r.work

instance (p : Program) : Decidable p.Paid := inferInstanceAs (Decidable (∀ _ ∈ _, _))

section Charge

variable (p : Program) (work cost l : ℕ)

/-- A charge goes to the innermost region. -/
theorem ofLevel_charge (f : OpenRegion → ℕ) (d : ℕ)
    (hf : ∀ r : OpenRegion, f { r with work := r.work + work, cost := r.cost + cost } = f r + d) :
    ofLevel f (p.charge work cost).regions l
      = if l + 1 = p.depth then ofLevel f p.regions l + d else ofLevel f p.regions l := by
  unfold Program.charge Program.depth
  cases p.regions with
  | nil =>
      rw [List.length_nil, if_neg (Nat.succ_ne_zero l)]
  | cons r rs =>
      simp only [ofLevel, List.length_cons, Nat.add_right_cancel_iff]
      split
      · exact hf r
      · rfl

/-- What a charge leaves alone. -/
theorem ofLevel_charge_of_eq (f : OpenRegion → ℕ)
    (hf : ∀ r : OpenRegion, f { r with work := r.work + work, cost := r.cost + cost } = f r) :
    ofLevel f (p.charge work cost).regions l = ofLevel f p.regions l := by
  rw [ofLevel_charge p work cost l f 0 hf]
  split <;> rfl

end Charge

/-! ## §2. The invariant. -/

/-- What is charged in the regions and on the paths of their closed children, and
the critical paths. -/
def ledger (p : Program) (m : Analysis) : Ledger where
  allow l := ofLevel OpenRegion.cost p.regions l + (m.region l).childrenCP
  path := cut p.depth fun l => (m.region l).cp

/-- The registers of one activation are paid for. -/
structure FrameWithin (L : Ledger) (top : ℕ) (a : Activation) (reg : Registers) : Prop where
  level : a.level < top
  within : ∀ r, L.Within top (reg r)

/-- Every time the program can read is paid for. -/
structure TimesWithin (L : Ledger) (p : Program) (m : Analysis) : Prop where
  frames : LevelFrames Activation.level (FrameWithin L) p.depth p.acts m.regs
  cdep : L.Within p.depth m.cdep
  outer : List.Forall₂ (fun q c => L.Within (q + 1) c) p.cdeps m.outer
  mem : ∀ w, L.Within p.depth (m.mem w)

/-- The totals of a region's closed children. -/
structure TotalsOk (r : ProgramRegion) : Prop where
  max_le : r.childMaxCP ≤ r.childrenCP
  path_le : r.childrenCP ≤ r.childrenWork
  max_le_cp : r.childMaxCP ≤ r.cp

/-- The open regions.  The time since a region was entered is the work charged in
it and in its children, the open child among them. -/
structure RegionsBounded (limit : ℕ) (p : Program) (m : Analysis) : Prop where
  within : p.depth ≤ limit
  paths : Accounted (ledger p m).allow p.depth 0 (ledger p m).path
  nested : ∀ l, l + 1 < p.depth → (m.region (l + 1)).cp ≤ (m.region l).cp
  totals : ∀ l < p.depth, TotalsOk (m.region l)
  clock : ∀ l < p.depth,
    (m.region l).start + ofLevel OpenRegion.work p.regions l + (m.region l).childrenWork
      = if l + 1 < p.depth then (m.region (l + 1)).start else m.time
  last : ∀ l < p.depth, limit ≤ l + 1 → (m.region l).childCount = 0

/-- The control dependences in force, newest first, were pushed in open regions. -/
structure DependencesInside (p : Program) : Prop where
  inside : ∀ q ∈ p.cdeps, q < p.depth
  sorted : p.cdeps.Pairwise (· ≥ ·)

/-- The invariant: what a time may be at each level, and that the regions pay for it. -/
structure Bounded (limit : ℕ) (p : Program) (m : Analysis) : Prop where
  regions : RegionsBounded limit p m
  times : TimesWithin (ledger p m) p m
  cdeps : DependencesInside p
  -- nothing is executed before the body
  fresh : ∀ a ∈ p.acts.head?, a.phase ≠ .body → (ledger p m).path a.level = 0

/-- Nothing has a time. -/
theorem bounded_start (limit : ℕ) : Bounded limit Program.start Analysis.start where
  regions :=
    { within := Nat.zero_le limit
      paths := fun _ hl => absurd hl (Nat.not_lt_zero _)
      nested := fun _ hl => absurd hl (Nat.not_lt_zero _)
      totals := fun _ hl => absurd hl (Nat.not_lt_zero _)
      clock := fun _ hl => absurd hl (Nat.not_lt_zero _)
      last := fun _ hl => absurd hl (Nat.not_lt_zero _) }
  times := ⟨trivial, Ledger.within_zero _ _, .nil, fun _ => Ledger.within_zero _ _⟩
  cdeps := ⟨fun _ hq => absurd hq List.not_mem_nil, .nil⟩
  fresh _ ha := by cases ha

/-- The path of an open region. -/
theorem ledger_path_of_lt {p : Program} {l : ℕ} (m : Analysis) (hl : l < p.depth) :
    (ledger p m).path l = (m.region l).cp :=
  cut_of_lt (fun l => (m.region l).cp) hl

/-- There is none beyond them. -/
theorem ledger_path_depth (p : Program) (m : Analysis) : (ledger p m).path p.depth = 0 :=
  cut_of_le (fun l => (m.region l).cp) le_rfl

/-- The ledger depends on the open regions only. -/
theorem ledger_congr {p p' : Program} {m m' : Analysis} (hp : p'.regions = p.regions)
    (hm : m'.region = m.region) : ledger p' m' = ledger p m := by
  unfold ledger Program.depth
  rw [hp, hm]

section Times

variable {L L' : Ledger} {p : Program} {m : Analysis}

/-- A larger ledger allows as much in every frame, -/
theorem frames_mono {n top : ℕ} {acts : List Activation} {regs : List Registers}
    (h : LevelFrames Activation.level (FrameWithin L) top acts regs) (hle : Ledger.Le n L L')
    (htop : top ≤ n) : LevelFrames Activation.level (FrameWithin L') top acts regs :=
  h.imp (fun _ _ _ hf => hf.level.le)
    (fun _ _ _ hn hf => ⟨hf.level, fun r => (hf.within r).mono hle hn⟩) htop

/-- and in every row of control dependences. -/
theorem outer_mono {n : ℕ} {qs : List ℕ} {cs : List (ℕ → ℕ)} (hqs : ∀ q ∈ qs, q < n)
    (h : List.Forall₂ (fun q c => L.Within (q + 1) c) qs cs) (hle : Ledger.Le n L L') :
    List.Forall₂ (fun q c => L'.Within (q + 1) c) qs cs := by
  induction h with
  | nil => exact .nil
  | cons hc _ ih =>
      have hq := hqs _ List.mem_cons_self
      exact .cons (hc.mono hle hq) (ih fun q hmem => hqs q (List.mem_cons_of_mem _ hmem))

/-- A larger ledger allows as much. -/
theorem TimesWithin.mono (h : TimesWithin L p m) (hcdeps : DependencesInside p)
    (hle : Ledger.Le p.depth L L') : TimesWithin L' p m where
  frames := frames_mono h.frames hle le_rfl
  cdep := h.cdep.mono hle le_rfl
  outer := outer_mono hcdeps.inside h.outer hle
  mem w := (h.mem w).mono hle le_rfl

end Times

/-! ## §3. Charging the innermost region. -/

section Charging

variable {limit : ℕ} {p p' : Program} {m m' : Analysis} {a : Activation}
  {rest : List Activation}

/-- Work is charged and spent. -/
theorem ledger_work (p : Program) (m : Analysis) (amount : ℕ) :
    ledger (p.charge amount 0) { m with time := m.time + amount } = ledger p m := by
  unfold ledger
  rw [Program.depth_charge]
  congr 1
  funext l
  rw [ofLevel_charge_of_eq p amount 0 l OpenRegion.cost fun _ => rfl]

/-- Time passes in the innermost region. -/
theorem RegionsBounded.work (h : RegionsBounded limit p m) (amount : ℕ) :
    RegionsBounded limit (p.charge amount 0) { m with time := m.time + amount } := by
  have hd := Program.depth_charge p amount 0
  have hcost := ledger_work p m amount
  refine ⟨by rw [hd]; exact h.within, by rw [hcost, hd]; exact h.paths, by rw [hd]; exact h.nested,
    by rw [hd]; exact h.totals, fun l hl => ?_, by rw [hd]; exact h.last⟩
  rw [hd] at hl ⊢
  have hclock := h.clock l hl
  rw [ofLevel_charge p amount 0 l OpenRegion.work amount fun _ => rfl]
  by_cases hlast : l + 1 < p.depth
  · rw [if_pos hlast] at hclock ⊢
    rw [if_neg (by omega)]
    exact hclock
  · rw [if_neg hlast] at hclock ⊢
    rw [if_pos (by omega)]
    show (m.region l).start + (_ + amount) + (m.region l).childrenWork = m.time + amount
    omega

/-- The regions after the innermost one is charged and the paths are extended. -/
theorem ledger_extend {c : ℕ} {w : ℕ → ℕ} (hp : p'.regions = p.regions)
    (hregion : m'.region = (m.extendPaths p.depth w).region) :
    ledger (p'.charge 0 c) m' = ((ledger p m).pay p.depth c).extend p.depth w := by
  have hd : p'.depth = p.depth := congrArg List.length hp
  have hallow : ∀ l, ofLevel OpenRegion.cost (p'.charge 0 c).regions l + (m'.region l).childrenCP
      = if l + 1 = p.depth then (ledger p m).allow l + c else (ledger p m).allow l := by
    intro l
    have hchildren : (m'.region l).childrenCP = (m.region l).childrenCP := by
      rw [hregion]
      show (if l < p.depth then (m.region l).updateCriticalPathLength (w l)
        else m.region l).childrenCP = _
      split <;> rfl
    rw [ofLevel_charge p' 0 c l OpenRegion.cost c fun _ => rfl, hd, hp, hchildren]
    show _ = if l + 1 = p.depth then ofLevel OpenRegion.cost p.regions l + _ + c
      else ofLevel OpenRegion.cost p.regions l + _
    split
    · exact Nat.add_right_comm _ _ _
    · rfl
  have hpath : ∀ l, cut p.depth (fun l => (m'.region l).cp) l
      = if l < p.depth then max (w l) ((ledger p m).path l) else (ledger p m).path l := by
    intro l
    by_cases hl : l < p.depth
    · rw [cut_of_lt _ hl, if_pos hl, ledger_path_of_lt m hl, hregion]
      show (if l < p.depth then _ else _ : ProgramRegion).cp = _
      rw [if_pos hl]
      rfl
    · rw [cut_of_le _ (by omega), if_neg hl]
      exact (cut_of_le (fun l => (m.region l).cp) (by omega)).symm
  unfold ledger
  rw [Program.depth_charge, hd]
  exact congrArg₂ Ledger.mk (funext hallow) (funext hpath)

/-- The paths of the open regions get longer. -/
theorem RegionsBounded.extend (h : RegionsBounded limit p m) {c : ℕ} {w : ℕ → ℕ}
    (hp : p'.regions = p.regions) (hregion : m'.region = (m.extendPaths p.depth w).region)
    (htime : m'.time = m.time) (horder : Antitone w)
    (hpaid : Accounted ((ledger p m).pay p.depth c).allow p.depth 0 w) :
    RegionsBounded limit (p'.charge 0 c) m' := by
  have hd : (p'.charge 0 c).depth = p.depth := by
    rw [Program.depth_charge]
    exact congrArg List.length hp
  -- only the critical path of an open region changes
  have hr : ∀ l < p.depth, m'.region l = (m.region l).updateCriticalPathLength (w l) := by
    intro l hl
    rw [hregion]
    exact if_pos hl
  refine ⟨by rw [hd]; exact h.within, ?_, fun l hl => ?_, fun l hl => ?_, fun l hl => ?_,
    fun l hl hlast => ?_⟩
  · rw [hd, ledger_extend hp hregion]
    refine (hpaid.max h.paths.pay).congr fun l hl => ?_
    exact if_pos hl
  · rw [hd] at hl
    rw [hr l (by omega), hr (l + 1) hl]
    exact max_le_max (horder (Nat.le_succ l)) (h.nested l hl)
  · rw [hd] at hl
    have ht := h.totals l hl
    rw [hr l hl]
    exact ⟨ht.max_le, ht.path_le, ht.max_le_cp.trans (le_max_right _ _)⟩
  · rw [hd] at hl ⊢
    -- the cost is no work, so the clock stays
    have hclock := h.clock l hl
    have hwork : ofLevel OpenRegion.work (p'.charge 0 c).regions l
        = ofLevel OpenRegion.work p.regions l := by
      rw [ofLevel_charge_of_eq p' 0 c l OpenRegion.work fun _ => rfl, hp]
    rw [hr l hl, hwork, htime]
    show (m.region l).start + _ + (m.region l).childrenWork = _
    rw [hclock]
    by_cases hnext : l + 1 < p.depth
    · rw [if_pos hnext, if_pos hnext, hr _ hnext]
      rfl
    · rw [if_neg hnext, if_neg hnext]
  · rw [hd] at hl
    rw [hr l hl]
    exact h.last l hl hlast

end Charging

/-! ## §4. Entering and leaving a region. -/

section Nesting

variable {limit : ℕ} {p p' : Program} {m m' : Analysis} {r : OpenRegion} {rs : List OpenRegion}

/-- The critical paths are themselves paid for. -/
theorem RegionsBounded.pathWithin (h : RegionsBounded limit p m) :
    (ledger p m).Within p.depth (ledger p m).path where
  onPath _ _ := le_rfl
  accounted := by
    rw [ledger_path_depth]
    exact h.paths

/-- Entering a region leaves the ledger above it. -/
theorem ledger_enter {id : SID} {ty : RegionType} (hp : p'.regions = r :: p.regions)
    (hregion : m'.region = fun l => if l = p.depth then .init id ty m.time else m.region l) :
    Ledger.Le p.depth (ledger p m) (ledger p' m') ∧ (ledger p' m').path = (ledger p m).path := by
  have hsame : ∀ l, l ≠ p.depth → m'.region l = m.region l := by
    intro l hl
    rw [hregion]
    exact if_neg hl
  have hpath : (ledger p' m').path = (ledger p m).path := by
    funext l
    show cut p'.depth (fun l => (m'.region l).cp) l = cut p.depth (fun l => (m.region l).cp) l
    have hd : p'.depth = p.depth + 1 := by rw [Program.depth, hp, List.length_cons, Program.depth]
    rw [hd]
    by_cases hl : l < p.depth
    · rw [cut_of_lt _ (by omega), cut_of_lt _ hl, hsame l (by omega)]
    · rw [cut_of_le (fun l => (m.region l).cp) (by omega)]
      by_cases htop : l = p.depth
      · rw [cut_of_lt _ (by omega), hregion]
        exact congrArg ProgramRegion.cp (if_pos htop)
      · exact cut_of_le _ (by omega)
  refine ⟨⟨fun l hl => ?_, fun l _ => by rw [hpath]⟩, hpath⟩
  show ofLevel _ _ l + _ ≤ ofLevel _ p'.regions l + (m'.region l).childrenCP
  rw [hp, ofLevel_below _ _ hl, hsame l (by omega)]

/-- A region is entered: it has no time, no path and no children. -/
theorem RegionsBounded.enter {id : SID} {ty : RegionType} (h : RegionsBounded limit p m)
    (hlimit : p.depth < limit) (hp : p'.regions = ⟨id, ty, 0, 0⟩ :: p.regions)
    (hregion : m'.region = fun l => if l = p.depth then .init id ty m.time else m.region l)
    (htime : m'.time = m.time) : RegionsBounded limit p' m' := by
  have hd : p'.depth = p.depth + 1 := by rw [Program.depth, hp, List.length_cons, Program.depth]
  obtain ⟨hle, hpath⟩ := ledger_enter hp hregion
  -- the regions around it stay
  have hbelow : ∀ l < p.depth, m'.region l = m.region l := by
    intro l hl
    rw [hregion]
    exact if_neg (by omega)
  have htop : m'.region p.depth = .init id ty m.time := by
    rw [hregion]
    exact if_pos rfl
  refine ⟨by omega, ?_, fun l hl => ?_, fun l hl => ?_, fun l hl => ?_, fun l hl hlast => ?_⟩
  · -- a path that ends in the region around may be continued inside
    have hzero : (ledger p' m').path p.depth = 0 := by rw [hpath, ledger_path_depth]
    have hsucc := (h.pathWithin.mono hle le_rfl).succ hzero (ledger_path_depth p m)
    have haccount := hsucc.accounted
    rw [← hd, ledger_path_depth] at haccount
    rw [hpath]
    exact haccount
  · rw [hd] at hl
    rw [hbelow l (by omega)]
    by_cases hnext : l + 1 < p.depth
    · rw [hbelow _ hnext]
      exact h.nested l hnext
    · rw [show l + 1 = p.depth by omega, htop]
      exact Nat.zero_le _
  · rw [hd] at hl
    rcases Nat.lt_succ_iff_lt_or_eq.mp hl with hlt | rfl
    · rw [hbelow l hlt]
      exact h.totals l hlt
    · rw [htop]
      exact ⟨le_rfl, le_rfl, le_rfl⟩
  · rw [hd] at hl ⊢
    rw [hp]
    rcases Nat.lt_succ_iff_lt_or_eq.mp hl with hlt | rfl
    · have hclock := h.clock l hlt
      rw [hbelow l hlt, ofLevel_below _ _ hlt, if_pos (by omega), hclock]
      by_cases hnext : l + 1 < p.depth
      · rw [if_pos hnext, hbelow _ hnext]
      · rw [if_neg hnext, show l + 1 = p.depth by omega, htop]
        rfl
    · rw [htop, if_neg (by omega), htime, show p.depth = p.regions.length from rfl, ofLevel_top]
      rfl
  · rw [hd] at hl
    rcases Nat.lt_succ_iff_lt_or_eq.mp hl with hlt | rfl
    · rw [hbelow l hlt]
      exact h.last l hlt hlast
    · rw [htop]
      rfl

/-- The innermost region: the time since it was entered, and its critical path. -/
theorem RegionsBounded.innermost (h : RegionsBounded limit p m) (hregions : p.regions = r :: rs) :
    (m.region rs.length).start + r.work + (m.region rs.length).childrenWork = m.time ∧
      (m.region rs.length).cp ≤ r.cost + (m.region rs.length).childrenCP := by
  have hd : p.depth = rs.length + 1 := by rw [Program.depth, hregions, List.length_cons]
  have hclock := h.clock rs.length (by omega)
  have hpath := h.paths rs.length (by omega)
  rw [if_neg (by omega), hregions, ofLevel_top] at hclock
  rw [if_neg (by omega), ledger_path_of_lt m (by omega), Nat.add_zero] at hpath
  refine ⟨hclock, ?_⟩
  have hallow : (ledger p m).allow rs.length = r.cost + (m.region rs.length).childrenCP := by
    show ofLevel _ p.regions _ + _ = _
    rw [hregions, ofLevel_top]
  rwa [hallow] at hpath

/-- The critical path of the region left is spent in its parent. -/
theorem ledger_leave (hregions : p.regions = r :: rs) (hp : p'.regions = rs)
    (hregion : m'.region = (m.leave rs.length).region) :
    Ledger.Le rs.length ((ledger p m).leave rs.length) (ledger p' m') := by
  have hd : p.depth = rs.length + 1 := by rw [Program.depth, hregions, List.length_cons]
  have hd' : p'.depth = rs.length := by rw [Program.depth, hp]
  refine ⟨fun l hl => ?_, fun l hl => ?_⟩
  · show (if l + 1 = rs.length then ofLevel _ p.regions l + _ + (ledger p m).path rs.length
        else ofLevel _ p.regions l + _)
      ≤ ofLevel _ p'.regions l + (m'.region l).childrenCP
    rw [hregions, hp, ofLevel_below _ _ hl, hregion]
    show _ ≤ _ + (if l + 1 = rs.length then _ else m.region l : ProgramRegion).childrenCP
    by_cases hparent : l + 1 = rs.length
    · rw [if_pos hparent, if_pos hparent, ledger_path_of_lt m (by omega)]
      exact (Nat.add_assoc _ _ _).le
    · rw [if_neg hparent, if_neg hparent]
  · show cut rs.length (ledger p m).path l ≤ cut p'.depth (fun l => (m'.region l).cp) l
    rw [hd']
    by_cases hlt : l < rs.length
    · rw [cut_of_lt _ hlt, cut_of_lt _ hlt, ledger_path_of_lt m (by omega), hregion]
      show _ ≤ (if l + 1 = rs.length then _ else m.region l : ProgramRegion).cp
      split <;> exact le_rfl
    · rw [cut_of_le _ (by omega)]
      exact Nat.zero_le _

/-- **Leaving a region keeps the totals of its parent in order**, if it was
charged no more than its `_KWork`. -/
theorem RegionsBounded.leave (h : RegionsBounded limit p m) (hregions : p.regions = r :: rs)
    (hpaid : r.cost ≤ r.work) (hp : p'.regions = rs)
    (hregion : m'.region = (m.leave rs.length).region) (htime : m'.time = m.time) :
    RegionsBounded limit p' m' := by
  have hd : p.depth = rs.length + 1 := by rw [Program.depth, hregions, List.length_cons]
  have hd' : p'.depth = rs.length := by rw [Program.depth, hp]
  have hwithin := h.within
  obtain ⟨hclock, hcp⟩ := h.innermost hregions
  have htotals := h.totals rs.length (by omega)
  -- only the parent changes: it gets the child's work and path
  have hr : ∀ l, m'.region l = if l + 1 = rs.length then (m.region l).addChild
      (m.time - (m.region rs.length).start) (m.region rs.length).cp else m.region l := by
    intro l
    rw [hregion]
    rfl
  have hcp' : ∀ l, (m'.region l).cp = (m.region l).cp := by
    intro l
    rw [hr]
    split <;> rfl
  have hstart : ∀ l, (m'.region l).start = (m.region l).start := by
    intro l
    rw [hr]
    split <;> rfl
  refine ⟨by omega, ?_, fun l hl => ?_, fun l hl => ?_, fun l hl => ?_, fun l hl hlast => ?_⟩
  · -- the child's path is paid for as a whole now
    have hpath := h.pathWithin
    rw [hd] at hpath
    have haccount := (hpath.leave_cut.mono (ledger_leave hregions hp hregion) le_rfl).accounted
    have hzero : (ledger p' m').path rs.length = 0 := by
      rw [← hd']
      exact ledger_path_depth p' m'
    rw [hzero] at haccount
    rw [hd']
    refine haccount.congr fun l hl => ?_
    rw [cut_of_lt _ hl, ledger_path_of_lt m' (by omega), ledger_path_of_lt m (by omega), hcp']
  · rw [hcp', hcp']
    exact h.nested l (by omega)
  · -- the parent's totals grow by those of the child
    have hparent := h.totals l (by omega)
    have hnested := h.nested l (by omega)
    rw [hr]
    by_cases hchild : l + 1 = rs.length
    · rw [if_pos hchild]
      rw [hchild] at hnested
      have h₁ := hparent.max_le
      have h₂ := hparent.path_le
      have h₃ := hparent.max_le_cp
      have h₄ := htotals.path_le
      refine ⟨?_, ?_, ?_⟩
      · show (if _ then _ else _) ≤ _ + _
        split <;> omega
      · show (m.region l).childrenCP + _ ≤ (m.region l).childrenWork + _
        omega
      · show (if _ then _ else _) ≤ (m.region l).cp
        split <;> omega
    · rw [if_neg hchild]
      exact hparent
  · rw [hd'] at hl ⊢
    have hparent := h.clock l (by omega)
    rw [if_pos (by omega), hregions, ofLevel_below _ _ hl] at hparent
    rw [hstart, hstart, hp, hr]
    by_cases hchild : l + 1 = rs.length
    · rw [if_pos hchild, if_neg (by omega), htime]
      rw [hchild] at hparent
      show (m.region l).start + _ + ((m.region l).childrenWork + _) = _
      omega
    · rw [if_neg hchild, if_pos (by omega)]
      exact hparent
  · omega

end Nesting

/-! ## §5. Events. -/

section Events

variable {limit : ℕ} {p p' : Program} {m m' : Analysis} {a : Activation} {rest : List Activation}

/-- The current activation and its registers. -/
theorem Bounded.current (h : Bounded limit p m) (hacts : p.acts = a :: rest) :
    ∃ reg regs, m.regs = reg :: regs ∧ FrameWithin (ledger p m) p.depth a reg ∧
      LevelFrames Activation.level (FrameWithin (ledger p m)) a.level rest regs := by
  have hframes := h.times.frames
  rw [hacts] at hframes
  exact frames_cons.mp hframes

/-- The registers of the current function are within their paths. -/
theorem Bounded.reg (h : Bounded limit p m) (hacts : p.acts = a :: rest) (r : ℕ) :
    (ledger p m).Within p.depth (m.reg r) := by
  obtain ⟨reg, regs, hregs, hframe, -⟩ := h.current hacts
  rw [Analysis.reg, hregs]
  exact hframe.within r

/-- An event after which the analysis is the same. -/
theorem Bounded.continue (h : Bounded limit p m) (hacts : p.acts = a :: rest) (a' : Activation)
    (hlevel : a'.level = a.level) (hphase : a'.phase ≠ .body → a.phase ≠ .body) (p' : Program)
    (hregions : p'.regions = p.regions) (hacts' : p'.acts = a' :: rest)
    (hcdeps : p'.cdeps = p.cdeps) : Bounded limit p' m := by
  have hd : p'.depth = p.depth := congrArg List.length hregions
  have hl : ledger p' m = ledger p m := ledger_congr hregions rfl
  obtain ⟨reg, regs, hregs, hframe, hrest⟩ := h.current hacts
  have hr := h.regions
  refine ⟨⟨by rw [hd]; exact hr.within, by rw [hl, hd]; exact hr.paths, by rw [hd]; exact hr.nested,
    by rw [hd]; exact hr.totals, by rw [hd, hregions]; exact hr.clock, by rw [hd]; exact hr.last⟩,
    ⟨?_, by rw [hl, hd]; exact h.times.cdep, by rw [hl, hcdeps]; exact h.times.outer,
      by rw [hl, hd]; exact h.times.mem⟩,
    ⟨by rw [hd, hcdeps]; exact h.cdeps.inside, by rw [hcdeps]; exact h.cdeps.sorted⟩, ?_⟩
  · rw [hl, hd, hacts', hregs]
    exact ⟨⟨hlevel ▸ hframe.level, hframe.within⟩, hlevel ▸ hrest⟩
  · intro b hb hne
    rw [hacts'] at hb
    cases hb
    rw [hl, hlevel]
    exact h.fresh a (by rw [hacts]; rfl) (hphase hne)

/-- The body begins. -/
theorem Bounded.inBody (h : Bounded limit p m) (hacts : p.acts = a :: rest) :
    Bounded limit (p.inBody a) m :=
  h.continue hacts { a with phase := .body } rfl (fun hne => absurd rfl hne) _ rfl
    (Program.inBody_acts hacts) rfl

/-- The same analysis with other current registers. -/
theorem Bounded.withRegs (h : Bounded limit p m) {regs : List Registers}
    (hframes : LevelFrames Activation.level (FrameWithin (ledger p m)) p.depth p.acts regs) :
    Bounded limit p { m with regs := regs } where
  regions := ⟨h.regions.within, h.regions.paths, h.regions.nested, h.regions.totals,
    h.regions.clock, h.regions.last⟩
  times := ⟨hframes, h.times.cdep, h.times.outer, h.times.mem⟩
  cdeps := h.cdeps
  fresh := h.fresh

/-- Returning a time to the caller's register. -/
theorem Bounded.setCaller (h : Bounded limit p m) (hacts : p.acts = a :: rest)
    (hret : p.CanReturn a) {v : ℕ → ℕ} (hv : (ledger p m).Within p.depth v) :
    Bounded limit (p.inBody a)
      (match p.callerRegister with
        | some r => m.setCallerReg r (cut (p.depth - 1) v)
        | none => m) := by
  have h' := h.inBody hacts
  cases hcaller : p.callerRegister with
  | none => exact h'
  | some r =>
      obtain ⟨reg, regs, hregs, hframe, hrest⟩ := h.current hacts
      cases rest with
      | nil =>
          rw [Program.callerRegister, hacts] at hcaller
          cases hcaller
      | cons caller rest =>
          obtain ⟨creg, cregs, rfl, hcframe, hcrest⟩ := frames_cons.mp hrest
          have hn : p.depth - 1 = a.level := by
            have := hret.1
            omega
          have hlt := hframe.level
          refine h'.withRegs ?_
          rw [Program.inBody_acts hacts, hregs, hn]
          refine ⟨⟨hframe.level, hframe.within⟩, ⟨hcframe.level, fun r' => ?_⟩, hcrest⟩
          dsimp only
          split
          · -- the component of the callee's region is not returned
            exact (hv.restrict (by omega)).congr fun l hl => cut_of_lt v hl
          · exact hcframe.within r'

/-- Entering a region. -/
theorem Bounded.enter (ho : Ordered p m) (h : Bounded limit p m) {id : SID} {ty : RegionType}
    (hlimit : p.depth < limit) {acts : List Activation} {regs : List Registers}
    {region : ℕ → ProgramRegion}
    (hregion : region = fun l => if l = p.depth then .init id ty m.time else m.region l)
    (hframes : ∀ L, Ledger.Le p.depth (ledger p m) L → L.path p.depth = 0 →
      LevelFrames Activation.level (FrameWithin L) (p.depth + 1) acts regs)
    (hfresh : ∀ a ∈ acts.head?, a.phase ≠ .body → a.level = p.depth) :
    Bounded limit { p with regions := ⟨id, ty, 0, 0⟩ :: p.regions, acts := acts }
      { m with region := region, regs := regs } := by
  obtain ⟨hle, hpath⟩ := @ledger_enter p
    { p with regions := ⟨id, ty, 0, 0⟩ :: p.regions, acts := acts } m
    { m with region := region, regs := regs } _ id ty rfl hregion
  have hzero : (ledger { p with regions := ⟨id, ty, 0, 0⟩ :: p.regions, acts := acts }
      { m with region := region, regs := regs }).path p.depth = 0 := by
    rw [hpath, ledger_path_depth]
  refine ⟨h.regions.enter hlimit rfl hregion rfl, ⟨hframes _ hle hzero, ?_, ?_, fun w => ?_⟩,
    ⟨fun q hq => Nat.lt_succ_of_lt (h.cdeps.inside q hq), h.cdeps.sorted⟩, fun a ha hne => ?_⟩
  · exact (h.times.cdep.mono hle le_rfl).succ hzero (ho.cdep.2 _ le_rfl)
  · exact outer_mono h.cdeps.inside h.times.outer hle
  · exact ((h.times.mem w).mono hle le_rfl).succ hzero ((ho.mem w).2 _ le_rfl)
  · rw [hfresh a ha hne]
    exact hzero

/-- Leaving a region. -/
theorem Bounded.leave (h : Bounded limit p m) {r : OpenRegion} {rs : List OpenRegion}
    (hregions : p.regions = r :: rs) (hpaid : p.Paid) (hcdeps : p.cdeps.head? ≠ some rs.length)
    {acts : List Activation} {regs : List Registers}
    (hframes : ∀ L, Ledger.Le rs.length ((ledger p m).leave rs.length) L →
      LevelFrames Activation.level (FrameWithin L) rs.length acts regs)
    (hbody : ∀ a ∈ acts.head?, a.phase = .body) :
    Bounded limit { p with regions := rs, acts := acts } { m.leave rs.length with regs := regs } := by
  have hd : p.depth = rs.length + 1 := by rw [Program.depth, hregions, List.length_cons]
  have hle := @ledger_leave p { p with regions := rs, acts := acts } m
    { m.leave rs.length with regs := regs } r rs hregions rfl rfl
  -- every control dependence in force was pushed in a region still open
  have hinside : ∀ q ∈ p.cdeps, q < rs.length := by
    have hin := h.cdeps.inside
    have hsorted := h.cdeps.sorted
    cases hqs : p.cdeps with
    | nil => exact fun q hq => absurd hq List.not_mem_nil
    | cons q₀ qs =>
        rw [hqs] at hin hsorted hcdeps
        have hlt := hin q₀ List.mem_cons_self
        have hne : q₀ ≠ rs.length := fun heq => hcdeps (by rw [heq]; rfl)
        intro q hq
        rcases List.mem_cons.mp hq with rfl | hq
        · omega
        · have hle₀ := (List.pairwise_cons.mp hsorted).1 q hq
          omega
  have hlost : ∀ v, (ledger p m).Within p.depth v →
      (ledger { p with regions := rs, acts := acts }
        { m.leave rs.length with regs := regs }).Within rs.length (cut rs.length v) := by
    intro v hv
    rw [hd] at hv
    exact hv.leave_cut.mono hle le_rfl
  refine ⟨h.regions.leave hregions (hpaid r (by rw [hregions]; exact List.mem_cons_self)) rfl rfl rfl,
    ⟨hframes _ hle, hlost _ h.times.cdep, ?_, fun w => hlost _ (h.times.mem w)⟩,
    ⟨hinside, h.cdeps.sorted⟩, fun a ha hne => absurd (hbody a ha) hne⟩
  have hkept : ∀ {qs : List ℕ} {cs : List (ℕ → ℕ)}, (∀ q ∈ qs, q < rs.length) →
      List.Forall₂ (fun q c => (ledger p m).Within (q + 1) c) qs cs →
      List.Forall₂ (fun q c => ((ledger p m).leave rs.length).Within (q + 1) c) qs cs := by
    intro qs cs hqs hf
    induction hf with
    | nil => exact .nil
    | cons hc _ ih =>
        exact .cons (hc.leave (hqs _ List.mem_cons_self))
          (ih fun q hq => hqs q (List.mem_cons_of_mem _ hq))
  exact outer_mono hinside (hkept hinside h.times.outer) hle

/-- An event that is charged `c` and extends the critical paths by `w`. -/
theorem Bounded.charged (h : Bounded limit p m) (hacts : p.acts = a :: rest) {c : ℕ} {w : ℕ → ℕ}
    (hregion : m'.region = (m.extendPaths p.depth w).region) (htime : m'.time = m.time)
    (horder : Antitone w) (hpaid : Accounted ((ledger p m).pay p.depth c).allow p.depth 0 w)
    (hcdep : m'.cdep = m.cdep) (houter : m'.outer = m.outer) (hne : m'.regs ≠ [])
    (htail : m'.regs.tail = m.regs.tail)
    (hreg : ∀ r, (((ledger p m).pay p.depth c).extend p.depth w).Within p.depth (m'.reg r))
    (hmem : ∀ x, (((ledger p m).pay p.depth c).extend p.depth w).Within p.depth (m'.mem x)) :
    Bounded limit ((p.inBody a).charge 0 c) m' := by
  have hd : ((p.inBody a).charge 0 c).depth = p.depth := Program.depth_charge _ _ _
  have hl : ledger ((p.inBody a).charge 0 c) m' = ((ledger p m).pay p.depth c).extend p.depth w :=
    ledger_extend rfl hregion
  -- the new ledger allows more, so old times stay within it
  have hle := ((ledger p m).le_pay p.depth c).trans
    (((ledger p m).pay p.depth c).le_extend p.depth w)
  obtain ⟨reg, regs, hregs, hframe, hrest⟩ := h.current hacts
  obtain ⟨reg', regs', hregs'⟩ := List.exists_cons_of_ne_nil hne
  have hcurrent : m'.reg = reg' := by rw [Analysis.reg, hregs']; rfl
  rw [hregs, hregs', List.tail_cons, List.tail_cons] at htail
  refine ⟨h.regions.extend rfl hregion htime horder hpaid, ⟨?_, ?_, ?_, ?_⟩,
    ⟨by rw [hd]; exact h.cdeps.inside, h.cdeps.sorted⟩, fun b hb hphase => ?_⟩
  · rw [hl, hd, Program.acts_charge, Program.inBody_acts hacts, hregs', htail]
    refine ⟨⟨hframe.level, fun r => ?_⟩, frames_mono hrest hle hframe.level.le⟩
    rw [← hcurrent]
    exact hreg r
  · rw [hl, hd, hcdep]
    exact h.times.cdep.mono hle le_rfl
  · rw [hl, houter]
    exact outer_mono h.cdeps.inside h.times.outer hle
  · rw [hl, hd]
    exact hmem
  · rw [Program.acts_charge, Program.inBody_acts hacts] at hb
    cases hb
    exact absurd rfl hphase

/-- **An instruction keeps the times paid for.** -/
theorem Bounded.instr (ho : Ordered p m) (h : Bounded limit p m) (hacts : p.acts = a :: rest)
    {i : Instr} (hback : ¬ i.ReadsBack) :
    Bounded limit ((p.inBody a).charge 0 i.cost)
      ((updates i).foldl (Analysis.update p.depth) m) := by
  have hzero := ledger_path_depth p m
  have hnow := ho.now hacts
  have hreg := h.reg hacts
  have hcdep := h.times.cdep
  have hpaid : Paid (ledger p m) p.depth i.cost i.dest m _ :=
    instr_paid hback hnow (fun r => (hreg r).paid hzero)
      (hcdep.paid hzero) fun w => (h.times.mem w).paid hzero
  -- the destination's time is on the path, if the instruction updates the path
  have hon : OnPath p.depth ((updates i).foldl (Analysis.update p.depth) m) := by
    refine instr_onPath (fun r l hl => ?_) (fun l hl => ?_) hpaid
    · rw [← ledger_path_of_lt m hl]
      exact (hreg r).onPath l hl
    · rw [← ledger_path_of_lt m hl]
      exact hcdep.onPath l hl
  obtain ⟨-, htail, hcdep', houter, hmem, hne⟩ := hnow.foldl (updates i)
  obtain ⟨reg, regs, hregs, -, -⟩ := h.current hacts
  obtain ⟨w, hregion, hw, horder⟩ := hpaid.paths
  have hle := ((ledger p m).le_pay p.depth i.cost).trans
    (((ledger p m).pay p.depth i.cost).le_extend p.depth w)
  refine h.charged hacts hregion hpaid.time horder hw hcdep' houter
    (hne (by rw [hregs]; exact List.cons_ne_nil _ _)) htail (fun r => ⟨fun l hl => ?_, ?_⟩)
    fun x => ?_
  · refine (hon r l hl).trans (Nat.le_of_eq ?_)
    rw [hregion]
    show (if l < p.depth then _ else _ : ProgramRegion).cp
      = if l < p.depth then max (w l) ((ledger p m).path l) else _
    rw [if_pos hl, if_pos hl, ledger_path_of_lt m hl]
    rfl
  · -- beyond the open regions there is no path
    have hend : (((ledger p m).pay p.depth i.cost).extend p.depth w).path p.depth = 0 :=
      (if_neg (Nat.lt_irrefl _)).trans hzero
    rw [hend]
    by_cases hr : r = i.dest
    · rw [hr]
      exact hpaid.dest
    · rw [hpaid.others r hr]
      exact ((hreg r).paid hzero).pay
  · rw [hmem]
    exact (h.times.mem x).mono hle le_rfl

/-- What a store writes is paid for by its charge. -/
theorem Bounded.storeTime (h : Bounded limit p m) (hacts : p.acts = a :: rest) (src : Option ℕ) :
    Accounted ((ledger p m).pay p.depth STORE_COST).allow p.depth 0 (m.storeTime p.depth src) := by
  have hzero := ledger_path_depth p m
  have hcdep := h.times.cdep.paid hzero
  cases src with
  | none =>
      refine (Ledger.accounted_pay hcdep le_rfl).congr fun l hl => ?_
      rw [Analysis.storeTime, cut_of_lt _ hl]
  | some r =>
      have hsrc := (h.reg hacts r).paid hzero
      refine (Ledger.accounted_pay (hcdep.max hsrc) le_rfl).congr fun l hl => ?_
      rw [Analysis.storeTime, cut_of_lt _ hl]

/-- **A store keeps the times paid for.** -/
theorem Bounded.store (ho : Ordered p m) (h : Bounded limit p m) (hacts : p.acts = a :: rest)
    (src : Option ℕ) (addr : ℕ) :
    Bounded limit ((p.inBody a).charge 0 STORE_COST) (m.store p.depth src addr) := by
  have hzero := ledger_path_depth p m
  have hv := h.storeTime hacts src
  have hnow := ho.now hacts
  obtain ⟨reg, regs, hregs, -, -⟩ := h.current hacts
  have hle := ((ledger p m).le_pay p.depth STORE_COST).trans
    (((ledger p m).pay p.depth STORE_COST).le_extend p.depth (m.storeTime p.depth src))
  refine @Bounded.charged limit p m (m.store p.depth src addr) a rest h hacts _ _ rfl rfl
    (Analysis.storeTime_ordered (fun r => (hnow.reg r).1) hnow.cdep src).1 hv rfl rfl ?_ rfl
    (fun r => (h.reg hacts r).mono hle le_rfl) fun x => ?_
  · show m.regs ≠ []
    rw [hregs]
    exact List.cons_ne_nil _ _
  · show Ledger.Within _ _ (if x = wordOf addr then m.storeTime p.depth src else m.mem x)
    split
    · refine ⟨fun l hl => ?_, ?_⟩
      · show _ ≤ if l < p.depth then max (m.storeTime p.depth src l) _ else _
        rw [if_pos hl]
        exact le_max_left _ _
      · have hend : (((ledger p m).pay p.depth STORE_COST).extend p.depth
            (m.storeTime p.depth src)).path p.depth = 0 :=
          (if_neg (Nat.lt_irrefl _)).trans hzero
        rw [hend]
        exact hv
    · exact (h.times.mem x).mono hle le_rfl

/-- The event's instruction reads its destination back. -/
def Event.ReadsBack : Event → Prop
  | .instr i => i.ReadsBack
  | _ => False

instance : (e : Event) → Decidable e.ReadsBack
  | .instr i => inferInstanceAs (Decidable i.ReadsBack)
  | .work _ | .enterRegion _ _ | .exitRegion _ _ | .landingPad _ _ | .store _ _ _ | .storeConst _ _
  | .pushCDep _ | .popCDep | .prepCall _ _ | .enqArg _ | .enqArgConst | .deqArg _
  | .prepRTable _ _ | .linkReturn _ | .ret _ | .retConst => .isFalse id

/-- Work is billed to the innermost open region and adds to no ledger. -/
theorem Bounded.work (h : Bounded limit p m) (amount : ℕ) :
    Bounded limit (p.charge amount 0) (m.apply p (.work amount)) := by
  have hd := Program.depth_charge p amount 0
  have hl := ledger_work p m amount
  refine ⟨h.regions.work amount, ⟨?_, ?_, ?_, fun w => ?_⟩, ⟨?_, h.cdeps.sorted⟩, ?_⟩
  · show LevelFrames _ (FrameWithin (ledger _ { m with time := m.time + amount })) _ _ _
    rw [hl, hd]
    exact h.times.frames
  · show Ledger.Within (ledger _ { m with time := m.time + amount }) _ _
    rw [hl, hd]
    exact h.times.cdep
  · show List.Forall₂ (fun q c =>
      (ledger (p.charge amount 0) { m with time := m.time + amount }).Within (q + 1) c) _ _
    rw [hl]
    exact h.times.outer
  · show Ledger.Within (ledger _ { m with time := m.time + amount }) _ _
    rw [hl, hd]
    exact h.times.mem w
  · rw [hd]
    exact h.cdeps.inside
  · intro b hb hphase
    show (ledger _ { m with time := m.time + amount }).path _ = 0
    rw [hl]
    exact h.fresh b hb hphase

/-- A function is entered. -/
theorem Bounded.enterFunction (id : SID) {a : Activation} {rest : List Activation}
    (ho : Ordered p m) (h : Bounded limit p m) (hlimit : p.depth < limit)
    (hacts : p.acts = a :: rest) :
    Bounded limit { p with
      regions := ⟨id, .regionFunc, 0, 0⟩ :: p.regions
      acts := ⟨p.depth, .entered, 0, 0, none⟩ :: { a with phase := .body } :: rest }
      (m.apply p (.enterRegion id .regionFunc)) := by
  obtain ⟨reg, regs, hregs, hframe, hrest⟩ := h.current hacts
  refine h.enter ho hlimit rfl (fun L hle _ => ?_) fun b hb _ => by cases hb; rfl
  rw [hregs]
  exact ⟨⟨Nat.lt_succ_self _, fun _ => Ledger.within_zero _ _⟩,
    ⟨hframe.level, fun r => (hframe.within r).mono hle le_rfl⟩,
    frames_mono hrest hle hframe.level.le⟩

/-- A loop or its body is entered. -/
theorem Bounded.enterLoop (id : SID) {ty : RegionType} {a : Activation} {rest : List Activation}
    (ho : Ordered p m) (h : Bounded limit p m) (hlimit : p.depth < limit)
    (hacts : p.acts = a :: rest) (hty : ty ≠ .regionFunc) :
    Bounded limit { p with
      regions := ⟨id, ty, 0, 0⟩ :: p.regions
      acts := { a with phase := .body } :: rest } (m.apply p (.enterRegion id ty)) := by
  obtain ⟨reg, regs, hregs, hframe, hrest⟩ := h.current hacts
  have hlt := hframe.level
  simp only [Analysis.apply, if_neg hty]
  refine h.enter ho hlimit rfl (fun L hle hzero => ?_) fun b hb hne => ?_
  · -- the loop's own component is 0 in every register, as its path is
    have hreg := (ho.now hacts).reg
    rw [Analysis.reg, hregs] at hreg
    rw [hregs]
    refine ⟨⟨Nat.lt_succ_of_lt hlt, fun r => ?_⟩, frames_mono hrest hle hlt.le⟩
    exact ((hframe.within r).mono hle le_rfl).succ hzero ((hreg r).2 _ le_rfl)
  · cases hb
    exact absurd rfl hne

/-- A function is left. -/
theorem Bounded.exitFunction {a : Activation} {rest : List Activation} {r : OpenRegion}
    {rs : List OpenRegion} (ho : Ordered p m) (h : Bounded limit p m)
    (hacts : p.acts = a :: rest) (hregions : p.regions = r :: rs)
    (hcdeps : p.cdeps.head? ≠ some rs.length) (hlevel : a.level = rs.length) (hpaid : p.Paid) :
    Bounded limit { p with regions := rs, acts := rest }
      (m.apply p (.exitRegion r.id .regionFunc)) := by
  obtain ⟨reg, regs, hregs, hframe, hrest⟩ := h.current hacts
  have hs := ho.suspended
  rw [hacts] at hs
  have hn : p.depth - 1 = rs.length := by
    rw [Program.depth, hregions, List.length_cons, Nat.add_sub_cancel]
  show Bounded limit _ (m.leaveFunction (p.depth - 1))
  rw [hn]
  refine h.leave hregions hpaid hcdeps (fun L hle => ?_) fun b hb => ?_
  · show LevelFrames _ _ rs.length rest m.regs.tail
    rw [hregs, ← hlevel, List.tail_cons]
    rw [← hlevel] at hle
    refine hrest.imp (fun _ _ _ hf => hf.level.le) (fun top _ _ htop hf => ?_) le_rfl
    exact ⟨hf.level, fun r => ((hf.within r).leave htop).mono hle htop⟩
  · exact hs b (List.mem_of_mem_head? hb)

/-- A loop or its body is left. -/
theorem Bounded.exitLoop {a : Activation} {rest : List Activation} {r : OpenRegion}
    {rs : List OpenRegion} (h : Bounded limit p m) (hacts : p.acts = a :: rest)
    (hregions : p.regions = r :: rs) (hty : r.type ≠ .regionFunc)
    (hcdeps : p.cdeps.head? ≠ some rs.length) (hlevel : a.level < rs.length) (hpaid : p.Paid) :
    Bounded limit { p with regions := rs, acts := { a with phase := .body } :: rest }
      (m.apply p (.exitRegion r.id r.type)) := by
  obtain ⟨reg, regs, hregs, hframe, hrest⟩ := h.current hacts
  have hd : p.depth = rs.length + 1 := by rw [Program.depth, hregions, List.length_cons]
  have hn : p.depth - 1 = rs.length := by omega
  rw [show m.apply p (.exitRegion r.id r.type) = m.leaveLoop (p.depth - 1) from if_neg hty, hn]
  refine h.leave hregions hpaid hcdeps (fun L hle => ?_) fun b hb => by cases hb; rfl
  show LevelFrames _ _ rs.length _ ((fun r => cut rs.length (m.reg r)) :: m.regs.tail)
  rw [hregs, List.tail_cons]
  refine ⟨⟨hlevel, fun r => ?_⟩, ?_⟩
  · have hreg := h.reg hacts r
    rw [hd] at hreg
    exact hreg.leave_cut.mono hle le_rfl
  · -- the suspended functions are all below the loop
    refine hrest.imp (fun _ _ _ hf => hf.level.le) (fun top _ _ htop hf => ?_) le_rfl
    have htop' : top ≤ rs.length := (show top ≤ a.level from htop).trans hlevel.le
    exact ⟨hf.level, fun r => ((hf.within r).leave htop').mono hle htop'⟩

/-- The current dependences go to the stack. -/
theorem Bounded.pushCDep {cond : ℕ} {a : Activation} {rest : List Activation} (ho : Ordered p m)
    (h : Bounded limit p m) (hacts : p.acts = a :: rest) :
    Bounded limit { p.inBody a with cdeps := (p.depth - 1) :: p.cdeps }
      (m.apply p (.pushCDep cond)) := by
  have h' := h.inBody hacts
  have hpos := ho.depth_pos hacts
  refine ⟨⟨h'.regions.within, h'.regions.paths, h'.regions.nested, h'.regions.totals,
    h'.regions.clock, h'.regions.last⟩, ⟨h'.times.frames, h.reg hacts cond, .cons ?_ h.times.outer,
    h'.times.mem⟩, ⟨fun q hq => ?_, List.pairwise_cons.mpr ⟨fun q hq => ?_, h.cdeps.sorted⟩⟩,
    h'.fresh⟩
  · rw [hpos]
    exact h.times.cdep
  · show q < p.depth
    rcases List.mem_cons.mp hq with rfl | hq
    · omega
    · exact h.cdeps.inside q hq
  · have hq' := h.cdeps.inside q hq
    show q ≤ p.depth - 1
    omega

/-- A popped dependence leaves the one below it, within the ledger of the same depth. -/
theorem Bounded.popCDep {qs : List ℕ} {a : Activation} {rest : List Activation}
    (ho : Ordered p m) (h : Bounded limit p m) (hacts : p.acts = a :: rest)
    (hcdeps : p.cdeps = (p.depth - 1) :: qs) :
    Bounded limit { p.inBody a with cdeps := qs } (m.apply p .popCDep) := by
  have h' := h.inBody hacts
  have houter := h.times.outer
  have hinside := h.cdeps.inside
  have hsorted := h.cdeps.sorted
  rw [hcdeps] at houter hinside hsorted
  cases hc : m.outer with
  | nil => rw [hc] at houter; cases houter
  | cons c cs =>
      rw [hc] at houter
      cases houter with
      | cons hhead htail =>
          rw [ho.depth_pos hacts] at hhead
          refine ⟨⟨h'.regions.within, h'.regions.paths, h'.regions.nested, h'.regions.totals,
            h'.regions.clock, h'.regions.last⟩, ⟨h'.times.frames, ?_, ?_, h'.times.mem⟩,
            ⟨fun q hq => hinside q (List.mem_cons_of_mem _ hq),
              (List.pairwise_cons.mp hsorted).2⟩, h'.fresh⟩
          · show Ledger.Within _ p.depth (m.outer.headD fun _ => 0)
            rw [hc]
            exact hhead
          · show List.Forall₂ _ qs m.outer.tail
            rw [hc]
            exact htail

/-- A taken argument was within the caller's ledger; the callee's path is still 0. -/
theorem Bounded.deqArg {dest src : ℕ} {args : List ℕ} {a caller : Activation}
    {rest : List Activation} (ho : Ordered p m) (h : Bounded limit p m)
    (hacts : p.acts = a :: caller :: rest) (hphase : a.phase = .arguments)
    (hargs : p.args = src :: args) :
    Bounded limit { p with args := args } (m.apply p (.deqArg dest)) := by
  obtain ⟨reg, regs, hregs, hframe, hrest⟩ := h.current hacts
  obtain ⟨creg, cregs, rfl, hcframe, hcrest⟩ := frames_cons.mp hrest
  obtain ⟨oreg, oregs, horegs, hoframe, horest⟩ := ho.current hacts
  rw [hregs] at horegs
  cases horegs
  have hocframe : OrderedFrame a.level caller creg := horest.1
  obtain ⟨htop, hfresh⟩ := hoframe.fresh (by rw [hphase]; exact Phase.noConfusion)
  -- taking the argument from the queue changes no time
  have hsame : Bounded limit { p with args := args } m :=
    h.continue hacts a rfl id _ rfl hacts rfl
  simp only [Analysis.apply, hargs, hregs]
  by_cases hdummy : src = DUMMY_ARG
  · rw [if_pos hdummy]
    exact hsame
  · rw [if_neg hdummy, argument_eq htop (hfresh dest) (hocframe.ordered src)]
    refine hsame.withRegs ?_
    show LevelFrames _ _ p.depth p.acts ((fun r' => if r' = dest then creg src else m.reg r')
      :: m.regs.tail)
    rw [hacts, hregs]
    have hreg : m.reg = reg := by rw [Analysis.reg, hregs]; rfl
    rw [hreg]
    refine ⟨⟨hframe.level, fun r => ?_⟩, hrest⟩
    split
    · -- the callee's own region has no component yet
      have hzero := h.fresh a (by rw [hacts]; rfl) (by rw [hphase]; exact Phase.noConfusion)
      have hsucc := (hcframe.within src).succ hzero ((hocframe.ordered src).2 _ le_rfl)
      rw [htop] at hsucc
      exact hsucc
    · exact hframe.within r

/-- **One event keeps the invariant.** -/
theorem Bounded.apply {e : Event} (ho : Ordered p m) (h : Bounded limit p m)
    (hmove : p.Move limit e p') (hpaid : p.Paid) (hback : ¬ e.ReadsBack) :
    Bounded limit p' (m.apply p e) := by
  cases hmove with
  | work amount => exact h.work amount
  | enterMain id hlimit hacts =>
      -- before the first function there are no frames
      have hframes := h.times.frames
      rw [hacts, frames_nil] at hframes
      refine h.enter ho hlimit rfl (fun L _ _ => ?_) fun b hb _ => by cases hb; rfl
      rw [hframes]
      exact ⟨⟨Nat.lt_succ_self _, fun _ => Ledger.within_zero _ _⟩, trivial⟩
  | enterFunction id hlimit hacts hphase => exact h.enterFunction id ho hlimit hacts
  | enterLoop id hlimit hacts hphase hty hnested => exact h.enterLoop id ho hlimit hacts hty
  | exitFunction hacts hphase hregions hty hcdeps hlevel =>
      exact h.exitFunction ho hacts hregions hcdeps hlevel hpaid
  | exitLoop hacts hphase hregions hty hcdeps hlevel =>
      exact h.exitLoop hacts hregions hty hcdeps hlevel hpaid
  | instr hacts hphase hr => exact h.instr ho hacts hback
  | @store src addr size a rest hacts hphase hsrc => exact h.store ho hacts (some src) addr
  | storeConst hacts hphase => exact h.store ho hacts none _
  | pushCDep hacts hphase hcond => exact h.pushCDep ho hacts
  | popCDep hacts hphase hcdeps => exact h.popCDep ho hacts hcdeps
  | @prepCall c r a rest hacts hphase =>
      exact h.continue hacts { a with phase := .body } rfl (fun hne => absurd rfl hne) _ rfl
        (Program.inBody_acts hacts) rfl
  | @enqArg arg a rest hacts hphase harg =>
      exact h.continue hacts { a with phase := .body } rfl (fun hne => absurd rfl hne) _ rfl
        (Program.inBody_acts hacts) rfl
  | @enqArgConst a rest hacts hphase =>
      exact h.continue hacts { a with phase := .body } rfl (fun hne => absurd rfl hne) _ rfl
        (Program.inBody_acts hacts) rfl
  | deqArg hacts hphase hargs hdest hsrc => exact h.deqArg ho hacts hphase hargs
  | @prepRTable rows nested a rest hacts hphase =>
      exact h.continue hacts { a with phase := .arguments, rows := rows, nested := nested } rfl
        (fun _ => by rw [hphase]; exact Phase.noConfusion) _ rfl (Program.setCurrent_acts hacts _) rfl
  | @linkReturn dest a rest hacts hphase hdest =>
      exact h.continue hacts { a with phase := .body, linked := some dest } rfl
        (fun hne => absurd rfl hne) _ rfl (Program.setCurrent_acts hacts _) rfl
  | @ret src a rest hacts hphase hsrc hret => exact h.setCaller hacts hret (h.reg hacts src)
  | @retConst a rest hacts hphase hret => exact h.setCaller hacts hret h.times.cdep

end Events

end Kremlin.Runtime
