/-
  Kremlin.Instrument.ChainDiscovery — which chains are found.

  `chain_status` makes the block a forest: an instruction that is used once, by one
  with the same operator, goes to that one.  The chains are the paths with three
  instructions or more that begin in leaves.

  Main results:
    * `findChains_spec` — the chains that are found;
    * `preserves_iff` — when no two of them share an instruction, so that breaking
      them keeps the values.
-/
import Kremlin.Instrument.ChainRewriting
import Kremlin.Library.ForestPaths
import Kremlin.Library.Run
import Mathlib.Order.Lattice.Nat

namespace Kremlin.Instrument.AssociativeDependenceBreak

open Kremlin.Library Kremlin.Library.StraightLine Kremlin.Library.ForestPaths

variable {E : Type} {BB : BasicBlock E}

/-- Additions and multiplications have two operands. -/
def BinaryOperators (BB : BasicBlock E) : Prop :=
  ∀ i ∈ BB.insts, i.op.opcode.isAssociative = true → i.operands.length = 2

/-- No two instructions have one number. -/
theorem nodup_ids (hBB : BB.WellFormed reads) : (BB.insts.map Inst.id).Nodup := by
  have hall : ∀ (insts : List (Instruction E)) (known : Set ℕ), Defined reads known insts →
      (insts.map Inst.id).Nodup := by
    intro insts
    induction insts with
    | nil => exact fun _ _ => List.nodup_nil
    | cons i insts ih =>
        intro known hdef
        refine List.nodup_cons.mpr ⟨fun hin => ?_, ih _ hdef.2.2⟩
        obtain ⟨j, hj, hid⟩ := List.mem_map.mp hin
        exact hdef.2.2.notMem ⟨j, hj, hid⟩ (Set.mem_insert _ _)
  exact hall BB.insts ∅ hBB.defined

variable [DecidableEq E]

/-! ## §1. Uses. -/

/-- Of a value with one use: who uses it. -/
theorem one_use {x : ℕ} (huses : getNumUses BB x = 1) {j : Instruction E} (hj : j ∈ BB.insts)
    (hx : .inst x ∈ j.operands) :
    j.operands.count (.inst x) = 1 ∧ .inst x ∉ BB.outside ∧
      ∀ i ∈ BB.insts, .inst x ∈ i.operands → i = j := by
  obtain ⟨l, r, hsplit⟩ := List.append_of_mem hj
  unfold getNumUses at huses
  rw [hsplit, List.flatMap_append, List.flatMap_cons, List.count_append, List.count_append,
    List.count_append] at huses
  have hpos := List.count_pos_iff.mpr hx
  have hzero : ∀ insts : List (Instruction E),
      (insts.flatMap Inst.operands).count (.inst x) = 0 → ∀ i ∈ insts, .inst x ∉ i.operands :=
    fun insts hcount i hi hop =>
      List.count_eq_zero.mp hcount (List.mem_flatMap.mpr ⟨i, hi, hop⟩)
  refine ⟨by omega, List.count_eq_zero.mp (by omega), fun i hi hop => ?_⟩
  rw [hsplit] at hi
  rcases List.mem_append.mp hi with hi | hi
  · exact absurd hop (hzero l (by omega) i hi)
  · rcases List.mem_cons.mp hi with heq | hi
    · exact heq
    · exact absurd hop (hzero r (by omega) i hi)

/-- The first user is one of the block. -/
theorem firstUser_eq_some {x : ℕ} {u : Instruction E} (h : firstUser BB x = some u) :
    u ∈ BB.insts ∧ .inst x ∈ u.operands := by
  unfold firstUser at h
  refine ⟨List.mem_of_find?_eq_some h, ?_⟩
  have hfound := List.find?_some h
  exact of_decide_eq_true hfound

/-- What is used has a first user. -/
theorem exists_firstUser {x : ℕ} {j : Instruction E} (hj : j ∈ BB.insts)
    (hx : .inst x ∈ j.operands) : ∃ u, firstUser BB x = some u :=
  Option.isSome_iff_exists.mp (List.find?_isSome.mpr ⟨j, hj, decide_eq_true hx⟩)

/-! ## §2. `chain_status`. -/

/-- An addition or multiplication that is used, and no pointer. -/
structure Candidate (BB : BasicBlock E) (i : Instruction E) : Prop where
  isAssociative : i.op.opcode.isAssociative = true
  isPointer : i.op.isPointer = false
  used : 1 ≤ getNumUses BB i.id

/-- The candidates are those with a status. -/
theorem basicStatus_ne_none {i : Instruction E} :
    basicStatus BB i ≠ .none ↔ Candidate BB i := by
  unfold basicStatus
  constructor
  · intro h
    split at h
    · next hop =>
      rw [Bool.and_eq_true, Bool.not_eq_true'] at hop
      refine ⟨hop.1, hop.2, Nat.one_le_iff_ne_zero.mpr fun hzero => h ?_⟩
      rw [hzero]
      rfl
    · exact absurd rfl h
  · rintro ⟨hassoc, hpointer, hused⟩
    rw [hassoc, hpointer, if_pos (by rfl)]
    split
    · exact fun h => nomatch h
    · rw [if_pos (by omega)]
      exact fun h => nomatch h

/-- A candidate that is used once may be a link. -/
theorem basicStatus_eq_link {i : Instruction E} :
    basicStatus BB i = .link ↔ Candidate BB i ∧ getNumUses BB i.id = 1 := by
  constructor
  · intro h
    refine ⟨basicStatus_ne_none.mp (by rw [h]; exact fun h => nomatch h), ?_⟩
    unfold basicStatus at h
    split at h
    · split at h
      · next hone => exact hone
      · split at h <;> cases h
    · cases h
  · rintro ⟨⟨hassoc, hpointer, -⟩, hone⟩
    unfold basicStatus
    rw [hassoc, hpointer, if_pos (by rfl), if_pos hone]

/-- Updates at different keys. -/
theorem foldl_update {α : Type} (key : α → ℕ) (value : α → ChainStatus) :
    ∀ (xs : List α) (f : ℕ → ChainStatus), (xs.map key).Nodup →
      (∀ x ∈ xs, xs.foldl (fun f x => Function.update f (key x) (value x)) f (key x) = value x) ∧
        ∀ y, y ∉ xs.map key →
          xs.foldl (fun f x => Function.update f (key x) (value x)) f y = f y
  | [], f, _ => ⟨fun x hx => absurd hx List.not_mem_nil, fun y _ => rfl⟩
  | a :: xs, f, hnodup => by
      obtain ⟨ha, hxs⟩ := List.nodup_cons.mp hnodup
      obtain ⟨hin, hout⟩ := foldl_update key value xs (Function.update f (key a) (value a)) hxs
      refine ⟨fun x hx => ?_, fun y hy => ?_⟩
      · rcases List.mem_cons.mp hx with rfl | hx
        · rw [List.foldl_cons, hout _ ha, Function.update_self]
        · exact hin x hx
      · rw [List.map_cons, List.mem_cons, not_or] at hy
        rw [List.foldl_cons, hout y hy.2, Function.update_of_ne hy.1]

/-- The instruction cannot be followed by its user. -/
def Stops (BB : BasicBlock E) (status : ℕ → ChainStatus) (i : Instruction E) : Prop :=
  ∀ u, firstUser BB i.id = some u → status u.id = .none ∨ u.op.opcode ≠ i.op.opcode

/-- A link whose user stops the chain becomes its end; nothing else changes. -/
theorem checkUser_eq (BB : BasicBlock E) (status : ℕ → ChainStatus) (i : Instruction E) :
    (status i.id = .link ∧ Stops BB status i ∧
        checkUser BB status i = Function.update status i.id .chainEnd) ∨
      (¬(status i.id = .link ∧ Stops BB status i) ∧ checkUser BB status i = status) := by
  unfold checkUser
  by_cases hlink : status i.id = .link
  · rw [if_neg (not_not.mpr hlink)]
    cases huser : firstUser BB i.id with
    | none =>
        refine .inl ⟨hlink, fun u hu => ?_, rfl⟩
        rw [huser] at hu
        cases hu
    | some u =>
        by_cases hstop : status u.id = .none ∨ u.op.opcode ≠ i.op.opcode
        · refine .inl ⟨hlink, fun v hv => ?_, if_pos hstop⟩
          rw [huser, Option.some.injEq] at hv
          exact hv ▸ hstop
        · exact .inr ⟨fun h => hstop (h.2 u huser), if_neg hstop⟩
  · exact .inr ⟨fun h => hlink h.1, if_pos hlink⟩

/-- The second loop turns the instructions that stop into ends. -/
theorem foldl_checkUser (BB : BasicBlock E) :
    ∀ (insts : List (Instruction E)) (status : ℕ → ChainStatus),
    (insts.map Inst.id).Nodup →
      (∀ i ∈ insts, (status i.id = .link ∧ Stops BB status i ∧
          insts.foldl (checkUser BB) status i.id = .chainEnd) ∨
        (¬(status i.id = .link ∧ Stops BB status i) ∧
          insts.foldl (checkUser BB) status i.id = status i.id)) ∧
      ∀ y, y ∉ insts.map Inst.id → insts.foldl (checkUser BB) status y = status y
  | [], status, _ => ⟨fun i hi => absurd hi List.not_mem_nil, fun _ _ => rfl⟩
  | a :: insts, status, hnodup => by
      obtain ⟨ha, hinsts⟩ := List.nodup_cons.mp hnodup
      obtain ⟨hin, hout⟩ := foldl_checkUser BB insts (checkUser BB status a) hinsts
      -- no status becomes `none`, or is `none` no longer
      have hother : ∀ y, y ≠ a.id → checkUser BB status a y = status y := by
        intro y hy
        rcases checkUser_eq BB status a with ⟨-, -, heq⟩ | ⟨-, heq⟩
        · rw [heq, Function.update_of_ne hy]
        · rw [heq]
      have hnone : ∀ y, checkUser BB status a y = .none ↔ status y = .none := by
        intro y
        by_cases hy : y = a.id
        · rcases checkUser_eq BB status a with ⟨hlink, -, heq⟩ | ⟨-, heq⟩
          · rw [heq, hy, Function.update_self, hlink]
            exact ⟨fun h => (nomatch h), fun h => (nomatch h)⟩
          · rw [heq]
        · rw [hother y hy]
      have hstops : ∀ i, Stops BB (checkUser BB status a) i ↔ Stops BB status i := fun i =>
        forall_congr' fun u => imp_congr_right fun _ => or_congr_left (hnone u.id)
      refine ⟨fun i hi => ?_, fun y hy => ?_⟩
      · rcases List.mem_cons.mp hi with rfl | hi
        · rw [List.foldl_cons, hout _ ha]
          rcases checkUser_eq BB status i with ⟨hlink, hstop, heq⟩ | ⟨hnot, heq⟩
          · exact .inl ⟨hlink, hstop, by rw [heq, Function.update_self]⟩
          · exact .inr ⟨hnot, by rw [heq]⟩
        · have hne : i.id ≠ a.id := fun heq => ha (heq ▸ List.mem_map_of_mem hi)
          have hi' := hin i hi
          rw [hstops, hother i.id hne] at hi'
          exact hi'
      · rw [List.map_cons, List.mem_cons, not_or] at hy
        rw [List.foldl_cons, hout y hy.2, hother y hy.1]

/-- `y` alone uses `x`, once, with the same operator. -/
def Feeds (BB : BasicBlock E) (x y : ℕ) : Prop :=
  ∃ i ∈ BB.insts, ∃ j ∈ BB.insts, i.id = x ∧ j.id = y ∧ Candidate BB i ∧ Candidate BB j ∧
    j.op.opcode = i.op.opcode ∧ getNumUses BB x = 1 ∧ .inst x ∈ j.operands

/-- The instruction a chain goes on with. -/
def nextInst (BB : BasicBlock E) (x : ℕ) : Option ℕ :=
  if chainStatus BB x = .link then (firstUser BB x).map Inst.id else none

section Status

instance (i : Instruction E) : Decidable (Candidate BB i) :=
  decidable_of_iff (i.op.opcode.isAssociative = true ∧ i.op.isPointer = false ∧
    1 ≤ getNumUses BB i.id) ⟨fun ⟨h, h', h''⟩ => ⟨h, h', h''⟩, fun ⟨h, h', h''⟩ => ⟨h, h', h''⟩⟩

/-- The links, by a search through the block. -/
theorem feeds_iff {x y : ℕ} : Feeds BB x y ↔ ∃ i ∈ BB.insts, ∃ j ∈ BB.insts, i.id = x ∧ j.id = y ∧
    Candidate BB i ∧ Candidate BB j ∧ j.op.opcode = i.op.opcode ∧ getNumUses BB x = 1 ∧
      j.operands.any (fun v => decide (v = .inst x)) = true := by
  simp only [List.any_eq_true, decide_eq_true_eq, exists_eq_right]
  rfl

instance (x y : ℕ) : Decidable (Feeds BB x y) := decidable_of_iff' _ feeds_iff

variable (hBB : BB.WellFormed reads)

include hBB

/-- The status that is left: the ends are the links whose user is no candidate of the same
operator. -/
theorem chainStatus_eq {i : Instruction E} (hi : i ∈ BB.insts) :
    (basicStatus BB i = .link ∧ (∀ u, firstUser BB i.id = some u →
        ¬Candidate BB u ∨ u.op.opcode ≠ i.op.opcode) ∧ chainStatus BB i.id = .chainEnd) ∨
      (¬(basicStatus BB i = .link ∧ ∀ u, firstUser BB i.id = some u →
        ¬Candidate BB u ∨ u.op.opcode ≠ i.op.opcode) ∧
        chainStatus BB i.id = basicStatus BB i) := by
  have hnodup := nodup_ids hBB
  obtain ⟨hfirst, -⟩ := foldl_update Inst.id (basicStatus BB) BB.insts (fun _ => .none) hnodup
  have hsecond := (foldl_checkUser BB BB.insts (BB.insts.foldl
    (fun status inst => Function.update status inst.id (basicStatus BB inst)) fun _ => .none)
    hnodup).1 i hi
  have hstops : Stops BB (BB.insts.foldl (fun status inst =>
      Function.update status inst.id (basicStatus BB inst)) fun _ => .none) i ↔
      ∀ u, firstUser BB i.id = some u → ¬Candidate BB u ∨ u.op.opcode ≠ i.op.opcode := by
    refine forall_congr' fun u => imp_congr_right fun hu => or_congr_left ?_
    rw [hfirst u (firstUser_eq_some hu).1, ← not_iff_not, not_not]
    exact basicStatus_ne_none
  rw [hstops, hfirst i hi] at hsecond
  exact hsecond

/-- What is no instruction of the block has no status. -/
theorem chainStatus_notMem {x : ℕ} (hx : x ∉ ids BB.insts) : chainStatus BB x = .none := by
  have hnodup := nodup_ids hBB
  have hnot : x ∉ BB.insts.map Inst.id := fun hin => by
    obtain ⟨i, hi, hid⟩ := List.mem_map.mp hin
    exact hx ⟨i, hi, hid⟩
  obtain ⟨-, hfirst⟩ := foldl_update Inst.id (basicStatus BB) BB.insts (fun _ => .none) hnodup
  have hsecond := (foldl_checkUser BB BB.insts (BB.insts.foldl
    (fun status inst => Function.update status inst.id (basicStatus BB inst)) fun _ => .none)
    hnodup).2 x hnot
  exact hsecond.trans (hfirst x hnot)

/-- The second pass takes no status away. -/
theorem chainStatus_ne_none {i : Instruction E} (hi : i ∈ BB.insts) :
    chainStatus BB i.id ≠ .none ↔ Candidate BB i := by
  rcases chainStatus_eq hBB hi with ⟨hlink, -, heq⟩ | ⟨-, heq⟩
  · rw [heq]
    exact ⟨fun _ => (basicStatus_eq_link.mp hlink).1, fun _ h => nomatch h⟩
  · rw [heq]
    exact basicStatus_ne_none

/-- **Where a chain goes on.** -/
theorem nextInst_eq_some {x y : ℕ} : nextInst BB x = some y ↔ Feeds BB x y := by
  constructor
  · intro h
    unfold nextInst at h
    split at h
    · next hlink =>
      obtain ⟨j, hj, rfl⟩ := Option.map_eq_some_iff.mp h
      obtain ⟨hjmem, hx⟩ := firstUser_eq_some hj
      have hmem : x ∈ ids BB.insts := by
        by_contra hnot
        rw [chainStatus_notMem hBB hnot] at hlink
        cases hlink
      obtain ⟨i, hi, rfl⟩ := hmem
      rcases chainStatus_eq hBB hi with ⟨-, -, heq⟩ | ⟨hnot, heq⟩
      · rw [heq] at hlink
        cases hlink
      · rw [hlink] at heq
        obtain ⟨hcand, hone⟩ := basicStatus_eq_link.mp heq.symm
        -- => the user did not stop the chain, so it is a candidate of the same operator
        have hstop : ¬(¬Candidate BB j ∨ j.op.opcode ≠ i.op.opcode) := fun hstop =>
          hnot ⟨heq.symm, fun u hu => by
            rw [hj, Option.some.injEq] at hu
            exact hu ▸ hstop⟩
        rw [not_or, not_not, not_not] at hstop
        exact ⟨i, hi, j, hjmem, rfl, rfl, hcand, hstop.1, hstop.2, hone, hx⟩
    · cases h
  · rintro ⟨i, hi, j, hj, rfl, rfl, hcandi, hcandj, hop, hone, hx⟩
    obtain ⟨u, hu⟩ := exists_firstUser hj hx
    obtain ⟨humem, hxu⟩ := firstUser_eq_some hu
    -- there is one use, so the first user is the only one
    have huj : u = j := (one_use hone hj hx).2.2 u humem hxu
    have hlink : chainStatus BB i.id = .link := by
      rcases chainStatus_eq hBB hi with ⟨-, hstop, -⟩ | ⟨-, heq⟩
      · rcases hstop u hu with hnot | hne
        · exact absurd (huj ▸ hcandj) hnot
        · exact absurd (huj ▸ hop) hne
      · rw [heq]
        exact basicStatus_eq_link.mpr ⟨hcandi, hone⟩
    unfold nextInst
    rw [if_pos hlink, hu, huj]
    rfl

/-- Where the path ends there is no link. -/
theorem nextInst_none {i : Instruction E} (hi : i ∈ BB.insts) (hnext : nextInst BB i.id = none) :
    chainStatus BB i.id ≠ .link := by
  intro hlink
  unfold nextInst at hnext
  rw [if_pos hlink, Option.map_eq_none_iff] at hnext
  rcases chainStatus_eq hBB hi with ⟨-, -, heq⟩ | ⟨hnot, heq⟩
  · rw [heq] at hlink
    cases hlink
  · refine hnot ⟨heq ▸ hlink, fun u hu => ?_⟩
    rw [hnext] at hu
    cases hu

/-! ## §3. The chains. -/

/-- The next instruction comes later in the block. -/
theorem nextInst_rank_lt (x y : ℕ) (h : nextInst BB x = some y) :
    rank BB.insts x < rank BB.insts y := by
  obtain ⟨i, hi, j, hj, rfl, rfl, -, hcand, -, -, hx⟩ := (nextInst_eq_some hBB).mp h
  exact hBB.defined.rank_lt hj (reads_of_isAssociative hcand.isAssociative) hx

/-- It comes in the block. -/
theorem nextInst_rank_bound (x y : ℕ) (h : nextInst BB x = some y) :
    rank BB.insts y < BB.insts.length := by
  obtain ⟨i, hi, j, hj, rfl, rfl, -⟩ := (nextInst_eq_some hBB).mp h
  exact rank_lt_length ⟨j, hj, rfl⟩

/-- `chainFrom` follows the path. -/
theorem chainFrom_eq {x : ℕ} {c : List ℕ} (hpath : Path (nextInst BB) x c) :
    ∀ i ∈ BB.insts, i.id = x → Candidate BB i → ∀ fuel, c.length ≤ fuel →
      chainFrom BB (chainStatus BB) fuel i = some c := by
  induction hpath with
  | last hnext =>
      intro i hi hid hcand fuel hfuel
      subst hid
      have hlink := nextInst_none hBB hi hnext
      have hnone := (chainStatus_ne_none hBB hi).mpr hcand
      have hend : chainStatus BB i.id = .chainEnd := by
        cases hstatus : chainStatus BB i.id with
        | none => exact absurd hstatus hnone
        | link => exact absurd hstatus hlink
        | chainEnd => rfl
      cases fuel with
      | zero => exact absurd hfuel (Nat.not_succ_le_zero 0)
      | succ fuel =>
          rw [chainFrom, hend]
  | @step x y c hnext hpath ih =>
      intro i hi hid hcand fuel hfuel
      subst hid
      obtain ⟨-, -, j, hj, -, rfl, -, hcandj, -⟩ := (nextInst_eq_some hBB).mp hnext
      unfold nextInst at hnext
      split at hnext
      · next hlink =>
        obtain ⟨u, hu, hid⟩ := Option.map_eq_some_iff.mp hnext
        have huj : u = j := hBB.defined.unique (firstUser_eq_some hu).1 hj hid
        cases fuel with
        | zero => exact absurd hfuel (Nat.not_succ_le_zero _)
        | succ fuel =>
            -- the walk goes to the next instruction, where the rest of the path begins
            have hrest := ih j hj rfl hcandj fuel (Nat.le_of_succ_le_succ hfuel)
            rw [chainFrom, hlink]
            show (firstUser BB i.id).bind _ = _
            rw [hu, Option.bind_some, huj]
            show (chainFrom BB (chainStatus BB) fuel j).bind _ = _
            rw [hrest]
            rfl
      · cases hnext

/-- The loop, when it has passed the instructions `past`. -/
structure Found (BB : BasicBlock E) (past : List (Instruction E))
    (found : List (List ℕ) × List ℕ) : Prop where
  nodup : found.1.Nodup
  sound : ∀ c ∈ found.1, ∃ i ∈ past, Leaf (nextInst BB) i.id ∧ Path (nextInst BB) i.id c ∧
    3 ≤ c.length
  complete : ∀ i ∈ past, Leaf (nextInst BB) i.id → ∀ c, Path (nextInst BB) i.id c →
    3 ≤ c.length → c ∈ found.1
  used : ∀ y, y ∈ found.2 ↔ ∃ c ∈ found.1, y ∈ c

omit hBB in
/-- An instruction that begins no long chain is passed. -/
theorem Found.skip {past : List (Instruction E)} {found : List (List ℕ) × List ℕ}
    (h : Found BB past found) {inst : Instruction E}
    (hshort : Leaf (nextInst BB) inst.id → ∀ c, Path (nextInst BB) inst.id c → ¬3 ≤ c.length) :
    Found BB (past ++ [inst]) found where
  nodup := h.nodup
  sound c hc := by
    obtain ⟨i, hi, hrest⟩ := h.sound c hc
    exact ⟨i, List.mem_append_left _ hi, hrest⟩
  complete i hi hleaf c hc hlong := by
    rcases List.mem_append.mp hi with hi | hi
    · exact h.complete i hi hleaf c hc hlong
    · rw [List.mem_singleton.mp hi] at hleaf hc
      exact absurd hlong (hshort hleaf c hc)
  used := h.used

omit hBB in
/-- A long chain that begins in a leaf is recorded. -/
theorem Found.add {past : List (Instruction E)} {found : List (List ℕ) × List ℕ}
    (h : Found BB past found) {inst : Instruction E} {c : List ℕ}
    (hleaf : Leaf (nextInst BB) inst.id) (hc : Path (nextInst BB) inst.id c)
    (hlong : 3 ≤ c.length) (hnew : inst.id ∉ found.2) :
    Found BB (past ++ [inst]) (found.1 ++ [c], found.2 ++ c) where
  nodup := by
    refine List.nodup_append.mpr ⟨h.nodup, List.nodup_singleton c, fun d hd e he heq => hnew ?_⟩
    rw [List.mem_singleton.mp he] at heq
    exact (h.used inst.id).mpr ⟨d, hd, heq ▸ hc.head_mem⟩
  sound d hd := by
    rcases List.mem_append.mp hd with hd | hd
    · obtain ⟨i, hi, hrest⟩ := h.sound d hd
      exact ⟨i, List.mem_append_left _ hi, hrest⟩
    · rw [List.mem_singleton.mp hd]
      exact ⟨inst, List.mem_append_right _ (List.mem_singleton_self inst), hleaf, hc, hlong⟩
  complete i hi hleaf' d hd hlong' := by
    rcases List.mem_append.mp hi with hi | hi
    · exact List.mem_append_left _ (h.complete i hi hleaf' d hd hlong')
    · rw [List.mem_singleton.mp hi] at hd
      -- there is one path from a leaf
      rw [hd.unique hc]
      exact List.mem_append_right _ (List.mem_singleton_self c)
  used y := by
    rw [List.mem_append, h.used y]
    constructor
    · rintro (⟨d, hd, hy⟩ | hy)
      · exact ⟨d, List.mem_append_left _ hd, hy⟩
      · exact ⟨c, List.mem_append_right _ (List.mem_singleton_self c), hy⟩
    · rintro ⟨d, hd, hy⟩
      rcases List.mem_append.mp hd with hd | hd
      · exact .inl ⟨d, hd, hy⟩
      · rw [List.mem_singleton.mp hd] at hy
        exact .inr hy

/-- **One round of the loop.** -/
theorem Found.step {past rest : List (Instruction E)} {inst : Instruction E}
    {found : List (List ℕ) × List ℕ} (hsplit : BB.insts = past ++ inst :: rest)
    (h : Found BB past found) : ∃ found', findChain BB (chainStatus BB) found inst = some found' ∧
      Found BB (past ++ [inst]) found' := by
  have hi : inst ∈ BB.insts := by
    rw [hsplit]
    exact List.mem_append_right _ List.mem_cons_self
  have hnotPast : ∀ i ∈ past, i.id ≠ inst.id := by
    have hnodup := nodup_ids hBB
    rw [hsplit, List.map_append] at hnodup
    exact fun i hi => (List.nodup_append.mp hnodup).2.2 _ (List.mem_map_of_mem hi) _
      List.mem_cons_self
  -- what comes before the instruction has been passed
  have hpast : ∀ p, rank BB.insts p < rank BB.insts inst.id → p ∈ ids past := by
    intro p hp
    rw [hsplit] at hp
    exact mem_of_rank_lt hp
  unfold findChain
  by_cases hskip : inst.id ∈ found.2 ∨ chainStatus BB inst.id = .none
  · rw [if_pos hskip]
    refine ⟨found, rfl, h.skip fun hleaf c hc hlong => ?_⟩
    rcases hskip with hused | hnone
    · obtain ⟨d, hd, hmem⟩ := (h.used inst.id).mp hused
      obtain ⟨i, hi, -, hpath, -⟩ := h.sound d hd
      exact hnotPast i hi (hpath.eq_of_leaf hmem hleaf).symm
    · have hend : nextInst BB inst.id = none := by
        unfold nextInst
        rw [if_neg (by rw [hnone]; exact fun h => nomatch h)]
      rw [hc.unique (.last hend)] at hlong
      exact Nat.not_succ_le_self 1 (Nat.le_of_succ_le hlong)
  · rw [if_neg hskip]
    rw [not_or] at hskip
    have hcand := (chainStatus_ne_none hBB hi).mp hskip.2
    have hin : rank BB.insts inst.id < BB.insts.length := rank_lt_length ⟨inst, hi, rfl⟩
    obtain ⟨c, hc, hlength⟩ := exists_path (nextInst_rank_lt hBB) (nextInst_rank_bound hBB)
      inst.id hin
    have hchain := chainFrom_eq hBB hc inst hi rfl hcand BB.insts.length (by omega)
    show ∃ found', ((chainFrom BB (chainStatus BB) BB.insts.length inst).bind fun chain =>
      if minChainLength ≤ chain.length then some (found.1 ++ [chain], found.2 ++ chain)
      else some found) = some found' ∧ _
    rw [hchain, Option.bind_some]
    by_cases hlong : minChainLength ≤ c.length
    · rw [if_pos hlong]
      refine ⟨_, rfl, h.add ?_ hc hlong hskip.1⟩
      -- a longer chain would have been recorded, with this instruction in it
      by_contra hleaf
      obtain ⟨y, ys, hy, hys, hmem, hlt, -⟩ := exists_leaf (nextInst_rank_lt hBB) hc
      have hne : inst.id ≠ y := fun heq => hleaf (heq ▸ hy)
      have hrank := hys.rank_le (nextInst_rank_lt hBB) hmem
      obtain ⟨p, hp, hpnext⟩ := hys.exists_prev hmem hne
      have hyp := hys.rank_le (nextInst_rank_lt hBB) hp
      have hpi := nextInst_rank_lt hBB p inst.id hpnext
      obtain ⟨i, hipast, rfl⟩ := hpast y (Nat.lt_of_le_of_lt hyp hpi)
      refine hskip.1 ((h.used inst.id).mpr ⟨ys, ?_, hmem⟩)
      exact h.complete i hipast hy ys hys (Nat.le_trans hlong (Nat.le_of_lt (hlt hleaf)))
    · rw [if_neg hlong]
      exact ⟨found, rfl, h.skip fun _ d hd => hd.unique hc ▸ hlong⟩

/-- **The chains that are found** are the paths with three instructions or more that begin
in leaves. -/
theorem findChains_spec : ∃ chains, findChains BB = some chains ∧ chains.Nodup ∧
    ∀ c, c ∈ chains ↔ ∃ x, Leaf (nextInst BB) x ∧ Path (nextInst BB) x c ∧ 3 ≤ c.length := by
  have hstart : Found BB [] ([], []) :=
    ⟨List.nodup_nil, fun c hc => absurd hc List.not_mem_nil,
      fun i hi => absurd hi List.not_mem_nil, fun y => ⟨fun hy => absurd hy List.not_mem_nil,
        fun ⟨c, hc, _⟩ => absurd hc List.not_mem_nil⟩⟩
  obtain ⟨found, hrun, h⟩ := foldlM_done (f := findChain BB (chainStatus BB)) (Found BB) BB.insts
    (fun past x rest s hsplit hs => Found.step hBB hsplit hs) hstart
  refine ⟨found.1, ?_, h.nodup, fun c => ⟨fun hc => ?_, ?_⟩⟩
  · unfold findChains
    rw [hrun]
    rfl
  · obtain ⟨i, -, hrest⟩ := h.sound c hc
    exact ⟨i.id, hrest⟩
  · rintro ⟨x, hleaf, hpath, hlong⟩
    have hmem : ∃ i ∈ BB.insts, i.id = x := by
      cases hpath with
      | last => exact absurd (Nat.le_of_succ_le hlong) (Nat.not_succ_le_self 1)
      | step hnext =>
          obtain ⟨i, hi, -, -, hid, -⟩ := (nextInst_eq_some hBB).mp hnext
          exact ⟨i, hi, hid⟩
    obtain ⟨i, hi, rfl⟩ := hmem
    exact h.complete i hi hleaf c hpath hlong

/-! ## §4. When the chains can be broken. -/

/-- The links of a path. -/
theorem links_of_path (hbin : BinaryOperators BB) {x : ℕ} {c : List ℕ}
    (hpath : Path (nextInst BB) x c) {opcode : Opcode} :
    ∀ i ∈ BB.insts, i.id = x → i.op.opcode = opcode → c.IsChain (Link BB opcode) := by
  induction hpath with
  | last => exact fun _ _ _ _ => List.isChain_singleton _
  | @step x y c hnext hpath ih =>
      intro i hi hid hop
      subst hid
      obtain ⟨i', hi', j, hj, hid, rfl, hcandi, hcandj, hopj, hone, hx⟩ :=
        (nextInst_eq_some hBB).mp hnext
      obtain rfl := hBB.defined.unique hi' hi hid
      have hrest := ih j hj rfl (hopj.trans hop)
      obtain ⟨hcount, houtside, honly⟩ := one_use hone hj hx
      have hlink : Link BB opcode i'.id j.id := by
        refine ⟨⟨j, hj, rfl, hopj.trans hop, ?_⟩, fun k hk hkx => congrArg _ (honly k hk hkx),
          houtside⟩
        obtain ⟨v, w, hvw⟩ := List.length_eq_two.mp (hbin j hj hcandj.isAssociative)
        rw [hvw] at hcount hx
        rw [hvw]
        by_cases hv : v = .inst i'.id
        · refine ⟨w, fun hw => ?_, .inl (by rw [hv])⟩
          rw [hv, hw, List.count_cons_self, List.count_cons_self] at hcount
          omega
        · have hw : w = .inst i'.id := by
            rcases List.mem_cons.mp hx with heq | hx
            · exact absurd heq.symm hv
            · exact (List.mem_singleton.mp hx).symm
          exact ⟨v, hv, .inr (by rw [hw])⟩
      cases hpath with
      | last => exact List.isChain_pair.mpr hlink
      | step => exact List.isChain_cons_cons.mpr ⟨hlink, hrest⟩

/-- A long path can be broken. -/
theorem breakable_of_path (hbin : BinaryOperators BB) {x : ℕ} {c : List ℕ}
    (hpath : Path (nextInst BB) x c) (hlong : 3 ≤ c.length) : Breakable BB c := by
  have hmem : ∃ i ∈ BB.insts, i.id = x ∧ Candidate BB i := by
    cases hpath with
    | last => exact absurd (Nat.le_of_succ_le hlong) (Nat.not_succ_le_self 1)
    | step hnext =>
        obtain ⟨i, hi, -, -, hid, -, hcand, -⟩ := (nextInst_eq_some hBB).mp hnext
        exact ⟨i, hi, hid, hcand⟩
  obtain ⟨i, hi, rfl, hcand⟩ := hmem
  have hlinks := links_of_path hBB hbin hpath i hi rfl rfl
  cases hpath with
  | last => exact absurd (Nat.le_of_succ_le hlong) (Nat.not_succ_le_self 1)
  | @step _ y c hnext hpath =>
      refine ⟨i.op.opcode, i.id, c, rfl, hcand.isAssociative, ⟨i, hi, rfl, rfl⟩, hlinks, ?_⟩
      exact List.ne_nil_of_length_pos hpath.length_pos

/-- Where two instructions feed the same one, that one feeds none, and one of the two is
fed by none. -/
def Combs (BB : BasicBlock E) : Prop :=
  ∀ p q i, Feeds BB p i → Feeds BB q i → p ≠ q →
    (∀ j, ¬Feeds BB i j) ∧ ((∀ r, ¬Feeds BB r p) ∨ ∀ r, ¬Feeds BB r q)

omit hBB in
/-- The same, by a search through the block. -/
theorem combs_iff : Combs BB ↔ ∀ p ∈ BB.insts, ∀ q ∈ BB.insts, ∀ i ∈ BB.insts,
    Feeds BB p.id i.id → Feeds BB q.id i.id → p.id ≠ q.id →
      (∀ j ∈ BB.insts, ¬Feeds BB i.id j.id) ∧
        ((∀ r ∈ BB.insts, ¬Feeds BB r.id p.id) ∨ ∀ r ∈ BB.insts, ¬Feeds BB r.id q.id) := by
  constructor
  · intro h p hp q hq i hi hpi hqi hne
    obtain ⟨hend, hleaf⟩ := h p.id q.id i.id hpi hqi hne
    exact ⟨fun j _ => hend j.id, hleaf.imp (fun h r _ => h r.id) fun h r _ => h r.id⟩
  · intro h p q i hpi hqi hne
    have hmem : ∀ x y, Feeds BB x y → (∃ a ∈ BB.insts, a.id = x) ∧ ∃ b ∈ BB.insts, b.id = y :=
      fun x y ⟨a, ha, b, hb, hx, hy, _⟩ => ⟨⟨a, ha, hx⟩, b, hb, hy⟩
    obtain ⟨⟨a, ha, rfl⟩, c, hc, rfl⟩ := hmem _ _ hpi
    obtain ⟨⟨b, hb, rfl⟩, -⟩ := hmem _ _ hqi
    obtain ⟨hend, hleaf⟩ := h a ha b hb c hc hpi hqi hne
    refine ⟨fun j hj => ?_, hleaf.imp (fun h r hr => ?_) fun h r hr => ?_⟩
    · obtain ⟨-, d, hd, rfl⟩ := hmem _ _ hj
      exact hend d hd hj
    · obtain ⟨⟨d, hd, rfl⟩, -⟩ := hmem _ _ hr
      exact h d hd hr
    · obtain ⟨⟨d, hd, rfl⟩, -⟩ := hmem _ _ hr
      exact h d hd hr

instance : Decidable (Combs BB) := decidable_of_iff' _ combs_iff

/-- The paths to the next instructions are linear exactly if the block is made of combs. -/
theorem linear_iff : Linear (nextInst BB) ↔ Combs BB := by
  have hleaf : ∀ p, Leaf (nextInst BB) p ↔ ∀ r, ¬Feeds BB r p := fun p =>
    forall_congr' fun r => not_congr (nextInst_eq_some hBB)
  have hend : ∀ i, nextInst BB i = none ↔ ∀ j, ¬Feeds BB i j := fun i => by
    rw [Option.eq_none_iff_forall_ne_some]
    exact forall_congr' fun j => not_congr (nextInst_eq_some hBB)
  unfold Linear Combs
  refine forall_congr' fun p => forall_congr' fun q => forall_congr' fun i => ?_
  rw [nextInst_eq_some hBB, nextInst_eq_some hBB, hend, hleaf, hleaf]

/-- **No two of the chains share an instruction** exactly if the block is made of combs. -/
theorem disjoint_iff {chains : List (List ℕ)} (hnodup : chains.Nodup)
    (hspec : ∀ c, c ∈ chains ↔
      ∃ x, Leaf (nextInst BB) x ∧ Path (nextInst BB) x c ∧ 3 ≤ c.length) :
    chains.Pairwise List.Disjoint ↔ Combs BB := by
  rw [← linear_iff hBB, ← longPaths_disjoint_iff (nextInst_rank_lt hBB) (nextInst_rank_bound hBB)]
  constructor
  · intro hpair x y xs ys hx hy hne hxs hys hlong hlong'
    have hsymm : Std.Symm (@List.Disjoint ℕ) := ⟨fun _ _ h _ hx hy => h hy hx⟩
    refine hpair.forall ((hspec xs).mpr ⟨x, hx, hxs, hlong⟩)
      ((hspec ys).mpr ⟨y, hy, hys, hlong'⟩) ?_
    rintro rfl
    exact hne (hys.eq_of_leaf hxs.head_mem hx)
  · intro h
    refine hnodup.pairwise_of_forall_ne fun c hc d hd hne => ?_
    obtain ⟨x, hx, hxs, hlong⟩ := (hspec c).mp hc
    obtain ⟨y, hy, hys, hlong'⟩ := (hspec d).mp hd
    refine h x y c d hx hy ?_ hxs hys hlong hlong'
    rintro rfl
    exact hne (hxs.unique hys)

end Status

/-- What the pass should do: no two chains share an instruction, and what is left of the
block computes what it computed before. -/
def Preserves (byAddress : List (List ℕ) → List (List ℕ)) (BB : BasicBlock E) : Prop :=
  ∃ chains BB', findChains BB = some chains ∧ chains.Pairwise List.Disjoint ∧
    runOnBasicBlock byAddress BB = some BB' ∧ Keeps BB BB'

/-- In a block made of combs the chains can be broken in any order. -/
theorem Combs.breakable {byAddress : List (List ℕ) → List (List ℕ)}
    (hperm : ∀ chains, (byAddress chains).Perm chains) (hcombs : Combs BB)
    (hBB : BB.WellFormed reads) (hbin : BinaryOperators BB) :
    ∃ chains, findChains BB = some chains ∧ chains.Pairwise List.Disjoint ∧
      (byAddress chains).Pairwise List.Disjoint ∧ ∀ c ∈ byAddress chains, Breakable BB c := by
  obtain ⟨chains, hfound, hnodup, hspec⟩ := findChains_spec hBB
  have hdisjoint := (disjoint_iff hBB hnodup hspec).mpr hcombs
  refine ⟨chains, hfound, hdisjoint, hdisjoint.perm (hperm chains).symm fun h _ hx hy => h hy hx,
    fun c hc => ?_⟩
  obtain ⟨x, -, hpath, hlong⟩ := (hspec c).mp ((hperm chains).mem_iff.mp hc)
  exact breakable_of_path hBB hbin hpath hlong

/-- **The pass keeps the values of a block exactly if it is made of combs**, in whichever
order the chains are broken. -/
theorem preserves_iff {byAddress : List (List ℕ) → List (List ℕ)}
    (hperm : ∀ chains, (byAddress chains).Perm chains) (hBB : BB.WellFormed reads)
    (hbin : BinaryOperators BB) : Preserves byAddress BB ↔ Combs BB := by
  constructor
  · rintro ⟨chains, BB', hfound, hdisjoint, -⟩
    obtain ⟨chains', hfound', hnodup, hspec⟩ := findChains_spec hBB
    obtain rfl := Option.some.inj (hfound'.symm.trans hfound)
    exact (disjoint_iff hBB hnodup hspec).mp hdisjoint
  · intro hcombs
    obtain ⟨chains, hfound, hdisjoint, hpair, hbreak⟩ := hcombs.breakable hperm hBB hbin
    obtain ⟨BB', hrun, hkeeps⟩ := breakChains_keeps (byAddress chains) BB hBB hbreak hpair
    refine ⟨chains, BB', hfound, hdisjoint, ?_, hkeeps⟩
    unfold runOnBasicBlock
    rw [hfound]
    exact hrun

/-- The sum of five values, one after another. -/
def sumOfFive : BasicBlock ℕ where
  insts := [⟨0, ⟨.add, false⟩, [.ext 0, .ext 1]⟩, ⟨1, ⟨.add, false⟩, [.inst 0, .ext 2]⟩,
    ⟨2, ⟨.add, false⟩, [.ext 3, .inst 1]⟩, ⟨3, ⟨.add, false⟩, [.inst 2, .ext 4]⟩]
  outside := [.inst 3]
  next := 4

/-- A sum of five values is a block. -/
theorem sumOfFive_wellFormed : sumOfFive.WellFormed reads := by
  refine ⟨?_, by decide, ?_⟩
  · simp [sumOfFive, Defined]
  · intro x hx
    have heq : x = 3 := by simpa [sumOfFive, Block.exits, reads] using hx
    exact heq ▸ ⟨_, List.mem_cons_of_mem _ (List.mem_cons_of_mem _
      (List.mem_cons_of_mem _ List.mem_cons_self)), rfl⟩

/-- The four additions are one chain, which is broken. -/
theorem preserves_sumOfFive : Preserves id sumOfFive :=
  (preserves_iff (fun chains => List.Perm.refl chains) sumOfFive_wellFormed (by
    unfold BinaryOperators
    decide)).mpr (by decide +kernel)

/-- Two sums that are added, and a fifth value. -/
def sumsOfTwo : BasicBlock ℕ where
  insts := [⟨0, ⟨.add, false⟩, [.ext 0, .ext 1]⟩, ⟨1, ⟨.add, false⟩, [.ext 2, .ext 3]⟩,
    ⟨2, ⟨.add, false⟩, [.inst 0, .inst 1]⟩, ⟨3, ⟨.add, false⟩, [.inst 2, .ext 4]⟩]
  outside := [.inst 3]
  next := 4

/-- Two chains are found that end in the same additions; the second is broken when these
have been erased. -/
theorem sumsOfTwo_shared : sumsOfTwo.WellFormed reads ∧ BinaryOperators sumsOfTwo ∧
    findChains sumsOfTwo = some [[0, 2, 3], [1, 2, 3]] ∧
    runOnBasicBlock id sumsOfTwo = none ∧
    ∀ byAddress, ¬Preserves byAddress sumsOfTwo := by
  have hfound : findChains sumsOfTwo = some [[0, 2, 3], [1, 2, 3]] := by decide +kernel
  refine ⟨⟨?_, by decide, ?_⟩, by unfold BinaryOperators; decide, hfound, by decide +kernel, ?_⟩
  · simp [sumsOfTwo, Defined]
  · intro x hx
    have heq : x = 3 := by simpa [sumsOfTwo, Block.exits, reads] using hx
    exact heq ▸ ⟨_, List.mem_cons_of_mem _ (List.mem_cons_of_mem _
      (List.mem_cons_of_mem _ List.mem_cons_self)), rfl⟩
  · rintro byAddress ⟨chains, BB', hchains, hdisjoint, -⟩
    rw [hfound, Option.some.injEq] at hchains
    rw [← hchains] at hdisjoint
    have hpair : List.Disjoint [0, 2, 3] [1, 2, 3] :=
      List.rel_of_pairwise_cons hdisjoint List.mem_cons_self
    exact hpair (show 2 ∈ [0, 2, 3] by decide) (show 2 ∈ [1, 2, 3] by decide)

end Kremlin.Instrument.AssociativeDependenceBreak
