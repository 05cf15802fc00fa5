/-
  Kremlin.Instrument.TimestampAnalysis — timestamps as static candidates.

  `TimestampAnalysis.cpp`, `Timestamp.cpp`, `ConstantWorkOpHandler.cpp`,
  `LiveInHandler.cpp` and `ConstantHandler.cpp`.  The timestamp of a value is a set
  of candidates, a base and an offset each; it is found by recursion over operands
  and controlling conditions and kept in a table.  Conventions:

    * values, blocks and loops are natural numbers, a pointer's place in the order
      of addresses;
    * the class of a value, the loops and the controlling blocks are those the other
      analyses found;
    * an opcode that `getWork` has no case for is left out: it throws;
    * offsets and works are `unsigned int`.

  Main result:
    * `exact_iff` — the candidates of a value are exact if and only if no path has
      a work of `2 ^ 32` or more.
-/
import Mathlib.Data.Set.Finite.Basic
import Mathlib.Order.WellFoundedSet
import Kremlin.Instrument.LoadHandler
import Kremlin.Library.KeyedMaxima
import Kremlin.Library.Run

namespace Kremlin.Instrument.TimestampAnalysis

open Kremlin.Library
open LoadHandler (InductionVariables)

/-! ## §1. Timestamps. -/

/-- `TimestampCandidate`. -/
structure TimestampCandidate where
  base : ℕ
  offset : UInt32
  deriving Repr, DecidableEq

/-- `Timestamp`: a set ordered by base. -/
abbrev Timestamp := List TimestampCandidate

/-- `Timestamp::addCandidate`. -/
def Timestamp.addCandidate (ts : Timestamp) (base_val : ℕ) (time_offset : UInt32) : Timestamp :=
  let insert (ts : Timestamp) : Timestamp :=
    ts.orderedInsert (fun c d => c.base ≤ d.base) ⟨base_val, time_offset⟩
  match ts.find? fun c => c.base = base_val with
  | some c =>
      -- nothing to do if the one that exists dominates
      if c.offset ≥ time_offset then ts else insert (ts.filter fun c => c.base ≠ base_val)
  | none => insert ts

/-! ## §2. Instructions. -/

/-- `ValueClassifier::Class`. -/
inductive Class where
  | constant
  | liveIn
  | constantWorkOp
  deriving Repr, DecidableEq

/-- The opcodes that `getWork` has a case for. -/
inductive Opcode where
  | add | fAdd | sub | fSub | mul | fMul | uDiv | sDiv | uRem | sRem | fDiv | fRem
  | shl | lShr | aShr | and | or | xor | iCmp | fCmp | store | load | atomicRMW
  | alloca | bitCast | br | call | invoke | landingPad | resume | fpExt | fpToSI | fpToUI
  | fpTrunc | getElementPtr | intToPtr | phi | switch | ptrToInt | ret | sExt | siToFP
  | select | trunc | uiToFP | unreachable | zExt | extractValue | insertValue
  deriving Repr, DecidableEq

/-- `isa<BinaryOperator>`. -/
def Opcode.isBinaryOperator : Opcode → Bool
  | .add | .fAdd | .sub | .fSub | .mul | .fMul | .uDiv | .sDiv | .uRem | .sRem | .fDiv
  | .fRem | .shl | .lShr | .aShr | .and | .or | .xor => true
  | _ => false

/-- The costs of the operations, with the values the constructor sets. -/
structure Costs where
  int_add_cost : UInt32 := 1
  int_sub_cost : UInt32 := 1
  int_mul_cost : UInt32 := 2
  int_div_cost : UInt32 := 10
  int_cmp_cost : UInt32 := 1
  fp_add_cost : UInt32 := 2
  fp_sub_cost : UInt32 := 2
  fp_mul_cost : UInt32 := 5
  fp_div_cost : UInt32 := 20
  fp_cmp_cost : UInt32 := 2
  logic_op_cost : UInt32 := 1
  mem_load_cost : UInt32 := 4
  mem_store_cost : UInt32 := 1
  deriving Repr, DecidableEq

/-- An instruction, its block and its operands. -/
structure Instruction where
  opcode : Opcode
  parent : ℕ
  operands : List ℕ
  deriving Repr, DecidableEq

/-- A function and what is known of it.  It has finitely many instructions, and the
classifier finds constant work for instructions only. -/
structure FuncAnalyses where
  inst : ℕ → Option Instruction
  isConstant : ℕ → Bool
  classOf : ℕ → Class
  costs : Costs
  inductionVars : InductionVariables
  loopFor : ℕ → Option ℕ
  header : ℕ → ℕ
  controllingBlock : ℕ → Option ℕ
  controllingCondition : ℕ → ℕ
  finite : {v | (inst v).isSome}.Finite
  inst_of_constantWorkOp : ∀ v, classOf v = .constantWorkOp → (inst v).isSome

namespace FuncAnalyses

/-- `ConstantWorkOpHandler::isLiveInRegion`. -/
def isLiveInRegion (f : FuncAnalyses) (bb incoming_val : ℕ) : Bool :=
  match f.loopFor bb, f.inst incoming_val with
  | some loop, some incoming_inst =>
      match f.loopFor incoming_inst.parent with
      | none => true
      | some loop_of_incoming =>
          -- in the loop header, and `bb` is not
          if f.header loop_of_incoming = incoming_inst.parent ∧ loop_of_incoming = loop ∧
              f.header loop ≠ bb then true
          else loop_of_incoming ≠ loop
  | _, _ => false

/-- Both operands are constants. -/
def constantOperands (f : FuncAnalyses) (inst : Instruction) : Bool :=
  match inst.operands with
  | x :: y :: _ => f.isConstant x && f.isConstant y
  | _ => false

/-- `ConstantWorkOpHandler::getWork`. -/
def getWork (f : FuncAnalyses) (v : ℕ) (inst : Instruction) : UInt32 :=
  if (inst.opcode.isBinaryOperator && f.constantOperands inst) ||
      (inst.opcode = .phi && f.inductionVars.isInductionVariable v) ||
      f.inductionVars.isInductionIncrement v then 0
  else
    match inst.opcode with
    | .add => f.costs.int_add_cost
    | .fAdd => f.costs.fp_add_cost
    | .sub => f.costs.int_sub_cost
    | .fSub => f.costs.fp_sub_cost
    | .mul => f.costs.int_mul_cost
    | .fMul => f.costs.fp_mul_cost
    | .uDiv | .sDiv | .uRem | .sRem => f.costs.int_div_cost
    | .fDiv | .fRem => f.costs.fp_div_cost
    | .shl | .lShr | .aShr | .and | .or | .xor => f.costs.logic_op_cost
    | .iCmp => f.costs.int_cmp_cost
    | .fCmp => f.costs.fp_cmp_cost
    | .store => f.costs.mem_store_cost
    | .load => f.costs.mem_load_cost
    | .atomicRMW => f.costs.mem_load_cost + f.costs.mem_store_cost + f.costs.int_add_cost
    | _ => 0

end FuncAnalyses

/-! ## §3. The analysis. -/

/-- The table `_timestamps`, and the calls of `requireValTimestampBeforeUser`. -/
structure State where
  timestamps : ℕ → Option Timestamp
  required : List (ℕ × ℕ)

/-- No timestamp is known yet. -/
def State.empty : State := { timestamps := fun _ => none, required := [] }

/-- A timestamp is stored for good. -/
def State.insert (s : State) (v : ℕ) (ts : Timestamp) : State :=
  { s with timestamps := Function.update s.timestamps v (some ts) }

/-- `requireValTimestampBeforeUser`. -/
def State.require (s : State) (v user : ℕ) : State :=
  { s with required := s.required ++ [(v, user)] }

/-- An operand or the controlling condition of instruction `v`. -/
def addUse (f : FuncAnalyses) (getTimestamp : ℕ → State → Option (Timestamp × State)) (v : ℕ)
    (inst : Instruction) (acc : Timestamp × State) (x : ℕ) : Option (Timestamp × State) :=
  if f.isLiveInRegion inst.parent x then
    some (acc.1.addCandidate x (f.getWork v inst), acc.2.require x v)
  else do
    let (timestamp, s) ← getTimestamp x acc.2
    some (timestamp.foldl (fun ts cand =>
      Timestamp.addCandidate ts cand.base (cand.offset + f.getWork v inst)) acc.1, s)

/-- `ConstantWorkOpHandler::getTimestamp`. -/
def constantWorkTimestamp (f : FuncAnalyses)
    (getTimestamp : ℕ → State → Option (Timestamp × State)) (v : ℕ) (inst : Instruction)
    (s : State) : Option (Timestamp × State) := do
  let acc ← inst.operands.foldlM (addUse f getTimestamp v inst) ([], s)
  match f.controllingBlock inst.parent with
  | none => some acc
  | some controlling_bb => addUse f getTimestamp v inst acc (f.controllingCondition controlling_bb)

/-- The handler of a value's class. -/
def handle (f : FuncAnalyses) (getTimestamp : ℕ → State → Option (Timestamp × State)) (v : ℕ)
    (s : State) : Option (Timestamp × State) :=
  match f.classOf v with
  | .constant => some ([], s)
  | .liveIn => some (Timestamp.addCandidate [] v 0, s)
  | .constantWorkOp => do
      let inst ← f.inst v
      constantWorkTimestamp f getTimestamp v inst s

/-- `TimestampAnalysis::getTimestamp`, to a depth of calls. -/
def getTimestamp (f : FuncAnalyses) : ℕ → ℕ → State → Option (Timestamp × State)
  | 0, _, _ => none
  | depth + 1, v, s =>
      match s.timestamps v with
      | some ts => some (ts, s)
      | none => do
          let (ts, s) ← handle f (getTimestamp f depth) v s
          some (ts, s.insert v ts)

/-- A call whose result is not looked at. -/
def call (f : FuncAnalyses) (depth : ℕ) (s : State) (v : ℕ) : Option State := do
  let (_, s) ← getTimestamp f depth v s
  some s

/-! ## §4. Paths. -/

/-- The operands and the controlling condition. -/
def FuncAnalyses.uses (f : FuncAnalyses) (inst : Instruction) : List ℕ :=
  inst.operands ++ ((f.controllingBlock inst.parent).map f.controllingCondition).toList

/-- **The paths that end in a value**, with their base and their work.  Followed
back from the value, a path ends at the first base. -/
inductive Path (f : FuncAnalyses) : ℕ → ℕ → ℕ → Prop
  | liveIn {v : ℕ} (hclass : f.classOf v = .liveIn) : Path f v v 0
  | base {v x : ℕ} {inst : Instruction} (hclass : f.classOf v = .constantWorkOp)
      (hinst : f.inst v = some inst) (hx : x ∈ f.uses inst)
      (hlive : f.isLiveInRegion inst.parent x = true) : Path f v x (f.getWork v inst).toNat
  | step {v x b w : ℕ} {inst : Instruction} (hclass : f.classOf v = .constantWorkOp)
      (hinst : f.inst v = some inst) (hx : x ∈ f.uses inst)
      (hlive : f.isLiveInRegion inst.parent x = false) (hpath : Path f x b w) :
      Path f v b (w + (f.getWork v inst).toNat)

/-- `v` is computed from the timestamp of `x`. -/
def Follows (f : FuncAnalyses) (x v : ℕ) : Prop :=
  f.classOf v = .constantWorkOp ∧
    ∃ inst, f.inst v = some inst ∧ x ∈ f.uses inst ∧ f.isLiveInRegion inst.parent x = false

/-- No value is computed from its own timestamp. -/
def Acyclic (f : FuncAnalyses) : Prop := ∀ v, ¬Relation.TransGen (Follows f) v v

/-- **The candidates of a value are exact.** -/
structure Exact (f : FuncAnalyses) (v : ℕ) (ts : Timestamp) : Prop where
  /-- whatever the times of the bases are, the greatest time is the same -/
  greatest : ∀ (time : ℕ → ℕ) (m : ℕ),
    IsGreatest {m | ∃ c ∈ ts, time c.base + c.offset.toNat = m} m ↔
      IsGreatest {m | ∃ b w, Path f v b w ∧ m = time b + w} m
  none : ts = [] ↔ ¬∃ b w, Path f v b w
  once : (ts.map (·.base)).Nodup

/-! ## §5. Candidates. -/

/-- The table of a relation between bases and works. -/
def Flattens (P : ℕ → ℕ → Prop) (ts : Timestamp) : Prop :=
  KeyedMaxima TimestampCandidate.base (fun c => c.offset.toNat) (2 ^ 32) P ts

/-- **One candidate more**, its offset reduced to 32 bits. -/
theorem Flattens.addCandidate {P : ℕ → ℕ → Prop} {ts : Timestamp} (h : Flattens P ts) (b w : ℕ)
    {offset : UInt32} (hoffset : offset.toNat = w % 2 ^ 32) :
    Flattens (Plus P b w) (ts.addCandidate b offset) := by
  have hvalue : w < 2 ^ 32 → offset.toNat = w := by
    intro hw
    rw [hoffset, Nat.mod_eq_of_lt hw]
  unfold Timestamp.addCandidate
  cases hfind : ts.find? (fun c => c.base = b) with
  | some c =>
      have hc : c ∈ ts := List.mem_of_find?_eq_some hfind
      have hbase : c.base = b := by simpa using List.find?_some hfind
      subst hbase
      dsimp only
      split
      · next hge =>
        -- the old offset is at least the new one
        refine KeyedMaxima.keep h hc ?_
        intro hw
        have hle : offset.toNat ≤ c.offset.toNat := UInt32.le_iff_toNat_le.mp hge
        rwa [hvalue hw] at hle
      · next hlt =>
        refine KeyedMaxima.replace h ⟨c.base, offset⟩ (List.perm_orderedInsert _ _ _) hvalue ?_
        intro hw c' hc' hbase
        have hsame : c' = c := List.inj_on_of_nodup_map h.nodup hc' hc hbase
        have hlt : c.offset.toNat < offset.toNat := UInt32.lt_iff_toNat_lt.mp (UInt32.not_le.mp hlt)
        rw [hvalue hw] at hlt
        rw [hsame]
        exact hlt.le
  | none =>
      have hnone : ∀ c ∈ ts, c.base ≠ b := by
        intro c hc hbase
        exact List.find?_eq_none.mp hfind c hc (decide_eq_true hbase)
      refine KeyedMaxima.replace h ⟨b, offset⟩ ?_ hvalue ?_
      · rw [List.filter_eq_self.mpr (fun c hc => decide_eq_true (hnone c hc))]
        exact List.perm_orderedInsert _ _ _
      · intro _ c hc hbase
        exact absurd hbase (hnone c hc)

/-- **The candidates of a use**, all raised by the work of the instruction. -/
theorem Flattens.foldl {P : ℕ → ℕ → Prop} {ts : Timestamp} (h : Flattens P ts) (work : UInt32)
    (cands : List TimestampCandidate) :
    Flattens (fun b w => P b w ∨ ∃ c ∈ cands, b = c.base ∧ w = c.offset.toNat + work.toNat)
      (cands.foldl (fun ts cand => Timestamp.addCandidate ts cand.base (cand.offset + work)) ts) := by
  induction cands generalizing ts P with
  | nil =>
      refine KeyedMaxima.of_iff h fun b w => ?_
      simp
  | cons c cands ih =>
      have hadd := h.addCandidate c.base (c.offset.toNat + work.toNat)
        (UInt32.toNat_add c.offset work)
      refine KeyedMaxima.of_iff (ih hadd) fun b w => ?_
      rw [List.exists_mem_cons_iff]
      exact or_assoc

/-- Adding the candidates of another timestamp, one by one. -/
theorem Flattens.foldl_of {P Q : ℕ → ℕ → Prop} {ts cands : Timestamp} (h : Flattens P ts)
    (hQ : Flattens Q cands) (work : UInt32) :
    Flattens (fun b w => P b w ∨ ∃ w', Q b w' ∧ w = w' + work.toNat)
      (cands.foldl (fun ts cand => Timestamp.addCandidate ts cand.base (cand.offset + work)) ts) :=
  KeyedMaxima.absorb hQ (h.foldl work cands)

/-! ## §6. The analysis of a value. -/

variable {f : FuncAnalyses}

/-- Every timestamp of the table is that of its value. -/
def TableOk (f : FuncAnalyses) (s : State) : Prop :=
  ∀ v ts, s.timestamps v = some ts → Flattens (Path f v) ts

/-- A timestamp that is right may be stored. -/
theorem TableOk.insert {s : State} (h : TableOk f s) {v : ℕ} {ts : Timestamp}
    (hts : Flattens (Path f v) ts) : TableOk f (s.insert v ts) := by
  intro u us hus
  by_cases hu : u = v
  · subst hu
    have hsame : (s.insert u ts).timestamps u = some ts := Function.update_self ..
    rw [hsame] at hus
    cases hus
    exact hts
  · have hother : (s.insert v ts).timestamps u = s.timestamps u := Function.update_of_ne hu ..
    rw [hother] at hus
    exact h u us hus

/-- What a use of instruction `v` gives: a base, or the paths that end in it. -/
def Via (f : FuncAnalyses) (v : ℕ) (inst : Instruction) (x b w : ℕ) : Prop :=
  if f.isLiveInRegion inst.parent x then b = x ∧ w = (f.getWork v inst).toNat
  else ∃ w', Path f x b w' ∧ w = w' + (f.getWork v inst).toNat

/-- **The paths of an instruction go through its uses.** -/
theorem path_iff_via {v : ℕ} {inst : Instruction} (hclass : f.classOf v = .constantWorkOp)
    (hinst : f.inst v = some inst) (b w : ℕ) :
    Path f v b w ↔ ∃ x ∈ f.uses inst, Via f v inst x b w := by
  constructor
  · intro h
    cases h with
    | liveIn hclass' =>
        rw [hclass] at hclass'
        cases hclass'
    | base _ hinst' hx hlive =>
        rw [hinst] at hinst'
        cases hinst'
        refine ⟨b, hx, ?_⟩
        rw [Via, if_pos hlive]
        exact ⟨rfl, rfl⟩
    | step _ hinst' hx hlive hpath =>
        rw [hinst] at hinst'
        cases hinst'
        refine ⟨_, hx, ?_⟩
        rw [Via, if_neg (by rw [hlive]; exact Bool.false_ne_true)]
        exact ⟨_, hpath, rfl⟩
  · rintro ⟨x, hx, hvia⟩
    unfold Via at hvia
    split at hvia
    · next hlive =>
      obtain ⟨rfl, rfl⟩ := hvia
      exact .base hclass hinst hx hlive
    · next hlive =>
      obtain ⟨w', hpath, rfl⟩ := hvia
      exact .step hclass hinst hx (Bool.eq_false_iff.mpr hlive) hpath

/-- The call gives the timestamp of the value. -/
def Returns (f : FuncAnalyses) (getTimestamp : ℕ → State → Option (Timestamp × State)) (v : ℕ) :
    Prop :=
  ∀ s, TableOk f s → ∃ ts s', getTimestamp v s = some (ts, s') ∧ Flattens (Path f v) ts ∧
    TableOk f s'

/-- An operand adds the candidates that come through it. -/
theorem addUse_spec {getTimestamp : ℕ → State → Option (Timestamp × State)} {v x : ℕ}
    {inst : Instruction} {acc : Timestamp × State} {P : ℕ → ℕ → Prop}
    (hreturns : f.isLiveInRegion inst.parent x = false → Returns f getTimestamp x)
    (hacc : Flattens P acc.1) (htable : TableOk f acc.2) :
    ∃ acc', addUse f getTimestamp v inst acc x = some acc' ∧
      Flattens (fun b w => P b w ∨ Via f v inst x b w) acc'.1 ∧ TableOk f acc'.2 := by
  unfold addUse
  by_cases hlive : f.isLiveInRegion inst.parent x = true
  · rw [if_pos hlive]
    refine ⟨_, rfl, ?_, htable⟩
    have hoffset : (f.getWork v inst).toNat = (f.getWork v inst).toNat % 2 ^ 32 :=
      (Nat.mod_eq_of_lt (UInt32.toNat_lt _)).symm
    refine KeyedMaxima.of_iff (hacc.addCandidate x _ hoffset) fun b w => ?_
    rw [Via, if_pos hlive]
    rfl
  · rw [if_neg hlive]
    obtain ⟨ts, s', hcall, hts, htable'⟩ := hreturns (Bool.eq_false_iff.mpr hlive) acc.2 htable
    rw [hcall]
    refine ⟨_, rfl, ?_, htable'⟩
    refine KeyedMaxima.of_iff (hacc.foldl_of hts _) fun b w => ?_
    rw [Via, if_neg hlive]

/-- The controlling condition is one use more. -/
theorem constantWorkTimestamp_eq (getTimestamp : ℕ → State → Option (Timestamp × State)) (v : ℕ)
    (inst : Instruction) (s : State) :
    constantWorkTimestamp f getTimestamp v inst s =
      (f.uses inst).foldlM (addUse f getTimestamp v inst) ([], s) := by
  unfold constantWorkTimestamp FuncAnalyses.uses
  rw [List.foldlM_append]
  congr 1
  funext acc
  cases f.controllingBlock inst.parent with
  | none => rfl
  | some bb =>
      show _ = (addUse f getTimestamp v inst acc (f.controllingCondition bb)).bind some
      rw [Option.bind_fun_some]

/-- The timestamp of an instruction of constant work. -/
theorem constantWorkTimestamp_spec {getTimestamp : ℕ → State → Option (Timestamp × State)}
    {v : ℕ} {inst : Instruction} (hclass : f.classOf v = .constantWorkOp)
    (hinst : f.inst v = some inst) (hreturns : ∀ x, Follows f x v → Returns f getTimestamp x)
    {s : State} (hs : TableOk f s) :
    ∃ ts s', constantWorkTimestamp f getTimestamp v inst s = some (ts, s') ∧
      Flattens (Path f v) ts ∧ TableOk f s' := by
  rw [constantWorkTimestamp_eq]
  have hloop := foldlM_done (f := addUse f getTimestamp v inst)
    (fun past acc => Flattens (fun b w => ∃ x ∈ past, Via f v inst x b w) acc.1 ∧
      TableOk f acc.2) (f.uses inst) (s := ([], s)) ?_ ?_
  · obtain ⟨⟨ts, s'⟩, hrun, hts, hs'⟩ := hloop
    refine ⟨ts, s', hrun, ?_, hs'⟩
    exact KeyedMaxima.of_iff hts fun b w => (path_iff_via hclass hinst b w).symm
  · rintro past x rest acc heq ⟨hacc, htable⟩
    have hx : x ∈ f.uses inst := by
      rw [heq]
      exact List.mem_append_right _ List.mem_cons_self
    obtain ⟨acc', hadd, hacc', htable'⟩ := addUse_spec
      (fun hlive => hreturns x ⟨hclass, inst, hinst, hx, hlive⟩) hacc htable
    refine ⟨acc', hadd, KeyedMaxima.of_iff hacc' fun b w => ?_, htable'⟩
    simp only [List.mem_append, List.mem_singleton, or_and_right, exists_or, exists_eq_left]
  · refine ⟨KeyedMaxima.nil ?_, hs⟩
    rintro b w ⟨x, hx, _⟩
    exact absurd hx List.not_mem_nil

/-- A list of items that each hold from some depth on. -/
theorem exists_depth {p : ℕ → ℕ → Prop} (items : List ℕ)
    (h : ∀ x ∈ items, ∃ n, ∀ depth ≥ n, p depth x) :
    ∃ n, ∀ depth ≥ n, ∀ x ∈ items, p depth x := by
  induction items with
  | nil => exact ⟨0, fun _ _ x hx => absurd hx List.not_mem_nil⟩
  | cons x items ih =>
      obtain ⟨n, hn⟩ := ih fun y hy => h y (List.mem_cons_of_mem _ hy)
      obtain ⟨k, hk⟩ := h x List.mem_cons_self
      refine ⟨max n k, fun depth hdepth y hy => ?_⟩
      rcases List.mem_cons.mp hy with rfl | hy
      · exact hk depth ((le_max_right n k).trans hdepth)
      · exact hn depth ((le_max_left n k).trans hdepth) y hy

/-- **The handler of a value**, when the timestamps it follows are found. -/
theorem handle_spec {getTimestamp : ℕ → State → Option (Timestamp × State)} {v : ℕ}
    (hreturns : ∀ x, Follows f x v → Returns f getTimestamp x) {s : State} (hs : TableOk f s) :
    ∃ ts s', handle f getTimestamp v s = some (ts, s') ∧ Flattens (Path f v) ts ∧
      TableOk f s' := by
  unfold handle
  cases hclass : f.classOf v with
  | constant =>
      refine ⟨[], s, rfl, KeyedMaxima.nil fun b w hpath => ?_, hs⟩
      cases hpath with
      | liveIn hclass' => rw [hclass] at hclass'; cases hclass'
      | base hclass' => rw [hclass] at hclass'; cases hclass'
      | step hclass' => rw [hclass] at hclass'; cases hclass'
  | liveIn =>
      have hnil : Flattens (fun _ _ => False) [] := KeyedMaxima.nil fun _ _ h => h
      refine ⟨_, s, rfl, KeyedMaxima.of_iff (hnil.addCandidate v 0 rfl) fun b w => ?_, hs⟩
      constructor
      · rintro (h | ⟨rfl, rfl⟩)
        · exact h.elim
        · exact .liveIn hclass
      · intro hpath
        cases hpath with
        | liveIn _ => exact .inr ⟨rfl, rfl⟩
        | base hclass' => rw [hclass] at hclass'; cases hclass'
        | step hclass' => rw [hclass] at hclass'; cases hclass'
  | constantWorkOp =>
      obtain ⟨inst, hinst⟩ := Option.isSome_iff_exists.mp (f.inst_of_constantWorkOp v hclass)
      obtain ⟨ts, s', hrun, hts, hs'⟩ := constantWorkTimestamp_spec hclass hinst hreturns hs
      refine ⟨ts, s', ?_, hts, hs'⟩
      rw [hinst]
      exact hrun

/-- **Every timestamp is found**, and the table stays right. -/
theorem getTimestamp_spec {v : ℕ} (hacc : Acc (Follows f) v) :
    ∃ n, ∀ depth ≥ n, Returns f (getTimestamp f depth) v := by
  induction hacc with
  | intro v _ ih =>
      -- one depth for all values that are followed
      have huses : ∃ n, ∀ depth ≥ n, ∀ x, Follows f x v → Returns f (getTimestamp f depth) x := by
        cases hinst : f.inst v with
        | none =>
            refine ⟨0, fun _ _ x ⟨_, inst, hinst', _⟩ => ?_⟩
            rw [hinst] at hinst'
            cases hinst'
        | some inst =>
            obtain ⟨n, hn⟩ := exists_depth
              (p := fun depth x => Follows f x v → Returns f (getTimestamp f depth) x)
              (f.uses inst) fun x _ => by
                by_cases hx : Follows f x v
                · obtain ⟨n, hn⟩ := ih x hx
                  exact ⟨n, fun depth hdepth _ => hn depth hdepth⟩
                · exact ⟨0, fun _ _ hx' => absurd hx' hx⟩
            refine ⟨n, fun depth hdepth x hx => hn depth hdepth x ?_ hx⟩
            obtain ⟨_, inst', hinst', hmem, _⟩ := hx
            rw [hinst] at hinst'
            cases hinst'
            exact hmem
      obtain ⟨n, hn⟩ := huses
      refine ⟨n + 1, fun depth hdepth s hs => ?_⟩
      obtain ⟨depth, rfl⟩ : ∃ d, depth = d + 1 := ⟨depth - 1, by omega⟩
      rw [getTimestamp]
      cases hfound : s.timestamps v with
      | some ts => exact ⟨ts, s, rfl, hs v ts hfound, hs⟩
      | none =>
          obtain ⟨ts, s', hrun, hts, hs'⟩ := handle_spec (hn depth (by omega)) hs
          refine ⟨ts, s'.insert v ts, ?_, hts, hs'.insert hts⟩
          simp only [hrun, Option.bind_eq_bind, Option.bind_some]

/-! ## §7. When the candidates are exact. -/

/-- In a finite function without cycles, following values comes to an end. -/
theorem Acyclic.acc (h : Acyclic f) (v : ℕ) : Acc (Follows f) v := by
  have hinst : ∀ {x u : ℕ}, Follows f x u → (f.inst u).isSome := by
    rintro x u ⟨_, inst, hinst, _⟩
    rw [hinst]
    rfl
  have horder : IsStrictOrder ℕ (Relation.TransGen (Follows f)) :=
    { irrefl := h, trans := fun _ _ _ => Relation.TransGen.trans }
  have hwell : {v | (f.inst v).isSome}.WellFoundedOn (Relation.TransGen (Follows f)) :=
    f.finite.wellFoundedOn
  -- a value that is no instruction follows nothing
  have hleaf : ∀ u, ¬(f.inst u).isSome → Acc (Follows f) u := fun u hu =>
    .intro u fun _ hx => absurd (hinst hx) hu
  by_cases hv : (f.inst v).isSome
  · refine hwell.induction hv fun u _ ih => .intro u fun x hx => ?_
    by_cases hxinst : (f.inst x).isSome
    · exact ih x hxinst (.single hx)
    · exact hleaf x hxinst
  · exact hleaf v hv

/-- **The candidates of a table entry are exact when no work reaches `2 ^ 32`.** -/
theorem exact_iff_bounded {v : ℕ} {ts : Timestamp} (h : Flattens (Path f v) ts) :
    Exact f v ts ↔ ∀ b w, Path f v b w → w < 2 ^ 32 := by
  constructor
  · intro hexact
    exact KeyedMaxima.bounded_of_isGreatest h (fun c _ => UInt32.toNat_lt c.offset)
      fun time m hm => (hexact.greatest time m).mp hm
  · intro hbound
    refine ⟨fun time m => KeyedMaxima.isGreatest_iff h hbound time m, ?_, h.nodup⟩
    constructor
    · rintro hnil ⟨b, w, hpath⟩
      obtain ⟨c, hc, _⟩ := (h.keys b).mpr ⟨w, hpath⟩
      rw [hnil] at hc
      exact absurd hc List.not_mem_nil
    · intro hnone
      rw [List.eq_nil_iff_forall_not_mem]
      intro c hc
      obtain ⟨w, hpath⟩ := (h.keys c.base).mp ⟨c, hc, rfl⟩
      exact hnone ⟨c.base, w, hpath⟩

/-- **When the timestamp of a value is exact**: after any calls, the timestamp of a
value is found, and it is exact if and only if no path that ends in the value has a
work of `2 ^ 32` or more. -/
theorem exact_iff (f : FuncAnalyses) (hacyclic : Acyclic f) (calls : List ℕ) (v : ℕ) :
    ∃ n, ∀ depth ≥ n, ∃ s ts s', calls.foldlM (call f depth) State.empty = some s ∧
      getTimestamp f depth v s = some (ts, s') ∧
      (Exact f v ts ↔ ∀ b w, Path f v b w → w < 2 ^ 32) := by
  obtain ⟨n, hn⟩ := exists_depth (v :: calls) fun x _ => getTimestamp_spec (hacyclic.acc x)
  refine ⟨n, fun depth hdepth => ?_⟩
  have hempty : TableOk f State.empty := by
    intro u us hus
    cases hus
  have hrun : ∃ s, calls.foldlM (call f depth) State.empty = some s ∧ TableOk f s := by
    refine foldlM_inv (TableOk f) calls ?_ hempty
    intro s x hx hs
    obtain ⟨_, s', hcall, _, hs'⟩ := hn depth hdepth x (List.mem_cons_of_mem _ hx) s hs
    refine ⟨s', ?_, hs'⟩
    rw [call, hcall]
    rfl
  obtain ⟨s, hs, htable⟩ := hrun
  obtain ⟨ts, s', hcall, hts, _⟩ := hn depth hdepth v List.mem_cons_self s htable
  exact ⟨s, ts, s', hs, hcall, exact_iff_bounded hts⟩

/-! ## §8. Two multiplications. -/

/-- A load, its square, and the product of both. -/
def products (costs : Costs) : FuncAnalyses where
  inst
    | 0 => some { opcode := .load, parent := 0, operands := [] }
    | 1 => some { opcode := .mul, parent := 0, operands := [0, 0] }
    | 2 => some { opcode := .mul, parent := 0, operands := [1, 0] }
    | _ => none
  isConstant _ := false
  classOf
    | 0 => .liveIn
    | 1 => .constantWorkOp
    | 2 => .constantWorkOp
    | _ => .constant
  costs
  inductionVars := { inductionVars := [], inductionVarIncrementOps := [] }
  loopFor _ := none
  header _ := 0
  controllingBlock _ := none
  controllingCondition _ := 0
  finite := (Set.finite_le_nat 2).subset fun v hv => by
    rcases v with _ | _ | _ | v
    · exact Nat.zero_le 2
    · exact Nat.le_succ 1
    · exact Nat.le_refl 2
    · cases hv
  inst_of_constantWorkOp v hv := by
    rcases v with _ | _ | _ | v
    · rfl
    · rfl
    · rfl
    · cases hv

/-- The products do not depend on each other. -/
theorem products_acyclic (costs : Costs) : Acyclic (products costs) := by
  have hlt : ∀ x v, Follows (products costs) x v → x < v := by
    rintro x v ⟨hclass, inst, hinst, hx, _⟩
    rcases v with _ | _ | _ | v
    · cases hclass
    · cases hinst
      simp [FuncAnalyses.uses, products] at hx
      omega
    · cases hinst
      simp [FuncAnalyses.uses, products] at hx
      omega
    · cases hclass
  have htrans : ∀ x v, Relation.TransGen (Follows (products costs)) x v → x < v := by
    intro x v h
    induction h with
    | single hx => exact hlt _ _ hx
    | tail _ hx ih => exact ih.trans (hlt _ _ hx)
  intro v h
  exact absurd (htrans v v h) (Nat.lt_irrefl v)

/-- A path to the second product has at most two multiplications. -/
theorem work_products_le {v b w : ℕ} (hpath : Path (products {}) v b w) : w ≤ 2 * v := by
  induction hpath with
  | liveIn => exact Nat.zero_le _
  | base hclass hinst hx hlive => cases hlive
  | @step v x b w inst hclass hinst hx hlive hpath ih =>
      rcases v with _ | _ | _ | v
      · cases hclass
      · cases hinst
        have hzero : x = 0 := by simpa [FuncAnalyses.uses, products] using hx
        have hwork : ((products {}).getWork 1 ⟨.mul, 0, [0, 0]⟩).toNat = 2 := by decide
        rw [hwork]
        omega
      · cases hinst
        have hle : x = 1 ∨ x = 0 := by simpa [FuncAnalyses.uses, products] using hx
        have hwork : ((products {}).getWork 2 ⟨.mul, 0, [1, 0]⟩).toNat = 2 := by decide
        rw [hwork]
        omega
      · cases hclass

/-- With the default costs, asked for the square before. -/
theorem exact_products :
    ∃ n, ∀ depth ≥ n, ∃ s ts s',
      [1].foldlM (call (products {}) depth) State.empty = some s ∧
      getTimestamp (products {}) depth 2 s = some (ts, s') ∧ Exact (products {}) 2 ts := by
  obtain ⟨n, hn⟩ := exact_iff (products {}) (products_acyclic {}) [1] 2
  refine ⟨n, fun depth hdepth => ?_⟩
  obtain ⟨s, ts, s', hs, hget, hiff⟩ := hn depth hdepth
  refine ⟨s, ts, s', hs, hget, hiff.mpr fun b w hpath => ?_⟩
  have hle := work_products_le hpath
  omega

/-- **An offset that wraps**: with a multiplication that costs `2 ^ 32 - 1`, the
product has the offset `2 ^ 32 - 1`, although a path to it has twice that cost. -/
theorem offset_wraps :
    ∃ f, Acyclic f ∧ (getTimestamp f 3 2 State.empty).map (·.1) = some [⟨0, 4294967295⟩] ∧
      Path f 2 0 8589934590 ∧ ¬Exact f 2 [⟨0, 4294967295⟩] := by
  have hwork : ∀ v operands, (products { int_mul_cost := 4294967295 }).getWork v
      { opcode := .mul, parent := 0, operands } = 4294967295 := by
    intro v operands
    rcases operands with _ | ⟨x, _ | ⟨y, operands⟩⟩ <;> rfl
  have hload : Path (products { int_mul_cost := 4294967295 }) 0 0 0 := .liveIn rfl
  have hsquare := Path.step (f := products { int_mul_cost := 4294967295 }) (v := 1) (x := 0) rfl rfl
    List.mem_cons_self rfl hload
  have hproduct := Path.step (f := products { int_mul_cost := 4294967295 }) (v := 2) (x := 1) rfl rfl
    List.mem_cons_self rfl hsquare
  rw [hwork, hwork] at hproduct
  have hcost : (4294967295 : UInt32).toNat = 4294967295 := rfl
  rw [hcost] at hproduct
  refine ⟨products { int_mul_cost := 4294967295 }, products_acyclic _, by decide +kernel,
    hproduct, fun hexact => ?_⟩
  have hmax : IsGreatest {m | ∃ c ∈ [(⟨0, 4294967295⟩ : TimestampCandidate)],
      (fun _ => 0) c.base + c.offset.toNat = m} 4294967295 := by
    refine ⟨⟨⟨0, 4294967295⟩, List.mem_singleton_self _, rfl⟩, ?_⟩
    rintro m ⟨c, hc, rfl⟩
    rw [List.mem_singleton.mp hc]
    decide
  have hle := ((hexact.greatest (fun _ => 0) 4294967295).mp hmax).2 ⟨0, _, hproduct, rfl⟩
  omega

end Kremlin.Instrument.TimestampAnalysis
