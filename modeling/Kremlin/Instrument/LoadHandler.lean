/-
  Kremlin.Instrument.LoadHandler — the call made for a load.

  `LoadHandler.cpp`, `MemoryInstHelper.cpp`, and the parameter lists of `_KLoad`
  and of `_KLoad0` to `_KLoad4` in `kremlin.cpp`.  The handler gathers the
  registers of the indices of a getelementptr, looks for a specialised function
  and otherwise inserts their number.  Conventions:

    * values are natural numbers, as in `CallableHandler`;
    * the analysis of induction variables is the two sets of values it gathers;
    * ids, sizes and operand counts are below `2 ^ 32`;
    * where the call and the pointer cast are placed is left to the placer.

  Main result:
    * `decodes_iff` — the loads whose call the runtime reads as it was meant.
-/
import Kremlin.Instrument.CallableHandler

namespace Kremlin.Instrument.LoadHandler

open Kremlin.Runtime

/-! ## §1. Loads. -/

/-- `class InductionVariables`: the canonical induction variables of all loops,
and what increments them. -/
structure InductionVariables where
  inductionVars : List ℕ
  inductionVarIncrementOps : List ℕ

namespace InductionVariables

/-- The value is an induction variable. -/
def isInductionVariable (induc_vars : InductionVariables) (inst : ℕ) : Bool :=
  induc_vars.inductionVars.contains inst

/-- The value is what an induction variable is increased to. -/
def isInductionIncrement (induc_vars : InductionVariables) (inst : ℕ) : Bool :=
  induc_vars.inductionVarIncrementOps.contains inst

end InductionVariables

/-- `llvm::Type`, as far as `getTypeSizeInBytes` tells types apart. -/
inductive ValType where
  | integer (bitwidth : ℕ)
  | float
  | double
  | pointer
  | unknown
  deriving Repr, DecidableEq

/-- The size of a value that is loaded. -/
def getTypeSizeInBytes : ValType → ℕ
  -- a width that is no multiple of 8 is rounded up
  | .integer bitwidth => if bitwidth % 8 ≠ 0 then bitwidth / 8 + 1 else bitwidth / 8
  | .float => 4
  | .double => 8
  | .pointer => 8
  | .unknown => 4

/-- What the casts of `handle` tell about an operand.  A PHI node is an
instruction, too. -/
inductive OperandKind where
  | constantInt
  | phiNode
  | instruction
  | other
  deriving Repr, DecidableEq

/-- An index of a getelementptr. -/
structure Operand where
  value : ℕ
  kind : OperandKind
  deriving Repr, DecidableEq

/-- A load; `gepi` are the indices of the getelementptr it loads through. -/
structure LoadInst where
  value : ℕ
  type : ValType
  pointerOperand : ℕ
  gepi : Option (List Operand)
  deriving Repr, DecidableEq

/-! ## §2. The handler. -/

/-- An argument of the call: the cast pointer, or a constant. -/
inductive Arg where
  | ptr (value : ℕ)
  | i32 (n : ℕ)
  deriving Repr, DecidableEq

/-- The call that is inserted. -/
structure CallInst where
  func : String
  args : List Arg
  deriving Repr, DecidableEq

/-- The number of functions with a fixed number of dependences. -/
def MAX_SPECIALIZED : ℕ := 5

/-- The function for any number of dependences. -/
def log_func : String := "_KLoad"

/-- The functions by the number of dependences that they take. -/
def specialized_funcs : List (ℕ × String) :=
  (List.range MAX_SPECIALIZED).map fun i => (i, "_KLoad" ++ toString i)

/-- The condition of the loop of `handle`. -/
def isDependence (induc_vars : InductionVariables) (gepi_op : Operand) : Bool :=
  let gepi_op_phi := gepi_op.kind == .phiNode
  let gepi_op_inst := gepi_op.kind == .phiNode || gepi_op.kind == .instruction
  !(gepi_op.kind == .constantInt) &&
    !(gepi_op_phi && induc_vars.isInductionVariable gepi_op.value) &&
    !(gepi_op_inst && induc_vars.isInductionIncrement gepi_op.value)

/-- The arguments, `num_conds` and the ids while the vector is built. -/
structure Building where
  args : List Arg
  num_conds : ℕ
  ids : InstIds

/-- The loop body of `handle`. -/
def pushIndex (induc_vars : InductionVariables) (st : Building) (gepi_op : Operand) : Building :=
  if isDependence induc_vars gepi_op then
    let id := st.ids.getId gepi_op.value
    { args := st.args ++ [.i32 id.1], num_conds := st.num_conds + 1, ids := id.2 }
  else st

/-- `LoadHandler::handle`. -/
def handle (induc_vars : InductionVariables) (load : LoadInst) (ids : InstIds) :
    CallInst × InstIds :=
  let args : List Arg := [.ptr load.pointerOperand]
  let id := ids.getId load.value
  let args := args ++ [.i32 id.1]
  -- the place of `num_conds`, before any index is in the vector
  let num_conds_idx := args.length + 1
  let st : Building := { args := args, num_conds := 0, ids := id.2 }
  let st :=
    match load.gepi with
    | some idx => idx.foldl (pushIndex induc_vars) st
    | none => st
  let args := st.args ++ [.i32 (getTypeSizeInBytes load.type)]
  match specialized_funcs.lookup st.num_conds with
  | some func => ({ func := func, args := args }, st.ids)
  | none =>
      ({ func := log_func, args := args.insertIdx num_conds_idx (.i32 st.num_conds) }, st.ids)

/-! ## §3. The runtime functions. -/

/-- A load as a runtime function reads it; `num_srcs` is a parameter of the
variadic one only. -/
structure LoadCall where
  src_addr : ℕ
  dest_reg : ℕ
  mem_access_size : ℕ
  num_srcs : Option ℕ
  srcs : List ℕ
  deriving Repr, DecidableEq

/-- `va_arg`, so many times. -/
def va_args : ℕ → List Arg → Option (List ℕ)
  | 0, _ => some []
  | n + 1, .i32 reg :: args => (va_args n args).map (reg :: ·)
  | _ + 1, _ => none

/-- The parameters of the runtime function of this name. -/
def readCall : CallInst → Option LoadCall
  | ⟨"_KLoad", .ptr src_addr :: .i32 dest_reg :: .i32 mem_access_size :: .i32 num_srcs :: args⟩ =>
      (va_args num_srcs args).map fun srcs =>
        ⟨src_addr, dest_reg, mem_access_size, some num_srcs, srcs⟩
  | ⟨"_KLoad0", [.ptr src_addr, .i32 dest_reg, .i32 mem_access_size]⟩ =>
      some ⟨src_addr, dest_reg, mem_access_size, none, []⟩
  | ⟨"_KLoad1", [.ptr src_addr, .i32 dest_reg, .i32 src_reg, .i32 mem_access_size]⟩ =>
      some ⟨src_addr, dest_reg, mem_access_size, none, [src_reg]⟩
  | ⟨"_KLoad2", [.ptr src_addr, .i32 dest_reg, .i32 src1_reg, .i32 src2_reg,
        .i32 mem_access_size]⟩ =>
      some ⟨src_addr, dest_reg, mem_access_size, none, [src1_reg, src2_reg]⟩
  | ⟨"_KLoad3", [.ptr src_addr, .i32 dest_reg, .i32 src1_reg, .i32 src2_reg, .i32 src3_reg,
        .i32 mem_access_size]⟩ =>
      some ⟨src_addr, dest_reg, mem_access_size, none, [src1_reg, src2_reg, src3_reg]⟩
  | ⟨"_KLoad4", [.ptr src_addr, .i32 dest_reg, .i32 src1_reg, .i32 src2_reg, .i32 src3_reg,
        .i32 src4_reg, .i32 mem_access_size]⟩ =>
      some ⟨src_addr, dest_reg, mem_access_size, none, [src1_reg, src2_reg, src3_reg, src4_reg]⟩
  | _ => none

/-! ## §4. What was meant. -/

/-- The indices a load depends on, in order. -/
def indices (induc_vars : InductionVariables) (load : LoadInst) : List ℕ :=
  ((load.gepi.getD []).filter (isDependence induc_vars)).map (·.value)

/-- The load with these registers. -/
def meant (src_addr dest_reg mem_access_size : ℕ) (srcs : List ℕ) : LoadCall where
  src_addr := src_addr
  dest_reg := dest_reg
  mem_access_size := mem_access_size
  num_srcs := if srcs.length < MAX_SPECIALIZED then none else some srcs.length
  srcs := srcs

/-- The runtime reads the load as it was meant, every value under its id. -/
def Decodes (induc_vars : InductionVariables) (load : LoadInst) (ids : InstIds) : Prop :=
  let (call, ids') := handle induc_vars load ids
  readCall call = some (meant load.pointerOperand (ids'.idOf load.value)
    (getTypeSizeInBytes load.type) ((indices induc_vars load).map ids'.idOf))

/-- All indices are one value, and its register has the number of the access size. -/
def SizeRegister (induc_vars : InductionVariables) (load : LoadInst) (ids : InstIds) : Prop :=
  ∃ v, (∀ w ∈ indices induc_vars load, w = v) ∧
    ((ids.getId load.value).2.getId v).1 = getTypeSizeInBytes load.type

/-! ## §5. The vector. -/

section Vector

variable {induc_vars : InductionVariables}

/-- The call for a load with these registers. -/
def callOf (src_addr dest_reg mem_access_size : ℕ) (srcs : List ℕ) : CallInst :=
  let args := Arg.ptr src_addr :: .i32 dest_reg :: (srcs.map .i32 ++ [.i32 mem_access_size])
  match specialized_funcs.lookup srcs.length with
  | some func => { func := func, args := args }
  | none => { func := log_func, args := args.insertIdx 3 (.i32 srcs.length) }

/-- Gathering an index keeps the ids. -/
theorem pushIndex_extends (st : Building) (gepi_op : Operand) :
    st.ids.Extends (pushIndex induc_vars st gepi_op).ids := by
  unfold pushIndex
  split
  · exact InstIds.getId_extends _ _
  · exact .refl _

/-- **The loop over the indices**, under the ids at any later time. -/
theorem foldl_pushIndex {idx : List Operand} {st : Building} {ids : InstIds}
    (h : (idx.foldl (pushIndex induc_vars) st).ids.Extends ids) :
    st.ids.Extends ids ∧
      (idx.foldl (pushIndex induc_vars) st).args = st.args ++
        ((idx.filter (isDependence induc_vars)).map fun op => .i32 (ids.idOf op.value)) ∧
      (idx.foldl (pushIndex induc_vars) st).num_conds
        = st.num_conds + (idx.filter (isDependence induc_vars)).length ∧
      ∀ op ∈ idx.filter (isDependence induc_vars), ids.Has op.value := by
  induction idx generalizing st with
  | nil => exact ⟨h, (List.append_nil _).symm, rfl, fun _ h => by cases h⟩
  | cons op idx ih =>
      rw [List.foldl_cons] at h ⊢
      obtain ⟨hext, hargs, hnum, hhas⟩ := ih h
      refine ⟨(pushIndex_extends st op).trans hext, ?_⟩
      rw [hargs, hnum]
      unfold pushIndex at hext ⊢
      by_cases hdep : isDependence induc_vars op
      · rw [if_pos hdep] at hext ⊢
        obtain ⟨hop, hid⟩ := InstIds.getId_spec hext
        rw [List.filter_cons_of_pos hdep, List.map_cons, List.length_cons]
        refine ⟨?_, ?_, fun op' hop' => ?_⟩
        · dsimp only
          rw [hid, List.append_assoc, List.singleton_append]
        · show st.num_conds + 1 + _ = st.num_conds + (_ + 1)
          omega
        · rcases List.mem_cons.mp hop' with rfl | hmem
          · exact hop
          · exact hhas op' hmem
      · rw [if_neg hdep, List.filter_cons_of_neg hdep]
        exact ⟨rfl, rfl, hhas⟩

/-- The first index gets its id before the others ask for theirs. -/
theorem foldl_pushIndex_first {idx : List Operand} {st : Building} {ids : InstIds} {op : Operand}
    (h : (idx.foldl (pushIndex induc_vars) st).ids.Extends ids)
    (hfirst : (idx.filter (isDependence induc_vars)).head? = some op) :
    ids.idOf op.value = (st.ids.getId op.value).1 := by
  induction idx generalizing st with
  | nil => cases hfirst
  | cons op' idx ih =>
      rw [List.foldl_cons] at h
      by_cases hdep : isDependence induc_vars op'
      · rw [List.filter_cons_of_pos hdep, List.head?_cons, Option.some.injEq] at hfirst
        subst hfirst
        have hext := (foldl_pushIndex h).1
        unfold pushIndex at hext
        rw [if_pos hdep] at hext
        exact (InstIds.getId_spec hext).2.symm
      · rw [List.filter_cons_of_neg hdep] at hfirst
        unfold pushIndex at h
        rw [if_neg hdep] at h
        exact ih h hfirst

/-- **What the handler creates**, under the ids at any later time. -/
theorem handle_spec {load : LoadInst} {ids ids' : InstIds}
    (h : (handle induc_vars load ids).2.Extends ids') :
    (handle induc_vars load ids).1 = callOf load.pointerOperand (ids'.idOf load.value)
        (getTypeSizeInBytes load.type) ((indices induc_vars load).map ids'.idOf) ∧
      (∀ v ∈ indices induc_vars load, ids'.Has v) ∧
      ∀ v, (indices induc_vars load).head? = some v →
        ids'.idOf v = ((ids.getId load.value).2.getId v).1 := by
  -- a load through another pointer has no indices
  have hnone : handle induc_vars load ids
      = handle induc_vars { load with gepi := some (load.gepi.getD []) } ids := by
    unfold handle
    cases load.gepi <;> rfl
  generalize hidx : load.gepi.getD [] = idx at hnone
  rw [hnone] at h ⊢
  generalize hst : ({ args := [.ptr load.pointerOperand, .i32 (ids.getId load.value).1]
                      num_conds := 0, ids := (ids.getId load.value).2 } : Building) = st
  have hids : (handle induc_vars { load with gepi := some idx } ids).2
      = (idx.foldl (pushIndex induc_vars) st).ids := by
    rw [← hst]
    unfold handle
    dsimp only
    split <;> rfl
  rw [hids] at h
  obtain ⟨hext, hargs, hnum, hhas⟩ := foldl_pushIndex h
  rw [← hst] at hext
  have hdest := (InstIds.getId_spec hext).2
  unfold indices
  rw [hidx, List.map_map]
  refine ⟨?_, fun v hv => ?_, fun v hv => ?_⟩
  · have hvector : (idx.foldl (pushIndex induc_vars) st).args
        = [.ptr load.pointerOperand, .i32 (ids'.idOf load.value)] ++
          ((idx.filter (isDependence induc_vars)).map
            (ids'.idOf ∘ fun op => op.value)).map Arg.i32 := by
      rw [hargs, ← hst, ← hdest, List.map_map]
      rfl
    have hcount : (idx.foldl (pushIndex induc_vars) st).num_conds
        = ((idx.filter (isDependence induc_vars)).map (ids'.idOf ∘ fun op => op.value)).length := by
      rw [hnum, ← hst, List.length_map, Nat.zero_add]
    unfold handle callOf
    dsimp only
    rw [← hcount]
    have hstart : ([Arg.ptr load.pointerOperand] ++ [.i32 (ids.getId load.value).1])
        = [.ptr load.pointerOperand, .i32 (ids.getId load.value).1] := rfl
    rw [hstart, hst, hvector, List.append_assoc]
    split <;> rfl
  · obtain ⟨op, hop, rfl⟩ := List.mem_map.mp hv
    exact hhas op hop
  · rw [List.head?_map, Option.map_eq_some_iff] at hv
    obtain ⟨op, hop, rfl⟩ := hv
    have hfirst := foldl_pushIndex_first h hop
    rw [← hst] at hfirst
    exact hfirst

end Vector

/-! ## §6. How the runtime reads it. -/

/-- There is one for fewer than five dependences. -/
theorem lookup_specialized_funcs (n : ℕ) :
    specialized_funcs.lookup n
      = if n < MAX_SPECIALIZED then some ("_KLoad" ++ toString n) else none := by
  match n with
  | 0 => rfl
  | 1 => rfl
  | 2 => rfl
  | 3 => rfl
  | 4 => rfl
  | n + 5 =>
      rw [if_neg (by unfold MAX_SPECIALIZED; omega)]
      rfl

/-- Arguments that were passed one by one are read one by one. -/
theorem va_args_map (srcs : List ℕ) : va_args srcs.length (srcs.map .i32) = some srcs := by
  induction srcs with
  | nil => rfl
  | cons r srcs ih =>
      show (va_args srcs.length (srcs.map .i32)).map (r :: ·) = _
      rw [ih]
      rfl

/-- A specialised function reads the registers and the size where they are. -/
theorem readCall_specialized (a d size : ℕ) {srcs : List ℕ} (h : srcs.length < MAX_SPECIALIZED) :
    readCall (callOf a d size srcs) = some (meant a d size srcs) := by
  unfold MAX_SPECIALIZED at h
  match srcs, h with
  | [], _ => rfl
  | [_], _ => rfl
  | [_, _], _ => rfl
  | [_, _, _], _ => rfl
  | [_, _, _, _], _ => rfl
  | _ :: _ :: _ :: _ :: _ :: _, h =>
      simp only [List.length_cons] at h
      omega

/-- The variadic one takes the first register for the size and the size for the
last register. -/
theorem readCall_variadic (a d size r : ℕ) {srcs : List ℕ}
    (h : MAX_SPECIALIZED ≤ (r :: srcs).length) :
    readCall (callOf a d size (r :: srcs))
      = some ⟨a, d, r, some (r :: srcs).length, srcs ++ [size]⟩ := by
  have hvariadic : callOf a d size (r :: srcs) = ⟨"_KLoad",
      .ptr a :: .i32 d :: .i32 r :: .i32 (r :: srcs).length :: (srcs ++ [size]).map .i32⟩ := by
    unfold callOf
    rw [lookup_specialized_funcs, if_neg (by omega), List.map_append]
    rfl
  have hargs := va_args_map (srcs ++ [size])
  rw [List.length_append, List.length_singleton] at hargs
  rw [hvariadic]
  show (va_args (srcs.length + 1) _).map _ = _
  rw [hargs]
  rfl

/-- Rotating a list changes nothing only if all its entries are one. -/
theorem append_singleton_eq_cons {x : ℕ} {xs : List ℕ} :
    xs ++ [x] = x :: xs ↔ ∀ y ∈ xs, y = x := by
  induction xs with
  | nil => simp
  | cons y ys ih =>
      rw [List.cons_append, List.cons.injEq, List.forall_mem_cons]
      constructor
      · intro h
        obtain ⟨rfl, htail⟩ := h
        exact ⟨rfl, ih.mp htail⟩
      · intro h
        obtain ⟨rfl, hys⟩ := h
        exact ⟨rfl, ih.mpr hys⟩

/-- The call is read as it was meant if it is specialised, or if every register is the size. -/
theorem readCall_callOf_iff (a d size : ℕ) (srcs : List ℕ) :
    readCall (callOf a d size srcs) = some (meant a d size srcs) ↔
      srcs.length < MAX_SPECIALIZED ∨ ∀ r ∈ srcs, r = size := by
  by_cases hlen : srcs.length < MAX_SPECIALIZED
  · exact ⟨fun _ => .inl hlen, fun _ => readCall_specialized a d size hlen⟩
  · cases srcs with
    | nil => exact absurd (show 0 < MAX_SPECIALIZED by decide) hlen
    | cons r srcs =>
        rw [readCall_variadic a d size r (by omega), or_iff_right hlen, Option.some.injEq, meant,
          if_neg hlen, List.forall_mem_cons]
        constructor
        · intro h
          rw [LoadCall.mk.injEq] at h
          obtain ⟨-, -, rfl, -, hsrcs⟩ := h
          exact ⟨rfl, append_singleton_eq_cons.mp hsrcs⟩
        · intro h
          obtain ⟨rfl, hsrcs⟩ := h
          rw [append_singleton_eq_cons.mpr hsrcs]

/-- **When the call is read as it was meant**: for fewer than five indices, and
otherwise when all of them are one value whose register happens to have the
number of the access size. -/
theorem decodes_iff (induc_vars : InductionVariables) (load : LoadInst) (ids : InstIds) :
    Decodes induc_vars load ids ↔
      (indices induc_vars load).length < MAX_SPECIALIZED ∨ SizeRegister induc_vars load ids := by
  obtain ⟨hcall, hhas, hfirst⟩ := handle_spec (InstIds.Extends.refl (handle induc_vars load ids).2)
  unfold Decodes
  dsimp only
  rw [hcall, readCall_callOf_iff, List.length_map, List.forall_mem_map]
  unfold SizeRegister
  generalize indices induc_vars load = idxs at hhas hfirst ⊢
  cases idxs with
  | nil => exact ⟨fun _ => .inl (Nat.zero_lt_succ 4), fun _ => .inl (Nat.zero_lt_succ 4)⟩
  | cons v vs =>
      have hv := hfirst v rfl
      refine or_congr_right ⟨fun h => ⟨v, fun w hw => ?_, ?_⟩, fun h w hw => ?_⟩
      · -- one number is the id of one value
        refine (hhas w hw).injective (hhas v List.mem_cons_self) ?_
        rw [h w hw, h v List.mem_cons_self]
      · rw [← hv]
        exact h v List.mem_cons_self
      · obtain ⟨v', hsame, hsize⟩ := h
        rw [hsame w hw, ← hsame v List.mem_cons_self, hv, hsame v List.mem_cons_self]
        exact hsize

/-- Loading an `i32` through five indices that are parameters of the function. -/
def deepLoad : LoadInst where
  value := 7
  type := .integer 32
  pointerOperand := 6
  gepi := some ((List.range 5).map fun v => ⟨v, .other⟩)

/-- Register 2 is taken for the access size, and the size for a register. -/
theorem not_decodes :
    readCall (handle ⟨[], []⟩ deepLoad .new).1 = some ⟨6, 1, 2, some 5, [3, 4, 5, 6, 4]⟩ ∧
    ¬ ∀ induc_vars load ids, Decodes induc_vars load ids := by
  have hread : readCall (handle ⟨[], []⟩ deepLoad .new).1
      = some ⟨6, 1, 2, some 5, [3, 4, 5, 6, 4]⟩ := rfl
  refine ⟨hread, fun hclaim => ?_⟩
  have hmeant := hclaim ⟨[], []⟩ deepLoad .new
  exact absurd (hread.symm.trans hmeant) (by decide)

end Kremlin.Instrument.LoadHandler
