/-
  Kremlin.Instrument.CallableHandler — the calls made for arguments.

  `InstIds.cpp`, `CallableHandler.tcc`, `FunctionArgsHandler.cpp` and the list of
  ignored functions of `CriticalPath.cpp`.  At a call the caller enqueues its
  arguments, at the start of a function the callee dequeues its parameters; both
  skip pointers.  Conventions:

    * a value (an instruction or a parameter) is a natural number;
    * a call of the interface is the `Event` it is at run time.  A handler
      returns the calls in the order it creates them, each to be placed in front
      of the one created before it (`last_call`, `last_inst`);
    * ids are natural numbers; a function has fewer than `2 ^ 32` of them.

  The callsite id is the hash of `CallSiteIdGenerator`, here a field of the call.
  Other handlers ask for ids in between, so every request may meet any state.
-/
import Kremlin.Runtime.Handlers

namespace Kremlin.Instrument

open Kremlin.Runtime

/-! ## §1. Ids. -/

/-- `class InstIds`.  An id is given out once. -/
structure InstIds where
  inst_to_id : ℕ → Option ℕ
  inst_ids : ℕ
  below : ∀ v id, inst_to_id v = some id → id < inst_ids
  once : ∀ v w id, inst_to_id v = some id → inst_to_id w = some id → v = w

namespace InstIds

/-- No value has an id yet; the ids begin with 1. -/
def new : InstIds where
  inst_to_id _ := none
  inst_ids := 1
  below _ _ h := by cases h
  once _ _ _ h := by cases h

/-- The id of the next value. -/
def assign (ids : InstIds) (inst : ℕ) : InstIds where
  inst_to_id v := if v = inst then some ids.inst_ids else ids.inst_to_id v
  inst_ids := ids.inst_ids + 1
  below v id h := by
    split at h
    · cases h
      exact Nat.lt_succ_self _
    · exact Nat.lt_succ_of_lt (ids.below v id h)
  once v w id hv hw := by
    split at hv <;> split at hw
    · next h h' => rw [h, h']
    · cases hv
      exact absurd (ids.below w _ hw) (Nat.lt_irrefl _)
    · cases hw
      exact absurd (ids.below v _ hv) (Nat.lt_irrefl _)
    · exact ids.once v w id hv hw

/-- The id of a value, a new one if it has none. -/
def getId (ids : InstIds) (inst : ℕ) : ℕ × InstIds :=
  match ids.inst_to_id inst with
  | some id => (id, ids)
  | none => (ids.inst_ids, ids.assign inst)

/-- The number of ids, which is that of the next one. -/
def getCount (ids : InstIds) : ℕ := ids.inst_ids

/-- Later ids: what has been given out stays. -/
def Extends (ids ids' : InstIds) : Prop :=
  ∀ v id, ids.inst_to_id v = some id → ids'.inst_to_id v = some id

/-- A state extends itself. -/
theorem Extends.refl (ids : InstIds) : ids.Extends ids := fun _ _ h => h

/-- Ids are never taken back. -/
theorem Extends.trans {ids₁ ids₂ ids₃ : InstIds} (h : ids₁.Extends ids₂)
    (h' : ids₂.Extends ids₃) : ids₁.Extends ids₃ := fun v id hv => h' v id (h v id hv)

/-- The id a value has, once it has one. -/
def idOf (ids : InstIds) (v : ℕ) : ℕ := (ids.inst_to_id v).getD 0

/-- The value has an id. -/
def Has (ids : InstIds) (v : ℕ) : Prop := ids.inst_to_id v = some (ids.idOf v)

/-- Asking for an id keeps the ids there are. -/
theorem getId_extends (ids : InstIds) (v : ℕ) : ids.Extends (ids.getId v).2 := by
  unfold getId
  split
  · exact .refl ids
  · next hnone =>
      intro w id hw
      show (if w = v then _ else _) = _
      rw [if_neg]
      · exact hw
      · rintro rfl
        rw [hnone] at hw
        cases hw

/-- The id that is returned is the id of the value from then on. -/
theorem getId_spec {ids ids' : InstIds} {v : ℕ} (h : (ids.getId v).2.Extends ids') :
    ids'.Has v ∧ (ids.getId v).1 = ids'.idOf v := by
  have hget : ids'.inst_to_id v = some (ids.getId v).1 := by
    apply h
    unfold getId
    split
    · next id hid => exact hid
    · show (if v = v then _ else _) = _
      rw [if_pos rfl]
  have hid : ids'.idOf v = (ids.getId v).1 := by rw [idOf, hget, Option.getD_some]
  exact ⟨by rw [Has, hid]; exact hget, hid.symm⟩

/-- An id is below the number of ids. -/
theorem Has.lt_count {ids : InstIds} {v : ℕ} (h : ids.Has v) : ids.idOf v < ids.getCount :=
  ids.below v _ h

/-- No two values have one id. -/
theorem Has.injective {ids : InstIds} {v w : ℕ} (hv : ids.Has v) (hw : ids.Has w)
    (h : ids.idOf v = ids.idOf w) : v = w := by
  refine ids.once v w _ hv ?_
  rw [h]
  exact hw

end InstIds

/-! ## §2. Functions and calls. -/

/-- An argument of a call: `isa<PointerType>` of its type, `isa<Constant>` of
the value. -/
structure Argument where
  value : ℕ
  isPointer : Bool
  isConstant : Bool
  deriving Repr, DecidableEq

/-- A parameter of a function. -/
structure Param where
  value : ℕ
  isPointer : Bool
  deriving Repr, DecidableEq

/-- `llvm::Function` from outside. -/
structure FunctionDecl where
  name : Option String
  isIntrinsic : Bool
  params : List Param
  deriving Repr, DecidableEq

/-- A call or an invoke.  `calledFunction` is `getCalledFunction`. -/
structure Callable where
  value : ℕ
  calledFunction : Option FunctionDecl
  args : List Argument
  returnsRealValue : Bool
  callSiteId : CID
  deriving Repr, DecidableEq

/-! ## §3. The handlers. -/

/-- The functions `CriticalPath.cpp` asks the handlers to ignore. -/
def ignoredFuncs : List String :=
  ["printf", "fprintf", "puts", "scanf", "fscanf", "gets", "fopen", "fclose", "exit", "atoi",
    "rand", "malloc", "calloc", "realloc", "free", "__cxa_allocate_exception", "__cxa_throw",
    "__cxa_begin_catch", "__cxa_end_catch", "__gxx_personality_v0"]

/-- Calls of intrinsics, of unknown functions and of ignored ones are skipped. -/
def shouldHandle (func : FunctionDecl) : Bool :=
  if func.isIntrinsic then false
  else
    match func.name with
    | none => false
    | some name => !(ignoredFuncs.contains name)

/-- The loop body of `handle`: link one argument. -/
def linkArg (st : List Event × InstIds) (call_arg : Argument) : List Event × InstIds :=
  if call_arg.isPointer then st
  else if call_arg.isConstant then (st.1 ++ [.enqArgConst], st.2)
  else
    let id := st.2.getId call_arg.value
    (st.1 ++ [.enqArg id.1], id.2)

/-- A call whose callee is known and ignored. -/
def Callable.skipped (call_inst : Callable) : Bool :=
  match call_inst.calledFunction with
  | some func => !(shouldHandle func)
  | none => false

/-- `CallableHandler::handle`. -/
def handle (call_inst : Callable) (ids : InstIds) : List Event × InstIds :=
  if call_inst.skipped then ([], ids)
  else
    let st :=
      if call_inst.returnsRealValue then
        let id := ids.getId call_inst.value
        ([Event.linkReturn id.1], id.2)
      else ([], ids)
    let st := call_inst.args.foldl linkArg st
    (st.1 ++ [.prepCall call_inst.callSiteId 0], st.2)

/-- The loop body of the constructor of `FunctionArgsHandler`. -/
def unlinkArg (st : List Event × InstIds) (arg : Param) : List Event × InstIds :=
  if arg.isPointer then st
  else
    let id := st.2.getId arg.value
    (st.1 ++ [.deqArg id.1], id.2)

/-- The constructor of `FunctionArgsHandler`. -/
def functionArgs (func : FunctionDecl) (ids : InstIds) : List Event × InstIds :=
  if func.name = some "main" then ([], ids) else func.params.foldl unlinkArg ([], ids)

/-! ## §4. What they create. -/

/-- The arguments passed by value. -/
def byValueArgs (args : List Argument) : List Argument := args.filter fun a => !a.isPointer

/-- The parameters passed by value. -/
def byValueParams (params : List Param) : List Param := params.filter fun p => !p.isPointer

/-- The call that enqueues an argument. -/
def enqueue (ids : InstIds) (arg : Argument) : Event :=
  if arg.isConstant then .enqArgConst else .enqArg (ids.idOf arg.value)

/-- The calls `handle` makes in front of the arguments' calls. -/
def linkReturns (ids : InstIds) (call_inst : Callable) : List Event :=
  if call_inst.returnsRealValue then [.linkReturn (ids.idOf call_inst.value)] else []

/-- Linking an argument keeps the ids. -/
theorem linkArg_extends (st : List Event × InstIds) (arg : Argument) :
    st.2.Extends (linkArg st arg).2 := by
  unfold linkArg
  split
  · exact .refl _
  · split
    · exact .refl _
    · exact InstIds.getId_extends _ _

/-- **The calls for the arguments**, under the ids at any later time. -/
theorem foldl_linkArg {args : List Argument} {st : List Event × InstIds} {ids : InstIds}
    (h : (args.foldl linkArg st).2.Extends ids) :
    st.2.Extends ids ∧
      (args.foldl linkArg st).1 = st.1 ++ (byValueArgs args).map (enqueue ids) ∧
      ∀ a ∈ byValueArgs args, a.isConstant = false → ids.Has a.value := by
  induction args generalizing st with
  | nil => exact ⟨h, (List.append_nil _).symm, fun a ha => by cases ha⟩
  | cons arg args ih =>
      rw [List.foldl_cons] at h ⊢
      obtain ⟨hext, hevents, hhas⟩ := ih h
      refine ⟨(linkArg_extends st arg).trans hext, ?_, ?_⟩
      · rw [hevents]
        -- a pointer is skipped, a constant asks for no id
        unfold linkArg byValueArgs at *
        cases hp : arg.isPointer with
        | true => rw [if_pos rfl, List.filter_cons_of_neg (by simp [hp])]
        | false =>
            rw [if_neg Bool.false_ne_true, List.filter_cons_of_pos (by simp [hp]), List.map_cons]
            cases hc : arg.isConstant with
            | true =>
                rw [if_pos rfl, List.append_assoc, List.singleton_append, enqueue, if_pos hc]
            | false =>
                rw [hp, hc, if_neg Bool.false_ne_true, if_neg Bool.false_ne_true] at hext
                rw [if_neg Bool.false_ne_true, List.append_assoc, List.singleton_append, enqueue,
                  hc, if_neg Bool.false_ne_true, (InstIds.getId_spec hext).2]
      · intro a ha hconst
        rw [byValueArgs, List.filter_cons] at ha
        split at ha
        · next hp =>
            rcases List.mem_cons.mp ha with rfl | ha
            · have hp' : a.isPointer = false := by simpa using hp
              unfold linkArg at hext
              rw [hp', hconst, if_neg Bool.false_ne_true, if_neg Bool.false_ne_true] at hext
              exact (InstIds.getId_spec hext).1
            · exact hhas a ha hconst
        · exact hhas a ha hconst

/-- **What `handle` creates at a call it does not skip.** -/
theorem handle_spec {call_inst : Callable} {ids₀ ids : InstIds}
    (hskip : call_inst.skipped = false) (h : (handle call_inst ids₀).2.Extends ids) :
    (handle call_inst ids₀).1
        = linkReturns ids call_inst ++ (byValueArgs call_inst.args).map (enqueue ids)
          ++ [.prepCall call_inst.callSiteId 0] ∧
      (∀ a ∈ byValueArgs call_inst.args, a.isConstant = false → ids.Has a.value) ∧
      (call_inst.returnsRealValue = true → ids.Has call_inst.value) := by
  unfold handle at h ⊢
  rw [hskip, if_neg Bool.false_ne_true] at h ⊢
  dsimp only at h ⊢
  obtain ⟨hext, hevents, hhas⟩ := foldl_linkArg h
  rw [hevents]
  unfold linkReturns
  cases hret : call_inst.returnsRealValue with
  | true =>
      rw [hret, if_pos rfl] at hext
      obtain ⟨hval, hid⟩ := InstIds.getId_spec hext
      rw [if_pos rfl, if_pos rfl]
      dsimp only
      rw [hid]
      exact ⟨rfl, hhas, fun _ => hval⟩
  | false =>
      rw [if_neg Bool.false_ne_true, if_neg Bool.false_ne_true]
      exact ⟨rfl, hhas, fun hf => by cases hf⟩

/-- Unlinking a parameter keeps the ids. -/
theorem unlinkArg_extends (st : List Event × InstIds) (arg : Param) :
    st.2.Extends (unlinkArg st arg).2 := by
  unfold unlinkArg
  split
  · exact .refl _
  · exact InstIds.getId_extends _ _

/-- The calls for the parameters. -/
theorem foldl_unlinkArg {params : List Param} {st : List Event × InstIds} {ids : InstIds}
    (h : (params.foldl unlinkArg st).2.Extends ids) :
    st.2.Extends ids ∧
      (params.foldl unlinkArg st).1
        = st.1 ++ (byValueParams params).map (fun p => .deqArg (ids.idOf p.value)) ∧
      ∀ p ∈ byValueParams params, ids.Has p.value := by
  induction params generalizing st with
  | nil => exact ⟨h, (List.append_nil _).symm, fun a ha => by cases ha⟩
  | cons p params ih =>
      rw [List.foldl_cons] at h ⊢
      obtain ⟨hext, hevents, hhas⟩ := ih h
      refine ⟨(unlinkArg_extends st p).trans hext, ?_, ?_⟩
      · rw [hevents]
        unfold unlinkArg byValueParams at *
        cases hp : p.isPointer with
        | true => rw [if_pos rfl, List.filter_cons_of_neg (by simp [hp])]
        | false =>
            rw [hp, if_neg Bool.false_ne_true] at hext
            rw [if_neg Bool.false_ne_true, List.filter_cons_of_pos (by simp [hp]), List.map_cons,
              List.append_assoc, List.singleton_append, (InstIds.getId_spec hext).2]
      · intro q hq
        rw [byValueParams, List.filter_cons] at hq
        split at hq
        · next hp =>
            rcases List.mem_cons.mp hq with rfl | hq
            · have hp' : q.isPointer = false := by simpa using hp
              unfold unlinkArg at hext
              rw [hp', if_neg Bool.false_ne_true] at hext
              exact (InstIds.getId_spec hext).1
            · exact hhas q hq
        · exact hhas q hq

/-- **What the constructor of `FunctionArgsHandler` creates.** -/
theorem functionArgs_spec {func : FunctionDecl} {ids₀ ids : InstIds}
    (hmain : func.name ≠ some "main") (h : (functionArgs func ids₀).2.Extends ids) :
    (functionArgs func ids₀).1
        = (byValueParams func.params).map (fun p => .deqArg (ids.idOf p.value)) ∧
      ∀ p ∈ byValueParams func.params, ids.Has p.value := by
  unfold functionArgs at h ⊢
  rw [if_neg hmain] at h ⊢
  obtain ⟨-, hevents, hhas⟩ := foldl_unlinkArg h
  exact ⟨hevents.trans (List.nil_append _), hhas⟩

end Kremlin.Instrument
