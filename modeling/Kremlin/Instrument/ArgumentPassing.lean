/-
  Kremlin.Instrument.ArgumentPassing — arguments reach their parameters.

  The caller's and the callee's calls are created apart, each in front of the one
  created before, so that both are executed in the reverse order; both skip
  pointers.  The queue, which `_KPrepCall` has cleared, pairs them again.

  Main results:
    * `Pass.executes_before_call`, `Pass.executes_at_entry` — the code that is placed
      executes the calls of each of the two in the reverse order;
    * `arguments_reach` — along every run from a call into its callee the copies
      are those from the arguments to the parameters, each once.
-/
import Kremlin.Instrument.TimestampPlacer
import Kremlin.Runtime.ArgumentQueue

namespace Kremlin.Instrument

open Kremlin.Library Kremlin.Runtime Kremlin.Runtime.KremlinProfiler

/-! ## §1. What is executed. -/

/-- The events `es` are the emitted calls `calls`, with others in between that do not work
on the argument queue and do not open or close regions. -/
structure Executes (calls es : List Event) : Prop where
  quiet : ∀ e ∈ es, Quiet e
  emitted : es.filter Event.onQueue = calls.filter Event.onQueue

/-- The call that an inserted instruction makes; `log` tells those of the other handlers. -/
def eventOf (log : ℕ → Event) : Inst → Option Event
  | .inst _ => none
  | .created _ _ _ e => some e
  | .log k => some (log k)

/-- The calls of the other handlers do not disturb the queue. -/
def Undisturbing (log : ℕ → Event) : Prop := ∀ k, Quiet (log k) ∧ (log k).onQueue = false

section Placed

variable {log : ℕ → Event}

/-- A chain of calls executes what it was made of. -/
theorem filterMap_chain (handler : Handler) (n : ℕ) (es : List Event) :
    (chain handler n es).filterMap (eventOf log) = es := by
  unfold chain
  rw [List.mapIdx_eq_zipIdx_map, List.filterMap_map]
  simp [Function.comp_def, eventOf]

/-- What is neither of the program nor for the two handlers is a log. -/
theorem eq_log_of_not_visible {i : Inst} (h : Pass.marks.visible i = false) : ∃ k, i = .log k := by
  cases i with
  | inst n => cases h
  | log k => exact ⟨k, rfl⟩
  | created handler n k e => cases handler <;> cases h

/-- **Instructions that show the calls of a handler, the last first, execute them** in that
order: the logs in between are no calls on the queue. -/
theorem executes_of_shown (hlog : Undisturbing log) {handler : Handler} {n : ℕ} {es : List Event}
    (hes : ∀ e ∈ es, Quiet e) {l : List Inst}
    (hshown : l.filter Pass.marks.visible = (chain handler n es).reverse) :
    Executes es.reverse (l.filterMap (eventOf log)) := by
  constructor
  · intro e he
    obtain ⟨i, hi, hevent⟩ := List.mem_filterMap.mp he
    cases hvisible : Pass.marks.visible i with
    | false =>
        obtain ⟨k, rfl⟩ := eq_log_of_not_visible hvisible
        rw [← Option.some.inj hevent]
        exact (hlog k).1
    | true =>
        have hin : i ∈ (chain handler n es).reverse :=
          hshown ▸ List.mem_filter.mpr ⟨hi, hvisible⟩
        obtain ⟨k, hk, rfl⟩ := mem_chain.mp (List.mem_reverse.mp hin)
        rw [← Option.some.inj hevent]
        exact hes _ (List.getElem_mem hk)
  · -- what the marks hide does not touch the queue
    have hqueue : ∀ l : List Inst, (l.filterMap (eventOf log)).filter Event.onQueue =
        ((l.filter Pass.marks.visible).filterMap (eventOf log)).filter Event.onQueue := by
      intro l
      induction l with
      | nil => rfl
      | cons i l ih =>
          cases hvisible : Pass.marks.visible i with
          | false =>
              obtain ⟨k, rfl⟩ := eq_log_of_not_visible hvisible
              have hoff : ¬(log k).onQueue = true := by
                rw [(hlog k).2]
                exact Bool.false_ne_true
              rw [List.filter_cons_of_neg (by rw [hvisible]; exact Bool.false_ne_true),
                List.filterMap_cons_some (show eventOf log (.log k) = some (log k) from rfl),
                List.filter_cons_of_neg hoff, ih]
          | true =>
              rw [List.filter_cons_of_pos hvisible]
              cases hevent : eventOf log i with
              | none => rw [List.filterMap_cons_none hevent, List.filterMap_cons_none hevent, ih]
              | some e =>
                  rw [List.filterMap_cons_some hevent, List.filterMap_cons_some hevent,
                    List.filter_cons, List.filter_cons, ih]
    rw [hqueue, hshown, List.filterMap_reverse, filterMap_chain]

/-- A call site makes no calls but those of arguments. -/
theorem quiet_handle (call_inst : Callable) (ids : InstIds) :
    ∀ e ∈ (handle call_inst ids).1, Quiet e := by
  intro e he
  cases hskip : call_inst.skipped with
  | true =>
      unfold handle at he
      rw [hskip, if_pos rfl] at he
      cases he
  | false =>
      rw [(handle_spec hskip (InstIds.Extends.refl _)).1, List.mem_append, List.mem_append,
        List.mem_map, List.mem_singleton] at he
      rcases he with (he | ⟨arg, -, rfl⟩) | rfl
      · unfold linkReturns at he
        split at he
        · rw [List.mem_singleton.mp he]
          trivial
        · cases he
      · unfold enqueue
        split <;> trivial
      · trivial

/-- Nor does the start of a function. -/
theorem quiet_functionArgs (func : FunctionDecl) (ids : InstIds) :
    ∀ e ∈ (functionArgs func ids).1, Quiet e := by
  intro e he
  by_cases hmain : func.name = some "main"
  · unfold functionArgs at he
    rw [if_pos hmain] at he
    cases he
  · rw [(functionArgs_spec hmain (InstIds.Extends.refl _)).1] at he
    obtain ⟨param, -, rfl⟩ := List.mem_map.mp he
    trivial

variable {f : Function} {p : Pass f} {code : Code Inst}

/-- **The code in front of a call** executes what `handle` created for it, the last first. -/
theorem Pass.executes_before_call (hok : p.Ok) (h : p.instrument = some code)
    (hlog : Undisturbing log) {n : ℕ} (hn : n ∈ f.instrumented)
    (hfirst : n = f.firstInst → p.deqs = []) {c : Callable} (hc : f.callable n = some c) :
    ∃ bb ∈ code, .inst n ∈ bb ∧ Executes (handle c (p.callIds n)).1.reverse
      ((stretch marks.fixed (.inst n) bb).filterMap (eventOf log)) := by
  obtain ⟨bb, hbb, hmem, hshown⟩ := before_call hok h hn hfirst
  have hcalls : p.calls n = (handle c (p.callIds n)).1 := by
    unfold Pass.calls
    rw [hc]
  rw [hcalls] at hshown
  exact ⟨bb, hbb, hmem, executes_of_shown hlog (quiet_handle c _) hshown⟩

/-- **The code at the start of a function**, behind `_KPrepRTable`, executes what the
constructor of `FunctionArgsHandler` created, the last first. -/
theorem Pass.executes_at_entry (hok : p.Ok) (h : p.instrument = some code)
    (hlog : Undisturbing log) (hfirst : f.firstInst ∈ f.instrumented → p.calls f.firstInst = []) :
    ∃ entry rest, code = (p.prepRTable :: entry) :: rest ∧
      Executes (functionArgs f.decl p.argsIds).1.reverse
        ((entry.takeWhile (· ≠ .inst f.firstInst)).filterMap (eventOf log)) := by
  obtain ⟨entry, rest, hcode, -, hshown⟩ := at_entry hok h hfirst
  exact ⟨entry, rest, hcode, executes_of_shown hlog (quiet_functionArgs _ _) hshown⟩

end Placed

/-- The register an argument is in, if it is in one. -/
def argRegister (ids : InstIds) (arg : Argument) : Option ℕ :=
  if arg.isConstant then none else some (ids.idOf arg.value)

/-- An argument is enqueued as the register it is in. -/
theorem enqueue_eq (ids : InstIds) (arg : Argument) :
    enqueue ids arg = enqueueCall (argRegister ids arg) := by
  unfold enqueue argRegister
  split <;> rfl

variable {call_inst : Callable} {func : FunctionDecl} {ids₀ ids ids₀' ids' : InstIds}

/-- The caller's calls on the queue, in the order in which they are executed. -/
theorem onQueue_handle (hskip : call_inst.skipped = false)
    (hids : (handle call_inst ids₀).2.Extends ids) :
    ((handle call_inst ids₀).1.reverse).filter Event.onQueue =
      .prepCall call_inst.callSiteId 0 ::
        ((byValueArgs call_inst.args).reverse.map (argRegister ids)).map enqueueCall := by
  obtain ⟨hcalls, -, -⟩ := handle_spec hskip hids
  have hargs : ((byValueArgs call_inst.args).map (enqueue ids)).filter Event.onQueue =
      (byValueArgs call_inst.args).map (enqueue ids) := by
    refine List.filter_eq_self.mpr fun e he => ?_
    obtain ⟨arg, -, rfl⟩ := List.mem_map.mp he
    rw [enqueue_eq]
    cases argRegister ids arg <;> rfl
  have hreturn : (linkReturns ids call_inst).filter Event.onQueue = [] := by
    unfold linkReturns
    split <;> rfl
  have hmap : (byValueArgs call_inst.args).map (enqueue ids) =
      ((byValueArgs call_inst.args).map (argRegister ids)).map enqueueCall := by
    rw [List.map_map]
    exact List.map_congr_left fun arg _ => enqueue_eq ids arg
  rw [hcalls, List.filter_reverse, List.filter_append, List.filter_append, hreturn, hargs,
    List.nil_append, List.reverse_append, hmap, List.map_reverse, List.map_reverse]
  rfl

/-- The callee's calls, in the order in which they are executed. -/
theorem onQueue_functionArgs (hmain : func.name ≠ some "main")
    (hids' : (functionArgs func ids₀').2.Extends ids') :
    ((functionArgs func ids₀').1.reverse).filter Event.onQueue =
      ((byValueParams func.params).reverse.map fun p => ids'.idOf p.value).map .deqArg := by
  obtain ⟨hcalls, -⟩ := functionArgs_spec hmain hids'
  rw [hcalls, List.filter_eq_self.mpr, List.map_reverse, List.map_reverse, List.map_map]
  · rfl
  · intro e he
    obtain ⟨p, -, rfl⟩ := List.mem_map.mp (List.mem_reverse.mp he)
    rfl

/-- Arguments and parameters by value correspond. -/
theorem length_byValue {args : List Argument} {params : List Param}
    (htypes : args.map Argument.isPointer = params.map Param.isPointer) :
    (byValueArgs args).length = (byValueParams params).length := by
  unfold byValueArgs byValueParams
  induction args generalizing params with
  | nil =>
      have hnil : params = [] := List.map_eq_nil_iff.mp htypes.symm
      rw [hnil]
      rfl
  | cons arg args ih =>
      cases params with
      | nil => cases htypes
      | cons p params =>
          rw [List.map_cons, List.map_cons] at htypes
          obtain ⟨hpointer, hrest⟩ := List.cons.inj htypes
          rw [List.filter_cons, List.filter_cons, hpointer]
          cases p.isPointer with
          | true => exact ih hrest
          | false => exact congrArg (· + 1) (ih hrest)

/-! ## §2. The copies. -/

/-- The arguments with their parameters. -/
def pairing (ids ids' : InstIds) (call_inst : Callable) (func : FunctionDecl) : List (ℕ × ℕ) :=
  ((byValueArgs call_inst.args).map fun a => queued (argRegister ids a)).zip
    ((byValueParams func.params).map fun p => ids'.idOf p.value)

variable {cfg : Config} {s s' : KremlinProfiler} {before after : List Event} {rid : SID} {n d : ℕ}

/-- Arguments in the queue and the parameters that take them, in the order of execution. -/
theorem zip_reverse_eq
    (htypes : call_inst.args.map Argument.isPointer = func.params.map Param.isPointer) :
    (((byValueArgs call_inst.args).reverse.map (argRegister ids)).map queued).zip
        ((byValueParams func.params).reverse.map fun p => ids'.idOf p.value) =
      (pairing ids ids' call_inst func).reverse := by
  have hlength := length_byValue htypes
  have hzip : (pairing ids ids' call_inst func).reverse =
      ((byValueArgs call_inst.args).map fun a => queued (argRegister ids a)).reverse.zip
        ((byValueParams func.params).map fun p => ids'.idOf p.value).reverse :=
    List.reverse_zipWith (by rw [List.length_map, List.length_map, hlength])
  rw [hzip, List.map_map, List.map_reverse, List.map_reverse]
  rfl

/-- **The copies along a run from a call into its callee**, with the last parameter first. -/
theorem copies_eq (hskip : call_inst.skipped = false) (hmain : func.name ≠ some "main")
    (htypes : call_inst.args.map Argument.isPointer = func.params.map Param.isPointer)
    (hroom : (byValueArgs call_inst.args).length ≤ FUNC_ARG_QUEUE_SIZE)
    (hids : (handle call_inst ids₀).2.Extends ids)
    (hids' : (functionArgs func ids₀').2.Extends ids') (hon : s.enabled = true)
    (hlevel : cfg.min_level ≤ nextLevel s.curr_level)
    (hbefore : Executes (handle call_inst ids₀).1.reverse before)
    (hafter : Executes (functionArgs func ids₀').1.reverse after)
    (hrun : run (step cfg) s
      (before ++ .enterRegion rid .regionFunc :: .prepRTable n d :: after) = some s') :
    copies cfg s (before ++ .enterRegion rid .regionFunc :: .prepRTable n d :: after) =
      ((pairing ids ids' call_inst func).filterMap
        (copyInto (s.callstack.length + 1))).reverse := by
  obtain ⟨s₁, h₁, hrest⟩ := run_append_eq_some.mp hrun
  obtain ⟨s₂, h₂, hrest⟩ := run_cons_eq_some.mp hrest
  obtain ⟨s₃, h₃, h₄⟩ := run_cons_eq_some.mp hrest
  -- the arguments are in the queue
  have hcalls := hbefore.emitted.trans (onQueue_handle hskip hids)
  obtain ⟨hcall₁, hholds₁, hnone₁⟩ := call_run hbefore.quiet hcalls
    (by rw [List.length_map, List.length_reverse]; exact hroom) hon h₁
  have hentered := step_enterFunction (hcall₁.enabled.trans hon) h₂
  obtain ⟨hqueue₃, hcall₃, -⟩ := step_prepRTable hentered.enabled h₃
  have hdepth : s₃.callstack.length = s.callstack.length + 1 := by
    obtain ⟨callee, hstack⟩ := hentered.stack
    rw [hcall₃.functions, hstack, List.length_cons, hcall₁.functions]
  have hlevels : 0 < s₃.curr_num_instrumented_levels := by
    rw [hcall₃.instrumented, hentered.instrumented, hcall₁.level, if_neg (by omega)]
    exact Nat.succ_pos _
  -- the parameters take them
  have hcopies := dequeue_run hafter.quiet (hafter.emitted.trans (onQueue_functionArgs hmain hids'))
    (by
      rw [List.length_map, List.length_map, List.length_map, List.length_reverse,
        List.length_reverse]
      exact length_byValue htypes)
    (hcall₃.enabled.trans hentered.enabled) hlevels
    ((hholds₁.same hentered.toSameQueue).same hqueue₃) h₄
  rw [copies_append _ h₁, hnone₁, copies_cons h₂, copies_cons h₃, hcopies, hdepth,
    zip_reverse_eq htypes, List.filterMap_reverse]
  rfl

/-- Of copies into different registers, those into one. -/
theorem filter_copyInto {depth : ℕ} {pairs : List (ℕ × ℕ)} (hnodup : (pairs.map Prod.snd).Nodup)
    {src dest : ℕ} (hmem : (src, dest) ∈ pairs) :
    (pairs.filterMap (copyInto depth)).filter (fun c => decide (c.dest = dest)) =
      (copyInto depth (src, dest)).toList := by
  have hdest : ∀ q c, copyInto depth q = some c → c.dest = q.2 := by
    intro q c hc
    unfold copyInto at hc
    split at hc
    · cases hc
    · cases hc
      rfl
  have hothers : ∀ qs : List (ℕ × ℕ), dest ∉ qs.map Prod.snd →
      (qs.filterMap (copyInto depth)).filter (fun c => decide (c.dest = dest)) = [] := by
    intro qs hnot
    refine List.filter_eq_nil_iff.mpr fun c hc => ?_
    obtain ⟨q, hq, hqc⟩ := List.mem_filterMap.mp hc
    rw [decide_eq_true_eq, hdest q c hqc]
    exact fun heq => hnot (heq ▸ List.mem_map_of_mem hq)
  obtain ⟨l, r, rfl⟩ := List.append_of_mem hmem
  rw [List.map_append, List.map_cons] at hnodup
  obtain ⟨-, hr, hlr⟩ := List.nodup_append.mp hnodup
  have hleft : dest ∉ l.map Prod.snd := fun hin => hlr dest hin dest List.mem_cons_self rfl
  have hright : dest ∉ r.map Prod.snd := (List.nodup_cons.mp hr).1
  rw [List.filterMap_append, List.filter_append, hothers l hleft, List.nil_append,
    List.filterMap_cons]
  cases hcopy : copyInto depth (src, dest) with
  | none => exact hothers r hright
  | some c =>
      show (c :: r.filterMap (copyInto depth)).filter _ = [c]
      have hc : decide (c.dest = dest) = true := decide_eq_true (hdest _ c hcopy)
      rw [List.filter_cons, if_pos hc, hothers r hright]

/-- The parameters have different registers. -/
theorem nodup_registers (hmain : func.name ≠ some "main")
    (hids' : (functionArgs func ids₀').2.Extends ids')
    (hvalues : (func.params.map Param.value).Nodup) :
    ((byValueParams func.params).map fun p => ids'.idOf p.value).Nodup := by
  obtain ⟨-, hhas⟩ := functionArgs_spec hmain hids'
  have hsub : ((byValueParams func.params).map Param.value).Nodup :=
    (List.filter_sublist.map _).nodup hvalues
  have hmap := hsub.map_on (f := ids'.idOf) fun v hv w hw heq => by
    obtain ⟨p, hp, rfl⟩ := List.mem_map.mp hv
    obtain ⟨q, hq, rfl⟩ := List.mem_map.mp hw
    exact (hhas p hp).injective (hhas q hq) heq
  rwa [List.map_map] at hmap

/-- The k-th argument and the k-th parameter are paired. -/
theorem mem_pairing {k : ℕ} {arg : Argument} {param : Param}
    (harg : (byValueArgs call_inst.args)[k]? = some arg)
    (hparam : (byValueParams func.params)[k]? = some param) :
    (queued (argRegister ids arg), ids'.idOf param.value) ∈ pairing ids ids' call_inst func := by
  refine List.mem_of_getElem? (i := k) ?_
  unfold pairing
  rw [List.getElem?_zip_eq_some, List.getElem?_map, List.getElem?_map, harg, hparam]
  exact ⟨rfl, rfl⟩

/-- The registers of the caller's arguments are registers. -/
theorem copyInto_eq (hskip : call_inst.skipped = false)
    (hids : (handle call_inst ids₀).2.Extends ids) (hcount : ids.getCount < 2 ^ 32) {arg : Argument}
    (harg : arg ∈ byValueArgs call_inst.args) (depth dest : ℕ) :
    copyInto depth (queued (argRegister ids arg), dest) =
      if arg.isConstant then none else some ⟨depth - 2, ids.idOf arg.value, depth - 1, dest⟩ := by
  obtain ⟨-, hhas, -⟩ := handle_spec hskip hids
  unfold copyInto argRegister queued
  cases hconst : arg.isConstant with
  | true => rfl
  | false =>
      have hlt := (hhas arg harg hconst).lt_count
      have hne : ids.idOf arg.value ≠ DUMMY_ARG := by
        have hdummy : DUMMY_ARG = 2 ^ 32 - 1 := rfl
        omega
      exact if_neg hne

/-! ## §3. The calls can be made. -/

/-- The registers of the caller's arguments are in its table. -/
theorem queued_lt (hskip : call_inst.skipped = false)
    (hids : (handle call_inst ids₀).2.Extends ids) {arg : Argument}
    (harg : arg ∈ byValueArgs call_inst.args) :
    queued (argRegister ids arg) = DUMMY_ARG ∨ queued (argRegister ids arg) < ids.getCount := by
  obtain ⟨-, hhas, -⟩ := handle_spec hskip hids
  unfold argRegister
  cases hconst : arg.isConstant with
  | true => exact .inl rfl
  | false => exact .inr (hhas arg harg hconst).lt_count

/-- **The caller's calls can be made**; they leave the caller's table as it is. -/
theorem handle_run (cfg : Config) (hskip : call_inst.skipped = false)
    (hroom : (byValueArgs call_inst.args).length ≤ FUNC_ARG_QUEUE_SIZE)
    (hids : (handle call_inst ids₀).2.Extends ids) (hon : s.enabled = true)
    {caller : FunctionRegion} {callers : List FunctionRegion}
    (hstack : s.callstack = caller :: callers) :
    ∃ s₁ caller₁, run (step cfg) s (handle call_inst ids₀).1.reverse = some s₁ ∧
      SameCall s s₁ ∧ s₁.callstack = caller₁ :: callers ∧ caller₁.table = caller.table ∧
      s₁.Holds (((byValueArgs call_inst.args).reverse.map (argRegister ids)).map queued)
        (byValueArgs call_inst.args).length := by
  obtain ⟨hcalls, -, -⟩ := handle_spec hskip hids
  have horder : (handle call_inst ids₀).1.reverse =
      .prepCall call_inst.callSiteId 0 ::
        (((byValueArgs call_inst.args).reverse.map (argRegister ids)).map enqueueCall ++
          linkReturns ids call_inst) := by
    have hreturn : (linkReturns ids call_inst).reverse = linkReturns ids call_inst := by
      unfold linkReturns
      split <;> rfl
    have hmap : (byValueArgs call_inst.args).map (enqueue ids) =
        ((byValueArgs call_inst.args).map (argRegister ids)).map enqueueCall := by
      rw [List.map_map]
      exact List.map_congr_left fun arg _ => enqueue_eq ids arg
    rw [hcalls, List.reverse_append, List.reverse_append, hreturn, hmap, List.map_reverse,
      List.map_reverse]
    rfl
  obtain ⟨s₁, h₁, hcall₁, hstack₁, hholds₁⟩ := step_prepCall cfg call_inst.callSiteId 0 hon
  obtain ⟨s₂, h₂, hcall₂, hstack₂, hholds₂⟩ := enqueue_total cfg
    ((byValueArgs call_inst.args).reverse.map (argRegister ids)) (n := 0)
    (by rw [List.length_map, List.length_reverse]; omega) (hcall₁.enabled.trans hon) hholds₁
  rw [List.nil_append, Nat.zero_add, List.length_map, List.length_reverse] at hholds₂
  have hstack₂ : s₂.callstack = caller :: callers := hstack₂.trans (hstack₁.trans hstack)
  have hcall₂ := hcall₁.trans hcall₂
  have hrun₂ : run (step cfg) s (handle call_inst ids₀).1.reverse =
      run (step cfg) s₂ (linkReturns ids call_inst) := by
    rw [horder, run_cons, h₁, Option.bind_some, run_append, h₂, Option.bind_some]
  rw [hrun₂]
  unfold linkReturns
  cases call_inst.returnsRealValue with
  | false => exact ⟨s₂, caller, rfl, hcall₂, hstack₂, rfl, hholds₂⟩
  | true =>
      -- the result's register is kept with the caller
      have hlink : step cfg s₂ (.linkReturn (ids.idOf call_inst.value)) = some { s₂ with
          callstack := { caller with return_register := ids.idOf call_inst.value } :: callers } := by
        show handleLinkReturn _ s₂ = _
        unfold handleLinkReturn getCurrentFunction setCurrentFunction
        rw [if_pos (hcall₂.enabled.trans hon), hstack₂]
        rfl
      refine ⟨{ s₂ with
          callstack := { caller with return_register := ids.idOf call_inst.value } :: callers },
        _, ?_, ⟨hcall₂.enabled, ?_, hcall₂.instrumented, hcall₂.level⟩, rfl, rfl, hholds₂⟩
      · rw [if_pos rfl, run_cons, hlink]
        rfl
      · rw [hstack]
        rfl

/-- **The callee's calls can be made**, in the function that the calls before them entered. -/
theorem functionArgs_run (hskip : call_inst.skipped = false) (hmain : func.name ≠ some "main")
    (htypes : call_inst.args.map Argument.isPointer = func.params.map Param.isPointer)
    (hids : (handle call_inst ids₀).2.Extends ids)
    (hids' : (functionArgs func ids₀').2.Extends ids')
    (hvalues : (func.params.map Param.value).Nodup) {s₂ : KremlinProfiler}
    {caller : FunctionRegion} {callers : List FunctionRegion} {T : Table}
    (hon : s.enabled = true) (hstack : s.callstack = caller :: callers)
    (hT : caller.table = some T) (hTrow : ids.getCount ≤ T.row) (hTcol : s.curr_level < T.col)
    (hrow : ids'.getCount ≤ n)
    (hholds : s.Holds (((byValueArgs call_inst.args).reverse.map (argRegister ids)).map queued)
      (byValueArgs call_inst.args).length)
    (henter : run (step cfg) s [.enterRegion rid .regionFunc, .prepRTable n d] = some s₂) :
    ∃ s₃ callee t, run (step cfg) s₂ (functionArgs func ids₀').1.reverse = some s₃ ∧
      s₃.callstack = callee :: caller :: callers ∧ callee.table = some t ∧
      ∀ src dest, (src, dest) ∈ pairing ids ids' call_inst func → ∀ i < t.col, t.entry dest i =
        if src ≠ DUMMY_ARG ∧ i < s₂.curr_num_instrumented_levels - 1 then T.entry src i else 0 := by
  obtain ⟨s₁, h₁, hrest⟩ := run_cons_eq_some.mp henter
  obtain ⟨s₂', h₂, hnil⟩ := run_cons_eq_some.mp hrest
  cases hnil
  have hentered := step_enterFunction hon h₁
  obtain ⟨hqueue₂, hcall₂, callee, callee₂, rest, hstack₁, hstack₂, htable₂⟩ :=
    step_prepRTable hentered.enabled h₂
  have hrest : rest = caller :: callers := by
    obtain ⟨entered, hentered⟩ := hentered.stack
    rw [hstack₁, hstack] at hentered
    exact (List.cons.inj hentered).2
  rw [hrest] at hstack₂
  -- the levels to copy are levels of both tables
  have hnext : nextLevel s.curr_level ≤ s.curr_level + 1 := by
    unfold nextLevel
    split <;> omega
  have hlevels : s₂.curr_num_instrumented_levels - 1 ≤ nextLevel s.curr_level := by
    rw [hcall₂.instrumented, hentered.instrumented]
    split <;> omega
  obtain ⟨hcalls, hhas⟩ := functionArgs_spec hmain hids'
  have horder : (functionArgs func ids₀').1.reverse =
      ((byValueParams func.params).reverse.map fun p => ids'.idOf p.value).map .deqArg := by
    rw [hcalls, List.map_reverse, List.map_reverse, List.map_map]
    rfl
  obtain ⟨s₃, callee₃, t, hrun, hstack₃, ht, htrow, htcol, hin, -⟩ := dequeue_total cfg
    (((byValueArgs call_inst.args).reverse.map (argRegister ids)).map queued)
    ((byValueParams func.params).reverse.map fun p => ids'.idOf p.value)
    (by
      rw [List.length_map, List.length_map, List.length_map, List.length_reverse,
        List.length_reverse]
      exact length_byValue htypes)
    (by
      rw [List.map_reverse]
      exact List.nodup_reverse.mpr (nodup_registers hmain hids' hvalues))
    (hcall₂.enabled.trans hentered.enabled) hstack₂ htable₂ hT
    (by
      intro src hsrc
      obtain ⟨r, hr, rfl⟩ := List.mem_map.mp hsrc
      obtain ⟨arg, harg, rfl⟩ := List.mem_map.mp hr
      exact (queued_lt hskip hids (List.mem_reverse.mp harg)).imp_right (lt_of_lt_of_le · hTrow))
    (by
      intro dest hdest
      obtain ⟨p, hp, rfl⟩ := List.mem_map.mp hdest
      exact lt_of_lt_of_le (hhas p (List.mem_reverse.mp hp)).lt_count hrow)
    (by omega)
    (by
      show _ ≤ s₁.curr_level + d + 1
      rw [hentered.level]
      omega)
    ((hholds.same hentered.toSameQueue).same hqueue₂)
  refine ⟨s₃, callee₃, t, horder ▸ hrun, hstack₃, ht, fun src dest hmem i hi => ?_⟩
  rw [hin src dest (zip_reverse_eq htypes ▸ List.mem_reverse.mpr hmem) i (htcol ▸ hi),
    Table.entry_new]

/-! ## §4. Arguments reach their parameters. -/

/-- Along `es`, each parameter is copied into once, from the argument at its place; not at
all if this is a constant. -/
def Reach (cfg : Config) (s : KremlinProfiler) (ids ids' : InstIds) (call_inst : Callable)
    (func : FunctionDecl) (es : List Event) : Prop :=
  ∀ (k : ℕ) (arg : Argument) (param : Param),
    (byValueArgs call_inst.args)[k]? = some arg →
    (byValueParams func.params)[k]? = some param →
    (copies cfg s es).filter (fun c => decide (c.dest = ids'.idOf param.value)) =
      if arg.isConstant then []
      else [⟨s.callstack.length - 1, ids.idOf arg.value, s.callstack.length,
        ids'.idOf param.value⟩]

/-- **Arguments reach their parameters**, whatever the queue held before the call and
whatever other calls stand between.  The calls can be made, and the callee's registers have
the times of the arguments then; those of constants have time zero. -/
theorem arguments_reach (cfg : Config) (s : KremlinProfiler) (call_inst : Callable)
    (func : FunctionDecl) (ids₀ ids ids₀' ids' : InstIds) (rid : SID) (n d : ℕ)
    (hskip : call_inst.skipped = false) (hmain : func.name ≠ some "main")
    (htypes : call_inst.args.map Argument.isPointer = func.params.map Param.isPointer)
    (hroom : call_inst.args.length ≤ 63) (hvalues : (func.params.map Param.value).Nodup)
    (hids : (handle call_inst ids₀).2.Extends ids) (hcount : ids.getCount < 2 ^ 32)
    (hids' : (functionArgs func ids₀').2.Extends ids') (hon : s.enabled = true)
    (hlevel : cfg.min_level ≤ nextLevel s.curr_level) :
    (∀ before after s', Executes (handle call_inst ids₀).1.reverse before →
      Executes (functionArgs func ids₀').1.reverse after →
      run (step cfg) s (before ++ .enterRegion rid .regionFunc :: .prepRTable n d :: after) =
        some s' →
      Reach cfg s ids ids' call_inst func
        (before ++ .enterRegion rid .regionFunc :: .prepRTable n d :: after)) ∧
    ∀ caller callers T, s.callstack = caller :: callers → caller.table = some T →
      ids.getCount ≤ T.row → s.curr_level < T.col → ids'.getCount ≤ n →
      ∃ s₁, run (step cfg) s (handle call_inst ids₀).1.reverse = some s₁ ∧
        ∀ s₂, run (step cfg) s₁ [.enterRegion rid .regionFunc, .prepRTable n d] = some s₂ →
          ∃ s₃ callee caller' t, run (step cfg) s₂ (functionArgs func ids₀').1.reverse = some s₃ ∧
            s₃.callstack = callee :: caller' :: callers ∧ callee.table = some t ∧
            ∀ (k : ℕ) (arg : Argument) (param : Param), (byValueArgs call_inst.args)[k]? = some arg →
              (byValueParams func.params)[k]? = some param → ∀ i < t.col,
                t.entry (ids'.idOf param.value) i =
                  if arg.isConstant = false ∧ i < s₂.curr_num_instrumented_levels - 1 then
                    T.entry (ids.idOf arg.value) i
                  else 0 := by
  have hroom : (byValueArgs call_inst.args).length ≤ FUNC_ARG_QUEUE_SIZE :=
    (List.length_filter_le _ _).trans (hroom.trans (by decide))
  constructor
  · intro before after s' hbefore hafter hrun k arg param harg hparam
    -- queued (argRegister ids a)).length = => as many arguments as parameters are passed by value
    have hlength : ((byValueArgs call_inst.args).map fun a => queued (argRegister ids a)).length =
        ((byValueParams func.params).map fun p => ids'.idOf p.value).length := by
      rw [List.length_map, List.length_map]
      exact length_byValue htypes
    have hnodup : ((pairing ids ids' call_inst func).map Prod.snd).Nodup := by
      unfold pairing
      rw [List.map_snd_zip (le_of_eq hlength.symm)]
      exact nodup_registers hmain hids' hvalues
    rw [copies_eq hskip hmain htypes hroom hids hids' hon hlevel hbefore hafter hrun,
      List.filter_reverse, filter_copyInto hnodup (mem_pairing harg hparam),
      copyInto_eq hskip hids hcount (List.mem_of_getElem? harg)]
    split <;> rfl
  · intro caller callers T hstack hT hTrow hTcol hrow
    obtain ⟨s₁, caller₁, hrun₁, hcall₁, hstack₁, htable₁, hholds₁⟩ :=
      handle_run cfg hskip hroom hids hon hstack
    refine ⟨s₁, hrun₁, fun s₂ henter => ?_⟩
    obtain ⟨s₃, callee, t, hrun₃, hstack₃, ht, hentries⟩ :=
      functionArgs_run hskip hmain htypes hids hids' hvalues (hcall₁.enabled.trans hon) hstack₁
        (htable₁.trans hT) hTrow (hcall₁.level.symm ▸ hTcol) hrow hholds₁ henter
    refine ⟨s₃, callee, caller₁, t, hrun₃, hstack₃, ht, fun k arg param harg hparam i hi => ?_⟩
    rw [hentries _ _ (mem_pairing harg hparam) i hi]
    -- a register is copied, a constant leaves the parameter's register 0
    have hhas := (handle_spec hskip hids).2.1 arg (List.mem_of_getElem? harg)
    unfold argRegister queued
    cases hconst : arg.isConstant with
    | true => exact (if_neg fun h => h.1 rfl).trans (if_neg fun h => nomatch h.1).symm
    | false =>
        have hlt := (hhas hconst).lt_count
        have hne : ids.idOf arg.value ≠ DUMMY_ARG := by
          have hdummy : DUMMY_ARG = 2 ^ 32 - 1 := rfl
          omega
        exact if_congr ⟨fun h => ⟨rfl, h.2⟩, fun h => ⟨hne, h.2⟩⟩ rfl rfl

/-! ### A call in `main`. -/

/-- All levels are instrumented. -/
def wholeWindow : Config := { min_level := 0, max_level := 20 }

/-- In `main`, after a call of a library function that left register 3 in the queue. -/
def inMain : KremlinProfiler :=
  (run (step wholeWindow) (.init wholeWindow 1)
    [.enterRegion 1 .regionFunc, .prepRTable 8 2, .prepCall 3 0, .enqArg 3]).getD
    (.init wholeWindow 1)

/-- `int mix(int, int *, int)`. -/
def mixFunc : FunctionDecl := ⟨some "mix", false, [⟨10, false⟩, ⟨11, true⟩, ⟨12, false⟩]⟩

/-- `mix(x, p, 7)`. -/
def mixCall : Callable :=
  ⟨6, some mixFunc, [⟨5, false, false⟩, ⟨8, true, false⟩, ⟨9, false, true⟩], true, 77⟩

/-- The caller passes a constant and a register. -/
def mixBefore : List Event := [.prepCall 77 0, .work 1, .enqArgConst, .enqArg 2, .linkReturn 1]

/-- The callee takes both. -/
def mixAfter : List Event := [.deqArg 2, .deqArg 1]

/-- Between the calls other code is executed, and both arguments arrive. -/
theorem arguments_reach_mix :
    ∃ s', run (step wholeWindow) inMain
        (mixBefore ++ .enterRegion 2 .regionFunc :: .prepRTable 8 1 :: mixAfter) = some s' ∧
      Reach wholeWindow inMain (handle mixCall .new).2 (functionArgs mixFunc .new).2 mixCall mixFunc
        (mixBefore ++ .enterRegion 2 .regionFunc :: .prepRTable 8 1 :: mixAfter) := by
  have hsome : (run (step wholeWindow) inMain
      (mixBefore ++ .enterRegion 2 .regionFunc :: .prepRTable 8 1 :: mixAfter)).isSome = true := by
    decide +kernel
  obtain ⟨s', hrun⟩ := Option.isSome_iff_exists.mp hsome
  refine ⟨s', hrun, (arguments_reach wholeWindow inMain mixCall mixFunc .new _ .new _ 2 8 1 rfl
    (by decide) rfl (by decide) (by decide) (InstIds.Extends.refl _) (by decide +kernel)
    (InstIds.Extends.refl _) (by decide +kernel) (Nat.zero_le _)).1 mixBefore mixAfter s'
    ⟨?_, rfl⟩ ⟨?_, rfl⟩ hrun⟩
  · simp [mixBefore, Quiet]
  · simp [mixAfter, Quiet]

/-- A program's own `int rand(int)`, and a call of it. -/
def randFunc : FunctionDecl := ⟨some "rand", false, [⟨10, false⟩]⟩

/-- A call of an ignored function. -/
def randCall : Callable := ⟨6, some randFunc, [⟨5, false, false⟩], true, 77⟩

/-- The caller's ids when another handler has asked for the argument's. -/
def randIds : InstIds := (InstIds.new.getId 5).2

/-- **Nothing is enqueued for a function with an ignored name**, so that its parameter
takes what the queue was left with. -/
theorem rand_takes_earlier :
    randCall.skipped = true ∧ randFunc.name ≠ some "main" ∧
      randCall.args.map Argument.isPointer = randFunc.params.map Param.isPointer ∧
      (∃ s', run (step wholeWindow) inMain ((handle randCall randIds).1.reverse ++
          .enterRegion 2 .regionFunc :: .prepRTable 8 1 ::
            (functionArgs randFunc .new).1.reverse) = some s') ∧
      copies wholeWindow inMain ((handle randCall randIds).1.reverse ++
          .enterRegion 2 .regionFunc :: .prepRTable 8 1 ::
            (functionArgs randFunc .new).1.reverse) = [⟨0, 3, 1, 1⟩] ∧
      ¬ Reach wholeWindow inMain randIds (functionArgs randFunc .new).2 randCall randFunc
        ((handle randCall randIds).1.reverse ++
          .enterRegion 2 .regionFunc :: .prepRTable 8 1 ::
            (functionArgs randFunc .new).1.reverse) := by
  have hsome : (run (step wholeWindow) inMain ((handle randCall randIds).1.reverse ++
      .enterRegion 2 .regionFunc :: .prepRTable 8 1 ::
        (functionArgs randFunc .new).1.reverse)).isSome = true := by
    decide +kernel
  have hcopies : copies wholeWindow inMain ((handle randCall randIds).1.reverse ++
      .enterRegion 2 .regionFunc :: .prepRTable 8 1 ::
        (functionArgs randFunc .new).1.reverse) = [⟨0, 3, 1, 1⟩] := by
    decide +kernel
  refine ⟨by decide, by decide, rfl, Option.isSome_iff_exists.mp hsome, hcopies, fun hreach => ?_⟩
  have hfirst := hreach 0 ⟨5, false, false⟩ ⟨10, false⟩ rfl rfl
  rw [hcopies] at hfirst
  revert hfirst
  decide +kernel

end Kremlin.Instrument
