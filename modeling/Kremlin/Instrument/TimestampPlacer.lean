/-
  Kremlin.Instrument.TimestampPlacer — instrumenting one function.

  `TimestampPlacer.cpp`, `LocalTableHandler.cpp` and the part of
  `CriticalPath.cpp` that drives them.  Blocks that are landing pads or end in
  `resume` are skipped.  `CriticalPath` runs `insertInstrumentation` four times
  with one placer; the last time adds `_KPrepRTable` in front of everything else
  in the entry block.  Conventions:

    * the entry block has no PHI nodes, so its first instruction is its first
      non-PHI instruction;
    * the calls of the other handlers are `log`s, and where they are to be placed
      is unknown (`Pass.first`, `Pass.later`).

  Main results:
    * `Pass.before_call` — what stands in front of a call;
    * `Pass.at_entry` — what stands at the start of a function: the calls of the two
      argument handlers, in the order in which they are executed.
-/
import Kremlin.Instrument.CallableHandler
import Kremlin.Instrument.Placer

namespace Kremlin.Instrument

open Kremlin.Library
open Kremlin.Runtime

/-! ## §1. Instructions. -/

/-- The handlers whose calls are told apart. -/
inductive Handler where
  | callable
  | functionArgs
  | localTable
  deriving Repr, DecidableEq

/-- An instruction of the program; the `k`-th call a handler creates for an
instruction; or a call of another handler. -/
inductive Inst where
  | inst (n : ℕ)
  | created (handler : Handler) (n k : ℕ) (e : Event)
  | log (n : ℕ)
  deriving Repr, DecidableEq

/-- The calls a handler has created for instruction `n`. -/
def chain (handler : Handler) (n : ℕ) (es : List Event) : List Inst :=
  es.mapIdx fun k e => .created handler n k e

/-- Each call is placed in front of the one created before it, the first in front
of the instruction. -/
def constrain (handler : Handler) (n : ℕ) (es : List Event) : List (Constraint Inst) :=
  (chain handler n es).zip (.inst n :: chain handler n es)

/-- One call for each event. -/
@[simp] theorem length_chain (handler : Handler) (n : ℕ) (es : List Event) :
    (chain handler n es).length = es.length := List.length_mapIdx

/-- A call of the chain is one of its events. -/
theorem mem_chain {handler : Handler} {n : ℕ} {es : List Event} {i : Inst} :
    i ∈ chain handler n es ↔ ∃ (k : ℕ) (hk : k < es.length), i = .created handler n k es[k] := by
  rw [chain, List.mem_mapIdx]
  constructor
  · rintro ⟨k, hk, h⟩
    exact ⟨k, hk, h.symm⟩
  · rintro ⟨k, hk, h⟩
    exact ⟨k, hk, h.symm⟩

/-- The call at a position. -/
theorem getElem_chain {handler : Handler} {n k : ℕ} {es : List Event}
    (hk : k < (chain handler n es).length) :
    (chain handler n es)[k] = .created handler n k (es.get ⟨k, by simpa using hk⟩) :=
  List.getElem_mapIdx

/-- The calls of a chain differ. -/
theorem nodup_chain (handler : Handler) (n : ℕ) (es : List Event) :
    (chain handler n es).Nodup := by
  rw [List.nodup_iff_injective_getElem]
  intro a b h
  dsimp only at h
  rw [getElem_chain, getElem_chain, Inst.created.injEq] at h
  exact Fin.ext h.2.2.1

/-- The constraints of a chain: the `k`-th call and its user. -/
theorem mem_constrain {handler : Handler} {n : ℕ} {es : List Event} {c : Constraint Inst} :
    c ∈ constrain handler n es ↔ ∃ (k : ℕ) (hk : k < es.length),
      c = (.created handler n k es[k], chainUser (.inst n) (chain handler n es) k) := by
  rw [constrain, List.mem_iff_getElem]
  simp only [List.length_zip, List.length_cons, length_chain, List.getElem_zip, getElem_chain,
    List.get_eq_getElem]
  have huser : ∀ (k : ℕ) (hk : k < (Inst.inst n :: chain handler n es).length), k < es.length →
      (Inst.inst n :: chain handler n es)[k] = chainUser (.inst n) (chain handler n es) k := by
    intro k hk hlt
    cases k with
    | zero => rfl
    | succ k =>
        rw [List.getElem_cons_succ]
        show _ = ((chain handler n es)[k]?).getD _
        rw [List.getElem?_eq_getElem (by simp; omega), Option.getD_some]
  constructor
  · rintro ⟨k, hk, rfl⟩
    have hk' : k < es.length := by omega
    exact ⟨k, hk', by rw [huser k _ hk']⟩
  · rintro ⟨k, hk, rfl⟩
    exact ⟨k, by omega, by rw [huser k _ hk]⟩

/-! ## §2. Functions. -/

/-- `llvm::BasicBlock`, its instructions by number. -/
structure BasicBlock where
  insts : List ℕ
  isLandingPad : Bool
  endsInResume : Bool
  deriving Repr, DecidableEq

/-- A function definition.  `callable` tells the calls and invokes among its
instructions. -/
structure Function where
  decl : FunctionDecl
  entry : BasicBlock
  blocks : List BasicBlock
  firstInst : ℕ
  callable : ℕ → Option Callable
  first_mem : entry.insts.head? = some firstInst
  nodup : ((entry :: blocks).flatMap (·.insts)).Nodup

namespace Function

variable (f : Function)

/-- The entry block comes first. -/
def allBlocks : List BasicBlock := f.entry :: f.blocks

/-- The code before the pass. -/
def code : Code Inst := f.allBlocks.map fun bb => bb.insts.map .inst

/-- The instructions `insertInstrumentation` goes through. -/
def instrumented : List ℕ :=
  (f.allBlocks.filter fun bb => !(bb.isLandingPad || bb.endsInResume)).flatMap (·.insts)

/-- The code is made of the instructions of the blocks. -/
theorem mem_code {i : Inst} : i ∈ f.code.flatten ↔ ∃ bb ∈ f.allBlocks, ∃ n ∈ bb.insts, .inst n = i := by
  simp [code]

/-- What is instrumented is in the code. -/
theorem instrumented_mem_code {n : ℕ} (h : n ∈ f.instrumented) : .inst n ∈ f.code.flatten := by
  obtain ⟨bb, hbb, hn⟩ := List.mem_flatMap.mp h
  exact f.mem_code.mpr ⟨bb, (List.mem_filter.mp hbb).1, n, hn, rfl⟩

/-- So is the first instruction. -/
theorem first_mem_code : .inst f.firstInst ∈ f.code.flatten :=
  f.mem_code.mpr ⟨f.entry, List.mem_cons_self .., _, List.mem_of_mem_head? f.first_mem, rfl⟩

end Function

/-! ## §3. The pass. -/

/-- One run of the pass over a function: what the placer takes from outside, the
ids when each of the two handlers asks for some and at the end, the constraints of
the other handlers in the first round and in the two that follow, and the nesting
depth `RegionInstrument` writes into `_KPrepRTable` later. -/
structure Pass (f : Function) where
  placer : PlacerContext Inst
  argsIds : InstIds
  callIds : ℕ → InstIds
  ids : InstIds
  first : List (Constraint Inst)
  later : List (List (Constraint Inst))
  nested_depth : ℕ

namespace Pass

variable {f : Function} (p : Pass f)

/-- What `CallableHandler::handle` creates at an instruction. -/
def calls (n : ℕ) : List Event :=
  match f.callable n with
  | some c => (handle c (p.callIds n)).1
  | none => []

/-- What the constructor of `FunctionArgsHandler` creates. -/
def deqs : List Event := (functionArgs f.decl p.argsIds).1

/-- The constraints of the two handlers. -/
def queueConstraints : List (Constraint Inst) :=
  constrain .functionArgs f.firstInst p.deqs ++
    f.instrumented.flatMap fun n => constrain .callable n (p.calls n)

/-- The call that sizes the table of registers. -/
def prepRTable : Inst :=
  .created .localTable f.firstInst 0 (.prepRTable p.ids.getCount p.nested_depth)

/-- One `insertInstrumentation`: new constraints, then placement. -/
def round (st : List (Constraint Inst) × Code Inst) (new : List (Constraint Inst)) :
    Option (List (Constraint Inst) × Code Inst) :=
  (placeInsts p.placer (st.1 ++ new) st.2).map fun code => (st.1 ++ new, code)

/-- The four rounds of `CriticalPath::instrumentModule`. -/
def instrument : Option (Code Inst) := do
  let st ← ((p.queueConstraints ++ p.first) :: p.later).foldlM p.round ([], f.code)
  let entry ← st.2.head?
  let firstNonPHI ← entry.head?
  let st ← p.round st [(p.prepRTable, firstNonPHI)]
  some st.2

/-- A constraint of another handler places a log, in front of an instruction of
the function, a call of the two handlers or another log. -/
def IsLog (c : Constraint Inst) : Prop :=
  (∃ k, c.1 = .log k) ∧
    ((∃ k, c.2 = .log k) ∨ (∃ n, c.2 = .inst n ∧ c.2 ∈ f.code.flatten) ∨
      ∃ c' ∈ p.queueConstraints, c'.1 = c.2)

/-- What is known of the other handlers: ids are only added, the constraints place
logs and make no cycle. -/
structure Ok : Prop where
  args : (functionArgs f.decl p.argsIds).2.Extends p.ids
  call : ∀ n c, f.callable n = some c → (handle c (p.callIds n)).2.Extends p.ids
  logs : ∀ cs ∈ p.first :: p.later, ∀ c ∈ cs, p.IsLog c
  dag : ∃ rank : Inst → ℕ, (∀ c ∈ p.queueConstraints, rank c.2 < rank c.1) ∧
    ∀ cs ∈ p.first :: p.later, ∀ c ∈ cs, rank c.2 < rank c.1

/-! ## §4. The constraints of the two handlers. -/

/-- The calls of one of the two handlers at one instruction. -/
def callsOf (handler : Handler) (n : ℕ) : List Event :=
  match handler with
  | .functionArgs => if n = f.firstInst then p.deqs else []
  | .callable => if n ∈ f.instrumented then p.calls n else []
  | .localTable => []

/-- Every constraint belongs to a chain. -/
theorem mem_queueConstraints {c : Constraint Inst} :
    c ∈ p.queueConstraints ↔ ∃ handler n, c ∈ constrain handler n (p.callsOf handler n) := by
  rw [queueConstraints, List.mem_append, List.mem_flatMap]
  constructor
  · rintro (h | ⟨n, hn, h⟩)
    · exact ⟨.functionArgs, f.firstInst, by rw [callsOf, if_pos rfl]; exact h⟩
    · exact ⟨.callable, n, by rw [callsOf, if_pos hn]; exact h⟩
  · rintro ⟨handler, n, h⟩
    cases handler with
    | functionArgs =>
        rw [callsOf] at h
        split at h
        · next hn => exact .inl (hn ▸ h)
        · cases h
    | callable =>
        rw [callsOf] at h
        split at h
        · next hn => exact .inr ⟨n, hn, h⟩
        · cases h
    | localTable => cases h

/-- The instructions a reader of the argument calls looks at. -/
def marks : Marks Inst where
  fixed
    | .inst _ => true
    | .created .localTable _ _ _ => true
    | _ => false
  queued
    | .created .callable _ _ _ => true
    | .created .functionArgs _ _ _ => true
    | _ => false
  owner
    | .created .callable n _ _ => .inst n
    | .created .functionArgs n _ _ => .inst n
    | i => i
  fixed_owner i h := by
    cases i with
    | created handler n k e => cases handler <;> first | rfl | cases h
    | _ => rfl
  disjoint i h := by
    cases i with
    | created handler n k e => cases handler <;> first | rfl | cases h
    | _ => cases h

/-- The code of the program has no created instruction. -/
theorem base_code (f : Function) : marks.Base f.code := by
  constructor
  · intro i hi
    obtain ⟨-, -, n, -, rfl⟩ := f.mem_code.mp hi
    rfl
  · have hcode : f.code.flatten = (f.allBlocks.flatMap (·.insts)).map .inst := by
      rw [Function.code, List.map_flatMap, List.flatMap_def]
    rw [hcode]
    exact f.nodup.map fun a b h => Inst.inst.inj h

/-- The constraints after some rounds: those of the two handlers, and logs. -/
structure Admits (cs : List (Constraint Inst)) : Prop where
  queue : ∀ c ∈ p.queueConstraints, c ∈ cs
  only : ∀ c ∈ cs, c ∈ p.queueConstraints ∨ p.IsLog c

variable {p}

/-- What a constraint of the two handlers looks like. -/
theorem queueConstraint_cases {c : Constraint Inst} (h : c ∈ p.queueConstraints) :
    ∃ (handler : Handler) (n k : ℕ) (hk : k < (p.callsOf handler n).length),
      handler ≠ .localTable ∧
      c = (.created handler n k (p.callsOf handler n)[k],
        chainUser (.inst n) (chain handler n (p.callsOf handler n)) k) := by
  obtain ⟨handler, n, hc⟩ := p.mem_queueConstraints.mp h
  obtain ⟨k, hk, rfl⟩ := mem_constrain.mp hc
  refine ⟨handler, n, k, hk, ?_, rfl⟩
  rintro rfl
  exact absurd hk (Nat.not_lt_zero k)

/-- The user of a call of a chain. -/
theorem Admits.usersOf_created {cs : List (Constraint Inst)} (h : p.Admits cs) {handler : Handler}
    {n k : ℕ} (hk : k < (p.callsOf handler n).length) :
    usersOf cs (.created handler n k (p.callsOf handler n)[k])
      = [chainUser (.inst n) (chain handler n (p.callsOf handler n)) k] := by
  refine usersOf_eq_singleton
    (h.queue _ (p.mem_queueConstraints.mpr ⟨handler, n, mem_constrain.mpr ⟨k, hk, rfl⟩⟩)) ?_
  intro v hv
  rcases h.only _ hv with hq | hlog
  · obtain ⟨handler', n', k', hk', -, heq⟩ := queueConstraint_cases hq
    rw [Prod.mk.injEq, Inst.created.injEq] at heq
    obtain ⟨⟨rfl, rfl, rfl, -⟩, rfl⟩ := heq
    rfl
  · obtain ⟨⟨j, hj⟩, -⟩ := hlog
    cases hj

/-- An instruction of the program is placed before nothing. -/
theorem Admits.usersOf_inst {cs : List (Constraint Inst)} (h : p.Admits cs) (n : ℕ) :
    usersOf cs (.inst n) = [] := by
  rw [List.eq_nil_iff_forall_not_mem]
  intro v hv
  rcases h.only _ (mem_usersOf.mp hv) with hq | hlog
  · obtain ⟨handler, n', k, hk, -, heq⟩ := queueConstraint_cases hq
    rw [Prod.mk.injEq] at heq
    cases heq.1
  · obtain ⟨⟨j, hj⟩, -⟩ := hlog
    cases hj

/-- A call of a chain belongs to the instruction of the chain. -/
theorem marks_chain {handler : Handler} (hh : handler ≠ .localTable) {n : ℕ} {es : List Event}
    {i : Inst} (hi : i ∈ chain handler n es) :
    marks.queued i = true ∧ marks.owner i = .inst n := by
  obtain ⟨k, hk, rfl⟩ := mem_chain.mp hi
  cases handler with
  | localTable => exact absurd rfl hh
  | callable => exact ⟨rfl, rfl⟩
  | functionArgs => exact ⟨rfl, rfl⟩

/-- The user of a call is visible, and owned by the chain's instruction. -/
theorem marks_chainUser {handler : Handler} (hh : handler ≠ .localTable) {n k : ℕ}
    {es : List Event} (hk : k < es.length) :
    marks.visible (chainUser (.inst n) (chain handler n es) k) = true ∧
      marks.owner (chainUser (.inst n) (chain handler n es) k) = .inst n := by
  cases k with
  | zero => exact ⟨rfl, rfl⟩
  | succ k =>
      have hk' : k < (chain handler n es).length := by
        rw [length_chain]
        omega
      have huser : chainUser (.inst n) (chain handler n es) (k + 1) = (chain handler n es)[k] := by
        show ((chain handler n es)[k]?).getD _ = _
        rw [List.getElem?_eq_getElem hk', Option.getD_some]
      obtain ⟨hq, howner⟩ := marks_chain hh (List.getElem_mem hk')
      rw [huser]
      exact ⟨marks.visible_queued hq, howner⟩

/-- An instruction of the program that a constraint names is in the code. -/
theorem callsOf_mem_code {handler : Handler} {n : ℕ} (h : p.callsOf handler n ≠ []) :
    .inst n ∈ f.code.flatten := by
  cases handler with
  | functionArgs =>
      rw [callsOf] at h
      split at h
      · next hn => exact hn ▸ f.first_mem_code
      · exact absurd rfl h
  | callable =>
      rw [callsOf] at h
      split at h
      · next hn => exact f.instrumented_mem_code hn
      · exact absurd rfl h
  | localTable => exact absurd rfl h

theorem Admits.respects {cs : List (Constraint Inst)} (h : p.Admits cs) :
    marks.Respects f.code cs := by
  constructor
  · intro c hc i hi hfixed
    rcases h.only c hc with hq | ⟨⟨j, hj⟩, hlog⟩
    · obtain ⟨handler, n, k, hk, hh, rfl⟩ := queueConstraint_cases hq
      have hn : .inst n ∈ f.code.flatten :=
        callsOf_mem_code (List.ne_nil_of_length_pos (Nat.zero_lt_of_lt hk))
      rcases hi with rfl | rfl
      · cases handler with
        | localTable => exact absurd rfl hh
        | callable => cases hfixed
        | functionArgs => cases hfixed
      · cases k with
        | zero => exact hn
        | succ k =>
            have hk' : k < (chain handler n (p.callsOf handler n)).length := by
              rw [length_chain]
              omega
            have huser : chainUser (.inst n) (chain handler n (p.callsOf handler n)) (k + 1)
                = (chain handler n (p.callsOf handler n))[k] := by
              show (_[k]?).getD _ = _
              rw [List.getElem?_eq_getElem hk', Option.getD_some]
            have hd := marks.disjoint _ (marks_chain hh (List.getElem_mem hk')).1
            rw [huser, hd] at hfixed
            cases hfixed
    · rcases hi with rfl | rfl
      · rw [hj] at hfixed
        cases hfixed
      · -- the user of a logged call was placed, fixed or queued
        rcases hlog with ⟨j', hj'⟩ | ⟨n, hn, hmem⟩ | ⟨c', hc', heq⟩
        · rw [hj'] at hfixed
          cases hfixed
        · exact hmem
        · obtain ⟨handler, n, k, hk, hh, rfl⟩ := queueConstraint_cases hc'
          rw [← heq] at hfixed
          cases handler with
          | localTable => exact absurd rfl hh
          | callable => cases hfixed
          | functionArgs => cases hfixed
  · intro c hc hqueued
    rcases h.only c hc with hq | ⟨⟨j, hj⟩, -⟩
    · -- a queued call has one user, the next call of its chain
      -- a constraint of the queue: the call before it in the chain, or the instruction
      obtain ⟨handler, n, k, hk, hh, rfl⟩ := queueConstraint_cases hq
      obtain ⟨hv, howner⟩ := marks_chainUser (n := n) hh hk
      refine ⟨_, h.usersOf_created hk, hv, howner.trans ?_⟩
      have hmem : Inst.created handler n k (p.callsOf handler n)[k]
          ∈ chain handler n (p.callsOf handler n) := mem_chain.mpr ⟨k, hk, rfl⟩
      exact (marks_chain hh hmem).2.symm
    · rw [hj] at hqueued
      cases hqueued
  · intro c hc hqueued
    rcases h.only c hc with hq | ⟨-, hlog⟩
    · -- that user was queued as well, or is the instruction of the chain
      obtain ⟨handler, n, k, hk, hh, rfl⟩ := queueConstraint_cases hq
      cases k with
      | zero => cases hqueued
      | succ k =>
          have hk' : k < (p.callsOf handler n).length := by omega
          have huser : chainUser (.inst n) (chain handler n (p.callsOf handler n)) (k + 1)
              = .created handler n k (p.callsOf handler n)[k] := by
            show (_[k]?).getD _ = _
            rw [List.getElem?_eq_getElem (by rw [length_chain]; exact hk'), Option.getD_some,
              getElem_chain]
            rfl
          refine ⟨_, h.queue _ (p.mem_queueConstraints.mpr ⟨handler, n,
            mem_constrain.mpr ⟨k, hk', rfl⟩⟩), ?_⟩
          exact huser.symm
    · rcases hlog with ⟨j, hj⟩ | ⟨n, hn, -⟩ | ⟨c', hc', heq⟩
      · rw [hj] at hqueued
        cases hqueued
      · rw [hn] at hqueued
        cases hqueued
      · exact ⟨c', h.queue c' hc', heq⟩

/-- The calls of one handler at an instruction at which the other makes none. -/
theorem Admits.chain {cs : List (Constraint Inst)} (h : p.Admits cs) {handler : Handler} {n : ℕ}
    (hh : handler ≠ .localTable)
    (halone : ∀ handler', handler' ≠ handler → p.callsOf handler' n = []) :
    marks.Chain cs (.inst n) (Instrument.chain handler n (p.callsOf handler n)) := by
  refine ⟨nodup_chain _ _ _, fun i hi => marks_chain hh hi, rfl, ?_, fun k hk => ?_⟩
  · intro c hc i hi hqueued howner
    -- a queued call named by a constraint is the first component of one
    have hfirst : ∃ c' ∈ p.queueConstraints, c'.1 = i := by
      have hc' : ∃ c' ∈ cs, c'.1 = i := by
        rcases hi with rfl | rfl
        · exact ⟨c, hc, rfl⟩
        · exact h.respects.queued c hc hqueued
      obtain ⟨c', hc', rfl⟩ := hc'
      rcases h.only c' hc' with hq | ⟨⟨j, hj⟩, -⟩
      · exact ⟨c', hq, rfl⟩
      · rw [hj] at hqueued
        cases hqueued
    obtain ⟨c', hc', rfl⟩ := hfirst
    obtain ⟨handler', n', k, hk, hh', rfl⟩ := queueConstraint_cases hc'
    have hmem : Inst.created handler' n' k (p.callsOf handler' n')[k]
        ∈ Instrument.chain handler' n' (p.callsOf handler' n') := mem_chain.mpr ⟨k, hk, rfl⟩
    have hn : n' = n := by
      have := (marks_chain hh' hmem).2.symm.trans howner
      exact Inst.inst.inj this
    subst hn
    by_cases heq : handler' = handler
    · exact heq ▸ hmem
    · rw [halone handler' heq] at hk
      exact absurd hk (Nat.not_lt_zero k)
  · rw [getElem_chain]
    exact h.usersOf_created (by simpa using hk)

/-! ## §5. The rounds. -/

/-- After some rounds: the constraints, the code as the reader sees it, and the
calls of one handler at one instruction in reverse order. -/
structure Done (p : Pass f) (handler : Handler) (n : ℕ)
    (st : List (Constraint Inst) × Code Inst) : Prop where
  admits : p.Admits st.1
  placed : ∃ seg, marks.Placed f.code st.2 seg ∧
    seg (.inst n) = (Instrument.chain handler n (p.callsOf handler n)).reverse
  ranked : ∃ rank : Inst → ℕ, (∀ c ∈ st.1, rank c.2 < rank c.1) ∧
    ∀ cs ∈ p.first :: p.later, ∀ c ∈ cs, rank c.2 < rank c.1
  all : f.code.flatten ⊆ st.2.flatten ∧ ∀ d ∈ nodes p.placer st.1, d ∈ st.2.flatten

/-- A round adds its constraints and places them all. -/
theorem round_eq_some {st st' : List (Constraint Inst) × Code Inst} {new : List (Constraint Inst)}
    (h : p.round st new = some st') :
    st'.1 = st.1 ++ new ∧ placeInsts p.placer (st.1 ++ new) st.2 = some st'.2 := by
  obtain ⟨code, hplace, rfl⟩ := Option.map_eq_some_iff.mp h
  exact ⟨rfl, hplace⟩

/-- The first round. -/
theorem done_first (hok : p.Ok) {handler : Handler} (hh : handler ≠ .localTable) {n : ℕ}
    (halone : ∀ handler', handler' ≠ handler → p.callsOf handler' n = [])
    {st : List (Constraint Inst) × Code Inst}
    (h : p.round ([], f.code) (p.queueConstraints ++ p.first) = some st) :
    p.Done handler n st := by
  obtain ⟨hcs, hplace⟩ := round_eq_some h
  rw [List.nil_append] at hcs hplace
  have hadmits : p.Admits (p.queueConstraints ++ p.first) := by
    refine ⟨fun c hc => List.mem_append_left _ hc, fun c hc => ?_⟩
    exact (List.mem_append.mp hc).imp id fun hc => hok.logs _ (List.mem_cons_self ..) c hc
  obtain ⟨rank, hqueue, hlogs⟩ := hok.dag
  have hrank : ∀ c ∈ p.queueConstraints ++ p.first, rank c.2 < rank c.1 := fun c hc =>
    (List.mem_append.mp hc).elim (hqueue c) (hlogs _ (List.mem_cons_self ..) c)
  obtain ⟨seg, hplaced, hseg⟩ := Marks.chain_placed (base_code f) hadmits.respects
    (hadmits.chain hh halone) (hadmits.usersOf_inst n) (Marks.placed_base (base_code f))
    ⟨0, by rw [List.take_zero, List.reverse_nil]⟩ hplace
  refine ⟨hcs ▸ hadmits, ⟨seg, hplaced, hseg⟩, ⟨rank, hcs ▸ hrank, hlogs⟩, ?_⟩
  rw [hcs]
  exact placeInsts_all hrank hplace

/-- A later round. -/
theorem Done.round {handler : Handler} (hok : p.Ok) (hh : handler ≠ .localTable) {n : ℕ}
    (halone : ∀ handler', handler' ≠ handler → p.callsOf handler' n = [])
    {st st' : List (Constraint Inst) × Code Inst} (hdone : p.Done handler n st)
    {new : List (Constraint Inst)} (hnew : new ∈ p.first :: p.later)
    (h : p.round st new = some st') : p.Done handler n st' := by
  obtain ⟨hcs, hplace⟩ := round_eq_some h
  have hadmits : p.Admits (st.1 ++ new) := by
    refine ⟨fun c hc => List.mem_append_left _ (hdone.admits.queue c hc), fun c hc => ?_⟩
    rcases List.mem_append.mp hc with hc | hc
    · exact hdone.admits.only c hc
    · exact .inr (hok.logs new hnew c hc)
  obtain ⟨rank, hold, hlogs⟩ := hdone.ranked
  have hrank : ∀ c ∈ st.1 ++ new, rank c.2 < rank c.1 := fun c hc =>
    (List.mem_append.mp hc).elim (hold c) (hlogs new hnew c)
  obtain ⟨seg, hplaced, hseg⟩ := hdone.placed
  obtain ⟨seg', hplaced', hseg'⟩ := Marks.chain_placed (base_code f) hadmits.respects
    (hadmits.chain hh halone) (hadmits.usersOf_inst n) hplaced
    ⟨_, by rw [hseg, List.take_of_length_le (Nat.le_refl _)]⟩ hplace
  obtain ⟨hsub, hall⟩ := placeInsts_all hrank hplace
  refine ⟨hcs ▸ hadmits, ⟨seg', hplaced', hseg'⟩, ⟨rank, hcs ▸ hrank, hlogs⟩, ?_⟩
  rw [hcs]
  exact ⟨List.Subset.trans hdone.all.1 hsub, hall⟩

/-- **What `instrument` leaves**: the code of the rounds, with `_KPrepRTable` in
front of the entry block. -/
theorem instrument_spec (hok : p.Ok) {handler : Handler} (hh : handler ≠ .localTable) {n : ℕ}
    (halone : ∀ handler', handler' ≠ handler → p.callsOf handler' n = []) {code : Code Inst}
    (h : p.instrument = some code) :
    ∃ cs entry rest, p.Done handler n (cs, entry :: rest) ∧
      code = (p.prepRTable :: entry) :: rest := by
  unfold instrument at h
  simp only [Option.bind_eq_bind, Option.bind_eq_some_iff, Option.some.injEq,
    List.foldlM_cons] at h
  obtain ⟨st, ⟨st₁, hfirst, hlater⟩, entry, hentry, i, hi, st', hround, rfl⟩ := h
  have hrun : ∀ (rounds : List (List (Constraint Inst)))
      (st₁ : List (Constraint Inst) × Code Inst), (∀ new ∈ rounds, new ∈ p.first :: p.later) →
      p.Done handler n st₁ → rounds.foldlM p.round st₁ = some st → p.Done handler n st := by
    intro rounds
    induction rounds with
    | nil =>
        intro st₁ _ hdone hlater
        cases hlater
        exact hdone
    | cons new rounds ih =>
        intro st₁ hin hdone hlater
        rw [List.foldlM_cons] at hlater
        obtain ⟨st₂, hone, hlater⟩ := Option.bind_eq_some_iff.mp hlater
        exact ih st₂ (fun new' hnew => hin new' (List.mem_cons_of_mem _ hnew))
          (hdone.round hok hh halone (hin new (List.mem_cons_self ..)) hone) hlater
  have hdone := hrun p.later st₁ (fun new hnew => List.mem_cons_of_mem _ hnew)
    (done_first hok hh halone hfirst) hlater
  obtain ⟨cs, code⟩ := st
  cases code with
  | nil => cases hentry
  | cons entry' rest =>
      rw [List.head?_cons, Option.some.injEq] at hentry
      subst hentry
      cases entry' with
      | nil => cases hi
      | cons i' tail =>
          rw [List.head?_cons, Option.some.injEq] at hi
          subst hi
          refine ⟨cs, i' :: tail, rest, hdone, ?_⟩
          obtain ⟨-, hplace⟩ := round_eq_some hround
          obtain ⟨rank, hrank, -⟩ := hdone.ranked
          have hfresh : ∀ c ∈ cs, c.1 ≠ p.prepRTable ∧ c.2 ≠ p.prepRTable := by
            intro c hc
            have hfixed : marks.fixed p.prepRTable = true := rfl
            have hnot : p.prepRTable ∉ f.code.flatten := by
              intro hmem
              obtain ⟨-, -, n, -, heq⟩ := f.mem_code.mp hmem
              cases heq
            constructor <;> intro heq
            · exact hnot (hdone.admits.respects.placed c hc _ (.inl heq) hfixed)
            · exact hnot (hdone.admits.respects.placed c hc _ (.inr heq) hfixed)
          have hnotin : p.prepRTable ∉ ((i' :: tail) :: rest).flatten := by
            intro hmem
            obtain ⟨seg, hplaced, -⟩ := hdone.placed
            obtain ⟨bb, hbb, hi⟩ := List.mem_flatten.mp hmem
            obtain ⟨b, hb⟩ := List.mem_iff_getElem?.mp hbb
            obtain ⟨bs, hbs, -, hobs, -⟩ := hplaced.block (base_code f) hb hi
              (marks.visible_fixed rfl)
            obtain ⟨-, -, n, -, heq⟩ := f.mem_code.mp
              (List.mem_flatten.mpr ⟨bs, List.mem_of_getElem? hbs, hobs⟩)
            cases heq
          -- the rank of `_KPrepRTable` is above that of the first instruction
          refine placeInsts_front (Function.update rank p.prepRTable (rank i' + 1))
            (fun c hc => ?_) hnotin (fun d hd => ?_) ?_ hplace
          · rcases List.mem_append.mp hc with hc | hc
            · rw [Function.update_of_ne (hfresh c hc).1, Function.update_of_ne (hfresh c hc).2]
              exact hrank c hc
            · rw [List.mem_singleton] at hc
              subst hc
              have hne : i' ≠ p.prepRTable := by
                rintro rfl
                exact hnotin (by simp)
              rw [Function.update_self, Function.update_of_ne hne]
              exact Nat.lt_succ_self _
          · obtain ⟨c, hc, hcd⟩ := mem_nodes.mp hd
            rcases List.mem_append.mp hc with hc | hc
            · exact .inr (hdone.all.2 d (mem_nodes.mpr ⟨c, hc, hcd⟩))
            · rw [List.mem_singleton] at hc
              subst hc
              rcases hcd with rfl | rfl
              · exact .inl rfl
              · exact .inr (by simp)
          · refine usersOf_eq_singleton (by simp) fun v hv => ?_
            rcases List.mem_append.mp hv with hv | hv
            · exact absurd rfl (hfresh _ hv).1
            · rw [List.mem_singleton, Prod.mk.injEq] at hv
              exact hv.2

/-! ## §6. The calls as they are executed. -/

/-- **In front of a call**, back to the instruction of the program before it or to
`_KPrepRTable`, stand what `handle` created for it, the last first, and logs. -/
theorem before_call (hok : p.Ok) {code : Code Inst} (h : p.instrument = some code) {n : ℕ}
    (hn : n ∈ f.instrumented) (hfirst : n = f.firstInst → p.deqs = []) :
    ∃ bb ∈ code, .inst n ∈ bb ∧ (stretch marks.fixed (.inst n) bb).filter marks.visible
      = (Instrument.chain .callable n (p.calls n)).reverse := by
  -- nothing else is queued in front of this instruction
  have halone : ∀ handler', handler' ≠ .callable → p.callsOf handler' n = [] := by
    intro handler' hne
    cases handler' with
    | callable => exact absurd rfl hne
    | localTable => rfl
    | functionArgs =>
        rw [callsOf]
        split
        · next heq => exact hfirst heq
        · rfl
  obtain ⟨cs, entry, rest, hdone, rfl⟩ :=
    instrument_spec hok (by exact Handler.noConfusion) halone h
  obtain ⟨seg, hplaced, hseg⟩ := hdone.placed
  rw [callsOf, if_pos hn] at hseg
  obtain ⟨bb, hbb, hmem⟩ := hplaced.mem_code (f.instrumented_mem_code hn) (.inr rfl)
  have hstretch : ∀ bb ∈ entry :: rest, .inst n ∈ bb →
      (stretch marks.fixed (.inst n) bb).filter marks.visible
        = (Instrument.chain .callable n (p.calls n)).reverse := by
    intro bb hbb hmem
    obtain ⟨b, hb⟩ := List.mem_iff_getElem?.mp hbb
    obtain ⟨bs, hbs, hfilter, hobs, -⟩ := hplaced.block (base_code f) hb hmem
      (marks.visible_fixed rfl)
    have hbsmem := List.mem_of_getElem? hbs
    have hobs : Inst.inst n ∈ bs := hobs
    rw [filter_stretch (fun a ha => marks.visible_fixed ha) (marks.visible_fixed rfl), hfilter,
      stretch_expand (fun o ho => (base_code f).fixed o (List.mem_flatten.mpr ⟨bs, hbsmem, ho⟩))
        (fun o y hy => marks.disjoint y (hplaced.owned o y hy).1)
        ((List.sublist_flatten_of_mem hbsmem).nodup (base_code f).nodup) hobs]
    exact hseg
  rcases List.mem_cons.mp hbb with rfl | hbb'
  · -- the call that sizes the table is in front of the entry block
    refine ⟨p.prepRTable :: bb, List.mem_cons_self .., List.mem_cons_of_mem _ hmem, ?_⟩
    rw [stretch_cons_fixed rfl (by exact Inst.noConfusion)]
    exact hstretch bb hbb hmem
  · exact ⟨bb, List.mem_cons_of_mem _ hbb', hmem, hstretch bb hbb hmem⟩

/-- **At the start of a function** stand `_KPrepRTable`, what the constructor of
`FunctionArgsHandler` created, the last first, and logs. -/
theorem at_entry (hok : p.Ok) {code : Code Inst} (h : p.instrument = some code)
    (hfirst : f.firstInst ∈ f.instrumented → p.calls f.firstInst = []) :
    ∃ entry rest, code = (p.prepRTable :: entry) :: rest ∧ .inst f.firstInst ∈ entry ∧
      (entry.takeWhile (· ≠ .inst f.firstInst)).filter marks.visible
        = (Instrument.chain .functionArgs f.firstInst p.deqs).reverse := by
  have halone : ∀ handler', handler' ≠ .functionArgs → p.callsOf handler' f.firstInst = [] := by
    intro handler' hne
    cases handler' with
    | functionArgs => exact absurd rfl hne
    | localTable => rfl
    | callable =>
        rw [callsOf]
        split
        · next hin => exact hfirst hin
        · rfl
  obtain ⟨cs, entry, rest, hdone, rfl⟩ :=
    instrument_spec hok (by exact Handler.noConfusion) halone h
  obtain ⟨seg, hplaced, hseg⟩ := hdone.placed
  rw [callsOf, if_pos rfl] at hseg
  have hshown := hplaced.shown
  -- the entry block begins with the first instruction
  obtain ⟨ns, hns⟩ : ∃ ns, f.entry.insts = f.firstInst :: ns :=
    List.head?_eq_some_iff.mp f.first_mem
  rw [List.map_cons, Function.code, Function.allBlocks, List.map_cons, List.map_cons, hns,
    List.map_cons, List.cons.injEq, expand_cons] at hshown
  have hmem : Inst.inst f.firstInst ∈ entry := by
    have hin : Inst.inst f.firstInst ∈ entry.filter marks.visible := by
      rw [hshown.1]
      simp
    exact (List.mem_filter.mp hin).1
  refine ⟨entry, rest, rfl, hmem, ?_⟩
  have hne : ∀ a, marks.visible a = false → decide (a ≠ Inst.inst f.firstInst) = true := by
    intro a ha
    apply decide_eq_true
    rintro rfl
    cases ha
  have hfree : ∀ y ∈ seg (.inst f.firstInst), decide (y ≠ Inst.inst f.firstInst) = true := by
    intro y hy
    apply decide_eq_true
    rintro rfl
    have hq := (hplaced.owned _ _ hy).1
    cases hq
  rw [filter_takeWhile hne, hshown.1, List.takeWhile_append_of_pos hfree, List.takeWhile_cons,
    if_neg (by simp), List.append_nil, hseg]

end Pass

end Kremlin.Instrument
