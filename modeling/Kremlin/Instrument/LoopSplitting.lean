/-
  Kremlin.Instrument.LoopSplitting — instrumenting all loops keeps the values.

  The loops of a function are natural and nested or disjoint; the pass takes them
  from the outside in.  Each use of edge redirection then finds the edges that it
  needs, since the uses for other loops leave the edges within a loop alone.

  Main result:
    * `instrumentLoops_preserves` — every use splits edges of a well-formed graph.
-/
import Kremlin.Instrument.PromotePhis
import Kremlin.Library.DepthFirst
import Kremlin.Library.Run
import Mathlib.Algebra.Ring.Nat

namespace Kremlin.Instrument.RegionInstrument

open Kremlin.Library Kremlin.Library.Ssa Relation

variable {X V M : Type}

/-! ## §1. Functions and their loops. -/

/-- A name of the program. -/
def IsOrig : Name X → Prop
  | .orig _ => True
  | .promoted _ _ => False

instance : ∀ x : Name X, Decidable (IsOrig x)
  | .orig _ => .isTrue trivial
  | .promoted _ _ => .isFalse id

/-- A name of the program is one whatever blocks are added. -/
theorem IsOrig.within {x : Name X} (h : IsOrig x) (n : ℕ) : x.Within n := by
  cases x with
  | orig x => trivial
  | promoted phi block => cases h

/-- The operand is a constant or a name of the program. -/
def Value.IsOrig : Value X V → Prop
  | .const _ => True
  | .name x => RegionInstrument.IsOrig x

instance : ∀ v : Value X V, Decidable (Value.IsOrig v)
  | .const _ => .isTrue trivial
  | .name x => inferInstanceAs (Decidable (RegionInstrument.IsOrig x))

/-- So is a value of the program. -/
theorem Value.IsOrig.within {v : Value X V} (h : Value.IsOrig v) (n : ℕ) : v.Within n := by
  cases v with
  | const v => trivial
  | name x => exact RegionInstrument.IsOrig.within h n

/-- What the verifier demands of a function before the pass: edges go to blocks of
the function, and a phi has one entry for each incoming edge, the same for edges
from one block. -/
structure Function.Verified (F : Function X V M) : Prop where
  succ_lt : ∀ p < F.count, ∀ b ∈ F.successors p, b < F.count
  entries : ∀ b < F.count, ∀ phi ∈ (F.block b).phis, ∀ p,
    phi.incoming.countP (fun e => decide (e.2 = p)) =
      if p < F.count then (F.successors p).count b else 0
  same : ∀ b < F.count, ∀ phi ∈ (F.block b).phis, ∀ e ∈ phi.incoming, ∀ e' ∈ phi.incoming,
    e.2 = e'.2 → e.1 = e'.1
  nodup : ∀ b < F.count, ((F.block b).phis.map Phi.name).Nodup
  phi_names : ∀ b < F.count, ∀ phi ∈ (F.block b).phis, IsOrig phi.name ∧
    ∀ e ∈ phi.incoming, Value.IsOrig e.1
  operands : ∀ b < F.count, ∀ inst ∈ (F.block b).insts, ∀ v ∈ inst.operands, Value.IsOrig v

/-- An edge within a loop. -/
def InLoop (F : Function X V M) (loop : Loop) (p b : ℕ) : Prop :=
  p ∈ loop.blocks ∧ b ∈ loop.blocks ∧ b ∈ F.successors p

/-- A natural loop: it is entered at its header only, and each of its blocks lies on
a cycle through the header. -/
structure NaturalLoop (F : Function X V M) (loop : Loop) : Prop where
  header_mem : loop.header ∈ loop.blocks
  lt : ∀ b ∈ loop.blocks, b < F.count
  single_entry : ∀ p < F.count, p ∉ loop.blocks → ∀ b ∈ F.successors p, b ∈ loop.blocks →
    b = loop.header
  cycle : ∀ b ∈ loop.blocks, ReflTransGen (InLoop F loop) loop.header b ∧
    TransGen (InLoop F loop) b loop.header
  reachable : ReflTransGen (Next F.successors) F.entryBlock loop.header

/-- The loops of a function from the outside in, as `harvestLoops` lists them. -/
structure LoopForest (F : Function X V M) (loops : List LoopRegions) : Prop where
  entry_lt : F.entryBlock < F.count
  no_preds : ∀ p < F.count, F.entryBlock ∉ F.successors p
  natural : ∀ loop ∈ loops, NaturalLoop F loop.toLoop
  nested : loops.Pairwise fun outer inner => outer.header ≠ inner.header ∧
    ((∀ b ∈ inner.blocks, b ∈ outer.blocks) ∨ ∀ b ∈ inner.blocks, b ∉ outer.blocks)

/-- The pass redirects the edges of branches, switches and invokes only. -/
def Function.NoIndirectBr (F : Function X V M) : Prop :=
  ∀ b < F.count, ∀ dests, (F.block b).terminator ≠ .indirectBr dests

section Verified

variable [DecidableEq X]

/-- An instruction gives states that agree where it reads. -/
theorem exec_agrees {n : ℕ} {st st' : State X V M} (h : Agrees n st st')
    (inst : Instruction X V M) (hinst : ∀ v ∈ inst.operands, Value.IsOrig v) :
    Agrees n (inst.exec st) (inst.exec st') := by
  have hupdate : ∀ (name : Name X) (result : V × M), Agrees n
      (⟨Function.update st.regs name result.1, result.2⟩ : State X V M)
      ⟨Function.update st'.regs name result.1, result.2⟩ := by
    intro name result
    refine ⟨fun x hx => ?_, rfl⟩
    show Function.update st.regs name result.1 x = Function.update st'.regs name result.1 x
    by_cases heq : x = name
    · rw [heq, Function.update_self, Function.update_self]
    · rw [Function.update_of_ne heq, Function.update_of_ne heq]
      exact h.regs x hx
  cases inst with
  | op name operands compute =>
      have hargs : operands.map (Value.eval st) = operands.map (Value.eval st') :=
        List.map_congr_left fun v hv => h.eval ((hinst v hv).within n)
      have hupdated := hupdate name (compute (operands.map (Value.eval st)) st.mem)
      refine hupdated.trans ?_
      rw [hargs, h.mem]
      exact Agrees.refl n _
  | landingpad name compute =>
      have hupdated := hupdate name (compute st.mem)
      refine hupdated.trans ?_
      rw [h.mem]
      exact Agrees.refl n _
  | call func id type => exact h

/-- Instructions of the program read and write names of the program only. -/
theorem runInsts_agrees {n : ℕ} {insts : List (Instruction X V M)}
    (hinsts : ∀ inst ∈ insts, ∀ v ∈ inst.operands, Value.IsOrig v) {st st' : State X V M}
    (h : Agrees n st st') : Agrees n (runInsts insts st) (runInsts insts st') := by
  induction insts generalizing st st' with
  | nil => exact h
  | cons inst insts ih =>
      exact ih (fun inst' hinst' => hinsts inst' (List.mem_cons_of_mem _ hinst'))
        (exec_agrees h inst (hinsts inst List.mem_cons_self))

/-- A verified function has a well-formed graph. -/
theorem Function.Verified.graph {F : Function X V M} (h : F.Verified) : F.graph.WellFormed where
  succ_lt := h.succ_lt
  entries := h.entries
  same := h.same
  nodup := h.nodup
  within b hb phi hphi := by
    obtain ⟨hname, hincoming⟩ := h.phi_names b hb phi hphi
    exact ⟨hname.within _, fun e he => (hincoming e he).within _⟩
  body b hb _ _ _ _ hst := runInsts_agrees (h.operands b hb) hst

end Verified

/-! ## §2. The edges of a loop. -/

section Loops

variable {F : Function X V M} {loop : Loop}

/-- The entry is in no loop. -/
theorem NaturalLoop.entry_notMem (h : NaturalLoop F loop)
    (hno : ∀ p < F.count, F.entryBlock ∉ F.successors p) : F.entryBlock ∉ loop.blocks := by
  intro hin
  obtain ⟨hto, hback⟩ := h.cycle _ hin
  obtain ⟨p, -, hp⟩ := TransGen.tail'_iff.mp (TransGen.trans_left hback hto)
  exact hno p (h.lt p hp.1) hp.2.2

/-- A loop is entered from outside. -/
theorem NaturalLoop.exists_entry (h : NaturalLoop F loop)
    (hlt : ∀ p < F.count, ∀ b ∈ F.successors p, b < F.count) (hentry : F.entryBlock < F.count)
    (hno : ∀ p < F.count, F.entryBlock ∉ F.successors p) :
    ∃ p < F.count, p ∉ loop.blocks ∧ loop.header ∈ F.successors p := by
  have hpath : ∀ b, ReflTransGen (Next F.successors) F.entryBlock b → b < F.count ∧
      (b ∈ loop.blocks → ∃ p < F.count, p ∉ loop.blocks ∧ loop.header ∈ F.successors p) := by
    intro b hb
    induction hb with
    | refl => exact ⟨hentry, fun hin => absurd hin (h.entry_notMem hno)⟩
    | @tail p b _ hedge ih =>
        refine ⟨hlt p ih.1 b hedge, fun hin => ?_⟩
        by_cases hp : p ∈ loop.blocks
        · exact ih.2 hp
        · exact ⟨p, ih.1, hp, h.single_entry p ih.1 hp b hedge hin ▸ hedge⟩
  exact (hpath _ h.reachable).2 h.header_mem

/-- The header has a successor in the loop. -/
theorem NaturalLoop.exists_succ (h : NaturalLoop F loop) :
    ∃ b, InLoop F loop loop.header b := by
  obtain ⟨b, hb, -⟩ := TransGen.head'_iff.mp (h.cycle _ h.header_mem).2
  exact ⟨b, hb⟩

/-- The header has a predecessor in the loop. -/
theorem NaturalLoop.exists_latch (h : NaturalLoop F loop) :
    ∃ p, InLoop F loop p loop.header := by
  obtain ⟨p, -, hp⟩ := TransGen.tail'_iff.mp (h.cycle _ h.header_mem).2
  exact ⟨p, hp⟩

/-- The header of another loop that is not within this one is no block of it. -/
theorem NaturalLoop.header_notMem {outer : Loop} (h : NaturalLoop F loop)
    (houter : NaturalLoop F outer) (hne : outer.header ≠ loop.header)
    (hnested : (∀ b ∈ loop.blocks, b ∈ outer.blocks) ∨ ∀ b ∈ loop.blocks, b ∉ outer.blocks)
    (hlt : ∀ p < F.count, ∀ b ∈ F.successors p, b < F.count) (hentry : F.entryBlock < F.count)
    (hno : ∀ p < F.count, F.entryBlock ∉ F.successors p) : outer.header ∉ loop.blocks := by
  intro hin
  rcases hnested with hsub | hdisjoint
  · -- the edge that enters the outer loop would enter this one
    obtain ⟨p, hp, hout, hedge⟩ := houter.exists_entry hlt hentry hno
    exact hne (h.single_entry p hp (fun hp' => hout (hsub p hp')) _ hedge hin)
  · exact hdisjoint _ hin houter.header_mem

/-- The edges that the pass needs for a loop are there. -/
structure Intact (F : Function X V M) (loop : Loop) (G : Graph X V M) : Prop where
  count_le : F.count ≤ G.count
  stays : ∀ p b, InLoop F loop p b → b ∈ G.succ p
  entered : ∃ p < G.count, p ∉ loop.blocks ∧ loop.header ∈ G.succ p

/-- **Splitting edges elsewhere** leaves them there. -/
theorem Intact.split {G : Graph X V M} (h : Intact F loop G) (hwf : G.WellFormed)
    (hlt : ∀ b ∈ loop.blocks, b < F.count) {old : ℕ} {moved : ℕ → Bool}
    (hmoved : old ∈ loop.blocks → ∀ p ∈ loop.blocks, moved p = false) :
    Intact F loop (G.split old moved) where
  count_le := Nat.le_succ_of_le h.count_le
  stays p b hedge := by
    have hp : p < G.count := Nat.lt_of_lt_of_le (hlt p hedge.1) h.count_le
    refine (hwf.mem_split_succ hp).mpr (.inr ⟨h.stays p b hedge, fun hboth => ?_⟩)
    have hstay := hmoved (hboth.1 ▸ hedge.2.1) p hedge.1
    rw [hboth.2] at hstay
    cases hstay
  entered := by
    obtain ⟨p, hp, hout, hedge⟩ := h.entered
    by_cases hboth : loop.header = old ∧ moved p = true
    · -- the new block stands on the edge that enters the loop
      refine ⟨G.count, Nat.lt_succ_self _, fun hin => ?_, ?_⟩
      · exact Nat.not_lt_of_le h.count_le (hlt _ hin)
      · rw [split_succ_new, hboth.1]
        exact List.mem_singleton_self old
    · exact ⟨p, Nat.lt_succ_of_lt hp, hout, (hwf.mem_split_succ hp).mpr (.inr ⟨hedge, hboth⟩)⟩

end Loops

/-! ## §3. Steps of the pass. -/

section Steps

variable [DecidableEq X]

/-- A use of edge redirection splits edges: those from some blocks to `old`. -/
structure Splits (F F' : Function X V M) (old : ℕ) (moved : ℕ → Bool) : Prop where
  edge : ∃ p < F.count, moved p = true ∧ old ∈ F.successors p
  graph : F'.graph = F.graph.split old moved
  branches : F.NoIndirectBr → F'.NoIndirectBr

/-- What the pass does for a loop: it inserts or moves calls, or it splits edges to
the header or out of the loop. -/
inductive Step (loop : Loop) (r : Rewriting X V M) : Rewriting X V M → Prop
  | calls (func : Function X V M) (hgraph : func.graph = r.func.graph)
      (hbranches : r.func.NoIndirectBr → func.NoIndirectBr) : Step loop r ⟨func, r.uses⟩
  | use (func : Function X V M) (old : ℕ) (moved : ℕ → Bool)
      (hsplits : Splits r.func func old moved)
      (hloop : old = loop.header ∨ old ∉ loop.blocks ∧ ∀ p, moved p = true → p ∈ loop.blocks) :
      Step loop r (r.use func)

/-- The rewriting of one loop, step by step. -/
abbrev Steps (loop : Loop) : Rewriting X V M → Rewriting X V M → Prop :=
  ReflTransGen (Step loop)

variable {loop : Loop} {r r' : Rewriting X V M}

/-- The block that is split off exists. -/
theorem Splits.old_lt {F F' : Function X V M} {old : ℕ} {moved : ℕ → Bool}
    (h : Splits F F' old moved) (hwf : F.graph.WellFormed) : old < F.count := by
  obtain ⟨p, hp, -, hedge⟩ := h.edge
  exact hwf.succ_lt p hp old hedge

/-- No step makes an indirect branch. -/
theorem Step.branches (h : Step loop r r') : r.func.NoIndirectBr → r'.func.NoIndirectBr := by
  cases h with
  | calls func hgraph hbranches => exact hbranches
  | use func old moved hsplits hloop => exact hsplits.branches

/-- Every step keeps the graph well formed. -/
theorem Step.wellFormed (h : Step loop r r') (hwf : r.func.graph.WellFormed) :
    r'.func.graph.WellFormed := by
  cases h with
  | calls func hgraph hbranches => exact hgraph ▸ hwf
  | use func old moved hsplits hloop =>
      show func.graph.WellFormed
      rw [hsplits.graph]
      exact hwf.split (hsplits.old_lt hwf)

/-- Each use so far has split edges of a well-formed graph, and the values are as
they were in the beginning. -/
structure Sound (F : Function X V M) (r : Rewriting X V M) : Prop where
  wellFormed : r.func.graph.WellFormed
  preserves : Preserves F.graph r.func.graph
  uses : ∀ use ∈ r.uses, use.1.graph.WellFormed ∧ use.2.graph.WellFormed ∧
    ∃ old moved, Splits use.1 use.2 old moved

/-- Every step keeps what was computed. -/
theorem Step.sound {F : Function X V M} (h : Step loop r r') (hsound : Sound F r) :
    Sound F r' := by
  have hwf := h.wellFormed hsound.wellFormed
  cases h with
  | calls func hgraph hbranches => exact ⟨hwf, hgraph ▸ hsound.preserves, hsound.uses⟩
  | use func old moved hsplits hloop =>
      refine ⟨hwf, ?_, ?_⟩
      · show Preserves F.graph func.graph
        rw [hsplits.graph]
        exact hsound.preserves.trans
          (hsound.wellFormed.split_preserves (hsplits.old_lt hsound.wellFormed))
      · intro use hmem
        rcases List.mem_append.mp hmem with hmem | hmem
        · exact hsound.uses use hmem
        · rw [List.mem_singleton.mp hmem]
          exact ⟨hsound.wellFormed, hwf, old, moved, hsplits⟩

/-- The steps for a loop leave the edges for a loop within it, or apart from it. -/
theorem Step.intact {F : Function X V M} {inner : Loop} (h : Step loop r r')
    (hinner : NaturalLoop F inner) (hwf : r.func.graph.WellFormed)
    (hheader : loop.header ∉ inner.blocks)
    (hnested : (∀ b ∈ inner.blocks, b ∈ loop.blocks) ∨ ∀ b ∈ inner.blocks, b ∉ loop.blocks)
    (hintact : Intact F inner r.func.graph) : Intact F inner r'.func.graph := by
  cases h with
  | calls func hgraph hbranches => exact hgraph ▸ hintact
  | use func old moved hsplits hloop =>
      show Intact F inner func.graph
      rw [hsplits.graph]
      refine hintact.split hwf hinner.lt fun hold p hp => ?_
      rcases hloop with rfl | ⟨hout, hmoved⟩
      · exact absurd hold hheader
      · rcases hnested with hsub | hdisjoint
        · exact absurd (hsub old hold) hout
        · exact Bool.eq_false_iff.mpr fun hm => hdisjoint p hp (hmoved p hm)

/-- So does the rewriting of a loop. -/
theorem Steps.sound {F : Function X V M} (h : Steps loop r r') (hsound : Sound F r) :
    Sound F r' := by
  induction h with
  | refl => exact hsound
  | tail _ hstep ih => exact hstep.sound ih

/-- It makes no indirect branch either. -/
theorem Steps.branches (h : Steps loop r r') : r.func.NoIndirectBr → r'.func.NoIndirectBr := by
  induction h with
  | refl => exact id
  | tail _ hstep ih => exact fun hno => hstep.branches (ih hno)

/-- The rewriting of a loop leaves the edges within another one alone. -/
theorem Steps.intact {F : Function X V M} {inner : Loop} (h : Steps loop r r')
    (hinner : NaturalLoop F inner) (hsound : Sound F r) (hheader : loop.header ∉ inner.blocks)
    (hnested : (∀ b ∈ inner.blocks, b ∈ loop.blocks) ∨ ∀ b ∈ inner.blocks, b ∉ loop.blocks)
    (hintact : Intact F inner r.func.graph) : Intact F inner r'.func.graph := by
  induction h with
  | refl => exact hintact
  | tail hsteps hstep ih =>
      exact hstep.intact hinner (Steps.sound hsteps hsound).wellFormed hheader hnested ih

/-! ## §4. Calls. -/

/-- Only calls are changed. -/
structure CallsOnly (f : BasicBlock X V M → BasicBlock X V M) : Prop where
  phis : ∀ bb, (f bb).phis = bb.phis
  terminator : ∀ bb, (f bb).terminator = bb.terminator
  ops : ∀ bb, ops (f bb).insts = ops bb.insts

omit [DecidableEq X] in
/-- A block is changed into one without an indirect branch. -/
theorem NoIndirectBr.modifyBlock {F : Function X V M} (h : F.NoIndirectBr) (b : ℕ)
    {f : BasicBlock X V M → BasicBlock X V M}
    (hf : ∀ bb : BasicBlock X V M, (∀ dests, bb.terminator ≠ .indirectBr dests) →
      ∀ dests, (f bb).terminator ≠ .indirectBr dests) :
    (F.modifyBlock b f).NoIndirectBr := by
  intro b' hb'
  by_cases heq : b' = b
  · subst heq
    rw [modifyBlock_block_self]
    exact hf _ (h b' hb')
  · rw [modifyBlock_block_of_ne F heq]
    exact h b' hb'

/-- Inserting a call keeps the graph. -/
theorem CallsOnly.graph {f : BasicBlock X V M → BasicBlock X V M} (h : CallsOnly f)
    (F : Function X V M) (b : ℕ) : (F.modifyBlock b f).graph = F.graph :=
  graph_modifyBlock F b (h.phis _) (h.terminator _) (h.ops _)

/-- Inserting a call is a step. -/
theorem CallsOnly.step {f : BasicBlock X V M → BasicBlock X V M} (h : CallsOnly f) (loop : Loop)
    (r : Rewriting X V M) (b : ℕ) : Step loop r (r.modifyBlock b f) := by
  refine Step.calls _ (h.graph r.func b) ?_
  intro hno
  refine NoIndirectBr.modifyBlock hno b fun bb hbb => ?_
  rw [h.terminator bb]
  exact hbb

omit [DecidableEq X] in
/-- A call is inserted at the start of a block. -/
theorem callsOnly_insertFirst (func : RegionFunc) (id : ℕ) (type : RegionType) :
    CallsOnly (X := X) (V := V) (M := M) (.insertFirst (.call func id type)) :=
  ⟨fun _ => rfl, fun _ => rfl, fun _ => rfl⟩

omit [DecidableEq X] in
/-- A call is inserted in front of the terminator. -/
theorem callsOnly_insertLast (func : RegionFunc) (id : ℕ) (type : RegionType) :
    CallsOnly (X := X) (V := V) (M := M) (.insertLast (.call func id type)) :=
  ⟨fun _ => rfl, fun _ => rfl, fun bb => (ops_append bb.insts _).trans (List.append_nil _)⟩

omit [DecidableEq X] in
/-- A call is inserted behind the phis. -/
theorem callsOnly_insertAtFirstInsertionPt (func : RegionFunc) (id : ℕ) (type : RegionType) :
    CallsOnly (X := X) (V := V) (M := M) (.insertAtFirstInsertionPt (.call func id type)) := by
  refine ⟨fun bb => ?_, fun bb => ?_, fun bb => ?_⟩
  · unfold BasicBlock.insertAtFirstInsertionPt
    split
    · rfl
    · rfl
  · unfold BasicBlock.insertAtFirstInsertionPt
    split
    · rfl
    · rfl
  · unfold BasicBlock.insertAtFirstInsertionPt
    split
    · next name compute insts heq =>
      rw [heq]
      rfl
    · rfl

/-- Moving the calls to `_KEnterRegion` out of a block. -/
theorem enterLoop_steps (loop : LoopRegions) (preheader : ℕ) (r : Rewriting X V M) :
    Steps loop.toLoop r (enterLoop loop preheader r) ∧
      (enterLoop loop preheader r).func.graph = r.func.graph := by
  have hops : ∀ insts : List (Instruction X V M),
      ops (insts.filter (Instruction.isCall .enterRegion)) = [] ∧
      ops (insts.filter fun inst => !inst.isCall .enterRegion) = ops insts := by
    intro insts
    unfold ops
    rw [List.filter_filter, List.filter_filter]
    refine ⟨List.filter_eq_nil_iff.mpr fun inst _ => ?_, List.filter_congr fun inst _ => ?_⟩
    · cases inst <;> simp [Instruction.isCall]
    · cases inst <;> simp [Instruction.isCall]
  have hremove : CallsOnly (X := X) (V := V) (M := M) fun bb =>
      { bb with insts := bb.insts.filter fun inst => !inst.isCall .enterRegion } :=
    ⟨fun _ => rfl, fun _ => rfl, fun bb => (hops bb.insts).2⟩
  have hmove : ∀ toMove : List (Instruction X V M), ops toMove = [] →
      CallsOnly fun bb => { bb with insts := bb.insts ++ toMove } := by
    refine fun toMove hnone => ⟨fun _ => rfl, fun _ => rfl, fun bb => ?_⟩
    show ops (bb.insts ++ toMove) = _
    rw [ops_append, hnone, List.append_nil]
  have hfirst := hremove.step loop.toLoop r loop.header
  have hsecond := (hmove _ (hops (r.func.block loop.header).insts).1).step loop.toLoop
    (r.modifyBlock loop.header fun bb =>
      { bb with insts := bb.insts.filter fun inst => !inst.isCall .enterRegion }) preheader
  refine ⟨((ReflTransGen.single hfirst).tail hsecond).tail
    ((callsOnly_insertLast ..).step _ _ preheader), ?_⟩
  exact ((callsOnly_insertLast ..).graph _ preheader).trans
    (((hmove _ (hops (r.func.block loop.header).insts).1).graph _ preheader).trans
      (hremove.graph r.func loop.header))

/-- `_KLandingPad` is a call like the others. -/
theorem instrumentLandingPads_steps (options : Options) (loop : LoopRegions)
    (r : Rewriting X V M) : Steps loop.toLoop r (instrumentLandingPads options loop r) := by
  unfold instrumentLandingPads
  have hfold : ∀ (call : Instruction X V M)
      (hcall : CallsOnly (BasicBlock.insertAtFirstInsertionPt call)) (pads : List ℕ)
      (r : Rewriting X V M), Steps loop.toLoop r
        (pads.foldl (fun r b => r.modifyBlock b (.insertAtFirstInsertionPt call)) r) := by
    intro call hcall pads
    induction pads with
    | nil => exact fun r => ReflTransGen.refl
    | cons b pads ih => exact fun r => ReflTransGen.head (hcall.step loop.toLoop r b) (ih _)
  dsimp only
  split
  · exact hfold _ (callsOnly_insertAtFirstInsertionPt ..) loop.landingPads r
  · exact hfold _ (callsOnly_insertAtFirstInsertionPt ..) loop.landingPads r

/-! ## §5. Uses of edge redirection. -/

omit [DecidableEq X] in
/-- A new block has no indirect branch. -/
theorem NoIndirectBr.createBlock {F : Function X V M} (h : F.NoIndirectBr) :
    F.createBlock.NoIndirectBr := by
  intro b hb dests
  by_cases heq : b = F.count
  · rw [heq, createBlock_block_self]
    exact fun hbad => by cases hbad
  · rw [createBlock_block_of_ne F heq]
    exact h b (Nat.lt_of_le_of_ne (Nat.le_of_lt_succ hb) heq) dests

omit [DecidableEq X] in
/-- Nor does it have one when it gets its branch. -/
theorem NoIndirectBr.createBr {F : Function X V M} (h : F.NoIndirectBr) (dest b : ℕ) :
    (F.createBr dest b).NoIndirectBr :=
  NoIndirectBr.modifyBlock h b fun _ _ _ hbad => by cases hbad

omit [DecidableEq X] in
/-- Other destinations make no indirect branch. -/
theorem NoIndirectBr.replaceUsesOfWith {F : Function X V M} (h : F.NoIndirectBr)
    (b old new : ℕ) : (F.modifyBlock b (.replaceUsesOfWith old new)).NoIndirectBr := by
  refine NoIndirectBr.modifyBlock h b fun bb hbb dests hbad => ?_
  have hmap : bb.terminator.map (redirect old new) = .indirectBr dests := hbad
  cases hterm : bb.terminator with
  | indirectBr dests' => exact hbb dests' hterm
  | br dest => rw [hterm] at hmap; cases hmap
  | condBr ifTrue ifFalse => rw [hterm] at hmap; cases hmap
  | switch defaultDest cases => rw [hterm] at hmap; cases hmap
  | invoke normalDest unwindDest => rw [hterm] at hmap; cases hmap
  | ret => rw [hterm] at hmap; cases hmap

omit [DecidableEq X] in
/-- Promoting phis makes none. -/
theorem NoIndirectBr.promotePHIs {F : Function X V M} (h : F.NoIndirectBr) (src dest : ℕ) :
    (F.promotePHIsToOtherBlock src dest).NoIndirectBr := by
  unfold Function.promotePHIsToOtherBlock
  refine NoIndirectBr.modifyBlock ?_ dest fun _ hbb => hbb
  exact NoIndirectBr.modifyBlock h src fun _ hbb => hbb

omit [DecidableEq X] in
/-- Without an `indirectbr` every jump can be replaced. -/
theorem replaceAllJumps_returns (F : Function X V M) (old new : ℕ) (loop : Loop)
    (predsInLoop : Bool) :
    Returns F.NoIndirectBr (F.replaceAllJumps old new loop predsInLoop)
      fun F' => F.NoIndirectBr → F'.NoIndirectBr := by
  have hloop : ∀ preds : List ℕ, (∀ p ∈ preds, p ∈ F.preds old) →
      Returns F.NoIndirectBr (preds.foldlM (Function.replaceJumps old new) F) fun F' =>
        (F.NoIndirectBr → F'.NoIndirectBr) ∧ F'.count = F.count ∧
          ∀ p ∈ ([] : List ℕ), F'.successors p ≠ [] ∧ p < F.count := by
    intro preds hpreds
    refine Returns.foldlM (fun (rest : List ℕ) (F' : Function X V M) =>
      (F.NoIndirectBr → F'.NoIndirectBr) ∧ F'.count = F.count ∧
        ∀ p ∈ rest, F'.successors p ≠ [] ∧ p < F.count) ?_ ⟨id, rfl, fun p hp => ?_⟩
    · rintro p rest F' ⟨hno, hcount, hrest⟩
      -- the predecessors that are still to come keep their branches
      have hkeep : ∀ q ∈ rest,
          (F'.modifyBlock p (.replaceUsesOfWith old new)).successors q ≠ [] ∧ q < F.count := by
        intro q hq
        obtain ⟨hsucc, hlt⟩ := hrest q (List.mem_cons_of_mem p hq)
        refine ⟨?_, hlt⟩
        unfold Function.successors
        by_cases heq : q = p
        · subst heq
          rw [modifyBlock_block_self, replaceUsesOfWith_successors]
          exact fun hnil => hsucc (List.map_eq_nil_iff.mp hnil)
        · rw [modifyBlock_block_of_ne F' heq]
          exact hsucc
      constructor
      · intro hF
        obtain ⟨hsucc, hlt⟩ := hrest p List.mem_cons_self
        have hterm := hno hF p (hcount ▸ hlt)
        unfold Function.successors at hsucc
        unfold Function.replaceJumps
        cases heq : (F'.block p).terminator with
        | br dest => exact ⟨_, rfl⟩
        | condBr ifTrue ifFalse => exact ⟨_, rfl⟩
        | switch defaultDest cases => exact ⟨_, rfl⟩
        | invoke normalDest unwindDest => exact ⟨_, rfl⟩
        | indirectBr dests => exact absurd heq (hterm dests)
        | ret =>
            rw [heq] at hsucc
            exact absurd rfl hsucc
      · intro F'' h
        rw [replaceJumps_eq h]
        exact ⟨fun hF => NoIndirectBr.replaceUsesOfWith (hno hF) p old new, hcount, hkeep⟩
    · obtain ⟨hlt, hin⟩ := mem_preds.mp (hpreds p hp)
      exact ⟨List.ne_nil_of_mem hin, hlt⟩
  have hall := hloop
    ((F.preds old).filter fun pred => (!predsInLoop && !decide (pred ∈ loop.blocks)) ||
      (predsInLoop && decide (pred ∈ loop.blocks))) fun p hp => (List.mem_filter.mp hp).1
  -- (hall.sound F' h).1⟩ => only an indirect branch stops the loop
  exact ⟨hall.total, fun F' h => (hall.sound F' h).1⟩

/-- A redirection that has a block outside the loop to move splits edges. -/
theorem redirectToPreheader_returns {F : Function X V M} {loop : Loop} (hwf : F.graph.WellFormed)
    {p : ℕ} (hp : p < F.count) (hout : p ∉ loop.blocks) (hedge : loop.header ∈ F.successors p) :
    Returns F.NoIndirectBr (F.redirectToPreheader loop) fun F' =>
      Splits F F' loop.header fun p => decide (p ∉ loop.blocks) := by
  have hreplace := replaceAllJumps_returns F.createBlock loop.header F.count loop false
  constructor
  · intro hno
    obtain ⟨F₁, h₁⟩ := hreplace.total (NoIndirectBr.createBlock hno)
    exact ⟨_, Option.bind_eq_some_iff.mpr ⟨F₁, h₁, rfl⟩⟩
  · intro F' h
    refine ⟨⟨p, hp, decide_eq_true hout, hedge⟩, redirectToPreheader_graph hwf h hp hout hedge, ?_⟩
    intro hno
    obtain ⟨F₁, h₁, h₂⟩ := Option.bind_eq_some_iff.mp h
    cases h₂
    exact NoIndirectBr.promotePHIs (NoIndirectBr.createBr
      (hreplace.sound F₁ h₁ (NoIndirectBr.createBlock hno)) _ _) _ _

/-- The edge out of the loop is split. -/
theorem redirectToPreExit_splits {F : Function X V M} (options : Options) {loop : LoopRegions}
    {exiting target : ℕ} (hwf : F.graph.WellFormed) (hp : exiting < F.count)
    (hedge : target ∈ F.successors exiting) :
    Splits F (F.redirectToPreExit options loop exiting target) target
      fun p => decide (p = exiting) := by
  refine ⟨⟨exiting, hp, decide_eq_true rfl, hedge⟩, redirectToPreExit_graph hwf hp hedge, ?_⟩
  intro hno
  unfold Function.redirectToPreExit
  refine NoIndirectBr.promotePHIs (NoIndirectBr.replaceUsesOfWith ?_ _ _ _) _ _
  refine NoIndirectBr.modifyBlock ?_ _ fun _ hbb => hbb
  have hnew := NoIndirectBr.createBr (NoIndirectBr.createBlock hno) target F.count
  split_ifs
  · exact NoIndirectBr.modifyBlock hnew _ fun _ hbb => hbb
  · exact hnew

/-- The back edges are split off together. -/
theorem redirectToCont_returns {F : Function X V M} {loop : LoopRegions}
    (hwf : F.graph.WellFormed) (hlt : ∀ b ∈ loop.blocks, b < F.count) {p : ℕ}
    (hin : p ∈ loop.blocks) (hedge : loop.header ∈ F.successors p) :
    Returns F.NoIndirectBr (F.redirectToCont loop) fun F' =>
      Splits F F' loop.header fun p => decide (p ∈ loop.blocks) := by
  have hreplace := replaceAllJumps_returns
    ((F.createBlock.createBr loop.header F.count).modifyBlock F.count
      (.insertLast (.call .exitRegion loop.bodyRegionId .loopBody)))
    loop.header F.count loop.toLoop true
  have hnew : F.NoIndirectBr → ((F.createBlock.createBr loop.header F.count).modifyBlock F.count
      (.insertLast (.call .exitRegion loop.bodyRegionId .loopBody))).NoIndirectBr := fun hno =>
    NoIndirectBr.modifyBlock (NoIndirectBr.createBr (NoIndirectBr.createBlock hno) _ _) _
      fun _ hbb => hbb
  constructor
  · intro hno
    obtain ⟨F₁, h₁⟩ := hreplace.total (hnew hno)
    exact ⟨_, Option.bind_eq_some_iff.mpr ⟨F₁, h₁, rfl⟩⟩
  · intro F' h
    refine ⟨⟨p, hlt p hin, decide_eq_true hin, hedge⟩, redirectToCont_graph hwf h hlt hin hedge, ?_⟩
    intro hno
    obtain ⟨F₁, h₁, h₂⟩ := Option.bind_eq_some_iff.mp h
    cases h₂
    exact NoIndirectBr.promotePHIs (hreplace.sound F₁ h₁ (hnew hno)) _ _

/-! ## §6. The steps for a loop. -/

section Exits

variable {F : Function X V M} {loop : LoopRegions} (options : Options)

/-- Between the steps for the exits of a loop: `exiting` are blocks of it that leave
it. -/
structure Leaving (F : Function X V M) (loop : Loop) (exiting : List ℕ) (r : Rewriting X V M) :
    Prop where
  wellFormed : r.func.graph.WellFormed
  intact : Intact F loop r.func.graph
  leaves : ∀ p ∈ exiting, p ∈ loop.blocks ∧ ∃ s ∈ r.func.successors p, s ∉ loop.blocks

/-- The edges to a target of an exiting block are split. -/
theorem Leaving.use {exiting : List ℕ} {r : Rewriting X V M} (h : Leaving F loop.toLoop exiting r)
    (hnat : NaturalLoop F loop.toLoop) {p target : ℕ} (hp : p ∈ loop.blocks)
    (htarget : target ∈ r.func.successors p) (hout : target ∉ loop.blocks) :
    let F' := r.func.redirectToPreExit options loop p target
    Step loop.toLoop r (r.use F') ∧ Leaving F loop.toLoop exiting (r.use F') ∧
      ∀ t ∈ r.func.successors p, t ≠ target → t ∈ F'.successors p := by
  have hlt : p < r.func.count := Nat.lt_of_lt_of_le (hnat.lt p hp) h.intact.count_le
  intro F'
  have hsplits : Splits r.func F' target fun q => decide (q = p) :=
    redirectToPreExit_splits options h.wellFormed hlt htarget
  have hstep : Step loop.toLoop r (r.use F') := by
    refine Step.use F' target _ hsplits (.inr ⟨hout, fun q hq => ?_⟩)
    rw [of_decide_eq_true hq]
    exact hp
  have hsucc : ∀ q, F'.successors q = (r.func.graph.split target fun q => decide (q = p)).succ q :=
    fun q => congrFun (congrArg Graph.succ hsplits.graph) q
  refine ⟨hstep, ⟨hstep.wellFormed h.wellFormed, ?_, fun q hq => ?_⟩, fun t ht hne => ?_⟩
  · show Intact F loop.toLoop F'.graph
    rw [hsplits.graph]
    exact h.intact.split h.wellFormed hnat.lt fun hin => absurd hin hout
  · -- every exiting block still leaves the loop
    obtain ⟨hq, s, hs, hsout⟩ := h.leaves q hq
    have hqlt : q < r.func.count := Nat.lt_of_lt_of_le (hnat.lt q hq) h.intact.count_le
    refine ⟨hq, ?_⟩
    show ∃ s ∈ F'.successors q, s ∉ loop.blocks
    rw [hsucc]
    by_cases hmoved : s = target ∧ decide (q = p) = true
    · -- the block now leaves the loop through the new one
      refine ⟨r.func.count, (h.wellFormed.mem_split_succ hqlt).mpr (.inl ⟨rfl, hmoved.2, ?_⟩), ?_⟩
      · exact hmoved.1 ▸ hs
      · exact fun hin => Nat.not_lt_of_le h.intact.count_le (hnat.lt _ hin)
    · exact ⟨s, (h.wellFormed.mem_split_succ hqlt).mpr (.inr ⟨hs, hmoved⟩), hsout⟩
  · rw [hsucc]
    exact (h.wellFormed.mem_split_succ hlt).mpr (.inr ⟨ht, fun hboth => hne hboth.1⟩)

/-- **The targets of an exiting block**, one after the other. -/
theorem Leaving.targets (hnat : NaturalLoop F loop.toLoop) {exiting : List ℕ} {p : ℕ}
    (hp : p ∈ loop.blocks) {targets : List ℕ} (hnodup : targets.Nodup) {r : Rewriting X V M}
    (h : Leaving F loop.toLoop exiting r)
    (htargets : ∀ t ∈ targets, t ∈ r.func.successors p ∧ t ∉ loop.blocks) :
    Steps loop.toLoop r (targets.foldl (instrumentTarget options loop p) r) ∧
      Leaving F loop.toLoop exiting (targets.foldl (instrumentTarget options loop p) r) := by
  induction targets generalizing r with
  | nil => exact ⟨ReflTransGen.refl, h⟩
  | cons t targets ih =>
      rw [List.nodup_cons] at hnodup
      obtain ⟨ht, hout⟩ := htargets t List.mem_cons_self
      have hrest : ∀ u ∈ targets, u ∈ r.func.successors p ∧ u ∉ loop.blocks := fun u hu =>
        htargets u (List.mem_cons_of_mem t hu)
      rw [List.foldl_cons, instrumentTarget]
      split
      · -- a landing pad is skipped
        exact ih hnodup.2 h hrest
      · obtain ⟨hstep, h', hkeep⟩ := h.use options hnat hp ht hout
        obtain ⟨hsteps, h''⟩ := ih hnodup.2 h' fun u hu =>
          ⟨hkeep u (hrest u hu).1 fun heq => hnodup.1 (heq ▸ hu), (hrest u hu).2⟩
        exact ⟨ReflTransGen.head hstep hsteps, h''⟩

/-- **The exiting blocks**, one after the other. -/
theorem Leaving.exits (hnat : NaturalLoop F loop.toLoop) {P : Prop} {exiting : List ℕ}
    {r : Rewriting X V M} (h : Leaving F loop.toLoop exiting r) :
    Returns P (exiting.foldlM (instrumentExiting options loop) r) fun r' =>
      Steps loop.toLoop r r' ∧ Leaving F loop.toLoop [] r' := by
  refine Returns.foldlM (fun rest r' => Steps loop.toLoop r r' ∧ Leaving F loop.toLoop rest r')
    ?_ ⟨ReflTransGen.refl, h⟩
  rintro p rest r' ⟨hsteps, h'⟩
  obtain ⟨hp, s, hs, hout⟩ := h'.leaves p List.mem_cons_self
  have hmem : ∀ t, t ∈ options.byAddress
      ((r'.func.successors p).filter fun succ => succ ∉ loop.blocks).dedup ↔
        t ∈ r'.func.successors p ∧ t ∉ loop.blocks := by
    intro t
    rw [(options.byAddress_perm _).mem_iff, List.mem_dedup, List.mem_filter, decide_eq_true_eq]
  have hnodup := (options.byAddress_perm _).nodup_iff.mpr
    (List.nodup_dedup ((r'.func.successors p).filter fun succ => succ ∉ loop.blocks))
  have hrest : Leaving F loop.toLoop rest r' :=
    ⟨h'.wellFormed, h'.intact, fun q hq => h'.leaves q (List.mem_cons_of_mem p hq)⟩
  unfold instrumentExiting
  dsimp only
  rw [if_neg fun hlength => List.ne_nil_of_mem ((hmem s).mpr ⟨hs, hout⟩)
    (List.length_eq_zero_iff.mp hlength)]
  obtain ⟨hmore, hleft⟩ := Leaving.targets options hnat hp hnodup hrest
    fun t ht => (hmem t).mp ht
  exact Returns.some ⟨hsteps.trans hmore, hleft⟩

end Exits

section Run

variable {F : Function X V M} {loop : LoopRegions} (options : Options) {r : Rewriting X V M}

/-- The header of a loop still goes on within it, so that the body has an entry. -/
theorem bodyEntry_isSome (hnat : NaturalLoop F loop.toLoop)
    (hintact : Intact F loop.toLoop r.func.graph) :
    ∃ entry, r.func.bodyEntry loop.toLoop = some entry := by
  obtain ⟨b, hedge⟩ := hnat.exists_succ
  have hmem : b ∈ (r.func.successors loop.header).filter fun succ => succ ∈ loop.blocks :=
    List.mem_filter.mpr ⟨hintact.stays _ b hedge, decide_eq_true hedge.2.1⟩
  unfold Function.bodyEntry
  dsimp only
  split_ifs
  · exact ⟨_, rfl⟩
  · exact Option.isSome_iff_exists.mp (List.getLast?_isSome.mpr (List.ne_nil_of_mem hmem))
  · exact ⟨_, rfl⟩

/-- The loop body: its calls, and the block for the edges back. -/
theorem instrumentBody_steps (hnat : NaturalLoop F loop.toLoop)
    (hwf : r.func.graph.WellFormed) (hintact : Intact F loop.toLoop r.func.graph) :
    Returns r.func.NoIndirectBr (instrumentBody loop r) fun r' => Steps loop.toLoop r r' := by
  obtain ⟨entry, hentry⟩ := bodyEntry_isSome hnat hintact
  have henter : Step loop.toLoop r (r.modifyBlock entry
      (.insertFirst (.call .enterRegion loop.bodyRegionId .loopBody))) :=
    (callsOnly_insertFirst ..).step _ r entry
  unfold instrumentBody
  rw [hentry]
  show Returns _ (if loop.blocks.length = 1 then _ else _) _
  split
  · exact Returns.some ((ReflTransGen.single henter).tail ((callsOnly_insertLast ..).step _ _ _))
  · have hgraph : (r.func.modifyBlock entry
        (.insertFirst (.call .enterRegion loop.bodyRegionId .loopBody))).graph = r.func.graph :=
      graph_modifyBlock r.func entry rfl rfl rfl
    obtain ⟨p, hedge⟩ := hnat.exists_latch
    have hback := hintact.stays p _ hedge
    rw [← hgraph] at hback hwf
    have hcont := redirectToCont_returns hwf
      (fun b hb => Nat.lt_of_lt_of_le (hnat.lt b hb) hintact.count_le) hedge.1 hback
    refine Returns.bind ⟨fun hno => hcont.total (henter.branches hno), hcont.sound⟩
      fun F' hsplits => Returns.some ?_
    exact (ReflTransGen.single henter).tail (Step.use F' _ _ hsplits (.inl rfl))

/-- **What `instrumentLoop` does** for a loop whose edges are there. -/
theorem instrumentLoop_steps (hnat : NaturalLoop F loop.toLoop)
    (hwf : r.func.graph.WellFormed) (hintact : Intact F loop.toLoop r.func.graph) :
    Returns r.func.NoIndirectBr (instrumentLoop options loop r) fun r' =>
      Steps loop.toLoop r r' := by
  unfold instrumentLoop
  split
  · exact Returns.some ReflTransGen.refl
  · obtain ⟨p, hp, hout, hedge⟩ := hintact.entered
    refine (redirectToPreheader_returns hwf hp hout hedge).bind fun F' hsplits => ?_
    have hpre : Step loop.toLoop r (r.use F') := Step.use F' _ _ hsplits (.inl rfl)
    obtain ⟨henter, hgraph⟩ := enterLoop_steps loop r.func.count (r.use F')
    have hfirst : Steps loop.toLoop r (enterLoop loop r.func.count (r.use F')) :=
      ReflTransGen.head hpre henter
    have hleaving : Leaving F loop.toLoop
        ((enterLoop loop r.func.count (r.use F')).func.exitingBlocks loop.toLoop)
        (enterLoop loop r.func.count (r.use F')) := by
      refine ⟨hgraph ▸ hpre.wellFormed hwf, ?_, fun q hq => ?_⟩
      · rw [hgraph]
        show Intact F loop.toLoop F'.graph
        rw [hsplits.graph]
        exact hintact.split hwf hnat.lt fun _ q hq => decide_eq_false (not_not_intro hq)
      · obtain ⟨hq, hany⟩ := List.mem_filter.mp hq
        obtain ⟨s, hs, hsout⟩ := List.any_eq_true.mp hany
        exact ⟨hq, s, hs, of_decide_eq_true hsout⟩
    refine (hleaving.exits options hnat).bind fun r₁ hexits => ?_
    -- the header is reached through the preheader, the exits through their blocks; the body is
    -- left
    have hsecond := hfirst.trans hexits.1
    have hlast : ∀ r₂, Steps loop.toLoop r₁ r₂ → Returns r.func.NoIndirectBr
        (some (instrumentLandingPads options loop r₂)) fun r' => Steps loop.toLoop r r' :=
      fun r₂ hthird => Returns.some
        ((hsecond.trans hthird).trans (instrumentLandingPads_steps options loop r₂))
    dsimp only
    split
    · have hbody := instrumentBody_steps hnat hexits.2.wellFormed hexits.2.intact
      exact Returns.bind ⟨fun hno => hbody.total (Steps.branches hsecond hno), hbody.sound⟩ hlast
    · exact hlast r₁ ReflTransGen.refl

/-- Where the pass stands: the loops that are left have the edges it needs. -/
structure Instrumented (F : Function X V M) (loops : List LoopRegions) (r : Rewriting X V M) :
    Prop where
  sound : Sound F r
  branches : F.NoIndirectBr → r.func.NoIndirectBr
  forest : LoopForest F loops
  intact : ∀ loop ∈ loops, Intact F loop.toLoop r.func.graph

/-- **One loop more.** -/
theorem Instrumented.next (hF : F.Verified) {loops : List LoopRegions}
    (h : Instrumented F (loop :: loops) r) :
    Returns F.NoIndirectBr (instrumentLoop options loop r) (Instrumented F loops) := by
  have hnat := h.forest.natural loop List.mem_cons_self
  have hsteps := instrumentLoop_steps options hnat h.sound.wellFormed
    (h.intact loop List.mem_cons_self)
  refine ⟨fun hno => hsteps.total (h.branches hno), fun r' hr' => ?_⟩
  have hrun := hsteps.sound r' hr'
  obtain ⟨hhead, htail⟩ := List.pairwise_cons.mp h.forest.nested
  refine ⟨hrun.sound h.sound, fun hno => Steps.branches hrun (h.branches hno), ?_, ?_⟩
  · exact ⟨h.forest.entry_lt, h.forest.no_preds,
      fun l hl => h.forest.natural l (List.mem_cons_of_mem loop hl), htail⟩
  · intro inner hinner
    have hin := h.forest.natural inner (List.mem_cons_of_mem loop hinner)
    obtain ⟨hne, hnested⟩ := hhead inner hinner
    exact Steps.intact hrun hin h.sound (hin.header_notMem hnat hne hnested hF.succ_lt
      h.forest.entry_lt h.forest.no_preds) hnested
      (h.intact inner (List.mem_cons_of_mem loop hinner))

/-- **Instrumenting all loops keeps the values.**  Each use of edge redirection
splits edges of a well-formed function, so that phis have one entry for each edge and
the values on every walk are kept; so they are from the first function to the last.
Without an `indirectbr` the pass comes to its end. -/
theorem instrumentLoops_preserves {loops : List LoopRegions} (hF : F.Verified)
    (hforest : LoopForest F loops) :
    (F.NoIndirectBr → ∃ r, instrumentLoops options loops ⟨F, []⟩ = some r) ∧
      ∀ r, instrumentLoops options loops ⟨F, []⟩ = some r →
        (r.func.graph.WellFormed ∧ Preserves F.graph r.func.graph) ∧
          ∀ use ∈ r.uses, use.1.graph.WellFormed ∧ use.2.graph.WellFormed ∧
            Preserves use.1.graph use.2.graph := by
  have hstart : Instrumented F loops (⟨F, []⟩ : Rewriting X V M) := by
    refine ⟨⟨hF.graph, hF.graph.preserves_self, fun use hmem => absurd hmem List.not_mem_nil⟩, id,
      hforest, fun loop hloop => ?_⟩
    have hnat := hforest.natural loop hloop
    exact ⟨Nat.le_refl _, fun p b hedge => hedge.2.2,
      hnat.exists_entry hF.succ_lt hforest.entry_lt hforest.no_preds⟩
  have hrun : Returns F.NoIndirectBr (instrumentLoops options loops ⟨F, []⟩)
      (Instrumented F []) :=
    Returns.foldlM (Instrumented F) (fun _ _ _ h => h.next options hF) hstart
  refine ⟨hrun.total, fun r hr => ?_⟩
  obtain ⟨hsound, -, -, -⟩ := hrun.sound r hr
  refine ⟨⟨hsound.wellFormed, hsound.preserves⟩, fun use hmem => ?_⟩
  obtain ⟨hwf, hwf', old, moved, hsplits⟩ := hsound.uses use hmem
  refine ⟨hwf, hwf', ?_⟩
  rw [hsplits.graph]
  exact hwf.split_preserves (hsplits.old_lt hwf)

end Run

end Steps

/-! ## §7. A loop. -/

/-- `x1 = c ? 0 : 5; while (…) { x2 = x1 + 1; if (…) x1 = x2; else x1 = x2 + x1; }`:
block 3 is the header, which leaves the loop by two cases of a switch to block 6. -/
def searchLoop : Function ℕ ℕ Unit where
  count := 7
  entryBlock := 0
  block
    | 0 => ⟨[], [], .condBr 1 2⟩
    | 1 => ⟨[], [], .br 3⟩
    | 2 => ⟨[], [], .br 3⟩
    | 3 => ⟨[⟨.orig 1, [(.const 0, 1), (.const 5, 2), (.name (.orig 2), 4), (.name (.orig 3), 5)]⟩],
        [], .switch 4 [6, 6]⟩
    | 4 => ⟨[], [.op (.orig 2) [.name (.orig 1)] fun args mem => (args.sum + 1, mem)],
        .condBr 3 5⟩
    | 5 => ⟨[], [.op (.orig 3) [.name (.orig 2), .name (.orig 1)] fun args mem => (args.sum, mem)],
        .br 3⟩
    | 6 => ⟨[⟨.orig 4, [(.name (.orig 1), 3), (.name (.orig 1), 3)]⟩], [], .ret⟩
    | _ => ⟨[], [], .ret⟩

/-- The example is verified. -/
theorem searchLoop_verified : searchLoop.Verified where
  succ_lt := by decide
  entries b hb phi hphi p := by
    have hcounts : ∀ b < 7, ∀ phi ∈ (searchLoop.block b).phis, ∀ p < 7,
        phi.incoming.countP (fun e => decide (e.2 = p)) = (searchLoop.successors p).count b := by
      decide
    have hsources : ∀ b < 7, ∀ phi ∈ (searchLoop.block b).phis, ∀ e ∈ phi.incoming, e.2 < 7 := by
      decide
    by_cases hp : p < searchLoop.count
    · rw [if_pos hp]
      exact hcounts b hb phi hphi p hp
    · rw [if_neg hp, List.countP_eq_zero]
      intro e he heq
      have hlt : e.2 < searchLoop.count := hsources b hb phi hphi e he
      rw [of_decide_eq_true heq] at hlt
      exact hp hlt
  same := by decide
  nodup := by decide
  phi_names := by decide
  operands := by decide

/-- Its one loop is natural. -/
theorem searchLoop_forest (id bodyId : ℕ) :
    LoopForest searchLoop [⟨⟨3, [3, 4, 5]⟩, id, bodyId, []⟩] where
  entry_lt := by decide
  no_preds := by decide
  natural loop hloop := by
    rw [List.mem_singleton.mp hloop]
    show NaturalLoop searchLoop ⟨3, [3, 4, 5]⟩
    have h34 : InLoop searchLoop ⟨3, [3, 4, 5]⟩ 3 4 := by unfold InLoop; decide
    have h43 : InLoop searchLoop ⟨3, [3, 4, 5]⟩ 4 3 := by unfold InLoop; decide
    have h45 : InLoop searchLoop ⟨3, [3, 4, 5]⟩ 4 5 := by unfold InLoop; decide
    have h53 : InLoop searchLoop ⟨3, [3, 4, 5]⟩ 5 3 := by unfold InLoop; decide
    refine ⟨by decide, by decide, by decide, fun b hb => ?_, ?_⟩
    · have hblocks : b = 3 ∨ b = 4 ∨ b = 5 := by simpa using hb
      rcases hblocks with rfl | rfl | rfl
      · exact ⟨ReflTransGen.refl, (TransGen.single h34).tail h43⟩
      · exact ⟨ReflTransGen.single h34, TransGen.single h43⟩
      · exact ⟨(ReflTransGen.single h34).tail h45, TransGen.single h53⟩
    · have h01 : Next searchLoop.successors 0 1 := by decide
      have h13 : Next searchLoop.successors 1 3 := by decide
      exact (ReflTransGen.single h01).tail h13
  nested := List.pairwise_singleton _ _

/-- Each of the three uses makes a phi in its new block, and all values are kept. -/
theorem searchLoop_preserves :
    ∃ r, instrumentLoops ⟨false, true, id, fun l => .refl l⟩ [⟨⟨3, [3, 4, 5]⟩, 7, 8, []⟩]
        ⟨searchLoop, []⟩ = some r ∧
      (r.func.block 7).phis = [⟨.promoted (.orig 1) 7, [(.const 0, 1), (.const 5, 2)]⟩] ∧
      (r.func.block 8).phis =
        [⟨.promoted (.orig 4) 8, [(.name (.orig 1), 3), (.name (.orig 1), 3)]⟩] ∧
      (r.func.block 9).phis =
        [⟨.promoted (.orig 1) 9, [(.name (.orig 2), 4), (.name (.orig 3), 5)]⟩] ∧
      r.func.graph.WellFormed ∧ Preserves searchLoop.graph r.func.graph := by
  obtain ⟨htotal, hsound⟩ := instrumentLoops_preserves ⟨false, true, id, fun l => .refl l⟩
    searchLoop_verified (searchLoop_forest 7 8)
  have hno : searchLoop.NoIndirectBr := by
    intro b hb dests
    change b < 7 at hb
    have hblocks : b = 0 ∨ b = 1 ∨ b = 2 ∨ b = 3 ∨ b = 4 ∨ b = 5 ∨ b = 6 := by omega
    rcases hblocks with rfl | rfl | rfl | rfl | rfl | rfl | rfl
    all_goals exact fun hbad => by cases hbad
  have hphis : (instrumentLoops ⟨false, true, id, fun l => .refl l⟩ [⟨⟨3, [3, 4, 5]⟩, 7, 8, []⟩]
      ⟨searchLoop, []⟩).all (fun r =>
        (r.func.block 7).phis = [⟨.promoted (.orig 1) 7, [(.const 0, 1), (.const 5, 2)]⟩] ∧
        (r.func.block 8).phis =
          [⟨.promoted (.orig 4) 8, [(.name (.orig 1), 3), (.name (.orig 1), 3)]⟩] ∧
        (r.func.block 9).phis =
          [⟨.promoted (.orig 1) 9, [(.name (.orig 2), 4), (.name (.orig 3), 5)]⟩]) = true := by
    decide +kernel
  obtain ⟨r, hr⟩ := htotal hno
  rw [hr] at hphis
  obtain ⟨hpre, hexit, hcont⟩ := of_decide_eq_true hphis
  exact ⟨r, hr, hpre, hexit, hcont, (hsound r hr).1⟩

end Kremlin.Instrument.RegionInstrument
