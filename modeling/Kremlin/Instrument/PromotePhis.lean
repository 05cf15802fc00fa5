/-
  Kremlin.Instrument.PromotePhis — each use of edge redirection splits edges.

  The graph of a function forgets the calls.  `promotePHIsToOtherBlock` infers
  from the redirected edges which phi entries to move; in a well-formed function
  these are the entries of the redirected blocks, so each of the three uses in
  `instrumentLoop` is `Graph.split`.
-/
import Kremlin.Instrument.RegionInstrument
import Mathlib.Tactic.SplitIfs

namespace Kremlin.Instrument.RegionInstrument

open Kremlin.Library.Ssa

variable {X V M : Type}

/-! ## §1. The graph of a function. -/

section Semantics

variable [DecidableEq X]

/-- What an instruction does; the calls leave the values alone. -/
def Instruction.exec (st : State X V M) : Instruction X V M → State X V M
  | .op name operands compute =>
      let result := compute (operands.map (Value.eval st)) st.mem
      ⟨Function.update st.regs name result.1, result.2⟩
  | .landingpad name compute =>
      let result := compute st.mem
      ⟨Function.update st.regs name result.1, result.2⟩
  | .call _ _ _ => st

/-- The instructions of a block, one after the other. -/
def runInsts (insts : List (Instruction X V M)) (st : State X V M) : State X V M :=
  insts.foldl Instruction.exec st

/-- The blocks, their edges and phis, and what they do. -/
def Function.graph (F : Function X V M) : Graph X V M where
  count := F.count
  succ := F.successors
  phis b := (F.block b).phis
  body b := runInsts (F.block b).insts

end Semantics

/-- The instructions but for the calls. -/
def ops (insts : List (Instruction X V M)) : List (Instruction X V M) :=
  insts.filter fun inst => match inst with
    | .call _ _ _ => false
    | _ => true

/-- Calls are left out on both sides. -/
@[simp] theorem ops_append (insts insts' : List (Instruction X V M)) :
    ops (insts ++ insts') = ops insts ++ ops insts' := List.filter_append ..

/-- The values that an instruction reads. -/
def Instruction.operands : Instruction X V M → List (Value X V)
  | .op _ operands _ => operands
  | _ => []

/-- The calls of the library compute nothing. -/
theorem runInsts_ops [DecidableEq X] (insts : List (Instruction X V M)) (st : State X V M) :
    runInsts (ops insts) st = runInsts insts st := by
  induction insts generalizing st with
  | nil => rfl
  | cons inst insts ih =>
      cases inst with
      | op name operands compute => exact ih _
      | landingpad name compute => exact ih _
      | call func id type => exact ih st

/-- A function whose blocks differ in calls only has the same graph. -/
theorem graph_modifyBlock [DecidableEq X] (F : Function X V M) (b : ℕ)
    {f : BasicBlock X V M → BasicBlock X V M} (hphis : (f (F.block b)).phis = (F.block b).phis)
    (hterm : (f (F.block b)).terminator = (F.block b).terminator)
    (hops : ops (f (F.block b)).insts = ops (F.block b).insts) :
    (F.modifyBlock b f).graph = F.graph := by
  have hblock : ∀ b', ((F.modifyBlock b f).block b').phis = (F.block b').phis ∧
      ((F.modifyBlock b f).block b').terminator = (F.block b').terminator ∧
      ops ((F.modifyBlock b f).block b').insts = ops (F.block b').insts := by
    intro b'
    show (Function.update F.block b (f (F.block b)) b').phis = _ ∧
      (Function.update F.block b (f (F.block b)) b').terminator = _ ∧
      ops (Function.update F.block b (f (F.block b)) b').insts = _
    by_cases hb : b' = b
    · rw [hb, Function.update_self]
      exact ⟨hphis, hterm, hops⟩
    · rw [Function.update_of_ne hb]
      exact ⟨rfl, rfl, rfl⟩
  unfold Function.graph
  congr 1
  · funext b'
    show ((F.modifyBlock b f).block b').terminator.successors = _
    rw [(hblock b').2.1]
    rfl
  · funext b'
    exact (hblock b').1
  · funext b' st
    show runInsts ((F.modifyBlock b f).block b').insts st = _
    rw [← runInsts_ops, (hblock b').2.2, runInsts_ops]

/-! ## §2. Which entries move. -/

/-- What `collectIncoming` finds: the entries to promote, and where they are to be
removed. -/
theorem collectIncoming_eq (isPredecessor : ℕ → Bool) (incoming : List (Value X V × ℕ)) :
    ∀ (i : ℕ) (toRemove : List ℕ) (promoted kept : List (Value X V × ℕ)),
      i = kept.length + toRemove.length →
      ∃ indices, collectIncoming isPredecessor i incoming (toRemove, promoted)
          = (toRemove ++ indices, promoted ++ incoming.filter fun e => !isPredecessor e.2) ∧
        indices.foldl List.eraseIdx (kept ++ incoming)
          = kept ++ incoming.filter fun e => isPredecessor e.2 := by
  induction incoming with
  | nil =>
      intro i toRemove promoted kept _
      exact ⟨[], by simp [collectIncoming], rfl⟩
  | cons e incoming ih =>
      intro i toRemove promoted kept hi
      unfold collectIncoming
      by_cases he : isPredecessor e.2 = true
      · rw [if_pos he]
        -- the entry stays and the next index is one further
        have hlength : i + 1 = (kept ++ [e]).length + toRemove.length := by
          rw [List.length_append, List.length_singleton]
          omega
        obtain ⟨indices, hcollect, hfold⟩ := ih (i + 1) toRemove promoted (kept ++ [e]) hlength
        refine ⟨indices, ?_, ?_⟩
        · have hnot : ¬(!isPredecessor e.2) = true := by
            rw [he]
            exact Bool.false_ne_true
          rw [hcollect, List.filter_cons, if_neg hnot]
        · rw [List.filter_cons, if_pos he]
          simpa using hfold
      · rw [if_neg he]
        have hlength : i + 1 = kept.length + (toRemove ++ [i - toRemove.length]).length := by
          rw [List.length_append, List.length_singleton]
          omega
        obtain ⟨indices, hcollect, hfold⟩ := ih (i + 1) (toRemove ++ [i - toRemove.length])
          (promoted ++ [e]) kept hlength
        -- earlier erasures have moved the entry down
        have hindex : i - toRemove.length = kept.length := by omega
        refine ⟨kept.length :: indices, ?_, ?_⟩
        · have hnot : (!isPredecessor e.2) = true := by
            rw [Bool.not_eq_true', Bool.eq_false_iff]
            exact he
          rw [hcollect, List.filter_cons, if_pos hnot, hindex]
          simp
        · rw [List.filter_cons, if_neg he, List.foldl_cons, ← hfold]
          congr 1
          rw [List.eraseIdx_append_of_length_le (Nat.le_refl _), Nat.sub_self]
          rfl

/-- Where each phi has an entry to promote, no phi is left out. -/
theorem promotePHIs_eq {isPredecessor : ℕ → Bool} {moved : ℕ → Bool} {dest : ℕ}
    {phis : List (Phi X V)}
    (hmoved : ∀ phi ∈ phis, ∀ e ∈ phi.incoming, isPredecessor e.2 = !moved e.2)
    (hsome : ∀ phi ∈ phis, phi.movedEntries moved ≠ []) :
    promotePHIs isPredecessor dest phis
      = (phis.map (Phi.split moved dest), promotedPhis moved dest phis) := by
  induction phis with
  | nil => rfl
  | cons phi phis ih =>
      have hrest := ih (fun phi hphi => hmoved phi (List.mem_cons_of_mem _ hphi))
        (fun phi hphi => hsome phi (List.mem_cons_of_mem _ hphi))
      obtain ⟨indices, hcollect, hfold⟩ := collectIncoming_eq isPredecessor phi.incoming 0 [] [] []
        rfl
      have hhead := hmoved phi List.mem_cons_self
      have hpromoted : (phi.incoming.filter fun e => !isPredecessor e.2)
          = phi.movedEntries moved := by
        refine List.filter_congr fun e he => ?_
        rw [hhead e he, Bool.not_not]
      have hkept : (phi.incoming.filter fun e => isPredecessor e.2) = phi.keptEntries moved :=
        List.filter_congr fun e he => hhead e he
      rw [List.nil_append, hkept, List.nil_append] at hfold
      rw [hpromoted, List.nil_append, List.nil_append] at hcollect
      have hne : ¬(phi.movedEntries moved).length = 0 := fun hlength =>
        hsome phi List.mem_cons_self (List.length_eq_zero_iff.mp hlength)
      unfold promotePHIs
      rw [hcollect]
      simp only [if_neg hne, hfold, hrest]
      rw [List.map_cons]
      unfold Phi.split
      split
      · next e he =>
          -- a single entry: the new block needs no phi
          have hpiped : phi.piped moved dest = e.1 := by
            unfold Phi.piped
            rw [he]
          rw [promotedPhis_cons_of_single he, hpiped]
      · next hmany =>
          have hlength : (phi.movedEntries moved).length ≠ 1 := by
            intro hone
            obtain ⟨e, he⟩ := List.length_eq_one_iff.mp hone
            exact hmany e he
          have hpiped : phi.piped moved dest = .name (.promoted phi.name dest) := by
            unfold Phi.piped
            split
            · next e he => exact absurd he (hmany e)
            · rfl
          rw [promotedPhis_cons_of_many hlength, hpiped]
          rfl

/-! ## §3. Redirected edges. -/

/-- A predecessor is a block with an edge. -/
theorem mem_preds {F : Function X V M} {p b : ℕ} :
    p ∈ F.preds b ↔ p < F.count ∧ b ∈ F.successors p := by
  unfold Function.preds
  rw [List.mem_flatMap]
  constructor
  · rintro ⟨q, hq, hp⟩
    obtain ⟨s, hs, rfl⟩ := List.mem_map.mp hp
    rw [List.mem_filter, decide_eq_true_eq] at hs
    exact ⟨List.mem_range.mp hq, hs.2 ▸ hs.1⟩
  · rintro ⟨hp, hb⟩
    exact ⟨p, List.mem_range.mpr hp,
      List.mem_map.mpr ⟨b, List.mem_filter.mpr ⟨hb, decide_eq_true rfl⟩, rfl⟩⟩

/-- The block that was changed. -/
theorem modifyBlock_block_self (F : Function X V M) (b : ℕ)
    (f : BasicBlock X V M → BasicBlock X V M) :
    (F.modifyBlock b f).block b = f (F.block b) := Function.update_self ..

/-- Other blocks stay as they are. -/
theorem modifyBlock_block_of_ne (F : Function X V M) {b b' : ℕ} (h : b' ≠ b)
    (f : BasicBlock X V M → BasicBlock X V M) :
    (F.modifyBlock b f).block b' = F.block b' := Function.update_of_ne h ..

/-- A new block stands in front of `old`, and the `moved` blocks go on to it; the
phis are as they were. -/
structure Redirected [DecidableEq X] (F H : Function X V M) (old : ℕ) (moved : ℕ → Bool) :
    Prop where
  count : H.count = F.count + 1
  succ : ∀ p, H.successors p = (F.graph.split old moved).succ p
  phis_new : (H.block F.count).phis = []
  phis : ∀ b, b ≠ F.count → (H.block b).phis = (F.block b).phis
  body_new : ops (H.block F.count).insts = []
  body : ∀ b, b ≠ F.count → (H.block b).insts = (F.block b).insts

/-- **Promoting the phis finishes the split.** -/
theorem Redirected.promote [DecidableEq X] {F H : Function X V M} {old : ℕ} {moved : ℕ → Bool}
    (h : Redirected F H old moved) (hwf : F.graph.WellFormed) {p : ℕ} (hp : p < F.count)
    (hm : moved p = true) (hedge : old ∈ F.successors p) :
    (H.promotePHIsToOtherBlock old F.count).graph = F.graph.split old moved := by
  have hold : old < F.count := hwf.succ_lt p hp old hedge
  have hne : old ≠ F.count := Nat.ne_of_lt hold
  have hphis : promotePHIs (H.isPredecessor old) F.count (H.block old).phis
      = ((F.block old).phis.map (Phi.split moved F.count),
          promotedPhis moved F.count (F.block old).phis) := by
    rw [h.phis old hne]
    refine promotePHIs_eq (fun phi hphi e he => ?_) fun phi hphi hnone => ?_
    · -- the block of an entry is still a predecessor unless it is redirected
      have hlt : e.2 < F.count := hwf.entry_lt hold hphi he
      have hin : old ∈ F.successors e.2 := by
        have hcount := hwf.entries old hold phi hphi e.2
        rw [edges_of_lt hlt] at hcount
        rw [← List.count_pos_iff]
        show 0 < (F.graph.succ e.2).count old
        rw [← hcount]
        exact List.countP_pos_iff.mpr ⟨e, he, decide_eq_true rfl⟩
      have hiff : e.2 ∈ H.preds old ↔ ¬moved e.2 = true := by
        rw [mem_preds, h.count, h.succ, hwf.mem_split_succ hlt]
        constructor
        · rintro ⟨-, ⟨heq, -⟩ | ⟨-, hstay⟩⟩
          · exact absurd heq hne
          · exact fun hme => hstay ⟨rfl, hme⟩
        · intro hme
          exact ⟨Nat.lt_succ_of_lt hlt, .inr ⟨hin, fun hboth => hme hboth.2⟩⟩
      unfold Function.isPredecessor
      by_cases hme : moved e.2 = true
      · rw [hme, decide_eq_false fun hpred => hiff.mp hpred hme, Bool.not_true]
      · rw [Bool.eq_false_iff.mpr hme, decide_eq_true (hiff.mpr hme), Bool.not_false]
    · obtain ⟨e, he, hentry⟩ := hwf.exists_entry hp hedge hphi
      have hin : e ∈ phi.movedEntries moved :=
        List.mem_filter.mpr ⟨he, by rw [Phi.entry_block hentry]; exact hm⟩
      rw [hnone] at hin
      cases hin
  -- the phis are those of the split graph, the rest of a block is untouched
  have hblock : ∀ b, ((H.promotePHIsToOtherBlock old F.count).block b).phis
        = (F.graph.split old moved).phis b ∧
      ((H.promotePHIsToOtherBlock old F.count).block b).terminator = (H.block b).terminator ∧
      ((H.promotePHIsToOtherBlock old F.count).block b).insts = (H.block b).insts := by
    intro b
    unfold Function.promotePHIsToOtherBlock
    rw [hphis]
    by_cases hnew : b = F.count
    · subst hnew
      have hother : ((H.modifyBlock old fun bb =>
          { bb with phis := (F.block old).phis.map (Phi.split moved F.count) }).block F.count)
            = H.block F.count := Function.update_of_ne (Ne.symm hne) ..
      rw [modifyBlock_block_self, hother, h.phis_new, List.nil_append]
      exact ⟨(split_phis_new (G := F.graph)).symm, rfl, rfl⟩
    · rw [modifyBlock_block_of_ne _ hnew]
      by_cases hb : b = old
      · subst hb
        rw [modifyBlock_block_self]
        exact ⟨(split_phis_old (G := F.graph) hold).symm, rfl, rfl⟩
      · rw [modifyBlock_block_of_ne _ hb, h.phis b hnew]
        refine ⟨?_, rfl, rfl⟩
        show _ = if b = F.count then _ else if b = old then _ else _
        rw [if_neg hnew, if_neg hb]
        rfl
  -- so only the phis of the graph change
  have hgraph : (H.promotePHIsToOtherBlock old F.count).graph
      = ⟨H.count, H.successors, (F.graph.split old moved).phis, H.graph.body⟩ := by
    unfold Function.graph
    congr 1
    · funext b
      show ((H.promotePHIsToOtherBlock old F.count).block b).terminator.successors = _
      rw [(hblock b).2.1]
      rfl
    · funext b
      exact (hblock b).1
    · funext b
      show runInsts ((H.promotePHIsToOtherBlock old F.count).block b).insts = _
      rw [(hblock b).2.2]
  rw [hgraph]
  unfold Graph.split
  congr 1
  · exact h.count
  · funext p
    exact h.succ p
  · funext b
    by_cases hb : b = F.count
    · subst hb
      have hnone : H.graph.body F.count = id := by
        funext st
        show runInsts (H.block F.count).insts st = st
        rw [← runInsts_ops, h.body_new]
        rfl
      exact hnone.trans (if_pos rfl).symm
    · have hsame : H.graph.body b = F.graph.body b := by
        show runInsts (H.block b).insts = runInsts (F.block b).insts
        rw [h.body b hb]
      exact hsame.trans (if_neg hb).symm

/-! ## §4. The three uses. -/

/-- A branch that does not go to the old block stays. -/
theorem map_redirect_of_not_mem {old new : ℕ} {succs : List ℕ} (h : old ∉ succs) :
    succs.map (redirect old new) = succs := by
  refine (List.map_congr_left fun s hs => ?_).trans (List.map_id' succs)
  refine if_neg fun heq => h ?_
  rw [← heq]
  exact hs

/-- Redirecting twice is redirecting once. -/
theorem redirect_redirect {old new : ℕ} (hne : old ≠ new) (b : ℕ) :
    redirect old new (redirect old new b) = redirect old new b := by
  unfold redirect
  by_cases hb : b = old
  · rw [if_pos hb, if_neg (Ne.symm hne)]
  · rw [if_neg hb, if_neg hb]

/-- Redirecting twice is redirecting once. -/
theorem replaceUsesOfWith_twice {old new : ℕ} (hne : old ≠ new) (bb : BasicBlock X V M) :
    (bb.replaceUsesOfWith old new).replaceUsesOfWith old new = bb.replaceUsesOfWith old new := by
  have hlist : ∀ succs : List ℕ, (succs.map (redirect old new)).map (redirect old new)
      = succs.map (redirect old new) := by
    intro succs
    rw [List.map_map]
    exact List.map_congr_left fun b _ => redirect_redirect hne b
  unfold BasicBlock.replaceUsesOfWith
  congr 1
  show (bb.terminator.map (redirect old new)).map (redirect old new)
    = bb.terminator.map (redirect old new)
  cases bb.terminator <;> simp only [TerminatorInst.map, redirect_redirect hne, hlist]

/-- The successors after the replacement. -/
theorem replaceUsesOfWith_successors (old new : ℕ) (bb : BasicBlock X V M) :
    (bb.replaceUsesOfWith old new).terminator.successors
      = bb.terminator.successors.map (redirect old new) :=
  TerminatorInst.successors_map _ _

/-- The round for a predecessor redirects its jumps. -/
theorem replaceJumps_eq {F F' : Function X V M} {old new p : ℕ}
    (h : F.replaceJumps old new p = some F') :
    F' = F.modifyBlock p (.replaceUsesOfWith old new) := by
  unfold Function.replaceJumps at h
  split at h
  all_goals first
    | exact (Option.some.inj h).symm
    | cases h

/-- What the second loop of `replaceAllJumps` does. -/
theorem replaceJumps_loop {old new : ℕ} (hne : old ≠ new) {preds : List ℕ} {F F' : Function X V M}
    (h : preds.foldlM (Function.replaceJumps old new) F = some F') :
    F'.count = F.count ∧ F'.entryBlock = F.entryBlock ∧ ∀ b, F'.block b =
      if b ∈ preds then (F.block b).replaceUsesOfWith old new else F.block b := by
  induction preds generalizing F with
  | nil =>
      cases h
      exact ⟨rfl, rfl, fun b => (if_neg List.not_mem_nil).symm⟩
  | cons p preds ih =>
      rw [List.foldlM_cons] at h
      obtain ⟨F₁, h₁, h₂⟩ := Option.bind_eq_some_iff.mp h
      rw [replaceJumps_eq h₁] at h₂
      obtain ⟨hcount, hentry, hblock⟩ := ih h₂
      refine ⟨hcount, hentry, fun b => ?_⟩
      rw [hblock b]
      by_cases hb : b = p
      · subst hb
        rw [modifyBlock_block_self, if_pos List.mem_cons_self, replaceUsesOfWith_twice hne,
          ite_self]
      · rw [modifyBlock_block_of_ne F hb]
        have hmem : b ∈ preds ↔ b ∈ p :: preds :=
          ⟨List.mem_cons_of_mem p, fun h => (List.mem_cons.mp h).resolve_left hb⟩
        exact if_congr hmem rfl rfl

/-- Redirected edges, block by block. -/
theorem Redirected.of_blocks [DecidableEq X] {F H : Function X V M} {old : ℕ} {moved : ℕ → Bool}
    (hcount : H.count = F.count + 1) (hsucc : H.successors F.count = [old])
    (hphis : (H.block F.count).phis = []) (hbody : ops (H.block F.count).insts = [])
    (hblock : ∀ b, b ≠ F.count →
      H.block b = (F.block b).replaceUsesOfWith old F.count ∧ b < F.count ∧ moved b = true ∨
        H.block b = F.block b ∧ ¬(b < F.count ∧ moved b = true ∧ old ∈ F.successors b)) :
    Redirected F H old moved where
  count := hcount
  succ p := by
    show _ = if p = F.count then [old]
      else if p < F.count ∧ moved p = true then (F.successors p).map (redirect old F.count)
      else F.successors p
    by_cases hp : p = F.count
    · rw [if_pos hp, hp, hsucc]
    · rw [if_neg hp]
      unfold Function.successors
      rcases hblock p hp with ⟨heq, hmoved⟩ | ⟨heq, hstay⟩
      · rw [if_pos hmoved, heq, replaceUsesOfWith_successors]
      · rw [heq]
        by_cases hmoved : p < F.count ∧ moved p = true
        · -- the block is left alone, as it has no edge to redirect
          rw [if_pos hmoved]
          exact (map_redirect_of_not_mem fun hin => hstay ⟨hmoved.1, hmoved.2, hin⟩).symm
        · rw [if_neg hmoved]
  phis_new := hphis
  phis b hb := by
    rcases hblock b hb with ⟨heq, -⟩ | ⟨heq, -⟩
    · rw [heq]
      rfl
    · rw [heq]
  body_new := hbody
  body b hb := by
    rcases hblock b hb with ⟨heq, -⟩ | ⟨heq, -⟩
    · rw [heq]
      rfl
    · rw [heq]

/-- A new block is empty. -/
theorem createBlock_block_self (F : Function X V M) :
    F.createBlock.block F.count = ⟨[], [], .ret⟩ := Function.update_self ..

/-- It leaves the others alone. -/
theorem createBlock_block_of_ne (F : Function X V M) {b : ℕ} (h : b ≠ F.count) :
    F.createBlock.block b = F.block b := Function.update_of_ne h ..

/-- Two changes of one block are one. -/
theorem modifyBlock_twice (F : Function X V M) (b : ℕ)
    (f g : BasicBlock X V M → BasicBlock X V M) :
    (F.modifyBlock b f).modifyBlock b g = F.modifyBlock b fun bb => g (f bb) := by
  unfold Function.modifyBlock
  simp only [Function.update_self, Function.update_idem]

/-- The new block after some changes. -/
theorem createBlock_modifyBlock (F : Function X V M) (f : BasicBlock X V M → BasicBlock X V M) :
    F.createBlock.modifyBlock F.count f
      = ⟨F.count + 1, F.entryBlock, Function.update F.block F.count (f ⟨[], [], .ret⟩)⟩ := by
  unfold Function.modifyBlock Function.createBlock
  simp only [Function.update_self, Function.update_idem]

/-- **The preheader** stands in front of the header; blocks outside the loop go on
to it. -/
theorem redirectToPreheader_graph [DecidableEq X] {F F' : Function X V M} {loop : Loop}
    (hwf : F.graph.WellFormed) (h : F.redirectToPreheader loop = some F') {p : ℕ}
    (hp : p < F.count) (hout : p ∉ loop.blocks) (hedge : loop.header ∈ F.successors p) :
    F'.graph = F.graph.split loop.header fun p => decide (p ∉ loop.blocks) := by
  unfold Function.redirectToPreheader at h
  obtain ⟨F₁, h₁, h₂⟩ := Option.bind_eq_some_iff.mp h
  cases h₂
  have hne : loop.header ≠ F.count := Nat.ne_of_lt (hwf.succ_lt p hp _ hedge)
  obtain ⟨hcount, -, hblock⟩ := replaceJumps_loop hne h₁
  -- the new block has no successor yet, so it is none of the predecessors
  have hmem : ∀ b, b ≠ F.count → (b ∈ (F.createBlock.preds loop.header).filter (fun pred =>
      (!false && !decide (pred ∈ loop.blocks)) || (false && decide (pred ∈ loop.blocks))) ↔
      b < F.count ∧ b ∉ loop.blocks ∧ loop.header ∈ F.successors b) := by
    intro b hb
    rw [List.mem_filter, mem_preds]
    have hsucc : F.createBlock.successors b = F.successors b := by
      unfold Function.successors
      rw [createBlock_block_of_ne F hb]
    rw [hsucc]
    show (b < F.count + 1 ∧ _) ∧ _ ↔ _
    simp only [Bool.not_false, Bool.true_and, Bool.false_and, Bool.or_false, Bool.not_eq_true',
      decide_eq_false_iff_not]
    constructor
    · rintro ⟨⟨hlt, hin⟩, hout⟩
      exact ⟨by omega, hout, hin⟩
    · rintro ⟨hlt, hout, hin⟩
      exact ⟨⟨by omega, hin⟩, hout⟩
  have hself : F₁.block F.count = ⟨[], [], .ret⟩ := by
    rw [hblock, createBlock_block_self, if_neg]
    intro hin
    have hsucc := (mem_preds.mp (List.mem_filter.mp hin).1).2
    unfold Function.successors at hsucc
    rw [createBlock_block_self] at hsucc
    cases hsucc
  have hredirected : Redirected F (F₁.createBr loop.header F.count) loop.header
      fun p => decide (p ∉ loop.blocks) := by
    refine Redirected.of_blocks hcount ?_ ?_ ?_ fun b hb => ?_
    · unfold Function.successors Function.createBr
      rw [modifyBlock_block_self]
      rfl
    · unfold Function.createBr
      rw [modifyBlock_block_self, hself]
    · unfold Function.createBr
      rw [modifyBlock_block_self, hself]
      rfl
    · unfold Function.createBr
      rw [modifyBlock_block_of_ne _ hb, hblock, createBlock_block_of_ne F hb]
      split
      · next hin =>
        obtain ⟨hlt, hout, -⟩ := (hmem b hb).mp hin
        exact .inl ⟨rfl, hlt, decide_eq_true hout⟩
      · next hin =>
        refine .inr ⟨rfl, fun hboth => hin ((hmem b hb).mpr ?_)⟩
        exact ⟨hboth.1, of_decide_eq_true hboth.2.1, hboth.2.2⟩
  exact hredirected.promote hwf hp (decide_eq_true hout) hedge

/-- **A pre-exit block** stands in front of a target; the exiting block goes on to
it. -/
theorem redirectToPreExit_graph [DecidableEq X] {F : Function X V M} {options : Options}
    {loop : LoopRegions} {exiting target : ℕ} (hwf : F.graph.WellFormed) (hp : exiting < F.count)
    (hedge : target ∈ F.successors exiting) :
    (F.redirectToPreExit options loop exiting target).graph
      = F.graph.split target fun p => decide (p = exiting) := by
  have hne : exiting ≠ F.count := Nat.ne_of_lt hp
  -- the new block with its calls
  have hcalls : ∃ bb : BasicBlock X V M, bb.phis = [] ∧ ops bb.insts = [] ∧
      bb.terminator = .br target ∧
      F.redirectToPreExit options loop exiting target =
        ((⟨F.count + 1, F.entryBlock, Function.update F.block F.count bb⟩ :
          Function X V M).modifyBlock exiting
            (.replaceUsesOfWith target F.count)).promotePHIsToOtherBlock target F.count := by
    unfold Function.redirectToPreExit Function.createBr
    dsimp only
    rw [createBlock_modifyBlock]
    split_ifs
    · refine ⟨⟨[], [.call .exitRegion loop.bodyRegionId .loopBody,
        .call .exitRegion loop.regionId .loop], .br target⟩, rfl, rfl, rfl, ?_⟩
      rw [modifyBlock_twice]
      unfold Function.modifyBlock
      simp only [Function.update_self, Function.update_idem]
      rfl
    · refine ⟨⟨[], [.call .exitRegion loop.regionId .loop], .br target⟩, rfl, rfl, rfl, ?_⟩
      unfold Function.modifyBlock
      simp only [Function.update_self, Function.update_idem]
      rfl
  obtain ⟨bb, hphis, hbody, hterm, heq⟩ := hcalls
  rw [heq]
  refine Redirected.promote ?_ hwf hp (decide_eq_true rfl) hedge
  refine Redirected.of_blocks rfl ?_ ?_ ?_ fun b hb => ?_
  · unfold Function.successors
    rw [modifyBlock_block_of_ne _ (Ne.symm hne)]
    show (Function.update F.block F.count bb F.count).terminator.successors = _
    rw [Function.update_self, hterm]
    rfl
  · rw [modifyBlock_block_of_ne _ (Ne.symm hne)]
    show (Function.update F.block F.count bb F.count).phis = _
    rw [Function.update_self, hphis]
  · rw [modifyBlock_block_of_ne _ (Ne.symm hne)]
    show ops (Function.update F.block F.count bb F.count).insts = _
    rw [Function.update_self, hbody]
  · by_cases hbe : b = exiting
    · subst hbe
      rw [modifyBlock_block_self]
      show BasicBlock.replaceUsesOfWith _ _ (Function.update F.block F.count bb b) = _ ∧ _ ∨ _
      rw [Function.update_of_ne hb]
      exact .inl ⟨rfl, hp, decide_eq_true rfl⟩
    · rw [modifyBlock_block_of_ne _ hbe]
      refine .inr ⟨Function.update_of_ne hb .., fun hboth => hbe ?_⟩
      exact of_decide_eq_true hboth.2.1

/-- **The block for the edges back** stands in front of the header; the blocks of
the loop go on to it. -/
theorem redirectToCont_graph [DecidableEq X] {F F' : Function X V M} {loop : LoopRegions}
    (hwf : F.graph.WellFormed) (h : F.redirectToCont loop = some F')
    (hlt : ∀ b ∈ loop.blocks, b < F.count) {p : ℕ} (hin : p ∈ loop.blocks)
    (hedge : loop.header ∈ F.successors p) :
    F'.graph = F.graph.split loop.header fun p => decide (p ∈ loop.blocks) := by
  have hp := hlt p hin
  have hne : loop.header ≠ F.count := Nat.ne_of_lt (hwf.succ_lt p hp _ hedge)
  unfold Function.redirectToCont Function.createBr at h
  dsimp only at h
  rw [createBlock_modifyBlock] at h
  obtain ⟨F₁, h₁, h₂⟩ := Option.bind_eq_some_iff.mp h
  cases h₂
  obtain ⟨hcount, -, hblock⟩ := replaceJumps_loop hne h₁
  have hnotin : F.count ∉ loop.blocks := fun hmem => Nat.lt_irrefl _ (hlt _ hmem)
  -- the new block is not one of the loop's, so its own branch stays
  have hself : F₁.block F.count
      = ⟨[], [.call .exitRegion loop.bodyRegionId .loopBody], .br loop.header⟩ := by
    rw [hblock, if_neg, modifyBlock_block_self]
    · show BasicBlock.insertLast _ (Function.update F.block F.count _ F.count) = _
      rw [Function.update_self]
      rfl
    · intro hmem
      have hkeep := (List.mem_filter.mp hmem).2
      rw [decide_eq_false hnotin] at hkeep
      cases hkeep
  refine Redirected.promote ?_ hwf hp (decide_eq_true hin) hedge
  refine Redirected.of_blocks hcount ?_ ?_ ?_ fun b hb => ?_
  · unfold Function.successors
    rw [hself]
    rfl
  · rw [hself]
  · rw [hself]
    rfl
  · have hold : (Function.modifyBlock (⟨F.count + 1, F.entryBlock, Function.update F.block F.count
        ⟨[], [], .br loop.header⟩⟩ : Function X V M) F.count (.insertLast
          (.call .exitRegion loop.bodyRegionId .loopBody))).block b = F.block b := by
      rw [modifyBlock_block_of_ne _ hb]
      exact Function.update_of_ne hb ..
    rw [hblock b]
    split
    · next hmem =>
      rw [List.mem_filter, mem_preds] at hmem
      have hbin : b ∈ loop.blocks := by simpa using hmem.2
      refine .inl ⟨congrArg _ hold, hlt b hbin, decide_eq_true hbin⟩
    · next hmem =>
      refine .inr ⟨hold, fun hboth => hmem ?_⟩
      rw [List.mem_filter, mem_preds]
      have hbin : b ∈ loop.blocks := of_decide_eq_true hboth.2.1
      refine ⟨⟨Nat.lt_succ_of_lt hboth.1, ?_⟩, by simpa using hbin⟩
      unfold Function.successors
      rw [hold]
      exact hboth.2.2

end Kremlin.Instrument.RegionInstrument
