/-
  Kremlin.Instrument.ChainDepth — what breaking a chain is for.

  In a chain of `n` instructions each waits for the one before it.  The tree in its
  place is built in rounds that halve the number of values, so its result waits for
  at most `Nat.clog 2 n` instructions, one after another, behind the latest input.

  Main results:
    * `combine_depth` — the tree that is built of some values;
    * `chain_depth_logarithmic` — every chain that the pass breaks, before and after.
-/
import Mathlib.Data.List.MinMax
import Mathlib.Data.Nat.Log
import Kremlin.Instrument.ChainDiscovery

namespace Kremlin.Instrument.AssociativeDependenceBreak

open Kremlin.Library Kremlin.Library.StraightLine

variable {E : Type} {opcode : Opcode}

/-! ## §1. Depths. -/

/-- Depths for values: an instruction comes one step behind the last of its operands.
What comes into the block, and so a phi, is there at the start. -/
def depths (E : Type) : Interp Op E ℕ Unit where
  ext _ := 0
  step _ op args mem := (if reads op then args.foldr max 0 + 1 else 0, mem)

/-- An instruction that reads its operands, at the end. -/
theorem depths_eq {known : Set ℕ} {insts : List (Instruction E)} (h : Defined reads known insts)
    (s : State ℕ Unit) {i : Instruction E} (hi : i ∈ insts) (hreads : reads i.op = true) :
    (execAll (depths E) insts s).env i.id =
      (i.operands.map (Operand.eval (depths E) (execAll (depths E) insts s))).foldr max 0 + 1 := by
  refine h.value (depths E) s hi hreads
    (f := fun args => args.foldr max 0 + 1) fun args mem => ?_
  show ((if reads i.op then args.foldr max 0 + 1 else 0), mem) = _
  rw [if_pos hreads]

/-- Depths are a meaning of the instructions that the pass may rewrite. -/
theorem quiet_depths (BB : BasicBlock E) (dead : List ℕ) (new : List (Instruction E)) :
    Rewriting.Quiet (depths E) reads BB dead new where
  phi id op args args' mem hreads := by
    show ((if reads op then _ else 0), mem) = ((if reads op then _ else 0), mem)
    rw [hreads]
    rfl
  dead_pure i _ _ := ⟨fun args => if reads i.op then args.foldr max 0 + 1 else 0, fun _ _ => rfl⟩
  new_pure i _ := ⟨fun args => if reads i.op then args.foldr max 0 + 1 else 0, fun _ _ => rfl⟩

/-! ## §2. The tree. -/

/-- The pairs read the values they are made of. -/
theorem operands_pairUp (opcode : Opcode) : ∀ (xs : List (Operand E)) (next : ℕ),
    ∀ i ∈ (pairUp opcode next xs).2, ∀ v ∈ i.operands, v ∈ xs
  | [], next, i, hi, v, hv => by cases hi
  | [x], next, i, hi, v, hv => by cases hi
  | x :: y :: xs, next, i, hi, v, hv => by
      rcases List.mem_cons.mp hi with rfl | hi
      · rcases List.mem_cons.mp hv with rfl | hv
        · exact List.mem_cons_self
        · rw [List.mem_singleton.mp hv]
          exact List.mem_cons_of_mem _ List.mem_cons_self
      · have hrest := operands_pairUp opcode xs (next + 1) i hi v hv
        exact List.mem_cons_of_mem _ (List.mem_cons_of_mem _ hrest)

/-- **A round is one step.** -/
theorem pairUp_depth (hassoc : opcode.isAssociative = true) {xs : List (Operand E)} {next : ℕ}
    {known : Set ℕ} (heven : xs.length % 2 = 0) (hxs : Known known xs)
    (hlt : ∀ x ∈ known, x < next) (s : State ℕ Unit) {bound : ℕ}
    (hbound : ∀ v ∈ xs, v.eval (depths E) s ≤ bound) :
    ∀ v ∈ (pairUp opcode next xs).1,
      v.eval (depths E) (execAll (depths E) (pairUp opcode next xs).2 s) ≤ bound + 1 := by
  obtain ⟨hbuilt, -, hnames, -⟩ := pairUp_built hassoc xs next known heven hxs hlt
  intro v hv
  obtain ⟨x, ⟨i, hi, rfl⟩, rfl⟩ := hnames v hv
  have hreads : reads i.op = true := reads_of_isAssociative (by rw [hbuilt.op i hi]; exact hassoc)
  have hkeep := hbuilt.eval_map hxs (depths E) s
  show (execAll (depths E) _ s).env i.id ≤ _
  rw [depths_eq hbuilt.defined s hi hreads]
  refine Nat.succ_le_succ (List.max_le_of_forall_le _ _ fun d hd => ?_)
  obtain ⟨w, hw, rfl⟩ := List.mem_map.mp hd
  have hmem := operands_pairUp opcode xs next i hi w hw
  rw [List.map_inj_left.mp hkeep w hmem]
  exact hbound w hmem

/-- **The tree is as deep as its inputs can be halved**, by induction on the rounds. -/
theorem combine_depth (hassoc : opcode.isAssociative = true) :
    ∀ (fuel : ℕ) (xs : List (Operand E)) (next : ℕ) (known : Set ℕ) (res : Operand E)
      (insts : List (Instruction E)), xs ≠ [] → Known known xs → (∀ x ∈ known, x < next) →
      combine opcode fuel next xs = some (res, insts) →
      ∀ (s : State ℕ Unit) (bound : ℕ), (∀ v ∈ xs, v.eval (depths E) s ≤ bound) →
        res.eval (depths E) (execAll (depths E) insts s) ≤ bound + Nat.clog 2 xs.length := by
  intro fuel
  induction fuel with
  | zero =>
      intro xs next known res insts _ _ _ hcombine
      cases hcombine
  | succ fuel ih =>
      intro xs next known res insts hne hxs hlt hcombine s bound hbound
      by_cases hone : xs.length = 1
      · obtain ⟨x, rfl⟩ := List.length_eq_one_iff.mp hone
        rw [combine_one, Option.some.injEq, Prod.mk.injEq] at hcombine
        obtain ⟨rfl, rfl⟩ := hcombine
        exact Nat.le_add_right_of_le (hbound _ (List.mem_singleton_self _))
      · rw [combine_many opcode fuel next hone, Option.bind_eq_some_iff] at hcombine
        obtain ⟨⟨res', more⟩, hrest, heq⟩ := hcombine
        dsimp only at heq
        rw [Option.some.injEq, Prod.mk.injEq] at heq
        obtain ⟨rfl, rfl⟩ := heq
        have hperm := oddFront_perm xs
        have hpos : 0 < xs.length := List.length_pos_iff.mpr hne
        have hsum := length_oddFront xs
        have heven := oddFront_even xs
        have hfrontLen := length_oddFront_front xs
        have hfrontMem : ∀ v ∈ (oddFront xs).1, v ∈ xs := fun v hv =>
          hperm.mem_iff.mp (List.mem_append_left _ hv)
        have hrestMem : ∀ v ∈ (oddFront xs).2, v ∈ xs := fun v hv =>
          hperm.mem_iff.mp (List.mem_append_right _ hv)
        have hrestKnown : Known known (oddFront xs).2 := fun x hx => hxs x (hrestMem _ hx)
        have hfrontKnown : Known known (oddFront xs).1 := fun x hx => hxs x (hfrontMem _ hx)
        obtain ⟨hbuilt, -, hnames, -⟩ :=
          pairUp_built hassoc (oddFront xs).2 next known heven hrestKnown hlt
        have hlength := length_pairUp opcode (oddFront xs).2 next heven
        -- the values of the next round, half as many and one step later
        have hhalf : ((oddFront xs).1 ++ (pairUp opcode next (oddFront xs).2).1).length =
            (xs.length + 2 - 1) / 2 := by
          rw [List.length_append, hlength]
          omega
        have hnext : ∀ v ∈ (oddFront xs).1 ++ (pairUp opcode next (oddFront xs).2).1,
            v.eval (depths E) (execAll (depths E) (pairUp opcode next (oddFront xs).2).2 s)
              ≤ bound + 1 := by
          intro v hv
          rcases List.mem_append.mp hv with hv | hv
          · rw [List.map_inj_left.mp (hbuilt.eval_map hfrontKnown (depths E) s) v hv]
            exact Nat.le_succ_of_le (hbound v (hfrontMem v hv))
          · exact pairUp_depth hassoc heven hrestKnown hlt s (fun v hv => hbound v (hrestMem v hv)) v hv
        have hknown : Known (known ∪ ids (pairUp opcode next (oddFront xs).2).2)
            ((oddFront xs).1 ++ (pairUp opcode next (oddFront xs).2).1) := by
          intro x hx
          rcases List.mem_append.mp hx with hx | hx
          · exact .inl (hfrontKnown x hx)
          · obtain ⟨n, hn, heq⟩ := hnames _ hx
            cases heq
            exact .inr hn
        have hlt' : ∀ x ∈ known ∪ ids (pairUp opcode next (oddFront xs).2).2,
            x < next + (pairUp opcode next (oddFront xs).2).2.length := by
          rintro x (hx | ⟨i, hi, rfl⟩)
          · exact Nat.lt_add_right _ (hlt x hx)
          · exact (hbuilt.fresh i hi).2
        have hdeep := ih _ _ _ res' more (fun hnil => by
          rw [hnil, List.length_nil] at hhalf
          omega) hknown hlt' hrest _ (bound + 1) hnext
        rw [execAll_append, Nat.clog_of_two_le (by decide) (by omega)]
        rw [hhalf] at hdeep
        omega

/-! ## §3. Chains. -/

section Chains

variable [DecidableEq E] {BB : BasicBlock E} {front : ℕ} {chain : List ℕ}
  {pre post new : List (Instruction E)} {last : Instruction E} {inputs : List (Operand E)}
  {res : ℕ}

omit [DecidableEq E] in
/-- **In a chain each instruction waits for the one before it.** -/
theorem depth_chain (hBB : BB.WellFormed reads) (hassoc : opcode.isAssociative = true)
    (hlinks : (front :: chain).IsChain (Link BB opcode)) (s : State ℕ Unit) :
    (execAll (depths E) BB.insts s).env front + chain.length ≤
      (execAll (depths E) BB.insts s).env
        ((front :: chain).getLast (List.cons_ne_nil front chain)) := by
  induction chain generalizing front with
  | nil => exact Nat.le_refl _
  | cons next chain ih =>
      obtain ⟨hlink, hrest⟩ := List.isChain_cons_cons.mp hlinks
      have hchain := ih hrest
      obtain ⟨i, hi, rfl, hop, z, -, hoperands⟩ := hlink.user
      have hmem : .inst front ∈ i.operands := by
        rcases hoperands with hoperands | hoperands
        · rw [hoperands]
          exact List.mem_cons_self
        · rw [hoperands]
          exact List.mem_cons_of_mem _ List.mem_cons_self
      have hstep : (execAll (depths E) BB.insts s).env front + 1 ≤
          (execAll (depths E) BB.insts s).env i.id := by
        rw [depths_eq hBB.defined s hi (reads_of_isAssociative (hop ▸ hassoc))]
        exact Nat.succ_le_succ (List.le_max_of_le (List.mem_map_of_mem hmem) (Nat.le_refl _))
      rw [List.getLast_cons (List.cons_ne_nil i.id chain), List.length_cons]
      omega

/-- What comes into a chain is as deep in front of the tree as it was at the end. -/
theorem Ends.depth_inputs (ends : Ends BB opcode front chain pre post last inputs)
    (t : Tree BB opcode front chain pre post last inputs new res) (hBB : BB.WellFormed reads)
    (s : State ℕ Unit) {v : Operand E} (hv : v ∈ (.inst front :: inputs : List (Operand E))) :
    v.eval (depths E) (execAll (depths E) (Rewriting.left last chain res pre) s) =
      v.eval (depths E) (execAll (depths E) BB.insts s) := by
  cases v with
  | ext e => rfl
  | inst x =>
      obtain ⟨hx, hdead⟩ := ends.known x hv
      have hoff := t.rewriting.simulates_pre hBB (quiet_depths BB chain new) (fun _ hi => hi)
        (⟨fun _ _ => rfl, rfl⟩ : Off {x | x ∈ chain} s s)
      have hdefined := hBB.defined
      rw [ends.insts] at hdefined
      have hkeep := (defined_append.mp hdefined).2.keeps (depths E) (execAll (depths E) pre s)
        (Or.inr hx)
      show (execAll (depths E) _ s).env x = (execAll (depths E) BB.insts s).env x
      rw [ends.insts, execAll_append, hkeep]
      exact (hoff.env x hdead).symm

/-- **The tree of a chain** is as many steps deep as its length can be halved. -/
theorem Tree.depth_le (t : Tree BB opcode front chain pre post last inputs new res)
    (ends : Ends BB opcode front chain pre post last inputs) (h : ChainOk BB opcode front chain)
    (hBB : BB.WellFormed reads) (s : State ℕ Unit) {bound : ℕ}
    (hbound : ∀ v ∈ (.inst front :: inputs : List (Operand E)),
      v.eval (depths E) (execAll (depths E) BB.insts s) ≤ bound) :
    (execAll (depths E)
      (BB.rewrite pre post last chain new res (BB.next + new.length)).insts s).env res ≤
        bound + Nat.clog 2 (chain.length + 1) := by
  let known : Set ℕ := {x | .inst x ∈ (.inst front :: inputs : List (Operand E))}
  have hknown : Known known (.inst front :: inputs) := fun x hx => hx
  have hdeep := combine_depth h.isAssociative (chain.length + 1) (.inst front :: inputs) BB.next
    known (.inst res) new (List.cons_ne_nil _ _) hknown
    (fun x hx => ends.lt hBB (ends.known x hx).1) t.combine_eq
    (execAll (depths E) (Rewriting.left last chain res pre) s) bound fun v hv => by
      rw [ends.depth_inputs t hBB s hv]
      exact hbound v hv
  rw [List.length_cons, ends.length] at hdeep
  -- the instructions behind the tree do not change its result
  have hdefined := (t.rewriting.wellFormed hBB).defined
  rw [t.rewriting.rewrite_insts, t.rewriting.left_new hBB] at hdefined ⊢
  have hres : res ∈ (∅ : Set ℕ) ∪ ids (Rewriting.left last chain res pre ++ new) := by
    rw [ids_append]
    exact .inr (.inr t.rewriting.res_mem)
  rw [execAll_append, (defined_append.mp hdefined).2.keeps (depths E) _ hres, execAll_append]
  exact hdeep

/-- A chain and the tree in its place: who read the chain's last instruction reads `res`,
which is `Nat.clog 2` of the chain's length behind the latest input. -/
structure Flattened (BB BB' : BasicBlock E) (front : ℕ) (chain : List ℕ)
    (inputs : List (Operand E)) (last res : ℕ) : Prop where
  inputs_eq : externalInputs BB front chain = some inputs
  back : chain.getLast? = some last
  users : ∀ i ∈ BB.insts, i.id ∉ chain → i.replace last (.inst res) ∈ BB'.insts
  outside : BB'.outside = BB.outside.map (Operand.replace last (.inst res))
  chain_depth : ∀ s : State ℕ Unit, (execAll (depths E) BB.insts s).env front + chain.length ≤
    (execAll (depths E) BB.insts s).env last
  tree_depth : ∀ (s : State ℕ Unit) (bound : ℕ),
    (∀ v ∈ (.inst front :: inputs : List (Operand E)),
      v.eval (depths E) (execAll (depths E) BB.insts s) ≤ bound) →
    (execAll (depths E) BB'.insts s).env res ≤ bound + Nat.clog 2 (chain.length + 1)

/-- The tree replaces a chain by something at most logarithmic in its depth. -/
theorem Tree.flattened (t : Tree BB opcode front chain pre post last inputs new res)
    (ends : Ends BB opcode front chain pre post last inputs) (h : ChainOk BB opcode front chain)
    (hBB : BB.WellFormed reads) :
    Flattened BB (BB.rewrite pre post last chain new res (BB.next + new.length)) front chain inputs
      last.id res := by
  refine ⟨ends.inputs_eq, ends.back, fun i hi hid => t.mem_left hi hid, rfl, fun s => ?_,
    fun s bound => t.depth_le ends h hBB s⟩
  have hdeep := depth_chain hBB h.isAssociative h.links s
  have hend : (front :: chain).getLast (List.cons_ne_nil front chain) = last.id := by
    have hget := List.getLast?_eq_some_getLast h.ne_nil
    rw [ends.back, Option.some.injEq] at hget
    rw [List.getLast_cons h.ne_nil, ← hget]
  rwa [hend] at hdeep

/-- The chain `c` is broken, and flattened by that. -/
def Flattens (BB : BasicBlock E) (c : List ℕ) : Prop :=
  ∃ front chain inputs last res BB', c = front :: chain ∧ breakChain BB c = some BB' ∧
    Flattened BB BB' front chain inputs last res

/-- One chain after another. -/
theorem breakChains_flatten : ∀ (chains : List (List ℕ)) (BB : BasicBlock E),
    BB.WellFormed reads → (∀ c ∈ chains, Breakable BB c) → chains.Pairwise List.Disjoint →
      RunOk breakChain Flattens BB chains
  | [], _, _, _, _ => trivial
  | c :: chains, BB, hBB, hall, hpair => by
      obtain ⟨hdisjoint, hrest⟩ := List.pairwise_cons.mp hpair
      obtain ⟨opcode, front, chain, rfl, h⟩ := hall c List.mem_cons_self
      obtain ⟨pre, post, last, inputs, ends⟩ := h.exists_ends hBB
      obtain ⟨new, res, t⟩ := ends.exists_tree h hBB
      have hbreak := t.breakChain_eq h hBB
      refine ⟨⟨front, chain, inputs, last.id, res, _, rfl, hbreak, t.flattened ends h hBB⟩,
        fun BB' hBB' => ?_⟩
      obtain rfl := Option.some.inj (hbreak.symm.trans hBB')
      exact breakChains_flatten chains _ (t.keeps h hBB).wellFormed
        (fun c hc => t.breakable hBB (hdisjoint c hc) (hall c (List.mem_cons_of_mem _ hc))) hrest

/-- **What the pass is for.**  Wherever it keeps the values, every chain it breaks had its last
instruction wait for all of the chain, one after another; what takes its place waits for at
most `Nat.clog 2` of the chain's length behind the latest of the chain's inputs. -/
theorem chain_depth_logarithmic {byAddress : List (List ℕ) → List (List ℕ)}
    (hperm : ∀ chains, (byAddress chains).Perm chains) (hBB : BB.WellFormed reads)
    (hbin : BinaryOperators BB) (hcombs : Combs BB) :
    ∃ chains BB', findChains BB = some chains ∧ runOnBasicBlock byAddress BB = some BB' ∧
      Keeps BB BB' ∧ RunOk breakChain Flattens BB (byAddress chains) := by
  obtain ⟨chains, hfound, -, hpair, hbreak⟩ := hcombs.breakable hperm hBB hbin
  obtain ⟨BB', hrun, hkeeps⟩ := breakChains_keeps (byAddress chains) BB hBB hbreak hpair
  refine ⟨chains, BB', hfound, ?_, hkeeps,
    breakChains_flatten (byAddress chains) BB hBB hbreak hpair⟩
  unfold runOnBasicBlock
  rw [hfound]
  exact hrun

end Chains

/-- Four additions, one after another, become two rounds. -/
theorem chain_depth_sumOfFive :
    ∃ BB' res, runOnBasicBlock id sumOfFive = some BB' ∧ BB'.outside = [.inst res] ∧
      (execAll (depths ℕ) sumOfFive.insts ⟨fun _ => 0, ()⟩).env 3 = 4 ∧
      (execAll (depths ℕ) BB'.insts ⟨fun _ => 0, ()⟩).env res ≤ 3 := by
  have hfound : findChains sumOfFive = some [[0, 1, 2, 3]] := by decide +kernel
  obtain ⟨chains, BB', hchains, hrun, -, hok⟩ :=
    chain_depth_logarithmic (fun chains => List.Perm.refl chains) sumOfFive_wellFormed
      (by unfold BinaryOperators; decide) (by decide +kernel)
  obtain rfl := Option.some.inj (hfound.symm.trans hchains)
  obtain ⟨front, chain, inputs, last, res, BB₁, hc, hbreak, hflat⟩ := hok.1
  obtain ⟨rfl, rfl⟩ := List.cons.inj hc
  -- the chain is the only one, so breaking it is the whole run
  have hall : runOnBasicBlock id sumOfFive = some BB₁ := by
    unfold runOnBasicBlock
    rw [hfound]
    show (breakChain sumOfFive [0, 1, 2, 3]).bind _ = _
    rw [hbreak]
    rfl
  obtain rfl := Option.some.inj (hall.symm.trans hrun)
  have hinputs : externalInputs sumOfFive 0 [1, 2, 3] = some [.ext 2, .ext 3, .ext 4] := by
    decide +kernel
  obtain rfl := Option.some.inj (hinputs.symm.trans hflat.inputs_eq)
  obtain rfl : 3 = last := Option.some.inj hflat.back
  refine ⟨BB₁, res, hall, hflat.outside, rfl, hflat.tree_depth ⟨fun _ => 0, ()⟩ 1 ?_⟩
  decide +kernel

end Kremlin.Instrument.AssociativeDependenceBreak
