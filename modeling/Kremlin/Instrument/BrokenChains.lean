/-
  Kremlin.Instrument.BrokenChains — breaking a chain keeps the values.

  The tree that `breakChain` builds has the value of the chain's last instruction,
  for every associative and commutative meaning of the operator, and no instruction
  but the next one of the chain reads one that is erased.
-/
import Kremlin.Instrument.AssociativeDependenceBreak
import Kremlin.Library.PairwiseReduction
import Mathlib.Data.List.Chain

namespace Kremlin.Instrument.AssociativeDependenceBreak

open Kremlin.Library Kremlin.Library.StraightLine

variable {E : Type}

/-! ## §1. What instructions do. -/

/-- A meaning of the instructions: those that the pass may combine have no effect,
and are associative and commutative; a phi does not read its operands. -/
structure Semantics (E V M : Type) extends Interp Op E V M where
  value : Opcode → List V → V
  step_value : ∀ id (op : Op) args mem, op.opcode.isAssociative = true →
    step id op args mem = (value op.opcode args, mem)
  step_phi : ∀ id (op : Op) args args' mem, op.opcode = .phi →
    step id op args mem = step id op args' mem
  assoc : ∀ opcode : Opcode, opcode.isAssociative = true → ∀ a b c,
    value opcode [value opcode [a, b], c] = value opcode [a, value opcode [b, c]]
  comm : ∀ opcode : Opcode, opcode.isAssociative = true → ∀ a b,
    value opcode [a, b] = value opcode [b, a]

namespace Semantics

variable {V M : Type} (F : Semantics E V M) {opcode : Opcode}

/-- The operator on two values. -/
def bin (opcode : Opcode) (a b : V) : V := F.value opcode [a, b]

/-- The operators of chains are associative. -/
theorem associative (h : opcode.isAssociative = true) : Std.Associative (F.bin opcode) :=
  ⟨F.assoc opcode h⟩

/-- They are commutative. -/
theorem commutative (h : opcode.isAssociative = true) : Std.Commutative (F.bin opcode) :=
  ⟨F.comm opcode h⟩

/-- They have no effect on memory. -/
theorem isPure {i : Instruction E} (h : i.op.opcode.isAssociative = true) :
    Pure F.toInterp i (F.value i.op.opcode) := fun args mem => F.step_value i.id i.op args mem h

end Semantics

/-- They read their operands. -/
theorem reads_of_isAssociative {op : Op} (h : op.opcode.isAssociative = true) :
    reads op = true := by
  unfold reads
  refine decide_eq_true fun hphi => ?_
  rw [hphi] at h
  cases h

/-! ## §2. The tree. -/

/-- What is built of `xs`: new instructions in order, with numbers from `next` on. -/
structure Built (opcode : Opcode) (next : ℕ) (known : Set ℕ) (insts : List (Instruction E)) :
    Prop where
  defined : Defined reads known insts
  fresh : ∀ i ∈ insts, next ≤ i.id ∧ i.id < next + insts.length
  op : ∀ i ∈ insts, i.op = ⟨opcode, false⟩

/-- Nothing is built of no instructions. -/
theorem Built.nil (opcode : Opcode) (next : ℕ) (known : Set ℕ) :
    Built opcode next known ([] : List (Instruction E)) :=
  ⟨trivial, fun _ h => absurd h List.not_mem_nil, fun _ h => absurd h List.not_mem_nil⟩

/-- Building goes on behind what has been built. -/
theorem Built.append {opcode : Opcode} {next : ℕ} {known : Set ℕ}
    {insts more : List (Instruction E)} (h : Built opcode next known insts)
    (h' : Built opcode (next + insts.length) (known ∪ ids insts) more) :
    Built opcode next known (insts ++ more) where
  defined := defined_append.mpr ⟨h.defined, h'.defined⟩
  fresh i hi := by
    rw [List.length_append]
    rcases List.mem_append.mp hi with hi | hi
    · have hfresh := h.fresh i hi
      omega
    · have hfresh := h'.fresh i hi
      omega
  op i hi := (List.mem_append.mp hi).elim (h.op i) (h'.op i)

/-- The operands are known. -/
def Known (known : Set ℕ) (xs : List (Operand E)) : Prop := ∀ x, .inst x ∈ xs → x ∈ known

/-- Known names are below the new ones, so their values stay. -/
theorem Built.eval_map {V M : Type} {opcode : Opcode} {next : ℕ} {known : Set ℕ}
    {insts : List (Instruction E)} (h : Built opcode next known insts) {xs : List (Operand E)}
    (hxs : Known known xs) (F : Interp Op E V M) (s : State V M) :
    xs.map (Operand.eval F (execAll F insts s)) = xs.map (Operand.eval F s) := by
  refine List.map_congr_left fun v hv => ?_
  cases v with
  | ext e => rfl
  | inst x => exact h.defined.keeps F s (hxs x hv)

/-- One instruction for two values. -/
theorem length_pairUp (opcode : Opcode) : ∀ (xs : List (Operand E)) (next : ℕ),
    xs.length % 2 = 0 → (pairUp opcode next xs).1.length = xs.length / 2
  | [], next, _ => by simp [pairUp]
  | [x], next, heven => by cases heven
  | x :: y :: xs, next, heven => by
      rw [List.length_cons, List.length_cons] at heven
      have hrest := length_pairUp opcode xs (next + 1) (by omega)
      rw [pairUp]
      show (pairUp opcode (next + 1) xs).1.length + 1 = _
      rw [hrest, List.length_cons, List.length_cons]
      omega

/-- **A round builds the pairs.** -/
theorem pairUp_built {opcode : Opcode} (hassoc : opcode.isAssociative = true) :
    ∀ (xs : List (Operand E)) (next : ℕ) (known : Set ℕ), xs.length % 2 = 0 → Known known xs →
      (∀ x ∈ known, x < next) →
      Built opcode next known (pairUp opcode next xs).2 ∧
        (pairUp opcode next xs).2.length = xs.length / 2 ∧
        (∀ v ∈ (pairUp opcode next xs).1, ∃ x ∈ ids (pairUp opcode next xs).2, v = .inst x) ∧
        ∀ (V M : Type) (F : Semantics E V M) (s : State V M),
          (pairUp opcode next xs).1.map
              (Operand.eval F.toInterp (execAll F.toInterp (pairUp opcode next xs).2 s)) =
            pairs (F.bin opcode) (xs.map (Operand.eval F.toInterp s))
  | [], next, known, _, _, _ => by
      refine ⟨Built.nil opcode next known, by simp [pairUp],
        fun v hv => absurd hv List.not_mem_nil, ?_⟩
      intro V M F s
      simp [pairUp, pairs]
  | [x], next, known, heven, _, _ => by cases heven
  | x :: y :: xs, next, known, heven, hxs, hlt => by
      rw [List.length_cons, List.length_cons] at heven
      have hlt' : ∀ z ∈ insert next known, z < next + 1 := by
        intro z hz
        rcases Set.mem_insert_iff.mp hz with rfl | hz
        · exact Nat.lt_succ_self z
        · exact Nat.lt_succ_of_lt (hlt z hz)
      obtain ⟨hbuilt, hlength, hnames, hvalue⟩ := pairUp_built hassoc xs (next + 1)
        (insert next known) (by omega) (fun z hz => Set.mem_insert_of_mem _
          (hxs z (List.mem_cons_of_mem _ (List.mem_cons_of_mem _ hz)))) hlt'
      -- the first pair is one instruction, the others are built behind it
      have hfirst : Built opcode next known
          [(⟨next, ⟨opcode, false⟩, [x, y]⟩ : Instruction E)] := by
        refine ⟨⟨fun hin => Nat.lt_irrefl _ (hlt next hin), fun _ z hz => hxs z ?_, trivial⟩, ?_, ?_⟩
        · rcases List.mem_cons.mp hz with hz | hz
          · exact hz ▸ List.mem_cons_self
          · rw [List.mem_singleton.mp hz]
            exact List.mem_cons_of_mem _ List.mem_cons_self
        · intro i hi
          rw [List.mem_singleton.mp hi]
          exact ⟨Nat.le_refl _, Nat.lt_succ_self _⟩
        · intro i hi
          rw [List.mem_singleton.mp hi]
      have hknown : known ∪ ids [(⟨next, ⟨opcode, false⟩, [x, y]⟩ : Instruction E)] =
          insert next known := by
        ext z
        simp [ids, or_comm, eq_comm]
      rw [pairUp]
      refine ⟨hfirst.append (hknown ▸ hbuilt), ?_, ?_, ?_⟩
      · show (pairUp opcode (next + 1) xs).2.length + 1 = _
        rw [hlength, List.length_cons, List.length_cons]
        omega
      · intro v hv
        rcases List.mem_cons.mp hv with rfl | hv
        · exact ⟨next, ⟨_, List.mem_cons_self, rfl⟩, rfl⟩
        · obtain ⟨z, ⟨i, hi, hid⟩, hz⟩ := hnames v hv
          exact ⟨z, ⟨i, List.mem_cons_of_mem _ hi, hid⟩, hz⟩
      · intro V M F s
        have hstep : (exec F.toInterp s (⟨next, ⟨opcode, false⟩, [x, y]⟩ : Instruction E)).env next =
            F.bin opcode (x.eval F.toInterp s) (y.eval F.toInterp s) := by
          show Function.update s.env next (F.step next _ _ s.mem).1 next = _
          rw [Function.update_self, F.step_value _ _ _ _ hassoc]
          rfl
        -- the later instructions do not overwrite the first one's value
        have hkeep := hbuilt.defined.keeps F.toInterp
          (exec F.toInterp s (⟨next, ⟨opcode, false⟩, [x, y]⟩ : Instruction E))
          (Set.mem_insert next known)
        have hrest := hfirst.eval_map
          (fun z hz => hxs z (List.mem_cons_of_mem _ (List.mem_cons_of_mem _ hz)) : Known known xs)
          F.toInterp s
        rw [List.map_cons, List.map_cons, List.map_cons, pairs, ← hrest, ← hstep, ← hkeep]
        exact congrArg _ (hvalue V M F _)

/-- A single value is the result. -/
theorem combine_one (opcode : Opcode) (fuel next : ℕ) (x : Operand E) :
    combine opcode (fuel + 1) next [x] = some (x, []) := rfl

/-- More than one value: one round of pairs, then the next. -/
theorem combine_many (opcode : Opcode) (fuel next : ℕ) {xs : List (Operand E)}
    (h : xs.length ≠ 1) : combine opcode (fuel + 1) next xs =
      (combine opcode fuel (next + (pairUp opcode next (oddFront xs).2).2.length)
        ((oddFront xs).1 ++ (pairUp opcode next (oddFront xs).2).1)).bind fun r =>
          some (r.1, (pairUp opcode next (oddFront xs).2).2 ++ r.2) := by
  match xs with
  | [] => rfl
  | [x] => exact absurd rfl h
  | x :: y :: xs => rfl

/-- **The tree has the total of its inputs.** -/
theorem combine_built {opcode : Opcode} (hassoc : opcode.isAssociative = true) :
    ∀ (fuel : ℕ) (xs : List (Operand E)) (next : ℕ) (known : Set ℕ), xs ≠ [] →
      xs.length ≤ fuel → Known known xs → (∀ x ∈ known, x < next) →
      ∃ res insts, combine opcode fuel next xs = some (res, insts) ∧
        Built opcode next known insts ∧ (xs.length = 1 → res ∈ xs) ∧
        (xs.length ≠ 1 → ∃ n ∈ ids insts, res = .inst n) ∧
        ∀ (V M : Type) (F : Semantics E V M) (s : State V M),
          some (res.eval F.toInterp (execAll F.toInterp insts s)) =
            total (F.bin opcode) (xs.map (Operand.eval F.toInterp s)) := by
  intro fuel
  induction fuel with
  | zero =>
      intro xs next known hne hfuel
      exact absurd (List.length_eq_zero_iff.mp (Nat.le_zero.mp hfuel)) hne
  | succ fuel ih =>
      intro xs next known hne hfuel hxs hlt
      by_cases hone : xs.length = 1
      · obtain ⟨x, rfl⟩ := List.length_eq_one_iff.mp hone
        refine ⟨x, [], combine_one opcode fuel next x, Built.nil opcode next known,
          fun _ => List.mem_singleton_self x, fun h => absurd rfl h, fun V M F s => rfl⟩
      · have hperm := oddFront_perm xs
        have hlength := length_oddFront xs
        have heven := oddFront_even xs
        have hrest : Known known (oddFront xs).2 := fun x hx =>
          hxs x (hperm.mem_iff.mp (List.mem_append_right _ hx))
        have hfront : Known known (oddFront xs).1 := fun x hx =>
          hxs x (hperm.mem_iff.mp (List.mem_append_left _ hx))
        obtain ⟨hbuilt, hlen, hnames, hvalue⟩ :=
          pairUp_built hassoc (oddFront xs).2 next known heven hrest hlt
        -- of an odd number of values the first waits for the next round
        have hfrontLen : (oddFront xs).1.length ≤ 1 := length_oddFront_front xs
        have hpos : 0 < xs.length := List.length_pos_iff.mpr hne
        have hpairs : (pairUp opcode next (oddFront xs).2).1.length =
            (oddFront xs).2.length / 2 := length_pairUp opcode _ next heven
        have hknown : Known (known ∪ ids (pairUp opcode next (oddFront xs).2).2)
            ((oddFront xs).1 ++ (pairUp opcode next (oddFront xs).2).1) := by
          intro x hx
          rcases List.mem_append.mp hx with hx | hx
          · exact .inl (hfront x hx)
          · obtain ⟨n, hn, heq⟩ := hnames _ hx
            cases heq
            exact .inr hn
        have hlt' : ∀ x ∈ known ∪ ids (pairUp opcode next (oddFront xs).2).2,
            x < next + (pairUp opcode next (oddFront xs).2).2.length := by
          rintro x (hx | ⟨i, hi, rfl⟩)
          · have hxlt := hlt x hx
            omega
          · exact (hbuilt.fresh i hi).2
        have hsize : ((oddFront xs).1 ++ (pairUp opcode next (oddFront xs).2).1).length =
            (oddFront xs).1.length + (oddFront xs).2.length / 2 := by
          rw [List.length_append, hpairs]
        -- a round halves the values, so the fuel is enough for the rest
        obtain ⟨res, more, hcombine, hmore, hsingle, hmany, htotal⟩ := ih _ _ _
          (fun hnil => by
            rw [hnil, List.length_nil] at hsize
            omega) (by omega) hknown hlt'
        refine ⟨res, (pairUp opcode next (oddFront xs).2).2 ++ more, ?_, hbuilt.append hmore,
          fun h => absurd h hone, fun _ => ?_, fun V M F s => ?_⟩
        · rw [combine_many opcode fuel next hone, hcombine]
          rfl
        · rw [ids_append]
          by_cases hlast : ((oddFront xs).1 ++ (pairUp opcode next (oddFront xs).2).1).length = 1
          · -- a single pair is left
            have hnil : (oddFront xs).1 = [] := List.length_eq_zero_iff.mp (by omega)
            have hin := hsingle hlast
            rw [hnil, List.nil_append] at hin
            obtain ⟨n, hn, heq⟩ := hnames res hin
            exact ⟨n, .inl hn, heq⟩
          · obtain ⟨n, hn, heq⟩ := hmany hlast
            exact ⟨n, .inr hn, heq⟩
        · have := F.associative hassoc
          have := F.commutative hassoc
          rw [execAll_append, htotal V M F, List.map_append, hvalue V M F s,
            hbuilt.eval_map hfront F.toInterp s]
          have hround := total_round (F.bin opcode) (xs.map (Operand.eval F.toInterp s))
          rw [oddFront_map] at hround
          exact hround

/-! ## §3. Chains of a block. -/

/-- `y` has the opcode and uses `x` once, and nothing else uses `x`. -/
structure Link (BB : BasicBlock E) (opcode : Opcode) (x y : ℕ) : Prop where
  user : ∃ i ∈ BB.insts, i.id = y ∧ i.op.opcode = opcode ∧
    ∃ z, z ≠ .inst x ∧ (i.operands = [.inst x, z] ∨ i.operands = [z, .inst x])
  only : ∀ i ∈ BB.insts, .inst x ∈ i.operands → i.id = y
  outside : .inst x ∉ BB.outside

/-- A chain that can be broken: `front` and the instructions behind it. -/
structure ChainOk (BB : BasicBlock E) (opcode : Opcode) (front : ℕ) (chain : List ℕ) : Prop where
  isAssociative : opcode.isAssociative = true
  front_mem : ∃ i ∈ BB.insts, i.id = front ∧ i.op.opcode = opcode
  links : (front :: chain).IsChain (Link BB opcode)
  ne_nil : chain ≠ []

/-- The number of a block's instruction finds it. -/
theorem getInst_eq {BB : BasicBlock E} (h : BB.WellFormed reads) {i : Instruction E}
    (hi : i ∈ BB.insts) : getInst BB i.id = some i := by
  unfold getInst
  obtain ⟨j, hj⟩ := Option.isSome_iff_exists.mp
    (List.find?_isSome (p := fun j : Instruction E => decide (j.id = i.id)).mpr
      ⟨i, hi, decide_eq_true rfl⟩)
  rw [hj]
  exact congrArg some (h.defined.unique (List.mem_of_find?_eq_some hj) hi
    (of_decide_eq_true (List.find?_some (p := fun j : Instruction E => decide (j.id = i.id)) hj)))

/-- A chain goes forward. -/
theorem Link.rank_lt {BB : BasicBlock E} (h : BB.WellFormed reads) {opcode : Opcode}
    (hassoc : opcode.isAssociative = true) {x y : ℕ} (hlink : Link BB opcode x y) :
    rank BB.insts x < rank BB.insts y := by
  obtain ⟨i, hi, rfl, hop, z, -, hoperands⟩ := hlink.user
  refine h.defined.rank_lt hi (reads_of_isAssociative (hop ▸ hassoc)) ?_
  rcases hoperands with hoperands | hoperands
  · rw [hoperands]
    exact List.mem_cons_self
  · rw [hoperands]
    exact List.mem_cons_of_mem _ List.mem_cons_self

/-- The instructions of a chain come in its order. -/
theorem chain_pairwise {BB : BasicBlock E} (h : BB.WellFormed reads) {opcode : Opcode}
    (hassoc : opcode.isAssociative = true) {chain : List ℕ}
    (hlinks : chain.IsChain (Link BB opcode)) :
    chain.Pairwise fun x y => rank BB.insts x < rank BB.insts y := by
  have htrans : IsTrans ℕ fun x y => rank BB.insts x < rank BB.insts y := ⟨fun _ _ _ => Nat.lt_trans⟩
  exact List.isChain_iff_pairwise.mp (hlinks.imp fun _ _ hlink => hlink.rank_lt h hassoc)

/-- **What comes into a chain from outside**, and the value of its last instruction. -/
theorem externalInputs_eq [DecidableEq E] {BB : BasicBlock E} (h : BB.WellFormed reads)
    {opcode : Opcode} (hassoc : opcode.isAssociative = true) :
    ∀ (chain : List ℕ) (front : ℕ), (front :: chain).IsChain (Link BB opcode) →
      ∃ inputs, externalInputs BB front chain = some inputs ∧ inputs.length = chain.length ∧
        (∀ x, .inst x ∈ inputs → x ∉ front :: chain ∧
          ∃ i ∈ BB.insts, i.id ∈ chain ∧ i.op.opcode = opcode ∧ .inst x ∈ i.operands) ∧
        ∀ (V M : Type) (F : Semantics E V M) (s : State V M) (known : Set ℕ)
          (insts : List (Instruction E)), Defined reads known insts →
          (∀ i ∈ BB.insts, i.id ∈ chain → i ∈ insts) →
          (execAll F.toInterp insts s).env ((front :: chain).getLast (List.cons_ne_nil _ _)) =
            (inputs.map (Operand.eval F.toInterp (execAll F.toInterp insts s))).foldl
              (F.bin opcode) ((execAll F.toInterp insts s).env front)
  | [], front, _ => ⟨[], rfl, rfl, fun x hx => absurd hx List.not_mem_nil,
      fun V M F s known insts _ _ => rfl⟩
  | next :: chain, front, hlinks => by
      obtain ⟨hlink, hrest⟩ := List.isChain_cons_cons.mp hlinks
      obtain ⟨inputs, hinputs, hlength, hfrom, hvalue⟩ :=
        externalInputs_eq h hassoc chain next hrest
      obtain ⟨i, hi, rfl, hop, z, hz, hoperands⟩ := hlink.user
      have hget := getInst_eq h hi
      have hreads := reads_of_isAssociative (hop ▸ hassoc)
      have hpair := (List.pairwise_cons.mp (chain_pairwise h hassoc hrest)).1
      refine ⟨z :: inputs, ?_, congrArg (· + 1) hlength, ?_, ?_⟩
      · rw [externalInputs, hget, hinputs]
        rcases hoperands with hoperands | hoperands
        · simp [hoperands]
        · simp [hoperands, hz]
      · intro x hx
        rcases List.mem_cons.mp hx with hzx | hx
        · -- the other operand of the next instruction
          have hxmem : .inst x ∈ i.operands := by
            rcases hoperands with hoperands | hoperands
            · rw [hoperands, hzx]
              exact List.mem_cons_of_mem _ List.mem_cons_self
            · rw [hoperands, hzx]
              exact List.mem_cons_self
          have hlt := h.defined.rank_lt hi hreads hxmem
          refine ⟨fun hin => ?_, i, hi, List.mem_cons_self, hop, hxmem⟩
          rcases List.mem_cons.mp hin with rfl | hin
          · exact hz hzx.symm
          · rcases List.mem_cons.mp hin with heq | hin
            · rw [heq] at hlt
              exact Nat.lt_irrefl _ hlt
            · exact Nat.lt_asymm hlt (hpair x hin)
        · obtain ⟨hnot, j, hj, hjchain, hjop, hxj⟩ := hfrom x hx
          refine ⟨fun hin => ?_, j, hj, List.mem_cons_of_mem _ hjchain, hjop, hxj⟩
          rcases List.mem_cons.mp hin with rfl | hin
          · -- only the next instruction uses the front
            have hlt := hpair j.id hjchain
            rw [hlink.only j hj hxj] at hlt
            exact Nat.lt_irrefl _ hlt
          · exact hnot hin
      · intro V M F s known insts hdefined hmem
        have hin := hmem i hi List.mem_cons_self
        have hpure : Pure F.toInterp i (F.value opcode) := by
          have hpure := F.isPure (i := i) (hop ▸ hassoc)
          rw [hop] at hpure
          exact hpure
        have hstep := hdefined.value F.toInterp s hin hreads hpure
        -- => the value of the rest is that of the rest's inputs, folded onto the next instruction
        have htail := hvalue V M F s known insts hdefined fun j hj hid =>
          hmem j hj (List.mem_cons_of_mem _ hid)
        rw [List.getLast_cons (List.cons_ne_nil _ _), htail, List.map_cons, List.foldl_cons, hstep]
        congr 1
        rcases hoperands with hoperands | hoperands
        · rw [hoperands]
          rfl
        · rw [hoperands]
          exact F.comm opcode hassoc _ _

/-! ## §4. Breaking a chain. -/

section Break

variable {BB : BasicBlock E} {opcode : Opcode} {front : ℕ} {chain : List ℕ}

/-- All but the last of a chain are used by the next one. -/
theorem exists_next {R : ℕ → ℕ → Prop} {xs : List ℕ} (h : xs.IsChain R) {x : ℕ} (hx : x ∈ xs)
    (hne : xs.getLast? ≠ some x) : ∃ y ∈ xs.tail, R x y := by
  induction xs with
  | nil => cases hx
  | cons a xs ih =>
      cases xs with
      | nil =>
          rw [List.mem_singleton.mp hx] at hne
          exact absurd rfl hne
      | cons b xs =>
          obtain ⟨hab, hrest⟩ := List.isChain_cons_cons.mp h
          rcases List.mem_cons.mp hx with rfl | hx
          · exact ⟨b, List.mem_cons_self, hab⟩
          · obtain ⟨y, hy, hxy⟩ := ih hrest hx (by rwa [List.getLast?_cons_cons] at hne)
            exact ⟨y, List.mem_cons_of_mem _ hy, hxy⟩

/-- Each but the first of a chain uses the one before. -/
theorem exists_prev {R : ℕ → ℕ → Prop} {a : ℕ} {xs : List ℕ} (h : (a :: xs).IsChain R) {y : ℕ}
    (hy : y ∈ xs) : ∃ x ∈ a :: xs, R x y := by
  induction xs generalizing a with
  | nil => cases hy
  | cons b xs ih =>
      obtain ⟨hab, hrest⟩ := List.isChain_cons_cons.mp h
      rcases List.mem_cons.mp hy with rfl | hy
      · exact ⟨a, List.mem_cons_self, hab⟩
      · obtain ⟨x, hx, hxy⟩ := ih hrest hy
        exact ⟨x, List.mem_cons_of_mem _ hx, hxy⟩

namespace ChainOk

variable (h : ChainOk BB opcode front chain)

include h

/-- The instructions of a chain are in the block. -/
theorem mem_ids {x : ℕ} (hx : x ∈ front :: chain) : x ∈ ids BB.insts := by
  rcases List.mem_cons.mp hx with rfl | hx
  · obtain ⟨i, hi, hid, -⟩ := h.front_mem
    exact ⟨i, hi, hid⟩
  · obtain ⟨y, -, hlink⟩ := exists_prev h.links hx
    obtain ⟨i, hi, hid, -⟩ := hlink.user
    exact ⟨i, hi, hid⟩

variable (hBB : BB.WellFormed reads)

include hBB

/-- They all have one operator. -/
theorem opcode_eq {i : Instruction E} (hi : i ∈ BB.insts) (hid : i.id ∈ front :: chain) :
    i.op.opcode = opcode := by
  have hex : ∃ j ∈ BB.insts, j.id = i.id ∧ j.op.opcode = opcode := by
    rcases List.mem_cons.mp hid with heq | hid
    · exact heq ▸ h.front_mem
    · obtain ⟨y, -, hlink⟩ := exists_prev h.links hid
      obtain ⟨j, hj, hid, hop, -⟩ := hlink.user
      exact ⟨j, hj, hid, hop⟩
  obtain ⟨j, hj, hid, hop⟩ := hex
  rw [← hBB.defined.unique hj hi hid]
  exact hop

/-- Where the last instruction of the chain stands: the others are before it. -/
theorem exists_last : ∃ pre last post, BB.insts = pre ++ last :: post ∧
    chain.getLast? = some last.id ∧ ∀ x ∈ front :: chain, x ≠ last.id → x ∈ ids pre := by
  have hmem := List.getLast_mem h.ne_nil
  obtain ⟨last, hlast, hid⟩ := h.mem_ids (List.mem_cons_of_mem front hmem)
  obtain ⟨pre, post, hsplit⟩ := List.append_of_mem hlast
  have hback : chain.getLast? = some last.id := by
    rw [List.getLast?_eq_some_getLast h.ne_nil, hid]
  refine ⟨pre, last, post, hsplit, hback, fun x hx hne => ?_⟩
  have hpair := chain_pairwise hBB h.isAssociative h.links
  -- nothing of the chain comes behind its last instruction
  have hlt : rank BB.insts x < rank BB.insts last.id := by
    have hinit := List.dropLast_append_getLast (List.cons_ne_nil front chain)
    rw [List.getLast_cons h.ne_nil, ← hid] at hinit
    rw [← hinit] at hpair hx
    rcases List.mem_append.mp hx with hx | hx
    · exact (List.pairwise_append.mp hpair).2.2 x hx last.id (List.mem_singleton_self _)
    · exact absurd (List.mem_singleton.mp hx) hne
  rw [hsplit] at hlt
  exact mem_of_rank_lt hlt

/-- The front is not erased. -/
theorem front_notMem : front ∉ chain := fun hin =>
  Nat.lt_irrefl _ ((List.pairwise_cons.mp (chain_pairwise hBB h.isAssociative h.links)).1 _ hin)

/-- None of them is there twice. -/
theorem nodup : chain.Nodup := by
  refine (List.pairwise_cons.mp (chain_pairwise hBB h.isAssociative h.links)).2.imp ?_
  intro x y hlt heq
  exact Nat.lt_irrefl _ (heq ▸ hlt)

/-- The instructions that come and go have no effect. -/
theorem quiet {new : List (Instruction E)} (hop : ∀ i ∈ new, i.op = ⟨opcode, false⟩)
    {V M : Type} (F : Semantics E V M) :
    Rewriting.Quiet F.toInterp reads BB chain new where
  phi id op args args' mem hreads := F.step_phi id op args args' mem
    (not_not.mp (of_decide_eq_false hreads))
  dead_pure i hi hid :=
    ⟨_, F.isPure (h.opcode_eq hBB hi (List.mem_cons_of_mem _ hid) ▸ h.isAssociative)⟩
  new_pure i hi := ⟨_, F.isPure (by rw [hop i hi]; exact h.isAssociative)⟩

omit hBB in
/-- Only the next one of the chain uses an instruction before the last. -/
theorem user_mem {x last : ℕ} (hback : chain.getLast? = some last) (hx : x ∈ front :: chain)
    (hne : x ≠ last) :
    (∀ i ∈ BB.insts, .inst x ∈ i.operands → i.id ∈ chain) ∧ .inst x ∉ BB.outside := by
  have hlast : (front :: chain).getLast? ≠ some x := by
    rw [List.getLast?_cons_of_ne_nil h.ne_nil, hback]
    exact fun heq => hne (Option.some.inj heq).symm
  obtain ⟨y, hy, hlink⟩ := exists_next h.links hx hlast
  exact ⟨fun i hi hop => hlink.only i hi hop ▸ hy, hlink.outside⟩

end ChainOk

/-- A chain of a block: its last instruction, and what comes in. -/
structure Ends [DecidableEq E] (BB : BasicBlock E) (opcode : Opcode) (front : ℕ) (chain : List ℕ)
    (pre post : List (Instruction E)) (last : Instruction E) (inputs : List (Operand E)) :
    Prop where
  insts : BB.insts = pre ++ last :: post
  back : chain.getLast? = some last.id
  before : ∀ x ∈ front :: chain, x ≠ last.id → x ∈ ids pre
  inputs_eq : externalInputs BB front chain = some inputs
  length : inputs.length = chain.length
  known : ∀ x, .inst x ∈ (.inst front :: inputs : List (Operand E)) → x ∈ ids pre ∧ x ∉ chain
  read : ∀ x, .inst x ∈ inputs → ∃ j ∈ BB.insts, j.id ∈ chain ∧ .inst x ∈ j.operands
  value : ∀ (V M : Type) (F : Semantics E V M) (s : State V M),
    (execAll F.toInterp (pre ++ [last]) s).env last.id =
      (inputs.map (Operand.eval F.toInterp (execAll F.toInterp (pre ++ [last]) s))).foldl
        (F.bin opcode) ((execAll F.toInterp (pre ++ [last]) s).env front)

/-- The chain has a last instruction and inputs. -/
theorem ChainOk.exists_ends [DecidableEq E] (h : ChainOk BB opcode front chain)
    (hBB : BB.WellFormed reads) :
    ∃ pre post last inputs, Ends BB opcode front chain pre post last inputs := by
  obtain ⟨pre, last, post, hinsts, hback, hpre⟩ := h.exists_last hBB
  obtain ⟨inputs, hinputs, hlength, hfrom, hvalue⟩ :=
    externalInputs_eq hBB h.isAssociative chain front h.links
  have hlast : last.id ∈ chain := List.mem_of_getLast? hback
  have hlastMem : last ∈ BB.insts := by
    rw [hinsts]
    exact List.mem_append_right _ List.mem_cons_self
  -- the instructions of the chain stand before the last one
  have hchainMem : ∀ i ∈ BB.insts, i.id ∈ chain → i.id ≠ last.id → i ∈ pre := by
    intro i hi hid hne
    obtain ⟨j, hj, hjid⟩ := hpre i.id (List.mem_cons_of_mem _ hid) hne
    have hjmem : j ∈ BB.insts := by
      rw [hinsts]
      exact List.mem_append_left _ hj
    exact hBB.defined.unique hjmem hi hjid ▸ hj
  have hdefined := hBB.defined
  rw [hinsts] at hdefined
  obtain ⟨hdefPre, hnew, hlastReads, -⟩ := defined_append.mp hdefined
  have hdefLast : Defined reads ∅ (pre ++ [last]) :=
    defined_append.mpr ⟨hdefPre, hnew, hlastReads, trivial⟩
  rw [Set.empty_union] at hlastReads
  refine ⟨pre, post, last, inputs, hinsts, hback, hpre, hinputs, hlength, fun x hx => ?_,
    fun x hx => ?_, fun V M F s => ?_⟩
  · rcases List.mem_cons.mp hx with heq | hx
    · cases heq
      refine ⟨hpre front List.mem_cons_self fun heq => ?_, h.front_notMem hBB⟩
      exact h.front_notMem hBB (heq ▸ hlast)
    · obtain ⟨hnot, i, hi, hid, hop, hxi⟩ := hfrom x hx
      have hreads := reads_of_isAssociative (hop ▸ h.isAssociative)
      refine ⟨?_, fun hin => hnot (List.mem_cons_of_mem _ hin)⟩
      by_cases hil : i.id = last.id
      · rw [hBB.defined.unique hi hlastMem hil] at hxi hreads
        exact hlastReads hreads x hxi
      · have hin := hdefPre.operand_mem (hchainMem i hi hid hil) hreads hxi
        rwa [Set.empty_union] at hin
  · obtain ⟨-, j, hj, hid, -, hop⟩ := hfrom x hx
    exact ⟨j, hj, hid, hop⟩
  · have hend : (front :: chain).getLast (List.cons_ne_nil _ _) = last.id := by
      have hget := List.getLast?_eq_some_getLast h.ne_nil
      rw [hback, Option.some.injEq] at hget
      rw [List.getLast_cons h.ne_nil, ← hget]
    rw [← hend]
    refine hvalue V M F s ∅ (pre ++ [last]) hdefLast fun i hi hid => ?_
    by_cases hil : i.id = last.id
    · rw [hBB.defined.unique hi hlastMem hil]
      exact List.mem_append_right _ (List.mem_singleton_self last)
    · exact List.mem_append_left _ (hchainMem i hi hid hil)

section Ends

variable [DecidableEq E] {pre post new : List (Instruction E)} {last : Instruction E}
  {inputs : List (Operand E)} {res : ℕ} (ends : Ends BB opcode front chain pre post last inputs)
  (h : ChainOk BB opcode front chain) (hBB : BB.WellFormed reads)

include ends hBB

/-- New instructions get numbers that no other one has. -/
theorem Ends.lt {x : ℕ} (hx : x ∈ ids pre) : x < BB.next := by
  obtain ⟨i, hi, rfl⟩ := hx
  refine hBB.lt i ?_
  rw [ends.insts]
  exact List.mem_append_left _ hi

include h

/-- The tree may stand in place of the chain. -/
theorem Ends.rewriting {known : Set ℕ} (hbuilt : Built opcode BB.next known new)
    (hknown : ∀ x ∈ known, x ∈ ids pre ∧ x ∉ chain) (hres : res ∈ ids new) :
    Rewriting reads BB pre post last chain new res (BB.next + new.length) := by
  refine ⟨ends.insts, List.mem_of_getLast? ends.back, fun x hx => ?_, fun i hi hid => ?_,
    fun i hi hid x hx hne hop => ?_, fun x hx hne => ?_, ?_, fun i hi => ?_, hbuilt.fresh,
    Nat.le_add_right _ _, hres⟩
  · rw [ids_append]
    by_cases hxl : x = last.id
    · exact .inr ⟨last, List.mem_singleton_self last, hxl.symm⟩
    · exact .inl (ends.before x (List.mem_cons_of_mem _ hx) hxl)
  · exact reads_of_isAssociative
      (h.opcode_eq hBB hi (List.mem_cons_of_mem _ hid) ▸ h.isAssociative)
  · exact hid ((h.user_mem ends.back (List.mem_cons_of_mem _ hx) hne).1 i hi hop)
  · exact (h.user_mem ends.back (List.mem_cons_of_mem _ hx) hne).2
  · refine hbuilt.defined.mono hknown fun x hx hin => ?_
    obtain ⟨i, hi, rfl⟩ := hx
    exact Nat.not_lt_of_le (hbuilt.fresh i hi).1 (ends.lt hBB hin.1)
  · exact reads_of_isAssociative (by rw [hbuilt.op i hi]; exact h.isAssociative)

/-- What comes in has the same value when the chain has not been executed. -/
theorem Ends.eval_inputs (hnew : Rewriting reads BB pre post last chain new res
      (BB.next + new.length)) (hop : ∀ i ∈ new, i.op = ⟨opcode, false⟩) {V M : Type}
    (F : Semantics E V M) (s : State V M) :
    (.inst front :: inputs).map (Operand.eval F.toInterp
        (execAll F.toInterp (Rewriting.left last chain res pre) s)) =
      (.inst front :: inputs).map (Operand.eval F.toInterp
        (execAll F.toInterp (pre ++ [last]) s)) := by
  have hoff := hnew.simulates_pre hBB (h.quiet hBB hop F) (fun _ hi => hi)
    (⟨fun _ _ => rfl, rfl⟩ : Off {x | x ∈ chain} s s)
  obtain ⟨-, hlast, -⟩ := hnew.defined_parts hBB
  refine List.map_congr_left fun v hv => ?_
  cases v with
  | ext e => rfl
  | inst x =>
      obtain ⟨hx, hdead⟩ := ends.known x hv
      have hkeep : (execAll F.toInterp (pre ++ [last]) s).env x =
          (execAll F.toInterp pre s).env x := by
        rw [execAll_append]
        refine Function.update_of_ne ?_ ..
        rintro rfl
        exact hlast hx
      exact (hoff.env x hdead).symm.trans hkeep.symm

end Ends

/-- What `breakChain` builds for a chain. -/
structure Tree [DecidableEq E] (BB : BasicBlock E) (opcode : Opcode) (front : ℕ) (chain : List ℕ)
    (pre post : List (Instruction E)) (last : Instruction E) (inputs : List (Operand E))
    (new : List (Instruction E)) (res : ℕ) : Prop where
  rewriting : Rewriting reads BB pre post last chain new res (BB.next + new.length)
  back : chain.getLast? = some last.id
  inputs_eq : externalInputs BB front chain = some inputs
  combine_eq : combine opcode (chain.length + 1) BB.next (.inst front :: inputs) =
    some (.inst res, new)
  new_op : ∀ i ∈ new, i.op = ⟨opcode, false⟩
  new_operands : ∀ i ∈ new, ∀ x, .inst x ∈ i.operands → x ∈ ids new ∨ x = front ∨
    ∃ j ∈ BB.insts, j.id ∈ chain ∧ .inst x ∈ j.operands
  value : ∀ (V M : Type) (F : Semantics E V M) (s : State V M),
    (execAll F.toInterp (Rewriting.left last chain res pre ++ new) s).env res =
      (execAll F.toInterp (pre ++ [last]) s).env last.id

/-- **The tree of a chain** has the value of its last instruction. -/
theorem Ends.exists_tree [DecidableEq E] {pre post : List (Instruction E)} {last : Instruction E}
    {inputs : List (Operand E)} (ends : Ends BB opcode front chain pre post last inputs)
    (h : ChainOk BB opcode front chain) (hBB : BB.WellFormed reads) :
    ∃ new res, Tree BB opcode front chain pre post last inputs new res := by
  let known : Set ℕ := {x | (Operand.inst x : Operand E) ∈ .inst front :: inputs}
  have hall : Known known (.inst front :: inputs) := fun x hx => hx
  obtain ⟨v, new, hcombine, hbuilt, -, hmany, htotal⟩ := combine_built h.isAssociative
    (chain.length + 1) (.inst front :: inputs) BB.next known (List.cons_ne_nil _ _)
    (by rw [List.length_cons, ends.length]) hall (fun x hx => ends.lt hBB (ends.known x hx).1)
  obtain ⟨res, hres, rfl⟩ := hmany (by
    rw [List.length_cons, ends.length]
    have hpos := List.length_pos_iff.mpr h.ne_nil
    omega)
  have hnew := ends.rewriting h hBB hbuilt ends.known hres
  refine ⟨new, res, hnew, ends.back, ends.inputs_eq, hcombine, hbuilt.op,
    fun i hi x hx => ?_, fun V M F s => ?_⟩
  · have hreads : reads i.op = true := reads_of_isAssociative
      (by rw [hbuilt.op i hi]; exact h.isAssociative)
    rcases hbuilt.defined.operand_mem hi hreads hx with hin | hin
    · rcases List.mem_cons.mp hin with heq | hin
      · cases heq
        exact .inr (.inl rfl)
      · exact .inr (.inr (ends.read x hin))
    · exact .inl hin
  · have hsum := htotal V M F (execAll F.toInterp (Rewriting.left last chain res pre) s)
    rw [ends.eval_inputs h hBB hnew hbuilt.op F s, List.map_cons] at hsum
    rw [execAll_append, ends.value V M F s]
    exact Option.some.inj hsum

/-- The tree of its inputs can be built. -/
theorem ChainOk.exists_tree [DecidableEq E] (h : ChainOk BB opcode front chain)
    (hBB : BB.WellFormed reads) :
    ∃ pre post last inputs new res, Tree BB opcode front chain pre post last inputs new res := by
  obtain ⟨pre, post, last, inputs, ends⟩ := h.exists_ends hBB
  obtain ⟨new, res, t⟩ := ends.exists_tree h hBB
  exact ⟨pre, post, last, inputs, new, res, t⟩

end Break

end Kremlin.Instrument.AssociativeDependenceBreak
