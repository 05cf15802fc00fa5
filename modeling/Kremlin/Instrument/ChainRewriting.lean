/-
  Kremlin.Instrument.ChainRewriting — chains are broken one after another.

  Main result:
    * `breakChains_keeps` — chains that share no instruction are all broken, and
      what is left of the block computes what it computed before.
-/
import Kremlin.Instrument.BrokenChains

namespace Kremlin.Instrument.AssociativeDependenceBreak

open Kremlin.Library Kremlin.Library.StraightLine

variable {E : Type} {BB BB' : BasicBlock E} {opcode : Opcode} {front : ℕ}
  {chain : List ℕ} {pre post new : List (Instruction E)} {last : Instruction E}
  {inputs : List (Operand E)} {res : ℕ}

/-! ## §1. What `breakChain` returns. -/

/-- An instruction of the block is found. -/
theorem isSome_getInst {x : ℕ} : (getInst BB x).isSome = true ↔ x ∈ ids BB.insts := by
  unfold getInst
  rw [List.find?_isSome]
  constructor
  · rintro ⟨i, hi, hid⟩
    exact ⟨i, hi, of_decide_eq_true hid⟩
  · rintro ⟨i, hi, hid⟩
    exact ⟨i, hi, decide_eq_true hid⟩

/-- New instructions stand in front of the one instruction of that number. -/
theorem flatMap_insert (hpre : last.id ∉ ids pre) (hpost : last.id ∉ ids post) :
    ((pre ++ last :: post).flatMap fun i => if i.id = last.id then new ++ [i] else [i]) =
      pre ++ new ++ last :: post := by
  have hsame : ∀ insts : List (Instruction E), last.id ∉ ids insts →
      (insts.flatMap fun i => if i.id = last.id then new ++ [i] else [i]) = insts := by
    intro insts hnot
    induction insts with
    | nil => rfl
    | cons i insts ih =>
        have hne : i.id ≠ last.id := fun heq => hnot ⟨i, List.mem_cons_self, heq⟩
        rw [List.flatMap_cons, if_neg hne, ih fun ⟨j, hj, hid⟩ =>
          hnot ⟨j, List.mem_cons_of_mem i hj, hid⟩]
        rfl
  rw [List.flatMap_append, List.flatMap_cons, hsame pre hpre, hsame post hpost, if_pos rfl,
    List.append_assoc, List.append_assoc]
  rfl

/-- Instructions that are there are erased one after another. -/
theorem foldlM_eraseFromParent : ∀ (xs : List ℕ) (BB : BasicBlock E), xs.Nodup →
    (∀ x ∈ xs, x ∈ ids BB.insts) → xs.foldlM eraseFromParent BB =
      some { BB with insts := BB.insts.filter fun i => i.id ∉ xs }
  | [], BB, _, _ => by
      have hall : (BB.insts.filter fun i => decide (i.id ∉ ([] : List ℕ))) = BB.insts :=
        List.filter_eq_self.mpr fun i _ => decide_eq_true List.not_mem_nil
      rw [hall]
      rfl
  | x :: xs, BB, hnodup, hmem => by
      obtain ⟨hx, hxs⟩ := List.nodup_cons.mp hnodup
      have herase : eraseFromParent BB x =
          some { BB with insts := BB.insts.filter fun i => i.id ≠ x } :=
        if_pos (isSome_getInst.mpr (hmem x List.mem_cons_self))
      have hrest := foldlM_eraseFromParent xs
        { BB with insts := BB.insts.filter fun i => i.id ≠ x } hxs fun y hy => by
          obtain ⟨i, hi, rfl⟩ := hmem y (List.mem_cons_of_mem x hy)
          refine ⟨i, List.mem_filter.mpr ⟨hi, decide_eq_true fun heq => hx ?_⟩, rfl⟩
          exact heq ▸ hy
      rw [List.foldlM_cons, herase]
      refine hrest.trans ?_
      congr 2
      rw [List.filter_filter]
      refine List.filter_congr fun i _ => ?_
      rw [← Bool.decide_and, decide_eq_decide, List.mem_cons, not_or, and_comm]

variable [DecidableEq E]

/-- **Breaking a chain puts its tree in its place.** -/
theorem Tree.breakChain_eq (t : Tree BB opcode front chain pre post last inputs new res)
    (h : ChainOk BB opcode front chain) (hBB : BB.WellFormed reads) :
    breakChain BB (front :: chain) =
      some (BB.rewrite pre post last chain new res (BB.next + new.length)) := by
  obtain ⟨i, hi, hid, hop⟩ := h.front_mem
  have hget : getInst BB front = some i := hid ▸ getInst_eq hBB hi
  have hback : (front :: chain).getLast? = some last.id := by
    rw [List.getLast?_cons_of_ne_nil h.ne_nil]
    exact t.back
  have hinsts := t.rewriting.insts
  obtain ⟨-, hpre, hpostDef⟩ := t.rewriting.defined_parts hBB
  have hpost : last.id ∉ ids post := fun hin => hpostDef.notMem hin (Set.mem_insert _ _)
  -- the tree is put in front of the last instruction, which is then replaced
  have hlast : (getInst BB last.id).isSome = true := isSome_getInst.mpr
    (h.mem_ids (List.mem_cons_of_mem _ (List.mem_of_getLast? t.back)))
  have hinsert : insertBefore BB last.id new = some { BB with
      insts := pre ++ new ++ last :: post
      next := BB.next + new.length } := by
    rw [← flatMap_insert hpre hpost, ← hinsts]
    exact if_pos hlast
  unfold breakChain
  rw [List.head?_cons, hback, Option.bind_eq_bind, Option.bind_some, Option.bind_eq_bind,
    Option.bind_some, hget, Option.bind_eq_bind, Option.bind_some, List.tail_cons, t.inputs_eq,
    Option.bind_eq_bind, Option.bind_some, List.length_cons, hop, t.combine_eq,
    Option.bind_eq_bind, Option.bind_some]
  show (insertBefore BB last.id new).bind _ = _
  rw [hinsert, Option.bind_some, foldlM_eraseFromParent]
  · congr 2
    refine List.filter_congr fun j _ => ?_
    rw [decide_eq_decide, List.mem_reverse]
  · exact List.nodup_reverse.mpr (h.nodup hBB)
  · intro x hx
    obtain ⟨j, hj, hjid⟩ := h.mem_ids (List.mem_cons_of_mem _ (List.mem_reverse.mp hx))
    refine ⟨_, List.mem_map_of_mem (f := Inst.replace last.id (.inst res)) (a := j) ?_, hjid⟩
    show j ∈ pre ++ new ++ last :: post
    rw [hinsts] at hj
    rcases List.mem_append.mp hj with hj | hj
    · exact List.mem_append_left _ (List.mem_append_left _ hj)
    · exact List.mem_append_right _ hj

/-! ## §2. What is kept. -/

omit [DecidableEq E] in
/-- `BB'` does what `BB` does: the instructions of `BB` that are left have their values,
memory is the same, and so are the values that are used behind the block. -/
structure Keeps (BB BB' : BasicBlock E) : Prop where
  wellFormed : BB'.WellFormed reads
  next_le : BB.next ≤ BB'.next
  old : ∀ x ∈ ids BB'.insts, x < BB.next → x ∈ ids BB.insts
  env : ∀ (V M : Type) (F : Semantics E V M) (s : State V M), ∀ x ∈ ids BB'.insts, x < BB.next →
    (execAll F.toInterp BB'.insts s).env x = (execAll F.toInterp BB.insts s).env x
  mem : ∀ (V M : Type) (F : Semantics E V M) (s : State V M),
    (execAll F.toInterp BB'.insts s).mem = (execAll F.toInterp BB.insts s).mem
  exits : ∀ (V M : Type) (F : Semantics E V M) (s : State V M),
    (BB'.exits reads).map (Operand.eval F.toInterp (execAll F.toInterp BB'.insts s)) =
      (BB.exits reads).map (Operand.eval F.toInterp (execAll F.toInterp BB.insts s))

omit [DecidableEq E] in
/-- A block keeps its own values. -/
theorem Keeps.refl (h : BB.WellFormed reads) : Keeps BB BB :=
  ⟨h, Nat.le_refl _, fun _ hx _ => hx, fun _ _ _ _ _ _ _ => rfl, fun _ _ _ _ => rfl,
    fun _ _ _ _ => rfl⟩

omit [DecidableEq E] in
/-- One chain after the other. -/
theorem Keeps.trans {BB'' : BasicBlock E} (h : Keeps BB BB') (h' : Keeps BB' BB'') :
    Keeps BB BB'' where
  wellFormed := h'.wellFormed
  next_le := Nat.le_trans h.next_le h'.next_le
  old x hx hlt := h.old x (h'.old x hx (Nat.lt_of_lt_of_le hlt h.next_le)) hlt
  env V M F s x hx hlt := by
    have hlt' := Nat.lt_of_lt_of_le hlt h.next_le
    rw [h'.env V M F s x hx hlt', h.env V M F s x (h'.old x hx hlt') hlt]
  mem V M F s := (h'.mem V M F s).trans (h.mem V M F s)
  exits V M F s := (h'.exits V M F s).trans (h.exits V M F s)

section Tree

variable (t : Tree BB opcode front chain pre post last inputs new res)
  (h : ChainOk BB opcode front chain) (hBB : BB.WellFormed reads)

include t h hBB

/-- **The tree of a chain keeps the values.** -/
theorem Tree.keeps :
    Keeps BB (BB.rewrite pre post last chain new res (BB.next + new.length)) := by
  have hquiet := fun (V M : Type) (F : Semantics E V M) => h.quiet hBB t.new_op F
  have hids := t.rewriting.ids_rewrite hBB
  refine ⟨t.rewriting.wellFormed hBB, Nat.le_add_right _ _, fun x hx hlt => ?_,
    fun V M F s x hx hlt => ?_, fun V M F s => ?_,
    fun V M F s => t.rewriting.exits_eval hBB (hquiet V M F) s (t.value V M F s)⟩
  · rw [hids] at hx
    rcases hx with ⟨hx, -⟩ | ⟨i, hi, rfl⟩
    · exact hx
    · exact absurd hlt (Nat.not_lt_of_le (t.rewriting.fresh i hi).1)
  · obtain ⟨hoff, -⟩ := t.rewriting.simulates hBB (hquiet V M F) s (t.value V M F s)
    refine (hoff.env x ?_).symm
    rintro (hdead | hle)
    · rw [hids] at hx
      rcases hx with ⟨-, hnot⟩ | ⟨i, hi, rfl⟩
      · exact hnot hdead
      · exact t.rewriting.new_notMem hBB hi hdead
    · exact Nat.not_lt_of_le hle hlt
  · exact (t.rewriting.simulates hBB (hquiet V M F) s (t.value V M F s)).1.mem.symm

/-! ## §3. The other chains. -/

omit h in
/-- What an instruction of the new block reads of the old one. -/
theorem Tree.reads_old {i : Instruction E}
    (hi : i ∈ (BB.rewrite pre post last chain new res (BB.next + new.length)).insts) {x : ℕ}
    (hx : .inst x ∈ i.operands) (hlt : x < BB.next) (hfront : x ≠ front) :
    ∃ j ∈ BB.insts, .inst x ∈ j.operands ∧ (j.id = i.id ∨ j.id ∈ chain) := by
  have hres : BB.next ≤ res := by
    obtain ⟨j, hj, rfl⟩ := t.rewriting.res_mem
    exact (t.rewriting.fresh j hj).1
  have hleft : ∀ insts : List (Instruction E), (∀ j ∈ insts, j ∈ BB.insts) →
      i ∈ Rewriting.left last chain res insts →
      ∃ j ∈ BB.insts, .inst x ∈ j.operands ∧ (j.id = i.id ∨ j.id ∈ chain) := by
    intro insts hmem hi
    obtain ⟨hi, hdead⟩ := List.mem_filter.mp hi
    obtain ⟨j, hj, rfl⟩ := List.mem_map.mp hi
    rcases t.rewriting.operand_left (hmem j hj) (of_decide_eq_true hdead) hx with
      ⟨rfl, -⟩ | ⟨hop, -⟩
    · exact absurd hlt (Nat.not_lt_of_le hres)
    · exact ⟨j, hmem j hj, hop, .inl rfl⟩
  rw [t.rewriting.rewrite_insts, t.rewriting.left_new hBB, List.mem_append, List.mem_append] at hi
  rcases hi with (hi | hi) | hi
  · refine hleft pre (fun j hj => ?_) hi
    rw [t.rewriting.insts]
    exact List.mem_append_left _ hj
  · rcases t.new_operands i hi x hx with ⟨j, hj, rfl⟩ | heq | ⟨j, hj, hid, hop⟩
    · exact absurd hlt (Nat.not_lt_of_le (t.rewriting.fresh j hj).1)
    · exact absurd heq hfront
    · exact ⟨j, hj, hop, .inr hid⟩
  · refine hleft post (fun j hj => ?_) hi
    rw [t.rewriting.insts]
    exact List.mem_append_right _ (List.mem_cons_of_mem _ hj)

omit h hBB in
/-- An instruction that is not erased. -/
theorem Tree.mem_left {i : Instruction E} (hi : i ∈ BB.insts) (hid : i.id ∉ chain) :
    i.replace last.id (.inst res) ∈
      (BB.rewrite pre post last chain new res (BB.next + new.length)).insts := by
  have hlast : last.id ∈ chain := t.rewriting.last_mem
  rw [t.rewriting.insts] at hi
  refine List.mem_filter.mpr ⟨List.mem_map_of_mem ?_, decide_eq_true hid⟩
  rcases List.mem_append.mp hi with hi | hi
  · exact List.mem_append_left _ (List.mem_append_left _ hi)
  · exact List.mem_append_right _ hi

omit h in
/-- A link between instructions that are not in the chain stays. -/
theorem Tree.link {opcode' : Opcode} {x y : ℕ} (hlink : Link BB opcode' x y)
    (hx : x ∉ front :: chain) (hy : y ∉ chain) (hlt : x < BB.next) :
    Link (BB.rewrite pre post last chain new res (BB.next + new.length)) opcode' x y := by
  have hlast : last.id ∈ chain := t.rewriting.last_mem
  have hres : BB.next ≤ res := by
    obtain ⟨j, hj, rfl⟩ := t.rewriting.res_mem
    exact (t.rewriting.fresh j hj).1
  have hxl : x ≠ last.id := by
    rintro rfl
    exact hx (List.mem_cons_of_mem _ hlast)
  have hxr : x ≠ res := by
    rintro rfl
    exact Nat.not_lt_of_le hres hlt
  have hkeep : Operand.replace last.id (.inst res) (.inst x : Operand E) = .inst x := if_neg hxl
  -- an operand becomes `x` only if it was `x`
  have hne : ∀ z : Operand E, z ≠ .inst x → Operand.replace last.id (.inst res) z ≠ .inst x := by
    intro z hz
    cases z with
    | ext e => exact hz
    | inst w =>
        show (if w = last.id then _ else _) ≠ _
        split
        · intro heq
          cases heq
          exact hxr rfl
        · exact hz
  constructor
  · -- the user reads `x` as before
    obtain ⟨i, hi, rfl, hop, z, hz, hoperands⟩ := hlink.user
    refine ⟨_, t.mem_left hi hy, rfl, hop, _, hne z hz, ?_⟩
    rcases hoperands with hoperands | hoperands
    · refine .inl ?_
      show i.operands.map _ = _
      rw [hoperands, List.map_cons, List.map_singleton, hkeep]
    · refine .inr ?_
      show i.operands.map _ = _
      rw [hoperands, List.map_cons, List.map_singleton, hkeep]
  · -- nothing else reads it, as nothing did before
    intro i hi hop
    obtain ⟨j, hj, hxj, hid⟩ := t.reads_old hBB hi hop hlt
      fun heq => hx (heq ▸ List.mem_cons_self)
    have hjy := hlink.only j hj hxj
    rcases hid with hid | hid
    · exact hid.symm.trans hjy
    · exact absurd (hjy ▸ hid) hy
  · intro hout
    obtain ⟨z, hz, heq⟩ := List.mem_map.mp hout
    by_cases hzx : z = .inst x
    · exact hlink.outside (hzx ▸ hz)
    · exact hne z hzx heq

omit h in
/-- A chain that shares no instruction with this one can be broken afterwards. -/
theorem Tree.chainOk {opcode' : Opcode} {front' : ℕ} {chain' : List ℕ}
    (h' : ChainOk BB opcode' front' chain')
    (hdisjoint : ∀ x ∈ front' :: chain', x ∉ front :: chain) :
    ChainOk (BB.rewrite pre post last chain new res (BB.next + new.length)) opcode' front'
      chain' where
  isAssociative := h'.isAssociative
  front_mem := by
    obtain ⟨i, hi, rfl, hop⟩ := h'.front_mem
    refine ⟨_, t.mem_left hi fun hin => ?_, rfl, hop⟩
    exact hdisjoint i.id List.mem_cons_self (List.mem_cons_of_mem _ hin)
  links := h'.links.imp_of_mem_imp fun x y hx hy hlink => by
    obtain ⟨i, hi, rfl⟩ := h'.mem_ids hx
    exact t.link hBB hlink (hdisjoint _ hx)
      (fun hin => hdisjoint y hy (List.mem_cons_of_mem _ hin)) (hBB.lt i hi)
  ne_nil := h'.ne_nil

end Tree

/-- A chain that can be broken. -/
def Breakable (BB : BasicBlock E) (c : List ℕ) : Prop :=
  ∃ opcode front chain, c = front :: chain ∧ ChainOk BB opcode front chain

/-- It still can when another one has been broken. -/
theorem Tree.breakable (t : Tree BB opcode front chain pre post last inputs new res)
    (hBB : BB.WellFormed reads) {c : List ℕ} (hdisjoint : List.Disjoint (front :: chain) c)
    (h : Breakable BB c) :
    Breakable (BB.rewrite pre post last chain new res (BB.next + new.length)) c := by
  obtain ⟨opcode', front', chain', rfl, h'⟩ := h
  exact ⟨opcode', front', chain', rfl, t.chainOk hBB h' fun x hx hin => hdisjoint hin hx⟩

/-- **Chains that share no instruction are all broken, and the values are kept.** -/
theorem breakChains_keeps : ∀ (chains : List (List ℕ)) (BB : BasicBlock E),
    BB.WellFormed reads → (∀ c ∈ chains, Breakable BB c) → chains.Pairwise List.Disjoint →
      ∃ BB', chains.foldlM breakChain BB = some BB' ∧ Keeps BB BB'
  | [], BB, hBB, _, _ => ⟨BB, rfl, Keeps.refl hBB⟩
  | c :: chains, BB, hBB, hall, hpair => by
      obtain ⟨hdisjoint, hrest⟩ := List.pairwise_cons.mp hpair
      obtain ⟨opcode, front, chain, rfl, h⟩ := hall c List.mem_cons_self
      obtain ⟨pre, post, last, inputs, new, res, t⟩ := h.exists_tree hBB
      have hkeeps := t.keeps h hBB
      obtain ⟨BB', hrun, hBB'⟩ := breakChains_keeps chains _ hkeeps.wellFormed
        (fun c hc => t.breakable hBB (hdisjoint c hc) (hall c (List.mem_cons_of_mem _ hc))) hrest
      refine ⟨BB', ?_, hkeeps.trans hBB'⟩
      rw [List.foldlM_cons, t.breakChain_eq h hBB]
      exact hrun

end Kremlin.Instrument.AssociativeDependenceBreak
