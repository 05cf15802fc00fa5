/-
  Kremlin.Library.StraightLine — rewriting a list of instructions.

  Each instruction gives a value to its own name, and may change the memory.
  Its operands are names of instructions before it, or values from outside; some
  instructions (phis) do not read theirs when they are executed.

  Main results:
    * `Defined.value` — at the end, the value of an instruction without effects is
      the one that its operands have at the end;
    * `Rewriting.simulates` — some instructions without effects are replaced by
      others: whoever read the last of them reads the result of the new ones.
-/
import Mathlib.Data.List.Nodup
import Mathlib.Data.Set.Insert
import Mathlib.Logic.Function.Basic
import Mathlib.Tactic.Common

namespace Kremlin.Library.StraightLine

variable {O E V M : Type}

/-! ## §1. Instructions. -/

/-- An operand: an instruction, or a value from outside. -/
inductive Operand (E : Type) where
  | inst (id : ℕ)
  | ext (e : E)
  deriving DecidableEq

/-- An instruction, named by a number. -/
structure Inst (O E : Type) where
  id : ℕ
  op : O
  operands : List (Operand E)
  deriving DecidableEq

/-- The values of the names, and the memory. -/
structure State (V M : Type) where
  env : ℕ → V
  mem : M

/-- What operands from outside are, and what the instructions do. -/
structure Interp (O E V M : Type) where
  ext : E → V
  step : ℕ → O → List V → M → V × M

/-- The value of an operand. -/
def Operand.eval (F : Interp O E V M) (s : State V M) : Operand E → V
  | .inst id => s.env id
  | .ext e => F.ext e

/-- The instruction sets its own name. -/
def exec (F : Interp O E V M) (s : State V M) (i : Inst O E) : State V M :=
  let result := F.step i.id i.op (i.operands.map (Operand.eval F s)) s.mem
  ⟨Function.update s.env i.id result.1, result.2⟩

/-- The instructions in order. -/
def execAll (F : Interp O E V M) (insts : List (Inst O E)) (s : State V M) : State V M :=
  insts.foldl (exec F) s

/-- The first instruction first. -/
theorem execAll_cons (F : Interp O E V M) (i : Inst O E) (insts : List (Inst O E))
    (s : State V M) : execAll F (i :: insts) s = execAll F insts (exec F s i) := rfl

/-- One part after the other. -/
theorem execAll_append (F : Interp O E V M) (insts insts' : List (Inst O E)) (s : State V M) :
    execAll F (insts ++ insts') s = execAll F insts' (execAll F insts s) := List.foldl_append ..

/-- The instruction has the value `f` of its operands, and no effect. -/
def Pure (F : Interp O E V M) (i : Inst O E) (f : List V → V) : Prop :=
  ∀ args mem, F.step i.id i.op args mem = (f args, mem)

/-! ## §2. Names that are defined. -/

/-- The names of some instructions. -/
def ids (insts : List (Inst O E)) : Set ℕ := {x | ∃ i ∈ insts, i.id = x}

/-- The names of a longer list. -/
theorem ids_cons (i : Inst O E) (insts : List (Inst O E)) :
    ids (i :: insts) = insert i.id (ids insts) := by
  ext x
  simp [ids, eq_comm]

/-- The names of two parts. -/
theorem ids_append (insts insts' : List (Inst O E)) :
    ids (insts ++ insts') = ids insts ∪ ids insts' := by
  ext x
  show (∃ i ∈ insts ++ insts', i.id = x) ↔ (∃ i ∈ insts, i.id = x) ∨ ∃ i ∈ insts', i.id = x
  simp only [List.mem_append, or_and_right, exists_or]

/-- Each instruction has a new name and reads only known ones. -/
def Defined (reads : O → Bool) : Set ℕ → List (Inst O E) → Prop
  | _, [] => True
  | known, i :: insts => i.id ∉ known ∧
      (reads i.op = true → ∀ x, .inst x ∈ i.operands → x ∈ known) ∧
      Defined reads (insert i.id known) insts

variable {reads : O → Bool} {known : Set ℕ} {insts insts' : List (Inst O E)}

/-- The second part may read the names of the first. -/
theorem defined_append : Defined reads known (insts ++ insts') ↔
    Defined reads known insts ∧ Defined reads (known ∪ ids insts) insts' := by
  induction insts generalizing known with
  | nil =>
      have hnone : known ∪ ids ([] : List (Inst O E)) = known := by
        ext x
        simp [ids]
      rw [hnone]
      exact (and_iff_right trivial).symm
  | cons i insts ih =>
      have hset : known ∪ ids (i :: insts) = insert i.id known ∪ ids insts := by
        rw [ids_cons, Set.union_insert, Set.insert_union]
      rw [hset, List.cons_append]
      show _ ∧ _ ∧ _ ↔ (_ ∧ _ ∧ _) ∧ _
      rw [ih, and_assoc, and_assoc]

/-- New names are not known. -/
theorem Defined.notMem (h : Defined reads known insts) {x : ℕ} (hx : x ∈ ids insts) :
    x ∉ known := by
  induction insts generalizing known with
  | nil =>
      obtain ⟨i, hi, -⟩ := hx
      cases hi
  | cons i insts ih =>
      rw [ids_cons] at hx
      rcases hx with rfl | hx
      · exact h.1
      · exact fun hin => ih h.2.2 hx (Set.mem_insert_of_mem _ hin)

/-- No name is given twice. -/
theorem Defined.unique (h : Defined reads known insts) {i j : Inst O E} (hi : i ∈ insts)
    (hj : j ∈ insts) (hid : i.id = j.id) : i = j := by
  induction insts generalizing known with
  | nil => cases hi
  | cons k insts ih =>
      have hnew : ∀ j ∈ insts, j.id ≠ k.id := fun j hj heq =>
        h.2.2.notMem ⟨j, hj, heq⟩ (Set.mem_insert _ _)
      rcases List.mem_cons.mp hi with hik | hik
      · rcases List.mem_cons.mp hj with hjk | hjk
        · rw [hik, hjk]
        · exact absurd (hid.symm.trans (congrArg Inst.id hik)) (hnew j hjk)
      · rcases List.mem_cons.mp hj with hjk | hjk
        · exact absurd (hid.trans (congrArg Inst.id hjk)) (hnew i hik)
        · exact ih h.2.2 hik hjk

/-- Known names keep their values. -/
theorem Defined.keeps (h : Defined reads known insts) (F : Interp O E V M) (s : State V M)
    {x : ℕ} (hx : x ∈ known) : (execAll F insts s).env x = s.env x := by
  induction insts generalizing known s with
  | nil => rfl
  | cons i insts ih =>
      rw [execAll_cons, ih h.2.2 _ (Set.mem_insert_of_mem _ hx)]
      have hne : x ≠ i.id := by
        rintro rfl
        exact h.1 hx
      exact Function.update_of_ne hne ..

/-- **The value of an instruction without effects**, read at the end. -/
theorem Defined.value (h : Defined reads known insts) (F : Interp O E V M) (s : State V M)
    {i : Inst O E} (hi : i ∈ insts) (hreads : reads i.op = true) {f : List V → V}
    (hpure : Pure F i f) : (execAll F insts s).env i.id =
      f (i.operands.map (Operand.eval F (execAll F insts s))) := by
  induction insts generalizing known s with
  | nil => cases hi
  | cons j insts ih =>
      rcases List.mem_cons.mp hi with rfl | hi
      · rw [execAll_cons, h.2.2.keeps F _ (Set.mem_insert _ _)]
        show Function.update s.env i.id (F.step i.id i.op _ s.mem).1 i.id = _
        rw [Function.update_self, hpure]
        -- the operands were known before, and keep their values
        refine congrArg f (List.map_congr_left fun v hv => ?_)
        cases v with
        | ext e => rfl
        | inst x =>
            have hx := h.2.1 hreads x hv
            show s.env x = (execAll F insts (exec F s i)).env x
            have hne : x ≠ i.id := by
              rintro rfl
              exact h.1 hx
            rw [h.2.2.keeps F _ (Set.mem_insert_of_mem _ hx)]
            exact (Function.update_of_ne hne ..).symm
      · exact ih h.2.2 _ hi

/-- An operand that is read is the name of an earlier instruction, or known. -/
theorem Defined.operand_mem (h : Defined reads known insts) {i : Inst O E} (hi : i ∈ insts)
    (hreads : reads i.op = true) {x : ℕ} (hx : .inst x ∈ i.operands) :
    x ∈ known ∪ ids insts := by
  obtain ⟨l, r, rfl⟩ := List.append_of_mem hi
  have hread := (defined_append.mp h).2.2.1 hreads x hx
  rw [ids_append, ← Set.union_assoc]
  exact Set.mem_union_left _ hread

/-- More names may be known, if they are not the new ones. -/
theorem Defined.mono {known' : Set ℕ} (h : Defined reads known insts) (hsub : known ⊆ known')
    (hnew : ∀ x ∈ ids insts, x ∉ known') : Defined reads known' insts := by
  induction insts generalizing known known' with
  | nil => trivial
  | cons i insts ih =>
      rw [ids_cons] at hnew
      refine ⟨hnew i.id (Set.mem_insert _ _), fun hreads x hx => hsub (h.2.1 hreads x hx), ?_⟩
      refine ih h.2.2 (Set.insert_subset_insert hsub) fun x hx hin => ?_
      rcases Set.mem_insert_iff.mp hin with rfl | hin
      · exact h.2.2.notMem hx (Set.mem_insert _ _)
      · exact hnew x (Set.mem_insert_of_mem _ hx) hin

/-- Where a name is given. -/
def rank (insts : List (Inst O E)) (x : ℕ) : ℕ := insts.findIdx fun i => decide (i.id = x)

/-- What comes first has the smaller rank. -/
theorem rank_lt_iff {x : ℕ} : rank (insts ++ insts') x < insts.length ↔ x ∈ ids insts := by
  unfold rank
  rw [List.findIdx_append]
  constructor
  · intro hlt
    split at hlt
    · next hfind =>
      obtain ⟨i, hi, hid⟩ := List.findIdx_lt_length.mp hfind
      exact ⟨i, hi, of_decide_eq_true hid⟩
    · omega
  · rintro ⟨i, hi, hid⟩
    have hfind : insts.findIdx (fun i => decide (i.id = x)) < insts.length :=
      List.findIdx_lt_length.mpr ⟨i, hi, decide_eq_true hid⟩
    rw [if_pos hfind]
    exact hfind

/-- Names have ranks below the length. -/
theorem rank_lt_length {x : ℕ} (hx : x ∈ ids insts) : rank insts x < insts.length := by
  obtain ⟨i, hi, hid⟩ := hx
  exact List.findIdx_lt_length.mpr ⟨i, hi, decide_eq_true hid⟩

/-- What is given before an instruction. -/
theorem mem_of_rank_lt {i : Inst O E} {x : ℕ}
    (hlt : rank (insts ++ i :: insts') x < rank (insts ++ i :: insts') i.id) : x ∈ ids insts := by
  have hsplit : insts ++ i :: insts' = (insts ++ [i]) ++ insts' := by
    rw [List.append_assoc]
    rfl
  have hin : i.id ∈ ids (insts ++ [i]) :=
    ⟨i, List.mem_append_right _ (List.mem_singleton_self i), rfl⟩
  have hrank : rank (insts ++ i :: insts') i.id < insts.length + 1 := by
    rw [hsplit, ← List.length_singleton (a := i), ← List.length_append]
    exact rank_lt_iff.mpr hin
  exact rank_lt_iff.mp (Nat.lt_of_lt_of_le hlt (Nat.le_of_lt_succ hrank))

/-- What an instruction reads is given before it. -/
theorem Defined.rank_lt (h : Defined reads ∅ insts) {i : Inst O E} (hi : i ∈ insts)
    (hreads : reads i.op = true) {x : ℕ} (hx : .inst x ∈ i.operands) :
    rank insts x < rank insts i.id := by
  obtain ⟨l, r, rfl⟩ := List.append_of_mem hi
  obtain ⟨-, hnew, hread, -⟩ := defined_append.mp h
  rw [Set.empty_union] at hnew hread
  exact Nat.lt_of_lt_of_le (rank_lt_iff.mpr (hread hreads x hx))
    (Nat.le_of_not_lt fun hlt => hnew (rank_lt_iff.mp hlt))

/-! ## §3. Blocks. -/

/-- `v` is read instead of `x`. -/
def Operand.replace (x : ℕ) (v : Operand E) : Operand E → Operand E
  | .inst y => if y = x then v else .inst y
  | .ext e => .ext e

/-- In all operands. -/
def Inst.replace (x : ℕ) (v : Operand E) (i : Inst O E) : Inst O E :=
  { i with operands := i.operands.map (Operand.replace x v) }

/-- Instructions, the operands that are used behind them, and a bound of the names. -/
structure Block (O E : Type) where
  insts : List (Inst O E)
  outside : List (Operand E)
  next : ℕ
  deriving DecidableEq

/-- The operands that are read when the block is left. -/
def Block.exits (reads : O → Bool) (b : Block O E) : List (Operand E) :=
  (b.insts.filter fun i => !reads i.op).flatMap Inst.operands ++ b.outside

/-- Names are set once, before they are read, and below the next name. -/
structure Block.WellFormed (reads : O → Bool) (b : Block O E) : Prop where
  defined : Defined reads ∅ b.insts
  lt : ∀ i ∈ b.insts, i.id < b.next
  exits : ∀ x, .inst x ∈ b.exits reads → x ∈ ids b.insts

/-- Other operands stay. -/
theorem Operand.replace_of_ne {x : ℕ} {v w : Operand E} (h : w ≠ .inst x) :
    Operand.replace x v w = w := by
  cases w with
  | ext e => rfl
  | inst y =>
      refine if_neg fun heq => h ?_
      rw [heq]

/-- No name changes. -/
@[simp] theorem ids_map_replace (x : ℕ) (v : Operand E) (insts : List (Inst O E)) :
    ids (insts.map (Inst.replace x v)) = ids insts := by
  ext y
  constructor
  · rintro ⟨i, hi, rfl⟩
    obtain ⟨j, hj, rfl⟩ := List.mem_map.mp hi
    exact ⟨j, hj, rfl⟩
  · rintro ⟨i, hi, rfl⟩
    exact ⟨_, List.mem_map_of_mem hi, rfl⟩

/-- An operand that is read comes from the block. -/
theorem Block.WellFormed.operand_mem {b : Block O E} (h : b.WellFormed reads) {i : Inst O E}
    (hi : i ∈ b.insts) {x : ℕ} (hx : .inst x ∈ i.operands) : x ∈ ids b.insts := by
  cases hreads : reads i.op with
  | true =>
      have hmem := h.defined.operand_mem hi hreads hx
      rwa [Set.empty_union] at hmem
  | false =>
      refine h.exits x (List.mem_append_left _ (List.mem_flatMap.mpr ⟨i, ?_, hx⟩))
      exact List.mem_filter.mpr ⟨hi, by rw [hreads]; rfl⟩

/-! ## §4. States that agree but for some names. -/

/-- Two states that differ in dead names only. -/
structure Off (dead : Set ℕ) (s s' : State V M) : Prop where
  env : ∀ x, x ∉ dead → s.env x = s'.env x
  mem : s.mem = s'.mem

section Off

variable {F : Interp O E V M} {dead : Set ℕ} {s s' : State V M} {i i' : Inst O E}

/-- More names may be dead. -/
theorem Off.mono {dead' : Set ℕ} (hsub : dead ⊆ dead') (h : Off dead s s') : Off dead' s s' :=
  ⟨fun x hx => h.env x fun hin => hx (hsub hin), h.mem⟩

/-- Both sides execute an instruction with the same arguments. -/
theorem Off.exec (h : Off dead s s') (hid : i'.id = i.id)
    (hstep : F.step i'.id i'.op (i'.operands.map (Operand.eval F s')) s'.mem =
      F.step i.id i.op (i.operands.map (Operand.eval F s)) s.mem) :
    Off dead (exec F s i) (exec F s' i') := by
  constructor
  · intro x hx
    show Function.update s.env i.id _ x = Function.update s'.env i'.id _ x
    rw [hstep, hid]
    by_cases heq : x = i.id
    · rw [heq, Function.update_self, Function.update_self]
    · rw [Function.update_of_ne heq, Function.update_of_ne heq]
      exact h.env x hx
  · show (F.step _ _ _ _).2 = (F.step _ _ _ _).2
    rw [hstep]

/-- One side executes an instruction that does not matter. -/
theorem Off.exec_left (h : Off dead s s') (hid : i.id ∈ dead) {f : List V → V}
    (hpure : Pure F i f) : Off dead (StraightLine.exec F s i) s' := by
  constructor
  · intro x hx
    have hne : x ≠ i.id := by
      rintro rfl
      exact hx hid
    exact (Function.update_of_ne hne ..).trans (h.env x hx)
  · show (F.step _ _ _ _).2 = _
    rw [hpure]
    exact h.mem

/-- Instructions of dead names keep it so. -/
theorem Off.execAll_right {insts : List (Inst O E)} (h : Off dead s s')
    (hids : ∀ i ∈ insts, i.id ∈ dead) (hpure : ∀ i ∈ insts, ∃ f, Pure F i f) :
    Off dead s (execAll F insts s') := by
  induction insts generalizing s' with
  | nil => exact h
  | cons i insts ih =>
      obtain ⟨f, hf⟩ := hpure i List.mem_cons_self
      have hflip : Off dead s' s := ⟨fun x hx => (h.env x hx).symm, h.mem.symm⟩
      have hstep := hflip.exec_left (hids i List.mem_cons_self) hf
      exact ih ⟨fun x hx => (hstep.env x hx).symm, hstep.mem.symm⟩
        (fun j hj => hids j (List.mem_cons_of_mem _ hj))
        (fun j hj => hpure j (List.mem_cons_of_mem _ hj))

end Off

/-! ## §5. Replacing instructions. -/

/-- The instructions named `dead`, of which `last` comes last, are replaced by `new`
in front of `last`; whoever read `last` reads `res` instead. -/
structure Rewriting (reads : O → Bool) (b : Block O E) (pre post : List (Inst O E))
    (last : Inst O E) (dead : List ℕ) (new : List (Inst O E)) (res next : ℕ) : Prop where
  insts : b.insts = pre ++ last :: post
  last_mem : last.id ∈ dead
  before : ∀ x ∈ dead, x ∈ ids (pre ++ [last])
  reading : ∀ i ∈ b.insts, i.id ∈ dead → reads i.op = true
  unused : ∀ i ∈ b.insts, i.id ∉ dead → ∀ x ∈ dead, x ≠ last.id → .inst x ∉ i.operands
  outside : ∀ x ∈ dead, x ≠ last.id → .inst x ∉ b.outside
  new_defined : Defined reads {x | x ∈ ids pre ∧ x ∉ dead} new
  new_reading : ∀ i ∈ new, reads i.op = true
  fresh : ∀ i ∈ new, b.next ≤ i.id ∧ i.id < next
  next_le : b.next ≤ next
  res_mem : res ∈ ids new

/-- The block after that. -/
def Block.rewrite (b : Block O E) (pre post : List (Inst O E)) (last : Inst O E) (dead : List ℕ)
    (new : List (Inst O E)) (res next : ℕ) : Block O E where
  insts := ((pre ++ new ++ last :: post).map (Inst.replace last.id (.inst res))).filter
    fun i => i.id ∉ dead
  outside := b.outside.map (Operand.replace last.id (.inst res))
  next := next

namespace Rewriting

variable {b : Block O E} {pre post new : List (Inst O E)} {last : Inst O E} {dead : List ℕ}
  {res next : ℕ}

/-- Of `insts`, what is left. -/
abbrev left (last : Inst O E) (dead : List ℕ) (res : ℕ) (insts : List (Inst O E)) :
    List (Inst O E) :=
  (insts.map (Inst.replace last.id (.inst res))).filter fun i => i.id ∉ dead

/-- A dead instruction is left out. -/
theorem left_cons_of_mem {i : Inst O E} (hi : i.id ∈ dead) (insts : List (Inst O E)) :
    left last dead res (i :: insts) = left last dead res insts := by
  refine List.filter_cons_of_neg ?_
  show ¬decide (i.id ∉ dead) = true
  rw [decide_eq_true_eq, not_not]
  exact hi

/-- Another one reads the result. -/
theorem left_cons_of_notMem {i : Inst O E} (hi : i.id ∉ dead) (insts : List (Inst O E)) :
    left last dead res (i :: insts) =
      i.replace last.id (.inst res) :: left last dead res insts :=
  List.filter_cons_of_pos (decide_eq_true hi)

/-- The names that are left. -/
theorem ids_left (insts : List (Inst O E)) :
    ids (left last dead res insts) = {x | x ∈ ids insts ∧ x ∉ dead} := by
  ext x
  constructor
  · rintro ⟨i, hi, rfl⟩
    obtain ⟨hmem, hdead⟩ := List.mem_filter.mp hi
    have hin : i.id ∈ ids (insts.map (Inst.replace last.id (.inst res))) := ⟨i, hmem, rfl⟩
    rw [ids_map_replace] at hin
    exact ⟨hin, of_decide_eq_true hdead⟩
  · rintro ⟨⟨i, hi, rfl⟩, hdead⟩
    exact ⟨_, List.mem_filter.mpr ⟨List.mem_map_of_mem hi, decide_eq_true hdead⟩, rfl⟩

/-- What `F` must be like: phis do not read their operands, and the instructions that
come and go have no effect. -/
structure Quiet (F : Interp O E V M) (reads : O → Bool) (b : Block O E) (dead : List ℕ)
    (new : List (Inst O E)) : Prop where
  phi : ∀ id op args args' mem, reads op = false → F.step id op args mem = F.step id op args' mem
  dead_pure : ∀ i ∈ b.insts, i.id ∈ dead → ∃ f, Pure F i f
  new_pure : ∀ i ∈ new, ∃ f, Pure F i f

variable (h : Rewriting reads b pre post last dead new res next)

include h

/-- The new instructions stand in place of the last dead one. -/
theorem rewrite_insts : (b.rewrite pre post last dead new res next).insts =
    left last dead res pre ++ left last dead res new ++ left last dead res post := by
  show left last dead res (pre ++ new ++ last :: post) = _
  have hlast : left last dead res (last :: post) = left last dead res post :=
    left_cons_of_mem h.last_mem post
  rw [← hlast]
  simp only [left, List.map_append, List.filter_append]

variable (hb : b.WellFormed reads)

include hb

/-- Dead names are old. -/
theorem dead_lt {x : ℕ} (hx : x ∈ dead) : x < b.next := by
  obtain ⟨i, hi, rfl⟩ := h.before x hx
  refine hb.lt i ?_
  rw [h.insts]
  rcases List.mem_append.mp hi with hi | hi
  · exact List.mem_append_left _ hi
  · rw [List.mem_singleton.mp hi]
    exact List.mem_append_right _ List.mem_cons_self

/-- New names are no names of the block. -/
theorem new_notMem {i : Inst O E} (hi : i ∈ new) : i.id ∉ dead := fun hin =>
  Nat.not_lt_of_le (h.fresh i hi).1 (h.dead_lt hb hin)

/-- The parts are defined one after the other. -/
theorem defined_parts : Defined reads ∅ pre ∧ last.id ∉ ids pre ∧
    Defined reads (insert last.id (ids pre)) post := by
  have hdefined := hb.defined
  rw [h.insts] at hdefined
  obtain ⟨hpre, hlast, -, hpost⟩ := defined_append.mp hdefined
  rw [Set.empty_union] at hlast hpost
  exact ⟨hpre, hlast, hpost⟩

/-- An instruction before `last` does not read it. -/
theorem pre_operands {i : Inst O E} (hi : i ∈ pre) (hreads : reads i.op = true)
    (hdead : i.id ∉ dead) {x : ℕ} (hx : .inst x ∈ i.operands) : x ∈ ids pre ∧ x ∉ dead := by
  obtain ⟨hpre, hlast, -⟩ := h.defined_parts hb
  have hin := hpre.operand_mem hi hreads hx
  rw [Set.empty_union] at hin
  have hmem : i ∈ b.insts := by
    rw [h.insts]
    exact List.mem_append_left _ hi
  refine ⟨hin, fun hxd => ?_⟩
  by_cases hxl : x = last.id
  · exact hlast (hxl ▸ hin)
  · exact h.unused i hmem hdead x hxd hxl hx

/-- The instructions before `last` are not changed, but for phis. -/
theorem replace_pre {i : Inst O E} (hi : i ∈ pre) (hreads : reads i.op = true)
    (hdead : i.id ∉ dead) : i.replace last.id (.inst res) = i := by
  have hsame : i.operands.map (Operand.replace last.id (.inst res)) = i.operands := by
    refine (List.map_congr_left fun v hv => ?_).trans (List.map_id' i.operands)
    refine Operand.replace_of_ne fun heq => ?_
    rw [heq] at hv
    exact (h.pre_operands hb hi hreads hdead hv).2 h.last_mem
  unfold Inst.replace
  rw [hsame]

/-- Nor are the new ones. -/
theorem left_new : left last dead res new = new := by
  have hsame : ∀ i ∈ new, i.replace last.id (.inst res) = i := by
    intro i hi
    have hoperands : i.operands.map (Operand.replace last.id (.inst res)) = i.operands := by
      refine (List.map_congr_left fun v hv => ?_).trans (List.map_id' i.operands)
      refine Operand.replace_of_ne fun heq => ?_
      rw [heq] at hv
      rcases h.new_defined.operand_mem hi (h.new_reading i hi) hv with hin | ⟨j, hj, hid⟩
      · exact hin.2 h.last_mem
      · exact h.new_notMem hb hj (hid ▸ h.last_mem)
    unfold Inst.replace
    rw [hoperands]
  have hmap : new.map (Inst.replace last.id (.inst res)) = new :=
    (List.map_congr_left hsame).trans (List.map_id' new)
  unfold left
  rw [hmap, List.filter_eq_self]
  exact fun i hi => decide_eq_true (h.new_notMem hb hi)

omit hb in
/-- What reads an instruction afterwards. -/
theorem operand_left {i : Inst O E} (hi : i ∈ b.insts) (hdead : i.id ∉ dead) {x : ℕ}
    (hx : .inst x ∈ (i.replace last.id (.inst res)).operands) :
    x = res ∧ .inst last.id ∈ i.operands ∨ .inst x ∈ i.operands ∧ x ∉ dead := by
  obtain ⟨v, hv, heq⟩ := List.mem_map.mp hx
  cases v with
  | ext e => cases heq
  | inst y =>
      by_cases hy : y = last.id
      · rw [hy] at hv heq
        have hres : (Operand.inst res : Operand E) = .inst x := (if_pos rfl).symm.trans heq
        cases hres
        exact .inl ⟨rfl, hv⟩
      · have hsame : (Operand.inst y : Operand E) = .inst x := (if_neg hy).symm.trans heq
        cases hsame
        exact .inr ⟨hv, fun hxd => h.unused i hi hdead x hxd hy hv⟩

/-- Of instructions that were well formed, those that are left are. -/
theorem defined_left {insts : List (Inst O E)} {known known' : Set ℕ}
    (hdefined : Defined reads known insts) (hmem : ∀ i ∈ insts, i ∈ b.insts)
    (hleft : ∀ x ∈ known, x ∉ dead → x ∈ known') (hknown : ∀ x ∈ known', x ∈ known ∨ b.next ≤ x)
    (hres : ∀ i ∈ insts, i.id ∉ dead → .inst last.id ∈ i.operands → reads i.op = true →
      res ∈ known') : Defined reads known' (left last dead res insts) := by
  induction insts generalizing known known' with
  | nil => trivial
  | cons i insts ih =>
      obtain ⟨hnew, hreads, hrest⟩ := hdefined
      have hmem' : ∀ j ∈ insts, j ∈ b.insts := fun j hj => hmem j (List.mem_cons_of_mem i hj)
      have hi := hmem i List.mem_cons_self
      -- the induction is on the list; what is known may lose dead names and gain new ones
      by_cases hdead : i.id ∈ dead
      · rw [left_cons_of_mem hdead]
        refine ih hrest hmem' (fun x hx hxd => ?_) (fun x hx => ?_)
          (fun j hj => hres j (List.mem_cons_of_mem i hj))
        · rcases Set.mem_insert_iff.mp hx with rfl | hx
          · exact absurd hdead hxd
          · exact hleft x hx hxd
        · exact (hknown x hx).imp_left (Set.mem_insert_of_mem _)
      · rw [left_cons_of_notMem hdead]
        refine ⟨fun hin => ?_, fun hread x hx => ?_, ?_⟩
        · rcases hknown _ hin with hin | hle
          · exact hnew hin
          · exact Nat.not_lt_of_le hle (hb.lt i hi)
        · rcases h.operand_left hi hdead hx with ⟨rfl, hlast⟩ | ⟨hx, hxd⟩
          · exact hres i List.mem_cons_self hdead hlast hread
          · exact hleft x (hreads hread x hx) hxd
        · refine ih hrest hmem' (fun x hx hxd => ?_) (fun x hx => ?_) (fun j hj hd hl hr => ?_)
          · rcases Set.mem_insert_iff.mp hx with rfl | hx
            · exact Set.mem_insert _ _
            · exact Set.mem_insert_of_mem _ (hleft x hx hxd)
          · rcases Set.mem_insert_iff.mp hx with rfl | hx
            · exact .inl (Set.mem_insert _ _)
            · exact (hknown x hx).imp_left (Set.mem_insert_of_mem _)
          · exact Set.mem_insert_of_mem _ (hres j (List.mem_cons_of_mem i hj) hd hl hr)

/-- The operands that are read behind the block are those from before, replaced. -/
theorem rewrite_exits : (b.rewrite pre post last dead new res next).exits reads =
    (b.exits reads).map (Operand.replace last.id (.inst res)) := by
  have hpart : ∀ insts : List (Inst O E), (∀ i ∈ insts, i ∈ b.insts) →
      ((left last dead res insts).filter fun i => !reads i.op).flatMap Inst.operands =
        ((insts.filter fun i => !reads i.op).flatMap Inst.operands).map
          (Operand.replace last.id (.inst res)) := by
    intro insts hmem
    induction insts with
    | nil => rfl
    | cons i insts ih =>
        have ih' := ih fun j hj => hmem j (List.mem_cons_of_mem i hj)
        have hi := hmem i List.mem_cons_self
        by_cases hdead : i.id ∈ dead
        · have hread := h.reading i hi hdead
          rw [left_cons_of_mem hdead, ih', List.filter_cons_of_neg (by rw [hread]; decide)]
        · rw [left_cons_of_notMem hdead]
          have hsame : reads (i.replace last.id (.inst res)).op = reads i.op := rfl
          cases hread : reads i.op with
          | true =>
              rw [List.filter_cons_of_neg (by rw [hsame, hread]; decide),
                List.filter_cons_of_neg (by rw [hread]; decide), ih']
          | false =>
              rw [List.filter_cons_of_pos (by rw [hsame, hread]; rfl),
                List.filter_cons_of_pos (by rw [hread]; rfl), List.flatMap_cons,
                List.flatMap_cons, ih', List.map_append]
              rfl
  -- !reads i.op) = [] := by => the new instructions read their operands, so they are no exits
  have hnone : (new.filter fun i => !reads i.op) = [] := by
    rw [List.filter_eq_nil_iff]
    intro i hi
    rw [h.new_reading i hi]
    decide
  have hlast : last ∈ b.insts := by
    rw [h.insts]
    exact List.mem_append_right _ List.mem_cons_self
  have hlastRead := h.reading last hlast h.last_mem
  unfold Block.exits
  rw [h.rewrite_insts, h.left_new hb, List.filter_append, List.filter_append, hnone,
    List.append_nil, List.flatMap_append, hpart pre, hpart post, h.insts, List.filter_append,
    List.filter_cons_of_neg (by rw [hlastRead]; decide), List.flatMap_append, List.map_append,
    List.map_append]
  · rfl
  · intro i hi
    rw [h.insts]
    exact List.mem_append_right _ (List.mem_cons_of_mem _ hi)
  · intro i hi
    rw [h.insts]
    exact List.mem_append_left _ hi

/-- The names that are left. -/
theorem ids_rewrite : ids (b.rewrite pre post last dead new res next).insts =
    {x | x ∈ ids b.insts ∧ x ∉ dead} ∪ ids new := by
  rw [h.rewrite_insts, h.left_new hb, ids_append, ids_append, ids_left, ids_left, h.insts,
    ids_append, ids_cons]
  ext x
  constructor
  · rintro ((⟨hx, hd⟩ | hx) | ⟨hx, hd⟩)
    · exact .inl ⟨.inl hx, hd⟩
    · exact .inr hx
    · exact .inl ⟨.inr (Set.mem_insert_of_mem _ hx), hd⟩
  · rintro (⟨hx | hx, hd⟩ | hx)
    · exact .inl (.inl ⟨hx, hd⟩)
    · rcases Set.mem_insert_iff.mp hx with rfl | hx
      · exact absurd h.last_mem hd
      · exact .inr ⟨hx, hd⟩
    · exact .inl (.inr hx)

/-- **The new block is well formed.** -/
theorem wellFormed : (b.rewrite pre post last dead new res next).WellFormed reads := by
  obtain ⟨hpre, hlast, hpost⟩ := h.defined_parts hb
  have hpreMem : ∀ i ∈ pre, i ∈ b.insts := by
    intro i hi
    rw [h.insts]
    exact List.mem_append_left _ hi
  have hpostMem : ∀ i ∈ post, i ∈ b.insts := by
    intro i hi
    rw [h.insts]
    exact List.mem_append_right _ (List.mem_cons_of_mem _ hi)
  constructor
  · rw [h.rewrite_insts, h.left_new hb, defined_append, defined_append, Set.empty_union, ids_left,
      ids_append, ids_left, Set.empty_union]
    refine ⟨⟨?_, h.new_defined⟩, ?_⟩
    · -- the part before the new code reads nothing that was erased
      refine h.defined_left hb hpre hpreMem (fun x hx => absurd hx (Set.notMem_empty x))
        (fun x hx => absurd hx (Set.notMem_empty x)) fun i hi hdead hop hread => ?_
      exact absurd h.last_mem (h.pre_operands hb hi hread hdead hop).2
    · -- the part after it reads the result in place of `last`
      refine h.defined_left hb hpost hpostMem (fun x hx hxd => ?_) (fun x hx => ?_)
        fun _ _ _ _ _ => .inr h.res_mem
      · rcases Set.mem_insert_iff.mp hx with rfl | hx
        · exact absurd h.last_mem hxd
        · exact .inl ⟨hx, hxd⟩
      · rcases hx with ⟨hx, -⟩ | ⟨i, hi, rfl⟩
        · exact .inl (Set.mem_insert_of_mem _ hx)
        · exact .inr (h.fresh i hi).1
  · intro i hi
    have hin : i.id ∈ ids (b.rewrite pre post last dead new res next).insts := ⟨i, hi, rfl⟩
    rw [h.ids_rewrite hb] at hin
    rcases hin with ⟨⟨j, hj, hid⟩, -⟩ | ⟨j, hj, hid⟩
    · exact hid ▸ Nat.lt_of_lt_of_le (hb.lt j hj) h.next_le
    · exact hid ▸ (h.fresh j hj).2
  · intro x hx
    rw [h.rewrite_exits hb] at hx
    rw [h.ids_rewrite hb]
    obtain ⟨v, hv, heq⟩ := List.mem_map.mp hx
    cases v with
    | ext e => cases heq
    | inst y =>
        by_cases hy : y = last.id
        · -- an exit that read `last` reads the result
          have hres : (Operand.inst res : Operand E) = .inst x := (if_pos hy).symm.trans heq
          cases hres
          exact .inr h.res_mem
        · have hsame : (Operand.inst y : Operand E) = .inst x := (if_neg hy).symm.trans heq
          cases hsame
          refine .inl ⟨hb.exits x hv, fun hxd => ?_⟩
          rcases List.mem_append.mp hv with hv | hv
          · obtain ⟨i, hi, hop⟩ := List.mem_flatMap.mp hv
            obtain ⟨hmem, hphi⟩ := List.mem_filter.mp hi
            refine h.unused i hmem (fun hdead => ?_) x hxd hy hop
            rw [h.reading i hmem hdead] at hphi
            cases hphi
          · exact h.outside x hxd hy hv

/-! ## §6. The values are kept. -/

variable {F : Interp O E V M} (hF : Quiet F reads b dead new)

include hF

/-- Before `last`, the instructions that are left do what they did. -/
theorem simulates_pre {insts : List (Inst O E)} (hmem : ∀ i ∈ insts, i ∈ pre)
    {s s' : State V M} (hs : Off {x | x ∈ dead} s s') :
    Off {x | x ∈ dead} (execAll F insts s) (execAll F (left last dead res insts) s') := by
  induction insts generalizing s s' with
  | nil => exact hs
  | cons i insts ih =>
      have hi := hmem i List.mem_cons_self
      have hin : i ∈ b.insts := by
        rw [h.insts]
        exact List.mem_append_left _ hi
      have ih' := @ih fun j hj => hmem j (List.mem_cons_of_mem i hj)
      by_cases hdead : i.id ∈ dead
      · rw [left_cons_of_mem hdead]
        obtain ⟨f, hf⟩ := hF.dead_pure i hin hdead
        exact ih' (hs.exec_left hdead hf)
      · rw [left_cons_of_notMem hdead]
        refine ih' (hs.exec rfl ?_)
        show F.step i.id i.op _ s'.mem = F.step i.id i.op _ s.mem
        rw [← hs.mem]
        cases hread : reads i.op with
        | false => exact hF.phi _ _ _ _ _ hread
        | true =>
            rw [h.replace_pre hb hi hread hdead]
            congr 1
            refine List.map_congr_left fun v hv => ?_
            cases v with
            | ext e => rfl
            | inst x => exact (hs.env x (h.pre_operands hb hi hread hdead hv).2).symm

omit hF in
/-- Behind `last`, whoever read it reads the same value. -/
theorem simulates_post {insts : List (Inst O E)} (hmem : ∀ i ∈ insts, i ∈ b.insts)
    (hnone : ∀ i ∈ insts, i.id ∉ dead) {s s' : State V M}
    (hs : Off {x | x ∈ dead ∨ b.next ≤ x} s s') (hres : s'.env res = s.env last.id) :
    Off {x | x ∈ dead ∨ b.next ≤ x} (execAll F insts s)
        (execAll F (left last dead res insts) s') ∧
      (execAll F (left last dead res insts) s').env res = (execAll F insts s).env last.id := by
  induction insts generalizing s s' with
  | nil => exact ⟨hs, hres⟩
  | cons i insts ih =>
      have hi := hmem i List.mem_cons_self
      have hdead := hnone i List.mem_cons_self
      have hlt := hb.lt i hi
      rw [left_cons_of_notMem hdead]
      have hstep : F.step i.id i.op
          ((i.replace last.id (.inst res)).operands.map (Operand.eval F s')) s'.mem =
            F.step i.id i.op (i.operands.map (Operand.eval F s)) s.mem := by
        rw [← hs.mem]
        congr 1
        show (i.operands.map _).map _ = _
        rw [List.map_map]
        refine List.map_congr_left fun v hv => ?_
        cases v with
        | ext e => rfl
        | inst x =>
            show Operand.eval F s' (if x = last.id then _ else _) = _
            by_cases hx : x = last.id
            · rw [if_pos hx, hx]
              exact hres
            · rw [if_neg hx]
              have hxlt : x < b.next := by
                obtain ⟨j, hj, rfl⟩ := hb.operand_mem hi hv
                exact hb.lt j hj
              refine (hs.env x ?_).symm
              rintro (hxd | hle)
              · exact h.unused i hi hdead x hxd hx hv
              · exact Nat.not_lt_of_le hle hxlt
      refine ih (fun j hj => hmem j (List.mem_cons_of_mem i hj))
        (fun j hj => hnone j (List.mem_cons_of_mem i hj)) (hs.exec rfl hstep) ?_
      -- neither name is given again
      have hres' : res ≠ i.id := by
        obtain ⟨j, hj, hid⟩ := h.res_mem
        exact fun heq => Nat.not_lt_of_le (h.fresh j hj).1 (hid ▸ heq ▸ hlt)
      have hlast : last.id ≠ i.id := by
        intro heq
        exact hdead (heq ▸ h.last_mem)
      show Function.update s'.env i.id _ res = Function.update s.env i.id _ last.id
      rw [Function.update_of_ne hres', Function.update_of_ne hlast]
      exact hres

/-- **The new block does what the old one did**: the names that are left have their
values, and `res` has the value of `last`. -/
theorem simulates (s : State V M)
    (hres : (execAll F (left last dead res pre ++ new) s).env res =
      (execAll F (pre ++ [last]) s).env last.id) :
    Off {x | x ∈ dead ∨ b.next ≤ x} (execAll F b.insts s)
        (execAll F (b.rewrite pre post last dead new res next).insts s) ∧
      (execAll F (b.rewrite pre post last dead new res next).insts s).env res =
        (execAll F b.insts s).env last.id := by
  obtain ⟨-, hlast, hpost⟩ := h.defined_parts hb
  have hpre := h.simulates_pre hb hF (fun _ hi => hi)
    (⟨fun _ _ => rfl, rfl⟩ : Off {x | x ∈ dead} s s)
  have hwide : Off {x | x ∈ dead ∨ b.next ≤ x} (execAll F pre s)
      (execAll F (left last dead res pre) s) := hpre.mono fun _ hx => .inl hx
  -- up to `last` the two runs differ in dead and new names only
  have hnew := hwide.execAll_right (fun i hi => .inr (h.fresh i hi).1) hF.new_pure
  have hmem : last ∈ b.insts := by
    rw [h.insts]
    exact List.mem_append_right _ List.mem_cons_self
  obtain ⟨f, hf⟩ := hF.dead_pure last hmem h.last_mem
  have hmid := hnew.exec_left (.inl h.last_mem) hf
  rw [execAll_append, execAll_append] at hres
  rw [h.rewrite_insts, h.left_new hb, h.insts, execAll_append, execAll_append, execAll_append,
    execAll_cons]
  refine h.simulates_post hb (fun i hi => ?_) (fun i hi hdead => ?_) hmid hres
  · rw [h.insts]
    exact List.mem_append_right _ (List.mem_cons_of_mem _ hi)
  · -- the names behind `last` are new
    have hnot := hpost.notMem ⟨i, hi, rfl⟩
    have hin := h.before i.id hdead
    rw [ids_append] at hin
    rcases hin with hin | ⟨j, hj, hid⟩
    · exact hnot (Set.mem_insert_of_mem _ hin)
    · rw [List.mem_singleton.mp hj] at hid
      exact hnot (hid ▸ Set.mem_insert _ _)

/-- The values that are read behind the block. -/
theorem exits_eval (s : State V M)
    (hres : (execAll F (left last dead res pre ++ new) s).env res =
      (execAll F (pre ++ [last]) s).env last.id) :
    ((b.rewrite pre post last dead new res next).exits reads).map
        (Operand.eval F (execAll F (b.rewrite pre post last dead new res next).insts s)) =
      (b.exits reads).map (Operand.eval F (execAll F b.insts s)) := by
  obtain ⟨hoff, hres⟩ := h.simulates hb hF s hres
  rw [h.rewrite_exits hb, List.map_map]
  refine List.map_congr_left fun v hv => ?_
  cases v with
  | ext e => rfl
  | inst x =>
      show Operand.eval F _ (if x = last.id then _ else _) = _
      by_cases hx : x = last.id
      · rw [if_pos hx, hx]
        exact hres
      · rw [if_neg hx]
        refine (hoff.env x ?_).symm
        rintro (hxd | hle)
        · rcases List.mem_append.mp hv with hv | hv
          · obtain ⟨i, hi, hop⟩ := List.mem_flatMap.mp hv
            obtain ⟨hmem, hphi⟩ := List.mem_filter.mp hi
            refine h.unused i hmem (fun hdead => ?_) x hxd hx hop
            rw [h.reading i hmem hdead] at hphi
            cases hphi
          · exact h.outside x hxd hx hv
        · obtain ⟨j, hj, rfl⟩ := hb.exits x hv
          exact Nat.not_lt_of_le hle (hb.lt j hj)

end Rewriting

end Kremlin.Library.StraightLine
