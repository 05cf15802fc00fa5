/-
  Kremlin.Runtime.Program — well-formed runs of the instrumented program.

  The passes put the interface calls into the program in a fixed pattern
  (`kremlin.cpp`, "Example of a Sample Function call").  `Program` is the part
  of the program's state that pattern speaks of, and `Program.step` is `none`
  on a call that breaks it:

    * regions are entered and left in nested order, and a function enters no
      more nested regions than the `nested_depth` of its register table;
    * a function sets up its register table first, then dequeues its arguments,
      then runs its body;
    * every register named is a register of the current function; an argument
      is a register of the caller, and a return value goes to the register the
      caller linked;
    * control dependences are popped in the region that pushed them.

  There are no exceptions here (see `LandingPad`), and `limit` bounds the number
  of regions open at a time.
-/
import Kremlin.Runtime.Handlers

namespace Kremlin.Runtime

open Kremlin.Library
open KremlinProfiler

/-! ## §1. Costs and registers of an event. -/

/-- The registers an update touches are among the first `rows`. -/
def TimestampUpdate.InRange (u : TimestampUpdate) (rows : ℕ) : Prop :=
  u.dest_reg < rows ∧ ∀ src ∈ u.srcs, src.1 < rows

instance (u : TimestampUpdate) (rows : ℕ) : Decidable (TimestampUpdate.InRange u rows) :=
  inferInstanceAs (Decidable (_ ∧ _))

/-- What an update adds to the times it reads: `LOAD_COST`, or the largest
offset. -/
def TimestampUpdate.cost (u : TimestampUpdate) : ℕ :=
  if u.src_addr.isSome then LOAD_COST else (u.srcs.map Prod.snd).foldl max 0

/-- The largest cost among an instruction's updates. -/
def Instr.cost (i : Instr) : ℕ := ((updates i).map TimestampUpdate.cost).foldl max 0

/-- The cost an event charges to the region it is executed in. -/
def Event.cost : Event → ℕ
  | .instr i => i.cost
  | .store _ _ _ | .storeConst _ _ => STORE_COST
  | _ => 0

/-! ## §2. The program's state. -/

/-- Where a function activation is: it has no register table yet, it is taking
its arguments, or it runs its body. -/
inductive Phase where
  | entered
  | arguments
  | body
  deriving Repr, DecidableEq

/-- A function activation: the level of its region, the shape of its register
table and the register linked to the value of its next call. -/
structure Activation where
  level : ℕ
  phase : Phase
  rows : ℕ
  nested : ℕ
  linked : Option ℕ
  deriving Repr, DecidableEq

/-- An open region, with the `_KWork` and the cost charged directly in it. -/
structure OpenRegion where
  id : SID
  type : RegionType
  work : ℕ
  cost : ℕ
  deriving Repr, DecidableEq

/-- The lists have the innermost region, the current activation and the newest
control dependence (the level it was pushed at) first, and the oldest argument
not yet dequeued first.  `enqueued` counts the arguments since the last
`_KPrepCall`. -/
structure Program where
  regions : List OpenRegion
  acts : List Activation
  cdeps : List ℕ
  args : List ℕ
  enqueued : ℕ
  deriving Repr, DecidableEq

namespace Program

/-- Before `main`. -/
def start : Program where
  regions := []
  acts := []
  cdeps := []
  args := []
  enqueued := 0

/-- The number of open regions. -/
def depth (p : Program) : ℕ := p.regions.length

/-- Charge the innermost region. -/
def charge (p : Program) (work cost : ℕ) : Program :=
  { p with
    regions :=
      match p.regions with
      | [] => []
      | r :: rs => { r with work := r.work + work, cost := r.cost + cost } :: rs }

/-- The current activation, once its register table is set up. -/
def current (p : Program) : Option Activation :=
  match p.acts with
  | a :: _ => if a.phase = .entered then none else some a
  | [] => none

/-- Replace the current activation. -/
def setCurrent (p : Program) (a : Activation) : Program :=
  { p with acts := a :: p.acts.tail }

/-- The current activation runs its body. -/
def inBody (p : Program) (a : Activation) : Program := p.setCurrent { a with phase := .body }

/-- The register the caller linked to the value of the call. -/
def callerRegister (p : Program) : Option ℕ := p.acts.tail.head?.bind (·.linked)

/-- A value can be returned: the activation is in its own region and its caller,
if any, linked a register. -/
def CanReturn (p : Program) (a : Activation) : Prop :=
  a.level + 1 = p.depth ∧ ∀ caller ∈ p.acts.tail.head?, caller.linked.isSome

instance (p : Program) (a : Activation) : Decidable (p.CanReturn a) :=
  inferInstanceAs (Decidable (_ ∧ _))

/-- One call of the program. -/
def step (limit : ℕ) (p : Program) : Event → Option Program
  | .work amount => some (p.charge amount 0)
  | .enterRegion id ty =>
      if p.depth < limit then
        let region : OpenRegion := { id, type := ty, work := 0, cost := 0 }
        if ty = .regionFunc then
          let callee : Activation :=
            { level := p.depth, phase := .entered, rows := 0, nested := 0, linked := none }
          if p.acts = [] then some { p with regions := region :: p.regions, acts := [callee] }
          else do
            let a ← p.current
            some { p.inBody a with
              regions := region :: p.regions
              acts := callee :: (p.inBody a).acts }
        else do
          let a ← p.current
          if p.depth ≤ a.level + a.nested then
            some { p.inBody a with regions := region :: p.regions }
          else none
      else none
  | .exitRegion id ty => do
      let a ← p.current
      let r ← p.regions.head?
      if r.id = id ∧ r.type = ty ∧ p.cdeps.head? ≠ some (p.depth - 1) then
        if ty = .regionFunc then
          if a.level + 1 = p.depth then
            some { p with regions := p.regions.tail, acts := p.acts.tail }
          else none
        else if a.level + 1 < p.depth then some { p.inBody a with regions := p.regions.tail }
        else none
      else none
  | .landingPad _ _ => none
  | .instr i => do
      let a ← p.current
      if ∀ u ∈ updates i, TimestampUpdate.InRange u a.rows then
        some ((p.inBody a).charge 0 i.cost)
      else none
  | .store src _ _ => do
      let a ← p.current
      if src < a.rows then some ((p.inBody a).charge 0 STORE_COST) else none
  | .storeConst _ _ => do
      let a ← p.current
      some ((p.inBody a).charge 0 STORE_COST)
  | .pushCDep cond => do
      let a ← p.current
      if cond < a.rows then some { p.inBody a with cdeps := (p.depth - 1) :: p.cdeps } else none
  | .popCDep => do
      let a ← p.current
      if p.cdeps.head? = some (p.depth - 1) then some { p.inBody a with cdeps := p.cdeps.tail }
      else none
  | .prepCall _ _ => do
      let a ← p.current
      some { p.inBody a with args := [], enqueued := 0 }
  | .enqArg arg => do
      let a ← p.current
      if arg < a.rows then
        some { p.inBody a with args := p.args ++ [arg], enqueued := p.enqueued + 1 }
      else none
  | .enqArgConst => do
      let a ← p.current
      some { p.inBody a with args := p.args ++ [DUMMY_ARG], enqueued := p.enqueued + 1 }
  | .deqArg dest => do
      let a ← p.current
      let caller ← p.acts.tail.head?
      let src ← p.args.head?
      if a.phase = .arguments ∧ dest < a.rows ∧ (src ≠ DUMMY_ARG → src < caller.rows) then
        some { p with args := p.args.tail }
      else none
  | .prepRTable num_virt_regs nested_depth => do
      let a ← p.acts.head?
      if a.phase = .entered then
        some (p.setCurrent
          { a with phase := .arguments, rows := num_virt_regs, nested := nested_depth })
      else none
  | .linkReturn dest => do
      let a ← p.current
      if dest < a.rows then some (p.setCurrent { a with phase := .body, linked := some dest })
      else none
  | .ret src => do
      let a ← p.current
      if src < a.rows ∧ p.CanReturn a then some (p.inBody a) else none
  | .retConst => do
      let a ← p.current
      if p.CanReturn a then some (p.inBody a) else none

/-! ## §3. What a call of a well-formed program looks like. -/

/-- `Program.step` read backwards: one constructor for each kind of call, with
the conditions it met and the state it left. -/
inductive Move (limit : ℕ) (p : Program) : Event → Program → Prop
  | work (amount : ℕ) : Move limit p (.work amount) (p.charge amount 0)
  | enterMain (id : SID) (hlimit : p.depth < limit) (hacts : p.acts = []) :
      Move limit p (.enterRegion id .regionFunc)
        { p with
          regions := ⟨id, .regionFunc, 0, 0⟩ :: p.regions
          acts := [⟨p.depth, .entered, 0, 0, none⟩] }
  | enterFunction (id : SID) {a : Activation} {rest : List Activation} (hlimit : p.depth < limit)
      (hacts : p.acts = a :: rest) (hphase : a.phase ≠ .entered) :
      Move limit p (.enterRegion id .regionFunc)
        { p with
          regions := ⟨id, .regionFunc, 0, 0⟩ :: p.regions
          acts := ⟨p.depth, .entered, 0, 0, none⟩ :: { a with phase := .body } :: rest }
  | enterLoop (id : SID) {ty : RegionType} {a : Activation} {rest : List Activation}
      (hlimit : p.depth < limit) (hacts : p.acts = a :: rest) (hphase : a.phase ≠ .entered)
      (hty : ty ≠ .regionFunc) (hnested : p.depth ≤ a.level + a.nested) :
      Move limit p (.enterRegion id ty)
        { p with
          regions := ⟨id, ty, 0, 0⟩ :: p.regions
          acts := { a with phase := .body } :: rest }
  | exitFunction {a : Activation} {rest : List Activation} {r : OpenRegion}
      {rs : List OpenRegion} (hacts : p.acts = a :: rest) (hphase : a.phase ≠ .entered)
      (hregions : p.regions = r :: rs) (hty : r.type = .regionFunc)
      (hcdeps : p.cdeps.head? ≠ some rs.length) (hlevel : a.level = rs.length) :
      Move limit p (.exitRegion r.id .regionFunc) { p with regions := rs, acts := rest }
  | exitLoop {a : Activation} {rest : List Activation} {r : OpenRegion} {rs : List OpenRegion}
      (hacts : p.acts = a :: rest) (hphase : a.phase ≠ .entered)
      (hregions : p.regions = r :: rs) (hty : r.type ≠ .regionFunc)
      (hcdeps : p.cdeps.head? ≠ some rs.length) (hlevel : a.level < rs.length) :
      Move limit p (.exitRegion r.id r.type)
        { p with regions := rs, acts := { a with phase := .body } :: rest }
  | instr {i : Instr} {a : Activation} {rest : List Activation} (hacts : p.acts = a :: rest)
      (hphase : a.phase ≠ .entered)
      (hregs : ∀ u ∈ updates i, TimestampUpdate.InRange u a.rows) :
      Move limit p (.instr i) ((p.inBody a).charge 0 i.cost)
  | store {src addr size : ℕ} {a : Activation} {rest : List Activation}
      (hacts : p.acts = a :: rest) (hphase : a.phase ≠ .entered) (hsrc : src < a.rows) :
      Move limit p (.store src addr size) ((p.inBody a).charge 0 STORE_COST)
  | storeConst {addr size : ℕ} {a : Activation} {rest : List Activation}
      (hacts : p.acts = a :: rest) (hphase : a.phase ≠ .entered) :
      Move limit p (.storeConst addr size) ((p.inBody a).charge 0 STORE_COST)
  | pushCDep {cond : ℕ} {a : Activation} {rest : List Activation} (hacts : p.acts = a :: rest)
      (hphase : a.phase ≠ .entered) (hcond : cond < a.rows) :
      Move limit p (.pushCDep cond) { p.inBody a with cdeps := (p.depth - 1) :: p.cdeps }
  | popCDep {qs : List ℕ} {a : Activation} {rest : List Activation} (hacts : p.acts = a :: rest)
      (hphase : a.phase ≠ .entered) (hcdeps : p.cdeps = (p.depth - 1) :: qs) :
      Move limit p .popCDep { p.inBody a with cdeps := qs }
  | prepCall {c : CID} {r : SID} {a : Activation} {rest : List Activation}
      (hacts : p.acts = a :: rest) (hphase : a.phase ≠ .entered) :
      Move limit p (.prepCall c r) { p.inBody a with args := [], enqueued := 0 }
  | enqArg {arg : ℕ} {a : Activation} {rest : List Activation} (hacts : p.acts = a :: rest)
      (hphase : a.phase ≠ .entered) (harg : arg < a.rows) :
      Move limit p (.enqArg arg)
        { p.inBody a with args := p.args ++ [arg], enqueued := p.enqueued + 1 }
  | enqArgConst {a : Activation} {rest : List Activation} (hacts : p.acts = a :: rest)
      (hphase : a.phase ≠ .entered) :
      Move limit p .enqArgConst
        { p.inBody a with args := p.args ++ [DUMMY_ARG], enqueued := p.enqueued + 1 }
  | deqArg {dest src : ℕ} {args : List ℕ} {a caller : Activation} {rest : List Activation}
      (hacts : p.acts = a :: caller :: rest) (hphase : a.phase = .arguments)
      (hargs : p.args = src :: args) (hdest : dest < a.rows)
      (hsrc : src ≠ DUMMY_ARG → src < caller.rows) :
      Move limit p (.deqArg dest) { p with args := args }
  | prepRTable {rows nested : ℕ} {a : Activation} {rest : List Activation}
      (hacts : p.acts = a :: rest) (hphase : a.phase = .entered) :
      Move limit p (.prepRTable rows nested)
        (p.setCurrent { a with phase := .arguments, rows := rows, nested := nested })
  | linkReturn {dest : ℕ} {a : Activation} {rest : List Activation}
      (hacts : p.acts = a :: rest) (hphase : a.phase ≠ .entered) (hdest : dest < a.rows) :
      Move limit p (.linkReturn dest) (p.setCurrent { a with phase := .body, linked := some dest })
  | ret {src : ℕ} {a : Activation} {rest : List Activation} (hacts : p.acts = a :: rest)
      (hphase : a.phase ≠ .entered) (hsrc : src < a.rows) (hret : p.CanReturn a) :
      Move limit p (.ret src) (p.inBody a)
  | retConst {a : Activation} {rest : List Activation} (hacts : p.acts = a :: rest)
      (hphase : a.phase ≠ .entered) (hret : p.CanReturn a) :
      Move limit p .retConst (p.inBody a)

@[simp] theorem depth_charge (p : Program) (work cost : ℕ) :
    (p.charge work cost).depth = p.depth := by
  unfold charge depth
  cases p.regions <;> rfl

@[simp] theorem acts_charge (p : Program) (work cost : ℕ) :
    (p.charge work cost).acts = p.acts := rfl

/-- The current activation is exchanged. -/
theorem setCurrent_acts {p : Program} {a : Activation} {rest : List Activation}
    (hacts : p.acts = a :: rest) (a' : Activation) : (p.setCurrent a').acts = a' :: rest := by
  show a' :: p.acts.tail = _
  rw [hacts, List.tail_cons]

/-- The current activation is in its body. -/
theorem inBody_acts {p : Program} {a : Activation} {rest : List Activation}
    (hacts : p.acts = a :: rest) :
    (p.inBody a).acts = { a with phase := .body } :: rest := setCurrent_acts hacts _

/-- There is a current activation once its table is set up. -/
theorem current_eq_some {p : Program} {a : Activation} (h : p.current = some a) :
    ∃ rest, p.acts = a :: rest ∧ a.phase ≠ .entered := by
  unfold current at h
  split at h
  · next b rest hacts =>
      split at h
      · cases h
      · next hphase =>
          cases h
          exact ⟨rest, hacts, hphase⟩
  · cases h

/-- A call from within a function: the activation that makes it. -/
theorem current_bind {p p' : Program} {f : Activation → Option Program}
    (h : p.current.bind f = some p') :
    ∃ a rest, p.acts = a :: rest ∧ a.phase ≠ .entered ∧ f a = some p' := by
  obtain ⟨a, ha, h⟩ := Option.bind_eq_some_iff.mp h
  obtain ⟨rest, hacts, hphase⟩ := current_eq_some ha
  exact ⟨a, rest, hacts, hphase, h⟩

section Moves

variable {limit : ℕ} {p p' : Program}

/-- `main` is entered from nowhere, any other function from a body. -/
theorem enterFunction_move {id : SID} (h : p.step limit (.enterRegion id .regionFunc) = some p') :
    p.Move limit (.enterRegion id .regionFunc) p' := by
  simp only [step, if_true] at h
  obtain ⟨hlimit, h⟩ := Option.ite_none_right_eq_some.mp h
  split at h
  · next hacts =>
      cases h
      exact .enterMain id hlimit hacts
  · obtain ⟨a, rest, hacts, hphase, h⟩ := current_bind h
    cases h
    have hmove := Move.enterFunction id hlimit hacts hphase
    simpa only [inBody, setCurrent, hacts, List.tail_cons] using hmove

/-- A loop or its body is entered. -/
theorem enterLoop_move {id : SID} {ty : RegionType} (hty : ty ≠ .regionFunc)
    (h : p.step limit (.enterRegion id ty) = some p') : p.Move limit (.enterRegion id ty) p' := by
  simp only [step, if_neg hty] at h
  obtain ⟨hlimit, h⟩ := Option.ite_none_right_eq_some.mp h
  obtain ⟨a, rest, hacts, hphase, h⟩ := current_bind h
  obtain ⟨hnested, h⟩ := Option.ite_none_right_eq_some.mp h
  cases h
  have hmove := Move.enterLoop id hlimit hacts hphase hty hnested
  simpa only [inBody, setCurrent, hacts, List.tail_cons] using hmove

/-- A function is left at its own level, any other region above it. -/
theorem exitRegion_move {id : SID} {ty : RegionType}
    (h : p.step limit (.exitRegion id ty) = some p') : p.Move limit (.exitRegion id ty) p' := by
  obtain ⟨a, rest, hacts, hphase, hrest⟩ := current_bind h
  obtain ⟨r, hr, hif⟩ := Option.bind_eq_some_iff.mp hrest
  clear h hrest
  obtain ⟨rs, hregions⟩ := List.head?_eq_some_iff.mp hr
  have hdepth : p.depth = rs.length + 1 := by rw [depth, hregions, List.length_cons]
  simp only [hdepth, Nat.add_sub_cancel] at hif
  obtain ⟨⟨hid, hrty, hcdeps⟩, hleft⟩ := Option.ite_none_right_eq_some.mp hif
  clear hif
  subst hid hrty
  split at hleft
  · next hty =>
      obtain ⟨hlevel, hleft⟩ := Option.ite_none_right_eq_some.mp hleft
      cases hleft
      rw [hty]
      have hmove : Move limit p _ _ := .exitFunction hacts hphase hregions hty hcdeps (by omega)
      simpa only [hacts, hregions, List.tail_cons] using hmove
  · next hty =>
      obtain ⟨hlevel, hleft⟩ := Option.ite_none_right_eq_some.mp hleft
      cases hleft
      have hmove : Move limit p _ _ := .exitLoop hacts hphase hregions hty hcdeps (by omega)
      simpa only [inBody, setCurrent, hacts, hregions, List.tail_cons] using hmove

/-- A dependence of the innermost region is popped. -/
theorem popCDep_move (h : p.step limit .popCDep = some p') : p.Move limit .popCDep p' := by
  obtain ⟨a, rest, hacts, hphase, h⟩ := current_bind h
  obtain ⟨hhead, h⟩ := Option.ite_none_right_eq_some.mp h
  cases h
  obtain ⟨qs, hcdeps⟩ := List.head?_eq_some_iff.mp hhead
  have hmove : Move limit p _ _ := .popCDep hacts hphase hcdeps
  simpa only [hcdeps, List.tail_cons] using hmove

/-- An argument is taken by a callee, from the register of its caller. -/
theorem deqArg_move {dest : ℕ} (h : p.step limit (.deqArg dest) = some p') :
    p.Move limit (.deqArg dest) p' := by
  obtain ⟨a, rest, hacts, -, h⟩ := current_bind h
  obtain ⟨caller, hcaller, h⟩ := Option.bind_eq_some_iff.mp h
  obtain ⟨src, hsrc, h⟩ := Option.bind_eq_some_iff.mp h
  obtain ⟨hok, h⟩ := Option.ite_none_right_eq_some.mp h
  cases h
  rw [hacts, List.tail_cons] at hcaller
  obtain ⟨callers, rfl⟩ := List.head?_eq_some_iff.mp hcaller
  obtain ⟨args, hargs⟩ := List.head?_eq_some_iff.mp hsrc
  have hmove : Move limit p _ _ := .deqArg hacts hok.1 hargs hok.2.1 hok.2.2
  simpa only [hargs, List.tail_cons] using hmove

/-- A function's first call. -/
theorem prepRTable_move {rows nested : ℕ} (h : p.step limit (.prepRTable rows nested) = some p') :
    p.Move limit (.prepRTable rows nested) p' := by
  obtain ⟨a, ha, h⟩ := Option.bind_eq_some_iff.mp h
  obtain ⟨hphase, h⟩ := Option.ite_none_right_eq_some.mp h
  cases h
  obtain ⟨rest, hacts⟩ := List.head?_eq_some_iff.mp ha
  exact .prepRTable hacts hphase

/-- **Every call of a well-formed program is a `Move`.** -/
theorem step_move {e : Event} (h : p.step limit e = some p') : p.Move limit e p' := by
  cases e with
  | work amount =>
      cases h
      exact .work amount
  | enterRegion id ty =>
      -- a function has an activation of its own, a loop does not
      by_cases hty : ty = .regionFunc
      · subst hty
        exact enterFunction_move h
      · exact enterLoop_move hty h
  | exitRegion id ty => exact exitRegion_move h
  | landingPad id ty => cases h
  | instr i =>
      obtain ⟨a, rest, hacts, hphase, h⟩ := current_bind h
      obtain ⟨hregs, h⟩ := Option.ite_none_right_eq_some.mp h
      cases h
      exact .instr hacts hphase hregs
  | store src addr size =>
      obtain ⟨a, rest, hacts, hphase, h⟩ := current_bind h
      obtain ⟨hsrc, h⟩ := Option.ite_none_right_eq_some.mp h
      cases h
      exact .store hacts hphase hsrc
  | storeConst addr size =>
      obtain ⟨a, rest, hacts, hphase, h⟩ := current_bind h
      cases h
      exact .storeConst hacts hphase
  | pushCDep cond =>
      obtain ⟨a, rest, hacts, hphase, h⟩ := current_bind h
      obtain ⟨hcond, h⟩ := Option.ite_none_right_eq_some.mp h
      cases h
      exact .pushCDep hacts hphase hcond
  | popCDep => exact popCDep_move h
  | prepCall c r =>
      obtain ⟨a, rest, hacts, hphase, h⟩ := current_bind h
      cases h
      exact .prepCall hacts hphase
  | enqArg arg =>
      obtain ⟨a, rest, hacts, hphase, h⟩ := current_bind h
      obtain ⟨harg, h⟩ := Option.ite_none_right_eq_some.mp h
      cases h
      exact .enqArg hacts hphase harg
  | enqArgConst =>
      obtain ⟨a, rest, hacts, hphase, h⟩ := current_bind h
      cases h
      exact .enqArgConst hacts hphase
  | deqArg dest => exact deqArg_move h
  | prepRTable rows nested => exact prepRTable_move h
  | linkReturn dest =>
      obtain ⟨a, rest, hacts, hphase, h⟩ := current_bind h
      obtain ⟨hdest, h⟩ := Option.ite_none_right_eq_some.mp h
      cases h
      exact .linkReturn hacts hphase hdest
  | ret src =>
      obtain ⟨a, rest, hacts, hphase, h⟩ := current_bind h
      obtain ⟨hok, h⟩ := Option.ite_none_right_eq_some.mp h
      cases h
      exact .ret hacts hphase hok.1 hok.2
  | retConst =>
      obtain ⟨a, rest, hacts, hphase, h⟩ := current_bind h
      obtain ⟨hret, h⟩ := Option.ite_none_right_eq_some.mp h
      cases h
      exact .retConst hacts hphase hret

end Moves

end Program

end Kremlin.Runtime
