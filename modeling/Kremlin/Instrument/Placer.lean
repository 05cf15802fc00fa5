/-
  Kremlin.Instrument.Placer — placing the calls of the instrumentation.

  `Placer.cpp`.  A handler creates a call and names its users, the instructions
  it has to come before; `placeInsts` then puts each call in front of the
  earliest of its users, users first.  Conventions:

    * a basic block is known by its position in the function;
    * the constraints are the pairs handed to `addInstForPlacement`, and the
      nodes, their users and their dependencies are read off them;
    * sets of pointers are walked in the order of the addresses, of which
      nothing is known (`PlacerContext`);
    * `none` is an instruction without users to place it by, or a user that is
      in no block.

  Main results: `placeInsts_spec` (every node whose users can all be placed is
  placed) and `placeInst_placed` (what one placement does to what stands in front
  of the program's instructions).
-/
import Kremlin.Library.Insertion
import Mathlib.Data.List.Dedup
import Mathlib.Data.List.Perm.Subperm

namespace Kremlin.Instrument

open Kremlin.Library

variable {I : Type}

/-! ## §1. Code. -/

/-- The basic blocks of a function. -/
abbrev Code (I : Type) := List (List I)

/-- The instructions a reader looks at: the `fixed` ones and the `queued` calls,
each of which belongs to a fixed one. -/
structure Marks (I : Type) where
  fixed : I → Bool
  queued : I → Bool
  owner : I → I
  fixed_owner : ∀ i, fixed i = true → owner i = i
  disjoint : ∀ i, queued i = true → fixed i = false

namespace Marks

variable (m : Marks I)

/-- The instructions whose places are known: those of the program and those that were queued. -/
def visible (i : I) : Bool := m.fixed i || m.queued i

/-- The program's instructions are visible. -/
theorem visible_fixed {i : I} (h : m.fixed i = true) : m.visible i = true := by
  rw [visible, h, Bool.true_or]

/-- So are the queued ones. -/
theorem visible_queued {i : I} (h : m.queued i = true) : m.visible i = true := by
  rw [visible, h, Bool.or_true]

/-- The code before anything is placed: fixed instructions, each once. -/
structure Base (base : Code I) : Prop where
  fixed : ∀ i ∈ base.flatten, m.fixed i = true
  nodup : base.flatten.Nodup

/-- `seg` is what stands in front of each fixed instruction, as far as the reader
sees. -/
structure Placed (base code : Code I) (seg : I → List I) : Prop where
  shown : code.map (List.filter m.visible) = base.map (expand seg)
  owned : ∀ o, ∀ i ∈ seg o, m.queued i = true ∧ m.owner i = o
  outside : ∀ o, o ∉ base.flatten → seg o = []

variable {m} {base code : Code I} {seg : I → List I}

/-- At the start nothing stands in front of an instruction. -/
theorem placed_base (h : m.Base base) : m.Placed base base fun _ => [] := by
  refine ⟨List.map_congr_left fun bb hbb => ?_, fun o i hi => (by cases hi), fun _ _ => rfl⟩
  have hall : ∀ i ∈ bb, m.visible i = true := fun i hi =>
    m.visible_fixed (h.fixed i (List.mem_flatten.mpr ⟨bb, hbb, hi⟩))
  rw [List.filter_eq_self.mpr hall]
  show bb = bb.flatMap fun o => [] ++ [o]
  simp

/-- Two blocks of the base share no instruction. -/
theorem Base.block_unique (h : m.Base base) {b c : ℕ} {bs cs : List I} (hb : base[b]? = some bs)
    (hc : base[c]? = some cs) {i : I} (hbi : i ∈ bs) (hci : i ∈ cs) : b = c := by
  have hpair := List.pairwise_iff_getElem.mp (List.nodup_flatten.mp h.nodup).2
  obtain ⟨hlb, rfl⟩ := List.getElem?_eq_some_iff.mp hb
  obtain ⟨hlc, rfl⟩ := List.getElem?_eq_some_iff.mp hc
  rcases Nat.lt_trichotomy b c with hlt | heq | hlt
  · exact absurd hci (hpair b c hlb hlc hlt hbi)
  · exact heq
  · exact absurd hbi (hpair c b hlc hlb hlt hci)

/-- The block of an instruction the reader sees. -/
theorem Placed.block (h : m.Placed base code seg) (hbase : m.Base base) {b : ℕ} {bb : List I}
    (hb : code[b]? = some bb) {i : I} (hi : i ∈ bb) (hv : m.visible i = true) :
    ∃ bs, base[b]? = some bs ∧ bb.filter m.visible = expand seg bs ∧ m.owner i ∈ bs ∧
      (i ∈ seg (m.owner i) ∨ i = m.owner i ∧ m.fixed i = true) := by
  have hget : (code.map (List.filter m.visible))[b]? = some (bb.filter m.visible) := by
    rw [List.getElem?_map, hb, Option.map_some]
  rw [h.shown, List.getElem?_map] at hget
  obtain ⟨bs, hbs, heq⟩ := Option.map_eq_some_iff.mp hget
  have hmem : i ∈ expand seg bs := by
    rw [heq]
    exact List.mem_filter.mpr ⟨hi, hv⟩
  obtain ⟨o, ho, hio⟩ := mem_expand.mp hmem
  refine ⟨bs, hbs, heq.symm, ?_⟩
  rcases hio with hio | rfl
  · rw [(h.owned o i hio).2]
    exact ⟨ho, .inl hio⟩
  · have hf : m.fixed i = true :=
      hbase.fixed i (List.mem_flatten.mpr ⟨bs, List.mem_of_getElem? hbs, ho⟩)
    rw [m.fixed_owner i hf]
    exact ⟨ho, .inr ⟨rfl, hf⟩⟩

/-- A fixed instruction of the base and a queued call of a segment are in the
code. -/
theorem Placed.mem_code (h : m.Placed base code seg) {o i : I} (ho : o ∈ base.flatten)
    (hi : i ∈ seg o ∨ i = o) : ∃ bb ∈ code, i ∈ bb := by
  obtain ⟨bs, hbs, hobs⟩ := List.mem_flatten.mp ho
  have hmem : expand seg bs ∈ code.map (List.filter m.visible) := by
    rw [h.shown]
    exact List.mem_map.mpr ⟨bs, hbs, rfl⟩
  obtain ⟨bb, hbb, heq⟩ := List.mem_map.mp hmem
  have hi' : i ∈ bb.filter m.visible := by
    rw [heq]
    exact mem_expand.mpr ⟨o, hobs, hi⟩
  exact ⟨bb, hbb, (List.mem_filter.mp hi').1⟩

end Marks

/-! ## §2. Constraints. -/

variable [DecidableEq I]

/-- `getParent`; `none` is its `NULL`. -/
def getParent (code : Code I) (inst : I) : Option ℕ :=
  code.findIdx? fun bb => decide (inst ∈ bb)

/-- What the placer takes from outside: the dominator tree of the function, and
the orders in which `std::set`s and `std::map`s of pointers are walked. -/
structure PlacerContext (I : Type) where
  findNearestCommonDominator : ℕ → ℕ → ℕ
  dominator_self : ∀ bb, findNearestCommonDominator bb bb = bb
  byInstruction : List I → List I
  byNode : List I → List I
  byInstruction_perm : ∀ l, (byInstruction l).Perm l
  byNode_perm : ∀ l, (byNode l).Perm l

/-- An instruction and a user of it. -/
abbrev Constraint (I : Type) := I × I

/-- The users that an instruction was queued with. -/
def usersOf (cs : List (Constraint I)) (inst : I) : List I :=
  ((cs.filter (·.1 = inst)).map (·.2)).dedup

variable (ctx : PlacerContext I) (cs : List (Constraint I))

/-- What was queued with the instruction as a user. -/
def dependencies (inst : I) : List I :=
  ctx.byNode ((cs.filter (·.2 = inst)).map (·.1)).dedup

/-- Everything that a constraint names. -/
def nodes : List I := ctx.byInstruction (cs.map (·.1) ++ cs.map (·.2)).dedup

/-! ## §3. The placer. -/

/-- The earliest user in the block, or the terminator. -/
def earliestUser (users bb : List I) : Option I :=
  (bb.find? fun i => decide (i ∈ users)).or bb.getLast?

/-- Place one node, unless it is in a block already. -/
def placeInst (code : Code I) (inst : I) : Option (Code I) :=
  match getParent code inst with
  | some _ => some code
  | none => do
      let users := ctx.byInstruction (usersOf cs inst)
      let parents ← users.mapM (getParent code)
      let first ← parents.head?
      let common_dom := parents.foldl ctx.findNearestCommonDominator first
      let bb ← code[common_dom]?
      let earliest_user_inst ← earliestUser users bb
      some (code.modify common_dom (insertBefore inst earliest_user_inst))

/-- The back of the vector of placeable nodes comes first. -/
structure PlaceState (I : Type) where
  placeable_nodes : List I
  unplaced_users : I → ℕ
  code : Code I

/-- One user less; the last one makes the node placeable. -/
def decrement (st : PlaceState I) (dep : I) : PlaceState I :=
  let n := st.unplaced_users dep - 1
  { st with
    unplaced_users := Function.update st.unplaced_users dep n
    placeable_nodes := if n = 0 then dep :: st.placeable_nodes else st.placeable_nodes }

/-- The nodes without users can be placed at once. -/
def initialState (code : Code I) : PlaceState I where
  placeable_nodes := ((nodes ctx cs).filter fun n => (usersOf cs n).length = 0).reverse
  unplaced_users n := (usersOf cs n).length
  code := code

/-- The `while` loop; no node is taken twice, so it makes at most as many rounds
as there are nodes. -/
def placeLoop : ℕ → PlaceState I → Option (PlaceState I)
  | 0, st => if st.placeable_nodes = [] then some st else none
  | fuel + 1, st =>
      match st.placeable_nodes with
      | [] => some st
      | inst :: rest => do
          let st := (dependencies ctx cs inst).foldl decrement { st with placeable_nodes := rest }
          let code ← placeInst ctx cs st.code inst
          placeLoop fuel { st with code := code }

/-- The loop over all nodes. -/
def placeInsts (code : Code I) : Option (Code I) :=
  (placeLoop ctx cs (nodes ctx cs).length (initialState ctx cs code)).map (·.code)

/-! ## §4. The graph. -/

/-- A user is one of a constraint. -/
theorem mem_usersOf {cs : List (Constraint I)} {d u : I} : u ∈ usersOf cs d ↔ (d, u) ∈ cs := by
  simp [usersOf]

/-- No user is listed twice. -/
theorem nodup_usersOf (cs : List (Constraint I)) (d : I) : (usersOf cs d).Nodup :=
  List.nodup_dedup _

/-- A single constraint gives a single user. -/
theorem usersOf_eq_singleton {cs : List (Constraint I)} {d u : I} (h : (d, u) ∈ cs)
    (honly : ∀ v, (d, v) ∈ cs → v = u) : usersOf cs d = [u] := by
  have hmem : ∀ v ∈ usersOf cs d, v = u := fun v hv => honly v (mem_usersOf.mp hv)
  have hu : u ∈ usersOf cs d := mem_usersOf.mpr h
  have hnd := nodup_usersOf cs d
  rw [List.eq_replicate_of_mem hmem] at hnd hu ⊢
  cases hlen : (usersOf cs d).length with
  | zero => rw [hlen] at hu; cases hu
  | succ k =>
      rw [hlen, List.nodup_replicate] at hnd
      rw [show k = 0 by omega, List.replicate_one]

variable {ctx cs}

/-- Dependencies are users seen from the other side. -/
theorem mem_dependencies {d u : I} : d ∈ dependencies ctx cs u ↔ u ∈ usersOf cs d := by
  rw [dependencies, (ctx.byNode_perm _).mem_iff, mem_usersOf]
  simp

variable (ctx cs) in
/-- No dependency is listed twice. -/
theorem nodup_dependencies (u : I) : (dependencies ctx cs u).Nodup :=
  (ctx.byNode_perm _).nodup_iff.mpr (List.nodup_dedup _)

/-- A node is one side of a constraint. -/
theorem mem_nodes {i : I} : i ∈ nodes ctx cs ↔ ∃ c ∈ cs, c.1 = i ∨ c.2 = i := by
  rw [nodes, (ctx.byInstruction_perm _).mem_iff, List.mem_dedup, List.mem_append, List.mem_map,
    List.mem_map]
  constructor
  · rintro (⟨c, hc, h⟩ | ⟨c, hc, h⟩)
    · exact ⟨c, hc, .inl h⟩
    · exact ⟨c, hc, .inr h⟩
  · rintro ⟨c, hc, h | h⟩
    · exact .inl ⟨c, hc, h⟩
    · exact .inr ⟨c, hc, h⟩

/-- No node is listed twice. -/
theorem nodup_nodes : (nodes ctx cs).Nodup :=
  (ctx.byInstruction_perm _).nodup_iff.mpr (List.nodup_dedup _)

/-- Dependencies are nodes. -/
theorem dependencies_nodes {d u : I} (h : d ∈ dependencies ctx cs u) : d ∈ nodes ctx cs :=
  mem_nodes.mpr ⟨(d, u), mem_usersOf.mp (mem_dependencies.mp h), .inl rfl⟩

/-! ## §5. The order of placement. -/

/-- All dependencies lose a user; the ones that had a single one become
placeable. -/
theorem foldl_decrement {deps : List I} (hnd : deps.Nodup) (st : PlaceState I) :
    ∃ new, deps.foldl decrement st = { st with
        placeable_nodes := new ++ st.placeable_nodes
        unplaced_users := fun d => st.unplaced_users d - if d ∈ deps then 1 else 0 } ∧
      new.Nodup ∧ ∀ d, d ∈ new ↔ d ∈ deps ∧ st.unplaced_users d - 1 = 0 := by
  induction deps generalizing st with
  | nil =>
      refine ⟨[], ?_, List.nodup_nil, fun d => by simp⟩
      simp
  | cons a deps ih =>
      obtain ⟨ha, hnd⟩ := List.nodup_cons.mp hnd
      obtain ⟨new, heq, hnew, hmem⟩ := ih hnd (decrement st a)
      -- no dependency is listed twice, so each is counted down once
      have hcount : ∀ d ∈ deps, (decrement st a).unplaced_users d = st.unplaced_users d := by
        intro d hd
        exact Function.update_of_ne (fun (h : d = a) => ha (h ▸ hd)) _ _
      have hmem' : ∀ d, d ∈ new ↔ d ∈ deps ∧ st.unplaced_users d - 1 = 0 := by
        intro d
        rw [hmem]
        constructor
        · rintro ⟨hd, h⟩
          exact ⟨hd, by rw [hcount d hd] at h; exact h⟩
        · rintro ⟨hd, h⟩
          exact ⟨hd, by rw [hcount d hd]; exact h⟩
      refine ⟨new ++ (if st.unplaced_users a - 1 = 0 then [a] else []), ?_, ?_, fun d => ?_⟩
      · rw [List.foldl_cons, heq]
        simp only [decrement, PlaceState.mk.injEq]
        refine ⟨?_, ?_, trivial⟩
        · split <;> simp
        · funext d
          by_cases hda : d = a
          · subst hda
            rw [Function.update_self, if_neg ha, if_pos (List.mem_cons_self ..), Nat.sub_zero]
          · rw [Function.update_of_ne hda]
            simp [hda]
      · rw [List.nodup_append]
        refine ⟨hnew, by split <;> simp, fun x hx y hy hxy => ?_⟩
        split at hy
        · rw [List.mem_singleton] at hy
          exact ha (hy ▸ hxy ▸ ((hmem' x).mp hx).1)
        · cases hy
      · rw [List.mem_append, hmem', List.mem_cons]
        split
        · next h =>
            rw [List.mem_singleton]
            constructor
            · rintro (⟨hd, h'⟩ | rfl)
              · exact ⟨.inr hd, h'⟩
              · exact ⟨.inl rfl, h⟩
            · rintro ⟨rfl | hd, h'⟩
              · exact .inr rfl
              · exact .inl ⟨hd, h'⟩
        · next h =>
            constructor
            · rintro (⟨hd, h'⟩ | hd)
              · exact ⟨.inr hd, h'⟩
              · cases hd
            · rintro ⟨rfl | hd, h'⟩
              · exact absurd h' h
              · exact .inl ⟨hd, h'⟩

/-- What the loop knows of the nodes it has taken: a node is placeable, or has
been taken, exactly when all its users have been taken. -/
structure Tracked (ctx : PlacerContext I) (cs : List (Constraint I)) (taken : List I)
    (st : PlaceState I) : Prop where
  nodup : (taken ++ st.placeable_nodes).Nodup
  nodes : ∀ d ∈ taken ++ st.placeable_nodes, d ∈ nodes ctx cs
  count : ∀ d, st.unplaced_users d = ((usersOf cs d).filter (· ∉ taken)).length
  ready : ∀ d ∈ Instrument.nodes ctx cs,
    d ∈ taken ++ st.placeable_nodes ↔ ∀ u ∈ usersOf cs d, u ∈ taken

/-- At the start nothing is taken. -/
theorem tracked_initial (code : Code I) : Tracked ctx cs [] (initialState ctx cs code) := by
  have hmem : ∀ d, d ∈ (initialState ctx cs code).placeable_nodes ↔
      d ∈ Instrument.nodes ctx cs ∧ (usersOf cs d).length = 0 := by
    intro d
    simp [initialState]
  refine ⟨?_, fun d hd => ((hmem d).mp hd).1, fun d => ?_, fun d hd => ?_⟩
  · exact List.nodup_reverse.mpr (nodup_nodes.filter _)
  · simp [initialState]
  · rw [List.nil_append, hmem, List.length_eq_zero_iff]
    constructor
    · rintro ⟨-, h⟩ u hu
      rw [h] at hu
      exact hu
    · intro h
      exact ⟨hd, List.eq_nil_iff_forall_not_mem.mpr fun u hu => by cases h u hu⟩

/-- Taking a node counts as one user less for those that depend on it. -/
theorem length_filter_taken {taken : List I} {x d : I} (hx : x ∉ taken) :
    ((usersOf cs d).filter (· ∉ x :: taken)).length
      = ((usersOf cs d).filter (· ∉ taken)).length - if x ∈ usersOf cs d then 1 else 0 := by
  have hfilter : (usersOf cs d).filter (· ∉ x :: taken)
      = ((usersOf cs d).filter (· ∉ taken)).erase x := by
    rw [((nodup_usersOf cs d).filter _).erase_eq_filter, List.filter_filter]
    apply List.filter_congr
    intro a _
    by_cases hax : a = x <;> simp [hax]
  rw [hfilter, List.length_erase]
  by_cases h : x ∈ usersOf cs d
  · rw [if_pos h, if_pos (List.mem_filter.mpr ⟨h, by simpa using hx⟩)]
  · rw [if_neg h, if_neg (fun hm => h (List.mem_filter.mp hm).1), Nat.sub_zero]

/-- **One round of the loop.** -/
theorem Tracked.step {taken rest : List I} {x : I} {st : PlaceState I} (h : Tracked ctx cs taken st)
    (hst : st.placeable_nodes = x :: rest) (code : Code I) :
    Tracked ctx cs (x :: taken)
      { (dependencies ctx cs x).foldl decrement { st with placeable_nodes := rest } with
        code := code } := by
  have hnd := h.nodup
  have hready := h.ready
  have hnodes := h.nodes
  rw [hst] at hnd hready hnodes
  have hx : x ∉ taken := fun hm =>
    (List.disjoint_of_nodup_append hnd) hm (List.mem_cons_self ..)
  obtain ⟨new, heq, hnew, hmem⟩ :=
    foldl_decrement (nodup_dependencies ctx cs x) { st with placeable_nodes := rest }
  have hcount : ∀ d, st.unplaced_users d - (if d ∈ dependencies ctx cs x then 1 else 0)
      = ((usersOf cs d).filter (· ∉ x :: taken)).length := by
    intro d
    rw [length_filter_taken hx, h.count]
    by_cases hd : d ∈ dependencies ctx cs x
    · rw [if_pos hd, if_pos (mem_dependencies.mp hd)]
    · rw [if_neg hd, if_neg (fun hm => hd (mem_dependencies.mpr hm))]
  -- a dependency of `x` was not ready before
  have hfresh : ∀ d ∈ new, d ∉ taken ++ x :: rest := by
    intro d hd hmem'
    have hdep := ((hmem d).mp hd).1
    exact hx ((hready d (dependencies_nodes hdep)).mp hmem' x (mem_dependencies.mp hdep))
  have hnew_iff : ∀ d, d ∈ new ↔ d ∈ dependencies ctx cs x ∧ ∀ u ∈ usersOf cs d, u ∈ x :: taken := by
    intro d
    rw [hmem]
    refine and_congr_right fun hd => ?_
    have hc := hcount d
    rw [if_pos hd] at hc
    show st.unplaced_users d - 1 = 0 ↔ _
    rw [hc, List.length_eq_zero_iff, List.filter_eq_nil_iff]
    simp [or_iff_not_imp_left]
  rw [heq]
  refine ⟨?_, ?_, hcount, ?_⟩
  · show (x :: taken ++ (new ++ rest)).Nodup
    have hperm : (x :: taken ++ (new ++ rest)).Perm (new ++ (taken ++ x :: rest)) := by
      calc x :: taken ++ (new ++ rest)
          _ = x :: (taken ++ (new ++ rest)) := rfl
          _ |>.Perm (x :: (new ++ (taken ++ rest))) := by
            refine List.Perm.cons x ?_
            rw [← List.append_assoc, ← List.append_assoc]
            exact List.perm_append_comm.append_right rest
          _ |>.Perm (new ++ x :: (taken ++ rest)) := List.perm_middle.symm
          _ |>.Perm (new ++ (taken ++ x :: rest)) := List.perm_middle.symm.append_left new
    rw [hperm.nodup_iff, List.nodup_append]
    exact ⟨hnew, hnd, fun a ha b hb hab => hfresh a ha (hab ▸ hb)⟩
  · intro d hd
    rcases List.mem_append.mp hd with hd | hd
    · rcases List.mem_cons.mp hd with rfl | hd
      · exact hnodes d (by simp)
      · exact hnodes d (by simp [hd])
    · rcases List.mem_append.mp hd with hd | hd
      · exact dependencies_nodes ((hnew_iff d).mp hd).1
      · exact hnodes d (by simp [hd])
  · intro d hd
    show d ∈ x :: taken ++ (new ++ rest) ↔ _
    have hsplit : d ∈ x :: taken ++ (new ++ rest) ↔ d ∈ new ∨ d ∈ taken ++ x :: rest := by
      simp only [List.mem_append, List.mem_cons]
      tauto
    rw [hsplit, hnew_iff, hready d hd]
    constructor
    · rintro (⟨-, h⟩ | h)
      · exact h
      · intro u hu
        exact List.mem_cons_of_mem x (h u hu)
    · intro hall
      by_cases hdep : x ∈ usersOf cs d
      · exact .inl ⟨mem_dependencies.mpr hdep, hall⟩
      · refine .inr fun u hu => (List.mem_cons.mp (hall u hu)).resolve_left ?_
        rintro rfl
        exact hdep hu

/-- **The loop takes every node whose users it can take, each once.** -/
theorem placeLoop_spec {fuel : ℕ} {taken : List I} {st st' : PlaceState I}
    (h : Tracked ctx cs taken st) (hloop : placeLoop ctx cs fuel st = some st') :
    ∃ order : List I, order.foldlM (placeInst ctx cs) st.code = some st'.code ∧
      st'.placeable_nodes = [] ∧ Tracked ctx cs (order.reverse ++ taken) st' := by
  induction fuel generalizing taken st with
  | zero =>
      rw [placeLoop] at hloop
      split at hloop
      · next hdone =>
          cases hloop
          exact ⟨[], rfl, hdone, h⟩
      · cases hloop
  | succ fuel ih =>
      rw [placeLoop] at hloop
      split at hloop
      · next hdone =>
          cases hloop
          exact ⟨[], rfl, hdone, h⟩
      · next x rest hst =>
          simp only [Option.bind_eq_bind, Option.bind_eq_some_iff] at hloop
          obtain ⟨code, hplace, hloop⟩ := hloop
          obtain ⟨order, hfold, hdone, htracked⟩ := ih (h.step hst code) hloop
          obtain ⟨new, heq, -, -⟩ := foldl_decrement (nodup_dependencies ctx cs x)
            { st with placeable_nodes := rest }
          rw [heq] at hplace
          refine ⟨x :: order, ?_, hdone, ?_⟩
          · rw [List.foldlM_cons]
            exact Option.bind_eq_some_iff.mpr ⟨code, hplace, hfold⟩
          · rw [List.reverse_cons, List.append_assoc, List.singleton_append]
            exact htracked

/-- **What `placeInsts` does**: it places nodes one after the other, and all
those whose users it takes are among them. -/
theorem placeInsts_spec {code code' : Code I} (h : placeInsts ctx cs code = some code') :
    ∃ order : List I, order.foldlM (placeInst ctx cs) code = some code' ∧ order.Nodup ∧
      (∀ d ∈ order, d ∈ nodes ctx cs) ∧
      ∀ d ∈ nodes ctx cs, (∀ u ∈ usersOf cs d, u ∈ order) → d ∈ order := by
  obtain ⟨st', hloop, rfl⟩ := Option.map_eq_some_iff.mp h
  obtain ⟨order, hfold, hdone, htracked⟩ := placeLoop_spec (tracked_initial code) hloop
  have hnd := htracked.nodup
  have hnodes := htracked.nodes
  rw [hdone, List.append_nil, List.append_nil] at hnd hnodes
  refine ⟨order, hfold, List.nodup_reverse.mp hnd, fun d hd => hnodes d (List.mem_reverse.mpr hd),
    fun d hd husers => ?_⟩
  have hready := (htracked.ready d hd).mpr fun u hu => by simp [husers u hu]
  rw [hdone] at hready
  simpa using hready

/-- Every node of a graph without cycles is taken. -/
theorem mem_of_rank {rank : I → ℕ} (hrank : ∀ c ∈ cs, rank c.2 < rank c.1) {order : List I}
    (hclosed : ∀ d ∈ nodes ctx cs, (∀ u ∈ usersOf cs d, u ∈ order) → d ∈ order) :
    ∀ d ∈ nodes ctx cs, d ∈ order := by
  intro d
  induction hn : rank d using Nat.strong_induction_on generalizing d with
  | _ n ih =>
      intro hd
      refine hclosed d hd fun u hu => ?_
      have hcon := mem_usersOf.mp hu
      have hlt : rank u < n := by
        rw [← hn]
        exact hrank (d, u) hcon
      exact ih (rank u) hlt u rfl (mem_nodes.mpr ⟨(d, u), hcon, .inr rfl⟩)

/-! ## §6. What is placed in front of an instruction. -/

/-- The block found has the instruction. -/
theorem getParent_eq_some {code : Code I} {i : I} {b : ℕ} (h : getParent code i = some b) :
    ∃ bb, code[b]? = some bb ∧ i ∈ bb := by
  obtain ⟨hlt, hp, -⟩ := List.findIdx?_eq_some_iff_getElem.mp h
  exact ⟨code[b], List.getElem?_eq_getElem hlt, of_decide_eq_true hp⟩

/-- An instruction without a block is nowhere in the code. -/
theorem getParent_eq_none {code : Code I} {i : I} :
    getParent code i = none ↔ ∀ bb ∈ code, i ∉ bb := by
  simp [getParent, List.findIdx?_eq_none_iff]

/-- An instruction in a block stays where it is. -/
theorem placeInst_of_mem {code : Code I} {i : I} (h : i ∈ code.flatten) :
    placeInst ctx cs code i = some code := by
  unfold placeInst
  split
  · rfl
  · next hnone =>
      obtain ⟨bb, hbb, hi⟩ := List.mem_flatten.mp h
      exact absurd hi (getParent_eq_none.mp hnone bb hbb)

/-- The earliest user is in the block. -/
theorem earliestUser_mem {users bb : List I} {e : I} (h : earliestUser users bb = some e) :
    e ∈ bb := by
  rw [earliestUser, Option.or_eq_some_iff] at h
  rcases h with h | ⟨-, h⟩
  · exact List.mem_of_find?_eq_some h
  · exact List.mem_of_getLast? h

/-- What is placed is in the code, and so is what was there. -/
theorem placeInst_mem {code code' : Code I} {i : I} (h : placeInst ctx cs code i = some code') :
    i ∈ code'.flatten ∧ code.flatten ⊆ code'.flatten := by
  unfold placeInst at h
  split at h
  · next b hparent =>
      cases h
      obtain ⟨bb, hb, hi⟩ := getParent_eq_some hparent
      exact ⟨List.mem_flatten.mpr ⟨bb, List.mem_of_getElem? hb, hi⟩, List.Subset.refl _⟩
  · simp only [Option.bind_eq_bind, Option.bind_eq_some_iff, Option.some.injEq] at h
    obtain ⟨parents, -, first, -, bb, hb, e, he, rfl⟩ := h
    have hin := earliestUser_mem he
    have hnew : (code.modify (parents.foldl ctx.findNearestCommonDominator first)
        (insertBefore i e))[parents.foldl ctx.findNearestCommonDominator first]?
          = some (insertBefore i e bb) := by
      rw [List.getElem?_modify_eq, hb]
      rfl
    refine ⟨List.mem_flatten.mpr ⟨_, List.mem_of_getElem? hnew, (mem_insertBefore hin).mpr (.inl rfl)⟩,
      fun j hj => ?_⟩
    obtain ⟨bb', hbb', hj⟩ := List.mem_flatten.mp hj
    obtain ⟨k, hk⟩ := List.mem_iff_getElem?.mp hbb'
    by_cases hkd : parents.foldl ctx.findNearestCommonDominator first = k
    · rw [← hkd, hb, Option.some.injEq] at hk
      rw [← hk] at hj
      exact List.mem_flatten.mpr ⟨_, List.mem_of_getElem? hnew, (mem_insertBefore hin).mpr (.inr hj)⟩
    · rw [← List.getElem?_modify_ne (insertBefore i e) code hkd] at hk
      exact List.mem_flatten.mpr ⟨bb', List.mem_of_getElem? hk, hj⟩

/-- What is placed one after the other is in the code, and nothing gets lost. -/
theorem foldlM_placeInst_mem {order : List I} {code code' : Code I}
    (h : order.foldlM (placeInst ctx cs) code = some code') :
    code.flatten ⊆ code'.flatten ∧ ∀ d ∈ order, d ∈ code'.flatten := by
  induction order generalizing code with
  | nil =>
      cases h
      exact ⟨List.Subset.refl _, fun d hd => by cases hd⟩
  | cons i order ih =>
      rw [List.foldlM_cons] at h
      obtain ⟨code₁, hone, h⟩ := Option.bind_eq_some_iff.mp h
      obtain ⟨hi, hsub⟩ := placeInst_mem hone
      obtain ⟨hsub', hmem⟩ := ih h
      refine ⟨List.Subset.trans hsub hsub', fun d hd => ?_⟩
      rcases List.mem_cons.mp hd with rfl | hd
      · exact hsub' hi
      · exact hmem d hd

/-- **Without cycles every node ends up in the code.** -/
theorem placeInsts_all {rank : I → ℕ} (hrank : ∀ c ∈ cs, rank c.2 < rank c.1)
    {code code' : Code I} (h : placeInsts ctx cs code = some code') :
    code.flatten ⊆ code'.flatten ∧ ∀ d ∈ nodes ctx cs, d ∈ code'.flatten := by
  obtain ⟨order, hfold, -, -, hclosed⟩ := placeInsts_spec h
  obtain ⟨hsub, hmem⟩ := foldlM_placeInst_mem hfold
  exact ⟨hsub, fun d hd => hmem d (mem_of_rank hrank hclosed d hd)⟩

/-- **A last node in front of the first instruction of the entry block.** -/
theorem placeInsts_front (rank : I → ℕ) {x h : I} {entry : List I} {rest code' : Code I}
    (hrank : ∀ c ∈ cs, rank c.2 < rank c.1) (hx : x ∉ ((h :: entry) :: rest).flatten)
    (hin : ∀ d ∈ nodes ctx cs, d = x ∨ d ∈ ((h :: entry) :: rest).flatten)
    (huser : usersOf cs x = [h])
    (hplace : placeInsts ctx cs ((h :: entry) :: rest) = some code') :
    code' = (x :: h :: entry) :: rest := by
  obtain ⟨order, hfold, hnd, hnodes, hclosed⟩ := placeInsts_spec hplace
  have hxorder : x ∈ order := by
    refine mem_of_rank hrank hclosed x (mem_nodes.mpr ⟨(x, h), ?_, .inl rfl⟩)
    rw [← mem_usersOf, huser]
    exact List.mem_singleton.mpr rfl
  have hskip : ∀ (l : List I) (code : Code I), (∀ d ∈ l, d ∈ code.flatten) →
      l.foldlM (placeInst ctx cs) code = some code := by
    intro l code
    induction l with
    | nil => intro _; rfl
    | cons d l ih =>
        intro hl
        rw [List.foldlM_cons, placeInst_of_mem (hl d (List.mem_cons_self ..))]
        exact ih fun d hd => hl d (List.mem_cons_of_mem _ hd)
  -- the one node that is not in the code has the first instruction as its user
  have hplaced : placeInst ctx cs ((h :: entry) :: rest) x = some ((x :: h :: entry) :: rest) := by
    have hnone : getParent ((h :: entry) :: rest) x = none :=
      getParent_eq_none.mpr fun bb hbb hi => hx (List.mem_flatten.mpr ⟨bb, hbb, hi⟩)
    have hsingle : ctx.byInstruction [h] = [h] :=
      List.perm_singleton.mp (ctx.byInstruction_perm [h])
    have hparent : getParent ((h :: entry) :: rest) h = some 0 := by
      simp [getParent, List.findIdx?_cons]
    have hdom : [0].foldl ctx.findNearestCommonDominator 0 = 0 := ctx.dominator_self 0
    have hearliest : earliestUser [h] (h :: entry) = some h := by
      simp [earliestUser]
    simp only [placeInst, hnone, huser, hsingle, List.mapM_cons, List.mapM_nil, hparent,
      Option.bind_eq_bind, Option.bind_some, Option.pure_def, List.head?_cons, hdom,
      List.getElem?_cons_zero, hearliest]
    show some ((insertBefore x h (h :: entry)) :: rest) = _
    rw [insertBefore_cons_self]
  obtain ⟨l₁, l₂, rfl⟩ := List.append_of_mem hxorder
  rw [List.foldlM_append, hskip l₁] at hfold
  · rw [Option.bind_eq_bind, Option.bind_some, List.foldlM_cons, hplaced, Option.bind_eq_bind,
      Option.bind_some, hskip l₂, Option.some.injEq] at hfold
    · exact hfold.symm
    · intro d hd
      rcases hin d (hnodes d (by simp [hd])) with rfl | hd'
      · simp
      · simp only [List.flatten_cons, List.mem_append, List.mem_cons] at hd' ⊢
        tauto
  · intro d hd
    refine (hin d (hnodes d (by simp [hd]))).resolve_left ?_
    rintro rfl
    exact (List.disjoint_of_nodup_append hnd) hd (List.mem_cons_self ..)

namespace Marks

/-- A queued call has one user, which belongs to the same instruction. -/
structure Respects (m : Marks I) (base : Code I) (cs : List (Constraint I)) : Prop where
  placed : ∀ c ∈ cs, ∀ i, c.1 = i ∨ c.2 = i → m.fixed i = true → i ∈ base.flatten
  user : ∀ c ∈ cs, m.queued c.1 = true →
    ∃ u, usersOf cs c.1 = [u] ∧ m.visible u = true ∧ m.owner u = m.owner c.1
  queued : ∀ c ∈ cs, m.queued c.2 = true → ∃ c' ∈ cs, c'.1 = c.2

variable {m : Marks I} {base code code' : Code I} {seg : I → List I}

/-- One placement as the reader sees it. -/
inductive SegStep (m : Marks I) (cs : List (Constraint I)) (seg : I → List I) (i : I) :
    (I → List I) → Prop
  | skip (h : m.queued i = false ∨ i ∈ seg (m.owner i)) : SegStep m cs seg i seg
  | attach {u : I} (hq : m.queued i = true) (hnew : i ∉ seg (m.owner i))
      (hu : usersOf cs i = [u]) (hmem : u ∈ seg (m.owner i) ∨ u = m.owner i) :
      SegStep m cs seg i
        (Function.update seg (m.owner i) (Library.attach i u (seg (m.owner i))))

/-- The placement of a queued call. -/
theorem Placed.attach (h : m.Placed base code seg) (hbase : m.Base base) {i u : I} {b : ℕ}
    {bb : List I} (hq : m.queued i = true) (hu : m.visible u = true)
    (howner : m.owner u = m.owner i) (hb : code[b]? = some bb) (hmem : u ∈ bb) :
    (u ∈ seg (m.owner i) ∨ u = m.owner i) ∧
      m.Placed base (code.modify b (insertBefore i u))
        (Function.update seg (m.owner i) (Library.attach i u (seg (m.owner i)))) := by
  obtain ⟨bs, hbs, hfilter, hobs, hin⟩ := h.block hbase hb hmem hu
  rw [howner] at hobs hin
  have hbsmem : bs ∈ base := List.mem_of_getElem? hbs
  have hofixed : m.fixed (m.owner i) = true :=
    hbase.fixed _ (List.mem_flatten.mpr ⟨bs, hbsmem, hobs⟩)
  -- an owner is one of the program, so it stands in front of nothing
  have hofree : ∀ o', m.owner i ∉ seg o' := by
    intro o' hmem'
    have := m.disjoint _ (h.owned o' _ hmem').1
    rw [hofixed] at this
    cases this
  have hin' : u ∈ seg (m.owner i) ∨ u = m.owner i ∧ m.owner i ∉ seg (m.owner i) :=
    hin.imp id fun hf => ⟨hf.1, hofree _⟩
  refine ⟨hin.imp id And.left, ?_, fun o j hj => ?_, fun o ho => ?_⟩
  · apply List.ext_getElem?
    intro j
    rw [List.getElem?_map, List.getElem?_modify, List.getElem?_map]
    have hj : (code[j]?).map (List.filter m.visible) = (base[j]?).map (expand seg) := by
      rw [← List.getElem?_map, h.shown, List.getElem?_map]
    by_cases hjb : b = j
    · subst hjb
      rw [hb, hbs]
      simp only [if_true, Option.map_eq_map, Option.map_some, Option.some.injEq]
      rw [filter_insertBefore (m.visible_queued hq) hu, hfilter]
      have hndbs : bs.Nodup := (List.sublist_flatten_of_mem hbsmem).nodup hbase.nodup
      refine insertBefore_expand (fun o y hy => (h.owned o y hy).2) (fun o ho => ?_) hndbs hobs hin'
      exact m.fixed_owner o (hbase.fixed o (List.mem_flatten.mpr ⟨bs, hbsmem, ho⟩))
    · -- if b = j then insertBefore i u a else a) <$> code[j]? = code[j]? := by => the other
      -- blocks are untouched, and the owner is in none of them
      have hsame : (fun a => if b = j then insertBefore i u a else a) <$> code[j]? = code[j]? := by
        simp [hjb]
      rw [hsame, hj]
      cases hbj : base[j]? with
      | none => rfl
      | some bs' =>
          rw [Option.map_some, Option.map_some, Option.some.injEq]
          refine (expand_congr fun o ho => ?_).symm
          rw [Function.update_of_ne]
          rintro rfl
          exact hjb (hbase.block_unique hbs hbj hobs ho)
  · by_cases hoi : o = m.owner i
    · subst hoi
      rw [Function.update_self, Library.attach] at hj
      have hj' : j = i ∨ j ∈ seg (m.owner i) := by
        split at hj
        · next hmem' => exact (mem_insertBefore hmem').mp hj
        · rw [List.mem_append, List.mem_singleton] at hj
          exact hj.symm
      rcases hj' with rfl | hj'
      · exact ⟨hq, rfl⟩
      · exact h.owned _ j hj'
    · rw [Function.update_of_ne hoi] at hj
      exact h.owned o j hj
  · rw [Function.update_of_ne]
    · exact h.outside o ho
    · rintro rfl
      exact ho (List.mem_flatten.mpr ⟨bs, hbsmem, hobs⟩)

/-- A call the reader does not see. -/
theorem Placed.insert_unseen (h : m.Placed base code seg) {i e : I} (hv : m.visible i = false)
    (b : ℕ) : m.Placed base (code.modify b (insertBefore i e)) seg := by
  refine ⟨?_, h.owned, h.outside⟩
  rw [← h.shown]
  apply List.ext_getElem?
  intro j
  rw [List.getElem?_map, List.getElem?_modify, List.getElem?_map]
  cases code[j]? with
  | none => rfl
  | some bb =>
      by_cases hjb : b = j
      · simp [hjb, filter_insertBefore_of_neg hv]
      · simp [hjb]

/-- **What one placement does to what stands in front of the fixed
instructions.** -/
theorem placeInst_placed (h : m.Placed base code seg) (hbase : m.Base base)
    (hcs : m.Respects base cs) {i : I} (hi : i ∈ nodes ctx cs)
    (hplace : placeInst ctx cs code i = some code') :
    ∃ seg', SegStep m cs seg i seg' ∧ m.Placed base code' seg' := by
  obtain ⟨c, hc, hci⟩ := mem_nodes.mp hi
  unfold placeInst at hplace
  split at hplace
  · next b hparent =>
      -- the instruction is in a block
      cases hplace
      obtain ⟨bb, hb, hmem⟩ := getParent_eq_some hparent
      refine ⟨seg, .skip ?_, h⟩
      by_cases hq : m.queued i = true
      · obtain ⟨-, -, -, -, hin⟩ := h.block hbase hb hmem (m.visible_queued hq)
        refine .inr (hin.resolve_right fun hf => ?_)
        rw [m.disjoint i hq] at hf
        cases hf.2
      · exact .inl (Bool.eq_false_iff.mpr hq)
  · next hparent =>
      have hnone := getParent_eq_none.mp hparent
      have hnotfixed : m.fixed i = false := by
        rw [Bool.eq_false_iff]
        intro hf
        obtain ⟨bb, hbb, hmem⟩ := h.mem_code (hcs.placed c hc i hci hf) (.inr rfl)
        exact hnone bb hbb hmem
      simp only [Option.bind_eq_bind, Option.bind_eq_some_iff, Option.some.injEq] at hplace
      obtain ⟨parents, hparents, first, hfirst, bb, hbb, e, he, rfl⟩ := hplace
      cases hq : m.queued i with
      | false =>
          have hv : m.visible i = false := by rw [visible, hnotfixed, hq, Bool.or_self]
          exact ⟨seg, .skip (.inl hq), h.insert_unseen hv _⟩
      | true =>
          have huser : ∃ u, usersOf cs i = [u] ∧ m.visible u = true ∧ m.owner u = m.owner i := by
            rcases hci with rfl | rfl
            · exact hcs.user c hc hq
            · obtain ⟨c', hc', heq⟩ := hcs.queued c hc hq
              rw [← heq] at hq ⊢
              exact hcs.user c' hc' hq
          obtain ⟨u, hu, hv, howner⟩ := huser
          have hsingle : ctx.byInstruction [u] = [u] :=
            List.perm_singleton.mp (ctx.byInstruction_perm [u])
          rw [hu, hsingle] at hparents he
          -- the only user is in some block, which is its own dominator
          simp only [List.mapM_cons, List.mapM_nil, Option.bind_eq_bind, Option.bind_eq_some_iff,
            Option.pure_def, Option.some.injEq] at hparents
          obtain ⟨b, hb, rest, rfl, rfl⟩ := hparents
          rw [List.head?_cons, Option.some.injEq] at hfirst
          subst hfirst
          have hdom : [b].foldl ctx.findNearestCommonDominator b = b := ctx.dominator_self b
          rw [hdom] at hbb ⊢
          obtain ⟨bb', hb', hmem⟩ := getParent_eq_some hb
          rw [hbb, Option.some.injEq] at hb'
          subst hb'
          have hearliest : e = u := by
            have hfind : bb.find? (fun j => decide (j ∈ [u])) = some u := by
              cases hf : bb.find? (fun j => decide (j ∈ [u])) with
              | none =>
                  have := List.find?_eq_none.mp hf u hmem
                  simp at this
              | some j =>
                  have := List.find?_some hf
                  simp at this
                  rw [this]
            rw [earliestUser, hfind, Option.some_or, Option.some.injEq] at he
            exact he.symm
          subst hearliest
          obtain ⟨hin, hplaced⟩ := h.attach hbase hq hv howner hbb hmem
          have hnew : i ∉ seg (m.owner i) := by
            intro hmem'
            obtain ⟨bs, hbs, -, ho, -⟩ := h.block hbase hbb hmem hv
            rw [howner] at ho
            have ho' : m.owner i ∈ base.flatten :=
              List.mem_flatten.mpr ⟨bs, List.mem_of_getElem? hbs, ho⟩
            obtain ⟨bb', hbb', hi'⟩ := h.mem_code ho' (.inl hmem')
            exact hnone bb' hbb' hi'
          exact ⟨_, .attach hq hnew hu hin, hplaced⟩

/-- Nothing leaves a segment, and a queued call that is placed is in one. -/
theorem SegStep.grows {seg' : I → List I} {i : I} (h : SegStep m cs seg i seg') :
    (∀ o, seg o ⊆ seg' o) ∧ (m.queued i = true → i ∈ seg' (m.owner i)) := by
  cases h with
  | skip h =>
      refine ⟨fun o => List.Subset.refl _, fun hq => h.resolve_left ?_⟩
      rw [hq]
      exact Bool.noConfusion
  | @attach u hq hnew hu hmem =>
      have hgrow : ∀ j, j = i ∨ j ∈ seg (m.owner i) →
          j ∈ Library.attach i u (seg (m.owner i)) := by
        intro j hj
        rw [Library.attach]
        split
        · next hin => exact (mem_insertBefore hin).mpr hj
        · exact List.mem_append.mpr (hj.symm.imp id List.mem_singleton.mpr)
      refine ⟨fun o j hj => ?_, fun _ => ?_⟩
      · by_cases ho : o = m.owner i
        · subst ho
          rw [Function.update_self]
          exact hgrow j (.inr hj)
        · rw [Function.update_of_ne ho]
          exact hj
      · rw [Function.update_self]
        exact hgrow i (.inl rfl)

/-- **One round of placements**, for what every placement preserves of the
segments. -/
theorem placeInsts_placed {P : (I → List I) → Prop}
    (hP : ∀ i ∈ nodes ctx cs, ∀ seg seg', P seg → SegStep m cs seg i seg' → P seg')
    (hbase : m.Base base) (hcs : m.Respects base cs) (h : m.Placed base code seg) (hseg : P seg)
    (hplace : placeInsts ctx cs code = some code') :
    ∃ seg', m.Placed base code' seg' ∧ P seg' ∧ ∃ order : List I,
      (∀ i ∈ order, m.queued i = true → i ∈ seg' (m.owner i)) ∧
      ∀ d ∈ nodes ctx cs, (∀ u ∈ usersOf cs d, u ∈ order) → d ∈ order := by
  obtain ⟨order, hfold, -, hnodes, hclosed⟩ := placeInsts_spec hplace
  -- one instruction after another; what was put in front of an owner stays there
  have hrun : ∀ (todo : List I) (code : Code I) (seg : I → List I), (∀ d ∈ todo, d ∈ nodes ctx cs) →
      m.Placed base code seg → P seg → todo.foldlM (placeInst ctx cs) code = some code' →
      ∃ seg', m.Placed base code' seg' ∧ P seg' ∧ (∀ o, seg o ⊆ seg' o) ∧
        ∀ i ∈ todo, m.queued i = true → i ∈ seg' (m.owner i) := by
    intro todo
    induction todo with
    | nil =>
        intro code seg _ h hseg hfold
        cases hfold
        exact ⟨seg, h, hseg, fun o => List.Subset.refl _, fun i hi => by cases hi⟩
    | cons i todo ih =>
        intro code seg hin h hseg hfold
        rw [List.foldlM_cons] at hfold
        obtain ⟨code₁, hone, hfold⟩ := Option.bind_eq_some_iff.mp hfold
        have hi := hin i (List.mem_cons_self ..)
        obtain ⟨seg₁, hstep, h₁⟩ := placeInst_placed h hbase hcs hi hone
        obtain ⟨seg', h', hseg', hgrow, hmem⟩ := ih code₁ seg₁
          (fun d hd => hin d (List.mem_cons_of_mem i hd)) h₁ (hP i hi seg seg₁ hseg hstep) hfold
        refine ⟨seg', h', hseg', fun o => List.Subset.trans (hstep.grows.1 o) (hgrow o), fun j hj hq => ?_⟩
        rcases List.mem_cons.mp hj with rfl | hj
        · exact hgrow _ (hstep.grows.2 hq)
        · exact hmem j hj hq
  obtain ⟨seg', h', hseg', -, hmem⟩ := hrun order code seg hnodes h hseg hfold
  exact ⟨seg', h', hseg', order, hmem, hclosed⟩

/-! ## §7. Chains. -/

/-- The queued calls of `o` form one chain: the first has the user `o`, each
later one the call before it. -/
structure Chain (m : Marks I) (cs : List (Constraint I)) (o : I) (chain : List I) : Prop where
  nodup : chain.Nodup
  queued : ∀ i ∈ chain, m.queued i = true ∧ m.owner i = o
  fixed : m.fixed o = true
  all : ∀ c ∈ cs, ∀ i, c.1 = i ∨ c.2 = i → m.queued i = true → m.owner i = o → i ∈ chain
  user : ∀ (k : ℕ) (hk : k < chain.length), usersOf cs chain[k] = [chainUser o chain k]

/-- Part of a chain has been placed, in reverse order. -/
def Partly (o : I) (chain : List I) (seg : I → List I) : Prop :=
  ∃ k, seg o = (chain.take k).reverse

/-- A step of the placer leaves the chain partly placed. -/
theorem Chain.step {o i : I} {chain : List I} {seg' : I → List I} (hc : m.Chain cs o chain)
    (hi : i ∈ nodes ctx cs) (hseg : Partly o chain seg) (h : SegStep m cs seg i seg') :
    Partly o chain seg' := by
  obtain ⟨k, hk⟩ := hseg
  cases h with
  | skip _ => exact ⟨k, hk⟩
  | @attach u hq hnew hu hmem =>
      by_cases ho : m.owner i = o
      · rw [ho] at hnew hmem ⊢
        rw [hk] at hnew hmem
        obtain ⟨c, hcs, hci⟩ := mem_nodes.mp hi
        obtain ⟨j, hj, rfl⟩ := List.mem_iff_getElem.mp (hc.all c hcs i hci hq ho)
        rw [hc.user j hj, List.singleton_inj] at hu
        -- the call is not among the first `k`, and its user is
        have hkj : k ≤ j := by
          by_contra hlt
          exact hnew (List.mem_reverse.mpr (List.mem_take_iff_getElem.mpr ⟨j, by omega, rfl⟩))
        have hjk : j = k := by
          cases j with
          | zero => omega
          | succ j =>
              have huser : u = chain[j] := by
                rw [← hu]
                show chain[j]?.getD o = _
                rw [List.getElem?_eq_getElem (by omega), Option.getD_some]
              have hne : u ≠ o := by
                intro heq
                have hfalse := m.disjoint _ (hc.queued u (huser ▸ List.getElem_mem _)).1
                rw [heq, hc.fixed] at hfalse
                cases hfalse
              have hin := List.mem_reverse.mp (hmem.resolve_right hne)
              obtain ⟨j', hj', heq⟩ := List.mem_take_iff_getElem.mp hin
              have hsame : j' = j := by
                rw [huser] at heq
                exact (List.Nodup.getElem_inj_iff hc.nodup).mp heq
              omega
        subst hjk
        refine ⟨j + 1, ?_⟩
        rw [Function.update_self, hk, ← hu]
        exact attach_chain hj
      · refine ⟨k, ?_⟩
        rw [Function.update_of_ne (Ne.symm ho)]
        exact hk

/-- **The calls of a chain end up in front of their instruction in reverse
order.** -/
theorem chain_placed {o : I} {chain : List I} (hbase : m.Base base) (hcs : m.Respects base cs)
    (hc : m.Chain cs o chain) (ho : usersOf cs o = []) (h : m.Placed base code seg)
    (hseg : Partly o chain seg) (hplace : placeInsts ctx cs code = some code') :
    ∃ seg', m.Placed base code' seg' ∧ seg' o = chain.reverse := by
  obtain ⟨seg', h', ⟨k, hk⟩, order, hmem, hclosed⟩ := placeInsts_placed (P := Partly o chain)
    (fun i hi seg seg' hseg hstep => hc.step hi hseg hstep) hbase hcs h hseg hplace
  -- each call of the chain is placed, as its only user was
  have hcall : ∀ (j : ℕ) (hj : j < chain.length), chain[j] ∈ order := by
    intro j
    induction j with
    | zero =>
        intro hj
        have huser : (chain[0], o) ∈ cs := by
          rw [← mem_usersOf, hc.user 0 hj]
          exact List.mem_singleton.mpr rfl
        refine hclosed _ (mem_nodes.mpr ⟨_, huser, .inl rfl⟩) fun u hu => ?_
        rw [hc.user 0 hj, List.mem_singleton] at hu
        rw [hu]
        refine hclosed o (mem_nodes.mpr ⟨_, huser, .inr rfl⟩) fun u hu => ?_
        rw [ho] at hu
        cases hu
    | succ j ih =>
        intro hj
        have huser : chainUser o chain (j + 1) = chain[j] := by
          show chain[j]?.getD o = _
          rw [List.getElem?_eq_getElem (by omega), Option.getD_some]
        have hcon : (chain[j + 1], chain[j]) ∈ cs := by
          rw [← mem_usersOf, hc.user (j + 1) hj, huser]
          exact List.mem_singleton.mpr rfl
        refine hclosed _ (mem_nodes.mpr ⟨_, hcon, .inl rfl⟩) fun u hu => ?_
        rw [hc.user (j + 1) hj, huser, List.mem_singleton] at hu
        rw [hu]
        exact ih (by omega)
  refine ⟨seg', h', ?_⟩
  rw [hk]
  congr 1
  apply List.take_of_length_le
  by_contra hlt
  have hklt : k < chain.length := by omega
  have hq := hc.queued _ (List.getElem_mem hklt)
  have hin := hmem _ (hcall k hklt) hq.1
  rw [hq.2, hk, List.mem_reverse, List.mem_take_iff_getElem] at hin
  obtain ⟨j, hj, heq⟩ := hin
  have := (List.Nodup.getElem_inj_iff hc.nodup).mp heq
  omega

end Marks

end Kremlin.Instrument
