/-
  Kremlin.Library.EdgeSplitting — new blocks on the edges of a graph with phis.

  The phis of a block are set together when the block is entered, each to the
  value of its entry for the block that control comes from.  `split` sends some
  predecessors of a block to a new block in front of it.  Their entries move to
  phis of the new block, which the old phis then read; where a single entry
  moves, no phi is needed for it.

  The graph stays well formed (`WellFormed.split`), and every walk of it sees
  the values it saw before (`WellFormed.split_preserves`).
-/
import Mathlib.Data.List.Basic
import Mathlib.Data.List.Nodup
import Mathlib.Order.Basic
import Mathlib.Tactic.Common

namespace Kremlin.Library.Ssa

variable {X V M : Type}

/-! ## §1. Names and values. -/

/-- The names of values: those of the program, and those of phis made for new
blocks. -/
inductive Name (X : Type) where
  | orig (x : X)
  | promoted (phi : Name X) (block : ℕ)
  deriving DecidableEq

/-- Made for blocks below `n` only. -/
def Name.Within (n : ℕ) : Name X → Prop
  | .orig _ => True
  | .promoted phi block => block < n ∧ phi.Within n

/-- More blocks, more names. -/
theorem Name.Within.mono {m n : ℕ} (hmn : m ≤ n) {x : Name X} (h : x.Within m) : x.Within n := by
  induction x with
  | orig x => trivial
  | promoted phi block ih => exact ⟨Nat.lt_of_lt_of_le h.1 hmn, ih h.2⟩

/-- A value as an operand: a constant, or the name of another one. -/
inductive Value (X V : Type) where
  | const (v : V)
  | name (x : Name X)
  deriving DecidableEq

/-- A constant is a value of every graph. -/
def Value.Within (n : ℕ) : Value X V → Prop
  | .const _ => True
  | .name x => x.Within n

/-- More blocks, more values. -/
theorem Value.Within.mono {m n : ℕ} (hmn : m ≤ n) {v : Value X V} (h : v.Within m) :
    v.Within n := by
  cases v with
  | const v => trivial
  | name x => exact Name.Within.mono hmn h

/-- The values of the names, and the memory. -/
structure State (X V M : Type) where
  regs : Name X → V
  mem : M

/-- What a value is in a state. -/
def Value.eval (st : State X V M) : Value X V → V
  | .const v => v
  | .name x => st.regs x

/-- The states agree on the names within `n` and on the memory. -/
structure Agrees (n : ℕ) (st st' : State X V M) : Prop where
  regs : ∀ x : Name X, x.Within n → st.regs x = st'.regs x
  mem : st.mem = st'.mem

/-- Every state agrees with itself. -/
theorem Agrees.refl (n : ℕ) (st : State X V M) : Agrees n st st := ⟨fun _ _ => rfl, rfl⟩

/-- Agreement goes on. -/
theorem Agrees.trans {n : ℕ} {st₁ st₂ st₃ : State X V M} (h : Agrees n st₁ st₂)
    (h' : Agrees n st₂ st₃) : Agrees n st₁ st₃ where
  regs x hx := (h.regs x hx).trans (h'.regs x hx)
  mem := h.mem.trans h'.mem

/-- Fewer names, more agreement. -/
theorem Agrees.mono {m n : ℕ} (hmn : m ≤ n) {st st' : State X V M} (h : Agrees n st st') :
    Agrees m st st' where
  regs x hx := h.regs x (hx.mono hmn)
  mem := h.mem

/-- States that agree give the same values. -/
theorem Agrees.eval {n : ℕ} {st st' : State X V M} (h : Agrees n st st') {v : Value X V}
    (hv : v.Within n) : v.eval st = v.eval st' := by
  cases v with
  | const v => rfl
  | name x => exact h.regs x hv

/-! ## §2. Graphs with phis. -/

/-- A phi: its name, and its entries with the blocks they are for. -/
structure Phi (X V : Type) where
  name : Name X
  incoming : List (Value X V × ℕ)
  deriving DecidableEq

/-- The entry of a phi for a block. -/
def Phi.entry (phi : Phi X V) (p : ℕ) : Option (Value X V × ℕ) :=
  phi.incoming.find? fun e => decide (e.2 = p)

/-- The entry found is one for that block. -/
theorem Phi.entry_block {phi : Phi X V} {p : ℕ} {e : Value X V × ℕ} (h : phi.entry p = some e) :
    e.2 = p :=
  of_decide_eq_true (List.find?_some (p := fun e : Value X V × ℕ => decide (e.2 = p)) h)

/-- The value of a phi when its block is entered from `p`. -/
def Phi.value (phi : Phi X V) (p : ℕ) (st : State X V M) : V :=
  match phi.entry p with
  | some e => e.1.eval st
  | none => st.regs phi.name

/-- The blocks are the numbers below `count`; `body` is what a block does after
its phis. -/
structure Graph (X V M : Type) where
  count : ℕ
  succ : ℕ → List ℕ
  phis : ℕ → List (Phi X V)
  body : ℕ → State X V M → State X V M

namespace Graph

/-- A walk from `p`, by the blocks it enters. -/
def IsWalk (G : Graph X V M) : ℕ → List ℕ → Prop
  | _, [] => True
  | p, b :: walk => b ∈ G.succ p ∧ G.IsWalk b walk

/-- The number of edges from `p` to `b`. -/
def edges (G : Graph X V M) (p b : ℕ) : ℕ := if p < G.count then (G.succ p).count b else 0

/-- A phi of the block `b` has one entry for each edge to `b`. -/
def OneEntryPerEdge (G : Graph X V M) (b : ℕ) (phi : Phi X V) : Prop :=
  ∀ p, phi.incoming.countP (fun e => decide (e.2 = p)) = G.edges p b

/-- What a verifier of the graph checks. -/
structure WellFormed (G : Graph X V M) : Prop where
  succ_lt : ∀ p < G.count, ∀ b ∈ G.succ p, b < G.count
  entries : ∀ b < G.count, ∀ phi ∈ G.phis b, G.OneEntryPerEdge b phi
  same : ∀ b < G.count, ∀ phi ∈ G.phis b, ∀ e ∈ phi.incoming, ∀ e' ∈ phi.incoming,
    e.2 = e'.2 → e.1 = e'.1
  nodup : ∀ b < G.count, ((G.phis b).map Phi.name).Nodup
  within : ∀ b < G.count, ∀ phi ∈ G.phis b, phi.name.Within G.count ∧
    ∀ e ∈ phi.incoming, e.1.Within G.count
  body : ∀ b < G.count, ∀ n, G.count ≤ n → ∀ st st' : State X V M,
    Agrees n st st' → Agrees n (G.body b st) (G.body b st')

end Graph

section Enter

variable [DecidableEq X]

/-- The phi of a name. -/
theorem find_name {phis : List (Phi X V)} {phi : Phi X V} (hphi : phi ∈ phis)
    (hnodup : (phis.map Phi.name).Nodup) :
    phis.find? (fun phi' => decide (phi'.name = phi.name)) = some phi := by
  induction phis with
  | nil => cases hphi
  | cons head phis ih =>
      rw [List.map_cons, List.nodup_cons] at hnodup
      rcases List.mem_cons.mp hphi with rfl | hphi
      · exact List.find?_cons_of_pos (decide_eq_true rfl)
      · rw [List.find?_cons_of_neg, ih hphi hnodup.2]
        intro heq
        exact hnodup.1 (List.mem_map.mpr ⟨phi, hphi, (of_decide_eq_true heq).symm⟩)

/-- Entering a block from `p`: all its phis are set at once. -/
def enter (phis : List (Phi X V)) (p : ℕ) (st : State X V M) : State X V M where
  regs x :=
    match phis.find? fun phi => decide (phi.name = x) with
    | some phi => phi.value p st
    | none => st.regs x
  mem := st.mem

/-- Leaving `p` for `b`. -/
def Graph.follow (G : Graph X V M) (p b : ℕ) (st : State X V M) : State X V M :=
  enter (G.phis b) p (G.body p st)

/-- The state at the end of a walk. -/
def Graph.run (G : Graph X V M) : ℕ → List ℕ → State X V M → State X V M
  | _, [], st => st
  | p, b :: walk, st => G.run b walk (G.follow p b st)

/-- Phis that have the same values give the same values. -/
theorem enter_agrees {n p q : ℕ} {phis : List (Phi X V)} {f : Phi X V → Phi X V}
    {st st' : State X V M} (hname : ∀ phi, (f phi).name = phi.name)
    (hvalue : ∀ phi ∈ phis, phi.value p st = (f phi).value q st') (h : Agrees n st st') :
    Agrees n (enter phis p st) (enter (phis.map f) q st') where
  regs x hx := by
    have hfind : (phis.map f).find? (fun phi => decide (phi.name = x))
        = (phis.find? fun phi => decide (phi.name = x)).map f := by
      rw [List.find?_map]
      congr 2
      funext phi
      show decide ((f phi).name = x) = _
      rw [hname phi]
    simp only [enter, hfind]
    cases hphi : phis.find? fun phi => decide (phi.name = x) with
    | none => exact h.regs x hx
    | some phi => exact hvalue phi (List.mem_of_find?_eq_some hphi)
  mem := h.mem

/-- Names that no phi has keep their values. -/
theorem enter_agrees_self {n p : ℕ} {phis : List (Phi X V)} {st : State X V M}
    (h : ∀ phi ∈ phis, ¬phi.name.Within n) : Agrees n st (enter phis p st) where
  regs x hx := by
    have hnone : phis.find? (fun phi => decide (phi.name = x)) = none := by
      rw [List.find?_eq_none]
      intro phi hphi heq
      exact h phi hphi (of_decide_eq_true heq ▸ hx)
    simp only [enter, hnone]
  mem := rfl

end Enter

/-! ## §3. Walks that go through more blocks. -/

/-- The walk from `p` ends in a block below `n`. -/
def Ends (n : ℕ) : ℕ → List ℕ → Prop
  | p, [] => p < n
  | _, b :: walk => Ends n b walk

/-- A walk without the blocks from `n` on. -/
def below (n : ℕ) (walk : List ℕ) : List ℕ := walk.filter fun b => decide (b < n)

/-- An old block counts. -/
theorem below_cons_of_lt {n b : ℕ} (h : b < n) (walk : List ℕ) :
    below n (b :: walk) = b :: below n walk := List.filter_cons_of_pos (decide_eq_true h)

/-- A new one does not. -/
theorem below_cons_of_le {n b : ℕ} (h : n ≤ b) (walk : List ℕ) :
    below n (b :: walk) = below n walk := by
  unfold below
  rw [List.filter_cons_of_neg]
  simpa using h

/-- The smaller bound counts. -/
theorem below_below {m n : ℕ} (hmn : m ≤ n) (walk : List ℕ) :
    below m (below n walk) = below m walk := by
  unfold below
  rw [List.filter_filter]
  refine List.filter_congr fun b _ => ?_
  rw [← Bool.decide_and]
  exact decide_eq_decide.mpr ⟨fun h => h.1, fun h => ⟨h, Nat.lt_of_lt_of_le h hmn⟩⟩

/-- The last block may be named with a larger bound. -/
theorem Ends.mono {m n : ℕ} (hmn : m ≤ n) {p : ℕ} {walk : List ℕ} (h : Ends m p walk) :
    Ends n p walk := by
  induction walk generalizing p with
  | nil => exact Nat.lt_of_lt_of_le h hmn
  | cons b walk ih => exact ih h

/-- Leaving out other blocks does not change where a walk ends. -/
theorem Ends.below {m n : ℕ} (hmn : m ≤ n) {p q : ℕ} {walk : List ℕ} (h : Ends m p walk)
    (hq : walk = [] → q < m) : Ends m q (below n walk) := by
  induction walk generalizing p q with
  | nil => exact hq rfl
  | cons b walk ih =>
      by_cases hb : b < n
      · rw [below_cons_of_lt hb]
        refine ih h fun hnil => ?_
        rw [hnil] at h
        exact h
      · rw [below_cons_of_le (Nat.le_of_not_lt hb)]
        refine ih h fun hnil => ?_
        rw [hnil] at h
        exact absurd (Nat.lt_of_lt_of_le h hmn) hb

/-- The last old block, found in two steps. -/
theorem Ends.of_below {m n : ℕ} {p : ℕ} {walk : List ℕ} (h : Ends n p walk)
    (h' : Ends m p (Ssa.below n walk)) : Ends m p walk := by
  induction walk generalizing p with
  | nil => exact h'
  | cons b walk ih =>
      by_cases hb : b < n
      · rw [below_cons_of_lt hb] at h'
        exact ih h h'
      · rw [below_cons_of_le (Nat.le_of_not_lt hb)] at h'
        refine ih h ?_
        -- a block is left, so where the walk comes from does not matter
        have hends : Ends n b walk := h
        have hleft : Ends n n (Ssa.below n walk) := hends.below (Nat.le_refl n) fun hnil => by
          rw [hnil] at hends
          exact absurd hends hb
        cases hwalk : Ssa.below n walk with
        | nil =>
            rw [hwalk] at hleft
            exact absurd hleft (Nat.lt_irrefl n)
        | cons c rest =>
            rw [hwalk] at h'
            exact h'

/-- `G'` has all walks of `G`, with other blocks on the way, and each of them
sees the values that `G` has. -/
structure Preserves [DecidableEq X] (G G' : Graph X V M) : Prop where
  count_le : G.count ≤ G'.count
  lifts : ∀ p < G.count, ∀ walk, G.IsWalk p walk →
    ∃ walk', G'.IsWalk p walk' ∧ below G.count walk' = walk ∧ Ends G.count p walk'
  keeps : ∀ p < G.count, ∀ walk', G'.IsWalk p walk' → Ends G.count p walk' →
    G.IsWalk p (below G.count walk') ∧
      ∀ st st', Agrees G.count st st' →
        Agrees G.count (G.run p (below G.count walk') st) (G'.run p walk' st')

/-- A walk of a well-formed graph stays below its count. -/
theorem Graph.WellFormed.walk_below {G : Graph X V M} (h : G.WellFormed) {p : ℕ}
    (hp : p < G.count) {walk : List ℕ} (hwalk : G.IsWalk p walk) :
    below G.count walk = walk ∧ Ends G.count p walk := by
  induction walk generalizing p with
  | nil => exact ⟨rfl, hp⟩
  | cons b walk ih =>
      have hb := h.succ_lt p hp b hwalk.1
      obtain ⟨hbelow, hends⟩ := ih hb hwalk.2
      exact ⟨by rw [below_cons_of_lt hb, hbelow], hends⟩

/-- One split after another. -/
theorem Preserves.trans [DecidableEq X] {G G' G'' : Graph X V M} (h : Preserves G G')
    (h' : Preserves G' G'') : Preserves G G'' where
  count_le := Nat.le_trans h.count_le h'.count_le
  lifts p hp walk hwalk := by
    obtain ⟨walk', hwalk', rfl, hends⟩ := h.lifts p hp walk hwalk
    obtain ⟨walk'', hwalk'', rfl, hends'⟩ :=
      h'.lifts p (Nat.lt_of_lt_of_le hp h.count_le) walk' hwalk'
    exact ⟨walk'', hwalk'', (below_below h.count_le walk'').symm, hends'.of_below hends⟩
  keeps p hp walk'' hwalk'' hends := by
    obtain ⟨hwalk', hsame'⟩ := h'.keeps p (Nat.lt_of_lt_of_le hp h.count_le) walk'' hwalk''
      (hends.mono h.count_le)
    obtain ⟨hwalk, hsame⟩ := h.keeps p hp _ hwalk' (hends.below h.count_le fun _ => hp)
    rw [below_below h.count_le] at hwalk hsame
    refine ⟨hwalk, fun st st' hst => ?_⟩
    exact (hsame st st' hst).trans ((hsame' st' st' (Agrees.refl _ st')).mono h.count_le)

/-! ## §4. New blocks in front of a block. -/

/-- An edge to `old` goes to `new` instead. -/
def redirect (old new b : ℕ) : ℕ := if b = old then new else b

/-- The entries of a phi that move to the new block. -/
def Phi.movedEntries (moved : ℕ → Bool) (phi : Phi X V) : List (Value X V × ℕ) :=
  phi.incoming.filter fun e => moved e.2

/-- The entries of a phi that stay. -/
def Phi.keptEntries (moved : ℕ → Bool) (phi : Phi X V) : List (Value X V × ℕ) :=
  phi.incoming.filter fun e => !moved e.2

/-- The value of a phi when its block is entered from the new block: the value of
the only entry that moved, or the new phi. -/
def Phi.piped (moved : ℕ → Bool) (new : ℕ) (phi : Phi X V) : Value X V :=
  match phi.movedEntries moved with
  | [e] => e.1
  | _ => .name (.promoted phi.name new)

/-- The old phi, which reads the new block's value. -/
def Phi.split (moved : ℕ → Bool) (new : ℕ) (phi : Phi X V) : Phi X V where
  name := phi.name
  incoming := phi.keptEntries moved ++ [(phi.piped moved new, new)]

/-- The phi of the new block. -/
def Phi.promote (moved : ℕ → Bool) (new : ℕ) (phi : Phi X V) : Phi X V where
  name := .promoted phi.name new
  incoming := phi.movedEntries moved

/-- The phis of the new block: none for a single entry. -/
def promotedPhis (moved : ℕ → Bool) (new : ℕ) (phis : List (Phi X V)) : List (Phi X V) :=
  (phis.filter fun phi => decide ((phi.movedEntries moved).length ≠ 1)).map (Phi.promote moved new)

/-- A single entry needs no phi. -/
theorem promotedPhis_cons_of_single {moved : ℕ → Bool} {new : ℕ} {phi : Phi X V}
    {e : Value X V × ℕ} (h : phi.movedEntries moved = [e]) (phis : List (Phi X V)) :
    promotedPhis moved new (phi :: phis) = promotedPhis moved new phis := by
  unfold promotedPhis
  rw [List.filter_cons_of_neg]
  rw [h]
  simp

/-- Several entries get a phi of their own. -/
theorem promotedPhis_cons_of_many {moved : ℕ → Bool} {new : ℕ} {phi : Phi X V}
    (h : (phi.movedEntries moved).length ≠ 1) (phis : List (Phi X V)) :
    promotedPhis moved new (phi :: phis) =
      phi.promote moved new :: promotedPhis moved new phis := by
  unfold promotedPhis
  rw [List.filter_cons, if_pos (decide_eq_true h), List.map_cons]

/-- A new block takes the edges of the `moved` blocks to `old`. -/
def Graph.split (G : Graph X V M) (old : ℕ) (moved : ℕ → Bool) : Graph X V M where
  count := G.count + 1
  succ p :=
    if p = G.count then [old]
    else if p < G.count ∧ moved p = true then (G.succ p).map (redirect old G.count)
    else G.succ p
  phis b :=
    if b = G.count then promotedPhis moved G.count (G.phis old)
    else if b = old then (G.phis old).map (Phi.split moved G.count)
    else G.phis b
  body b := if b = G.count then id else G.body b

/-! ## §5. The new graph is well formed. -/

section Split

variable {G : Graph X V M} {old : ℕ} {moved : ℕ → Bool}

/-- The new block goes on to the old one. -/
theorem split_succ_new : (G.split old moved).succ G.count = [old] := if_pos rfl

/-- The edges of the other blocks. -/
theorem split_succ_of_lt {p : ℕ} (hp : p < G.count) :
    (G.split old moved).succ p
      = if moved p = true then (G.succ p).map (redirect old G.count) else G.succ p := by
  show (if p = G.count then [old]
    else if p < G.count ∧ moved p = true then (G.succ p).map (redirect old G.count)
    else G.succ p) = _
  rw [if_neg (Nat.ne_of_lt hp)]
  by_cases hm : moved p = true
  · rw [if_pos ⟨hp, hm⟩, if_pos hm]
  · rw [if_neg fun h => hm h.2, if_neg hm]

/-- The phis of the new block. -/
theorem split_phis_new :
    (G.split old moved).phis G.count = promotedPhis moved G.count (G.phis old) := if_pos rfl

/-- The phis of the old block. -/
theorem split_phis_old (hold : old < G.count) :
    (G.split old moved).phis old = (G.phis old).map (Phi.split moved G.count) :=
  (if_neg (Nat.ne_of_lt hold)).trans (if_pos rfl)

/-- Those of the others stay. -/
theorem split_phis_of_ne {b : ℕ} (hb : b < G.count) (hne : b ≠ old) :
    (G.split old moved).phis b = G.phis b :=
  (if_neg (Nat.ne_of_lt hb)).trans (if_neg hne)

/-- No old block computes anything else. -/
theorem split_body_of_lt {b : ℕ} (hb : b < G.count) : (G.split old moved).body b = G.body b :=
  if_neg (Nat.ne_of_lt hb)

/-- Redirected edges: those to `old` go to the new block, all others stay. -/
theorem count_map_redirect {new : ℕ} (hne : old ≠ new) (b : ℕ) (succs : List ℕ)
    (hnew : new ∉ succs) :
    (succs.map (redirect old new)).count b
      = if b = new then succs.count old else if b = old then 0 else succs.count b := by
  induction succs with
  | nil => simp
  | cons s succs ih =>
      rw [List.mem_cons, not_or] at hnew
      rw [List.map_cons, List.count_cons, ih hnew.2, List.count_cons, List.count_cons]
      unfold redirect
      grind

/-- The edges between two blocks are counted among the successors. -/
theorem edges_of_lt {p b : ℕ} (hp : p < G.count) : G.edges p b = (G.succ p).count b := if_pos hp

/-- The edges of the new graph. -/
theorem Graph.WellFormed.split_edges (h : G.WellFormed) (hold : old < G.count) (p b : ℕ) :
    (G.split old moved).edges p b =
      if p = G.count then (if b = old then 1 else 0)
      else if b = G.count then (if moved p = true then G.edges p old else 0)
      else if b = old ∧ moved p = true then 0 else G.edges p b := by
  by_cases hp : p < G.count
  · have hlt : p < (G.split old moved).count := Nat.lt_succ_of_lt hp
    have hnew : G.count ∉ G.succ p := fun hin => Nat.lt_irrefl _ (h.succ_lt p hp _ hin)
    rw [edges_of_lt hlt, split_succ_of_lt hp, if_neg (Nat.ne_of_lt hp), edges_of_lt hp,
      edges_of_lt hp]
    by_cases hm : moved p = true
    · rw [if_pos hm, count_map_redirect (Nat.ne_of_lt hold) b _ hnew]
      by_cases hb : b = G.count
      · rw [if_pos hb, if_pos hb, if_pos hm]
      · rw [if_neg hb, if_neg hb]
        exact if_congr (and_iff_left hm).symm rfl rfl
    · rw [if_neg hm, if_neg hm]
      by_cases hb : b = G.count
      · rw [if_pos hb, hb, List.count_eq_zero]
        exact hnew
      · rw [if_neg hb, if_neg fun hb => hm hb.2]
  · have hzero : ∀ b, G.edges p b = 0 := fun b => if_neg hp
    rw [hzero, hzero, ite_self, ite_self, ite_self]
    by_cases heq : p = G.count
    · rw [if_pos heq, heq, edges_of_lt (Nat.lt_succ_self _), split_succ_new, List.count_singleton]
      by_cases hb : b = old
      · rw [hb, if_pos (beq_self_eq_true old), if_pos rfl]
      · rw [if_neg hb, if_neg fun heq => hb (beq_iff_eq.mp heq).symm]
    · rw [if_neg heq]
      exact if_neg fun hlt => hp (Nat.lt_of_le_of_ne (Nat.le_of_lt_succ hlt) heq)

/-- Counting entries among those that moved, or among those that stayed. -/
theorem countP_filter_block (keep : ℕ → Bool) (p : ℕ) (entries : List (Value X V × ℕ)) :
    (entries.filter fun e => keep e.2).countP (fun e => decide (e.2 = p))
      = if keep p = true then entries.countP (fun e => decide (e.2 = p)) else 0 := by
  rw [List.countP_filter]
  by_cases hp : keep p = true
  · rw [if_pos hp]
    refine List.countP_congr fun e _ => ?_
    rw [Bool.and_eq_true, decide_eq_true_eq]
    exact and_iff_left_of_imp fun he => he ▸ hp
  · rw [if_neg hp, List.countP_eq_zero]
    intro e _ he
    rw [Bool.and_eq_true, decide_eq_true_eq] at he
    exact hp (he.1 ▸ he.2)

/-- The value that comes through the new block is a known one. -/
theorem Phi.within_piped {n new : ℕ} {phi : Phi X V} (hname : phi.name.Within n)
    (hincoming : ∀ e ∈ phi.incoming, e.1.Within n) (hnew : new < n) :
    (phi.piped moved new).Within n := by
  unfold Phi.piped
  split
  · next e heq =>
      have he : e ∈ phi.movedEntries moved := by
        rw [heq]
        exact List.mem_singleton_self e
      exact hincoming e (List.mem_filter.mp he).1
  · exact ⟨hnew, hname⟩

/-- Where the phis of the new graph come from. -/
theorem split_phi_cases (hold : old < G.count) {b : ℕ} (hb : b < (G.split old moved).count)
    {phi : Phi X V} (hphi : phi ∈ (G.split old moved).phis b) :
    b < G.count ∧ b ≠ old ∧ phi ∈ G.phis b ∨
      b = old ∧ (∃ phi' ∈ G.phis old, phi = phi'.split moved G.count) ∨
      b = G.count ∧ ∃ phi' ∈ G.phis old, phi = phi'.promote moved G.count := by
  rcases Nat.lt_or_eq_of_le (Nat.le_of_lt_succ hb) with hlt | rfl
  · by_cases hbold : b = old
    · rw [hbold, split_phis_old hold] at hphi
      obtain ⟨phi', hphi', rfl⟩ := List.mem_map.mp hphi
      exact .inr (.inl ⟨hbold, phi', hphi', rfl⟩)
    · rw [split_phis_of_ne hlt hbold] at hphi
      exact .inl ⟨hlt, hbold, hphi⟩
  · rw [split_phis_new] at hphi
    obtain ⟨phi', hphi', rfl⟩ := List.mem_map.mp hphi
    exact .inr (.inr ⟨rfl, phi', (List.mem_filter.mp hphi').1, rfl⟩)

/-- The promoted phis have different names. -/
theorem nodup_promotedPhis {new : ℕ} {phis : List (Phi X V)} (h : (phis.map Phi.name).Nodup) :
    ((promotedPhis moved new phis).map Phi.name).Nodup := by
  rw [promotedPhis, List.map_map]
  have hsub := h.sublist (List.Sublist.map Phi.name (List.filter_sublist
    (p := fun phi : Phi X V => decide ((phi.movedEntries moved).length ≠ 1))))
  have hinj : Function.Injective fun x : Name X => Name.promoted x new := by
    intro x y hxy
    exact (Name.promoted.inj hxy).1
  have hmap := hsub.map hinj
  rw [List.map_map] at hmap
  exact hmap

namespace Graph.WellFormed

/-- No entry is for a block that is not there. -/
theorem entry_lt (h : G.WellFormed) {b : ℕ} (hb : b < G.count) {phi : Phi X V}
    (hphi : phi ∈ G.phis b) {e : Value X V × ℕ} (he : e ∈ phi.incoming) : e.2 < G.count := by
  by_contra hlt
  have hcount := h.entries b hb phi hphi e.2
  rw [Graph.edges, if_neg hlt, List.countP_eq_zero] at hcount
  exact hcount e he (decide_eq_true rfl)

/-- The phis of both blocks have one entry for each edge. -/
theorem split_entries (h : G.WellFormed) (hold : old < G.count) {b : ℕ}
    (hb : b < (G.split old moved).count) {phi : Phi X V} (hphi : phi ∈ (G.split old moved).phis b) :
    (G.split old moved).OneEntryPerEdge b phi := by
  intro p
  rw [h.split_edges hold]
  have hnew : ∀ b, G.edges G.count b = 0 := fun b => if_neg (Nat.lt_irrefl _)
  rcases split_phi_cases hold hb hphi with ⟨hb, hne, hphi⟩ | ⟨rfl, phi, hphi', rfl⟩ |
    ⟨rfl, phi, hphi', rfl⟩
  · rw [h.entries b hb phi hphi p, if_neg hne, if_neg (Nat.ne_of_lt hb),
      if_neg (fun hbp : b = old ∧ moved p = true => hne hbp.1)]
    split
    · next hp => rw [hp, hnew]
    · rfl
  · rw [if_neg (Nat.ne_of_lt hold)]
    show (phi.keptEntries moved ++ [(phi.piped moved G.count, G.count)]).countP _ = _
    rw [List.countP_append, Phi.keptEntries, countP_filter_block fun p => !moved p,
      h.entries b hold phi hphi' p, List.countP_singleton]
    by_cases hp : p = G.count
    · rw [hp, hnew, ite_self, if_pos rfl, if_pos rfl, if_pos (decide_eq_true rfl)]
    · have hlast : ¬decide (G.count = p) = true := fun heq => hp (of_decide_eq_true heq).symm
      rw [if_neg hp, if_neg hlast]
      cases moved p <;> simp
  · show (phi.movedEntries moved).countP _ = _
    rw [Phi.movedEntries, countP_filter_block moved, h.entries old hold phi hphi' p,
      if_neg (Nat.ne_of_gt hold), if_pos (Eq.refl G.count)]
    by_cases hp : p = G.count
    · rw [hp, hnew, ite_self, if_pos rfl]
    · rw [if_neg hp]

/-- Entries for the same block are still equal. -/
theorem split_same (h : G.WellFormed) (hold : old < G.count) {b : ℕ}
    (hb : b < (G.split old moved).count) {phi : Phi X V} (hphi : phi ∈ (G.split old moved).phis b)
    {e e' : Value X V × ℕ} (he : e ∈ phi.incoming) (he' : e' ∈ phi.incoming) (heq : e.2 = e'.2) :
    e.1 = e'.1 := by
  rcases split_phi_cases hold hb hphi with ⟨hb, -, hphi⟩ | ⟨rfl, phi, hphi', rfl⟩ |
    ⟨rfl, phi, hphi', rfl⟩
  · exact h.same b hb phi hphi e he e' he' heq
  · have hkept : ∀ e ∈ phi.keptEntries moved, e ∈ phi.incoming ∧ e.2 ≠ G.count := by
      intro e he
      have hin := (List.mem_filter.mp he).1
      exact ⟨hin, Nat.ne_of_lt (h.entry_lt hold hphi' hin)⟩
    rcases List.mem_append.mp he with he | he <;> rcases List.mem_append.mp he' with he' | he'
    · exact h.same b hold phi hphi' e (hkept e he).1 e' (hkept e' he').1 heq
    · rw [List.mem_singleton.mp he'] at heq
      exact absurd heq (hkept e he).2
    · rw [List.mem_singleton.mp he] at heq
      exact absurd heq.symm (hkept e' he').2
    · rw [List.mem_singleton.mp he, List.mem_singleton.mp he']
  · exact h.same old hold phi hphi' e (List.mem_filter.mp he).1 e' (List.mem_filter.mp he').1 heq

/-- Names are still different. -/
theorem split_nodup (h : G.WellFormed) (hold : old < G.count) {b : ℕ}
    (hb : b < (G.split old moved).count) : (((G.split old moved).phis b).map Phi.name).Nodup := by
  rcases Nat.lt_or_eq_of_le (Nat.le_of_lt_succ hb) with hlt | rfl
  · by_cases hbold : b = old
    · rw [hbold, split_phis_old hold, List.map_map]
      exact h.nodup old hold
    · rw [split_phis_of_ne hlt hbold]
      exact h.nodup b hlt
  · rw [split_phis_new]
    exact nodup_promotedPhis (h.nodup old hold)

/-- Names and values are still known. -/
theorem split_within (h : G.WellFormed) (hold : old < G.count) {b : ℕ}
    (hb : b < (G.split old moved).count) {phi : Phi X V}
    (hphi : phi ∈ (G.split old moved).phis b) :
    phi.name.Within (G.split old moved).count ∧
      ∀ e ∈ phi.incoming, e.1.Within (G.split old moved).count := by
  have hle : G.count ≤ (G.split old moved).count := Nat.le_succ _
  have hnew : G.count < (G.split old moved).count := Nat.lt_succ_self _
  have hall : ∀ b < G.count, ∀ phi ∈ G.phis b, phi.name.Within (G.split old moved).count ∧
      ∀ e ∈ phi.incoming, e.1.Within (G.split old moved).count := by
    intro b hb phi hphi
    obtain ⟨hname, hincoming⟩ := h.within b hb phi hphi
    exact ⟨hname.mono hle, fun e he => (hincoming e he).mono hle⟩
  rcases split_phi_cases hold hb hphi with ⟨hb, -, hphi⟩ | ⟨rfl, phi, hphi', rfl⟩ |
    ⟨rfl, phi, hphi', rfl⟩
  · exact hall b hb phi hphi
  · obtain ⟨hname, hincoming⟩ := hall b hold phi hphi'
    refine ⟨hname, fun e he => ?_⟩
    rcases List.mem_append.mp he with he | he
    · exact hincoming e (List.mem_filter.mp he).1
    · rw [List.mem_singleton.mp he]
      exact Phi.within_piped hname hincoming hnew
  · obtain ⟨hname, hincoming⟩ := hall old hold phi hphi'
    exact ⟨⟨hnew, hname⟩, fun e he => hincoming e (List.mem_filter.mp he).1⟩

/-- Edges still lead to blocks. -/
theorem split_succ_lt (h : G.WellFormed) (hold : old < G.count) {p : ℕ}
    (hp : p < (G.split old moved).count) {b : ℕ} (hb : b ∈ (G.split old moved).succ p) :
    b < (G.split old moved).count := by
  rcases Nat.lt_or_eq_of_le (Nat.le_of_lt_succ hp) with hp | rfl
  · rw [split_succ_of_lt hp] at hb
    split at hb
    · obtain ⟨s, hs, rfl⟩ := List.mem_map.mp hb
      unfold redirect
      split
      · exact Nat.lt_succ_self _
      · exact Nat.lt_succ_of_lt (h.succ_lt p hp s hs)
    · exact Nat.lt_succ_of_lt (h.succ_lt p hp b hb)
  · rw [split_succ_new, List.mem_singleton] at hb
    rw [hb]
    exact Nat.lt_succ_of_lt hold

/-- Splitting edges keeps a graph well formed. -/
theorem split (h : G.WellFormed) (hold : old < G.count) : (G.split old moved).WellFormed where
  succ_lt _ hp _ hb := h.split_succ_lt hold hp hb
  entries _ hb _ hphi := h.split_entries hold hb hphi
  same _ hb _ hphi _ he _ he' heq := h.split_same hold hb hphi he he' heq
  nodup _ hb := h.split_nodup hold hb
  within _ hb _ hphi := h.split_within hold hb hphi
  body b hb n hn st st' hst := by
    rcases Nat.lt_or_eq_of_le (Nat.le_of_lt_succ hb) with hb | rfl
    · rw [split_body_of_lt hb]
      exact h.body b hb n (Nat.le_of_succ_le hn) st st' hst
    · show Agrees n ((if G.count = G.count then id else G.body _) st)
        ((if G.count = G.count then id else G.body _) st')
      rw [if_pos rfl]
      exact hst

end Graph.WellFormed

/-! ## §6. Walks see the same values. -/

/-- The entry for a block that stays is found as before. -/
theorem find?_filter_block (keep : ℕ → Bool) {p : ℕ} (hp : keep p = true)
    (entries : List (Value X V × ℕ)) :
    (entries.filter fun e => keep e.2).find? (fun e => decide (e.2 = p))
      = entries.find? fun e => decide (e.2 = p) := by
  rw [List.find?_filter]
  congr 1
  funext e
  refine decide_eq_decide.mpr ⟨fun h => of_decide_eq_true h.2, fun he => ⟨?_, decide_eq_true he⟩⟩
  rw [he]
  exact hp

/-- There is an entry for each edge. -/
theorem Graph.WellFormed.exists_entry (h : G.WellFormed) {p b : ℕ} (hp : p < G.count)
    (hb : b ∈ G.succ p) {phi : Phi X V} (hphi : phi ∈ G.phis b) :
    ∃ e ∈ phi.incoming, phi.entry p = some e := by
  have hlt := h.succ_lt p hp b hb
  have hcount := h.entries b hlt phi hphi p
  rw [edges_of_lt hp] at hcount
  have hpos : 0 < phi.incoming.countP fun e => decide (e.2 = p) := by
    rw [hcount, List.count_pos_iff]
    exact hb
  obtain ⟨e, he, hep⟩ := List.countP_pos_iff.mp hpos
  obtain ⟨e', he'⟩ := Option.isSome_iff_exists.mp
    (List.find?_isSome (p := fun e => decide (e.2 = p)).mpr ⟨e, he, hep⟩)
  exact ⟨e', List.mem_of_find?_eq_some he', he'⟩

/-- Where an entry stays, the phi has the value it had. -/
theorem Phi.value_split_kept {n new p : ℕ} {phi : Phi X V} {st st' : State X V M}
    (hp : moved p = false) {e : Value X V × ℕ} (hentry : phi.entry p = some e)
    (hwithin : e.1.Within n) (h : Agrees n st st') :
    phi.value p st = (phi.split moved new).value p st' := by
  have hsame : (phi.split moved new).entry p = some e := by
    show (phi.keptEntries moved ++ [(phi.piped moved new, new)]).find? _ = some e
    have hkeep : (!moved p) = true := by rw [hp, Bool.not_false]
    rw [List.find?_append, Phi.keptEntries, find?_filter_block (fun p => !moved p) hkeep]
    show (phi.entry p).or _ = some e
    rw [hentry, Option.some_or]
  unfold Phi.value
  rw [hsame, hentry]
  exact h.eval hwithin

/-- The edges that leave an old block. -/
theorem Graph.WellFormed.mem_split_succ (h : G.WellFormed) {p b : ℕ} (hp : p < G.count) :
    b ∈ (G.split old moved).succ p ↔
      b = G.count ∧ moved p = true ∧ old ∈ G.succ p ∨
        b ∈ G.succ p ∧ ¬(b = old ∧ moved p = true) := by
  rw [split_succ_of_lt hp]
  have hnew : G.count ∉ G.succ p := fun hin => Nat.lt_irrefl _ (h.succ_lt p hp _ hin)
  by_cases hm : moved p = true
  · rw [if_pos hm, List.mem_map]
    constructor
    · rintro ⟨s, hs, rfl⟩
      unfold redirect
      by_cases heq : s = old
      · rw [if_pos heq]
        exact .inl ⟨rfl, hm, heq ▸ hs⟩
      · rw [if_neg heq]
        exact .inr ⟨hs, fun hsold => heq hsold.1⟩
    · rintro (⟨rfl, -, hin⟩ | ⟨hin, hstay⟩)
      · exact ⟨old, hin, if_pos rfl⟩
      · exact ⟨b, hin, if_neg fun heq => hstay ⟨heq, hm⟩⟩
  · rw [if_neg hm]
    constructor
    · exact fun hin => .inr ⟨hin, fun hb => hm hb.2⟩
    · rintro (⟨-, hm', -⟩ | ⟨hin, -⟩)
      · exact absurd hm' hm
      · exact hin

/-- Every walk goes through the new block where its edges do. -/
theorem Graph.WellFormed.split_lifts (h : G.WellFormed) {p : ℕ} (hp : p < G.count) {walk : List ℕ}
    (hwalk : G.IsWalk p walk) : ∃ walk', (G.split old moved).IsWalk p walk' ∧
      below G.count walk' = walk ∧ Ends G.count p walk' := by
  induction walk generalizing p with
  | nil => exact ⟨[], trivial, rfl, hp⟩
  | cons b walk ih =>
      obtain ⟨hb, hrest⟩ := hwalk
      have hlt := h.succ_lt p hp b hb
      obtain ⟨walk', hwalk', rfl, hends⟩ := ih hlt hrest
      by_cases hmoved : b = old ∧ moved p = true
      · obtain ⟨rfl, hm⟩ := hmoved
        refine ⟨G.count :: b :: walk', ⟨?_, ?_, hwalk'⟩, ?_, hends⟩
        · exact (h.mem_split_succ hp).mpr (.inl ⟨rfl, hm, hb⟩)
        · rw [split_succ_new]
          exact List.mem_singleton_self b
        · rw [below_cons_of_le (Nat.le_refl _), below_cons_of_lt hlt]
      · refine ⟨b :: walk', ⟨?_, hwalk'⟩, below_cons_of_lt hlt walk', hends⟩
        exact (h.mem_split_succ hp).mpr (.inr ⟨hb, hmoved⟩)

variable [DecidableEq X]

/-- Entering the new block gives the values that the old phis are to have. -/
theorem piped_eval {n new p : ℕ} {phis : List (Phi X V)} {phi : Phi X V} {st : State X V M}
    (hphi : phi ∈ phis) (hnodup : (phis.map Phi.name).Nodup) (hp : moved p = true)
    {e : Value X V × ℕ} (hentry : phi.entry p = some e) (hwithin : e.1.Within n)
    (hnew : n ≤ new) :
    (phi.piped moved new).eval (enter (promotedPhis moved new phis) p st) = e.1.eval st := by
  have hagree : Agrees n st (enter (promotedPhis moved new phis) p st) := by
    refine enter_agrees_self fun phi' hphi' hin => ?_
    obtain ⟨phi₀, -, rfl⟩ := List.mem_map.mp hphi'
    exact absurd hin.1 (Nat.not_lt_of_le hnew)
  have hmoved : (phi.movedEntries moved).find? (fun e => decide (e.2 = p)) = some e := by
    rw [Phi.movedEntries, find?_filter_block moved hp]
    exact hentry
  unfold Phi.piped
  split
  · next e' heq =>
      -- the only entry that moved is the one for `p`
      have hin := List.mem_of_find?_eq_some hmoved
      rw [heq, List.mem_singleton] at hin
      rw [← hin]
      exact (hagree.eval hwithin).symm
  · next hmany =>
      have hlength : (phi.movedEntries moved).length ≠ 1 := by
        intro hone
        obtain ⟨e', heq⟩ := List.length_eq_one_iff.mp hone
        exact hmany e' heq
      -- the new phi of this name is the one made of `phi`
      have hin : phi.promote moved new ∈ promotedPhis moved new phis :=
        List.mem_map.mpr ⟨phi, List.mem_filter.mpr ⟨hphi, decide_eq_true hlength⟩, rfl⟩
      have hfind : (promotedPhis moved new phis).find?
          (fun phi' => decide (phi'.name = .promoted phi.name new))
            = some (phi.promote moved new) := find_name hin (nodup_promotedPhis hnodup)
      show (match (promotedPhis moved new phis).find?
          fun phi' => decide (phi'.name = .promoted phi.name new) with
        | some phi' => phi'.value p st
        | none => st.regs _) = _
      rw [hfind]
      show (match (phi.movedEntries moved).find? fun e => decide (e.2 = p) with
        | some e => e.1.eval st
        | none => _) = _
      rw [hmoved]

namespace Graph.WellFormed

variable {p b : ℕ} {st st' : State X V M}

/-- The values that a step reads decide those it gives. -/
theorem follow_agrees (h : G.WellFormed) (hp : p < G.count) (hb : b ∈ G.succ p)
    (hst : Agrees G.count st st') : Agrees G.count (G.follow p b st) (G.follow p b st') := by
  have hlt := h.succ_lt p hp b hb
  have hbody := h.body p hp G.count (Nat.le_refl _) st st' hst
  have hvalue : ∀ phi ∈ G.phis b,
      phi.value p (G.body p st) = (id phi).value p (G.body p st') := by
    intro phi hphi
    obtain ⟨e, he, hentry⟩ := h.exists_entry hp hb hphi
    show phi.value p _ = phi.value p _
    unfold Phi.value
    rw [hentry]
    exact hbody.eval ((h.within b hlt phi hphi).2 e he)
  have hid := enter_agrees (fun _ => rfl) hvalue hbody
  rw [List.map_id'] at hid
  exact hid

/-- Walks from states that agree end in such states. -/
theorem run_agrees (h : G.WellFormed) (hp : p < G.count) {walk : List ℕ}
    (hwalk : G.IsWalk p walk) (hst : Agrees G.count st st') :
    Agrees G.count (G.run p walk st) (G.run p walk st') := by
  induction walk generalizing p st st' with
  | nil => exact hst
  | cons b walk ih =>
      exact ih (h.succ_lt p hp b hwalk.1) hwalk.2 (h.follow_agrees hp hwalk.1 hst)

/-- Along an edge that stays. -/
theorem follow_kept (h : G.WellFormed) (hold : old < G.count) (hp : p < G.count)
    (hb : b ∈ G.succ p) (hstay : ¬(b = old ∧ moved p = true)) (hst : Agrees G.count st st') :
    Agrees G.count (G.follow p b st) ((G.split old moved).follow p b st') := by
  have hlt := h.succ_lt p hp b hb
  have hbody := h.body p hp G.count (Nat.le_refl _) st st' hst
  unfold Graph.follow
  rw [split_body_of_lt hp]
  by_cases heq : b = old
  · rw [heq, split_phis_old hold]
    refine enter_agrees (fun _ => rfl) (fun phi hphi => ?_) hbody
    rw [heq] at hb
    obtain ⟨e, he, hentry⟩ := h.exists_entry hp hb hphi
    have hkept : moved p = false := Bool.eq_false_iff.mpr fun hm => hstay ⟨heq, hm⟩
    exact Phi.value_split_kept hkept hentry ((h.within old hold phi hphi).2 e he) hbody
  · rw [split_phis_of_ne hlt heq]
    exact h.follow_agrees hp hb hst

/-- Along an edge that goes through the new block. -/
theorem follow_moved (h : G.WellFormed) (hp : p < G.count) (hold : old ∈ G.succ p)
    (hm : moved p = true) (hst : Agrees G.count st st') :
    Agrees G.count (G.follow p old st)
      ((G.split old moved).follow G.count old ((G.split old moved).follow p G.count st')) := by
  have hlt := h.succ_lt p hp old hold
  have hbody := h.body p hp G.count (Nat.le_refl _) st st' hst
  have hnew : (G.split old moved).follow p G.count st'
      = enter (promotedPhis moved G.count (G.phis old)) p (G.body p st') := by
    unfold Graph.follow
    rw [split_body_of_lt hp, split_phis_new]
  have hid : ∀ st : State X V M, (G.split old moved).body G.count st = st := by
    intro st
    show (if G.count = G.count then id else G.body _) st = st
    rw [if_pos rfl, id]
  rw [hnew]
  unfold Graph.follow
  rw [hid, split_phis_old hlt]
  -- the promoted phis are new names
  have hkeep : Agrees G.count (G.body p st')
      (enter (promotedPhis moved G.count (G.phis old)) p (G.body p st')) := by
    refine enter_agrees_self fun phi hphi hin => ?_
    obtain ⟨phi', -, rfl⟩ := List.mem_map.mp hphi
    exact Nat.lt_irrefl _ hin.1
  refine enter_agrees (fun _ => rfl) (fun phi hphi => ?_) (hbody.trans hkeep)
  obtain ⟨e, he, hentry⟩ := h.exists_entry hp hold hphi
  have hwithin := (h.within old hlt phi hphi).2 e he
  -- the old phi now reads the entry for the new block
  have hpiped : (phi.split moved G.count).entry G.count =
      some (phi.piped moved G.count, G.count) := by
    show (phi.keptEntries moved ++ [(phi.piped moved G.count, G.count)]).find? _ = _
    have hnone : (phi.keptEntries moved).find? (fun e => decide (e.2 = G.count)) = none := by
      rw [List.find?_eq_none]
      intro e he heq
      have hlt' := h.entry_lt hlt hphi (List.mem_filter.mp he).1
      exact Nat.ne_of_lt hlt' (of_decide_eq_true heq)
    rw [List.find?_append, hnone, Option.none_or]
    exact List.find?_cons_of_pos (decide_eq_true rfl)
  have hvalue : phi.value p (G.body p st) = e.1.eval (G.body p st) := by
    unfold Phi.value
    rw [hentry]
  have hvalue' : ∀ st : State X V M, (phi.split moved G.count).value G.count st
      = (phi.piped moved G.count).eval st := by
    intro st
    unfold Phi.value
    rw [hpiped]
  rw [hvalue, hvalue', piped_eval hphi (h.nodup old hlt) hm hentry hwithin (Nat.le_refl _)]
  exact hbody.eval hwithin

/-- Every walk that ends in an old block is one of the old graph, with the same
values. -/
theorem split_keeps (h : G.WellFormed) (hold : old < G.count) : ∀ (p : ℕ) (walk' : List ℕ),
    p < G.count → (G.split old moved).IsWalk p walk' → Ends G.count p walk' →
      G.IsWalk p (below G.count walk') ∧ ∀ st st', Agrees G.count st st' →
        Agrees G.count (G.run p (below G.count walk') st) ((G.split old moved).run p walk' st')
  | _, [], _, _, _ => ⟨trivial, fun _ _ hst => hst⟩
  | p, [c], hp, hwalk, hends => by
      have hc : c < G.count := hends
      rcases (h.mem_split_succ hp).mp hwalk.1 with ⟨rfl, -⟩ | ⟨hin, hstay⟩
      · exact absurd hc (Nat.lt_irrefl _)
      · rw [below_cons_of_lt hc]
        exact ⟨⟨hin, trivial⟩, fun st st' hst => h.follow_kept hold hp hin hstay hst⟩
  | p, c :: d :: walk', hp, hwalk, hends => by
      obtain ⟨hc, hd, hrest⟩ := hwalk
      rcases (h.mem_split_succ hp).mp hc with ⟨rfl, hm, hin⟩ | ⟨hin, hstay⟩
      · rw [split_succ_new, List.mem_singleton] at hd
        have hends' : Ends G.count d walk' := hends
        rw [hd] at hrest hends' ⊢
        obtain ⟨hwalk, hsame⟩ := split_keeps h hold old walk' hold hrest hends'
        rw [below_cons_of_le (Nat.le_refl _), below_cons_of_lt hold]
        exact ⟨⟨hin, hwalk⟩, fun st st' hst => hsame _ _ (h.follow_moved hp hin hm hst)⟩
      · have hlt := h.succ_lt p hp c hin
        obtain ⟨hwalk, hsame⟩ := split_keeps h hold c (d :: walk') hlt ⟨hd, hrest⟩ hends
        rw [below_cons_of_lt hlt]
        exact ⟨⟨hin, hwalk⟩, fun st st' hst => hsame _ _ (h.follow_kept hold hp hin hstay hst)⟩

/-- A graph that is left alone. -/
theorem preserves_self (h : G.WellFormed) : Preserves G G where
  count_le := Nat.le_refl _
  lifts _ hp walk hwalk := ⟨walk, hwalk, h.walk_below hp hwalk⟩
  keeps _ hp walk hwalk _ := by
    rw [(h.walk_below hp hwalk).1]
    exact ⟨hwalk, fun _ _ hst => h.run_agrees hp hwalk hst⟩

/-- **Splitting edges preserves the values on every walk.** -/
theorem split_preserves (h : G.WellFormed) (hold : old < G.count) :
    Preserves G (G.split old moved) where
  count_le := Nat.le_succ _
  lifts _ hp _ hwalk := h.split_lifts hp hwalk
  keeps _ hp _ hwalk' hends := h.split_keeps hold _ _ hp hwalk' hends

end Graph.WellFormed

end Split

end Kremlin.Library.Ssa
