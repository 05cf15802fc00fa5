/-
  Kremlin.Library.JumpStack — activation stacks over a forest, with jumps up.

  A forest is given by parent pointers.  A position in it moves by descending
  to a child of the current node and, on some children, by jumping from there
  to an ancestor of the child (`land`).  The stack of children descended to is
  an activation record of the walk; it determines the position (`pos`).

  The counting rules say how often a node is on such a stack:

    * `mem_of_anc_pos` — to be below a node, the walk has entered it;
    * `count_le_of_jump` — between two entries of a jumping child `s`, every
      node strictly between `land s` and `s` is entered again;
    * `activations_le_one` — a node no jump leaves the subtree of is entered at
      most once.
-/
import Mathlib.Data.List.Count
import Mathlib.Logic.Relation
import Mathlib.Tactic.Common

namespace Kremlin.Library

open Relation

variable {α : Type}

/-! ## §1. Forests of parent pointers. -/

/-- Parent pointers whose chains end: `rank` falls along them. -/
structure Forest (α : Type) where
  parent : α → Option α
  rank : α → ℕ
  rank_lt : ∀ {p c : α}, parent c = some p → rank p < rank c

namespace Forest

variable (F : Forest α)

/-- `a` is `n` or an ancestor of `n`. -/
def Anc (a n : α) : Prop := ReflTransGen (fun p c => F.parent c = some p) a n

variable {F} {a b c e p y : α}

/-- A node is its own ancestor. -/
theorem Anc.refl (a : α) : F.Anc a a := ReflTransGen.refl

/-- Ancestors of ancestors. -/
theorem Anc.trans (h : F.Anc a b) (h' : F.Anc b c) : F.Anc a c := ReflTransGen.trans h h'

/-- A parent is an ancestor. -/
theorem Anc.of_parent (h : F.parent c = some p) : F.Anc p c := ReflTransGen.single h

/-- An ancestor of `e` is `e` itself or an ancestor of its parent. -/
theorem Anc.cases_parent (h : F.Anc y e) (hp : F.parent e = some p) : y = e ∨ F.Anc y p := by
  rcases ReflTransGen.cases_tail h with heq | ⟨q, hyq, hqe⟩
  · exact Or.inl heq.symm
  · rw [hp, Option.some.injEq] at hqe
    exact Or.inr (hqe ▸ hyq)

/-- A node without a parent has no ancestor but itself. -/
theorem Anc.eq_of_root (h : F.Anc y e) (hp : F.parent e = none) : y = e := by
  rcases ReflTransGen.cases_tail h with heq | ⟨q, _, hqe⟩
  · exact heq.symm
  · rw [hp] at hqe
    exact absurd hqe (by simp)

/-- The rank grows downwards. -/
theorem Anc.rank_le (h : F.Anc a b) : F.rank a ≤ F.rank b := by
  induction h with
  | refl => exact Nat.le_refl _
  | tail _ hbc ih => exact Nat.le_trans ih (Nat.le_of_lt (F.rank_lt hbc))

/-- Strictly, between different nodes. -/
theorem Anc.rank_lt_of_ne (h : F.Anc a b) (hne : a ≠ b) : F.rank a < F.rank b := by
  rcases ReflTransGen.cases_tail h with heq | ⟨q, haq, hqb⟩
  · exact absurd heq.symm hne
  · exact Nat.lt_of_le_of_lt (rank_le haq) (F.rank_lt hqb)

/-- Two nodes are not above each other. -/
theorem Anc.antisymm (h : F.Anc a b) (h' : F.Anc b a) : a = b := by
  by_contra hne
  exact Nat.lt_irrefl _ (Nat.lt_of_lt_of_le (h.rank_lt_of_ne hne) h'.rank_le)

/-- A node is never an ancestor of its own parent. -/
theorem not_anc_parent (hp : F.parent c = some p) : ¬ F.Anc c p := by
  intro h
  exact Nat.lt_irrefl _ (Nat.lt_of_lt_of_le (F.rank_lt hp) h.rank_le)

/-- The ancestors of a node form a chain. -/
theorem Anc.total (ha : F.Anc a c) (hb : F.Anc b c) : F.Anc a b ∨ F.Anc b a := by
  induction ha with
  | refl => exact Or.inr hb
  | tail _ hpc ih =>
      rcases hb.cases_parent hpc with rfl | hbp
      · exact Or.inl (Anc.trans (by assumption) (Anc.of_parent hpc))
      · exact ih hbp

end Forest

/-! ## §2. Activation stacks. -/

section JumpStack

variable (F : Forest α) (root : α) (land : α → α)

/-- Where the walk stands: at the landing of the last child descended to. -/
def pos : List α → α
  | [] => root
  | e :: _ => land e

/-- Every entry is a child of the position below it. -/
def Chain : List α → Prop
  | [] => True
  | e :: rest => F.parent e = some (pos root land rest) ∧ Chain rest

variable {F root land}

/-- Every entry of a stack has a parent. -/
theorem Chain.exists_parent :
    ∀ {stack : List α}, Chain F root land stack → ∀ e ∈ stack, ∃ p, F.parent e = some p
  | [], _, _, he => absurd he List.not_mem_nil
  | d :: rest, hc, e, he => by
      rcases List.mem_cons.mp he with rfl | he
      · exact ⟨_, hc.1⟩
      · exact Chain.exists_parent hc.2 e he

/-- An empty stack stands at the root. -/
@[simp] theorem pos_nil : pos root land [] = root := rfl

/-- The last entry gives the position. -/
@[simp] theorem pos_cons (e : α) (rest : List α) : pos root land (e :: rest) = land e := rfl

variable [DecidableEq α]

/-- The nodes a descent to `e` activates: its landing, and `e` when it jumps. -/
def visits (land : α → α) (e : α) : List α := if land e = e then [e] else [land e, e]

/-- How many activations of `r` the stack records. -/
def activations (land : α → α) (stack : List α) (r : α) : ℕ :=
  (stack.flatMap (visits land)).count r

/-- An empty stack activates nothing. -/
@[simp] theorem activations_nil (r : α) : activations land [] r = 0 := rfl

/-- An entry activates what it visits. -/
theorem activations_cons (e : α) (rest : List α) (r : α) :
    activations land (e :: rest) r = (visits land e).count r + activations land rest r := by
  unfold activations
  rw [List.flatMap_cons, List.count_append]

/-- A jump visits the child and where it lands. -/
theorem mem_visits {e r : α} : r ∈ visits land e ↔ r = e ∨ r = land e := by
  unfold visits
  by_cases h : land e = e
  · simp [h]
  · simp [h, or_comm]

/-- Each only once. -/
theorem visits_nodup (e : α) : (visits land e).Nodup := by
  unfold visits
  by_cases h : land e = e
  · simp [h]
  · simp [h]

/-- Every entry is an activation. -/
theorem count_le_activations (stack : List α) (r : α) :
    stack.count r ≤ activations land stack r := by
  induction stack with
  | nil => simp
  | cons e rest ih =>
      rw [activations_cons, List.count_cons]
      by_cases he : e = r
      · have hmem : r ∈ visits land e := mem_visits.mpr (Or.inl he.symm)
        have := List.count_pos_iff.mpr hmem
        rw [if_pos (by simpa using he)]
        omega
      · rw [if_neg (by simpa using he)]
        omega

/-- A node that jumps, and that nothing lands on, is activated once per entry. -/
theorem activations_eq_count {r : α} (hr : ∀ e, land e ≠ r) (stack : List α) :
    activations land stack r = stack.count r := by
  induction stack with
  | nil => rfl
  | cons e rest ih =>
      have hv : (visits land e).count r = if e = r then 1 else 0 := by
        unfold visits
        have h₁ := hr e
        by_cases he : e = r
        · subst he
          simp [h₁]
        · by_cases hl : land e = e <;> simp [hl, he, h₁]
      rw [activations_cons, ih, hv, List.count_cons]
      by_cases he : e = r
      · simp [he, Nat.add_comm]
      · simp [he]

/-- A landing counts beside the entries: entries of a child that jumps to `a`
and entries of `a` are different activations of `a`. -/
theorem count_add_count_le_activations {a s : α} (hs : land s = a) (hsa : s ≠ a)
    (ha : land a = a) (stack : List α) :
    stack.count a + stack.count s ≤ activations land stack a := by
  induction stack with
  | nil => simp
  | cons e rest ih =>
      rw [activations_cons, List.count_cons, List.count_cons]
      have hmem : (e = a ∨ e = s) → 0 < (visits land e).count a := by
        rintro (rfl | rfl)
        · exact List.count_pos_iff.mpr (mem_visits.mpr (Or.inl rfl))
        · exact List.count_pos_iff.mpr (mem_visits.mpr (Or.inr hs.symm))
      by_cases he : e = a
      · have := hmem (Or.inl he)
        have hes : e ≠ s := fun h => hsa (h ▸ he)
        rw [if_pos (by simpa using he), if_neg (by simpa using hes)]
        omega
      · rw [if_neg (by simpa using he)]
        by_cases hes : e = s
        · have := hmem (Or.inr hes)
          rw [if_pos (by simpa using hes)]
          omega
        · rw [if_neg (by simpa using hes)]
          omega

/-! ## §3. Counting rules. -/

omit [DecidableEq α] in
/-- To stand below `y`, the walk has entered `y`. -/
theorem mem_of_anc_pos (hland : ∀ e, F.Anc (land e) e) {y : α} (hroot : ¬ F.Anc y root) :
    ∀ {stack : List α}, Chain F root land stack → F.Anc y (pos root land stack) → y ∈ stack
  | [], _, h => absurd h hroot
  | e :: rest, hc, h => by
      have hye : F.Anc y e := h.trans (hland e)
      rcases hye.cases_parent hc.1 with rfl | hyp
      · exact List.mem_cons_self
      · exact List.mem_cons_of_mem _ (mem_of_anc_pos hland hroot hc.2 hyp)

omit [DecidableEq α] in
/-- Every entry has its landing entered before, unless that is not below the
root's own ancestors. -/
theorem count_pos_of_jump (hland : ∀ e, F.Anc (land e) e) {a s : α} (hs : land s = a)
    (hroot : ¬ F.Anc a root) {stack : List α} (hc : Chain F root land stack)
    (hmem : s ∈ stack) : a ∈ stack := by
  induction stack with
  | nil => exact absurd hmem List.not_mem_nil
  | cons e rest ih =>
      rcases List.mem_cons.mp hmem with rfl | hrest
      · exact mem_of_anc_pos hland hroot hc (by rw [pos_cons, hs]; exact Forest.Anc.refl a)
      · exact List.mem_cons_of_mem _ (ih hc.2 hrest)

open Classical in
/-- **Between two entries of a jumping child, the path is entered again.**  For
`y` strictly between `land s` and `s`, entries of `s` (and one more while the
walk stands below `y`) are matched by entries of `y`. -/
theorem count_le_of_jump (hland : ∀ e, F.Anc (land e) e) {s y : α}
    (hys : F.Anc y s) (hne : y ≠ s) (hy : land y = y) (hout : ¬ F.Anc y (land s))
    (hroot : ¬ F.Anc y root) :
    ∀ {stack : List α}, Chain F root land stack →
      stack.count s + (if F.Anc y (pos root land stack) then 1 else 0) ≤ stack.count y
  | [], _ => by simp [hroot]
  | e :: rest, hc => by
      -- being below `y` counts as one entry that is still open
      have ih := count_le_of_jump hland hys hne hy hout hroot hc.2
      rw [pos_cons, List.count_cons, List.count_cons]
      by_cases hey : e = y
      · -- entering `y` from outside its subtree
        have hnot : ¬ F.Anc y (pos root land rest) := Forest.not_anc_parent (hey ▸ hc.1)
        have hin : F.Anc y (land e) := by rw [hey, hy]; exact Forest.Anc.refl y
        have hes : e ≠ s := fun h => hne (hey ▸ h)
        rw [if_neg hnot] at ih
        rw [if_pos hin, if_neg (by simpa using hes), if_pos (by simpa using hey)]
        omega
      · by_cases hes : e = s
        · -- entering `s` leaves the subtree of `y`
          have hin : F.Anc y (pos root land rest) := by
            rcases hys.cases_parent (hes ▸ hc.1) with h | h
            · exact absurd h hne
            · exact h
          have hnot : ¬ F.Anc y (land e) := by rw [hes]; exact hout
          rw [if_pos hin] at ih
          rw [if_neg hnot, if_pos (by simpa using hes), if_neg (by simpa using hey)]
          omega
        · -- any other entry keeps the walk out of `y`'s subtree if it was out
          have hmono : F.Anc y (land e) → F.Anc y (pos root land rest) := by
            intro h
            rcases (h.trans (hland e)).cases_parent hc.1 with h' | h'
            · exact absurd h'.symm hey
            · exact h'
          have he₁ : ¬ (e == s) = true := by simpa using hes
          have he₂ : ¬ (e == y) = true := by simpa using hey
          rw [if_neg he₁, if_neg he₂]
          by_cases hin : F.Anc y (land e)
          · rw [if_pos hin]
            rw [if_pos (hmono hin)] at ih
            omega
          · rw [if_neg hin]
            omega

/-- **A node that no jump leaves the subtree of, and that no jump lands on, is
activated at most once at a time.** -/
theorem activations_le_one (hland : ∀ e, F.Anc (land e) e) {y : α}
    (hkeep : ∀ e, F.Anc y e → F.Anc y (land e)) (hover : ∀ e, land e = y → e = y)
    (hroot : ¬ F.Anc y root) :
    ∀ {stack : List α}, Chain F root land stack →
      activations land stack y ≤ 1 ∧
        (¬ F.Anc y (pos root land stack) → activations land stack y = 0)
  | [], _ => by simp
  | e :: rest, hc => by
      obtain ⟨ih₁, ih₂⟩ := activations_le_one hland hkeep hover hroot hc.2
      rw [activations_cons, pos_cons]
      by_cases hey : e = y
      · subst hey
        have hle : land e = e := (hkeep e (Forest.Anc.refl e)).antisymm (hland e) |>.symm
        have hnot : ¬ F.Anc e (pos root land rest) := Forest.not_anc_parent hc.1
        have hv : (visits land e).count e = 1 := by
          unfold visits
          rw [if_pos hle]
          simp
        rw [hv, ih₂ hnot, hle]
        exact ⟨Nat.le_refl 1, fun h => absurd (Forest.Anc.refl e) h⟩
      · have hv : (visits land e).count y = 0 := by
          rw [List.count_eq_zero]
          intro hmem
          rcases mem_visits.mp hmem with h | h
          · exact hey h.symm
          · exact hey (hover e h.symm)
        rw [hv, Nat.zero_add]
        refine ⟨ih₁, fun hnot => ih₂ fun hin => hnot ?_⟩
        exact hkeep e (hin.trans (Forest.Anc.of_parent hc.1))

/-! ## §4. Growing the forest. -/

omit [DecidableEq α] in
/-- A position depends on the landings of the stack's entries only. -/
theorem pos_congr {land' : α → α} {stack : List α} (h : ∀ e ∈ stack, land' e = land e) :
    pos root land' stack = pos root land stack := by
  cases stack with
  | nil => rfl
  | cons e rest => exact h e List.mem_cons_self

omit [DecidableEq α] in
/-- A stack depends on the parents and jumps of its entries only. -/
theorem chain_congr {F' : Forest α} {land' : α → α} :
    ∀ {stack : List α}, (∀ e ∈ stack, land' e = land e) →
      (∀ e ∈ stack, F'.parent e = F.parent e) →
      Chain F root land stack → Chain F' root land' stack
  | [], _, _, _ => trivial
  | e :: rest, hl, hp, hc => by
      have hl' : ∀ d ∈ rest, land' d = land d := fun d hd => hl d (List.mem_cons_of_mem _ hd)
      refine ⟨?_, chain_congr hl' (fun d hd => hp d (List.mem_cons_of_mem _ hd)) hc.2⟩
      rw [hp e List.mem_cons_self, pos_congr hl']
      exact hc.1

/-- So do the activations. -/
theorem activations_congr {land' : α → α} {stack : List α} (h : ∀ e ∈ stack, land' e = land e)
    (r : α) : activations land' stack r = activations land stack r := by
  induction stack with
  | nil => rfl
  | cons e rest ih =>
      rw [activations_cons, activations_cons,
        ih fun d hd => h d (List.mem_cons_of_mem _ hd)]
      unfold visits
      rw [h e List.mem_cons_self]

end JumpStack

end Kremlin.Library
