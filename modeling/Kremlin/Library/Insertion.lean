/-
  Kremlin.Library.Insertion — insertions in front of fixed items.

  A list is edited by inserting items directly in front of items that are
  already there (`insertBefore`).  Some items are fixed and are never moved.
  What stands in front of a fixed item, back to the fixed item before it, is the
  `stretch` of that item.  Lists in which each fixed item has a known stretch
  are built by `expand`, and an insertion changes one stretch (`attach`):

    * `insertBefore_expand` — the insertion seen on the stretches;
    * `attach_chain` — items each inserted in front of the one before end up in
      reverse order;
    * `stretch_expand`, `filter_stretch` — reading a stretch back, also past
      items one does not look at.
-/
import Mathlib.Data.List.Nodup
import Mathlib.Data.List.TakeWhile
import Mathlib.Logic.Function.Basic
import Mathlib.Tactic.Common

namespace Kremlin.Library

variable {α : Type}

/-! ## §1. Lists with fixed items. -/

/-- Each fixed item behind its stretch. -/
def expand (seg : α → List α) (base : List α) : List α := base.flatMap fun o => seg o ++ [o]

/-- Stretches of two parts. -/
theorem expand_append (seg : α → List α) (b₁ b₂ : List α) :
    expand seg (b₁ ++ b₂) = expand seg b₁ ++ expand seg b₂ := List.flatMap_append

/-- The stretch of an item stands in front of it. -/
theorem expand_cons (seg : α → List α) (o : α) (b : List α) :
    expand seg (o :: b) = seg o ++ o :: expand seg b := by
  show (seg o ++ [o]) ++ expand seg b = _
  rw [List.append_assoc, List.singleton_append]

/-- An item stands in a stretch or owns one. -/
theorem mem_expand {seg : α → List α} {base : List α} {x : α} :
    x ∈ expand seg base ↔ ∃ o ∈ base, x ∈ seg o ∨ x = o := by
  simp [expand]

/-- Only the stretches of the items matter. -/
theorem expand_congr {seg seg' : α → List α} {base : List α}
    (h : ∀ o ∈ base, seg' o = seg o) : expand seg' base = expand seg base :=
  List.flatMap_congr fun o ho => by rw [h o ho]

/-- Filtering first, when the prefix ends at an item that stays. -/
theorem filter_takeWhile {p q : α → Bool} (h : ∀ a, p a = false → q a = true) (l : List α) :
    (l.takeWhile q).filter p = (l.filter p).takeWhile q := by
  induction l with
  | nil => rfl
  | cons a l ih =>
      cases hp : p a with
      | true =>
          rw [List.filter_cons_of_pos hp, List.takeWhile_cons, List.takeWhile_cons]
          split
          · rw [List.filter_cons_of_pos hp, ih]
          · rfl
      | false =>
          rw [List.takeWhile_cons, if_pos (h a hp),
            List.filter_cons_of_neg (by rw [hp]; exact Bool.false_ne_true),
            List.filter_cons_of_neg (by rw [hp]; exact Bool.false_ne_true), ih]

variable [DecidableEq α]

/-! ## §2. One insertion. -/

/-- Insert `x` directly in front of the first `u`. -/
def insertBefore (x u : α) : List α → List α
  | [] => []
  | a :: l => if a = u then x :: a :: l else a :: insertBefore x u l

/-- In front of the first item. -/
theorem insertBefore_cons_self (x u : α) (l : List α) :
    insertBefore x u (u :: l) = x :: u :: l := if_pos rfl

/-- Behind items that are not the one looked for. -/
theorem insertBefore_append {x u : α} {l₁ : List α} (h : u ∉ l₁) (l₂ : List α) :
    insertBefore x u (l₁ ++ l₂) = l₁ ++ insertBefore x u l₂ := by
  induction l₁ with
  | nil => rfl
  | cons a l₁ ih =>
      rw [List.mem_cons, not_or] at h
      rw [List.cons_append, insertBefore, if_neg (Ne.symm h.1), ih h.2, List.cons_append]

/-- In the first of two parts. -/
theorem insertBefore_append_of_mem {x u : α} {l₁ : List α} (h : u ∈ l₁) (l₂ : List α) :
    insertBefore x u (l₁ ++ l₂) = insertBefore x u l₁ ++ l₂ := by
  induction l₁ with
  | nil => cases h
  | cons a l₁ ih =>
      rw [List.cons_append, insertBefore, insertBefore]
      by_cases hau : a = u
      · rw [if_pos hau, if_pos hau, List.cons_append, List.cons_append]
      · have hmem : u ∈ l₁ := (List.mem_cons.mp h).resolve_left (Ne.symm hau)
        rw [if_neg hau, if_neg hau, ih hmem, List.cons_append]

/-- The new item and the old ones. -/
theorem mem_insertBefore {x u y : α} {l : List α} (hu : u ∈ l) :
    y ∈ insertBefore x u l ↔ y = x ∨ y ∈ l := by
  induction l with
  | nil => cases hu
  | cons a l ih =>
      rw [insertBefore]
      split
      · rw [List.mem_cons]
      · next hau =>
          have hmem : u ∈ l := (List.mem_cons.mp hu).resolve_left (Ne.symm hau)
          rw [List.mem_cons, ih hmem, List.mem_cons]
          tauto

/-- Insertions keep what there is in its order. -/
theorem sublist_insertBefore (x u : α) (l : List α) : l.Sublist (insertBefore x u l) := by
  induction l with
  | nil => exact List.Sublist.refl []
  | cons a l ih =>
      rw [insertBefore]
      split
      · exact List.sublist_cons_self x (a :: l)
      · exact ih.cons_cons a

/-- One item more. -/
theorem perm_insertBefore {x u : α} {l : List α} (hu : u ∈ l) :
    (insertBefore x u l).Perm (x :: l) := by
  obtain ⟨l₁, l₂, rfl⟩ := List.append_of_mem hu
  induction l₁ with
  | nil => rw [List.nil_append, insertBefore_cons_self]
  | cons a l₁ ih =>
      rw [List.cons_append, insertBefore]
      split
      · exact List.Perm.refl _
      · exact ((ih (by simp)).cons a).trans (List.Perm.swap x a _)

/-- Inserted in front of the first item of a kind, `x` stands before all of
them. -/
theorem sublist_insertBefore_find {p : α → Bool} {x e u : α} {l : List α}
    (he : l.find? p = some e) (hu : u ∈ l) (hpu : p u = true) :
    [x, u].Sublist (insertBefore x e l) := by
  induction l with
  | nil => cases hu
  | cons a l ih =>
      rw [insertBefore]
      by_cases hpa : p a = true
      · rw [List.find?_cons_of_pos hpa] at he
        rw [if_pos (Option.some.inj he)]
        exact (List.singleton_sublist.mpr hu).cons_cons x
      · rw [List.find?_cons_of_neg hpa] at he
        have hae : a ≠ e := by
          rintro rfl
          exact hpa (List.find?_some he)
        have hua : u ∈ l := by
          refine (List.mem_cons.mp hu).resolve_left ?_
          rintro rfl
          exact hpa hpu
        rw [if_neg hae]
        exact (ih he hua).cons a

/-- An item one does not look at is not seen. -/
theorem filter_insertBefore_of_neg {p : α → Bool} {x u : α} (hx : p x = false) (l : List α) :
    (insertBefore x u l).filter p = l.filter p := by
  induction l with
  | nil => rfl
  | cons a l ih =>
      rw [insertBefore]
      split
      · rw [List.filter_cons, hx, if_neg Bool.false_ne_true]
      · rw [List.filter_cons, List.filter_cons, ih]

/-- An item one looks at is inserted in front of one that one looks at. -/
theorem filter_insertBefore {p : α → Bool} {x u : α} (hx : p x = true) (hu : p u = true)
    (l : List α) : (insertBefore x u l).filter p = insertBefore x u (l.filter p) := by
  induction l with
  | nil => rfl
  | cons a l ih =>
      rw [insertBefore]
      by_cases hau : a = u
      · subst hau
        rw [if_pos rfl, List.filter_cons, if_pos hx, List.filter_cons, if_pos hu,
          insertBefore_cons_self]
      · rw [if_neg hau, List.filter_cons, List.filter_cons, ih]
        split
        · rw [insertBefore, if_neg hau]
        · rfl

/-! ## §3. Insertions and stretches. -/

/-- `x` joins a stretch: in front of `u`, or last when `u` is the fixed item the
stretch belongs to. -/
def attach (x u : α) (seg : List α) : List α :=
  if u ∈ seg then insertBefore x u seg else seg ++ [x]

/-- **An insertion changes the stretch of one fixed item.**  `owner` tells the
stretches apart. -/
theorem insertBefore_expand {seg : α → List α} {owner : α → α} {base : List α} {x u o : α}
    (hseg : ∀ o y, y ∈ seg o → owner y = o) (hbase : ∀ o ∈ base, owner o = o)
    (hnd : base.Nodup) (ho : o ∈ base) (hu : u ∈ seg o ∨ u = o ∧ o ∉ seg o) :
    insertBefore x u (expand seg base)
      = expand (Function.update seg o (attach x u (seg o))) base := by
  obtain ⟨b₁, b₂, rfl⟩ := List.append_of_mem ho
  have howner : owner u = o := by
    rcases hu with hu | ⟨rfl, -⟩
    · exact hseg o u hu
    · exact hbase u ho
  have ho₁ : o ∉ b₁ := fun h =>
    (List.disjoint_of_nodup_append hnd) h (List.mem_cons_self ..)
  have ho₂ : o ∉ b₂ := by
    have h := List.Nodup.of_append_right hnd
    exact (List.nodup_cons.mp h).1
  -- the item looked for is in no stretch before that of its owner
  have hu₁ : u ∉ expand seg b₁ := by
    intro hmem
    obtain ⟨o', ho', h⟩ := mem_expand.mp hmem
    have heq : o' = o := by
      rcases h with h | rfl
      · exact (hseg o' u h).symm.trans howner
      · exact (hbase u (List.mem_append_left _ ho')).symm.trans howner
    exact ho₁ (heq ▸ ho')
  -- the other stretches stay
  have hrest : ∀ b : List α, o ∉ b →
      expand (Function.update seg o (attach x u (seg o))) b = expand seg b := by
    intro b hb
    apply expand_congr
    intro o' ho'
    rw [Function.update_of_ne (fun (h : o' = o) => hb (h ▸ ho'))]
  rw [expand_append, expand_append, expand_cons, expand_cons, insertBefore_append hu₁,
    hrest b₁ ho₁, hrest b₂ ho₂, Function.update_self, attach]
  congr 1
  by_cases hmem : u ∈ seg o
  · rw [if_pos hmem, insertBefore_append_of_mem hmem]
  · obtain ⟨rfl, hfree⟩ := hu.resolve_left hmem
    rw [if_neg hmem, insertBefore_append hfree, insertBefore_cons_self, List.append_assoc,
      List.singleton_append]

/-- The user of the `k`-th link of a chain: the link before it, or the anchor. -/
def chainUser (o : α) (chain : List α) : ℕ → α
  | 0 => o
  | k + 1 => chain[k]?.getD o

/-- **A chain ends up in reverse order**: one more link in front of the last. -/
theorem attach_chain {o : α} {chain : List α} {k : ℕ} (hk : k < chain.length) :
    attach chain[k] (chainUser o chain k) (chain.take k).reverse
      = (chain.take (k + 1)).reverse := by
  rw [List.take_succ_eq_append_getElem hk, List.reverse_append, List.reverse_singleton,
    List.singleton_append]
  cases k with
  | zero => rfl
  | succ j =>
      have hj : j < chain.length := by omega
      have huser : chainUser o chain (j + 1) = chain[j] := by
        show chain[j]?.getD o = _
        rw [List.getElem?_eq_getElem hj, Option.getD_some]
      rw [huser, List.take_succ_eq_append_getElem hj, List.reverse_append,
        List.reverse_singleton, List.singleton_append, attach,
        if_pos (List.mem_cons_self ..), insertBefore_cons_self]

/-! ## §4. Reading a stretch. -/

/-- What stands in front of `o`, back to the fixed item before it. -/
def stretch (fixed : α → Bool) (o : α) (l : List α) : List α :=
  ((l.takeWhile (· ≠ o)).reverse.takeWhile (!fixed ·)).reverse

/-- A stretch is found without the items one does not look at. -/
theorem filter_stretch {fixed p : α → Bool} (hp : ∀ a, fixed a = true → p a = true) {o : α}
    (ho : p o = true) (l : List α) :
    (stretch fixed o l).filter p = stretch fixed o (l.filter p) := by
  have hfixed : ∀ a, p a = false → (!fixed a) = true := by
    intro a ha
    cases hf : fixed a with
    | false => rfl
    | true => rw [hp a hf] at ha; cases ha
  have hne : ∀ a, p a = false → decide (a ≠ o) = true := by
    intro a ha
    apply decide_eq_true
    rintro rfl
    rw [ho] at ha
    cases ha
  unfold stretch
  rw [List.filter_reverse, filter_takeWhile hfixed, List.filter_reverse, filter_takeWhile hne]

/-- A fixed item in front of the list ends no stretch but those that reach it. -/
theorem stretch_cons_fixed {fixed : α → Bool} {a o : α} (ha : fixed a = true) (hne : a ≠ o)
    (l : List α) : stretch fixed o (a :: l) = stretch fixed o l := by
  unfold stretch
  rw [List.takeWhile_cons, if_pos (decide_eq_true hne), List.reverse_cons,
    List.takeWhile_append, List.takeWhile_cons, ha]
  split
  · next h =>
      have hall := (List.takeWhile_prefix (!fixed ·)).eq_of_length h
      rw [hall, if_neg (by simp), List.append_nil]
  · rfl

/-- The stretch of a fixed item in a list built by `expand`. -/
theorem stretch_expand {fixed : α → Bool} {seg : α → List α} {base : List α} {o : α}
    (hbase : ∀ o ∈ base, fixed o = true) (hseg : ∀ o, ∀ y ∈ seg o, fixed y = false)
    (hnd : base.Nodup) (ho : o ∈ base) : stretch fixed o (expand seg base) = seg o := by
  obtain ⟨b₁, b₂, rfl⟩ := List.append_of_mem ho
  have hfixed : fixed o = true := hbase o ho
  have ho₁ : o ∉ b₁ := fun h =>
    (List.disjoint_of_nodup_append hnd) h (List.mem_cons_self ..)
  have hfree : ∀ o', o ∉ seg o' := by
    intro o' hmem
    rw [hseg o' o hmem] at hfixed
    cases hfixed
  have hfront : ∀ y ∈ expand seg b₁ ++ seg o, decide (y ≠ o) = true := by
    intro y hy
    apply decide_eq_true
    rintro rfl
    rcases List.mem_append.mp hy with hy | hy
    · obtain ⟨o', ho', h⟩ := mem_expand.mp hy
      rcases h with h | rfl
      · exact hfree o' h
      · exact ho₁ ho'
    · exact hfree _ hy
  have htake : (expand seg (b₁ ++ o :: b₂)).takeWhile (· ≠ o) = expand seg b₁ ++ seg o := by
    rw [expand_append, expand_cons, ← List.append_assoc, List.takeWhile_append_of_pos hfront,
      List.takeWhile_cons, if_neg (by simp), List.append_nil]
  have hback : ∀ y ∈ (seg o).reverse, (!fixed y) = true := by
    intro y hy
    rw [hseg o y (List.mem_reverse.mp hy)]
    rfl
  -- the fixed item before `o`, if any, ends the stretch
  have hend : (expand seg b₁).reverse.takeWhile (!fixed ·) = [] := by
    rcases List.eq_nil_or_concat' b₁ with rfl | ⟨b, o', rfl⟩
    · rfl
    · have ho' : fixed o' = true := hbase o' (by simp)
      rw [expand_append, expand_cons, List.reverse_append, List.reverse_append]
      show List.takeWhile _ (([] ++ [o'] ++ _) ++ _) = _
      rw [List.nil_append, List.append_assoc, List.singleton_append, List.takeWhile_cons, ho']
      rfl
  unfold stretch
  rw [htake, List.reverse_append, List.takeWhile_append_of_pos hback, hend, List.append_nil,
    List.reverse_reverse]

end Kremlin.Library
