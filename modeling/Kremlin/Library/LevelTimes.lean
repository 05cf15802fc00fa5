/-
  Kremlin.Library.LevelTimes — one time for each level of a nesting.

  A measurement taken inside nested regions has one component per open region,
  the outermost first; beyond the innermost region it is 0 (`Supported`).
  Seen from an outer region at least as much has happened as from an inner one,
  so the components do not increase (`Antitone`).  Leaving a region cuts its
  component off (`cut`).
-/
import Mathlib.Order.Monotone.Basic
import Mathlib.Data.Nat.Notation
import Mathlib.Data.List.Basic
import Mathlib.Tactic.Common

namespace Kremlin.Library

/-! ## §1. Cutting components off. -/

/-- No component at level `n` or deeper. -/
def Supported (n : ℕ) (v : ℕ → ℕ) : Prop := ∀ l, n ≤ l → v l = 0

/-- Keep the components above level `n`. -/
def cut (n : ℕ) (v : ℕ → ℕ) : ℕ → ℕ := fun l => if l < n then v l else 0

/-- Below the cut nothing changes. -/
theorem cut_of_lt {n l : ℕ} (v : ℕ → ℕ) (h : l < n) : cut n v l = v l := if_pos h

/-- From the cut on there is nothing. -/
theorem cut_of_le {n l : ℕ} (v : ℕ → ℕ) (h : n ≤ l) : cut n v l = 0 := if_neg (by omega)

/-- A cut leaves as many levels. -/
theorem supported_cut (n : ℕ) (v : ℕ → ℕ) : Supported n (cut n v) :=
  fun _ hl => cut_of_le v hl

/-- No time at any level. -/
theorem supported_zero (n : ℕ) : Supported n fun _ => 0 := fun _ _ => rfl

/-- More levels may be open. -/
theorem Supported.mono {n n' : ℕ} {v : ℕ → ℕ} (h : Supported n v) (hn : n ≤ n') :
    Supported n' v := fun l hl => h l (by omega)

/-- Cutting components off keeps the order. -/
theorem antitone_cut {n : ℕ} {v : ℕ → ℕ} (h : ∀ l, l + 1 < n → v (l + 1) ≤ v l) :
    Antitone (cut n v) := by
  refine antitone_nat_of_succ_le fun l => ?_
  by_cases hl : l + 1 < n
  · rw [cut_of_lt v hl, cut_of_lt v (by omega)]
    exact h l hl
  · rw [cut_of_le v (by omega)]
    exact Nat.zero_le _

/-- No time does not increase. -/
theorem antitone_zero : Antitone fun _ : ℕ => 0 := fun _ _ _ => le_rfl

/-! ## §2. The largest of several times. -/

variable {α : Type}

/-- The largest of `t` and the `f x`. -/
def maxOver (f : α → ℕ) (t : ℕ) (xs : List α) : ℕ := xs.foldl (fun t x => max t (f x)) t

/-- The maximum is below what everything is below. -/
theorem maxOver_le_iff {f : α → ℕ} {t b : ℕ} {xs : List α} :
    maxOver f t xs ≤ b ↔ t ≤ b ∧ ∀ x ∈ xs, f x ≤ b := by
  induction xs generalizing t with
  | nil => simp [maxOver]
  | cons x xs ih =>
      show maxOver f (max t (f x)) xs ≤ b ↔ _
      rw [ih]
      simp only [List.mem_cons, forall_eq_or_imp, Nat.max_le]
      tauto

/-- It is at least the start, -/
theorem le_maxOver (f : α → ℕ) (t : ℕ) (xs : List α) : t ≤ maxOver f t xs :=
  (maxOver_le_iff.mp le_rfl).1

/-- and at least every value. -/
theorem le_maxOver_of_mem {f : α → ℕ} {t : ℕ} {xs : List α} {x : α} (hx : x ∈ xs) :
    f x ≤ maxOver f t xs :=
  (maxOver_le_iff.mp le_rfl).2 x hx

/-- Larger values have a larger maximum. -/
theorem maxOver_mono {f g : α → ℕ} {t t' : ℕ} {xs : List α} (ht : t ≤ t')
    (h : ∀ x ∈ xs, f x ≤ g x) : maxOver f t xs ≤ maxOver g t' xs :=
  maxOver_le_iff.mpr
    ⟨ht.trans (le_maxOver g t' xs), fun x hx => (h x hx).trans (le_maxOver_of_mem hx)⟩

/-- A loop that takes maxima of values read successfully. -/
theorem foldlM_max_eq {read : α → Option ℕ} {f : α → ℕ} {t : ℕ} {xs : List α}
    (h : ∀ x ∈ xs, read x = some (f x)) :
    xs.foldlM (fun t x => (read x).bind fun y => some (max t y)) t = some (maxOver f t xs) := by
  induction xs generalizing t with
  | nil => rfl
  | cons x xs ih =>
      rw [List.foldlM_cons, h x List.mem_cons_self]
      exact ih fun y hy => h y (List.mem_cons_of_mem x hy)

/-! ## §3. LevelFrames on a stack of levels. -/

variable {A B : Type}

/-- Two stacks in step, the top first.  A frame `a` starts at `level a` and its
levels end where the frame above starts, `top` for the topmost; `P` relates a
frame, where it ends, and its companion. -/
def LevelFrames (level : A → ℕ) (P : ℕ → A → B → Prop) : ℕ → List A → List B → Prop
  | _, [], [] => True
  | top, a :: as, b :: bs => P top a b ∧ LevelFrames level P (level a) as bs
  | _, _, _ => False

/-- No levels, no frames. -/
theorem frames_nil {level : A → ℕ} {P : ℕ → A → B → Prop} {top : ℕ} {bs : List B} :
    LevelFrames level P top [] bs ↔ bs = [] := by
  cases bs with
  | nil => exact ⟨fun _ => rfl, fun _ => trivial⟩
  | cons b bs => exact ⟨fun h => h.elim, fun h => by cases h⟩

/-- One frame for each level. -/
theorem frames_cons {level : A → ℕ} {P : ℕ → A → B → Prop} {top : ℕ} {a : A} {as : List A}
    {bs : List B} :
    LevelFrames level P top (a :: as) bs ↔
      ∃ b bs', bs = b :: bs' ∧ P top a b ∧ LevelFrames level P (level a) as bs' := by
  cases bs with
  | nil => exact ⟨fun h => h.elim, fun ⟨_, _, h, _⟩ => by cases h⟩
  | cons b bs =>
      exact ⟨fun h => ⟨b, bs, rfl, h⟩, fun ⟨_, _, h, h'⟩ => by cases h; exact h'⟩

/-- Frames that end at level `n` or above it keep what each of them keeps. -/
theorem LevelFrames.imp {level : A → ℕ} {P Q : ℕ → A → B → Prop} {n top : ℕ} {as : List A}
    {bs : List B} (hlevel : ∀ top a b, P top a b → level a ≤ top)
    (hPQ : ∀ top a b, top ≤ n → P top a b → Q top a b) (htop : top ≤ n)
    (h : LevelFrames level P top as bs) : LevelFrames level Q top as bs := by
  induction as generalizing top bs with
  | nil =>
      rw [frames_nil] at h ⊢
      exact h
  | cons a as ih =>
      obtain ⟨b, bs', rfl, hP, hrest⟩ := frames_cons.mp h
      exact ⟨hPQ top a b htop hP, ih ((hlevel top a b hP).trans htop) hrest⟩

end Kremlin.Library
