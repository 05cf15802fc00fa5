/-
  Kremlin.Library.ExactDouble — floating-point arithmetic without rounding.

  A number is a rational, an infinity or not a number.  The operations follow
  the rules of IEEE 754 for those, except that they do not round and that a
  zero has no sign.
-/
import Mathlib.Algebra.Order.Ring.Rat
import Mathlib.Data.Rat.Floor
import Mathlib.Tactic.Common

namespace Kremlin.Library

/-- A floating-point number of unbounded precision. -/
inductive Double where
  | fin (q : ℚ)
  | posInf
  | negInf
  | nan
  deriving DecidableEq

namespace Double

/-- The infinity of a sign. -/
def infinity (positive : Bool) : Double := if positive then .posInf else .negInf

/-- The sign of a number that is not zero. -/
def positive : Double → Bool
  | .fin q => 0 < q
  | .posInf => true
  | _ => false

/-- The sign changes. -/
def neg : Double → Double
  | .fin q => .fin (-q)
  | .posInf => .negInf
  | .negInf => .posInf
  | .nan => .nan

/-- Infinities of different signs have no sum. -/
def add : Double → Double → Double
  | .nan, _ | _, .nan => .nan
  | .fin a, .fin b => .fin (a + b)
  | .posInf, .negInf | .negInf, .posInf => .nan
  | .posInf, _ | _, .posInf => .posInf
  | .negInf, _ | _, .negInf => .negInf

/-- Subtraction adds the negative. -/
def sub (x y : Double) : Double := x.add y.neg

/-- Zero times an infinity is not a number. -/
def mul : Double → Double → Double
  | .nan, _ | _, .nan => .nan
  | .fin a, .fin b => .fin (a * b)
  | x, y => if x = .fin 0 ∨ y = .fin 0 then .nan else infinity (x.positive == y.positive)

/-- Dividing by zero gives an infinity, but zero by zero is not a number. -/
def div : Double → Double → Double
  | .nan, _ | _, .nan => .nan
  | .fin a, .fin b =>
      if b ≠ 0 then .fin (a / b) else if a = 0 then .nan else infinity (decide (0 < a))
  | .fin _, _ => .fin 0
  | x, .fin b => infinity (x.positive == decide (0 ≤ b))
  | _, _ => .nan

/-- `<`, which is false of anything that is not a number. -/
def lt : Double → Double → Bool
  | .fin a, .fin b => a < b
  | .fin _, .posInf | .negInf, .fin _ | .negInf, .posInf => true
  | _, _ => false

/-- `<=` -/
def le : Double → Double → Bool
  | .fin a, .fin b => a ≤ b
  | .posInf, .posInf | .negInf, .negInf => true
  | x, y => x.lt y

/-- `ceil` -/
def ceil : Double → Double
  | .fin q => .fin ⌈q⌉
  | x => x

/-- The cast to a 64-bit integer, for numbers in its range: it cuts off what is
behind the point, and infinities become the bounds of the range. -/
def toLong : Double → ℤ
  | .fin q => q.num.tdiv q.den
  | .posInf => 2 ^ 63 - 1
  | .negInf => -2 ^ 63
  | .nan => 0

/-- Sums of numbers are those of rationals. -/
@[simp] theorem fin_add (a b : ℚ) : (fin a).add (fin b) = fin (a + b) := rfl

/-- So is their order, -/
@[simp] theorem fin_lt (a b : ℚ) : (fin a).lt (fin b) = true ↔ a < b := by
  show decide (a < b) = true ↔ a < b
  rw [decide_eq_true_eq]

/-- with equality as well. -/
@[simp] theorem fin_le (a b : ℚ) : (fin a).le (fin b) = true ↔ a ≤ b := by
  show decide (a ≤ b) = true ↔ a ≤ b
  rw [decide_eq_true_eq]

/-- Division by anything but zero. -/
theorem fin_div {a b : ℚ} (hb : b ≠ 0) : (fin a).div (fin b) = fin (a / b) := if_pos hb

/-- What is not a number stays so when divided, -/
@[simp] theorem nan_div (x : Double) : nan.div x = nan := by cases x <;> rfl

/-- as a divisor, -/
@[simp] theorem div_nan (x : Double) : x.div nan = nan := by cases x <;> rfl

/-- in a sum, -/
@[simp] theorem nan_add (x : Double) : nan.add x = nan := by cases x <;> rfl

/-- and when it is subtracted. -/
@[simp] theorem sub_nan (x : Double) : x.sub nan = nan := by cases x <;> rfl

/-- Of two numbers, one is at most the other. -/
theorem lt_eq_not_le {x y : Double} (hx : x ≠ nan) (hy : y ≠ nan) : x.lt y = !y.le x := by
  cases x <;> cases y <;> first | exact absurd rfl hx | exact absurd rfl hy | skip
  case fin.fin a b =>
    show decide (a < b) = !decide (b ≤ a)
    rw [← decide_not]
    exact decide_eq_decide.mpr not_le.symm
  all_goals rfl

/-- A difference is positive when the numbers are in order. -/
theorem zero_lt_sub (x y : Double) : (fin 0).lt (y.sub x) = x.lt y := by
  cases x with
  | fin a =>
      cases y with
      | fin b =>
          show decide (0 < b + -a) = decide (a < b)
          exact decide_eq_decide.mpr (by rw [← sub_eq_add_neg, sub_pos])
      | posInf => rfl
      | negInf => rfl
      | nan => rfl
  | posInf => cases y <;> rfl
  | negInf => cases y <;> rfl
  | nan => cases y <;> rfl

/-- The order is transitive. -/
theorem lt_chain {x y z : Double} (hxy : x.lt y = true) (hyz : y.lt z = true) :
    x.lt z = true := by
  cases x with
  | fin a =>
      cases y with
      | fin b =>
          cases z with
          | fin c =>
              rw [fin_lt] at hxy hyz ⊢
              exact lt_trans hxy hyz
          | posInf => rfl
          | negInf => cases hyz
          | nan => cases hyz
      | posInf => cases z <;> cases hyz
      | negInf => cases hxy
      | nan => cases hxy
  | posInf => cases y <;> cases hxy
  | negInf =>
      cases z with
      | fin c => rfl
      | posInf => rfl
      | negInf => cases y <;> cases hyz
      | nan => cases y <;> cases hyz
  | nan => cases y <;> cases hxy

/-- Nothing is below itself. -/
theorem lt_irrefl (x : Double) : ¬x.lt x = true := by
  cases x with
  | fin a => exact fun h => absurd ((fin_lt a a).mp h) (not_lt_of_ge le_rfl)
  | posInf => exact Bool.false_ne_true
  | negInf => exact Bool.false_ne_true
  | nan => exact Bool.false_ne_true

/-- Nothing is below what is below it. -/
theorem lt_asymm {x y : Double} (h : x.lt y = true) : ¬y.lt x = true :=
  fun h' => lt_irrefl x (lt_chain h h')

/-- A number is on one side or the other of what lies between two. -/
theorem lt_split {x y z : Double} (hy : y ≠ nan) (h : x.lt z = true) :
    x.lt y = true ∨ y.lt z = true := by
  cases y with
  | nan => exact absurd rfl hy
  | posInf =>
      cases x with
      | fin a => exact .inl rfl
      | negInf => exact .inl rfl
      | posInf | nan => cases z <;> cases h
  | negInf =>
      cases z with
      | fin c => exact .inr rfl
      | posInf => exact .inr rfl
      | negInf | nan => cases x <;> cases h
  | fin b =>
      cases x with
      | posInf | nan => cases z <;> cases h
      | negInf => exact .inl rfl
      | fin a =>
          cases z with
          | negInf | nan => cases h
          | posInf => exact .inr rfl
          | fin c =>
              rw [fin_lt] at h
              rw [fin_lt, fin_lt]
              exact (lt_or_ge a b).imp_right fun hba => lt_of_le_of_lt hba h

/-- A share that is not zero, times what a factor leaves of one, is a number. -/
theorem mul_saved_ne_nan {a : ℚ} {x : Double} (ha : a ≠ 0) (hx : x ≠ nan) :
    (fin a).mul ((fin 1).sub ((fin 1).div x)) ≠ nan := by
  have hmul : ∀ y, y ≠ nan → (fin a).mul y ≠ nan := by
    intro y hy
    have hinf : ∀ b, infinity b ≠ nan := by
      intro b
      cases b <;> exact Double.noConfusion
    cases y with
    | nan => exact absurd rfl hy
    | fin b => exact Double.noConfusion
    | _ =>
        show (if fin a = fin 0 ∨ _ then nan else infinity _) ≠ nan
        rw [if_neg (by simp [ha])]
        exact hinf _
  refine hmul _ ?_
  cases x with
  | nan => exact absurd rfl hx
  | fin b =>
      by_cases hb : b = 0
      · rw [hb]
        exact Double.noConfusion
      · rw [fin_div hb]
        exact Double.noConfusion
  | _ => exact Double.noConfusion

/-- A rounded number is cast to itself. -/
theorem toLong_ceil_fin (q : ℚ) : (fin q).ceil.toLong = ⌈q⌉ := by
  show ((⌈q⌉ : ℤ) : ℚ).num.tdiv ((⌈q⌉ : ℤ) : ℚ).den = ⌈q⌉
  rw [Rat.num_intCast, Rat.den_intCast]
  exact Int.tdiv_one _

/-- What lies between two rationals is rational. -/
theorem eq_fin_of_le {a b : ℚ} {x : Double} (ha : (fin a).le x = true) (hb : x.le (fin b) = true) :
    ∃ q, x = fin q ∧ a ≤ q ∧ q ≤ b := by
  cases x with
  | fin q => exact ⟨q, rfl, (fin_le a q).mp ha, (fin_le q b).mp hb⟩
  | posInf => cases hb
  | negInf => cases ha
  | nan => cases ha

end Double

end Kremlin.Library
