/-
  Kremlin.Library.NestedPaths — critical paths in nested regions.

  Regions are open at levels 0 to n - 1, the outermost first.  A value measured
  in them has one component per level: the cost of the longest chain of
  operations it depends on since that region was entered.  Such a chain is paid
  for level by level.  In a region it costs at most what was spent directly in
  it and the critical paths of the regions already left inside it (`allow`), on
  top of what the chain costs in the region entered next.

    * `Accounted` — each component is paid for by its level and the next one;
    * `Ledger.Within` — and is at most the critical path of its region;
    * `Ledger.pay`, `Ledger.extend`, `Ledger.leave` — spending, a longer path,
      and leaving a region, with what they keep.
-/
import Kremlin.Library.LevelTimes

namespace Kremlin.Library

/-! ## §1. Values that are paid for. -/

/-- Every component of `v` above level `k` is paid for by its level and by the
component below it; `inner` stands for the one at level `k`. -/
def Accounted (allow : ℕ → ℕ) (k inner : ℕ) (v : ℕ → ℕ) : Prop :=
  ∀ l < k, v l ≤ allow l + if l + 1 < k then v (l + 1) else inner

/-- A chain without operations costs nothing. -/
theorem accounted_zero (allow : ℕ → ℕ) (k inner : ℕ) : Accounted allow k inner fun _ => 0 :=
  fun _ _ => Nat.zero_le _

section Accounted

variable {allow allow' : ℕ → ℕ} {k inner inner' : ℕ} {v w : ℕ → ℕ}

/-- More may be spent. -/
theorem Accounted.mono (h : Accounted allow k inner v) (hallow : ∀ l < k, allow l ≤ allow' l)
    (hinner : inner ≤ inner') : Accounted allow' k inner' v := by
  intro l hl
  have hv := h l hl
  have hle := hallow l hl
  split at hv <;> rename_i hnext
  · rw [if_pos hnext]
    omega
  · rw [if_neg hnext]
    omega

/-- Only the components above level `k` matter. -/
theorem Accounted.congr (h : Accounted allow k inner v) (hvw : ∀ l < k, w l = v l) :
    Accounted allow k inner w := by
  intro l hl
  have hv := h l hl
  rw [hvw l hl]
  split at hv <;> rename_i hnext
  · rw [if_pos hnext, hvw _ hnext]
    exact hv
  · rw [if_neg hnext]
    exact hv

/-- Of two chains the longer one at each level. -/
theorem Accounted.max (hv : Accounted allow k inner v) (hw : Accounted allow k inner w) :
    Accounted allow k inner fun l => max (v l) (w l) := by
  intro l hl
  have h₁ := hv l hl
  have h₂ := hw l hl
  dsimp only
  split at h₁ <;> rename_i hnext
  · rw [if_pos hnext] at h₂ ⊢
    omega
  · rw [if_neg hnext] at h₂ ⊢
    omega

/-- The largest of several values. -/
theorem Accounted.maxOver {α : Type} {f : ℕ → α → ℕ} {xs : List α}
    (hv : Accounted allow k inner v) (hf : ∀ x ∈ xs, Accounted allow k inner fun l => f l x) :
    Accounted allow k inner fun l => Library.maxOver (f l) (v l) xs := by
  induction xs generalizing v with
  | nil => exact hv
  | cons x xs ih =>
      have hx := hv.max (hf x List.mem_cons_self)
      exact ih hx fun y hy => hf y (List.mem_cons_of_mem x hy)

end Accounted

/-! ## §2. Ledgers. -/

/-- What was spent directly in the region of each level and on the paths of the
regions left inside it, and the critical path of each open region. -/
structure Ledger where
  allow : ℕ → ℕ
  path : ℕ → ℕ

namespace Ledger

/-- A value with components for the levels above `k`. -/
structure Within (L : Ledger) (k : ℕ) (v : ℕ → ℕ) : Prop where
  onPath : ∀ l < k, v l ≤ L.path l
  accounted : Accounted L.allow k (L.path k) v

/-- Above level `n` nothing is spent less, and no path is shorter. -/
structure Le (n : ℕ) (L L' : Ledger) : Prop where
  allow : ∀ l < n, L.allow l ≤ L'.allow l
  path : ∀ l ≤ n, L.path l ≤ L'.path l

/-- Spend `c` in the innermost of `n` regions. -/
def pay (L : Ledger) (n c : ℕ) : Ledger :=
  { L with allow := fun l => if l + 1 = n then L.allow l + c else L.allow l }

/-- The critical paths of `n` regions are at least `v`. -/
def extend (L : Ledger) (n : ℕ) (v : ℕ → ℕ) : Ledger :=
  { L with path := fun l => if l < n then max (v l) (L.path l) else L.path l }

/-- Leave the region at level `n`: its critical path is spent in the region
around it. -/
def leave (L : Ledger) (n : ℕ) : Ledger where
  allow l := if l + 1 = n then L.allow l + L.path n else L.allow l
  path := cut n L.path

section Within

variable {L L' : Ledger} {k n : ℕ} {v w : ℕ → ℕ}

/-- Nothing is within any path. -/
theorem within_zero (L : Ledger) (k : ℕ) : L.Within k fun _ => 0 :=
  ⟨fun _ _ => Nat.zero_le _, accounted_zero _ _ _⟩

/-- A larger ledger allows as much. -/
theorem Within.mono (h : L.Within k v) (hle : Le n L L') (hk : k ≤ n) : L'.Within k v where
  onPath l hl := (h.onPath l hl).trans (hle.path l (by omega))
  accounted := h.accounted.mono (fun l hl => hle.allow l (by omega)) (hle.path k hk)

/-- Where nothing is open below, the value is paid for by its levels alone. -/
theorem Within.paid (h : L.Within n v) (hn : L.path n = 0) : Accounted L.allow n 0 v := by
  have haccount := h.accounted
  rwa [hn] at haccount

/-- Only the open levels count. -/
theorem Within.congr (h : L.Within k v) (hvw : ∀ l < k, w l = v l) : L.Within k w where
  onPath l hl := by
    rw [hvw l hl]
    exact h.onPath l hl
  accounted := h.accounted.congr hvw

/-- The longer of two chains. -/
theorem Within.max (hv : L.Within k v) (hw : L.Within k w) :
    L.Within k fun l => max (v l) (w l) where
  onPath l hl := Nat.max_le.mpr ⟨hv.onPath l hl, hw.onPath l hl⟩
  accounted := hv.accounted.max hw.accounted

/-- Forgetting components: the first one forgotten is at most its region's path. -/
theorem Within.restrict (h : L.Within k v) (hn : n ≤ k) : L.Within n v where
  onPath l hl := h.onPath l (by omega)
  accounted l hl := by
    have hv := h.accounted l (by omega)
    by_cases hlast : l + 1 < n
    · rw [if_pos (by omega)] at hv
      rw [if_pos hlast]
      exact hv
    · obtain rfl : l + 1 = n := by omega
      rw [if_neg hlast]
      by_cases hk : l + 1 < k
      · rw [if_pos hk] at hv
        exact hv.trans (Nat.add_le_add_left (h.onPath _ hk) _)
      · obtain rfl : k = l + 1 := by omega
        rw [if_neg hk] at hv
        exact hv

/-- One more component, in a region where nothing was spent yet. -/
theorem Within.succ (h : L.Within n v) (hpath : L.path n = 0) (hv : v n = 0) :
    L.Within (n + 1) v where
  onPath l hl := by
    rcases Nat.lt_succ_iff_lt_or_eq.mp hl with hlt | rfl
    · exact h.onPath l hlt
    · rw [hv]
      exact Nat.zero_le _
  accounted l hl := by
    rcases Nat.lt_succ_iff_lt_or_eq.mp hl with hlt | rfl
    · have haccount := h.accounted l hlt
      rw [if_pos (by omega)]
      by_cases hlast : l + 1 < n
      · rw [if_pos hlast] at haccount
        exact haccount
      · obtain rfl : l + 1 = n := by omega
        rw [if_neg hlast, hpath] at haccount
        rw [hv]
        exact haccount
    · rw [hv]
      exact Nat.zero_le _

/-! ### Spending. -/

/-- Ledgers grow step by step. -/
theorem Le.trans {L'' : Ledger} (h : Le n L L') (h' : Le n L' L'') : Le n L L'' :=
  ⟨fun l hl => (h.allow l hl).trans (h'.allow l hl), fun l hl => (h.path l hl).trans (h'.path l hl)⟩

/-- Spending makes a ledger larger, -/
theorem le_pay (L : Ledger) (n c : ℕ) : Le n L (L.pay n c) := by
  refine ⟨fun l _ => ?_, fun _ _ => le_rfl⟩
  show _ ≤ if l + 1 = n then _ else _
  split <;> omega

/-- and so does a longer path. -/
theorem le_extend (L : Ledger) (n : ℕ) (v : ℕ → ℕ) : Le n L (L.extend n v) := by
  refine ⟨fun _ _ => le_rfl, fun l _ => ?_⟩
  show _ ≤ if l < n then max (v l) (L.path l) else L.path l
  split
  · exact le_max_right _ _
  · exact le_rfl

/-- **What is spent in the innermost region pays for a later value.** -/
theorem accounted_pay {c x : ℕ} (h : Accounted L.allow n 0 v) (hx : x ≤ c) :
    Accounted (L.pay n c).allow n 0 fun l => v l + x := by
  intro l hl
  have hv := h l hl
  show v l + x ≤ (if l + 1 = n then L.allow l + c else L.allow l)
    + if l + 1 < n then v (l + 1) + x else 0
  by_cases hlast : l + 1 < n
  · rw [if_pos hlast] at hv ⊢
    rw [if_neg (by omega)]
    omega
  · rw [if_neg hlast] at hv ⊢
    rw [if_pos (by omega)]
    omega

/-! ### Leaving. -/

/-- Leaving a region keeps the outer paths -/
theorem leave_path_of_lt {l : ℕ} (h : l < n) : (L.leave n).path l = L.path l := cut_of_lt _ h

/-- and forgets its own. -/
theorem leave_path_self (L : Ledger) (n : ℕ) : (L.leave n).path n = 0 := cut_of_le _ le_rfl

/-- **A value that does not see the region left is still paid for.** -/
theorem Within.leave (h : L.Within k v) (hk : k ≤ n) : (L.leave n).Within k v where
  onPath l hl := by
    rw [leave_path_of_lt (by omega)]
    exact h.onPath l hl
  accounted l hl := by
    have hv := h.accounted l hl
    show v l ≤ (if l + 1 = n then L.allow l + L.path n else L.allow l) + _
    by_cases hlast : l + 1 < k
    · rw [if_pos hlast] at hv ⊢
      rw [if_neg (by omega)]
      exact hv
    · obtain rfl : l + 1 = k := by omega
      rw [if_neg hlast] at hv ⊢
      by_cases hn : l + 1 = n
      · -- the path of the region left has become the parent's expense
        rw [if_pos hn, hn, leave_path_self]
        rw [hn] at hv
        exact hv
      · rw [if_neg hn, leave_path_of_lt (by omega)]
        exact hv

/-- A value that saw it loses that component. -/
theorem Within.leave_cut (h : L.Within (n + 1) v) : (L.leave n).Within n (cut n v) :=
  ((h.restrict (Nat.le_succ n)).leave le_rfl).congr fun _ hl => cut_of_lt v hl

end Within

end Ledger

/-- What was accounted for stays so. -/
theorem Accounted.pay {L : Ledger} {n c : ℕ} {v : ℕ → ℕ} (h : Accounted L.allow n 0 v) :
    Accounted (L.pay n c).allow n 0 v :=
  h.mono (L.le_pay n c).allow le_rfl

end Kremlin.Library
