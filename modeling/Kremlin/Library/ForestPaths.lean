/-
  Kremlin.Library.ForestPaths — the paths of a forest.

  Every node has at most one successor, and a rank that grows along it.  A path
  goes from a node as far as there are successors; a leaf is the successor of none.

  Main result:
    * `longPaths_disjoint_iff` — of paths with three nodes or more that come from
      leaves no two share a node, exactly if two nodes have the same successor only
      where it has none and one of the two is a leaf.
-/
import Mathlib.Data.List.Basic
import Mathlib.Data.Nat.Notation
import Mathlib.Tactic.Common

namespace Kremlin.Library.ForestPaths

variable {α : Type}

/-- The nodes from `x` on. -/
inductive Path (next : α → Option α) : α → List α → Prop
  | last {x : α} (h : next x = none) : Path next x [x]
  | step {x y : α} {xs : List α} (h : next x = some y) (hxs : Path next y xs) :
      Path next x (x :: xs)

/-- No node has `x` as its successor. -/
def Leaf (next : α → Option α) (x : α) : Prop := ∀ p, next p ≠ some x

variable {next : α → Option α} {x y : α} {xs ys : List α}

/-- There is one path from a node. -/
theorem Path.unique (h : Path next x xs) (h' : Path next x ys) : xs = ys := by
  induction h generalizing ys with
  | last hx =>
      cases h' with
      | last => rfl
      | step hy => cases hx.symm.trans hy
  | step hx _ ih =>
      cases h' with
      | last hy => cases hx.symm.trans hy
      | step hy hys =>
          cases hx.symm.trans hy
          rw [ih hys]

/-- It starts with the node. -/
theorem Path.head_mem (h : Path next x xs) : x ∈ xs := by
  cases h with
  | last => exact List.mem_cons_self
  | step => exact List.mem_cons_self

/-- So it is not empty. -/
theorem Path.length_pos (h : Path next x xs) : 0 < xs.length :=
  List.length_pos_of_mem h.head_mem

/-- Each node but the first is the successor of one before. -/
theorem Path.exists_prev (h : Path next x xs) (hy : y ∈ xs) (hne : y ≠ x) :
    ∃ p ∈ xs, next p = some y := by
  induction h with
  | last => exact absurd (List.mem_singleton.mp hy) hne
  | @step a b _ hx hxs ih =>
      have hy := (List.mem_cons.mp hy).resolve_left hne
      by_cases hyb : y = b
      · exact ⟨a, List.mem_cons_self, hyb ▸ hx⟩
      · obtain ⟨p, hp, hpy⟩ := ih hy hyb
        exact ⟨p, List.mem_cons_of_mem _ hp, hpy⟩

/-- With a node it has the successor. -/
theorem Path.next_mem (h : Path next x xs) {p : α} (hp : p ∈ xs) (hnext : next p = some y) :
    y ∈ xs := by
  induction h with
  | last hx =>
      rw [List.mem_singleton.mp hp] at hnext
      cases hx.symm.trans hnext
  | step hx hxs ih =>
      rcases List.mem_cons.mp hp with rfl | hp
      · cases hx.symm.trans hnext
        exact List.mem_cons_of_mem _ hxs.head_mem
      · exact List.mem_cons_of_mem _ (ih hp)

/-- A leaf is on no path but its own. -/
theorem Path.eq_of_leaf (h : Path next x xs) (hy : y ∈ xs) (hleaf : Leaf next y) : y = x := by
  by_contra hne
  obtain ⟨p, -, hp⟩ := h.exists_prev hy hne
  exact hleaf p hp

/-! ## §1. Ranks. -/

section Rank

variable {rank : α → ℕ} (hrank : ∀ x y, next x = some y → rank x < rank y)

include hrank

/-- The rank is least at the start. -/
theorem Path.rank_le (h : Path next x xs) (hy : y ∈ xs) : rank x ≤ rank y := by
  induction h with
  | last => exact Nat.le_of_eq (congrArg rank (List.mem_singleton.mp hy).symm)
  | step hx _ ih =>
      rcases List.mem_cons.mp hy with rfl | hy
      · exact Nat.le_refl _
      · exact Nat.le_of_lt (Nat.lt_of_lt_of_le (hrank _ _ hx) (ih hy))

/-- On one path no two nodes have the same successor. -/
theorem Path.eq_of_next (h : Path next x xs) {p q i : α} (hp : p ∈ xs) (hq : q ∈ xs)
    (hpi : next p = some i) (hqi : next q = some i) : p = q := by
  induction h with
  | last => rw [List.mem_singleton.mp hp, List.mem_singleton.mp hq]
  | @step a b xs hx hxs ih =>
      -- the successor of the first comes before all the others
      have hbehind : ∀ r ∈ xs, next r ≠ some b := fun r hr hnext =>
        Nat.not_lt_of_le (hxs.rank_le hrank hr) (hrank _ _ hnext)
      rcases List.mem_cons.mp hp with rfl | hpxs
      · rcases List.mem_cons.mp hq with rfl | hqxs
        · rfl
        · cases hpi.symm.trans hx
          exact absurd hqi (hbehind q hqxs)
      · rcases List.mem_cons.mp hq with rfl | hqxs
        · cases hqi.symm.trans hx
          exact absurd hpi (hbehind p hpxs)
        · exact ih hpxs hqxs

/-- There is a path from every node, no longer than there are ranks. -/
theorem exists_path {n : ℕ} (hbound : ∀ x y, next x = some y → rank y < n) (x : α)
    (hx : rank x < n) : ∃ xs, Path next x xs ∧ xs.length + rank x ≤ n := by
  cases hnext : next x with
  | none => exact ⟨[x], .last hnext, by rw [List.length_singleton]; omega⟩
  | some y =>
      have hxy := hrank x y hnext
      obtain ⟨ys, hys, hle⟩ := exists_path hbound y (hbound x y hnext)
      exact ⟨x :: ys, .step hnext hys, by rw [List.length_cons]; omega⟩
termination_by n - rank x

/-- Every path is part of one that comes from a leaf. -/
theorem exists_leaf {x : α} {xs : List α} (h : Path next x xs) :
    ∃ y ys, Leaf next y ∧ Path next y ys ∧ x ∈ ys ∧ (¬Leaf next x → xs.length < ys.length) ∧
      xs.length ≤ ys.length := by
  by_cases hleaf : Leaf next x
  · exact ⟨x, xs, hleaf, h, h.head_mem, fun hnot => absurd hleaf hnot, Nat.le_refl _⟩
  · unfold Leaf at hleaf
    push Not at hleaf
    obtain ⟨p, hp⟩ := hleaf
    have hlt := hrank p x hp
    obtain ⟨y, ys, hy, hys, hmem, -, hle⟩ := exists_leaf (.step hp h)
    rw [List.length_cons] at hle
    exact ⟨y, ys, hy, hys, hys.next_mem hmem hp, fun _ => hle, Nat.le_of_succ_le hle⟩
termination_by rank x

/-- Where two paths from leaves meet, two nodes have the same successor. -/
theorem Path.meet (h : Path next x xs) (h' : Path next y ys) (hx : Leaf next x)
    (hy : Leaf next y) (hne : x ≠ y) {z : α} (hz : z ∈ xs) (hz' : z ∈ ys) :
    ∃ p ∈ xs, ∃ q ∈ ys, ∃ i, next p = some i ∧ next q = some i ∧ p ≠ q := by
  have hzx : z ≠ x := by
    rintro rfl
    exact hne (h'.eq_of_leaf hz' hx)
  have hzy : z ≠ y := by
    rintro rfl
    exact hne (h.eq_of_leaf hz hy).symm
  obtain ⟨p, hp, hpz⟩ := h.exists_prev hz hzx
  obtain ⟨q, hq, hqz⟩ := h'.exists_prev hz' hzy
  by_cases hpq : p = q
  · have hlt := hrank p z hpz
    exact h.meet h' hx hy hne hp (hpq ▸ hq)
  · exact ⟨p, hp, q, hq, z, hpz, hqz, hpq⟩
termination_by rank z

/-! ## §2. Long paths. -/

/-- Two nodes have the same successor only at the end of short paths. -/
def Linear (next : α → Option α) : Prop :=
  ∀ p q i, next p = some i → next q = some i → p ≠ q →
    next i = none ∧ (Leaf next p ∨ Leaf next q)

/-- Where two long paths from leaves meet is no end of short ones. -/
theorem Path.disjoint (hlinear : Linear next) (h : Path next x xs) (h' : Path next y ys)
    (hx : Leaf next x) (hy : Leaf next y) (hne : x ≠ y) (hxs : 3 ≤ xs.length)
    (hys : 3 ≤ ys.length) : List.Disjoint xs ys := by
  intro z hz hz'
  obtain ⟨p, hp, q, hq, i, hpi, hqi, hpq⟩ := h.meet hrank h' hx hy hne hz hz'
  obtain ⟨hi, hleaf⟩ := hlinear p q i hpi hqi hpq
  have hshort : ∀ (w : α) (ws : List α), Path next w ws → next w = some i → ws = [w, i] :=
    fun w ws hws hwi => hws.unique (.step hwi (.last hi))
  rcases hleaf with hleaf | hleaf
  · have heq := h.eq_of_leaf hp hleaf
    rw [hshort x xs h (heq ▸ hpi)] at hxs
    exact Nat.not_succ_le_self 2 hxs
  · have heq := h'.eq_of_leaf hq hleaf
    rw [hshort y ys h' (heq ▸ hqi)] at hys
    exact Nat.not_succ_le_self 2 hys

/-- **Which long paths meet.** -/
theorem longPaths_disjoint_iff {n : ℕ} (hbound : ∀ x y, next x = some y → rank y < n) :
    (∀ x y xs ys, Leaf next x → Leaf next y → x ≠ y → Path next x xs → Path next y ys →
      3 ≤ xs.length → 3 ≤ ys.length → List.Disjoint xs ys) ↔ Linear next := by
  constructor
  · intro h p q i hpi hqi hpq
    have hpath : ∀ w, next w = some i → ∃ ws, Path next w ws := fun w hw => by
      have hwi := hrank w i hw
      obtain ⟨ws, hws, -⟩ := exists_path hrank hbound w (Nat.lt_trans hwi (hbound w i hw))
      exact ⟨ws, hws⟩
    obtain ⟨ps, hps⟩ := hpath p hpi
    obtain ⟨qs, hqs⟩ := hpath q hqi
    obtain ⟨x, xs, hx, hxs, hp, hxlt, hxle⟩ := exists_leaf hrank hps
    obtain ⟨y, ys, hy, hys, hq, hylt, hyle⟩ := exists_leaf hrank hqs
    have hne : x ≠ y := by
      rintro rfl
      rw [hys.unique hxs] at hq
      exact hpq (hxs.eq_of_next hrank hp hq hpi hqi)
    -- the two meet in the successor, so that one is short
    have hshort : ¬(3 ≤ xs.length ∧ 3 ≤ ys.length) := fun ⟨h3, h3'⟩ =>
      h x y xs ys hx hy hne hxs hys h3 h3' (hxs.next_mem hp hpi) (hys.next_mem hq hqi)
    have hlength : ∀ (w : α) (ws : List α), next w = some i → Path next w ws →
        2 ≤ ws.length ∧ (next i ≠ none → 3 ≤ ws.length) := by
      intro w ws hwi hws
      cases hws with
      | last hw => cases hw.symm.trans hwi
      | step hw his =>
          cases hw.symm.trans hwi
          cases his with
          | last hi => exact ⟨Nat.le_refl 2, fun hne => absurd hi hne⟩
          | step hi hjs =>
              have hpos := hjs.length_pos
              rw [List.length_cons, List.length_cons]
              exact ⟨by omega, fun _ => by omega⟩
    obtain ⟨hp2, hp3⟩ := hlength p ps hpi hps
    obtain ⟨hq2, hq3⟩ := hlength q qs hqi hqs
    constructor
    · by_contra hi
      exact hshort ⟨Nat.le_trans (hp3 hi) hxle, Nat.le_trans (hq3 hi) hyle⟩
    · by_contra hleaf
      push Not at hleaf
      exact hshort ⟨Nat.lt_of_le_of_lt hp2 (hxlt hleaf.1), Nat.lt_of_le_of_lt hq2 (hylt hleaf.2)⟩
  · intro hlinear x y xs ys hx hy hne hxs hys h3 h3'
    exact hxs.disjoint hrank hlinear hys hx hy hne h3 h3'

end Rank

end Kremlin.Library.ForestPaths
