/-
  Kremlin.Library.DelimitedText — texts of fields, each followed by a delimiter.

  Three rewritings of a text, as editors and readers of lines do them:

    * `afterLast p` — what follows the last occurrence of `p`;
    * `replaceAll p new` — every occurrence of `p` replaced, leftmost first and
      without overlaps;
    * `splitRuns sep` — the pieces between runs of separators.

  A field keeps its place under `replaceAll` when no occurrence of the delimiter
  starts in it (`replaceAll_field`), and under `splitRuns` when it is not empty
  and has no separator (`pieces_field`).
-/
import Mathlib.Data.List.Basic
import Mathlib.Tactic.Common

namespace Kremlin.Library

variable {α : Type}

/-! ## §1. Occurrences. -/

/-- A text that stops at an element foreign to the pattern. -/
theorem prefix_of_prefix_append_cons {p xs ys : List α} {c : α} (hc : c ∉ p)
    (h : p <+: xs ++ c :: ys) : p <+: xs := by
  induction xs generalizing p with
  | nil =>
      rcases List.prefix_cons_iff.mp h with hnil | ⟨t, ht, _⟩
      · exact hnil ▸ List.nil_prefix
      · rw [ht] at hc
        exact absurd List.mem_cons_self hc
  | cons x xs ih =>
      rcases List.prefix_cons_iff.mp h with hnil | ⟨t, ht, htail⟩
      · exact hnil ▸ List.nil_prefix
      · rw [ht] at hc ⊢
        rw [List.cons_prefix_cons]
        exact ⟨rfl, ih (fun hmem => hc (List.mem_cons_of_mem _ hmem)) htail⟩

/-- An occurrence does not start where its first element is missing. -/
theorem infix_of_infix_append {c : α} {p xs ys : List α} (hc : c ∉ xs)
    (h : c :: p <:+: xs ++ ys) : c :: p <:+: ys := by
  induction xs with
  | nil => exact h
  | cons x xs ih =>
      rw [List.mem_cons, not_or] at hc
      rw [List.cons_append, List.infix_cons_iff, List.cons_prefix_cons] at h
      rcases h with ⟨hx, _⟩ | h
      · exact absurd hx hc.1
      · exact ih hc.2 h

/-! ## §2. What follows the last occurrence. -/

section Patterns

variable [DecidableEq α]

/-- What follows the last occurrence of `p`. -/
def afterLast (p : List α) : List α → Option (List α)
  | [] => if p = [] then some [] else none
  | x :: xs =>
      match afterLast p xs with
      | some rest => some rest
      | none => if p <+: x :: xs then some ((x :: xs).drop p.length) else none

/-- Without an occurrence there is nothing behind one. -/
theorem afterLast_eq_none {p xs : List α} (h : ¬p <:+: xs) : afterLast p xs = none := by
  induction xs with
  | nil =>
      rw [afterLast, if_neg]
      intro hp
      exact h (hp ▸ List.infix_rfl)
  | cons x xs ih =>
      rw [List.infix_cons_iff, not_or] at h
      rw [afterLast, ih h.2]
      exact if_neg h.1

/-- The last occurrence of a pattern is one that no other follows. -/
theorem afterLast_append {c : α} {p xs ys : List α} (h : ¬c :: p <:+: p ++ ys) :
    afterLast (c :: p) (xs ++ (c :: p ++ ys)) = some ys := by
  induction xs with
  | nil =>
      rw [List.nil_append, List.cons_append, afterLast, afterLast_eq_none h]
      show (if c :: p <+: c :: (p ++ ys) then _ else none) = _
      rw [← List.cons_append, if_pos (List.prefix_append (c :: p) ys), List.drop_left]
  | cons x xs ih => rw [List.cons_append, afterLast, ih]

/-! ## §3. Replacement. -/

/-- `xs` without its first `k` elements, the occurrences of `p` replaced. -/
def replaceFrom (p new : List α) : ℕ → List α → List α
  | _, [] => []
  | k + 1, _ :: xs => replaceFrom p new k xs
  | 0, x :: xs =>
      if p <+: x :: xs then new ++ replaceFrom p new (p.length - 1) xs
      else x :: replaceFrom p new 0 xs

/-- Every occurrence of `p` replaced, leftmost first. -/
def replaceAll (p new xs : List α) : List α := replaceFrom p new 0 xs

/-- Replacing from an index on is replacing in the rest. -/
theorem replaceFrom_eq (p new : List α) (k : ℕ) (xs : List α) :
    replaceFrom p new k xs = replaceAll p new (xs.drop k) := by
  induction k generalizing xs with
  | zero => rw [List.drop_zero, replaceAll]
  | succ k ih =>
      cases xs with
      | nil => rfl
      | cons x xs => exact ih xs

/-- An occurrence at the start is replaced. -/
theorem replaceAll_prefix {p : List α} (hp : p ≠ []) (new xs : List α) :
    replaceAll p new (p ++ xs) = new ++ replaceAll p new xs := by
  cases p with
  | nil => exact absurd rfl hp
  | cons c p =>
      rw [replaceAll, List.cons_append, replaceFrom, ← List.cons_append,
        if_pos (List.prefix_append (c :: p) xs), replaceFrom_eq]
      show new ++ replaceAll (c :: p) new ((p ++ xs).drop p.length) = _
      rw [List.drop_left]

/-- Without one there, the first character stays. -/
theorem replaceAll_cons {p xs : List α} {c : α} (h : ¬p <+: c :: xs) (new : List α) :
    replaceAll p new (c :: xs) = c :: replaceAll p new xs := by
  rw [replaceAll, replaceFrom, if_neg h]
  rfl

/-- **A field in which no delimiter starts** is kept, and its delimiter replaced. -/
theorem replaceAll_field {p field : List α} (hp : p ≠ []) (h : ¬p <:+: field ++ p.dropLast)
    (new xs : List α) :
    replaceAll p new (field ++ (p ++ xs)) = field ++ (new ++ replaceAll p new xs) := by
  induction field with
  | nil => exact replaceAll_prefix hp new xs
  | cons c field ih =>
      rw [List.cons_append, List.infix_cons_iff, not_or] at h
      have hstart : ¬p <+: c :: (field ++ (p ++ xs)) := by
        intro hpre
        apply h.1
        refine List.prefix_of_prefix_length_le hpre ?_ ?_
        · rw [List.cons_prefix_cons]
          refine ⟨rfl, (List.prefix_append_right_inj _).mpr ?_⟩
          exact (List.dropLast_prefix p).trans (List.prefix_append p xs)
        · rw [List.length_cons, List.length_append, List.length_dropLast]
          omega
      rw [List.cons_append, replaceAll_cons hstart, ih h.2]
      rfl

end Patterns

/-! ## §4. Pieces. -/

variable {sep : α → Bool}

/-- The pieces that are not empty. -/
def pieces (sep : α → Bool) (xs : List α) : List (List α) :=
  (xs.splitOnP sep).filter fun piece => !piece.isEmpty

/-- The pieces between runs of separators: an empty one at the start counts, one
at the end does not, and a text without separators is its own piece. -/
def splitRuns (sep : α → Bool) (xs : List α) : List (List α) :=
  match xs.splitOnP sep with
  | [] => []
  | [whole] => [whole]
  | first :: rest =>
      let rest := rest.filter fun piece => !piece.isEmpty
      if first = [] ∧ rest = [] then [] else first :: rest

/-- A separator at the start makes no piece. -/
theorem pieces_sep {s : α} (hs : sep s = true) (xs : List α) :
    pieces sep (s :: xs) = pieces sep xs := by
  unfold pieces
  rw [List.splitOnP_cons_eq_if_modifyHead, if_pos hs]
  rfl

/-- **A field without separators** is a piece of its own. -/
theorem pieces_field {field : List α} {s : α} (hne : field ≠ [])
    (hfield : ∀ c ∈ field, sep c = false) (hs : sep s = true) (xs : List α) :
    pieces sep (field ++ s :: xs) = field :: pieces sep xs := by
  unfold pieces
  rw [List.splitOnP_append_cons_of_forall_mem hfield s hs,
    List.filter_cons_of_pos]
  rw [Bool.not_eq_true', List.isEmpty_eq_false_iff]
  exact hne

/-- A text that starts with no separator starts with a piece. -/
theorem pieces_cons {c : α} (hc : sep c = false) (xs : List α) :
    ∃ piece rest, pieces sep (c :: xs) = (c :: piece) :: rest := by
  unfold pieces
  rw [List.splitOnP_cons_eq_if_modifyHead, if_neg (by rw [hc]; exact Bool.false_ne_true)]
  cases hsplit : xs.splitOnP sep with
  | nil => exact absurd hsplit (List.splitOnP_ne_nil _ _)
  | cons piece rest => exact ⟨piece, _, rfl⟩

/-- No piece has a separator. -/
theorem sep_of_mem_splitOnP {xs piece : List α} (h : piece ∈ xs.splitOnP sep) :
    ∀ c ∈ piece, sep c = false := by
  induction xs generalizing piece with
  | nil =>
      rw [List.splitOnP_nil, List.mem_singleton] at h
      rw [h]
      intro c hc
      exact absurd hc List.not_mem_nil
  | cons x xs ih =>
      rw [List.splitOnP_cons_eq_if_modifyHead] at h
      split at h
      · rcases List.mem_cons.mp h with hnil | h
        · rw [hnil]
          intro c hc
          exact absurd hc List.not_mem_nil
        · exact ih h
      · next hx =>
        cases hsplit : xs.splitOnP sep with
        | nil => exact absurd hsplit (List.splitOnP_ne_nil _ _)
        | cons first rest =>
            rw [hsplit, List.modifyHead_cons] at h
            rw [hsplit] at ih
            rcases List.mem_cons.mp h with hfirst | h
            · rw [hfirst]
              intro c hc
              rcases List.mem_cons.mp hc with hcx | hc
              · rw [hcx]
                exact Bool.eq_false_iff.mpr hx
              · exact ih List.mem_cons_self c hc
            · exact ih (List.mem_cons_of_mem _ h)

/-- The first field of a text, and its other pieces. -/
theorem splitRuns_field {field : List α} {s : α} (hfield : ∀ c ∈ field, sep c = false)
    (hs : sep s = true) {xs : List α} (hxs : pieces sep xs ≠ []) :
    splitRuns sep (field ++ s :: xs) = field :: pieces sep xs := by
  unfold splitRuns
  rw [List.splitOnP_append_cons_of_forall_mem hfield s hs]
  cases hsplit : xs.splitOnP sep with
  | nil => exact absurd hsplit (List.splitOnP_ne_nil _ _)
  | cons piece rest =>
      unfold pieces at hxs
      rw [hsplit] at hxs
      show (if field = [] ∧ List.filter _ (piece :: rest) = [] then [] else _) = _
      rw [if_neg (fun hboth => hxs hboth.2), pieces, hsplit]

/-- Every piece after the first is not empty, and no piece has a separator. -/
theorem mem_splitRuns {xs first piece : List α} {rest : List (List α)}
    (hsplit : splitRuns sep xs = first :: rest) (h : piece ∈ first :: rest) :
    ∀ c ∈ piece, sep c = false := by
  have hmem : piece ∈ xs.splitOnP sep := by
    rw [← hsplit] at h
    unfold splitRuns at h
    split at h
    · exact absurd h List.not_mem_nil
    · next whole heq =>
      rw [heq]
      exact h
    · next head tail _ heq =>
      rw [heq]
      dsimp only at h
      split at h
      · exact absurd h List.not_mem_nil
      · rcases List.mem_cons.mp h with hhead | h
        · rw [hhead]
          exact List.mem_cons_self
        · exact List.mem_cons_of_mem _ (List.mem_of_mem_filter h)
  exact sep_of_mem_splitOnP hmem

end Kremlin.Library
