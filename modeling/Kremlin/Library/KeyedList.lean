/-
  Kremlin.Library.KeyedList — a table searched for the first item of a key.

  Such a table grows at its end, by items whose key is not in it yet.  The rules:

    * `find?_mid` — a search at an item that is the first of its key;
    * `findIdx?_split` — the table at the item a search found;
    * `Keyed.append`, `Keyed.length_lt` — the keys stay different, and as long as
      a key of a finite set is missing there are fewer items than keys.
-/
import Mathlib.Data.Finset.Card
import Mathlib.Data.List.Basic
import Mathlib.Data.List.Nodup

namespace Kremlin.Library

variable {E K : Type} [DecidableEq K] (key : E → K)

/-- A search for a key that is not there. -/
theorem find?_eq_none_of_ne {l : List E} {k : K} (h : ∀ x ∈ l, key x ≠ k) :
    l.find? (fun x => decide (key x = k)) = none := by
  rw [List.find?_eq_none]
  intro x hx
  rw [decide_eq_true_eq]
  exact h x hx

/-- **Searching at an item that is the first of its key.** -/
theorem find?_mid {pre post : List E} {e : E} (hpre : ∀ x ∈ pre, key x ≠ key e) (k : K) :
    (pre ++ e :: post).find? (fun x => decide (key x = k))
      = if key e = k then some e else (pre ++ post).find? fun x => decide (key x = k) := by
  rw [List.find?_append, List.find?_append, List.find?_cons]
  by_cases hk : key e = k
  · subst hk
    rw [find?_eq_none_of_ne key hpre, if_pos rfl, decide_eq_true rfl]
    rfl
  · rw [if_neg hk, decide_eq_false hk]

/-- **The table at the item that was found.** -/
theorem findIdx?_split {l : List E} {k : K} {i : ℕ}
    (h : l.findIdx? (fun x => decide (key x = k)) = some i) :
    ∃ pre e post, l = pre ++ e :: post ∧ pre.length = i ∧ key e = k ∧
      ∀ x ∈ pre, key x ≠ k := by
  obtain ⟨hi, hhere, hbefore⟩ := List.findIdx?_eq_some_iff_getElem.mp h
  have hlen : (l.take i).length = i := by
    rw [List.length_take]
    omega
  refine ⟨l.take i, l[i], l.drop (i + 1), ?_, hlen, of_decide_eq_true hhere, ?_⟩
  · rw [List.getElem_cons_drop, List.take_append_drop]
  · intro x hx
    obtain ⟨j, hj, rfl⟩ := List.mem_iff_getElem.mp hx
    have hnot := hbefore j (by omega)
    rw [decide_eq_true_eq] at hnot
    rw [List.getElem_take]
    exact hnot

/-- And back. -/
theorem ne_of_findIdx?_none {l : List E} {k : K}
    (h : l.findIdx? (fun x => decide (key x = k)) = none) : ∀ x ∈ l, key x ≠ k := by
  intro x hx
  have hno := List.findIdx?_eq_none_iff.mp h x hx
  rwa [decide_eq_false_iff_not] at hno

omit [DecidableEq K] in
/-- Changing the item behind a known part. -/
theorem modify_mid (f : E → E) (pre : List E) (e : E) (post : List E) :
    (pre ++ e :: post).modify pre.length f = pre ++ f e :: post := by
  induction pre with
  | nil => rfl
  | cons x pre ih => exact congrArg (List.cons x) ih

/-- The items have different keys, all of them among `ks`. -/
structure Keyed (ks : Finset K) (l : List E) : Prop where
  nodup : (l.map key).Nodup
  subset : ∀ k ∈ l.map key, k ∈ ks

variable {key} {ks : Finset K} {l : List E}

omit [DecidableEq K] in
/-- The empty table. -/
theorem keyed_nil (key : E → K) (ks : Finset K) : Keyed key ks [] where
  nodup := List.nodup_nil
  subset _ h := by cases h

/-- **While a key is missing there is room.** -/
theorem Keyed.length_lt (h : Keyed key ks l) {k : K} (hk : k ∈ ks) (hnot : k ∉ l.map key) :
    l.length < ks.card := by
  have hnodup : (k :: l.map key).Nodup := List.nodup_cons.mpr ⟨hnot, h.nodup⟩
  have hsub : (k :: l.map key).toFinset ⊆ ks := by
    intro x hx
    rcases List.mem_cons.mp (List.mem_toFinset.mp hx) with rfl | hold
    · exact hk
    · exact h.subset x hold
  have hle := Finset.card_le_card hsub
  rw [List.toFinset_card_of_nodup hnodup, List.length_cons, List.length_map] at hle
  exact hle

omit [DecidableEq K] in
/-- **An item of a new key** is appended. -/
theorem Keyed.append (h : Keyed key ks l) {e : E} (hk : key e ∈ ks)
    (hnot : key e ∉ l.map key) : Keyed key ks (l ++ [e]) := by
  have hmap : (l ++ [e]).map key = l.map key ++ [key e] := List.map_append
  refine ⟨?_, ?_⟩
  · rw [hmap, List.nodup_append_comm]
    exact List.nodup_cons.mpr ⟨hnot, h.nodup⟩
  · intro x hx
    rw [hmap] at hx
    rcases List.mem_append.mp hx with hold | hnew
    · exact h.subset x hold
    · exact List.mem_singleton.mp hnew ▸ hk

omit [DecidableEq K] in
/-- Changing an item behind a known part keeps the keys. -/
theorem Keyed.replace {pre post : List E} {e e' : E} (h : Keyed key ks (pre ++ e :: post))
    (he : key e' = key e) : Keyed key ks (pre ++ e' :: post) := by
  have hmap : (pre ++ e' :: post).map key = (pre ++ e :: post).map key := by
    rw [List.map_append, List.map_append, List.map_cons, List.map_cons, he]
  exact ⟨hmap ▸ h.nodup, hmap ▸ h.subset⟩

end Kremlin.Library
