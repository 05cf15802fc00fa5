/-
  Kremlin.Library.KeyedMaxima — tables of the greatest weight of each key.

  A relation gives each key any number of weights; a table keeps one entry for a
  key, with the greatest of its weights as long as all are below a bound (the
  range of a machine word).  The rules:

    * `KeyedMaxima.keep`, `KeyedMaxima.replace` — one weight more;
    * `KeyedMaxima.congr`, `KeyedMaxima.absorb` — another relation with the same
      greatest weights, and the raised weights of another table;
    * `KeyedMaxima.isGreatest_iff` — whatever is added to the weights of each key,
      the table and the relation have the same greatest sum;
    * `KeyedMaxima.bounded_of_isGreatest` — and only when no weight reaches the bound.
-/
import Mathlib.Data.List.Nodup
import Kremlin.Library.RunningExtremes

namespace Kremlin.Library

variable {E K : Type} (key : E → K) (value : E → ℕ) (bound : ℕ)

/-- All weights are below the bound. -/
def Bounded (P : K → ℕ → Prop) : Prop := ∀ k w, P k w → w < bound

/-- The relation with one weight more. -/
def Plus (P : K → ℕ → Prop) (k : K) (w : ℕ) (k' : K) (w' : ℕ) : Prop :=
  P k' w' ∨ (k' = k ∧ w' = w)

/-- **The table of a relation.** -/
structure KeyedMaxima (P : K → ℕ → Prop) (table : List E) : Prop where
  nodup : (table.map key).Nodup
  keys : ∀ k, (∃ e ∈ table, key e = k) ↔ ∃ w, P k w
  greatest : Bounded bound P → ∀ e ∈ table, IsGreatest {w | P (key e) w} (value e)

namespace KeyedMaxima

variable {key value bound} {P Q : K → ℕ → Prop} {table table' : List E}

/-! ## §1. Building a table. -/

/-- The empty table. -/
theorem nil (h : ∀ k w, ¬P k w) : KeyedMaxima key value bound P [] where
  nodup := List.nodup_nil
  keys k := by
    constructor
    · rintro ⟨e, he, _⟩
      exact absurd he List.not_mem_nil
    · rintro ⟨w, hw⟩
      exact absurd hw (h k w)
  greatest _ e he := absurd he List.not_mem_nil

/-- With one weight more, the weights before were bounded. -/
theorem Bounded.of_plus {k : K} {w : ℕ} (h : Bounded bound (Plus P k w)) :
    Bounded bound P ∧ w < bound :=
  ⟨fun k' w' hw => h k' w' (.inl hw), h k w (.inr ⟨rfl, rfl⟩)⟩

/-- **A weight that an entry outweighs.** -/
theorem keep (h : KeyedMaxima key value bound P table) {e : E} (he : e ∈ table) {w : ℕ}
    (hle : w < bound → w ≤ value e) : KeyedMaxima key value bound (Plus P (key e) w) table where
  nodup := h.nodup
  keys k := by
    rw [h.keys]
    constructor
    · rintro ⟨w', hw'⟩
      exact ⟨w', .inl hw'⟩
    · rintro ⟨w', hw' | ⟨hk, _⟩⟩
      · exact ⟨w', hw'⟩
      · rw [hk]
        exact (h.keys (key e)).mp ⟨e, he, rfl⟩
  greatest hbound e' he' := by
    obtain ⟨hP, hw⟩ := Bounded.of_plus hbound
    have hgreatest := h.greatest hP e' he'
    refine ⟨.inl hgreatest.1, ?_⟩
    rintro w' (hw' | ⟨hk, rfl⟩)
    · exact hgreatest.2 hw'
    · have heq : e' = e := List.inj_on_of_nodup_map h.nodup he' he hk
      rw [heq]
      exact hle hw

/-- **A weight that gets an entry of its own**, in place of the key's old one. -/
theorem replace [DecidableEq K] (h : KeyedMaxima key value bound P table) (e : E) {w : ℕ}
    (htable : table'.Perm (e :: table.filter fun e' => key e' ≠ key e))
    (hvalue : w < bound → value e = w)
    (hle : w < bound → ∀ e' ∈ table, key e' = key e → value e' ≤ w) :
    KeyedMaxima key value bound (Plus P (key e) w) table' := by
  have hmem : ∀ e', e' ∈ table' ↔ e' = e ∨ (e' ∈ table ∧ key e' ≠ key e) := by
    intro e'
    rw [htable.mem_iff, List.mem_cons, List.mem_filter, decide_eq_true_iff]
  refine ⟨?_, ?_, ?_⟩
  · rw [(htable.map key).nodup_iff, List.map_cons, List.nodup_cons]
    constructor
    · intro hkey
      obtain ⟨e', he', hkey'⟩ := List.mem_map.mp hkey
      exact of_decide_eq_true (List.mem_filter.mp he').2 hkey'
    · exact h.nodup.sublist (List.filter_sublist.map key)
  · intro k
    constructor
    · rintro ⟨e', he', rfl⟩
      rcases (hmem e').mp he' with rfl | ⟨he', _⟩
      · exact ⟨w, .inr ⟨rfl, rfl⟩⟩
      · obtain ⟨w', hw'⟩ := (h.keys (key e')).mp ⟨e', he', rfl⟩
        exact ⟨w', .inl hw'⟩
    · rintro ⟨w', hw'⟩
      by_cases hk : k = key e
      · -- the new weight
        exact ⟨e, (hmem e).mpr (.inl rfl), hk.symm⟩
      · rcases hw' with hw' | ⟨hk', _⟩
        · obtain ⟨e', he', hkey⟩ := (h.keys k).mpr ⟨w', hw'⟩
          exact ⟨e', (hmem e').mpr (.inr ⟨he', by rw [hkey]; exact hk⟩), hkey⟩
        · exact absurd hk' hk
  · intro hbound e' he'
    obtain ⟨hP, hw⟩ := Bounded.of_plus hbound
    rcases (hmem e').mp he' with rfl | ⟨he', hkey⟩
    · refine ⟨.inr ⟨rfl, hvalue hw⟩, ?_⟩
      rintro w' (hw' | ⟨_, rfl⟩)
      · -- an old weight of the key is no greater than its old entry
        obtain ⟨old, hold, hkey⟩ := (h.keys (key e')).mpr ⟨w', hw'⟩
        have hgreatest := h.greatest hP old hold
        rw [hkey] at hgreatest
        rw [hvalue hw]
        exact (hgreatest.2 hw').trans (hle hw old hold hkey)
      · exact (hvalue hw).ge
    · -- the weights of the other keys are the old ones
      have hgreatest := h.greatest hP e' he'
      refine ⟨.inl hgreatest.1, ?_⟩
      rintro w' (hw' | ⟨hk, _⟩)
      · exact hgreatest.2 hw'
      · exact absurd hk hkey

/-- **Another relation with the same keys and the same greatest weights.** -/
theorem congr (h : KeyedMaxima key value bound P table)
    (hkeys : ∀ k, (∃ w, P k w) ↔ ∃ w, Q k w) (hbound : Bounded bound Q → Bounded bound P)
    (hgreatest : Bounded bound Q → ∀ k w, IsGreatest {w | P k w} w → IsGreatest {w | Q k w} w) :
    KeyedMaxima key value bound Q table where
  nodup := h.nodup
  keys k := (h.keys k).trans (hkeys k)
  greatest hQ e he := hgreatest hQ _ _ (h.greatest (hbound hQ) e he)

/-- Another name for the same relation. -/
theorem of_iff (h : KeyedMaxima key value bound P table) (hiff : ∀ k w, P k w ↔ Q k w) :
    KeyedMaxima key value bound Q table := by
  have heq : P = Q := funext fun k => funext fun w => propext (hiff k w)
  rwa [heq] at h

/-- **The weights of another table**, all raised by `n`, for those of its relation. -/
theorem absorb {n : ℕ} (hQ : KeyedMaxima key value bound Q table)
    (h : KeyedMaxima key value bound
      (fun k w => P k w ∨ ∃ e ∈ table, k = key e ∧ w = value e + n) table') :
    KeyedMaxima key value bound (fun k w => P k w ∨ ∃ w', Q k w' ∧ w = w' + n) table' := by
  -- raising the weights keeps the bound in sight
  have hbounded : Bounded bound (fun k w => P k w ∨ ∃ w', Q k w' ∧ w = w' + n) →
      Bounded bound Q := by
    intro hbound k w hw
    have hlt := hbound k (w + n) (.inr ⟨w, hw, rfl⟩)
    omega
  refine h.congr ?_ ?_ ?_
  · intro k
    constructor
    · rintro ⟨w, hw | ⟨e, he, rfl, _⟩⟩
      · exact ⟨w, .inl hw⟩
      · obtain ⟨w', hw'⟩ := (hQ.keys (key e)).mp ⟨e, he, rfl⟩
        exact ⟨w' + n, .inr ⟨w', hw', rfl⟩⟩
    · rintro ⟨w, hw | ⟨w', hw', _⟩⟩
      · exact ⟨w, .inl hw⟩
      · obtain ⟨e, he, rfl⟩ := (hQ.keys k).mpr ⟨w', hw'⟩
        exact ⟨value e + n, .inr ⟨e, he, rfl, rfl⟩⟩
  · rintro hbound k w (hw | ⟨e, he, rfl, rfl⟩)
    · exact hbound k w (.inl hw)
    · exact hbound (key e) _ (.inr ⟨value e, (hQ.greatest (hbounded hbound) e he).1, rfl⟩)
  · rintro hbound k w ⟨hmem, hupper⟩
    refine ⟨?_, ?_⟩
    · rcases hmem with hw | ⟨e, he, rfl, rfl⟩
      · exact .inl hw
      · exact .inr ⟨value e, (hQ.greatest (hbounded hbound) e he).1, rfl⟩
    · rintro m (hw | ⟨w', hw', rfl⟩)
      · exact hupper (.inl hw)
      · obtain ⟨e, he, rfl⟩ := (hQ.keys k).mpr ⟨w', hw'⟩
        have hle : w' ≤ value e := (hQ.greatest (hbounded hbound) e he).2 hw'
        have hraised : value e + n ≤ w := hupper (.inr ⟨e, he, rfl, rfl⟩)
        omega

/-! ## §2. Greatest sums. -/

/-- The sums of the weights. -/
def sums (t : K → ℕ) (P : K → ℕ → Prop) : Set ℕ := {m | ∃ k w, P k w ∧ m = t k + w}

/-- **The table has the greatest sum of the relation.** -/
theorem isGreatest_iff (h : KeyedMaxima key value bound P table) (hbound : Bounded bound P)
    (t : K → ℕ) (m : ℕ) :
    IsGreatest (valuesOf (fun e => t (key e) + value e) table) m ↔ IsGreatest (sums t P) m := by
  have hentry : ∀ e ∈ table, t (key e) + value e ∈ sums t P := by
    intro e he
    exact ⟨key e, value e, (h.greatest hbound e he).1, rfl⟩
  have houtweighed : ∀ k w, P k w → ∃ e ∈ table, t k + w ≤ t (key e) + value e := by
    intro k w hw
    obtain ⟨e, he, rfl⟩ := (h.keys k).mpr ⟨w, hw⟩
    exact ⟨e, he, Nat.add_le_add_left ((h.greatest hbound e he).2 hw) _⟩
  constructor
  · rintro ⟨⟨e, he, rfl⟩, hupper⟩
    refine ⟨hentry e he, ?_⟩
    rintro n ⟨k, w, hw, rfl⟩
    obtain ⟨e', he', hle⟩ := houtweighed k w hw
    exact hle.trans (hupper ⟨e', he', rfl⟩)
  · rintro ⟨⟨k, w, hw, rfl⟩, hupper⟩
    obtain ⟨e, he, hle⟩ := houtweighed k w hw
    have heq : t k + w = t (key e) + value e := Nat.le_antisymm hle (hupper (hentry e he))
    refine ⟨⟨e, he, heq.symm⟩, ?_⟩
    rintro n ⟨e', he', rfl⟩
    exact hupper (hentry e' he')

/-- **Entries below the bound have the greatest sums of weights below it only.** -/
theorem bounded_of_isGreatest [DecidableEq K] (h : KeyedMaxima key value bound P table)
    (hvalue : ∀ e ∈ table, value e < bound)
    (hsums : ∀ (t : K → ℕ) (m : ℕ),
      IsGreatest (valuesOf (fun e => t (key e) + value e) table) m → IsGreatest (sums t P) m) :
    Bounded bound P := by
  intro k w hw
  by_contra hge
  obtain ⟨e, he, _⟩ := (h.keys k).mpr ⟨w, hw⟩
  -- the key alone is added to, by as much as no entry makes up for
  have hmax : IsGreatest _ _ := isGreatest_runningMax_of_le (List.ne_nil_of_mem he)
    (fun e _ => Nat.zero_le ((if key e = k then bound else 0) + value e))
  have hupper := (hsums (fun k' => if k' = k then bound else 0) _ hmax).2 ⟨k, w, hw, rfl⟩
  obtain ⟨e', he', hsum⟩ := hmax.1
  rw [← hsum] at hupper
  have hle : bound + w ≤ (if key e' = k then bound else 0) + value e' := by simpa using hupper
  have hlt := hvalue e' he'
  split at hle <;> omega

end KeyedMaxima

end Kremlin.Library
