/-
  Kremlin.Shadow.SingleVersion — one version stands for those of all levels.

  A word is stored with the version of the innermost active region only.  The
  versions of the active levels increase, and a region entered later gets a
  larger one, so comparing them with the stored version finds the levels whose
  region is still the one of the last access (`single_version_exact`).
-/
import Kremlin.Shadow.MShadowSTV
import Kremlin.Shadow.SkaduCacheRuns
import Mathlib.Data.Finset.Card

namespace Kremlin.Shadow

open Kremlin.Library

/-! ## §1. Counting the levels. -/

/-- A search that stops behind the last valid level counts the valid levels. -/
theorem eq_card_valid {vArray : ℕ → ℕ} {lastVer size cut : ℕ} (hcut : cut ≤ size)
    (h : ∀ l < size, l < cut ↔ vArray l ≤ lastVer) :
    cut = ((Finset.range size).filter fun l => vArray l ≤ lastVer).card := by
  have heq : ((Finset.range size).filter fun l => vArray l ≤ lastVer) = Finset.range cut := by
    ext l
    rw [Finset.mem_filter, Finset.mem_range, Finset.mem_range]
    constructor
    · exact fun hl => (h l hl.1).mpr hl.2
    · intro hl
      have hsize := Nat.lt_of_lt_of_le hl hcut
      exact ⟨hsize, (h l hsize).mp hl⟩
  rw [heq, Finset.card_range]

section Increasing

variable {vArray : ℕ → ℕ} {size : ℕ}

/-- Of increasing versions, those not above the stored one come first. -/
theorem lt_cut_iff (hinc : ∀ i j, i < j → j < size → vArray i < vArray j) {lastVer cut l : ℕ}
    (hcut : cut ≤ size) (hvalid : 0 < cut → vArray (cut - 1) ≤ lastVer)
    (hinvalid : ∀ l, cut ≤ l → l < size → lastVer < vArray l) (hl : l < size) :
    l < cut ↔ vArray l ≤ lastVer := by
  constructor
  · intro hlt
    have hlast := hvalid (Nat.zero_lt_of_lt hlt)
    rcases Nat.lt_or_eq_of_le (Nat.le_sub_one_of_lt hlt) with hbefore | heq
    · have hver := hinc l (cut - 1) hbefore (by omega)
      omega
    · rw [heq]
      exact hlast
  · intro hver
    by_contra hge
    have := hinvalid l (Nat.le_of_not_lt hge) hl
    omega

/-- `getStartInvalidLevel` counts the levels whose version is not above the
stored one. -/
theorem lt_getStartInvalidLevel_iff_of_increasing
    (hinc : ∀ i j, i < j → j < size → vArray i < vArray j) (lastVer : ℕ) {l : ℕ} (hl : l < size) :
    l < getStartInvalidLevel lastVer vArray size ↔ vArray l ≤ lastVer := by
  refine lt_cut_iff hinc (getStartInvalidLevel_le lastVer vArray size)
    version_getStartInvalidLevel (fun l hcut hl => ?_) hl
  by_contra hle
  have := lt_getStartInvalidLevel hl (Nat.le_of_not_lt hle)
  omega

/-- So does `TagValidate`. -/
theorem lt_startInvalid_iff (hinc : ∀ i j, i < j → j < size → vArray i < vArray j)
    (lastVer : ℕ) {l : ℕ} (hl : l < size) :
    l < STV.startInvalid lastVer vArray size ↔ vArray l ≤ lastVer := by
  obtain ⟨hcut, hvalid, hinvalid⟩ := STV.startInvalid_spec lastVer vArray size
  exact lt_cut_iff hinc hcut hvalid hinvalid hl

end Increasing

/-! ## §2. Entering and leaving regions. -/

/-- A region is entered or left. -/
inductive RegionEvent where
  | enter (version : ℕ)
  | exit

namespace ActiveLevels

/-- The open regions after one event. -/
def step (a : ActiveLevels) : RegionEvent → Option ActiveLevels
  | .enter version => some (a.enter version)
  | .exit => some a.exit

/-- A region gets a new version; only an active one is left. -/
def Admissible (a : ActiveLevels) : RegionEvent → Prop
  | .enter version => a.next ≤ version
  | .exit => 1 ≤ a.levels

instance (a : ActiveLevels) : ∀ e, Decidable (a.Admissible e)
  | .enter _ => inferInstanceAs (Decidable (_ ≤ _))
  | .exit => inferInstanceAs (Decidable (_ ≤ _))

variable {a a' : ActiveLevels}

theorem Ordered.step (h : a.Ordered) {e : RegionEvent} (he : a.Admissible e)
    (hstep : a.step e = some a') : a'.Ordered := by
  cases e with
  | enter version =>
      cases hstep
      exact h.enter he
  | exit =>
      cases hstep
      exact h.exit

/-- What has happened since the state `a`: the regions of the levels below `kept`
are still active, those above were entered later. -/
structure Since (a a' : ActiveLevels) (kept : ℕ) : Prop where
  ordered : a'.Ordered
  kept_le : kept ≤ a.levels
  kept_le' : kept ≤ a'.levels
  same : ∀ l < kept, a'.versions l = a.versions l
  later : ∀ l, kept ≤ l → l < a'.levels → a.next ≤ a'.versions l
  next_le : a.next ≤ a'.next

theorem since_self (h : a.Ordered) : Since a a a.levels where
  ordered := h
  kept_le := Nat.le_refl _
  kept_le' := Nat.le_refl _
  same _ _ := rfl
  later _ hl hl' := absurd hl' (Nat.not_lt_of_le hl)
  next_le := Nat.le_refl _

/-- Leaving a region may end one that was active at the access. -/
theorem Since.step {a'' : ActiveLevels} {kept : ℕ} (h : Since a a' kept) {e : RegionEvent}
    (he : a'.Admissible e) (hstep : a'.step e = some a'') :
    ∃ kept', Since a a'' kept' := by
  cases e with
  | enter version =>
      cases hstep
      refine ⟨kept, h.ordered.enter he, h.kept_le, Nat.le_succ_of_le h.kept_le', ?_, ?_, ?_⟩
      · intro l hl
        rw [a'.versions_enter_of_lt version (Nat.lt_of_lt_of_le hl h.kept_le')]
        exact h.same l hl
      · intro l hkept hl
        rcases Nat.lt_or_eq_of_le (Nat.le_of_lt_succ hl) with hlt | heq
        · rw [a'.versions_enter_of_lt version hlt]
          exact h.later l hkept hlt
        · rw [heq, versions_enter_self]
          exact Nat.le_trans h.next_le he
      · exact Nat.le_trans h.next_le (Nat.le_succ_of_le he)
  | exit =>
      cases hstep
      refine ⟨min kept (a'.levels - 1), h.ordered.exit, ?_, Nat.min_le_right _ _, ?_, ?_, h.next_le⟩
      · exact Nat.le_trans (Nat.min_le_left _ _) h.kept_le
      · exact fun l hl => h.same l (Nat.lt_of_lt_of_le hl (Nat.min_le_left _ _))
      · intro l hkept hl
        have hl' : l < a'.levels - 1 := hl
        exact h.later l (by omega) (by omega)

theorem since_run {es : List RegionEvent} (h : a.Ordered) (hok : RunOk step Admissible a es)
    (hrun : run step a es = some a') : ∃ kept, Since a a' kept := by
  refine run_invariant_of (P := fun a' => ∃ kept, Since a a' kept) ?_ ⟨_, since_self h⟩ hok hrun
  rintro s e s' ⟨kept, hkept⟩ he hstep
  exact hkept.step he hstep

/-- The levels of both states whose version is the same. -/
def unchanged (a a' : ActiveLevels) : Finset ℕ :=
  (Finset.range (min a.levels a'.levels)).filter fun l => a'.versions l = a.versions l

/-- **The stored version tells the unchanged levels.** -/
theorem Since.le_iff {kept : ℕ} (h : Since a a' kept) (hordered : a.Ordered)
    (hlevels : 1 ≤ a.levels) {l : ℕ} (hl : l < a'.levels) :
    a'.versions l ≤ a.versions (a.levels - 1) ↔ l ∈ unchanged a a' := by
  have hlast := hordered.below (a.levels - 1) (by omega)
  rw [unchanged, Finset.mem_filter, Finset.mem_range, Nat.lt_min]
  have hkept := h.kept_le
  by_cases hlt : l < kept
  · have hsame := h.same l hlt
    refine iff_of_true ?_ ⟨⟨by omega, hl⟩, hsame⟩
    rw [hsame]
    exact hordered.le (by omega) (by omega)
  · have hlater := h.later l (Nat.le_of_not_lt hlt) hl
    refine iff_of_false (by omega) fun hboth => ?_
    have hbelow := hordered.below l hboth.1.1
    have hsame := hboth.2
    omega

end ActiveLevels

/-! ## §3. The search is exact. -/

/-- The levels counted among those of the current versions. -/
def validLevels (vArray : ℕ → ℕ) (size lastVer : ℕ) : Finset ℕ :=
  (Finset.range size).filter fun l => vArray l ≤ lastVer

open ActiveLevels in
/-- **Validity by a single version is exact.**  For increasing versions, both
searches count the levels whose version is not above the stored one.  In every
run of region entries and exits after an access with at least one level active,
these are the levels of both that have kept their version since: they keep their
times, and all others read as 0. -/
theorem single_version_exact :
    (∀ (vArray : ℕ → ℕ) (size lastVer : ℕ), (∀ i j, i < j → j < size → vArray i < vArray j) →
      getStartInvalidLevel lastVer vArray size = (validLevels vArray size lastVer).card ∧
        STV.startInvalid lastVer vArray size = (validLevels vArray size lastVer).card) ∧
      ∀ (before since : List RegionEvent) (a a' : ActiveLevels),
        RunOk step Admissible start before → run step start before = some a → 1 ≤ a.levels →
        RunOk step Admissible a since → run step a since = some a' →
        ∀ lastVer, lastVer = a.versions (a.levels - 1) →
          getStartInvalidLevel lastVer a'.versions a'.levels = (unchanged a a').card ∧
          STV.startInvalid lastVer a'.versions a'.levels = (unchanged a a').card ∧
          ∀ l < a'.levels,
            (∀ line : TagVectorCacheLine, line.version = lastVer → ∀ destAddr : ℕ → Time,
              line.validateTag destAddr a'.versions a'.levels l
                = if l ∈ unchanged a a' then destAddr l else 0) ∧
            ∀ (tTable : ℕ → ℕ) (tAddr : ℕ),
              STV.tagValidate tTable tAddr lastVer a'.versions a'.levels (tAddr + l)
                = if l ∈ unchanged a a' then tTable (tAddr + l) else 0 := by
  have hcount : ∀ (vArray : ℕ → ℕ) (size lastVer : ℕ),
      (∀ i j, i < j → j < size → vArray i < vArray j) →
        getStartInvalidLevel lastVer vArray size = (validLevels vArray size lastVer).card ∧
          STV.startInvalid lastVer vArray size = (validLevels vArray size lastVer).card := by
    intro vArray size lastVer hinc
    refine ⟨eq_card_valid (getStartInvalidLevel_le lastVer vArray size) fun l hl => ?_,
      eq_card_valid (STV.startInvalid_spec lastVer vArray size).1 fun l hl => ?_⟩
    · exact lt_getStartInvalidLevel_iff_of_increasing hinc lastVer hl
    · exact lt_startInvalid_iff hinc lastVer hl
  refine ⟨hcount, ?_⟩
  rintro before since a a' hbefore hrun hlevels hsince hrun' _ rfl
  have hordered : a.Ordered :=
    run_invariant_of (fun _ _ _ h he hstep => h.step he hstep) ordered_start hbefore hrun
  obtain ⟨kept, hkept⟩ := since_run hordered hsince hrun'
  have hinc := hkept.ordered.lt
  have hiff := fun l hl => hkept.le_iff hordered hlevels (l := l) hl
  -- a level is at most the version stamped last exactly when it was open then and stayed open
  have hsame : validLevels a'.versions a'.levels (a.versions (a.levels - 1)) = unchanged a a' := by
    ext l
    rw [validLevels, Finset.mem_filter, Finset.mem_range]
    constructor
    · exact fun h => (hiff l h.1).mp h.2
    · intro h
      have hl : l < a'.levels :=
        (Nat.lt_min.mp (Finset.mem_range.mp (Finset.mem_filter.mp h).1)).2
      exact ⟨hl, (hiff l hl).mpr h⟩
  obtain ⟨hget, hstart⟩ := hcount a'.versions a'.levels (a.versions (a.levels - 1)) hinc
  rw [hsame] at hget hstart
  refine ⟨hget, hstart, fun l hl => ⟨?_, ?_⟩⟩
  · -- the cached line
    rintro line hline destAddr
    have hcut := lt_getStartInvalidLevel_iff_of_increasing hinc (a.versions (a.levels - 1)) hl
    rw [hiff l hl] at hcut
    unfold TagVectorCacheLine.validateTag
    rw [hline]
    by_cases hin : l ∈ unchanged a a'
    · rw [if_pos hin, if_neg fun h => absurd (hcut.mpr hin) (Nat.not_lt_of_le h.1)]
    · rw [if_neg hin, if_pos ⟨Nat.le_of_not_lt fun h => hin (hcut.mp h), hl⟩]
  · -- the row of the single-version memory
    intro tTable tAddr
    have hcut := lt_startInvalid_iff hinc (a.versions (a.levels - 1)) hl
    rw [hiff l hl] at hcut
    unfold STV.tagValidate overwrite
    by_cases hin : l ∈ unchanged a a'
    · have hlt := hcut.mpr hin
      rw [if_pos hin, if_neg (by omega)]
    · have hge := Nat.le_of_not_lt fun h => hin (hcut.mp h)
      rw [if_neg hin, if_pos (by omega)]
      rfl

open ActiveLevels in
/-- Three regions are entered before the access; two are left since, and another one is
entered: the outer level is kept, the inner one reads as 0. -/
theorem single_version_exact_reentered :
    getStartInvalidLevel 3 (fun l => 2 * l + 1) 4 = 2 ∧
      STV.startInvalid 3 (fun l => 2 * l + 1) 4 = 2 ∧
      ∃ a a', run step start [.enter 1, .enter 2, .enter 3] = some a ∧
        run step a [.exit, .exit, .enter 5] = some a' ∧
        getStartInvalidLevel 3 a'.versions a'.levels = 1 ∧
        STV.startInvalid 3 a'.versions a'.levels = 1 ∧
        ∀ line : TagVectorCacheLine, line.version = 3 → ∀ destAddr : ℕ → Time,
          line.validateTag destAddr a'.versions a'.levels 0 = destAddr 0 ∧
            line.validateTag destAddr a'.versions a'.levels 1 = 0 := by
  obtain ⟨hcount, hruns⟩ := single_version_exact
  have hcard : (validLevels (fun l => 2 * l + 1) 4 3).card = 2 := by decide
  obtain ⟨hget, hstart⟩ := hcount (fun l => 2 * l + 1) 4 3 fun i j hij _ => by omega
  let a := ((start.enter 1).enter 2).enter 3
  let a' := a.exit.exit.enter 5
  obtain ⟨hget', hstart', htimes⟩ := hruns [.enter 1, .enter 2, .enter 3]
    [.exit, .exit, .enter 5] a a' (by decide) rfl (by decide) (by decide) rfl 3 rfl
  have hunchanged : unchanged a a' = {0} := by decide
  rw [hunchanged] at hget' hstart' htimes
  refine ⟨hget.trans hcard, hstart.trans hcard, a, a', rfl, rfl, hget', hstart', ?_⟩
  intro line hline destAddr
  exact ⟨(htimes 0 (by decide)).1 line hline destAddr, (htimes 1 (by decide)).1 line hline destAddr⟩

end Kremlin.Shadow
