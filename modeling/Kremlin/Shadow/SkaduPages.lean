/-
  Kremlin.Shadow.SkaduPages — what one page says about its words.

  A level of a page is current when it has a table and the table's version is
  the one the level has now; every other level reads as 0.  The levels of a page
  are written from level 0 on, by the regions active at that time, so a current
  level has current levels above it.  That is why a collection of garbage, in
  either form, cuts the page off at some level (`keep`) and loses no current one
  — also where it meets a page that is packed.

  §4 says what the page holds: at every active level, the times of a reference
  map of 8-byte words.
-/
import Kremlin.Shadow.ActiveLevels
import Kremlin.Shadow.MShadowSkadu

namespace Kremlin.Shadow

open Kremlin.Library

namespace LevelTable

/-! ## §1. Current levels. -/

/-- The level has a table, and of the version given. -/
def Current (lt : LevelTable) (versions : ℕ → ℕ) (l : ℕ) : Prop :=
  lt.time_tables l ≠ .null ∧ lt.versions l = versions l

/-- The tables were written by the active regions or by regions before them. -/
structure Written (lt : LevelTable) (a : ActiveLevels) : Prop where
  seen : ∀ l < MAX_LEVEL, lt.time_tables l ≠ .null → lt.versions l < a.next
  old : ∀ l < MAX_LEVEL, lt.time_tables l ≠ .null → lt.versions l ≤ a.versions l
  closed : ∀ i j, i < j → j < a.levels → j < MAX_LEVEL →
    lt.Current a.versions j → lt.Current a.versions i

/-- The page with its first `m` levels only. -/
def keep (lt : LevelTable) (m : ℕ) : LevelTable :=
  { lt with time_tables := fun l => if m ≤ l ∧ l < MAX_LEVEL then .null else lt.time_tables l }

theorem keep_of_lt (lt : LevelTable) {m l : ℕ} (h : l < m) :
    (lt.keep m).time_tables l = lt.time_tables l := if_neg (by omega)

theorem keep_of_le (lt : LevelTable) {m l : ℕ} (h : m ≤ l) (hl : l < MAX_LEVEL) :
    (lt.keep m).time_tables l = .null := if_pos ⟨h, hl⟩

/-- What is there after cutting was there before. -/
theorem ne_null_of_keep {lt : LevelTable} {m l : ℕ} (hl : l < MAX_LEVEL)
    (h : (lt.keep m).time_tables l ≠ .null) : l < m ∧ lt.time_tables l ≠ .null := by
  by_cases hm : l < m
  · rw [keep_of_lt lt hm] at h
    exact ⟨hm, h⟩
  · exact absurd (lt.keep_of_le (by omega) hl) h

variable {lt : LevelTable} {a : ActiveLevels}

/-- Below a level that is not current no level is. -/
theorem Written.stale (h : lt.Written a) {m l : ℕ} (hm : ¬lt.Current a.versions m)
    (hml : m ≤ l) (hl : l < a.levels) (hmax : l < MAX_LEVEL) : ¬lt.Current a.versions l := by
  rcases Nat.lt_or_eq_of_le hml with hlt | heq
  · exact fun hc => hm (h.closed m l hlt hl hmax hc)
  · exact heq ▸ hm

theorem Written.keep (h : lt.Written a) (m : ℕ) : (lt.keep m).Written a where
  seen l hl hne := h.seen l hl (ne_null_of_keep hl hne).2
  old l hl hne := h.old l hl (ne_null_of_keep hl hne).2
  closed i j hij hj hmax hc := by
    obtain ⟨hjm, hne⟩ := ne_null_of_keep hmax hc.1
    obtain ⟨hi, hver⟩ := h.closed i j hij hj hmax ⟨hne, hc.2⟩
    refine ⟨?_, hver⟩
    rw [keep_of_lt lt (by omega)]
    exact hi

/-- A level that the search for the lowest invalid one stops at is not current. -/
theorem not_current_lowestInvalid {n : ℕ}
    (h : lt.lowestInvalidFrom a.versions n 0 < n) :
    ¬lt.Current a.versions (lt.lowestInvalidFrom a.versions n 0) := by
  intro hc
  have hstop : lt.lowestInvalidFrom a.versions n 0 < 0 + n := by omega
  rcases lowestInvalidFrom_invalid hstop with hnull | hver
  · exact hc.1 hnull
  · exact absurd hc.2 (Nat.ne_of_lt hver)

/-- **The unbounded collection** cuts the page at the lowest invalid level. -/
theorem Written.unbounded_eq_keep (h : lt.Written a) (hlevels : a.levels ≤ MAX_LEVEL) :
    ∃ m, (lt.collectGarbageUnbounded a.versions).1 = lt.keep m ∧
      ∀ l, m ≤ l → l < a.levels → ¬lt.Current a.versions l := by
  obtain ⟨-, hle, -⟩ := lt.lowestInvalidFrom_le a.versions MAX_LEVEL 0
  refine ⟨lt.findLowestInvalidIndex a.versions, ?_, ?_⟩
  · unfold collectGarbageUnbounded cleanTimeTablesFromLevel
    rw [deleteLevels_eq]
    unfold findLowestInvalidIndex LevelTable.keep
    congr 1
    funext l
    have hiff : lt.lowestInvalidFrom a.versions MAX_LEVEL 0 ≤ l ∧
        l < lt.lowestInvalidFrom a.versions MAX_LEVEL 0
          + (MAX_LEVEL - lt.lowestInvalidFrom a.versions MAX_LEVEL 0) ∧ true = true ↔
        lt.lowestInvalidFrom a.versions MAX_LEVEL 0 ≤ l ∧ l < MAX_LEVEL := by
      rw [and_iff_left rfl]
      omega
    exact if_congr hiff rfl rfl
  · intro l hml hl
    unfold findLowestInvalidIndex at hml
    exact h.stale (not_current_lowestInvalid (by omega)) hml hl (by omega)

/-- **The collection within bounds** cuts it at the first level that is not
current. -/
theorem Written.withinBounds_eq_keep (h : lt.Written a) (hlevels : a.levels ≤ MAX_LEVEL) :
    ∃ m, (lt.collectGarbageWithinBounds a.versions a.levels).1 = lt.keep m ∧
      ∀ l, m ≤ l → l < a.levels → ¬lt.Current a.versions l := by
  obtain ⟨-, hle, hvalid⟩ := lt.lowestInvalidFrom_le a.versions a.levels 0
  refine ⟨lt.lowestInvalidFrom a.versions a.levels 0, ?_, ?_⟩
  · unfold collectGarbageWithinBounds cleanTimeTablesFromLevel
    rw [deleteLevels_eq, deleteLevels_eq]
    unfold LevelTable.keep
    congr 1
    funext l
    dsimp only
    by_cases hl : l < a.levels
    · rw [if_neg (by omega)]
      by_cases hm : l < lt.lowestInvalidFrom a.versions a.levels 0
      · -- a current level stays
        have hver := (hvalid l (Nat.zero_le l) hm).2
        have hcut : ¬(lt.lowestInvalidFrom a.versions a.levels 0 ≤ l ∧ l < MAX_LEVEL) := by omega
        have hspared : ¬(0 ≤ l ∧ l < 0 + a.levels ∧
            decide (lt.versions l < a.versions l) = true) := by
          rw [decide_eq_true_eq]
          omega
        rw [if_neg hcut, if_neg hspared]
      · rw [if_pos (show _ ≤ l ∧ l < MAX_LEVEL by omega)]
        have hstale : ¬lt.Current a.versions l :=
          h.stale (not_current_lowestInvalid (by omega)) (Nat.le_of_not_lt hm) hl (by omega)
        by_cases hnull : lt.time_tables l = .null
        · rw [hnull, ite_self]
        · have hold := h.old l (by omega) hnull
          have hne : lt.versions l ≠ a.versions l := fun heq => hstale ⟨hnull, heq⟩
          exact if_pos ⟨by omega, by omega, decide_eq_true (by omega)⟩
    · by_cases hmax : l < MAX_LEVEL
      · rw [if_pos ⟨by omega, by omega, rfl⟩, if_pos (by omega)]
      · rw [if_neg (by omega), if_neg (by omega), if_neg (by omega)]
  · intro l hml hl
    exact h.stale (not_current_lowestInvalid (by omega)) hml hl (by omega)

/-! ## §2. Packed pages. -/

theorem Occupies.keep {k : ℕ} (h : lt.Occupies k) (m : ℕ) : (lt.keep m).Occupies (min k m) := by
  intro l hl
  by_cases hm : l < m
  · have hiff : l < min k m ↔ l < k := by omega
    simp only [hiff, keep_of_lt lt hm]
    exact h l hl
  · rw [if_neg (by omega)]
    exact lt.keep_of_le (by omega) hl

theorem tableAt_keep (lt : LevelTable) {m l : ℕ} (h : l < m) :
    (lt.keep m).tableAt l = lt.tableAt l := by
  unfold tableAt
  rw [keep_of_lt lt h]

/-- Packing and cutting commute. -/
theorem packed_keep (lzo : Lzo) (lt : LevelTable) {k : ℕ} (hk : k ≤ MAX_LEVEL) (m : ℕ) :
    (packed lzo lt k).keep m = packed lzo (lt.keep m) (min k m) := by
  simp only [packed, LevelTable.keep]
  congr 1
  funext l
  by_cases hm : l < m
  · have hzero : (LevelTable.keep lt m).tableAt 0 = lt.tableAt 0 := lt.tableAt_keep (by omega)
    rw [if_neg (by omega)]
    have hiff : l < min k m ↔ l < k := by omega
    have hcut : ¬(m ≤ l ∧ l < MAX_LEVEL) := by omega
    simp only [hiff, if_neg hcut]
    by_cases hl : l = 0
    · subst hl
      simp only [if_true]
      exact congrArg (fun t => if 0 < k then TimeTablePtr.table (pack lzo t t.array)
        else lt.time_tables 0) hzero.symm
    · have hprev : (LevelTable.keep lt m).tableAt (l - 1) = lt.tableAt (l - 1) :=
        lt.tableAt_keep (by omega)
      have hhere : (LevelTable.keep lt m).tableAt (l - 1 + 1) = lt.tableAt (l - 1 + 1) :=
        lt.tableAt_keep (by omega)
      have hpacked : packedAt lzo (LevelTable.keep lt m) (l - 1) = packedAt lzo lt (l - 1) := by
        unfold packedAt
        rw [hprev, hhere]
      simp only [if_neg hl]
      exact congrArg (fun t => if l < k then TimeTablePtr.table t else lt.time_tables l)
        hpacked.symm
  · by_cases hmax : l < MAX_LEVEL
    · rw [if_pos ⟨by omega, hmax⟩, if_neg (by omega), if_pos ⟨by omega, hmax⟩]
    · rw [if_neg (by omega), if_neg (by omega), if_neg (by omega), if_neg (by omega)]

/-- Cutting a page leaves the tables it keeps as they are. -/
theorem Intact.keep (h : lt.Intact) (m : ℕ) : (lt.keep m).Intact := by
  intro l hl t ht
  by_cases hm : l < m
  · rw [keep_of_lt lt hm] at ht
    exact h l hl t ht
  · rw [lt.keep_of_le (by omega) hl] at ht
    cases ht

/-- Deleting tables leaves the others as they are. -/
theorem Intact.deleteLevels (h : lt.Intact) (doomed : ℕ → Bool) (n i : ℕ) :
    (lt.deleteLevels doomed n i).1.Intact := by
  rw [deleteLevels_eq]
  intro l hl t
  dsimp only
  split
  · intro hnull
    cases hnull
  · exact h l hl t

theorem Intact.collectWithinBounds (h : lt.Intact) (versions : ℕ → ℕ) (size : ℕ) :
    (lt.collectGarbageWithinBounds versions size).1.Intact :=
  (h.deleteLevels _ _ _).deleteLevels _ _ _

/-- The page is `plain`, an unpacked page of `k` levels, or that page packed. -/
structure Stores (lzo : Lzo) (lt plain : LevelTable) (k : ℕ) : Prop where
  flag : plain.compressed = false
  le : k ≤ MAX_LEVEL
  occupies : plain.Occupies k
  eq : lt = plain ∨ lt = packed lzo plain k

variable {lzo : Lzo} {plain : LevelTable} {k : ℕ}

theorem Stores.keep (h : Stores lzo lt plain k) (m : ℕ) :
    Stores lzo (lt.keep m) (plain.keep m) (min k m) where
  flag := h.flag
  le := by
    have := h.le
    omega
  occupies := h.occupies.keep m
  eq := by
    rcases h.eq with rfl | rfl
    · exact .inl rfl
    · exact .inr (packed_keep lzo plain h.le m)

/-- An unpacked page is its own plain page. -/
theorem Stores.plain_eq (h : Stores lzo lt plain k) (hflag : lt.compressed = false) :
    lt = plain := by
  rcases h.eq with rfl | rfl
  · rfl
  · cases hflag

theorem Stores.packed_eq (h : Stores lzo lt plain k) (hflag : lt.compressed = true) :
    lt = packed lzo plain k := by
  rcases h.eq with rfl | rfl
  · exact absurd (hflag.symm.trans h.flag) (by decide)
  · rfl

/-- Packing leaves the levels that have a table, and their versions. -/
theorem Stores.current_iff (h : Stores lzo lt plain k) (versions : ℕ → ℕ) (l : ℕ) :
    lt.Current versions l ↔ plain.Current versions l := by
  rcases h.eq with rfl | rfl
  · exact Iff.rfl
  · refine and_congr_left fun _ => not_congr ?_
    by_cases hk : l < k
    · have hhere : (packed lzo plain k).time_tables l ≠ .null := by
        show (if l < k then TimeTablePtr.table _ else _) ≠ _
        rw [if_pos hk]
        intro hno
        cases hno
      have hthere : plain.time_tables l ≠ .null := by
        rw [(h.occupies.table h.le hk).1]
        intro hno
        cases hno
      exact iff_of_false hhere hthere
    · have hhere : (packed lzo plain k).time_tables l = plain.time_tables l := if_neg hk
      rw [hhere]

theorem Stores.written (h : Stores lzo lt plain k) (hplain : plain.Written a) :
    lt.Written a := by
  have hversions : lt.versions = plain.versions := by
    rcases h.eq with rfl | rfl <;> rfl
  have hne : ∀ l, lt.time_tables l ≠ .null → plain.time_tables l ≠ .null := by
    intro l hnull
    exact ((h.current_iff lt.versions l).mp ⟨hnull, rfl⟩).1
  constructor
  · intro l hl hnull
    rw [hversions]
    exact hplain.seen l hl (hne l hnull)
  · intro l hl hnull
    rw [hversions]
    exact hplain.old l hl (hne l hnull)
  · intro i j hij hj hmax hc
    rw [h.current_iff] at hc ⊢
    exact hplain.closed i j hij hj hmax hc

/-! ## §3. Reading and writing a level. -/

/-- A level that is not current reads as 0. -/
theorem getTime_of_not_current {versions : ℕ → ℕ} {l : ℕ} (h : ¬lt.Current versions l)
    (addr : ℕ) : lt.getTimeForAddrAtLevel l addr (versions l) = some 0 := by
  unfold getTimeForAddrAtLevel
  by_cases hver : lt.versions l = versions l
  · have hnull : lt.time_tables l = .null := by
      by_contra hne
      exact h ⟨hne, hver⟩
    rw [if_pos hver, hnull]
  · exact if_neg hver

/-- **A write at one level of an unpacked page** is read back from its word; the
other words of the page read as before. -/
theorem setTime_spec {level addr : ℕ} (ver : ℕ) (value : Time) (haligned : addr % 8 = 0)
    (hpage : lt.time_tables level = .null ∨ ∃ t, lt.time_tables level = .table t ∧ Plain t) :
    ∃ lt' es, lt.setTimeForAddrAtLevel level addr ver value .type_64bit = some (lt', es) ∧
      (∃ t, lt'.time_tables level = .table t ∧ Plain t) ∧
      ∀ word, TimeTable.page addr = TimeTable.page word →
        lt'.getTimeForAddrAtLevel level word ver
          = if addr / 8 = word / 8 then some value
            else lt.getTimeForAddrAtLevel level word ver := by
  -- the table that is written to: all its other words read as the page did
  have hwrite : ∀ t : TimeTable, Plain t →
      (∀ word, some (t.getTimeAtAddr word) = lt.getTimeForAddrAtLevel level word ver) →
      Plain (t.setTimeAtAddr addr value .type_64bit) ∧
      ∀ word, TimeTable.page addr = TimeTable.page word →
        ((lt.setTimeTableAtLevel level (.table (t.setTimeAtAddr addr value
          .type_64bit))).setVersionAtLevel level ver).getTimeForAddrAtLevel level word ver
          = if addr / 8 = word / 8 then some value
            else lt.getTimeForAddrAtLevel level word ver := by
    intro t ht hsame
    have hsized : t.Sized := by
      unfold TimeTable.Sized
      rw [ht.length, ht.type]
      rfl
    refine ⟨⟨ht.type, ht.size, ?_⟩, ?_⟩
    · have hlen := hsized.setTimeAtAddr addr value .type_64bit
      unfold TimeTable.Sized at hlen
      rw [TimeTable.type_setTimeAtAddr, ht.type] at hlen
      exact hlen
    · intro word hword
      have hwidth : TableType.type_64bit = .type_32bit → t.type = .type_32bit := by
        intro hno
        cases hno
      have hread : (t.setTimeAtAddr addr value .type_64bit).getTimeAtAddr word
          = if TimeTable.Covers .type_64bit addr word then value else t.getTimeAtAddr word :=
        TimeTable.getTimeAtAddr_setTimeAtAddr hsized hwidth (fun _ => haligned) hword
      unfold getTimeForAddrAtLevel
      simp only [versions_setVersionAtLevel, Function.update_self, if_true,
        time_tables_setVersionAtLevel, time_tables_setTimeTableAtLevel]
      rw [hread]
      by_cases hc : addr / 8 = word / 8
      · rw [if_pos hc, if_pos (show TimeTable.Covers .type_64bit addr word from hc)]
      · rw [if_neg hc, if_neg (show ¬TimeTable.Covers .type_64bit addr word from hc)]
        exact hsame word
  unfold setTimeForAddrAtLevel
  rcases hpage with hnull | ⟨t, ht, hplain⟩
  · rw [hnull]
    have hnew : Plain (.new .type_64bit) := ⟨rfl, rfl, TimeTable.sized_new .type_64bit⟩
    obtain ⟨hplain', hread⟩ := hwrite _ hnew fun word => by
      unfold getTimeForAddrAtLevel
      rw [hnull, TimeTable.getTimeAtAddr_new, ite_self]
    exact ⟨_, _, rfl, ⟨_, Function.update_self _ _ _, hplain'⟩, hread⟩
  · rw [ht]
    dsimp only
    rw [if_neg (by simp)]
    by_cases hver : lt.versions level = ver
    · obtain ⟨hplain', hread⟩ := hwrite t hplain fun word => by
        unfold getTimeForAddrAtLevel
        rw [if_pos hver, ht]
      rw [if_pos hver]
      exact ⟨_, _, rfl, ⟨_, Function.update_self _ _ _, hplain'⟩, hread⟩
    · -- another version: the table is cleaned first
      have hclean : Plain t.clean := by
        refine ⟨hplain.type, hplain.size, ?_⟩
        have hlen := TimeTable.Sized.clean t
        unfold TimeTable.Sized at hlen
        rw [TimeTable.type_clean, hplain.type] at hlen
        exact hlen
      obtain ⟨hplain', hread⟩ := hwrite t.clean hclean fun word => by
        unfold getTimeForAddrAtLevel
        rw [if_neg hver, TimeTable.getTimeAtAddr_clean]
      rw [if_neg hver]
      exact ⟨_, _, rfl, ⟨_, Function.update_self _ _ _, hplain'⟩, hread⟩

/-! ## §4. What a page holds. -/

/-- **At every active level the words of page `pg` read as the reference map has
them.** -/
structure Holds (lt : LevelTable) (a : ActiveLevels) (ref : VersionedMap ℕ) (pg : ℕ) : Prop
    extends Written lt a where
  reads : ∀ addr, TimeTable.page addr = pg → ∀ l < a.levels, l < MAX_LEVEL →
    (lt.getTimeForAddrAtLevel l addr (a.versions l)).map BitVec.toNat
      = some (ref.view a.versions (addr / 8) l)

variable {ref : VersionedMap ℕ} {pg : ℕ}

/-- A new page holds nothing. -/
theorem holds_new (compressed : Bool)
    (hzero : ∀ addr, TimeTable.page addr = pg → ∀ l < a.levels, l < MAX_LEVEL →
      ref.view a.versions (addr / 8) l = 0) : (new compressed).Holds a ref pg where
  seen _ _ hne := absurd rfl hne
  old _ _ hne := absurd rfl hne
  closed _ _ _ _ _ hc := absurd rfl hc.1
  reads addr hpage l hl hmax := by
    have hnot : ¬(new compressed).Current a.versions l := fun hc => hc.1 rfl
    rw [getTime_of_not_current hnot, hzero addr hpage l hl hmax]
    rfl

/-- **A region is entered**: no level has its version yet. -/
theorem Holds.enter (h : lt.Holds a ref pg) (hbelow : ref.Below a.next) {version : ℕ}
    (hnew : a.next ≤ version) : lt.Holds (a.enter version) ref pg := by
  have hlevel : ∀ l < (a.enter version).levels, l ≠ a.levels → l < a.levels := by
    intro l hl hne
    have := Nat.le_of_lt_succ hl
    omega
  have hfresh : a.levels < MAX_LEVEL →
      ¬lt.Current (a.enter version).versions a.levels := by
    intro hmax hc
    have hseen := h.seen a.levels hmax hc.1
    have hver := hc.2
    rw [a.versions_enter_self] at hver
    omega
  have hsame : ∀ l < a.levels, (lt.Current (a.enter version).versions l ↔
      lt.Current a.versions l) := by
    intro l hl
    unfold Current
    rw [a.versions_enter_of_lt version hl]
  refine ⟨⟨?_, ?_, ?_⟩, ?_⟩
  · intro l hl hne
    have hle : a.next ≤ (a.enter version).next := Nat.le_succ_of_le hnew
    exact Nat.lt_of_lt_of_le (h.seen l hl hne) hle
  · intro l hl hne
    show _ ≤ Function.update a.versions a.levels version l
    rw [Function.update_apply]
    split
    · have hseen := h.seen l hl hne
      omega
    · exact h.old l hl hne
  · intro i j hij hj hmax hc
    by_cases hlast : j = a.levels
    · subst hlast
      exact absurd hc (hfresh hmax)
    · have hjl := hlevel j hj hlast
      rw [hsame i (by omega)]
      exact h.closed i j hij hjl hmax ((hsame j hjl).mp hc)
  · intro addr hpage l hl hmax
    rw [ActiveLevels.view_enter hbelow hnew _ hl]
    by_cases hlast : l = a.levels
    · subst hlast
      rw [getTime_of_not_current (hfresh hmax), if_neg (Nat.lt_irrefl _)]
      rfl
    · have hll := hlevel l hl hlast
      rw [if_pos hll, a.versions_enter_of_lt version hll]
      exact h.reads addr hpage l hll hmax

/-- **A region is left**: the other levels are as they were. -/
theorem Holds.exit (h : lt.Holds a ref pg) : lt.Holds a.exit ref pg where
  seen := h.seen
  old := h.old
  closed i j hij hj := h.closed i j hij (Nat.lt_of_lt_of_le hj (Nat.sub_le _ _))
  reads addr hpage l hl := h.reads addr hpage l (Nat.lt_of_lt_of_le hl (Nat.sub_le _ _))

/-- **Cutting levels that are not current** loses nothing. -/
theorem Holds.keep (h : lt.Holds a ref pg) {m : ℕ}
    (hstale : ∀ l, m ≤ l → l < a.levels → ¬lt.Current a.versions l) :
    (lt.keep m).Holds a ref pg where
  toWritten := h.toWritten.keep m
  reads addr hpage l hl hmax := by
    rw [← h.reads addr hpage l hl hmax]
    by_cases hm : l < m
    · unfold getTimeForAddrAtLevel
      rw [keep_of_lt lt hm]
      rfl
    · have hcut : ¬(lt.keep m).Current a.versions l :=
        fun hc => hc.1 (lt.keep_of_le (Nat.le_of_not_lt hm) hmax)
      rw [getTime_of_not_current hcut,
        getTime_of_not_current (hstale l (Nat.le_of_not_lt hm) hl)]

/-- A write to a word of another page. -/
theorem Holds.store_other (h : lt.Holds a ref pg) {addr : ℕ} (hpage : TimeTable.page addr ≠ pg)
    (n : ℕ) (times : ℕ → ℕ) : lt.Holds a (ref.store a.versions (addr / 8) n times) pg where
  toWritten := h.toWritten
  reads word hword l hl hmax := by
    have hne : ¬(word / 8 = addr / 8 ∧ l < n) := by
      rintro ⟨heq, -⟩
      apply hpage
      rw [← hword]
      unfold TimeTable.page
      omega
    rw [VersionedMap.view_store, if_neg hne]
    exact h.reads word hword l hl hmax

/-- The loop of `get`. -/
theorem readLevels_eq {addr size : ℕ} {curr_versions : ℕ → ℕ} {times : ℕ → Time}
    (h : ∀ l < size, lt.getTimeForAddrAtLevel l addr (curr_versions l) = some (times l)) :
    MShadowSkadu.readLevels lt addr curr_versions size
      = some ((List.range size).map times) := by
  unfold MShadowSkadu.readLevels
  induction size with
  | zero => rfl
  | succ n ih =>
      rw [List.range_succ, List.mapM_append, ih fun l hl => h l (Nat.lt_succ_of_lt hl),
        List.map_append]
      simp [h n (Nat.lt_succ_self n)]

/-- **The loop of `set`** fills levels `i, …, i + n - 1` with current tables. -/
theorem writeLevels_spec {addr : ℕ} (haligned : addr % 8 = 0) (curr_versions : ℕ → ℕ)
    (times : ℕ → Time) {n i k : ℕ} (hocc : lt.Occupies k) (hik : i ≤ k) (hmax : i + n ≤ MAX_LEVEL) :
    ∃ lt' es, MShadowSkadu.writeLevels false addr curr_versions times n i lt = some (lt', es) ∧
      lt'.compressed = lt.compressed ∧ lt'.Occupies (max k (i + n)) ∧
      (∀ l, lt'.versions l = if i ≤ l ∧ l < i + n then curr_versions l else lt.versions l) ∧
      (∀ l, ¬(i ≤ l ∧ l < i + n) → lt'.time_tables l = lt.time_tables l) ∧
      ∀ l, i ≤ l → l < i + n → ∀ word, TimeTable.page addr = TimeTable.page word →
        lt'.getTimeForAddrAtLevel l word (curr_versions l)
          = if addr / 8 = word / 8 then some (times l)
            else lt.getTimeForAddrAtLevel l word (curr_versions l) := by
  induction n generalizing i lt k with
  | zero =>
      have hnone : ∀ l, ¬(i ≤ l ∧ l < i + 0) := by omega
      refine ⟨lt, [], rfl, rfl, ?_, ?_, fun _ _ => rfl, ?_⟩
      · rw [Nat.add_zero, Nat.max_eq_left hik]
        exact hocc
      · intro l
        rw [if_neg (hnone l)]
      · intro l hil hl
        exact absurd ⟨hil, hl⟩ (hnone l)
  | succ n ih =>
      have hhere : lt.time_tables i = .null ∨ ∃ t, lt.time_tables i = .table t ∧ Plain t := by
        have hi := hocc i (by omega)
        split at hi
        · exact .inr hi
        · exact .inl hi
      obtain ⟨lt₁, es₁, hone, ⟨t, ht, hplain⟩, hread₁⟩ :=
        setTime_spec (curr_versions i) (times i) haligned hhere
      have hver₁ := versions_of_set hone
      have htab₁ : ∀ l, l ≠ i → lt₁.time_tables l = lt.time_tables l :=
        fun l hl => time_tables_of_set hone hl
      have hocc₁ : lt₁.Occupies (max k (i + 1)) := by
        intro l hl
        by_cases hli : l = i
        · subst hli
          rw [if_pos (by omega)]
          exact ⟨t, ht, hplain⟩
        · have hiff : l < max k (i + 1) ↔ l < k := by omega
          simp only [hiff, htab₁ l hli]
          exact hocc l hl
      obtain ⟨lt₂, es₂, hrest, hflag₂, hocc₂, hver₂, htab₂, hread₂⟩ :=
        ih hocc₁ (show i + 1 ≤ max k (i + 1) by omega) (by omega)
      refine ⟨lt₂, es₁ ++ es₂, ?_, hflag₂.trans (compressed_of_set hone), ?_, ?_, ?_, ?_⟩
      · unfold MShadowSkadu.writeLevels
        rw [if_neg (by simp), hone]
        show (MShadowSkadu.writeLevels false addr curr_versions times n (i + 1) lt₁).bind _ = _
        rw [hrest]
        rfl
      · have hmaxk : max (max k (i + 1)) (i + 1 + n) = max k (i + (n + 1)) := by omega
        rw [← hmaxk]
        exact hocc₂
      · intro l
        rw [hver₂, hver₁, Function.update_apply]
        by_cases hli : l = i
        · subst hli
          rw [if_neg (by omega), if_pos rfl, if_pos (by omega)]
        · have hiff : i + 1 ≤ l ∧ l < i + 1 + n ↔ i ≤ l ∧ l < i + (n + 1) := by omega
          simp only [hiff, if_neg hli]
      · intro l hl
        rw [htab₂ l (by omega), htab₁ l (by omega)]
      · intro l hil hl word hword
        by_cases hli : l = i
        · subst hli
          -- the later rounds leave this level alone
          rw [← hread₁ word hword]
          have hlater : ¬(l + 1 ≤ l ∧ l < l + 1 + n) := by omega
          unfold getTimeForAddrAtLevel
          rw [hver₂, if_neg hlater, htab₂ l hlater]
        · rw [hread₂ l (by omega) (by omega) word hword]
          unfold getTimeForAddrAtLevel
          rw [hver₁, Function.update_of_ne hli, htab₁ l hli]

/-- How far the loop gets that stops at the first time 0. -/
theorem writeLevels_stop (addr : ℕ) (curr_versions : ℕ → ℕ) (times : ℕ → Time) (n i : ℕ) :
    ∃ m ≤ n, (∀ lt, MShadowSkadu.writeLevels true addr curr_versions times n i lt
        = MShadowSkadu.writeLevels false addr curr_versions times m i lt) ∧
      (∀ l, i ≤ l → l < i + m → times l ≠ 0) ∧ (m < n → times (i + m) = 0) := by
  induction n generalizing i with
  | zero =>
      refine ⟨0, Nat.le_refl 0, fun _ => rfl, ?_, fun h => absurd h (Nat.lt_irrefl 0)⟩
      intro l h h'
      omega
  | succ n ih =>
      by_cases hzero : times i = 0
      · refine ⟨0, Nat.zero_le _, ?_, ?_, fun _ => hzero⟩
        · intro lt
          unfold MShadowSkadu.writeLevels
          rw [if_pos ⟨rfl, hzero⟩]
        · intro l h h'
          omega
      · obtain ⟨m, hm, hrest, hne, hstop⟩ := ih (i + 1)
        have hgo : ¬(true = true ∧ times i = 0) := fun h => hzero h.2
        refine ⟨m + 1, by omega, ?_, ?_, ?_⟩
        · intro lt
          unfold MShadowSkadu.writeLevels
          rw [if_neg hgo, if_neg (by simp)]
          simp only [hrest]
        · intro l h h'
          by_cases hl : l = i
          · exact hl ▸ hzero
          · exact hne l (by omega) (by omega)
        · intro h
          rw [show i + (m + 1) = i + 1 + m by omega]
          exact hstop (by omega)

/-- **A write at the first `n` levels** makes them current.  It may go beyond the
active levels, or end before the last of them. -/
theorem Holds.write (h : lt.Holds a ref pg) {k : ℕ} (hk : k ≤ MAX_LEVEL) (hocc : lt.Occupies k)
    {n : ℕ} (hissued : ∀ l < n, a.versions l < a.next) (hmax : n ≤ MAX_LEVEL) {addr : ℕ}
    (haligned : addr % 8 = 0) (hpage : TimeTable.page addr = pg) (times : ℕ → Time) :
    ∃ lt' es k', MShadowSkadu.writeLevels false addr a.versions times n 0 lt = some (lt', es) ∧
      lt'.compressed = lt.compressed ∧ k' ≤ MAX_LEVEL ∧ lt'.Occupies k' ∧
      lt'.Holds a (ref.store a.versions (addr / 8) n fun l => (times l).toNat) pg := by
  obtain ⟨lt', es, hwrite, hflag, hocc', hver, htab, hread⟩ :=
    writeLevels_spec haligned a.versions times hocc (Nat.zero_le k)
      (show 0 + n ≤ MAX_LEVEL by omega)
  -- a level below `n` holds the current version, the others are untouched
  have hwritten : ∀ l < n, lt'.Current a.versions l := by
    intro l hl
    constructor
    · rw [(hocc'.table (by omega) (show l < max k (0 + n) by omega)).1]
      intro hno
      cases hno
    · rw [hver l, if_pos (by omega)]
  have hkept : ∀ l, ¬l < n →
      lt'.time_tables l = lt.time_tables l ∧ lt'.versions l = lt.versions l := by
    intro l hl
    exact ⟨htab l (by omega), (hver l).trans (if_neg (by omega))⟩
  have hcurrent : ∀ l, ¬l < n → (lt'.Current a.versions l ↔ lt.Current a.versions l) := by
    intro l hl
    unfold Current
    rw [(hkept l hl).1, (hkept l hl).2]
  refine ⟨lt', es, max k (0 + n), hwrite, hflag, by omega, hocc', ⟨⟨?_, ?_, ?_⟩, ?_⟩⟩
  · intro l hl hne
    by_cases hln : l < n
    · rw [(hwritten l hln).2]
      exact hissued l hln
    · rw [(hkept l hln).1] at hne
      rw [(hkept l hln).2]
      exact h.seen l hl hne
  · intro l hl hne
    by_cases hln : l < n
    · exact Nat.le_of_eq (hwritten l hln).2
    · rw [(hkept l hln).1] at hne
      rw [(hkept l hln).2]
      exact h.old l hl hne
  · -- current levels stay closed downward
    intro i j hij hj hjmax hc
    by_cases hin : i < n
    · exact hwritten i hin
    · rw [hcurrent j (by omega)] at hc
      rw [hcurrent i hin]
      exact h.closed i j hij hj hjmax hc
  · intro word hword l hl hlmax
    -- a level below `n` reads the new times at the word and the old ones elsewhere
    have hsamepage : TimeTable.page addr = TimeTable.page word := by rw [hpage, hword]
    rw [VersionedMap.view_store]
    by_cases hln : l < n
    · rw [hread l (Nat.zero_le l) (by omega) word hsamepage]
      by_cases hw : addr / 8 = word / 8
      · rw [if_pos hw, if_pos ⟨hw.symm, hln⟩]
        rfl
      · rw [if_neg hw, if_neg fun hc => hw hc.1.symm]
        exact h.reads word hword l hl hlmax
    · rw [if_neg fun hc => hln hc.2, ← h.reads word hword l hl hlmax]
      unfold getTimeForAddrAtLevel
      rw [(hkept l hln).1, (hkept l hln).2]

/-! ## §5. What a page holds, packed or not. -/

/-- The page, or the one it was packed from, holds the times of page `pg`. -/
def Stored (lzo : Lzo) (a : ActiveLevels) (ref : VersionedMap ℕ) (pg : ℕ) (lt : LevelTable) :
    Prop :=
  ∃ plain k, Stores lzo lt plain k ∧ plain.Holds a ref pg

theorem stored_new (lzo : Lzo)
    (hzero : ∀ addr, TimeTable.page addr = pg → ∀ l < a.levels, l < MAX_LEVEL →
      ref.view a.versions (addr / 8) l = 0) : Stored lzo a ref pg (new false) := by
  refine ⟨new false, 0, ⟨rfl, Nat.zero_le _, ?_, .inl rfl⟩, holds_new false hzero⟩
  intro l _
  rw [if_neg (Nat.not_lt_zero l)]
  rfl

theorem Stored.enter (h : Stored lzo a ref pg lt) (hbelow : ref.Below a.next) {version : ℕ}
    (hnew : a.next ≤ version) : Stored lzo (a.enter version) ref pg lt := by
  obtain ⟨plain, k, hstores, hholds⟩ := h
  exact ⟨plain, k, hstores, hholds.enter hbelow hnew⟩

theorem Stored.exit (h : Stored lzo a ref pg lt) : Stored lzo a.exit ref pg lt := by
  obtain ⟨plain, k, hstores, hholds⟩ := h
  exact ⟨plain, k, hstores, hholds.exit⟩

theorem Stored.store_other (h : Stored lzo a ref pg lt) {addr : ℕ}
    (hpage : TimeTable.page addr ≠ pg) (n : ℕ) (times : ℕ → ℕ) :
    Stored lzo a (ref.store a.versions (addr / 8) n times) pg lt := by
  obtain ⟨plain, k, hstores, hholds⟩ := h
  exact ⟨plain, k, hstores, hholds.store_other hpage n times⟩

/-- **An unpacked page can be packed**, and holds what it held. -/
theorem Stored.compress (h : Stored lzo a ref pg lt) (hflag : lt.compressed = false) :
    ∃ lt' savings, lt.compress lzo = some (lt', savings) ∧ Stored lzo a ref pg lt' := by
  obtain ⟨plain, k, hstores, hholds⟩ := h
  obtain rfl := hstores.plain_eq hflag
  obtain ⟨savings, hcompress⟩ := compress_eq lzo hstores.le hstores.occupies
  exact ⟨packed lzo lt k, savings, hcompress, lt, k,
    ⟨hstores.flag, hstores.le, hstores.occupies, .inr rfl⟩, hholds⟩

/-- The page can be unpacked, once it is collected. -/
def Unpacks (lzo : Lzo) (versions : ℕ → ℕ) (lt : LevelTable) : Prop :=
  ((lt.collectGarbageUnbounded versions).1.decompress lzo).isSome = true

/-- **The uppermost table of a page has the times of its words**, if the first of them
is not 0. -/
theorem Holds.levelDiffs_zero {k : ℕ} (h : lt.Holds a ref pg) (hocc : lt.Occupies k)
    (hk : k ≤ MAX_LEVEL) (hlevels : 1 ≤ a.levels) {times : List Time}
    (hlength : times.length = TIMETABLE_SIZE / 2) (hfront : times.getD 0 0 ≠ 0)
    (hview : ∀ j < 512, ref.view a.versions (512 * pg + j) 0 = (times.getD j 0).toNat) :
    0 < k ∧ lt.levelDiffs 0 = times := by
  have hread : ∀ j < 512, (lt.getTimeForAddrAtLevel 0 (4096 * pg + 8 * j) (a.versions 0)).map
      BitVec.toNat = some (times.getD j 0).toNat := by
    intro j hj
    rw [h.reads (4096 * pg + 8 * j) (by unfold TimeTable.page; omega) 0 hlevels (by decide),
      show (4096 * pg + 8 * j) / 8 = 512 * pg + j by omega, hview j hj]
  have hnonzero : (times.getD 0 0).toNat ≠ 0 := fun hzero => hfront (BitVec.eq_of_toNat_eq hzero)
  -- a word that is not 0 has a table of the current version
  have hcurrent : lt.versions 0 = a.versions 0 := by
    by_contra hne
    have hzero := hread 0 (by omega)
    rw [getTimeForAddrAtLevel, if_neg hne] at hzero
    exact hnonzero (Option.some.inj hzero).symm
  have hpos : 0 < k := by
    by_contra hzero
    have hnull := hocc.null (show k ≤ 0 by omega) (by decide)
    have hread0 := hread 0 (by omega)
    rw [getTimeForAddrAtLevel, if_pos hcurrent, hnull] at hread0
    exact hnonzero (Option.some.inj hread0).symm
  obtain ⟨htable, hplain⟩ := hocc.table hk hpos
  show 0 < k ∧ (lt.tableAt 0).array = times
  refine ⟨hpos, List.ext_getElem (hplain.length.trans hlength.symm) fun j hj hj' => ?_⟩
  have hj512 : j < 512 := hj'.trans_eq hlength
  have hentry := hread j hj512
  rw [getTimeForAddrAtLevel, if_pos hcurrent, htable] at hentry
  have htime : (lt.tableAt 0).getTimeAtAddr (4096 * pg + 8 * j) = times.getD j 0 :=
    BitVec.eq_of_toNat_eq (Option.some.inj hentry)
  rw [TimeTable.getTimeAtAddr, TimeTable.getIndex_eq, if_pos hplain.type,
    show (4096 * pg + 8 * j) / 8 % 512 = j by omega, List.getD_eq_getElem _ _ hj,
    List.getD_eq_getElem _ _ hj'] at htime
  exact htime

/-- A packed page, collected, is some page of fewer levels packed. -/
theorem Stores.collectUnbounded (h : Stores lzo lt plain k) (hholds : plain.Holds a ref pg)
    (hlevels : a.levels ≤ MAX_LEVEL) (hflag : lt.compressed = true) :
    ∃ m, (lt.collectGarbageUnbounded a.versions).1 = lt.keep m ∧
      lt.keep m = packed lzo (plain.keep m) (min k m) ∧ (plain.keep m).Holds a ref pg := by
  obtain ⟨m, hm, hstale⟩ := (h.written hholds.toWritten).unbounded_eq_keep hlevels
  refine ⟨m, hm, (h.keep m).packed_eq hflag, hholds.keep ?_⟩
  intro l hml hl
  rw [← h.current_iff]
  exact hstale l hml hl

/-- **A packed page that was not overrun can be unpacked.** -/
theorem Stored.unpacks (hlossless : lzo.Lossless) (hsmall : lzo.Small)
    (h : Stored lzo a ref pg lt) (hlevels : a.levels ≤ MAX_LEVEL) (hflag : lt.compressed = true)
    (hintact : lt.Intact) : lt.Unpacks lzo a.versions := by
  obtain ⟨plain, k, hstores, hholds⟩ := h
  obtain ⟨m, hm, hpacked, -⟩ := hstores.collectUnbounded hholds hlevels hflag
  have hkept := hstores.keep m
  have hfits := (intact_packed hsmall hkept.le hkept.occupies).mp (hpacked ▸ hintact.keep m)
  obtain ⟨cost, hdecompress⟩ := decompress_packed hlossless hsmall hkept.le hkept.occupies hfits
  unfold Unpacks
  rw [hm, hpacked, hdecompress]
  rfl

/-- **A packed page that can be collected and unpacked** holds what it held. -/
theorem Stored.decompress (hlossless : lzo.Lossless) (hsmall : lzo.Small)
    (h : Stored lzo a ref pg lt) (hlevels : a.levels ≤ MAX_LEVEL) (hflag : lt.compressed = true)
    (hunpacks : lt.Unpacks lzo a.versions) :
    ∃ lt' cost, (lt.collectGarbageUnbounded a.versions).1.decompress lzo = some (lt', cost) ∧
      Stored lzo a ref pg lt' := by
  obtain ⟨plain, k, hstores, hholds⟩ := h
  obtain ⟨m, hm, hpacked, hholds'⟩ := hstores.collectUnbounded hholds hlevels hflag
  have hkept := hstores.keep m
  -- all levels fit, for else nothing would have come out
  have hfits : (plain.keep m).FitsChunks lzo (min k m) := by
    by_contra hover
    unfold Unpacks at hunpacks
    rw [hm, hpacked, decompress_packed_none hlossless hsmall hkept.le hkept.occupies hover]
      at hunpacks
    cases hunpacks
  obtain ⟨cost, hdecompress⟩ := decompress_packed hlossless hsmall hkept.le hkept.occupies hfits
  have hplain : ({ plain.keep m with compressed := false } : LevelTable) = plain.keep m := by
    rw [← hkept.flag]
  refine ⟨plain.keep m, cost, ?_, plain.keep m, min k m,
    ⟨hkept.flag, hkept.le, hkept.occupies, .inl rfl⟩, hholds'⟩
  rw [hm, hpacked, hdecompress, hplain]

/-- **A packed page whose uppermost array was overrun** cannot be unpacked. -/
theorem Stored.not_unpacks (hlossless : lzo.Lossless) (hsmall : lzo.Small)
    (h : Stored lzo a ref pg lt) (hlevels : a.levels ≤ MAX_LEVEL) (hflag : lt.compressed = true)
    (hpos : 1 ≤ a.levels) {times : List Time} (hlength : times.length = TIMETABLE_SIZE / 2)
    (hfront : times.getD 0 0 ≠ 0)
    (hview : ∀ j < 512, ref.view a.versions (512 * pg + j) 0 = (times.getD j 0).toNat)
    (hover : ¬FitsChunk lzo times) : ¬lt.Unpacks lzo a.versions := by
  obtain ⟨plain, k, hstores, hholds⟩ := h
  obtain ⟨m, hm, hpacked, hholds'⟩ := hstores.collectUnbounded hholds hlevels hflag
  have hkept := hstores.keep m
  obtain ⟨hk, hdiffs⟩ :=
    hholds'.levelDiffs_zero hkept.occupies hkept.le hpos hlength hfront hview
  have hnone := decompress_packed_none hlossless hsmall hkept.le hkept.occupies
    fun hfits => hover (hdiffs ▸ hfits 0 hk)
  unfold Unpacks
  rw [hm, hpacked, hnone]
  exact Bool.false_ne_true

/-- An unpacked page is intact, and so is any if the library needs no more room. -/
theorem Stored.intact (hsmall : lzo.Small) (h : Stored lzo a ref pg lt)
    (hfits : lt.compressed = true → lzo.Fits) : lt.Intact := by
  obtain ⟨plain, k, hstores, -⟩ := h
  cases hflag : lt.compressed with
  | false =>
      rw [hstores.plain_eq hflag]
      exact hstores.occupies.intact hstores.le
  | true =>
      rw [hstores.packed_eq hflag, intact_packed hsmall hstores.le hstores.occupies]
      exact hstores.occupies.fitsChunks (hfits hflag) hstores.le

/-- **A page can be collected**, packed or not. -/
theorem Stored.collect (h : Stored lzo a ref pg lt) (hlevels : a.levels ≤ MAX_LEVEL) :
    Stored lzo a ref pg (lt.collectGarbageWithinBounds a.versions a.levels).1 := by
  obtain ⟨plain, k, hstores, hholds⟩ := h
  obtain ⟨m, hm, hstale⟩ := (hstores.written hholds.toWritten).withinBounds_eq_keep hlevels
  refine ⟨plain.keep m, min k m, ?_, hholds.keep ?_⟩
  · rw [hm]
    exact hstores.keep m
  · intro l hml hl
    rw [← hstores.current_iff]
    exact hstale l hml hl

/-- **An unpacked page is read** at all active levels. -/
theorem Stored.read (h : Stored lzo a ref pg lt) (hlevels : a.levels ≤ MAX_LEVEL)
    (hflag : lt.compressed = false) {addr : ℕ} (hpage : TimeTable.page addr = pg) :
    ∃ times : ℕ → Time,
      MShadowSkadu.readLevels lt addr a.versions a.levels
        = some ((List.range a.levels).map times) ∧
      ∀ l < a.levels, (times l).toNat = ref.view a.versions (addr / 8) l := by
  obtain ⟨plain, k, hstores, hholds⟩ := h
  obtain rfl := hstores.plain_eq hflag
  refine ⟨fun l => (lt.getTimeForAddrAtLevel l addr (a.versions l)).getD 0, ?_, ?_⟩
  · apply readLevels_eq
    intro l hl
    obtain ⟨t, ht, -⟩ := Option.map_eq_some_iff.mp (hholds.reads addr hpage l hl (by omega))
    rw [ht]
    rfl
  · intro l hl
    obtain ⟨t, ht, hview⟩ := Option.map_eq_some_iff.mp (hholds.reads addr hpage l hl (by omega))
    show ((lt.getTimeForAddrAtLevel l addr (a.versions l)).getD 0).toNat = _
    rw [ht]
    exact hview

/-- **An unpacked page is written** at the first `n` levels, or up to the first
time 0. -/
theorem Stored.write (h : Stored lzo a ref pg lt) (hflag : lt.compressed = false)
    (stopAtZero : Bool) {n : ℕ} (hissued : ∀ l < n, a.versions l < a.next) (hmax : n ≤ MAX_LEVEL)
    {addr : ℕ} (haligned : addr % 8 = 0) (hpage : TimeTable.page addr = pg)
    (times : ℕ → Time) :
    ∃ lt' es m, MShadowSkadu.writeLevels stopAtZero addr a.versions times n 0 lt
        = some (lt', es) ∧ lt'.compressed = false ∧ m ≤ n ∧
      (stopAtZero = false → m = n) ∧ (∀ l < m, stopAtZero = true → times l ≠ 0) ∧
      (m < n → times m = 0) ∧
      Stored lzo a (ref.store a.versions (addr / 8) m fun l => (times l).toNat) pg lt' := by
  obtain ⟨plain, k, hstores, hholds⟩ := h
  obtain rfl := hstores.plain_eq hflag
  have hwrite : ∀ m ≤ n, ∃ lt' es,
      MShadowSkadu.writeLevels false addr a.versions times m 0 lt = some (lt', es) ∧
      lt'.compressed = false ∧
      Stored lzo a (ref.store a.versions (addr / 8) m fun l => (times l).toNat) pg lt' := by
    intro m hm
    have hissued' : ∀ l < m, a.versions l < a.next := fun l hl => hissued l (by omega)
    obtain ⟨lt', es, k', hloop, hflag', hk', hocc', hholds'⟩ :=
      hholds.write hstores.le hstores.occupies hissued' (by omega) haligned hpage times
    have hplain : lt'.compressed = false := hflag'.trans hflag
    exact ⟨lt', es, hloop, hplain, lt', k', ⟨hplain, hk', hocc', .inl rfl⟩, hholds'⟩
  cases stopAtZero with
  | false =>
      obtain ⟨lt', es, hloop, hplain, hstored⟩ := hwrite n (Nat.le_refl n)
      exact ⟨lt', es, n, hloop, hplain, Nat.le_refl n, fun _ => rfl,
        fun _ _ hno => absurd hno (by decide), fun hlt => absurd hlt (Nat.lt_irrefl n), hstored⟩
  | true =>
      obtain ⟨m, hm, hsame, hne, hstop⟩ := writeLevels_stop addr a.versions times n 0
      obtain ⟨lt', es, hloop, hplain, hstored⟩ := hwrite m hm
      refine ⟨lt', es, m, (hsame lt).trans hloop, hplain, hm, fun hno => absurd hno (by decide), ?_,
        ?_, hstored⟩
      · intro l hl _
        exact hne l (Nat.zero_le l) (by omega)
      · intro hlt
        rw [← hstop hlt, Nat.zero_add]

end LevelTable

end Kremlin.Shadow
