/-
  Kremlin.Shadow.PageAccounts — what a page reports to the counters.

  `timeTableOverhead` is meant to be the number of bytes in all live tables and
  `nActive` their number.  Both are only ever moved by differences: when a table
  is made or deleted, when a page is packed (by what that saved) and when it is
  unpacked.  §1 defines the totals of one page; §2 and §3 show that each
  operation on it moves the counters by the change of its totals.
-/
import Kremlin.Shadow.Compression
import Mathlib.Algebra.BigOperators.Group.Finset.Basic
import Mathlib.Algebra.BigOperators.Ring.Finset
import Mathlib.Tactic.LinearCombination
import Mathlib.Tactic.Ring

namespace Kremlin.Shadow

open Kremlin.Library
open Finset (range)

/-! ## §1. The totals of a page. -/

/-- Changing one summand. -/
theorem sum_update {ι A : Type} [DecidableEq ι] (f : A → ℕ) (g : ι → A) {s : Finset ι} {i : ι}
    (hi : i ∈ s) (v : A) :
    (∑ x ∈ s, f (Function.update g i v x)) + f (g i) = (∑ x ∈ s, f (g x)) + f v := by
  have hrest : ∀ x ∈ s.erase i, f (Function.update g i v x) = f (g x) := by
    intro x hx
    rw [Function.update_of_ne (Finset.ne_of_mem_erase hx)]
  rw [← Finset.sum_erase_add _ _ hi, ← Finset.sum_erase_add _ (fun x => f (g x)) hi,
    Finset.sum_congr rfl hrest, Function.update_self]
  ring

namespace TimeTablePtr

/-- The bytes a table pointer accounts for. -/
def bytes : TimeTablePtr → ℕ
  | .table t => t.size
  | _ => 0

/-- The tables a table pointer accounts for. -/
def tables : TimeTablePtr → ℕ
  | .table _ => 1
  | _ => 0

end TimeTablePtr

namespace LevelTable

/-- The sum of the `size` fields of the page's tables. -/
def bytes (lt : LevelTable) : ℕ := ∑ l ∈ range MAX_LEVEL, (lt.time_tables l).bytes

/-- The number of the page's tables. -/
def tables (lt : LevelTable) : ℕ := ∑ l ∈ range MAX_LEVEL, (lt.time_tables l).tables

/-- All tables are 64-bit and none is larger than the largest packed one. -/
structure Wide (lt : LevelTable) : Prop where
  live : ∀ l, lt.time_tables l ≠ .freed
  type : ∀ l t, lt.time_tables l = .table t → t.type = .type_64bit
  size : ∀ l t, lt.time_tables l = .table t → t.size < 2 ^ 16

/-- No table is packed. -/
def Full (lt : LevelTable) : Prop :=
  ∀ l < MAX_LEVEL, ∀ t, lt.time_tables l = .table t → t.size = TIMETABLE_BYTES

theorem bytes_set (lt : LevelTable) {level : ℕ} (hl : level < MAX_LEVEL) (p : TimeTablePtr) :
    (lt.setTimeTableAtLevel level p).bytes + (lt.time_tables level).bytes
      = lt.bytes + p.bytes :=
  sum_update TimeTablePtr.bytes lt.time_tables (Finset.mem_range.mpr hl) p

theorem tables_set (lt : LevelTable) {level : ℕ} (hl : level < MAX_LEVEL) (p : TimeTablePtr) :
    (lt.setTimeTableAtLevel level p).tables + (lt.time_tables level).tables
      = lt.tables + p.tables :=
  sum_update TimeTablePtr.tables lt.time_tables (Finset.mem_range.mpr hl) p

@[simp] theorem bytes_setVersionAtLevel (lt : LevelTable) (level ver : ℕ) :
    (lt.setVersionAtLevel level ver).bytes = lt.bytes := rfl

@[simp] theorem tables_setVersionAtLevel (lt : LevelTable) (level ver : ℕ) :
    (lt.setVersionAtLevel level ver).tables = lt.tables := rfl

@[simp] theorem bytes_new (compressed : Bool) : (new compressed).bytes = 0 :=
  Finset.sum_const_zero

@[simp] theorem tables_new (compressed : Bool) : (new compressed).tables = 0 :=
  Finset.sum_const_zero

theorem wide_new (compressed : Bool) : (new compressed).Wide where
  live _ h := by cases h
  type _ _ h := by cases h
  size _ _ h := by cases h

theorem full_new (compressed : Bool) : (new compressed).Full := by
  intro l _ t h
  cases h

/-- A pointer `Wide` pages may hold. -/
theorem Wide.set {lt : LevelTable} (h : lt.Wide) (level : ℕ) {p : TimeTablePtr}
    (hlive : p ≠ .freed) (hp : ∀ t, p = .table t → t.type = .type_64bit ∧ t.size < 2 ^ 16) :
    (lt.setTimeTableAtLevel level p).Wide := by
  have hcases : ∀ l, (lt.setTimeTableAtLevel level p).time_tables l
      = if l = level then p else lt.time_tables l := by
    intro l
    exact Function.update_apply _ _ _ _
  constructor
  · intro l
    rw [hcases]
    split
    · exact hlive
    · exact h.live l
  · intro l t
    rw [hcases]
    split
    · exact fun ht => (hp t ht).1
    · exact h.type l t
  · intro l t
    rw [hcases]
    split
    · exact fun ht => (hp t ht).2
    · exact h.size l t

theorem Full.set {lt : LevelTable} (h : lt.Full) (level : ℕ) {p : TimeTablePtr}
    (hp : ∀ t, p = .table t → t.size = TIMETABLE_BYTES) :
    (lt.setTimeTableAtLevel level p).Full := by
  intro l hl t
  rw [time_tables_setTimeTableAtLevel, Function.update_apply]
  split
  · exact hp t
  · exact h l hl t

/-! ## §2. Writing and deleting tables. -/

/-- The counters after the totals of a page changed from those of `lt` to those
of `lt'`. -/
def moved (lt lt' : LevelTable) (s : MemStat) : MemStat :=
  { s with
    nActive_64bit := s.nActive_64bit + (lt'.tables - lt.tables)
    timeTableOverhead := s.timeTableOverhead + (lt'.bytes - lt.bytes) }

/-- The reports `es` account for the change from `lt` to `lt'`. -/
def Accounts (es : List MemEvent) (lt lt' : LevelTable) : Prop :=
  ∀ s : MemStat, s.recordAll es = moved lt lt' s

theorem moved_of_eq {lt lt' : LevelTable} (hb : lt'.bytes = lt.bytes)
    (ht : lt'.tables = lt.tables) (s : MemStat) : moved lt lt' s = s := by
  unfold moved
  rw [hb, ht, sub_self, sub_self, add_zero, add_zero]

theorem moved_trans (lt lt' lt'' : LevelTable) (s : MemStat) :
    moved lt' lt'' (moved lt lt' s) = moved lt lt'' s := by
  unfold moved
  apply MemStat.ext <;> dsimp only <;> ring

theorem Accounts.trans {es es' : List MemEvent} {lt lt' lt'' : LevelTable}
    (h : Accounts es lt lt') (h' : Accounts es' lt' lt'') : Accounts (es ++ es') lt lt'' := by
  intro s
  rw [MemStat.recordAll_append, h, h', moved_trans]

theorem Accounts.of_eq {lt lt' : LevelTable} (hb : lt'.bytes = lt.bytes)
    (ht : lt'.tables = lt.tables) : Accounts [] lt lt' :=
  fun s => (moved_of_eq hb ht s).symm

/-- Making a table where there was none. -/
theorem accounts_alloc {lt lt' : LevelTable} (hb : lt'.bytes = lt.bytes + TIMETABLE_BYTES)
    (ht : lt'.tables = lt.tables + 1) :
    Accounts [.timeTableAlloc .type_64bit (BitVec.ofNat 32 TIMETABLE_BYTES)] lt lt' := by
  intro s
  show (s.activate .type_64bit).increaseTimeTableMemSize _ = _
  unfold MemStat.increaseTimeTableMemSize MemStat.activate moved
  rw [MemStat.signExtend_ofNat (by decide), hb, ht]
  push_cast
  apply MemStat.ext <;> dsimp only <;> ring

/-- Deleting one. -/
theorem accounts_free {lt lt' : LevelTable} {t : TimeTable} (htype : t.type = .type_64bit)
    (hsize : t.size < 2 ^ 16) (hb : lt'.bytes + t.size = lt.bytes)
    (ht : lt'.tables + 1 = lt.tables) : Accounts (deleteEvents (.table t)) lt lt' := by
  intro s
  show (s.deactivate t.type).decreaseTimeTableMemSize _ = _
  rw [htype]
  unfold MemStat.decreaseTimeTableMemSize MemStat.deactivate moved
  rw [MemStat.signExtend_ofNat (by omega), ← hb, ← ht]
  push_cast
  apply MemStat.ext <;> dsimp only <;> ring

theorem setTime_accounts {lt lt' : LevelTable} {level addr ver : ℕ} {value : Time}
    {es : List MemEvent} (hl : level < MAX_LEVEL) (hwide : lt.Wide)
    (h : lt.setTimeForAddrAtLevel level addr ver value .type_64bit = some (lt', es)) :
    Accounts es lt lt' ∧ lt'.Wide ∧ (lt.Full → lt'.Full) := by
  unfold setTimeForAddrAtLevel at h
  cases hp : lt.time_tables level with
  | freed => exact absurd hp (hwide.live level)
  | null =>
      rw [hp] at h
      cases h
      -- the one table that is made is counted by the event
      let t := (TimeTable.new .type_64bit).setTimeAtAddr addr value .type_64bit
      have hb := bytes_set lt hl (.table t)
      have ht := tables_set lt hl (.table t)
      have hsize : t.size = TIMETABLE_BYTES := rfl
      simp only [hp, TimeTablePtr.bytes, TimeTablePtr.tables, Nat.add_zero, hsize] at hb ht
      have hok : ∀ u, TimeTablePtr.table t = .table u → u.type = .type_64bit ∧ u.size < 2 ^ 16 := by
        rintro u ⟨⟩
        exact ⟨rfl, (by decide : TIMETABLE_BYTES < 2 ^ 16)⟩
      have hwide' := hwide.set level (p := .table t) (by simp) hok
      refine ⟨accounts_alloc ?_ ?_, ⟨hwide'.live, hwide'.type, hwide'.size⟩, fun hfull => ?_⟩
      · rw [bytes_setVersionAtLevel, hb]
      · rw [tables_setVersionAtLevel, ht]
      · refine hfull.set level (p := .table t) ?_
        rintro u ⟨⟩
        exact hsize
  | table t =>
      rw [hp] at h
      have hnot : ¬((TableType.type_64bit) = .type_32bit ∧ t.type = .type_64bit) := by
        rintro ⟨h32, -⟩
        cases h32
      simp only [if_neg hnot] at h
      cases h
      -- the table is overwritten in place, so its size and its type stay
      let u := (if lt.versions level = ver then t else t.clean).setTimeAtAddr addr value .type_64bit
      have hsize : u.size = t.size := by
        show (ite _ t t.clean).size = t.size
        split <;> rfl
      have htype : u.type = t.type := by
        show (ite _ t t.clean).type = t.type
        split <;> rfl
      have hb := bytes_set lt hl (.table u)
      have ht := tables_set lt hl (.table u)
      simp only [hp, TimeTablePtr.bytes, TimeTablePtr.tables, hsize] at hb ht
      have hok : ∀ v, TimeTablePtr.table u = .table v → v.type = .type_64bit ∧ v.size < 2 ^ 16 := by
        rintro v ⟨⟩
        exact ⟨htype.trans (hwide.type level t hp), hsize ▸ hwide.size level t hp⟩
      have hwide' := hwide.set level (p := .table u) (by simp) hok
      refine ⟨Accounts.of_eq ?_ ?_, ⟨hwide'.live, hwide'.type, hwide'.size⟩, fun hfull => ?_⟩
      · rw [bytes_setVersionAtLevel]
        exact Nat.add_right_cancel hb
      · rw [tables_setVersionAtLevel]
        exact Nat.add_right_cancel ht
      · refine hfull.set level (p := .table u) ?_
        rintro v ⟨⟩
        exact hsize.trans (hfull level hl t hp)

/-- Deleting some of the levels `i, …, i + n - 1`. -/
theorem deleteLevels_accounts {lt : LevelTable} (hwide : lt.Wide) (doomed : ℕ → Bool) {n i : ℕ}
    (hn : i + n ≤ MAX_LEVEL) :
    Accounts (lt.deleteLevels doomed n i).2 lt (lt.deleteLevels doomed n i).1 := by
  induction n generalizing lt i with
  | zero => exact Accounts.of_eq rfl rfl
  | succ n ih =>
      unfold deleteLevels
      by_cases hd : doomed i
      · rw [if_pos hd]
        have hnull : (lt.setTimeTableAtLevel i .null).Wide :=
          hwide.set i (by simp) (fun t ht => by cases ht)
        refine Accounts.trans ?_ (ih hnull (by omega))
        have hb := bytes_set lt (show i < MAX_LEVEL by omega) .null
        have ht := tables_set lt (show i < MAX_LEVEL by omega) .null
        cases hp : lt.time_tables i with
        | freed => exact absurd hp (hwide.live i)
        | null =>
            simp only [hp, TimeTablePtr.bytes, TimeTablePtr.tables, Nat.add_zero] at hb ht
            exact Accounts.of_eq hb ht
        | table t =>
            simp only [hp, TimeTablePtr.bytes, TimeTablePtr.tables, Nat.add_zero] at hb ht
            exact accounts_free (hwide.type i t hp) (hwide.size i t hp) hb ht
      · rw [if_neg hd]
        exact ih hwide (by omega)

/-- Fewer tables are still 64-bit ones. -/
theorem Wide.deleteLevels {lt : LevelTable} (hwide : lt.Wide) (doomed : ℕ → Bool) (n i : ℕ) :
    (lt.deleteLevels doomed n i).1.Wide := by
  rw [deleteLevels_eq]
  constructor
  · intro l
    dsimp only
    split
    · simp
    · exact hwide.live l
  · intro l t
    dsimp only
    split
    · intro h
      cases h
    · exact hwide.type l t
  · intro l t
    dsimp only
    split
    · intro h
      cases h
    · exact hwide.size l t

theorem Full.deleteLevels {lt : LevelTable} (hfull : lt.Full) (doomed : ℕ → Bool) (n i : ℕ) :
    (lt.deleteLevels doomed n i).1.Full := by
  rw [deleteLevels_eq]
  intro l hl t
  dsimp only
  split
  · intro h
    cases h
  · exact hfull l hl t

@[simp] theorem compressed_deleteLevels (lt : LevelTable) (doomed : ℕ → Bool) (n i : ℕ) :
    (lt.deleteLevels doomed n i).1.compressed = lt.compressed := by
  rw [deleteLevels_eq]

theorem withinBounds_accounts {lt : LevelTable} (hwide : lt.Wide) (curr_versions : ℕ → ℕ)
    {end_index : ℕ} (hend : end_index ≤ MAX_LEVEL) :
    Accounts (lt.collectGarbageWithinBounds curr_versions end_index).2 lt
      (lt.collectGarbageWithinBounds curr_versions end_index).1 := by
  refine Accounts.trans (deleteLevels_accounts hwide _ (by omega)) ?_
  exact deleteLevels_accounts (hwide.deleteLevels _ _ _) _ (by omega)

/-- The tables fill the first levels. -/
def Prefix (lt : LevelTable) : Prop :=
  ∀ l m, l ≤ m → m < MAX_LEVEL → lt.time_tables l = .null → lt.time_tables m = .null

/-- After an unbounded collection they do: the levels from the first invalid one
on are empty, and those before it are not. -/
theorem unbounded_prefix (lt : LevelTable) (curr_versions : ℕ → ℕ) :
    (lt.collectGarbageUnbounded curr_versions).1.Prefix := by
  obtain ⟨-, hle, hpresent⟩ := lt.lowestInvalidFrom_le curr_versions MAX_LEVEL 0
  intro l m hlm hm hnull
  unfold collectGarbageUnbounded cleanTimeTablesFromLevel findLowestInvalidIndex at hnull ⊢
  rw [deleteLevels_eq] at hnull ⊢
  dsimp only at hnull ⊢
  by_cases hl : l < lt.lowestInvalidFrom curr_versions MAX_LEVEL 0
  · rw [if_neg (by omega)] at hnull
    exact absurd hnull (hpresent l (Nat.zero_le l) hl).1
  · rw [if_pos ⟨by omega, by omega, rfl⟩]

theorem unbounded_accounts {lt : LevelTable} (hwide : lt.Wide) (curr_versions : ℕ → ℕ) :
    Accounts (lt.collectGarbageUnbounded curr_versions).2 lt
      (lt.collectGarbageUnbounded curr_versions).1 := by
  obtain ⟨-, hle, -⟩ := lt.lowestInvalidFrom_le curr_versions MAX_LEVEL 0
  apply deleteLevels_accounts hwide
  show lt.lowestInvalidFrom curr_versions MAX_LEVEL 0 + _ ≤ _
  unfold findLowestInvalidIndex
  omega

/-! ## §3. Packing and unpacking. -/

theorem gain_eq (compLen : ℕ) :
    gain compLen = (TIMETABLE_BYTES : BitVec 64) - (compLen : BitVec 64) := rfl

/-- What a pass over the levels leaves: the same tables, none of another type. -/
structure Repacked (lt lt' : LevelTable) : Prop where
  wide : lt'.Wide
  tables : lt'.tables = lt.tables
  compressed : lt'.compressed = lt.compressed

/-- Replacing one table by itself with other contents. -/
theorem Repacked.set {lt : LevelTable} (hwide : lt.Wide) {level : ℕ} (hl : level < MAX_LEVEL)
    {t u : TimeTable} (ht : lt.time_tables level = .table t) (htype : u.type = t.type)
    (hsize : u.size < 2 ^ 16) :
    Repacked lt (lt.setTimeTableAtLevel level (.table u)) ∧
      (lt.setTimeTableAtLevel level (.table u)).bytes + t.size = lt.bytes + u.size := by
  have hb := bytes_set lt hl (.table u)
  have hn := tables_set lt hl (.table u)
  simp only [ht, TimeTablePtr.bytes, TimeTablePtr.tables] at hb hn
  refine ⟨⟨hwide.set level (by simp) ?_, Nat.add_right_cancel hn, rfl⟩, hb⟩
  rintro v ⟨⟩
  exact ⟨htype.trans (hwide.type level t ht), hsize⟩

theorem Repacked.trans {lt lt' lt'' : LevelTable} (h : Repacked lt lt')
    (h' : Repacked lt' lt'') : Repacked lt lt'' :=
  ⟨h'.wide, h'.tables.trans h.tables, h'.compressed.trans h.compressed⟩

/-- The savings so far, when a table of `t` bytes is replaced by one of `p`. -/
theorem savings_step {c c' before after last t p : BitVec 64} (hb : after + t = before + p)
    (hsum : c' + last = c + (t - p) + after) : c' + last = c + before := by
  linear_combination hsum + hb

/-- The cost so far, when a table of `t` bytes is replaced by one of `p`. -/
theorem cost_step {c c' before after last t p : BitVec 64} (hb : after + t = before + p)
    (hsum : c' + after = c + (p - t) + last) : c' + before = c + last := by
  linear_combination hsum - hb

/-- The change of a page's totals, as the counters see it. -/
theorem cast_bytes {after t before p : ℕ} (hb : after + t = before + p) :
    (after : BitVec 64) + t = before + p := by
  have hcast := congrArg (fun m : ℕ => (m : BitVec 64)) hb
  push_cast at hcast
  exact hcast

/-- **The downward walk saves what the tables shrink by.** -/
theorem compressLevels_gain {lzo : Lzo} (hsmall : lzo.Small) {n : ℕ} (hn : n < MAX_LEVEL)
    {lt lt' : LevelTable} {c c' : BitVec 64} (hwide : lt.Wide)
    (hfull : ∀ l ≤ n, ∀ t, lt.time_tables l = .table t → t.size = TIMETABLE_BYTES)
    (h : compressLevels lzo n lt c = some (lt', c')) :
    c' + lt'.bytes = c + lt.bytes ∧ Repacked lt lt' ∧
      lt'.time_tables 0 = lt.time_tables 0 := by
  induction n generalizing lt c with
  | zero =>
      cases h
      exact ⟨rfl, ⟨hwide, rfl, rfl⟩, rfl⟩
  | succ n ih =>
      unfold compressLevels at h
      cases hp : lt.time_tables (n + 1) with
      | freed => exact absurd hp (hwide.live _)
      | null =>
          rw [hp] at h
          exact ih (by omega) hwide (fun l hl => hfull l (by omega)) h
      | table t =>
          cases hq : lt.time_tables n with
          | freed => exact absurd hq (hwide.live _)
          | null =>
              rw [hp, hq] at h
              cases h
          | table u =>
              rw [hp, hq] at h
              let packed := pack lzo t (subtract u.array t.array)
              have hsize : packed.size = _ := size_pack hsmall t (subtract u.array t.array)
              have hlt : packed.size < 2 ^ 16 := hsize ▸ hsmall _
              obtain ⟨hre, hb⟩ := Repacked.set hwide hn hp (u := packed) rfl hlt
              have hfull' : ∀ l ≤ n, ∀ v,
                  (lt.setTimeTableAtLevel (n + 1) (.table packed)).time_tables l = .table v →
                    v.size = TIMETABLE_BYTES := by
                intro l hl v hv
                rw [time_tables_setTimeTableAtLevel, Function.update_of_ne (by omega)] at hv
                exact hfull l (by omega) v hv
              have hkeep : (lt.setTimeTableAtLevel (n + 1) (.table packed)).time_tables 0
                  = lt.time_tables 0 := by
                rw [time_tables_setTimeTableAtLevel, Function.update_of_ne (by omega)]
              obtain ⟨hsum, hre', hzero⟩ := ih (by omega) hre.wide hfull' h
              refine ⟨?_, hre.trans hre', hzero.trans hkeep⟩
              rw [← hsize, gain_eq, ← hfull (n + 1) (Nat.le_refl _) t hp] at hsum
              exact savings_step (cast_bytes hb) hsum

/-- **`compress` returns what the page shrinks by.** -/
theorem compress_gain {lzo : Lzo} (hsmall : lzo.Small) {lt lt' : LevelTable}
    {savings : BitVec 64} (hwide : lt.Wide) (hfull : lt.Full)
    (h : lt.compress lzo = some (lt', savings)) :
    savings + lt'.bytes = lt.bytes ∧ lt'.tables = lt.tables ∧ lt'.Wide := by
  unfold compress at h
  cases hp : lt.time_tables 0 with
  | freed => exact absurd hp (hwide.live 0)
  | null =>
      rw [hp] at h
      cases h
      exact ⟨zero_add _, rfl, ⟨hwide.live, hwide.type, hwide.size⟩⟩
  | table t =>
      rw [hp] at h
      obtain ⟨⟨lt₁, c⟩, hlevels, heq⟩ := Option.bind_eq_some_iff.mp h
      cases heq
      obtain ⟨hsum, hre, hzero⟩ := compressLevels_gain hsmall (by decide) hwide
        (fun l hl => hfull l (Nat.lt_of_le_of_lt hl (by decide))) hlevels
      have hsize : (pack lzo t t.array).size = _ := size_pack hsmall t t.array
      have hlt : (pack lzo t t.array).size < 2 ^ 16 := hsize ▸ hsmall _
      obtain ⟨hre', hb⟩ := Repacked.set hre.wide (show 0 < MAX_LEVEL by decide)
        (hzero.trans hp) (u := pack lzo t t.array) rfl hlt
      refine ⟨?_, hre'.tables.trans hre.tables,
        ⟨hre'.wide.live, hre'.wide.type, hre'.wide.size⟩⟩
      have hgain : gain (lzo.compress (makeDiff t.array)).2
          = (t.size : BitVec 64) - ((pack lzo t t.array).size : BitVec 64) := by
        rw [hsize, hfull 0 (by decide) t hp, gain_eq]
      have htotal := savings_step (cast_bytes hb)
        (show c + gain (lzo.compress (makeDiff t.array)).2
          + ((lt₁.setTimeTableAtLevel 0 (.table (pack lzo t t.array))).bytes : BitVec 64) = _ by
            rw [hgain])
      exact htotal.trans (hsum.trans (zero_add _))

/-- **The upward walk costs what the tables grow by**, and leaves none packed. -/
theorem decompressLevels_cost {lzo : Lzo} {n i : ℕ} (hn : i + n + 1 = MAX_LEVEL)
    {lt lt' : LevelTable} {c c' : BitVec 64} (hwide : lt.Wide) (hclosed : lt.Prefix)
    (hfull : ∀ l ≤ i, ∀ t, lt.time_tables l = .table t → t.size = TIMETABLE_BYTES)
    (h : decompressLevels lzo n i lt c = some (lt', c')) :
    c' + lt.bytes = c + lt'.bytes ∧ Repacked lt lt' ∧ lt'.Full := by
  induction n generalizing lt c i with
  | zero =>
      cases h
      exact ⟨rfl, ⟨hwide, rfl, rfl⟩, fun l hl => hfull l (by omega)⟩
  | succ n ih =>
      unfold decompressLevels at h
      cases hp : lt.time_tables (i + 1) with
      | freed => exact absurd hp (hwide.live _)
      | null =>
          rw [hp] at h
          cases h
          refine ⟨rfl, ⟨hwide, rfl, rfl⟩, ?_⟩
          intro l hl t ht
          by_cases hli : l ≤ i
          · exact hfull l hli t ht
          · rw [hclosed (i + 1) l (by omega) hl hp] at ht
            cases ht
      | table t =>
          cases hq : lt.time_tables i with
          | freed => exact absurd hq (hwide.live _)
          | null =>
              rw [hp, hq] at h
              cases h
          | table u =>
              rw [hp, hq] at h
              obtain ⟨diffBuffer, -, h⟩ := Option.bind_eq_some_iff.mp h
              -- the table at `i + 1` is unpacked and added to the one below
              let plain : TimeTable := { t with
                array := subtract u.array diffBuffer, size := TIMETABLE_BYTES }
              have hlt : plain.size < 2 ^ 16 := (by decide : TIMETABLE_BYTES < 2 ^ 16)
              obtain ⟨hre, hb⟩ :=
                Repacked.set hwide (show i + 1 < MAX_LEVEL by omega) hp (u := plain) rfl hlt
              have hother : ∀ l, l ≠ i + 1 →
                  (lt.setTimeTableAtLevel (i + 1) (.table plain)).time_tables l
                    = lt.time_tables l := by
                intro l hl
                rw [time_tables_setTimeTableAtLevel, Function.update_of_ne hl]
              have hhere : (lt.setTimeTableAtLevel (i + 1) (.table plain)).time_tables (i + 1)
                  = .table plain := by
                rw [time_tables_setTimeTableAtLevel, Function.update_self]
              -- the null levels are still the highest ones
              have hclosed' : (lt.setTimeTableAtLevel (i + 1) (.table plain)).Prefix := by
                intro l m hlm hm hnull
                have hl : l ≠ i + 1 := by
                  rintro rfl
                  rw [hhere] at hnull
                  cases hnull
                have hmi : m ≠ i + 1 := by
                  rintro rfl
                  rw [hother l hl] at hnull
                  rw [hclosed l (i + 1) hlm hm hnull] at hp
                  cases hp
                rw [hother l hl] at hnull
                rw [hother m hmi]
                exact hclosed l m hlm hm hnull
              have hfull' : ∀ l ≤ i + 1, ∀ v,
                  (lt.setTimeTableAtLevel (i + 1) (.table plain)).time_tables l = .table v →
                    v.size = TIMETABLE_BYTES := by
                intro l hl v hv
                by_cases hli : l = i + 1
                · rw [hli, hhere] at hv
                  cases hv
                  rfl
                · rw [hother l hli] at hv
                  exact hfull l (by omega) v hv
              obtain ⟨hsum, hre', hdone⟩ := ih (by omega) hre.wide hclosed' hfull' h
              refine ⟨?_, hre.trans hre', hdone⟩
              rw [gain_eq] at hsum
              exact cost_step (cast_bytes hb) hsum

/-- **`decompress` returns what the page grows by.** -/
theorem decompress_cost {lzo : Lzo} {lt lt' : LevelTable} {cost : BitVec 64} (hwide : lt.Wide)
    (hclosed : lt.Prefix) (h : lt.decompress lzo = some (lt', cost)) :
    cost + lt.bytes = lt'.bytes ∧ lt'.tables = lt.tables ∧ lt'.Wide ∧ lt'.Full := by
  unfold decompress at h
  cases hp : lt.time_tables 0 with
  | freed => exact absurd hp (hwide.live 0)
  | null =>
      rw [hp] at h
      cases h
      refine ⟨zero_add _, rfl, ⟨hwide.live, hwide.type, hwide.size⟩, ?_⟩
      intro l hl t ht
      have hnull : lt.time_tables l = .null := hclosed 0 l (Nat.zero_le l) hl hp
      rw [show lt.time_tables l = .table t from ht] at hnull
      cases hnull
  | table t =>
      rw [hp] at h
      obtain ⟨decompedArray, -, h⟩ := Option.bind_eq_some_iff.mp h
      obtain ⟨⟨lt₁, c⟩, hlevels, heq⟩ := Option.bind_eq_some_iff.mp h
      cases heq
      let plain : TimeTable := { t with array := decompedArray, size := TIMETABLE_BYTES }
      have hlt : plain.size < 2 ^ 16 := (by decide : TIMETABLE_BYTES < 2 ^ 16)
      obtain ⟨hre, hb⟩ :=
        Repacked.set hwide (show 0 < MAX_LEVEL by decide) hp (u := plain) rfl hlt
      have hother : ∀ l, l ≠ 0 →
          (lt.setTimeTableAtLevel 0 (.table plain)).time_tables l = lt.time_tables l := by
        intro l hl
        rw [time_tables_setTimeTableAtLevel, Function.update_of_ne hl]
      have hhere : (lt.setTimeTableAtLevel 0 (.table plain)).time_tables 0 = .table plain := by
        rw [time_tables_setTimeTableAtLevel, Function.update_self]
      have hclosed' : (lt.setTimeTableAtLevel 0 (.table plain)).Prefix := by
        intro l m hlm hm hnull
        have hl : l ≠ 0 := by
          rintro rfl
          rw [hhere] at hnull
          cases hnull
        rw [hother l hl] at hnull
        rw [hother m (by omega)]
        exact hclosed l m hlm hm hnull
      have hfull' : ∀ l ≤ 0, ∀ v,
          (lt.setTimeTableAtLevel 0 (.table plain)).time_tables l = .table v →
            v.size = TIMETABLE_BYTES := by
        intro l hl v hv
        rw [Nat.le_zero.mp hl, hhere] at hv
        cases hv
        rfl
      obtain ⟨hsum, hre', hdone⟩ :=
        decompressLevels_cost (by decide) hre.wide hclosed' hfull' hlevels
      refine ⟨?_, hre'.tables.trans hre.tables,
        ⟨hre'.wide.live, hre'.wide.type, hre'.wide.size⟩, hdone⟩
      rw [gain_eq, ← zero_add ((TIMETABLE_BYTES : BitVec 64) - _)] at hsum
      exact (cost_step (cast_bytes hb) hsum).trans (zero_add _)

end LevelTable

end Kremlin.Shadow
