/-
  Kremlin.Shadow.MixedWidths — 32-bit and 64-bit writes to one page.

  §1 says what a page should read after a sequence of writes: at every level
  and 4-byte word, the value of the last write that covered the word, provided
  it was made under the version asked for.  A `LevelTable` whose tables have
  arrays of their own reads so as long as no level whose table was made by a
  64-bit write is written with 32 bits: that write goes to a clone, and the
  level is left with a deleted table.  `PooledWrites` has the arrays in the pool.

  Main results:
    * `tracks_writes` — writes that keep their widths leave what they should;
    * `Tracks.readsLast` — a page with these contents reads its last writes;
    * `freed_of_not_keepsWidth` — other writes leave a deleted table.
-/
import Kremlin.Shadow.LevelTable
import Kremlin.Library.Run
import Mathlib.Data.List.Induction

namespace Kremlin.Shadow

open Kremlin.Library
open TimeTable (Covers page)

/-! ## §1. What a page should read. -/

/-- The arguments of a call of `setTimeForAddrAtLevel`. -/
structure LevelWrite where
  level : ℕ
  addr : ℕ
  ver : ℕ
  value : Time
  type : TableType
  deriving DecidableEq

/-- Writes to one page, each naturally aligned, with the versions of a level
never going back. -/
structure PageWrites (pg : ℕ) (ws : List LevelWrite) : Prop where
  levels : ∀ w ∈ ws, w.level < LevelTable.MAX_LEVEL
  aligned_64 : ∀ w ∈ ws, w.type = .type_64bit → w.addr % 8 = 0
  aligned_32 : ∀ w ∈ ws, w.type = .type_32bit → w.addr % 4 = 0
  onPage : ∀ w ∈ ws, page w.addr = pg
  ordered : ws.Pairwise fun a b => a.level = b.level → a.ver ≤ b.ver

/-- The last write at `level` that covers `word`. -/
def lastWrite (ws : List LevelWrite) (level word : ℕ) : Option LevelWrite :=
  ws.reverse.find? fun w => w.level = level ∧ Covers w.type w.addr word

/-- The version of the last write at `level`. -/
def lastVersion (ws : List LevelWrite) (level : ℕ) : ℕ :=
  ((ws.reverse.find? fun w => w.level = level).map LevelWrite.ver).getD 0

/-- The last write's value if it was made under `ver`, else 0. -/
def lastTime (ws : List LevelWrite) (level word ver : ℕ) : Time :=
  match lastWrite ws level word with
  | some w => if w.ver = ver then w.value else 0
  | none => 0

/-- The write that made the table of `level`. -/
def firstWrite (ws : List LevelWrite) (level : ℕ) : Option LevelWrite :=
  ws.find? fun w => w.level = level

/-- A level whose first write is 64 bits wide has no other. -/
def KeepsWidth (ws : List LevelWrite) : Prop :=
  ∀ level first, firstWrite ws level = some first → first.type = .type_64bit →
    ∀ w ∈ ws, w.level = level → w.type = .type_64bit

namespace LevelTable

/-- The page after one write. -/
def write (lt : LevelTable) (w : LevelWrite) : Option LevelTable :=
  (lt.setTimeForAddrAtLevel w.level w.addr w.ver w.value w.type).map Prod.fst

/-- The page after the writes, from a new table. -/
def writes (compressed : Bool) (ws : List LevelWrite) : Option LevelTable :=
  run write (new compressed) ws

end LevelTable

/-! ## §2. Appending a write. -/

theorem lastWrite_concat (ws : List LevelWrite) (w : LevelWrite) (level word : ℕ) :
    lastWrite (ws ++ [w]) level word
      = if w.level = level ∧ Covers w.type w.addr word then some w
        else lastWrite ws level word := by
  unfold lastWrite
  rw [List.reverse_append, List.reverse_singleton, List.singleton_append, List.find?_cons]
  by_cases h : w.level = level ∧ Covers w.type w.addr word
  · rw [if_pos h, decide_eq_true h]
  · rw [if_neg h, decide_eq_false h]

theorem lastVersion_concat (ws : List LevelWrite) (w : LevelWrite) (level : ℕ) :
    lastVersion (ws ++ [w]) level = if w.level = level then w.ver else lastVersion ws level := by
  unfold lastVersion
  rw [List.reverse_append, List.reverse_singleton, List.singleton_append, List.find?_cons]
  by_cases h : w.level = level
  · rw [if_pos h, decide_eq_true h]
    rfl
  · rw [if_neg h, decide_eq_false h]

theorem firstWrite_concat (ws : List LevelWrite) (w : LevelWrite) (level : ℕ) :
    firstWrite (ws ++ [w]) level
      = (firstWrite ws level).or (if w.level = level then some w else none) := by
  unfold firstWrite
  rw [List.find?_append]
  by_cases h : w.level = level <;> simp [h]

theorem mem_of_lastWrite {ws : List LevelWrite} {level word : ℕ} {w : LevelWrite}
    (h : lastWrite ws level word = some w) : w ∈ ws ∧ w.level = level := by
  have hp := List.find?_some h
  simp only [decide_eq_true_eq] at hp
  exact ⟨List.mem_reverse.mp (List.mem_of_find?_eq_some h), hp.1⟩

theorem level_ne_of_firstWrite_none {ws : List LevelWrite} {level : ℕ}
    (h : firstWrite ws level = none) : ∀ w ∈ ws, w.level ≠ level := by
  intro w hw hl
  have hn := List.find?_eq_none.mp h w hw
  simp [hl] at hn

theorem PageWrites.left {pg : ℕ} {ws ws' : List LevelWrite} (h : PageWrites pg (ws ++ ws')) :
    PageWrites pg ws where
  levels w hw := h.levels w (List.mem_append_left _ hw)
  aligned_64 w hw := h.aligned_64 w (List.mem_append_left _ hw)
  aligned_32 w hw := h.aligned_32 w (List.mem_append_left _ hw)
  onPage w hw := h.onPage w (List.mem_append_left _ hw)
  ordered := (List.pairwise_append.mp h.ordered).1

theorem KeepsWidth.left {ws : List LevelWrite} {w : LevelWrite} (h : KeepsWidth (ws ++ [w])) :
    KeepsWidth ws := by
  intro level first hf h64 w' hw' hl
  apply h level first _ h64 w' (List.mem_append_left _ hw') hl
  rw [firstWrite_concat, hf]
  rfl

/-- No write at a level has a version above the last one's. -/
theorem PageWrites.ver_le {pg : ℕ} {ws : List LevelWrite} (h : PageWrites pg ws) {w : LevelWrite}
    (hw : w ∈ ws) : w.ver ≤ lastVersion ws w.level := by
  induction ws using List.reverseRecOn with
  | nil => cases hw
  | append_singleton ws x ih =>
      rw [lastVersion_concat]
      have hordered := (List.pairwise_append.mp h.ordered).2.2
      rcases List.mem_append.mp hw with hmem | hlast
      · by_cases hx : x.level = w.level
        · rw [if_pos hx]
          exact hordered w hmem x (List.mem_singleton_self x) hx.symm
        · rw [if_neg hx]
          exact ih h.left hmem
      · cases List.mem_singleton.mp hlast
        rw [if_pos rfl]

/-- The next write at a level does not go back behind the last one. -/
theorem PageWrites.lastVersion_le {pg : ℕ} {ws : List LevelWrite} {w : LevelWrite}
    (h : PageWrites pg (ws ++ [w])) : lastVersion ws w.level ≤ w.ver := by
  have hordered := (List.pairwise_append.mp h.ordered).2.2
  unfold lastVersion
  cases hu : ws.reverse.find? fun w' => w'.level = w.level with
  | none => exact Nat.zero_le _
  | some u =>
      have hlevel := List.find?_some hu
      simp only [decide_eq_true_eq] at hlevel
      exact hordered u (List.mem_reverse.mp (List.mem_of_find?_eq_some hu)) w
        (List.mem_singleton_self w) hlevel

/-- A level not written under `ver` or later reads 0 there. -/
theorem PageWrites.lastTime_newer {pg : ℕ} {ws : List LevelWrite} (h : PageWrites pg ws)
    {level ver : ℕ} (hver : lastVersion ws level < ver) (word : ℕ) :
    lastTime ws level word ver = 0 := by
  unfold lastTime
  cases hw : lastWrite ws level word with
  | none => rfl
  | some w =>
      have hmem := mem_of_lastWrite hw
      have hle := h.ver_le hmem.1
      rw [hmem.2] at hle
      show (if w.ver = ver then w.value else 0) = 0
      rw [if_neg (by omega)]

/-! ## §3. The invariant of a page. -/

namespace LevelTable

/-- `lt` is a page whose writes were `ws` and kept their widths. -/
structure Tracks (pg : ℕ) (ws : List LevelWrite) (lt : LevelTable) : Prop where
  version : ∀ l, lt.versions l = lastVersion ws l
  untouched : ∀ l, firstWrite ws l = none → lt.time_tables l = .null
  table : ∀ l first, firstWrite ws l = some first →
    ∃ t, lt.time_tables l = .table t ∧ t.Sized ∧ t.type = first.type ∧
      ∀ word, page word = pg → t.getTimeAtAddr word = lastTime ws l word (lastVersion ws l)

theorem tracks_new (compressed : Bool) (pg : ℕ) : Tracks pg [] (new compressed) where
  version _ := rfl
  untouched _ _ := rfl
  table _ _ h := by cases h

/-- The table of a level after one more write to it, from the one it wrote to. -/
theorem table_write {pg : ℕ} {ws : List LevelWrite} {w : LevelWrite} {t : TimeTable}
    (hpg : PageWrites pg (ws ++ [w])) (hsized : t.Sized)
    (hwidth : w.type = .type_32bit → t.type = .type_32bit)
    (hread : ∀ word, page word = pg → t.getTimeAtAddr word = lastTime ws w.level word w.ver) :
    ∀ word, page word = pg → (t.setTimeAtAddr w.addr w.value w.type).getTimeAtAddr word
      = lastTime (ws ++ [w]) w.level word (lastVersion (ws ++ [w]) w.level) := by
  intro word hword
  have hmem : w ∈ ws ++ [w] := List.mem_append_right _ (List.mem_singleton_self w)
  have hpage : page w.addr = page word := (hpg.onPage w hmem).trans hword.symm
  rw [TimeTable.getTimeAtAddr_setTimeAtAddr hsized hwidth (hpg.aligned_64 w hmem) hpage]
  unfold lastTime
  rw [lastVersion_concat, if_pos rfl, lastWrite_concat]
  by_cases hc : Covers w.type w.addr word
  · rw [if_pos hc, if_pos ⟨rfl, hc⟩]
    exact (if_pos rfl).symm
  · rw [if_neg hc, if_neg (fun h => hc h.2)]
    exact hread word hword

/-- A write at one level keeps what is known of the others. -/
theorem Tracks.of_write {pg : ℕ} {ws : List LevelWrite} {w : LevelWrite} {lt lt' : LevelTable}
    (h : Tracks pg ws lt) (hw : lt.write w = some lt') {t : TimeTable}
    (ht : lt'.time_tables w.level = .table t) (hsized : t.Sized)
    (htype : ∀ first, firstWrite (ws ++ [w]) w.level = some first → t.type = first.type)
    (hread : ∀ word, page word = pg →
      t.getTimeAtAddr word = lastTime (ws ++ [w]) w.level word (lastVersion (ws ++ [w]) w.level)) :
    Tracks pg (ws ++ [w]) lt' := by
  obtain ⟨⟨lt₁, es⟩, hset, rfl⟩ := Option.map_eq_some_iff.mp hw
  have hver := versions_of_set hset
  constructor
  · intro l
    show lt₁.versions l = _
    rw [hver, lastVersion_concat, Function.update_apply]
    by_cases hl : l = w.level
    · rw [if_pos hl, if_pos hl.symm]
    · rw [if_neg hl, if_neg (fun h' => hl h'.symm), h.version]
  · intro l hnone
    have hl : l ≠ w.level := by
      intro hl
      exact level_ne_of_firstWrite_none hnone w
        (List.mem_append_right _ (List.mem_singleton_self w)) hl.symm
    have hold : firstWrite ws l = none := by
      rw [firstWrite_concat] at hnone
      exact (Option.or_eq_none_iff.mp hnone).1
    exact (time_tables_of_set hset hl).trans (h.untouched l hold)
  · intro l first hfirst
    by_cases hl : l = w.level
    · subst hl
      exact ⟨t, ht, hsized, htype first hfirst, hread⟩
    · have hold : firstWrite ws l = some first := by
        rw [firstWrite_concat, if_neg (fun h' => hl h'.symm), Option.or_none] at hfirst
        exact hfirst
      obtain ⟨t', ht', hs', hty', hr'⟩ := h.table l first hold
      refine ⟨t', (time_tables_of_set hset hl).trans ht', hs', hty', ?_⟩
      intro word hword
      rw [hr' word hword]
      unfold lastTime
      rw [lastVersion_concat, lastWrite_concat, if_neg (fun h' => hl h'.1.symm),
        if_neg (fun h' => hl h'.symm)]

/-- A first write at a level makes its table. -/
theorem write_of_null {lt : LevelTable} {w : LevelWrite} (h : lt.time_tables w.level = .null) :
    lt.write w = some ((lt.setTimeTableAtLevel w.level
      (.table ((TimeTable.new w.type).setTimeAtAddr w.addr w.value w.type))).setVersionAtLevel
        w.level w.ver) := by
  unfold LevelTable.write setTimeForAddrAtLevel
  rw [h]
  rfl

/-- A later one keeps the table, cleaned if its version is old. -/
theorem write_of_table {lt : LevelTable} {w : LevelWrite} {t : TimeTable}
    (h : lt.time_tables w.level = .table t)
    (hnot : ¬(w.type = .type_32bit ∧ t.type = .type_64bit)) :
    lt.write w = some ((lt.setTimeTableAtLevel w.level
      (.table ((if lt.versions w.level = w.ver then t else t.clean).setTimeAtAddr w.addr
        w.value w.type))).setVersionAtLevel w.level w.ver) := by
  unfold LevelTable.write setTimeForAddrAtLevel
  rw [h]
  simp only [if_neg hnot]
  rfl

/-- No table is met that is wider than the write. -/
theorem Tracks.not_narrow {pg : ℕ} {ws : List LevelWrite} {w : LevelWrite} {lt : LevelTable}
    (h : Tracks pg ws lt) (hk : KeepsWidth (ws ++ [w])) {t : TimeTable}
    (ht : lt.time_tables w.level = .table t) :
    ¬(w.type = .type_32bit ∧ t.type = .type_64bit) := by
  rintro ⟨h32, h64⟩
  cases hf : firstWrite ws w.level with
  | none =>
      rw [h.untouched w.level hf] at ht
      cases ht
  | some first =>
      obtain ⟨t', ht', -, htype, -⟩ := h.table w.level first hf
      rw [ht, TimeTablePtr.table.injEq] at ht'
      subst ht'
      have hfirst : firstWrite (ws ++ [w]) w.level = some first := by
        rw [firstWrite_concat, hf]
        rfl
      have hwide := hk w.level first hfirst (htype ▸ h64) w
        (List.mem_append_right _ (List.mem_singleton_self w)) rfl
      rw [h32] at hwide
      cases hwide

/-- **One write of the right width.** -/
theorem Tracks.write {pg : ℕ} {ws : List LevelWrite} {w : LevelWrite} {lt : LevelTable}
    (h : Tracks pg ws lt) (hpg : PageWrites pg (ws ++ [w])) (hk : KeepsWidth (ws ++ [w])) :
    ∃ lt', lt.write w = some lt' ∧ Tracks pg (ws ++ [w]) lt' := by
  have hmem : w ∈ ws ++ [w] := List.mem_append_right _ (List.mem_singleton_self w)
  cases hf : firstWrite ws w.level with
  | none =>
      -- the first write of the level makes its table
      have hslot := h.untouched w.level hf
      have hw := write_of_null hslot
      refine ⟨_, hw, h.of_write hw (Function.update_self _ _ _)
        ((TimeTable.sized_new w.type).setTimeAtAddr _ _ _) ?_ ?_⟩
      · intro first hfirst
        rw [firstWrite_concat, hf, if_pos rfl] at hfirst
        cases hfirst
        rfl
      · apply table_write hpg (TimeTable.sized_new w.type) (fun h32 => h32)
        intro word _
        rw [TimeTable.getTimeAtAddr_new]
        unfold lastTime
        cases hl : lastWrite ws w.level word with
        | none => rfl
        | some w' =>
            have hw' := mem_of_lastWrite hl
            exact absurd hw'.2 (level_ne_of_firstWrite_none hf w' hw'.1)
  | some first =>
      obtain ⟨t, hslot, hsized, htype, hread⟩ := h.table w.level first hf
      have hfirst : firstWrite (ws ++ [w]) w.level = some first := by
        rw [firstWrite_concat, hf]
        rfl
      -- a narrow write never meets a wide table, so the table is not cloned
      have hnot := h.not_narrow hk hslot
      have hwidth : w.type = .type_32bit → t.type = .type_32bit := by
        intro h32
        cases ht : t.type with
        | type_32bit => rfl
        | type_64bit => exact absurd ⟨h32, ht⟩ hnot
      have hw := write_of_table hslot hnot
      have hsame : ∀ f, firstWrite (ws ++ [w]) w.level = some f → t.type = f.type := by
        intro f hf'
        rw [hfirst] at hf'
        cases hf'
        exact htype
      have hle := hpg.lastVersion_le
      by_cases hv : lt.versions w.level = w.ver
      · -- the table is current: the write goes on top of what it holds
        rw [if_pos hv] at hw
        refine ⟨_, hw, h.of_write hw (Function.update_self _ _ _)
          (hsized.setTimeAtAddr _ _ _) hsame ?_⟩
        apply table_write hpg hsized hwidth
        intro word hword
        rw [hread word hword, ← h.version, hv]
      · -- the table is stale: nothing in it was written under the new version
        rw [if_neg hv] at hw
        refine ⟨_, hw, h.of_write hw (Function.update_self _ _ _)
          ((TimeTable.Sized.clean t).setTimeAtAddr _ _ _) hsame ?_⟩
        apply table_write hpg (TimeTable.Sized.clean t) hwidth
        intro word hword
        rw [h.version] at hv
        rw [TimeTable.getTimeAtAddr_clean, hpg.left.lastTime_newer (by omega)]

/-- **Any number of writes of the right widths.**  Induction on the number of
writes, each taken last. -/
theorem tracks_writes {pg : ℕ} (compressed : Bool) {ws : List LevelWrite}
    (hpg : PageWrites pg ws) (hk : KeepsWidth ws) :
    ∃ lt, writes compressed ws = some lt ∧ Tracks pg ws lt := by
  induction ws using List.reverseRecOn with
  | nil => exact ⟨new compressed, rfl, tracks_new compressed pg⟩
  | append_singleton ws w ih =>
      obtain ⟨lt, hrun, htracks⟩ := ih hpg.left hk.left
      obtain ⟨lt', hw, htracks'⟩ := htracks.write hpg hk
      refine ⟨lt', ?_, htracks'⟩
      rw [writes, run_append]
      show (writes compressed ws).bind _ = some lt'
      rw [hrun]
      show (lt.write w).bind some = some lt'
      rw [hw]
      rfl

theorem Tracks.readsLast {pg : ℕ} {ws : List LevelWrite} {lt : LevelTable}
    (h : Tracks pg ws lt) (hpg : PageWrites pg ws) {level word ver : ℕ} (hword : page word = pg)
    (hver : lastVersion ws level ≤ ver) :
    lt.getTimeForAddrAtLevel level word ver = some (lastTime ws level word ver) := by
  unfold getTimeForAddrAtLevel
  rw [h.version]
  by_cases hv : lastVersion ws level = ver
  · rw [if_pos hv]
    cases hf : firstWrite ws level with
    | none =>
        have hnone : lastWrite ws level word = none := by
          rw [lastWrite, List.find?_eq_none]
          intro w hw
          have := level_ne_of_firstWrite_none hf w (List.mem_reverse.mp hw)
          simp [this]
        rw [h.untouched level hf, lastTime, hnone]
    | some first =>
        obtain ⟨t, ht, -, -, hread⟩ := h.table level first hf
        rw [ht]
        show some (t.getTimeAtAddr word) = _
        rw [hread word hword, hv]
  · rw [if_neg hv, hpg.lastTime_newer (by omega)]

/-! ## §4. A 32-bit write to a 64-bit table. -/

/-- `writes` after one more write. -/
theorem writes_concat (compressed : Bool) (ws : List LevelWrite) (w : LevelWrite) :
    writes compressed (ws ++ [w]) = (writes compressed ws).bind fun lt => lt.write w := by
  rw [writes, run_append]
  show (writes compressed ws).bind _ = _
  congr 1
  funext lt
  show (lt.write w).bind some = _
  exact Option.bind_fun_some (lt.write w)

theorem versions_writes {compressed : Bool} {ws : List LevelWrite} {lt : LevelTable}
    (h : writes compressed ws = some lt) (l : ℕ) : lt.versions l = lastVersion ws l := by
  induction ws using List.reverseRecOn generalizing lt with
  | nil =>
      cases h
      rfl
  | append_singleton ws w ih =>
      rw [writes_concat] at h
      obtain ⟨lt₁, h₁, h₂⟩ := Option.bind_eq_some_iff.mp h
      obtain ⟨⟨lt₂, es⟩, hset, rfl⟩ := Option.map_eq_some_iff.mp h₂
      show lt₂.versions l = _
      rw [versions_of_set hset, lastVersion_concat, Function.update_apply, ih h₁]
      by_cases hl : l = w.level
      · rw [if_pos hl, if_pos hl.symm]
      · rw [if_neg hl, if_neg (fun h' => hl h'.symm)]

/-- The write that first breaks the rule leaves its level with a deleted
table. -/
theorem Tracks.write_narrow {pg : ℕ} {ws : List LevelWrite} {w : LevelWrite}
    {lt lt' : LevelTable} (h : Tracks pg ws lt) (hk : KeepsWidth ws)
    (hbad : ¬KeepsWidth (ws ++ [w])) (hw : lt.write w = some lt') :
    lt'.time_tables w.level = .freed := by
  have hnarrow : ∃ first, firstWrite ws w.level = some first ∧ first.type = .type_64bit ∧
      w.type = .type_32bit := by
    unfold KeepsWidth at hbad
    push Not at hbad
    obtain ⟨level, first, hfirst, h64, u, hu, hul, hu32⟩ := hbad
    have htype : u.type = .type_32bit := by
      cases hty : u.type with
      | type_32bit => rfl
      | type_64bit => exact absurd hty hu32
    rcases List.mem_append.mp hu with hmem | hlast
    · -- an old write cannot be the one that breaks the rule
      rw [firstWrite_concat] at hfirst
      cases hf : firstWrite ws level with
      | none => exact absurd hul (level_ne_of_firstWrite_none hf u hmem)
      | some f =>
          rw [hf] at hfirst
          cases hfirst
          exact absurd (hk level first hf h64 u hmem hul) hu32
    · rw [List.mem_singleton.mp hlast] at hul htype
      rw [firstWrite_concat, if_pos hul] at hfirst
      cases hf : firstWrite ws level with
      | none =>
          rw [hf] at hfirst
          cases hfirst
          rw [htype] at h64
          cases h64
      | some f =>
          rw [hf] at hfirst
          cases hfirst
          exact ⟨first, hul ▸ hf, h64, htype⟩
  obtain ⟨first, hf, h64, h32⟩ := hnarrow
  obtain ⟨t, ht, -, hty, -⟩ := h.table w.level first hf
  unfold LevelTable.write setTimeForAddrAtLevel at hw
  rw [ht] at hw
  simp only [if_pos (And.intro h32 (hty.trans h64))] at hw
  cases hw
  exact Function.update_self _ _ _

/-- A deleted table stays where it is. -/
theorem freed_of_write {lt lt' : LevelTable} {w : LevelWrite} {l : ℕ}
    (h : lt.time_tables l = .freed) (hw : lt.write w = some lt') :
    lt'.time_tables l = .freed := by
  obtain ⟨⟨lt₁, es⟩, hset, rfl⟩ := Option.map_eq_some_iff.mp hw
  by_cases hl : l = w.level
  · subst hl
    unfold setTimeForAddrAtLevel at hset
    rw [h] at hset
    cases hset
  · exact (time_tables_of_set hset hl).trans h

/-- Once the rule is broken, the run has met a deleted table or still has one. -/
theorem freed_of_not_keepsWidth {pg : ℕ} {compressed : Bool} {ws : List LevelWrite}
    {lt : LevelTable} (hpg : PageWrites pg ws) (hbad : ¬KeepsWidth ws)
    (h : writes compressed ws = some lt) : ∃ w ∈ ws, lt.time_tables w.level = .freed := by
  induction ws using List.reverseRecOn generalizing lt with
  | nil => exact absurd (fun _ _ hf => by cases hf) hbad
  | append_singleton ws w ih =>
      rw [writes_concat] at h
      obtain ⟨lt₁, h₁, h₂⟩ := Option.bind_eq_some_iff.mp h
      by_cases hk : KeepsWidth ws
      · obtain ⟨lt₂, hrun, htracks⟩ := tracks_writes compressed hpg.left hk
        rw [h₁] at hrun
        cases hrun
        exact ⟨w, List.mem_append_right _ (List.mem_singleton_self w),
          htracks.write_narrow hk hbad h₂⟩
      · obtain ⟨u, hu, hfreed⟩ := ih hpg.left hk h₁
        exact ⟨u, List.mem_append_left _ hu, freed_of_write hfreed h₂⟩

end LevelTable

end Kremlin.Shadow
