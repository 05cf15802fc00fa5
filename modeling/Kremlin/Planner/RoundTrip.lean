/-
  Kremlin.Planner.RoundTrip — what the runtime writes, the planner reads.

  The two programs agree by field order and byte order only.  Every reader of
  `TraceReader` reads exactly what the writer of the same name writes
  (`Reads`), so the records of the file come back in order, and a truncated
  file gives back the records it holds in full.
-/
import Kremlin.Planner.TraceReader
import Kremlin.Runtime.RegionFile
import Mathlib.Data.List.Nodup

namespace Kremlin.Planner

open Kremlin.Library Kremlin.Runtime

/-! ## §1. What a record says. -/

/-- The page as the planner holds it. -/
def statOf (stat : StatPage) : CRegionStat where
  nInstance := stat.num_instances.toNat
  work := stat.total_work.toNat
  tpWork := stat.total_par_per_work.toNat
  spWork := stat.self_par_per_work.toNat
  minSP := stat.minSPInt.toNat
  maxSP := stat.maxSPInt.toNat
  totalIter := stat.num_dynamic_child_regions.toNat
  minIter := stat.min_dynamic_child_regions.toNat
  maxIter := stat.max_dynamic_child_regions.toNat

/-- The entry of a node: its own fields, the ids of its children from the last
to the first, and its pages. -/
def entryOf (n : Node) : TraceEntry where
  uid := n.id.toNat
  sid := n.info.static_id.toNat
  callsiteID := n.info.callsite_id.toNat
  type := n.info.node_type.code.toNat
  recursionTarget := (n.info.recursion.getD 0).toNat
  cnt := n.info.num_instances.toNat
  pbit := n.info.is_doall ≠ 0
  childrenSet := n.children.reverse.map fun child => child.id.toNat
  statList := n.info.stats.map statOf

/-! ## §2. Fields. -/

/-- **One field.**  `readReversed` undoes `fwrite`. -/
theorem reads_fwrite (x : UInt64) : Reads .eof readReversed (fwrite x) x := by
  have hlen : (fwrite x).length = 8 := length_leBytes 8 x.toNat
  -- the bytes are written in one order, read in the other and reversed
  have hrev : reverseBytes (UInt64.ofNat (leValue (fwrite x).reverse)) = x := by
    have hlt := leValue_lt (fwrite x).reverse
    rw [List.length_reverse, hlen] at hlt
    have hmid : leBytes 8 (leValue (fwrite x).reverse) = (fwrite x).reverse := by
      have h := leBytes_leValue (fwrite x).reverse
      rwa [List.length_reverse, hlen] at h
    unfold reverseBytes
    rw [UInt64.toNat_ofNat_of_lt' (by simpa using hlt), hmid, List.reverse_reverse]
    unfold fwrite
    rw [leValue_leBytes, Nat.mod_eq_of_lt (by simpa using x.toNat_lt), UInt64.ofNat_toNat]
  have hlong : Reads .eof readLong (fwrite x) (UInt64.ofNat (leValue (fwrite x).reverse)) := by
    refine ⟨fun rest => ?_, fun k hk => ?_⟩
    · have htake : (fwrite x ++ rest).take 8 = fwrite x := by
        rw [← hlen, List.take_left']
        rfl
      have hdrop : (fwrite x ++ rest).drop 8 = rest := by
        rw [← hlen, List.drop_left']
        rfl
      have hge : 8 ≤ (fwrite x ++ rest).length := by
        rw [List.length_append, hlen]
        exact Nat.le_add_right _ _
      show readLong (fwrite x ++ rest) = _
      rw [readLong, if_pos hge, htake, hdrop]
    · rw [hlen] at hk
      show readLong ((fwrite x).take k) = _
      rw [readLong, if_neg]
      rw [List.length_take, hlen]
      omega
  have h := hlong.map (f := reverseBytes)
  rw [hrev] at h
  exact h

/-- A reader that takes nothing, before another. -/
theorem reads_nothing_bind {α γ : Type} {p : Input α} {v : α} {f : α → Input γ} {bs : List UInt8}
    {w : γ} (hp : Reads .eof p [] v) (hf : Reads .eof (f v) bs w) :
    Reads .eof (p >>= f) bs w := by
  have h := hp.bind hf
  rwa [List.nil_append] at h

/-- An assertion that holds reads nothing. -/
theorem reads_assert {cond : Bool} (h : cond = true) : Reads .eof (assert cond) [] () := by
  unfold assert
  rw [if_pos h]
  exact Reads.pure _ ()

/-! ## §3. Records. -/

/-- One child. -/
theorem reads_child (entry : TraceEntry) (child : Node) :
    Reads .eof (readChild entry) (fwrite child.id) (entry.addChild child.id.toNat) := by
  have h := (reads_fwrite child.id).bind
    (f := fun x => (pure (entry.addChild x.toNat) : Input TraceEntry)) (Reads.pure _ _)
  rwa [List.append_nil] at h

/-- One page. -/
theorem reads_stat (entry : TraceEntry) (stat : StatPage) :
    Reads .eof (readStat entry) (emitStat stat) (entry.addStat (statOf stat)) := by
  unfold emitStat readStat
  simp only [List.append_assoc]
  refine (reads_fwrite _).bind ?_
  refine (reads_fwrite _).bind ?_
  refine (reads_fwrite _).bind ?_
  refine (reads_fwrite _).bind ?_
  refine (reads_fwrite _).bind ?_
  refine (reads_fwrite _).bind ?_
  refine (reads_fwrite _).bind ?_
  refine (reads_fwrite _).bind ?_
  have h := (reads_fwrite stat.max_dynamic_child_regions).bind
    (f := fun x => (pure (entry.addStat { statOf stat with maxIter := x.toNat }) :
      Input TraceEntry)) (Reads.pure _ _)
  rwa [List.append_nil] at h

/-- The target is set on sinks, and there is nothing to set elsewhere. -/
theorem reads_target {info : NodeInfo} (hsink : info.recursion ≠ none → info.node_type = .rSink)
    (entry : TraceEntry) (htype : entry.type = info.node_type.code.toNat)
    (hzero : entry.recursionTarget = 0) :
    Reads .eof (readTarget entry (info.recursion.getD 0)) []
      { entry with recursionTarget := (info.recursion.getD 0).toNat } := by
  unfold readTarget
  by_cases hr : info.recursion.getD 0 = 0
  · rw [if_neg (fun h => h hr), hr]
    have heq : ({ entry with recursionTarget := (0 : UInt64).toNat } : TraceEntry) = entry := by
      cases entry
      simp_all
    rw [heq]
    exact Reads.pure _ entry
  · rw [if_pos hr]
    have hsome : info.recursion ≠ none := by
      intro hnone
      rw [hnone] at hr
      exact hr rfl
    refine reads_nothing_bind (reads_assert ?_) (Reads.pure _ _)
    rw [htype, hsink hsome]
    rfl

/-- Adding distinct ids one after another lists them. -/
theorem foldl_addChild :
    ∀ (ids : List ℕ) (entry : TraceEntry), (entry.childrenSet ++ ids).Nodup →
      ids.foldl TraceEntry.addChild entry
        = { entry with childrenSet := entry.childrenSet ++ ids }
  | [], entry, _ => by rw [List.append_nil]; rfl
  | id :: ids, entry, h => by
      have hnot : id ∉ entry.childrenSet := by
        intro hmem
        exact (List.nodup_append.mp h).2.2 id hmem id List.mem_cons_self rfl
      have hadd : entry.addChild id = { entry with childrenSet := entry.childrenSet ++ [id] } := by
        unfold TraceEntry.addChild
        rw [if_neg hnot]
      rw [List.foldl_cons, hadd, foldl_addChild]
      · rw [List.append_assoc, List.singleton_append]
      · show ((entry.childrenSet ++ [id]) ++ ids).Nodup
        rw [List.append_assoc, List.singleton_append]
        exact h

/-- The pages in order. -/
theorem foldl_addStat :
    ∀ (stats : List CRegionStat) (entry : TraceEntry),
      stats.foldl TraceEntry.addStat entry
        = { entry with statList := entry.statList ++ stats }
  | [], entry => by rw [List.append_nil]; rfl
  | stat :: stats, entry => by
      rw [List.foldl_cons, foldl_addStat]
      simp [TraceEntry.addStat]

/-- A count that fits is the number of rounds. -/
theorem rounds_ofNat {n : ℕ} (h : n < 2 ^ 31) : rounds (UInt64.ofNat n) = n := by
  have hlt : n < 2 ^ 64 := Nat.lt_trans h (by decide)
  unfold rounds
  rw [UInt64.toNat_ofNat_of_lt' (by simpa using hlt), if_pos (Nat.lt_trans h (by decide))]

/-- **One record.**  `readEntry` reads a node's record as the node's entry. -/
theorem reads_record {n : Node} (hnodup : (n.children.map Node.id).Nodup)
    (hsink : n.info.recursion ≠ none → n.info.node_type = .rSink)
    (hchildren : n.children.length < 2 ^ 31) (hstats : n.info.stats.length < 2 ^ 31) :
    Reads .eof readEntry n.record (entryOf n) := by
  unfold Node.record writeRecord writeNodeStats readEntry
  simp only [List.append_assoc]
  refine (reads_fwrite _).bind ?_
  refine (reads_fwrite _).bind ?_
  refine (reads_fwrite _).bind ?_
  refine (reads_fwrite _).bind ?_
  refine reads_nothing_bind (reads_assert ?_) ?_
  · cases n.info.node_type <;> rfl
  refine (reads_fwrite _).bind ?_
  refine reads_nothing_bind (reads_target hsink _ rfl rfl) ?_
  refine (reads_fwrite _).bind ?_
  refine (reads_fwrite _).bind ?_
  refine (reads_fwrite _).bind ?_
  -- the children are written in reverse
  rw [rounds_ofNat hchildren, ← List.length_reverse]
  refine (Reads.loop (fun child : Node => fwrite child.id)
    (fun e child => TraceEntry.addChild e child.id.toNat)
    fun e child _ => reads_child e child).bind ?_
  refine (reads_fwrite _).bind ?_
  -- and the pages in order
  rw [rounds_ofNat hstats]
  have hids : ((n.children.reverse.map fun child => child.id.toNat) : List ℕ).Nodup := by
    have h : (n.children.reverse.map fun child => child.id.toNat)
        = (n.children.map Node.id).reverse.map UInt64.toNat := by
      rw [← List.map_reverse, List.map_map]
      rfl
    rw [h]
    exact List.Nodup.map (fun _ _ => UInt64.toNat_inj.mp) (List.nodup_reverse.mpr hnodup)
  have h : Reads .eof (loop readStat n.info.stats.length { entryOf n with statList := [] })
      (n.info.stats.flatMap emitStat)
      (n.info.stats.foldl (fun e stat => TraceEntry.addStat e (statOf stat))
        { entryOf n with statList := [] }) :=
    Reads.loop emitStat _ fun e stat _ => reads_stat e stat
  have hfold : n.info.stats.foldl (fun e stat => TraceEntry.addStat e (statOf stat))
      { entryOf n with statList := [] } = entryOf n := by
    have := foldl_addStat (n.info.stats.map statOf)
      { entryOf n with statList := [] }
    rw [List.foldl_map] at this
    rw [this]
    rfl
  rw [hfold] at h
  have hfoldc := foldl_addChild (n.children.reverse.map fun child => child.id.toNat)
    { entryOf n with childrenSet := [], statList := [] } (by simpa using hids)
  rw [List.foldl_map] at hfoldc
  have hstart : n.children.reverse.foldl (fun e child => TraceEntry.addChild e child.id.toNat)
      { entryOf n with childrenSet := [], statList := [] }
        = { entryOf n with statList := [] } := hfoldc
  rw [← hstart] at h
  exact h

/-! ## §4. Nodes of a tree. -/

mutual

/-- The children of a listed node are listed, in the same order. -/
theorem levels_children : ∀ (level : ℕ) (n : Node) (p : ℕ × Node), p ∈ levels level n →
    (levelsOf (p.1 + 1) p.2.children).Sublist (levels level n)
  | level, .mk info children, p, hp => by
      rw [levels, List.mem_cons] at hp
      rw [levels]
      rcases hp with rfl | hp
      · exact List.sublist_cons_self _ _
      · exact (levelsOf_children (level + 1) children p hp).cons _

/-- The children come one level below. -/
theorem levelsOf_children : ∀ (level : ℕ) (ns : List Node) (p : ℕ × Node),
    p ∈ levelsOf level ns → (levelsOf (p.1 + 1) p.2.children).Sublist (levelsOf level ns)
  | _, [], p, hp => by
      rw [levelsOf] at hp
      exact absurd hp List.not_mem_nil
  | level, child :: rest, p, hp => by
      rw [levelsOf, List.mem_append] at hp
      rw [levelsOf]
      rcases hp with hp | hp
      · exact (levelsOf_children level rest p hp).trans (List.sublist_append_left _ _)
      · exact (levels_children level child p hp).trans (List.sublist_append_right _ _)

end

/-- The nodes of a forest start with its trees' roots. -/
theorem roots_sublist (level : ℕ) : ∀ (ns : List Node),
    (ns.reverse.map fun n => (level, n)).Sublist (levelsOf level ns)
  | [] => by simp [levelsOf]
  | .mk info children :: rest => by
      rw [List.reverse_cons, List.map_append, levelsOf]
      refine (roots_sublist level rest).append ?_
      rw [List.map_singleton, levels]
      exact List.singleton_sublist.mpr List.mem_cons_self

/-- The children of a listed node have distinct ids. -/
theorem children_nodup {root : Node} (h : root.RegionTreeOk) {p : ℕ × Node}
    (hp : p ∈ levels 0 root) : (p.2.children.map Node.id).Nodup := by
  have hsub := ((roots_sublist (p.1 + 1) p.2.children).trans (levels_children 0 root p hp)).map
    fun q => q.2.id
  have hnd := h.ids_nodup.sublist hsub
  rw [List.map_map, List.map_reverse] at hnd
  exact List.nodup_reverse.mp hnd

/-- What is written are the nodes of the window's levels. -/
theorem mem_emitted {w : Window} {root m : Node} :
    m ∈ emitted w root ↔ ∃ level, (level, m) ∈ levels 0 root ∧ isEmittable w level = true := by
  unfold emitted
  rw [List.mem_map]
  constructor
  · rintro ⟨⟨level, n⟩, hn, rfl⟩
    exact ⟨level, List.mem_filter.mp hn⟩
  · rintro ⟨level, hm, hlevel⟩
    exact ⟨(level, m), List.mem_filter.mpr ⟨hm, hlevel⟩, rfl⟩

/-- Every emitted node's record is read back. -/
theorem reads_emitted {w : Window} {root : Node} (h : root.RegionTreeOk) :
    ∀ n ∈ emitted w root, Reads .eof readEntry n.record (entryOf n) ∧ n.record ≠ [] := by
  intro n hn
  obtain ⟨level, hm, -⟩ := mem_emitted.mp hn
  refine ⟨reads_record (children_nodup h hm) (h.target_sink _ hm) (h.children_int _ hm)
    (h.stats_int _ hm), ?_⟩
  simp [Node.record, writeRecord, writeNodeStats, fwrite, leBytes]

/-- What the planner reads from any truncation of the file. -/
theorem traceReader_take {w : Window} {root : Node} (h : root.RegionTreeOk) (k : ℕ) :
    traceReader ((writeRegionStats w 0 root).take k)
      = .ok (((emitted w root).take
          (wholeIn k ((emitted w root).map Node.record))).map entryOf) := by
  unfold traceReader
  rw [file_eq]
  have hend : readEntry.run [] = .error .eof := rfl
  exact readAll_take hend k _ (reads_emitted h) (Nat.lt_succ_self _)

/-- What the planner reads from the file. -/
theorem traceReader_file {w : Window} {root : Node} (h : root.RegionTreeOk) :
    traceReader (writeRegionStats w 0 root) = .ok ((emitted w root).map entryOf) := by
  have htake := traceReader_take (w := w) h (writeRegionStats w 0 root).length
  rw [List.take_length] at htake
  have hwhole : wholeIn (writeRegionStats w 0 root).length ((emitted w root).map Node.record)
      = (emitted w root).length := by
    rw [wholeIn_of_le, List.length_map]
    rw [file_eq, List.flatMap_def]
  rw [htake, hwhole, List.take_length]

/-- **Round trip.**  From the bytes the runtime writes for a region tree and a
window, the planner reads one entry for each emitted node, in the writer's
order, equal to the node in every field; from the first `k` bytes, exactly the
entries whose records lie wholly within them. -/
theorem kremlin_bin_round_trip (w : Window) (root : Node) (h : root.RegionTreeOk) :
    traceReader (writeRegionStats w 0 root) = .ok ((emitted w root).map entryOf) ∧
      ∀ k, traceReader ((writeRegionStats w 0 root).take k)
        = .ok (((emitted w root).take
            (wholeIn k ((emitted w root).map Node.record))).map entryOf) :=
  ⟨traceReader_file h, traceReader_take h⟩

/-- A function with a loop and a recursive function below it, cut to two
levels. -/
theorem kremlin_bin_round_trip_example :
    let root : Node := .mk (.onePage 2 .normal none)
      [.mk (.onePage 3 .normal none) [],
        .mk (.onePage 4 .rInit none) [.mk (.onePage 5 .rSink (some 4)) []]]
    (traceReader (writeRegionStats ⟨0, 2⟩ 0 root)).toOption.map (·.map TraceEntry.uid)
      = some [2, 4, 3] := by
  intro root
  rw [(kremlin_bin_round_trip ⟨0, 2⟩ root
    ⟨by decide, by decide, by decide, by decide, by decide⟩).1]
  decide

/-! ## §5. References. -/

/-- Every uid a record refers to is the uid of a record. -/
def ReferencesResolved (entries : List TraceEntry) : Prop :=
  ∀ e ∈ entries, (∀ x ∈ e.childrenSet, ∃ e' ∈ entries, e'.uid = x) ∧
    (e.recursionTarget ≠ 0 → ∃ e' ∈ entries, e'.uid = e.recursionTarget)

/-- The file can be read, and every lookup by uid finds an entry. -/
def ClosedFile (bytes : List UInt8) : Prop :=
  ∃ entries, traceReader bytes = .ok entries ∧ ReferencesResolved entries

/-- The window cuts no reference of the tree: a written node with children is
above the last level of the window, and the target of a written node is not
above the first. -/
def WindowCutsNothing (w : Window) (root : Node) : Prop :=
  ∀ p ∈ levels 0 root, isEmittable w p.1 = true →
    (p.2.children ≠ [] → p.1 + 1 < w.maxLevel) ∧
    ∀ target ∈ p.2.info.recursion, ∀ q ∈ levels 0 root, q.2.id = target → w.minLevel ≤ q.1

/-- Levelled nodes are told apart by their ids. -/
theorem levels_inj {root : Node} (h : root.RegionTreeOk) {p q : ℕ × Node}
    (hp : p ∈ levels 0 root) (hq : q ∈ levels 0 root) (heq : p.2.id = q.2.id) : p = q :=
  List.inj_on_of_nodup_map h.ids_nodup hp hq heq

/-- A uid is found exactly when its node is emitted. -/
theorem entry_found_iff {w : Window} {root : Node} (h : root.RegionTreeOk) {q : ℕ × Node}
    (hq : q ∈ levels 0 root) :
    (∃ e ∈ (emitted w root).map entryOf, e.uid = q.2.id.toNat) ↔ isEmittable w q.1 = true := by
  constructor
  · rintro ⟨e, he, huid⟩
    obtain ⟨m, hm, rfl⟩ := List.mem_map.mp he
    obtain ⟨level, hmem, hlevel⟩ := mem_emitted.mp hm
    obtain rfl := levels_inj h hmem hq (UInt64.toNat_inj.mp huid)
    exact hlevel
  · intro hlevel
    exact ⟨entryOf q.2, List.mem_map_of_mem (mem_emitted.mpr ⟨q.1, hq, hlevel⟩), rfl⟩

/-- A child of a listed node is listed one level below. -/
theorem child_mem_levels {root : Node} {p : ℕ × Node} (hp : p ∈ levels 0 root) {child : Node}
    (hc : child ∈ p.2.children) : (p.1 + 1, child) ∈ levels 0 root := by
  refine ((roots_sublist (p.1 + 1) p.2.children).trans (levels_children 0 root p hp)).subset ?_
  exact List.mem_map.mpr ⟨child, List.mem_reverse.mpr hc, rfl⟩

/-- The references of the emitted records are resolved exactly when the window
cuts none of them. -/
theorem referencesResolved_iff {w : Window} {root : Node} (h : root.RegionTreeOk)
    (ht : root.TargetsAbove) :
    ReferencesResolved ((emitted w root).map entryOf) ↔ WindowCutsNothing w root := by
  constructor
  · intro hres p hp hlevel
    obtain ⟨hchild, htarget⟩ := hres (entryOf p.2)
      (List.mem_map_of_mem (mem_emitted.mpr ⟨p.1, hp, hlevel⟩))
    refine ⟨fun hne => ?_, fun target (hrec : p.2.info.recursion = some target) q hq hid => ?_⟩
    · obtain ⟨child, hc⟩ := List.exists_mem_of_ne_nil _ hne
      have hmem : child.id.toNat ∈ (entryOf p.2).childrenSet :=
        List.mem_map.mpr ⟨child, List.mem_reverse.mpr hc, rfl⟩
      have hemit := (entry_found_iff (w := w) h (child_mem_levels hp hc)).mp (hchild _ hmem)
      unfold isEmittable at hemit
      simp only [Bool.and_eq_true, decide_eq_true_eq] at hemit
      exact hemit.2
    · have hrt : (entryOf p.2).recursionTarget = q.2.id.toNat := by
        show (p.2.info.recursion.getD 0).toNat = _
        rw [hrec, hid]
        rfl
      -- ids are not 0, so a target is no missing one
      have hne : (entryOf p.2).recursionTarget ≠ 0 := by
        rw [hrt]
        intro h0
        exact h.id_ne q hq (UInt64.toNat_inj.mp h0)
      have hfound := htarget hne
      rw [hrt] at hfound
      have hemit := (entry_found_iff h hq).mp hfound
      unfold isEmittable at hemit
      simp only [Bool.and_eq_true, decide_eq_true_eq] at hemit
      exact hemit.1
  · intro hcut e he
    obtain ⟨m, hm, rfl⟩ := List.mem_map.mp he
    obtain ⟨level, hmem, hlevel⟩ := mem_emitted.mp hm
    obtain ⟨hchild, htarget⟩ := hcut (level, m) hmem hlevel
    refine ⟨fun x hx => ?_, fun hne => ?_⟩
    · obtain ⟨child, hc, rfl⟩ := List.mem_map.mp hx
      have hc' : child ∈ m.children := List.mem_reverse.mp hc
      have hlt := hchild (List.ne_nil_of_mem hc')
      refine (entry_found_iff h (child_mem_levels hmem hc')).mpr ?_
      unfold isEmittable at hlevel ⊢
      simp only [Bool.and_eq_true, decide_eq_true_eq] at hlevel ⊢
      exact ⟨Nat.le_succ_of_le hlevel.1, hlt⟩
    · cases hrec : m.info.recursion with
      | none =>
          refine absurd ?_ hne
          show (m.info.recursion.getD 0).toNat = 0
          rw [hrec]
          rfl
      | some target =>
          obtain ⟨q, hq, hid, hlt⟩ := ht (level, m) hmem target hrec
          have hrt : (entryOf m).recursionTarget = q.2.id.toNat := by
            show (m.info.recursion.getD 0).toNat = _
            rw [hrec, hid]
            rfl
          rw [hrt]
          refine (entry_found_iff h hq).mpr ?_
          have hmin := htarget target hrec q hq hid
          unfold isEmittable at hlevel ⊢
          simp only [Bool.and_eq_true, decide_eq_true_eq] at hlevel ⊢
          exact ⟨hmin, Nat.lt_trans hlt hlevel.2⟩

/-- **When the profile file is closed under references**: exactly when the
window cuts no reference of the tree. -/
theorem closedFile_iff (w : Window) (root : Node) (h : root.RegionTreeOk) (ht : root.TargetsAbove) :
    ClosedFile (writeRegionStats w 0 root) ↔ WindowCutsNothing w root := by
  rw [← referencesResolved_iff h ht]
  unfold ClosedFile
  rw [traceReader_file h]
  constructor
  · rintro ⟨entries, heq, hres⟩
    obtain rfl := Except.ok.inj heq
    exact hres
  · exact fun hres => ⟨_, rfl, hres⟩

/-- A function that recurses, in a window that holds all of it. -/
theorem closedFile_iff_recursive :
    ClosedFile (writeRegionStats ⟨0, 32⟩ 0
      (.mk (.onePage 2 .rInit none) [.mk (.onePage 3 .rSink (some 2)) []])) := by
  have hmem : ∀ p ∈ levels 0 (.mk (.onePage 2 .rInit none) [.mk (.onePage 3 .rSink (some 2)) []]),
      p = (0, .mk (.onePage 2 .rInit none) [.mk (.onePage 3 .rSink (some 2)) []]) ∨
        p = (1, .mk (.onePage 3 .rSink (some 2)) []) := by
    intro p hp
    simpa [levels, levelsOf] using hp
  have hinit : (0, Node.mk (.onePage 2 .rInit none) [.mk (.onePage 3 .rSink (some 2)) []]) ∈
      levels 0 (.mk (.onePage 2 .rInit none) [.mk (.onePage 3 .rSink (some 2)) []]) :=
    List.mem_cons_self
  refine (closedFile_iff ⟨0, 32⟩ (.mk (.onePage 2 .rInit none) [.mk (.onePage 3 .rSink (some 2)) []])
    ⟨by decide, by decide, by decide, by decide, by decide⟩ ?_).mpr ?_
  · intro p hp target ht
    rcases hmem p hp with rfl | rfl
    · cases ht
    · cases ht
      exact ⟨_, hinit, rfl, Nat.one_pos⟩
  · intro p hp _
    rcases hmem p hp with rfl | rfl
    · exact ⟨fun _ => by decide, fun target ht => by cases ht⟩
    · exact ⟨fun hne => absurd rfl hne, fun _ _ _ _ _ => Nat.zero_le _⟩

/-- A window of one level below which the tree goes on, and a window that
starts below a sink's target: neither file is closed. -/
theorem not_closedFile :
    ¬ ClosedFile (writeRegionStats ⟨0, 1⟩ 0
        (.mk (.onePage 2 .normal none) [.mk (.onePage 3 .normal none) []])) ∧
      ¬ ClosedFile (writeRegionStats ⟨1, 32⟩ 0
        (.mk (.onePage 2 .rInit none) [.mk (.onePage 3 .rSink (some 2)) []])) := by
  unfold ClosedFile
  rw [traceReader_file ⟨by decide, by decide, by decide, by decide, by decide⟩,
    traceReader_file ⟨by decide, by decide, by decide, by decide, by decide⟩]
  constructor
  · rintro ⟨entries, heq, hres⟩
    obtain rfl := Except.ok.inj heq
    revert hres
    unfold ReferencesResolved
    decide
  · rintro ⟨entries, heq, hres⟩
    obtain rfl := Except.ok.inj heq
    revert hres
    unfold ReferencesResolved
    decide

end Kremlin.Planner
