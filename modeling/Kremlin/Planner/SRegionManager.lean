/-
  Kremlin.Planner.SRegionManager — the static regions a profile refers to.

  `SRegionManager.java` reads the static region file, a region a line, and keeps
  call sites apart from the other regions.  `readBinaryFile` of
  `CRegionManager.java` looks up the static region of every entry there, and its
  call site unless that is 0; both lookups assert that they find something.

  Main results:
    * `SRegionManager.staticOf_isSome_iff` — the lookups of an entry succeed
      exactly when the file lists what the entry names.
    * `CRegionManager.new_isSome_iff` — the constructor of the planner's regions
      succeeds exactly when `readBinaryFile` does and the file lists what all
      entries name.
-/
import Kremlin.Planner.CRegionManager
import Kremlin.Planner.SRegionReader

namespace Kremlin.Planner

open Kremlin.Library SRegionReader

/-- `SRegionManager`; an id is the unsigned value of its 64 bits. -/
structure SRegionManager where
  sMap : KeyMap ℕ SRegion
  callSiteMap : KeyMap ℕ SRegion

namespace SRegionManager

/-! ## §1. The file. -/

/-- The region that the constructor puts under id 0. -/
def rootRegion : SRegion where
  id := 0
  name := "root"
  module := "root"
  func := "root"
  startLine := 0
  endLine := 0
  type := .loop

/-- An entity of the file, in the map for its type. -/
def add (sManager : SRegionManager) (entity : SRegion) : SRegionManager :=
  if entity.type = .callsite then
    { sManager with callSiteMap := sManager.callSiteMap.put entity.id.toNat entity }
  else { sManager with sMap := sManager.sMap.put entity.id.toNat entity }

/-- `parseSRegionFile`; a line that cannot be read ends in `assert(false)`. -/
def parseSRegionFile (sManager : SRegionManager) (lines : List (List Char)) :
    Option SRegionManager :=
  lines.foldlM (fun sManager line => (createSRegionNew line).map sManager.add) sManager

/-- The constructor: the root region, then the file. -/
def new (lines : List (List Char)) : Option SRegionManager :=
  parseSRegionFile ⟨KeyMap.empty.put 0 rootRegion, KeyMap.empty⟩ lines

/-- `getSRegion`. -/
def getSRegion (sManager : SRegionManager) (id : ℕ) : Option SRegion := sManager.sMap.get id

/-- `getCallSite`. -/
def getCallSite (sManager : SRegionManager) (id : ℕ) : Option SRegion :=
  sManager.callSiteMap.get id

/-! ## §2. What the maps hold. -/

/-- The regions of the lines that can be read. -/
def regionsOf (lines : List (List Char)) : List SRegion := lines.filterMap createSRegionNew

/-- A file that can be read leaves the entities of its lines, added in order. -/
theorem parseSRegionFile_eq {lines : List (List Char)} :
    ∀ {sManager sManager' : SRegionManager}, parseSRegionFile sManager lines = some sManager' →
      sManager' = (regionsOf lines).foldl add sManager := by
  induction lines with
  | nil =>
      intro sManager sManager' h
      exact (Option.some.inj h).symm
  | cons line lines ih =>
      intro sManager sManager' h
      unfold parseSRegionFile at h
      rw [List.foldlM_cons] at h
      cases hline : createSRegionNew line with
      | none =>
          rw [hline] at h
          cases h
      | some entity =>
          rw [hline] at h
          have hregions : regionsOf (line :: lines) = entity :: regionsOf lines := by
            unfold regionsOf
            rw [List.filterMap_cons, hline]
          rw [hregions, List.foldl_cons]
          exact ih h

/-- Which ids have a static region after some entities more. -/
theorem isSome_getSRegion_foldl (entities : List SRegion) (id : ℕ) :
    ∀ sManager : SRegionManager, ((entities.foldl add sManager).getSRegion id).isSome ↔
      (sManager.getSRegion id).isSome ∨
        ∃ s ∈ entities, s.type ≠ .callsite ∧ s.id.toNat = id := by
  induction entities with
  | nil => simp
  | cons entity entities ih =>
      intro sManager
      have hone : ((sManager.add entity).getSRegion id).isSome ↔
          (sManager.getSRegion id).isSome ∨ (entity.type ≠ .callsite ∧ entity.id.toNat = id) := by
        unfold add getSRegion
        by_cases htype : entity.type = .callsite
        · simp [htype]
        · by_cases hid : id = entity.id.toNat
          · simp [htype, hid]
          · simp [htype, KeyMap.get_put_ne hid, Ne.symm hid]
      rw [List.foldl_cons, ih, hone, or_assoc]
      simp only [List.mem_cons, exists_eq_or_imp]

/-- Which ids have a call site after some entities more. -/
theorem isSome_getCallSite_foldl (entities : List SRegion) (id : ℕ) :
    ∀ sManager : SRegionManager, ((entities.foldl add sManager).getCallSite id).isSome ↔
      (sManager.getCallSite id).isSome ∨
        ∃ s ∈ entities, s.type = .callsite ∧ s.id.toNat = id := by
  induction entities with
  | nil => simp
  | cons entity entities ih =>
      intro sManager
      have hone : ((sManager.add entity).getCallSite id).isSome ↔
          (sManager.getCallSite id).isSome ∨ (entity.type = .callsite ∧ entity.id.toNat = id) := by
        unfold add getCallSite
        by_cases htype : entity.type = .callsite
        · by_cases hid : id = entity.id.toNat
          · simp [htype, hid]
          · simp [htype, KeyMap.get_put_ne hid, Ne.symm hid]
        · simp [htype]
      rw [List.foldl_cons, ih, hone, or_assoc]
      simp only [List.mem_cons, exists_eq_or_imp]

/-- Every static region is kept under its id. -/
def Keyed (sManager : SRegionManager) : Prop :=
  ∀ id s, sManager.getSRegion id = some s → s.id.toNat = id

/-- All the lines of a file. -/
theorem Keyed.foldl_add (entities : List SRegion) :
    ∀ {sManager : SRegionManager}, sManager.Keyed → (entities.foldl add sManager).Keyed := by
  induction entities with
  | nil => exact fun h => h
  | cons entity entities ih =>
      intro sManager h
      rw [List.foldl_cons]
      refine ih fun id s hs => ?_
      unfold add getSRegion at hs
      by_cases htype : entity.type = .callsite
      · rw [if_pos htype] at hs
        exact h id s hs
      · rw [if_neg htype, KeyMap.get_put] at hs
        by_cases hid : id = entity.id.toNat
        · rw [if_pos hid] at hs
          rw [← Option.some.inj hs, hid]
        · rw [if_neg hid] at hs
          exact h id s hs

/-- What is read from a file is kept by id. -/
theorem keyed_of_new {lines : List (List Char)} {sManager : SRegionManager}
    (h : new lines = some sManager) : sManager.Keyed := by
  rw [parseSRegionFile_eq h]
  refine Keyed.foldl_add _ fun id s hs => ?_
  unfold getSRegion at hs
  rw [KeyMap.get_put] at hs
  by_cases hid : id = 0
  · rw [if_pos hid] at hs
    rw [← Option.some.inj hs, hid]
    rfl
  · rw [if_neg hid] at hs
    cases hs

/-! ## §3. The lookups of an entry. -/

/-- The file lists a static id, unless it is the root's, and a call site, unless
it is 0. -/
def Lists (lines : List (List Char)) (sid callsiteID : ℕ) : Prop :=
  (sid = 0 ∨ ∃ s ∈ regionsOf lines, s.type ≠ .callsite ∧ s.id.toNat = sid) ∧
    (callsiteID = 0 ∨ ∃ s ∈ regionsOf lines, s.type = .callsite ∧ s.id.toNat = callsiteID)

instance (lines : List (List Char)) (sid callsiteID : ℕ) :
    Decidable (Lists lines sid callsiteID) :=
  inferInstanceAs (Decidable (_ ∧ _))

/-- The static region and the call site that `readBinaryFile` looks up for an entry. -/
def staticOf (sManager : SRegionManager) (entry : TraceEntry) :
    Option (SRegion × Option SRegion) := do
  let sregion ← sManager.getSRegion entry.sid
  if entry.callsiteID ≠ 0 then do
    let callSite ← sManager.getCallSite entry.callsiteID
    some (sregion, some callSite)
  else some (sregion, none)

/-- **The lookups succeed exactly on what the file lists.** -/
theorem staticOf_isSome_iff {lines : List (List Char)} {sManager : SRegionManager}
    (h : new lines = some sManager) (entry : TraceEntry) :
    (sManager.staticOf entry).isSome ↔ Lists lines entry.sid entry.callsiteID := by
  have hregion : (sManager.getSRegion entry.sid).isSome ↔ entry.sid = 0 ∨
      ∃ s ∈ regionsOf lines, s.type ≠ .callsite ∧ s.id.toNat = entry.sid := by
    rw [parseSRegionFile_eq h, isSome_getSRegion_foldl]
    unfold getSRegion
    by_cases hroot : entry.sid = 0
    · simp [hroot]
    · rw [KeyMap.get_put_ne hroot]
      simp [KeyMap.empty, hroot]
  have hcallSite : (sManager.getCallSite entry.callsiteID).isSome ↔
      ∃ s ∈ regionsOf lines, s.type = .callsite ∧ s.id.toNat = entry.callsiteID := by
    rw [parseSRegionFile_eq h, isSome_getCallSite_foldl]
    simp [getCallSite, KeyMap.empty]
  unfold Lists staticOf
  rw [← hregion, ← hcallSite]
  cases sManager.getSRegion entry.sid with
  | none => simp
  | some sregion =>
      by_cases hzero : entry.callsiteID = 0
      · simp [hzero]
      · cases sManager.getCallSite entry.callsiteID with
        | none => simp [hzero]
        | some callSite => simp [hzero]

/-- The static region found has the id of the entry. -/
theorem staticOf_id {lines : List (List Char)} {sManager : SRegionManager}
    (h : new lines = some sManager) {entry : TraceEntry} {statics : SRegion × Option SRegion}
    (hstatics : sManager.staticOf entry = some statics) : statics.1.id.toNat = entry.sid := by
  unfold staticOf at hstatics
  obtain ⟨sregion, hsregion, hstatics⟩ := Option.bind_eq_some_iff.mp hstatics
  have hid := keyed_of_new h _ _ hsregion
  by_cases hzero : entry.callsiteID ≠ 0
  · rw [if_pos hzero] at hstatics
    obtain ⟨callSite, -, hstatics⟩ := Option.bind_eq_some_iff.mp hstatics
    rw [← Option.some.inj hstatics]
    exact hid
  · rw [if_neg hzero] at hstatics
    rw [← Option.some.inj hstatics]
    exact hid

end SRegionManager

/-! ## §4. The constructor of the planner's regions. -/

namespace CRegionManager

/-- The `region` and the `callSite` of each region, under its uid. -/
abbrev Statics := KeyMap ℕ (SRegion × Option SRegion)

/-- The fields of one entry's region. -/
def addStatic (sManager : SRegionManager) (statics : Statics) (entry : TraceEntry) :
    Option Statics :=
  (sManager.staticOf entry).map (statics.put entry.uid)

/-- `CRegionManager(sManager, binFile)`, from the records of the file on: the regions,
linked and weighted, and what each got from the static region file. -/
def new (sManager : SRegionManager) (fuel : ℕ) (traceList : List TraceEntry) :
    Option (RegionMap × Statics) := do
  let statics ← traceList.foldlM (addStatic sManager) KeyMap.empty
  let regionMap ← readBinaryFile fuel traceList
  some (regionMap, statics)

/-- The fields are found exactly when every entry's are. -/
theorem foldlM_addStatic_isSome (sManager : SRegionManager) {traceList : List TraceEntry} :
    ∀ statics : Statics, (traceList.foldlM (addStatic sManager) statics).isSome ↔
      ∀ entry ∈ traceList, (sManager.staticOf entry).isSome := by
  induction traceList with
  | nil => simp
  | cons entry traceList ih =>
      intro statics
      rw [List.foldlM_cons, List.forall_mem_cons]
      unfold addStatic
      cases hentry : sManager.staticOf entry with
      | none => simp
      | some found =>
          simp only [Option.map_some, Option.bind_eq_bind, Option.bind_some, Option.isSome_some,
            true_and]
          exact ih _

/-- Entries of other uids leave the fields of a region alone. -/
theorem get_foldlM_addStatic_of_not_mem {sManager : SRegionManager} {traceList : List TraceEntry}
    {uid : ℕ} (huid : uid ∉ traceList.map TraceEntry.uid) :
    ∀ {statics statics' : Statics},
      traceList.foldlM (addStatic sManager) statics = some statics' →
        statics'.get uid = statics.get uid := by
  induction traceList with
  | nil =>
      intro statics statics' h
      rw [← Option.some.inj h]
  | cons entry traceList ih =>
      intro statics statics' h
      rw [List.map_cons, List.mem_cons, not_or] at huid
      rw [List.foldlM_cons] at h
      obtain ⟨between, hbetween, h⟩ := Option.bind_eq_some_iff.mp h
      obtain ⟨found, -, rfl⟩ := Option.map_eq_some_iff.mp hbetween
      rw [ih huid.2 h, KeyMap.get_put_ne huid.1]

/-- Where no two entries have one uid, each region has the fields of its entry. -/
theorem get_foldlM_addStatic {sManager : SRegionManager} {traceList : List TraceEntry}
    (hnd : (traceList.map TraceEntry.uid).Nodup) :
    ∀ {statics statics' : Statics},
      traceList.foldlM (addStatic sManager) statics = some statics' →
        ∀ entry ∈ traceList, statics'.get entry.uid = sManager.staticOf entry := by
  induction traceList with
  | nil => exact fun _ entry hentry => absurd hentry List.not_mem_nil
  | cons first traceList ih =>
      intro statics statics' h entry hentry
      rw [List.map_cons, List.nodup_cons] at hnd
      rw [List.foldlM_cons] at h
      obtain ⟨between, hbetween, h⟩ := Option.bind_eq_some_iff.mp h
      obtain ⟨found, hfound, rfl⟩ := Option.map_eq_some_iff.mp hbetween
      rcases List.mem_cons.mp hentry with rfl | hentry
      · rw [get_foldlM_addStatic_of_not_mem hnd.1 h, KeyMap.get_put_self, hfound]
      · exact ih hnd.2 h entry hentry

/-- **What the planner accepts**: the records that `readBinaryFile` links, and of
which the static region file lists what they name. -/
theorem new_isSome_iff {lines : List (List Char)} {sManager : SRegionManager}
    (h : SRegionManager.new lines = some sManager) (fuel : ℕ) (traceList : List TraceEntry) :
    (new sManager fuel traceList).isSome ↔ (readBinaryFile fuel traceList).isSome ∧
      ∀ entry ∈ traceList, SRegionManager.Lists lines entry.sid entry.callsiteID := by
  have hlists : (traceList.foldlM (addStatic sManager) KeyMap.empty).isSome ↔
      ∀ entry ∈ traceList, SRegionManager.Lists lines entry.sid entry.callsiteID := by
    rw [foldlM_addStatic_isSome]
    simp only [SRegionManager.staticOf_isSome_iff h]
  rw [← hlists]
  unfold new
  cases traceList.foldlM (addStatic sManager) KeyMap.empty with
  | none => simp
  | some statics =>
      cases readBinaryFile fuel traceList with
      | none => simp
      | some regionMap => simp

/-- The regions it keeps are those of `readBinaryFile`. -/
theorem readBinaryFile_of_new {sManager : SRegionManager} {fuel : ℕ}
    {traceList : List TraceEntry} {regionMap : RegionMap} {statics : Statics}
    (h : new sManager fuel traceList = some (regionMap, statics)) :
    readBinaryFile fuel traceList = some regionMap ∧
      traceList.foldlM (addStatic sManager) KeyMap.empty = some statics := by
  unfold new at h
  obtain ⟨found, hfound, h⟩ := Option.bind_eq_some_iff.mp h
  obtain ⟨read, hread, h⟩ := Option.bind_eq_some_iff.mp h
  obtain ⟨rfl, rfl⟩ := Prod.mk.inj (Option.some.inj h)
  exact ⟨hread, hfound⟩

end CRegionManager

end Kremlin.Planner
