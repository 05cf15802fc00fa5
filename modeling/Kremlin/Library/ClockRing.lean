/-
  Kremlin.Library.ClockRing — second-chance replacement.

  Entries stand in a list; a hand points to one of them and moves to the next,
  from the last back to the first.  `ringFrom` is the list as the hand sees it.
  A sweep clears the marks it passes and stops at the first entry without one:
  after at most one lap every mark is clear, so it stops within a lap and one
  step, and what it stops at was unmarked unless everything was marked.
-/
import Mathlib.Data.List.Basic
import Mathlib.Tactic.Common

namespace Kremlin.Library

variable {α β : Type} [DecidableEq α]

/-! ## §1. The ring seen from an entry. -/

/-- The list, read from the entry with key `h` around to the one before it. -/
def ringFrom (l : List (α × β)) (h : α) : List (α × β) :=
  l.dropWhile (fun e => e.1 ≠ h) ++ l.takeWhile fun e => e.1 ≠ h

/-- The key after `h`, the first one after the last; nothing if `h` is not a
key. -/
def nextKey (l : List (α × β)) (h : α) : Option α :=
  match l.dropWhile fun e => e.1 ≠ h with
  | [] => none
  | [_] => l.head?.map Prod.fst
  | _ :: e :: _ => some e.1

/-- Overwrite the value at a key. -/
def setAt (l : List (α × β)) (h : α) (b : β) : List (α × β) :=
  l.map fun e => if e.1 = h then (e.1, b) else e

omit [DecidableEq α] in
/-- A key of a list without repetitions splits it in one place. -/
theorem split_at_key {l : List (α × β)} {h : α} (hmem : h ∈ l.map Prod.fst) :
    ∃ pre b post, l = pre ++ (h, b) :: post := by
  obtain ⟨⟨k, b⟩, he, rfl⟩ := List.mem_map.mp hmem
  obtain ⟨pre, post, hl⟩ := List.append_of_mem he
  exact ⟨pre, b, post, hl⟩

/-- The ring from a given entry. -/
theorem ringFrom_split {pre : List (α × β)} {h : α} (b : β) (post : List (α × β))
    (hpre : h ∉ pre.map Prod.fst) :
    ringFrom (pre ++ (h, b) :: post) h = (h, b) :: post ++ pre := by
  have hne : ∀ e ∈ pre, decide (e.1 ≠ h) = true := by
    intro e he
    apply decide_eq_true
    intro heq
    exact hpre (List.mem_map.mpr ⟨e, he, heq⟩)
  unfold ringFrom
  rw [List.dropWhile_append_of_pos hne, List.takeWhile_append_of_pos hne]
  simp

/-- The entry after a given one. -/
theorem nextKey_split {pre post : List (α × β)} {h : α} {b : β}
    (hpre : h ∉ pre.map Prod.fst) :
    nextKey (pre ++ (h, b) :: post) h = ((post ++ pre ++ [(h, b)]).head?).map Prod.fst := by
  have hne : ∀ e ∈ pre, decide (e.1 ≠ h) = true := by
    intro e he
    apply decide_eq_true
    intro heq
    exact hpre (List.mem_map.mpr ⟨e, he, heq⟩)
  unfold nextKey
  rw [List.dropWhile_append_of_pos hne]
  cases post with
  | nil => simp
  | cons e post => simp

/-- **One step of the hand turns the ring by one entry.** -/
theorem ringFrom_nextKey {l : List (α × β)} {h : α} (hnodup : (l.map Prod.fst).Nodup)
    (hmem : h ∈ l.map Prod.fst) :
    ∃ b rest k, ringFrom l h = (h, b) :: rest ∧ nextKey l h = some k ∧
      k ∈ l.map Prod.fst ∧ ringFrom l k = rest ++ [(h, b)] := by
  obtain ⟨pre, b, post, rfl⟩ := split_at_key hmem
  rw [List.map_append, List.map_cons, List.nodup_append] at hnodup
  obtain ⟨hpre, hpost, hdisj⟩ := hnodup
  rw [List.nodup_cons] at hpost
  have hnot : h ∉ pre.map Prod.fst := fun hh => hdisj h hh h List.mem_cons_self rfl
  refine ⟨b, post ++ pre, ?_⟩
  cases post with
  | cons e post =>
      -- the next entry stands right behind the hand
      obtain ⟨k, c⟩ := e
      refine ⟨k, ringFrom_split _ _ hnot, ?_, ?_, ?_⟩
      · rw [nextKey_split hnot]
        rfl
      · simp
      · have hk : k ∉ (pre ++ [(h, b)]).map Prod.fst := by
          rw [List.map_append, List.mem_append]
          rintro (hin | hin)
          · exact hdisj k hin k (by simp) rfl
          · exact hpost.1 (by simpa using Or.inl (List.mem_singleton.mp hin).symm)
        have := ringFrom_split c post hk
        simpa using this
  | nil =>
      -- the hand is on the last entry: the next one is the first
      cases pre with
      | nil => exact ⟨h, by simp [ringFrom], by simp [nextKey], by simp, by simp [ringFrom]⟩
      | cons e pre =>
          obtain ⟨k, c⟩ := e
          refine ⟨k, ringFrom_split _ _ hnot, ?_, by simp, ?_⟩
          · rw [nextKey_split hnot]
            rfl
          · have := ringFrom_split c (pre ++ [(h, b)])
              (show k ∉ ([] : List (α × β)).map Prod.fst by simp)
            simpa using this

/-- Turning the ring loses no entry. -/
theorem mem_ringFrom (l : List (α × β)) (h : α) (e : α × β) : e ∈ ringFrom l h ↔ e ∈ l := by
  unfold ringFrom
  rw [List.mem_append, or_comm, ← List.mem_append, List.takeWhile_append_dropWhile]

/-- Nor does it add one. -/
theorem length_ringFrom (l : List (α × β)) (h : α) : (ringFrom l h).length = l.length := by
  unfold ringFrom
  rw [List.length_append, Nat.add_comm, ← List.length_append, List.takeWhile_append_dropWhile]

/-- Marks leave the keys alone. -/
@[simp] theorem map_fst_setAt (l : List (α × β)) (h : α) (b : β) :
    (setAt l h b).map Prod.fst = l.map Prod.fst := by
  unfold setAt
  rw [List.map_map]
  apply List.map_congr_left
  intro e _
  show (if e.1 = h then (e.1, b) else e).1 = e.1
  split <;> rfl

/-- Overwriting values does not move the hand. -/
theorem ringFrom_setAt (l : List (α × β)) (h k : α) (b : β) :
    ringFrom (setAt l h b) k = setAt (ringFrom l k) h b := by
  have hkey : ((fun e : α × β => decide (e.1 ≠ k)) ∘ fun e => if e.1 = h then (e.1, b) else e)
      = fun e => decide (e.1 ≠ k) := by
    funext e
    show decide ((if e.1 = h then (e.1, b) else e).1 ≠ k) = _
    split <;> rfl
  unfold ringFrom setAt
  rw [List.dropWhile_map, List.takeWhile_map, hkey, List.map_append]

/-- The hand moves the same way whatever the marks are. -/
theorem nextKey_setAt (l : List (α × β)) (h k : α) (b : β) :
    nextKey (setAt l h b) k = nextKey l k := by
  have hkey : ((fun e : α × β => decide (e.1 ≠ k)) ∘ fun e => if e.1 = h then (e.1, b) else e)
      = fun e => decide (e.1 ≠ k) := by
    funext e
    show decide ((if e.1 = h then (e.1, b) else e).1 ≠ k) = _
    split <;> rfl
  have hfst : ∀ e : α × β, (if e.1 = h then (e.1, b) else e).1 = e.1 := by
    intro e
    split <;> rfl
  unfold nextKey setAt
  rw [List.dropWhile_map, hkey]
  cases l.dropWhile fun e => decide (e.1 ≠ k) with
  | nil => rfl
  | cons e rest =>
      cases rest with
      | nil => cases l <;> simp [hfst]
      | cons e' rest => simp [hfst]

/-- Overwriting at a key that is not there does nothing. -/
theorem setAt_of_notMem {l : List (α × β)} {h : α} (hnot : h ∉ l.map Prod.fst) (b : β) :
    setAt l h b = l := by
  unfold setAt
  conv_rhs => rw [← List.map_id l]
  apply List.map_congr_left
  intro e he
  rw [if_neg]
  · rfl
  · intro heq
    exact hnot (List.mem_map.mpr ⟨e, he, heq⟩)

/-! ## §2. A sweep of the hand. -/

omit [DecidableEq α]

/-- Clear marks until an entry without one is met, and step past it: the entry,
the ring from the hand on, and the number of steps. -/
def sweep : ℕ → List (α × Bool) → Option (α × List (α × Bool) × ℕ)
  | 0, _ => none
  | _ + 1, [] => none
  | fuel + 1, (a, true) :: rest =>
      (sweep fuel (rest ++ [(a, false)])).map fun r => (r.1, r.2.1, r.2.2 + 1)
  | _ + 1, (a, false) :: rest => some (a, rest ++ [(a, false)], 1)

/-- The marks before the first unmarked entry are cleared, and it is taken. -/
theorem sweep_unmarked {pre post : List (α × Bool)} {v : α} {fuel : ℕ}
    (hpre : ∀ e ∈ pre, e.2 = true) (hfuel : pre.length < fuel) :
    sweep fuel (pre ++ (v, false) :: post)
      = some (v, post ++ pre.map (fun e => (e.1, false)) ++ [(v, false)], pre.length + 1) := by
  induction pre generalizing post fuel with
  | nil =>
      cases fuel with
      | zero => exact absurd hfuel (Nat.not_lt_zero _)
      | succ fuel => simp [sweep]
  | cons e pre ih =>
      cases fuel with
      | zero => exact absurd hfuel (Nat.not_lt_zero _)
      | succ fuel =>
          obtain ⟨a, m⟩ := e
          have hm : m = true := hpre (a, m) List.mem_cons_self
          subst hm
          have hshort : pre.length < fuel := by
            rw [List.length_cons] at hfuel
            omega
          show (sweep fuel ((pre ++ (v, false) :: post) ++ [(a, false)])).map _ = _
          rw [List.append_assoc, List.cons_append,
            ih (fun e he => hpre e (List.mem_cons_of_mem _ he)) hshort]
          simp

/-- With every entry marked the hand comes round to where it started. -/
theorem sweep_marked {rest : List (α × Bool)} {v : α} {fuel : ℕ}
    (hrest : ∀ e ∈ rest, e.2 = true) (hfuel : rest.length + 1 < fuel) :
    sweep fuel ((v, true) :: rest)
      = some (v, rest.map (fun e => (e.1, false)) ++ [(v, false)], rest.length + 2) := by
  cases fuel with
  | zero => exact absurd hfuel (Nat.not_lt_zero _)
  | succ fuel =>
      show (sweep fuel (rest ++ (v, false) :: [])).map _ = _
      rw [sweep_unmarked hrest (by omega)]
      simp

/-- Either every entry is marked or there is a first one that is not. -/
theorem marked_or_split (l : List (α × Bool)) :
    (∀ e ∈ l, e.2 = true) ∨
      ∃ pre v post, l = pre ++ (v, false) :: post ∧ ∀ e ∈ pre, e.2 = true := by
  induction l with
  | nil => exact .inl (fun e he => by cases he)
  | cons e l ih =>
      obtain ⟨a, m⟩ := e
      cases m with
      | false => exact .inr ⟨[], a, l, rfl, fun e he => by cases he⟩
      | true =>
          rcases ih with hall | ⟨pre, v, post, rfl, hpre⟩
          · left
            intro e he
            rcases List.mem_cons.mp he with rfl | hmem
            · rfl
            · exact hall e hmem
          · right
            refine ⟨(a, true) :: pre, v, post, rfl, ?_⟩
            intro e he
            rcases List.mem_cons.mp he with rfl | hmem
            · rfl
            · exact hpre e hmem

/-- **A sweep ends within one lap and one step**, with any fuel beyond a lap; it
takes an entry that was unmarked unless all were marked, and leaves the hand
behind it. -/
theorem sweep_spec {l : List (α × Bool)} (hne : l ≠ []) :
    ∃ v rest n, (∀ fuel, l.length < fuel → sweep fuel l = some (v, rest ++ [(v, false)], n)) ∧
      n ≤ l.length + 1 ∧ ((v, false) ∈ l ∨ ∀ e ∈ l, e.2 = true) ∧
      ((rest ++ [(v, false)]).map Prod.fst).Perm (l.map Prod.fst) := by
  rcases marked_or_split l with hall | ⟨pre, v, post, rfl, hpre⟩
  · cases l with
    | nil => exact absurd rfl hne
    | cons e rest =>
        obtain ⟨v, m⟩ := e
        have hm : m = true := hall (v, m) List.mem_cons_self
        subst hm
        refine ⟨v, rest.map (fun e => (e.1, false)), rest.length + 2, ?_, by simp, .inr hall, ?_⟩
        · intro fuel hfuel
          exact sweep_marked (fun e he => hall e (List.mem_cons_of_mem _ he)) hfuel
        · simp only [List.map_append, List.map_map, List.map_cons, List.map_nil]
          exact List.perm_append_singleton v _
  · refine ⟨v, post ++ pre.map (fun e => (e.1, false)), pre.length + 1, ?_, ?_, .inl (by simp), ?_⟩
    · intro fuel hfuel
      rw [List.length_append] at hfuel
      exact sweep_unmarked hpre (by omega)
    · rw [List.length_append]
      omega
    · simp only [List.map_append, List.map_map, List.map_cons, List.map_nil]
      refine (List.perm_append_singleton v _).trans ?_
      refine (List.Perm.cons v List.perm_append_comm).trans ?_
      exact List.perm_middle.symm

end Kremlin.Library
