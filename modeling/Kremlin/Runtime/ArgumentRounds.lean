/-
  Kremlin.Runtime.ArgumentRounds — variable argument lists, five at a time.

  `handleVariableNumArgs` reads its sources in rounds of five into one array of
  slots and calls `timestampUpdater` once a round.  The array of the last call
  holds the last round (`lastRound`), each source at least once; no earlier
  source survives in it.
-/
import Kremlin.Runtime.Handlers

namespace Kremlin.Runtime

open KremlinProfiler

/-! ## §1. The last round. -/

section Rounds

variable {α β : Type}

/-- The sources of the last, possibly incomplete, round of five. -/
def lastRound (xs : List α) : List α := xs.drop (5 * ((xs.length - 1) / 5))

/-- The last round has sources of the list. -/
theorem lastRound_subset {xs : List α} {x : α} (h : x ∈ lastRound xs) : x ∈ xs :=
  List.mem_of_mem_drop h

/-- It depends on the positions only. -/
theorem lastRound_map (f : α → β) (xs : List α) :
    lastRound (xs.map f) = (lastRound xs).map f := by
  unfold lastRound
  rw [List.length_map, List.map_drop]

/-- What is left behind full rounds of five. -/
theorem length_lastRound (xs : List α) :
    (lastRound xs).length = xs.length - 5 * ((xs.length - 1) / 5) := by
  unfold lastRound
  rw [List.length_drop]

/-- A source read at the start of a round is alone in it. -/
theorem lastRound_concat_of_mod {xs : List α} (x : α) (h : xs.length % 5 = 0) :
    lastRound (xs ++ [x]) = [x] := by
  have hlen : 5 * (((xs ++ [x]).length - 1) / 5) = xs.length := by
    rw [List.length_append, List.length_singleton]
    omega
  rw [lastRound, hlen, List.drop_left]

/-- Any other joins the round. -/
theorem lastRound_concat {xs : List α} (x : α) (h : xs.length % 5 ≠ 0) :
    lastRound (xs ++ [x]) = lastRound xs ++ [x] := by
  have hlen : 5 * (((xs ++ [x]).length - 1) / 5) = 5 * ((xs.length - 1) / 5) := by
    rw [List.length_append, List.length_singleton]
    omega
  unfold lastRound
  rw [hlen, List.drop_append_of_le_length (by omega)]

/-! ## §2. The slots. -/

/-- Writing the first free slot. -/
theorem set_fill (xs : List α) (n : ℕ) (a x : α) :
    (xs ++ List.replicate (n + 1) a).set xs.length x = xs ++ x :: List.replicate n a := by
  induction xs with
  | nil => rfl
  | cons y ys ih => simp [List.replicate_succ]

/-- The first free slot is set. -/
theorem modify_fill (xs : List α) (n : ℕ) (a : α) (g : α → α) :
    (xs ++ List.replicate (n + 1) a).modify xs.length g = xs ++ g a :: List.replicate n a := by
  induction xs with
  | nil => rfl
  | cons y ys ih => simp [ih]

/-- What the array holds after `done` has been read: the last round, and its first
source in the slots that are left. -/
structure Slots (done slots : List α) : Prop where
  holds : done ≠ [] → ∃ a ∈ lastRound done,
    slots = lastRound done ++ List.replicate (5 - (lastRound done).length) a

/-- Before the first source. -/
theorem slots_nil (slots : List α) : Slots [] slots := ⟨fun h => absurd rfl h⟩

/-- The source `arg` is put into its slot. -/
theorem Slots.read {done slots : List α} (h : Slots done slots) (arg : α) :
    Slots (done ++ [arg])
      (if done.length % 5 = 0 then List.replicate 5 arg else slots.set (done.length % 5) arg) := by
  refine ⟨fun _ => ?_⟩
  by_cases hround : done.length % 5 = 0
  · rw [if_pos hround, lastRound_concat_of_mod arg hround]
    exact ⟨arg, List.mem_singleton_self arg, rfl⟩
  · have hne : done ≠ [] := by
      rintro rfl
      exact hround rfl
    obtain ⟨a, ha, hslots⟩ := h.holds hne
    have hlen : (lastRound done).length = done.length % 5 := by
      rw [length_lastRound]
      omega
    rw [if_neg hround, lastRound_concat arg hround]
    refine ⟨a, List.mem_append_left _ ha, ?_⟩
    obtain ⟨n, hn⟩ : ∃ n, 5 - done.length % 5 = n + 1 := ⟨4 - done.length % 5, by omega⟩
    -- the first free slot is the round's next one
    have hset := set_fill (lastRound done) n a arg
    rw [hlen] at hset
    have hrest : 5 - (lastRound done ++ [arg]).length = n := by
      rw [List.length_append, List.length_singleton]
      omega
    rw [hslots, hlen, hn, hset, hrest, List.append_assoc, List.singleton_append]

/-- The slots hold exactly the last round. -/
theorem Slots.mem_iff {done slots : List α} (h : Slots done slots) (hne : done ≠ []) (x : α) :
    x ∈ slots ↔ x ∈ lastRound done := by
  obtain ⟨a, ha, hslots⟩ := h.holds hne
  rw [hslots, List.mem_append, List.mem_replicate]
  constructor
  · intro hx
    rcases hx with hx | ⟨-, rfl⟩
    · exact hx
    · exact ha
  · exact Or.inl

/-- The slots when the extra source takes the next one: after a full round that
is the slot of the round's first source. -/
theorem Slots.mem_modify {done slots : List α} (h : Slots done slots) (hne : done ≠ [])
    (g : α → α) (r : α) (hg : ∀ a ∈ done, g a = r) (x : α) :
    x ∈ slots.modify (done.length % 5) g ↔
      x = r ∨ x ∈ if done.length % 5 = 0 then (lastRound done).tail else lastRound done := by
  obtain ⟨a, ha, hslots⟩ := h.holds hne
  have hpos : 0 < done.length := List.length_pos_iff.mpr hne
  have hlen := length_lastRound done
  by_cases hround : done.length % 5 = 0
  · rw [if_pos hround, hround, hslots]
    cases hl : lastRound done with
    | nil =>
        rw [hl, List.length_nil] at hlen
        omega
    | cons b bs =>
        -- the array was full, so the first slot of the last round is set
        have hb : g b = r := hg b (lastRound_subset (by rw [hl]; exact List.mem_cons_self))
        have hfull : 5 - (b :: bs).length = 0 := by
          rw [← hl, hlen]
          omega
        rw [hfull, List.replicate_zero, List.append_nil, List.tail_cons]
        simp only [List.modify_zero_cons, List.mem_cons, hb]
  · have hk : (lastRound done).length = done.length % 5 := by omega
    obtain ⟨n, hn⟩ : ∃ n, 5 - done.length % 5 = n + 1 := ⟨4 - done.length % 5, by omega⟩
    have ha' : g a = r := hg a (lastRound_subset ha)
    have hmodify := modify_fill (lastRound done) n a g
    rw [hk] at hmodify
    rw [if_neg hround, hslots, hk, hn, hmodify, ha', List.mem_append, List.mem_cons,
      List.mem_replicate]
    constructor
    · intro hx
      rcases hx with hx | rfl | ⟨-, rfl⟩
      · exact .inr hx
      · exact .inl rfl
      · exact .inr ha
    · intro hx
      rcases hx with rfl | hx
      · exact .inr (.inl rfl)
      · exact .inl hx

end Rounds

/-! ## §3. The rounds of a variable argument list. -/

/-- Reading the arguments leaves calls for the rounds that are complete, the last
one on the array as it is. -/
theorem variableArgChunks_read (src_reg : Option ℕ) {done slots : List Source}
    (h : Slots done slots) (args : List Source) :
    ∃ calls slots', Slots (done ++ args) slots' ∧
      variableArgChunks src_reg done.length slots args
        = calls ++ variableArgChunks src_reg (done ++ args).length slots' [] ∧
      (∀ call ∈ calls, ∀ src ∈ call, src ∈ done ++ args) ∧
      (args ≠ [] → (done ++ args).length % 5 = 0 → ∃ calls', calls = calls' ++ [slots']) := by
  induction args generalizing done slots with
  | nil =>
      refine ⟨[], slots, ?_, ?_, fun _ h => absurd h List.not_mem_nil, fun hne => absurd rfl hne⟩
      · rw [List.append_nil]
        exact h
      · rw [List.append_nil, List.nil_append]
  | cons arg args ih =>
      have hread := h.read arg
      generalize hs₁ : (if done.length % 5 = 0 then List.replicate 5 arg
        else slots.set (done.length % 5) arg) = slots₁ at hread
      have hlength : (done ++ [arg]).length = done.length + 1 := by
        rw [List.length_append, List.length_singleton]
      -- the fifth source of a round makes one more call
      obtain ⟨call, hfull, hsrcs, hstep⟩ : ∃ call, (done.length % 5 = 4 → call = [slots₁]) ∧
          (∀ c ∈ call, c = slots₁) ∧ variableArgChunks src_reg done.length slots (arg :: args)
            = call ++ variableArgChunks src_reg (done ++ [arg]).length slots₁ args := by
        rw [variableArgChunks, hlength, hs₁]
        by_cases hfour : done.length % 5 = 4
        · exact ⟨[slots₁], fun _ => rfl, fun c hc => List.mem_singleton.mp hc, if_pos hfour⟩
        · exact ⟨[], fun h => absurd h hfour, fun _ h => absurd h List.not_mem_nil, if_neg hfour⟩
      have hread_mem : ∀ c ∈ call, ∀ src ∈ c, src ∈ done ++ [arg] := by
        intro c hc src hsrc
        rw [hsrcs c hc] at hsrc
        exact lastRound_subset ((hread.mem_iff (by simp) src).mp hsrc)
      have happend : done ++ [arg] ++ args = done ++ arg :: args := by
        rw [List.append_assoc, List.singleton_append]
      cases args with
      | nil =>
          refine ⟨call, slots₁, hread, hstep, hread_mem, fun _ hmod => ⟨[], ?_⟩⟩
          rw [hlength] at hmod
          exact hfull (by omega)
      | cons b bs =>
          obtain ⟨calls, slots', hslots, hcalls, hmem, hlast⟩ := ih hread
          rw [happend] at hslots hcalls hmem hlast
          refine ⟨call ++ calls, slots', hslots, ?_, fun c hc src hsrc => ?_, fun _ hmod => ?_⟩
          · rw [hstep, hcalls, List.append_assoc]
          · rcases List.mem_append.mp hc with hc | hc
            · rw [← happend]
              exact List.mem_append_left _ (hread_mem c hc src hsrc)
            · exact hmem c hc src hsrc
          · obtain ⟨calls', hc⟩ := hlast (List.cons_ne_nil b bs) hmod
            exact ⟨call ++ calls', by rw [hc, List.append_assoc]⟩

/-- Without an extra source the last call is on the last round. -/
theorem variableArgChunks_last {args : List Source} (hne : args ≠ []) :
    ∃ calls slots, variableArgChunks none 0 (List.replicate 5 (0, 0)) args = calls ++ [slots] ∧
      (∀ call ∈ calls, ∀ src ∈ call, src ∈ args) ∧ ∀ src, src ∈ slots ↔ src ∈ lastRound args := by
  obtain ⟨calls, slots, hslots, hcalls, hmem, hlast⟩ :=
    variableArgChunks_read none (slots_nil (List.replicate 5 (0, 0))) args
  rw [List.nil_append] at hslots hcalls hmem hlast
  rw [List.length_nil] at hcalls
  by_cases hround : args.length % 5 = 0
  · obtain ⟨calls', hc⟩ := hlast hne hround
    refine ⟨calls', slots, ?_, fun call h => hmem call (by rw [hc]; exact List.mem_append_left _ h),
      hslots.mem_iff hne⟩
    rw [hcalls, hc, variableArgChunks]
    simp [hround]
  · refine ⟨calls, slots, ?_, hmem, hslots.mem_iff hne⟩
    rw [hcalls, variableArgChunks]
    simp [hround]

/-- Whatever is in the slots, a call reads only the arguments. -/
theorem variableArgChunks_subset (slots args : List Source) :
    ∀ call ∈ variableArgChunks none 0 slots args, ∀ src ∈ call, src ∈ args := by
  obtain ⟨calls, slots', hslots, hcalls, hmem, -⟩ :=
    variableArgChunks_read none (slots_nil slots) args
  rw [List.nil_append] at hslots hcalls hmem
  rw [List.length_nil] at hcalls
  rw [hcalls]
  intro call hcall src hsrc
  rcases List.mem_append.mp hcall with hcall | hcall
  · exact hmem call hcall src hsrc
  · -- the call that is left over, if there is one
    simp only [variableArgChunks, ne_eq, List.mem_ite_nil_right, List.mem_singleton] at hcall
    obtain ⟨hround, rfl⟩ := hcall
    have hne : args ≠ [] := by
      rintro rfl
      exact hround rfl
    exact lastRound_subset ((hslots.mem_iff hne src).mp hsrc)

/-- Only the place in the round matters. -/
theorem variableArgChunks_add_five (src_reg : Option ℕ) (k : ℕ) (slots args : List Source) :
    variableArgChunks src_reg (k + 5) slots args = variableArgChunks src_reg k slots args := by
  induction args generalizing k slots with
  | nil => simp only [variableArgChunks, Nat.add_mod_right]
  | cons arg args ih =>
      simp only [variableArgChunks, Nat.add_mod_right, show k + 5 + 1 = k + 1 + 5 by omega, ih]

/-- **A call after the first reads only arguments after the fifth.** -/
theorem variableArgChunks_tail (slots args : List Source) :
    ∀ call ∈ (variableArgChunks none 0 slots args).tail, ∀ src ∈ call, src ∈ args.drop 5 := by
  match args with
  | [] | [_] | [_, _] | [_, _, _] | [_, _, _, _] =>
      intro call hcall
      exact absurd hcall List.not_mem_nil
  | a₀ :: a₁ :: a₂ :: a₃ :: a₄ :: rest =>
      have hfirst : variableArgChunks none 0 slots (a₀ :: a₁ :: a₂ :: a₃ :: a₄ :: rest)
          = [a₀, a₁, a₂, a₃, a₄] :: variableArgChunks none (0 + 5) [a₀, a₁, a₂, a₃, a₄] rest := rfl
      rw [hfirst, List.tail_cons, variableArgChunks_add_five]
      exact variableArgChunks_subset _ rest

/-- The controls that reach the last call of a phi. -/
def lastControls (ctrls : List ℕ) : List ℕ :=
  if ctrls.length % 5 = 0 then (lastRound ctrls).tail else lastRound ctrls

/-- With an extra source the last call is on it and on the last round, whose first
source it replaces if the round is full. -/
theorem variableArgChunks_last_src {ctrls : List ℕ} (hne : ctrls ≠ []) (r : ℕ) :
    ∃ calls slots, variableArgChunks (some r) 0 (List.replicate 5 (0, 0)) (ctrls.map noOffset)
        = calls ++ [slots] ∧
      (∀ call ∈ calls, ∀ src ∈ call, src ∈ ctrls.map noOffset) ∧
      ∀ src, src ∈ slots ↔ src = noOffset r ∨ src ∈ (lastControls ctrls).map noOffset := by
  have hne' : ctrls.map noOffset ≠ [] := by
    rw [ne_eq, List.map_eq_nil_iff]
    exact hne
  obtain ⟨calls, slots, hslots, hcalls, hmem, -⟩ :=
    variableArgChunks_read (some r) (slots_nil (List.replicate 5 (0, 0))) (ctrls.map noOffset)
  rw [List.nil_append] at hslots hcalls hmem
  rw [List.length_nil] at hcalls
  refine ⟨calls, slots.modify ((ctrls.map noOffset).length % 5) fun src => (r, src.2), ?_,
    hmem, fun src => ?_⟩
  · rw [hcalls, variableArgChunks]
  · rw [hslots.mem_modify hne' _ (noOffset r) fun a ha => ?_, List.length_map, lastRound_map,
      lastControls]
    · split
      · rw [List.map_tail]
      · exact Iff.rfl
    · obtain ⟨c, -, rfl⟩ := List.mem_map.mp ha
      rfl

end Kremlin.Runtime
