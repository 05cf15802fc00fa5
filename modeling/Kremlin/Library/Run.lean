/-
  Kremlin.Library.Run — runs of a partial deterministic machine.

  A step function `σ → ε → Option σ` says what one event does to a state;
  `none` is an event the machine cannot take.  `run` feeds it a list of
  events.  The rules below are all a development needs of it:

    * `run_append` — a run splits at any event;
    * `run_invariant` — what one step preserves, a run preserves;
    * `run_invariant_of` — the same when the events of the run are each
      admissible in the state they meet (`RunOk`);
    * `foldlM_marks` — a loop over a list that keeps an invariant and marks
      every item it passes.
-/
import Mathlib.Data.List.Basic
import Mathlib.Tactic.Common

namespace Kremlin.Library

variable {σ τ ε : Type}

/-! ## §1. Runs. -/

/-- Feed the events to the machine, from the left. -/
def run (step : σ → ε → Option σ) : σ → List ε → Option σ
  | s, [] => some s
  | s, e :: es => (step s e).bind fun s' => run step s' es

/-- No events, no change. -/
@[simp] theorem run_nil (step : σ → ε → Option σ) (s : σ) :
    run step s [] = some s := rfl

/-- The first event first. -/
theorem run_cons (step : σ → ε → Option σ) (s : σ) (e : ε) (es : List ε) :
    run step s (e :: es) = (step s e).bind fun s' => run step s' es := rfl

/-- Inversion of a non-empty run: its first step, then the rest. -/
theorem run_cons_eq_some {step : σ → ε → Option σ} {s s'' : σ} {e : ε} {es : List ε} :
    run step s (e :: es) = some s'' ↔
      ∃ s', step s e = some s' ∧ run step s' es = some s'' := by
  rw [run_cons, Option.bind_eq_some_iff]

/-- A run splits at any point. -/
theorem run_append (step : σ → ε → Option σ) (s : σ) (xs ys : List ε) :
    run step s (xs ++ ys) = (run step s xs).bind fun s' => run step s' ys := by
  induction xs generalizing s with
  | nil => rfl
  | cons e xs ih =>
      rw [List.cons_append, run_cons, run_cons, Option.bind_assoc]
      congr 1
      funext s'
      exact ih s'

/-- A run of two parts goes through a state between them. -/
theorem run_append_eq_some {step : σ → ε → Option σ} {s s'' : σ} {xs ys : List ε} :
    run step s (xs ++ ys) = some s'' ↔
      ∃ s', run step s xs = some s' ∧ run step s' ys = some s'' := by
  rw [run_append, Option.bind_eq_some_iff]

/-! ## §2. Invariants of runs. -/

/-- **What every step preserves, every run preserves.** -/
theorem run_invariant {step : σ → ε → Option σ} {P : σ → Prop}
    (hstep : ∀ s e s', P s → step s e = some s' → P s')
    {s s' : σ} {es : List ε} (hs : P s) (h : run step s es = some s') : P s' := by
  induction es generalizing s with
  | nil =>
      rw [run_nil, Option.some.injEq] at h
      exact h ▸ hs
  | cons e es ih =>
      obtain ⟨s₁, h₁, h₂⟩ := run_cons_eq_some.mp h
      exact ih (hstep s e s₁ hs h₁) h₂

/-- Every event of the run is admissible in the state it meets. -/
def RunOk (step : σ → ε → Option σ) (ok : σ → ε → Prop) : σ → List ε → Prop
  | _, [] => True
  | s, e :: es => ok s e ∧ ∀ s', step s e = some s' → RunOk step ok s' es

/-- No events, nothing to admit. -/
@[simp] theorem runOk_nil (step : σ → ε → Option σ) (ok : σ → ε → Prop) (s : σ) :
    RunOk step ok s [] := trivial

/-- The first event is admissible, and the rest after it. -/
theorem runOk_cons (step : σ → ε → Option σ) (ok : σ → ε → Prop) (s : σ) (e : ε)
    (es : List ε) :
    RunOk step ok s (e :: es) ↔ ok s e ∧ ∀ s', step s e = some s' → RunOk step ok s' es :=
  Iff.rfl

/-- Admissibility of a run is decided by running it. -/
instance RunOk.decidable {step : σ → ε → Option σ} {ok : σ → ε → Prop}
    [∀ s e, Decidable (ok s e)] : ∀ s es, Decidable (RunOk step ok s es)
  | _, [] => .isTrue trivial
  | s, e :: es =>
      match h : step s e with
      | none => decidable_of_iff (ok s e) (by rw [runOk_cons, h]; simp)
      | some s' =>
          @decidable_of_iff _ (ok s e ∧ RunOk step ok s' es)
            (by rw [runOk_cons, h]; simp)
            (@instDecidableAnd _ _ inferInstance (RunOk.decidable s' es))

/-- The invariant rule for runs of admissible events. -/
theorem run_invariant_of {step : σ → ε → Option σ} {ok : σ → ε → Prop} {P : σ → Prop}
    (hstep : ∀ s e s', P s → ok s e → step s e = some s' → P s')
    {s s' : σ} {es : List ε} (hs : P s) (hok : RunOk step ok s es)
    (h : run step s es = some s') : P s' := by
  induction es generalizing s with
  | nil =>
      rw [run_nil, Option.some.injEq] at h
      exact h ▸ hs
  | cons e es ih =>
      obtain ⟨s₁, h₁, h₂⟩ := run_cons_eq_some.mp h
      exact ih (hstep s e s₁ hs hok.1 h₁) (hok.2 s₁ h₁) h₂

/-- **A machine that takes every admissible event takes every admissible run**,
and keeps the invariant. -/
theorem run_total_of {step : σ → ε → Option σ} {ok : σ → ε → Prop} {P : σ → Prop}
    (hstep : ∀ s e, P s → ok s e → ∃ s', step s e = some s' ∧ P s') {s : σ} {es : List ε}
    (hs : P s) (hok : RunOk step ok s es) : ∃ s', run step s es = some s' ∧ P s' := by
  induction es generalizing s with
  | nil => exact ⟨s, rfl, hs⟩
  | cons e es ih =>
      obtain ⟨s₁, h₁, hs₁⟩ := hstep s e hs hok.1
      obtain ⟨s₂, h₂, hs₂⟩ := ih hs₁ (hok.2 s₁ h₁)
      exact ⟨s₂, run_cons_eq_some.mpr ⟨s₁, h₁, h₂⟩, hs₂⟩

/-- The first part of an admissible run is admissible. -/
theorem runOk_left {step : σ → ε → Option σ} {ok : σ → ε → Prop} {s : σ} {xs ys : List ε}
    (hok : RunOk step ok s (xs ++ ys)) : RunOk step ok s xs := by
  induction xs generalizing s with
  | nil => trivial
  | cons e xs ih => exact ⟨hok.1, fun s' h => ih (hok.2 s' h)⟩

/-- A run is admissible if its two parts are. -/
theorem RunOk.append {step : σ → ε → Option σ} {ok : σ → ε → Prop} {s : σ} {xs ys : List ε}
    (hxs : RunOk step ok s xs) (hys : ∀ s', run step s xs = some s' → RunOk step ok s' ys) :
    RunOk step ok s (xs ++ ys) := by
  induction xs generalizing s with
  | nil => exact hys s rfl
  | cons e xs ih =>
      refine ⟨hxs.1, fun s₁ h₁ => ih (hxs.2 s₁ h₁) fun s' h' => hys s' ?_⟩
      exact run_cons_eq_some.mpr ⟨s₁, h₁, h'⟩

/-- Admissibility splits with the run. -/
theorem runOk_append {step : σ → ε → Option σ} {ok : σ → ε → Prop} {s s' : σ}
    {xs ys : List ε} (hok : RunOk step ok s (xs ++ ys)) (h : run step s xs = some s') :
    RunOk step ok s' ys := by
  induction xs generalizing s with
  | nil =>
      rw [run_nil, Option.some.injEq] at h
      exact h ▸ hok
  | cons e xs ih =>
      obtain ⟨s₁, h₁, h₂⟩ := run_cons_eq_some.mp h
      exact ih (hok.2 s₁ h₁) h₂

/-- A weaker condition admits as much. -/
theorem RunOk.mono {step : σ → ε → Option σ} {ok ok' : σ → ε → Prop}
    (himp : ∀ s e, ok s e → ok' s e) {s : σ} {es : List ε} (h : RunOk step ok s es) :
    RunOk step ok' s es := by
  induction es generalizing s with
  | nil => trivial
  | cons e es ih => exact ⟨himp s e h.1, fun s' hs' => ih (h.2 s' hs')⟩

/-- What holds of every event holds along every run. -/
theorem runOk_of_forall {step : σ → ε → Option σ} {ok : σ → ε → Prop} (h : ∀ s e, ok s e)
    (s : σ) (es : List ε) : RunOk step ok s es := by
  induction es generalizing s with
  | nil => trivial
  | cons e es ih => exact ⟨h s e, fun s' _ => ih s'⟩

/-- **Two kinds of admissibility that agree on the events of a run, in the
states of an invariant, agree on the run**, when the steps they admit keep it. -/
theorem runOk_congr_of {step : σ → ε → Option σ} {ok ok' : σ → ε → Prop}
    (adm : σ → ε → Prop) {P : σ → Prop}
    (hiff : ∀ s e, P s → adm s e → (ok s e ↔ ok' s e))
    (hstep : ∀ s e s', P s → adm s e → ok' s e → step s e = some s' → P s') {s : σ} (hs : P s)
    {es : List ε} (hadm : RunOk step adm s es) : RunOk step ok s es ↔ RunOk step ok' s es := by
  induction es generalizing s with
  | nil => exact Iff.rfl
  | cons e es ih =>
      rw [runOk_cons, runOk_cons, hiff s e hs hadm.1]
      refine and_congr_right fun hok => ?_
      exact forall_congr' fun s' => forall_congr' fun h =>
        ih (hstep s e s' hs hadm.1 hok h) (hadm.2 s' h)

/-- Conditions that agree on an invariant admit the same runs. -/
theorem runOk_congr {step : σ → ε → Option σ} {ok ok' : σ → ε → Prop} {P : σ → Prop}
    (hiff : ∀ s e, P s → (ok s e ↔ ok' s e))
    (hstep : ∀ s e s', P s → ok' s e → step s e = some s' → P s') {s : σ} (hs : P s)
    (es : List ε) : RunOk step ok s es ↔ RunOk step ok' s es :=
  runOk_congr_of (fun _ _ => True) (fun s e h _ => hiff s e h)
    (fun s e s' h _ => hstep s e s' h) hs (runOk_of_forall (fun _ _ => trivial) s es)

/-! ## §3. Loops over a list. -/

/-- **A fallible loop that keeps an invariant** (`inv`) **and marks each item
for good** (`done`) succeeds and has marked them all. -/
theorem foldlM_marks {f : σ → ε → Option σ} (inv : σ → Prop) (done : σ → ε → Prop)
    (items : List ε)
    (hstep : ∀ s x, x ∈ items → inv s → ∃ s', f s x = some s' ∧ inv s' ∧ done s' x ∧
      ∀ y, done s y → done s' y) {s : σ} (hs : inv s) :
    ∃ s', items.foldlM f s = some s' ∧ inv s' ∧ (∀ x ∈ items, done s' x) ∧
      ∀ y, done s y → done s' y := by
  induction items generalizing s with
  | nil => exact ⟨s, rfl, hs, by simp, fun _ h => h⟩
  | cons x items ih =>
      obtain ⟨s₁, h₁, hs₁, hx, hmono⟩ := hstep s x List.mem_cons_self hs
      obtain ⟨s', h', hs', hall, hmono'⟩ :=
        ih (fun s y hy => hstep s y (List.mem_cons_of_mem _ hy)) hs₁
      refine ⟨s', ?_, hs', ?_, fun y hy => hmono' y (hmono y hy)⟩
      · rw [List.foldlM_cons, h₁]
        exact h'
      · intro y hy
        rcases List.mem_cons.mp hy with rfl | hy
        · exact hmono' _ hx
        · exact hall y hy

/-- **A fallible loop with an invariant on the items it has done.** -/
theorem foldlM_done {f : σ → ε → Option σ} (inv : List ε → σ → Prop) (items : List ε)
    (hstep : ∀ past x rest s, items = past ++ x :: rest → inv past s →
      ∃ s', f s x = some s' ∧ inv (past ++ [x]) s') {s : σ} (hs : inv [] s) :
    ∃ s', items.foldlM f s = some s' ∧ inv items s' := by
  have hloop : ∀ (rest past : List ε) (s : σ), items = past ++ rest → inv past s →
      ∃ s', rest.foldlM f s = some s' ∧ inv items s' := by
    intro rest
    induction rest with
    | nil =>
        intro past s heq hs
        rw [List.append_nil] at heq
        exact ⟨s, rfl, heq ▸ hs⟩
    | cons x rest ih =>
        intro past s heq hs
        obtain ⟨s₁, h₁, hs₁⟩ := hstep past x rest s heq hs
        obtain ⟨s', h', hs'⟩ := ih (past ++ [x]) s₁ (by rw [heq, List.append_cons]) hs₁
        refine ⟨s', ?_, hs'⟩
        rw [List.foldlM_cons, h₁]
        exact h'
  exact hloop items [] s rfl hs

/-- **A fallible loop over 0, …, n - 1** with an invariant on how far it is. -/
theorem foldlM_range {f : σ → ℕ → Option σ} (inv : ℕ → σ → Prop) {n : ℕ}
    (hstep : ∀ i s, i < n → inv i s → ∃ s', f s i = some s' ∧ inv (i + 1) s') {s : σ}
    (hs : inv 0 s) : ∃ s', (List.range n).foldlM f s = some s' ∧ inv n s' := by
  induction n with
  | zero => exact ⟨s, rfl, hs⟩
  | succ n ih =>
      obtain ⟨s₁, h₁, hs₁⟩ := ih fun i s hi => hstep i s (Nat.lt_succ_of_lt hi)
      obtain ⟨s', h', hs'⟩ := hstep n s₁ (Nat.lt_succ_self n) hs₁
      refine ⟨s', ?_, hs'⟩
      rw [List.range_succ, List.foldlM_append, h₁]
      show (f s₁ n).bind some = _
      rw [h']
      rfl

/-- The same with an invariant only. -/
theorem foldlM_inv {f : σ → ε → Option σ} (inv : σ → Prop) (items : List ε)
    (hstep : ∀ s x, x ∈ items → inv s → ∃ s', f s x = some s' ∧ inv s') {s : σ} (hs : inv s) :
    ∃ s', items.foldlM f s = some s' ∧ inv s' := by
  obtain ⟨s', h', hs', -, -⟩ := foldlM_marks (f := f) inv (fun _ _ => True)
    items (fun s x hx hs => by
      obtain ⟨s', h', hs'⟩ := hstep s x hx hs
      exact ⟨s', h', hs', trivial, fun _ _ => trivial⟩) hs
  exact ⟨s', h', hs'⟩

/-- What every successful turn needs of its item holds of all items of a
successful loop. -/
theorem foldlM_forall {f : σ → ε → Option σ} {P : ε → Prop}
    (hstep : ∀ s x s', f s x = some s' → P x) {items : List ε} {s s' : σ}
    (h : items.foldlM f s = some s') : ∀ x ∈ items, P x := by
  induction items generalizing s with
  | nil => simp
  | cons y items ih =>
      rw [List.foldlM_cons, Option.bind_eq_bind, Option.bind_eq_some_iff] at h
      obtain ⟨s₁, h₁, h₂⟩ := h
      intro x hx
      rcases List.mem_cons.mp hx with rfl | hx
      · exact hstep s _ s₁ h₁
      · exact ih h₂ x hx

/-- **A partial computation**: what it gives satisfies `Q`, and where `P` holds it
gives something. -/
structure Returns (P : Prop) (x : Option σ) (Q : σ → Prop) : Prop where
  total : P → ∃ s, x = some s
  sound : ∀ s, x = some s → Q s

/-- A computation that has returned. -/
theorem Returns.some {P : Prop} {Q : σ → Prop} {s : σ} (h : Q s) : Returns P (some s) Q where
  total _ := ⟨s, rfl⟩
  sound s' hs := by
    cases hs
    exact h

/-- One computation after another. -/
theorem Returns.bind {P : Prop} {x : Option σ} {Q : σ → Prop} {f : σ → Option τ}
    {R : τ → Prop} (h : Returns P x Q) (hf : ∀ s, Q s → Returns P (f s) R) :
    Returns P (x.bind f) R where
  total hp := by
    obtain ⟨s, hs⟩ := h.total hp
    rw [hs]
    exact (hf s (h.sound s hs)).total hp
  sound t ht := by
    obtain ⟨s, hs, ht⟩ := Option.bind_eq_some_iff.mp ht
    exact (hf s (h.sound s hs)).sound t ht

/-- **A loop of partial computations** with an invariant on what is left to do. -/
theorem Returns.foldlM {P : Prop} {f : σ → ε → Option σ} (inv : List ε → σ → Prop)
    (hstep : ∀ x rest s, inv (x :: rest) s → Returns P (f s x) (inv rest)) {items : List ε}
    {s : σ} (hs : inv items s) : Returns P (items.foldlM f s) (inv []) := by
  induction items generalizing s with
  | nil => exact Returns.some hs
  | cons x items ih =>
      rw [List.foldlM_cons]
      exact (hstep x items s hs).bind fun s' hs' => ih hs'

/-- What relates the ends of every turn of a loop relates the ends of the loop. -/
theorem foldlM_relates {f : σ → ε → Option σ} {R : σ → σ → Prop} (hrefl : ∀ s, R s s)
    (htrans : ∀ {s₁ s₂ s₃}, R s₁ s₂ → R s₂ s₃ → R s₁ s₃)
    (hstep : ∀ s x s', f s x = some s' → R s s') {items : List ε} {s s' : σ}
    (h : items.foldlM f s = some s') : R s s' := by
  induction items generalizing s with
  | nil =>
      rw [List.foldlM_nil] at h
      cases h
      exact hrefl _
  | cons x items ih =>
      rw [List.foldlM_cons, Option.bind_eq_bind, Option.bind_eq_some_iff] at h
      obtain ⟨s₁, h₁, h₂⟩ := h
      exact htrans (hstep s x s₁ h₁) (ih h₂)

end Kremlin.Library
