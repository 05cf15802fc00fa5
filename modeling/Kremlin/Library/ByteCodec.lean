/-
  Kremlin.Library.ByteCodec — fixed-width words, and readers that meet the end
  of their input.

  A reader takes what it needs from the front of its input and fails with a
  distinguished error when the input ends first.  `Reads eof p bs v` says that
  `p` reads exactly the text `bs` as `v`, whatever follows, and that every
  proper prefix of `bs` ends the input.  The rules compose readers:

    * `Reads.bind` — one reader after another;
    * `Reads.loop` — one text per item;
    * `readAll_take` — records until the end of the input: on any truncation,
      the records wholly contained in it.
-/
import Mathlib.Data.List.Basic
import Mathlib.Tactic.Common
import Mathlib.Algebra.Ring.Nat

namespace Kremlin.Library

/-! ## §1. Little-endian words. -/

/-- The `k` low bytes of `v`, lowest first. -/
def leBytes : ℕ → ℕ → List UInt8
  | 0, _ => []
  | k + 1, v => UInt8.ofNat v :: leBytes k (v / 256)

/-- The value of a text, lowest byte first. -/
def leValue : List UInt8 → ℕ
  | [] => 0
  | b :: bs => b.toNat + 256 * leValue bs

/-- `k` bytes. -/
@[simp] theorem length_leBytes (k v : ℕ) : (leBytes k v).length = k := by
  induction k generalizing v with
  | zero => rfl
  | succ k ih => rw [leBytes, List.length_cons, ih]

/-- Reading back what was written, up to the width. -/
theorem leValue_leBytes (k v : ℕ) : leValue (leBytes k v) = v % 256 ^ k := by
  induction k generalizing v with
  | zero => rw [leBytes, leValue, Nat.pow_zero, Nat.mod_one]
  | succ k ih =>
      rw [leBytes, leValue, ih, Nat.pow_succ, Nat.mul_comm _ 256, Nat.mod_mul]
      simp

/-- `k` bytes hold less than `256 ^ k`. -/
theorem leValue_lt (bs : List UInt8) : leValue bs < 256 ^ bs.length := by
  induction bs with
  | nil => exact Nat.one_pos
  | cons b bs ih =>
      have hb := b.toNat_lt
      rw [leValue, List.length_cons, Nat.pow_succ]
      omega

/-- A text is the encoding of its value. -/
theorem leBytes_leValue (bs : List UInt8) : leBytes bs.length (leValue bs) = bs := by
  induction bs with
  | nil => rfl
  | cons b bs ih =>
      have hb := b.toNat_lt
      have hdiv : leValue (b :: bs) / 256 = leValue bs := by
        rw [leValue]
        omega
      have hlow : UInt8.ofNat (leValue (b :: bs)) = b := by
        apply UInt8.toNat_inj.mp
        rw [leValue, UInt8.toNat_ofNat']
        omega
      rw [List.length_cons, leBytes, hdiv, ih, hlow]

/-! ## §2. Readers. -/

section Readers

variable {β ε α γ : Type}

/-- A reader of texts over `β`. -/
abbrev Reader (β ε α : Type) := StateT (List β) (Except ε) α

/-- `p` reads exactly `bs`, as `v`, and no proper prefix of `bs` is enough. -/
structure Reads (eof : ε) (p : Reader β ε α) (bs : List β) (v : α) : Prop where
  whole : ∀ rest, p.run (bs ++ rest) = .ok (v, rest)
  short : ∀ k, k < bs.length → p.run (bs.take k) = .error eof

variable {eof : ε} {p : Reader β ε α} {bs cs : List β} {v : α}

/-- A value that needs no input. -/
theorem Reads.pure (eof : ε) (v : α) : Reads eof (Pure.pure v : Reader β ε α) [] v :=
  ⟨fun _ => rfl, fun k hk => absurd hk (Nat.not_lt_zero k)⟩

/-- **One reader after another.** -/
theorem Reads.bind {f : α → Reader β ε γ} {w : γ} (hp : Reads eof p bs v)
    (hf : Reads eof (f v) cs w) : Reads eof (p >>= f) (bs ++ cs) w := by
  refine ⟨fun rest => ?_, fun k hk => ?_⟩
  · rw [StateT.run_bind, List.append_assoc, hp.whole]
    exact hf.whole rest
  · rw [StateT.run_bind]
    by_cases hlt : k < bs.length
    · rw [List.take_append_of_le_length (Nat.le_of_lt hlt), hp.short k hlt]
      rfl
    · have hge : bs.length ≤ k := Nat.le_of_not_lt hlt
      rw [List.take_append, List.take_of_length_le hge, hp.whole]
      refine hf.short (k - bs.length) ?_
      rw [List.length_append] at hk
      omega

/-- What is done with a value reads nothing. -/
theorem Reads.map {f : α → γ} (hp : Reads eof p bs v) : Reads eof (f <$> p) bs (f v) := by
  have h := hp.bind (f := fun x => Pure.pure (f x)) (Reads.pure eof (f v))
  rw [List.append_nil] at h
  have heq : f <$> p = p >>= fun x => Pure.pure (f x) := (bind_pure_comp f p).symm
  rw [heq]
  exact h

/-- `n` rounds of a body on a running value. -/
def loop (body : γ → Reader β ε γ) : ℕ → γ → Reader β ε γ
  | 0, s => Pure.pure s
  | n + 1, s => body s >>= loop body n

/-- **A counted loop reads one text per item.** -/
theorem Reads.loop {δ : Type} {body : γ → Reader β ε γ} (enc : δ → List β) (upd : γ → δ → γ) :
    ∀ {items : List δ} {s : γ}, (∀ s, ∀ x ∈ items, Reads eof (body s) (enc x) (upd s x)) →
      Reads eof (Library.loop body items.length s) (items.flatMap enc) (items.foldl upd s)
  | [], s, _ => Reads.pure eof s
  | x :: items, s, h => by
      rw [List.flatMap_cons]
      refine (h s x List.mem_cons_self).bind ?_
      exact Reads.loop enc upd fun s y hy => h s y (List.mem_cons_of_mem _ hy)

/-- Read items until the input ends; `fuel` bounds their number. -/
def readAll [DecidableEq ε] (eof : ε) (item : Reader β ε α) : ℕ → List β → Except ε (List α)
  | 0, _ => .ok []
  | fuel + 1, bs =>
      match item.run bs with
      | .ok (v, rest) => (v :: ·) <$> readAll eof item fuel rest
      | .error e => if e = eof then .ok [] else .error e

/-- How many of the texts lie wholly within the first `k` symbols. -/
def wholeIn : ℕ → List (List β) → ℕ
  | _, [] => 0
  | k, bs :: rest => if bs.length ≤ k then 1 + wholeIn (k - bs.length) rest else 0

/-- All texts are whole when the cut is behind them. -/
theorem wholeIn_of_le : ∀ {texts : List (List β)} {k : ℕ}, texts.flatten.length ≤ k →
    wholeIn k texts = texts.length
  | [], _, _ => rfl
  | bs :: rest, k, h => by
      rw [List.flatten_cons, List.length_append] at h
      rw [wholeIn, if_pos (by omega), wholeIn_of_le (by omega), List.length_cons, Nat.add_comm]

/-- **Truncation.**  Reading a sequence of records, none of them empty, from
any truncation of their concatenation yields the records wholly within it. -/
theorem readAll_take [DecidableEq ε] {item : Reader β ε α} {δ : Type} {enc : δ → List β}
    {val : δ → α} (hend : item.run [] = .error eof) :
    ∀ {records : List δ} (k fuel : ℕ),
      (∀ x ∈ records, Reads eof item (enc x) (val x) ∧ enc x ≠ []) →
      ((records.flatMap enc).take k).length < fuel →
      readAll eof item fuel ((records.flatMap enc).take k)
        = .ok ((records.take (wholeIn k (records.map enc))).map val)
  | _, _, 0, _, hfuel => absurd hfuel (Nat.not_lt_zero _)
  | [], k, fuel + 1, _, _ => by
      simp only [List.flatMap_nil, List.take_nil, readAll, hend, if_true, List.map_nil]
  | x :: records, k, fuel + 1, h, hfuel => by
      obtain ⟨hx, hne⟩ := h x List.mem_cons_self
      have hpos : 0 < (enc x).length := List.length_pos_iff.mpr hne
      have htake : ((x :: records).flatMap enc).take k
          = (enc x).take k ++ (records.flatMap enc).take (k - (enc x).length) := by
        rw [List.flatMap_cons, List.take_append]
      rw [htake] at hfuel ⊢
      rw [List.map_cons, wholeIn]
      by_cases hle : (enc x).length ≤ k
      · rw [List.take_of_length_le hle] at hfuel ⊢
        have ih := readAll_take hend (k - (enc x).length) fuel
          (fun y hy => h y (List.mem_cons_of_mem _ hy)) (by
            rw [List.length_append] at hfuel
            omega)
        rw [readAll, hx.whole]
        simp only [ih, if_pos hle, Nat.add_comm 1, List.take_succ_cons, List.map_cons]
        rfl
      · have hlt : k < (enc x).length := Nat.lt_of_not_le hle
        rw [Nat.sub_eq_zero_of_le (Nat.le_of_lt hlt), List.take_zero, List.append_nil, readAll,
          hx.short k hlt]
        simp only [if_true, if_neg hle, List.take_zero, List.map_nil]

end Readers

end Kremlin.Library
