/-
  Kremlin.Shadow.Lzo — the compression library as the shadow memory calls it.

  `lzo1x_1_compress` is told where to write and nothing about how much room there
  is.  It replaces what it has seen before by references, and copies the rest: an
  array in which nothing comes twice is copied whole, behind 17 bytes that say how
  long it is and before 3 that end the output.  That is 20 bytes more than it had.

  The library is a parameter.  Two functions stand for it where an array is given:
  both do what it does with an array of zeros and with the differences of an array
  with one small time in front.  `lzoCopying` copies any other array, which is right
  where nothing comes twice; `lzoFitting` keeps it in as many bytes as it has.
-/
import Kremlin.Shadow.TimeTable
import Mathlib.Data.BitVec

namespace Kremlin.Shadow

/-! ## §1. The library. -/

/-- `lzo1x_1_compress` and `lzo1x_decompress` on buffers of `TIMETABLE_BYTES`
bytes: the memory written and the number of bytes of it that count. -/
structure Lzo where
  compress : List Time → List Time × ℕ
  decompress : List Time → ℕ → List Time

namespace Lzo

/-- A buffer comes back as it was. -/
def Lossless (lzo : Lzo) : Prop :=
  ∀ a, a.length = TIMETABLE_SIZE / 2 → lzo.decompress (lzo.compress a).1 (lzo.compress a).2 = a

/-- The library writes at most `n + n/16 + 67` bytes for `n`. -/
def Small (lzo : Lzo) : Prop := ∀ a, (lzo.compress a).2 < 2 ^ 16

/-- No output is longer than the array it was made from. -/
def Fits (lzo : Lzo) : Prop :=
  ∀ a, a.length = TIMETABLE_SIZE / 2 → (lzo.compress a).2 ≤ TIMETABLE_BYTES

/-! ## §2. An array that is copied. -/

/-- The words moved up by one byte, and the end of the output behind them. -/
def moveUp : Time → List Time → List Time
  | last, [] => [last >>> 56 ||| (17 : Time) <<< 8]
  | last, w :: a => (last >>> 56 ||| w <<< 8) :: moveUp w a

/-- The words moved down again. -/
def moveDown : List Time → List Time
  | w :: w' :: b => (w >>> 8 ||| w' <<< 56) :: moveDown (w' :: b)
  | _ => []

/-- 4078 = 15 * 255 + 253 is the length less 18, in sixteen zeros and one byte. -/
def literalRun (a : List Time) : List Time := 0 :: 0 :: moveUp ((253 : Time) <<< 56) a

/-- A word is put together from its two halves. -/
theorem word_halves (v w u : Time) :
    (v >>> 56 ||| w <<< 8) >>> 8 ||| (w >>> 56 ||| u <<< 8) <<< 56 = w := by
  ext i hi
  simp only [BitVec.getElem_or, BitVec.getElem_ushiftRight, BitVec.getElem_shiftLeft,
    BitVec.getLsbD_or, BitVec.getLsbD_shiftLeft, BitVec.getLsbD_ushiftRight]
  -- bits 8 and up of the first word are those of `w`, but for its uppermost byte
  have hhigh : v.getLsbD (56 + (8 + i)) = false := BitVec.getLsbD_of_ge _ _ (by omega)
  by_cases h : i < 56
  · rw [hhigh, Nat.add_sub_cancel_left, BitVec.getLsbD_eq_getElem hi]
    simp [h, show 8 + i < 64 by omega]
  · rw [hhigh, show 56 + (i - 56) = i by omega, BitVec.getLsbD_eq_getElem hi]
    simp [h, show ¬8 + i < 64 by omega, show i - 56 < 8 by omega]

theorem moveDown_moveUp (last : Time) (a : List Time) : moveDown (moveUp last a) = a := by
  induction a generalizing last with
  | nil => rfl
  | cons w a ih =>
      cases a with
      | nil =>
          show [_] = [w]
          rw [word_halves]
      | cons u a =>
          show _ :: moveDown (moveUp w (u :: a)) = _
          rw [ih, word_halves]

theorem moveDown_literalRun (a : List Time) : moveDown ((literalRun a).drop 2) = a :=
  moveDown_moveUp _ a

/-! ## §3. Arrays of zeros, and with one time in front. -/

/-- The differences of an array that has a time `c` in front and zeros behind. -/
def oneTime (c : Time) : List Time := c :: -c :: List.replicate 510 0

/-- What it makes of the arrays that it hardly has to copy anything of: five zeros
and 4076 bytes that are like those five before; the time and the `0xff`s behind it. -/
def known (a : List Time) : Option (List Time × ℕ) :=
  if a = List.replicate 512 0 then
    some ([0x20000000000002, 0, 0x10da000000000000, 0xc00, 0, 0x1100], 44)
  else if 2 ≤ (a.getD 0 0).toNat ∧ (a.getD 0 0).toNat < 256 ∧ a = oneTime (a.getD 0 0) then
    let c := a.getD 0 0
    some ([c <<< 8 ||| 7, 0x200000a1ff0000 + (256 - c) <<< 8, 0, 0xca000000000000, 0x10000, 0,
      0x11000000000000, 0], 57)
  else none

/-- The array such an output was made from. -/
def restore (b : List Time) (n : ℕ) : List Time :=
  if n = 44 then List.replicate 512 0 else oneTime (b.getD 0 0 >>> 8)

/-- A time of one byte, behind the byte that says how many are copied. -/
theorem shift_back {c : Time} (h : c.toNat < 256) : (c <<< 8 ||| 7) >>> 8 = c := by
  have hall : ∀ n < 256, (BitVec.ofNat 64 n <<< 8 ||| 7) >>> 8 = BitVec.ofNat 64 n := by
    decide +kernel
  have hc := hall c.toNat h
  rwa [BitVec.ofNat_toNat, BitVec.setWidth_eq] at hc

theorem restore_known {a : List Time} {r : List Time × ℕ} (h : known a = some r) :
    restore r.1 r.2 = a := by
  unfold known at h
  split at h
  · next ha =>
      cases h
      exact ha.symm
  · split at h
    · next _ hc =>
        cases h
        show oneTime ((a.getD 0 0 <<< 8 ||| 7) >>> 8) = a
        rw [shift_back hc.2.1, ← hc.2.2]
    · cases h

/-- The outputs for these arrays have 44 or 57 bytes. -/
theorem size_known {a : List Time} {r : List Time × ℕ} (h : known a = some r) : r.2 ≤ 57 := by
  unfold known at h
  split at h
  · cases h
    exact (by decide : 44 ≤ 57)
  · split at h
    · cases h
      exact Nat.le_refl 57
    · cases h

/-- **Every other array is copied.** -/
def lzoCopying : Lzo where
  compress a := (known a).getD (literalRun a, 4116)
  decompress b n := if n ≤ 57 then restore b n else moveDown (b.drop 2)

theorem lzoCopying_compress (a : List Time) :
    lzoCopying.compress a = (known a).getD (literalRun a, 4116) := rfl

/-- **Every other array is kept.** -/
def lzoFitting : Lzo where
  compress a := (known a).getD (a, TIMETABLE_BYTES)
  decompress b n := if n ≤ 57 then restore b n else b

theorem lossless_lzoCopying : lzoCopying.Lossless := by
  intro a _
  unfold lzoCopying
  dsimp only
  cases h : known a with
  | some r =>
      rw [Option.getD_some, if_pos (size_known h)]
      exact restore_known h
  | none =>
      rw [Option.getD_none, if_neg (show ¬4116 ≤ 57 by decide)]
      exact moveDown_literalRun a

theorem lossless_lzoFitting : lzoFitting.Lossless := by
  intro a _
  unfold lzoFitting
  dsimp only
  cases h : known a with
  | some r =>
      rw [Option.getD_some, if_pos (size_known h)]
      exact restore_known h
  | none =>
      rw [Option.getD_none, if_neg (show ¬TIMETABLE_BYTES ≤ 57 by decide)]

theorem small_lzoCopying : lzoCopying.Small := by
  intro a
  show ((known a).getD (literalRun a, 4116)).2 < 2 ^ 16
  cases h : known a with
  | some r =>
      have := size_known h
      rw [Option.getD_some]
      omega
  | none => exact (by decide : 4116 < 2 ^ 16)

theorem fits_lzoFitting : lzoFitting.Fits := by
  intro a _
  show ((known a).getD (a, TIMETABLE_BYTES)).2 ≤ TIMETABLE_BYTES
  cases h : known a with
  | some r => exact (size_known h).trans (by decide)
  | none => exact Nat.le_refl _

theorem small_lzoFitting : lzoFitting.Small := by
  intro a
  show ((known a).getD (a, TIMETABLE_BYTES)).2 < 2 ^ 16
  cases h : known a with
  | some r =>
      have := size_known h
      rw [Option.getD_some]
      omega
  | none => exact (by decide : TIMETABLE_BYTES < 2 ^ 16)

/-- An array that does not begin with a small time is copied. -/
theorem size_lzoCopying {a : List Time} (h : 256 ≤ (a.getD 0 0).toNat) :
    (lzoCopying.compress a).2 = 4116 := by
  have hknown : known a = none := by
    unfold known
    rw [if_neg, if_neg (by omega)]
    rintro rfl
    exact absurd h (by decide)
  rw [lzoCopying_compress, hknown, Option.getD_none]

end Lzo

end Kremlin.Shadow
