/-
  Kremlin.Planner.SRegionReader — reading a static region from a line.

  `createSRegionNew` splits the line at white space.  A line with too few fields,
  an id that is no list of bytes or an unknown type is an exception (`none`); line
  numbers that cannot be read are 0.  `createSRegionNew_eq_some` says what the
  fields of a region come from, `createSRegionNew_fields` which line gives it.
-/
import Mathlib.Data.List.DropRight
import Kremlin.Library.DelimitedText
import Kremlin.Planner.SRegion

namespace Kremlin.Planner.SRegionReader

open Kremlin.Library

/-! ## §1. Characters. -/

/-- `\s`. -/
def isSpace (c : Char) : Bool :=
  c = ' ' || c = '\t' || c = '\n' || c = '\x0B' || c = '\x0C' || c = '\r'

/-- `String.trim`: without the characters up to `' '` at both ends. -/
def trim (s : List Char) : List Char :=
  (s.dropWhile fun c => c ≤ ' ').rdropWhile fun c => c ≤ ' '

/-- The zeros of the decimal digits that a `char` can hold. -/
def zeros : List ℕ :=
  [0x0030, 0x0660, 0x06F0, 0x07C0, 0x0966, 0x09E6, 0x0A66, 0x0AE6, 0x0B66, 0x0BE6, 0x0C66,
    0x0CE6, 0x0D66, 0x0DE6, 0x0E50, 0x0ED0, 0x0F20, 0x1040, 0x1090, 0x17E0, 0x1810, 0x1946,
    0x19D0, 0x1A80, 0x1A90, 0x1B50, 0x1BB0, 0x1C40, 0x1C50, 0xA620, 0xA8D0, 0xA900, 0xA9D0,
    0xA9F0, 0xAA50, 0xABF0, 0xFF10]

/-- The letters `A` to `Z` and `a` to `z`, and their full-width forms. -/
def letters : List ℕ := [0x0041, 0x0061, 0xFF21, 0xFF41]

/-- `Character.digit`: -1 for what is no digit of the radix. -/
def digit (ch : Char) (radix : ℕ) : ℤ :=
  let inRow (length first : ℕ) : Bool := first ≤ ch.toNat ∧ ch.toNat < first + length
  let value : Option ℕ :=
    match zeros.find? (inRow 10), letters.find? (inRow 26) with
    | some first, _ => some (ch.toNat - first)
    | none, some first => some (ch.toNat - first + 10)
    | none, none => none
  match value with
  | some value => if value < radix then value else -1
  | none => -1

/-! ## §2. Numbers. -/

/-- The bytes of `hexStringToByteArray`, two digits each; an odd digit at the end
is an exception. -/
def toBytes : List Char → Option (List (BitVec 8))
  | [] => some []
  | [_] => none
  | high :: low :: rest =>
      (toBytes rest).map (BitVec.ofInt 8 (digit high 16 * 2 ^ 4 + digit low 16) :: ·)

/-- `value = (value << 8) + (data[i] & 0xff)` -/
def addByte (value : BitVec 64) (byte : BitVec 8) : BitVec 64 := value <<< 8 + byte.setWidth 64

/-- `hexStringToByteArray`. -/
def hexStringToByteArray (s : List Char) : Option (BitVec 64) :=
  (toBytes s).map fun data => data.foldl addByte 0

/-- The value of a list of decimal digits; `none` where one is no digit. -/
def decimal (s : List Char) : Option ℕ :=
  s.foldlM (fun value c => if digit c 10 = -1 then none else some (10 * value + (digit c 10).toNat)) 0

/-- `Integer.parseInt`; `none` for a `NumberFormatException`. -/
def parseInt (s : List Char) : Option ℤ :=
  let (negative, digits) :=
    match s with
    | '-' :: digits => (true, digits)
    | '+' :: digits => (false, digits)
    | digits => (false, digits)
  if digits = [] then none
  else do
    let value ← decimal digits
    let value : ℤ := if negative then -value else value
    if -2147483648 ≤ value ∧ value ≤ 2147483647 then some value else none

/-! ## §3. Regions. -/

/-- `getType`; `none` for `assert(false)`. -/
def getType (src : List Char) : Option SRegionType :=
  if src = ['f', 'u', 'n', 'c'] then some .func
  else if src = ['l', 'o', 'o', 'p'] then some .loop
  else if src = ['l', 'o', 'o', 'p', '-', 'b', 'o', 'd', 'y'] then some .body
  else if src = ['l', 'o', 'o', 'p', '_', 'b', 'o', 'd', 'y'] then some .body
  else if src = ['c', 'a', 'l', 'l', 's', 'i', 't', 'e', 'I', 'd'] then some .callsite
  else none

/-- The start and end line: both 0 after an exception. -/
def readLines : List (List Char) → ℤ × ℤ
  | start :: stop :: _ =>
      match parseInt (trim start), parseInt (trim stop) with
      | some start, some stop => (start, stop)
      | _, _ => (0, 0)
  | _ => (0, 0)

/-- `createSRegionNew`. -/
def createSRegionNew (line : List Char) : Option SRegion :=
  match splitRuns isSpace line with
  | id :: type :: file :: func :: lines => do
      let id ← hexStringToByteArray (trim id)
      let type ← getType (trim type)
      some { id, name := "N/A", module := String.ofList (trim file),
             func := String.ofList (trim func), startLine := (readLines lines).1,
             endLine := (readLines lines).2, type }
  | _ => none

/-! ## §4. Fields of a line. -/

/-- What comes after the blank is no white space. -/
theorem isSpace_eq_false {c : Char} (hc : ' ' < c) : isSpace c = false := by
  have hne : ∀ d : Char, d ≤ ' ' → decide (c = d) = false := by
    intro d hd
    refine decide_eq_false ?_
    intro hcd
    rw [hcd] at hc
    exact absurd hd (Char.not_le.mpr hc)
  unfold isSpace
  rw [hne _ (by decide), hne _ (by decide), hne _ (by decide), hne _ (by decide),
    hne _ (by decide), hne _ (by decide)]
  rfl

/-- A text without such characters is not trimmed. -/
theorem trim_eq_self {s : List Char} (h : ∀ c ∈ s, ' ' < c) : trim s = s := by
  have hkeep : ∀ c ∈ s, ¬decide (c ≤ ' ') = true := by
    intro c hc
    rw [decide_eq_true_iff]
    exact Char.not_le.mpr (h c hc)
  unfold trim
  cases s with
  | nil => rfl
  | cons c s =>
      rw [List.dropWhile_cons, if_neg (hkeep c List.mem_cons_self),
        List.rdropWhile_eq_self_iff]
      intro hne
      exact hkeep _ (List.getLast_mem hne)

/-- What starts above `' '` keeps its start. -/
theorem rdropWhile_cons {c : Char} (hc : ' ' < c) (s : List Char) :
    ∃ t, (c :: s).rdropWhile (fun c => c ≤ ' ') = c :: t := by
  cases hs : (c :: s).rdropWhile (fun c => c ≤ ' ') with
  | nil =>
      rw [List.rdropWhile_eq_nil_iff] at hs
      exact absurd (of_decide_eq_true (hs c List.mem_cons_self)) (Char.not_le.mpr hc)
  | cons d t =>
      have hpre := List.rdropWhile_prefix (fun c => decide (c ≤ ' ')) (c :: s)
      rw [hs, List.cons_prefix_cons] at hpre
      exact ⟨t, by rw [hpre.1]⟩

/-- Trimming stops at the first other character. -/
theorem dropWhile_cons {c : Char} (hc : ' ' < c) (s : List Char) :
    (c :: s).dropWhile (fun c => c ≤ ' ') = c :: s := by
  rw [List.dropWhile_cons, if_neg]
  rw [decide_eq_true_iff]
  exact Char.not_le.mpr hc

/-- So the first character is kept. -/
theorem trim_cons {c : Char} (hc : ' ' < c) (s : List Char) : ∃ t, trim (c :: s) = c :: t := by
  unfold trim
  rw [dropWhile_cons hc]
  exact rdropWhile_cons hc s

/-- Trimming twice is trimming once. -/
theorem trim_trim (s : List Char) : trim (trim s) = trim s := by
  unfold trim
  cases hs : s.dropWhile (fun c => c ≤ ' ') with
  | nil => rfl
  | cons c t =>
      have hc : ' ' < c := by
        have hne : s.dropWhile (fun c => decide (c ≤ ' ')) ≠ [] := by
          rw [hs]
          exact List.cons_ne_nil _ _
        have hhead := List.head_dropWhile_not (fun c => decide (c ≤ ' ')) hne
        simp only [hs, List.head_cons, decide_eq_false_iff_not] at hhead
        exact Char.not_le.mp hhead
      obtain ⟨u, hu⟩ := rdropWhile_cons hc t
      rw [hu, dropWhile_cons hc, ← hu]
      exact List.rdropWhile_idempotent _ _

/-- Nothing is added, -/
theorem mem_of_mem_trim {c : Char} {s : List Char} (h : c ∈ trim s) : c ∈ s :=
  (List.dropWhile_suffix _).subset ((List.rdropWhile_prefix _ _).subset h)

/-- so the text gets no longer. -/
theorem length_trim_le (s : List Char) : (trim s).length ≤ s.length := by
  unfold trim
  exact ((List.rdropWhile_prefix _ _).length_le).trans (List.dropWhile_suffix _).length_le

/-- A type starts with one of three letters. -/
theorem getType_cons {c : Char} (hf : c ≠ 'f') (hl : c ≠ 'l') (hc : c ≠ 'c') (s : List Char) :
    getType (c :: s) = none := by
  have hne : ∀ (d : Char) (t : List Char), c ≠ d → c :: s ≠ d :: t := by
    intro d t hcd heq
    exact hcd (List.cons.inj heq).1
  unfold getType
  rw [if_neg (hne _ _ hf), if_neg (hne _ _ hl), if_neg (hne _ _ hl), if_neg (hne _ _ hl),
    if_neg (hne _ _ hc)]

/-! ## §5. Numbers in their usual form. -/

/-- A hexadecimal digit is read back, -/
theorem digit_digitChar : ∀ d < 16, digit (Nat.digitChar d) 16 = d := by decide

/-- and so is a decimal one. -/
theorem digit_digitChar_ten : ∀ d < 10, digit (Nat.digitChar d) 10 = d := by decide

/-- The value of a list of digits. -/
def valueFrom (base : ℕ) (value : ℕ) (digits : List ℕ) : ℕ :=
  digits.foldl (fun value d => base * value + d) value

/-- The value of two parts. -/
theorem valueFrom_append (base value : ℕ) (xs ys : List ℕ) :
    valueFrom base value (xs ++ ys) = valueFrom base (valueFrom base value xs) ys :=
  List.foldl_append

/-- Leading zeros add nothing. -/
theorem valueFrom_zeros (base k : ℕ) : valueFrom base 0 (List.replicate k 0) = 0 := by
  induction k with
  | zero => rfl
  | succ k ih =>
      rw [List.replicate_succ]
      show valueFrom base (base * 0 + 0) (List.replicate k 0) = 0
      exact ih

/-- The digits of a number. -/
theorem exists_digits {base : ℕ} (hbase : 1 < base) (n : ℕ) :
    ∃ digits : List ℕ, (∀ d ∈ digits, d < base) ∧
      Nat.toDigits base n = digits.map Nat.digitChar ∧ valueFrom base 0 digits = n := by
  induction n using Nat.strongRecOn with
  | ind n ih =>
      by_cases hn : n < base
      · refine ⟨[n], ?_, Nat.toDigits_of_lt_base hn, ?_⟩
        · intro d hd
          rw [List.mem_singleton.mp hd]
          exact hn
        · show base * 0 + n = n
          omega
      · have hle : base ≤ n := Nat.le_of_not_lt hn
        have hlt : n / base < n := Nat.div_lt_self (by omega) hbase
        obtain ⟨digits, hdigits, heq, hvalue⟩ := ih (n / base) hlt
        have hmod : n % base < base := Nat.mod_lt _ (by omega)
        refine ⟨digits ++ [n % base], ?_, ?_, ?_⟩
        · intro d hd
          rcases List.mem_append.mp hd with hd | hd
          · exact hdigits d hd
          · rw [List.mem_singleton.mp hd]
            exact hmod
        · rw [Nat.toDigits_of_base_le hbase hle, heq, List.map_append]
          rfl
        · rw [valueFrom_append, hvalue]
          exact Nat.div_add_mod n base

/-- One byte more. -/
theorem byte_step {v high low : ℕ} (hhigh : high < 16) (hlow : low < 16) :
    addByte (BitVec.ofNat 64 v) (BitVec.ofInt 8 ((high : ℤ) * 2 ^ 4 + low)) =
      BitVec.ofNat 64 (16 * (16 * v + high) + low) := by
  unfold addByte
  have hbyte : (high : ℤ) * 2 ^ 4 + low = ((16 * high + low : ℕ) : ℤ) := by
    push_cast
    omega
  rw [hbyte, BitVec.ofInt_natCast]
  apply BitVec.eq_of_toNat_eq
  rw [BitVec.toNat_add, BitVec.toNat_shiftLeft, BitVec.toNat_setWidth, BitVec.toNat_ofNat,
    BitVec.toNat_ofNat, BitVec.toNat_ofNat, Nat.shiftLeft_eq]
  omega

/-- An even number of digits makes bytes of the same value. -/
theorem toBytes_digits : ∀ digits : List ℕ, (∀ d ∈ digits, d < 16) → digits.length % 2 = 0 →
    ∃ data, toBytes (digits.map Nat.digitChar) = some data ∧
      ∀ v : ℕ, data.foldl addByte (BitVec.ofNat 64 v) =
        BitVec.ofNat 64 (valueFrom 16 v digits)
  | [], _, _ => ⟨[], rfl, fun _ => rfl⟩
  | [_], _, hlen => absurd hlen Nat.one_ne_zero
  | high :: low :: rest, hdigits, hlen => by
      have hhigh : high < 16 := hdigits high List.mem_cons_self
      have hlow : low < 16 := hdigits low (List.mem_cons_of_mem _ List.mem_cons_self)
      have hrest : ∀ d ∈ rest, d < 16 := fun d hd =>
        hdigits d (List.mem_cons_of_mem _ (List.mem_cons_of_mem _ hd))
      have hlen' : rest.length % 2 = 0 := by
        rw [List.length_cons, List.length_cons] at hlen
        omega
      obtain ⟨data, hdata, hfold⟩ := toBytes_digits rest hrest hlen'
      rw [List.map_cons, List.map_cons, toBytes, hdata, digit_digitChar high hhigh,
        digit_digitChar low hlow]
      refine ⟨_, rfl, ?_⟩
      intro v
      rw [List.foldl_cons, byte_step hhigh hlow, hfold]
      rfl

/-- **An id in sixteen digits is read as it is.** -/
theorem hexStringToByteArray_leftpad (id : BitVec 64) :
    hexStringToByteArray ((Nat.toDigits 16 id.toNat).leftpad 16 '0') = some id := by
  obtain ⟨digits, hdigits, heq, hvalue⟩ := exists_digits (show 1 < 16 by decide) id.toNat
  have hlen : digits.length ≤ 16 := by
    have hle := (Nat.length_toDigits_le_iff (b := 16) (k := 16) (by decide) (by decide)).mpr
      (show id.toNat < 16 ^ 16 from id.isLt)
    rwa [heq, List.length_map] at hle
  have hpad : (Nat.toDigits 16 id.toNat).leftpad 16 '0' =
      (List.replicate (16 - digits.length) 0 ++ digits).map Nat.digitChar := by
    rw [List.leftpad, heq, List.length_map, List.map_append, List.map_replicate]
    rfl
  have hall : ∀ d ∈ List.replicate (16 - digits.length) 0 ++ digits, d < 16 := by
    intro d hd
    rcases List.mem_append.mp hd with hd | hd
    · rw [List.eq_of_mem_replicate hd]
      decide
    · exact hdigits d hd
  have heven : (List.replicate (16 - digits.length) 0 ++ digits).length % 2 = 0 := by
    rw [List.length_append, List.length_replicate]
    omega
  obtain ⟨data, hdata, hfold⟩ := toBytes_digits _ hall heven
  unfold hexStringToByteArray
  rw [hpad, hdata, Option.map_some]
  show some (data.foldl addByte (BitVec.ofNat 64 0)) = _
  rw [hfold 0, valueFrom_append, valueFrom_zeros, hvalue, BitVec.ofNat_toNat,
    BitVec.setWidth_eq]

/-- Decimal digits are read as their value. -/
theorem decimal_digits {digits : List ℕ} (h : ∀ d ∈ digits, d < 10) (v : ℕ) :
    (digits.map Nat.digitChar).foldlM (fun value c =>
      if digit c 10 = -1 then none else some (10 * value + (digit c 10).toNat)) v =
      some (valueFrom 10 v digits) := by
  induction digits generalizing v with
  | nil => rfl
  | cons d digits ih =>
      have hd := digit_digitChar_ten d (h d List.mem_cons_self)
      rw [List.map_cons, List.foldlM_cons, hd, if_neg (by omega), Option.bind_eq_bind,
        Option.bind_some, ih (fun e he => h e (List.mem_cons_of_mem _ he)), Int.toNat_natCast]
      rfl

/-- **A line number below `2 ^ 31` is read as it is.** -/
theorem parseInt_toDigits {n : ℕ} (hn : n < 2 ^ 31) : parseInt (Nat.toDigits 10 n) = some n := by
  obtain ⟨digits, hdigits, heq, hvalue⟩ := exists_digits (show 1 < 10 by decide) n
  have hsign : ∀ c ∈ Nat.toDigits 10 n, c ≠ '-' ∧ c ≠ '+' := by
    intro c hc
    have hdig := Nat.isDigit_of_mem_toDigits (by decide) (by decide) hc
    constructor
    · intro h
      rw [h] at hdig
      exact absurd hdig (by decide)
    · intro h
      rw [h] at hdig
      exact absurd hdig (by decide)
  have hdecimal : decimal (Nat.toDigits 10 n) = some n := by
    rw [heq]
    exact (decimal_digits hdigits 0).trans (by rw [hvalue])
  have hne : Nat.toDigits 10 n ≠ [] := Nat.toDigits_ne_nil
  unfold parseInt
  split
  next negative ds hmatch =>
    split at hmatch
    · next rest hrest =>
      exact absurd rfl (hsign '-' (hrest ▸ List.mem_cons_self)).1
    · next rest hrest =>
      exact absurd rfl (hsign '+' (hrest ▸ List.mem_cons_self)).2
    · cases hmatch
      have hrange : -2147483648 ≤ (n : ℤ) ∧ (n : ℤ) ≤ 2147483647 := by omega
      rw [if_neg hne, hdecimal]
      simp only [Option.bind_eq_bind, Option.bind_some, Bool.false_eq_true, if_false]
      rw [if_pos hrange]
      rfl

/-! ## §6. The region of a line. -/

/-- **Six fields that can be read** give a region. -/
theorem createSRegionNew_fields {line id type file func start stop : List Char} {i : BitVec 64}
    {t : SRegionType} {a b : ℤ}
    (hsplit : splitRuns isSpace line = [id, type, file, func, start, stop])
    (hid : hexStringToByteArray (trim id) = some i) (htype : getType (trim type) = some t)
    (hstart : parseInt (trim start) = some a) (hstop : parseInt (trim stop) = some b) :
    createSRegionNew line = some
      { id := i, name := "N/A", module := String.ofList (trim file),
        func := String.ofList (trim func), startLine := a, endLine := b, type := t } := by
  have hlines : readLines [start, stop] = (a, b) := by
    simp only [readLines, hstart, hstop]
  unfold createSRegionNew
  simp only [hsplit, hid, htype, hlines, Option.bind_eq_bind, Option.bind_some]

/-- **Where the fields of a region come from.** -/
theorem createSRegionNew_eq_some {line : List Char} {s : SRegion}
    (h : createSRegionNew line = some s) :
    ∃ id type file func rest, splitRuns isSpace line = id :: type :: file :: func :: rest ∧
      getType (trim type) = some s.type ∧ s.module = String.ofList (trim file) ∧
      s.func = String.ofList (trim func) := by
  unfold createSRegionNew at h
  split at h
  · next id type file func rest hsplit =>
    obtain ⟨_, _, h⟩ := Option.bind_eq_some_iff.mp h
    obtain ⟨_, htype, h⟩ := Option.bind_eq_some_iff.mp h
    cases h
    exact ⟨id, type, file, func, rest, hsplit, htype, rfl, rfl⟩
  · cases h

end Kremlin.Planner.SRegionReader
