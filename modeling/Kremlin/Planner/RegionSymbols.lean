/-
  Kremlin.Planner.RegionSymbols — static regions from the symbol table.

  A region is written by one program, rewritten by a second and read by a third.
  Main result `readBack_iff`: it is read back as it was written exactly when its
  file and its function name `Survives`: a name that is empty, has white space or
  is trimmed shifts or changes the fields, one that ends in `_krem` runs into the
  next delimiter, and one that starts with `prefix` ends what `^.*krem_prefix`
  takes away.
-/
import Kremlin.Instrument.Region
import Kremlin.Planner.SRegionReader

namespace Kremlin.Planner.RegionSymbols

open Kremlin.Library Kremlin.Instrument SRegionReader

/-! ## §1. From a region to a region. -/

/-- The region that the planner reads. -/
def readBack (address : BitVec 64) (type : Char) (r : Region) : Option SRegion := do
  let line ← sregionsLine (nmLine address type r.formatToString)
  createSRegionNew line

/-- The planner's type for a type of region. -/
def typeOf : Region.RegionType → SRegionType
  | .func => .func
  | .loop => .loop
  | .loop_body => .body

/-- The region read is the one written. -/
structure SameRegion (r : Region) (s : SRegion) : Prop where
  id : s.id = r.id
  type : s.type = typeOf r.regionType
  module : s.module = String.ofList r.fileName
  func : s.func = String.ofList r.funcName
  startLine : s.startLine = r.startLine
  endLine : s.endLine = r.endLine

/-- `"prefix"` -/
def prefixText : List Char := ['p', 'r', 'e', 'f', 'i', 'x']

/-- `"_krem"` -/
def kremText : List Char := ['_', 'k', 'r', 'e', 'm']

/-- A name without newline, tab, `_krem_` and `krem_prefix`. -/
structure Named (name : List Char) : Prop where
  newline : '\n' ∉ name
  tab : '\t' ∉ name
  delimiter : ¬DELIMITER <:+: name
  start : ¬PREFIX <:+: name

/-- **The names that survive.** -/
structure Survives (name : List Char) : Prop where
  ne_nil : name ≠ []
  space : ∀ c ∈ name, isSpace c = false
  trim : trim name = name
  start : ¬prefixText <+: name
  stop : ¬kremText <:+ name

/-! ## §2. Delimited fields. -/

/-- Fields, each followed by the delimiter. -/
def delimited (fields : List (List Char)) : List Char := fields.flatMap (· ++ DELIMITER)

/-- A field and its delimiter. -/
theorem delimited_cons (field : List Char) (fields : List (List Char)) :
    delimited (field :: fields) = field ++ (DELIMITER ++ delimited fields) := by
  unfold delimited
  rw [List.flatMap_cons, List.append_assoc]

/-- A symbol is the prefix and six delimited fields. -/
theorem formatToString_eq (r : Region) :
    r.formatToString = PREFIX ++ delimited [hex16 r.id, r.regionType.REGION_NAME, r.fileName,
      r.funcName, Nat.toDigits 10 r.startLine, Nat.toDigits 10 r.endLine] := by
  simp only [delimited_cons, Region.formatToString, List.append_assoc]
  rfl

/-- A delimiter starts in the next field, or in the field itself. -/
theorem prefixText_of_delimited {field : List Char} {fields : List (List Char)}
    (h : prefixText <+: delimited (field :: fields)) : prefixText <+: field := by
  rw [delimited_cons] at h
  exact prefix_of_prefix_append_cons (show '_' ∉ prefixText by decide) h

/-- The prefix and the delimiter do not overlap at a field's end, -/
theorem cross_field : ∀ t ∈ PREFIX.tails, t ≠ [] → ¬t <+: DELIMITER ∧ ¬DELIMITER <+: t := by
  decide

/-- the delimiter's end may be the prefix's start in one way only, -/
theorem cross_delimiter : ∀ t ∈ DELIMITER.tails, t ≠ [] → t <+: PREFIX →
    t = ['k', 'r', 'e', 'm', '_'] := by
  decide

/-- and so with what follows a name. -/
theorem cross_krem : ∀ t ∈ DELIMITER.tails, t ≠ [] → t <+: kremText → t = ['_'] := by
  decide

/-- **Where `krem_prefix` occurs in the fields**: in one of them, or at the start of
one that is not the first. -/
theorem PREFIX_notIn_delimited {fields : List (List Char)}
    (hfields : ∀ field ∈ fields, ¬PREFIX <:+: field)
    (hstart : ∀ field ∈ fields.tail, ¬prefixText <+: field) : ¬PREFIX <:+: delimited fields := by
  induction fields with
  | nil => exact fun h => absurd (List.eq_nil_of_infix_nil h) (by decide)
  | cons field fields ih =>
      -- no prefix in a field, and none across a delimiter unless the next field starts with it
      have hrest : ¬PREFIX <:+: delimited fields :=
        ih (fun f hf => hfields f (List.mem_cons_of_mem _ hf))
          (fun f hf => hstart f (List.mem_of_mem_tail hf))
      rw [delimited_cons]
      intro h
      rcases List.infix_append_iff_ne_nil.mp h with h | h | ⟨t₁, t₂, -, ht₂, heq, -, hpre⟩
      · exact hfields field List.mem_cons_self h
      · rcases List.infix_append_iff_ne_nil.mp h with h | h | ⟨t₁, t₂, ht₁, ht₂, heq, hsuf, hpre⟩
        · exact absurd h (by decide)
        · exact hrest h
        · -- it starts in the delimiter: the next field starts with `prefix`
          have hkrem := cross_delimiter t₁ ((List.mem_tails _ _).mpr hsuf) ht₁
            ⟨t₂, heq.symm⟩
          rw [hkrem] at heq
          have hstarts : prefixText = t₂ := List.append_cancel_left
            (show ['k', 'r', 'e', 'm', '_'] ++ prefixText = ['k', 'r', 'e', 'm', '_'] ++ t₂ from heq)
          rw [← hstarts] at hpre
          cases fields with
          | nil => exact absurd (List.prefix_nil.mp hpre) (by decide)
          | cons next fields =>
              exact hstart next List.mem_cons_self (prefixText_of_delimited hpre)
      · -- it runs from the field into the delimiter
        have hcross := cross_field t₂ ((List.mem_tails _ _).mpr ⟨t₁, heq.symm⟩) ht₂
        rcases List.prefix_or_prefix_of_prefix hpre (List.prefix_append DELIMITER _) with h | h
        · exact hcross.1 h
        · exact hcross.2 h

/-- **What `^.*krem_prefix` leaves.** -/
theorem afterLast_delimited {fields : List (List Char)} (xs : List Char)
    (hfields : ∀ field ∈ fields, ¬PREFIX <:+: field)
    (hstart : ∀ field ∈ fields.tail, ¬prefixText <+: field) :
    afterLast PREFIX (xs ++ (PREFIX ++ delimited fields)) = some (delimited fields) := by
  apply afterLast_append
  intro h
  exact PREFIX_notIn_delimited hfields hstart (infix_of_infix_append (by decide) h)

/-! ## §3. The fields of the line. -/

/-- The line of fields. -/
def tabbed (fields : List (List Char)) : List Char :=
  replaceAll DELIMITER ['\t'] (delimited fields)

/-- Of the delimiter, only its last character starts one. -/
theorem notIn_krem {name : List Char} (hname : ¬DELIMITER <:+: name) (hstop : ¬kremText <:+ name) :
    ¬DELIMITER <:+: name ++ DELIMITER.dropLast := by
  intro h
  rcases List.infix_append_iff_ne_nil.mp h with h | h | ⟨t₁, t₂, -, ht₂, heq, hsuf, hpre⟩
  · exact hname h
  · exact absurd h (by decide)
  · have hlast := cross_krem t₂ ((List.mem_tails _ _).mpr ⟨t₁, heq.symm⟩) ht₂ hpre
    rw [hlast] at heq
    have hkrem : kremText = t₁ :=
      List.append_cancel_right (show kremText ++ ['_'] = t₁ ++ ['_'] from heq)
    exact hstop (hkrem ▸ hsuf)

/-- A field that keeps its place. -/
theorem tabbed_cons {name : List Char} (hname : ¬DELIMITER <:+: name) (hstop : ¬kremText <:+ name)
    (fields : List (List Char)) : tabbed (name :: fields) = name ++ '\t' :: tabbed fields := by
  unfold tabbed
  rw [delimited_cons, replaceAll_field (by decide) (notIn_krem hname hstop)]
  rfl

/-- **A field that runs into its delimiter.** -/
theorem tabbed_krem {name field : List Char} (hname : ¬DELIMITER <:+: name)
    (hfield : name = field ++ kremText) (fields : List (List Char)) :
    ∃ rest, tabbed (name :: fields) = field ++ '\t' :: 'k' :: rest := by
  have htext : delimited (name :: fields) =
      field ++ (DELIMITER ++ ('k' :: (['r', 'e', 'm', '_'] ++ delimited fields))) := by
    rw [delimited_cons, hfield, List.append_assoc]
    rfl
  have hclean : ¬DELIMITER <:+: field ++ DELIMITER.dropLast := by
    rw [hfield] at hname
    exact hname
  have hk : ¬DELIMITER <+: 'k' :: (['r', 'e', 'm', '_'] ++ delimited fields) := by
    intro h
    rw [DELIMITER, List.cons_prefix_cons] at h
    exact absurd h.1 (by decide)
  unfold tabbed
  rw [htext, replaceAll_field (by decide) hclean, replaceAll_cons hk]
  exact ⟨_, rfl⟩

/-- The first pieces of a name and what follows: the name is a piece, or it is no
piece, or it ends too early and the next piece starts with `k`. -/
inductive FirstPieces (name : List Char) (fields : List (List Char)) : Prop where
  | kept (hne : name ≠ []) (hstop : ¬kremText <:+ name)
      (h : pieces isSpace (tabbed (name :: fields)) = name :: pieces isSpace (tabbed fields))
  | empty (hname : name = [])
      (h : pieces isSpace (tabbed (name :: fields)) = pieces isSpace (tabbed fields))
  | cut (field piece : List Char) (rest : List (List Char)) (hname : name = field ++ kremText)
      (hne : field ≠ []) (h : pieces isSpace (tabbed (name :: fields)) = field :: ('k' :: piece) :: rest)
  | lost (piece : List Char) (rest : List (List Char)) (hname : name = kremText)
      (h : pieces isSpace (tabbed (name :: fields)) = ('k' :: piece) :: rest)

/-- What the first piece of a line becomes. -/
theorem firstPieces {name : List Char} (hname : ¬DELIMITER <:+: name)
    (hspace : ∀ c ∈ name, isSpace c = false) (fields : List (List Char)) :
    FirstPieces name fields := by
  by_cases hstop : kremText <:+ name
  · obtain ⟨field, hfield⟩ := hstop
    obtain ⟨text, htext⟩ := tabbed_krem hname hfield.symm fields
    obtain ⟨piece, rest, hpiece⟩ := pieces_cons (show isSpace 'k' = false by decide) text
    by_cases hne : field = []
    · refine .lost piece rest ?_ ?_
      · rw [← hfield, hne]
        rfl
      · rw [htext, hne, List.nil_append, pieces_sep (by decide), hpiece]
    · refine .cut field piece rest hfield.symm hne ?_
      have hfieldSpace : ∀ c ∈ field, isSpace c = false := by
        intro c hc
        exact hspace c (hfield ▸ List.mem_append_left _ hc)
      rw [htext, pieces_field hne hfieldSpace (by decide), hpiece]
  · have htabbed := tabbed_cons hname hstop fields
    by_cases hne : name = []
    · refine .empty hne ?_
      rw [htabbed, hne, List.nil_append, pieces_sep (by decide)]
    · refine .kept hne hstop ?_
      rw [htabbed, pieces_field hne hspace (by decide)]

/-! ## §4. Fields that stay as they are. -/

/-- A field that keeps its place. -/
structure Kept (field : List Char) : Prop extends Survives field where
  delimiter : ¬DELIMITER <:+: field
  patternFree : ¬PREFIX <:+: field

/-- A name that survives is kept. -/
theorem Survives.kept {name : List Char} (h : Survives name) (hname : Named name) : Kept name :=
  ⟨h, hname.delimiter, hname.start⟩

/-- A field of other characters than those of the patterns. -/
theorem kept_of_chars {field : List Char} (hne : field ≠ [])
    (h : ∀ c ∈ field, ' ' < c ∧ c ≠ '_' ∧ c ≠ 'p') : Kept field where
  ne_nil := hne
  space c hc := isSpace_eq_false (h c hc).1
  trim := trim_eq_self fun c hc => (h c hc).1
  start hpre := (h 'p' (hpre.subset (by decide))).2.2 rfl
  stop hsuf := (h '_' (hsuf.subset (by decide))).2.1 rfl
  delimiter hinf := (h '_' (hinf.subset (by decide))).2.1 rfl
  patternFree hinf := (h '_' (hinf.subset (by decide))).2.1 rfl

/-- Digits are no spaces, no underscores and no `p`. -/
theorem digit_chars {base : ℕ} (hbase : 1 < base) (hle : base ≤ 16) (n : ℕ) :
    ∀ c ∈ Nat.toDigits base n, ' ' < c ∧ c ≠ '_' ∧ c ≠ 'p' := by
  have hchar : ∀ d < 16, ' ' < Nat.digitChar d ∧ Nat.digitChar d ≠ '_' ∧ Nat.digitChar d ≠ 'p' := by
    decide
  obtain ⟨digits, hdigits, heq, _⟩ := exists_digits hbase n
  intro c hc
  rw [heq] at hc
  obtain ⟨d, hd, rfl⟩ := List.mem_map.mp hc
  have hlt := hdigits d hd
  exact hchar d (by omega)

/-- So line numbers are kept, -/
theorem kept_line (n : ℕ) : Kept (Nat.toDigits 10 n) :=
  kept_of_chars Nat.toDigits_ne_nil (digit_chars (by decide) (by decide) n)

/-- and so are ids. -/
theorem kept_hex16 (x : BitVec 64) : Kept (hex16 x) := by
  unfold hex16 List.leftpad
  refine kept_of_chars ?_ ?_
  · intro h
    exact Nat.toDigits_ne_nil (List.append_eq_nil_iff.mp h).2
  · intro c hc
    rcases List.mem_append.mp hc with hc | hc
    · rw [List.eq_of_mem_replicate hc]
      decide
    · exact digit_chars (by decide) (by decide) _ c hc

/-- A text without white space, checked by evaluation. -/
theorem space_of_all {name : List Char} (h : name.all (fun c => !isSpace c) = true) :
    ∀ c ∈ name, isSpace c = false := by
  intro c hc
  have hspace := List.all_eq_true.mp h c hc
  rwa [Bool.not_eq_true'] at hspace

/-- The names of the types are kept. -/
theorem kept_REGION_NAME (type : Region.RegionType) : Kept type.REGION_NAME := by
  cases type <;>
    exact ⟨⟨by decide, space_of_all (by decide), by decide, by decide, by decide⟩, by decide,
      by decide⟩

/-- **Fields that stay as they are are the pieces of their line.** -/
theorem pieces_tabbed {fields : List (List Char)} (h : ∀ field ∈ fields, Kept field) :
    pieces isSpace (tabbed fields) = fields := by
  induction fields with
  | nil => rfl
  | cons field fields ih =>
      have hfield := h field List.mem_cons_self
      rw [tabbed_cons hfield.delimiter hfield.stop,
        pieces_field hfield.ne_nil hfield.space (by decide),
        ih (fun f hf => h f (List.mem_cons_of_mem _ hf))]

/-- A kept field is the first piece. -/
theorem splitRuns_tabbed {field : List Char} {fields : List (List Char)} (hfield : Kept field)
    (hfields : pieces isSpace (tabbed fields) ≠ []) :
    splitRuns isSpace (tabbed (field :: fields)) = field :: pieces isSpace (tabbed fields) := by
  rw [tabbed_cons hfield.delimiter hfield.stop]
  exact splitRuns_field hfield.space (by decide) hfields

/-! ## §5. The line of a region. -/

/-- **The line of a symbol**: the fields behind the last `krem_prefix`. -/
theorem sregionsLine_eq (xs : List Char) {line field : List Char} {fields : List (List Char)}
    (hline : line = xs ++ (PREFIX ++ delimited (field :: fields)))
    (hfields : ∀ f ∈ field :: fields, ¬PREFIX <:+: f)
    (hstart : ∀ f ∈ fields, ¬prefixText <+: f) :
    sregionsLine line = some (tabbed (field :: fields)) := by
  have hgrep : DELIMITER <:+: line := by
    rw [hline, delimited_cons]
    refine ⟨xs ++ (PREFIX ++ field), delimited fields, ?_⟩
    simp only [List.append_assoc]
  unfold sregionsLine
  rw [if_pos hgrep, hline, afterLast_delimited xs hfields hstart]
  rfl

/-- The fields of a region. -/
def fieldsOf (r : Region) : List (List Char) :=
  [hex16 r.id, r.regionType.REGION_NAME, r.fileName, r.funcName,
    Nat.toDigits 10 r.startLine, Nat.toDigits 10 r.endLine]

/-- The line that `nm` prints. -/
theorem nmLine_eq (address : BitVec 64) (type : Char) (r : Region) :
    nmLine address type r.formatToString =
      hex16 address ++ [' ', type, ' '] ++ (PREFIX ++ delimited (fieldsOf r)) := by
  rw [nmLine, formatToString_eq, List.append_assoc]
  rfl

/-- The reader knows the writer's types. -/
theorem getType_REGION_NAME (type : Region.RegionType) :
    getType type.REGION_NAME = some (typeOf type) := by
  cases type <;> decide

/-- **Names that survive**: the region is read as it was written. -/
theorem readBack_of_survives {r : Region} (address : BitVec 64) (type : Char)
    (hfile : Kept r.fileName) (hfunc : Kept r.funcName) (hstart : r.startLine < 2 ^ 31)
    (hend : r.endLine < 2 ^ 31) : ∃ s, readBack address type r = some s ∧ SameRegion r s := by
  have hid := kept_hex16 r.id
  have htype := kept_REGION_NAME r.regionType
  have hstartLine := kept_line r.startLine
  have hendLine := kept_line r.endLine
  -- all six fields are kept
  have hkept : ∀ f ∈ fieldsOf r, Kept f := by
    intro f hf
    simp only [fieldsOf, List.mem_cons, List.not_mem_nil, or_false] at hf
    rcases hf with rfl | rfl | rfl | rfl | rfl | rfl
    · exact hid
    · exact htype
    · exact hfile
    · exact hfunc
    · exact hstartLine
    · exact hendLine
  have hline : sregionsLine (nmLine address type r.formatToString) = some (tabbed (fieldsOf r)) :=
    sregionsLine_eq _ (nmLine_eq address type r) (fun f hf => (hkept f hf).patternFree)
      (fun f hf => (hkept f (List.mem_cons_of_mem _ hf)).start)
  have hpieces : pieces isSpace (tabbed (fieldsOf r).tail) = (fieldsOf r).tail :=
    pieces_tabbed fun f hf => hkept f (List.mem_of_mem_tail hf)
  have hsplit : splitRuns isSpace (tabbed (fieldsOf r)) = fieldsOf r := by
    refine (splitRuns_tabbed hid ?_).trans ?_
    · exact ne_of_eq_of_ne hpieces (List.cons_ne_nil _ _)
    · exact congrArg (hex16 r.id :: ·) hpieces
  have hcreate : createSRegionNew (tabbed (fieldsOf r)) = some
      { id := r.id, name := "N/A", module := String.ofList (trim r.fileName),
        func := String.ofList (trim r.funcName), startLine := r.startLine, endLine := r.endLine,
        type := typeOf r.regionType } := by
    refine createSRegionNew_fields hsplit ?_ ?_ ?_ ?_
    · rw [hid.trim]
      exact hexStringToByteArray_leftpad r.id
    · rw [htype.trim]
      exact getType_REGION_NAME r.regionType
    · rw [hstartLine.trim]
      exact parseInt_toDigits hstart
    · rw [hendLine.trim]
      exact parseInt_toDigits hend
  rw [hfile.trim, hfunc.trim] at hcreate
  unfold readBack
  rw [hline]
  exact ⟨_, hcreate, ⟨rfl, rfl, rfl, rfl, rfl, rfl⟩⟩

/-! ## §6. Names that do not survive. -/

/-- The first character of a line number. -/
theorem line_cons (n : ℕ) : ∃ c t, Nat.toDigits 10 n = c :: t ∧ c.isDigit = true := by
  cases h : Nat.toDigits 10 n with
  | nil => exact absurd h Nat.toDigits_ne_nil
  | cons c t =>
      refine ⟨c, t, rfl, ?_⟩
      exact Nat.isDigit_of_mem_toDigits (by decide) (by decide) (h ▸ List.mem_cons_self)

/-- A name that is trimmed to itself starts above `' '`. -/
theorem lt_of_trim_eq {c : Char} {t : List Char} (h : trim (c :: t) = c :: t) : ' ' < c := by
  by_contra hc
  have hle : c ≤ ' ' := Char.not_lt.mp hc
  have hdrop : trim (c :: t) = trim t := by
    unfold trim
    rw [List.dropWhile_cons, if_pos (decide_eq_true hle)]
  have hlen := length_trim_le t
  rw [← hdrop, h, List.length_cons] at hlen
  omega

/-- A type does not start so. -/
theorem unread_of_second {line first piece : List Char} {c : Char} {rest : List (List Char)}
    (hsplit : splitRuns isSpace line = first :: (c :: piece) :: rest) (hc : ' ' < c)
    (hf : c ≠ 'f') (hl : c ≠ 'l') (hs : c ≠ 'c') (s : SRegion) :
    createSRegionNew line ≠ some s := by
  intro h
  obtain ⟨id, type, file, func, _, hsplit', htype, -, -⟩ := createSRegionNew_eq_some h
  rw [hsplit] at hsplit'
  cases hsplit'
  obtain ⟨t, ht⟩ := trim_cons hc piece
  rw [ht, getType_cons hf hl hs] at htype
  cases htype

/-- The pieces start with a character that no trimming takes away. -/
def Solid (text : List Char) : Prop :=
  ∃ c piece rest, ' ' < c ∧ pieces isSpace text = (c :: piece) :: rest

/-- A line number is the first piece of what follows it. -/
theorem solid_line (n : ℕ) (fields : List (List Char)) :
    Solid (tabbed (Nat.toDigits 10 n :: fields)) := by
  have hkept := kept_line n
  obtain ⟨c, t, hline, hdigit⟩ := line_cons n
  refine ⟨c, t, pieces isSpace (tabbed fields), ?_, ?_⟩
  · exact lt_of_trim_eq (hline ▸ hkept.trim)
  · rw [tabbed_cons hkept.delimiter hkept.stop,
      pieces_field hkept.ne_nil hkept.space (by decide), hline]

/-- A name in front does not change that. -/
theorem Solid.cons {name : List Char} {fields : List (List Char)} (hsolid : Solid (tabbed fields))
    (hname : ¬DELIMITER <:+: name) (hspace : ∀ c ∈ name, isSpace c = false)
    (htrim : SRegionReader.trim name = name) : Solid (tabbed (name :: fields)) := by
  cases firstPieces hname hspace fields with
  | kept hne _ h =>
      obtain ⟨c, t, hct⟩ := List.exists_cons_of_ne_nil hne
      exact ⟨c, t, pieces isSpace (tabbed fields), lt_of_trim_eq (hct ▸ htrim), by rw [h, hct]⟩
  | empty _ h =>
      obtain ⟨c, t, rest, hc, hpieces⟩ := hsolid
      exact ⟨c, t, rest, hc, h.trans hpieces⟩
  | cut field piece rest hfield hne h =>
      obtain ⟨c, t, hct⟩ := List.exists_cons_of_ne_nil hne
      have hstart : name = c :: (t ++ kremText) := by rw [hfield, hct, List.cons_append]
      exact ⟨c, t, _, lt_of_trim_eq (hstart ▸ htrim), hct ▸ h⟩
  | lost piece rest _ h => exact ⟨'k', piece, rest, by decide, h⟩

/-- **A name that its first piece gives back** is kept. -/
theorem kept_of_first {name piece : List Char} {fields rest : List (List Char)}
    (hname : ¬DELIMITER <:+: name) (hspace : ∀ c ∈ name, isSpace c = false)
    (hsolid : Solid (tabbed fields))
    (h : pieces isSpace (tabbed (name :: fields)) = piece :: rest)
    (htrim : SRegionReader.trim piece = name) :
    name ≠ [] ∧ ¬kremText <:+ name ∧ rest = pieces isSpace (tabbed fields) := by
  cases firstPieces hname hspace fields with
  | kept hne hstop hfirst =>
      rw [hfirst] at h
      exact ⟨hne, hstop, (List.cons.inj h).2.symm⟩
  | empty hnil hfirst =>
      obtain ⟨c, t, _, hc, hpieces⟩ := hsolid
      rw [hfirst, hpieces] at h
      obtain ⟨u, hu⟩ := trim_cons hc t
      rw [← (List.cons.inj h).1, hu, hnil] at htrim
      cases htrim
  | cut field _ _ hfield _ hfirst =>
      rw [hfirst] at h
      have hlen := length_trim_le field
      rw [(List.cons.inj h).1, htrim, hfield, ← (List.cons.inj h).1, List.length_append] at hlen
      exact absurd hlen (by rw [kremText]; simp only [List.length_cons]; omega)
  | lost cut _ hkrem hfirst =>
      rw [hfirst] at h
      obtain ⟨u, hu⟩ := trim_cons (show ' ' < 'k' by decide) cut
      rw [← (List.cons.inj h).1, hu, hkrem] at htrim
      exact absurd (List.cons.inj htrim).1 (by decide)

/-- The first field of a line, and what follows it. -/
theorem splitRuns_first {name : List Char} {fields : List (List Char)}
    (hname : ¬DELIMITER <:+: name) (hspace : ∀ c ∈ name, isSpace c = false)
    (hsolid : Solid (tabbed fields)) :
    splitRuns isSpace (tabbed (name :: fields)) = name :: pieces isSpace (tabbed fields) ∨
      ∃ field piece rest,
        splitRuns isSpace (tabbed (name :: fields)) = field :: ('k' :: piece) :: rest := by
  by_cases hstop : kremText <:+ name
  · obtain ⟨field, hfield⟩ := hstop
    obtain ⟨text, htext⟩ := tabbed_krem hname hfield.symm fields
    obtain ⟨piece, rest, hpiece⟩ := pieces_cons (show isSpace 'k' = false by decide) text
    have hfieldSpace : ∀ c ∈ field, isSpace c = false := by
      intro c hc
      exact hspace c (hfield ▸ List.mem_append_left _ hc)
    refine .inr ⟨field, piece, rest, ?_⟩
    rw [htext, splitRuns_field hfieldSpace (by decide), hpiece]
    rw [hpiece]
    exact List.cons_ne_nil _ _
  · refine .inl ?_
    rw [tabbed_cons hname hstop]
    refine splitRuns_field hspace (by decide) ?_
    obtain ⟨c, t, rest, _, hpieces⟩ := hsolid
    rw [hpieces]
    exact List.cons_ne_nil _ _

/-- The fields of two parts. -/
theorem delimited_append (xs ys : List (List Char)) :
    delimited (xs ++ ys) = delimited xs ++ delimited ys := List.flatMap_append

/-- A field that starts with `prefix` makes a `krem_prefix` with the delimiter
before it. -/
theorem exists_start {before : List (List Char)} (hne : before ≠ []) (name : List Char)
    (after : List (List Char)) :
    ∃ xs, delimited (before ++ (prefixText ++ name) :: after) =
      xs ++ (PREFIX ++ delimited (name :: after)) := by
  obtain ⟨init, last, rfl⟩ := (List.eq_nil_or_concat before).resolve_left hne
  refine ⟨delimited init ++ (last ++ ['_']), ?_⟩
  rw [List.concat_eq_append, delimited_append, delimited_append, delimited_cons, delimited_cons,
    delimited_cons]
  simp only [List.append_assoc]
  rfl

/-- A name that a field can give. -/
structure Clean (name : List Char) : Prop extends Named name where
  space : ∀ c ∈ name, isSpace c = false
  trim : trim name = name

/-- The fields of the two lines. -/
def lineFields (r : Region) : List (List Char) :=
  [Nat.toDigits 10 r.startLine, Nat.toDigits 10 r.endLine]

/-- The two line numbers are kept. -/
theorem kept_lineFields (r : Region) : ∀ f ∈ lineFields r, Kept f := by
  intro f hf
  rcases List.mem_pair.mp hf with rfl | rfl
  · exact kept_line r.startLine
  · exact kept_line r.endLine

/-- They are solid. -/
theorem solid_lineFields (r : Region) : Solid (tabbed (lineFields r)) :=
  solid_line r.startLine _

/-- Two line numbers too early are not read. -/
theorem unread_of_line {line first : List Char} {r : Region}
    (hsplit : splitRuns isSpace line = first :: pieces isSpace (tabbed (lineFields r)))
    (s : SRegion) : createSRegionNew line ≠ some s := by
  obtain ⟨c, t, hline, hdigit⟩ := line_cons r.startLine
  rw [pieces_tabbed (kept_lineFields r), lineFields, hline] at hsplit
  have hne : ∀ d : Char, d.isDigit = false → c ≠ d := by
    intro d hd hcd
    rw [hcd, hd] at hdigit
    cases hdigit
  exact unread_of_second hsplit (lt_of_trim_eq (hline ▸ (kept_line r.startLine).trim))
    (hne _ (by decide)) (hne _ (by decide)) (hne _ (by decide)) s

/-- A name that starts with `prefix` hides the fields before it. -/
theorem sregionsLine_start {r : Region} (address : BitVec 64) (type : Char)
    (before : List (List Char)) (name : List Char) (after : List (List Char)) (hne : before ≠ [])
    (hfields : fieldsOf r = before ++ (prefixText ++ name) :: after)
    (hname : ∀ f ∈ (prefixText ++ name) :: after, ¬PREFIX <:+: f)
    (hafter : ∀ f ∈ after, ¬prefixText <+: f) :
    sregionsLine (nmLine address type r.formatToString) = some (tabbed (name :: after)) := by
  obtain ⟨xs, hxs⟩ := exists_start hne name after
  refine sregionsLine_eq (hex16 address ++ [' ', type, ' '] ++ (PREFIX ++ xs)) ?_ ?_ hafter
  · rw [nmLine_eq, hfields, hxs]
    simp only [List.append_assoc]
  · intro f hf
    rcases List.mem_cons.mp hf with rfl | hf
    · intro h
      exact hname _ List.mem_cons_self (List.infix_append_of_infix_right h)
    · exact hname f (List.mem_cons_of_mem _ hf)

/-- The third field is the file. -/
theorem module_of_third {line first second piece : List Char} {c : Char}
    {rest : List (List Char)} {s : SRegion}
    (hsplit : splitRuns isSpace line = first :: second :: (c :: piece) :: rest) (hc : ' ' < c)
    (h : createSRegionNew line = some s) : ∃ t, s.module = String.ofList (c :: t) := by
  obtain ⟨id, type, file, func, _, hsplit', -, hmodule, -⟩ := createSRegionNew_eq_some h
  rw [hsplit] at hsplit'
  cases hsplit'
  obtain ⟨t, ht⟩ := trim_cons hc piece
  exact ⟨t, by rw [hmodule, ht]⟩

/-- A function name that starts with `prefix` loses the fields before it. -/
theorem unread_of_func_start {r : Region} (address : BitVec 64) (type : Char)
    (hfunc : Clean r.funcName) (hstarts : prefixText <+: r.funcName) (s : SRegion) :
    readBack address type r ≠ some s := by
  obtain ⟨name, hname⟩ := hstarts
  have hline := sregionsLine_start (r := r) address type
    [hex16 r.id, r.regionType.REGION_NAME, r.fileName] name (lineFields r)
    (List.cons_ne_nil _ _) (by rw [hname]; rfl)
    (by
      rw [hname]
      intro f hf
      rcases List.mem_cons.mp hf with rfl | hf
      · exact hfunc.start
      · exact (kept_lineFields r f hf).patternFree)
    (fun f hf => (kept_lineFields r f hf).start)
  have hdelimiter : ¬DELIMITER <:+: name := by
    intro h
    exact hfunc.delimiter (hname ▸ List.infix_append_of_infix_right h)
  have hspace : ∀ c ∈ name, isSpace c = false := by
    intro c hc
    exact hfunc.space c (hname ▸ List.mem_append_right _ hc)
  unfold readBack
  rw [hline, Option.bind_eq_bind, Option.bind_some]
  rcases splitRuns_first hdelimiter hspace (solid_lineFields r) with h | ⟨field, piece, rest, h⟩
  · exact unread_of_line h s
  · exact unread_of_second h (by decide) (by decide) (by decide) (by decide) s

/-- So does a file name, and another file name is read. -/
theorem unread_of_file_start {r : Region} {address : BitVec 64} {type : Char}
    (hfile : Clean r.fileName) (hfunc : Clean r.funcName)
    (hstart : ¬prefixText <+: r.funcName) (hstarts : prefixText <+: r.fileName) {s : SRegion}
    (h : readBack address type r = some s) : s.module ≠ String.ofList r.fileName := by
  obtain ⟨name, hname⟩ := hstarts
  have hline := sregionsLine_start (r := r) address type
    [hex16 r.id, r.regionType.REGION_NAME] name (r.funcName :: lineFields r)
    (List.cons_ne_nil _ _) (by rw [hname]; rfl)
    (by
      rw [hname]
      intro f hf
      rcases List.mem_cons.mp hf with rfl | hf
      · exact hfile.start
      · rcases List.mem_cons.mp hf with rfl | hf
        · exact hfunc.start
        · exact (kept_lineFields r f hf).patternFree)
    (by
      intro f hf
      rcases List.mem_cons.mp hf with rfl | hf
      · exact hstart
      · exact (kept_lineFields r f hf).start)
  have hdelimiter : ¬DELIMITER <:+: name := by
    intro h
    exact hfile.delimiter (hname ▸ List.infix_append_of_infix_right h)
  have hspace : ∀ c ∈ name, isSpace c = false := by
    intro c hc
    exact hfile.space c (hname ▸ List.mem_append_right _ hc)
  have hsolid := (solid_lineFields r).cons hfunc.delimiter hfunc.space hfunc.trim
  unfold readBack at h
  rw [hline, Option.bind_eq_bind, Option.bind_some] at h
  rcases splitRuns_first hdelimiter hspace hsolid with hsplit | ⟨field, piece, rest, hsplit⟩
  · -- the third piece starts with a digit or with `k`, the file name with `p`
    have hdiff : ∀ (c : Char) (t : List Char), c ≠ 'p' → s.module = String.ofList (c :: t) →
        s.module ≠ String.ofList r.fileName := by
      intro c t hc hmodule heq
      rw [hmodule, String.ofList_inj, ← hname] at heq
      exact hc (List.cons.inj heq).1
    cases firstPieces hfunc.delimiter hfunc.space (lineFields r) with
    | kept _ _ hpieces =>
        obtain ⟨c, t, hdigits, hdigit⟩ := line_cons r.startLine
        have hthird : pieces isSpace (tabbed (r.funcName :: lineFields r)) =
            r.funcName :: (c :: t) :: [Nat.toDigits 10 r.endLine] := by
          rw [hpieces, pieces_tabbed (kept_lineFields r), lineFields, hdigits]
        rw [hthird] at hsplit
        have hp : c ≠ 'p' := by
          intro hcp
          rw [hcp] at hdigit
          exact absurd hdigit (by decide)
        obtain ⟨u, hu⟩ := module_of_third hsplit
          (lt_of_trim_eq (hdigits ▸ (kept_line r.startLine).trim)) h
        exact hdiff c u hp hu
    | empty _ hpieces =>
        rw [hpieces] at hsplit
        exact absurd h (unread_of_line hsplit s)
    | cut field piece rest _ _ hpieces =>
        rw [hpieces] at hsplit
        obtain ⟨u, hu⟩ := module_of_third hsplit (by decide) h
        exact hdiff 'k' u (by decide) hu
    | lost piece rest _ hpieces =>
        rw [hpieces] at hsplit
        exact absurd h
          (unread_of_second hsplit (by decide) (by decide) (by decide) (by decide) s)
  · exact absurd h (unread_of_second hsplit (by decide) (by decide) (by decide) (by decide) s)

/-- **A region that is read back has names that survive.** -/
theorem survives_of_readBack {r : Region} {address : BitVec 64} {type : Char}
    (hfile : Named r.fileName) (hfunc : Named r.funcName) {s : SRegion}
    (h : readBack address type r = some s) (hsame : SameRegion r s) :
    Survives r.fileName ∧ Survives r.funcName := by
  obtain ⟨line, hline, hcreate⟩ := Option.bind_eq_some_iff.mp h
  obtain ⟨id, regionType, file, func, rest, hsplit, -, hmodule, hfuncName⟩ :=
    createSRegionNew_eq_some hcreate
  rw [hsame.module, String.ofList_inj] at hmodule
  rw [hsame.func, String.ofList_inj] at hfuncName
  have hcleanFile : Clean r.fileName := by
    refine ⟨hfile, ?_, ?_⟩
    · intro c hc
      rw [hmodule] at hc
      exact mem_splitRuns hsplit (by simp) c (mem_of_mem_trim hc)
    · rw [hmodule, trim_trim]
  have hcleanFunc : Clean r.funcName := by
    refine ⟨hfunc, ?_, ?_⟩
    · intro c hc
      rw [hfuncName] at hc
      exact mem_splitRuns hsplit (by simp) c (mem_of_mem_trim hc)
    · rw [hfuncName, trim_trim]
  have hstartFunc : ¬prefixText <+: r.funcName := fun hstarts =>
    unread_of_func_start address type hcleanFunc hstarts s h
  have hstartFile : ¬prefixText <+: r.fileName := fun hstarts =>
    unread_of_file_start hcleanFile hcleanFunc hstartFunc hstarts h hsame.module
  -- all six fields are there: the names are the third and the fourth piece
  have hid := kept_hex16 r.id
  have htype := kept_REGION_NAME r.regionType
  have hfields : ∀ f ∈ fieldsOf r, ¬PREFIX <:+: f := by
    intro f hf
    simp only [fieldsOf, List.mem_cons, List.not_mem_nil, or_false] at hf
    rcases hf with rfl | rfl | rfl | rfl | rfl | rfl
    · exact hid.patternFree
    · exact htype.patternFree
    · exact hfile.start
    · exact hfunc.start
    · exact (kept_line _).patternFree
    · exact (kept_line _).patternFree
  have hstarts : ∀ f ∈ (fieldsOf r).tail, ¬prefixText <+: f := by
    intro f hf
    simp only [fieldsOf, List.tail_cons, List.mem_cons, List.not_mem_nil, or_false] at hf
    rcases hf with rfl | rfl | rfl | rfl | rfl
    · exact htype.start
    · exact hstartFile
    · exact hstartFunc
    · exact (kept_line _).start
    · exact (kept_line _).start
  have hline' : sregionsLine (nmLine address type r.formatToString) = some (tabbed (fieldsOf r)) :=
    sregionsLine_eq _ (nmLine_eq address type r) hfields hstarts
  rw [hline'] at hline
  cases hline
  have hsolidFunc : Solid (tabbed (r.funcName :: lineFields r)) :=
    (solid_lineFields r).cons hfunc.delimiter hcleanFunc.space hcleanFunc.trim
  have hpieces : pieces isSpace (tabbed (fieldsOf r).tail) =
      r.regionType.REGION_NAME :: pieces isSpace
        (tabbed (r.fileName :: r.funcName :: lineFields r)) := by
    show pieces isSpace (tabbed (r.regionType.REGION_NAME :: r.fileName :: r.funcName ::
      lineFields r)) = _
    rw [tabbed_cons htype.delimiter htype.stop, pieces_field htype.ne_nil htype.space (by decide)]
  have hall : splitRuns isSpace (tabbed (fieldsOf r)) =
      hex16 r.id :: pieces isSpace (tabbed (fieldsOf r).tail) :=
    splitRuns_tabbed hid (ne_of_eq_of_ne hpieces (List.cons_ne_nil _ _))
  rw [hpieces, hsplit] at hall
  obtain ⟨hneFile, hstopFile, hrest⟩ := kept_of_first hfile.delimiter hcleanFile.space hsolidFunc
    (List.cons.inj (List.cons.inj hall).2).2.symm hmodule.symm
  obtain ⟨hneFunc, hstopFunc, -⟩ := kept_of_first hfunc.delimiter hcleanFunc.space
    (solid_lineFields r) hrest.symm hfuncName.symm
  exact ⟨⟨hneFile, hcleanFile.space, hcleanFile.trim, hstartFile, hstopFile⟩,
    ⟨hneFunc, hcleanFunc.space, hcleanFunc.trim, hstartFunc, hstopFunc⟩⟩

/-! ## §7. When a region is read back. -/

/-- **A region is read back as it was written exactly when both names survive.** -/
theorem readBack_iff (r : Region) (address : BitVec 64) (type : Char) (hfile : Named r.fileName)
    (hfunc : Named r.funcName) (hstart : r.startLine < 2 ^ 31) (hend : r.endLine < 2 ^ 31) :
    (∃ s, readBack address type r = some s ∧ SameRegion r s) ↔
      Survives r.fileName ∧ Survives r.funcName := by
  constructor
  · rintro ⟨s, h, hsame⟩
    exact survives_of_readBack hfile hfunc h hsame
  · rintro ⟨hfile', hfunc'⟩
    exact readBack_of_survives address type (hfile'.kept hfile) (hfunc'.kept hfunc) hstart hend

/-- `main` in `a.c`. -/
def mainRegion : Region :=
  { id := 1, regionType := .func, fileName := ['a', '.', 'c'], funcName := ['m', 'a', 'i', 'n'],
    startLine := 5, endLine := 5 }

/-- The region of `main` is read back. -/
theorem readBack_main :
    (∃ s, readBack 0x601038 'B' mainRegion = some s ∧ SameRegion mainRegion s) ∧
      Survives mainRegion.fileName ∧ Survives mainRegion.funcName := by
  have hfile : Survives mainRegion.fileName :=
    ⟨by decide, space_of_all (by decide), by decide, by decide, by decide⟩
  have hfunc : Survives mainRegion.funcName :=
    ⟨by decide, space_of_all (by decide), by decide, by decide, by decide⟩
  have hiff := readBack_iff mainRegion 0x601038 'B' ⟨by decide, by decide, by decide, by decide⟩
    ⟨by decide, by decide, by decide, by decide⟩ (by decide) (by decide)
  exact ⟨hiff.mpr ⟨hfile, hfunc⟩, hfile, hfunc⟩

/-- The debug information of `operator int` in `number.cpp`. -/
def operatorInt : DISubprogram :=
  { function := 0, filename := ['s', '/', 'n', '.', 'c', 'p', 'p'],
    displayName := ['o', 'p', 'e', 'r', 'a', 't', 'o', 'r', ' ', 'i', 'n', 't'], lineNumber := 3 }

/-- **A name with a space shifts the fields**: `operator int` is read as a function
`operator` whose lines are 0. -/
theorem operatorInt_shifted :
    ∃ r, FuncRegion 1 0 [operatorInt] [] 0 = some r ∧ Named r.fileName ∧ Named r.funcName ∧
      readBack 0x601038 'B' r = some
        { id := 1, name := "N/A", module := "n.cpp", func := "operator", startLine := 0,
          endLine := 0, type := .func } ∧
      ¬∃ s, readBack 0x601038 'B' r = some s ∧ SameRegion r s := by
  refine ⟨{ id := 1, regionType := .func, fileName := ['n', '.', 'c', 'p', 'p'],
            funcName := operatorInt.displayName, startLine := 3, endLine := 3 }, by decide +kernel,
    ⟨by decide, by decide, by decide, by decide⟩, ⟨by decide, by decide, by decide, by decide⟩,
    by decide +kernel, ?_⟩
  rintro ⟨s, hread, hsame⟩
  have hline : (readBack 0x601038 'B'
      { id := 1, regionType := .func, fileName := ['n', '.', 'c', 'p', 'p'],
        funcName := operatorInt.displayName, startLine := 3, endLine := 3 }).map
      (·.startLine) = some 0 := by
    decide +kernel
  rw [hread, Option.map_some, hsame.startLine] at hline
  cases hline

end Kremlin.Planner.RegionSymbols
