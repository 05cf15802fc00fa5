/-
  Kremlin.Library.GetoptLong — scanning an argument vector for options.

  `getopt_long` as the GNU library documents it: arguments that are no options are
  skipped and moved behind the options, a short option may share its argument with
  others, and a long option may be abbreviated.  Left out are the orderings other
  than permutation, options whose argument is optional, and `-W`.

  A vector that is being scanned has four parts (`Shape`): what lies before the
  skipped arguments, the skipped arguments, the options after them, and the rest.

    * `Shape.advance` — what a call does before it looks at an option;
    * `getopt_long_end`, `getopt_long_at` — the end of the scan, and a long option;
    * `getopt_long_ok` — what any call does to the parts.
-/
import Mathlib.Data.List.TakeWhile
import Mathlib.Tactic.Common

namespace Kremlin.Library.Getopt

/-! ## §1. The scanner. -/

/-- `struct option`; `flag` names the variable that is set to `val`. -/
structure LongOption (F : Type) where
  name : List Char
  has_arg : Bool
  flag : Option F
  val : Char
  deriving DecidableEq

/-- What the scanner keeps: `optind`, `optarg`, `optopt`, the variables of the flags,
and its own variables.  `'\0'` stands for the number 0. -/
structure State (F : Type) where
  argv : List (List Char)
  optind : ℕ
  nextchar : List Char
  first_nonopt : ℕ
  last_nonopt : ℕ
  optarg : Option (List Char)
  optopt : Char
  flags : F → Char

/-- Before the first call. -/
def State.init {F : Type} (argv : List (List Char)) : State F :=
  { argv, optind := 1, nextchar := [], first_nonopt := 1, last_nonopt := 1, optarg := none,
    optopt := '?', flags := fun _ => '\x00' }

/-- An argument that is no option. -/
def nonoption : List Char → Bool
  | '-' :: _ :: _ => false
  | _ => true

variable {F : Type}

/-- The options found since arguments were skipped change places with these. -/
def State.exchange (s : State F) : State F :=
  { s with
    argv := s.argv.take s.first_nonopt ++ (s.argv.take s.optind).drop s.last_nonopt ++
      (s.argv.take s.last_nonopt).drop s.first_nonopt ++ s.argv.drop s.optind
    first_nonopt := s.first_nonopt + (s.optind - s.last_nonopt)
    last_nonopt := s.optind }

/-- Options come first. -/
def State.permute (s : State F) : State F :=
  if s.first_nonopt ≠ s.last_nonopt ∧ s.last_nonopt ≠ s.optind then s.exchange
  else if s.last_nonopt ≠ s.optind then { s with first_nonopt := s.optind }
  else s

/-- Skip arguments that are no options. -/
def State.skip (s : State F) : State F :=
  let optind := s.optind + ((s.argv.drop s.optind).takeWhile nonoption).length
  { s with optind, last_nonopt := optind }

/-- `--` ends the options. -/
def State.stop (s : State F) : State F :=
  if s.argv[s.optind]? = some ['-', '-'] then
    let s := { s with optind := s.optind + 1 }
    let s :=
      if s.first_nonopt ≠ s.last_nonopt ∧ s.last_nonopt ≠ s.optind then s.exchange
      else if s.first_nonopt = s.last_nonopt then { s with first_nonopt := s.optind }
      else s
    { s with last_nonopt := s.argv.length, optind := s.argv.length }
  else s

/-- The option of an exact name, or of an abbreviation that fits no other. -/
def lookup [DecidableEq F] (longopts : List (LongOption F)) (name : List Char) :
    Option (LongOption F) :=
  match longopts.find? fun o => o.name = name with
  | some o => some o
  | none =>
      match longopts.filter fun o => name <+: o.name with
      | [] => none
      | pfound :: others =>
          if others.any fun o => o.has_arg ≠ pfound.has_arg ∨ o.flag ≠ pfound.flag ∨
            o.val ≠ pfound.val then none
          else some pfound

/-- The name in the text of a long option. -/
def nameOf (text : List Char) : List Char := text.takeWhile fun c => c ≠ '='

/-- A long option has been found. -/
def LongOption.found [DecidableEq F] (p : LongOption F) (s : State F) : Option Char × State F :=
  match p.flag with
  | some flag => (some '\x00', { s with flags := Function.update s.flags flag p.val })
  | none => (some p.val, s)

/-- A long option, with its argument behind `=` or in the next element. -/
def process_long_option [DecidableEq F] (longopts : List (LongOption F)) (s : State F)
    (text : List Char) : Option Char × State F :=
  match lookup longopts (nameOf text) with
  | none => (some '?', { s with nextchar := [], optind := s.optind + 1, optopt := '\x00' })
  | some p =>
      let s := { s with nextchar := [], optind := s.optind + 1 }
      match text.drop (nameOf text).length with
      | _ :: value =>
          if p.has_arg then p.found { s with optarg := some value }
          else (some '?', { s with optopt := p.val })
      | [] =>
          if p.has_arg then
            match s.argv[s.optind]? with
            | some value => p.found { s with optarg := some value, optind := s.optind + 1 }
            | none => (some '?', { s with optopt := p.val })
          else p.found s

/-- The next short option; `optstring` has a `:` behind an option with an argument. -/
def process_short_option (optstring : List Char) (s : State F) : Option Char × State F :=
  match s.nextchar with
  | [] => (none, s)
  | c :: rest =>
      let s := { s with nextchar := rest, optind := if rest = [] then s.optind + 1 else s.optind }
      match optstring.dropWhile fun d => d ≠ c with
      | [] => (some '?', { s with optopt := c })
      | _ :: temp =>
          if c = ':' ∨ c = ';' then (some '?', { s with optopt := c })
          else if temp.head? = some ':' then
            if rest ≠ [] then
              (some c, { s with optarg := some rest, optind := s.optind + 1, nextchar := [] })
            else
              match s.argv[s.optind]? with
              | some value =>
                  (some c, { s with optarg := some value, optind := s.optind + 1, nextchar := [] })
              | none => (some '?', { s with optopt := c, nextchar := [] })
          else (some c, s)

/-- The element behind the skipped arguments; `none` stands for -1. -/
def process_element [DecidableEq F] (optstring : List Char) (longopts : List (LongOption F))
    (s : State F) : Option Char × State F :=
  match s.argv[s.optind]? with
  | none =>
      (none, if s.first_nonopt ≠ s.last_nonopt then { s with optind := s.first_nonopt } else s)
  | some ('-' :: '-' :: text) => process_long_option longopts s text
  | some arg => process_short_option optstring { s with nextchar := arg.drop 1 }

/-- A cluster of short options is gone through first. -/
def getopt_long [DecidableEq F] (optstring : List Char) (longopts : List (LongOption F))
    (s : State F) : Option Char × State F :=
  let s := { s with optarg := none }
  if s.nextchar ≠ [] then process_short_option optstring s
  else process_element optstring longopts s.permute.skip.stop

/-! ## §2. The parts of the vector. -/

/-- **The vector while it is scanned**: `A`, the skipped arguments `N`, the options
`M` found since, and the rest `R`. -/
structure Shape (s : State F) (A N M R : List (List Char)) : Prop where
  argv : s.argv = A ++ N ++ M ++ R
  first : s.first_nonopt = A.length
  last : s.last_nonopt = A.length + N.length
  optind : s.optind = A.length + N.length + M.length
  operands : ∀ x ∈ N, nonoption x = true

/-- The variables that the parts do not depend on. -/
structure SameRest (s s' : State F) : Prop where
  nextchar : s'.nextchar = s.nextchar
  optarg : s'.optarg = s.optarg
  optopt : s'.optopt = s.optopt
  flags : s'.flags = s.flags

variable {s : State F} {A N M R : List (List Char)}

/-- Nothing has been looked at. -/
theorem Shape.init {argv0 : List Char} {args : List (List Char)} :
    Shape (State.init (F := F) (argv0 :: args)) [argv0] [] [] args where
  argv := rfl
  first := rfl
  last := rfl
  optind := rfl
  operands _ hx := absurd hx List.not_mem_nil

/-- What is left to scan. -/
theorem Shape.drop (h : Shape s A N M R) : s.argv.drop s.optind = R := by
  rw [h.argv, h.optind, ← List.length_append, ← List.length_append, List.drop_left]

/-- The element at `optind`. -/
theorem Shape.getElem? (h : Shape s A N M R) : s.argv[s.optind]? = R.head? := by
  rw [← h.drop, List.head?_drop]

/-- The skipped operands change places with the options behind them. -/
theorem Shape.permute (h : Shape s A N M R) :
    s.permute.argv = A ++ M ++ N ++ R ∧ s.permute.first_nonopt = A.length + M.length ∧
      s.permute.optind = A.length + M.length + N.length := by
  have hargv := h.argv
  have hfirst := h.first
  have hlast := h.last
  have hoptind := h.optind
  unfold State.permute
  split
  · -- the options change places with the skipped arguments
    have hA : s.argv.take s.first_nonopt = A := by
      rw [hargv, hfirst, List.append_assoc, List.append_assoc, List.take_left]
    have hM : (s.argv.take s.optind).drop s.last_nonopt = M := by
      rw [hargv, hoptind, ← List.length_append, ← List.length_append, List.take_left, hlast,
        ← List.length_append, List.drop_left]
    have hN : (s.argv.take s.last_nonopt).drop s.first_nonopt = N := by
      rw [hargv, hlast, ← List.length_append, List.append_assoc, List.take_left, hfirst,
        List.drop_left]
    refine ⟨?_, ?_, ?_⟩
    · show s.argv.take s.first_nonopt ++ (s.argv.take s.optind).drop s.last_nonopt ++
        (s.argv.take s.last_nonopt).drop s.first_nonopt ++ s.argv.drop s.optind = _
      rw [hA, hM, hN, h.drop]
    · show s.first_nonopt + (s.optind - s.last_nonopt) = _
      omega
    · show s.optind = _
      omega
  · next hno =>
    split
    · next hne =>
      -- nothing is skipped
      have hN : N = [] := by
        rw [← List.length_eq_zero_iff]
        by_contra hN
        exact hno ⟨by omega, hne⟩
      subst hN
      rw [List.length_nil] at hoptind
      refine ⟨?_, ?_, ?_⟩
      · show s.argv = _
        rw [hargv, List.append_nil, List.append_nil]
      · show s.optind = _
        omega
      · show s.optind = _
        rw [List.length_nil]
        omega
    · next heq =>
      have hM : M = [] := by
        rw [← List.length_eq_zero_iff]
        omega
      subst hM
      rw [List.length_nil] at hoptind
      refine ⟨?_, ?_, ?_⟩
      · rw [hargv, List.append_nil, List.append_nil]
      · rw [hfirst, List.length_nil, Nat.add_zero]
      · rw [hoptind, List.length_nil]
        omega

/-- The rest of the state stays. -/
theorem permute_rest (s : State F) : SameRest s s.permute := by
  unfold State.permute
  split
  · exact ⟨rfl, rfl, rfl, rfl⟩
  · split
    · exact ⟨rfl, rfl, rfl, rfl⟩
    · exact ⟨rfl, rfl, rfl, rfl⟩

/-- Skipping operands leaves it alone, too. -/
theorem SameRest.skip {s' : State F} (h : SameRest s s') : SameRest s s'.skip :=
  ⟨h.nextchar, h.optarg, h.optopt, h.flags⟩

/-- **What a call does first**: the options found come before the skipped arguments,
and more of these are skipped. -/
theorem Shape.advance (h : Shape s A N M R) :
    Shape s.permute.skip (A ++ M) (N ++ R.takeWhile nonoption) [] (R.dropWhile nonoption) := by
  obtain ⟨hargv, hfirst, hoptind⟩ := h.permute
  have hdrop : s.permute.argv.drop s.permute.optind = R := by
    rw [hargv, hoptind, ← List.length_append, ← List.length_append, List.drop_left]
  refine ⟨?_, ?_, ?_, ?_, ?_⟩
  · show s.permute.argv = _
    rw [hargv, List.append_nil, ← List.append_assoc, List.append_assoc _ (List.takeWhile _ _),
      List.takeWhile_append_dropWhile]
  · show s.permute.first_nonopt = _
    rw [hfirst, List.length_append]
  · show s.permute.optind + ((s.permute.argv.drop s.permute.optind).takeWhile nonoption).length = _
    rw [hdrop, hoptind, List.length_append, List.length_append, Nat.add_assoc]
  · show s.permute.optind + ((s.permute.argv.drop s.permute.optind).takeWhile nonoption).length = _
    rw [hdrop, hoptind, List.length_append, List.length_append, List.length_nil, Nat.add_assoc]
    rfl
  · intro x hx
    rcases List.mem_append.mp hx with hx | hx
    · exact h.operands x hx
    · exact List.mem_takeWhile_imp hx

/-- Without `--` there is nothing to stop at. -/
theorem stop_eq {s : State F} (h : s.argv[s.optind]? ≠ some ['-', '-']) : s.stop = s := by
  unfold State.stop
  rw [if_neg h]

/-- The scanner at the next element. -/
def State.start (s : State F) : State F := (State.permute { s with optarg := none }).skip

/-- More operands are skipped. -/
theorem Shape.start (h : Shape s A N M R) :
    Shape s.start (A ++ M) (N ++ R.takeWhile nonoption) [] (R.dropWhile nonoption) :=
  Shape.advance (s := { s with optarg := none }) ⟨h.argv, h.first, h.last, h.optind, h.operands⟩

/-- Where the scan stood, there is what was next. -/
theorem Shape.start_getElem? (h : Shape s A N M R) : s.start.argv[s.optind]? = R.head? := by
  have hargv : s.start.argv = (A ++ M ++ N) ++ R := by
    rw [h.start.argv, List.append_nil, ← List.append_assoc (A ++ M) N,
      List.append_assoc (A ++ M ++ N), List.takeWhile_append_dropWhile]
  have hoptind : s.optind = (A ++ M ++ N).length := by
    rw [h.optind, List.length_append, List.length_append]
    omega
  rw [hargv, hoptind, ← List.head?_drop, List.drop_left]

/-- That leaves the rest alone. -/
theorem start_rest (s : State F) : SameRest { s with optarg := none } s.start :=
  (permute_rest _).skip

/-- An option that has been passed. -/
theorem Shape.pass (h : Shape s A N M (x :: R)) {s' : State F} (hargv : s'.argv = s.argv)
    (hfirst : s'.first_nonopt = s.first_nonopt) (hlast : s'.last_nonopt = s.last_nonopt)
    (hoptind : s'.optind = s.optind + 1) : Shape s' A N (M ++ [x]) R := by
  refine ⟨?_, hfirst.trans h.first, hlast.trans h.last, ?_, h.operands⟩
  · rw [hargv, h.argv, List.append_assoc _ M, List.append_assoc _ _ R, List.append_assoc M]
    rfl
  · rw [hoptind, h.optind, List.length_append, List.length_singleton]
    omega

/-! ## §3. One call. -/

/-- The next element that is no skipped argument. -/
theorem dropWhile_nonoption (R : List (List Char)) :
    R.dropWhile nonoption = [] ∨ ∃ c t R', R.dropWhile nonoption = ('-' :: c :: t) :: R' := by
  cases hR : R.dropWhile nonoption with
  | nil => exact .inl rfl
  | cons x R' =>
      have hx : nonoption x = false := by
        have hne : R.dropWhile nonoption ≠ [] := by
          rw [hR]
          exact List.cons_ne_nil _ _
        have hhead := List.head_dropWhile_not nonoption hne
        simp only [hR, List.head_cons] at hhead
        exact hhead
      unfold nonoption at hx
      split at hx
      · next c t => exact .inr ⟨c, t, R', rfl⟩
      · cases hx

variable [DecidableEq F] {optstring : List Char} {longopts : List (LongOption F)}

/-- A call that is not inside a cluster looks at the next option. -/
theorem getopt_long_start (hnext : s.nextchar = []) (h : Shape s A N M R)
    (hdash : ['-', '-'] ∉ R) :
    getopt_long optstring longopts s = process_element optstring longopts s.start := by
  have hstop : s.start.stop = s.start := by
    apply stop_eq
    rw [h.start.getElem?]
    intro hhead
    exact hdash ((List.dropWhile_suffix _).subset (List.mem_of_mem_head? hhead))
  unfold getopt_long
  rw [if_neg (by rw [hnext]; exact not_not_intro rfl)]
  exact congrArg (process_element optstring longopts) hstop

/-- **The end of the vector**: the skipped arguments remain. -/
theorem process_element_done (optstring : List Char) (longopts : List (LongOption F))
    (h : Shape s A N [] []) :
    ∃ s', process_element optstring longopts s = (none, s') ∧ s'.argv.drop s'.optind = N ∧
      s'.flags = s.flags := by
  have hget := h.getElem?
  have hargv := h.argv
  rw [List.append_nil, List.append_nil] at hargv
  unfold process_element
  rw [hget]
  refine ⟨_, rfl, ?_, ?_⟩
  · split
    · show s.argv.drop s.first_nonopt = N
      rw [hargv, h.first, List.drop_left]
    · next heq =>
      have hN : N = [] := by
        rw [← List.length_eq_zero_iff]
        have hfirst := h.first
        have hlast := h.last
        by_contra hN
        exact heq (by omega)
      rw [h.drop, hN]
  · split
    · rfl
    · rfl

/-- Two dashes make a long option. -/
theorem process_element_long {text : List Char} (h : Shape s A N [] (('-' :: '-' :: text) :: R)) :
    process_element optstring longopts s = process_long_option longopts s text := by
  unfold process_element
  rw [h.getElem?]
  rfl

/-- **A call that ends the scan**: there are only arguments that are no options. -/
theorem getopt_long_end (optstring : List Char) (longopts : List (LongOption F))
    {ops : List (List Char)} (hnext : s.nextchar = []) (h : Shape s A N M ops)
    (hops : ∀ x ∈ ops, nonoption x = true) :
    ∃ s', getopt_long optstring longopts s = (none, s') ∧ s'.argv.drop s'.optind = N ++ ops ∧
      s'.flags = s.flags := by
  have hdash : ['-', '-'] ∉ ops := fun hmem => absurd (hops _ hmem) (by decide)
  have hstart := h.start
  rw [List.takeWhile_eq_self_iff.mpr hops, List.dropWhile_eq_nil_iff.mpr hops] at hstart
  obtain ⟨s', hrun, hdrop, hflags⟩ := process_element_done optstring longopts hstart
  rw [getopt_long_start hnext h hdash]
  exact ⟨s', hrun, hdrop, hflags.trans (start_rest s).flags⟩

/-- **A call that meets a long option** behind arguments that are no options. -/
theorem getopt_long_at (optstring : List Char) (longopts : List (LongOption F))
    {ops : List (List Char)} {text : List Char} (hnext : s.nextchar = [])
    (h : Shape s A N M (ops ++ ('-' :: '-' :: text) :: R))
    (hops : ∀ x ∈ ops, nonoption x = true)
    (hdash : ['-', '-'] ∉ ops ++ ('-' :: '-' :: text) :: R) :
    getopt_long optstring longopts s = process_long_option longopts s.start text ∧
      Shape s.start (A ++ M) (N ++ ops) [] (('-' :: '-' :: text) :: R) := by
  have hstart := h.start
  rw [List.takeWhile_append_of_pos hops, List.takeWhile_cons_of_neg Bool.false_ne_true,
    List.append_nil, List.dropWhile_append_of_pos hops,
    List.dropWhile_cons_of_neg Bool.false_ne_true] at hstart
  exact ⟨(getopt_long_start hnext h hdash).trans (process_element_long hstart), hstart⟩

/-! ## §4. Long options. -/

/-- **An option that is not known**, or fits several. -/
theorem process_long_unknown {text : List Char} (h : Shape s A N [] (('-' :: '-' :: text) :: R))
    (hlookup : lookup longopts (nameOf text) = none) :
    ∃ s', process_long_option longopts s text = (some '?', s') ∧
      Shape s' A N [('-' :: '-' :: text)] R ∧ s'.argv = s.argv ∧ s'.nextchar = [] ∧
      s'.optopt = '\x00' ∧ s'.flags = s.flags := by
  unfold process_long_option
  rw [hlookup]
  exact ⟨_, rfl, h.pass rfl rfl rfl rfl, rfl, rfl, rfl, rfl⟩

/-- **An option without an argument.** -/
theorem process_long_flag {name : List Char} {p : LongOption F}
    (h : Shape s A N [] (('-' :: '-' :: name) :: R)) (hname : nameOf name = name)
    (hlookup : lookup longopts name = some p) (harg : p.has_arg = false) :
    ∃ s', process_long_option longopts s name = p.found s' ∧
      Shape s' A N [('-' :: '-' :: name)] R ∧ s'.nextchar = [] ∧ s'.flags = s.flags := by
  unfold process_long_option
  rw [hname, hlookup]
  simp only [List.drop_length, harg, Bool.false_eq_true, if_false]
  exact ⟨_, rfl, h.pass rfl rfl rfl rfl, rfl, rfl⟩

/-- **An option with its argument behind `=`.** -/
theorem process_long_assigned {name value : List Char} {p : LongOption F}
    (h : Shape s A N [] (('-' :: '-' :: (name ++ '=' :: value)) :: R)) (hname : '=' ∉ name)
    (hlookup : lookup longopts name = some p) (harg : p.has_arg = true) :
    ∃ s', process_long_option longopts s (name ++ '=' :: value) = p.found s' ∧
      Shape s' A N [('-' :: '-' :: (name ++ '=' :: value))] R ∧ s'.nextchar = [] ∧
      s'.optarg = some value ∧ s'.flags = s.flags := by
  have hnameOf : nameOf (name ++ '=' :: value) = name := by
    unfold nameOf
    rw [List.takeWhile_append_of_pos]
    · rw [List.takeWhile_cons_of_neg (by decide), List.append_nil]
    · intro c hc
      refine decide_eq_true ?_
      rintro rfl
      exact hname hc
  unfold process_long_option
  rw [hnameOf, hlookup]
  simp only [List.drop_left, harg, if_true]
  exact ⟨_, rfl, h.pass rfl rfl rfl rfl, rfl, rfl, rfl⟩

/-- **An option with the next element as its argument.** -/
theorem process_long_separate {name value : List Char} {p : LongOption F}
    (h : Shape s A N [] (('-' :: '-' :: name) :: value :: R)) (hname : nameOf name = name)
    (hlookup : lookup longopts name = some p) (harg : p.has_arg = true) :
    ∃ s', process_long_option longopts s name = p.found s' ∧
      Shape s' A N [('-' :: '-' :: name), value] R ∧ s'.nextchar = [] ∧
      s'.optarg = some value ∧ s'.flags = s.flags := by
  have hpass : Shape { s with nextchar := [], optind := s.optind + 1 } A N
      ([] ++ [('-' :: '-' :: name)]) (value :: R) := h.pass rfl rfl rfl rfl
  have hget := hpass.getElem?
  unfold process_long_option
  rw [hname, hlookup]
  simp only [List.drop_length, harg, if_true]
  simp only at hget
  rw [hget]
  exact ⟨_, rfl, hpass.pass rfl rfl rfl rfl, rfl, rfl, rfl⟩

/-! ## §5. Any call. -/

/-- The tables use neither `?` nor the number 0. -/
structure Plain (optstring : List Char) (longopts : List (LongOption F)) : Prop where
  optstring : '?' ∉ optstring
  val : ∀ o ∈ longopts, o.val ≠ '?' ∧ o.val ≠ '\x00'

/-- Where a call leaves the scanner: behind some of the elements. -/
structure Passed (s : State F) (A N R : List (List Char)) : Prop where
  shape : ∃ M R', Shape s A N M R' ∧ R' <:+ R ∧ (s.nextchar ≠ [] → R' ≠ [])
  text : '\x00' ∉ s.nextchar

omit [DecidableEq F] in
/-- The element of the options is left, or not. -/
theorem Shape.passed (h : Shape s A N M R) {R₀ : List (List Char)} (hsuf : R <:+ R₀)
    (hnext : s.nextchar ≠ [] → R ≠ []) (htext : '\x00' ∉ s.nextchar) : Passed s A N R₀ :=
  ⟨⟨M, R, h, hsuf, hnext⟩, htext⟩

omit [DecidableEq F] in
/-- An element is done with. -/
theorem Shape.pass_passed {x : List Char} (h : Shape s A N M (x :: R)) {s' : State F}
    {R₀ : List (List Char)} (hsuf : x :: R <:+ R₀) (hargv : s'.argv = s.argv)
    (hfirst : s'.first_nonopt = s.first_nonopt) (hlast : s'.last_nonopt = s.last_nonopt)
    (hoptind : s'.optind = s.optind + 1) (hnext : s'.nextchar = []) : Passed s' A N R₀ :=
  (h.pass hargv hfirst hlast hoptind).passed ((List.suffix_cons x R).trans hsuf)
    (fun hne => absurd hnext hne) (by rw [hnext]; exact List.not_mem_nil)

/-- The state behind a short option. -/
def State.shift (s : State F) (rest : List Char) : State F :=
  { s with nextchar := rest, optind := if rest = [] then s.optind + 1 else s.optind }

omit [DecidableEq F] in
/-- A short option is taken out of its cluster. -/
theorem Shape.shift {x : List Char} (h : Shape s A N M (x :: R)) (rest : List Char) :
    ∃ M' R', Shape (s.shift rest) A N M' R' ∧ R' <:+ x :: R ∧ (rest ≠ [] → R' ≠ []) := by
  by_cases hrest : rest = []
  · refine ⟨M ++ [x], R, h.pass rfl rfl rfl ?_, List.suffix_cons x R, fun hne => absurd hrest hne⟩
    exact if_pos hrest
  · refine ⟨M, x :: R, ⟨h.argv, h.first, h.last, ?_, h.operands⟩, List.suffix_rfl,
      fun _ => List.cons_ne_nil x R⟩
    exact (if_neg hrest).trans h.optind

omit [DecidableEq F] in
/-- A call for a short option keeps the shape of the vector. -/
theorem process_short_passed (hopt : '?' ∉ optstring) {x : List Char}
    (h : Shape s A N M (x :: R)) (hnext : s.nextchar ≠ []) (htext : '\x00' ∉ s.nextchar) :
    ∃ c s', process_short_option optstring s = (some c, s') ∧ Passed s' A N (x :: R) ∧
      (c = '?' → s'.optopt ≠ '\x00') := by
  obtain ⟨c, rest, hcr⟩ := List.exists_cons_of_ne_nil hnext
  rw [hcr, List.mem_cons, not_or] at htext
  have hc : c ≠ '\x00' := fun h => htext.1 h.symm
  obtain ⟨M', R', hshape, hsuf, hne⟩ := h.shift rest
  unfold process_short_option
  rw [hcr]
  simp only
  split
  · -- not in the table
    refine ⟨'?', _, rfl, ?_, fun _ => hc⟩
    exact Shape.passed (s := { s.shift rest with optopt := c })
      ⟨hshape.argv, hshape.first, hshape.last, hshape.optind, hshape.operands⟩ hsuf hne htext.2
  · next temp hdrop =>
    have hmem : c ∈ optstring := by
      have hne : optstring.dropWhile (fun d => decide (d ≠ c)) ≠ [] := by
        rw [hdrop]
        exact List.cons_ne_nil _ _
      have hhead := List.head_dropWhile_not (fun d => decide (d ≠ c)) hne
      rw [decide_eq_false_iff_not, not_not] at hhead
      rw [← hhead]
      exact (List.dropWhile_suffix _).subset (List.head_mem hne)
    have hquestion : c ≠ '?' := fun h => hopt (h ▸ hmem)
    split
    · refine ⟨'?', _, rfl, ?_, fun _ => hc⟩
      exact Shape.passed (s := { s.shift rest with optopt := c })
        ⟨hshape.argv, hshape.first, hshape.last, hshape.optind, hshape.operands⟩ hsuf hne htext.2
    · split
      · split
        · -- the rest of the element is the argument
          next hrest =>
          refine ⟨c, _, rfl, ?_, fun h => absurd h hquestion⟩
          exact h.pass_passed List.suffix_rfl rfl rfl rfl rfl rfl
        · next hrest =>
          have hpass : Shape (s.shift rest) A N (M ++ [x]) R :=
            h.pass rfl rfl rfl (if_pos (not_not.mp hrest))
          split
          · -- the next element is the argument
            next value hget =>
            have hhead : R.head? = some value := hpass.getElem?.symm.trans hget
            obtain ⟨R', rfl⟩ : ∃ R', R = value :: R' := by
              cases R with
              | nil => cases hhead
              | cons v R' =>
                  cases hhead
                  exact ⟨R', rfl⟩
            refine ⟨c, _, rfl, ?_, fun h => absurd h hquestion⟩
            exact hpass.pass_passed (List.suffix_cons x _) rfl rfl rfl rfl rfl
          · refine ⟨'?', _, rfl, ?_, fun _ => hc⟩
            exact Shape.passed
              (s := { s.shift rest with optopt := c, nextchar := [] })
              ⟨hpass.argv, hpass.first, hpass.last, hpass.optind, hpass.operands⟩
              (List.suffix_cons x R) (fun h => absurd rfl h) List.not_mem_nil
      · refine ⟨c, _, rfl, ?_, fun h => absurd h hquestion⟩
        exact Shape.passed hshape hsuf hne htext.2

/-- So does a call for a long option that was found. -/
theorem found_passed {p : LongOption F} (hval : p.val ≠ '?') {s : State F} (h : Passed s A N R) :
    ∃ c s', p.found s = (some c, s') ∧ Passed s' A N R ∧ c ≠ '?' := by
  obtain ⟨⟨M, R', hshape, hsuf, hne⟩, htext⟩ := h
  unfold LongOption.found
  split
  · exact ⟨_, _, rfl, ⟨⟨M, R', ⟨hshape.argv, hshape.first, hshape.last, hshape.optind,
      hshape.operands⟩, hsuf, hne⟩, htext⟩, by decide⟩
  · exact ⟨_, _, rfl, ⟨⟨M, R', hshape, hsuf, hne⟩, htext⟩, hval⟩

/-- An option that is found is one of the table. -/
theorem lookup_mem {name : List Char} {p : LongOption F} (h : lookup longopts name = some p) :
    p ∈ longopts := by
  unfold lookup at h
  split at h
  · next o hfind =>
    cases h
    exact List.mem_of_find?_eq_some hfind
  · split at h
    · cases h
    · next pfound others hfilter =>
      split at h
      · cases h
      · cases h
        exact (List.mem_filter.mp (hfilter ▸ List.mem_cons_self)).1

/-- A long option, known or not. -/
theorem process_long_passed (hplain : Plain optstring longopts) {text : List Char}
    (h : Shape s A N [] (('-' :: '-' :: text) :: R)) :
    ∃ c s', process_long_option longopts s text = (some c, s') ∧
      Passed s' A N (('-' :: '-' :: text) :: R) ∧
      (c = '?' → s'.optopt = '\x00' → lookup longopts (nameOf text) = none ∧ s'.argv = s.argv) := by
  have hsuf : R <:+ ('-' :: '-' :: text) :: R := List.suffix_cons _ R
  cases hlookup : lookup longopts (nameOf text) with
  | none =>
      obtain ⟨s', hrun, hshape, hargv, hnext, _, _⟩ := process_long_unknown h hlookup
      refine ⟨'?', s', hrun, ?_, fun _ _ => ⟨rfl, hargv⟩⟩
      refine hshape.passed hsuf (fun hne => absurd hnext hne) ?_
      rw [hnext]
      exact List.not_mem_nil
  | some p =>
      -- a known option has a flag of its own, so it is never taken for an unknown one
      obtain ⟨hval, hzero⟩ := hplain.val p (lookup_mem hlookup)
      have hpass : Shape { s with nextchar := [], optind := s.optind + 1 } A N
          ([] ++ [('-' :: '-' :: text)]) R := h.pass rfl rfl rfl rfl
      unfold process_long_option
      rw [hlookup]
      simp only
      split
      · next value _ =>
        split
        · have hpassed : Passed { s with nextchar := [], optind := s.optind + 1,
                                         optarg := some value } A N (('-' :: '-' :: text) :: R) :=
            h.pass_passed List.suffix_rfl rfl rfl rfl rfl rfl
          obtain ⟨c, s', hrun, hpassed, hc⟩ := found_passed hval hpassed
          exact ⟨c, s', hrun, hpassed, fun h => absurd h hc⟩
        · refine ⟨'?', _, rfl, ?_, fun _ h => absurd h hzero⟩
          exact h.pass_passed List.suffix_rfl rfl rfl rfl rfl rfl
      · split
        · split
          · next value hget =>
            have hhead : R.head? = some value := hpass.getElem?.symm.trans hget
            obtain ⟨R', rfl⟩ : ∃ R', R = value :: R' := by
              cases R with
              | nil => cases hhead
              | cons v R' =>
                  cases hhead
                  exact ⟨R', rfl⟩
            have hpassed : Passed { s with nextchar := [], optind := s.optind + 1 + 1,
                                           optarg := some value } A N
                (('-' :: '-' :: text) :: value :: R') :=
              hpass.pass_passed hsuf rfl rfl rfl rfl rfl
            obtain ⟨c, s', hrun, hpassed, hc⟩ := found_passed hval hpassed
            exact ⟨c, s', hrun, hpassed, fun h => absurd h hc⟩
          · refine ⟨'?', _, rfl, ?_, fun _ h => absurd h hzero⟩
            exact h.pass_passed List.suffix_rfl rfl rfl rfl rfl rfl
        · obtain ⟨c, s', hrun, hpassed, hc⟩ := found_passed hval
            (Shape.passed hpass hsuf (fun h => absurd rfl h) List.not_mem_nil)
          exact ⟨c, s', hrun, hpassed, fun h => absurd h hc⟩

omit [DecidableEq F] in
/-- A call that passed part of the vector passed some of the whole. -/
theorem Passed.mono (h : Passed s A N R) {R₀ : List (List Char)} (hsuf : R <:+ R₀) :
    Passed s A N R₀ := by
  obtain ⟨M, R', hshape, hsuf', hne⟩ := h.shape
  exact ⟨⟨M, R', hshape, hsuf'.trans hsuf, hne⟩, h.text⟩

/-- One dash makes a cluster of short options. -/
theorem process_element_short {c : Char} {text : List Char} (hc : c ≠ '-')
    (h : Shape s A N [] (('-' :: c :: text) :: R)) :
    process_element optstring longopts s =
      process_short_option optstring { s with nextchar := c :: text } := by
  have hget : s.argv[s.optind]? = some ('-' :: c :: text) := h.getElem?
  unfold process_element
  split
  · next hnone =>
    rw [hget] at hnone
    cases hnone
  · next text' hsome =>
    rw [hget] at hsome
    cases hsome
    exact absurd rfl hc
  · next arg hsome =>
    rw [hget] at hsome
    cases hsome
    rfl

/-- A long option that names no option of the table. -/
def Unknown (longopts : List (LongOption F)) (x : List Char) : Prop :=
  ∃ text, x = '-' :: '-' :: text ∧ lookup longopts (nameOf text) = none

/-- What any call does: it ends behind the options, or it passes some elements.  An
unknown option without `optopt` is a long one, and where the scan stood before the
call there is now that option or the first argument skipped before it. -/
def CallOk (longopts : List (LongOption F)) (s : State F) (R : List (List Char)) :
    Option Char × State F → Prop
  | (none, s') => ∀ x ∈ s'.argv.drop s'.optind, nonoption x = true
  | (some c, s') => (∃ A N, Passed s' A N R) ∧
      (c = '?' → s'.optopt = '\x00' →
        ∃ x, s'.argv[s.optind]? = some x ∧ (nonoption x = true ∨ Unknown longopts x))

/-- Every call keeps the shape; an unknown long option is where it is reported. -/
theorem getopt_long_ok (hplain : Plain optstring longopts) (hpassed : Passed s A N R)
    (hR : ∀ x ∈ R, x ≠ ['-', '-'] ∧ '\x00' ∉ x) :
    CallOk longopts s R (getopt_long optstring longopts s) := by
  obtain ⟨M, R', hshape, hsuf, hne⟩ := hpassed.shape
  by_cases hnext : s.nextchar = []
  · have hdash : ['-', '-'] ∉ R' := fun hmem => (hR _ (hsuf.subset hmem)).1 rfl
    rw [getopt_long_start hnext hshape hdash]
    have hstart := hshape.start
    have hrest : R'.dropWhile nonoption <:+ R := (List.dropWhile_suffix _).trans hsuf
    rcases dropWhile_nonoption R' with hnil | ⟨c, text, R'', hcons⟩
    · -- only operands are left
      rw [hnil] at hstart
      obtain ⟨s', hrun, hdrop, _⟩ := process_element_done optstring longopts hstart
      rw [hrun]
      intro x hx
      rw [hdrop] at hx
      exact hstart.operands x hx
    · rw [hcons] at hstart hrest
      by_cases hc : c = '-'
      · -- a long option
        subst hc
        obtain ⟨c, s', hrun, hpassed', hquestion⟩ := process_long_passed hplain hstart
        rw [process_element_long hstart, hrun]
        refine ⟨⟨_, _, hpassed'.mono hrest⟩, fun hc hopt => ?_⟩
        obtain ⟨hlookup, hargv⟩ := hquestion hc hopt
        have hhere : s'.argv[s.optind]? = R'.head? := by
          rw [hargv]
          exact hshape.start_getElem?
        cases R' with
        | nil => cases hcons
        | cons x R₁ =>
            refine ⟨x, hhere, ?_⟩
            by_cases hx : nonoption x = true
            · exact .inl hx
            · rw [List.dropWhile_cons, if_neg hx] at hcons
              cases hcons
              exact .inr ⟨text, rfl, hlookup⟩
      · -- a cluster of short options
        have hclean : '\x00' ∉ c :: text := by
          intro hmem
          exact (hR _ (hrest.subset List.mem_cons_self)).2 (List.mem_cons_of_mem _ hmem)
        obtain ⟨c', s', hrun, hpassed', hquestion⟩ := process_short_passed hplain.optstring
          (s := { s.start with nextchar := c :: text })
          (x := '-' :: c :: text)
          ⟨hstart.argv, hstart.first, hstart.last, hstart.optind, hstart.operands⟩
          (List.cons_ne_nil c text) hclean
        rw [process_element_short hc hstart, hrun]
        exact ⟨⟨_, _, hpassed'.mono hrest⟩, fun hc hopt => absurd hopt (hquestion hc)⟩
  · -- inside a cluster
    obtain ⟨x, R'', rfl⟩ := List.exists_cons_of_ne_nil (hne hnext)
    obtain ⟨c, s', hrun, hpassed', hquestion⟩ := process_short_passed hplain.optstring
      (s := { s with optarg := none }) (x := x)
      ⟨hshape.argv, hshape.first, hshape.last, hshape.optind, hshape.operands⟩ hnext hpassed.text
    have hcall : getopt_long optstring longopts s = (some c, s') := by
      unfold getopt_long
      rw [if_pos hnext]
      exact hrun
    rw [hcall]
    exact ⟨⟨_, _, hpassed'.mono hsuf⟩, fun hc hopt => absurd hopt (hquestion hc)⟩

end Kremlin.Library.Getopt
