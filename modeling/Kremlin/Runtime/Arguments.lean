/-
  Kremlin.Runtime.Arguments — the command line, `arg.cpp`.

  `parseKremlinOptions` takes the options of the profiler from the argument vector
  and leaves the program its own.  Conventions:

    * an argument is the list of its characters, none of them `'\0'`;
    * `exit`, `abort` and a null pointer that is read are `none`, and so is a number
      of rounds that is too small;
    * without `KREMLIN_DEBUG`, as `debug.h` has it.

  Main result:
    * `passes_iff` — the vectors of which the program gets exactly its own arguments.
-/
import Mathlib.Data.List.Chain
import Mathlib.Tactic.SplitIfs
import Kremlin.Library.GetoptLong
import Kremlin.Library.Run
import Mathlib.Algebra.Ring.Nat
import Mathlib.Algebra.Ring.Int.Defs

namespace Kremlin.Runtime.Arguments

open Kremlin.Library Kremlin.Library.Getopt

/-! ## §1. The configuration. -/

/-- The kinds of shadow memory. -/
inductive ShadowMemoryType where
  | base
  | stv
  | skadu
  | dummy
  deriving Repr, DecidableEq

/-- The options and their defaults. -/
structure KremlinConfiguration where
  min_profiled_level : BitVec 32 := 0
  max_profiled_level : BitVec 32 := 32
  shadow_mem_type : ShadowMemoryType := .skadu
  shadow_mem_cache_size_in_mb : BitVec 32 := 4
  garbage_collection_period : BitVec 32 := 1024
  compress_shadow_mem : Bool := false
  num_compression_buffer_entries : BitVec 32 := 4096
  summarize_recursive_regions : Bool := true
  profile_output_filename : List Char := "kremlin.bin".toList
  debug_output_filename : List Char := "kremlin.debug.log".toList
  deriving DecidableEq

/-- `isspace` -/
def isspace (c : Char) : Bool :=
  c = ' ' || c = '\t' || c = '\n' || c = '\x0B' || c = '\x0C' || c = '\r'

/-- `atoi`: `strtol`, which stops at the bounds of a `long`, cut to an `int`. -/
def atoi (s : List Char) : BitVec 32 :=
  let (negative, digits) :=
    match s.dropWhile isspace with
    | '-' :: digits => (true, digits)
    | '+' :: digits => (false, digits)
    | digits => (false, digits)
  let value : ℕ :=
    (digits.takeWhile Char.isDigit).foldl (fun value c => 10 * value + (c.toNat - '0'.toNat)) 0
  BitVec.ofInt 32 (if negative then max (-value) (-2 ^ 63) else min value (2 ^ 63 - 1))

/-- The names of the shadow memories. -/
def shadowMemType (optarg : List Char) : Option ShadowMemoryType :=
  if optarg = "base".toList then some .base
  else if optarg = "stv".toList then some .stv
  else if optarg = "skadu".toList then some .skadu
  else if optarg = "dummy".toList then some .dummy
  else none

/-! ## §2. The options. -/

/-- The variables that flags set. -/
inductive Flag where
  | disable_rs
  | enable_sm_compress
  deriving Repr, DecidableEq

/-- The long options. -/
def long_options : List (LongOption Flag) :=
  [{ name := "kremlin-disable-rsummary".toList, has_arg := false, flag := some .disable_rs,
     val := '\x01' },
   { name := "kremlin-compress-shadow-mem".toList, has_arg := false,
     flag := some .enable_sm_compress, val := '\x01' },
   { name := "kremlin-output".toList, has_arg := true, flag := none, val := 'a' },
   { name := "kremlin-log-output".toList, has_arg := true, flag := none, val := 'b' },
   { name := "kremlin-shadow-mem-type".toList, has_arg := true, flag := none, val := 'c' },
   { name := "kremlin-shadow-mem-cache-size".toList, has_arg := true, flag := none, val := 'd' },
   { name := "kremlin-shadow-mem-gc-period".toList, has_arg := true, flag := none, val := 'e' },
   { name := "kremlin-cbuffer-size".toList, has_arg := true, flag := none, val := 'f' },
   { name := "kremlin-min-level".toList, has_arg := true, flag := none, val := 'g' },
   { name := "kremlin-max-level".toList, has_arg := true, flag := none, val := 'h' }]

/-- The short ones. -/
def optstring : List Char := "abc:d:f:".toList

/-- The cases `'a'` to `'h'` of the switch, and its default. -/
def setOption (config : KremlinConfiguration) (c : Char) (optarg : List Char) :
    Option KremlinConfiguration :=
  if c = 'a' then some { config with profile_output_filename := optarg }
  else if c = 'b' then some { config with debug_output_filename := optarg }
  else if c = 'c' then
    (shadowMemType optarg).map fun type => { config with shadow_mem_type := type }
  else if c = 'd' then some { config with shadow_mem_cache_size_in_mb := atoi optarg }
  else if c = 'e' then some { config with garbage_collection_period := atoi optarg }
  else if c = 'f' then some { config with num_compression_buffer_entries := atoi optarg }
  else if c = 'g' then some { config with min_profiled_level := atoi optarg }
  else if c = 'h' then some { config with max_profiled_level := atoi optarg }
  else none

/-- The switch of `parseKremlinOptions`, behind a call of `getopt_long`. -/
def handle (config : KremlinConfiguration) (currind : ℕ) (native_args : List (List Char))
    (c : Char) (s : State Flag) : Option (KremlinConfiguration × List (List Char)) :=
  if c = '\x00' then some (config, native_args)
  else if c = '?' then
    -- `c` is an `int` whose first byte is `'?'`, and whose second is 0
    if s.optopt ≠ '\x00' then some (config, native_args ++ [['?']])
    else s.argv[currind]?.map fun arg => (config, native_args ++ [arg])
  else do
    let optarg ← s.optarg
    let config ← setOption config c optarg
    some (config, native_args)

/-- The loop of `parseKremlinOptions`. -/
def loop : ℕ → KremlinConfiguration → State Flag → List (List Char) →
    Option (KremlinConfiguration × State Flag × List (List Char))
  | 0, _, _, _ => none
  | rounds + 1, config, s, native_args =>
      match getopt_long optstring long_options s with
      | (none, s') => some (config, s', native_args)
      | (some c, s') => do
          let (config, native_args) ← handle config s.optind native_args c s'
          loop rounds config s' native_args

/-- The flags are handled after the loop. -/
def setFlags (config : KremlinConfiguration) (flags : Flag → Char) : KremlinConfiguration :=
  let config :=
    if flags .enable_sm_compress ≠ '\x00' then { config with compress_shadow_mem := true }
    else config
  if flags .disable_rs ≠ '\x00' then { config with summarize_recursive_regions := false }
  else config

/-- What is left of the loop's end: the flags, and the remaining arguments. -/
def finish (r : KremlinConfiguration × State Flag × List (List Char)) :
    KremlinConfiguration × List (List Char) :=
  (setFlags r.1 r.2.1.flags, r.2.2 ++ r.2.1.argv.drop r.2.1.optind)

/-- The first argument is the program's name. -/
def parseKremlinOptions (rounds : ℕ) (config : KremlinConfiguration) (argv : List (List Char)) :
    Option (KremlinConfiguration × List (List Char)) := do
  let argv0 ← argv.head?
  (loop rounds config (State.init argv) [argv0]).map finish

/-! ## §3. Argument vectors. -/

/-- An argument: a flag or an option of the profiler, its value behind `=` or in the
next element, or an argument of the program. -/
inductive Arg where
  | flag (o : LongOption Flag)
  | assigned (o : LongOption Flag) (value : List Char)
  | separate (o : LongOption Flag) (value : List Char)
  | other (arg : List Char)

namespace Arg

/-- What stands in the vector. -/
def strings : Arg → List (List Char)
  | .flag o => ['-' :: '-' :: o.name]
  | .assigned o value => ['-' :: '-' :: (o.name ++ '=' :: value)]
  | .separate o value => ['-' :: '-' :: o.name, value]
  | .other arg => [arg]

/-- The options are in the table, and the other arguments name none of it. -/
def Ok : Arg → Prop
  | .flag o => o ∈ long_options ∧ o.has_arg = false
  | .assigned o _ => o ∈ long_options ∧ o.has_arg = true
  | .separate o _ => o ∈ long_options ∧ o.has_arg = true
  | .other arg => ∀ text, arg = '-' :: '-' :: text → ∀ o ∈ long_options, nameOf text ≠ o.name

/-- What a flag asks for. -/
def askFor (config : KremlinConfiguration) : Flag → KremlinConfiguration
  | .disable_rs => { config with summarize_recursive_regions := false }
  | .enable_sm_compress => { config with compress_shadow_mem := true }

/-- What an option asks for. -/
def apply (config : KremlinConfiguration) : Arg → Option KremlinConfiguration
  | .flag o => o.flag.map (askFor config)
  | .assigned o value => setOption config o.val value
  | .separate o value => setOption config o.val value
  | .other _ => some config

/-- An argument of the program that is no option. -/
def isOperand : Arg → Prop
  | .other arg => nonoption arg = true
  | _ => False

/-- A long option of the program. -/
def isUnknown : Arg → Prop
  | .other arg => Unknown long_options arg
  | _ => False

/-- The arguments of the program. -/
def native? : Arg → Option (List Char)
  | .other arg => some arg
  | _ => none

end Arg

/-- A vector of arguments without `--`. -/
structure ArgVector (args : List Arg) : Prop where
  ok : ∀ a ∈ args, a.Ok
  strings : ∀ x ∈ args.flatMap Arg.strings, x ≠ ['-', '-'] ∧ '\x00' ∉ x

/-- **The program gets exactly its own arguments**, and every option is applied. -/
def Passes (config : KremlinConfiguration) (argv0 : List Char) (args : List Arg) : Prop :=
  ∃ rounds config' native_args,
    parseKremlinOptions rounds config (argv0 :: args.flatMap Arg.strings) =
      some (config', argv0 :: native_args) ∧
    native_args.Perm (args.filterMap Arg.native?) ∧
    args.foldlM Arg.apply config = some config'

/-- The vectors that are passed through: every type of shadow memory has a name, the
program's arguments are operands and long options that are not taken for one of the
profiler's, and none of these options stands right behind an operand. -/
structure Through (args : List Arg) : Prop where
  types : ∀ o value, o.val = 'c' → Arg.assigned o value ∈ args ∨ Arg.separate o value ∈ args →
    value ∈ ["base".toList, "stv".toList, "skadu".toList, "dummy".toList]
  plain : ∀ arg, Arg.other arg ∈ args → nonoption arg = true ∨ Unknown long_options arg
  order : args.IsChain fun a b => ¬(a.isOperand ∧ b.isUnknown)

/-! ## §4. What the program is given. -/

/-- An argument that the loop can hand over, or that remains. -/
def Given (arg : List Char) : Prop := nonoption arg = true ∨ Unknown long_options arg

/-- No option is the character of an unknown one. -/
theorem plain : Plain optstring long_options := ⟨by decide, by decide⟩

/-- What is handed on stands in the vector. -/
theorem handle_given {config config' : KremlinConfiguration} {currind : ℕ}
    {native_args native_args' : List (List Char)} {c : Char} {s : State Flag}
    (h : handle config currind native_args c s = some (config', native_args'))
    (hgiven : c = '?' → s.optopt = '\x00' →
      ∃ x, s.argv[currind]? = some x ∧ (nonoption x = true ∨ Unknown long_options x)) :
    ∃ more, native_args' = native_args ++ more ∧ ∀ x ∈ more, Given x := by
  unfold handle at h
  split at h
  · cases h
    exact ⟨[], (List.append_nil _).symm, fun x hx => absurd hx List.not_mem_nil⟩
  · split at h
    · next hc =>
      split at h
      · cases h
        refine ⟨[['?']], rfl, fun x hx => ?_⟩
        rw [List.mem_singleton.mp hx]
        exact .inl rfl
      · next hopt =>
        obtain ⟨x, hx, hx'⟩ := hgiven hc (not_not.mp hopt)
        rw [hx] at h
        cases h
        refine ⟨[x], rfl, fun y hy => ?_⟩
        rw [List.mem_singleton.mp hy]
        exact hx'
    · simp only [Option.bind_eq_bind, Option.bind_eq_some_iff] at h
      obtain ⟨_, _, _, _, h⟩ := h
      cases h
      exact ⟨[], (List.append_nil _).symm, fun x hx => absurd hx List.not_mem_nil⟩

/-- **Everything that the program is given** is an operand or an unknown long option. -/
theorem loop_given {R : List (List Char)} (hR : ∀ x ∈ R, x ≠ ['-', '-'] ∧ '\x00' ∉ x) :
    ∀ (rounds : ℕ) {config : KremlinConfiguration} {s : State Flag}
      {native_args : List (List Char)} {r : KremlinConfiguration × State Flag × List (List Char)},
      (∃ A N, Passed s A N R) → loop rounds config s native_args = some r →
      ∃ more, (finish r).2 = native_args ++ more ∧ ∀ x ∈ more, Given x := by
  intro rounds
  induction rounds with
  | zero =>
      intro config s native_args r _ h
      cases h
  | succ rounds ih =>
      intro config s native_args r ⟨A, N, hpassed⟩ h
      -- each call leaves part of the vector behind
      have hok := getopt_long_ok plain hpassed hR
      rw [loop] at h
      cases hcall : getopt_long optstring long_options s with
      | mk c s' =>
          rw [hcall] at hok h
          cases c with
          | none =>
              cases h
              exact ⟨s'.argv.drop s'.optind, rfl, fun x hx => .inl (hok x hx)⟩
          | some c =>
              obtain ⟨hpassed', hgiven⟩ := hok
              obtain ⟨⟨config', native_args'⟩, hhandle, h⟩ := Option.bind_eq_some_iff.mp h
              obtain ⟨more, hmore, hall⟩ := handle_given hhandle hgiven
              obtain ⟨more', hmore', hall'⟩ := ih hpassed' h
              refine ⟨more ++ more', ?_, ?_⟩
              · rw [hmore', hmore, List.append_assoc]
              · intro x hx
                rcases List.mem_append.mp hx with hx | hx
                · exact hall x hx
                · exact hall' x hx

/-- More rounds change nothing. -/
theorem loop_mono {rounds : ℕ} {config : KremlinConfiguration} {s : State Flag}
    {native_args : List (List Char)} {r : KremlinConfiguration × State Flag × List (List Char)}
    (h : loop rounds config s native_args = some r) (k : ℕ) :
    loop (rounds + k) config s native_args = some r := by
  induction rounds generalizing config s native_args with
  | zero => cases h
  | succ rounds ih =>
      rw [Nat.add_right_comm]
      rw [loop] at h ⊢
      cases hcall : getopt_long optstring long_options s with
      | mk c s' =>
          rw [hcall] at h
          cases c with
          | none => exact h
          | some c =>
              obtain ⟨⟨config', native_args'⟩, hhandle, h⟩ := Option.bind_eq_some_iff.mp h
              show (handle config s.optind native_args c s').bind _ = _
              rw [hhandle]
              exact ih h

/-! ## §5. Vectors without short options and abbreviations. -/

/-- What the loop hands over, when `ops` have been skipped since the last option. -/
def handed : List (List Char) → List Arg → List (List Char)
  | _, [] => []
  | ops, .other x :: rest =>
      if nonoption x then handed (ops ++ [x]) rest else ops.head?.getD x :: handed [] rest
  | _, _ :: rest => handed [] rest

/-- The arguments of the program. -/
def natives (args : List Arg) : List (List Char) := args.filterMap Arg.native?

/-- The program gets what is no option of the profiler. -/
theorem natives_other (x : List Char) (args : List Arg) :
    natives (.other x :: args) = x :: natives args := rfl

/-- Each option is found by its name. -/
theorem long_options_lookup : ∀ o ∈ long_options,
    lookup long_options o.name = some o ∧ nameOf o.name = o.name ∧ '=' ∉ o.name := by
  decide +kernel

/-- An option has an argument or a flag. -/
theorem long_options_flag : ∀ o ∈ long_options,
    if o.has_arg then o.flag = none ∧ o.val ≠ '\x00' ∧ o.val ≠ '?'
    else o.flag ≠ none ∧ o.val ≠ '\x00' := by
  decide +kernel

/-- An update of the other fields. -/
theorem setFlags_update (f : KremlinConfiguration → KremlinConfiguration)
    (hcompress : ∀ config, f { config with compress_shadow_mem := true } =
      { f config with compress_shadow_mem := true })
    (hsummarize : ∀ config, f { config with summarize_recursive_regions := false } =
      { f config with summarize_recursive_regions := false })
    (config : KremlinConfiguration) (flags : Flag → Char) :
    f (setFlags config flags) = setFlags (f config) flags := by
  unfold setFlags
  split
  · split
    · rw [hsummarize, hcompress]
    · exact hcompress config
  · split
    · exact hsummarize config
    · rfl

/-- **An option before or after the flags.** -/
theorem setOption_setFlags (config : KremlinConfiguration) (c : Char) (value : List Char)
    (flags : Flag → Char) :
    setOption (setFlags config flags) c value =
      (setOption config c value).map fun config => setFlags config flags := by
  -- no option with an argument sets a field that a flag sets
  have hsome : ∀ f : KremlinConfiguration → KremlinConfiguration,
      (∀ config, f { config with compress_shadow_mem := true } =
        { f config with compress_shadow_mem := true }) →
      (∀ config, f { config with summarize_recursive_regions := false } =
        { f config with summarize_recursive_regions := false }) →
      some (f (setFlags config flags)) =
        (some (f config)).map fun config => setFlags config flags :=
    fun f hcompress hsummarize =>
      congrArg some (setFlags_update f hcompress hsummarize config flags)
  unfold setOption
  split_ifs
  · exact hsome (fun config => { config with profile_output_filename := value })
      (fun _ => rfl) (fun _ => rfl)
  · exact hsome (fun config => { config with debug_output_filename := value })
      (fun _ => rfl) (fun _ => rfl)
  · cases shadowMemType value with
    | none => rfl
    | some type =>
        exact hsome (fun config => { config with shadow_mem_type := type })
          (fun _ => rfl) (fun _ => rfl)
  · exact hsome (fun config => { config with shadow_mem_cache_size_in_mb := atoi value })
      (fun _ => rfl) (fun _ => rfl)
  · exact hsome (fun config => { config with garbage_collection_period := atoi value })
      (fun _ => rfl) (fun _ => rfl)
  · exact hsome (fun config => { config with num_compression_buffer_entries := atoi value })
      (fun _ => rfl) (fun _ => rfl)
  · exact hsome (fun config => { config with min_profiled_level := atoi value })
      (fun _ => rfl) (fun _ => rfl)
  · exact hsome (fun config => { config with max_profiled_level := atoi value })
      (fun _ => rfl) (fun _ => rfl)
  · rfl

/-- A flag before or after the other ones. -/
theorem apply_flag_setFlags {o : LongOption Flag} {flag : Flag} (hflag : o.flag = some flag)
    (hval : o.val ≠ '\x00') (config : KremlinConfiguration) (flags : Flag → Char) :
    Arg.apply (setFlags config flags) (.flag o) =
      some (setFlags config (Function.update flags flag o.val)) := by
  have hupdate : Function.update flags flag o.val flag = o.val := Function.update_self ..
  show o.flag.map (Arg.askFor (setFlags config flags)) = _
  rw [hflag, Option.map_some]
  apply congrArg some
  cases flag with
  | disable_rs =>
      have hother : Function.update flags .disable_rs o.val .enable_sm_compress =
          flags .enable_sm_compress := Function.update_of_ne (by decide) ..
      unfold setFlags Arg.askFor
      simp only [hupdate, hother, if_pos hval]
      split
      · rfl
      · rfl
  | enable_sm_compress =>
      have hother : Function.update flags .enable_sm_compress o.val .disable_rs =
          flags .disable_rs := Function.update_of_ne (by decide) ..
      unfold setFlags Arg.askFor
      simp only [hupdate, hother, if_pos hval]
      split
      · split
        · rfl
        · rfl
      · split
        · rfl
        · rfl

/-- The loop behind a call that found an option. -/
theorem loop_option {s s' : State Flag} {c : Char}
    (hcall : getopt_long optstring long_options s = (some c, s')) (rounds : ℕ)
    (config : KremlinConfiguration) (native_args : List (List Char)) :
    loop (rounds + 1) config s native_args =
      (handle config s.optind native_args c s').bind fun r => loop rounds r.1 s' r.2 := by
  rw [loop, hcall]
  rfl

/-- What the loop gives from a state on: `args` are applied and handed over. -/
def Gives (config : KremlinConfiguration) (s : State Flag) (native_args ops N : List (List Char))
    (args : List Arg) : Prop :=
  ∃ n, ∀ k, (loop (n + k) config s native_args).map finish =
    (args.foldlM Arg.apply (setFlags config s.flags)).map fun config' =>
      (config', native_args ++ handed ops args ++ (N ++ ops ++ (natives args).filter nonoption))

/-- One option more: the loop goes on behind it. -/
theorem Gives.option {s s' : State Flag} {c : Char} {config : KremlinConfiguration}
    {native_args native_args' ops ops' N N' : List (List Char)} {a : Arg} {args : List Arg}
    (hcall : getopt_long optstring long_options s = (some c, s'))
    (hstep : ∃ config', handle config s.optind native_args c s' = some (config', native_args') ∧
      Arg.apply (setFlags config s.flags) a = some (setFlags config' s'.flags) ∧
      Gives config' s' native_args' ops' N' args)
    (hgiven : native_args ++ handed ops (a :: args) ++
        (N ++ ops ++ (natives (a :: args)).filter nonoption) =
      native_args' ++ handed ops' args ++ (N' ++ ops' ++ (natives args).filter nonoption)) :
    Gives config s native_args ops N (a :: args) := by
  obtain ⟨config', hhandle, happly, n, hn⟩ := hstep
  refine ⟨n + 1, fun k => ?_⟩
  rw [Nat.add_right_comm, loop_option hcall, hhandle, Option.bind_some, hn k, List.foldlM_cons,
    happly, Option.bind_eq_bind, Option.bind_some, hgiven]

/-- A value that cannot be applied ends the program. -/
theorem Gives.refused {s s' : State Flag} {c : Char} {config : KremlinConfiguration}
    {native_args ops N : List (List Char)} {a : Arg} {args : List Arg}
    (hcall : getopt_long optstring long_options s = (some c, s'))
    (hhandle : handle config s.optind native_args c s' = none)
    (happly : Arg.apply (setFlags config s.flags) a = none) :
    Gives config s native_args ops N (a :: args) := by
  refine ⟨1, fun k => ?_⟩
  rw [Nat.add_comm 1 k, loop_option hcall, hhandle, List.foldlM_cons, happly]
  rfl

/-- An option with its value, wherever that stands. -/
theorem Gives.value {s s₁ : State Flag} {o : LongOption Flag} {value : List Char}
    {config : KremlinConfiguration} {native_args ops N N' : List (List Char)} {a : Arg}
    {args : List Arg} (ho : o ∈ long_options) (harg : o.has_arg = true)
    (hcall : getopt_long optstring long_options s = o.found s₁)
    (hoptarg : s₁.optarg = some value) (hflags : s₁.flags = s.flags)
    (happly : ∀ config, Arg.apply config a = setOption config o.val value)
    (hrest : ∀ config', Gives config' s₁ native_args [] N' args)
    (hgiven : native_args ++ handed ops (a :: args) ++
        (N ++ ops ++ (natives (a :: args)).filter nonoption) =
      native_args ++ handed [] args ++ (N' ++ [] ++ (natives args).filter nonoption)) :
    Gives config s native_args ops N (a :: args) := by
  have hflag := long_options_flag o ho
  rw [harg, if_pos rfl] at hflag
  obtain ⟨hnone, hzero, hquestion⟩ := hflag
  have hcall' : getopt_long optstring long_options s = (some o.val, s₁) := by
    rw [hcall, LongOption.found, hnone]
  -- the option has a letter of its own, so its case is taken
  have hhandle : handle config s.optind native_args o.val s₁ =
      (setOption config o.val value).bind fun config' => some (config', native_args) := by
    unfold handle
    rw [if_neg hzero, if_neg hquestion, hoptarg]
    rfl
  have happly' := (happly (setFlags config s.flags)).trans
    (setOption_setFlags config o.val value s.flags)
  cases hset : setOption config o.val value with
  | none =>
      rw [hset] at hhandle happly'
      exact Gives.refused hcall' hhandle happly'
  | some config' =>
      rw [hset] at hhandle happly'
      refine Gives.option hcall' ⟨config', hhandle, ?_, hrest config'⟩ hgiven
      rw [happly', hflags]
      rfl

/-- An option of the profiler is not handed on. -/
theorem handed_profiler {a : Arg} (ha : a.native? = none) (ops : List (List Char))
    (args : List Arg) : handed ops (a :: args) = handed [] args ∧
      natives (a :: args) = natives args := by
  refine ⟨?_, ?_⟩
  · cases a with
    | other arg => cases ha
    | flag o => rfl
    | assigned o value => rfl
    | separate o value => rfl
  · exact List.filterMap_cons_none ha

/-- **The loop on a vector** whose program arguments are operands and unknown long
options. -/
theorem loop_gives {args : List Arg} (hok : ∀ a ∈ args, a.Ok)
    (hgiven : ∀ arg, Arg.other arg ∈ args → Given arg) :
    ∀ {ops A N M : List (List Char)} {s : State Flag} (config : KremlinConfiguration)
      (native_args : List (List Char)), s.nextchar = [] →
      Shape s A N M (ops ++ args.flatMap Arg.strings) → (∀ x ∈ ops, nonoption x = true) →
      ['-', '-'] ∉ ops ++ args.flatMap Arg.strings →
      Gives config s native_args ops N args := by
  induction args with
  | nil =>
      intro ops A N M s config native_args hnext hshape hops _
      rw [List.flatMap_nil, List.append_nil] at hshape
      -- the parser stops; what stands behind `optind` are the operands
      obtain ⟨s', hcall, hdrop, hflags⟩ := getopt_long_end optstring long_options hnext hshape hops
      refine ⟨1, fun k => ?_⟩
      have hloop : loop (1 + k) config s native_args = some (config, s', native_args) := by
        rw [Nat.add_comm, loop, hcall]
      rw [hloop, Option.map_some, finish, hdrop, hflags]
      simp [natives, handed]
  | cons a args ih =>
      intro ops A N M s config native_args hnext hshape hops hdash
      have hrest : ∀ {ops A N M s} config native_args, _ → _ → _ → _ → Gives _ _ _ _ _ args :=
        @ih (fun b hb => hok b (List.mem_cons_of_mem _ hb))
          (fun arg harg => hgiven arg (List.mem_cons_of_mem _ harg))
      have ha := hok a List.mem_cons_self
      rw [List.flatMap_cons] at hshape hdash
      have hdash' : ['-', '-'] ∉ [] ++ args.flatMap Arg.strings := fun hmem =>
        hdash (List.mem_append_right _ (List.mem_append_right _ hmem))
      cases a with
      | other x =>
          by_cases hx : nonoption x = true
          · -- one more argument is skipped
            have happend : ops ++ (Arg.strings (.other x) ++ args.flatMap Arg.strings) =
                (ops ++ [x]) ++ args.flatMap Arg.strings := (List.append_assoc ..).symm
            rw [happend] at hshape hdash
            have hops' : ∀ y ∈ ops ++ [x], nonoption y = true := by
              intro y hy
              rcases List.mem_append.mp hy with hy | hy
              · exact hops y hy
              · rw [List.mem_singleton.mp hy]
                exact hx
            obtain ⟨n, hn⟩ := hrest config native_args hnext hshape hops' hdash
            refine ⟨n, fun k => (hn k).trans ?_⟩
            have hnatives : (natives (.other x :: args)).filter nonoption =
                x :: (natives args).filter nonoption := List.filter_cons_of_pos hx
            rw [handed, if_pos hx, hnatives]
            simp [Arg.apply]
          · -- an unknown option is handed over
            obtain ⟨text, rfl, hlookup⟩ := (hgiven x List.mem_cons_self).resolve_left hx
            obtain ⟨hcall, hstart⟩ := getopt_long_at optstring long_options hnext hshape hops hdash
            obtain ⟨s', hrun, hshape', hargv, hnext', hopt, hflags⟩ :=
              process_long_unknown hstart hlookup
            rw [hrun] at hcall
            have hhead : s'.argv[s.optind]? = some (ops.head?.getD ('-' :: '-' :: text)) := by
              rw [hargv, hshape.start_getElem?]
              cases ops with
              | nil => rfl
              | cons y ops => rfl
            have hhandle : handle config s.optind native_args '?' s' =
                some (config, native_args ++ [ops.head?.getD ('-' :: '-' :: text)]) := by
              unfold handle
              rw [if_neg (by decide), if_pos rfl, if_neg (not_not_intro hopt), hhead]
              rfl
            have hnatives : (natives (.other ('-' :: '-' :: text) :: args)).filter nonoption =
                (natives args).filter nonoption := List.filter_cons_of_neg hx
            refine Gives.option hcall ⟨config, hhandle, ?_, hrest _ _ hnext' hshape'
              (fun _ h => absurd h List.not_mem_nil) hdash'⟩ ?_
            · rw [hflags, (start_rest s).flags]
              rfl
            · rw [handed, if_neg hx, hnatives]
              simp
      | flag o =>
          obtain ⟨hmem, harg⟩ := ha
          obtain ⟨hlookup, hname, _⟩ := long_options_lookup o hmem
          have hflag := long_options_flag o hmem
          rw [harg, if_neg Bool.false_ne_true] at hflag
          obtain ⟨flag, hsome⟩ := Option.ne_none_iff_exists'.mp hflag.1
          obtain ⟨hcall, hstart⟩ := getopt_long_at optstring long_options hnext hshape hops hdash
          obtain ⟨s₁, hrun, hshape', hnext', hflags⟩ := process_long_flag hstart hname hlookup harg
          rw [hrun, LongOption.found, hsome] at hcall
          obtain ⟨hhanded, hnatives⟩ := handed_profiler (a := .flag o) rfl ops args
          refine Gives.option hcall ⟨config, rfl, ?_, hrest config native_args hnext'
            ⟨hshape'.argv, hshape'.first, hshape'.last, hshape'.optind, hshape'.operands⟩
            (fun _ h => absurd h List.not_mem_nil) hdash'⟩ ?_
          · rw [apply_flag_setFlags hsome hflag.2, hflags, (start_rest s).flags]
          · rw [hhanded, hnatives, List.append_nil]
      | assigned o value =>
          obtain ⟨hmem, harg⟩ := ha
          obtain ⟨hlookup, _, hname⟩ := long_options_lookup o hmem
          obtain ⟨hcall, hstart⟩ := getopt_long_at optstring long_options hnext hshape hops hdash
          obtain ⟨s₁, hrun, hshape', hnext', hoptarg, hflags⟩ :=
            process_long_assigned hstart hname hlookup harg
          obtain ⟨hhanded, hnatives⟩ := handed_profiler (a := .assigned o value) rfl ops args
          refine Gives.value hmem harg (hcall.trans hrun) hoptarg
            (hflags.trans (start_rest s).flags) (fun _ => rfl)
            (fun config' => hrest config' native_args hnext' hshape'
              (fun _ h => absurd h List.not_mem_nil) hdash') ?_
          rw [hhanded, hnatives, List.append_nil]
      | separate o value =>
          obtain ⟨hmem, harg⟩ := ha
          obtain ⟨hlookup, hname, _⟩ := long_options_lookup o hmem
          obtain ⟨hcall, hstart⟩ := getopt_long_at optstring long_options hnext hshape hops hdash
          obtain ⟨s₁, hrun, hshape', hnext', hoptarg, hflags⟩ :=
            process_long_separate hstart hname hlookup harg
          obtain ⟨hhanded, hnatives⟩ := handed_profiler (a := .separate o value) rfl ops args
          refine Gives.value hmem harg (hcall.trans hrun) hoptarg
            (hflags.trans (start_rest s).flags) (fun _ => rfl)
            (fun config' => hrest config' native_args hnext' hshape'
              (fun _ h => absurd h List.not_mem_nil) hdash') ?_
          rw [hhanded, hnatives, List.append_nil]

/-! ## §6. The order of the program's arguments. -/

/-- No option of the program stands right behind an operand. -/
abbrev Ordered (args : List Arg) : Prop := args.IsChain fun a b => ¬(a.isOperand ∧ b.isUnknown)

/-- It may stand anywhere. -/
theorem ordered_profiler {a : Arg} (ha : a.native? = none) {args : List Arg} (h : Ordered args) :
    Ordered (a :: args) ∧ ∀ b ∈ (a :: args).head?, ¬b.isUnknown := by
  have hno : ¬a.isOperand ∧ ¬a.isUnknown := by
    cases a with
    | other arg => cases ha
    | flag o => exact ⟨id, id⟩
    | assigned o value => exact ⟨id, id⟩
    | separate o value => exact ⟨id, id⟩
  refine ⟨List.isChain_cons.mpr ⟨fun b _ hb => hno.1 hb.1, h⟩, fun b hb => ?_⟩
  cases hb
  exact hno.2

/-- What is given is an operand or an unknown option. -/
theorem isUnknown_iff {x : List Char} (hx : Given x) :
    (Arg.other x).isUnknown ↔ nonoption x = false := by
  constructor
  · rintro ⟨text, rfl, _⟩
    rfl
  · intro hoption
    exact hx.resolve_left (by rw [hoption]; exact Bool.false_ne_true)

/-- When only options are handed over, the operands have been skipped by themselves. -/
theorem ordered_of_handed {args : List Arg} (hgiven : ∀ arg, Arg.other arg ∈ args → Given arg) :
    ∀ {ops : List (List Char)}, (∀ x ∈ ops, nonoption x = true) →
      (∀ x ∈ handed ops args, nonoption x = false) →
      Ordered args ∧ (ops ≠ [] → ∀ a ∈ args.head?, ¬a.isUnknown) := by
  have hnil : ∀ x ∈ ([] : List (List Char)), nonoption x = true := fun _ h =>
    absurd h List.not_mem_nil
  induction args with
  | nil =>
      intro ops _ _
      refine ⟨.nil, fun _ a ha => ?_⟩
      cases ha
  | cons a args ih =>
      intro ops hops hhanded
      have hrest := @ih (fun arg harg => hgiven arg (List.mem_cons_of_mem _ harg))
      cases a with
      | other x =>
          have hx := hgiven x List.mem_cons_self
          rw [handed] at hhanded
          split at hhanded
          · next hoperand =>
            have hops' : ∀ y ∈ ops ++ [x], nonoption y = true := by
              intro y hy
              rcases List.mem_append.mp hy with hy | hy
              · exact hops y hy
              · rw [List.mem_singleton.mp hy]
                exact hoperand
            obtain ⟨hordered, hhead⟩ := hrest hops' hhanded
            have hne : ops ++ [x] ≠ [] := by simp
            refine ⟨List.isChain_cons.mpr ⟨fun b hb h => hhead hne b hb h.2, hordered⟩, ?_⟩
            intro _ a ha hunknown
            cases ha
            rw [isUnknown_iff hx, hoperand] at hunknown
            exact Bool.false_ne_true hunknown.symm
          · next hoption =>
            obtain ⟨hordered, _⟩ := hrest hnil fun y hy => hhanded y (List.mem_cons_of_mem _ hy)
            refine ⟨List.isChain_cons.mpr ⟨fun b _ h => hoption h.1, hordered⟩, ?_⟩
            -- behind operands, the first of them would be handed over
            intro hne
            obtain ⟨y, ops, rfl⟩ := List.exists_cons_of_ne_nil hne
            have hy : nonoption y = false := hhanded y List.mem_cons_self
            rw [hops y List.mem_cons_self] at hy
            cases hy
      | flag o =>
          obtain ⟨hordered, hhead⟩ := ordered_profiler (a := .flag o) rfl (hrest hnil hhanded).1
          exact ⟨hordered, fun _ => hhead⟩
      | assigned o value =>
          obtain ⟨hordered, hhead⟩ :=
            ordered_profiler (a := .assigned o value) rfl (hrest hnil hhanded).1
          exact ⟨hordered, fun _ => hhead⟩
      | separate o value =>
          obtain ⟨hordered, hhead⟩ :=
            ordered_profiler (a := .separate o value) rfl (hrest hnil hhanded).1
          exact ⟨hordered, fun _ => hhead⟩

/-- **In order, the options are handed over** and nothing else. -/
theorem handed_of_ordered {args : List Arg} (hgiven : ∀ arg, Arg.other arg ∈ args → Given arg) :
    ∀ {ops : List (List Char)}, Ordered args → (ops ≠ [] → ∀ a ∈ args.head?, ¬a.isUnknown) →
      handed ops args = (natives args).filter fun x => !nonoption x := by
  induction args with
  | nil =>
      intro ops _ _
      rfl
  | cons a args ih =>
      intro ops hordered hhead
      have hrest := @ih (fun arg harg => hgiven arg (List.mem_cons_of_mem _ harg))
      obtain ⟨hnext, htail⟩ := List.isChain_cons.mp hordered
      cases a with
      | other x =>
          have hx := hgiven x List.mem_cons_self
          rw [handed, natives_other]
          split
          · next hoperand =>
            rw [List.filter_cons_of_neg (by rw [hoperand]; decide)]
            exact hrest htail fun _ b hb hunknown => hnext b hb ⟨hoperand, hunknown⟩
          · next hoption =>
            rw [Bool.not_eq_true] at hoption
            have hops : ops = [] := by
              by_contra hne
              exact hhead hne _ rfl ((isUnknown_iff hx).mpr hoption)
            subst hops
            rw [List.filter_cons_of_pos (by rw [hoption]; rfl),
              ← hrest htail fun h => absurd rfl h]
            rfl
      | flag o => exact hrest htail fun h => absurd rfl h
      | assigned o value => exact hrest htail fun h => absurd rfl h
      | separate o value => exact hrest htail fun h => absurd rfl h

/-! ## §7. Passing the program's arguments through. -/

/-- The program's arguments. -/
theorem mem_natives {args : List Arg} {x : List Char} : x ∈ natives args ↔ Arg.other x ∈ args := by
  unfold natives
  rw [List.mem_filterMap]
  constructor
  · rintro ⟨a, ha, hx⟩
    cases a with
    | other y =>
        cases hx
        exact ha
    | flag o => cases hx
    | assigned o value => cases hx
    | separate o value => cases hx
  · intro hx
    exact ⟨_, hx, rfl⟩

/-- **What the program is given**, from the beginning. -/
theorem parse_gives {args : List Arg} (hvec : ArgVector args)
    (hgiven : ∀ arg, Arg.other arg ∈ args → Given arg) (config : KremlinConfiguration)
    (argv0 : List Char) :
    ∃ n, ∀ k, parseKremlinOptions (n + k) config (argv0 :: args.flatMap Arg.strings) =
      (args.foldlM Arg.apply config).map fun config' =>
        (config', argv0 :: (handed [] args ++ (natives args).filter nonoption)) := by
  have hdash : ['-', '-'] ∉ [] ++ args.flatMap Arg.strings := fun hmem =>
    (hvec.strings _ hmem).1 rfl
  have hshape : Shape (State.init (F := Flag) (argv0 :: args.flatMap Arg.strings)) [argv0] [] []
      ([] ++ args.flatMap Arg.strings) := Shape.init
  obtain ⟨n, hn⟩ := loop_gives hvec.ok hgiven config [argv0] rfl hshape
    (fun _ h => absurd h List.not_mem_nil) hdash
  exact ⟨n, hn⟩

/-- The four kinds are known. -/
theorem shadowMemType_isSome_iff (value : List Char) :
    (shadowMemType value).isSome ↔
      value ∈ ["base".toList, "stv".toList, "skadu".toList, "dummy".toList] := by
  unfold shadowMemType
  simp only [List.mem_cons, List.not_mem_nil, or_false]
  split_ifs <;> simp_all

/-- An option of the table takes its value, but for the type of the shadow memory. -/
theorem setOption_isSome {o : LongOption Flag} (ho : o ∈ long_options) (harg : o.has_arg = true)
    (config : KremlinConfiguration) (value : List Char) :
    (setOption config o.val value).isSome ↔
      (o.val = 'c' → (shadowMemType value).isSome) := by
  have hvals : ∀ o ∈ long_options, o.has_arg = true →
      o.val ∈ ['a', 'b', 'c', 'd', 'e', 'f', 'g', 'h'] := by decide +kernel
  have hval := hvals o ho harg
  unfold setOption
  simp only [List.mem_cons, List.not_mem_nil, or_false] at hval
  rcases hval with hval | hval | hval | hval | hval | hval | hval | hval <;> simp [hval]

/-- What `Arg.apply` needs of an argument. -/
theorem apply_isSome_iff {a : Arg} (ha : a.Ok) (config : KremlinConfiguration) :
    (a.apply config).isSome ↔
      ∀ o value, o.val = 'c' → a = .assigned o value ∨ a = .separate o value →
      value ∈ ["base".toList, "stv".toList, "skadu".toList, "dummy".toList] := by
  cases a with
  | other x => simp [Arg.apply]
  | flag o =>
      have hflag := long_options_flag o ha.1
      rw [ha.2, if_neg Bool.false_ne_true] at hflag
      simp [Arg.apply, Option.isSome_iff_ne_none, hflag.1]
  | assigned o value =>
      rw [Arg.apply, setOption_isSome ha.1 ha.2, shadowMemType_isSome_iff]
      constructor
      · rintro h o' value' hval (heq | heq)
        · cases heq
          exact h hval
        · cases heq
      · exact fun h hval => h o value hval (.inl rfl)
  | separate o value =>
      rw [Arg.apply, setOption_isSome ha.1 ha.2, shadowMemType_isSome_iff]
      constructor
      · rintro h o' value' hval (heq | heq)
        · cases heq
        · cases heq
          exact h hval
      · exact fun h hval => h o value hval (.inr rfl)

/-- What comes through in the code does so by the arguments' order. -/
theorem Passes.through {config : KremlinConfiguration} {argv0 : List Char} {args : List Arg}
    (hvec : ArgVector args) (h : Passes config argv0 args) : Through args := by
  obtain ⟨rounds, config', native_args, hparse, hperm, hfold⟩ := h
  -- everything that is handed over is an operand or an unknown long option
  have hplain : ∀ arg, Arg.other arg ∈ args → Given arg := by
    obtain ⟨r, hloop, hfinish⟩ := Option.map_eq_some_iff.mp hparse
    have hinit : Passed (State.init (F := Flag) (argv0 :: args.flatMap Arg.strings)) [argv0] []
        (args.flatMap Arg.strings) :=
      Shape.init.passed List.suffix_rfl (fun hne => absurd rfl hne) List.not_mem_nil
    obtain ⟨more, hmore, hall⟩ := loop_given hvec.strings rounds ⟨_, _, hinit⟩ hloop
    rw [hfinish] at hmore
    cases hmore
    intro arg harg
    exact hall arg (hperm.mem_iff.mpr (mem_natives.mpr harg))
  refine ⟨?_, hplain, ?_⟩
  · intro o value hval hmem
    have happly : ∀ a ∈ args, (a.apply config).isSome := by
      intro a ha
      have hsome : ∃ c, (a.apply c).isSome :=
        foldlM_forall (P := fun a => ∃ c, (Arg.apply c a).isSome)
          (fun s x s' hs => ⟨s, by rw [hs]; rfl⟩) hfold a ha
      obtain ⟨c, hc⟩ := hsome
      exact (apply_isSome_iff (hvec.ok a ha) config).mpr
        ((apply_isSome_iff (hvec.ok a ha) c).mp hc)
    rcases hmem with hmem | hmem
    · exact (apply_isSome_iff (hvec.ok _ hmem) config).mp (happly _ hmem) o value hval (.inl rfl)
    · exact (apply_isSome_iff (hvec.ok _ hmem) config).mp (happly _ hmem) o value hval (.inr rfl)
  · -- the operands that remain are all of them, so that none is handed over
    obtain ⟨n, hn⟩ := parse_gives hvec hplain config argv0
    have hsame : parseKremlinOptions (n + rounds) config (argv0 :: args.flatMap Arg.strings) =
        some (config', argv0 :: native_args) := by
      obtain ⟨r, hloop, hfinish⟩ := Option.map_eq_some_iff.mp hparse
      rw [Nat.add_comm]
      exact Option.map_eq_some_iff.mpr ⟨r, loop_mono hloop n, hfinish⟩
    rw [hn rounds, hfold] at hsame
    cases hsame
    have hcount := hperm.countP_eq nonoption
    have hfilter : ((natives args).filter nonoption).countP nonoption =
        (natives args).countP nonoption := by
      rw [List.countP_filter]
      simp
    rw [List.countP_append, hfilter] at hcount
    have hzero : (handed [] args).countP nonoption = 0 := Nat.add_eq_right.mp hcount
    refine (ordered_of_handed hplain (fun _ h => absurd h List.not_mem_nil) fun x hx => ?_).1
    exact Bool.eq_false_iff.mpr (List.countP_eq_zero.mp hzero x hx)

/-- And back. -/
theorem Through.passes {args : List Arg} (hvec : ArgVector args) (h : Through args)
    (config : KremlinConfiguration) (argv0 : List Char) : Passes config argv0 args := by
  obtain ⟨n, hn⟩ := parse_gives hvec h.plain config argv0
  obtain ⟨config', hfold, -⟩ := foldlM_inv (f := Arg.apply) (s := config) (fun _ => True) args
    (fun c a ha _ => by
      have hsome : (a.apply c).isSome := by
        refine (apply_isSome_iff (hvec.ok a ha) c).mpr fun o value hval heq => ?_
        refine h.types o value hval (heq.imp (fun heq => ?_) (fun heq => ?_))
        · exact heq ▸ ha
        · exact heq ▸ ha
      obtain ⟨c', hc⟩ := Option.isSome_iff_exists.mp hsome
      exact ⟨c', hc, trivial⟩) trivial
  refine ⟨n, config', handed [] args ++ (natives args).filter nonoption, ?_, ?_, hfold⟩
  · have hparse := hn 0
    rw [hfold] at hparse
    exact hparse
  · rw [handed_of_ordered h.plain h.order fun hne => absurd rfl hne]
    exact List.perm_append_comm.trans (List.filter_append_perm nonoption (natives args))

/-- **Exactly these vectors are passed through.** -/
theorem passes_iff (config : KremlinConfiguration) (argv0 : List Char) {args : List Arg}
    (hvec : ArgVector args) : Passes config argv0 args ↔ Through args :=
  ⟨Passes.through hvec, fun h => h.passes hvec config argv0⟩

/-- `prog --verbose --kremlin-output=prof.bin in.txt` keeps its two arguments. -/
theorem passes_verbose :
    Passes {} "prog".toList
      [.other "--verbose".toList,
       .assigned { name := "kremlin-output".toList, has_arg := true, flag := none, val := 'a' }
         "prof.bin".toList,
       .other "in.txt".toList] := by
  refine (passes_iff {} "prog".toList ⟨?_, by decide +kernel⟩).mpr ⟨?_, ?_, ?_⟩
  · intro a ha
    simp only [List.mem_cons, List.not_mem_nil, or_false] at ha
    rcases ha with rfl | rfl | rfl
    · intro text htext
      have hname : text = "verbose".toList := by simpa using htext.symm
      subst hname
      decide +kernel
    · exact ⟨by decide +kernel, rfl⟩
    · intro text htext
      simp at htext
  · intro o value hval hmem
    simp only [List.mem_cons, List.not_mem_nil, or_false, reduceCtorEq, false_or,
      Arg.assigned.injEq] at hmem
    rw [hmem.1] at hval
    exact absurd hval (by decide)
  · intro arg harg
    simp only [List.mem_cons, List.not_mem_nil, or_false, reduceCtorEq, false_or,
      Arg.other.injEq] at harg
    rcases harg with rfl | rfl
    · exact .inr ⟨"verbose".toList, rfl, by decide +kernel⟩
    · exact .inl (by decide +kernel)
  · refine List.isChain_cons_cons.mpr ⟨fun h => h.2, List.isChain_cons_cons.mpr ⟨?_, .singleton _⟩⟩
    exact fun h => h.1

/-- `prog -v` gets `?` in place of its option. -/
theorem short_option_lost :
    ArgVector [.other "-v".toList] ∧
      parseKremlinOptions 2 {} ["prog".toList, "-v".toList] = some ({}, ["prog".toList, ['?']]) ∧
      ¬Passes {} "prog".toList [.other "-v".toList] := by
  have hvec : ArgVector [.other "-v".toList] := by
    refine ⟨?_, by decide +kernel⟩
    intro a ha
    rw [List.mem_singleton.mp ha]
    intro text htext
    simp at htext
  refine ⟨hvec, by decide +kernel, fun h => ?_⟩
  rcases h.through hvec |>.plain _ List.mem_cons_self with hoperand | ⟨text, htext, _⟩
  · exact absurd hoperand (by decide +kernel)
  · simp at htext

end Kremlin.Runtime.Arguments
