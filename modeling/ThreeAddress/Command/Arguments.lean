import ThreeAddress.Command.Path
import ThreeAddress.Pipeline

/-!
# Arguments

What a command line asks for. An option is written `--name`, or with as much of its name as tells it
apart; its value is the next argument or follows an equals sign. Options of one letter can be
joined, `-vd`, and the last may have its value right after it, `-ofile`; an equals sign after the
first letter makes no difference. A number below zero and a text with a blank in it are no options,
and after `--` nothing is. An option that is given twice has its last value.

Arguments take effect from the left, so the first one that is refused or asks for help decides. Two
things stand out. A shortened name that may mean several options is refused before anything takes
effect. Options that there are not and surplus texts are passed over and refused in the end.

A value that is itself `--` counts as a divider and leaves its option blank. That is no error before
the value is needed.
-/

namespace ThreeAddress.Command

/-- What is printed. -/
inductive Target where
  /-- The program as it was read. -/
  | raw
  /-- The program in SSA form. -/
  | ssa
  /-- Plain three-address code. -/
  | tac
deriving DecidableEq

/-- The target with the given name. -/
def Target.ofName? : String → Option Target
  | "raw" => some raw
  | "ssa" => some ssa
  | "tac" => some tac
  | _ => none

/-- The options of the command line. -/
inductive OptionName where
  | help | output | opt | constants | motion | target | rounds | undefinedUses | prune | noVerify
  | report | showPreds
  | run | entry | input | verbose | debug
deriving DecidableEq

namespace OptionName

/-- All options. -/
def all : List OptionName :=
  [help, output, opt, constants, motion, target, rounds, undefinedUses, prune, noVerify, report,
    showPreds, run, entry,
   input, verbose, debug]

/-- The full name. -/
def long : OptionName → String
  | help => "--help"
  | output => "--output"
  | opt => "--opt"
  | constants => "--const-prop"
  | motion => "--licm"
  | target => "--target"
  | rounds => "--rounds"
  | undefinedUses => "--undefined"
  | prune => "--prune-phis"
  | noVerify => "--no-verify"
  | report => "--report"
  | showPreds => "--show-preds"
  | run => "--run"
  | entry => "--entry"
  | input => "--input"
  | verbose => "--verbose"
  | debug => "--debug"

/-- The option of one letter. -/
def ofLetter? : Char → Option OptionName
  | 'h' => some help
  | 'o' => some output
  | 'v' => some verbose
  | 'd' => some debug
  | _ => none

/-- Whether the option has a value. -/
def takesValue : OptionName → Bool
  | output | opt | target | rounds | undefinedUses | entry | input => true
  | _ => false

/-- The options that a full or shortened name may mean. -/
def matching (name : String) : List OptionName :=
  match all.filter (·.long = name) with
  | [] => all.filter fun o => name.toList.isPrefixOf o.long.toList
  | exact => exact

end OptionName

/-- Why a command line is refused. -/
inductive UsageError where
  /-- The help text is asked for. -/
  | helpAsked
  | ambiguousOption (text : String)
  | missingValue (option : OptionName)
  | unexpectedValue (option : OptionName)
  | badValue (option : OptionName) (value : String)
  | tooFewRounds
  | badInput (text : String)
  | noSource
  /-- Options that there are not and texts after the source. -/
  | surplus (texts : List String)
  /-- An option was left blank. -/
  | blankValue (option : OptionName)
deriving DecidableEq

/-- The text that reports the refusal. -/
def UsageError.message : UsageError → String
  | helpAsked => "usage: ssamid [options] source"
  | ambiguousOption t => "ambiguous option: " ++ t
  | missingValue o => "argument " ++ o.long ++ ": expected one argument"
  | unexpectedValue o => "argument " ++ o.long ++ ": unexpected value"
  | badValue o v => "argument " ++ o.long ++ ": invalid value: " ++ Text.quoted v
  | tooFewRounds => "--rounds must be at least 1"
  | badInput t => "--input expects comma-separated integers, got '" ++ t ++ "'"
  | noSource => "the following arguments are required: source"
  | surplus ts => "unrecognized arguments: " ++ String.intercalate " " ts
  | blankValue o => "argument " ++ o.long ++ ": no value"

/-! ## What an argument is -/

/-- An argument by its form. -/
inductive Argument where
  /-- A value or the source. -/
  | plain (text : String)
  /-- The divider after which there are no options. -/
  | divider
  /-- Options without a value. -/
  | flags (options : List OptionName)
  /-- Options without a value, and one with; the value may be given here. -/
  | valued (flags : List OptionName) (option : OptionName) (value : Option String)
  /-- An option that there is not. -/
  | unknown (text : String)
  /-- An argument that is refused when its turn comes. -/
  | refused (cause : UsageError)
deriving DecidableEq

/-- Splits a text at its first equals sign. -/
def splitEquals (cs : List Char) : List Char × Option (List Char) :=
  match cs.dropWhile (· ≠ '=') with
  | [] => (cs, none)
  | _ :: value => (cs.takeWhile (· ≠ '='), some value)

/-- An argument that starts like an option and names none. -/
def unnamed (text : String) : Argument := if ' ' ∈ text.toList then .plain text else .unknown text

/-- Reads an argument that starts with two dashes. -/
def readLong (text : String) : Except UsageError Argument :=
  let (name, value) := splitEquals text.toList
  match OptionName.matching (String.ofList name) with
  | [] => .ok (unnamed text)
  | [o] =>
    if o.takesValue then .ok (.valued [] o (value.map String.ofList))
    else if value.isSome then .ok (.refused (.unexpectedValue o))
    else .ok (.flags [o])
  | _ => .error (.ambiguousOption text)

/-- Reads what is joined to the option `o` of one letter, which follows the given flags: its value
if it has one, and otherwise more options. -/
def readJoined (before : List OptionName) (o : OptionName) : List Char → Argument
  | [] => if o.takesValue then .valued before o none else .flags (before ++ [o])
  | c :: rest =>
    if o.takesValue then .valued before o (some (String.ofList (c :: rest)))
    else
      match OptionName.ofLetter? c with
      | none => .refused (.unexpectedValue o)
      | some next => readJoined (before ++ [o]) next rest

/-- Reads what follows the first option of one letter. An equals sign there has to be followed by a
value, which may be empty, or by more options. -/
def readLetters (o : OptionName) : List Char → Argument
  | ['='] => if o.takesValue then .valued [] o (some "") else .refused (.unexpectedValue o)
  | '=' :: rest => readJoined [] o rest
  | rest => readJoined [] o rest

/-- Whether the text after a dash makes it a number below zero. -/
def isNumber (cs : List Char) : Bool :=
  let cs := if cs.getLast? = some '\n' then cs.dropLast else cs
  let isDigit := fun c => (Text.digitValue? c).isSome
  match cs.dropWhile isDigit with
  | [] => !cs.isEmpty
  | '.' :: fraction => !fraction.isEmpty && fraction.all isDigit
  | _ => false

/-- Reads an argument that stands before any divider. -/
def readArgument (text : String) : Except UsageError Argument :=
  match text.toList with
  | ['-', '-'] => .ok .divider
  | '-' :: '-' :: _ => readLong text
  | '-' :: c :: rest =>
    match OptionName.ofLetter? c with
    | some o => .ok (readLetters o rest)
    | none => .ok (if isNumber (c :: rest) then .plain text else unnamed text)
  | _ => .ok (.plain text)

/-- Reads all arguments. -/
def readArguments : List String → Except UsageError (List Argument)
  | [] => .ok []
  | text :: rest => do
    match ← readArgument text with
    | .divider => return .divider :: rest.map .plain
    | arg => return arg :: (← readArguments rest)

/-! ## What they ask for -/

/-- Where the result goes. -/
inductive Destination where
  /-- To standard output. -/
  | stdout
  /-- Into a file. -/
  | file (path : String)
  /-- Into a file, the path of which was left blank. -/
  | blank
deriving DecidableEq

/-- A command line as far as it was read. The value of an option that was left blank is `none`. -/
structure Draft where
  output : Destination := .stdout
  optLevel : Option OptLevel := some .none
  constants : Bool := false
  motion : Bool := false
  target : Target := .tac
  rounds : Option Int := some 1
  policy : Option UndefinedPolicy := some .sentinel
  prune : Bool := false
  noVerify : Bool := false
  report : Bool := false
  showPreds : Bool := false
  run : Bool := false
  entry : Option String := some "main"
  input : Option String := some ""
  verbose : Bool := false
  debug : Bool := false

namespace Draft

/-- Sets an option without value. -/
def setFlag (d : Draft) : OptionName → Draft
  | .constants => { d with constants := true }
  | .motion => { d with motion := true }
  | .prune => { d with prune := true }
  | .noVerify => { d with noVerify := true }
  | .report => { d with report := true }
  | .showPreds => { d with showPreds := true }
  | .run => { d with run := true }
  | .verbose => { d with verbose := true }
  | .debug => { d with debug := true }
  | .help | .output | .opt | .target | .rounds | .undefinedUses | .entry | .input => d

/-- Sets options without value. -/
def setFlags (d : Draft) (flags : List OptionName) : Except UsageError Draft :=
  if .help ∈ flags then .error .helpAsked else .ok (flags.foldl setFlag d)

/-- Leaves an option blank. A blank target is neither the program as it was read nor plain code. -/
def setBlank (d : Draft) : OptionName → Draft
  | .output => { d with output := .blank }
  | .opt => { d with optLevel := none }
  | .target => { d with target := .ssa }
  | .rounds => { d with rounds := none }
  | .undefinedUses => { d with policy := none }
  | .entry => { d with entry := none }
  | .input => { d with input := none }
  | .help | .constants | .motion | .prune | .noVerify | .report | .showPreds | .run | .verbose
  | .debug => d

/-- The value of an option, which has to be one that it can have. -/
def checked {α : Type} (o : OptionName) (value : String) : Option α → Except UsageError (Option α)
  | some a => .ok (some a)
  | none => .error (.badValue o value)

/-- Sets an option that has a value. -/
def setValue (d : Draft) (o : OptionName) (value : String) : Except UsageError Draft :=
  if value = "--" then .ok (d.setBlank o)
  else
    match o with
    | .output => .ok { d with output := .file (plainPath value) }
    | .opt => do return { d with optLevel := ← checked o value (OptLevel.ofName? value) }
    | .target =>
      match Target.ofName? value with
      | some target => .ok { d with target }
      | none => .error (.badValue o value)
    | .rounds => do return { d with rounds := ← checked o value (Text.readInt? value.toList) }
    | .undefinedUses =>
      do return { d with policy := ← checked o value (UndefinedPolicy.ofName? value) }
    | .entry => .ok { d with entry := some value }
    | .input => .ok { d with input := some value }
    | o => .error (.unexpectedValue o)

end Draft

/-- Takes up arguments from the left; `source` is the source, if it was met, and `surplus` what was
passed over. -/
def takeUp : List Argument → Draft → (source : Option String) → (surplus : List String) →
    Except UsageError (Draft × String)
  | [], _, none, _ => .error .noSource
  | [], d, some source, [] => .ok (d, source)
  | [], _, some _, surplus => .error (.surplus surplus)
  | .plain text :: .divider :: rest, d, none, surplus => takeUp rest d (some text) surplus
  | .divider :: .plain text :: rest, d, none, surplus => takeUp rest d (some text) surplus
  | .plain text :: rest, d, none, surplus => takeUp rest d (some text) surplus
  | .plain text :: rest, d, some source, surplus => takeUp rest d (some source) (surplus ++ [text])
  | .divider :: rest, d, source, surplus => takeUp rest d source (surplus ++ ["--"])
  | .unknown text :: rest, d, source, surplus => takeUp rest d source (surplus ++ [text])
  | .refused cause :: _, _, _, _ => .error cause
  | .flags options :: rest, d, source, surplus =>
    do takeUp rest (← d.setFlags options) source surplus
  | .valued flags o (some value) :: rest, d, source, surplus => do
    let d ← d.setFlags flags
    takeUp rest (← d.setValue o value) source surplus
  | .valued flags o none :: .plain value :: rest, d, source, surplus => do
    let d ← d.setFlags flags
    takeUp rest (← d.setValue o value) source surplus
  | .valued _ o none :: _, _, _, _ => .error (.missingValue o)

/-- What a command line asks for. The value of an option that was left blank is `none`. -/
structure Request where
  /-- The path of the program. -/
  source : String
  /-- Where the result goes. -/
  output : Destination
  /-- Which optimizations run. -/
  optLevel : Option OptLevel
  /-- Whether constants are propagated whatever the level. -/
  constants : Bool
  /-- Whether invariant code is moved out of loops whatever the level. -/
  motion : Bool
  /-- The most rounds of optimization. -/
  rounds : Nat
  /-- What becomes of uses that no definition reaches. -/
  policy : Option UndefinedPolicy
  /-- Whether dead phis are deleted. -/
  prune : Bool
  /-- Whether functions are checked after each stage. -/
  verify : Bool
  /-- What is printed. -/
  target : Target
  /-- Whether reports are shown. -/
  report : Bool
  /-- Whether predecessors are shown. -/
  showPreds : Bool
  /-- Whether the result is run. -/
  run : Bool
  /-- The function that a run starts with. -/
  entry : Option String
  /-- The values that a run reads. -/
  inputs : List Int
  /-- The least level of events that are shown; `none` shows none. -/
  logLevel : Option Level
  /-- There is at least one round. -/
  rounds_pos : 0 < rounds

/-- How the pipeline runs, with the given level and policy. -/
def Request.options (r : Request) (level : OptLevel) (policy : UndefinedPolicy) : Options :=
  let preset := Options.ofLevel level
  { constants := preset.constants || r.constants
    motion := preset.motion || r.motion
    rounds := r.rounds
    policy
    prune := r.prune
    verify := r.verify
    leaveSsa := decide (r.target = .tac)
    rounds_pos := r.rounds_pos }

/-- Reads the inputs of a run. -/
def Draft.inputs (d : Draft) : Except UsageError (List Int) :=
  match d.input with
  | none => .error (.blankValue .input)
  | some text =>
    match Text.readInts? text with
    | none => .error (.badInput text)
    | some inputs => .ok inputs

/-- Checks what only the whole command line shows: the rounds, then the inputs. -/
def Draft.request (d : Draft) (source : String) : Except UsageError Request :=
  match d.rounds with
  | none => .error (.blankValue .rounds)
  | some rounds =>
    if h : 0 < rounds.toNat then do
      let inputs ← d.inputs
      return {
        source := plainPath source
        output := d.output
        optLevel := d.optLevel
        constants := d.constants
        motion := d.motion
        rounds := rounds.toNat
        policy := d.policy
        prune := d.prune
        verify := !d.noVerify
        target := d.target
        report := d.report
        showPreds := d.showPreds
        run := d.run
        entry := d.entry
        inputs
        logLevel := if d.debug then some .debug else if d.verbose then some .info else none
        rounds_pos := h }
    else .error .tooFewRounds

/-- Reads a command line. -/
def Request.ofArguments (argv : List String) : Except UsageError Request := do
  let args ← readArguments argv
  let (draft, source) ← takeUp args {} none []
  draft.request source

end ThreeAddress.Command
