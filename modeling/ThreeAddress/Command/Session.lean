import ThreeAddress.Command.Arguments
import ThreeAddress.Machine
import ThreeAddress.Text.Reader

/-!
# Sessions

What a request leads to once the program text is there: the exit status, what goes to the two output
streams, and the file that is written. Events, reports and diagnostics all go to the error stream,
in the order in which they come up.
-/

namespace ThreeAddress.Command

/-- What a session leaves. -/
structure Session where
  /-- The exit status. -/
  status : Nat
  /-- What goes to standard output. -/
  stdout : String := ""
  /-- What goes to standard error. -/
  stderr : String := ""
  /-- The path and the text of the file that is written. -/
  written : Option (String × String) := none
deriving DecidableEq

/-- Why a session breaks off, with no diagnostic of the program to show. -/
inductive Failure where
  /-- A fault that is none of the program. -/
  | fault (cause : Fault)
  /-- The pipeline cannot be set up. -/
  | settings (cause : SettingsError)
  /-- A value is needed that was left blank. -/
  | blank (option : OptionName)
deriving DecidableEq

/-- The text that reports the failure. -/
def Failure.message : Failure → String
  | fault cause => cause.message
  | settings cause => cause.message
  | blank o => (UsageError.blankValue o).message

/-- What stands in a message for a name that was left blank: a list of no names. -/
def blankName : String := "[]"

/-- Makes every line end a line feed: a carriage return with or without a line feed after it counts
as one. -/
def unifyLineEnds : List Char → List Char
  | '\r' :: '\n' :: rest => '\n' :: unifyLineEnds rest
  | '\r' :: rest => '\n' :: unifyLineEnds rest
  | c :: rest => c :: unifyLineEnds rest
  | [] => []

/-- Lines, each with its end. -/
def unlines (lines : List String) : String := String.join (lines.map (· ++ "\n"))

namespace Request

/-- Whether an event is shown. -/
def shows (r : Request) (e : Event) : Bool :=
  match r.logLevel with
  | none => false
  | some .debug => true
  | some .info => decide (e.level = .info)

/-- The events that are shown, as text. -/
def logText (r : Request) (log : List Event) : String :=
    unlines ((log.filter r.shows).map (·.render))

/-- The line that reports an error. -/
def diagnostic (r : Request) (message : String) : String :=
  r.source ++ ": error: " ++ message ++ "\n"

/-- The line that reports an error in the text of the program, with its place if it has one. -/
def syntaxDiagnostic (r : Request) (e : Text.SyntaxError) : String :=
  match e.position with
  | none => r.diagnostic e.cause.message
  | some p => r.source ++ ":" ++ p.line.repr ++ ":" ++ p.column.repr ++ ": error: " ++
    e.cause.message ++ "\n"

/-- Runs the resulting program. -/
def runSession (r : Request) (p : Program) (stderr : String) : Except Failure Session :=
  match r.entry with
  | none => .error (.blank .entry)
  | some entry =>
    let ran := p.run { entry, inputs := r.inputs }
    match ran.result with
    | .error e => .ok { status := 1, stderr := stderr ++ r.diagnostic e.message }
    | .ok value =>
      let log := value.toList.map Event.returned
      .ok
        { status := 0, stdout := unlines (ran.output.toList.map renderInt),
          stderr := stderr ++ r.logText log }

/-- Prints the resulting program. -/
def printSession (r : Request) (p : Program) (stderr : String) : Except Failure Session :=
  let text := p.render r.showPreds
  match r.output with
  | .stdout => .ok { status := 0, stdout := text, stderr }
  | .file path => .ok { status := 0, stderr, written := some (path, text) }
  | .blank => .error (.blank .output)

/-- Runs or prints the resulting program. -/
def finish (r : Request) (p : Program) (stderr : String) : Except Failure Session :=
  if r.run then r.runSession p stderr else r.printSession p stderr

/-- Takes a program through the pipeline, unless it is printed as it was read, then runs or prints
it. -/
def process (r : Request) (level : OptLevel) (p : Program) : Except Failure Session :=
  if r.target = .raw then r.finish p ""
  else
    match r.policy with
    | none => .error (.settings (.unknownPolicy blankName))
    | some policy =>
      let optimized := p.optimize (r.options level policy)
      let log := r.logText optimized.log
      match optimized.result with
      | .error e =>
        if e.isDiagnostic then .ok
          { status := 1, stderr := log ++ r.diagnostic e.message } else .error (.fault e)
      | .ok (p, reports) =>
        r.finish p (log ++ if r.report then renderReports reports ++ "\n" else "")

/-- The session on a program text, or on the reason why it cannot be read. -/
def session (r : Request) (source : Except String String) : Except Failure Session :=
  match source, r.optLevel with
  | .error reason, _ => .ok { status := 1, stderr := r.diagnostic reason }
  | .ok _, none => .error (.settings (.unknownLevel blankName))
  | .ok text, some level =>
    match Text.parse (String.ofList (unifyLineEnds text.toList)) with
    | .error e => .ok { status := 1, stderr := r.syntaxDiagnostic e }
    | .ok p => r.process level p

end Request

end ThreeAddress.Command
