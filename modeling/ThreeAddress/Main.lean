import ThreeAddress.Command.Session

/-!
# The program

Reads the command line and the source file, and carries out what the session says. A refused command
line ends with status 2, a session that breaks off with status 1.
-/

namespace ThreeAddress.Command

/-- Why a file cannot be read, in the words of the system. -/
def readFailure : IO.Error → String
  | .noFileOrDirectory .. | .noSuchThing .. => "No such file or directory"
  | .inappropriateType (some _) _ _ => "Not a directory"
  | .inappropriateType none _ _ => "Is a directory"
  | .invalidArgument _ _ "name too long" => "File name too long"
  | .permissionDenied .. => "Permission denied"
  | e => e.toString

/-- Reads a file. -/
def readSource (path : String) : IO (Except String String) := do
  match ← (IO.FS.readFile path).toBaseIO with
  | .ok text => return .ok text
  | .error e => return .error (readFailure e)

/-- Carries out a session. -/
def Session.perform (s : Session) : IO UInt32 := do
  (← IO.getStderr).putStr s.stderr
  (← IO.getStdout).putStr s.stdout
  if let some (path, text) := s.written then IO.FS.writeFile path text
  return s.status.toUInt32

end ThreeAddress.Command

open ThreeAddress.Command in
/-- Runs the command line. -/
def main (argv : List String) : IO UInt32 := do
  match Request.ofArguments argv with
  | .error .helpAsked =>
    IO.println UsageError.helpAsked.message
    return 0
  | .error (.blankValue o) =>
    IO.eprintln ("ssamid: error: " ++ (UsageError.blankValue o).message)
    return 1
  | .error e =>
    IO.eprintln ("ssamid: error: " ++ e.message)
    return 2
  | .ok r =>
    match r.session (← readSource r.source) with
    | .ok s => s.perform
    | .error e =>
      IO.eprintln ("ssamid: error: " ++ e.message)
      return 1
