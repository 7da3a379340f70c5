import AmbLisp.CommandLine.Shell

/-!
# The executable

Standard input, standard output and files, and nothing else. A request that needs a file it does not
have is dropped, the file is fetched, and the same request is made again: since a request is a
function of the session it starts from, the one that is dropped leaves no trace.
-/

namespace AmbLisp.Executable

/-- Is this the code of a system error, of either sign? -/
def isCode (code error : UInt32) : Bool :=
  code == error || code == 0 - error

/-- Why a file could not be read. -/
def refusalOf : IO.Error → Disk.Refusal
  | .noFileOrDirectory .. => .noSuchFile
  | .inappropriateType _ code _ => if isCode code 21 then .isFolder else .notFolder
  | .permissionDenied .. => .other "Permission denied"
  | .invalidArgument _ code details => if isCode code 36 then .nameTooLong else .other details
  | e => .other (toString e)

def fetch (path : String) : IO Disk.Answer := do
  try
    return .content (← IO.FS.readBinFile path).toList
  catch e =>
    return .refused (refusalOf e)

/-- Makes a request, with the files `known` and those that it turns out to need. -/
partial def fulfil (request : Setting → Request α) (s : Session)
    (known : List (String × Disk.Answer)) : IO (Except Fault α × Session) := do
  let cfg : Setting := { disk := fun path => (known.lookup path).getD .pending }
  match request cfg s with
  | (.error (.pendingFile path), _) => fulfil request s ((path, ← fetch path) :: known)
  | outcome => return outcome

/-- Shows what a session has printed and noted. -/
def present (least : Nat) (s : Session) : IO Session := do
  IO.eprint (CommandLine.journalText (toString (← IO.monoMsNow)) least s.events)
  IO.print s.output
  (← IO.getStdout).flush
  return s.flush

/-- Makes a request and shows its output; a fault from outside ends the program. -/
def serve (least : Nat) (request : Setting → Request α) (s : Session) :
    IO (Option α × Session) := do
  let (outcome, s) ← fulfil request s []
  let s ← present least s
  match outcome with
  | .ok a => return (some a, s)
  | .error fault =>
    IO.eprintln fault.message
    return (none, s)

/-- Reads a line, `none` at the end of input. -/
def readLine : IO (Option String) := do
  let line ← (← IO.getStdin).getLine
  if line.isEmpty then return none
  return some (if line.endsWith "\n" then (line.dropEnd 1).toString else line)

partial def converse (least : Nat) (s : Session) : IO UInt32 := do
  let (_, s) ← serve least (fun _ => Dialogue.emit Dialogue.prompt) s
  let line? ← readLine
  match ← serve least (Dialogue.turn · line?) s with
  | (some true, s) => converse least s
  | (some false, _) => return 0
  | (none, _) => return 1

end AmbLisp.Executable

open AmbLisp Executable

def main (argv : List String) : IO UInt32 := do
  match CommandLine.Command.parse argv with
  | .refused =>
    IO.eprint CommandLine.usage
    return 2
  | .help =>
    IO.print CommandLine.helpText
    return 0
  | .run o =>
    match CommandLine.threshold o.logLevel with
    | .error why =>
      IO.eprintln why.message
      return 1
    | .ok least =>
      match ← serve least (CommandLine.perform · o) (CommandLine.openSession o) with
      | (some .converse, s) => converse least s
      | (some (.stop code complaint), _) =>
        IO.eprint complaint
        return code.toUInt32
      | (none, _) => return 1
