import AmbLisp.CommandLine.Options
import AmbLisp.Dialogue

/-!
# The program

The files of the command line are run one after the other as problems of one session. Then the
expression of the command line is evaluated, or a dialogue begins, or nothing is left to do. Complaints
and the journal go to the error output, which is taken to write every character.
-/

namespace AmbLisp.CommandLine

/-! ## The journal on the command line -/

/-- The capitals of a letter, as far as they are ASCII letters; any other letter stands for itself.
Beside the ASCII letters these are the sharp s, the dotless i, the long s and the ligatures of `f`
and `s`. -/
def capital (c : Char) : List Char :=
  match c with
  | 'ß' => ['S', 'S']
  | 'ı' => ['I']
  | 'ſ' => ['S']
  | 'ﬀ' => ['F', 'F']
  | 'ﬁ' => ['F', 'I']
  | 'ﬂ' => ['F', 'L']
  | 'ﬃ' => ['F', 'F', 'I']
  | 'ﬄ' => ['F', 'F', 'L']
  | 'ﬅ' | 'ﬆ' => ['S', 'T']
  | c => [c.toUpper]

def capitals (s : String) : String :=
  String.ofList (s.toList.flatMap capital)

/-- How a line of the journal is laid out where nothing else is said. -/
def defaultLayout : String := "%(levelname)s:%(name)s:%(message)s"

/-- Why there is no level. -/
inductive LevelFault where
  | missing
  /-- The name is that of the default layout. -/
  | layout
  /-- The name is that of the table of layouts. -/
  | layoutTable
deriving DecidableEq, Repr

def LevelFault.message : LevelFault → String
  | missing => "Level not named"
  | layout => "Unknown level: " ++ Text.literal defaultLayout
  | layoutTable => "Level not an integer or a valid string"

/-- The least weight of the events that a level lets through. Case does not count in the name of a
level, and an unknown name stands for `WARNING`. -/
def threshold : Option String → Except LevelFault Nat
  | none => .error .missing
  | some level =>
    match capitals level with
    | "NOTSET" => .ok 0
    | "DEBUG" => .ok Level.debug.weight
    | "INFO" => .ok Level.info.weight
    | "ERROR" => .ok Level.error.weight
    | "CRITICAL" | "FATAL" => .ok Level.critical.weight
    | "BASIC_FORMAT" => .error .layout
    | "_STYLES" => .error .layoutTable
    | _ => .ok Level.warning.weight

/-- A line of the journal, at a time. -/
def eventLine (time : String) (e : Event) : String :=
  time ++ " - " ++ e.source ++ " - " ++ e.level.name ++ " - " ++ e.message ++ "\n"

/-- The journal, as far as its events have this weight at least. -/
def journalText (time : String) (least : Nat) (events : List Event) : String :=
  String.join ((events.filter fun e => least ≤ e.level.weight).map (eventLine time))

/-! ## The run -/

/-- What is to be done after the command line has been carried out. -/
inductive Next where
  | converse
  /-- Stop with an exit code, and perhaps a complaint. -/
  | stop (code : Nat) (complaint : String)
deriving DecidableEq, Repr

/-- The session that a command line begins with. -/
def openSession (o : Options) : Session :=
  (Session.initial !o.noPrelude).note (.opened (capitals (o.logLevel.getD "")))

/-- Runs files until one fails; the complaint about it. -/
def loadFiles (cfg : Setting) : List String → Request (Option String)
  | [] => return none
  | file :: files => do
    match ← Session.attempt (do Session.run cfg (← Session.fileProgram cfg file)) with
    | .ok _ =>
      Dialogue.say cfg.toHost ("; Loaded " ++ file)
      loadFiles cfg files
    | .error fault =>
      if fault.kind = .outside then throw fault
      return some ("Error loading " ++ file ++ ": " ++ fault.message ++ "\n")

/-- Carries out a command line. -/
def perform (cfg : Setting) (o : Options) : Request Next := do
  match ← loadFiles cfg o.files with
  | some complaint => return .stop 1 complaint
  | none =>
    let source := o.execute.getD ""
    if source ≠ "" then
      Dialogue.execute cfg source o.all
      return .stop 0 ""
    if !o.files.isEmpty && !o.interactive then return .stop 0 ""
    return .converse

def usage : String :=
  "usage: pyrlisp [-h] [-e EXECUTE] [--all] [-i] [--no-prelude]
               [--log-level LOG_LEVEL]
               [files ...]
"

def helpText : String :=
  usage ++ "
PyRLisp REPL

positional arguments:
  files                 RLisp files to load

options:
  -h, --help            show this help message and exit
  -e EXECUTE, --execute EXECUTE
                        Evaluate an expression and exit
  --all                 With -e, print every value instead of the first
  -i, --interactive     Start the REPL after loading files
  --no-prelude          Do not define require, cadr and friends
  --log-level LOG_LEVEL
                        Logging level (default: WARNING)
"

inductive Ending where
  | exit (code : Nat)
  /-- A fault that nothing has answered. -/
  | fault (why : Fault)
  | level (why : LevelFault)
deriving DecidableEq, Repr

/-- What a run of the program leaves behind. -/
structure Report where
  stdout : String := ""
  stderr : String := ""
  ending : Ending := .exit 0
deriving DecidableEq, Repr

/-- The lines of an input; the last one need not be ended. -/
def inputLines (input : String) : List String :=
  let lines := input.splitOn "\n"
  if lines.getLast? = some "" then lines.dropLast else lines

/-- A run that has gone through this session, with the events that have this weight at least. -/
def report (time : String) (least : Nat) (s : Session) (ending : Ending) (complaint : String) :
    Report :=
  ⟨s.output, journalText time least s.events ++ complaint, ending⟩

/-- The program, run on the words of a command line and an input, at a time. -/
def run (cfg : Setting) (time : String) (argv : List String) (input : String) : Report :=
  match Command.parse argv with
  | .refused => { stderr := usage, ending := .exit 2 }
  | .help => { stdout := helpText }
  | .run o =>
    match threshold o.logLevel with
    | .error why => { ending := .level why }
    | .ok least =>
      match (perform cfg o).run.run (openSession o) with
      | (.ok (.stop code complaint), s) => report time least s (.exit code) complaint
      | (.ok .converse, s) =>
        match (Dialogue.converse cfg (inputLines input)).run.run s with
        | (.ok (), s) => report time least s (.exit 0) ""
        | (.error fault, s) => report time least s (.fault fault) ""
      | (.error fault, s) => report time least s (.fault fault) ""

end AmbLisp.CommandLine
