import AmbLisp.Session
import AmbLisp.Text.Blank

/-!
# The dialogue

A user talks to a session line by line. A line is an expression, which becomes a new problem, or the
command to look for another value of the current problem. Every fault of the program is answered
by a text; a fault from outside is not answered and leaves the dialogue.

Printing is not part of what is answered so. A value that is nested too deeply to be printed leaves
the dialogue, and so does a text with a character that the encoding of the output does not have. A
search or a listing that runs out of passes has no answer at all: on a machine it would go on. The lines
of the user are texts here; how they are decoded is not described.
-/

namespace AmbLisp.Dialogue

def prompt : String := "user> "

def tryAgainCommand : String := "try-again"

def exitCommand : String := "exit"

/-- The answer to a fault, if the dialogue can answer it. -/
def reply? (fault : Fault) : Option String :=
  match fault.kind with
  | .noMoreValues => some "No more values"
  | .noProblem => some "No current problem"
  | .outside => none
  | _ => some ("Error: " ++ fault.message)

/-- The request that a line makes, blanks at its ends removed. -/
def request (cfg : Setting) (line : String) : Request Value := do
  if line = tryAgainCommand then Session.tryAgain cfg
  else Session.run cfg (← Session.readForm line cfg.toHost)

/-- The answer to a line; there is none to a blank one. -/
def answer (cfg : Setting) (line : String) : Request (Option String) := do
  let line := Text.trim line
  if line = "" then return none
  match ← Session.attempt (request cfg line) with
  | .ok v => return some (← (cfg.print .readable v : Except Fault String))
  | .error fault =>
    match reply? fault with
    | some text => return some text
    | none => throw fault

def emit (text : String) : Request Unit :=
  modify fun s => { s with printed := text :: s.printed }

/-- Prints a line. -/
def say (host : Host) (text : String) : Request Unit := do
  emit ((← (host.encode text : Except Fault String)) ++ "\n")

/-- Prints an answer, if there is one. -/
def sayAnswer (host : Host) : Option String → Request Unit
  | some text => say host text
  | none => return ()

/-- Prints further values of the current problem until it is over. After `n` of them it is given up. -/
def exhaust (cfg : Setting) : Nat → Request Unit
  | 0 => throw .tooManyPasses
  | n + 1 => do
    sayAnswer cfg.toHost (← answer cfg tryAgainCommand)
    if (← get).problem.isSome then exhaust cfg n

/-- Prints the answer to a source text and, if `all`, what then remains of the current problem. -/
def execute (cfg : Setting) (source : String) (all : Bool) : Request Unit := do
  let reply ← answer cfg source
  sayAnswer cfg.toHost reply
  if reply.isSome && all && (← get).problem.isSome then exhaust cfg cfg.passes

/-- Deals with what the user has entered, `none` at the end of input. Is there another turn? -/
def turn (cfg : Setting) : Option String → Request Bool
  | none => do
    emit "\n"
    return false
  | some line => do
    if Text.trim line = exitCommand then return false
    sayAnswer cfg.toHost (← answer cfg line)
    return true

/-- A dialogue with a user who enters these lines. -/
def converse (cfg : Setting) : List String → Request Unit
  | [] => do
    emit prompt
    let _ ← turn cfg none
  | line :: lines => do
    emit prompt
    if ← turn cfg (some line) then converse cfg lines

end AmbLisp.Dialogue
