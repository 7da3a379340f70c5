import AmbLisp.Prelude
import AmbLisp.Search

/-!
# Sessions

A session has a store of scopes and at most one problem, the current one. To run a problem is to
search for its first value; to try again is to search for the next one. Each pass of a search
evaluates the whole expression again. A problem is over when its search ends without a value.
-/

namespace AmbLisp

/-- An expression whose values are looked for, and how far the search has come. -/
structure Problem where
  expression : Value := .nil
  trail : Trail := {}

/-- The state between two requests. -/
structure Session where
  store : Store
  problem : Option Problem := none
  /-- How many passes the latest problem has taken. -/
  passes : Nat := 0
  /-- The texts printed so far, the last one first. -/
  printed : List String := []
  /-- The events noted so far, the last one first. -/
  journal : List Event := []

/-- A request to a session. A request that fails changes the session all the same. -/
abbrev Request := ExceptT Fault (StateM Session)

namespace Session

def initial (prelude : Bool) : Session :=
  { store := Store.initial prelude }

def output (s : Session) : String :=
  String.join s.printed.reverse

/-- The events that have been noted, the first one first. -/
def events (s : Session) : List Event :=
  s.journal.reverse

/-- The session after what is printed and noted has been shown. -/
def flush (s : Session) : Session :=
  { s with printed := [], journal := [] }

/-- Does a run on the scopes of a session, along a trail. -/
def along (trail : Trail) (act : Run α) : Session → Except Fault α × Trail × Session
  | { store, problem, passes, printed, journal } =>
    let (result, w) := act.run.run { store, trail, printed, journal }
    (result, w.trail,
      { store := w.store, problem, passes, printed := w.printed, journal := w.journal })

def note (event : Event) (s : Session) : Session :=
  { s with journal := event :: s.journal }

/-- The search whose passes evaluate an expression in the global scope. -/
def searchFor (cfg : Setting) (expr : Value) : Search Session Value where
  pass trail s :=
    let s := ({ s with passes := s.passes + 1 } : Session)
    along trail (evaluate cfg.toHost cfg.depth expr Store.globalScope)
      (s.note (.pass s.passes trail.totalDepth))
  count := passes
  note := note

/-- Makes the problem of an expression the current one, unless the search for it is over. -/
def settle (expr : Value) : Except Fault Value × Option Trail × Session →
    Except Fault Value × Session
  | (result, trail?, s) =>
    (result, { s with problem := trail?.map fun trail => { expression := expr, trail } })

/-- The first value of an expression, as a new problem. -/
def run (cfg : Setting) (expr : Value) : Request Value := fun s =>
  settle expr ((searchFor cfg expr).run cfg.passes {} { s with passes := 0 })

/-- The next value of the current problem. -/
def tryAgain (cfg : Setting) : Request Value := fun s =>
  match s.problem with
  | none => (.error .noProblem, s)
  | some p =>
    settle p.expression ((searchFor cfg p.expression).again cfg.passes p.trail s)

/-- Turns a fault of a request into an outcome. -/
def attempt (request : Request α) : Request (Except Fault α) := fun s =>
  let (result, s) := request s
  (.ok result, s)

/-- At most `n` further values, got by one request each; the first one is `request`. -/
def valuesFrom (cfg : Setting) (request : Request Value) : Nat → Request (List Value)
  | 0 => return []
  | n + 1 => do
    match ← attempt request with
    | .ok v => do
      let vs ← valuesFrom cfg (tryAgain cfg) n
      return v :: vs
    | .error .noMoreValues => return []
    | .error fault => throw fault

/-- The first values of an expression, at most `n`. The problem stays open behind the last of them
if there are more. -/
def solve (cfg : Setting) (expr : Value) (n : Nat) : Request (List Value) :=
  valuesFrom cfg (run cfg expr) n

/-- All values of an expression. They are not asked for without end: if there are more of them than a
search may take passes, this has no answer. -/
def solveAll (cfg : Setting) (expr : Value) : Request (List Value) := do
  let vs ← solve cfg expr (cfg.passes + 1)
  if (← get).problem.isSome then throw .tooManyPasses
  return vs

/-- The first value of an expression, if it has one. -/
def solveOne (cfg : Setting) (expr : Value) : Request (Option Value) := do
  return (← solve cfg expr 1).head?

/-- A single run, outside any search: it fails where a search would try again. -/
def once (act : Run α) : Request α := fun s =>
  let (result, _, s) := along {} act s
  (result, s)

def evaluateOnce (cfg : Setting) (expr : Value) : Request Value :=
  once (evaluate cfg.toHost cfg.depth expr Store.globalScope)

def loadFile (cfg : Setting) (path : String) : Request Value :=
  once ((evaluate cfg.toHost cfg.depth).load cfg.toHost Store.globalScope path)

/-- The value of a source text, loaded like a file, in one evaluation. -/
def loadSource (cfg : Setting) (source : String) : Request Value :=
  once ((evaluate cfg.toHost cfg.depth).loadSource cfg.toHost Store.globalScope source)

/-- A request on the scopes of this session that has a problem of its own. -/
def aside (request : Request α) : Request α := fun s =>
  let (result, s') := request { s with problem := none, passes := 0 }
  (result, { s' with problem := s.problem, passes := s.passes })

/-! ## Source texts -/

/-- The only form of a source text. -/
def readForm (source : String) (host : Host := {}) : Request Value :=
  liftM (Loader.form host source)

/-- A source text as one expression: its only form, or all its forms in sequence. -/
def readProgram (host : Host) (source : String) : Request Value := do
  match Loader.programForms host source with
  | .ok [expr] => return expr
  | .ok forms => return .sequence forms
  | .error fault => throw fault

def runSource (cfg : Setting) (source : String) : Request Value := do
  run cfg (← readProgram cfg.toHost source)

/-- The first values of a source text, at most `n`. The text is not even read for no value. -/
def query (cfg : Setting) (source : String) (n : Nat) : Request (List Value) :=
  if n = 0 then return [] else do solve cfg (← readProgram cfg.toHost source) n

def fileProgram (cfg : Setting) (path : String) : Request Value := do
  match Loader.fileForms cfg.toHost path with
  | .ok forms => return .sequence forms
  | .error fault => throw fault

end Session

end AmbLisp
