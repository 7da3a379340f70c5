import AmbLisp.Integer

/-!
# The journal

What a session does is noted in a journal, event by event. An event has a level, a source and a
wording; who shows the journal chooses the level from which on events matter.
-/

namespace AmbLisp

inductive Level where
  | debug | info | warning | error | critical
deriving DecidableEq, Repr

namespace Level

def name : Level → String
  | debug => "DEBUG" | info => "INFO" | warning => "WARNING" | error => "ERROR"
  | critical => "CRITICAL"

/-- The level as a number, the larger the more it matters. -/
def weight : Level → Nat
  | debug => 10 | info => 20 | warning => 30 | error => 40 | critical => 50

end Level

/-- Something worth noting. -/
inductive Event where
  /-- A pass begins, with so many choice points from the passes before. -/
  | pass (number points : Nat)
  | searchEnded (passes : Nat)
  /-- An `amb` is met for the first time. -/
  | newPoint (site candidates : Nat)
  /-- The last choice point moves on to its next candidate, counted from one. -/
  | nextCandidate (site : Nat) (candidate : Int) (candidates : Nat)
  /-- The only choice point has no candidate left. -/
  | allSpent
  /-- The last choice point has no candidate left and is dropped. -/
  | backtrack (points : Nat)
  /-- A file has been read; the path is as it was given. -/
  | loading (path : String) (forms : Nat)
  /-- The journal is shown from some level on. -/
  | opened (level : String)
deriving DecidableEq, Repr

namespace Event

def level : Event → Level
  | loading .. => .info
  | _ => .debug

def source : Event → String
  | pass .. | searchEnded _ => "pyrlisp.evaluator"
  | newPoint .. | nextCandidate .. | allSpent | backtrack _ => "pyrlisp.choices"
  | loading .. => "pyrlisp.loader"
  | opened _ => "pyrlisp.log"

def message : Event → String
  | pass number points =>
    "pass " ++ toString number ++ " (choice points: " ++ toString points ++ ")"
  | searchEnded passes => "search exhausted after " ++ toString passes ++ " passes"
  | newPoint site candidates =>
    "amb site " ++ toString site ++ ": new choice point with " ++ toString candidates ++
      " candidates"
  | nextCandidate site candidate candidates =>
    "amb site " ++ toString site ++ ": advancing to candidate " ++ Integer.text candidate ++ " of " ++
      toString candidates
  | allSpent => "outermost choice point exhausted, search finished"
  | backtrack points => "choice point " ++ toString points ++ " exhausted, backtracking"
  | loading path forms => "loading " ++ path ++ " (" ++ toString forms ++ " forms)"
  | opened level => "Logging initialized at " ++ level ++ " level"

end Event

end AmbLisp
