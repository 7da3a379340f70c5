import AmbLisp.Choice
import AmbLisp.Host
import AmbLisp.Store

/-!
# Runs

An evaluation reads and changes a world: the scopes, the trail of its search, what it prints and the
journal. The world outlives a fault, with every change made up to it. What an evaluation only reads
is its setting.
-/

namespace AmbLisp

/-- What evaluations do not change: the host, and how much a request may take. -/
structure Setting extends Host where
  /-- How deeply evaluations may be nested. -/
  depth : Nat := 256
  /-- How many passes one request may run. -/
  passes : Nat := 2 ^ 40

/-- What an evaluation works on. -/
structure World where
  store : Store
  trail : Trail := {}
  /-- The texts printed so far, the last one first. -/
  printed : List String := []
  /-- The events noted so far, the last one first. -/
  journal : List Event := []

/-- A step that may fail and that changes the world in either case. -/
abbrev Run := ExceptT Fault (StateM World)

namespace Run

def note (event : Event) : Run Unit :=
  modify fun w => { w with journal := event :: w.journal }

def printLines (lines : List String) : Run Unit :=
  modify fun w => { w with printed := (lines.map (· ++ "\n")).reverse ++ w.printed }

/-- The value of a name, seen from a scope. -/
def lookup (e : ScopeId) (name : String) : Run Value := do
  match (← get).store.lookup e name with
  | some v => return v
  | none => throw (.unbound name)

def define (e : ScopeId) (name : String) (v : Value) : Run Unit :=
  modify fun w => { w with store := w.store.define e name v }

def openScope (scope : Scope) : Run ScopeId :=
  modifyGet fun w =>
    let (e, store) := w.store.openScope scope
    (e, { w with store })

def close (e : ScopeId) (params : List Value) (body : Value) : Run Value :=
  modifyGet fun w =>
    let (v, store) := w.store.close e params body
    (v, { w with store })

/-- Chooses one of the alternatives of an `amb`. -/
def choose (candidates : List Value) : Run Value := do
  let w ← get
  let (choice?, trail) := w.trail.choose candidates
  set { w with trail, journal := (w.trail.choiceEvent? candidates).toList ++ w.journal }
  match choice? with
  | some v => return v
  | none => throw .noChoice

end Run

end AmbLisp
