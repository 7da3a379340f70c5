import AmbLisp.Loader
import AmbLisp.Primitive.Apply

/-!
# Evaluation

A symbol is looked up, a list that begins with a keyword is a special form, any other list but the
empty one is an application, and everything else is its own value. Evaluation is strictly from left
to right and depth first, which lets a later pass recognise the `amb`s of an earlier one by their
order.

`step` evaluates one expression, given a way to evaluate what is nested in it; `evaluate` ties the
knot, as often as evaluations may be nested.
-/

namespace AmbLisp

/-- A way to evaluate an expression in a scope. -/
abbrev Evaluator := Value → ScopeId → Run Value

namespace Evaluator

variable (ev : Evaluator)

/-- Evaluates expressions in order. -/
def all (e : ScopeId) : List Value → Run (List Value)
  | [] => return []
  | expr :: exprs => do
    let v ← ev expr e
    let vs ← all e exprs
    return v :: vs

/-- Evaluates expressions in order; the value is that of the last one, or `v` if there is none. -/
def sequence (e : ScopeId) (v : Value) : List Value → Run Value
  | [] => return v
  | expr :: exprs => do
    let v ← ev expr e
    sequence e v exprs

/-- Evaluates the expression of the first clause `(test expr)` whose test is true. -/
def clauses (e : ScopeId) : List Value → Run Value
  | [] => return .nil
  | .list [test, expr] :: rest => do
    if (← ev test e).isTrue then ev expr e else clauses e rest
  | _ :: _ => throw (.malformed .condClause)

/-- Evaluates bindings `(name expr)` in order, each in the scope that it extends. -/
def letBindings (e : ScopeId) : List Value → Run Unit
  | [] => return ()
  | .list [.sym name, expr] :: rest => do
    let v ← ev expr e
    Run.define e name v
    letBindings e rest
  | .list [_, _] :: _ => throw (.malformed .letName)
  | _ :: _ => throw (.malformed .letBinding)

/-- Applies the first value to the rest. -/
def apply (host : Host) : List Value → Run Value
  | .prim p :: args => do
    match p.call host args with
    | .ok v =>
      Run.printLines (p.printed args)
      return v
    | .error fault => throw fault
  | .closure _ scope params body :: args => do
    match Scope.ofParams (some scope) params args with
    | .ok call =>
      let e ← Run.openScope call
      ev body e
    | .error fault => throw fault
  | _ => throw .notFunction

/-- Evaluates the forms of a file as one sequence. -/
def load (host : Host) (e : ScopeId) (path : String) : Run Value := do
  match Loader.fileForms host path with
  | .ok forms =>
    Run.note (.loading path forms.length)
    ev (.sequence forms) e
  | .error fault => throw fault

/-- Evaluates the forms of a source text as one sequence. -/
def loadSource (host : Host) (e : ScopeId) (source : String) : Run Value := do
  match Loader.programForms host source with
  | .ok forms => ev (.sequence forms) e
  | .error fault => throw fault

/-- Evaluates a special form with these operands. -/
def special (host : Host) (e : ScopeId) : Keyword → List Value → Run Value
  | .quote, [v] => return v
  | .eval, [expr] => do
    let code ← ev expr e
    ev code e
  | .cond, rest => ev.clauses e rest
  | .define, [.sym name, expr] => do
    let v ← ev expr e
    Run.define e name v
    return v
  | .define, [_, _] => throw (.malformed .defineName)
  | .letIn, [.list bindings, body] => do
    let inner ← Run.openScope { outer := some e }
    ev.letBindings inner bindings
    ev body inner
  | .letIn, [_, _] => throw (.malformed .letBindings)
  | .sequence, exprs => ev.sequence e .nil exprs
  | .lambda, [.list params, body] => Run.close e params body
  | .lambda, [_, _] => throw (.malformed .lambdaParams)
  | .load, [expr] => do
    match ← ev expr e with
    | .str path =>
      let _ ← ev.load host e path
      return .nil
    | _ => throw .loadName
  | .amb, alternatives => do
    let choice ← Run.choose alternatives
    ev choice e
  | k, operands => throw (.operandCount k operands.length)

/-- Evaluates an expression, given a way to evaluate what is nested in it. -/
def step (host : Host) : Evaluator
  | .sym name, e => Run.lookup e name
  | .list (head :: operands), e =>
    match head.symbol?.bind Keyword.ofName? with
    | some k => ev.special host e k operands
    | none => do
      let vs ← ev.all e (head :: operands)
      ev.apply host vs
  | v, _ => return v

end Evaluator

/-- Evaluates an expression in a scope; `n` evaluations may be nested. -/
def evaluate (host : Host) : Nat → Evaluator
  | 0 => fun _ _ => throw .tooDeep
  | n + 1 => (evaluate host n).step host

end AmbLisp
