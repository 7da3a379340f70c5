import AmbLisp.Keyword
import AmbLisp.Primitive

/-!
# Values

Code is data: what the reader produces, what evaluation produces and what evaluation takes are the
same values. Functions are values too. A closure remembers the scope in which its `lambda` was
evaluated, and a serial number that no other closure of the same store has.
-/

namespace AmbLisp

/-- A scope, by its position in the store. -/
abbrev ScopeId := Nat

/-- A value, or a piece of code. -/
inductive Value where
  | int (n : Int)
  | bool (b : Bool)
  | sym (name : String)
  | str (text : String)
  | nil
  | list (items : List Value)
  | prim (p : Primitive)
  | closure (serial : Nat) (scope : ScopeId) (params : List Value) (body : Value)
deriving Inhabited

namespace Value

/-- Neither a list nor a function. -/
def isAtom : Value → Bool
  | list _ | prim _ | closure .. => false
  | _ => true

def isFunction : Value → Bool
  | prim _ | closure .. => true
  | _ => false

/-- The one value that selects a clause of a conditional. -/
def isTrue : Value → Bool
  | bool b => b
  | _ => false

def symbol? : Value → Option String
  | sym name => some name
  | _ => none

def int? : Value → Option Int
  | int n => some n
  | _ => none

def list? : Value → Option (List Value)
  | list items => some items
  | _ => none

/-- The form `(quote v)`. -/
def quotation (v : Value) : Value :=
  list [sym Keyword.quote.name, v]

/-- Are these the elements of a form `(quote v)`? -/
def isQuotation : List Value → Bool
  | [sym name, _] => name == Keyword.quote.name
  | _ => false

/-- Several forms as one that evaluates them in order: `(do form ...)`. -/
def sequence (forms : List Value) : Value :=
  list (sym Keyword.sequence.name :: forms)

end Value

end AmbLisp
