/-!
# Primitives

The functions that every global scope starts with, and the number of arguments each one takes.
What they compute is in `AmbLisp.Primitive.Apply`.
-/

namespace AmbLisp

/-- A function that is built in. -/
inductive Primitive where
  | add | sub | mul | div | mod
  | less | greater | equal
  | eq
  | car | cdr | cons | list
  | isNil | isNumber | isList | isAtom
  | println
deriving DecidableEq, Repr, Inhabited

namespace Primitive

/-- The name that a global scope binds to the primitive. -/
def name : Primitive → String
  | add => "+" | sub => "-" | mul => "*" | div => "/" | mod => "%"
  | less => "<" | greater => ">" | equal => "="
  | eq => "eq?"
  | car => "car" | cdr => "cdr" | cons => "cons" | list => "list"
  | isNil => "nil?" | isNumber => "number?" | isList => "list?" | isAtom => "atom?"
  | println => "println"

/-- Every primitive. -/
def all : List Primitive :=
  [add, sub, mul, div, mod, less, greater, equal, eq, car, cdr, cons, list, isNil, isNumber, isList,
    isAtom, println]

/-- The primitive of a name. -/
def ofName? (s : String) : Option Primitive :=
  all.find? (·.name == s)

/-- How many arguments a primitive takes. -/
inductive Arity where
  | exactly (n : Nat)
  | atLeast (n : Nat)
deriving DecidableEq, Repr

/-- Is a number of arguments one that the arity admits? -/
def Arity.admits : Arity → Nat → Bool
  | .exactly n, k => k == n
  | .atLeast n, k => n ≤ k

/-- The number of arguments of each primitive. -/
def arity : Primitive → Arity
  | add | sub | mul => .atLeast 1
  | div => .atLeast 2
  | mod | less | greater | equal | eq | cons => .exactly 2
  | car | cdr | isNil | isNumber | isList | isAtom | println => .exactly 1
  | list => .atLeast 0

end Primitive

end AmbLisp
