/-!
# Keywords

The names that, at the head of a list, make it a special form. A keyword is recognised by its name
alone, whatever the name is bound to.
-/

namespace AmbLisp

/-- The head of a special form. -/
inductive Keyword where
  | quote | eval | cond | define | letIn | sequence | lambda | load | amb
deriving DecidableEq, Repr, Inhabited

namespace Keyword

/-- The keyword as it is written. -/
def name : Keyword → String
  | quote => "quote" | eval => "eval" | cond => "cond" | define => "define" | letIn => "let"
  | sequence => "do" | lambda => "lambda" | load => "load" | amb => "amb"

/-- Every keyword. -/
def all : List Keyword :=
  [quote, eval, cond, define, letIn, sequence, lambda, load, amb]

/-- The keyword of a name. -/
def ofName? (s : String) : Option Keyword :=
  all.find? (·.name == s)

/-- The number of operands, where it is fixed. -/
def operands? : Keyword → Option Nat
  | quote | eval | load => some 1
  | define | letIn | lambda => some 2
  | cond | sequence | amb => none

theorem name_of_ofName? {s : String} {k : Keyword} (h : ofName? s = some k) : k.name = s := by
  simpa using List.find?_some h

end Keyword

end AmbLisp
