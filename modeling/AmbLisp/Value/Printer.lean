import AmbLisp.Integer
import AmbLisp.Value.Basic

/-!
# Printing values

Values are written in three styles. `readable` is what the reader takes back: strings are quoted and
`(quote v)` is written `'v`. `display` leaves strings as they are. `plain` leaves strings as they are
and has no shorthand for `quote`.
-/

namespace AmbLisp

/-- One character of a quoted string. -/
def escapeInString : Char → List Char
  | '\\' => ['\\', '\\']
  | '"' => ['\\', '"']
  | '\n' => ['\\', 'n']
  | '\t' => ['\\', 't']
  | c => [c]

/-- A text as a string literal of the language. -/
def quoteString (text : String) : String :=
  String.ofList ('"' :: text.toList.flatMap escapeInString ++ ['"'])

inductive Style where
  | readable
  | display
  | plain
deriving DecidableEq, Repr

/-- The style of the parameters of a closure that is written in style `st`. -/
def Style.ofParams : Style → Style
  | plain => plain
  | _ => readable

/-- Texts, with one space between each and the next. -/
def spaced (texts : List String) : String :=
  " ".intercalate texts

namespace Value

mutual

/-- The text of a value in a style. -/
def write (st : Style) : Value → String
  | int n => Integer.text n
  | bool true => "#t"
  | bool false => "#f"
  | sym name => name
  | str text => if st = .readable then quoteString text else text
  | nil => "#nil"
  | list items =>
    let texts := writeAll st items
    if st ≠ .plain ∧ isQuotation items then "'" ++ spaced (texts.drop 1)
    else "(" ++ spaced texts ++ ")"
  | prim p => "#<primitive " ++ p.name ++ ">"
  | closure _ _ params _ => "#<closure (" ++ spaced (writeAll st.ofParams params) ++ ")>"

def writeAll (st : Style) : List Value → List String
  | [] => []
  | v :: vs => write st v :: writeAll st vs

end

/-- The readable text of a value. -/
def print (v : Value) : String :=
  v.write .readable

example : (quotation (list [sym "a", str "b c"])).print = "'(a \"b c\")" := by decide +kernel

end Value

end AmbLisp
