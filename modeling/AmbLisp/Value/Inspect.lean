import AmbLisp.Text.Literal
import AmbLisp.Value.Printer

/-!
# Inspecting values

The tree of a value, each node named by its kind: for a reader who must tell `1` the integer from
`1` the symbol.
-/

namespace AmbLisp.Value

/-- Texts between brackets, with commas between them. -/
def bracketed (texts : List String) : String :=
  "[" ++ ", ".intercalate texts ++ "]"

mutual

/-- The tree of a value. -/
def inspect : Value → String
  | int n => "Integer(" ++ Integer.text n ++ ")"
  | bool true => "Boolean(True)"
  | bool false => "Boolean(False)"
  | sym name => "Symbol(" ++ Text.literal name ++ ")"
  | str text => "String(" ++ Text.literal text ++ ")"
  | nil => "NIL"
  | list items => "List(" ++ bracketed (inspectAll items) ++ ")"
  | prim p => "Primitive(" ++ Text.literal p.name ++ ")"
  | closure _ _ params _ => "Closure((" ++ spaced (writeAll .plain params) ++ "))"

/-- The trees of values. -/
def inspectAll : List Value → List String
  | [] => []
  | v :: vs => inspect v :: inspectAll vs

end

end AmbLisp.Value
