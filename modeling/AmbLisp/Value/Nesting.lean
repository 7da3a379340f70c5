import AmbLisp.Value.Basic

/-!
# How deeply values are nested

The printer descends into the elements of lists and into the parameters of closures, not into their
bodies.
-/

namespace AmbLisp.Value

mutual

/-- How deeply what is printed of a value is nested. -/
def nesting : Value → Nat
  | list items => nestingAll items + 1
  | closure _ _ params _ => nestingAll params + 1
  | _ => 0

def nestingAll : List Value → Nat
  | [] => 0
  | v :: vs => max (nesting v) (nestingAll vs)

end

end AmbLisp.Value
