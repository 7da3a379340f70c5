import AmbLisp.Value.Basic

/-!
# Equality

Two notions. `equal` compares data: it holds of two values that are the same tree, and never of a
function or of a list that contains one. `identical` also holds of a function and itself.
-/

namespace AmbLisp.Value

mutual

/-- The same tree of data. -/
def equal : Value → Value → Bool
  | int m, int n => m == n
  | bool a, bool b => a == b
  | sym a, sym b => a == b
  | str a, str b => a == b
  | nil, nil => true
  | list xs, list ys => equalAll xs ys
  | _, _ => false

/-- Equal element by element, and of the same length. -/
def equalAll : List Value → List Value → Bool
  | [], [] => true
  | x :: xs, y :: ys => equal x y && equalAll xs ys
  | _, _ => false

end

/-- Equal, or one and the same function. -/
def identical : Value → Value → Bool
  | prim p, prim q => p == q
  | closure s .., closure t .. => s == t
  | v, w => equal v w

/-- How many values there are when identical ones count once. -/
def countDistinct (vs : List Value) : Nat :=
  (vs.foldl (fun seen v => if seen.any (identical v) then seen else v :: seen) []).length

end AmbLisp.Value
