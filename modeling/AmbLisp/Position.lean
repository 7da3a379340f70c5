/-!
# Positions in a source text

Lines and columns start at one and count characters. Only a line feed starts a new line.
-/

namespace AmbLisp

/-- A line and a column. -/
structure Position where
  line : Nat := 1
  col : Nat := 1
deriving DecidableEq, Repr, Inhabited

namespace Position

/-- The position behind a character that stands at `p`. -/
def after (p : Position) (c : Char) : Position :=
  if c = '\n' then ⟨p.line + 1, 1⟩ else ⟨p.line, p.col + 1⟩

/-- The position behind a text that starts at `p`. -/
def afterAll (p : Position) (cs : List Char) : Position :=
  cs.foldl after p

@[simp] theorem afterAll_nil (p : Position) : p.afterAll [] = p := rfl

@[simp] theorem afterAll_cons (p : Position) (c : Char) (cs : List Char) :
    p.afterAll (c :: cs) = (p.after c).afterAll cs := rfl

theorem afterAll_append (p : Position) (xs ys : List Char) :
    p.afterAll (xs ++ ys) = (p.afterAll xs).afterAll ys :=
  List.foldl_append

end Position

end AmbLisp
