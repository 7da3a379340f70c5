/-!
# Paths

A path is names with slashes between them. Its normal form has no empty name, no single dot and no
slash at its end; two dots stay, since they mean the parent of wherever the names before them lead.
A path that begins with one slash, or with more than two, is absolute; exactly two slashes are kept.
-/

namespace AmbLisp.Disk.Path

/-- The names between the slashes, empty ones included. -/
def pieces : List Char → List (List Char)
  | [] => [[]]
  | c :: cs =>
    if c = '/' then [] :: pieces cs
    else
      match pieces cs with
      | [] => [[c]]
      | name :: names => (c :: name) :: names

/-- The names that lead somewhere. -/
def names (path : String) : List String :=
  ((pieces path.toList).map String.ofList).filter fun name => name ≠ "" ∧ name ≠ "."

/-- The slashes that a normal path keeps at its front. -/
def root (path : String) : String :=
  match (path.toList.takeWhile (· = '/')).length with
  | 0 => ""
  | 2 => "//"
  | _ => "/"

/-- Starts from the root of all folders. -/
def isAbsolute (path : String) : Bool :=
  root path ≠ ""

/-- The normal form of a path. -/
def normalize (path : String) : String :=
  let text := root path ++ "/".intercalate (names path)
  if text = "" then "." else text

example : normalize "./x//y/../z/" = "x/y/../z" ∧ normalize "" = "." ∧ normalize "///a" = "/a" ∧
    normalize "//" = "//" := by decide +kernel

end AmbLisp.Disk.Path
