/-!
# Line ends

A file may end its lines with a line feed, a carriage return or both; the reader sees a line feed.
-/

namespace AmbLisp.Text

/-- Unifies the line ends of a text that comes after `done`, whose last character is first. -/
def unifyLineEndsFrom (done : List Char) : List Char → List Char
  | [] => done.reverse
  | '\r' :: '\n' :: cs => unifyLineEndsFrom ('\n' :: done) cs
  | '\r' :: cs => unifyLineEndsFrom ('\n' :: done) cs
  | c :: cs => unifyLineEndsFrom (c :: done) cs

/-- A text whose lines all end in a line feed. -/
def unifyLineEnds (cs : List Char) : List Char :=
  unifyLineEndsFrom [] cs

example : unifyLineEnds "a\r\nb\rc\n".toList = "a\nb\nc\n".toList := by decide +kernel

end AmbLisp.Text
