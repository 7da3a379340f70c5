import AmbLisp.Position
import AmbLisp.Text.Literal

/-!
# Tokens

The pieces of a source text that the reader looks at.
-/

namespace AmbLisp

/-- What sort of piece a token is. -/
inductive TokenKind where
  | integer | string | symbol | boolean | nil
  | openParen | closeParen | openBracket | closeBracket
  | quote
  | endOfText
deriving DecidableEq, Repr, Inhabited

/-- The name of a kind. -/
def TokenKind.name : TokenKind → String
  | integer => "INTEGER" | string => "STRING" | symbol => "SYMBOL" | boolean => "BOOLEAN"
  | nil => "NIL"
  | openParen => "LPAREN" | closeParen => "RPAREN"
  | openBracket => "LBRACKET" | closeBracket => "RBRACKET"
  | quote => "QUOTE"
  | endOfText => "EOF"

/-- A piece of a source text. The text of a string token is what the string holds; the text of any
other token is what is written. -/
structure Token where
  kind : TokenKind
  text : String
  pos : Position
deriving DecidableEq, Repr, Inhabited

/-- A token in one line: its kind, its text as a literal and its position. -/
def Token.inspect (t : Token) : String :=
  "Token(" ++ t.kind.name ++ ", " ++ Text.literal t.text ++ ", " ++ toString t.pos.line ++ ":" ++
    toString t.pos.col ++ ")"

end AmbLisp
