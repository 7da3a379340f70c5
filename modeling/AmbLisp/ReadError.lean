import AmbLisp.Integer
import AmbLisp.Position
import AmbLisp.Text.Literal

/-!
# Errors of reading

What is wrong with a source text, and where.
-/

namespace AmbLisp

/-- What is wrong with a source text. -/
inductive ReadError.Reason where
  | unterminatedString
  /-- A numeral has more significant digits than any integer. -/
  | integerTooLong
  | integerOutOfRange (numeral : String)
  /-- A numeral has more digits than are ever converted, most of them zeros in front. -/
  | unconverted (digits : Nat)
  | nothingAfterQuote
  | unclosedList
  | unclosedString
  /-- The text ends where a form is expected. -/
  | unexpectedEnd
  /-- A token that cannot begin a form. -/
  | unexpected (text : String)
  | noForm
  /-- A token behind the only form that is expected. -/
  | trailing (text : String)
deriving DecidableEq, Repr

def ReadError.Reason.message : ReadError.Reason → String
  | .unterminatedString => "Unterminated string"
  | .integerTooLong => "Integer literal out of range"
  | .integerOutOfRange numeral => "Integer literal out of range: " ++ numeral
  | .unconverted digits =>
    "Exceeds the limit (" ++ toString Integer.maxConverted ++
      " digits) for integer string conversion: value has " ++ toString digits ++
      " digits; use sys.set_int_max_str_digits() to increase the limit"
  | .nothingAfterQuote => "Expected expression after quote"
  | .unclosedList => "Unclosed list"
  | .unclosedString => "Unclosed string"
  | .unexpectedEnd => "Unexpected end of input"
  | .unexpected text => "Unexpected " ++ Text.literal text
  | .noForm => "No valid tokens found"
  | .trailing text => "Unexpected " ++ Text.literal text ++ " after expression"

/-- A reason why a source text cannot be read, and its position. -/
structure ReadError where
  reason : ReadError.Reason
  pos : Position
deriving DecidableEq, Repr

def ReadError.message (e : ReadError) : String :=
  e.reason.message ++ " at line " ++ toString e.pos.line ++ ", col " ++ toString e.pos.col

end AmbLisp
