import AmbLisp.Text.Printable

/-!
# Quoted literals

How a message shows a piece of source text: between quotes, on one line, in printable characters
alone. Single quotes are used unless the text holds a single quote and no double one.
-/

namespace AmbLisp.Text

/-- The quote that surrounds a literal of these characters. -/
def quoteMark (cs : List Char) : Char :=
  if '\'' ∈ cs ∧ '"' ∉ cs then '"' else '\''

/-- Lower-case hexadecimal digits, filled up with zeros to `width`. -/
def hexDigits (width n : Nat) : List Char :=
  let ds := Nat.toDigits 16 n
  List.replicate (width - ds.length) '0' ++ ds

/-- A character that is not printable, by its code point in two, four or eight hexadecimal digits. -/
def escapeCode (n : Nat) : List Char :=
  if n < 0x100 then '\\' :: 'x' :: hexDigits 2 n
  else if n < 0x10000 then '\\' :: 'u' :: hexDigits 4 n
  else '\\' :: 'U' :: hexDigits 8 n

/-- One character of a literal between `mark`s. -/
def escapeChar (mark c : Char) : List Char :=
  if c = mark ∨ c = '\\' then ['\\', c]
  else if c = '\n' then ['\\', 'n']
  else if c = '\r' then ['\\', 'r']
  else if c = '\t' then ['\\', 't']
  else if isPrintable c then [c]
  else escapeCode c.toNat

/-- The literal of a text. -/
def literal (s : String) : String :=
  let mark := quoteMark s.toList
  String.ofList (mark :: s.toList.flatMap (escapeChar mark) ++ [mark])

example : literal "it's" = "\"it's\"" ∧ literal "a\n\\" = "'a\\n\\\\'" ∧
    literal "'\"" = "'\\'\"'" ∧ literal "\x00" = "'\\x00'" := by decide +kernel

end AmbLisp.Text
