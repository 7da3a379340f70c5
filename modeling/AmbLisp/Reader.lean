import AmbLisp.Token.Lexer
import AmbLisp.Value.Basic

/-!
# The reader

Forms are read from tokens by recursive descent with one token of lookahead:

* `(form ...)` is a list, `'form` is `(quote form)`, and `[words]` is a string, the texts of the
  tokens between the brackets with one space between each and the next;
* a numeral is an integer if it is in range, and the other words and strings stand for themselves.

Reading moves on to the next token as soon as one is used, so that a lexical error in the lookahead
comes before any complaint about the token itself.

Two limits of the host bear on reading. A numeral with more than `Integer.maxConverted` digits is not
converted at all, even if most of them are zeros in front; this limit is taken to be the one that is set
by default. And the forms of a text may be nested only so deeply, as reading takes a level of the stack
for each. Reading itself goes on here however deep they are: `formNesting` and `programNesting` tell how
deep that is, and whoever has a text read on a host asks them first.
-/

namespace AmbLisp

/-- The state of reading: the token in view, and those behind it. -/
structure Lookahead where
  current : Token
  pending : List (Except ReadError Token)

/-- Steps that are enough to read all that is ahead: every form costs a token, and every token at
most two steps. -/
def Lookahead.steps (s : Lookahead) : Nat :=
  2 * s.pending.length + 4

/-- A part of the reader. An error leaves a state in which reading can go on. -/
abbrev ReadM := ExceptT ReadError (StateM Lookahead)

namespace Reader

/-- The state before the first token of a source text. -/
def start (source : String) : Except ReadError Lookahead :=
  match (Cursor.ofSource source).tokens with
  | .ok token :: pending => .ok ⟨token, pending⟩
  | .error e :: _ => .error e
  | [] => .error ⟨.noForm, {}⟩

/-- The token in view. -/
def current : ReadM Token :=
  return (← get).current

/-- Is the whole text read? -/
def atEnd : ReadM Bool :=
  return (← current).kind = .endOfText

/-- Moves on, and returns the token that was in view. If the next token cannot be read, the view
stays where it is. -/
def advance : ReadM Token := do
  let s ← get
  match s.pending with
  | [] => return s.current
  | .ok token :: pending =>
    set (⟨token, pending⟩ : Lookahead)
    return s.current
  | .error e :: pending =>
    set (⟨s.current, pending⟩ : Lookahead)
    throw e

/-- The integer of a numeral. -/
def integer (token : Token) : Except ReadError Value :=
  let cs := token.text.toList
  let digits := (Integer.unsigned cs).length
  if (Integer.significant cs).length > Integer.maxDigits then .error ⟨.integerTooLong, token.pos⟩
  else if digits > Integer.maxConverted then .error ⟨.unconverted digits, token.pos⟩
  else if Integer.inRange (Integer.value cs) then .ok (.int (Integer.value cs))
  else .error ⟨.integerOutOfRange token.text, token.pos⟩

/-- The texts of the tokens up to a closing bracket; `opening` is where the bracket string began. -/
def words (opening : Position) : Nat → ReadM (List String)
  | 0 => throw ⟨.unclosedString, opening⟩
  | n + 1 => do
    if (← current).kind = .closeBracket then
      let _ ← advance
      return []
    if ← atEnd then throw ⟨.unclosedString, opening⟩
    let token ← advance
    let rest ← words opening n
    return token.text :: rest

/-- A bracket string; the token in view, whatever it is, counts as its opening bracket. -/
def bracketString (n : Nat) : ReadM Value := do
  let opening ← advance
  let texts ← words opening.pos n
  return .str (" ".intercalate texts)

mutual

/-- One form. -/
def form : Nat → ReadM Value
  | 0 => do throw ⟨.unexpectedEnd, (← current).pos⟩
  | n + 1 => do
    let token ← current
    match token.kind with
    | .openParen =>
      let opening ← advance
      let items ← forms opening.pos n
      return .list items
    | .openBracket => bracketString n
    | .quote =>
      let _ ← advance
      if ← atEnd then throw ⟨.nothingAfterQuote, token.pos⟩
      let v ← form n
      return .quotation v
    | .integer =>
      let _ ← advance
      integer token
    | .boolean =>
      let _ ← advance
      return .bool (token.text == "#t")
    | .nil =>
      let _ ← advance
      return .nil
    | .string =>
      let _ ← advance
      return .str token.text
    | .symbol =>
      let _ ← advance
      return .sym token.text
    | .endOfText => throw ⟨.unexpectedEnd, token.pos⟩
    | .closeParen | .closeBracket => throw ⟨.unexpected token.text, token.pos⟩

/-- The forms up to a closing parenthesis; `opening` is where the list began. -/
def forms (opening : Position) : Nat → ReadM (List Value)
  | 0 => throw ⟨.unclosedList, opening⟩
  | n + 1 => do
    if (← current).kind = .closeParen then
      let _ ← advance
      return []
    if ← atEnd then throw ⟨.unclosedList, opening⟩
    let v ← form n
    let vs ← forms opening n
    return v :: vs

end

/-- The forms up to the end of the text. -/
def program : Nat → ReadM (List Value)
  | 0 => return []
  | n + 1 => do
    if ← atEnd then return []
    let v ← form n
    let vs ← program n
    return v :: vs

def readForm : ReadM Value := do
  form (← get).steps

/-- A list; the token in view, whatever it is, counts as its opening parenthesis. -/
def readList : ReadM Value := do
  let n := (← get).steps
  let opening ← advance
  let items ← forms opening.pos n
  return .list items

/-- A bracket string, whatever its size. -/
def readBracketString : ReadM Value := do
  bracketString (← get).steps

/-- Runs a part of the reader on a source text. -/
def onSource (source : String) (read : ReadM α) : Except ReadError α := do
  (read.run.run (← start source)).1

/-- Exactly one form, and nothing behind it. -/
def onlyForm : ReadM Value := do
  if ← atEnd then throw ⟨.noForm, (← current).pos⟩
  let v ← readForm
  if !(← atEnd) then
    let token ← current
    throw ⟨.trailing token.text, token.pos⟩
  return v

def parse (source : String) : Except ReadError Value :=
  onSource source onlyForm

def parseProgram (source : String) : Except ReadError (List Value) :=
  onSource source do program (← get).steps

/-! ## How deeply forms are nested -/

/-- A form that is not complete yet: a list, or a quotation. -/
inductive Enclosure where
  | list
  | quotation

/-- Where reading stands between two tokens: in these forms, the innermost one first, and perhaps in a
bracket string. -/
structure Standing where
  enclosures : List Enclosure := []
  inWords : Bool := false

namespace Standing

/-- Behind a form the quotations are complete that it ends. Reading goes on behind a form that is in no
other one if `more` may follow. -/
def behindForm (more : Bool) : List Enclosure → Option Standing
  | .quotation :: outer => behindForm more outer
  | [] => if more then some {} else none
  | enclosures => some { enclosures }

/-- Where reading stands behind a token, unless it ends there. -/
def next? (more : Bool) (s : Standing) (token : Token) : Option Standing :=
  if s.inWords then
    match token.kind with
    | .closeBracket => behindForm more s.enclosures
    | .endOfText => none
    | _ => some s
  else
    match token.kind with
    | .openParen => some { enclosures := .list :: s.enclosures }
    | .quote => some { enclosures := .quotation :: s.enclosures }
    | .openBracket => some { s with inWords := true }
    | .closeParen =>
      match s.enclosures with
      | .list :: outer => behindForm more outer
      | _ => none
    | .integer => if (integer token).isOk then behindForm more s.enclosures else none
    | .boolean | .nil | .string | .symbol => behindForm more s.enclosures
    | .closeBracket | .endOfText => none

/-- The greatest number of forms in each other while these tokens are read. -/
def deepest (more : Bool) (s : Standing) : List (Except ReadError Token) → Nat
  | .ok token :: rest =>
    max s.enclosures.length ((s.next? more token).elim 0 (·.deepest more rest))
  | _ => s.enclosures.length

end Standing

/-- How deeply the only form of a source text is nested, as far as it is read. -/
def formNesting (source : String) : Nat :=
  Standing.deepest false {} (Cursor.ofSource source).tokens

/-- How deeply the forms of a source text are nested, as far as they are read. -/
def programNesting (source : String) : Nat :=
  Standing.deepest true {} (Cursor.ofSource source).tokens

end Reader

end AmbLisp
