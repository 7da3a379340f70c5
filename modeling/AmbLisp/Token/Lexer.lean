import AmbLisp.Integer
import AmbLisp.ReadError
import AmbLisp.SignedIndex
import AmbLisp.Text.Blank
import AmbLisp.Token.Basic

/-!
# The lexer

A source text is a sequence of lexemes with gaps between them. A gap is made of blanks, commas and
comments. Each of the functions `splitGap`, `splitWord` and `stringBody?` cuts one piece off the
front of a text; a `Cursor` moves over such a piece and keeps count of its position.

After an error the cursor stands behind the whole text: an unterminated string takes up all of it.
-/

namespace AmbLisp

/-! ## Pieces of a text -/

/-- Ends a bare word. -/
def isDelimiter (c : Char) : Bool :=
  ['(', ')', '[', ']', '\'', '"', ';', ','].contains c

/-- Can stand in a bare word. -/
def isWordChar (c : Char) : Bool :=
  !Text.isBlank c && !isDelimiter c

/-- Cuts the longest gap off a text. A semicolon starts a comment, a line feed ends it. -/
def splitGap (inComment : Bool) : List Char → List Char × List Char
  | [] => ([], [])
  | c :: cs =>
    if inComment || Text.isBlank c || c == ',' || c == ';' then
      let (gap, rest) := splitGap ((inComment || c == ';') && c != '\n') cs
      (c :: gap, rest)
    else ([], c :: cs)

/-- Cuts the longest bare word off a text; it may be empty. -/
def splitWord (cs : List Char) : List Char × List Char :=
  (cs.takeWhile isWordChar, cs.dropWhile isWordChar)

/-- What a character stands for behind a backslash. -/
def unescape : Char → Char
  | 'n' => '\n'
  | 't' => '\t'
  | c => c

/-- The inside of a string, up to its closing quote. -/
structure StringBody where
  content : List Char
  /-- What is written, with the closing quote. -/
  written : List Char
  rest : List Char
deriving Repr

/-- The inside of a string whose opening quote has been read, if it is ever closed. -/
def stringBody? : List Char → Option StringBody
  | [] => none
  | '"' :: cs => some ⟨[], ['"'], cs⟩
  | '\\' :: c :: cs =>
    (stringBody? cs).map fun b => ⟨unescape c :: b.content, '\\' :: c :: b.written, b.rest⟩
  | c :: cs => (stringBody? cs).map fun b => ⟨c :: b.content, c :: b.written, b.rest⟩

def wordKind (cs : List Char) : TokenKind :=
  if Integer.isNumeral cs then .integer
  else if cs = ['#', 't'] ∨ cs = ['#', 'f'] then .boolean
  else if cs = ['#', 'n', 'i', 'l'] then .nil
  else .symbol

def punctuation? : Char → Option TokenKind
  | '(' => some .openParen
  | ')' => some .closeParen
  | '[' => some .openBracket
  | ']' => some .closeBracket
  | '\'' => some .quote
  | _ => none

/-! ## Nothing is lost -/

theorem splitGap_append (inComment : Bool) (cs : List Char) :
    (splitGap inComment cs).1 ++ (splitGap inComment cs).2 = cs := by
  induction cs generalizing inComment with
  | nil => rfl
  | cons c cs ih =>
    rw [splitGap]
    split
    · exact congrArg (c :: ·) (ih _)
    · rfl

theorem splitWord_append (cs : List Char) : (splitWord cs).1 ++ (splitWord cs).2 = cs :=
  List.takeWhile_append_dropWhile

theorem written_append_rest {cs : List Char} {b : StringBody} (h : stringBody? cs = some b) :
    b.written ++ b.rest = cs := by
  fun_induction stringBody? cs generalizing b with
  | case1 => simp at h
  | case2 cs =>
    obtain rfl := Option.some.inj h
    rfl
  | case3 c cs ih =>
    obtain ⟨b', hb, rfl⟩ := Option.map_eq_some_iff.1 h
    simp [ih hb]
  | case4 c cs _ _ ih =>
    obtain ⟨b', hb, rfl⟩ := Option.map_eq_some_iff.1 h
    simp [ih hb]

/-! ## The cursor -/

/-- A place in a source text: what lies behind it, the last character first, and what lies ahead. -/
structure Cursor where
  behind : List Char := []
  rest : List Char
  pos : Position := {}
deriving Repr, Inhabited

namespace Cursor

def ofSource (source : String) : Cursor :=
  { rest := source.toList }

def text (c : Cursor) : List Char :=
  c.behind.reverse ++ c.rest

/-- How many characters lie behind. -/
def offset (c : Cursor) : Nat :=
  c.behind.length

/-- Is there a place `k` places ahead, or behind if `k` is negative? Ahead there always is one, in the
text or past its end. Behind, what would lie before the beginning is looked for before the end of the
text instead, as far as the text reaches. -/
def canPeek (c : Cursor) (k : Int) : Bool :=
  SignedIndex.reaches c.text (c.offset + k)

/-- The character `k` places ahead, or behind if `k` is negative; see `canPeek`. -/
def peek (c : Cursor) (k : Int) : Option Char :=
  SignedIndex.get? c.text (c.offset + k)

/-- The cursor behind a piece of text that `rest` follows. -/
def past (c : Cursor) (piece rest : List Char) : Cursor :=
  ⟨piece.reverse ++ c.behind, rest, c.pos.afterAll piece⟩

theorem text_past (c : Cursor) (piece rest : List Char) :
    (c.past piece rest).text = c.behind.reverse ++ (piece ++ rest) := by
  simp [past, text]

/-- The cursor behind the next character, if there is one. -/
def advance (c : Cursor) : Cursor :=
  c.past (c.rest.take 1) (c.rest.drop 1)

/-- The cursor behind the gap ahead. -/
def skipGap (c : Cursor) : Cursor :=
  let (gap, rest) := splitGap false c.rest
  c.past gap rest

def readWord (c : Cursor) : Token × Cursor :=
  let (word, rest) := splitWord c.rest
  (⟨wordKind word, String.ofList word, c.pos⟩, c.past word rest)

/-- Reads a string; the next character, whatever it is, counts as its opening quote. -/
def readString (c : Cursor) : Except ReadError Token × Cursor :=
  match stringBody? (c.rest.drop 1) with
  | some body =>
    (.ok ⟨.string, String.ofList body.content, c.pos⟩,
      c.past (c.rest.take 1 ++ body.written) body.rest)
  | none => (.error ⟨.unterminatedString, c.pos⟩, c.past c.rest [])

/-- Reads the token behind the gap ahead. -/
def next (c : Cursor) : Except ReadError Token × Cursor :=
  let c := c.skipGap
  match c.rest with
  | [] => (.ok ⟨.endOfText, "", c.pos⟩, c)
  | ch :: _ =>
    match punctuation? ch with
    | some kind => (.ok ⟨kind, String.singleton ch, c.pos⟩, c.advance)
    | none =>
      if ch = '"' then c.readString
      else
        let (token, c) := c.readWord
        (.ok token, c)

/-- At most `n` of the tokens ahead. -/
def tokensWithin : Nat → Cursor → List (Except ReadError Token)
  | 0, _ => []
  | n + 1, c =>
    match c.next with
    | (.ok token, c) =>
      if token.kind = .endOfText then [.ok token] else .ok token :: tokensWithin n c
    | (.error e, c) => .error e :: tokensWithin n c

/-- What the text ahead consists of: tokens, the last one the end of the text, and perhaps an error
before it. Every token but the last is at least one character long. -/
def tokens (c : Cursor) : List (Except ReadError Token) :=
  tokensWithin (c.rest.length + 1) c

end Cursor

/-- The tokens of a source text, or its lexical error. -/
def tokenize (source : String) : Except ReadError (List Token) :=
  (Cursor.ofSource source).tokens.mapM id

end AmbLisp
