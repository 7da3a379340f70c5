/-!
# Decoding UTF-8

A decoder that takes one byte at a time and refuses a text at the first byte that no UTF-8 text can
have there, saying which of three things is wrong. Between characters it is at a `boundary`; inside
one it knows how many bytes are still owed and between which bounds the next one lies, which rules
out overlong forms, surrogates and code points above U+10FFFF.
-/

namespace AmbLisp.Text.Utf8

/-- Why bytes are not UTF-8. -/
inductive Flaw where
  | startByte
  /-- A byte inside a character that cannot stand there. -/
  | continuationByte
  | unexpectedEnd
deriving DecidableEq, Repr

def Flaw.message : Flaw → String
  | .startByte => "invalid start byte"
  | .continuationByte => "invalid continuation byte"
  | .unexpectedEnd => "unexpected end of data"

/-- Where the decoder stands between two bytes. -/
inductive State where
  | boundary
  /-- Inside a character: `owed + 1` bytes are missing, the next lies in `[low, high]`, and the bits
  read so far are `code`. -/
  | inside (owed low high code : Nat)
deriving DecidableEq, Repr

/-- The first byte of a character: the character, or what it owes. -/
def first (b : Nat) : Except Flaw (State × Option Char) :=
  if b < 0x80 then .ok (.boundary, some (Char.ofNat b))
  else if b < 0xc2 then .error .startByte
  else if b < 0xe0 then .ok (.inside 0 0x80 0xbf (b % 0x20), none)
  else if b < 0xf0 then
    .ok (.inside 1 (if b = 0xe0 then 0xa0 else 0x80) (if b = 0xed then 0x9f else 0xbf) (b % 0x10),
      none)
  else if b < 0xf5 then
    .ok (.inside 2 (if b = 0xf0 then 0x90 else 0x80) (if b = 0xf4 then 0x8f else 0xbf) (b % 0x08),
      none)
  else .error .startByte

/-- One byte: the new state, and the character that it completes. -/
def step : State → Nat → Except Flaw (State × Option Char)
  | .boundary, b => first b
  | .inside owed low high code, b =>
    if b < low ∨ high < b then .error .continuationByte
    else
      let code := code * 0x40 + b % 0x40
      match owed with
      | 0 => .ok (.boundary, some (Char.ofNat code))
      | owed + 1 => .ok (.inside owed 0x80 0xbf code, none)

/-- The rest of a text, after the characters `done`, the last one first. -/
def decodeFrom (done : List Char) : State → List UInt8 → Except Flaw (List Char)
  | .boundary, [] => .ok done.reverse
  | .inside .., [] => .error .unexpectedEnd
  | s, b :: bs =>
    match step s b.toNat with
    | .ok (s, some c) => decodeFrom (c :: done) s bs
    | .ok (s, none) => decodeFrom done s bs
    | .error flaw => .error flaw

/-- The text that bytes encode. -/
def decode (bs : List UInt8) : Except Flaw (List Char) :=
  decodeFrom [] .boundary bs

example : decode [0x61, 0xc3, 0xa9, 0xf0, 0x9f, 0x98, 0x80] =
    .ok ['a', Char.ofNat 0xe9, Char.ofNat 0x1f600] := rfl

example : decode [0xff] = .error .startByte ∧ decode [0xed, 0xa0] = .error .continuationByte ∧
    decode [0xe2, 0x82] = .error .unexpectedEnd := ⟨rfl, rfl, rfl⟩

end AmbLisp.Text.Utf8
