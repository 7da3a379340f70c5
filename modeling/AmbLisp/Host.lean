import AmbLisp.Disk.Basic
import AmbLisp.Fault
import AmbLisp.Value.Nesting
import AmbLisp.Value.Printer

/-!
# Hosts

A program runs on a host, which has the files and sets limits: to how deeply what is read or printed
may be nested, and to the characters that can be written. Each limit is taken by itself and is the same
everywhere, and a list and a quotation count for it as one level each. On a machine where reading,
evaluating and printing share one stack, the limits depend on what else is going on, and a list may need
more of the stack than a quotation. How deeply values may be nested to be compared is not limited here
at all.
-/

namespace AmbLisp

/-- What a program runs on. -/
structure Host where
  disk : Disk := Disk.empty
  /-- How deeply the forms of a source text may be nested. -/
  readable : Nat := 900
  /-- How deeply what is printed of a value may be nested. -/
  printable : Nat := 400
  /-- Does the encoding of the output have this character? -/
  encodes : Char → Bool := fun _ => true

/-- A disk, on a host that writes every character. -/
instance : Coe Disk Host := ⟨fun disk => { disk }⟩

namespace Host

variable (host : Host)

/-- The text of a value in a style. -/
def print (st : Style) (v : Value) : Except Fault String :=
  if v.nesting ≤ host.printable then .ok (v.write st) else .error .tooDeep

/-- A text that is to be written, if it can be. -/
def encode (text : String) : Except Fault String :=
  match text.toList.find? (!host.encodes ·) with
  | none => .ok text
  | some c => .error (.unencodable c)

/-- The text of a value on the output. -/
def display (v : Value) : Except Fault String := do
  host.encode (← host.print .display v)

end Host

end AmbLisp
