import AmbLisp.Text.DecimalDigit

/-!
# Command-line options

A command line is a list of words. Words that begin with a dash are options, with these exceptions:
a single dash, a negative number, and a word with a space in it that no option accounts for. Behind
the word `--` there are no options.

* A long option may be cut short as long as it stays unambiguous, and takes its value behind an equals
  sign or as the next word.
* Short options may be joined in one word; behind the first of them there may be an equals sign. The
  first one that takes a value takes the rest of the word, or else the next word.
* A value of two dashes in the word of its option is the separator and no value: it leaves the option
  without one.
* All files stand together: files in a second place are refused.

The first thing that is wrong refuses the whole command line, and so do words that are left over,
except that a request for help is answered as soon as it is met.
-/

namespace AmbLisp.CommandLine

/-- What an option is about. -/
inductive Switch where
  | help | execute | all | interactive | noPrelude | logLevel
deriving DecidableEq, Repr

namespace Switch

def every : List Switch :=
  [help, execute, all, interactive, noPrelude, logLevel]

def letter? : Switch → Option Char
  | help => some 'h' | execute => some 'e' | interactive => some 'i'
  | all | noPrelude | logLevel => none

def long : Switch → String
  | help => "--help" | execute => "--execute" | all => "--all" | interactive => "--interactive"
  | noPrelude => "--no-prelude" | logLevel => "--log-level"

def takesValue : Switch → Bool
  | execute | logLevel => true
  | _ => false

def ofLetter? (c : Char) : Option Switch :=
  every.find? (·.letter? == some c)

/-- The option with this form, short or long, in full. -/
def ofForm? (form : List Char) : Option Switch :=
  match form with
  | ['-', c] => ofLetter? c
  | _ => every.find? (·.long.toList == form)

/-- The options whose long forms begin like this. -/
def ofStart (start : List Char) : List Switch :=
  every.filter fun sw => start.isPrefixOf sw.long.toList

end Switch

structure Options where
  files : List String := []
  execute : Option String := none
  all : Bool := false
  /-- Start a dialogue after loading the files. -/
  interactive : Bool := false
  noPrelude : Bool := false
  /-- The name of the level from which on the journal is shown. -/
  logLevel : Option String := some "WARNING"
deriving DecidableEq, Repr

/-- How a command line is taken. -/
inductive Command where
  | run (options : Options)
  | help
  | refused
deriving DecidableEq, Repr

/-! ## One word -/

/-- What a word is, seen by itself. -/
inductive Word where
  | operand
  /-- The word behind which there are no options. -/
  | separator
  /-- An option, and what is attached to it in the word. -/
  | option (sw : Switch) (short : Bool) (attached : Option (List Char))
  | unknown
  /-- The beginning of several options. -/
  | ambiguous
deriving DecidableEq, Repr

/-- Digits of any script, at least one. -/
def isDigits (cs : List Char) : Bool :=
  !cs.isEmpty && cs.all Text.isDecimalDigit

/-- A dash and digits, or a dash and digits with a point before the last ones; a line feed may
follow. -/
def isNegativeNumber : List Char → Bool
  | '-' :: cs =>
    let cs := if cs.getLast? = some '\n' then cs.dropLast else cs
    isDigits cs ||
      match cs.dropWhile Text.isDecimalDigit with
      | '.' :: ds => isDigits ds
      | _ => false
  | _ => false

/-- The parts of a word before and behind its first equals sign. -/
def splitEquals (cs : List Char) : List Char × Option (List Char) :=
  match cs.span (· != '=') with
  | (form, _ :: value) => (form, some value)
  | (form, []) => (form, none)

/-- A word that no option accounts for. -/
def leftOver (cs : List Char) : Word :=
  if isNegativeNumber cs || cs.contains ' ' then .operand else .unknown

/-- Takes a word that begins with a dash by itself. -/
def classifyDashed (cs : List Char) : Word :=
  let (form, attached) := splitEquals cs
  match Switch.ofForm? form with
  | some sw => .option sw (form.length == 2) attached
  | none =>
    match cs with
    | '-' :: '-' :: _ =>
      match Switch.ofStart form with
      | [sw] => .option sw false attached
      | [] => leftOver cs
      | _ => .ambiguous
    | '-' :: c :: value =>
      match Switch.ofLetter? c with
      | some sw => .option sw true (some value)
      | none => leftOver cs
    | _ => .operand

/-- Takes a word by itself. -/
def classify (cs : List Char) : Word :=
  match cs with
  | '-' :: _ => if cs = ['-', '-'] then .separator else classifyDashed cs
  | _ => .operand

/-- Takes every word by itself; behind the separator all words are operands. -/
def classifyAll : List String → List (String × Word)
  | [] => []
  | w :: ws =>
    match classify w.toList with
    | .separator => (w, .separator) :: ws.map (·, .operand)
    | word => (w, word) :: classifyAll ws

/-! ## Short options in one word -/

/-- What the options joined in a word ask for. -/
structure Cluster where
  flags : List Switch := []
  /-- The last option, if its value is attached to it, and that value. -/
  valued : Option (Switch × Option String) := none
  /-- The last option, if its value is the next word. -/
  waiting : Option Switch := none

def attachedValue (cs : List Char) : Option String :=
  if cs = ['-', '-'] then none else some (String.ofList cs)

/-- Takes an option apart: `none` refuses it. -/
def cluster (sw : Switch) (short : Bool) : Option (List Char) → Option Cluster
  | none => some (if sw.takesValue then { waiting := some sw } else { flags := [sw] })
  | some value =>
    if sw.takesValue then some { valued := some (sw, attachedValue value) }
    else
      match value with
      | [] => none
      | c :: rest =>
        if !short then none
        else
          match Switch.ofLetter? c with
          | none => none
          | some next =>
            let inner :=
              match rest with
              | [] => cluster next true none
              | d :: ds => cluster next true (some (d :: ds))
            inner.map fun cl => { cl with flags := sw :: cl.flags }
termination_by attached => (attached.map (·.length + 1)).getD 0

/-! ## The whole line -/

/-- Where the files of a command line stand. -/
inductive FilesPlace where
  | ahead | here | behind
deriving DecidableEq, Repr

/-- What has been taken from a command line so far. -/
structure Taken where
  options : Options := {}
  files : FilesPlace := .ahead
  /-- Is there a word that has no meaning? -/
  leftOver : Bool := false

namespace Taken

def setValue (t : Taken) (sw : Switch) (value : Option String) : Taken :=
  match sw with
  | .execute => { t with options.execute := value }
  | .logLevel => { t with options.logLevel := value }
  | _ => t

def setFlag (t : Taken) (sw : Switch) : Taken :=
  match sw with
  | .all => { t with options.all := true }
  | .interactive => { t with options.interactive := true }
  | .noPrelude => { t with options.noPrelude := true }
  | _ => t

/-- Takes a word among the files; `file?` is the file that it names. -/
def place (t : Taken) (file? : Option String) : Taken :=
  if t.files = .behind then { t with leftOver := true }
  else { t with files := .here, options.files := t.options.files ++ file?.toList }

/-- Leaves the files behind, if they have been met. -/
def leaveFiles (t : Taken) : Taken :=
  { t with files := if t.files = .ahead then .ahead else .behind }

/-- Takes the rest of the words. -/
def words (t : Taken) : List (String × Word) → Command
  | [] => if t.leftOver then .refused else .run t.options
  | (w, .operand) :: rest => (t.place (some w)).words rest
  | (_, .separator) :: rest => (t.place none).words rest
  | (_, .unknown) :: rest => ({ t.leaveFiles with leftOver := true } : Taken).words rest
  | (_, .ambiguous) :: _ => .refused
  | (_, .option sw short attached) :: rest =>
    match cluster sw short attached with
    | none => .refused
    | some cl =>
      let t := cl.flags.foldl setFlag t.leaveFiles
      match cl.waiting with
      | none =>
        if .help ∈ cl.flags then .help
        else (cl.valued.elim t fun (sw, value) => t.setValue sw value).words rest
      | some sw =>
        match rest with
        | (value, .operand) :: rest =>
          if .help ∈ cl.flags then .help else (t.setValue sw (some value)).words rest
        | _ => .refused

end Taken

/-- What the words of a command line ask for. -/
def Command.parse (argv : List String) : Command :=
  let words := classifyAll argv
  if words.any (·.2 == .ambiguous) then .refused else ({} : Taken).words words

example : Command.parse ["a.rl", "-ie", "-5", "--log=DEBUG"] =
    .run { files := ["a.rl"], interactive := true, execute := some "-5", logLevel := some "DEBUG" } := by
  decide +kernel

example : Command.parse ["a.rl", "-i", "b.rl"] = .refused ∧
    Command.parse ["-e", "-x"] = .refused := by decide +kernel

end AmbLisp.CommandLine
