import AmbLisp.Disk.Basic
import AmbLisp.Keyword
import AmbLisp.Primitive
import AmbLisp.ReadError
import AmbLisp.Text.Utf8

/-!
# Faults

Why an evaluation, or a request to a session, has no value. A fault is a cause with its data; its
wording is `Fault.message`, and its `Fault.Kind` tells apart what a caller may want to tell apart.
-/

namespace AmbLisp

/-- What is wrong with the shape of a special form that has the right number of operands. -/
inductive Malformed where
  | condClause
  | defineName
  | letBindings
  | letBinding
  | letName
  | lambdaParams
deriving DecidableEq, Repr

def Malformed.message : Malformed → String
  | condClause => "Wrong pattern for cond"
  | defineName => "first arg of define must be a symbol"
  | letBindings => "Arguments of binding lists must be pairs"
  | letBinding => "bindings in let need to be lists of len 2"
  | letName => "first element of a let binding must be a symbol"
  | lambdaParams => "lambda takes a list of parameters and an s-expression as body"

/-- Why a source file has no text. -/
inductive LoadFailure where
  | refused (why : Disk.Refusal)
  | notUtf8 (flaw : Text.Utf8.Flaw)
deriving DecidableEq, Repr

def LoadFailure.message : LoadFailure → String
  | refused why => why.message
  | notUtf8 flaw => "not valid UTF-8 text (" ++ flaw.message ++ ")"

/-- Why there is no value. -/
inductive Fault where
  | read (e : ReadError)
  /-- A numeral has too many digits to be converted. -/
  | longNumeral (digits : Nat)
  /-- No scope of the chain binds the name. -/
  | unbound (name : String)
  /-- A primitive does not take this number of arguments. -/
  | argumentCount (p : Primitive) (got : Nat)
  /-- A special form does not take this number of operands. -/
  | operandCount (k : Keyword) (got : Nat)
  | parameterCount (expected got : Nat)
  | notIntegers (p : Primitive)
  | notList (p : Primitive)
  | emptyList (p : Primitive)
  | notFunction
  | paramName
  | malformed (m : Malformed)
  | loadName
  /-- The result is not an integer that fits. -/
  | overflow
  | divisionByZero
  | cannotLoad (path : String) (why : LoadFailure)
  /-- A choice point has no candidate left. -/
  | noChoice
  /-- The search space of a problem is used up. -/
  | noMoreValues
  | noProblem
  | tooDeep
  /-- A search goes on longer than it is followed. -/
  | tooManyPasses
  /-- A path contains the character that ends all paths. -/
  | nulInPath
  /-- The output cannot take a character. -/
  | unencodable (c : Char)
  /-- A file is needed that has not been fetched yet. -/
  | pendingFile (path : String)
deriving DecidableEq, Repr

namespace Fault

/-- What a text that cannot be read comes to. It is no fault of the text if a numeral in it is not
converted. -/
def ofRead (e : ReadError) : Fault :=
  match e.reason with
  | .unconverted digits => longNumeral digits
  | _ => read e

/-- What a caller can tell apart. -/
inductive Kind where
  | parse | eval | unbound | arity | wrongType
  | choiceExhausted | noMoreValues | noProblem
  /-- A limit of the machine, not of the language. -/
  | limit
  /-- Not a fault of the program: nothing inside the language can answer it. -/
  | outside
deriving DecidableEq, Repr

def kind : Fault → Kind
  | read _ => .parse
  | unbound _ => .unbound
  | argumentCount .. | operandCount .. | parameterCount .. => .arity
  | notIntegers _ | notList _ | notFunction | paramName | malformed _ | loadName => .wrongType
  | emptyList _ | overflow | divisionByZero | cannotLoad .. => .eval
  | noChoice => .choiceExhausted
  | noMoreValues => .noMoreValues
  | noProblem => .noProblem
  | tooDeep => .limit
  | longNumeral _ | tooManyPasses | nulInPath | unencodable _ | pendingFile _ => .outside

/-- A number of things, in words. -/
def counted (n : Nat) (noun : String) : String :=
  toString n ++ " " ++ noun ++ if n = 1 then "" else "s"

def argumentMessage (p : Primitive) (got : Nat) : String :=
  match p with
  | .add | .sub | .mul => p.name ++ " needs at least 1 parameter"
  | .div => p.name ++ " needs min 2 params"
  | .less | .greater | .equal => p.name ++ " needs exactly 2 args"
  | _ =>
    match p.arity with
    | .exactly n => p.name ++ " takes exactly " ++ counted n "argument" ++ ", got " ++ toString got
    | .atLeast n => p.name ++ " takes at least " ++ counted n "argument" ++ ", got " ++ toString got

def message : Fault → String
  | read e => e.message
  | longNumeral digits => (ReadError.Reason.unconverted digits).message
  | unbound name => "Symbol " ++ name ++ " not found"
  | argumentCount p got => argumentMessage p got
  | operandCount k got =>
    k.name ++ " takes exactly " ++ counted (k.operands?.getD 0) "arg" ++ ", got " ++ toString got
  | parameterCount expected got =>
    "Number of arguments are not matching: expected " ++ toString expected ++ ", got " ++
      toString got
  | notIntegers p => p.name ++ ": wrong kind of arguments, expected integers"
  | notList p => p.name ++ " expects a list"
  | emptyList p => p.name ++ " needs a list of min len 1"
  | notFunction => "Expected function to apply"
  | paramName => "In self defined functions, parameter names must be Symbols"
  | malformed m => m.message
  | loadName => "load needs a string as argument"
  | overflow => "integer overflow"
  | divisionByZero => "cant divide by zero"
  | cannotLoad path why => "Cannot load " ++ path ++ ": " ++ why.message
  | noChoice => "No choices left for choice point"
  | noMoreValues => "There are no more values"
  | noProblem => "No current problem"
  | tooDeep => "maximum recursion depth exceeded"
  | tooManyPasses => "maximum number of passes exceeded"
  | nulInPath => "embedded null byte"
  | unencodable c => "cannot encode character " ++ Text.literal (String.singleton c)
  | pendingFile path => "file not fetched: " ++ path

end Fault

end AmbLisp
