import AmbLisp.Host
import AmbLisp.Value.Equality

/-!
# What primitives compute

A primitive maps its arguments to a value or a fault, and may print lines. Arithmetic is exact; only
the result has to be in range. Division and remainder round towards zero.
-/

namespace AmbLisp.Primitive

/-- Goes on if the primitive takes the number of its arguments. -/
def checked (p : Primitive) (args : List Value) (go : Except Fault Value) : Except Fault Value :=
  if p.arity.admits args.length then go else .error (.argumentCount p args.length)

/-- Goes on with the integers that the arguments are, if the primitive takes their number. -/
def onInts (p : Primitive) (args : List Value) (go : List Int → Except Fault Value) :
    Except Fault Value :=
  match args.mapM Value.int? with
  | none => .error (.notIntegers p)
  | some xs => p.checked args (go xs)

def bounded (n : Int) : Except Fault Value :=
  if Integer.inRange n then .ok (.int n) else .error .overflow

def total (xs : List Int) : Int :=
  xs.foldl (· + ·) 0

def product (xs : List Int) : Int :=
  xs.foldl (· * ·) 1

/-- The quotient of the absolute values, below zero if one of the integers is and the other one is
not. -/
def quotient (a b : Int) : Int :=
  let q : Int := (a.natAbs / b.natAbs : Nat)
  if 0 ≤ a ↔ 0 ≤ b then q else -q

def compare (p : Primitive) (args : List Value) (holds : Int → Int → Bool) : Except Fault Value :=
  p.onInts args fun xs => .ok (.bool (holds (xs.getD 0 0) (xs.getD 1 0)))

def test (p : Primitive) (args : List Value) (holds : Value → Bool) : Except Fault Value :=
  p.checked args (.ok (.bool (args.any holds)))

/-- Goes on with the head and the tail of the only argument. -/
def onCons (p : Primitive) (args : List Value) (go : Value → List Value → Value) :
    Except Fault Value :=
  p.checked args <|
    match args with
    | .list (x :: xs) :: _ => .ok (go x xs)
    | .list [] :: _ => .error (.emptyList p)
    | _ => .error (.notList p)

/-- Nothing: the empty list or `#nil`. -/
def isNothing : Value → Bool
  | .nil | .list [] => true
  | _ => false

/-- The value that a primitive computes from evaluated arguments. -/
def apply (p : Primitive) (args : List Value) : Except Fault Value :=
  match p with
  | add => p.onInts args fun xs => bounded (total xs)
  | sub => p.onInts args fun
    | [x] => bounded (-x)
    | xs => bounded (xs.headD 0 - total xs.tail)
  | mul => p.onInts args fun xs => bounded (product xs)
  | div => p.onInts args fun xs =>
    let d := total xs.tail
    if d = 0 then .error .divisionByZero else bounded (quotient (xs.headD 0) d)
  | mod => p.checked args <| p.onInts args fun xs =>
    let a := xs.headD 0
    let d := xs.getD 1 0
    if d = 0 then .error .divisionByZero else bounded (a - d * quotient a d)
  | less => p.compare args fun a b => a < b
  | greater => p.compare args fun a b => a > b
  | equal => p.compare args fun a b => a == b
  | eq => p.checked args <|
    match args with
    | [a, b] => .ok (.bool (a.equal b))
    | _ => .error (.argumentCount p args.length)
  | car => p.onCons args fun x _ => x
  | cdr => p.onCons args fun _ xs => .list xs
  | cons => p.checked args <|
    match args with
    | [x, .list xs] => .ok (.list (x :: xs))
    | _ => .error (.notList p)
  | list => .ok (.list args)
  | isNil => p.test args isNothing
  | isNumber => p.test args (·.int?.isSome)
  | isList => p.test args (·.list?.isSome)
  | isAtom => p.test args Value.isAtom
  | println => p.checked args (.ok (args.headD .nil))

/-- The values that a successful call prints, one on a line. -/
def shown (p : Primitive) (args : List Value) : List Value :=
  match p with
  | println => args
  | _ => []

/-- The lines that a successful call prints. -/
def printed (p : Primitive) (args : List Value) : List String :=
  (p.shown args).map (·.write .display)

/-- The value of a call on a host, which has to print what the call prints. -/
def call (host : Host) (p : Primitive) (args : List Value) : Except Fault Value := do
  let v ← p.apply args
  let _ ← (p.shown args).mapM host.display
  return v

end AmbLisp.Primitive
