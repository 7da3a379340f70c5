import AmbLisp.Proofs.Session.Sound
import AmbLisp.Proofs.Value.Equality

/-!
# The functions of the prelude

What the definitions of the prelude read as (`Prelude.forms_eq`), and what a new session binds on
their account: each function as a closure over the global scope, in the order of the definitions
(`Store.initial_true_eq`).
-/

namespace AmbLisp

/-- What the characters of a text read as. To read a literal by its characters is much less work than
to take it apart. -/
def Reader.parseChars (cs : List Char) : Except ReadError Value :=
  match ({ rest := cs } : Cursor).tokens with
  | .ok token :: pending => (onlyForm.outcome ⟨token, pending⟩).1
  | .error e :: _ => .error e
  | [] => .error ⟨.noForm, {}⟩

theorem Reader.parse_ofList (cs : List Char) : parse (String.ofList cs) = parseChars cs := by
  rw [parse, onSource_eq, start, Cursor.ofSource, String.toList_ofList, parseChars]
  rcases ({ rest := cs } : Cursor).tokens with _ | ⟨_ | token, pending⟩ <;> rfl

/-- The application of what a name is bound to. -/
def Value.call (name : String) (args : List Value) : Value :=
  .list (.sym name :: args)

namespace Prelude

/-- A function that is defined in the language itself. -/
structure Function where
  name : String
  params : List String
  body : Value

namespace Function

open Value (call)

/-- The form that defines the function. -/
def definition (f : Function) : Value :=
  call Keyword.define.name [.sym f.name,
    call Keyword.lambda.name [.list (f.params.map .sym), f.body]]

/-- A part of a list, by the parts to be taken one after the other, the last one first. -/
def part (name : String) (path : List String) : Function :=
  ⟨name, ["x"], path.foldr (fun f arg => call f [arg]) (.sym "x")⟩

def not : Function :=
  ⟨"not", ["x"], call "cond" [.list [.sym "x", .bool false], .list [.bool true, .bool true]]⟩

def require : Function :=
  ⟨"require", ["p"], call "cond" [.list [.sym "p", .bool true], .list [.bool true, call "amb" []]]⟩

/-- The body of a function that offers `first` and then `rest`, as long as `test` is not true. -/
def offering (test first rest : Value) : Value :=
  call "do" [call "require" [call "not" [test]], call "amb" [first, rest]]

def anElementOf : Function :=
  ⟨"an-element-of", ["items"], offering (call "nil?" [.sym "items"]) (call "car" [.sym "items"])
    (call "an-element-of" [call "cdr" [.sym "items"]])⟩

def anIntegerBetween : Function :=
  ⟨"an-integer-between", ["low", "high"], offering (call ">" [.sym "low", .sym "high"]) (.sym "low")
    (call "an-integer-between" [call "+" [.sym "low", .int 1], .sym "high"])⟩

def member : Function :=
  ⟨"member?", ["x", "items"], call "cond" [
    .list [call "nil?" [.sym "items"], .bool false],
    .list [call "eq?" [.sym "x", call "car" [.sym "items"]], .bool true],
    .list [.bool true, call "member?" [.sym "x", call "cdr" [.sym "items"]]]]⟩

def distinct : Function :=
  ⟨"distinct?", ["items"], call "cond" [
    .list [call "nil?" [.sym "items"], .bool true],
    .list [call "member?" [call "car" [.sym "items"], call "cdr" [.sym "items"]], .bool false],
    .list [.bool true, call "distinct?" [call "cdr" [.sym "items"]]]]⟩

end Function

open Prelude.Function

/-- The functions of the prelude, in the order in which they are defined. -/
def functions : List Function := [
  part "caar" ["car", "car"], part "cadr" ["car", "cdr"], part "cddr" ["cdr", "cdr"],
  part "caddr" ["cadr", "cdr"], part "cadar" ["cadr", "car"], part "caddar" ["caddr", "car"],
  part "cddar" ["cddr", "car"], part "caadar" ["caar", "cdr", "car"],
  not, require, anElementOf, anIntegerBetween, member, distinct]

/-- The names that the prelude defines. -/
def names : List String :=
  functions.map (·.name)

set_option maxRecDepth 4000 in
theorem equalAll_forms : ∃ texts : List (List Char), definitions = texts.map String.ofList ∧
    Value.equalAll (texts.filterMap fun cs => (Reader.parseChars cs).toOption)
      (functions.map definition) = true :=
  ⟨[_, _, _, _, _, _, _, _, _, _, _, _, _, _], rfl, by decide +kernel⟩

/-- **The prelude reads as the definitions of its functions.** -/
theorem forms_eq : forms = functions.map definition := by
  obtain ⟨texts, htexts, hequal⟩ := equalAll_forms
  rw [forms, htexts, List.filterMap_map, ← Value.eq_of_equalAll hequal]
  refine congrArg (List.filterMap · texts) (funext fun cs => ?_)
  rw [Function.comp_apply, Reader.parse_ofList]

end Prelude

namespace Store

/-- The store in which a function has been defined. -/
def install (s : Store) (f : Prelude.Function) : Store :=
  let (v, s) := s.close globalScope (f.params.map .sym) f.body
  s.define globalScope f.name v

end Store

open Prelude

theorem evaluate_definition (host : Host) (n : Nat) (f : Function) (w : World) :
    ∃ v, (evaluate host (n + 2) f.definition Store.globalScope).outcome w =
      (.ok v, { w with store := w.store.install f }) :=
  ⟨_, rfl⟩

theorem evaluate_definitions (host : Host) (n : Nat) (fs : List Function) (w : World) :
    ∃ vs, ((evaluate host (n + 2)).all Store.globalScope (fs.map Function.definition)).outcome w =
      (.ok vs, { w with store := fs.foldl Store.install w.store }) := by
  induction fs generalizing w with
  | nil => exact ⟨[], rfl⟩
  | cons f fs ih =>
    obtain ⟨v, hv⟩ := evaluate_definition host n f w
    obtain ⟨vs, hvs⟩ := ih { w with store := w.store.install f }
    refine ⟨v :: vs, ?_⟩
    rw [List.map_cons, Evaluator.all, ExceptT.outcome_bind, hv]
    dsimp only
    rw [ExceptT.outcome_bind, hvs]
    rfl

/-- **A new session binds the functions of the prelude** after the primitives. -/
theorem Store.initial_true_eq : Store.initial true = functions.foldl Store.install Store.primitives := by
  obtain ⟨vs, hvs⟩ := evaluate_definitions Disk.empty 6 functions { store := Store.primitives }
  rw [Store.initial_true, forms_eq, hvs]

end AmbLisp
