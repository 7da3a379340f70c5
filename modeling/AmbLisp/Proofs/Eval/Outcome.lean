import AmbLisp.Eval
import AmbLisp.Proofs.Outcome

/-!
# What runs come to

One equation for each operation of runs says what it comes to. Nothing else needs to open the
operations.
-/

namespace AmbLisp

namespace Run

@[simp] theorem outcome_note (event : Event) (w : World) :
    (note event).outcome w = (.ok (), { w with journal := event :: w.journal }) := rfl

@[simp] theorem outcome_printLines (lines : List String) (w : World) :
    (printLines lines).outcome w =
      (.ok (), { w with printed := (lines.map (· ++ "\n")).reverse ++ w.printed }) := rfl

@[simp] theorem outcome_define (e : ScopeId) (name : String) (v : Value) (w : World) :
    (define e name v).outcome w = (.ok (), { w with store := w.store.define e name v }) := rfl

@[simp] theorem outcome_openScope (scope : Scope) (w : World) :
    (openScope scope).outcome w =
      (.ok w.store.scopes.size, { w with store := (w.store.openScope scope).2 }) := rfl

@[simp] theorem outcome_close (e : ScopeId) (params : List Value) (body : Value) (w : World) :
    (close e params body).outcome w =
      (.ok (w.store.close e params body).1, { w with store := (w.store.close e params body).2 }) :=
  rfl

theorem outcome_lookup (e : ScopeId) (name : String) (w : World) :
    (lookup e name).outcome w =
      match w.store.lookup e name with
      | some v => (.ok v, w)
      | none => (.error (.unbound name), w) := by
  simp only [lookup, ExceptT.outcome_bind, ExceptT.outcome_get]
  cases w.store.lookup e name <;> rfl

theorem outcome_choose (candidates : List Value) (w : World) :
    (choose candidates).outcome w =
      (match (w.trail.choose candidates).1 with
        | some v => .ok v
        | none => .error .noChoice,
      { w with
        trail := (w.trail.choose candidates).2,
        journal := (w.trail.choiceEvent? candidates).toList ++ w.journal }) := by
  simp only [choose, ExceptT.outcome_bind, ExceptT.outcome_get, ExceptT.outcome_set]
  cases (w.trail.choose candidates).1 <;> rfl

end Run

namespace Evaluator

/-- A special form with another number of operands than its own. -/
theorem special_operandCount {ev : Evaluator} {host : Host} {k : Keyword} {m : Nat}
    {operands : List Value} {e : ScopeId} (hk : k.operands? = some m) (hm : operands.length ≠ m) :
    ev.special host e k operands = throw (.operandCount k operands.length) := by
  fun_cases special ev host e k operands with
  | case3 | case8 | case12 => cases hk
  | case13 => rfl
  | _ =>
    cases hk
    exact absurd rfl hm

end Evaluator

end AmbLisp
