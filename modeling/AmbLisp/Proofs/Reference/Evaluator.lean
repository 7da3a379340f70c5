import AmbLisp.Eval
import AmbLisp.Proofs.Search.DecisionTree

/-!
# Evaluation that branches

The meaning of `amb` without passes and trails: an expression is evaluated once, and at each `amb`
the whole rest of the evaluation is run for every alternative from left to right, each time from the
scopes as they were when the `amb` was reached. What comes of it is a decision tree, whose leaves
are values with the scopes behind them, or ordinary faults. The cases are those of the evaluator;
printing and the journal are left out.

The bound on nesting says little about this tree: a higher bound changes nothing but what is below
leaves that reached the lower one (`evaluate_deepens`).
-/

namespace AmbLisp

namespace Reference

/-- What evaluations come to that begin with some scopes: one outcome for each way of choosing. -/
abbrev Branching := StateT Store DecisionTree

namespace Branching

variable {α : Type}

/-- Ends in a fault. -/
def fail (fault : Fault) (h : fault.IsOrdinary) : Branching α := fun _ =>
  .failure fault h

/-- A result that does not depend on choices. -/
def ofResult (result : Except Fault α) (h : Ordinary result) : Branching α :=
  match result, h with
  | .ok a, _ => pure a
  | .error fault, h => fail fault (h fault rfl)

/-- The value of a name, seen from a scope. -/
def lookup (e : ScopeId) (name : String) : Branching Value := do
  match (← get).lookup e name with
  | some v => return v
  | none => fail (.unbound name) (Fault.ordinary_unbound name)

/-- Binds a name in a scope. -/
def define (e : ScopeId) (name : String) (v : Value) : Branching Unit :=
  modify fun s => s.define e name v

/-- Opens a scope. -/
def openScope (scope : Scope) : Branching ScopeId :=
  modifyGet fun s => s.openScope scope

/-- Makes a closure over a scope. -/
def close (e : ScopeId) (params : List Value) (body : Value) : Branching Value :=
  modifyGet fun s => s.close e params body

/-- Branches: one alternative after the other, each with the scopes as they are. -/
def choose (candidates : List Value) : Branching Value := fun s =>
  .node candidates fun i => .value (candidates[i], s)

theorem get_bind (k : Store → Branching α) (τ : Store) :
    ((get : Branching Store) >>= k) τ = k τ τ := rfl

theorem lookup_of_some {τ : Store} {e : ScopeId} {name : String} {v : Value}
    (h : τ.lookup e name = some v) : lookup e name τ = .value (v, τ) := by
  rw [lookup, get_bind, h]
  rfl

theorem lookup_of_none {τ : Store} {e : ScopeId} {name : String} (h : τ.lookup e name = none) :
    lookup e name τ = .failure (.unbound name) (Fault.ordinary_unbound name) := by
  rw [lookup, get_bind, h]
  rfl

end Branching

open Branching

/-- A way to evaluate an expression in a scope. -/
abbrev Evaluator := Value → ScopeId → Branching Value

namespace Evaluator

variable (ev : Evaluator)

/-- Evaluates expressions in order. -/
def all (e : ScopeId) : List Value → Branching (List Value)
  | [] => return []
  | expr :: exprs => do
    let v ← ev expr e
    let vs ← all e exprs
    return v :: vs

/-- Evaluates expressions in order; the value is that of the last one, or `v` if there is none. -/
def sequence (e : ScopeId) (v : Value) : List Value → Branching Value
  | [] => return v
  | expr :: exprs => do
    let v ← ev expr e
    sequence e v exprs

/-- Evaluates the expression of the first clause `(test expr)` whose test is true. -/
def clauses (e : ScopeId) : List Value → Branching Value
  | [] => return .nil
  | .list [test, expr] :: rest => do
    if (← ev test e).isTrue then ev expr e else clauses e rest
  | _ :: _ => fail (.malformed .condClause) (Fault.ordinary_malformed _)

/-- Evaluates bindings `(name expr)` in order, each in the scope that it extends. -/
def letBindings (e : ScopeId) : List Value → Branching Unit
  | [] => return ()
  | .list [.sym name, expr] :: rest => do
    let v ← ev expr e
    define e name v
    letBindings e rest
  | .list [_, _] :: _ => fail (.malformed .letName) (Fault.ordinary_malformed _)
  | _ :: _ => fail (.malformed .letBinding) (Fault.ordinary_malformed _)

/-- Applies the first value to the rest. -/
def apply (host : Host) : List Value → Branching Value
  | .prim p :: args => ofResult (p.call host args) (Primitive.ordinary_call host p args)
  | .closure _ scope params body :: args => do
    let call ← ofResult (Scope.ofParams (some scope) params args) (Scope.ordinary_ofParams _ _ _)
    let e ← openScope call
    ev body e
  | _ => fail .notFunction Fault.ordinary_notFunction

/-- Evaluates the forms of a file as one sequence. -/
def load (host : Host) (e : ScopeId) (path : String) : Branching Value := do
  let forms ← ofResult (Loader.fileForms host path) (Loader.ordinary_fileForms host path)
  ev (.sequence forms) e

/-- Evaluates a special form with these operands. -/
def special (host : Host) (e : ScopeId) : Keyword → List Value → Branching Value
  | .quote, [v] => return v
  | .eval, [expr] => do
    let code ← ev expr e
    ev code e
  | .cond, rest => ev.clauses e rest
  | .define, [.sym name, expr] => do
    let v ← ev expr e
    define e name v
    return v
  | .define, [_, _] => fail (.malformed .defineName) (Fault.ordinary_malformed _)
  | .letIn, [.list bindings, body] => do
    let inner ← openScope { outer := some e }
    ev.letBindings inner bindings
    ev body inner
  | .letIn, [_, _] => fail (.malformed .letBindings) (Fault.ordinary_malformed _)
  | .sequence, exprs => ev.sequence e .nil exprs
  | .lambda, [.list params, body] => close e params body
  | .lambda, [_, _] => fail (.malformed .lambdaParams) (Fault.ordinary_malformed _)
  | .load, [expr] => do
    match ← ev expr e with
    | .str path =>
      let _ ← ev.load host e path
      return .nil
    | _ => fail .loadName Fault.ordinary_loadName
  | .amb, alternatives => do
    let choice ← choose alternatives
    ev choice e
  | k, operands => fail (.operandCount k operands.length) (Fault.ordinary_operandCount _ _)

/-- Evaluates an expression, given a way to evaluate what is nested in it. -/
def step (host : Host) : Evaluator
  | .sym name, e => lookup e name
  | .list (head :: operands), e =>
    match head.symbol?.bind Keyword.ofName? with
    | some k => ev.special host e k operands
    | none => do
      let vs ← ev.all e (head :: operands)
      ev.apply host vs
  | v, _ => return v

end Evaluator

/-- Evaluates an expression in a scope; `n` evaluations may be nested. -/
def evaluate (host : Host) : Nat → Evaluator
  | 0 => fun _ _ => fail .tooDeep Fault.ordinary_tooDeep
  | n + 1 => (evaluate host n).step host

end Reference

/-! ## The bound on nesting -/

namespace DecisionTree

variable {α β : Type}

/-- The second tree is the first one, except where the first one reached the bound on nesting. -/
inductive Deepens : DecisionTree α → DecisionTree α → Prop
  | value (a : α) : Deepens (value a) (value a)
  | failure (fault : Fault) (h : fault.IsOrdinary) : Deepens (failure fault h) (failure fault h)
  | tooDeep (h : Fault.tooDeep.IsOrdinary) (T : DecisionTree α) : Deepens (failure .tooDeep h) T
  | node {cs : List Value} {sub sub' : Fin cs.length → DecisionTree α}
      (h : ∀ i, Deepens (sub i) (sub' i)) : Deepens (node cs sub) (node cs sub')

theorem Deepens.refl (T : DecisionTree α) : T.Deepens T := by
  induction T with
  | value a => exact .value a
  | failure fault h => exact .failure fault h
  | node cs sub ih => exact .node ih

theorem Deepens.bind {T T' : DecisionTree α} {f f' : α → DecisionTree β} (h : T.Deepens T')
    (hf : ∀ a, (f a).Deepens (f' a)) : (T.bind f).Deepens (T'.bind f') := by
  induction h with
  | value a => exact hf a
  | failure fault h => exact .failure fault h
  | tooDeep h T => exact .tooDeep h _
  | node h ih => exact .node ih

theorem Deepens.map {T T' : DecisionTree α} (h : T.Deepens T') (f : α → β) :
    (T.map f).Deepens (T'.map f) :=
  h.bind fun _ => .refl _

/-- **A tree with no leaf at the bound is deepened by nothing but itself.** -/
theorem Deepens.eq {T T' : DecisionTree α} (h : T.Deepens T')
    (hleaves : ∀ l ∈ T.leaves, l.2 ≠ .error .tooDeep) : T' = T := by
  induction h with
  | value | failure => rfl
  | tooDeep h T => exact absurd rfl (hleaves ([], .error .tooDeep) List.mem_cons_self)
  | @node cs sub sub' h ih =>
    refine congrArg (DecisionTree.node cs) (funext fun i => ih i fun l hl => ?_)
    refine hleaves ((i : Nat) :: l.1, l.2) (List.mem_flatMap.2 ⟨i, List.mem_finRange i, ?_⟩)
    exact List.mem_map.2 ⟨l, hl, rfl⟩

end DecisionTree

namespace Reference

variable {α β : Type}

/-- From all scopes, the second evaluation comes to a tree that deepens that of the first. -/
def Branching.Deepens (act act' : Branching α) : Prop :=
  ∀ τ, (act τ).Deepens (act' τ)

namespace Branching

theorem Deepens.refl (act : Branching α) : act.Deepens act := fun τ => .refl (act τ)

theorem Deepens.bind {act act' : Branching α} {k k' : α → Branching β} (h : act.Deepens act')
    (hk : ∀ a, (k a).Deepens (k' a)) : (act >>= k).Deepens (act' >>= k') :=
  fun τ => (h τ).bind fun p => hk p.1 p.2

end Branching

/-- The second evaluator deepens what the first one comes to. -/
def Evaluator.Deepens (ev ev' : Evaluator) : Prop :=
  ∀ v e, (ev v e).Deepens (ev' v e)

namespace Evaluator

variable {ev ev' : Evaluator} (h : ev.Deepens ev') {host : Host} {e : ScopeId}

include h

theorem deepens_all (exprs : List Value) : (ev.all e exprs).Deepens (ev'.all e exprs) := by
  induction exprs with
  | nil => exact .refl _
  | cons expr exprs ih => exact (h expr e).bind fun v => ih.bind fun vs => .refl _

theorem deepens_sequence (exprs : List Value) (v : Value) :
    (ev.sequence e v exprs).Deepens (ev'.sequence e v exprs) := by
  induction exprs generalizing v with
  | nil => exact .refl _
  | cons expr exprs ih => exact (h expr e).bind fun v => ih v

theorem deepens_clauses (cls : List Value) :
    (ev.clauses e cls).Deepens (ev'.clauses e cls) := by
  fun_induction Evaluator.clauses ev e cls with
  | case1 => exact .refl _
  | case2 test expr rest ih =>
    refine (h test e).bind fun v => ?_
    split
    · exact h expr e
    · exact ih
  | case3 v rest hne =>
    rw [Evaluator.clauses]
    · exact .refl _
    · exact hne

theorem deepens_letBindings (bs : List Value) :
    (ev.letBindings e bs).Deepens (ev'.letBindings e bs) := by
  fun_induction Evaluator.letBindings ev e bs with
  | case1 => exact .refl _
  | case2 name expr rest ih =>
    exact (h expr e).bind fun v => (Branching.Deepens.refl _).bind fun _ => ih
  | case3 a b rest hne =>
    rw [Evaluator.letBindings]
    · exact .refl _
    · exact hne
  | case4 v rest hsym hne =>
    rw [Evaluator.letBindings]
    · exact .refl _
    · exact hsym
    · exact hne

theorem deepens_apply (vs : List Value) : (ev.apply host vs).Deepens (ev'.apply host vs) := by
  unfold Evaluator.apply
  split
  · exact .refl _
  · exact (Branching.Deepens.refl _).bind fun call => (Branching.Deepens.refl _).bind fun o => h _ o
  · exact .refl _

theorem deepens_load (path : String) : (ev.load host e path).Deepens (ev'.load host e path) :=
  (Branching.Deepens.refl _).bind fun forms => h (.sequence forms) e

theorem deepens_special (k : Keyword) (operands : List Value) :
    (ev.special host e k operands).Deepens (ev'.special host e k operands) := by
  unfold Evaluator.special
  split
  · exact .refl _
  · exact (h _ e).bind fun code => h code e
  · exact deepens_clauses h _
  · next name expr => exact (h expr e).bind fun v => .refl _
  · exact .refl _
  · next bindings body =>
    refine (Branching.Deepens.refl _).bind fun inner => ?_
    exact (deepens_letBindings h bindings).bind fun _ => h body inner
  · exact .refl _
  · exact deepens_sequence h _ _
  · exact .refl _
  · exact .refl _
  · next expr =>
    refine (h expr e).bind fun v => ?_
    split
    · next path => exact (deepens_load h path).bind fun _ => .refl _
    · exact .refl _
  · exact (Branching.Deepens.refl _).bind fun choice => h choice e
  · exact .refl _

theorem deepens_step : (ev.step host).Deepens (ev'.step host) := by
  intro v e
  unfold Evaluator.step
  split
  · exact .refl _
  · next head operands =>
    split
    · next k _ => exact deepens_special h k operands
    · exact (deepens_all h _).bind fun vs => deepens_apply h vs
  · exact .refl _

end Evaluator

/-- **A higher bound deepens** what a lower one comes to. -/
theorem evaluate_deepens (host : Host) {n m : Nat} (h : n ≤ m) :
    (evaluate host n).Deepens (evaluate host m) := by
  induction n generalizing m with
  | zero => exact fun _ _ _ => .tooDeep _ _
  | succ n ih =>
    obtain ⟨m, rfl⟩ : ∃ k, m = k + 1 := ⟨m - 1, by omega⟩
    exact Evaluator.deepens_step (ih (by omega))

end Reference

end AmbLisp
