import AmbLisp.Fault
import AmbLisp.Value.Equality

/-!
# Scopes

A scope binds names to values and may lie inside an outer scope. All scopes live in one store and are
shared by reference: a name that is bound in a scope is seen from every scope inside it, and by every
closure that was made there.

A scope is opened inside one that is already in the store, so a walk outwards from scope `e` ends
after at most `e + 1` scopes.
-/

namespace AmbLisp

/-- Gives a name a value in a list of bindings. -/
def Bindings.set (name : String) (v : Value) : List (String × Value) → List (String × Value)
  | [] => [(name, v)]
  | (n, w) :: rest => if n = name then (n, v) :: rest else (n, w) :: set name v rest

theorem Bindings.lookup_set (name n : String) (v : Value) (bs : List (String × Value)) :
    (Bindings.set name v bs).lookup n = if n = name then some v else bs.lookup n := by
  induction bs with
  | nil =>
    by_cases h : n = name
    · simp [Bindings.set, h]
    · simp [Bindings.set, List.lookup_cons, h, beq_false_of_ne h]
  | cons b bs ih =>
    obtain ⟨k, w⟩ := b
    by_cases hk : k = name
    · subst hk
      by_cases h : n = k
      · simp [Bindings.set, h]
      · simp [Bindings.set, List.lookup_cons, h, beq_false_of_ne h]
    · rw [Bindings.set, if_neg hk, List.lookup_cons, List.lookup_cons, ih]
      by_cases h : n = name
      · subst h
        simp [beq_false_of_ne (Ne.symm hk)]
      · simp [h]

/-- Bindings in the order of their names. -/
def Bindings.sort (bs : List (String × Value)) : List (String × Value) :=
  bs.mergeSort fun a b => !(b.1 < a.1)

/-- One scope. Each name is bound at most once. -/
structure Scope where
  bindings : List (String × Value) := []
  outer : Option ScopeId := none
deriving Inhabited

namespace Scope

/-- The value of a name in this scope alone. -/
def get? (s : Scope) (name : String) : Option Value :=
  s.bindings.lookup name

/-- Binds a name in this scope. -/
def set (s : Scope) (name : String) (v : Value) : Scope :=
  { s with bindings := Bindings.set name v s.bindings }

theorem get?_set (s : Scope) (name n : String) (v : Value) :
    (s.set name v).get? n = if n = name then some v else s.get? n :=
  Bindings.lookup_set name n v s.bindings

/-- The scope of a call: it binds parameters to arguments by position, and of two parameters with one
name the later one counts. -/
def ofParams (outer : Option ScopeId) (params args : List Value) : Except Fault Scope :=
  if params.length ≠ args.length then .error (.parameterCount params.length args.length)
  else
    match params.mapM Value.symbol? with
    | none => .error .paramName
    | some names =>
      .ok ⟨(names.zip args).foldl (fun bs b => Bindings.set b.1 b.2 bs) [], outer⟩

end Scope

/-- All scopes, in the order in which they were opened, and the number of closures made so far. -/
structure Store where
  scopes : Array Scope := #[]
  closures : Nat := 0
deriving Inhabited

namespace Store

/-- The scope of a session's definitions: the first one of its store. -/
def globalScope : ScopeId := 0

/-- Adds a scope. -/
def openScope (s : Store) (scope : Scope) : ScopeId × Store :=
  (s.scopes.size, { s with scopes := s.scopes.push scope })

/-- Binds a name in one scope. -/
def define (s : Store) (e : ScopeId) (name : String) (v : Value) : Store :=
  { s with scopes := s.scopes.modify e (·.set name v) }

/-- Makes a closure over a scope. -/
def close (s : Store) (e : ScopeId) (params : List Value) (body : Value) : Value × Store :=
  (.closure s.closures e params body, { s with closures := s.closures + 1 })

/-- The value of a name in the first of at most `n` scopes outwards that binds it. -/
def lookupWithin (s : Store) (name : String) : Nat → ScopeId → Option Value
  | 0, _ => none
  | n + 1, e =>
    match s.scopes[e]? with
    | none => none
    | some scope =>
      match scope.get? name with
      | some v => some v
      | none => scope.outer.bind (s.lookupWithin name n)

/-- The value of a name, seen from a scope. -/
def lookup (s : Store) (e : ScopeId) (name : String) : Option Value :=
  s.lookupWithin name (e + 1) e

/-- The first of at most `n` scopes outwards that binds a name. -/
def findWithin (s : Store) (name : String) : Nat → ScopeId → Option ScopeId
  | 0, _ => none
  | n + 1, e =>
    match s.scopes[e]? with
    | none => none
    | some scope =>
      if (scope.get? name).isSome then some e else scope.outer.bind (s.findWithin name n)

/-- The scope that a name, seen from a scope, is bound in. -/
def find? (s : Store) (e : ScopeId) (name : String) : Option ScopeId :=
  s.findWithin name (e + 1) e

/-- Is a name bound, seen from a scope? -/
def binds (s : Store) (e : ScopeId) (name : String) : Bool :=
  (s.find? e name).isSome

/-- At most `n` scopes outwards. -/
def chainWithin (s : Store) : Nat → ScopeId → List ScopeId
  | 0, _ => []
  | n + 1, e =>
    match s.scopes[e]? with
    | none => []
    | some scope =>
      match scope.outer with
      | none => [e]
      | some o => e :: s.chainWithin n o

/-- A scope and those around it, from the inside outwards. -/
def chain (s : Store) (e : ScopeId) : List ScopeId :=
  s.chainWithin (e + 1) e

/-- The bindings of one scope. -/
def bindings (s : Store) (e : ScopeId) : List (String × Value) :=
  (s.scopes[e]?.getD {}).bindings

/-- A scope in one line: how many scopes are around it, and how many names it binds. -/
def inspect (s : Store) (e : ScopeId) : String :=
  "<Environment depth=" ++ toString ((s.chain e).length - 1) ++ " names=" ++
    toString (s.bindings e).length ++ ">"

/-- The bindings of a scope that `before` does not have, or has with another value. -/
def newBindings (s before : Store) (e : ScopeId) : List (String × Value) :=
  (s.bindings e).filter fun (name, v) =>
    match (before.bindings e).lookup name with
    | none => true
    | some w => !v.identical w

end Store

end AmbLisp
