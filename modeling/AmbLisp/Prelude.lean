import AmbLisp.Eval

/-!
# The initial scope

A session starts with a global scope that binds the primitives and, unless it is told not to, the
prelude: definitions in the language itself. `require` and the generators are built on `amb`; an
`(amb)` without alternatives fails the present pass, so `require` turns a false condition into
another attempt.
-/

namespace AmbLisp.Prelude

/-- The definitions of the prelude. -/
def definitions : List String := [
"(define caar (lambda (x) (car (car x))))",
"(define cadr (lambda (x) (car (cdr x))))",
"(define cddr (lambda (x) (cdr (cdr x))))",
"(define caddr (lambda (x) (cadr (cdr x))))",
"(define cadar (lambda (x) (cadr (car x))))",
"(define caddar (lambda (x) (caddr (car x))))",
"(define cddar (lambda (x) (cddr (car x))))",
"(define caadar (lambda (x) (caar (cdr (car x)))))",
"(define not (lambda (x) (cond (x #f) (#t #t))))",
"(define require (lambda (p) (cond (p #t) (#t (amb)))))",
"(define an-element-of
  (lambda (items)
    (do (require (not (nil? items)))
        (amb (car items) (an-element-of (cdr items))))))",
"(define an-integer-between
  (lambda (low high)
    (do (require (not (> low high)))
        (amb low (an-integer-between (+ low 1) high)))))",
"(define member?
  (lambda (x items)
    (cond ((nil? items) #f)
          ((eq? x (car items)) #t)
          (#t (member? x (cdr items))))))",
"(define distinct?
  (lambda (items)
    (cond ((nil? items) #t)
          ((member? (car items) (cdr items)) #f)
          (#t (distinct? (cdr items))))))"]

/-- The forms of the prelude. -/
def forms : List Value :=
  definitions.filterMap fun source => (Reader.parse source).toOption

end Prelude

namespace Store

/-- A store with a global scope that binds the primitives. -/
def primitives : Store :=
  { scopes := #[{ bindings := Primitive.all.map fun p => (p.name, .prim p) }] }

/-- The store of a new session, with or without the prelude. -/
def initial (prelude : Bool) : Store :=
  if prelude then
    ((Evaluator.all (evaluate Disk.empty 8) globalScope Prelude.forms).run.run
      { store := primitives }).2.store
  else primitives

end Store

end AmbLisp
