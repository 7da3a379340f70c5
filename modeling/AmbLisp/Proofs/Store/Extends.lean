import AmbLisp.Proofs.Eval.Frame
import AmbLisp.Proofs.Store.Chain

/-!
# Stores that grow and change nothing

A store extends another one if all scopes of the other are in it, as they were. So it is when scopes
are opened and closures made, and when names are bound in none but new scopes. What a name is bound to
in the smaller store it is bound to in the larger one (`Extends.lookup`).
-/

namespace AmbLisp.Store

/-- No scope and no closure is lost, and all scopes are as they were. -/
structure Extends (σ τ : Store) : Prop where
  grew : σ.Grew τ
  same : ∀ {i : Nat}, i < σ.scopes.size → τ.scopes[i]? = σ.scopes[i]?

variable {σ τ υ : Store} {e : Nat} {name : String} {v : Value} {scope : Scope}

theorem Extends.refl (σ : Store) : σ.Extends σ :=
  ⟨.refl σ, fun _ => rfl⟩

theorem Extends.trans (h : σ.Extends τ) (h' : τ.Extends υ) : σ.Extends υ := by
  refine ⟨h.grew.trans h'.grew, fun hi => ?_⟩
  rw [h'.same (Nat.lt_of_lt_of_le hi h.grew.1), h.same hi]

theorem extends_openScope (σ : Store) (scope : Scope) : σ.Extends (σ.openScope scope).2 := by
  refine ⟨σ.grew_openScope scope, fun hi => ?_⟩
  rw [Store.openScope, Array.getElem?_push, if_neg (Nat.ne_of_lt hi)]

theorem getElem?_openScope_size (σ : Store) (scope : Scope) :
    (σ.openScope scope).2.scopes[σ.scopes.size]? = some scope := by
  rw [Store.openScope, Array.getElem?_push, if_pos rfl]

theorem Extends.getElem? (h : σ.Extends τ) (hs : σ.scopes[e]? = some scope) :
    τ.scopes[e]? = some scope := by
  rw [h.same (Array.getElem?_eq_some_iff.1 hs).1, hs]

/-- **A larger store binds what a smaller one binds.** -/
theorem Extends.lookup (h : σ.Extends τ) (hl : σ.lookup e name = some v) :
    τ.lookup e name = some v := by
  have hwithin : ∀ (n e : Nat), σ.lookupWithin name n e = some v →
      τ.lookupWithin name n e = some v := by
    intro n
    induction n with
    | zero =>
      intro e hl
      cases hl
    | succ n ih =>
      intro e hl
      rw [lookupWithin] at hl ⊢
      cases hs : σ.scopes[e]? with
      | none =>
        rw [hs] at hl
        cases hl
      | some scope =>
        rw [hs] at hl
        rw [h.getElem? hs]
        dsimp only at hl ⊢
        cases hget : scope.get? name with
        | some w =>
          rw [hget] at hl
          exact hl
        | none =>
          rw [hget] at hl
          obtain ⟨o, ho, hl⟩ := Option.bind_eq_some_iff.1 hl
          exact Option.bind_eq_some_iff.2 ⟨o, ho, ih o hl⟩
  exact hwithin _ e hl

/-- No scope lies around the global one. -/
theorem lookup_globalScope (σ : Store) (name : String) :
    σ.lookup globalScope name = (σ.bindings globalScope).lookup name := by
  rw [Store.lookup, lookupWithin, Store.bindings]
  cases σ.scopes[globalScope]? with
  | none => rfl
  | some scope =>
    have hget : ((some scope).getD {}).bindings.lookup name = scope.get? name := rfl
    rw [hget]
    dsimp only
    cases scope.get? name with
    | some v => rfl
    | none => cases scope.outer <;> rfl

end AmbLisp.Store
