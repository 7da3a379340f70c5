import AmbLisp.Proofs.Store.Params

/-!
# What a store binds

`Store.Binds`: all values that are bound in a store have a property. It is kept by the operations of
a store, and a value that is looked up has it.
-/

namespace AmbLisp.Store

/-- All values that are bound have a property. -/
def Binds (s : Store) (P : Value → Prop) : Prop :=
  ∀ (i : Nat) (scope : Scope), s.scopes[i]? = some scope → ∀ b ∈ scope.bindings, P b.2

variable {s : Store} {P : Value → Prop} {v : Value}

theorem Binds.imp {Q : Value → Prop} (h : s.Binds P) (hPQ : ∀ v, P v → Q v) : s.Binds Q :=
  fun i scope hx b hb => hPQ _ (h i scope hx b hb)

/-- A scope of a store in which one more is opened. -/
theorem getElem?_openScope {scope x : Scope} {i : Nat}
    (hx : (s.openScope scope).2.scopes[i]? = some x) :
    (i = s.scopes.size ∧ x = scope) ∨ s.scopes[i]? = some x := by
  simp only [Store.openScope, Array.getElem?_push] at hx
  split at hx
  · next hi => exact .inl ⟨hi, (Option.some.inj hx).symm⟩
  · exact .inr hx

/-- A scope of a store in which a name is bound. -/
theorem getElem?_define {e i : Nat} {name : String} {x : Scope}
    (hx : (s.define e name v).scopes[i]? = some x) :
    ∃ y, s.scopes[i]? = some y ∧ x.outer = y.outer ∧
      ∀ b ∈ x.bindings, b.2 = v ∨ b ∈ y.bindings := by
  simp only [Store.define, Array.getElem?_modify] at hx
  split at hx
  · obtain ⟨y, hy, rfl⟩ := Option.map_eq_some_iff.1 hx
    exact ⟨y, hy, rfl, fun b hb => Bindings.mem_set hb⟩
  · exact ⟨x, hx, rfl, fun b hb => .inr hb⟩

theorem Binds.openScope (h : s.Binds P) {scope : Scope} (hb : ∀ b ∈ scope.bindings, P b.2) :
    (s.openScope scope).2.Binds P := by
  intro i x hx
  rcases getElem?_openScope hx with ⟨-, rfl⟩ | hx
  · exact hb
  · exact h i x hx

theorem Binds.define (h : s.Binds P) {e : Nat} {name : String} (hv : P v) :
    (s.define e name v).Binds P := by
  intro i x hx b hxb
  obtain ⟨y, hy, -, hbs⟩ := getElem?_define hx
  rcases hbs b hxb with hb | hb
  · exact hb ▸ hv
  · exact h i y hy b hb

theorem Binds.close (h : s.Binds P) (e : ScopeId) (params : List Value) (body : Value) :
    (s.close e params body).2.Binds P :=
  h

theorem Binds.lookup (h : s.Binds P) {e : Nat} {name : String} (hl : s.lookup e name = some v) :
    P v := by
  have hwithin : ∀ (n : Nat) (e : ScopeId), s.lookupWithin name n e = some v → P v := by
    intro n
    induction n with
    | zero =>
      intro e hl
      cases hl
    | succ n ih =>
      intro e hl
      rw [lookupWithin] at hl
      split at hl
      · cases hl
      · next scope hs =>
        split at hl
        · next w hw =>
          obtain ⟨l, r, hbs, -⟩ := List.lookup_eq_some_iff.1 hw
          have hmem : (name, w) ∈ scope.bindings :=
            hbs ▸ List.mem_append_right l List.mem_cons_self
          exact Option.some.inj hl ▸ h e scope hs (name, w) hmem
        · obtain ⟨o, -, ho⟩ := Option.bind_eq_some_iff.1 hl
          exact ih o ho
  exact hwithin _ e hl

end AmbLisp.Store
