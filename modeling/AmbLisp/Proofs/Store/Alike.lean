import AmbLisp.Proofs.Store.Rename

/-!
# Stores that bind some words alike

A store may bind more names than another one and have made more closures before, but have the same
scopes, and bind the words of some vocabulary to the same values in them, up to the numbers of
closures. What is opened, bound and made in both keeps them so, whatever name is bound, and each word
of the vocabulary has the same value in both, seen from any scope (`Store.Alike.lookup`).
-/

namespace AmbLisp

/-- All scopes keep their names, and closures have numbers that are higher by `m`. -/
def Renaming.later (m : Nat) : Renaming where
  scope i := i
  serial n := n + m
  mono h := h
  serial_injective h := Nat.add_right_cancel h

variable {words : String → Prop} {m : Nat}

/-- Two scopes lie in the same one and bind the words of a vocabulary alike. -/
structure Scope.Alike (words : String → Prop) (m : Nat) (s t : Scope) : Prop where
  outer : t.outer = s.outer
  binding : ∀ {name}, words name → t.get? name = (s.get? name).map (Value.rename (.later m))

namespace Scope.Alike

variable {s t : Scope}

theorem rename (s : Scope) : s.Alike words m (s.rename (.later m)) where
  outer := Option.map_id'
  binding _ := s.get?_rename _

theorem set (h : s.Alike words m t) (name : String) (v : Value) :
    (s.set name v).Alike words m (t.set name (v.rename (.later m))) where
  outer := h.outer
  binding hword := by
    rw [get?_set, get?_set, h.binding hword]
    split <;> rfl

end Scope.Alike

namespace Store

/-- Two stores have the same scopes, which bind the words of a vocabulary alike, and in the second one
`m` more closures have been made. -/
structure Alike (words : String → Prop) (m : Nat) (σ τ : Store) : Prop where
  size : τ.scopes.size = σ.scopes.size
  closures : τ.closures = σ.closures + m
  scopes : ∀ {i : ScopeId} {s t : Scope}, σ.scopes[i]? = some s → τ.scopes[i]? = some t →
    s.Alike words m t

namespace Alike

variable {σ τ : Store}

theorem define (h : σ.Alike words m τ) (e : ScopeId) (name : String) (v : Value) :
    (σ.define e name v).Alike words m (τ.define e name (v.rename (.later m))) where
  size := by simpa only [Store.define, Array.size_modify] using h.size
  closures := h.closures
  scopes {i s t} hs ht := by
    simp only [Store.define, Array.getElem?_modify] at hs ht
    split at hs
    · next he =>
      rw [if_pos he] at ht
      obtain ⟨s, hs₀, rfl⟩ := Option.map_eq_some_iff.1 hs
      obtain ⟨t, ht₀, rfl⟩ := Option.map_eq_some_iff.1 ht
      exact (h.scopes hs₀ ht₀).set name v
    · next he =>
      rw [if_neg he] at ht
      exact h.scopes hs ht

theorem openScope (h : σ.Alike words m τ) {s t : Scope} (hst : s.Alike words m t) :
    (σ.openScope s).2.Alike words m (τ.openScope t).2 where
  size := by simp only [Store.openScope, Array.size_push, h.size]
  closures := h.closures
  scopes {i s' t'} hs ht := by
    simp only [Store.openScope, Array.getElem?_push, h.size] at hs ht
    split at hs
    · next hi =>
      rw [if_pos hi] at ht
      cases hs
      cases ht
      exact hst
    · next hi =>
      rw [if_neg hi] at ht
      exact h.scopes hs ht

theorem close (h : σ.Alike words m τ) (e : ScopeId) (params : List Value) (body : Value) :
    let params' := params.map (Value.rename (.later m))
    let body' := body.rename (.later m)
    (τ.close e params' body').1 = (σ.close e params body).1.rename (.later m) ∧
      (σ.close e params body).2.Alike words m (τ.close e params' body').2 := by
  refine ⟨?_, h.size, ?_, h.scopes⟩
  · rw [Store.close, Store.close, Value.rename_closure, h.closures]
    rfl
  · change τ.closures + 1 = σ.closures + 1 + m
    rw [h.closures, Nat.add_right_comm]

/-- **A word of the vocabulary has the same value**, seen from any scope. -/
theorem lookup (h : σ.Alike words m τ) {name : String} (hword : words name) (e : ScopeId) :
    τ.lookup e name = (σ.lookup e name).map (Value.rename (.later m)) := by
  have hwithin : ∀ n e, τ.lookupWithin name n e =
      (σ.lookupWithin name n e).map (Value.rename (.later m)) := by
    intro n
    induction n with
    | zero => exact fun _ => rfl
    | succ n ih =>
      intro e
      rw [lookupWithin, lookupWithin]
      cases hs : σ.scopes[e]? with
      | none =>
        rw [Array.getElem?_eq_none_iff, ← h.size, ← Array.getElem?_eq_none_iff] at hs
        rw [hs]
        rfl
      | some s =>
        obtain ⟨t, ht⟩ : ∃ t, τ.scopes[e]? = some t := by
          obtain ⟨hlt, -⟩ := Array.getElem?_eq_some_iff.1 hs
          exact ⟨_, Array.getElem?_eq_getElem (h.size ▸ hlt)⟩
        obtain ⟨houter, hbinding⟩ := h.scopes hs ht
        rw [ht]
        dsimp only
        rw [hbinding hword, houter]
        cases s.get? name with
        | some v => rfl
        | none =>
          cases s.outer with
          | none => rfl
          | some o => exact ih o
  exact hwithin _ e

end Alike

end Store

end AmbLisp
