import AmbLisp.Proofs.Store.Sound

/-!
# A store under other names

A store renames another one if it has all scopes of the other under their new names, and if what is
opened and made next has the next name in both. Such stores stay so when the same is done to both,
and a name has the same value in them.
-/

namespace AmbLisp

variable {r : Renaming}

/-- A binding with its value renamed. -/
def Renaming.binding (r : Renaming) (b : String × Value) : String × Value :=
  (b.1, b.2.rename r)

/-- A scope with its values and its outer scope renamed. -/
def Scope.rename (r : Renaming) (s : Scope) : Scope :=
  ⟨s.bindings.map r.binding, s.outer.map r.scope⟩

theorem Bindings.lookup_rename (name : String) (bs : List (String × Value)) :
    (bs.map r.binding).lookup name = (bs.lookup name).map (Value.rename r) := by
  induction bs with
  | nil => rfl
  | cons b bs ih =>
    obtain ⟨k, v⟩ := b
    rw [List.map_cons, Renaming.binding, List.lookup_cons, List.lookup_cons, ih]
    cases name == k <;> rfl

theorem Bindings.set_rename (name : String) (v : Value) (bs : List (String × Value)) :
    Bindings.set name (v.rename r) (bs.map r.binding) = (Bindings.set name v bs).map r.binding := by
  induction bs with
  | nil => rfl
  | cons b bs ih =>
    obtain ⟨k, w⟩ := b
    rw [List.map_cons, Renaming.binding, Bindings.set, Bindings.set, ih]
    split <;> rfl

namespace Scope

theorem set_rename (s : Scope) (name : String) (v : Value) :
    (s.rename r).set name (v.rename r) = (s.set name v).rename r := by
  simp only [rename, set, Bindings.set_rename]

theorem get?_rename (s : Scope) (name : String) :
    (s.rename r).get? name = (s.get? name).map (Value.rename r) :=
  Bindings.lookup_rename name s.bindings

theorem mapM_symbol?_rename (vs : List Value) :
    (vs.map (Value.rename r)).mapM Value.symbol? = vs.mapM Value.symbol? := by
  induction vs with
  | nil => rfl
  | cons v vs ih => simp only [List.map_cons, List.mapM_cons, Value.symbol?_rename, ih]

theorem foldl_set_rename (new bs : List (String × Value)) :
    (new.map r.binding).foldl (fun bs b => Bindings.set b.1 b.2 bs) (bs.map r.binding) =
      (new.foldl (fun bs b => Bindings.set b.1 b.2 bs) bs).map r.binding := by
  induction new generalizing bs with
  | nil => rfl
  | cons b new ih =>
    rw [List.map_cons, List.foldl_cons, List.foldl_cons, ← ih]
    rw [← Bindings.set_rename]
    rfl

theorem ofParams_rename (o : ScopeId) (params args : List Value) :
    ofParams (some (r.scope o)) (params.map (Value.rename r)) (args.map (Value.rename r)) =
      (ofParams (some o) params args).map (rename r) := by
  unfold ofParams
  rw [List.length_map, List.length_map, mapM_symbol?_rename]
  split
  · rfl
  · split
    · rfl
    · next names _ =>
      have hzip : names.zip (args.map (Value.rename r)) = (names.zip args).map r.binding := by
        rw [List.zip_map_right]
        rfl
      rw [hzip]
      exact congrArg (fun bs => Except.ok (⟨bs, _⟩ : Scope)) (foldl_set_rename (names.zip args) [])

end Scope

namespace Store

/-- The second store has all that the first one has, under other names. -/
structure Renames (r : Renaming) (τ σ : Store) : Prop where
  scopes : ∀ {i : Nat}, i < τ.scopes.size →
    σ.scopes[r.scope i]? = τ.scopes[i]?.map (Scope.rename r)
  nextScope : ∀ k, r.scope (τ.scopes.size + k) = σ.scopes.size + k
  nextClosure : ∀ k, r.serial (τ.closures + k) = σ.closures + k

namespace Renames

variable {τ σ : Store}

theorem openScope (h : τ.Renames r σ) (scope : Scope) :
    (τ.openScope scope).2.Renames r (σ.openScope (scope.rename r)).2 := by
  have hnext : r.scope τ.scopes.size = σ.scopes.size := h.nextScope 0
  constructor
  · intro i hi
    simp only [Store.openScope, Array.size_push] at hi ⊢
    rw [Array.getElem?_push, Array.getElem?_push]
    by_cases hlast : i = τ.scopes.size
    · rw [if_pos hlast, if_pos (hlast ▸ hnext)]
      rfl
    · have hlt : i < τ.scopes.size := by omega
      have hne : r.scope i ≠ σ.scopes.size := by
        rw [← hnext]
        exact Nat.ne_of_lt (r.mono hlt)
      rw [if_neg hlast, if_neg hne, h.scopes hlt]
  · intro k
    have := h.nextScope (k + 1)
    simp only [Store.openScope, Array.size_push]
    rw [Nat.add_assoc, Nat.add_comm 1 k, this]
    omega
  · exact h.nextClosure

theorem define (h : τ.Renames r σ) (e : Nat) (name : String) (v : Value) :
    (τ.define e name v).Renames r (σ.define (r.scope e) name (v.rename r)) := by
  constructor
  · intro i hi
    simp only [Store.define, Array.size_modify] at hi ⊢
    rw [Array.getElem?_modify, Array.getElem?_modify, h.scopes hi]
    by_cases he : e = i
    · subst he
      rw [if_pos rfl, if_pos rfl, Option.map_map, Option.map_map]
      exact congrArg (τ.scopes[e]?.map ·) (funext fun s => s.set_rename name v)
    · rw [if_neg he, if_neg fun heq => he (r.injective heq)]
  · intro k
    simpa only [Store.define, Array.size_modify] using h.nextScope k
  · exact h.nextClosure

theorem close (h : τ.Renames r σ) (e : Nat) (params : List Value) (body : Value) :
    (τ.close e params body).2.Renames r
        (σ.close (r.scope e) (params.map (Value.rename r)) (body.rename r)).2 ∧
      (σ.close (r.scope e) (params.map (Value.rename r)) (body.rename r)).1 =
        (τ.close e params body).1.rename r := by
  refine ⟨⟨h.scopes, h.nextScope, fun k => ?_⟩, ?_⟩
  · have := h.nextClosure (k + 1)
    simp only [Store.close]
    rw [Nat.add_assoc, Nat.add_comm 1 k, this]
    omega
  · have := h.nextClosure 0
    rw [Store.close, Store.close, Value.rename_closure]
    rw [Nat.add_zero, Nat.add_zero] at this
    rw [this]

/-- A name has the same value, under other names, in a store under other names. -/
theorem lookup (h : τ.Renames r σ) (hs : τ.Sound) {e : Nat} (he : e < τ.scopes.size)
    (name : String) : σ.lookup (r.scope e) name = (τ.lookup e name).map (Value.rename r) := by
  -- enough steps are enough in both stores, since scopes lie in older ones
  have hwithin : ∀ n m e : Nat, e < n → r.scope e < m → e < τ.scopes.size →
      σ.lookupWithin name m (r.scope e) = (τ.lookupWithin name n e).map (Value.rename r) := by
    intro n
    induction n with
    | zero =>
      intro m e hn
      exact absurd hn (Nat.not_lt_zero e)
    | succ n ih =>
      intro m e hn hm he
      obtain ⟨m, rfl⟩ : ∃ k, m = k + 1 := ⟨m - 1, by omega⟩
      rw [lookupWithin, lookupWithin, h.scopes he]
      cases hscope : τ.scopes[e]? with
      | none => rfl
      | some scope =>
        simp only [Option.map_some, Scope.get?_rename]
        cases hget : scope.get? name with
        | some v => rfl
        | none =>
          simp only [Option.map_none, Scope.rename]
          cases ho : scope.outer with
          | none => rfl
          | some o =>
            have hlt := hs.outer hscope ho
            have hmono := r.mono hlt
            exact ih m o (by omega) (Nat.lt_of_lt_of_le hmono (Nat.le_of_lt_succ hm))
              (Nat.lt_trans hlt he)
  exact hwithin _ _ e (Nat.lt_succ_self _) (Nat.lt_succ_self _) he

end Renames

end Store

end AmbLisp
