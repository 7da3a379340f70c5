import AmbLisp.Proofs.Primitive.Results
import AmbLisp.Proofs.Store.Binds

/-!
# Sound stores

A value is covered by a store if each closure in it was made there and lies in one of its scopes. A
store is `Sound` if it covers all values that it binds and each scope lies in an older one. Opening
a scope, binding a name and making a closure keep it so.
-/

namespace AmbLisp

namespace Value

mutual

/-- Each closure in a value has one of so many scopes and one of so many numbers. -/
def Within (scopes closures : Nat) : Value → Prop
  | list vs => AllWithin scopes closures vs
  | closure n e params body =>
    n < closures ∧ e < scopes ∧ AllWithin scopes closures params ∧ Within scopes closures body
  | _ => True

/-- Each closure in these values has one of so many scopes and one of so many numbers. -/
def AllWithin (scopes closures : Nat) : List Value → Prop
  | [] => True
  | v :: vs => Within scopes closures v ∧ AllWithin scopes closures vs

end

variable {k m : Nat}

theorem allWithin_iff {vs : List Value} : AllWithin k m vs ↔ ∀ v ∈ vs, v.Within k m := by
  induction vs with
  | nil => simp [AllWithin]
  | cons v vs ih => rw [AllWithin, ih, List.forall_mem_cons]

theorem within_list {vs : List Value} : (list vs).Within k m ↔ ∀ v ∈ vs, v.Within k m := by
  rw [Within, allWithin_iff]

theorem within_closure {n : Nat} {e : Nat} {params : List Value} {body : Value} :
    (closure n e params body).Within k m ↔
      n < m ∧ e < k ∧ (∀ v ∈ params, v.Within k m) ∧ body.Within k m := by
  rw [Within, allWithin_iff]

theorem within_of_closureFree {v : Value} (h : v.closureFree = true) : v.Within k m := by
  induction v using Value.induction with
  | int | bool | sym | str | nil | prim => trivial
  | list vs ih => exact within_list.2 fun v hv => ih v hv (closureFree_list.1 h v hv)
  | closure => cases h

theorem Within.mono {k' m' : Nat} (hk : k ≤ k') (hm : m ≤ m') {v : Value} (h : v.Within k m) :
    v.Within k' m' := by
  induction v using Value.induction with
  | int | bool | sym | str | nil | prim => trivial
  | list vs ih => exact within_list.2 fun v hv => ih v hv (within_list.1 h v hv)
  | closure n e params body ih ihb =>
    obtain ⟨hn, he, hp, hb⟩ := within_closure.1 h
    exact within_closure.2
      ⟨Nat.lt_of_lt_of_le hn hm, Nat.lt_of_lt_of_le he hk, fun v hv => ih v hv (hp v hv), ihb hb⟩

end Value

namespace Store

/-- Each closure in a value was made in this store, over one of its scopes. -/
def Covers (s : Store) (v : Value) : Prop :=
  v.Within s.scopes.size s.closures

theorem covers_list {s : Store} {vs : List Value} :
    s.Covers (.list vs) ↔ ∀ v ∈ vs, s.Covers v :=
  Value.within_list

/-- What a primitive makes of covered values is covered. -/
theorem covers_primitive {s : Store} {p : Primitive} {args : List Value} {v : Value}
    (ha : ∀ a ∈ args, s.Covers a) (hp : p.apply args = .ok v) : s.Covers v :=
  Primitive.apply_built (fun _ _ => trivial) (fun _ => trivial) trivial (fun _ => covers_list) ha v hp

/-- No scope and no closure is lost. -/
def Grew (s s' : Store) : Prop :=
  s.scopes.size ≤ s'.scopes.size ∧ s.closures ≤ s'.closures

/-- Scopes lie in older ones, and what they bind is covered. -/
structure Sound (s : Store) : Prop where
  outer : ∀ {i : Nat} {scope : Scope} {o : Nat}, s.scopes[i]? = some scope →
    scope.outer = some o → o < i
  covers : s.Binds s.Covers

variable {s s' s'' : Store} {v : Value}

theorem Grew.refl (s : Store) : s.Grew s := ⟨Nat.le_refl _, Nat.le_refl _⟩

theorem Grew.trans (h : s.Grew s') (h' : s'.Grew s'') : s.Grew s'' :=
  ⟨Nat.le_trans h.1 h'.1, Nat.le_trans h.2 h'.2⟩

theorem Grew.covers (h : s.Grew s') (hv : s.Covers v) : s'.Covers v :=
  Value.Within.mono h.1 h.2 hv

theorem grew_openScope (s : Store) (scope : Scope) : s.Grew (s.openScope scope).2 :=
  ⟨by simp [openScope], Nat.le_refl _⟩

theorem size_define (s : Store) (e : ScopeId) (name : String) (v : Value) :
    (s.define e name v).scopes.size = s.scopes.size := by
  rw [Store.define, Array.size_modify]

theorem grew_define (s : Store) (e : ScopeId) (name : String) (v : Value) :
    s.Grew (s.define e name v) :=
  ⟨Nat.le_of_eq (s.size_define e name v).symm, Nat.le_refl _⟩

theorem grew_close (s : Store) (e : ScopeId) (params : List Value) (body : Value) :
    s.Grew (s.close e params body).2 :=
  ⟨Nat.le_refl _, Nat.le_succ _⟩

theorem Sound.openScope (h : s.Sound) {scope : Scope}
    (ho : ∀ o, scope.outer = some o → o < s.scopes.size) (hb : ∀ b ∈ scope.bindings, s.Covers b.2) :
    (s.openScope scope).2.Sound := by
  constructor
  · intro i x o hx hxo
    rcases getElem?_openScope hx with ⟨rfl, rfl⟩ | hx
    · exact ho o hxo
    · exact h.outer hx hxo
  · exact (h.covers.openScope hb).imp fun _ => (s.grew_openScope scope).covers

theorem Sound.define (h : s.Sound) {e : Nat} {name : String} (hv : s.Covers v) :
    (s.define e name v).Sound := by
  constructor
  · intro i x o hx hxo
    obtain ⟨y, hy, houter, -⟩ := getElem?_define hx
    exact h.outer hy (houter ▸ hxo)
  · exact (h.covers.define hv).imp fun _ => (s.grew_define e name v).covers

theorem Sound.close (h : s.Sound) (e : Nat) (params : List Value) (body : Value) :
    (s.close e params body).2.Sound :=
  ⟨h.outer, (h.covers.close e params body).imp fun _ => (s.grew_close e params body).covers⟩

theorem covers_close {e : Nat} {params : List Value} {body : Value} (he : e < s.scopes.size)
    (hp : ∀ v ∈ params, s.Covers v) (hb : s.Covers body) :
    (s.close e params body).2.Covers (s.close e params body).1 := by
  have hgrew := s.grew_close e params body
  exact Value.within_closure.2
    ⟨Nat.lt_succ_self _, he, fun v hv => hgrew.covers (hp v hv), hgrew.covers hb⟩

end Store

end AmbLisp
