import AmbLisp.Proofs.Store.Sound

/-!
# The way outwards

`Chain` is the way from a scope outwards to one that has no scope around it, told without a bound on
its length. Where scopes lie in older ones, as in a sound store, there is one from every scope
(`Layered.exists_chain`). Along it the bounded walks of a store agree with the unbounded ones: a walk
that may be as long as the chain sees all of it, and a longer bound changes nothing
(`Chain.lookupWithin`, `Chain.findWithin`, `Chain.chainWithin`).
-/

namespace AmbLisp.Store

/-- The scopes from one outwards, to a scope that has none around it. -/
inductive Chain (s : Store) : Nat → List Nat → Prop
  | last {e : Nat} {scope : Scope} (hs : s.scopes[e]? = some scope) (ho : scope.outer = none) :
    Chain s e [e]
  | link {e o : Nat} {scope : Scope} {es : List Nat} (hs : s.scopes[e]? = some scope)
    (ho : scope.outer = some o) (h : Chain s o es) : Chain s e (e :: es)

/-- The value of a name in one scope. -/
def get? (s : Store) (name : String) (e : Nat) : Option Value :=
  s.scopes[e]?.bind fun scope => scope.get? name

variable {s : Store} {e : Nat} {es : List Nat}

theorem get?_eq {scope : Scope} (hs : s.scopes[e]? = some scope) (name : String) :
    s.get? name e = scope.get? name := by
  rw [get?, hs, Option.bind_some]

/-- There is only one way outwards. -/
theorem Chain.unique {es' : List Nat} (h : s.Chain e es) (h' : s.Chain e es') : es = es' := by
  induction h generalizing es' with
  | last hs ho =>
    cases h' with
    | last => rfl
    | link hs' ho' =>
      cases hs.symm.trans hs'
      cases ho.symm.trans ho'
  | link hs ho _ ih =>
    cases h' with
    | last hs' ho' =>
      cases hs.symm.trans hs'
      cases ho.symm.trans ho'
    | link hs' ho' h' =>
      cases hs.symm.trans hs'
      cases ho.symm.trans ho'
      rw [ih h']

/-! ## Bounded walks -/

theorem Chain.chainWithin (h : s.Chain e es) {n : Nat} (hn : es.length ≤ n) :
    s.chainWithin n e = es := by
  induction h generalizing n with
  | last hs ho =>
    obtain ⟨n, rfl⟩ := Nat.exists_eq_add_one.2 hn
    simp only [Store.chainWithin, hs, ho]
  | link hs ho _ ih =>
    obtain ⟨n, rfl⟩ := Nat.exists_eq_add_one.2 (Nat.lt_of_lt_of_le (Nat.succ_pos _) hn)
    simp only [Store.chainWithin, hs, ho, ih (Nat.le_of_succ_le_succ hn)]

/-- The value of a name is that in the first scope on the way outwards that binds it. -/
theorem Chain.lookupWithin (h : s.Chain e es) (name : String) {n : Nat} (hn : es.length ≤ n) :
    s.lookupWithin name n e = es.findSome? (s.get? name) := by
  induction h generalizing n with
  | @last e scope hs ho =>
    obtain ⟨n, rfl⟩ := Nat.exists_eq_add_one.2 hn
    rw [List.findSome?_cons, get?_eq hs]
    simp only [Store.lookupWithin, hs, ho]
    cases scope.get? name <;> rfl
  | @link e o scope es hs ho _ ih =>
    obtain ⟨n, rfl⟩ := Nat.exists_eq_add_one.2 (Nat.lt_of_lt_of_le (Nat.succ_pos _) hn)
    rw [List.findSome?_cons, get?_eq hs]
    simp only [Store.lookupWithin, hs, ho]
    cases scope.get? name with
    | some v => rfl
    | none => exact ih (Nat.le_of_succ_le_succ hn)

/-- The scope that a name is bound in is the first one on the way outwards that binds it. -/
theorem Chain.findWithin (h : s.Chain e es) (name : String) {n : Nat} (hn : es.length ≤ n) :
    s.findWithin name n e = es.find? fun i => (s.get? name i).isSome := by
  induction h generalizing n with
  | @last e scope hs ho =>
    obtain ⟨n, rfl⟩ := Nat.exists_eq_add_one.2 hn
    rw [List.find?_cons, get?_eq hs]
    simp only [Store.findWithin, hs, ho]
    cases scope.get? name <;> rfl
  | @link e o scope es hs ho _ ih =>
    obtain ⟨n, rfl⟩ := Nat.exists_eq_add_one.2 (Nat.lt_of_lt_of_le (Nat.succ_pos _) hn)
    rw [List.find?_cons, get?_eq hs]
    simp only [Store.findWithin, hs, ho]
    cases scope.get? name with
    | some v => rfl
    | none => exact ih (Nat.le_of_succ_le_succ hn)

/-! ## Stores in layers -/

/-- Each scope lies in none or in an older one. -/
def Layered (s : Store) : Prop :=
  ∀ (i : Nat) (scope : Scope) (o : Nat), s.scopes[i]? = some scope → scope.outer = some o → o < i

/-- **Where scopes lie in older ones every chain ends.** It is no longer than the number of scopes up
to its first one. -/
theorem Layered.exists_chain (h : s.Layered) (he : e < s.scopes.size) :
    ∃ es, s.Chain e es ∧ es.length ≤ e + 1 := by
  induction e using Nat.strongRecOn with
  | ind e ih =>
    have hs : s.scopes[e]? = some s.scopes[e] := Array.getElem?_eq_getElem he
    cases ho : s.scopes[e].outer with
    | none => exact ⟨[e], .last hs ho, by simp⟩
    | some o =>
      have hlt : o < e := h _ _ _ hs ho
      obtain ⟨es, hes, hlen⟩ := ih o hlt (Nat.lt_trans hlt he)
      refine ⟨e :: es, .link hs ho hes, ?_⟩
      rw [List.length_cons]
      exact Nat.succ_le_succ (Nat.le_trans hlen hlt)

/-- There the walks go to the end of the chain. -/
theorem Layered.chain_spec (h : s.Layered) (he : e < s.scopes.size) :
    s.Chain e (s.chain e) ∧
      (∀ name, s.lookup e name = (s.chain e).findSome? (s.get? name)) ∧
      ∀ name, s.find? e name = (s.chain e).find? fun i => (s.get? name i).isSome := by
  obtain ⟨es, hes, hlen⟩ := h.exists_chain he
  have hchain : s.chain e = es := hes.chainWithin hlen
  rw [hchain]
  exact ⟨hes, fun name => hes.lookupWithin name hlen, fun name => hes.findWithin name hlen⟩

theorem Sound.layered (h : s.Sound) : s.Layered :=
  fun _ _ _ => h.outer

/-- The walks of a sound store go to the end of the chain. -/
theorem Sound.chain_spec (h : s.Sound) (he : e < s.scopes.size) :
    s.Chain e (s.chain e) ∧
      (∀ name, s.lookup e name = (s.chain e).findSome? (s.get? name)) ∧
      ∀ name, s.find? e name = (s.chain e).find? fun i => (s.get? name i).isSome :=
  h.layered.chain_spec he

end AmbLisp.Store
