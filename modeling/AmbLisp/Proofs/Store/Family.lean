import AmbLisp.Proofs.Eval.Nesting
import AmbLisp.Proofs.Store.Extends

/-!
# Families of scopes

`environment_laws` says how a family of scopes behaves that was built by opening scopes and by binding
names, in any order (`Store.Built`). A name has the value that it has in the first scope outwards that
binds it, and the walks that look for this value, for its scope and for the scopes around one agree on
that. To bind a name in a scope changes what is seen from the scopes that the new binding is not hidden
from (`Store.Sees`), and nothing else. The scope of a call binds each name to the value at its last
position, and if there is none, nothing has changed.
-/

namespace AmbLisp

namespace Store

/-- Opens the scope of a call. A store in which it cannot be made is left as it is. -/
def bindMany (s : Store) (outer : Option ScopeId) (names values : List Value) :
    Except Fault ScopeId × Store :=
  match Scope.ofParams outer names values with
  | .ok scope => (.ok (s.openScope scope).1, (s.openScope scope).2)
  | .error fault => (.error fault, s)

/-- The value of a name, seen from a scope, or the fault that there is none. -/
def fetch (s : Store) (f : ScopeId) (name : String) : Except Fault Value :=
  match s.lookup f name with
  | some v => .ok v
  | none => .error (.unbound name)

/-- `e` lies on the way outwards from `f`, and no scope before it binds the name. -/
def Sees (s : Store) (f : ScopeId) (name : String) (e : ScopeId) : Prop :=
  ∃ near far, s.chain f = near ++ e :: far ∧ ∀ i ∈ near, s.get? name i = none

/-- The stores that come from the empty one by opening scopes inside those that are there, by binding
names in them and by making closures over them. -/
inductive Built : Store → Prop
  | empty : Built {}
  | new {s : Store} (h : Built s) (outer : Option ScopeId)
    (ho : ∀ o, outer = some o → o < s.scopes.size) : Built (s.openScope { outer }).2
  | bindMany {s : Store} (h : Built s) (outer : Option ScopeId)
    (ho : ∀ o, outer = some o → o < s.scopes.size) (names values : List Value) :
    Built (s.bindMany outer names values).2
  | define {s : Store} (h : Built s) (e : ScopeId) (name : String) (v : Value) :
    Built (s.define e name v)
  | close {s : Store} (h : Built s) (e : ScopeId) (params : List Value) (body : Value) :
    Built (s.close e params body).2

end Store

/-- A closure is applied in the scope that binds its parameters. -/
theorem Evaluator.outcome_apply_closure (ev : Evaluator) (host : Host) (serial : Nat) (o : ScopeId)
    (params args : List Value) (body : Value) (w : World) :
    (ev.apply host (.closure serial o params body :: args)).outcome w =
      match w.store.bindMany (some o) params args with
      | (.ok e, s) => (ev body e).outcome { w with store := s }
      | (.error fault, s) => (.error fault, { w with store := s }) := by
  rw [Evaluator.apply, Store.bindMany]
  cases Scope.ofParams (some o) params args with
  | error fault => rfl
  | ok call => rw [ExceptT.outcome_bind, Run.outcome_openScope]; rfl

theorem Run.outcome_lookup_fetch (f : ScopeId) (name : String) (w : World) :
    (Run.lookup f name).outcome w = (w.store.fetch f name, w) := by
  rw [Run.outcome_lookup, Store.fetch]
  cases w.store.lookup f name <;> rfl

namespace Store

variable {s : Store} {e f : Nat} {name : String} {v : Value}

theorem bindMany_cases (s : Store) (outer : Option ScopeId) (names values : List Value) :
    (∃ scope, Scope.ofParams outer names values = .ok scope ∧
      s.bindMany outer names values = (.ok s.scopes.size, (s.openScope scope).2)) ∨
    ∃ fault, Scope.ofParams outer names values = .error fault ∧
      s.bindMany outer names values = (.error fault, s) := by
  rw [bindMany]
  cases Scope.ofParams outer names values with
  | error fault => exact .inr ⟨fault, rfl, rfl⟩
  | ok scope => exact .inl ⟨scope, rfl, rfl⟩

/-! ## Scopes lie in older ones -/

theorem Layered.openScope (h : s.Layered) {scope : Scope}
    (ho : ∀ o, scope.outer = some o → o < s.scopes.size) : (s.openScope scope).2.Layered := by
  intro i x o hx hxo
  rcases getElem?_openScope hx with ⟨rfl, rfl⟩ | hx
  · exact ho o hxo
  · exact h i x o hx hxo

theorem Layered.define (h : s.Layered) (e : ScopeId) (name : String) (v : Value) :
    (s.define e name v).Layered := by
  intro i x o hx hxo
  obtain ⟨y, hy, houter, -⟩ := getElem?_define hx
  exact h i y o hy (houter ▸ hxo)

theorem Built.layered (h : s.Built) : s.Layered := by
  induction h with
  | empty => exact nofun
  | new _ outer ho ih => exact ih.openScope ho
  | bindMany _ outer ho names values ih =>
    rcases bindMany_cases _ outer names values with ⟨call, hcall, hmade⟩ | ⟨fault, -, hmade⟩
    · rw [hmade]
      exact ih.openScope fun o h => ho o (Scope.outer_ofParams hcall ▸ h)
    · rw [hmade]
      exact ih
  | define _ e name v ih => exact ih.define e name v
  | close _ e params body ih => exact ih

/-! ## Looking names up -/

theorem fetch_eq_ok : s.fetch f name = .ok v ↔ s.lookup f name = some v := by
  rw [fetch]
  cases s.lookup f name <;> simp

theorem fetch_eq_unbound : s.fetch f name = .error (.unbound name) ↔ s.lookup f name = none := by
  rw [fetch]
  cases s.lookup f name <;> simp

theorem Layered.lookup_eq_some (h : s.Layered) (hf : f < s.scopes.size) :
    s.lookup f name = some v ↔ ∃ e, s.Sees f name e ∧ s.get? name e = some v := by
  rw [(h.chain_spec hf).2.1, List.findSome?_eq_some_iff]
  constructor
  · rintro ⟨near, e, far, hchain, hv, hnear⟩
    exact ⟨e, ⟨near, far, hchain, hnear⟩, hv⟩
  · rintro ⟨e, ⟨near, far, hchain, hnear⟩, hv⟩
    exact ⟨near, e, far, hchain, hv, hnear⟩

theorem Layered.lookup_eq_none (h : s.Layered) (hf : f < s.scopes.size) :
    s.lookup f name = none ↔ ∀ e ∈ s.chain f, s.get? name e = none := by
  rw [(h.chain_spec hf).2.1, List.findSome?_eq_none_iff]

theorem Layered.find?_eq_some (h : s.Layered) (hf : f < s.scopes.size) :
    s.find? f name = some e ↔ s.Sees f name e ∧ (s.get? name e).isSome := by
  rw [(h.chain_spec hf).2.2, List.find?_eq_some_iff_append]
  constructor
  · rintro ⟨he, near, far, hchain, hnear⟩
    exact ⟨⟨near, far, hchain, fun i hi => by simpa using hnear i hi⟩, he⟩
  · rintro ⟨⟨near, far, hchain, hnear⟩, he⟩
    exact ⟨he, near, far, hchain, fun i hi => by simp [hnear i hi]⟩

theorem Layered.binds_iff (h : s.Layered) (hf : f < s.scopes.size) :
    s.binds f name ↔ ∃ e ∈ s.chain f, (s.get? name e).isSome := by
  rw [binds, (h.chain_spec hf).2.2, List.find?_isSome]

/-! ## Binding a name -/

theorem get?_define (he : e < s.scopes.size) (name other : String) (v : Value) (i : Nat) :
    (s.define e name v).get? other i = if other = name ∧ i = e then some v else s.get? other i := by
  rw [get?, Store.define, Array.getElem?_modify]
  by_cases hi : i = e
  · subst hi
    rw [if_pos rfl, Array.getElem?_eq_getElem he, Option.map_some, Option.bind_some,
      Scope.get?_set, get?_eq (Array.getElem?_eq_getElem he)]
    simp
  · rw [if_neg (Ne.symm hi), if_neg fun h => hi h.2, get?]

theorem Layered.chain_define (h : s.Layered) (hf : f < s.scopes.size) (e : ScopeId) (name : String)
    (v : Value) : (s.define e name v).chain f = s.chain f := by
  have hf' : f < (s.define e name v).scopes.size := (s.size_define e name v).symm ▸ hf
  have hchain := (s.nests_define e name v).chain (h.chain_spec hf).1
  exact ((h.define e name v).chain_spec hf').1.unique hchain

/-- What a name is bound to after another binding, seen from any scope. -/
theorem Layered.lookup_define (h : s.Layered) (he : e < s.scopes.size) (hf : f < s.scopes.size)
    (name other : String) (v : Value) :
    (s.define e name v).lookup f other =
      (s.chain f).findSome? fun i => if other = name ∧ i = e then some v else s.get? other i := by
  have hf' : f < (s.define e name v).scopes.size := (s.size_define e name v).symm ▸ hf
  rw [((h.define e name v).chain_spec hf').2.1, h.chain_define hf]
  exact congrArg (List.findSome? · _) (funext (get?_define he name other v))

/-- A binding is seen wherever no nearer scope binds the name. -/
theorem Layered.lookup_define_of_sees (h : s.Layered) (he : e < s.scopes.size)
    (hf : f < s.scopes.size) (hsees : s.Sees f name e) :
    (s.define e name v).lookup f name = some v := by
  obtain ⟨near, far, hchain, hnear⟩ := hsees
  rw [h.lookup_define he hf, hchain, List.findSome?_append, List.findSome?_cons]
  simp only [true_and, if_true]
  -- `e` itself may stand among the scopes before it as far as this argument goes
  cases hfirst : near.findSome? fun i => if i = e then some v else s.get? name i with
  | none => rfl
  | some u =>
    obtain ⟨i, hi, hu⟩ := List.exists_of_findSome?_eq_some hfirst
    rw [hnear i hi] at hu
    split at hu
    · rw [Option.some_or, hu]
    · cases hu

/-- Other scopes than the one that a name is bound in have it as before. -/
theorem findSome?_define {es : List Nat} (h : e ∉ es) (s : Store) (name : String) (v : Value) :
    (es.findSome? fun i => if i = e then some v else s.get? name i) =
      es.findSome? (s.get? name) := by
  induction es with
  | nil => rfl
  | cons i es ih =>
    obtain ⟨hi, hes⟩ := not_or.1 (mt List.mem_cons.2 h)
    rw [List.findSome?_cons, List.findSome?_cons, if_neg (Ne.symm hi), ih hes]

/-- A binding is not seen under another name, and not where its scope is out of sight. -/
theorem Layered.lookup_define_of_not (h : s.Layered) (he : e < s.scopes.size)
    (hf : f < s.scopes.size) {other : String} (hnot : ¬ (other = name ∧ s.Sees f name e)) :
    (s.define e name v).lookup f other = s.lookup f other := by
  rw [h.lookup_define he hf, (h.chain_spec hf).2.1]
  by_cases hname : other = name
  · subst hname
    simp only [true_and]
    by_cases hmem : e ∈ s.chain f
    · obtain ⟨near, far, hchain, hfresh⟩ := List.eq_append_cons_of_mem hmem
      -- a nearer scope binds the name, before and after
      have hnear : ∃ u, near.findSome? (s.get? other) = some u := by
        refine Option.ne_none_iff_exists'.1 fun hnone => hnot ⟨rfl, near, far, hchain, ?_⟩
        exact List.findSome?_eq_none_iff.1 hnone
      obtain ⟨u, hu⟩ := hnear
      rw [hchain, List.findSome?_append, List.findSome?_append, findSome?_define hfresh, hu]
      rfl
    · exact findSome?_define hmem s other v
  · simp only [hname, false_and, if_false]

/-! ## The scope of a call -/

theorem isOk_bindMany (s : Store) (outer : Option ScopeId) (names values : List Value) :
    (s.bindMany outer names values).1.isOk ↔
      names.length = values.length ∧ ∀ x ∈ names, ∃ name, x = .sym name := by
  rw [← Scope.isOk_ofParams, bindMany]
  cases Scope.ofParams outer names values <;> rfl

/-- A new scope that binds each name to the value at its last position, and nothing else is changed. -/
theorem of_bindMany_ok {outer : Option ScopeId} {names values : List Value}
    (h : (s.bindMany outer names values).1 = .ok e) :
    let s' := (s.bindMany outer names values).2
    e = s.scopes.size ∧ s'.scopes[e]?.map (·.outer) = some outer ∧
      (∀ i < s.scopes.size, s'.scopes[i]? = s.scopes[i]?) ∧
      ∀ name v, s'.get? name e = some v ↔
        ∃ i : Nat, names[i]? = some (.sym name) ∧ values[i]? = some v ∧
          ∀ j : Nat, i < j → names[j]? ≠ some (.sym name) := by
  rcases s.bindMany_cases outer names values with ⟨scope, hscope, hmade⟩ | ⟨fault, -, hmade⟩
  · rw [hmade] at h ⊢
    obtain rfl : s.scopes.size = e := Except.ok.inj h
    have hnew := s.getElem?_openScope_size scope
    refine ⟨rfl, ?_, fun i hi => (s.extends_openScope scope).same hi, fun name v => ?_⟩
    · rw [hnew, Option.map_some, Scope.outer_ofParams hscope]
    · rw [get?_eq hnew, Scope.get?_ofParams hscope]
  · rw [hmade] at h
    cases h

theorem of_bindMany_error {outer : Option ScopeId} {names values : List Value} {fault : Fault}
    (h : (s.bindMany outer names values).1 = .error fault) :
    (s.bindMany outer names values).2 = s := by
  rcases s.bindMany_cases outer names values with ⟨scope, -, hmade⟩ | ⟨fault, -, hmade⟩
  · rw [hmade] at h
    cases h
  · rw [hmade]

end Store

open Store

/-- **The laws of environments.** Seen from a scope of a family, a name has the value that it has in the
first scope of the chain that binds it; that is the scope found for it, there is one just if the name
is bound, and to look it up fails just if there is none. A new binding in `e` is what is looked up from
the scopes whose chains reach `e` before any other scope that binds the name. From the others, and
under other names, the value or the fault is the one before. A scope is made for a call just if there is
a value for each name and all names are symbols; it lies where it should, binds each name to the value
at its last position, and changes no other scope. Nothing changes if it is not made. This is how an
evaluation looks names up, and how it applies a closure. -/
theorem environment_laws {s : Store} (h : s.Built) :
    (∀ f < s.scopes.size, ∀ name : String,
      s.Chain f (s.chain f) ∧
      (∀ v, s.fetch f name = .ok v ↔ ∃ e, s.Sees f name e ∧ s.get? name e = some v) ∧
      (∀ e, s.find? f name = some e ↔ s.Sees f name e ∧ (s.get? name e).isSome) ∧
      (s.binds f name ↔ ∃ e ∈ s.chain f, (s.get? name e).isSome) ∧
      (s.fetch f name = .error (.unbound name) ↔ ∀ e ∈ s.chain f, s.get? name e = none)) ∧
    (∀ e < s.scopes.size, ∀ (name : String) (v : Value), ∀ f < s.scopes.size,
      let s' := s.define e name v
      s'.chain f = s.chain f ∧
      (s.Sees f name e → s'.fetch f name = .ok v) ∧
      ∀ other, ¬ (other = name ∧ s.Sees f name e) → s'.fetch f other = s.fetch f other) ∧
    (∀ (outer : Option ScopeId) (names values : List Value),
      let made := s.bindMany outer names values
      (made.1.isOk ↔ names.length = values.length ∧ ∀ x ∈ names, ∃ name, x = .sym name) ∧
      (∀ e, made.1 = .ok e →
        e = s.scopes.size ∧ made.2.scopes[e]?.map (·.outer) = some outer ∧
        (∀ i < s.scopes.size, made.2.scopes[i]? = s.scopes[i]?) ∧
        ∀ name v, made.2.get? name e = some v ↔
          ∃ i : Nat, names[i]? = some (.sym name) ∧ values[i]? = some v ∧
            ∀ j : Nat, i < j → names[j]? ≠ some (.sym name)) ∧
      ∀ fault, made.1 = .error fault → made.2 = s) ∧
    ∀ w : World, w.store = s →
      (∀ f name, (Run.lookup f name).outcome w = (s.fetch f name, w)) ∧
      ∀ (ev : Evaluator) (host : Host) (serial : Nat) (o : ScopeId) (params args : List Value)
        (body : Value),
        (ev.apply host (.closure serial o params body :: args)).outcome w =
          match s.bindMany (some o) params args with
          | (.ok e, s') => (ev body e).outcome { w with store := s' }
          | (.error fault, s') => (.error fault, { w with store := s' }) := by
  have hlayered := h.layered
  refine ⟨fun f hf name => ?_, fun e he name v f hf => ?_, fun outer names values => ?_, ?_⟩
  · refine ⟨(hlayered.chain_spec hf).1, fun v => ?_, fun e => hlayered.find?_eq_some hf,
      hlayered.binds_iff hf, ?_⟩
    · rw [fetch_eq_ok, hlayered.lookup_eq_some hf]
    · rw [fetch_eq_unbound, hlayered.lookup_eq_none hf]
  · refine ⟨hlayered.chain_define hf e name v, fun hsees => ?_, fun other hnot => ?_⟩
    · exact fetch_eq_ok.2 (hlayered.lookup_define_of_sees he hf hsees)
    · rw [fetch, fetch, hlayered.lookup_define_of_not he hf hnot]
  · exact ⟨isOk_bindMany s outer names values, fun e => of_bindMany_ok,
      fun fault => of_bindMany_error⟩
  · rintro w rfl
    exact ⟨fun f name => Run.outcome_lookup_fetch f name w,
      fun ev host serial o params args body =>
        ev.outcome_apply_closure host serial o params args body w⟩

/-- A scope that binds `x` inside one that binds `x` as well: another binding of `x` further out is
hidden, one of `y` is seen, and of the values for two parameters `a` the second one counts. -/
theorem environment_laws_shadowed :
    let s : Store :=
      (((({} : Store).openScope {}).2.define 0 "x" (.int 1)).openScope { outer := some 0 }).2.define 1
        "x" (.int 2)
    s.Built ∧ (s.define 0 "x" (.int 3)).fetch 1 "x" = s.fetch 1 "x" ∧
      (s.define 0 "y" (.int 3)).fetch 1 "y" = .ok (.int 3) ∧
      ∃ e, (s.bindMany (some 1) [.sym "a", .sym "a"] [.int 1, .int 2]).1 = .ok e ∧
        (s.bindMany (some 1) [.sym "a", .sym "a"] [.int 1, .int 2]).2.get? "a" e = some (.int 2) := by
  intro s
  have hbuilt : s.Built :=
    .define (.new (.define (.new .empty none nofun) 0 "x" (.int 1)) (some 0)
      (by intro o ho; cases ho; decide)) 1 "x" (.int 2)
  obtain ⟨-, hdefine, hbind, -⟩ := environment_laws hbuilt
  have hhidden : ¬ s.Sees 1 "x" 0 := by
    rintro ⟨near, far, hchain, hnear⟩
    have hboth : [1, 0] = near ++ 0 :: far := hchain
    cases near with
    | nil => cases hboth
    | cons i near =>
      obtain ⟨rfl, -⟩ := List.cons.inj hboth
      cases hnear 1 List.mem_cons_self
  have hseen : s.Sees 1 "y" 0 := ⟨[1], [], by decide, by decide⟩
  obtain ⟨-, -, hother⟩ := hdefine 0 (by decide) "x" (.int 3) 1 (by decide)
  obtain ⟨-, hsame, -⟩ := hdefine 0 (by decide) "y" (.int 3) 1 (by decide)
  obtain ⟨-, hnew, -⟩ := hbind (some 1) [.sym "a", .sym "a"] [.int 1, .int 2]
  refine ⟨hbuilt, hother "x" fun h => hhidden h.2, hsame hseen, 2, rfl, ?_⟩
  obtain ⟨-, -, -, hvalues⟩ := hnew 2 rfl
  refine (hvalues "a" (.int 2)).2 ⟨1, rfl, rfl, fun j hj => ?_⟩
  rw [List.getElem?_eq_none (show 2 ≤ j from hj)]
  nofun

end AmbLisp
